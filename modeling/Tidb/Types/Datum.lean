import Tidb.Types.MyDecimal
import Tidb.Types.Time
import Tidb.Lib.Binary

/-!
# Datums, and what encoding them depends on

One constructor for each kind of `types/datum.go`, with the fields that the kind uses.  Floating-point numbers are
their IEEE 754 bits, also those of a `float32`.  Of the statement context the encoders' part is kept, without its
warnings.
-/

namespace Tidb.Types

open GoLang ByteNum

/-- The collations that the source has a collator for; `unknown` is any other name. -/
inductive Collation where
  | binary | asciiBin | latin1Bin | utf8mb4Bin | utf8Bin
  | utf8mb4GeneralCi | utf8GeneralCi | utf8mb4UnicodeCi | utf8UnicodeCi
  | utf8mb4ZhPinyinTidbAsCs | gbkBin | gbkChineseCi | unknown
  deriving DecidableEq, Repr

/-- Whether the new collations are on, the sort keys of the collations that are not binary, Go's UTC location, and the
conversion of a `float64` to a `float32` and back. -/
structure Env where
  newCollationEnabled : Bool
  weightKey : Collation → Bytes → Bytes
  utc : Location
  float32 : UInt64 → UInt64
  float32_float32 : ∀ bits, float32 (float32 bits) = float32 bits
  float32_zero : float32 0 = 0

def truncateTailingSpace (str : Bytes) : Bytes := (str.reverse.dropWhile (· == 0x20)).reverse

def Env.collatorKey (env : Env) (collate : Collation) (str : Bytes) : Bytes :=
  if env.newCollationEnabled then
    match collate with
    | .binary => str
    | .asciiBin | .latin1Bin | .utf8mb4Bin | .utf8Bin | .unknown => truncateTailingSpace str
    | c => env.weightKey c str
  else str

structure BinaryJSON where
  typeCode : UInt8
  value : Bytes
  deriving DecidableEq, Repr

structure Duration where
  duration : Int64
  fsp : Int
  deriving DecidableEq, Repr

/-- An element of an enumeration, or the elements of a set: the number and the name. -/
structure Named where
  value : UInt64
  name : Bytes
  deriving DecidableEq, Repr

inductive Datum where
  | null
  | int64 (i : Int64)
  | uint64 (u : UInt64)
  | float32 (bits : UInt64)
  | float64 (bits : UInt64)
  | string (b : Bytes) (collation : Collation)
  | bytes (b : Bytes)
  | binaryLiteral (b : Bytes)
  | mysqlDecimal (d : MyDecimal) (length frac : Nat)
  | mysqlDuration (d : Duration)
  | mysqlEnum (e : Named) (collation : Collation)
  | mysqlBit (b : Bytes)
  | mysqlSet (s : Named) (collation : Collation)
  | mysqlTime (t : Time)
  | interface
  | minNotNull
  | maxValue
  | raw (b : Bytes)
  | mysqlJSON (j : BinaryJSON)
  deriving DecidableEq

def Datum.kind : Datum → Nat
  | .null => 0
  | .int64 _ => 1
  | .uint64 _ => 2
  | .float32 _ => 3
  | .float64 _ => 4
  | .string _ _ => 5
  | .bytes _ => 6
  | .binaryLiteral _ => 7
  | .mysqlDecimal _ _ _ => 8
  | .mysqlDuration _ => 9
  | .mysqlEnum _ _ => 10
  | .mysqlBit _ => 11
  | .mysqlSet _ _ => 12
  | .mysqlTime _ => 13
  | .interface => 14
  | .minNotNull => 15
  | .maxValue => 16
  | .raw _ => 17
  | .mysqlJSON _ => 18

def Datum.isNull : Datum → Bool
  | .null => true
  | _ => false

/-- The time zone of a session: `time.UTC` itself, or another location. -/
inductive TimeZone where
  | utc
  | loc (l : Location)

structure StatementContext where
  timeZone : TimeZone
  ignoreTruncate : Bool
  truncateAsWarning : Bool
  overflowAsWarning : Bool

def StatementContext.handleTruncate (sc : StatementContext) (err : Err) : Option Err :=
  if sc.ignoreTruncate then none
  else if sc.truncateAsWarning then none
  else some err

def StatementContext.handleOverflow (sc : StatementContext) (err : Err) : Option Err :=
  if sc.overflowAsWarning then none else some err

/-- `trimLeadingZeroBytes` keeps the last byte even when it is zero. -/
def trimLeadingZeroBytes : Bytes → Bytes
  | [] => []
  | [b] => [b]
  | b :: b' :: bs => if b = 0 then trimLeadingZeroBytes (b' :: bs) else b :: b' :: bs

/-- `BinaryLiteral.ToInt`, with the error beside the number. -/
def binaryLiteralToInt (b : Bytes) (sc : Option StatementContext) : UInt64 × Option Err :=
  let buf := trimLeadingZeroBytes b
  if buf.length = 0 then (0, none)
  else if 8 < buf.length then
    let err := Err.errTruncatedWrongVal [.text "BINARY", .bytes b]
    (0xFFFFFFFFFFFFFFFF, match sc with
      | none => some err
      | some sc => sc.handleTruncate err)
  else (UInt64.ofNat (beNat buf), none)

end Tidb.Types
