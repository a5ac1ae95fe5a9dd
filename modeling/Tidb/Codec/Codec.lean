import Tidb.Codec.Bytes
import Tidb.Types.Datum
import Tidb.Types.DecimalBin
import Tidb.Types.Json

/-!
# Datums as bytes (`util/codec/codec.go`, `decimal.go`, `float.go`)

An encoded datum is a flag and what the flag announces.  `EncodeKey` writes the memory-comparable forms
and `EncodeValue` the compact ones; `DecodeOne` reads either.  `CutOne` splits off the first item
without decoding it: `peek` finds its length by rules of its own.
-/

namespace Tidb.Codec

open GoLang ByteNum Tidb.Types

def nilFlag : UInt8 := 0
def bytesFlag : UInt8 := 1
def compactBytesFlag : UInt8 := 2
def intFlag : UInt8 := 3
def uintFlag : UInt8 := 4
def floatFlag : UInt8 := 5
def decimalFlag : UInt8 := 6
def durationFlag : UInt8 := 7
def varintFlag : UInt8 := 8
def uvarintFlag : UInt8 := 9
def jsonFlag : UInt8 := 10
def maxFlag : UInt8 := 250

/-! ## Floating-point numbers -/

/-- `f >= 0` for the number with these bits: a clear sign and no NaN, or a negative zero. -/
def floatNonneg (bits : UInt64) : Bool :=
  decide (bits.toNat ≤ 0x7FF0000000000000) || decide (bits = signMask)

def encodeFloatToCmpUint64 (bits : UInt64) : UInt64 :=
  if floatNonneg bits then bits ||| signMask else ~~~bits

def decodeCmpUintToFloat (u : UInt64) : UInt64 :=
  if u &&& signMask ≠ 0 then u &&& ~~~signMask else ~~~u

def encodeFloat (b : Bytes) (bits : UInt64) : Bytes := encodeUint b (encodeFloatToCmpUint64 bits)

def decodeFloat (b : Bytes) : Res (Bytes × UInt64) := do
  let (b, u) ← decodeUint b
  return (b, decodeCmpUintToFloat u)

/-! ## Decimals -/

def decimalScale (dec : MyDecimal) (precision frac : Int) : Res (Int × Int) := do
  let (precision, frac) ← if precision = 0 then precisionAndFrac dec else .ok (precision, frac)
  return (precision, if maxDecimalScale < frac then maxDecimalScale else frac)

/-- `EncodeDecimal`, with the error beside the bytes; `spare` is what the capacity of the buffer holds
behind `b`. -/
def encodeDecimal (b spare : Bytes) (dec : MyDecimal) (precision frac : Int) : Res (Bytes × Option Err) := do
  let (precision, frac) ← decimalScale dec precision frac
  let b := b ++ [UInt8.ofNat (precision % 256).toNat, UInt8.ofNat (frac % 256).toNat]
  writeBin dec precision frac b (spare.drop 2)

def decodeDecimal (b : Bytes) : Res (Bytes × MyDecimal × Int × Int) :=
  if b.length < 3 then .error errInsufficient
  else do
    let precision ← index b 0
    let frac ← index b 1
    let b ← sliceFrom b 2
    let (binSize, dec, err) ← fromBin zeroMyDecimal b precision.toNat frac.toNat
    let b ← sliceFromInt b binSize
    match err with
    | some e => .error e
    | none => return (b, dec, precision.toNat, frac.toNat)

/-! ## Encoding -/

def timeToPack (env : Env) (sc : Option StatementContext) (t : Time) (tp : MysqlType) : Res Time :=
  let tp := if tp = .unspecified then t.type else tp
  if tp = .timestamp then
    match sc with
    | none => .fault
    | some sc =>
      match sc.timeZone with
      | .utc => .ok t
      | .loc l => t.convertTimeZone l env.utc
  else .ok t

def encodeMySQLTime (env : Env) (sc : Option StatementContext) (t : Time) (tp : MysqlType) (b : Bytes) : Res Bytes := do
  let t ← timeToPack env sc t tp
  return encodeUint b t.toPackedUint

def encodeSignedInt (b : Bytes) (v : Int64) (comparable : Bool) : Bytes :=
  if comparable then encodeInt (b ++ [intFlag]) v else encodeVarint (b ++ [varintFlag]) v

def encodeUnsignedInt (b : Bytes) (v : UInt64) (comparable : Bool) : Bytes :=
  if comparable then encodeUint (b ++ [uintFlag]) v else encodeUvarint (b ++ [uvarintFlag]) v

def encodeFlaggedBytes (b v : Bytes) (comparable : Bool) : Bytes :=
  if comparable then encodeBytes (b ++ [bytesFlag]) v
  else encodeCompactBytes (b ++ [compactBytesFlag]) v

def encodeString (env : Env) (b : Bytes) (s : Bytes) (collation : Collation) (comparable : Bool) : Bytes :=
  if env.newCollationEnabled ∧ comparable = true then
    encodeFlaggedBytes b (env.collatorKey collation s) true
  else encodeFlaggedBytes b s comparable

def handleDecimalErr (sc : Option StatementContext) : Option Err → Res (Option Err)
  | some .errTruncated =>
    match sc with
    | none => .fault
    | some sc => .ok (sc.handleTruncate .errTruncated)
  | some .errOverflow =>
    match sc with
    | none => .fault
    | some sc => .ok (sc.handleOverflow .errOverflow)
  | err => .ok err

/-- One round of the loop of `encode`. The loop carries the error along: decimals, times and bit literals set it, the
other kinds leave it as it is. -/
def encodeStep (env : Env) (sc : Option StatementContext) (comparable : Bool) (b : Bytes)
    (err : Option Err) : Datum → Res (Bytes × Option Err)
  | .int64 i => .ok (encodeSignedInt b i comparable, err)
  | .uint64 u => .ok (encodeUnsignedInt b u comparable, err)
  | .float32 bits | .float64 bits => .ok (encodeFloat (b ++ [floatFlag]) bits, err)
  | .string s collation => .ok (encodeString env b s collation comparable, err)
  | .bytes s => .ok (encodeFlaggedBytes b s comparable, err)
  | .mysqlTime t => do
    let b ← encodeMySQLTime env sc t .unspecified (b ++ [uintFlag])
    return (b, none)
  | .mysqlDuration d => .ok (encodeInt (b ++ [durationFlag]) d.duration, err)
  | .mysqlDecimal d length frac => do
    let (b, err) ← encodeDecimal (b ++ [decimalFlag]) [] d length frac
    let err ← handleDecimalErr sc err
    return (b, err)
  | .mysqlEnum e _ => .ok (encodeUnsignedInt b e.value comparable, err)
  | .mysqlSet s _ => .ok (encodeUnsignedInt b s.value comparable, err)
  | .mysqlBit l | .binaryLiteral l =>
    let (val, err) := binaryLiteralToInt l sc
    .ok (encodeUnsignedInt b val comparable, err)
  | .mysqlJSON j => .ok (b ++ [jsonFlag, j.typeCode] ++ j.value, err)
  | .null => .ok (b ++ [nilFlag], err)
  | .minNotNull => .ok (b ++ [bytesFlag], err)
  | .maxValue => .ok (b ++ [maxFlag], err)
  | .interface => .error (.errorf "unsupport encode type %d" [.num Datum.interface.kind])
  | .raw s => .error (.errorf "unsupport encode type %d" [.num (Datum.raw s).kind])

def encodeLoop (env : Env) (sc : Option StatementContext) (comparable : Bool) :
    List Datum → Bytes → Option Err → Res (Bytes × Option Err)
  | [], b, err => .ok (b, err)
  | d :: ds, b, err => do
    let (b, err) ← encodeStep env sc comparable b err d
    encodeLoop env sc comparable ds b err

def encode (env : Env) (sc : Option StatementContext) (b : Bytes) (vals : List Datum)
    (comparable : Bool) : Res Bytes := do
  let (b, err) ← encodeLoop env sc comparable vals b none
  match err with
  | some e => .error e
  | none => return b

def encodeKey (env : Env) (sc : Option StatementContext) (b : Bytes) (v : List Datum) : Res Bytes :=
  encode env sc b v true

def encodeValue (env : Env) (sc : Option StatementContext) (b : Bytes) (v : List Datum) : Res Bytes :=
  encode env sc b v false

/-! ## Decoding -/

def maxFsp : Int := 6

def decodeOne (b : Bytes) : Res (Bytes × Datum) :=
  match b with
  | [] => .error (.new "invalid encoded key")
  | flag :: b =>
    if flag = intFlag then do
      let (b, v) ← decodeInt b
      return (b, .int64 v)
    else if flag = uintFlag then do
      let (b, v) ← decodeUint b
      return (b, .uint64 v)
    else if flag = varintFlag then do
      let (b, v) ← decodeVarint b
      return (b, .int64 v)
    else if flag = uvarintFlag then do
      let (b, v) ← decodeUvarint b
      return (b, .uint64 v)
    else if flag = floatFlag then do
      let (b, v) ← decodeFloat b
      return (b, .float64 v)
    else if flag = bytesFlag then do
      let (b, v) ← decodeBytes b []
      return (b, .bytes v)
    else if flag = compactBytesFlag then do
      let (b, v) ← decodeCompactBytes b
      return (b, .bytes v)
    else if flag = decimalFlag then do
      let (b, dec, precision, frac) ← decodeDecimal b
      return (b, .mysqlDecimal dec precision.toNat frac.toNat)
    else if flag = durationFlag then do
      let (b, r) ← decodeInt b
      return (b, .mysqlDuration ⟨r, maxFsp⟩)
    else if flag = jsonFlag then do
      let size ← peekBytesAsJSON b
      let typeCode ← index b 0
      let value ← sliceInt b 1 size
      let b ← sliceFromInt b size
      return (b, .mysqlJSON ⟨typeCode, value⟩)
    else if flag = nilFlag then return (b, .null)
    else .error (.errorf "invalid encoded key flag %v" [.num flag.toNat])

/-! ## Peeking -/

def peekBytesLoop : Nat → Bytes → Nat → Res Int
  | 0, _, _ => .error errInsufficient
  | n + 1, b, offset =>
    if b.length < offset + encGroupSize + 1 then .error errInsufficient
    else do
      let marker ← index b (offset + encGroupSize)
      let padCount := encMarker - marker
      let offset := offset + (encGroupSize + 1)
      if padCount ≠ 0 then return (offset : Int) else peekBytesLoop n b offset

def peekBytes (b : Bytes) : Res Int := peekBytesLoop (b.length / (encGroupSize + 1) + 1) b 0

def peekCompactBytes (b : Bytes) : Res Int :=
  let (v, n) := varint b
  let vi := v.toInt
  if n < 0 then .error (.new "value larger than 64 bits")
  else if n = 0 then .error errInsufficient
  else if (b.length : Int) < addInt vi n then
    .error (.errorf "insufficient bytes to decode value, expected length: %v" [.num n])
  else .ok (addInt n vi)

def peekVarint (b : Bytes) : Res Int :=
  let n := (varint b).2
  if n < 0 then .error (.new "value larger than 64 bits") else .ok n

def peekUvarint (b : Bytes) : Res Int :=
  let n := (uvarint b).2
  if n < 0 then .error (.new "value larger than 64 bits") else .ok n

def peekItem (flag : UInt8) (b : Bytes) : Res Int :=
  if flag = nilFlag then .ok 0
  else if flag = intFlag ∨ flag = uintFlag ∨ flag = floatFlag ∨ flag = durationFlag then .ok 8
  else if flag = bytesFlag then peekBytes b
  else if flag = compactBytesFlag then peekCompactBytes b
  else if flag = decimalFlag then decimalPeak b
  else if flag = varintFlag then peekVarint b
  else if flag = uvarintFlag then peekUvarint b
  else if flag = jsonFlag then peekBytesAsJSON b
  else .error (.errorf "invalid encoded key flag %v" [.num flag.toNat])

def checkLength (originLength : Nat) (length : Int) : Res Int :=
  if length ≤ 0 then .error (.new "invalid encoded key")
  else if (originLength : Int) < length then
    .error (.errorf "invalid encoded key, expected length: %d, actual length: %d"
      [.num length, .num originLength])
  else .ok length

def peek (b : Bytes) : Res Int :=
  match b with
  | [] => .error (.new "invalid encoded key")
  | flag :: rest => do
    let l ← peekItem flag rest
    checkLength b.length (addInt 1 l)

def cutOne (b : Bytes) : Res (Bytes × Bytes) := do
  let l ← peek b
  let data ← sliceInt b 0 l
  let remain ← sliceFromInt b l
  return (data, remain)

end Tidb.Codec
