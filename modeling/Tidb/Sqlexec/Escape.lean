import Tidb.Lib.Strconv
import Tidb.Parser.Lexer

/-!
# Arguments written into SQL

A template with the placeholders `%?` and `%n` is filled with arguments, strings between quotes with their special
bytes escaped.
-/

namespace Sqlexec

open Parser List

def quote : UInt8 := 0x27

/-! ## Escaping -/

/-- Room for more bytes behind the buffer; `spare` is the capacity it has left, with whatever stands there. -/
def reserveBuffer (buf spare : Bytes) (appendSize : ℕ) : Bytes :=
  let newSize := buf.length + appendSize
  if buf.length + spare.length < newSize then
    (buf ++ replicate (buf.length + appendSize) 0).take newSize
  else (buf ++ spare).take newSize

def escapeByte (c : UInt8) : Bytes :=
  if c = 0x00 then [backslash, 0x30]
  else if c = 0x0A then [backslash, 0x6E]
  else if c = 0x0D then [backslash, 0x72]
  else if c = 0x1A then [backslash, 0x5A]
  else if c = quote then [backslash, quote]
  else if c = 0x22 then [backslash, 0x22]
  else if c = backslash then [backslash, backslash]
  else [c]

def putBytes : Bytes → ℕ → Bytes → Bytes
  | buf, _, [] => buf
  | buf, pos, b :: bs => putBytes (buf.set pos b) (pos + 1) bs

def putEscaped : Bytes → ℕ → Bytes → Bytes × ℕ
  | buf, pos, [] => (buf, pos)
  | buf, pos, c :: v => putEscaped (putBytes buf pos (escapeByte c)) (pos + (escapeByte c).length) v

def escapeBytesBackslash (buf spare v : Bytes) : Bytes :=
  let pos := buf.length
  let buf := reserveBuffer buf spare (v.length * 2)
  let r := putEscaped buf pos v
  r.1.take r.2

theorem length_putBytes (bs : Bytes) : ∀ (buf : Bytes) (pos : ℕ), (putBytes buf pos bs).length = buf.length := by
  induction bs with
  | nil => exact fun buf pos => rfl
  | cons b bs ih =>
    intro buf pos
    rw [putBytes, ih, length_set]

theorem take_putBytes (bs : Bytes) : ∀ {buf : Bytes} {pos : ℕ}, pos + bs.length ≤ buf.length →
    (putBytes buf pos bs).take (pos + bs.length) = buf.take pos ++ bs := by
  induction bs with
  | nil => simp [putBytes]
  | cons b bs ih =>
    intro buf pos hlen
    rw [length_cons] at hlen ⊢
    have hput := @ih (buf.set pos b) (pos + 1) (by rw [length_set]; omega)
    have htake : (buf.set pos b).take (pos + 1) = buf.take pos ++ [b] := by
      rw [take_add_one, take_set_of_le (le_refl pos), getElem?_set_self (by omega)]
      rfl
    rw [putBytes, Nat.add_comm bs.length 1, ← Nat.add_assoc, hput, htake, append_assoc, singleton_append]

theorem length_escapeByte (c : UInt8) : (escapeByte c).length ≤ 2 := by
  unfold escapeByte
  split_ifs <;> simp

theorem take_putEscaped (v : Bytes) : ∀ {buf : Bytes} {pos : ℕ}, pos + v.length * 2 ≤ buf.length →
    (putEscaped buf pos v).1.take (putEscaped buf pos v).2 = buf.take pos ++ v.flatMap escapeByte := by
  induction v with
  | nil => simp [putEscaped]
  | cons c v ih =>
    intro buf pos hlen
    rw [length_cons] at hlen
    have hc := length_escapeByte c
    have hrest := @ih (putBytes buf pos (escapeByte c)) (pos + (escapeByte c).length) (by rw [length_putBytes]; omega)
    rw [putEscaped, hrest, take_putBytes _ (by omega), append_assoc, flatMap_cons]

theorem reserveBuffer_spec (buf spare : Bytes) (appendSize : ℕ) : (reserveBuffer buf spare appendSize).length =
    buf.length + appendSize ∧ (reserveBuffer buf spare appendSize).take buf.length = buf := by
  unfold reserveBuffer
  dsimp only
  split_ifs with h
  · rw [take_take, Nat.min_eq_left (Nat.le_add_right _ _)]
    simp
  · rw [take_take, Nat.min_eq_left (Nat.le_add_right _ _), take_left]
    simp only [length_take, length_append, and_true]
    omega

theorem escapeBytesBackslash_eq (buf spare v : Bytes) :
    escapeBytesBackslash buf spare v = buf ++ v.flatMap escapeByte := by
  obtain ⟨hlen, htake⟩ := reserveBuffer_spec buf spare (v.length * 2)
  unfold escapeBytesBackslash
  rw [take_putEscaped v hlen.ge, htake]

/-! ## Arguments -/

structure FormatLib where
  Time : Type
  isZero : Time → Bool
  /-- `AppendFormat` with "2006-01-02 15:04:05.999999" -/
  formatTime : Time → Bytes
  /-- `AppendFloat` with 'g', -1, 32 -/
  formatFloat32 : BitVec 32 → Bytes
  /-- `AppendFloat` with 'g', -1, 64 -/
  formatFloat64 : BitVec 64 → Bytes

/-- An argument by its type; the signed and the unsigned types are written alike. -/
inductive Arg (lib : FormatLib) where
  | nil
  | int (v : ℤ)
  | uint (v : ℕ)
  | float32 (v : BitVec 32)
  | float64 (v : BitVec 64)
  | bool (v : Bool)
  | time (v : lib.Time)
  | json (v : Bytes)
  | bytes (v : Option Bytes)
  | str (v : Bytes)
  | strs (v : List Bytes)
  | float32s (v : List (BitVec 32))
  | float64s (v : List (BitVec 64))
  | unsupported

inductive Err where
  /-- missing arguments, need %d-th arg, but only got %d args -/
  | missing (need got : ℕ)
  /-- expect a string identifier -/
  | notIdentifier
  /-- unsupported %d-th argument -/
  | unsupported (argPos : ℕ)
  deriving DecidableEq, Repr

variable {lib : FormatLib}

def null : Bytes := [0x4E, 0x55, 0x4C, 0x4C]

def binary : Bytes := [0x5F, 0x62, 0x69, 0x6E, 0x61, 0x72, 0x79]

def zeroDate : Bytes := [0x27, 0x30, 0x30, 0x30, 0x30, 0x2D, 0x30, 0x30, 0x2D, 0x30, 0x30, 0x27]

def appendQuoted (buf v : Bytes) : Bytes := escapeBytesBackslash (buf ++ [quote]) [] v ++ [quote]

def appendList {α : Type} (append : Bytes → α → Bytes) : Bytes → List α → Bytes
  | buf, [] => buf
  | buf, k :: ks => ks.foldl (fun buf k => append (buf ++ [0x2C]) k) (append buf k)

def appendValue (argPos : ℕ) (buf : Bytes) : Arg lib → Except Err Bytes
  | .nil => .ok (buf ++ null)
  | .int v => .ok (buf ++ GoLang.formatInt v)
  | .uint v => .ok (buf ++ GoLang.formatUint v)
  | .float32 v => .ok (buf ++ lib.formatFloat32 v)
  | .float64 v => .ok (buf ++ lib.formatFloat64 v)
  | .bool v => .ok (buf ++ if v then [0x31] else [0x30])
  | .time v => .ok (if lib.isZero v then buf ++ zeroDate else buf ++ [quote] ++ lib.formatTime v ++ [quote])
  | .json v => .ok (appendQuoted buf v)
  | .bytes none => .ok (buf ++ null)
  | .bytes (some v) => .ok (appendQuoted (buf ++ binary) v)
  | .str v => .ok (appendQuoted buf v)
  | .strs v => .ok (appendList appendQuoted buf v)
  | .float32s v => .ok (appendList (fun buf k => buf ++ lib.formatFloat32 k) buf v)
  | .float64s v => .ok (appendList (fun buf k => buf ++ lib.formatFloat64 k) buf v)
  | .unsupported => .error (.unsupported argPos)

def escapeNameByte (b : UInt8) : Bytes := if b = backquote then [b, b] else [b]

def appendName (buf : Bytes) : Arg lib → Except Err Bytes
  | .str v => .ok (buf ++ [backquote] ++ v.flatMap escapeNameByte ++ [backquote])
  | _ => .error .notIdentifier

def escapeSQLLoop (args : List (Arg lib)) : Bytes → ℕ → Bytes → Except Err Bytes
  | [], _, buf => .ok buf
  | b :: sql, argPos, buf =>
    if b ≠ 0x25 then escapeSQLLoop args sql argPos (buf ++ [b])
    else
      match sql with
      | [] => .ok (buf ++ [0x25])
      | ch :: rest =>
        if ch = 0x6E then
          match args[argPos]? with
          | none => .error (.missing (argPos + 1) args.length)
          | some arg =>
            match appendName buf arg with
            | .error err => .error err
            | .ok buf => escapeSQLLoop args rest (argPos + 1) buf
        else if ch = 0x3F then
          match args[argPos]? with
          | none => .error (.missing (argPos + 1) args.length)
          | some arg =>
            match appendValue (argPos + 1) buf arg with
            | .error err => .error err
            | .ok buf => escapeSQLLoop args rest (argPos + 1) buf
        else if ch = 0x25 then escapeSQLLoop args rest argPos (buf ++ [0x25])
        else escapeSQLLoop args (ch :: rest) argPos (buf ++ [0x25])

def escapeSQL (sql : Bytes) (args : List (Arg lib)) : Except Err Bytes := escapeSQLLoop args sql 0 []

end Sqlexec
