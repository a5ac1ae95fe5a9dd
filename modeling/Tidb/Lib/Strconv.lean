import Mathlib.Tactic

/-!
# Decimal numbers as text

`strconv.FormatInt(n, 10)` and `strconv.ParseInt(s, 10, 64)`.
-/

namespace GoLang

inductive NumErr where
  | errSyntax
  | errRange
  deriving DecidableEq, Repr

def NumErr.text : NumErr → String
  | .errSyntax => "invalid syntax"
  | .errRange => "value out of range"

def formatUint (n : ℕ) : List UInt8 := (Nat.toDigits 10 n).map fun c => UInt8.ofNat c.toNat

def formatInt (n : ℤ) : List UInt8 :=
  if n < 0 then 45 :: formatUint n.natAbs else formatUint n.natAbs

def parseDigits : List UInt8 → ℕ → Except NumErr ℕ
  | [], n => .ok n
  | c :: cs, n =>
    if c < 48 ∨ 57 < c then .error .errSyntax
    else if 2 ^ 64 ≤ n * 10 + (c.toNat - 48) then .error .errRange
    else parseDigits cs (n * 10 + (c.toNat - 48))

def parseUint (s : List UInt8) : Except NumErr ℕ :=
  if s = [] then .error .errSyntax else parseDigits s 0

def parseInt (s : List UInt8) : Except NumErr ℤ :=
  match s with
  | 45 :: rest => do
    let un ← parseUint rest
    if 2 ^ 63 < un then .error .errRange else .ok (-un)
  | 43 :: rest => do
    let un ← parseUint rest
    if 2 ^ 63 ≤ un then .error .errRange else .ok un
  | _ => do
    let un ← parseUint s
    if 2 ^ 63 ≤ un then .error .errRange else .ok un

theorem formatUint_ne_nil (n : ℕ) : formatUint n ≠ [] := by simp [formatUint]

theorem formatInt_ne_nil (n : ℤ) : formatInt n ≠ [] := by
  unfold formatInt
  split
  · simp
  · exact formatUint_ne_nil _

example : parseInt (formatInt (-120)) = .ok (-120) := by decide

end GoLang
