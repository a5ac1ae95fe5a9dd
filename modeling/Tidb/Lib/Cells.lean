import Tidb.Lib.OrderedCode

/-!
# Numbers in cells

A mixed-radix number is a row of digits, one for each cell; a cell has a radix and a width in bytes that leaves its top
bit free.  Big-endian digits give a code whose byte order is the order of the numbers.  For a sign, the bytes of a
negative number are complemented and the top bit of the first byte is flipped.
-/

namespace ByteNum

open List

/-- A cell of `width` bytes for a digit below `radix`; a cell of no bytes holds only zero. -/
structure Cell where
  radix : Nat
  width : Nat
  pos : 0 < radix
  room : width = 0 ∧ radix = 1 ∨ 2 * radix ≤ 256 ^ width

theorem Cell.radix_le (c : Cell) : c.radix ≤ 256 ^ c.width := by
  rcases c.room with ⟨hw, hr⟩ | h
  · rw [hw, hr, pow_zero]
  · omega

def span : List Cell → Nat
  | [] => 1
  | c :: cs => c.radix * span cs

def Fits : List Cell → List Nat → Prop
  | [], [] => True
  | c :: cs, x :: xs => x < c.radix ∧ Fits cs xs
  | _, _ => False

def value : List Cell → List Nat → Nat
  | _ :: cs, x :: xs => x * span cs + value cs xs
  | _, _ => 0

def writeCells : List Cell → List Nat → List UInt8
  | c :: cs, x :: xs => beBytes c.width x ++ writeCells cs xs
  | _, _ => []

def totalWidth (cs : List Cell) : Nat := (cs.map Cell.width).sum

theorem totalWidth_cons (c : Cell) (cs : List Cell) : totalWidth (c :: cs) = c.width + totalWidth cs := rfl

variable {cs ds : List Cell} {xs ys : List Nat}

theorem span_cons (c : Cell) (cs : List Cell) : span (c :: cs) = c.radix * span cs := rfl

theorem value_cons (c : Cell) (x : Nat) : value (c :: cs) (x :: xs) = x * span cs + value cs xs := rfl

theorem writeCells_cons (c : Cell) (x : Nat) :
    writeCells (c :: cs) (x :: xs) = beBytes c.width x ++ writeCells cs xs := rfl

theorem fits_cons_iff {c : Cell} : Fits (c :: cs) xs ↔ ∃ x t, xs = x :: t ∧ x < c.radix ∧ Fits cs t := by
  constructor
  · intro h
    cases xs with
    | nil => exact h.elim
    | cons x t => exact ⟨x, t, rfl, h⟩
  · rintro ⟨x, t, rfl, h⟩
    exact h

theorem fits_nil_iff : Fits [] xs ↔ xs = [] := by
  cases xs with
  | nil => exact iff_of_true trivial rfl
  | cons x xs => exact iff_of_false id (cons_ne_nil x xs)

theorem span_pos (cs : List Cell) : 0 < span cs := by
  induction cs with
  | nil => exact Nat.one_pos
  | cons c cs ih => exact Nat.mul_pos c.pos ih

theorem span_append (cs ds : List Cell) : span (cs ++ ds) = span cs * span ds := by
  induction cs with
  | nil => exact (Nat.one_mul _).symm
  | cons c cs ih => rw [cons_append, span_cons, span_cons, ih, Nat.mul_assoc]

theorem value_lt (h : Fits cs xs) : value cs xs < span cs := by
  induction cs generalizing xs with
  | nil => exact Nat.one_pos
  | cons c cs ih =>
    obtain ⟨x, t, rfl, hx, ht⟩ := fits_cons_iff.mp h
    have hle : (x + 1) * span cs ≤ c.radix * span cs := Nat.mul_le_mul_right _ hx
    have hlt := ih ht
    rw [value_cons, span_cons]
    rw [Nat.add_mul] at hle
    omega

theorem length_writeCells (h : Fits cs xs) : (writeCells cs xs).length = totalWidth cs := by
  induction cs generalizing xs with
  | nil => rfl
  | cons c cs ih =>
    obtain ⟨x, t, rfl, -, ht⟩ := fits_cons_iff.mp h
    rw [writeCells_cons, length_append, length_beBytes, ih ht]
    rfl

theorem fits_append (hx : Fits cs xs) (hy : Fits ds ys) : Fits (cs ++ ds) (xs ++ ys) := by
  induction cs generalizing xs with
  | nil =>
    rw [fits_nil_iff.mp hx]
    exact hy
  | cons c cs ih =>
    obtain ⟨x, t, rfl, hlt, ht⟩ := fits_cons_iff.mp hx
    exact ⟨hlt, ih ht⟩

theorem fits_append_iff (hlen : cs.length = xs.length) : Fits (cs ++ ds) (xs ++ ys) ↔ Fits cs xs ∧ Fits ds ys := by
  induction cs generalizing xs with
  | nil =>
    obtain rfl := length_eq_zero_iff.mp hlen.symm
    exact ⟨fun h => ⟨trivial, h⟩, And.right⟩
  | cons c cs ih =>
    cases xs with
    | nil => cases hlen
    | cons x xs => exact (and_congr_right fun _ => ih (Nat.succ.inj hlen)).trans and_assoc.symm

theorem value_append (hx : Fits cs xs) : value (cs ++ ds) (xs ++ ys) = value cs xs * span ds + value ds ys := by
  induction cs generalizing xs with
  | nil =>
    rw [fits_nil_iff.mp hx, nil_append, nil_append]
    exact (by omega : value ds ys = 0 * span ds + value ds ys)
  | cons c cs ih =>
    obtain ⟨x, t, rfl, -, ht⟩ := fits_cons_iff.mp hx
    rw [cons_append, cons_append, value_cons, value_cons, ih ht, span_append]
    ring

theorem writeCells_append (hx : Fits cs xs) :
    writeCells (cs ++ ds) (xs ++ ys) = writeCells cs xs ++ writeCells ds ys := by
  induction cs generalizing xs with
  | nil =>
    rw [fits_nil_iff.mp hx]
    rfl
  | cons c cs ih =>
    obtain ⟨x, t, rfl, -, ht⟩ := fits_cons_iff.mp hx
    rw [cons_append, cons_append, writeCells_cons, writeCells_cons, ih ht, append_assoc]

theorem compare_add_mul {q q' r r' s : Nat} (hr : r < s) (hr' : r' < s) :
    compare (q * s + r) (q' * s + r') = (compare q q').then (compare r r') := by
  rcases Nat.lt_trichotomy q q' with h | h | h
  · have hm : (q + 1) * s ≤ q' * s := Nat.mul_le_mul_right _ h
    rw [Nat.compare_eq_lt.mpr h, Ordering.lt_then, Nat.compare_eq_lt]
    rw [Nat.add_mul] at hm
    omega
  · rw [h, Nat.compare_eq_eq.mpr rfl]
    exact compare_congr (by omega) (by omega)
  · have hm : (q' + 1) * s ≤ q * s := Nat.mul_le_mul_right _ h
    rw [Nat.compare_eq_gt.mpr h, Ordering.gt_then, Nat.compare_eq_gt]
    rw [Nat.add_mul] at hm
    omega

theorem compare_writeCells (hx : Fits cs xs) (hy : Fits cs ys) :
    compare (writeCells cs xs) (writeCells cs ys) = compare (value cs xs) (value cs ys) := by
  induction cs generalizing xs ys with
  | nil => rfl
  | cons c cs ih =>
    obtain ⟨x, s, rfl, hxlt, hs⟩ := fits_cons_iff.mp hx
    obtain ⟨y, t, rfl, hylt, ht⟩ := fits_cons_iff.mp hy
    have hle := c.radix_le
    rw [writeCells_cons, writeCells_cons, compare_append (by simp), compare_beBytes (by omega) (by omega),
      ih hs ht, value_cons, value_cons, compare_add_mul (value_lt hs) (value_lt ht)]

theorem beBytes_zero (w : Nat) : beBytes w 0 = replicate w 0 := by
  induction w with
  | zero => rfl
  | succ w ih =>
    rw [beBytes, ih, Nat.zero_div]
    rfl

theorem writeCells_of_value_eq_zero (h : Fits cs xs) (hzero : value cs xs = 0) :
    writeCells cs xs = replicate (totalWidth cs) 0 := by
  induction cs generalizing xs with
  | nil => rfl
  | cons c cs ih =>
    obtain ⟨x, t, rfl, -, ht⟩ := fits_cons_iff.mp h
    obtain ⟨hx, hrest⟩ := Nat.add_eq_zero_iff.mp hzero
    have hx0 : x = 0 := (Nat.mul_eq_zero.mp hx).resolve_right (span_pos cs).ne'
    rw [writeCells_cons, hx0, beBytes_zero, ih ht hrest, totalWidth_cons, replicate_append_replicate]

theorem writeCells_eq_of_value_eq (hx : Fits cs xs) (hy : Fits cs ys) (h : value cs xs = value cs ys) :
    writeCells cs xs = writeCells cs ys := by
  have hcmp := compare_writeCells hx hy
  rw [h, Nat.compare_eq_eq.mpr rfl] at hcmp
  exact Std.LawfulEqCmp.eq_of_compare hcmp

/-! ## Reading cells -/

def readCells : List Cell → List UInt8 → List Nat
  | [], _ => []
  | c :: cs, b => beNat (b.take c.width) :: readCells cs (b.drop c.width)

theorem writeCells_readCells {b : List UInt8} (h : b.length = totalWidth cs) : writeCells cs (readCells cs b) = b := by
  induction cs generalizing b with
  | nil => exact (length_eq_zero_iff.mp h).symm
  | cons c cs ih =>
    rw [totalWidth_cons] at h
    have hlen : (b.take c.width).length = c.width := by
      rw [length_take]
      omega
    have hhead := beBytes_beNat (b.take c.width)
    rw [hlen] at hhead
    rw [readCells, writeCells_cons, hhead, ih (by rw [length_drop]; omega), take_append_drop]

theorem readCells_writeCells (h : Fits cs xs) : readCells cs (writeCells cs xs) = xs := by
  induction cs generalizing xs with
  | nil => exact (fits_nil_iff.mp h).symm
  | cons c cs ih =>
    obtain ⟨x, t, rfl, hx, ht⟩ := fits_cons_iff.mp h
    have hlen := length_beBytes c.width x
    rw [writeCells_cons, readCells, take_left' hlen, drop_left' hlen, ih ht,
      beNat_beBytes_of_lt (hx.trans_le c.radix_le)]

theorem readCells_append (cs ds : List Cell) (b : List UInt8) :
    readCells (cs ++ ds) b = readCells cs b ++ readCells ds (b.drop (totalWidth cs)) := by
  induction cs generalizing b with
  | nil => rfl
  | cons c cs ih => rw [cons_append, readCells, ih, readCells, cons_append, drop_drop, totalWidth_cons]

/-! ## Zeros -/

theorem fits_zero (cs : List Cell) : Fits cs (replicate cs.length 0) := by
  induction cs with
  | nil => exact trivial
  | cons c cs ih => exact ⟨c.pos, ih⟩

theorem value_zero (cs : List Cell) : value cs (replicate cs.length 0) = 0 := by
  induction cs with
  | nil => rfl
  | cons c cs ih => rw [length_cons, replicate_succ, value_cons, ih, Nat.zero_mul]

theorem writeCells_zero (cs : List Cell) :
    writeCells cs (replicate cs.length 0) = replicate (totalWidth cs) 0 := by
  induction cs with
  | nil => rfl
  | cons c cs ih =>
    rw [length_cons, replicate_succ, writeCells_cons, ih, beBytes_zero, ← replicate_add]
    rfl

theorem beBytes_of_le {w v x : Nat} (hwv : w ≤ v) (hx : x < 256 ^ w) :
    beBytes v x = replicate (v - w) 0 ++ beBytes w x := by
  conv_lhs => rw [← Nat.sub_add_cancel hwv]
  exact beBytes_add_of_lt (v - w) hx

/-! ## Signs -/

def flipTop : List UInt8 → List UInt8
  | [] => []
  | b :: t => (b ^^^ 0x80) :: t

@[simp] theorem length_flipTop (l : List UInt8) : (flipTop l).length = l.length := by cases l <;> rfl

theorem uint8_toNat_xor_top (b : UInt8) :
    (b ^^^ 0x80).toNat = if b.toNat < 128 then b.toNat + 128 else b.toNat - 128 := by
  exact nat_xor_two_pow (k := 7) b.toNat_lt

@[simp] theorem flipTop_flipTop (l : List UInt8) : flipTop (flipTop l) = l := by
  cases l with
  | nil => rfl
  | cons b t => rw [flipTop, flipTop, UInt8.xor_assoc, UInt8.xor_self, UInt8.xor_zero]

def mask (neg : Bool) (l : List UInt8) : List UInt8 := if neg then l.map (~~~ ·) else l

def writeSigned (neg : Bool) (cs : List Cell) (xs : List Nat) : List UInt8 :=
  flipTop (mask neg (writeCells cs xs))

def signedKey (neg : Bool) (m : Nat) : Int := if neg then -(m : Int) - 1 else m

theorem head_writeCells_lt (h : Fits cs xs) {b : UInt8} {t : List UInt8}
    (hw : writeCells cs xs = b :: t) : b.toNat < 128 := by
  induction cs generalizing xs with
  | nil => cases hw
  | cons c cs ih =>
    obtain ⟨x, s, rfl, hx, hs⟩ := fits_cons_iff.mp h
    rw [writeCells_cons] at hw
    rcases c.room with ⟨hwidth, -⟩ | hroom
    · rw [hwidth] at hw
      exact ih hs hw
    · cases hwd : c.width with
      | zero =>
        rw [hwd] at hroom
        omega
      | succ w =>
        rw [hwd, beBytes] at hw
        have hb := (cons.inj hw).1
        have hpow : 256 ^ (w + 1) = 256 * 256 ^ w := by rw [pow_succ, Nat.mul_comm]
        rw [hwd] at hroom
        have hdiv : x / 256 ^ w < 128 := Nat.div_lt_of_lt_mul (by omega)
        rw [← hb, uint8_toNat_ofNat, Nat.mod_eq_of_lt (hdiv.trans (by norm_num))]
        exact hdiv

theorem compare_flipTop {b c : UInt8} (s t : List UInt8) (h : b.toNat < 128 ↔ c.toNat < 128) :
    compare (flipTop (b :: s)) (flipTop (c :: t)) = compare (b :: s) (c :: t) := by
  have hb := uint8_toNat_xor_top b
  have hc := uint8_toNat_xor_top c
  rw [flipTop, flipTop, List.compare_cons_cons, List.compare_cons_cons, compare_uint8, compare_uint8]
  congr 1
  apply compare_congr <;> grind

theorem writeCells_ne_nil (h : Fits cs xs) (hpos : 0 < totalWidth cs) :
    ∃ b t, writeCells cs xs = b :: t ∧ b.toNat < 128 := by
  have hlen : 0 < (writeCells cs xs).length := by
    rw [length_writeCells h]
    exact hpos
  obtain ⟨b, t, hbt⟩ := exists_cons_of_length_pos hlen
  exact ⟨b, t, hbt, head_writeCells_lt h hbt⟩

theorem compare_writeSigned_neg_pos (hx : Fits cs xs) (hy : Fits cs ys) (hpos : 0 < totalWidth cs) :
    compare (writeSigned true cs xs) (writeSigned false cs ys) = .lt := by
  obtain ⟨b, s, hb, hblt⟩ := writeCells_ne_nil hx hpos
  obtain ⟨c, t, hc, hclt⟩ := writeCells_ne_nil hy hpos
  have hlt : (~~~b ^^^ 0x80) < (c ^^^ 0x80) := by
    rw [UInt8.lt_iff_toNat_lt, uint8_toNat_xor_top, uint8_toNat_xor_top, uint8_toNat_compl,
      if_neg (by omega), if_pos hclt]
    omega
  simp only [writeSigned, mask, hb, hc, if_true, Bool.false_eq_true, if_false, map_cons, flipTop]
  rw [List.compare_cons_cons, compare_uint8_of_lt hlt, Ordering.lt_then]

theorem compare_writeSigned (hx : Fits cs xs) (hy : Fits cs ys) (hpos : 0 < totalWidth cs) (n m : Bool) : compare
    (writeSigned n cs xs) (writeSigned m cs ys) = compare (signedKey n (value cs xs)) (signedKey m (value cs ys)) := by
  obtain ⟨b, s, hb, hblt⟩ := writeCells_ne_nil hx hpos
  obtain ⟨c, t, hc, hclt⟩ := writeCells_ne_nil hy hpos
  have hcmp := compare_writeCells hx hy
  cases n <;> cases m
  · simp only [writeSigned, mask, Bool.false_eq_true, if_false, signedKey, hb, hc]
    rw [compare_flipTop s t (by omega), ← hb, ← hc, hcmp]
    exact compare_congr (by omega) (by omega)
  · rw [Std.OrientedOrd.eq_swap, compare_writeSigned_neg_pos hy hx hpos, eq_comm,
      Ordering.swap_lt, compare_gt_iff_gt, signedKey, signedKey, if_pos rfl, if_neg Bool.false_ne_true]
    omega
  · rw [compare_writeSigned_neg_pos hx hy hpos, eq_comm, compare_lt_iff_lt, signedKey, signedKey,
      if_pos rfl, if_neg Bool.false_ne_true]
    omega
  · have hlen := (length_writeCells hx).trans (length_writeCells hy).symm
    have hb' := uint8_toNat_compl b
    have hc' := uint8_toNat_compl c
    have hmap := compare_map_compl hlen
    rw [compare_writeCells hy hx, hb, hc, map_cons, map_cons] at hmap
    simp only [writeSigned, mask, if_true, signedKey, hb, hc, map_cons]
    rw [compare_flipTop _ _ (by omega), hmap]
    exact compare_congr (by omega) (by omega)

end ByteNum
