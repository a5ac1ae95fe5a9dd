import Tidb.Types.DecimalBin

/-!
# Sums, differences and comparison of decimals (`types/mydecimal.go`)

Words with the same weight meet, and the words of the result are written from the last one on.  The loops of the
source are one loop here, with the buffers that it reads and what it makes of a pair of words as parameters.
-/

namespace Tidb.Types

open GoLang ByteNum

def wordBase : Int := 1000000000

def zeroMyDecimalWithFrac (frac : Int) : MyDecimal :=
  { zeroMyDecimal with digitsFrac := frac, resultFrac := frac }

def add (a b carry : Int) : Int × Int :=
  let sum := int32 (a + b + carry)
  if wordBase ≤ sum then (sum - wordBase, 1) else (sum, 0)

def sub (a b carry : Int) : Int × Int :=
  let diff := int32 (a - b - carry)
  if diff < 0 then (diff + wordBase, 1) else (diff, 0)

def WordBuf.put (w : WordBuf) (i : Int) (x : Int) : Res WordBuf :=
  if i < 0 then .fault else w.set i.toNat x

/-! ## The loops -/

/-- What the loops of `doAdd` and `doSub` change: the indexes into the three buffers, the carry, and the
words of the result. -/
structure Lane where
  idxTo : Int
  idx1 : Int
  idx2 : Int
  carry : Int
  words : WordBuf

/-- The word in front of an index, and the index moved to it; a loop that does not read a buffer takes
zeros and leaves its index alone. -/
def takeWord (src : Option WordBuf) (idx : Int) : Res (Int × Int) :=
  match src with
  | none => .ok (0, idx)
  | some w => do
    let x ← w.get (idx - 1)
    return (x, idx - 1)

def turns (from1 from2 : Option WordBuf) (f : Int → Int → Int → Int × Int) : Nat → Lane → Res Lane
  | 0, l => .ok l
  | n + 1, l => do
    let (a, idx1) ← takeWord from1 l.idx1
    let (b, idx2) ← takeWord from2 l.idx2
    let (word, carry) := f a b l.carry
    let dst ← l.words.put (l.idxTo - 1) word
    turns from1 from2 f n ⟨l.idxTo - 1, idx1, idx2, carry, dst⟩

def copies (src : Option WordBuf) : Nat → Lane → Res Lane := turns src none fun a _ carry => (a, carry)

def borrows (from1 : WordBuf) : Nat → Lane → Res Lane
  | 0, l => .ok l
  | n + 1, l =>
    if 0 < l.carry then do
      let l ← turns (some from1) none sub 1 l
      borrows from1 n l
    else .ok l

/-! ## Subtraction -/

/-- `for idx < stop && w[idx] == 0 { idx++ }`, for the `n` indexes up to `stop`. -/
def skipZeros (w : WordBuf) : Nat → Int → Res Int
  | 0, idx => .ok idx
  | n + 1, idx => do
    let x ← w.get idx
    if x = 0 then skipZeros w n (idx + 1) else return idx

/-- `for idx <= end && w[end] == 0 { end-- }`, for the `n` indexes down to `idx`. -/
def dropZeros (w : WordBuf) : Nat → Int → Res Int
  | 0, last => .ok last
  | n + 1, last => do
    let x ← w.get last
    if x = 0 then dropZeros w n (last - 1) else return last

def skipEqual (w1 w2 : WordBuf) : Nat → Int → Int → Res (Int × Int)
  | 0, idx1, idx2 => .ok (idx1, idx2)
  | n + 1, idx1, idx2 => do
    let x ← w1.get idx1
    let y ← w2.get idx2
    if x = y then skipEqual w1 w2 n (idx1 + 1) (idx2 + 1) else return (idx1, idx2)

/-- The words of a decimal that count: from `start` on, `wordsInt` of the integer part and `wordsFrac` of the fraction;
a negative number leaves out words of the integer part. -/
structure Extent where
  start : Int
  wordsInt : Int
  wordsFrac : Int

def leadingExtent (d : MyDecimal) : Res Extent := do
  let stop := digitsToWords d.digitsInt
  let first ← d.wordBuf.get 0
  if first = 0 then
    let idx ← skipZeros d.wordBuf stop.toNat 0
    return ⟨idx, stop - idx, digitsToWords d.digitsFrac⟩
  else return ⟨0, stop, digitsToWords d.digitsFrac⟩

def trimExtent (d : MyDecimal) (e : Extent) : Res (Extent × Int) := do
  let stop := digitsToWords d.digitsInt
  let last ← dropZeros d.wordBuf (stop + e.wordsFrac - e.start).toNat (stop + e.wordsFrac - 1)
  return ({ e with wordsFrac := last - stop + 1 }, last)

def laterLarger (w1 w2 : WordBuf) (start1 end1 start2 end2 : Int) : Res (Option Bool) := do
  let (idx1, idx2) ← skipEqual w1 w2 (min (end1 - start1 + 1) (end2 - start2 + 1)).toNat start1 start2
  if idx1 ≤ end1 then
    if idx2 ≤ end2 then
      let x ← w1.get idx1
      let y ← w2.get idx2
      return some (decide (x < y))
    else return some false
  else if end2 < idx2 then return none
  else return some true

def subExtents (from1 from2 : MyDecimal) : Res (Extent × Extent × Option Bool) := do
  let e1 ← leadingExtent from1
  let e2 ← leadingExtent from2
  if e1.wordsInt < e2.wordsInt then return (e1, e2, some true)
  else if e2.wordsInt = e1.wordsInt then
    let (e1, end1) ← trimExtent from1 e1
    let (e2, end2) ← trimExtent from2 e2
    let larger ← laterLarger from1.wordBuf from2.wordBuf e1.start end1 e2.start end2
    return (e1, e2, larger)
  else return (e1, e2, some false)

def doSubCmp (from1 from2 : MyDecimal) : Res Int := do
  match ← subExtents from1 from2 with
  | (_, _, none) => return 0
  | (_, _, some larger) => return if larger = from1.negative then 1 else -1

def subHigh (w1 w2 : WordBuf) (start1 start2 : Int) (l : Lane) : Res WordBuf := do
  -- part 2 - min(frac) ... wordsInt2
  let l ← turns (some w1) (some w2) sub (l.idx2 - start2).toNat l
  -- part 3 - wordsInt2 ... wordsInt1
  let l ← borrows w1 (l.idx1 - start1).toNat l
  let l ← copies (some w1) (l.idx1 - start1).toNat l
  let l ← copies none l.idxTo.toNat l
  return l.words

def subWords (w1 w2 : WordBuf) (e1 e2 : Extent) (wordsFracTo : Int) (dst : WordBuf) : Res WordBuf := do
  let end1 := e1.start + e1.wordsInt + e1.wordsFrac
  let end2 := e2.start + e2.wordsInt + e2.wordsFrac
  let l : Lane := ⟨e1.wordsInt + wordsFracTo, end1, end2, 0, dst⟩
  -- part 1 - max(frac) ... min(frac)
  if e2.wordsFrac < e1.wordsFrac then
    let l ← copies none (wordsFracTo - e1.wordsFrac).toNat l
    let l ← copies (some w1) (e1.wordsFrac - e2.wordsFrac).toNat l
    subHigh w1 w2 e1.start e2.start l
  else
    let l ← copies none (wordsFracTo - e2.wordsFrac).toNat l
    let l ← turns none (some w2) sub (e2.wordsFrac - e1.wordsFrac).toNat l
    subHigh w1 w2 e1.start e2.start l

def capWords (err : Option Err) (limit n : Int) : Int := if err.isSome then min n limit else n

def subLarger (from1 from2 : MyDecimal) (e1 e2 : Extent) (wordsFracTo : Int) (negative : Bool)
    (dst : MyDecimal) : Res (MyDecimal × Option Err) := do
  let (wordsInt1, wordsFracTo, err) := fixWordCntError e1.wordsInt wordsFracTo
  let digitsFrac := capWords err (int8 (wordsFracTo * digitsPerWord)) (max from1.digitsFrac from2.digitsFrac)
  let e1 := ⟨e1.start, wordsInt1, capWords err wordsFracTo e1.wordsFrac⟩
  let e2 := ⟨e2.start, capWords err wordsInt1 e2.wordsInt, capWords err wordsFracTo e2.wordsFrac⟩
  let wordBuf ← subWords from1.wordBuf from2.wordBuf e1 e2 wordsFracTo dst.wordBuf
  return (⟨int8 (wordsInt1 * digitsPerWord), digitsFrac, dst.resultFrac, negative, wordBuf⟩, err)

def doSub (from1 from2 dst : MyDecimal) : Res (MyDecimal × Option Err) := do
  let wordsFracTo := max (digitsToWords from1.digitsFrac) (digitsToWords from2.digitsFrac)
  match ← subExtents from1 from2 with
  | (_, _, none) => return (zeroMyDecimalWithFrac dst.resultFrac, none)
  | (e1, e2, some true) => subLarger from2 from1 e2 e1 wordsFracTo (!from1.negative) dst
  | (e1, e2, some false) => subLarger from1 from2 e1 e2 wordsFracTo from1.negative dst

/-! ## Addition -/

def fillMax : Nat → Nat → WordBuf → Res WordBuf
  | 0, _, w => .ok w
  | n + 1, idx, w => do
    let w ← w.set idx wordMax
    fillMax n (idx + 1) w

def fracMax (i : Int) : Res Int :=
  indexInt [900000000, 990000000, 999000000, 999900000, 999990000, 999999000, 999999900, 999999990] i

def maxDecimal (precision frac : Int) (dst : MyDecimal) : Res MyDecimal := do
  let digitsInt := precision - frac
  let firstWordDigits := digitsInt.tmod digitsPerWord
  let (idx, w) ← if 0 < digitsInt then do
      let (idx, w) ← if 0 < firstWordDigits then do
          let p ← powers10 firstWordDigits
          let w ← dst.wordBuf.set 0 (p - 1)
          pure (1, w)
        else pure (0, dst.wordBuf)
      let n := (digitsInt.tdiv digitsPerWord).toNat
      let w ← fillMax n idx w
      pure (idx + n, w)
    else pure (0, dst.wordBuf)
  let w ← if 0 < frac then do
      let lastDigits := frac.tmod digitsPerWord
      let n := (frac.tdiv digitsPerWord).toNat
      let w ← fillMax n idx w
      if 0 < lastDigits then do
        let x ← fracMax (lastDigits - 1)
        w.set (idx + n) x
      else pure w
    else pure w
  return ⟨int8 digitsInt, int8 frac, dst.resultFrac, false, w⟩

/-- The loops of `doAdd`: `first` has the longer fraction, `second` the shorter one, and `top` the longer integer part,
by `idxTop` words. -/
def addWords (first second top : WordBuf) (idx1 stop idx2 stop2 idxTop idxTo : Int) (dst : WordBuf) : Res WordBuf := do
  let l : Lane := ⟨idxTo, idx1, idx2, 0, dst⟩
  -- part 1 - max(frac) ... min(frac)
  let l ← copies (some first) (idx1 - stop).toNat l
  -- part 2 - min(frac) ... min(digitsInt)
  let l ← turns (some first) (some second) add (l.idx1 - stop2).toNat l
  -- part 3 - min(digitsInt) ... max(digitsInt)
  let l ← turns (some top) none add idxTop.toNat { l with idx1 := idxTop }
  if 0 < l.carry then l.words.put (l.idxTo - 1) 1 else return l.words

def addAligned (from1 from2 : WordBuf) (wordsInt1 wordsFrac1 wordsInt2 wordsFrac2 idxTo : Int)
    (dst : WordBuf) : Res WordBuf :=
  let (idxTop, top) := if wordsInt2 < wordsInt1 then (wordsInt1 - wordsInt2, from1)
    else (wordsInt2 - wordsInt1, from2)
  if wordsFrac2 < wordsFrac1 then
    addWords from1 from2 top (wordsInt1 + wordsFrac1) (wordsInt1 + wordsFrac2) (wordsInt2 + wordsFrac2)
      (max 0 (wordsInt1 - wordsInt2)) idxTop idxTo dst
  else
    addWords from2 from1 top (wordsInt2 + wordsFrac2) (wordsInt2 + wordsFrac1) (wordsInt1 + wordsFrac1)
      (max 0 (wordsInt2 - wordsInt1)) idxTop idxTo dst

def addKept (from1 from2 : MyDecimal) (wordsIntTo wordsFracTo : Int) (err : Option Err) (dst : MyDecimal) :
    Res (MyDecimal × Option Err) := do
  let digitsFrac := capWords err (int8 (wordsFracTo * digitsPerWord)) (max from1.digitsFrac from2.digitsFrac)
  let wordsFrac1 := capWords err wordsFracTo (digitsToWords from1.digitsFrac)
  let wordsFrac2 := capWords err wordsFracTo (digitsToWords from2.digitsFrac)
  let wordsInt1 := capWords err wordsIntTo (digitsToWords from1.digitsInt)
  let wordsInt2 := capWords err wordsIntTo (digitsToWords from2.digitsInt)
  let wordBuf ← addAligned from1.wordBuf from2.wordBuf wordsInt1 wordsFrac1 wordsInt2 wordsFrac2
    (wordsIntTo + wordsFracTo) dst.wordBuf
  return (⟨int8 (wordsIntTo * digitsPerWord), digitsFrac, dst.resultFrac, from1.negative, wordBuf⟩, err)

def addSized (from1 from2 : MyDecimal) (wordsIntTo : Int) (dst : MyDecimal) : Res (MyDecimal × Option Err) := do
  let (wordsIntTo, wordsFracTo, err) := fixWordCntError wordsIntTo
    (max (digitsToWords from1.digitsFrac) (digitsToWords from2.digitsFrac))
  if err = some .errOverflow then
    let dst ← maxDecimal (maxWordBufLen * digitsPerWord) 0 dst
    return (dst, err)
  else addKept from1 from2 wordsIntTo wordsFracTo err dst

def doAdd (from1 from2 dst : MyDecimal) : Res (MyDecimal × Option Err) := do
  let wordsInt1 := digitsToWords from1.digitsInt
  let wordsInt2 := digitsToWords from2.digitsInt
  let wordsIntTo := max wordsInt1 wordsInt2
  let first1 ← from1.wordBuf.get 0
  let first2 ← from2.wordBuf.get 0
  let x := if wordsInt2 < wordsInt1 then first1
    else if wordsInt1 < wordsInt2 then first2
    else int32 (first1 + first2)
  if wordMax - 1 < x then
    let wordBuf ← dst.wordBuf.set 0 0
    addSized from1 from2 (wordsIntTo + 1) { dst with wordBuf := wordBuf }
  else addSized from1 from2 wordsIntTo dst

/-! ## The operations -/

/-- Where decimals are kept: the variables of the callers, and the copies that `validateArgs` makes. -/
inductive Ref where
  | var (n : Nat)
  | tmp1
  | tmp2
  deriving DecidableEq

abbrev Heap := Ref → MyDecimal

/-- `validateArgs` copies an operand that is also the result, and clears the result. -/
def validateArgs (f1 f2 dst : Ref) (m : Heap) : Ref × Ref × Heap :=
  let (f1', m) := if f1 = dst then (Ref.tmp1, Function.update m .tmp1 (m f1)) else (f1, m)
  let (f2', m) := if f2 = dst then (Ref.tmp2, Function.update m .tmp2 (m f2)) else (f2, m)
  (f1', f2', Function.update m dst zeroMyDecimal)

def storeResult (m : Heap) (dst : Ref) (r : Res (MyDecimal × Option Err)) : Res (Heap × Option Err) := do
  let (d, err) ← r
  return (Function.update m dst d, err)

def decimalOp (op : MyDecimal → MyDecimal → MyDecimal → Res (MyDecimal × Option Err)) (f1 f2 dst : Ref)
    (m : Heap) : Res (Heap × Option Err) :=
  let (f1, f2, m) := validateArgs f1 f2 dst m
  let m := Function.update m dst { m dst with resultFrac := max (m f1).resultFrac (m f2).resultFrac }
  storeResult m dst (op (m f1) (m f2) (m dst))

def decimalAdd : Ref → Ref → Ref → Heap → Res (Heap × Option Err) :=
  decimalOp fun from1 from2 dst =>
    if from1.negative = from2.negative then doAdd from1 from2 dst else doSub from1 from2 dst

def decimalSub : Ref → Ref → Ref → Heap → Res (Heap × Option Err) :=
  decimalOp fun from1 from2 dst =>
    if from1.negative = from2.negative then doSub from1 from2 dst else doAdd from1 from2 dst

end Tidb.Types
