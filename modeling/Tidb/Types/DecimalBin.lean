import Tidb.Types.MyDecimal

/-!
# The binary form of decimals (`WriteBin` and `FromBin` of `types/mydecimal.go`)

For a precision `p` and a scale `f` the cells are the `(p - f) % 9` digits in front of the first full word, the full
words of four bytes each, and the `f % 9` digits after the last one.  The bytes of a negative number are complemented
and the top bit of the first byte is flipped.
-/

namespace Tidb.Types

open GoLang ByteNum

def xorMask (x : Int) (mask : Bool) : Int := if mask then -x - 1 else x

def maskByte (mask : Bool) : UInt8 := if mask then 0xFF else 0

def wordBytes (word : Int) (size : Int) : Bytes := beBytes size.toNat (word % 2 ^ 32).toNat

def readWord (b : Bytes) (size : Int) : Res Int := do
  let data ← sliceTo b size.toNat
  return (beNat data : Int).bmod (256 ^ size.toNat)

structure Cursor where
  bin : Bytes
  binIdx : Nat

def Cursor.put (c : Cursor) (bs : Bytes) : Res Cursor :=
  if c.binIdx + bs.length ≤ c.bin.length then
    .ok ⟨c.bin.take c.binIdx ++ bs ++ c.bin.drop (c.binIdx + bs.length), c.binIdx + bs.length⟩
  else .fault

/-- The region that the output goes to: the spare capacity behind the buffer when there is enough of
it, with whatever it holds, or fresh zero bytes. -/
def binRegion (size : Int) (spare : Bytes) : Res Bytes :=
  if size < 0 then .fault
  else if size ≤ spare.length then .ok (spare.take size.toNat)
  else .ok (List.replicate size.toNat 0)

/-- How many fraction words and trailing digits to copy, what is left of the fraction size, and
whether digits are lost. -/
structure FracPlan where
  words : Int
  trailingDigits : Int
  fracSize : Int
  truncated : Bool

def planFrac (wordsFrac trailingDigits fracSize wordsFracFrom trailingDigitsFrom fracSizeFrom : Int) : FracPlan :=
  if fracSize < fracSizeFrom ∨ fracSize = fracSizeFrom ∧
      (trailingDigits ≤ trailingDigitsFrom ∨ wordsFrac ≤ wordsFracFrom) then
    { words := wordsFrac
      trailingDigits := trailingDigits
      fracSize := fracSize
      truncated := decide (fracSize < fracSizeFrom ∨ fracSize = fracSizeFrom ∧ trailingDigits < trailingDigitsFrom ∨
        fracSize = fracSizeFrom ∧ wordsFrac < wordsFracFrom) }
  else if fracSizeFrom < fracSize ∧ 0 < trailingDigitsFrom then
    if wordsFrac = wordsFracFrom then
      { words := wordsFracFrom
        trailingDigits := trailingDigits
        fracSize := fracSizeFrom
        truncated := false }
    else
      { words := wordsFracFrom + 1
        trailingDigits := 0
        fracSize := fracSize
        truncated := false }
  else
    { words := wordsFracFrom
      trailingDigits := trailingDigitsFrom
      fracSize := fracSize
      truncated := false }

/-- Which word to start at, how many leading digits and full words of the integer part to copy, and
how many bytes to fill in front of them. -/
structure IntPlan where
  wordIdx : Int
  leadingDigits : Int
  words : Int
  padding : Int

/-- An integer part that does not fit keeps its low digits. -/
def planInt (digitsInt wordsInt leadingDigits intSize wordIdxFrom digitsIntFrom wordsIntFrom
    leadingDigitsFrom iSizeFrom : Int) : IntPlan :=
  if digitsInt < digitsIntFrom then
    { wordIdx := wordIdxFrom + (wordsIntFrom - wordsInt) +
        (if 0 < leadingDigitsFrom then 1 else 0) - (if 0 < leadingDigits then 1 else 0)
      leadingDigits := leadingDigits
      words := wordsInt
      padding := 0 }
  else
    { wordIdx := wordIdxFrom
      leadingDigits := leadingDigitsFrom
      words := wordsIntFrom
      padding := intSize - iSizeFrom }

def writeWords (words : WordBuf) (mask : Bool) : Nat → Int → Cursor → Res (Int × Cursor)
  | 0, wordIdx, c => .ok (wordIdx, c)
  | n + 1, wordIdx, c => do
    let x ← words.get wordIdx
    let c ← c.put (wordBytes (xorMask x mask) 4)
    writeWords words mask n (wordIdx + 1) c

def extendTrailing (lim i : Int) : Nat → Int → Res Int
  | 0, trailingDigitsFrom => .ok trailingDigitsFrom
  | n + 1, trailingDigitsFrom =>
    if trailingDigitsFrom < lim then do
      let size ← dig2bytes trailingDigitsFrom
      if size = i then extendTrailing lim i n (trailingDigitsFrom + 1) else .ok trailingDigitsFrom
    else .ok trailingDigitsFrom

def writeLeading (words : WordBuf) (mask : Bool) (wordIdx leadingDigits : Int) (c : Cursor) : Res (Int × Cursor) :=
  if 0 < leadingDigits then do
    let i ← dig2bytes leadingDigits
    let w ← words.get wordIdx
    let p ← powers10 leadingDigits
    let c ← c.put (wordBytes (xorMask (w.tmod p) mask) i)
    return (wordIdx + 1, c)
  else return (wordIdx, c)

def writeTrailing (words : WordBuf) (mask : Bool) (wordIdx trailingDigits lim : Int) (c : Cursor) : Res Cursor :=
  if 0 < trailingDigits then do
    let i ← dig2bytes trailingDigits
    let trailingDigits ← extendTrailing lim i 10 trailingDigits
    let w ← words.get wordIdx
    let p ← powers10 (digitsPerWord - trailingDigits)
    c.put (wordBytes (xorMask (w.tdiv p) mask) i)
  else return c

/-- What `WriteBin` stores once it has decided what to copy: the fill in front, the leading digits, the full words, the
trailing digits, and the fill behind. -/
def writeRegion (words : WordBuf) (mask : Bool) (wordIdx leadingDigits nWords trailingDigits lim
    intPadding fracPadding : Int) (bin : Bytes) : Res Bytes := do
  let c ← Cursor.put ⟨bin, 0⟩ (List.replicate intPadding.toNat (maskByte mask))
  let (wordIdx, c) ← writeLeading words mask wordIdx leadingDigits c
  let (wordIdx, c) ← writeWords words mask nWords.toNat wordIdx c
  let c ← writeTrailing words mask wordIdx trailingDigits lim c
  let padding := min fracPadding (bin.length - c.binIdx)
  let c ← c.put (List.replicate padding.toNat (maskByte mask))
  return c.bin

/-- `WriteBin` appends to `buf`, in front of the spare capacity that holds `spare`; it returns the
bytes together with its error. -/
def writeBin (d : MyDecimal) (precision frac : Int) (buf spare : Bytes) : Res (Bytes × Option Err) :=
  if digitsPerWord * maxWordBufLen < precision ∨ precision < 0 ∨ maxDecimalScale < frac ∨ frac < 0 then
    .ok (buf, some .errBadNumber)
  else do
    let digitsInt := precision - frac
    let wordsInt := digitsInt.tdiv digitsPerWord
    let leadingDigits := digitsInt - wordsInt * digitsPerWord
    let wordsFrac := frac.tdiv digitsPerWord
    let trailingDigits := frac - wordsFrac * digitsPerWord
    let wordsFracFrom := d.digitsFrac.tdiv digitsPerWord
    let trailingDigitsFrom := d.digitsFrac - wordsFracFrom * digitsPerWord
    let leadingBytes ← dig2bytes leadingDigits
    let trailingBytes ← dig2bytes trailingDigits
    let trailingBytesFrom ← dig2bytes trailingDigitsFrom
    let intSize := wordsInt * wordSize + leadingBytes
    let fracSize := wordsFrac * wordSize + trailingBytes
    let fracSizeFrom := wordsFracFrom * wordSize + trailingBytesFrom
    let bin ← binRegion (intSize + fracSize) spare
    let (wordIdxFrom, digitsIntFrom) ← removeLeadingZeros d
    -- a zero is written without its sign
    let isZero := decide (digitsIntFrom + fracSizeFrom = 0)
    let mask := !isZero && d.negative
    let digitsInt := if isZero then 1 else digitsInt
    let wordsIntFrom := digitsIntFrom.tdiv digitsPerWord
    let leadingDigitsFrom := digitsIntFrom - wordsIntFrom * digitsPerWord
    let leadingBytesFrom ← dig2bytes leadingDigitsFrom
    let planI := planInt digitsInt wordsInt leadingDigits intSize wordIdxFrom digitsIntFrom
      wordsIntFrom leadingDigitsFrom (wordsIntFrom * wordSize + leadingBytesFrom)
    let planF := planFrac wordsFrac trailingDigits fracSize wordsFracFrom trailingDigitsFrom
      fracSizeFrom
    let lim := if planF.words < wordsFrac then digitsPerWord else trailingDigits
    let bin ← writeRegion d.wordBuf mask planI.wordIdx planI.leadingDigits
      (planI.words + planF.words) planF.trailingDigits lim planI.padding
      (planF.fracSize - fracSizeFrom) bin
    let _ ← index bin 0
    return (buf ++ flipTop bin,
      if planF.truncated then some .errTruncated
      else if digitsInt < digitsIntFrom then some .errOverflow else none)

def int8 (x : Int) : Int := x.bmod 256

def int32 (x : Int) : Int := x.bmod (2 ^ 32)

/-- What `FromBin` keeps while it reads: the words, the place of the next one, the number of integer
digits, and the place in the input. -/
structure BinReader where
  words : WordBuf
  wordIdx : Nat
  digitsInt : Int
  binIdx : Nat

def BinReader.next (r : BinReader) (bin : Bytes) (mask : Bool) (size : Int) : Res Int := do
  let b ← sliceFrom bin r.binIdx
  let x ← readWord b size
  return xorMask x mask

def badWord (w : Int) : Prop := w < 0 ∨ wordMax < w

instance (w : Int) : Decidable (badWord w) := inferInstanceAs (Decidable (_ ∨ _))

/-- A word of the integer part is kept unless it is zero and in front. -/
def BinReader.keep (r : BinReader) (words : WordBuf) (w digits : Int) (size : Nat) : BinReader :=
  if 0 < r.wordIdx ∨ w ≠ 0 then ⟨words, r.wordIdx + 1, r.digitsInt, r.binIdx + size⟩
  else ⟨words, r.wordIdx, int8 (r.digitsInt - digits), r.binIdx + size⟩

def readLeading (bin : Bytes) (mask : Bool) (leadingDigits : Int) (r : BinReader) : Res BinReader :=
  if 0 < leadingDigits then do
    let i ← dig2bytes leadingDigits
    let w ← r.next bin mask i
    let words ← r.words.set r.wordIdx w
    let p ← powers10 (leadingDigits + 1)
    if w < 0 ∨ p ≤ w then .error .errBadNumber
    else return r.keep words w (int8 leadingDigits) i.toNat
  else return r

/-- The loops over the full words of the integer part and of the fraction: they read a word, check it
and go on to the next place. -/
def readWords (bin : Bytes) (mask : Bool) (advance : BinReader → WordBuf → Int → BinReader) :
    Nat → BinReader → Res BinReader
  | 0, r => .ok r
  | n + 1, r => do
    let w ← r.next bin mask 4
    let words ← r.words.set r.wordIdx w
    if badWord w then .error .errBadNumber
    else readWords bin mask advance n (advance r words w)

def readIntWords (bin : Bytes) (mask : Bool) : Nat → BinReader → Res BinReader :=
  readWords bin mask fun r words w => r.keep words w digitsPerWord 4

def readFracWords (bin : Bytes) (mask : Bool) : Nat → BinReader → Res BinReader :=
  readWords bin mask fun r words _ => ⟨words, r.wordIdx + 1, r.digitsInt, r.binIdx + 4⟩

def readTrailing (bin : Bytes) (mask : Bool) (trailingDigits : Int) (r : BinReader) : Res BinReader :=
  if 0 < trailingDigits then do
    let i ← dig2bytes trailingDigits
    let x ← r.next bin mask i
    let p ← powers10 (digitsPerWord - trailingDigits)
    let w := int32 (x * p)
    let words ← r.words.set r.wordIdx w
    if badWord w then .error .errBadNumber
    else return { r with words := words }
  else return r

def readDigits (bin : Bytes) (mask : Bool) (leadingDigits wordsInt wordsFrac trailingDigits : Int)
    (r : BinReader) : Res BinReader := do
  let r ← readLeading bin mask leadingDigits r
  let r ← readIntWords bin mask wordsInt.toNat r
  let r ← readFracWords bin mask wordsFrac.toNat r
  readTrailing bin mask trailingDigits r

/-- The number of bytes to skip, and what is left of the fraction, when there are too many words. -/
def fitWords (leadingBytes wordsInt wordsFrac trailingDigits wordsIntTo wordsFracTo : Int) :
    Int × Int × Int × Option Err :=
  match fixWordCntError wordsIntTo wordsFracTo with
  | (_, _, none) => (0, wordsFrac, trailingDigits, none)
  | (newInt, newFrac, some err) =>
    if newInt < wordsIntTo then
      (leadingBytes + (wordsInt - newInt) * wordSize, wordsFrac, trailingDigits, some err)
    else (0, newFrac, 0, some err)

def binResult (binSize frac digitsFrac : Int) (mask : Bool) (err : Option Err) :
    Res BinReader → Res (Int × MyDecimal × Option Err)
  | .fault => .fault
  | .error e => .ok (binSize, zeroMyDecimal, some e)
  | .ok r =>
    if r.digitsInt = 0 ∧ digitsFrac = 0 then
      .ok (binSize, { zeroMyDecimal with resultFrac := int8 frac }, err)
    else .ok (binSize, ⟨r.digitsInt, digitsFrac, int8 frac, mask, r.words⟩, err)

def readBin (d : MyDecimal) (bin : Bytes) (binSize precision frac : Int) (mask : Bool) :
    Res (Int × MyDecimal × Option Err) := do
  let digitsInt := precision - frac
  let wordsInt := digitsInt.tdiv digitsPerWord
  let leadingDigits := digitsInt - wordsInt * digitsPerWord
  let wordsFrac := frac.tdiv digitsPerWord
  let trailingDigits := frac - wordsFrac * digitsPerWord
  let wordsIntTo := if 0 < leadingDigits then wordsInt + 1 else wordsInt
  let wordsFracTo := if 0 < trailingDigits then wordsFrac + 1 else wordsFrac
  let dCopy := bin.take binSize.toNat ++ List.replicate (binSize.toNat - bin.length) 0
  let _ ← index dCopy 0
  let bin := flipTop dCopy
  let leadingBytes ← dig2bytes leadingDigits
  let (skip, wordsFrac, trailingDigits, err) :=
    fitWords leadingBytes wordsInt wordsFrac trailingDigits wordsIntTo wordsFracTo
  let digitsFrac := int8 (wordsFrac * digitsPerWord + trailingDigits)
  binResult binSize frac digitsFrac mask err
    (readDigits bin mask leadingDigits wordsInt wordsFrac trailingDigits
      ⟨d.wordBuf, 0, int8 (wordsInt * digitsPerWord + leadingDigits), skip.toNat⟩)

/-- `FromBin` into `d`; it returns the size of the binary form, the decimal and the error. -/
def fromBin (d : MyDecimal) (bin : Bytes) (precision frac : Int) : Res (Int × MyDecimal × Option Err) :=
  match bin with
  | [] => .ok (0, zeroMyDecimal, some .errBadNumber)
  | first :: _ =>
    let mask := decide (first &&& 0x80 = 0)
    match decimalBinSize precision frac with
    | .fault => .fault
    | .error e => .ok (0, d, some e)
    | .ok binSize =>
      if binSize < 0 ∨ 40 < binSize then .ok (0, d, some .errBadNumber)
      else readBin d bin binSize precision frac mask

end Tidb.Types
