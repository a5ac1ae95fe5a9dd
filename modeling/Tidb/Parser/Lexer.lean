import Tidb.Lib.Utf8

/-!
# Strings and quoted identifiers of the scanner

The reader of the scanner holds the text that is left and the position it has come to.  A string literal and a quoted
identifier are read by one loop: characters of several bytes go into the buffer as they are, other bytes are
looked at one by one.
-/

namespace Parser

open List

abbrev Bytes : Type := List UInt8

inductive Tok where
  | invalid
  | stringLit
  | quotedIdentifier
  deriving DecidableEq, Repr

structure Pos where
  line : ℕ
  col : ℕ
  offset : ℕ
  deriving DecidableEq, Repr

structure Reader where
  rest : Bytes
  p : Pos
  deriving DecidableEq, Repr

namespace Reader

variable (r : Reader)

def eof : Bool := r.rest.isEmpty

def peek : UInt8 := r.rest.headD 0

def inc : Reader :=
  match r.rest with
  | [] => r
  | ch :: rest =>
    let p := if ch = 0x0A then { r.p with line := r.p.line + 1, col := 0 } else r.p
    ⟨rest, { p with offset := p.offset + 1, col := p.col + 1 }⟩

def incN : ℕ → Reader → Reader
  | 0, r => r
  | n + 1, r => incN n r.inc

def runeLen (mbLen : Bytes → ℕ) : ℕ := if r.peek ≤ 0x7F then 0 else mbLen r.rest

end Reader

inductive ByteStep where
  | write (bytes : Bytes) (r : Reader)
  | done (r : Reader)
  | fail (r : Reader)

structure Scanned where
  tok : Tok
  pos : Pos
  lit : Bytes
  r : Reader
  deriving DecidableEq, Repr

def scanLoop (mbLen : Bytes → ℕ) (onByte : UInt8 → Reader → ByteStep) (tok : Tok) (pos : Pos) :
    ℕ → Reader → Bytes → Option Scanned
  | 0, _, _ => none
  | fuel + 1, r, buf =>
    if r.eof then some ⟨.invalid, pos, [], r⟩
    else
      let c := r.runeLen mbLen
      if 0 < c then scanLoop mbLen onByte tok pos fuel (r.incN c) (buf ++ r.rest.take c)
      else
        match onByte r.peek r.inc with
        | .write bytes r => scanLoop mbLen onByte tok pos fuel r (buf ++ bytes)
        | .done r => some ⟨tok, pos, buf, r⟩
        | .fail r => some ⟨.invalid, pos, [], r⟩

def backquote : UInt8 := 0x60

def identByte (ch : UInt8) (r : Reader) : ByteStep :=
  if ch = backquote then if r.peek ≠ backquote then .done r else .write [ch] r.inc else .write [ch] r

def scanQuotedIdent (mbLen : Bytes → ℕ) (r : Reader) : Option Scanned :=
  scanLoop mbLen identByte .quotedIdentifier r.p (r.rest.length + 1) r.inc []

def backslash : UInt8 := 0x5C

def handleEscape (b : UInt8) : Bytes :=
  -- \" \' \\ \n \0 \b \Z \r \t ==> escape to one char
  if b = 0x6E then [0x0A]
  else if b = 0x30 then [0]
  else if b = 0x62 then [8]
  else if b = 0x5A then [26]
  else if b = 0x72 then [0x0D]
  else if b = 0x74 then [0x09]
  -- \% \_ ==> preserve both char
  else if b = 0x25 ∨ b = 0x5F then [backslash, b]
  -- other ==> remove \
  else [b]

def stringByte (noBackslashEscapes : Bool) (ending ch0 : UInt8) (r : Reader) : ByteStep :=
  if ch0 = ending then if r.peek ≠ ending then .done r else .write [ch0] r.inc
  else if ch0 = backslash && !noBackslashEscapes then
    if r.eof then .fail r else .write (handleEscape r.peek) r.inc
  else .write [ch0] r

def scanString (mbLen : Bytes → ℕ) (noBackslashEscapes : Bool) (r : Reader) : Option Scanned :=
  let ending := r.peek
  scanLoop mbLen (stringByte noBackslashEscapes ending) .stringLit r.p (r.rest.length + 1) r.inc []

def utf8MbLen (bs : Bytes) : ℕ :=
  let size := (Utf8.decodeRune bs).2
  if size ≤ 1 then 0 else size

/-! ## Reading on -/

namespace Reader

variable {r : Reader}

theorem rest_inc (r : Reader) : r.inc.rest = r.rest.tail := by
  unfold inc
  cases hr : r.rest with
  | nil => exact hr
  | cons b s => rfl

theorem offset_inc {b : UInt8} {s : Bytes} (h : r.rest = b :: s) : r.inc.p.offset = r.p.offset + 1 := by
  unfold inc
  rw [h]
  dsimp only
  split <;> rfl

theorem rest_incN (n : ℕ) : ∀ r : Reader, (r.incN n).rest = r.rest.drop n := by
  induction n with
  | zero => exact fun r => rfl
  | succ n ih =>
    intro r
    rw [incN, ih, rest_inc, drop_tail]

theorem incN_add (m n : ℕ) : ∀ r : Reader, r.incN (m + n) = (r.incN m).incN n := by
  induction m with
  | zero =>
    intro r
    rw [Nat.zero_add, incN]
  | succ m ih =>
    intro r
    rw [Nat.succ_add, incN, incN, ih]

theorem offset_incN (n : ℕ) : ∀ {r : Reader}, n ≤ r.rest.length → (r.incN n).p.offset = r.p.offset + n := by
  induction n with
  | zero => exact fun _ => rfl
  | succ n ih =>
    intro r hn
    cases hr : r.rest with
    | nil =>
      rw [hr] at hn
      cases hn
    | cons b s =>
      rw [hr] at hn
      rw [incN, ih, offset_inc hr, Nat.add_assoc, Nat.add_comm 1 n]
      rw [rest_inc, hr]
      exact Nat.le_of_succ_le_succ hn

end Reader

/-! ## What is written byte by byte -/

/-- Characters of several bytes lie in the text, and their bytes have more than seven bits. -/
def HighRunes (mbLen : Bytes → ℕ) : Prop :=
  ∀ b s, 0x80 ≤ b → 0 < mbLen (b :: s) →
    mbLen (b :: s) ≤ (b :: s).length ∧ ∀ c ∈ (b :: s).take (mbLen (b :: s)), 0x80 ≤ c

theorem highRunes_utf8MbLen : HighRunes utf8MbLen := by
  intro b s hb h
  unfold utf8MbLen at h ⊢
  by_cases hsize : (Utf8.decodeRune (b :: s)).2 ≤ 1
  · rw [if_pos hsize] at h
    cases h
  · rw [if_neg hsize]
    exact Utf8.decodeRune_bytes hb (by omega)

/-- `esc` writes the bytes that `onByte` reads; `q` ends the literal. -/
structure Escapes (onByte : UInt8 → Reader → ByteStep) (esc : UInt8 → Bytes) (q : UInt8) : Prop where
  esc_high : ∀ b, 0x80 ≤ b → esc b = [b]
  read_high : ∀ b, 0x80 ≤ b → ∀ r, onByte b r = .write [b] r
  low : ∀ b, b < 0x80 → ∃ c cs, esc b = c :: cs ∧ c < 0x80 ∧
    ∀ r t, r.rest = cs ++ t → onByte c r = .write [b] (r.incN cs.length)
  quote_low : q < 0x80
  quote : ∀ r, r.rest.head? ≠ some q → onByte q r = .done r

variable {mbLen : Bytes → ℕ} {onByte : UInt8 → Reader → ByteStep} {esc : UInt8 → Bytes} {q : UInt8} {tok : Tok}
    {pos : Pos}

theorem Escapes.take_high (he : Escapes onByte esc q) (t : Bytes) (n : ℕ) : ∀ {v : Bytes},
    n ≤ (v.flatMap esc ++ q :: t).length → (∀ c ∈ (v.flatMap esc ++ q :: t).take n, 0x80 ≤ c) →
    ∃ v', (v.flatMap esc ++ q :: t).take n ++ v' = v ∧ (v.flatMap esc ++ q :: t).drop n = v'.flatMap esc ++ q :: t := by
  induction n with
  | zero => exact fun {v} _ _ => ⟨v, rfl, rfl⟩
  | succ n ih =>
    intro v hn hhigh
    cases v with
    | nil =>
      -- the quote has seven bits
      have hq := hhigh q mem_cons_self
      exact absurd he.quote_low (UInt8.not_lt.mpr hq)
    | cons b v =>
      have hb : 0x80 ≤ b := by
        by_contra hlow
        obtain ⟨c, cs, hc, hclow, -⟩ := he.low b (UInt8.not_le.mp hlow)
        rw [flatMap_cons, hc] at hhigh
        exact absurd hclow (UInt8.not_lt.mpr (hhigh c mem_cons_self))
      have hflat : (b :: v).flatMap esc ++ q :: t = b :: (v.flatMap esc ++ q :: t) := by
        rw [flatMap_cons, he.esc_high b hb]
        rfl
      rw [hflat] at hn hhigh ⊢
      have hn' := Nat.le_of_succ_le_succ hn
      obtain ⟨v', hv', hdrop⟩ := ih hn' fun c hc => hhigh c (mem_cons_of_mem b hc)
      refine ⟨v', ?_, hdrop⟩
      rw [take_succ_cons, cons_append, hv']

open Reader

theorem runeLen_low {r : Reader} {b : UInt8} {s : Bytes} (hr : r.rest = b :: s) (hb : b < 0x80) :
    r.runeLen mbLen = 0 := by
  have hpeek : r.peek ≤ 0x7F := by
    unfold peek
    rw [hr]
    exact UInt8.le_iff_toNat_le.mpr (Nat.le_of_lt_succ (UInt8.lt_iff_toNat_lt.mp hb))
  unfold runeLen
  rw [if_pos hpeek]

theorem runeLen_high {r : Reader} {b : UInt8} {s : Bytes} (hr : r.rest = b :: s) (hb : 0x80 ≤ b) :
    r.runeLen mbLen = mbLen (b :: s) := by
  have hpeek : ¬ r.peek ≤ 0x7F := by
    unfold peek
    rw [hr]
    intro hle
    have hlt := UInt8.le_iff_toNat_le.mp (UInt8.le_trans hb hle)
    exact absurd hlt (by decide)
  unfold runeLen
  rw [if_neg hpeek, hr]

theorem scanLoop_byte {fuel : ℕ} {r : Reader} {b : UInt8} {s buf : Bytes} (hr : r.rest = b :: s)
    (hlen : r.runeLen mbLen = 0) : scanLoop mbLen onByte tok pos (fuel + 1) r buf =
      match onByte b r.inc with
      | .write bytes r => scanLoop mbLen onByte tok pos fuel r (buf ++ bytes)
      | .done r => some ⟨tok, pos, buf, r⟩
      | .fail r => some ⟨.invalid, pos, [], r⟩ := by
  have heof : ¬ r.eof = true := by
    unfold eof
    rw [hr]
    exact Bool.false_ne_true
  have hpeek : r.peek = b := by
    unfold peek
    rw [hr]
    rfl
  rw [scanLoop, if_neg heof]
  rw [hlen, if_neg (Nat.lt_irrefl 0), hpeek]

/-- The loop reads back what is written byte by byte, and stops behind the quote. -/
theorem scanLoop_reads (hm : HighRunes mbLen) (he : Escapes onByte esc q) {t : Bytes} (ht : t.head? ≠ some q)
    (fuel : ℕ) :
    ∀ {r : Reader} {v : Bytes} (buf : Bytes), r.rest = v.flatMap esc ++ q :: t → r.rest.length ≤ fuel →
      scanLoop mbLen onByte tok pos fuel r buf = some ⟨tok, pos, buf ++ v, r.incN ((v.flatMap esc).length + 1)⟩ := by
  induction fuel with
  | zero =>
    intro r v buf hr hfuel
    rw [hr, length_append, length_cons] at hfuel
    omega
  | succ fuel ih =>
    intro r v buf hr hfuel
    cases v with
    | nil =>
      -- the closing quote
      have hrest : r.inc.rest = t := by
        rw [rest_inc, hr]
        rfl
      rw [scanLoop_byte hr (runeLen_low hr he.quote_low), he.quote r.inc (by rw [hrest]; exact ht), append_nil]
      rfl
    | cons b v =>
      by_cases hb : b < 0x80
      · obtain ⟨c, cs, hesc, hc, hread⟩ := he.low b hb
        have hflat : (b :: v).flatMap esc = c :: (cs ++ v.flatMap esc) := by rw [flatMap_cons, hesc, cons_append]
        rw [hflat, cons_append] at hr
        have hinc : r.inc.rest = cs ++ (v.flatMap esc ++ q :: t) := by rw [rest_inc, hr, tail_cons, append_assoc]
        have hrest : (r.inc.incN cs.length).rest = v.flatMap esc ++ q :: t := by rw [rest_incN, hinc, drop_left]
        have hfuel' : (r.inc.incN cs.length).rest.length ≤ fuel := by
          rw [hr] at hfuel
          rw [hrest]
          simp only [length_cons, length_append] at hfuel ⊢
          omega
        rw [scanLoop_byte hr (runeLen_low hr hc), hread _ _ hinc]
        dsimp only
        rw [ih _ hrest hfuel', append_assoc, singleton_append, hflat, length_cons, length_append, ← incN_add]
        have hcount : cs.length + (v.flatMap esc).length + 1 + 1 = (cs.length + ((v.flatMap esc).length + 1)) + 1 := by
          omega
        rw [hcount, incN]
      · have hb : 0x80 ≤ b := UInt8.not_lt.mp hb
        have hflat : (b :: v).flatMap esc = b :: v.flatMap esc := by
          rw [flatMap_cons, he.esc_high b hb, singleton_append]
        have hr' : r.rest = b :: (v.flatMap esc ++ q :: t) := by rw [hr, hflat, cons_append]
        by_cases hlen : mbLen (b :: (v.flatMap esc ++ q :: t)) = 0
        · -- a byte that begins no character
          have hinc : r.inc.rest = v.flatMap esc ++ q :: t := by rw [rest_inc, hr', tail_cons]
          have hfuel' : r.inc.rest.length ≤ fuel := by
            rw [hr'] at hfuel
            rw [hinc]
            exact Nat.le_of_succ_le_succ hfuel
          rw [scanLoop_byte hr' (by rw [runeLen_high hr' hb, hlen]), he.read_high b hb]
          dsimp only
          rw [ih _ hinc hfuel', append_assoc, hflat]
          rfl
        · -- the bytes of the character are bytes of the value
          obtain ⟨hle, hhigh⟩ := hm b _ hb (Nat.pos_of_ne_zero hlen)
          have heof : ¬ r.eof = true := by
            unfold eof
            rw [hr']
            exact Bool.false_ne_true
          rw [scanLoop, if_neg heof]
          rw [runeLen_high hr' hb, if_pos (Nat.pos_of_ne_zero hlen)]
          generalize hn : mbLen (b :: (v.flatMap esc ++ q :: t)) = n at hlen hle hhigh ⊢
          rw [← hr', hr] at hle hhigh
          obtain ⟨v', hv', hdrop⟩ := he.take_high t n hle hhigh
          have hrest : (r.incN n).rest = v'.flatMap esc ++ q :: t := by rw [rest_incN, hr, hdrop]
          have hsum : ((b :: v).flatMap esc).length = n + (v'.flatMap esc).length := by
            have hlen := congrArg length hdrop
            rw [length_drop, length_append, length_append, length_cons] at hlen
            omega
          have hfuel' : (r.incN n).rest.length ≤ fuel := by
            rw [hr, length_append, length_cons] at hfuel
            rw [hrest, length_append, length_cons]
            omega
          rw [ih _ hrest hfuel', append_assoc, hr, hv', hsum, Nat.add_assoc, ← incN_add]

end Parser
