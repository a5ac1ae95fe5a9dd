import Tidb.Sqlexec.Escape

/-!
# What the scanner reads of an argument

The text of a template is made of the pieces of the template, which no argument changes.  A string argument is read
back as it was, unless the text behind it begins with a quote.
-/

namespace Sqlexec

open Parser List

variable {lib : FormatLib} {args : List (Arg lib)}

/-! ## Pieces of a template -/

inductive Piece where
  | text (b : UInt8)
  | name
  | value
  deriving DecidableEq, Repr

def pieces : Bytes → List Piece
  | [] => []
  | b :: sql =>
    if b ≠ 0x25 then .text b :: pieces sql
    else
      match sql with
      | [] => [.text 0x25]
      | ch :: rest =>
        if ch = 0x6E then .name :: pieces rest
        else if ch = 0x3F then .value :: pieces rest
        else if ch = 0x25 then .text 0x25 :: pieces rest
        else .text 0x25 :: pieces (ch :: rest)

def placeholders : List Piece → ℕ
  | [] => 0
  | .text _ :: ps => placeholders ps
  | .name :: ps => placeholders ps + 1
  | .value :: ps => placeholders ps + 1

def Piece.render (args : List (Arg lib)) (argPos : ℕ) : Piece → Except Err Bytes
  | .text b => .ok [b]
  | .name =>
    match args[argPos]? with
    | none => .error (.missing (argPos + 1) args.length)
    | some arg => appendName [] arg
  | .value =>
    match args[argPos]? with
    | none => .error (.missing (argPos + 1) args.length)
    | some arg => appendValue (argPos + 1) [] arg

def render (args : List (Arg lib)) : List Piece → ℕ → Except Err Bytes
  | [], _ => .ok []
  | piece :: ps, argPos =>
    match piece.render args argPos with
    | .error err => .error err
    | .ok text => (render args ps (argPos + placeholders [piece])).map (text ++ ·)

/-! ## The buffer only grows -/

theorem appendQuoted_eq (buf v : Bytes) : appendQuoted buf v = buf ++ quote :: (v.flatMap escapeByte ++ [quote]) := by
  unfold appendQuoted
  rw [escapeBytesBackslash_eq, append_assoc, append_assoc, singleton_append]

theorem appendList_eq {α : Type} {append : Bytes → α → Bytes} (h : ∀ buf k, append buf k = buf ++ append [] k)
    (buf : Bytes) (ks : List α) : appendList append buf ks = buf ++ appendList append [] ks := by
  cases ks with
  | nil => exact (append_nil buf).symm
  | cons k ks =>
    have hfold : ∀ (ks : List α) (a b : Bytes), ks.foldl (fun buf k => append (buf ++ [0x2C]) k) (a ++ b) =
        a ++ ks.foldl (fun buf k => append (buf ++ [0x2C]) k) b := by
      intro ks
      induction ks with
      | nil => exact fun a b => rfl
      | cons k ks ih =>
        intro a b
        rw [foldl_cons, foldl_cons, h, h (b ++ _), append_assoc, append_assoc, ih]
        rw [append_assoc]
    rw [appendList, appendList, h buf k, hfold]

theorem appendValue_eq (argPos : ℕ) (buf : Bytes) (arg : Arg lib) :
    appendValue argPos buf arg = (appendValue argPos [] arg).map (buf ++ ·) := by
  cases arg with
  | bytes v => cases v <;> simp [appendValue, Except.map, appendQuoted_eq]
  | time v => by_cases hz : lib.isZero v <;> simp [appendValue, Except.map, hz]
  | strs v =>
    have happend : ∀ buf k, appendQuoted buf k = buf ++ appendQuoted [] k := by
      intro buf k
      rw [appendQuoted_eq, appendQuoted_eq, nil_append]
    simp only [appendValue, Except.map, appendList_eq happend buf v]
  | float32s v => exact congrArg Except.ok (appendList_eq (fun _ _ => rfl) buf v)
  | float64s v => exact congrArg Except.ok (appendList_eq (fun _ _ => rfl) buf v)
  | _ => simp [appendValue, Except.map, appendQuoted_eq]

theorem appendName_eq (buf : Bytes) (arg : Arg lib) : appendName buf arg = (appendName [] arg).map (buf ++ ·) := by
  cases arg <;> simp [appendName, Except.map]

theorem map_append_map (r : Except Err Bytes) (a b : Bytes) :
    (r.map (b ++ ·)).map (a ++ ·) = r.map ((a ++ b) ++ ·) := by
  cases r with
  | error err => rfl
  | ok text => exact congrArg Except.ok (append_assoc a b text).symm

theorem escapeSQLLoop_eq (args : List (Arg lib)) (sql : Bytes) (argPos : ℕ) (buf : Bytes) :
    escapeSQLLoop args sql argPos buf = (render args (pieces sql) argPos).map (buf ++ ·) := by
  -- the template is cut as `pieces` cuts it
  induction sql using pieces.induct generalizing argPos buf with
  | case1 => exact congrArg Except.ok (append_nil buf).symm
  | case2 b sql hb ih =>
    rw [escapeSQLLoop.eq_def, pieces.eq_def]
    dsimp only
    rw [if_pos hb, if_pos hb, ih]
    exact (map_append_map _ buf [b]).symm
  | case3 b hb =>
    rw [escapeSQLLoop.eq_def, pieces.eq_def]
    dsimp only
    rw [if_neg hb, if_neg hb]
    rfl
  | case4 b hb rest ih =>
    rw [escapeSQLLoop.eq_def, pieces.eq_def]
    dsimp only
    rw [if_neg hb, if_neg hb, if_pos rfl, if_pos rfl, render, Piece.render]
    cases hpos : args[argPos]? with
    | none => rfl
    | some arg =>
      dsimp only
      rw [appendName_eq]
      cases appendName [] arg with
      | error err => rfl
      | ok text =>
        dsimp only [Except.map]
        rw [ih]
        exact (map_append_map _ buf text).symm
  | case5 b hb rest hn ih =>
    rw [escapeSQLLoop.eq_def, pieces.eq_def]
    dsimp only
    rw [if_neg hb, if_neg hb, if_neg hn, if_neg hn, if_pos rfl, if_pos rfl, render, Piece.render]
    cases hpos : args[argPos]? with
    | none => rfl
    | some arg =>
      dsimp only
      rw [appendValue_eq]
      cases appendValue (argPos + 1) [] arg with
      | error err => rfl
      | ok text =>
        dsimp only [Except.map]
        rw [ih]
        exact (map_append_map _ buf text).symm
  | case6 b hb rest hn hq ih =>
    rw [escapeSQLLoop.eq_def, pieces.eq_def]
    dsimp only
    rw [if_neg hb, if_neg hb, ih]
    exact (map_append_map _ buf [0x25]).symm
  | case7 b hb ch rest hn hq hp ih =>
    rw [escapeSQLLoop.eq_def, pieces.eq_def]
    dsimp only
    rw [if_neg hb, if_neg hb, if_neg hn, if_neg hn, if_neg hq, if_neg hq, if_neg hp, if_neg hp, ih]
    exact (map_append_map _ buf [0x25]).symm

theorem render_cons_eq_ok {piece : Piece} {ps : List Piece} {argPos : ℕ} {out : Bytes} :
    render args (piece :: ps) argPos = .ok out ↔ ∃ text y, piece.render args argPos = .ok text ∧
      render args ps (argPos + placeholders [piece]) = .ok y ∧ text ++ y = out := by
  rw [render]
  cases piece.render args argPos with
  | error err => simp
  | ok text => cases render args ps (argPos + placeholders [piece]) <;> simp [Except.map]

theorem exists_render_of_append {ps : List Piece} {piece : Piece} {out : Bytes} (before : List Piece) {argPos : ℕ}
    (h : render args (before ++ piece :: ps) argPos = .ok out) :
    ∃ x text y, render args before argPos = .ok x ∧ piece.render args (argPos + placeholders before) = .ok text ∧
      render args ps (argPos + placeholders before + placeholders [piece]) = .ok y ∧ out = x ++ (text ++ y) := by
  induction before generalizing out argPos with
  | nil =>
    obtain ⟨text, y, htext, hy, rfl⟩ := render_cons_eq_ok.mp h
    exact ⟨[], text, y, rfl, htext, hy, rfl⟩
  | cons first before ih =>
    obtain ⟨start, rest, hstart, hrest, rfl⟩ := render_cons_eq_ok.mp h
    obtain ⟨x, text, y, hx, htext, hy, rfl⟩ := ih hrest
    have hcount : placeholders (first :: before) = placeholders [first] + placeholders before := by
      cases first <;> simp [placeholders, Nat.add_comm]
    rw [hcount, ← Nat.add_assoc]
    exact ⟨start ++ x, text, y, render_cons_eq_ok.mpr ⟨start, x, hstart, hx, rfl⟩, htext, hy,
      (append_assoc start x _).symm⟩

/-! ## Reading back -/

open Reader

theorem peek_ne {r : Reader} {q : UInt8} (hq : q ≠ 0) (h : r.rest.head? ≠ some q) : r.peek ≠ q := by
  unfold peek
  cases hr : r.rest with
  | nil => exact hq.symm
  | cons b s =>
    rw [hr] at h
    exact fun heq => h (congrArg some heq)

theorem ne_of_high {b c : UInt8} (hb : 0x80 ≤ b) (hc : c < 0x80) : b ≠ c := by
  rintro rfl
  exact UInt8.not_lt.mpr hb hc

theorem stringByte_plain {b : UInt8} (hquote : b ≠ quote) (hback : b ≠ backslash) (r : Reader) :
    stringByte false quote b r = .write [b] r := by
  unfold stringByte
  rw [if_neg hquote, if_neg (by simp [hback])]

theorem stringByte_backslash {r : Reader} {b : UInt8} {t : Bytes} (hr : r.rest = b :: t) :
    stringByte false quote backslash r = .write (handleEscape b) (r.incN 1) := by
  unfold stringByte eof peek
  rw [hr]
  rfl

theorem escapes_string : Escapes (stringByte false quote) escapeByte quote := by
  constructor
  · intro b hb
    unfold escapeByte
    repeat rw [if_neg (ne_of_high hb (by decide))]
  · intro b hb r
    exact stringByte_plain (ne_of_high hb (by decide)) (ne_of_high hb (by decide)) r
  · intro b hb
    have hescaped : ∀ x, handleEscape x = [b] → ∀ (r : Reader) (t : Bytes), r.rest = [x] ++ t →
        stringByte false quote backslash r = .write [b] (r.incN [x].length) := by
      intro x hx r t hr
      rw [stringByte_backslash hr, hx]
      rfl
    unfold escapeByte
    split_ifs with h₁ h₂ h₃ h₄ h₅ h₆ h₇
    iterate 7
      · subst b
        exact ⟨_, _, rfl, by decide, hescaped _ rfl⟩
    · exact ⟨b, [], rfl, hb, fun r _ _ => stringByte_plain h₅ h₇ r⟩
  · decide
  · intro r hr
    unfold stringByte
    rw [if_pos rfl, if_pos (peek_ne (by decide) hr)]

theorem escapes_ident : Escapes identByte escapeNameByte backquote := by
  have hplain : ∀ {b : UInt8}, b ≠ backquote → ∀ r, identByte b r = .write [b] r := by
    intro b hb r
    unfold identByte
    rw [if_neg hb]
  constructor
  · intro b hb
    unfold escapeNameByte
    rw [if_neg (ne_of_high hb (by decide))]
  · exact fun b hb => hplain (ne_of_high hb (by decide))
  · intro b hb
    unfold escapeNameByte
    split_ifs with h
    · refine ⟨b, [b], rfl, hb, fun r t hr => ?_⟩
      unfold identByte peek
      rw [h] at hr ⊢
      rw [hr]
      rfl
    · exact ⟨b, [], rfl, hb, fun r _ _ => hplain h r⟩
  · decide
  · intro r hr
    unfold identByte
    rw [if_pos rfl, if_pos (peek_ne (by decide) hr)]

def readerAt (text : Bytes) (p : Pos) : Reader := ⟨text.drop p.offset, p⟩

def StopsAt (text : Bytes) (offset : ℕ) (r : Reader) : Prop := r.p.offset = offset ∧ r.rest = text.drop offset

theorem stopsAt_incN {before lit after : Bytes} {p : Pos} (hp : p.offset = before.length) :
    StopsAt (before ++ (lit ++ after)) (before.length + lit.length)
      ((readerAt (before ++ (lit ++ after)) p).incN lit.length) := by
  have hrest : (readerAt (before ++ (lit ++ after)) p).rest = lit ++ after := by
    unfold readerAt
    rw [hp, drop_left]
  constructor
  · rw [offset_incN _ (by rw [hrest, length_append]; omega)]
    exact congrArg (· + lit.length) hp
  · rw [rest_incN, hrest, drop_left, ← append_assoc, ← length_append, drop_left]

/-- The text between two places is scanned as a token with the literal `v`. -/
def ReadAs (scan : Reader → Option Scanned) (tok : Tok) (v text : Bytes) (start stop : ℕ) : Prop :=
  ∀ p, p.offset = start → ∃ r, scan (readerAt text p) = some ⟨tok, p, v, r⟩ ∧ StopsAt text stop r

def written (esc : UInt8 → Bytes) (q : UInt8) (v : Bytes) : Bytes := q :: (v.flatMap esc ++ [q])

section Written

variable {esc : UInt8 → Bytes} {onByte : UInt8 → Reader → ByteStep} {q : UInt8} {before after v : Bytes} {p : Pos}

theorem readerAt_written (hp : p.offset = before.length) :
    (readerAt (before ++ (written esc q v ++ after)) p).rest = q :: (v.flatMap esc ++ q :: after) := by
  unfold readerAt written
  rw [hp]
  simp

theorem scanLoop_written (he : Escapes onByte esc q) (hafter : after.head? ≠ some q) (hp : p.offset = before.length)
    (tok : Tok) :
    ∃ r, scanLoop utf8MbLen onByte tok p ((readerAt (before ++ (written esc q v ++ after)) p).rest.length + 1)
        (readerAt (before ++ (written esc q v ++ after)) p).inc [] = some ⟨tok, p, v, r⟩ ∧
      StopsAt (before ++ (written esc q v ++ after)) (before.length + (written esc q v).length) r := by
  have hrest : (readerAt (before ++ (written esc q v ++ after)) p).rest = q :: (v.flatMap esc ++ q :: after) :=
    readerAt_written hp
  have hinc : (readerAt (before ++ (written esc q v ++ after)) p).inc.rest = v.flatMap esc ++ q :: after := by
    rw [rest_inc, hrest, tail_cons]
  refine ⟨_, ?_, stopsAt_incN hp⟩
  rw [scanLoop_reads highRunes_utf8MbLen he hafter _ [] hinc (by rw [hinc, hrest, length_cons]; omega)]
  have hlength : (written esc q v).length = (v.flatMap esc).length + 1 + 1 := by
    rw [written, length_cons, length_append, length_singleton]
  rw [hlength]
  rfl

end Written

def Arg.literal : Arg lib → Option (Bytes × Bytes)
  | .json v => some ([], v)
  | .bytes (some v) => some (binary, v)
  | .str v => some ([], v)
  | _ => none

theorem appendValue_literal {arg : Arg lib} {start v : Bytes} (h : arg.literal = some (start, v)) (argPos : ℕ) :
    appendValue argPos [] arg = .ok (start ++ written escapeByte quote v) := by
  unfold Arg.literal at h
  split at h
  · cases h
    exact congrArg Except.ok (appendQuoted_eq [] v)
  · cases h
    exact congrArg Except.ok (appendQuoted_eq binary v)
  · cases h
    exact congrArg Except.ok (appendQuoted_eq [] v)
  · cases h

/-- The text of an accepted template is that of its pieces, and the literal of an argument, when no quote is written
behind it, is read back as the argument and ends where the text behind it begins. -/
theorem escapeSQL_read_back {sql out : Bytes} (h : escapeSQL sql args = .ok out) {ps ps' : List Piece} {piece : Piece}
    (hpieces : pieces sql = ps ++ piece :: ps') :
    ∃ before text after, render args ps 0 = .ok before ∧ piece.render args (placeholders ps) = .ok text ∧
      render args ps' (placeholders ps + placeholders [piece]) = .ok after ∧ out = before ++ (text ++ after) ∧
      (∀ arg start v, piece = .value → args[placeholders ps]? = some arg → arg.literal = some (start, v) →
        after.head? ≠ some quote → ReadAs (scanString utf8MbLen false) .stringLit v out
          (before.length + start.length) (before.length + text.length)) ∧
      ∀ v, piece = .name → args[placeholders ps]? = some (.str v) → after.head? ≠ some backquote →
        ReadAs (scanQuotedIdent utf8MbLen) .quotedIdentifier v out before.length (before.length + text.length) := by
  unfold escapeSQL at h
  rw [escapeSQLLoop_eq, hpieces] at h
  cases hrender : render args (ps ++ piece :: ps') 0 with
  | error err =>
    rw [hrender] at h
    cases h
  | ok text =>
    rw [hrender] at h
    cases h
    obtain ⟨before, text, after, hbefore, htext, hafter, rfl⟩ := exists_render_of_append ps hrender
    rw [Nat.zero_add] at htext hafter
    refine ⟨before, text, after, hbefore, htext, hafter, rfl, ?_, ?_⟩
    · rintro arg start v rfl harg hliteral hquote p hp
      rw [Piece.render, harg] at htext
      dsimp only at htext
      rw [appendValue_literal hliteral] at htext
      cases htext
      rw [← length_append] at hp
      have hout : before ++ ((start ++ written escapeByte quote v) ++ after) =
          (before ++ start) ++ (written escapeByte quote v ++ after) := by
        simp only [append_assoc]
      have hlength : before.length + (start ++ written escapeByte quote v).length =
          (before ++ start).length + (written escapeByte quote v).length := by
        simp only [length_append, Nat.add_assoc]
      have hpeek : (readerAt ((before ++ start) ++ (written escapeByte quote v ++ after)) p).peek = quote := by
        unfold peek
        rw [readerAt_written hp]
        rfl
      simp only [nil_append, hout, hlength]
      unfold scanString
      rw [hpeek]
      exact scanLoop_written escapes_string hquote hp .stringLit
    · rintro v rfl harg hquote p hp
      rw [Piece.render, harg] at htext
      have hname : text = written escapeNameByte backquote v := by
        cases htext
        rw [written, nil_append, singleton_append, cons_append]
      subst hname
      exact scanLoop_written escapes_ident hquote hp .quotedIdentifier

def plainFormat : FormatLib := ⟨Empty, nofun, nofun, fun _ => [], fun _ => []⟩

def valueTemplate : Bytes := [0x25, 0x3F, 0x3B]

theorem escapeSQL_read_back_quote : ReadAs (scanString utf8MbLen false) .stringLit [quote]
    [quote, backslash, quote, quote, 0x3B] 0 4 := by
  have hout : @escapeSQL plainFormat valueTemplate [.str [quote]] = .ok [quote, backslash, quote, quote, 0x3B] := by rfl
  have hpieces : pieces valueTemplate = [] ++ .value :: [.text 0x3B] := by rfl
  obtain ⟨before, text, after, hbefore, htext, hafter, -, hvalue, -⟩ := escapeSQL_read_back hout hpieces
  cases hbefore
  cases htext
  cases hafter
  exact hvalue (.str [quote]) [] [quote] rfl rfl rfl (by decide)

/-- "%?%?": the first placeholder is not followed by a quote, but the quotes of the two strings are read as one. -/
theorem escapeSQL_adjacent : pieces [0x25, 0x3F, 0x25, 0x3F] = [.value, .value] ∧
      ∃ out, @escapeSQL plainFormat [0x25, 0x3F, 0x25, 0x3F] [.str [0x61], .str [0x62]] = .ok out ∧
        (scanString utf8MbLen false (readerAt out ⟨1, 1, 0⟩)).map (·.lit) = some [0x61, quote, 0x62] ∧
        (scanString utf8MbLen false (readerAt out ⟨1, 1, 0⟩)).map (·.r.rest) = some [] :=
  ⟨by decide, _, rfl, by decide +kernel, by decide +kernel⟩

end Sqlexec
