import Tidb.Codec.Bytes

/-!
# Keys with row IDs

`br/pkg/lightning/backend/local/key_adapter.go`: a key is written with the ID of its row behind it.  To read it,
`DecodeBytes` appends to the spare capacity of the destination, and the lengths tell whether the key has stayed there.
-/

namespace Br.DupDetectKeyAdapter

open Tidb Tidb.Codec GoLang ByteNum List Outcome

def encode (dst key : Bytes) (rowID : Int64) : Bytes :=
  let dst := encodeBytes dst key
  dst ++ putUint64BE (encodeIntToCmpUint rowID)

def encodedLen (key : Bytes) : ℕ := encodedBytesLength key.length + 8

/-- The array goes up to the capacity. -/
structure Slice where
  array : Bytes
  len : ℕ
  len_le : len ≤ array.length

def Slice.bytes (s : Slice) : Bytes := s.array.take s.len

/-- What is appended from `start` on: in the array of the destination, until it is moved to a larger one. -/
structure Buffer where
  array : Bytes
  start : ℕ
  data : Bytes
  moved : Bool

def Buffer.append (buf : Buffer) (x : Bytes) : Buffer :=
  let pos := buf.start + buf.data.length
  if buf.moved = false ∧ pos + x.length ≤ buf.array.length then
    { buf with array := buf.array.take pos ++ x ++ buf.array.drop (pos + x.length), data := buf.data ++ x }
  else { buf with data := buf.data ++ x, moved := true }

def decodeGroupsInto : ℕ → Bytes → Buffer → Res (Bytes × Buffer)
  | 0, _, _ => .error errInsufficient
  | n + 1, b, buf =>
    if b.length < encGroupSize + 1 then .error errInsufficient
    else do
      let groupBytes ← sliceTo b (encGroupSize + 1)
      let group ← sliceTo groupBytes encGroupSize
      let marker ← index groupBytes encGroupSize
      let padCount := encMarker - marker
      if encGroupSize < padCount.toNat then
        .error (.errorf "invalid marker byte, group bytes %q" [.bytes groupBytes])
      else do
        let realGroupSize := encGroupSize - padCount.toNat
        let real ← sliceTo group realGroupSize
        let buf := buf.append real
        let b ← sliceFrom b (encGroupSize + 1)
        if padCount ≠ 0 then do
          let padding ← sliceFrom group realGroupSize
          if padding.all (· == encPad) then return (b, buf)
          else .error (.errorf "invalid padding byte, group bytes %q" [.bytes groupBytes])
        else decodeGroupsInto n b buf

/-- `Decode`, and the array of the destination behind it. -/
def decode (dst : Slice) (data : Bytes) : Res (Bytes × Bytes) :=
  if data.length < 8 then .error errInsufficient
  else do
    let data ← sliceTo data (data.length - 8)
    let (_, buf) ← decodeGroupsInto (data.length / (encGroupSize + 1) + 1) data ⟨dst.array, dst.len, [], false⟩
    let key := buf.data
    if dst.len = 0 then return (key, buf.array)
    else if dst.len + key.length ≤ dst.array.length then return (buf.array.take (dst.len + key.length), buf.array)
    -- New slice is allocated, append key to dst manually.
    else return (buf.array.take dst.len ++ key, buf.array)

/-- The destination has kept its bytes, and has the data behind them if there is room. -/
structure Buffer.Follows (buf : Buffer) (dst : Slice) : Prop where
  start : buf.start = dst.len
  cap : buf.array.length = dst.array.length
  kept : buf.array.take dst.len = dst.bytes
  moved : buf.moved = true → dst.array.length < dst.len + buf.data.length
  inPlace : dst.len + buf.data.length ≤ dst.array.length →
    buf.array.take (dst.len + buf.data.length) = dst.bytes ++ buf.data

variable {dst : Slice} {buf : Buffer}

theorem Buffer.Follows.append (h : buf.Follows dst) (x : Bytes) : (buf.append x).Follows dst := by
  have hstart := h.start
  have hcap := h.cap
  by_cases hfits : buf.moved = false ∧ dst.len + buf.data.length + x.length ≤ dst.array.length
  · have hin := h.inPlace (by omega)
    rw [Buffer.append, if_pos (by rwa [hstart, hcap]), hstart, hin]
    have hbytes : dst.bytes.length = dst.len := by rw [Slice.bytes, length_take]; omega
    refine ⟨rfl, ?_, ?_, fun hm => absurd hm (by simp [hfits.1]), fun _ => ?_⟩
    · simp only [length_append, length_drop, hbytes, hcap]
      omega
    · rw [append_assoc, append_assoc, take_left' hbytes]
    · dsimp only
      rw [take_left' (by simp only [length_append, hbytes]; omega), append_assoc]
  · have hover : dst.array.length < dst.len + (buf.data ++ x).length := by
      rw [length_append]
      cases hm : buf.moved with
      | true => have := h.moved hm; omega
      | false => exact Nat.lt_of_not_le fun hle => hfits ⟨hm, by omega⟩
    rw [Buffer.append, if_neg (by rwa [hstart, hcap])]
    exact ⟨hstart, hcap, h.kept, fun _ => hover, fun hle => absurd hle (by dsimp only; omega)⟩

theorem exists_decodeGroupsInto {n : ℕ} {b r d : Bytes} (hbuf : buf.Follows dst)
    (h : decodeGroups false n b buf.data = .ok (r, d)) :
    ∃ buf' : Buffer, decodeGroupsInto n b buf = .ok (r, buf') ∧ buf'.Follows dst ∧ buf'.data = d := by
  induction n generalizing b buf with
  | zero => cases h
  | succ n ih =>
    have hdata : ∀ x, buf.data ++ x = (buf.append x).data := by
      intro x
      rw [Buffer.append]
      split <;> rfl
    rw [decodeGroups] at h
    rw [decodeGroupsInto]
    split at h
    · cases h
    rename_i hlen
    rw [if_neg hlen]
    simp only [bind_eq_ok] at h
    obtain ⟨groupBytes, hgroupBytes, group, hgroup, marker, hmarker, h⟩ := h
    simp only [hgroupBytes, hgroup, hmarker, ok_bind]
    simp only [Bool.false_eq_true, if_false] at h
    split at h
    · cases h
    rename_i hcount
    rw [if_neg hcount]
    simp only [bind_eq_ok] at h
    obtain ⟨real, hreal, rest, hrest, h⟩ := h
    simp only [hreal, hrest, ok_bind]
    rw [hdata] at h
    split at h
    · rename_i hpad
      rw [if_pos hpad]
      simp only [bind_eq_ok] at h
      obtain ⟨padding, hpadding, h⟩ := h
      simp only [hpadding, ok_bind]
      split at h
      · cases h
        rename_i hall
        exact ⟨_, by rw [if_pos hall]; rfl, hbuf.append real, rfl⟩
      · cases h
    · rename_i hpad
      rw [if_neg hpad]
      exact ih (hbuf.append real) h

theorem encode_append (dst key : Bytes) (rowID : Int64) :
    encode dst key rowID = dst ++ (encodeBytes [] key ++ encodeInt [] rowID) := by
  rw [encode, encodeBytes_append, append_assoc]
  rfl

theorem decode_encode (dst : Slice) (key : Bytes) (rowID : Int64) : ∃ array,
    decode dst (encode [] key rowID) = .ok (dst.bytes ++ key, array) ∧ array.take dst.len = dst.bytes := by
  have hkey := decodeFrom_encodeBytes key [] []
  rw [append_nil, nil_append] at hkey
  have hstart : Buffer.Follows ⟨dst.array, dst.len, [], false⟩ dst :=
    ⟨rfl, rfl, rfl, fun h => (by cases h), fun _ => (append_nil _).symm⟩
  obtain ⟨buf, hdecode, hbuf, hdata⟩ := exists_decodeGroupsInto hstart hkey
  have hlen : (encodeBytes [] key ++ encodeInt [] rowID).length - 8 = (encodeBytes [] key).length := by
    rw [length_append, length_encodeInt, length_nil]
    omega
  refine ⟨buf.array, ?_, hbuf.kept⟩
  rw [encode_append, nil_append, decode, if_neg (by rw [length_append, length_encodeInt]; omega), hlen, sliceTo_append,
    ok_bind, hdecode, ok_bind]
  dsimp only
  rw [hdata]
  split
  · rename_i hzero
    rw [Slice.bytes, hzero]
    rfl
  · split
    · rename_i hroom
      rw [← hdata, hbuf.inPlace (hdata ▸ hroom)]
      rfl
    · rw [hbuf.kept]
      rfl

/-- The encodings are ordered as keys with row IDs are, and decoding appends the key. -/
theorem dupDetectKeyAdapter_spec (b key key' : Bytes) (rowID rowID' : Int64) (dst : Slice) :
    compare (encode b key rowID) (encode b key' rowID') =
      (compare key key').then (compare rowID.toInt rowID'.toInt) ∧
    (encode b key rowID).length = b.length + encodedLen key ∧ ∃ array,
    decode dst (encode [] key rowID) = .ok (dst.bytes ++ key, array) ∧ array.take dst.len = dst.bytes := by
  refine ⟨?_, ?_, decode_encode dst key rowID⟩
  · rw [encode_append, encode_append, compare_append rfl, Std.compare_self, Ordering.eq_then,
      orderedCode_encodeBytes key key' trivial trivial, orderedCode_encodeInt.compare_eq trivial trivial]
  · rw [encode_append, length_append, length_append, length_encodeBytes, length_encodeInt]
    rfl

end Br.DupDetectKeyAdapter
