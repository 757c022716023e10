import Lsmkv.Checksum
import Lsmkv.Lookup

/-!
# One log record (`wal/record.rs`)

`encode` appends a record to a buffer that may already hold others: it reserves the header, pushes
the payload and patches the length and the checksum in afterwards, and on failure truncates the
buffer to what it was.  What that amounts to is the buffer followed by `frame e` when the payload
fits its length field (`encode_of_fits`), and the buffer as it was when it does not
(`encode_of_not_fits`).

`decode` is exact in both directions: it reads back `payload e` (`decode_payload`), and accepts
nothing else (`decode_eq_some`).
-/

namespace Lsmkv.Record

/-- Bytes preceding the payload: the checksum and the payload length. -/
def headerLen : ℕ := 8

def kindSet : UInt8 := 0

def kindDelete : UInt8 := 1

/-- `buf[offset..offset + bytes.len()].copy_from_slice(bytes)`. -/
def patch (buf : Bytes) (offset : ℕ) (bytes : Bytes) : Bytes :=
  buf.take offset ++ bytes ++ buf.drop (offset + bytes.length)

/-- The end of `encode_at`: the length and the checksum, patched into the reserved header. -/
def sealHeader (buf : Bytes) (start : ℕ) : Except Error Unit × Bytes :=
  match lengthOf (buf.drop (start + headerLen)) with
  | .error err => (.error err, buf)
  | .ok payloadLen =>
    let buf := patch buf (start + 4) (toLeBytes 4 payloadLen)
    let crc := crc32 (buf.drop (start + 4))
    (.ok (), patch buf start (toLeBytes 4 crc))

/-- `encode_at`: the result, and the buffer as it is left. -/
def encodeAt (buf : Bytes) (start seq : ℕ) (key : Bytes) (value : Option Bytes) :
    Except Error Unit × Bytes :=
  match lengthOf key with
  | .error err => (.error err, buf)
  | .ok keyLen =>
    let buf := buf ++ List.replicate headerLen 0 ++ toLeBytes 8 seq
    match value with
    | some value =>
      match lengthOf value with
      | .error err => (.error err, buf)
      | .ok valueLen =>
        sealHeader (buf ++ [kindSet] ++ toLeBytes 4 keyLen ++ key ++ toLeBytes 4 valueLen ++ value)
          start
    | none => sealHeader (buf ++ [kindDelete] ++ toLeBytes 4 keyLen ++ key) start

/-- Appends one record to `buf`, after whatever it already holds. -/
def encode (buf : Bytes) (seq : ℕ) (key : Bytes) (value : Option Bytes) :
    Except Error Unit × Bytes :=
  match encodeAt buf buf.length seq key value with
  | (.error err, left) => (.error err, left.take buf.length)
  | (.ok (), left) => (.ok (), left)

/-- Decodes a payload whose checksum already matched. -/
def decode (payload : Bytes) : Option Entry := do
  let (seq, cursor) ← takeU64 payload
  let (kind, cursor) ← takeU8 cursor
  let (key, cursor) ← takeField cursor
  if kind = kindSet then
    let (value, cursor) ← takeField cursor
    if cursor.isEmpty then some ⟨key, seq, some value⟩ else none
  else if kind = kindDelete then
    if cursor.isEmpty then some ⟨key, seq, none⟩ else none
  else none

/-! ### What a record looks like -/

/-- The payload of a record. -/
def payload (e : Entry) : Bytes :=
  match e.value with
  | some value =>
    toLeBytes 8 e.seq ++ [kindSet] ++ toLeBytes 4 e.key.length ++ e.key
      ++ toLeBytes 4 value.length ++ value
  | none => toLeBytes 8 e.seq ++ [kindDelete] ++ toLeBytes 4 e.key.length ++ e.key

/-- The length field of a record, with its payload. -/
def checked (e : Entry) : Bytes := toLeBytes 4 (payload e).length ++ payload e

/-- A record as it stands in a log. -/
def frame (e : Entry) : Bytes := toLeBytes 4 (crc32 (checked e)) ++ checked e

/-- Whether the number and the lengths of the record fit their fields. -/
def Fits (e : Entry) : Prop := e.seq < u64Limit ∧ (payload e).length < u32Limit

instance (e : Entry) : Decidable (Fits e) := inferInstanceAs (Decidable (_ ∧ _))

theorem length_payload (e : Entry) :
    (payload e).length = 13 + e.key.length + (e.value.elim 0 fun v => 4 + v.length) := by
  unfold payload
  split <;> rename_i h <;> simp [h] <;> omega

theorem length_frame (e : Entry) : (frame e).length = headerLen + (payload e).length := by
  simp only [frame, checked, List.length_append, length_toLeBytes, headerLen]
  omega

theorem frame_ne_nil (e : Entry) : frame e ≠ [] := by
  intro h
  have := length_frame e
  rw [h, headerLen, List.length_nil] at this
  omega

theorem Fits.key_lt {e : Entry} (h : Fits e) : e.key.length < u32Limit := by
  have := h.2
  rw [length_payload] at this
  omega

theorem Fits.value_lt {e : Entry} (h : Fits e) {v : Bytes} (hv : e.value = some v) :
    v.length < u32Limit := by
  have := h.2
  rw [length_payload, hv] at this
  simp only [Option.elim_some] at this
  omega

/-! ### `encode` -/

theorem sealHeader_eq (buf body : Bytes) :
    sealHeader (buf ++ List.replicate headerLen 0 ++ body) buf.length
      = if body.length < u32Limit then
          (.ok (), buf ++ (toLeBytes 4 (crc32 (toLeBytes 4 body.length ++ body))
            ++ (toLeBytes 4 body.length ++ body)))
        else (.error (.tooLarge body.length), buf ++ List.replicate headerLen 0 ++ body) := by
  have hdrop : (buf ++ List.replicate headerLen 0 ++ body).drop (buf.length + headerLen) = body :=
    List.drop_left' (by simp)
  rw [sealHeader, hdrop, lengthOf]
  split_ifs with hlen
  · -- The two halves of the reserved header, patched one after the other.
    have hpatch : patch (buf ++ List.replicate headerLen 0 ++ body) (buf.length + 4)
        (toLeBytes 4 body.length) = buf ++ List.replicate 4 0
          ++ (toLeBytes 4 body.length ++ body) := by
      have htake : (buf ++ List.replicate headerLen 0 ++ body).take (buf.length + 4)
          = buf ++ List.replicate 4 0 := by
        have hsplit : buf ++ List.replicate headerLen 0 ++ body
            = buf ++ List.replicate 4 0 ++ (List.replicate 4 0 ++ body) := by
          rw [show List.replicate headerLen (0 : UInt8) = List.replicate 4 0 ++ List.replicate 4 0
            from rfl]
          simp only [List.append_assoc]
        rw [hsplit, List.take_left' (by simp)]
      have hrest : buf.length + 4 + (toLeBytes 4 body.length).length = buf.length + headerLen := by
        rw [length_toLeBytes, headerLen]
      rw [patch, htake, hrest, hdrop, List.append_assoc (buf ++ _)]
    have hcrc :
        (buf ++ List.replicate 4 0 ++ (toLeBytes 4 body.length ++ body)).drop (buf.length + 4)
        = toLeBytes 4 body.length ++ body := List.drop_left' (by simp)
    have htake : (buf ++ List.replicate 4 0 ++ (toLeBytes 4 body.length ++ body)).take buf.length
        = buf := by
      rw [List.append_assoc, List.take_left' rfl]
    simp only [hpatch, hcrc]
    rw [patch, length_toLeBytes, hcrc, htake, List.append_assoc]
  · rfl

/-- When the key and the value fit their fields, `encode_at` pushes the payload behind the
reserved header and seals it. -/
theorem encodeAt_eq (buf : Bytes) (e : Entry) (hkey : e.key.length < u32Limit)
    (hvalue : ∀ v, e.value = some v → v.length < u32Limit) :
    encodeAt buf buf.length e.seq e.key e.value
      = sealHeader (buf ++ List.replicate headerLen 0 ++ payload e) buf.length := by
  rcases e with ⟨key, seq, value⟩
  cases value with
  | none => simp [encodeAt, lengthOf, payload, show key.length < u32Limit from hkey]
  | some value =>
    simp [encodeAt, lengthOf, payload, show key.length < u32Limit from hkey, hvalue value rfl]

/-- **A record that fits is appended** behind what the buffer held. -/
theorem encode_of_fits (buf : Bytes) {e : Entry} (h : (payload e).length < u32Limit) :
    encode buf e.seq e.key e.value = (.ok (), buf ++ frame e) := by
  have hlen := length_payload e
  have hkey : e.key.length < u32Limit := by omega
  have hvalue : ∀ v, e.value = some v → v.length < u32Limit := by
    intro v hv
    rw [hv, Option.elim_some] at hlen
    omega
  rw [encode, encodeAt_eq buf e hkey hvalue, sealHeader_eq, if_pos h]
  rfl

/-- **A record that does not fit leaves the buffer as it was.** -/
theorem encode_of_not_fits (buf : Bytes) {e : Entry} (h : ¬(payload e).length < u32Limit) :
    ∃ len, encode buf e.seq e.key e.value = (.error (.tooLarge len), buf) := by
  by_cases hkey : e.key.length < u32Limit
  · by_cases hvalue : ∀ v, e.value = some v → v.length < u32Limit
    · refine ⟨(payload e).length, ?_⟩
      rw [encode, encodeAt_eq buf e hkey hvalue, sealHeader_eq, if_neg h]
      simp
    · push Not at hvalue
      obtain ⟨v, hv, hlong⟩ := hvalue
      exact ⟨v.length, by simp [encode, encodeAt, lengthOf, hkey, hv, hlong.not_gt]⟩
  · exact ⟨e.key.length, by simp [encode, encodeAt, lengthOf, hkey]⟩

/-! ### `decode` -/

/-- A payload reads back as the record it was written for. -/
theorem decode_payload {e : Entry} (h : Fits e) : decode (payload e) = some e := by
  have hkey := h.key_lt
  have hval := fun v (hv : _ = some v) => h.value_lt hv
  rcases e with ⟨key, seq, value⟩
  cases value with
  | none =>
    have hfield := takeField_append [] hkey
    simp only [List.append_nil] at hfield
    simp [decode, payload, takeU64_append _ h.1, takeU8, hfield, kindSet, kindDelete]
  | some value =>
    have hfield := takeField_append [] (hval value rfl)
    have hkeyField := takeField_append (toLeBytes 4 value.length ++ value) hkey
    simp only [List.append_nil, List.append_assoc] at hfield hkeyField
    simp [decode, payload, takeU64_append _ h.1, takeU8, hkeyField, hfield]

/-- A payload that decodes is, byte for byte, the one written for the record it decodes to. -/
theorem decode_eq_some {bytes : Bytes} {e : Entry} (h : decode bytes = some e) :
    bytes = payload e ∧ e.seq < u64Limit ∧ e.key.length < u32Limit
      ∧ ∀ v, e.value = some v → v.length < u32Limit := by
  simp only [decode, Option.bind_eq_bind, Option.bind_eq_some_iff, Prod.exists] at h
  obtain ⟨seq, afterSeq, hseq, kind, afterKind, hkind, key, afterKey, hkey, h⟩ := h
  obtain ⟨rfl, hseqLt⟩ := takeU64_eq_some hseq
  obtain rfl := takeU8_eq_some hkind
  obtain ⟨rfl, hkeyLt⟩ := takeField_eq_some hkey
  split_ifs at h with hset hdel
  · rw [Option.bind_eq_some_iff] at h
    obtain ⟨⟨value, afterValue⟩, hvalue, h⟩ := h
    obtain ⟨rfl, hvalueLt⟩ := takeField_eq_some hvalue
    dsimp only at h
    split_ifs at h with hend
    obtain rfl := Option.some.inj h
    rw [List.isEmpty_iff.mp hend, hset]
    refine ⟨by simp [payload], hseqLt, hkeyLt, fun v hv => ?_⟩
    rwa [← Option.some.inj hv]
  · rename_i hend
    obtain rfl := Option.some.inj h
    rw [List.isEmpty_iff.mp hend, hdel]
    refine ⟨by simp [payload], hseqLt, hkeyLt, fun v hv => ?_⟩
    cases hv

end Lsmkv.Record
