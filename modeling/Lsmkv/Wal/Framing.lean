import Lsmkv.Wal.Moves

/-!
# Framing a record in a buffer that others share

What `Record.encode` leaves in the buffer, stated on the bytes: behind the old content stand the
header of a payload and the payload, and the payload decodes to the record that was asked for; or
the buffer is as it was, and then the append that asked for it took no sequence number.  In the
other direction a payload that decodes is the one pushed for the record it decodes to
(`encode_framing`).
-/

namespace Lsmkv.Record

/-- The checksum and the length in front of a payload. -/
def headerOf (body : Bytes) : Bytes :=
  toLeBytes 4 (crc32Parts (toLeBytes 4 body.length) body) ++ toLeBytes 4 body.length

theorem frame_eq (e : Entry) : frame e = headerOf (payload e) ++ payload e := by
  rw [frame, checked, headerOf, crc32Parts_eq, List.append_assoc]

/-- What a record can fail on: its key, its value, or the two together. -/
def TooLarge (e : Entry) : Prop :=
  u32Limit ≤ e.key.length ∨ (∃ v, e.value = some v ∧ u32Limit ≤ v.length)
    ∨ u32Limit ≤ (payload e).length

theorem tooLarge_iff (e : Entry) : TooLarge e ↔ ¬(payload e).length < u32Limit := by
  have hlen := length_payload e
  constructor
  · rintro (hkey | ⟨v, hv, hlong⟩ | hpayload)
    · omega
    · rw [hv, Option.elim_some] at hlen
      omega
    · omega
  · exact fun h => .inr (.inr (not_lt.mp h))

/-- An append whose record is too large gives up before it takes a number. -/
theorem step_encode_error {s s' : Wal.Shared} {t : Wal.Thread} {key : Bytes} {value : Option Bytes}
    {err : Error} (hpc : s.thread t = .accepted key value)
    (herr : (encode s.buf (s.lastSeq + 1) key value).1 = .error err)
    (h : s.step (t, .encode) = some s') : s' = s.fail t := by
  have hmoves := Wal.Shared.moves_of_step h
  cases hmoves with
  | tooLarge => rfl
  | @encode e hpc' hlock hseq hfits =>
    rw [hpc] at hpc'
    obtain ⟨rfl, rfl⟩ := Wal.Pc.accepted.inj hpc'
    rw [← hseq, encode_of_fits s.buf hfits.2] at herr
    cases herr
  | @buffer e hpc' hlock hseq hfits hpolicy hsmall =>
    rw [hpc] at hpc'
    obtain ⟨rfl, rfl⟩ := Wal.Pc.accepted.inj hpc'
    rw [← hseq, encode_of_fits s.buf hfits.2] at herr
    cases herr

/-- What is pushed for a record that came out of a payload is that payload. -/
theorem encode_of_decode {body : Bytes} {e : Entry} (h : decode body = some e) (buf : Bytes) :
    (encodeAt buf buf.length e.seq e.key e.value).2.drop (buf.length + headerLen) = body
      ∧ encode buf e.seq e.key e.value = if body.length < u32Limit
          then (.ok (), buf ++ (headerOf body ++ body))
          else (.error (.tooLarge body.length), buf) := by
  obtain ⟨rfl, -, hkey, hvalue⟩ := decode_eq_some h
  rw [encode, encodeAt_eq buf e hkey hvalue, sealHeader_eq]
  split_ifs with hfits
  · refine ⟨?_, by rw [headerOf, crc32Parts_eq, List.append_assoc]⟩
    rw [← List.append_assoc, ← List.append_assoc]
    exact List.drop_left' (by simp [headerLen])
  · exact ⟨List.drop_left' (by simp), by simp⟩

/-- **The framing of a record is exact.**  An `encode` that succeeds leaves the old content, the
header of a payload and the payload, which decodes to the record; one that fails leaves the
buffer as it was, and it fails exactly on a key, a value or a payload that is too long.  An append
whose `encode` fails leaves the whole log as it was, and every other thread where it was.  A
payload that decodes is the one that is pushed for the record it decodes to. -/
theorem encode_framing :
    (∀ (buf : Bytes) (seq : ℕ) (key : Bytes) (value : Option Bytes), seq < u64Limit →
      ((∃ body, encode buf seq key value = (.ok (), buf ++ (headerOf body ++ body))
          ∧ body.length < u32Limit ∧ decode body = some ⟨key, seq, value⟩)
        ∨ ∃ err, encode buf seq key value = (.error err, buf))
      ∧ ((∃ err, (encode buf seq key value).1 = .error err) ↔ TooLarge ⟨key, seq, value⟩))
    ∧ (∀ (s s' : Wal.Shared) (t : Wal.Thread) (key : Bytes) (value : Option Bytes) (err : Error),
      s.thread t = .accepted key value →
      (encode s.buf (s.lastSeq + 1) key value).1 = .error err → s.step (t, .encode) = some s' →
      s'.toLog = s.toLog ∧ s'.thread t = .idle ∧ ∀ u, u ≠ t → s'.thread u = s.thread u)
    ∧ ∀ (body : Bytes) (e : Entry), decode body = some e → ∀ buf : Bytes,
      (encodeAt buf buf.length e.seq e.key e.value).2.drop (buf.length + headerLen) = body
        ∧ encode buf e.seq e.key e.value = if body.length < u32Limit
            then (.ok (), buf ++ (headerOf body ++ body))
            else (.error (.tooLarge body.length), buf) := by
  refine ⟨fun buf seq key value hseq => ?_, fun s s' t key value err hpc herr h => ?_,
    fun body e h => encode_of_decode h⟩
  · rw [tooLarge_iff]
    by_cases hfits : (payload ⟨key, seq, value⟩).length < u32Limit
    · have hencode := encode_of_fits buf hfits
      rw [frame_eq] at hencode
      refine ⟨.inl ⟨_, hencode, hfits, decode_payload ⟨hseq, hfits⟩⟩, ?_⟩
      simp [hencode, hfits]
    · obtain ⟨len, hencode⟩ := encode_of_not_fits buf hfits
      refine ⟨.inr ⟨_, hencode⟩, ?_⟩
      simp [hencode, hfits]
  · obtain rfl := step_encode_error hpc herr h
    refine ⟨rfl, Function.update_self .., fun u hu => Function.update_of_ne hu ..⟩

end Lsmkv.Record
