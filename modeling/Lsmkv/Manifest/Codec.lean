import Lsmkv.Checksum
import Lsmkv.Lib.Codec
import Lsmkv.Manifest

/-!
# The bytes of the manifest (`Snapshot::encode`, `Snapshot::decode`)

A manifest is a header, a counted list of files and a checksum over both.  `Snapshot.manifest s` is
the file of a snapshot.  `encode` gives it if the count, the levels and the keys fit their fields
(`encode_eq_ok_iff`), and `decode` accepts it and nothing else (`decode_eq_some_iff`): the readers
of its parts are exact, and so is the whole.  Hence the format is exact in both directions
(`encode_decode`), and the rest of the development may take the manifest to hold the snapshot.
-/

namespace Lsmkv

/-- `u32::try_from`, with the error the formats turn a failure into. -/
def toU32 (n : ℕ) : Except Error ℕ := if n < u32Limit then .ok n else .error (.tooLarge n)

namespace Snapshot

/-- `MAGIC`, the bytes of `LSMKVMAN`. -/
def magic : Bytes := [0x4C, 0x53, 0x4D, 0x4B, 0x56, 0x4D, 0x41, 0x4E]

def formatVersion : ℕ := 1

/-- One turn of the loop of `encode`. -/
def pushFile (buf : Bytes) (file : FileMeta) : Except Error Bytes := do
  let level ← toU32 file.level
  let buf := buf ++ toLeBytes 8 file.number ++ toLeBytes 4 level ++ toLeBytes 8 file.bytes
    ++ toLeBytes 8 file.entries
  let buf ← pushField buf file.minKey
  pushField buf file.maxKey

/-- `Snapshot::encode`. -/
def encode (snapshot : Snapshot) : Except Error Bytes := do
  let buf := magic ++ toLeBytes 4 formatVersion ++ toLeBytes 8 snapshot.lastSeq
    ++ toLeBytes 8 snapshot.nextNumber
  let count ← toU32 snapshot.files.length
  let buf ← snapshot.files.foldlM pushFile (buf ++ toLeBytes 4 count)
  let checksum := crc32 buf
  .ok (buf ++ toLeBytes 4 checksum)

/-- One turn of the loop of `decode`. -/
def takeFile (cursor : Bytes) : Option (FileMeta × Bytes) := do
  let (number, cursor) ← takeU64 cursor
  let (level, cursor) ← takeU32 cursor
  let (bytes, cursor) ← takeU64 cursor
  let (entries, cursor) ← takeU64 cursor
  let (minKey, cursor) ← takeField cursor
  let (maxKey, cursor) ← takeField cursor
  some (⟨number, level, minKey, maxKey, bytes, entries⟩, cursor)

/-- The part of `decode` behind the check of the checksum. -/
def decodeBody (body : Bytes) : Option Snapshot := do
  let (head, cursor) ← take body magic.length
  if head ≠ magic then none
  else
    let (version, cursor) ← takeU32 cursor
    if version ≠ formatVersion then none
    else
      let (lastSeq, cursor) ← takeU64 cursor
      let (nextNumber, cursor) ← takeU64 cursor
      let (count, cursor) ← takeU32 cursor
      let (files, cursor) ← readTimes takeFile count cursor
      if cursor.isEmpty then some ⟨files, lastSeq, nextNumber⟩ else none

/-- `Snapshot::decode`. -/
def decode (bytes : Bytes) : Option Snapshot :=
  if bytes.length < 4 then none
  else
    let split := bytes.length - 4
    let (body, checksum) := bytes.splitAt split
    if crc32 body ≠ ofLeBytes checksum then none else decodeBody body

/-! ### The file of a snapshot -/

/-- A file as it stands in the manifest. -/
def fileBytes (file : FileMeta) : Bytes :=
  toLeBytes 8 file.number ++ toLeBytes 4 file.level ++ toLeBytes 8 file.bytes
    ++ toLeBytes 8 file.entries ++ (toLeBytes 4 file.minKey.length ++ file.minKey)
    ++ (toLeBytes 4 file.maxKey.length ++ file.maxKey)

/-- What stands in front of the files. -/
def header (snapshot : Snapshot) : Bytes :=
  magic ++ toLeBytes 4 formatVersion ++ toLeBytes 8 snapshot.lastSeq
    ++ toLeBytes 8 snapshot.nextNumber ++ toLeBytes 4 snapshot.files.length

/-- A manifest without its checksum. -/
def body (snapshot : Snapshot) : Bytes := snapshot.header ++ snapshot.files.flatMap fileBytes

/-- The manifest of a snapshot. -/
def manifest (snapshot : Snapshot) : Bytes := snapshot.body ++ toLeBytes 4 (crc32 snapshot.body)

/-- The level and the keys of a file fit their fields. -/
def FileEncodable (file : FileMeta) : Prop :=
  file.level < u32Limit ∧ file.minKey.length < u32Limit ∧ file.maxKey.length < u32Limit

/-- The integers of a file that the source holds as `u64`. -/
def FileInRange (file : FileMeta) : Prop :=
  file.number < u64Limit ∧ file.bytes < u64Limit ∧ file.entries < u64Limit

/-- The count, the levels and the keys fit their fields. -/
def Encodable (snapshot : Snapshot) : Prop :=
  snapshot.files.length < u32Limit ∧ ∀ file ∈ snapshot.files, FileEncodable file

/-- The integers that the source holds as `u64` are below `2 ^ 64`. -/
def InRange (snapshot : Snapshot) : Prop :=
  snapshot.lastSeq < u64Limit ∧ snapshot.nextNumber < u64Limit
    ∧ ∀ file ∈ snapshot.files, FileInRange file

/-! ### `encode` -/

theorem toU32_eq_ok {n m : ℕ} : toU32 n = .ok m ↔ m = n ∧ n < u32Limit := by
  unfold toU32
  split_ifs with h
  · simp [h, eq_comm]
  · simp [h]

theorem pushField_eq_ok {buf field b : Bytes} :
    pushField buf field = .ok b
      ↔ b = buf ++ (toLeBytes 4 field.length ++ field) ∧ field.length < u32Limit := by
  unfold pushField lengthOf
  split_ifs with h
  · rw [ok_bind, Except.ok.injEq, List.append_assoc]
    simp [h, eq_comm]
  · constructor
    · intro hb
      cases hb
    · exact fun hb => absurd hb.2 h

theorem pushFile_eq_ok {buf b : Bytes} {file : FileMeta} :
    pushFile buf file = .ok b ↔ b = buf ++ fileBytes file ∧ FileEncodable file := by
  unfold pushFile
  simp only [bind_eq_ok_iff, toU32_eq_ok, pushField_eq_ok]
  constructor
  · rintro ⟨level, ⟨rfl, hlevel⟩, c, ⟨rfl, hmin⟩, rfl, hmax⟩
    exact ⟨by simp [fileBytes], hlevel, hmin, hmax⟩
  · rintro ⟨rfl, hlevel, hmin, hmax⟩
    exact ⟨_, ⟨rfl, hlevel⟩, _, ⟨rfl, hmin⟩, by simp [fileBytes], hmax⟩

theorem foldlM_pushFile_eq_ok {files : List FileMeta} {buf b : Bytes} :
    files.foldlM pushFile buf = .ok b
      ↔ b = buf ++ files.flatMap fileBytes ∧ ∀ file ∈ files, FileEncodable file := by
  induction files generalizing buf with
  | nil =>
    rw [List.foldlM_nil]
    constructor
    · intro h
      cases h
      simp
    · rintro ⟨rfl, -⟩
      simp [pure, Except.pure]
  | cons file files ih =>
    rw [List.foldlM_cons, bind_eq_ok_iff]
    simp only [pushFile_eq_ok, ih]
    constructor
    · rintro ⟨c, ⟨rfl, hfile⟩, rfl, hall⟩
      exact ⟨by simp, List.forall_mem_cons.mpr ⟨hfile, hall⟩⟩
    · rintro ⟨rfl, hall⟩
      obtain ⟨hfile, hall⟩ := List.forall_mem_cons.mp hall
      exact ⟨_, ⟨rfl, hfile⟩, by simp, hall⟩

/-- **`encode` gives the manifest** if the count, the levels and the keys fit, and an error
otherwise. -/
theorem encode_eq_ok_iff {snapshot : Snapshot} {b : Bytes} :
    snapshot.encode = .ok b ↔ b = snapshot.manifest ∧ snapshot.Encodable := by
  unfold encode
  simp only [bind_eq_ok_iff, toU32_eq_ok, foldlM_pushFile_eq_ok, Except.ok.injEq]
  constructor
  · rintro ⟨count, ⟨rfl, hcount⟩, c, ⟨rfl, hall⟩, rfl⟩
    exact ⟨rfl, hcount, hall⟩
  · rintro ⟨rfl, hcount, hall⟩
    exact ⟨_, ⟨rfl, hcount⟩, _, ⟨rfl, hall⟩, rfl⟩

/-! ### `decode` -/

theorem exact_takeU32 : Exact takeU32 (toLeBytes 4) (· < u32Limit) := by
  intro cursor n rest
  constructor
  · exact takeU32_eq_some
  · rintro ⟨rfl, h⟩
    exact takeU32_append rest h

theorem exact_takeU64 : Exact takeU64 (toLeBytes 8) (· < u64Limit) := by
  intro cursor n rest
  constructor
  · exact takeU64_eq_some
  · rintro ⟨rfl, h⟩
    exact takeU64_append rest h

theorem exact_takeField :
    Exact takeField (fun field => toLeBytes 4 field.length ++ field) (·.length < u32Limit) := by
  intro cursor field rest
  constructor
  · exact takeField_eq_some
  · rintro ⟨rfl, h⟩
    exact takeField_append rest h

/-- The reader of a file is exact. -/
theorem exact_takeFile :
    Exact takeFile fileBytes fun file => FileEncodable file ∧ FileInRange file := by
  intro cursor file rest
  simp only [takeFile, Option.bind_eq_bind, exact_takeU64.bind_eq_some, exact_takeU32.bind_eq_some,
    exact_takeField.bind_eq_some, Option.some.injEq, Prod.mk.injEq]
  constructor
  · rintro ⟨number, c₁, rfl, hnumber, level, c₂, rfl, hlevel, bytes, c₃, rfl, hbytes,
      entries, c₄, rfl, hentries, minKey, c₅, rfl, hmin, maxKey, c₆, rfl, hmax, rfl, rfl⟩
    exact ⟨by simp [fileBytes], ⟨hlevel, hmin, hmax⟩, hnumber, hbytes, hentries⟩
  · rintro ⟨rfl, ⟨hlevel, hmin, hmax⟩, hnumber, hbytes, hentries⟩
    refine ⟨_, _, ?_, hnumber, _, _, rfl, hlevel, _, _, rfl, hbytes, _, _, rfl, hentries, _, _, rfl,
      hmin, _, _, rfl, hmax, rfl, rfl⟩
    simp [fileBytes]

/-- The part behind the checksum accepts the body of a snapshot and nothing else. -/
theorem decodeBody_eq_some_iff {bytes : Bytes} {snapshot : Snapshot} :
    decodeBody bytes = some snapshot
      ↔ bytes = snapshot.body ∧ snapshot.Encodable ∧ snapshot.InRange := by
  constructor
  · intro h
    unfold decodeBody at h
    rw [Option.bind_eq_bind, Option.bind_eq_some_iff, Prod.exists] at h
    obtain ⟨head, c₀, hhead, h⟩ := h
    obtain ⟨rfl, -⟩ := take_eq_some hhead
    dsimp only at h
    split_ifs at h with hmagic
    rw [not_not] at hmagic
    subst hmagic
    rw [Option.bind_eq_bind, exact_takeU32.bind_eq_some] at h
    obtain ⟨version, c₁, rfl, -, h⟩ := h
    dsimp only at h
    split_ifs at h with hversion
    rw [not_not] at hversion
    subst hversion
    simp only [Option.bind_eq_bind, exact_takeU64.bind_eq_some, exact_takeU32.bind_eq_some] at h
    obtain ⟨lastSeq, c₂, rfl, hlast, nextNumber, c₃, rfl, hnext, count, c₄, rfl, hcount, h⟩ := h
    rw [Option.bind_eq_some_iff, Prod.exists] at h
    obtain ⟨files, c₅, hfiles, h⟩ := h
    obtain ⟨rfl, rfl, hall⟩ := exact_takeFile.readTimes_eq_some.mp hfiles
    dsimp only at h
    split_ifs at h with hend
    obtain rfl := Option.some.inj h
    obtain rfl := List.isEmpty_iff.mp hend
    refine ⟨by simp [body, header], ⟨hcount, fun file hfile => (hall file hfile).1⟩, hlast, hnext,
      fun file hfile => (hall file hfile).2⟩
  · rintro ⟨rfl, ⟨hcount, hencodable⟩, hlast, hnext, hrange⟩
    have hfiles : readTimes takeFile snapshot.files.length (snapshot.files.flatMap fileBytes)
        = some (snapshot.files, []) :=
      exact_takeFile.readTimes_eq_some.mpr ⟨rfl, (List.append_nil _).symm,
        fun file hfile => ⟨hencodable file hfile, hrange file hfile⟩⟩
    have hversion := exact_takeU32.read_append (show formatVersion < u32Limit by decide)
    simp only [decodeBody, body, header, List.append_assoc, take_append (rfl : magic.length = _),
      Option.bind_eq_bind, Option.bind_some, hversion, exact_takeU64.read_append hlast,
      exact_takeU64.read_append hnext, exact_takeU32.read_append hcount, hfiles, ne_eq,
      not_true_eq_false, if_false, List.isEmpty_nil, if_true]

/-- **`decode` accepts the manifest of a snapshot and nothing else.** -/
theorem decode_eq_some_iff {b : Bytes} {snapshot : Snapshot} :
    decode b = some snapshot ↔ b = snapshot.manifest ∧ snapshot.Encodable ∧ snapshot.InRange := by
  unfold decode
  constructor
  · intro h
    split_ifs at h with hshort
    simp only [List.splitAt_eq] at h
    split_ifs at h with hcrc
    rw [not_not] at hcrc
    obtain ⟨hbody, hfits⟩ := decodeBody_eq_some_iff.mp h
    refine ⟨?_, hfits⟩
    -- the checksum stands as it is read
    have hlen : (b.drop (b.length - 4)).length = 4 := by
      rw [List.length_drop]
      omega
    have hback := toLeBytes_ofLeBytes (b.drop (b.length - 4))
    rw [hlen, ← hcrc, hbody] at hback
    rw [manifest, hback, ← hbody, List.take_append_drop]
  · rintro ⟨rfl, hfits⟩
    have hlen : snapshot.manifest.length - 4 = snapshot.body.length := by
      rw [manifest, List.length_append, length_toLeBytes, Nat.add_sub_cancel]
    have hcrc : ofLeBytes (toLeBytes 4 (crc32 snapshot.body)) = crc32 snapshot.body :=
      ofLeBytes_toLeBytes (lt_of_lt_of_le (crc32_lt _) (by norm_num [u32Limit]))
    rw [if_neg (by rw [manifest, List.length_append, length_toLeBytes]; omega)]
    simp only [List.splitAt_eq]
    rw [hlen, manifest, List.take_left' rfl, List.drop_left' rfl, hcrc, if_neg (not_not.mpr rfl),
      decodeBody_eq_some_iff.mpr ⟨rfl, hfits⟩]

/-- **The manifest format is exact**: a snapshot that is encoded is decoded to itself, and bytes
that are decoded are what the snapshot they give is encoded to. -/
theorem encode_decode :
    (∀ (snapshot : Snapshot) (b : Bytes), snapshot.InRange → snapshot.encode = .ok b →
        decode b = some snapshot)
      ∧ ∀ (b : Bytes) (snapshot : Snapshot), decode b = some snapshot →
        snapshot.InRange ∧ snapshot.encode = .ok b := by
  constructor
  · intro snapshot b hrange hencode
    obtain ⟨rfl, hencodable⟩ := encode_eq_ok_iff.mp hencode
    exact decode_eq_some_iff.mpr ⟨rfl, hencodable, hrange⟩
  · intro b snapshot hdecode
    obtain ⟨rfl, hencodable, hrange⟩ := decode_eq_some_iff.mp hdecode
    exact ⟨hrange, encode_eq_ok_iff.mpr ⟨rfl, hencodable⟩⟩

end Snapshot

end Lsmkv
