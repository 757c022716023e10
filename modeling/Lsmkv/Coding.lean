import Mathlib.Data.List.Lex
import Mathlib.Data.List.TakeDrop
import Mathlib.Tactic.Ring
import Mathlib.Tactic.NormNum

/-!
# Byte strings, errors and the framing primitives (`coding.rs`, `error.rs`)

Keys, values and file contents are byte strings, compared lexicographically.  Every on-disk
format is a sequence of little-endian integers and length-prefixed byte strings; reading walks a
cursor that returns `none` on a truncated input instead of panicking.

A cursor is the list of bytes not yet read, so `take` returns what it took and the rest.
-/

namespace Lsmkv

/-- A `Vec<u8>` or a `&[u8]`. -/
abbrev Bytes := List UInt8

instance instLinearOrderUInt8 : LinearOrder UInt8 where
  le_refl := UInt8.le_refl
  le_trans _ _ _ := UInt8.le_trans
  le_antisymm _ _ := UInt8.le_antisymm
  le_total := UInt8.le_total
  lt_iff_le_not_ge _ _ := by
    rw [UInt8.not_le]
    exact ⟨fun h => ⟨UInt8.le_of_lt h, h⟩, fun h => h.2⟩
  toDecidableLE := inferInstance
  toDecidableLT := inferInstance
  toDecidableEq := inferInstance

section

variable {α : Type*} [LinearOrder α] {a b : α}

/-- `Ord::cmp`. -/
def ordCmp (a b : α) : Ordering := cmp a b

theorem ordCmp_eq_lt : ordCmp a b = .lt ↔ a < b := cmp_eq_lt_iff a b

theorem ordCmp_eq_eq : ordCmp a b = .eq ↔ a = b := cmp_eq_eq_iff a b

theorem ordCmp_eq_gt : ordCmp a b = .gt ↔ b < a := cmp_eq_gt_iff a b

end

/-- A file of the store's directory.  The extension is the constructor, the number is the stem. -/
inductive Path where
  | dir
  | log (number : ℕ)
  | table (number : ℕ)
  | partialTable (number : ℕ)
  | manifest
  | manifestTemp
  deriving DecidableEq, Repr

/-- Everything the engine can fail on. -/
inductive Error where
  | io (path : Path)
  | corrupt (path : Path) (detail : String)
  | tooLarge (len : ℕ)
  deriving DecidableEq, Repr

section

variable {α β : Type} {x : Except Error α} {b : β}

theorem ok_bind (a : α) (f : α → Except Error β) : .ok a >>= f = f a := rfl

theorem bind_eq_ok {f : α → Except Error β} (h : x >>= f = .ok b) :
    ∃ a, x = .ok a ∧ f a = .ok b := by
  cases x with
  | error err => cases h
  | ok a => exact ⟨a, rfl, h⟩

theorem bind_eq_ok_iff {f : α → Except Error β} :
    x >>= f = .ok b ↔ ∃ a, x = .ok a ∧ f a = .ok b := by
  refine ⟨bind_eq_ok, ?_⟩
  rintro ⟨a, rfl, h⟩
  exact h

end

/-- `u32::MAX + 1`, the first length that does not fit its field. -/
def u32Limit : ℕ := 2 ^ 32

/-- `u64::MAX + 1`. -/
def u64Limit : ℕ := 2 ^ 64

/-- Length of `bytes` as the formats store it. -/
def lengthOf (bytes : Bytes) : Except Error ℕ :=
  if bytes.length < u32Limit then .ok bytes.length else .error (.tooLarge bytes.length)

/-- The `width` low-order bytes of `n`, least significant first. -/
def toLeBytes : ℕ → ℕ → Bytes
  | 0, _ => []
  | width + 1, n => UInt8.ofNat n :: toLeBytes width (n / 256)

/-- The integer a little-endian byte string stands for. -/
def ofLeBytes : Bytes → ℕ
  | [] => 0
  | b :: bs => b.toNat + 256 * ofLeBytes bs

/-- Appends `field`, prefixed by its length. -/
def pushField (buf field : Bytes) : Except Error Bytes := do
  let len ← lengthOf field
  .ok (buf ++ toLeBytes 4 len ++ field)

/-- Takes `len` bytes off the front of the cursor. -/
def take (cursor : Bytes) (len : ℕ) : Option (Bytes × Bytes) :=
  if len ≤ cursor.length then some (cursor.splitAt len) else none

def takeU8 (cursor : Bytes) : Option (UInt8 × Bytes) :=
  match cursor with
  | [] => none
  | b :: rest => some (b, rest)

def takeU32 (cursor : Bytes) : Option (ℕ × Bytes) := do
  let (field, rest) ← take cursor 4
  some (ofLeBytes field, rest)

def takeU64 (cursor : Bytes) : Option (ℕ × Bytes) := do
  let (field, rest) ← take cursor 8
  some (ofLeBytes field, rest)

/-- Takes a length-prefixed byte string off the front of the cursor. -/
def takeField (cursor : Bytes) : Option (Bytes × Bytes) := do
  let (len, rest) ← takeU32 cursor
  take rest len

/-- Reads a `u32` at a known offset. -/
def u32At (bytes : Bytes) (offset : ℕ) : ℕ := ofLeBytes ((bytes.drop offset).take 4)

/-- Reads a `u64` at a known offset. -/
def u64At (bytes : Bytes) (offset : ℕ) : ℕ := ofLeBytes ((bytes.drop offset).take 8)

/-! ### Integers -/

@[simp]
theorem length_toLeBytes (width n : ℕ) : (toLeBytes width n).length = width := by
  induction width generalizing n with
  | zero => rfl
  | succ width ih => simp [toLeBytes, ih]

theorem ofLeBytes_lt (bytes : Bytes) : ofLeBytes bytes < 256 ^ bytes.length := by
  induction bytes with
  | nil => simp [ofLeBytes]
  | cons b bs ih =>
    have hb : b.toNat < 256 := b.toNat_lt
    rw [ofLeBytes, List.length_cons, pow_succ]
    omega

/-- Reading back an integer that fits its width gives the integer. -/
theorem ofLeBytes_toLeBytes {width n : ℕ} (h : n < 256 ^ width) :
    ofLeBytes (toLeBytes width n) = n := by
  induction width generalizing n with
  | zero =>
    rw [pow_zero] at h
    rw [toLeBytes, ofLeBytes]
    omega
  | succ width ih =>
    have hdiv : n / 256 < 256 ^ width := by
      rw [pow_succ] at h
      omega
    rw [toLeBytes, ofLeBytes, ih hdiv, UInt8.toNat_ofNat']
    omega

/-- Writing back the integer read from a field gives the field. -/
theorem toLeBytes_ofLeBytes (bytes : Bytes) : toLeBytes bytes.length (ofLeBytes bytes) = bytes := by
  induction bytes with
  | nil => rfl
  | cons b bs ih =>
    have hb : b.toNat < 256 := b.toNat_lt
    have hdiv : (b.toNat + 256 * ofLeBytes bs) / 256 = ofLeBytes bs := by omega
    have hmod : UInt8.ofNat (b.toNat + 256 * ofLeBytes bs) = b := by
      apply UInt8.toNat_inj.mp
      rw [UInt8.toNat_ofNat']
      omega
    rw [List.length_cons, ofLeBytes, toLeBytes, hdiv, hmod, ih]

/-! ### The cursor -/

theorem take_append {field rest : Bytes} {len : ℕ} (h : field.length = len) :
    take (field ++ rest) len = some (field, rest) := by
  unfold take
  rw [List.splitAt_eq, if_pos (by simp [← h]), List.take_left' h, List.drop_left' h]

theorem takeU32_append {n : ℕ} (rest : Bytes) (h : n < u32Limit) :
    takeU32 (toLeBytes 4 n ++ rest) = some (n, rest) := by
  have hn : n < 256 ^ 4 := lt_of_lt_of_le h (by norm_num [u32Limit])
  simp [takeU32, take_append, ofLeBytes_toLeBytes hn]

theorem takeU64_append {n : ℕ} (rest : Bytes) (h : n < u64Limit) :
    takeU64 (toLeBytes 8 n ++ rest) = some (n, rest) := by
  have hn : n < 256 ^ 8 := lt_of_lt_of_le h (by norm_num [u64Limit])
  simp [takeU64, take_append, ofLeBytes_toLeBytes hn]

/-- A length-prefixed field is read back whole, and the cursor stops right behind it. -/
theorem takeField_append {field : Bytes} (rest : Bytes) (h : field.length < u32Limit) :
    takeField (toLeBytes 4 field.length ++ field ++ rest) = some (field, rest) := by
  rw [takeField, List.append_assoc, takeU32_append _ h]
  exact take_append rfl

/-! ### What a successful read says about the cursor -/

theorem take_eq_some {cursor field rest : Bytes} {len : ℕ}
    (h : take cursor len = some (field, rest)) : cursor = field ++ rest ∧ field.length = len := by
  unfold take at h
  split_ifs at h with hlen
  rw [List.splitAt_eq, Option.some.injEq, Prod.mk.injEq] at h
  obtain ⟨rfl, rfl⟩ := h
  exact ⟨(List.take_append_drop len cursor).symm, List.length_take_of_le hlen⟩

theorem takeU8_eq_some {cursor rest : Bytes} {b : UInt8} (h : takeU8 cursor = some (b, rest)) :
    cursor = b :: rest := by
  cases cursor with
  | nil => cases h
  | cons c cs =>
    obtain ⟨rfl, rfl⟩ := Prod.mk.inj (Option.some.inj h)
    rfl

theorem takeU32_eq_some {cursor rest : Bytes} {n : ℕ} (h : takeU32 cursor = some (n, rest)) :
    cursor = toLeBytes 4 n ++ rest ∧ n < u32Limit := by
  simp only [takeU32, Option.bind_eq_bind, Option.bind_eq_some_iff, Option.some.injEq,
    Prod.mk.injEq, Prod.exists] at h
  obtain ⟨field, rest', htake, rfl, rfl⟩ := h
  obtain ⟨rfl, hlen⟩ := take_eq_some htake
  have hlt := ofLeBytes_lt field
  rw [hlen] at hlt
  refine ⟨?_, lt_of_lt_of_le hlt (by norm_num [u32Limit])⟩
  rw [← hlen, toLeBytes_ofLeBytes]

theorem takeU64_eq_some {cursor rest : Bytes} {n : ℕ} (h : takeU64 cursor = some (n, rest)) :
    cursor = toLeBytes 8 n ++ rest ∧ n < u64Limit := by
  simp only [takeU64, Option.bind_eq_bind, Option.bind_eq_some_iff, Option.some.injEq,
    Prod.mk.injEq, Prod.exists] at h
  obtain ⟨field, rest', htake, rfl, rfl⟩ := h
  obtain ⟨rfl, hlen⟩ := take_eq_some htake
  have hlt := ofLeBytes_lt field
  rw [hlen] at hlt
  refine ⟨?_, lt_of_lt_of_le hlt (by norm_num [u64Limit])⟩
  rw [← hlen, toLeBytes_ofLeBytes]

theorem takeField_eq_some {cursor field rest : Bytes} (h : takeField cursor = some (field, rest)) :
    cursor = toLeBytes 4 field.length ++ field ++ rest ∧ field.length < u32Limit := by
  simp only [takeField, Option.bind_eq_bind, Option.bind_eq_some_iff, Prod.exists] at h
  obtain ⟨len, rest', hlen, hfield⟩ := h
  obtain ⟨rfl, hlt⟩ := takeU32_eq_some hlen
  obtain ⟨rfl, rfl⟩ := take_eq_some hfield
  exact ⟨by rw [List.append_assoc], hlt⟩

end Lsmkv
