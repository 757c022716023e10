import Lsmkv.Lib.Run
import Lsmkv.Lookup

/-!
# The memtable (`memtable/btree.rs`)

`BTreeMemtable` keeps the newest version of each key, sorted by key, and the number of key and
value bytes it holds.  The accounting is part of the structure: a table whose byte count is not
the sum over its entries cannot be built.
-/

namespace Lsmkv

/-- `Entry::value_len`. -/
def valueLen (value : Option Bytes) : ℕ := value.elim 0 List.length

/-- Key and value bytes of one entry. -/
def entryBytes (e : Entry) : ℕ := e.key.length + valueLen e.value

/-- The most recent value known for each key, sorted by key. -/
structure Memtable where
  run : Run Bytes Bytes
  bytes : ℕ
  accounts : bytes = (run.entries.map entryBytes).sum

/-- Replacing the version of a key exchanges its bytes. -/
theorem sum_insertVersion_of_find {e f : Entry} {l : List Entry}
    (hl : l.Pairwise fun v w => v.key < w.key) (hf : f ∈ l) (hkey : f.key = e.key) :
    ((insertVersion e l).map entryBytes).sum + valueLen f.value
      = (l.map entryBytes).sum + valueLen e.value := by
  induction l with
  | nil => cases hf
  | cons w rest ih =>
    obtain ⟨hw, hrest⟩ := List.pairwise_cons.mp hl
    rw [insertVersion]
    rcases List.mem_cons.mp hf with rfl | hf
    · rw [if_neg (by rw [hkey]; exact lt_irrefl _), if_pos hkey.symm]
      simp only [List.map_cons, List.sum_cons, entryBytes, hkey]
      omega
    · have hlt : w.key < e.key := hkey ▸ hw f hf
      rw [if_neg hlt.not_gt, if_neg hlt.ne']
      have := ih hrest hf
      simp only [List.map_cons, List.sum_cons]
      omega

/-- A key that was not there adds its bytes. -/
theorem sum_insertVersion_of_not_mem {e : Entry} {l : List Entry} (h : ∀ f ∈ l, f.key ≠ e.key) :
    ((insertVersion e l).map entryBytes).sum = (l.map entryBytes).sum + entryBytes e := by
  induction l with
  | nil => simp [insertVersion]
  | cons w rest ih =>
    rw [insertVersion]
    split_ifs with hlt heq
    · simp only [List.map_cons, List.sum_cons]
      omega
    · exact absurd heq.symm (h w List.mem_cons_self)
    · have := ih fun f hf => h f (List.mem_cons_of_mem _ hf)
      simp only [List.map_cons, List.sum_cons]
      omega

namespace Memtable

/-- `BTreeMemtable::new`. -/
def new : Memtable := ⟨Run.empty, 0, rfl⟩

/-- Applies a mutation and reports whether it was the newest one for its key. -/
def insert (m : Memtable) (e : Entry) : Memtable × Bool :=
  match h : m.run.find e.key with
  | some entry =>
    if e.seq ≤ entry.seq then (m, false)
    else
      (⟨m.run.insert e, m.bytes - valueLen entry.value + valueLen e.value, by
        obtain ⟨hmem, hkey⟩ := Run.find_mem h
        have hsum := sum_insertVersion_of_find m.run.sorted hmem hkey
        have hbytes : valueLen entry.value ≤ (m.run.entries.map entryBytes).sum :=
          (Nat.le_add_left _ _).trans
            (List.single_le_sum (by simp) (entryBytes entry) (List.mem_map_of_mem hmem))
        rw [m.accounts]
        change _ = ((insertVersion e m.run.entries).map entryBytes).sum
        omega⟩, true)
  | none =>
    (⟨m.run.insert e, m.bytes + (e.key.length + valueLen e.value), by
      rw [m.accounts]
      exact (sum_insertVersion_of_not_mem (Run.find_eq_none_iff.mp h)).symm⟩, true)

/-- Looks `key` up. -/
def get (m : Memtable) (key : Bytes) : Lookup := Lookup.ofEntry (m.run.find key)

/-- Number of keys held. -/
def len (m : Memtable) : ℕ := m.run.entries.length

/-- Visits every key once, in order, with a callback that works on a state and may fail. -/
def forEach {σ ε : Type*} (m : Memtable) (visit : σ → Entry → Except ε σ) (s : σ) : Except ε σ :=
  m.run.entries.foldlM visit s

/-- Inserts one after another, with what each of them returns. -/
def insertAll (m : Memtable) : List Entry → Memtable × List Bool
  | [] => (m, [])
  | e :: es =>
    let (m, newest) := m.insert e
    let (m, verdicts) := m.insertAll es
    (m, newest :: verdicts)

/-- Whether the table holds nothing at all. -/
def isEmpty (m : Memtable) : Bool := m.run.entries.isEmpty

/-- Key and value bytes held. -/
def approxBytes (m : Memtable) : ℕ := m.bytes

/-- An insert reports whether the table held no version of the key that is as new. -/
theorem insert_eq_true_iff {m : Memtable} {e : Entry} :
    (m.insert e).2 = true ↔ ∀ v ∈ m.run.find e.key, v.seq < e.seq := by
  unfold insert
  split <;> rename_i h
  · split_ifs with hle <;> simp [h, hle, not_le.mp]
  · simp [h]

/-- The order of arrival does not matter: the newer of two versions of a key stays. -/
theorem run_insert (m : Memtable) (e : Entry) : (m.insert e).1.run = m.run.add e := by
  unfold insert
  split <;> rename_i h
  · rw [Run.add_of_find_some h]
    split_ifs <;> rfl
  · rw [Run.add_of_find_none h]

theorem mem_insert {m : Memtable} {e v : Entry} (h : v ∈ (m.insert e).1.run.entries) :
    v = e ∨ v ∈ m.run.entries := by
  rw [run_insert] at h
  exact Run.mem_add h

/-- The table a list of records replays into. -/
def ofRecords (records : List Entry) : Memtable :=
  records.foldl (fun m e => (m.insert e).1) new

/-- A replayed table finds the newest record of every key. -/
theorem find_ofRecords (records : List Entry) (key : Bytes) :
    (ofRecords records).run.find key = newest records key := by
  rw [← Run.find_addAll]
  suffices h : ∀ m : Memtable,
      (records.foldl (fun m e => (m.insert e).1) m).run = m.run.addAll records from
    congrArg (Run.find · key) (h new)
  induction records with
  | nil => exact fun _ => rfl
  | cons e records ih =>
    intro m
    rw [List.foldl_cons, ih, run_insert]
    rfl

theorem insertAll_fst (m : Memtable) (es : List Entry) :
    (m.insertAll es).1 = es.foldl (fun m e => (m.insert e).1) m := by
  induction es generalizing m with
  | nil => rfl
  | cons e es ih =>
    rw [insertAll, List.foldl_cons]
    exact ih _

theorem mem_of_mem_ofRecords {records : List Entry} {v : Entry}
    (h : v ∈ (ofRecords records).run.entries) : v ∈ records := by
  have := Run.find_of_mem h
  rw [find_ofRecords] at this
  exact (newest_spec this).1

end Memtable

end Lsmkv
