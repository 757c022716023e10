import Lsmkv.Coding
import Lsmkv.Lib.Version

/-!
# Entries and lookups (`sstable::Entry`, `lookup.rs`)

A mutation is a key, the sequence number the log gave it and a value, or `none` for a tombstone.
The log's `Record::Set` and `Record::Delete` are the two cases of the value; the memtables and the
tables hold the same triple.
-/

namespace Lsmkv

/-- One mutation, as the log, the memtables and the tables hold it. -/
abbrev Entry := Version Bytes Bytes

/-- What a lookup found in one memtable or one file. -/
inductive Lookup where
  | found (value : Bytes)
  | deleted
  | missing
  deriving DecidableEq, Repr

/-- The lookup that an entry, or the lack of one, answers. -/
def Lookup.ofEntry : Option Entry → Lookup
  | none => missing
  | some ⟨_, _, some value⟩ => found value
  | some ⟨_, _, none⟩ => deleted

/-- Turns a lookup into an answer (`some`, the `Break` of the source), or asks the caller to try
an older level. -/
def answer : Lookup → Option (Option Bytes)
  | .found value => some (some value)
  | .deleted => some none
  | .missing => none

theorem answer_ofEntry (o : Option Entry) : answer (Lookup.ofEntry o) = o.map Version.value := by
  rcases o with _ | ⟨_, _, _ | _⟩ <;> rfl

end Lsmkv
