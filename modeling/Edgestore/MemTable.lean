import Edgestore.Types

/-!
# The memtable

The default memtable is a concurrent B-tree with a hand-kept count. It is modelled as a finite map
from encoded keys to records; scans return owned pairs in key order.

## Main definitions

* `MemTable`, with `insert`, `get`, `range`, `iter`, `len`
-/

/-- An in-memory ordered table from encoded keys to records. -/
abbrev MemTable := SortedMap Bytes MemEntry

namespace MemTable

/-- The entries with `start ≤ key < end`. The tables panic if `end < start`, which is no range: what is said about the
scans of ranges is said for `start ≤ end`. -/
def range (m : MemTable) (start «end» : Bytes) : List (Bytes × MemEntry) :=
  m.entries.filter fun p => start ≤ p.1 ∧ p.1 < «end»

/-- All entries. -/
def iter (m : MemTable) : List (Bytes × MemEntry) := m.entries

/-- The number of entries. -/
def len (m : MemTable) : ℕ := m.entries.length

/-- Whether there is no entry. -/
def isEmpty (m : MemTable) : Bool := m.len = 0

theorem isEmpty_iff {m : MemTable} : m.isEmpty = true ↔ m.entries = [] := by
  simp [isEmpty, len]

theorem keySorted_range (m : MemTable) (start «end» : Bytes) : KeySorted (m.range start «end») :=
  m.sorted.filter _

theorem find_range (m : MemTable) (start «end» k : Bytes) :
    find (m.range start «end») k = if start ≤ k ∧ k < «end» then m.get k else none := by
  have h := find_filter_key (l := m.entries) (fun k => decide (start ≤ k ∧ k < «end»)) k
  simpa [range, SortedMap.get] using h

end MemTable
