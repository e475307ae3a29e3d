import Edgestore.Engine
import Edgestore.Lib.Paging
import Mathlib.Order.OrderDual

/-!
# Pages of a range

`rangePage` reads a range forward, one page at a time; the cursor of the next page is the last key of
the page. `rangeRevPage` reads it backward. Both scan the segments with the page size as a limit, and
merge the memtable into what that scan returned.

## Main definitions

* `RangePage`, `Engine.rangePage`, `Engine.rangeRevPage`
* `SegmentStore.rangeScanRevBudgeted`: the descending scan of the segments
* `Engine.pagesFrom`, `Engine.revPagesFrom`: the items of all pages
-/

/-- A page, and the cursor of the next page, if there is one. -/
structure RangePage where
  items : List (Bytes × Bytes)
  nextKey : Option Bytes
  deriving DecidableEq, Repr

namespace SegmentStore

/-- The entries of each relevant segment in the range. -/
def perReader (fs : Fs) (s : SegmentStore) (start «end» : Bytes) :
    Except EdgestoreError (List (List (Bytes × MemEntry))) :=
  s.readers.mapM fun r =>
    if «end» ≤ r.segMeta.minKey ∨ start > r.segMeta.maxKey then .ok []
    else r.rangeScan fs start «end»

/-- The tie-break of the descending merge: the higher LSN is popped first. LSNs are 64-bit. -/
def revVersion (e : MemEntry) : ℕ := 2 ^ 64 - 1 - e.lsn

/-- The popped sequence of the descending merge. Its max-heap is a min-heap of the dual order, and
each segment is served from its tail. -/
def poppedDown (segs : List (List (Bytes × MemEntry))) :
    Except EdgestoreError (List (Except EdgestoreError (Bytes × MemEntry))) := do
  let popped ← KWayMerge.merged revVersion
    (segs.map fun seg => seg.reverse.map fun p => .ok (OrderDual.toDual p.1, p.2))
  return popped.map (Except.map fun p => (OrderDual.ofDual p.1, p.2))

/-- Scan the segments downward: at most `maxItems` live entries, in descending order. -/
def rangeScanRevBudgeted (fs : Fs) (s : SegmentStore) (start «end» : Bytes) (maxItems : ℕ) :
    Except EdgestoreError (List (Bytes × MemEntry)) := do
  let segs ← s.perReader fs start «end»
  let popped ← poppedDown segs
  let (results, _) ← collectMerged (some maxItems) none [] popped
  return results

end SegmentStore

namespace Engine

/-- Where a forward page starts: right behind the cursor. -/
def effectiveStart (start : Bytes) : Option Bytes → Bytes
  | some c => c ++ [0]
  | none => start

/-- A forward page. -/
def rangePage (fs : Fs) (e : Engine) (ns start «end» : Bytes) (cursor : Option Bytes)
    (pageSize : ℕ) : Except EdgestoreError RangePage :=
  if pageSize = 0 then .ok ⟨[], none⟩
  else do
    let scan ← e.rangeCore fs ns (effectiveStart start cursor) «end» (some { maxItems := some pageSize })
    return ⟨scan.items, if scan.truncated then scan.items.getLast?.map Prod.fst else none⟩

/-- Merge two descending scans; on equal keys the segment entry comes first. -/
def mergeDescending : List (Bytes × MemEntry) → List (Bytes × MemEntry) → List (Bytes × MemEntry)
  | [], mem => mem
  | s :: seg, mem => go s seg (mergeDescending seg) mem
where
  /-- Emit memtable entries down to `s`, then `s`. -/
  go (s : Bytes × MemEntry) (seg : List (Bytes × MemEntry))
      (rest : List (Bytes × MemEntry) → List (Bytes × MemEntry)) :
      List (Bytes × MemEntry) → List (Bytes × MemEntry)
    | [] => s :: seg
    | m :: mem => if s.1 ≥ m.1 then s :: rest (m :: mem) else m :: go s seg rest mem

/-- A reverse page. -/
def rangeRevPage (fs : Fs) (e : Engine) (ns start «end» : Bytes) (cursor : Option Bytes)
    (pageSize : ℕ) : Except EdgestoreError RangePage :=
  if pageSize = 0 then .ok ⟨[], none⟩
  else do
    let encStart ← encodeKey ns start
    let encEnd ← encodeKey ns (cursor.getD «end»)
    if encEnd ≤ encStart then return ⟨[], none⟩
    else
      let segResults ← e.segmentStore.rangeScanRevBudgeted fs encStart encEnd pageSize
      let memAsc := e.memtable.range encStart encEnd
      let scan ← dedupFilterScan (some { maxItems := some pageSize }) false none [] {}
        (mergeDescending segResults memAsc.reverse)
      return ⟨scan.items,
        if scan.items.length ≥ pageSize then scan.items.getLast?.map Prod.fst else none⟩

/-- Ask for forward pages until no cursor comes back: the items of all pages, if there are no more
than `n`. -/
def pagesFrom (fs : Fs) (e : Engine) (ns start «end» : Bytes) (pageSize : ℕ) :
    ℕ → Option Bytes → Except EdgestoreError (Option (List (Bytes × Bytes))) :=
  pages fun cursor => (e.rangePage fs ns start «end» cursor pageSize).map fun p =>
    (p.items, p.nextKey.map some)

/-- Ask for reverse pages until no cursor comes back. -/
def revPagesFrom (fs : Fs) (e : Engine) (ns start «end» : Bytes) (pageSize : ℕ) :
    ℕ → Option Bytes → Except EdgestoreError (Option (List (Bytes × Bytes))) :=
  pages fun cursor => (e.rangeRevPage fs ns start «end» cursor pageSize).map fun p =>
    (p.items, p.nextKey.map some)

end Engine
