import Edgestore.Manifest
import Edgestore.Segment.Reader
import Edgestore.MemTable
import Edgestore.Lib.KWayMerge

/-!
# The segment store

The segment store keeps the manifest, a reader for every active segment, in the order in which they
were pushed, and the counter of segment ids. A lookup takes the first hit from the most recently
pushed reader on; a scan merges cursors over all readers.

## Main definitions

* `SegmentStore`, with `open`, `prepareFlush`, `finalizeSegment`, `replaceSegment`, `get` and
  `rangeScanBudgeted`
* `FlushWork`, `FlushWork.execute`: the package that is written without holding the engine
-/

variable {X : Externals} {σ : Type}

/-- What a flush writes: the entries of the memtable at its beginning, under a reserved id. -/
structure FlushWork where
  entries : List (Bytes × MemEntry)
  segmentId : SegmentId
  cohortWindowSecs : ℕ
  flushedMaxLsn : Lsn
  deriving DecidableEq, Repr

/-- Write the files of the segment. -/
def FlushWork.execute (w : FlushWork) : Exec X σ SegmentMeta :=
  segmentFlush w.segmentId w.cohortWindowSecs w.entries

/-- The segment store. -/
structure SegmentStore where
  manifest : Manifest
  readers : List SegmentReader
  nextSegmentId : SegmentId
  cohortWindowSecs : ℕ
  deriving DecidableEq, Repr

/-- Unlink those of the four files of a segment that exist. -/
def unlinkSegment (id : SegmentId) : Exec X σ Unit :=
  [SegmentExt.dat, .idx, .xf, .meta'].forM fun ext => do
    if ((← Exec.fs).segs id).has ext then Exec.effect (.segUnlink id ext)

/-- The items of a scan so far, and whether it stopped before the end. -/
abbrev ScanResult := List (Bytes × MemEntry) × Bool

/-- Consume a merged sequence: keep the highest LSN of each key, drop tombstones, stop when enough
live entries are out. `last` is the best entry so far of the key at hand. -/
def collectMerged (maxItems : Option ℕ) :
    Option (Bytes × MemEntry) → List (Bytes × MemEntry) →
      List (Except EdgestoreError (Bytes × MemEntry)) → Except EdgestoreError ScanResult
  | none, results, [] => .ok (results, false)
  | some (k, e), results, [] =>
    .ok (if e.op ≠ .delete then results ++ [(k, e)] else results, false)
  | _, _, .error err :: _ => .error err
  | none, results, .ok item :: rest => collectMerged maxItems (some item) results rest
  | some (k, e), results, .ok item :: rest =>
    if k = item.1 then
      collectMerged maxItems (some (k, if item.2.lsn > e.lsn then item.2 else e)) results rest
    else if e.op ≠ .delete then
      if maxItems.any fun m => decide (results.length + 1 ≥ m) then .ok (results ++ [(k, e)], true)
      else collectMerged maxItems (some item) (results ++ [(k, e)]) rest
    else collectMerged maxItems (some item) results rest

namespace SegmentStore

/-- Open the manifest and a reader for each of its segments. -/
def «open» (cohortWindowSecs : ℕ) : Exec X σ SegmentStore := do
  let manifest ← Manifest.open
  let fs ← Exec.fs
  let readers ← Prog.lift (manifest.segments.mapM fun m => openReader m.segmentId (fs.segs m.segmentId))
  let nextId := manifest.segments.foldl
    (fun next m => if m.segmentId ≥ next then m.segmentId + 1 else next) 0
  return ⟨manifest, readers, nextId, cohortWindowSecs⟩

/-- A method of the manifest. -/
def onManifest {α : Type} (m : Exec X Manifest α) : Exec X SegmentStore α :=
  Exec.zoom SegmentStore.manifest (fun m s => { s with manifest := m }) m

/-- Take the next segment id. -/
def allocSegmentId : Exec X SegmentStore SegmentId := do
  let s ← Exec.get
  Exec.modify fun s => { s with nextSegmentId := s.nextSegmentId + 1 }
  return s.nextSegmentId

/-- Snapshot the memtable and reserve a segment id, unless the memtable is empty. -/
def prepareFlush (memtable : MemTable) : Exec X SegmentStore (Option FlushWork) := do
  let entries := memtable.iter
  if entries = [] then return none
  else
    let id ← allocSegmentId
    return some ⟨entries, id, (← Exec.get).cohortWindowSecs,
      maxOr 0 (entries.map fun p => p.2.lsn)⟩

/-- Register a written segment in the manifest, then open and push its reader. -/
def finalizeSegment (segMeta : SegmentMeta) : Exec X SegmentStore Unit := do
  onManifest (Manifest.addSegment segMeta)
  let reader ← Prog.lift (openReader segMeta.segmentId ((← Exec.fs).segs segMeta.segmentId))
  Exec.modify fun s => { s with readers := s.readers ++ [reader] }

/-- Register an imported segment. -/
def addImportedSegment (segMeta : SegmentMeta) (reader : SegmentReader) :
    Exec X SegmentStore Unit := do
  onManifest (Manifest.addSegment segMeta)
  Exec.modify fun s => { s with readers := s.readers ++ [reader] }

/-- The reader of a segment. -/
def readerFor (s : SegmentStore) (id : SegmentId) : Option SegmentReader :=
  s.readers.find? fun r => r.segmentId = id

/-- Replace a segment by a rewritten one: remove it from the manifest, add the new one, then
unlink the old files. -/
def replaceSegment (oldId : SegmentId) (newMeta : SegmentMeta) (newReader : SegmentReader) :
    Exec X SegmentStore Unit := do
  onManifest (Manifest.removeSegments [oldId])
  Exec.modify fun s => { s with readers := s.readers.filter fun r => r.segmentId ≠ oldId }
  onManifest (Manifest.addSegment newMeta)
  Exec.modify fun s => { s with readers := s.readers ++ [newReader] }
  unlinkSegment oldId

/-- The first hit among readers, from the front. -/
def firstHit (X : Externals) (fs : Fs) (key : Bytes) :
    List SegmentReader → Except EdgestoreError (Option MemEntry)
  | [] => .ok none
  | r :: readers => do
    match ← r.get X fs key with
    | some e => return some e
    | none => firstHit X fs key readers

/-- Look up a key, from the most recently pushed reader on. -/
def get (X : Externals) (fs : Fs) (s : SegmentStore) (key : Bytes) :
    Except EdgestoreError (Option MemEntry) := firstHit X fs key s.readers.reverse

/-- Scan the segments: live entries in key order, and whether the scan stopped early. -/
def rangeScanBudgeted (fs : Fs) (s : SegmentStore) (start «end» : Bytes) (maxItems : Option ℕ) :
    Except EdgestoreError ScanResult := do
  let cursors ← s.readers.mapM fun r => SegmentCursor.open fs r start «end»
  let popped ← KWayMerge.merged MemEntry.lsn (cursors.filterMap id)
  collectMerged maxItems none [] popped

end SegmentStore
