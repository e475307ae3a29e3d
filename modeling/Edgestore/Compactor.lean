import Edgestore.Engine

/-!
# Compaction

A compaction cycle works on its own manifest handle. It groups the unpinned segments into cohorts,
drops the cohorts all of whose records are dead, and rewrites the others: the entries of their
segments are merged by LSN, tombstones and dead records are dropped, and the survivors become one
new segment. The cycle stops once it has written its budget.

The order in which a hash map yields cohorts is a parameter.

## Main definitions

* `identifyCohorts`: the cohorts in the order in which they are compacted
* `mergeEntry`, `survivors`: the merge of an entry into those of a cohort, and the entries that outlive compaction
* `collectExpiredCohort`, `compactPartialCohort`, `compactCycle`
* `Engine.compactOnce`: a cycle, after which the segment store is opened anew
-/

variable {X : Externals} {σ : Type}

/-- A group of segments to be compacted together. -/
structure CohortInfo where
  cohortBucket : ℤ
  segmentIds : List SegmentId
  maxDeathTimeNanos : ℤ
  totalRecords : ℕ
  deadRecordEstimate : ℕ
  isFullyExpired : Bool
  deriving DecidableEq, Repr

/-- Statistics of a compaction cycle. -/
structure CompactionStats where
  cohortsCollected : ℕ := 0
  segmentsRemoved : ℕ := 0
  segmentsWritten : ℕ := 0
  bytesWritten : ℕ := 0
  liveRecordsRelocated : ℕ := 0
  deriving DecidableEq, Repr

/-- An order in which a hash map may yield its keys. -/
structure HashOrder where
  order : List ℤ → List ℤ
  perm : ∀ l, (order l).Perm l

/-- The order in which the keys are given. -/
def HashOrder.given : HashOrder := ⟨id, fun _ => .refl _⟩

/-- The cohort of the segments of one bucket. -/
def cohortOf (segments : List SegmentMeta) (nowNanos : ℤ) (bucket : ℤ) : CohortInfo :=
  let segs := segments.filter fun m => m.cohortBucket = bucket
  let maxDeathTimeNanos := maxOr 0 (segs.map SegmentMeta.deathTime)
  { cohortBucket := bucket
    segmentIds := segs.map SegmentMeta.segmentId
    maxDeathTimeNanos := maxDeathTimeNanos
    totalRecords := (segs.map SegmentMeta.recordCount).sum
    deadRecordEstimate := 0
    isFullyExpired := nowNanos > maxDeathTimeNanos }

/-- Whether a cohort may be compacted before another: fully expired cohorts first, then by the
greatest death time. -/
def cohortLe (a b : CohortInfo) : Prop :=
  match a.isFullyExpired, b.isFullyExpired with
  | true, false => True
  | false, true => False
  | _, _ => a.maxDeathTimeNanos ≤ b.maxDeathTimeNanos

instance : DecidableRel cohortLe := fun a b => by
  unfold cohortLe
  split <;> infer_instance

/-- Group segments into cohorts, and sort these by priority. -/
def identifyCohorts (order : HashOrder) (segments : List SegmentMeta) (nowNanos : ℤ) :
    List CohortInfo :=
  ((order.order (segments.map SegmentMeta.cohortBucket).dedup).map
    (cohortOf segments nowNanos)).insertionSort cohortLe

/-- Keep the entry with the higher LSN. A key without entry counts as LSN `0`. -/
def mergeEntry (merged : MemTable) (p : Bytes × MemEntry) : MemTable :=
  if p.2.lsn > ((merged.get p.1).map MemEntry.lsn).getD 0 then merged.insert p.1 p.2 else merged

/-- The exclusive upper bound of the scan over a segment: 256 bytes `0xFF`. -/
def maxScanKey : Bytes := List.replicate 256 255

/-- Whether an entry outlives compaction: it is no tombstone, and its death time is still to
come. -/
def outlives (cohortWindowSecs : ℕ) (nowNanos : ℤ) (e : MemEntry) : Bool :=
  e.op ≠ .delete ∧ deathTimeFor e.timestamp e.ttl cohortWindowSecs > nowNanos

/-- The merged entries that outlive compaction, in key order. -/
def survivors (cohortWindowSecs : ℕ) (nowNanos : ℤ) (merged : MemTable) :
    List (Bytes × MemEntry) :=
  merged.entries.filter fun p => outlives cohortWindowSecs nowNanos p.2

/-- The configuration of a compactor. -/
structure Compactor where
  writeBudgetBytes : ℕ
  cohortWindowSecs : ℕ
  deriving DecidableEq, Repr

namespace Compactor

/-- Read one segment of a cohort into the merged entries. -/
def mergeSegment (merged : MemTable) (id : SegmentId) : Exec X Manifest MemTable := do
  let fs ← Exec.fs
  let reader ← Prog.lift (openReader id (fs.segs id))
  let entries ← Prog.lift (reader.rangeScan fs [] maxScanKey)
  return entries.foldl mergeEntry merged

/-- Remove the segments of a cohort, from the manifest first. -/
def dropCohort (cohort : CohortInfo) (stats : CompactionStats) :
    Exec X Manifest CompactionStats := do
  Manifest.removeSegments cohort.segmentIds
  cohort.segmentIds.forM unlinkSegment
  return { stats with
    segmentsRemoved := stats.segmentsRemoved + cohort.segmentIds.length
    cohortsCollected := stats.cohortsCollected + 1 }

/-- Remove a fully expired cohort. -/
def collectExpiredCohort (cohort : CohortInfo) (stats : CompactionStats) :
    Exec X Manifest CompactionStats := dropCohort cohort stats

/-- Rewrite a cohort: merge its segments, drop what does not outlive compaction, write the rest as
one segment, add it, remove the old ones. A cohort without survivors is dropped. -/
def compactPartialCohort (c : Compactor) (cohort : CohortInfo) (nowNanos : ℤ)
    (nextSegmentId : SegmentId) (stats : CompactionStats) : Exec X Manifest CompactionStats := do
  let merged ← cohort.segmentIds.foldlM mergeSegment .empty
  let sortedSurvivors := survivors c.cohortWindowSecs nowNanos merged
  if sortedSurvivors = [] then dropCohort cohort stats
  else
    let newMeta ← segmentFlush nextSegmentId c.cohortWindowSecs sortedSurvivors
    Manifest.addSegment newMeta
    Manifest.removeSegments cohort.segmentIds
    cohort.segmentIds.forM unlinkSegment
    return {
      bytesWritten := stats.bytesWritten + newMeta.compressedBytes
      liveRecordsRelocated := stats.liveRecordsRelocated + sortedSurvivors.length
      segmentsWritten := stats.segmentsWritten + 1
      segmentsRemoved := stats.segmentsRemoved + cohort.segmentIds.length
      cohortsCollected := stats.cohortsCollected + 1 }

/-- Compact one cohort of a cycle, unless the budget is spent or a segment of it is pinned. -/
def compactCohort (c : Compactor) (nowNanos : ℤ) (pinned : List SegmentId)
    (acc : CompactionStats × SegmentId) (cohort : CohortInfo) :
    Exec X Manifest (CompactionStats × SegmentId) := do
  if acc.1.bytesWritten ≥ c.writeBudgetBytes then return acc
  else if cohort.segmentIds.any fun id => id ∈ pinned then return acc
  else if cohort.isFullyExpired then return (← collectExpiredCohort cohort acc.1, acc.2)
  else return (← c.compactPartialCohort cohort nowNanos acc.2 acc.1, acc.2 + 1)

/-- Run one compaction cycle. New ids start behind the highest id in the manifest. -/
def compactCycle (c : Compactor) (order : HashOrder) (nowNanos : ℤ) (pinned : List SegmentId) :
    Exec X Manifest CompactionStats := do
  let listed := (← Exec.get).segments
  let segments := listed.filter fun m => m.segmentId ∉ pinned
  let nextSegmentId := maxOr 0 (listed.map SegmentMeta.segmentId) + 1
  let acc ← (identifyCohorts order segments nowNanos).foldlM
    (c.compactCohort nowNanos pinned) ({}, nextSegmentId)
  return acc.1

end Compactor

/-- Run one compaction cycle on a manifest handle of its own, then open the segment store anew. -/
def Engine.compactOnce (order : HashOrder) : Exec X Engine CompactionStats := do
  let nanos ← Exec.now
  let e ← Exec.get
  let compactor : Compactor := ⟨e.config.compactionWriteBudgetBytes, e.config.cohortWindowSecs⟩
  let manifest ← Manifest.open
  let stats ← Exec.within manifest
    (compactor.compactCycle order (asI64 nanos) e.snapshotRegistry.pinnedIds)
  let segmentStore ← SegmentStore.open e.config.cohortWindowSecs
  Exec.modify fun e => { e with segmentStore := segmentStore }
  return stats
