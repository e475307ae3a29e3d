import Edgestore.Compactor
import Edgestore.Segment.StoreInv
import Mathlib.Data.List.Dedup

/-!
# Compaction keeps the segment store in step

A compaction cycle drops cohorts of segments or rewrites them as one segment each, on a manifest
handle of its own. Its new ids start above the highest id in the manifest, so it runs into an id that
a flush in flight has reserved unless the manifest lists an id at least as high.

## Main definitions

* `Covered X R fs`: the manifest lists an id at least as high as every reserved one
* `CompactRely X R`: what a compaction relies on
* `CohortStep`, `CohortSteps`: what a cycle may do to the registered segments
* `CohortRun`, `CohortRuns`: what it does, with the bytes it has written

## Main results

* `Compactor.wp_compactCohort`, `Compactor.wp_compactCycle`: the specifications of a cycle
* `Compactor.nodup_identifyCohorts`: no segment is in two cohorts
-/

variable {X : Externals} {R : List SegmentId} {fs : Fs}

/-- The manifest lists an id at least as high as every reserved one, and none of these. -/
def Covered (X : Externals) (R : List SegmentId) (fs : Fs) : Prop :=
  ∀ id ∈ R, id ∉ registeredIds X fs ∧ ∃ id' ∈ registeredIds X fs, id ≤ id'

/-- A removal leaves an id at least as high as every reserved one. -/
def KeepsCover (X : Externals) (R : List SegmentId) : Effect → Fs → Prop
  | .manifestAppend _ ⟨.remove, id, _⟩, fs =>
    ∀ i ∈ R, ∃ j ∈ registeredIds X fs, j ≠ id ∧ i ≤ j
  | _, _ => True

instance (X : Externals) (R : List SegmentId) (fs : Fs) : Decidable (Covered X R fs) :=
  inferInstanceAs (Decidable (∀ id ∈ R, id ∉ registeredIds X fs ∧ ∃ id' ∈ registeredIds X fs, id ≤ id'))

instance (X : Externals) (R : List SegmentId) : ∀ e fs, Decidable (KeepsCover X R e fs)
  | .manifestAppend _ ⟨.remove, id, _⟩, fs =>
    inferInstanceAs (Decidable (∀ i ∈ R, ∃ j ∈ registeredIds X fs, j ≠ id ∧ i ≤ j))
  | .manifestAppend _ ⟨.add, _, _⟩, _ => .isTrue trivial
  | .walCreate _, _ => .isTrue trivial
  | .walHeader _, _ => .isTrue trivial
  | .walAppend _ _, _ => .isTrue trivial
  | .walUnlink _, _ => .isTrue trivial
  | .manifestCreate, _ => .isTrue trivial
  | .manifestHeader, _ => .isTrue trivial
  | .datWrite _ _, _ => .isTrue trivial
  | .idxWrite _ _, _ => .isTrue trivial
  | .xfWrite _ _, _ => .isTrue trivial
  | .metaWrite _ _, _ => .isTrue trivial
  | .segUnlink _ _, _ => .isTrue trivial
  | .stageWrite _ _, _ => .isTrue trivial
  | .stageRename _, _ => .isTrue trivial
  | .stageAdopt _ _, _ => .isTrue trivial
  | .sync _, _ => .isTrue trivial

/-- What a compaction relies on. -/
def CompactRely (X : Externals) (R : List SegmentId) (e : Effect) (fs : Fs) : Prop :=
  StoreRely X e fs ∧ KeepsCover X R e fs

theorem Covered.apply {e : Effect} (h : Covered X R fs) (he : StoreEffect X R e fs)
    (hr : CompactRely X R e fs) : Covered X R (applyEffect X e fs) := by
  intro i hi
  obtain ⟨hfree, j, hj, hle⟩ := h i hi
  rcases registeredIds_apply he hr.1.2 with ⟨-, heq⟩ | ⟨pos, m, rfl, hm, heq⟩ | ⟨pos, id, rfl, heq⟩
  · rw [heq]
    exact ⟨hfree, j, hj, hle⟩
  · rw [heq]
    refine ⟨fun hmem => ?_, j, List.mem_append_left _ hj, hle⟩
    rcases List.mem_append.mp hmem with hmem | hmem
    · exact hfree hmem
    · exact hm.free (List.mem_singleton.mp hmem ▸ hi)
  · obtain ⟨j', hj', hne, hle'⟩ := hr.2 i hi
    rw [heq]
    exact ⟨fun hmem => hfree (List.mem_filter.mp hmem).1, j',
      List.mem_filter.mpr ⟨hj', by simpa using hne⟩, hle'⟩

/-- The state of a cycle: its manifest is in step, and the next id is above every id in use. -/
structure CompactInv (X : Externals) (R : List SegmentId) (m : Manifest) (next : SegmentId)
    (fs : Fs) : Prop where
  disk : DiskInv X fs
  synced : m.Synced X fs
  next : ∀ id ∈ registeredIds X fs, id < next
  covered : Covered X R fs

theorem CompactInv.next_not_mem {m : Manifest} {next : SegmentId} (h : CompactInv X R m next fs) :
    next ∉ registeredIds X fs ∧ next ∉ R := by
  refine ⟨fun hmem => (h.next next hmem).ne rfl, fun hmem => ?_⟩
  obtain ⟨-, j, hj, hle⟩ := h.covered next hmem
  exact (hle.trans_lt (h.next j hj)).ne rfl

/-! ### What a cycle does to the registered segments -/

/-- The merged entries of segments. -/
def mergedEntries (fs : Fs) (ids : List SegmentId) : MemTable :=
  (ids.flatMap fun id => within [] maxScanKey (fs.segs id).table).foldl mergeEntry .empty

theorem mergedEntries_congr {fs' : Fs} {ids : List SegmentId} (h : ∀ id ∈ ids, fs'.segs id = fs.segs id) :
    mergedEntries fs' ids = mergedEntries fs ids := by
  unfold mergedEntries
  congr 1
  apply List.flatMap_congr
  intro id hid
  rw [h id hid]

/-- The segments `ids` are gone, and all others are as they were. -/
structure Dropped (X : Externals) (ids : List SegmentId) (fs fs' : Fs) : Prop where
  registered : registered X fs' = (registered X fs).filter fun m => m.segmentId ∉ ids
  segs : ∀ j ∉ ids, fs'.segs j = fs.segs j

/-- The segments `ids` are replaced by a new one, to which the given entries have been flushed. -/
structure Rewritten (X : Externals) (ids : List SegmentId) (window : ℕ)
    (entries : List (Bytes × MemEntry)) (m : SegmentMeta) (fs fs' : Fs) : Prop where
  fresh : m.segmentId ∉ registeredIds X fs
  registered : registered X fs' = (registered X fs ++ [m]).filter fun m => m.segmentId ∉ ids
  flushed : Flushed X m.segmentId window entries m (fs'.segs m.segmentId)
  segs : ∀ j ∉ ids, j ≠ m.segmentId → fs'.segs j = fs.segs j

/-- What compacting one cohort may do: nothing, drop it, or rewrite it. -/
inductive CohortStep (X : Externals) (c : Compactor) (now : ℤ) (pinned : List SegmentId)
    (cohort : CohortInfo) (fs : Fs) : Fs → Prop
  | skip : CohortStep X c now pinned cohort fs fs
  | drop {fs' : Fs} (free : ∀ id ∈ cohort.segmentIds, id ∉ pinned)
      (dead : cohort.isFullyExpired = true ∨
        survivors c.cohortWindowSecs now (mergedEntries fs cohort.segmentIds) = [])
      (h : Dropped X cohort.segmentIds fs fs') : CohortStep X c now pinned cohort fs fs'
  | rewrite {fs' : Fs} {m : SegmentMeta} (free : ∀ id ∈ cohort.segmentIds, id ∉ pinned)
      (h : Rewritten X cohort.segmentIds c.cohortWindowSecs
        (survivors c.cohortWindowSecs now (mergedEntries fs cohort.segmentIds)) m fs fs') :
      CohortStep X c now pinned cohort fs fs'

/-- What compacting cohorts one after the other may do. The directory stays well formed. -/
inductive CohortSteps (X : Externals) (c : Compactor) (now : ℤ) (pinned : List SegmentId) :
    List CohortInfo → Fs → Fs → Prop
  | nil {fs : Fs} : CohortSteps X c now pinned [] fs fs
  | cons {cohort : CohortInfo} {rest : List CohortInfo} {fs fs₁ fs₂ : Fs}
      (head : CohortStep X c now pinned cohort fs fs₁) (disk : DiskInv X fs₁)
      (tail : CohortSteps X c now pinned rest fs₁ fs₂) :
      CohortSteps X c now pinned (cohort :: rest) fs fs₂

/-- What compacting one cohort does, with the bytes that the cycle has written before it and after it. -/
inductive CohortRun (X : Externals) (c : Compactor) (now : ℤ) (pinned : List SegmentId) (cohort : CohortInfo)
    (written : ℕ) (fs : Fs) : ℕ → Fs → Prop
  | skip (passed : c.writeBudgetBytes ≤ written ∨ ∃ id ∈ cohort.segmentIds, id ∈ pinned) :
      CohortRun X c now pinned cohort written fs written fs
  | drop {fs' : Fs} (room : written < c.writeBudgetBytes) (free : ∀ id ∈ cohort.segmentIds, id ∉ pinned)
      (dead : cohort.isFullyExpired = true ∨
        survivors c.cohortWindowSecs now (mergedEntries fs cohort.segmentIds) = [])
      (h : Dropped X cohort.segmentIds fs fs') : CohortRun X c now pinned cohort written fs written fs'
  | rewrite {fs' : Fs} {m : SegmentMeta} (room : written < c.writeBudgetBytes)
      (free : ∀ id ∈ cohort.segmentIds, id ∉ pinned) (due : cohort.isFullyExpired = false)
      (survive : survivors c.cohortWindowSecs now (mergedEntries fs cohort.segmentIds) ≠ [])
      (h : Rewritten X cohort.segmentIds c.cohortWindowSecs
        (survivors c.cohortWindowSecs now (mergedEntries fs cohort.segmentIds)) m fs fs') :
      CohortRun X c now pinned cohort written fs (written + m.compressedBytes) fs'

/-- What compacting cohorts one after the other does. The directory stays well formed. -/
inductive CohortRuns (X : Externals) (c : Compactor) (now : ℤ) (pinned : List SegmentId) :
    List CohortInfo → ℕ → Fs → ℕ → Fs → Prop
  | nil {written : ℕ} {fs : Fs} : CohortRuns X c now pinned [] written fs written fs
  | cons {cohort : CohortInfo} {rest : List CohortInfo} {n n₁ n₂ : ℕ} {fs fs₁ fs₂ : Fs}
      (head : CohortRun X c now pinned cohort n fs n₁ fs₁) (disk : DiskInv X fs₁)
      (tail : CohortRuns X c now pinned rest n₁ fs₁ n₂ fs₂) :
      CohortRuns X c now pinned (cohort :: rest) n fs n₂ fs₂

section

variable {c : Compactor} {now : ℤ} {pinned : List SegmentId} {cohort : CohortInfo} {cohorts : List CohortInfo}
  {n n₁ n₂ : ℕ} {fs₁ fs₂ : Fs}

theorem CohortRun.step (h : CohortRun X c now pinned cohort n fs n₁ fs₁) :
    CohortStep X c now pinned cohort fs fs₁ := by
  cases h with
  | skip => exact .skip
  | drop _ free dead h => exact .drop free dead h
  | rewrite _ free _ _ h => exact .rewrite free h

theorem CohortRuns.steps (h : CohortRuns X c now pinned cohorts n fs n₁ fs₁) :
    CohortSteps X c now pinned cohorts fs fs₁ := by
  induction h with
  | nil => exact .nil
  | cons head disk _ ih => exact .cons head.step disk ih

theorem CohortRuns.concat (h : CohortRuns X c now pinned cohorts n fs n₁ fs₁)
    (hs : CohortRun X c now pinned cohort n₁ fs₁ n₂ fs₂) (hd : DiskInv X fs₂) :
    CohortRuns X c now pinned (cohorts ++ [cohort]) n fs n₂ fs₂ := by
  induction h with
  | nil => exact .cons hs hd .nil
  | cons head disk _ ih => exact .cons head disk (ih hs)

end

namespace Compactor

variable {c : Compactor} {m : Manifest} {clock : ℕ → ℕ} {next : SegmentId} {now : ℤ}

/-! ### Dropping segments -/

/-- Unlinking segments that are not registered. -/
theorem wp_unlinkSegments {σ : Type} {p : Process σ} {ids : List SegmentId}
    (hids : ∀ id ∈ ids, id ∉ registeredIds X fs ∧ id ∉ R) :
    Prog.wp (ids.forM (unlinkSegment (X := X) (σ := σ)))
      ⟨fun _ q fs' => q.state = p.state ∧ fs'.manifest = fs.manifest ∧
          ∀ j ∉ ids, fs'.segs j = fs.segs j,
        fun _ _ _ => False, StoreRely X, StoreEffect X R⟩ p fs := by
  refine Prog.wp_forM (fun rest q (fs' : Fs) => (∀ id ∈ rest, id ∈ ids) ∧ q.state = p.state ∧
    fs'.manifest = fs.manifest ∧ ∀ j ∉ ids, fs'.segs j = fs.segs j) ?_ (fun _ _ h => h.2) ids
    ⟨fun _ h => h, rfl, rfl, fun _ _ => rfl⟩
  rintro id rest q d ⟨hrest, hq, hman, hsegs⟩
  obtain ⟨hnew, hR⟩ := hids id (hrest id List.mem_cons_self)
  have hnew' : id ∉ registeredIds X d := by
    rwa [registeredIds, registered_congr hman]
  refine Prog.wp_imp (wp_unlinkSegment hnew' hR) ?_ (fun _ _ _ he => he)
  rintro _ q' d' ⟨hq', hout⟩
  refine ⟨fun j hj => hrest j (List.mem_cons_of_mem _ hj), hq'.trans hq, hout.manifest.trans hman,
    fun j hj => ?_⟩
  rw [hout.segs j fun hji => hj (hji ▸ hrest id List.mem_cons_self), hsegs j hj]

/-- A cycle keeps the directory well formed and the reserved ids covered, whatever else it does. -/
theorem wp_keeps {S α : Type} {prog : Exec X S α} {p : Process S}
    {ok : α → Process S → Fs → Prop} {error : EdgestoreError → Process S → Fs → Prop}
    (hd : DiskInv X fs) (hc : Covered X R fs)
    (h : Prog.wp prog ⟨ok, error, StoreRely X, StoreEffect X R⟩ p fs) :
    Prog.wp prog ⟨fun a q fs' => ok a q fs' ∧ DiskInv X fs' ∧ Covered X R fs',
      fun e q fs' => error e q fs' ∧ DiskInv X fs' ∧ Covered X R fs', CompactRely X R,
      StoreEffect X R⟩ p fs := by
  have hwp : Prog.wp prog ⟨ok, error, CompactRely X R, StoreEffect X R⟩ p fs :=
    Prog.wp_mono h (fun _ _ _ h => h) (fun _ _ _ h => h) (fun _ _ hr => hr.1) (fun _ _ _ hg => hg)
  exact Prog.wp_inv (I := fun d => DiskInv X d ∧ Covered X R d)
    (fun _ _ (hr : CompactRely X R _ _) he hI => ⟨he, hI.1.apply he hr.1.2, hI.2.apply he hr⟩) hwp
    ⟨hd, hc⟩

theorem filter_mem_registeredIds {ids : List SegmentId} {segs : List SegmentMeta} :
    ((segs.filter fun m => m.segmentId ∉ ids).map SegmentMeta.segmentId) =
      (segs.map SegmentMeta.segmentId).filter fun id => id ∉ ids := by
  rw [List.filter_map]
  rfl

/-- Dropping a cohort. -/
theorem wp_dropCohort {cohort : CohortInfo} {stats : CompactionStats}
    (h : CompactInv X R m next fs) (hids : ∀ id ∈ cohort.segmentIds, id ∈ registeredIds X fs) :
    Prog.wp (dropCohort (X := X) cohort stats)
      ⟨fun stats' q fs' => stats'.bytesWritten = stats.bytesWritten ∧ CompactInv X R q.state next fs' ∧
          Dropped X cohort.segmentIds fs fs',
        fun _ _ _ => False, CompactRely X R, StoreEffect X R⟩ ⟨m, clock⟩ fs := by
  have hwp : Prog.wp (dropCohort (X := X) cohort stats)
      ⟨fun stats' q fs' => stats'.bytesWritten = stats.bytesWritten ∧ q.state.Synced X fs' ∧
          Dropped X cohort.segmentIds fs fs',
        fun _ _ _ => False, StoreRely X, StoreEffect X R⟩ ⟨m, clock⟩ fs := by
    rw [dropCohort, Prog.wp_bind]
    refine Prog.wp_imp (Manifest.wp_removeSegments h.synced fun id hid =>
      (h.disk.wf id (hids id hid)).1) ?_ (fun _ _ _ he => he)
    rintro _ ⟨m₁, clock₁⟩ fs₁ ⟨hsync, hreg, hsegs⟩
    rw [Prog.wp_bind]
    refine Prog.wp_imp (wp_unlinkSegments (R := R) fun id hid => ⟨?_, fun hR =>
      (h.covered id hR).1 (hids id hid)⟩) ?_ (fun _ _ _ he => he)
    · rw [registeredIds, hreg, filter_mem_registeredIds]
      intro hmem
      simpa [hid] using (List.mem_filter.mp hmem).2
    · rintro _ ⟨m₂, clock₂⟩ fs₂ ⟨rfl, hman, hsegs₂⟩
      simp only [Prog.wp_pure]
      exact ⟨trivial, hsync.congr hman, by rw [registered_congr hman, hreg],
        fun j hj => by rw [hsegs₂ j hj, hsegs]⟩
  refine Prog.wp_imp (wp_keeps h.disk h.covered hwp) ?_ (fun _ _ _ he => he.1)
  rintro _ q fs' ⟨⟨hbytes, hsync, hdrop⟩, hd, hc⟩
  refine ⟨hbytes, ⟨hd, hsync, fun id hid => h.next id ?_, hc⟩, hdrop⟩
  rw [registeredIds, hdrop.registered, filter_mem_registeredIds] at hid
  exact (List.mem_filter.mp hid).1

/-! ### Rewriting segments -/

/-- Reading the segments of a cohort. -/
theorem wp_mergeSegments {ids : List SegmentId} (hd : DiskInv X fs)
    (hids : ∀ id ∈ ids, id ∈ registeredIds X fs) :
    Prog.wp (ids.foldlM (mergeSegment (X := X)) .empty)
      ⟨fun merged q fs' => merged = mergedEntries fs ids ∧ q = ⟨m, clock⟩ ∧ fs' = fs,
        fun _ _ _ => False, StoreRely X, StoreEffect X R⟩ ⟨m, clock⟩ fs := by
  refine Prog.wp_foldlM (fun rest merged q (fs' : Fs) => ∃ before, before ++ rest = ids ∧
    merged = mergedEntries fs before ∧ q = ⟨m, clock⟩ ∧ fs' = fs) ?step ?done ids .empty
    ⟨[], rfl, rfl, rfl, rfl⟩
  case step =>
    rintro id rest merged q fs' ⟨before, hall, rfl, rfl, rfl⟩
    obtain ⟨img, himg⟩ := (hd.wf id (hids id (by simp [← hall]))).2
    simp only [mergeSegment, Prog.wp_bind, Exec.wp_fs, Prog.wp_lift, himg, img.openReader_files,
      Prog.result_ok, img.rangeScan_reader himg, Prog.wp_pure]
    refine ⟨before ++ [id], by simp [← hall], ?_, trivial, trivial⟩
    simp [mergedEntries, List.foldl_append, himg]
  case done =>
    rintro merged q fs' ⟨before, hall, rfl, rfl, rfl⟩
    obtain rfl : before = ids := by simpa using hall
    exact ⟨rfl, rfl, rfl⟩

theorem keySorted_survivors (window : ℕ) (now : ℤ) (merged : MemTable) :
    KeySorted (survivors window now merged) := merged.sorted.filter _

/-- **Rewriting a cohort** replaces its segments by one that holds the survivors. -/
theorem wp_compactPartialCohort {cohort : CohortInfo} {stats : CompactionStats} {pinned : List SegmentId}
    (h : CompactInv X R m next fs) (hids : ∀ id ∈ cohort.segmentIds, id ∈ registeredIds X fs)
    (hw : asI64 c.cohortWindowSecs ≠ 0) (hroom : stats.bytesWritten < c.writeBudgetBytes)
    (hfree : ∀ id ∈ cohort.segmentIds, id ∉ pinned) (hdue : cohort.isFullyExpired = false) :
    Prog.wp (c.compactPartialCohort (X := X) cohort now next stats)
      ⟨fun stats' q fs' => CompactInv X R q.state (next + 1) fs' ∧
          CohortRun X c now pinned cohort stats.bytesWritten fs stats'.bytesWritten fs',
        fun _ _ _ => False, CompactRely X R, StoreEffect X R⟩ ⟨m, clock⟩ fs := by
  rw [compactPartialCohort, Prog.wp_bind]
  refine Prog.wp_mono (wp_mergeSegments (R := R) h.disk hids) ?_ (fun _ _ _ he => he)
    (fun _ _ hr => hr.1) (fun _ _ _ hg => hg)
  rintro _ _ fs₀ ⟨rfl, rfl, hfs⟩
  obtain rfl : fs = fs₀ := hfs.symm
  set entries := survivors c.cohortWindowSecs now (mergedEntries fs cohort.segmentIds)
  change Prog.wp (if entries = [] then dropCohort cohort stats else _) _ _ _
  rw [Prog.wp_ite]
  split
  case isTrue hnil =>
    refine Prog.wp_imp (wp_dropCohort h hids) ?_ (fun _ _ _ he => he)
    rintro stats' q fs' ⟨hbytes, hinv, hdrop⟩
    refine ⟨{ hinv with next := fun id hid => (hinv.next id hid).trans (Nat.lt_succ_self _) }, ?_⟩
    rw [hbytes]
    exact .drop hroom hfree (.inr hnil) hdrop
  case isFalse hne =>
    obtain ⟨hnew, hR⟩ := h.next_not_mem
    have hwp : Prog.wp (do
        let newMeta ← segmentFlush (X := X) next c.cohortWindowSecs entries
        Manifest.addSegment newMeta
        Manifest.removeSegments cohort.segmentIds
        cohort.segmentIds.forM unlinkSegment
        return ({
          bytesWritten := stats.bytesWritten + newMeta.compressedBytes
          liveRecordsRelocated := stats.liveRecordsRelocated + entries.length
          segmentsWritten := stats.segmentsWritten + 1
          segmentsRemoved := stats.segmentsRemoved + cohort.segmentIds.length
          cohortsCollected := stats.cohortsCollected + 1 } : CompactionStats))
        ⟨fun stats' q fs' => q.state.Synced X fs' ∧
            ∃ m', m'.segmentId = next ∧ stats'.bytesWritten = stats.bytesWritten + m'.compressedBytes ∧
              Rewritten X cohort.segmentIds c.cohortWindowSecs entries m' fs fs',
          fun _ _ _ => False, StoreRely X, StoreEffect X R⟩ ⟨m, clock⟩ fs := by
      rw [Prog.wp_bind]
      refine Prog.wp_imp (wp_segmentFlush_new (keySorted_survivors _ _ _) hnew hR) ?_ ?_
      · rintro m' ⟨_, clock₁⟩ fs₁ ⟨⟨rfl, hflushed⟩, hout⟩
        have hid := hflushed.segmentId
        have hr : Registrable X R fs₁ m'.segmentId := by
          rw [hid]
          exact ⟨hid ▸ hflushed.fits.1, hflushed.wf, by rwa [hout.registeredIds_eq], hR⟩
        rw [Prog.wp_bind]
        refine Prog.wp_imp (Manifest.wp_addSegment (h.synced.congr hout.manifest) hr) ?_ ?_
        · rintro _ ⟨m₂, clock₂⟩ fs₂ ⟨hsync₂, hreg₂, hsegs₂⟩
          rw [Prog.wp_bind]
          refine Prog.wp_imp (Manifest.wp_removeSegments hsync₂ fun id hmem =>
            (h.disk.wf id (hids id hmem)).1) ?_ (fun _ _ _ he => he)
          rintro _ ⟨m₃, clock₃⟩ fs₃ ⟨hsync₃, hreg₃, hsegs₃⟩
          rw [Prog.wp_bind]
          refine Prog.wp_imp (wp_unlinkSegments (R := R) fun id hmem => ⟨?_, fun hR =>
            (h.covered id hR).1 (hids id hmem)⟩) ?_ (fun _ _ _ he => he)
          · rw [registeredIds, hreg₃, filter_mem_registeredIds]
            intro hmem'
            simpa [hmem] using (List.mem_filter.mp hmem').2
          · rintro _ ⟨m₄, clock₄⟩ fs₄ ⟨rfl, hman, hsegs₄⟩
            rw [Prog.wp_pure]
            have hm' : m'.segmentId ∉ cohort.segmentIds := fun hmem => hnew (hid ▸ hids _ hmem)
            refine ⟨hsync₃.congr hman, m', hid, rfl, hid ▸ hnew, ?_, ?_, fun j hj hj' => ?_⟩
            · rw [registered_congr hman, hreg₃, hreg₂, hout.registered_eq]
            · rw [hsegs₄ _ hm', hsegs₃, hsegs₂, hid]
              exact hflushed
            · rw [hsegs₄ j hj, hsegs₃, hsegs₂, hout.segs j (hid ▸ hj')]
        · rintro _ q fs₂ ⟨hbig, -⟩
          exact absurd hflushed.fits.length_le (by omega)
      · rintro _ q fs₁ ⟨⟨-, hnil | hzero⟩, -⟩
        · exact absurd hnil hne
        · exact absurd hzero hw
    refine Prog.wp_imp (wp_keeps h.disk h.covered hwp) ?_ (fun _ _ _ he => he.1)
    rintro stats' q fs' ⟨⟨hsync, m', hid, hbytes, hrew⟩, hd, hc⟩
    rw [hbytes]
    refine ⟨⟨hd, hsync, fun id hmem => ?_, hc⟩, .rewrite hroom hfree hdue hne hrew⟩
    rw [registeredIds, hrew.registered, filter_mem_registeredIds, List.map_append] at hmem
    rcases List.mem_append.mp (List.mem_filter.mp hmem).1 with hmem | hmem
    · exact (h.next id hmem).trans (Nat.lt_succ_self _)
    · obtain rfl : id = m'.segmentId := by simpa using hmem
      exact hid ▸ Nat.lt_succ_self _

/-- **One cohort** of a cycle. -/
theorem wp_compactCohort {cohort : CohortInfo} {acc : CompactionStats × SegmentId}
    {pinned : List SegmentId} (h : CompactInv X R m acc.2 fs)
    (hids : ∀ id ∈ cohort.segmentIds, id ∈ registeredIds X fs)
    (hw : asI64 c.cohortWindowSecs ≠ 0) :
    Prog.wp (c.compactCohort (X := X) now pinned acc cohort)
      ⟨fun acc' q fs' => CompactInv X R q.state acc'.2 fs' ∧
          CohortRun X c now pinned cohort acc.1.bytesWritten fs acc'.1.bytesWritten fs',
        fun _ _ _ => False, CompactRely X R, StoreEffect X R⟩ ⟨m, clock⟩ fs := by
  simp only [compactCohort, Prog.wp_ite, Prog.wp_pure, Prog.wp_bind]
  split
  case isTrue hspent => exact ⟨h, .skip (.inl hspent)⟩
  case isFalse hroom =>
    split
    case isTrue hpinned => exact ⟨h, .skip (.inr (by simpa using hpinned))⟩
    case isFalse hpinned =>
      have hroom' := not_le.mp hroom
      have hfree : ∀ id ∈ cohort.segmentIds, id ∉ pinned := by simpa using hpinned
      split
      case isTrue hexpired =>
        refine Prog.wp_imp (wp_dropCohort h hids) ?_ (fun _ _ _ he => he)
        rintro stats' q fs' ⟨hbytes, hinv, hdrop⟩
        refine ⟨hinv, ?_⟩
        rw [hbytes]
        exact .drop hroom' hfree (.inl hexpired) hdrop
      case isFalse hdue =>
        exact Prog.wp_imp (wp_compactPartialCohort h hids hw hroom' hfree (Bool.eq_false_of_not_eq_true hdue))
          (fun _ _ _ hq => hq) (fun _ _ _ he => he)

/-! ### The cohorts of a cycle -/

theorem segmentIds_cohortOf (segments : List SegmentMeta) (bucket : ℤ) :
    (cohortOf segments now bucket).segmentIds =
      (segments.filter fun m => m.cohortBucket = bucket).map SegmentMeta.segmentId := rfl

/-- No segment is in two cohorts, and cohorts hold only the given segments. -/
theorem nodup_identifyCohorts (order : HashOrder) (now : ℤ) {segments : List SegmentMeta}
    (h : (segments.map SegmentMeta.segmentId).Nodup) :
    ((identifyCohorts order segments now).flatMap CohortInfo.segmentIds).Nodup ∧
      ∀ cohort ∈ identifyCohorts order segments now, ∀ id ∈ cohort.segmentIds,
        id ∈ segments.map SegmentMeta.segmentId := by
  have hperm : (identifyCohorts order segments now).Perm
      ((order.order (segments.map SegmentMeta.cohortBucket).dedup).map (cohortOf segments now)) :=
    List.perm_insertionSort _ _
  have hbuckets : (order.order (segments.map SegmentMeta.cohortBucket).dedup).Nodup :=
    (order.perm _).nodup_iff.mpr (List.nodup_dedup _)
  have hsub : ∀ bucket, ∀ id ∈ (cohortOf segments now bucket).segmentIds,
      ∃ m ∈ segments, m.cohortBucket = bucket ∧ m.segmentId = id := by
    intro bucket id hid
    obtain ⟨m, hm, rfl⟩ := List.mem_map.mp hid
    obtain ⟨hmem, hbucket⟩ := List.mem_filter.mp hm
    exact ⟨m, hmem, by simpa using hbucket, rfl⟩
  constructor
  · rw [(hperm.flatMap_right _).nodup_iff, List.nodup_flatMap]
    refine ⟨fun cohort hcohort => ?_, ?_⟩
    · obtain ⟨bucket, -, rfl⟩ := List.mem_map.mp hcohort
      rw [segmentIds_cohortOf]
      exact h.sublist (List.filter_sublist.map _)
    · rw [List.pairwise_map]
      refine hbuckets.imp fun {a b} hab => ?_
      change List.Disjoint _ _
      rw [List.disjoint_left]
      intro id ha hb
      obtain ⟨m, hm, rfl, hmid⟩ := hsub _ id ha
      obtain ⟨m', hm', rfl, hmid'⟩ := hsub _ id hb
      exact hab (congrArg SegmentMeta.cohortBucket
        (List.inj_on_of_nodup_map h hm hm' (hmid.trans hmid'.symm)))
  · intro cohort hcohort id hid
    obtain ⟨bucket, -, rfl⟩ := List.mem_map.mp (hperm.mem_iff.mp hcohort)
    obtain ⟨m, hm, -, rfl⟩ := hsub bucket id hid
    exact List.mem_map_of_mem hm

/-- A cohort step keeps the segments that are not in the cohort. -/
theorem mem_registeredIds_of_step {cohort : CohortInfo} {pinned : List SegmentId} {fs' : Fs}
    {id : SegmentId} (h : CohortStep X c now pinned cohort fs fs') (hid : id ∈ registeredIds X fs)
    (hc : id ∉ cohort.segmentIds) : id ∈ registeredIds X fs' := by
  cases h with
  | skip => exact hid
  | drop _ _ hdrop =>
    rw [registeredIds, hdrop.registered, filter_mem_registeredIds]
    exact List.mem_filter.mpr ⟨hid, by simpa using hc⟩
  | rewrite _ hrew =>
    rw [registeredIds, hrew.registered, filter_mem_registeredIds, List.map_append]
    exact List.mem_filter.mpr ⟨List.mem_append_left _ hid, by simpa using hc⟩

/-- **A compaction cycle** compacts the cohorts of the unpinned segments one after the other. -/
theorem wp_compactCycle {order : HashOrder} {pinned : List SegmentId} (hd : DiskInv X fs)
    (hs : m.Synced X fs) (hc : Covered X R fs) (hw : asI64 c.cohortWindowSecs ≠ 0) :
    Prog.wp (c.compactCycle (X := X) order now pinned)
      ⟨fun stats _ fs' => DiskInv X fs' ∧ (∃ xs, ManifestLog X fs' xs) ∧ Covered X R fs' ∧
          CohortRuns X c now pinned
            (identifyCohorts order ((registered X fs).filter fun m => m.segmentId ∉ pinned) now)
            0 fs stats.bytesWritten fs',
        fun _ _ _ => False, CompactRely X R, StoreEffect X R⟩ ⟨m, clock⟩ fs := by
  simp only [compactCycle, Prog.wp_bind, Exec.wp_get, hs.segments, Prog.wp_pure]
  set segments := (registered X fs).filter fun m => m.segmentId ∉ pinned with hsegments
  set cohorts := identifyCohorts order segments now
  have hsub : ∀ id ∈ segments.map SegmentMeta.segmentId, id ∈ registeredIds X fs := by
    intro id hid
    rw [hsegments, filter_mem_registeredIds] at hid
    exact (List.mem_filter.mp hid).1
  have hnodup : (segments.map SegmentMeta.segmentId).Nodup :=
    hd.nodup.sublist (List.filter_sublist.map _)
  obtain ⟨hcohorts, hmem⟩ := nodup_identifyCohorts order now hnodup
  -- the cohorts still to come are disjoint, and their segments are still registered
  refine Prog.wp_foldlM (fun rest acc q (fs' : Fs) => ∃ before, before ++ rest = cohorts ∧
      CompactInv X R q.state acc.2 fs' ∧
      (∀ cohort ∈ rest, ∀ id ∈ cohort.segmentIds, id ∈ registeredIds X fs') ∧
      CohortRuns X c now pinned before 0 fs acc.1.bytesWritten fs') ?step ?done cohorts _
    ⟨[], rfl, ⟨hd, hs, fun id hid => Nat.lt_succ_of_le (le_maxOr hid), hc⟩,
      fun cohort hcohort id hid => hsub id (hmem cohort hcohort id hid), .nil⟩
  case step =>
    rintro cohort rest acc ⟨m', clock'⟩ fs' ⟨before, hall, hinv, hrest, hsteps⟩
    refine Prog.wp_imp (wp_compactCohort hinv (hrest cohort List.mem_cons_self) hw) ?_
      (fun _ _ _ he => he)
    rintro acc' q fs'' ⟨hinv', hstep⟩
    refine ⟨before ++ [cohort], by simp [← hall], hinv', fun cohort' hcohort' id hid => ?_,
      hsteps.concat hstep hinv'.disk⟩
    refine mem_registeredIds_of_step hstep.step (hrest cohort' (List.mem_cons_of_mem _ hcohort') id hid)
      fun hid' => ?_
    change (cohorts.flatMap CohortInfo.segmentIds).Nodup at hcohorts
    rw [← hall, List.flatMap_append, List.flatMap_cons] at hcohorts
    have hdisj := (List.nodup_append.mp (List.nodup_append.mp hcohorts).2.1).2.2
    exact hdisj id hid' id (List.mem_flatMap.mpr ⟨cohort', hcohort', hid⟩) rfl
  case done =>
    rintro acc ⟨m', clock'⟩ fs' ⟨before, hall, hinv, -, hsteps⟩
    obtain rfl : before = cohorts := by simpa using hall
    exact ⟨hinv.disk, hinv.synced.log, hinv.covered, hsteps⟩

end Compactor
