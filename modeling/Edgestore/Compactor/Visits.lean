import Edgestore.Compactor.Survival
import Edgestore.Segment.Written

/-!
# The cohorts a cycle has visited

A cycle goes through cohorts computed beforehand, on a manifest handle in memory. What it has done at any
time is told by the cohorts it has visited and by the segments written for them; this is the invariant of
its loop. Nothing is assumed of the manifest file, of the limits of readers or of the ids in use: where
these fail the cycle stops with an error.

## Main definitions

* `Visit`, `statsOf`: a visited cohort with the segment written for it, and the statistics of visits
* `Effect.Spares`: an effect that leaves a segment alone
* `Worked`: what the visit of one cohort does
* `CycleInv`: what the visits so far have done

## Main results

* `CycleInv.step`: a visit keeps the invariant
* `Compactor.wp_compactCycle_visits`: the specification of a cycle
-/

variable {X : Externals} {σ : Type} {fs fs' : Fs} {c : Compactor} {now : ℤ} {spared : List SegmentId}

/-! ### Visits -/

/-- A cohort that a cycle has visited, with the metadata of the segment written for it, if there is one. -/
structure Visit where
  cohort : CohortInfo
  output : Option SegmentMeta
  deriving DecidableEq, Repr

/-- The segments that are gone after visits. -/
def goneIds (visits : List Visit) : List SegmentId := visits.flatMap fun v => v.cohort.segmentIds

/-- The segments that visits have written. -/
def outputs (visits : List Visit) : List SegmentMeta := visits.filterMap Visit.output

/-- The statistics of visits. -/
def statsOf (visits : List Visit) : CompactionStats where
  cohortsCollected := visits.length
  segmentsRemoved := (goneIds visits).length
  segmentsWritten := (outputs visits).length
  bytesWritten := ((outputs visits).map SegmentMeta.compressedBytes).sum
  liveRecordsRelocated := ((outputs visits).map SegmentMeta.recordCount).sum

section

variable {visits : List Visit} {v : Visit}

theorem goneIds_concat : goneIds (visits ++ [v]) = goneIds visits ++ v.cohort.segmentIds := by
  unfold goneIds
  rw [List.flatMap_append, List.flatMap_singleton]

theorem outputs_concat : outputs (visits ++ [v]) = outputs visits ++ v.output.toList := by
  unfold outputs
  rw [List.filterMap_append]
  cases h : v.output with
  | none => simp [h]
  | some m => simp [h]

theorem mem_outputs {m : SegmentMeta} : m ∈ outputs visits ↔ ∃ v ∈ visits, v.output = some m :=
  List.mem_filterMap

end

/-! ### Effects that leave a segment alone -/

/-- An effect that neither writes nor unlinks a file of the segment, nor removes it from the manifest. -/
def Effect.Spares (id : SegmentId) (e : Effect) : Prop :=
  e.target ≠ some id ∧ ∀ pos segMeta, e ≠ .manifestAppend pos ⟨.remove, id, segMeta⟩

theorem WritesSegment.spares {e : Effect} {id j : SegmentId} (h : WritesSegment id e) (hj : j ≠ id) :
    e.Spares j := by
  refine ⟨fun ht => ?_, fun pos segMeta he => ?_⟩
  · cases e <;> cases ht <;> first | exact hj h | exact h
  · rw [he] at h
    exact h

theorem spares_sync (id : SegmentId) (f : FileName) : (Effect.sync f).Spares id :=
  ⟨by rintro ⟨⟩, by rintro _ _ ⟨⟩⟩

theorem spares_unlink {id j : SegmentId} (ext : SegmentExt) (h : j ≠ id) :
    (Effect.segUnlink id ext).Spares j :=
  ⟨by rintro ⟨⟩; exact h rfl, by rintro _ _ ⟨⟩⟩

theorem spares_removeEntry {id j : SegmentId} (pos : ℕ) (h : j ≠ id) :
    (Effect.manifestAppend pos (removeEntry id)).Spares j :=
  ⟨by rintro ⟨⟩, by rintro _ _ ⟨⟩; exact h rfl⟩

theorem spares_addEntry (id : SegmentId) (pos : ℕ) (m : SegmentMeta) :
    (Effect.manifestAppend pos (addEntry m)).Spares id :=
  ⟨by rintro ⟨⟩, by rintro _ _ ⟨⟩⟩

/-- A postcondition of calls that are looked at only where they succeed, and that spare some segments. -/
abbrev sparing {α : Type} (spared : List SegmentId) (ok : α → Process σ → Fs → Prop) :
    Prog.Post (disk X) (Process σ) EdgestoreError α :=
  ⟨ok, fun _ _ _ => True, fun _ _ => True, fun e _ => ∀ id ∈ spared, e.Spares id⟩

/-! ### The manifest in memory -/

namespace Manifest

/-- Writing a frame leaves the list in memory. -/
theorem wp_writeFramedEntry_sparing {e : ManifestEntry} {p : Process Manifest}
    (he : ∀ id ∈ spared, (Effect.manifestAppend p.state.pos e).Spares id) :
    Prog.wp (writeFramedEntry (X := X) e)
      (sparing spared fun _ q fs' => q.state.segments = p.state.segments ∧ fs'.segs = fs.segs) p fs := by
  rw [writeFramedEntry, Prog.wp_ite]
  split
  case isTrue => exact (Prog.wp_throw _).mpr trivial
  case isFalse =>
    simp only [Prog.wp_bind, Exec.wp_get, Exec.wp_effect, Exec.wp_modify]
    exact fun _ => ⟨he, trivial, rfl⟩

/-- Adding a segment. -/
theorem wp_addSegment_sparing {m : SegmentMeta} {p : Process Manifest} :
    Prog.wp (addSegment (X := X) m)
      (sparing spared fun _ q fs' =>
        q.state.segments = p.state.segments ++ [m] ∧ fs'.segs = fs.segs) p fs := by
  rw [addSegment, Prog.wp_bind]
  refine Prog.wp_imp (wp_writeFramedEntry_sparing fun id _ => spares_addEntry id _ m) ?_
    (fun _ _ _ h => h)
  rintro _ q fs' ⟨hsegments, hsegs⟩
  simp only [Prog.wp_bind, Exec.wp_effect, Exec.wp_modify]
  exact fun _ => ⟨fun id _ => spares_sync id _, by rw [hsegments], hsegs⟩

/-- Removing segments. -/
theorem wp_removeSegments_sparing {ids : List SegmentId} {p : Process Manifest}
    (hfree : ∀ id ∈ ids, id ∉ spared) :
    Prog.wp (removeSegments (X := X) ids)
      (sparing spared fun _ q fs' =>
        q.state.segments = (p.state.segments.filter fun m => m.segmentId ∉ ids) ∧
          fs'.segs = fs.segs) p fs := by
  rw [removeSegments, Prog.wp_bind]
  refine Prog.wp_forM (fun rest q (d : Fs) => (∀ id ∈ rest, id ∉ spared) ∧
    q.state.segments = p.state.segments ∧ d.segs = fs.segs) ?step ?done ids ⟨hfree, rfl, rfl⟩
  case step =>
    rintro id rest q d ⟨hrest, hsegments, hsegs⟩
    refine Prog.wp_imp (wp_writeFramedEntry_sparing fun j hj => spares_removeEntry _ ?_) ?_
      (fun _ _ _ h => h)
    · rintro rfl
      exact hrest j List.mem_cons_self hj
    · rintro _ q' d' ⟨hsegments', hsegs'⟩
      exact ⟨fun j hj => hrest j (List.mem_cons_of_mem _ hj), hsegments'.trans hsegments,
        hsegs'.trans hsegs⟩
  case done =>
    rintro q d ⟨-, hsegments, hsegs⟩
    simp only [Prog.wp_bind, Exec.wp_effect, Exec.wp_modify]
    exact fun _ => ⟨fun id _ => spares_sync id _, by rw [hsegments], hsegs⟩

end Manifest

/-! ### Segment files -/

theorem SegmentFiles.has_unlink_self (f : SegmentFiles) (ext : SegmentExt) :
    (f.unlink ext).has ext = false := by
  cases ext <;> rfl

theorem SegmentFiles.has_unlink_of_ne (f : SegmentFiles) {ext ext' : SegmentExt} (h : ext' ≠ ext) :
    (f.unlink ext).has ext' = f.has ext' := by
  cases ext <;> cases ext' <;> first | rfl | exact absurd rfl h

/-- No file exists if none of the four does. -/
theorem SegmentFiles.eq_empty {f : SegmentFiles} (h : ∀ ext, f.has ext = false) : f = {} := by
  have hdat := h .dat
  have hidx := h .idx
  have hxf := h .xf
  have hmeta := h .meta'
  simp only [has, decide_eq_false_iff_not, not_not] at hdat hidx hxf hmeta
  cases f
  simp_all only

theorem wp_unlinkSegment_sparing {id : SegmentId} {p : Process σ} (hfree : id ∉ spared) :
    Prog.wp (unlinkSegment (X := X) id)
      (sparing spared fun _ q fs' => q = p ∧ fs'.segs id = {} ∧ ∀ j ≠ id, fs'.segs j = fs.segs j)
      p fs := by
  refine Prog.wp_forM (fun rest q (d : Fs) => q = p ∧ (∀ ext ∉ rest, (d.segs id).has ext = false) ∧
    ∀ j ≠ id, d.segs j = fs.segs j) ?step ?done _ ⟨rfl, ?start, fun _ _ => rfl⟩
  case start =>
    intro ext hext
    cases ext <;> simp at hext
  case step =>
    rintro ext rest q d ⟨rfl, hgone, hother⟩
    simp only [Prog.wp_bind, Exec.wp_fs, Prog.wp_ite, Exec.wp_effect, Prog.wp_pure]
    split
    case isTrue =>
      refine fun _ => ⟨fun j hj => spares_unlink ext (ne_of_mem_of_not_mem hj hfree), trivial, ?_, ?_⟩
      · intro ext' hext'
        rw [applyEffect, Fs.segs_setSegment_self]
        by_cases heq : ext' = ext
        · rw [heq, SegmentFiles.has_unlink_self]
        · rw [SegmentFiles.has_unlink_of_ne _ heq]
          exact hgone ext' (by simp [heq, hext'])
      · intro j hj
        rw [applyEffect, Fs.segs_setSegment_of_ne _ _ hj]
        exact hother j hj
    case isFalse hno =>
      refine ⟨trivial, fun ext' hext' => ?_, hother⟩
      by_cases heq : ext' = ext
      · rw [heq]
        exact Bool.eq_false_iff.mpr hno
      · exact hgone ext' (by simp [heq, hext'])
  case done =>
    rintro q d ⟨rfl, hgone, hother⟩
    exact ⟨rfl, SegmentFiles.eq_empty fun ext => hgone ext List.not_mem_nil, hother⟩

theorem wp_unlinkSegments_sparing {ids : List SegmentId} {p : Process σ}
    (hfree : ∀ id ∈ ids, id ∉ spared) :
    Prog.wp (ids.forM (unlinkSegment (X := X)))
      (sparing spared fun _ q fs' => q = p ∧ (∀ id ∈ ids, fs'.segs id = {}) ∧
        ∀ j ∉ ids, fs'.segs j = fs.segs j) p fs := by
  refine Prog.wp_forM (fun rest q (d : Fs) => (∀ id ∈ rest, id ∉ spared) ∧ q = p ∧
    (∀ id ∈ ids, id ∈ rest ∨ d.segs id = {}) ∧ (∀ id ∈ rest, id ∈ ids) ∧
    ∀ j ∉ ids, d.segs j = fs.segs j) ?step ?done ids
    ⟨hfree, rfl, fun id hid => .inl hid, fun id hid => hid, fun _ _ => rfl⟩
  case step =>
    rintro id rest q d ⟨hrest, rfl, hgone, hsub, hother⟩
    refine Prog.wp_imp (wp_unlinkSegment_sparing (hrest id List.mem_cons_self)) ?_ (fun _ _ _ h => h)
    rintro _ q' d' ⟨rfl, hid, hsame⟩
    refine ⟨fun j hj => hrest j (List.mem_cons_of_mem _ hj), rfl, fun j hj => ?_,
      fun j hj => hsub j (List.mem_cons_of_mem _ hj), fun j hj => ?_⟩
    · by_cases heq : j = id
      · exact .inr (heq ▸ hid)
      · rw [hsame j heq]
        exact (hgone j hj).imp_left fun hmem => (List.mem_cons.mp hmem).resolve_left heq
    · rw [hsame j fun heq => hj (heq ▸ hsub id List.mem_cons_self)]
      exact hother j hj
  case done =>
    rintro q d ⟨-, rfl, hgone, -, hother⟩
    exact ⟨rfl, fun id hid => (hgone id hid).resolve_left List.not_mem_nil, hother⟩

theorem wp_segmentFlush_sparing {id : SegmentId} {window : ℕ} {entries : List (Bytes × MemEntry)}
    {p : Process σ} (hfree : id ∉ spared) (hs : KeySorted entries) :
    Prog.wp (segmentFlush (X := X) id window entries)
      (sparing spared fun m q fs' => q.state = p.state ∧ m.segmentId = id ∧
        SegmentWritten X window entries m (fs'.segs id) ∧ ∀ j ≠ id, fs'.segs j = fs.segs j) p fs :=
  Prog.wp_mono (wp_segmentFlush_written hs) (fun _ _ _ h => h) (fun _ _ _ h => h) (fun _ _ h => h)
    fun _ _ _ he _ hj => he.spares (ne_of_mem_of_not_mem hj hfree)

/-! ### Reading a cohort -/

/-- A segment that compaction reads to the end: the writer has made it, under the cohort window of the
compactor or a longer one, of records that have an LSN and whose keys have a namespace below the greatest
length, in blocks that are not too large. -/
def Compactable (X : Externals) (c : Compactor) (m : SegmentMeta) (files : SegmentFiles) : Prop :=
  ∃ window entries, SegmentWritten X window entries m files ∧
    asI64 c.cohortWindowSecs ≤ asI64 window ∧
    (∀ p ∈ entries, 0 < p.2.lsn ∧ ∃ ns key, ns.length < maxNsLen ∧ encodeKey ns key = .ok p.1) ∧
    ∀ b ∈ (writeDatAndIndex X entries).blocks, b.size ≤ maxBlockDecompressed

/-- The table of a segment that compaction reads to the end. -/
structure ScannedWhole (l : List (Bytes × MemEntry)) : Prop where
  sorted : KeySorted l
  stored : ∀ p ∈ l, storedEntry p = p
  pos : ∀ p ∈ l, 0 < p.2.lsn
  lt : ∀ p ∈ l, p.1 < maxScanKey

/-- A key whose namespace is below the greatest length is below the bound of the scan. -/
theorem lt_maxScanKey {ns key k : Bytes} (hns : ns.length < maxNsLen) (h : encodeKey ns key = .ok k) :
    k < maxScanKey := by
  obtain ⟨-, rfl⟩ := encodeKey_eq_ok.mp h
  have hbe : beBytes 2 ns.length = [Fin.ofNat 256 (ns.length / 256), Fin.ofNat 256 ns.length] := rfl
  have hmax : maxScanKey = 255 :: 255 :: List.replicate 254 255 := rfl
  have hhigh : (Fin.ofNat 256 (ns.length / 256)).val = ns.length / 256 % 256 := rfl
  have hlow : (Fin.ofNat 256 ns.length).val = ns.length % 256 := rfl
  have h255 : (255 : Byte).val = 255 := rfl
  unfold maxNsLen at hns
  rw [hbe, hmax, List.append_assoc, List.cons_append, List.cons_append, List.nil_append,
    List.cons_lt_cons_iff, List.cons_lt_cons_iff]
  -- the high byte of the length is below 255, or it is 255 and the low byte is below
  by_cases hlt : ns.length / 256 < 255
  · exact .inl (by rw [Fin.lt_def]; omega)
  · exact .inr ⟨by rw [Fin.ext_iff]; omega, .inl (by rw [Fin.lt_def]; omega)⟩

namespace Compactable

variable {m : SegmentMeta} {files : SegmentFiles} (h : Compactable X c m files)
include h

theorem scannedWhole : ScannedWhole files.table := by
  obtain ⟨window, entries, hwritten, -, hentries, -⟩ := h
  refine ⟨hwritten.keySorted_table, ?_, ?_, ?_⟩
  all_goals
    intro p hp
    rw [hwritten.table] at hp
    obtain ⟨q, hq, rfl⟩ := List.mem_map.mp hp
    obtain ⟨hpos, ns, key, hns, hkey⟩ := hentries q hq
  · exact storedEntry_storedEntry q
  · exact hpos
  · exact lt_maxScanKey hns hkey

theorem has (ext : SegmentExt) : files.has ext = true := by
  obtain ⟨window, entries, hwritten, -⟩ := h
  exact hwritten.has ext

theorem describes : m.Describes c.cohortWindowSecs files.table := by
  obtain ⟨window, entries, hwritten, hw, -⟩ := h
  exact hwritten.describes hw

theorem segmentWf {id : SegmentId} {r : SegmentReader} (hr : openReader id files = .ok r) :
    SegmentWf X files := by
  obtain ⟨window, entries, hwritten, -, -, hdat⟩ := h
  exact hwritten.segmentWf hdat hr

end Compactable

section

variable {ids : List SegmentId} {k : Bytes} {e : MemEntry}
  (h : ∀ id ∈ ids, ScannedWhole (fs.segs id).table)
include h

/-- The merge holds no lesser record than its segments. -/
theorem exists_merged {e' : MemEntry} (he' : e' ∈ recordsIn fs ids k) :
    ∃ e, (mergedEntries fs ids).get k = some e ∧ e'.lsn ≤ e.lsn := by
  obtain ⟨id, hid, hfind⟩ := List.mem_filterMap.mp he'
  have hp := mem_of_find hfind
  have hmem : (k, e') ∈ ids.flatMap fun id => within [] maxScanKey (fs.segs id).table := by
    refine List.mem_flatMap.mpr ⟨id, hid, List.mem_filter.mpr ⟨hp, ?_⟩⟩
    have hle : ([] : Bytes) ≤ k := not_lt.mp (List.not_lt_nil k)
    simpa using ⟨hle, (h id hid).lt _ hp⟩
  exact exists_foldl_mergeEntry (m := .empty) (.inr ⟨hmem, (h id hid).pos _ hp⟩)

/-- **The merge** holds a record of its segments with the highest LSN. -/
theorem isNewest_of_merged (he : (mergedEntries fs ids).get k = some e) :
    IsNewest (recordsIn fs ids k) e := by
  refine ⟨mem_recordsIn_of_merged (fun id hid => (h id hid).sorted) he, fun e' he' => ?_⟩
  obtain ⟨e'', hget, hle⟩ := exists_merged h he'
  rw [he] at hget
  cases hget
  exact hle

/-- What is read back of a merged record is the record. -/
theorem storedEntry_merged (he : (mergedEntries fs ids).get k = some e) :
    (storedEntry (k, e)).2 = e := by
  obtain ⟨id, hid, hfind⟩ :=
    List.mem_filterMap.mp (mem_recordsIn_of_merged (fun id hid => (h id hid).sorted) he)
  exact congrArg Prod.snd ((h id hid).stored _ (mem_of_find hfind))

end

namespace Compactor

/-- Reading the segments of a cohort. -/
theorem wp_mergeSegments_sparing {ids : List SegmentId} {p : Process Manifest}
    (h : ∀ id ∈ ids, ∃ m, Compactable X c m (fs.segs id)) :
    Prog.wp (ids.foldlM (mergeSegment (X := X)) .empty)
      (sparing spared fun merged q fs' => merged = mergedEntries fs ids ∧ q = p ∧ fs' = fs) p fs := by
  refine Prog.wp_foldlM (fun rest merged q (d : Fs) => ∃ before, before ++ rest = ids ∧
    merged = mergedEntries fs before ∧ q = p ∧ d = fs) ?step ?done ids .empty ⟨[], rfl, rfl, rfl, rfl⟩
  case step =>
    rintro id rest merged q d ⟨before, hall, rfl, rfl, rfl⟩
    obtain ⟨m, hm⟩ := h id (by simp [← hall])
    simp only [mergeSegment, Prog.wp_bind, Exec.wp_fs, Prog.wp_lift]
    cases hr : openReader id (d.segs id) with
    | error err => trivial
    | ok r =>
      obtain ⟨img, himg⟩ := hm.segmentWf hr
      obtain rfl : img.reader id = r := by
        rw [himg, img.openReader_files] at hr
        exact Except.ok.inj hr
      simp only [Prog.result_ok, img.rangeScan_reader himg, Prog.wp_pure]
      refine ⟨before ++ [id], by simp [← hall], ?_, trivial, trivial⟩
      simp [mergedEntries, List.foldl_append, himg]
  case done =>
    rintro merged q d ⟨before, hall, rfl, rfl, rfl⟩
    obtain rfl : before = ids := by simpa using hall
    exact ⟨rfl, rfl, rfl⟩

end Compactor

/-! ### Visiting a cohort -/

/-- What the visit of a cohort does to the manifest in memory and to the files: its segments are gone, with
their files; a segment with the survivors is there, under the next id, unless there are none, or the cohort
is fully expired. -/
structure Worked (X : Externals) (c : Compactor) (now : ℤ) (next : SegmentId) (v : Visit)
    (segs segs' : List SegmentMeta) (fs fs' : Fs) : Prop where
  segments : segs' = (segs ++ v.output.toList).filter fun m => m.segmentId ∉ v.cohort.segmentIds
  gone : ∀ id ∈ v.cohort.segmentIds, fs'.segs id = {}
  rest : ∀ j ∉ v.cohort.segmentIds, (∀ m ∈ v.output, j ≠ m.segmentId) → fs'.segs j = fs.segs j
  dead : v.output = none → v.cohort.isFullyExpired = true ∨
    survivors c.cohortWindowSecs now (mergedEntries fs v.cohort.segmentIds) = []
  written : ∀ m ∈ v.output, m.segmentId = next ∧ SegmentWritten X c.cohortWindowSecs
    (survivors c.cohortWindowSecs now (mergedEntries fs v.cohort.segmentIds)) m (fs'.segs m.segmentId)

theorem statsOf_drop (visits : List Visit) (cohort : CohortInfo) :
    statsOf (visits ++ [⟨cohort, none⟩]) =
      { statsOf visits with
        segmentsRemoved := (statsOf visits).segmentsRemoved + cohort.segmentIds.length
        cohortsCollected := (statsOf visits).cohortsCollected + 1 } := by
  simp [statsOf, goneIds_concat, outputs_concat]

theorem statsOf_rewrite (visits : List Visit) (cohort : CohortInfo) (m : SegmentMeta) :
    statsOf (visits ++ [⟨cohort, some m⟩]) =
      { bytesWritten := (statsOf visits).bytesWritten + m.compressedBytes
        liveRecordsRelocated := (statsOf visits).liveRecordsRelocated + m.recordCount
        segmentsWritten := (statsOf visits).segmentsWritten + 1
        segmentsRemoved := (statsOf visits).segmentsRemoved + cohort.segmentIds.length
        cohortsCollected := (statsOf visits).cohortsCollected + 1 } := by
  simp [statsOf, goneIds_concat, outputs_concat]

namespace Compactor

variable {m : Manifest} {clock : ℕ → ℕ} {visits : List Visit} {cohort : CohortInfo}

/-- Dropping a cohort. -/
theorem wp_dropCohort_worked (c : Compactor) (now : ℤ) (next : SegmentId)
    (hfree : ∀ id ∈ cohort.segmentIds, id ∉ spared)
    (hdead : cohort.isFullyExpired = true ∨
      survivors c.cohortWindowSecs now (mergedEntries fs cohort.segmentIds) = []) :
    Prog.wp (dropCohort (X := X) cohort (statsOf visits))
      (sparing spared fun stats q fs' => stats = statsOf (visits ++ [⟨cohort, none⟩]) ∧
        Worked X c now next ⟨cohort, none⟩ m.segments q.state.segments fs fs') ⟨m, clock⟩ fs := by
  rw [dropCohort, Prog.wp_bind]
  refine Prog.wp_imp (Manifest.wp_removeSegments_sparing hfree) ?_ (fun _ _ _ h => h)
  rintro _ q₁ fs₁ ⟨hsegments, hsegs₁⟩
  rw [Prog.wp_bind]
  refine Prog.wp_imp (wp_unlinkSegments_sparing hfree) ?_ (fun _ _ _ h => h)
  rintro _ q₂ fs₂ ⟨rfl, hgone, hrest⟩
  rw [Prog.wp_pure]
  refine ⟨(statsOf_drop _ _).symm, ?_, hgone, fun j hj _ => ?_, fun _ => hdead, ?_⟩
  · rw [hsegments, Option.toList_none, List.append_nil]
  · rw [hrest j hj, hsegs₁]
  · rintro m' ⟨⟩

/-- **Rewriting a cohort**. -/
theorem wp_compactPartialCohort_worked {next : SegmentId}
    (hfree : ∀ id ∈ cohort.segmentIds, id ∉ spared)
    (hnext : next ∉ cohort.segmentIds ∧ next ∉ spared)
    (h : ∀ id ∈ cohort.segmentIds, ∃ m, Compactable X c m (fs.segs id)) :
    Prog.wp (c.compactPartialCohort (X := X) cohort now next (statsOf visits))
      (sparing spared fun stats q fs' => ∃ output, stats = statsOf (visits ++ [⟨cohort, output⟩]) ∧
        Worked X c now next ⟨cohort, output⟩ m.segments q.state.segments fs fs') ⟨m, clock⟩ fs := by
  rw [compactPartialCohort, Prog.wp_bind]
  refine Prog.wp_imp (wp_mergeSegments_sparing h) ?_ (fun _ _ _ h => h)
  rintro _ _ fs₀ ⟨rfl, rfl, hfs⟩
  obtain rfl : fs = fs₀ := hfs.symm
  set entries := survivors c.cohortWindowSecs now (mergedEntries fs cohort.segmentIds)
  change Prog.wp (if entries = [] then dropCohort cohort (statsOf visits) else _) _ _ _
  rw [Prog.wp_ite]
  split
  case isTrue hnil =>
    refine Prog.wp_imp (wp_dropCohort_worked c now next hfree (.inr hnil)) ?_ (fun _ _ _ h => h)
    rintro stats q fs' hworked
    exact ⟨none, hworked⟩
  case isFalse =>
    rw [Prog.wp_bind]
    refine Prog.wp_imp (wp_segmentFlush_sparing hnext.2 (keySorted_survivors _ _ _)) ?_
      (fun _ _ _ h => h)
    rintro m' ⟨_, clock₁⟩ fs₁ ⟨rfl, hid, hwritten, hsegs₁⟩
    rw [Prog.wp_bind]
    refine Prog.wp_imp Manifest.wp_addSegment_sparing ?_ (fun _ _ _ h => h)
    rintro _ q₂ fs₂ ⟨hsegments₂, hsegs₂⟩
    rw [Prog.wp_bind]
    refine Prog.wp_imp (Manifest.wp_removeSegments_sparing hfree) ?_ (fun _ _ _ h => h)
    rintro _ q₃ fs₃ ⟨hsegments₃, hsegs₃⟩
    rw [Prog.wp_bind]
    refine Prog.wp_imp (wp_unlinkSegments_sparing hfree) ?_ (fun _ _ _ h => h)
    rintro _ q₄ fs₄ ⟨rfl, hgone, hrest⟩
    rw [Prog.wp_pure]
    have hcount : m'.recordCount = entries.length := hwritten.recordCount
    refine ⟨some m', by rw [statsOf_rewrite, hcount], ?_, hgone, fun j hj hne => ?_, ?_, ?_⟩
    · rw [hsegments₃, hsegments₂, Option.toList_some]
    · have hj' : j ≠ next := hid ▸ hne m' rfl
      rw [hrest j hj, hsegs₃, hsegs₂, hsegs₁ j hj']
    · rintro ⟨⟩
    · rintro _ ⟨⟩
      refine ⟨hid, ?_⟩
      rw [hrest _ (hid ▸ hnext.1), hsegs₃, hsegs₂, hid]
      exact hwritten

end Compactor

/-! ### The visits of a cycle -/

/-- How far a cycle has got: it has visited the cohorts before, in order, or stopped at its budget. What it
has written exceeds the budget by one segment at most. -/
structure Progress (c : Compactor) (before : List CohortInfo) (visits : List Visit) : Prop where
  initial : visits.map Visit.cohort <+: before
  complete : visits.map Visit.cohort = before ∨ c.writeBudgetBytes ≤ (statsOf visits).bytesWritten
  budget : (statsOf visits).bytesWritten ≤ c.writeBudgetBytes ∨
    ∃ m ∈ outputs visits, (statsOf visits).bytesWritten ≤ c.writeBudgetBytes + m.compressedBytes

namespace Progress

variable {before : List CohortInfo} {visits : List Visit} {cohort : CohortInfo}

theorem start (c : Compactor) : Progress c [] [] where
  initial := List.prefix_rfl
  complete := .inl rfl
  budget := .inl (Nat.zero_le _)

/-- At its budget, a cycle visits no further cohort. -/
theorem skip (h : Progress c before visits)
    (hfull : c.writeBudgetBytes ≤ (statsOf visits).bytesWritten) :
    Progress c (before ++ [cohort]) visits where
  initial := h.initial.trans (List.prefix_append _ _)
  complete := .inr hfull
  budget := h.budget

/-- Below its budget, a cycle visits the next cohort. -/
theorem visit (h : Progress c before visits)
    (hroom : (statsOf visits).bytesWritten < c.writeBudgetBytes) (cohort : CohortInfo)
    (output : Option SegmentMeta) :
    Progress c (before ++ [cohort]) (visits ++ [⟨cohort, output⟩]) := by
  have hall : visits.map Visit.cohort = before := h.complete.resolve_right (not_le.mpr hroom)
  have hmap : (visits ++ [Visit.mk cohort output]).map Visit.cohort = before ++ [cohort] := by
    rw [List.map_append, hall]
    rfl
  refine ⟨hmap ▸ List.prefix_rfl, .inl hmap, ?_⟩
  cases output with
  | none =>
    left
    rw [statsOf_drop]
    exact hroom.le
  | some m =>
    right
    refine ⟨m, by simp [outputs_concat], ?_⟩
    rw [statsOf_rewrite]
    exact Nat.add_le_add_right hroom.le _

end Progress

/-- **The invariant of a cycle.** The segments of the visited cohorts are gone, with their files. All others
are as they were, and behind them in the manifest stand those that were written, each with the survivors of
its cohort. -/
structure CycleInv (X : Externals) (c : Compactor) (now : ℤ) (segs : List SegmentMeta) (fs : Fs)
    (visits : List Visit) (next : SegmentId) (segs' : List SegmentMeta) (fs' : Fs) : Prop where
  segments : segs' = (segs.filter fun m => m.segmentId ∉ goneIds visits) ++ outputs visits
  listed : ∀ id ∈ goneIds visits, ∃ m ∈ segs, m.segmentId = id
  gone : ∀ id ∈ goneIds visits, fs'.segs id = {}
  kept : ∀ m ∈ segs, m.segmentId ∉ goneIds visits → fs'.segs m.segmentId = fs.segs m.segmentId
  dead : ∀ v ∈ visits, v.output = none → v.cohort.isFullyExpired = true ∨
    survivors c.cohortWindowSecs now (mergedEntries fs v.cohort.segmentIds) = []
  written : ∀ v ∈ visits, ∀ m ∈ v.output, SegmentWritten X c.cohortWindowSecs
    (survivors c.cohortWindowSecs now (mergedEntries fs v.cohort.segmentIds)) m (fs'.segs m.segmentId)
  fresh : ∀ m ∈ outputs visits, m.segmentId < next ∧ ∀ m' ∈ segs, m'.segmentId < m.segmentId
  next : ∀ m ∈ segs, m.segmentId < next

theorem CycleInv.start {segs : List SegmentMeta} {next : SegmentId}
    (h : ∀ m ∈ segs, m.segmentId < next) : CycleInv X c now segs fs [] next segs fs where
  segments := by simp [goneIds, outputs]
  listed := by simp [goneIds]
  gone := by simp [goneIds]
  kept _ _ _ := rfl
  dead := by simp
  written := by simp
  fresh := by simp [outputs]
  next := h

/-- **A visit keeps the invariant.** -/
theorem CycleInv.step {segs segs' segs'' : List SegmentMeta} {fs'' : Fs} {visits : List Visit} {v : Visit}
    {next next' : SegmentId} (h : CycleInv X c now segs fs visits next segs' fs')
    (hv : Worked X c now next v segs' segs'' fs' fs'')
    (hsub : ∀ id ∈ v.cohort.segmentIds, ∃ m ∈ segs, m.segmentId = id)
    (hdisj : ∀ id ∈ v.cohort.segmentIds, id ∉ goneIds visits) (hnext : next ≤ next')
    (hout : v.output ≠ none → next < next') :
    CycleInv X c now segs fs (visits ++ [v]) next' segs'' fs'' := by
  -- the new segment is none of the old ones, nor one of those written before
  have hnew : ∀ m ∈ v.output, m.segmentId = next := fun m hm => (hv.written m hm).1
  have hold : ∀ m ∈ segs, ∀ m' ∈ v.output, m.segmentId ≠ m'.segmentId := by
    intro m hm m' hm'
    rw [hnew m' hm']
    exact (h.next m hm).ne
  have hbefore : ∀ m ∈ outputs visits, fs''.segs m.segmentId = fs'.segs m.segmentId := by
    intro m hm
    obtain ⟨hlt, hgt⟩ := h.fresh m hm
    refine hv.rest _ (fun hmem => ?_) fun m' hm' => ?_
    · obtain ⟨m', hm', heq⟩ := hsub _ hmem
      exact (heq ▸ hgt m' hm').ne rfl
    · rw [hnew m' hm']
      exact hlt.ne
  have hmerged : mergedEntries fs' v.cohort.segmentIds = mergedEntries fs v.cohort.segmentIds := by
    refine mergedEntries_congr fun id hid => ?_
    obtain ⟨m, hm, rfl⟩ := hsub id hid
    exact h.kept m hm (hdisj _ hid)
  have hstays : ∀ m : SegmentMeta, (∀ m' ∈ segs, m'.segmentId < m.segmentId) →
      m.segmentId ∉ v.cohort.segmentIds := by
    intro m hm hmem
    obtain ⟨m', hm', heq⟩ := hsub _ hmem
    exact (heq ▸ hm m' hm').ne rfl
  constructor
  case segments =>
    rw [hv.segments, h.segments, goneIds_concat, outputs_concat, List.append_assoc, List.filter_append,
      List.filter_filter]
    congr 1
    · apply List.filter_congr
      intro m _
      simp [and_comm]
    · refine List.filter_eq_self.mpr fun m hm => decide_eq_true (hstays m ?_)
      rcases List.mem_append.mp hm with hm | hm
      · exact (h.fresh m hm).2
      · rw [hnew m (Option.mem_toList.mp hm)]
        exact h.next
  case listed =>
    intro id hid
    rw [goneIds_concat] at hid
    exact (List.mem_append.mp hid).elim (h.listed id) (hsub id)
  case gone =>
    intro id hid
    rw [goneIds_concat] at hid
    by_cases hmem : id ∈ v.cohort.segmentIds
    · exact hv.gone id hmem
    · have hid' : id ∈ goneIds visits := (List.mem_append.mp hid).resolve_right hmem
      obtain ⟨m, hm, rfl⟩ := h.listed id hid'
      rw [hv.rest _ hmem (hold m hm)]
      exact h.gone _ hid'
  case kept =>
    intro m hm hmem
    rw [goneIds_concat, List.mem_append, not_or] at hmem
    rw [hv.rest _ hmem.2 (hold m hm)]
    exact h.kept m hm hmem.1
  case dead =>
    intro v' hv' hnone
    rcases List.mem_append.mp hv' with hv' | hv'
    · exact h.dead v' hv' hnone
    · rw [List.mem_singleton.mp hv'] at hnone ⊢
      rw [← hmerged]
      exact hv.dead hnone
  case written =>
    intro v' hv' m hm
    rcases List.mem_append.mp hv' with hv' | hv'
    · rw [hbefore m (mem_outputs.mpr ⟨v', hv', hm⟩)]
      exact h.written v' hv' m hm
    · rw [List.mem_singleton.mp hv'] at hm ⊢
      rw [← hmerged]
      exact (hv.written m hm).2
  case fresh =>
    intro m hm
    rw [outputs_concat] at hm
    rcases List.mem_append.mp hm with hm | hm
    · exact ⟨(h.fresh m hm).1.trans_le hnext, (h.fresh m hm).2⟩
    · have hm' := Option.mem_toList.mp hm
      rw [hnew m hm']
      exact ⟨hout fun hnone => by simp [hnone] at hm', h.next⟩
  case next => exact fun m hm => (h.next m hm).trans_le hnext

namespace Compactor

variable {segs : List SegmentMeta} {m : Manifest} {clock : ℕ → ℕ} {pinned : List SegmentId}
  {visits : List Visit} {cohort : CohortInfo} {before : List CohortInfo}

/-- **One cohort** of a cycle. -/
theorem wp_compactCohort_visits {acc : CompactionStats × SegmentId}
    (hsegs : ∀ sm ∈ segs, Compactable X c sm (fs.segs sm.segmentId))
    (hspared : ∀ id ∈ spared, id ∈ pinned ∧ ∃ sm ∈ segs, sm.segmentId = id)
    (hstats : acc.1 = statsOf visits) (hp : Progress c before visits)
    (h : CycleInv X c now segs fs visits acc.2 m.segments fs')
    (hfree : ∀ id ∈ cohort.segmentIds, id ∉ pinned)
    (hsub : ∀ id ∈ cohort.segmentIds, ∃ sm ∈ segs, sm.segmentId = id)
    (hdisj : ∀ id ∈ cohort.segmentIds, id ∉ goneIds visits) :
    Prog.wp (c.compactCohort (X := X) now pinned acc cohort)
      (sparing spared fun acc' q fs'' => ∃ visits', acc'.1 = statsOf visits' ∧
        Progress c (before ++ [cohort]) visits' ∧
        CycleInv X c now segs fs visits' acc'.2 q.state.segments fs'') ⟨m, clock⟩ fs' := by
  obtain ⟨stats, next⟩ := acc
  obtain rfl : stats = statsOf visits := hstats
  have hcohort : ∀ id ∈ cohort.segmentIds, id ∉ spared := fun id hid hs =>
    hfree id hid (hspared id hs).1
  have hnext : ∀ id, (∃ sm ∈ segs, sm.segmentId = id) → next ≠ id := by
    rintro _ ⟨sm, hsm, rfl⟩
    exact (h.next sm hsm).ne'
  simp only [compactCohort, Prog.wp_ite, Prog.wp_pure, Prog.wp_bind]
  split
  case isTrue hfull => exact ⟨visits, rfl, hp.skip hfull, h⟩
  case isFalse hroom =>
    have hvisit := hp.visit (not_le.mp hroom) cohort
    split
    case isTrue hany =>
      obtain ⟨id, hid, hpin⟩ := List.any_eq_true.mp hany
      exact absurd (of_decide_eq_true hpin) (hfree id hid)
    case isFalse =>
      split
      case isTrue hexpired =>
        refine Prog.wp_imp (wp_dropCohort_worked c now next hcohort (.inl hexpired)) ?_ (fun _ _ _ h => h)
        rintro _ q fs'' ⟨rfl, hw⟩
        exact ⟨_, rfl, hvisit none, h.step hw hsub hdisj le_rfl fun hne => absurd rfl hne⟩
      case isFalse =>
        have hcompactable : ∀ id ∈ cohort.segmentIds, ∃ sm, Compactable X c sm (fs'.segs id) := by
          intro id hid
          obtain ⟨sm, hsm, rfl⟩ := hsub id hid
          exact ⟨sm, h.kept sm hsm (hdisj _ hid) ▸ hsegs sm hsm⟩
        refine Prog.wp_imp (wp_compactPartialCohort_worked hcohort
          ⟨fun hmem => hnext next (hsub next hmem) rfl, fun hs => hnext next (hspared next hs).2 rfl⟩
          hcompactable) ?_ (fun _ _ _ h => h)
        rintro _ q fs'' ⟨output, rfl, hw⟩
        exact ⟨_, rfl, hvisit output,
          h.step hw hsub hdisj (Nat.le_succ _) fun _ => Nat.lt_succ_self _⟩

/-- **A compaction cycle** visits the cohorts of the unpinned segments, up to its budget. -/
theorem wp_compactCycle_visits {order : HashOrder}
    (hnodup : (m.segments.map SegmentMeta.segmentId).Nodup)
    (hsegs : ∀ sm ∈ m.segments, Compactable X c sm (fs.segs sm.segmentId))
    (hspared : ∀ id ∈ spared, id ∈ pinned ∧ ∃ sm ∈ m.segments, sm.segmentId = id) :
    Prog.wp (c.compactCycle (X := X) order now pinned)
      (sparing spared fun stats q fs' => ∃ visits next, stats = statsOf visits ∧
        Progress c (identifyCohorts order (m.segments.filter fun sm => sm.segmentId ∉ pinned) now)
          visits ∧
        CycleInv X c now m.segments fs visits next q.state.segments fs') ⟨m, clock⟩ fs := by
  simp only [compactCycle, Prog.wp_bind, Exec.wp_get, Prog.wp_pure]
  set segments := m.segments.filter fun sm => sm.segmentId ∉ pinned with hsegments
  set cohorts := identifyCohorts order segments now with hcohorts
  obtain ⟨hdisj, hmem⟩ := nodup_identifyCohorts order now
    (hnodup.sublist (List.filter_sublist.map _) : (segments.map SegmentMeta.segmentId).Nodup)
  have hlisted : ∀ cohort ∈ cohorts, ∀ id ∈ cohort.segmentIds,
      id ∉ pinned ∧ ∃ sm ∈ m.segments, sm.segmentId = id := by
    intro cohort hcohort id hid
    obtain ⟨sm, hsm, rfl⟩ := List.mem_map.mp (hmem cohort hcohort id hid)
    obtain ⟨hsm, hpin⟩ := List.mem_filter.mp hsm
    exact ⟨of_decide_eq_true hpin, sm, hsm, rfl⟩
  refine Prog.wp_foldlM (fun rest acc q (d : Fs) => ∃ before visits, before ++ rest = cohorts ∧
      acc.1 = statsOf visits ∧ Progress c before visits ∧
      CycleInv X c now m.segments fs visits acc.2 q.state.segments d) ?step ?done cohorts _
    ⟨[], [], rfl, rfl, .start c, .start fun sm hsm =>
      Nat.lt_succ_of_le (le_maxOr (List.mem_map_of_mem hsm))⟩
  case step =>
    rintro cohort rest acc ⟨m', clock'⟩ d ⟨before, visits, hall, hstats, hp, hinv⟩
    have hcohort : cohort ∈ cohorts := by simp [← hall]
    refine Prog.wp_imp (wp_compactCohort_visits hsegs hspared hstats hp hinv
      (fun id hid => (hlisted cohort hcohort id hid).1)
      (fun id hid => (hlisted cohort hcohort id hid).2) fun id hid hgone => ?_) ?_ (fun _ _ _ h => h)
    · -- the visited cohorts are among those before, which share no segment with this one
      obtain ⟨v, hv, hid'⟩ := List.mem_flatMap.mp hgone
      have hv' : v.cohort ∈ before := hp.initial.subset (List.mem_map_of_mem hv)
      rw [← hcohorts, ← hall, List.flatMap_append, List.flatMap_cons] at hdisj
      exact (List.nodup_append.mp hdisj).2.2 id (List.mem_flatMap.mpr ⟨_, hv', hid'⟩) id
        (List.mem_append_left _ hid) rfl
    · rintro acc' q d' ⟨visits', hstats', hp', hinv'⟩
      exact ⟨before ++ [cohort], visits', by simp [← hall], hstats', hp', hinv'⟩
  case done =>
    rintro acc ⟨m', clock'⟩ d ⟨before, visits, hall, hstats, hp, hinv⟩
    obtain rfl : before = cohorts := by simpa using hall
    exact ⟨visits, acc.2, hstats, hp, hinv⟩

end Compactor
