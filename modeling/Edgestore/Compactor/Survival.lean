import Edgestore.Compactor.Spec
import Edgestore.Segment.Reads

/-!
# Records through a compaction

A compaction invents no records. What it writes for a cohort holds, for every key, the newest record of the key
in the segments of the cohort, if that outlives compaction.

## Main definitions

* `IsLatest l r`: the only record of a list with the highest LSN
* `CohortsWf`: cohorts of registered segments, none of which is in two of them

## Main results

* `mem_recordsIn_of_merged`, `get_mergedEntries`: what the merge of a cohort holds for a key
* `CohortSteps.recordsOf_subset`: a compaction invents no records
-/

variable {X : Externals} {fs fs' : Fs} {k : Bytes} {r : MemEntry} {ids : List SegmentId}
  {c : Compactor} {now : ℤ} {pinned : List SegmentId} {cohort : CohortInfo}

/-- The only record with the highest LSN. -/
def IsLatest (l : List MemEntry) (r : MemEntry) : Prop := r ∈ l ∧ ∀ e ∈ l, e.lsn < r.lsn ∨ e = r

theorem IsLatest.eq_of_isNewest {l : List MemEntry} {e : MemEntry} (h : IsLatest l r)
    (he : IsNewest l e) : e = r :=
  (h.2 e he.1).resolve_left (not_lt.mpr (he.2 r h.1))

theorem IsLatest.subset {l l' : List MemEntry} (h : IsLatest l r) (hr : r ∈ l')
    (hsub : ∀ e ∈ l', e ∈ l) : IsLatest l' r := ⟨hr, fun e he => h.2 e (hsub e he)⟩

/-! ### The merge of a cohort -/

theorem get_mergeEntry (m : MemTable) (p : Bytes × MemEntry) (k : Bytes) :
    (mergeEntry m p).get k =
      if p.1 = k ∧ p.2.lsn > ((m.get k).map MemEntry.lsn).getD 0 then some p.2 else m.get k := by
  rw [mergeEntry]
  by_cases hk : p.1 = k
  · subst hk
    split <;> simp_all
  · split
    · rw [SortedMap.get_insert, if_neg hk, if_neg (by simp [hk])]
    · rw [if_neg (by simp [hk])]

/-- What is merged was there. -/
theorem mem_of_foldl_mergeEntry {l : List (Bytes × MemEntry)} {m : MemTable} {e : MemEntry}
    (h : (l.foldl mergeEntry m).get k = some e) : m.get k = some e ∨ (k, e) ∈ l := by
  induction l generalizing m with
  | nil => exact .inl h
  | cons p l ih =>
    rcases ih h with hm | hl
    · rw [get_mergeEntry] at hm
      split at hm
      case isTrue hp =>
        cases hm
        exact .inr (hp.1 ▸ List.mem_cons_self)
      case isFalse => exact .inl hm
    · exact .inr (List.mem_cons_of_mem _ hl)

/-- What is merged is outdone only by a higher LSN. -/
theorem exists_foldl_mergeEntry {l : List (Bytes × MemEntry)} {m : MemTable} {e : MemEntry}
    (h : m.get k = some e ∨ (k, e) ∈ l ∧ 0 < e.lsn) :
    ∃ e', (l.foldl mergeEntry m).get k = some e' ∧ e.lsn ≤ e'.lsn := by
  induction l generalizing m e with
  | nil =>
    rcases h with h | h
    · exact ⟨e, h, le_rfl⟩
    · simp at h
  | cons p l ih =>
    -- the entry is at hand before `p` is merged, is `p` itself, or is still to come
    have hstep : ∃ e', e.lsn ≤ e'.lsn ∧ ((mergeEntry m p).get k = some e' ∨ (k, e') ∈ l ∧ 0 < e'.lsn) := by
      rw [get_mergeEntry]
      rcases h with h | ⟨hmem, hpos⟩
      · rw [h]
        split
        case isTrue hp => exact ⟨p.2, le_of_lt hp.2, .inl rfl⟩
        case isFalse => exact ⟨e, le_rfl, .inl rfl⟩
      · rcases List.mem_cons.mp hmem with rfl | hmem
        · cases hm : m.get k with
          | none => exact ⟨e, le_rfl, .inl (if_pos ⟨rfl, hpos⟩)⟩
          | some e' =>
            by_cases hlt : e'.lsn < e.lsn
            · exact ⟨e, le_rfl, .inl (if_pos ⟨rfl, hlt⟩)⟩
            · exact ⟨e', not_lt.mp hlt, .inl (if_neg fun hp => hlt hp.2)⟩
        · exact ⟨e, le_rfl, .inr ⟨hmem, hpos⟩⟩
    obtain ⟨e', hle, h'⟩ := hstep
    obtain ⟨e'', hget, hle'⟩ := ih h'
    exact ⟨e'', hget, hle.trans hle'⟩

/-- The merge holds only records of its segments. -/
theorem mem_recordsIn_of_merged (hs : ∀ id ∈ ids, KeySorted (fs.segs id).table) {e : MemEntry}
    (h : (mergedEntries fs ids).get k = some e) : e ∈ recordsIn fs ids k := by
  rcases mem_of_foldl_mergeEntry h with h | h
  · simp at h
  · obtain ⟨id, hid, hmem⟩ := List.mem_flatMap.mp h
    exact List.mem_filterMap.mpr ⟨id, hid, (hs id hid).find_eq_some_iff.mpr (List.mem_filter.mp hmem).1⟩

/-- The merge holds the latest record of its segments. -/
theorem get_mergedEntries (hs : ∀ id ∈ ids, KeySorted (fs.segs id).table)
    (hr : IsLatest (recordsIn fs ids k) r) (hpos : 0 < r.lsn) (hk : k < maxScanKey) :
    (mergedEntries fs ids).get k = some r := by
  obtain ⟨id, hid, hfind⟩ := List.mem_filterMap.mp hr.1
  have hmem : (k, r) ∈ ids.flatMap fun id => within [] maxScanKey (fs.segs id).table := by
    refine List.mem_flatMap.mpr ⟨id, hid, List.mem_filter.mpr ⟨mem_of_find hfind, ?_⟩⟩
    have : ([] : Bytes) ≤ k := not_lt.mp (List.not_lt_nil k)
    simpa using ⟨this, hk⟩
  obtain ⟨e, hget, hle⟩ := exists_foldl_mergeEntry (m := .empty) (.inr ⟨hmem, hpos⟩)
  have he := mem_recordsIn_of_merged hs hget
  rw [mergedEntries, hget, (hr.2 e he).resolve_left (not_lt.mpr hle)]

/-- What is merged has an LSN. -/
theorem pos_of_foldl_mergeEntry {l : List (Bytes × MemEntry)} {m : MemTable} {e : MemEntry}
    (h : (l.foldl mergeEntry m).get k = some e) : m.get k = some e ∨ 0 < e.lsn := by
  induction l generalizing m with
  | nil => exact .inl h
  | cons p l ih =>
    rcases ih h with hm | hpos
    · rw [get_mergeEntry] at hm
      split at hm
      case isTrue hp =>
        cases hm
        exact .inr (Nat.zero_lt_of_lt hp.2)
      case isFalse => exact .inl hm
    · exact .inr hpos

/-- What is merged has an LSN and lies below the bound of the scan. -/
theorem bounds_of_merged {e : MemEntry} (h : (mergedEntries fs ids).get k = some e) :
    0 < e.lsn ∧ k < maxScanKey := by
  constructor
  · exact (pos_of_foldl_mergeEntry h).resolve_left fun hm => by cases hm
  · rcases mem_of_foldl_mergeEntry h with hm | hl
    · cases hm
    · obtain ⟨id, -, hmem⟩ := List.mem_flatMap.mp hl
      exact (of_decide_eq_true (List.mem_filter.mp hmem).2).2

theorem find_survivors (window : ℕ) (merged : MemTable) :
    find (survivors window now merged) k = (merged.get k).filter (outlives window now) :=
  merged.sorted.find_filter _ k

/-- Records of registered segments are what is read back of them. -/
theorem DiskInv.stored (h : DiskInv X fs) {id : SegmentId} (hid : id ∈ registeredIds X fs)
    (hf : find (fs.segs id).table k = some r) : (storedEntry (k, r)).2 = r :=
  congrArg Prod.snd ((h.wf id hid).2.stored _ (mem_of_find hf))

/-! ### One cohort -/

theorem registeredIds_of_dropped (h : Dropped X ids fs fs') :
    registeredIds X fs' = (registeredIds X fs).filter fun id => id ∉ ids := by
  rw [registeredIds, h.registered, Compactor.filter_mem_registeredIds]
  rfl

theorem registeredIds_of_rewritten {window : ℕ} {entries : List (Bytes × MemEntry)} {m : SegmentMeta}
    (h : Rewritten X ids window entries m fs fs') :
    registeredIds X fs' = (registeredIds X fs ++ [m.segmentId]).filter fun id => id ∉ ids := by
  rw [registeredIds, h.registered, Compactor.filter_mem_registeredIds, List.map_append]
  rfl

variable (hd : DiskInv X fs) (hids : ∀ id ∈ cohort.segmentIds, id ∈ registeredIds X fs)
include hd hids

theorem keySorted_of_registered : ∀ id ∈ cohort.segmentIds, KeySorted (fs.segs id).table :=
  fun id hid => (hd.wf id (hids id hid)).2.sorted

omit hd in
theorem recordsIn_subset : ∀ e ∈ recordsIn fs cohort.segmentIds k, e ∈ recordsOf X fs k := by
  intro e he
  obtain ⟨id, hid, hfind⟩ := List.mem_filterMap.mp he
  exact mem_recordsOf.mpr ⟨id, hids id hid, hfind⟩

/-- What a rewritten cohort holds for a key. -/
theorem find_rewritten {m : SegmentMeta} (h : Rewritten X cohort.segmentIds c.cohortWindowSecs
      (survivors c.cohortWindowSecs now (mergedEntries fs cohort.segmentIds)) m fs fs') :
    find (fs'.segs m.segmentId).table k =
      ((mergedEntries fs cohort.segmentIds).get k).filter (outlives c.cohortWindowSecs now) := by
  rw [h.flushed.table, find_map_storedEntry, find_survivors]
  cases hget : (mergedEntries fs cohort.segmentIds).get k with
  | none => rfl
  | some e =>
    obtain ⟨id, hid, hfind⟩ :=
      List.mem_filterMap.mp (mem_recordsIn_of_merged (keySorted_of_registered hd hids) hget)
    rw [Option.filter_some]
    split
    · rw [Option.map_some, hd.stored (hids id hid) hfind]
    · rfl

/-- Compacting a cohort invents no records. -/
theorem CohortStep.recordsOf_subset (h : CohortStep X c now pinned cohort fs fs') :
    ∀ e ∈ recordsOf X fs' k, e ∈ recordsOf X fs k := by
  intro e he
  obtain ⟨id, hid, hfind⟩ := mem_recordsOf.mp he
  cases h with
  | skip => exact he
  | drop _ _ h =>
    rw [registeredIds_of_dropped h] at hid
    obtain ⟨hreg, hnot⟩ := List.mem_filter.mp hid
    rw [h.segs id (by simpa using hnot)] at hfind
    exact mem_recordsOf.mpr ⟨id, hreg, hfind⟩
  | @rewrite _ m _ h =>
    rw [registeredIds_of_rewritten h] at hid
    obtain ⟨hreg, hnot⟩ := List.mem_filter.mp hid
    by_cases hm : id = m.segmentId
    · rw [hm, find_rewritten hd hids h] at hfind
      exact recordsIn_subset hids e (mem_recordsIn_of_merged (keySorted_of_registered hd hids)
        (Option.filter_eq_some_iff.mp hfind).1)
    · rw [h.segs id (by simpa using hnot) hm] at hfind
      have hreg' : id ∈ registeredIds X fs := by simpa [hm] using hreg
      exact mem_recordsOf.mpr ⟨id, hreg', hfind⟩

omit hd hids

/-! ### All cohorts -/

/-- The cohorts still to come are made of registered segments, and no segment is in two of them. -/
structure CohortsWf (X : Externals) (fs : Fs) (cohorts : List CohortInfo) : Prop where
  nodup : (cohorts.flatMap CohortInfo.segmentIds).Nodup
  registered : ∀ cohort ∈ cohorts, ∀ id ∈ cohort.segmentIds, id ∈ registeredIds X fs

/-- Compacting a cohort leaves the others as they are. -/
theorem CohortsWf.step {rest : List CohortInfo} (h : CohortsWf X fs (cohort :: rest))
    (hstep : CohortStep X c now pinned cohort fs fs') : CohortsWf X fs' rest := by
  obtain ⟨hnodup, hreg⟩ := h
  rw [List.flatMap_cons] at hnodup
  obtain ⟨-, hrest, hdisj⟩ := List.nodup_append.mp hnodup
  refine ⟨hrest, fun cohort' hc id hid => ?_⟩
  exact Compactor.mem_registeredIds_of_step hstep (hreg cohort' (List.mem_cons_of_mem _ hc) id hid)
    fun hid' => hdisj id hid' id (List.mem_flatMap.mpr ⟨cohort', hc, hid⟩) rfl

/-- **A compaction invents no records.** -/
theorem CohortSteps.recordsOf_subset {cohorts : List CohortInfo}
    (h : CohortSteps X c now pinned cohorts fs fs') (hd : DiskInv X fs) (hc : CohortsWf X fs cohorts) :
    ∀ e ∈ recordsOf X fs' k, e ∈ recordsOf X fs k := by
  induction h with
  | nil => exact fun _ he => he
  | cons head disk _ ih =>
    exact fun e he => head.recordsOf_subset hd (hc.registered _ List.mem_cons_self) e
      (ih disk (hc.step head) e he)
