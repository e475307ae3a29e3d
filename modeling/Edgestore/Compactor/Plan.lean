import Edgestore.Compactor.Survival
import Mathlib.Data.List.Induction
import Mathlib.Data.List.Pairwise

/-!
# What a cycle leaves of a key

What a cycle does can be told from the directory beforehand. It gets to the cohorts in their order until what it
has written reaches the budget, and what it writes for a cohort is told by the segments of the cohort. So are the
records of a key that are left: those of the segments that the cycle leaves alone, and behind them one for each
cohort whose newest record of the key outlives compaction.

## Main definitions

* `rewrittenRecord`: the record of a key that a cycle writes for a cohort
* `reachedCohorts`: the cohorts that a cycle gets to
* `recordsLeft`: the records of a key that it leaves
* `Spared`: the cohort of a record is rewritten with it
* `StaysLast`: the record of a key that was registered last is so afterwards

## Main results

* `CohortRuns.recordsOf_eq`: a cycle leaves these records
* `mem_recordsLeft_iff`: the latest record of a key is left if and only if a segment with it is left alone or it is
  spared
-/

variable {X : Externals} {fs fs' : Fs} {c : Compactor} {now : ℤ} {pinned : List SegmentId} {cohort : CohortInfo}
  {cohorts reached : List CohortInfo} {k : Bytes} {r : MemEntry} {n n' : ℕ}

/-- The record of a key that a cycle writes for a cohort. -/
def rewrittenRecord (c : Compactor) (now : ℤ) (fs : Fs) (cohort : CohortInfo) (k : Bytes) : Option MemEntry :=
  if cohort.isFullyExpired then none
  else ((mergedEntries fs cohort.segmentIds).get k).filter (outlives c.cohortWindowSecs now)

/-- The size of the segment that a cycle writes for a cohort. -/
def rewrittenBytes (X : Externals) (c : Compactor) (now : ℤ) (fs : Fs) (cohort : CohortInfo) : ℕ :=
  let entries := survivors c.cohortWindowSecs now (mergedEntries fs cohort.segmentIds)
  if cohort.isFullyExpired = true ∨ entries = [] then 0 else (writeDatAndIndex X entries).compressedTotal

/-- The cohorts that a cycle gets to before it has written its budget. -/
def reachedCohorts (X : Externals) (c : Compactor) (now : ℤ) (fs : Fs) : ℕ → List CohortInfo → List CohortInfo
  | _, [] => []
  | written, cohort :: rest =>
    if c.writeBudgetBytes ≤ written then []
    else cohort :: reachedCohorts X c now fs (written + rewrittenBytes X c now fs cohort) rest

/-- The segments in none of some cohorts. -/
def leftAlone (X : Externals) (fs : Fs) (reached : List CohortInfo) : List SegmentId :=
  (registeredIds X fs).filter fun id => id ∉ reached.flatMap CohortInfo.segmentIds

/-- The records of a key that a cycle leaves: those of the segments that it leaves alone, and behind them those that
it writes. -/
def recordsLeft (X : Externals) (c : Compactor) (now : ℤ) (fs : Fs) (reached : List CohortInfo) (k : Bytes) :
    List MemEntry :=
  recordsIn fs (leftAlone X fs reached) k ++ reached.filterMap fun cohort => rewrittenRecord c now fs cohort k

/-! ### The cohorts that are reached -/

theorem reachedCohorts_isInitial (X : Externals) (c : Compactor) (now : ℤ) (fs : Fs) (n : ℕ)
    (cohorts : List CohortInfo) : reachedCohorts X c now fs n cohorts <+: cohorts := by
  induction cohorts generalizing n with
  | nil => exact List.prefix_rfl
  | cons cohort rest ih =>
    rw [reachedCohorts]
    split
    · exact List.nil_prefix
    · exact (List.prefix_cons_inj cohort).mpr (ih _)

/-- With its budget spent, a cycle gets to no cohort. -/
theorem reachedCohorts_of_le (h : c.writeBudgetBytes ≤ n) (cohorts : List CohortInfo) :
    reachedCohorts X c now fs n cohorts = [] := by
  cases cohorts with
  | nil => rfl
  | cons cohort rest => exact if_pos h

theorem reachedCohorts_congr (h : ∀ cohort ∈ cohorts, ∀ id ∈ cohort.segmentIds, fs'.segs id = fs.segs id) (n : ℕ) :
    reachedCohorts X c now fs' n cohorts = reachedCohorts X c now fs n cohorts := by
  induction cohorts generalizing n with
  | nil => rfl
  | cons cohort rest ih =>
    have hbytes : rewrittenBytes X c now fs' cohort = rewrittenBytes X c now fs cohort := by
      rw [rewrittenBytes, rewrittenBytes, mergedEntries_congr (h cohort List.mem_cons_self)]
    rw [reachedCohorts, reachedCohorts, hbytes, ih fun cohort' hc => h cohort' (List.mem_cons_of_mem _ hc)]

theorem rewrittenRecord_congr (h : ∀ id ∈ cohort.segmentIds, fs'.segs id = fs.segs id) (k : Bytes) :
    rewrittenRecord c now fs' cohort k = rewrittenRecord c now fs cohort k := by
  rw [rewrittenRecord, rewrittenRecord, mergedEntries_congr h]

theorem CohortsWf.of_prefix (h : CohortsWf X fs cohorts) (hp : reached <+: cohorts) : CohortsWf X fs reached := by
  obtain ⟨rest, rfl⟩ := hp
  obtain ⟨hnodup, hreg⟩ := h
  rw [List.flatMap_append] at hnodup
  exact ⟨(List.nodup_append.mp hnodup).1, fun cohort hc => hreg cohort (List.mem_append_left _ hc)⟩

/-- No segment is in two cohorts. -/
theorem CohortsWf.eq_of_mem (h : CohortsWf X fs reached) {cohort' : CohortInfo} (hc : cohort ∈ reached)
    (hc' : cohort' ∈ reached) {id : SegmentId} (hid : id ∈ cohort.segmentIds) (hid' : id ∈ cohort'.segmentIds) :
    cohort = cohort' := by
  have : Std.Symm (Function.onFun List.Disjoint CohortInfo.segmentIds) := ⟨fun _ _ h => List.Disjoint.symm h⟩
  by_contra hne
  exact (List.nodup_flatMap.mp h.nodup).2.forall hc hc' hne hid hid'

/-! ### The records that are left -/

theorem recordsIn_append (fs : Fs) (ids ids' : List SegmentId) (k : Bytes) :
    recordsIn fs (ids ++ ids') k = recordsIn fs ids k ++ recordsIn fs ids' k := List.filterMap_append

theorem recordsIn_congr {ids : List SegmentId} (h : ∀ id ∈ ids, fs'.segs id = fs.segs id) (k : Bytes) :
    recordsIn fs' ids k = recordsIn fs ids k :=
  List.filterMap_congr fun id hid => by rw [h id hid]

/-- Without a cohort everything is left. -/
theorem recordsLeft_nil (X : Externals) (c : Compactor) (now : ℤ) (fs : Fs) (k : Bytes) :
    recordsLeft X c now fs [] k = recordsOf X fs k := by
  have hall : leftAlone X fs [] = registeredIds X fs :=
    List.filter_eq_self.mpr fun _ _ => decide_eq_true List.not_mem_nil
  rw [recordsLeft, hall, List.filterMap_nil, List.append_nil, ← recordsOf_eq]

/-- What is left by one cohort and those behind it. Its segments are gone, and what was written for it stands behind
the others. -/
theorem recordsLeft_cons (new : List SegmentId)
    (hreg : registeredIds X fs' = ((registeredIds X fs).filter fun id => id ∉ cohort.segmentIds) ++ new)
    (hsegs : ∀ id ∈ registeredIds X fs, id ∉ cohort.segmentIds → fs'.segs id = fs.segs id)
    (hnew : ∀ id ∈ new, id ∉ registeredIds X fs)
    (hrecord : recordsIn fs' new k = (rewrittenRecord c now fs cohort k).toList)
    (hwf : CohortsWf X fs (cohort :: reached)) :
    recordsLeft X c now fs' reached k = recordsLeft X c now fs (cohort :: reached) k := by
  have hdisj : ∀ cohort' ∈ reached, ∀ id ∈ cohort'.segmentIds, id ∉ cohort.segmentIds := by
    intro cohort' hc id hid hmem
    have hnodup := hwf.nodup
    rw [List.flatMap_cons] at hnodup
    exact (List.nodup_append.mp hnodup).2.2 id hmem id (List.mem_flatMap.mpr ⟨cohort', hc, hid⟩) rfl
  have hreached : ∀ cohort' ∈ reached, ∀ id ∈ cohort'.segmentIds, id ∈ registeredIds X fs := fun cohort' hc =>
    hwf.registered cohort' (List.mem_cons_of_mem _ hc)
  have halone : leftAlone X fs' reached = leftAlone X fs (cohort :: reached) ++ new := by
    have hstays : (new.filter fun id => id ∉ reached.flatMap CohortInfo.segmentIds) = new := by
      refine List.filter_eq_self.mpr fun id hid => decide_eq_true fun hmem => ?_
      obtain ⟨cohort', hc, hid'⟩ := List.mem_flatMap.mp hmem
      exact hnew id hid (hreached cohort' hc id hid')
    rw [leftAlone, hreg, List.filter_append, List.filter_filter, hstays, leftAlone]
    congr 1
    apply List.filter_congr
    intro id _
    simp only [List.flatMap_cons, List.mem_append, not_or, Bool.decide_and, Bool.and_comm]
  have hkept : recordsIn fs' (leftAlone X fs (cohort :: reached)) k =
      recordsIn fs (leftAlone X fs (cohort :: reached)) k := by
    refine recordsIn_congr (fun id hid => ?_) k
    obtain ⟨hid, hout⟩ := List.mem_filter.mp hid
    have hout' := of_decide_eq_true hout
    rw [List.flatMap_cons, List.mem_append, not_or] at hout'
    exact hsegs id hid hout'.1
  have hothers : (reached.filterMap fun cohort' => rewrittenRecord c now fs' cohort' k) =
      reached.filterMap fun cohort' => rewrittenRecord c now fs cohort' k := by
    refine List.filterMap_congr fun cohort' hc => rewrittenRecord_congr (fun id hid => ?_) k
    exact hsegs id (hreached cohort' hc id hid) (hdisj cohort' hc id hid)
  rw [recordsLeft, halone, recordsIn_append, hkept, hrecord, hothers, recordsLeft, List.append_assoc]
  congr 1
  rw [List.filterMap_cons]
  cases rewrittenRecord c now fs cohort k <;> rfl

/-- A cohort that is dropped has no record that is written. -/
theorem rewrittenRecord_of_dead (h : cohort.isFullyExpired = true ∨
    survivors c.cohortWindowSecs now (mergedEntries fs cohort.segmentIds) = []) (k : Bytes) :
    rewrittenRecord c now fs cohort k = none := by
  rcases h with hexpired | hnil
  · exact if_pos hexpired
  · rw [rewrittenRecord]
    split
    · rfl
    · rw [← find_survivors, hnil]
      rfl

/-- **What a cycle leaves** of the records of a key. -/
theorem CohortRuns.recordsOf_eq (h : CohortRuns X c now pinned cohorts n fs n' fs') (hd : DiskInv X fs)
    (hwf : CohortsWf X fs cohorts) (hfree : ∀ cohort ∈ cohorts, ∀ id ∈ cohort.segmentIds, id ∉ pinned) (k : Bytes) :
    recordsOf X fs' k = recordsLeft X c now fs (reachedCohorts X c now fs n cohorts) k := by
  induction h with
  | nil => exact (recordsLeft_nil X c now _ k).symm
  | @cons cohort rest n n₁ n₂ fs fs₁ fs₂ head disk _ ih =>
    have hrest := ih disk (hwf.step head.step) fun cohort' hc => hfree cohort' (List.mem_cons_of_mem _ hc)
    have hreg := hwf.registered cohort List.mem_cons_self
    have hwf' : ∀ n, CohortsWf X fs (cohort :: reachedCohorts X c now fs n rest) := fun n =>
      hwf.of_prefix ((List.prefix_cons_inj cohort).mpr (reachedCohorts_isInitial X c now fs n rest))
    -- what is left alone by the cohort does not change what becomes of the others
    have hcongr : (∀ id ∈ registeredIds X fs, id ∉ cohort.segmentIds → fs₁.segs id = fs.segs id) → ∀ n,
        reachedCohorts X c now fs₁ n rest = reachedCohorts X c now fs n rest := by
      intro hsegs
      refine reachedCohorts_congr fun cohort' hc id hid => hsegs id ?_ ?_
      · exact hwf.registered cohort' (List.mem_cons_of_mem _ hc) id hid
      · intro hmem
        have hnodup := hwf.nodup
        rw [List.flatMap_cons] at hnodup
        exact (List.nodup_append.mp hnodup).2.2 id hmem id (List.mem_flatMap.mpr ⟨cohort', hc, hid⟩) rfl
    cases head with
    | skip passed =>
      rcases passed with hspent | ⟨id, hid, hpin⟩
      · rw [reachedCohorts_of_le hspent] at hrest ⊢
        exact hrest
      · exact absurd hpin (hfree cohort List.mem_cons_self id hid)
    | drop room _ dead h =>
      have hsegs : ∀ id ∈ registeredIds X fs, id ∉ cohort.segmentIds → fs₁.segs id = fs.segs id :=
        fun id _ hout => h.segs id hout
      have hbytes : rewrittenBytes X c now fs cohort = 0 := if_pos dead
      rw [hrest, hcongr hsegs, reachedCohorts, if_neg (not_le.mpr room), hbytes]
      refine recordsLeft_cons [] ?_ hsegs (fun _ hid => by cases hid) ?_ (hwf' _)
      · rw [registeredIds_of_dropped h, List.append_nil]
      · rw [rewrittenRecord_of_dead dead]
        rfl
    | @rewrite _ m room _ due survive h =>
      have hsegs : ∀ id ∈ registeredIds X fs, id ∉ cohort.segmentIds → fs₁.segs id = fs.segs id :=
        fun id hid hout => h.segs id hout fun heq => h.fresh (heq ▸ hid)
      have hbytes : rewrittenBytes X c now fs cohort = m.compressedBytes := by
        obtain ⟨bucket, nanos, hm⟩ := h.flushed.made
        refine (if_neg fun hor => ?_).trans (congrArg SegmentMeta.compressedBytes hm).symm
        rcases hor with hexpired | hnil
        · rw [due] at hexpired
          cases hexpired
        · exact survive hnil
      rw [hrest, hcongr hsegs, reachedCohorts, if_neg (not_le.mpr room), hbytes]
      refine recordsLeft_cons [m.segmentId] ?_ hsegs (fun id hid => ?_) ?_ (hwf' _)
      · have hout : m.segmentId ∉ cohort.segmentIds := fun hmem => h.fresh (hreg _ hmem)
        rw [registeredIds_of_rewritten h, List.filter_append, List.filter_singleton, decide_eq_true hout]
        rfl
      · rw [List.mem_singleton.mp hid]
        exact h.fresh
      · rw [rewrittenRecord, due, if_neg Bool.false_ne_true, ← find_rewritten hd hreg h]
        show (List.filterMap _ [m.segmentId]) = _
        rw [List.filterMap_cons, List.filterMap_nil]
        cases find (fs₁.segs m.segmentId).table k <;> rfl

/-! ### The latest record -/

/-- A record with which its cohort is rewritten: the cohort is not fully expired, and the record outlives
compaction, has an LSN, and lies below the bound of the scan. -/
structure Spared (c : Compactor) (now : ℤ) (cohort : CohortInfo) (k : Bytes) (r : MemEntry) : Prop where
  cohort : cohort.isFullyExpired = false
  outlives : outlives c.cohortWindowSecs now r = true
  pos : 0 < r.lsn
  lt : k < maxScanKey

instance (c : Compactor) (now : ℤ) (cohort : CohortInfo) (k : Bytes) (r : MemEntry) :
    Decidable (Spared c now cohort k r) :=
  decidable_of_iff (cohort.isFullyExpired = false ∧ outlives c.cohortWindowSecs now r = true ∧ 0 < r.lsn ∧
    k < maxScanKey) ⟨fun ⟨a, b, c, d⟩ => ⟨a, b, c, d⟩, fun ⟨a, b, c, d⟩ => ⟨a, b, c, d⟩⟩

/-- **When the latest record of a key is left**: a segment with it is in no cohort that is reached, or the record is
spared. -/
theorem mem_recordsLeft_iff (hd : DiskInv X fs) (hwf : CohortsWf X fs reached) (hr : IsLatest (recordsOf X fs k) r) :
    r ∈ recordsLeft X c now fs reached k ↔ ∃ id ∈ registeredIds X fs, find (fs.segs id).table k = some r ∧
      ∀ cohort ∈ reached, id ∈ cohort.segmentIds → Spared c now cohort k r := by
  rw [recordsLeft, List.mem_append]
  constructor
  · rintro (halone | hwritten)
    · obtain ⟨id, hid, hfind⟩ := List.mem_filterMap.mp halone
      obtain ⟨hid, hout⟩ := List.mem_filter.mp hid
      refine ⟨id, hid, hfind, fun cohort hc hmem => ?_⟩
      exact absurd (List.mem_flatMap.mpr ⟨cohort, hc, hmem⟩) (of_decide_eq_true hout)
    · obtain ⟨cohort, hc, hrecord⟩ := List.mem_filterMap.mp hwritten
      have hids := hwf.registered cohort hc
      rw [rewrittenRecord] at hrecord
      split at hrecord
      case isTrue => cases hrecord
      case isFalse hdue =>
        obtain ⟨hget, hout⟩ := Option.filter_eq_some_iff.mp hrecord
        obtain ⟨hpos, hlt⟩ := bounds_of_merged hget
        obtain ⟨id, hid, hfind⟩ :=
          List.mem_filterMap.mp (mem_recordsIn_of_merged (keySorted_of_registered hd hids) hget)
        refine ⟨id, hids id hid, hfind, fun cohort' hc' hmem => ?_⟩
        -- the segment is in no other cohort
        obtain rfl := hwf.eq_of_mem hc hc' hid hmem
        exact ⟨Bool.eq_false_of_not_eq_true hdue, hout, hpos, hlt⟩
  · rintro ⟨id, hid, hfind, hspared⟩
    by_cases hgone : id ∈ reached.flatMap CohortInfo.segmentIds
    · obtain ⟨cohort, hc, hmem⟩ := List.mem_flatMap.mp hgone
      obtain ⟨hdue, hout, hpos, hlt⟩ := hspared cohort hc hmem
      have hids := hwf.registered cohort hc
      have hget := get_mergedEntries (keySorted_of_registered hd hids)
        (hr.subset (List.mem_filterMap.mpr ⟨id, hmem, hfind⟩) (recordsIn_subset hids)) hpos hlt
      refine .inr (List.mem_filterMap.mpr ⟨cohort, hc, ?_⟩)
      rw [rewrittenRecord, hdue, if_neg Bool.false_ne_true, hget, Option.filter_some, if_pos hout]
    · exact .inl (List.mem_filterMap.mpr ⟨id, List.mem_filter.mpr ⟨hid, decide_eq_true hgone⟩, hfind⟩)

/-! ### The last record -/

/-- The record of a key that was registered last is so afterwards: it is that with which the last cohort that has a
record of the key is rewritten, or no cohort has one and it is the last in the segments that are left alone. -/
def StaysLast (X : Externals) (c : Compactor) (now : ℤ) (fs : Fs) (reached : List CohortInfo) (k : Bytes) : Prop :=
  (∃ before cohort after, reached = before ++ cohort :: after ∧
      rewrittenRecord c now fs cohort k = (recordsOf X fs k).getLast? ∧
      ∀ cohort' ∈ after, rewrittenRecord c now fs cohort' k = none) ∨
    (∀ cohort ∈ reached, rewrittenRecord c now fs cohort k = none) ∧
      (recordsIn fs (leftAlone X fs reached) k).getLast? = (recordsOf X fs k).getLast?

/-- The end of a list behind which stands what is picked from another one. -/
theorem getLast?_append_filterMap {α β : Type} {f : α → Option β} {l : List β} {as : List α} {b : β} :
    (l ++ as.filterMap f).getLast? = some b ↔
      (∃ before a after, as = before ++ a :: after ∧ f a = some b ∧ ∀ a' ∈ after, f a' = none) ∨
        (∀ a ∈ as, f a = none) ∧ l.getLast? = some b := by
  induction as using List.reverseRecOn with
  | nil => simp
  | append_singleton as a ih =>
    rw [List.filterMap_append]
    cases hf : f a with
    | none =>
      have hnil : [a].filterMap f = [] := by rw [List.filterMap_cons, hf, List.filterMap_nil]
      rw [hnil, List.append_nil, ih]
      constructor
      · rintro (⟨before, a', after, rfl, ha', hafter⟩ | ⟨hall, hlast⟩)
        · refine .inl ⟨before, a', after ++ [a], by simp, ha', fun x hx => ?_⟩
          rcases List.mem_append.mp hx with hx | hx
          · exact hafter x hx
          · rw [List.mem_singleton.mp hx, hf]
        · refine .inr ⟨fun x hx => ?_, hlast⟩
          rcases List.mem_append.mp hx with hx | hx
          · exact hall x hx
          · rw [List.mem_singleton.mp hx, hf]
      · rintro (⟨before, a', after, heq, ha', hafter⟩ | ⟨hall, hlast⟩)
        · rcases List.eq_nil_or_concat after with rfl | ⟨after, x, rfl⟩
          · obtain ⟨-, heq⟩ := List.append_inj' heq rfl
            cases heq
            rw [hf] at ha'
            cases ha'
          · rw [List.concat_eq_append, ← List.cons_append, ← List.append_assoc] at heq
            obtain ⟨heq, -⟩ := List.append_inj' heq rfl
            exact .inl ⟨before, a', after, heq, ha', fun y hy => hafter y (by simp [hy])⟩
        · exact .inr ⟨fun x hx => hall x (List.mem_append_left _ hx), hlast⟩
    | some b' =>
      have hone : [a].filterMap f = [b'] := by rw [List.filterMap_cons, hf, List.filterMap_nil]
      rw [hone, ← List.append_assoc, List.getLast?_concat]
      constructor
      · intro h
        exact .inl ⟨as, a, [], rfl, hf.trans h, fun _ hx => by cases hx⟩
      · rintro (⟨before, a', after, heq, ha', hafter⟩ | ⟨hall, -⟩)
        · rcases List.eq_nil_or_concat after with rfl | ⟨after, x, rfl⟩
          · obtain ⟨-, heq⟩ := List.append_inj' heq rfl
            cases heq
            exact hf.symm.trans ha'
          · rw [List.concat_eq_append, ← List.cons_append, ← List.append_assoc] at heq
            obtain ⟨-, heq⟩ := List.append_inj' heq rfl
            cases heq
            rw [hafter a (by simp)] at hf
            cases hf
        · rw [hall a (by simp)] at hf
          cases hf

/-- What `StaysLast` says of the records that are left. -/
theorem staysLast_iff (hne : recordsOf X fs k ≠ []) :
    StaysLast X c now fs reached k ↔
      (recordsLeft X c now fs reached k).getLast? = (recordsOf X fs k).getLast? := by
  obtain ⟨last, hlast⟩ := Option.ne_none_iff_exists'.mp (mt List.getLast?_eq_none_iff.mp hne)
  rw [StaysLast, hlast, recordsLeft, getLast?_append_filterMap]
