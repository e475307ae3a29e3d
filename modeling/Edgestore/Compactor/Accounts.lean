import Edgestore.Compactor.Visits
import Edgestore.PlainExternals

/-!
# What a compaction cycle accounts for

A cycle that succeeds has touched no pinned segment. Every segment in its manifest has its files, the
segments it has written hold the newest records of their cohorts, and it has left out only tombstones and
dead records. Its statistics are those of the change it has made.

## Main definitions

* `CycleAccounts`: what holds of a cycle, told by the cohorts it has visited

## Main results

* `Compactor.compactCycle_accounts`: it holds of every cycle that succeeds
-/

variable {X : Externals} {fs fs' : Fs} {c : Compactor} {now : ℤ} {pinned : List SegmentId}
  {segs segs' : List SegmentMeta} {visits : List Visit} {order : HashOrder}

/-- **What a cycle accounts for.** It has visited all cohorts, or spent its budget, and these visits make up
the change of the manifest. No effect touches a pinned segment. After the cycle every segment in the
manifest has its files, and the segments of the visited cohorts have neither files nor an entry. A segment
that was written is sorted and has one record for a key, with the highest LSN in its cohort. A key of a
visited cohort is missing only if its record with the highest LSN is a tombstone or dead. The bytes written are
those of the segments written, and exceed the budget by one segment at most; the other figures are those of the
change too. -/
structure CycleAccounts (X : Externals) (c : Compactor) (order : HashOrder) (now : ℤ)
    (pinned : List SegmentId) (segs segs' : List SegmentMeta) (fs fs' : Fs) (es : List Effect)
    (visits : List Visit) (stats : CompactionStats) : Prop where
  visited : visits.map Visit.cohort <+:
    identifyCohorts order (segs.filter fun m => m.segmentId ∉ pinned) now
  complete : c.writeBudgetBytes ≤ stats.bytesWritten ∨ visits.map Visit.cohort =
    identifyCohorts order (segs.filter fun m => m.segmentId ∉ pinned) now
  segments : segs' = (segs.filter fun m => m.segmentId ∉ goneIds visits) ++ outputs visits
  pinned : ∀ m ∈ segs, m.segmentId ∈ pinned →
    m ∈ segs' ∧ fs'.segs m.segmentId = fs.segs m.segmentId ∧ ∀ e ∈ es, e.Spares m.segmentId
  files : ∀ m ∈ segs', ∀ ext, (fs'.segs m.segmentId).has ext = true
  unlinked : ∀ v ∈ visits, ∀ id ∈ v.cohort.segmentIds,
    id ∉ segs'.map SegmentMeta.segmentId ∧ fs'.segs id = {}
  output : ∀ v ∈ visits, ∀ m ∈ v.output, m ∈ segs' ∧ KeySorted (fs'.segs m.segmentId).table ∧
    ∀ k e, find (fs'.segs m.segmentId).table k = some e →
      IsNewest (recordsIn fs v.cohort.segmentIds k) e
  absent : ∀ v ∈ visits, ∀ k, recordsIn fs v.cohort.segmentIds k ≠ [] →
    (∀ m ∈ v.output, find (fs'.segs m.segmentId).table k = none) →
      ∃ e, IsNewest (recordsIn fs v.cohort.segmentIds k) e ∧
        (e.op = .delete ∨ deathTimeFor e.timestamp e.ttl c.cohortWindowSecs ≤ now)
  bytes : stats.bytesWritten = ((outputs visits).map SegmentMeta.compressedBytes).sum
  budget : stats.bytesWritten ≤ c.writeBudgetBytes ∨
    ∃ v ∈ visits, ∃ m ∈ v.output, stats.bytesWritten ≤ c.writeBudgetBytes + m.compressedBytes
  removed : stats.segmentsRemoved = (segs.filter fun m => m ∉ segs').length
  added : stats.segmentsWritten = (segs'.filter fun m => m ∉ segs).length
  collected : stats.cohortsCollected = visits.length
  relocated : stats.liveRecordsRelocated = ((outputs visits).map SegmentMeta.recordCount).sum

/-! ### Records that are left out -/

theorem dead_of_not_outlives {window : ℕ} {e : MemEntry} (h : outlives window now e = false) :
    e.op = .delete ∨ deathTimeFor e.timestamp e.ttl window ≤ now := by
  by_cases hop : e.op = .delete
  · exact .inl hop
  · right
    rw [← not_lt]
    intro hlt
    have hout : outlives window now e = true := decide_eq_true ⟨hop, hlt⟩
    rw [h] at hout
    cases hout

/-- In a fully expired cohort every record is dead. -/
theorem dead_of_isFullyExpired {cohort : CohortInfo} (hc : cohort ∈ identifyCohorts order segs now)
    (hexp : cohort.isFullyExpired = true)
    (h : ∀ m ∈ segs, m.Describes c.cohortWindowSecs (fs.segs m.segmentId).table) {k : Bytes}
    {e : MemEntry} (he : e ∈ recordsIn fs cohort.segmentIds k) :
    deathTimeFor e.timestamp e.ttl c.cohortWindowSecs ≤ now := by
  obtain ⟨bucket, -, rfl⟩ := List.mem_map.mp ((List.perm_insertionSort _ _).mem_iff.mp hc)
  obtain ⟨id, hid, hfind⟩ := List.mem_filterMap.mp he
  obtain ⟨m, hm, rfl⟩ := List.mem_map.mp hid
  have hmem := mem_of_find hfind
  calc deathTimeFor e.timestamp e.ttl c.cohortWindowSecs
      ≤ m.deathTime := (h m (List.mem_filter.mp hm).1).deathTime _ hmem
    _ ≤ maxOr 0 ((segs.filter fun m => m.cohortBucket = bucket).map SegmentMeta.deathTime) :=
        le_maxOr (List.mem_map_of_mem hm)
    _ ≤ now := (of_decide_eq_true hexp).le

/-- What a written segment holds for a key. -/
theorem find_of_written {ids : List SegmentId} {m : SegmentMeta} {files : SegmentFiles} {k : Bytes}
    (hids : ∀ id ∈ ids, ScannedWhole (fs.segs id).table)
    (h : SegmentWritten X c.cohortWindowSecs
      (survivors c.cohortWindowSecs now (mergedEntries fs ids)) m files) :
    find files.table k =
      ((mergedEntries fs ids).get k).filter (outlives c.cohortWindowSecs now) := by
  rw [h.table, find_map_storedEntry, find_survivors]
  cases hget : (mergedEntries fs ids).get k with
  | none => rfl
  | some e =>
    rw [Option.filter_some]
    split
    · rw [Option.map_some, storedEntry_merged hids hget]
    · rfl

namespace CycleInv

variable {next : SegmentId} (h : CycleInv X c now segs fs visits next segs' fs')
include h

/-! ### The change of the manifest -/

theorem not_mem_of_output {m : SegmentMeta} (hm : m ∈ outputs visits) : m ∉ segs := fun hmem =>
  ((h.fresh m hm).2 m hmem).ne rfl

theorem mem_iff {m : SegmentMeta} (hm : m ∈ segs) : m ∈ segs' ↔ m.segmentId ∉ goneIds visits := by
  rw [h.segments, List.mem_append, List.mem_filter]
  constructor
  · rintro (⟨-, hgone⟩ | hout)
    · exact of_decide_eq_true hgone
    · exact absurd hm (h.not_mem_of_output hout)
  · intro hgone
    exact .inl ⟨hm, decide_eq_true hgone⟩

/-- The segments that are gone are those of the visited cohorts. -/
theorem length_removed (hsegs : (segs.map SegmentMeta.segmentId).Nodup)
    (hgone : (goneIds visits).Nodup) :
    (goneIds visits).length = (segs.filter fun m => m ∉ segs').length := by
  have hfilter : (segs.filter fun m => m ∉ segs') =
      segs.filter fun m => m.segmentId ∈ goneIds visits := by
    apply List.filter_congr
    intro m hm
    simp [h.mem_iff hm]
  have hids : (segs.filter fun m => m.segmentId ∈ goneIds visits).map SegmentMeta.segmentId =
      (segs.map SegmentMeta.segmentId).filter fun id => id ∈ goneIds visits := by
    rw [List.filter_map]
    rfl
  have hperm : (goneIds visits).Perm
      ((segs.map SegmentMeta.segmentId).filter fun id => id ∈ goneIds visits) := by
    refine (List.perm_ext_iff_of_nodup hgone (hsegs.sublist List.filter_sublist)).mpr fun id => ?_
    rw [List.mem_filter, decide_eq_true_eq]
    constructor
    · intro hid
      obtain ⟨m, hm, rfl⟩ := h.listed id hid
      exact ⟨List.mem_map_of_mem hm, hid⟩
    · exact And.right
  rw [hperm.length_eq, ← hids, List.length_map, hfilter]

/-- The segments that are new are those written. -/
theorem length_added : (outputs visits).length = (segs'.filter fun m => m ∉ segs).length := by
  have hold : (segs.filter fun m => m.segmentId ∉ goneIds visits).filter (fun m => m ∉ segs) = [] := by
    refine List.filter_eq_nil_iff.mpr fun m hm => ?_
    simpa using (List.mem_filter.mp hm).1
  have hnew : (outputs visits).filter (fun m => m ∉ segs) = outputs visits :=
    List.filter_eq_self.mpr fun m hm => decide_eq_true (h.not_mem_of_output hm)
  rw [h.segments, List.filter_append, hold, hnew, List.nil_append]

/-! ### The files -/

theorem has_files (hsegs : ∀ m ∈ segs, Compactable X c m (fs.segs m.segmentId)) {m : SegmentMeta}
    (hm : m ∈ segs') (ext : SegmentExt) : (fs'.segs m.segmentId).has ext = true := by
  rw [h.segments] at hm
  rcases List.mem_append.mp hm with hm | hm
  · obtain ⟨hm, hgone⟩ := List.mem_filter.mp hm
    rw [h.kept m hm (of_decide_eq_true hgone)]
    exact (hsegs m hm).has ext
  · obtain ⟨v, hv, hout⟩ := mem_outputs.mp hm
    exact (h.written v hv m hout).has ext

theorem not_listed {id : SegmentId} (hid : id ∈ goneIds visits) :
    id ∉ segs'.map SegmentMeta.segmentId := by
  intro hmem
  obtain ⟨m, hm, rfl⟩ := List.mem_map.mp hmem
  rw [h.segments] at hm
  rcases List.mem_append.mp hm with hm | hm
  · exact of_decide_eq_true (List.mem_filter.mp hm).2 hid
  · obtain ⟨m', hm', heq⟩ := h.listed _ hid
    exact ((h.fresh m hm).2 m' hm').ne heq

/-! ### The records -/

theorem isNewest_of_output {v : Visit} (hv : v ∈ visits) {m : SegmentMeta} (hm : m ∈ v.output)
    (hids : ∀ id ∈ v.cohort.segmentIds, ScannedWhole (fs.segs id).table) {k : Bytes} {e : MemEntry}
    (he : find (fs'.segs m.segmentId).table k = some e) :
    IsNewest (recordsIn fs v.cohort.segmentIds k) e := by
  rw [find_of_written hids (h.written v hv m hm)] at he
  exact isNewest_of_merged hids (Option.filter_eq_some_iff.mp he).1

/-- **A key that is missing** has a dead record, or a tombstone, with the highest LSN. -/
theorem dead_of_absent {v : Visit} (hv : v ∈ visits)
    (hids : ∀ id ∈ v.cohort.segmentIds, ScannedWhole (fs.segs id).table)
    (hexp : v.cohort.isFullyExpired = true → ∀ k, ∀ e ∈ recordsIn fs v.cohort.segmentIds k,
      deathTimeFor e.timestamp e.ttl c.cohortWindowSecs ≤ now) {k : Bytes}
    (hne : recordsIn fs v.cohort.segmentIds k ≠ [])
    (habsent : ∀ m ∈ v.output, find (fs'.segs m.segmentId).table k = none) :
    ∃ e, IsNewest (recordsIn fs v.cohort.segmentIds k) e ∧
      (e.op = .delete ∨ deathTimeFor e.timestamp e.ttl c.cohortWindowSecs ≤ now) := by
  obtain ⟨e', he'⟩ := List.exists_mem_of_ne_nil _ hne
  obtain ⟨e, hget, -⟩ := exists_merged hids he'
  have hnewest := isNewest_of_merged hids hget
  refine ⟨e, hnewest, ?_⟩
  -- if the record outlived the cycle, it would be in the segment written
  have hfilter : ((mergedEntries fs v.cohort.segmentIds).get k).filter
      (outlives c.cohortWindowSecs now) = none → outlives c.cohortWindowSecs now e = false := by
    rw [hget, Option.filter_some]
    intro hnone
    split at hnone
    · cases hnone
    · exact Bool.eq_false_iff.mpr ‹_›
  cases hout : v.output with
  | none =>
    rcases h.dead v hv hout with hfull | hnil
    · exact .inr (hexp hfull k e hnewest.1)
    · refine dead_of_not_outlives (hfilter ?_)
      rw [← find_survivors, hnil]
      rfl
  | some m =>
    refine dead_of_not_outlives (hfilter ?_)
    rw [← find_of_written hids (h.written v hv m hout)]
    exact habsent m hout

end CycleInv

namespace Compactor

/-- **A cycle that succeeds accounts for what it has done**, whatever segments are pinned, and in whatever
order equal cohorts are visited. -/
theorem compactCycle_accounts (c : Compactor) (order : HashOrder) (now : ℤ) (pinned : List SegmentId)
    (m : Manifest) (clock : ℕ → ℕ) (fs : Fs) (hnodup : (m.segments.map SegmentMeta.segmentId).Nodup)
    (hsegs : ∀ sm ∈ m.segments, Compactable X c sm (fs.segs sm.segmentId)) {stats : CompactionStats}
    {q : Process Manifest} {es : List Effect}
    (hrun : (c.compactCycle (X := X) order now pinned).run ⟨m, clock⟩ fs = (.ok stats, q, es)) :
    ∃ visits, CycleAccounts X c order now pinned m.segments q.state.segments fs ((disk X).run es fs) es
      visits stats := by
  set spared := (m.segments.filter fun sm => sm.segmentId ∈ pinned).map SegmentMeta.segmentId
  have hspared : ∀ id ∈ spared, id ∈ pinned ∧ ∃ sm ∈ m.segments, sm.segmentId = id := by
    intro id hid
    obtain ⟨sm, hsm, rfl⟩ := List.mem_map.mp hid
    obtain ⟨hsm, hpin⟩ := List.mem_filter.mp hsm
    exact ⟨of_decide_eq_true hpin, sm, hsm, rfl⟩
  have hwp : Prog.wp (c.compactCycle (X := X) order now pinned) _ ⟨m, clock⟩ fs :=
    wp_compactCycle_visits hnodup hsegs hspared
  have hres := Prog.wp_result hwp Device.all_true
  have hguar := (Prog.wp_guar hwp Device.all_true).forall_mem
  rw [hrun] at hres hguar
  obtain ⟨visits, next, rfl, hp, hinv⟩ := hres
  set segments := m.segments.filter fun sm => sm.segmentId ∉ pinned
  obtain ⟨hdisj, hlisted⟩ := nodup_identifyCohorts order now
    (hnodup.sublist (List.filter_sublist.map _) : (segments.map SegmentMeta.segmentId).Nodup)
  have hcohort : ∀ v ∈ visits, v.cohort ∈ identifyCohorts order segments now := fun v hv =>
    hp.initial.subset (List.mem_map_of_mem hv)
  have hgone : (goneIds visits).Nodup := by
    obtain ⟨rest, hrest⟩ := hp.initial
    rw [← hrest, List.flatMap_append, List.flatMap_map] at hdisj
    exact (List.nodup_append.mp hdisj).1
  have hunpinned : ∀ id ∈ goneIds visits, id ∉ pinned := by
    intro id hid
    obtain ⟨v, hv, hid⟩ := List.mem_flatMap.mp hid
    obtain ⟨sm, hsm, rfl⟩ := List.mem_map.mp (hlisted _ (hcohort v hv) id hid)
    exact of_decide_eq_true (List.mem_filter.mp hsm).2
  have hscanned : ∀ v ∈ visits, ∀ id ∈ v.cohort.segmentIds, ScannedWhole (fs.segs id).table := by
    intro v hv id hid
    obtain ⟨sm, hsm, rfl⟩ := hinv.listed id (List.mem_flatMap.mpr ⟨v, hv, hid⟩)
    exact (hsegs sm hsm).scannedWhole
  refine ⟨visits, ?_⟩
  constructor
  case visited => exact hp.initial
  case complete => exact hp.complete.symm
  case segments => exact hinv.segments
  case pinned =>
    intro sm hsm hpin
    have hstays : sm.segmentId ∉ goneIds visits := fun hid => hunpinned _ hid hpin
    refine ⟨(hinv.mem_iff hsm).mpr hstays, hinv.kept sm hsm hstays, fun e he => hguar e he _ ?_⟩
    exact List.mem_map_of_mem (List.mem_filter.mpr ⟨hsm, decide_eq_true hpin⟩)
  case files => exact fun sm hsm ext => hinv.has_files hsegs hsm ext
  case unlinked =>
    intro v hv id hid
    have hmem : id ∈ goneIds visits := List.mem_flatMap.mpr ⟨v, hv, hid⟩
    exact ⟨hinv.not_listed hmem, hinv.gone id hmem⟩
  case output =>
    intro v hv sm hout
    refine ⟨?_, (hinv.written v hv sm hout).keySorted_table,
      fun k e he => hinv.isNewest_of_output hv hout (hscanned v hv) he⟩
    rw [hinv.segments]
    exact List.mem_append_right _ (mem_outputs.mpr ⟨v, hv, hout⟩)
  case absent =>
    intro v hv k hne habsent
    refine hinv.dead_of_absent hv (hscanned v hv) (fun hexp k e he => ?_) hne habsent
    exact dead_of_isFullyExpired (hcohort v hv) hexp
      (fun sm hsm => (hsegs sm (List.mem_filter.mp hsm).1).describes) he
  case bytes => rfl
  case budget =>
    refine hp.budget.imp_right ?_
    rintro ⟨sm, hsm, hle⟩
    obtain ⟨v, hv, hout⟩ := mem_outputs.mp hsm
    exact ⟨v, hv, sm, hout, hle⟩
  case removed => exact hinv.length_removed hnodup hgone
  case added => exact hinv.length_added
  case collected => rfl
  case relocated => rfl

/-- A put to the namespace `[1]` at time zero. -/
def putAtZero (key : Byte) (lsn : Lsn) : Bytes × MemEntry :=
  ([0, 1, 1, key], ⟨[0, 1, 1, key], some [12], .put, lsn, 0, 0⟩)

/-- Two segments with a common key, and a third one. -/
def threeTables : SegmentId → List (Bytes × MemEntry)
  | 0 => [putAtZero 7 1, putAtZero 8 2]
  | 1 => [putAtZero 7 3]
  | _ => [putAtZero 9 4]

/-- What the writer returns for these segments. -/
def threeMetas (id : SegmentId) : SegmentMeta :=
  segmentMetaFor plainExternals id 3600 (threeTables id) (writeDatAndIndex plainExternals (threeTables id))
    0 0

/-- A manifest handle that lists them. -/
def threeManifest : Manifest := ⟨0, [0, 1, 2].map threeMetas⟩

theorem segmentId_threeMetas (id : SegmentId) : (threeMetas id).segmentId = id := rfl

/-- The directory of these segments. -/
def threeSegments : Fs where
  segs id := writtenFiles plainExternals (threeTables id) (threeMetas id)

theorem compactable_threeSegments (id : SegmentId) :
    Compactable plainExternals ⟨100, 3600⟩ (threeMetas id) (threeSegments.segs id) := by
  have hput : ∀ p ∈ threeTables id, ∃ key n, 0 < n ∧ p = putAtZero key n := by
    intro p hp
    unfold threeTables at hp
    split at hp
    · rcases List.mem_cons.mp hp with rfl | hp
      · exact ⟨7, 1, by decide, rfl⟩
      · exact ⟨8, 2, by decide, List.mem_singleton.mp hp⟩
    · exact ⟨7, 3, by decide, List.mem_singleton.mp hp⟩
    · exact ⟨9, 4, by decide, List.mem_singleton.mp hp⟩
  refine ⟨3600, threeTables id, ⟨?_, ⟨0, 0, rfl⟩, rfl⟩, le_rfl, fun p hp => ?_, ?_⟩
  · unfold threeTables
    split <;> decide
  · obtain ⟨key, n, hn, rfl⟩ := hput p hp
    exact ⟨hn, [1], [key], by decide, rfl⟩
  · unfold threeTables
    split <;> decide

/-- With the third segment pinned, the other two are rewritten as one. -/
theorem compactCycle_accounts_threeSegments : ∃ stats q es visits,
    (compactCycle (X := plainExternals) ⟨100, 3600⟩ .given 0 [2]).run ⟨threeManifest, fun _ => 0⟩
      threeSegments = (.ok stats, q, es) ∧ stats.segmentsWritten = 1 ∧
    CycleAccounts plainExternals ⟨100, 3600⟩ .given 0 [2] threeManifest.segments q.state.segments
      threeSegments ((disk plainExternals).run es threeSegments) es visits stats := by
  have hok : ((compactCycle (X := plainExternals) ⟨100, 3600⟩ .given 0 [2]).run
      ⟨threeManifest, fun _ => 0⟩ threeSegments).1 = .ok ⟨1, 2, 1, 4096, 2⟩ := by decide +kernel
  rcases hrun : (compactCycle (X := plainExternals) ⟨100, 3600⟩ .given 0 [2]).run
    ⟨threeManifest, fun _ => 0⟩ threeSegments with ⟨result, q, es⟩
  rw [hrun] at hok
  obtain rfl : result = .ok ⟨1, 2, 1, 4096, 2⟩ := hok
  obtain ⟨visits, h⟩ := compactCycle_accounts ⟨100, 3600⟩ .given 0 [2] threeManifest (fun _ => 0)
    threeSegments (by simp [threeManifest, segmentId_threeMetas]) (by
      intro sm hsm
      obtain ⟨id, -, rfl⟩ := List.mem_map.mp hsm
      exact compactable_threeSegments id) hrun
  exact ⟨_, q, es, visits, rfl, rfl, h⟩

end Compactor
