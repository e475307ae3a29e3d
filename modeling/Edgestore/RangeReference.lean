import Edgestore.Engine.PrefixScan
import Edgestore.Segment.Files

/-!
# Range scans against their reference

For segments that were flushed from sorted lists, `range` returns the pairs of the range whose newest
record, over the memtable and all segments, is a put. Records of one key under one LSN are taken to be
the same record, and the record of the memtable to be as new as those of the segments; the engine keeps
both as long as it hands out its LSNs in order.

## Main definitions

* `FlushLeft X entries m files`: a flush of the entries returned `m` and left the files
* `recordsFor mem tables k`: the records of a key in the memtable and in the tables of segments

## Main results

* `Engine.range_eq_reference`: a range scan returns what its reference says
-/

variable {X : Externals} {fs : Fs}

/-! ### Segments that were flushed -/

/-- A flush of the entries, into some directory, returned `m` and left the files. -/
def FlushLeft (X : Externals) (entries : List (Bytes × MemEntry)) (m : SegmentMeta)
    (files : SegmentFiles) : Prop :=
  ∃ (window : ℕ) (p : Process Unit) (fs₀ : Fs),
    ((segmentFlush (X := X) m.segmentId window entries).run p fs₀).1 = .ok m ∧
      files = ((disk X).run ((segmentFlush (X := X) m.segmentId window entries).run p fs₀).2.2
        fs₀).segs m.segmentId

/-- The files that a flush leaves. -/
theorem FlushLeft.files_eq {entries : List (Bytes × MemEntry)} {m : SegmentMeta}
    {files : SegmentFiles} (h : FlushLeft X entries m files) :
    files = ⟨.whole (writeDatAndIndex X entries).blocks, .whole (writeDatAndIndex X entries).index,
        .whole (X.buildFilter (entries.map Prod.fst)), .whole m⟩ ∧
      m.minKey = (entries.head?.map Prod.fst).getD [] ∧
      m.maxKey = (entries.getLast?.map Prod.fst).getD [] := by
  obtain ⟨window, p, fs₀, hrun, rfl⟩ := h
  have hwp : Prog.wp (segmentFlush (X := X) m.segmentId window entries)
      ⟨fun m' _ fs' => fs'.segs m.segmentId = ⟨.whole (writeDatAndIndex X entries).blocks,
          .whole (writeDatAndIndex X entries).index,
          .whole (X.buildFilter (entries.map Prod.fst)), .whole m'⟩ ∧
          m'.minKey = (entries.head?.map Prod.fst).getD [] ∧
          m'.maxKey = (entries.getLast?.map Prod.fst).getD [],
        fun _ _ _ => True, fun _ _ => True, fun _ _ => True⟩ p fs₀ := by
    cases entries with
    | nil => simp [segmentFlush]
    | cons first rest =>
      simp only [segmentFlush]
      cases cohortBucketFor first.2.timestamp first.2.ttl window with
      | error e => simp
      | ok bucket =>
        simp only [Prog.wp_bind, Exec.wp_effect, Exec.wp_now, Prog.wp_lift, Prog.wp_pure, true_and,
          forall_const, Prog.result_ok, applyEffect, Fs.segs_setSegment_self]
        exact ⟨rfl, rfl⟩
  have hres := Prog.wp_result hwp Device.all_true
  rw [hrun] at hres
  exact hres

/-- What a flush of entries within the limits leaves is a well-formed segment of these entries. -/
theorem FlushLeft.wf {entries : List (Bytes × MemEntry)} {m : SegmentMeta} {files : SegmentFiles}
    (h : FlushLeft X entries m files) (hfit : Flushable X entries) :
    SegmentWf X files ∧ files.table = entries := by
  obtain ⟨rfl, hmin, hmax⟩ := h.files_eq
  exact ⟨⟨flushImage X hfit.sorted m hmin hmax hfit.blocks hfit.length_index hfit.filter.2.2, rfl⟩,
    hfit.table_blocks⟩

/-! ### The reference -/

/-- The records of a key in a memtable and in the tables of segments. -/
def recordsFor (mem : MemTable) (tables : List (List (Bytes × MemEntry))) (k : Bytes) :
    List MemEntry := (mem.get k).toList ++ tables.filterMap fun table => find table k

theorem mem_recordsFor {mem : MemTable} {tables : List (List (Bytes × MemEntry))} {k : Bytes}
    {r : MemEntry} : r ∈ recordsFor mem tables k ↔
      mem.get k = some r ∨ ∃ table ∈ tables, find table k = some r := by
  simp [recordsFor]

/-- The records of one key under one LSN are one record, and that of the memtable is as new as those of
the segments. -/
structure Coherent (mem : MemTable) (tables : List (List (Bytes × MemEntry))) : Prop where
  one : ∀ k, ∀ r ∈ recordsFor mem tables k, ∀ r' ∈ recordsFor mem tables k, r.lsn = r'.lsn → r = r'
  memtable : ∀ k m, mem.get k = some m → ∀ table ∈ tables, ∀ r, find table k = some r → r.lsn ≤ m.lsn

/-- Coherent records have at most one newest. -/
theorem Coherent.unique {mem : MemTable} {tables : List (List (Bytes × MemEntry))} {k : Bytes}
    {r r' : MemEntry} (h : Coherent mem tables) (hr : IsNewest (recordsFor mem tables k) r)
    (hr' : IsNewest (recordsFor mem tables k) r') : r = r' :=
  h.one k r hr.1 r' hr'.1 (Nat.le_antisymm (hr'.2 r hr.1) (hr.2 r' hr'.1))

/-- **The newest record** of a key is the newer of the one the scan of the segments found, unless it is
a tombstone, and the one in the memtable; or a tombstone that neither of them shows. -/
theorem Coherent.pick_eq {mem : MemTable} {tables : List (List (Bytes × MemEntry))} {k : Bytes}
    (h : Coherent mem tables) {found : Option MemEntry}
    (hfound : ∀ r, found = some r → IsNewest (tables.filterMap fun table => find table k) r)
    (hnone : found = none → tables.filterMap (fun table => find table k) = []) (v : Bytes) :
    (pick MemEntry.lsn (found.filter fun r => r.op ≠ .delete) (mem.get k)).bind MemEntry.live =
        some v ↔
      ∃ r, IsNewest (recordsFor mem tables k) r ∧ r.op = .put ∧ r.value = some v := by
  have hlive : ∀ r : MemEntry, r.live = some v ↔ r.op = .put ∧ r.value = some v := by
    intro r
    rw [MemEntry.live]
    cases hop : r.op <;> simp
  -- the newest record is unique: it is the one the scan picks, or a tombstone
  cases hm : mem.get k with
  | none =>
    have hrec : recordsFor mem tables k = tables.filterMap fun table => find table k := by
      rw [recordsFor, hm]
      rfl
    cases hf : found with
    | none =>
      have hempty := hnone hf
      rw [hrec, hempty]
      simp [pick, IsNewest]
    | some r =>
      have hnew := hfound r hf
      rw [← hrec] at hnew
      have hiff : (∃ r', IsNewest (recordsFor mem tables k) r' ∧ r'.op = .put ∧ r'.value = some v) ↔
          r.op = .put ∧ r.value = some v := by
        constructor
        · rintro ⟨r', hr', hop, hval⟩
          rw [h.unique hnew hr']
          exact ⟨hop, hval⟩
        · exact fun hr => ⟨r, hnew, hr⟩
      rw [hiff, ← hlive]
      by_cases hop : r.op = .delete
      · have hdrop : (some r).filter (fun r : MemEntry => decide (r.op ≠ .delete)) = none := by
          simp [hop]
        rw [hdrop]
        simp [pick, MemEntry.live, hop]
      · have hkeep : (some r).filter (fun r : MemEntry => decide (r.op ≠ .delete)) = some r := by
          simp [hop]
        rw [hkeep]
        rfl
  | some m =>
    have hmem : m ∈ recordsFor mem tables k := mem_recordsFor.mpr (.inl hm)
    have hnew : IsNewest (recordsFor mem tables k) m := by
      refine ⟨hmem, fun r hr => ?_⟩
      rcases mem_recordsFor.mp hr with hr | ⟨table, htable, hr⟩
      · rw [hm] at hr
        cases hr
        exact le_rfl
      · exact h.memtable k m hm table htable r hr
    have hpick : pick MemEntry.lsn (found.filter fun r => r.op ≠ .delete) (some m) = some m := by
      cases hf : found with
      | none => rfl
      | some r =>
        by_cases hop : r.op = .delete
        · have hdrop : (some r).filter (fun r : MemEntry => decide (r.op ≠ .delete)) = none := by
            simp [hop]
          rw [hdrop]
          rfl
        · have hrmem : r ∈ recordsFor mem tables k := List.mem_append_right _ (hfound r hf).1
          have hle := hnew.2 r hrmem
          have hfilter : (some r).filter (fun r : MemEntry => decide (r.op ≠ .delete)) = some r := by
            simp [hop]
          rw [hfilter, pick]
          split
          case isTrue => rfl
          case isFalse hge =>
            have hlsn : r.lsn = m.lsn := Nat.le_antisymm hle (Nat.le_of_not_lt hge)
            rw [h.one k r hrmem m hmem hlsn]
    rw [hpick, Option.bind_some, hlive]
    constructor
    · exact fun hr => ⟨m, hnew, hr⟩
    · rintro ⟨r, hr, hop, hval⟩
      rw [h.unique hnew hr]
      exact ⟨hop, hval⟩

/-- **Merged tables**: what is left of their entries in a range is a newest record of every key there. -/
theorem newest_within {tables : List (List (Bytes × MemEntry))} (hs : ∀ table ∈ tables, KeySorted table)
    {a b : Bytes} {out : List (Bytes × MemEntry)} (hperm : out.Perm (tables.flatMap (within a b)))
    (hsorted : out.Pairwise fun p q => p.1 ≤ q.1) :
    KeySorted (newest MemEntry.lsn out) ∧ (∀ p ∈ newest MemEntry.lsn out, a ≤ p.1 ∧ p.1 < b) ∧
      ∀ k, a ≤ k → k < b →
        (∀ r, find (newest MemEntry.lsn out) k = some r →
          IsNewest (tables.filterMap fun table => find table k) r) ∧
        (find (newest MemEntry.lsn out) k = none → tables.filterMap (fun table => find table k) = []) := by
  have hmem : ∀ k r, (k, r) ∈ out ↔
      a ≤ k ∧ k < b ∧ r ∈ tables.filterMap fun table => find table k := by
    intro k r
    rw [hperm.mem_iff]
    simp only [List.mem_flatMap, List.mem_filterMap, within, List.mem_filter, decide_eq_true_eq]
    constructor
    · rintro ⟨table, htable, hin, ha, hb⟩
      exact ⟨ha, hb, table, htable, (hs table htable).find_eq_some_iff.mpr hin⟩
    · rintro ⟨ha, hb, table, htable, hfind⟩
      exact ⟨table, htable, mem_of_find hfind, ha, hb⟩
  refine ⟨keySorted_newest hsorted, fun p hp => ?_, fun k ha hb => ⟨fun r hr => ?_, fun hnone => ?_⟩⟩
  · obtain ⟨ha, hb, -⟩ := (hmem p.1 p.2).mp (mem_newest hp)
    exact ⟨ha, hb⟩
  · obtain ⟨hin, hmax⟩ := find_newest hsorted hr
    refine ⟨((hmem k r).mp hin).2.2, fun r' hr' => ?_⟩
    exact hmax r' ((hmem k r').mpr ⟨ha, hb, hr'⟩)
  · apply List.eq_nil_iff_forall_not_mem.mpr
    intro r hr
    exact find_newest_eq_none hnone r ((hmem k r).mpr ⟨ha, hb, hr⟩)

/-! ### Range scans -/

namespace Engine

variable {e : Engine} {ns start «end» : Bytes} {segs : List (SegmentMeta × List (Bytes × MemEntry))}

/-- The scan of flushed segments finds a newest record of every key of the range. -/
theorem rangeScan_flushed (hreaders : Readers fs (segs.map Prod.fst) e.segmentStore.readers)
    (hfit : ∀ s ∈ segs, Flushable X s.2) (hsegs : ∀ s ∈ segs, FlushLeft X s.2 s.1
      (fs.segs s.1.segmentId)) (a b : Bytes) :
    ∃ l, KeySorted l ∧ (∀ p ∈ l, a ≤ p.1 ∧ p.1 < b) ∧
      e.segmentStore.rangeScanBudgeted fs a b none =
        .ok (l.filter (fun p => p.2.op ≠ .delete), false) ∧
      ∀ k, a ≤ k → k < b →
        (∀ r, find l k = some r →
          IsNewest ((segs.map Prod.snd).filterMap fun table => find table k) r) ∧
        (find l k = none → (segs.map Prod.snd).filterMap (fun table => find table k) = []) := by
  have hwf : ∀ m ∈ segs.map Prod.fst, SegmentWf X (fs.segs m.segmentId) := by
    intro m hm
    obtain ⟨s, hs, rfl⟩ := List.mem_map.mp hm
    exact ((hsegs s hs).wf (hfit s hs)).1
  obtain ⟨out, hperm, hsorted, hpopped⟩ := hreaders.rangeScanBudgeted_popped hwf a b
  -- what is merged are the entries of the lists, in the range
  have hflat : ((segs.map Prod.fst).flatMap fun m => within a b (fs.segs m.segmentId).table) =
      (segs.map Prod.snd).flatMap (within a b) := by
    rw [List.flatMap_map, List.flatMap_map]
    refine List.flatMap_congr fun s hs => ?_
    rw [((hsegs s hs).wf (hfit s hs)).2]
  rw [hflat] at hperm
  have hsortedTables : ∀ table ∈ segs.map Prod.snd, KeySorted table := by
    intro table htable
    obtain ⟨s, hs, rfl⟩ := List.mem_map.mp htable
    exact (hfit s hs).sorted
  obtain ⟨hkeys, hrange, hfound⟩ := newest_within hsortedTables hperm hsorted
  exact ⟨newest MemEntry.lsn out, hkeys, hrange, (hpopped none).trans collectMerged_eq, hfound⟩

/-- A range scan over segments whose scan finds `l` returns what the newer of the entries in `l` and in
the memtable shows. -/
theorem range_of_scan {l : List (Bytes × MemEntry)} (hl : KeySorted l)
    (hrange : ∀ p ∈ l, encoded ns start ≤ p.1 ∧ p.1 < encoded ns «end»)
    (hscan : e.segmentStore.rangeScanBudgeted fs (encoded ns start) (encoded ns «end») none =
      .ok (l.filter (fun p => p.2.op ≠ .delete), false)) (hns : ns.length ≤ maxNsLen) :
    ∃ items, e.range fs ns start «end» = .ok items ∧ KeySorted items ∧
      ∀ key v, (key, v) ∈ items ↔ start ≤ key ∧ key < «end» ∧
        (pick MemEntry.lsn ((find l (encoded ns key)).filter fun r => r.op ≠ .delete)
          (e.memtable.get (encoded ns key))).bind MemEntry.live = some v := by
  set seg := l.filter fun p => p.2.op ≠ .delete with hseg
  set mem := e.memtable.range (encoded ns start) (encoded ns «end») with hmem
  have hsegSorted : KeySorted seg := hl.filter _
  have hsegRange : ∀ p ∈ seg, encoded ns start ≤ p.1 ∧ p.1 < encoded ns «end» :=
    fun p hp => hrange p (List.mem_filter.mp hp).1
  have hover : Overlays (· < ·) MemEntry.lsn seg mem (newest MemEntry.lsn (mergeBy (· < ·) seg mem)) :=
    .of_merge hsegSorted (MemTable.keySorted_range _ _ _)
  have hkeys : ∀ p ∈ mergeBy (· < ·) seg mem, ∃ key, encodeKey ns key = .ok p.1 := fun p hp =>
    exists_encoded hns hsegRange (memtable_range _ _ _) p (mem_mergeBy.mp hp)
  obtain ⟨stats, hdedup⟩ := dedupFilterScan_eq false
    { segmentsScanned := if seg = [] then 0 else 1 } hkeys
  set best := newest MemEntry.lsn (mergeBy (· < ·) seg mem) with hbest
  have hbestKeys : ∀ p ∈ best, ∃ key, encodeKey ns key = .ok p.1 :=
    fun p hp => hkeys p (mem_newest hp)
  have hcore : e.rangeCore fs ns start «end» none =
      .ok ⟨best.filterMap (emitted ns), false, stats⟩ :=
    (rangeCore_eq hns hscan).trans hdedup
  have hsorted : KeySorted (best.filterMap (emitted ns)) := keySorted_emitted hover.sorted hbestKeys
  refine ⟨best.filterMap (emitted ns), by rw [range, hcore]; rfl, hsorted, fun key v => ?_⟩
  rw [← hsorted.find_eq_some_iff,
    find_emitted hover.sorted hbestKeys (encodeKey_eq_encoded hns key), hover.find_eq]
  by_cases hin : start ≤ key ∧ key < «end»
  · rw [hseg, hl.find_filter, hmem, MemTable.find_range,
      if_pos ⟨encoded_le_iff.mpr hin.1, encoded_lt_iff.mpr hin.2⟩]
    simp only [hin, true_and]
  · -- outside the range neither layer has the key
    have hnot : ¬ (encoded ns start ≤ encoded ns key ∧ encoded ns key < encoded ns «end») := by
      simpa using hin
    have hsegNone : find seg (encoded ns key) = none := by
      apply find_eq_none_iff.mpr
      rintro p hp heq
      exact hnot (heq ▸ hsegRange p hp)
    rw [hsegNone, hmem, MemTable.find_range, if_neg hnot]
    constructor
    · intro h
      cases h
    · rintro ⟨ha, hb, -⟩
      exact absurd ⟨ha, hb⟩ hin

/-- **A range scan** of a memtable and of flushed segments returns, strictly ascending, the pairs of the
range whose newest record is a put, with its value. -/
theorem range_eq_reference (hreaders : Readers fs (segs.map Prod.fst) e.segmentStore.readers)
    (hfit : ∀ s ∈ segs, Flushable X s.2)
    (hsegs : ∀ s ∈ segs, FlushLeft X s.2 s.1 (fs.segs s.1.segmentId))
    (hcoh : Coherent e.memtable (segs.map Prod.snd)) (hns : ns.length ≤ maxNsLen) :
    start ≤ «end» → ∃ items, e.range fs ns start «end» = .ok items ∧ KeySorted items ∧
      ∀ key v, (key, v) ∈ items ↔ start ≤ key ∧ key < «end» ∧
        ∃ r, IsNewest (recordsFor e.memtable (segs.map Prod.snd) (encoded ns key)) r ∧
          r.op = .put ∧ r.value = some v := by
  intro _
  obtain ⟨l, hl, hrange, hscan, hfound⟩ :=
    rangeScan_flushed hreaders hfit hsegs (encoded ns start) (encoded ns «end»)
  obtain ⟨items, hitems, hsorted, hmem⟩ := range_of_scan hl hrange hscan hns
  refine ⟨items, hitems, hsorted, fun key v => (hmem key v).trans ?_⟩
  refine and_congr_right fun hstart => and_congr_right fun hend => ?_
  have hfoundKey := hfound (encoded ns key) (encoded_le_iff.mpr hstart) (encoded_lt_iff.mpr hend)
  exact hcoh.pick_eq hfoundKey.1 hfoundKey.2 v

/-- Two puts that were flushed; the second key is deleted in the memtable. -/
theorem range_eq_reference_deleted :
    let entries : List (Bytes × MemEntry) :=
      [([0, 1, 1, 1], ⟨[0, 1, 1, 1], some [10], .put, 1, 0, 0⟩),
        ([0, 1, 1, 2], ⟨[0, 1, 1, 2], some [20], .put, 2, 0, 0⟩)]
    let flushed := (segmentFlush (X := plainExternals) 0 60 entries).run ⟨(), fun _ => 0⟩ {}
    let fs := (disk plainExternals).run flushed.2.2 {}
    ∃ m r, flushed.1 = .ok m ∧ openReader 0 (fs.segs 0) = .ok r ∧
      let e : Engine := {
        config := {}
        wal := ⟨0, 0, 0, 0, 0⟩
        memtable := SortedMap.empty.insert [0, 1, 1, 2] ⟨[0, 1, 1, 2], none, .delete, 3, 0, 0⟩
        lsnCounter := 3
        txidCounter := 0
        segmentStore := ⟨⟨0, [m]⟩, [r], 1, 60⟩
        snapshotRegistry := {} }
      ∃ items, e.range fs [1] [1] [3] = .ok items ∧ ([1], [10]) ∈ items := by
  intro entries flushed fs
  have hrange : ∀ p ∈ entries, EntryInRange p := by
    intro p hp
    rcases List.mem_cons.mp hp with rfl | hp
    · exact ⟨rfl, by decide, by decide, by decide, by decide, by decide⟩
    · rw [List.mem_singleton.mp hp]
      exact ⟨rfl, by decide, by decide, by decide, by decide, by decide⟩
  have hfit : Flushable plainExternals entries :=
    ⟨by decide, hrange, by decide, by decide, by decide, by decide, by decide⟩
  obtain ⟨m, hm⟩ : ∃ m, flushed.1 = .ok m := ⟨_, rfl⟩
  have hid : m.segmentId = 0 := by
    cases hm
    rfl
  have hleft : FlushLeft plainExternals entries m (fs.segs m.segmentId) := by
    rw [FlushLeft, hid]
    exact ⟨60, ⟨(), fun _ => 0⟩, {}, hm, rfl⟩
  obtain ⟨r, hr⟩ := (hleft.wf hfit).1.openReader m.segmentId
  refine ⟨m, r, hm, hid ▸ hr, ?_⟩
  intro e
  have hcoh : Coherent e.memtable [entries] := by
    have hget : ∀ k x, e.memtable.get k = some x → x = ⟨[0, 1, 1, 2], none, .delete, 3, 0, 0⟩ := by
      intro k x hx
      have hmem : (k, x) ∈ e.memtable.entries := SortedMap.mem_entries_of_get hx
      exact (Prod.mk.inj (List.mem_singleton.mp hmem)).2
    have hfind : ∀ k x, find entries k = some x → x = ⟨[0, 1, 1, 1], some [10], .put, 1, 0, 0⟩ ∨
        x = ⟨[0, 1, 1, 2], some [20], .put, 2, 0, 0⟩ := by
      intro k x hx
      have hmem := mem_of_find hx
      simp only [entries, List.mem_cons, Prod.mk.injEq, List.not_mem_nil, or_false] at hmem
      rcases hmem with ⟨-, hx⟩ | ⟨-, hx⟩
      · exact .inl hx
      · exact .inr hx
    have hrec : ∀ k, ∀ x ∈ recordsFor e.memtable [entries] k,
        x = ⟨[0, 1, 1, 2], none, .delete, 3, 0, 0⟩ ∨
          x = ⟨[0, 1, 1, 1], some [10], .put, 1, 0, 0⟩ ∨
          x = ⟨[0, 1, 1, 2], some [20], .put, 2, 0, 0⟩ := by
      intro k x hx
      rcases mem_recordsFor.mp hx with hx | ⟨table, htable, hx⟩
      · exact .inl (hget k x hx)
      · rw [List.mem_singleton.mp htable] at hx
        exact .inr (hfind k x hx)
    constructor
    · intro k x hx y hy hlsn
      rcases hrec k x hx with rfl | rfl | rfl <;> rcases hrec k y hy with rfl | rfl | rfl <;>
        first | rfl | exact absurd hlsn (by decide)
    · intro k y hy table htable x hx
      rw [hget k y hy]
      rw [List.mem_singleton.mp htable] at hx
      rcases hfind k x hx with rfl | rfl <;> decide
  obtain ⟨items, hitems, -, hiff⟩ := @range_eq_reference _ fs e [1] [1] [3] [(m, entries)]
    (.cons hr .nil)
    (fun s hs => by rw [List.mem_singleton.mp hs]; exact hfit)
    (fun s hs => by rw [List.mem_singleton.mp hs]; exact hleft) hcoh (by decide) (by decide)
  refine ⟨items, hitems, (hiff [1] [10]).mpr ⟨le_rfl, by decide,
    ⟨[0, 1, 1, 1], some [10], .put, 1, 0, 0⟩, ⟨?_, fun x hx => ?_⟩, rfl, rfl⟩⟩
  · exact mem_recordsFor.mpr (.inr ⟨entries, List.mem_singleton.mpr rfl, by decide⟩)
  · -- the key has no other record
    have hone : recordsFor e.memtable [entries] (encoded [1] [1]) =
        [⟨[0, 1, 1, 1], some [10], .put, 1, 0, 0⟩] := rfl
    have hx' : x ∈ recordsFor e.memtable [entries] (encoded [1] [1]) := hx
    rw [hone] at hx'
    rw [List.mem_singleton.mp hx']

end Engine
