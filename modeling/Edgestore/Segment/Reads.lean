import Edgestore.Segment.StoreInv

/-!
# Reading the segments of a store

What a lookup and a scan of the segment store return, in terms of the tables of the registered
segments. A lookup finds the record of a key in the last segment that has one; a scan finds a record
of every key with the highest LSN, and drops tombstones. The two agree when later segments hold later
records.

## Main definitions

* `recordsOf X fs k`: the records of a key in the registered segments, in the order of the manifest
* `IsNewest`, `LatestValue`: a record with the highest LSN, and its value
* `InLsnOrder`: later records have higher LSNs
* `EffectsInOrder X keys`: segments are registered behind those with older records of these keys

## Main results

* `inLsnOrder_run`: the records stay in the order of their LSNs

* `StoreInv.get_eq`: what a lookup returns
* `StoreInv.rangeScanBudgeted_eq`: what a scan returns
* `latestValue_getLast?`: records in the order of their LSNs end with the newest
-/

variable {X : Externals} {R : List SegmentId} {fs : Fs} {s : SegmentStore}

/-! ### Records of a key -/

/-- The records of a key in the registered segments, in the order of the manifest. -/
def recordsOf (X : Externals) (fs : Fs) (k : Bytes) : List MemEntry :=
  (layers X fs).filterMap fun table => find table k

/-- The value a client sees: a tombstone has none. -/
def MemEntry.live (e : MemEntry) : Option Bytes := if e.op = .delete then none else e.value

/-- A record with the highest LSN. -/
def IsNewest (l : List MemEntry) (e : MemEntry) : Prop := e ∈ l ∧ ∀ e' ∈ l, e'.lsn ≤ e.lsn

/-- The value of the records with the highest LSN; none if there is no record. -/
def LatestValue (l : List MemEntry) (v : Option Bytes) : Prop :=
  (l = [] → v = none) ∧ ∀ e, IsNewest l e → v = e.live

/-- Later records have higher LSNs, or are the same record. -/
def InLsnOrder (l : List MemEntry) : Prop := l.Pairwise fun a b => a.lsn < b.lsn ∨ a = b

theorem mem_recordsOf {k : Bytes} {e : MemEntry} :
    e ∈ recordsOf X fs k ↔ ∃ id ∈ registeredIds X fs, find (fs.segs id).table k = some e := by
  simp [recordsOf, layers]

/-- Records in the order of their LSNs end with the newest. -/
theorem InLsnOrder.eq_getLast {l : List MemEntry} {e : MemEntry} (h : InLsnOrder l)
    (he : IsNewest l e) : l.getLast? = some e := by
  obtain ⟨before, last, rfl⟩ := List.eq_nil_or_concat l |>.resolve_left (List.ne_nil_of_mem he.1)
  rw [List.concat_eq_append] at h he ⊢
  rw [List.getLast?_concat]
  have hlast := (List.pairwise_append.mp h).2.2
  rcases List.mem_append.mp he.1 with hmem | hmem
  · rcases hlast e hmem last (by simp) with hlt | rfl
    · exact absurd (he.2 last (by simp)) (not_le.mpr hlt)
    · rfl
  · rw [List.mem_singleton.mp hmem]

/-- **Records in the order of their LSNs** have the value of the last one. -/
theorem latestValue_getLast? {l : List MemEntry} (h : InLsnOrder l) :
    LatestValue l (l.getLast?.bind MemEntry.live) := by
  refine ⟨fun hnil => by rw [hnil]; rfl, fun e he => ?_⟩
  rw [h.eq_getLast he]
  rfl

/-! ### What effects do to the records of a key -/

/-- The records of a key in some segments. -/
def recordsIn (fs : Fs) (ids : List SegmentId) (k : Bytes) : List MemEntry :=
  ids.filterMap fun id => find (fs.segs id).table k

theorem recordsOf_eq (X : Externals) (fs : Fs) (k : Bytes) :
    recordsOf X fs k = recordsIn fs (registeredIds X fs) k := by
  rw [recordsOf, layers, List.filterMap_map]
  rfl

/-- The segments that effects remove from the manifest. -/
def removedIn (es : List Effect) : List SegmentId :=
  es.filterMap fun
    | .manifestAppend _ ⟨.remove, id, _⟩ => some id
    | _ => none

theorem removedIn_remove (pos : ℕ) (id : SegmentId) (es : List Effect) :
    removedIn (.manifestAppend pos (removeEntry id) :: es) = id :: removedIn es := rfl

/-- A segment is registered only when its records of certain keys are newer than those of the same
keys in the other segments, or are the same records. The segments `gone` do not count. -/
def AddsNewest (X : Externals) (keys : Bytes → Prop) (gone : List SegmentId) : Effect → Fs → Prop
  | .manifestAppend _ ⟨.add, _, some m⟩, fs => ∀ id ∈ registeredIds X fs, id ∉ gone →
      ∀ q ∈ (fs.segs id).table, ∀ p ∈ (fs.segs m.segmentId).table,
        q.1 = p.1 → keys p.1 → q.2.lsn < p.2.lsn ∨ q.2 = p.2
  | _, _ => True

instance (X : Externals) (keys : Bytes → Prop) [DecidablePred keys] (gone : List SegmentId) :
    ∀ e fs, Decidable (AddsNewest X keys gone e fs)
  | .manifestAppend _ ⟨.add, _, some m⟩, fs => inferInstanceAs (Decidable
      (∀ id ∈ registeredIds X fs, id ∉ gone → ∀ q ∈ (fs.segs id).table,
        ∀ p ∈ (fs.segs m.segmentId).table, q.1 = p.1 → keys p.1 → q.2.lsn < p.2.lsn ∨ q.2 = p.2))
  | .manifestAppend _ ⟨.add, _, none⟩, _ => .isTrue trivial
  | .manifestAppend _ ⟨.remove, _, _⟩, _ => .isTrue trivial
  | .walCreate _, _ => .isTrue trivial
  | .walHeader _, _ => .isTrue trivial
  | .walAppend _ _, _ => .isTrue trivial
  | .walUnlink _, _ => .isTrue trivial
  | .manifestCreate, _ => .isTrue trivial
  | .manifestHeader, _ => .isTrue trivial
  | .datWrite _ _, _ => .isTrue trivial
  | .idxWrite _ _, _ => .isTrue trivial
  | .xfWrite _ _, _ => .isTrue trivial
  | .metaWrite _ _, _ => .isTrue trivial
  | .segUnlink _ _, _ => .isTrue trivial
  | .stageWrite _ _, _ => .isTrue trivial
  | .stageRename _, _ => .isTrue trivial
  | .stageAdopt _ _, _ => .isTrue trivial
  | .sync _, _ => .isTrue trivial

/-- Every segment that the effects register holds records of certain keys newer than those of the same
keys in the segments in front of it that the effects leave registered. -/
def EffectsInOrder (X : Externals) (keys : Bytes → Prop) : List Effect → Fs → Prop
  | [], _ => True
  | e :: es, fs =>
    AddsNewest X keys (removedIn es) e fs ∧ EffectsInOrder X keys es (applyEffect X e fs)

instance instDecidableEffectsInOrder (X : Externals) (keys : Bytes → Prop) [DecidablePred keys] :
    ∀ es fs, Decidable (EffectsInOrder X keys es fs)
  | [], _ => .isTrue trivial
  | e :: es, fs =>
    have : Decidable (EffectsInOrder X keys es (applyEffect X e fs)) :=
      instDecidableEffectsInOrder X keys es (applyEffect X e fs)
    inferInstanceAs (Decidable (_ ∧ _))

theorem recordsIn_apply {e : Effect} (he : StoreEffect X R e fs) {ids : List SegmentId}
    (hids : ∀ id ∈ ids, id ∈ registeredIds X fs) (k : Bytes) :
    recordsIn (applyEffect X e fs) ids k = recordsIn fs ids k :=
  List.filterMap_congr fun id hid => by rw [segs_apply_registered he (hids id hid)]

/-- Segments that the effects do not remove stay registered, with their files. -/
theorem registered_of_not_removed {es : List Effect} {id : SegmentId}
    (he : (disk X).All (fun e fs => StoreEffect X R e fs ∧ AppendsClean X e fs) es fs)
    (hid : id ∈ registeredIds X fs) (hnot : id ∉ removedIn es) :
    id ∈ registeredIds X ((disk X).run es fs) ∧ ((disk X).run es fs).segs id = fs.segs id := by
  induction es generalizing fs with
  | nil => exact ⟨hid, rfl⟩
  | cons e es ih =>
    obtain ⟨⟨hstore, hclean⟩, hrest⟩ := he
    have hstays : id ∈ registeredIds X (applyEffect X e fs) ∧ id ∉ removedIn es := by
      rcases registeredIds_apply hstore hclean with ⟨hne, heq⟩ | ⟨pos, m, rfl, -, heq⟩ |
        ⟨pos, j, rfl, heq⟩
      · have hgone : removedIn (e :: es) = removedIn es := by
          cases e <;> first | rfl | exact absurd rfl (hne _ _)
        rw [heq, ← hgone]
        exact ⟨hid, hnot⟩
      · rw [heq]
        exact ⟨List.mem_append_left _ hid, hnot⟩
      · rw [removedIn_remove, List.mem_cons, not_or] at hnot
        rw [heq]
        exact ⟨List.mem_filter.mpr ⟨hid, by simpa using hnot.1⟩, hnot.2⟩
    obtain ⟨hreg, hsegs⟩ := ih hrest hstays.1 hstays.2
    exact ⟨hreg, hsegs.trans (segs_apply_registered hstore hid)⟩

/-- The order of the records in the segments that are to stay, after an effect. -/
theorem inLsnOrder_apply {e : Effect} {es : List Effect} {keys : Bytes → Prop} {k : Bytes}
    (hk : keys k) (he : StoreEffect X R e fs) (hc : AppendsClean X e fs)
    (ha : AddsNewest X keys (removedIn es) e fs)
    (h : InLsnOrder (recordsIn fs ((registeredIds X fs).filter (· ∉ removedIn (e :: es))) k)) :
    InLsnOrder (recordsIn (applyEffect X e fs)
      ((registeredIds X (applyEffect X e fs)).filter (· ∉ removedIn es)) k) := by
  rcases registeredIds_apply he hc with ⟨hne, heq⟩ | ⟨pos, m, rfl, -, heq⟩ | ⟨pos, id, rfl, heq⟩
  · have hgone : removedIn (e :: es) = removedIn es := by
      cases e <;> first | rfl | exact absurd rfl (hne _ _)
    rw [heq, recordsIn_apply he fun id hid => (List.mem_filter.mp hid).1, ← hgone]
    exact h
  · rw [heq, List.filter_append]
    change InLsnOrder (List.filterMap (fun id => find (fs.segs id).table k) _)
    rw [List.filterMap_append]
    refine List.pairwise_append.mpr ⟨h, ?_, fun q hq p hp => ?_⟩
    · by_cases hm : m.segmentId ∈ removedIn es
      · simp [hm]
      · cases hf : find (fs.segs m.segmentId).table k <;> simp [hm, hf]
    · obtain ⟨id, hid, hfind⟩ := List.mem_filterMap.mp hq
      obtain ⟨id', hid', hfind'⟩ := List.mem_filterMap.mp hp
      obtain ⟨hreg, hgone⟩ := List.mem_filter.mp hid
      obtain rfl := List.mem_singleton.mp (List.mem_filter.mp hid').1
      exact ha id hreg (by simpa using hgone) _ (mem_of_find hfind) _ (mem_of_find hfind') rfl hk
  · rw [heq, List.filter_filter]
    change InLsnOrder (List.filterMap (fun id => find (fs.segs id).table k) _)
    have hfilter : ((registeredIds X fs).filter fun j => j ∉ removedIn es && decide (j ≠ id)) =
        (registeredIds X fs).filter (· ∉ removedIn (.manifestAppend pos (removeEntry id) :: es)) := by
      rw [removedIn_remove]
      congr 1
      ext j
      simp [Bool.and_comm]
    rw [hfilter]
    exact h

/-- **The records stay in the order of their LSNs** when segments are registered in that order. -/
theorem inLsnOrder_run {es : List Effect} (keys : Bytes → Prop) {k : Bytes} (hk : keys k)
    (he : (disk X).All (fun e fs => StoreEffect X R e fs ∧ AppendsClean X e fs) es fs)
    (ha : EffectsInOrder X keys es fs) (h : InLsnOrder (recordsOf X fs k)) :
    InLsnOrder (recordsOf X ((disk X).run es fs) k) := by
  -- the segments that the effects still to come remove do not count
  have hrun : ∀ es (fs : Fs),
      (disk X).All (fun e fs => StoreEffect X R e fs ∧ AppendsClean X e fs) es fs →
      EffectsInOrder X keys es fs →
      InLsnOrder (recordsIn fs ((registeredIds X fs).filter (· ∉ removedIn es)) k) →
      InLsnOrder (recordsOf X ((disk X).run es fs) k) := by
    intro es
    induction es with
    | nil =>
      intro fs _ _ h
      rw [Device.run_nil, recordsOf_eq]
      simpa [removedIn] using h
    | cons e es ih =>
      intro fs he ha h
      exact ih _ he.2 ha.2 (inLsnOrder_apply hk he.1.1 he.1.2 ha.1 h)
  refine hrun es fs he ha (h.sublist ?_)
  rw [recordsOf_eq]
  exact List.filter_sublist.filterMap _

/-! ### Lookups -/

/-- The first hit among readers is the first record in the tables of their segments. -/
theorem firstHit_eq {segs : List SegmentMeta} {readers : List SegmentReader}
    (h : Readers fs segs readers) (hwf : ∀ m ∈ segs, SegmentWf X (fs.segs m.segmentId))
    (key : Bytes) :
    SegmentStore.firstHit X fs key readers =
      .ok (segs.filterMap fun m => find (fs.segs m.segmentId).table key).head? := by
  induction h with
  | nil => rfl
  | @cons m r segs readers hopen _ ih =>
    obtain ⟨img, himg⟩ := hwf m List.mem_cons_self
    rw [himg, img.openReader_files] at hopen
    cases hopen
    have ih' := ih fun m hm => hwf m (List.mem_cons_of_mem _ hm)
    rw [SegmentStore.firstHit, img.get_reader himg, List.filterMap_cons, himg, img.table_files]
    cases hfind : find (Dat.table img.dat) key with
    | none => exact ih'
    | some e => rfl

/-- **A lookup** finds the record in the last segment that has one. -/
theorem StoreInv.get_eq (h : StoreInv X R s fs) (key : Bytes) :
    s.get X fs key = .ok (recordsOf X fs key).getLast? := by
  have hwf : ∀ m ∈ (registered X fs).reverse, SegmentWf X (fs.segs m.segmentId) := fun m hm =>
    (h.disk.wf _ (mem_registeredIds (List.mem_reverse.mp hm))).2
  rw [SegmentStore.get, firstHit_eq (List.forall₂_reverse_iff.mpr h.readers) hwf,
    List.filterMap_reverse, List.head?_reverse]
  simp only [recordsOf, layers, registeredIds, List.map_map, List.filterMap_map]
  rfl

/-! ### Scans -/

/-- A scan without limit reduces a sorted sequence to the newest live entries. -/
theorem collectMerged_some {b : Bytes × MemEntry} {results l : List (Bytes × MemEntry)} :
    collectMerged none (some b) results (l.map .ok) =
      .ok (results ++ (newestFrom MemEntry.lsn b l).filter (fun p => p.2.op ≠ .delete), false) := by
  induction l generalizing b results with
  | nil =>
    rw [List.map_nil, collectMerged, newestFrom, List.filter_cons]
    by_cases hb : b.2.op = .delete <;> simp [hb]
  | cons p l ih =>
    rw [List.map_cons, collectMerged, newestFrom]
    by_cases hk : b.1 = p.1
    · rw [if_pos hk, if_pos hk, ih]
    · rw [if_neg hk, if_neg hk, List.filter_cons]
      by_cases hb : b.2.op = .delete <;> simp [hb, ih]

theorem collectMerged_eq {l : List (Bytes × MemEntry)} :
    collectMerged none none [] (l.map .ok) =
      .ok ((newest MemEntry.lsn l).filter (fun p => p.2.op ≠ .delete), false) := by
  cases l with
  | nil => rfl
  | cons p l =>
    rw [List.map_cons, collectMerged, collectMerged_some]
    rfl

theorem KeySorted.le {l : List (Bytes × MemEntry)} (h : KeySorted l) :
    l.Pairwise fun p q => p.1 ≤ q.1 := h.imp le_of_lt

/-- The cursors over readers yield the entries of their tables in the range. -/
theorem cursors_eq {segs : List SegmentMeta} {readers : List SegmentReader}
    (h : Readers fs segs readers) (hwf : ∀ m ∈ segs, SegmentWf X (fs.segs m.segmentId))
    (start «end» : Bytes) :
    ∃ cursors streams,
      (readers.mapM fun r => SegmentCursor.open fs r start «end») = .ok cursors ∧
      cursors.filterMap id = KWayMerge.okStreams EdgestoreError streams ∧
      (∀ l ∈ streams, KeySorted l) ∧
      streams.flatten = segs.flatMap fun m => within start «end» (fs.segs m.segmentId).table := by
  induction h with
  | nil => exact ⟨[], [], rfl, rfl, by simp, rfl⟩
  | @cons m r segs readers hopen _ ih =>
    obtain ⟨img, himg⟩ := hwf m List.mem_cons_self
    rw [himg, img.openReader_files] at hopen
    cases hopen
    obtain ⟨cursors, streams, hmap, hstreams, hsorted, hflat⟩ :=
      ih fun m hm => hwf m (List.mem_cons_of_mem _ hm)
    obtain ⟨items, hitems, heq⟩ := img.cursor_reader himg start «end»
    refine ⟨items :: cursors, (items.map fun _ => within start «end» (Dat.table img.dat)).toList ++
      streams, ?_, ?_, ?_, ?_⟩
    · rw [List.mapM_cons, hitems]
      change ((readers.mapM fun r => SegmentCursor.open fs r start «end») >>=
        fun cs => Except.ok (items :: cs)) = _
      rw [hmap]
      rfl
    · cases items with
      | none => exact hstreams
      | some items =>
        obtain rfl : items = (within start «end» (Dat.table img.dat)).map .ok := heq
        simpa [KWayMerge.okStreams] using hstreams
    · intro l hl
      rcases List.mem_append.mp hl with hl | hl
      · cases items with
        | none => simp at hl
        | some items =>
          obtain rfl : l = within start «end» (Dat.table img.dat) := by simpa using hl
          exact img.sorted.filter _
      · exact hsorted l hl
    · rw [List.flatten_append, hflat, List.flatMap_cons, himg, img.table_files]
      congr 1
      cases items with
      | none =>
        have : (within start «end» (Dat.table img.dat)).map
            (Except.ok (ε := EdgestoreError)) = [] := heq.symm
        rw [List.map_eq_nil_iff.mp this]
        rfl
      | some items => simp

/-- What a scan finds for each key of the range: a newest record, if there is a record. -/
structure Scanned (X : Externals) (fs : Fs) (start «end» : Bytes) (l : List (Bytes × MemEntry)) :
    Prop where
  sorted : KeySorted l
  range : ∀ p ∈ l, start ≤ p.1 ∧ p.1 < «end»
  newest : ∀ k e, find l k = some e → IsNewest (recordsOf X fs k) e
  all : ∀ k, start ≤ k → k < «end» → find l k = none → recordsOf X fs k = []

/-- The entries of the registered segments in a range. -/
def entriesWithin (X : Externals) (fs : Fs) (start «end» : Bytes) : List (Bytes × MemEntry) :=
  (registered X fs).flatMap fun m => within start «end» (fs.segs m.segmentId).table

/-- An entry is merged when it is one of a registered segment, in the range. -/
theorem mem_entriesWithin (hwf : ∀ m ∈ registered X fs, SegmentWf X (fs.segs m.segmentId))
    {start «end» k : Bytes} {e : MemEntry} :
    (k, e) ∈ entriesWithin X fs start «end» ↔ start ≤ k ∧ k < «end» ∧ e ∈ recordsOf X fs k := by
  rw [mem_recordsOf]
  simp only [entriesWithin, List.mem_flatMap, within, List.mem_filter, decide_eq_true_eq,
    registeredIds, List.mem_map]
  constructor
  · rintro ⟨m, hm, hmem, hstart, hend⟩
    exact ⟨hstart, hend, m.segmentId, ⟨m, hm, rfl⟩, (hwf m hm).sorted.find_eq_some_iff.mpr hmem⟩
  · rintro ⟨hstart, hend, -, ⟨m, hm, rfl⟩, hfind⟩
    exact ⟨m, hm, mem_of_find hfind, hstart, hend⟩

theorem StoreInv.wf (h : StoreInv X R s fs) :
    ∀ m ∈ registered X fs, SegmentWf X (fs.segs m.segmentId) :=
  fun _ hm => (h.disk.wf _ (mem_registeredIds hm)).2

/-- A scan consumes the entries of the segments of its readers, in key order. -/
theorem Readers.rangeScanBudgeted_popped {segs : List SegmentMeta} (h : Readers fs segs s.readers)
    (hwf : ∀ m ∈ segs, SegmentWf X (fs.segs m.segmentId)) (start «end» : Bytes) :
    ∃ out : List (Bytes × MemEntry),
      out.Perm (segs.flatMap fun m => within start «end» (fs.segs m.segmentId).table) ∧
      (out.Pairwise fun p q => p.1 ≤ q.1) ∧
      ∀ maxItems, s.rangeScanBudgeted fs start «end» maxItems =
        collectMerged maxItems none [] (out.map .ok) := by
  obtain ⟨cursors, streams, hmap, hstreams, hsorted, hflat⟩ := cursors_eq h hwf start «end»
  obtain ⟨out, hout, hperm, hout_sorted⟩ := KWayMerge.merged_eq MemEntry.lsn
    (ε := EdgestoreError) fun l hl => (hsorted l hl).le
  rw [hflat] at hperm
  refine ⟨out, hperm, hout_sorted, fun maxItems => ?_⟩
  rw [SegmentStore.rangeScanBudgeted, hmap]
  change (KWayMerge.merged MemEntry.lsn (cursors.filterMap id) >>= collectMerged maxItems none []) = _
  rw [hstreams, hout]
  rfl

/-- A scan consumes the entries of the registered segments, in key order. -/
theorem StoreInv.rangeScanBudgeted_popped (h : StoreInv X R s fs) (start «end» : Bytes) :
    ∃ out : List (Bytes × MemEntry),
      out.Perm (entriesWithin X fs start «end») ∧ (out.Pairwise fun p q => p.1 ≤ q.1) ∧
      ∀ maxItems, s.rangeScanBudgeted fs start «end» maxItems =
        collectMerged maxItems none [] (out.map .ok) :=
  h.readers.rangeScanBudgeted_popped h.wf start «end»

/-- The newest of the entries in a range. -/
theorem scanned_newest {start «end» : Bytes} {out : List (Bytes × MemEntry)}
    (hwf : ∀ m ∈ registered X fs, SegmentWf X (fs.segs m.segmentId))
    (hperm : out.Perm (entriesWithin X fs start «end»)) (hsorted : out.Pairwise fun p q => p.1 ≤ q.1) :
    Scanned X fs start «end» (newest MemEntry.lsn out) := by
  have hmem : ∀ k e, (k, e) ∈ out ↔ start ≤ k ∧ k < «end» ∧ e ∈ recordsOf X fs k := fun k e => by
    rw [hperm.mem_iff, mem_entriesWithin hwf]
  refine ⟨keySorted_newest hsorted, fun p hp => ?_, fun k e hfind => ?_,
    fun k hstart hend hfind => ?_⟩
  · obtain ⟨hstart, hend, -⟩ := (hmem p.1 p.2).mp (mem_newest hp)
    exact ⟨hstart, hend⟩
  · obtain ⟨hin, hmax⟩ := find_newest hsorted hfind
    obtain ⟨hstart, hend, hrec⟩ := (hmem k e).mp hin
    exact ⟨hrec, fun e' he' => hmax e' ((hmem k e').mpr ⟨hstart, hend, he'⟩)⟩
  · refine List.eq_nil_iff_forall_not_mem.mpr fun e he => ?_
    exact find_newest_eq_none hfind e ((hmem k e).mpr ⟨hstart, hend, he⟩)

/-- **A scan** finds a newest record of every key in the range, and drops tombstones. -/
theorem StoreInv.rangeScanBudgeted_eq (h : StoreInv X R s fs) (start «end» : Bytes) :
    ∃ l, Scanned X fs start «end» l ∧
      s.rangeScanBudgeted fs start «end» none =
        .ok (l.filter (fun p => p.2.op ≠ .delete), false) := by
  obtain ⟨out, hperm, hsorted, hscan⟩ := h.rangeScanBudgeted_popped start «end»
  exact ⟨_, scanned_newest h.wf hperm hsorted, (hscan none).trans collectMerged_eq⟩

/-! ### Scans with a limit -/

/-- A scan with a limit returns the first newest live entries. If it does not stop early, these are all. -/
theorem collectMerged_limit_some {n : ℕ} {b : Bytes × MemEntry} {results l : List (Bytes × MemEntry)}
    (hlen : results.length < n) :
    ∃ stopped, collectMerged (some n) (some b) results (l.map .ok) =
      .ok ((results ++ (newestFrom MemEntry.lsn b l).filter (fun p => p.2.op ≠ .delete)).take n,
        stopped) ∧
      (stopped = false → (results ++
        (newestFrom MemEntry.lsn b l).filter (fun p => p.2.op ≠ .delete)).length ≤ n) := by
  induction l generalizing b results with
  | nil =>
    have hall : (results ++ [b].filter (fun p => p.2.op ≠ .delete)).length ≤ n := by
      have hb := List.length_filter_le (fun p : Bytes × MemEntry => p.2.op ≠ .delete) [b]
      simp only [List.length_append, List.length_singleton] at hb ⊢
      omega
    refine ⟨false, ?_, fun _ => hall⟩
    rw [List.map_nil, collectMerged, newestFrom, List.take_of_length_le hall, List.filter_cons]
    by_cases hb : b.2.op = .delete <;> simp [hb]
  | cons p l ih =>
    rw [List.map_cons, collectMerged, newestFrom]
    by_cases hk : b.1 = p.1
    · rw [if_pos hk, if_pos hk]
      exact ih hlen
    · rw [if_neg hk, if_neg hk, List.filter_cons]
      by_cases hb : b.2.op = .delete
      · rw [if_neg (not_not.mpr hb), if_neg (by simpa using hb)]
        exact ih hlen
      · have hcons : results ++ b :: (newestFrom MemEntry.lsn p l).filter (fun p => p.2.op ≠ .delete) =
            results ++ [b] ++ (newestFrom MemEntry.lsn p l).filter (fun p => p.2.op ≠ .delete) :=
          List.append_cons ..
        rw [if_pos hb, if_pos (decide_eq_true hb), hcons]
        by_cases hn : results.length + 1 ≥ n
        · -- the limit is reached with `b`
          have hfull : (results ++ [b]).length = n := by
            rw [List.length_append, List.length_singleton]
            omega
          refine ⟨true, ?_, fun h => absurd h (by decide)⟩
          rw [if_pos (by simpa using hn), ← hfull, List.take_left]
        · rw [if_neg (by simpa using hn)]
          exact ih (by rw [List.length_append, List.length_singleton]; omega)

theorem collectMerged_limit {n : ℕ} (hn : 1 ≤ n) (l : List (Bytes × MemEntry)) :
    ∃ stopped, collectMerged (some n) none [] (l.map .ok) =
      .ok (((newest MemEntry.lsn l).filter (fun p => p.2.op ≠ .delete)).take n, stopped) ∧
      (stopped = false → ((newest MemEntry.lsn l).filter (fun p => p.2.op ≠ .delete)).length ≤ n) := by
  cases l with
  | nil => exact ⟨false, by simp [collectMerged, newest], fun _ => Nat.zero_le _⟩
  | cons p l =>
    rw [List.map_cons, collectMerged, newest]
    have hlen : ([] : List (Bytes × MemEntry)).length < n := hn
    exact collectMerged_limit_some hlen
