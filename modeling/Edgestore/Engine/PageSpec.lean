import Edgestore.Engine.Pages
import Edgestore.Engine.Reads
import Mathlib.Data.List.Pairwise

/-!
# What a page holds

A range shows what two layers show together: the newest live entries of the segments, and the
memtable. A page sees the segments only up to a limit, but the whole memtable.

## Main definitions

* `OneRecordPerLsn`: the segments hold no two records of one key under one LSN
* `Engine.segmentLayer`: the newest live entries of the segments in a range
* `Engine.visible`: what a range shows

## Main results

* `Engine.range_eq_visible`: a range returns what is shown
* `Engine.rangePage_eq`, `Engine.rangeRevPage_eq`: what a page returns
* `Engine.visible_suffix`, `Engine.visible_prefix`: what a part of a range shows
-/

variable {X : Externals} {R : List SegmentId} {fs : Fs}

/-! ### Encoded keys -/

/-- The encoded key of a namespace that is not too long. -/
def encoded (ns key : Bytes) : Bytes := beBytes 2 ns.length ++ ns ++ key

theorem encodeKey_eq_encoded {ns : Bytes} (hns : ns.length ≤ maxNsLen) (key : Bytes) :
    encodeKey ns key = .ok (encoded ns key) := encodeKey_eq_ok.mpr ⟨hns, rfl⟩

@[simp] theorem encoded_lt_iff {ns a b : Bytes} : encoded ns a < encoded ns b ↔ a < b :=
  append_lt_append_iff

@[simp] theorem encoded_le_iff {ns a b : Bytes} : encoded ns a ≤ encoded ns b ↔ a ≤ b :=
  append_le_append_iff

theorem rawKey_encoded (ns key : Bytes) : rawKey ns (encoded ns key) = key := by
  rw [rawKey, encoded, List.drop_left' (by simp)]

theorem lt_append_zero (k : Bytes) : k < k ++ [0] := by
  have h : k ++ [] < k ++ [0] := append_lt_append_iff.mpr (List.nil_lt_cons 0 [])
  rwa [List.append_nil] at h

/-- The key right behind `k`. -/
theorem append_zero_le_iff {k key : Bytes} : k ++ [0] ≤ key ↔ k < key := by
  constructor
  · exact (lt_append_zero k).trans_le
  · intro h
    by_contra hlt
    -- a key between `k` and `k ++ [0]` continues `k`
    obtain ⟨c, rfl⟩ : ∃ c, key = k ++ c :=
      prefix_of_between (a := []) (by rw [List.append_nil]; exact h.le) (not_le.mp hlt)
    rw [append_le_append_iff] at hlt
    cases c with
    | nil =>
      rw [List.append_nil] at h
      exact absurd h (lt_irrefl k)
    | cons x c =>
      apply hlt
      rw [← not_lt, List.cons_lt_cons_iff]
      rintro (hx | ⟨-, hc⟩)
      · exact absurd hx (by simp)
      · exact absurd hc (List.not_lt_nil c)

/-! ### The layers of a range -/

/-- The segments hold no two records of one key under one LSN. -/
def OneRecordPerLsn (X : Externals) (fs : Fs) : Prop :=
  ∀ k, ∀ a ∈ recordsOf X fs k, ∀ b ∈ recordsOf X fs k, a.lsn = b.lsn → a = b

theorem IsNewest.unique {k : Bytes} {a b : MemEntry} (hone : OneRecordPerLsn X fs)
    (ha : IsNewest (recordsOf X fs k) a) (hb : IsNewest (recordsOf X fs k) b) : a = b :=
  hone k a ha.1 b hb.1 (Nat.le_antisymm (hb.2 a ha.1) (ha.2 b hb.1))

/-- Records in the order of their LSNs have different LSNs. -/
theorem OneRecordPerLsn.of_inLsnOrder (h : ∀ k, InLsnOrder (recordsOf X fs k)) :
    OneRecordPerLsn X fs := by
  intro k a ha b hb hlsn
  by_contra hne
  have hpair : (recordsOf X fs k).Pairwise fun a b => a.lsn ≠ b.lsn ∨ a = b :=
    (h k).imp fun hab => hab.imp_left Nat.ne_of_lt
  have : Std.Symm fun a b : MemEntry => a.lsn ≠ b.lsn ∨ a = b :=
    ⟨fun _ _ hab => hab.imp Ne.symm Eq.symm⟩
  rcases hpair.forall ha hb hne with hab | hab
  · exact hab hlsn
  · exact hne hab

/-- Scans of ranges that share a key find the same record of it. -/
theorem Scanned.find_eq {a b a' b' k : Bytes} {l l' : List (Bytes × MemEntry)}
    (hone : OneRecordPerLsn X fs) (h : Scanned X fs a b l) (h' : Scanned X fs a' b' l')
    (ha : a ≤ k) (hb : k < b) (ha' : a' ≤ k) (hb' : k < b') : find l k = find l' k := by
  cases hl : find l k with
  | none =>
    cases hl' : find l' k with
    | none => rfl
    | some e =>
      have hmem := (h'.newest k e hl').1
      rw [h.all k ha hb hl] at hmem
      cases hmem
  | some e =>
    cases hl' : find l' k with
    | none =>
      have hmem := (h.newest k e hl).1
      rw [h'.all k ha' hb' hl'] at hmem
      cases hmem
    | some e' => rw [(h.newest k e hl).unique hone (h'.newest k e' hl')]

/-- Outside the range a scan finds nothing. -/
theorem Scanned.find_eq_none {a b k : Bytes} {l : List (Bytes × MemEntry)}
    (h : Scanned X fs a b l) (hk : ¬ (a ≤ k ∧ k < b)) : find l k = none := by
  apply find_eq_none_iff.mpr
  rintro p hp rfl
  exact hk (h.range p hp)

/-! ### The descending scan of the segments -/

/-- Every reader yields the entries of its segment in the range. -/
theorem perReader_eq {segs : List SegmentMeta} {readers : List SegmentReader}
    (h : Readers fs segs readers) (hwf : ∀ m ∈ segs, SegmentWf X (fs.segs m.segmentId))
    (a b : Bytes) :
    (readers.mapM fun r =>
      if b ≤ r.segMeta.minKey ∨ a > r.segMeta.maxKey then (.ok [] : Except EdgestoreError _)
      else r.rangeScan fs a b) = .ok (segs.map fun m => within a b (fs.segs m.segmentId).table) := by
  induction h with
  | nil => rfl
  | @cons m r segs readers hopen _ ih =>
    obtain ⟨img, himg⟩ := hwf m List.mem_cons_self
    rw [himg, img.openReader_files] at hopen
    cases hopen
    have ih' := ih fun m hm => hwf m (List.mem_cons_of_mem _ hm)
    -- a segment that is passed over has no entry in the range
    have hhead : (if b ≤ (img.reader m.segmentId).segMeta.minKey ∨
        a > (img.reader m.segmentId).segMeta.maxKey then (.ok [] : Except EdgestoreError _)
        else (img.reader m.segmentId).rangeScan fs a b) =
          .ok (within a b (fs.segs m.segmentId).table) := by
      rw [himg, img.table_files]
      split
      case isTrue hout => rw [img.within_eq_nil hout]
      case isFalse => exact img.rangeScan_reader himg a b
    rw [List.mapM_cons, hhead, ih']
    rfl

/-- The descending merge pops the entries of all segments, in descending order of their keys. -/
theorem poppedDown_eq {segs : List (List (Bytes × MemEntry))} (h : ∀ l ∈ segs, KeySorted l) :
    ∃ out : List (Bytes × MemEntry), SegmentStore.poppedDown segs = .ok (out.map .ok) ∧
      out.Perm segs.flatten ∧ out.Pairwise fun p q => q.1 ≤ p.1 := by
  set streams : List (List (Bytesᵒᵈ × MemEntry)) :=
    segs.map fun seg => seg.reverse.map fun p => (OrderDual.toDual p.1, p.2) with hstreams
  have hsorted : ∀ l ∈ streams, l.Pairwise fun p q => p.1 ≤ q.1 := by
    intro l hl
    obtain ⟨seg, hseg, rfl⟩ := List.mem_map.mp hl
    rw [List.pairwise_map, List.pairwise_reverse]
    exact (h seg hseg).imp le_of_lt
  obtain ⟨out, hout, hperm, hdown⟩ := KWayMerge.merged_eq SegmentStore.revVersion
    (ε := EdgestoreError) hsorted
  refine ⟨out.map fun p => (OrderDual.ofDual p.1, p.2), ?_, ?_, ?_⟩
  · have hok : (segs.map fun seg => seg.reverse.map fun p =>
        (.ok (OrderDual.toDual p.1, p.2) : Except EdgestoreError _)) =
          KWayMerge.okStreams EdgestoreError streams := by
      rw [hstreams, KWayMerge.okStreams, List.map_map]
      refine List.map_congr_left fun seg _ => ?_
      exact (List.map_map ..).symm
    rw [SegmentStore.poppedDown, hok, hout]
    change Except.ok ((out.map Except.ok).map _) = _
    rw [List.map_map, List.map_map]
    rfl
  · refine (hperm.map _).trans ?_
    rw [hstreams, List.map_flatten, List.map_map]
    have hflat : (segs.map ((List.map fun p => (OrderDual.ofDual p.1, p.2)) ∘ fun seg =>
        seg.reverse.map fun p => (OrderDual.toDual p.1, p.2))) = segs.map List.reverse := by
      refine List.map_congr_left fun seg _ => ?_
      change (seg.reverse.map _).map _ = _
      rw [List.map_map]
      exact List.map_id' _
    rw [hflat]
    clear hflat hperm hout hdown hsorted hstreams
    induction segs with
    | nil => exact .refl _
    | cons seg segs ih =>
      exact (List.reverse_perm seg).append (ih fun l hl => h l (List.mem_cons_of_mem _ hl))
  · rw [List.pairwise_map]
    exact hdown

/-- The newest entries in descending order are those in ascending order, reversed. -/
theorem newest_descending (hone : OneRecordPerLsn X fs)
    (hwf : ∀ m ∈ registered X fs, SegmentWf X (fs.segs m.segmentId)) {a b : Bytes}
    {out l : List (Bytes × MemEntry)} (hl : Scanned X fs a b l)
    (hperm : out.Perm (entriesWithin X fs a b)) (hdown : out.Pairwise fun p q => q.1 ≤ p.1) :
    newest MemEntry.lsn out = l.reverse := by
  have hgroups : GroupsBy (· > ·) out := hdown.imp fun h => h.eq_or_lt.imp_left Eq.symm
  refine (keysBy_newest hgroups).ext hl.sorted.keysBy.reverse fun k => ?_
  have hmem : ∀ e, e ∈ entriesOf out k ↔ a ≤ k ∧ k < b ∧ e ∈ recordsOf X fs k := fun e => by
    rw [mem_entriesOf, hperm.mem_iff, mem_entriesWithin hwf]
  rw [find_newest_eq hgroups, hl.sorted.keysBy.find_reverse]
  cases hbest : bestOf MemEntry.lsn (entriesOf out k) with
  | none =>
    -- no record of the key is in the range
    symm
    cases hk : find l k with
    | none => rfl
    | some e =>
      have hin := hl.range _ (mem_of_find hk)
      have he := (hmem e).mpr ⟨hin.1, hin.2, (hl.newest k e hk).1⟩
      rw [bestOf_eq_none hbest] at he
      cases he
  | some e =>
    obtain ⟨he, hmax⟩ := bestOf_spec hbest
    obtain ⟨ha, hb, hrec⟩ := (hmem e).mp he
    have hnewest : IsNewest (recordsOf X fs k) e :=
      ⟨hrec, fun e' he' => hmax e' ((hmem e').mpr ⟨ha, hb, he'⟩)⟩
    cases hk : find l k with
    | none =>
      rw [hl.all k ha hb hk] at hrec
      cases hrec
    | some e' => rw [hnewest.unique hone (hl.newest k e' hk)]

namespace Engine

/-- The newest live entries of the segments in a range of encoded keys. -/
def segmentLayer (fs : Fs) (e : Engine) (a b : Bytes) : List (Bytes × MemEntry) :=
  match e.segmentStore.rangeScanBudgeted fs a b none with
  | .ok (l, _) => l
  | .error _ => []

variable {e : Engine} {ns start «end» : Bytes}

theorem segmentLayer_eq (h : StoreInv X R e.segmentStore fs) (a b : Bytes) :
    ∃ l, Scanned X fs a b l ∧ e.segmentLayer fs a b = l.filter (fun p => p.2.op ≠ .delete) := by
  obtain ⟨l, hl, hscan⟩ := h.rangeScanBudgeted_eq a b
  exact ⟨l, hl, by rw [segmentLayer, hscan]⟩

theorem keySorted_segmentLayer (h : StoreInv X R e.segmentStore fs) (a b : Bytes) :
    KeySorted (e.segmentLayer fs a b) := by
  obtain ⟨l, hl, heq⟩ := segmentLayer_eq h a b
  rw [heq]
  exact hl.sorted.filter _

theorem segmentLayer_range (h : StoreInv X R e.segmentStore fs) {a b : Bytes} :
    ∀ p ∈ e.segmentLayer fs a b, a ≤ p.1 ∧ p.1 < b := by
  obtain ⟨l, hl, heq⟩ := segmentLayer_eq h a b
  rw [heq]
  intro p hp
  exact hl.range p (List.mem_filter.mp hp).1

/-- Every range that contains a key has the same entry of it in the layer of the segments. -/
theorem find_segmentLayer (hone : OneRecordPerLsn X fs) (h : StoreInv X R e.segmentStore fs)
    {a b a' b' k : Bytes} (ha : a ≤ a') (hb : b' ≤ b) :
    find (e.segmentLayer fs a' b') k =
      if a' ≤ k ∧ k < b' then find (e.segmentLayer fs a b) k else none := by
  obtain ⟨l, hl, heq⟩ := segmentLayer_eq h a b
  obtain ⟨l', hl', heq'⟩ := segmentLayer_eq h a' b'
  rw [heq, heq', hl.sorted.find_filter, hl'.sorted.find_filter]
  split
  case isTrue hk =>
    rw [hl'.find_eq hone hl hk.1 hk.2 (ha.trans hk.1) (hk.2.trans_le hb)]
  case isFalse hk => rw [hl'.find_eq_none hk, Option.filter_none]

/-! ### What a range shows -/

theorem mergeSortedScans_eq_mergeBy (s m : List (Bytes × MemEntry)) :
    mergeSortedScans s m = mergeBy (· < ·) s m := by
  induction s generalizing m with
  | nil => rfl
  | cons p s ih =>
    induction m with
    | nil => rfl
    | cons q m ihm =>
      change (if p.1 ≤ q.1 then p :: mergeSortedScans s (q :: m)
        else q :: mergeSortedScans (p :: s) m) = _
      rw [mergeBy_cons_cons, ih, ihm]
      by_cases hle : p.1 ≤ q.1
      · rw [if_pos hle, if_neg (not_lt.mpr hle)]
      · rw [if_neg hle, if_pos (not_le.mp hle)]

theorem mergeDescending_eq_mergeBy (s m : List (Bytes × MemEntry)) :
    mergeDescending s m = mergeBy (· > ·) s m := by
  induction s generalizing m with
  | nil => rfl
  | cons p s ih =>
    induction m with
    | nil => rfl
    | cons q m ihm =>
      change (if p.1 ≥ q.1 then p :: mergeDescending s (q :: m)
        else q :: mergeDescending (p :: s) m) = _
      rw [mergeBy_cons_cons, ih, ihm]
      by_cases hge : p.1 ≥ q.1
      · rw [if_pos hge, if_neg (not_lt.mpr hge)]
      · rw [if_neg hge, if_pos (not_le.mp hge)]

/-- What a range shows. -/
def visible (fs : Fs) (e : Engine) (ns start «end» : Bytes) : List (Bytes × Bytes) :=
  shown (· < ·) MemEntry.lsn (emitted ns) (e.segmentLayer fs (encoded ns start) (encoded ns «end»))
    (e.memtable.range (encoded ns start) (encoded ns «end»))

/-- The entries that a range merges and reduces. -/
def reduced (fs : Fs) (e : Engine) (ns start «end» : Bytes) : List (Bytes × MemEntry) :=
  newest MemEntry.lsn (mergeBy (· < ·) (e.segmentLayer fs (encoded ns start) (encoded ns «end»))
    (e.memtable.range (encoded ns start) (encoded ns «end»)))

theorem visible_eq_reduced : e.visible fs ns start «end» =
    (e.reduced fs ns start «end»).filterMap (emitted ns) := rfl

/-- The keys of both layers are keys of the namespace. -/
theorem exists_encoded {s m : List (Bytes × MemEntry)} {a b : Bytes} (hns : ns.length ≤ maxNsLen)
    (hs : ∀ p ∈ s, encoded ns a ≤ p.1 ∧ p.1 < encoded ns b)
    (hm : ∀ p ∈ m, encoded ns a ≤ p.1 ∧ p.1 < encoded ns b) :
    ∀ p, p ∈ s ∨ p ∈ m → ∃ key, encodeKey ns key = .ok p.1 := by
  rintro p hp
  have hbetween := hp.elim (hs p) (hm p)
  exact encodeKey_of_between (encodeKey_eq_encoded hns a) (encodeKey_eq_encoded hns b)
    hbetween.1 hbetween.2

theorem memtable_range (m : MemTable) (a b : Bytes) : ∀ p ∈ m.range a b, a ≤ p.1 ∧ p.1 < b := by
  intro p hp
  simpa using (List.mem_filter.mp hp).2

theorem overlays_reduced (h : StoreInv X R e.segmentStore fs) :
    Overlays (· < ·) MemEntry.lsn (e.segmentLayer fs (encoded ns start) (encoded ns «end»))
      (e.memtable.range (encoded ns start) (encoded ns «end»)) (e.reduced fs ns start «end») :=
  .of_merge (keySorted_segmentLayer h _ _) (MemTable.keySorted_range _ _ _)

theorem reduced_encoded (h : StoreInv X R e.segmentStore fs) (hns : ns.length ≤ maxNsLen) :
    ∀ p ∈ e.reduced fs ns start «end», ∃ key, encodeKey ns key = .ok p.1 := fun p hp =>
  exists_encoded hns (segmentLayer_range h) (memtable_range _ _ _) p (mem_mergeBy.mp (mem_newest hp))

/-- What is emitted is sorted by key. -/
theorem keySorted_emitted {l : List (Bytes × MemEntry)} (hs : KeySorted l)
    (hl : ∀ p ∈ l, ∃ key, encodeKey ns key = .ok p.1) : KeySorted (l.filterMap (emitted ns)) := by
  induction l with
  | nil => exact keySorted_nil
  | cons p l ih =>
    obtain ⟨hlt, hs'⟩ := keySorted_cons.mp hs
    have ih' := ih hs' fun q hq => hl q (List.mem_cons_of_mem _ hq)
    rw [List.filterMap_cons]
    cases hp : emitted ns p with
    | none => exact ih'
    | some r =>
      refine keySorted_cons.mpr ⟨?_, ih'⟩
      intro q hq
      obtain ⟨p', hp', hq'⟩ := List.mem_filterMap.mp hq
      obtain ⟨key, hkey⟩ := hl p List.mem_cons_self
      obtain ⟨key', hkey'⟩ := hl p' (List.mem_cons_of_mem _ hp')
      -- a pair has the key of its entry, and encoding keeps the order
      simp only [emitted, rawKey_encodeKey hkey, Option.map_eq_some_iff] at hp
      simp only [emitted, rawKey_encodeKey hkey', Option.map_eq_some_iff] at hq'
      obtain ⟨v, -, rfl⟩ := hp
      obtain ⟨v', -, rfl⟩ := hq'
      exact (encodeKey_lt_iff hkey hkey').mp (hlt p' hp')

theorem keySorted_visible (h : StoreInv X R e.segmentStore fs) (hns : ns.length ≤ maxNsLen) :
    KeySorted (e.visible fs ns start «end») :=
  keySorted_emitted (overlays_reduced h).sorted (reduced_encoded h hns)

/-- The value shown for a key is that of the entry that wins. -/
theorem find_visible (h : StoreInv X R e.segmentStore fs) (hns : ns.length ≤ maxNsLen) (key : Bytes) :
    find (e.visible fs ns start «end») key =
      (pick MemEntry.lsn
        (find (e.segmentLayer fs (encoded ns start) (encoded ns «end»)) (encoded ns key))
        (find (e.memtable.range (encoded ns start) (encoded ns «end»)) (encoded ns key))).bind
          MemEntry.live := by
  rw [visible_eq_reduced, find_emitted (overlays_reduced h).sorted (reduced_encoded h hns)
    (encodeKey_eq_encoded hns key), (overlays_reduced h).find_eq]

/-- **A part of a range** shows the same pairs. -/
theorem find_visible_within (hone : OneRecordPerLsn X fs) (h : StoreInv X R e.segmentStore fs)
    (hns : ns.length ≤ maxNsLen) {start' end' : Bytes} (hstart : start ≤ start') (hend : end' ≤ «end»)
    (key : Bytes) :
    find (e.visible fs ns start' end') key =
      if start' ≤ key ∧ key < end' then find (e.visible fs ns start «end») key else none := by
  rw [find_visible h hns, find_visible h hns,
    find_segmentLayer hone h (encoded_le_iff.mpr hstart) (encoded_le_iff.mpr hend),
    MemTable.find_range, MemTable.find_range]
  simp only [encoded_le_iff, encoded_lt_iff]
  by_cases hk : start' ≤ key ∧ key < end'
  · have hk' : start ≤ key ∧ key < «end» := ⟨hstart.trans hk.1, hk.2.trans_le hend⟩
    rw [if_pos hk, if_pos hk, if_pos hk, if_pos hk']
  · rw [if_neg hk, if_neg hk, if_neg hk]
    rfl

/-- The keys shown are in the range. -/
theorem visible_range (h : StoreInv X R e.segmentStore fs) (hns : ns.length ≤ maxNsLen) :
    ∀ q ∈ e.visible fs ns start «end», start ≤ q.1 ∧ q.1 < «end» := by
  intro q hq
  obtain ⟨v, hv⟩ := find_isSome_of_mem hq
  rw [find_visible h hns] at hv
  by_contra hk
  have hs : find (e.segmentLayer fs (encoded ns start) (encoded ns «end»)) (encoded ns q.1) = none :=
    find_eq_none_iff.mpr fun p hp heq => hk (by
      simpa [heq] using segmentLayer_range h p hp)
  rw [hs, MemTable.find_range, if_neg (by simpa using hk)] at hv
  cases hv

/-- What is shown behind a key of the range. -/
theorem visible_suffix (hone : OneRecordPerLsn X fs) (h : StoreInv X R e.segmentStore fs)
    (hns : ns.length ≤ maxNsLen) {start' : Bytes} (hstart : start ≤ start') :
    e.visible fs ns start' «end» = (e.visible fs ns start «end»).filter fun q => start' ≤ q.1 := by
  refine (keySorted_visible h hns).ext ((keySorted_visible h hns).filter _) fun key => ?_
  rw [find_visible_within hone h hns hstart le_rfl, find_filter_key fun k => decide (start' ≤ k)]
  by_cases hk : start' ≤ key
  · by_cases hend : key < «end»
    · simp [hk, hend]
    · have hnone : find (e.visible fs ns start «end») key = none :=
        find_eq_none_iff.mpr fun q hq heq => hend (heq ▸ (visible_range h hns q hq).2)
      simp [hk, hend, hnone]
  · simp [hk]

/-- What is shown in front of a key of the range. -/
theorem visible_prefix (hone : OneRecordPerLsn X fs) (h : StoreInv X R e.segmentStore fs)
    (hns : ns.length ≤ maxNsLen) {end' : Bytes} (hend : end' ≤ «end») :
    e.visible fs ns start end' = (e.visible fs ns start «end»).filter fun q => q.1 < end' := by
  refine (keySorted_visible h hns).ext ((keySorted_visible h hns).filter _) fun key => ?_
  rw [find_visible_within hone h hns le_rfl hend, find_filter_key fun k => decide (k < end')]
  by_cases hk : key < end'
  · by_cases hstart : start ≤ key
    · simp [hk, hstart]
    · have hnone : find (e.visible fs ns start «end») key = none :=
        find_eq_none_iff.mpr fun q hq heq => hstart (heq ▸ (visible_range h hns q hq).1)
      simp [hk, hstart, hnone]
  · simp [hk]

/-- **A range** returns what is shown. -/
theorem range_eq_visible (h : StoreInv X R e.segmentStore fs) (hns : ns.length ≤ maxNsLen)
    (start «end» : Bytes) : e.range fs ns start «end» = .ok (e.visible fs ns start «end») := by
  obtain ⟨l, hl, hscan⟩ := h.rangeScanBudgeted_eq (encoded ns start) (encoded ns «end»)
  have hlayer : e.segmentLayer fs (encoded ns start) (encoded ns «end») =
      l.filter fun p => p.2.op ≠ .delete := by
    rw [segmentLayer, hscan]
  set seg := l.filter fun p => p.2.op ≠ .delete with hseg
  set mem := e.memtable.range (encoded ns start) (encoded ns «end») with hmem
  have hkeys : ∀ p ∈ mergeSortedScans seg mem, ∃ key, encodeKey ns key = .ok p.1 := by
    intro p hp
    rw [mergeSortedScans_eq_mergeBy, ← hlayer] at hp
    exact exists_encoded hns (segmentLayer_range h) (memtable_range _ _ _) p (mem_mergeBy.mp hp)
  obtain ⟨stats, hdedup⟩ := dedupFilterScan_eq false
    { segmentsScanned := if seg = [] then 0 else 1 } hkeys
  have hcore : e.rangeCore fs ns start «end» none =
      .ok ⟨e.visible fs ns start «end», false, stats⟩ := by
    rw [rangeCore, encodeKey_eq_encoded hns, encodeKey_eq_encoded hns]
    change (e.segmentStore.rangeScanBudgeted fs (encoded ns start) (encoded ns «end») none >>=
      fun r => _) = _
    rw [hscan]
    refine Eq.trans hdedup ?_
    rw [visible, shown, hlayer, mergeSortedScans_eq_mergeBy]
  rw [range, hcore]
  rfl

/-! ### Scans with a limit -/

/-- The limit of a page. -/
def pageBudget (n : ℕ) : Option ScanBudget := some { maxItems := some n }

@[simp] theorem reached_pageBudget (n i : ℕ) (stats : QueryStats) :
    ScanBudget.reached (pageBudget n) i stats = decide (i ≥ n) := by
  simp [ScanBudget.reached, pageBudget]

/-- A step of the scan that emits an entry. -/
theorem dedupFilterScan_emit {budget : Option ScanBudget} {trunc : Bool} {b p : Bytes × MemEntry}
    {l : List (Bytes × MemEntry)} {out out' : List (Bytes × Bytes)} {stats : QueryStats}
    (hk : p.1 ≠ b.1) (hb : emitBest b out = .ok (some out')) :
    dedupFilterScan budget trunc (some b) out stats (p :: l) =
      if ScanBudget.reached budget out'.length stats then .ok ⟨out', true, stats⟩
      else dedupFilterScan budget trunc (some p) out' (stats.examine p) l := by
  rw [dedupFilterScan, if_neg hk, hb]
  rfl

/-- A step of the scan that drops an entry. -/
theorem dedupFilterScan_drop {budget : Option ScanBudget} {trunc : Bool} {b p : Bytes × MemEntry}
    {l : List (Bytes × MemEntry)} {out : List (Bytes × Bytes)} {stats : QueryStats}
    (hk : p.1 ≠ b.1) (hb : emitBest b out = .ok none) :
    dedupFilterScan budget trunc (some b) out stats (p :: l) =
      dedupFilterScan budget trunc (some p) out (stats.examine p) l := by
  rw [dedupFilterScan, if_neg hk, hb]
  rfl

/-- With the limit of a page, a scan returns the first of the newest live entries. If it is not
truncated, these are all. -/
theorem dedupFilterScan_limit_some {n : ℕ} {trunc : Bool} {b : Bytes × MemEntry}
    {l : List (Bytes × MemEntry)} {out : List (Bytes × Bytes)} {stats : QueryStats}
    (h : ∀ p ∈ b :: l, ∃ key, encodeKey ns key = .ok p.1) (hlen : out.length < n) :
    ∃ stats' truncated, dedupFilterScan (pageBudget n) trunc (some b) out stats l =
      .ok ⟨(out ++ (newestFrom MemEntry.lsn b l).filterMap (emitted ns)).take n, truncated, stats'⟩ ∧
      (trunc = true → truncated = true) ∧ (truncated = false →
        (out ++ (newestFrom MemEntry.lsn b l).filterMap (emitted ns)).length ≤ n) := by
  induction l generalizing b out stats with
  | nil =>
    obtain ⟨key, hkey⟩ := h b (by simp)
    have hall : (out ++ [b].filterMap (emitted ns)).length ≤ n := by
      have hb := List.length_filterMap_le (emitted ns) [b]
      simp only [List.length_append, List.length_singleton] at hb ⊢
      omega
    refine ⟨stats, trunc, ?_, id, fun _ => hall⟩
    rw [newestFrom, List.take_of_length_le hall, dedupFilterScan, emitBest_eq hkey]
    cases hb : emitted ns b <;> simp [hb] <;> rfl
  | cons p l ih =>
    have hrest : ∀ q ∈ p :: l, ∃ key, encodeKey ns key = .ok q.1 :=
      fun q hq => h q (List.mem_cons_of_mem _ hq)
    by_cases hk : p.1 = b.1
    · rw [dedupFilterScan, newestFrom, if_pos hk, if_pos hk.symm]
      refine ih (fun q hq => ?_) hlen
      rcases List.mem_cons.mp hq with rfl | hq
      · exact h b (by simp)
      · exact h q (by simp [hq])
    · obtain ⟨key, hkey⟩ := h b (by simp)
      have hemit := emitBest_eq hkey out
      rw [newestFrom, if_neg (Ne.symm hk)]
      cases hb : emitted ns b with
      | none =>
        rw [hb] at hemit
        rw [dedupFilterScan_drop hk hemit, List.filterMap_cons_none hb]
        exact ih hrest hlen
      | some q =>
        rw [hb] at hemit
        rw [dedupFilterScan_emit hk hemit, List.filterMap_cons_some hb, reached_pageBudget,
          List.append_cons]
        by_cases hn : (out ++ [q]).length ≥ n
        · -- the page is full
          have hfull : (out ++ [q]).length = n := by
            rw [List.length_append, List.length_singleton] at hn ⊢
            omega
          refine ⟨stats, true, ?_, fun _ => rfl, fun h => absurd h (by decide)⟩
          rw [if_pos (decide_eq_true hn), ← hfull, List.take_left]
        · rw [if_neg (by simpa using hn)]
          exact ih hrest (not_le.mp hn)

theorem dedupFilterScan_limit {n : ℕ} {l : List (Bytes × MemEntry)} (hn : 1 ≤ n) (trunc : Bool)
    (stats : QueryStats) (h : ∀ p ∈ l, ∃ key, encodeKey ns key = .ok p.1) :
    ∃ stats' truncated, dedupFilterScan (pageBudget n) trunc none [] stats l =
      .ok ⟨((newest MemEntry.lsn l).filterMap (emitted ns)).take n, truncated, stats'⟩ ∧
      (trunc = true → truncated = true) ∧
      (truncated = false → ((newest MemEntry.lsn l).filterMap (emitted ns)).length ≤ n) := by
  cases l with
  | nil => exact ⟨stats, trunc, by simp [dedupFilterScan, newest], id, fun _ => Nat.zero_le _⟩
  | cons p l =>
    rw [dedupFilterScan]
    have hlen : ([] : List (Bytes × Bytes)).length < n := hn
    exact dedupFilterScan_limit_some h hlen

/-! ### Forward pages -/

/-- **A forward page** sees the segments only up to the limit. It is the last one when it is not
truncated, or empty. -/
theorem rangePage_eq (h : StoreInv X R e.segmentStore fs) (hns : ns.length ≤ maxNsLen) {n : ℕ}
    (hn : 1 ≤ n) (start «end» : Bytes) (cursor : Option Bytes) {seg mem : List (Bytes × MemEntry)}
    (hseg : seg = e.segmentLayer fs (encoded ns (effectiveStart start cursor)) (encoded ns «end»))
    (hmem : mem = e.memtable.range (encoded ns (effectiveStart start cursor)) (encoded ns «end»)) :
    ∃ truncated, e.rangePage fs ns start «end» cursor n =
      .ok ⟨(shown (· < ·) MemEntry.lsn (emitted ns) (seg.take n) mem).take n,
        if truncated then
          ((shown (· < ·) MemEntry.lsn (emitted ns) (seg.take n) mem).take n).getLast?.map Prod.fst
        else none⟩ ∧ (n < seg.length → truncated = true) ∧ (truncated = false →
          (shown (· < ·) MemEntry.lsn (emitted ns) (seg.take n) mem).length ≤ n) := by
  set a := encoded ns (effectiveStart start cursor) with ha
  set b := encoded ns «end» with hb
  obtain ⟨out, hperm, hsorted, hpopped⟩ := h.rangeScanBudgeted_popped a b
  have hlayer : seg = (newest MemEntry.lsn out).filter fun p => p.2.op ≠ .delete := by
    rw [hseg, segmentLayer, hpopped none, collectMerged_eq]
  obtain ⟨stopped, hscan, hstopped⟩ := collectMerged_limit hn out
  rw [← hlayer] at hscan hstopped
  have hkeys : ∀ p ∈ mergeSortedScans (seg.take n) mem, ∃ key, encodeKey ns key = .ok p.1 := by
    intro p hp
    rw [mergeSortedScans_eq_mergeBy] at hp
    refine exists_encoded hns (a := effectiveStart start cursor) (b := «end») (s := seg) (m := mem)
      ?_ ?_ p ((mem_mergeBy.mp hp).imp_left List.mem_of_mem_take)
    · rw [hseg]
      exact segmentLayer_range h
    · rw [hmem]
      exact memtable_range _ _ _
  obtain ⟨stats, truncated, hdedup, htrunc, hall⟩ := dedupFilterScan_limit hn stopped
    { segmentsScanned := if seg.take n = [] then 0 else 1 } hkeys
  rw [mergeSortedScans_eq_mergeBy] at hdedup hall
  have hcore : e.rangeCore fs ns (effectiveStart start cursor) «end» (pageBudget n) =
      .ok ⟨(shown (· < ·) MemEntry.lsn (emitted ns) (seg.take n) mem).take n, truncated, stats⟩ := by
    rw [rangeCore, encodeKey_eq_encoded hns, encodeKey_eq_encoded hns]
    change (e.segmentStore.rangeScanBudgeted fs a b (some n) >>= fun r => _) = _
    rw [hpopped, hscan]
    change dedupFilterScan (pageBudget n) stopped none [] _
      (mergeSortedScans (seg.take n) (e.memtable.range a b)) = _
    rw [← hmem, mergeSortedScans_eq_mergeBy]
    exact hdedup
  refine ⟨truncated, ?_, ?_, hall⟩
  · rw [rangePage, if_neg (Nat.ne_of_gt hn)]
    change (e.rangeCore fs ns (effectiveStart start cursor) «end» (pageBudget n) >>= fun r => _) = _
    rw [hcore]
    rfl
  · intro hlt
    apply htrunc
    by_contra hs
    exact absurd (hstopped (by simpa using hs)) (not_le.mpr hlt)

/-! ### Reverse pages -/

/-- The descending scan of the segments returns the first entries of their layer, reversed. -/
theorem rangeScanRevBudgeted_eq (hone : OneRecordPerLsn X fs) (h : StoreInv X R e.segmentStore fs)
    {n : ℕ} (hn : 1 ≤ n) (a b : Bytes) : e.segmentStore.rangeScanRevBudgeted fs a b n =
      .ok ((e.segmentLayer fs a b).reverse.take n) := by
  obtain ⟨l, hl, hlayer⟩ := segmentLayer_eq h a b
  have hsegs : ∀ t ∈ (registered X fs).map fun m => within a b (fs.segs m.segmentId).table,
      KeySorted t := by
    intro t ht
    obtain ⟨m, hm, rfl⟩ := List.mem_map.mp ht
    exact (h.wf m hm).sorted.filter _
  obtain ⟨out, hout, hperm, hdown⟩ := poppedDown_eq hsegs
  rw [← List.flatMap_def] at hperm
  obtain ⟨stopped, hscan, -⟩ := collectMerged_limit hn out
  rw [newest_descending hone h.wf hl hperm hdown, List.filter_reverse, ← hlayer] at hscan
  rw [SegmentStore.rangeScanRevBudgeted, SegmentStore.perReader, perReader_eq h.readers h.wf]
  change (SegmentStore.poppedDown _ >>= fun popped => _) = _
  rw [hout]
  change (collectMerged (some n) none [] (out.map .ok) >>= fun r => _) = _
  rw [hscan]
  rfl

/-- **A reverse page** sees the segments only down to the limit. It is the last one when it is not
full. -/
theorem rangeRevPage_eq (hone : OneRecordPerLsn X fs) (h : StoreInv X R e.segmentStore fs)
    (hns : ns.length ≤ maxNsLen) {n : ℕ} (hn : 1 ≤ n) (start «end» : Bytes) (cursor : Option Bytes)
    {seg mem : List (Bytes × MemEntry)} {items : List (Bytes × Bytes)}
    (hseg : seg = e.segmentLayer fs (encoded ns start) (encoded ns (cursor.getD «end»)))
    (hmem : mem = e.memtable.range (encoded ns start) (encoded ns (cursor.getD «end»)))
    (hitems : items =
      (shown (· > ·) MemEntry.lsn (emitted ns) (seg.reverse.take n) mem.reverse).take n) :
    e.rangeRevPage fs ns start «end» cursor n =
      .ok ⟨items, if items.length ≥ n then items.getLast?.map Prod.fst else none⟩ := by
  set a := encoded ns start with ha
  set b := encoded ns (cursor.getD «end») with hb
  rw [rangeRevPage, if_neg (Nat.ne_of_gt hn), encodeKey_eq_encoded hns, encodeKey_eq_encoded hns]
  change (if b ≤ a then Except.ok _ else
    (e.segmentStore.rangeScanRevBudgeted fs a b n >>= fun segResults => _)) = _
  by_cases hle : b ≤ a
  · -- an empty range shows nothing
    have hempty : ∀ l : List (Bytes × MemEntry), (∀ p ∈ l, a ≤ p.1 ∧ p.1 < b) → l = [] := by
      intro l hl
      refine List.eq_nil_iff_forall_not_mem.mpr fun p hp => ?_
      exact absurd ((hl p hp).1.trans_lt (hl p hp).2) (not_lt.mpr hle)
    have hnil : items = [] := by
      rw [hitems, hseg, hmem, hempty _ (segmentLayer_range h), hempty _ (memtable_range _ _ _),
        List.reverse_nil, List.take_nil]
      exact List.take_nil
    rw [if_pos hle, hnil, if_neg (by simpa using Nat.ne_of_gt hn)]
  · rw [if_neg hle, rangeScanRevBudgeted_eq hone h hn, ← hseg]
    have hkeys : ∀ p ∈ mergeBy (· > ·) (seg.reverse.take n) mem.reverse,
        ∃ key, encodeKey ns key = .ok p.1 := by
      intro p hp
      refine exists_encoded hns (a := start) (b := cursor.getD «end») (s := seg) (m := mem)
        ?_ ?_ p ((mem_mergeBy.mp hp).imp (fun hp => List.mem_reverse.mp (List.mem_of_mem_take hp))
          List.mem_reverse.mp)
      · rw [hseg]
        exact segmentLayer_range h
      · rw [hmem]
        exact memtable_range _ _ _
    obtain ⟨stats, truncated, hdedup, -, -⟩ := dedupFilterScan_limit hn false {} hkeys
    change (dedupFilterScan (pageBudget n) false none [] {}
      (mergeDescending (seg.reverse.take n) (e.memtable.range a b).reverse) >>= fun scan => _) = _
    rw [← hmem, mergeDescending_eq_mergeBy, hdedup, hitems]
    rfl

/-- In descending order a range shows the same pairs. -/
theorem shown_reverse (h : StoreInv X R e.segmentStore fs) :
    shown (· > ·) MemEntry.lsn (emitted ns)
      (e.segmentLayer fs (encoded ns start) (encoded ns «end»)).reverse
      (e.memtable.range (encoded ns start) (encoded ns «end»)).reverse =
        (e.visible fs ns start «end»).reverse := by
  have hover : Overlays (· < ·) MemEntry.lsn _ _ (e.reduced fs ns start «end») := overlays_reduced h
  have hseg : KeySorted (e.segmentLayer fs (encoded ns start) (encoded ns «end»)) :=
    keySorted_segmentLayer h _ _
  have hmem := MemTable.keySorted_range e.memtable (encoded ns start) (encoded ns «end»)
  rw [visible_eq_reduced, ← List.filterMap_reverse, shown]
  congr 1
  exact (Overlays.of_merge hseg.keysBy.reverse hmem.keysBy.reverse).unique (hover.reverse hseg.keysBy hmem.keysBy)

end Engine
