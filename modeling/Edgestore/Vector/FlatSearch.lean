import Edgestore.Vector.Search
import Edgestore.Engine.Live
import Edgestore.Lib.BoundedHeap

/-!
# When the flat scan is exact

The flat scan looks at the vectors in front of its end, and keeps the closest ones in a queue. The queue is ordered by
the total comparison, in which NaN is the greatest distance, but a vector takes the place of the farthest one only if
its distance is less as a number. A queue that has filled with a NaN among its distances does not change any more.

## Main definitions

* `VectorRecord.measure`: a stored vector that matches a query, with its distance
* `Nearest`: what a search for the closest vectors should return
* `Engine.FlatScannable`: the condition under which the flat scan returns it

## Main results

* `nearest_iff`: which vectors the queue is right for
* `Engine.flatSearch_exact_iff`: when the flat scan is exact
-/

variable {X : Externals} {R : List SegmentId} {F : Floats} {query : VectorRecord} {k : ℕ} {metric : Metric}
  {fs : Fs} {e : Engine} {ns : Bytes}

/-! ### The queue -/

namespace HeapItem

/-- The test for a place in the queue: the distance is less as a number. -/
def less (a b : HeapItem) : Bool := a.distance.partialCmp b.distance = some .lt

/-- The place of an item in the total order. -/
def place (a : HeapItem) : WithTop ℤ := a.distance.totalKey

theorem cmp_keyed : Heap.Keyed cmp place := fun a b => totalCmpF32_eq_compare a.distance b.distance

theorem place_eq_top_iff (a : HeapItem) : a.place = ⊤ ↔ a.distance.isNan = true := by
  unfold place F32.totalKey
  cases a.distance.isNan with
  | true => exact iff_of_true rfl rfl
  | false => exact iff_of_false (WithTop.coe_ne_top) Bool.false_ne_true

/-- No number is less than NaN. -/
theorem less_iff (a b : HeapItem) : less a b = true ↔ a.place < b.place ∧ b.place ≠ ⊤ := by
  unfold less place F32.partialCmp F32.totalKey
  cases ha : a.distance.isNan <;> cases hb : b.distance.isNan
  · simp [compare_lt_iff_lt]
  · simp
  · simp
  · simp

theorem totalCmp_ne_lt_iff {a b : HeapItem} : totalCmpF32 a.distance b.distance ≠ .lt ↔ b.place ≤ a.place := by
  rw [totalCmpF32_eq_compare, ne_eq, compare_lt_iff_lt, not_lt]
  rfl

theorem totalCmp_ne_gt_iff {a b : HeapItem} : totalCmpF32 a.distance b.distance ≠ .gt ↔ a.place ≤ b.place := by
  rw [totalCmpF32_eq_compare, ne_eq, compare_gt_iff_gt]
  exact not_lt

end HeapItem

/-- Look at one more item. -/
abbrev keepItem (k : ℕ) : List HeapItem → HeapItem → List HeapItem := Heap.keep HeapItem.cmp HeapItem.less k

/-- The items of a queue as results, in ascending order of distance. -/
def resultsOf (heap : List HeapItem) : List (Bytes × F32) :=
  (heap.map fun item => (item.key, item.distance)).mergeSort fun a b => totalCmpF32 a.2 b.2 ≠ .gt

/-! ### What a search should return -/

instance : DecidablePred query.Matches := fun record =>
  inferInstanceAs (Decidable (record.dims = query.dims ∧ record.dtype = query.dtype))

/-- A stored vector matches the query. -/
def VectorRecord.matchesStored (query : VectorRecord) (p : Bytes × Bytes) : Bool :=
  match decodeVectorRecord p.2 with
  | .ok record => query.Matches record
  | .error _ => false

/-- A stored vector that matches the query, with its distance. -/
def VectorRecord.measure (F : Floats) (query : VectorRecord) (metric : Metric) (p : Bytes × Bytes) :
    Option HeapItem :=
  match decodeVectorRecord p.2 with
  | .ok record =>
    if query.Matches record then
      (distance F query.data record.data query.dtype metric).toOption.map fun d => ⟨d, p.1⟩
    else none
  | .error _ => none

/-- **What a search should return**: of `n` stored vectors that match, with the distances of `items`, as many as are
asked for, in ascending order of distance, and none that is left out is closer than one of them. -/
structure Nearest (k n : ℕ) (items : List HeapItem) (out : List (Bytes × F32)) : Prop where
  length : out.length = min k n
  ascending : out.Pairwise fun a b => totalCmpF32 a.2 b.2 ≠ .gt
  closest : ∃ omitted, (out.map (fun p => (⟨p.2, p.1⟩ : HeapItem)) ++ omitted).Perm items ∧
    ∀ x ∈ omitted, ∀ p ∈ out, totalCmpF32 x.distance p.2 ≠ .lt

theorem resultsOf_perm (heap : List HeapItem) :
    ((resultsOf heap).map fun p => (⟨p.2, p.1⟩ : HeapItem)).Perm heap := by
  refine ((List.mergeSort_perm _ _).map _).trans ?_
  rw [List.map_map]
  exact List.Perm.of_eq (List.map_id heap)

theorem resultsOf_pairwise (heap : List HeapItem) :
    (resultsOf heap).Pairwise fun a b => totalCmpF32 a.2 b.2 ≠ .gt := by
  have hle : ∀ a b : Bytes × F32, totalCmpF32 a.2 b.2 ≠ .gt ↔ a.2.totalKey ≤ b.2.totalKey := fun a b =>
    HeapItem.totalCmp_ne_gt_iff (a := ⟨a.2, a.1⟩) (b := ⟨b.2, b.1⟩)
  have htrans : ∀ a b c : Bytes × F32, decide (totalCmpF32 a.2 b.2 ≠ .gt) = true →
      decide (totalCmpF32 b.2 c.2 ≠ .gt) = true → decide (totalCmpF32 a.2 c.2 ≠ .gt) = true := by
    intro a b c hab hbc
    simp only [decide_eq_true_eq, hle] at hab hbc ⊢
    exact hab.trans hbc
  have htotal : ∀ a b : Bytes × F32,
      (decide (totalCmpF32 a.2 b.2 ≠ .gt) || decide (totalCmpF32 b.2 a.2 ≠ .gt)) = true := by
    intro a b
    simp only [Bool.or_eq_true, decide_eq_true_eq, hle]
    exact le_total _ _
  exact (List.pairwise_mergeSort htrans htotal _).imp of_decide_eq_true

/-- What is left out is no closer than what is kept. -/
theorem closest_iff {heap items : List HeapItem} :
    (∃ omitted, ((resultsOf heap).map (fun p => (⟨p.2, p.1⟩ : HeapItem)) ++ omitted).Perm items ∧
      ∀ x ∈ omitted, ∀ p ∈ resultsOf heap, totalCmpF32 x.distance p.2 ≠ .lt) ↔
      ∃ omitted, (heap ++ omitted).Perm items ∧ ∀ x ∈ heap, ∀ y ∈ omitted, x.place ≤ y.place := by
  have hperm := resultsOf_perm heap
  refine exists_congr fun omitted => and_congr ?_ ?_
  · exact ⟨fun h => (hperm.symm.append_right omitted).trans h, fun h => (hperm.append_right omitted).trans h⟩
  · constructor
    · intro h x hx y hy
      obtain ⟨p, hp, rfl⟩ := List.mem_map.mp (hperm.symm.subset hx)
      exact HeapItem.totalCmp_ne_lt_iff.mp (h y hy p hp)
    · intro h y hy p hp
      have hx := hperm.subset (List.mem_map_of_mem hp)
      exact HeapItem.totalCmp_ne_lt_iff.mpr (h _ hx y hy)

/-- **The queue is right** for the items `scanned`, while the items `beyond` are not looked at, if and only if NaN is
not among the first `k` distances, or all others are NaN, and each item beyond is no closer than `k` of those
scanned. -/
theorem nearest_iff (hk : 1 ≤ k) {scanned beyond items : List HeapItem} (hitems : (scanned ++ beyond).Perm items) :
    Nearest k items.length items (resultsOf (scanned.foldl (keepItem k) [])) ↔
      ((∀ x ∈ scanned.take k, x.distance.isNan = false) ∨ ∀ x ∈ scanned.drop k, x.distance.isNan = true) ∧
      ∀ x ∈ beyond, k ≤ (scanned.filter fun a => totalCmpF32 a.distance x.distance ≠ .gt).length := by
  obtain ⟨dropped, hperm, hlen⟩ := Heap.exists_dropped HeapItem.cmp HeapItem.less hk scanned
  have hleast := Heap.keeps_least_iff HeapItem.cmp_keyed HeapItem.less_iff hk hperm
  have hnan : ((∀ x ∈ scanned.take k, x.place ≠ ⊤) ∨ ∀ x ∈ scanned.drop k, x.place = ⊤) ↔
      ((∀ x ∈ scanned.take k, x.distance.isNan = false) ∨ ∀ x ∈ scanned.drop k, x.distance.isNan = true) := by
    refine or_congr (forall₂_congr fun x _ => ?_) (forall₂_congr fun x _ => x.place_eq_top_iff)
    rw [ne_eq, x.place_eq_top_iff, Bool.not_eq_true]
  rw [← hnan, ← hleast]
  change Nearest k items.length items (resultsOf (scanned.foldl (Heap.keep HeapItem.cmp HeapItem.less k) [])) ↔ _
  generalize scanned.foldl (Heap.keep HeapItem.cmp HeapItem.less k) [] = heap at hperm hlen ⊢
  have houtLen : (resultsOf heap).length = heap.length := by
    have hlen := (resultsOf_perm heap).length_eq
    rwa [List.length_map] at hlen
  have htotal : items.length = scanned.length + beyond.length := by
    rw [← hitems.length_eq, List.length_append]
  have hall : (heap ++ (dropped ++ beyond)).Perm items := by
    rw [← List.append_assoc]
    exact (hperm.append_right beyond).trans hitems
  constructor
  · rintro ⟨hcount, -, hclosest⟩
    obtain ⟨omitted, homitted, hfar⟩ := closest_iff.mp hclosest
    have hrest : (dropped ++ beyond).Perm omitted := (List.perm_append_left_iff heap).mp (hall.trans homitted.symm)
    refine ⟨fun x hx y hy => hfar x hx y (hrest.subset (List.mem_append_left _ hy)), fun x hx => ?_⟩
    -- as many as asked for are kept, and all of them are as close
    have hfull : heap.length = k := by
      have hpos := List.length_pos_of_mem hx
      omega
    have hclose : ∀ y ∈ heap, totalCmpF32 y.distance x.distance ≠ .gt := fun y hy =>
      HeapItem.totalCmp_ne_gt_iff.mpr (hfar y hy x (hrest.subset (List.mem_append_right _ hx)))
    rw [← ((hperm.filter _).length_eq), List.filter_append, List.length_append,
      List.filter_eq_self.mpr fun y hy => decide_eq_true (hclose y hy), hfull]
    exact Nat.le_add_right _ _
  · rintro ⟨hleast, hfar⟩
    refine ⟨?_, resultsOf_pairwise heap, closest_iff.mpr ⟨dropped ++ beyond, hall, fun x hx y hy => ?_⟩⟩
    · rcases beyond.eq_nil_or_concat with hnil | ⟨l, x, hx⟩
      · rw [houtLen, hlen, htotal, hnil, List.length_nil, Nat.add_zero]
      · have hmem : x ∈ beyond := by
          rw [hx, List.concat_eq_append]
          exact List.mem_append_right _ (List.mem_singleton_self x)
        have hle := (hfar x hmem).trans (List.length_filter_le _ _)
        omega
    · rcases List.mem_append.mp hy with hy | hy
      · exact hleast x hx y hy
      · by_contra hlt
        -- then none that was dropped is as close as `y`, and not all that are kept
        have hnone : dropped.filter (fun a => decide (totalCmpF32 a.distance y.distance ≠ .gt)) = [] := by
          refine List.filter_eq_nil_iff.mpr fun z hz hclose => hlt ?_
          exact (hleast x hx z hz).trans (HeapItem.totalCmp_ne_gt_iff.mp (of_decide_eq_true hclose))
        have hcount := hfar y hy
        rw [← ((hperm.filter _).length_eq), List.filter_append, hnone, List.append_nil] at hcount
        have hless : (heap.filter fun a => decide (totalCmpF32 a.distance y.distance ≠ .gt)).length < heap.length :=
          List.length_filter_lt_length_iff_exists.mpr
            ⟨x, hx, fun hclose => hlt (HeapItem.totalCmp_ne_gt_iff.mp (of_decide_eq_true hclose))⟩
        omega

/-! ### The scan -/

/-- A stored vector that a scan gets over: it can be decoded, and if it matches, it has a distance to the query. -/
def VectorRecord.Scannable (F : Floats) (query : VectorRecord) (metric : Metric) (p : Bytes × Bytes) : Prop :=
  ∃ record, decodeVectorRecord p.2 = .ok record ∧
    (query.Matches record → ∃ d, distance F query.data record.data query.dtype metric = .ok d)

/-- A look at a vector with its distance. -/
theorem scanCandidate_eq_keep {heap : List HeapItem} {p : Bytes × Bytes} {record : VectorRecord}
    (hdecode : decodeVectorRecord p.2 = .ok record) (hmatch : query.Matches record) {d : F32}
    (hdist : distance F query.data record.data query.dtype metric = .ok d) :
    scanCandidate F query k metric heap p = .ok (keepItem k heap ⟨d, p.1⟩) := by
  rw [scanCandidate_of_matches hdecode hmatch, hdist]
  unfold keepItem Heap.keep HeapItem.less
  simp only [Except.bind, decide_eq_true_eq]
  split
  case isTrue => rfl
  case isFalse =>
    cases Heap.pop HeapItem.cmp heap with
    | none => rfl
    | some q =>
      dsimp only
      split
      · rfl
      · rfl

/-- **A look at a stored vector.** -/
theorem scanCandidate_eq_ok_iff {heap heap' : List HeapItem} {p : Bytes × Bytes} :
    scanCandidate F query k metric heap p = .ok heap' ↔ query.Scannable F metric p ∧
      heap' = (query.measure F metric p).elim heap (keepItem k heap) := by
  cases hdecode : decodeVectorRecord p.2 with
  | error err =>
    refine iff_of_false (fun h => ?_) fun h => ?_
    · unfold scanCandidate at h
      obtain ⟨record, hrecord, -⟩ := Except.bind_eq_ok.mp h
      rw [decodeVectorRecord_of_stored hrecord] at hdecode
      cases hdecode
    · obtain ⟨⟨record, hrecord, -⟩, -⟩ := h
      rw [hrecord] at hdecode
      cases hdecode
  | ok record =>
    have hscannable : query.Scannable F metric p ↔
        (query.Matches record → ∃ d, distance F query.data record.data query.dtype metric = .ok d) := by
      unfold VectorRecord.Scannable
      rw [hdecode]
      exact ⟨fun ⟨_, heq, h⟩ => Except.ok.inj heq ▸ h, fun h => ⟨record, rfl, h⟩⟩
    rw [hscannable]
    unfold VectorRecord.measure
    rw [hdecode]
    by_cases hmatch : query.Matches record
    · dsimp only
      rw [if_pos hmatch]
      cases hdist : distance F query.data record.data query.dtype metric with
      | error err =>
        refine iff_of_false (fun h => ?_) fun h => ?_
        · rw [scanCandidate_of_matches hdecode hmatch, hdist] at h
          cases h
        · obtain ⟨d, hd⟩ := h.1 hmatch
          cases hd
      | ok d =>
        rw [scanCandidate_eq_keep hdecode hmatch hdist, Except.ok.injEq]
        exact ⟨fun h => ⟨fun _ => ⟨d, rfl⟩, h.symm⟩, fun h => h.2.symm⟩
    · rw [scanCandidate_of_not_matches hdecode hmatch]
      dsimp only
      rw [if_neg hmatch, Except.ok.injEq]
      exact ⟨fun h => ⟨fun hm => absurd hm hmatch, h.symm⟩, fun h => h.2.symm⟩

/-- **The scan** of stored vectors. -/
theorem foldlM_scanCandidate_eq_ok_iff {items : List (Bytes × Bytes)} {heap heap' : List HeapItem} :
    items.foldlM (scanCandidate F query k metric) heap = .ok heap' ↔
      (∀ p ∈ items, query.Scannable F metric p) ∧
        heap' = (items.filterMap (query.measure F metric)).foldl (keepItem k) heap := by
  induction items generalizing heap with
  | nil => exact ⟨fun h => ⟨fun p hp => absurd hp List.not_mem_nil, (Except.ok.inj h).symm⟩,
      fun h => congrArg Except.ok h.2.symm⟩
  | cons p items ih =>
    rw [List.foldlM_cons, Except.bind_eq_ok]
    have hnext : ((p :: items).filterMap (query.measure F metric)).foldl (keepItem k) heap =
        (items.filterMap (query.measure F metric)).foldl (keepItem k)
          ((query.measure F metric p).elim heap (keepItem k heap)) := by
      rw [List.filterMap_cons]
      cases query.measure F metric p <;> rfl
    rw [hnext, List.forall_mem_cons, and_assoc, ← ih]
    constructor
    · rintro ⟨heap₁, hone, hrest⟩
      obtain ⟨hscannable, rfl⟩ := scanCandidate_eq_ok_iff.mp hone
      exact ⟨hscannable, hrest⟩
    · rintro ⟨hscannable, hrest⟩
      exact ⟨_, scanCandidate_eq_ok_iff.mpr ⟨hscannable, rfl⟩, hrest⟩

/-- As many vectors have a distance as match, if the query has the length of its dimensions. -/
theorem length_filterMap_measure (hquery : query.data.length = query.dims * query.dtype.elementSize)
    (items : List (Bytes × Bytes)) :
    (items.filterMap (query.measure F metric)).length = (items.filter query.matchesStored).length := by
  induction items with
  | nil => rfl
  | cons p items ih =>
    rw [List.filterMap_cons, List.filter_cons]
    unfold VectorRecord.measure VectorRecord.matchesStored at ih ⊢
    cases hdecode : decodeVectorRecord p.2 with
    | error err => exact ih
    | ok record =>
      by_cases hmatch : query.Matches record
      · have hdata : record.data.length = query.dims * query.dtype.elementSize := by
          rw [(VectorRecord.WellFormed.of_decode hdecode).length_data, hmatch.1, hmatch.2]
        obtain ⟨d, hd⟩ := distance_of_length (F := F) hquery hdata metric
        simp only [if_pos hmatch, hd, decide_eq_true hmatch, Except.toOption, Option.map_some, if_true,
          List.length_cons]
        exact congrArg (· + 1) ih
      · simp only [if_neg hmatch, decide_eq_false hmatch, Bool.false_eq_true, if_false]
        exact ih

/-- The length of what is decoded. -/
theorem length_of_decodeToF32 {bytes : Bytes} {dtype : Dtype} {l : List F32}
    (h : decodeToF32 F bytes dtype = .ok l) : bytes.length = l.length * dtype.elementSize := by
  unfold decodeToF32 at h
  cases dtype with
  | f32 =>
    dsimp only at h
    split at h
    case isTrue => cases h
    case isFalse hlen =>
      cases h
      rw [List.length_map, length_chunksExact]
      exact (Nat.div_mul_cancel (Nat.dvd_of_mod_eq_zero (not_not.mp hlen))).symm
  | f16 =>
    dsimp only at h
    split at h
    case isTrue => cases h
    case isFalse hlen =>
      cases h
      rw [List.length_map, length_chunksExact]
      exact (Nat.div_mul_cancel (Nat.dvd_of_mod_eq_zero (not_not.mp hlen))).symm
  | i8 =>
    cases h
    rw [List.length_map]
    exact (Nat.mul_one _).symm

/-- Vectors that have a distance are of one length. -/
theorem length_eq_of_distance {query candidate : Bytes} {dtype : Dtype} {d : F32}
    (h : distance F query candidate dtype metric = .ok d) : query.length = candidate.length := by
  obtain ⟨q, c, hq, hc, hlen⟩ := distance_eq_ok.mp ⟨d, h⟩
  rw [length_of_decodeToF32 hq, length_of_decodeToF32 hc, hlen]

theorem measure_eq_none_of_not_matches {p : Bytes × Bytes} (h : query.matchesStored p = false) :
    query.measure F metric p = none := by
  unfold VectorRecord.matchesStored at h
  unfold VectorRecord.measure
  cases hdecode : decodeVectorRecord p.2 with
  | error err => rfl
  | ok record =>
    rw [hdecode] at h
    exact if_neg (of_decide_eq_false h)

namespace Engine

/-- The flat scan is exact: it returns the closest of the live vectors that match. -/
def SearchesExactly (X : Externals) (F : Floats) (fs : Fs) (e : Engine) (ns : Bytes) (query : VectorRecord)
    (k : ℕ) (metric : Metric) : Prop :=
  ∃ out, e.flatVectorSearch F fs ns query k metric = .ok out ∧
    Nearest k ((e.live X fs (vectorNamespace ns)).filter query.matchesStored).length
      ((e.live X fs (vectorNamespace ns)).filterMap (query.measure F metric)) out

/-- The live vectors in front of the end of the flat scan. -/
def near (X : Externals) (fs : Fs) (e : Engine) (ns : Bytes) : List (Bytes × Bytes) :=
  (e.live X fs (vectorNamespace ns)).filter fun p => p.1 < flatScanEnd

/-- The live vectors that the flat scan does not look at. -/
def far (X : Externals) (fs : Fs) (e : Engine) (ns : Bytes) : List (Bytes × Bytes) :=
  (e.live X fs (vectorNamespace ns)).filter fun p => ¬ p.1 < flatScanEnd

/-- **The condition under which the flat scan is exact**: the namespace is one that can have keys, what is scanned can
be decoded, the query has the length of its dimensions or nothing matches, NaN is not among the first `k` distances or
all others are NaN, and no vector beyond the end of the scan is closer than all but `k - 1` of those scanned. -/
structure FlatScannable (X : Externals) (F : Floats) (fs : Fs) (e : Engine) (ns : Bytes) (query : VectorRecord)
    (k : ℕ) (metric : Metric) : Prop where
  nsFits : (vectorNamespace ns).length ≤ maxNsLen
  decodes : ∀ p ∈ e.near X fs ns, ∃ record, decodeVectorRecord p.2 = .ok record
  comparable : query.data.length = query.dims * query.dtype.elementSize ∨
    ∀ p ∈ e.live X fs (vectorNamespace ns), query.matchesStored p = false
  nan : (∀ x ∈ ((e.near X fs ns).filterMap (query.measure F metric)).take k, x.distance.isNan = false) ∨
    ∀ x ∈ ((e.near X fs ns).filterMap (query.measure F metric)).drop k, x.distance.isNan = true
  beyond : ∀ x ∈ (e.far X fs ns).filterMap (query.measure F metric),
    k ≤ (((e.near X fs ns).filterMap (query.measure F metric)).filter
      fun a => totalCmpF32 a.distance x.distance ≠ .gt).length

/-- A search in a namespace that is too long for keys fails. -/
theorem flatVectorSearch_of_long (hk : k ≠ 0) (hns : ¬ (vectorNamespace ns).length ≤ maxNsLen)
    (out : List (Bytes × F32)) : e.flatVectorSearch F fs ns query k metric ≠ .ok out := by
  intro h
  unfold flatVectorSearch at h
  rw [if_neg hk] at h
  obtain ⟨items, hitems, -⟩ := Except.bind_eq_ok.mp h
  obtain ⟨scan, hscan, -⟩ := Except.bind_eq_ok.mp hitems
  obtain ⟨encStart, hstart, -⟩ := Except.bind_eq_ok.mp hscan
  exact hns (encodeKey_eq_ok.mp hstart).1

/-- The flat scan looks at the live vectors in front of its end. -/
theorem range_eq_near (hone : OneRecordPerLsn X fs) (h : StoreInv X R e.segmentStore fs)
    (hns : (vectorNamespace ns).length ≤ maxNsLen) :
    e.range fs (vectorNamespace ns) [] flatScanEnd = .ok (e.near X fs ns) := by
  rw [range_eq_visible h hns, visible_eq_live hone h hns, near]
  refine congrArg Except.ok (List.filter_congr fun q _ => ?_)
  rw [decide_eq_decide]
  exact and_iff_right (not_lt.mp (List.not_lt_nil q.1))

/-- The vectors scanned and those beyond. -/
theorem near_far_perm (X : Externals) (fs : Fs) (e : Engine) (ns : Bytes) (f : Bytes × Bytes → Option HeapItem) :
    ((e.near X fs ns).filterMap f ++ (e.far X fs ns).filterMap f).Perm
      ((e.live X fs (vectorNamespace ns)).filterMap f) := by
  rw [← List.filterMap_append]
  refine List.Perm.filterMap f ?_
  have hperm := List.filter_append_perm (fun p : Bytes × Bytes => decide (p.1 < flatScanEnd))
    (e.live X fs (vectorNamespace ns))
  unfold near far
  simpa only [decide_not] using hperm

/-- The number of vectors that match, if the query can be compared with them. -/
theorem length_matches (h : query.data.length = query.dims * query.dtype.elementSize ∨
      ∀ p ∈ e.live X fs (vectorNamespace ns), query.matchesStored p = false) :
    ((e.live X fs (vectorNamespace ns)).filter query.matchesStored).length =
      ((e.live X fs (vectorNamespace ns)).filterMap (query.measure F metric)).length := by
  rcases h with hquery | hnone
  · exact (length_filterMap_measure hquery _).symm
  · rw [List.filter_eq_nil_iff.mpr fun p hp => by rw [hnone p hp]; exact Bool.false_ne_true,
      List.filterMap_eq_nil_iff.mpr fun p hp => measure_eq_none_of_not_matches (hnone p hp)]
    rfl

/-- **The flat scan is exact** if and only if nothing is asked for, or the condition holds. -/
theorem flatSearch_exact_iff (hone : OneRecordPerLsn X fs) (h : StoreInv X R e.segmentStore fs) :
    e.SearchesExactly X F fs ns query k metric ↔ k = 0 ∨ e.FlatScannable X F fs ns query k metric := by
  by_cases hk : k = 0
  · subst hk
    refine iff_of_true ⟨[], ?_, (Nat.zero_min _).symm, List.Pairwise.nil, _, List.Perm.refl _, ?_⟩ (.inl rfl)
    · unfold flatVectorSearch
      exact if_pos rfl
    · exact fun x _ p hp => absurd hp List.not_mem_nil
  rw [or_iff_right hk]
  have hpos := Nat.one_le_iff_ne_zero.mpr hk
  by_cases hns : (vectorNamespace ns).length ≤ maxNsLen
  swap
  · exact iff_of_false (fun ⟨out, hout, _⟩ => flatVectorSearch_of_long hk hns out hout) fun hscan => hns hscan.nsFits
  have hsearch : ∀ out, e.flatVectorSearch F fs ns query k metric = .ok out ↔
      (∀ p ∈ e.near X fs ns, query.Scannable F metric p) ∧
        out = resultsOf (((e.near X fs ns).filterMap (query.measure F metric)).foldl (keepItem k) []) := by
    intro out
    rw [flatVectorSearch_eq_ok hk (range_eq_near hone h hns)]
    constructor
    · rintro ⟨heap, hheap, rfl⟩
      obtain ⟨hscannable, rfl⟩ := foldlM_scanCandidate_eq_ok_iff.mp hheap
      exact ⟨hscannable, rfl⟩
    · rintro ⟨hscannable, rfl⟩
      exact ⟨_, foldlM_scanCandidate_eq_ok_iff.mpr ⟨hscannable, rfl⟩, rfl⟩
  have hnearest := nearest_iff hpos (near_far_perm X fs e ns (query.measure F metric))
  constructor
  · rintro ⟨out, hout, hexact⟩
    obtain ⟨hscannable, rfl⟩ := (hsearch out).mp hout
    have hcomparable : query.data.length = query.dims * query.dtype.elementSize ∨
        ∀ p ∈ e.live X fs (vectorNamespace ns), query.matchesStored p = false := by
      rw [or_iff_not_imp_left]
      intro hquery p hp
      -- nothing that is scanned matches, so nothing is returned
      have hnear : ∀ q ∈ e.near X fs ns, query.matchesStored q = false := by
        intro q hq
        obtain ⟨record, hrecord, hdist⟩ := hscannable q hq
        unfold VectorRecord.matchesStored
        rw [hrecord]
        refine decide_eq_false fun hmatch => hquery ?_
        obtain ⟨d, hd⟩ := hdist hmatch
        rw [length_eq_of_distance hd, (VectorRecord.WellFormed.of_decode hrecord).length_data, hmatch.1, hmatch.2]
      have hnil : (e.near X fs ns).filterMap (query.measure F metric) = [] :=
        List.filterMap_eq_nil_iff.mpr fun q hq => measure_eq_none_of_not_matches (hnear q hq)
      have hlen := hexact.length
      rw [hnil] at hlen
      have hempty : (resultsOf ([].foldl (keepItem k) [])).length = 0 := by
        unfold resultsOf
        rw [List.length_mergeSort]
        rfl
      have hcount : ((e.live X fs (vectorNamespace ns)).filter query.matchesStored).length = 0 := by
        omega
      have hnot := List.filter_eq_nil_iff.mp (List.eq_nil_of_length_eq_zero hcount) p hp
      exact Bool.eq_false_of_not_eq_true hnot
    rw [length_matches hcomparable, hnearest] at hexact
    refine ⟨hns, fun p hp => ?_, hcomparable, hexact.1, hexact.2⟩
    obtain ⟨record, hrecord, -⟩ := hscannable p hp
    exact ⟨record, hrecord⟩
  · intro hcond
    refine ⟨_, (hsearch _).mpr ⟨fun p hp => ?_, rfl⟩, ?_⟩
    · obtain ⟨record, hrecord⟩ := hcond.decodes p hp
      refine ⟨record, hrecord, fun hmatch => ?_⟩
      rcases hcond.comparable with hquery | hnone
      · refine distance_of_length hquery ?_ metric
        rw [(VectorRecord.WellFormed.of_decode hrecord).length_data, hmatch.1, hmatch.2]
      · have hmatches : query.matchesStored p = true := by
          unfold VectorRecord.matchesStored
          rw [hrecord]
          exact decide_eq_true hmatch
        rw [hnone p (List.mem_filter.mp hp).1] at hmatches
        cases hmatches
    · rw [length_matches hcond.comparable, hnearest]
      exact ⟨hcond.nan, hcond.beyond⟩

end Engine
