import Edgestore.Vector.Distance
import Edgestore.Engine.PrefixScan
import Edgestore.Lib.Except

/-!
# The flat scan

The search without an index: every vector of the namespace is compared with the query, and a queue holds
the `k` closest of them.

## Main definitions

* `Engine.vectorGet`: the vector of a key
* `HeapItem`, `scanCandidate`: the queue, and what is done with a stored vector
* `Engine.flatVectorSearch`: the search
* `VectorRecord.Measures`: an item has the distance of a stored vector

## Main results

* `Engine.flatVectorSearch_sound`, `Engine.flatVectorSearch_total`, `Engine.flatVectorSearch_complete`
-/

variable {X : Externals} (F : Floats)

/-- Decode a stored vector. The message says what was decoded. -/
def decodeStored (what : String) (bytes : Bytes) : Except EdgestoreError VectorRecord :=
  match decodeVectorRecord bytes with
  | .ok record => .ok record
  | .error e => .error (.corruptData ("decode " ++ what ++ ": " ++ e.text))

/-- The vector of a key. -/
def Engine.vectorGet (X : Externals) (fs : Fs) (e : Engine) (ns key : Bytes) :
    Except EdgestoreError (Option VectorRecord) := do
  match ← e.get X fs (vectorNamespace ns) key with
  | some bytes => return some (← decodeStored "vector" bytes)
  | none => return none

/-- A key with the distance of its vector to the query. -/
structure HeapItem where
  distance : F32
  key : Bytes
  deriving DecidableEq, Repr

/-- Items are compared by distance. -/
def HeapItem.cmp (a b : HeapItem) : Ordering := totalCmpF32 a.distance b.distance

/-- Look at a stored vector. One of another type or with other dimensions is skipped; of more than `k`
items the farthest gives way. -/
def scanCandidate (query : VectorRecord) (k : ℕ) (metric : Metric) (heap : List HeapItem)
    (p : Bytes × Bytes) : Except EdgestoreError (List HeapItem) := do
  let candidate ← decodeStored "candidate" p.2
  if candidate.dims ≠ query.dims ∨ candidate.dtype ≠ query.dtype then return heap
  else
    let dist ← distance F query.data candidate.data query.dtype metric
    if heap.length < k then return ⟨dist, p.1⟩ :: heap
    else
      match Heap.pop HeapItem.cmp heap with
      | some (top, rest) =>
        if dist.partialCmp top.distance = some .lt then return ⟨dist, p.1⟩ :: rest else return heap
      | none => return heap

/-- Where the flat scan ends: 1024 bytes `0xFF`. -/
def flatScanEnd : Bytes := List.replicate 1024 255

/-- The `k` keys closest to a query, in ascending order of distance. -/
def Engine.flatVectorSearch (fs : Fs) (e : Engine) (ns : Bytes) (query : VectorRecord) (k : ℕ)
    (metric : Metric) : Except EdgestoreError (List (Bytes × F32)) := do
  if k = 0 then return []
  else
    let allKeys ← e.range fs (vectorNamespace ns) [] flatScanEnd
    let heap ← allKeys.foldlM (scanCandidate F query k metric) []
    return (heap.map fun item => (item.key, item.distance)).mergeSort
      fun a b => totalCmpF32 a.2 b.2 ≠ .gt

/-! ### What the scan finds -/

variable {F} {query : VectorRecord} {k : ℕ} {metric : Metric} {fs : Fs} {e : Engine} {ns : Bytes}

theorem decodeStored_of_ok {what : String} {bytes : Bytes} {record : VectorRecord}
    (h : decodeVectorRecord bytes = .ok record) : decodeStored what bytes = .ok record := by
  unfold decodeStored
  rw [h]

theorem decodeVectorRecord_of_stored {what : String} {bytes : Bytes} {record : VectorRecord}
    (h : decodeStored what bytes = .ok record) : decodeVectorRecord bytes = .ok record := by
  unfold decodeStored at h
  split at h
  case h_1 hdecode =>
    cases h
    exact hdecode
  case h_2 => cases h

/-- A vector of the type and the dimensions of a query. -/
def VectorRecord.Matches (query record : VectorRecord) : Prop :=
  record.dims = query.dims ∧ record.dtype = query.dtype

/-- An item has the key and the distance of a stored vector that matches the query. -/
def VectorRecord.Measures (F : Floats) (query : VectorRecord) (metric : Metric) (item : HeapItem)
    (p : Bytes × Bytes) : Prop :=
  ∃ record, decodeVectorRecord p.2 = .ok record ∧ query.Matches record ∧ item.key = p.1 ∧
    distance F query.data record.data query.dtype metric = .ok item.distance

/-- A vector that does not match is skipped. -/
theorem scanCandidate_of_not_matches {heap : List HeapItem} {p : Bytes × Bytes} {record : VectorRecord}
    (hdecode : decodeVectorRecord p.2 = .ok record) (hmatch : ¬ query.Matches record) :
    scanCandidate F query k metric heap p = .ok heap := by
  unfold scanCandidate
  rw [decodeStored_of_ok hdecode]
  exact if_pos (not_and_or.mp hmatch)

/-- A vector that matches is pushed, takes the place of the farthest item, or is left out. -/
theorem scanCandidate_of_matches {heap : List HeapItem} {p : Bytes × Bytes} {record : VectorRecord}
    (hdecode : decodeVectorRecord p.2 = .ok record) (hmatch : query.Matches record) :
    scanCandidate F query k metric heap p =
      (distance F query.data record.data query.dtype metric).bind fun dist =>
        if heap.length < k then .ok (⟨dist, p.1⟩ :: heap)
        else
          match Heap.pop HeapItem.cmp heap with
          | some (top, rest) =>
            if dist.partialCmp top.distance = some .lt then .ok (⟨dist, p.1⟩ :: rest) else .ok heap
          | none => .ok heap := by
  unfold scanCandidate
  rw [decodeStored_of_ok hdecode]
  exact if_neg fun h => h.elim (fun hne => hne hmatch.1) fun hne => hne hmatch.2

/-- **A look at a vector**: items are kept, or measure the vector. -/
theorem measures_of_scanCandidate {heap heap' : List HeapItem} {p : Bytes × Bytes}
    (h : scanCandidate F query k metric heap p = .ok heap') :
    ∀ item ∈ heap', item ∈ heap ∨ query.Measures F metric item p := by
  obtain ⟨record, hdecode⟩ : ∃ record, decodeVectorRecord p.2 = .ok record := by
    unfold scanCandidate at h
    obtain ⟨record, hrecord, -⟩ := Except.bind_eq_ok.mp h
    exact ⟨record, decodeVectorRecord_of_stored hrecord⟩
  by_cases hmatch : query.Matches record
  · rw [scanCandidate_of_matches hdecode hmatch] at h
    obtain ⟨dist, hdist, h⟩ := Except.bind_eq_ok.mp h
    have hnew : query.Measures F metric ⟨dist, p.1⟩ p :=
      ⟨record, hdecode, hmatch, rfl, hdist⟩
    split at h
    case isTrue =>
      cases h
      intro item hitem
      rcases List.mem_cons.mp hitem with rfl | hitem
      · exact .inr hnew
      · exact .inl hitem
    case isFalse =>
      split at h
      case h_1 top rest hpop =>
        split at h
        case isTrue =>
          cases h
          intro item hitem
          rcases List.mem_cons.mp hitem with rfl | hitem
          · exact .inr hnew
          · exact .inl ((Heap.pop_perm hpop).subset (List.mem_cons_of_mem _ hitem))
        case isFalse =>
          cases h
          exact fun item hitem => .inl hitem
      case h_2 =>
        cases h
        exact fun item hitem => .inl hitem
  · rw [scanCandidate_of_not_matches hdecode hmatch] at h
    cases h
    exact fun item hitem => .inl hitem

/-- Vectors that match a well-formed query have a distance to it. -/
theorem VectorRecord.Matches.exists_distance (F : Floats) (metric : Metric) (hquery : query.WellFormed)
    {record : VectorRecord} (hmatch : query.Matches record) (hrecord : record.WellFormed) :
    ∃ d, distance F query.data record.data query.dtype metric = .ok d := by
  refine distance_of_length hquery.length_data ?_ metric
  rw [hrecord.length_data, hmatch.1, hmatch.2]

/-- A look at a vector succeeds, if it can be decoded. -/
theorem scanCandidate_total (F : Floats) (k : ℕ) (metric : Metric) (hquery : query.WellFormed)
    (heap : List HeapItem) {p : Bytes × Bytes}
    {record : VectorRecord} (hdecode : decodeVectorRecord p.2 = .ok record) :
    ∃ heap', scanCandidate F query k metric heap p = .ok heap' := by
  by_cases hmatch : query.Matches record
  · obtain ⟨d, hd⟩ := hmatch.exists_distance F metric hquery (.of_decode hdecode)
    rw [scanCandidate_of_matches hdecode hmatch, hd]
    simp only [Except.bind]
    split
    · exact ⟨_, rfl⟩
    · split
      · split
        · exact ⟨_, rfl⟩
        · exact ⟨_, rfl⟩
      · exact ⟨_, rfl⟩
  · exact ⟨heap, scanCandidate_of_not_matches hdecode hmatch⟩

/-- While there is room, a look at a vector that matches adds its key. -/
theorem mem_of_scanCandidate {heap heap' : List HeapItem} (hroom : heap.length < k) {p : Bytes × Bytes}
    (h : scanCandidate F query k metric heap p = .ok heap') :
    heap'.length ≤ heap.length + 1 ∧ heap ⊆ heap' ∧
      ∀ record, decodeVectorRecord p.2 = .ok record → query.Matches record →
        p.1 ∈ heap'.map HeapItem.key := by
  obtain ⟨record, hdecode⟩ : ∃ record, decodeVectorRecord p.2 = .ok record := by
    unfold scanCandidate at h
    obtain ⟨record, hrecord, -⟩ := Except.bind_eq_ok.mp h
    exact ⟨record, decodeVectorRecord_of_stored hrecord⟩
  by_cases hmatch : query.Matches record
  · rw [scanCandidate_of_matches hdecode hmatch] at h
    obtain ⟨dist, -, h⟩ := Except.bind_eq_ok.mp h
    rw [if_pos hroom] at h
    cases h
    exact ⟨le_rfl, List.subset_cons_self _ _, fun _ _ _ => List.mem_cons_self⟩
  · rw [scanCandidate_of_not_matches hdecode hmatch] at h
    cases h
    refine ⟨Nat.le_succ _, fun _ hitem => hitem, fun record' hdecode' hmatch' => ?_⟩
    rw [hdecode] at hdecode'
    cases hdecode'
    exact absurd hmatch' hmatch

namespace Engine

variable {items : List (Bytes × Bytes)}

/-- The flat scan for at least one key. -/
theorem flatVectorSearch_eq_ok (hk : k ≠ 0)
    (hitems : e.range fs (vectorNamespace ns) [] flatScanEnd = .ok items) {out : List (Bytes × F32)} :
    e.flatVectorSearch F fs ns query k metric = .ok out ↔
      ∃ heap, items.foldlM (scanCandidate F query k metric) [] = .ok heap ∧
        out = (heap.map fun item => (item.key, item.distance)).mergeSort
          fun a b => totalCmpF32 a.2 b.2 ≠ .gt := by
  unfold flatVectorSearch
  rw [if_neg hk, hitems]
  change (items.foldlM (scanCandidate F query k metric) [] >>= _) = _ ↔ _
  rw [Except.bind_eq_ok]
  exact exists_congr fun heap => and_congr_right fun _ =>
    ⟨fun h => (Except.ok.inj h).symm, fun h => congrArg Except.ok h.symm⟩

/-- **What the flat scan returns** are keys of stored vectors that match the query, with their
distances. -/
theorem flatVectorSearch_sound
    (hitems : e.range fs (vectorNamespace ns) [] flatScanEnd = .ok items) {out : List (Bytes × F32)}
    (h : e.flatVectorSearch F fs ns query k metric = .ok out) :
    ∀ p ∈ out, ∃ q ∈ items, query.Measures F metric ⟨p.2, p.1⟩ q := by
  by_cases hk : k = 0
  · unfold flatVectorSearch at h
    rw [if_pos hk] at h
    cases h
    exact fun p hp => absurd hp List.not_mem_nil
  · obtain ⟨heap, hheap, rfl⟩ := (flatVectorSearch_eq_ok hk hitems).mp h
    have hinv := Except.foldlM_ok (I := fun heap rest => rest ⊆ items ∧
      ∀ item ∈ heap, ∃ q ∈ items, query.Measures F metric item q)
      (fun heap p rest heap' ⟨hsub, hheap⟩ hstep => by
        refine ⟨fun q hq => hsub (List.mem_cons_of_mem _ hq), fun item hitem => ?_⟩
        rcases measures_of_scanCandidate hstep item hitem with hold | hnew
        · exact hheap item hold
        · exact ⟨p, hsub List.mem_cons_self, hnew⟩)
      hheap ⟨fun _ hq => hq, fun item hitem => absurd hitem List.not_mem_nil⟩
    intro p hp
    obtain ⟨item, hitem, rfl⟩ := List.mem_map.mp (List.mem_mergeSort.mp hp)
    exact hinv.2 item hitem

/-- **The flat scan returns**, if the stored vectors can be decoded. -/
theorem flatVectorSearch_total (hquery : query.WellFormed)
    (hitems : e.range fs (vectorNamespace ns) [] flatScanEnd = .ok items)
    (hdecode : ∀ q ∈ items, ∃ record, decodeVectorRecord q.2 = .ok record) :
    ∃ out, e.flatVectorSearch F fs ns query k metric = .ok out := by
  by_cases hk : k = 0
  · refine ⟨[], ?_⟩
    unfold flatVectorSearch
    exact if_pos hk
  · obtain ⟨heap, hheap, -⟩ := Except.foldlM_total (f := scanCandidate F query k metric)
      (I := fun _ rest => ∀ q ∈ rest, ∃ record, decodeVectorRecord q.2 = .ok record)
      (fun heap p rest hrest => by
        obtain ⟨record, hrecord⟩ := hrest p List.mem_cons_self
        obtain ⟨heap', hheap'⟩ := scanCandidate_total F k metric hquery heap hrecord
        exact ⟨heap', hheap', fun q hq => hrest q (List.mem_cons_of_mem _ hq)⟩)
      (b := []) hdecode
    exact ⟨_, (flatVectorSearch_eq_ok hk hitems).mpr ⟨heap, hheap, rfl⟩⟩

/-- **A flat scan for as many keys as there are vectors** returns every key whose vector matches. -/
theorem flatVectorSearch_complete
    (hitems : e.range fs (vectorNamespace ns) [] flatScanEnd = .ok items) (hlen : items.length ≤ k)
    {out : List (Bytes × F32)} (h : e.flatVectorSearch F fs ns query k metric = .ok out)
    {q : Bytes × Bytes} (hq : q ∈ items) {record : VectorRecord}
    (hdecode : decodeVectorRecord q.2 = .ok record) (hmatch : query.Matches record) :
    q.1 ∈ out.map Prod.fst := by
  have hk : k ≠ 0 := by
    rintro rfl
    rw [List.eq_nil_of_length_eq_zero (Nat.le_zero.mp hlen)] at hq
    cases hq
  obtain ⟨heap, hheap, rfl⟩ := (flatVectorSearch_eq_ok hk hitems).mp h
  -- what has been looked at is in the queue, which has room for the rest
  have hinv := Except.foldlM_ok (I := fun heap rest => heap.length + rest.length ≤ k ∧
      (q ∈ rest ∨ q.1 ∈ heap.map HeapItem.key))
    (fun heap p rest heap' ⟨hroom, hmem⟩ hstep => by
      rw [List.length_cons] at hroom
      obtain ⟨hlen', hsub, hnew⟩ := mem_of_scanCandidate (by omega) hstep
      refine ⟨by omega, ?_⟩
      rcases hmem with hmem | hmem
      · rcases List.mem_cons.mp hmem with rfl | hmem
        · exact .inr (hnew record hdecode hmatch)
        · exact .inl hmem
      · obtain ⟨item, hitem, hkey⟩ := List.mem_map.mp hmem
        exact .inr (List.mem_map.mpr ⟨item, hsub hitem, hkey⟩))
    hheap ⟨by simpa using hlen, .inl hq⟩
  obtain ⟨item, hitem, hkey⟩ := List.mem_map.mp (hinv.2.resolve_left List.not_mem_nil)
  exact List.mem_map.mpr ⟨(item.key, item.distance),
    List.mem_mergeSort.mpr (List.mem_map.mpr ⟨item, hitem, rfl⟩), hkey⟩

end Engine
