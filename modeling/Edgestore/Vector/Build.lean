import Edgestore.Vector.HnswInsert
import Edgestore.Vector.Index
import Mathlib.Data.Set.Card

/-!
# Searches over the vectors of a namespace

The vectors of a namespace are a map from keys to records. A scan of the store may return them, and an index
may hold them. If so, a search returns keys of vectors that match the query, with their distances, and if it
is for as many keys as there are vectors, it returns all that match. For an index that takes more: its graph
must be connected, and the distance asked for must be the one it is built with.

## Main definitions

* `Vectors`, `Vectors.keys`: the vectors of a namespace
* `ItemsOf`, `Engine.ShowsVectors`: the scans of a namespace return its vectors
* `HnswIndex.Holds`: the nodes of an index are the vectors
* `RightAnswer`: what a search should return

## Main results

* `Engine.gatherIndex_holds`: an index that is built holds the vectors that the scan returned
* `Engine.rightAnswer_flat`: the answer of the flat scan
* `HnswIndex.Holds.rightAnswer`: the answer of an index
-/

/-- The vectors of a namespace, by key. -/
abbrev Vectors := Bytes → Option VectorRecord

/-- The keys of the vectors. -/
def Vectors.keys (s : Vectors) : Set Bytes := {key | s key ≠ none}

variable {F : Floats} {s : Vectors} {items : List (Bytes × Bytes)} {query : VectorRecord} {k : ℕ}
  {metric : Metric} {index : HnswIndex}

/-- A list of no more elements than a set has, if they are different elements of it. -/
theorem length_le_of_encard_le {α : Type} {l : List α} {t : Set α} {n : ℕ} (ht : t.encard ≤ n)
    (hnodup : l.Nodup) (hl : ∀ a ∈ l, a ∈ t) : l.length ≤ n := by
  classical
  have hsub : (l.toFinset : Set α) ⊆ t := fun a ha => hl a (List.mem_toFinset.mp (Finset.mem_coe.mp ha))
  have hcard := (Set.encard_le_encard hsub).trans ht
  rw [Set.encard_coe_eq_coe_finsetCard, List.toFinset_card_of_nodup hnodup] at hcard
  exact Nat.cast_le.mp hcard

/-! ### Items -/

/-- Keys and values that are the vectors, in order of keys. -/
structure ItemsOf (s : Vectors) (items : List (Bytes × Bytes)) : Prop where
  sorted : KeySorted items
  found : ∀ key, (find items key).map decodeVectorRecord = (s key).map .ok

namespace ItemsOf

theorem of_mem (h : ItemsOf s items) {p : Bytes × Bytes} (hp : p ∈ items) :
    ∃ record, s p.1 = some record ∧ decodeVectorRecord p.2 = .ok record := by
  have hfound := h.found p.1
  rw [h.sorted.find_eq_some_iff.mpr hp, Option.map_some] at hfound
  obtain ⟨record, hrecord, hdecode⟩ := Option.map_eq_some_iff.mp hfound.symm
  exact ⟨record, hrecord, hdecode.symm⟩

theorem exists_mem (h : ItemsOf s items) {key : Bytes} {record : VectorRecord} (hkey : s key = some record) :
    ∃ bytes, (key, bytes) ∈ items ∧ decodeVectorRecord bytes = .ok record := by
  have hfound := h.found key
  rw [hkey, Option.map_some] at hfound
  obtain ⟨bytes, hbytes, hdecode⟩ := Option.map_eq_some_iff.mp hfound
  exact ⟨bytes, mem_of_find hbytes, hdecode⟩

theorem wellFormed (h : ItemsOf s items) {key : Bytes} {record : VectorRecord}
    (hkey : s key = some record) : record.WellFormed := by
  obtain ⟨bytes, -, hdecode⟩ := h.exists_mem hkey
  exact .of_decode hdecode

theorem nodup_keys (h : ItemsOf s items) : (items.map Prod.fst).Nodup :=
  List.pairwise_map.mpr (h.sorted.imp ne_of_lt)

theorem length_le (h : ItemsOf s items) (hk : s.keys.encard ≤ k) : items.length ≤ k := by
  rw [← List.length_map (f := Prod.fst)]
  refine length_le_of_encard_le hk h.nodup_keys fun key hkey => ?_
  obtain ⟨p, hp, rfl⟩ := List.mem_map.mp hkey
  obtain ⟨record, hrecord, -⟩ := h.of_mem hp
  exact fun hnone => Option.some_ne_none record (hrecord.symm.trans hnone)

end ItemsOf

/-- **What the store shows of a namespace**: the scan of its vectors, and the ranges from the first key on,
return them. -/
structure Engine.ShowsVectors (fs : Fs) (e : Engine) (ns : Bytes) (s : Vectors) : Prop where
  all : ∃ items, e.prefixInner fs (vectorNamespace ns) [] = .ok items ∧ ItemsOf s items
  range : ∀ «end», ∃ items, e.range fs (vectorNamespace ns) [] «end» = .ok items ∧
    ItemsOf (fun key => if key < «end» then s key else none) items

/-! ### Answers -/

/-- **What a search should return**: keys of vectors that match the query, with their distances, and all of
them if it is for as many as there are vectors. It should return if the query is well-formed. -/
structure RightAnswer (F : Floats) (s : Vectors) (query : VectorRecord) (k : ℕ) (metric : Metric)
    (r : Except EdgestoreError (List (Bytes × F32))) : Prop where
  sound : ∀ out, r = .ok out → ∀ p ∈ out, ∃ record, s p.1 = some record ∧ query.Matches record ∧
    distance F query.data record.data query.dtype metric = .ok p.2
  returns : query.WellFormed → ∃ out, r = .ok out
  complete : s.keys.encard ≤ k → ∀ out, r = .ok out → ∀ key record, s key = some record →
    query.Matches record → key ∈ out.map Prod.fst

/-- **The flat scan** gives the right answer, if all keys are below its end. -/
theorem Engine.rightAnswer_flat {fs : Fs} {e : Engine} {ns : Bytes} (h : e.ShowsVectors fs ns s)
    (hend : ∀ key ∈ s.keys, key < flatScanEnd) :
    RightAnswer F s query k metric (e.flatVectorSearch F fs ns query k metric) := by
  obtain ⟨items, hitems, hof⟩ := h.range flatScanEnd
  have hall : (fun key => if key < flatScanEnd then s key else none) = s := by
    funext key
    cases hkey : s key with
    | none => exact ite_self none
    | some record =>
      exact if_pos (hend key fun hnone => Option.some_ne_none record (hkey.symm.trans hnone))
  rw [hall] at hof
  refine ⟨fun out hout p hp => ?_, fun hquery => ?_, fun hk out hout key record hkey hmatch => ?_⟩
  · obtain ⟨q, hq, record, hdecode, hmatch, heq, hdist⟩ := flatVectorSearch_sound hitems hout p hp
    obtain ⟨record', hrecord, hdecode'⟩ := hof.of_mem hq
    obtain rfl : record' = record := Except.ok.inj (hdecode'.symm.trans hdecode)
    have hkey : p.1 = q.1 := heq
    exact ⟨record', hkey ▸ hrecord, hmatch, hdist⟩
  · refine flatVectorSearch_total hquery hitems fun q hq => ?_
    obtain ⟨record, -, hdecode⟩ := hof.of_mem hq
    exact ⟨record, hdecode⟩
  · obtain ⟨bytes, hbytes, hdecode⟩ := hof.exists_mem hkey
    exact flatVectorSearch_complete hitems (hof.length_le hk) hout hbytes hdecode hmatch

/-! ### Indexes -/

/-- The nodes of an index are the vectors, and it is built with the Euclidean distance. -/
structure HnswIndex.Holds (index : HnswIndex) (s : Vectors) : Prop where
  linked : index.Linked
  metric : index.metric = .l2
  nodup : (index.vectors.map Prod.fst).Nodup
  vectors : ∀ key data, (key, data) ∈ index.vectors ↔ ∃ record, s key = some record ∧ record.data = data
  wellFormed : ∀ key record, s key = some record → record.WellFormed

namespace HnswIndex

/-- The seed of the generator has no part in what an index holds. -/
theorem Holds.withSeed (h : index.Holds s) (seed : ℕ) : { index with rngSeed := seed }.Holds s :=
  ⟨h.linked.withSeed seed, h.metric, h.nodup, h.vectors, h.wellFormed⟩

/-- The key and the data of a stored vector. -/
def storedVector (p : Bytes × Bytes) : Bytes × Bytes :=
  (p.1, ((decodeVectorRecord p.2).toOption.map VectorRecord.data).getD [])

theorem storedVector_of_ok {p : Bytes × Bytes} {record : VectorRecord}
    (h : decodeVectorRecord p.2 = .ok record) : storedVector p = (p.1, record.data) := by
  rw [storedVector, h]
  rfl

/-- Insertions one after the other, of the data of records, with layers that are drawn. -/
theorem inserts_spec {items : List (Bytes × Bytes)} {base : HnswIndex} (hbase : base.Linked)
    (hm : base.m = 16) (hlayers : ∀ c ∈ base.layerCounts, c ≤ 9)
    (h : items.foldlM (fun (index : HnswIndex) p => do
      let rec' ← decodeVectorRecord p.2
      index.insert F p.1 rec'.data) base = .ok index) :
    index.Linked ∧ index.m = 16 ∧ (∀ c ∈ index.layerCounts, c ≤ 9) ∧ index.dims = base.dims ∧
      index.dtype = base.dtype ∧ index.metric = base.metric ∧ index.efConstruction = base.efConstruction ∧
      index.vectors = base.vectors ++ items.map storedVector := by
  induction items generalizing base with
  | nil =>
    cases h
    exact ⟨hbase, hm, hlayers, rfl, rfl, rfl, rfl, (List.append_nil _).symm⟩
  | cons p items ih =>
    obtain ⟨index₁, hstep, h⟩ := Except.bind_eq_ok.mp ((List.foldlM_cons ..).symm.trans h)
    obtain ⟨record, hdecode, hinsert⟩ := Except.bind_eq_ok.mp hstep
    obtain ⟨layer, hdrawn, hinserted⟩ := hbase.insert hinsert
    have hlayers₁ : ∀ c ∈ index₁.layerCounts, c ≤ 9 := by
      intro c hc
      rw [hinserted.layerCounts] at hc
      rcases List.mem_append.mp hc with hc | hc
      · exact hlayers c hc
      · rw [List.mem_singleton.mp hc]
        exact hdrawn hm
    obtain ⟨hlinked, hm', hlayers', hdims, hdtype, hmetric, hef, hvectors⟩ :=
      ih hinserted.linked (hinserted.m.trans hm) hlayers₁ h
    refine ⟨hlinked, hm', hlayers', hdims.trans hinserted.dims, hdtype.trans hinserted.dtype,
      hmetric.trans hinserted.metric, hef.trans hinserted.efConstruction, ?_⟩
    rw [hvectors, hinserted.vectors, List.append_assoc, List.map_cons, storedVector_of_ok hdecode]
    rfl

/-- A node of an index is one of its vectors. -/
theorem mem_vectors_of_getElem? {i : ℕ} (hi : i < index.nodes.length) :
    (index.idOf i, index.dataOf i) ∈ index.vectors := by
  rw [idOf, dataOf, List.getElem?_eq_getElem hi]
  exact List.mem_map_of_mem (List.getElem_mem hi)

theorem exists_of_mem_vectors {p : Bytes × Bytes} (hp : p ∈ index.vectors) :
    ∃ i < index.nodes.length, index.idOf i = p.1 ∧ index.dataOf i = p.2 := by
  obtain ⟨node, hnode, rfl⟩ := List.mem_map.mp hp
  obtain ⟨i, hi, rfl⟩ := List.mem_iff_getElem.mp hnode
  refine ⟨i, hi, ?_, ?_⟩
  · rw [idOf, List.getElem?_eq_getElem hi]
    rfl
  · rw [dataOf, List.getElem?_eq_getElem hi]
    rfl

/-- The distance to a node is the one to its data. -/
theorem distanceToNode_eq {i : ℕ} (hi : i < index.nodes.length) (q : Bytes) :
    index.distanceToNode F q i = distance F q (index.dataOf i) index.dtype index.metric := by
  rw [distanceToNode, dataOf, List.getElem?_eq_getElem hi]
  rfl

namespace Holds

/-- A node of the index is a vector. -/
theorem of_node (h : index.Holds s) {i : ℕ} (hi : i < index.nodes.length) :
    ∃ record, s (index.idOf i) = some record ∧ record.data = index.dataOf i :=
  (h.vectors _ _).mp (mem_vectors_of_getElem? hi)

/-- A vector is a node of the index. -/
theorem exists_node (h : index.Holds s) {key : Bytes} {record : VectorRecord} (hkey : s key = some record) :
    ∃ i < index.nodes.length, index.idOf i = key := by
  obtain ⟨i, hi, hid, -⟩ := exists_of_mem_vectors ((h.vectors key record.data).mpr ⟨record, hkey, rfl⟩)
  exact ⟨i, hi, hid⟩

theorem length_le (h : index.Holds s) (hk : s.keys.encard ≤ k) : index.nodes.length ≤ k := by
  have hlen : (index.vectors.map Prod.fst).length = index.nodes.length := by
    rw [List.length_map, HnswIndex.vectors, List.length_map]
  rw [← hlen]
  refine length_le_of_encard_le hk h.nodup fun key hkey => ?_
  obtain ⟨p, hp, rfl⟩ := List.mem_map.mp hkey
  obtain ⟨record, hrecord, -⟩ := (h.vectors p.1 p.2).mp hp
  exact fun hnone => Option.some_ne_none record (hrecord.symm.trans hnone)

/-- All vectors have a distance to a query that is well-formed. -/
theorem comparable (h : index.Holds s) (hmatch : ∀ key record, s key = some record → query.Matches record)
    (hdtype : index.dtype = query.dtype) (hquery : query.WellFormed) : index.Comparable F query.data := by
  intro i hi
  obtain ⟨record, hrecord, hdata⟩ := h.of_node hi
  have hm := hmatch _ _ hrecord
  rw [distanceToNode_eq hi, hdtype, ← hdata]
  exact hm.exists_distance F index.metric hquery (h.wellFormed _ _ hrecord)

/-- **A search in an index** that holds the vectors gives the right answer for the Euclidean distance, if all
vectors match the query, and, where it is for as many keys as there are vectors, every node can be reached
from the one at which the search enters layer 0. -/
theorem rightAnswer {ef : ℕ} (h : index.Holds s)
    (hmatch : ∀ key record, s key = some record → query.Matches record)
    (hdtype : index.dtype = query.dtype) (hne : index.nodes ≠ [])
    (hreach : s.keys.encard ≤ k → ∀ curr, index.enters F query.data k ef = .ok curr →
      ∀ i < index.nodes.length, index.Reaches 0 curr i) :
    RightAnswer F s query k .l2 (index.search F query.data k ef) := by
  refine ⟨fun out hout p hp => ?_, fun hquery => ?_, fun hk out hout key record hkey _ => ?_⟩
  · obtain ⟨i, hid, hdist⟩ := search_sound hout p hp
    have hi := lt_of_distanceToNode hdist
    obtain ⟨record, hrecord, hdata⟩ := h.of_node hi
    rw [hid] at hrecord
    refine ⟨record, hrecord, hmatch _ _ hrecord, ?_⟩
    rw [hdata, ← hdtype, ← h.metric, ← distanceToNode_eq hi, hdist]
  · exact search_total (h.comparable hmatch hdtype hquery) h.linked.noDangling
      (h.linked.entryPoint_lt hne) k ef
  · obtain ⟨i, hi, hid⟩ := h.exists_node hkey
    rw [← hid]
    exact search_complete (h.length_le hk) (hreach hk) hout hi

end Holds

end HnswIndex

/-! ### What a build makes -/

namespace Engine

variable {fs : Fs} {e : Engine} {ns : Bytes}

/-- **An index that is built** holds the vectors that the scan returned, and can be written to a file if there
are not too many of them and their keys are not too long. -/
theorem gatherIndex_holds (h : e.ShowsVectors fs ns s) (hgather : e.gatherIndex F fs ns = .ok (some index)) :
    index.Holds s ∧ index.nodes ≠ [] ∧ (s.keys.encard ≤ (10000000 : ℕ) →
      (∀ key ∈ s.keys, key.length < 256 ^ 4) → index.Storable) := by
  obtain ⟨items, hitems, hof⟩ := h.all
  unfold gatherIndex at hgather
  rw [hitems] at hgather
  obtain ⟨_, hsome, hgather⟩ := Except.bind_eq_ok.mp hgather
  cases hsome
  cases items with
  | nil => cases hgather
  | cons first rest =>
    dsimp only at hgather
    obtain ⟨firstRec, hfirst, hgather⟩ := Except.bind_eq_ok.mp hgather
    obtain ⟨index', hfold, hgather⟩ := Except.bind_eq_ok.mp hgather
    cases hgather
    obtain ⟨hlinked, hm, hlayers, hdims, -, hmetric, hef, hvectors⟩ :=
      HnswIndex.inserts_spec (HnswIndex.linked_of_nil rfl) rfl (fun c hc => absurd hc List.not_mem_nil) hfold
    have hvectors : index.vectors = (first :: rest).map HnswIndex.storedVector := hvectors
    have hmem : ∀ key data, (key, data) ∈ index.vectors ↔
        ∃ record, s key = some record ∧ record.data = data := by
      intro key data
      rw [hvectors]
      constructor
      · intro hp
        obtain ⟨p, hp, heq⟩ := List.mem_map.mp hp
        obtain ⟨record, hrecord, hdecode⟩ := hof.of_mem hp
        rw [HnswIndex.storedVector_of_ok hdecode] at heq
        cases heq
        exact ⟨record, hrecord, rfl⟩
      · rintro ⟨record, hrecord, rfl⟩
        obtain ⟨bytes, hbytes, hdecode⟩ := hof.exists_mem hrecord
        exact List.mem_map.mpr ⟨(key, bytes), hbytes, HnswIndex.storedVector_of_ok hdecode⟩
    have hkeys : index.vectors.map Prod.fst = (first :: rest).map Prod.fst := by
      rw [hvectors, List.map_map]
      rfl
    have hlen : index.nodes.length = (first :: rest).length := by
      have := congrArg List.length hvectors
      rwa [HnswIndex.vectors, List.length_map, List.length_map] at this
    have hne : index.nodes ≠ [] := fun hnil => by
      rw [hnil] at hlen
      cases hlen
    refine ⟨⟨hlinked, hmetric, ?_, hmem, fun key record => hof.wellFormed⟩, hne, fun hcount hshort => ?_⟩
    · rw [hkeys]
      exact hof.nodup_keys
    · refine hlinked.rooted.storable hne ?_ ?_ (hm.trans_lt (by decide)) (hef.trans_lt (show 100 < 256 ^ 2 by decide))
        (fun c hc => (hlayers c hc).trans_lt (by decide)) fun p hp => ?_
      · rw [hlen]
        exact hof.length_le hcount
      · exact hdims.trans_lt (VectorRecord.WellFormed.of_decode (decodeVectorRecord_of_stored hfirst)).dims_lt
      · obtain ⟨record, hrecord, hdata⟩ := (hmem p.1 p.2).mp hp
        have hwf := hof.wellFormed hrecord
        refine ⟨hshort p.1 fun hnone => Option.some_ne_none record (hrecord.symm.trans hnone), ?_⟩
        rw [← hdata, hwf.length_data]
        have hdims := hwf.dims_lt
        cases record.dtype with
        | f32 => exact (Nat.mul_lt_mul_of_pos_right hdims (by decide)).trans (by decide)
        | f16 => exact (Nat.mul_lt_mul_of_pos_right hdims (by decide)).trans (by decide)
        | i8 => exact (Nat.mul_lt_mul_of_pos_right hdims (by decide)).trans (by decide)

end Engine
