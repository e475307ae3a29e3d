import Edgestore.Vector.HnswInsert

/-!
# What a search can run into

A search fails with the errors of the distances that it computes, and it computes the distances of nodes that
it visits: the entry point on the top layer, neighbors, and on the layer below the node that it found. As long
as these are nodes of the graph it does not panic. It ends in any graph.

## Main definitions

* `HnswIndex.Guarded`: sets of nodes, one on each layer, that no search leaves
* `HnswIndex.SearchesWell`: a search ends, does not panic, and what it returns has been found

## Main results

* `HnswIndex.Guarded.search_failsWith`: the errors of a search are those of distances of guarded nodes
* `HnswIndex.Guarded.searchesWell`: a search among guarded nodes
* `HnswIndex.insertAll_searchesWell`: the graph that a sequence of insertions builds, and its searches
-/

variable {F : Floats} {index : HnswIndex} {query : Bytes} {ef layer curr k : ℕ}
  {E : EdgestoreError → Prop}

/-- The error is not a panic. -/
def EdgestoreError.NoPanic (e : EdgestoreError) : Prop := ∀ msg, e ≠ .panicked msg

theorem decodeToF32_noPanic (bytes : Bytes) (dtype : Dtype) :
    (decodeToF32 F bytes dtype).FailsWith EdgestoreError.NoPanic := by
  unfold decodeToF32
  cases dtype with
  | f32 =>
    dsimp only
    split
    · exact Except.failsWith_error nofun
    · exact Except.failsWith_ok _
  | f16 =>
    dsimp only
    split
    · exact Except.failsWith_error nofun
    · exact Except.failsWith_ok _
  | i8 => exact Except.failsWith_ok _

/-- Distances do not panic. -/
theorem distance_noPanic (query candidate : Bytes) (dtype : Dtype) (metric : Metric) :
    (distance F query candidate dtype metric).FailsWith EdgestoreError.NoPanic := by
  unfold distance
  refine (decodeToF32_noPanic query dtype).bind fun q _ => ?_
  refine (decodeToF32_noPanic candidate dtype).bind fun c _ => ?_
  split
  · exact Except.failsWith_error nofun
  · split
    · exact Except.failsWith_ok _
    · exact Except.failsWith_ok _

namespace HnswIndex

/-- Only an index that is out of bounds panics. -/
theorem distanceToNode_noPanic {i : ℕ} (hi : i < index.nodes.length) :
    (index.distanceToNode F query i).FailsWith EdgestoreError.NoPanic := by
  unfold distanceToNode
  rw [List.getElem?_eq_getElem hi]
  exact distance_noPanic query _ index.dtype index.metric

/-! ### The search of a layer -/

section Layer

variable {P : ℕ → Prop}

theorem visit_failsWith {i : ℕ} (hi : (index.distanceToNode F query i).FailsWith E) (b : Beam) :
    (index.visit F query ef b i).FailsWith E := by
  unfold visit
  split
  case isTrue => exact Except.failsWith_ok b
  case isFalse => exact hi.bind fun d _ => Except.failsWith_ok _

theorem searchLoop_failsWith (hP : ∀ i, P i → ∀ j ∈ index.neighborsAt i layer, P j)
    (hE : ∀ i, P i → (index.distanceToNode F query i).FailsWith E) {fuel : ℕ} {b : Beam} (hb : b.Inside P) :
    (index.searchLoop F query ef layer fuel b).FailsWith E := by
  induction fuel generalizing b with
  | zero => exact Except.failsWith_ok b.results
  | succ fuel ih =>
    unfold searchLoop
    split
    case h_1 => exact Except.failsWith_ok b.results
    case h_2 cand rest hpop =>
      split
      case isTrue => exact Except.failsWith_ok b.results
      case isFalse =>
        have hrest : ({ b with candidates := rest } : Beam).Inside P :=
          ⟨fun c hc => hb.candidates c ((Heap.pop_perm hpop).subset (List.mem_cons_of_mem _ hc)),
            hb.results⟩
        have hneighbors := hP cand.nodeIdx (hb.candidates cand (Heap.mem_of_pop hpop))
        -- the neighbors are looked at one by one, and stay in the set
        have hstep : ∀ (b : Beam) (j : ℕ) (l : List ℕ) (b' : Beam), (b.Inside P ∧ ∀ i ∈ j :: l, P i) →
            index.visit F query ef b j = .ok b' → b'.Inside P ∧ ∀ i ∈ l, P i := by
          intro b j l b' hb hv
          exact ⟨inside_visit hb.1 (hb.2 j List.mem_cons_self) hv,
            fun i hi => hb.2 i (List.mem_cons_of_mem _ hi)⟩
        refine Except.FailsWith.bind ?_ fun b' hfold => ih ?_
        · exact Except.FailsWith.foldlM (I := fun b l => b.Inside P ∧ ∀ i ∈ l, P i)
            (fun b j l hb => visit_failsWith (hE j (hb.2 j List.mem_cons_self)) b) hstep ⟨hrest, hneighbors⟩
        · exact (Except.foldlM_ok (I := fun b l => b.Inside P ∧ ∀ i ∈ l, P i) hstep hfold
            ⟨hrest, hneighbors⟩).1

/-- **The errors of the search of a layer** are those of distances of nodes in a set that neighbors do not
leave. -/
theorem searchLayer_failsWith (hP : ∀ i, P i → ∀ j ∈ index.neighborsAt i layer, P j)
    (hE : ∀ i, P i → (index.distanceToNode F query i).FailsWith E) (hcurr : P curr) :
    (index.searchLayer F query [curr] ef layer).FailsWith E := by
  unfold searchLayer
  have henter : (index.enter F query {} curr).FailsWith E := (hE curr hcurr).bind fun d _ =>
    Except.failsWith_ok _
  refine Except.FailsWith.bind ?_ fun b hb => ?_
  · rw [List.foldlM_cons]
    exact henter.bind fun b _ => Except.failsWith_ok b
  · obtain ⟨b₁, hb₁, hnil⟩ := Except.bind_eq_ok.mp ((List.foldlM_cons ..).symm.trans hb)
    cases hnil
    obtain ⟨d, -, rfl⟩ := enter_eq_ok.mp hb₁
    have hstart : ∀ c ∈ [(⟨curr, d⟩ : Candidate)], P c.nodeIdx := fun c hc => by
      rw [List.mem_singleton.mp hc]
      exact hcurr
    exact (searchLoop_failsWith hP hE ⟨hstart, hstart⟩).bind fun results _ => Except.failsWith_ok _

end Layer

/-! ### The search of the graph -/

/-- The layers from the top. -/
theorem reverse_range'_succ (start count : ℕ) :
    (List.range' start (count + 1)).reverse = (start + count) :: (List.range' start count).reverse := by
  rw [List.range'_concat, List.reverse_append, List.reverse_singleton, List.singleton_append, one_mul]

/-- Sets of nodes, one on each layer, with the entry point, that neighbors on a layer do not leave, and that
grow from layer to layer on the way down. -/
structure Guarded (index : HnswIndex) (P : ℕ → ℕ → Prop) : Prop where
  entryPoint : P index.maxLayer index.entryPoint
  down : ∀ l i, P (l + 1) i → P l i
  neighbors : ∀ l i, P l i → ∀ j ∈ index.neighborsAt i l, P l j

namespace Guarded

variable {P : ℕ → ℕ → Prop}

/-- The node that is found on a layer. -/
theorem head (h : index.Guarded P) (hcurr : P layer curr) {out : List (ℕ × F32)}
    (hout : index.searchLayer F query [curr] ef layer = .ok out) : P layer ((out.head?.map Prod.fst).getD curr) := by
  cases hcases : out with
  | nil => exact hcurr
  | cons p rest =>
    exact searchLayer_inside (h.neighbors layer) hcurr hout p (hcases ▸ List.mem_cons_self)

/-- The way down from one layer to another. -/
theorem descend (h : index.Guarded P) (hE : ∀ l i, P l i → (index.distanceToNode F query i).FailsWith E)
    (bottom count : ℕ) {curr : ℕ} (hcurr : P (bottom + count) curr) :
    (index.descend F query ef (List.range' (bottom + 1) count).reverse curr).FailsWith E ∧
      ∀ last, index.descend F query ef (List.range' (bottom + 1) count).reverse curr = .ok last →
        P bottom last := by
  unfold HnswIndex.descend
  induction count generalizing curr with
  | zero =>
    refine ⟨Except.failsWith_ok curr, fun last hlast => ?_⟩
    cases hlast
    exact hcurr
  | succ count ih =>
    have hlayers : (List.range' (bottom + 1) (count + 1)).reverse =
        (bottom + (count + 1)) :: (List.range' (bottom + 1) count).reverse := by
      rw [reverse_range'_succ, Nat.add_assoc, Nat.add_comm 1 count]
    have hnext : ∀ out, index.searchLayer F query [curr] ef (bottom + (count + 1)) = .ok out →
        P (bottom + count) ((out.head?.map Prod.fst).getD curr) := fun out hout =>
      h.down (bottom + count) _ (h.head hcurr hout)
    rw [hlayers, List.foldlM_cons]
    constructor
    · refine Except.FailsWith.bind ?_ fun next hstep => ?_
      · exact (searchLayer_failsWith (h.neighbors _) (hE _) hcurr).bind fun out _ => Except.failsWith_ok _
      · obtain ⟨out, hout, hstep⟩ := Except.bind_eq_ok.mp hstep
        cases hstep
        exact (ih (hnext out hout)).1
    · intro last hlast
      obtain ⟨next, hstep, hlast⟩ := Except.bind_eq_ok.mp hlast
      obtain ⟨out, hout, hstep⟩ := Except.bind_eq_ok.mp hstep
      cases hstep
      exact (ih (hnext out hout)).2 last hlast

/-- **The errors of a search** are those of distances of guarded nodes, or, in a graph of one node, of
this node. -/
theorem search_failsWith (h : index.Guarded P)
    (hE : ∀ l i, P l i → (index.distanceToNode F query i).FailsWith E)
    (hone : index.nodes.length = 1 → (index.distanceToNode F query 0).FailsWith E) :
    (index.search F query k ef).FailsWith E := by
  unfold search
  split
  case h_1 => exact Except.failsWith_ok []
  case h_2 node hnodes =>
    exact (hone (by rw [hnodes]; rfl)).bind fun d _ => Except.failsWith_ok _
  case h_3 =>
    have hentry : P (0 + index.maxLayer) index.entryPoint := by
      rw [Nat.zero_add]
      exact h.entryPoint
    have hlower : (index.descend F query (max (max ef k) 1) index.upperLayers index.entryPoint).FailsWith E ∧
        ∀ last, index.descend F query (max (max ef k) 1) index.upperLayers index.entryPoint = .ok last →
          P 0 last := h.descend hE 0 index.maxLayer hentry
    obtain ⟨hfail, hcurr⟩ := hlower
    refine hfail.bind fun curr hdescend => ?_
    refine (searchLayer_failsWith (h.neighbors 0) (hE 0) (hcurr curr hdescend)).bind fun results _ => ?_
    exact Except.failsWith_ok _

end Guarded

/-- A search ends: the search of a layer, from wherever it starts, has finished before its fuel has. It does not
panic, and what it returns has been found. -/
structure SearchesWell (F : Floats) (index : HnswIndex) (query : Bytes) (k ef : ℕ) : Prop where
  ends : ∀ curr ef layer b, index.enter F query {} curr = .ok b → ∀ extra,
    index.searchLoop F query ef layer (index.nodes.length + 2 + extra) b =
      index.searchLoop F query ef layer (index.nodes.length + 2) b
  noPanic : (index.search F query k ef).FailsWith EdgestoreError.NoPanic
  found : ∀ out, index.search F query k ef = .ok out → ∃ found, Found F index query k found out

/-- The search of a layer ends in any graph: no node is expanded twice. -/
theorem searchLoop_ends {b : Beam} (hb : index.enter F query {} curr = .ok b) (extra : ℕ) :
    index.searchLoop F query ef layer (index.nodes.length + 2 + extra) b =
      index.searchLoop F query ef layer (index.nodes.length + 2) b := by
  obtain ⟨hseen, hleft⟩ := seen_enter hb
  exact searchLoop_fuel hseen (by omega) extra

/-- **A search among guarded nodes** that are nodes of the graph. -/
theorem Guarded.searchesWell {P : ℕ → ℕ → Prop} (h : index.Guarded P)
    (hrange : ∀ l i, P l i → i < index.nodes.length) : index.SearchesWell F query k ef where
  ends := fun _ _ _ _ hb extra => searchLoop_ends hb extra
  noPanic := h.search_failsWith (fun l i hi => distanceToNode_noPanic (hrange l i hi)) fun hone =>
    distanceToNode_noPanic (hone ▸ Nat.one_pos)
  found := fun out hout => by
    obtain ⟨found, hfound, -⟩ := search_found hout
    exact ⟨found, hfound⟩

/-- A search in a graph without nodes. -/
theorem searchesWell_of_nil (hnil : index.nodes = []) : index.SearchesWell F query k ef where
  ends := fun _ _ _ _ hb extra => searchLoop_ends hb extra
  noPanic := by
    rw [search_of_nil hnil]
    exact Except.failsWith_ok []
  found := fun out hout => by
    obtain ⟨found, hfound, -⟩ := search_found hout
    exact ⟨found, hfound⟩

/-- A search in a graph of one node at most looks at no other. -/
theorem searchesWell_of_length_lt (hfew : index.nodes.length < 2) : index.SearchesWell F query k ef where
  ends := fun _ _ _ _ hb extra => searchLoop_ends hb extra
  noPanic := by
    unfold search
    split
    case h_1 => exact Except.failsWith_ok []
    case h_2 node hnodes =>
      have hone : 0 < index.nodes.length := by
        rw [hnodes]
        exact Nat.one_pos
      exact (distanceToNode_noPanic hone).bind fun d _ => Except.failsWith_ok _
    case h_3 hnil hone =>
      match hnodes : index.nodes with
      | [] => exact absurd hnodes hnil
      | [node] => exact absurd hnodes (hone node)
      | _ :: _ :: rest =>
        rw [hnodes] at hfew
        exact absurd hfew (not_lt.mpr (Nat.le_add_left 2 rest.length))
  found := fun out hout => by
    obtain ⟨found, hfound, -⟩ := search_found hout
    exact ⟨found, hfound⟩

/-- A graph with the invariant guards its nodes. -/
theorem Linked.searchesWell (h : index.Linked) : index.SearchesWell F query k ef := by
  by_cases hnodes : index.nodes = []
  · exact searchesWell_of_nil hnodes
  · have hguarded : index.Guarded fun _ i => i < index.nodes.length :=
      ⟨h.entryPoint_lt hnodes, fun _ _ hi => hi, fun l i _ j hj => h.noDangling i l j hj⟩
    exact hguarded.searchesWell fun _ _ hi => hi

/-- Vectors of the declared length have a distance to a query of this length. -/
theorem comparable_of_length {size : ℕ} (hsize : size = index.dims * index.dtype.elementSize)
    (hvectors : ∀ p ∈ index.vectors, p.2.length = size) (hquery : query.length = size) :
    index.Comparable F query := by
  intro i hi
  unfold distanceToNode
  rw [List.getElem?_eq_getElem hi]
  have hdata := hvectors _ (List.mem_map_of_mem (List.getElem_mem hi))
  exact distance_of_length (hquery.trans hsize) (hdata.trans hsize) index.metric

/-- A search returns in a graph of vectors of the declared length. -/
theorem Linked.exists_search (h : index.Linked) {size : ℕ} (hsize : size = index.dims * index.dtype.elementSize)
    (hvectors : ∀ p ∈ index.vectors, p.2.length = size) (hquery : query.length = size) (k ef : ℕ) :
    ∃ out, index.search F query k ef = .ok out := by
  by_cases hnodes : index.nodes = []
  · exact ⟨[], search_of_nil hnodes⟩
  · exact search_total (comparable_of_length hsize hvectors hquery) h.noDangling (h.entryPoint_lt hnodes) k ef

/-- **The graph that insertions build**, each on any layer, has the invariant, and every search in it ends, does
not panic and returns different nodes in ascending order of distance, no more than were asked for. If the
vectors and the query have the declared length, it returns. -/
theorem insertAll_searchesWell {dims : ℕ} {dtype : Dtype} {metric : Metric} {m efConstruction seed : ℕ}
    {items : List (ℕ × Bytes × Bytes)}
    (h : insertAll F { (new dims dtype metric).withParams m efConstruction with rngSeed := seed } items =
      .ok index) :
    index.Linked ∧ index.m = m ∧ index.vectors = items.map Prod.snd ∧
      ∀ query k ef, 1 ≤ k → index.SearchesWell F query k ef ∧
        ((∀ p ∈ items, p.2.2.length = dims * dtype.elementSize) → query.length = dims * dtype.elementSize →
          ∃ out, index.search F query k ef = .ok out) := by
  have hempty : { (new dims dtype metric).withParams m efConstruction with rngSeed := seed }.Linked :=
    linked_of_nil rfl
  have hbuilt := hempty.insertAll h
  have hvectors : index.vectors = items.map Prod.snd := hbuilt.vectors
  refine ⟨hbuilt.linked, hbuilt.m, hvectors, fun query k ef _ => ⟨hbuilt.linked.searchesWell, ?_⟩⟩
  intro hitems hquery
  have hsize : dims * dtype.elementSize = index.dims * index.dtype.elementSize := by
    rw [hbuilt.dims, hbuilt.dtype]
    rfl
  refine hbuilt.linked.exists_search hsize (fun p hp => ?_) hquery k ef
  obtain ⟨q, hq, rfl⟩ := List.mem_map.mp (hvectors ▸ hp)
  exact hitems q hq

/-- Three vectors of one dimension, on different layers. -/
theorem insertAll_searchesWell_three : ∃ index, insertAll plainFloats
    { (new 1 .i8 .l2).withParams 2 1 with rngSeed := 7 } [(1, [1], [3]), (0, [2], [5]), (2, [3], [9])] =
      .ok index ∧ index.Linked ∧ index.SearchesWell plainFloats [4] 2 1 ∧
      ∃ out, index.search plainFloats [4] 2 1 = .ok out := by
  have hok : (insertAll plainFloats { (new 1 .i8 .l2).withParams 2 1 with rngSeed := 7 }
      [(1, [1], [3]), (0, [2], [5]), (2, [3], [9])]).toOption.isSome = true := by
    decide +kernel
  cases h : insertAll plainFloats { (new 1 .i8 .l2).withParams 2 1 with rngSeed := 7 }
      [(1, [1], [3]), (0, [2], [5]), (2, [3], [9])] with
  | error e =>
    rw [h] at hok
    cases hok
  | ok index =>
    obtain ⟨hlinked, -, -, hsearch⟩ := insertAll_searchesWell h
    obtain ⟨hwell, hreturns⟩ := hsearch [4] 2 1 (by decide)
    exact ⟨index, rfl, hlinked, hwell, hreturns (by decide) rfl⟩

end HnswIndex
