import Edgestore.Vector.HnswSearch
import Edgestore.Vector.HnswFile

/-!
# What insertion keeps of the graph

An insertion adds a node with the key and the data of a vector, and changes lists of neighbors. The layer of
the node is drawn from a generator; what follows holds for any layers. Neighbors on a layer have the layer, a
list of neighbors has at most `m` of them, none twice and never the node itself, and the entry point reaches
up to the top layer.

## Main definitions

* `HnswIndex.withoutEdges`: what is left of an index without its lists of neighbors
* `HnswIndex.vectors`: the keys and the data of the nodes
* `HnswIndex.insertOnLayer`: an insertion, given the layer
* `HnswIndex.Linked`, `HnswIndex.Rooted`: the invariant of the graph, and what is left of it when insertions fail

## Main results

* `HnswIndex.Linked.insertOnLayer`: an insertion adds a vector and keeps the invariant
* `HnswIndex.Rooted.storable`: a graph that is not too large can be written to a file
-/

variable {F : Floats} {index index' : HnswIndex}

namespace HnswIndex

/-! ### Lists of neighbors -/

/-- An index with empty lists of neighbors. -/
def withoutEdges (index : HnswIndex) : HnswIndex :=
  { index with nodes := index.nodes.map fun node =>
    { node with neighbors := node.neighbors.map fun _ => [] } }

/-- The keys and the data of the nodes. -/
def vectors (index : HnswIndex) : List (Bytes × Bytes) :=
  index.nodes.map fun node => (node.vectorId, node.vectorData)

/-- The numbers of layers of the nodes. -/
def layerCounts (index : HnswIndex) : List ℕ := index.nodes.map fun node => node.neighbors.length

theorem getElem?_setNeighbors (i layer j : ℕ) (l : List ℕ) :
    (index.setNeighbors i layer l).nodes[j]? = index.nodes[j]?.map fun node =>
      if i = j then { node with neighbors := node.neighbors.set layer l } else node := by
  rw [setNeighbors, List.getElem?_modify]
  cases index.nodes[j]? <;> rfl

theorem withoutEdges_setNeighbors (i layer : ℕ) (l : List ℕ) :
    (index.setNeighbors i layer l).withoutEdges = index.withoutEdges := by
  have hnodes : (index.setNeighbors i layer l).withoutEdges.nodes = index.withoutEdges.nodes := by
    refine List.ext_getElem? fun j => ?_
    rw [withoutEdges, withoutEdges, List.getElem?_map, List.getElem?_map, getElem?_setNeighbors,
      Option.map_map]
    refine congrArg (fun f => Option.map f index.nodes[j]?) (funext fun node => ?_)
    dsimp only [Function.comp]
    split
    case isTrue =>
      -- all lists are the same when they are empty
      have hlists : ((node.neighbors.set layer l).map fun _ => ([] : List ℕ)) =
          node.neighbors.map fun _ => [] := by
        rw [List.map_set]
        refine List.ext_getElem? fun k => ?_
        rw [List.getElem?_set, List.length_map, List.getElem?_map]
        split
        case isTrue hk =>
          subst hk
          split
          case isTrue hlt => rw [List.getElem?_eq_getElem hlt, Option.map_some]
          case isFalse hge => rw [List.getElem?_eq_none (not_lt.mp hge), Option.map_none]
        case isFalse => rfl
      rw [hlists]
    case isFalse => rfl
  change { index with nodes := (index.setNeighbors i layer l).withoutEdges.nodes } = _
  rw [hnodes]
  rfl

/-- A node that has the layer gets the list. -/
theorem neighborsAt_setNeighbors (i layer j layer' : ℕ) (l : List ℕ) :
    (index.setNeighbors i layer l).neighborsAt j layer' =
      if i = j ∧ layer = layer' ∧ layer < index.layerCount i then l else index.neighborsAt j layer' := by
  rw [neighborsAt, getElem?_setNeighbors, neighborsAt, layerCount]
  by_cases hij : i = j
  · subst hij
    cases index.nodes[i]? with
    | none => simp
    | some node =>
      simp only [Option.map_some, Option.bind_some, if_true, true_and, Option.getD_some,
        List.getElem?_set]
      by_cases hlayer : layer = layer'
      · subst hlayer
        by_cases hlt : layer < node.neighbors.length
        · rw [if_pos rfl, if_pos hlt, if_pos ⟨rfl, hlt⟩, Option.getD_some]
        · rw [if_pos rfl, if_neg hlt, if_neg fun h => hlt h.2, List.getElem?_eq_none (not_lt.mp hlt)]
      · rw [if_neg hlayer, if_neg fun h => hlayer h.1]
  · rw [if_neg fun h => hij h.1]
    simp only [if_neg hij, Option.map_id']

/-- Indexes that differ in their lists of neighbors have the same nodes. -/
theorem length_nodes_of_withoutEdges (h : index'.withoutEdges = index.withoutEdges) :
    index'.nodes.length = index.nodes.length := by
  have hlen := congrArg (fun i : HnswIndex => i.nodes.length) h
  simpa only [withoutEdges, List.length_map] using hlen

theorem vectors_withoutEdges (index : HnswIndex) : index.withoutEdges.vectors = index.vectors := by
  rw [vectors, withoutEdges, List.map_map]
  rfl

theorem layerCounts_withoutEdges (index : HnswIndex) : index.withoutEdges.layerCounts = index.layerCounts := by
  rw [layerCounts, withoutEdges, List.map_map]
  exact List.map_congr_left fun node _ => List.length_map _

theorem layerCount_withoutEdges (index : HnswIndex) (i : ℕ) :
    index.withoutEdges.layerCount i = index.layerCount i := by
  rw [layerCount, withoutEdges, List.getElem?_map, Option.map_map, layerCount]
  refine congrArg (fun o => Option.getD o 0) (congrArg (fun f => Option.map f _) (funext fun node => ?_))
  exact List.length_map _

/-! ### Pruning -/

/-- A list of more than `m` neighbors is cut to at most `m` of them. -/
theorem pruneNeighbors_of_lt {nodeIdx layer m : ℕ} (h : m < (index.neighborsAt nodeIdx layer).length) :
    ∃ l : List ℕ, l.Subperm (index.neighborsAt nodeIdx layer) ∧ l.length ≤ m ∧
      index.pruneNeighbors F nodeIdx layer m = index.setNeighbors nodeIdx layer l := by
  unfold pruneNeighbors
  dsimp only
  rw [if_neg (not_le.mpr h)]
  refine ⟨_, ?_, ?_, rfl⟩
  · -- those with a distance, sorted, and the first of these
    refine ((List.take_sublist _ _).map Prod.fst).subperm.trans ?_
    refine ((List.mergeSort_perm _ _).map Prod.fst).subperm.trans ?_
    rw [List.map_filterMap]
    refine List.Sublist.subperm ?_
    generalize index.neighborsAt nodeIdx layer = l
    induction l with
    | nil => exact List.Sublist.refl _
    | cons n l ih =>
      rw [List.filterMap_cons]
      split
      case h_1 => exact ih.cons n
      case h_2 a ha =>
        split at ha
        case isTrue => cases ha
        case isFalse =>
          rw [Option.map_map] at ha
          obtain ⟨d, -, rfl⟩ := Option.map_eq_some_iff.mp ha
          exact ih.cons_cons n
  · rw [List.length_map]
    exact List.length_take_le _ _

/-! ### Connecting a node -/

/-- What connecting a node on layer `l` does to lists of neighbors: the nodes of `added` are put behind the
list of the node, and the node is put into their lists, from which others may be dropped. -/
structure Connected (nodeIdx l m : ℕ) (added : List ℕ) (index index' : HnswIndex) : Prop where
  withoutEdges : index'.withoutEdges = index.withoutEdges
  own : index'.neighborsAt nodeIdx l = index.neighborsAt nodeIdx l ++ added
  ownOther : ∀ layer ≠ l, index'.neighborsAt nodeIdx layer = index.neighborsAt nodeIdx layer
  other : ∀ i ≠ nodeIdx, ∀ layer, index'.neighborsAt i layer = index.neighborsAt i layer ∨
    i ∈ added ∧ layer = l ∧
      (index'.neighborsAt i layer).Subperm (index.neighborsAt i layer ++ [nodeIdx]) ∧
      (index'.neighborsAt i layer).length ≤ m

theorem layerCount_of_withoutEdges (h : index'.withoutEdges = index.withoutEdges) (i : ℕ) :
    index'.layerCount i = index.layerCount i := by
  have hlayers := congrArg (fun index : HnswIndex => index.layerCount i) h
  simpa only [layerCount_withoutEdges] using hlayers

namespace Connected

variable {nodeIdx l m : ℕ} {index'' : HnswIndex} {added added' : List ℕ}

theorem refl : Connected nodeIdx l m [] index index where
  withoutEdges := rfl
  own := (List.append_nil _).symm
  ownOther := fun _ _ => rfl
  other := fun _ _ _ => .inl rfl

/-- No node is connected twice. -/
theorem trans (h : Connected nodeIdx l m added index index')
    (h' : Connected nodeIdx l m added' index' index'') (hdisjoint : added.Disjoint added') :
    Connected nodeIdx l m (added ++ added') index index'' where
  withoutEdges := h'.withoutEdges.trans h.withoutEdges
  own := by rw [h'.own, h.own, List.append_assoc]
  ownOther := fun layer hlayer => (h'.ownOther layer hlayer).trans (h.ownOther layer hlayer)
  other := by
    intro i hi layer
    rcases h'.other i hi layer with heq' | ⟨hadded', hlayer', hsub', hlen'⟩
    · rw [heq']
      refine (h.other i hi layer).imp_right fun ⟨hadded, hrest⟩ => ?_
      exact ⟨List.mem_append_left _ hadded, hrest⟩
    · rcases h.other i hi layer with heq | ⟨hadded, -⟩
      · rw [heq] at hsub'
        exact .inr ⟨List.mem_append_right _ hadded', hlayer', hsub', hlen'⟩
      · exact absurd hadded' (hdisjoint hadded)

end Connected

/-- Two changes of one list. -/
theorem setNeighbors_setNeighbors (i layer : ℕ) (l l' : List ℕ) :
    (index.setNeighbors i layer l).setNeighbors i layer l' = index.setNeighbors i layer l' := by
  refine congrArg (fun nodes => { index with nodes := nodes }) (List.ext_getElem? fun j => ?_)
  change ((index.setNeighbors i layer l).setNeighbors i layer l').nodes[j]? =
    (index.setNeighbors i layer l').nodes[j]?
  rw [getElem?_setNeighbors, getElem?_setNeighbors, getElem?_setNeighbors, Option.map_map]
  refine congrArg (fun f => Option.map f index.nodes[j]?) (funext fun node => ?_)
  by_cases hij : i = j
  · simp only [Function.comp, if_pos hij, List.set_set]
  · simp only [Function.comp, if_neg hij]

/-- A new list of the neighbor, behind the one of the node. -/
theorem connected_both {nodeIdx l m neighborIdx : ℕ} (hl : l < index.layerCount nodeIdx)
    (hne : neighborIdx ≠ nodeIdx) {list : List ℕ}
    (hsub : list.Subperm (index.neighborsAt neighborIdx l ++ [nodeIdx])) (hlen : list.length ≤ m) :
    Connected nodeIdx l m [neighborIdx] index
      ((index.setNeighbors nodeIdx l (index.neighborsAt nodeIdx l ++ [neighborIdx])).setNeighbors
        neighborIdx l list) where
  withoutEdges := (withoutEdges_setNeighbors ..).trans (withoutEdges_setNeighbors ..)
  own := by
    rw [neighborsAt_setNeighbors, if_neg fun h => hne h.1, neighborsAt_setNeighbors,
      if_pos ⟨rfl, rfl, hl⟩]
  ownOther := by
    intro layer hlayer
    rw [neighborsAt_setNeighbors, if_neg fun h => hne h.1, neighborsAt_setNeighbors,
      if_neg fun h => hlayer h.2.1.symm]
  other := by
    intro i hi layer
    rw [neighborsAt_setNeighbors]
    split
    case isTrue heq =>
      obtain ⟨rfl, rfl, -⟩ := heq
      exact .inr ⟨List.mem_singleton_self _, rfl, hsub, hlen⟩
    case isFalse =>
      rw [neighborsAt_setNeighbors, if_neg fun h => hi h.1.symm]
      exact .inl rfl

/-- **A connection** of a node with a neighbor, each of which has the layer. -/
theorem connected_connect {nodeIdx l neighborIdx : ℕ} (m : ℕ) (hl : l < index.layerCount nodeIdx)
    (hneighbor : l < index.layerCount neighborIdx) :
    Connected nodeIdx l m (if neighborIdx = nodeIdx then [] else [neighborIdx]) index
      (connect F nodeIdx l m index neighborIdx) := by
  unfold connect
  split
  case isTrue => exact .refl
  case isFalse hne =>
    set index₁ := index.setNeighbors nodeIdx l (index.neighborsAt nodeIdx l ++ [neighborIdx]) with hindex₁
    have hlayers : l < index₁.layerCount neighborIdx :=
      hneighbor.trans_eq (layerCount_of_withoutEdges (withoutEdges_setNeighbors ..) _).symm
    have hold : index₁.neighborsAt neighborIdx l = index.neighborsAt neighborIdx l := by
      rw [hindex₁, neighborsAt_setNeighbors, if_neg fun h => hne h.1.symm]
    dsimp only
    rw [if_pos hlayers]
    set index₂ := index₁.setNeighbors neighborIdx l (index₁.neighborsAt neighborIdx l ++ [nodeIdx])
      with hindex₂
    have hlist : index₂.neighborsAt neighborIdx l = index.neighborsAt neighborIdx l ++ [nodeIdx] := by
      rw [hindex₂, neighborsAt_setNeighbors, if_pos ⟨rfl, rfl, hlayers⟩, hold]
    split
    case isFalse hshort =>
      refine connected_both hl hne ?_ ?_
      · rw [hold]
      · rw [hold, ← hlist]
        exact not_lt.mp hshort
    case isTrue hlong =>
      -- a list that has become too long is pruned
      obtain ⟨list, hsub, hlen, heq⟩ := pruneNeighbors_of_lt (F := F) hlong
      rw [heq, hindex₂, setNeighbors_setNeighbors]
      exact connected_both hl hne (hlist ▸ hsub) hlen

/-- **Connections** of a node with several neighbors, none of them twice. -/
theorem connected_foldl {nodeIdx l : ℕ} (m : ℕ) {selected : List ℕ} (hnodup : selected.Nodup)
    (hl : l < index.layerCount nodeIdx) (hselected : ∀ j ∈ selected, l < index.layerCount j) :
    Connected nodeIdx l m (selected.filter (· ≠ nodeIdx)) index
      (selected.foldl (connect F nodeIdx l m) index) := by
  induction selected generalizing index with
  | nil => exact .refl
  | cons n selected ih =>
    obtain ⟨hn, hnodup⟩ := List.nodup_cons.mp hnodup
    have hone := connected_connect (F := F) m hl (hselected n List.mem_cons_self)
    have hrest := ih hnodup (hl.trans_eq (layerCount_of_withoutEdges hone.withoutEdges _).symm)
      fun j hj => (hselected j (List.mem_cons_of_mem _ hj)).trans_eq
        (layerCount_of_withoutEdges hone.withoutEdges _).symm
    have hboth := hone.trans hrest (by
      intro j hj hj'
      split at hj
      case isTrue => cases hj
      case isFalse =>
        rw [List.mem_singleton] at hj
        exact hn (hj ▸ List.mem_of_mem_filter hj'))
    have heq : (n :: selected).filter (· ≠ nodeIdx) =
        (if n = nodeIdx then [] else [n]) ++ selected.filter (· ≠ nodeIdx) := by
      rw [List.filter_cons]
      by_cases hnode : n = nodeIdx
      · simp only [hnode, ne_eq, not_true_eq_false, decide_false, Bool.false_eq_true, if_false, if_true,
          List.nil_append]
      · simp only [hnode, ne_eq, not_false_eq_true, decide_true, if_true, if_false,
          List.singleton_append]
    rw [heq]
    exact hboth

/-! ### Selecting neighbors -/

/-- What is selected and what is discarded are candidates, none of them twice. -/
theorem selectLoop_subperm {nodeIdx m : ℕ} {candidates : List (ℕ × F32)} {selected discarded : List ℕ} :
    let r := index.selectLoop F nodeIdx m candidates selected discarded
    (r.1 ++ r.2).Subperm (selected ++ discarded ++ candidates.map Prod.fst) := by
  induction candidates generalizing selected discarded with
  | nil =>
    intro r
    rw [List.map_nil, List.append_nil]
    exact List.Subperm.refl _
  | cons c candidates ih =>
    obtain ⟨candIdx, candDist⟩ := c
    -- the candidate may as well stand in front
    have hfront : ∀ l : List ℕ, l.Subperm (candIdx :: (selected ++ discarded ++ candidates.map Prod.fst)) →
        l.Subperm (selected ++ discarded ++ ((candIdx, candDist) :: candidates).map Prod.fst) := by
      intro l hl
      rw [List.map_cons]
      exact hl.trans List.perm_middle.symm.subperm
    have hskip : ∀ l : List ℕ, l.Subperm (selected ++ discarded ++ candidates.map Prod.fst) →
        l.Subperm (candIdx :: (selected ++ discarded ++ candidates.map Prod.fst)) := fun l hl =>
      hl.trans (List.sublist_cons_self _ _).subperm
    intro r
    apply hfront
    simp only [r]
    unfold selectLoop
    split
    case isTrue => exact hskip _ ih
    case isFalse =>
      split
      case isTrue hnil =>
        subst hnil
        exact ih
      case isFalse =>
        dsimp only
        generalize index.isDiverse F candIdx candDist selected = add
        have hput : ((if add then selected ++ [candIdx] else selected) ++
            (if add then discarded else discarded ++ [candIdx])).Perm
            (candIdx :: (selected ++ discarded)) := by
          cases add with
          | true =>
            rw [if_pos rfl, if_pos rfl, List.append_assoc]
            exact List.perm_middle
          | false =>
            rw [if_neg Bool.false_ne_true, if_neg Bool.false_ne_true, ← List.append_assoc]
            exact List.perm_append_singleton _ _
        by_cases hm : m ≤ (if add then selected ++ [candIdx] else selected).length
        · rw [if_pos hm]
          exact hput.subperm.trans ((List.sublist_append_left _ _).cons_cons candIdx).subperm
        · rw [if_neg hm]
          exact ih.trans (hput.append_right _).subperm

/-- Selected nodes are filled up with discarded ones, none of them twice. -/
theorem fillLoop_spec {m : ℕ} {discarded selected : List ℕ} (hnodup : selected.Nodup) :
    (fillLoop m discarded selected).Nodup ∧
      ∀ j ∈ fillLoop m discarded selected, j ∈ selected ∨ j ∈ discarded := by
  induction discarded generalizing selected with
  | nil => exact ⟨hnodup, fun j hj => .inl hj⟩
  | cons d discarded ih =>
    unfold fillLoop
    split
    case isTrue => exact ⟨(ih hnodup).1, fun j hj => ((ih hnodup).2 j hj).imp_right (List.mem_cons_of_mem _)⟩
    case isFalse hd =>
      have happend : (selected ++ [d]).Nodup :=
        List.Nodup.append hnodup (List.nodup_singleton d) (by simpa using hd)
      have hmem : ∀ j ∈ selected ++ [d], j ∈ selected ∨ j ∈ d :: discarded := fun j hj =>
        (List.mem_append.mp hj).imp_right fun hj => List.mem_cons.mpr (.inl (List.mem_singleton.mp hj))
      split
      case isTrue => exact ⟨happend, hmem⟩
      case isFalse =>
        refine ⟨(ih happend).1, fun j hj => ?_⟩
        rcases (ih happend).2 j hj with hj | hj
        · exact hmem j hj
        · exact .inr (List.mem_cons_of_mem _ hj)

/-- **The neighbors of a new node** are candidates, none of them twice, and at most `m`. -/
theorem selectNeighbors_spec (F : Floats) (index : HnswIndex) (nodeIdx : ℕ) {candidates : List (ℕ × F32)} (m : ℕ)
    (hnodup : (candidates.map Prod.fst).Nodup) :
    index.selectNeighbors F nodeIdx candidates m ⊆ candidates.map Prod.fst ∧
      (index.selectNeighbors F nodeIdx candidates m).Nodup ∧
      (index.selectNeighbors F nodeIdx candidates m).length ≤ m := by
  have hloop : ((index.selectLoop F nodeIdx m candidates [] []).1 ++
      (index.selectLoop F nodeIdx m candidates [] []).2).Subperm (candidates.map Prod.fst) :=
    selectLoop_subperm
  have hboth : ((index.selectLoop F nodeIdx m candidates [] []).1 ++
      (index.selectLoop F nodeIdx m candidates [] []).2).Nodup := by
    obtain ⟨l, hperm, hsub⟩ := hloop
    exact hperm.nodup_iff.mp (hnodup.sublist hsub)
  have hselected := hboth.of_append_left
  obtain ⟨hfill, hmem⟩ :=
    @fillLoop_spec m (index.selectLoop F nodeIdx m candidates [] []).2 _ hselected
  unfold selectNeighbors
  dsimp only
  refine ⟨fun j hj => hloop.subset ?_, ?_, List.length_take_le _ _⟩
  · have hj := List.mem_of_mem_take hj
    split at hj
    case isTrue => exact List.mem_append.mpr (hmem j hj)
    case isFalse => exact List.mem_append_left _ hj
  · refine List.Nodup.sublist (List.take_sublist _ _) ?_
    split
    case isTrue => exact hfill
    case isFalse => exact hselected

/-- What has been selected stays in front. -/
theorem prefix_selectLoop {nodeIdx m : ℕ} {candidates : List (ℕ × F32)} {selected discarded : List ℕ} :
    selected <+: (index.selectLoop F nodeIdx m candidates selected discarded).1 := by
  induction candidates generalizing selected discarded with
  | nil => exact List.prefix_rfl
  | cons c candidates ih =>
    unfold selectLoop
    split
    case isTrue => exact ih
    case isFalse =>
      split
      case isTrue hnil =>
        rw [hnil]
        exact List.nil_prefix
      case isFalse =>
        dsimp only
        generalize index.isDiverse F c.1 c.2 selected = add
        have hput : selected <+: if add then selected ++ [c.1] else selected := by
          cases add with
          | true => exact List.prefix_append selected [c.1]
          | false => exact List.prefix_rfl
        by_cases hm : m ≤ (if add then selected ++ [c.1] else selected).length
        · rw [if_pos hm]
          exact hput
        · rw [if_neg hm]
          exact hput.trans ih

theorem prefix_fillLoop {m : ℕ} {discarded selected : List ℕ} : selected <+: fillLoop m discarded selected := by
  induction discarded generalizing selected with
  | nil => exact List.prefix_rfl
  | cons d discarded ih =>
    unfold fillLoop
    split
    · exact ih
    · split
      · exact List.prefix_append selected [d]
      · exact (List.prefix_append selected [d]).trans ih

/-- **The closest candidate is selected.** -/
theorem head_mem_selectNeighbors {nodeIdx m : ℕ} {p : ℕ × F32} {rest : List (ℕ × F32)} (hne : p.1 ≠ nodeIdx)
    (hm : 0 < m) : p.1 ∈ index.selectNeighbors F nodeIdx (p :: rest) m := by
  have hloop : [p.1] <+: (index.selectLoop F nodeIdx m (p :: rest) [] []).1 := by
    unfold selectLoop
    rw [if_neg hne, if_pos rfl]
    exact prefix_selectLoop
  have htake : ∀ l : List ℕ, [p.1] <+: l → p.1 ∈ l.take m := by
    rintro l ⟨l', rfl⟩
    obtain ⟨n, rfl⟩ := Nat.exists_eq_succ_of_ne_zero hm.ne'
    exact List.mem_cons_self
  unfold selectNeighbors
  dsimp only
  apply htake
  split
  · exact hloop.trans prefix_fillLoop
  · exact hloop

/-! ### The invariant of the graph -/

/-- **The invariant**: neighbors on a layer have the layer, no node is its own neighbor, a list has no
neighbor twice and at most `m` of them, and the entry point reaches up to the top layer. -/
structure Linked (index : HnswIndex) : Prop where
  owns : ∀ i layer, ∀ j ∈ index.neighborsAt i layer, layer < index.layerCount j
  irrefl : ∀ i layer, i ∉ index.neighborsAt i layer
  nodup : ∀ i layer, (index.neighborsAt i layer).Nodup
  degree : ∀ i layer, (index.neighborsAt i layer).length ≤ index.m
  top : ∀ i, index.layerCount i ≤ index.maxLayer + 1
  entryPoint : index.nodes ≠ [] → index.layerCount index.entryPoint = index.maxLayer + 1

/-- What an insertion keeps of it even when it fails: a node that has been left without neighbors may have more layers
than the index. -/
structure Rooted (index : HnswIndex) : Prop where
  owns : ∀ i layer, ∀ j ∈ index.neighborsAt i layer, layer < index.layerCount j
  irrefl : ∀ i layer, i ∉ index.neighborsAt i layer
  nodup : ∀ i layer, (index.neighborsAt i layer).Nodup
  degree : ∀ i layer, (index.neighborsAt i layer).length ≤ index.m
  entryPoint : index.nodes ≠ [] → index.layerCount index.entryPoint = index.maxLayer + 1

/-- Only nodes have layers. -/
theorem lt_of_layerCount {i layer : ℕ} (h : layer < index.layerCount i) : i < index.nodes.length := by
  by_contra hi
  rw [layerCount, List.getElem?_eq_none (not_lt.mp hi)] at h
  exact Nat.not_lt_zero layer h

theorem neighborsAt_of_length_le {i : ℕ} (hi : index.nodes.length ≤ i) (layer : ℕ) :
    index.neighborsAt i layer = [] := by
  rw [neighborsAt, List.getElem?_eq_none hi]
  rfl

namespace Rooted

theorem noDangling (h : index.Rooted) : index.NoDangling := fun i layer j hj =>
  lt_of_layerCount (h.owns i layer j hj)

theorem entryPoint_lt (h : index.Rooted) (hne : index.nodes ≠ []) :
    index.entryPoint < index.nodes.length :=
  lt_of_layerCount ((Nat.lt_succ_self _).trans_eq (h.entryPoint hne).symm)

/-- The seed of the generator has no part in the invariant. -/
theorem withSeed (h : index.Rooted) (seed : ℕ) : { index with rngSeed := seed }.Rooted :=
  ⟨h.owns, h.irrefl, h.nodup, h.degree, h.entryPoint⟩

end Rooted

namespace Linked

theorem rooted (h : index.Linked) : index.Rooted := ⟨h.owns, h.irrefl, h.nodup, h.degree, h.entryPoint⟩

theorem noDangling (h : index.Linked) : index.NoDangling := h.rooted.noDangling

theorem entryPoint_lt (h : index.Linked) (hne : index.nodes ≠ []) : index.entryPoint < index.nodes.length :=
  h.rooted.entryPoint_lt hne

/-- The seed of the generator has no part in the invariant. -/
theorem withSeed (h : index.Linked) (seed : ℕ) : { index with rngSeed := seed }.Linked :=
  ⟨h.owns, h.irrefl, h.nodup, h.degree, h.top, h.entryPoint⟩

end Linked

/-- An index without nodes. -/
theorem linked_of_nil (hnil : index.nodes = []) : index.Linked := by
  have hnone : ∀ i layer, index.neighborsAt i layer = [] := fun i layer =>
    neighborsAt_of_length_le (by rw [hnil]; exact Nat.zero_le i) layer
  have hlayers : ∀ i, index.layerCount i = 0 := fun i => by
    rw [layerCount, hnil]
    rfl
  refine ⟨fun i layer j hj => ?_, fun i layer hi => ?_, fun i layer => ?_, fun i layer => ?_, fun i => ?_,
    fun h => absurd hnil h⟩
  · rw [hnone] at hj
    cases hj
  · rw [hnone] at hi
    cases hi
  · rw [hnone]
    exact List.nodup_nil
  · rw [hnone]
    exact Nat.zero_le _
  · rw [hlayers]
    exact Nat.zero_le _

/-- The state while a new node is connected, on the layers of `pending` still to come, from the top: the node
has no neighbors there, and is not one. -/
structure Linking (nodeIdx : ℕ) (base : HnswIndex) (s : ℕ × HnswIndex) (pending : List ℕ) : Prop where
  withoutEdges : s.2.withoutEdges = base.withoutEdges
  curr : ∀ layer ∈ pending, layer < base.layerCount s.1
  owns : ∀ i layer, ∀ j ∈ s.2.neighborsAt i layer, layer < base.layerCount j
  irrefl : ∀ i layer, i ∉ s.2.neighborsAt i layer
  nodup : ∀ i layer, (s.2.neighborsAt i layer).Nodup
  degree : ∀ i layer, (s.2.neighborsAt i layer).length ≤ base.m
  own : ∀ layer ∈ pending, s.2.neighborsAt nodeIdx layer = []
  fresh : ∀ layer ∈ pending, ∀ i, nodeIdx ∉ s.2.neighborsAt i layer
  sorted : pending.Pairwise (· > ·)

/-- What the connections on a layer are. -/
theorem connected_connectLayer {nodeIdx l curr : ℕ} {s' : ℕ × HnswIndex} {data : Bytes}
    (hnode : l < index.layerCount nodeIdx) (hcurr : l < index.layerCount curr)
    (howns : ∀ i, ∀ j ∈ index.neighborsAt i l, l < index.layerCount j)
    (h : connectLayer F nodeIdx data (curr, index) l = .ok s') :
    l < index.layerCount s'.1 ∧ ∃ added : List ℕ, added.Nodup ∧ added.length ≤ index.m ∧
      (∀ j ∈ added, j ≠ nodeIdx ∧ l < index.layerCount j) ∧
      Connected nodeIdx l index.m added index s'.2 := by
  obtain ⟨knn, hknn, h⟩ := Except.bind_eq_ok.mp h
  cases h
  have hinside := searchLayer_inside (P := fun i => l < index.layerCount i) (fun i _ => howns i) hcurr hknn
  obtain ⟨hsub, hnodup, hmost⟩ := selectNeighbors_spec F index nodeIdx index.m
    (searchLayer_sound hknn).2
  have hselected : ∀ j ∈ index.selectNeighbors F nodeIdx knn index.m, l < index.layerCount j := by
    intro j hj
    obtain ⟨p, hp, rfl⟩ := List.mem_map.mp (hsub hj)
    exact hinside p hp
  refine ⟨?_, _, hnodup.filter _, (List.length_filter_le _ _).trans hmost, fun j hj => ?_,
    connected_foldl index.m hnodup hnode hselected⟩
  · cases hout : knn with
    | nil => exact hcurr
    | cons p rest => exact hinside p (hout ▸ List.mem_cons_self)
  · obtain ⟨hj, hne⟩ := List.mem_filter.mp hj
    exact ⟨of_decide_eq_true hne, hselected j hj⟩

/-- **A layer**: the new node is connected with at most `m` nodes. -/
theorem Linking.connectLayer {nodeIdx l : ℕ} {base : HnswIndex} {s s' : ℕ × HnswIndex} {data : Bytes}
    {pending : List ℕ} (hs : Linking nodeIdx base s (l :: pending)) (hnode : l < base.layerCount nodeIdx)
    (h : HnswIndex.connectLayer F nodeIdx data s l = .ok s') : Linking nodeIdx base s' pending := by
  obtain ⟨curr, index⟩ := s
  have hlayers := layerCount_of_withoutEdges hs.withoutEdges
  have hm : index.m = base.m := (congrArg HnswIndex.m hs.withoutEdges :)
  obtain ⟨hnext, added, hnodup, hmost, hadded, hconn⟩ := connected_connectLayer (hnode.trans_eq (hlayers _).symm)
    ((hs.curr l List.mem_cons_self).trans_eq (hlayers _).symm)
    (fun i j hj => (hs.owns i l j hj).trans_eq (hlayers _).symm) h
  obtain ⟨next, index'⟩ := s'
  obtain ⟨hlower, hsorted⟩ := List.pairwise_cons.mp hs.sorted
  -- the list of the node on this layer, and those of the others
  have hown : index'.neighborsAt nodeIdx l = added := by
    rw [hconn.own, hs.own l List.mem_cons_self, List.nil_append]
  have hother : ∀ i layer, (i = nodeIdx ∧ layer = l) ∨ index'.neighborsAt i layer = index.neighborsAt i layer ∨
      i ≠ nodeIdx ∧ layer = l ∧ (index'.neighborsAt i layer).Subperm (index.neighborsAt i layer ++ [nodeIdx]) ∧
        (index'.neighborsAt i layer).length ≤ index.m := by
    intro i layer
    by_cases hi : i = nodeIdx
    · by_cases hlayer : layer = l
      · exact .inl ⟨hi, hlayer⟩
      · exact .inr (.inl (hi ▸ hconn.ownOther layer hlayer))
    · exact .inr ((hconn.other i hi layer).imp_right fun ⟨_, hlayer, hsub, hlen⟩ => ⟨hi, hlayer, hsub, hlen⟩)
  have hmem : ∀ i layer (l' : List ℕ), l'.Subperm (index.neighborsAt i layer ++ [nodeIdx]) → ∀ j ∈ l',
      j ∈ index.neighborsAt i layer ∨ j = nodeIdx := fun i layer l' hsub j hj =>
    (List.mem_append.mp (hsub.subset hj)).imp_right List.mem_singleton.mp
  refine ⟨hconn.withoutEdges.trans hs.withoutEdges, fun layer hlayer => ?_, fun i layer j hj => ?_,
    fun i layer hi => ?_, fun i layer => ?_, fun i layer => ?_, fun layer hlayer => ?_,
    fun layer hlayer i hi => ?_, hsorted⟩
  · exact (hlower layer hlayer).trans (hnext.trans_eq (hlayers _))
  · rcases hother i layer with ⟨rfl, rfl⟩ | heq | ⟨-, rfl, hsub, -⟩
    · have hj : j ∈ added := hown ▸ hj
      exact (hadded j hj).2.trans_eq (hlayers _)
    · exact hs.owns i layer j (heq ▸ hj)
    · rcases hmem i layer _ hsub j hj with hj | rfl
      · exact hs.owns i layer j hj
      · exact hnode
  · rcases hother i layer with ⟨rfl, rfl⟩ | heq | ⟨hne, rfl, hsub, -⟩
    · have hi : i ∈ added := hown ▸ hi
      exact (hadded i hi).1 rfl
    · exact hs.irrefl i layer (heq ▸ hi)
    · rcases hmem i layer _ hsub i hi with hi | hi
      · exact hs.irrefl i layer hi
      · exact hne hi
  · change (index'.neighborsAt i layer).Nodup
    rcases hother i layer with ⟨rfl, rfl⟩ | heq | ⟨-, rfl, ⟨l', hperm, hsub⟩, -⟩
    · rw [hown]
      exact hnodup
    · rw [heq]
      exact hs.nodup i layer
    · -- the node was not a neighbor on this layer
      have hfresh := hs.fresh layer List.mem_cons_self i
      have hconcat : (index.neighborsAt i layer ++ [nodeIdx]).Nodup :=
        List.Nodup.append (hs.nodup i layer) (List.nodup_singleton _) (by simpa using hfresh)
      exact hperm.nodup_iff.mp (hconcat.sublist hsub)
  · change (index'.neighborsAt i layer).length ≤ base.m
    rcases hother i layer with ⟨rfl, rfl⟩ | heq | ⟨-, -, -, hlen⟩
    · rw [hown]
      exact hmost.trans_eq hm
    · rw [heq]
      exact hs.degree i layer
    · exact hlen.trans_eq hm
  · exact (hconn.ownOther layer (hlower layer hlayer).ne).trans (hs.own layer (List.mem_cons_of_mem _ hlayer))
  · have hold := hs.fresh layer (List.mem_cons_of_mem _ hlayer) i
    rcases hother i layer with ⟨-, rfl⟩ | heq | ⟨-, rfl, -⟩
    · exact absurd (hlower layer hlayer) (lt_irrefl layer)
    · exact hold (heq ▸ hi)
    · exact absurd (hlower layer hlayer) (lt_irrefl layer)

/-! ### Insertion -/

/-- Add a node that is not connected. -/
def addNode (index : HnswIndex) (layer : ℕ) (vectorId vectorData : Bytes) : HnswIndex :=
  { index with nodes := index.nodes ++ [⟨vectorId, vectorData, List.replicate (layer + 1) []⟩] }

/-- Insert a vector, given the layer of its node. -/
def insertOnLayer (F : Floats) (index : HnswIndex) (layer : ℕ) (vectorId vectorData : Bytes) :
    Except EdgestoreError HnswIndex := do
  let nodeIdx := index.nodes.length
  let index := index.addNode layer vectorId vectorData
  if nodeIdx = 0 then return { index with entryPoint := 0, maxLayer := layer }
  else
    let top := min layer index.maxLayer
    let curr ← index.descend F vectorData 1 (List.range' (top + 1) (index.maxLayer - top)).reverse
      index.entryPoint
    let (_, index) ← (List.range (top + 1)).reverse.foldlM (HnswIndex.connectLayer F nodeIdx vectorData)
      (curr, index)
    return if index.maxLayer < layer then { index with maxLayer := layer, entryPoint := nodeIdx }
      else index

/-- An insertion is one on the layer that is drawn. -/
theorem insert_eq (index : HnswIndex) (vectorId vectorData : Bytes) :
    index.insert F vectorId vectorData =
      if 2 ^ 64 ≤ (index.layerForNode F).1 + 1 then .error (.panicked "attempt to add with overflow")
      else (index.layerForNode F).2.insertOnLayer F (index.layerForNode F).1 vectorId vectorData := rfl

section

variable {vectorId vectorData : Bytes} {layer : ℕ}

theorem length_addNode :
    (index.addNode layer vectorId vectorData).nodes.length = index.nodes.length + 1 :=
  List.length_append

theorem neighborsAt_addNode (i l : ℕ) :
    (index.addNode layer vectorId vectorData).neighborsAt i l = index.neighborsAt i l := by
  rw [neighborsAt, neighborsAt, addNode]
  rcases lt_trichotomy i index.nodes.length with hi | rfl | hi
  · rw [List.getElem?_append_left hi]
  · rw [List.getElem?_concat_length, List.getElem?_eq_none le_rfl, Option.bind_some, Option.bind_none]
    cases hl : (List.replicate (layer + 1) ([] : List ℕ))[l]? with
    | none => rfl
    | some list => exact List.eq_of_mem_replicate (List.mem_of_getElem? hl)
  · rw [List.getElem?_eq_none hi.le, List.getElem?_eq_none]
    rw [List.length_append, List.length_singleton]
    exact hi

theorem layerCount_addNode (i : ℕ) : (index.addNode layer vectorId vectorData).layerCount i =
    if i = index.nodes.length then layer + 1 else index.layerCount i := by
  rw [layerCount, addNode, layerCount]
  rcases lt_trichotomy i index.nodes.length with hi | rfl | hi
  · rw [List.getElem?_append_left hi, if_neg hi.ne]
  · rw [List.getElem?_concat_length, if_pos rfl, Option.map_some, Option.getD_some,
      List.length_replicate]
  · rw [if_neg hi.ne', List.getElem?_eq_none hi.le, List.getElem?_eq_none]
    rw [List.length_append, List.length_singleton]
    exact hi

theorem layerCounts_addNode :
    (index.addNode layer vectorId vectorData).layerCounts = index.layerCounts ++ [layer + 1] := by
  rw [layerCounts, addNode, List.map_append, List.map_singleton, List.length_replicate]
  rfl

theorem vectors_addNode : (index.addNode layer vectorId vectorData).vectors =
    index.vectors ++ [(vectorId, vectorData)] :=
  List.map_append

/-- A layer of a node is one of it when a node has been added. -/
theorem lt_layerCount_addNode {i l : ℕ} (h : l < index.layerCount i) :
    l < (index.addNode layer vectorId vectorData).layerCount i := by
  rw [layerCount_addNode, if_neg (lt_of_layerCount h).ne]
  exact h

end

/-- On the way down, the node that is found has the layers that are still to come. -/
theorem descend_owns {layers : List ℕ} {query : Bytes} {ef curr last bottom : ℕ}
    (howns : ∀ i layer, ∀ j ∈ index.neighborsAt i layer, layer < index.layerCount j)
    (hsorted : layers.Pairwise (· > ·)) (hbottom : ∀ l ∈ layers, bottom < l)
    (hcurr : ∀ l ∈ layers, l < index.layerCount curr) (hstart : bottom < index.layerCount curr)
    (h : index.descend F query ef layers curr = .ok last) : bottom < index.layerCount last := by
  have hinv := Except.foldlM_ok (I := fun curr rest => rest.Pairwise (· > ·) ∧ (∀ l ∈ rest, bottom < l) ∧
      (∀ l ∈ rest, l < index.layerCount curr) ∧ bottom < index.layerCount curr)
    (fun curr l rest next ⟨hsorted, hbottom, hcurr, hstart⟩ hstep => by
      obtain ⟨out, hout, hstep⟩ := Except.bind_eq_ok.mp hstep
      cases hstep
      obtain ⟨hlower, hsorted⟩ := List.pairwise_cons.mp hsorted
      have hl := hcurr l List.mem_cons_self
      have hnext : l < index.layerCount ((out.head?.map Prod.fst).getD curr) := by
        cases hcases : out with
        | nil => exact hl
        | cons p out =>
          exact searchLayer_inside (P := fun i => l < index.layerCount i) (fun i _ => howns i l) hl hout p
            (hcases ▸ List.mem_cons_self)
      exact ⟨hsorted, fun l' hl' => hbottom l' (List.mem_cons_of_mem _ hl'),
        fun l' hl' => (hlower l' hl').trans hnext, (hbottom l List.mem_cons_self).trans hnext⟩)
    h ⟨hsorted, hbottom, hcurr, hstart⟩
  exact hinv.2.2.2

theorem pairwise_reverse_range' (start n : ℕ) : (List.range' start n).reverse.Pairwise (· > ·) :=
  List.pairwise_reverse.mpr List.pairwise_lt_range'

/-- What an insertion leaves of an index, also when it fails: it adds a vector and keeps the parameters. -/
structure Left (layer : ℕ) (vectorId vectorData : Bytes) (index index' : HnswIndex) : Prop where
  vectors : index'.vectors = index.vectors ++ [(vectorId, vectorData)]
  layerCounts : index'.layerCounts = index.layerCounts ++ [layer + 1]
  m : index'.m = index.m
  efConstruction : index'.efConstruction = index.efConstruction
  dims : index'.dims = index.dims
  dtype : index'.dtype = index.dtype
  metric : index'.metric = index.metric
  rooted : index'.Rooted

/-- What an insertion makes of an index: it adds a vector, keeps the parameters, and keeps the
invariant. -/
structure Inserted (layer : ℕ) (vectorId vectorData : Bytes) (index index' : HnswIndex) : Prop where
  vectors : index'.vectors = index.vectors ++ [(vectorId, vectorData)]
  layerCounts : index'.layerCounts = index.layerCounts ++ [layer + 1]
  m : index'.m = index.m
  efConstruction : index'.efConstruction = index.efConstruction
  dims : index'.dims = index.dims
  dtype : index'.dtype = index.dtype
  metric : index'.metric = index.metric
  linked : index'.Linked

/-- The new node has been connected on some of its layers. -/
theorem Linking.left {nodeIdx maxLayer entryPoint layer : ℕ} {s : ℕ × HnswIndex} {pending : List ℕ}
    {vectorId vectorData : Bytes}
    (hs : Linking nodeIdx (index.addNode layer vectorId vectorData) s pending)
    (hentry : (index.addNode layer vectorId vectorData).layerCount entryPoint = maxLayer + 1) :
    Left layer vectorId vectorData index { s.2 with maxLayer := maxLayer, entryPoint := entryPoint } := by
  have hlayers := layerCount_of_withoutEdges hs.withoutEdges
  refine ⟨?_, ?_, (congrArg HnswIndex.m hs.withoutEdges :),
    (congrArg HnswIndex.efConstruction hs.withoutEdges :), (congrArg HnswIndex.dims hs.withoutEdges :),
    (congrArg HnswIndex.dtype hs.withoutEdges :), (congrArg HnswIndex.metric hs.withoutEdges :),
    ⟨fun i l j hj => (hs.owns i l j hj).trans_eq (hlayers j).symm, hs.irrefl, hs.nodup, fun i l => ?_,
      fun _ => (hlayers entryPoint).trans hentry⟩⟩
  · have hvectors := congrArg HnswIndex.vectors hs.withoutEdges
    rw [vectors_withoutEdges, vectors_withoutEdges, vectors_addNode] at hvectors
    exact hvectors
  · have hcounts := congrArg HnswIndex.layerCounts hs.withoutEdges
    rw [layerCounts_withoutEdges, layerCounts_withoutEdges, layerCounts_addNode] at hcounts
    exact hcounts
  · exact (hs.degree i l).trans_eq (congrArg HnswIndex.m hs.withoutEdges :).symm

/-- The new node has been connected on all of its layers. -/
theorem Linking.inserted {nodeIdx maxLayer entryPoint layer : ℕ} {s : ℕ × HnswIndex}
    {vectorId vectorData : Bytes}
    (hs : Linking nodeIdx (index.addNode layer vectorId vectorData) s [])
    (htop : ∀ i, (index.addNode layer vectorId vectorData).layerCount i ≤ maxLayer + 1)
    (hentry : (index.addNode layer vectorId vectorData).layerCount entryPoint = maxLayer + 1) :
    Inserted layer vectorId vectorData index
      { s.2 with maxLayer := maxLayer, entryPoint := entryPoint } := by
  have hlayers := layerCount_of_withoutEdges hs.withoutEdges
  obtain ⟨hvectors, hcounts, hm, hef, hdims, hdtype, hmetric, hrooted⟩ := hs.left hentry
  exact ⟨hvectors, hcounts, hm, hef, hdims, hdtype, hmetric, hrooted.owns, hrooted.irrefl, hrooted.nodup,
    hrooted.degree, fun i => (hlayers i).le.trans (htop i), hrooted.entryPoint⟩

namespace Rooted

variable {layer : ℕ} {vectorId vectorData : Bytes}

/-- The new node is not connected yet. -/
theorem linking (h : index.Rooted) {curr : ℕ} {layers : List ℕ}
    (hcurr : ∀ l ∈ layers, l < (index.addNode layer vectorId vectorData).layerCount curr)
    (hsorted : layers.Pairwise (· > ·)) :
    Linking index.nodes.length (index.addNode layer vectorId vectorData)
      (curr, index.addNode layer vectorId vectorData) layers := by
  have hsame : ∀ i l, (index.addNode layer vectorId vectorData).neighborsAt i l = index.neighborsAt i l :=
    neighborsAt_addNode
  refine ⟨rfl, hcurr, fun i l j hj => ?_, fun i l hi => ?_, fun i l => ?_, fun i l => ?_, fun l _ => ?_,
    fun l _ i hi => ?_, hsorted⟩
  · exact lt_layerCount_addNode (h.owns i l j (hsame i l ▸ hj))
  · exact h.irrefl i l (hsame i l ▸ hi)
  · exact (congrArg List.Nodup (hsame i l)).mpr (h.nodup i l)
  · exact (congrArg List.length (hsame i l)).le.trans (h.degree i l)
  · exact (hsame _ l).trans (neighborsAt_of_length_le le_rfl l)
  · exact lt_irrefl _ (h.noDangling i l _ (hsame i l ▸ hi))

/-- The entry point is what it was. -/
theorem layerCount_entryPoint (h : index.Rooted) (hne : index.nodes ≠ []) :
    (index.addNode layer vectorId vectorData).layerCount index.entryPoint = index.maxLayer + 1 := by
  rw [layerCount_addNode, if_neg (h.entryPoint_lt hne).ne]
  exact h.entryPoint hne

/-- The node at which the connections begin has the layers of both. -/
theorem lt_layerCount_descend (h : index.Rooted) (hne : index.nodes ≠ []) {top curr : ℕ}
    (htop : top ≤ index.maxLayer)
    (hcurr : (index.addNode layer vectorId vectorData).descend F vectorData 1
      (List.range' (top + 1) (index.maxLayer - top)).reverse index.entryPoint = .ok curr) :
    top < (index.addNode layer vectorId vectorData).layerCount curr := by
  have hentry : (index.addNode layer vectorId vectorData).layerCount index.entryPoint = index.maxLayer + 1 :=
    h.layerCount_entryPoint hne
  have howns : ∀ i l, ∀ j ∈ (index.addNode layer vectorId vectorData).neighborsAt i l,
      l < (index.addNode layer vectorId vectorData).layerCount j := fun i l j hj =>
    lt_layerCount_addNode (h.owns i l j (neighborsAt_addNode i l ▸ hj))
  refine descend_owns howns (pairwise_reverse_range' _ _) (fun l hl => ?_) (fun l hl => ?_) ?_ hcurr
  · have hl := List.mem_range'_1.mp (List.mem_reverse.mp hl)
    omega
  · have hl := List.mem_range'_1.mp (List.mem_reverse.mp hl)
    exact (show l < index.maxLayer + 1 by omega).trans_eq hentry.symm
  · exact (Nat.lt_succ_of_le htop).trans_eq hentry.symm

end Rooted

/-- **An insertion** adds the vector, and keeps the invariant. -/
theorem Linked.insertOnLayer {layer : ℕ} {vectorId vectorData : Bytes} (h : index.Linked)
    (hinsert : index.insertOnLayer F layer vectorId vectorData = .ok index') :
    Inserted layer vectorId vectorData index index' := by
  unfold HnswIndex.insertOnLayer at hinsert
  dsimp only at hinsert
  set base := index.addNode layer vectorId vectorData with hbase
  have hnew : base.layerCount index.nodes.length = layer + 1 := by
    rw [hbase, layerCount_addNode, if_pos rfl]
  split at hinsert
  case isTrue hempty =>
    cases hinsert
    have hnone : ∀ i, index.layerCount i = 0 := fun i => by
      rw [layerCount, List.eq_nil_of_length_eq_zero hempty]
      rfl
    have hlinking : Linking index.nodes.length base (0, base) [] :=
      h.rooted.linking (fun _ hl => absurd hl List.not_mem_nil) List.Pairwise.nil
    refine hlinking.inserted (fun i => ?_) ?_
    · rw [layerCount_addNode, hnone]
      split
      · exact le_rfl
      · exact Nat.zero_le _
    · rw [layerCount_addNode, if_pos hempty.symm]
  case isFalse hne =>
    have hnodes : index.nodes ≠ [] := fun hnil => hne (congrArg List.length hnil)
    have hentry : base.layerCount index.entryPoint = index.maxLayer + 1 := h.rooted.layerCount_entryPoint hnodes
    obtain ⟨curr, hcurr, hinsert⟩ := Except.bind_eq_ok.mp hinsert
    obtain ⟨s, hs, hinsert⟩ := Except.bind_eq_ok.mp hinsert
    have hmax : base.maxLayer = index.maxLayer := rfl
    rw [hmax] at hcurr hs
    set top := min layer index.maxLayer with htop
    have htopLayer : top ≤ layer := min_le_left _ _
    have htopMax : top ≤ index.maxLayer := min_le_right _ _
    have hcurrTop : top < base.layerCount curr := h.rooted.lt_layerCount_descend hnodes htopMax hcurr
    have hstart : Linking index.nodes.length base (curr, base) (List.range (top + 1)).reverse :=
      h.rooted.linking (fun l hl =>
        (Nat.le_of_lt_succ (List.mem_range.mp (List.mem_reverse.mp hl))).trans_lt hcurrTop)
        (List.pairwise_reverse.mpr List.pairwise_lt_range)
    have hlink := Except.foldlM_ok
      (I := fun s rest => Linking index.nodes.length base s rest ∧ ∀ l ∈ rest, l < layer + 1)
      (fun s l rest s' hs hstep => ⟨hs.1.connectLayer ((hs.2 l List.mem_cons_self).trans_eq hnew.symm) hstep,
        fun l' hl' => hs.2 l' (List.mem_cons_of_mem _ hl')⟩) hs
      ⟨hstart, fun l hl => by
          have hl := List.mem_range.mp (List.mem_reverse.mp hl)
          omega⟩
    cases hinsert
    have hsMax : s.2.maxLayer = index.maxLayer := (congrArg HnswIndex.maxLayer hlink.1.withoutEdges :)
    have hsEntry : s.2.entryPoint = index.entryPoint :=
      (congrArg HnswIndex.entryPoint hlink.1.withoutEdges :)
    have hlayers : ∀ i, base.layerCount i ≤ max layer index.maxLayer + 1 := fun i => by
      rw [hbase, layerCount_addNode]
      split
      · omega
      · have hi := h.top i
        omega
    split
    case isTrue hlt =>
      refine hlink.1.inserted (fun i => (hlayers i).trans ?_) hnew
      omega
    case isFalse hge =>
      refine @Linking.inserted index _ s.2.maxLayer s.2.entryPoint layer s _ _ hlink.1
        (fun i => (hlayers i).trans ?_) ?_
      · omega
      · rw [hsMax, hsEntry]
        exact hentry

theorem layerForNode_eq (F : Floats) (index : HnswIndex) :
    ∃ seed, index.layerForNode F = (F.layer index.m seed, { index with rngSeed := seed }) := ⟨_, rfl⟩

/-- **An insertion on a layer that is drawn**, which is below 9 for the parameters of the engine. -/
theorem Linked.insert {vectorId vectorData : Bytes} (h : index.Linked)
    (hinsert : index.insert F vectorId vectorData = .ok index') :
    ∃ layer, (index.m = 16 → layer < 9) ∧ Inserted layer vectorId vectorData index index' := by
  obtain ⟨seed, hseed⟩ := layerForNode_eq F index
  rw [insert_eq, hseed] at hinsert
  split at hinsert
  case isTrue => cases hinsert
  have hinserted := (h.withSeed seed).insertOnLayer hinsert
  refine ⟨F.layer index.m seed, fun hm => ?_, hinserted.vectors, hinserted.layerCounts, hinserted.m,
    hinserted.efConstruction, hinserted.dims, hinserted.dtype, hinserted.metric, hinserted.linked⟩
  rw [hm]
  exact F.layer_lt seed

/-! ### Sequences of insertions -/

/-- Insert vectors one after the other, each on a layer. -/
def insertAll (F : Floats) (index : HnswIndex) (items : List (ℕ × Bytes × Bytes)) :
    Except EdgestoreError HnswIndex :=
  items.foldlM (fun index p => index.insertOnLayer F p.1 p.2.1 p.2.2) index

theorem insertAll_cons {p : ℕ × Bytes × Bytes} {items : List (ℕ × Bytes × Bytes)} :
    index.insertAll F (p :: items) = .ok index' ↔
      ∃ index₁, index.insertOnLayer F p.1 p.2.1 p.2.2 = .ok index₁ ∧ index₁.insertAll F items = .ok index' := by
  unfold insertAll
  rw [List.foldlM_cons]
  exact Except.bind_eq_ok

/-- What a sequence of insertions makes of an index. -/
structure InsertedAll (items : List (ℕ × Bytes × Bytes)) (index index' : HnswIndex) : Prop where
  vectors : index'.vectors = index.vectors ++ items.map Prod.snd
  layerCounts : index'.layerCounts = index.layerCounts ++ items.map (·.1 + 1)
  m : index'.m = index.m
  efConstruction : index'.efConstruction = index.efConstruction
  dims : index'.dims = index.dims
  dtype : index'.dtype = index.dtype
  metric : index'.metric = index.metric
  linked : index'.Linked

/-- **A sequence of insertions** adds the vectors, and keeps the invariant. -/
theorem Linked.insertAll {items : List (ℕ × Bytes × Bytes)} (h : index.Linked)
    (hrun : index.insertAll F items = .ok index') : InsertedAll items index index' := by
  induction items generalizing index with
  | nil =>
    cases hrun
    exact ⟨(List.append_nil _).symm, (List.append_nil _).symm, rfl, rfl, rfl, rfl, rfl, h⟩
  | cons p items ih =>
    obtain ⟨index₁, hone, hrest⟩ := insertAll_cons.mp hrun
    have hone := h.insertOnLayer hone
    have hrest := ih hone.linked hrest
    refine ⟨?_, ?_, hrest.m.trans hone.m, hrest.efConstruction.trans hone.efConstruction,
      hrest.dims.trans hone.dims, hrest.dtype.trans hone.dtype, hrest.metric.trans hone.metric, hrest.linked⟩
    · rw [hrest.vectors, hone.vectors, List.append_assoc]
      rfl
    · rw [hrest.layerCounts, hone.layerCounts, List.append_assoc]
      rfl

/-! ### Files -/

theorem mem_layerCounts {c : ℕ} : c ∈ index.layerCounts ↔ ∃ node ∈ index.nodes, node.neighbors.length = c :=
  List.mem_map

/-- **An index that is not too large** can be written to a file. -/
theorem Rooted.storable (h : index.Rooted) (hne : index.nodes ≠ [])
    (hnodes : index.nodes.length ≤ 10000000) (hdims : index.dims < 256 ^ 2) (hm : index.m < 256 ^ 2)
    (hef : index.efConstruction < 256 ^ 2) (hlayers : ∀ c ∈ index.layerCounts, c < 256 ^ 2)
    (hvectors : ∀ p ∈ index.vectors, p.1.length < 256 ^ 4 ∧ p.2.length < 256 ^ 4) : index.Storable := by
  have hsmall : ∀ i, i < index.nodes.length → i < 256 ^ 4 := fun i hi =>
    hi.trans_le (hnodes.trans (by decide))
  refine ⟨?_, hsmall _ (h.entryPoint_lt hne), hnodes, hdims, hm, hef, fun node hnode => ?_⟩
  · -- the entry point has the top layer
    have hentry := h.entryPoint hne
    rw [layerCount] at hentry
    cases hnode : index.nodes[index.entryPoint]? with
    | none =>
      rw [hnode] at hentry
      cases hentry
    | some node =>
      rw [hnode, Option.map_some, Option.getD_some] at hentry
      have hcount := hlayers _ (mem_layerCounts.mpr ⟨node, List.mem_of_getElem? hnode, rfl⟩)
      omega
  · obtain ⟨i, hi⟩ := List.mem_iff_getElem?.mp hnode
    have hdata := hvectors _ (List.mem_map_of_mem hnode)
    refine ⟨hdata.1, hdata.2, hlayers _ (mem_layerCounts.mpr ⟨node, hnode, rfl⟩), fun l hl => ?_⟩
    obtain ⟨layer, hlayer⟩ := List.mem_iff_getElem?.mp hl
    have hlist : index.neighborsAt i layer = l := by
      rw [neighborsAt, hi, Option.bind_some, hlayer, Option.getD_some]
    rw [← hlist]
    exact ⟨(h.degree i layer).trans_lt hm, fun j hj => hsmall j (h.noDangling i layer j hj)⟩

end HnswIndex
