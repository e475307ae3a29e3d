import Edgestore.Vector.HnswReload
import Mathlib.Data.List.Induction

/-!
# Which nodes are found

A new node is put into the lists of its neighbors, and a list that becomes too long loses the farthest node in it, in
one direction only. An insertion may so drop every link that leads to some nodes, and nothing else makes a node
unreachable. Up to `m + 1` vectors no list is too long.

A search with a beam as wide as the graph finds what can be reached on layer 0 from where it enters the layer. This
may be less than what can be reached by way of the layers above.

## Main definitions

* `HnswIndex.AllVisited`: every node can be reached from the entry point
* `HnswIndex.CutsOff`: an insertion that drops every link into a set of nodes
* `HnswIndex.Joined`: every node can be reached from every node on layer 0

## Main results

* `HnswIndex.allVisited_insertOnLayer_iff`: which insertions leave every node within reach
* `HnswIndex.search_perm_iff`: which searches find every node
* `HnswIndex.joined_of_length_le`: without pruning layer 0 stays in one piece
* `HnswIndex.insertAll_visits_iff`: what sequences of insertions build, and what is found there
-/

variable {F : Floats} {index index' before after : HnswIndex} {layer : ℕ} {vectorId vectorData : Bytes}

namespace HnswIndex

/-- Every node can be reached from the entry point, down the layers and then on layer 0. -/
def AllVisited (index : HnswIndex) : Prop := ∀ i < index.nodes.length, index.Visits 0 i

/-- Every node can be reached from every node on layer 0. -/
def Joined (index : HnswIndex) : Prop :=
  ∀ i < index.nodes.length, ∀ j < index.nodes.length, index.Reaches 0 i j

/-- **An insertion that cuts nodes off**: of the nodes in `S`, on each layer and on those above, none is where a search
begins. Every link that led to them is dropped, and no link from or to the new node leads to them. The new node may be
one of them. -/
structure CutsOff (before after : HnswIndex) (S : ℕ → ℕ → Prop) : Prop where
  entryPoint : ¬ S after.maxLayer after.entryPoint
  up : ∀ l i, S l i → S (l + 1) i
  nonempty : ∃ i < after.nodes.length, S 0 i
  dropped : ∀ l i j, ¬ S l i → S l j → j ∈ before.neighborsAt i l → j ∉ after.neighborsAt i l
  unlinked : ∀ l i j, ¬ S l i → S l j → i = before.nodes.length ∨ j = before.nodes.length →
    j ∉ after.neighborsAt i l

/-! ### The links of a new node -/

/-- **What an insertion keeps** is kept by each connection of the new node. -/
theorem insertOnLayer_induction {I : HnswIndex → Prop}
    (h : before.insertOnLayer F layer vectorId vectorData = .ok after)
    (hbase : I (before.addNode layer vectorId vectorData))
    (hconnect : ∀ index l m neighborIdx, l < index.layerCount before.nodes.length → I index →
      I (connect F before.nodes.length l m index neighborIdx))
    (hentry : ∀ index maxLayer entryPoint, I index →
      I { index with maxLayer := maxLayer, entryPoint := entryPoint }) : I after := by
  unfold insertOnLayer at h
  dsimp only at h
  split at h
  case isTrue =>
    cases h
    exact hentry _ layer 0 hbase
  case isFalse =>
    obtain ⟨curr, -, h⟩ := Except.bind_eq_ok.mp h
    obtain ⟨s, hs, h⟩ := Except.bind_eq_ok.mp h
    -- the connections of one layer
    have hlayer : ∀ (index : HnswIndex) l m (selected : List ℕ), l < layer + 1 →
        index.layerCount before.nodes.length = layer + 1 → I index →
          I (selected.foldl (connect F before.nodes.length l m) index) ∧
            (selected.foldl (connect F before.nodes.length l m) index).layerCount before.nodes.length =
              layer + 1 := by
      intro index l m selected hl hlayers hI
      induction selected generalizing index with
      | nil => exact ⟨hI, hlayers⟩
      | cons neighborIdx selected ih =>
        apply ih
        · exact (layerCount_of_withoutEdges (withoutEdges_connect ..) _).trans hlayers
        · exact hconnect index l m neighborIdx (hl.trans_eq hlayers.symm) hI
    have hinv := Except.foldlM_ok
      (I := fun (s : ℕ × HnswIndex) rest => (I s.2 ∧ s.2.layerCount before.nodes.length = layer + 1) ∧
        ∀ l ∈ rest, l < layer + 1)
      (fun s l rest s' ⟨⟨hI, hlayers⟩, hrest⟩ hstep => by
        obtain ⟨knn, -, hstep⟩ := Except.bind_eq_ok.mp hstep
        cases hstep
        exact ⟨hlayer s.2 l s.2.m _ (hrest l List.mem_cons_self) hlayers hI,
          fun l' hl' => hrest l' (List.mem_cons_of_mem _ hl')⟩) hs
      ⟨⟨hbase, by rw [layerCount_addNode, if_pos rfl]⟩, fun l hl => by
        have hl := List.mem_range.mp (List.mem_reverse.mp hl)
        omega⟩
    cases h
    split
    · exact hentry _ layer _ hinv.1.1
    · exact hinv.1.1

/-- **What an insertion adds** are links from and to the new node. -/
theorem mem_neighborsAt_insertOnLayer (h : before.insertOnLayer F layer vectorId vectorData = .ok after) {i l j : ℕ}
    (hj : j ∈ after.neighborsAt i l) :
    j ∈ before.neighborsAt i l ∨ i = before.nodes.length ∨ j = before.nodes.length := by
  have hadded : ∀ i l, ∀ j ∈ after.neighborsAt i l,
      j ∈ before.neighborsAt i l ∨ i = before.nodes.length ∨ j = before.nodes.length := by
    refine insertOnLayer_induction (I := fun index => ∀ i l, ∀ j ∈ index.neighborsAt i l,
      j ∈ before.neighborsAt i l ∨ i = before.nodes.length ∨ j = before.nodes.length) h ?_ ?_ ?_
    · intro i l j hj
      rw [neighborsAt_addNode] at hj
      exact .inl hj
    · intro index l m neighborIdx _ hI i layer j hj
      rcases mem_neighborsAt_connect hj with hold | ⟨-, ⟨hi, -⟩ | ⟨-, hj⟩⟩
      · exact hI i layer j hold
      · exact .inr (.inl hi)
      · exact .inr (.inr hj)
    · exact fun _ _ _ hI => hI
  exact hadded i l j hj

/-- **An insertion leaves every node within reach** if and only if it cuts none off. -/
theorem allVisited_insertOnLayer_iff (h : before.insertOnLayer F layer vectorId vectorData = .ok after) :
    after.AllVisited ↔ ∀ S, ¬ CutsOff before after S := by
  constructor
  · intro hvisits S hcut
    -- no search comes to a node in `S`
    have hguarded : after.Guarded fun l i => ¬ S l i := by
      refine ⟨hcut.entryPoint, fun l i hi hS => hi (hcut.up l i hS), fun l i hi j hj hS => ?_⟩
      rcases mem_neighborsAt_insertOnLayer h hj with hold | hnew
      · exact hcut.dropped l i j hi hS hold hj
      · exact hcut.unlinked l i j hi hS hnew hj
    obtain ⟨i, hi, hS⟩ := hcut.nonempty
    exact hguarded.of_visits (hvisits i hi) hS
  · intro hnone i hi
    by_contra hunvisited
    -- the nodes that no search comes to are cut off
    refine hnone (fun l i => ¬ after.Visits l i) ⟨not_not_intro .entryPoint, fun l i hi hup => hi hup.down,
      ⟨i, hi, hunvisited⟩, fun l i j hi hj _ hmem => ?_, fun l i j hi hj _ hmem => ?_⟩
    · exact hj (.neighbor (not_not.mp hi) hmem)
    · exact hj (.neighbor (not_not.mp hi) hmem)

/-! ### Insertions without pruning -/

/-- Lists of other nodes than the two do not change. -/
theorem neighborsAt_connect_of_ne {nodeIdx l m neighborIdx i : ℕ} (hnode : i ≠ nodeIdx) (hneighbor : i ≠ neighborIdx)
    (layer : ℕ) : (connect F nodeIdx l m index neighborIdx).neighborsAt i layer = index.neighborsAt i layer := by
  unfold connect
  dsimp only
  split
  · rfl
  split
  case isFalse => rw [neighborsAt_setNeighbors, if_neg fun h => hnode h.1.symm]
  case isTrue =>
    have hboth : ∀ list list' : List ℕ, ((index.setNeighbors nodeIdx l list).setNeighbors neighborIdx l
        list').neighborsAt i layer = index.neighborsAt i layer := fun list list' => by
      rw [neighborsAt_setNeighbors, if_neg fun h => hneighbor h.1.symm, neighborsAt_setNeighbors,
        if_neg fun h => hnode h.1.symm]
    split
    · rcases pruneNeighbors_eq F ((index.setNeighbors nodeIdx l _).setNeighbors neighborIdx l _) neighborIdx l m
        with heq | ⟨list, -, heq⟩
      · rw [heq, hboth]
      · rw [heq, setNeighbors_setNeighbors, hboth]
    · exact hboth _ _

/-- **A connection with a node whose list is not full**: no list loses a node, and the new node is in the list. -/
theorem connect_of_lt {nodeIdx l m neighborIdx : ℕ} (hshort : (index.neighborsAt neighborIdx l).length < m)
    (hne : neighborIdx ≠ nodeIdx) :
    (∀ i layer, index.neighborsAt i layer ⊆ (connect F nodeIdx l m index neighborIdx).neighborsAt i layer) ∧
      (l < index.layerCount neighborIdx →
        nodeIdx ∈ (connect F nodeIdx l m index neighborIdx).neighborsAt neighborIdx l) := by
  set index₁ := index.setNeighbors nodeIdx l (index.neighborsAt nodeIdx l ++ [neighborIdx]) with hindex₁
  have hpush : ∀ (index : HnswIndex) i₀ j i layer, index.neighborsAt i layer ⊆
      (index.setNeighbors i₀ l (index.neighborsAt i₀ l ++ [j])).neighborsAt i layer := by
    intro index i₀ j i layer a ha
    rw [neighborsAt_setNeighbors]
    split
    case isTrue hsame =>
      obtain ⟨rfl, rfl, -⟩ := hsame
      exact List.mem_append_left _ ha
    case isFalse => exact ha
  have hlayers : index₁.layerCount neighborIdx = index.layerCount neighborIdx :=
    layerCount_of_withoutEdges (withoutEdges_setNeighbors ..) _
  have hold : index₁.neighborsAt neighborIdx l = index.neighborsAt neighborIdx l := by
    rw [hindex₁, neighborsAt_setNeighbors, if_neg fun h => hne h.1.symm]
  unfold connect
  dsimp only
  rw [if_neg hne, ← hindex₁]
  split
  case isFalse hlow =>
    exact ⟨hpush index nodeIdx neighborIdx, fun hl => absurd (hlayers.symm ▸ hl) hlow⟩
  case isTrue hl =>
    have hlist : (index₁.setNeighbors neighborIdx l (index₁.neighborsAt neighborIdx l ++ [nodeIdx])).neighborsAt
        neighborIdx l = index.neighborsAt neighborIdx l ++ [nodeIdx] := by
      rw [neighborsAt_setNeighbors, if_pos ⟨rfl, rfl, hl⟩, hold]
    rw [if_neg]
    · refine ⟨fun i layer => ?_, fun _ => ?_⟩
      · exact List.Subset.trans (hpush index nodeIdx neighborIdx i layer) (hpush index₁ neighborIdx nodeIdx i layer)
      · rw [hlist]
        exact List.mem_append_right _ (List.mem_singleton_self nodeIdx)
    · -- the list has room for one more
      rw [hlist, List.length_append, List.length_singleton]
      omega

/-- Connections with nodes whose lists are not full. -/
theorem foldl_connect_of_lt {nodeIdx l m : ℕ} {selected : List ℕ} (hnodup : selected.Nodup)
    (hshort : ∀ j ∈ selected, j ≠ nodeIdx ∧ (index.neighborsAt j l).length < m) :
    (∀ i layer, index.neighborsAt i layer ⊆ (selected.foldl (connect F nodeIdx l m) index).neighborsAt i layer) ∧
      ∀ j ∈ selected, l < index.layerCount j →
        nodeIdx ∈ (selected.foldl (connect F nodeIdx l m) index).neighborsAt j l := by
  induction selected generalizing index with
  | nil => exact ⟨fun _ _ => List.Subset.refl _, fun j hj => absurd hj List.not_mem_nil⟩
  | cons neighborIdx selected ih =>
    obtain ⟨hnotin, hnodup⟩ := List.nodup_cons.mp hnodup
    obtain ⟨hne, hlt⟩ := hshort neighborIdx List.mem_cons_self
    obtain ⟨hkept, hentered⟩ := connect_of_lt (F := F) hlt hne
    -- the lists of the others are still as long as before
    have hrest : ∀ j ∈ selected, j ≠ nodeIdx ∧
        ((connect F nodeIdx l m index neighborIdx).neighborsAt j l).length < m := by
      intro j hj
      obtain ⟨hj₁, hj₂⟩ := hshort j (List.mem_cons_of_mem _ hj)
      rw [neighborsAt_connect_of_ne hj₁ (ne_of_mem_of_not_mem hj hnotin)]
      exact ⟨hj₁, hj₂⟩
    obtain ⟨hkept', hentered'⟩ := ih hnodup hrest
    refine ⟨fun i layer => List.Subset.trans (hkept i layer) (hkept' i layer), fun j hj hl => ?_⟩
    rcases List.mem_cons.mp hj with rfl | hj
    · exact hkept' j l (hentered hl)
    · exact hentered' j hj (hl.trans_eq (layerCount_of_withoutEdges (withoutEdges_connect ..) j).symm)

/-- Connections on a layer do not change lists on another one. -/
theorem neighborsAt_foldl_of_ne {nodeIdx l m layer' : ℕ} (hlayer : layer' ≠ l) (selected : List ℕ) (i : ℕ) :
    (selected.foldl (connect F nodeIdx l m) index).neighborsAt i layer' = index.neighborsAt i layer' := by
  induction selected generalizing index with
  | nil => rfl
  | cons neighborIdx selected ih =>
    refine ih.trans ?_
    have hset : ∀ (index : HnswIndex) a list,
        (index.setNeighbors a l list).neighborsAt i layer' = index.neighborsAt i layer' := fun index a list => by
      rw [neighborsAt_setNeighbors, if_neg fun h => hlayer h.2.1.symm]
    unfold connect
    dsimp only
    split
    · rfl
    split
    case isFalse => exact hset _ _ _
    case isTrue =>
      split
      · rcases pruneNeighbors_eq F ((index.setNeighbors nodeIdx l _).setNeighbors neighborIdx l _) neighborIdx l m
          with heq | ⟨list, -, heq⟩
        · rw [heq, hset, hset]
        · rw [heq, hset, hset, hset]
      · rw [hset, hset]

/-- A list of neighbors does not hold the node itself. -/
theorem Linked.length_neighborsAt_lt (h : index.Linked) {i : ℕ} (hi : i < index.nodes.length) (l : ℕ) :
    (index.neighborsAt i l).length < index.nodes.length := by
  have hsub : i :: index.neighborsAt i l ⊆ List.range index.nodes.length := by
    intro j hj
    rcases List.mem_cons.mp hj with rfl | hj
    · exact List.mem_range.mpr hi
    · exact List.mem_range.mpr (h.noDangling i l j hj)
  have hle := (List.subperm_of_subset (List.nodup_cons.mpr ⟨h.irrefl i l, h.nodup i l⟩) hsub).length_le
  rwa [List.length_cons, List.length_range] at hle

/-- The state while a new node is connected and no list is full: no list has lost a node, those on the layers still to
come are as before, and the new node is in a list on layer 0 if this has been done. -/
structure Unpruned (before : HnswIndex) (s : ℕ × HnswIndex) (pending : List ℕ) : Prop where
  curr : ∀ l ∈ pending, s.1 < before.nodes.length ∧ l < before.layerCount s.1
  layers : ∀ i < before.nodes.length, s.2.layerCount i = before.layerCount i
  m : s.2.m = before.m
  kept : ∀ i l, before.neighborsAt i l ⊆ s.2.neighborsAt i l
  same : ∀ l ∈ pending, ∀ i, s.2.neighborsAt i l = before.neighborsAt i l
  entered : 0 ∈ pending ∨ ∃ i < before.nodes.length, before.nodes.length ∈ s.2.neighborsAt i 0
  sorted : pending.Pairwise (· > ·)

/-- **A layer**, when there are at most `m` nodes. -/
theorem Unpruned.connectLayer {l : ℕ} {s s' : ℕ × HnswIndex} {pending : List ℕ}
    (hs : Unpruned before s (l :: pending)) (hlinked : before.Linked) (hfew : before.nodes.length ≤ before.m)
    (h : HnswIndex.connectLayer F before.nodes.length vectorData s l = .ok s') : Unpruned before s' pending := by
  obtain ⟨curr, index⟩ := s
  obtain ⟨knn, hknn, h⟩ := Except.bind_eq_ok.mp h
  cases h
  obtain ⟨hlower, hsorted⟩ := List.pairwise_cons.mp hs.sorted
  have hsame : ∀ i, index.neighborsAt i l = before.neighborsAt i l := hs.same l List.mem_cons_self
  have hm : index.m = before.m := hs.m
  have hstart := hs.curr l List.mem_cons_self
  -- what is found are old nodes that have the layer
  have hinside := searchLayer_inside (P := fun i => i < before.nodes.length ∧ l < before.layerCount i)
    (fun i _ j hj => ⟨hlinked.noDangling i l j (hsame i ▸ hj), hlinked.owns i l j (hsame i ▸ hj)⟩) hstart hknn
  obtain ⟨hsub, hnodup, -⟩ := selectNeighbors_spec F index before.nodes.length index.m (searchLayer_sound hknn).2
  have hselected : ∀ j ∈ index.selectNeighbors F before.nodes.length knn index.m,
      j < before.nodes.length ∧ l < before.layerCount j := by
    intro j hj
    obtain ⟨p, hp, rfl⟩ := List.mem_map.mp (hsub hj)
    exact hinside p hp
  have hshort : ∀ j ∈ index.selectNeighbors F before.nodes.length knn index.m,
      j ≠ before.nodes.length ∧ (index.neighborsAt j l).length < index.m := by
    intro j hj
    rw [hsame, hm]
    exact ⟨(hselected j hj).1.ne, (hlinked.length_neighborsAt_lt (hselected j hj).1 l).trans_le hfew⟩
  obtain ⟨hkept, hentered⟩ := foldl_connect_of_lt (F := F) hnodup hshort
  have hnext : (knn.head?.map Prod.fst).getD curr < before.nodes.length ∧
      l < before.layerCount ((knn.head?.map Prod.fst).getD curr) := by
    cases hcases : knn with
    | nil => exact hstart
    | cons p rest => exact hinside p (hcases ▸ List.mem_cons_self)
  have hedges := withoutEdges_foldl F before.nodes.length l index.m
    (index.selectNeighbors F before.nodes.length knn index.m) index
  refine ⟨fun l' hl' => ⟨hnext.1, (hlower l' hl').trans hnext.2⟩, fun i hi => ?_, ?_, fun i l' => ?_,
    fun l' hl' i => ?_, ?_, hsorted⟩
  · exact (layerCount_of_withoutEdges hedges i).trans (hs.layers i hi)
  · exact (congrArg HnswIndex.m hedges :).trans hm
  · exact List.Subset.trans (hs.kept i l') (hkept i l')
  · exact (neighborsAt_foldl_of_ne (hlower l' hl').ne _ i).trans (hs.same l' (List.mem_cons_of_mem _ hl') i)
  · rcases hs.entered with hzero | ⟨i, hi, hmem⟩
    · rcases List.mem_cons.mp hzero with rfl | hzero
      · -- on layer 0 the first node that is found is selected
        obtain ⟨p, rest, rfl⟩ := List.exists_cons_of_ne_nil (searchLayer_ne_nil hknn)
        obtain ⟨hp, hlayer⟩ := hinside p List.mem_cons_self
        have hpos : 0 < index.m := (Nat.zero_lt_of_lt hp).trans_le (hfew.trans_eq hm.symm)
        have hfirst : p.1 ∈ index.selectNeighbors F before.nodes.length (p :: rest) index.m :=
          head_mem_selectNeighbors hp.ne hpos
        exact .inr ⟨p.1, hp, hentered p.1 hfirst (hlayer.trans_eq (hs.layers p.1 hp).symm)⟩
      · exact .inl hzero
    · exact .inr ⟨i, hi, hkept i 0 hmem⟩

/-- **An insertion into an index of at most `m` vectors** prunes no list. -/
theorem Linked.insertOnLayer_unpruned (h : before.Linked) (hfew : before.nodes.length ≤ before.m)
    (hinsert : before.insertOnLayer F layer vectorId vectorData = .ok after) :
    (∀ i l, before.neighborsAt i l ⊆ after.neighborsAt i l) ∧
      (before.nodes ≠ [] → ∃ i < before.nodes.length, before.nodes.length ∈ after.neighborsAt i 0) := by
  unfold HnswIndex.insertOnLayer at hinsert
  dsimp only at hinsert
  set base := before.addNode layer vectorId vectorData with hbase
  have hsame : ∀ i l, base.neighborsAt i l = before.neighborsAt i l := neighborsAt_addNode
  split at hinsert
  case isTrue hempty =>
    cases hinsert
    exact ⟨fun i l j hj => (hsame i l).symm ▸ hj, fun hne => absurd (List.eq_nil_of_length_eq_zero hempty) hne⟩
  case isFalse hne =>
    have hnodes : before.nodes ≠ [] := fun hnil => hne (congrArg List.length hnil)
    obtain ⟨curr, hcurr, hinsert⟩ := Except.bind_eq_ok.mp hinsert
    obtain ⟨s, hs, hinsert⟩ := Except.bind_eq_ok.mp hinsert
    -- the way down goes by old nodes that have the layer
    have hguarded : base.Guarded fun l i => i < before.nodes.length ∧ l < before.layerCount i := by
      refine ⟨⟨h.entryPoint_lt hnodes, (Nat.lt_succ_self _).trans_eq (h.entryPoint hnodes).symm⟩,
        fun l i hi => ⟨hi.1, (Nat.lt_succ_self l).trans hi.2⟩, fun l i _ j hj => ?_⟩
      rw [hsame] at hj
      exact ⟨h.noDangling i l j hj, h.owns i l j hj⟩
    have htop : min layer before.maxLayer + (before.maxLayer - min layer before.maxLayer) = before.maxLayer :=
      Nat.add_sub_cancel' (min_le_right _ _)
    obtain ⟨-, hstart⟩ := hguarded.descend (F := F) (E := fun _ => True) (fun _ _ _ _ _ => trivial)
      (min layer before.maxLayer) (before.maxLayer - min layer before.maxLayer) (htop.symm ▸ hguarded.entryPoint)
    obtain ⟨hlt, hlayer⟩ := hstart curr hcurr
    have hunpruned : Unpruned before (curr, base) (List.range (min layer before.maxLayer + 1)).reverse := by
      refine ⟨fun l hl => ⟨hlt, ?_⟩, fun i hi => ?_, rfl, fun i l j hj => (hsame i l).symm ▸ hj,
        fun l _ i => hsame i l, .inl ?_, List.pairwise_reverse.mpr List.pairwise_lt_range⟩
      · have hl := List.mem_range.mp (List.mem_reverse.mp hl)
        exact (Nat.le_of_lt_succ hl).trans_lt hlayer
      · rw [hbase, layerCount_addNode, if_neg hi.ne]
      · exact List.mem_reverse.mpr (List.mem_range.mpr (Nat.succ_pos _))
    have hdone := Except.foldlM_ok (I := fun s rest => Unpruned before s rest)
      (fun s l rest s' hs hstep => hs.connectLayer h hfew hstep) hs hunpruned
    have hentered := hdone.entered.resolve_left List.not_mem_nil
    cases hinsert
    split
    · exact ⟨hdone.kept, fun _ => hentered⟩
    · exact ⟨hdone.kept, fun _ => hentered⟩

/-! ### Layer 0 in one piece -/

/-- A node is a neighbor of those whose neighbor it is. -/
def Returned (nodeIdx : ℕ) (index : HnswIndex) : Prop :=
  ∀ i l, nodeIdx ∈ index.neighborsAt i l → i ∈ index.neighborsAt nodeIdx l

/-- Pruning a list does not change those of other nodes. -/
theorem neighborsAt_pruneNeighbors_of_ne {i j l layer m : ℕ} (hne : i ≠ j) :
    (index.pruneNeighbors F i l m).neighborsAt j layer = index.neighborsAt j layer := by
  rcases pruneNeighbors_eq F index i l m with heq | ⟨list, -, heq⟩
  · rw [heq]
  · rw [heq, neighborsAt_setNeighbors, if_neg fun h => hne h.1]

/-- **The list of the new node** after a connection. -/
theorem neighborsAt_connect_own {nodeIdx l m neighborIdx : ℕ} (hl : l < index.layerCount nodeIdx)
    (hne : neighborIdx ≠ nodeIdx) (layer : ℕ) :
    (connect F nodeIdx l m index neighborIdx).neighborsAt nodeIdx layer =
      if layer = l then index.neighborsAt nodeIdx l ++ [neighborIdx] else index.neighborsAt nodeIdx layer := by
  have hpush : (index.setNeighbors nodeIdx l (index.neighborsAt nodeIdx l ++ [neighborIdx])).neighborsAt
      nodeIdx layer =
        if layer = l then index.neighborsAt nodeIdx l ++ [neighborIdx] else index.neighborsAt nodeIdx layer := by
    rw [neighborsAt_setNeighbors]
    by_cases hlayer : layer = l
    · rw [if_pos ⟨rfl, hlayer.symm, hl⟩, if_pos hlayer]
    · rw [if_neg fun h => hlayer h.2.1.symm, if_neg hlayer]
  unfold connect
  dsimp only
  rw [if_neg hne]
  -- what follows is about the list of the neighbor
  split
  case isFalse => exact hpush
  case isTrue =>
    rw [← hpush]
    split
    case isTrue =>
      rw [neighborsAt_pruneNeighbors_of_ne hne, neighborsAt_setNeighbors, if_neg fun h => hne h.1]
    case isFalse => rw [neighborsAt_setNeighbors, if_neg fun h => hne h.1]

theorem returned_connect {nodeIdx l m neighborIdx : ℕ} (hl : l < index.layerCount nodeIdx)
    (h : index.Returned nodeIdx) : (connect F nodeIdx l m index neighborIdx).Returned nodeIdx := by
  by_cases hne : neighborIdx = nodeIdx
  · unfold connect
    rw [if_pos hne]
    exact h
  intro i layer hi
  rw [neighborsAt_connect_own hl hne]
  rcases mem_neighborsAt_connect hi with hold | ⟨rfl, ⟨-, heq⟩ | ⟨rfl, -⟩⟩
  · split
    case isTrue hlayer => exact List.mem_append_left _ (h i l (hlayer ▸ hold))
    case isFalse => exact h i layer hold
  · exact absurd heq.symm hne
  · rw [if_pos rfl]
    exact List.mem_append_right _ (List.mem_singleton_self i)

/-- **Connections go in both directions** on the side of the new node: only lists of others are pruned. -/
theorem returned_insertOnLayer (hlinked : before.Linked)
    (h : before.insertOnLayer F layer vectorId vectorData = .ok after) : after.Returned before.nodes.length := by
  refine insertOnLayer_induction (I := Returned before.nodes.length) h ?_ ?_ ?_
  · intro i l hi
    rw [neighborsAt_addNode] at hi
    exact absurd (hlinked.noDangling i l _ hi) (lt_irrefl _)
  · exact fun _ _ _ _ hl hI => returned_connect hl hI
  · exact fun _ _ _ hI => hI

/-- **An insertion that prunes no list** keeps layer 0 in one piece. -/
theorem Joined.insertOnLayer (hjoined : before.Joined) (hlinked : before.Linked)
    (hfew : before.nodes.length ≤ before.m)
    (h : before.insertOnLayer F layer vectorId vectorData = .ok after) : after.Joined := by
  obtain ⟨hkept, hentered⟩ := hlinked.insertOnLayer_unpruned hfew h
  have hlen : after.nodes.length = before.nodes.length + 1 := by
    have hvectors := congrArg List.length (hlinked.insertOnLayer h).vectors
    simpa only [vectors, List.length_map, List.length_append, List.length_singleton] using hvectors
  -- paths between the old nodes
  have hold : ∀ i < before.nodes.length, ∀ j < before.nodes.length, after.Reaches 0 i j := fun i hi j hj =>
    (hjoined i hi j hj).lift id fun a b hab => hkept a 0 hab
  have hboth : ∀ j < before.nodes.length,
      after.Reaches 0 j before.nodes.length ∧ after.Reaches 0 before.nodes.length j := by
    intro j hj
    obtain ⟨i, hi, hnew⟩ := hentered (List.ne_nil_of_length_pos ((Nat.zero_le j).trans_lt hj))
    have hback := returned_insertOnLayer hlinked h i 0 hnew
    exact ⟨(hold j hj i hi).tail hnew, (hold i hi j hj).head hback⟩
  intro i hi j hj
  rcases Nat.lt_succ_iff_lt_or_eq.mp (hi.trans_eq hlen) with hi | rfl
  · rcases Nat.lt_succ_iff_lt_or_eq.mp (hj.trans_eq hlen) with hj | rfl
    · exact hold i hi j hj
    · exact (hboth i hi).1
  · rcases Nat.lt_succ_iff_lt_or_eq.mp (hj.trans_eq hlen) with hj | rfl
    · exact (hboth j hj).2
    · exact .refl

/-- What is in one piece can be reached from the entry point. -/
theorem Joined.allVisited (h : index.Joined) (hlinked : index.Linked) : index.AllVisited := by
  intro i hi
  have hentry : index.entryPoint < index.nodes.length :=
    hlinked.entryPoint_lt (List.ne_nil_of_length_pos ((Nat.zero_le i).trans_lt hi))
  have hdown : ∀ l, index.Visits l index.entryPoint → index.Visits 0 index.entryPoint := by
    intro l
    induction l with
    | zero => exact fun h => h
    | succ l ih => exact fun h => ih h.down
  have hreach : index.Reaches 0 index.entryPoint i := h _ hentry i hi
  clear hi
  induction hreach with
  | refl => exact hdown _ .entryPoint
  | tail _ hstep ih => exact .neighbor ih hstep

/-! ### Searches that find every node -/

theorem map_idOf_range : (List.range index.nodes.length).map index.idOf = index.vectors.map Prod.fst := by
  refine List.ext_getElem? fun i => ?_
  rw [vectors, List.map_map, List.getElem?_map, List.getElem?_map]
  by_cases hi : i < index.nodes.length
  · rw [List.getElem?_range hi, Option.map_some, idOf, List.getElem?_eq_getElem hi]
    rfl
  · rw [List.getElem?_eq_none, List.getElem?_eq_none (not_lt.mp hi)]
    · rfl
    · rw [List.length_range]
      exact not_lt.mp hi

/-- **A search for as many vectors as there are finds each of them once** if and only if every node can be reached on
layer 0 from the node at which the search enters the layer. -/
theorem search_perm_iff (hlinked : index.Linked) {query : Bytes} {k ef : ℕ} (hk : index.nodes.length ≤ k)
    {out : List (Bytes × F32)} (hout : index.search F query k ef = .ok out) :
    (out.map Prod.fst).Perm (index.vectors.map Prod.fst) ↔
      ∀ curr, index.enters F query k ef = .ok curr → ∀ i < index.nodes.length, index.Reaches 0 curr i := by
  constructor
  · intro hperm curr hcurr i hi
    rcases Nat.lt_or_ge index.nodes.length 2 with hone | htwo
    · -- there is no other node
      have hentry := hlinked.entryPoint_lt (List.ne_nil_of_length_pos ((Nat.zero_le i).trans_lt hi))
      have hsame : curr = i := by
        have hlt := descend_lt hcurr hentry
        omega
      exact hsame ▸ .refl
    · obtain ⟨curr', results, hcurr', hresults, rfl⟩ := (search_eq_ok htwo).mp hout
      rw [hcurr] at hcurr'
      cases hcurr'
      obtain ⟨hmeasured, hnodup⟩ := searchLayer_sound hresults
      have hsub : results.map Prod.fst ⊆ List.range index.nodes.length := fun j hj => by
        obtain ⟨p, hp, rfl⟩ := List.mem_map.mp hj
        exact List.mem_range.mpr (lt_of_distanceToNode (hmeasured p hp))
      -- as many are found as there are nodes, so all of them are
      have hmany : index.nodes.length ≤ results.length := by
        have hlen := hperm.length_eq
        rw [List.length_map, List.length_map, vectors, List.length_map, gather, List.length_mergeSort,
          List.length_map] at hlen
        exact hlen.symm.le.trans (List.length_take_le' k results)
      have hall : (results.map Prod.fst).Perm (List.range index.nodes.length) := by
        refine (List.subperm_of_subset hnodup hsub).perm_of_length_le ?_
        rw [List.length_range, List.length_map]
        exact hmany
      obtain ⟨p, hp, rfl⟩ := List.mem_map.mp (hall.symm.subset (List.mem_range.mpr hi))
      exact searchLayer_inside (P := index.Reaches 0 curr) (fun _ hi _ hj => hi.tail hj) .refl hresults p hp
  · intro hreach
    obtain ⟨found, hfound, hall⟩ := search_found hout
    have hmem : ∀ i, i ∈ found.map Prod.fst ↔ i < index.nodes.length := by
      intro i
      constructor
      · intro hi
        obtain ⟨p, hp, rfl⟩ := List.mem_map.mp hi
        exact lt_of_distanceToNode (hfound.measured p hp)
      · exact hall hk hreach i
    have hrange : (found.map Prod.fst).Perm (List.range index.nodes.length) :=
      (List.perm_ext_iff_of_nodup hfound.nodup List.nodup_range).mpr fun i =>
        (hmem i).trans List.mem_range.symm
    have hfoundIds : (found.map fun p => (index.idOf p.1, p.2)).map Prod.fst =
        (found.map Prod.fst).map index.idOf := by
      rw [List.map_map, List.map_map]
      rfl
    rw [← map_idOf_range]
    refine (hfound.perm.map Prod.fst).trans ?_
    rw [hfoundIds]
    exact hrange.map index.idOf

/-- Where no node is above layer 0, a search enters it at the entry point. -/
theorem reaches_of_visits (hzero : index.maxLayer = 0) {query : Bytes} {k ef curr i : ℕ}
    (hcurr : index.enters F query k ef = .ok curr) (hi : index.Visits 0 i) : index.Reaches 0 curr i := by
  obtain ⟨-, pick, hreach, -⟩ := hi.exists_picks
  rw [startOn, if_pos hzero.symm] at hreach
  unfold enters upperLayers at hcurr
  rw [hzero] at hcurr
  cases hcurr
  exact hreach

/-! ### Sequences of insertions -/

variable {items : List (ℕ × Bytes × Bytes)}

theorem insertAll_concat {p : ℕ × Bytes × Bytes} :
    index.insertAll F (items ++ [p]) = .ok after ↔
      ∃ before, index.insertAll F items = .ok before ∧
        before.insertOnLayer F p.1 p.2.1 p.2.2 = .ok after := by
  unfold insertAll
  rw [List.foldlM_append, Except.bind_eq_ok]
  refine exists_congr fun before => and_congr_right fun _ => ?_
  rw [List.foldlM_cons, Except.bind_eq_ok]
  constructor
  · rintro ⟨after', h, hnil⟩
    cases hnil
    exact h
  · intro h
    exact ⟨after, h, rfl⟩

/-- Every node can be reached from the entry point after each insertion of a sequence. -/
def VisitsThroughout (F : Floats) (index : HnswIndex) (items : List (ℕ × Bytes × Bytes)) : Prop :=
  ∀ pre index', pre <+: items → index.insertAll F pre = .ok index' → index'.AllVisited

/-- No insertion of a sequence cuts nodes off. -/
def NeverCutsOff (F : Floats) (index : HnswIndex) (items : List (ℕ × Bytes × Bytes)) : Prop :=
  ∀ pre p before after, pre ++ [p] <+: items → index.insertAll F pre = .ok before →
    before.insertOnLayer F p.1 p.2.1 p.2.2 = .ok after → ∀ S, ¬ CutsOff before after S

/-- **Throughout a sequence of insertions** every node can be reached if and only if no insertion cuts one off. -/
theorem visitsThroughout_iff (hvisits : index.AllVisited) :
    VisitsThroughout F index items ↔ NeverCutsOff F index items := by
  constructor
  · intro hall pre p before after hpre hbefore hafter
    refine (allVisited_insertOnLayer_iff hafter).mp ?_
    exact hall (pre ++ [p]) after hpre (insertAll_concat.mpr ⟨before, hbefore, hafter⟩)
  · intro hnever pre index' hpre hrun
    rcases List.eq_nil_or_concat pre with rfl | ⟨pre, p, rfl⟩
    · cases hrun
      exact hvisits
    · rw [List.concat_eq_append] at hpre hrun
      obtain ⟨before, hbefore, hafter⟩ := insertAll_concat.mp hrun
      exact (allVisited_insertOnLayer_iff hafter).mpr (hnever pre p before index' hpre hbefore hafter)

/-- **Up to `m + 1` vectors** layer 0 is in one piece. -/
theorem joined_of_length_le (hlinked : index.Linked) (hjoined : index.Joined)
    (hfew : index.nodes.length + items.length ≤ index.m + 1) (hrun : index.insertAll F items = .ok index') :
    index'.Joined := by
  induction items generalizing index with
  | nil =>
    cases hrun
    exact hjoined
  | cons p items ih =>
    obtain ⟨index₁, hone, hrest⟩ := insertAll_cons.mp hrun
    rw [List.length_cons] at hfew
    have hinserted := hlinked.insertOnLayer hone
    have hlen := congrArg List.length hinserted.vectors
    rw [vectors, vectors, List.length_map, List.length_append, List.length_map, List.length_singleton] at hlen
    have hm := hinserted.m
    refine ih hinserted.linked (hjoined.insertOnLayer hlinked ?_ hone) ?_ hrest
    · omega
    · omega

/-- Up to `m + 1` vectors no insertion cuts nodes off. -/
theorem visitsThroughout_of_length_le (hnil : index.nodes = []) (hfew : items.length ≤ index.m + 1) :
    VisitsThroughout F index items := by
  intro pre index' hpre hrun
  have hjoined : index.Joined := fun i hi => by
    rw [hnil] at hi
    exact absurd hi (Nat.not_lt_zero i)
  have hlen : index.nodes.length + pre.length ≤ index.m + 1 := by
    rw [hnil, List.length_nil, Nat.zero_add]
    exact hpre.length_le.trans hfew
  have hlinked := linked_of_nil hnil
  exact (joined_of_length_le hlinked hjoined hlen hrun).allVisited (hlinked.insertAll hrun).linked

/-- One more insertion. -/
theorem visitsThroughout_concat {p : ℕ × Bytes × Bytes} (hfew : VisitsThroughout F index items)
    (hrun : index.insertAll F (items ++ [p]) = .ok index') (hvisits : index'.AllVisited) :
    VisitsThroughout F index (items ++ [p]) := by
  intro pre index₁ hpre hrun₁
  rcases List.prefix_concat_iff.mp hpre with rfl | hpre
  · rw [hrun] at hrun₁
    cases hrun₁
    exact hvisits
  · exact hfew pre index₁ hpre hrun₁

/-- Of three neighbors two are kept. -/
theorem pruneNeighbors_three {i l a b c : ℕ} {da db dc : F32} (hlist : index.neighborsAt i l = [a, b, c])
    (hdists : [a, b, c].filterMap (fun n => if n = i then none
      else (distance F (index.dataOf i) (index.dataOf n) index.dtype index.metric).toOption.map fun d => (n, d)) =
        [(a, da), (b, db), (c, dc)])
    (hab : (da.partialCmp db).getD .eq = .gt) (hbc : (db.partialCmp dc).getD .eq ≠ .gt) :
    index.pruneNeighbors F i l 2 =
      index.setNeighbors i l [b, if (da.partialCmp dc).getD .eq = .gt then c else a] := by
  unfold pruneNeighbors
  dsimp only
  rw [hlist, hdists, if_neg (show ¬ [a, b, c].length ≤ 2 from Nat.not_succ_le_self 2)]
  split
  case isTrue hac =>
    simp [List.mergeSort, List.MergeSort.Internal.splitInTwo, hab, hbc, hac]
  case isFalse hac =>
    simp [List.mergeSort, List.MergeSort.Internal.splitInTwo, hab, hbc, hac]

/-- Three vectors in a row, the middle one next to both others, and a fourth one. -/
def rowAnd (data : Byte) (middle last : List ℕ) : HnswIndex :=
  ⟨[⟨[1], [7], [[1]]⟩, ⟨[2], [10], [middle]⟩, ⟨[3], [9], [[1]]⟩, ⟨[4], [data], [last]⟩], 0, 0, 2, 1, 1, .i8, .l2, 7⟩

/-- The fourth vector is inserted next to the middle one, whose list is full. -/
theorem insertAll_rowAnd {data : Byte} {d : F32} {middle : List ℕ}
    (hknn : (rowAnd data [0, 2] []).searchLayer plainFloats [data] [0] 1 0 = .ok [(1, d)])
    (hprune : (rowAnd data [0, 2, 3] [1]).pruneNeighbors plainFloats 1 0 2 = rowAnd data middle [1]) :
    insertAll plainFloats { (new 1 .i8 .l2).withParams 2 1 with rngSeed := 7 }
      [(0, [1], [7]), (0, [2], [10]), (0, [3], [9]), (0, [4], [data])] = .ok (rowAnd data middle [1]) := by
  have hrow : insertAll plainFloats { (new 1 .i8 .l2).withParams 2 1 with rngSeed := 7 }
      [(0, [1], [7]), (0, [2], [10]), (0, [3], [9])] =
      .ok ⟨[⟨[1], [7], [[1]]⟩, ⟨[2], [10], [[0, 2]]⟩, ⟨[3], [9], [[1]]⟩], 0, 0, 2, 1, 1, .i8, .l2, 7⟩ := by
    decide +kernel
  have hselected : (rowAnd data [0, 2] []).selectNeighbors plainFloats 3 [(1, d)] 2 = [1] := rfl
  have hlayer : connectLayer plainFloats 3 [data] (0, rowAnd data [0, 2] []) 0 = .ok (1, rowAnd data middle [1]) := by
    refine Except.bind_eq_ok.mpr ⟨_, hknn, ?_⟩
    refine congrArg (fun index => Except.ok (1, index)) ?_
    change ((rowAnd data [0, 2] []).selectNeighbors plainFloats 3 [(1, d)] 2).foldl
      (connect plainFloats 3 0 2) (rowAnd data [0, 2] []) = _
    rw [hselected]
    exact hprune
  refine insertAll_concat.mpr ⟨_, hrow, ?_⟩
  exact Except.bind_eq_ok.mpr ⟨0, rfl, Except.bind_eq_ok.mpr ⟨_, Except.bind_eq_ok.mpr ⟨_, hlayer, rfl⟩, rfl⟩⟩

/-- A fourth vector close to the middle one: the entry point is dropped from the only list that holds it. -/
theorem insertAll_rowAndNear : insertAll plainFloats { (new 1 .i8 .l2).withParams 2 1 with rngSeed := 7 }
    [(0, [1], [7]), (0, [2], [10]), (0, [3], [9]), (0, [4], [11])] = .ok (rowAnd 11 [2, 3] [1]) := by
  have hdists : [0, 2, 3].filterMap (fun n => if n = 1 then none
      else (distance plainFloats ((rowAnd 11 [0, 2, 3] [1]).dataOf 1) ((rowAnd 11 [0, 2, 3] [1]).dataOf n)
        .i8 .l2).toOption.map fun d => (n, d)) =
      [(0, 1077936128#32), (2, 1065353216#32), (3, 1065353216#32)] := by decide +kernel
  have hprune : (rowAnd 11 [0, 2, 3] [1]).pruneNeighbors plainFloats 1 0 2 = rowAnd 11 [2, 3] [1] :=
    pruneNeighbors_three rfl hdists (by decide) (by decide)
  exact insertAll_rowAnd (d := 1065353216#32) (by decide +kernel) hprune

/-- A fourth vector far from the others: its only neighbor drops it at once. -/
theorem insertAll_rowAndFar : insertAll plainFloats { (new 1 .i8 .l2).withParams 2 1 with rngSeed := 7 }
    [(0, [1], [7]), (0, [2], [10]), (0, [3], [9]), (0, [4], [100])] = .ok (rowAnd 100 [2, 0] [1]) := by
  have hdists : [0, 2, 3].filterMap (fun n => if n = 1 then none
      else (distance plainFloats ((rowAnd 100 [0, 2, 3] [1]).dataOf 1) ((rowAnd 100 [0, 2, 3] [1]).dataOf n)
        .i8 .l2).toOption.map fun d => (n, d)) =
      [(0, 1077936128#32), (2, 1065353216#32), (3, 1119092736#32)] := by decide +kernel
  have hprune : (rowAnd 100 [0, 2, 3] [1]).pruneNeighbors plainFloats 1 0 2 = rowAnd 100 [2, 0] [1] :=
    pruneNeighbors_three rfl hdists (by decide) (by decide)
  exact insertAll_rowAnd (d := 1119092736#32) (by decide +kernel) hprune

/-- What a search returns in a graph of at least two nodes are keys of nodes that can be visited on layer 0. -/
theorem search_visits (htwo : 2 ≤ index.nodes.length) {query : Bytes} {k ef : ℕ} {out : List (Bytes × F32)}
    (h : index.search F query k ef = .ok out) : ∀ p ∈ out, ∃ i, index.Visits 0 i ∧ index.idOf i = p.1 := by
  obtain ⟨curr, results, hcurr, hresults, rfl⟩ := (search_eq_ok htwo).mp h
  have hentry : index.Visits (0 + index.maxLayer) index.entryPoint := by
    rw [Nat.zero_add]
    exact .entryPoint
  have hstart : index.Visits 0 curr :=
    (guarded_visits.descend (E := fun _ => True) (fun _ _ _ _ _ => trivial) 0 index.maxLayer hentry).2 curr hcurr
  have hinside := searchLayer_inside (guarded_visits.neighbors 0) hstart hresults
  intro p hp
  obtain ⟨q, hq, rfl⟩ := mem_gather.mp hp
  exact ⟨q.1, hinside q (List.mem_of_mem_take hq), rfl⟩

/-- **A vector that is lost**: it cannot be visited, and no search finds it. -/
theorem not_found_rowAndFar : ¬ (rowAnd 100 [2, 0] [1]).Visits 0 3 ∧
    (∃ out, (rowAnd 100 [2, 0] [1]).search plainFloats [100] 4 4 = .ok out) ∧
    ∀ query k ef out, (rowAnd 100 [2, 0] [1]).search plainFloats query k ef = .ok out → [4] ∉ out.map Prod.fst := by
  have hguarded : (rowAnd 100 [2, 0] [1]).Guarded fun l i => l = 0 ∧ i < 3 := by
    refine ⟨⟨rfl, by decide⟩, fun l i h => absurd h.1 (Nat.succ_ne_zero l), ?_⟩
    rintro l i ⟨rfl, hi⟩ j hj
    refine ⟨rfl, ?_⟩
    match i, hi with
    | 0, _ => exact (by decide : ∀ j ∈ [1], j < 3) j hj
    | 1, _ => exact (by decide : ∀ j ∈ [2, 0], j < 3) j hj
    | 2, _ => exact (by decide : ∀ j ∈ [1], j < 3) j hj
  have hlinked : (rowAnd 100 [2, 0] [1]).Linked :=
    ((linked_of_nil rfl : { (new 1 .i8 .l2).withParams 2 1 with rngSeed := 7 }.Linked).insertAll
      insertAll_rowAndFar).linked
  refine ⟨fun hvisit => ?_, ?_, fun query k ef out hout hmem => ?_⟩
  · exact absurd (hguarded.of_visits hvisit).2 (lt_irrefl 3)
  · exact hlinked.exists_search rfl (by decide) rfl 4 4
  · obtain ⟨p, hp, hid⟩ := List.mem_map.mp hmem
    obtain ⟨i, hvisit, hi⟩ := search_visits (by decide) hout p hp
    rw [hid] at hi
    match i, (hguarded.of_visits hvisit).2 with
    | 0, _ => exact absurd hi (by decide)
    | 1, _ => exact absurd hi (by decide)
    | 2, _ => exact absurd hi (by decide)

/-- Two vectors on layer 1, far from each other, and two on layer 0 close to the first one. -/
def twoLayers (near last : List ℕ) : HnswIndex :=
  ⟨[⟨[1], [10], [near, [1]]⟩, ⟨[2], [100], [[0], [0]]⟩, ⟨[3], [11], [[0]]⟩, ⟨[4], [9], [last]⟩], 0, 1, 2, 1, 1, .i8,
    .l2, 7⟩

/-- On layer 0 the first vector drops the one that is far away. -/
theorem insertAll_twoLayers : insertAll plainFloats { (new 1 .i8 .l2).withParams 2 1 with rngSeed := 7 }
    [(1, [1], [10]), (1, [2], [100]), (0, [3], [11]), (0, [4], [9])] = .ok (twoLayers [2, 3] [0]) := by
  have hthree : insertAll plainFloats { (new 1 .i8 .l2).withParams 2 1 with rngSeed := 7 }
      [(1, [1], [10]), (1, [2], [100]), (0, [3], [11])] =
      .ok ⟨[⟨[1], [10], [[1, 2], [1]]⟩, ⟨[2], [100], [[0], [0]]⟩, ⟨[3], [11], [[0]]⟩], 0, 1, 2, 1, 1, .i8, .l2, 7⟩ := by
    decide +kernel
  have hdists : [1, 2, 3].filterMap (fun n => if n = 0 then none
      else (distance plainFloats ((twoLayers [1, 2, 3] [0]).dataOf 0) ((twoLayers [1, 2, 3] [0]).dataOf n)
        .i8 .l2).toOption.map fun d => (n, d)) =
      [(1, 1119092736#32), (2, 1065353216#32), (3, 1065353216#32)] := by decide +kernel
  have hprune : (twoLayers [1, 2, 3] [0]).pruneNeighbors plainFloats 0 0 2 = twoLayers [2, 3] [0] :=
    pruneNeighbors_three rfl hdists (by decide) (by decide)
  have hcurr : (twoLayers [1, 2] []).descend plainFloats [9] 1 [1] 0 = .ok 0 := by decide +kernel
  have hknn : (twoLayers [1, 2] []).searchLayer plainFloats [9] [0] 1 0 = .ok [(0, 1065353216#32)] := by
    decide +kernel
  have hlayer : connectLayer plainFloats 3 [9] (0, twoLayers [1, 2] []) 0 = .ok (0, twoLayers [2, 3] [0]) := by
    refine Except.bind_eq_ok.mpr ⟨_, hknn, ?_⟩
    exact congrArg (fun index => Except.ok (0, index)) hprune
  refine insertAll_concat.mpr ⟨_, hthree, ?_⟩
  exact Except.bind_eq_ok.mpr ⟨0, hcurr, Except.bind_eq_ok.mpr ⟨_, Except.bind_eq_ok.mpr ⟨_, hlayer, rfl⟩, rfl⟩⟩

/-- A search next to the first vector goes down from there. -/
theorem enters_twoLayers : (twoLayers [2, 3] [0]).enters plainFloats [10] 4 4 = .ok 0 := by
  have henter : (twoLayers [2, 3] [0]).enter plainFloats [10] {} 0 =
      .ok ⟨[0], [⟨0, 0#32⟩], [⟨0, 0#32⟩]⟩ := enter_eq_ok.mpr ⟨0#32, by decide +kernel, rfl⟩
  have hloop : (twoLayers [2, 3] [0]).searchLoop plainFloats [10] 4 1 6 ⟨[0], [⟨0, 0#32⟩], [⟨0, 0#32⟩]⟩ =
      .ok [⟨1, 1119092736#32⟩, ⟨0, 0#32⟩] := by decide +kernel
  have hcmp : totalCmpF32 1119092736#32 0#32 = .gt := by decide
  have htop : (twoLayers [2, 3] [0]).searchLayer plainFloats [10] [0] 4 1 =
      .ok [(0, 0#32), (1, 1119092736#32)] := by
    refine searchLayer_eq_ok.mpr ⟨_, _, henter, hloop, ?_⟩
    change _ = List.mergeSort [(1, 1119092736#32), (0, 0#32)] _
    simp [List.mergeSort, List.MergeSort.Internal.splitInTwo, hcmp]
  exact Except.bind_eq_ok.mpr ⟨0, Except.bind_eq_ok.mpr ⟨_, htop, rfl⟩, rfl⟩

/-- **A vector that can be reached and is not found**: the search stays on layer 1 with the first vector, and on layer
0 no link leads from there to the one that is far away. -/
theorem not_found_twoLayers : (twoLayers [2, 3] [0]).AllVisited ∧
    ∃ out, (twoLayers [2, 3] [0]).search plainFloats [10] 4 4 = .ok out ∧ [2] ∉ out.map Prod.fst := by
  have hlinked : (twoLayers [2, 3] [0]).Linked :=
    ((linked_of_nil rfl : { (new 1 .i8 .l2).withParams 2 1 with rngSeed := 7 }.Linked).insertAll
      insertAll_twoLayers).linked
  constructor
  · have hentry : (twoLayers [2, 3] [0]).Visits 1 0 := .entryPoint
    have hfar : (twoLayers [2, 3] [0]).Visits 1 1 := .neighbor hentry (by decide)
    intro i hi
    match i, hi with
    | 0, _ => exact hentry.down
    | 1, _ => exact hfar.down
    | 2, _ => exact .neighbor hentry.down (by decide)
    | 3, _ => exact .neighbor hentry.down (by decide)
  · obtain ⟨out, hout⟩ : ∃ out, (twoLayers [2, 3] [0]).search plainFloats [10] 4 4 = .ok out :=
      hlinked.exists_search rfl (by decide) rfl 4 4
    refine ⟨out, hout, fun hmem => ?_⟩
    obtain ⟨curr, results, hcurr, hresults, rfl⟩ := (search_eq_ok (by decide)).mp hout
    rw [enters_twoLayers] at hcurr
    cases hcurr
    have hinside := searchLayer_inside (P := fun i => i = 0 ∨ i = 2 ∨ i = 3) (fun i hi j hj => by
      rcases hi with rfl | rfl | rfl
      · exact (by decide : ∀ j ∈ [2, 3], j = 0 ∨ j = 2 ∨ j = 3) j hj
      · exact (by decide : ∀ j ∈ [0], j = 0 ∨ j = 2 ∨ j = 3) j hj
      · exact (by decide : ∀ j ∈ [0], j = 0 ∨ j = 2 ∨ j = 3) j hj) (.inl rfl) hresults
    obtain ⟨p, hp, hid⟩ := List.mem_map.mp hmem
    obtain ⟨q, hq, rfl⟩ := mem_gather.mp hp
    have hid : (twoLayers [2, 3] [0]).idOf q.1 = [2] := hid
    rcases hinside q (List.mem_of_mem_take hq) with h | h | h
    · exact absurd (h ▸ hid) (by decide)
    · exact absurd (h ▸ hid) (by decide)
    · exact absurd (h ▸ hid) (by decide)

end HnswIndex
