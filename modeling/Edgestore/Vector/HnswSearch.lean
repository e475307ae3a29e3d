import Edgestore.Vector.Hnsw
import Edgestore.Lib.Except
import Mathlib.Logic.Relation

/-!
# What the search of the graph finds

What the search of a layer returns are nodes with their distances to the query. In a graph without
dangling neighbors it returns. If the beam is as wide as the graph is large, no result is dropped, the
search does not stop early, and it finds every node that can be reached on the layer.

## Main definitions

* `HnswIndex.Reaches`: reachability on a layer
* `Candidate.Measured`: a candidate has the distance of its node
* `Beam.Sound`, `Beam.Wide`: the invariants of the search of a layer

## Main results

* `HnswIndex.searchLayer_sound`, `HnswIndex.searchLayer_reaches`
* `HnswIndex.search_sound`, `HnswIndex.search_total`, `HnswIndex.search_complete`
-/

variable {F : Floats} {index : HnswIndex} {query : Bytes} {ef layer curr : ℕ}

namespace HnswIndex

/-- A node can be reached from another one by neighbors on a layer. -/
def Reaches (index : HnswIndex) (layer : ℕ) : ℕ → ℕ → Prop :=
  Relation.ReflTransGen fun i j => j ∈ index.neighborsAt i layer

/-- No neighbor is missing. -/
def NoDangling (index : HnswIndex) : Prop :=
  ∀ i layer, ∀ j ∈ index.neighborsAt i layer, j < index.nodes.length

/-- Every node has a distance to the query. -/
def Comparable (F : Floats) (index : HnswIndex) (query : Bytes) : Prop :=
  ∀ i < index.nodes.length, ∃ d, index.distanceToNode F query i = .ok d

/-- Only nodes have a distance. -/
theorem lt_of_distanceToNode {i : ℕ} {d : F32} (h : index.distanceToNode F query i = .ok d) :
    i < index.nodes.length := by
  unfold distanceToNode at h
  split at h
  case h_1 => cases h
  case h_2 node hnode => exact (List.getElem?_eq_some_iff.mp hnode).1

end HnswIndex

/-- A candidate has the distance of its node. -/
def Candidate.Measured (F : Floats) (index : HnswIndex) (query : Bytes) (c : Candidate) : Prop :=
  index.distanceToNode F query c.nodeIdx = .ok c.distance

/-! ### What is found -/

/-- The candidates and the results have the distances of their nodes. The results are nodes that have
been seen, none of them twice. -/
structure Beam.Sound (F : Floats) (index : HnswIndex) (query : Bytes) (b : Beam) : Prop where
  candidates : ∀ c ∈ b.candidates, c.Measured F index query
  results : ∀ c ∈ b.results, c.Measured F index query
  visited : ∀ c ∈ b.results, c.nodeIdx ∈ b.visited
  nodup : (b.results.map Candidate.nodeIdx).Nodup

/-- The candidates and the results have a property. -/
structure Beam.Inside (P : ℕ → Prop) (b : Beam) : Prop where
  candidates : ∀ c ∈ b.candidates, P c.nodeIdx
  results : ∀ c ∈ b.results, P c.nodeIdx

namespace HnswIndex

/-- A start from one node. -/
theorem enter_eq_ok {b : Beam} : index.enter F query {} curr = .ok b ↔
    ∃ d, index.distanceToNode F query curr = .ok d ∧ b = ⟨[curr], [⟨curr, d⟩], [⟨curr, d⟩]⟩ := by
  unfold enter
  rw [Except.bind_eq_ok]
  refine exists_congr fun d => and_congr_right fun _ => ?_
  exact ⟨fun h => (Except.ok.inj h).symm, fun h => congrArg Except.ok h.symm⟩

theorem sound_enter {b : Beam} (h : index.enter F query {} curr = .ok b) : b.Sound F index query := by
  obtain ⟨d, hd, rfl⟩ := enter_eq_ok.mp h
  have hmeasured : ∀ c ∈ [(⟨curr, d⟩ : Candidate)], c.Measured F index query := fun c hc => by
    rw [List.mem_singleton.mp hc]
    exact hd
  refine ⟨hmeasured, hmeasured, fun c hc => ?_, List.nodup_singleton _⟩
  rw [List.mem_singleton.mp hc]
  exact List.mem_singleton_self curr

/-- A look at a neighbor that has not been seen. -/
theorem visit_of_notMem {b : Beam} {i : ℕ} (hi : i ∉ b.visited) {d : F32}
    (hd : index.distanceToNode F query i = .ok d) :
    index.visit F query ef b i = .ok {
      visited := i :: b.visited
      candidates := ⟨i, d⟩ :: b.candidates
      results := if ef < (⟨i, d⟩ :: b.results).length then
        ((Heap.pop Candidate.cmp (⟨i, d⟩ :: b.results)).map Prod.snd).getD [] else ⟨i, d⟩ :: b.results } := by
  unfold visit
  rw [if_neg hi, hd]
  rfl

/-- A look at a neighbor that has not been seen computes its distance. -/
theorem exists_distance_of_visit {b b' : Beam} {i : ℕ} (hi : i ∉ b.visited)
    (h : index.visit F query ef b i = .ok b') : ∃ d, index.distanceToNode F query i = .ok d := by
  unfold visit at h
  rw [if_neg hi] at h
  obtain ⟨d, hd, -⟩ := Except.bind_eq_ok.mp h
  exact ⟨d, hd⟩

theorem visit_of_mem {b : Beam} {i : ℕ} (hi : i ∈ b.visited) :
    index.visit F query ef b i = .ok b := by
  unfold visit
  rw [if_pos hi]
  rfl

/-- What is kept of the results is a part of them, in another order. -/
theorem kept_results (ef : ℕ) (l : List Candidate) :
    (if ef < l.length then ((Heap.pop Candidate.cmp l).map Prod.snd).getD [] else l).Subperm l := by
  split
  case isTrue =>
    cases hpop : Heap.pop Candidate.cmp l with
    | none => exact List.nil_subperm
    | some p =>
      have hperm := Heap.pop_perm (a := p.1) (l := l) hpop
      exact ((List.sublist_cons_self p.1 p.2).subperm).trans hperm.subperm
  case isFalse => exact List.Subperm.refl _

/-- What has been seen stays seen. -/
theorem visited_subset {b b' : Beam} {i : ℕ} (h : index.visit F query ef b i = .ok b') :
    b.visited ⊆ b'.visited := by
  by_cases hi : i ∈ b.visited
  · rw [visit_of_mem hi] at h
    cases h
    exact fun _ hj => hj
  · unfold visit at h
    rw [if_neg hi] at h
    obtain ⟨d, -, h⟩ := Except.bind_eq_ok.mp h
    cases h
    exact List.subset_cons_self i b.visited

theorem sound_visit {b b' : Beam} (hb : b.Sound F index query) {i : ℕ}
    (h : index.visit F query ef b i = .ok b') : b'.Sound F index query := by
  by_cases hi : i ∈ b.visited
  · rw [visit_of_mem hi] at h
    cases h
    exact hb
  · obtain ⟨d, hd⟩ := exists_distance_of_visit hi h
    rw [visit_of_notMem hi hd] at h
    cases h
    have hkept := kept_results ef (⟨i, d⟩ :: b.results)
    have hnew : ((⟨i, d⟩ :: b.results).map Candidate.nodeIdx).Nodup := by
      refine List.nodup_cons.mpr ⟨fun hmem => hi ?_, hb.nodup⟩
      obtain ⟨c, hc, hci⟩ := List.mem_map.mp hmem
      change c.nodeIdx = i at hci
      exact hci ▸ hb.visited c hc
    refine ⟨?_, fun c hc => ?_, fun c hc => ?_, ?_⟩
    · exact List.forall_mem_cons.mpr ⟨hd, hb.candidates⟩
    · rcases List.mem_cons.mp (hkept.subset hc) with rfl | hc
      · exact hd
      · exact hb.results c hc
    · rcases List.mem_cons.mp (hkept.subset hc) with rfl | hc
      · exact List.mem_cons_self
      · exact List.mem_cons_of_mem _ (hb.visited c hc)
    · obtain ⟨l, hperm, hsub⟩ := hkept
      exact (hperm.map Candidate.nodeIdx).nodup_iff.mp (hnew.sublist (hsub.map Candidate.nodeIdx))

theorem sound_searchLoop {fuel : ℕ} {b : Beam} (hb : b.Sound F index query) {out : List Candidate}
    (h : index.searchLoop F query ef layer fuel b = .ok out) :
    (∀ c ∈ out, c.Measured F index query) ∧ (out.map Candidate.nodeIdx).Nodup := by
  induction fuel generalizing b with
  | zero =>
    cases h
    exact ⟨hb.results, hb.nodup⟩
  | succ fuel ih =>
    unfold searchLoop at h
    split at h
    case h_1 =>
      cases h
      exact ⟨hb.results, hb.nodup⟩
    case h_2 cand rest hpop =>
      split at h
      case isTrue =>
        cases h
        exact ⟨hb.results, hb.nodup⟩
      case isFalse =>
        obtain ⟨b', hfold, h⟩ := Except.bind_eq_ok.mp h
        have hrest : ({ b with candidates := rest } : Beam).Sound F index query :=
          ⟨fun c hc => hb.candidates c ((Heap.pop_perm hpop).subset (List.mem_cons_of_mem _ hc)),
            hb.results, hb.visited, hb.nodup⟩
        exact ih (Except.foldlM_ok (I := fun b _ => b.Sound F index query)
          (fun _ _ _ _ hb hv => sound_visit hb hv) hfold hrest) h

/-- What a look at a neighbor adds to the candidates and the results is the neighbor. -/
theorem inside_visit {P : ℕ → Prop} {b b' : Beam} (hb : b.Inside P) {i : ℕ} (hi : P i)
    (h : index.visit F query ef b i = .ok b') : b'.Inside P := by
  by_cases hmem : i ∈ b.visited
  · rw [visit_of_mem hmem] at h
    cases h
    exact hb
  · obtain ⟨d, hd⟩ := exists_distance_of_visit hmem h
    rw [visit_of_notMem hmem hd] at h
    cases h
    refine ⟨List.forall_mem_cons.mpr ⟨hi, hb.candidates⟩, fun c hc => ?_⟩
    rcases List.mem_cons.mp ((kept_results ef (⟨i, d⟩ :: b.results)).subset hc) with rfl | hc
    · exact hi
    · exact hb.results c hc

theorem inside_searchLoop {P : ℕ → Prop} (hP : ∀ i, P i → ∀ j ∈ index.neighborsAt i layer, P j)
    {fuel : ℕ} {b : Beam} (hb : b.Inside P) {out : List Candidate}
    (h : index.searchLoop F query ef layer fuel b = .ok out) : ∀ c ∈ out, P c.nodeIdx := by
  induction fuel generalizing b with
  | zero =>
    cases h
    exact hb.results
  | succ fuel ih =>
    unfold searchLoop at h
    split at h
    case h_1 =>
      cases h
      exact hb.results
    case h_2 cand rest hpop =>
      split at h
      case isTrue =>
        cases h
        exact hb.results
      case isFalse =>
        obtain ⟨b', hfold, h⟩ := Except.bind_eq_ok.mp h
        have hrest : ({ b with candidates := rest } : Beam).Inside P :=
          ⟨fun c hc => hb.candidates c ((Heap.pop_perm hpop).subset (List.mem_cons_of_mem _ hc)),
            hb.results⟩
        have hneighbors := hP cand.nodeIdx (hb.candidates cand (Heap.mem_of_pop hpop))
        exact ih (Except.foldlM_ok (I := fun b l => b.Inside P ∧ ∀ j ∈ l, P j)
          (fun _ _ _ _ hb hv => ⟨inside_visit hb.1 (hb.2 _ List.mem_cons_self) hv,
            fun j hj => hb.2 j (List.mem_cons_of_mem _ hj)⟩) hfold ⟨hrest, hneighbors⟩).1 h

/-- The results of a layer, sorted. -/
theorem searchLayer_eq_ok {out : List (ℕ × F32)} :
    index.searchLayer F query [curr] ef layer = .ok out ↔ ∃ b results,
      index.enter F query {} curr = .ok b ∧
      index.searchLoop F query ef layer (index.nodes.length + 2) b = .ok results ∧
      out = (F.intoIter layer (results.map fun c => (c.nodeIdx, c.distance))).mergeSort
        fun a b => totalCmpF32 a.2 b.2 ≠ .gt := by
  unfold searchLayer
  rw [Except.bind_eq_ok]
  constructor
  · rintro ⟨b, hb, h⟩
    obtain ⟨results, hresults, h⟩ := Except.bind_eq_ok.mp h
    obtain ⟨b₁, hb₁, hnil⟩ := Except.bind_eq_ok.mp ((List.foldlM_cons ..).symm.trans hb)
    cases hnil
    exact ⟨_, results, hb₁, hresults, (Except.ok.inj h).symm⟩
  · rintro ⟨b, results, hb, hresults, rfl⟩
    refine ⟨b, (List.foldlM_cons ..).trans (Except.bind_eq_ok.mpr ⟨b, hb, rfl⟩), ?_⟩
    exact Except.bind_eq_ok.mpr ⟨results, hresults, rfl⟩

/-- The results of a layer leave their heap in some order, and are sorted. -/
theorem mem_sorted {results : List (ℕ × F32)} {p : ℕ × F32} :
    p ∈ (F.intoIter layer results).mergeSort (fun a b => totalCmpF32 a.2 b.2 ≠ .gt) ↔ p ∈ results :=
  List.mem_mergeSort.trans (F.intoIter_perm layer results).mem_iff

/-- **What the search of a layer returns** are nodes with their distances, none of them twice. -/
theorem searchLayer_sound {out : List (ℕ × F32)}
    (h : index.searchLayer F query [curr] ef layer = .ok out) :
    (∀ p ∈ out, index.distanceToNode F query p.1 = .ok p.2) ∧ (out.map Prod.fst).Nodup := by
  obtain ⟨b, results, hb, hresults, rfl⟩ := searchLayer_eq_ok.mp h
  obtain ⟨hmeasured, hnodup⟩ := sound_searchLoop (sound_enter hb) hresults
  refine ⟨fun p hp => ?_, ?_⟩
  · obtain ⟨c, hc, rfl⟩ := List.mem_map.mp (mem_sorted.mp hp)
    exact hmeasured c hc
  · have hperm := ((List.mergeSort_perm (F.intoIter layer (results.map fun c => (c.nodeIdx, c.distance)))
      fun a b => totalCmpF32 a.2 b.2 ≠ .gt).trans (F.intoIter_perm layer _)).map Prod.fst
    rw [hperm.nodup_iff, List.map_map]
    exact hnodup

/-- **What a search can find**: a property that neighbors inherit, if the node at the start has it. -/
theorem searchLayer_inside {P : ℕ → Prop} (hP : ∀ i, P i → ∀ j ∈ index.neighborsAt i layer, P j)
    (hcurr : P curr) {out : List (ℕ × F32)} (h : index.searchLayer F query [curr] ef layer = .ok out) :
    ∀ p ∈ out, P p.1 := by
  obtain ⟨b, results, hb, hresults, rfl⟩ := searchLayer_eq_ok.mp h
  obtain ⟨d, -, rfl⟩ := enter_eq_ok.mp hb
  have hstart : ∀ c ∈ [(⟨curr, d⟩ : Candidate)], P c.nodeIdx := fun c hc => by
    rw [List.mem_singleton.mp hc]
    exact hcurr
  have hinside := inside_searchLoop hP ⟨hstart, hstart⟩ hresults
  intro p hp
  obtain ⟨c, hc, rfl⟩ := List.mem_map.mp (mem_sorted.mp hp)
  exact hinside c hc

/-- Some result is kept. -/
theorem kept_results_ne_nil (ef : ℕ) (c : Candidate) {l : List Candidate} (hl : l ≠ []) :
    (if ef < (c :: l).length then ((Heap.pop Candidate.cmp (c :: l)).map Prod.snd).getD [] else c :: l) ≠ [] := by
  split
  case isTrue =>
    cases hpop : Heap.pop Candidate.cmp (c :: l) with
    | none => exact absurd (Heap.pop_eq_none.mp hpop) (List.cons_ne_nil c l)
    | some p =>
      obtain ⟨worst, rest⟩ := p
      have hlen := (Heap.pop_perm hpop).length_eq
      rw [List.length_cons, List.length_cons] at hlen
      exact List.ne_nil_of_length_pos ((List.length_pos_iff.mpr hl).trans_eq (Nat.succ_injective hlen).symm)
  case isFalse => exact List.cons_ne_nil c l

theorem searchLoop_ne_nil {fuel : ℕ} {b : Beam} (hb : b.results ≠ []) {out : List Candidate}
    (h : index.searchLoop F query ef layer fuel b = .ok out) : out ≠ [] := by
  induction fuel generalizing b with
  | zero =>
    cases h
    exact hb
  | succ fuel ih =>
    unfold searchLoop at h
    split at h
    case h_1 =>
      cases h
      exact hb
    case h_2 cand rest _ =>
      split at h
      case isTrue =>
        cases h
        exact hb
      case isFalse =>
        obtain ⟨b', hfold, h⟩ := Except.bind_eq_ok.mp h
        refine ih (Except.foldlM_ok (I := fun b _ => b.results ≠ []) (fun b i _ b' hb hv => ?_) hfold hb) h
        by_cases hmem : i ∈ b.visited
        · rw [visit_of_mem hmem] at hv
          cases hv
          exact hb
        · obtain ⟨d, hd⟩ := exists_distance_of_visit hmem hv
          rw [visit_of_notMem hmem hd] at hv
          cases hv
          exact kept_results_ne_nil ef ⟨i, d⟩ hb

/-- The search of a layer finds a node, however narrow the beam. -/
theorem searchLayer_ne_nil {out : List (ℕ × F32)} (h : index.searchLayer F query [curr] ef layer = .ok out) :
    out ≠ [] := by
  obtain ⟨b, results, hb, hresults, rfl⟩ := searchLayer_eq_ok.mp h
  obtain ⟨d, -, rfl⟩ := enter_eq_ok.mp hb
  obtain ⟨c, hc⟩ := List.exists_mem_of_ne_nil _ (searchLoop_ne_nil (List.cons_ne_nil _ _) hresults)
  exact List.ne_nil_of_mem (mem_sorted.mpr (List.mem_map.mpr ⟨c, hc, rfl⟩))

/-! ### The search returns -/

theorem visit_total (ef : ℕ) (hc : index.Comparable F query) {i : ℕ} (hi : i < index.nodes.length) (b : Beam) :
    ∃ b', index.visit F query ef b i = .ok b' := by
  by_cases hmem : i ∈ b.visited
  · exact ⟨b, visit_of_mem hmem⟩
  · obtain ⟨d, hd⟩ := hc i hi
    exact ⟨_, visit_of_notMem hmem hd⟩

theorem searchLoop_total (ef layer : ℕ) (hc : index.Comparable F query) (hn : index.NoDangling) (fuel : ℕ) (b : Beam) :
    ∃ out, index.searchLoop F query ef layer fuel b = .ok out := by
  induction fuel generalizing b with
  | zero => exact ⟨b.results, rfl⟩
  | succ fuel ih =>
    unfold searchLoop
    split
    case h_1 => exact ⟨b.results, rfl⟩
    case h_2 cand rest hpop =>
      split
      case isTrue => exact ⟨b.results, rfl⟩
      case isFalse =>
        obtain ⟨b', hfold, -⟩ := Except.foldlM_total (f := index.visit F query ef)
          (I := fun _ l => ∀ j ∈ l, j < index.nodes.length)
          (fun b j l hl => by
            obtain ⟨b', hb'⟩ := visit_total ef hc (hl j List.mem_cons_self) b
            exact ⟨b', hb', fun j' hj' => hl j' (List.mem_cons_of_mem _ hj')⟩)
          (b := { b with candidates := rest }) (hn cand.nodeIdx layer)
        obtain ⟨out, hout⟩ := ih b'
        exact ⟨out, Except.bind_eq_ok.mpr ⟨b', hfold, hout⟩⟩

theorem searchLayer_total (ef layer : ℕ) (hc : index.Comparable F query) (hn : index.NoDangling)
    (hcurr : curr < index.nodes.length) :
    ∃ out, index.searchLayer F query [curr] ef layer = .ok out := by
  obtain ⟨d, hd⟩ := hc curr hcurr
  obtain ⟨results, hresults⟩ := searchLoop_total ef layer hc hn
    (index.nodes.length + 2) ⟨[curr], [⟨curr, d⟩], [⟨curr, d⟩]⟩
  exact ⟨_, searchLayer_eq_ok.mpr ⟨_, results, enter_eq_ok.mpr ⟨d, hd, rfl⟩, hresults, rfl⟩⟩

/-- The node from which the next layer is searched is a node. -/
theorem head_lt {out : List (ℕ × F32)} (h : index.searchLayer F query [curr] ef layer = .ok out)
    (hcurr : curr < index.nodes.length) :
    (out.head?.map Prod.fst).getD curr < index.nodes.length := by
  cases hout : out with
  | nil => exact hcurr
  | cons p rest =>
    exact lt_of_distanceToNode ((searchLayer_sound h).1 p (hout ▸ List.mem_cons_self))

theorem descend_lt {layers : List ℕ} {last : ℕ} (h : index.descend F query ef layers curr = .ok last)
    (hcurr : curr < index.nodes.length) : last < index.nodes.length := by
  refine Except.foldlM_ok (I := fun curr _ => curr < index.nodes.length) ?_ h hcurr
  intro curr layer l next hcurr hnext
  obtain ⟨out, hout, hnext⟩ := Except.bind_eq_ok.mp hnext
  cases hnext
  exact head_lt hout hcurr

theorem descend_total (ef : ℕ) (hc : index.Comparable F query) (hn : index.NoDangling)
    (hcurr : curr < index.nodes.length) (layers : List ℕ) :
    ∃ last, index.descend F query ef layers curr = .ok last := by
  obtain ⟨last, hlast, -⟩ := Except.foldlM_total
    (I := fun curr _ => curr < index.nodes.length) (fun curr layer l hcurr => by
      obtain ⟨out, hout⟩ := searchLayer_total ef layer hc hn hcurr
      exact ⟨_, Except.bind_eq_ok.mpr ⟨out, hout, rfl⟩, head_lt hout hcurr⟩) (l := layers) hcurr
  exact ⟨last, hlast⟩

end HnswIndex

/-! ### The search finds what can be reached -/

/-- The state of a search with a wide beam, while the nodes of `pending` are still to be looked at: what
has been seen is a result, and the neighbors of a node that is no longer a candidate have been seen. -/
structure Beam.Wide (index : HnswIndex) (layer : ℕ) (pending : List ℕ) (b : Beam) : Prop where
  inRange : ∀ i ∈ b.visited, i < index.nodes.length
  nodup : b.visited.Nodup
  kept : (b.results.map Candidate.nodeIdx).Perm b.visited
  queued : ∀ c ∈ b.candidates, c ∈ b.results
  expanded : ∀ i ∈ b.visited, (∃ c ∈ b.candidates, c.nodeIdx = i) ∨
    ∀ j ∈ index.neighborsAt i layer, j ∈ b.visited ∨ j ∈ pending

/-- The nodes that are still to be expanded, or have not been seen. -/
def Beam.left (index : HnswIndex) (b : Beam) : ℕ :=
  b.candidates.length + (index.nodes.length - b.visited.length)

/-- What has been seen are nodes, none of them twice. -/
structure Beam.Seen (index : HnswIndex) (b : Beam) : Prop where
  inRange : ∀ i ∈ b.visited, i < index.nodes.length
  nodup : b.visited.Nodup

theorem Beam.Seen.length_le {b : Beam} (h : b.Seen index) : b.visited.length ≤ index.nodes.length := by
  have hsub : b.visited ⊆ List.range index.nodes.length := fun i hi => List.mem_range.mpr (h.inRange i hi)
  exact (List.subperm_of_subset h.nodup hsub).length_le.trans_eq (List.length_range ..)

namespace HnswIndex

theorem seen_enter {b : Beam} (h : index.enter F query {} curr = .ok b) :
    b.Seen index ∧ b.left index = index.nodes.length := by
  obtain ⟨d, hd, rfl⟩ := enter_eq_ok.mp h
  have hcurr := lt_of_distanceToNode hd
  refine ⟨⟨fun i hi => List.mem_singleton.mp hi ▸ hcurr, List.nodup_singleton _⟩, ?_⟩
  change 1 + (index.nodes.length - 1) = index.nodes.length
  omega

/-- A look at a neighbor leaves as much to do. -/
theorem seen_visit {b b' : Beam} (hb : b.Seen index) {i : ℕ} (h : index.visit F query ef b i = .ok b') :
    b'.Seen index ∧ b'.left index = b.left index := by
  by_cases hmem : i ∈ b.visited
  · rw [visit_of_mem hmem] at h
    cases h
    exact ⟨hb, rfl⟩
  · obtain ⟨d, hd⟩ := exists_distance_of_visit hmem h
    rw [visit_of_notMem hmem hd] at h
    cases h
    have hseen : ∀ k ∈ i :: b.visited, k < index.nodes.length :=
      List.forall_mem_cons.mpr ⟨lt_of_distanceToNode hd, hb.inRange⟩
    have hnodup : (i :: b.visited).Nodup := List.nodup_cons.mpr ⟨hmem, hb.nodup⟩
    refine ⟨⟨hseen, hnodup⟩, ?_⟩
    have hlen := Beam.Seen.length_le (b := ⟨i :: b.visited, [], []⟩) ⟨hseen, hnodup⟩
    rw [List.length_cons] at hlen
    simp only [Beam.left, List.length_cons]
    omega

/-- **The loop ends** before the fuel does: with fuel for what is left, more fuel changes nothing. -/
theorem searchLoop_fuel {fuel : ℕ} {b : Beam} (hb : b.Seen index) (hfuel : b.left index ≤ fuel)
    (extra : ℕ) :
    index.searchLoop F query ef layer (fuel + extra) b = index.searchLoop F query ef layer fuel b := by
  induction fuel generalizing b with
  | zero =>
    have hdone : b.candidates = [] := by
      refine List.eq_nil_of_length_eq_zero ?_
      rw [Beam.left] at hfuel
      omega
    cases extra with
    | zero => rfl
    | succ extra =>
      rw [Nat.zero_add, searchLoop, searchLoop, hdone]
      rfl
  | succ fuel ih =>
    rw [Nat.succ_add, searchLoop, searchLoop]
    cases hpop : Heap.pop (fun a b => Candidate.cmp b a) b.candidates with
    | none => rfl
    | some p =>
      obtain ⟨cand, rest⟩ := p
      dsimp only
      split
      case isTrue => rfl
      case isFalse =>
        have hlen := (Heap.pop_perm hpop).length_eq
        rw [List.length_cons] at hlen
        cases hfold : (index.neighborsAt cand.nodeIdx layer).foldlM (index.visit F query ef)
            { b with candidates := rest } with
        | error err => rfl
        | ok b' =>
          -- a candidate has been taken out, and what is seen only moves to the candidates
          have hrest : ({ b with candidates := rest } : Beam).Seen index := ⟨hb.inRange, hb.nodup⟩
          obtain ⟨hseen, hleft⟩ := Except.foldlM_ok (I := fun b₁ (_ : List ℕ) => b₁.Seen index ∧
              b₁.left index = ({ b with candidates := rest } : Beam).left index)
            (fun _ _ _ _ h₁ hv => ⟨(seen_visit h₁.1 hv).1, (seen_visit h₁.1 hv).2.trans h₁.2⟩) hfold
            ⟨hrest, rfl⟩
          refine ih hseen ?_
          rw [hleft]
          simp only [Beam.left] at hfuel ⊢
          omega

end HnswIndex

namespace Beam.Wide

variable {b : Beam} {pending : List ℕ}

/-- The node to expand next leaves the queue, and its neighbors are to be looked at. -/
theorem pop (h : b.Wide index layer []) {cand : Candidate} {rest : List Candidate}
    (hperm : (cand :: rest).Perm b.candidates) :
    ({ b with candidates := rest } : Beam).Wide index layer (index.neighborsAt cand.nodeIdx layer) := by
  refine ⟨h.inRange, h.nodup, h.kept, fun c hc => h.queued c (hperm.subset (List.mem_cons_of_mem _ hc)),
    fun i hi => ?_⟩
  rcases h.expanded i hi with ⟨c, hc, hci⟩ | hseen
  · rcases List.mem_cons.mp (hperm.symm.subset hc) with rfl | hc
    · exact .inr fun j hj => .inr (hci ▸ hj)
    · exact .inl ⟨c, hc, hci⟩
  · exact .inr fun j hj => .inl ((hseen j hj).resolve_right List.not_mem_nil)

/-- **A look at a neighbor**: nothing is dropped. -/
theorem visit (hef : index.nodes.length ≤ ef) {i : ℕ} {b' : Beam}
    (h : b.Wide index layer (i :: pending)) (hv : index.visit F query ef b i = .ok b') :
    b'.Wide index layer pending := by
  have hseen := (HnswIndex.seen_visit ⟨h.inRange, h.nodup⟩ hv).1
  by_cases hmem : i ∈ b.visited
  · rw [HnswIndex.visit_of_mem hmem] at hv
    cases hv
    refine ⟨h.inRange, h.nodup, h.kept, h.queued, fun k hk => ?_⟩
    refine (h.expanded k hk).imp_right fun hseen j hj => ?_
    rcases hseen j hj with hj | hj
    · exact .inl hj
    · rcases List.mem_cons.mp hj with rfl | hj
      · exact .inl hmem
      · exact .inr hj
  · obtain ⟨d, hd⟩ := HnswIndex.exists_distance_of_visit hmem hv
    rw [HnswIndex.visit_of_notMem hmem hd] at hv
    cases hv
    have hlen := hseen.length_le
    -- the results are as many as the nodes seen, so none is dropped
    have hresults : ¬ ef < ((⟨i, d⟩ : Candidate) :: b.results).length := by
      have heq := h.kept.length_eq
      rw [List.length_map] at heq
      rw [List.length_cons] at hlen ⊢
      omega
    refine ⟨hseen.inRange, hseen.nodup, ?_, ?_, fun k hk => ?_⟩
    · rw [if_neg hresults]
      exact h.kept.cons i
    · rw [if_neg hresults]
      exact List.forall_mem_cons.mpr ⟨List.mem_cons_self, fun c hc =>
        List.mem_cons_of_mem _ (h.queued c hc)⟩
    · rcases List.mem_cons.mp hk with rfl | hk
      · exact .inl ⟨⟨k, d⟩, List.mem_cons_self, rfl⟩
      · rcases h.expanded k hk with ⟨c, hc, hck⟩ | hseen
        · exact .inl ⟨c, List.mem_cons_of_mem _ hc, hck⟩
        · refine .inr fun j hj => ?_
          rcases hseen j hj with hj | hj
          · exact .inl (List.mem_cons_of_mem _ hj)
          · rcases List.mem_cons.mp hj with rfl | hj
            · exact .inl List.mem_cons_self
            · exact .inr hj

/-- A search that has expanded every candidate has seen what can be reached. -/
theorem reaches (h : b.Wide index layer []) (hdone : b.candidates = []) {i j : ℕ} (hi : i ∈ b.visited)
    (hreach : index.Reaches layer i j) : j ∈ b.results.map Candidate.nodeIdx := by
  have hclosed : ∀ k ∈ b.visited, ∀ l ∈ index.neighborsAt k layer, l ∈ b.visited := by
    intro k hk l hl
    rcases h.expanded k hk with ⟨c, hc, -⟩ | hseen
    · rw [hdone] at hc
      cases hc
    · exact (hseen l hl).resolve_right List.not_mem_nil
  refine h.kept.symm.subset ?_
  induction hreach with
  | refl => exact hi
  | tail _ hstep ih => exact hclosed _ ih _ hstep

/-- The closest candidate is a result, so it is not farther than every result. -/
theorem not_farther (h : b.Wide index layer []) {cand : Candidate} (hcand : cand ∈ b.candidates) :
    ¬ (Heap.peek Candidate.cmp b.results).any fun worst =>
      cand.distance.partialCmp worst.distance = some .gt := by
  intro hany
  obtain ⟨worst, hworst, hgt⟩ := (Option.any_eq_true _ _).mp hany
  have hle := Heap.key_le_of_peek Candidate.cmp_keyed hworst cand (h.queued cand hcand)
  have hlt := F32.totalKey_lt_of_partialCmp (of_decide_eq_true hgt)
  exact absurd (Prod.Lex.le_iff.mp hle) (by
    rintro (hdist | ⟨heq, -⟩)
    · exact lt_asymm hlt hdist
    · exact hlt.ne heq.symm)

end Beam.Wide

namespace HnswIndex

/-- **The loop with a wide beam**: with fuel for what is left it finds what can be reached from a node
that has been seen. -/
theorem searchLoop_reaches (hef : index.nodes.length ≤ ef) {fuel : ℕ} {b : Beam}
    (hb : b.Wide index layer []) (hfuel : b.left index ≤ fuel) {out : List Candidate}
    (h : index.searchLoop F query ef layer fuel b = .ok out) {i j : ℕ} (hi : i ∈ b.visited)
    (hreach : index.Reaches layer i j) : j ∈ out.map Candidate.nodeIdx := by
  induction fuel generalizing b with
  | zero =>
    have hdone : b.candidates = [] := by
      refine List.eq_nil_of_length_eq_zero ?_
      rw [Beam.left] at hfuel
      omega
    cases h
    exact hb.reaches hdone hi hreach
  | succ fuel ih =>
    unfold searchLoop at h
    split at h
    case h_1 hpop =>
      cases h
      exact hb.reaches (Heap.pop_eq_none.mp hpop) hi hreach
    case h_2 cand rest hpop =>
      have hperm := Heap.pop_perm hpop
      rw [if_neg (hb.not_farther (Heap.mem_of_pop hpop))] at h
      obtain ⟨b', hfold, h⟩ := Except.bind_eq_ok.mp h
      -- the fold looks at the neighbors one by one
      have hrest : ({ b with candidates := rest } : Beam).left index + 1 = b.left index := by
        have hlen := hperm.length_eq
        rw [List.length_cons] at hlen
        simp only [Beam.left]
        omega
      obtain ⟨hwide, hleft, hsub⟩ := Except.foldlM_ok
        (I := fun (b₁ : Beam) l => b₁.Wide index layer l ∧ b₁.left index + 1 = b.left index ∧ i ∈ b₁.visited)
        (fun b₁ j l b₂ ⟨hw, hl, hmem⟩ hv => by
          have hleft := (seen_visit ⟨hw.inRange, hw.nodup⟩ hv).2
          exact ⟨hw.visit hef hv, hleft ▸ hl, visited_subset hv hmem⟩)
        hfold ⟨hb.pop hperm, hrest, hi⟩
      exact ih hwide (by omega) h hsub

/-- **A layer with a wide beam**: what can be reached from the start is returned. -/
theorem searchLayer_reaches (hef : index.nodes.length ≤ ef) {out : List (ℕ × F32)}
    (h : index.searchLayer F query [curr] ef layer = .ok out) {j : ℕ} (hreach : index.Reaches layer curr j) :
    j ∈ out.map Prod.fst := by
  obtain ⟨b, results, hb, hresults, rfl⟩ := searchLayer_eq_ok.mp h
  obtain ⟨d, hd, rfl⟩ := enter_eq_ok.mp hb
  have hcurr := lt_of_distanceToNode hd
  have hwide : Beam.Wide index layer [] ⟨[curr], [⟨curr, d⟩], [⟨curr, d⟩]⟩ := by
    refine ⟨fun i hi => ?_, List.nodup_singleton _, List.Perm.refl _, fun c hc => hc, fun i hi => .inl ?_⟩
    · rw [List.mem_singleton.mp hi]
      exact hcurr
    · rw [List.mem_singleton.mp hi]
      exact ⟨_, List.mem_singleton_self _, rfl⟩
  have hfuel : Beam.left index ⟨[curr], [⟨curr, d⟩], [⟨curr, d⟩]⟩ ≤ index.nodes.length + 2 := by
    change 1 + (index.nodes.length - 1) ≤ index.nodes.length + 2
    omega
  have hmem := searchLoop_reaches hef hwide hfuel hresults (List.mem_singleton_self curr) hreach
  obtain ⟨c, hcmem, hcj⟩ := List.mem_map.mp hmem
  exact List.mem_map.mpr ⟨(c.nodeIdx, c.distance),
    mem_sorted.mpr (List.mem_map.mpr ⟨c, hcmem, rfl⟩), hcj⟩

/-! ### The search of the graph -/

/-- The node at which a search enters layer 0. -/
def enters (F : Floats) (index : HnswIndex) (query : Bytes) (k ef : ℕ) : Except EdgestoreError ℕ :=
  index.descend F query (max (max ef k) 1) index.upperLayers index.entryPoint

/-- What a search makes of the results of layer 0. -/
def gather (index : HnswIndex) (k : ℕ) (layer0Results : List (ℕ × F32)) : List (Bytes × F32) :=
  ((layer0Results.take k).map fun p => (index.idOf p.1, p.2)).mergeSort
    fun a b => totalCmpF32 a.2 b.2 ≠ .gt

variable {k : ℕ}

theorem mem_gather {l : List (ℕ × F32)} {p : Bytes × F32} :
    p ∈ index.gather k l ↔ ∃ q ∈ l.take k, (index.idOf q.1, q.2) = p :=
  List.mem_mergeSort.trans List.mem_map

/-- The search of a graph of at least two nodes. -/
theorem search_eq_ok (htwo : 2 ≤ index.nodes.length) {out : List (Bytes × F32)} :
    index.search F query k ef = .ok out ↔ ∃ curr results,
      index.enters F query k ef = .ok curr ∧
      index.searchLayer F query [curr] (max ef k) 0 = .ok results ∧ out = index.gather k results := by
  unfold search
  split
  case h_1 hnodes =>
    rw [hnodes] at htwo
    exact absurd htwo (by decide)
  case h_2 node hnodes =>
    rw [hnodes] at htwo
    exact absurd htwo (by decide : ¬ 2 ≤ 1)
  case h_3 =>
    dsimp only
    rw [Except.bind_eq_ok]
    refine exists_congr fun curr => ?_
    rw [Except.bind_eq_ok]
    constructor
    · rintro ⟨hcurr, results, hresults, h⟩
      exact ⟨results, hcurr, hresults, (Except.ok.inj h).symm⟩
    · rintro ⟨results, hcurr, hresults, rfl⟩
      exact ⟨hcurr, results, hresults, rfl⟩

/-- The search of a graph of one node. -/
theorem search_eq_ok_of_singleton {node : HnswNode} (hone : index.nodes = [node])
    {out : List (Bytes × F32)} :
    index.search F query k ef = .ok out ↔
      ∃ d, index.distanceToNode F query 0 = .ok d ∧ out = [(node.vectorId, d)] := by
  unfold search
  split
  case h_1 hnodes =>
    rw [hone] at hnodes
    cases hnodes
  case h_2 node' hnodes =>
    rw [hone] at hnodes
    cases hnodes
    rw [Except.bind_eq_ok]
    exact exists_congr fun d => and_congr_right fun _ =>
      ⟨fun h => (Except.ok.inj h).symm, fun h => congrArg Except.ok h.symm⟩
  case h_3 hne => exact absurd hone (hne node)

theorem search_of_nil (hnil : index.nodes = []) : index.search F query k ef = .ok [] := by
  unfold search
  rw [hnil]

theorem idOf_of_singleton {node : HnswNode} (hone : index.nodes = [node]) : index.idOf 0 = node.vectorId := by
  rw [idOf, hone]
  rfl

theorem pairwise_gather (l : List (ℕ × F32)) :
    (index.gather k l).Pairwise fun a b => totalCmpF32 a.2 b.2 ≠ .gt := by
  have hle : ∀ a b : Bytes × F32, totalCmpF32 a.2 b.2 ≠ .gt ↔ a.2.totalKey ≤ b.2.totalKey := fun a b => by
    rw [totalCmpF32_eq_compare a.2 b.2, ne_eq, compare_gt_iff_gt]
    exact not_lt
  have htrans : ∀ a b c : Bytes × F32, decide (totalCmpF32 a.2 b.2 ≠ .gt) = true →
      decide (totalCmpF32 b.2 c.2 ≠ .gt) = true → decide (totalCmpF32 a.2 c.2 ≠ .gt) = true := by
    intro a b c hab hbc
    simp only [decide_eq_true_eq, hle] at hab hbc ⊢
    exact hab.trans hbc
  have htotal : ∀ a b : Bytes × F32,
      (decide (totalCmpF32 a.2 b.2 ≠ .gt) || decide (totalCmpF32 b.2 a.2 ≠ .gt)) = true := by
    intro a b
    simp only [Bool.or_eq_true, decide_eq_true_eq, hle]
    exact le_total _ _
  have hsorted := List.pairwise_mergeSort htrans htotal ((l.take k).map fun p => (index.idOf p.1, p.2))
  exact hsorted.imp of_decide_eq_true

/-- What a search has found: different nodes, with their distances, no more than `k` of them, and their keys
in ascending order of distance. -/
structure Found (F : Floats) (index : HnswIndex) (query : Bytes) (k : ℕ) (found : List (ℕ × F32))
    (out : List (Bytes × F32)) : Prop where
  measured : ∀ p ∈ found, index.distanceToNode F query p.1 = .ok p.2
  nodup : (found.map Prod.fst).Nodup
  length_le : 1 ≤ k → found.length ≤ k
  perm : out.Perm (found.map fun p => (index.idOf p.1, p.2))
  ascending : out.Pairwise fun a b => totalCmpF32 a.2 b.2 ≠ .gt

/-- **What a search returns** has been found, and a search for as many keys as there are nodes has found every
node, if from the node at which it enters layer 0 every node can be reached there. -/
theorem search_found {out : List (Bytes × F32)} (h : index.search F query k ef = .ok out) :
    ∃ found, Found F index query k found out ∧ (index.nodes.length ≤ k →
      (∀ curr, index.enters F query k ef = .ok curr → ∀ i < index.nodes.length, index.Reaches 0 curr i) →
        ∀ i < index.nodes.length, i ∈ found.map Prod.fst) := by
  rcases hnodes : index.nodes with _ | ⟨node, _ | ⟨node', rest⟩⟩
  · rw [search_of_nil hnodes] at h
    cases h
    exact ⟨[], ⟨fun _ hp => absurd hp List.not_mem_nil, List.nodup_nil, fun _ => Nat.zero_le k,
      List.Perm.refl _, List.Pairwise.nil⟩, fun _ _ i hi => absurd hi (Nat.not_lt_zero i)⟩
  · obtain ⟨d, hd, rfl⟩ := (search_eq_ok_of_singleton hnodes).mp h
    refine ⟨[(0, d)], ⟨fun p hp => List.mem_singleton.mp hp ▸ hd, List.nodup_singleton _, fun hk => hk, ?_,
      List.pairwise_singleton _ _⟩, fun _ _ i hi => ?_⟩
    · rw [List.map_singleton, idOf_of_singleton hnodes]
    · rw [Nat.lt_one_iff.mp hi]
      exact List.mem_singleton_self _
  · have htwo : 2 ≤ index.nodes.length := by
      rw [hnodes]
      exact Nat.le_add_left 2 rest.length
    obtain ⟨curr, results, hcurr, hresults, rfl⟩ := (search_eq_ok htwo).mp h
    obtain ⟨hmeasured, hnodup⟩ := searchLayer_sound hresults
    refine ⟨results.take k, ⟨fun p hp => hmeasured p (List.mem_of_mem_take hp), ?_,
      fun _ => List.length_take_le _ _, List.mergeSort_perm _ _, pairwise_gather results⟩,
      fun hk hreach i hi => ?_⟩
    · exact hnodup.sublist ((List.take_sublist k results).map Prod.fst)
    · rw [← hnodes] at hk hreach hi
      -- there are no more results than nodes, so all of them are taken
      have hlen : results.length ≤ k := by
        have hsub : results.map Prod.fst ⊆ List.range index.nodes.length := fun j hj => by
          obtain ⟨q, hq, rfl⟩ := List.mem_map.mp hj
          exact List.mem_range.mpr (lt_of_distanceToNode (hmeasured q hq))
        have hle := (List.subperm_of_subset hnodup hsub).length_le
        rw [List.length_map, List.length_range] at hle
        exact hle.trans hk
      rw [List.take_of_length_le hlen]
      exact searchLayer_reaches (hk.trans (le_max_right ef k)) hresults (hreach curr hcurr i hi)

/-- **What a search returns** are keys of nodes, with the distances of these nodes. -/
theorem search_sound {out : List (Bytes × F32)} (h : index.search F query k ef = .ok out) :
    ∀ p ∈ out, ∃ i, index.idOf i = p.1 ∧ index.distanceToNode F query i = .ok p.2 := by
  intro p hp
  obtain ⟨found, hfound, -⟩ := search_found h
  obtain ⟨q, hq, rfl⟩ := List.mem_map.mp (hfound.perm.subset hp)
  exact ⟨q.1, rfl, hfound.measured q hq⟩

/-- **A search for as many keys as there are nodes** returns every node, if from the node at which it
enters layer 0 every node can be reached there. -/
theorem search_complete (hk : index.nodes.length ≤ k)
    (hreach : ∀ curr, index.enters F query k ef = .ok curr →
      ∀ i < index.nodes.length, index.Reaches 0 curr i)
    {out : List (Bytes × F32)} (h : index.search F query k ef = .ok out) {i : ℕ}
    (hi : i < index.nodes.length) : index.idOf i ∈ out.map Prod.fst := by
  obtain ⟨found, hfound, hall⟩ := search_found h
  obtain ⟨q, hq, rfl⟩ := List.mem_map.mp (hall hk hreach i hi)
  exact List.mem_map.mpr ⟨_, hfound.perm.symm.subset (List.mem_map.mpr ⟨q, hq, rfl⟩), rfl⟩

/-- **A search returns**, in a graph without dangling neighbors whose entry point is a node. -/
theorem search_total (hc : index.Comparable F query) (hn : index.NoDangling)
    (hentry : index.entryPoint < index.nodes.length) (k ef : ℕ) :
    ∃ out, index.search F query k ef = .ok out := by
  rcases hnodes : index.nodes with _ | ⟨node, _ | ⟨node', rest⟩⟩
  · exact ⟨_, search_of_nil hnodes⟩
  · obtain ⟨d, hd⟩ := hc 0 ((Nat.zero_le _).trans_lt hentry)
    exact ⟨_, (search_eq_ok_of_singleton hnodes).mpr ⟨d, hd, rfl⟩⟩
  · have htwo : 2 ≤ index.nodes.length := by
      rw [hnodes]
      exact Nat.le_add_left 2 rest.length
    obtain ⟨curr, hcurr⟩ := descend_total (max (max ef k) 1) hc hn hentry index.upperLayers
    obtain ⟨results, hresults⟩ := searchLayer_total (max ef k) 0 hc hn
      (descend_lt hcurr hentry)
    exact ⟨_, (search_eq_ok htwo).mpr ⟨curr, results, hcurr, hresults, rfl⟩⟩

end HnswIndex
