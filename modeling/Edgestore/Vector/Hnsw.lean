import Edgestore.Vector.Distance
import Mathlib.Data.Prod.Lex
import Mathlib.Data.List.Sort

/-!
# The graph index

A hierarchical navigable small world graph over the vectors of a namespace. Each node has lists of
neighbors on layer 0 and on the layers up to its own, which is drawn from a generator with a fixed seed.
A search goes down from the entry point on the top layer, from layer to layer to the node that it finds
closest, and collects its results on layer 0.

A layer is searched with a beam: a queue of nodes to expand, closest first, and the closest nodes seen so
far. The loop takes fuel; a node is expanded at most once.

## Main definitions

* `HnswNode`, `HnswIndex`
* `Candidate`, `Beam`: the state of the search of a layer
* `HnswIndex.searchLayer`, `HnswIndex.search`
* `HnswIndex.insert`, with `selectNeighbors` and `pruneNeighbors`
-/

/-- A node of the graph: the key and the data of a vector, and the neighbors on each layer. -/
structure HnswNode where
  vectorId : Bytes
  vectorData : Bytes
  neighbors : List (List ℕ)
  deriving DecidableEq, Repr

/-- The index. `m` is the greatest number of neighbors, `efConstruction` the width of the beam with which
the graph is built. -/
structure HnswIndex where
  nodes : List HnswNode := []
  entryPoint : ℕ := 0
  maxLayer : ℕ := 0
  m : ℕ := 16
  efConstruction : ℕ := 100
  dims : ℕ
  dtype : Dtype
  metric : Metric
  rngSeed : ℕ := 12345
  deriving DecidableEq, Repr

/-- A node with its distance to the query. -/
structure Candidate where
  nodeIdx : ℕ
  distance : F32
  deriving DecidableEq, Repr

namespace Candidate

/-- Candidates are compared by distance, and by index among equals. -/
def cmp (a b : Candidate) : Ordering :=
  (totalCmpF32 a.distance b.distance).then (compare a.nodeIdx b.nodeIdx)

/-- The key by which candidates are compared. -/
def key (a : Candidate) : WithTop ℤ ×ₗ ℕ := toLex (a.distance.totalKey, a.nodeIdx)

theorem cmp_keyed : Heap.Keyed cmp key := by
  intro a b
  rw [cmp, totalCmpF32_eq_compare a.distance b.distance]
  exact (congrFun (congrFun (Prod.Lex.compare_def (α := WithTop ℤ) (β := ℕ)) a.key) b.key).symm

end Candidate

/-- The state of the search of a layer: the nodes seen, those still to expand, the closest so far. -/
structure Beam where
  visited : List ℕ := []
  candidates : List Candidate := []
  results : List Candidate := []

namespace HnswIndex

variable (F : Floats)

/-- An index without nodes. -/
def new (dims : ℕ) (dtype : Dtype) (metric : Metric) : HnswIndex :=
  { dims := dims, dtype := dtype, metric := metric }

/-- Set the parameters of the construction. -/
def withParams (index : HnswIndex) (m efConstruction : ℕ) : HnswIndex :=
  { index with m := m, efConstruction := efConstruction }

/-- The vector of a node. -/
def dataOf (index : HnswIndex) (i : ℕ) : Bytes := (index.nodes[i]?.map HnswNode.vectorData).getD []

/-- The key of a node. -/
def idOf (index : HnswIndex) (i : ℕ) : Bytes := (index.nodes[i]?.map HnswNode.vectorId).getD []

/-- The number of layers of a node. -/
def layerCount (index : HnswIndex) (i : ℕ) : ℕ :=
  (index.nodes[i]?.map fun node => node.neighbors.length).getD 0

/-- The neighbors of a node on a layer; none if the node does not reach up to the layer. -/
def neighborsAt (index : HnswIndex) (i layer : ℕ) : List ℕ :=
  (index.nodes[i]?.bind fun node => node.neighbors[layer]?).getD []

/-- Set the neighbors of a node on a layer. -/
def setNeighbors (index : HnswIndex) (i layer : ℕ) (l : List ℕ) : HnswIndex :=
  { index with nodes := index.nodes.modify i fun node =>
    { node with neighbors := node.neighbors.set layer l } }

/-! ### Search -/

/-- The distance of a query to a node. -/
def distanceToNode (index : HnswIndex) (query : Bytes) (i : ℕ) : Except EdgestoreError F32 :=
  match index.nodes[i]? with
  | none => .error (.panicked "index out of bounds")
  | some node => distance F query node.vectorData index.dtype index.metric

/-- Start from a node. -/
def enter (index : HnswIndex) (query : Bytes) (b : Beam) (ep : ℕ) : Except EdgestoreError Beam := do
  let dist ← index.distanceToNode F query ep
  return ⟨ep :: b.visited, ⟨ep, dist⟩ :: b.candidates, ⟨ep, dist⟩ :: b.results⟩

/-- Look at a neighbor. Of more than `ef` results the farthest is dropped. -/
def visit (index : HnswIndex) (query : Bytes) (ef : ℕ) (b : Beam) (neighborIdx : ℕ) :
    Except EdgestoreError Beam := do
  if neighborIdx ∈ b.visited then return b
  else
    let dist ← index.distanceToNode F query neighborIdx
    let results := ⟨neighborIdx, dist⟩ :: b.results
    return {
      visited := neighborIdx :: b.visited
      candidates := ⟨neighborIdx, dist⟩ :: b.candidates
      results := if ef < results.length then ((Heap.pop Candidate.cmp results).map Prod.snd).getD []
        else results }

/-- Expand the closest candidate, until there is none or the closest is farther than every result. -/
def searchLoop (index : HnswIndex) (query : Bytes) (ef layer : ℕ) :
    ℕ → Beam → Except EdgestoreError (List Candidate)
  | 0, b => .ok b.results
  | fuel + 1, b =>
    match Heap.pop (fun a b => Candidate.cmp b a) b.candidates with
    | none => .ok b.results
    | some (cand, rest) =>
      if (Heap.peek Candidate.cmp b.results).any fun worst =>
          cand.distance.partialCmp worst.distance = some .gt then .ok b.results
      else do
        let b ← (index.neighborsAt cand.nodeIdx layer).foldlM (index.visit F query ef)
          { b with candidates := rest }
        searchLoop index query ef layer fuel b

/-- The nodes closest to a query on a layer, up to `ef` of them, in ascending order of distance. Those at one
distance stay in the order in which they leave the heap. -/
def searchLayer (index : HnswIndex) (query : Bytes) (entryPoints : List ℕ) (ef layer : ℕ) :
    Except EdgestoreError (List (ℕ × F32)) := do
  let b ← entryPoints.foldlM (index.enter F query) {}
  let results ← index.searchLoop F query ef layer (index.nodes.length + entryPoints.length + 1) b
  return (F.intoIter layer (results.map fun c => (c.nodeIdx, c.distance))).mergeSort
    fun a b => totalCmpF32 a.2 b.2 ≠ .gt

/-- Go through layers, on each to the node that is found closest. -/
def descend (index : HnswIndex) (query : Bytes) (ef : ℕ) (layers : List ℕ) (curr : ℕ) :
    Except EdgestoreError ℕ :=
  layers.foldlM (fun curr layer => do
    let res ← index.searchLayer F query [curr] ef layer
    return (res.head?.map Prod.fst).getD curr) curr

/-- The layers above layer 0, from the top. -/
def upperLayers (index : HnswIndex) : List ℕ := (List.range' 1 index.maxLayer).reverse

/-- The keys closest to a query, in ascending order of distance. -/
def search (index : HnswIndex) (query : Bytes) (k ef : ℕ) :
    Except EdgestoreError (List (Bytes × F32)) :=
  match index.nodes with
  | [] => .ok []
  | [node] => do
    let dist ← index.distanceToNode F query 0
    return [(node.vectorId, dist)]
  | _ => do
    let ef := max ef k
    let curr ← index.descend F query (max ef 1) index.upperLayers index.entryPoint
    let layer0Results ← index.searchLayer F query [curr] ef 0
    let out := (layer0Results.take k).map fun p => (index.idOf p.1, p.2)
    return out.mergeSort fun a b => totalCmpF32 a.2 b.2 ≠ .gt

/-! ### Insertion -/

/-- Draw the layer of the next node. -/
def layerForNode (index : HnswIndex) : ℕ × HnswIndex :=
  let seed := (index.rngSeed * 6364136223846793005 + 1442695040888963407) % 2 ^ 64
  (F.layer index.m seed, { index with rngSeed := seed })

/-- No selected node is closer to a candidate than the new node is. -/
def isDiverse (index : HnswIndex) (candIdx : ℕ) (candDist : F32) (selected : List ℕ) : Bool :=
  selected.all fun selIdx =>
    match distance F (index.dataOf candIdx) (index.dataOf selIdx) index.dtype index.metric with
    | .ok d => candDist.partialCmp d ≠ some .gt
    | .error _ => false

/-- Sort candidates into selected and discarded ones, until `m` are selected. The first is selected
in any case. -/
def selectLoop (index : HnswIndex) (nodeIdx m : ℕ) :
    List (ℕ × F32) → List ℕ → List ℕ → List ℕ × List ℕ
  | [], selected, discarded => (selected, discarded)
  | (candIdx, candDist) :: candidates, selected, discarded =>
    if candIdx = nodeIdx then selectLoop index nodeIdx m candidates selected discarded
    else if selected = [] then selectLoop index nodeIdx m candidates [candIdx] discarded
    else
      let add := index.isDiverse F candIdx candDist selected
      let selected := if add then selected ++ [candIdx] else selected
      let discarded := if add then discarded else discarded ++ [candIdx]
      if m ≤ selected.length then (selected, discarded)
      else selectLoop index nodeIdx m candidates selected discarded

/-- Fill up to `m` selected nodes with discarded ones. -/
def fillLoop (m : ℕ) : List ℕ → List ℕ → List ℕ
  | [], selected => selected
  | d :: discarded, selected =>
    if d ∈ selected then fillLoop m discarded selected
    else if m ≤ (selected ++ [d]).length then selected ++ [d]
    else fillLoop m discarded (selected ++ [d])

/-- The neighbors of a new node: candidates, closest first, that are closer to it than to each other,
and others only if these are fewer than `m`. -/
def selectNeighbors (index : HnswIndex) (nodeIdx : ℕ) (candidates : List (ℕ × F32)) (m : ℕ) : List ℕ :=
  let (selected, discarded) := index.selectLoop F nodeIdx m candidates [] []
  (if selected.length < m then fillLoop m discarded selected else selected).take m

/-- Keep the `m` closest neighbors of a node on a layer. -/
def pruneNeighbors (index : HnswIndex) (nodeIdx layer m : ℕ) : HnswIndex :=
  let neighbors := index.neighborsAt nodeIdx layer
  if neighbors.length ≤ m then index
  else
    let neighborDists := neighbors.filterMap fun n =>
      if n = nodeIdx then none
      else (distance F (index.dataOf nodeIdx) (index.dataOf n) index.dtype index.metric).toOption.map
        fun d => (n, d)
    let sorted := neighborDists.mergeSort fun a b => (a.2.partialCmp b.2).getD .eq ≠ .gt
    index.setNeighbors nodeIdx layer ((sorted.take m).map Prod.fst)

/-- Connect a new node with a neighbor on a layer, in both directions if the neighbor has the layer. -/
def connect (nodeIdx l m : ℕ) (index : HnswIndex) (neighborIdx : ℕ) : HnswIndex :=
  if neighborIdx = nodeIdx then index
  else
    let index := index.setNeighbors nodeIdx l (index.neighborsAt nodeIdx l ++ [neighborIdx])
    if l < index.layerCount neighborIdx then
      let index := index.setNeighbors neighborIdx l (index.neighborsAt neighborIdx l ++ [nodeIdx])
      if m < (index.neighborsAt neighborIdx l).length then index.pruneNeighbors F neighborIdx l m
      else index
    else index

/-- Connect a new node on a layer. The closest node found there is the one to go on from. -/
def connectLayer (nodeIdx : ℕ) (vectorData : Bytes) (s : ℕ × HnswIndex) (l : ℕ) :
    Except EdgestoreError (ℕ × HnswIndex) := do
  let (curr, index) := s
  let knn ← index.searchLayer F vectorData [curr] index.efConstruction l
  let selected := index.selectNeighbors F nodeIdx knn index.m
  return ((knn.head?.map Prod.fst).getD curr, selected.foldl (connect F nodeIdx l index.m) index)

/-- Insert a vector. The number of its layers is a `usize`. -/
def insert (index : HnswIndex) (vectorId vectorData : Bytes) : Except EdgestoreError HnswIndex := do
  let (layer, index) := index.layerForNode F
  if 2 ^ 64 ≤ layer + 1 then .error (.panicked "attempt to add with overflow")
  else
    let nodeIdx := index.nodes.length
    let index := { index with
      nodes := index.nodes ++ [⟨vectorId, vectorData, List.replicate (layer + 1) []⟩] }
    if nodeIdx = 0 then return { index with entryPoint := 0, maxLayer := layer }
    else
      let top := min layer index.maxLayer
      let curr ← index.descend F vectorData 1 (List.range' (top + 1) (index.maxLayer - top)).reverse
        index.entryPoint
      let (_, index) ← (List.range (top + 1)).reverse.foldlM (connectLayer F nodeIdx vectorData)
        (curr, index)
      return if index.maxLayer < layer then { index with maxLayer := layer, entryPoint := nodeIdx }
        else index

end HnswIndex
