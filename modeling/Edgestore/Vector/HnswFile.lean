import Edgestore.Vector.Hnsw

/-!
# Index files

The file of a graph index: a header, and the nodes with their keys, vectors and neighbors. Numbers are
little-endian, and cut to the width of their field.

## Main definitions

* `HnswIndex.serialize`, `HnswIndex.deserialize`
* `HnswReader.Reads`: what a reader makes of some bytes
* `HnswReader.Yields`: what holds of the values that a reader reads
* `HnswIndex.Storable`: an index whose numbers have room in their fields

## Main results

* `HnswIndex.deserialize_serialize`: an index is read back, but for the seed of the generator
* `HnswIndex.storable_of_deserialize`: the numbers of an index that is read have room in their fields
-/

/-- The magic of an index file, `HNSW`. -/
def hnswMagic : Bytes := [72, 78, 83, 87]

/-- The version of the format. -/
def hnswVersion : ℕ := 1

namespace HnswNode

/-- A list of neighbors behind its length. -/
def serializeLayer (layerNeighbors : List ℕ) : Bytes :=
  leBytes 2 layerNeighbors.length ++ layerNeighbors.flatMap (leBytes 4)

/-- A node. -/
def serialize (node : HnswNode) : Bytes :=
  leBytes 4 node.vectorId.length ++ node.vectorId ++
    (leBytes 4 node.vectorData.length ++ node.vectorData ++
      (leBytes 2 node.neighbors.length ++ node.neighbors.flatMap serializeLayer))

end HnswNode

namespace HnswIndex

/-- The header of the file of an index. -/
def serializeHeader (index : HnswIndex) : Bytes :=
  hnswMagic ++ (leBytes 2 hnswVersion ++ (leBytes 2 index.maxLayer ++ (leBytes 4 index.entryPoint ++
    (leBytes 4 index.nodes.length ++ (leBytes 2 index.dims ++ ([index.dtype.toByte] ++
      ([index.metric.toByte] ++ (leBytes 2 index.m ++ leBytes 2 index.efConstruction))))))))

/-- The file of an index. -/
def serialize (index : HnswIndex) : Bytes :=
  index.serializeHeader ++ index.nodes.flatMap HnswNode.serialize

end HnswIndex

/-! ### Reading -/

/-- A reader of a part of an index file: what it read, and the bytes behind it. -/
abbrev HnswReader (α : Type) := StateT Bytes (Except EdgestoreError) α

namespace HnswReader

/-- Read `n` bytes. -/
def readBytes (n : ℕ) (field : String) : HnswReader Bytes := fun bs =>
  if bs.length < n then .error (.corruptData ("hnsw: truncated " ++ field))
  else .ok (bs.take n, bs.drop n)

/-- Read a number of `n` bytes. -/
def readNat (n : ℕ) (field : String) : HnswReader ℕ := do
  return ofLe (← readBytes n field)

/-- Fail. -/
def corrupt {α : Type} (msg : String) : HnswReader α := fun _ => .error (.corruptData ("hnsw: " ++ msg))

/-- Read `n` values. -/
def readMany {α : Type} (r : HnswReader α) : ℕ → HnswReader (List α)
  | 0 => return []
  | n + 1 => do
    let a ← r
    return a :: (← readMany r n)

/-- Read the neighbors of a node on a layer. -/
def readLayer : HnswReader (List ℕ) := do
  let neighborCount ← readNat 2 "neighbor_count"
  if 1000000 < neighborCount then corrupt "neighbor_count too large"
  else readMany (readNat 4 "neighbor_idx") neighborCount

/-- Read a node. -/
def readNode : HnswReader HnswNode := do
  let idLen ← readNat 4 "id_len"
  let vectorId ← readBytes idLen "vector_id"
  let dataLen ← readNat 4 "data_len"
  let vectorData ← readBytes dataLen "vector_data"
  let layerCount ← readNat 2 "layer_count"
  let neighbors ← readMany readLayer layerCount
  return ⟨vectorId, vectorData, neighbors⟩

/-- Read the type of the elements of a vector. -/
def dtypeOf (b : ℕ) : HnswReader Dtype :=
  match b with
  | 0 => return .f32
  | 1 => return .f16
  | 2 => return .i8
  | b => corrupt ("unknown dtype " ++ toString b)

/-- Read a metric. -/
def metricOf (b : ℕ) : HnswReader Metric :=
  match b with
  | 0 => return .cosine
  | 1 => return .l2
  | 2 => return .dotProduct
  | b => corrupt ("unknown metric " ++ toString b)

/-- Read an index. -/
def readIndex : HnswReader HnswIndex := do
  let magic ← readBytes 4 "magic"
  if magic ≠ hnswMagic then corrupt "invalid magic"
  else
    let version ← readNat 2 "version"
    if version ≠ hnswVersion then corrupt ("unsupported version " ++ toString version)
    else
      let maxLayer ← readNat 2 "max_layer"
      let entryPoint ← readNat 4 "entry_point"
      let nodeCount ← readNat 4 "node_count"
      let dims ← readNat 2 "dims"
      let dtypeByte ← readNat 1 "dtype"
      let metricByte ← readNat 1 "metric"
      let m ← readNat 2 "m"
      let efConstruction ← readNat 2 "ef_construction"
      let dtype ← dtypeOf dtypeByte
      let metric ← metricOf metricByte
      if 10000000 < nodeCount then corrupt "node_count too large"
      else
        let nodes ← readMany readNode nodeCount
        return {
          nodes := nodes
          entryPoint := entryPoint
          maxLayer := maxLayer
          m := m
          efConstruction := efConstruction
          dims := dims
          dtype := dtype
          metric := metric }

end HnswReader

/-- Read the file of an index. The seed of the generator is not in the file. -/
def HnswIndex.deserialize (bytes : Bytes) : Except EdgestoreError HnswIndex :=
  if bytes.length < 22 then .error (.corruptData "hnsw: truncated header")
  else (HnswReader.readIndex bytes).map Prod.fst

/-! ### What is written is read back -/

namespace HnswReader

variable {α β : Type} {r : HnswReader α} {f : α → HnswReader β} {a : α} {b : β} {bs bs' : Bytes}

/-- A reader takes some bytes for a value, whatever is behind them. -/
def Reads (r : HnswReader α) (bs : Bytes) (a : α) : Prop := ∀ rest, r (bs ++ rest) = .ok (a, rest)

theorem Reads.pure (a : α) : Reads (pure a) [] a := fun _ => rfl

/-- A reader after another one. -/
theorem Reads.bind (hr : r.Reads bs a) (hf : (f a).Reads bs' b) : (r >>= f).Reads (bs ++ bs') b := by
  intro rest
  rw [List.append_assoc]
  change (r (bs ++ (bs' ++ rest)) >>= fun p => f p.1 p.2) = _
  rw [hr]
  exact hf rest

/-- A reader that reads no bytes. -/
theorem Reads.bind_nil (hr : r.Reads [] a) (hf : (f a).Reads bs b) : (r >>= f).Reads bs b := hr.bind hf

/-- A reader after which no more is read. -/
theorem Reads.bind_pure (hr : r.Reads bs a) (hf : f a = Pure.pure b) : (r >>= f).Reads bs b := by
  have hnil : (f a).Reads [] b := by
    rw [hf]
    exact .pure b
  have h := hr.bind hnil
  rwa [List.append_nil] at h

theorem reads_readBytes {n : ℕ} {field : String} (h : bs.length = n) : (readBytes n field).Reads bs bs := by
  intro rest
  subst h
  unfold readBytes
  rw [if_neg (by rw [List.length_append]; omega), List.take_left, List.drop_left]

theorem reads_readNat {w n : ℕ} {field : String} (h : n < 256 ^ w) :
    (readNat w field).Reads (leBytes w n) n := by
  refine (reads_readBytes (length_leBytes w n)).bind_pure ?_
  rw [ofLe_leBytes_of_lt h]

/-- A number of one byte. -/
theorem reads_readNat_byte {field : String} (c : Byte) : (readNat 1 field).Reads [c] c.val := by
  have hbyte : (readBytes 1 field).Reads [c] [c] := reads_readBytes rfl
  refine hbyte.bind_pure ?_
  rw [ofLe, ofLe, Nat.mul_zero, Nat.add_zero]

/-- Values one behind the other. -/
theorem reads_readMany {enc : α → Bytes} {l : List α} (h : ∀ a ∈ l, r.Reads (enc a) a) :
    (readMany r l.length).Reads (l.flatMap enc) l := by
  induction l with
  | nil => exact .pure []
  | cons a l ih =>
    rw [List.flatMap_cons, List.length_cons, readMany]
    refine (h a List.mem_cons_self).bind ?_
    exact (ih fun a' ha' => h a' (List.mem_cons_of_mem _ ha')).bind_pure rfl

end HnswReader

open HnswReader

/-- A node whose lengths and neighbors have room in their fields. -/
structure HnswNode.Storable (node : HnswNode) : Prop where
  vectorId : node.vectorId.length < 256 ^ 4
  vectorData : node.vectorData.length < 256 ^ 4
  layers : node.neighbors.length < 256 ^ 2
  neighbors : ∀ l ∈ node.neighbors, l.length < 256 ^ 2 ∧ ∀ i ∈ l, i < 256 ^ 4

/-- An index whose numbers have room in their fields, and that has no more nodes than are read. -/
structure HnswIndex.Storable (index : HnswIndex) : Prop where
  maxLayer : index.maxLayer < 256 ^ 2
  entryPoint : index.entryPoint < 256 ^ 4
  length_nodes : index.nodes.length ≤ 10000000
  dims : index.dims < 256 ^ 2
  m : index.m < 256 ^ 2
  efConstruction : index.efConstruction < 256 ^ 2
  nodes : ∀ node ∈ index.nodes, node.Storable

/-- The neighbors of a node on a layer are read back. -/
theorem reads_readLayer {l : List ℕ} (hlen : l.length < 256 ^ 2) (hl : ∀ i ∈ l, i < 256 ^ 4) :
    readLayer.Reads (HnswNode.serializeLayer l) l := by
  refine (reads_readNat hlen).bind ?_
  rw [if_neg (by omega)]
  exact reads_readMany fun i hi => reads_readNat (hl i hi)

/-- A node is read back. -/
theorem reads_readNode {node : HnswNode} (h : node.Storable) : readNode.Reads node.serialize node := by
  rw [HnswNode.serialize, List.append_assoc, List.append_assoc]
  refine (reads_readNat h.vectorId).bind ?_
  refine (reads_readBytes rfl).bind ?_
  refine (reads_readNat h.vectorData).bind ?_
  refine (reads_readBytes rfl).bind ?_
  refine (reads_readNat h.layers).bind ?_
  exact (reads_readMany fun l hl => reads_readLayer (h.neighbors l hl).1 (h.neighbors l hl).2).bind_pure rfl

theorem reads_dtypeOf (dtype : Dtype) : (dtypeOf dtype.toByte.val).Reads [] dtype := by
  cases dtype <;> exact .pure _

theorem reads_metricOf (metric : Metric) : (metricOf metric.toByte.val).Reads [] metric := by
  cases metric <;> exact .pure _

namespace HnswIndex

variable {index : HnswIndex}

theorem reads_readIndex (h : index.Storable) :
    readIndex.Reads index.serialize { index with rngSeed := 12345 } := by
  simp only [serialize, serializeHeader, List.append_assoc]
  have hmagic : (HnswReader.readBytes 4 "magic").Reads hnswMagic hnswMagic := reads_readBytes rfl
  refine hmagic.bind ?_
  rw [if_neg (not_not.mpr rfl)]
  refine (reads_readNat (by decide)).bind ?_
  rw [if_neg (not_not.mpr rfl)]
  refine (reads_readNat h.maxLayer).bind ?_
  refine (reads_readNat h.entryPoint).bind ?_
  refine (reads_readNat (h.length_nodes.trans_lt (by decide))).bind ?_
  refine (reads_readNat h.dims).bind ?_
  refine (reads_readNat_byte _).bind ?_
  refine (reads_readNat_byte _).bind ?_
  refine (reads_readNat h.m).bind ?_
  refine (reads_readNat h.efConstruction).bind ?_
  refine (reads_dtypeOf _).bind_nil ?_
  refine (reads_metricOf _).bind_nil ?_
  rw [if_neg (not_lt.mpr h.length_nodes)]
  exact (reads_readMany fun node hnode => reads_readNode (h.nodes node hnode)).bind_pure rfl

/-- **An index is read back**, but for the seed of the generator. -/
theorem deserialize_serialize (h : index.Storable) :
    deserialize index.serialize = .ok { index with rngSeed := 12345 } := by
  have hlen : ¬ index.serialize.length < 22 := by
    simp only [serialize, serializeHeader, hnswMagic, List.length_append, length_leBytes,
      List.length_cons, List.length_nil]
    omega
  have hread := reads_readIndex h []
  rw [List.append_nil] at hread
  rw [deserialize, if_neg hlen, hread]
  rfl

end HnswIndex

/-! ### What is read has room in its fields -/

namespace HnswReader

variable {α β : Type} {r : HnswReader α} {f : α → HnswReader β} {P : α → Prop} {Q : β → Prop}

/-- The values that a reader reads have a property. -/
def Yields (r : HnswReader α) (P : α → Prop) : Prop := ∀ bs a rest, r bs = .ok (a, rest) → P a

theorem Yields.pure {a : α} (ha : P a) : Yields (Pure.pure a) P := by
  intro bs a' rest h
  cases h
  exact ha

theorem Yields.bind (hr : r.Yields P) (hf : ∀ a, P a → (f a).Yields Q) : (r >>= f).Yields Q := by
  intro bs b rest h
  change (r bs >>= fun p => f p.1 p.2) = _ at h
  obtain ⟨⟨a, bs'⟩, hread, h⟩ := Except.bind_eq_ok.mp h
  exact hf a (hr bs a bs' hread) bs' b rest h

theorem yields_corrupt (msg : String) : (corrupt msg : HnswReader α).Yields P := nofun

theorem yields_true : r.Yields fun _ => True := fun _ _ _ _ => trivial

theorem yields_readBytes (n : ℕ) (field : String) : (readBytes n field).Yields fun bs => bs.length = n := by
  intro bs bs' rest h
  unfold readBytes at h
  split at h
  case isTrue => cases h
  case isFalse hlen =>
    cases h
    rw [List.length_take]
    omega

theorem yields_readNat (n : ℕ) (field : String) : (readNat n field).Yields fun v => v < 256 ^ n :=
  (yields_readBytes n field).bind fun bs hbs => Yields.pure (hbs ▸ ofLe_lt bs)

theorem yields_readMany (hr : r.Yields P) (n : ℕ) :
    (readMany r n).Yields fun l => l.length = n ∧ ∀ a ∈ l, P a := by
  induction n with
  | zero => exact Yields.pure ⟨rfl, fun a ha => absurd ha List.not_mem_nil⟩
  | succ n ih =>
    unfold readMany
    refine hr.bind fun a ha => ih.bind fun l hl => Yields.pure ?_
    exact ⟨congrArg (· + 1) hl.1, List.forall_mem_cons.mpr ⟨ha, hl.2⟩⟩

theorem yields_readLayer : readLayer.Yields fun l => l.length < 256 ^ 2 ∧ ∀ i ∈ l, i < 256 ^ 4 := by
  refine (yields_readNat 2 _).bind fun count hcount => ?_
  split
  · exact yields_corrupt _
  · intro bs l rest h
    obtain ⟨hlen, hl⟩ := yields_readMany (yields_readNat 4 _) count bs l rest h
    exact ⟨hlen.trans_lt hcount, hl⟩

theorem yields_readNode : readNode.Yields HnswNode.Storable := by
  refine (yields_readNat 4 _).bind fun idLen hidLen => ?_
  refine (yields_readBytes idLen _).bind fun vectorId hid => ?_
  refine (yields_readNat 4 _).bind fun dataLen hdataLen => ?_
  refine (yields_readBytes dataLen _).bind fun vectorData hdata => ?_
  refine (yields_readNat 2 _).bind fun layerCount hcount => ?_
  refine (yields_readMany yields_readLayer layerCount).bind fun neighbors hneighbors => Yields.pure ?_
  exact ⟨hid.trans_lt hidLen, hdata.trans_lt hdataLen, hneighbors.1.trans_lt hcount, hneighbors.2⟩

theorem yields_readIndex : readIndex.Yields fun index => index.Storable ∧ index.rngSeed = 12345 := by
  refine yields_true.bind fun magic _ => ?_
  split
  · exact yields_corrupt _
  refine yields_true.bind fun version _ => ?_
  split
  · exact yields_corrupt _
  refine (yields_readNat 2 _).bind fun maxLayer hmaxLayer => ?_
  refine (yields_readNat 4 _).bind fun entryPoint hentryPoint => ?_
  refine yields_true.bind fun nodeCount _ => ?_
  refine (yields_readNat 2 _).bind fun dims hdims => ?_
  refine yields_true.bind fun dtypeByte _ => ?_
  refine yields_true.bind fun metricByte _ => ?_
  refine (yields_readNat 2 _).bind fun m hm => ?_
  refine (yields_readNat 2 _).bind fun efConstruction hef => ?_
  refine yields_true.bind fun dtype _ => ?_
  refine yields_true.bind fun metric _ => ?_
  split
  · exact yields_corrupt _
  case isFalse hcount =>
    refine (yields_readMany yields_readNode nodeCount).bind fun nodes hnodes => Yields.pure ?_
    exact ⟨⟨hmaxLayer, hentryPoint, hnodes.1.trans_le (not_lt.mp hcount), hdims, hm, hef, hnodes.2⟩, rfl⟩

end HnswReader

namespace HnswIndex

variable {index : HnswIndex}

/-- **An index that is read**: its numbers have room in their fields, and the seed is the first one. -/
theorem read_of_deserialize {bytes : Bytes} (h : deserialize bytes = .ok index) :
    index.Storable ∧ index.rngSeed = 12345 := by
  unfold deserialize at h
  split at h
  case isTrue => cases h
  case isFalse =>
    cases hread : readIndex bytes with
    | error e =>
      rw [hread] at h
      cases h
    | ok p =>
      rw [hread] at h
      cases h
      exact yields_readIndex bytes p.1 p.2 hread

theorem storable_of_deserialize {bytes : Bytes} (h : deserialize bytes = .ok index) : index.Storable :=
  (read_of_deserialize h).1

end HnswIndex
