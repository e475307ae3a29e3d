import Edgestore.Disk
import Mathlib.Data.List.Sort

/-!
# Writing segments

`SegmentWriter.flush` writes a sorted list of entries as the four files of a segment. Entries are
packed into blocks until a block reaches its target size; every 64th key goes to the sparse index
together with the block it starts in.

Blocks are lists of entries, and offsets into a `.dat` file are block numbers: block `0` starts
behind the header.

## Main definitions

* `serializedLen`, `storedEntry`: the size of an entry in a block, and what is read back of it
* `writeDatAndIndex`: the blocks and the sparse index of a list of entries
* `segmentMetaFor`: the metadata of a segment
* `segmentFlush`: the effects of `SegmentWriter::flush`
-/

variable {X : Externals} {σ : Type}

/-- The target size of a block before compression. -/
def blockTargetBytes : ℕ := 3900

/-- The alignment of blocks. -/
def segmentBlockSize : ℕ := 4096

/-- The largest decompressed block a reader accepts. -/
def maxBlockDecompressed : ℕ := segmentBlockSize * 512

/-- How many entries a key of the sparse index stands for. -/
def sparseIndexStride : ℕ := 64

/-- The size of an entry in a block: key and value behind their lengths, and 21 bytes. -/
def serializedLen (p : Bytes × MemEntry) : ℕ :=
  4 + p.1.length + 4 + (p.2.value.getD []).length + 21

/-- What is read back of an entry: its key is the key it is stored under, and a tombstone has no
value. -/
def storedEntry (p : Bytes × MemEntry) : Bytes × MemEntry :=
  (p.1, { p.2 with
    key := p.1
    value := match p.2.op with
      | .put => some (p.2.value.getD [])
      | .delete => none })

/-- The size of a payload rounded up to whole blocks. -/
def alignedSize (payloadSize : ℕ) : ℕ :=
  if payloadSize % segmentBlockSize = 0 then payloadSize
  else (payloadSize / segmentBlockSize + 1) * segmentBlockSize

/-- The state of the loop that packs entries into blocks. -/
structure DatBuilder where
  blocks : Dat := []
  current : List (Bytes × MemEntry) := []
  currentLen : ℕ := 0
  index : SparseIndex := []
  compressedTotal : ℕ := 0
  uncompressedTotal : ℕ := 0
  count : ℕ := 0

namespace DatBuilder

/-- Write the current block to the file. -/
def flushBlock (X : Externals) (b : DatBuilder) : DatBuilder :=
  { b with
    blocks := b.blocks ++ [.decoded b.currentLen (b.current.map storedEntry)]
    compressedTotal := b.compressedTotal + alignedSize (8 + X.zstdLen b.current)
    current := []
    currentLen := 0 }

/-- Add one entry: to the sparse index, if its turn has come, and to the current block, which is
written when it has reached the target size. -/
def push (X : Externals) (b : DatBuilder) (p : Bytes × MemEntry) : DatBuilder :=
  let b' : DatBuilder :=
    { b with
      uncompressedTotal := b.uncompressedTotal + serializedLen p
      index :=
        if b.count % sparseIndexStride = 0 then b.index ++ [(p.1, b.blocks.length)] else b.index
      current := b.current ++ [p]
      currentLen := b.currentLen + serializedLen p
      count := b.count + 1 }
  if b'.currentLen ≥ blockTargetBytes then b'.flushBlock X else b'

/-- Write the last block, unless it is empty. -/
def finish (X : Externals) (b : DatBuilder) : DatBuilder :=
  if b.current = [] then b else b.flushBlock X

end DatBuilder

/-- The blocks and the sparse index of a list of entries, and the sizes reported for them. -/
def writeDatAndIndex (X : Externals) (entries : List (Bytes × MemEntry)) : DatBuilder :=
  (entries.foldl (DatBuilder.push X) {}).finish X

/-- The greatest element of a list, or a default. -/
def maxOr {α : Type} [LinearOrder α] (d : α) : List α → α
  | [] => d
  | a :: l => l.foldl max a

theorem le_maxOr {α : Type} [LinearOrder α] {d a : α} {l : List α} (h : a ∈ l) : a ≤ maxOr d l := by
  have hfold : ∀ (l : List α) (b : α), b ≤ l.foldl max b ∧ ∀ a ∈ l, a ≤ l.foldl max b := by
    intro l
    induction l with
    | nil => simp
    | cons c l ih =>
      intro b
      obtain ⟨hb, hl⟩ := ih (max b c)
      refine ⟨(le_max_left b c).trans hb, fun a ha => ?_⟩
      rcases List.mem_cons.mp ha with rfl | ha
      · exact (le_max_right b _).trans hb
      · exact hl a ha
  cases l with
  | nil => simp at h
  | cons b l =>
    rcases List.mem_cons.mp h with rfl | h
    · exact (hfold l _).1
    · exact (hfold l b).2 a h

/-- The least element of a list, or a default. -/
def minOr {α : Type} [LinearOrder α] (d : α) : List α → α
  | [] => d
  | a :: l => l.foldl min a

/-- The metadata that `SegmentWriter::flush` computes, from the entries and the built file. -/
def segmentMetaFor (X : Externals) (id : SegmentId) (cohortWindowSecs : ℕ)
    (entries : List (Bytes × MemEntry)) (built : DatBuilder) (cohortBucket createdAt : ℤ) :
    SegmentMeta where
  segmentId := id
  segmentHash := X.datHash built.blocks
  minKey := (entries.head?.map Prod.fst).getD []
  maxKey := (entries.getLast?.map Prod.fst).getD []
  minLsn := minOr 0 (entries.map fun p => p.2.lsn)
  maxLsn := maxOr 0 (entries.map fun p => p.2.lsn)
  recordCount := entries.length
  compressedBytes := built.compressedTotal
  uncompressedBytes := built.uncompressedTotal
  compression := "zstd:1"
  cohortBucket := cohortBucket
  deathTime := maxOr 0 (entries.map fun p => deathTimeFor p.2.timestamp p.2.ttl cohortWindowSecs)
  merkleRoot := X.blake3 ((entries.map fun p => X.blake3 p.1).insertionSort (· ≤ ·)).flatten
  createdAt := createdAt
  textIndexStripped := false
  vectorIndexStripped := false

/-- The files `SegmentWriter::flush` writes for segment `id`, and the metadata it returns. -/
def segmentFlush (id : SegmentId) (cohortWindowSecs : ℕ) (entries : List (Bytes × MemEntry)) :
    Exec X σ SegmentMeta := do
  match entries with
  | [] => Prog.throw (.segmentCorrupt "empty entries")
  | first :: _ =>
    let built := writeDatAndIndex X entries
    Exec.effect (.datWrite id built.blocks)
    Exec.effect (.sync (.seg id .dat))
    Exec.effect (.idxWrite id built.index)
    Exec.effect (.sync (.seg id .idx))
    Exec.effect (.xfWrite id (X.buildFilter (entries.map Prod.fst)))
    Exec.effect (.sync (.seg id .xf))
    let cohortBucket ← Prog.lift (cohortBucketFor first.2.timestamp first.2.ttl cohortWindowSecs)
    let nanos ← Exec.now
    let segMeta := segmentMetaFor X id cohortWindowSecs entries built cohortBucket (asI64 nanos)
    Exec.effect (.metaWrite id segMeta)
    return segMeta
