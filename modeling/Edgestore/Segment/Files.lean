import Edgestore.Segment.Flush
import Edgestore.Segment.Walk
import Edgestore.PlainExternals

/-!
# The files of a segment, byte by byte

What `SegmentWriter::flush` writes to the `.dat`, `.idx` and `.xf` files of a segment, and how
`SegmentReader` reads them back. The bytes are those of the blocks that the packing loop makes, and
the offsets of the sparse index are the offsets of these blocks; so a reader of the bytes answers
like a reader of the blocks, and that one like the list of entries.

The `.meta` file is JSON; it is modelled by the metadata it holds.

## Main definitions

* `Raw.DatWriter`, `Raw.SegmentWriter.flush`: the writer
* `Raw.SegmentReader`, with `open`, `get`, `rangeScan`; `Raw.SegmentCursor.open`
* `Raw.DatWriter.Represents w b`: the bytes `w` are those of the blocks `b`

## Main results

* `Raw.represents_writeDatAndIndex`: the writer of bytes and the writer of blocks agree
* `flushed_segment_answers`: a flushed segment answers like the list it was built from
-/

variable {X : Externals} {Z : Zstd}

namespace Raw

/-! ### Writing -/

/-- The header of a `.dat` file: the magic, the version and three zeros. -/
def segmentHeader : Bytes := leBytes 4 segmentBlockMagic ++ [1, 0, 0, 0]

/-- The state of the loop that writes a `.dat` file. -/
structure DatWriter where
  dat : Bytes := segmentHeader
  currentBlock : Bytes := []
  sparseIndex : List (Bytes × ℕ) := []
  blockStartOffset : ℕ := segmentHeaderLen
  fileOffset : ℕ := segmentHeaderLen
  compressedTotal : ℕ := 0
  uncompressedTotal : ℕ := 0
  idx : ℕ := 0
  deriving DecidableEq, Repr

namespace DatWriter

/-- Write the current block to the file. -/
def flushBlock (Z : Zstd) (w : DatWriter) : DatWriter :=
  let written := (flushBlockToFile Z w.currentBlock).length
  { w with
    dat := w.dat ++ flushBlockToFile Z w.currentBlock
    compressedTotal := w.compressedTotal + written
    fileOffset := w.fileOffset + written
    blockStartOffset := w.fileOffset + written
    currentBlock := [] }

/-- Write one entry: its key to the sparse index, if its turn has come, and its bytes to the current
block, which is written when it has reached the target size. -/
def push (Z : Zstd) (w : DatWriter) (p : Bytes × MemEntry) : DatWriter :=
  let serialized := serializeEntry p
  let w' : DatWriter :=
    { w with
      uncompressedTotal := w.uncompressedTotal + serialized.length
      sparseIndex :=
        if w.idx % sparseIndexStride = 0 then w.sparseIndex ++ [(p.1, w.blockStartOffset)]
        else w.sparseIndex
      currentBlock := w.currentBlock ++ serialized
      idx := w.idx + 1 }
  if w'.currentBlock.length ≥ blockTargetBytes then w'.flushBlock Z else w'

/-- Write the last block, unless it is empty. -/
def finish (Z : Zstd) (w : DatWriter) : DatWriter :=
  if w.currentBlock = [] then w else w.flushBlock Z

end DatWriter

/-- Write the blocks and the sparse index of a list of entries. -/
def writeDatAndIndex (Z : Zstd) (entries : List (Bytes × MemEntry)) : DatWriter :=
  (entries.foldl (DatWriter.push Z) {}).finish Z

/-- The bytes of an `.idx` file: a count, and keys with their offsets. -/
def writeIdxFile (index : List (Bytes × ℕ)) : Bytes :=
  leBytes 8 index.length ++
    index.flatMap fun p => leBytes 4 p.1.length ++ (p.1 ++ leBytes 8 p.2)

/-- The bytes of an `.xf` file: the seed, the block length, and the fingerprints behind their number. -/
def writeXfFile (filter : XorFilter) : Bytes :=
  leBytes 8 filter.seed ++ (leBytes 8 filter.blockLength ++
    (leBytes 8 filter.fingerprints.length ++ filter.fingerprints))

/-- The four files of a segment. -/
structure SegmentFiles where
  dat : Bytes
  idx : Bytes
  xf : Bytes
  segMeta : SegmentMeta
  deriving DecidableEq, Repr

/-- Write a segment: its files, with the metadata returned for it. -/
def SegmentWriter.flush (X : Externals) (Z : Zstd) (id : SegmentId) (cohortWindowSecs nanos : ℕ)
    (entries : List (Bytes × MemEntry)) : Except EdgestoreError SegmentFiles :=
  match entries with
  | [] => .error (.segmentCorrupt "empty entries")
  | first :: _ => do
    let w := writeDatAndIndex Z entries
    let keys := entries.map Prod.fst
    let filter := X.buildFilter keys
    let cohortBucket ← cohortBucketFor first.2.timestamp first.2.ttl cohortWindowSecs
    let segMeta : SegmentMeta := {
      segmentId := id
      segmentHash := X.blake3 w.dat
      minKey := (keys.head?).getD []
      maxKey := (keys.getLast?).getD []
      minLsn := minOr 0 (entries.map fun p => p.2.lsn)
      maxLsn := maxOr 0 (entries.map fun p => p.2.lsn)
      recordCount := entries.length
      compressedBytes := w.compressedTotal
      uncompressedBytes := w.uncompressedTotal
      compression := "zstd:1"
      cohortBucket := cohortBucket
      deathTime :=
        maxOr 0 (entries.map fun p => deathTimeFor p.2.timestamp p.2.ttl cohortWindowSecs)
      merkleRoot := X.blake3 ((keys.map X.blake3).insertionSort (· ≤ ·)).flatten
      createdAt := asI64 nanos
      textIndexStripped := false
      vectorIndexStripped := false }
    return ⟨w.dat, writeIdxFile w.sparseIndex, writeXfFile filter, segMeta⟩

/-! ### Reading -/

/-- Read `n` bytes, or fail with the message of a file that is too short. -/
def readExact (n : ℕ) (msg : String) : RecordReader Bytes := fun (buf, pos) =>
  if buf.length < n then .error (.segmentCorrupt msg) else .ok (buf.take n, (buf.drop n, pos + n))

/-- Read keys and offsets. -/
def readIdxEntries : ℕ → RecordReader (List (Bytes × ℕ))
  | 0 => pure []
  | n + 1 => do
    let keyLen := ofLe (← readExact 4 "idx: truncated key_len")
    let key ← readExact keyLen "idx: truncated key"
    let offset := ofLe (← readExact 8 "idx: truncated offset")
    return (key, offset) :: (← readIdxEntries n)

/-- Read an `.idx` file. -/
def readIdxFile (bs : Bytes) : Except EdgestoreError (List (Bytes × ℕ)) :=
  (do
    let count := ofLe (← readExact 8 "idx: truncated count")
    if count > maxIndexCount then
      liftM (.error (.segmentCorrupt "idx: count too large") : Except EdgestoreError (List (Bytes × ℕ)))
    else readIdxEntries count : RecordReader (List (Bytes × ℕ))).run' (bs, 0)

/-- Read an `.xf` file. -/
def readXfFile (bs : Bytes) : Except EdgestoreError XorFilter :=
  (do
    let seed := ofLe (← readExact 8 "xf: truncated seed")
    let blockLength := ofLe (← readExact 8 "xf: truncated block_length")
    let fpLen := ofLe (← readExact 8 "xf: truncated fingerprints_len")
    if fpLen > maxFingerprints then
      liftM (.error (.segmentCorrupt "xf: fingerprints_len too large") : Except EdgestoreError XorFilter)
    else return ⟨seed, blockLength, ← readExact fpLen "xf: truncated fingerprints"⟩ :
      RecordReader XorFilter).run' (bs, 0)

/-- A reader of the files of a segment. -/
structure SegmentReader where
  segMeta : SegmentMeta
  filter : XorFilter
  index : List (Bytes × ℕ)
  deriving DecidableEq, Repr

/-- The offset from which to look for a key: that of the last index key up to it, that of the first
index key, or the end of the header. -/
def findBlockOffset (index : List (Bytes × ℕ)) (queryKey : Bytes) : ℕ :=
  match (index.takeWhile fun p => p.1 ≤ queryKey).getLast? with
  | some p => p.2
  | none =>
    match index.head? with
    | some p => p.2
    | none => 8

namespace SegmentReader

/-- Open the files of a segment. -/
def «open» (files : SegmentFiles) : Except EdgestoreError SegmentReader := do
  let filter ← readXfFile files.xf
  let index ← readIdxFile files.idx
  return ⟨files.segMeta, filter, index⟩

/-- Look up a single key. -/
def get (X : Externals) (Z : Zstd) (files : SegmentFiles) (r : SegmentReader) (key : Bytes) :
    Except EdgestoreError (Option MemEntry) :=
  if X.filterContains r.filter key = false then .ok none
  else getFrom Z key files.dat (findBlockOffset r.index key)

/-- The entries with `start ≤ key < end`. -/
def rangeScan (Z : Zstd) (files : SegmentFiles) (r : SegmentReader) (start «end» : Bytes) :
    Except EdgestoreError (List (Bytes × MemEntry)) :=
  if «end» < r.segMeta.minKey ∨ r.segMeta.maxKey < start then .ok []
  else
    scanFrom Z (fun k => start ≤ k) (fun k => «end» ≤ k) files.dat (findBlockOffset r.index start)

end SegmentReader

/-- Open a cursor over `[start, end)`; `none` when the key range of the segment does not meet it. -/
def SegmentCursor.open (r : SegmentReader) (start «end» : Bytes) : Option SegmentCursor :=
  if «end» ≤ r.segMeta.minKey ∨ r.segMeta.maxKey < start then none
  else some ⟨findBlockOffset r.index start, [], false⟩

/-! ### The writer of bytes and the writer of blocks -/

/-- The offset of a block of a file. -/
def offsetOf (Z : Zstd) (dat : Dat) (n : ℕ) : ℕ :=
  segmentHeaderLen + (encodeBlocks Z (dat.take n)).length

@[simp] theorem length_segmentHeader : segmentHeader.length = segmentHeaderLen := rfl

/-- The bytes behind the offset of a block are those of the blocks from there on. -/
theorem drop_offsetOf (dat : Dat) (n : ℕ) :
    (segmentHeader ++ encodeBlocks Z dat).drop (offsetOf Z dat n) = encodeBlocks Z (dat.drop n) := by
  rw [offsetOf, ← length_segmentHeader, List.drop_length_add_append]
  conv_lhs => rw [← List.take_append_drop n dat, encodeBlocks_append]
  rw [List.take_append_drop, List.drop_left]

/-- The bytes `w` are those of the blocks `b`. -/
structure DatWriter.Represents (Z : Zstd) (w : DatWriter) (b : DatBuilder) : Prop where
  dat : w.dat = segmentHeader ++ encodeBlocks Z b.blocks
  currentBlock : w.currentBlock = b.current.flatMap serializeEntry
  currentLen : b.currentLen = (b.current.flatMap serializeEntry).length
  blockStart : w.blockStartOffset = w.dat.length
  fileOffset : w.fileOffset = w.dat.length
  index : w.sparseIndex = b.index.map fun q => (q.1, offsetOf Z b.blocks q.2)
  index_le : ∀ q ∈ b.index, q.2 ≤ b.blocks.length
  idx : w.idx = b.count
  sizes : ∀ c ∈ b.blocks, c.size = (c.entries.flatMap serializeEntry).length
  stored : ∀ p ∈ b.current, storedEntry p = p

namespace DatWriter

theorem represents_empty : ({} : DatWriter).Represents Z {} where
  dat := by simp
  currentBlock := rfl
  currentLen := rfl
  blockStart := rfl
  fileOffset := rfl
  index := rfl
  index_le := by simp
  idx := rfl
  sizes := by simp
  stored := by simp

/-- Writing the current block. -/
theorem Represents.flushBlock {w : DatWriter} {b : DatBuilder} (h : w.Represents Z b) :
    (w.flushBlock Z).Represents Z (b.flushBlock X) := by
  have hmap : b.current.map storedEntry = b.current :=
    (List.map_congr_left h.stored).trans (List.map_id _)
  have hblocks : (b.flushBlock X).blocks = b.blocks ++ [.decoded b.currentLen b.current] := by
    simp only [DatBuilder.flushBlock, hmap]
  have hdat : (w.flushBlock Z).dat = w.dat ++ flushBlockToFile Z w.currentBlock := rfl
  constructor
  case dat =>
    rw [hdat, hblocks, h.dat, h.currentBlock, encodeBlocks_append, encodeBlocks_cons,
      encodeBlocks_nil, List.append_nil, List.append_assoc, Block.entries]
  case currentBlock => rfl
  case currentLen => rfl
  case blockStart =>
    show w.fileOffset + _ = (w.dat ++ _).length
    rw [h.fileOffset, List.length_append]
  case fileOffset =>
    show w.fileOffset + _ = (w.dat ++ _).length
    rw [h.fileOffset, List.length_append]
  case index =>
    show w.sparseIndex = b.index.map _
    rw [h.index, hblocks]
    apply List.map_congr_left
    intro q hq
    rw [offsetOf, offsetOf, List.take_append_of_le_length (h.index_le q hq)]
  case index_le =>
    intro q hq
    rw [hblocks, List.length_append]
    exact (h.index_le q hq).trans (Nat.le_add_right _ _)
  case idx => exact h.idx
  case sizes =>
    intro c hc
    rw [hblocks] at hc
    rcases List.mem_append.mp hc with hc | hc
    · exact h.sizes c hc
    · rw [List.mem_singleton.mp hc]
      exact h.currentLen
  case stored =>
    intro p hp
    cases hp

/-- Writing an entry. -/
theorem Represents.push {w : DatWriter} {b : DatBuilder} {p : Bytes × MemEntry}
    (h : w.Represents Z b) (hp : storedEntry p = p) :
    (w.push Z p).Represents Z (b.push X p) := by
  -- before the block is written, only the sparse index has grown, by the key and its block
  have hgrown : DatWriter.Represents Z
      { w with
        uncompressedTotal := w.uncompressedTotal + (serializeEntry p).length
        sparseIndex :=
          if w.idx % sparseIndexStride = 0 then w.sparseIndex ++ [(p.1, w.blockStartOffset)]
          else w.sparseIndex
        currentBlock := w.currentBlock ++ serializeEntry p
        idx := w.idx + 1 }
      { b with
        uncompressedTotal := b.uncompressedTotal + serializedLen p
        index :=
          if b.count % sparseIndexStride = 0 then b.index ++ [(p.1, b.blocks.length)] else b.index
        current := b.current ++ [p]
        currentLen := b.currentLen + serializedLen p
        count := b.count + 1 } := by
    refine ⟨h.dat, ?_, ?_, h.blockStart, h.fileOffset, ?_, ?_, ?_, h.sizes, ?_⟩
    · simp only [h.currentBlock, List.flatMap_append, List.flatMap_singleton]
    · simp only [h.currentLen, List.flatMap_append, List.flatMap_singleton, List.length_append,
        length_serializeEntry]
    · simp only [h.idx]
      split
      · have hlast : w.blockStartOffset = offsetOf Z b.blocks b.blocks.length := by
          rw [h.blockStart, h.dat, offsetOf, List.take_length, List.length_append,
            length_segmentHeader]
        rw [List.map_append, h.index, hlast]
        rfl
      · exact h.index
    · intro q hq
      simp only at hq ⊢
      split at hq
      · rcases List.mem_append.mp hq with hq | hq
        · exact h.index_le q hq
        · rw [List.mem_singleton.mp hq]
      · exact h.index_le q hq
    · simp only [h.idx]
    · intro q hq
      rcases List.mem_append.mp hq with hq | hq
      · exact h.stored q hq
      · rw [List.mem_singleton.mp hq, hp]
  have hlen : (w.currentBlock ++ serializeEntry p).length = b.currentLen + serializedLen p := by
    rw [h.currentBlock, h.currentLen, List.length_append, length_serializeEntry]
  simp only [DatWriter.push, DatBuilder.push, hlen]
  split
  · exact hgrown.flushBlock
  · exact hgrown

/-- Writing the last block, unless it is empty. -/
theorem Represents.finish {w : DatWriter} {b : DatBuilder} (h : w.Represents Z b) :
    (w.finish Z).Represents Z (b.finish X) := by
  have hempty : w.currentBlock = [] ↔ b.current = [] := by
    rw [h.currentBlock]
    constructor
    · intro hnil
      cases hcur : b.current with
      | nil => rfl
      | cons p es =>
        rw [hcur, List.flatMap_cons] at hnil
        have hlen := congrArg List.length hnil
        rw [List.length_append, length_serializeEntry, serializedLen, List.length_nil] at hlen
        omega
    · intro hnil
      rw [hnil]
      rfl
  simp only [DatWriter.finish, DatBuilder.finish, hempty]
  split
  · exact h
  · exact h.flushBlock

end DatWriter

end Raw

section Flush

variable {entries : List (Bytes × MemEntry)}

/-- **The writer of bytes** and the writer of blocks agree. -/
theorem represents_writeDatAndIndex (h : ∀ p ∈ entries, storedEntry p = p) :
    (Raw.writeDatAndIndex Z entries).Represents Z (writeDatAndIndex X entries) := by
  have hfold : ∀ (es : List (Bytes × MemEntry)) (w : Raw.DatWriter) (b : DatBuilder),
      (∀ p ∈ es, storedEntry p = p) → w.Represents Z b →
      (es.foldl (Raw.DatWriter.push Z) w).Represents Z (es.foldl (DatBuilder.push X) b) := by
    intro es
    induction es with
    | nil => exact fun _ _ _ hw => hw
    | cons p es ih =>
      intro w b hes hw
      exact ih _ _ (fun q hq => hes q (by simp [hq])) (hw.push (hes p (by simp)))
  exact (hfold entries _ _ h Raw.DatWriter.represents_empty).finish

/-- The packing loop makes blocks that were written, when no block is too large for a reader. -/
theorem written_writeDatAndIndex (Z : Zstd) (hs : KeySorted entries) (hrange : ∀ p ∈ entries, EntryInRange p)
    (hblocks : ∀ b ∈ (writeDatAndIndex X entries).blocks, b.size ≤ maxBlockDecompressed) :
    ∀ b ∈ (writeDatAndIndex X entries).blocks, b.Written := by
  intro b hb
  obtain ⟨size, es, rfl, -, -⟩ := (packs_writeDatAndIndex (X := X) hs).1.blocks b hb
  have hsize : size = (es.flatMap serializeEntry).length :=
    (represents_writeDatAndIndex (Z := Z) fun p hp => (hrange p hp).stored).sizes _ hb
  have hle : size ≤ maxBlockDecompressed := hblocks _ hb
  refine ⟨es, by rw [← hsize], by rwa [← hsize], fun p hp => ?_⟩
  have htable : p ∈ Dat.table (writeDatAndIndex X entries).blocks :=
    List.mem_flatMap.mpr ⟨_, hb, hp⟩
  rw [table_writeDatAndIndex hs] at htable
  obtain ⟨q, hq, rfl⟩ := List.mem_map.mp htable
  rw [(hrange q hq).stored]
  exact hrange q hq

theorem length_flatMap_le {α β : Type} {f : α → List β} {n : ℕ} {l : List α}
    (h : ∀ a ∈ l, (f a).length ≤ n) : (l.flatMap f).length ≤ l.length * n := by
  induction l with
  | nil => simp
  | cons a l ih =>
    have ha := h a (by simp)
    have hl := ih fun b hb => h b (by simp [hb])
    rw [List.flatMap_cons, List.length_append, List.length_cons, Nat.succ_mul]
    omega

theorem length_le_length_flatMap {α β : Type} {f : α → List β} {l : List α}
    (h : ∀ a ∈ l, f a ≠ []) : l.length ≤ (l.flatMap f).length := by
  induction l with
  | nil => simp
  | cons a l ih =>
    have ha := List.length_pos_iff.mpr (h a (by simp))
    have hl := ih fun b hb => h b (by simp [hb])
    rw [List.flatMap_cons, List.length_append, List.length_cons]
    omega

namespace DatBuilder

/-- Writing a block leaves the sparse index and the count. -/
theorem index_push (b : DatBuilder) (p : Bytes × MemEntry) :
    (b.push X p).index = (if b.count % sparseIndexStride = 0 then
      b.index ++ [(p.1, b.blocks.length)] else b.index) ∧ (b.push X p).count = b.count + 1 := by
  unfold DatBuilder.push
  dsimp only
  split <;> exact ⟨rfl, rfl⟩

theorem index_finish (b : DatBuilder) : (b.finish X).index = b.index := by
  unfold DatBuilder.finish
  split <;> rfl

end DatBuilder

/-- Every 64th entry has a key in the sparse index. -/
theorem length_index_writeDatAndIndex (entries : List (Bytes × MemEntry)) :
    (writeDatAndIndex X entries).index.length =
      (entries.length + (sparseIndexStride - 1)) / sparseIndexStride := by
  have hpush : ∀ (b : DatBuilder) (p : Bytes × MemEntry),
      b.index.length = (b.count + (sparseIndexStride - 1)) / sparseIndexStride →
      (b.push X p).index.length =
        ((b.push X p).count + (sparseIndexStride - 1)) / sparseIndexStride ∧
      (b.push X p).count = b.count + 1 := by
    intro b p hb
    rw [(b.index_push p).1, (b.index_push p).2]
    refine ⟨?_, rfl⟩
    unfold sparseIndexStride at hb ⊢
    split
    · rw [List.length_append, List.length_singleton, hb]
      omega
    · rw [hb]
      omega
  have hfold : ∀ (es : List (Bytes × MemEntry)) (b : DatBuilder),
      b.index.length = (b.count + (sparseIndexStride - 1)) / sparseIndexStride →
      (es.foldl (DatBuilder.push X) b).index.length =
        (b.count + es.length + (sparseIndexStride - 1)) / sparseIndexStride := by
    intro es
    induction es with
    | nil => exact fun _ hb => hb
    | cons p es ih =>
      intro b hb
      obtain ⟨hlen, hcount⟩ := hpush b p hb
      rw [List.foldl_cons, ih _ hlen, hcount, List.length_cons]
      congr 2
      omega
  rw [writeDatAndIndex, DatBuilder.index_finish, hfold entries {} rfl]
  congr 2
  exact Nat.zero_add _

/-- The keys of the sparse index are keys of entries. -/
theorem mem_index_writeDatAndIndex {entries : List (Bytes × MemEntry)} :
    ∀ q ∈ (writeDatAndIndex X entries).index, ∃ p ∈ entries, p.1 = q.1 := by
  have hfold : ∀ (es : List (Bytes × MemEntry)) (b : DatBuilder),
      (∀ q ∈ b.index, ∃ p ∈ entries, p.1 = q.1) → (∀ p ∈ es, p ∈ entries) →
      ∀ q ∈ (es.foldl (DatBuilder.push X) b).index, ∃ p ∈ entries, p.1 = q.1 := by
    intro es
    induction es with
    | nil => exact fun _ hb _ => hb
    | cons p es ih =>
      intro b hb hes
      apply ih
      · intro q hq
        rw [(b.index_push p).1] at hq
        split at hq
        · rcases List.mem_append.mp hq with hq | hq
          · exact hb q hq
          · rw [List.mem_singleton.mp hq]
            exact ⟨p, hes p (by simp), rfl⟩
        · exact hb q hq
      · exact fun q hq => hes q (by simp [hq])
  intro q hq
  rw [writeDatAndIndex, DatBuilder.index_finish] at hq
  exact hfold entries {} (by simp) (fun p hp => hp) q hq

end Flush

/-! ### Reading back the sparse index and the filter -/

theorem Raw.readExact_append {x post : Bytes} {n pos : ℕ} {msg : String} (h : x.length = n) :
    Raw.readExact n msg (x ++ post, pos) = .ok (x, (post, pos + n)) := by
  subst h
  simp [readExact]

/-- A key and an offset that their fields hold. -/
def IdxInRange (p : Bytes × ℕ) : Prop := p.1.length < 256 ^ 4 ∧ p.2 < 256 ^ 8

theorem Raw.readIdxEntries_append {index : List (Bytes × ℕ)} (h : ∀ p ∈ index, IdxInRange p)
    (post : Bytes) (pos : ℕ) : ∃ pos', Raw.readIdxEntries index.length
      (index.flatMap (fun p => leBytes 4 p.1.length ++ (p.1 ++ leBytes 8 p.2)) ++ post, pos) =
        .ok (index, (post, pos')) := by
  induction index generalizing pos with
  | nil => exact ⟨pos, rfl⟩
  | cons p index ih =>
    obtain ⟨hkey, hoff⟩ := h p (by simp)
    obtain ⟨pos', hrest⟩ := ih (fun q hq => h q (by simp [hq])) (pos + 4 + p.1.length + 8)
    refine ⟨pos', ?_⟩
    rw [List.length_cons, Raw.readIdxEntries, List.flatMap_cons]
    simp only [List.append_assoc]
    rw [bind_eq_of_ok (Raw.readExact_append (by simp)), ofLe_leBytes_of_lt hkey,
      bind_eq_of_ok (Raw.readExact_append rfl), bind_eq_of_ok (Raw.readExact_append (by simp)),
      ofLe_leBytes_of_lt hoff, bind_eq_of_ok hrest]
    rfl

/-- A sparse index within the limits is read back. -/
theorem Raw.readIdxFile_writeIdxFile {index : List (Bytes × ℕ)} (hlen : index.length ≤ maxIndexCount)
    (h : ∀ p ∈ index, IdxInRange p) : Raw.readIdxFile (Raw.writeIdxFile index) = .ok index := by
  have hcount : ofLe (leBytes 8 index.length) = index.length :=
    ofLe_leBytes_of_lt (lt_of_le_of_lt hlen (by decide))
  obtain ⟨pos', hread⟩ := Raw.readIdxEntries_append h [] 8
  rw [List.append_nil] at hread
  rw [Raw.readIdxFile, Raw.writeIdxFile]
  change Prod.fst <$> StateT.run _ _ = _
  unfold StateT.run
  rw [bind_eq_of_ok (Raw.readExact_append (by simp)), hcount, if_neg (by omega), Nat.zero_add, hread]
  rfl

/-- A filter whose fields hold values of their types, with no more fingerprints than a reader
accepts. -/
def XorFilter.InRange (f : XorFilter) : Prop :=
  f.seed < 256 ^ 8 ∧ f.blockLength < 256 ^ 8 ∧ f.fingerprints.length ≤ maxFingerprints

/-- A filter in range is read back. -/
theorem Raw.readXfFile_writeXfFile {f : XorFilter} (h : f.InRange) :
    Raw.readXfFile (Raw.writeXfFile f) = .ok f := by
  obtain ⟨hseed, hblock, hfp⟩ := h
  have hcount : ofLe (leBytes 8 f.fingerprints.length) = f.fingerprints.length :=
    ofLe_leBytes_of_lt (lt_of_le_of_lt hfp (by decide))
  have hlast : Raw.readExact f.fingerprints.length "xf: truncated fingerprints"
      (f.fingerprints, 0 + 8 + 8 + 8) = .ok (f.fingerprints, ([], 0 + 8 + 8 + 8 +
        f.fingerprints.length)) := by
    have h := @Raw.readExact_append f.fingerprints [] _ (0 + 8 + 8 + 8) "xf: truncated fingerprints" rfl
    rwa [List.append_nil] at h
  rw [Raw.readXfFile, Raw.writeXfFile]
  change Prod.fst <$> StateT.run _ _ = _
  unfold StateT.run
  rw [bind_eq_of_ok (Raw.readExact_append (by simp)), bind_eq_of_ok (Raw.readExact_append (by simp)),
    bind_eq_of_ok (Raw.readExact_append (by simp)), hcount, if_neg (by omega),
    bind_eq_of_ok hlast, ofLe_leBytes_of_lt hseed, ofLe_leBytes_of_lt hblock]
  rfl

/-! ### A flushed segment -/

/-- A sorted list of entries in range that fits in the format: no block is too large for a reader, and
there are not too many entries for the sparse index and the filter. -/
structure Flushable (X : Externals) (entries : List (Bytes × MemEntry)) : Prop where
  sorted : KeySorted entries
  inRange : ∀ p ∈ entries, EntryInRange p
  blocks : ∀ b ∈ (writeDatAndIndex X entries).blocks, b.size ≤ maxBlockDecompressed
  count : entries.length ≤ sparseIndexStride * maxIndexCount
  filter : (X.buildFilter (entries.map Prod.fst)).InRange

namespace Flushable

variable {entries : List (Bytes × MemEntry)} (h : Flushable X entries)
include h

theorem map_storedEntry : entries.map storedEntry = entries :=
  (List.map_congr_left fun p hp => (h.inRange p hp).stored).trans (List.map_id _)

theorem table_blocks : Dat.table (writeDatAndIndex X entries).blocks = entries := by
  rw [table_writeDatAndIndex h.sorted, h.map_storedEntry]

theorem length_index : (writeDatAndIndex X entries).index.length ≤ maxIndexCount := by
  have hcount := h.count
  rw [length_index_writeDatAndIndex]
  unfold sparseIndexStride maxIndexCount at hcount ⊢
  omega

theorem written (Z : Zstd) : ∀ b ∈ (writeDatAndIndex X entries).blocks, b.Written :=
  written_writeDatAndIndex Z h.sorted h.inRange h.blocks

/-- The blocks of the file are the packed blocks. -/
theorem blocksOf_drop (n : ℕ) :
    blocksOf Z ((Raw.writeDatAndIndex Z entries).dat.drop
      (Raw.offsetOf Z (writeDatAndIndex X entries).blocks n)) =
        (writeDatAndIndex X entries).blocks.drop n := by
  rw [(represents_writeDatAndIndex fun p hp => (h.inRange p hp).stored).dat, Raw.drop_offsetOf]
  exact blocksOf_encodeBlocks fun b hb => h.written Z b (List.mem_of_mem_drop hb)

/-- The offsets of a file within the limits are numbers of 64 bits. -/
theorem offsetOf_lt (n : ℕ) :
    Raw.offsetOf Z (writeDatAndIndex X entries).blocks n < 256 ^ 8 := by
  set blocks := (writeDatAndIndex X entries).blocks with hblocks
  have hne : ∀ b ∈ blocks, b.entries ≠ [] := by
    intro b hb
    obtain ⟨size, es, rfl, hes, -⟩ := (packs_writeDatAndIndex (X := X) h.sorted).1.blocks b hb
    exact hes
  have hlen : blocks.length ≤ entries.length := by
    have hle := length_le_length_flatMap hne
    rwa [show blocks.flatMap Block.entries = entries from h.table_blocks] at hle
  have hblock : ∀ b ∈ blocks.take n,
      (flushBlockToFile Z (b.entries.flatMap serializeEntry)).length ≤
        8 + 256 ^ 4 + segmentBlockSize := by
    intro b hb
    obtain ⟨es, rfl, hsize, -⟩ := h.written Z b (List.mem_of_mem_take hb)
    have hlt := Z.length_encode_lt _ hsize
    have hal := alignedSize_le (8 + (Z.encode (es.flatMap serializeEntry)).length)
    rw [length_flushBlockToFile]
    simp only [Block.entries]
    omega
  have htotal := length_flatMap_le hblock
  have htake : (blocks.take n).length ≤ sparseIndexStride * maxIndexCount :=
    (List.length_take_le' n blocks).trans (hlen.trans h.count)
  have hmul : (blocks.take n).length * (8 + 256 ^ 4 + segmentBlockSize) ≤
      sparseIndexStride * maxIndexCount * (8 + 256 ^ 4 + segmentBlockSize) :=
    Nat.mul_le_mul_right _ htake
  have hconst : segmentHeaderLen + sparseIndexStride * maxIndexCount *
      (8 + 256 ^ 4 + segmentBlockSize) < 256 ^ 8 := by decide
  rw [Raw.offsetOf, encodeBlocks]
  omega

/-- The sparse index is read back. -/
theorem readIdxFile_flush :
    Raw.readIdxFile (Raw.writeIdxFile (Raw.writeDatAndIndex Z entries).sparseIndex) =
      .ok (Raw.writeDatAndIndex Z entries).sparseIndex := by
  have hrep := represents_writeDatAndIndex (X := X) (Z := Z) fun p hp => (h.inRange p hp).stored
  apply Raw.readIdxFile_writeIdxFile
  · rw [hrep.index, List.length_map]
    exact h.length_index
  · intro p hp
    rw [hrep.index] at hp
    obtain ⟨q, hq, rfl⟩ := List.mem_map.mp hp
    refine ⟨?_, h.offsetOf_lt q.2⟩
    obtain ⟨r, hr, hkey⟩ := mem_index_writeDatAndIndex q hq
    rw [← hkey]
    exact (h.inRange r hr).key

/-- The offset from which a reader of the bytes looks is that of the block from which a reader of the
blocks looks. -/
theorem findBlockOffset_eq (key : Bytes) :
    Raw.findBlockOffset (Raw.writeDatAndIndex Z entries).sparseIndex key =
      Raw.offsetOf Z (writeDatAndIndex X entries).blocks
        (findBlockOffset (writeDatAndIndex X entries).index key) := by
  have hrep := represents_writeDatAndIndex (X := X) (Z := Z) fun p hp => (h.inRange p hp).stored
  rw [hrep.index, Raw.findBlockOffset, findBlockOffset, List.takeWhile_map, List.getLast?_map,
    List.head?_map]
  have hpred : ((fun p : Bytes × ℕ => decide (p.1 ≤ key)) ∘
      fun q : Bytes × ℕ => (q.1, Raw.offsetOf Z (writeDatAndIndex X entries).blocks q.2)) =
        fun p => decide (p.1 ≤ key) := rfl
  rw [hpred]
  cases ((writeDatAndIndex X entries).index.takeWhile fun p => decide (p.1 ≤ key)).getLast? with
  | some q => rfl
  | none =>
    cases (writeDatAndIndex X entries).index.head? with
    | some q => rfl
    | none => rfl

end Flushable

/-- What `SegmentWriter.flush` returns. -/
theorem Raw.flush_eq_ok {id : SegmentId} {window nanos : ℕ} {entries : List (Bytes × MemEntry)}
    {files : Raw.SegmentFiles}
    (h : Raw.SegmentWriter.flush X Z id window nanos entries = .ok files) :
    files.dat = (Raw.writeDatAndIndex Z entries).dat ∧
      files.idx = Raw.writeIdxFile (Raw.writeDatAndIndex Z entries).sparseIndex ∧
      files.xf = Raw.writeXfFile (X.buildFilter (entries.map Prod.fst)) ∧
      files.segMeta.minKey = (entries.head?.map Prod.fst).getD [] ∧
      files.segMeta.maxKey = (entries.getLast?.map Prod.fst).getD [] := by
  cases entries with
  | nil => cases h
  | cons first rest =>
    unfold Raw.SegmentWriter.flush at h
    cases hb : cohortBucketFor first.2.timestamp first.2.ttl window with
    | error e =>
      simp only [hb] at h
      cases h
    | ok bucket =>
      simp only [hb] at h
      cases h
      refine ⟨rfl, rfl, rfl, ?_, ?_⟩
      · rw [← List.head?_map]
      · rw [← List.getLast?_map]

namespace Flushable

variable {entries : List (Bytes × MemEntry)} {id : SegmentId} {window nanos : ℕ} {files : Raw.SegmentFiles}

/-- The reader of the files of a flush. -/
def reader (X : Externals) (Z : Zstd) (entries : List (Bytes × MemEntry)) (files : Raw.SegmentFiles) :
    Raw.SegmentReader :=
  ⟨files.segMeta, X.buildFilter (entries.map Prod.fst), (Raw.writeDatAndIndex Z entries).sparseIndex⟩

/-- What the blocks of a flush hold. -/
def image (h : Flushable X entries) (hflush : Raw.SegmentWriter.flush X Z id window nanos entries = .ok files) :
    SegmentImage X :=
  flushImage X h.sorted files.segMeta (Raw.flush_eq_ok hflush).2.2.2.1 (Raw.flush_eq_ok hflush).2.2.2.2
    h.blocks h.length_index h.filter.2.2

variable (h : Flushable X entries) (hflush : Raw.SegmentWriter.flush X Z id window nanos entries = .ok files)
include h hflush

theorem open_flushed : Raw.SegmentReader.open files = .ok (reader X Z entries files) := by
  obtain ⟨-, hidx, hxf, -⟩ := Raw.flush_eq_ok hflush
  rw [Raw.SegmentReader.open, hxf, hidx, Raw.readXfFile_writeXfFile h.filter, h.readIdxFile_flush]
  rfl

theorem get_flushed (key : Bytes) :
    (reader X Z entries files).get X Z files key = .ok (find entries key) := by
  unfold Raw.SegmentReader.get reader
  dsimp only
  split
  case isTrue hmiss =>
    -- a key that the filter denies is not in the list
    have hnone : find entries key = none := by
      apply find_eq_none_iff.mpr
      intro p hp hk
      have hc := X.filterContains_build (entries.map Prod.fst) p.1 (List.mem_map_of_mem hp)
      rw [hk, hmiss] at hc
      cases hc
    rw [hnone]
  case isFalse =>
    rw [Raw.getFrom_eq, h.findBlockOffset_eq, (Raw.flush_eq_ok hflush).1, h.blocksOf_drop]
    set img := h.image hflush
    have hsearch := @searchBlocks_eq key _ (img.readable_drop (findBlockOffset img.idx key))
      (img.sorted_drop _)
    rw [img.find_drop, show Dat.table img.dat = entries from h.table_blocks] at hsearch
    exact hsearch

/-- Outside the bounds of the metadata there is no entry. -/
theorem within_eq_nil_of_flushed {start «end» : Bytes}
    (hout : «end» ≤ files.segMeta.minKey ∨ files.segMeta.maxKey < start) :
    within start «end» entries = [] := by
  have hnil := (h.image hflush).within_eq_nil hout
  rwa [show Dat.table (h.image hflush).dat = entries from h.table_blocks] at hnil

theorem rangeScan_flushed (start «end» : Bytes) :
    (reader X Z entries files).rangeScan Z files start «end» = .ok (within start «end» entries) := by
  unfold Raw.SegmentReader.rangeScan reader
  dsimp only
  split
  case isTrue hout => rw [h.within_eq_nil_of_flushed hflush (hout.imp_left le_of_lt)]
  case isFalse =>
    rw [Raw.scanFrom_eq, h.findBlockOffset_eq, (Raw.flush_eq_ok hflush).1, h.blocksOf_drop,
      scanWith_eq_scanBlocks]
    set img := h.image hflush
    have hscan := @scanBlocks_eq start «end» _
      (img.readable_drop (findBlockOffset img.idx start)) (img.sorted_drop _)
    rw [img.within_drop, show Dat.table img.dat = entries from h.table_blocks] at hscan
    exact hscan

theorem cursor_flushed (start «end» : Bytes) :
    match Raw.SegmentCursor.open (reader X Z entries files) start «end» with
    | none => within start «end» entries = []
    | some c => c.Yields Z files.dat start «end» (within start «end» entries) := by
  unfold Raw.SegmentCursor.open reader
  dsimp only
  by_cases hout : «end» ≤ files.segMeta.minKey ∨ files.segMeta.maxKey < start
  · rw [if_pos hout]
    exact h.within_eq_nil_of_flushed hflush hout
  · rw [if_neg hout]
    apply Raw.SegmentCursor.yields_of_pending
    set img := h.image hflush
    have hitems := @cursorItems_eq start «end» _
      (img.readable_drop (findBlockOffset img.idx start)) (img.sorted_drop _)
    rw [img.within_drop, show Dat.table img.dat = entries from h.table_blocks] at hitems
    unfold Raw.SegmentCursor.pending
    dsimp only
    rw [h.findBlockOffset_eq, (Raw.flush_eq_ok hflush).1, h.blocksOf_drop]
    exact hitems

end Flushable

/-- **A flushed segment** answers like the list it was built from: the reader opens, a lookup finds the
entry of its key, and a scan and a cursor yield the entries of their range, in order. -/
theorem flushed_segment_answers {id : SegmentId} {window nanos : ℕ}
    {entries : List (Bytes × MemEntry)} {files : Raw.SegmentFiles} (h : Flushable X entries)
    (hflush : Raw.SegmentWriter.flush X Z id window nanos entries = .ok files) :
    ∃ r, Raw.SegmentReader.open files = .ok r ∧
      (∀ key, r.get X Z files key = .ok (find entries key)) ∧
      (∀ start «end», r.rangeScan Z files start «end» = .ok (within start «end» entries)) ∧
      ∀ start «end», match Raw.SegmentCursor.open r start «end» with
        | none => within start «end» entries = []
        | some c => c.Yields Z files.dat start «end» (within start «end» entries) :=
  ⟨_, h.open_flushed hflush, h.get_flushed hflush, h.rangeScan_flushed hflush, h.cursor_flushed hflush⟩

/-- The compressor that leaves bytes as they are. -/
def plainZstd : Zstd where
  encode bs := bs
  decode bs := some bs
  decode_encode := plainExternals.decompress_compress
  length_encode_lt _ h := lt_of_le_of_lt h (by decide)

/-- A segment of a put and a tombstone: the lookups, and the scan of the first key. -/
theorem flushed_segment_answers_two :
    let entries : List (Bytes × MemEntry) :=
      [([0, 0, 1], ⟨[0, 0, 1], some [7], .put, 1, 5, 0⟩), ([0, 0, 2], ⟨[0, 0, 2], none, .delete, 2, 6, 0⟩)]
    ∃ files r, Raw.SegmentWriter.flush plainExternals plainZstd 3 60 9 entries = .ok files ∧
      Raw.SegmentReader.open files = .ok r ∧
      r.get plainExternals plainZstd files [0, 0, 1] = .ok (find entries [0, 0, 1]) ∧
      r.rangeScan plainZstd files [0, 0, 1] [0, 0, 2] =
        .ok [([0, 0, 1], ⟨[0, 0, 1], some [7], .put, 1, 5, 0⟩)] := by
  intro entries
  have hrange : ∀ p ∈ entries, EntryInRange p := by
    intro p hp
    rcases List.mem_cons.mp hp with rfl | hp
    · exact ⟨rfl, by decide, by decide, by decide, by decide, by decide⟩
    · rw [List.mem_singleton.mp hp]
      exact ⟨rfl, by decide, by decide, by decide, by decide, by decide⟩
  have hfits : Flushable plainExternals entries :=
    ⟨by decide, hrange, by decide, by decide, by decide, by decide, by decide⟩
  obtain ⟨files, hflush⟩ : ∃ files,
      Raw.SegmentWriter.flush plainExternals plainZstd 3 60 9 entries = .ok files := ⟨_, rfl⟩
  obtain ⟨r, hopen, hget, hscan, -⟩ := flushed_segment_answers hfits hflush
  exact ⟨files, r, hflush, hopen, hget _, hscan _ _⟩
