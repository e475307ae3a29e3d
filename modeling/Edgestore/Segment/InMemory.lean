import Edgestore.Segment.Files

/-!
# Segments in memory

`InMemorySegmentReader` serves a segment from the bytes of its `.dat` file alone. It has its own walk
over the blocks, makes a sparse index with the first key of every block, and builds the filter anew. A
lookup goes on behind the block that has the key, up to a block that begins with a greater one.

## Main definitions

* `Raw.memoryBlockAt`: the block at an offset of a buffer
* `Raw.InMemorySegmentReader`, with `fromBytes`, `get`, `rangeScan`
* `Raw.Locates`: an index holds first keys of blocks and where these blocks are

## Main results

* `Flushable.fromBytes_eq`: the reader of the bytes that were written for a list of entries
* `Flushable.get_inMemory`, `Flushable.rangeScan_inMemory`: it answers like the list
-/

variable {X : Externals} {Z : Zstd}

namespace Raw

/-! ### The reader -/

/-- The entries of the block at an offset of a buffer, and its aligned size, unless no whole block begins
there. -/
def memoryBlockAt (Z : Zstd) (msg : String) (bytes : Bytes) (offset : ℕ) :
    Except EdgestoreError (Option (List (Bytes × MemEntry) × ℕ)) :=
  if offset + 8 > bytes.length then .ok none
  else if ofLe ((bytes.drop offset).take 4) ≠ segmentBlockMagic then .ok none
  else
    let compressedLen := ofLe ((bytes.drop (offset + 4)).take 4)
    if offset + 8 + compressedLen > bytes.length then .ok none
    else
      match Z.decode ((bytes.drop (offset + 8)).take compressedLen) with
      | none => .error (.segmentCorrupt msg)
      | some decompressed => .ok (some (parseEntries decompressed, alignedSize (8 + compressedLen)))

/-- A read-only segment that lives in memory. -/
structure InMemorySegmentReader where
  segmentId : SegmentId
  segmentHash : Bytes
  data : Bytes
  /-- The first key of each block, and the offset of the block. -/
  index : List (Bytes × ℕ)
  filter : XorFilter
  segMeta : SegmentMeta
  deriving DecidableEq, Repr

namespace InMemorySegmentReader

/-- The keys of all blocks from an offset on and the index of these blocks, with a bound on the steps. -/
def fromBytesAux (Z : Zstd) (bytes : Bytes) :
    ℕ → ℕ → Except EdgestoreError (List Bytes × List (Bytes × ℕ))
  | 0, _ => .ok ([], [])
  | n + 1, offset =>
    if offset ≥ bytes.length then .ok ([], [])
    else do
      match ← memoryBlockAt Z "in-memory zstd decode" bytes offset with
      | none => return ([], [])
      | some (entries, size) =>
        let (allKeys, index) ← fromBytesAux Z bytes n (offset + size)
        return (entries.map Prod.fst ++ allKeys,
          (entries.head?.map fun p => (p.1, offset)).toList ++ index)

/-- Parse a `.dat` file from a memory buffer. Every block takes at least a byte, so the length bounds the
steps. -/
def fromBytes (X : Externals) (Z : Zstd) (segmentId : SegmentId) (segmentHash : Bytes)
    (segMeta : SegmentMeta) (bytes : Bytes) : Except EdgestoreError InMemorySegmentReader :=
  if bytes.length < 8 then .error (.segmentCorrupt "in-memory segment too short")
  else do
    let (allKeys, index) ← fromBytesAux Z bytes (bytes.length + 1) segmentHeaderLen
    return ⟨segmentId, segmentHash, bytes, index, X.buildFilter allKeys, segMeta⟩

/-- The entry with the highest LSN among `best` and the entries of a key. -/
def bestOfHits (best : Option MemEntry) (hits : List (Bytes × MemEntry)) : Option MemEntry :=
  hits.foldl (fun best p => if best.all fun b => p.2.lsn > b.lsn then some p.2 else best) best

/-- Look for a key from an offset on, with a bound on the steps. -/
def getAux (Z : Zstd) (r : InMemorySegmentReader) (key : Bytes) :
    ℕ → Option MemEntry → ℕ → Except EdgestoreError (Option MemEntry)
  | 0, best, _ => .ok best
  | n + 1, best, currentOffset => do
    match ← memoryBlockAt Z "in-memory get zstd" r.data currentOffset with
    | none => return best
    | some (entries, size) =>
      let hits := (entries.takeWhile fun p => p.1 ≤ key).filter fun p => p.1 = key
      let blockFirstKey := (r.index.find? fun q => q.2 = currentOffset).map Prod.fst
      -- a block that begins behind the key ends the search, unless the key was in it
      if blockFirstKey.any (fun first => first > key) ∧ hits = [] then return bestOfHits best hits
      else getAux Z r key n (bestOfHits best hits) (currentOffset + size)

/-- Look up a single key in the segment. -/
def get (X : Externals) (Z : Zstd) (r : InMemorySegmentReader) (key : Bytes) :
    Except EdgestoreError (Option MemEntry) :=
  if X.filterContains r.filter key = false then .ok none
  else getAux Z r key (r.data.length + 1) none (findBlockOffset r.index key)

/-- Scan from an offset on, with a bound on the steps. -/
def rangeScanAux (Z : Zstd) (r : InMemorySegmentReader) (start «end» : Bytes) :
    ℕ → ℕ → Except EdgestoreError (List (Bytes × MemEntry))
  | 0, _ => .ok []
  | n + 1, currentOffset => do
    match ← memoryBlockAt Z "in-memory range zstd" r.data currentOffset with
    | none => return []
    | some (entries, size) =>
      let here := (entries.takeWhile fun p => p.1 < «end»).filter fun p => start ≤ p.1
      if entries.all fun p => p.1 < «end» then
        return here ++ (← rangeScanAux Z r start «end» n (currentOffset + size))
      else return here

/-- The entries with `start ≤ key < end`. -/
def rangeScan (Z : Zstd) (r : InMemorySegmentReader) (start «end» : Bytes) :
    Except EdgestoreError (List (Bytes × MemEntry)) :=
  if «end» < r.segMeta.minKey ∨ r.segMeta.maxKey < start then .ok []
  else rangeScanAux Z r start «end» (r.data.length + 1) (findBlockOffset r.index start)

end InMemorySegmentReader

/-! ### Blocks that were written -/

variable {blocks post : Dat} {b : Block} {data : Bytes} {offset : ℕ} {msg : String}

/-- At the end of a buffer there is no block. -/
theorem memoryBlockAt_nil (h : data.drop offset = []) : memoryBlockAt Z msg data offset = .ok none := by
  have hlen : data.length ≤ offset := List.drop_eq_nil_iff.mp h
  rw [memoryBlockAt, if_pos (by omega)]

/-- Where blocks were written, the first of them is found, and the others are behind it. -/
theorem memoryBlockAt_cons (msg : String) (hb : b.Written)
    (h : data.drop offset = encodeBlocks Z (b :: post)) :
    ∃ size, 8 ≤ size ∧ offset < data.length ∧
      memoryBlockAt Z msg data offset = .ok (some (b.entries, size)) ∧
      data.drop (offset + size) = encodeBlocks Z post := by
  obtain ⟨es, rfl, hsize, hes⟩ := hb
  rw [encodeBlocks_cons, Block.entries] at h
  have hframing := framing_flushBlockToFile (Z := Z) hsize (encodeBlocks Z post)
  rw [← h] at hframing
  obtain ⟨hge, hle⟩ := framing_whole hframing
  have hlen : (data.drop offset).length = data.length - offset := List.length_drop
  have hlen8 : ((data.drop offset).drop 8).length = data.length - offset - 8 := by
    rw [List.length_drop, hlen]
  have hdrop : ∀ m, data.drop (offset + m) = (data.drop offset).drop m := fun m =>
    List.drop_drop.symm
  refine ⟨(flushBlockToFile Z (es.flatMap serializeEntry)).length, hge, by omega, ?_, ?_⟩
  · -- the three tests for a block are those of the framing
    rw [framing] at hframing
    split at hframing
    case isTrue => cases hframing
    case isFalse hmagic =>
      split at hframing
      case isTrue => cases hframing
      case isFalse hshort =>
        rw [not_or] at hmagic hshort
        rw [memoryBlockAt, if_neg (by omega), if_neg hmagic.2, hdrop, hdrop]
        simp only [Framing.whole.injEq, decodeBlock] at hframing
        obtain ⟨hblock, hsize'⟩ := hframing
        dsimp only
        rw [if_neg (by omega), hsize']
        cases hdec : Z.decode (((data.drop offset).drop 8).take
            (ofLe (((data.drop offset).drop 4).take 4))) with
        | none =>
          rw [hdec] at hblock
          cases hblock
        | some bs =>
          rw [hdec] at hblock
          simp only [Block.decoded.injEq] at hblock
          dsimp only
          rw [hblock.2, parseEntries_serialize hes]
          rfl
  · rw [hdrop, h, List.drop_left]

/-- An index of blocks: each of its keys is the first of a block, and its offset is where that block is.
The first of them is that of the first block. -/
structure Locates (Z : Zstd) (data : Bytes) (offset : ℕ) (blocks : Dat) (index : List (Bytes × ℕ)) :
    Prop where
  mem : ∀ q ∈ index, ∃ pre b post p es, blocks = pre ++ b :: post ∧ b.entries = p :: es ∧ p.1 = q.1 ∧
    data.drop q.2 = encodeBlocks Z (b :: post)
  head : (index.head?.map Prod.snd).getD offset = offset

namespace InMemorySegmentReader

/-- The keys and the index of blocks that were written. -/
theorem fromBytesAux_eq {n : ℕ} (hn : data.length - offset < n)
    (hw : ∀ b ∈ blocks, b.Written ∧ b.entries ≠ []) (h : data.drop offset = encodeBlocks Z blocks) :
    ∃ index, fromBytesAux Z data n offset = .ok ((Dat.table blocks).map Prod.fst, index) ∧
      Locates Z data offset blocks index := by
  induction n generalizing blocks offset with
  | zero => omega
  | succ n ih =>
    rw [fromBytesAux]
    cases blocks with
    | nil =>
      rw [encodeBlocks_nil] at h
      rw [if_pos (List.drop_eq_nil_iff.mp h)]
      exact ⟨[], rfl, ⟨nofun, rfl⟩⟩
    | cons b post =>
      obtain ⟨⟨hb, hne⟩, hw'⟩ := List.forall_mem_cons.mp hw
      obtain ⟨size, hge, hlt, hblock, hnext⟩ := memoryBlockAt_cons "in-memory zstd decode" hb h
      obtain ⟨index, hrest, hloc⟩ := ih (by omega) hw' hnext
      obtain ⟨p, es, hes⟩ := List.exists_cons_of_ne_nil hne
      refine ⟨(p.1, offset) :: index, ?_, ⟨fun q hq => ?_, rfl⟩⟩
      · rw [if_neg (not_le.mpr hlt), hblock]
        change (fromBytesAux Z data n (offset + size) >>= fun r => _) = _
        rw [hrest, Dat.table_cons, List.map_append, hes]
        rfl
      · rcases List.mem_cons.mp hq with rfl | hq
        · exact ⟨[], b, post, p, es, rfl, hes, rfl, h⟩
        · obtain ⟨pre, b', post', p', es', heq, hrest'⟩ := hloc.mem q hq
          exact ⟨b :: pre, b', post', p', es', by rw [heq, List.cons_append], hrest'⟩

/-- **Where the index says to look** for a key are the blocks behind some that hold only lesser keys. -/
theorem findBlockOffset_split {index : List (Bytes × ℕ)} (hloc : Locates Z data 8 blocks index)
    (h : data.drop 8 = encodeBlocks Z blocks) (hs : KeySorted (Dat.table blocks)) (key : Bytes) :
    ∃ pre post, blocks = pre ++ post ∧ (∀ p ∈ Dat.table pre, p.1 < key) ∧
      data.drop (findBlockOffset index key) = encodeBlocks Z post := by
  unfold findBlockOffset
  cases hlast : (index.takeWhile fun p => decide (p.1 ≤ key)).getLast? with
  | some q =>
    have hq := List.mem_of_getLast? hlast
    have hle : q.1 ≤ key := by simpa using List.mem_takeWhile_imp hq
    obtain ⟨pre, b, post, p, es, rfl, hes, hpq, hdrop⟩ := hloc.mem q (List.takeWhile_subset _ hq)
    refine ⟨pre, b :: post, rfl, fun r hr => ?_, hdrop⟩
    -- the first key of the block is beyond those in front of it
    rw [Dat.table_append, Dat.table_cons, hes] at hs
    have hlt := hs.of_append.2.2 r hr p (by simp)
    exact (hpq ▸ hlt).trans_le hle
  | none =>
    refine ⟨[], blocks, rfl, nofun, ?_⟩
    have hhead := hloc.head
    cases hidx : index.head? with
    | none => exact h
    | some q =>
      rw [hidx] at hhead
      have hq : q.2 = 8 := hhead
      dsimp only
      rw [hq]
      exact h

/-- The hits in a sorted block are the entry of the key. -/
theorem hits_eq {es : List (Bytes × MemEntry)} (hs : KeySorted es) (key : Bytes) :
    (es.takeWhile fun p => p.1 ≤ key).filter (fun p => p.1 = key) =
      ((find es key).map fun e => (key, e)).toList := by
  induction es with
  | nil => rfl
  | cons p es ih =>
    obtain ⟨hlt, hs'⟩ := keySorted_cons.mp hs
    rw [find_cons]
    by_cases hle : p.1 ≤ key
    · rw [List.takeWhile_cons_of_pos (by simpa using hle), List.filter_cons, ih hs']
      by_cases hk : p.1 = key
      · have hnone : find es key = none := find_eq_none_of_lt fun q hq => hk ▸ hlt q hq
        obtain ⟨k, e⟩ := p
        obtain rfl : k = key := hk
        simp [hnone]
      · simp [hk]
    · have hgt : key < p.1 := not_le.mp hle
      have hnone : find es key = none := find_eq_none_of_lt fun q hq => hgt.trans (hlt q hq)
      rw [List.takeWhile_cons_of_neg (by simpa using hle), if_neg hgt.ne', hnone]
      rfl

/-- A lookup goes over the blocks from an offset on, and takes the entry of the key, unless the key has
been found. -/
theorem getAux_eq {r : InMemorySegmentReader} {all : Dat} (hloc : Locates Z r.data 8 all r.index)
    (hall : ∀ b ∈ all, b.Written) {n : ℕ} (hn : r.data.length - offset < n)
    (hw : ∀ b ∈ blocks, b.Written ∧ b.entries ≠ []) (hs : KeySorted (Dat.table blocks))
    (h : r.data.drop offset = encodeBlocks Z blocks) {key : Bytes} {best : Option MemEntry}
    (hbest : best = none ∨ ∀ p ∈ Dat.table blocks, key < p.1) :
    getAux Z r key n best offset = .ok (best.or (find (Dat.table blocks) key)) := by
  induction n generalizing blocks offset best with
  | zero => omega
  | succ n ih =>
    rw [getAux]
    cases blocks with
    | nil =>
      rw [memoryBlockAt_nil h, Dat.table_nil]
      exact congrArg Except.ok (Option.or_none).symm
    | cons b post =>
      obtain ⟨⟨hb, hne⟩, hw'⟩ := List.forall_mem_cons.mp hw
      obtain ⟨size, hge, hlt, hblock, hnext⟩ := memoryBlockAt_cons "in-memory get zstd" hb h
      rw [Dat.table_cons] at hs hbest ⊢
      obtain ⟨hsb, hsp, hcross⟩ := hs.of_append
      rw [hblock]
      change (if _ then _ else _) = _
      rw [hits_eq hsb, find_append]
      have hrest := fun best hbest => @ih post (offset + size) (by omega) hw' hsp hnext best hbest
      cases hf : find b.entries key with
      | some e =>
        -- the key is in this block, and in no other
        have hnone : best = none := by
          refine hbest.resolve_right fun hgt => ?_
          exact lt_irrefl key (hgt (key, e) (List.mem_append_left _ (mem_of_find hf)))
        have hgt : ∀ p ∈ Dat.table post, key < p.1 := fun p hp => hcross (key, e) (mem_of_find hf) p hp
        rw [if_neg (by simp), hnone]
        exact (hrest (some e) (.inr hgt)).trans rfl
      | none =>
        have hsame : bestOfHits best (((none : Option MemEntry).map fun e => (key, e)).toList) = best := rfl
        rw [hsame, Option.none_or]
        split
        case isTrue hstop =>
          -- the block begins behind the key
          obtain ⟨⟨k, o⟩, hfirst, hgt⟩ : ∃ q, (r.index.find? fun q => q.2 = offset) = some q ∧ key < q.1 := by
            have hany := hstop.1
            cases hfind : r.index.find? fun q => q.2 = offset with
            | none => simp [hfind] at hany
            | some q => exact ⟨q, rfl, by simpa [hfind] using hany⟩
          have ho : o = offset := by simpa using List.find?_some hfirst
          obtain ⟨pre, b', post', p, es, heq, hes, hpk, hdrop⟩ :=
            hloc.mem _ (List.mem_of_find?_eq_some hfirst)
          -- blocks that were written are read back, so it is this block
          have hwritten : ∀ c ∈ b' :: post', c.Written := fun c hc =>
            hall c (heq ▸ List.mem_append_right pre hc)
          have hsameBlocks : b' :: post' = b :: post := by
            rw [← blocksOf_encodeBlocks (Z := Z) hwritten, ← hdrop]
            dsimp only
            rw [ho, h]
            exact blocksOf_encodeBlocks fun c hc => (hw c hc).1
          obtain ⟨rfl, rfl⟩ := List.cons.inj hsameBlocks
          have hnone : find (Dat.table post') key = none := by
            refine find_eq_none_of_lt fun q hq => ?_
            have hpq := hcross p (by rw [hes]; exact List.mem_cons_self) q hq
            rw [hpk] at hpq
            exact hgt.trans hpq
          rw [hnone, Option.or_none]
          rfl
        case isFalse =>
          refine hrest best (hbest.imp_right fun hgt p hp => ?_)
          exact hgt p (List.mem_append_right _ hp)

/-- A scan goes over the blocks from an offset on, and takes the entries of the range. -/
theorem rangeScanAux_eq {r : InMemorySegmentReader} {n : ℕ} (hn : r.data.length - offset < n)
    (hw : ∀ b ∈ blocks, b.Written ∧ b.entries ≠ []) (hs : KeySorted (Dat.table blocks))
    (h : r.data.drop offset = encodeBlocks Z blocks) (start «end» : Bytes) :
    rangeScanAux Z r start «end» n offset = .ok (within start «end» (Dat.table blocks)) := by
  induction n generalizing blocks offset with
  | zero => omega
  | succ n ih =>
    rw [rangeScanAux]
    cases blocks with
    | nil =>
      rw [memoryBlockAt_nil h]
      rfl
    | cons b post =>
      obtain ⟨⟨hb, -⟩, hw'⟩ := List.forall_mem_cons.mp hw
      obtain ⟨size, hge, hlt, hblock, hnext⟩ := memoryBlockAt_cons "in-memory range zstd" hb h
      rw [Dat.table_cons] at hs
      obtain ⟨hsb, hsp, hcross⟩ := hs.of_append
      rw [hblock, Dat.table_cons, within_append]
      change (if _ then _ else _) = _
      rw [filter_takeWhile_eq_within hsb, ih (by omega) hw' hsp hnext]
      split
      · rfl
      case isFalse hpast =>
        rw [within_eq_nil_of_past hcross hpast, List.append_nil]
        rfl

end InMemorySegmentReader

end Raw

/-! ### Segments that were flushed -/

namespace Flushable

variable {entries : List (Bytes × MemEntry)} (h : Flushable X entries)
include h

/-- The packed blocks hold entries. -/
theorem blocks_written (Z : Zstd) :
    ∀ b ∈ (writeDatAndIndex X entries).blocks, b.Written ∧ b.entries ≠ [] := by
  intro b hb
  refine ⟨h.written Z b hb, ?_⟩
  obtain ⟨size, es, rfl, hes, -⟩ := (packs_writeDatAndIndex (X := X) h.sorted).1.blocks b hb
  exact hes

theorem keySorted_table : KeySorted (Dat.table (writeDatAndIndex X entries).blocks) := by
  rw [h.table_blocks]
  exact h.sorted

/-- The blocks of the file are behind its header. -/
theorem drop_header : (Raw.writeDatAndIndex Z entries).dat.drop 8 =
    encodeBlocks Z (writeDatAndIndex X entries).blocks := by
  rw [(represents_writeDatAndIndex (X := X) fun p hp => (h.inRange p hp).stored).dat]
  exact List.drop_left' Raw.length_segmentHeader

/-- **The reader of the bytes** that were written for a list of entries. -/
theorem fromBytes_eq (id : SegmentId) (hash : Bytes) (m : SegmentMeta) :
    ∃ r, Raw.InMemorySegmentReader.fromBytes X Z id hash m (Raw.writeDatAndIndex Z entries).dat = .ok r ∧
      r.data = (Raw.writeDatAndIndex Z entries).dat ∧ r.segMeta = m ∧
      r.filter = X.buildFilter (entries.map Prod.fst) ∧
      Raw.Locates Z r.data 8 (writeDatAndIndex X entries).blocks r.index := by
  set data := (Raw.writeDatAndIndex Z entries).dat with hdata
  obtain ⟨index, haux, hloc⟩ := Raw.InMemorySegmentReader.fromBytesAux_eq
    (show data.length - 8 < data.length + 1 by omega) (h.blocks_written Z) h.drop_header
  have hlen : ¬ data.length < 8 := by
    rw [hdata, (represents_writeDatAndIndex (X := X) fun p hp => (h.inRange p hp).stored).dat,
      List.length_append, Raw.length_segmentHeader, segmentHeaderLen]
    omega
  refine ⟨⟨id, hash, data, index, X.buildFilter (entries.map Prod.fst), m⟩, ?_, rfl, rfl, rfl, hloc⟩
  rw [Raw.InMemorySegmentReader.fromBytes, if_neg hlen]
  change (Raw.InMemorySegmentReader.fromBytesAux Z data (data.length + 1) 8 >>= fun r => _) = _
  rw [haux, h.table_blocks]
  rfl

variable {r : Raw.InMemorySegmentReader} (hdata : r.data = (Raw.writeDatAndIndex Z entries).dat)
  (hloc : Raw.Locates Z r.data 8 (writeDatAndIndex X entries).blocks r.index)
include hdata hloc

/-- **A lookup** in memory finds the entry of the key. -/
theorem get_inMemory (hfilter : r.filter = X.buildFilter (entries.map Prod.fst)) (key : Bytes) :
    r.get X Z key = .ok (find entries key) := by
  rw [Raw.InMemorySegmentReader.get]
  split
  case isTrue hmiss =>
    -- a key that the filter denies is not in the list
    have hnone : find entries key = none := by
      apply find_eq_none_iff.mpr
      intro p hp hk
      have hc := X.filterContains_build (entries.map Prod.fst) p.1 (List.mem_map_of_mem hp)
      rw [hk, ← hfilter, hmiss] at hc
      cases hc
    rw [hnone]
  case isFalse =>
    obtain ⟨pre, post, heq, hpre, hdrop⟩ :=
      Raw.InMemorySegmentReader.findBlockOffset_split hloc
      (by rw [hdata]; exact h.drop_header) h.keySorted_table key
    have hw := h.blocks_written Z
    have hs := h.keySorted_table
    have htable := h.table_blocks
    rw [heq] at hw hs htable
    rw [Dat.table_append] at hs htable
    rw [@Raw.InMemorySegmentReader.getAux_eq _ post _ _ _ hloc
      (fun b hb => (h.blocks_written Z b hb).1) _ (by omega)
      (fun b hb => hw b (List.mem_append_right _ hb)) hs.of_append.2.1 hdrop key none (.inl rfl),
      Option.none_or, ← htable, find_append, find_eq_none_iff.mpr fun p hp => (hpre p hp).ne, Option.none_or]

/-- **A scan** in memory yields the entries of the range, unless the metadata exclude it. -/
theorem rangeScan_inMemory (start «end» : Bytes) :
    r.rangeScan Z start «end» =
      .ok (if «end» < r.segMeta.minKey ∨ r.segMeta.maxKey < start then []
        else within start «end» entries) := by
  rw [Raw.InMemorySegmentReader.rangeScan]
  split
  case isTrue => rfl
  case isFalse =>
    obtain ⟨pre, post, heq, hpre, hdrop⟩ :=
      Raw.InMemorySegmentReader.findBlockOffset_split hloc
      (by rw [hdata]; exact h.drop_header) h.keySorted_table start
    have hw := h.blocks_written Z
    have hs := h.keySorted_table
    have htable := h.table_blocks
    rw [heq] at hw hs htable
    rw [Dat.table_append] at hs htable
    have hnil : within start «end» (Dat.table pre) = [] := by
      apply List.filter_eq_nil_iff.mpr
      intro p hp
      simp [not_le.mpr (hpre p hp)]
    rw [@Raw.InMemorySegmentReader.rangeScanAux_eq _ post _ _ _ (by omega)
      (fun b hb => hw b (List.mem_append_right _ hb)) hs.of_append.2.1 hdrop, ← htable, within_append, hnil, List.nil_append]

end Flushable
