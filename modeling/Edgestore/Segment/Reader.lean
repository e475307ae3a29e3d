import Edgestore.Segment.Writer

/-!
# Reading segments

A reader caches the metadata, the filter and the sparse index of a segment; it goes to the `.dat`
file for every lookup and scan. A lookup starts from the block the sparse index names and stops at
the first greater key.

## Main definitions

* `SegmentReader`, with `open`, `get`, `rangeScan`
* `SegmentCursor.items`: what a cursor yields, read block by block as it is consumed
* `parseDatEntries`: all entries of a `.dat` file, as an import reads them
-/

variable {X : Externals} {σ : Type}

/-- The largest number of fingerprints a reader accepts. -/
def maxFingerprints : ℕ := 1000000

/-- The largest sparse index a reader accepts. -/
def maxIndexCount : ℕ := 10000000

/-- A reader of a segment. -/
structure SegmentReader where
  segmentId : SegmentId
  segMeta : SegmentMeta
  filter : XorFilter
  index : SparseIndex
  deriving DecidableEq, Repr

/-- Open a file that is written in one go. A torn file ends before `label`. -/
def File.read {α : Type} (f : File α) (label : String) : Except EdgestoreError α :=
  match f with
  | .absent => .error (.io .notFound)
  | .torn => .error (.segmentCorrupt label)
  | .whole a => .ok a

/-- Read a filter. -/
def readXfFile (f : File XorFilter) : Except EdgestoreError XorFilter := do
  let filter ← f.read "xf: truncated fingerprints"
  if filter.fingerprints.length > maxFingerprints then
    .error (.segmentCorrupt "xf: fingerprints_len too large")
  else .ok filter

/-- Read a sparse index. -/
def readIdxFile (f : File SparseIndex) : Except EdgestoreError SparseIndex := do
  let index ← f.read "idx: truncated key"
  if index.length > maxIndexCount then .error (.segmentCorrupt "idx: count too large")
  else .ok index

/-- Open the files of a segment. -/
def openReader (id : SegmentId) (files : SegmentFiles) : Except EdgestoreError SegmentReader := do
  let segMeta ← files.segMeta.read "meta parse"
  let filter ← readXfFile files.xf
  let index ← readIdxFile files.idx
  return ⟨id, segMeta, filter, index⟩

/-- The block from which to look for a key: the block of the last index key up to it, or the first
block of the index. -/
def findBlockOffset (index : SparseIndex) (queryKey : Bytes) : ℕ :=
  match (index.takeWhile fun p => p.1 ≤ queryKey).getLast? with
  | some p => p.2
  | none =>
    match index.head? with
    | some p => p.2
    | none => 0

/-- The entries of a block. -/
def readBlock : Block → Except EdgestoreError (List (Bytes × MemEntry))
  | .decoded size entries =>
    if size > maxBlockDecompressed then
      .error (.segmentCorrupt "decompressed block too large")
    else .ok entries
  | .undecodable => .error (.segmentCorrupt "zstd decode")
  | .truncated => .error (.io .unexpectedEof)

/-- Open a `.dat` file. -/
def readDat (f : File Dat) : Except EdgestoreError Dat :=
  match f with
  | .absent => .error (.io .notFound)
  | .torn => .error (.io .unexpectedEof)
  | .whole dat => .ok dat

/-- Where the search for a key in sorted entries ends: at the key, behind it, or nowhere yet. -/
inductive BlockHit
  | found (e : MemEntry)
  | past
  | continue
  deriving DecidableEq, Repr

/-- Look for a key in the entries of a block. -/
def searchEntries (key : Bytes) : List (Bytes × MemEntry) → BlockHit
  | [] => .continue
  | (k, e) :: entries =>
    if k = key then .found e
    else if key < k then .past
    else searchEntries key entries

/-- Look for a key in blocks. A block without entries ends the search. -/
def searchBlocks (key : Bytes) : Dat → Except EdgestoreError (Option MemEntry)
  | [] => .ok none
  | b :: blocks => do
    let entries ← readBlock b
    if entries = [] then return none
    else
      match searchEntries key entries with
      | .found e => return some e
      | .past => return none
      | .continue => searchBlocks key blocks

/-- The entries of blocks with `start ≤ key`, up to the first with `end ≤ key`. -/
def scanBlocks (start «end» : Bytes) : Dat → Except EdgestoreError (List (Bytes × MemEntry))
  | [] => .ok []
  | b :: blocks => do
    let entries ← readBlock b
    if entries = [] then return []
    else
      let here := (entries.takeWhile fun p => p.1 < «end»).filter fun p => start ≤ p.1
      if entries.all fun p => p.1 < «end» then
        return here ++ (← scanBlocks start «end» blocks)
      else return here

namespace SegmentReader

/-- Look up a single key. -/
def get (X : Externals) (fs : Fs) (r : SegmentReader) (key : Bytes) :
    Except EdgestoreError (Option MemEntry) :=
  if X.filterContains r.filter key = false then .ok none
  else do
    let dat ← readDat (fs.segs r.segmentId).dat
    searchBlocks key (dat.drop (findBlockOffset r.index key))

/-- The entries with `start ≤ key < end`. -/
def rangeScan (fs : Fs) (r : SegmentReader) (start «end» : Bytes) :
    Except EdgestoreError (List (Bytes × MemEntry)) :=
  if «end» < r.segMeta.minKey ∨ r.segMeta.maxKey < start then .ok []
  else do
    let dat ← readDat (fs.segs r.segmentId).dat
    scanBlocks start «end» (dat.drop (findBlockOffset r.index start))

end SegmentReader

namespace SegmentCursor

/-- What a cursor yields: entries, read one block at a time, up to the end of the range, of the
file, or an unreadable block. -/
def items (start «end» : Bytes) : Dat → List (Except EdgestoreError (Bytes × MemEntry))
  | [] => []
  | b :: blocks =>
    match readBlock b with
    | .error e => [.error e]
    | .ok entries =>
      if entries = [] then []
      else
        let here := (entries.takeWhile fun p => p.1 < «end»).filter fun p => start ≤ p.1
        if entries.all fun p => p.1 < «end» then here.map .ok ++ items start «end» blocks
        else here.map .ok

/-- Open a cursor over `[start, end)`; `none` when the key range of the segment does not meet it. -/
def «open» (fs : Fs) (r : SegmentReader) (start «end» : Bytes) :
    Except EdgestoreError (Option (List (Except EdgestoreError (Bytes × MemEntry)))) :=
  if «end» ≤ r.segMeta.minKey ∨ r.segMeta.maxKey < start then .ok none
  else do
    let dat ← readDat (fs.segs r.segmentId).dat
    return some (items start «end» (dat.drop (findBlockOffset r.index start)))

end SegmentCursor

/-- All entries of a `.dat` file. Parsing stops at a truncated block. -/
def parseDatEntries : Dat → Except EdgestoreError (List (Bytes × MemEntry))
  | [] => .ok []
  | .truncated :: _ => .ok []
  | .undecodable :: _ => .error (.segmentCorrupt "parse_dat_entries zstd decode")
  | .decoded size entries :: blocks =>
    if size > maxBlockDecompressed then .error (.segmentCorrupt "decompressed block too large")
    else do return entries ++ (← parseDatEntries blocks)
