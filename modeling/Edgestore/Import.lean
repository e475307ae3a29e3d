import Edgestore.Engine

/-!
# Importing segments from peers

An import stages the bytes of a segment, applies its records one by one under fresh LSNs where they
are newer than the local ones by wall-clock time, and registers the file as a segment of its own.

## Main definitions

* `Engine.importSegment`, `ImportResult`
* `Engine.putWithTimestamp`, `Engine.deleteWithTimestamp`
-/

variable {X : Externals}

/-- The result of an import. -/
inductive ImportResult
  | applied (keysWritten keysSkipped : ℕ)
  | skipped
  | hashMismatch
  | rejected (reason : String)
  deriving DecidableEq, Repr

/-- What an import has seen of the segment so far. -/
structure ImportProgress where
  keysWritten : ℕ := 0
  keysSkipped : ℕ := 0
  segmentKeys : List Bytes := []
  minKey : Option Bytes := none
  maxKey : Option Bytes := none
  minLsn : Lsn := 2 ^ 64 - 1
  maxLsn : Lsn := 0
  deriving DecidableEq, Repr

/-- Take note of the key and the LSN of an incoming entry. -/
def ImportProgress.observe (g : ImportProgress) (p : Bytes × MemEntry) : ImportProgress :=
  { g with
    segmentKeys := g.segmentKeys ++ [p.1]
    minKey := some (g.minKey.elim p.1 fun k => min k p.1)
    maxKey := some (g.maxKey.elim p.1 fun k => max k p.1)
    minLsn := min g.minLsn p.2.lsn
    maxLsn := max g.maxLsn p.2.lsn }

/-- The metadata an import registers. -/
def importedMeta (id : SegmentId) (hash : Bytes) (size : ℕ) (g : ImportProgress)
    (createdAt : ℤ) : SegmentMeta where
  segmentId := id
  segmentHash := hash
  minKey := g.minKey.getD []
  maxKey := g.maxKey.getD []
  minLsn := if g.minLsn = 2 ^ 64 - 1 then 0 else g.minLsn
  maxLsn := g.maxLsn
  recordCount := g.keysWritten + g.keysSkipped
  compressedBytes := size
  uncompressedBytes := size
  compression := "zstd:1"
  cohortBucket := 0
  deathTime := 0
  merkleRoot := hash
  createdAt := createdAt
  textIndexStripped := false
  vectorIndexStripped := false

namespace Engine

/-- Write a value with a given timestamp. -/
def putWithTimestamp (ns key val : Bytes) (timestamp : ℤ) : Exec X Engine Lsn := do
  if ns.length > maxNsLen then Prog.throw (.namespaceTooLong ns.length maxNsLen)
  else
    let lsn ← nextLsn
    writeRecord (putRecord X lsn timestamp 0 ns key val)

/-- Write a tombstone with a given timestamp. -/
def deleteWithTimestamp (ns key : Bytes) (timestamp : ℤ) : Exec X Engine Lsn := do
  let lsn ← nextLsn
  writeRecord (deleteRecord X lsn timestamp ns key)

/-- The entry an incoming one competes with: that of the memtable, else that of the segments. -/
def localEntry (X : Externals) (fs : Fs) (e : Engine) (key : Bytes) : Option MemEntry :=
  (e.memtable.get key).or ((e.segmentStore.get X fs key).toOption.join)

/-- Apply one incoming entry, if its timestamp is greater than that of the local one. -/
def importEntry (g : ImportProgress) (p : Bytes × MemEntry) : Exec X Engine ImportProgress := do
  let g := g.observe p
  let loc := (← Exec.get).localEntry X (← Exec.fs) p.1
  if loc.all fun l => p.2.timestamp > l.timestamp then
    match decodeKey p.1, p.2.op, p.2.value with
    | .ok (ns, key), .put, some val =>
      let _ ← putWithTimestamp ns key val p.2.timestamp
      return { g with keysWritten := g.keysWritten + 1 }
    | .ok _, .put, none => return { g with keysSkipped := g.keysSkipped + 1 }
    | .ok (ns, key), .delete, _ =>
      let _ ← deleteWithTimestamp ns key p.2.timestamp
      return { g with keysWritten := g.keysWritten + 1 }
    | .error _, _, _ => return g
  else return { g with keysSkipped := g.keysSkipped + 1 }

/-- Write the sidecar files of an imported segment. -/
def writeSidecars (id : SegmentId) (g : ImportProgress) (m : SegmentMeta) :
    Exec X Engine Unit := do
  Exec.effect (.idxWrite id [([], 0)])
  Exec.effect (.sync (.seg id .idx))
  Exec.effect (.xfWrite id (X.buildFilter g.segmentKeys))
  Exec.effect (.sync (.seg id .xf))
  Exec.effect (.metaWrite id m)
  Exec.effect (.sync (.seg id .meta'))

/-- Import a segment of a peer, given as its `.dat` file with its size in bytes, under the hash the
peer claims. -/
def importSegment (dat : Dat) (size : ℕ) (hash : Bytes) : Exec X Engine ImportResult := do
  if (← Exec.get).segmentStore.manifest.segments.any fun m => m.segmentHash = hash then
    return .skipped
  else if X.datHash dat ≠ hash then return .hashMismatch
  else
    Exec.effect (.stageWrite hash dat)
    Exec.effect (.stageRename hash)
    match parseDatEntries dat with
    | .error (.segmentCorrupt msg) => return .rejected s!"segment corrupt: {msg}"
    | .error _ => return .rejected ""
    | .ok parsed =>
      let g ← parsed.foldlM importEntry {}
      let newId ← onStore SegmentStore.allocSegmentId
      Exec.effect (.stageAdopt hash newId)
      onWal WalWriter.fsync
      let nanos ← Exec.now
      let segMeta := importedMeta newId hash size g (asI64 nanos)
      writeSidecars newId g segMeta
      let reader ← Prog.lift (openReader newId ((← Exec.fs).segs newId))
      onStore (SegmentStore.addImportedSegment segMeta reader)
      return .applied g.keysWritten g.keysSkipped

end Engine
