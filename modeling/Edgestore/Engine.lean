import Edgestore.Wal
import Edgestore.Segment.Store

/-!
# The engine

The single-writer engine: a WAL writer, a memtable, the LSN and transaction counters, the segment
store and the snapshot registry.

Every write appends its record to the WAL, rotates the WAL if it is due, and only then enters the
memtable. A flush has three phases: `beginFlush` snapshots the memtable and reserves a segment id,
`FlushWork.execute` writes the files, and `finalizeFlush` registers the segment, drops the flushed
entries from the memtable and unlinks every WAL file but the current one.

## Main definitions

* `Engine`, `Engine.open`
* `Engine.put`, `Engine.putWithTtl`, `Engine.delete`, `Engine.commitTransaction`
* `Engine.beginFlush`, `Engine.finalizeFlush`, `Engine.flushToSegments`
* `Engine.get`, `Engine.range`
* `Transaction`, with `put`, `putWithTtl` and `delete`
-/

variable {X : Externals} {σ : Type}

/-- The segments pinned by live snapshots. -/
structure SnapshotRegistry where
  nextId : ℕ := 1
  pinned : List (ℕ × List SegmentId) := []
  deriving DecidableEq, Repr

namespace SnapshotRegistry

/-- Pin segments under a new snapshot id. -/
def register (s : SnapshotRegistry) (ids : List SegmentId) : SnapshotRegistry :=
  ⟨s.nextId + 1, (s.nextId, ids) :: s.pinned⟩

/-- Release the pins of a snapshot. -/
def release (s : SnapshotRegistry) (snapshotId : ℕ) : SnapshotRegistry :=
  { s with pinned := s.pinned.filter fun p => p.1 ≠ snapshotId }

/-- All pinned segment ids. -/
def pinnedIds (s : SnapshotRegistry) : List SegmentId := s.pinned.flatMap Prod.snd

end SnapshotRegistry

/-- The engine. -/
structure Engine where
  config : EdgestoreConfig
  wal : WalWriter
  memtable : MemTable
  lsnCounter : Lsn
  txidCounter : ℕ
  segmentStore : SegmentStore
  snapshotRegistry : SnapshotRegistry

/-- The states of a transaction. -/
inductive TxState
  | active
  | committed
  | rolledBack
  deriving DecidableEq, Repr

/-- A transaction and its pending records. -/
structure Transaction where
  txid : ℕ
  pending : List WalRecord := []
  state : TxState := .active
  deriving DecidableEq, Repr

namespace Transaction

/-- Add a record of operation `op` to an active transaction. -/
def push (X : Externals) (tx : Transaction) (op : Operation) (ns key val : Bytes) (ttl : ℕ)
    (lsn : Lsn) (timestamp : ℤ) : Except EdgestoreError Transaction :=
  if tx.state ≠ .active then .error (.invalidOperation "transaction not active")
  else
    .ok { tx with
      pending := tx.pending ++ [{
        txid := tx.txid
        lsn := lsn
        timestamp := timestamp
        ttl := ttl
        nsLen := ns.length % 65536
        nsBytes := ns
        keyBytes := key
        op := op
        valueHash := X.blake3 val
        valueBytes := val }] }

/-- Append a put. -/
def put (X : Externals) (tx : Transaction) (ns key val : Bytes) (lsn : Lsn) (timestamp : ℤ) :
    Except EdgestoreError Transaction := tx.push X .put ns key val 0 lsn timestamp

/-- Append a put with a TTL. -/
def putWithTtl (X : Externals) (tx : Transaction) (ns key val : Bytes) (ttlSecs : ℕ) (lsn : Lsn)
    (timestamp : ℤ) : Except EdgestoreError Transaction :=
  tx.push X .put ns key val ttlSecs lsn timestamp

/-- Append a delete. -/
def delete (X : Externals) (tx : Transaction) (ns key : Bytes) (lsn : Lsn) (timestamp : ℤ) :
    Except EdgestoreError Transaction := tx.push X .delete ns key [] 0 lsn timestamp

/-- The pending records of an active transaction. -/
def takePending (tx : Transaction) : Except EdgestoreError (List WalRecord) :=
  match tx.state with
  | .active => .ok tx.pending
  | .committed => .error (.invalidOperation "already committed")
  | .rolledBack => .error (.invalidOperation "already rolled back")

end Transaction

/-- The rough size of a memtable entry, by which the automatic flush is triggered. -/
def avgEntrySizeEstimate : ℕ := 256

namespace Engine

/-- Open the WAL for writing: create the first file, or open the latest one and rotate it if it is
due. -/
def openWal (config : EdgestoreConfig) (lsnCounter : Lsn) : Exec X σ WalWriter := do
  match (← Exec.fs).wals.entries.getLast? with
  | none => WalWriter.create lsnCounter config
  | some latest =>
    let opened ← WalWriter.open latest.1 config
    let nanos ← Exec.now
    if opened.needsRotation (unixSecs nanos) then WalWriter.create (lsnCounter + 1) config
    else return opened

/-- Open or create an engine: replay the WAL, open it for writing, open the segment store. -/
def «open» (config : EdgestoreConfig) : Exec X σ Engine := do
  let (memtable, result) ← Prog.lift (recoverFromWal X (← Exec.fs) .empty)
  let wal ← openWal config result.maxLsn
  let segmentStore ← SegmentStore.open config.cohortWindowSecs
  return ⟨config, wal, memtable, result.maxLsn, result.maxTxid, segmentStore, {}⟩

/-! ### Writes -/

/-- A method of the WAL writer. -/
def onWal {α : Type} (m : Exec X WalWriter α) : Exec X Engine α :=
  Exec.zoom Engine.wal (fun w e => { e with wal := w }) m

/-- A method of the segment store. -/
def onStore {α : Type} (m : Exec X SegmentStore α) : Exec X Engine α :=
  Exec.zoom Engine.segmentStore (fun s e => { e with segmentStore := s }) m

/-- Rotate the WAL if it is due. -/
def rotateWalIfNeeded : Exec X Engine Unit := do
  let nanos ← Exec.now
  if (← Exec.get).wal.needsRotation (unixSecs nanos) then
    onWal WalWriter.fsync
    let e ← Exec.get
    let wal ← WalWriter.create e.lsnCounter e.config
    Exec.modify fun e => { e with wal := wal }

/-- Take the next LSN. -/
def nextLsn : Exec X Engine Lsn := do
  Exec.modify fun e => { e with lsnCounter := e.lsnCounter + 1 }
  return (← Exec.get).lsnCounter

/-- Append a record to the WAL, rotate, encode its key, and insert it into the memtable. -/
def writeRecord (record : WalRecord) : Exec X Engine Lsn := do
  onWal (WalWriter.append record)
  rotateWalIfNeeded
  let encodedKey ← Prog.lift (encodeKey record.nsBytes record.keyBytes)
  Exec.modify fun e =>
    { e with memtable := e.memtable.insert encodedKey (record.toEntry encodedKey) }
  return record.lsn

/-- The record of a put. -/
def putRecord (X : Externals) (lsn : Lsn) (timestamp : ℤ) (ttl : ℕ) (ns key val : Bytes) :
    WalRecord where
  txid := 0
  lsn := lsn
  timestamp := timestamp
  ttl := ttl
  nsLen := ns.length % 65536
  nsBytes := ns
  keyBytes := key
  op := .put
  valueHash := X.blake3 val
  valueBytes := val

/-- The record of a delete. -/
def deleteRecord (X : Externals) (lsn : Lsn) (timestamp : ℤ) (ns key : Bytes) : WalRecord where
  txid := 0
  lsn := lsn
  timestamp := timestamp
  ttl := 0
  nsLen := ns.length % 65536
  nsBytes := ns
  keyBytes := key
  op := .delete
  valueHash := X.blake3 []
  valueBytes := []

/-- Write an entry at the present time. -/
def writeEntry (ns key val : Bytes) (ttlSecs : ℕ) : Exec X Engine Lsn := do
  let lsn ← nextLsn
  let nanos ← Exec.now
  writeRecord (putRecord X lsn (asI64 nanos) ttlSecs ns key val)

/-- The checks before a put: the engine is writable, and the namespace is not too long. -/
def checkPut (ns : Bytes) : Exec X Engine Unit := do
  if (← Exec.get).config.readonly then Prog.throw .readOnly
  else if ns.length > maxNsLen then Prog.throw (.namespaceTooLong ns.length maxNsLen)

/-! ### Flushing -/

/-- Snapshot the memtable and reserve a segment id; `none` if the memtable is empty. -/
def beginFlush : Exec X Engine (Option FlushWork) := do
  let e ← Exec.get
  if e.memtable.isEmpty then return none
  else onStore (SegmentStore.prepareFlush e.memtable)

/-- Unlink every WAL file but the current one. -/
def retireWals : Exec X Engine Unit := do
  let current := (← Exec.get).wal.name
  let names := (← Exec.fs).wals.entries.map Prod.fst
  (names.filter fun n => n ≠ current).forM fun n => Exec.effect (.walUnlink n)

/-- Register a written segment, keep only the memtable entries above the flushed LSNs, and retire
WAL files. -/
def finalizeFlush (segMeta : SegmentMeta) (flushedMaxLsn : Lsn) : Exec X Engine Unit := do
  onStore (SegmentStore.finalizeSegment segMeta)
  Exec.modify fun e =>
    { e with memtable := e.memtable.filter fun p => p.2.lsn > flushedMaxLsn }
  retireWals

/-- Flush the memtable to a new segment. -/
def flushToSegments : Exec X Engine SegmentMeta := do
  match ← beginFlush with
  | none => Prog.throw (.segmentCorrupt "memtable is empty")
  | some work =>
    let segMeta ← work.execute
    finalizeFlush segMeta work.flushedMaxLsn
    return segMeta

/-- Sync the current WAL file. -/
def flush : Exec X Engine Unit := onWal WalWriter.fsync

/-! ### Client writes -/

/-- Store a value. A memtable that has grown too large is flushed. -/
def put (ns key val : Bytes) : Exec X Engine Lsn := do
  checkPut ns
  let lsn ← writeEntry ns key val 0
  let e ← Exec.get
  if e.memtable.len * avgEntrySizeEstimate ≥ e.config.memtableMaxBytes then
    let _ ← flushToSegments
    return lsn
  else return lsn

/-- Store a value with a TTL. -/
def putWithTtl (ns key val : Bytes) (ttlSecs : ℕ) : Exec X Engine Lsn := do
  checkPut ns
  writeEntry ns key val ttlSecs

/-- Delete a key. -/
def delete (ns key : Bytes) : Exec X Engine Lsn := do
  if (← Exec.get).config.readonly then Prog.throw .readOnly
  else
    let lsn ← nextLsn
    let nanos ← Exec.now
    writeRecord (deleteRecord X lsn (asI64 nanos) ns key)

/-- Begin a transaction. -/
def begin : Exec X Engine Transaction := do
  Exec.modify fun e => { e with txidCounter := e.txidCounter + 1 }
  return { txid := (← Exec.get).txidCounter }

/-- Write one record of a transaction under the next LSN. -/
def commitRecord (record : WalRecord) : Exec X Engine Unit := do
  let lsn ← nextLsn
  let record := { record with lsn := lsn }
  onWal (WalWriter.append record)
  let encodedKey ← Prog.lift (encodeKey record.nsBytes record.keyBytes)
  Exec.modify fun e =>
    { e with memtable := e.memtable.insert encodedKey (record.toEntry encodedKey) }

/-- Commit a transaction. -/
def commitTransaction (tx : Transaction) : Exec X Engine Lsn := do
  let records ← Prog.lift tx.takePending
  records.forM commitRecord
  let lastLsn := (← Exec.get).lsnCounter
  onWal WalWriter.fsync
  rotateWalIfNeeded
  return lastLsn

/-! ### Snapshots -/

/-- Pin all segments of the store under a new snapshot id. -/
def snapshot : Exec X Engine ℕ := do
  let e ← Exec.get
  Exec.modify fun e =>
    { e with
      snapshotRegistry :=
        e.snapshotRegistry.register (e.segmentStore.readers.map SegmentReader.segmentId) }
  return e.snapshotRegistry.nextId

/-- Drop a snapshot. -/
def dropSnapshot (snapshotId : ℕ) : Exec X Engine Unit :=
  Exec.modify fun e => { e with snapshotRegistry := e.snapshotRegistry.release snapshotId }

/-! ### Reads -/

/-- Look up a key: the memtable first, then the segments. -/
def get (X : Externals) (fs : Fs) (e : Engine) (ns key : Bytes) :
    Except EdgestoreError (Option Bytes) := do
  let encodedKey ← encodeKey ns key
  match e.memtable.get encodedKey with
  | some entry => return if entry.op = .delete then none else entry.value
  | none =>
    match ← e.segmentStore.get X fs encodedKey with
    | some entry => return if entry.op = .delete then none else entry.value
    | none => return none

/-- Merge two sorted scans; on equal keys the segment entry comes first. -/
def mergeSortedScans : List (Bytes × MemEntry) → List (Bytes × MemEntry) → List (Bytes × MemEntry)
  | [], mem => mem
  | s :: seg, mem => go s seg (mergeSortedScans seg) mem
where
  /-- Emit memtable entries up to `s`, then `s`. -/
  go (s : Bytes × MemEntry) (seg : List (Bytes × MemEntry))
      (rest : List (Bytes × MemEntry) → List (Bytes × MemEntry)) :
      List (Bytes × MemEntry) → List (Bytes × MemEntry)
    | [] => s :: seg
    | m :: mem => if s.1 ≤ m.1 then s :: rest (m :: mem) else m :: go s seg rest mem

/-- Accounting of a query. -/
structure QueryStats where
  segmentsScanned : ℕ := 0
  bytesScanned : ℕ := 0
  itemsExamined : ℕ := 0
  deriving DecidableEq, Repr

/-- Limits of a scan. -/
structure ScanBudget where
  maxItems : Option ℕ := none
  maxBytes : Option ℕ := none
  deriving DecidableEq, Repr

/-- The result of a scan with limits. -/
structure BudgetedScan where
  items : List (Bytes × Bytes)
  truncated : Bool
  stats : QueryStats
  deriving DecidableEq, Repr

/-- The bytes of an entry, for accounting. -/
def scannedBytes (p : Bytes × MemEntry) : ℕ := p.1.length + (p.2.value.getD []).length

/-- Count an examined entry. -/
def QueryStats.examine (s : QueryStats) (p : Bytes × MemEntry) : QueryStats :=
  { s with
    bytesScanned := s.bytesScanned + scannedBytes p
    itemsExamined := s.itemsExamined + 1 }

/-- Whether a scan has reached its limits after `n` items. -/
def ScanBudget.reached (b : Option ScanBudget) (n : ℕ) (stats : QueryStats) : Bool :=
  b.any fun b => b.maxItems.any (n ≥ ·) || b.maxBytes.any (stats.bytesScanned ≥ ·)

/-- Emit the best entry of a key, unless it is a tombstone. -/
def emitBest (best : Bytes × MemEntry) (out : List (Bytes × Bytes)) :
    Except EdgestoreError (Option (List (Bytes × Bytes))) :=
  if best.2.op = .delete then .ok none
  else
    match best.2.value with
    | none => .ok none
    | some val => do
      let (_, rawKey) ← decodeKey best.1
      return some (out ++ [(rawKey, val)])

/-- Keep the highest LSN of each key, drop tombstones, decode keys, stop at the limits. `best` is
the best entry so far of the key at hand. -/
def dedupFilterScan (budget : Option ScanBudget) (segTruncated : Bool) :
    Option (Bytes × MemEntry) → List (Bytes × Bytes) → QueryStats → List (Bytes × MemEntry) →
      Except EdgestoreError BudgetedScan
  | none, out, stats, [] => .ok ⟨out, segTruncated, stats⟩
  | some best, out, stats, [] => do
    match ← emitBest best out with
    | none => return ⟨out, segTruncated, stats⟩
    | some out' => return ⟨out', segTruncated, stats⟩
  | none, out, stats, p :: rest =>
    dedupFilterScan budget segTruncated (some p) out (stats.examine p) rest
  | some best, out, stats, p :: rest =>
    if p.1 = best.1 then
      dedupFilterScan budget segTruncated
        (some (best.1, if p.2.lsn > best.2.lsn then p.2 else best.2)) out (stats.examine p) rest
    else do
      match ← emitBest best out with
      | none => dedupFilterScan budget segTruncated (some p) out (stats.examine p) rest
      | some out' =>
        if ScanBudget.reached budget out'.length stats then return ⟨out', true, stats⟩
        else dedupFilterScan budget segTruncated (some p) out' (stats.examine p) rest

/-- A scan of memtable and segments. -/
def rangeCore (fs : Fs) (e : Engine) (ns start «end» : Bytes) (budget : Option ScanBudget) :
    Except EdgestoreError BudgetedScan := do
  let encStart ← encodeKey ns start
  let encEnd ← encodeKey ns «end»
  let maxItems := budget.bind ScanBudget.maxItems
  let (segResults, segTruncated) ←
    e.segmentStore.rangeScanBudgeted fs encStart encEnd maxItems
  let memResults := e.memtable.range encStart encEnd
  let stats : QueryStats := { segmentsScanned := if segResults = [] then 0 else 1 }
  dedupFilterScan budget segTruncated none [] stats (mergeSortedScans segResults memResults)

/-- The live pairs of a namespace with `start ≤ key < end`. -/
def range (fs : Fs) (e : Engine) (ns start «end» : Bytes) :
    Except EdgestoreError (List (Bytes × Bytes)) := do
  return (← rangeCore fs e ns start «end» none).items

end Engine
