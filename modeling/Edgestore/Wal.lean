import Edgestore.Disk
import Edgestore.MemTable

/-!
# The write-ahead log

Writers of WAL files, and the recovery that replays all WAL files into a memtable.

## Main definitions

* `WalWriter`, with `create`, `open`, `append`, `fsync`, `needsRotation`
* `walRecords X fs n`: the records a reader finds in a WAL file
* `recoverFromWal`: the replay of all WAL files in the order of their names
-/

variable {X : Externals} {σ : Type}

/-- The writer of one WAL file, named by the LSN in the file's name. -/
structure WalWriter where
  name : Lsn
  bytesWritten : ℕ
  createdAtSecs : ℕ
  walMaxBytes : ℕ
  walMaxAgeSecs : ℕ
  deriving DecidableEq, Repr

/-- Seconds since the epoch, by a clock reading in nanoseconds. -/
def unixSecs (nanos : ℕ) : ℕ := nanos / 1000000000

/-- Check the header of a WAL file. -/
def readAndValidateHeader (bs : Bytes) : Except EdgestoreError Unit :=
  if bs.length < 8 then .error (.corruptRecord "WAL file too short to contain header")
  else if bs.take 4 ≠ walHeader.take 4 then
    .error (.corruptRecord s!"bad WAL magic: {(bs.take 4).map Fin.val}")
  else if (bs.drop 4).take 1 ≠ [1] then .error (.formatVersion 1 (ofLe ((bs.drop 4).take 1)))
  else .ok ()

namespace WalWriter

/-- Create a WAL file and write its header. The file must not exist. -/
def create (n : Lsn) (config : EdgestoreConfig) : Exec X σ WalWriter := do
  if ((← Exec.fs).wals.get n).isSome then
    Prog.throw (.io .alreadyExists)
  else
    Exec.effect (.walCreate n)
    Exec.effect (.walHeader n)
    let nanos ← Exec.now
    return ⟨n, walHeader.length, unixSecs nanos, config.walMaxBytes, config.walMaxAgeSecs⟩

/-- Open a WAL file for appending at its end. -/
def «open» (n : Lsn) (config : EdgestoreConfig) : Exec X σ WalWriter := do
  match (← Exec.fs).wals.get n with
  | none => Prog.throw (.io .notFound)
  | some bs =>
    Prog.lift (readAndValidateHeader bs)
    let nanos ← Exec.now
    return ⟨n, bs.length, unixSecs nanos, config.walMaxBytes, config.walMaxAgeSecs⟩

/-- Append one record. -/
def append (record : WalRecord) : Exec X WalWriter Unit := do
  Exec.effect (.walAppend (← Exec.get).name record)
  Exec.modify fun w =>
    { w with
      bytesWritten := w.bytesWritten + (FramedLog.frame (walFormat X) record).length }

/-- Sync the file. -/
def fsync : Exec X WalWriter Unit := do
  Exec.effect (.sync (.wal (← Exec.get).name))

/-- Whether the file is large or old enough to be rotated. -/
def needsRotation (w : WalWriter) (nowSecs : ℕ) : Bool :=
  w.bytesWritten ≥ w.walMaxBytes ∨ nowSecs - w.createdAtSecs ≥ w.walMaxAgeSecs

end WalWriter

/-! ### Recovery -/

/-- The records a reader finds in the bytes of a WAL file. -/
def readRecords (X : Externals) (bs : Bytes) : List WalRecord :=
  FramedLog.read (walFormat X) (bs.drop walHeader.length)

/-- What a recovery reports. -/
structure RecoveryResult where
  recordsReplayed : ℕ := 0
  recordsSkipped : ℕ := 0
  maxLsn : Lsn := 0
  maxTxid : ℕ := 0
  walFilesRead : ℕ := 0
  deriving DecidableEq, Repr

/-- Replay one record into the memtable. -/
def replayRecord (acc : MemTable × RecoveryResult) (record : WalRecord) :
    Except EdgestoreError (MemTable × RecoveryResult) := do
  let encodedKey ← encodeKey record.nsBytes record.keyBytes
  return (acc.1.insert encodedKey (record.toEntry encodedKey),
    { acc.2 with
      maxLsn := max acc.2.maxLsn record.lsn
      maxTxid := max acc.2.maxTxid record.txid
      recordsReplayed := acc.2.recordsReplayed + 1 })

/-- Replay one WAL file. A file without a valid header is skipped. -/
def replayWal (X : Externals) (acc : MemTable × RecoveryResult) (bs : Bytes) :
    Except EdgestoreError (MemTable × RecoveryResult) :=
  match readAndValidateHeader bs with
  | .error _ => .ok (acc.1, { acc.2 with recordsSkipped := acc.2.recordsSkipped + 1 })
  | .ok () =>
    (readRecords X bs).foldlM replayRecord
      (acc.1, { acc.2 with walFilesRead := acc.2.walFilesRead + 1 })

/-- Replay all WAL files of a directory, in the order of their names. -/
def recoverFromWal (X : Externals) (fs : Fs) (memtable : MemTable) :
    Except EdgestoreError (MemTable × RecoveryResult) :=
  fs.wals.entries.foldlM (fun acc p => replayWal X acc p.2) (memtable, {})
