import Edgestore.Lib.Bytes
import Edgestore.Lib.SortedMap

/-!
# Records, segment metadata, configuration and errors

The data of the store, and the pure functions on it: the encoding of namespace and key, the
compaction cohort of a record, and the time at which compaction treats it as dead.

LSNs, ids, sizes and `u32`/`u64` counters are natural numbers. Wall-clock times are integers in the
range of `i64`, and the arithmetic on them saturates where the code's does.

## Main definitions

* `MemEntry`, `WalRecord`, `SegmentMeta`, `EdgestoreConfig`, `EdgestoreError`
* `encodeKey`, `decodeKey`: the key format `[ns_len : u16-be][ns][key]`
* `cohortBucketFor`, `deathTimeFor`: cohort and death time of a record

## Main results

* `decodeKey_encodeKey`: decoding inverts encoding
-/

/-- Log sequence numbers. -/
abbrev Lsn := ℕ

/-- Segment ids. -/
abbrev SegmentId := ℕ

/-- The kinds of I/O error the code can meet. -/
inductive IoError
  | alreadyExists
  | notFound
  | unexpectedEof
  deriving DecidableEq, Repr

/-- The errors of the store. `panicked` is a panic of the code, with its message. -/
inductive EdgestoreError
  | io (kind : IoError)
  | corruptRecord (msg : String)
  | corruptKey
  | writerBusy
  | invalidOperation (msg : String)
  | namespaceTooLong (len max : ℕ)
  | formatVersion (expected got : ℕ)
  | segmentCorrupt (msg : String)
  | manifestCorrupt (msg : String)
  | dimensionMismatch (expected actual : ℕ)
  | corruptData (msg : String)
  | readOnly
  | replicationError (msg : String)
  | panicked (msg : String)
  deriving DecidableEq, Repr

/-- The operation of a record; `Delete` is a tombstone. -/
inductive Operation
  | put
  | delete
  deriving DecidableEq, Repr

/-- A record in memory and in segments. `value` is `none` for a tombstone; `ttl` is in seconds,
with `0` for no TTL. -/
structure MemEntry where
  key : Bytes
  value : Option Bytes
  op : Operation
  lsn : Lsn
  timestamp : ℤ
  ttl : ℕ
  deriving DecidableEq, Repr

/-- A record of the write-ahead log. -/
structure WalRecord where
  txid : ℕ
  lsn : Lsn
  timestamp : ℤ
  ttl : ℕ
  nsLen : ℕ
  nsBytes : Bytes
  keyBytes : Bytes
  op : Operation
  valueHash : Bytes
  valueBytes : Bytes
  deriving DecidableEq, Repr

/-- The metadata of a segment, as its `.meta` file and the manifest hold it. -/
structure SegmentMeta where
  segmentId : SegmentId
  segmentHash : Bytes
  minKey : Bytes
  maxKey : Bytes
  minLsn : Lsn
  maxLsn : Lsn
  recordCount : ℕ
  compressedBytes : ℕ
  uncompressedBytes : ℕ
  compression : String
  cohortBucket : ℤ
  deathTime : ℤ
  merkleRoot : Bytes
  createdAt : ℤ
  textIndexStripped : Bool
  vectorIndexStripped : Bool
  deriving DecidableEq, Repr

/-- The part of the configuration that the modelled functions read. -/
structure EdgestoreConfig where
  walMaxBytes : ℕ := 64 * 1024 * 1024
  walMaxAgeSecs : ℕ := 60
  memtableMaxBytes : ℕ := 8 * 1024 * 1024
  cohortWindowSecs : ℕ := 3600
  compactionWriteBudgetBytes : ℕ := 256 * 1024 * 1024
  hnswMaxRamBytes : ℕ := 512 * 1024 * 1024
  readonly : Bool := false
  deriving DecidableEq, Repr

/-! ### Machine integers -/

/-- The cast `as i64`: the low 64 bits, read as a signed number. -/
def asI64 (n : ℤ) : ℤ := n.bmod (2 ^ 64)

/-- Bring a number into the range of `i64`, as saturating arithmetic does. -/
def saturateI64 (n : ℤ) : ℤ := max (-2 ^ 63) (min n (2 ^ 63 - 1))

/-- Nanoseconds in a second. -/
def nanosPerSec : ℤ := 1000000000

/-! ### Cohorts and death times -/

/-- The compaction cohort of a record: its write time, plus its TTL if it has one, in windows.
A zero window divides by zero. -/
def cohortBucketFor (writeTimeNanos : ℤ) (ttl cohortWindowSecs : ℕ) : Except EdgestoreError ℤ :=
  let writeTimeSecs := writeTimeNanos.tdiv nanosPerSec
  let cw := asI64 cohortWindowSecs
  if cw = 0 then .error (.panicked "attempt to divide by zero")
  else if ttl > 0 then .ok ((writeTimeSecs + ttl).tdiv cw)
  else .ok (writeTimeSecs.tdiv cw)

/-- The time from which compaction treats a record as dead. A record without TTL dies one cohort
window after it was written. -/
def deathTimeFor (writeTimeNanos : ℤ) (ttl cohortWindowSecs : ℕ) : ℤ :=
  if ttl > 0 then saturateI64 (writeTimeNanos + saturateI64 (ttl * nanosPerSec))
  else saturateI64 (writeTimeNanos + saturateI64 (asI64 cohortWindowSecs * nanosPerSec))

/-! ### Keys -/

/-- The largest namespace length, `u16::MAX`. -/
def maxNsLen : ℕ := 65535

/-- The key format `[ns_len : u16-be][ns][key]`. The code asserts that the namespace is not too long. -/
def encodeKey (ns key : Bytes) : Except EdgestoreError Bytes :=
  if ns.length ≤ maxNsLen then .ok (beBytes 2 ns.length ++ ns ++ key)
  else .error (.panicked "namespace too long")

/-- Split an encoded key into namespace and key. -/
def decodeKey (encoded : Bytes) : Except EdgestoreError (Bytes × Bytes) :=
  if encoded.length < 2 then .error .corruptKey
  else
    let nsLen := ofBe (encoded.take 2)
    if encoded.length < 2 + nsLen then .error .corruptKey
    else .ok ((encoded.drop 2).take nsLen, encoded.drop (2 + nsLen))

theorem encodeKey_eq_ok {ns key k : Bytes} :
    encodeKey ns key = .ok k ↔ ns.length ≤ maxNsLen ∧ k = beBytes 2 ns.length ++ ns ++ key := by
  rw [encodeKey]
  split
  case isTrue h => simp [h, eq_comm]
  case isFalse h => simp [h]

/-- Decoding inverts encoding. -/
theorem decodeKey_encodeKey {ns key k : Bytes} (h : encodeKey ns key = .ok k) :
    decodeKey k = .ok (ns, key) := by
  obtain ⟨hlen, rfl⟩ := encodeKey_eq_ok.mp h
  have hns : ofBe ((beBytes 2 ns.length ++ ns ++ key).take 2) = ns.length := by
    rw [List.append_assoc, List.take_left' (by simp)]
    exact ofBe_beBytes_of_lt (by rw [maxNsLen] at hlen; omega)
  have hdrop : (beBytes 2 ns.length ++ ns ++ key).drop 2 = ns ++ key := by
    rw [List.append_assoc, List.drop_left' (by simp)]
  have hrest : (beBytes 2 ns.length ++ ns ++ key).drop (2 + ns.length) = key := by
    rw [← List.drop_drop, hdrop, List.drop_left' rfl]
  have hlong : ¬ (beBytes 2 ns.length ++ ns ++ key).length < 2 := by
    simp only [List.length_append, length_beBytes]
    omega
  have hlonger : ¬ (beBytes 2 ns.length ++ ns ++ key).length < 2 + ns.length := by
    simp only [List.length_append, length_beBytes]
    omega
  unfold decodeKey
  rw [if_neg hlong, hns, if_neg hlonger, hdrop, hrest, List.take_left' rfl]

/-- Encoding inverts decoding. -/
theorem encodeKey_of_decodeKey {ns key k : Bytes} (h : decodeKey k = .ok (ns, key)) :
    encodeKey ns key = .ok k := by
  unfold decodeKey at h
  split at h
  case isTrue => cases h
  case isFalse hlong =>
    dsimp only at h
    split at h
    case isTrue => cases h
    case isFalse hlonger =>
      cases h
      have htake : (k.take 2).length = 2 := by
        rw [List.length_take]
        omega
      have hlt : ofBe (k.take 2) < 256 ^ 2 := by
        have hle := ofLe_lt (k.take 2).reverse
        rwa [List.length_reverse, htake] at hle
      have hns : ((k.drop 2).take (ofBe (k.take 2))).length = ofBe (k.take 2) := by
        rw [List.length_take, List.length_drop]
        omega
      refine encodeKey_eq_ok.mpr ⟨by rw [hns, maxNsLen]; omega, ?_⟩
      have hlen : beBytes 2 (ofBe (k.take 2)) = k.take 2 := by
        have hbe := beBytes_ofBe (k.take 2)
        rwa [htake] at hbe
      rw [hns, hlen, List.append_assoc, ← List.drop_drop, List.take_append_drop,
        List.take_append_drop]

/-- Two namespace-key pairs with one encoding are equal. -/
theorem encodeKey_inj {ns key ns' key' k : Bytes} (h : encodeKey ns key = .ok k)
    (h' : encodeKey ns' key' = .ok k) : ns = ns' ∧ key = key' := by
  have hd := (decodeKey_encodeKey h).symm.trans (decodeKey_encodeKey h')
  simpa using hd

/-- The entry a WAL record stands for, as recovery and commit build it. -/
def WalRecord.toEntry (r : WalRecord) (encodedKey : Bytes) : MemEntry where
  key := encodedKey
  value := if r.op = .put then some r.valueBytes else none
  op := r.op
  lsn := r.lsn
  timestamp := r.timestamp
  ttl := r.ttl
