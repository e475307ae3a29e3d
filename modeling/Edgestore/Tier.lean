import Edgestore.ImmutableEngine
import Edgestore.Segment.PeerBytes
import Edgestore.Import
import Edgestore.Lib.Lru
import Edgestore.Lib.Pair
import Edgestore.RemoteStore
import Mathlib.Data.List.Infix

/-!
# The tiered engine

A local engine in front of an archive of segments. A lookup that misses locally fetches the archived segments
whose key bounds hold the key, and imports them. Scans read archived segments without importing them, from a cache
of segment bytes or by a download, and merge what they find with the local pairs.

The archive is its answers: each download may fail, and what it delivers may depend on everything that has been
downloaded before. A journal keeps where the bytes of a segment came from.

## Main definitions

* `ArchivedSegment`, `TieredEngine`
* `SegmentCache`: the cache of segment bytes, with its counter
* `Archive`, `TierEvent`: the answers of the remote store, and the journal
* `TieredEngine.get`, `TieredEngine.range`, `TieredEngine.prefixScan`
-/

/-- A segment in remote storage, with the bounds of its keys, both inclusive. -/
structure ArchivedSegment where
  hash : Bytes
  minKey : Bytes
  maxKey : Bytes
  deriving DecidableEq, Repr

/-- The greatest number of segments in the cache. -/
def segmentCacheItems : ℕ := 65536

/-- The cache of segment bytes: the fields `segment_cache`, `segment_cache_bytes` and `segment_cache_max_bytes`. -/
structure SegmentCache where
  segments : Lru Bytes Bytes segmentCacheItems := .empty
  bytes : ℕ := 0
  maxBytes : ℕ := 32 * 1024 * 1024

/-- Where the bytes of a segment came from. A download may fail. -/
inductive TierEvent
  | hit (hash data : Bytes)
  | downloaded (hash : Bytes) (answer : Except EdgestoreError Bytes)

/-- The answers of a remote store, and the messages of errors. -/
structure Archive where
  download : List TierEvent → Bytes → Except EdgestoreError Bytes
  message : EdgestoreError → String := fun _ => ""

/-- Whether the message of an error is that of a transient one. -/
def Archive.isTransient (archive : Archive) (e : EdgestoreError) : Bool :=
  ["throttled", "timeout", "503"].any fun word => word.toList <:+: (archive.message e).toList

/-- The local engine, the archived segments, those that have been imported in this session, and the cache. -/
structure TieredEngine where
  localEngine : Engine
  archived : List ArchivedSegment := []
  fetched : List Bytes := []
  segmentCache : SegmentCache := {}

namespace SegmentCache

/-- Drop entries until there is room for `incoming` bytes, or none is left. -/
def makeRoom (incoming : ℕ) : ℕ → SegmentCache → SegmentCache
  | 0, c => c
  | n + 1, c =>
    if c.maxBytes < c.bytes + incoming then
      match c.segments.popLru with
      | some ((_, evicted), segments) =>
        makeRoom incoming n { c with segments := segments, bytes := c.bytes - evicted.length }
      | none => c
    else c

/-- Insert segment bytes. Every round of the loop drops an entry, so their number bounds the rounds. -/
def cacheSegment (c : SegmentCache) (hash data : Bytes) : SegmentCache :=
  if c.maxBytes = 0 then c
  else
    let c := c.makeRoom data.length (c.segments.entries.length + 1)
    { c with bytes := c.bytes + data.length, segments := c.segments.put hash data }

end SegmentCache

/-- Merge pairs; on equal keys the local one wins. -/
def mergeLocalWins (loc archived : List (Bytes × Bytes)) : List (Bytes × Bytes) :=
  if archived = [] then loc
  else
    (loc ++ archived.filter fun p => p.1 ∉ loc.map Prod.fst).insertionSort fun p q => p.1 ≤ q.1

namespace TieredEngine

variable {X : Externals}

/-- The database directory and the journal. -/
abbrev tierDevice (X : Externals) : Device := (disk X).pair (Device.journal TierEvent)

/-- Programs of the tiered engine. -/
abbrev TierExec (X : Externals) (α : Type) := Prog (tierDevice X) (Process TieredEngine) EdgestoreError α

/-- A method of the local engine. -/
def onLocal {α : Type} (m : Exec X Engine α) : TierExec X α :=
  Prog.onFst (Exec.zoom localEngine (fun e t => { t with localEngine := e }) m)

/-- The state. -/
def state : TierExec X TieredEngine := Prog.onFst Exec.get

/-- Update the state. -/
def modify (f : TieredEngine → TieredEngine) : TierExec X Unit := Prog.onFst (Exec.modify f)

/-- An entry of the journal. -/
def note (e : TierEvent) : TierExec X Unit := Prog.onSnd (Prog.emit e)

/-- The journal so far. -/
def journal : TierExec X (List TierEvent) := Prog.onSnd Prog.disk

/-- Download a segment. -/
def download (archive : Archive) (hash : Bytes) : TierExec X (Except EdgestoreError Bytes) := do
  let answer := archive.download (← journal) hash
  note (.downloaded hash answer)
  return answer

/-- The error of a download that is given up. -/
def downloadFailed (archive : Archive) (hash : Bytes) (e : EdgestoreError) : EdgestoreError :=
  .replicationError
    ("download segment " ++ hashToHex hash ++ " failed after 3 retries: " ++ archive.message e)

/-- Download a segment, with up to `retries` further attempts after transient errors. -/
def downloadWithRetry (archive : Archive) (hash : Bytes) : ℕ → TierExec X Bytes
  | 0 => do
    match ← download archive hash with
    | .ok data => return data
    | .error e => Prog.throw (downloadFailed archive hash e)
  | retries + 1 => do
    match ← download archive hash with
    | .ok data => return data
    | .error e =>
      if archive.isTransient e then downloadWithRetry archive hash retries
      else Prog.throw (downloadFailed archive hash e)

/-! ### Guards and local reads -/

/-- The archived segments that have not been fetched. -/
def unfetched (t : TieredEngine) (segs : List ArchivedSegment) : List Bytes :=
  (segs.filter fun seg => seg.hash ∉ t.fetched).map ArchivedSegment.hash

def hasUnfetchedArchivedOverlap (t : TieredEngine) (encStart encEnd : Bytes) : Bool :=
  t.archived.any fun seg => seg.maxKey ≥ encStart ∧ seg.minKey < encEnd ∧ seg.hash ∉ t.fetched

def hasUnfetchedArchivedPoint (t : TieredEngine) (encKey : Bytes) : Bool :=
  t.archived.any fun seg => seg.minKey ≤ encKey ∧ seg.maxKey ≥ encKey ∧ seg.hash ∉ t.fetched

/-- The end of a scan for an encoded prefix. -/
def prefixEnd (encPrefix : Bytes) : Bytes :=
  (prefixUpperBound encPrefix).getD (List.replicate (encPrefix.length + 1) 0xFF)

/-- Whether a lookup might fetch an archived segment. -/
def getNeedsArchivedFetch (t : TieredEngine) (ns key : Bytes) : Except EdgestoreError Bool := do
  let encKey ← encodeKey ns key
  return t.hasUnfetchedArchivedPoint encKey

/-- Whether a range scan would fetch an archived segment. -/
def rangeNeedsArchivedFetch (t : TieredEngine) (ns start «end» : Bytes) : Except EdgestoreError Bool := do
  let encStart ← encodeKey ns start
  let encEnd ← encodeKey ns «end»
  return t.hasUnfetchedArchivedOverlap encStart encEnd

/-- Whether a prefix scan would fetch an archived segment. -/
def prefixNeedsArchivedFetch (t : TieredEngine) (ns p : Bytes) : Except EdgestoreError Bool := do
  let encPrefix ← encodeKey ns p
  return t.hasUnfetchedArchivedOverlap encPrefix (prefixEnd encPrefix)

def localOnlyGet (X : Externals) (fs : Fs) (t : TieredEngine) (ns key : Bytes) :
    Except EdgestoreError (Option Bytes) := t.localEngine.get X fs ns key

def localOnlyRange (fs : Fs) (t : TieredEngine) (ns start «end» : Bytes) :
    Except EdgestoreError (List (Bytes × Bytes)) := t.localEngine.range fs ns start «end»

def localOnlyPrefix (fs : Fs) (t : TieredEngine) (ns p : Bytes) :
    Except EdgestoreError (List (Bytes × Bytes)) := t.localEngine.prefixInner fs ns p

/-! ### Reads through -/

/-- The files of the local engine. -/
def localFiles : TierExec X Fs := Prog.onFst Exec.fs

/-- Download a segment and import it. -/
def fetchAndImport (Z : Zstd) (archive : Archive) (hash : Bytes) : TierExec X Unit := do
  let data ← downloadWithRetry archive hash 3
  if data = [] then Prog.throw (.panicked "downloaded segment must not be empty")
  else
    match ← onLocal (Engine.importSegment (blocksOf Z (data.drop segmentHeaderLen)) data.length hash) with
    | .applied _ _ => modify fun t => { t with fetched := hash :: t.fetched }
    | .skipped => modify fun t => { t with fetched := hash :: t.fetched }
    | .hashMismatch => Prog.throw (.replicationError ("hash mismatch for segment " ++ hashToHex hash))
    | .rejected reason =>
      Prog.throw (.replicationError ("segment " ++ hashToHex hash ++ " permanently rejected: " ++ reason))

/-- Fetch a segment, whatever becomes of it. Only a panic is passed on. -/
def tryFetch (Z : Zstd) (archive : Archive) (hash : Bytes) : TierExec X Unit := do
  match ← Prog.attempt (fetchAndImport Z archive hash) with
  | .error (.panicked msg) => Prog.throw (.panicked msg)
  | _ => return ()

/-- Look up a key, in the local engine and after a miss in the archived segments around the key. -/
def get (Z : Zstd) (archive : Archive) (ns key : Bytes) : TierExec X (Option Bytes) := do
  match ← Prog.lift (localOnlyGet X (← localFiles) (← state) ns key) with
  | some val => return some val
  | none =>
    let encodedKey ← Prog.lift (encodeKey ns key)
    let t ← state
    let toFetch := t.unfetched
      (t.archived.filter fun seg => encodedKey ≥ seg.minKey ∧ encodedKey ≤ seg.maxKey)
    toFetch.forM (tryFetch Z archive)
    Prog.lift (localOnlyGet X (← localFiles) (← state) ns key)

/-- The bytes of a segment, from the cache or by a download. A download that fails is skipped. -/
def loadSegment (archive : Archive) (pairs : List (SegmentMeta × Bytes)) (hash : Bytes) :
    TierExec X (List (SegmentMeta × Bytes)) := do
  let (found, segments) := (← state).segmentCache.segments.get hash
  match found with
  | some cached =>
    modify fun t => { t with segmentCache := { t.segmentCache with segments := segments } }
    note (.hit hash cached)
    return pairs ++ [(syntheticMeta hash, cached)]
  | none =>
    match ← download archive hash with
    | .ok data =>
      modify fun t => { t with segmentCache := t.segmentCache.cacheSegment hash data }
      return pairs ++ [(syntheticMeta hash, data)]
    | .error _ => return pairs

/-- An engine over the archived segments whose bounds overlap a range. -/
def ephemeralEngineForRange (Z : Zstd) (archive : Archive) (encStart encEnd : Bytes) :
    TierExec X (Option ImmutableEngine) := do
  let t ← state
  let toLoad := t.unfetched (t.archived.filter fun seg => seg.maxKey ≥ encStart ∧ seg.minKey < encEnd)
  if toLoad = [] then return none
  else
    let pairs ← toLoad.foldlM (loadSegment archive) []
    if pairs = [] then return none
    else return some (← Prog.lift (ImmutableEngine.fromSegmentBytes X Z pairs))

/-- The archived pairs of a namespace with `start ≤ key < end`. -/
def rangeArchived (Z : Zstd) (archive : Archive) (ns start «end» : Bytes) :
    TierExec X (List (Bytes × Bytes)) := do
  let encStart ← Prog.lift (encodeKey ns start)
  let encEnd ← Prog.lift (encodeKey ns «end»)
  match ← ephemeralEngineForRange Z archive encStart encEnd with
  | some engine => Prog.lift (engine.range Z ns start «end»)
  | none => return []

/-- The archived pairs of a namespace whose key has a prefix. -/
def prefixArchived (Z : Zstd) (archive : Archive) (ns p : Bytes) : TierExec X (List (Bytes × Bytes)) := do
  let encPrefix ← Prog.lift (encodeKey ns p)
  match ← ephemeralEngineForRange Z archive encPrefix (prefixEnd encPrefix) with
  | some engine => Prog.lift (engine.prefixScan Z ns p)
  | none => return []

/-- The pairs of a namespace with `start ≤ key < end`. -/
def range (Z : Zstd) (archive : Archive) (ns start «end» : Bytes) : TierExec X (List (Bytes × Bytes)) := do
  let loc ← Prog.lift (localOnlyRange (← localFiles) (← state) ns start «end»)
  return mergeLocalWins loc (← rangeArchived Z archive ns start «end»)

/-- The pairs of a namespace whose key has a prefix. -/
def prefixScan (Z : Zstd) (archive : Archive) (ns p : Bytes) : TierExec X (List (Bytes × Bytes)) := do
  let loc ← Prog.lift (localOnlyPrefix (← localFiles) (← state) ns p)
  return mergeLocalWins loc (← prefixArchived Z archive ns p)

end TieredEngine
