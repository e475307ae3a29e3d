import Edgestore.Replication.Exchange
import Edgestore.Lib.Directory
import Edgestore.Lib.Pair

/-!
# The anti-entropy cycle

One cycle asks a peer for its root and, where it differs from the local one, for its segments; it
then fetches and imports what is missing, one segment after the other. What is left to do is kept in
a cursor, which is written to a file of its own after every step.

The peer is its answers: each may fail, and what it delivers for a hash may depend on everything the
cycle has done before. A journal keeps what the cycle asked for and what became of it.

## Main definitions

* `PeerCursor`, `CursorCodec`: the cursor and its file format
* `PeerAnswers`: what a peer answers during a cycle
* `AntiEntropy.runOnce`: the cycle
* `AntiEntropy.pullSegment`: its loop body
-/

/-- The progress of anti-entropy with one peer. -/
structure PeerCursor where
  lastKnownMerkleRoot : Bytes := []
  segmentsPending : List Bytes := []
  lastAttemptSecs : ℕ := 0
  segmentsAppliedTotal : ℕ := 0
  lastKnownWtoken : ℕ := 0
  deriving DecidableEq, Repr

/-- The cursor without a hash among those pending. -/
def PeerCursor.retain (cursor : PeerCursor) (hash : Bytes) : PeerCursor :=
  { cursor with segmentsPending := cursor.segmentsPending.filter fun h => h ≠ hash }

/-- The serializer `rmp_serde::to_vec` on cursors, and the parser `rmp_serde::from_read`. -/
structure CursorCodec where
  toVec : PeerCursor → Bytes
  fromRead : Bytes → Option PeerCursor
  fromRead_toVec : ∀ c, fromRead (toVec c) = some c

/-- The small files beside the store: the write token, and a cursor for each peer with its
temporary file. -/
inductive SideFile
  | wtoken
  | cursor (peerId : String)
  | cursorTmp (peerId : String)
  deriving DecidableEq, Repr

/-- What a cycle learns from a peer and asks it for, what becomes of it, and what it archives. -/
inductive CycleEvent
  | saw (wtoken : ℕ)
  | fetched (hash : Bytes)
  | imported (hash : Bytes) (result : Except EdgestoreError ImportResult)
  | archived (hash : Bytes)

/-- A listed segment as the client receives it, its hash copied into an array of 32 bytes. -/
def SegmentRef.received (s : SegmentRef) : SegmentRef :=
  { s with segmentHash := toHash32 s.segmentHash }

/-- The answers of a peer during a cycle; `none` is a transport error. -/
structure PeerAnswers where
  watermark : Option ℕ := none
  merkleRoot : Option Bytes := none
  listSegments : Option (List SegmentRef) := none
  fetchSegment : List CycleEvent → Bytes → Option (Dat × ℕ) := fun _ _ => none

namespace AntiEntropy

variable {X : Externals}

/-- The database directory, the files beside it, and the journal of the cycle. -/
abbrev cycleDevice (X : Externals) : Device :=
  (disk X).pair ((directory SideFile).pair (Device.journal CycleEvent))

/-- Programs of a cycle. The engine is the memory. -/
abbrev CycleExec (X : Externals) (α : Type) := Prog (cycleDevice X) (Process Engine) EdgestoreError α

/-- A method of the engine. -/
def onEngine {α : Type} (m : Exec X Engine α) : CycleExec X α := Prog.onFst m

/-- Work on the files beside the store. -/
def onFiles {α : Type} (m : Prog (directory SideFile) (Process Engine) EdgestoreError α) :
    CycleExec X α := Prog.onSnd (Prog.onFst m)

/-- An entry of the journal. -/
def note (e : CycleEvent) : CycleExec X Unit := Prog.onSnd (Prog.onSnd (Prog.emit e))

/-- The journal so far. -/
def journal : CycleExec X (List CycleEvent) := Prog.onSnd (Prog.onSnd Prog.disk)

/-- The cursor file, or a fresh cursor when there is none or it does not parse. -/
def loadCursor (codec : CursorCodec) (peerId : String) : CycleExec X PeerCursor := do
  let files ← onFiles Prog.disk
  return ((files (.cursor peerId)).bind codec.fromRead).getD {}

/-- Write the cursor: to a temporary file, which is then renamed. -/
def flushCursor (codec : CursorCodec) (peerId : String) (cursor : PeerCursor) : CycleExec X Unit :=
  onFiles (Directory.replace (.cursorTmp peerId) (.cursor peerId) (codec.toVec cursor))

/-- Take note of the write token of the peer, if it is greater than the last one. -/
def observeWatermark (codec : CursorCodec) (peerId : String) (watermark : Option ℕ)
    (cursor : PeerCursor) : CycleExec X PeerCursor := do
  match watermark with
  | some wtoken =>
    note (.saw wtoken)
    if wtoken > cursor.lastKnownWtoken then
      let cursor := { cursor with lastKnownWtoken := wtoken }
      flushCursor codec peerId cursor
      return cursor
    else return cursor
  | none => return cursor

/-- Fetch and import one segment. `archive` says whether there is a remote store, to which applied
segments are uploaded. -/
def pullSegment (codec : CursorCodec) (peerId : String) (answers : PeerAnswers) (archive : Bool)
    (cursor : PeerCursor) (hash : Bytes) : CycleExec X PeerCursor := do
  if hash.length ≠ 32 then return cursor
  else
    let answer := answers.fetchSegment (← journal) hash
    note (.fetched hash)
    match answer with
    | none => return cursor
    | some (dat, size) =>
      let result ← Prog.attempt (onEngine (Engine.importSegment dat size hash))
      note (.imported hash result)
      match result with
      | .ok (.applied _ _) =>
        let cursor := cursor.retain hash
        let cursor := { cursor with segmentsAppliedTotal := cursor.segmentsAppliedTotal + 1 }
        flushCursor codec peerId cursor
        if archive then note (.archived hash)
        return cursor
      | .ok .skipped =>
        let cursor := cursor.retain hash
        let cursor := { cursor with segmentsAppliedTotal := cursor.segmentsAppliedTotal + 1 }
        flushCursor codec peerId cursor
        return cursor
      | .ok .hashMismatch => return cursor
      | .ok (.rejected _) =>
        let cursor := cursor.retain hash
        flushCursor codec peerId cursor
        return cursor
      | .error _ => return cursor

/-- Pull the segments that the peer lists and the engine lacks. -/
def pullMissing (codec : CursorCodec) (peerId : String) (answers : PeerAnswers) (archive : Bool)
    (peerRoot : Bytes) (peerSegments : List SegmentRef) (cursor : PeerCursor) : CycleExec X Unit := do
  let missing := (← onEngine Exec.get).missingSegments peerSegments
  let cursor := { cursor with segmentsPending := missing }
  flushCursor codec peerId cursor
  let cursor ← missing.foldlM (pullSegment codec peerId answers archive) cursor
  flushCursor codec peerId { cursor with lastKnownMerkleRoot := peerRoot }

/-- One cycle with a peer. -/
def runOnce (codec : CursorCodec) (peerId : String) (answers : PeerAnswers) (archive : Bool) :
    CycleExec X Unit := do
  let cursor ← loadCursor codec peerId
  let nanos ← onEngine Exec.now
  let cursor := { cursor with lastAttemptSecs := unixSecs nanos }
  flushCursor codec peerId cursor
  let cursor ← observeWatermark codec peerId answers.watermark cursor
  match answers.merkleRoot with
  | none => return ()
  | some peerRoot =>
    if (← onEngine Exec.get).compareMerkle X peerRoot then
      -- the roots match: there is nothing to compare segment by segment
      flushCursor codec peerId { cursor with lastKnownMerkleRoot := peerRoot }
    else
      match answers.listSegments with
      | none => return ()
      | some entries =>
        let peerSegments := entries.map SegmentRef.received
        pullMissing codec peerId answers archive peerRoot peerSegments cursor

end AntiEntropy
