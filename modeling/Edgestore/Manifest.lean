import Edgestore.Disk

/-!
# The manifest

The manifest is an append-only log of segments added and removed. `Manifest.open` replays it and
leaves the file handle at the end of the file; `addSegment` and `removeSegments` write frames at
the position of the handle.

## Main definitions

* `Manifest`: an open manifest, its handle position and the list it holds in memory
* `Manifest.open`, `Manifest.addSegment`, `Manifest.removeSegments`
* `registered X fs`: the segments a replay of the file yields
* `ManifestLog X fs xs`: the file is a header and the frames of `xs`, up to a torn rest

## Main results

* `ManifestLog.append`: a frame written at the end of a manifest without torn rest is appended
* `ManifestLog.append_torn`: a torn frame leaves the log, or appends the frame when it is complete
-/

variable {X : Externals} {σ : Type}

/-- An open manifest: the position of its file handle, and the active segments in memory. -/
structure Manifest where
  pos : ℕ
  segments : List SegmentMeta
  deriving DecidableEq, Repr

/-- The frame that adds a segment. -/
def addEntry (m : SegmentMeta) : ManifestEntry := ⟨.add, m.segmentId, some m⟩

/-- The frame that removes a segment. -/
def removeEntry (id : SegmentId) : ManifestEntry := ⟨.remove, id, none⟩

/-- The effect of one frame on the list of segments. -/
def applyEntry (segs : List SegmentMeta) (e : ManifestEntry) : List SegmentMeta :=
  match e.entryType, e.segMeta with
  | .add, some m => segs ++ [m]
  | .add, none => segs
  | .remove, _ => segs.filter fun m => m.segmentId ≠ e.segmentId

/-- The segments that the frames of a manifest leave active. -/
def replay (es : List ManifestEntry) : List SegmentMeta := es.foldl applyEntry []

/-- Eight hexadecimal digits, in upper case. -/
def hex8 (n : ℕ) : String :=
  let digits := (Nat.toDigits 16 n).map Char.toUpper
  String.ofList (List.replicate (8 - digits.length) '0' ++ digits)

/-- Check the header of a manifest file. -/
def checkManifestHeader (bs : Bytes) : Except EdgestoreError Unit :=
  if bs.length < 8 then .error (.manifestCorrupt "truncated header")
  else if bs.take 4 ≠ manifestHeader.take 4 then
    .error (.manifestCorrupt s!"wrong magic: 0x{hex8 (ofLe (bs.take 4))}")
  else if (bs.drop 4).take 1 ≠ [1] then
    .error (.manifestCorrupt s!"wrong version: {ofLe ((bs.drop 4).take 1)}")
  else .ok ()

namespace Manifest

/-- Open or create the manifest. The handle ends up at the end of the file. -/
def «open» : Exec X σ Manifest := do
  match (← Exec.fs).manifest with
  | none =>
    Exec.effect .manifestCreate
    Exec.effect .manifestHeader
    Exec.effect (.sync .manifest)
    return ⟨manifestHeader.length, []⟩
  | some bs =>
    Prog.lift (checkManifestHeader bs)
    return ⟨bs.length, replay (FramedLog.read (manifestFormat X) (bs.drop 8))⟩

/-- Write one frame at the position of the handle. -/
def writeFramedEntry (e : ManifestEntry) : Exec X Manifest Unit := do
  if (X.manifestJson e).length > maxEntryLen then
    Prog.throw (.manifestCorrupt "entry too large")
  else
    Exec.effect (.manifestAppend (← Exec.get).pos e)
    Exec.modify fun m =>
      { m with pos := m.pos + (FramedLog.frame (manifestFormat X) e).length }

/-- Append a new segment to the manifest. -/
def addSegment (sm : SegmentMeta) : Exec X Manifest Unit := do
  writeFramedEntry (addEntry sm)
  Exec.effect (.sync .manifest)
  Exec.modify fun m => { m with segments := m.segments ++ [sm] }

/-- Remove segments from the manifest, one frame for each id. -/
def removeSegments (ids : List SegmentId) : Exec X Manifest Unit := do
  ids.forM fun id => writeFramedEntry (removeEntry id)
  Exec.effect (.sync .manifest)
  Exec.modify fun m =>
    { m with segments := m.segments.filter fun sm => sm.segmentId ∉ ids }

end Manifest

/-! ### The log on disk -/

open FramedLog

/-- The segments a replay of the manifest file yields. -/
def registered (X : Externals) (fs : Fs) : List SegmentMeta :=
  replay (read (manifestFormat X) ((fs.manifest.getD []).drop 8))

/-- The manifest file is a header and the frames of `xs`, then bytes the reader never crosses. -/
def ManifestLog (X : Externals) (fs : Fs) (xs : List ManifestEntry) : Prop :=
  ∃ rest, fs.manifest = some (manifestHeader ++ rest) ∧ Framed (manifestFormat X) rest xs

/-- The manifest file ends at the end of a frame: no torn frame is left behind the last one. -/
def ManifestClean (X : Externals) (fs : Fs) : Prop :=
  residue (manifestFormat X) ((fs.manifest.getD []).drop 8) = []

instance (X : Externals) (fs : Fs) : Decidable (ManifestClean X fs) :=
  inferInstanceAs (Decidable (_ = _))

theorem length_manifestHeader : manifestHeader.length = 8 := rfl

theorem checkManifestHeader_header (rest : Bytes) :
    checkManifestHeader (manifestHeader ++ rest) = .ok () := by
  simp [checkManifestHeader, manifestHeader]

theorem writeAt_length (bs file : Bytes) : writeAt file.length bs file = file ++ bs := by
  simp [writeAt]

@[simp] theorem replay_append (es : List ManifestEntry) (fs : List ManifestEntry) :
    replay (es ++ fs) = fs.foldl applyEntry (replay es) := by
  simp [replay]

@[simp] theorem applyEntry_add (segs : List SegmentMeta) (m : SegmentMeta) :
    applyEntry segs (addEntry m) = segs ++ [m] := rfl

@[simp] theorem applyEntry_remove (segs : List SegmentMeta) (id : SegmentId) :
    applyEntry segs (removeEntry id) = segs.filter fun m => m.segmentId ≠ id := rfl

/-- Removing ids one frame at a time removes them all. -/
theorem foldl_removeEntry (segs : List SegmentMeta) (ids : List SegmentId) :
    (ids.map removeEntry).foldl applyEntry segs = segs.filter fun m => m.segmentId ∉ ids := by
  induction ids generalizing segs with
  | nil => simp
  | cons id ids ih =>
    rw [List.map_cons, List.foldl_cons, applyEntry_remove, ih, List.filter_filter]
    congr 1
    ext m
    simp [Bool.and_comm]

theorem fits_removeEntry {id : SegmentId} (h : id < 2 ^ 64) :
    (X.manifestJson (removeEntry id)).length ≤ maxEntryLen := X.length_removeJson id h

section ManifestLog

variable {fs : Fs} {xs : List ManifestEntry} {e : ManifestEntry}

theorem ManifestLog.registered_eq (h : ManifestLog X fs xs) : registered X fs = replay xs := by
  obtain ⟨rest, hfs, hrest⟩ := h
  rw [registered, hfs, Option.getD_some, List.drop_left' length_manifestHeader, hrest.read_eq]

theorem ManifestLog.clean_iff {rest : Bytes} (h : fs.manifest = some (manifestHeader ++ rest)) :
    ManifestClean X fs ↔ residue (manifestFormat X) rest = [] := by
  rw [ManifestClean, h, Option.getD_some, List.drop_left' length_manifestHeader]

theorem manifest_manifestAppend {bs : Bytes} (h : fs.manifest = some bs) :
    (applyEffect X (.manifestAppend bs.length e) fs).manifest =
      some (bs ++ frame (manifestFormat X) e) := by
  simp only [applyEffect, Fs.writeManifest, h, Option.getD_some, writeAt_length]

theorem manifest_manifestAppend_torn {bs : Bytes} (h : fs.manifest = some bs) (m : ℕ) :
    (tearEffect X (.manifestAppend bs.length e) m fs).manifest =
      some (bs ++ (frame (manifestFormat X) e).take m) := by
  simp only [tearEffect, Fs.writeManifest, h, Option.getD_some, writeAt_length]

/-- **A frame written at the end** of a manifest without torn rest is appended to the log. -/
theorem ManifestLog.append (h : ManifestLog X fs xs) (hc : ManifestClean X fs)
    (hj : (X.manifestJson e).length ≤ maxEntryLen) {pos : ℕ}
    (hpos : pos = (fs.manifest.getD []).length) :
    ManifestLog X (applyEffect X (.manifestAppend pos e) fs) (xs ++ [e]) ∧
      ManifestClean X (applyEffect X (.manifestAppend pos e) fs) := by
  obtain ⟨rest, hfs, hrest⟩ := h
  rw [hfs, Option.getD_some] at hpos
  rw [ManifestLog.clean_iff hfs] at hc
  have happ := manifest_manifestAppend (X := X) (e := e) hfs
  rw [← hpos, List.append_assoc] at happ
  refine ⟨⟨_, happ, hrest.append hc (fits_manifestFormat hj)⟩, ?_⟩
  rw [ManifestLog.clean_iff happ]
  exact residue_append_frame hrest hc (fits_manifestFormat hj)

/-- A torn frame leaves the log as it was, or appends the frame when all its bytes are there. -/
theorem ManifestLog.append_torn (h : ManifestLog X fs xs) (hc : ManifestClean X fs)
    (hj : (X.manifestJson e).length ≤ maxEntryLen) {pos : ℕ}
    (hpos : pos = (fs.manifest.getD []).length) (m : ℕ) :
    ManifestLog X (tearEffect X (.manifestAppend pos e) m fs) xs ∨
      ManifestLog X (tearEffect X (.manifestAppend pos e) m fs) (xs ++ [e]) := by
  obtain ⟨rest, hfs, hrest⟩ := h
  rw [hfs, Option.getD_some] at hpos
  rw [ManifestLog.clean_iff hfs] at hc
  have happ := manifest_manifestAppend_torn (X := X) (e := e) hfs m
  rw [← hpos, List.append_assoc] at happ
  by_cases hm : m < (frame (manifestFormat X) e).length
  · exact .inl ⟨_, happ, hrest.append_torn hc (fits_manifestFormat hj) hm⟩
  · rw [List.take_of_length_le (by omega)] at happ
    exact .inr ⟨_, happ, hrest.append hc (fits_manifestFormat hj)⟩

/-- Effects on other files leave the manifest. -/
theorem ManifestLog.congr {fs' : Fs} (h : ManifestLog X fs xs) (hfs : fs'.manifest = fs.manifest) :
    ManifestLog X fs' xs := by
  rw [ManifestLog, hfs]
  exact h

end ManifestLog
