import Edgestore.Engine.Frames
import Mathlib.Data.List.Sort

/-!
# Exchanging segments with a peer

What a peer can ask an engine for, and what an engine computes from the answers: the list of its
segments, the hashes it lacks, and one hash over all of them. An import changes the list in one way:
an accepted segment that was not there is appended.

## Main definitions

* `Engine.exportManifest`, `Engine.missingSegments`
* `Engine.rangeMerkleRoot`, `Engine.compareMerkle`
* `Engine.Gains`: what deliveries add to the hashes of an engine

## Main results

* `Engine.wp_importSegment_hashes`: what an import does to the hashes
* `Engine.importSegment_of_mem`: an import of a hash that is there does nothing
-/

variable {X : Externals}

/-- A segment as a peer lists it. -/
structure SegmentRef where
  segmentHash : Bytes
  segmentId : SegmentId
  deriving DecidableEq, Repr

/-- A hash copied into an array of 32 bytes, which cuts it or fills it up with zeros. -/
def toHash32 (src : Bytes) : Bytes := src.take 32 ++ List.replicate (32 - src.length) 0

theorem toHash32_of_length {src : Bytes} (h : src.length = 32) : toHash32 src = src := by
  simp [toHash32, h, List.take_of_length_le h.le]

/-- An import that leaves the segment in the manifest. -/
def ImportResult.Accepted : ImportResult → Prop
  | .applied _ _ => True
  | .skipped => True
  | .hashMismatch => False
  | .rejected _ => False

instance : DecidablePred ImportResult.Accepted
  | .applied _ _ => .isTrue trivial
  | .skipped => .isTrue trivial
  | .hashMismatch => .isFalse id
  | .rejected _ => .isFalse id

namespace Engine

/-- The hashes of the registered segments. -/
def segmentHashes (e : Engine) : List Bytes :=
  e.segmentStore.manifest.segments.map SegmentMeta.segmentHash

/-- The manifest for a peer to compare with. -/
def exportManifest (e : Engine) : List SegmentRef :=
  e.segmentStore.manifest.segments.map fun m => ⟨toHash32 m.segmentHash, m.segmentId⟩

/-- The hashes the peer has and this engine has not. -/
def missingSegments (e : Engine) (peer : List SegmentRef) : List Bytes :=
  (peer.filter fun s => s.segmentHash ∉ e.segmentHashes).map SegmentRef.segmentHash

/-- The bytes the root is a hash of: the hashes in lexicographic order. -/
def rootInput (e : Engine) : Bytes := (e.segmentHashes.insertionSort (· ≤ ·)).flatten

/-- The hash over all segments, zeros when there are none. -/
def rangeMerkleRoot (X : Externals) (e : Engine) : Bytes :=
  if e.segmentHashes = [] then List.replicate 32 0 else X.blake3 e.rootInput

/-- Whether this engine has the root of another. -/
def compareMerkle (X : Externals) (e : Engine) (otherRoot : Bytes) : Bool :=
  e.rangeMerkleRoot X = otherRoot

/-! ### Imports -/

variable {e e' : Engine} {fs : Fs} {clock : ℕ → ℕ} {hash h : Bytes}

/-- A segment that is registered is not imported again. -/
theorem importSegment_of_mem (hmem : hash ∈ e.segmentHashes) (dat : Dat) (size : ℕ) :
    (importSegment (X := X) dat size hash).run ⟨e, clock⟩ fs = (.ok .skipped, ⟨e, clock⟩, []) := by
  have hany : (e.segmentStore.manifest.segments.any fun m => m.segmentHash = hash) = true := by
    obtain ⟨m, hm, rfl⟩ := List.mem_map.mp hmem
    exact List.any_eq_true.mpr ⟨m, hm, by simp⟩
  have hget : (Exec.get (X := X)).run ⟨e, clock⟩ fs = (.ok e, ⟨e, clock⟩, []) := rfl
  rw [importSegment, Prog.run_bind_ok hget, if_pos hany]
  rfl

/-- What an import did to the hashes of the engine, by its result. -/
def ImportsHash (e : Engine) (hash : Bytes) (r : ImportResult) (e' : Engine) : Prop :=
  match r with
  | .applied _ _ => hash ∉ e.segmentHashes ∧ e'.segmentHashes = e.segmentHashes ++ [hash]
  | .skipped => hash ∈ e.segmentHashes ∧ e' = e
  | .hashMismatch => e' = e
  | .rejected _ => e' = e

/-- **An import** appends the hash of an applied segment and changes nothing else in the list. -/
theorem wp_importSegment_hashes (dat : Dat) (size : ℕ) (hash : Bytes) :
    Prog.wp (importSegment (X := X) dat size hash)
      ⟨fun r q _ => ImportsHash e hash r q.state, fun _ q _ => q.state.segmentHashes = e.segmentHashes,
        fun _ _ => True, fun _ _ => True⟩ ⟨e, clock⟩ fs := by
  simp only [importSegment, Prog.wp_bind, Exec.wp_get, Prog.wp_ite, Prog.wp_pure, Exec.wp_effect]
  have hmem : (e.segmentStore.manifest.segments.any fun m => m.segmentHash = hash) = true ↔
      hash ∈ e.segmentHashes := by
    simp [segmentHashes]
  split
  case isTrue hany => exact ⟨hmem.mp hany, rfl⟩
  case isFalse hany =>
  split
  case isTrue => exact rfl
  case isFalse =>
  refine fun _ => ⟨trivial, fun _ => ⟨trivial, ?_⟩⟩
  cases parseDatEntries dat with
  | error err => cases err <;> exact (Prog.wp_pure _).mpr rfl
  | ok parsed =>
    simp only [Prog.wp_bind]
    -- the records are applied one by one: the WAL and the memtable change, the segments do not
    refine Prog.wp_mono ((Prog.Frame.foldlM importEntry_frame parsed {}).wp fun _ _ => True) ?_
      (fun _ q _ hq => congrArg (fun s => s.1.manifest.segments.map SegmentMeta.segmentHash) hq)
      (fun _ _ h => h) fun _ _ _ _ => trivial
    rintro g ⟨e₁, clock₁⟩ fs₁ hpart
    have hsame : e₁.segmentStore = e.segmentStore := congrArg Prod.fst hpart
    have hhashes : e₁.segmentHashes = e.segmentHashes := by rw [segmentHashes, hsame]; rfl
    simp only [onStore, SegmentStore.allocSegmentId, onWal, WalWriter.fsync, writeSidecars,
      SegmentStore.addImportedSegment, SegmentStore.onManifest, Manifest.addSegment,
      Manifest.writeFramedEntry, Prog.wp_bind, Exec.wp_zoom, Exec.wp_get, Exec.wp_modify,
      Prog.wp_pure, Exec.wp_effect, Exec.wp_now, Exec.wp_fs, Prog.wp_lift]
    refine fun _ => ⟨trivial, fun _ => ⟨trivial, fun _ => ⟨trivial, fun _ => ⟨trivial, fun _ =>
      ⟨trivial, fun _ => ⟨trivial, fun _ => ⟨trivial, fun _ => ⟨trivial, ?_⟩⟩⟩⟩⟩⟩⟩⟩
    generalize openReader e₁.segmentStore.nextSegmentId _ = reader
    cases reader with
    | error => exact hhashes
    | ok reader =>
      simp only [Prog.result_ok, Prog.wp_ite, Prog.wp_throw, Prog.wp_bind, Exec.wp_get,
        Exec.wp_effect, Exec.wp_modify]
      split
      · exact hhashes
      · refine fun _ => ⟨trivial, fun _ => ⟨trivial, fun h => hany (hmem.mpr h), ?_⟩⟩
        simp [segmentHashes, hsame, importedMeta]

end Engine
