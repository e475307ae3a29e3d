import Edgestore.Wal.Record
import Edgestore.Lib.Prog

/-!
# The database directory

The files of a database directory, the effects the store has on them, and what is left when the
process stops inside an effect.

WAL files and the manifest are byte strings, since the store appends to them and reads back whatever
a crash left. The four files of a segment are each written in one go before anything reads them:
such a file is absent, torn, or holds what was written. A `.dat` file is the list of its blocks.

## Main definitions

* `Block`, `Dat`, `SegmentFiles`: segment files
* `Fs`: the directory
* `Effect`, `disk`: the file-system effects of the store, whole and torn
* `Exec X σ α`: programs of the store over a memory `σ`, with the wall clock
-/

/-! ### Segment files -/

/-- A sparse index: keys with the number of the block to start from. -/
abbrev SparseIndex := List (Bytes × ℕ)

/-- A file that is written in one go. -/
inductive File (α : Type)
  | absent
  | torn
  | whole (a : α)
  deriving DecidableEq, Repr

/-- A file is written, and its content meets `P`. -/
def File.Holds {α : Type} (P : α → Prop) : File α → Prop
  | .absent => False
  | .torn => False
  | .whole a => P a

instance {α : Type} (P : α → Prop) [DecidablePred P] : ∀ f : File α, Decidable (f.Holds P)
  | .absent => .isFalse id
  | .torn => .isFalse id
  | .whole a => inferInstanceAs (Decidable (P a))

/-- The extensions of the four files of a segment. -/
inductive SegmentExt
  | dat
  | idx
  | xf
  | meta'
  deriving DecidableEq, Repr

/-- The four files of a segment. -/
structure SegmentFiles where
  dat : File Dat := .absent
  idx : File SparseIndex := .absent
  xf : File XorFilter := .absent
  segMeta : File SegmentMeta := .absent
  deriving DecidableEq, Repr

/-- Whether one of the four files exists. -/
def SegmentFiles.has (f : SegmentFiles) : SegmentExt → Bool
  | .dat => f.dat ≠ .absent
  | .idx => f.idx ≠ .absent
  | .xf => f.xf ≠ .absent
  | .meta' => f.segMeta ≠ .absent

/-- Unlink one of the four files. -/
def SegmentFiles.unlink (f : SegmentFiles) : SegmentExt → SegmentFiles
  | .dat => { f with dat := .absent }
  | .idx => { f with idx := .absent }
  | .xf => { f with xf := .absent }
  | .meta' => { f with segMeta := .absent }

/-- The files an import stages under the hash of the segment: `{hash}.tmp` and `{hash}.dat`. -/
structure StagedFiles where
  tmp : File Dat := .absent
  dat : File Dat := .absent
  deriving DecidableEq, Repr

/-! ### The directory -/

/-- The files of a database directory. WAL files are named by the LSN in their name. -/
structure Fs where
  wals : SortedMap Lsn Bytes := .empty
  manifest : Option Bytes := none
  segs : SegmentId → SegmentFiles := fun _ => {}
  staged : Bytes → StagedFiles := fun _ => {}

/-- Write `bs` at offset `pos` of a file, over what is there. A gap is filled with zeros. -/
def writeAt (pos : ℕ) (bs file : Bytes) : Bytes :=
  (file ++ List.replicate (pos - file.length) 0).take pos ++ bs ++ file.drop (pos + bs.length)

/-- Replace the value of a function at one argument. -/
def setAt {ι α : Type} [DecidableEq ι] (f : ι → α) (i : ι) (a : α) : ι → α :=
  fun j => if j = i then a else f j

section

variable {ι α : Type} [DecidableEq ι] {f : ι → α} {i : ι} {a : α}

theorem setAt_setAt (f : ι → α) (i : ι) (a b : α) : setAt (setAt f i a) i b = setAt f i b := by
  funext j
  unfold setAt
  split <;> rfl

theorem setAt_eq_self : setAt f i a = f ↔ f i = a := by
  constructor
  · intro h
    rw [← h]
    exact if_pos rfl
  · rintro rfl
    funext j
    unfold setAt
    split
    case isTrue hj => rw [hj]
    case isFalse => rfl

end

/-! ### Headers -/

/-- The header of a WAL file: the magic `EDGW`, the version and three zeros. -/
def walHeader : Bytes := [0x45, 0x44, 0x47, 0x57, 1, 0, 0, 0]

/-- The header of the manifest: the magic `MANF`, little-endian, the version and three zeros. -/
def manifestHeader : Bytes := [0x46, 0x4E, 0x41, 0x4D, 1, 0, 0, 0]

/-! ### Effects -/

/-- The files the store syncs. -/
inductive FileName
  | wal (n : Lsn)
  | manifest
  | seg (id : SegmentId) (ext : SegmentExt)
  deriving DecidableEq, Repr

/-- The file-system effects of the store. -/
inductive Effect
  | walCreate (n : Lsn)
  | walHeader (n : Lsn)
  | walAppend (n : Lsn) (r : WalRecord)
  | walUnlink (n : Lsn)
  | manifestCreate
  | manifestHeader
  | manifestAppend (pos : ℕ) (e : ManifestEntry)
  | datWrite (id : SegmentId) (dat : Dat)
  | idxWrite (id : SegmentId) (idx : SparseIndex)
  | xfWrite (id : SegmentId) (xf : XorFilter)
  | metaWrite (id : SegmentId) (m : SegmentMeta)
  | segUnlink (id : SegmentId) (ext : SegmentExt)
  | stageWrite (hash : Bytes) (dat : Dat)
  | stageRename (hash : Bytes)
  | stageAdopt (hash : Bytes) (id : SegmentId)
  | sync (f : FileName)
  deriving DecidableEq, Repr

namespace Fs

/-- Append bytes to a WAL file. -/
def appendWal (n : Lsn) (bs : Bytes) (fs : Fs) : Fs :=
  { fs with wals := fs.wals.insert n (((fs.wals.get n).getD []) ++ bs) }

/-- Write bytes into the manifest. -/
def writeManifest (pos : ℕ) (bs : Bytes) (fs : Fs) : Fs :=
  { fs with manifest := some (writeAt pos bs (fs.manifest.getD [])) }

/-- Update the files of one segment. -/
def setSegment (id : SegmentId) (f : SegmentFiles → SegmentFiles) (fs : Fs) : Fs :=
  { fs with segs := setAt fs.segs id (f (fs.segs id)) }

/-- Update the staged files of one hash. -/
def setStaged (hash : Bytes) (f : StagedFiles → StagedFiles) (fs : Fs) : Fs :=
  { fs with staged := setAt fs.staged hash (f (fs.staged hash)) }

section

variable (id : SegmentId) (f g : SegmentFiles → SegmentFiles) (fs : Fs)

@[simp] theorem segs_setSegment_self : (fs.setSegment id f).segs id = f (fs.segs id) := by
  simp [setSegment, setAt]

theorem segs_setSegment_of_ne {id j : SegmentId} (h : j ≠ id) :
    (fs.setSegment id f).segs j = fs.segs j := by
  simp [setSegment, setAt, h]

@[simp] theorem setSegment_setSegment :
    (fs.setSegment id f).setSegment id g = fs.setSegment id fun s => g (f s) := by
  have hset := setAt_setAt fs.segs id (f (fs.segs id)) (g (f (fs.segs id)))
  simp only [setSegment, setAt, if_true] at hset ⊢
  rw [hset]

end

end Fs

open FramedLog

/-- An effect that takes place as a whole. -/
def applyEffect (X : Externals) : Effect → Fs → Fs
  | .walCreate n, fs => { fs with wals := fs.wals.insert n [] }
  | .walHeader n, fs => fs.appendWal n walHeader
  | .walAppend n r, fs => fs.appendWal n (frame (walFormat X) r)
  | .walUnlink n, fs => { fs with wals := fs.wals.erase n }
  | .manifestCreate, fs => { fs with manifest := some [] }
  | .manifestHeader, fs => fs.writeManifest 0 manifestHeader
  | .manifestAppend pos e, fs => fs.writeManifest pos (frame (manifestFormat X) e)
  | .datWrite id dat, fs => fs.setSegment id fun f => { f with dat := .whole dat }
  | .idxWrite id idx, fs => fs.setSegment id fun f => { f with idx := .whole idx }
  | .xfWrite id xf, fs => fs.setSegment id fun f => { f with xf := .whole xf }
  | .metaWrite id m, fs => fs.setSegment id fun f => { f with segMeta := .whole m }
  | .segUnlink id ext, fs => fs.setSegment id fun f => f.unlink ext
  | .stageWrite hash dat, fs => fs.setStaged hash fun f => { f with tmp := .whole dat }
  | .stageRename hash, fs => fs.setStaged hash fun f => { tmp := .absent, dat := f.tmp }
  | .stageAdopt hash id, fs =>
    (fs.setSegment id fun f => { f with dat := (fs.staged hash).dat }).setStaged hash
      fun f => { f with dat := .absent }
  | .sync _, fs => fs

/-- What is left when the process stops inside an effect: of a write to a log, the first `m` bytes;
of a file written in one go, a torn file, unless the process stops before the file is touched. The
other effects take place as a whole or not at all. -/
def tearEffect (X : Externals) : Effect → ℕ → Fs → Fs
  | .walHeader n, m, fs => fs.appendWal n (walHeader.take m)
  | .walAppend n r, m, fs => fs.appendWal n ((frame (walFormat X) r).take m)
  | .manifestHeader, m, fs => fs.writeManifest 0 (manifestHeader.take m)
  | .manifestAppend pos e, m, fs => fs.writeManifest pos ((frame (manifestFormat X) e).take m)
  | .datWrite id _, _ + 1, fs => fs.setSegment id fun f => { f with dat := .torn }
  | .idxWrite id _, _ + 1, fs => fs.setSegment id fun f => { f with idx := .torn }
  | .xfWrite id _, _ + 1, fs => fs.setSegment id fun f => { f with xf := .torn }
  | .metaWrite id _, _ + 1, fs => fs.setSegment id fun f => { f with segMeta := .torn }
  | .stageWrite hash _, _ + 1, fs => fs.setStaged hash fun f => { f with tmp := .torn }
  | _, _, fs => fs

/-- The database directory as a device. -/
abbrev disk (X : Externals) : Device where
  State := Fs
  Effect := Effect
  apply := applyEffect X
  tear := tearEffect X

/-! ### Programs of the store -/

/-- The memory of a running call: a state, and the readings of the wall clock still to come, in
nanoseconds since the epoch. -/
structure Process (σ : Type) where
  state : σ
  clock : ℕ → ℕ

/-- Programs of the store over a state `σ`. -/
abbrev Exec (X : Externals) (σ α : Type) := Prog (disk X) (Process σ) EdgestoreError α

namespace Exec

variable {X : Externals} {σ α : Type}

/-- Read the wall clock. -/
def now : Exec X σ ℕ := do
  let p ← Prog.mem
  Prog.modify fun p => { p with clock := fun i => p.clock (i + 1) }
  return p.clock 0

/-- The state. -/
def get : Exec X σ σ := do return (← Prog.mem).state

/-- Update the state. -/
def modify (f : σ → σ) : Exec X σ Unit := Prog.modify fun p => { p with state := f p.state }

/-- An effect on the directory. -/
def effect (e : Effect) : Exec X σ Unit := Prog.emit (D := disk X) e

/-- The directory. -/
def fs : Exec X σ Fs := Prog.disk (D := disk X)

/-- A method of a part of the state. -/
def zoom {τ : Type} (get : σ → τ) (set : τ → σ → σ) (m : Exec X τ α) : Exec X σ α :=
  Prog.zoom (fun p => ⟨get p.state, p.clock⟩) (fun q p => ⟨set q.state p.state, q.clock⟩) m

/-- A method of a local value, which is dropped at the end. -/
def within {τ : Type} (t : τ) (m : Exec X τ α) : Exec X σ α :=
  Prog.zoom (fun p => ⟨t, p.clock⟩) (fun q p => ⟨p.state, q.clock⟩) m

variable {Q : Prog.Post (disk X) (Process σ) EdgestoreError α} {p : Process σ} {d : Fs}

@[simp] theorem wp_zoom {τ : Type} (get : σ → τ) (set : τ → σ → σ) (m : Exec X τ α) :
    Prog.wp (zoom get set m) Q p d ↔
      Prog.wp m ⟨fun a q => Q.ok a ⟨set q.state p.state, q.clock⟩,
        fun e q => Q.error e ⟨set q.state p.state, q.clock⟩, Q.rely, Q.guar⟩
        ⟨get p.state, p.clock⟩ d := by
  simp [zoom]

@[simp] theorem wp_within {τ : Type} (t : τ) (m : Exec X τ α) :
    Prog.wp (within t m) Q p d ↔
      Prog.wp m ⟨fun a q => Q.ok a ⟨p.state, q.clock⟩, fun e q => Q.error e ⟨p.state, q.clock⟩,
        Q.rely, Q.guar⟩ ⟨t, p.clock⟩ d := by
  simp [within]

@[simp] theorem wp_now {Q : Prog.Post (disk X) (Process σ) EdgestoreError ℕ} :
    Prog.wp now Q p d ↔ Q.ok (p.clock 0) ⟨p.state, fun i => p.clock (i + 1)⟩ d := by
  simp [now]

@[simp] theorem wp_get {Q : Prog.Post (disk X) (Process σ) EdgestoreError σ} :
    Prog.wp get Q p d ↔ Q.ok p.state p d := by
  simp [get]

@[simp] theorem wp_modify (f : σ → σ) {Q : Prog.Post (disk X) (Process σ) EdgestoreError Unit} :
    Prog.wp (modify f) Q p d ↔ Q.ok () ⟨f p.state, p.clock⟩ d := by
  simp [modify]

@[simp] theorem wp_effect (e : Effect) {Q : Prog.Post (disk X) (Process σ) EdgestoreError Unit} :
    Prog.wp (effect e) Q p d ↔ (Q.rely e d → Q.guar e d ∧ Q.ok () p (applyEffect X e d)) := by
  exact Prog.wp_emit (D := disk X) e

@[simp] theorem wp_fs {Q : Prog.Post (disk X) (Process σ) EdgestoreError Fs} :
    Prog.wp fs Q p d ↔ Q.ok d p d := by
  exact Prog.wp_disk (D := disk X)

/-! ### Frames -/

/-- All effects of the program meet `P`, and it keeps the part `g` of the state. -/
def Frame {T : Type} (P : Effect → Prop) (g : σ → T) (m : Exec X σ α) : Prop :=
  Prog.Frame (D := disk X) P (fun p => g p.state) m

namespace Frame

variable {T : Type} {P : Effect → Prop} {g : σ → T} {β τ : Type} {m : Exec X σ α}

theorem pure (a : α) : Frame P g (Pure.pure a : Exec X σ α) := Prog.Frame.pure a

theorem throw (e : EdgestoreError) : Frame P g (Prog.throw e : Exec X σ α) := Prog.Frame.throw e

theorem lift (x : Except EdgestoreError α) : Frame P g (Prog.lift x : Exec X σ α) :=
  Prog.Frame.lift x

theorem effect {e : Effect} (h : P e) : Frame P g (Exec.effect e : Exec X σ Unit) :=
  Prog.Frame.emit (D := disk X) h

theorem fs : Frame P g (Exec.fs : Exec X σ Fs) := Prog.Frame.disk

theorem bind {k : α → Exec X σ β} (hm : Frame P g m) (hk : ∀ a, Frame P g (k a)) :
    Frame P g (m >>= k) := Prog.Frame.bind hm hk

theorem get : Frame P g (Exec.get : Exec X σ σ) := .bind Prog.Frame.mem fun _ => .pure _

theorem now : Frame P g (Exec.now : Exec X σ ℕ) :=
  .bind Prog.Frame.mem fun _ => .bind (Prog.Frame.modify fun _ => rfl) fun _ => .pure _

theorem modify {f : σ → σ} (h : ∀ s, g (f s) = g s) : Frame P g (Exec.modify f : Exec X σ Unit) :=
  Prog.Frame.modify fun p => h p.state

theorem ite {c : Prop} [Decidable c] {m' : Exec X σ α} (hm : c → Frame P g m)
    (hm' : ¬ c → Frame P g m') : Frame P g (if c then m else m') := Prog.Frame.ite hm hm'

theorem forM {k : β → Exec X σ PUnit} {l : List β} (hk : ∀ b ∈ l, Frame P g (k b)) :
    Frame P g (l.forM k) := Prog.Frame.forM hk

theorem foldlM {k : τ → β → Exec X σ τ} (hk : ∀ c b, Frame P g (k c b)) (l : List β) (c : τ) :
    Frame P g (l.foldlM k c) := Prog.Frame.foldlM hk l c

theorem zoom {V : Type} {get : σ → τ} {set : τ → σ → σ} {n : Exec X τ α} {h : τ → V}
    (hn : Frame P h n)
    (hset : ∀ s t, h t = h (get s) → g (set t s) = g s) : Frame P g (Exec.zoom get set n) :=
  Prog.Frame.zoom hn fun p q hq => hset p.state q.state hq

theorem within {V : Type} {t : τ} {n : Exec X τ α} {h : τ → V} (hn : Frame P h n) :
    Frame P g (Exec.within t n : Exec X σ α) :=
  Prog.Frame.zoom hn fun _ _ _ => rfl

theorem mono {P' : Effect → Prop} (h : Frame P g m) (hP : ∀ e, P e → P' e) : Frame P' g m :=
  Prog.Frame.mono h hP

/-- A frame as a specification. -/
theorem wp {p : Process σ} {d : Fs} (h : Frame P g m) (rely : Effect → Fs → Prop) :
    Prog.wp m ⟨fun _ q _ => g q.state = g p.state, fun _ q _ => g q.state = g p.state, rely,
      fun e _ => P e⟩ p d := Prog.Frame.wp h rely

end Frame

end Exec
