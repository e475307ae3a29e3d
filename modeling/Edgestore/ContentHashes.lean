import Edgestore.DurableSessions
import Edgestore.SnapshotIsolation

/-!
# Content hashes

A segment is known by the hash of its `.dat` file. Whoever adds a segment to the manifest has its file in place: a flush
hashes the blocks that it has written, an import checks the hash that the peer claims, a compaction or a strip flushes.
As the files of registered segments are not written again, each hash in the manifest is that of the file, whatever is
called and wherever it stops.

## Main definitions

* `SegmentMeta.Hashed X fs m`: the `.dat` file has the hash in the metadata
* `AddsHashed X f fs`: segments are added to the manifest with their hashes
* `World.Stoppable X w c`: any call, which may stop anywhere

## Main results

* `World.Hashed.step`: such calls keep the hashes
* `World.allHashed`: the registered segments have their hashes
-/

variable {X : Externals} {σ T α : Type} {R : List SegmentId} {fs fs' : Fs} {f : Effect} {es : List Effect}
  {m : SegmentMeta} {id : SegmentId} {p : Process σ}

/-! ### Effects -/

/-- The `.dat` file of a segment has the hash in its metadata. -/
def SegmentMeta.Hashed (X : Externals) (fs : Fs) (m : SegmentMeta) : Prop :=
  (fs.segs m.segmentId).dat.Holds fun dat => X.datHash dat = m.segmentHash

theorem SegmentMeta.Hashed.congr (h : m.Hashed X fs) (hsegs : fs'.segs m.segmentId = fs.segs m.segmentId) :
    m.Hashed X fs' := by
  rw [Hashed, hsegs]
  exact h

theorem SegmentMeta.Hashed.exists_dat (h : m.Hashed X fs) :
    ∃ dat, (fs.segs m.segmentId).dat = .whole dat ∧ X.datHash dat = m.segmentHash := by
  rw [Hashed] at h
  generalize (fs.segs m.segmentId).dat = file at h ⊢
  cases file with
  | whole dat => exact ⟨dat, rfl, h⟩
  | _ => exact h.elim

/-- A segment is added to the manifest with its hash. -/
def AddsHashed (X : Externals) (f : Effect) (fs : Fs) : Prop :=
  ∀ pos m, f = .manifestAppend pos (addEntry m) → m.Hashed X fs

/-- The registered segments have their hashes. -/
def AllHashed (X : Externals) (fs : Fs) : Prop := ∀ m ∈ registered X fs, m.Hashed X fs

/-- Not the addition of a segment to the manifest. -/
def Effect.AddsNone : Effect → Prop
  | .manifestAppend _ ⟨.add, _, _⟩ => False
  | _ => True

theorem Effect.AddsNone.addsHashed (h : f.AddsNone) : AddsHashed X f fs := by
  rintro pos m rfl
  exact h.elim

/-- It adds no segment, and leaves the files of all. -/
def Effect.Unregisters (f : Effect) : Prop := f.AddsNone ∧ f.target = none

theorem Effect.IsLog.addsNone (h : f.IsLog) : f.AddsNone := by
  cases f with
  | manifestAppend pos e => exact h.elim
  | _ => trivial

theorem Effect.IsUnlink.addsNone (h : f.IsUnlink) : f.AddsNone := by
  cases f with
  | manifestAppend pos e => exact h.elim
  | _ => trivial

/-- Segments that stay registered keep their hashes. -/
theorem AllHashed.congr (h : AllHashed X fs) (hsame : Engine.SameRegistered X fs fs') : AllHashed X fs' := by
  intro m hm
  rw [hsame.registered] at hm
  exact (h m hm).congr (hsame.segs _ (mem_registeredIds hm))

/-- **An effect** keeps the hashes of the registered segments. -/
theorem AllHashed.apply (h : AllHashed X fs) (hf : StoreEffect X R f fs) (hclean : AppendsClean X f fs)
    (hadds : AddsHashed X f fs) : AllHashed X (applyEffect X f fs) := by
  intro m hm
  rw [registered_apply hf hclean] at hm
  have hkept : ∀ m ∈ registered X fs, m.Hashed X (applyEffect X f fs) := fun m hm =>
    (h m hm).congr (segs_apply_registered hf (mem_registeredIds hm))
  cases f with
  | manifestAppend pos e =>
    obtain ⟨-, -, -, ⟨m', rfl, -⟩ | ⟨id, rfl⟩⟩ := hf
    · -- the segment that is added has its files already
      rcases List.mem_append.mp hm with hm | hm
      · exact hkept m hm
      · rw [List.mem_singleton.mp hm]
        exact (hadds pos m' rfl).congr rfl
    · exact hkept m (List.mem_filter.mp hm).1
  | _ => exact hkept m hm

/-! ### Programs -/

/-- Segments are added with their hashes, and `ok` holds in the end. -/
abbrev addingHashed (X : Externals) (ok : α → Fs → Prop) : Prog.Post (disk X) (Process σ) EdgestoreError α where
  ok := fun a _ fs' => ok a fs'
  error := fun _ _ _ => True
  rely := fun _ _ => True
  guar := AddsHashed X

/-- A program that adds segments with their hashes, wherever it starts. -/
def Exec.AddsHashed (m : Exec X σ α) : Prop := ∀ p fs, Prog.wp m (addingHashed X fun _ _ => True) p fs

/-- A program that adds no segment keeps what its effects keep. -/
theorem wp_addingHashed_of_frame {P : Effect → Prop} {g : σ → T} {m : Exec X σ α} {I : Fs → Prop}
    (h : Exec.Frame P g m) (hnone : ∀ f, P f → f.AddsNone) (hI : ∀ f d, P f → I d → I (applyEffect X f d))
    (hfs : I fs) :
    Prog.wp m (addingHashed X fun _ fs' => I fs') p fs := by
  refine Prog.wp_imp (Prog.wp_inv ?_ (h.wp fun _ _ => True) hfs) (fun _ _ _ hq => hq.2) fun _ _ _ _ => trivial
  exact fun f d _ hf hd => ⟨(hnone f hf).addsHashed, hI f d hf hd⟩

/-- One program after another. -/
theorem wp_addingHashed_bind {β : Type} {m : Exec X σ α} {k : α → Exec X σ β} {ok : α → Fs → Prop} {ok' : β → Fs → Prop}
    (hm : Prog.wp m (addingHashed X ok) p fs)
    (hk : ∀ a q fs', ok a fs' → Prog.wp (k a) (addingHashed X ok') q fs') :
    Prog.wp (m >>= k) (addingHashed X ok') p fs :=
  (Prog.wp_bind m k).mpr (Prog.wp_imp hm hk fun _ _ _ h => h)

namespace Exec.AddsHashed

variable {g : σ → T} {m : Exec X σ α}

theorem of_frame (h : Exec.Frame Effect.AddsNone g m) : m.AddsHashed := fun _ _ =>
  Prog.wp_mono (h.wp fun _ _ => True) (fun _ _ _ _ => trivial) (fun _ _ _ _ => trivial) (fun _ _ h => h)
    fun _ _ _ hf => Effect.AddsNone.addsHashed hf

theorem of_log (h : Exec.Frame Effect.IsLog g m) : m.AddsHashed := of_frame (h.mono fun _ hf => hf.addsNone)

theorem bind {β : Type} {k : α → Exec X σ β} (hm : m.AddsHashed) (hk : ∀ a, (k a).AddsHashed) :
    Exec.AddsHashed (m >>= k) := fun p fs => wp_addingHashed_bind (hm p fs) fun a q fs' _ => hk a q fs'

theorem ite {c : Prop} [Decidable c] {m' : Exec X σ α} (hm : m.AddsHashed) (hm' : m'.AddsHashed) :
    Exec.AddsHashed (if c then m else m') := by
  split
  · exact hm
  · exact hm'

theorem pure (a : α) : (Pure.pure a : Exec X σ α).AddsHashed := fun _ _ => (Prog.wp_pure a).mpr trivial

theorem throw (e : EdgestoreError) : Exec.AddsHashed (Prog.throw e : Exec X σ α) := fun _ _ =>
  (Prog.wp_throw e).mpr trivial

theorem get : (Exec.get : Exec X σ σ).AddsHashed := of_frame (.get (g := fun _ => ()))

theorem now : (Exec.now : Exec X σ ℕ).AddsHashed := of_frame (.now (g := fun _ => ()))

theorem files : (Exec.fs : Exec X σ Fs).AddsHashed := of_frame (.fs (g := fun _ => ()))

theorem lift (x : Except EdgestoreError α) : Exec.AddsHashed (Prog.lift x : Exec X σ α) :=
  of_frame (.lift (g := fun _ => ()) x)

theorem modify (g : σ → σ) : (Exec.modify g : Exec X σ Unit).AddsHashed :=
  of_frame (.modify (g := fun _ => ()) fun _ => rfl)

theorem zoom {τ : Type} {get : σ → τ} {set : τ → σ → σ} {n : Exec X τ α} (h : n.AddsHashed) :
    (Exec.zoom get set n).AddsHashed := fun _ fs => (Exec.wp_zoom get set n).mpr (h _ fs)

theorem within {τ : Type} {t : τ} {n : Exec X τ α} (h : n.AddsHashed) :
    (Exec.within t n : Exec X σ α).AddsHashed := fun _ fs => (Exec.wp_within t n).mpr (h _ fs)

theorem foldlM {β γ : Type} {k : γ → β → Exec X σ γ} (hk : ∀ c b, (k c b).AddsHashed) (l : List β) (c : γ) :
    (l.foldlM k c : Exec X σ γ).AddsHashed := by
  induction l generalizing c with
  | nil => exact .pure _
  | cons b l ih => exact .bind (hk c b) fun c => ih c

end Exec.AddsHashed

/-- **A flush** hashes the blocks that it has written. -/
theorem wp_segmentFlush_hashed (fs : Fs) (id : SegmentId) (window : ℕ) (entries : List (Bytes × MemEntry)) :
    Prog.wp (segmentFlush (X := X) id window entries) (addingHashed X fun m fs' => m.segmentId = id ∧ m.Hashed X fs')
      p fs := by
  cases entries with
  | nil => exact (Prog.wp_throw _).mpr trivial
  | cons first rest =>
    simp only [segmentFlush]
    cases cohortBucketFor first.2.timestamp first.2.ttl window with
    | error e => simp [AddsHashed]
    | ok bucket =>
      simp only [Prog.wp_bind, Exec.wp_effect, Exec.wp_now, Prog.wp_lift, Prog.wp_pure, Prog.result_ok, AddsHashed,
        applyEffect, Fs.setSegment_setSegment, SegmentMeta.Hashed]
      simp [segmentMetaFor, File.Holds]

namespace Manifest

theorem writeFramedEntry_unregisters (id : SegmentId) :
    Exec.Frame Effect.Unregisters (fun _ => ()) (writeFramedEntry (X := X) (removeEntry id)) :=
  .ite (fun _ => .throw _) fun _ => .bind .get fun _ => .bind (.effect ⟨trivial, rfl⟩) fun _ => .modify fun _ => rfl

/-- A segment is added when its file has its hash. -/
theorem wp_addSegment_hashed {p : Process Manifest} (hm : m.Hashed X fs) :
    Prog.wp (addSegment (X := X) m) (addingHashed X fun _ _ => True) p fs := by
  simp only [addSegment, writeFramedEntry, Prog.wp_bind, Prog.wp_ite]
  split
  · exact (Prog.wp_throw _).mpr trivial
  · simp only [Exec.wp_get, Exec.wp_effect, Exec.wp_modify]
    refine fun _ => ⟨fun pos m' heq => ?_, fun _ => ⟨fun pos m' heq => (by cases heq), trivial⟩⟩
    obtain ⟨-, heq⟩ := Effect.manifestAppend.inj heq
    obtain rfl : m = m' := Option.some_inj.mp (congrArg ManifestEntry.segMeta heq)
    exact hm

theorem open_addsNone (g : σ → T) : Exec.Frame Effect.AddsNone g (Manifest.open (X := X)) := by
  refine .bind .fs fun fs => ?_
  split
  · exact .bind (.effect trivial) fun _ => .bind (.effect trivial) fun _ => .bind (.effect trivial) fun _ => .pure _
  · exact .bind (.lift _) fun _ => .pure _

theorem removeSegments_unregisters (ids : List SegmentId) :
    Exec.Frame Effect.Unregisters (fun _ => ()) (removeSegments (X := X) ids) :=
  .bind (.forM fun _ _ => writeFramedEntry_unregisters _) fun _ => .bind (.effect ⟨trivial, rfl⟩) fun _ =>
    .modify fun _ => rfl

end Manifest

theorem unlinkSegment_addsNone (id : SegmentId) (g : σ → T) :
    Exec.Frame Effect.AddsNone g (unlinkSegment (X := X) id) :=
  .forM fun _ _ => .bind .fs fun _ => .ite (fun _ => .effect trivial) fun _ => .pure _

namespace SegmentStore

theorem open_addsHashed (window : ℕ) : (SegmentStore.open (X := X) (σ := σ) window).AddsHashed :=
  .of_frame (.bind (Manifest.open_addsNone id) fun _ => .bind .fs fun _ => .bind (.lift _) fun _ => .pure _)

theorem wp_finalizeSegment_hashed {p : Process SegmentStore} (hm : m.Hashed X fs) :
    Prog.wp (finalizeSegment (X := X) m) (addingHashed X fun _ _ => True) p fs := by
  rw [finalizeSegment, onManifest, Prog.wp_bind, Exec.wp_zoom]
  refine Prog.wp_imp (Manifest.wp_addSegment_hashed hm) (fun _ q fs' _ => ?_) fun _ _ _ h => h
  -- what follows writes nothing
  have hrest : Exec.Frame Effect.AddsNone (fun _ => ()) (do
      let reader ← Prog.lift (openReader m.segmentId ((← Exec.fs).segs m.segmentId))
      Exec.modify fun s => { s with readers := s.readers ++ [reader] } : Exec X SegmentStore Unit) :=
    .bind .fs fun _ => .bind (.lift _) fun _ => .modify fun _ => rfl
  exact Exec.AddsHashed.of_frame hrest _ fs'

theorem wp_addImportedSegment_hashed {p : Process SegmentStore} (reader : SegmentReader) (hm : m.Hashed X fs) :
    Prog.wp (addImportedSegment (X := X) m reader) (addingHashed X fun _ _ => True) p fs := by
  rw [addImportedSegment, onManifest, Prog.wp_bind, Exec.wp_zoom]
  refine Prog.wp_imp (Manifest.wp_addSegment_hashed hm) (fun _ q fs' _ => ?_) fun _ _ _ h => h
  exact (Exec.wp_modify _).mpr trivial

/-- A rewritten segment is in place before the old one goes. -/
theorem wp_replaceSegment_hashed {p : Process SegmentStore} (oldId : SegmentId) (reader : SegmentReader)
    (hm : m.Hashed X fs) :
    Prog.wp (replaceSegment (X := X) oldId m reader) (addingHashed X fun _ _ => True) p fs := by
  simp only [replaceSegment, onManifest, Prog.wp_bind, Exec.wp_zoom, Exec.wp_modify]
  have hremove : Prog.wp (Manifest.removeSegments (X := X) [oldId]) (addingHashed X fun _ fs' => m.Hashed X fs')
      ⟨p.state.manifest, p.clock⟩ fs := by
    apply wp_addingHashed_of_frame (Manifest.removeSegments_unregisters _) (fun _ hf => hf.1) ?_ hm
    intro f d hf hd
    -- taking an entry off the manifest touches no segment file
    refine hd.congr (segs_apply_of_ne ?_)
    rw [hf.2]
    rintro ⟨⟩
  refine Prog.wp_imp hremove (fun _ q fs₁ hm₁ => ?_) fun _ _ _ h => h
  refine Prog.wp_imp (Manifest.wp_addSegment_hashed hm₁) (fun _ q₂ fs₂ _ => ?_) fun _ _ _ h => h
  exact Exec.AddsHashed.of_frame (unlinkSegment_addsNone oldId fun _ => ()) _ fs₂

end SegmentStore

/-! ### Compactions -/

namespace Compactor

theorem mergeSegment_addsNone (merged : MemTable) (id : SegmentId) :
    Exec.Frame Effect.AddsNone (fun _ => ()) (mergeSegment (X := X) merged id) :=
  .bind .fs fun _ => .bind (.lift _) fun _ => .bind (.lift _) fun _ => .pure _

theorem dropCohort_addsNone (cohort : CohortInfo) (stats : CompactionStats) :
    Exec.Frame Effect.AddsNone (fun _ => ()) (dropCohort (X := X) cohort stats) :=
  .bind ((Manifest.removeSegments_unregisters _).mono fun _ hf => hf.1) fun _ =>
    .bind (.forM fun _ _ => unlinkSegment_addsNone _ _) fun _ => .pure _

theorem compactPartialCohort_addsHashed (c : Compactor) (cohort : CohortInfo) (now : ℤ) (next : SegmentId)
    (stats : CompactionStats) : (c.compactPartialCohort (X := X) cohort now next stats).AddsHashed := by
  apply Exec.AddsHashed.bind (.of_frame (.foldlM (fun _ _ => mergeSegment_addsNone _ _) _ _))
  intro merged
  apply Exec.AddsHashed.ite (.of_frame (dropCohort_addsNone cohort stats))
  intro p fs
  refine wp_addingHashed_bind (wp_segmentFlush_hashed _ _ _ _) ?_
  rintro m q fs₁ ⟨-, hm⟩
  refine wp_addingHashed_bind (Manifest.wp_addSegment_hashed hm) fun _ q₂ fs₂ _ => ?_
  -- the rest removes segments only
  exact Exec.AddsHashed.bind (.of_frame ((Manifest.removeSegments_unregisters _).mono fun _ hf => hf.1))
    (fun _ => .bind (.of_frame (.forM fun _ _ => unlinkSegment_addsNone _ fun _ => ())) fun _ => .pure _) q₂ fs₂

theorem compactCycle_addsHashed (c : Compactor) (order : HashOrder) (now : ℤ) (pinned : List SegmentId) :
    (c.compactCycle (X := X) order now pinned).AddsHashed := by
  refine .bind .get fun _ =>
    .bind (.foldlM (fun acc cohort => ?_) _ _) fun _ => .pure _
  apply Exec.AddsHashed.ite (.pure _)
  apply Exec.AddsHashed.ite (.pure _)
  apply Exec.AddsHashed.ite
  · exact .bind (.of_frame (dropCohort_addsNone _ _)) fun _ => .pure _
  · exact .bind (compactPartialCohort_addsHashed _ _ _ _ _) fun _ => .pure _

end Compactor

/-! ### The engine -/

namespace Engine

theorem wp_finalizeFlush_hashed {p : Process Engine} (flushed : Lsn) (hm : m.Hashed X fs) :
    Prog.wp (finalizeFlush (X := X) m flushed) (addingHashed X fun _ _ => True) p fs := by
  simp only [finalizeFlush, Prog.wp_bind, onStore, Exec.wp_zoom, Exec.wp_modify]
  refine Prog.wp_imp (SegmentStore.wp_finalizeSegment_hashed hm) (fun _ q fs₁ _ => ?_) fun _ _ _ h => h
  exact Exec.AddsHashed.of_frame ((retireWals_frame fun _ => ()).mono fun _ hf => hf.addsNone) _ fs₁

theorem flushToSegments_addsHashed : (flushToSegments (X := X)).AddsHashed := by
  refine .bind (.of_frame (beginFlush_frame _)) fun work => ?_
  cases work with
  | none => exact .throw _
  | some w =>
    intro p fs
    refine wp_addingHashed_bind (wp_segmentFlush_hashed _ _ _ _) ?_
    rintro m q fs₁ ⟨-, hm⟩
    refine wp_addingHashed_bind (wp_finalizeFlush_hashed _ hm) fun _ q₂ fs₂ _ => ?_
    exact (Prog.wp_pure _).mpr trivial

theorem put_addsHashed (ns key val : Bytes) : (put (X := X) ns key val).AddsHashed :=
  .bind (.of_log (checkPut_frame ns)) fun _ => .bind (.of_log (writeEntry_frame ns key val 0)) fun _ =>
    .bind .get fun _ =>
    .ite (.bind flushToSegments_addsHashed fun _ => .pure _) (.pure _)

theorem compactOnce_addsHashed (order : HashOrder) : (compactOnce (X := X) order).AddsHashed :=
  .bind .now fun _ => .bind .get fun _ =>
    .bind (.of_frame (Manifest.open_addsNone fun _ => ())) fun _ =>
    .bind (.within (Compactor.compactCycle_addsHashed _ _ _ _)) fun _ =>
    .bind (SegmentStore.open_addsHashed _) fun _ =>
    .bind (.modify _) fun _ => .pure _

/-- A strip sets a flag in metadata, and leaves the hash. -/
theorem stripIndex_addsHashed {kind : IndexKind} (hk : kind.Flags) (id : SegmentId) :
    (stripIndex (X := X) kind id).AddsHashed := by
  refine .bind .get fun e => ?_
  dsimp only
  split
  · exact .throw _
  · apply Exec.AddsHashed.ite (.pure _)
    split
    · exact .throw _
    · refine .bind .files fun _ => .bind (.lift _) fun _ =>
        .ite (.pure _) (.bind (.of_frame (onStore_frame (SegmentStore.allocSegmentId_frame _))) fun newId =>
        .bind .get fun _ => ?_)
      intro p fs
      refine wp_addingHashed_bind (wp_segmentFlush_hashed _ _ _ _) ?_
      rintro written q fs₁ ⟨-, hwritten⟩
      -- the new segment has the hash of what is left of the old one
      obtain ⟨t, v, hflags⟩ := hk written
      have hm : (kind.setStripped written).Hashed X fs₁ := by
        rw [hflags]
        exact hwritten
      simp only [Prog.wp_bind, Exec.wp_fs, Prog.wp_lift, onStore, Exec.wp_zoom]
      cases openReader newId (fs₁.segs newId) with
      | error err => trivial
      | ok reader =>
        refine Prog.wp_imp (SegmentStore.wp_replaceSegment_hashed id reader hm) (fun _ q₂ fs₂ _ => ?_) fun _ _ _ h => h
        exact (Prog.wp_pure _).mpr trivial

theorem wp_writeSidecars_hashed {p : Process Engine} {dat : Dat} (g : ImportProgress) (m : SegmentMeta)
    (hdat : (fs.segs id).dat = .whole dat) :
    Prog.wp (writeSidecars (X := X) id g m) (addingHashed X fun _ fs' => (fs'.segs id).dat = .whole dat) p fs := by
  simp [writeSidecars, AddsHashed, applyEffect, hdat]

/-- An import has checked the hash that it registers. -/
theorem importSegment_addsHashed (dat : Dat) (size : ℕ) (hash : Bytes) :
    (importSegment (X := X) dat size hash).AddsHashed := by
  intro p fs
  simp only [importSegment, Prog.wp_bind, Exec.wp_get, Prog.wp_ite, Prog.wp_pure, Exec.wp_effect]
  split
  case isTrue => trivial
  case isFalse =>
    split
    case isTrue => trivial
    case isFalse hhash =>
      refine fun _ => ⟨fun pos m heq => (by cases heq), fun _ => ⟨fun pos m heq => (by cases heq), ?_⟩⟩
      set fs₁ := applyEffect X (.stageRename hash) (applyEffect X (.stageWrite hash dat) fs) with hfs₁
      have hstaged : (fs₁.staged hash).dat = .whole dat := by simp [hfs₁, applyEffect, Fs.setStaged, setAt]
      split
      case h_1 => exact (Prog.wp_pure _).mpr trivial
      case h_2 => exact (Prog.wp_pure _).mpr trivial
      case h_3 parsed _ =>
        rw [Prog.wp_bind]
        -- the records go to the WAL, and the staged file stays
        have hloop : Prog.wp (parsed.foldlM (importEntry (X := X)) {})
            (addingHashed X fun _ fs' => (fs'.staged hash).dat = .whole dat) p fs₁ := by
          apply wp_addingHashed_of_frame (.foldlM (fun g q => importEntry_frame g q) parsed {})
            (fun _ hf => hf.addsNone) ?_ hstaged
          intro f d hf hd
          rw [(hf.isWal.apply d).2.2]
          exact hd
        refine Prog.wp_imp hloop (fun g q fs₂ hstaged₂ => ?_) fun _ _ _ h => h
        simp only [onStore, Exec.wp_zoom, SegmentStore.wp_allocSegmentId, Exec.wp_effect, onWal, WalWriter.fsync,
          Prog.wp_bind, Exec.wp_get, Exec.wp_now]
        refine fun _ => ⟨fun pos m heq => (by cases heq), fun _ => ⟨fun pos m heq => (by cases heq), ?_⟩⟩
        set newId := q.state.segmentStore.nextSegmentId
        have hadopted : ((applyEffect X (.stageAdopt hash newId) fs₂).segs newId).dat = .whole dat := by
          simp [applyEffect, Fs.setStaged, hstaged₂]
        refine Prog.wp_imp (wp_writeSidecars_hashed _ _ hadopted) (fun _ q₄ fs₄ hdat => ?_) fun _ _ _ h => h
        simp only [Exec.wp_fs, Prog.wp_lift]
        cases openReader newId (fs₄.segs newId) with
        | error err => trivial
        | ok reader =>
          refine Prog.wp_imp (SegmentStore.wp_addImportedSegment_hashed reader ?_) (fun _ q₅ fs₅ _ => ?_)
            fun _ _ _ h => h
          · -- the hash that is registered is the one that was compared
            have hholds : (fs₄.segs newId).dat.Holds fun dat => X.datHash dat = hash := by
              rw [hdat]
              exact Decidable.not_not.mp hhash
            exact hholds
          · exact (Prog.wp_pure _).mpr trivial

end Engine

theorem Engine.open_addsHashed (config : EdgestoreConfig) : (Engine.open (X := X) (σ := σ) config).AddsHashed :=
  .bind .files fun _ => .bind (.lift _) fun res =>
    .bind (.of_log (openWal_frame config res.2.maxLsn fun _ => ())) fun _ =>
    .bind (SegmentStore.open_addsHashed _) fun _ => .pure _

/-! ### Calls -/

namespace World

variable {w : World} {c : Call} {clock : ℕ → ℕ}

/-- **Any call**, which may stop anywhere: it is within the limits of the store, and leaves no torn frame in the manifest.
It is stopped only where there is a manifest. Nothing is asked of the WAL. -/
structure Stoppable (X : Externals) (w : World) (c : Call) : Prop where
  clean : w.StopsCleanly X c
  admitted : w.Admitted X ⟨c.op, c.clock, none⟩
  manifest : c.stop.isSome = true → w.fs.manifest.isSome = true

instance (X : Externals) (w : World) (c : Call) : Decidable (w.Stoppable X c) :=
  decidable_of_iff (w.StopsCleanly X c ∧ w.Admitted X ⟨c.op, c.clock, none⟩ ∧
      (c.stop.isSome = true → w.fs.manifest.isSome = true))
    ⟨fun h => ⟨h.1, h.2.1, h.2.2⟩, fun h => ⟨h.clean, h.admitted, h.manifest⟩⟩

/-- A call that stops does so where there is a manifest. -/
theorem manifestLog_of_isSome (h : WorldInv X w) (hsome : w.fs.manifest.isSome = true) : ∃ xs, ManifestLog X w.fs xs := by
  apply h.log.resolve_left
  intro hnone
  rw [hnone] at hsome
  cases hsome

/-- The effects of a call keep the discipline of the store. -/
theorem Stoppable.effects (h : WorldInv X w) (hc : w.Stoppable X c) :
    (disk X).All (fun f d => StoreEffect X (w.others c.op) f d ∧ AppendsClean X f d) (w.effects X c) w.fs :=
  h.all_clean (c := ⟨c.op, c.clock, none⟩) hc.admitted

/-- **A call**, stopped or not, keeps the invariant of the store. -/
theorem Stoppable.inv_step (h : WorldInv X w) (hc : w.Stoppable X c) : WorldInv X (w.step X c) := by
  obtain ⟨op, clock, stop⟩ := c
  cases stop with
  | none => exact h.step hc.admitted
  | some s =>
    have hdir : StoreDir X (w.step X ⟨op, clock, some s⟩).fs :=
      (storeDir_of_inv h).cut (manifestLog_of_isSome h (hc.manifest rfl)) (hc.effects h) (hc.clean s rfl)
    exact worldInv_of_dir hdir rfl rfl

/-- **The invariant of content hashes**: the registered segments have their hashes, and so have those that flushes in
flight have written. -/
structure Hashed (X : Externals) (w : World) : Prop where
  inv : WorldInv X w
  segments : AllHashed X w.fs
  flights : ∀ f ∈ w.flights, ∀ m ∈ f.written, m.Hashed X w.fs

theorem Hashed.empty : ({} : World).Hashed X where
  inv := worldInv_empty
  segments := fun m hm => by
    rw [registered_none rfl] at hm
    cases hm
  flights := fun _ hf => absurd hf List.not_mem_nil

theorem all_addsHashed_onEngine {m : Exec X Engine α} {land : α → List Flight} (hm : m.AddsHashed) :
    (disk X).All (AddsHashed X) (w.onEngine X clock m land).effects w.fs := by
  cases he : w.engine with
  | none =>
    rw [onEngine_none he]
    trivial
  | some e =>
    rw [(onEngine_some he).1]
    exact Prog.wp_guar (hm ⟨e, clock⟩ w.fs) Device.all_true

/-- **A call adds segments with their hashes.** -/
theorem Hashed.all_addsHashed (h : w.Hashed X) (op : Op) (clock : ℕ → ℕ) :
    (disk X).All (AddsHashed X) (w.perform X op clock).effects w.fs := by
  cases op with
  | «open» config =>
    simp only [perform]
    split
    · trivial
    · exact Prog.wp_guar (Engine.open_addsHashed config ⟨(), clock⟩ w.fs) Device.all_true
  | close => exact all_addsHashed_onEngine (.of_log Engine.flush_frame)
  | put ns key val => exact all_addsHashed_onEngine (Engine.put_addsHashed ns key val)
  | putWithTtl ns key val ttl => exact all_addsHashed_onEngine (.of_log (Engine.putWithTtl_frame ns key val ttl))
  | delete ns key => exact all_addsHashed_onEngine (.of_log (Engine.delete_frame ns key))
  | commit ops => exact all_addsHashed_onEngine (.of_log (runTransaction_frame ops))
  | flush => exact all_addsHashed_onEngine (.of_log Engine.flush_frame)
  | flushToSegments => exact all_addsHashed_onEngine Engine.flushToSegments_addsHashed
  | beginFlush => exact all_addsHashed_onEngine (.of_frame (Engine.beginFlush_frame _))
  | execute i =>
    simp only [perform, executeFlight]
    split
    · trivial
    case h_2 f _ =>
      have hguar := Prog.wp_guar (wp_segmentFlush_hashed (X := X) (p := ⟨(), clock⟩) w.fs f.work.segmentId
        f.work.cohortWindowSecs f.work.entries) Device.all_true
      split
      · exact hguar
      · exact hguar
  | finalizeFlush i =>
    simp only [perform]
    split
    case h_1 e work m he hf =>
      -- the segment has been written by the flight
      have hm := h.flights _ (List.mem_of_getElem? hf) m rfl
      rw [(onEngine_some he).1]
      exact Prog.wp_guar (Engine.wp_finalizeFlush_hashed work.flushedMaxLsn hm) Device.all_true
    case h_2 => trivial
  | abandon i => trivial
  | compactOnce order => exact all_addsHashed_onEngine (Engine.compactOnce_addsHashed order)
  | stripTextIndex id => exact all_addsHashed_onEngine (Engine.stripIndex_addsHashed textIndex_flags id)
  | stripVectorIndex id => exact all_addsHashed_onEngine (Engine.stripIndex_addsHashed vectorIndex_flags id)
  | importSegment dat size hash => exact all_addsHashed_onEngine (Engine.importSegment_addsHashed dat size hash)
  | snapshot =>
    exact all_addsHashed_onEngine (.bind .get fun _ =>
      .bind (.modify _) fun _ => .pure _)
  | dropSnapshot id => exact all_addsHashed_onEngine (.modify _)

/-- Segments keep their hashes as far as a call goes. -/
theorem Hashed.segments_take (h : w.Hashed X) (hc : w.Stoppable X c) (n : ℕ) :
    AllHashed X ((disk X).run ((w.effects X c).take n) w.fs) := by
  have hstore := hc.effects h.inv
  have hadds := h.all_addsHashed c.op c.clock
  exact ((Device.all_and.mpr ⟨hstore, hadds⟩).take n).run (fun _ _ hf hd => hd.apply hf.1.1 hf.1.2 hf.2) h.segments

/-- A flight that the call does not own keeps its file. -/
theorem Hashed.flight_kept {op : Op} (h : w.Hashed X) (hc : w.Admitted X ⟨op, clock, none⟩) {f : Flight}
    (hf : f ∈ w.flights) (hid : f.work.segmentId ∈ w.others op) :
    ∀ m ∈ f.written, m.Hashed X ((disk X).run (w.perform X op clock).effects w.fs) := by
  intro m hm
  have hwritten := (h.inv.fs.held f hf).2 m hm
  have hsegs : ((disk X).run (w.perform X op clock).effects w.fs).segs m.segmentId = w.fs.segs m.segmentId := by
    rw [hwritten.segmentId]
    have hstore := h.inv.all_storeEffect hc
    exact hstore.run (I := fun d : Fs => d.segs f.work.segmentId = w.fs.segs f.work.segmentId)
      (fun _ _ he hd => (segs_apply_reserved he hid).trans hd) rfl
  exact (h.flights f hf m hm).congr hsegs

/-- **Flushes in flight** have hashed what they have written. -/
theorem Hashed.flights_perform {op : Op} (h : w.Hashed X) (hc : w.Admitted X ⟨op, clock, none⟩) :
    ∀ f ∈ (w.perform X op clock).flights, ∀ m ∈ f.written,
      m.Hashed X ((disk X).run (w.perform X op clock).effects w.fs) := by
  intro f hf
  cases op with
  | beginFlush =>
    have hnew : f ∈ w.flights ∨ f.written = none := by
      simp only [perform, onEngine] at hf
      split at hf
      · exact .inl hf
      · split at hf
        case h_1 work _ =>
          refine (List.mem_append.mp hf).imp_right fun hf => ?_
          cases work with
          | none => cases hf
          | some work => exact List.mem_singleton.mp hf ▸ rfl
        case h_2 => exact .inl hf
    rcases hnew with hf | hnone
    · exact h.flight_kept hc hf (mem_idsOf hf)
    · intro m hm
      rw [hnone] at hm
      cases hm
  | execute i =>
    have hrest : ∀ f ∈ w.flights.eraseIdx i, ∀ m ∈ f.written,
        m.Hashed X ((disk X).run (w.perform X (.execute i) clock).effects w.fs) := fun f hf =>
      h.flight_kept hc (List.mem_of_mem_eraseIdx hf) (mem_idsOf hf)
    simp only [perform, executeFlight] at hf hrest ⊢
    cases hi : w.flights[i]? with
    | none =>
      simp only [hi] at hf
      exact h.flights f hf
    | some f₀ =>
      have hres := Prog.wp_result (wp_segmentFlush_hashed (X := X) (p := ⟨(), clock⟩) w.fs f₀.work.segmentId
        f₀.work.cohortWindowSecs f₀.work.entries) Device.all_true
      simp only [hi, FlushWork.execute] at hf hrest ⊢
      generalize (segmentFlush (X := X) (σ := Unit) f₀.work.segmentId f₀.work.cohortWindowSecs f₀.work.entries).run
        ⟨(), clock⟩ w.fs = r at hf hres hrest ⊢
      obtain ⟨_ | m₀, q, es⟩ := r
      · exact hrest f hf
      · rcases List.mem_cons.mp ((flights_set_perm hi _).mem_iff.mp hf) with rfl | hf
        · rintro m ⟨⟩
          exact hres.2
        · exact hrest f hf
  | finalizeFlush i =>
    have hcase : f ∈ w.flights.eraseIdx i ∨ f ∈ w.flights ∧ (w.perform X (.finalizeFlush i) clock).effects = [] := by
      revert hf
      simp only [perform]
      split
      · exact .inl
      · exact fun hf => .inr ⟨hf, rfl⟩
    rcases hcase with hf | ⟨hf, hnone⟩
    · exact h.flight_kept hc (List.mem_of_mem_eraseIdx hf) (mem_idsOf hf)
    · rw [hnone]
      exact h.flights f hf
  | abandon i =>
    have hmem : f ∈ w.flights := List.mem_of_mem_eraseIdx hf
    exact h.flights f hmem
  | «open» config =>
    have hmem : f ∈ w.flights := by
      simp only [perform] at hf
      split at hf
      · exact hf
      · exact hf
    exact h.flight_kept hc hmem (mem_idsOf hmem)
  | _ =>
    have hmem : f ∈ w.flights := by
      simp only [perform, flights_onEngine] at hf
      exact hf
    exact h.flight_kept hc hmem (mem_idsOf hmem)

/-- **A call** keeps the hashes, stopped or not. -/
theorem Hashed.step (h : w.Hashed X) (hc : w.Stoppable X c) : (w.step X c).Hashed X := by
  have hinv := hc.inv_step h.inv
  have hsegments := h.segments_take hc
  have hflights := h.flights_perform hc.admitted
  have hstore := hc.effects h.inv
  obtain ⟨op, clock, stop⟩ := c
  cases stop with
  | none =>
    refine ⟨hinv, ?_, hflights⟩
    have hall := hsegments (w.effects X ⟨op, clock, none⟩).length
    rw [List.take_length] at hall
    exact hall
  | some s =>
    refine ⟨hinv, ?_, fun _ hf => absurd hf List.not_mem_nil⟩
    have hlog := manifestLog_of_isSome h.inv (hc.manifest rfl)
    exact (hsegments s.1).congr (sameRegistered_cut hlog hstore (hc.clean s rfl))

theorem Hashed.run {calls : List Call} (hcalls : Run.All (World.step X) (Stoppable X) {} calls) :
    (Run.from (World.step X) {} calls).Hashed X :=
  hcalls.invariant (fun _ _ h hc => h.step hc) .empty

/-- **Segments are content-addressed**: in a run of any calls, each of which may stop anywhere, the `.dat` file of every
registered segment is there and has the hash that the manifest lists. -/
theorem allHashed {calls : List Call} (hcalls : Run.All (step X) (Stoppable X) {} calls) :
    ∀ m ∈ registered X (Run.from (step X) {} calls).fs,
      ∃ dat, ((Run.from (step X) {} calls).fs.segs m.segmentId).dat = .whole dat ∧ X.datHash dat = m.segmentHash :=
  fun m hm => ((Hashed.run hcalls).segments m hm).exists_dat

/-- A segment of a peer. -/
def sentDat : Dat :=
  [.decoded 10 [([0, 1, 1, 7], { key := [0, 1, 1, 7], value := some [10], op := .put, lsn := 1, timestamp := 5,
                                 ttl := 60 })]]

/-- Flushes and a strip, an import and a compaction, each of which is stopped once and then made again, and a put that is
stopped inside its frame. The compaction stops when it has removed the first of three segments. -/
def hashedRun : List Call :=
  let pull (stop : Option (ℕ × ℕ)) : Call :=
    { op := .importSegment sentDat 10 (plainExternals.datHash sentDat), stop := stop }
  [{ op := .open {} }, { op := .put textIndex.nsPrefix [1] [20] }, { op := .put [1] [7] [10] },
    { op := .flushToSegments }, { op := .put [1] [8] [11] }, { op := .beginFlush }, { op := .stripTextIndex 0 },
    { op := .execute 0 }, { op := .finalizeFlush 0 }, { op := .put [1] [9] [12], stop := some (0, 3) }, { op := .open {} },
    pull (some (3, 0)), { op := .open {} }, pull none, { op := .compactOnce .given, stop := some (10, 0) },
    { op := .open {} }, { op := .compactOnce .given }]

theorem allHashed_hashedRun :
    registered plainExternals (Run.from (step plainExternals) {} hashedRun).fs ≠ [] ∧
      ∀ m ∈ registered plainExternals (Run.from (step plainExternals) {} hashedRun).fs,
        ∃ dat, ((Run.from (step plainExternals) {} hashedRun).fs.segs m.segmentId).dat = .whole dat ∧
          plainExternals.datHash dat = m.segmentHash :=
  ⟨by decide +kernel, allHashed (by decide +kernel)⟩

end World
