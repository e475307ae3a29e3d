import Edgestore.World
import Edgestore.Engine.RewriteSpec
import Mathlib.Data.List.Perm.Basic

/-!
# The invariant of runs

In a run whose files stay within the limits of their readers, and whose flushes in flight are covered
by the manifest whenever ids are taken anew from it, the directory stays well formed, the segment
store stays in step with it, and every flush in flight keeps its id and its files.

## Main definitions

* `World.reservedIds`: the ids of the flushes in flight
* `WorldInv X w`: the invariant
* `World.Admitted X w c`: the calls that keep it
* `World.others`: the reserved ids that a call does not own

## Main results

* `WorldInv.step`: admitted calls keep the invariant
* `WorldInv.all_storeEffect`: the effects of an admitted call keep the discipline of the store
* `WorldInv.all_clean`: they do so on a manifest that ends at the end of a frame
-/

variable {X : Externals} {w : World} {c : Call}

namespace World

/-- The ids of flushes. -/
def idsOf (flights : List Flight) : List SegmentId := flights.map fun f => f.work.segmentId

/-- The ids of the flushes in flight. -/
def reservedIds (w : World) : List SegmentId := idsOf w.flights

/-- The reserved ids that a call does not own. -/
def others (w : World) (op : Op) : List SegmentId :=
  match op with
  | .execute i => idsOf (w.flights.eraseIdx i)
  | .finalizeFlush i => idsOf (w.flights.eraseIdx i)
  | _ => w.reservedIds

/-- Ids are taken anew from the manifest only when it covers the flushes in flight: when the store
is opened, and throughout a compaction. -/
def IdsCovered (X : Externals) (w : World) (c : Call) : Prop :=
  match c.op with
  | .open _ => Covered X w.reservedIds w.fs
  | .compactOnce _ => Covered X w.reservedIds w.fs ∧ w.EffectsMeet X (KeepsCover X w.reservedIds) c
  | _ => True

/-- The cohort window of an engine that is opened divides. -/
def WindowOk (c : Call) : Prop :=
  match c.op with
  | .open config => asI64 config.cohortWindowSecs ≠ 0
  | _ => True

/-- A call that is not cut short, writes files within the limits of their readers, and takes ids
anew from the manifest only when it covers the flushes in flight. -/
structure Admitted (X : Externals) (w : World) (c : Call) : Prop where
  stop : c.stop = none
  limits : w.EffectsMeet X (WithinLimits X) c
  window : WindowOk c
  ids : w.IdsCovered X c

instance (X : Externals) (w : World) : DecidablePred (w.IdsCovered X)
  | ⟨.open _, _, _⟩ => inferInstanceAs (Decidable (Covered X w.reservedIds w.fs))
  | ⟨.compactOnce order, clock, stop⟩ => inferInstanceAs (Decidable
      (Covered X w.reservedIds w.fs ∧
        w.EffectsMeet X (KeepsCover X w.reservedIds) ⟨.compactOnce order, clock, stop⟩))
  | ⟨.close, _, _⟩ => .isTrue trivial
  | ⟨.put _ _ _, _, _⟩ => .isTrue trivial
  | ⟨.putWithTtl _ _ _ _, _, _⟩ => .isTrue trivial
  | ⟨.delete _ _, _, _⟩ => .isTrue trivial
  | ⟨.commit _, _, _⟩ => .isTrue trivial
  | ⟨.flush, _, _⟩ => .isTrue trivial
  | ⟨.flushToSegments, _, _⟩ => .isTrue trivial
  | ⟨.beginFlush, _, _⟩ => .isTrue trivial
  | ⟨.execute _, _, _⟩ => .isTrue trivial
  | ⟨.finalizeFlush _, _, _⟩ => .isTrue trivial
  | ⟨.abandon _, _, _⟩ => .isTrue trivial
  | ⟨.stripTextIndex _, _, _⟩ => .isTrue trivial
  | ⟨.stripVectorIndex _, _, _⟩ => .isTrue trivial
  | ⟨.importSegment _ _ _, _, _⟩ => .isTrue trivial
  | ⟨.snapshot, _, _⟩ => .isTrue trivial
  | ⟨.dropSnapshot _, _, _⟩ => .isTrue trivial

instance : DecidablePred WindowOk := fun c => by
  obtain ⟨op, clock, stop⟩ := c
  unfold WindowOk
  rcases op <;> infer_instance

instance (X : Externals) (w : World) (c : Call) : Decidable (w.Admitted X c) :=
  decidable_of_iff (c.stop = none ∧ w.EffectsMeet X (WithinLimits X) c ∧ WindowOk c ∧ w.IdsCovered X c)
    ⟨fun ⟨h₁, h₂, h₃, h₄⟩ => ⟨h₁, h₂, h₃, h₄⟩, fun ⟨h₁, h₂, h₃, h₄⟩ => ⟨h₁, h₂, h₃, h₄⟩⟩

end World

/-- Flushes in flight keep what is theirs: an id that is not registered, and the files they wrote. -/
def FlightsHeld (X : Externals) (flights : List Flight) (fs : Fs) : Prop :=
  ∀ f ∈ flights, f.work.segmentId ∉ registeredIds X fs ∧
    ∀ m, f.written = some m → f.work.Written X fs m

/-- The invariant of the directory: it is well formed, its manifest ends at the end of a frame, and
the flushes in flight keep what is theirs. -/
structure FsInv (X : Externals) (flights : List Flight) (fs : Fs) : Prop where
  disk : DiskInv X fs
  clean : ManifestClean X fs
  held : FlightsHeld X flights fs

/-- The invariant of runs. -/
structure WorldInv (X : Externals) (w : World) : Prop where
  fs : FsInv X w.flights w.fs
  log : w.fs.manifest = none ∨ ∃ xs, ManifestLog X w.fs xs
  engine : ∀ e, w.engine = some e → e.Inv X w.reservedIds w.fs
  wf : ∀ f ∈ w.flights, f.work.Wf
  nodup : w.reservedIds.Nodup

/-! ### Effects -/

theorem manifestClean_apply {R : List SegmentId} {e : Effect} {fs : Fs} (h : ManifestClean X fs)
    (he : StoreEffect X R e fs) (hc : AppendsClean X e fs) : ManifestClean X (applyEffect X e fs) := by
  cases e with
  | manifestCreate => rfl
  | manifestHeader =>
    rw [ManifestClean, manifest_manifestHeader he]
    rfl
  | manifestAppend pos e =>
    obtain ⟨⟨xs, hlog⟩, hpos, hjson, -⟩ := he
    exact (hlog.append hc hjson hpos).2
  | _ => exact h

/-- An effect that keeps the discipline leaves flushes in flight alone. -/
theorem FlightsHeld.apply {R : List SegmentId} {flights : List Flight} {e : Effect} {fs : Fs}
    (h : FlightsHeld X flights fs) (hR : ∀ f ∈ flights, f.work.segmentId ∈ R)
    (he : StoreEffect X R e fs) (hc : AppendsClean X e fs) :
    FlightsHeld X flights (applyEffect X e fs) := by
  intro f hf
  obtain ⟨hfree, hwritten⟩ := h f hf
  refine ⟨fun hmem => ?_, fun m hm => ?_⟩
  · rcases registeredIds_apply he hc with ⟨-, heq⟩ | ⟨pos, m, rfl, hm, heq⟩ | ⟨pos, id, rfl, heq⟩
    · exact hfree (heq ▸ hmem)
    · rw [heq] at hmem
      rcases List.mem_append.mp hmem with hmem | hmem
      · exact hfree hmem
      · exact hm.free (List.mem_singleton.mp hmem ▸ hR f hf)
    · rw [heq] at hmem
      exact hfree (List.mem_filter.mp hmem).1
  · rw [FlushWork.Written, segs_apply_reserved he (hR f hf)]
    exact hwritten m hm

theorem FsInv.apply {R : List SegmentId} {flights : List Flight} {e : Effect} {fs : Fs}
    (h : FsInv X flights fs) (hR : ∀ f ∈ flights, f.work.segmentId ∈ R)
    (he : StoreEffect X R e fs) (hc : AppendsClean X e fs) : FsInv X flights (applyEffect X e fs) :=
  ⟨h.disk.apply he hc, manifestClean_apply h.clean he hc, h.held.apply hR he hc⟩

/-- **A specification at work**: in a directory that meets the invariant, a program whose files are
within the limits keeps the discipline and the invariant, and meets its postcondition. -/
theorem fsInv_run {S α : Type} {m : Exec X S α} {p : Process S} {fs : Fs} {flights : List Flight}
    {R : List SegmentId} {ok : α → Process S → Fs → Prop}
    {error : EdgestoreError → Process S → Fs → Prop} {L : Effect → Fs → Prop}
    (h : FsInv X flights fs) (hR : ∀ f ∈ flights, f.work.segmentId ∈ R)
    (hwp : Prog.wp m ⟨ok, error, fun e fs => StoreRely X e fs ∧ L e fs, StoreEffect X R⟩ p fs)
    (hlim : (disk X).All (WithinLimits X) (m.run p fs).2.2 fs)
    (hL : (disk X).All L (m.run p fs).2.2 fs) :
    (disk X).All (StoreEffect X R) (m.run p fs).2.2 fs ∧
      FsInv X flights ((disk X).run (m.run p fs).2.2 fs) ∧
      (Prog.Post.mk ok error (fun e fs => StoreRely X e fs ∧ L e fs) (StoreEffect X R)).result
        (m.run p fs).1 (m.run p fs).2.1 ((disk X).run (m.run p fs).2.2 fs) := by
  have hclean : ∀ e d, FsInv X flights d → AppendsClean X e d := by
    intro e d hd
    cases e <;> first | trivial | exact hd.clean
  obtain ⟨hrely, hinv⟩ := hwp.1.all_of_inv (I := FsInv X flights)
    (L := fun e d => WithinLimits X e d ∧ L e d)
    (fun e d hd hl => ⟨⟨hl.1, hclean e d hd⟩, hl.2⟩)
    (fun e d hd hr hg => hd.apply hR hg hr.1.2) (Device.all_and.mpr ⟨hlim, hL⟩) h
  exact ⟨hwp.1.all hrely, hinv, hwp.2 hrely⟩

/-! ### Calls -/

/-- An outcome keeps the discipline, with the ids `R` reserved by others, and the invariant. -/
structure Outcome.Kept (X : Externals) (w : World) (R : List SegmentId) (o : Outcome) : Prop where
  guar : (disk X).All (StoreEffect X R) o.effects w.fs
  inv : ∀ acked, WorldInv X ⟨(disk X).run o.effects w.fs, o.engine, o.flights, acked⟩

theorem mem_idsOf {flights : List Flight} {f : Flight} (h : f ∈ flights) :
    f.work.segmentId ∈ World.idsOf flights := List.mem_map_of_mem h

theorem kept_idle {R : List SegmentId} {ok : Bool} (h : WorldInv X w) :
    (w.idle ok).Kept X w R :=
  ⟨trivial, fun _ => ⟨h.fs, h.log, h.engine, h.wf, h.nodup⟩⟩

/-- A method of the engine that keeps its invariant. -/
theorem kept_onEngine {α : Type} {m : Exec X Engine α} {clock : ℕ → ℕ} {L : Effect → Fs → Prop}
    (h : WorldInv X w)
    (hwp : ∀ e, w.engine = some e → e.Inv X w.reservedIds w.fs → Prog.wp m
      ⟨fun _ q fs' => q.state.Inv X w.reservedIds fs', fun _ q fs' => q.state.Inv X w.reservedIds fs',
        fun e fs => StoreRely X e fs ∧ L e fs, StoreEffect X w.reservedIds⟩ ⟨e, clock⟩ w.fs)
    (hlim : (disk X).All (WithinLimits X) (w.onEngine X clock m).effects w.fs)
    (hL : (disk X).All L (w.onEngine X clock m).effects w.fs) :
    (w.onEngine X clock m).Kept X w w.reservedIds := by
  cases he : w.engine with
  | none =>
    simp only [World.onEngine, he]
    exact kept_idle h
  | some e =>
    have hrun := fsInv_run (L := L) h.fs (fun f hf => mem_idsOf hf) (hwp e he (h.engine e he))
    simp only [World.onEngine, he] at hlim hL ⊢
    generalize m.run ⟨e, clock⟩ w.fs = r at hrun hlim hL ⊢
    rcases r with ⟨res, ⟨e', clock'⟩, es⟩
    have hinv : (disk X).All (StoreEffect X w.reservedIds) es w.fs ∧
        FsInv X w.flights ((disk X).run es w.fs) ∧
        e'.Inv X w.reservedIds ((disk X).run es w.fs) := by
      cases res <;> exact hrun hlim hL
    have hworld : ∀ acked, WorldInv X ⟨(disk X).run es w.fs, some e', w.flights, acked⟩ :=
      fun _ => ⟨hinv.2.1, .inr hinv.2.2.store.synced.log, fun e he => by cases he; exact hinv.2.2,
        h.wf, h.nodup⟩
    cases res <;> exact ⟨hinv.1, hworld⟩

theorem wp_rely {S α : Type} {m : Exec X S α} {p : Process S} {fs : Fs}
    {ok : α → Process S → Fs → Prop} {error : EdgestoreError → Process S → Fs → Prop}
    {G L : Effect → Fs → Prop} (h : Prog.wp m ⟨ok, error, StoreRely X, G⟩ p fs) :
    Prog.wp m ⟨ok, error, fun e fs => StoreRely X e fs ∧ L e fs, G⟩ p fs :=
  Prog.wp_mono h (fun _ _ _ h => h) (fun _ _ _ h => h) (fun _ _ hr => hr.1) (fun _ _ _ hg => hg)

/-- A method of the engine that keeps its invariant and relies on nothing else. -/
theorem kept_onEngine_of_wp {α : Type} {m : Exec X Engine α} {clock : ℕ → ℕ} (h : WorldInv X w)
    (hwp : ∀ e, e.Inv X w.reservedIds w.fs → Prog.wp m
      ⟨fun _ q fs' => q.state.Inv X w.reservedIds fs', fun _ q fs' => q.state.Inv X w.reservedIds fs',
        StoreRely X, StoreEffect X w.reservedIds⟩ ⟨e, clock⟩ w.fs)
    (hlim : (disk X).All (WithinLimits X) (w.onEngine X clock m).effects w.fs) :
    (w.onEngine X clock m).Kept X w w.reservedIds :=
  kept_onEngine h (fun e _ he => wp_rely (hwp e he)) hlim Device.all_true

/-- A write. -/
theorem kept_write {α : Type} {m : Exec X Engine α} {clock : ℕ → ℕ} (h : WorldInv X w)
    (hf : Exec.Frame Effect.IsLog Engine.storePart m)
    (hlim : (disk X).All (WithinLimits X) (w.onEngine X clock m).effects w.fs) :
    (w.onEngine X clock m).Kept X w w.reservedIds :=
  kept_onEngine_of_wp h (fun _ he => Prog.wp_imp (he.wp_write hf) (fun _ _ _ hq => hq.1)
    (fun _ _ _ hq => hq.1)) hlim

theorem runTransaction_frame (ops : List TxOp) :
    Exec.Frame Effect.IsLog Engine.storePart (Engine.runTransaction (X := X) ops) :=
  .bind (.bind (.modify fun _ => rfl) fun _ => .bind .get fun _ => .pure _) fun _ =>
    .bind (.lift _) fun _ => Engine.commitTransaction_frame _

/-- Beginning a flush. -/
theorem kept_beginFlush {clock : ℕ → ℕ} (h : WorldInv X w)
    (hlim : (disk X).All (WithinLimits X) (w.perform X .beginFlush clock).effects w.fs) :
    (w.perform X .beginFlush clock).Kept X w w.reservedIds := by
  simp only [World.perform] at hlim ⊢
  cases he : w.engine with
  | none =>
    simp only [World.onEngine, he]
    exact kept_idle h
  | some e =>
    have hrun := fsInv_run (L := fun _ _ => True) h.fs (fun f hf => mem_idsOf hf)
      (wp_rely (Engine.wp_beginFlush (h.engine e he) :
        Prog.wp (Engine.beginFlush (X := X)) _ ⟨e, clock⟩ w.fs))
    simp only [World.onEngine, he] at hlim ⊢
    generalize (Engine.beginFlush (X := X)).run ⟨e, clock⟩ w.fs = r at hrun hlim ⊢
    rcases r with ⟨_ | work, ⟨e', clock'⟩, es⟩
    · exact (hrun hlim Device.all_true).2.2.elim
    · obtain ⟨hguar, hfs, hsame, hwork⟩ := hrun hlim Device.all_true
      refine ⟨hguar, fun acked => ?_⟩
      simp only at hfs hsame
      cases work with
      | none =>
        obtain ⟨-, rfl⟩ := hwork
        simp only [Option.map_none, Option.toList_none, List.append_nil, hsame]
        exact ⟨h.fs, h.log, fun _ he' => by cases he'; exact h.engine _ he, h.wf, h.nodup⟩
      | some work =>
        obtain ⟨hbegun, hinv, hnew⟩ := hwork
        simp only [Option.map_some, Option.toList_some, hsame]
        have hids : World.idsOf (w.flights ++ [⟨work, none⟩]) = w.reservedIds ++ [work.segmentId] := by
          simp [World.idsOf, World.reservedIds]
        refine ⟨⟨h.fs.disk, h.fs.clean, fun f hf => ?_⟩, h.log, fun e' he' => ?_, fun f hf => ?_, ?_⟩
        · rcases List.mem_append.mp hf with hf | hf
          · exact h.fs.held f hf
          · rw [List.mem_singleton.mp hf]
            exact ⟨(hinv.store.reserved _ List.mem_cons_self).2, fun m hm => (by cases hm)⟩
        · cases he'
          refine ⟨hinv.store.anti fun id hid => ?_, hinv.window⟩
          simp only [World.reservedIds, hids] at hid
          rcases List.mem_append.mp hid with hid | hid
          · exact List.mem_cons_of_mem _ hid
          · rw [List.mem_singleton.mp hid]
            exact List.mem_cons_self
        · rcases List.mem_append.mp hf with hf | hf
          · exact h.wf f hf
          · rw [List.mem_singleton.mp hf]
            exact hbegun.wf
        · simp only [World.reservedIds, hids]
          refine List.nodup_append.mpr ⟨h.nodup, List.nodup_singleton _, fun a ha b hb hab => ?_⟩
          exact hnew (List.mem_singleton.mp hb ▸ hab ▸ ha)

theorem flights_perm {flights : List Flight} {i : ℕ} {f : Flight} (h : flights[i]? = some f) :
    (f :: flights.eraseIdx i).Perm flights := by
  obtain ⟨hi, rfl⟩ := List.getElem?_eq_some_iff.mp h
  exact List.getElem_cons_eraseIdx_perm hi

theorem idsOf_perm {flights flights' : List Flight} (h : flights.Perm flights') :
    (World.idsOf flights).Perm (World.idsOf flights') := h.map _

theorem flights_set_perm {flights : List Flight} {i : ℕ} {f : Flight} (h : flights[i]? = some f)
    (f' : Flight) : (flights.set i f').Perm (f' :: flights.eraseIdx i) := by
  obtain ⟨hi, -⟩ := List.getElem?_eq_some_iff.mp h
  exact List.set_perm_cons_eraseIdx hi f'

theorem FlightsHeld.anti {flights flights' : List Flight} {fs : Fs} (h : FlightsHeld X flights fs)
    (hsub : ∀ f ∈ flights', f ∈ flights) : FlightsHeld X flights' fs := fun f hf => h f (hsub f hf)

theorem FsInv.anti {flights flights' : List Flight} {fs : Fs} (h : FsInv X flights fs)
    (hsub : ∀ f ∈ flights', f ∈ flights) : FsInv X flights' fs :=
  ⟨h.disk, h.clean, h.held.anti hsub⟩

/-- The invariant without a flight. -/
theorem WorldInv.eraseIdx {i : ℕ} (h : WorldInv X w) :
    WorldInv X { w with flights := w.flights.eraseIdx i } := by
  have hsub : ∀ f ∈ w.flights.eraseIdx i, f ∈ w.flights := fun f hf => List.mem_of_mem_eraseIdx hf
  refine ⟨h.fs.anti hsub, h.log, fun e he => ⟨(h.engine e he).store.anti ?_, (h.engine e he).window⟩,
    fun f hf => h.wf f (hsub f hf), h.nodup.sublist ((List.eraseIdx_sublist _ _).map _)⟩
  intro id hid
  obtain ⟨f, hf, rfl⟩ := List.mem_map.mp hid
  exact mem_idsOf (hsub f hf)

theorem flight_not_mem_others {i : ℕ} {f : Flight} (h : WorldInv X w) (hf : w.flights[i]? = some f) :
    f.work.segmentId ∉ World.idsOf (w.flights.eraseIdx i) := by
  have hnodup : (World.idsOf (f :: w.flights.eraseIdx i)).Nodup :=
    (idsOf_perm (flights_perm hf)).nodup_iff.mpr h.nodup
  exact (List.nodup_cons.mp hnodup).1

/-- Writing the files of a flush. -/
theorem kept_execute {i : ℕ} {clock : ℕ → ℕ} (h : WorldInv X w)
    (hlim : (disk X).All (WithinLimits X) (w.perform X (.execute i) clock).effects w.fs) :
    (w.perform X (.execute i) clock).Kept X w (World.idsOf (w.flights.eraseIdx i)) := by
  simp only [World.perform, World.executeFlight] at hlim ⊢
  cases hf : w.flights[i]? with
  | none => exact kept_idle h
  | some f =>
    have hmem : f ∈ w.flights := List.mem_of_getElem? hf
    have hnew := (h.fs.held f hmem).1
    have hrest := h.eraseIdx (i := i)
    have hrun := fsInv_run (L := fun _ _ => True) hrest.fs (fun f hf => mem_idsOf hf)
      (wp_rely (wp_segmentFlush_new (h.wf f hmem).sorted hnew (flight_not_mem_others h hf) :
        Prog.wp (segmentFlush (X := X) (σ := Unit) f.work.segmentId f.work.cohortWindowSecs
          f.work.entries) _ ⟨(), clock⟩ w.fs))
    simp only [hf, FlushWork.execute] at hlim ⊢
    generalize (segmentFlush (X := X) (σ := Unit) f.work.segmentId f.work.cohortWindowSecs
      f.work.entries).run ⟨(), clock⟩ w.fs = r at hrun hlim ⊢
    rcases r with ⟨_ | m, p, es⟩
    · obtain ⟨-, -, ⟨-, hnil | hzero⟩, -⟩ := hrun hlim Device.all_true
      · exact absurd hnil (h.wf f hmem).ne_nil
      · exact absurd hzero (h.wf f hmem).window
    · obtain ⟨hguar, hfs, ⟨-, hflushed⟩, hout⟩ := hrun hlim Device.all_true
      refine ⟨hguar, fun acked => ?_⟩
      have hperm := flights_set_perm hf { f with written := some m }
      have hids : (World.idsOf (w.flights.set i { f with written := some m })).Perm w.reservedIds :=
        (idsOf_perm hperm).trans (idsOf_perm (flights_perm hf) :
          (World.idsOf (f :: w.flights.eraseIdx i)).Perm w.reservedIds)
      refine ⟨⟨hfs.disk, hfs.clean, fun g hg => ?_⟩, ?_, fun e he => ?_, fun g hg => ?_, ?_⟩
      · rcases List.mem_cons.mp (hperm.mem_iff.mp hg) with rfl | hg
        · refine ⟨by rwa [hout.registeredIds_eq], fun m' hm' => ?_⟩
          cases hm'
          exact hflushed
        · exact hfs.held g hg
      · rcases h.log with hnone | ⟨xs, hlog⟩
        · exact .inl (hout.manifest.trans hnone)
        · exact .inr ⟨xs, hlog.congr hout.manifest⟩
      · have hinv := h.engine e he
        exact ⟨(hinv.store.anti fun id hid => hids.mem_iff.mp hid).outside hout hnew, hinv.window⟩
      · rcases List.mem_cons.mp (hperm.mem_iff.mp hg) with rfl | hg
        · exact h.wf f hmem
        · exact hrest.wf g hg
      · exact hids.nodup_iff.mpr h.nodup

/-- Finishing a flush. -/
theorem kept_finalizeFlush {i : ℕ} {clock : ℕ → ℕ} (h : WorldInv X w)
    (hlim : (disk X).All (WithinLimits X) (w.perform X (.finalizeFlush i) clock).effects w.fs) :
    (w.perform X (.finalizeFlush i) clock).Kept X w (World.idsOf (w.flights.eraseIdx i)) := by
  cases he : w.engine with
  | none =>
    simp only [World.perform, he]
    exact kept_idle h
  | some e =>
    cases hf : w.flights[i]? with
    | none =>
      simp only [World.perform, he, hf]
      exact kept_idle h
    | some f =>
      obtain ⟨work, written⟩ := f
      cases written with
      | none =>
        simp only [World.perform, he, hf]
        exact kept_idle h
      | some m =>
        have hmem := List.mem_of_getElem? hf
        obtain ⟨hnew, hwritten⟩ := h.fs.held _ hmem
        have hrest := h.eraseIdx (i := i)
        have hinv := hrest.engine e he
        have hlt := ((h.engine e he).store.reserved _ (mem_idsOf hmem)).1
        have hrun := fsInv_run (L := fun _ _ => True) hrest.fs (fun f hf => mem_idsOf hf)
          (wp_rely (Engine.wp_finalizeFlush hinv (hwritten m rfl) hnew
            (flight_not_mem_others h hf) hlt :
            Prog.wp (Engine.finalizeFlush (X := X) m work.flushedMaxLsn) _ ⟨e, clock⟩ w.fs))
        simp only [World.perform, he, hf, World.onEngine] at hlim ⊢
        generalize (Engine.finalizeFlush (X := X) m work.flushedMaxLsn).run ⟨e, clock⟩ w.fs = r
          at hrun hlim ⊢
        rcases r with ⟨_ | _, ⟨e', clock'⟩, es⟩
        · exact (hrun hlim Device.all_true).2.2.elim
        · obtain ⟨hguar, hfs, hinv', -⟩ := hrun hlim Device.all_true
          exact ⟨hguar, fun acked => ⟨hfs, .inr hinv'.store.synced.log,
            fun e he => by cases he; exact hinv', hrest.wf, hrest.nodup⟩⟩

/-- Opening an engine. -/
theorem kept_open {config : EdgestoreConfig} {clock : ℕ → ℕ} (h : WorldInv X w)
    (hw : asI64 config.cohortWindowSecs ≠ 0) (hc : Covered X w.reservedIds w.fs)
    (hlim : (disk X).All (WithinLimits X) (w.perform X (.open config) clock).effects w.fs) :
    (w.perform X (.open config) clock).Kept X w w.reservedIds := by
  cases he : w.engine with
  | some e =>
    simp only [World.perform, he]
    exact kept_idle h
  | none =>
    have hrun := fsInv_run (L := fun _ _ => True) h.fs (fun f hf => mem_idsOf hf)
      (wp_rely (Engine.wp_open (X := X) (σ := Unit) (p := ⟨(), clock⟩) h.fs.disk h.log hc hw))
    simp only [World.perform, he] at hlim ⊢
    generalize (Engine.open (X := X) (σ := Unit) config).run ⟨(), clock⟩ w.fs = r at hrun hlim ⊢
    rcases r with ⟨_ | e, p, es⟩
    · obtain ⟨hguar, hfs, hsame⟩ := hrun hlim Device.all_true
      refine ⟨hguar, fun acked => ⟨hfs, ?_, fun e he => (by cases he), h.wf, h.nodup⟩⟩
      rcases h.log with hnone | ⟨xs, hlog⟩
      · exact .inl (hsame.manifest.trans hnone)
      · exact .inr ⟨xs, hlog.congr hsame.manifest⟩
    · obtain ⟨hguar, hfs, hinv, -⟩ := hrun hlim Device.all_true
      exact ⟨hguar, fun acked => ⟨hfs, .inr hinv.store.synced.log,
        fun e he => by cases he; exact hinv, h.wf, h.nodup⟩⟩

/-- Closing an engine. -/
theorem kept_close {clock : ℕ → ℕ} (h : WorldInv X w)
    (hlim : (disk X).All (WithinLimits X) (w.perform X .close clock).effects w.fs) :
    (w.perform X .close clock).Kept X w w.reservedIds := by
  obtain ⟨hguar, hinv⟩ := kept_write h Engine.flush_frame hlim
  refine ⟨hguar, fun acked => ?_⟩
  have hw := hinv acked
  have hflights : (w.perform X .close clock).flights = w.flights := by
    simp only [World.perform, World.onEngine]
    split
    · rfl
    · split <;> rfl
  exact ⟨hw.fs, hw.log, fun e he => (by cases he), hw.wf, hw.nodup⟩

/-- **Every admitted call** keeps the discipline and the invariant. -/
theorem WorldInv.kept (h : WorldInv X w) (hc : w.Admitted X c) :
    (w.perform X c.op c.clock).Kept X w (w.others c.op) := by
  obtain ⟨op, clock, stop⟩ := c
  obtain ⟨hstop, hlim, hwindow, hids⟩ := hc
  simp only at hstop
  subst hstop
  simp only [World.EffectsMeet, World.effects] at hlim
  cases op with
  | «open» config => exact kept_open h hwindow hids hlim
  | close => exact kept_close h hlim
  | put ns key val =>
    exact kept_onEngine_of_wp h (fun e he => Prog.wp_imp he.wp_put (fun _ _ _ hq => hq.1)
      fun _ _ _ hq => hq.1) hlim
  | putWithTtl ns key val ttl => exact kept_write h (Engine.putWithTtl_frame _ _ _ _) hlim
  | delete ns key => exact kept_write h (Engine.delete_frame _ _) hlim
  | commit ops => exact kept_write h (runTransaction_frame _) hlim
  | flush => exact kept_write h Engine.flush_frame hlim
  | flushToSegments =>
    refine kept_onEngine_of_wp h (fun e he => ?_) hlim
    refine Prog.wp_imp (Engine.wp_flushToSegments he) (fun _ _ _ hq => hq.1) ?_
    rintro _ q fs' ⟨-, hq, hfs⟩
    rw [hq, hfs]
    exact he
  | beginFlush => exact kept_beginFlush h hlim
  | execute i => exact kept_execute h hlim
  | finalizeFlush i => exact kept_finalizeFlush h hlim
  | abandon i =>
    have hrest := h.eraseIdx (i := i)
    exact ⟨trivial, fun _ => ⟨hrest.fs, hrest.log, hrest.engine, hrest.wf, hrest.nodup⟩⟩
  | compactOnce order =>
    refine kept_onEngine (L := KeepsCover X w.reservedIds) h (fun e _ he => ?_) hlim hids.2
    exact Prog.wp_imp (Engine.wp_compactOnce he hids.1) (fun _ _ _ hq => hq.1)
      (fun _ _ _ he => he.elim)
  | stripTextIndex id =>
    refine kept_onEngine_of_wp h (fun e he => ?_) hlim
    refine Prog.wp_imp (Engine.wp_stripIndex textIndex_flags he) (fun _ _ _ hq => hq.1) ?_
    rintro _ q fs' ⟨hq, hfs⟩
    rw [hq, hfs]
    exact he
  | stripVectorIndex id =>
    refine kept_onEngine_of_wp h (fun e he => ?_) hlim
    refine Prog.wp_imp (Engine.wp_stripIndex vectorIndex_flags he) (fun _ _ _ hq => hq.1) ?_
    rintro _ q fs' ⟨hq, hfs⟩
    rw [hq, hfs]
    exact he
  | importSegment dat size hash =>
    exact kept_onEngine_of_wp h (fun e he => Prog.wp_imp he.wp_importSegment (fun _ _ _ hq => hq.1)
      fun _ _ _ hq => hq.1) hlim
  | snapshot =>
    refine kept_onEngine_of_wp h (fun e he => ?_) hlim
    simp only [Engine.snapshot, Prog.wp_bind, Exec.wp_get, Exec.wp_modify, Prog.wp_pure]
    exact ⟨he.store, he.window⟩
  | dropSnapshot id =>
    refine kept_onEngine_of_wp h (fun e he => ?_) hlim
    simp only [Engine.dropSnapshot, Exec.wp_modify]
    exact ⟨he.store, he.window⟩

/-- **Admitted calls keep the invariant.** -/
theorem WorldInv.step (h : WorldInv X w) (hc : w.Admitted X c) : WorldInv X (w.step X c) := by
  have hkept := h.kept hc
  obtain ⟨op, clock, stop⟩ := c
  obtain rfl : stop = none := hc.stop
  exact hkept.inv _

/-- The effects of an admitted call keep the discipline of the store. -/
theorem WorldInv.all_storeEffect (h : WorldInv X w) (hc : w.Admitted X c) :
    (disk X).All (StoreEffect X (w.others c.op)) (w.effects X c) w.fs := (h.kept hc).guar

theorem fs_step (hc : c.stop = none) : (w.step X c).fs = (disk X).run (w.effects X c) w.fs := by
  obtain ⟨op, clock, stop⟩ := c
  obtain rfl : stop = none := hc
  rfl

theorem effectsMeet_iff {L : Effect → Fs → Prop} (hc : c.stop = none) :
    w.EffectsMeet X L c ↔ (disk X).All L (w.effects X c) w.fs := by
  obtain ⟨op, clock, stop⟩ := c
  obtain rfl : stop = none := hc
  rfl

/-- Effects that keep the discipline of the store append to a manifest that ends at the end of a
frame. -/
theorem all_clean_of_storeEffect {R : List SegmentId} {es : List Effect} {fs : Fs}
    (h : (disk X).All (StoreEffect X R) es fs) (hclean : ManifestClean X fs) :
    (disk X).All (fun e fs => StoreEffect X R e fs ∧ AppendsClean X e fs) es fs := by
  have happends : ∀ e fs, ManifestClean X fs → AppendsClean X e fs := by
    intro e fs hfs
    cases e <;> trivial
  exact h.with_inv (I := ManifestClean X)
    (fun e fs he hfs => ⟨⟨he, happends e fs hfs⟩, manifestClean_apply hfs he (happends e fs hfs)⟩) hclean

/-- The effects of an admitted call keep the discipline of the store, on a manifest that ends at the
end of a frame. -/
theorem WorldInv.all_clean (h : WorldInv X w) (hc : w.Admitted X c) :
    (disk X).All (fun e fs => StoreEffect X (w.others c.op) e fs ∧ AppendsClean X e fs)
      (w.effects X c) w.fs := all_clean_of_storeEffect (h.all_storeEffect hc) h.fs.clean

/-- The effects of an admitted call meet what the store relies on. -/
theorem WorldInv.all_storeRely (h : WorldInv X w) (hc : w.Admitted X c) :
    (disk X).All (StoreRely X) (w.effects X c) w.fs :=
  Device.all_and.mpr ⟨(effectsMeet_iff hc.stop).mp hc.limits,
    (h.all_clean hc).mono fun _ _ hclean => hclean.2⟩

/-- Those of an admitted compaction meet what a compaction relies on. -/
theorem WorldInv.all_compactRely {order : HashOrder} {clock : ℕ → ℕ} (h : WorldInv X w)
    (hc : w.Admitted X ⟨.compactOnce order, clock, none⟩) :
    (disk X).All (CompactRely X w.reservedIds) (w.effects X ⟨.compactOnce order, clock, none⟩) w.fs := by
  obtain ⟨-, hkeeps⟩ : Covered X w.reservedIds w.fs ∧
    w.EffectsMeet X (KeepsCover X w.reservedIds) ⟨.compactOnce order, clock, none⟩ := hc.ids
  exact Device.all_and.mpr ⟨h.all_storeRely hc, (effectsMeet_iff rfl).mp hkeeps⟩

theorem worldInv_empty : WorldInv X {} := by
  have hids : registeredIds X {} = [] := by rw [registeredIds, registered_none rfl]; rfl
  refine ⟨⟨⟨?_, ?_⟩, rfl, ?_⟩, .inl rfl, fun e he => (by cases he), ?_, List.nodup_nil⟩
  · rw [hids]
    exact List.nodup_nil
  · rw [hids]
    simp
  · rintro f ⟨⟩
  · rintro f ⟨⟩

/-- The invariant holds after every admitted run. -/
theorem worldInv_run {calls : List Call} (h : Run.All (World.step X) (World.Admitted X) {} calls) :
    WorldInv X (Run.from (World.step X) {} calls) :=
  h.invariant (fun _ _ hw hc => hw.step hc) worldInv_empty
