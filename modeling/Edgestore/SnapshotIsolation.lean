import Edgestore.Prune
import Edgestore.Snapshot
import Edgestore.PointReads
import Edgestore.Compactor.Survival

/-!
# Snapshot isolation

Later calls leave the files of a snapshot alone: writes, flushes and imports only add segments, and
compactions pass over pinned ones. Strips and prunes do not ask for pins. A snapshot captures the
segments and not the memtable.

## Main definitions

* `World.Spares X s w c`: a call that leaves the files of a snapshot alone
* `World.Holds X s fs₀ w`: the files of a snapshot are as they were in `fs₀`
* `Snapshot.Shows X s fs' e fs`: a snapshot returns what an engine returned, for keys and for ranges

## Main results

* `World.Holds.localStep`: what a call leaves of a snapshot
* `World.snapshot_isolated`: snapshots of engines whose writes are all in segments are isolated from calls
  that spare them
-/

variable {X : Externals} {σ T : Type}

/-! ### What removes no segment -/

/-- Not the removal of a segment from the manifest. -/
def Effect.RemovesNone : Effect → Prop
  | .manifestAppend _ ⟨.remove, _, _⟩ => False
  | _ => True

theorem removedIn_eq_nil {es : List Effect} (h : ∀ f ∈ es, f.RemovesNone) : removedIn es = [] := by
  refine List.filterMap_eq_nil_iff.mpr fun f hf => ?_
  have hnone := h f hf
  cases f with
  | manifestAppend pos e =>
    obtain ⟨_ | _, id, m⟩ := e
    · rfl
    · exact hnone.elim
  | _ => rfl

theorem Effect.IsLog.removesNone {f : Effect} (h : f.IsLog) : f.RemovesNone := by
  cases f with
  | manifestAppend pos e => exact h.elim
  | _ => trivial

theorem Effect.IsUnlink.removesNone {f : Effect} (h : f.IsUnlink) : f.RemovesNone := by
  cases f with
  | manifestAppend pos e => exact h.elim
  | _ => trivial

theorem segmentFlush_removesNone (id : SegmentId) (window : ℕ) (entries : List (Bytes × MemEntry))
    (g : σ → T) : Exec.Frame Effect.RemovesNone g (segmentFlush (X := X) id window entries) := by
  unfold segmentFlush
  split
  · exact .throw _
  · exact .bind (.effect trivial) fun _ => .bind (.effect trivial) fun _ =>
      .bind (.effect trivial) fun _ => .bind (.effect trivial) fun _ =>
      .bind (.effect trivial) fun _ => .bind (.effect trivial) fun _ =>
      .bind (.lift _) fun _ => .bind .now fun _ => .bind (.effect trivial) fun _ => .pure _

theorem Manifest.addSegment_removesNone (m : SegmentMeta) :
    Exec.Frame Effect.RemovesNone (fun _ => ()) (Manifest.addSegment (X := X) m) :=
  .bind (.ite (fun _ => .throw _) fun _ => .bind .get fun _ => .bind (.effect trivial) fun _ =>
    .modify fun _ => rfl) fun _ => .bind (.effect trivial) fun _ => .modify fun _ => rfl

namespace Engine

variable {α : Type} {P : Effect → Prop} {m : Exec X Engine α}

theorem registry_of_storePart (h : Exec.Frame P storePart m) : Exec.Frame P snapshotRegistry m :=
  Prog.Frame.comp h fun part => part.2.2

theorem registry_of_walPart (h : Exec.Frame P walPart m) : Exec.Frame P snapshotRegistry m :=
  Prog.Frame.comp h fun part => part.2.2.2.2.2

theorem registry_of_log (h : Exec.Frame Effect.IsLog storePart m) :
    Exec.Frame Effect.RemovesNone snapshotRegistry m :=
  (registry_of_storePart h).mono fun _ hf => hf.removesNone

theorem finalizeFlush_removesNone (sm : SegmentMeta) (flushed : Lsn) :
    Exec.Frame Effect.RemovesNone snapshotRegistry (finalizeFlush (X := X) sm flushed) := by
  have hstore : Exec.Frame Effect.RemovesNone (fun _ => ()) (SegmentStore.finalizeSegment (X := X) sm) :=
    .bind (.zoom (Manifest.addSegment_removesNone sm) fun _ _ _ => rfl) fun _ => .bind .fs fun _ =>
      .bind (.lift _) fun _ => .modify fun _ => rfl
  exact .bind (registry_of_walPart (onStore_frame hstore)) fun _ =>
    .bind (.modify fun _ => rfl) fun _ => (retireWals_frame _).mono fun _ hf => hf.removesNone

theorem beginFlush_removesNone :
    Exec.Frame Effect.RemovesNone snapshotRegistry (beginFlush (X := X)) :=
  registry_of_walPart (beginFlush_frame _)

theorem flushToSegments_removesNone :
    Exec.Frame Effect.RemovesNone snapshotRegistry (flushToSegments (X := X)) := by
  refine .bind beginFlush_removesNone fun work => ?_
  cases work with
  | none => exact .throw _
  | some w =>
    exact .bind (segmentFlush_removesNone _ _ _ _) fun _ =>
      .bind (finalizeFlush_removesNone _ _) fun _ => .pure _

theorem put_removesNone (ns key val : Bytes) :
    Exec.Frame Effect.RemovesNone snapshotRegistry (put (X := X) ns key val) :=
  .bind (registry_of_log (checkPut_frame ns)) fun _ =>
    .bind (registry_of_log (writeEntry_frame ns key val 0)) fun _ => .bind .get fun _ =>
    .ite (fun _ => .bind flushToSegments_removesNone fun _ => .pure _) fun _ => .pure _

theorem importSegment_removesNone (dat : Dat) (size : ℕ) (hash : Bytes) :
    Exec.Frame Effect.RemovesNone snapshotRegistry (importSegment (X := X) dat size hash) := by
  have hstore : ∀ sm r, Exec.Frame Effect.RemovesNone (fun _ => ())
      (SegmentStore.addImportedSegment (X := X) sm r) := fun sm r =>
    .bind (.zoom (Manifest.addSegment_removesNone sm) fun _ _ _ => rfl) fun _ => .modify fun _ => rfl
  have hsidecars : ∀ id g sm, Exec.Frame Effect.RemovesNone snapshotRegistry
      (writeSidecars (X := X) id g sm) := fun _ _ _ =>
    .bind (.effect trivial) fun _ => .bind (.effect trivial) fun _ => .bind (.effect trivial) fun _ =>
      .bind (.effect trivial) fun _ => .bind (.effect trivial) fun _ => .effect trivial
  refine .bind .get fun _ => .ite (fun _ => .pure _) fun _ => .ite (fun _ => .pure _) fun _ =>
    .bind (.effect trivial) fun _ => .bind (.effect trivial) fun _ => ?_
  split
  · exact .pure _
  · exact .pure _
  · exact .bind (.foldlM (fun _ _ => registry_of_log (importEntry_frame _ _)) _ _) fun _ =>
      .bind (registry_of_walPart (onStore_frame (SegmentStore.allocSegmentId_frame _))) fun _ =>
      .bind (.effect trivial) fun _ => .bind (registry_of_log flush_frame) fun _ => .bind .now fun _ =>
      .bind (hsidecars _ _ _) fun _ => .bind .fs fun _ => .bind (.lift _) fun _ =>
      .bind (registry_of_walPart (onStore_frame (hstore _ _))) fun _ => .pure _

end Engine

/-! ### Compactions and strips -/

/-- A compaction leaves what is not in a cohort that it may touch: pinned segments. -/
theorem CohortStep.keeps_pinned {c : Compactor} {now : ℤ} {pinned : List SegmentId}
    {cohort : CohortInfo} {fs fs' : Fs} (h : CohortStep X c now pinned cohort fs fs') {id : SegmentId}
    (hpin : id ∈ pinned) (hid : id ∈ registeredIds X fs) :
    id ∈ registeredIds X fs' ∧ fs'.segs id = fs.segs id := by
  cases h with
  | skip => exact ⟨hid, rfl⟩
  | drop free dead h =>
    have hout : id ∉ cohort.segmentIds := fun hc => free id hc hpin
    refine ⟨?_, h.segs id hout⟩
    rw [registeredIds_of_dropped h]
    exact List.mem_filter.mpr ⟨hid, by simpa using hout⟩
  | @rewrite _ m free h =>
    have hout : id ∉ cohort.segmentIds := fun hc => free id hc hpin
    have hne : id ≠ m.segmentId := fun heq => h.fresh (heq ▸ hid)
    refine ⟨?_, h.segs id hout hne⟩
    rw [registeredIds_of_rewritten h]
    exact List.mem_filter.mpr ⟨List.mem_append_left _ hid, by simpa using hout⟩

theorem CohortSteps.keeps_pinned {c : Compactor} {now : ℤ} {pinned : List SegmentId}
    {cohorts : List CohortInfo} {fs fs' : Fs} (h : CohortSteps X c now pinned cohorts fs fs')
    {id : SegmentId} (hpin : id ∈ pinned) (hid : id ∈ registeredIds X fs) :
    id ∈ registeredIds X fs' ∧ fs'.segs id = fs.segs id := by
  induction h with
  | nil => exact ⟨hid, rfl⟩
  | cons head _ _ ih =>
    obtain ⟨hid₁, hsegs₁⟩ := head.keeps_pinned hpin hid
    obtain ⟨hid₂, hsegs₂⟩ := ih hid₁
    exact ⟨hid₂, hsegs₂.trans hsegs₁⟩

/-! ### What a call leaves of a snapshot -/

/-- A call leaves a snapshot alone: the engine stays open, the snapshot is not dropped, and its segments
are neither pruned nor rewritten by a strip. -/
def World.Spares (X : Externals) (s : Snapshot) (w : World) (c : LocalCall) : Prop :=
  match c.op with
  | .op .close => False
  | .op (.dropSnapshot sid) => sid ≠ s.snapshotId
  | .op (.stripTextIndex id) => id ∈ s.segmentIds → ¬ textIndex.Rewrites X id w.fs
  | .op (.stripVectorIndex id) => id ∈ s.segmentIds → ¬ vectorIndex.Rewrites X id w.fs
  | .prune id => id ∉ s.segmentIds
  | _ => True

instance (X : Externals) (s : Snapshot) (w : World) (c : LocalCall) : Decidable (w.Spares X s c) := by
  obtain ⟨op, clock⟩ := c
  unfold World.Spares
  obtain op | id := op
  · rcases op <;> infer_instance
  · infer_instance

/-- An engine has pinned the segments of a snapshot. -/
def Engine.Pins (e : Engine) (s : Snapshot) : Prop :=
  (s.snapshotId, s.segmentIds) ∈ e.snapshotRegistry.pinned

/-- Registered segments of a snapshot stay as they are. -/
def Snapshot.Stays (X : Externals) (s : Snapshot) (fs fs' : Fs) : Prop :=
  ∀ id ∈ s.segmentIds, id ∈ registeredIds X fs → id ∈ registeredIds X fs' ∧ fs'.segs id = fs.segs id

/-- An outcome leaves a pinned snapshot alone: its pin, and its segments. -/
def Outcome.Holds (X : Externals) (s : Snapshot) (w : World) (o : Outcome) : Prop :=
  ∀ e, w.engine = some e → e.Pins s →
    (∃ e', o.engine = some e' ∧ e'.Pins s) ∧ s.Stays X w.fs ((disk X).run o.effects w.fs)

/-- The segments of a snapshot are pinned and registered, and their files are those of `fs₀`. -/
structure World.Holds (X : Externals) (s : Snapshot) (fs₀ : Fs) (w : World) : Prop where
  pinned : ∃ e, w.engine = some e ∧ e.Pins s
  registered : ∀ id ∈ s.segmentIds, id ∈ registeredIds X w.fs
  files : ∀ id ∈ s.segmentIds, w.fs.segs id = fs₀.segs id

/-- A snapshot returns in the directory `fs'` what the engine returns in `fs`. A range is one whose bounds
are in order: with others, an engine that has entries in its memtable does not answer. -/
structure Snapshot.Shows (X : Externals) (s : Snapshot) (fs' : Fs) (e : Engine) (fs : Fs) : Prop where
  get : ∀ ns key, s.get X fs' ns key = e.get X fs ns key
  range : ∀ ns start «end», start ≤ «end» → s.range fs' ns start «end» = e.range fs ns start «end»

theorem Snapshot.Stays.refl {s : Snapshot} {fs : Fs} : s.Stays X fs fs := fun _ _ hid => ⟨hid, rfl⟩

/-- Effects that remove no segment leave the segments of a snapshot. -/
theorem Snapshot.stays_of_removesNone {R : List SegmentId} {s : Snapshot} {fs : Fs} {es : List Effect}
    (hclean : (disk X).All (fun f d => StoreEffect X R f d ∧ AppendsClean X f d) es fs)
    (hnone : ∀ f ∈ es, f.RemovesNone) : s.Stays X fs ((disk X).run es fs) :=
  fun _ _ hid => registered_of_not_removed hclean hid (by rw [removedIn_eq_nil hnone]; simp)

namespace World

variable {w : World} {s : Snapshot} {fs₀ : Fs} {clock : ℕ → ℕ} {α : Type}

theorem holds_onEngine {R : List SegmentId} {m : Exec X Engine α} {land : α → List Flight}
    (hclean : (disk X).All (fun f d => StoreEffect X R f d ∧ AppendsClean X f d)
      (w.onEngine X clock m land).effects w.fs)
    (hm : Exec.Frame Effect.RemovesNone Engine.snapshotRegistry m) :
    (w.onEngine X clock m land).Holds X s w := by
  intro e he hpin
  obtain ⟨heffects, hengine, -⟩ :
      (w.onEngine X clock m land).effects = (m.run ⟨e, clock⟩ w.fs).2.2 ∧
        (w.onEngine X clock m land).engine = some (m.run ⟨e, clock⟩ w.fs).2.1.state ∧
        (w.onEngine X clock m land).ok = (m.run ⟨e, clock⟩ w.fs).1.isOk := onEngine_some he
  obtain ⟨hnone, hregistry⟩ := hm ⟨e, clock⟩ w.fs
  refine ⟨⟨_, hengine, ?_⟩, Snapshot.stays_of_removesNone hclean (heffects ▸ hnone)⟩
  have hregistry' : (m.run ⟨e, clock⟩ w.fs).2.1.state.snapshotRegistry = e.snapshotRegistry := hregistry
  rw [Engine.Pins, hregistry']
  exact hpin

theorem holds_onEngine_of_wp {m : Exec X Engine α} {rely : Effect → Fs → Prop}
    (hrely : (disk X).All rely (w.onEngine X clock m).effects w.fs)
    (hwp : ∀ e, w.engine = some e → e.Pins s → Prog.wp m
      ⟨fun _ q fs' => q.state.Pins s ∧ s.Stays X w.fs fs',
        fun _ q fs' => q.state.Pins s ∧ s.Stays X w.fs fs', rely, StoreEffect X w.reservedIds⟩
      ⟨e, clock⟩ w.fs) :
    (w.onEngine X clock m).Holds X s w := by
  intro e he hpin
  obtain ⟨q, hq, ⟨-, -, hpin', hstays⟩ | ⟨-, -, hpin', hstays⟩⟩ :=
    onEngine_outcome he hrely (hwp e he hpin)
  · exact ⟨⟨_, hq, hpin'⟩, hstays⟩
  · exact ⟨⟨_, hq, hpin'⟩, hstays⟩

/-- A strip leaves a snapshot alone, unless it rewrites a segment of it. -/
theorem holds_strip {kind : IndexKind} (hk : kind.Flags) {id : SegmentId} (h : WorldInv X w)
    (hrely : (disk X).All (StoreRely X) (w.onEngine X clock (Engine.stripIndex kind id)).effects w.fs)
    (hs : id ∈ s.segmentIds → ¬ kind.Rewrites X id w.fs) :
    (w.onEngine X clock (Engine.stripIndex kind id)).Holds X s w := by
  refine holds_onEngine_of_wp hrely fun e he hpin => ?_
  by_cases hid : id ∈ s.segmentIds
  case pos =>
    refine Prog.wp_mono (Engine.wp_stripIndex_idle (h.engine e he) (hs hid)) ?_ ?_
      (fun _ _ _ => trivial) fun _ _ _ he => he.elim
    · rintro _ q fs' ⟨-, hq, rfl⟩
      exact ⟨hq ▸ hpin, .refl⟩
    · rintro _ q fs' ⟨hq, rfl⟩
      exact ⟨hq ▸ hpin, .refl⟩
  case neg =>
    refine Prog.wp_imp (Engine.wp_stripIndex hk (h.engine e he)) ?_ ?_
    · rintro _ q fs' ⟨-, hstripped, hq⟩
      refine ⟨by rw [hq]; exact hpin, fun j hj hreg => ?_⟩
      have hne : j ≠ id := fun heq => hid (heq ▸ hj)
      rcases hstripped with hsame | ⟨m, -, hfresh, hregistered, -, hsegs⟩
      · exact ⟨hsame.registeredIds_eq ▸ hreg, by rw [hsame.segs]⟩
      · refine ⟨?_, hsegs j hne fun heq => hfresh (heq ▸ hreg)⟩
        obtain ⟨m', hm', rfl⟩ := List.mem_map.mp hreg
        refine List.mem_map_of_mem ?_
        rw [hregistered]
        exact List.mem_append_left _ (List.mem_filter.mpr ⟨hm', by simpa using hne⟩)
    · rintro _ q fs' ⟨hq, rfl⟩
      exact ⟨hq ▸ hpin, .refl⟩

/-- A prune of another segment leaves a snapshot alone. -/
theorem holds_prune {id : SegmentId} (h : WorldInv X w) (hid : id < 2 ^ 64) (hR : id ∉ w.reservedIds)
    (hs : id ∉ s.segmentIds) : (w.onEngine X clock (Engine.pruneLocalSegment id)).Holds X s w := by
  have hrely : (disk X).All (StoreRely X) (w.onEngine X clock (Engine.pruneLocalSegment id)).effects w.fs :=
    Device.all_and.mpr ⟨all_removes.mono fun _ d hf => hf.withinLimits d,
      (all_clean_of_storeEffect (kept_prune h hid hR).guar h.fs.clean).mono fun _ _ hf => hf.2⟩
  refine holds_onEngine_of_wp hrely fun e he hpin => ?_
  refine Prog.wp_imp (Engine.wp_pruneLocalSegment (h.engine e he) hid hR) ?_ fun _ _ _ hq => hq.elim
  rintro _ q fs' ⟨-, hpruned, hq⟩
  refine ⟨by rw [hq]; exact hpin, fun j hj hreg => ?_⟩
  have hne : j ≠ id := fun heq => hs (heq ▸ hj)
  refine ⟨?_, hpruned.segs j hne⟩
  obtain ⟨m, hm, rfl⟩ := List.mem_map.mp hreg
  refine List.mem_map_of_mem ?_
  rw [hpruned.registered]
  exact List.mem_filter.mpr ⟨hm, by simpa using hne⟩

/-- A compaction passes over pinned segments. -/
theorem holds_compactOnce {order : HashOrder} (h : WorldInv X w)
    (hc : w.Admitted X ⟨.compactOnce order, clock, none⟩) :
    (w.perform X (.compactOnce order) clock).Holds X s w := by
  refine holds_onEngine_of_wp (h.all_compactRely hc) fun e he hpin => ?_
  refine Prog.wp_imp (Engine.wp_compactOnce (h.engine e he) hc.ids.1) ?_ fun _ _ _ hq => hq.elim
  rintro _ q fs' ⟨-, hq, _, hruns⟩
  refine ⟨by rw [hq]; exact hpin, fun id hid hreg => hruns.steps.keeps_pinned ?_ hreg⟩
  exact List.mem_flatMap.mpr ⟨_, hpin, hid⟩

theorem holds_idle (ok : Bool) : (w.idle ok).Holds X s w := fun e he hpin => ⟨⟨e, he, hpin⟩, .refl⟩

/-- The files of a flight are written beside the segments of a snapshot. -/
theorem holds_execute {i : ℕ} (h : WorldInv X w) (hc : w.Admitted X ⟨.execute i, clock, none⟩) :
    (w.perform X (.execute i) clock).Holds X s w := by
  have hclean := h.all_clean hc
  intro e he hpin
  simp only [perform, effects, executeFlight] at hclean ⊢
  cases hf : w.flights[i]? with
  | none => exact holds_idle false e he hpin
  | some f =>
    have hframe := segmentFlush_removesNone (X := X) f.work.segmentId f.work.cohortWindowSecs
      f.work.entries (fun _ : Unit => ())
    have hnone := (hframe ⟨(), clock⟩ w.fs).1
    simp only [hf, FlushWork.execute] at hclean ⊢
    generalize (segmentFlush (X := X) f.work.segmentId f.work.cohortWindowSecs f.work.entries).run
      ⟨(), clock⟩ w.fs = r at hclean hnone ⊢
    obtain ⟨_ | m, q, es⟩ := r
    · exact ⟨⟨e, he, hpin⟩, Snapshot.stays_of_removesNone hclean hnone⟩
    · exact ⟨⟨e, he, hpin⟩, Snapshot.stays_of_removesNone hclean hnone⟩

theorem holds_finalizeFlush {i : ℕ} (h : WorldInv X w)
    (hc : w.Admitted X ⟨.finalizeFlush i, clock, none⟩) :
    (w.perform X (.finalizeFlush i) clock).Holds X s w := by
  have hclean := h.all_clean hc
  simp only [perform, effects] at hclean ⊢
  split
  case h_1 e work m he hf =>
    simp only [he, hf] at hclean
    exact holds_onEngine hclean (Engine.finalizeFlush_removesNone m work.flushedMaxLsn)
  case h_2 => exact holds_idle false

/-- **A call that spares a snapshot** leaves its pin and its segments. -/
theorem holds_localPerform {c : LocalCall} (h : WorldInv X w) (hc : w.LocalAdmitted X c)
    (hs : w.Spares X s c) : (w.localPerform X c).Holds X s w := by
  obtain ⟨op | id, clock⟩ := c
  case prune => exact holds_prune h hc.1 hc.2 hs
  have hc : w.Admitted X ⟨op, clock, none⟩ := hc
  have hclean := h.all_clean hc
  have hrely := h.all_storeRely hc
  cases op with
  | «open» config =>
    intro e he hpin
    -- the engine is open already
    simp only [localPerform, perform, he]
    exact holds_idle false e he hpin
  | close => exact hs.elim
  | put ns key val => exact holds_onEngine hclean (Engine.put_removesNone ns key val)
  | putWithTtl ns key val ttl =>
    exact holds_onEngine hclean (Engine.registry_of_log (Engine.putWithTtl_frame ns key val ttl))
  | delete ns key => exact holds_onEngine hclean (Engine.registry_of_log (Engine.delete_frame ns key))
  | commit ops => exact holds_onEngine hclean (Engine.registry_of_log (runTransaction_frame ops))
  | flush => exact holds_onEngine hclean (Engine.registry_of_log Engine.flush_frame)
  | flushToSegments => exact holds_onEngine hclean Engine.flushToSegments_removesNone
  | beginFlush => exact holds_onEngine hclean Engine.beginFlush_removesNone
  | execute i => exact holds_execute h hc
  | finalizeFlush i => exact holds_finalizeFlush h hc
  | abandon i => exact holds_idle true
  | compactOnce order => exact holds_compactOnce h hc
  | stripTextIndex id => exact holds_strip textIndex_flags h hrely hs
  | stripVectorIndex id => exact holds_strip vectorIndex_flags h hrely hs
  | importSegment dat size hash =>
    exact holds_onEngine hclean (Engine.importSegment_removesNone dat size hash)
  | snapshot =>
    refine holds_onEngine_of_wp hrely fun e he hpin => ?_
    simp only [Engine.snapshot, Prog.wp_bind, Exec.wp_get, Exec.wp_modify, Prog.wp_pure]
    exact ⟨List.mem_cons_of_mem _ hpin, .refl⟩
  | dropSnapshot sid =>
    refine holds_onEngine_of_wp hrely fun e he hpin => ?_
    simp only [Engine.dropSnapshot, Exec.wp_modify]
    exact ⟨List.mem_filter.mpr ⟨hpin, by simpa using Ne.symm hs⟩, .refl⟩

/-! ### Runs -/

/-- **A call that spares a snapshot** leaves what the snapshot holds. -/
theorem Holds.localStep {c : LocalCall} (h : w.Holds X s fs₀) (hw : WorldInv X w) (hc : w.LocalAdmitted X c)
    (hs : w.Spares X s c) : (w.localStep X c).Holds X s fs₀ := by
  obtain ⟨e, he, hpin⟩ := h.pinned
  obtain ⟨hengine, hstays⟩ := holds_localPerform hw hc hs e he hpin
  refine ⟨hengine, fun id hid => (hstays id hid (h.registered id hid)).1, fun id hid => ?_⟩
  exact (hstays id hid (h.registered id hid)).2.trans (h.files id hid)

/-- Taking a snapshot has no effects. -/
theorem perform_snapshot {e : Engine} (he : w.engine = some e) :
    w.perform X .snapshot clock = ⟨true, [], some { e with
      snapshotRegistry := e.snapshotRegistry.register (e.segmentStore.readers.map SegmentReader.segmentId) },
      w.flights⟩ := by
  simp only [perform, onEngine, he]
  rfl

theorem localAdmitted_snapshot {e : Engine} (he : w.engine = some e) :
    w.LocalAdmitted X ⟨.op .snapshot, clock⟩ := by
  refine ⟨rfl, ?_, trivial, trivial⟩
  rw [EffectsMeet, effects, perform_snapshot he]
  trivial

/-- A new snapshot holds the segments of the store. -/
theorem holds_newSnapshot {e : Engine} (hw : WorldInv X w) (he : w.engine = some e) :
    (w.localStep X ⟨.op .snapshot, clock⟩).Holds X e.newSnapshot w.fs := by
  have hids : e.newSnapshot.segmentIds = registeredIds X w.fs := (hw.engine e he).store.readers.map_segmentId
  have hstep : w.localPerform X ⟨.op .snapshot, clock⟩ = _ := perform_snapshot he
  rw [localStep, hstep]
  exact ⟨⟨_, rfl, List.mem_cons_self⟩, fun id hid => hids ▸ hid, fun _ _ => rfl⟩

/-- **Snapshot isolation**: a snapshot of a reachable state in which all writes are recorded in segments
returns what the engine returned when it was taken, after every run of calls that spare it. -/
theorem snapshot_isolated {before after : List LocalCall} {e : Engine}
    (hbefore : Run.All (localStep X) (LocalAdmitted X) {} before)
    (he : (Run.from (localStep X) {} before).engine = some e)
    (hrecorded : e.AllRecorded X (Run.from (localStep X) {} before).fs)
    (hafter : Run.All (localStep X) (fun w c => w.LocalAdmitted X c ∧ w.Spares X e.newSnapshot c)
      ((Run.from (localStep X) {} before).localStep X ⟨.op .snapshot, clock⟩) after) :
    e.newSnapshot.Shows X
      (Run.from (localStep X) ((Run.from (localStep X) {} before).localStep X ⟨.op .snapshot, clock⟩) after).fs
      e (Run.from (localStep X) {} before).fs := by
  set w := Run.from (localStep X) {} before
  have hw : WorldInv X w := hbefore.invariant (fun _ _ hw hc => hw.localStep hc) worldInv_empty
  -- the invariant of the later calls is that of the store, and that the snapshot is held
  have hheld := hafter.invariant (I := fun w' => WorldInv X w' ∧ w'.Holds X e.newSnapshot w.fs)
    (fun _ _ hw' hc => ⟨hw'.1.localStep hc.1, hw'.2.localStep hw'.1 hc.1 hc.2⟩)
    ⟨hw.localStep (localAdmitted_snapshot he), holds_newSnapshot hw he⟩
  have hstore := (hw.engine e he).store
  have hcaptured := hrecorded.captured
  constructor
  · intro ns key
    rw [Snapshot.get_congr hheld.2.files, hcaptured.get_eq hstore]
  · intro ns start «end» _
    rw [Snapshot.range_congr hheld.2.files, hcaptured.range_eq hstore]

/-- A put and a flush. -/
def flushedPut : List LocalCall :=
  [⟨.op (.open {}), fun _ => 0⟩, ⟨.op (.put [1] [7] [10]), fun _ => 0⟩, ⟨.op .flushToSegments, fun _ => 0⟩]

/-- An overwrite, a flush, a compaction and a delete. -/
def laterCalls : List LocalCall :=
  [⟨.op (.put [1] [7] [11]), fun _ => 0⟩, ⟨.op .flushToSegments, fun _ => 0⟩,
    ⟨.op (.compactOnce .given), fun _ => 10 ^ 20⟩, ⟨.op (.delete [1] [7]), fun _ => 0⟩]

theorem snapshot_isolated_flushedPut :
    let w := Run.from (localStep plainExternals) {} flushedPut
    ∃ e, w.engine = some e ∧ e.newSnapshot.Shows plainExternals
      (Run.from (localStep plainExternals) (w.localStep plainExternals ⟨.op .snapshot, fun _ => 0⟩) laterCalls).fs
      e w.fs := by
  intro w
  have hopen : w.engine.isSome = true := by decide +kernel
  obtain ⟨e, he⟩ := Option.isSome_iff_exists.mp hopen
  have hflushed : ∀ e ∈ w.engine, e.memtable.entries = [] := by decide +kernel
  have hafter : ∀ e ∈ w.engine, Run.All (localStep plainExternals)
      (fun w c => w.LocalAdmitted plainExternals c ∧ w.Spares plainExternals e.newSnapshot c)
      (w.localStep plainExternals ⟨.op .snapshot, fun _ => 0⟩) laterCalls := by decide +kernel
  have hord := (@inLsnOrder_of_registersInOrder plainExternals [{ op := .open {} }, { op := .put [1] [7] [10] },
    { op := .flushToSegments }] (by decide +kernel)).2
  have hmem : ∀ k, e.memtable.get k = none := fun k => by
    rw [SortedMap.get, hflushed e he]
    rfl
  exact ⟨e, he, snapshot_isolated (by decide +kernel) he (Engine.allRecorded_of_flushed hmem hord) (hafter e he)⟩

/-- **Snapshots are not isolated**: a value in the memtable is not in a new snapshot, and a pinned segment is
pruned under it. -/
theorem snapshot_misses_memtable :
    (∃ e, (Run.from (localStep plainExternals) {} (flushedPut.take 2)).engine = some e ∧
      ¬ e.newSnapshot.Shows plainExternals (Run.from (localStep plainExternals) {} (flushedPut.take 2)).fs
        e (Run.from (localStep plainExternals) {} (flushedPut.take 2)).fs) ∧
    ∃ e, (Run.from (localStep plainExternals) {} flushedPut).engine = some e ∧
      ¬ e.newSnapshot.Shows plainExternals
        (Run.from (localStep plainExternals) {} (flushedPut ++ [⟨.op .snapshot, fun _ => 0⟩, ⟨.prune 0, fun _ => 0⟩])).fs
        e (Run.from (localStep plainExternals) {} flushedPut).fs := by
  have hreads : ∀ e ∈ (Run.from (localStep plainExternals) {} (flushedPut.take 2)).engine,
      e.newSnapshot.get plainExternals (Run.from (localStep plainExternals) {} (flushedPut.take 2)).fs [1] [7] ≠
        e.get plainExternals (Run.from (localStep plainExternals) {} (flushedPut.take 2)).fs [1] [7] := by
    decide +kernel
  have hpruned : ∀ e ∈ (Run.from (localStep plainExternals) {} flushedPut).engine,
      e.newSnapshot.get plainExternals (Run.from (localStep plainExternals) {}
        (flushedPut ++ [⟨.op .snapshot, fun _ => 0⟩, ⟨.prune 0, fun _ => 0⟩])).fs [1] [7] ≠
        e.get plainExternals (Run.from (localStep plainExternals) {} flushedPut).fs [1] [7] := by
    decide +kernel
  have hopen : (Run.from (localStep plainExternals) {} (flushedPut.take 2)).engine.isSome = true ∧
      (Run.from (localStep plainExternals) {} flushedPut).engine.isSome = true := by decide +kernel
  obtain ⟨e, he⟩ := Option.isSome_iff_exists.mp hopen.1
  obtain ⟨e', he'⟩ := Option.isSome_iff_exists.mp hopen.2
  exact ⟨⟨e, he, fun h => hreads e he (h.get [1] [7])⟩, e', he', fun h => hpruned e' he' (h.get [1] [7])⟩

end World
