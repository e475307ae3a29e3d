import Edgestore.PlainExternals
import Edgestore.Reopen

/-!
# The metadata of segments

Flushes and compactions write metadata that describe the segment, once to its `.meta` file and once to
the manifest. An import makes up a death time and counts only some of the entries, and a strip sets its
flag in the manifest but not in the file. Runs that meet neither keep the metadata of every registered
segment sound.

## Main definitions

* `SegmentMeta.Sound`: metadata that describe the segment and are those of its file
* `KeepsMetas`: every segment that is registered afterwards was there before, or has sound metadata
* `World.MakesSound`: the calls after which the metadata stay sound
* `MetaInv`: the invariant of runs

## Main results

* `World.keepsMetas_perform`: what one call does to the registered segments
* `World.segmentMetas_sound`: the metadata are sound throughout such runs
* `World.strip_writes_stale_meta`: a strip leaves a `.meta` file without its flag
-/

variable {X : Externals} {R : List SegmentId} {window : ℕ} {fs fs₁ fs' : Fs}

/-! ### Sound metadata -/

/-- **Sound metadata**: they describe the entries of the segment, and its `.meta` file holds them. -/
structure SegmentMeta.Sound (m : SegmentMeta) (window : ℕ) (fs : Fs) : Prop where
  describes : m.Describes window (fs.segs m.segmentId).table
  stored : (fs.segs m.segmentId).segMeta = .whole m

theorem SegmentMeta.Sound.congr {m : SegmentMeta} (h : m.Sound window fs)
    (hsegs : fs'.segs m.segmentId = fs.segs m.segmentId) : m.Sound window fs' := by
  constructor
  · rw [hsegs]
    exact h.describes
  · rw [hsegs]
    exact h.stored

/-- A flush leaves sound metadata. -/
theorem Flushed.sound {m : SegmentMeta} {window' : ℕ} {entries : List (Bytes × MemEntry)}
    (h : Flushed X m.segmentId window' entries m (fs.segs m.segmentId))
    (hw : asI64 window ≤ asI64 window') : m.Sound window fs := ⟨h.describes hw, h.stored⟩

/-- Every segment that is registered afterwards was there before, with its files, or has sound
metadata. -/
def KeepsMetas (X : Externals) (window : ℕ) (fs fs' : Fs) : Prop :=
  ∀ m ∈ registered X fs', (m ∈ registered X fs ∧ fs'.segs m.segmentId = fs.segs m.segmentId) ∨
    m.Sound window fs'

namespace KeepsMetas

theorem refl : KeepsMetas X window fs fs := fun _ hm => .inl ⟨hm, rfl⟩

theorem trans (h : KeepsMetas X window fs fs₁) (h' : KeepsMetas X window fs₁ fs') :
    KeepsMetas X window fs fs' := by
  intro m hm
  rcases h' m hm with ⟨hm₁, hsegs'⟩ | hsound
  · rcases h m hm₁ with ⟨hm₀, hsegs⟩ | hsound
    · exact .inl ⟨hm₀, hsegs'.trans hsegs⟩
    · exact .inr (hsound.congr hsegs')
  · exact .inr hsound

theorem of_registered (hreg : registered X fs' = registered X fs)
    (hsegs : ∀ id ∈ registeredIds X fs, fs'.segs id = fs.segs id) : KeepsMetas X window fs fs' := by
  intro m hm
  rw [hreg] at hm
  exact .inl ⟨hm, hsegs _ (mem_registeredIds hm)⟩

theorem of_same (h : SameStore fs fs') : KeepsMetas X window fs fs' :=
  of_registered h.registered_eq fun _ _ => by rw [h.segs]

/-- One segment more, with sound metadata. -/
theorem concat {m : SegmentMeta} (hreg : registered X fs' = registered X fs ++ [m])
    (hsegs : ∀ id ∈ registeredIds X fs, fs'.segs id = fs.segs id) (hm : m.Sound window fs') :
    KeepsMetas X window fs fs' := by
  intro m' hm'
  rw [hreg] at hm'
  rcases List.mem_append.mp hm' with hm' | hm'
  · exact .inl ⟨hm', hsegs _ (mem_registeredIds hm')⟩
  · rw [List.mem_singleton.mp hm']
    exact .inr hm

theorem of_addsFlushed {window' : ℕ} (hw : asI64 window ≤ asI64 window')
    (h : Engine.AddsFlushed X window' fs fs') : KeepsMetas X window fs fs' := by
  rcases h with hsame | ⟨m, entries, hnew, hreg, hflushed, hsegs⟩
  · exact of_same hsame
  · refine concat hreg (fun id hid => hsegs id ?_) (hflushed.sound hw)
    exact fun heq => hnew (heq ▸ hid)

/-- Compacting a cohort drops segments, or replaces them by one that it has flushed. -/
theorem of_cohortStep {c : Compactor} {now : ℤ} {pinned : List SegmentId} {cohort : CohortInfo}
    (hw : asI64 window ≤ asI64 c.cohortWindowSecs) (h : CohortStep X c now pinned cohort fs fs') :
    KeepsMetas X window fs fs' := by
  cases h with
  | skip => exact refl
  | drop _ _ h =>
    intro m hm
    rw [h.registered] at hm
    obtain ⟨hm, hnot⟩ := List.mem_filter.mp hm
    exact .inl ⟨hm, h.segs _ (by simpa using hnot)⟩
  | @rewrite _ new _ h =>
    intro m hm
    rw [h.registered] at hm
    obtain ⟨hm, hnot⟩ := List.mem_filter.mp hm
    rcases List.mem_append.mp hm with hm | hm
    · refine .inl ⟨hm, h.segs _ (by simpa using hnot) fun heq => h.fresh ?_⟩
      exact heq ▸ mem_registeredIds hm
    · rw [List.mem_singleton.mp hm]
      exact .inr (h.flushed.sound hw)

theorem of_cohortSteps {c : Compactor} {now : ℤ} {pinned : List SegmentId} {cohorts : List CohortInfo}
    (hw : asI64 window ≤ asI64 c.cohortWindowSecs) (h : CohortSteps X c now pinned cohorts fs fs') :
    KeepsMetas X window fs fs' := by
  induction h with
  | nil => exact refl
  | cons head _ _ ih => exact (of_cohortStep hw head).trans ih

/-- An import leaves sound metadata if they describe the entries of the file. -/
theorem of_registersTable {m : SegmentMeta} {l : List (Bytes × MemEntry)}
    (h : Engine.RegistersTable X l m fs fs') (hl : Engine.ImportDescribes window l) :
    KeepsMetas X window fs fs' := by
  refine concat h.registered h.segs ⟨?_, h.stored⟩
  rw [h.table]
  exact h.describes window hl

end KeepsMetas

/-! ### What one call does -/

/-- An engine whose cohort windows are no shorter than the one given. -/
def Engine.WindowFrom (e : Engine) (window : ℕ) : Prop :=
  asI64 window ≤ asI64 e.config.cohortWindowSecs ∧
    asI64 window ≤ asI64 e.segmentStore.cohortWindowSecs

theorem Engine.WindowFrom.congr {e e' : Engine} (h : e.WindowFrom window)
    (hs : e'.settings = e.settings) : e'.WindowFrom window := by
  obtain ⟨hconfig, hstore⟩ := Prod.mk.inj hs
  rw [WindowFrom, hconfig, hstore]
  exact h

/-- An import that is applied has entries of which it computes the right metadata. -/
def ImportMakesSound (X : Externals) (window : ℕ) (fs : Fs) (dat : Dat) (hash : Bytes) : Prop :=
  X.datHash dat = hash → hash ∉ (registered X fs).map SegmentMeta.segmentHash →
    (parseDatEntries dat).isOk = true → Engine.ImportDescribes window (Dat.table dat)

instance (X : Externals) (window : ℕ) (fs : Fs) (dat : Dat) (hash : Bytes) :
    Decidable (ImportMakesSound X window fs dat hash) := inferInstanceAs (Decidable (_ → _ → _ → _))

namespace World

variable {w : World} {c : Call} {clock : ℕ → ℕ}

/-- **The calls that keep metadata sound**: no engine is opened with a shorter cohort window, no strip
rewrites a segment, and no import is applied whose metadata miss its entries. -/
def MakesSound (X : Externals) (window : ℕ) (w : World) (c : Call) : Prop :=
  match c.op with
  | .open config => asI64 window ≤ asI64 config.cohortWindowSecs
  | .stripTextIndex id => ¬ textIndex.Rewrites X id w.fs
  | .stripVectorIndex id => ¬ vectorIndex.Rewrites X id w.fs
  | .importSegment dat _ hash => ImportMakesSound X window w.fs dat hash
  | _ => True

instance (X : Externals) (window : ℕ) (w : World) : DecidablePred (w.MakesSound X window) := fun c => by
  obtain ⟨op, clock, stop⟩ := c
  unfold MakesSound
  rcases op <;> infer_instance

end World

/-- The invariant: the metadata of registered segments are sound, and no cohort window in use is shorter
than the one given. -/
structure MetaInv (X : Externals) (window : ℕ) (w : World) : Prop where
  inv : WorldInv X w
  sound : ∀ m ∈ registered X w.fs, m.Sound window w.fs
  engine : ∀ e, w.engine = some e → e.WindowFrom window
  flights : ∀ f ∈ w.flights, asI64 window ≤ asI64 f.work.cohortWindowSecs

namespace World

variable {w : World} {c : Call} {clock : ℕ → ℕ} {α : Type}

/-! ### The registered segments after a call -/

theorem keepsMetas_onEngine {rely G : Effect → Fs → Prop} {m : Exec X Engine α} {land : α → List Flight}
    (hrely : (disk X).All rely (w.onEngine X clock m land).effects w.fs)
    (hwp : ∀ e, w.engine = some e → Prog.wp m
      ⟨fun _ _ fs' => KeepsMetas X window w.fs fs', fun _ _ fs' => KeepsMetas X window w.fs fs',
        rely, G⟩ ⟨e, clock⟩ w.fs) :
    KeepsMetas X window w.fs ((disk X).run (w.onEngine X clock m land).effects w.fs) := by
  cases he : w.engine with
  | none =>
    rw [onEngine_none he]
    exact .refl
  | some e =>
    rw [(onEngine_some he).1] at hrely ⊢
    have hres := Prog.wp_result (hwp e he) hrely
    generalize m.run ⟨e, clock⟩ w.fs = r at hres ⊢
    obtain ⟨_ | a, q, es⟩ := r
    · exact hres
    · exact hres

/-- Writes touch only the WAL. -/
theorem keepsMetas_write {m : Exec X Engine α}
    (hrely : (disk X).All (StoreRely X) (w.onEngine X clock m).effects w.fs)
    (hf : Exec.Frame Effect.IsLog Engine.storePart m) :
    KeepsMetas X window w.fs ((disk X).run (w.onEngine X clock m).effects w.fs) :=
  keepsMetas_onEngine hrely fun _ _ => Prog.wp_imp (wp_wal (R := []) hf) (fun _ _ _ hq => .of_same hq.2)
    fun _ _ _ hq => .of_same hq.2

/-- A strip that finds nothing to rewrite does nothing. -/
theorem keepsMetas_strip {kind : IndexKind} {id : SegmentId} (h : WorldInv X w)
    (hidle : ¬ kind.Rewrites X id w.fs) :
    KeepsMetas X window w.fs
      ((disk X).run (w.onEngine X clock (Engine.stripIndex kind id)).effects w.fs) := by
  refine keepsMetas_onEngine (G := fun _ _ => False) Device.all_true fun e he => ?_
  refine Prog.wp_imp (Engine.wp_stripIndex_idle (h.engine e he) hidle) ?_ ?_
  · rintro _ _ _ ⟨-, -, rfl⟩
    exact .refl
  · rintro _ _ _ ⟨-, rfl⟩
    exact .refl

theorem keepsMetas_execute {i : ℕ} (h : WorldInv X w) (hc : w.Admitted X ⟨.execute i, clock, none⟩) :
    KeepsMetas X window w.fs ((disk X).run (w.perform X (.execute i) clock).effects w.fs) := by
  have hrely := h.all_storeRely hc
  simp only [effects, perform, executeFlight] at hrely ⊢
  cases hf : w.flights[i]? with
  | none => exact .refl
  | some f =>
    have hmem : f ∈ w.flights := List.mem_of_getElem? hf
    have hnew := (h.fs.held f hmem).1
    have hwp : Prog.wp (segmentFlush (X := X) (σ := Unit) f.work.segmentId f.work.cohortWindowSecs
        f.work.entries) _ ⟨(), clock⟩ w.fs :=
      wp_segmentFlush_new (R := []) (h.wf f hmem).sorted hnew (by simp)
    -- the files of the flight are not those of a registered segment
    have hkeeps : ∀ {fs'}, Outside f.work.segmentId w.fs fs' → KeepsMetas X window w.fs fs' :=
      fun hout => .of_registered hout.registered_eq fun id hid => hout.segs id fun heq =>
        hnew (heq ▸ hid)
    simp only [hf, FlushWork.execute] at hrely ⊢
    generalize hr : (segmentFlush (X := X) (σ := Unit) f.work.segmentId f.work.cohortWindowSecs
      f.work.entries).run ⟨(), clock⟩ w.fs = r at hrely ⊢
    obtain ⟨_ | m, q, es⟩ := r
    · have hres := Prog.wp_result hwp (by rw [hr]; exact hrely)
      rw [hr] at hres
      exact hkeeps hres.2
    · have hres := Prog.wp_result hwp (by rw [hr]; exact hrely)
      rw [hr] at hres
      exact hkeeps hres.2

theorem keepsMetas_finalizeFlush {i : ℕ} (h : MetaInv X window w)
    (hc : w.Admitted X ⟨.finalizeFlush i, clock, none⟩) :
    KeepsMetas X window w.fs ((disk X).run (w.perform X (.finalizeFlush i) clock).effects w.fs) := by
  have hrely := h.inv.all_storeRely hc
  simp only [effects, perform] at hrely ⊢
  split
  case h_2 => exact .refl
  case h_1 e work m he hf =>
    simp only [he, hf] at hrely
    have hmem := List.mem_of_getElem? hf
    obtain ⟨hnew, hwritten⟩ := h.inv.fs.held _ hmem
    have hw : Flushed X work.segmentId work.cohortWindowSecs work.entries m (w.fs.segs work.segmentId) :=
      hwritten m rfl
    have hid : m.segmentId = work.segmentId := hw.segmentId
    have hsound : m.Sound window w.fs := Flushed.sound (hid ▸ hw) (h.flights _ hmem)
    refine keepsMetas_onEngine (G := StoreEffect X (idsOf (w.flights.eraseIdx i))) hrely fun e' he' => ?_
    have hinv := (h.inv.eraseIdx (i := i)).engine e' he'
    have hlt := ((h.inv.engine e' he').store.reserved _ (mem_idsOf hmem)).1
    refine Prog.wp_imp (Engine.wp_finalizeFlush hinv hw hnew (flight_not_mem_others h.inv hf) hlt) ?_
      fun _ _ _ he => he.elim
    rintro _ _ fs' ⟨-, hreg, hsegs, -⟩
    exact .concat hreg (fun _ _ => by rw [hsegs]) (hsound.congr (by rw [hsegs]))

theorem keepsMetas_open {config : EdgestoreConfig} (h : WorldInv X w)
    (hc : w.Admitted X ⟨.open config, clock, none⟩) :
    KeepsMetas X window w.fs ((disk X).run (w.perform X (.open config) clock).effects w.fs) := by
  have hrely := h.all_storeRely hc
  simp only [effects, perform] at hrely ⊢
  cases he : w.engine with
  | some e => exact .refl
  | none =>
    simp only [he] at hrely
    have hres := Prog.wp_result (Engine.wp_open (σ := Unit) (p := ⟨(), clock⟩) h.fs.disk h.log hc.ids
      hc.window) hrely
    generalize (Engine.open (X := X) (σ := Unit) config).run ⟨(), clock⟩ w.fs = r at hres ⊢
    obtain ⟨_ | e, q, es⟩ := r
    · exact .of_same hres
    · obtain ⟨-, hreg, hsegs⟩ := hres
      exact .of_registered hreg fun _ _ => by rw [hsegs]

/-- **One call** leaves every registered segment as it was, or registers it with sound metadata. -/
theorem keepsMetas_perform (h : MetaInv X window w) (hc : w.Admitted X c)
    (hs : w.MakesSound X window c) : KeepsMetas X window w.fs ((disk X).run (w.effects X c) w.fs) := by
  obtain ⟨op, clock, stop⟩ := c
  obtain rfl : stop = none := hc.stop
  have hrely := h.inv.all_storeRely hc
  cases op with
  | «open» config => exact keepsMetas_open h.inv hc
  | close => exact keepsMetas_write hrely Engine.flush_frame
  | put ns key val =>
    refine keepsMetas_onEngine (G := StoreEffect X w.reservedIds) hrely fun e he => ?_
    have hwindow := (h.engine e he).2
    exact Prog.wp_imp (h.inv.engine e he).wp_put (fun _ _ _ hq => .of_addsFlushed hwindow hq.2)
      fun _ _ _ hq => .of_addsFlushed hwindow hq.2
  | putWithTtl ns key val ttl => exact keepsMetas_write hrely (Engine.putWithTtl_frame ns key val ttl)
  | delete ns key => exact keepsMetas_write hrely (Engine.delete_frame ns key)
  | commit ops => exact keepsMetas_write hrely (runTransaction_frame ops)
  | flush => exact keepsMetas_write hrely Engine.flush_frame
  | flushToSegments =>
    refine keepsMetas_onEngine (G := StoreEffect X w.reservedIds) hrely fun e he => ?_
    refine Prog.wp_imp (Engine.wp_flushToSegments (h.inv.engine e he)) ?_ ?_
    · rintro m q fs' ⟨-, work, e', hbegun, hreg, hwritten, hsegs, -⟩
      exact .of_addsFlushed (h.engine e he).2
        (hbegun.addsFlushed (h.inv.engine e he) hreg hwritten hsegs)
    · rintro _ _ _ ⟨-, -, rfl⟩
      exact .refl
  | beginFlush =>
    refine keepsMetas_onEngine (G := StoreEffect X w.reservedIds) hrely fun e he => ?_
    refine Prog.wp_imp (Engine.wp_beginFlush (h.inv.engine e he)) ?_ fun _ _ _ he => he.elim
    rintro _ _ _ ⟨rfl, -⟩
    exact .refl
  | execute i => exact keepsMetas_execute h.inv hc
  | finalizeFlush i => exact keepsMetas_finalizeFlush h hc
  | abandon i => exact .refl
  | compactOnce order =>
    refine keepsMetas_onEngine (G := StoreEffect X w.reservedIds) (h.inv.all_compactRely hc) fun e he => ?_
    refine Prog.wp_imp (Engine.wp_compactOnce (h.inv.engine e he) hc.ids.1) ?_ fun _ _ _ he => he.elim
    rintro _ _ fs' ⟨-, -, _, hruns⟩
    exact .of_cohortSteps (c := e.compactor) (h.engine e he).1 hruns.steps
  | stripTextIndex id =>
    have hidle : ¬ textIndex.Rewrites X id w.fs := hs
    exact keepsMetas_strip h.inv hidle
  | stripVectorIndex id =>
    have hidle : ¬ vectorIndex.Rewrites X id w.fs := hs
    exact keepsMetas_strip h.inv hidle
  | importSegment dat size hash =>
    refine keepsMetas_onEngine (G := StoreEffect X w.reservedIds) hrely fun e he => ?_
    refine Prog.wp_imp (h.inv.engine e he).wp_importSegment ?_ fun _ _ _ hq =>
      .of_registered hq.2.registered hq.2.segs
    rintro r _ fs' ⟨-, ⟨hnew, hhash, m, htable, hread⟩ | ⟨-, hsame⟩⟩
    · refine .of_registersTable htable (hs hhash hnew ?_)
      rw [Engine.parseDatEntries_eq hread]
      rfl
    · exact .of_registered hsame.registered hsame.segs
  | snapshot =>
    refine keepsMetas_onEngine (G := fun _ _ => True) hrely fun e _ => ?_
    simp only [Engine.snapshot, Prog.wp_bind, Exec.wp_get, Exec.wp_modify, Prog.wp_pure]
    exact .refl
  | dropSnapshot id =>
    refine keepsMetas_onEngine (G := fun _ _ => True) hrely fun e _ => ?_
    simp only [Engine.dropSnapshot, Exec.wp_modify]
    exact .refl

/-! ### Cohort windows -/

/-- A method that keeps the settings of the engine keeps its cohort windows. -/
theorem windowFrom_onEngine {m : Exec X Engine α} {land : α → List Flight}
    (h : ∀ e, w.engine = some e → e.WindowFrom window)
    (hm : Exec.Frame (fun _ => True) Engine.settings m) :
    ∀ e', (w.onEngine X clock m land).engine = some e' → e'.WindowFrom window := by
  intro e' he'
  cases he : w.engine with
  | none =>
    rw [onEngine_none he] at he'
    cases he.symm.trans he'
  | some e =>
    rw [(onEngine_some he).2.1] at he'
    obtain rfl := Option.some.inj he'
    exact (h e he).congr (hm ⟨e, clock⟩ w.fs).2

theorem windowFrom_compactOnce {order : HashOrder} (h : ∀ e, w.engine = some e → e.WindowFrom window) :
    ∀ e', (w.perform X (.compactOnce order) clock).engine = some e' → e'.WindowFrom window := by
  intro e' he'
  simp only [perform] at he'
  cases he : w.engine with
  | none =>
    rw [onEngine_none he] at he'
    cases he.symm.trans he'
  | some e =>
    have hwindow := h e he
    obtain ⟨q, hq, ⟨-, -, hsettings⟩ | ⟨-, -, hstate⟩⟩ :=
      onEngine_outcome he Device.all_true (Engine.wp_compactOnce_settings (X := X))
    all_goals
      rw [hq] at he'
      obtain rfl := Option.some.inj he'
    · obtain ⟨hconfig, hstore⟩ := Prod.mk.inj hsettings
      rw [Engine.WindowFrom, hconfig, hstore]
      exact ⟨hwindow.1, hwindow.1⟩
    · rw [hstate]
      exact hwindow

theorem windowFrom_open {config : EdgestoreConfig} (h : ∀ e, w.engine = some e → e.WindowFrom window)
    (hw : asI64 window ≤ asI64 config.cohortWindowSecs) :
    ∀ e', (w.perform X (.open config) clock).engine = some e' → e'.WindowFrom window := by
  intro e' he'
  simp only [perform] at he'
  cases he : w.engine with
  | some e =>
    simp only [he] at he'
    exact h e' he'
  | none =>
    simp only [he] at he'
    have hopen : Prog.wp (Engine.open (X := X) (σ := Unit) config) _ ⟨(), clock⟩ w.fs :=
      Engine.wp_open_settings
    have hres := Prog.wp_result hopen Device.all_true
    generalize (Engine.open (X := X) (σ := Unit) config).run ⟨(), clock⟩ w.fs = r at hres he'
    obtain ⟨_ | e, q, es⟩ := r
    · cases he'
    · obtain rfl := Option.some.inj he'
      obtain ⟨hconfig, hstore⟩ := Prod.mk.inj hres
      rw [Engine.WindowFrom, hconfig, hstore]
      exact ⟨hw, hw⟩

/-- No call shortens a cohort window, unless it opens an engine. -/
theorem windowFrom_perform (h : ∀ e, w.engine = some e → e.WindowFrom window)
    (hs : w.MakesSound X window c) :
    ∀ e', (w.perform X c.op c.clock).engine = some e' → e'.WindowFrom window := by
  obtain ⟨op, clock, stop⟩ := c
  cases op with
  | «open» config => exact windowFrom_open h hs
  | close => exact fun e' he' => (by cases he')
  | put ns key val => exact windowFrom_onEngine h (Engine.put_settings ns key val)
  | putWithTtl ns key val ttl =>
    exact windowFrom_onEngine h (Engine.settings_of_storePart (Engine.putWithTtl_frame ns key val ttl))
  | delete ns key =>
    exact windowFrom_onEngine h (Engine.settings_of_storePart (Engine.delete_frame ns key))
  | commit ops => exact windowFrom_onEngine h (Engine.settings_of_storePart (runTransaction_frame ops))
  | flush => exact windowFrom_onEngine h (Engine.settings_of_storePart Engine.flush_frame)
  | flushToSegments => exact windowFrom_onEngine h Engine.flushToSegments_settings
  | beginFlush => exact windowFrom_onEngine h Engine.beginFlush_settings
  | execute i =>
    intro e' he'
    simp only [perform, executeFlight] at he'
    split at he'
    · exact h e' he'
    · split at he'
      · exact h e' he'
      · exact h e' he'
  | finalizeFlush i =>
    intro e' he'
    simp only [perform] at he'
    split at he'
    · exact windowFrom_onEngine h (Engine.finalizeFlush_settings _ _) e' he'
    · exact h e' he'
  | abandon i => exact h
  | compactOnce order => exact windowFrom_compactOnce h
  | stripTextIndex id => exact windowFrom_onEngine h (Engine.stripIndex_settings textIndex id)
  | stripVectorIndex id => exact windowFrom_onEngine h (Engine.stripIndex_settings vectorIndex id)
  | importSegment dat size hash => exact windowFrom_onEngine h (Engine.importSegment_settings dat size hash)
  | snapshot =>
    exact windowFrom_onEngine h (.bind .get fun _ => .bind (.modify fun _ => rfl) fun _ => .pure _)
  | dropSnapshot id => exact windowFrom_onEngine h (.modify fun _ => rfl)

/-- A flush that begins takes the cohort window of the store. -/
theorem flights_beginFlush (h : MetaInv X window w)
    (hc : w.Admitted X ⟨.beginFlush, clock, none⟩) :
    ∀ f ∈ (w.perform X .beginFlush clock).flights, asI64 window ≤ asI64 f.work.cohortWindowSecs := by
  have hrely := h.inv.all_storeRely hc
  simp only [effects, perform] at hrely ⊢
  cases he : w.engine with
  | none =>
    rw [onEngine_none he]
    exact h.flights
  | some e =>
    have hwindow := (h.engine e he).2
    rw [(onEngine_some he).1] at hrely
    have hres := Prog.wp_result (Engine.wp_beginFlush (h.inv.engine e he)) hrely
    simp only [onEngine, he]
    generalize (Engine.beginFlush (X := X)).run ⟨e, clock⟩ w.fs = r at hres ⊢
    obtain ⟨_ | work, q, es⟩ := r
    · exact h.flights
    · intro f hf
      rcases List.mem_append.mp hf with hf | hf
      · exact h.flights f hf
      · cases work with
        | none => cases hf
        | some work =>
          obtain rfl := List.mem_singleton.mp hf
          obtain ⟨-, hbegun, -⟩ := hres
          rw [← hbegun.window] at hwindow
          exact hwindow

/-- No other call gives a flight a shorter cohort window. -/
theorem flights_perform (h : MetaInv X window w) (hc : w.Admitted X c) :
    ∀ f ∈ (w.perform X c.op c.clock).flights, asI64 window ≤ asI64 f.work.cohortWindowSecs := by
  obtain ⟨op, clock, stop⟩ := c
  obtain rfl : stop = none := hc.stop
  have herase : ∀ {i}, ∀ f ∈ w.flights.eraseIdx i, asI64 window ≤ asI64 f.work.cohortWindowSecs :=
    fun f hf => h.flights f (List.mem_of_mem_eraseIdx hf)
  cases op with
  | beginFlush => exact flights_beginFlush h hc
  | «open» config =>
    simp only [perform]
    split
    · exact h.flights
    · exact h.flights
  | execute i =>
    simp only [perform, executeFlight]
    split
    · exact h.flights
    case h_2 f hf =>
      split
      · -- the flight keeps its work
        intro g hg
        rcases List.mem_or_eq_of_mem_set hg with hg | rfl
        · exact h.flights g hg
        · exact h.flights f (List.mem_of_getElem? hf)
      · exact herase
  | finalizeFlush i =>
    simp only [perform]
    split
    · exact herase
    · exact h.flights
  | abandon i => exact herase
  | _ =>
    simp only [perform, flights_onEngine]
    exact h.flights

/-- **One call** keeps the invariant. -/
theorem metaInv_step (h : MetaInv X window w) (hc : w.Admitted X c) (hs : w.MakesSound X window c) :
    MetaInv X window (w.step X c) := by
  have hinv := h.inv.step hc
  have hkeeps := keepsMetas_perform h hc hs
  have hengine := windowFrom_perform (X := X) h.engine hs
  have hflights := flights_perform h hc
  obtain ⟨op, clock, stop⟩ := c
  obtain rfl : stop = none := hc.stop
  refine ⟨hinv, fun m hm => ?_, hengine, hflights⟩
  rcases hkeeps m hm with ⟨hm, hsegs⟩ | hsound
  · exact (h.sound m hm).congr hsegs
  · exact hsound

theorem metaInv_empty : MetaInv X window {} := by
  refine ⟨worldInv_empty, fun m hm => ?_, fun e he => (by cases he), fun f hf => (by cases hf)⟩
  rw [registered_none rfl] at hm
  cases hm

/-- **The metadata of segments are sound**: in a run whose calls open no engine with a cohort window
shorter than the given one, rewrite no segment by a strip, and import no segment whose metadata miss its
entries, every registered segment has metadata that describe its entries and are those of its file. -/
theorem segmentMetas_sound {calls : List Call}
    (h : Run.All (step X) (fun w c => w.Admitted X c ∧ w.MakesSound X window c) {} calls) :
    ∀ m ∈ registered X (Run.from (step X) {} calls).fs,
      m.Sound window (Run.from (step X) {} calls).fs :=
  (h.invariant (I := MetaInv X window) (fun _ _ hw hc => metaInv_step hw hc.1 hc.2) metaInv_empty).sound

/-- A segment of a peer with a record that is dead at time zero. -/
def expiredDat : Dat :=
  [.decoded 10 [([0, 1, 1, 7], { key := [0, 1, 1, 7], value := some [10], op := .put, lsn := 1,
                                 timestamp := -10 ^ 18, ttl := 60 })]]

/-- Flushes, a strip that finds nothing, an import, a compaction, and a reopening with a longer cohort
window. -/
def soundRun : List Call :=
  [{ op := .open {} }, { op := .put [1] [7] [10] }, { op := .putWithTtl [1] [8] [11] 60 },
    { op := .flushToSegments }, { op := .put textIndex.nsPrefix [1] [20] }, { op := .beginFlush },
    { op := .stripTextIndex 0 }, { op := .execute 0 }, { op := .finalizeFlush 0 },
    { op := .importSegment expiredDat 10 (plainExternals.datHash expiredDat) },
    { op := .compactOnce .given }, { op := .close }, { op := .open { cohortWindowSecs := 7200 } }]

theorem segmentMetas_sound_soundRun :
    registered plainExternals (Run.from (step plainExternals) {} soundRun).fs ≠ [] ∧
      ∀ m ∈ registered plainExternals (Run.from (step plainExternals) {} soundRun).fs,
        m.Sound 3600 (Run.from (step plainExternals) {} soundRun).fs :=
  ⟨by decide +kernel, segmentMetas_sound (by decide +kernel)⟩

/-- A segment with a record of the text index and another, and a strip of it. -/
def strippedRun : List Call :=
  [{ op := .open {} }, { op := .put textIndex.nsPrefix [1] [20] }, { op := .put [1] [7] [10] },
    { op := .flushToSegments }, { op := .stripTextIndex 0 }]

/-- An import of a record that lives for a minute from time zero. -/
def importedRun : List Call :=
  let dat : Dat := [.decoded 10 [([0, 1, 1, 7], { key := [0, 1, 1, 7], value := some [10], op := .put,
                                                  lsn := 1, timestamp := 0, ttl := 60 })]]
  [{ op := .open {} }, { op := .importSegment dat 10 (plainExternals.datHash dat) }]

/-- **Metadata that are not sound**: after a strip the manifest has its flag and the `.meta` file has not,
and after an import the death time is earlier than that of a record. -/
theorem strip_writes_stale_meta :
    let stripped := (Run.from (step plainExternals) {} strippedRun).fs
    let imported := (Run.from (step plainExternals) {} importedRun).fs
    (Run.All (step plainExternals) (Admitted plainExternals) {} strippedRun ∧
      ¬ ∀ m ∈ registered plainExternals stripped, m.Sound 3600 stripped) ∧
    (Run.All (step plainExternals) (Admitted plainExternals) {} importedRun ∧
      ¬ ∀ m ∈ registered plainExternals imported, m.Sound 3600 imported) := by
  intro stripped imported
  refine ⟨⟨by decide +kernel, fun h => ?_⟩, by decide +kernel, fun h => ?_⟩
  · have hstored : ∀ m ∈ registered plainExternals stripped,
        (stripped.segs m.segmentId).segMeta = .whole m := fun m hm => (h m hm).stored
    exact absurd hstored (by decide +kernel)
  · have hdeath : ∀ m ∈ registered plainExternals imported, ∀ p ∈ (imported.segs m.segmentId).table,
        deathTimeFor p.2.timestamp p.2.ttl 3600 ≤ m.deathTime := fun m hm => (h m hm).describes.deathTime
    exact absurd hdeath (by decide +kernel)

end World
