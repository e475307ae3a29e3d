import Edgestore.Engine.StoreFrames
import Edgestore.WalOrder
import Edgestore.WorldInv
import Edgestore.PlainExternals

/-!
# What is synced when a WAL file is unlinked

A flush writes the four files of a segment, appends its manifest frame, and unlinks the WAL files whose
records the segment covers. All these files should be synced by then. The `.meta` file never is.

## Main definitions

* `history`: the device that remembers its effects
* `Unsynced t f`: the file `f` was written and not synced since
* `SegmentDurable t`: the files of the segment registered last are synced, and so is the manifest
* `World.trace`: the effects of a run
* `World.RetiresDurably`: the segment is durable whenever a WAL file is unlinked

## Main results

* `World.retiresDurably_iff`: a run retires its WAL files durably if and only if it retires none
-/

variable {X : Externals} {σ α β : Type}

/-! ### Histories -/

/-- The device whose state is the list of the effects so far. -/
abbrev history : Device where
  State := List Effect
  Effect := Effect
  apply e t := t ++ [e]
  tear _ _ t := t

@[simp] theorem history_run (es t : List Effect) : history.run es t = t ++ es := by
  induction es generalizing t with
  | nil => exact (List.append_nil t).symm
  | cons e es ih => rw [Device.run_cons, ih, List.append_assoc]; rfl

/-- The file whose bytes an effect changes. A segment that is adopted keeps its bytes under a new
name. -/
def Effect.writes : Effect → Option FileName
  | .walCreate n => some (.wal n)
  | .walHeader n => some (.wal n)
  | .walAppend n _ => some (.wal n)
  | .manifestCreate => some .manifest
  | .manifestHeader => some .manifest
  | .manifestAppend _ _ => some .manifest
  | .datWrite id _ => some (.seg id .dat)
  | .idxWrite id _ => some (.seg id .idx)
  | .xfWrite id _ => some (.seg id .xf)
  | .metaWrite id _ => some (.seg id .meta')
  | .stageAdopt _ id => some (.seg id .dat)
  | _ => none

/-- A file was written, and it was not synced since. -/
def Unsynced (t : List Effect) (f : FileName) : Prop :=
  ∃ before e since, t = before ++ e :: since ∧ e.writes = some f ∧ .sync f ∉ since

/-- The segment an effect registers. -/
def Effect.registers : Effect → Option SegmentMeta
  | .manifestAppend _ ⟨.add, _, m⟩ => m
  | _ => none

/-- The segment that was registered last. -/
def lastRegistered (t : List Effect) : Option SegmentMeta := (t.filterMap Effect.registers).getLast?

/-- The files that opening an engine needs for a segment. -/
def SegmentMeta.files (m : SegmentMeta) : List FileName :=
  [.seg m.segmentId .dat, .seg m.segmentId .idx, .seg m.segmentId .xf, .seg m.segmentId .meta',
    .manifest]

/-- All that is needed for the segment registered last is synced. -/
def SegmentDurable (t : List Effect) : Prop :=
  ∀ m, lastRegistered t = some m → ∀ f ∈ m.files, ¬ Unsynced t f

/-- The `.meta` file of the segment registered last is not synced. -/
def BareMeta (t : List Effect) : Prop :=
  ∃ m, lastRegistered t = some m ∧ Unsynced t (.seg m.segmentId .meta')

theorem BareMeta.not_durable {t : List Effect} (h : BareMeta t) : ¬ SegmentDurable t := by
  obtain ⟨m, hlast, hbare⟩ := h
  intro hdurable
  exact hdurable m hlast _ (by simp [SegmentMeta.files]) hbare

section Histories

variable {t es : List Effect} {f : FileName} {e : Effect}

/-- A file stays unsynced until it is synced. -/
theorem Unsynced.append (h : Unsynced t f) (hes : .sync f ∉ es) : Unsynced (t ++ es) f := by
  obtain ⟨before, e, since, rfl, he, hsince⟩ := h
  refine ⟨before, e, since ++ es, by simp, he, ?_⟩
  simpa using ⟨hsince, hes⟩

theorem unsynced_concat (h : e.writes = some f) : Unsynced (t ++ [e]) f :=
  ⟨t, e, [], rfl, h, List.not_mem_nil⟩

theorem lastRegistered_append_none (h : ∀ e ∈ es, e.registers = none) :
    lastRegistered (t ++ es) = lastRegistered t := by
  rw [lastRegistered, List.filterMap_append, List.filterMap_eq_nil_iff.mpr h, List.append_nil]
  rfl

theorem lastRegistered_concat {m : SegmentMeta} (h : e.registers = some m) :
    lastRegistered (t ++ [e]) = some m := by
  rw [lastRegistered, List.filterMap_append, List.filterMap_cons_some h, List.filterMap_nil,
    List.getLast?_concat]

end Histories

/-! ### Programs -/

/-- Effects that neither unlink a WAL file nor sync a `.meta` file. -/
def Effect.IsQuiet (e : Effect) : Prop := ¬ e.IsUnlink ∧ ∀ id, e ≠ .sync (.seg id .meta')

theorem Effect.IsLog.isQuiet {e : Effect} (h : e.IsLog) : e.IsQuiet := by
  refine ⟨h.not_isUnlink, ?_⟩
  rintro id rfl
  exact h

theorem Effect.IsSegment.isQuiet {e : Effect} (h : e.IsSegment) : e.IsQuiet := by
  constructor
  · intro hu
    cases e <;> first | exact hu | exact h
  · rintro id rfl
    exact h

/-- The effect syncs no `.meta` file, and if it unlinks a WAL file the segment registered last has a
bare one. -/
def Effect.LeavesBare (e : Effect) (t : List Effect) : Prop :=
  (e.IsUnlink → BareMeta t) ∧ ∀ id, e ≠ .sync (.seg id .meta')

theorem Effect.IsQuiet.leavesBare {e : Effect} (h : e.IsQuiet) (t : List Effect) : e.LeavesBare t :=
  ⟨fun hu => absurd hu h.1, h.2⟩

/-- After a history that meets `P`, all effects of the program leave `.meta` files bare; where it
succeeds, the history it leaves meets `Q`. -/
def Traces (P : List Effect → Prop) (m : Exec X σ α) (Q : α → List Effect → Prop) : Prop :=
  ∀ p d t, P t → history.All Effect.LeavesBare (m.run p d).2.2 t ∧
    ∀ a, (m.run p d).1 = .ok a → Q a (t ++ (m.run p d).2.2)

namespace Traces

variable {P : List Effect → Prop} {Q : β → List Effect → Prop} {R : α → List Effect → Prop}
  {m : Exec X σ α} {k : α → Exec X σ β}

theorem bind (hm : Traces P m R) (hk : ∀ a, Traces (R a) (k a) Q) : Traces P (m >>= k) Q := by
  intro p d t ht
  obtain ⟨hall, hok⟩ := hm p d t ht
  rcases hrun : m.run p d with ⟨res, p', es⟩
  rw [hrun] at hall hok
  cases res with
  | error err =>
    rw [Prog.run_bind_error hrun]
    exact ⟨hall, fun b hb => (by cases hb)⟩
  | ok a =>
    rw [Prog.run_bind_ok hrun]
    obtain ⟨hall', hok'⟩ := hk a p' ((disk X).run es d) (t ++ es) (hok a rfl)
    refine ⟨Device.all_append.mpr ⟨hall, ?_⟩, fun b hb => ?_⟩
    · rw [history_run]
      exact hall'
    · rw [← List.append_assoc]
      exact hok' b hb

theorem pure {a : α} (h : ∀ t, P t → R a t) : Traces P (Pure.pure a : Exec X σ α) R := by
  intro p d t ht
  refine ⟨trivial, fun b hb => ?_⟩
  cases hb
  exact (List.append_nil t).symm ▸ h t ht

theorem throw (err : EdgestoreError) : Traces P (Prog.throw err : Exec X σ α) R :=
  fun _ _ _ _ => ⟨trivial, fun _ hb => (by cases hb)⟩

theorem effect {e : Effect} {R : Unit → List Effect → Prop}
    (h : ∀ t, P t → e.LeavesBare t ∧ R () (t ++ [e])) :
    Traces P (Exec.effect e : Exec X σ Unit) R := by
  intro p d t ht
  obtain ⟨hbare, hR⟩ := h t ht
  exact ⟨⟨hbare, trivial⟩, fun _ _ => hR⟩

/-- A program with quiet effects keeps what its effects keep. -/
theorem of_frame {T : Type} {E : Effect → Prop} {g : σ → T} (h : Exec.Frame E g m)
    (hE : ∀ e, E e → e.IsQuiet) (hP : ∀ t es, (∀ e ∈ es, E e) → P t → P (t ++ es)) :
    Traces P m fun _ => P := by
  intro p d t ht
  obtain ⟨hes, -⟩ := h p d
  refine ⟨?_, fun _ _ => hP t _ hes ht⟩
  have hall : ∀ es t, (∀ e ∈ es, Effect.IsQuiet e) → history.All Effect.LeavesBare es t := by
    intro es
    induction es with
    | nil => exact fun _ _ => trivial
    | cons e es ih =>
      exact fun t h => ⟨(h e List.mem_cons_self).leavesBare t,
        ih _ fun e' he' => h e' (List.mem_cons_of_mem _ he')⟩
  exact hall _ t fun e he => hE e (hes e he)

/-- A program without effects keeps the history. -/
theorem silent (h : Exec.Frame (fun _ => False) (fun _ => ()) m) : Traces P m fun _ => P := by
  refine of_frame h (fun _ he => he.elim) fun t es hes ht => ?_
  rw [List.eq_nil_iff_forall_not_mem.mpr hes, List.append_nil]
  exact ht

/-- A program with quiet effects, after any history. -/
theorem quiet {T : Type} {E : Effect → Prop} {g : σ → T} (h : Exec.Frame E g m)
    (hE : ∀ e, E e → e.IsQuiet) : Traces (fun _ => True) m fun _ _ => True :=
  of_frame h hE fun _ _ _ _ => trivial

theorem zoom {τ : Type} {get : σ → τ} {set : τ → σ → σ} {n : Exec X τ α} (h : Traces P n R) :
    Traces P (Exec.zoom get set n) R := fun _ d t ht => h _ d t ht

theorem forM {f : β → Exec X σ PUnit} (hf : ∀ b, Traces P (f b) fun _ => P) (l : List β) :
    Traces P (l.forM f) fun _ => P := by
  induction l with
  | nil => exact .pure fun _ ht => ht
  | cons b l ih => exact .bind (hf b) fun _ => ih

theorem ite {c : Prop} [Decidable c] {m' : Exec X σ α} (hm : Traces P m R) (hm' : Traces P m' R) :
    Traces P (if c then m else m') R := by
  split
  · exact hm
  · exact hm'

theorem weaken {R' : α → List Effect → Prop} (h : Traces P m R) (hR : ∀ a t, R a t → R' a t) :
    Traces P m R' := fun p d t ht => ⟨(h p d t ht).1, fun a ha => hR _ _ ((h p d t ht).2 a ha)⟩

end Traces

/-! ### Flushes -/

theorem Unsynced.concat {t : List Effect} {f : FileName} {e : Effect} (h : Unsynced t f)
    (he : e ≠ .sync f) : Unsynced (t ++ [e]) f :=
  h.append (by simpa using he.symm)

/-- Writing the files of a segment leaves its `.meta` file bare. -/
theorem traces_segmentFlush (id : SegmentId) (window : ℕ) (entries : List (Bytes × MemEntry)) :
    Traces (fun _ => True) (segmentFlush (X := X) (σ := σ) id window entries)
      fun m t => m.segmentId = id ∧ Unsynced t (.seg m.segmentId .meta') := by
  unfold segmentFlush
  split
  · exact .throw _
  · have hquiet : ∀ e : Effect, e.IsSegment → Traces (fun _ => True) (Exec.effect e : Exec X σ Unit)
        fun _ _ => True := fun e he => .effect fun t _ => ⟨he.isQuiet.leavesBare t, trivial⟩
    refine .bind (hquiet _ trivial) fun _ => .bind (hquiet _ trivial) fun _ =>
      .bind (hquiet _ trivial) fun _ => .bind (hquiet _ trivial) fun _ =>
      .bind (hquiet _ trivial) fun _ => .bind (hquiet _ trivial) fun _ =>
      .bind (.silent (.lift _)) fun _ => .bind (.silent .now) fun _ => ?_
    have hmeta : ∀ m : SegmentMeta, Traces (fun _ => True)
        (Exec.effect (.metaWrite id m) : Exec X σ Unit) fun _ t => Unsynced t (.seg id .meta') :=
      fun m => .effect fun t _ => ⟨⟨False.elim, by simp⟩, unsynced_concat rfl⟩
    exact .bind (hmeta _) fun _ => .pure fun t ht => ⟨rfl, ht⟩

/-- Registering a segment whose `.meta` file is bare. -/
theorem traces_addSegment (m : SegmentMeta) :
    Traces (fun t => Unsynced t (.seg m.segmentId .meta')) (Manifest.addSegment (X := X) m)
      fun _ => BareMeta := by
  have hwrite : Traces (fun t => Unsynced t (.seg m.segmentId .meta'))
      (Manifest.writeFramedEntry (X := X) (addEntry m)) fun _ => BareMeta := by
    refine .ite (.throw _) (.bind (.silent .get) fun _ => .bind (.effect fun t ht => ⟨?_, ?_⟩)
      fun _ => .silent (.modify fun _ => rfl))
    · exact ⟨False.elim, by simp⟩
    · exact ⟨m, lastRegistered_concat rfl, ht.concat (by simp)⟩
  refine .bind hwrite fun _ => .bind (.effect fun t ht => ⟨⟨False.elim, by simp⟩, ?_⟩) fun _ =>
    .silent (.modify fun _ => rfl)
  -- the sync of the manifest
  obtain ⟨m', hlast, hbare⟩ := ht
  refine ⟨m', ?_, hbare.concat (by simp)⟩
  rw [lastRegistered_append_none (by simp [Effect.registers])]
  exact hlast

/-- An unlink keeps the `.meta` file bare. -/
theorem BareMeta.unlink {t : List Effect} (h : BareMeta t) (n : Lsn) : BareMeta (t ++ [.walUnlink n]) := by
  obtain ⟨m, hlast, hbare⟩ := h
  refine ⟨m, ?_, hbare.concat (by simp)⟩
  rw [lastRegistered_append_none (by simp [Effect.registers])]
  exact hlast

namespace Engine

/-- Finishing a flush unlinks WAL files over a bare `.meta` file. -/
theorem traces_finalizeFlush (m : SegmentMeta) (flushed : Lsn) :
    Traces (fun t => Unsynced t (.seg m.segmentId .meta'))
      (finalizeFlush (X := X) m flushed) fun _ _ => True := by
  have hstore : Traces (fun t => Unsynced t (.seg m.segmentId .meta'))
      (onStore (SegmentStore.finalizeSegment (X := X) m)) fun _ => BareMeta :=
    .zoom (.bind (.zoom (traces_addSegment m)) fun _ => .bind (.silent .fs) fun _ =>
      .bind (.silent (.lift _)) fun _ => .silent (.modify fun _ => rfl))
  have hretire : Traces BareMeta (retireWals (X := X)) fun _ => BareMeta := by
    refine .bind (.silent .get) fun _ => .bind (.silent .fs) fun _ => .forM (fun n => ?_) _
    exact .effect fun t ht => ⟨⟨fun _ => ht, by simp⟩, ht.unlink n⟩
  refine .bind hstore fun _ => .bind (.silent (.modify fun _ => rfl)) fun _ => ?_
  exact hretire.weaken fun _ _ _ => trivial

theorem traces_flushToSegments :
    Traces (fun _ => True) (flushToSegments (X := X)) fun _ _ => True := by
  refine .bind (.silent fun p d => ⟨((beginFlush_frame fun _ => False) p d).1, rfl⟩) fun work => ?_
  cases work with
  | none => exact .throw _
  | some w =>
    refine .bind (traces_segmentFlush _ _ _) fun m => ?_
    refine .bind (R := fun _ _ => True) ?_ fun _ => .pure fun _ _ => trivial
    intro p d t ht
    exact traces_finalizeFlush m _ p d t ht.2

theorem traces_put (ns key val : Bytes) :
    Traces (fun _ => True) (put (X := X) ns key val) fun _ _ => True := by
  refine .bind (.quiet (checkPut_frame ns) fun _ h => h.isQuiet) fun _ =>
    .bind (.quiet (writeEntry_frame ns key val 0) fun _ h => h.isQuiet) fun lsn =>
    .bind (.silent .get) fun e => .ite ?_ (.pure fun _ _ => trivial)
  exact .bind traces_flushToSegments fun _ => .pure fun _ _ => trivial

end Engine

/-! ### Imports -/

/-- An import unlinks no WAL file, and it syncs only the `.meta` file of the id it takes. -/
def Effect.ImportsAs (id : SegmentId) (e : Effect) : Prop :=
  ¬ e.IsUnlink ∧ ∀ id', e = .sync (.seg id' .meta') → id' = id

theorem Effect.IsLog.importsAs {e : Effect} (h : e.IsLog) (id : SegmentId) : e.ImportsAs id :=
  ⟨h.isQuiet.1, fun id' he => absurd he (h.isQuiet.2 id')⟩

namespace Engine

theorem wp_importSegment_effects (dat : Dat) (size : ℕ) (hash : Bytes) {e : Engine} {clock : ℕ → ℕ}
    {fs : Fs} :
    Prog.wp (importSegment (X := X) dat size hash)
      ⟨fun _ _ _ => True, fun _ _ _ => True, fun _ _ => True,
        fun eff _ => eff.ImportsAs e.segmentStore.nextSegmentId⟩ ⟨e, clock⟩ fs := by
  simp only [importSegment, Prog.wp_bind, Exec.wp_get, Prog.wp_ite, Prog.wp_pure, Exec.wp_effect]
  split
  · trivial
  split
  · trivial
  refine fun _ => ⟨⟨id, by simp⟩, fun _ => ⟨⟨id, by simp⟩, ?_⟩⟩
  split
  · simp only [Prog.wp_pure]
  · simp only [Prog.wp_pure]
  rw [Prog.wp_bind]
  refine Prog.wp_mono ((Prog.Frame.foldlM importEntry_frame _ _).wp _) ?_ (fun _ _ _ _ => trivial)
    (fun _ _ h => h) fun eff _ _ heff => Effect.IsLog.importsAs heff _
  rintro g ⟨e₁, clock₁⟩ fs₁ hframe
  have hnext : e₁.segmentStore.nextSegmentId = e.segmentStore.nextSegmentId := by
    rw [show e₁.segmentStore = e.segmentStore from congrArg Prod.fst hframe]
  simp only [onStore, SegmentStore.allocSegmentId, onWal, WalWriter.fsync, writeSidecars,
    SegmentStore.addImportedSegment, SegmentStore.onManifest, Manifest.addSegment,
    Manifest.writeFramedEntry, Prog.wp_bind, Exec.wp_zoom, Exec.wp_get, Exec.wp_modify,
    Prog.wp_pure, Exec.wp_effect, Exec.wp_now, Exec.wp_fs, Prog.wp_lift, hnext]
  refine fun _ => ⟨⟨id, by simp⟩, fun _ => ⟨⟨id, by simp⟩, fun _ => ⟨⟨id, by simp⟩, fun _ =>
    ⟨⟨id, by simp⟩, fun _ => ⟨⟨id, by simp⟩, fun _ => ⟨⟨id, by simp⟩, fun _ => ⟨⟨id, by simp⟩,
    fun _ => ⟨⟨id, ?_⟩, ?_⟩⟩⟩⟩⟩⟩⟩⟩
  · -- the sync of the `.meta` file
    rintro id' ⟨⟩
    rfl
  generalize openReader e.segmentStore.nextSegmentId _ = reader
  cases reader with
  | error => trivial
  | ok reader =>
    simp only [Prog.result_ok, Prog.wp_ite, Prog.wp_throw, Prog.wp_bind, Exec.wp_get, Exec.wp_effect,
      Exec.wp_modify]
    split
    · trivial
    · exact fun _ => ⟨⟨id, by simp⟩, fun _ => ⟨⟨id, by simp⟩, trivial⟩⟩

end Engine

/-! ### Calls -/

section Lists

variable {P : Effect → Prop} {t es : List Effect}

theorem not_sync_meta (h : history.All Effect.LeavesBare es t) (id : SegmentId) :
    Effect.sync (.seg id .meta') ∉ es := by
  induction es generalizing t with
  | nil => exact List.not_mem_nil
  | cons e es ih =>
    intro hmem
    rcases List.mem_cons.mp hmem with heq | hmem
    · exact h.1.2 id heq.symm
    · exact ih h.2 hmem

theorem unlinks_bare (h : history.All Effect.LeavesBare es t) :
    history.All (fun e t => e.IsUnlink → BareMeta t) es t := h.mono fun _ _ hbare => hbare.1

/-- Effects that unlink nothing. -/
theorem history_all_of_not_isUnlink {P : List Effect → Prop} (h : ∀ e ∈ es, ¬ e.IsUnlink) :
    history.All (fun e t => e.IsUnlink → P t) es t := by
  induction es generalizing t with
  | nil => trivial
  | cons e es ih =>
    exact ⟨fun he => absurd he (h e List.mem_cons_self),
      ih fun e' he' => h e' (List.mem_cons_of_mem _ he')⟩

end Lists

/-- Flights that are written have bare `.meta` files. -/
def FlightsBare (flights : List Flight) (t : List Effect) : Prop :=
  ∀ f ∈ flights, ∀ m, f.written = some m →
    m.segmentId = f.work.segmentId ∧ Unsynced t (.seg m.segmentId .meta')

theorem FlightsBare.append {flights : List Flight} {t es : List Effect} (h : FlightsBare flights t)
    (hes : ∀ f ∈ flights, .sync (.seg f.work.segmentId .meta') ∉ es) :
    FlightsBare flights (t ++ es) := by
  intro f hf m hm
  obtain ⟨hid, hbare⟩ := h f hf m hm
  exact ⟨hid, hbare.append (hid ▸ hes f hf)⟩

theorem FlightsBare.anti {flights flights' : List Flight} {t : List Effect}
    (h : FlightsBare flights t) (hsub : ∀ f ∈ flights', f ∈ flights) : FlightsBare flights' t :=
  fun f hf => h f (hsub f hf)

/-- An outcome leaves `.meta` files bare: at each unlink that of the segment registered last, in the
end those of the flights. -/
structure Outcome.Bare (o : Outcome) (t : List Effect) : Prop where
  unlinks : history.All (fun e t => e.IsUnlink → BareMeta t) o.effects t
  flights : FlightsBare o.flights (t ++ o.effects)

namespace World

variable {w : World} {clock : ℕ → ℕ} {t : List Effect}

theorem bare_idle (h : FlightsBare w.flights t) (ok : Bool) : (w.idle ok).Bare t :=
  ⟨trivial, (List.append_nil t).symm ▸ h⟩

/-- A method of the engine. -/
theorem bare_onEngine {m : Exec X Engine α} {Q : α → List Effect → Prop}
    (h : FlightsBare w.flights t) (hm : Traces (fun _ => True) m Q) :
    (w.onEngine X clock m).Bare t := by
  cases he : w.engine with
  | none =>
    simp only [onEngine, he]
    exact bare_idle h false
  | some e =>
    obtain ⟨hall, -⟩ := hm ⟨e, clock⟩ w.fs t trivial
    have hflights : FlightsBare w.flights (t ++ (m.run ⟨e, clock⟩ w.fs).2.2) :=
      h.append fun f _ => not_sync_meta hall _
    simp only [onEngine, he]
    split <;> exact ⟨unlinks_bare hall, hflights⟩

theorem bare_quiet {T : Type} {E : Effect → Prop} {g : Engine → T} {m : Exec X Engine α}
    (h : FlightsBare w.flights t) (hm : Exec.Frame E g m) (hE : ∀ e, E e → e.IsQuiet) :
    (w.onEngine X clock m).Bare t := bare_onEngine h (.quiet hm hE)

theorem bare_beginFlush (h : FlightsBare w.flights t) :
    (w.perform X .beginFlush clock).Bare t := by
  cases he : w.engine with
  | none =>
    simp only [perform, onEngine, he]
    exact bare_idle h false
  | some e =>
    obtain ⟨hnone, -⟩ := Engine.beginFlush_frame (X := X) (fun _ => False) ⟨e, clock⟩ w.fs
    have hnil := List.eq_nil_iff_forall_not_mem.mpr hnone
    simp only [perform, onEngine, he, hnil]
    split
    · refine ⟨trivial, ?_⟩
      rw [List.append_nil]
      intro f hf m hm
      rcases List.mem_append.mp hf with hf | hf
      · exact h f hf m hm
      · -- a flight that has just begun has written nothing
        obtain ⟨work, -, rfl⟩ : ∃ work, _ ∧ (⟨work, none⟩ : Flight) = f := by simpa using hf
        cases hm
    · exact ⟨trivial, (List.append_nil t).symm ▸ h⟩

theorem bare_execute (h : FlightsBare w.flights t) (i : ℕ) :
    (w.perform X (.execute i) clock).Bare t := by
  simp only [perform, executeFlight]
  split
  · exact bare_idle h false
  case h_2 f hf =>
    obtain ⟨hall, hok⟩ := traces_segmentFlush (X := X) (σ := Unit) f.work.segmentId
      f.work.cohortWindowSecs f.work.entries ⟨(), clock⟩ w.fs t trivial
    have hkept : FlightsBare w.flights (t ++ (f.work.execute.run ⟨(), clock⟩ w.fs).2.2) :=
      h.append fun _ _ => not_sync_meta hall _
    have hunlinks := unlinks_bare hall
    split
    case h_1 m hres =>
      refine ⟨hunlinks, fun f' hf' m' hm' => ?_⟩
      rcases List.mem_or_eq_of_mem_set hf' with hf' | rfl
      · exact hkept f' hf' m' hm'
      · cases hm'
        exact hok m hres
    · exact ⟨hunlinks, hkept.anti fun _ => List.mem_of_mem_eraseIdx⟩

theorem bare_finalizeFlush (h : FlightsBare w.flights t) (i : ℕ) :
    (w.perform X (.finalizeFlush i) clock).Bare t := by
  simp only [perform]
  split
  case h_1 e work m he hf =>
    obtain ⟨-, hbare⟩ := h _ (List.mem_of_getElem? hf) m rfl
    obtain ⟨hall, -⟩ := Engine.traces_finalizeFlush (X := X) m work.flushedMaxLsn ⟨e, clock⟩ w.fs t hbare
    have hkept := h.append fun f _ => not_sync_meta hall f.work.segmentId
    have hunlinks := unlinks_bare hall
    simp only [onEngine, he]
    split <;> exact ⟨hunlinks, hkept.anti fun _ => List.mem_of_mem_eraseIdx⟩
  · exact bare_idle h false

/-- An import takes an id that no flush in flight holds. -/
def ImportsFresh (w : World) (c : Call) : Prop :=
  match c.op with
  | .importSegment _ _ _ => ∀ e ∈ w.engine, e.segmentStore.nextSegmentId ∉ w.reservedIds
  | _ => True

theorem bare_importSegment (h : FlightsBare w.flights t) (dat : Dat) (size : ℕ) (hash : Bytes)
    (hfresh : ∀ e ∈ w.engine, e.segmentStore.nextSegmentId ∉ w.reservedIds) :
    (w.perform X (.importSegment dat size hash) clock).Bare t := by
  cases he : w.engine with
  | none =>
    simp only [perform, onEngine, he]
    exact bare_idle h false
  | some e =>
    have heffects := (Prog.wp_guar (@Engine.wp_importSegment_effects X dat size hash e clock w.fs)
      Device.all_true).forall_mem
    have hkept : FlightsBare w.flights
        (t ++ ((Engine.importSegment (X := X) dat size hash).run ⟨e, clock⟩ w.fs).2.2) := by
      refine h.append fun f hf hsync => hfresh e he ?_
      rw [← (heffects _ hsync).2 _ rfl]
      exact mem_idsOf hf
    simp only [perform, onEngine, he]
    split <;> exact ⟨history_all_of_not_isUnlink fun e he => (heffects e he).1, hkept⟩

theorem bare_open (h : FlightsBare w.flights t) (config : EdgestoreConfig) :
    (w.perform X (.open config) clock).Bare t := by
  have hframe : Exec.Frame Effect.IsQuiet (fun _ => ()) (Engine.open (X := X) (σ := Unit) config) :=
    .bind .fs fun _ => .bind (.lift _) fun _ =>
      .bind ((Engine.openWal_frame _ _ _).mono fun _ he => he.isQuiet) fun _ =>
      .bind ((SegmentStore.open_frame _ _).mono fun _ he => he.isQuiet) fun _ => .pure _
  simp only [perform]
  split
  · exact bare_idle h false
  · obtain ⟨hall, -⟩ := Traces.quiet hframe (fun _ he => he) ⟨(), clock⟩ w.fs t trivial
    exact ⟨unlinks_bare hall, h.append fun f _ => not_sync_meta hall _⟩

theorem bare_close (h : FlightsBare w.flights t) : (w.perform X .close clock).Bare t := by
  obtain ⟨hunlinks, hkept⟩ : (w.onEngine X clock Engine.flush).Bare t :=
    bare_quiet h Engine.flush_frame fun _ he => he.isQuiet
  exact ⟨hunlinks, hkept⟩

/-- **Every call** leaves `.meta` files bare. -/
theorem bare_perform {c : Call} (h : FlightsBare w.flights t) (hc : w.ImportsFresh c) :
    (w.perform X c.op c.clock).Bare t := by
  obtain ⟨op, clock, stop⟩ := c
  cases op with
  | «open» config => exact bare_open h config
  | close => exact bare_close h
  | put ns key val => exact bare_onEngine h (Engine.traces_put _ _ _)
  | putWithTtl ns key val ttl =>
    exact bare_quiet h (Engine.putWithTtl_frame _ _ _ _) fun _ he => he.isQuiet
  | delete ns key => exact bare_quiet h (Engine.delete_frame _ _) fun _ he => he.isQuiet
  | commit ops => exact bare_quiet h (runTransaction_frame _) fun _ he => he.isQuiet
  | flush => exact bare_quiet h Engine.flush_frame fun _ he => he.isQuiet
  | flushToSegments => exact bare_onEngine h Engine.traces_flushToSegments
  | beginFlush => exact bare_beginFlush h
  | execute i => exact bare_execute h i
  | finalizeFlush i => exact bare_finalizeFlush h i
  | abandon i =>
    exact ⟨trivial, (List.append_nil t).symm ▸ h.anti fun _ => List.mem_of_mem_eraseIdx⟩
  | compactOnce order => exact bare_quiet h (Engine.compactOnce_frame _) fun _ he => he.isQuiet
  | stripTextIndex id => exact bare_quiet h (Engine.stripIndex_frame _ _) fun _ he => he.isQuiet
  | stripVectorIndex id => exact bare_quiet h (Engine.stripIndex_frame _ _) fun _ he => he.isQuiet
  | importSegment dat size hash => exact bare_importSegment h dat size hash hc
  | snapshot =>
    exact bare_onEngine h (.bind (.silent .get) fun _ => .bind (.silent (.modify fun _ => rfl))
      fun _ => .silent (.pure _))
  | dropSnapshot id => exact bare_onEngine h (.silent (.modify fun _ => rfl))

/-! ### Runs -/

/-- The effects of a call; a crash cuts them short. -/
def happened (X : Externals) (w : World) (c : Call) : List Effect :=
  match c.stop with
  | none => w.effects X c
  | some (n, _) => (w.effects X c).take n

/-- The effects of a run. -/
def trace (X : Externals) (w : World) : List Call → List Effect
  | [] => []
  | c :: calls => w.happened X c ++ trace X (w.step X c) calls

/-- Whenever a WAL file is unlinked, all that is needed for the covering segment is synced. -/
def RetiresDurably (X : Externals) (calls : List Call) : Prop :=
  history.All (fun e t => e.IsUnlink → SegmentDurable t) (trace X {} calls) []

theorem bare_step {c : Call} (h : FlightsBare w.flights t) (hc : w.ImportsFresh c) :
    history.All (fun e t => e.IsUnlink → BareMeta t) (w.happened X c) t ∧
      FlightsBare (w.step X c).flights (t ++ w.happened X c) := by
  obtain ⟨hunlinks, hflights⟩ := bare_perform (X := X) h hc
  obtain ⟨op, clock, stop⟩ := c
  cases stop with
  | none => exact ⟨hunlinks, hflights⟩
  | some cut =>
    refine ⟨?_, fun f hf => (by cases hf)⟩
    rw [← List.take_append_drop cut.1 (w.perform X op clock).effects] at hunlinks
    exact (Device.all_append.mp hunlinks).1

/-- **At every unlink** of a run the segment registered last has a bare `.meta` file. -/
theorem bareMeta_of_unlink {calls : List Call} (hcalls : Run.All (step X) ImportsFresh w calls)
    (h : FlightsBare w.flights t) :
    history.All (fun e t => e.IsUnlink → BareMeta t) (trace X w calls) t := by
  induction calls generalizing w t with
  | nil => trivial
  | cons c calls ih =>
    obtain ⟨hc, hcalls⟩ := hcalls
    obtain ⟨hunlinks, hflights⟩ := bare_step (X := X) h hc
    refine Device.all_append.mpr ⟨hunlinks, ?_⟩
    rw [history_run]
    exact ih hcalls hflights

/-- A run that retires WAL files durably retires none. -/
theorem not_isUnlink_of_retiresDurably {calls : List Call}
    (h : Run.All (step X) ImportsFresh {} calls) (hdurable : RetiresDurably X calls) :
    ∀ e ∈ trace X {} calls, ¬ e.IsUnlink := by
  have hbare : history.All (fun e t => e.IsUnlink → BareMeta t) (trace X {} calls) [] :=
    bareMeta_of_unlink h fun f hf => (by cases hf)
  have hnone : history.All (fun e _ => ¬ Effect.IsUnlink e) (trace X {} calls) [] :=
    (Device.all_and.mpr ⟨hbare, hdurable⟩).mono fun e t ht hunlink =>
      (ht.1 hunlink).not_durable (ht.2 hunlink)
  exact hnone.forall_mem

/-- **A run retires WAL files durably** if and only if it retires none, as long as its imports take ids
that no flush in flight holds. -/
theorem retiresDurably_iff {calls : List Call} (h : Run.All (step X) ImportsFresh {} calls) :
    RetiresDurably X calls ↔ ∀ e ∈ trace X {} calls, ¬ e.IsUnlink :=
  ⟨not_isUnlink_of_retiresDurably h, fun hnone => history_all_of_not_isUnlink hnone⟩

/-- A put that the age of the WAL file rotates, and a flush, which unlinks that file. -/
def retiringRun : List Call :=
  [{ op := .open {} }, { op := .put [1] [1] [1], clock := atSecs 61 }, { op := .flushToSegments }]

theorem retiresDurably_iff_retiringRun :
    RetiresDurably plainExternals retiringRun ↔
      ∀ e ∈ trace plainExternals {} retiringRun, ¬ e.IsUnlink :=
  retiresDurably_iff ⟨trivial, trivial, trivial, trivial⟩

/-- The flush unlinks the WAL file of the put before the `.meta` file of its segment is synced. When a
crash tears that file, the next opening fails. -/
theorem meta_lost_with_wal :
    ¬ RetiresDurably plainExternals retiringRun ∧
      .walUnlink 0 ∈ trace plainExternals {} retiringRun ∧
      (trace plainExternals {} retiringRun).filterMap
          (fun | .walAppend n _ => some n | _ => none) = [0] ∧
      ((Engine.open (X := plainExternals) (σ := Unit) {}).run ⟨(), fun _ => 0⟩
        ((Run.from (step plainExternals) {} retiringRun).fs.setSegment 0
          fun f => { f with segMeta := .torn })).1.isOk = false := by
  have hunlink : .walUnlink 0 ∈ trace plainExternals {} retiringRun := by decide +kernel
  have hfresh : Run.All (step plainExternals) ImportsFresh {} retiringRun :=
    ⟨trivial, trivial, trivial, trivial⟩
  refine ⟨fun hdurable => ?_, hunlink, by decide +kernel, by decide +kernel⟩
  exact not_isUnlink_of_retiresDurably hfresh hdurable _ hunlink trivial

end World
