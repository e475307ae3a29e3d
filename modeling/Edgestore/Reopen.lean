import Edgestore.Settled

/-!
# Opening succeeds

An engine opens on a well-formed directory, unless the header of the last WAL file is cut short or the
rotation that is due asks for a file that exists. Behind an engine that was closed, the header never is.

## Main definitions

* `HeadersWhole fs`: the last WAL file has its header
* `OpensFresh X fs config clock`: a rotation that is due asks for a new file
* `Reopened X R fs e fs'`: what opening an engine leaves
* `World.Shows X w ns key v`: the open engine returns a value

## Main results

* `Engine.wp_open_succeeds`, `World.opens`: opening succeeds
* `World.headersWhole_close`: closing leaves a header
* `World.shows_of_settles`: the open engine returns the value of a settled key
-/

variable {X : Externals} {R : List SegmentId} {fs : Fs} {σ : Type}

/-- The last WAL file, if there is one, has its header. -/
def HeadersWhole (fs : Fs) : Prop :=
  ∀ p ∈ fs.wals.entries.getLast?, walHeader.length ≤ p.2.length

instance (fs : Fs) : Decidable (HeadersWhole fs) := inferInstanceAs (Decidable (∀ p ∈ _, _))

/-- If the last WAL file is due for rotation when it is opened, the file that the rotation asks for does
not exist. -/
def OpensFresh (X : Externals) (fs : Fs) (config : EdgestoreConfig) (clock : ℕ → ℕ) : Prop :=
  ∀ p ∈ fs.wals.entries.getLast?,
    (openedWriter config p.1 p.2 (clock 0)).needsRotation (unixSecs (clock 1)) = true →
      fs.wals.get (topLsn (walSequence X fs) + 1) = none

instance (X : Externals) (fs : Fs) (config : EdgestoreConfig) (clock : ℕ → ℕ) :
    Decidable (OpensFresh X fs config clock) := inferInstanceAs (Decidable (∀ p ∈ _, _))

/-- A name above that of the last file is free. -/
theorem DueAhead.opensFresh {config : EdgestoreConfig} {clock : ℕ → ℕ}
    (h : DueAhead X fs config clock) : OpensFresh X fs config clock := by
  intro p hp hdue
  obtain ⟨pre, heq⟩ := List.getLast?_eq_some_iff.mp hp
  have hlatest : fs.Latest p.1 p.2 := ⟨pre, heq⟩
  rw [SortedMap.get, find_eq_none_iff]
  exact fun q hq => (Nat.lt_succ_of_le ((hlatest.le q hq).trans (h p hp hdue))).ne

/-- Creating a WAL file that does not exist leaves the log. -/
theorem wp_createWal_fresh {n : Lsn} {config : EdgestoreConfig} {p : Process σ}
    (hn : fs.wals.get n = none) :
    Prog.wp (WalWriter.create (X := X) n config)
      ⟨fun _ _ fs' => walSequence X fs' = walSequence X fs ∧ SameStore fs fs', fun _ _ _ => False,
        fun _ _ => True, fun _ _ => True⟩ p fs := by
  simp only [WalWriter.create, Prog.wp_bind, Exec.wp_fs, hn, Option.isSome_none, Prog.wp_ite,
    Exec.wp_effect, Exec.wp_now, Prog.wp_pure]
  refine fun _ => ⟨trivial, fun _ => ⟨trivial, ?_, rfl, rfl, rfl⟩⟩
  have hcreated : (applyEffect X (.walCreate n) fs).wals.get n = some [] := SortedMap.get_insert_self ..
  exact (LeavesLog.header hcreated).1.trans (LeavesLog.create hn).1

/-- **Opening the WAL succeeds** if its last file has a header and its name is free. -/
theorem wp_openWal_succeeds {config : EdgestoreConfig} {p : Process σ} (hwal : WalFiles X fs)
    (hfresh : OpensFresh X fs config p.clock) (hheader : HeadersWhole fs) :
    Prog.wp (Engine.openWal (X := X) (σ := σ) config (topLsn (walSequence X fs)))
      ⟨fun _ _ fs' => walSequence X fs' = walSequence X fs ∧ SameStore fs fs', fun _ _ _ => False,
        fun _ _ => True, fun _ _ => True⟩ p fs := by
  simp only [Engine.openWal, Prog.wp_bind, Exec.wp_fs]
  cases hlast : fs.wals.entries.getLast? with
  | none =>
    have hnil : fs.wals.entries = [] := List.getLast?_eq_none_iff.mp hlast
    have hn : fs.wals.get (topLsn (walSequence X fs)) = none := by
      rw [SortedMap.get, hnil]
      rfl
    exact wp_createWal_fresh hn
  | some latest =>
    obtain ⟨n, bs⟩ := latest
    obtain ⟨pre, heq⟩ := List.getLast?_eq_some_iff.mp hlast
    have hlatest : fs.Latest n bs := ⟨pre, heq⟩
    simp only [Prog.wp_bind, WalWriter.open, Exec.wp_fs, hlatest.get_eq, Prog.wp_lift]
    rcases hwal (n, bs) (by simp [heq]) with hshort | ⟨rs, hholds⟩
    · exact absurd (hheader (n, bs) hlast) (not_le.mpr hshort)
    · simp only [hholds.header_ok, Prog.result_ok, Exec.wp_now, Prog.wp_pure, Prog.wp_ite]
      split
      case isTrue hdue => exact wp_createWal_fresh (hfresh (n, bs) hlast hdue)
      case isFalse => exact ⟨trivial, rfl, rfl, rfl⟩

/-- What opening an engine leaves: the memtable is recovered, the log and the segments are as they were. -/
structure Reopened (X : Externals) (R : List SegmentId) (fs : Fs) (e : Engine) (fs' : Fs) : Prop where
  inv : e.Inv X R fs'
  memtable : e.memtable = replayed .empty (walSequence X fs)
  sequence : walSequence X fs' = walSequence X fs
  registered : registered X fs' = registered X fs
  segs : fs'.segs = fs.segs

/-- A key that was settled is settled in the engine that is opened. -/
theorem Reopened.settled {m : MemTable} {k : Bytes} {v : Option Bytes} {e : Engine} {fs' : Fs}
    (h : Reopened X R fs e fs') (hs : Settled X m fs k v) : Settled X e.memtable fs' k v := by
  rw [h.memtable]
  refine hs.recovered.congr (recordsOf_congr h.registered h.segs k) ?_
  rw [replayedEntry, replayedEntry, h.sequence]

/-- Without segments, the recovered memtable settles every key. -/
theorem settled_of_recovered (hreg : registered X fs = []) (k : Bytes) :
    Settled X (replayed .empty (walSequence X fs)) fs k ((replayedEntry X fs k).bind MemEntry.live) := by
  have hnil : recordsOf X fs k = [] := by
    rw [recordsOf_eq, registeredIds, hreg]
    rfl
  refine ⟨?_, fun r hr => ?_, fun r hr => hr, fun r hr => ?_⟩
  · rw [hnil, List.getLast?_nil, Option.or_none]
    rfl
  · have hr : (replayed .empty (walSequence X fs)).get k = some r := by simpa [hnil] using hr.1
    rw [replayedEntry, hr]
    rfl
  · rw [hr]
    rfl

/-- **Opening an engine succeeds** on a well-formed directory whose log has its headers. -/
theorem Engine.wp_open_succeeds {config : EdgestoreConfig} {p : Process σ} (hd : DiskInv X fs)
    (hlog : fs.manifest = none ∨ ∃ xs, ManifestLog X fs xs)
    (hR : ∀ id ∈ R, id ∉ registeredIds X fs ∧ ∃ id' ∈ registeredIds X fs, id ≤ id')
    (hw : asI64 config.cohortWindowSecs ≠ 0) (hwal : WalFiles X fs)
    (hfresh : OpensFresh X fs config p.clock) (hheader : HeadersWhole fs) :
    Prog.wp (Engine.open (X := X) (σ := σ) config)
      ⟨fun e _ fs' => Reopened X R fs e fs', fun _ _ _ => False, StoreRely X, fun _ _ => True⟩ p fs := by
  obtain ⟨res, hrec, hlsn, -⟩ := recoverFromWal_eq (fun r hr => (hwal.fits r hr).nsBytes_le) .empty
  have hopen : Prog.wp (Engine.open (X := X) (σ := σ) config)
      ⟨fun e _ fs' => e.memtable = replayed .empty (walSequence X fs) ∧
          walSequence X fs' = walSequence X fs,
        fun _ _ _ => False, StoreRely X, fun _ _ => True⟩ p fs := by
    simp only [Engine.open, Prog.wp_bind, Exec.wp_fs, Prog.wp_lift, hrec, Prog.result_ok, hlsn]
    refine Prog.wp_mono (wp_openWal_succeeds hwal hfresh hheader) ?_ (fun _ _ _ he => he)
      (fun _ _ _ => trivial) fun _ _ _ _ => trivial
    rintro wal q fs₁ ⟨hseq, hsame⟩
    have hwals : Prog.wp (SegmentStore.open (X := X) (σ := σ) config.cohortWindowSecs)
        ⟨fun _ _ d => True ∧ d.wals = fs₁.wals, fun _ _ d => True ∧ d.wals = fs₁.wals, StoreRely X,
          fun _ _ => True⟩ q fs₁ :=
      Prog.wp_inv (fun f d _ hf hd => ⟨trivial, (Effect.IsSegment.wals hf d).trans hd⟩)
        (Prog.wp_imp ((SegmentStore.open_frame config.cohortWindowSecs fun _ => ()).wp (StoreRely X))
          (fun _ _ _ _ => trivial) fun _ _ _ _ => trivial) rfl
    refine Prog.wp_mono (Prog.wp_and (SegmentStore.wp_open (R := R) (hd.congr hsame) ?_ ?_ hw) hwals) ?_
      (fun _ _ _ he => he.1.elim) (fun f _ hr => ⟨hr, hr⟩) fun _ _ _ _ => trivial
    · rcases hlog with hnone | ⟨xs, hxs⟩
      · exact .inl (hsame.manifest.trans hnone)
      · exact .inr ⟨xs, hxs.congr hsame.manifest⟩
    · rw [hsame.registeredIds_eq]
      exact hR
    · rintro s q' fs₂ ⟨-, -, hwals⟩
      exact (Prog.wp_pure _).mpr ⟨rfl, (walSequence_congr hwals).trans hseq⟩
  refine Prog.wp_mono (Prog.wp_and hopen (Engine.wp_open hd hlog hR hw)) ?_ (fun _ _ _ he => he.1)
    (fun _ _ hr => ⟨hr, hr⟩) fun _ _ _ _ => trivial
  rintro e q fs' ⟨⟨hmem, hseq⟩, hinv, hreg, hsegs⟩
  exact ⟨hinv, hmem, hseq, hreg, hsegs⟩

namespace World

variable {w : World} {clock : ℕ → ℕ}

/-- A method leaves its effects and its engine, whether it fails or not. -/
theorem onEngine_some {α : Type} {m : Exec X Engine α} {land : α → List Flight} {e : Engine}
    (he : w.engine = some e) :
    (w.onEngine X clock m land).effects = (m.run ⟨e, clock⟩ w.fs).2.2 ∧
      (w.onEngine X clock m land).engine = some (m.run ⟨e, clock⟩ w.fs).2.1.state ∧
      (w.onEngine X clock m land).ok = (m.run ⟨e, clock⟩ w.fs).1.isOk := by
  simp only [onEngine, he]
  generalize m.run ⟨e, clock⟩ w.fs = r
  obtain ⟨_ | a, q, es⟩ := r
  · exact ⟨rfl, rfl, rfl⟩
  · exact ⟨rfl, rfl, rfl⟩

/-- The outcome of a method, by its rule. -/
theorem onEngine_outcome {α : Type} {m : Exec X Engine α} {ok : α → Process Engine → Fs → Prop}
    {error : EdgestoreError → Process Engine → Fs → Prop} {rely guar : Effect → Fs → Prop} {e : Engine}
    (he : w.engine = some e) (hrely : (disk X).All rely (w.onEngine X clock m).effects w.fs)
    (hwp : Prog.wp m ⟨ok, error, rely, guar⟩ ⟨e, clock⟩ w.fs) :
    ∃ q, (w.onEngine X clock m).engine = some q.state ∧
      (((w.onEngine X clock m).ok = true ∧
          ∃ a, ok a q ((disk X).run (w.onEngine X clock m).effects w.fs)) ∨
        ((w.onEngine X clock m).ok = false ∧
          ∃ err, error err q ((disk X).run (w.onEngine X clock m).effects w.fs))) := by
  obtain ⟨heffects, hengine, hok⟩ :
      (w.onEngine X clock m).effects = (m.run ⟨e, clock⟩ w.fs).2.2 ∧
        (w.onEngine X clock m).engine = some (m.run ⟨e, clock⟩ w.fs).2.1.state ∧
        (w.onEngine X clock m).ok = (m.run ⟨e, clock⟩ w.fs).1.isOk := onEngine_some he
  rw [heffects] at hrely ⊢
  have hres := Prog.wp_result hwp hrely
  rw [hengine, hok]
  generalize m.run ⟨e, clock⟩ w.fs = r at hres ⊢
  obtain ⟨err | a, q, es⟩ := r
  · exact ⟨q, rfl, .inr ⟨rfl, err, hres⟩⟩
  · exact ⟨q, rfl, .inl ⟨rfl, a, hres⟩⟩

theorem flights_onEngine {α : Type} {m : Exec X Engine α} :
    (w.onEngine X clock m).flights = w.flights := by
  unfold onEngine
  cases w.engine with
  | none => rfl
  | some e =>
    simp only
    generalize m.run ⟨e, clock⟩ w.fs = r
    obtain ⟨_ | a, q, es⟩ := r
    · rfl
    · rfl

/-- A method on a world without an engine does nothing. -/
theorem onEngine_none {α : Type} {m : Exec X Engine α} {land : α → List Flight}
    (he : w.engine = none) : w.onEngine X clock m land = w.idle false := by
  simp only [onEngine, he]

/-- **Opening succeeds** where files are within the limits of their readers, unless the last WAL file has
lost its header or the name of a new one is taken. -/
theorem opens {config : EdgestoreConfig} (hw : WorldInv X w) (hwal : WalFiles X w.fs)
    (he : w.engine = none) (hc : w.Admitted X ⟨.open config, clock, none⟩)
    (hfresh : OpensFresh X w.fs config clock) (hheader : HeadersWhole w.fs) :
    ∃ e, (w.step X ⟨.open config, clock, none⟩).engine = some e ∧
      Reopened X w.reservedIds w.fs e (w.step X ⟨.open config, clock, none⟩).fs := by
  have hopen := Engine.wp_open_succeeds (σ := Unit) (p := ⟨(), clock⟩) hw.fs.disk hw.log hc.ids
    hc.window hwal hfresh hheader
  have hrely : (disk X).All (StoreRely X) (w.effects X ⟨.open config, clock, none⟩) w.fs :=
    Device.all_and.mpr ⟨(effectsMeet_iff hc.stop).mp hc.limits, (hw.all_clean hc).mono fun _ _ h => h.2⟩
  simp only [step, perform, effects, he] at hrely ⊢
  have hres := Prog.wp_result hopen hrely
  generalize (Engine.open (X := X) (σ := Unit) config).run ⟨(), clock⟩ w.fs = r at hres ⊢
  obtain ⟨_ | e, q, es⟩ := r
  · exact hres.elim
  · exact ⟨e, rfl, hres⟩

theorem WalAdmitted.opensFresh {config : EdgestoreConfig} (he : w.engine = none)
    (hc : w.WalAdmitted X ⟨.open config, clock, none⟩) : OpensFresh X w.fs config clock := by
  have hahead := hc.ahead
  simp only [RotatesAhead, he] at hahead
  exact DueAhead.opensFresh fun p hp => (hahead p hp).1

/-- Closing leaves the files. -/
theorem fs_close (clock : ℕ → ℕ) {e : Engine} (he : w.engine = some e) :
    (w.step X ⟨.close, clock, none⟩).fs = w.fs := by
  simp only [step, perform, onEngine, he]
  rfl

/-- **Closing leaves a header** in the last WAL file. -/
theorem headersWhole_close (clock : ℕ → ℕ) {e : Engine} (hwal : WalInv X w) (he : w.engine = some e) :
    (w.step X ⟨.close, clock, none⟩).engine = none ∧
      HeadersWhole (w.step X ⟨.close, clock, none⟩).fs := by
  obtain ⟨bs, rs, ⟨pre, hpre⟩, hholds, -⟩ := (hwal.engine e he).atEnd
  refine ⟨rfl, fun p hp => ?_⟩
  rw [fs_close clock he, hpre, List.getLast?_concat] at hp
  cases hp
  obtain ⟨body, rfl, -⟩ := hholds
  simp

/-- The open engine returns a value for a key: `get` does, and `range` does. -/
def Shows (X : Externals) (w : World) (ns key : Bytes) (v : Option Bytes) : Prop :=
  ∃ e, w.engine = some e ∧ e.Reads X w.fs ns key v

/-- What the open engine returns is one value. -/
theorem Shows.unique {ns key : Bytes} {v v' : Option Bytes} (h : w.Shows X ns key v)
    (h' : w.Shows X ns key v') : v = v' := by
  obtain ⟨e, he, hget, -⟩ := h
  obtain ⟨e', he', hget', -⟩ := h'
  rw [he] at he'
  cases he'
  rw [hget] at hget'
  cases hget'
  rfl

/-- **The open engine returns the value of a settled key.** -/
theorem shows_of_settles {e : Engine} {ns key k : Bytes} {v : Option Bytes} (hw : WorldInv X w)
    (he : w.engine = some e) (hs : w.Settles X k v) (hk : encodeKey ns key = .ok k) :
    w.Shows X ns key v := by
  rw [Settles, he] at hs
  exact ⟨e, he, Settled.reads hs (hw.engine e he).store hk⟩

end World
