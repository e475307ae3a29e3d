import Edgestore.Lib.Phases
import Edgestore.FlushSessions
import Edgestore.TornTail

/-!
# Where a call may stop

A call that writes or flushes first writes what is new, to the WAL and to the files of a segment, then registers the
segment, and then unlinks WAL files. Wherever it stops, the directory has the old segments and a log that has grown, or
the new segments and a log that has at least what is left in the end.

## Main definitions

* `Effect.Grows`, `Effect.Retires`: the effects before and after a registration
* `Effect.CutClean`: what may be cut short without a torn manifest
* `LastNamed X fs`: the WAL files before the last one have LSNs up to its name
* `CreatesAbove X e fs`: WAL files are created with names not below the LSNs of the log
* `Engine.NamesWal m`: the WAL files that a method creates are named by the LSN counter that it leaves

## Main results

* `World.phased_effects`: the effects of a call that writes or flushes come in two phases
* `walSequence_run_of_grows`, `walSequence_run_retires`: what the phases do to the log
-/

variable {X : Externals} {R : List SegmentId} {fs fs' : Fs} {f : Effect} {es : List Effect}

/-! ### Effects -/

/-- An effect before a registration: it drops nothing from the WAL. -/
def Effect.Grows : Effect → Prop
  | .walUnlink _ => False
  | .manifestAppend _ _ => False
  | _ => True

/-- An effect after a registration: it adds nothing to the WAL. -/
def Effect.Retires : Effect → Prop
  | .walAppend _ _ => False
  | .manifestAppend _ _ => False
  | _ => True

/-- An effect that may be cut short after `m` units: no frame of the manifest is torn, and a record of the WAL is torn
inside its frame. -/
def Effect.CutClean (X : Externals) (f : Effect) (m : ℕ) : Prop :=
  match f with
  | .manifestAppend _ _ => m = 0
  | .walAppend _ r => m < (FramedLog.frame (walFormat X) r).length
  | _ => True

instance (X : Externals) (f : Effect) (m : ℕ) : Decidable (f.CutClean X m) := by
  unfold Effect.CutClean
  rcases f <;> infer_instance

theorem Effect.IsLog.grows (h : f.IsLog) : f.Grows := by
  cases f <;> first | exact h.elim | trivial

theorem Effect.IsUnlink.retires (h : f.IsUnlink) : f.Retires := by
  cases f <;> first | exact h.elim | trivial

theorem Effect.Retires.appendsNone (h : f.Retires) : f.AppendsNone := by
  rintro n r rfl
  exact h

theorem Effect.Grows.not_isUnlink (h : f.Grows) : ¬ f.IsUnlink := by
  cases f <;> first | exact h.elim | exact id

theorem Effect.Grows.not_manifestAppend (h : f.Grows) (pos : ℕ) (x : ManifestEntry) : f ≠ .manifestAppend pos x := by
  rintro rfl
  exact h

theorem Effect.Retires.not_manifestAppend (h : f.Retires) (pos : ℕ) (x : ManifestEntry) :
    f ≠ .manifestAppend pos x := by
  rintro rfl
  exact h

/-! ### The log -/

/-- An effect that keeps the discipline of the log leaves an end of it, with the record that it appends. -/
theorem WalEffect.walSequence_suffix (h : WalEffect X f fs) :
    walSequence X (applyEffect X f fs) <:+ walSequence X fs ++ appendedRecords [f] := by
  rw [h.walSequence_apply]
  cases f with
  | walAppend n r => exact List.suffix_refl _
  | walUnlink n => exact (List.append_nil (walSequence X fs)).symm ▸ List.drop_suffix _ _
  | _ => exact (List.append_nil (walSequence X fs)).symm ▸ List.suffix_refl _

/-- **The log is an end** of what was there and what was appended. -/
theorem walSequence_run_suffix (h : (disk X).All (WalEffect X) es fs) :
    walSequence X ((disk X).run es fs) <:+ walSequence X fs ++ appendedRecords es := by
  induction es generalizing fs with
  | nil => exact (List.append_nil (walSequence X fs)).symm ▸ List.suffix_refl _
  | cons f es ih =>
    refine (ih h.2).trans ?_
    rw [← List.singleton_append, appendedRecords_append, ← List.append_assoc]
    exact List.suffix_append_self_iff.mpr h.1.walSequence_suffix

/-- Before a registration the log only grows. -/
theorem walSequence_run_of_grows (h : (disk X).All (WalEffect X) es fs) (hes : ∀ f ∈ es, f.Grows) :
    walSequence X ((disk X).run es fs) = walSequence X fs ++ appendedRecords es := by
  have hkeeps : (disk X).All (fun f _ => ¬ f.IsUnlink) es fs :=
    (Device.safe_of_forall fun f hf => (hes f hf).not_isUnlink).all Device.all_true
  exact walSequence_run_grows (Device.all_and.mpr ⟨h, hkeeps⟩)

/-- After a registration the log only shrinks, from the front. -/
theorem walSequence_run_retires (h : (disk X).All (WalEffect X) es fs) (hes : ∀ f ∈ es, f.Retires) :
    walSequence X ((disk X).run es fs) <:+ walSequence X fs := by
  have hsuffix := walSequence_run_suffix h
  rwa [appendedRecords_eq_nil fun f hf => (hes f hf).appendsNone, List.append_nil] at hsuffix

/-- An effect that is cut short leaves the log, if a record is torn inside its frame. -/
theorem WalEffect.walSequence_tear_clean (h : WalEffect X f fs) {m : ℕ} (hm : f.CutClean X m) :
    walSequence X (tearEffect X f m fs) = walSequence X fs := by
  rw [h.walSequence_tear m]
  cases f with
  | walAppend n r => exact if_pos hm
  | _ => rfl

/-- **A crash** leaves the log as the effects in front of it do. -/
theorem walSequence_cut_clean {n m : ℕ} (h : (disk X).All (WalEffect X) es fs) (hcut : ∀ f ∈ es[n]?, f.CutClean X m) :
    walSequence X ((disk X).cut es n m fs) = walSequence X ((disk X).run (es.take n) fs) := by
  cases hf : es[n]? with
  | none => rw [Device.cut_of_none hf, List.take_of_length_le (List.getElem?_eq_none_iff.mp hf)]
  | some f =>
    rw [Device.cut_of_some hf]
    exact (h.getElem? hf).walSequence_tear_clean (hcut f hf)

/-! ### Registered segments -/

/-- The manifest and the files of the registered segments are as they were. -/
structure SameManifest (X : Externals) (fs fs' : Fs) : Prop where
  manifest : fs'.manifest = fs.manifest
  segs : ∀ id ∈ registeredIds X fs, fs'.segs id = fs.segs id

theorem SameManifest.sameRegistered (h : SameManifest X fs fs') : Engine.SameRegistered X fs fs' :=
  ⟨registered_congr h.manifest, h.segs⟩

namespace Engine.SameRegistered

theorem refl : Engine.SameRegistered X fs fs := ⟨rfl, fun _ _ => rfl⟩

theorem registeredIds_eq (h : Engine.SameRegistered X fs fs') : registeredIds X fs' = registeredIds X fs :=
  congrArg (List.map SegmentMeta.segmentId) h.registered

theorem trans {fs'' : Fs} (h : Engine.SameRegistered X fs fs') (h' : Engine.SameRegistered X fs' fs'') :
    Engine.SameRegistered X fs fs'' :=
  ⟨h'.registered.trans h.registered, fun id hid =>
    (h'.segs id (h.registeredIds_eq ▸ hid)).trans (h.segs id hid)⟩

theorem recordsOf_congr (h : Engine.SameRegistered X fs fs') : recordsOf X fs' = recordsOf X fs := by
  funext k
  rw [recordsOf_eq, recordsOf_eq, h.registeredIds_eq]
  exact List.filterMap_congr fun id hid => by rw [h.segs id hid]

theorem diskInv (h : Engine.SameRegistered X fs fs') (hd : DiskInv X fs) : DiskInv X fs' := by
  refine ⟨h.registeredIds_eq ▸ hd.nodup, fun id hid => ?_⟩
  rw [h.registeredIds_eq] at hid
  rw [h.segs id hid]
  exact hd.wf id hid

end Engine.SameRegistered

/-- An effect that writes no frame of the manifest leaves the registered segments. -/
theorem StoreEffect.sameRegistered (h : StoreEffect X R f fs) (hc : AppendsClean X f fs)
    (hf : ∀ pos x, f ≠ .manifestAppend pos x) : Engine.SameRegistered X fs (applyEffect X f fs) := by
  refine ⟨(registered_apply h hc).trans ?_, fun id hid => segs_apply_registered h hid⟩
  cases f with
  | manifestAppend pos x => exact absurd rfl (hf pos x)
  | _ => rfl

theorem sameRegistered_run (h : (disk X).All (fun f fs => StoreEffect X R f fs ∧ AppendsClean X f fs) es fs)
    (hes : ∀ f ∈ es, ∀ pos x, f ≠ .manifestAppend pos x) : Engine.SameRegistered X fs ((disk X).run es fs) := by
  induction es generalizing fs with
  | nil => exact .refl
  | cons f es ih =>
    exact (h.1.1.sameRegistered h.1.2 (hes f List.mem_cons_self)).trans
      (ih h.2 fun f' hf' => hes f' (List.mem_cons_of_mem _ hf'))

/-- Effects keep the log behind the manifest. -/
theorem StoreEffect.manifestLog_apply (h : StoreEffect X R f fs) (hc : AppendsClean X f fs)
    (hlog : ∃ xs, ManifestLog X fs xs) : ∃ xs, ManifestLog X (applyEffect X f fs) xs := by
  obtain ⟨xs, hxs⟩ := hlog
  obtain ⟨rest, hfs, -⟩ := id hxs
  cases f with
  | manifestCreate =>
    rw [show fs.manifest = none from h] at hfs
    cases hfs
  | manifestHeader =>
    rw [show fs.manifest = some [] from h, Option.some_inj] at hfs
    cases hfs
  | manifestAppend pos x =>
    obtain ⟨-, hpos, hjson, -⟩ := h
    exact ⟨_, (hxs.append hc hjson hpos).1⟩
  | _ => exact ⟨xs, hxs.congr rfl⟩

/-- **An effect that is cut short** leaves the registered segments, if no frame of the manifest is torn. -/
theorem StoreEffect.tear (h : StoreEffect X R f fs) (hlog : ∃ xs, ManifestLog X fs xs) {m : ℕ}
    (hm : f.CutClean X m) : SameManifest X fs (tearEffect X f m fs) := by
  have hsegment : ∀ (id : SegmentId) (g : SegmentFiles → SegmentFiles), (id ∉ registeredIds X fs ∧ id ∉ R) →
      SameManifest X fs (fs.setSegment id g) := fun id g hid =>
    ⟨rfl, fun j hj => Fs.segs_setSegment_of_ne _ fs fun heq => hid.1 (heq ▸ hj)⟩
  obtain ⟨xs, rest, hfs, -⟩ := hlog
  cases f with
  | manifestHeader =>
    rw [show fs.manifest = some [] from h, Option.some_inj] at hfs
    cases hfs
  | manifestAppend pos x =>
    obtain rfl : m = 0 := hm
    obtain ⟨-, hpos, -⟩ := h
    refine ⟨?_, fun _ _ => rfl⟩
    rw [hfs, Option.getD_some] at hpos
    rw [hpos, manifest_manifestAppend_torn hfs, List.take_zero, List.append_nil, hfs]
  | datWrite id dat =>
    cases m with
    | zero => exact ⟨rfl, fun _ _ => rfl⟩
    | succ m => exact hsegment id (fun files => { files with dat := .torn }) (h id rfl)
  | idxWrite id idx =>
    cases m with
    | zero => exact ⟨rfl, fun _ _ => rfl⟩
    | succ m => exact hsegment id (fun files => { files with idx := .torn }) (h id rfl)
  | xfWrite id xf =>
    cases m with
    | zero => exact ⟨rfl, fun _ _ => rfl⟩
    | succ m => exact hsegment id (fun files => { files with xf := .torn }) (h id rfl)
  | metaWrite id sm =>
    cases m with
    | zero => exact ⟨rfl, fun _ _ => rfl⟩
    | succ m => exact hsegment id (fun files => { files with segMeta := .torn }) (h id rfl)
  | stageWrite hash dat => cases m <;> exact ⟨rfl, fun _ _ => rfl⟩
  | _ => exact ⟨rfl, fun _ _ => rfl⟩

/-- **A crash** leaves the registered segments as the effects in front of it do, if no frame of the manifest is torn. -/
theorem sameRegistered_cut {n m : ℕ} (hlog : ∃ xs, ManifestLog X fs xs)
    (h : (disk X).All (fun f fs => StoreEffect X R f fs ∧ AppendsClean X f fs) es fs)
    (hcut : ∀ f ∈ es[n]?, f.CutClean X m) :
    Engine.SameRegistered X ((disk X).run (es.take n) fs) ((disk X).cut es n m fs) := by
  cases hf : es[n]? with
  | none =>
    rw [Device.cut_of_none hf, List.take_of_length_le (List.getElem?_eq_none_iff.mp hf)]
    exact .refl
  | some f =>
    have hlog' : ∃ xs, ManifestLog X ((disk X).run (es.take n) fs) xs :=
      (h.take n).run (I := fun fs => ∃ xs, ManifestLog X fs xs) (fun _ _ hf hlog => hf.1.manifestLog_apply hf.2 hlog)
        hlog
    rw [Device.cut_of_some hf]
    exact ((h.getElem? hf).1.tear hlog' (hcut f hf)).sameRegistered

/-! ### Names of WAL files -/

/-- **The last WAL file is named for the records before it**: the others have LSNs up to its name. -/
def LastNamed (X : Externals) (fs : Fs) : Prop :=
  ∀ pre last, fs.wals.entries = pre ++ [last] → ∀ p ∈ pre, ∀ r ∈ fileRecords X p.2, r.lsn ≤ last.1

/-- A WAL file that is created has a name that is not below the LSNs of the log. -/
def CreatesAbove (X : Externals) (f : Effect) (fs : Fs) : Prop :=
  ∀ n, f = .walCreate n → ∀ r ∈ walSequence X fs, r.lsn ≤ n

theorem LastNamed.congr (h : LastNamed X fs) (hfs : fs'.wals = fs.wals) : LastNamed X fs' := by
  rw [LastNamed, hfs]
  exact h

/-- A write to the last file leaves its name and the others. -/
theorem LastNamed.appendWal (h : LastNamed X fs) {n : Lsn} {bs : Bytes} (hn : fs.Latest n bs) (x : Bytes) :
    LastNamed X (fs.appendWal n x) := by
  obtain ⟨pre', hentries⟩ := hn
  intro pre last heq
  rw [Fs.entries_appendWal hentries] at heq
  obtain ⟨rfl, hlast⟩ := List.append_inj' heq rfl
  obtain rfl := List.singleton_inj.mp hlast
  exact fun p hp r hr => h pre' (n, bs) hentries p hp r hr

theorem LastNamed.apply (h : LastNamed X fs) (hf : WalEffect X f fs) (habove : CreatesAbove X f fs) :
    LastNamed X (applyEffect X f fs) := by
  cases f with
  | walCreate n =>
    have hentries : (applyEffect X (.walCreate n) fs).wals.entries = fs.wals.entries ++ [(n, [])] :=
      SortedMap.entries_insert_of_lt hf []
    intro pre last heq p hp r hr
    rw [hentries] at heq
    obtain ⟨rfl, hlast⟩ := List.append_inj' heq rfl
    obtain rfl := List.singleton_inj.mp hlast
    exact habove n rfl r (List.mem_flatMap.mpr ⟨p, hp, hr⟩)
  | walHeader n => exact h.appendWal hf _
  | walAppend n r =>
    obtain ⟨bs, -, hlatest, -⟩ := hf
    exact h.appendWal hlatest _
  | walUnlink n =>
    obtain ⟨bs, rest, hentries⟩ := hf
    intro pre last heq p hp
    rw [show (applyEffect X (.walUnlink n) fs).wals.entries = rest from SortedMap.entries_erase_of_cons hentries] at heq
    exact h ((n, bs) :: pre) last (by rw [hentries, heq, List.cons_append]) p (List.mem_cons_of_mem _ hp)
  | _ => exact h

theorem LastNamed.tear (h : LastNamed X fs) (hf : WalEffect X f fs) (m : ℕ) : LastNamed X (tearEffect X f m fs) := by
  cases f with
  | walHeader n => exact h.appendWal hf _
  | walAppend n r =>
    obtain ⟨bs, -, hlatest, -⟩ := hf
    exact h.appendWal hlatest _
  | datWrite id dat => cases m <;> exact h
  | idxWrite id idx => cases m <;> exact h
  | xfWrite id xf => cases m <;> exact h
  | metaWrite id sm => cases m <;> exact h
  | stageWrite hash dat => cases m <;> exact h
  | _ => exact h

/-- The current WAL file is the last one. -/
theorem Engine.WalNamed.lastNamed {e : Engine} (h : e.WalNamed X fs) : LastNamed X fs := by
  obtain ⟨bs, -, ⟨pre', hentries⟩, -⟩ := h.wal.atEnd
  intro pre last heq p hp
  obtain ⟨rfl, hlast⟩ := List.append_inj' (hentries.symm.trans heq) rfl
  obtain rfl := List.singleton_inj.mp hlast
  exact h.others p (hentries ▸ List.mem_append_left _ hp) (Fs.lt_of_entries hentries p hp).ne

/-- **The files of a run** have names above the log, if they are named by a bound of it. -/
theorem createsAbove_of_names {n : Lsn} (hwal : (disk X).All (WalEffect X) es fs)
    (hlog : ∀ r ∈ walSequence X fs ++ appendedRecords es, r.lsn ≤ n) (hes : ∀ n', .walCreate n' ∈ es → n' = n) :
    (disk X).All (CreatesAbove X) es fs := by
  induction es generalizing fs with
  | nil => trivial
  | cons f es ih =>
    rw [← List.singleton_append, appendedRecords_append, ← List.append_assoc] at hlog
    refine ⟨?_, ih hwal.2 (fun r hr => ?_) fun n' hn' => hes n' (List.mem_cons_of_mem _ hn')⟩
    · rintro n' rfl r hr
      rw [hes n' List.mem_cons_self]
      exact hlog r (List.mem_append_left _ (List.mem_append_left _ hr))
    · rcases List.mem_append.mp hr with hr | hr
      · exact hlog r (List.mem_append_left _ (hwal.1.walSequence_suffix.mem hr))
      · exact hlog r (List.mem_append_right _ hr)

/-- An effect that creates no WAL file. -/
def Effect.CreatesNone (f : Effect) : Prop := ∀ n, f ≠ .walCreate n

theorem Effect.KeepsWal.createsNone (h : f.KeepsWal) : f.CreatesNone := by
  rintro n rfl
  exact h

theorem Effect.IsUnlink.createsNone (h : f.IsUnlink) : f.CreatesNone := by
  rintro n rfl
  exact h

namespace Exec

variable {σ τ T α β : Type} {G P : Effect → Prop} {g : σ → T} {m : Exec X σ α} {k : α → Exec X σ β}

/-- Programs of the store in two phases. -/
def Phased (G P : Effect → Prop) (m : Exec X σ α) : Prop := Prog.Phased (D := disk X) G P m

namespace Phased

theorem of_first (h : Frame G g m) : Phased G P m := Prog.Phased.of_first (D := disk X) h

theorem effect (f : Effect) : Phased G P (Exec.effect f : Exec X σ Unit) := Prog.Phased.emit (D := disk X) f

theorem bind_first (hm : Frame G g m) (hk : ∀ a, Phased G P (k a)) : Phased G P (m >>= k) :=
  Prog.Phased.bind_first (D := disk X) hm hk

theorem bind_second (hm : Phased G P m) (hk : ∀ a, Frame P g (k a)) : Phased G P (m >>= k) :=
  Prog.Phased.bind_second (D := disk X) hm hk

theorem zoom {get : σ → τ} {set : τ → σ → σ} {n : Exec X τ α} (hn : Phased G P n) : Phased G P (Exec.zoom get set n) :=
  Prog.Phased.zoom (D := disk X) hn

theorem ite {c : Prop} [Decidable c] {m' : Exec X σ α} (hm : Phased G P m) (hm' : Phased G P m') :
    Phased G P (if c then m else m') := Prog.Phased.ite (D := disk X) hm hm'

end Phased

end Exec

namespace Engine

variable {T α β : Type} {m : Exec X Engine α} {k : α → Exec X Engine β} {g : Engine → T}

/-- **WAL files are named by the LSN counter** that the method leaves. -/
def NamesWal (m : Exec X Engine α) : Prop :=
  ∀ p d n, .walCreate n ∈ (m.run p d).2.2 → n = (m.run p d).2.1.state.lsnCounter

namespace NamesWal

theorem of_frame (h : Exec.Frame Effect.CreatesNone g m) : NamesWal m :=
  fun p d n hn => absurd rfl ((h p d).1 _ hn n)

/-- No file is created before. -/
theorem bind_first (hm : Exec.Frame Effect.CreatesNone g m) (hk : ∀ a, NamesWal (k a)) : NamesWal (m >>= k) := by
  intro p d n
  have hnone := (hm p d).1
  rcases hrun : m.run p d with ⟨_ | a, p', es⟩
  · rw [hrun] at hnone
    rw [Prog.run_bind_error hrun]
    exact fun hn => absurd rfl (hnone _ hn n)
  · rw [hrun] at hnone
    rw [Prog.run_bind_ok hrun]
    intro hn
    rcases List.mem_append.mp hn with hn | hn
    · exact absurd rfl (hnone _ hn n)
    · exact hk a p' _ n hn

/-- No file is created after, and no LSN is taken. -/
theorem bind_last (hm : NamesWal m) (hk : ∀ a, Exec.Frame Effect.CreatesNone lsnCounter (k a)) :
    NamesWal (m >>= k) := by
  intro p d n
  have hnames := hm p d n
  rcases hrun : m.run p d with ⟨_ | a, p', es⟩
  · rw [hrun] at hnames
    rw [Prog.run_bind_error hrun]
    exact hnames
  · rw [hrun] at hnames
    rw [Prog.run_bind_ok hrun]
    obtain ⟨hnone, hcounter⟩ := hk a p' ((disk X).run es d)
    intro hn
    rcases List.mem_append.mp hn with hn | hn
    · exact (hnames hn).trans hcounter.symm
    · exact absurd rfl (hnone _ hn n)

theorem ite {c : Prop} [Decidable c] {m' : Exec X Engine α} (hm : NamesWal m) (hm' : NamesWal m') :
    NamesWal (if c then m else m') := by
  split
  · exact hm
  · exact hm'

end NamesWal

theorem syncWal_createsNone : Exec.Frame Effect.CreatesNone lsnCounter (onWal (X := X) WalWriter.fsync) :=
  (frame_lsnCounter syncWal_frame).mono fun _ hf => hf.createsNone

theorem append_createsNone (r : WalRecord) :
    Exec.Frame Effect.CreatesNone lsnCounter (onWal (X := X) (WalWriter.append r)) :=
  onWal_lsnCounter (.bind .get fun _ => .bind (.effect fun _ h => by cases h) fun _ => .modify fun _ => rfl)

/-- A rotation names the file by the counter. -/
theorem namesWal_rotateWalIfNeeded : NamesWal (rotateWalIfNeeded (X := X)) := by
  refine .bind_first (g := lsnCounter) .now fun nanos => .bind_first (g := lsnCounter) .get fun e => .ite ?_
    (.of_frame (g := lsnCounter) (.pure _))
  refine .bind_first syncWal_createsNone fun _ => fun p d n hn => ?_
  have hget : (Exec.get : Exec X Engine Engine).run p d = (.ok p.state, p, []) := rfl
  have hframe : Exec.Frame (fun f => ∀ n, f = .walCreate n → n = p.state.lsnCounter) lsnCounter
      (WalWriter.create (X := X) p.state.lsnCounter p.state.config >>= fun wal =>
        Exec.modify fun e => { e with wal := wal }) := by
    refine .bind (.bind .fs fun _ => .ite (fun _ => .throw _) fun _ => .bind (.effect fun n hn => ?_) fun _ =>
      .bind (.effect fun n hn => ?_) fun _ => .bind .now fun _ => .pure _) fun _ => .modify fun _ => rfl
    · injection hn with hn
      exact hn.symm
    · cases hn
  rw [Prog.run_bind_nil hget] at hn ⊢
  obtain ⟨hcreates, hcounter⟩ := hframe p d
  exact (hcreates _ hn n rfl).trans hcounter.symm

theorem namesWal_writeRecord (r : WalRecord) : NamesWal (writeRecord (X := X) r) :=
  .bind_first (append_createsNone r) fun _ => .bind_last namesWal_rotateWalIfNeeded fun _ => .bind (.lift _) fun _ =>
    .bind (.modify fun _ => rfl) fun _ => .pure _

theorem namesWal_nextLsn {k : Lsn → Exec X Engine β} (hk : ∀ lsn, NamesWal (k lsn)) : NamesWal (nextLsn >>= k) :=
  .bind_first (g := fun _ => ()) (.bind (.modify fun _ => rfl) fun _ => .bind .get fun _ => .pure _) hk

theorem namesWal_writeEntry (ns key val : Bytes) (ttl : ℕ) : NamesWal (writeEntry (X := X) ns key val ttl) :=
  namesWal_nextLsn fun _ => .bind_first (g := lsnCounter) .now fun _ => namesWal_writeRecord _

theorem checkPut_createsNone (ns : Bytes) : Exec.Frame Effect.CreatesNone lsnCounter (checkPut (X := X) ns) :=
  .bind .get fun _ => .ite (fun _ => .throw _) fun _ => .ite (fun _ => .throw _) fun _ => .pure _

theorem finalizeFlush_createsNone (m : SegmentMeta) (flushed : Lsn) :
    Exec.Frame Effect.CreatesNone lsnCounter (finalizeFlush (X := X) m flushed) := by
  refine .bind ?_ fun _ => .bind (.modify fun _ => rfl) fun _ => ?_
  · exact (frame_lsnCounter (onStore_frame (SegmentStore.finalizeSegment_frame m))).mono fun _ hf =>
      (Effect.KeepsWal.of_isSegment hf).createsNone
  · exact (retireWals_frame _).mono fun _ hf => hf.createsNone

theorem flushToSegments_createsNone : Exec.Frame Effect.CreatesNone lsnCounter (flushToSegments (X := X)) := by
  refine .bind ((frame_lsnCounter (beginFlush_frame fun _ => False)).mono fun _ hf => hf.elim) fun work => ?_
  cases work with
  | none => exact .throw _
  | some w =>
    exact .bind ((w.execute_frame lsnCounter).mono fun _ hf => (Effect.KeepsWal.of_isSegment hf).createsNone) fun _ =>
      .bind (finalizeFlush_createsNone _ _) fun _ => .pure _

theorem namesWal_put (ns key val : Bytes) : NamesWal (put (X := X) ns key val) :=
  .bind_first (checkPut_createsNone ns) fun _ => .bind_last (namesWal_writeEntry _ _ _ _) fun _ => .bind .get fun _ =>
    .ite (fun _ => .bind flushToSegments_createsNone fun _ => .pure _) fun _ => .pure _

theorem namesWal_putWithTtl (ns key val : Bytes) (ttl : ℕ) : NamesWal (putWithTtl (X := X) ns key val ttl) :=
  .bind_first (checkPut_createsNone ns) fun _ => namesWal_writeEntry _ _ _ _

theorem namesWal_delete (ns key : Bytes) : NamesWal (delete (X := X) ns key) :=
  .bind_first (g := lsnCounter) .get fun _ => .ite (.of_frame (g := lsnCounter) (.throw _))
    (namesWal_nextLsn fun _ => .bind_first (g := lsnCounter) .now fun _ => namesWal_writeRecord _)

theorem commitRecord_createsNone (r : WalRecord) :
    Exec.Frame Effect.CreatesNone (fun _ => ()) (commitRecord (X := X) r) :=
  .bind (.bind (.modify fun _ => rfl) fun _ => .bind .get fun _ => .pure _) fun _ =>
    .bind (.zoom (h := fun _ => ()) (.bind .get fun _ => .bind (.effect fun _ h => by cases h) fun _ =>
      .modify fun _ => rfl) fun _ _ _ => rfl) fun _ => .bind (.lift _) fun _ => .modify fun _ => rfl

theorem namesWal_runTransaction (ops : List TxOp) : NamesWal (runTransaction (X := X) ops) :=
  .bind_first (g := lsnCounter) (.bind (.modify fun _ => rfl) fun _ => .bind .get fun _ => .pure _) fun _ =>
    .bind_first (g := lsnCounter) (.lift _) fun _ => .bind_first (g := lsnCounter) (.lift _) fun _ =>
    .bind_first (.forM fun r _ => commitRecord_createsNone r) fun _ => .bind_first (g := lsnCounter) .get fun _ =>
    .bind_first syncWal_createsNone fun _ => .bind_last namesWal_rotateWalIfNeeded fun _ => .pure _

/-! ### Phases -/

theorem writeEntry_grows (ns key val : Bytes) (ttl : ℕ) :
    Exec.Frame Effect.Grows storePart (writeEntry (X := X) ns key val ttl) :=
  (writeEntry_frame _ _ _ _).mono fun _ hf => hf.grows

/-- A flush writes only new files before it is finished. -/
theorem execute_grows {σ : Type} (w : FlushWork) (g : σ → T) : Exec.Frame Effect.Grows g (w.execute (X := X)) := by
  unfold FlushWork.execute segmentFlush
  split
  · exact .throw _
  · exact .bind (.effect trivial) fun _ => .bind (.effect trivial) fun _ => .bind (.effect trivial) fun _ =>
      .bind (.effect trivial) fun _ => .bind (.effect trivial) fun _ => .bind (.effect trivial) fun _ =>
      .bind (.lift _) fun _ => .bind .now fun _ => .bind (.effect trivial) fun _ => .pure _

/-- A segment is registered by one frame of the manifest. -/
theorem phased_addSegment (sm : SegmentMeta) :
    Exec.Phased Effect.Grows Effect.Retires (Manifest.addSegment (X := X) sm) := by
  have hentry : Exec.Phased Effect.Grows Effect.Retires (Manifest.writeFramedEntry (X := X) (addEntry sm)) :=
    .ite (.of_first (g := fun _ => ()) (.throw _)) (.bind_first (g := fun _ => ()) .get fun _ =>
      .bind_second (g := fun _ => ()) (.effect _) fun _ => .modify fun _ => rfl)
  exact .bind_second (g := fun _ => ()) hentry fun _ => .bind (.effect trivial) fun _ => .modify fun _ => rfl

/-- **Finishing a flush** registers the segment first. -/
theorem phased_finalizeFlush (sm : SegmentMeta) (flushed : Lsn) :
    Exec.Phased Effect.Grows Effect.Retires (finalizeFlush (X := X) sm flushed) := by
  have hregister : Exec.Phased Effect.Grows Effect.Retires (onStore (X := X) (SegmentStore.finalizeSegment sm)) :=
    .zoom (.bind_second (g := fun _ => ()) (.zoom (phased_addSegment sm)) fun _ =>
      .bind .fs fun _ => .bind (.lift _) fun _ => .modify fun _ => rfl)
  refine .bind_second (g := fun _ => ()) hregister fun _ => ?_
  exact .bind (.modify fun _ => rfl) fun _ => (retireWals_frame _).mono fun _ hf => hf.retires

theorem phased_flushToSegments : Exec.Phased Effect.Grows Effect.Retires (flushToSegments (X := X)) := by
  refine .bind_first ((beginFlush_frame fun _ => False).mono fun _ hf => hf.elim) fun work => ?_
  cases work with
  | none => exact .of_first (g := fun _ => ()) (.throw _)
  | some w =>
    exact .bind_first (execute_grows w fun _ => ()) fun _ =>
      .bind_second (g := fun _ => ()) (phased_finalizeFlush _ _) fun _ => .pure _

theorem phased_put (ns key val : Bytes) : Exec.Phased Effect.Grows Effect.Retires (put (X := X) ns key val) :=
  .bind_first ((checkPut_frame ns).mono fun _ hf => hf.grows) fun _ => .bind_first (writeEntry_grows _ _ _ _) fun _ =>
    .bind_first (g := fun _ => ()) .get fun _ => .ite
      (.bind_second (g := fun _ => ()) phased_flushToSegments fun _ => .pure _) (.of_first (g := fun _ => ()) (.pure _))

end Engine

/-! ### Calls -/

namespace World

variable {w : World} {c : Call} {clock : ℕ → ℕ} {e e' : Engine}

/-- What a method does before and after a registration. -/
theorem phased_onEngine {α : Type} {m : Exec X Engine α} {land : α → List Flight}
    (hm : Exec.Phased Effect.Grows Effect.Retires m) :
    InPhases Effect.Grows Effect.Retires (w.onEngine X clock m land).effects := by
  cases he : w.engine with
  | none =>
    rw [onEngine_none he]
    exact .of_first fun _ hf => absurd hf List.not_mem_nil
  | some e =>
    rw [(onEngine_some he).1]
    exact hm ⟨e, clock⟩ w.fs

/-- **The effects of a call that writes or flushes** come in two phases. -/
theorem phased_effects (hc : c.op.WritesOrFlushes) : InPhases Effect.Grows Effect.Retires (w.effects X c) := by
  obtain ⟨op, clock, stop⟩ := c
  have hlog : ∀ {α : Type} {m : Exec X Engine α}, Exec.Frame Effect.IsLog Engine.storePart m →
      InPhases Effect.Grows Effect.Retires (w.onEngine X clock m).effects := fun hm =>
    phased_onEngine (.of_first (hm.mono fun _ hf => hf.grows))
  cases op with
  | put ns key val => exact phased_onEngine (Engine.phased_put _ _ _)
  | putWithTtl ns key val ttl => exact hlog (Engine.putWithTtl_frame _ _ _ _)
  | delete ns key => exact hlog (Engine.delete_frame _ _)
  | commit ops => exact hlog (runTransaction_frame _)
  | flush => exact hlog Engine.flush_frame
  | flushToSegments => exact phased_onEngine Engine.phased_flushToSegments
  | beginFlush =>
    exact phased_onEngine (.of_first ((Engine.beginFlush_frame fun _ => False).mono fun _ hf => hf.elim))
  | execute i =>
    simp only [effects, perform, executeFlight]
    cases w.flights[i]? with
    | none => exact .of_first fun _ hf => absurd hf List.not_mem_nil
    | some f =>
      have hgrows := (Engine.execute_grows (X := X) f.work (fun _ : Unit => ()) ⟨(), clock⟩ w.fs).1
      simp only
      split
      · exact .of_first hgrows
      · exact .of_first hgrows
  | finalizeFlush i =>
    simp only [effects, perform]
    split
    · exact phased_onEngine (Engine.phased_finalizeFlush _ _)
    · exact .of_first fun _ hf => absurd hf List.not_mem_nil
  | abandon i => exact .of_first fun _ hf => absurd hf List.not_mem_nil
  | _ => exact hc.elim

/-- The WAL files that a method creates are named by the LSN counter of the engine that it leaves. -/
theorem names_onEngine {α : Type} {m : Exec X Engine α} {land : α → List Flight} (hm : Engine.NamesWal m)
    (he' : (w.onEngine X clock m land).engine = some e') {n : Lsn}
    (hn : .walCreate n ∈ (w.onEngine X clock m land).effects) : n = e'.lsnCounter := by
  cases he : w.engine with
  | none =>
    rw [onEngine_none he] at hn
    cases hn
  | some e =>
    rw [(onEngine_some he).1] at hn
    rw [(onEngine_some he).2.1, Option.some_inj] at he'
    exact he' ▸ hm ⟨e, clock⟩ w.fs n hn

/-- **The WAL files that a call creates** are named by the LSN counter. -/
theorem names_effects (hc : c.op.WritesOrFlushes) (he' : (w.perform X c.op c.clock).engine = some e') {n : Lsn}
    (hn : .walCreate n ∈ w.effects X c) : n = e'.lsnCounter := by
  obtain ⟨op, clock, stop⟩ := c
  cases op with
  | put ns key val => exact names_onEngine (Engine.namesWal_put _ _ _) he' hn
  | putWithTtl ns key val ttl => exact names_onEngine (Engine.namesWal_putWithTtl _ _ _ _) he' hn
  | delete ns key => exact names_onEngine (Engine.namesWal_delete _ _) he' hn
  | commit ops => exact names_onEngine (Engine.namesWal_runTransaction _) he' hn
  | flush => exact names_onEngine (.of_frame Engine.syncWal_createsNone) he' hn
  | flushToSegments => exact names_onEngine (.of_frame Engine.flushToSegments_createsNone) he' hn
  | beginFlush =>
    exact names_onEngine (.of_frame ((Engine.beginFlush_frame fun _ => False).mono fun _ hf => hf.elim)) he' hn
  | execute i =>
    simp only [effects, perform, executeFlight] at hn
    cases hf : w.flights[i]? with
    | none =>
      rw [hf] at hn
      cases hn
    | some f =>
      have hnone := (f.work.execute_frame (X := X) (fun _ : Unit => ()) ⟨(), clock⟩ w.fs).1
      simp only [hf] at hn
      split at hn
      · exact (hnone _ hn).elim
      · exact (hnone _ hn).elim
  | finalizeFlush i =>
    simp only [effects, perform] at hn he'
    split at hn
    · simp only [*] at he'
      exact names_onEngine (.of_frame (Engine.finalizeFlush_createsNone _ _)) he' hn
    · cases hn
  | abandon i => cases hn
  | _ => exact hc.elim

end World
