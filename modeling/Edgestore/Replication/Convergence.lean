import Edgestore.Replication.Merge
import Edgestore.RetiredWal

/-!
# Replicas converge

A replica imports the segments of its peers, and writes and flushes nothing by itself. It may be closed and opened again,
and it may stop anywhere, inside an import too. Whatever it has imported, in whatever order and however often, `get`
returns the value with the latest timestamp; so replicas with the same segments return the same values.

Two records of a key with one timestamp must be the same: an import keeps the one that came first.

## Main definitions

* `World.PullCall`: calls of a replica
* `World.delivered`: the segments that have been imported
* `World.Merging`: the invariant of a replica

## Main results

* `World.replicas_converge`: replicas with the same segments return the same values
* `World.replicas_diverge`: they do not if two records have one timestamp
-/

open LastWriter

variable {X : Externals} {fs : Fs} {w : World} {c : Call} {e e' : Engine} {clock : ℕ → ℕ} {D : List Dat}
  {offers : List (Bytes × Version)}

/-- A segment that can be imported: its blocks are readable, and an import can write its records. -/
def Deliverable (dat : Dat) : Prop := (∀ b ∈ dat, b.Readable) ∧ ∀ p ∈ Dat.table dat, Importable p

instance (dat : Dat) : Decidable (Deliverable dat) := inferInstanceAs (Decidable (_ ∧ _))

/-- The versions in segments. -/
def versionsOf (D : List Dat) : List (Bytes × Version) := D.flatMap fun dat => (Dat.table dat).map offered

theorem mem_versionsOf {dat : Dat} {o : Bytes × Version} (hdat : dat ∈ D) (ho : o ∈ (Dat.table dat).map offered) :
    o ∈ versionsOf D := List.mem_flatMap.mpr ⟨dat, hdat, ho⟩

/-! ### Directories -/

/-- **A directory to which versions have been offered**: the log replays to the latest ones, and whatever is in a
registered segment has been offered. -/
structure MergedDir (X : Externals) (fs : Fs) (offers : List (Bytes × Version)) : Prop where
  sound : SoundDir X fs
  merged : MemTable.versions (replayed .empty (walSequence X fs)) = offerAll Version.timestamp (fun _ => none) offers
  stored : ∀ k, ∀ v ∈ recordsOf X fs k, offered (k, v) ∈ offers

/-- The memtable of a replay has all keys of the segments. -/
theorem MergedDir.covered {R : List SegmentId} (h : MergedDir X fs offers) (hinv : e.Inv X R fs)
    (hmem : e.memtable = replayed .empty (walSequence X fs)) : e.Covered X fs := by
  intro k
  rw [Engine.localEntry, hinv.store.get_eq]
  show (e.memtable.get k).or (recordsOf X fs k).getLast? = e.memtable.get k
  cases hget : e.memtable.get k with
  | some v => rfl
  | none =>
    -- a record of a segment would have been offered
    cases hlast : (recordsOf X fs k).getLast? with
    | none => rfl
    | some v =>
      have hoffered := h.stored k v (List.mem_of_getLast? hlast)
      obtain ⟨u, hu, -⟩ := offerAll_of_mem Version.timestamp (fun _ => none) hoffered
      rw [← h.merged, MemTable.versions, ← hmem, hget] at hu
      cases hu

/-- **The value that `get` returns** is that of the latest version. -/
theorem MergedDir.get_eq {R : List SegmentId} {ns key k : Bytes} (h : MergedDir X fs offers) (hinv : e.Inv X R fs)
    (hmem : e.memtable = replayed .empty (walSequence X fs)) (hk : encodeKey ns key = .ok k) :
    e.get X fs ns key = .ok ((offerAll Version.timestamp (fun _ => none) offers k).bind Version.live) := by
  have hlocal := h.covered hinv hmem k
  rw [Engine.localEntry, hinv.store.get_eq] at hlocal
  have hlocal : (e.memtable.get k).or (recordsOf X fs k).getLast? = e.memtable.get k := hlocal
  rw [Engine.get_eq hinv.store hk, hlocal, ← h.merged, MemTable.versions, ← hmem]
  cases e.memtable.get k with
  | none => rfl
  | some v => exact congrArg Except.ok (MemEntry.live_version v).symm

/-! ### Imports -/

/-- What an import leaves when `ps` has been offered: the log and the memtable have what is taken, and whatever is
registered has been offered. -/
structure Imports (X : Externals) (e : Engine) (fs : Fs) (rs : List WalRecord) (ps : List (Bytes × MemEntry)) (e' : Engine)
    (fs' : Fs) : Prop where
  merges : e.Merges X fs rs ps e' fs'
  stored : ∀ k, ∀ v ∈ recordsOf X fs' k, v ∈ recordsOf X fs k ∨ (k, v) ∈ ps

theorem Imports.of_sameRegistered {rs : List WalRecord} {ps : List (Bytes × MemEntry)} {fs' : Fs}
    (h : e.Merges X fs rs ps e' fs') (hsame : Engine.SameRegistered X fs fs') : Imports X e fs rs ps e' fs' :=
  ⟨h, fun _ _ hv => .inl (hsame.recordsOf_congr ▸ hv)⟩

/-- What an import offers is merged. -/
theorem Imports.merged {rs : List WalRecord} {ps : List (Bytes × MemEntry)} {fs' : Fs} (h : Imports X e fs rs ps e' fs')
    (hdir : MergedDir X fs offers) (hmem : e.memtable = replayed .empty (walSequence X fs)) (hsound : SoundDir X fs') :
    MergedDir X fs' (offers ++ ps.map offered) ∧ e'.memtable = replayed .empty (walSequence X fs') := by
  have hreplay : e'.memtable = replayed .empty (walSequence X fs') := by
    rw [h.merges.memtable, h.merges.sequence, replayed_append, hmem]
  refine ⟨⟨hsound, ?_, fun k v hv => ?_⟩, hreplay⟩
  · rw [← hreplay, h.merges.memtable, h.merges.winnows.all, hmem, hdir.merged, offerAll_append]
  · rcases h.stored k v hv with hv | hv
    · exact List.mem_append_left _ (hdir.stored k v hv)
    · exact List.mem_append_right _ (List.mem_map_of_mem hv)

/-- **What is logged of an import** is merged, wherever the log ends. -/
theorem MergedDir.of_prefix {rs rs' : List WalRecord} {ps : List (Bytes × MemEntry)} {fs' : Fs} (h : MergedDir X fs offers)
    (hwinnows : Winnows (replayed .empty (walSequence X fs)) rs ps) (hstart : rs' <+: rs)
    (hseq : walSequence X fs' = walSequence X fs ++ rs') (hrec : recordsOf X fs' = recordsOf X fs)
    (hsound : SoundDir X fs') : MergedDir X fs' (offers ++ rs'.map fun r => offered r.entry) where
  sound := hsound
  merged := by rw [hseq, replayed_append, hwinnows.upTo rs' hstart, h.merged, offerAll_append]
  stored := fun k v hv => List.mem_append_left _ (h.stored k v (hrec ▸ hv))

/-- **An import** offers all records of the segment, or none. -/
theorem Engine.Inv.wp_importSegment_offers {R : List SegmentId} (h : e.Inv X R fs) (hahead : e.Ahead X fs)
    (hcovered : e.Covered X fs) {dat : Dat} (hdat : Deliverable dat) (size : ℕ) (hash : Bytes) :
    Prog.wp (Engine.importSegment (X := X) dat size hash)
      ⟨fun r q fs' => ∃ rs ps, Imports X e fs rs ps q.state fs' ∧
          (ps = Dat.table dat ∨ ps = [] ∧ ∀ written skipped, r ≠ .applied written skipped),
        fun _ q fs' => ∃ rs, Imports X e fs rs (Dat.table dat) q.state fs',
        fun f d => StoreRely X f d ∧ FitsWal X f d, fun _ _ => True⟩ ⟨e, clock⟩ fs := by
  refine Prog.wp_mono (Prog.wp_and h.wp_importSegment (hahead.wp_importSegment_merges hcovered hdat.1 hdat.2 size hash))
    ?_ ?_ (fun _ _ h => h) fun _ _ _ _ => trivial
  · rintro r q fs' ⟨⟨-, hregisters⟩, hmerges⟩
    rcases hmerges with ⟨rs, hmerges⟩ | ⟨hrefused, hstate, rfl⟩
    · rcases hregisters with ⟨-, -, m, htable, -⟩ | ⟨-, hsame⟩
      · refine ⟨rs, _, ⟨hmerges, fun k v hv => ?_⟩, .inl rfl⟩
        rw [recordsOf_concat htable.registered htable.segs, htable.table] at hv
        refine (List.mem_append.mp hv).imp id fun hv => ?_
        exact mem_of_find (Option.mem_toList.mp hv)
      · exact ⟨rs, _, .of_sameRegistered hmerges hsame, .inl rfl⟩
    · refine ⟨[], [], ⟨⟨(List.append_nil _).symm, ?_, .nil _⟩, fun _ _ hv => .inl hv⟩, .inr ⟨rfl, hrefused⟩⟩
      rw [hstate]
      rfl
  · rintro err q fs' ⟨⟨-, hsame⟩, rs, hmerges⟩
    exact ⟨rs, .of_sameRegistered hmerges hsame⟩

namespace World

/-! ### Calls -/

/-- **A call of a replica that may crash**: it is opened, imports a segment of `D`, or is closed, and it may stop in each
of these. -/
def PullCall (X : Externals) (D : List Dat) (w : World) (c : Call) : Prop :=
  w.StopsCleanly X c ∧
    match w.engine, c.op with
    | none, .open _ => w.Admitted X ⟨c.op, c.clock, none⟩ ∧ w.WalAdmitted X ⟨c.op, c.clock, none⟩ ∧ HeadersWhole w.fs ∧
        (c.stop.isSome = true → w.fs.manifest.isSome = true)
    | some _, .close => True
    | some _, .importSegment dat _ _ =>
        w.Admitted X ⟨c.op, c.clock, none⟩ ∧ w.WalAdmitted X ⟨c.op, c.clock, none⟩ ∧ dat ∈ D
    | _, _ => False

instance (X : Externals) (D : List Dat) (w : World) : DecidablePred (w.PullCall X D) := fun ⟨op, clock, stop⟩ => by
  unfold PullCall
  rcases w.engine with _ | e <;> rcases op <;> infer_instance

/-- The segment that a call has imported, if it has. -/
def deliveredBy (X : Externals) (w : World) (c : Call) : List Dat :=
  match w.engine, c.op, c.stop with
  | some e, .importSegment dat size hash, none =>
    match ((Engine.importSegment (X := X) dat size hash).run ⟨e, c.clock⟩ w.fs).1 with
    | .ok (.applied _ _) => [dat]
    | _ => []
  | _, _, _ => []

/-- What has been imported is what the call imports. -/
theorem op_of_mem_deliveredBy {dat : Dat} (h : dat ∈ w.deliveredBy X c) :
    ∃ size hash, c.op = .importSegment dat size hash := by
  rw [deliveredBy] at h
  split at h
  case h_1 dat' size hash _ hop _ =>
    split at h
    · rw [List.mem_singleton.mp h]
      exact ⟨size, hash, hop⟩
    · cases h
  case h_2 => cases h

/-- **The segments that have been imported** in a run. -/
def delivered (X : Externals) : World → List Call → List Dat
  | _, [] => []
  | w, c :: calls => w.deliveredBy X c ++ (w.step X c).delivered X calls

/-- **The invariant of a replica**: its memtable is the replay of the log. -/
structure Merging (X : Externals) (w : World) (offers : List (Bytes × Version)) : Prop where
  dir : MergedDir X w.fs offers
  flights : w.flights = []
  inv : WorldInv X w
  wal : WalInv X w
  memtable : ∀ e, w.engine = some e → e.memtable = replayed .empty (walSequence X w.fs)

namespace Merging

/-- Nothing is offered to an empty directory. -/
theorem empty : ({} : World).Merging X [] where
  dir := by
    refine ⟨⟨⟨worldInv_empty.fs, .inl rfl⟩, walInv_empty.log⟩, rfl, fun k v hv => ?_⟩
    rw [recordsOf_eq, registeredIds, registered_none rfl] at hv
    cases hv
  flights := rfl
  inv := worldInv_empty
  wal := walInv_empty
  memtable := fun e he => by cases he

/-- A sound directory without an engine. -/
theorem of_dir (h : MergedDir X w.fs offers) (he : w.engine = none) (hflights : w.flights = []) : w.Merging X offers where
  dir := h
  flights := hflights
  inv := worldInv_of_dir h.sound.toStoreDir he hflights
  wal := walInv_of_dir h.sound he
  memtable := fun e he' => by
    rw [he] at he'
    cases he'

/-- What has been offered when records of a table are offered besides. -/
structure Extends (offers offers' : List (Bytes × Version)) (l : List (Bytes × MemEntry)) : Prop where
  old : ∀ o ∈ offers, o ∈ offers'
  new : ∀ o ∈ offers', o ∈ offers ∨ o ∈ l.map offered

theorem Extends.append {os : List (Bytes × Version)} {l : List (Bytes × MemEntry)} (h : ∀ o ∈ os, o ∈ l.map offered) :
    Extends offers (offers ++ os) l where
  old := fun _ ho => List.mem_append_left _ ho
  new := fun _ ho => (List.mem_append.mp ho).imp_right (h _)

section Importing

variable {dat : Dat} {size : ℕ} {hash : Bytes} (h : w.Merging X offers) (he : w.engine = some e)
  (hc : w.Admitted X ⟨.importSegment dat size hash, clock, none⟩)
  (hwal : w.WalAdmitted X ⟨.importSegment dat size hash, clock, none⟩) (hdat : Deliverable dat)
include h he hc hwal hdat

/-- What an import leaves that runs to its end. -/
theorem imports : ∃ rs ps, (ps = Dat.table dat ∨ ps = [] ∧ w.deliveredBy X ⟨.importSegment dat size hash, clock, none⟩ = []) ∧
    ∃ e', (w.step X ⟨.importSegment dat size hash, clock, none⟩).engine = some e' ∧
      Imports X e w.fs rs ps e' (w.step X ⟨.importSegment dat size hash, clock, none⟩).fs := by
  have hinv := h.inv.engine e he
  have hahead : e.Ahead X w.fs := by
    refine ⟨h.wal.engine e he, ?_⟩
    have hle := hwal.ahead
    simp only [RotatesAhead, he] at hle
    exact hle
  have hcovered := h.dir.covered hinv (h.memtable e he)
  have hrely := all_rely h.inv hc hwal
  simp only [effects, perform] at hrely
  rw [(onEngine_some he).1] at hrely
  have hwp : Prog.wp (Engine.importSegment (X := X) dat size hash) _ ⟨e, clock⟩ w.fs :=
    hinv.wp_importSegment_offers hahead hcovered hdat size hash
  have hres := Prog.wp_result hwp hrely
  simp only [step, perform, deliveredBy, onEngine, he]
  generalize (Engine.importSegment (X := X) dat size hash).run ⟨e, clock⟩ w.fs = r at hres ⊢
  obtain ⟨_ | res, q, es⟩ := r
  · obtain ⟨rs, himports⟩ := hres
    exact ⟨rs, _, .inl rfl, q.state, rfl, himports⟩
  · obtain ⟨rs, ps, himports, hps⟩ := hres
    refine ⟨rs, ps, hps.imp_right fun hrefused => ⟨hrefused.1, ?_⟩, q.state, rfl, himports⟩
    cases res with
    | applied written skipped => exact absurd rfl (hrefused.2 written skipped)
    | _ => rfl

/-- **An import that stops** leaves what is logged, or what it leaves at its end. -/
theorem crashed {n m : ℕ}
    (hcut : ∀ f ∈ (w.effects X ⟨.importSegment dat size hash, clock, none⟩)[n]?, f.CutClean X m) :
    ∃ offers', MergedDir X ((disk X).cut (w.effects X ⟨.importSegment dat size hash, clock, none⟩) n m w.fs) offers' ∧
      Extends offers offers' (Dat.table dat) := by
  obtain ⟨rs, ps, hps, e', -, himports⟩ := h.imports he hc hwal hdat
  set es := w.effects X ⟨.importSegment dat size hash, clock, none⟩ with hes
  have hwinnows := himports.merges.winnows
  rw [h.memtable e he] at hwinnows
  have hlog : ∃ xs, ManifestLog X w.fs xs := (h.inv.engine e he).store.synced.log
  have hwals : (disk X).All (WalEffect X) es w.fs := (h.wal.kept hwal).guar
  have hstore := h.inv.all_clean hc
  have hsound := h.dir.sound.cut hlog hwals hstore hcut
  have hkeeps : (disk X).All (fun f _ => ¬ f.IsUnlink) es w.fs := by
    have hguar := Prog.wp_guar (@Engine.wp_importSegment_effects X dat size hash e clock w.fs) Device.all_true
    rw [hes, effects, perform, (onEngine_some he).1]
    exact hguar.mono fun _ _ hf => hf.1
  have hgrown : ∀ k, walSequence X ((disk X).run (es.take k) w.fs) = walSequence X w.fs ++ appendedRecords (es.take k) :=
    fun k => walSequence_run_grows (Device.all_and.mpr ⟨hwals.take k, hkeeps.take k⟩)
  have hall : walSequence X ((disk X).run es w.fs) = walSequence X w.fs ++ appendedRecords es :=
    walSequence_run_grows (Device.all_and.mpr ⟨hwals, hkeeps⟩)
  have hrs : rs = appendedRecords es := List.append_cancel_left (himports.merges.sequence.symm.trans hall)
  have hseq := (walSequence_cut_clean hwals hcut).trans (hgrown n)
  have hsame := sameRegistered_cut hlog hstore hcut
  have hmem : ∀ {ps : List (Bytes × MemEntry)}, ps = Dat.table dat ∨ ps = [] → ∀ o ∈ ps.map offered,
      o ∈ (Dat.table dat).map offered := by
    rintro _ (rfl | rfl) o ho
    · exact ho
    · cases ho
  have hps' : ps = Dat.table dat ∨ ps = [] := hps.imp_right And.left
  rcases (phased_onEngine (Engine.phased_importSegment dat size hash) : InPhases _ _ es) n with hgrows | hretires
  · -- nothing is registered yet
    have hstart : appendedRecords (es.take n) <+: rs := by
      rw [hrs, ← appendedRecords_take_drop es n]
      exact List.prefix_append _ _
    have hfirst := sameRegistered_run (hstore.take n) fun f hf => (hgrows f hf).not_manifestAppend
    refine ⟨_, h.dir.of_prefix hwinnows hstart hseq (hfirst.trans hsame).recordsOf_congr hsound, .append ?_⟩
    intro o ho
    obtain ⟨r, hr, rfl⟩ := List.mem_map.mp ho
    exact hmem hps' _ (hwinnows.mem r (hstart.mem hr))
  · -- all is registered that will be
    have hnone : appendedRecords (es.drop n) = [] := appendedRecords_eq_nil fun f hf => (hretires f hf).appendsNone
    have htake : appendedRecords (es.take n) = rs := by
      rw [hrs, ← appendedRecords_take_drop es n, hnone, List.append_nil]
    have hrest := sameRegistered_run (hstore.drop n) fun f hf => (hretires f hf).not_manifestAppend
    rw [Device.run_take_drop] at hrest
    have hcutImports : Imports X e w.fs rs ps e' ((disk X).cut es n m w.fs) := by
      refine ⟨⟨hseq.trans (by rw [htake]), himports.merges.memtable, himports.merges.winnows⟩, fun k v hv => ?_⟩
      rw [hsame.recordsOf_congr, ← hrest.recordsOf_congr] at hv
      exact himports.stored k v hv
    exact ⟨_, (hcutImports.merged h.dir (h.memtable e he) hsound).1, .append (hmem hps')⟩

/-- **An import**, stopped or not. -/
theorem importing {stop : Option (ℕ × ℕ)} (hclean : w.StopsCleanly X ⟨.importSegment dat size hash, clock, stop⟩) :
    ∃ offers', (w.step X ⟨.importSegment dat size hash, clock, stop⟩).Merging X offers' ∧
      Extends offers offers' (Dat.table dat) ∧
      (dat ∈ w.deliveredBy X ⟨.importSegment dat size hash, clock, stop⟩ →
        ∀ o ∈ (Dat.table dat).map offered, o ∈ offers') := by
  cases stop with
  | none =>
    obtain ⟨rs, ps, hps, e', he', himports⟩ := h.imports he hc hwal hdat
    have hinv := h.inv.step hc
    have hlog := h.wal.step hwal
    have hflights : (w.step X ⟨.importSegment dat size hash, clock, none⟩).flights = [] :=
      flights_onEngine.trans h.flights
    obtain ⟨hdir, hmem⟩ := himports.merged h.dir (h.memtable e he) (soundDir_of_inv hinv hlog)
    refine ⟨offers ++ ps.map offered, ⟨hdir, hflights, hinv, hlog, fun e₁ he₁ => ?_⟩, .append ?_, fun hmem o ho => ?_⟩
    · rw [he', Option.some_inj] at he₁
      exact he₁ ▸ hmem
    · rcases hps with rfl | ⟨rfl, -⟩
      · exact fun _ ho => ho
      · exact fun _ ho => absurd ho List.not_mem_nil
    · rcases hps with rfl | ⟨-, hnone⟩
      · exact List.mem_append_right _ ho
      · rw [hnone] at hmem
        cases hmem
  | some s =>
    obtain ⟨offers', hdir, hextends⟩ := h.crashed he hc hwal hdat (n := s.1) (m := s.2) (hclean s rfl)
    refine ⟨offers', .of_dir hdir rfl rfl, hextends, fun hmem => ?_⟩
    simp only [deliveredBy, he] at hmem
    cases hmem

end Importing

/-- **An opening**, stopped or not, replays the log. -/
theorem opening {config : EdgestoreConfig} {stop : Option (ℕ × ℕ)} (h : w.Merging X offers) (he : w.engine = none)
    (hclean : w.StopsCleanly X ⟨.open config, clock, stop⟩) (hc : w.Admitted X ⟨.open config, clock, none⟩)
    (hwal : w.WalAdmitted X ⟨.open config, clock, none⟩) (hheader : HeadersWhole w.fs)
    (hmanifest : stop.isSome = true → w.fs.manifest.isSome = true) :
    (w.step X ⟨.open config, clock, stop⟩).Merging X offers := by
  cases stop with
  | none =>
    obtain ⟨e, he', hopened⟩ := opens h.inv h.wal.log.files he hc (hwal.opensFresh he) hheader
    have hinv := h.inv.step hc
    have hlog := h.wal.step hwal
    have hflights : (w.step X ⟨.open config, clock, none⟩).flights = [] := by
      simp only [step, perform, he]
      exact h.flights
    refine ⟨⟨soundDir_of_inv hinv hlog, ?_, fun k v hv => ?_⟩, hflights, hinv, hlog, fun e₁ he₁ => ?_⟩
    · rw [hopened.sequence]
      exact h.dir.merged
    · rw [recordsOf_congr hopened.registered hopened.segs] at hv
      exact h.dir.stored k v hv
    · rw [he', Option.some_inj] at he₁
      rw [← he₁, hopened.sequence]
      exact hopened.memtable
  | some s =>
    have hleaves : ∀ f ∈ w.effects X ⟨.open config, clock, none⟩, f.Grows ∧ f.Retires := leaves_of_opening he
    have hwals : (disk X).All (WalEffect X) (w.effects X ⟨.open config, clock, none⟩) w.fs := (h.wal.kept hwal).guar
    have hstore := h.inv.all_clean hc
    have hlog : ∃ xs, ManifestLog X w.fs xs := h.dir.sound.manifest.resolve_left fun hn => by
      have hsome := hmanifest rfl
      rw [hn] at hsome
      cases hsome
    have hcut : ∀ f ∈ (w.effects X ⟨.open config, clock, none⟩)[s.1]?, f.CutClean X s.2 := hclean s rfl
    have hseq : walSequence X ((disk X).cut (w.effects X ⟨.open config, clock, none⟩) s.1 s.2 w.fs) =
        walSequence X w.fs := by
      rw [walSequence_cut_clean hwals hcut,
        walSequence_run_of_grows (hwals.take s.1) fun f hf => (hleaves f (List.mem_of_mem_take hf)).1,
        appendedRecords_eq_nil fun f hf => (hleaves f (List.mem_of_mem_take hf)).2.appendsNone, List.append_nil]
    have hsame := (sameRegistered_run (hstore.take s.1) fun f hf =>
      (hleaves f (List.mem_of_mem_take hf)).1.not_manifestAppend).trans (sameRegistered_cut hlog hstore hcut)
    refine .of_dir ⟨h.dir.sound.cut hlog hwals hstore hcut, ?_, fun k v hv => ?_⟩ rfl rfl
    · exact (congrArg (fun rs => MemTable.versions (replayed .empty rs)) hseq).trans h.dir.merged
    · exact h.dir.stored k v (hsame.recordsOf_congr ▸ hv)

/-- **Closing**, stopped or not, leaves the directory. -/
theorem closing {stop : Option (ℕ × ℕ)} (h : w.Merging X offers) (he : w.engine = some e) :
    (w.step X ⟨.close, clock, stop⟩).Merging X offers := by
  have hleaves : w.LeavesFiles X ⟨.close, clock, stop⟩ := leavesFiles_close he
  have hflights : (w.step X ⟨.close, clock, stop⟩).flights = [] := by
    cases stop with
    | none => exact flights_onEngine.trans h.flights
    | some s => rfl
  exact .of_dir (hleaves.fs ▸ h.dir) hleaves.engine hflights

/-- What has been offered in a run: versions of `D` only, and all of the segments that have been imported. -/
structure Offered (D seen : List Dat) (offers : List (Bytes × Version)) : Prop where
  only : ∀ o ∈ offers, o ∈ versionsOf D
  all : ∀ o ∈ versionsOf seen, o ∈ offers

/-- **A call** merges what it imports. -/
theorem step {seen : List Dat} (h : w.Merging X offers) (hoffered : Offered D seen offers)
    (hD : ∀ dat ∈ D, Deliverable dat) (hc : w.PullCall X D c) :
    ∃ offers', (w.step X c).Merging X offers' ∧ Offered D (seen ++ w.deliveredBy X c) offers' := by
  have hidle : w.deliveredBy X c = [] → Offered D (seen ++ w.deliveredBy X c) offers := fun hnone => by
    rw [hnone, List.append_nil]
    exact hoffered
  obtain ⟨op, clock, stop⟩ := c
  obtain ⟨hclean, hc⟩ := hc
  cases he : w.engine with
  | none =>
    simp only [he] at hc
    cases op with
    | «open» config =>
      obtain ⟨hadmitted, hwal, hheader, hmanifest⟩ := hc
      refine ⟨offers, h.opening he hclean hadmitted hwal hheader hmanifest, hidle ?_⟩
      simp only [deliveredBy, he]
    | _ => exact hc.elim
  | some e =>
    simp only [he] at hc
    cases op with
    | close => exact ⟨offers, h.closing he, hidle (by simp only [deliveredBy, he])⟩
    | importSegment dat size hash =>
      obtain ⟨hadmitted, hwal, hdat⟩ := hc
      obtain ⟨offers', hmerging, hextends, hdelivered⟩ := h.importing he hadmitted hwal (hD dat hdat) hclean
      refine ⟨offers', hmerging, fun o ho => ?_, fun o ho => ?_⟩
      · rcases hextends.new o ho with ho | ho
        · exact hoffered.only o ho
        · exact mem_versionsOf hdat ho
      · obtain ⟨dat', hmem, ho'⟩ := List.mem_flatMap.mp ho
        rcases List.mem_append.mp hmem with hmem | hmem
        · exact hextends.old o (hoffered.all o (mem_versionsOf hmem ho'))
        · obtain ⟨size', hash', hop⟩ := op_of_mem_deliveredBy hmem
          obtain rfl : dat = dat' := (Op.importSegment.inj hop).1
          exact hdelivered hmem o ho'
    | _ => exact hc.elim

/-- **A run** merges what it imports. -/
theorem run {seen : List Dat} {calls : List Call} (h : w.Merging X offers) (hoffered : Offered D seen offers)
    (hD : ∀ dat ∈ D, Deliverable dat) (hcalls : Run.All (World.step X) (PullCall X D) w calls) :
    ∃ offers', (Run.from (World.step X) w calls).Merging X offers' ∧ Offered D (seen ++ w.delivered X calls) offers' := by
  induction calls generalizing w seen offers with
  | nil => exact ⟨offers, h, (List.append_nil seen).symm ▸ hoffered⟩
  | cons c calls ih =>
    obtain ⟨offers₁, h₁, hoffered₁⟩ := h.step hoffered hD hcalls.1
    rw [delivered, ← List.append_assoc]
    exact ih h₁ hoffered₁ hcalls.2

end Merging

/-- What `get` returns in a run that has imported all segments. -/
theorem get_of_delivered {calls : List Call} (hD : ∀ dat ∈ D, Deliverable dat)
    (hagrees : Agrees Version.timestamp (versionsOf D)) (hcalls : Run.All (step X) (PullCall X D) {} calls)
    (hall : ∀ dat ∈ D, dat ∈ delivered X {} calls) (he : (Run.from (step X) {} calls).engine = some e)
    {ns key k : Bytes} (hk : encodeKey ns key = .ok k) :
    e.get X (Run.from (step X) {} calls).fs ns key =
      .ok ((offerAll Version.timestamp (fun _ => none) (versionsOf D) k).bind Version.live) := by
  have hempty : Merging.Offered D [] [] :=
    ⟨fun o ho => absurd ho List.not_mem_nil, fun o ho => absurd ho List.not_mem_nil⟩
  obtain ⟨offers, hmerging, hoffered⟩ := Merging.empty.run hempty hD hcalls
  have hsame : ∀ o, o ∈ offers ↔ o ∈ versionsOf D := by
    refine fun o => ⟨hoffered.only o, fun ho => hoffered.all o ?_⟩
    obtain ⟨dat, hdat, ho⟩ := List.mem_flatMap.mp ho
    exact mem_versionsOf (hall dat hdat) ho
  rw [hmerging.dir.get_eq (hmerging.inv.engine e he) (hmerging.memtable e he) hk, offerAll_congr hagrees hsame]

/-- A record of a peer. -/
def peerRecord (key : Bytes) (value : Option Bytes) (timestamp : ℤ) : Bytes × MemEntry :=
  ([0, 1, 1] ++ key, { key := [0, 1, 1] ++ key, value := value, op := if value.isSome then .put else .delete, lsn := 1,
                       timestamp := timestamp, ttl := 0 })

/-- A segment of records. -/
def peerDat (ps : List (Bytes × MemEntry)) : Dat := [.decoded 10 ps]

/-- Two segments with the same keys; one has the later record of the one key, which is a delete, and the other of the
other key. -/
def peerDats : List Dat :=
  [peerDat [peerRecord [7] (some [10]) 5, peerRecord [8] (some [20]) 9],
    peerDat [peerRecord [7] none 6, peerRecord [8] (some [21]) 3]]

/-- The import of a segment. -/
def pull (dat : Dat) (stop : Option (ℕ × ℕ)) : Call :=
  { op := .importSegment dat 10 (plainExternals.datHash dat), stop := stop }

/-- The segments in their order, with a restart between them, and the first one again. -/
def pullRun : List Call :=
  [{ op := .open {} }, pull peerDats[0] none, { op := .close }, { op := .open {} }, pull peerDats[1] none,
    pull peerDats[0] none]

/-- The other order, and the first import stops behind one of its records. -/
def pullRun' : List Call :=
  [{ op := .open {} }, pull peerDats[1] (some (3, 0)), { op := .open {} }, pull peerDats[0] none, pull peerDats[1] none]

/-- **Two records with one timestamp** may leave replicas that differ: each has the one that it has imported first. -/
theorem replicas_diverge :
    (Run.from (step plainExternals) {}
        [{ op := .open {} }, pull (peerDat [peerRecord [7] (some [1]) 5]) none,
          pull (peerDat [peerRecord [7] (some [2]) 5]) none]).get plainExternals [1] [7] = some (.ok (some [1])) ∧
      (Run.from (step plainExternals) {}
        [{ op := .open {} }, pull (peerDat [peerRecord [7] (some [2]) 5]) none,
          pull (peerDat [peerRecord [7] (some [1]) 5]) none]).get plainExternals [1] [7] = some (.ok (some [2])) := by
  decide +kernel

end World
