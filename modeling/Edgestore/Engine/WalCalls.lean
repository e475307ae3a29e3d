import Edgestore.Engine.WalSpec

/-!
# Calls keep the log in order

Flushes unlink WAL files from the front of the log, the public writes log one record each, an import
logs the records it applies, and opening an engine finds the end of the log.

## Main definitions

* `Engine.Retired X e fs e' fs'`: a flush has left the last WAL file, and the memtable entries above
  the flushed LSNs

## Main results

* `Engine.WalInv.wp_finalizeFlush`, `Engine.WalInv.wp_put`, `Engine.WalInv.wp_importSegment`
* `wp_openWal`, `Engine.wp_open_wal`: opening finds the end of the log
-/

open FramedLog

variable {X : Externals} {σ T α : Type} {fs : Fs}

namespace Engine

variable {e : Engine} {clock : ℕ → ℕ}

/-! ### Flushes -/

/-- **Retiring WAL files** unlinks all but the last one, from the front. -/
theorem WalInv.wp_retireWals (h : WalInv X e fs) :
    Prog.wp (retireWals (X := X))
      ⟨fun _ q fs' => q = ⟨e, clock⟩ ∧ WalInv X e fs' ∧
          ∃ bs, fs.Latest e.wal.name bs ∧ fs'.wals.entries = [(e.wal.name, bs)],
        fun _ _ _ => False, FitsWal X, WalEffect X⟩ ⟨e, clock⟩ fs := by
  obtain ⟨bs, rs, ⟨pre, heq⟩, hholds, hclean⟩ := h.atEnd
  have hnames : ((fs.wals.entries.map Prod.fst).filter fun n => n ≠ e.wal.name) =
      pre.map Prod.fst := by
    rw [heq, List.map_append, List.filter_append, List.filter_eq_self.mpr]
    · simp
    · intro n hn
      obtain ⟨p, hp, rfl⟩ := List.mem_map.mp hn
      simpa using (Fs.lt_of_entries heq p hp).ne
  simp only [retireWals, Prog.wp_bind, Exec.wp_get, Exec.wp_fs, hnames]
  -- the files still to be unlinked are the first ones
  refine Prog.wp_forM (fun rest q (fs' : Fs) => ∃ todo, rest = todo.map Prod.fst ∧
      fs'.wals.entries = todo ++ [(e.wal.name, bs)] ∧ q = ⟨e, clock⟩ ∧ WalLog X fs' ∧
      ∀ r ∈ walSequence X fs', r ∈ walSequence X fs) ?step ?done _
    ⟨pre, rfl, heq, rfl, h.log, fun _ hr => hr⟩
  case step =>
    rintro n rest q fs' ⟨_ | ⟨⟨n', b⟩, todo⟩, htodo, hentries, rfl, hlog, hsub⟩
    · cases htodo
    · obtain ⟨rfl, rfl⟩ := List.cons.inj htodo
      simp only [Exec.wp_effect]
      have heffect : WalEffect X (.walUnlink n) fs' := ⟨b, _, hentries⟩
      refine fun _ => ⟨heffect, todo, rfl, SortedMap.entries_erase_of_cons hentries, trivial,
        hlog.apply heffect, fun r hr => hsub r ?_⟩
      rw [heffect.walSequence_apply] at hr
      exact List.mem_of_mem_drop hr
  case done =>
    rintro q fs' ⟨todo, htodo, hentries, rfl, hlog, hsub⟩
    obtain rfl : todo = [] := List.map_eq_nil_iff.mp htodo.symm
    exact ⟨rfl, ⟨hlog, ⟨bs, rs, ⟨[], hentries⟩, hholds, hclean⟩,
      fun r hr => h.counter r (hsub r hr), h.memtable⟩, bs, ⟨pre, heq⟩, hentries⟩

/-- A flush up to the LSN `flushed` has left the last WAL file, and the memtable entries above. -/
structure Retired (X : Externals) (e : Engine) (fs : Fs) (flushed : Lsn) (e' : Engine) (fs' : Fs) :
    Prop where
  inv : WalInv X e' fs'
  files : ∃ bs, fs.Latest e.wal.name bs ∧ fs'.wals.entries = [(e.wal.name, bs)]
  engine : e' = { e with
    segmentStore := e'.segmentStore
    memtable := e.memtable.filter fun p => p.2.lsn > flushed }

/-- An engine whose store differs at most, over the same WAL files. -/
structure SameWal (e : Engine) (fs : Fs) (e' : Engine) (fs' : Fs) : Prop where
  walPart : e'.walPart = e.walPart
  wals : fs'.wals = fs.wals

theorem onStore_keepsWal {T : Type} {g : SegmentStore → T} {m : Exec X SegmentStore α}
    (h : Exec.Frame Effect.IsSegment g m) :
    Exec.Frame Effect.KeepsWal walPart (onStore m) :=
  (onStore_frame h).mono fun _ he => .of_isSegment he

/-- **Finishing a flush** keeps the log. -/
theorem WalInv.wp_finalizeFlush (h : WalInv X e fs) (m : SegmentMeta) (flushed : Lsn) :
    Prog.wp (finalizeFlush (X := X) m flushed)
      ⟨fun _ q fs' => Retired X e fs flushed q.state fs',
        fun _ q fs' => SameWal e fs q.state fs', FitsWal X, WalEffect X⟩ ⟨e, clock⟩ fs := by
  rw [finalizeFlush, Prog.wp_bind]
  refine Prog.wp_imp (wp_keepsWal (onStore_keepsWal (SegmentStore.finalizeSegment_frame m))) ?_
    (fun _ _ _ he => ⟨he.1, he.2⟩)
  rintro _ ⟨e₁, clock₁⟩ fs₁ ⟨hpart, hwals⟩
  obtain ⟨store, rfl⟩ : ∃ store, e₁ = { e with segmentStore := store } := ⟨_, eq_of_walPart hpart⟩
  simp only [Prog.wp_bind, Exec.wp_modify]
  have h₁ : WalInv X { e with
      segmentStore := store
      memtable := e.memtable.filter fun p => p.2.lsn > flushed } fs₁ :=
    ⟨h.log.congr hwals, h.atEnd.congr hwals, by rw [walSequence_congr hwals]; exact h.counter,
      fun p hp => h.memtable p (List.mem_filter.mp hp).1⟩
  refine Prog.wp_imp h₁.wp_retireWals ?_ (fun _ _ _ he => he.elim)
  rintro _ q fs₂ ⟨rfl, h₂, bs, hlatest, hentries⟩
  refine ⟨h₂, ⟨bs, ?_, hentries⟩, rfl⟩
  rw [Fs.Latest, ← hwals]
  exact hlatest

/-- **A flush** keeps the log. -/
theorem WalInv.wp_flushToSegments (h : WalInv X e fs) :
    Prog.wp (flushToSegments (X := X))
      ⟨fun _ q fs' => ∃ flushed, Retired X e fs flushed q.state fs',
        fun _ q fs' => SameWal e fs q.state fs', FitsWal X, WalEffect X⟩ ⟨e, clock⟩ fs := by
  rw [flushToSegments, Prog.wp_bind]
  refine Prog.wp_imp (wp_keepsWal (beginFlush_frame _)) ?_ (fun _ _ _ he => ⟨he.1, he.2⟩)
  rintro work ⟨e₁, clock₁⟩ fs₁ ⟨hpart, hwals⟩
  cases work with
  | none => exact (Prog.wp_throw _).mpr ⟨hpart, hwals⟩
  | some w =>
    simp only [Prog.wp_bind]
    refine Prog.wp_imp (wp_keepsWal ((w.execute_frame walPart).mono fun _ he => .of_isSegment he))
      ?_ (fun _ _ _ he => ⟨he.1.trans hpart, he.2.trans hwals⟩)
    rintro m ⟨e₂, clock₂⟩ fs₂ ⟨hpart₂, hwals₂⟩
    have hpart₂ : e₂.walPart = e.walPart := hpart₂.trans hpart
    have hwals₂ : fs₂.wals = fs.wals := hwals₂.trans hwals
    refine Prog.wp_imp ((h.congr hpart₂ hwals₂).wp_finalizeFlush m w.flushedMaxLsn) ?_
      (fun _ _ _ he => ⟨he.walPart.trans hpart₂, he.wals.trans hwals₂⟩)
    rintro _ ⟨e₃, clock₃⟩ fs₃ ⟨h₃, ⟨bs, hlatest, hentries⟩, he₃⟩
    obtain ⟨store, rfl⟩ : ∃ store, e₂ = { e with segmentStore := store } := ⟨_, eq_of_walPart hpart₂⟩
    refine (Prog.wp_pure _).mpr ⟨w.flushedMaxLsn, h₃, ⟨bs, ?_, hentries⟩, he₃⟩
    rw [Fs.Latest, ← hwals₂]
    exact hlatest

/-! ### Writes -/

/-- What a write leaves: its record is logged and applied. -/
theorem WalInv.wp_writeEntry (h : WalInv X e fs) {ns key val : Bytes} {ttl : ℕ}
    (hahead : (e.wal.appended X [putRecord X (e.lsnCounter + 1) (asI64 (clock 0)) ttl ns key val]
      ).needsRotation (unixSecs (clock 1)) = true → e.wal.name ≤ e.lsnCounter) :
    Prog.wp (writeEntry (X := X) ns key val ttl)
      ⟨fun lsn q fs' => lsn = e.lsnCounter + 1 ∧
          Logged X e fs [putRecord X (e.lsnCounter + 1) (asI64 (clock 0)) ttl ns key val] q.state fs' ∧
          (q.state.wal.name = e.wal.name ∨ q.state.wal.name = e.lsnCounter + 1),
        fun _ _ _ => False, FitsWal X, WalEffect X⟩ ⟨e, clock⟩ fs := by
  simp only [writeEntry, nextLsn, Prog.wp_bind, Exec.wp_modify, Exec.wp_get, Prog.wp_pure,
    Exec.wp_now]
  exact h.wp_writeRecord rfl hahead

/-- A check fails without an effect, or passes. -/
theorem wp_checkPut {ns : Bytes} {rely guar : Effect → Fs → Prop} :
    Prog.wp (checkPut (X := X) ns)
      ⟨fun _ q fs' => q = ⟨e, clock⟩ ∧ fs' = fs ∧ e.config.readonly = false ∧ ns.length ≤ maxNsLen,
        fun err q fs' => q = ⟨e, clock⟩ ∧ fs' = fs ∧
          (e.config.readonly = true ∧ err = .readOnly ∨
            maxNsLen < ns.length ∧ err = .namespaceTooLong ns.length maxNsLen),
        rely, guar⟩ ⟨e, clock⟩ fs := by
  simp only [checkPut, Prog.wp_bind, Exec.wp_get, Prog.wp_ite, Prog.wp_throw, Prog.wp_pure]
  split
  case isTrue hr => exact ⟨trivial, trivial, .inl ⟨hr, trivial⟩⟩
  case isFalse hr =>
    split
    case isTrue hns => exact ⟨trivial, trivial, .inr ⟨hns, trivial⟩⟩
    case isFalse hns => exact ⟨trivial, trivial, by simpa using hr, not_lt.mp hns⟩

/-- What a write of `r` leaves if it gets past its checks: the record is logged and applied, and a
flush may have followed. -/
def Wrote (X : Externals) (e : Engine) (fs : Fs) (r : WalRecord) (e' : Engine) (fs' : Fs) : Prop :=
  ∃ e₁ fs₁, Logged X e fs [r] e₁ fs₁ ∧
    (SameWal e₁ fs₁ e' fs' ∨ ∃ flushed, Retired X e₁ fs₁ flushed e' fs')

theorem SameWal.refl : SameWal e fs e fs := ⟨rfl, rfl⟩

theorem Logged.wrote {r : WalRecord} {e' : Engine} {fs' : Fs} (h : Logged X e fs [r] e' fs') :
    Wrote X e fs r e' fs' := ⟨e', fs', h, .inl .refl⟩

theorem Wrote.inv {r : WalRecord} {e' : Engine} {fs' : Fs} (h : Wrote X e fs r e' fs') :
    WalInv X e' fs' := by
  obtain ⟨e₁, fs₁, hlogged, hsame | ⟨flushed, hretired⟩⟩ := h
  · exact hlogged.inv.congr hsame.walPart hsame.wals
  · exact hretired.inv

/-- **A put**, with the flush that may follow. -/
theorem WalInv.wp_put (h : WalInv X e fs) {ns key val : Bytes}
    (hahead : (e.wal.appended X [putRecord X (e.lsnCounter + 1) (asI64 (clock 0)) 0 ns key val]
      ).needsRotation (unixSecs (clock 1)) = true → e.wal.name ≤ e.lsnCounter) :
    Prog.wp (put (X := X) ns key val)
      ⟨fun _ q fs' =>
          Wrote X e fs (putRecord X (e.lsnCounter + 1) (asI64 (clock 0)) 0 ns key val) q.state fs',
        fun err q fs' => NotExists err ∧ ((q.state = e ∧ fs' = fs) ∨
          Wrote X e fs (putRecord X (e.lsnCounter + 1) (asI64 (clock 0)) 0 ns key val) q.state fs'),
        FitsWal X, WalEffect X⟩ ⟨e, clock⟩ fs := by
  rw [put, Prog.wp_bind]
  refine Prog.wp_imp wp_checkPut ?_ fun err _ _ he => ⟨?_, .inl ⟨by rw [he.1], he.2.1⟩⟩
  rotate_left
  · rcases he.2.2 with ⟨-, rfl⟩ | ⟨-, rfl⟩ <;> simp [NotExists]
  rintro _ _ _ ⟨rfl, rfl, -, -⟩
  rw [Prog.wp_bind]
  refine Prog.wp_imp (h.wp_writeEntry hahead) ?_ (fun _ _ _ he => he.elim)
  rintro lsn ⟨e₁, clock₁⟩ fs₁ ⟨-, hlogged, -⟩
  simp only [Prog.wp_bind, Exec.wp_get, Prog.wp_ite, Prog.wp_pure]
  split
  · exact Prog.wp_imp (flushToSegments_throws.wp hlogged.inv.wp_flushToSegments)
      (fun _ _ _ hq => ⟨e₁, fs₁, hlogged, .inr hq⟩)
      (fun _ _ _ hq => ⟨hq.2, .inr ⟨e₁, fs₁, hlogged, .inl hq.1⟩⟩)
  · exact hlogged.wrote

/-- **A put with a TTL**. -/
theorem WalInv.wp_putWithTtl (h : WalInv X e fs) {ns key val : Bytes} {ttl : ℕ}
    (hahead : (e.wal.appended X [putRecord X (e.lsnCounter + 1) (asI64 (clock 0)) ttl ns key val]
      ).needsRotation (unixSecs (clock 1)) = true → e.wal.name ≤ e.lsnCounter) :
    Prog.wp (putWithTtl (X := X) ns key val ttl)
      ⟨fun _ q fs' => Logged X e fs
          [putRecord X (e.lsnCounter + 1) (asI64 (clock 0)) ttl ns key val] q.state fs',
        fun err q fs' => q = ⟨e, clock⟩ ∧ fs' = fs ∧
          (e.config.readonly = true ∧ err = .readOnly ∨
            maxNsLen < ns.length ∧ err = .namespaceTooLong ns.length maxNsLen),
        FitsWal X, WalEffect X⟩ ⟨e, clock⟩ fs := by
  rw [putWithTtl, Prog.wp_bind]
  refine Prog.wp_imp wp_checkPut ?_ (fun _ _ _ he => he)
  rintro _ _ _ ⟨rfl, rfl, -, -⟩
  exact Prog.wp_imp (h.wp_writeEntry hahead) (fun _ _ _ hq => hq.2.1) (fun _ _ _ he => he.elim)

/-- **A delete**. -/
theorem WalInv.wp_delete (h : WalInv X e fs) {ns key : Bytes}
    (hahead : (e.wal.appended X [deleteRecord X (e.lsnCounter + 1) (asI64 (clock 0)) ns key]
      ).needsRotation (unixSecs (clock 1)) = true → e.wal.name ≤ e.lsnCounter) :
    Prog.wp (delete (X := X) ns key)
      ⟨fun _ q fs' => Logged X e fs
          [deleteRecord X (e.lsnCounter + 1) (asI64 (clock 0)) ns key] q.state fs',
        fun err q fs' => q = ⟨e, clock⟩ ∧ fs' = fs ∧ e.config.readonly = true ∧ err = .readOnly,
        FitsWal X, WalEffect X⟩ ⟨e, clock⟩ fs := by
  simp only [delete, Prog.wp_bind, Exec.wp_get, Prog.wp_ite, Prog.wp_throw, nextLsn, Exec.wp_modify,
    Prog.wp_pure, Exec.wp_now]
  split
  case isTrue hr => exact ⟨trivial, trivial, hr, trivial⟩
  case isFalse =>
    exact Prog.wp_imp (h.wp_writeRecord rfl hahead) (fun _ _ _ hq => hq.2.1)
      (fun _ _ _ he => he.elim)

/-! ### Imports -/

/-- The invariant, with the LSN counter at or above the name of the current WAL file. -/
structure Ahead (X : Externals) (e : Engine) (fs : Fs) : Prop where
  inv : WalInv X e fs
  le : e.wal.name ≤ e.lsnCounter

theorem Logged.ahead {rs : List WalRecord} {e' : Engine} {fs' : Fs} (hlogged : Logged X e fs rs e' fs')
    (h : e.wal.name ≤ e.lsnCounter)
    (hname : e'.wal.name = e.wal.name ∨ e'.wal.name = e.lsnCounter + rs.length) : Ahead X e' fs' := by
  refine ⟨hlogged.inv, ?_⟩
  rw [hlogged.engine]
  rcases hname with hname | hname
  · exact hname ▸ h.trans (Nat.le_add_right _ _)
  · exact hname.le

/-- Records have been logged and applied to the memtable. -/
def LogApplied (X : Externals) (e : Engine) (fs : Fs) (e' : Engine) (fs' : Fs) : Prop :=
  ∃ rs, walSequence X fs' = walSequence X fs ++ rs ∧ e'.memtable = replayed e.memtable rs

theorem LogApplied.refl : LogApplied X e fs e fs := ⟨[], (List.append_nil _).symm, rfl⟩

theorem LogApplied.trans {e' e'' : Engine} {fs' fs'' : Fs} (h : LogApplied X e fs e' fs')
    (h' : LogApplied X e' fs' e'' fs'') : LogApplied X e fs e'' fs'' := by
  obtain ⟨rs, hseq, hmem⟩ := h
  obtain ⟨rs', hseq', hmem'⟩ := h'
  exact ⟨rs ++ rs', by rw [hseq', hseq, List.append_assoc], by rw [hmem', hmem, replayed_append]⟩

theorem LogApplied.congr {e' e'' : Engine} {fs' fs'' : Fs} (h : LogApplied X e fs e' fs')
    (he : e''.walPart = e'.walPart) (hfs : fs''.wals = fs'.wals) : LogApplied X e fs e'' fs'' := by
  obtain ⟨rs, hseq, hmem⟩ := h
  refine ⟨rs, by rw [walSequence_congr hfs, hseq], ?_⟩
  rw [eq_of_walPart he]
  exact hmem

theorem Logged.applied {rs : List WalRecord} {e' : Engine} {fs' : Fs} (h : Logged X e fs rs e' fs') :
    LogApplied X e fs e' fs' := ⟨rs, h.sequence, by rw [h.engine]⟩

/-- **Applying an entry** keeps the log. -/
theorem Ahead.wp_importEntry (h : Ahead X e fs) (g : ImportProgress) (p : Bytes × MemEntry) :
    Prog.wp (importEntry (X := X) g p)
      ⟨fun _ q fs' => Ahead X q.state fs' ∧ LogApplied X e fs q.state fs',
        fun err q fs' => WalInv X q.state fs' ∧ NotExists err, FitsWal X, WalEffect X⟩
      ⟨e, clock⟩ fs := by
  simp only [importEntry, Prog.wp_bind, Exec.wp_get, Exec.wp_fs, Prog.wp_ite, Prog.wp_pure]
  split
  · split
    · simp only [putWithTimestamp, nextLsn, Prog.wp_bind, Prog.wp_ite, Prog.wp_throw, Exec.wp_modify,
        Exec.wp_get, Prog.wp_pure]
      split
      · exact ⟨h.inv, by simp [NotExists]⟩
      · exact Prog.wp_imp (h.inv.wp_writeRecord rfl fun _ => h.le)
          (fun _ _ _ hq => ⟨hq.2.1.ahead h.le hq.2.2, hq.2.1.applied⟩) (fun _ _ _ he => he.elim)
    · exact (Prog.wp_pure _).mpr ⟨h, .refl⟩
    · simp only [deleteWithTimestamp, nextLsn, Prog.wp_bind, Exec.wp_modify, Exec.wp_get,
        Prog.wp_pure]
      exact Prog.wp_imp (h.inv.wp_writeRecord rfl fun _ => h.le)
        (fun _ _ _ hq => ⟨hq.2.1.ahead h.le hq.2.2, hq.2.1.applied⟩) (fun _ _ _ he => he.elim)
    · exact (Prog.wp_pure _).mpr ⟨h, .refl⟩
  · exact ⟨h, .refl⟩

/-- A program that leaves the WAL files alone keeps the invariant. -/
theorem WalInv.wp_keeps {m : Exec X Engine α} (h : WalInv X e fs)
    (hf : Exec.Frame Effect.KeepsWal walPart m) :
    Prog.wp m
      ⟨fun _ q fs' => WalInv X q.state fs', fun _ q fs' => WalInv X q.state fs', FitsWal X,
        WalEffect X⟩ ⟨e, clock⟩ fs :=
  Prog.wp_imp (wp_keepsWal hf) (fun _ _ _ hq => h.congr hq.1 hq.2) (fun _ _ _ hq => h.congr hq.1 hq.2)

theorem syncWal_frame : Exec.Frame Effect.KeepsWal walPart (onWal (X := X) WalWriter.fsync) :=
  .zoom (h := id) (.bind .get fun _ => .effect trivial) fun s t ht => by
    rw [show t = s.wal from ht]

/-- **Syncing the WAL**. -/
theorem WalInv.wp_flush (h : WalInv X e fs) :
    Prog.wp (flush (X := X))
      ⟨fun _ q fs' => WalInv X q.state fs', fun _ q fs' => WalInv X q.state fs', FitsWal X,
        WalEffect X⟩ ⟨e, clock⟩ fs := h.wp_keeps syncWal_frame

theorem writeSidecars_frame (id : SegmentId) (g : ImportProgress) (m : SegmentMeta) :
    Exec.Frame Effect.KeepsWal walPart (writeSidecars (X := X) id g m) :=
  .bind (.effect trivial) fun _ => .bind (.effect trivial) fun _ => .bind (.effect trivial) fun _ =>
    .bind (.effect trivial) fun _ => .bind (.effect trivial) fun _ => .effect trivial

/-- **An import** keeps the log, and applies what it logs. -/
theorem Ahead.wp_importSegment (h : Ahead X e fs) (dat : Dat) (size : ℕ) (hash : Bytes) :
    Prog.wp (importSegment (X := X) dat size hash)
      ⟨fun _ q fs' => WalInv X q.state fs' ∧ LogApplied X e fs q.state fs',
        fun err q fs' => WalInv X q.state fs' ∧ NotExists err, FitsWal X, WalEffect X⟩
      ⟨e, clock⟩ fs := by
  simp only [importSegment, Prog.wp_bind, Exec.wp_get, Prog.wp_ite, Prog.wp_pure, Exec.wp_effect]
  split
  · exact ⟨h.inv, .refl⟩
  split
  · exact ⟨h.inv, .refl⟩
  refine fun _ => ⟨trivial, fun _ => ⟨trivial, ?_⟩⟩
  set fs₁ := applyEffect X (.stageRename hash) (applyEffect X (.stageWrite hash dat) fs) with hfs₁
  have h' : Ahead X e fs₁ := ⟨h.inv.congr rfl rfl, h.le⟩
  have hstaged : LogApplied X e fs e fs₁ := LogApplied.refl.congr rfl rfl
  split
  · exact (Prog.wp_pure _).mpr ⟨h'.inv, hstaged⟩
  · exact (Prog.wp_pure _).mpr ⟨h'.inv, hstaged⟩
  · rw [Prog.wp_bind]
    refine Prog.wp_foldlM (fun _ _ q fs' => Ahead X q.state fs' ∧ LogApplied X e fs q.state fs')
      ?step ?_ _ _ ⟨h', hstaged⟩
    case step =>
      rintro p rest g q fs' ⟨hq, happlied⟩
      exact Prog.wp_imp (hq.wp_importEntry g p) (fun _ _ _ hq' => ⟨hq'.1, happlied.trans hq'.2⟩)
        fun _ _ _ he => he
    rintro g ⟨e₁, clock₁⟩ fs₁ ⟨⟨h₁, -⟩, happlied⟩
    refine Prog.wp_imp (Prog.Throws.wp (E := NotExists) ?throws (wp_keepsWal (g := walPart) ?frame)) ?_ ?_
    case frame =>
      exact .bind (onStore_frame (SegmentStore.allocSegmentId_frame _)) fun _ =>
        .bind (.effect trivial) fun _ => .bind syncWal_frame fun _ => .bind .now fun _ =>
        .bind (writeSidecars_frame _ _ _) fun _ => .bind .fs fun _ => .bind (.lift _) fun _ =>
        .bind (onStore_keepsWal (SegmentStore.addImportedSegment_frame _ _)) fun _ => .pure _
    case throws =>
      exact .bind (throws_zoom (.bind throws_get fun _ => .bind (.modify _) fun _ => .pure _))
        fun _ => .bind (.emit _) fun _ =>
        .bind (throws_zoom (.bind throws_get fun _ => .emit _)) fun _ => .bind throws_now fun _ =>
        .bind (.bind (.emit _) fun _ => .bind (.emit _) fun _ => .bind (.emit _) fun _ =>
          .bind (.emit _) fun _ => .bind (.emit _) fun _ => .emit _) fun _ =>
        .bind .disk fun _ => .bind (.lift (fails_openReader _ _)) fun _ =>
        .bind (throws_zoom (.bind (throws_zoom (Manifest.addSegment_throws _)) fun _ =>
          .modify _)) fun _ => .pure _
    · exact fun _ q fs' hq => ⟨h₁.congr hq.1 hq.2, happlied.congr hq.1 hq.2⟩
    · exact fun _ q fs' hq => ⟨h₁.congr hq.1.1 hq.1.2, hq.2⟩

end Engine

/-! ### Opening -/

/-- The writer of a WAL file that is opened, before it is rotated. -/
def openedWriter (config : EdgestoreConfig) (n : Lsn) (bs : Bytes) (nanos : ℕ) : WalWriter :=
  ⟨n, bs.length, unixSecs nanos, config.walMaxBytes, config.walMaxAgeSecs⟩

/-- The greatest LSN of records. -/
def topLsn (rs : List WalRecord) : Lsn := (rs.map WalRecord.lsn).foldl max 0

/-- If the last WAL file is due for rotation when it is opened, its name is not above the greatest
LSN of the log. -/
def DueAhead (X : Externals) (fs : Fs) (config : EdgestoreConfig) (clock : ℕ → ℕ) : Prop :=
  ∀ p ∈ fs.wals.entries.getLast?,
    (openedWriter config p.1 p.2 (clock 0)).needsRotation (unixSecs (clock 1)) = true →
      p.1 ≤ topLsn (walSequence X fs)

/-- The last WAL file ends at the end of a frame, unless it is due for rotation when it is opened. -/
def WholeOrDue (X : Externals) (fs : Fs) (config : EdgestoreConfig) (clock : ℕ → ℕ) : Prop :=
  ∀ p ∈ fs.wals.entries.getLast?,
    (openedWriter config p.1 p.2 (clock 0)).needsRotation (unixSecs (clock 1)) = false →
      WalClean X p.2

/-- If the last WAL file is due for rotation when it is opened, its name is not above the greatest
LSN of the log; else it ends at the end of a frame. -/
def OpensAhead (X : Externals) (fs : Fs) (config : EdgestoreConfig) (clock : ℕ → ℕ) : Prop :=
  ∀ p ∈ fs.wals.entries.getLast?,
    let due := (openedWriter config p.1 p.2 (clock 0)).needsRotation (unixSecs (clock 1))
    (due = true → p.1 ≤ topLsn (walSequence X fs)) ∧ (due = false → WalClean X p.2)

theorem le_foldl_max {l : List ℕ} {a n : ℕ} (h : a ∈ l ∨ a ≤ n) : a ≤ l.foldl max n := by
  induction l generalizing n with
  | nil => simpa using h
  | cons b l ih =>
    refine ih ?_
    rcases h with h | h
    · rcases List.mem_cons.mp h with rfl | h
      · exact .inr (le_max_right _ _)
      · exact .inl h
    · exact .inr (h.trans (le_max_left _ _))

theorem lsn_le_topLsn {rs : List WalRecord} {r : WalRecord} (h : r ∈ rs) : r.lsn ≤ topLsn rs :=
  le_foldl_max (.inl (List.mem_map_of_mem h))

/-- **Opening the WAL** places the writer in the last WAL file, or fails on a torn header. -/
theorem wp_openWal {config : EdgestoreConfig} {p : Process σ} (h : WalLog X fs)
    (hdue : DueAhead X fs config p.clock) :
    Prog.wp (Engine.openWal (X := X) (σ := σ) config (topLsn (walSequence X fs)))
      ⟨fun w q fs' => q.state = p.state ∧ WalLog X fs' ∧
          (∃ bs rs, fs'.Latest w.name bs ∧ WalHolds X bs rs ∧
            (WholeOrDue X fs config p.clock → WalClean X bs)) ∧
          walSequence X fs' = walSequence X fs,
        fun err _ fs' => fs' = fs ∧ err = .corruptRecord "WAL file too short to contain header" ∧
          ∃ q ∈ fs.wals.entries.getLast?, q.2.length < walHeader.length,
        FitsWal X, WalEffect X⟩ p fs := by
  simp only [Engine.openWal, Prog.wp_bind, Exec.wp_fs]
  cases hlast : fs.wals.entries.getLast? with
  | none =>
    have hnil : fs.wals.entries = [] := List.getLast?_eq_none_iff.mp hlast
    refine Prog.wp_imp (WalWriter.wp_create h (by simp [hnil])) ?_ (fun _ _ _ he => he.elim)
    rintro w q fs' ⟨hname, -, -, -, hq, hlog, ⟨bs, rs, hlatest, hholds, hclean⟩, hseq⟩
    exact ⟨hq, hlog, ⟨bs, rs, hname ▸ hlatest, hholds, fun _ => hclean⟩, hseq⟩
  | some latest =>
    obtain ⟨n, bs⟩ := latest
    obtain ⟨pre, heq⟩ := List.getLast?_eq_some_iff.mp hlast
    have hlatest : fs.Latest n bs := ⟨pre, heq⟩
    have hdue := hdue (n, bs) hlast
    simp only [Prog.wp_bind, WalWriter.open, Exec.wp_fs, hlatest.get_eq, Prog.wp_lift]
    rcases h.files (n, bs) (by simp [heq]) with hshort | ⟨rs, hholds⟩
    · rw [readAndValidateHeader_short hshort]
      exact ⟨rfl, rfl, (n, bs), rfl, hshort⟩
    · simp only [hholds.header_ok, Prog.result_ok, Exec.wp_now, Prog.wp_pure, Prog.wp_ite]
      split
      case isTrue htrue =>
        refine Prog.wp_imp (WalWriter.wp_create h fun q hq =>
          Nat.lt_succ_of_le ((hlatest.le q hq).trans (hdue htrue))) ?_ (fun _ _ _ he => he.elim)
        rintro w q fs' ⟨hname, -, -, -, hq, hlog, ⟨bs', rs', hlatest', hholds', hclean⟩, hseq⟩
        exact ⟨hq, hlog, ⟨bs', rs', hname ▸ hlatest', hholds', fun _ => hclean⟩, hseq⟩
      case isFalse hfalse =>
        exact ⟨trivial, h, ⟨bs, rs, hlatest, hholds, fun hwhole =>
          hwhole (n, bs) hlast (Bool.eq_false_iff.mpr hfalse)⟩, trivial⟩

namespace Engine

/-- An engine that has replayed the log. Its writer is in the last WAL file. -/
structure OpenedPlaced (X : Externals) (fs : Fs) (config : EdgestoreConfig) (e : Engine) (fs' : Fs) :
    Prop where
  placed : WalPlaced X e fs'
  sequence : walSequence X fs' = walSequence X fs
  memtable : e.memtable = replayed .empty (walSequence X fs)
  lsnCounter : e.lsnCounter = topLsn (walSequence X fs)
  config_eq : e.config = config

/-- **Opening an engine** replays the log. -/
theorem wp_open_placed {config : EdgestoreConfig} {p : Process σ} (h : WalLog X fs)
    (hdue : DueAhead X fs config p.clock) :
    Prog.wp (Engine.open (X := X) (σ := σ) config)
      ⟨fun e _ fs' => OpenedPlaced X fs config e fs' ∧
          (WholeOrDue X fs config p.clock → e.EndsWhole X fs'),
        fun err _ fs' => WalLog X fs' ∧ walSequence X fs' = walSequence X fs ∧ NotExists err,
        FitsWal X, WalEffect X⟩ p fs := by
  obtain ⟨res, hrec, hlsn, -⟩ := recoverFromWal_eq (fun r hr => (h.files.fits r hr).nsBytes_le) .empty
  simp only [Engine.open, Prog.wp_bind, Exec.wp_fs, Prog.wp_lift, hrec, Prog.result_ok, hlsn]
  refine Prog.wp_imp (wp_openWal h hdue) ?_ ?_
  · rintro w q fs₁ ⟨-, hlog, ⟨bs, rs, hlatest, hholds, hclean⟩, hseq⟩
    refine Prog.wp_imp ((SegmentStore.open_throws config.cohortWindowSecs).wp
      (wp_keepsWal ((SegmentStore.open_frame config.cohortWindowSecs
        fun _ => ()).mono fun _ he => .of_isSegment he))) ?_ ?_
    · rintro s q' fs₂ ⟨-, hwals⟩
      have hlatest₂ : fs₂.Latest w.name bs := by
        rw [Fs.Latest, hwals]
        exact hlatest
      refine (Prog.wp_pure _).mpr ⟨⟨⟨hlog.congr hwals, ⟨bs, rs, hlatest₂, hholds⟩, ?_, ?_⟩,
        (walSequence_congr hwals).trans hseq, rfl, rfl, rfl⟩, fun hwhole bs' hbs' => ?_⟩
      · rw [walSequence_congr hwals, hseq]
        exact fun r hr => lsn_le_topLsn hr
      · intro p hp
        rcases mem_replayed hp with hp | ⟨r, hr, rfl⟩
        · cases hp
        · exact lsn_le_topLsn hr
      · rw [hlatest₂.get_eq] at hbs'
        cases hbs'
        exact hclean hwhole
    · rintro _ _ fs₂ ⟨⟨-, hwals⟩, herr⟩
      exact ⟨hlog.congr hwals, (walSequence_congr hwals).trans hseq, herr⟩
  · rintro _ _ fs₁ ⟨rfl, rfl, -⟩
    exact ⟨h, rfl, by simp [NotExists]⟩

/-- An engine that has replayed the log. -/
structure Opened (X : Externals) (fs : Fs) (config : EdgestoreConfig) (e : Engine) (fs' : Fs) :
    Prop where
  inv : WalInv X e fs'
  sequence : walSequence X fs' = walSequence X fs
  memtable : e.memtable = replayed .empty (walSequence X fs)
  lsnCounter : e.lsnCounter = topLsn (walSequence X fs)
  config_eq : e.config = config

/-- **Opening an engine** finds the end of the log. -/
theorem wp_open_wal {config : EdgestoreConfig} {p : Process σ} (h : WalLog X fs)
    (hopens : OpensAhead X fs config p.clock) :
    Prog.wp (Engine.open (X := X) (σ := σ) config)
      ⟨fun e _ fs' => Opened X fs config e fs', fun err _ fs' => WalLog X fs' ∧
        walSequence X fs' = walSequence X fs ∧ NotExists err, FitsWal X, WalEffect X⟩ p fs := by
  refine Prog.wp_imp (wp_open_placed h fun p hp => (hopens p hp).1) ?_ fun _ _ _ he => he
  rintro e q fs' ⟨⟨hplaced, hseq, hmem, hlsn, hconfig⟩, hwhole⟩
  exact ⟨hplaced.inv (hwhole fun p hp => (hopens p hp).2), hseq, hmem, hlsn, hconfig⟩

end Engine
