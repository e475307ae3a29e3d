import Edgestore.CrashPoints

/-!
# Openings that find a record in the WAL

The LSN counter of an engine that is opened is the greatest LSN in the WAL files, and segments are not asked. As long
as one record is left in the WAL files, this is the LSN of the last record that was ever logged, and nothing is above
it: what is in a segment file, what has been acknowledged and what is in a flush in flight was logged before. An
opening that finds no record starts over, so it may find none only before anything is known.

## Main definitions

* `World.LsnsGrow`: what a call must do for LSNs to grow
* `TopOf X K fs`: the last record of the log is not below the LSNs in `K` and in the segment files
* `KeepsTop X K`: the effects that keep it so
* `World.OpensOnRecords`: an engine is opened over a WAL with a record, or nothing is known yet

## Main results

* `World.LsnInv.step`: calls keep the last record of the log, and the counter, above all that is known
* `World.lsnsGrow_of_opensOnRecords`: LSNs grow in a run whose openings find a record
* `World.flush_resets_counter`: a restart after a flush starts over
-/

variable {X : Externals} {K : Lsn → Prop} {fs fs' : Fs} {f : Effect} {es : List Effect} {e e' : Engine} {clock : ℕ → ℕ}
  {α σ T : Type} {n : Lsn}

/-! ### The last record of the log -/

theorem topLsn_append (rs : List WalRecord) (r : WalRecord) : topLsn (rs ++ [r]) = max (topLsn rs) r.lsn := by
  rw [topLsn, List.map_append, List.foldl_append]
  rfl

/-- The greatest LSN of an ordered log is that of its last record. -/
theorem topLsn_of_ordered {rs : List WalRecord} (h : rs.Pairwise fun r r' => r.lsn < r'.lsn) {r : WalRecord}
    (hr : rs.getLast? = some r) : topLsn rs = r.lsn := by
  obtain ⟨before, rfl⟩ := List.getLast?_eq_some_iff.mp hr
  rw [topLsn_append]
  refine max_eq_right ?_
  rw [topLsn]
  -- every record before the last one has a lesser LSN
  have hbefore : ∀ r' ∈ before, r'.lsn ≤ r.lsn := fun r' hr' =>
    ((List.pairwise_append.mp h).2.2 r' hr' r (List.mem_singleton_self r)).le
  rcases foldl_max_mem (before.map WalRecord.lsn) 0 with hzero | hmem
  · rw [hzero]
    exact Nat.zero_le _
  · obtain ⟨r', hr', heq⟩ := List.mem_map.mp hmem
    rw [← heq]
    exact hbefore r' hr'

/-- An end of an ordered log that is not empty has the same greatest LSN. -/
theorem topLsn_of_suffix {rs rs' : List WalRecord} (h : rs.Pairwise fun r r' => r.lsn < r'.lsn) (hsuffix : rs' <:+ rs)
    (hne : rs' ≠ []) : topLsn rs' = topLsn rs := by
  obtain ⟨r, hr⟩ := List.getLast?_isSome.mpr hne |> Option.isSome_iff_exists.mp
  obtain ⟨dropped, rfl⟩ := hsuffix
  rw [topLsn_of_ordered (List.pairwise_append.mp h).2.1 hr]
  exact (topLsn_of_ordered h (List.getLast?_append_of_ne_nil _ hne ▸ hr)).symm

/-! ### What is known -/

/-- An LSN of an entry in a segment file, registered or not. -/
def Fs.InFiles (fs : Fs) (n : Lsn) : Prop := ∃ id, ∃ p ∈ (fs.segs id).table, p.2.lsn = n

/-- **The last record of the log is on top**: if a record is left in the WAL files, no LSN in `K` or in a segment file
is above the greatest LSN there. -/
def TopOf (X : Externals) (K : Lsn → Prop) (fs : Fs) : Prop :=
  walSequence X fs ≠ [] → ∀ n, K n ∨ fs.InFiles n → n ≤ topLsn (walSequence X fs)

/-- An effect that keeps the last record on top: what is appended to the WAL is above all that is known, and what is
written to a segment is not above the log. No file of a peer is adopted. -/
def KeepsTop (X : Externals) (K : Lsn → Prop) : Effect → Fs → Prop
  | .walAppend _ r, fs => ∀ n, K n ∨ fs.InFiles n → n ≤ r.lsn
  | .datWrite _ dat, fs => walSequence X fs ≠ [] → ∀ p ∈ Dat.table dat, p.2.lsn ≤ topLsn (walSequence X fs)
  | .stageAdopt _ _, _ => False
  | _, _ => True

/-- An effect that neither appends to the WAL nor writes the entries of a segment. -/
def Effect.WritesNoEntry : Effect → Prop
  | .walAppend _ _ => False
  | .datWrite _ _ => False
  | .stageAdopt _ _ => False
  | _ => True

theorem Effect.WritesNoEntry.keepsTop (h : f.WritesNoEntry) : KeepsTop X K f fs := by
  cases f <;> first | exact h.elim | trivial

/-- An update of a segment adds what it adds to the `.dat` file. -/
theorem Fs.inFiles_setSegment {id : SegmentId} (g : SegmentFiles → SegmentFiles) (hn : (fs.setSegment id g).InFiles n) :
    fs.InFiles n ∨ ∃ p ∈ (g (fs.segs id)).table, p.2.lsn = n := by
  obtain ⟨j, p, hp, hlsn⟩ := hn
  by_cases hj : j = id
  · subst hj
    rw [Fs.segs_setSegment_self] at hp
    exact .inr ⟨p, hp, hlsn⟩
  · rw [Fs.segs_setSegment_of_ne _ fs hj] at hp
    exact .inl ⟨j, p, hp, hlsn⟩

/-- An update that adds no entry to the `.dat` file. -/
theorem Fs.inFiles_of_setSegment {id : SegmentId} (g : SegmentFiles → SegmentFiles)
    (hg : ∀ files, ∀ p ∈ (g files).table, p ∈ files.table) (hn : (fs.setSegment id g).InFiles n) : fs.InFiles n := by
  rcases Fs.inFiles_setSegment g hn with hn | ⟨p, hp, hlsn⟩
  · exact hn
  · exact ⟨id, p, hg _ p hp, hlsn⟩

/-- **What an effect adds to the segment files** is what it writes to a `.dat` file. -/
theorem inFiles_apply (h : f.WritesNoEntry) (hn : (applyEffect X f fs).InFiles n) : fs.InFiles n := by
  cases f with
  | walAppend m r => exact h.elim
  | datWrite id dat => exact h.elim
  | stageAdopt hash id => exact h.elim
  | idxWrite id idx => exact Fs.inFiles_of_setSegment (fun f => { f with idx := .whole idx }) (fun _ _ hp => hp) hn
  | xfWrite id xf => exact Fs.inFiles_of_setSegment (fun f => { f with xf := .whole xf }) (fun _ _ hp => hp) hn
  | metaWrite id m => exact Fs.inFiles_of_setSegment (fun f => { f with segMeta := .whole m }) (fun _ _ hp => hp) hn
  | segUnlink id ext =>
    refine Fs.inFiles_of_setSegment (fun f => f.unlink ext) (fun files p hp => ?_) hn
    cases ext with
    | dat => exact absurd hp List.not_mem_nil
    | _ => exact hp
  | _ => exact hn

/-- A file that is cut short has no entries. -/
theorem inFiles_tear {m : ℕ} (hn : (tearEffect X f m fs).InFiles n) : fs.InFiles n := by
  cases m with
  | zero => cases f <;> exact hn
  | succ m =>
    cases f with
    | datWrite id dat =>
      exact Fs.inFiles_of_setSegment (fun f => { f with dat := .torn }) (fun _ _ hp => absurd hp List.not_mem_nil) hn
    | idxWrite id idx => exact Fs.inFiles_of_setSegment (fun f => { f with idx := .torn }) (fun _ _ hp => hp) hn
    | xfWrite id xf => exact Fs.inFiles_of_setSegment (fun f => { f with xf := .torn }) (fun _ _ hp => hp) hn
    | metaWrite id segMeta =>
      exact Fs.inFiles_of_setSegment (fun f => { f with segMeta := .torn }) (fun _ _ hp => hp) hn
    | _ => exact hn

namespace TopOf

theorem mono {K' : Lsn → Prop} (h : TopOf X K fs) (hK : ∀ n, K' n → K n) : TopOf X K' fs := fun hne n hn =>
  h hne n (hn.imp_left (hK n))

/-- **An effect** keeps the last record on top. -/
theorem apply (h : TopOf X K fs) (hlog : WalLog X fs) (hwal : WalEffect X f fs) (hf : KeepsTop X K f fs) :
    TopOf X K (applyEffect X f fs) := by
  have hseq := hwal.walSequence_apply
  have hsame : f.WritesNoEntry → walSequence X (applyEffect X f fs) = walSequence X fs →
      TopOf X K (applyEffect X f fs) :=
    fun hentry heq hne n hn => by
      rw [heq] at hne ⊢
      exact h hne n (hn.imp_right (inFiles_apply hentry))
  cases f with
  | walAppend m r =>
    intro _ n hn
    have hn' : K n ∨ fs.InFiles n := hn
    rw [show walSequence X (applyEffect X (.walAppend m r) fs) = walSequence X fs ++ [r] from hseq, topLsn_append]
    exact (hf n hn').trans (le_max_right _ _)
  | walUnlink m =>
    intro hne n hn
    have hn' : K n ∨ fs.InFiles n := hn
    have hsuffix := hwal.walSequence_suffix
    rw [show appendedRecords [Effect.walUnlink m] = [] from rfl, List.append_nil] at hsuffix
    rw [topLsn_of_suffix hlog.ordered hsuffix hne]
    -- what is left of the log is not empty, and neither was the log
    exact h (fun hnil => hne (List.suffix_nil.mp (hnil ▸ hsuffix))) n hn'
  | datWrite id dat =>
    intro hne n hn
    have heq : walSequence X (applyEffect X (.datWrite id dat) fs) = walSequence X fs := hseq
    rw [heq] at hne ⊢
    rcases hn with hn | hn
    · exact h hne n (.inl hn)
    · rcases Fs.inFiles_setSegment (fun f => { f with dat := .whole dat }) hn with hn | ⟨p, hp, hlsn⟩
      · exact h hne n (.inr hn)
      · exact hlsn ▸ hf hne p hp
  | stageAdopt hash id => exact hf.elim
  | _ => exact hsame trivial hseq

/-- **An effect that is cut short** keeps the last record on top. -/
theorem tear (h : TopOf X K fs) (hwal : WalEffect X f fs) (hf : KeepsTop X K f fs) (m : ℕ) :
    TopOf X K (tearEffect X f m fs) := by
  have hseq := hwal.walSequence_tear m
  have hsame : walSequence X (tearEffect X f m fs) = walSequence X fs → TopOf X K (tearEffect X f m fs) :=
    fun heq hne n hn => by
      rw [heq] at hne ⊢
      exact h hne n (hn.imp_right inFiles_tear)
  cases f with
  | walAppend j r =>
    simp only at hseq
    split at hseq
    · exact hsame hseq
    · -- the frame is whole
      intro _ n hn
      have hn' : K n ∨ fs.InFiles n := hn
      rw [hseq, topLsn_append]
      exact (hf n hn').trans (le_max_right _ _)
  | _ => exact hsame hseq

end TopOf

/-! ### Engines -/

namespace Engine

/-- **An engine at the top**: its counter is the LSN of the last record of the log, if there is one, and no LSN in `K`
or in a segment file is above it. -/
structure AtTop (X : Externals) (K : Lsn → Prop) (e : Engine) (fs : Fs) : Prop where
  inv : WalInv X e fs
  known : ∀ n, K n ∨ fs.InFiles n → n ≤ e.lsnCounter
  top : walSequence X fs ≠ [] → topLsn (walSequence X fs) = e.lsnCounter

namespace AtTop

theorem topOf (h : AtTop X K e fs) : TopOf X K fs := fun hne n hn => (h.known n hn).trans (h.top hne).ge

/-- The store of the engine, and files other than those of the WAL. -/
theorem congr (h : AtTop X K e fs) (he : e'.walPart = e.walPart) (hwals : fs'.wals = fs.wals)
    (hfiles : ∀ n, fs'.InFiles n → n ≤ e.lsnCounter) : AtTop X K e' fs' := by
  refine ⟨h.inv.congr he hwals, fun n hn => ?_, ?_⟩
  · rw [eq_of_walPart he]
    exact hn.elim (fun hn => h.known n (.inl hn)) (hfiles n)
  · rw [walSequence_congr hwals, eq_of_walPart he]
    exact h.top

/-- Records have been logged under the LSNs that follow the counter. -/
theorem logged {rs : List WalRecord} (h : AtTop X K e fs) (hlogged : Logged X e fs rs e' fs')
    (hlast : ∀ r ∈ rs.getLast?, r.lsn = e.lsnCounter + rs.length) (hsegs : fs'.segs = fs.segs) : AtTop X K e' fs' := by
  have hcounter : e'.lsnCounter = e.lsnCounter + rs.length := by rw [hlogged.engine]
  refine ⟨hlogged.inv, fun n hn => ?_, fun hne => ?_⟩
  · have hn' : K n ∨ fs.InFiles n := hn.imp_right fun hn => by
      rw [Fs.InFiles, hsegs] at hn
      exact hn
    exact (h.known n hn').trans (hcounter ▸ Nat.le_add_right _ _)
  · cases hlog : rs.getLast? with
    | none =>
      obtain rfl : rs = [] := List.getLast?_eq_none_iff.mp hlog
      have hseq : walSequence X fs' = walSequence X fs := hlogged.sequence.trans (List.append_nil _)
      rw [hseq] at hne ⊢
      exact (h.top hne).trans hcounter.symm
    | some r =>
      have hr : (walSequence X fs').getLast? = some r := by
        rw [hlogged.sequence, List.getLast?_append, hlog]
        rfl
      rw [topLsn_of_ordered hlogged.inv.log.ordered hr, hlast r hlog, hcounter]

end AtTop

theorem getLast?_stamped (lsn : Lsn) (rs : List WalRecord) :
    ∀ r ∈ (stamped lsn rs).getLast?, r.lsn = lsn + (stamped lsn rs).length := by
  induction rs generalizing lsn with
  | nil => exact fun r hr => (by cases hr)
  | cons r₀ rs ih =>
    intro r hr
    rw [stamped] at hr ⊢
    rw [List.length_cons]
    cases rs with
    | nil =>
      cases hr
      rfl
    | cons r₁ rs =>
      have hr' : r ∈ (stamped (lsn + 1) (r₁ :: rs)).getLast? := by
        rw [stamped] at hr ⊢
        rwa [List.getLast?_cons_cons] at hr
      rw [ih (lsn + 1) r hr', Nat.add_assoc, Nat.add_comm 1]

/-! ### Writes -/

/-- What is asked of a method: it leaves the engine at the top, and so does each of its effects. -/
def topPost (X : Externals) (K : Lsn → Prop) : Prog.Post (disk X) (Process Engine) EdgestoreError α :=
  ⟨fun _ q fs' => AtTop X K q.state fs', fun _ q fs' => AtTop X K q.state fs', FitsWal X, KeepsTop X K⟩

/-- **What is logged is above all that is known.** -/
theorem AtTop.wp_log {g : Engine → T} {m : Exec X Engine α} (h : AtTop X K e fs) (hlog : Exec.Frame Effect.IsLog g m)
    (hstamps : Stamps m) (rely : Effect → Fs → Prop) :
    Prog.wp m ⟨fun _ _ fs' => fs'.segs = fs.segs, fun _ _ fs' => fs'.segs = fs.segs, rely, KeepsTop X K⟩
      ⟨e, clock⟩ fs := by
  have heffects : ∀ f ∈ (m.run ⟨e, clock⟩ fs).2.2, f.IsLog ∧ ∀ n r, f = .walAppend n r → e.lsnCounter < r.lsn :=
    fun f hf => ⟨(hlog ⟨e, clock⟩ fs).1 f hf, fun n r heq =>
      ((hstamps ⟨e, clock⟩ fs).2 r (mem_appendedRecords.mpr ⟨n, heq ▸ hf⟩)).1⟩
  have hwp : Prog.wp m ⟨fun _ _ _ => True, fun _ _ _ => True, rely,
      fun f _ => f.IsLog ∧ ∀ n r, f = .walAppend n r → e.lsnCounter < r.lsn⟩ ⟨e, clock⟩ fs := by
    refine ⟨Device.safe_of_forall heffects, fun _ => ?_⟩
    generalize (m.run ⟨e, clock⟩ fs).1 = r
    cases r <;> trivial
  refine Prog.wp_imp (Prog.wp_inv (I := fun fs' : Fs => fs'.segs = fs.segs) ?_ hwp rfl) (fun _ _ _ hq => hq.2)
    fun _ _ _ hq => hq.2
  rintro f d - ⟨hf, happends⟩ hsegs
  refine ⟨?_, (hf.isWal.apply (X := X) d).2.1.trans hsegs⟩
  cases f with
  | walAppend j r =>
    intro n hn
    have hn' : K n ∨ fs.InFiles n := hn.imp_right fun hn => by
      rw [Fs.InFiles, hsegs] at hn
      exact hn
    exact (h.known n hn').trans (happends j r rfl).le
  | walCreate j => trivial
  | walHeader j => trivial
  | sync file => trivial
  | _ => exact hf.elim

/-- **A method that only writes to the log** leaves the engine at the top, if it does so by what it logs. -/
theorem AtTop.wp_writes {g : Engine → T} {m : Exec X Engine α} {ok : α → Process Engine → Fs → Prop}
    {error : EdgestoreError → Process Engine → Fs → Prop} (h : AtTop X K e fs) (hlog : Exec.Frame Effect.IsLog g m)
    (hstamps : Stamps m) (hwp : Prog.wp m ⟨ok, error, FitsWal X, WalEffect X⟩ ⟨e, clock⟩ fs)
    (hok : ∀ a q fs', ok a q fs' → fs'.segs = fs.segs → AtTop X K q.state fs')
    (herror : ∀ err q fs', error err q fs' → fs'.segs = fs.segs → AtTop X K q.state fs') :
    Prog.wp m (topPost X K) ⟨e, clock⟩ fs :=
  Prog.wp_mono (Prog.wp_and hwp (h.wp_log hlog hstamps (FitsWal X))) (fun a q fs' hq => hok a q fs' hq.1 hq.2)
    (fun err q fs' hq => herror err q fs' hq.1 hq.2) (fun _ _ hf => ⟨hf, hf⟩) fun _ _ _ hf => hf.2

/-- The LSN of a record that is logged alone. -/
theorem lsn_of_getLast?_singleton {record : WalRecord} (hlsn : record.lsn = e.lsnCounter + 1) :
    ∀ r ∈ [record].getLast?, r.lsn = e.lsnCounter + [record].length := by
  rintro r ⟨⟩
  exact hlsn

section Writes

variable (h : AtTop X K e fs)
include h

theorem AtTop.wp_writeEntry {ns key val : Bytes} {ttl : ℕ}
    (hahead : (e.wal.appended X [putRecord X (e.lsnCounter + 1) (asI64 (clock 0)) ttl ns key val]
      ).needsRotation (unixSecs (clock 1)) = true → e.wal.name ≤ e.lsnCounter) :
    Prog.wp (writeEntry (X := X) ns key val ttl) (topPost X K) ⟨e, clock⟩ fs :=
  h.wp_writes (writeEntry_frame ns key val ttl) (stamps_writeEntry ns key val ttl) (h.inv.wp_writeEntry hahead)
    (fun _ _ _ hq hsegs => h.logged hq.2.1 (lsn_of_getLast?_singleton rfl) hsegs) fun _ _ _ hq _ => hq.elim

theorem AtTop.wp_delete {ns key : Bytes}
    (hahead : (e.wal.appended X [deleteRecord X (e.lsnCounter + 1) (asI64 (clock 0)) ns key]
      ).needsRotation (unixSecs (clock 1)) = true → e.wal.name ≤ e.lsnCounter) :
    Prog.wp (delete (X := X) ns key) (topPost X K) ⟨e, clock⟩ fs := by
  refine h.wp_writes (delete_frame ns key) (stamps_delete ns key) (h.inv.wp_delete hahead)
    (fun _ _ _ hq hsegs => h.logged hq (lsn_of_getLast?_singleton rfl) hsegs) ?_
  rintro _ _ _ ⟨rfl, rfl, -⟩ -
  exact h

theorem AtTop.wp_runTransaction (ops : List TxOp)
    (hahead : (e.wal.appended X (stamped e.lsnCounter (ops.map (TxOp.record X (e.txidCounter + 1))))
      ).needsRotation (unixSecs (clock 0)) = true → e.wal.name < e.lsnCounter + ops.length) :
    Prog.wp (runTransaction (X := X) ops) (topPost X K) ⟨e, clock⟩ fs := by
  have h' : AtTop X K { e with txidCounter := e.txidCounter + 1 } fs :=
    ⟨⟨h.inv.log, h.inv.atEnd, h.inv.counter, h.inv.memtable⟩, h.known, h.top⟩
  exact h.wp_writes (runTransaction_frame ops) (stamps_runTransaction ops) (h.inv.wp_runTransaction ops hahead)
    (fun _ _ _ hq hsegs => h'.logged hq.1 (getLast?_stamped e.lsnCounter _) hsegs) fun _ _ _ hq _ => hq.elim

/-- A sync leaves the engine, and all files. -/
theorem AtTop.wp_flush : Prog.wp (flush (X := X)) (topPost X K) ⟨e, clock⟩ fs := by
  have hkeeps : ∀ (q : Process Engine) (fs' : Fs), q.state.walPart = e.walPart ∧ fs'.wals = fs.wals →
      fs'.segs = fs.segs → AtTop X K q.state fs' := fun q fs' hq hsegs =>
    h.congr hq.1 hq.2 fun n hn => h.known n (.inr (by rwa [Fs.InFiles, hsegs] at hn))
  exact h.wp_writes flush_frame stamps_flush (wp_keepsWal syncWal_frame) (fun _ => hkeeps) fun _ => hkeeps

end Writes

/-! ### Flushes -/

/-- What a flush writes: files of a segment with the entries that it has taken away. -/
theorem execute_writes (w : FlushWork) (g : σ → T) :
    Exec.Frame
      (fun f => f.KeepsWal ∧ (f.WritesNoEntry ∨ ∃ id, f = .datWrite id (writeDatAndIndex X w.entries).blocks)) g
      (w.execute (X := X)) := by
  unfold FlushWork.execute segmentFlush
  split
  · exact .throw _
  case h_2 hentries =>
    have hquiet : ∀ f : Effect, f.KeepsWal → f.WritesNoEntry →
        f.KeepsWal ∧ (f.WritesNoEntry ∨ ∃ id, f = .datWrite id (writeDatAndIndex X w.entries).blocks) :=
      fun f hf hentry => ⟨hf, .inl hentry⟩
    refine .bind (.effect ⟨trivial, .inr ⟨_, by rw [hentries]⟩⟩) fun _ =>
      .bind (.effect (hquiet _ trivial trivial)) fun _ =>
      .bind (.effect (hquiet _ trivial trivial)) fun _ => .bind (.effect (hquiet _ trivial trivial)) fun _ =>
      .bind (.effect (hquiet _ trivial trivial)) fun _ => .bind (.effect (hquiet _ trivial trivial)) fun _ =>
      .bind (.lift _) fun _ => .bind .now fun _ => .bind (.effect (hquiet _ trivial trivial)) fun _ => .pure _

/-- Registering a segment writes no entry. -/
theorem finalizeFlush_writesNoEntry (m : SegmentMeta) (flushed : Lsn) :
    Exec.Frame Effect.WritesNoEntry (fun _ => ()) (finalizeFlush (X := X) m flushed) := by
  have hmanifest : Exec.Frame Effect.WritesNoEntry (fun _ => ()) (Manifest.addSegment (X := X) m) :=
    .bind (.ite (fun _ => .throw _) fun _ => .bind .get fun _ => .bind (.effect trivial) fun _ => .modify fun _ => rfl)
      fun _ => .bind (.effect trivial) fun _ => .modify fun _ => rfl
  have hstore : Exec.Frame Effect.WritesNoEntry (fun _ => ()) (SegmentStore.finalizeSegment (X := X) m) :=
    .bind (.zoom hmanifest fun _ _ _ => rfl) fun _ => .bind .fs fun _ => .bind (.lift _) fun _ => .modify fun _ => rfl
  refine .bind (.zoom hstore fun _ _ _ => rfl) fun _ => .bind (.modify fun _ => rfl) fun _ =>
    (retireWals_frame fun _ => ()).mono fun f hf => ?_
  cases f <;> first | exact hf.elim | trivial

/-- **The files of a flush** have its entries, and those are not above the log. -/
theorem wp_execute_keepsTop {w : FlushWork} {p : Process σ} (hsorted : KeySorted w.entries)
    (hlog : walSequence X fs ≠ [] → ∀ q ∈ w.entries, q.2.lsn ≤ topLsn (walSequence X fs)) (rely : Effect → Fs → Prop) :
    Prog.wp (w.execute (X := X))
      ⟨fun _ q fs' => q.state = p.state ∧ fs'.wals = fs.wals ∧
          ∀ n, fs'.InFiles n → fs.InFiles n ∨ ∃ q ∈ w.entries, q.2.lsn = n,
        fun _ q fs' => q.state = p.state ∧ fs'.wals = fs.wals ∧
          ∀ n, fs'.InFiles n → fs.InFiles n ∨ ∃ q ∈ w.entries, q.2.lsn = n, rely, KeepsTop X K⟩ p fs := by
  -- the entries that are read back of the blocks are those that were written
  have htable : ∀ q ∈ Dat.table (writeDatAndIndex X w.entries).blocks, ∃ q' ∈ w.entries, q'.2.lsn = q.2.lsn := by
    intro q hq
    rw [table_writeDatAndIndex hsorted] at hq
    obtain ⟨q', hq', rfl⟩ := List.mem_map.mp hq
    exact ⟨q', hq', rfl⟩
  refine Prog.wp_inv (I := fun fs' : Fs => fs'.wals = fs.wals ∧
    ∀ n, fs'.InFiles n → fs.InFiles n ∨ ∃ q ∈ w.entries, q.2.lsn = n) ?_ ((execute_writes w id).wp rely)
    ⟨rfl, fun n hn => .inl hn⟩
  rintro f d - ⟨hf, hentry | ⟨id, rfl⟩⟩ ⟨hwals, hfiles⟩
  · exact ⟨hentry.keepsTop, (hf.wals d).trans hwals, fun n hn => hfiles n (inFiles_apply hentry hn)⟩
  · refine ⟨fun hne q hq => ?_, hwals, fun n hn => ?_⟩
    · rw [walSequence_congr hwals] at hne ⊢
      obtain ⟨q', hq', hlsn⟩ := htable q hq
      exact hlsn ▸ hlog hne q' hq'
    · rcases Fs.inFiles_setSegment (fun f => { f with dat := .whole _ }) hn with hn | ⟨q, hq, hlsn⟩
      · exact hfiles n hn
      · obtain ⟨q', hq', hlsn'⟩ := htable q hq
        exact .inr ⟨q', hq', hlsn'.trans hlsn⟩

/-- What a flush leaves of the log is an end of it. -/
theorem Retired.walSequence_suffix {flushed : Lsn} (h : Retired X e fs flushed e' fs') :
    walSequence X fs' <:+ walSequence X fs := by
  obtain ⟨bs, ⟨before, heq⟩, hentries⟩ := h.files
  rw [walSequence, walSequence, hentries, heq, List.flatMap_append]
  exact List.suffix_append _ _

section Flush

variable (h : AtTop X K e fs)
include h

/-- **Finishing a flush** leaves the last record of the log, or no record at all. -/
theorem AtTop.wp_finalizeFlush (m : SegmentMeta) (flushed : Lsn) :
    Prog.wp (finalizeFlush (X := X) m flushed) (topPost X K) ⟨e, clock⟩ fs := by
  have hentries : Prog.wp (finalizeFlush (X := X) m flushed)
      ⟨fun _ _ fs' => ∀ n, fs'.InFiles n → fs.InFiles n, fun _ _ fs' => ∀ n, fs'.InFiles n → fs.InFiles n, FitsWal X,
        KeepsTop X K⟩ ⟨e, clock⟩ fs := by
    have hkept : ∀ (f : Effect) (d : Fs), FitsWal X f d → f.WritesNoEntry → (∀ n, d.InFiles n → fs.InFiles n) →
        KeepsTop X K f d ∧ ∀ n, (applyEffect X f d).InFiles n → fs.InFiles n := fun f d _ hf hfiles =>
      ⟨hf.keepsTop, fun n hn => hfiles n (inFiles_apply hf hn)⟩
    exact Prog.wp_imp (Prog.wp_inv (I := fun fs' : Fs => ∀ n, fs'.InFiles n → fs.InFiles n) hkept
      ((finalizeFlush_writesNoEntry m flushed).wp _) fun _ hn => hn) (fun _ _ _ hq => hq.2) fun _ _ _ hq => hq.2
  refine Prog.wp_mono (Prog.wp_and (h.inv.wp_finalizeFlush m flushed) hentries) ?_ ?_ (fun _ _ hf => ⟨hf, hf⟩)
    fun _ _ _ hf => hf.2
  · rintro _ q fs' ⟨hretired, hfiles⟩
    have hcounter : q.state.lsnCounter = e.lsnCounter := by rw [hretired.engine]
    refine ⟨hretired.inv, fun n hn => hcounter ▸ h.known n (hn.imp_right (hfiles n)), fun hne => ?_⟩
    have hsuffix := hretired.walSequence_suffix
    rw [topLsn_of_suffix h.inv.log.ordered hsuffix hne, hcounter]
    exact h.top fun hnil => hne (List.suffix_nil.mp (hnil ▸ hsuffix))
  · rintro _ q fs' ⟨hsame, hfiles⟩
    exact h.congr hsame.walPart hsame.wals fun n hn => h.known n (.inr (hfiles n hn))

/-- **Beginning a flush** takes the entries of the memtable away. -/
theorem AtTop.wp_beginFlush :
    Prog.wp (beginFlush (X := X))
      ⟨fun work q fs' => AtTop X K q.state fs' ∧ q.state.lsnCounter = e.lsnCounter ∧
          ∀ w ∈ work, KeySorted w.entries ∧ ∀ p ∈ w.entries, p.2.lsn ≤ e.lsnCounter,
        fun _ _ _ => False, FitsWal X, KeepsTop X K⟩ ⟨e, clock⟩ fs := by
  simp only [beginFlush, Prog.wp_bind, Exec.wp_get, Prog.wp_ite, Prog.wp_pure]
  split
  case isTrue => exact ⟨h, trivial, fun _ hw => by cases hw⟩
  case isFalse hne =>
    have hnil : e.memtable.entries ≠ [] := fun hnil => hne (MemTable.isEmpty_iff.mpr hnil)
    simp only [onStore, Exec.wp_zoom, SegmentStore.prepareFlush, MemTable.iter, hnil, if_false, Prog.wp_bind,
      SegmentStore.wp_allocSegmentId, Exec.wp_get, Prog.wp_pure]
    refine ⟨⟨⟨h.inv.log, h.inv.atEnd, h.inv.counter, h.inv.memtable⟩, h.known, h.top⟩, trivial, ?_⟩
    rintro w ⟨⟩
    exact ⟨e.memtable.sorted, h.inv.memtable⟩

/-- **A flush** leaves the engine at the top. -/
theorem AtTop.wp_flushToSegments : Prog.wp (flushToSegments (X := X)) (topPost X K) ⟨e, clock⟩ fs := by
  rw [flushToSegments, Prog.wp_bind]
  refine Prog.wp_imp h.wp_beginFlush ?_ fun _ _ _ hq => hq.elim
  rintro work ⟨e₁, clock₁⟩ fs₁ ⟨h₁, hcounter, hwork⟩
  cases work with
  | none => exact (Prog.wp_throw _).mpr h₁
  | some w =>
    obtain ⟨hsorted, hentries⟩ := hwork w rfl
    have hle : ∀ q ∈ w.entries, q.2.lsn ≤ e₁.lsnCounter := fun q hq => hcounter ▸ hentries q hq
    -- the entries stay below the counter, written or not
    have hfiles : ∀ (e₂ : Engine) (fs₂ : Fs), e₂ = e₁ ∧ fs₂.wals = fs₁.wals ∧
        (∀ n, fs₂.InFiles n → fs₁.InFiles n ∨ ∃ q ∈ w.entries, q.2.lsn = n) → AtTop X K e₂ fs₂ := by
      rintro e₂ fs₂ ⟨rfl, hwals, hfiles⟩
      refine h₁.congr rfl hwals fun n hn => ?_
      rcases hfiles n hn with hn | ⟨q, hq, rfl⟩
      · exact h₁.known n (.inr hn)
      · exact hle q hq
    simp only [Prog.wp_bind]
    refine Prog.wp_imp (wp_execute_keepsTop hsorted (fun hne q hq => h₁.top hne ▸ hle q hq) _) ?_
      fun _ q fs' hq => hfiles q.state fs' hq
    rintro m ⟨e₂, clock₂⟩ fs₂ hq
    refine Prog.wp_imp ((hfiles e₂ fs₂ hq).wp_finalizeFlush m w.flushedMaxLsn) (fun _ _ _ hq => ?_) fun _ _ _ hq => hq
    exact (Prog.wp_pure _).mpr hq

/-- **A put**, with the flush that may follow. -/
theorem AtTop.wp_put {ns key val : Bytes}
    (hahead : (e.wal.appended X [putRecord X (e.lsnCounter + 1) (asI64 (clock 0)) 0 ns key val]
      ).needsRotation (unixSecs (clock 1)) = true → e.wal.name ≤ e.lsnCounter) :
    Prog.wp (put (X := X) ns key val) (topPost X K) ⟨e, clock⟩ fs := by
  rw [put, Prog.wp_bind]
  refine Prog.wp_imp wp_checkPut ?_ ?_
  · rintro _ _ _ ⟨rfl, rfl, -, -⟩
    rw [Prog.wp_bind]
    refine Prog.wp_imp (h.wp_writeEntry hahead) ?_ fun _ _ _ hq => hq
    rintro lsn ⟨e₁, clock₁⟩ fs₁ h₁
    have h₁ : AtTop X K e₁ fs₁ := h₁
    simp only [Prog.wp_bind, Exec.wp_get, Prog.wp_ite, Prog.wp_pure]
    split
    · exact Prog.wp_imp h₁.wp_flushToSegments (fun _ _ _ hq => hq) fun _ _ _ hq => hq
    · exact h₁
  · rintro _ _ _ ⟨rfl, rfl, -⟩
    exact h

/-- **A put with a TTL**. -/
theorem AtTop.wp_putWithTtl {ns key val : Bytes} {ttl : ℕ}
    (hahead : (e.wal.appended X [putRecord X (e.lsnCounter + 1) (asI64 (clock 0)) ttl ns key val]
      ).needsRotation (unixSecs (clock 1)) = true → e.wal.name ≤ e.lsnCounter) :
    Prog.wp (putWithTtl (X := X) ns key val ttl) (topPost X K) ⟨e, clock⟩ fs := by
  rw [putWithTtl, Prog.wp_bind]
  refine Prog.wp_imp wp_checkPut ?_ ?_
  · rintro _ _ _ ⟨rfl, rfl, -, -⟩
    exact h.wp_writeEntry hahead
  · rintro _ _ _ ⟨rfl, rfl, -⟩
    exact h

end Flush

end Engine

/-! ### Calls -/

namespace World

variable {w : World} {c : Call} {config : EdgestoreConfig}

/-- An LSN that has been acknowledged, or is in a flush in flight. -/
def Announced (w : World) (n : Lsn) : Prop :=
  (∃ r ∈ w.acked, r.lsn = n) ∨ ∃ f ∈ w.flights, ∃ p ∈ f.work.entries, p.2.lsn = n

/-- An LSN that is known: it has been acknowledged, or is in a flush in flight or in a segment file. -/
def Known (w : World) (n : Lsn) : Prop := w.Announced n ∨ w.fs.InFiles n

end World

/-- The calls of a database that writes, flushes and restarts. -/
def Op.WritesOrRestarts : Op → Prop
  | .open _ => True
  | .close => True
  | op => op.WritesOrFlushes

instance : DecidablePred Op.WritesOrRestarts := fun op => by
  unfold Op.WritesOrRestarts
  rcases op <;> infer_instance

/-- What an outcome leaves on top: its effects keep the last record of the log there, an engine that is open is at the
top, and a flush in flight has entries that were announced before, or that the engine had. -/
structure Outcome.TopKept (X : Externals) (w : World) (o : Outcome) : Prop where
  guar : (disk X).All (KeepsTop X w.Announced) o.effects w.fs
  engine : ∀ e, o.engine = some e → e.AtTop X w.Announced ((disk X).run o.effects w.fs)
  flights : ∀ f ∈ o.flights, KeySorted f.work.entries ∧
    ∀ p ∈ f.work.entries, w.Announced p.2.lsn ∨ ∃ e, o.engine = some e ∧ p.2.lsn ≤ e.lsnCounter

namespace World

variable {w : World} {c : Call} {config : EdgestoreConfig}

/-- **The invariant**: nothing that is known is above the last record of the log, if there is one, or above the
counter of the open engine. -/
structure LsnInv (X : Externals) (w : World) : Prop where
  wal : WalInv X w
  top : TopOf X w.Announced w.fs
  engine : ∀ e, w.engine = some e → e.AtTop X w.Announced w.fs
  sorted : ∀ f ∈ w.flights, KeySorted f.work.entries

namespace LsnInv

/-- The flights that there were. -/
theorem flights_of_subset (h : w.LsnInv X) {o : Outcome}
    (hflights : ∀ f ∈ o.flights, ∃ f' ∈ w.flights, f.work = f'.work) :
    ∀ f ∈ o.flights, KeySorted f.work.entries ∧
      ∀ p ∈ f.work.entries, w.Announced p.2.lsn ∨ ∃ e, o.engine = some e ∧ p.2.lsn ≤ e.lsnCounter := by
  intro f hf
  obtain ⟨f', hf', hwork⟩ := hflights f hf
  rw [hwork]
  exact ⟨h.sorted f' hf', fun p hp => .inl (.inr ⟨f', hf', p, hp, rfl⟩)⟩

theorem kept_idle (h : w.LsnInv X) (ok : Bool) : (w.idle ok).TopKept X w :=
  ⟨trivial, fun e he => h.engine e he, h.flights_of_subset fun f hf => ⟨f, hf, rfl⟩⟩

/-- A method of the engine. -/
theorem kept_onEngine {m : Exec X Engine α} (h : w.LsnInv X)
    (hwp : ∀ e, w.engine = some e → e.AtTop X w.Announced w.fs →
      Prog.wp m (Engine.topPost X w.Announced) ⟨e, clock⟩ w.fs)
    (hfits : ∀ r ∈ appendedRecords (w.onEngine X clock m).effects, r.Fits X) :
    (w.onEngine X clock m).TopKept X w := by
  have hall : (disk X).All (FitsWal X) (w.onEngine X clock m).effects w.fs := all_fitsWal hfits
  cases he : w.engine with
  | none =>
    rw [onEngine_none he]
    exact h.kept_idle false
  | some e =>
    have hm := hwp e he (h.engine e he)
    obtain ⟨q, hq, hpost⟩ := onEngine_outcome he hall hm
    refine ⟨?_, fun e' he' => ?_, h.flights_of_subset fun f hf => ⟨f, flights_onEngine (m := m) ▸ hf, rfl⟩⟩
    · rw [(onEngine_some he).1] at hall ⊢
      exact Prog.wp_guar hm hall
    · rw [hq] at he'
      obtain rfl := Option.some.inj he'
      rcases hpost with ⟨-, _, hpost⟩ | ⟨-, _, hpost⟩
      · exact hpost
      · exact hpost

theorem kept_beginFlush (h : w.LsnInv X)
    (hfits : ∀ r ∈ appendedRecords (w.perform X .beginFlush clock).effects, r.Fits X) :
    (w.perform X .beginFlush clock).TopKept X w := by
  simp only [perform] at hfits ⊢
  cases he : w.engine with
  | none =>
    rw [onEngine_none he]
    exact h.kept_idle false
  | some e =>
    rw [(onEngine_some he).1] at hfits
    have hm : Prog.wp (Engine.beginFlush (X := X)) _ ⟨e, clock⟩ w.fs := (h.engine e he).wp_beginFlush
    have hall : (disk X).All (FitsWal X) ((Engine.beginFlush (X := X)).run ⟨e, clock⟩ w.fs).2.2 w.fs :=
      all_fitsWal hfits
    have hguar := Prog.wp_guar hm hall
    have hres := Prog.wp_result hm hall
    simp only [onEngine, he]
    generalize (Engine.beginFlush (X := X)).run ⟨e, clock⟩ w.fs = r at hguar hres ⊢
    obtain ⟨_ | work, q, es⟩ := r
    · exact hres.elim
    · obtain ⟨htop, hcounter, hwork⟩ := hres
      refine ⟨hguar, fun e' he' => (by cases he'; exact htop), fun f hf => ?_⟩
      rcases List.mem_append.mp hf with hf | hf
      · exact h.flights_of_subset (o := w.idle true) (fun f hf => ⟨f, hf, rfl⟩) f hf |>.imp_right
          fun hold p hp => .inl (.inr ⟨f, hf, p, hp, rfl⟩)
      · -- a flush that begins takes what the engine has
        cases work with
        | none => cases hf
        | some work =>
          obtain rfl := List.mem_singleton.mp hf
          obtain ⟨hsorted, hentries⟩ := hwork work rfl
          exact ⟨hsorted, fun p hp => .inr ⟨_, rfl, hcounter ▸ hentries p hp⟩⟩

theorem kept_execute (h : w.LsnInv X) (i : ℕ) : (w.perform X (.execute i) clock).TopKept X w := by
  simp only [perform, executeFlight]
  cases hf : w.flights[i]? with
  | none => exact h.kept_idle false
  | some f =>
    have hmem := List.mem_of_getElem? hf
    have hknown : ∀ p ∈ f.work.entries, w.Announced p.2.lsn := fun p hp => .inr ⟨f, hmem, p, hp, rfl⟩
    have hm : Prog.wp (f.work.execute (X := X)) _ ⟨(), clock⟩ w.fs :=
      Engine.wp_execute_keepsTop (K := w.Announced) (h.sorted f hmem)
        (fun hne p hp => h.top hne _ (.inl (hknown p hp))) fun _ _ => True
    have hguar := Prog.wp_guar hm Device.all_true
    have hres := Prog.wp_result hm Device.all_true
    -- an engine that is open stays at the top
    have hengine : ∀ fs' : Fs, fs'.wals = w.fs.wals ∧
        (∀ n, fs'.InFiles n → w.fs.InFiles n ∨ ∃ p ∈ f.work.entries, p.2.lsn = n) →
        ∀ e, w.engine = some e → e.AtTop X w.Announced fs' := by
      rintro fs' ⟨hwals, hfiles⟩ e he
      refine (h.engine e he).congr rfl hwals fun n hn => ?_
      rcases hfiles n hn with hn | ⟨p, hp, rfl⟩
      · exact (h.engine e he).known n (.inr hn)
      · exact (h.engine e he).known _ (.inl (hknown p hp))
    simp only
    generalize (f.work.execute (X := X)).run ⟨(), clock⟩ w.fs = r at hguar hres ⊢
    obtain ⟨_ | m, q, es⟩ := r
    · exact ⟨hguar, hengine _ hres.2, h.flights_of_subset fun g hg => ⟨g, List.mem_of_mem_eraseIdx hg, rfl⟩⟩
    · refine ⟨hguar, hengine _ hres.2, h.flights_of_subset fun g hg => ?_⟩
      rcases List.mem_or_eq_of_mem_set hg with hg | rfl
      · exact ⟨g, hg, rfl⟩
      · exact ⟨f, hmem, rfl⟩

theorem kept_finalizeFlush (h : w.LsnInv X) (i : ℕ)
    (hfits : ∀ r ∈ appendedRecords (w.perform X (.finalizeFlush i) clock).effects, r.Fits X) :
    (w.perform X (.finalizeFlush i) clock).TopKept X w := by
  simp only [perform] at hfits ⊢
  split
  case h_1 e work m he hf =>
    simp only [he, hf] at hfits
    obtain ⟨hguar, hengine, -⟩ :=
      h.kept_onEngine (fun e _ he => he.wp_finalizeFlush m work.flushedMaxLsn) hfits
    exact ⟨hguar, hengine, h.flights_of_subset fun g hg => ⟨g, List.mem_of_mem_eraseIdx hg, rfl⟩⟩
  case h_2 => exact h.kept_idle false

/-- Opening writes no entry. -/
theorem guar_open : (disk X).All (KeepsTop X K) (w.perform X (.open config) clock).effects w.fs := by
  have hcreate : ∀ n : Lsn, Exec.Frame Effect.WritesNoEntry (fun _ : Unit => ()) (WalWriter.create (X := X) n config) :=
    fun n => .bind .fs fun _ => .ite (fun _ => .throw _) fun _ => .bind (.effect trivial) fun _ =>
      .bind (.effect trivial) fun _ => .bind .now fun _ => .pure _
  have hwal : ∀ n : Lsn, Exec.Frame Effect.WritesNoEntry (fun _ : Unit => ()) (Engine.openWal (X := X) config n) := by
    refine fun n => .bind .fs fun _ => ?_
    split
    · exact hcreate n
    · refine .bind (.bind .fs fun _ => ?_) fun _ => .bind .now fun _ => .ite (fun _ => hcreate _) fun _ => .pure _
      split
      · exact .throw _
      · exact .bind (.lift _) fun _ => .bind .now fun _ => .pure _
  have hmanifest : Exec.Frame Effect.WritesNoEntry (fun _ : Unit => ()) (Manifest.open (X := X)) := by
    refine .bind .fs fun _ => ?_
    split
    · exact .bind (.effect trivial) fun _ => .bind (.effect trivial) fun _ => .bind (.effect trivial) fun _ => .pure _
    · exact .bind (.lift _) fun _ => .pure _
  have hopen : Exec.Frame Effect.WritesNoEntry (fun _ : Unit => ()) (Engine.open (X := X) config) :=
    .bind .fs fun _ => .bind (.lift _) fun _ => .bind (hwal _) fun _ =>
      .bind (.bind hmanifest fun _ => .bind .fs fun _ => .bind (.lift _) fun _ => .pure _) fun _ => .pure _
  simp only [perform]
  split
  · trivial
  · have hwp : Prog.wp (Engine.open (X := X) config) _ ⟨(), clock⟩ w.fs := hopen.wp fun _ _ => True
    exact (Prog.wp_guar hwp Device.all_true).mono fun _ _ (hf : Effect.WritesNoEntry _) => hf.keepsTop

/-- **An engine that is opened is at the top**, if there is a record in the WAL files, or nothing is known yet. -/
theorem atTop_of_open (h : w.LsnInv X) (he : w.engine = none) (hopens : OpensAhead X w.fs config clock)
    (hfits : ∀ r ∈ appendedRecords (w.perform X (.open config) clock).effects, r.Fits X)
    (hrecords : walSequence X w.fs ≠ [] ∨ ∀ n, ¬ w.Known n) :
    ∀ e, (w.perform X (.open config) clock).engine = some e →
      e.AtTop X w.Announced ((disk X).run (w.perform X (.open config) clock).effects w.fs) := by
  have hm := Prog.wp_and (Engine.wp_open_wal (σ := Unit) (p := ⟨(), clock⟩) h.wal.log hopens)
    (wp_open_opensAt (σ := Unit) config)
  simp only [perform, he] at hfits ⊢
  have hall : (disk X).All (FitsWal X) _ w.fs := all_fitsWal hfits
  have hres := Prog.wp_result hm (Device.all_and.mpr ⟨hall, Device.all_true⟩)
  generalize (Engine.open (X := X) (σ := Unit) config).run ⟨(), clock⟩ w.fs = r at hres ⊢
  obtain ⟨_ | e, q, es⟩ := r
  · exact fun e he' => (by cases he')
  · rintro _ ⟨⟩
    obtain ⟨hopened, hopensAt⟩ := hres
    refine ⟨hopened.inv, fun n hn => ?_, fun _ => ?_⟩
    · have hn' : w.Known n := hn.imp_right fun hn => by
        rw [Fs.InFiles, hopensAt.segs] at hn
        exact hn
      rw [hopensAt.counter]
      rcases hrecords with hne | hnone
      · exact h.top hne n hn'
      · exact absurd hn' (hnone n)
    · rw [hopensAt.counter]
      exact congrArg topLsn hopened.sequence

end LsnInv

/-- **An engine is opened over a WAL with a record**, or before any record is known. -/
def OpensOnRecords (X : Externals) (w : World) (c : Call) : Prop :=
  w.engine = none → c.stop = none → (∃ config, c.op = .open config) → walSequence X w.fs ≠ [] ∨ ∀ n, ¬ w.Known n

/-- A call of a database that writes, flushes and restarts: rotations find the LSN counter ahead, records fit their
reader, and openings find a record. -/
structure LsnCall (X : Externals) (w : World) (c : Call) : Prop where
  op : c.op.WritesOrRestarts
  wal : w.WalAdmitted X c
  opens : w.OpensOnRecords X c

namespace LsnInv

/-- The effects of a call keep the last record of the log on top. -/
theorem kept (h : w.LsnInv X) (hop : c.op.WritesOrRestarts) (hwal : w.WalAdmitted X c)
    (hne : ∀ config, c.op ≠ .open config) :
    (w.perform X c.op c.clock).TopKept X w := by
  obtain ⟨op, clock, stop⟩ := c
  obtain ⟨hfits, hahead⟩ := hwal
  simp only [effects] at hfits
  cases op with
  | «open» config => exact absurd rfl (hne config)
  | close =>
    obtain ⟨hguar, -, hflights⟩ := h.kept_onEngine (fun e _ he => he.wp_flush) hfits
    refine ⟨hguar, fun e he => (by cases he), h.flights_of_subset fun f hf => ⟨f, ?_, rfl⟩⟩
    exact flights_onEngine (m := Engine.flush) ▸ hf
  | put ns key val =>
    refine h.kept_onEngine (fun e he htop => ?_) hfits
    simp only [RotatesAhead, he] at hahead
    exact htop.wp_put hahead
  | putWithTtl ns key val ttl =>
    refine h.kept_onEngine (fun e he htop => ?_) hfits
    simp only [RotatesAhead, he] at hahead
    exact htop.wp_putWithTtl hahead
  | delete ns key =>
    refine h.kept_onEngine (fun e he htop => ?_) hfits
    simp only [RotatesAhead, he] at hahead
    exact htop.wp_delete hahead
  | commit ops =>
    refine h.kept_onEngine (fun e he htop => ?_) hfits
    simp only [RotatesAhead, he] at hahead
    exact htop.wp_runTransaction ops hahead
  | flush => exact h.kept_onEngine (fun e _ he => he.wp_flush) hfits
  | flushToSegments => exact h.kept_onEngine (fun e _ he => he.wp_flushToSegments) hfits
  | beginFlush => exact h.kept_beginFlush hfits
  | execute i => exact h.kept_execute i
  | finalizeFlush i => exact h.kept_finalizeFlush i hfits
  | abandon i =>
    exact ⟨trivial, fun e he => h.engine e he, h.flights_of_subset fun g hg => ⟨g, List.mem_of_mem_eraseIdx hg, rfl⟩⟩
  | compactOnce order => exact hop.elim
  | stripTextIndex id => exact hop.elim
  | stripVectorIndex id => exact hop.elim
  | importSegment dat size hash => exact hop.elim
  | snapshot => exact hop.elim
  | dropSnapshot id => exact hop.elim

/-- The call as a whole, if it is not stopped. -/
theorem kept_call {op : Op} (h : w.LsnInv X) (hc : w.LsnCall X ⟨op, clock, none⟩) :
    (w.perform X op clock).TopKept X w := by
  by_cases hopen : ∃ config, op = .open config
  · obtain ⟨config, rfl⟩ := hopen
    cases he : w.engine with
    | some e =>
      simp only [perform, he]
      exact h.kept_idle false
    | none =>
      have hahead := hc.wal.ahead
      simp only [RotatesAhead, he] at hahead
      refine ⟨guar_open, h.atTop_of_open he hahead hc.wal.fits (hc.opens he rfl ⟨config, rfl⟩), h.flights_of_subset ?_⟩
      intro f hf
      simp only [perform, he] at hf
      exact ⟨f, hf, rfl⟩
  · exact h.kept hc.op hc.wal fun config heq => hopen ⟨config, heq⟩

/-- The effects of a call keep the last record on top, wherever the call stops. -/
theorem guar_call (h : w.LsnInv X) (hc : w.LsnCall X c) :
    (disk X).All (KeepsTop X w.Announced) (w.effects X c) w.fs := by
  obtain ⟨op, clock, stop⟩ := c
  by_cases hopen : ∃ config, op = .open config
  · obtain ⟨config, rfl⟩ := hopen
    exact guar_open
  · exact (h.kept hc.op hc.wal fun config heq => hopen ⟨config, heq⟩).guar

/-- A call that leaves no engine where there was one appends no record. -/
theorem appendedRecords_of_closes {op : Op} (he : w.engine = some e) (hnone : (w.perform X op clock).engine = none) :
    appendedRecords (w.perform X op clock).effects = [] := by
  cases op with
  | close =>
    have hsync := (Engine.syncWal_frame (X := X) ⟨e, clock⟩ w.fs).1
    have heffects : (w.perform X .close clock).effects = ((Engine.flush (X := X)).run ⟨e, clock⟩ w.fs).2.2 := by
      simp only [perform]
      exact (onEngine_some he).1
    rw [heffects]
    exact appendedRecords_eq_nil fun f hf => (hsync f hf).appendsNone
  | «open» config => simp [perform, idle, he] at hnone
  | execute i =>
    simp only [perform, executeFlight] at hnone
    split at hnone
    · simp [idle, he] at hnone
    · split at hnone <;> simp [he] at hnone
  | finalizeFlush i =>
    simp only [perform] at hnone
    split at hnone
    · rw [(onEngine_some he).2.1] at hnone
      cases hnone
    · simp [idle, he] at hnone
  | abandon i => simp [perform, idle, he] at hnone
  | _ =>
    simp only [perform] at hnone
    rw [(onEngine_some he).2.1] at hnone
    cases hnone

/-- **What a call announces** is not above the counter that it leaves. -/
theorem announced_step {op : Op} (hkept : (w.perform X op clock).TopKept X w)
    (hn : (w.step X ⟨op, clock, none⟩).Announced n) :
    w.Announced n ∨ ∃ e, (w.perform X op clock).engine = some e ∧ n ≤ e.lsnCounter := by
  rcases hn with ⟨r, hr, rfl⟩ | ⟨f, hf, p, hp, rfl⟩
  · rw [acked_step] at hr
    rcases List.mem_append.mp hr with hr | hr
    · exact .inl (.inl ⟨r, hr, rfl⟩)
    · -- a record that is newly acknowledged has been logged by the open engine
      have happended := (mem_newlyAcked hr).2
      cases he : w.engine with
      | none =>
        rw [newlyAcked_eq_nil he] at hr
        cases hr
      | some e =>
        cases he' : (w.perform X op clock).engine with
        | none =>
          rw [appendedRecords_of_closes he he'] at happended
          cases happended
        | some e' =>
          have hstamped := stamped_perform (X := X) (w := w) (c := ⟨op, clock, none⟩)
          exact .inr ⟨e', rfl, (hstamped.counter e he e' he').2 r happended⟩
  · exact (hkept.flights f hf).2 p hp

/-- **A call**, crashed or not, keeps the invariant. -/
theorem step (h : w.LsnInv X) (hc : w.LsnCall X c) : (w.step X c).LsnInv X := by
  have hwal := h.wal.step hc.wal
  have hguar := Device.all_and.mpr ⟨(h.wal.kept hc.wal).guar, h.guar_call hc⟩
  obtain ⟨op, clock, _ | ⟨j, m⟩⟩ := c
  · have hkept := h.kept_call hc
    have htop : ∀ e', (w.perform X op clock).engine = some e' →
        e'.AtTop X (w.step X ⟨op, clock, none⟩).Announced (w.step X ⟨op, clock, none⟩).fs := fun e' he' => by
      obtain ⟨hinv, hknown, htop⟩ := hkept.engine e' he'
      refine ⟨hinv, fun n hn => ?_, htop⟩
      rcases hn with hn | hn
      · rcases announced_step hkept hn with hn | ⟨e₁, he₁, hle⟩
        · exact hknown n (.inl hn)
        · rw [he₁] at he'
          obtain rfl := Option.some.inj he'
          exact hle
      · exact hknown n (.inr hn)
    refine ⟨hwal, ?_, htop, fun f hf => (hkept.flights f hf).1⟩
    cases he' : (w.perform X op clock).engine with
    | some e' => exact (htop e' he').topOf
    | none =>
      -- no engine is left, and nothing new is announced
      have hrun := hguar.run (I := fun fs => WalLog X fs ∧ TopOf X w.Announced fs)
        (fun _ _ hf hd => ⟨hd.1.apply hf.1, hd.2.apply hd.1 hf.1 hf.2⟩) ⟨h.wal.log, h.top⟩
      refine hrun.2.mono fun n hn => ?_
      rcases announced_step hkept hn with hn | ⟨e₁, he₁, -⟩
      · exact hn
      · rw [he₁] at he'
        cases he'
  · have hcut := hguar.cut (I := fun fs => WalLog X fs ∧ TopOf X w.Announced fs)
      (fun _ _ hf hd => ⟨hd.1.apply hf.1, hd.2.apply hd.1 hf.1 hf.2⟩)
      (fun _ _ hf hd m => ⟨hd.1.tear hf.1 m, hd.2.tear hf.1 hf.2 m⟩) ⟨h.wal.log, h.top⟩ j m
    refine ⟨hwal, hcut.2.mono fun n hn => ?_, fun e he => (by cases he), fun f hf => absurd hf List.not_mem_nil⟩
    -- flushes in flight are gone, and what was acknowledged stays so
    rcases hn with hn | ⟨f, hf, -⟩
    · exact .inl hn
    · cases hf

theorem empty : ({} : World).LsnInv X := by
  refine ⟨walInv_empty, fun hne => absurd rfl hne, fun e he => (by cases he), fun f hf => absurd hf List.not_mem_nil⟩

end LsnInv

end World

/-! ### Runs -/

namespace World

variable {w : World} {c : Call}

/-- An LSN of a record in a registered segment or of a record that was acknowledged. -/
def Stored (X : Externals) (w : World) (n : Lsn) : Prop :=
  (∃ r, InSegments X w.fs r ∧ r.lsn = n) ∨ ∃ r ∈ w.acked, r.lsn = n

/-- **LSNs grow** in a call: an engine that is opened starts at or above the LSNs of all records in WAL
files and in registered segments and of all that were acknowledged, and a record that is acknowledged
has an LSN above those of all that were acknowledged before. -/
structure LsnsGrow (X : Externals) (w : World) (c : Call) : Prop where
  opens : w.engine = none → ∀ e, (w.step X c).engine = some e →
    (∀ r, InWal X (w.step X c).fs r → r.lsn ≤ e.lsnCounter) ∧
      ∀ n, (w.step X c).Stored X n → n ≤ e.lsnCounter
  acks : ∀ r ∈ w.newlyAcked X c, ∀ r' ∈ w.acked, r'.lsn < r.lsn

/-- What is stored is known. -/
theorem Stored.known (h : w.Stored X n) : w.Known n := by
  rcases h with ⟨_, ⟨id, -, p, hp, rfl⟩, rfl⟩ | hacked
  · exact .inr ⟨id, p, hp, rfl⟩
  · exact .inl (.inl hacked)

/-- LSNs grow in a call that finds the last record of the log on top. -/
theorem LsnInv.lsnsGrow (h : w.LsnInv X) (hc : w.LsnCall X c) : w.LsnsGrow X c := by
  refine ⟨fun _ e he' => ?_, fun r hr r' hr' => ?_⟩
  · have htop := (h.step hc).engine e he'
    exact ⟨fun r hr => htop.inv.counter r (inWal_iff.mp hr), fun n hn => htop.known n hn.known⟩
  · cases he : w.engine with
    | none =>
      rw [newlyAcked_eq_nil he] at hr
      cases hr
    | some e =>
      -- what was acknowledged before is not above the counter, and the new record is
      have hold : r'.lsn ≤ e.lsnCounter := (h.engine e he).known _ (.inl (.inl ⟨r', hr', rfl⟩))
      have hnew := (stamped_perform (X := X) (w := w) (c := c)).above e he r (mem_newlyAcked hr).2
      exact hold.trans_lt hnew

/-- **LSNs grow** in a run of writes, flushes and restarts, crashes included, whose openings find a record in the WAL
files, unless no record is known yet. -/
theorem lsnsGrow_of_opensOnRecords {calls : List Call} (h : Run.All (step X) (LsnCall X) {} calls) :
    Run.All (step X) (LsnsGrow X) {} calls :=
  h.imp_of_invariant (I := LsnInv X) (fun _ _ hw hc => hw.step hc) (fun _ _ hw hc => hw.lsnsGrow hc) .empty

/-- A put that the age of the WAL file rotates and a second one, and a flush, which leaves the record of the second
one in the WAL; a delete that is stopped when its record is logged, and restarts. -/
def recordsRun : List Call :=
  [{ op := .open {} }, { op := .put [1] [1] [1], clock := atSecs 61 }, { op := .put [1] [2] [2], clock := atSecs 61 },
    { op := .flushToSegments }, { op := .delete [1] [1], clock := atSecs 61, stop := some (1, 0) }, { op := .open {} },
    { op := .put [1] [3] [3] }, { op := .close }, { op := .open {} }, { op := .put [1] [4] [4] }]

theorem lsnsGrow_of_opensOnRecords_recordsRun :
    Run.All (step plainExternals) (LsnsGrow plainExternals) {} recordsRun := by
  -- at the first opening nothing is known, and at the others there is a record
  have hfirst : ∀ n, ¬ ({} : World).Known n := by
    rintro n ((⟨r, hr, -⟩ | ⟨f, hf, -⟩) | ⟨id, p, hp, -⟩)
    · cases hr
    · cases hf
    · cases hp
  have hrest : Run.All (step plainExternals) (fun w c => c.op.WritesOrRestarts ∧ w.WalAdmitted plainExternals c ∧
      (w.engine.isNone = true → walSequence plainExternals w.fs ≠ [])) (step plainExternals {} { op := .open {} })
      recordsRun.tail := by
    decide +kernel
  refine lsnsGrow_of_opensOnRecords ⟨⟨trivial, by decide +kernel, fun _ _ _ => .inr hfirst⟩, ?_⟩
  exact hrest.mono fun w c hc => ⟨hc.1, hc.2.1, fun he _ _ => .inl (hc.2.2 (by rw [he]; rfl))⟩

/-- **An opening that finds no record starts over**: it breaks the growth of LSNs where a record is stored. -/
theorem not_lsnsGrow_of_emptyWal {e : Engine} (he : w.engine = none) (he' : (w.step X c).engine = some e)
    (hwal : walSequence X w.fs = []) (hn : w.Stored X n) (hpos : 0 < n) : ¬ w.LsnsGrow X c := by
  intro h
  have hopens := opensAt_of_step he he'
  have hstored : (w.step X c).Stored X n := by
    rw [Stored, acked_step, newlyAcked_eq_nil he, List.append_nil]
    simp only [InSegments, registeredIds, hopens.registered, hopens.segs]
    exact hn
  have hle := (h.opens he e he').2 n hstored
  rw [hopens.counter, hwal] at hle
  exact absurd hpos (not_lt.mpr hle)

/-- A put that the age of the WAL file rotates, a flush, which unlinks that file, and a restart. -/
def resetRun : List Call :=
  [{ op := .open {} }, { op := .put [1] [1] [1], clock := atSecs 61 }, { op := .flushToSegments },
    { op := .close }, { op := .open {} }, { op := .put [1] [2] [2] }]

/-- **A flush resets the counter**: after a restart the counter is zero, and the next put gets an LSN
that was acknowledged before. -/
theorem flush_resets_counter : ¬ Run.All (step plainExternals) (LsnsGrow plainExternals) {} resetRun := by
  intro h
  have hacks := h.2.2.2.2.2.1.acks
  have hlsns : ((Run.from (step plainExternals) {} (resetRun.take 5)).newlyAcked plainExternals
      { op := .put [1] [2] [2] }).map WalRecord.lsn = [1] ∧
      (Run.from (step plainExternals) {} (resetRun.take 5)).acked.map WalRecord.lsn = [1] := by
    decide +kernel
  obtain ⟨r, hr, hlsn⟩ := List.mem_map.mp (hlsns.1 ▸ List.mem_singleton_self 1)
  obtain ⟨r', hr', hlsn'⟩ := List.mem_map.mp (hlsns.2 ▸ List.mem_singleton_self 1)
  exact absurd (hacks r hr r' hr') (by rw [hlsn, hlsn']; exact Nat.lt_irrefl 1)

end World
