import Edgestore.Lib.WriteBuffer
import Edgestore.ReadBack
import Edgestore.LsnRestarts
import Edgestore.Segment.Metadata

/-!
# Sessions with flushes in flight

A flush that has begun is in flight until it is finished. Writes go on meanwhile, other flushes begin, and their files
are written and registered in any order. A session is a run of writes and flushes on an engine that was opened on an
empty directory. The engine is then a write buffer over the WAL and the registered segments, and the flushes in flight
are its batches.

## Main definitions

* `Engine.buffered`: an engine with its flushes in flight, as a write buffer
* `Engine.WalNamed X e fs`: the WAL files but the current one have LSNs up to its name
* `Engine.Moves`: what a method does, as steps of the write buffer
* `World.Running`, `World.Moved`: an engine that runs, and what a call does to it
* `World.Session`: an engine in a session

## Main results

* `World.Running.step`: the calls of a session are steps of the write buffer
* `World.Session.run`: a run of a session keeps it
-/

variable {X : Externals} {R : List SegmentId} {fs fs' fs'' : Fs} {e e' e'' : Engine} {clock : ℕ → ℕ}

/-! ### Engines as write buffers -/

/-- The entry of a record, under its key. -/
def WalRecord.entry (r : WalRecord) : Bytes × MemEntry := (r.encodedKey, r.toEntry r.encodedKey)

/-- The entries that a flush has on its way. -/
def Flight.batch (f : Flight) : Batch Bytes MemEntry := ⟨find f.work.entries, f.work.flushedMaxLsn⟩

/-- A write buffer of entries. -/
abbrev EntryBuffer := WriteBuffer Bytes MemEntry

/-- What is asked of registrations. -/
abbrev RegistrationRule := EntryBuffer → Batch Bytes MemEntry → EntryBuffer → Prop

/-- **An engine with its flushes in flight, as a write buffer**: the memtable is the buffer, the WAL files are the log,
and the registered segments are the store. -/
def Engine.buffered (X : Externals) (fs : Fs) (flights : List Flight) (e : Engine) : EntryBuffer where
  buffer := e.memtable.get
  log := (walSequence X fs).map WalRecord.entry
  stored := recordsOf X fs
  batches := flights.map Flight.batch
  counter := e.lsnCounter

/-- Records under consecutive LSNs are written one after the other. -/
theorem steps_stamped {P : RegistrationRule} (m : MemTable) (log : List (Bytes × MemEntry))
    (stored : Bytes → List MemEntry) (batches : List (Batch Bytes MemEntry)) (n : Lsn) (rs : List WalRecord) :
    WriteBuffer.Steps MemEntry.lsn P ⟨m.get, log, stored, batches, n⟩ ((stamped n rs).map WalRecord.entry)
      ⟨(replayed m (stamped n rs)).get, log ++ (stamped n rs).map WalRecord.entry, stored, batches,
        n + rs.length⟩ := by
  induction rs generalizing m log n with
  | nil =>
    rw [stamped, List.map_nil, List.append_nil]
    exact .refl
  | cons r rs ih =>
    obtain ⟨r', hr'⟩ : ∃ r' : WalRecord, r' = { r with lsn := n + 1 } := ⟨_, rfl⟩
    have hlsn : r'.lsn = n + 1 := by rw [hr']
    have hlt : n < r'.lsn := hlsn ▸ Nat.lt_succ_self n
    have hwrite : WriteBuffer.Steps MemEntry.lsn P ⟨m.get, log, stored, batches, n⟩ [r'.entry]
        ⟨Function.update m.get r'.encodedKey (some (r'.toEntry r'.encodedKey)), log ++ [r'.entry], stored, batches,
          r'.lsn⟩ :=
      (@WriteBuffer.Step.write _ _ MemEntry.lsn _ P ⟨m.get, log, stored, batches, n⟩ r'.encodedKey
        (r'.toEntry r'.encodedKey) hlt).steps
    have hrest := ih (m.insert r'.encodedKey (r'.toEntry r'.encodedKey)) (log ++ [r'.entry]) (n + 1)
    rw [SortedMap.get_insert_eq_update] at hrest
    rw [hlsn] at hwrite
    have hall := hwrite.trans hrest
    rw [List.append_assoc, Nat.add_right_comm, Nat.add_assoc n] at hall
    rw [stamped, ← hr']
    exact hall

/-- An entry of a record is read back as it is. -/
theorem storedEntry_entry (r : WalRecord) : storedEntry r.entry = r.entry := by
  cases hop : r.op with
  | put => simp [storedEntry, WalRecord.entry, WalRecord.toEntry, hop]
  | delete => simp [storedEntry, WalRecord.entry, WalRecord.toEntry, hop]

namespace Engine

/-- **The WAL files are named for rotations**: the current one for a value of the LSN counter, and the others have LSNs
up to that. -/
structure WalNamed (X : Externals) (e : Engine) (fs : Fs) : Prop where
  wal : WalInv X e fs
  ahead : e.wal.name ≤ e.lsnCounter
  others : ∀ p ∈ fs.wals.entries, p.1 ≠ e.wal.name → ∀ r ∈ fileRecords X p.2, r.lsn ≤ e.wal.name

theorem WalNamed.congr (h : WalNamed X e fs) (he : e'.walPart = e.walPart) (hfs : fs'.wals = fs.wals) :
    WalNamed X e' fs' := by
  refine ⟨h.wal.congr he hfs, ?_, ?_⟩
  · rw [eq_of_walPart he]
    exact h.ahead
  · rw [eq_of_walPart he, hfs]
    exact h.others

/-- The files before the one named `n` are as they were, and `n` or a later one is there. -/
def EarlierKept (fs : Fs) (n : Lsn) (fs' : Fs) : Prop :=
  (∀ p ∈ fs'.wals.entries, p.1 < n → p ∈ fs.wals.entries) ∧ ∃ p ∈ fs'.wals.entries, n ≤ p.1

/-- Effects of a write on the log leave the files before the current one. -/
theorem EarlierKept.apply {n : Lsn} {f : Effect} (h : EarlierKept fs n fs') (hf : WalEffect X f fs')
    (hlog : f.IsLog) : EarlierKept fs n (applyEffect X f fs') := by
  obtain ⟨hearlier, q, hq, hle⟩ := h
  have hlast : ∀ {m bs x}, fs'.Latest m bs → EarlierKept fs n (fs'.appendWal m x) := by
    rintro m bs x ⟨pre, heq⟩
    have hm : n ≤ m := hle.trans (Fs.Latest.le ⟨pre, heq⟩ q hq)
    have heq' := Fs.entries_appendWal heq x
    refine ⟨fun p hp hlt => ?_, (m, bs ++ x), by simp [heq'], hm⟩
    rw [heq'] at hp
    rcases List.mem_append.mp hp with hp | hp
    · exact hearlier p (by simp [heq, hp]) hlt
    · rw [List.mem_singleton.mp hp] at hlt
      exact absurd hlt (not_lt.mpr hm)
  cases f with
  | walCreate m =>
    have heq : (applyEffect X (.walCreate m) fs').wals.entries = fs'.wals.entries ++ [(m, [])] :=
      SortedMap.entries_insert_of_lt hf []
    refine ⟨fun p hp hlt => ?_, q, by simp [heq, hq], hle⟩
    rw [heq] at hp
    rcases List.mem_append.mp hp with hp | hp
    · exact hearlier p hp hlt
    · rw [List.mem_singleton.mp hp] at hlt
      exact absurd (hle.trans_lt (hf q hq)) (not_lt.mpr hlt.le)
  | walHeader m => exact hlast hf
  | walAppend m r =>
    obtain ⟨bs, -, hlatest, -⟩ := hf
    exact hlast hlatest
  | sync file => exact ⟨hearlier, q, hq, hle⟩
  | _ => exact hlog.elim

/-- **What a method does**, as steps of the write buffer: the records that it writes, and what becomes of the flushes
in flight. -/
structure Moves (P : RegistrationRule) (X : Externals) (flights : List Flight) (e : Engine) (fs : Fs)
    (rs : List WalRecord) (e' : Engine) (fs' : Fs) (flights' : List Flight) : Prop where
  named : WalNamed X e' fs'
  logged : ∀ r ∈ walSequence X fs', r ∈ walSequence X fs ∨ r ∈ rs
  steps : WriteBuffer.Steps MemEntry.lsn P (e.buffered X fs flights) (rs.map WalRecord.entry)
    (e'.buffered X fs' flights')

variable {P : RegistrationRule} {flights flights' flights'' : List Flight} {rs rs' : List WalRecord}

theorem Moves.trans (h : Moves P X flights e fs rs e' fs' flights') (h' : Moves P X flights' e' fs' rs' e'' fs'' flights'') :
    Moves P X flights e fs (rs ++ rs') e'' fs'' flights'' := by
  refine ⟨h'.named, fun r hr => ?_, ?_⟩
  · rcases h'.logged r hr with hr | hr
    · exact (h.logged r hr).imp_right (List.mem_append_left _)
    · exact .inr (List.mem_append_right _ hr)
  · rw [List.map_append]
    exact h.steps.trans h'.steps

/-- A method that changes neither the memtable and the WAL nor the registered segments. -/
theorem Moves.of_same (hn : WalNamed X e fs) (he : e'.walPart = e.walPart) (hfs : fs'.wals = fs.wals)
    (hrec : recordsOf X fs' = recordsOf X fs) (hflights : ∀ f ∈ flights'.map Flight.batch, f ∈ flights.map Flight.batch) :
    Moves P X flights e fs [] e' fs' flights' := by
  refine ⟨hn.congr he hfs, fun r hr => .inl (walSequence_congr hfs ▸ hr), ?_⟩
  have hbuffered : e'.buffered X fs' flights' =
      { e.buffered X fs flights with batches := flights'.map Flight.batch } := by
    rw [eq_of_walPart he]
    simp only [buffered, walSequence_congr hfs, hrec]
  rw [hbuffered]
  exact (WriteBuffer.Step.drop hflights).steps

/-! ### Writes -/

theorem wp_earlierKept {α : Type} {m : Exec X Engine α} {ok : α → Process Engine → Fs → Prop}
    {error : EdgestoreError → Process Engine → Fs → Prop} {rely : Effect → Fs → Prop} {p : Process Engine} {n : Lsn}
    (hf : Exec.Frame Effect.IsLog storePart m) (hwp : Prog.wp m ⟨ok, error, rely, WalEffect X⟩ p fs)
    (hn : ∃ q ∈ fs.wals.entries, n ≤ q.1) :
    Prog.wp m
      ⟨fun a q fs' => ok a q fs' ∧ EarlierKept fs n fs', fun err q fs' => error err q fs' ∧ EarlierKept fs n fs', rely,
        fun _ _ => True⟩ p fs := by
  refine Prog.wp_mono (Prog.wp_inv (I := EarlierKept fs n) (G := fun _ _ => True) ?_
    (Prog.wp_and hwp (hf.wp fun _ _ => True)) ⟨fun q hq _ => hq, hn⟩) ?_ ?_ (fun _ _ hr => ⟨hr, trivial⟩)
    fun _ _ _ _ => trivial
  · exact fun f d _ hg hI => ⟨trivial, hI.apply hg.1 hg.2⟩
  · exact fun _ _ _ hq => ⟨hq.1.1, hq.2⟩
  · exact fun _ _ _ hq => ⟨hq.1.1, hq.2⟩

variable (P) (flights) in
/-- **Logged records** are written to the write buffer. -/
theorem Logged.moves (hlogged : Logged X e fs (stamped e.lsnCounter rs) e' fs') (hn : WalNamed X e fs)
    (hsame : SameStore fs fs') (hearlier : EarlierKept fs e.wal.name fs')
    (hname : e'.wal.name = e.wal.name ∨ e'.wal.name = e.lsnCounter + rs.length) :
    Moves P X flights e fs (stamped e.lsnCounter rs) e' fs' flights := by
  have hcounter : e'.lsnCounter = e.lsnCounter + rs.length := by rw [hlogged.engine, length_stamped]
  refine ⟨⟨hlogged.inv, ?_, fun p hp hne r hr => ?_⟩, fun r hr => ?_, ?_⟩
  · rw [hcounter]
    rcases hname with hname | hname
    · exact hname ▸ hn.ahead.trans (Nat.le_add_right _ _)
    · exact hname.le
  · rcases hname with hname | hname
    · -- no rotation: the other files are those of before
      have hlt : p.1 < e'.wal.name := lt_of_le_of_ne (hlogged.inv.atEnd.le p hp) hne
      rw [hname] at hlt hne ⊢
      exact hn.others p (hearlier.1 p hp hlt) hne r hr
    · rw [hname, ← hcounter]
      exact hlogged.inv.counter r (List.mem_flatMap.mpr ⟨p, hp, hr⟩)
  · rw [hlogged.sequence] at hr
    exact List.mem_append.mp hr
  · have hbuffered : e'.buffered X fs' flights =
        ⟨(replayed e.memtable (stamped e.lsnCounter rs)).get,
          (walSequence X fs).map WalRecord.entry ++ (stamped e.lsnCounter rs).map WalRecord.entry, recordsOf X fs,
          flights.map Flight.batch, e.lsnCounter + rs.length⟩ := by
      have hmem : e'.memtable = replayed e.memtable (stamped e.lsnCounter rs) := by rw [hlogged.engine]
      have hrec : recordsOf X fs' = recordsOf X fs :=
        funext fun k => recordsOf_congr hsame.registered_eq hsame.segs k
      simp only [buffered, hmem, hrec, hcounter, hlogged.sequence, List.map_append]
    rw [hbuffered]
    exact steps_stamped ..

theorem stamped_singleton {r : WalRecord} {n : Lsn} (h : r.lsn = n + 1) : stamped n [r] = [r] := by
  rw [stamped, stamped, ← h]

variable (P) (flights) in
/-- **A write** of a record, under the next LSN. -/
theorem wp_writeRecord_moves {r : WalRecord} (h : Inv X R e fs) (hn : WalNamed X e fs)
    (hlsn : r.lsn = e.lsnCounter + 1) :
    Prog.wp (writeRecord (X := X) r)
      ⟨fun _ q fs' => Inv X R q.state fs' ∧ q.state.memtable.entries ≠ [] ∧
          Moves P X flights e fs [r] q.state fs' flights,
        fun _ _ _ => False, AdmitsEffect X, fun _ _ => True⟩ ⟨{ e with lsnCounter := e.lsnCounter + 1 }, clock⟩ fs := by
  obtain ⟨bs, -, ⟨pre, hpre⟩, -⟩ := hn.wal.atEnd
  have hcurrent : ∃ q ∈ fs.wals.entries, e.wal.name ≤ q.1 := ⟨(e.wal.name, bs), by simp [hpre], le_rfl⟩
  have hinv : Inv X R { e with lsnCounter := e.lsnCounter + 1 } fs := ⟨h.store, h.window⟩
  refine Prog.wp_mono (Prog.wp_and (hinv.wp_write (writeRecord_frame r)) (wp_earlierKept (writeRecord_frame r)
    (hn.wal.wp_writeRecord hlsn fun _ => hn.ahead) hcurrent)) ?_ (fun _ _ _ hq => hq.2.1) (fun _ _ hr => hr)
    fun _ _ _ _ => trivial
  rintro _ q fs' ⟨⟨hinv', hsame⟩, ⟨-, hlogged, hname⟩, hearlier⟩
  refine ⟨hinv', fun hnil => ?_, ?_⟩
  · have hget : q.state.memtable.get r.encodedKey = some (r.toEntry r.encodedKey) := by
      rw [hlogged.engine]
      exact SortedMap.get_insert_self ..
    have hmem := SortedMap.mem_entries_of_get hget
    rw [hnil] at hmem
    exact List.not_mem_nil hmem
  · rw [← stamped_singleton hlsn] at hlogged ⊢
    exact hlogged.moves P flights hn hsame hearlier hname

/-! ### Flushes -/

/-- The records of the current WAL file. -/
def currentRecords (X : Externals) (e : Engine) (fs : Fs) : List WalRecord :=
  fileRecords X ((fs.wals.get e.wal.name).getD [])

theorem Retired.walSequence_eq {flushed : Lsn} (h : Retired X e fs flushed e' fs') :
    walSequence X fs' = currentRecords X e fs := by
  obtain ⟨bs, hlatest, hentries⟩ := h.files
  rw [currentRecords, hlatest.get_eq, Option.getD_some, walSequence, hentries, List.flatMap_singleton]

theorem mem_walSequence_of_current {r : WalRecord} (h : r ∈ currentRecords X e fs) : r ∈ walSequence X fs := by
  rw [currentRecords] at h
  cases hget : fs.wals.get e.wal.name with
  | none =>
    rw [hget, Option.getD_none, fileRecords_short (by simp [walHeader])] at h
    cases h
  | some bs =>
    rw [hget, Option.getD_some] at h
    exact List.mem_flatMap.mpr ⟨_, SortedMap.mem_entries_of_get hget, h⟩

/-- What retiring leaves is the current WAL file. -/
theorem Retired.named {flushed : Lsn} (h : Retired X e fs flushed e' fs') (hn : WalNamed X e fs) :
    WalNamed X e' fs' := by
  obtain ⟨bs, -, hentries⟩ := h.files
  have hwal : e'.wal = e.wal := by rw [h.engine]
  refine ⟨h.inv, ?_, fun p hp hne => ?_⟩
  · rw [h.engine]
    exact hn.ahead
  · rw [hentries] at hp
    rw [List.mem_singleton.mp hp, hwal] at hne
    exact absurd rfl hne

/-- Entries that are read back from a segment as they are. -/
def Stable (k : Bytes) (v : MemEntry) : Prop := (storedEntry (k, v)).2 = v

/-- The records of a key when a flush has been registered. -/
theorem recordsOf_registered {w : FlushWork} {sm : SegmentMeta}
    (hreg : registered X fs' = registered X fs ++ [sm]) (hwritten : w.Written X fs' sm)
    (hsegs : ∀ id ∈ registeredIds X fs, fs'.segs id = fs.segs id)
    (hstable : ∀ k v, find w.entries k = some v → Stable k v) (k : Bytes) :
    recordsOf X fs' k = recordsOf X fs k ++ (find w.entries k).toList := by
  rw [recordsOf_concat hreg hsegs, hwritten.segmentId, hwritten.table, find_map_storedEntry]
  cases hk : find w.entries k with
  | none => rfl
  | some v => rw [Option.map_some, hstable k v hk]

/-- **A registration** of a flush, as one of the write buffer. -/
theorem registers_of_retired {w : FlushWork} (written : Option SegmentMeta) {flushed : Lsn}
    (hretired : Retired X e fs flushed e' fs')
    (hmem : e'.memtable = e.memtable.filter fun p => p.2.lsn > w.flushedMaxLsn)
    (hrec : ∀ k, recordsOf X fs' k = recordsOf X fs k ++ (find w.entries k).toList)
    (hflights : ∀ f ∈ flights'.map Flight.batch, f ∈ flights.map Flight.batch) :
    WriteBuffer.Registers MemEntry.lsn (e.buffered X fs flights) (Flight.batch ⟨w, written⟩)
      (e'.buffered X fs' flights') where
  buffer := fun k => by
    simp only [buffered, hmem]
    exact SortedMap.get_filter ..
  stored := hrec
  log := fun p hp => by
    obtain ⟨r, hr, rfl⟩ := List.mem_map.mp hp
    exact List.mem_map_of_mem (mem_walSequence_of_current (hretired.walSequence_eq ▸ hr))
  batches := hflights
  counter := by
    rw [hretired.engine]
    rfl

/-- A flush that begins has all that is in the memtable. -/
theorem Begun.takes {w : FlushWork} (written : Option SegmentMeta) (h : Begun e e' w) (hwal : WalInv X e fs) :
    WriteBuffer.Takes MemEntry.lsn (e.buffered X fs flights) (Flight.batch ⟨w, written⟩) where
  entries := congrArg find h.entries
  le_top := fun k v hv => by
    rw [Flight.batch, h.maxLsn, h.entries]
    exact le_maxOr (List.mem_map_of_mem (SortedMap.mem_entries_of_get hv))
  top_le := by
    rw [Flight.batch, h.maxLsn]
    have hne : (w.entries.map fun p => p.2.lsn) ≠ [] := by
      rw [ne_eq, List.map_eq_nil_iff]
      exact h.wf.ne_nil
    obtain ⟨p, hp, heq⟩ := List.mem_map.mp (isGreatest_maxOr 0 hne).1
    rw [← heq]
    exact hwal.memtable p (h.entries ▸ hp)

variable (P) (flights) in
/-- **A flush** of the memtable at once. -/
theorem wp_flushToSegments_moves (h : Inv X R e fs) (hn : WalNamed X e fs)
    (hstable : ∀ k v, e.memtable.get k = some v → Stable k v) :
    Prog.wp (flushToSegments (X := X))
      ⟨fun _ q fs' => Moves P X flights e fs [] q.state fs' flights,
        fun _ q fs' => e.memtable.entries = [] ∧ q.state = e ∧ fs' = fs, AdmitsEffect X, fun _ _ => True⟩
      ⟨e, clock⟩ fs := by
  refine Prog.wp_mono (Prog.wp_and (wp_flushToSegments h) hn.wal.wp_flushToSegments) ?_
    (fun _ _ _ hq => hq.1) (fun _ _ hr => hr) fun _ _ _ _ => trivial
  rintro sm q fs' ⟨⟨-, w, e₁, hbegun, hreg, hwritten, hsegs, hq⟩, flushed, hretired⟩
  have hstable' : ∀ k v, find w.entries k = some v → Stable k v := by
    rw [hbegun.entries]
    exact hstable
  have hrec := recordsOf_registered hreg hwritten (fun id hid => hsegs id (hbegun.id ▸ (h.store.next id hid).ne))
    hstable'
  refine ⟨hretired.named hn, fun r hr => .inl ?_, ?_⟩
  · exact mem_walSequence_of_current (hretired.walSequence_eq ▸ hr)
  · exact (WriteBuffer.Step.flush (hbegun.takes none hn.wal) (registers_of_retired none hretired (by rw [hq]) hrec
      fun f hf => hf)).steps

/-- **Finishing a flush** that was in flight. -/
theorem wp_finalizeFlush_moves {w : FlushWork} {sm : SegmentMeta} (h : Inv X R e fs) (hn : WalNamed X e fs)
    (hw : w.Written X fs sm) (hnew : w.segmentId ∉ registeredIds X fs) (hR : w.segmentId ∉ R)
    (hlt : w.segmentId < e.segmentStore.nextSegmentId) (hf : ⟨w, some sm⟩ ∈ flights)
    (hflights : ∀ f ∈ flights', f ∈ flights) (hstable : ∀ k v, find w.entries k = some v → Stable k v)
    (hP : ∀ s', WriteBuffer.Registers MemEntry.lsn (e.buffered X fs flights) (Flight.batch ⟨w, some sm⟩) s' →
      s'.log = (currentRecords X e fs).map WalRecord.entry →
      P (e.buffered X fs flights) (Flight.batch ⟨w, some sm⟩) s') :
    Prog.wp (finalizeFlush (X := X) sm w.flushedMaxLsn)
      ⟨fun _ q fs' => q.state.wal = e.wal ∧ Moves P X flights e fs [] q.state fs' flights', fun _ _ _ => False,
        AdmitsEffect X, fun _ _ => True⟩ ⟨e, clock⟩ fs := by
  refine Prog.wp_mono (Prog.wp_and (wp_finalizeFlush h hw hnew hR hlt) (hn.wal.wp_finalizeFlush sm w.flushedMaxLsn)) ?_
    (fun _ _ _ hq => hq.1) (fun _ _ hr => hr) fun _ _ _ _ => trivial
  rintro _ q fs' ⟨⟨-, hreg, hsegs, hq⟩, hretired⟩
  have hwritten : w.Written X fs' sm := by
    rw [FlushWork.Written, hsegs]
    exact hw
  have hrec := recordsOf_registered hreg hwritten (fun id _ => by rw [hsegs]) hstable
  have hregisters := registers_of_retired (some sm) hretired (by rw [hq]) hrec fun b hb => by
    obtain ⟨f, hf, rfl⟩ := List.mem_map.mp hb
    exact List.mem_map_of_mem (hflights f hf)
  refine ⟨by rw [hq], hretired.named hn, fun r hr => .inl ?_, ?_⟩
  · exact mem_walSequence_of_current (hretired.walSequence_eq ▸ hr)
  · refine (WriteBuffer.Step.register (List.mem_map_of_mem hf) hregisters (hP _ hregisters ?_)).steps
    exact congrArg (List.map WalRecord.entry) hretired.walSequence_eq

/-! ### Client writes -/

/-- The entries of a write buffer are stable. -/
def AllStable (s : EntryBuffer) : Prop := s.From Stable

theorem AllStable.steps {s s' : EntryBuffer} (h : AllStable s)
    (hsteps : WriteBuffer.Steps MemEntry.lsn P s (rs.map WalRecord.entry) s') : AllStable s' :=
  WriteBuffer.From.steps h hsteps fun p hp => by
    obtain ⟨r, -, rfl⟩ := List.mem_map.mp hp
    exact congrArg Prod.snd (storedEntry_entry r)

/-- **A put**, with the flush that may follow. -/
theorem wp_put_moves {ns key val : Bytes} (h : Inv X R e fs) (hn : WalNamed X e fs)
    (hstable : AllStable (e.buffered X fs flights)) :
    Prog.wp (put (X := X) ns key val)
      ⟨fun _ q fs' => Moves P X flights e fs
          [putRecord X (e.lsnCounter + 1) (asI64 (clock 0)) 0 ns key val] q.state fs' flights,
        fun _ q fs' => q.state = e ∧ fs' = fs, AdmitsEffect X, fun _ _ => True⟩ ⟨e, clock⟩ fs := by
  rw [put, Prog.wp_bind]
  refine Prog.wp_imp wp_checkPut ?_ fun _ _ _ hq => ⟨by rw [hq.1], hq.2.1⟩
  rintro _ _ _ ⟨rfl, rfl, -, -⟩
  simp only [writeEntry, nextLsn, Prog.wp_bind, Exec.wp_modify, Exec.wp_get, Prog.wp_pure, Exec.wp_now]
  refine Prog.wp_imp (wp_writeRecord_moves P flights h hn rfl) ?_ fun _ _ _ hq => hq.elim
  rintro lsn ⟨e₁, clock₁⟩ fs₁ ⟨h₁, hne, hmoves⟩
  simp only [Prog.wp_ite, Prog.wp_bind, Prog.wp_pure]
  split
  · refine Prog.wp_imp (wp_flushToSegments_moves P flights h₁ hmoves.named (hstable.steps hmoves.steps).buffer) ?_ ?_
    · exact fun _ _ _ hq => hmoves.trans hq
    · exact fun _ _ _ hq => absurd hq.1 hne
  · exact hmoves

theorem wp_putWithTtl_moves {ns key val : Bytes} {ttl : ℕ} (h : Inv X R e fs) (hn : WalNamed X e fs) :
    Prog.wp (putWithTtl (X := X) ns key val ttl)
      ⟨fun _ q fs' => Moves P X flights e fs
          [putRecord X (e.lsnCounter + 1) (asI64 (clock 0)) ttl ns key val] q.state fs' flights,
        fun _ q fs' => q.state = e ∧ fs' = fs, AdmitsEffect X, fun _ _ => True⟩ ⟨e, clock⟩ fs := by
  rw [putWithTtl, Prog.wp_bind]
  refine Prog.wp_imp wp_checkPut ?_ fun _ _ _ hq => ⟨by rw [hq.1], hq.2.1⟩
  rintro _ _ _ ⟨rfl, rfl, -, -⟩
  simp only [writeEntry, nextLsn, Prog.wp_bind, Exec.wp_modify, Exec.wp_get, Prog.wp_pure, Exec.wp_now]
  exact Prog.wp_imp (wp_writeRecord_moves P flights h hn rfl) (fun _ _ _ hq => hq.2.2) fun _ _ _ hq => hq.elim

theorem wp_delete_moves {ns key : Bytes} (h : Inv X R e fs) (hn : WalNamed X e fs) :
    Prog.wp (delete (X := X) ns key)
      ⟨fun _ q fs' => Moves P X flights e fs [deleteRecord X (e.lsnCounter + 1) (asI64 (clock 0)) ns key] q.state fs'
          flights,
        fun _ q fs' => q.state = e ∧ fs' = fs, AdmitsEffect X, fun _ _ => True⟩ ⟨e, clock⟩ fs := by
  simp only [delete, Prog.wp_bind, Exec.wp_get, Prog.wp_ite, Prog.wp_throw, nextLsn, Exec.wp_modify,
    Prog.wp_pure, Exec.wp_now]
  split
  · exact ⟨trivial, trivial⟩
  · exact Prog.wp_imp (wp_writeRecord_moves P flights h hn rfl) (fun _ _ _ hq => hq.2.2) fun _ _ _ hq => hq.elim

/-- **A transaction**. An empty one fails where it is due to rotate and asks for the current WAL file. -/
theorem wp_runTransaction_moves {ops : List TxOp} (h : Inv X R e fs) (hn : WalNamed X e fs) :
    Prog.wp (runTransaction (X := X) ops)
      ⟨fun _ q fs' => Moves P X flights e fs (e.txRecords X ops) q.state fs' flights,
        fun _ q fs' => Moves P X flights e fs [] q.state fs' flights, AdmitsEffect X, fun _ _ => True⟩
      ⟨e, clock⟩ fs := by
  -- the transaction counter is not part of the write buffer
  have hn' : WalNamed X { e with txidCounter := e.txidCounter + 1 } fs :=
    ⟨⟨hn.wal.log, hn.wal.atEnd, hn.wal.counter, hn.wal.memtable⟩, hn.ahead, hn.others⟩
  by_cases hahead : (e.wal.appended X (e.txRecords X ops)).needsRotation (unixSecs (clock 0)) = true →
      e.wal.name < e.lsnCounter + ops.length
  · obtain ⟨bs, -, ⟨pre, hpre⟩, -⟩ := hn.wal.atEnd
    have hcurrent : ∃ q ∈ fs.wals.entries, e.wal.name ≤ q.1 := ⟨(e.wal.name, bs), by simp [hpre], le_rfl⟩
    refine Prog.wp_mono (Prog.wp_and (h.wp_write (runTransaction_frame ops)) (wp_earlierKept (runTransaction_frame ops)
      (hn.wal.wp_runTransaction ops hahead) hcurrent)) ?_ (fun _ _ _ hq => hq.2.1.elim) (fun _ _ hr => hr)
      fun _ _ _ _ => trivial
    rintro _ q fs' ⟨⟨-, hsame⟩, ⟨hlogged, hname⟩, hearlier⟩
    have hmoves := hlogged.moves P flights hn' hsame hearlier (by rwa [List.length_map])
    exact ⟨hmoves.named, hmoves.logged, hmoves.steps⟩
  · obtain ⟨rfl, hdue, hname⟩ := empty_of_not_ahead hn.ahead hahead
    refine Prog.wp_imp (wp_emptyTransaction_collides hn.wal hdue hname) (fun _ _ _ hq => hq.elim) ?_
    rintro _ ⟨e₁, clock₁⟩ _ ⟨rfl, rfl⟩
    exact ⟨hn', fun r hr => .inl hr, .refl⟩

/-! ### Records that are appended -/

/-- What a method appends is what its first part does, if the rest appends nothing. -/
theorem appendedRecords_bind {α β : Type} {m : Exec X Engine α} {k : α → Exec X Engine β} (p : Process Engine) (d : Fs)
    (hk : ∀ a, Exec.Frame Effect.AppendsNone lsnCounter (k a)) :
    appendedRecords ((m >>= k).run p d).2.2 = appendedRecords (m.run p d).2.2 := by
  rcases hm : m.run p d with ⟨_ | a, p', es⟩
  · rw [Prog.run_bind_error hm]
  · rw [Prog.run_bind_ok hm, appendedRecords_append, appendedRecords_eq_nil (hk a p' _).1, List.append_nil]

theorem finalizeFlush_appendsNone (m : SegmentMeta) (flushed : Lsn) :
    Exec.Frame Effect.AppendsNone lsnCounter (finalizeFlush (X := X) m flushed) := by
  refine .bind ?_ fun _ => .bind (.modify fun _ => rfl) fun _ => ?_
  · exact (frame_lsnCounter (onStore_frame (SegmentStore.finalizeSegment_frame m))).mono fun _ he =>
      (Effect.KeepsWal.of_isSegment he).appendsNone
  · exact (retireWals_frame _).mono fun _ he => he.appendsNone

theorem flushToSegments_appendsNone : Exec.Frame Effect.AppendsNone lsnCounter (flushToSegments (X := X)) := by
  refine .bind ((frame_lsnCounter (beginFlush_frame fun _ => False)).mono fun _ he => he.elim) fun work => ?_
  cases work with
  | none => exact .throw _
  | some w =>
    exact .bind ((w.execute_frame lsnCounter).mono fun _ he => (Effect.KeepsWal.of_isSegment he).appendsNone) fun _ =>
      .bind (finalizeFlush_appendsNone _ _) fun _ => .pure _

/-- A write of a record appends it. -/
theorem appendedRecords_writeRecord (r : WalRecord) (p : Process Engine) (d : Fs) :
    appendedRecords ((writeRecord (X := X) r).run p d).2.2 = [r] := by
  have hrest : ∀ _ : Unit, Exec.Frame Effect.AppendsNone lsnCounter
      (rotateWalIfNeeded (X := X) >>= fun _ => Prog.lift (encodeKey r.nsBytes r.keyBytes) >>= fun encodedKey =>
        Exec.modify (fun e => { e with memtable := e.memtable.insert encodedKey (r.toEntry encodedKey) }) >>= fun _ =>
          pure r.lsn) :=
    fun _ => .bind rotateWalIfNeeded_appendsNone fun _ => .bind (.lift _) fun _ => .bind (.modify fun _ => rfl) fun _ =>
      .pure _
  exact (appendedRecords_bind p d hrest).trans rfl

theorem run_checkPut (ns : Bytes) (p : Process Engine) (d : Fs) :
    ∃ res, (checkPut (X := X) ns).run p d = (res, p, []) := by
  have hget : (Exec.get : Exec X Engine Engine).run p d = (.ok p.state, p, []) := rfl
  rw [checkPut, Prog.run_bind_nil hget]
  split
  · exact ⟨_, rfl⟩
  · split
    · exact ⟨_, rfl⟩
    · exact ⟨_, rfl⟩

theorem appendedRecords_writeEntry {ns key val : Bytes} {ttl : ℕ} (d : Fs) :
    appendedRecords ((writeEntry (X := X) ns key val ttl).run ⟨e, clock⟩ d).2.2 =
      [putRecord X (e.lsnCounter + 1) (asI64 (clock 0)) ttl ns key val] := by
  have hwrite : (writeEntry (X := X) ns key val ttl).run ⟨e, clock⟩ d =
      (writeRecord (putRecord X (e.lsnCounter + 1) (asI64 (clock 0)) ttl ns key val)).run
        ⟨{ e with lsnCounter := e.lsnCounter + 1 }, fun i => clock (i + 1)⟩ d := rfl
  rw [hwrite, appendedRecords_writeRecord]

/-- A put that succeeds appends its record. -/
theorem appendedRecords_put {ns key val : Bytes} {d : Fs}
    (h : ((put (X := X) ns key val).run ⟨e, clock⟩ d).1.isOk = true) :
    appendedRecords ((put (X := X) ns key val).run ⟨e, clock⟩ d).2.2 =
      [putRecord X (e.lsnCounter + 1) (asI64 (clock 0)) 0 ns key val] := by
  obtain ⟨_ | _, hcheck⟩ := run_checkPut (X := X) ns ⟨e, clock⟩ d
  · rw [put, Prog.run_bind_error hcheck] at h
    cases h
  · rw [put, Prog.run_bind_nil hcheck]
    refine (appendedRecords_bind _ d fun _ => ?_).trans (appendedRecords_writeEntry d)
    exact .bind .get fun _ => .ite (fun _ => .bind flushToSegments_appendsNone fun _ => .pure _) fun _ => .pure _

theorem appendedRecords_putWithTtl {ns key val : Bytes} {ttl : ℕ} {d : Fs}
    (h : ((putWithTtl (X := X) ns key val ttl).run ⟨e, clock⟩ d).1.isOk = true) :
    appendedRecords ((putWithTtl (X := X) ns key val ttl).run ⟨e, clock⟩ d).2.2 =
      [putRecord X (e.lsnCounter + 1) (asI64 (clock 0)) ttl ns key val] := by
  obtain ⟨_ | _, hcheck⟩ := run_checkPut (X := X) ns ⟨e, clock⟩ d
  · rw [putWithTtl, Prog.run_bind_error hcheck] at h
    cases h
  · rw [putWithTtl, Prog.run_bind_nil hcheck]
    exact appendedRecords_writeEntry d

theorem appendedRecords_delete {ns key : Bytes} {d : Fs}
    (h : ((delete (X := X) ns key).run ⟨e, clock⟩ d).1.isOk = true) :
    appendedRecords ((delete (X := X) ns key).run ⟨e, clock⟩ d).2.2 =
      [deleteRecord X (e.lsnCounter + 1) (asI64 (clock 0)) ns key] := by
  have hget : (Exec.get : Exec X Engine Engine).run ⟨e, clock⟩ d = (.ok e, ⟨e, clock⟩, []) := rfl
  rw [delete, Prog.run_bind_nil hget] at h ⊢
  split at h
  case isTrue => cases h
  case isFalse hr =>
    have hwrite : ((nextLsn (X := X) >>= fun lsn => Exec.now >>= fun nanos =>
        writeRecord (deleteRecord X lsn (asI64 nanos) ns key)).run ⟨e, clock⟩ d) =
      (writeRecord (deleteRecord X (e.lsnCounter + 1) (asI64 (clock 0)) ns key)).run
        ⟨{ e with lsnCounter := e.lsnCounter + 1 }, fun i => clock (i + 1)⟩ d := rfl
    rw [if_neg hr, hwrite, appendedRecords_writeRecord]

/-- Effects of a write on the log add what they append. -/
theorem walSequence_run_log {es : List Effect} {d : Fs} (h : (disk X).All (WalEffect X) es d)
    (hlog : ∀ f ∈ es, f.IsLog) : walSequence X ((disk X).run es d) = walSequence X d ++ appendedRecords es := by
  induction es generalizing d with
  | nil => exact (List.append_nil _).symm
  | cons f es ih =>
    have hrest := ih h.2 fun f' hf' => hlog f' (List.mem_cons_of_mem _ hf')
    have hf := hlog f List.mem_cons_self
    have happly : walSequence X (applyEffect X f d) = walSequence X d ++ appendedRecords [f] := by
      rw [h.1.walSequence_apply]
      cases f with
      | walAppend n r => rfl
      | walUnlink n => exact hf.elim
      | _ => exact (List.append_nil _).symm
    rw [Device.run_cons, hrest, ← List.singleton_append, appendedRecords_append, ← List.append_assoc]
    exact congrArg (· ++ appendedRecords es) happly

/-- A transaction that succeeds appends its records. -/
theorem appendedRecords_runTransaction {ops : List TxOp} (hn : WalNamed X e fs)
    (hadmits : (disk X).All (AdmitsEffect X) ((runTransaction (X := X) ops).run ⟨e, clock⟩ fs).2.2 fs)
    (h : ((runTransaction (X := X) ops).run ⟨e, clock⟩ fs).1.isOk = true) :
    appendedRecords ((runTransaction (X := X) ops).run ⟨e, clock⟩ fs).2.2 = e.txRecords X ops := by
  by_cases hahead : (e.wal.appended X (e.txRecords X ops)).needsRotation (unixSecs (clock 0)) = true →
      e.wal.name < e.lsnCounter + ops.length
  · have hfits := (Device.all_and.mp hadmits).2
    have hwp := hn.wal.wp_runTransaction ops hahead
    have hres := Prog.wp_result hwp hfits
    have hseq := walSequence_run_log (Prog.wp_guar hwp hfits) ((runTransaction_frame ops) ⟨e, clock⟩ fs).1
    rcases hrun : (runTransaction (X := X) ops).run ⟨e, clock⟩ fs with ⟨_ | a, q, es⟩
    · rw [hrun] at h
      cases h
    · rw [hrun] at hres hseq
      exact List.append_cancel_left (hseq.symm.trans hres.1.sequence)
  · obtain ⟨rfl, hdue, hname⟩ := empty_of_not_ahead hn.ahead hahead
    have hres := Prog.wp_result (wp_emptyTransaction_collides hn.wal hdue hname) hadmits
    rcases hrun : (runTransaction (X := X) []).run ⟨e, clock⟩ fs with ⟨_ | a, q, es⟩
    · rw [hrun] at h
      cases h
    · rw [hrun] at hres
      exact hres.elim

end Engine

/-! ### Sessions -/

/-- The calls of a session: writes, syncs, and flushes in their phases. -/
def Op.WritesOrFlushes : Op → Prop
  | .put _ _ _ => True
  | .putWithTtl _ _ _ _ => True
  | .delete _ _ => True
  | .commit _ => True
  | .flush => True
  | .flushToSegments => True
  | .beginFlush => True
  | .execute _ => True
  | .finalizeFlush _ => True
  | .abandon _ => True
  | _ => False

instance : DecidablePred Op.WritesOrFlushes := fun op => by
  unfold Op.WritesOrFlushes
  rcases op <;> infer_instance

/-- Segments that are not registered have no part in the records of a key. -/
theorem recordsOf_outside {id : SegmentId} (h : Outside id fs fs') (hid : id ∉ registeredIds X fs) :
    recordsOf X fs' = recordsOf X fs := by
  funext k
  rw [recordsOf_eq X fs' k, recordsOf_eq X fs k, h.registeredIds_eq]
  refine List.filterMap_congr fun j hj => ?_
  rw [h.segs j]
  rintro rfl
  exact hid hj

namespace World

variable {P : RegistrationRule} {w : World} {c : Call} {op : Op} {rs : List WalRecord}

/-- **A call of a session**: it is not cut short, and what it writes is within the limits of the readers. -/
structure SessionCall (X : Externals) (w : World) (c : Call) : Prop where
  op : c.op.WritesOrFlushes
  admitted : w.Admitted X c
  fits : ∀ r ∈ appendedRecords (w.effects X c), r.Fits X

instance (X : Externals) (w : World) (c : Call) : Decidable (w.SessionCall X c) :=
  decidable_of_iff
    (c.op.WritesOrFlushes ∧ w.Admitted X c ∧ ∀ r ∈ appendedRecords (w.effects X c), r.Fits X)
    ⟨fun ⟨h₁, h₂, h₃⟩ => ⟨h₁, h₂, h₃⟩, fun ⟨h₁, h₂, h₃⟩ => ⟨h₁, h₂, h₃⟩⟩

/-- **An engine that runs**: its entries are read back as they are, and WAL files are named for rotations. -/
structure Running (X : Externals) (w : World) (e : Engine) : Prop where
  inv : WorldInv X w
  engine : w.engine = some e
  named : e.WalNamed X w.fs
  stable : Engine.AllStable (e.buffered X w.fs w.flights)

/-- **What a call does** to an engine that runs: it moves the engine, and acknowledges what it writes. -/
structure Moved (P : RegistrationRule) (X : Externals) (w : World) (e : Engine) (c : Call) (e' : Engine)
    (rs : List WalRecord) : Prop where
  inv : WorldInv X (w.step X c)
  engine : (w.step X c).engine = some e'
  moves : Engine.Moves P X w.flights e w.fs rs e' (w.step X c).fs (w.step X c).flights
  acked : w.newlyAcked X c = rs

/-- **An engine in a session**: what was acknowledged has been written to its write buffer, step by step. -/
structure Session (P : RegistrationRule) (X : Externals) (w : World) (e : Engine) : Prop where
  inv : WorldInv X w
  engine : w.engine = some e
  named : e.WalNamed X w.fs
  acked : ∀ r ∈ walSequence X w.fs, r ∈ w.acked
  fits : ∀ r ∈ w.acked, r.Fits X
  steps : WriteBuffer.Steps MemEntry.lsn P .empty (w.acked.map WalRecord.entry) (e.buffered X w.fs w.flights)

/-- What a flush finishes is asked of the write buffer: of the batch of the flight, and of the records that stay in
the log. -/
def FinalizesBy (P : RegistrationRule) (X : Externals) (w : World) (e : Engine) (c : Call) : Prop :=
  ∀ i f, c.op = .finalizeFlush i → w.flights[i]? = some f → ∀ s',
    WriteBuffer.Registers MemEntry.lsn (e.buffered X w.fs w.flights) f.batch s' →
    s'.log = (e.currentRecords X w.fs).map WalRecord.entry → P (e.buffered X w.fs w.flights) f.batch s'

theorem mem_appendedRecords_of_newlyAcked {r : WalRecord} (hr : r ∈ w.newlyAcked X c) :
    r ∈ appendedRecords (w.effects X c) := by
  rw [newlyAcked] at hr
  split at hr
  · split at hr
    · exact hr
    · cases hr
  · cases hr

namespace Running

theorem admits (h : w.Running X e) (hc : w.SessionCall X c) :
    (disk X).All (AdmitsEffect X) (w.effects X c) w.fs :=
  Device.all_and.mpr ⟨h.inv.all_storeRely hc.admitted, all_fitsWal hc.fits⟩

/-- A method that moves the engine, and appends what it writes. -/
theorem of_wp {α : Type} {m : Exec X Engine α} {land : α → List Flight} (h : w.Running X e)
    (hc : w.SessionCall X ⟨op, clock, none⟩) (hperform : w.perform X op clock = w.onEngine X clock m land)
    (happends : (m.run ⟨e, clock⟩ w.fs).1.isOk = true → appendedRecords (m.run ⟨e, clock⟩ w.fs).2.2 = rs)
    (hwp : Prog.wp m
      ⟨fun a q fs' => Engine.Moves P X w.flights e w.fs rs q.state fs' (land a),
        fun _ q fs' => Engine.Moves P X w.flights e w.fs [] q.state fs' w.flights, AdmitsEffect X,
        fun _ _ => True⟩ ⟨e, clock⟩ w.fs) :
    ∃ e' rs', Moved P X w e ⟨op, clock, none⟩ e' rs' := by
  have hadmits := h.admits hc
  rw [effects, hperform, (onEngine_some h.engine).1] at hadmits
  have hres := Prog.wp_result hwp hadmits
  have houtcome := hperform
  simp only [onEngine, h.engine] at houtcome
  rcases hrun : m.run ⟨e, clock⟩ w.fs with ⟨err | a, q, es⟩
  · rw [hrun] at hres houtcome
    have hacked : w.newlyAcked X ⟨op, clock, none⟩ = [] := by
      rw [newlyAcked, houtcome]
      rfl
    refine ⟨q.state, [], h.inv.step hc.admitted, by rw [step, houtcome], ?_, hacked⟩
    rw [step, houtcome]
    exact hres
  · rw [hrun] at hres houtcome happends
    have hacked : w.newlyAcked X ⟨op, clock, none⟩ = rs := by
      rw [newlyAcked, effects, houtcome, ← happends rfl]
      rfl
    refine ⟨q.state, rs, h.inv.step hc.admitted, by rw [step, houtcome], ?_, hacked⟩
    rw [step, houtcome]
    exact hres

/-- A call that leaves the write buffer, but for flushes that are given up. -/
theorem of_same (h : w.Running X e) (hc : w.SessionCall X ⟨op, clock, none⟩)
    (hengine : (w.perform X op clock).engine = some e)
    (hwals : ((disk X).run (w.perform X op clock).effects w.fs).wals = w.fs.wals)
    (hrec : recordsOf X ((disk X).run (w.perform X op clock).effects w.fs) = recordsOf X w.fs)
    (hflights : ∀ f ∈ (w.perform X op clock).flights.map Flight.batch, f ∈ w.flights.map Flight.batch)
    (happends : appendedRecords (w.perform X op clock).effects = []) :
    Moved P X w e ⟨op, clock, none⟩ e [] where
  inv := h.inv.step hc.admitted
  engine := hengine
  moves := .of_same h.named rfl hwals hrec hflights
  acked := by rw [newlyAcked, effects, happends, ite_self]

/-- Beginning a flush. -/
theorem beginFlush (h : w.Running X e) (hc : w.SessionCall X ⟨.beginFlush, clock, none⟩) :
    ∃ e' rs', Moved P X w e ⟨.beginFlush, clock, none⟩ e' rs' := by
  have happends : appendedRecords ((Engine.beginFlush (X := X)).run ⟨e, clock⟩ w.fs).2.2 = [] :=
    appendedRecords_eq_nil fun f hf => ((Engine.beginFlush_frame (fun _ => False) _ _).1 f hf).elim
  refine h.of_wp hc rfl (fun _ => happends) ?_
  · refine Prog.wp_mono (Engine.wp_beginFlush (h.inv.engine e h.engine)) ?_ (fun _ _ _ hq => hq.elim)
      (fun _ _ hr => hr.1) fun _ _ _ _ => trivial
    rintro work q fs' ⟨rfl, hwork⟩
    cases work with
    | none =>
      obtain ⟨-, hq⟩ := hwork
      show Engine.Moves P X w.flights e w.fs [] q.state w.fs (w.flights ++ [])
      rw [hq, List.append_nil]
      exact .of_same h.named rfl rfl rfl fun _ hb => hb
    | some f =>
      obtain ⟨hbegun, -, -⟩ := hwork
      have hpart : q.state.walPart = e.walPart := by rw [hbegun.engine]; rfl
      refine ⟨h.named.congr hpart rfl, fun r hr => .inl hr, ?_⟩
      have htakes : WriteBuffer.Takes MemEntry.lsn (e.buffered X w.fs w.flights) (Flight.batch ⟨f, none⟩) :=
        hbegun.takes none h.named.wal
      have hbuffered : q.state.buffered X w.fs (w.flights ++ [⟨f, none⟩]) =
          { e.buffered X w.fs w.flights with
            batches := w.flights.map Flight.batch ++ [Flight.batch ⟨f, none⟩] } := by
        rw [hbegun.engine]
        simp only [Engine.buffered, List.map_append, List.map_singleton]
      rw [List.map_nil]
      exact hbuffered ▸ (WriteBuffer.Step.take htakes).steps

/-- What becomes of the flushes in flight when the files of one are written. -/
theorem batches_executeFlight {i : ℕ} {b : Batch Bytes MemEntry}
    (hb : b ∈ (w.executeFlight X clock i).flights.map Flight.batch) : b ∈ w.flights.map Flight.batch := by
  rw [executeFlight] at hb
  cases hf : w.flights[i]? with
  | none =>
    rw [hf] at hb
    exact hb
  | some f =>
    have hmem : f ∈ w.flights := List.mem_of_getElem? hf
    simp only [hf] at hb
    generalize (f.work.execute (X := X)).run ⟨(), clock⟩ w.fs = r at hb
    obtain ⟨err | m, q, es⟩ := r
    · exact ((List.eraseIdx_sublist _ _).map _).subset hb
    · obtain ⟨g, hg, rfl⟩ := List.mem_map.mp hb
      rcases List.mem_or_eq_of_mem_set hg with hg | rfl
      · exact List.mem_map_of_mem hg
      · exact List.mem_map.mpr ⟨f, hmem, rfl⟩

/-- Writing the files of a flush. -/
theorem execute {i : ℕ} (h : w.Running X e) (hc : w.SessionCall X ⟨.execute i, clock, none⟩) :
    Moved P X w e ⟨.execute i, clock, none⟩ e [] := by
  have hrely := (Device.all_and.mp (h.admits hc)).1
  cases hf : w.flights[i]? with
  | none =>
    have hidle : w.perform X (.execute i) clock = w.idle false := by simp only [perform, executeFlight, hf]
    refine h.of_same hc ?_ ?_ ?_ (fun _ hb => batches_executeFlight hb) ?_ <;> rw [hidle]
    · exact h.engine
    · rfl
    · rfl
    · rfl
  | some f =>
    have hmem : f ∈ w.flights := List.mem_of_getElem? hf
    have hnew := (h.inv.fs.held f hmem).1
    have heffects : w.effects X ⟨.execute i, clock, none⟩ = ((f.work.execute (X := X)).run ⟨(), clock⟩ w.fs).2.2 ∧
        (w.perform X (.execute i) clock).engine = w.engine := by
      simp only [effects, perform, executeFlight, hf]
      generalize (f.work.execute (X := X)).run ⟨(), clock⟩ w.fs = r
      obtain ⟨err | m, q, es⟩ := r
      · exact ⟨rfl, rfl⟩
      · exact ⟨rfl, rfl⟩
    have hflush : Prog.wp (f.work.execute (X := X)) _ ⟨(), clock⟩ w.fs :=
      wp_segmentFlush_new (h.inv.wf f hmem).sorted hnew (flight_not_mem_others h.inv hf)
    have hsegment := ((f.work.execute_frame (X := X) fun _ : Unit => ()) ⟨(), clock⟩ w.fs).1
    rw [heffects.1] at hrely
    -- the files are those of a segment that is not registered
    have houtside : Outside f.work.segmentId w.fs
        ((disk X).run ((f.work.execute (X := X)).run ⟨(), clock⟩ w.fs).2.2 w.fs) := by
      have hres := Prog.wp_result hflush hrely
      generalize (f.work.execute (X := X)).run ⟨(), clock⟩ w.fs = r at hres
      obtain ⟨err | m, q, es⟩ := r
      · exact hres.2
      · exact hres.2
    rw [← heffects.1] at houtside hsegment
    refine h.of_same hc (heffects.2.trans h.engine) houtside.wals (recordsOf_outside houtside hnew)
      (fun _ hb => batches_executeFlight hb) ?_
    exact appendedRecords_eq_nil fun f hf => (Effect.KeepsWal.of_isSegment (hsegment f hf)).appendsNone

/-- Finishing a flush, which writes to the WAL file of before. -/
theorem finalizeFlush {i : ℕ} (h : w.Running X e) (hc : w.SessionCall X ⟨.finalizeFlush i, clock, none⟩)
    (hP : w.FinalizesBy P X e ⟨.finalizeFlush i, clock, none⟩) :
    ∃ e', e'.wal = e.wal ∧ Moved P X w e ⟨.finalizeFlush i, clock, none⟩ e' [] := by
  have hadmits := h.admits hc
  have hidle : w.perform X (.finalizeFlush i) clock = w.idle false →
      Moved P X w e ⟨.finalizeFlush i, clock, none⟩ e [] := by
    intro hidle
    refine h.of_same hc ?_ ?_ ?_ ?_ ?_ <;> rw [hidle]
    · exact h.engine
    · rfl
    · rfl
    · exact fun _ hb => hb
    · rfl
  cases hf : w.flights[i]? with
  | none => exact ⟨e, rfl, hidle (by simp only [perform, h.engine, hf])⟩
  | some f =>
    obtain ⟨work, _ | m⟩ := f
    · exact ⟨e, rfl, hidle (by simp only [perform, h.engine, hf])⟩
    · have hmem := List.mem_of_getElem? hf
      obtain ⟨hnew, hwritten⟩ := h.inv.fs.held _ hmem
      have hlt := ((h.inv.engine e h.engine).store.reserved _ (mem_idsOf hmem)).1
      have hstable : ∀ k v, find work.entries k = some v → Engine.Stable k v :=
        h.stable.batches _ (List.mem_map_of_mem hmem)
      have hwp : Prog.wp (Engine.finalizeFlush (X := X) m work.flushedMaxLsn)
          ⟨fun _ q fs' => q.state.wal = e.wal ∧
              Engine.Moves P X w.flights e w.fs [] q.state fs' (w.flights.eraseIdx i),
            fun _ _ _ => False, AdmitsEffect X, fun _ _ => True⟩ ⟨e, clock⟩ w.fs :=
        Engine.wp_finalizeFlush_moves ((h.inv.eraseIdx (i := i)).engine e h.engine) h.named (hwritten m rfl) hnew
          (flight_not_mem_others h.inv hf) hlt hmem (fun f hf => List.mem_of_mem_eraseIdx hf) hstable (hP i _ rfl hf)
      have happends := (Engine.finalizeFlush_appendsNone (X := X) m work.flushedMaxLsn ⟨e, clock⟩ w.fs).1
      have houtcome : w.perform X (.finalizeFlush i) clock =
          { w.onEngine X clock (Engine.finalizeFlush m work.flushedMaxLsn) with
            flights := w.flights.eraseIdx i } := by simp only [perform, h.engine, hf]
      rw [effects, houtcome] at hadmits
      simp only [onEngine, h.engine] at houtcome hadmits
      rcases hrun : (Engine.finalizeFlush (X := X) m work.flushedMaxLsn).run ⟨e, clock⟩ w.fs with ⟨err | _, q, es⟩
      · rw [hrun] at hadmits
        have hres := Prog.wp_result hwp (hrun ▸ hadmits)
        rw [hrun] at hres
        exact hres.elim
      · rw [hrun] at hadmits houtcome happends
        have hres := Prog.wp_result hwp (hrun ▸ hadmits)
        rw [hrun] at hres
        have hacked : w.newlyAcked X ⟨.finalizeFlush i, clock, none⟩ = [] := by
          rw [newlyAcked, effects, houtcome, appendedRecords_eq_nil happends]
          rfl
        refine ⟨q.state, hres.1, h.inv.step hc.admitted, by rw [World.step, houtcome], ?_, hacked⟩
        rw [World.step, houtcome]
        exact hres.2

/-- Giving up a flush. -/
theorem abandon {i : ℕ} (h : w.Running X e) (hc : w.SessionCall X ⟨.abandon i, clock, none⟩) :
    Moved P X w e ⟨.abandon i, clock, none⟩ e [] :=
  h.of_same hc h.engine rfl rfl (fun _ hb => ((List.eraseIdx_sublist _ _).map _).subset hb) rfl

/-- **The calls of a session are steps of the write buffer**, if the flushes that are finished meet what is asked. -/
theorem step (h : w.Running X e) (hc : w.SessionCall X c) (hP : w.FinalizesBy P X e c) :
    ∃ e' rs, Moved P X w e c e' rs := by
  obtain ⟨op, clock, stop⟩ := c
  obtain rfl : stop = none := hc.admitted.stop
  have hinv := h.inv.engine e h.engine
  have hrefl : ∀ e' fs', e' = e ∧ fs' = w.fs → Engine.Moves P X w.flights e w.fs [] e' fs' w.flights := by
    rintro _ _ ⟨rfl, rfl⟩
    exact ⟨h.named, fun r hr => .inl hr, .refl⟩
  cases op with
  | put ns key val =>
    exact h.of_wp hc rfl Engine.appendedRecords_put
      (Prog.wp_imp (Engine.wp_put_moves hinv h.named h.stable) (fun _ _ _ hq => hq) fun _ _ _ hq => hrefl _ _ hq)
  | putWithTtl ns key val ttl =>
    exact h.of_wp hc rfl Engine.appendedRecords_putWithTtl
      (Prog.wp_imp (Engine.wp_putWithTtl_moves hinv h.named) (fun _ _ _ hq => hq) fun _ _ _ hq => hrefl _ _ hq)
  | delete ns key =>
    exact h.of_wp hc rfl Engine.appendedRecords_delete
      (Prog.wp_imp (Engine.wp_delete_moves hinv h.named) (fun _ _ _ hq => hq) fun _ _ _ hq => hrefl _ _ hq)
  | commit ops =>
    refine h.of_wp hc rfl (Engine.appendedRecords_runTransaction h.named ?_)
      (Engine.wp_runTransaction_moves hinv h.named)
    exact (onEngine_some h.engine).1 ▸ h.admits hc
  | flush =>
    have hperform : w.perform X .flush clock = w.onEngine X clock Engine.flush := rfl
    refine h.of_wp hc hperform (fun _ => rfl) (Prog.wp_mono (Prog.wp_and (hinv.wp_write Engine.flush_frame)
      (Engine.wp_keepsWal Engine.syncWal_frame)) ?_ ?_ (fun _ _ hr => hr) fun _ _ _ _ => trivial)
    · exact fun _ q fs' hq => .of_same h.named hq.2.1 hq.2.2
        (funext fun k => recordsOf_congr hq.1.2.registered_eq hq.1.2.segs k) fun _ hb => hb
    · exact fun _ q fs' hq => .of_same h.named hq.2.1 hq.2.2
        (funext fun k => recordsOf_congr hq.1.2.registered_eq hq.1.2.segs k) fun _ hb => hb
  | flushToSegments =>
    refine h.of_wp hc rfl (fun _ => ?_) (Prog.wp_imp
      (Engine.wp_flushToSegments_moves P w.flights hinv h.named h.stable.buffer) (fun _ _ _ hq => hq)
      fun _ _ _ hq => hrefl _ _ hq.2)
    exact appendedRecords_eq_nil (Engine.flushToSegments_appendsNone _ _).1
  | beginFlush => exact h.beginFlush hc
  | execute i => exact ⟨e, [], h.execute hc⟩
  | finalizeFlush i =>
    obtain ⟨e', -, hmoved⟩ := h.finalizeFlush hc hP
    exact ⟨e', [], hmoved⟩
  | abandon i => exact ⟨e, [], h.abandon hc⟩
  | _ => exact hc.op.elim

end Running

theorem Moved.acked_step (h : Moved P X w e c e' rs) : (w.step X c).acked = w.acked ++ rs := by
  rw [World.acked_step, h.acked]

/-- An engine that is moved runs. -/
theorem Running.moved (h : w.Running X e) (hm : Moved P X w e c e' rs) : (w.step X c).Running X e' where
  inv := hm.inv
  engine := hm.engine
  named := hm.moves.named
  stable := h.stable.steps hm.moves.steps

namespace Session

/-- All entries in a session are those of records that were acknowledged. -/
theorem running (h : Session P X w e) : w.Running X e :=
  ⟨h.inv, h.engine, h.named, Engine.AllStable.steps WriteBuffer.from_empty h.steps⟩

/-- A call that moves the engine keeps the session. -/
theorem moved (h : Session P X w e) (hc : w.SessionCall X c) (hm : Moved P X w e c e' rs) :
    Session P X (w.step X c) e' where
  inv := hm.inv
  engine := hm.engine
  named := hm.moves.named
  acked := fun r hr => by
    rw [hm.acked_step]
    exact List.mem_append.mpr ((hm.moves.logged r hr).imp_left (h.acked r))
  fits := fun r hr => by
    rw [acked_step] at hr
    rcases List.mem_append.mp hr with hr | hr
    · exact h.fits r hr
    · exact hc.fits r (mem_appendedRecords_of_newlyAcked hr)
  steps := by
    rw [hm.acked_step, List.map_append]
    exact h.steps.trans hm.moves.steps

/-- Finishing a flush, which writes to the WAL file of before. -/
theorem finalizeFlush {i : ℕ} (h : Session P X w e) (hc : w.SessionCall X ⟨.finalizeFlush i, clock, none⟩)
    (hP : w.FinalizesBy P X e ⟨.finalizeFlush i, clock, none⟩) :
    ∃ e', e'.wal = e.wal ∧ Session P X (w.step X ⟨.finalizeFlush i, clock, none⟩) e' := by
  obtain ⟨e', hwal, hmoved⟩ := h.running.finalizeFlush hc hP
  exact ⟨e', hwal, h.moved hc hmoved⟩

/-- **The calls of a session** keep it, if the flushes that are finished meet what is asked. -/
theorem step (h : Session P X w e) (hc : w.SessionCall X c) (hP : w.FinalizesBy P X e c) :
    ∃ e', Session P X (w.step X c) e' := by
  obtain ⟨e', rs, hmoved⟩ := h.running.step hc hP
  exact ⟨e', h.moved hc hmoved⟩

/-- **A run of a session** keeps it. -/
theorem run {calls : List Call} (h : Session P X w e)
    (hcalls : Run.All (World.step X) (fun w c => w.SessionCall X c ∧ ∀ e, w.engine = some e → w.FinalizesBy P X e c) w
      calls) : ∃ e', Session P X (Run.from (World.step X) w calls) e' :=
  hcalls.invariant (I := fun w => ∃ e, Session P X w e)
    (fun _ _ ⟨e, hw⟩ ⟨hc, hP⟩ => hw.step hc (hP e hw.engine)) ⟨e, h⟩

end Session

/-- An engine on an empty directory. -/
def opened (X : Externals) (config : EdgestoreConfig) (clock : ℕ → ℕ) : World :=
  ({} : World).step X ⟨.open config, clock, none⟩

/-- **A session begins** with an engine on an empty directory. -/
theorem session_opened (P : RegistrationRule) {config : EdgestoreConfig}
    (hwindow : asI64 config.cohortWindowSecs ≠ 0) : ∃ e, Session P X (opened X config clock) e := by
  obtain ⟨hinv, -, e, he, hrep⟩ := @represents_open X clock config hwindow
  have hwals : (opened X config clock).fs.wals.entries = [(0, walHeader)] := rfl
  have hseq : walSequence X (opened X config clock).fs = [] := rfl
  have hreg : registered X (opened X config clock).fs = [] := rfl
  have hmemory : (opened X config clock).engine.map (fun e => (e.wal.name, e.memtable, e.lsnCounter)) =
      some (0, .empty, 0) := rfl
  rw [opened, he, Option.map_some, Option.some_inj, Prod.mk.injEq, Prod.mk.injEq] at hmemory
  obtain ⟨hname, hmem, hlsn⟩ := hmemory
  refine ⟨e, hinv, he, ⟨hrep.wal, hrep.ahead, fun p hp hne => ?_⟩, fun r hr => ?_, fun r hr => ?_, ?_⟩
  · rw [hwals] at hp
    rw [List.mem_singleton.mp hp, hname] at hne
    exact absurd rfl hne
  · rw [hseq] at hr
    cases hr
  · cases hr
  · have hbuffered : e.buffered X (opened X config clock).fs (opened X config clock).flights = .empty := by
      have hrec : recordsOf X (opened X config clock).fs = fun _ => [] := by
        funext k
        rw [recordsOf_eq, registeredIds, hreg]
        rfl
      have hflights : (opened X config clock).flights = [] := rfl
      rw [Engine.buffered, hmem, hlsn, hrec, hseq, hflights]
      rfl
    rw [hbuffered]
    exact .refl

end World
