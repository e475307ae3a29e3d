import Edgestore.ImportTtl

/-!
# Imports that are refused

An import stages the file before it parses it, and writes records before it registers the segment. What
it has done by then is not undone when it stops: a rejected file stays behind, and an import that fails
leaves the records it has written, or the files of a segment that is not in the manifest.

## Main definitions

* `Engine.Untouched`: what readers see, the manifest and the files are as they were
* `Engine.RefusesClean`: an import that applies nothing leaves everything untouched
* `Engine.Blocked`: the write of a record would rotate the WAL onto a file that exists
* `Engine.GoesThrough`: no record is blocked, and the segment can be registered
* `Engine.LeavesNothing`: the imports that are over before the file is staged, go through, or find their
  leftovers in place

## Main results

* `Engine.refusesClean_iff`: exactly these imports refuse cleanly
* `Engine.rejected_leaves_file`: a rejected file stays in the directory
-/

open FramedLog

variable {X : Externals} {fs fs' fs'' : Fs} {e : Engine} {clock : ℕ → ℕ} {p : Bytes × MemEntry}
  {r : WalRecord}

/-! ### WAL files grow -/

/-- Every WAL file is still there, and none is shorter. -/
def Fs.WalsKept (fs fs' : Fs) : Prop :=
  ∀ n bs, fs.wals.get n = some bs → ∃ bs', fs'.wals.get n = some bs' ∧ bs.length ≤ bs'.length

/-- Every WAL file is still there, none is shorter, and one is longer, or new. -/
structure Fs.WalsGrown (fs fs' : Fs) : Prop where
  kept : fs.WalsKept fs'
  grown : ∃ n bs', fs'.wals.get n = some bs' ∧ ∀ bs, fs.wals.get n = some bs → bs.length < bs'.length

namespace Fs

theorem WalsKept.of_eq (h : fs'.wals = fs.wals) : fs.WalsKept fs' :=
  fun _ bs hbs => ⟨bs, by rw [h]; exact hbs, le_rfl⟩

theorem WalsKept.trans (h : fs.WalsKept fs') (h' : fs'.WalsKept fs'') : fs.WalsKept fs'' := by
  intro n bs hbs
  obtain ⟨bs', hbs', hle⟩ := h n bs hbs
  obtain ⟨bs'', hbs'', hle'⟩ := h' n bs' hbs'
  exact ⟨bs'', hbs'', hle.trans hle'⟩

theorem WalsGrown.trans_kept (h : fs.WalsGrown fs') (h' : fs'.WalsKept fs'') : fs.WalsGrown fs'' := by
  obtain ⟨n, bs', hbs', hlt⟩ := h.grown
  obtain ⟨bs'', hbs'', hle⟩ := h' n bs' hbs'
  exact ⟨h.kept.trans h', n, bs'', hbs'', fun bs hbs => (hlt bs hbs).trans_le hle⟩

theorem WalsGrown.wals_ne (h : fs.WalsGrown fs') : fs'.wals ≠ fs.wals := by
  obtain ⟨n, bs, hbs, hlt⟩ := h.grown
  intro heq
  rw [heq] at hbs
  exact absurd (hlt bs hbs) (lt_irrefl _)

/-- A WAL file with more bytes at its end. -/
theorem walsKept_appendWal (n : Lsn) (bs : Bytes) : fs.WalsKept (fs.appendWal n bs) := by
  intro k old hold
  unfold appendWal
  rw [SortedMap.get_insert]
  split
  case isTrue hk =>
    subst hk
    rw [hold]
    exact ⟨_, rfl, by rw [Option.getD_some, List.length_append]; exact Nat.le_add_right _ _⟩
  case isFalse => exact ⟨old, hold, le_rfl⟩

theorem walsGrown_append (n : Lsn) (r : WalRecord) :
    fs.WalsGrown (applyEffect X (.walAppend n r) fs) := by
  refine ⟨Fs.walsKept_appendWal n _, n, _, SortedMap.get_insert_self .., fun bs hbs => ?_⟩
  rw [hbs, Option.getD_some, List.length_append, length_frame]
  omega

theorem walsKept_create {n : Lsn} (h : fs.wals.get n = none) :
    fs.WalsKept (applyEffect X (.walCreate n) fs) := by
  intro k bs hbs
  have hk : n ≠ k := by
    rintro rfl
    rw [h] at hbs
    cases hbs
  exact ⟨bs, by rw [applyEffect, SortedMap.get_insert, if_neg hk]; exact hbs, le_rfl⟩

/-- The directory behind the staging of a file. -/
def stage (hash : Bytes) (dat : Dat) (fs : Fs) : Fs := fs.setStaged hash fun _ => { dat := .whole dat }

/-! ### Files that are there already -/

theorem stage_eq_self {hash : Bytes} {dat : Dat} :
    fs.stage hash dat = fs ↔ fs.staged hash = { dat := .whole dat } := by
  rw [← setAt_eq_self (f := fs.staged)]
  constructor
  · intro h
    exact congrArg Fs.staged h
  · intro h
    unfold stage setStaged
    rw [h]

/-- Files of a segment in place of staged ones. -/
def adopt (hash : Bytes) (id : SegmentId) (files : SegmentFiles) (fs : Fs) : Fs :=
  { fs with segs := setAt fs.segs id files, staged := setAt fs.staged hash {} }

theorem adopt_eq_self {hash : Bytes} {id : SegmentId} {files : SegmentFiles} :
    fs.adopt hash id files = fs ↔ fs.staged hash = {} ∧ fs.segs id = files := by
  rw [← setAt_eq_self (f := fs.staged), ← setAt_eq_self (f := fs.segs)]
  constructor
  · intro h
    exact ⟨congrArg Fs.staged h, congrArg Fs.segs h⟩
  · rintro ⟨hstaged, hsegs⟩
    unfold adopt
    rw [hstaged, hsegs]

end Fs

namespace Engine

/-! ### Refusals -/

/-- What readers see, the manifest, the records with their LSNs, and the files are as they were. -/
structure Untouched (X : Externals) (e : Engine) (fs : Fs) (e' : Engine) (fs' : Fs) : Prop where
  get : ∀ ns key, e'.get X fs' ns key = e.get X fs ns key
  range : ∀ ns start «end», e'.range fs' ns start «end» = e.range fs ns start «end»
  records : ∀ k, e'.localEntry X fs' k = e.localEntry X fs k
  manifest : e'.segmentStore.manifest = e.segmentStore.manifest
  files : fs' = fs

/-- The result of an import that was not applied. -/
def Refused (result : Except EdgestoreError ImportResult) : Prop :=
  ∀ written skipped, result ≠ .ok (.applied written skipped)

/-- If an import is refused, everything is untouched. -/
def RefusesClean (X : Externals) (e : Engine) (fs : Fs) (clock : ℕ → ℕ) (dat : Dat) (size : ℕ)
    (hash : Bytes) : Prop :=
  let out := (importSegment (X := X) dat size hash).run ⟨e, clock⟩ fs
  Refused out.1 → e.Untouched X fs out.2.1.state ((disk X).run out.2.2 fs)

/-! ### What can go wrong -/

/-- The record that an import writes for an entry: none if the entry loses, if its key has no namespace,
or if it is a put without a value. -/
def importedRecord (X : Externals) (e : Engine) (fs : Fs) (p : Bytes × MemEntry) : Option WalRecord :=
  if e.Wins X fs p then
    match decodeKey p.1, p.2.op, p.2.value with
    | .ok (ns, key), .put, some val => some (putRecord X (e.lsnCounter + 1) p.2.timestamp 0 ns key val)
    | .ok (ns, key), .delete, _ => some (deleteRecord X (e.lsnCounter + 1) p.2.timestamp ns key)
    | _, _, _ => none
  else none

/-- The write of an entry would rotate the WAL onto a file that exists. -/
def Blocked (X : Externals) (q : Process Engine) (fs : Fs) (p : Bytes × MemEntry) : Prop :=
  ∃ r ∈ q.state.importedRecord X fs p,
    (q.state.appending X r).Collides (applyEffect X (.walAppend q.state.wal.name r) fs) (q.clock 0)

/-- The metadata that an import registers next. -/
def nextMeta (q : Process Engine) (hash : Bytes) (size : ℕ) (g : ImportProgress) : SegmentMeta :=
  importedMeta q.state.segmentStore.nextSegmentId hash size g (asI64 (q.clock 0))

/-- The filter of the segment is not too large for a reader, nor its metadata for the manifest. -/
def Registrable (X : Externals) (hash : Bytes) (size : ℕ) (g : ImportProgress) (q : Process Engine) : Prop :=
  (X.buildFilter g.segmentKeys).fingerprints.length ≤ maxFingerprints ∧
    (X.manifestJson (addEntry (nextMeta q hash size g))).length ≤ maxEntryLen

/-- No entry is blocked in the state in which its turn comes, and the segment can be registered in the
state behind them. -/
def GoesThrough (X : Externals) (hash : Bytes) (size : ℕ) :
    List (Bytes × MemEntry) → ImportProgress → Process Engine → Fs → Prop
  | [], g, q, _ => Registrable X hash size g q
  | p :: rest, g, q, fs => ¬ Blocked X q fs p ∧
    ∀ g' q' es, (importEntry (X := X) g p).run q fs = (.ok g', q', es) →
      GoesThrough X hash size rest g' q' ((disk X).run es fs)

/-- What an import notes about an entry that it does not write. -/
def skipEntry (X : Externals) (e : Engine) (fs : Fs) (g : ImportProgress) (p : Bytes × MemEntry) :
    ImportProgress :=
  let g := g.observe p
  if e.Wins X fs p ∧ (decodeKey p.1).isOk = false then g
  else { g with keysSkipped := g.keysSkipped + 1 }

/-- The files of a segment that an import has registered, or failed to. -/
def importedFiles (X : Externals) (dat : Dat) (g : ImportProgress) (m : SegmentMeta) : SegmentFiles where
  dat := .whole dat
  idx := .whole [([], 0)]
  xf := .whole (X.buildFilter g.segmentKeys)
  segMeta := .whole m

/-- No entry is written, no file of the hash is staged, and the files of the segment are there already. -/
structure Redone (X : Externals) (dat : Dat) (size : ℕ) (hash : Bytes) (l : List (Bytes × MemEntry))
    (q : Process Engine) (fs : Fs) : Prop where
  skipped : ∀ p ∈ l, q.state.importedRecord X (fs.stage hash dat) p = none
  staged : fs.staged hash = {}
  files : fs.segs q.state.segmentStore.nextSegmentId =
    importedFiles X dat (l.foldl (skipEntry X q.state (fs.stage hash dat)) {})
      (nextMeta q hash size (l.foldl (skipEntry X q.state (fs.stage hash dat)) {}))

/-- The imports that leave nothing behind: those that are over before the file is staged; of the files
that are rejected, those that are in the directory already; and of the others, those that go through, or
that fail where all that they write is there. -/
def LeavesNothing (X : Externals) (e : Engine) (fs : Fs) (clock : ℕ → ℕ) (dat : Dat) (size : ℕ)
    (hash : Bytes) : Prop :=
  (∃ m ∈ e.segmentStore.manifest.segments, m.segmentHash = hash) ∨ X.datHash dat ≠ hash ∨
    match parseDatEntries dat with
    | .error _ => fs.staged hash = { dat := .whole dat }
    | .ok l => GoesThrough X hash size l {} ⟨e, clock⟩ (fs.stage hash dat) ∨
        Redone X dat size hash l ⟨e, clock⟩ fs

/-! ### One entry -/

/-- A rotation keeps WAL files, and fails where it asks for a file that exists. -/
theorem wp_rotateWalIfNeeded_kept :
    Prog.wp (rotateWalIfNeeded (X := X))
      ⟨fun _ _ fs' => ¬ e.Collides fs (clock 0) ∧ fs.WalsKept fs',
        fun err _ fs' => e.Collides fs (clock 0) ∧ fs.WalsKept fs' ∧ err = .io .alreadyExists,
        fun _ _ => True, fun _ _ => True⟩ ⟨e, clock⟩ fs := by
  simp only [rotateWalIfNeeded, Prog.wp_bind, Exec.wp_now, Exec.wp_get, Prog.wp_ite, onWal,
    Exec.wp_zoom, WalWriter.fsync, Exec.wp_effect, Prog.wp_pure, WalWriter.create, Exec.wp_fs,
    Prog.wp_throw, Exec.wp_modify]
  split
  case isTrue hdue =>
    refine fun _ => ⟨trivial, ?_⟩
    split
    case isTrue htaken => exact ⟨⟨hdue, htaken⟩, .of_eq rfl, trivial⟩
    case isFalse hfree =>
      have hnone : fs.wals.get e.lsnCounter = none := Option.not_isSome_iff_eq_none.mp hfree
      refine fun _ => ⟨trivial, fun _ => ⟨trivial, fun hc => hfree hc.2, ?_⟩⟩
      exact (Fs.walsKept_create (X := X) hnone).trans (Fs.walsKept_appendWal _ _)
  case isFalse hdue => exact ⟨fun hc => hdue hc.1, .of_eq rfl⟩

/-- **A write of a record** is in the WAL, also if the rotation behind it fails. -/
theorem wp_writeRecord_grown {k : Bytes} (hk : encodeKey r.nsBytes r.keyBytes = .ok k) :
    Prog.wp (writeRecord (X := X) r)
      ⟨fun _ _ fs' =>
          ¬ (e.appending X r).Collides (applyEffect X (.walAppend e.wal.name r) fs) (clock 0) ∧
            fs.WalsGrown fs',
        fun err _ fs' =>
          (e.appending X r).Collides (applyEffect X (.walAppend e.wal.name r) fs) (clock 0) ∧
            fs.WalsGrown fs' ∧ err = .io .alreadyExists,
        fun _ _ => True, fun _ _ => True⟩ ⟨{ e with lsnCounter := e.lsnCounter + 1 }, clock⟩ fs := by
  have hwriter : { e with
      lsnCounter := e.lsnCounter + 1
      wal := { e.wal with
        bytesWritten := e.wal.bytesWritten + (frame (walFormat X) r).length } } =
      e.appending X r := by
    simp [appending, WalWriter.appended]
  simp only [writeRecord, onWal, Prog.wp_bind, Exec.wp_zoom, WalWriter.append, Exec.wp_get,
    Exec.wp_effect, Exec.wp_modify, hwriter]
  refine fun _ => ⟨trivial, ?_⟩
  refine Prog.wp_imp wp_rotateWalIfNeeded_kept ?_ ?_
  · rintro _ q fs₁ ⟨hfree, hkept⟩
    simp only [hk, Prog.wp_lift, Prog.result_ok, Prog.wp_pure]
    exact ⟨hfree, (Fs.walsGrown_append _ r).trans_kept hkept⟩
  · rintro err q fs₁ ⟨hc, hkept, herr⟩
    exact ⟨hc, (Fs.walsGrown_append _ r).trans_kept hkept, herr⟩

/-- The write of an entry, once the local entry has been looked up. -/
def writeIncoming (g : ImportProgress) (p : Bytes × MemEntry) : Exec X Engine ImportProgress :=
  match decodeKey p.1, p.2.op, p.2.value with
  | .ok (ns, key), .put, some val => do
    let _ ← putWithTimestamp ns key val p.2.timestamp
    return { g with keysWritten := g.keysWritten + 1 }
  | .ok _, .put, none => return { g with keysSkipped := g.keysSkipped + 1 }
  | .ok (ns, key), .delete, _ => do
    let _ ← deleteWithTimestamp ns key p.2.timestamp
    return { g with keysWritten := g.keysWritten + 1 }
  | .error _, _, _ => return g

theorem run_importEntry (g : ImportProgress) (p : Bytes × MemEntry) (q : Process Engine) :
    (importEntry (X := X) g p).run q fs =
      (if q.state.Wins X fs p then writeIncoming (X := X) (g.observe p) p
        else return { g.observe p with keysSkipped := (g.observe p).keysSkipped + 1 }).run q fs := rfl

/-- An entry that is not written leaves everything. -/
theorem run_importEntry_none (g : ImportProgress) (q : Process Engine)
    (h : q.state.importedRecord X fs p = none) :
    (importEntry (X := X) g p).run q fs = (.ok (skipEntry X q.state fs g p), q, []) := by
  rw [run_importEntry]
  unfold importedRecord at h
  unfold skipEntry
  split
  case isFalse hloses =>
    rw [if_neg fun hc => hloses hc.1]
    rfl
  case isTrue hwins =>
    rw [if_pos hwins] at h
    unfold writeIncoming
    split at h
    case h_1 => cases h
    case h_2 => cases h
    case h_3 hdelete hput =>
      split
      case h_1 hdec hop hval => exact absurd hval (hput _ _ _ hdec hop)
      case h_2 hdec hop hval =>
        rw [if_neg fun hc => by rw [hdec] at hc; cases hc.2]
        rfl
      case h_3 hdec hop => exact absurd hop (hdelete _ _ hdec)
      case h_4 hdec =>
        rw [if_pos ⟨hwins, by rw [hdec]; rfl⟩]
        rfl

/-- **An entry that is written** makes the WAL grow, also if its write is blocked. -/
theorem wp_importEntry_some (g : ImportProgress) (q : Process Engine)
    (h : q.state.importedRecord X fs p = some r) :
    Prog.wp (importEntry (X := X) g p)
      ⟨fun _ _ fs' => ¬ Blocked X q fs p ∧ fs.WalsGrown fs',
        fun err _ fs' => Blocked X q fs p ∧ fs.WalsGrown fs' ∧ err = .io .alreadyExists,
        fun _ _ => True, fun _ _ => True⟩ q fs := by
  have hblocked : Blocked X q fs p ↔
      (q.state.appending X r).Collides (applyEffect X (.walAppend q.state.wal.name r) fs) (q.clock 0) := by
    unfold Blocked
    rw [h]
    simp
  rw [hblocked]
  change Prog.wp (if q.state.Wins X fs p then writeIncoming (X := X) (g.observe p) p
        else return { g.observe p with keysSkipped := (g.observe p).keysSkipped + 1 }) _ q fs
  unfold importedRecord at h
  split at h
  case isFalse => cases h
  case isTrue hwins =>
    rw [if_pos hwins]
    unfold writeIncoming
    split at h
    case h_1 ns key val hdec hop hval =>
      cases h
      have hns : ¬ ns.length > maxNsLen := not_lt.mpr (encodeKey_eq_ok.mp (encodeKey_of_decodeKey hdec)).1
      simp only [hdec, hop, hval, putWithTimestamp, nextLsn, Prog.wp_bind, if_neg hns, Exec.wp_modify,
        Exec.wp_get, Prog.wp_pure]
      exact wp_writeRecord_grown (encodeKey_of_decodeKey hdec)
    case h_2 ns key hdec hop =>
      cases h
      simp only [hdec, hop, deleteWithTimestamp, nextLsn, Prog.wp_bind, Exec.wp_modify, Exec.wp_get,
        Prog.wp_pure]
      exact wp_writeRecord_grown (encodeKey_of_decodeKey hdec)
    case h_3 => cases h

/-! ### All entries -/

/-- What holds behind the entries of a segment: whether the import goes through is a matter of the
registration, and either nothing was written or the WAL has grown. -/
structure Brought (X : Externals) (hash : Bytes) (size : ℕ) (l : List (Bytes × MemEntry)) (g : ImportProgress)
    (q : Process Engine) (fs : Fs) (g' : ImportProgress) (q' : Process Engine) (fs' : Fs) : Prop where
  through : GoesThrough X hash size l g q fs ↔ Registrable X hash size g' q'
  written : ((∀ p ∈ l, q.state.importedRecord X fs p = none) ∧
      g' = l.foldl (skipEntry X q.state fs) g ∧ q' = q ∧ fs' = fs) ∨
    (∃ p ∈ l, q.state.importedRecord X fs p ≠ none) ∧ fs.WalsGrown fs'

/-- What holds where the write of an entry fails. -/
structure Stuck (X : Externals) (hash : Bytes) (size : ℕ) (l : List (Bytes × MemEntry)) (g : ImportProgress)
    (q : Process Engine) (fs : Fs) (err : EdgestoreError) (fs' : Fs) : Prop where
  through : ¬ GoesThrough X hash size l g q fs
  written : ∃ p ∈ l, q.state.importedRecord X fs p ≠ none
  grown : fs.WalsGrown fs'
  error : err = .io .alreadyExists

variable {hash : Bytes} {size : ℕ} {l : List (Bytes × MemEntry)}

theorem goesThrough_cons {g : ImportProgress} {q : Process Engine} :
    GoesThrough X hash size (p :: l) g q fs ↔ ¬ Blocked X q fs p ∧
      ∀ g' q' es, (importEntry (X := X) g p).run q fs = (.ok g', q', es) →
        GoesThrough X hash size l g' q' ((disk X).run es fs) := Iff.rfl

/-- An entry that is not written does not matter. -/
theorem goesThrough_cons_none {g : ImportProgress} {q : Process Engine}
    (h : q.state.importedRecord X fs p = none) :
    GoesThrough X hash size (p :: l) g q fs ↔
      GoesThrough X hash size l (skipEntry X q.state fs g p) q fs := by
  have hrun := run_importEntry_none g q h
  rw [goesThrough_cons]
  constructor
  · intro hthrough
    exact hthrough.2 _ _ _ hrun
  · intro hthrough
    refine ⟨fun hblocked => ?_, fun g' q' es heq => ?_⟩
    · obtain ⟨r, hr, -⟩ := hblocked
      rw [h] at hr
      cases hr
    · rw [hrun] at heq
      cases heq
      exact hthrough

/-- An entry that is written is followed by the others. -/
theorem goesThrough_cons_some {g g' : ImportProgress} {q q' : Process Engine} {es : List Effect}
    (hfree : ¬ Blocked X q fs p) (hrun : (importEntry (X := X) g p).run q fs = (.ok g', q', es)) :
    GoesThrough X hash size (p :: l) g q fs ↔ GoesThrough X hash size l g' q' ((disk X).run es fs) := by
  rw [goesThrough_cons]
  constructor
  · intro hthrough
    exact hthrough.2 _ _ _ hrun
  · intro hthrough
    refine ⟨hfree, fun g'' q'' es' heq => ?_⟩
    rw [hrun] at heq
    cases heq
    exact hthrough

/-- **The entries of a segment**, one after the other. -/
theorem wp_importEntries_brought (hash : Bytes) (size : ℕ) (l : List (Bytes × MemEntry))
    (g : ImportProgress) (q : Process Engine) (fs : Fs) :
    Prog.wp (l.foldlM (importEntry (X := X)) g)
      ⟨fun g' q' fs' => Brought X hash size l g q fs g' q' fs' ∧ fs.WalsKept fs',
        fun err _ fs' => Stuck X hash size l g q fs err fs',
        fun _ _ => True, fun _ _ => True⟩ q fs := by
  induction l generalizing g q fs with
  | nil =>
    refine (Prog.wp_pure _).mpr ⟨⟨Iff.rfl, .inl ⟨?_, rfl, rfl, rfl⟩⟩, .of_eq rfl⟩
    exact fun p hp => absurd hp List.not_mem_nil
  | cons p l ih =>
    rw [List.foldlM_cons, Prog.wp_bind]
    cases hrec : q.state.importedRecord X fs p with
    | none =>
      refine Prog.wp_of_run_nil (run_importEntry_none g q hrec) ?_
      refine Prog.wp_imp (ih _ q fs) ?_ ?_
      · rintro g' q' fs' ⟨⟨hthrough, hwritten⟩, hkept⟩
        refine ⟨⟨(goesThrough_cons_none hrec).trans hthrough, hwritten.imp ?_ ?_⟩, hkept⟩
        · rintro ⟨hnone, hrest⟩
          exact ⟨List.forall_mem_cons.mpr ⟨hrec, hnone⟩, hrest⟩
        · rintro ⟨⟨p', hp', hne⟩, hgrown⟩
          exact ⟨⟨p', List.mem_cons_of_mem _ hp', hne⟩, hgrown⟩
      · rintro err q' fs' ⟨hthrough, ⟨p', hp', hne⟩, hgrown, herr⟩
        exact ⟨fun h => hthrough ((goesThrough_cons_none hrec).mp h),
          ⟨p', List.mem_cons_of_mem _ hp', hne⟩, hgrown, herr⟩
    | some r =>
      have hmem : ∃ p' ∈ p :: l, q.state.importedRecord X fs p' ≠ none := by
        refine ⟨p, List.mem_cons_self, ?_⟩
        rw [hrec]
        exact Option.some_ne_none r
      refine Prog.wp_mono (Prog.wp_and (wp_importEntry_some g q hrec) Prog.wp_run) ?_ ?_
        (fun _ _ _ => ⟨trivial, trivial⟩) (fun _ _ _ _ => trivial)
      · rintro g₁ q₁ fs₁ ⟨⟨hfree, hgrown⟩, es, hrun, rfl⟩
        have hcons : GoesThrough X hash size (p :: l) g q fs ↔
            GoesThrough X hash size l g₁ q₁ ((disk X).run es fs) := goesThrough_cons_some hfree hrun
        refine Prog.wp_imp (ih g₁ q₁ _) ?_ ?_
        · rintro g' q' fs' ⟨⟨hthrough, -⟩, hkept⟩
          have hgrown' := hgrown.trans_kept hkept
          exact ⟨⟨hcons.trans hthrough, .inr ⟨hmem, hgrown'⟩⟩, hgrown'.kept⟩
        · rintro err q' fs' ⟨hthrough, -, hgrown', herr⟩
          exact ⟨fun h => hthrough (hcons.mp h), hmem, hgrown.trans_kept hgrown'.kept, herr⟩
      · rintro err q₁ fs₁ ⟨⟨hblocked, hgrown, herr⟩, -⟩
        exact ⟨fun h => h.1 hblocked, hmem, hgrown, herr⟩

/-! ### The import -/

theorem Untouched.of_same {e' : Engine} (hmem : e'.memtable = e.memtable)
    (hreaders : e'.segmentStore.readers = e.segmentStore.readers)
    (hmanifest : e'.segmentStore.manifest = e.segmentStore.manifest) : e.Untouched X fs e' fs where
  get ns key := by
    simp only [Engine.get, SegmentStore.get, hmem, hreaders]
  range ns start «end» := by
    simp only [Engine.range, Engine.rangeCore, SegmentStore.rangeScanBudgeted, hmem, hreaders]
  records k := by
    simp only [localEntry, SegmentStore.get, hmem, hreaders]
  manifest := hmanifest
  files := rfl

theorem stage_effects (hash : Bytes) (dat : Dat) (fs : Fs) :
    applyEffect X (.stageRename hash) (applyEffect X (.stageWrite hash dat) fs) = fs.stage hash dat := by
  simp only [applyEffect, Fs.stage, Fs.setStaged, setAt_setAt]
  rw [setAt, if_pos rfl]

/-- The directory in which the reader of a segment is opened. -/
def sidecarsWritten (X : Externals) (hash : Bytes) (id : SegmentId) (g : ImportProgress) (m : SegmentMeta)
    (fs : Fs) : Fs :=
  applyEffect X (.metaWrite id m) (applyEffect X (.xfWrite id (X.buildFilter g.segmentKeys))
    (applyEffect X (.idxWrite id [([], 0)]) (applyEffect X (.stageAdopt hash id) fs)))

theorem sidecarsWritten_stage (hash : Bytes) (dat : Dat) (g : ImportProgress) (m : SegmentMeta)
    (id : SegmentId) (fs : Fs) :
    sidecarsWritten X hash id g m (fs.stage hash dat) = fs.adopt hash id (importedFiles X dat g m) := by
  simp only [sidecarsWritten, applyEffect, Fs.stage, Fs.setStaged, Fs.setSegment, Fs.adopt, setAt_setAt]
  simp [setAt, importedFiles]

/-- A reader is opened unless its filter is too large. -/
theorem openReader_sidecarsWritten (hash : Bytes) (id : SegmentId) (g : ImportProgress) (m : SegmentMeta)
    (fs : Fs) :
    openReader id ((sidecarsWritten X hash id g m fs).segs id) =
      if (X.buildFilter g.segmentKeys).fingerprints.length > maxFingerprints then
        .error (.segmentCorrupt "xf: fingerprints_len too large")
      else .ok ⟨id, m, X.buildFilter g.segmentKeys, [([], 0)]⟩ := by
  have hfiles : (sidecarsWritten X hash id g m fs).segs id =
      { dat := (fs.staged hash).dat, idx := .whole [([], 0)], xf := .whole (X.buildFilter g.segmentKeys),
        segMeta := .whole m } := by
    simp [sidecarsWritten, applyEffect, Fs.setStaged, Fs.setSegment, setAt]
  have hidx : ¬ [(([] : Bytes), 0)].length > maxIndexCount := by decide
  rw [hfiles, openReader]
  by_cases hfilter : (X.buildFilter g.segmentKeys).fingerprints.length > maxFingerprints
  · simp only [File.read, readXfFile, bind, Except.bind, if_pos hfilter]
  · simp only [File.read, readXfFile, readIdxFile, bind, Except.bind, pure, Except.pure, if_neg hidx,
      if_neg hfilter]

/-- An import that cannot register its segment leaves nothing behind if nothing was written and the files
are there already. -/
theorem untouched_unregistered_iff {dat : Dat} {g : ImportProgress} {q : Process Engine} {fs₁ : Fs}
    {e' : Engine} (hbrought : Brought X hash size l {} ⟨e, clock⟩ (fs.stage hash dat) g q fs₁)
    (hreg : ¬ Registrable X hash size g q) (hmem : e'.memtable = q.state.memtable)
    (hreaders : e'.segmentStore.readers = q.state.segmentStore.readers)
    (hmanifest : e'.segmentStore.manifest = q.state.segmentStore.manifest) :
    e.Untouched X fs e' (sidecarsWritten X hash q.state.segmentStore.nextSegmentId g (nextMeta q hash size g) fs₁) ↔
      GoesThrough X hash size l {} ⟨e, clock⟩ (fs.stage hash dat) ∨ Redone X dat size hash l ⟨e, clock⟩ fs := by
  rw [or_iff_right fun h => hreg (hbrought.through.mp h)]
  rcases hbrought.written with ⟨hnone, rfl, rfl, rfl⟩ | ⟨⟨p, hp, hne⟩, hgrown⟩
  · rw [sidecarsWritten_stage]
    constructor
    · intro h
      obtain ⟨hstaged, hfiles⟩ := Fs.adopt_eq_self.mp h.files
      exact ⟨hnone, hstaged, hfiles⟩
    · rintro ⟨-, hstaged, hfiles⟩
      rw [Fs.adopt_eq_self.mpr ⟨hstaged, hfiles⟩]
      exact .of_same hmem hreaders hmanifest
  · refine iff_of_false (fun h => hgrown.wals_ne ?_) fun h => hne (h.skipped p hp)
    have hwals := congrArg Fs.wals h.files
    exact hwals

theorem leavesNothing_iff_of_staged {dat : Dat}
    (hunknown : ¬ (e.segmentStore.manifest.segments.any fun m => m.segmentHash = hash) = true)
    (hmatch : ¬ X.datHash dat ≠ hash) :
    LeavesNothing X e fs clock dat size hash ↔
      match parseDatEntries dat with
      | .error _ => fs.staged hash = { dat := .whole dat }
      | .ok l => GoesThrough X hash size l {} ⟨e, clock⟩ (fs.stage hash dat) ∨
          Redone X dat size hash l ⟨e, clock⟩ fs := by
  unfold LeavesNothing
  rw [or_iff_right, or_iff_right hmatch]
  rintro ⟨m, hm, heq⟩
  exact hunknown (List.any_eq_true.mpr ⟨m, hm, decide_eq_true heq⟩)

theorem wp_importSegment_refused (dat : Dat) (size : ℕ) (hash : Bytes) :
    Prog.wp (importSegment (X := X) dat size hash)
      ⟨fun result q fs' => (Refused (.ok result) → e.Untouched X fs q.state fs') ↔
          LeavesNothing X e fs clock dat size hash,
        fun err q fs' => (e.Untouched X fs q.state fs' ↔ LeavesNothing X e fs clock dat size hash) ∧
          ∀ msg, err ≠ .panicked msg,
        fun _ _ => True, fun _ _ => True⟩ ⟨e, clock⟩ fs := by
  simp only [importSegment, Prog.wp_bind, Exec.wp_get, Prog.wp_ite, Prog.wp_pure, Exec.wp_effect]
  split
  case isTrue hknown =>
    obtain ⟨m, hm, heq⟩ := List.any_eq_true.mp hknown
    exact iff_of_true (fun _ => .of_same rfl rfl rfl) (.inl ⟨m, hm, of_decide_eq_true heq⟩)
  case isFalse hunknown =>
  split
  case isTrue hmismatch => exact iff_of_true (fun _ => .of_same rfl rfl rfl) (.inr (.inl hmismatch))
  case isFalse hmatch =>
  -- the file is staged, and what is left behind depends on what follows
  refine fun _ => ⟨trivial, fun _ => ⟨trivial, ?_⟩⟩
  rw [stage_effects]
  have hleaves := @leavesNothing_iff_of_staged X fs e clock hash size dat hunknown hmatch
  cases hparse : parseDatEntries dat with
  | error err =>
    rw [hparse] at hleaves
    have hrejected : (e.Untouched X fs e (fs.stage hash dat) ↔ LeavesNothing X e fs clock dat size hash) := by
      rw [hleaves, ← Fs.stage_eq_self]
      refine ⟨fun h => h.files, fun h => ?_⟩
      rw [h]
      exact .of_same rfl rfl rfl
    have hrefused : ∀ reason, Refused (.ok (.rejected reason)) := fun reason written skipped h => by cases h
    cases err <;>
      exact (Prog.wp_pure _).mpr ⟨fun h => hrejected.mp (h (hrefused _)), fun h _ => hrejected.mpr h⟩
  | ok l =>
    rw [hparse] at hleaves
    simp only
    rw [Prog.wp_bind]
    refine Prog.wp_imp (wp_importEntries_brought hash size l {} ⟨e, clock⟩ (fs.stage hash dat)) ?_ ?_
    · rintro g ⟨e₁, clock₁⟩ fs₁ ⟨hbrought, -⟩
      simp only [onStore, SegmentStore.allocSegmentId, onWal, WalWriter.fsync, writeSidecars,
        SegmentStore.addImportedSegment, SegmentStore.onManifest, Manifest.addSegment,
        Manifest.writeFramedEntry, Prog.wp_bind, Exec.wp_zoom, Exec.wp_get, Exec.wp_modify,
        Prog.wp_pure, Exec.wp_effect, Exec.wp_now, Exec.wp_fs, Prog.wp_lift]
      refine fun _ => ⟨trivial, fun _ => ⟨trivial, fun _ => ⟨trivial, fun _ => ⟨trivial, fun _ =>
        ⟨trivial, fun _ => ⟨trivial, fun _ => ⟨trivial, fun _ => ⟨trivial, ?_⟩⟩⟩⟩⟩⟩⟩⟩
      have hopen := openReader_sidecarsWritten (X := X) hash e₁.segmentStore.nextSegmentId g
        (nextMeta ⟨e₁, clock₁⟩ hash size g) fs₁
      change Prog.Post.result _ (openReader _ ((sidecarsWritten X hash e₁.segmentStore.nextSegmentId g
        (nextMeta ⟨e₁, clock₁⟩ hash size g) fs₁).segs _)) _ _
      rw [hopen]
      by_cases hfilter : (X.buildFilter g.segmentKeys).fingerprints.length > maxFingerprints
      · rw [if_pos hfilter]
        refine ⟨?_, fun msg h => by cases h⟩
        rw [hleaves]
        exact untouched_unregistered_iff hbrought (fun h => absurd h.1 (not_le.mpr hfilter)) rfl rfl rfl
      · rw [if_neg hfilter]
        simp only [Prog.result_ok, Prog.wp_ite, Prog.wp_throw, Prog.wp_bind, Exec.wp_get,
          Exec.wp_effect, Exec.wp_modify]
        split
        case isTrue hframe =>
          refine ⟨?_, fun msg h => by cases h⟩
          rw [hleaves]
          exact untouched_unregistered_iff hbrought (fun h => absurd h.2 (not_le.mpr hframe)) rfl rfl rfl
        case isFalse hframe =>
          -- the import has been applied
          refine fun _ => ⟨trivial, fun _ => ⟨trivial, ?_⟩⟩
          refine iff_of_true (fun h => absurd rfl (h _ _)) (hleaves.mpr (.inl ?_))
          exact hbrought.through.mpr ⟨not_lt.mp hfilter, not_lt.mp hframe⟩
    · rintro err q fs' ⟨hthrough, ⟨p, hp, hne⟩, hgrown, rfl⟩
      refine ⟨iff_of_false (fun h => hgrown.wals_ne ?_) fun h => ?_, fun msg h => by cases h⟩
      · have hwals := congrArg Fs.wals h.files
        exact hwals
      · rcases hleaves.mp h with h | h
        · exact hthrough h
        · exact hne (h.skipped p hp)

end Engine

/-! ### A rejected file -/

namespace World

/-- A file with one block that does not decode. -/
def corruptDat : Dat := [.undecodable]

/-- What a fresh engine leaves of the import of a corrupt file: the result, and what is staged before and
after. -/
theorem import_corruptDat :
    ((Run.from (step plainExternals) {} freshRun).engine.map fun e =>
      let w := Run.from (step plainExternals) {} freshRun
      let hash := plainExternals.datHash corruptDat
      let out := (Engine.importSegment (X := plainExternals) corruptDat 20 hash).run ⟨e, fun _ => 0⟩ w.fs
      (out.1, w.fs.staged hash, ((disk plainExternals).run out.2.2 w.fs).staged hash)) =
    some (.ok (.rejected "segment corrupt: parse_dat_entries zstd decode"), {}, { dat := .whole corruptDat }) := by
  decide +kernel

end World
