import Edgestore.FailedWrites

/-!
# What an import does

An import compares every record of the segment with the local entry of its key, and writes those with
the greater timestamp anew, under a fresh LSN and without a TTL. Then it registers the segment itself.

## Main definitions

* `Engine.Wins`: an incoming record has a greater timestamp than the local entry of its key
* `Importable`: a record that an import can write
* `freshCopy`: the entry that it writes
* `Imported`: what the memtable holds after the records of a segment have been applied

## Main results

* `Engine.wp_importEntry`: what an import does with one record
* `Engine.wp_importSegment`: what it leaves
-/

variable {X : Externals} {fs : Fs} {e : Engine} {clock : ℕ → ℕ}

/-- A record that an import can write: its key has a namespace, and a put has a value. -/
def Importable (p : Bytes × MemEntry) : Prop :=
  (decodeKey p.1).isOk = true ∧ (p.2.op = .put → p.2.value.isSome = true)

instance (p : Bytes × MemEntry) : Decidable (Importable p) := inferInstanceAs (Decidable (_ ∧ _))

/-- The entry that an import writes for a record: its timestamp, under a fresh LSN, without a TTL. -/
def freshCopy (lsn : Lsn) (p : Bytes × MemEntry) : MemEntry where
  key := p.1
  value := if p.2.op = .put then p.2.value else none
  op := p.2.op
  lsn := lsn
  timestamp := p.2.timestamp
  ttl := 0

namespace Engine

/-- The incoming record has a greater timestamp than the local entry of its key. -/
def Wins (X : Externals) (fs : Fs) (e : Engine) (p : Bytes × MemEntry) : Prop :=
  ((e.localEntry X fs p.1).all fun l => p.2.timestamp > l.timestamp) = true

instance (X : Externals) (fs : Fs) (e : Engine) (p : Bytes × MemEntry) :
    Decidable (e.Wins X fs p) := inferInstanceAs (Decidable (_ = _))

/-- The local entry of a key depends on the memtable and the files of segments. -/
theorem localEntry_congr {e' : Engine} {fs' : Fs} {k : Bytes}
    (hmem : e'.memtable.get k = e.memtable.get k) (hstore : e'.segmentStore = e.segmentStore)
    (hsegs : fs'.segs = fs.segs) : e'.localEntry X fs' k = e.localEntry X fs k := by
  rw [localEntry, localEntry, hmem, hstore, SegmentStore.get, SegmentStore.get,
    SegmentStore.firstHit_congr hsegs]

/-- **A write of a record** leaves an entry of it, whatever else it does to the WAL. -/
theorem wp_writeRecord_copy {r : WalRecord} {k : Bytes} (hk : encodeKey r.nsBytes r.keyBytes = .ok k) :
    Prog.wp (writeRecord (X := X) r)
      ⟨fun _ q fs' => q.state = { e with
          wal := q.state.wal
          memtable := e.memtable.insert k (r.toEntry k) } ∧ SameStore fs fs',
        fun _ _ _ => True, fun _ _ => True, fun _ _ => True⟩ ⟨e, clock⟩ fs := by
  simp only [writeRecord, onWal, Prog.wp_bind, Exec.wp_zoom, WalWriter.append, Exec.wp_get,
    Exec.wp_effect, Exec.wp_modify]
  refine fun _ => ⟨trivial, ?_⟩
  refine Prog.wp_imp wp_rotateWalIfNeeded_any ?_ fun _ _ _ _ => trivial
  rintro _ ⟨e₁, clock₁⟩ fs₁ ⟨he₁, -, hsame, -⟩
  simp only at he₁
  simp only [hk, Prog.wp_lift, Prog.result_ok, Prog.wp_pure]
  constructor
  · rw [he₁]
  · exact ⟨hsame.manifest, hsame.segs, hsame.staged⟩

/-- What an import does with one record: it writes a fresh copy if the record wins. -/
structure ImportsEntry (X : Externals) (e : Engine) (fs : Fs) (p : Bytes × MemEntry) (e' : Engine)
    (fs' : Fs) : Prop where
  store : e'.segmentStore = e.segmentStore
  same : SameStore fs fs'
  won : e.Wins X fs p → Importable p →
    e'.memtable = e.memtable.insert p.1 (freshCopy (e.lsnCounter + 1) p) ∧
      e'.lsnCounter = e.lsnCounter + 1
  lost : ¬ (e.Wins X fs p ∧ Importable p) →
    e'.memtable = e.memtable ∧ e'.lsnCounter = e.lsnCounter

theorem ImportsEntry.lost_self {p : Bytes × MemEntry} (h : ¬ (e.Wins X fs p ∧ Importable p)) :
    ImportsEntry X e fs p e fs :=
  ⟨rfl, ⟨rfl, rfl, rfl⟩, fun hw hi => absurd ⟨hw, hi⟩ h, fun _ => ⟨rfl, rfl⟩⟩

/-- A write of a record under the next LSN that leaves a fresh copy. -/
theorem wp_writeFresh {p : Bytes × MemEntry} {r : WalRecord} (hw : e.Wins X fs p)
    (hi : Importable p) (hk : encodeKey r.nsBytes r.keyBytes = .ok p.1)
    (hr : r.toEntry p.1 = freshCopy (e.lsnCounter + 1) p) :
    Prog.wp (writeRecord (X := X) r)
      ⟨fun _ q fs' => ImportsEntry X e fs p q.state fs', fun _ _ _ => True, fun _ _ => True,
        fun _ _ => True⟩ ⟨{ e with lsnCounter := e.lsnCounter + 1 }, clock⟩ fs := by
  refine Prog.wp_imp (wp_writeRecord_copy hk) ?_ fun _ _ _ _ => trivial
  rintro _ ⟨e', clock'⟩ fs' ⟨he', hsame⟩
  simp only at he'
  refine ⟨by rw [he'], hsame, fun _ _ => ⟨?_, by rw [he']⟩, fun h => absurd ⟨hw, hi⟩ h⟩
  rw [he', hr]

/-- **Importing one record**. -/
theorem wp_importEntry (g : ImportProgress) (p : Bytes × MemEntry) :
    Prog.wp (importEntry (X := X) g p)
      ⟨fun _ q fs' => ImportsEntry X e fs p q.state fs', fun _ _ _ => True, fun _ _ => True,
        fun _ _ => True⟩ ⟨e, clock⟩ fs := by
  simp only [importEntry, Prog.wp_bind, Exec.wp_get, Exec.wp_fs, Prog.wp_ite, Prog.wp_pure]
  split
  case isFalse hloses => exact .lost_self fun h => hloses h.1
  case isTrue hwins =>
    have hw : e.Wins X fs p := hwins
    split
    -- a put
    case h_1 ns key val hdec hop hval =>
      have hi : Importable p := ⟨by rw [hdec]; rfl, fun _ => by rw [hval]; rfl⟩
      simp only [putWithTimestamp, nextLsn, Prog.wp_bind, Prog.wp_ite, Prog.wp_throw, Exec.wp_modify,
        Exec.wp_get, Prog.wp_pure]
      split
      · trivial
      · refine wp_writeFresh hw hi (encodeKey_of_decodeKey hdec) ?_
        simp [WalRecord.toEntry, putRecord, freshCopy, hop, hval]
    -- a put without a value
    case h_2 hop hval =>
      refine (Prog.wp_pure _).mpr (.lost_self fun h => ?_)
      have hsome := h.2.2 hop
      rw [hval] at hsome
      cases hsome
    -- a tombstone
    case h_3 ns key hdec hop =>
      have hi : Importable p := ⟨by rw [hdec]; rfl, fun h => by rw [hop] at h; cases h⟩
      simp only [deleteWithTimestamp, nextLsn, Prog.wp_bind, Exec.wp_modify, Exec.wp_get,
        Prog.wp_pure]
      refine wp_writeFresh hw hi (encodeKey_of_decodeKey hdec) ?_
      simp [WalRecord.toEntry, deleteRecord, freshCopy, hop]
    -- a key without a namespace
    case h_4 hdec =>
      refine (Prog.wp_pure _).mpr (.lost_self fun h => ?_)
      have hok := h.2.1
      rw [hdec] at hok
      cases hok

/-! ### All records -/

/-- What the memtable holds after the records `done` have been applied, under LSNs up to `n`: fresh
copies of those that won, and else what it held before. -/
structure Imported (X : Externals) (fs : Fs) (e : Engine) (done : List (Bytes × MemEntry))
    (m : MemTable) (n : Lsn) : Prop where
  le : e.lsnCounter ≤ n
  won : ∀ p ∈ done, e.Wins X fs p → Importable p →
    ∃ lsn, e.lsnCounter < lsn ∧ lsn ≤ n ∧ m.get p.1 = some (freshCopy lsn p)
  lost : ∀ k, (∀ p ∈ done, p.1 = k → ¬ (e.Wins X fs p ∧ Importable p)) →
    m.get k = e.memtable.get k

theorem Imported.nil : Imported X fs e [] e.memtable e.lsnCounter :=
  ⟨le_rfl, by simp, fun _ _ => rfl⟩

/-- A further record, of a key that has not been met before. -/
theorem Imported.concat {done : List (Bytes × MemEntry)} {p : Bytes × MemEntry} {e₁ e' : Engine}
    {fs₁ fs' : Fs} (h : Imported X fs e done e₁.memtable e₁.lsnCounter)
    (hstore : e₁.segmentStore = e.segmentStore) (hsegs : fs₁.segs = fs.segs)
    (hnew : ∀ q ∈ done, q.1 ≠ p.1) (hp : ImportsEntry X e₁ fs₁ p e' fs') :
    Imported X fs e (done ++ [p]) e'.memtable e'.lsnCounter := by
  -- the entries applied so far do not change the local entry of this key
  have hget : e₁.memtable.get p.1 = e.memtable.get p.1 :=
    h.lost p.1 fun q hq heq => absurd heq (hnew q hq)
  have hwins : e₁.Wins X fs₁ p ↔ e.Wins X fs p := by
    rw [Wins, Wins, localEntry_congr hget hstore hsegs]
  by_cases happly : e.Wins X fs p ∧ Importable p
  · obtain ⟨hmem, hlsn⟩ := hp.won (hwins.mpr happly.1) happly.2
    refine ⟨by rw [hlsn]; exact Nat.le_succ_of_le h.le, ?_, ?_⟩
    · intro q hq hw hi
      rw [hmem, hlsn, SortedMap.get_insert]
      rcases List.mem_append.mp hq with hq | hq
      · obtain ⟨lsn, hlt, hle, hcopy⟩ := h.won q hq hw hi
        rw [if_neg (hnew q hq).symm]
        exact ⟨lsn, hlt, Nat.le_succ_of_le hle, hcopy⟩
      · rw [List.mem_singleton.mp hq, if_pos rfl]
        exact ⟨_, Nat.lt_succ_of_le h.le, le_rfl, rfl⟩
    · intro k hk
      rw [hmem, SortedMap.get_insert, if_neg fun heq => hk p (by simp) heq happly]
      exact h.lost k fun q hq => hk q (List.mem_append_left _ hq)
  · obtain ⟨hmem, hlsn⟩ := hp.lost (by rwa [hwins])
    rw [hmem, hlsn]
    refine ⟨h.le, ?_, fun k hk => h.lost k fun q hq => hk q (List.mem_append_left _ hq)⟩
    intro q hq hw hi
    rcases List.mem_append.mp hq with hq | hq
    · exact h.won q hq hw hi
    · rw [List.mem_singleton.mp hq] at hw hi
      exact absurd ⟨hw, hi⟩ happly

/-- **Importing all records** of a segment with one record for a key. -/
theorem wp_importEntries {l : List (Bytes × MemEntry)} (hl : KeySorted l) {fs₀ : Fs}
    (hsegs : fs₀.segs = fs.segs) :
    Prog.wp (l.foldlM (importEntry (X := X)) {})
      ⟨fun _ q fs' => Imported X fs e l q.state.memtable q.state.lsnCounter ∧
          q.state.segmentStore = e.segmentStore ∧ SameStore fs₀ fs',
        fun _ _ _ => True, fun _ _ => True, fun _ _ => True⟩ ⟨e, clock⟩ fs₀ := by
  -- what is done and what is to come make up the segment
  refine Prog.wp_foldlM (D := disk X) (fun rest _ (q : Process Engine) fs' => ∃ done, done ++ rest = l ∧
    Imported X fs e done q.state.memtable q.state.lsnCounter ∧
      q.state.segmentStore = e.segmentStore ∧ SameStore fs₀ fs') ?_ ?_ _ _ ?_
  · rintro p rest g ⟨e₁, clock₁⟩ fs₁ ⟨done, hsplit, hdone, hstore, hsame⟩
    refine Prog.wp_imp (wp_importEntry g p) ?_ fun _ _ _ _ => trivial
    rintro _ q fs' hp
    refine ⟨done ++ [p], by rw [← hsplit, List.append_assoc]; rfl,
      hdone.concat hstore (hsame.segs.trans hsegs) ?_ hp, hp.store.trans hstore,
      hsame.trans hp.same⟩
    intro r hr heq
    rw [← hsplit] at hl
    exact absurd ((List.pairwise_append.mp hl).2.2 r hr p List.mem_cons_self) (by simp [heq])
  · rintro _ q fs' ⟨done, hsplit, hdone⟩
    rw [List.append_nil] at hsplit
    rw [← hsplit]
    exact hdone
  · exact ⟨[], rfl, .nil, rfl, ⟨rfl, rfl, rfl⟩⟩

/-- **Importing a segment** with one record for a key: the records that won are written anew, and the
segment is registered with a death time of zero. -/
theorem wp_importSegment {dat : Dat} {l : List (Bytes × MemEntry)} (hparse : parseDatEntries dat = .ok l)
    (hl : KeySorted l) (size : ℕ) (hash : Bytes) :
    Prog.wp (importSegment (X := X) dat size hash)
      ⟨fun r q _ => (∃ written skipped, r = .applied written skipped) →
          Imported X fs e l q.state.memtable q.state.lsnCounter ∧
            ∃ m : SegmentMeta, m.deathTime = 0 ∧ q.state.segmentStore.manifest.segments =
              e.segmentStore.manifest.segments ++ [m],
        fun _ _ _ => True, fun _ _ => True, fun _ _ => True⟩ ⟨e, clock⟩ fs := by
  simp only [importSegment, Prog.wp_bind, Exec.wp_get, Prog.wp_ite, Prog.wp_pure, Exec.wp_effect,
    hparse]
  split
  · rintro ⟨_, _, h⟩
    cases h
  split
  · rintro ⟨_, _, h⟩
    cases h
  refine fun _ => ⟨trivial, fun _ => ⟨trivial, ?_⟩⟩
  refine Prog.wp_imp (@wp_importEntries X fs e clock l hl _ rfl) ?_ fun _ _ _ _ => trivial
  rintro g ⟨e₁, clock₁⟩ fs₁ ⟨himported, hstore, -⟩
  simp only at himported hstore
  simp only [onStore, SegmentStore.allocSegmentId, onWal, WalWriter.fsync, writeSidecars,
    SegmentStore.addImportedSegment, SegmentStore.onManifest, Manifest.addSegment,
    Manifest.writeFramedEntry, Prog.wp_bind, Exec.wp_zoom, Exec.wp_get, Exec.wp_modify,
    Prog.wp_pure, Exec.wp_effect, Exec.wp_now, Exec.wp_fs, Prog.wp_lift]
  -- the file is adopted, the WAL synced, and three sidecar files are written and synced
  refine fun _ => ⟨trivial, fun _ => ⟨trivial, fun _ => ⟨trivial, fun _ => ⟨trivial, fun _ =>
    ⟨trivial, fun _ => ⟨trivial, fun _ => ⟨trivial, fun _ => ⟨trivial, ?_⟩⟩⟩⟩⟩⟩⟩⟩
  generalize openReader e₁.segmentStore.nextSegmentId _ = reader
  cases reader with
  | error => trivial
  | ok reader =>
    simp only [Prog.result_ok, Prog.wp_ite, Prog.wp_throw, Prog.wp_bind, Exec.wp_get,
      Exec.wp_effect, Exec.wp_modify]
    split
    · trivial
    · refine fun _ => ⟨trivial, fun _ => ⟨trivial, fun _ => ⟨himported, ?_⟩⟩⟩
      exact ⟨_, rfl, by rw [hstore]⟩

end Engine
