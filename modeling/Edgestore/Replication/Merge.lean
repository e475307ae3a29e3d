import Edgestore.Lib.LastWriter
import Edgestore.DurableSessions
import Edgestore.Engine.ImportSpec

/-!
# What an import merges

An import offers each record of a segment to the memtable, and the record is taken if its timestamp is later. What is
taken is logged under a fresh LSN, so that the log replays to the same memtable wherever it ends.

This needs that the memtable has all keys of the segments: an import compares a record with an entry of a segment only
where the memtable has none.

## Main definitions

* `Version`, `MemEntry.version`: what is merged, and what of an entry it is
* `Winnows`: records that are logged for what is offered
* `Engine.Covered`: the memtable has all keys of the segments

## Main results

* `Engine.Ahead.wp_importEntries_merges`, `Engine.Ahead.wp_importSegment_merges`: what an import logs
-/

open LastWriter

/-- What an import leaves of a record: all but its LSN and its TTL. -/
structure Version where
  op : Operation
  value : Option Bytes
  timestamp : ℤ
  deriving DecidableEq

/-- The version of an entry. -/
def MemEntry.version (v : MemEntry) : Version := ⟨v.op, if v.op = .put then v.value else none, v.timestamp⟩

/-- The value that is read, if there is one. -/
def Version.live (v : Version) : Option Bytes := if v.op = .delete then none else v.value

/-- An entry as it is offered. -/
def offered (p : Bytes × MemEntry) : Bytes × Version := (p.1, p.2.version)

/-- The versions in a memtable. -/
def MemTable.versions (m : MemTable) (k : Bytes) : Option Version := (m.get k).map MemEntry.version

theorem MemEntry.live_version (v : MemEntry) : v.version.live = v.live := by
  rw [Version.live, MemEntry.live, version]
  cases v.op with
  | put => rfl
  | delete => rfl

theorem versions_insert (m : MemTable) (k : Bytes) (v : MemEntry) :
    MemTable.versions (m.insert k v) = Function.update (MemTable.versions m) k (some v.version) := by
  funext j
  rw [MemTable.versions, SortedMap.get_insert_eq_update, Function.update_apply, Function.update_apply]
  split
  · rfl
  · rfl

/-! ### Records that are logged -/

/-- **Records that are logged for what is offered**: at any end of them, the memtable is what it is if they are offered
themselves; in the end, it is what it is if all is offered. -/
structure Winnows (m : MemTable) (rs : List WalRecord) (ps : List (Bytes × MemEntry)) : Prop where
  upTo : ∀ rs', rs' <+: rs → MemTable.versions (replayed m rs') =
    offerAll Version.timestamp (MemTable.versions m) (rs'.map fun r => offered r.entry)
  all : MemTable.versions (replayed m rs) = offerAll Version.timestamp (MemTable.versions m) (ps.map offered)
  mem : ∀ r ∈ rs, offered r.entry ∈ ps.map offered

namespace Winnows

variable {m : MemTable} {rs rs' : List WalRecord} {ps qs : List (Bytes × MemEntry)} {p : Bytes × MemEntry} {r : WalRecord}

theorem nil (m : MemTable) : Winnows m [] [] where
  upTo := fun rs' h => by
    rw [List.prefix_nil.mp h]
    rfl
  all := rfl
  mem := fun r hr => absurd hr List.not_mem_nil

/-- What is not taken is not logged. -/
theorem lost (h : Winnows m rs ps) (hlost : ¬ Beats Version.timestamp (MemTable.versions (replayed m rs)) (offered p)) :
    Winnows m rs (ps ++ [p]) where
  upTo := h.upTo
  all := by
    rw [List.map_append, List.map_singleton, offerAll_concat, ← h.all, offer_of_not_beats hlost]
  mem := fun r hr => by
    rw [List.map_append]
    exact List.mem_append_left _ (h.mem r hr)

/-- What is taken is logged. -/
theorem won (h : Winnows m rs ps) (hwon : Beats Version.timestamp (MemTable.versions (replayed m rs)) (offered p))
    (hr : offered r.entry = offered p) : Winnows m (rs ++ [r]) (ps ++ [p]) := by
  have hinsert : MemTable.versions (replayed m (rs ++ [r])) =
      Function.update (MemTable.versions (replayed m rs)) (offered p).1 (some (offered p).2) := by
    rw [← hr, replayed_append]
    exact versions_insert ..
  have hoffer := hinsert.trans (offer_of_beats hwon).symm
  refine ⟨fun rs' hprefix => ?_, ?_, fun r' hr' => ?_⟩
  · rcases List.prefix_concat_iff.mp hprefix with rfl | hprefix
    · rw [hoffer, List.map_append, List.map_singleton, offerAll_concat, hr, ← h.upTo rs (List.prefix_refl rs)]
    · exact h.upTo rs' hprefix
  · rw [hoffer, List.map_append, List.map_singleton, offerAll_concat, ← h.all]
  · rw [List.map_append]
    rcases List.mem_append.mp hr' with hr' | hr'
    · exact List.mem_append_left _ (h.mem r' hr')
    · rw [List.mem_singleton.mp hr', hr]
      exact List.mem_append_right _ (List.mem_singleton_self _)

/-- The memtable keeps its keys. -/
theorem isSome (h : Winnows m rs ps) {k : Bytes} (hk : (m.get k).isSome = true) :
    ((replayed m rs).get k).isSome = true := by
  obtain ⟨v, hv⟩ := Option.isSome_iff_exists.mp hk
  have hversion : MemTable.versions m k = some v.version := by
    rw [MemTable.versions, hv]
    rfl
  obtain ⟨w, hw, -⟩ := offerAll_of_some Version.timestamp (ps.map offered) hversion
  rw [← h.all, MemTable.versions, Option.map_eq_some_iff] at hw
  obtain ⟨u, hu, -⟩ := hw
  exact Option.isSome_iff_exists.mpr ⟨u, hu⟩

end Winnows

namespace Engine

variable {X : Externals} {e : Engine} {fs : Fs} {clock : ℕ → ℕ} {p : Bytes × MemEntry}

/-- **The memtable has all keys of the segments.** -/
def Covered (X : Externals) (e : Engine) (fs : Fs) : Prop := ∀ k, e.localEntry X fs k = e.memtable.get k

/-- Records beat what the memtable has, if it has all keys of the segments. -/
theorem Covered.wins_iff (h : Covered X e fs) :
    e.Wins X fs p ↔ Beats Version.timestamp (MemTable.versions e.memtable) (offered p) := by
  show ((e.localEntry X fs p.1).all fun l => p.2.timestamp > l.timestamp) = true ↔ _
  rw [h p.1]
  show _ ↔ ∀ u ∈ (e.memtable.get p.1).map MemEntry.version, u.timestamp < p.2.timestamp
  cases e.memtable.get p.1 with
  | none => exact ⟨fun _ u hu => (by cases hu), fun _ => rfl⟩
  | some v => exact ⟨fun hlt u hu => Option.some_inj.mp hu ▸ of_decide_eq_true hlt, fun h => decide_eq_true (h _ rfl)⟩

/-- The memtable has all keys as long as it keeps them, and the segments stay as they are. -/
theorem Covered.mono {e' : Engine} {fs' : Fs} (h : Covered X e fs) (hstore : e'.segmentStore = e.segmentStore)
    (hsegs : fs'.segs = fs.segs) (hkeeps : ∀ k, (e.memtable.get k).isSome = true → (e'.memtable.get k).isSome = true) :
    Covered X e' fs' := by
  intro k
  cases hk : e'.memtable.get k with
  | some v =>
    rw [localEntry, hk]
    rfl
  | none =>
    have hnone : e.memtable.get k = none := by
      refine Option.not_isSome_iff_eq_none.mp fun hsome => ?_
      have habs := hkeeps k hsome
      rw [hk] at habs
      cases habs
    rw [localEntry_congr (hk.trans hnone.symm) hstore hsegs, h k, hnone]

/-- Records have been logged and applied for what is offered. -/
structure Merges (X : Externals) (e : Engine) (fs : Fs) (rs : List WalRecord) (ps : List (Bytes × MemEntry)) (e' : Engine)
    (fs' : Fs) : Prop where
  sequence : walSequence X fs' = walSequence X fs ++ rs
  memtable : e'.memtable = replayed e.memtable rs
  winnows : Winnows e.memtable rs ps

/-- **One record** is logged if it is taken. -/
theorem Ahead.wp_importEntry_merges (h : Ahead X e fs) (hcovered : Covered X e fs) (hi : Importable p)
    (g : ImportProgress) :
    Prog.wp (importEntry (X := X) g p)
      ⟨fun _ q fs' => Ahead X q.state fs' ∧ ∃ rs, walSequence X fs' = walSequence X fs ++ rs ∧
          q.state.memtable = replayed e.memtable rs ∧
          ((rs = [] ∧ ¬ Beats Version.timestamp (MemTable.versions e.memtable) (offered p)) ∨
            Beats Version.timestamp (MemTable.versions e.memtable) (offered p) ∧
              ∃ r, rs = [r] ∧ offered r.entry = offered p),
        fun _ _ _ => False, FitsWal X, fun _ _ => True⟩ ⟨e, clock⟩ fs := by
  -- a write of the next LSN that leaves the version
  have hwrite : ∀ {r : WalRecord}, r.lsn = e.lsnCounter + 1 → offered r.entry = offered p → e.Wins X fs p →
      Prog.wp (writeRecord (X := X) r)
        ⟨fun _ q fs' => Ahead X q.state fs' ∧ ∃ rs, walSequence X fs' = walSequence X fs ++ rs ∧
            q.state.memtable = replayed e.memtable rs ∧
            ((rs = [] ∧ ¬ Beats Version.timestamp (MemTable.versions e.memtable) (offered p)) ∨
              Beats Version.timestamp (MemTable.versions e.memtable) (offered p) ∧
                ∃ r, rs = [r] ∧ offered r.entry = offered p),
          fun _ _ _ => False, FitsWal X, fun _ _ => True⟩
        ⟨{ e with lsnCounter := e.lsnCounter + 1 }, clock⟩ fs := by
    intro r hlsn hr hwins
    refine Prog.wp_mono (h.inv.wp_writeRecord hlsn fun _ => h.le) ?_ (fun _ _ _ he => he.elim) (fun _ _ h => h)
      fun _ _ _ _ => trivial
    rintro _ q fs' ⟨-, hlogged, hname⟩
    refine ⟨hlogged.ahead h.le hname, [r], hlogged.sequence, ?_, .inr ⟨hcovered.wins_iff.mp hwins, r, rfl, hr⟩⟩
    rw [hlogged.engine]
  simp only [importEntry, Prog.wp_bind, Exec.wp_get, Exec.wp_fs, Prog.wp_ite, Prog.wp_pure]
  split
  case isFalse hlost =>
    exact ⟨h, [], (List.append_nil _).symm, rfl, .inl ⟨rfl, fun hbeats => hlost (hcovered.wins_iff.mpr hbeats)⟩⟩
  case isTrue hwins =>
    split
    -- a put
    case h_1 ns key val hdec hop hval =>
      have hk := encodeKey_of_decodeKey hdec
      simp only [putWithTimestamp, nextLsn, Prog.wp_bind, Prog.wp_ite, Prog.wp_throw, Exec.wp_modify, Exec.wp_get,
        Prog.wp_pure]
      rw [if_neg (not_lt.mpr (encodeKey_eq_ok.mp hk).1)]
      refine hwrite rfl ?_ hwins
      obtain ⟨hns, hkey⟩ := encodeKey_eq_ok.mp hk
      refine Prod.ext hkey.symm ?_
      show (⟨.put, if Operation.put = .put then some val else none, p.2.timestamp⟩ : Version) = p.2.version
      rw [MemEntry.version, hop, hval]
    -- a put without a value is not importable
    case h_2 hop hval =>
      have hsome := hi.2 hop
      rw [hval] at hsome
      cases hsome
    -- a tombstone
    case h_3 ns key hdec hop =>
      have hk := encodeKey_of_decodeKey hdec
      simp only [deleteWithTimestamp, nextLsn, Prog.wp_bind, Exec.wp_modify, Exec.wp_get, Prog.wp_pure]
      refine hwrite rfl ?_ hwins
      obtain ⟨hns, hkey⟩ := encodeKey_eq_ok.mp hk
      refine Prod.ext hkey.symm ?_
      show (⟨.delete, _, p.2.timestamp⟩ : Version) = p.2.version
      rw [MemEntry.version, hop]
      rfl
    -- nor is a key without a namespace
    case h_4 hdec =>
      have hok := hi.1
      rw [hdec] at hok
      cases hok

/-- Applying an entry leaves the segments. -/
theorem wp_importEntry_same (g : ImportProgress) (p : Bytes × MemEntry) :
    Prog.wp (importEntry (X := X) g p)
      ⟨fun _ q fs' => q.state.segmentStore = e.segmentStore ∧ fs'.segs = fs.segs, fun _ _ _ => True, fun _ _ => True,
        fun f _ => f.IsLog⟩ ⟨e, clock⟩ fs := by
  refine Prog.wp_imp (Prog.wp_inv (I := fun d : Fs => d.segs = fs.segs) ?_ ((importEntry_frame g p).wp fun _ _ => True) rfl)
    ?_ fun _ _ _ _ => trivial
  · rintro f d - hlog hd
    exact ⟨hlog, (hlog.isWal.apply (X := X) d).2.1.trans hd⟩
  · rintro _ q fs' ⟨hpart, hsegs⟩
    exact ⟨congrArg Prod.fst hpart, hsegs⟩

/-- **All records** are logged if they are taken. -/
theorem Ahead.wp_importEntries_merges (h : Ahead X e fs) (hcovered : Covered X e fs) {l : List (Bytes × MemEntry)}
    (hl : ∀ p ∈ l, Importable p) :
    Prog.wp (l.foldlM (importEntry (X := X)) {})
      ⟨fun _ q fs' => Ahead X q.state fs' ∧ ∃ rs, Merges X e fs rs l q.state fs', fun _ _ _ => False, FitsWal X,
        fun _ _ => True⟩ ⟨e, clock⟩ fs := by
  -- what has been offered and what is still to come make up the segment
  refine Prog.wp_foldlM (D := disk X) (fun rest _ (q : Process Engine) fs' => Ahead X q.state fs' ∧
    q.state.segmentStore = e.segmentStore ∧ fs'.segs = fs.segs ∧
      ∃ done rs, done ++ rest = l ∧ Merges X e fs rs done q.state fs') ?_ ?_ _ _ ?_
  · rintro p rest g ⟨e₁, clock₁⟩ fs₁ ⟨h₁, hstore, hsegs, done, rs, hsplit, hmerges⟩
    have hcovered₁ : Covered X e₁ fs₁ := hcovered.mono hstore hsegs fun k hk => by
      rw [hmerges.memtable]
      exact hmerges.winnows.isSome hk
    have hi : Importable p := hl p (hsplit ▸ List.mem_append_right _ List.mem_cons_self)
    refine Prog.wp_mono (Prog.wp_and (h₁.wp_importEntry_merges hcovered₁ hi g) (wp_importEntry_same g p)) ?_
      (fun _ _ _ he => he.1.elim) (fun _ _ h => ⟨h, trivial⟩) fun _ _ _ _ => trivial
    rintro _ q fs' ⟨⟨h', rs', hseq, hmem, htaken⟩, hstore', hsegs'⟩
    refine ⟨h', hstore'.trans hstore, hsegs'.trans hsegs, done ++ [p], rs ++ rs', by rw [← hsplit, List.append_assoc]; rfl,
      by rw [hseq, hmerges.sequence, List.append_assoc], by rw [hmem, hmerges.memtable, replayed_append], ?_⟩
    rw [hmerges.memtable] at htaken
    rcases htaken with ⟨rfl, hlost⟩ | ⟨hwon, r, rfl, hr⟩
    · rw [List.append_nil]
      exact hmerges.winnows.lost hlost
    · exact hmerges.winnows.won hwon hr
  · rintro _ q fs' ⟨h', -, -, done, rs, hsplit, hmerges⟩
    rw [List.append_nil] at hsplit
    exact ⟨h', rs, hsplit ▸ hmerges⟩
  · exact ⟨h, rfl, rfl, [], [], rfl, (List.append_nil _).symm, rfl, .nil _⟩

/-- **An import** logs the records that are taken, or leaves the log, the memtable and the manifest. -/
theorem Ahead.wp_importSegment_merges (h : Ahead X e fs) (hcovered : Covered X e fs) {dat : Dat}
    (hread : ∀ b ∈ dat, b.Readable) (hl : ∀ p ∈ Dat.table dat, Importable p) (size : ℕ) (hash : Bytes) :
    Prog.wp (importSegment (X := X) dat size hash)
      ⟨fun r q fs' => (∃ rs, Merges X e fs rs (Dat.table dat) q.state fs') ∨
          (∀ written skipped, r ≠ .applied written skipped) ∧ q.state = e ∧ fs' = fs,
        fun _ q fs' => ∃ rs, Merges X e fs rs (Dat.table dat) q.state fs', FitsWal X, fun _ _ => True⟩
      ⟨e, clock⟩ fs := by
  simp only [importSegment, Prog.wp_bind, Exec.wp_get, Prog.wp_ite, Prog.wp_pure, Exec.wp_effect]
  split
  · exact .inr ⟨fun _ _ hr => (by cases hr), trivial, trivial⟩
  split
  · exact .inr ⟨fun _ _ hr => (by cases hr), trivial, trivial⟩
  refine fun _ => ⟨trivial, fun _ => ⟨trivial, ?_⟩⟩
  rw [parseDatEntries_eq hread]
  set fs₁ := applyEffect X (.stageRename hash) (applyEffect X (.stageWrite hash dat) fs) with hfs₁
  have h₁ : Ahead X e fs₁ := ⟨h.inv.congr rfl rfl, h.le⟩
  have hcovered₁ : Covered X e fs₁ := hcovered.mono rfl rfl fun _ hk => hk
  rw [Prog.wp_bind]
  refine Prog.wp_imp (h₁.wp_importEntries_merges hcovered₁ hl) ?_ fun _ _ _ he => he.elim
  rintro g ⟨e₂, clock₂⟩ fs₂ ⟨-, rs, hmerges⟩
  -- what comes after leaves the WAL and the memtable
  have htail : ∀ {q : Process Engine} {fs' : Fs}, q.state.walPart = e₂.walPart ∧ fs'.wals = fs₂.wals →
      Merges X e fs rs (Dat.table dat) q.state fs' := by
    rintro ⟨e', clock'⟩ fs' ⟨hpart, hwals⟩
    refine ⟨(walSequence_congr hwals).trans hmerges.sequence, ?_, hmerges.winnows⟩
    rw [eq_of_walPart hpart]
    exact hmerges.memtable
  refine Prog.wp_mono (wp_keepsWal (g := walPart) ?frame) (fun _ _ _ hq => .inl ⟨rs, htail hq⟩)
    (fun _ _ _ hq => ⟨rs, htail hq⟩) (fun _ _ h => h) fun _ _ _ _ => trivial
  exact .bind (onStore_frame (SegmentStore.allocSegmentId_frame _)) fun _ =>
    .bind (.effect trivial) fun _ => .bind syncWal_frame fun _ => .bind .now fun _ =>
    .bind (writeSidecars_frame _ _ _) fun _ => .bind .fs fun _ => .bind (.lift _) fun _ =>
    .bind (onStore_keepsWal (SegmentStore.addImportedSegment_frame _ _)) fun _ => .pure _

/-- **An import** writes the log and new files first, and then registers the segment. -/
theorem phased_importSegment (dat : Dat) (size : ℕ) (hash : Bytes) :
    Exec.Phased Effect.Grows Effect.Retires (importSegment (X := X) dat size hash) := by
  refine .bind_first (g := fun _ => ()) .get fun e => .ite (.of_first (g := fun _ => ()) (.pure _))
    (.ite (.of_first (g := fun _ => ()) (.pure _)) ?_)
  refine .bind_first (g := fun _ => ()) (.effect trivial) fun _ =>
    .bind_first (g := fun _ => ()) (.effect trivial) fun _ => ?_
  split
  · exact .of_first (g := fun _ => ()) (.pure _)
  · exact .of_first (g := fun _ => ()) (.pure _)
  · have hentries : ∀ parsed, Exec.Frame Effect.Grows storePart (List.foldlM (importEntry (X := X)) {} parsed) :=
      fun parsed => (Prog.Frame.foldlM importEntry_frame parsed {}).mono fun _ hf => Effect.IsLog.grows hf
    have hsidecars : ∀ id g m, Exec.Frame Effect.Grows (fun _ => ()) (writeSidecars (X := X) id g m) := fun id g m =>
      .bind (.effect trivial) fun _ => .bind (.effect trivial) fun _ => .bind (.effect trivial) fun _ =>
        .bind (.effect trivial) fun _ => .bind (.effect trivial) fun _ => .effect trivial
    refine .bind_first (hentries _) fun g => ?_
    refine .bind_first (g := fun _ => ()) (.zoom (h := fun _ => ()) (.bind .get fun _ => .bind (.modify fun _ => rfl)
      fun _ => .pure _) fun _ _ _ => rfl) fun id => ?_
    refine .bind_first (g := fun _ => ()) (.effect trivial) fun _ => ?_
    refine .bind_first (g := fun _ => ()) (.zoom (h := fun _ => ()) (.bind .get fun _ => .effect trivial) fun _ _ _ => rfl)
      fun _ => .bind_first (g := fun _ => ()) .now fun nanos => .bind_first (hsidecars _ _ _) fun _ => ?_
    refine .bind_first (g := fun _ => ()) .fs fun fs => .bind_first (g := fun _ => ()) (.lift _) fun reader => ?_
    exact .bind_second (g := fun _ => ()) (.zoom (.bind_second (g := fun _ => ()) (.zoom (phased_addSegment _))
      fun _ => .modify fun _ => rfl)) fun _ => .pure _

end Engine
