import Edgestore.WalRuns
import Edgestore.WorldInv
import Edgestore.Engine.Reads

/-!
# Keys on which the store agrees

A lookup asks the memtable and then the segments from the last one, a scan looks for the highest LSN,
and an engine that is opened starts from the WAL. They may find different records of a key. On a settled
key they find one value, and then no flush and no restart changes what reads return.

## Main definitions

* `Settled X m fs k v`: the memtable, the segments and the WAL agree on the value of a key
* `Engine.Reads X e fs ns key v`: `get` and `range` return a value
* `Op.Flushes`: flushes and restarts

## Main results

* `Settled.reads`: reads of a settled key
* `World.settles_step`: flushes and restarts leave a key settled
-/

variable {X : Externals} {R : List SegmentId} {fs fs' : Fs} {m : MemTable} {k : Bytes}
  {v : Option Bytes}

/-! ### Settled keys -/

/-- The entry of a key that an engine finds in the WAL when it is opened. -/
def replayedEntry (X : Externals) (fs : Fs) (k : Bytes) : Option MemEntry :=
  (replayed .empty (walSequence X fs)).get k

/-- **A settled key**: with the memtable `m`, the record that a lookup finds, those with the highest LSN
and the one in the WAL have the value `v`. The entry of the memtable is the one in the WAL. -/
structure Settled (X : Externals) (m : MemTable) (fs : Fs) (k : Bytes) (v : Option Bytes) : Prop where
  point : ((m.get k).or (recordsOf X fs k).getLast?).bind MemEntry.live = v
  newest : ∀ r, IsNewest (recordsOf X fs k ++ (m.get k).toList) r → r.live = v
  logged : ∀ r, m.get k = some r → replayedEntry X fs k = some r
  replay : ∀ r, replayedEntry X fs k = some r → r.live = v

/-- A put in the WAL has a value. -/
theorem replayedEntry_value {r : MemEntry} (h : replayedEntry X fs k = some r) (hop : r.op = .put) :
    r.value.isSome = true := by
  rcases mem_replayed (SortedMap.mem_entries_of_get h) with hmem | ⟨record, -, heq⟩
  · cases hmem
  · obtain ⟨rfl, rfl⟩ := Prod.mk.inj heq
    have hput : record.op = .put := hop
    simp [WalRecord.toEntry, hput]

/-- What is read back of an entry has its value. -/
theorem live_storedEntry {r : MemEntry} (h : r.op = .put → r.value.isSome = true) :
    (storedEntry (k, r)).2.live = r.live := by
  cases hop : r.op with
  | put =>
    obtain ⟨val, hval⟩ := Option.isSome_iff_exists.mp (h hop)
    simp [storedEntry, MemEntry.live, hop, hval]
  | delete => simp [storedEntry, MemEntry.live, hop]

namespace Settled

theorem congr (h : Settled X m fs k v) (hrec : recordsOf X fs' k = recordsOf X fs k)
    (hwal : replayedEntry X fs' k = replayedEntry X fs k) : Settled X m fs' k v := by
  obtain ⟨hpoint, hnewest, hlogged, hreplay⟩ := h
  refine ⟨?_, ?_, ?_, ?_⟩
  · rw [hrec]
    exact hpoint
  · rw [hrec]
    exact hnewest
  · rw [hwal]
    exact hlogged
  · rw [hwal]
    exact hreplay

theorem congr_memtable {m' : MemTable} (h : Settled X m fs k v) (hm : m'.get k = m.get k) :
    Settled X m' fs k v := by
  obtain ⟨hpoint, hnewest, hlogged, hreplay⟩ := h
  rw [← hm] at hpoint hnewest hlogged
  exact ⟨hpoint, hnewest, hlogged, hreplay⟩

/-- A key stays settled when the memtable is recovered from the WAL. -/
theorem recovered (h : Settled X m fs k v) :
    Settled X (replayed .empty (walSequence X fs)) fs k v := by
  cases hm : m.get k with
  | some r => exact h.congr_memtable ((h.logged r hm).trans hm.symm)
  | none =>
    have hpoint := h.point
    have hnewest := h.newest
    rw [hm] at hpoint hnewest
    refine ⟨?_, fun r hr => ?_, fun r hr => hr, h.replay⟩
    · cases hr : (replayed .empty (walSequence X fs)).get k with
      | none => exact hpoint
      | some r => exact h.replay r hr
    · rcases List.mem_append.mp hr.1 with hmem | hmem
      · exact hnewest r ⟨by simpa using hmem, fun r' hr' =>
          hr.2 r' (List.mem_append_left _ (by simpa using hr'))⟩
      · exact h.replay r (Option.mem_toList.mp hmem)

/-- A key stays settled when its entry moves from the memtable to a new segment, and files at the front
of the WAL are dropped. -/
theorem flushed {m' : MemTable} (h : Settled X m fs k v) (hm : m'.get k = none)
    (hrec : recordsOf X fs' k =
      recordsOf X fs k ++ ((m.get k).map fun r => (storedEntry (k, r)).2).toList)
    (hwal : ∀ r, replayedEntry X fs' k = some r → replayedEntry X fs k = some r) :
    Settled X m' fs' k v := by
  obtain ⟨hpoint, hnewest, hlogged, hreplay⟩ := h
  have hreplay' : ∀ r, replayedEntry X fs' k = some r → r.live = v := fun r hr => hreplay r (hwal r hr)
  have hlogged' : ∀ r, m'.get k = some r → replayedEntry X fs' k = some r := by
    intro r hr
    rw [hm] at hr
    cases hr
  cases hk : m.get k with
  | none =>
    rw [hk] at hpoint hnewest hrec
    have hsame : recordsOf X fs' k = recordsOf X fs k := by simpa using hrec
    refine ⟨?_, ?_, hlogged', hreplay'⟩
    · rw [hm, hsame]
      exact hpoint
    · rw [hm, hsame]
      exact hnewest
  | some r =>
    rw [hk] at hpoint hnewest hrec
    have hlive : (storedEntry (k, r)).2.live = r.live :=
      live_storedEntry (replayedEntry_value (hlogged r hk))
    have hrec' : recordsOf X fs' k = recordsOf X fs k ++ [(storedEntry (k, r)).2] := hrec
    refine ⟨?_, fun r' hr' => ?_, hlogged', hreplay'⟩
    · rw [hm, hrec', List.getLast?_concat]
      exact hlive.trans hpoint
    · -- the stored entry has the LSN of the one in the memtable
      rw [hm, hrec', Option.toList_none, List.append_nil] at hr'
      rcases List.mem_append.mp hr'.1 with hmem | hmem
      · refine hnewest r' ⟨List.mem_append_left _ hmem, fun r'' hr'' => ?_⟩
        rcases List.mem_append.mp hr'' with hr'' | hr''
        · exact hr'.2 r'' (List.mem_append_left _ hr'')
        · obtain rfl : r'' = r := by simpa using hr''
          exact hr'.2 (storedEntry (k, r'')).2 (by simp)
      · rw [List.mem_singleton.mp hmem] at hr' ⊢
        rw [hlive]
        refine hnewest r ⟨by simp, fun r'' hr'' => ?_⟩
        rcases List.mem_append.mp hr'' with hr'' | hr''
        · exact hr'.2 r'' (List.mem_append_left _ hr'')
        · obtain rfl : r'' = r := by simpa using hr''
          exact le_rfl

/-! ### Reads -/

end Settled

/-- **Reads of a key**: `get` returns the value, and `range` the same. -/
def Engine.Reads (X : Externals) (e : Engine) (fs : Fs) (ns key : Bytes) (v : Option Bytes) : Prop :=
  e.get X fs ns key = .ok v ∧ ∀ start «end», start ≤ key → key < «end» →
    ∃ items, e.range fs ns start «end» = .ok items ∧ find items key = v

/-- **Reads of a key** return its value, if the record that a lookup finds and those with the highest LSN have it. -/
theorem Engine.reads_of_newest {e : Engine} {ns key : Bytes} (h : StoreInv X R e.segmentStore fs)
    (hk : encodeKey ns key = .ok k)
    (hpoint : ((e.memtable.get k).or (recordsOf X fs k).getLast?).bind MemEntry.live = v)
    (hnewest : ∀ r, IsNewest (recordsOf X fs k ++ (e.memtable.get k).toList) r → r.live = v) :
    e.Reads X fs ns key v := by
  refine ⟨by rw [Engine.get_eq h hk, hpoint], fun start «end» hle hlt => ?_⟩
  obtain ⟨items, hitems, hfind⟩ := Engine.range_eq (e := e) h (encodeKey_eq_ok.mp hk).1 start «end»
  obtain ⟨o, hscan, hread⟩ := hfind key k hk hle hlt
  refine ⟨items, hitems, ?_⟩
  cases hm : e.memtable.get k with
  | none =>
    rw [hm] at hread hpoint hnewest
    simp only [Option.none_or, Option.toList_none, List.append_nil] at hread hpoint hnewest
    rcases hscan with ⟨hnil, rfl⟩ | ⟨s, hnew, rfl⟩
    · rcases hread with ⟨-, -, hnone⟩ | ⟨r, hr, -⟩
      · rw [hnone, ← hpoint, hnil]
        rfl
      · exact absurd hr.1 (by simp)
    · -- a tombstone is dropped, and another record is the only one to be merged
      rcases hread with ⟨hdel, -, hnone⟩ | ⟨r, hr, hfind⟩
      · have hop : s.op = .delete := by
          by_contra hop
          simp [hop] at hdel
        rw [hnone, ← hnewest s hnew, MemEntry.live, if_pos hop]
      · have hmem := hr.1
        by_cases hop : s.op = .delete
        · simp [hop] at hmem
        · obtain rfl : r = s := by simpa [hop] using hmem
          rw [hfind, hnewest r hnew]
  | some r₀ =>
    have hv : r₀.live = v := by
      rw [hm] at hpoint
      exact hpoint
    rw [hm] at hread
    rcases hread with ⟨-, hnone, -⟩ | ⟨r, hr, hfind⟩
    · cases hnone
    · rw [hfind]
      rcases List.mem_append.mp hr.1 with hmem | hmem
      · -- a record of a segment that has at least the LSN of the memtable is a newest one
        rcases hscan with ⟨-, rfl⟩ | ⟨s, hnew, rfl⟩
        · cases hmem
        · by_cases hop : s.op = .delete
          · simp [hop] at hmem
          · obtain rfl : r = s := by simpa [hop] using hmem
            refine hnewest r ⟨List.mem_append_left _ hnew.1, fun r' hr' => ?_⟩
            rcases List.mem_append.mp hr' with hr' | hr'
            · exact hnew.2 r' hr'
            · rw [hm] at hr'
              exact hr.2 r' (List.mem_append_right _ hr')
      · obtain rfl : r = r₀ := by simpa using hmem
        exact hv

/-- **Reads of a settled key** return its value. -/
theorem Settled.reads {e : Engine} {ns key : Bytes} (hs : Settled X e.memtable fs k v)
    (h : StoreInv X R e.segmentStore fs) (hk : encodeKey ns key = .ok k) : e.Reads X fs ns key v :=
  Engine.reads_of_newest h hk hs.point hs.newest

/-! ### Flushes -/

theorem get_replayed_append (m : MemTable) (rs : List WalRecord) (k : Bytes) :
    (replayed m rs).get k = ((replayed .empty rs).get k).or (m.get k) := by
  rw [replayed, replayed, SortedMap.get_insertAll, SortedMap.get_insertAll, SortedMap.get_empty,
    Option.or_none]

/-- Files at the end of the WAL hold the same entries, or none. -/
theorem replayedEntry_of_suffix {rs : List WalRecord}
    (h : walSequence X fs = rs ++ walSequence X fs') {r : MemEntry}
    (hr : replayedEntry X fs' k = some r) : replayedEntry X fs k = some r := by
  rw [replayedEntry, h, replayed_append, get_replayed_append]
  rw [replayedEntry] at hr
  rw [hr, Option.some_or]

/-- The records of a key when a segment has been registered. -/
theorem recordsOf_concat {sm : SegmentMeta} (hreg : registered X fs' = registered X fs ++ [sm])
    (hsegs : ∀ id ∈ registeredIds X fs, fs'.segs id = fs.segs id) (k : Bytes) :
    recordsOf X fs' k = recordsOf X fs k ++ (find (fs'.segs sm.segmentId).table k).toList := by
  have hids : registeredIds X fs' = registeredIds X fs ++ [sm.segmentId] := by
    rw [registeredIds, hreg, List.map_append]
    rfl
  have hold : recordsIn fs' (registeredIds X fs) k = recordsIn fs (registeredIds X fs) k :=
    List.filterMap_congr fun id hid => by rw [hsegs id hid]
  have hnew : recordsIn fs' [sm.segmentId] k = (find (fs'.segs sm.segmentId).table k).toList := by
    cases hf : find (fs'.segs sm.segmentId).table k <;> simp [recordsIn, hf]
  rw [recordsOf_eq, recordsOf_eq, hids, ← hold, ← hnew]
  exact List.filterMap_append

theorem recordsOf_congr (hreg : registered X fs' = registered X fs) (hsegs : fs'.segs = fs.segs)
    (k : Bytes) : recordsOf X fs' k = recordsOf X fs k := by
  rw [recordsOf_eq, recordsOf_eq, registeredIds, registeredIds, hreg, recordsIn, recordsIn, hsegs]

namespace Engine

variable {e : Engine} {clock : ℕ → ℕ}

/-- A key stays settled when the memtable has been flushed and WAL files are retired. -/
theorem Begun.settled {e₁ e' : Engine} {w : FlushWork} {sm : SegmentMeta} {flushed : Lsn}
    (hbegun : Begun e e₁ w) (h : Inv X R e fs) (hs : Settled X e.memtable fs k v)
    (hreg : registered X fs' = registered X fs ++ [sm]) (hwritten : w.Written X fs' sm)
    (hsegs : ∀ j ≠ w.segmentId, fs'.segs j = fs.segs j)
    (hm : e'.memtable = e.memtable.filter fun p => p.2.lsn > w.flushedMaxLsn)
    (hretired : Retired X e fs flushed e' fs') : Settled X e'.memtable fs' k v := by
  have hid : sm.segmentId = w.segmentId := hwritten.segmentId
  obtain ⟨bs, ⟨pre, hpre⟩, hentries⟩ := hretired.files
  refine hs.flushed ?_ ?_ ?_
  · -- all entries are at or below the flushed LSN
    rw [hm, SortedMap.get_filter]
    cases hk : e.memtable.get k with
    | none => rfl
    | some r =>
      have hle : r.lsn ≤ w.flushedMaxLsn := by
        rw [hbegun.maxLsn, hbegun.entries]
        exact le_maxOr (List.mem_map_of_mem (SortedMap.mem_entries_of_get hk))
      exact Option.filter_some_neg (by simpa using hle)
  · rw [recordsOf_concat hreg fun id hid' => hsegs id ?_, hid, hwritten.table, hbegun.entries,
      find_map_storedEntry]
    · rfl
    · rw [hbegun.id]
      exact (h.store.next id hid').ne
  · intro r hr
    -- what is left of the WAL is its last file
    have hafter : walSequence X fs' = fileRecords X bs := by
      simp [walSequence, hentries]
    have hsuffix : walSequence X fs =
        (pre.flatMap fun p => fileRecords X p.2) ++ walSequence X fs' := by
      rw [walSequence_of_entries hpre, hafter]
    exact replayedEntry_of_suffix hsuffix hr

/-- **A flush** leaves settled keys settled. -/
theorem wp_flushToSegments_settled (h : Inv X R e fs) (hwal : WalInv X e fs)
    (hs : Settled X e.memtable fs k v) :
    Prog.wp (flushToSegments (X := X))
      ⟨fun _ q fs' => Settled X q.state.memtable fs' k v,
        fun _ q fs' => Settled X q.state.memtable fs' k v, fun f d => StoreRely X f d ∧ FitsWal X f d,
        fun _ _ => True⟩ ⟨e, clock⟩ fs := by
  refine Prog.wp_mono (Prog.wp_and (wp_flushToSegments h) hwal.wp_flushToSegments) ?_ ?_
    (fun _ _ hr => hr) fun _ _ _ _ => trivial
  · rintro sm q fs' ⟨⟨-, w, e', hbegun, hreg, hwritten, hsegs, hq⟩, flushed, hretired⟩
    exact hbegun.settled h hs hreg hwritten hsegs (by rw [hq]) hretired
  · rintro _ q fs' ⟨⟨-, hq, rfl⟩, -⟩
    show Settled X q.state.memtable fs' k v
    rw [hq]
    exact hs

/-- **A sync** leaves settled keys settled. -/
theorem wp_flush_settled (h : Inv X R e fs) (hs : Settled X e.memtable fs k v) :
    Prog.wp (flush (X := X))
      ⟨fun _ q fs' => Settled X q.state.memtable fs' k v,
        fun _ q fs' => Settled X q.state.memtable fs' k v, fun f d => StoreRely X f d ∧ FitsWal X f d,
        fun _ _ => True⟩ ⟨e, clock⟩ fs := by
  have hsettled : ∀ (q : Process Engine) (fs' : Fs), SameStore fs fs' → q.state.walPart = e.walPart →
      fs'.wals = fs.wals → Settled X q.state.memtable fs' k v := by
    intro q fs' hsame hpart hwals
    rw [eq_of_walPart hpart]
    refine hs.congr (recordsOf_congr hsame.registered_eq hsame.segs k) ?_
    rw [replayedEntry, replayedEntry, walSequence_congr hwals]
  exact Prog.wp_mono (Prog.wp_and (h.wp_write flush_frame) (wp_keepsWal syncWal_frame))
    (fun _ q fs' hq => hsettled q fs' hq.1.2 hq.2.1 hq.2.2)
    (fun _ q fs' hq => hsettled q fs' hq.1.2 hq.2.1 hq.2.2) (fun _ _ hr => hr) fun _ _ _ _ => trivial

end Engine

/-! ### Runs of flushes and restarts -/

/-- Flushes and restarts. -/
def Op.Flushes : Op → Prop
  | .open _ => True
  | .close => True
  | .flush => True
  | .flushToSegments => True
  | _ => False

instance : DecidablePred Op.Flushes := fun op => by
  unfold Op.Flushes
  rcases op <;> infer_instance

/-- The memtable of an open engine, or of the engine that would be opened. -/
def heldMemtable (X : Externals) (engine : Option Engine) (fs : Fs) : MemTable :=
  engine.elim (replayed .empty (walSequence X fs)) Engine.memtable

namespace World

/-- The store agrees on the value of a key. -/
def Settles (X : Externals) (w : World) (k : Bytes) (v : Option Bytes) : Prop :=
  Settled X (heldMemtable X w.engine w.fs) w.fs k v

end World

/-- An outcome after which the store agrees on the value of a key. -/
def Outcome.Settles (X : Externals) (w : World) (o : Outcome) (k : Bytes) (v : Option Bytes) : Prop :=
  Settled X (heldMemtable X o.engine ((disk X).run o.effects w.fs)) ((disk X).run o.effects w.fs) k v

namespace World

variable {w : World} {c : Call} {clock : ℕ → ℕ} {α : Type}

/-- The effects of an admitted call meet what the store and the log rely on. -/
theorem all_rely (hw : WorldInv X w) (hc : w.Admitted X c) (hc' : w.WalAdmitted X c) :
    (disk X).All (fun f d => StoreRely X f d ∧ FitsWal X f d) (w.effects X c) w.fs :=
  Device.all_and.mpr ⟨hw.all_storeRely hc, all_fitsWal hc'.fits⟩

theorem settles_onEngine {m : Exec X Engine α} (hs : w.Settles X k v)
    (hrely : (disk X).All (fun f d => StoreRely X f d ∧ FitsWal X f d) (w.onEngine X clock m).effects
      w.fs)
    (hwp : ∀ e, w.engine = some e → Settled X e.memtable w.fs k v → Prog.wp m
      ⟨fun _ q fs' => Settled X q.state.memtable fs' k v,
        fun _ q fs' => Settled X q.state.memtable fs' k v, fun f d => StoreRely X f d ∧ FitsWal X f d,
        fun _ _ => True⟩ ⟨e, clock⟩ w.fs) :
    (w.onEngine X clock m).Settles X w k v := by
  cases he : w.engine with
  | none =>
    simp only [onEngine, he]
    exact hs
  | some e =>
    have hs' : Settled X e.memtable w.fs k v := by
      rw [Settles, he] at hs
      exact hs
    have hm := hwp e he hs'
    simp only [onEngine, he] at hrely ⊢
    rcases hr : m.run ⟨e, clock⟩ w.fs with ⟨res, ⟨e', clock'⟩, es⟩
    rw [hr] at hrely
    have hall : (disk X).All (fun f d => StoreRely X f d ∧ FitsWal X f d) es w.fs := by
      cases res <;> exact hrely
    have hres := Prog.wp_result hm (by rw [hr]; exact hall)
    rw [hr] at hres
    cases res with
    | ok a => exact hres
    | error err => exact hres

/-- **Opening an engine** leaves settled keys settled. -/
theorem settles_open {config : EdgestoreConfig} (hw : WorldInv X w) (hwal : WalInv X w)
    (hc : w.Admitted X ⟨.open config, clock, none⟩) (hc' : w.WalAdmitted X ⟨.open config, clock, none⟩)
    (hs : w.Settles X k v) : (w.perform X (.open config) clock).Settles X w k v := by
  have hrely := all_rely hw hc hc'
  cases he : w.engine with
  | some e =>
    simp only [perform, he]
    exact hs
  | none =>
    have hahead := hc'.ahead
    simp only [RotatesAhead, he] at hahead
    have hopen := Prog.wp_and
      (Engine.wp_open (σ := Unit) (p := ⟨(), clock⟩) hw.fs.disk hw.log hc.ids hc.window)
      (Engine.wp_open_wal (σ := Unit) (p := ⟨(), clock⟩) hwal.log hahead)
    -- the segments and the log are those of before
    have hkept : ∀ fs', registered X fs' = registered X w.fs → fs'.segs = w.fs.segs →
        walSequence X fs' = walSequence X w.fs →
        Settled X (replayed .empty (walSequence X w.fs)) fs' k v := by
      intro fs' hreg hsegs hseq
      rw [Settles, he] at hs
      refine hs.congr (recordsOf_congr hreg hsegs k) ?_
      rw [replayedEntry, replayedEntry, hseq]
    simp only [perform, effects, he] at hrely ⊢
    have hres := Prog.wp_result hopen hrely
    rw [Outcome.Settles]
    generalize (Engine.open (X := X) (σ := Unit) config).run ⟨(), clock⟩ w.fs = r at hres ⊢
    obtain ⟨_ | e, q, es⟩ := r
    · obtain ⟨hsame, -, hseq, -⟩ := hres
      have hclosed := hkept _ hsame.registered_eq hsame.segs hseq
      rw [← hseq] at hclosed
      exact hclosed
    · obtain ⟨⟨-, hreg, hsegs⟩, hopened⟩ := hres
      have hsettled := hkept _ hreg hsegs hopened.sequence
      rw [← hopened.memtable] at hsettled
      exact hsettled

/-- **A flush or a restart** leaves settled keys settled. -/
theorem settles_step (hw : WorldInv X w) (hwal : WalInv X w) (hc : w.Admitted X c)
    (hc' : w.WalAdmitted X c) (hop : c.op.Flushes) (hs : w.Settles X k v) :
    (w.step X c).Settles X k v := by
  have hrely := all_rely hw hc hc'
  obtain ⟨op, clock, stop⟩ := c
  obtain rfl : stop = none := hc.stop
  show (w.perform X op clock).Settles X w k v
  cases op with
  | «open» config => exact settles_open hw hwal hc hc' hs
  | close =>
    have hflush : (w.onEngine X clock Engine.flush).Settles X w k v :=
      settles_onEngine hs hrely fun e he hs' => Engine.wp_flush_settled (hw.engine e he) hs'
    exact hflush.recovered
  | flush => exact settles_onEngine hs hrely fun e he hs' => Engine.wp_flush_settled (hw.engine e he) hs'
  | flushToSegments =>
    exact settles_onEngine hs hrely fun e he hs' =>
      Engine.wp_flushToSegments_settled (hw.engine e he) (hwal.engine e he) hs'
  | _ => exact hop.elim

end World
