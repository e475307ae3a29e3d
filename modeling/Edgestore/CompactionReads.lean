import Edgestore.WorldInv
import Edgestore.Engine.PageSpec
import Edgestore.Compactor.Plan
import Edgestore.PlainExternals

/-!
# Reads after a compaction

A compaction keeps what reads of a key return if the latest record of the key is left and the record that was
registered last stays so. A record without TTL does not outlive the cohort window in which it was written: the next
compaction drops it.

## Main definitions

* `MemEntry.LiveAt now r`: a put without TTL, or before its deadline
* `World.SameReads`: two states in which reads of a key return the same
* `World.reached`: the cohorts that a compaction gets to
* `World.Kept`: the latest record of a key is one that a compaction keeps

## Main results

* `World.compactOnce_preservesLive_iff`: a compaction preserves the reads of live records that it keeps, and of no
  others as far as the records of a key can be told apart by their values
* `World.compaction_drops_permanent_record`: a record without TTL is lost
-/

variable {X : Externals}

/-- A put without TTL, or before its deadline. -/
def MemEntry.LiveAt (now : ℤ) (r : MemEntry) : Prop :=
  r.op = .put ∧ (r.ttl = 0 ∨ now < r.timestamp + r.ttl * nanosPerSec)

/-- **The latest record of a key is what a scan returns**, if it is not a tombstone. -/
theorem Engine.range_of_isLatest {R : List SegmentId} {e : Engine} {fs : Fs} {ns key k : Bytes}
    {r : MemEntry} (h : StoreInv X R e.segmentStore fs) (hk : encodeKey ns key = .ok k)
    (hr : IsLatest (recordsOf X fs k ++ (e.memtable.get k).toList) r) (hop : r.op = .put)
    {start «end» : Bytes} (hstart : start ≤ key) (hend : key < «end») :
    (e.range fs ns start «end»).map (find · key) = .ok r.live := by
  obtain ⟨items, hitems, hfind⟩ := Engine.range_eq h (encodeKey_eq_ok.mp hk).1 start «end»
  obtain ⟨o, hscan, hread⟩ := hfind key k hk hstart hend
  -- what is merged for the key is among its records, and the latest one is merged
  have hcand : (∀ c ∈ o.toList ++ (e.memtable.get k).toList,
      c ∈ recordsOf X fs k ++ (e.memtable.get k).toList) ∧
      r ∈ o.toList ++ (e.memtable.get k).toList := by
    rcases hscan with ⟨hnil, rfl⟩ | ⟨e', he', rfl⟩
    · rw [hnil] at hr ⊢
      exact ⟨fun c hc => hc, hr.1⟩
    · refine ⟨fun c hc => ?_, ?_⟩
      · rcases List.mem_append.mp hc with hc | hc
        · split at hc
          · simp at hc
          · rw [Option.toList_some, List.mem_singleton] at hc
            exact List.mem_append_left _ (hc ▸ he'.1)
        · exact List.mem_append_right _ hc
      · rcases List.mem_append.mp hr.1 with hmem | hmem
        · have hlatest := hr.subset hmem fun c hc => List.mem_append_left _ hc
          rw [hlatest.eq_of_isNewest he', if_neg (by simp [hop])]
          simp
        · exact List.mem_append_right _ hmem
  rw [hitems]
  rcases hread with ⟨rfl, hmem, -⟩ | ⟨r', hr', hfind'⟩
  · rw [hmem] at hcand
    exact absurd hcand.2 (by simp)
  · have hlatest := hr.subset hcand.2 hcand.1
    rw [← hlatest.eq_of_isNewest hr', ← hfind']
    rfl

/-- The cohorts of a compaction are made of registered segments, each in one cohort at most. -/
theorem cohortsWf_identifyCohorts {fs : Fs} (hd : DiskInv X fs) (order : HashOrder)
    (pinned : List SegmentId) (now : ℤ) :
    CohortsWf X fs
      (identifyCohorts order ((registered X fs).filter fun m => m.segmentId ∉ pinned) now) := by
  obtain ⟨hnodup, hmem⟩ := Compactor.nodup_identifyCohorts order now
    (hd.nodup.sublist (List.filter_sublist.map _) :
      (((registered X fs).filter fun m => m.segmentId ∉ pinned).map SegmentMeta.segmentId).Nodup)
  refine ⟨hnodup, fun cohort hc id hid => ?_⟩
  have h := hmem cohort hc id hid
  rw [Compactor.filter_mem_registeredIds] at h
  exact (List.mem_filter.mp h).1

/-- What a scan returns for a key is the value of one of its records, or nothing. -/
theorem Engine.range_reads {R : List SegmentId} {e : Engine} {fs : Fs} {ns key k : Bytes}
    (h : StoreInv X R e.segmentStore fs) (hk : encodeKey ns key = .ok k) {start «end» : Bytes}
    (hstart : start ≤ key) (hend : key < «end») :
    ∃ v, (e.range fs ns start «end»).map (find · key) = .ok v ∧
      (v = none ∨ ∃ r ∈ recordsOf X fs k ++ (e.memtable.get k).toList, v = r.live) := by
  obtain ⟨items, hitems, hfind⟩ := Engine.range_eq h (encodeKey_eq_ok.mp hk).1 start «end»
  obtain ⟨o, hscan, hread⟩ := hfind key k hk hstart hend
  refine ⟨find items key, by rw [hitems]; rfl, ?_⟩
  rcases hread with ⟨-, -, hnone⟩ | ⟨r, hr, hvalue⟩
  · exact .inl hnone
  · refine .inr ⟨r, ?_, hvalue⟩
    rcases List.mem_append.mp hr.1 with hmem | hmem
    · -- the scan of the segments has found the record
      rcases hscan with ⟨-, rfl⟩ | ⟨e', he', rfl⟩
      · cases hmem
      · split at hmem
        · cases hmem
        · rw [Option.toList_some, List.mem_singleton] at hmem
          exact List.mem_append_left _ (hmem ▸ he'.1)
    · exact List.mem_append_right _ hmem

/-- A put in a registered segment has a value. -/
theorem exists_live_of_put {fs : Fs} {k : Bytes} {r : MemEntry} (hd : DiskInv X fs) (hr : r ∈ recordsOf X fs k)
    (hop : r.op = .put) : ∃ value, r.live = some value := by
  obtain ⟨id, hid, hfind⟩ := mem_recordsOf.mp hr
  have hvalue := congrArg MemEntry.value (hd.stored hid hfind)
  rw [storedEntry, hop] at hvalue
  exact ⟨_, by rw [MemEntry.live, hop, if_neg (by decide), ← hvalue]⟩

namespace World

/-- What a scan returns for one key. -/
def readRange (w : World) (ns key start «end» : Bytes) :
    Option (Except EdgestoreError (Option Bytes)) :=
  (w.range ns start «end»).map fun items => items.map (find · key)

/-- Reads of a key return the same in two states. -/
def SameReads (X : Externals) (w w' : World) (ns key : Bytes) : Prop :=
  w'.get X ns key = w.get X ns key ∧ ∀ start «end», start ≤ key → key < «end» →
    w'.readRange ns key start «end» = w.readRange ns key start «end»

/-- The records of a key in the registered segments and in the memtable. -/
def records (X : Externals) (w : World) (k : Bytes) : List MemEntry :=
  recordsOf X w.fs k ++ (w.engine.bind fun e => e.memtable.get k).toList

/-- **A compaction preserves live data**: if the latest record of a key is live at the time of the
call, reads of the key return the same after it. -/
def PreservesLive (X : Externals) (w : World) (c : Call) (ns key : Bytes) : Prop :=
  ∀ k r, encodeKey ns key = .ok k → IsLatest (w.records X k) r → r.LiveAt (asI64 (c.clock 0)) →
    w.SameReads X (w.step X c) ns key

/-- The cohorts that a compaction gets to before its budget is spent: those of the segments that no snapshot pins, in
the order of the cycle. -/
def reached (X : Externals) (w : World) (order : HashOrder) (now : ℤ) (e : Engine) : List CohortInfo :=
  reachedCohorts X e.compactor now w.fs 0
    (identifyCohorts order ((registered X w.fs).filter fun m => m.segmentId ∉ e.snapshotRegistry.pinnedIds) now)

/-- The latest record of a key is one that a compaction keeps: it is in the memtable; or in a segment that is in no
cohort that the compaction gets to; or in a cohort that is not fully expired, its own death time is still to come, it
has an LSN and lies below the bound of the scan. Besides, unless the memtable has a record of the key, the record
that was registered last stays the last one. -/
def Kept (X : Externals) (w : World) (order : HashOrder) (now : ℤ) (e : Engine) (k : Bytes) (r : MemEntry) : Prop :=
  e.memtable.get k = some r ∨
  (∃ id ∈ registeredIds X w.fs, find (w.fs.segs id).table k = some r ∧
    ∀ cohort ∈ w.reached X order now e, id ∈ cohort.segmentIds → Spared e.compactor now cohort k r) ∧
  (e.memtable.get k = none → StaysLast X e.compactor now w.fs (w.reached X order now e) k)

/-- A compaction keeps the latest record of a key, if it is live. -/
def KeepsLive (X : Externals) (w : World) (order : HashOrder) (now : ℤ) (e : Engine) (k : Bytes) : Prop :=
  ∀ r, IsLatest (w.records X k) r → r.LiveAt now → w.Kept X order now e k r

/-- Records can be told apart by the values that a client sees. -/
def ValuesDiffer (l : List MemEntry) : Prop := ∀ r ∈ l, ∀ r' ∈ l, r.live = r'.live → r = r'

instance (l : List MemEntry) : Decidable (ValuesDiffer l) :=
  inferInstanceAs (Decidable (∀ r ∈ l, ∀ r' ∈ l, r.live = r'.live → r = r'))

/-- What a compaction leaves. -/
structure Compacted (X : Externals) (w : World) (order : HashOrder) (clock : ℕ → ℕ) (e e' : Engine)
    (fs' : Fs) : Prop where
  inv : e'.Inv X [] fs'
  engine : e' = { e with segmentStore := e'.segmentStore }
  runs : ∃ written, CohortRuns X e.compactor (asI64 (clock 0)) e.snapshotRegistry.pinnedIds
    (identifyCohorts order ((registered X w.fs).filter fun m =>
      m.segmentId ∉ e.snapshotRegistry.pinnedIds) (asI64 (clock 0))) 0 w.fs written fs'

/-- A compaction within the limits succeeds. -/
theorem step_compactOnce {w : World} {order : HashOrder} {clock : ℕ → ℕ} {e : Engine}
    (h : WorldInv X w) (he : w.engine = some e)
    (hlim : w.EffectsMeet X (WithinLimits X) ⟨.compactOnce order, clock, none⟩) :
    ∃ e', (w.step X ⟨.compactOnce order, clock, none⟩).engine = some e' ∧
      Compacted X w order clock e e' (w.step X ⟨.compactOnce order, clock, none⟩).fs := by
  have hinv : e.Inv X [] w.fs :=
    ⟨(h.engine e he).store.anti (by simp), (h.engine e he).window⟩
  have hfs : FsInv X [] w.fs := ⟨hinv.store.disk, h.fs.clean, by rintro f ⟨⟩⟩
  have hcover : ∀ e fs, KeepsCover X [] e fs := by
    intro e fs
    cases e with
    | manifestAppend pos f =>
      obtain ⟨_ | _, id, m⟩ := f
      · trivial
      · intro i hi
        cases hi
    | _ => trivial
  have hrun := fsInv_run (R := []) (L := KeepsCover X []) hfs (by simp)
    (Engine.wp_compactOnce hinv fun id hid => (by cases hid) :
      Prog.wp (Engine.compactOnce (X := X) order) _ ⟨e, clock⟩ w.fs)
  simp only [step, effects, perform, onEngine, he, EffectsMeet] at hlim ⊢
  generalize hr : (Engine.compactOnce (X := X) order).run ⟨e, clock⟩ w.fs = res at hrun hlim ⊢
  obtain ⟨_ | stats, ⟨e', clock'⟩, es⟩ := res
  · exact (hrun hlim (Device.all_true.mono fun e fs _ => hcover e fs)).2.2.elim
  · obtain ⟨-, -, hinv', heng, hruns⟩ := hrun hlim (Device.all_true.mono fun e fs _ => hcover e fs)
    exact ⟨e', rfl, hinv', heng, hruns⟩

/-- **The records that a compaction leaves.** -/
theorem Compacted.recordsOf_eq {w : World} {order : HashOrder} {clock : ℕ → ℕ} {e e' : Engine} {fs' : Fs}
    (h : Compacted X w order clock e e' fs') (hd : DiskInv X w.fs) (k : Bytes) :
    recordsOf X fs' k = recordsLeft X e.compactor (asI64 (clock 0)) w.fs (w.reached X order (asI64 (clock 0)) e) k ∧
      (∀ r ∈ recordsOf X fs' k, r ∈ recordsOf X w.fs k) ∧
      CohortsWf X w.fs (w.reached X order (asI64 (clock 0)) e) := by
  obtain ⟨written, hruns⟩ := h.runs
  have hwf := cohortsWf_identifyCohorts hd order e.snapshotRegistry.pinnedIds (asI64 (clock 0))
  refine ⟨hruns.recordsOf_eq hd hwf (fun cohort hc id hid => ?_) k, hruns.steps.recordsOf_subset hd hwf,
    hwf.of_prefix (reachedCohorts_isInitial _ _ _ _ _ _)⟩
  -- a segment in a cohort is not pinned
  obtain ⟨-, hcohorts⟩ := Compactor.nodup_identifyCohorts order (asI64 (clock 0))
    (hd.nodup.sublist (List.filter_sublist.map _) :
      (((registered X w.fs).filter fun m => m.segmentId ∉ e.snapshotRegistry.pinnedIds).map
        SegmentMeta.segmentId).Nodup)
  have hseg := hcohorts cohort hc id hid
  rw [Compactor.filter_mem_registeredIds] at hseg
  exact of_decide_eq_true (List.mem_filter.mp hseg).2

section

variable {w : World} {order : HashOrder} {clock : ℕ → ℕ} {e e' : Engine} {fs' : Fs} {ns key k : Bytes} {r : MemEntry}

/-- The latest record is left if it is kept, unless it is in the memtable. -/
theorem Compacted.mem_recordsOf_iff (h : Compacted X w order clock e e' fs') (hd : DiskInv X w.fs)
    (hr : IsLatest (recordsOf X w.fs k) r) :
    r ∈ recordsOf X fs' k ↔ ∃ id ∈ registeredIds X w.fs, find (w.fs.segs id).table k = some r ∧
      ∀ cohort ∈ w.reached X order (asI64 (clock 0)) e, id ∈ cohort.segmentIds →
        Spared e.compactor (asI64 (clock 0)) cohort k r := by
  obtain ⟨hrecords, -, hwf⟩ := h.recordsOf_eq hd k
  rw [hrecords]
  exact mem_recordsLeft_iff hd hwf hr

/-- **Reads of a key whose latest record is kept** return the same. -/
theorem Compacted.sameReads (h : Compacted X w order clock e e' fs') (hstore : StoreInv X [] e.segmentStore w.fs)
    (hk : encodeKey ns key = .ok k) (hr : IsLatest (recordsOf X w.fs k ++ (e.memtable.get k).toList) r)
    (hop : r.op = .put) (hkept : w.Kept X order (asI64 (clock 0)) e k r) :
    e'.get X fs' ns key = e.get X w.fs ns key ∧ ∀ start «end», start ≤ key → key < «end» →
      (e'.range fs' ns start «end»).map (find · key) = (e.range w.fs ns start «end»).map (find · key) := by
  have hmem : e'.memtable = e.memtable := by rw [h.engine]
  obtain ⟨hrecords, hsub, -⟩ := h.recordsOf_eq hstore.disk k
  have hsub' : ∀ c ∈ recordsOf X fs' k ++ (e.memtable.get k).toList,
      c ∈ recordsOf X w.fs k ++ (e.memtable.get k).toList := fun c hc =>
    List.mem_append.mpr ((List.mem_append.mp hc).imp_left (hsub c))
  have hr' : IsLatest (recordsOf X fs' k ++ (e.memtable.get k).toList) r := by
    rcases hkept with hget | ⟨⟨id, hid, hfind, hspared⟩, -⟩
    · exact hr.subset (by simp [hget]) hsub'
    · have hlatest := hr.subset (mem_recordsOf.mpr ⟨id, hid, hfind⟩) fun c hc => List.mem_append_left _ hc
      have hin := (h.mem_recordsOf_iff hstore.disk hlatest).mpr ⟨id, hid, hfind, hspared⟩
      exact hr.subset (List.mem_append_left _ hin) hsub'
  refine ⟨?_, fun start «end» hstart hend => ?_⟩
  · rw [Engine.get_eq hstore hk, Engine.get_eq h.inv.store hk, hmem]
    cases hget : e.memtable.get k with
    | some m => rfl
    | none =>
      obtain ⟨⟨id, hid, hfind, -⟩, hlast⟩ := hkept.resolve_left (by simp [hget])
      have hne : recordsOf X w.fs k ≠ [] := List.ne_nil_of_mem (mem_recordsOf.mpr ⟨id, hid, hfind⟩)
      rw [Option.none_or, Option.none_or, hrecords, (staysLast_iff hne).mp (hlast hget)]
  · rw [Engine.range_of_isLatest hstore hk hr hop hstart hend,
      Engine.range_of_isLatest h.inv.store hk (by rw [hmem]; exact hr') hop hstart hend]

/-- **A key whose reads return the same** has a latest record that is kept, if its records can be told apart by
their values. -/
theorem Compacted.kept_of_sameReads (h : Compacted X w order clock e e' fs')
    (hstore : StoreInv X [] e.segmentStore w.fs) (hk : encodeKey ns key = .ok k)
    (hr : IsLatest (recordsOf X w.fs k ++ (e.memtable.get k).toList) r) (hop : r.op = .put)
    (hvalues : ValuesDiffer (recordsOf X w.fs k ++ (e.memtable.get k).toList))
    (hget : e'.get X fs' ns key = e.get X w.fs ns key)
    (hrange : ∀ start «end», start ≤ key → key < «end» →
      (e'.range fs' ns start «end»).map (find · key) = (e.range w.fs ns start «end»).map (find · key)) :
    w.Kept X order (asI64 (clock 0)) e k r := by
  have hmem : e'.memtable = e.memtable := by rw [h.engine]
  by_cases hin : e.memtable.get k = some r
  · exact .inl hin
  have hold : r ∈ recordsOf X w.fs k := by
    refine (List.mem_append.mp hr.1).resolve_right fun hmem => hin ?_
    exact Option.mem_toList.mp hmem
  have hlatest : IsLatest (recordsOf X w.fs k) r := hr.subset hold fun c hc => List.mem_append_left _ hc
  obtain ⟨value, hlive⟩ := exists_live_of_put hstore.disk hold hop
  obtain ⟨hrecords, hsub, -⟩ := h.recordsOf_eq hstore.disk k
  -- a scan of the key alone finds the value of a record that is left, which can only be this one
  have hleft : r ∈ recordsOf X fs' k := by
    have hend : key < key ++ [0] := lt_append_zero key
    obtain ⟨v, hv, hread⟩ := Engine.range_reads h.inv.store hk le_rfl hend
    have hsame := hrange key (key ++ [0]) le_rfl hend
    rw [hv, Engine.range_of_isLatest hstore hk hr hop le_rfl hend] at hsame
    obtain rfl : v = r.live := Except.ok.inj hsame
    rw [hmem] at hread
    rcases hread with hnone | ⟨r', hr', heq⟩
    · rw [hlive] at hnone
      cases hnone
    · have hr'' : r' ∈ recordsOf X w.fs k ++ (e.memtable.get k).toList :=
        List.mem_append.mpr ((List.mem_append.mp hr').imp_left (hsub r'))
      obtain rfl := hvalues r hr.1 r' hr'' heq
      exact (List.mem_append.mp hr').resolve_right fun hmem => hin (Option.mem_toList.mp hmem)
  refine .inr ⟨(h.mem_recordsOf_iff hstore.disk hlatest).mp hleft, fun hnone => ?_⟩
  rw [staysLast_iff (List.ne_nil_of_mem hold), ← hrecords]
  obtain ⟨last, hlast⟩ := Option.ne_none_iff_exists'.mp (mt List.getLast?_eq_none_iff.mp (List.ne_nil_of_mem hold))
  obtain ⟨last', hlast'⟩ := Option.ne_none_iff_exists'.mp (mt List.getLast?_eq_none_iff.mp (List.ne_nil_of_mem hleft))
  rw [Engine.get_eq hstore hk, Engine.get_eq h.inv.store hk, hmem, hnone, Option.none_or, Option.none_or, hlast,
    hlast'] at hget
  have hmem' : ∀ {l : List MemEntry} {x}, l.getLast? = some x → x ∈ l := List.mem_of_getLast?
  have hlive' : last'.live = last.live := Except.ok.inj hget
  rw [hlast, hlast', hvalues last' (List.mem_append_left _ (hsub _ (hmem' hlast'))) last
    (List.mem_append_left _ (hmem' hlast)) hlive']

/-- **When a compaction preserves live data.** If it keeps the latest record of a key, provided that this is live,
reads of the key return the same after it. It does not preserve what it does not keep, if the records of the key can be
told apart by their values: an older record with the same value may take the place of one that is lost. -/
theorem compactOnce_preservesLive_iff (h : WorldInv X w) (he : w.engine = some e)
    (hlim : w.EffectsMeet X (WithinLimits X) ⟨.compactOnce order, clock, none⟩) (hk : encodeKey ns key = .ok k) :
    (w.KeepsLive X order (asI64 (clock 0)) e k → w.PreservesLive X ⟨.compactOnce order, clock, none⟩ ns key) ∧
      (ValuesDiffer (w.records X k) → w.PreservesLive X ⟨.compactOnce order, clock, none⟩ ns key →
        w.KeepsLive X order (asI64 (clock 0)) e k) := by
  obtain ⟨e', he', hcomp⟩ := step_compactOnce h he hlim
  have hstore : StoreInv X [] e.segmentStore w.fs := (h.engine e he).store.anti (by simp)
  have hrecords : w.records X k = recordsOf X w.fs k ++ (e.memtable.get k).toList := by
    rw [records, he, Option.bind_some]
  constructor
  · intro hkeeps k' r hk' hr hlive
    obtain rfl : k = k' := Except.ok.inj (hk.symm.trans hk')
    have hkept := hkeeps r hr hlive
    rw [hrecords] at hr
    obtain ⟨hget, hrange⟩ := hcomp.sameReads hstore hk hr hlive.1 hkept
    refine ⟨?_, fun start «end» hstart hend => ?_⟩
    · simp only [get, he, he', Option.map_some, hget]
    · simp only [readRange, range, he, he', Option.map_some, hrange start «end» hstart hend]
  · intro hvalues hpreserves r hr hlive
    obtain ⟨hget, hrange⟩ := hpreserves k r hk hr hlive
    rw [hrecords] at hr hvalues
    refine hcomp.kept_of_sameReads hstore hk hr hlive.1 hvalues ?_ fun start «end» hstart hend => ?_
    · simpa only [get, he, he', Option.map_some, Option.some_inj] using hget
    · simpa only [readRange, range, he, he', Option.map_some, Option.some_inj] using hrange start «end» hstart hend

end

/-- Two puts of a key in two segments of one cohort. -/
def twoPuts : List Call :=
  [{ op := .open {} }, { op := .put [1] [7] [10] }, { op := .flushToSegments },
    { op := .put [1] [7] [12] }, { op := .flushToSegments }]

/-- A compaction within the cohort window of the two puts. -/
def earlyCompaction : Call := ⟨.compactOnce .given, fun _ => 3599999999999, none⟩

/-- A compaction after it. -/
def lateCompaction : Call := ⟨.compactOnce .given, fun _ => 3600000000001, none⟩

theorem records_twoPuts :
    (Run.from (step plainExternals) {} twoPuts).records plainExternals [0, 1, 1, 7] =
      [⟨[0, 1, 1, 7], some [10], .put, 1, 0, 0⟩, ⟨[0, 1, 1, 7], some [12], .put, 2, 0, 0⟩] := by
  decide +kernel

/-- Within the cohort window the second put is kept. -/
theorem compactOnce_preservesLive_twoPuts :
    (Run.from (step plainExternals) {} twoPuts).PreservesLive plainExternals earlyCompaction [1] [7] := by
  set w := Run.from (step plainExternals) {} twoPuts with hw
  set e := w.engine.get (by decide +kernel)
  have he : w.engine = some e := (Option.some_get _).symm
  refine (compactOnce_preservesLive_iff (k := [0, 1, 1, 7]) (worldInv_run (by decide +kernel)) he (by decide +kernel)
    rfl).1 ?_
  intro r hr _
  obtain rfl : r = ⟨[0, 1, 1, 7], some [12], .put, 2, 0, 0⟩ := by
    rw [records_twoPuts] at hr
    rcases List.mem_pair.mp hr.1 with rfl | rfl
    · exact absurd (hr.2 _ (List.mem_cons_of_mem _ List.mem_cons_self)) (by decide)
    · rfl
  refine .inr ⟨by decide +kernel, fun _ => ?_⟩
  have hne : recordsOf plainExternals w.fs [0, 1, 1, 7] ≠ [] := by decide +kernel
  exact (staysLast_iff hne).mpr (by decide +kernel)

/-- **A record without TTL is lost** in a compaction after the cohort window in which it was
written. -/
theorem compaction_drops_permanent_record :
    ¬ (Run.from (step plainExternals) {} twoPuts).PreservesLive plainExternals lateCompaction
      [1] [7] := by
  intro h
  have hsame := h [0, 1, 1, 7] ⟨[0, 1, 1, 7], some [12], .put, 2, 0, 0⟩ rfl
    (by rw [records_twoPuts]; exact ⟨by decide, by decide⟩) ⟨rfl, .inl rfl⟩
  exact absurd hsame.1 (by decide +kernel)

end World
