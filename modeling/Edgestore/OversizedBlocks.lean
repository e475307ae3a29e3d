import Edgestore.ReadBack
import Edgestore.FailedWrites

/-!
# Blocks that readers refuse

A writer closes a block once it has reached its target size, and sets no limit on a value. A reader refuses
a block of more than 2 MiB. A larger value is acknowledged and flushed, its WAL file is retired, and then
nothing reads it.

## Main definitions

* `Fs.Oversized`: no reader accepts a block of a segment

## Main results

* `World.not_shows_of_oversized`: what is flushed in such blocks is not found
* `World.not_readable`: what is accepted is not always read back
-/

variable {X : Externals} {fs : Fs} {σ : Type}

/-- No reader accepts a block of a segment. -/
def Fs.Oversized (fs : Fs) : Prop :=
  ∀ id dat, (fs.segs id).dat = .whole dat → ∀ b ∈ dat, maxBlockDecompressed < b.size

/-- An effect that writes no block that a reader accepts. -/
def Effect.Oversized : Effect → Prop
  | .datWrite _ dat => ∀ b ∈ dat, maxBlockDecompressed < b.size
  | .stageAdopt _ _ => False
  | _ => True

theorem Fs.Oversized.apply {f : Effect} (h : fs.Oversized) (hf : f.Oversized) :
    (applyEffect X f fs).Oversized := by
  have hset : ∀ id g,
      (∀ dat, (g (fs.segs id)).dat = .whole dat → ∀ b ∈ dat, maxBlockDecompressed < b.size) →
        (fs.setSegment id g).Oversized := by
    intro id g hg j dat hdat
    rcases eq_or_ne j id with rfl | hne
    · rw [segs_setSegment_self] at hdat
      exact hg dat hdat
    · rw [segs_setSegment_of_ne _ _ hne] at hdat
      exact h j dat hdat
  cases f with
  | datWrite id dat =>
    refine hset id (fun f => { f with dat := .whole dat }) ?_
    rintro _ ⟨⟩
    exact hf
  | stageAdopt hash id => exact hf.elim
  | idxWrite id idx => exact hset id (fun f => { f with idx := .whole idx }) (h id)
  | xfWrite id xf => exact hset id (fun f => { f with xf := .whole xf }) (h id)
  | metaWrite id m => exact hset id (fun f => { f with segMeta := .whole m }) (h id)
  | segUnlink id ext =>
    refine hset id (fun f => f.unlink ext) fun dat hdat => ?_
    cases ext with
    | dat => cases hdat
    | _ => exact h id dat hdat
  | _ => exact h

/-- Nothing is found in segments whose blocks no reader accepts. -/
theorem SegmentStore.get_ne_of_oversized (h : fs.Oversized) (s : SegmentStore) (key : Bytes)
    (r : MemEntry) : s.get X fs key ≠ .ok (some r) := by
  have hblocks : ∀ blocks : Dat, (∀ b ∈ blocks, maxBlockDecompressed < b.size) →
      searchBlocks key blocks ≠ .ok (some r) := by
    intro blocks hb
    cases blocks with
    | nil => simp [searchBlocks]
    | cons b blocks =>
      have hb' := hb b List.mem_cons_self
      cases b with
      | decoded size es =>
        have : readBlock (.decoded size es) = .error (.segmentCorrupt "decompressed block too large") :=
          if_pos hb'
        rw [searchBlocks, this]
        intro h
        cases h
      | undecodable => intro h; cases h
      | truncated => intro h; cases h
  have hreader : ∀ rd : SegmentReader, rd.get X fs key ≠ .ok (some r) := by
    intro rd hget
    rw [SegmentReader.get] at hget
    split at hget
    · cases hget
    · cases hdat : (fs.segs rd.segmentId).dat with
      | whole dat =>
        rw [hdat] at hget
        exact hblocks _ (fun b hb => h _ dat hdat b (List.mem_of_mem_drop hb)) hget
      | _ =>
        rw [hdat] at hget
        cases hget
  rw [SegmentStore.get]
  induction s.readers.reverse with
  | nil => intro h; cases h
  | cons rd readers ih =>
    intro hget
    rw [firstHit] at hget
    cases hrd : rd.get X fs key with
    | error err =>
      rw [hrd] at hget
      cases hget
    | ok found =>
      rw [hrd] at hget
      cases found with
      | some r' =>
        cases hget
        exact hreader rd hrd
      | none => exact ih hget

namespace Engine

theorem wp_segmentFlush_oversized {id : SegmentId} {window : ℕ} {entries : List (Bytes × MemEntry)}
    (h : ∀ b ∈ (writeDatAndIndex X entries).blocks, maxBlockDecompressed < b.size) {p : Process σ} :
    Prog.wp (segmentFlush (X := X) id window entries)
      ⟨fun _ q _ => q.state = p.state, fun _ _ _ => True, fun _ _ => True, fun f _ => f.Oversized⟩
      p fs := by
  cases entries with
  | nil => exact (Prog.wp_throw _).mpr trivial
  | cons first rest =>
    simp only [segmentFlush]
    cases hbucket : cohortBucketFor first.2.timestamp first.2.ttl window with
    | error err =>
      simp only [Prog.wp_bind, Exec.wp_effect, Prog.wp_lift, Effect.Oversized, Prog.result_error]
      simp only [forall_const, and_true]
      exact h
    | ok bucket =>
      simp only [Prog.wp_bind, Exec.wp_effect, Prog.wp_lift, Effect.Oversized, Prog.result_ok, Exec.wp_now,
        Prog.wp_pure]
      simp only [forall_const, and_true]
      exact h

/-- Registering a segment writes no segment, and drops the flushed entries of the memtable. -/
theorem wp_finalizeFlush_oversized (m : SegmentMeta) (flushed : Lsn) {p : Process Engine} :
    Prog.wp (finalizeFlush (X := X) m flushed)
      ⟨fun _ q _ => q.state.memtable = p.state.memtable.filter fun r => r.2.lsn > flushed,
        fun _ _ _ => True, fun _ _ => True, fun f _ => f.Oversized⟩ p fs := by
  simp only [finalizeFlush, onStore, SegmentStore.finalizeSegment, SegmentStore.onManifest,
    Manifest.addSegment, Manifest.writeFramedEntry, Prog.wp_bind, Exec.wp_zoom, Prog.wp_ite,
    Prog.wp_throw, Exec.wp_get, Exec.wp_effect, Exec.wp_modify, Exec.wp_fs, Prog.wp_lift]
  split
  · trivial
  · refine fun _ => ⟨trivial, fun _ => ⟨trivial, ?_⟩⟩
    generalize openReader _ _ = reader
    cases reader with
    | error err => trivial
    | ok reader =>
      refine Prog.wp_mono ((retireWals_frame fun e => e.memtable).wp fun _ _ => True)
        (fun _ _ _ h => h) (fun _ _ _ _ => trivial) (fun _ _ h => h) fun f _ _ hf => ?_
      cases f with
      | walUnlink n => trivial
      | _ => exact hf.elim

/-- **A flush** of a memtable of which no reader accepts a block leaves nothing that is found. -/
theorem wp_flushToSegments_oversized {p : Process Engine}
    (h : ∀ b ∈ (writeDatAndIndex X p.state.memtable.entries).blocks, maxBlockDecompressed < b.size) :
    Prog.wp (flushToSegments (X := X))
      ⟨fun _ q _ => q.state.memtable.entries = [], fun _ _ _ => True, fun _ _ => True,
        fun f _ => f.Oversized⟩ p fs := by
  simp only [flushToSegments, beginFlush, Prog.wp_bind, Exec.wp_get, Prog.wp_ite, Prog.wp_pure]
  split
  case isTrue => exact (Prog.wp_throw _).mpr trivial
  case isFalse hne =>
    have hnil : p.state.memtable.entries ≠ [] := fun hnil => hne (MemTable.isEmpty_iff.mpr hnil)
    simp only [onStore, Exec.wp_zoom, SegmentStore.prepareFlush, MemTable.iter, hnil, if_false,
      Prog.wp_bind, SegmentStore.wp_allocSegmentId, Exec.wp_get, Prog.wp_pure]
    refine Prog.wp_imp (wp_segmentFlush_oversized h) ?_ fun _ _ _ h => h
    intro m q fs₁ hq
    refine Prog.wp_imp (wp_finalizeFlush_oversized m _) ?_ fun _ _ _ h => h
    intro _ q' _ hm
    rw [hm, hq]
    -- every entry is at or below the greatest LSN
    refine List.filter_eq_nil_iff.mpr fun r hr => ?_
    have hle : r.2.lsn ≤ maxOr 0 (p.state.memtable.entries.map fun p => p.2.lsn) :=
      le_maxOr (List.mem_map_of_mem hr)
    simpa using hle

end Engine

theorem Engine.entries_applied {e : Engine} (he : e.memtable = .empty) (r : WalRecord) :
    (e.applied r).memtable.entries = [(r.encodedKey, r.toEntry r.encodedKey)] := by
  rw [Engine.applied, he]
  rfl

theorem Effect.IsLog.oversized {f : Effect} (h : f.IsLog) : f.Oversized := by
  cases f with
  | datWrite id dat => exact h.elim
  | stageAdopt hash id => exact h.elim
  | _ => trivial

theorem Fs.Oversized.run {es : List Effect} (h : fs.Oversized)
    (hes : (disk X).All (fun f _ => f.Oversized) es fs) : ((disk X).run es fs).Oversized :=
  hes.run (fun _ _ hf hd => hd.apply hf) h

namespace World

variable {w : World} {clock : ℕ → ℕ}

/-- **A flush** of a memtable of which no reader accepts a block leaves nothing to find. -/
theorem not_shows_of_oversized {e : Engine} (he : w.engine = some e) (hfs : w.fs.Oversized)
    (hblocks : ∀ b ∈ (writeDatAndIndex X e.memtable.entries).blocks, maxBlockDecompressed < b.size)
    (hok : (w.perform X .flushToSegments clock).ok = true) {ns key val : Bytes} :
    ¬ (w.step X ⟨.flushToSegments, clock, none⟩).Shows X ns key (some val) := by
  have hwp := @Engine.wp_flushToSegments_oversized X w.fs ⟨e, clock⟩ hblocks
  have hres := Prog.wp_result hwp Device.all_true
  have hall := Prog.wp_guar hwp Device.all_true
  obtain ⟨heffects, hengine, hok'⟩ :
      (w.perform X .flushToSegments clock).effects =
          ((Engine.flushToSegments (X := X)).run ⟨e, clock⟩ w.fs).2.2 ∧
        (w.perform X .flushToSegments clock).engine =
          some ((Engine.flushToSegments (X := X)).run ⟨e, clock⟩ w.fs).2.1.state ∧
        (w.perform X .flushToSegments clock).ok =
          ((Engine.flushToSegments (X := X)).run ⟨e, clock⟩ w.fs).1.isOk := onEngine_some he
  rintro ⟨e', he', hget, -⟩
  have hfs' : (w.step X ⟨.flushToSegments, clock, none⟩).fs.Oversized := by
    change ((disk X).run (w.perform X .flushToSegments clock).effects w.fs).Oversized
    rw [heffects]
    exact hfs.run hall
  have hmem : e'.memtable.entries = [] := by
    change (w.perform X .flushToSegments clock).engine = some e' at he'
    rw [hengine] at he'
    rw [hok'] at hok
    generalize (Engine.flushToSegments (X := X)).run ⟨e, clock⟩ w.fs = run at hres he' hok
    obtain ⟨_ | m, q, es⟩ := run
    · cases hok
    · cases he'
      exact hres
  obtain ⟨k, hk⟩ : ∃ k, encodeKey ns key = .ok k := by
    cases hk : encodeKey ns key with
    | ok k => exact ⟨k, rfl⟩
    | error err =>
      rw [Engine.get, hk] at hget
      cases hget
  have hnone : e'.memtable.get k = none := by
    rw [SortedMap.get, hmem]
    rfl
  rw [Engine.get, hk] at hget
  simp only [bind, Except.bind, hnone] at hget
  cases hstore : e'.segmentStore.get X (w.step X ⟨.flushToSegments, clock, none⟩).fs k with
  | error err =>
    rw [hstore] at hget
    cases hget
  | ok found =>
    rw [hstore] at hget
    cases found with
    | none => cases hget
    | some r => exact SegmentStore.get_ne_of_oversized hfs' _ _ r hstore

/-- The reader of the WAL accepts a record that is longer than a block. -/
theorem fits_putRecord {lsn : Lsn} {val : Bytes} (hlsn : lsn < 256 ^ 8)
    (hlt : val.length + 256 ≤ maxCompressedLen) :
    (Engine.putRecord plainExternals lsn 0 0 [1] [1] val).Fits plainExternals := by
  have hlength : (plainExternals.compress (serializeRecord
      (Engine.putRecord plainExternals lsn 0 0 [1] [1] val))).length = 73 + val.length := by
    simp [plainExternals, serializeRecord, Engine.putRecord, plainHash]
    omega
  have hmax : maxCompressedLen ≤ 256 ^ 4 := by decide
  refine ⟨⟨Nat.zero_lt_succ _, hlsn, rfl, Nat.zero_lt_succ _, rfl, ?_, ?_, ?_, ?_⟩, by omega⟩
  · exact Nat.one_lt_pow (by decide) (by decide)
  · exact Nat.one_lt_pow (by decide) (by decide)
  · simp [Engine.putRecord, plainExternals, plainHash]
  · exact lt_of_lt_of_le (by change val.length < _; omega) hmax

theorem blocks_writeDatAndIndex_singleton {k : Bytes} {r : MemEntry} {val : Bytes}
    (hval : r.value = some val) (hlong : maxBlockDecompressed ≤ val.length) :
    ∀ b ∈ (writeDatAndIndex X [(k, r)]).blocks, maxBlockDecompressed < b.size := by
  have hlen : val.length < serializedLen (k, r) := by
    simp only [serializedLen, hval, Option.getD_some]
    omega
  have htarget : blockTargetBytes ≤ maxBlockDecompressed := by decide
  simp only [writeDatAndIndex, List.foldl_cons, List.foldl_nil, DatBuilder.push]
  rw [if_pos (by omega)]
  simp only [DatBuilder.finish, DatBuilder.flushBlock, if_true, List.nil_append, List.mem_singleton,
    forall_eq, Block.size]
  omega

/-- **A value that does not fit a block** is acknowledged, and it is not there after a flush. -/
theorem not_shows_long {val : Bytes} (hlong : maxBlockDecompressed ≤ val.length)
    (hlt : val.length + 256 ≤ maxCompressedLen) :
    let w₀ := ({} : World).step plainExternals { op := .open {} }
    let w₁ := w₀.step plainExternals { op := .putWithTtl [1] [1] val 0 }
    (w₀.perform plainExternals (.putWithTtl [1] [1] val 0) fun _ => 0).ok = true ∧
      ((w₁.perform plainExternals .flushToSegments fun _ => 0).ok = true →
        ¬ (w₁.step plainExternals { op := .flushToSegments }).Shows plainExternals [1] [1] (some val)) := by
  intro w₀ w₁
  have hrep₀ : w₀.Represents plainExternals fun _ => none := represents_open (by decide)
  obtain ⟨e₀, he₀, hmem, hlsn, hreadonly⟩ : ∃ e₀, w₀.engine = some e₀ ∧ e₀.memtable = .empty ∧
      e₀.lsnCounter = 0 ∧ e₀.config.readonly = false := ⟨_, rfl, rfl, rfl, rfl⟩
  obtain ⟨e, he, hrep⟩ := hrep₀.engine
  obtain rfl : e₀ = e := Option.some.inj (he₀.symm.trans he)
  have hfits : (Engine.putRecord plainExternals (e₀.lsnCounter + 1) (asI64 ((fun _ => 0 : ℕ → ℕ) 0)) 0
      [1] [1] val).Fits plainExternals := fits_putRecord (by rw [hlsn]; decide) hlt
  have hwp : Prog.wp (Engine.putWithTtl (X := plainExternals) [1] [1] val 0)
      ⟨fun _ q _ => ∃ k r, q.state.memtable.entries = [(k, r)] ∧ r.value = some val,
        fun _ _ _ => False, AdmitsEffect plainExternals, fun f _ => f.Fits plainExternals⟩
        ⟨e₀, fun _ => 0⟩ w₀.fs := by
    simp only [Engine.putWithTtl, Engine.checkPut, Prog.wp_bind, Exec.wp_get, Prog.wp_ite, Prog.wp_throw,
      Prog.wp_pure, hreadonly]
    refine Prog.wp_mono (Prog.wp_and (Engine.wp_writeEntry_represents hrep (by decide))
      (Engine.wp_writeEntry_fits hfits)) ?_ (fun _ _ _ h => h.1) (fun _ _ h => ⟨h, trivial⟩)
      fun _ _ _ h => h.2
    rintro _ ⟨e, clock⟩ _ ⟨-, ⟨lsn, wal, hq⟩, -⟩
    cases hq
    exact ⟨_, _, Engine.entries_applied hmem _, rfl⟩
  have heffects : w₀.effects plainExternals { op := .putWithTtl [1] [1] val 0 } =
      ((Engine.putWithTtl (X := plainExternals) [1] [1] val 0).run ⟨e₀, fun _ => 0⟩ w₀.fs).2.2 :=
    (onEngine_some he).1
  have hlog : (disk plainExternals).All (fun f _ => f.IsLog)
      (w₀.effects plainExternals { op := .putWithTtl [1] [1] val 0 }) w₀.fs := by
    rw [heffects]
    exact Prog.wp_guar ((Engine.putWithTtl_frame [1] [1] val 0).wp fun _ _ => True) Device.all_true
  have hall : (disk plainExternals).All (fun f _ => f.Fits plainExternals)
      (w₀.effects plainExternals { op := .putWithTtl [1] [1] val 0 }) w₀.fs := by
    rw [heffects]
    have hput : Prog.wp (Engine.putWithTtl (X := plainExternals) [1] [1] val 0)
        (WritesFit plainExternals fun _ _ _ => True) ⟨e₀, fun _ => 0⟩ w₀.fs :=
      Engine.wp_putWithTtl_fits hfits
    exact Prog.wp_guar hput Device.all_true
  have hadm := admitted_of_fits rfl hall trivial trivial
  obtain ⟨q, hq, ⟨hok, -, k, r, hentries, hval⟩ | ⟨-, -, hfalse⟩⟩ :=
    onEngine_outcome he (all_admitsEffect hrep₀.inv hadm hall) hwp
  · refine ⟨hok, fun hflush => not_shows_of_oversized (e := q.state) hq ?_ ?_ hflush⟩
    · refine Fs.Oversized.run ?_ (hlog.mono fun _ _ h => h.oversized)
      intro id dat hdat
      have hopen : ({} : World).effects plainExternals { op := .open {} } =
          [.walCreate 0, .walHeader 0, .manifestCreate, .manifestHeader, .sync .manifest] := by
        decide +kernel
      have hfs : w₀.fs = (disk plainExternals).run
          (({} : World).effects plainExternals { op := .open {} }) {} :=
        fs_step (c := { op := .open {} }) rfl
      have hsegs : w₀.fs.segs = ({} : Fs).segs := by
        rw [hfs, hopen]
        rfl
      rw [hsegs] at hdat
      cases hdat
    · rw [hentries]
      exact blocks_writeDatAndIndex_singleton hval hlong
  · exact hfalse.elim

/-- **Not everything that is accepted can be read back**: a value that does not fit a block is not. -/
theorem not_readable :
    ¬ ∀ writes : List Call,
      Run.All (World.step plainExternals) (fun w c => c.stop = none ∧ IsWrite c.op ∧
          (w.perform plainExternals c.op c.clock).ok = true)
        (({} : World).step plainExternals { op := .open {} }) writes →
      let w₁ := Run.from (World.step plainExternals)
        (({} : World).step plainExternals { op := .open {} }) writes
      (w₁.perform plainExternals .flushToSegments fun _ => 0).ok = true ∧
        ∀ ns key, ns.length ≤ maxNsLen →
          (w₁.step plainExternals { op := .flushToSegments }).Shows plainExternals ns key
            (writes.foldl (fun s c => c.op.update s) (fun _ => none) (ns, key)) := by
  intro h
  obtain ⟨hput, hshows⟩ := @not_shows_long (List.replicate maxBlockDecompressed 0)
    (by rw [List.length_replicate]) (by rw [List.length_replicate]; decide)
  obtain ⟨hok, hall⟩ := h [{ op := .putWithTtl [1] [1] (List.replicate maxBlockDecompressed 0) 0 }]
    ⟨⟨rfl, trivial, hput⟩, trivial⟩
  refine hshows hok ?_
  have h₁ := hall [1] [1] (by decide)
  rw [List.foldl_cons, List.foldl_nil, Op.update, Function.update_self] at h₁
  exact h₁

end World
