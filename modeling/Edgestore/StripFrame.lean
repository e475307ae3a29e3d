import Edgestore.Engine.Limits
import Edgestore.PrefixScans

/-!
# Strips and what they leave alone

A strip of the text index or the vector index should change no namespace but those of the index, keep
the flags that a segment has, and do nothing when it is repeated. The rewritten segment is put behind all
others, and lookups take the last segment that has a key; its metadata are made anew, without flags; and
what is rewritten are the records that a scan up to 1024 bytes of `0xFF` finds. Where none of this matters,
runs of strips keep all three promises.

## Main definitions

* `Index`, `StripCall`: the two indexes, and a strip of a segment
* `Stripping`: a world, with the segments that were rewritten and those that a strip was called for
* `Engine.StripsCleanly X fs e c`: the rewrites that keep the promises

## Main results

* `Engine.Rewritten.recordsOf_perm`: a rewrite keeps the records of a key
* `Stripping.strips_frame`: runs of strips keep the promises
* `World.strip_hides_overwrite`: a strip after which `get` returns an old value
-/

variable {X : Externals} {R R' : List SegmentId} {fs fs' : Fs}

/-! ### The records behind a rewrite -/

theorem filterMap_perm_of_mem {α β : Type} [DecidableEq α] {l : List α} (hl : l.Nodup) {a : α}
    (ha : a ∈ l) (f : α → Option β) :
    (l.filterMap f).Perm ((l.filter (· ≠ a)).filterMap f ++ (f a).toList) := by
  have hperm : l.Perm (l.filter (· ≠ a) ++ [a]) := by
    have herase : l.filter (· ≠ a) = l.erase a := by
      rw [hl.erase_eq_filter]
      apply List.filter_congr
      intro b _
      by_cases h : b = a <;> simp [h]
    rw [herase]
    exact (List.perm_cons_erase ha).trans (List.perm_append_singleton a _).symm
  have hone : [a].filterMap f = (f a).toList := by
    cases h : f a <;> simp [h]
  rw [← hone, ← List.filterMap_append]
  exact hperm.filterMap f

/-- The records that a strip of a segment keeps. -/
def IndexKind.kept (kind : IndexKind) (fs : Fs) (id : SegmentId) : List (Bytes × MemEntry) :=
  (within [] stripScanKey (fs.segs id).table).filter fun p => kind.keeps p.1

/-- A key of a namespace that is none of the index. -/
def IndexKind.Passes (kind : IndexKind) (k : Bytes) : Prop :=
  ∃ ns key, encodeKey ns key = .ok k ∧ ¬ kind.nsPrefix <+: ns

theorem IndexKind.Passes.keeps {kind : IndexKind} {k : Bytes} (h : kind.Passes k) :
    kind.keeps k = true := by
  obtain ⟨ns, key, hk, hns⟩ := h
  unfold IndexKind.keeps
  rw [decodeKey_encodeKey hk]
  simpa using hns

theorem IndexKind.find_kept (kind : IndexKind) (id : SegmentId) (k : Bytes) :
    find (kind.kept fs id) k =
      if kind.keeps k = true ∧ k < stripScanKey then find (fs.segs id).table k else none := by
  unfold IndexKind.kept within
  rw [find_filter_key fun k => kind.keeps k, find_filter_key fun k => decide ([] ≤ k ∧ k < stripScanKey)]
  have hnil : [] ≤ k := not_lt.mp (List.not_lt_nil k)
  simp only [hnil, true_and, decide_eq_true_eq]
  split_ifs with hkeeps hscan <;> simp_all

namespace Engine.Rewritten

variable {kind : IndexKind} {id : SegmentId} {m : SegmentMeta}

theorem registeredIds_eq (h : Rewritten X kind id m fs fs') :
    registeredIds X fs' = (registeredIds X fs).filter (· ≠ id) ++ [m.segmentId] := by
  rw [registeredIds, h.segments, List.map_append, registeredIds, List.filter_map]
  rfl

/-- The new segment has what the strip keeps. -/
theorem table_eq (h : Rewritten X kind id m fs fs') (hd : DiskInv X fs) :
    (fs'.segs m.segmentId).table = kind.kept fs id := by
  rw [h.table, IndexKind.kept]
  have hstored := (hd.wf id h.old).2.stored
  refine (List.map_congr_left fun p hp => ?_).trans (List.map_id _)
  exact hstored p (List.mem_filter.mp (List.mem_filter.mp hp).1).1

/-- The records of a key: those of the other segments, and behind them that of the new one. -/
theorem recordsOf_rewritten (h : Rewritten X kind id m fs fs') (hd : DiskInv X fs) (k : Bytes) :
    recordsOf X fs' k = recordsIn fs ((registeredIds X fs).filter (· ≠ id)) k ++
      (find (kind.kept fs id) k).toList := by
  have hothers : ∀ j ∈ (registeredIds X fs).filter (· ≠ id), fs'.segs j = fs.segs j := by
    intro j hj
    obtain ⟨hreg, hne⟩ := List.mem_filter.mp hj
    exact h.segs j (by simpa using hne) fun heq => h.fresh (heq ▸ hreg)
  rw [recordsOf_eq, h.registeredIds_eq]
  unfold recordsIn
  rw [List.filterMap_append, List.filterMap_congr fun j hj => by rw [hothers j hj]]
  congr 1
  rw [← h.table_eq hd]
  cases hf : find (fs'.segs m.segmentId).table k <;> simp [hf]

/-- **A rewrite keeps the records** of the keys that pass and that its scan comes to. -/
theorem recordsOf_perm (h : Rewritten X kind id m fs fs') (hd : DiskInv X fs) {k : Bytes}
    (hkeeps : kind.keeps k = true)
    (hscan : ∀ r, find (fs.segs id).table k = some r → k < stripScanKey) :
    (recordsOf X fs k).Perm (recordsOf X fs' k) := by
  have hsame : find (kind.kept fs id) k = find (fs.segs id).table k := by
    rw [kind.find_kept id]
    split_ifs with hcond
    · rfl
    · cases hf : find (fs.segs id).table k with
      | none => rfl
      | some r => exact absurd ⟨hkeeps, hscan r hf⟩ hcond
  rw [h.recordsOf_rewritten hd, hsame, recordsOf_eq]
  exact filterMap_perm_of_mem hd.nodup h.old fun j => find (fs.segs j).table k

/-- A rewrite adds no record. -/
theorem mem_of_mem (h : Rewritten X kind id m fs fs') (hd : DiskInv X fs) {k : Bytes} {r : MemEntry}
    (hr : r ∈ recordsOf X fs' k) : r ∈ recordsOf X fs k := by
  rw [h.recordsOf_rewritten hd] at hr
  rcases List.mem_append.mp hr with hr | hr
  · obtain ⟨j, hj, hfind⟩ := List.mem_filterMap.mp hr
    exact mem_recordsOf.mpr ⟨j, (List.mem_filter.mp hj).1, hfind⟩
  · rw [Option.mem_toList, kind.find_kept id] at hr
    split_ifs at hr
    exact mem_recordsOf.mpr ⟨id, h.old, hr⟩

theorem oneRecordPerLsn (h : Rewritten X kind id m fs fs') (hd : DiskInv X fs)
    (hone : OneRecordPerLsn X fs) : OneRecordPerLsn X fs' :=
  fun k a ha b hb => hone k a (h.mem_of_mem hd ha) b (h.mem_of_mem hd hb)

/-- What the last of the records shows, if the record that is put behind the others shows the same as
the one that was last. -/
theorem getLast?_live (h : Rewritten X kind id m fs fs') (hd : DiskInv X fs) {k : Bytes}
    (hkeeps : kind.keeps k = true)
    (hscan : ∀ r, find (fs.segs id).table k = some r → k < stripScanKey)
    (hlast : ∀ r, find (fs.segs id).table k = some r →
      ∀ r', (recordsOf X fs k).getLast? = some r' → r'.live = r.live) :
    (recordsOf X fs' k).getLast?.bind MemEntry.live = (recordsOf X fs k).getLast?.bind MemEntry.live := by
  have hperm := h.recordsOf_perm hd hkeeps hscan
  cases hf : find (fs.segs id).table k with
  | none =>
    -- the segment has no record of the key, so that its place does not matter
    have hbeside : recordsIn fs ((registeredIds X fs).filter (· ≠ id)) k = recordsOf X fs k := by
      rw [recordsOf_eq]
      unfold recordsIn
      rw [List.filterMap_filter]
      apply List.filterMap_congr
      intro j hj
      by_cases hne : j = id
      · simp [hne, hf]
      · simp [hne]
    rw [h.recordsOf_rewritten hd, hbeside, kind.find_kept id, hf, ite_self]
    simp
  | some r =>
    have hfind : find (kind.kept fs id) k = some r := by
      rw [kind.find_kept id, if_pos ⟨hkeeps, hscan r hf⟩, hf]
    have hne : recordsOf X fs k ≠ [] :=
      List.ne_nil_of_mem (mem_recordsOf.mpr ⟨id, h.old, hf⟩)
    rw [h.recordsOf_rewritten hd, hfind, Option.toList_some, List.getLast?_append, List.getLast?_singleton,
      Option.some_or, Option.bind_some, List.getLast?_eq_some_getLast hne, Option.bind_some]
    exact (hlast r hf _ (List.getLast?_eq_some_getLast hne)).symm

end Engine.Rewritten

/-! ### Reads of the same records -/

theorem isNewest_congr {l l' : List MemEntry} (h : ∀ r, r ∈ l ↔ r ∈ l') {r : MemEntry} :
    IsNewest l r ↔ IsNewest l' r := by
  simp only [IsNewest, h]

namespace Engine

variable {e e' : Engine} {ns : Bytes}

/-- Lookups agree where the memtables do, and the last records of the key show the same. -/
theorem get_eq_of_last (h : StoreInv X R e.segmentStore fs) (h' : StoreInv X R' e'.segmentStore fs')
    (hmem : e'.memtable = e.memtable)
    (hlast : ∀ key k, encodeKey ns key = .ok k → e.memtable.get k = none →
      (recordsOf X fs' k).getLast?.bind MemEntry.live = (recordsOf X fs k).getLast?.bind MemEntry.live)
    (key : Bytes) : e'.get X fs' ns key = e.get X fs ns key := by
  cases hk : encodeKey ns key with
  | error err =>
    unfold Engine.get
    rw [hk]
    rfl
  | ok k =>
    rw [get_eq h hk, get_eq h' hk, hmem]
    cases hm : e.memtable.get k with
    | some r => rfl
    | none =>
      rw [Option.none_or, Option.none_or]
      exact congrArg Except.ok (hlast key k hk hm)

/-- The layer of the segments depends on the records. -/
theorem find_segmentLayer_eq_of_records (h : StoreInv X R e.segmentStore fs)
    (h' : StoreInv X R' e'.segmentStore fs') (hone : OneRecordPerLsn X fs)
    (hone' : OneRecordPerLsn X fs') {k : Bytes}
    (hrec : ∀ r, r ∈ recordsOf X fs' k ↔ r ∈ recordsOf X fs k) (a b : Bytes) :
    find (e'.segmentLayer fs' a b) k = find (e.segmentLayer fs a b) k := by
  by_cases hin : a ≤ k ∧ k < b
  · apply Option.ext
    intro r
    rw [find_segmentLayer_eq_some_iff hone h hin.1 hin.2,
      find_segmentLayer_eq_some_iff hone' h' hin.1 hin.2, isNewest_congr hrec]
  · -- outside the range neither layer has an entry
    have hnone : find (e.segmentLayer fs a b) k = none :=
      find_eq_none_iff.mpr fun p hp heq => hin (heq ▸ segmentLayer_range h p hp)
    have hnone' : find (e'.segmentLayer fs' a b) k = none :=
      find_eq_none_iff.mpr fun p hp heq => hin (heq ▸ segmentLayer_range h' p hp)
    rw [hnone, hnone']

/-- Ranges agree where the memtables and the records do. -/
theorem range_eq_of_records (h : StoreInv X R e.segmentStore fs) (h' : StoreInv X R' e'.segmentStore fs')
    (hmem : e'.memtable = e.memtable) (hone : OneRecordPerLsn X fs) (hone' : OneRecordPerLsn X fs')
    (hrec : ∀ key k, encodeKey ns key = .ok k → ∀ r, r ∈ recordsOf X fs' k ↔ r ∈ recordsOf X fs k)
    (start «end» : Bytes) : e'.range fs' ns start «end» = e.range fs ns start «end» := by
  by_cases hns : ns.length ≤ maxNsLen
  · rw [range_eq_visible h hns, range_eq_visible h' hns]
    apply congrArg Except.ok
    refine (keySorted_visible h' hns).ext (keySorted_visible h hns) fun key => ?_
    rw [find_visible h hns, find_visible h' hns, hmem,
      find_segmentLayer_eq_of_records h h' hone hone' (hrec key _ (encodeKey_eq_encoded hns key))]
  · have herr : ∀ key, encodeKey ns key = .error (.panicked "namespace too long") := by
      intro key
      rw [encodeKey, if_neg hns]
    unfold Engine.range Engine.rangeCore
    rw [herr]
    rfl

end Engine

/-! ### Strips of the two indexes -/

/-- The two indexes. -/
inductive Index
  | text
  | vector
  deriving DecidableEq, Repr

/-- What a strip of the index does. -/
def Index.kind : Index → IndexKind
  | .text => textIndex
  | .vector => vectorIndex

theorem Index.flags (i : Index) : i.kind.Flags := by
  cases i with
  | text => exact textIndex_flags
  | vector => exact vectorIndex_flags

/-- A strip sets the flag of its index. -/
theorem Index.isStripped_setStripped (i j : Index) (m : SegmentMeta) :
    j.kind.isStripped (i.kind.setStripped m) = if j = i then true else j.kind.isStripped m := by
  cases i <;> cases j <;> rfl

/-- A strip of a segment. -/
structure StripCall where
  index : Index
  id : SegmentId
  clock : ℕ → ℕ := fun _ => 0

/-- The call of the engine. -/
def StripCall.call (c : StripCall) : Call where
  op := match c.index with
    | .text => .stripTextIndex c.id
    | .vector => .stripVectorIndex c.id
  clock := c.clock

namespace World

theorem perform_strip (w : World) (c : StripCall) :
    w.perform X c.call.op c.call.clock =
      w.onEngine X c.clock (Engine.stripIndex c.index.kind c.id) := by
  obtain ⟨_ | _, id, clock⟩ := c
  · rfl
  · rfl

/-- The metadata that a strip returns. -/
def returned (X : Externals) (w : World) (c : StripCall) : Option SegmentMeta :=
  w.engine.bind fun e =>
    ((Engine.stripIndex (X := X) c.index.kind c.id).run ⟨e, c.clock⟩ w.fs).1.toOption

end World

namespace Engine

/-- A strip keeps its promises if it rewrites nothing. Else the new segment has to be one its readers
accept; the segment must not have a flag, and as many records as its metadata say; and the records that
pass have to be ones the scan comes to, and show what the last record of their key shows, or the memtable
has the key. -/
structure StripsCleanly (X : Externals) (fs : Fs) (e : Engine) (c : StripCall) : Prop where
  fits : FitsReaders X e.segmentStore.nextSegmentId e.config.cohortWindowSecs
    (c.index.kind.kept fs c.id) (c.clock 0)
  unmarked : ∀ m ∈ registered X fs, m.segmentId = c.id →
    m.textIndexStripped = false ∧ m.vectorIndexStripped = false
  counted : ∀ m ∈ registered X fs, m.segmentId = c.id →
    m.recordCount = (fs.segs c.id).table.length
  inScan : ∀ p ∈ (fs.segs c.id).table, ∀ q ∈ (decodeKey p.1).toOption,
    ¬ c.index.kind.nsPrefix <+: q.1 → p.1 < stripScanKey
  last : ∀ p ∈ (fs.segs c.id).table, ∀ q ∈ (decodeKey p.1).toOption,
    ¬ c.index.kind.nsPrefix <+: q.1 → e.memtable.get p.1 = none →
      ∀ r ∈ (recordsOf X fs p.1).getLast?, r.live = p.2.live

instance (X : Externals) (fs : Fs) (e : Engine) (c : StripCall) :
    Decidable (StripsCleanly X fs e c) :=
  decidable_of_iff
    (FitsReaders X e.segmentStore.nextSegmentId e.config.cohortWindowSecs
        (c.index.kind.kept fs c.id) (c.clock 0) ∧
      (∀ m ∈ registered X fs, m.segmentId = c.id →
        m.textIndexStripped = false ∧ m.vectorIndexStripped = false) ∧
      (∀ m ∈ registered X fs, m.segmentId = c.id → m.recordCount = (fs.segs c.id).table.length) ∧
      (∀ p ∈ (fs.segs c.id).table, ∀ q ∈ (decodeKey p.1).toOption,
        ¬ c.index.kind.nsPrefix <+: q.1 → p.1 < stripScanKey) ∧
      ∀ p ∈ (fs.segs c.id).table, ∀ q ∈ (decodeKey p.1).toOption,
        ¬ c.index.kind.nsPrefix <+: q.1 → e.memtable.get p.1 = none →
          ∀ r ∈ (recordsOf X fs p.1).getLast?, r.live = p.2.live)
    ⟨fun ⟨h₁, h₂, h₃, h₄, h₅⟩ => ⟨h₁, h₂, h₃, h₄, h₅⟩,
      fun ⟨h₁, h₂, h₃, h₄, h₅⟩ => ⟨h₁, h₂, h₃, h₄, h₅⟩⟩

end Engine

/-! ### One strip -/

namespace Engine

variable {e : Engine} {clock : ℕ → ℕ}

/-- Replacing a segment writes the manifest. -/
theorem replaceSegment_fits (id : SegmentId) (m : SegmentMeta) (r : SegmentReader) :
    Exec.Frame (Effect.Fits X) (fun _ => ()) (SegmentStore.replaceSegment (X := X) id m r) := by
  have hentry : ∀ f : ManifestEntry, Exec.Frame (Effect.Fits X) (fun _ => ())
      (Manifest.writeFramedEntry (X := X) f) := fun f =>
    .ite (fun _ => .throw _) fun _ => .bind .get fun _ => .bind (.effect trivial) fun _ =>
      .modify fun _ => rfl
  refine .bind (.zoom (.bind (.forM fun _ _ => hentry _) fun _ => .bind (.effect trivial) fun _ =>
      .modify fun _ => rfl) fun _ _ _ => rfl) fun _ => .bind (.modify fun _ => rfl) fun _ =>
    .bind (.zoom (.bind (hentry _) fun _ => .bind (.effect trivial) fun _ => .modify fun _ => rfl)
      fun _ _ _ => rfl) fun _ => .bind (.modify fun _ => rfl) fun _ => ?_
  exact .forM fun _ _ => .bind .fs fun _ => .ite (fun _ => .effect trivial) fun _ => .pure _

/-- A rewrite of records that fit their readers writes what readers accept. -/
theorem wp_stripIndex_fits (h : Inv X R e fs) {kind : IndexKind} {id : SegmentId}
    (hfits : kind.Rewrites X id fs → FitsReaders X e.segmentStore.nextSegmentId
      e.config.cohortWindowSecs (kind.kept fs id) (clock 0)) :
    Prog.wp (stripIndex (X := X) kind id) (WritesFit X fun _ _ _ => True) ⟨e, clock⟩ fs := by
  by_cases hrewrites : kind.Rewrites X id fs
  case neg =>
    exact Prog.wp_mono (wp_stripIndex_idle h hrewrites) (fun _ _ _ _ => trivial)
      (fun _ _ _ _ => trivial) (fun _ _ _ => trivial) fun _ _ _ he => he.elim
  case pos =>
    have hfit := hfits hrewrites
    simp only [stripIndex, Prog.wp_bind, Exec.wp_get]
    split
    case h_1 => simp
    case h_2 oldMeta hfind =>
      simp only [Prog.wp_ite, Prog.wp_pure]
      split
      case isTrue => trivial
      case isFalse =>
        split
        case h_1 => simp
        case h_2 r hr =>
          obtain ⟨-, img, himg, rfl⟩ := h.store.readerFor hr
          rw [IndexKind.kept, himg, img.table_files] at hfit
          simp only [Prog.wp_bind, Exec.wp_fs, Prog.wp_lift, img.rangeScan_reader himg,
            Prog.result_ok, Prog.wp_ite, Prog.wp_pure]
          split
          case isTrue => trivial
          case isFalse =>
            simp only [onStore, Exec.wp_zoom, SegmentStore.wp_allocSegmentId, Exec.wp_get]
            refine Prog.wp_imp (wp_segmentFlush_fits hfit) ?_ fun _ _ _ h => h
            rintro written q fs₁ -
            -- what is left is to open the new segment and to put it in place
            generalize openReader e.segmentStore.nextSegmentId _ = reader
            cases reader with
            | error err => trivial
            | ok reader =>
              exact Prog.wp_imp (wp_writesFit_of_frame (replaceSegment_fits id _ reader) fun _ hf => hf)
                (fun _ _ _ _ => trivial) fun _ _ _ h => h

end Engine

namespace World

variable {w : World} {e : Engine} {c : StripCall}

theorem step_strip (w : World) (c : StripCall) : w.step X c.call =
    w.land X (w.onEngine X c.clock (Engine.stripIndex c.index.kind c.id)) := by
  unfold step
  rw [perform_strip]
  rfl

/-- A strip with nothing to rewrite leaves the world as it is. -/
theorem step_strip_idle (hw : WorldInv X w) (he : w.engine = some e)
    (hidle : ¬ c.index.kind.Rewrites X c.id w.fs) :
    w.step X c.call = w ∧ ∀ m, w.returned X c = some m → m.segmentId = c.id := by
  have hwp : Prog.wp (Engine.stripIndex (X := X) c.index.kind c.id) _ ⟨e, c.clock⟩ w.fs :=
    Engine.wp_stripIndex_idle (hw.engine e he) hidle
  -- without effects there is nothing that the directory could rely on
  have heffects : ((Engine.stripIndex (X := X) c.index.kind c.id).run ⟨e, c.clock⟩ w.fs).2.2 = [] := by
    have hall := Prog.wp_guar hwp Device.all_true
    generalize ((Engine.stripIndex (X := X) c.index.kind c.id).run ⟨e, c.clock⟩ w.fs).2.2 = es at hall
    cases es with
    | nil => rfl
    | cons f es => exact hall.1.elim
  have hres := Prog.wp_result hwp Device.all_true
  rw [step_strip, returned, he]
  unfold land onEngine
  simp only [he, Option.bind_some]
  generalize (Engine.stripIndex (X := X) c.index.kind c.id).run ⟨e, c.clock⟩ w.fs = r at heffects hres
  obtain ⟨_ | m, ⟨e', clock'⟩, es⟩ := r
  · obtain ⟨rfl, -⟩ := hres
    subst heffects
    obtain ⟨fs, engine, flights, acked⟩ := w
    cases he
    exact ⟨rfl, nofun⟩
  · obtain ⟨hid, rfl, -⟩ := hres
    subst heffects
    obtain ⟨fs, engine, flights, acked⟩ := w
    cases he
    refine ⟨?_, fun m' hm => ?_⟩
    · simp [appendedRecords, Device.run]
    · cases hm
      exact hid

/-- A strip that rewrites a segment. -/
theorem step_strip_rewrites (hw : WorldInv X w) (he : w.engine = some e)
    (hrewrites : c.index.kind.Rewrites X c.id w.fs)
    (hfits : FitsReaders X e.segmentStore.nextSegmentId e.config.cohortWindowSecs
      (c.index.kind.kept w.fs c.id) (c.clock 0)) :
    ∃ e' m, (w.step X c.call).engine = some e' ∧ w.returned X c = some m ∧
      WorldInv X (w.step X c.call) ∧
      Engine.Rewritten X c.index.kind c.id m w.fs (w.step X c.call).fs ∧
      e.segmentStore.nextSegmentId ≤ m.segmentId ∧ e'.memtable = e.memtable := by
  have hinv := hw.engine e he
  have hlim : (disk X).All (WithinLimits X)
      ((Engine.stripIndex (X := X) c.index.kind c.id).run ⟨e, c.clock⟩ w.fs).2.2 w.fs :=
    (Prog.wp_guar (Engine.wp_stripIndex_fits hinv fun _ => hfits) Device.all_true).mono
      fun f d hf => hf.withinLimits
  have hadm : w.Admitted X c.call := by
    refine ⟨rfl, ?_, ?_, ?_⟩
    · change (disk X).All _ (w.perform X c.call.op c.call.clock).effects w.fs
      rw [perform_strip, onEngine]
      simp only [he]
      generalize (Engine.stripIndex (X := X) c.index.kind c.id).run ⟨e, c.clock⟩ w.fs = r at hlim
      obtain ⟨_ | m, q, es⟩ := r
      · exact hlim
      · exact hlim
    · obtain ⟨_ | _, id, clock⟩ := c <;> trivial
    · obtain ⟨_ | _, id, clock⟩ := c <;> trivial
  have hw' := hw.step hadm
  have hrun := fsInv_run (L := fun _ _ => True) hw.fs (fun f hf => mem_idsOf hf)
    (wp_rely (Engine.wp_stripIndex_rewrites c.index.flags hinv hrewrites :
      Prog.wp (Engine.stripIndex (X := X) c.index.kind c.id) _ ⟨e, c.clock⟩ w.fs)) hlim Device.all_true
  rw [step_strip] at hw' ⊢
  rw [returned, he]
  unfold land onEngine at hw' ⊢
  simp only [he, Option.bind_some] at hw' ⊢
  generalize (Engine.stripIndex (X := X) c.index.kind c.id).run ⟨e, c.clock⟩ w.fs = r at hrun hw' ⊢
  obtain ⟨_ | m, ⟨e', clock'⟩, es⟩ := r
  · exact hrun.2.2.elim
  · obtain ⟨-, -, -, hrewritten, hnext, hstate⟩ := hrun
    refine ⟨e', m, rfl, rfl, hw', hrewritten, hnext, ?_⟩
    change e' = _ at hstate
    rw [hstate]

end World

/-! ### Runs of strips -/

/-- What is noted of a segment is noted of the segment that replaces it, too. -/
def handOver (old new : SegmentId) (l : List (SegmentId × Index)) : List (SegmentId × Index) :=
  l ++ (l.filter fun p => p.1 = old).map fun p => (new, p.2)

theorem mem_handOver {old new id : SegmentId} {i : Index} {l : List (SegmentId × Index)} :
    (id, i) ∈ handOver old new l ↔ (id, i) ∈ l ∨ id = new ∧ (old, i) ∈ l := by
  unfold handOver
  simp only [List.mem_append, List.mem_map, List.mem_filter, decide_eq_true_eq, Prod.exists,
    Prod.mk.injEq]
  constructor
  · rintro (h | ⟨a, j, ⟨hmem, rfl⟩, rfl, rfl⟩)
    · exact .inl h
    · exact .inr ⟨rfl, hmem⟩
  · rintro (h | ⟨rfl, h⟩)
    · exact .inl h
    · exact .inr ⟨old, i, ⟨h, rfl⟩, rfl, rfl⟩

/-- A world, with the segments that were rewritten without the records of an index, and the segments that
a strip of an index was called for. -/
structure Stripping where
  world : World
  stripped : List (SegmentId × Index)
  called : List (SegmentId × Index)

namespace Stripping

/-- The segments that have a flag. -/
def flagged (X : Externals) (fs : Fs) : List (SegmentId × Index) :=
  (registered X fs).flatMap fun m =>
    ([Index.text, Index.vector].filter fun i => i.kind.isStripped m).map fun i => (m.segmentId, i)

/-- A world before its first strip. -/
def start (X : Externals) (w : World) : Stripping := ⟨w, flagged X w.fs, []⟩

/-- Make a strip, and note what it was for. -/
def step (X : Externals) (s : Stripping) (c : StripCall) : Stripping :=
  let new := ((s.world.returned X c).map SegmentMeta.segmentId).getD c.id
  { world := s.world.step X c.call
    stripped := if new = c.id then s.stripped else handOver c.id new s.stripped ++ [(new, c.index)]
    called :=
      if c.id ∈ registeredIds X s.world.fs then
        handOver c.id new s.called ++ [(c.id, c.index), (new, c.index)]
      else s.called }

/-- A strip rewrites nothing, or keeps its promises. -/
def Ok (X : Externals) (s : Stripping) (c : StripCall) : Prop :=
  c.index.kind.Rewrites X c.id s.world.fs →
    ∀ e ∈ s.world.engine, e.StripsCleanly X s.world.fs c

instance (X : Externals) (s : Stripping) (c : StripCall) : Decidable (s.Ok X c) :=
  inferInstanceAs (Decidable (_ → _))

/-- The invariant of runs of strips: what has been noted is so. -/
structure Inv (X : Externals) (e₀ : Engine) (s : Stripping) : Prop where
  world : WorldInv X s.world
  one : OneRecordPerLsn X s.world.fs
  stripped : ∀ m ∈ registered X s.world.fs, ∀ i, (m.segmentId, i) ∈ s.stripped →
    i.kind.isStripped m = true
  called : ∀ id i, (id, i) ∈ s.called → ¬ i.kind.Rewrites X id s.world.fs
  engine : ∃ e, s.world.engine = some e ∧ e.memtable = e₀.memtable ∧
    (∀ id i, (id, i) ∈ s.stripped → id < e.segmentStore.nextSegmentId) ∧
    ∀ id i, (id, i) ∈ s.called → id < e.segmentStore.nextSegmentId

end Stripping

namespace Engine.Rewritten

variable {i j : Index} {id : SegmentId} {m : SegmentMeta}

/-- The segments that were not touched are rewritten by the same strips. -/
theorem rewrites_of_ne (h : Rewritten X i.kind id m fs fs') {k : SegmentId} (hk : k ≠ id)
    (hm : k ≠ m.segmentId) (hr : j.kind.Rewrites X k fs') : j.kind.Rewrites X k fs := by
  obtain ⟨m', hm', rfl, hflag, hkept⟩ := hr
  rw [h.segments] at hm'
  rcases List.mem_append.mp hm' with hold | hnew
  · refine ⟨m', (List.mem_filter.mp hold).1, rfl, hflag, ?_⟩
    rwa [← h.segs _ hk hm]
  · rw [List.mem_singleton.mp hnew] at hm
    exact absurd rfl hm

/-- The segment that was replaced is gone. -/
theorem not_rewrites_old (h : Rewritten X i.kind id m fs fs') : ¬ j.kind.Rewrites X id fs' := by
  rintro ⟨m', hm', hid, -⟩
  have hreg : id ∈ registeredIds X fs' := hid ▸ mem_registeredIds hm'
  rw [h.registeredIds_eq] at hreg
  rcases List.mem_append.mp hreg with hold | hnew
  · simp at hold
  · exact h.fresh (List.mem_singleton.mp hnew ▸ h.old)

theorem isStripped_new (h : Rewritten X i.kind id m fs fs') : i.kind.isStripped m = true := by
  obtain ⟨newId, window, bucket, nanos, rfl⟩ := h.made
  rw [Index.isStripped_setStripped, if_pos rfl]

theorem recordCount_new (h : Rewritten X i.kind id m fs fs') :
    m.recordCount = (i.kind.kept fs id).length := by
  obtain ⟨newId, window, bucket, nanos, hmade⟩ := h.made
  obtain ⟨t, v, hflags⟩ := i.flags (segmentMetaFor X newId window (i.kind.kept fs id)
    (writeDatAndIndex X (i.kind.kept fs id)) bucket nanos)
  rw [hmade]
  change (i.kind.setStripped (segmentMetaFor X newId window (i.kind.kept fs id)
    (writeDatAndIndex X (i.kind.kept fs id)) bucket nanos)).recordCount = _
  rw [hflags]
  rfl

theorem eq_of_registered (h : Rewritten X i.kind id m fs fs') {m' : SegmentMeta}
    (hm' : m' ∈ registered X fs') (hid : m'.segmentId = m.segmentId) : m' = m := by
  rw [h.segments] at hm'
  rcases List.mem_append.mp hm' with hold | hnew
  · exact absurd (hid ▸ mem_registeredIds (List.mem_filter.mp hold).1) h.fresh
  · exact List.mem_singleton.mp hnew

/-- What another strip would have left as it was, it leaves as it is in the new segment. -/
theorem not_rewrites_new (h : Rewritten X i.kind id m fs fs') (hd : DiskInv X fs)
    (hunmarked : ∀ m ∈ registered X fs, m.segmentId = id →
      m.textIndexStripped = false ∧ m.vectorIndexStripped = false)
    (hcounted : ∀ m ∈ registered X fs, m.segmentId = id →
      m.recordCount = (fs.segs id).table.length)
    (hidle : ¬ j.kind.Rewrites X id fs) : ¬ j.kind.Rewrites X m.segmentId fs' := by
  rintro ⟨m', hm', hid, -, hcount, hne⟩
  obtain rfl := h.eq_of_registered hm' hid
  rw [h.table_eq hd] at hcount hne
  rw [h.recordCount_new] at hcount
  obtain ⟨m₀, hm₀, hid₀⟩ := List.mem_map.mp h.old
  have hflag : j.kind.isStripped m₀ = false := by
    obtain ⟨ht, hv⟩ := hunmarked m₀ hm₀ hid₀
    cases j with
    | text => exact ht
    | vector => exact hv
  -- the strip found nothing to keep, or everything
  have hcases : j.kind.kept fs id = [] ∨ (j.kind.kept fs id).length = (fs.segs id).table.length := by
    by_contra hnot
    obtain ⟨hnil, hlen⟩ := not_or.mp hnot
    refine hidle ⟨m₀, hm₀, hid₀, hflag, ?_, hnil⟩
    rw [hcounted m₀ hm₀ hid₀]
    exact hlen
  have hsub : ∀ p ∈ i.kind.kept fs id, p ∈ (fs.segs id).table := fun p hp =>
    (List.mem_filter.mp (List.mem_filter.mp hp).1).1
  rcases hcases with hnil | hall
  · apply hne
    apply List.eq_nil_iff_forall_not_mem.mpr
    intro p hp
    obtain ⟨hin, hkeeps⟩ := List.mem_filter.mp hp
    obtain ⟨hkept, hscan⟩ := List.mem_filter.mp hin
    have hmem : p ∈ j.kind.kept fs id :=
      List.mem_filter.mpr ⟨List.mem_filter.mpr ⟨hsub p hkept, hscan⟩, hkeeps⟩
    rw [hnil] at hmem
    cases hmem
  · have hevery : ∀ p ∈ (fs.segs id).table, p.1 < stripScanKey ∧ j.kind.keeps p.1 = true := by
      intro p hp
      have hsublist : (j.kind.kept fs id).Sublist (fs.segs id).table :=
        List.filter_sublist.trans List.filter_sublist
      rw [← hsublist.eq_of_length hall] at hp
      obtain ⟨hin, hkeeps⟩ := List.mem_filter.mp hp
      obtain ⟨-, hscan⟩ := List.mem_filter.mp hin
      exact ⟨(of_decide_eq_true hscan).2, hkeeps⟩
    apply hcount
    congr 1
    unfold within
    rw [List.filter_filter]
    apply List.filter_eq_self.mpr
    intro p hp
    obtain ⟨hlt, hkeeps⟩ := hevery p (hsub p hp)
    have hnil : [] ≤ p.1 := not_lt.mp (List.not_lt_nil p.1)
    simp [hlt, hkeeps, hnil]

end Engine.Rewritten

namespace Stripping

variable {e₀ : Engine} {s : Stripping} {c : StripCall}

/-- **A strip that rewrites nothing** keeps the invariant, and the world. -/
theorem Inv.step_idle (h : Inv X e₀ s) (hidle : ¬ c.index.kind.Rewrites X c.id s.world.fs) :
    Inv X e₀ (s.step X c) ∧ (s.step X c).world = s.world := by
  obtain ⟨e, he, hmem, hstripped, hcalled⟩ := h.engine
  obtain ⟨hworld, hreturned⟩ := World.step_strip_idle h.world he hidle
  have hnew : ((s.world.returned X c).map SegmentMeta.segmentId).getD c.id = c.id := by
    cases hr : s.world.returned X c with
    | none => rfl
    | some m => exact hreturned m hr
  have hstep : (s.step X c).world = s.world := hworld
  have hsame : (s.step X c).stripped = s.stripped := by
    unfold step
    dsimp only
    rw [hnew, if_pos rfl]
  -- what is noted anew are strips of segments that are there
  have hnoted : ∀ id i, (id, i) ∈ (s.step X c).called →
      (id, i) ∈ s.called ∨ c.id ∈ registeredIds X s.world.fs ∧ id = c.id ∧ i = c.index := by
    intro id i hin
    unfold step at hin
    dsimp only at hin
    rw [hnew] at hin
    split_ifs at hin with hreg
    · rcases List.mem_append.mp hin with hin | hin
      · rcases mem_handOver.mp hin with hbefore | ⟨rfl, hbefore⟩
        · exact .inl hbefore
        · exact .inl hbefore
      · exact .inr ⟨hreg, by simpa using hin⟩
    · exact .inl hin
  refine ⟨⟨?_, ?_, ?_, ?_, e, ?_, hmem, ?_, ?_⟩, hstep⟩
  · rw [hstep]
    exact h.world
  · rw [hstep]
    exact h.one
  · rw [hstep, hsame]
    exact h.stripped
  · rw [hstep]
    intro id i hin
    rcases hnoted id i hin with hin | ⟨-, rfl, rfl⟩
    · exact h.called id i hin
    · exact hidle
  · rw [hstep]
    exact he
  · rw [hsame]
    exact hstripped
  · intro id i hin
    rcases hnoted id i hin with hin | ⟨hreg, rfl, -⟩
    · exact hcalled id i hin
    · exact (h.world.engine e he).store.next _ hreg

/-- **A rewrite** that keeps its promises keeps the invariant. -/
theorem Inv.step_rewrites (h : Inv X e₀ s) (hrewrites : c.index.kind.Rewrites X c.id s.world.fs)
    (hok : s.Ok X c) :
    Inv X e₀ (s.step X c) ∧ ∃ e m, s.world.engine = some e ∧ e.StripsCleanly X s.world.fs c ∧
      Engine.Rewritten X c.index.kind c.id m s.world.fs (s.step X c).world.fs := by
  obtain ⟨e, he, hmem, hstripped, hcalled⟩ := h.engine
  have hclean := hok hrewrites e he
  obtain ⟨e', m, he', hreturned, hworld, hm, hnext, hmem'⟩ :=
    World.step_strip_rewrites h.world he hrewrites hclean.fits
  have hd := h.world.fs.disk
  have hstore := (h.world.engine e he).store
  have hreg' : m.segmentId ∈ registeredIds X (s.step X c).world.fs := by
    change _ ∈ registeredIds X (s.world.step X c.call).fs
    rw [hm.registeredIds_eq]
    simp
  have hlt : m.segmentId < e'.segmentStore.nextSegmentId := (hworld.engine e' he').store.next _ hreg'
  have hgrows : e.segmentStore.nextSegmentId ≤ e'.segmentStore.nextSegmentId := hnext.trans hlt.le
  have hne : m.segmentId ≠ c.id := fun heq => hm.fresh (heq ▸ hm.old)
  have hmemStripped : ∀ id i, (id, i) ∈ (s.step X c).stripped →
      (id, i) ∈ s.stripped ∨ id = m.segmentId ∧ ((c.id, i) ∈ s.stripped ∨ i = c.index) := by
    intro id i hin
    unfold step at hin
    simp only [hreturned, Option.map_some, Option.getD_some, if_neg hne] at hin
    rcases List.mem_append.mp hin with hin | hin
    · exact (mem_handOver.mp hin).imp_right fun hnew => ⟨hnew.1, .inl hnew.2⟩
    · obtain ⟨rfl, rfl⟩ : id = m.segmentId ∧ i = c.index := by simpa using hin
      exact .inr ⟨rfl, .inr rfl⟩
  have hmemCalled : ∀ id i, (id, i) ∈ (s.step X c).called →
      (id, i) ∈ s.called ∨ id = m.segmentId ∧ ((c.id, i) ∈ s.called ∨ i = c.index) ∨ id = c.id := by
    intro id i hin
    unfold step at hin
    simp only [hreturned, Option.map_some, Option.getD_some, if_pos hm.old] at hin
    rcases List.mem_append.mp hin with hin | hin
    · exact (mem_handOver.mp hin).imp_right fun hnew => .inl ⟨hnew.1, .inl hnew.2⟩
    · rcases List.mem_cons.mp hin with hin | hin
      · exact .inr (.inr (Prod.mk.inj hin).1)
      · obtain ⟨rfl, rfl⟩ : id = m.segmentId ∧ i = c.index := by simpa using hin
        exact .inr (.inl ⟨rfl, .inr rfl⟩)
  refine ⟨⟨hworld, hm.oneRecordPerLsn hd h.one, ?_, ?_, e', he', hmem'.trans hmem, ?_, ?_⟩,
    e, m, he, hclean, hm⟩
  · -- flags
    intro m' hm' i hin
    have hm'' := hm'
    rw [show (s.step X c).world.fs = (s.world.step X c.call).fs from rfl, hm.segments] at hm''
    rcases hmemStripped _ i hin with hold | ⟨hid, hnew⟩
    · rcases List.mem_append.mp hm'' with hother | hself
      · exact h.stripped m' (List.mem_filter.mp hother).1 i hold
      · -- the id of the new segment has not been in use
        rw [List.mem_singleton.mp hself] at hold
        exact absurd (hstripped _ i hold) (not_lt.mpr hnext)
    · obtain rfl := hm.eq_of_registered hm' hid
      rcases hnew with hbefore | rfl
      · -- the segment that was replaced had no flag
        obtain ⟨m₀, hm₀, hid₀⟩ := List.mem_map.mp hm.old
        obtain ⟨ht, hv⟩ := hclean.unmarked m₀ hm₀ hid₀
        have hflag := h.stripped m₀ hm₀ i (hid₀ ▸ hbefore)
        cases i with
        | text => exact absurd (ht.symm.trans hflag) (by simp)
        | vector => exact absurd (hv.symm.trans hflag) (by simp)
      · exact hm.isStripped_new
  · -- repetitions
    intro id i hin
    rcases hmemCalled id i hin with hold | ⟨rfl, hnew⟩ | rfl
    · by_cases hid : id = c.id
      · rw [hid]
        exact hm.not_rewrites_old
      · have hfresh : id ≠ m.segmentId := fun heq =>
          absurd (hcalled id i hold) (not_lt.mpr (heq ▸ hnext))
        exact fun hr => h.called id i hold (hm.rewrites_of_ne hid hfresh hr)
    · rcases hnew with hbefore | rfl
      · exact hm.not_rewrites_new hd hclean.unmarked hclean.counted (h.called c.id i hbefore)
      · rintro ⟨m', hm', hid, hflag, -⟩
        obtain rfl := hm.eq_of_registered hm' hid
        rw [hm.isStripped_new] at hflag
        cases hflag
    · exact hm.not_rewrites_old
  · intro id i hin
    rcases hmemStripped id i hin with hold | ⟨rfl, -⟩
    · exact (hstripped id i hold).trans_le hgrows
    · exact hlt
  · intro id i hin
    rcases hmemCalled id i hin with hold | ⟨rfl, -⟩ | rfl
    · exact (hcalled id i hold).trans_le hgrows
    · exact hlt
    · exact (hstore.next _ hm.old).trans_le hgrows

/-- **A strip that is in order** keeps the invariant. -/
theorem Inv.step (h : Inv X e₀ s) (hok : s.Ok X c) : Inv X e₀ (s.step X c) := by
  by_cases hrewrites : c.index.kind.Rewrites X c.id s.world.fs
  · exact (h.step_rewrites hrewrites hok).1
  · exact (h.step_idle hrewrites).1

end Stripping

namespace Stripping

variable {e₀ : Engine} {s : Stripping} {c : StripCall}

/-- A state shows the same of a namespace as a world did: its keys have the same records, and the last of
them shows the same wherever the memtable does not have the key. -/
def Shows (X : Externals) (w₀ : World) (e₀ : Engine) (ns : Bytes) (s : Stripping) : Prop :=
  ∀ key k, encodeKey ns key = .ok k →
    (∀ r, r ∈ recordsOf X s.world.fs k ↔ r ∈ recordsOf X w₀.fs k) ∧
    (e₀.memtable.get k = none → (recordsOf X s.world.fs k).getLast?.bind MemEntry.live =
      (recordsOf X w₀.fs k).getLast?.bind MemEntry.live)

/-- A strip of an index shows the same of the namespaces that are none of the index. -/
theorem Shows.step {w₀ : World} {ns : Bytes} (hs : s.Shows X w₀ e₀ ns) (h : Inv X e₀ s)
    (hok : s.Ok X c) (hns : ¬ c.index.kind.nsPrefix <+: ns) : (s.step X c).Shows X w₀ e₀ ns := by
  by_cases hrewrites : c.index.kind.Rewrites X c.id s.world.fs
  case neg =>
    unfold Shows
    rw [(h.step_idle hrewrites).2]
    exact hs
  case pos =>
    obtain ⟨-, e, m, he, hclean, hm⟩ := h.step_rewrites hrewrites hok
    have hd := h.world.fs.disk
    obtain ⟨e', he', hmem, -⟩ := h.engine
    obtain rfl : e = e' := Option.some.inj (he.symm.trans he')
    intro key k hk
    obtain ⟨hrecords, hlast⟩ := hs key k hk
    have hkeeps : c.index.kind.keeps k = true := IndexKind.Passes.keeps ⟨ns, key, hk, hns⟩
    have hdecoded : (ns, key) ∈ (decodeKey k).toOption := by
      rw [decodeKey_encodeKey hk]
      rfl
    have hscan : ∀ r, find (s.world.fs.segs c.id).table k = some r → k < stripScanKey := fun r hr =>
      hclean.inScan (k, r) (mem_of_find hr) (ns, key) hdecoded hns
    constructor
    · intro r
      rw [← hrecords r]
      exact (hm.recordsOf_perm hd hkeeps hscan).symm.mem_iff
    · intro hnone
      rw [← hlast hnone]
      refine hm.getLast?_live hd hkeeps hscan fun r hr r' hr' => ?_
      exact hclean.last (k, r) (mem_of_find hr) (ns, key) hdecoded hns (hmem ▸ hnone) r' hr'

/-- **Strips are frames**: after every run of strips that are in order, the reads of the namespaces that
are of no index that was stripped return what they returned before; the segments have the flags of all the
indexes that they, or the segments that they replace, were rewritten without; and the strips that were made
change nothing when they are repeated, on the segment they were made on or on the one that replaces it. -/
theorem strips_frame {w : World} {e : Engine} (hw : WorldInv X w) (he : w.engine = some e)
    (hone : OneRecordPerLsn X w.fs) {calls : List StripCall}
    (h : Run.All (step X) (Ok X) (start X w) calls) :
    let s := Run.from (step X) (start X w) calls
    (∀ ns, (∀ c ∈ calls, ¬ c.index.kind.nsPrefix <+: ns) →
      (∀ key, s.world.get X ns key = w.get X ns key) ∧
      ∀ start «end», s.world.range ns start «end» = w.range ns start «end») ∧
    (∀ m ∈ registered X s.world.fs, ∀ i, (m.segmentId, i) ∈ s.stripped →
      i.kind.isStripped m = true) ∧
    ∀ c : StripCall, (c.id, c.index) ∈ s.called → s.world.step X c.call = s.world := by
  intro s
  have hstart : Inv X e (start X w) := by
    refine ⟨hw, hone, fun m hm i hin => ?_, nofun, e, he, rfl, fun id i hin => ?_, nofun⟩
    · obtain ⟨m', hm', hin⟩ := List.mem_flatMap.mp hin
      obtain ⟨j, hj, heq⟩ := List.mem_map.mp hin
      obtain ⟨hid, rfl⟩ := Prod.mk.inj heq
      obtain rfl : m' = m := List.inj_on_of_nodup_map hw.fs.disk.nodup hm' hm hid
      exact (List.mem_filter.mp hj).2
    · obtain ⟨m', hm', hin⟩ := List.mem_flatMap.mp hin
      obtain ⟨j, -, heq⟩ := List.mem_map.mp hin
      obtain ⟨rfl, -⟩ := Prod.mk.inj heq
      exact (hw.engine e he).store.next _ (mem_registeredIds hm')
  have hinv : Inv X e s := h.invariant (fun s c hs hc => hs.step hc) hstart
  obtain ⟨e', he', hmem, -⟩ := hinv.engine
  refine ⟨fun ns hns => ?_, hinv.stripped, fun c hin => ?_⟩
  · have hshows : s.Shows X w e ns := by
      refine ((h.and_mem hns).invariant (I := fun s => Inv X e s ∧ s.Shows X w e ns) ?_
        ⟨hstart, fun key k hk => ⟨fun r => Iff.rfl, fun _ => rfl⟩⟩).2
      rintro s c ⟨hs, hshow⟩ ⟨hok, hpre⟩
      exact ⟨hs.step hok, hshow.step hs hok hpre⟩
    have hstore := (hw.engine e he).store
    have hstore' := (hinv.world.engine e' he').store
    constructor
    · intro key
      unfold World.get
      rw [he, he']
      exact congrArg some (Engine.get_eq_of_last hstore hstore' hmem
        (fun key k hk hnone => (hshows key k hk).2 hnone) key)
    · intro start «end»
      unfold World.range
      rw [he, he']
      exact congrArg some (Engine.range_eq_of_records hstore hstore' hmem hone hinv.one
        (fun key k hk => (hshows key k hk).1) start «end»)
  · exact (World.step_strip_idle hinv.world he' (hinv.called c.id c.index hin)).1

/-- A segment with records of the text index, of the vector index and of a namespace, and a segment with
records of the text index only. -/
def mixedRun : List Call :=
  [{ op := .open {} }, { op := .put textIndex.nsPrefix [1] [20] }, { op := .put [1] [7] [10] },
    { op := .put vectorIndex.nsPrefix [2] [30] }, { op := .flushToSegments },
    { op := .put textIndex.nsPrefix [3] [40] }, { op := .flushToSegments }]

/-- Strips of the text index, one of them repeated. -/
def textStrips : List StripCall := [⟨.text, 0, fun _ => 0⟩, ⟨.text, 1, fun _ => 0⟩, ⟨.text, 2, fun _ => 0⟩]

theorem strips_frame_textStrips :
    let w := Run.from (World.step plainExternals) {} mixedRun
    let s := Run.from (step plainExternals) (start plainExternals w) textStrips
    s.world.get plainExternals [1] [7] = w.get plainExternals [1] [7] ∧
      s.world.range vectorIndex.nsPrefix [] [9] = w.range vectorIndex.nsPrefix [] [9] := by
  intro w s
  obtain ⟨hw, hord⟩ := @World.inLsnOrder_of_registersInOrder plainExternals mixedRun (by decide +kernel)
  obtain ⟨e, he⟩ : ∃ e, w.engine = some e := Option.isSome_iff_exists.mp (by decide +kernel)
  obtain ⟨hreads, -, -⟩ := strips_frame hw he (.of_inLsnOrder hord)
    (show Run.All (step plainExternals) (Ok plainExternals) (start plainExternals w) textStrips by
      decide +kernel)
  exact ⟨(hreads [1] (by decide)).1 [7], (hreads vectorIndex.nsPrefix (by decide)).2 [] [9]⟩

end Stripping

/-! ### Strips that are no frames -/

/-- **A strip that is no frame**: a segment with a record of the text index has been overtaken by a newer
one, and after its strip `get` returns the old value of a key of another namespace. And a segment that is
stripped of the text index and then of the vector index reports only the second. -/
theorem World.strip_hides_overwrite :
    let w := Run.from (World.step plainExternals) {} (World.stripRun.take 6)
    let twice := Run.from (World.step plainExternals) {} (Stripping.mixedRun.take 5 ++
      [{ op := .stripTextIndex 0 }, { op := .stripVectorIndex 1 }])
    w.get plainExternals [1] [7] = some (.ok (some [12])) ∧
      (w.step plainExternals { op := .stripTextIndex 0 }).get plainExternals [1] [7] =
        some (.ok (some [10])) ∧
      (registered plainExternals twice.fs).map
        (fun m => (m.textIndexStripped, m.vectorIndexStripped)) = [(false, true)] := by
  decide +kernel
