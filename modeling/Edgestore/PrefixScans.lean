import Edgestore.Pagination
import Edgestore.RangeReference

/-!
# Prefix scans against range scans

A prefix scan should return what a scan of the whole namespace returns for the keys with the prefix. It
does, unless the encoded prefix has no upper bound: then the namespace has the greatest length there
is, and both it and the prefix are nothing but `0xFF`. Of such a prefix only the memtable is read.

## Main definitions

* `Engine.PrefixAgrees`: a prefix scan returns what a scan of the namespace returns for the prefix
* `Unbounded ns p`: the encoded prefix has no upper bound
* `Engine.MemtableShows`: what is visible of a prefix is in the memtable

## Main results

* `Engine.prefixAgrees_iff`: when a prefix scan agrees with the range scans
* `Engine.unbounded_prefix_misses`: a prefix scan that misses a key in a segment
-/

variable {X : Externals} {R : List SegmentId} {fs : Fs}

/-! ### Prefixes without an upper bound -/

/-- The namespace has the greatest length there is, and it and the prefix are nothing but `0xFF`. -/
def Unbounded (ns p : Bytes) : Prop := ns.length = maxNsLen ∧ ∀ b ∈ ns ++ p, b = 255

/-- The bytes of the length of a namespace are nothing but `0xFF` if it is the greatest there is. -/
theorem lengthBytes_eq_max_iff {n : ℕ} (hn : n ≤ maxNsLen) :
    (∀ b ∈ beBytes 2 n, b = 255) ↔ n = maxNsLen := by
  have hmax : beBytes 2 maxNsLen = List.replicate 2 255 := rfl
  constructor
  · intro h
    -- the bytes of the length are those of the greatest length
    have hbytes : beBytes 2 n = beBytes 2 maxNsLen := by
      rw [hmax]
      exact List.eq_replicate_iff.mpr ⟨by simp, h⟩
    have hnat := congrArg ofBe hbytes
    have hlt : maxNsLen < 256 ^ 2 := Nat.lt_succ_self maxNsLen
    rwa [ofBe_beBytes_of_lt (hn.trans_lt hlt), ofBe_beBytes_of_lt hlt] at hnat
  · intro h b hb
    rw [h, hmax] at hb
    exact List.eq_of_mem_replicate hb

theorem prefixUpperBound_encoded_eq_none {ns p : Bytes} (hns : ns.length ≤ maxNsLen) :
    prefixUpperBound (encoded ns p) = none ↔ Unbounded ns p := by
  rw [prefixUpperBound_eq_none, encoded, List.append_assoc, Unbounded, ← lengthBytes_eq_max_iff hns]
  simp only [List.mem_append]
  constructor
  · intro h
    exact ⟨fun b hb => h b (.inl hb), fun b hb => h b (.inr hb)⟩
  · rintro ⟨hhead, htail⟩ b (hb | hb)
    · exact hhead b hb
    · exact htail b hb

/-! ### What the segments show of a key -/

/-- Whether an entry shows under another layer depends on the entries that win. -/
theorem live_pick_iff {s m : Option MemEntry} :
    m.bind MemEntry.live = (pick MemEntry.lsn s m).bind MemEntry.live ↔
      ∀ r, s = some r →
        (m.bind MemEntry.live = r.live ∨ ∃ m', m = some m' ∧ r.lsn < m'.lsn) := by
  cases s with
  | none => simp [pick]
  | some r =>
    cases m with
    | none => simp [pick]
    | some m =>
      rw [pick]
      split
      case isTrue hlt => simp [hlt]
      case isFalse hge => simp [hge]

namespace Engine

variable {e : Engine} {ns p : Bytes}

/-- **A range of the segments** shows the newest record of each of its keys, unless that is a tombstone. -/
theorem find_segmentLayer_eq_some_iff (hone : OneRecordPerLsn X fs)
    (h : StoreInv X R e.segmentStore fs) {a b k : Bytes} (ha : a ≤ k) (hb : k < b) {r : MemEntry} :
    find (e.segmentLayer fs a b) k = some r ↔
      IsNewest (recordsOf X fs k) r ∧ r.op ≠ .delete := by
  obtain ⟨l, hl, heq⟩ := segmentLayer_eq h a b
  rw [heq, hl.sorted.find_filter]
  constructor
  · intro hfind
    obtain ⟨hfound, hop⟩ := Option.filter_eq_some_iff.mp hfind
    exact ⟨hl.newest k r hfound, by simpa using hop⟩
  · rintro ⟨hr, hop⟩
    cases hfound : find l k with
    | none =>
      have hmem := hr.1
      rw [hl.all k ha hb hfound] at hmem
      cases hmem
    | some r' =>
      obtain rfl : r' = r := (hl.newest k r' hfound).unique hone hr
      simp [hop]

/-- Ranges that share a key show the same of it. -/
theorem find_segmentLayer_congr (hone : OneRecordPerLsn X fs) (h : StoreInv X R e.segmentStore fs)
    {a b a' b' k : Bytes} (ha : a ≤ k) (hb : k < b) (ha' : a' ≤ k) (hb' : k < b') :
    find (e.segmentLayer fs a b) k = find (e.segmentLayer fs a' b') k := by
  apply Option.ext
  intro r
  rw [find_segmentLayer_eq_some_iff hone h ha hb, find_segmentLayer_eq_some_iff hone h ha' hb']

/-! ### Agreement -/

/-- A prefix scan returns, in order, what a scan of the namespace from its first key returns for the keys
with the prefix, up to wherever that scan goes. -/
def PrefixAgrees (fs : Fs) (e : Engine) (ns p : Bytes) : Prop :=
  ∃ items, e.prefixInner fs ns p = .ok items ∧ KeySorted items ∧
    ∀ «end» all, e.range fs ns [] «end» = .ok all →
      (items.filter fun q => q.1 < «end») = all.filter fun q => p.isPrefixOf q.1

/-- The newest record of a key with the prefix in the segments, if it is a put, is outdone by a newer
record in the memtable, or the memtable shows the same. -/
def MemtableShows (X : Externals) (fs : Fs) (e : Engine) (ns p : Bytes) : Prop :=
  ∀ key, p <+: key → ∀ r, IsNewest (recordsOf X fs (encoded ns key)) r → r.op ≠ .delete →
    (e.memtable.get (encoded ns key)).bind MemEntry.live = r.live ∨
      ∃ m, e.memtable.get (encoded ns key) = some m ∧ r.lsn < m.lsn

/-- The two scans agree if and only if they show the same of every key with the prefix. -/
theorem prefixAgrees_iff_find (h : StoreInv X R e.segmentStore fs) (hns : ns.length ≤ maxNsLen) :
    e.PrefixAgrees fs ns p ↔ ∀ «end» key, p <+: key → key < «end» →
      find (e.prefixVisible fs ns p) key = find (e.visible fs ns [] «end») key := by
  obtain ⟨hsorted, hfind⟩ := prefixVisible_spec (p := p) h hns
  rw [PrefixAgrees, prefixInner_eq h hns]
  constructor
  · rintro ⟨items, hitems, -, hall⟩ «end» key hp hend
    cases hitems
    have heq := hall «end» _ (range_eq_visible h hns [] «end»)
    have hkey : find _ key = find _ key := congrArg (fun l => find l key) heq
    rwa [find_filter_key fun k => decide (k < «end»), find_filter_key fun k => p.isPrefixOf k,
      if_pos (decide_eq_true hend), if_pos (List.isPrefixOf_iff_prefix.mpr hp)] at hkey
  · intro hagree
    refine ⟨_, rfl, hsorted, fun «end» all hall => ?_⟩
    rw [range_eq_visible h hns] at hall
    cases hall
    refine (hsorted.filter _).ext ((keySorted_visible h hns).filter _) fun key => ?_
    rw [find_filter_key fun k => decide (k < «end»), find_filter_key fun k => p.isPrefixOf k]
    by_cases hp : p <+: key
    · rw [if_pos (List.isPrefixOf_iff_prefix.mpr hp)]
      by_cases hend : key < «end»
      · rw [if_pos (decide_eq_true hend)]
        exact hagree «end» key hp hend
      · -- the scan of the namespace has ended in front of the key
        have hnone : find (e.visible fs ns [] «end») key = none :=
          find_eq_none_iff.mpr fun q hq heq => hend (heq ▸ (visible_range h hns q hq).2)
        rw [if_neg (by simpa using hend), hnone]
    · rw [if_neg fun hb => hp (List.isPrefixOf_iff_prefix.mp hb), hfind, if_neg hp, ite_self]

/-- **A prefix scan agrees with the range scans** if and only if the prefix has an upper bound, or all
that is visible of it is in the memtable. -/
theorem prefixAgrees_iff (hone : OneRecordPerLsn X fs) (h : StoreInv X R e.segmentStore fs)
    (hns : ns.length ≤ maxNsLen) :
    e.PrefixAgrees fs ns p ↔ ¬ Unbounded ns p ∨ e.MemtableShows X fs ns p := by
  obtain ⟨-, hfind⟩ := prefixVisible_spec (p := p) h hns
  -- what the scan of the namespace shows of a key
  have hvisible : ∀ «end» key, key < «end» → find (e.visible fs ns [] «end») key =
      (pick MemEntry.lsn (find (e.segmentLayer fs (encoded ns []) (encoded ns «end»)) (encoded ns key))
        (e.memtable.get (encoded ns key))).bind MemEntry.live := by
    intro «end» key hend
    have hstart : encoded ns [] ≤ encoded ns key := encoded_le_iff.mpr (not_lt.mp (List.not_lt_nil key))
    rw [find_visible h hns, MemTable.find_range, if_pos ⟨hstart, encoded_lt_iff.mpr hend⟩]
  rw [prefixAgrees_iff_find h hns, ← prefixUpperBound_encoded_eq_none hns]
  cases hu : prefixUpperBound (encoded ns p) with
  | some u =>
    -- the prefix is a range, and it has every key with the prefix
    refine iff_of_true (fun «end» key hp hend => ?_) (.inl nofun)
    have hlayer : e.prefixLayer fs (encoded ns p) = e.segmentLayer fs (encoded ns p) u := by
      rw [prefixLayer, hu]
    obtain ⟨hle, hlt⟩ := (prefixUpperBound_some hu _).mpr (encoded_isPrefix_iff.mpr hp)
    rw [hfind, if_pos hp, hvisible «end» key hend, hlayer,
      find_segmentLayer_congr hone h hle hlt
        (encoded_le_iff.mpr (not_lt.mp (List.not_lt_nil key))) (encoded_lt_iff.mpr hend)]
  | none =>
    have hlayer : e.prefixLayer fs (encoded ns p) = [] := by rw [prefixLayer, hu]
    have hshown : ∀ key, p <+: key →
        find (e.prefixVisible fs ns p) key = (e.memtable.get (encoded ns key)).bind MemEntry.live := by
      intro key hp
      rw [hfind, if_pos hp, hlayer]
      rfl
    rw [or_iff_right (not_not.mpr rfl)]
    constructor
    · intro hagree key hp r hr hop
      have hkey := hagree (key ++ [0]) key hp (lt_append_zero key)
      rw [hshown key hp, hvisible _ key (lt_append_zero key), live_pick_iff] at hkey
      exact hkey r ((find_segmentLayer_eq_some_iff hone h
        (encoded_le_iff.mpr (not_lt.mp (List.not_lt_nil key)))
        (encoded_lt_iff.mpr (lt_append_zero key))).mpr ⟨hr, hop⟩)
    · intro hmem «end» key hp hend
      rw [hshown key hp, hvisible «end» key hend, live_pick_iff]
      intro r hr
      obtain ⟨hnew, hop⟩ := (find_segmentLayer_eq_some_iff hone h
        (encoded_le_iff.mpr (not_lt.mp (List.not_lt_nil key))) (encoded_lt_iff.mpr hend)).mp hr
      exact hmem key hp r hnew hop

/-- In the run with two deleted keys, a prefix scan of the namespace agrees. -/
theorem prefixAgrees_iff_deletedMiddle :
    ∃ e, (Run.from (World.step plainExternals) {} World.deletedMiddle).engine = some e ∧
      (e.PrefixAgrees (Run.from (World.step plainExternals) {} World.deletedMiddle).fs [1] [] ↔
        ¬ Unbounded [1] [] ∨ e.MemtableShows plainExternals
          (Run.from (World.step plainExternals) {} World.deletedMiddle).fs [1] []) := by
  obtain ⟨hw, hord⟩ := World.inLsnOrder_deletedMiddle
  obtain ⟨e, he⟩ : ∃ e, (Run.from (World.step plainExternals) {} World.deletedMiddle).engine = some e :=
    Option.isSome_iff_exists.mp (by decide +kernel)
  exact ⟨e, he, prefixAgrees_iff (.of_inLsnOrder hord) (hw.engine e he).store (by decide)⟩

/-! ### A prefix without an upper bound -/

/-- A single entry is packed into one block of its size. -/
theorem size_writeDatAndIndex_singleton {q : Bytes × MemEntry} :
    ∀ b ∈ (writeDatAndIndex X [q]).blocks, b.size = serializedLen q := by
  simp only [writeDatAndIndex, List.foldl_cons, List.foldl_nil, DatBuilder.push]
  split
  case isTrue =>
    simp [DatBuilder.finish, DatBuilder.flushBlock, Block.size]
  case isFalse =>
    simp [DatBuilder.finish, DatBuilder.flushBlock, Block.size]

/-- A segment of one key of a namespace of the greatest length there is. -/
theorem flushable_longest (hlen : ns.length = maxNsLen) :
    Flushable plainExternals [(encoded ns [1], ⟨encoded ns [1], some [10], .put, 1, 0, 0⟩)] := by
  have hkey : (encoded ns [1]).length = maxNsLen + 3 := by
    simp only [encoded, List.length_append, length_beBytes, hlen, List.length_singleton]
    omega
  have hmax : maxNsLen = 65535 := rfl
  refine ⟨List.pairwise_singleton _ _, fun q hq => ?_, fun b hb => ?_, ?_, ?_⟩
  · rw [List.mem_singleton.mp hq]
    refine ⟨rfl, ?_, ?_, ?_, rfl, ?_⟩
    · change (encoded ns [1]).length < _
      omega
    · change 1 < 256 ^ 4
      decide
    · change 1 < 256 ^ 8
      decide
    · change 0 < 256 ^ 4
      decide
  · rw [size_writeDatAndIndex_singleton b hb, serializedLen, hkey, hmax]
    change 4 + (65535 + 3) + 4 + 1 + 21 ≤ maxBlockDecompressed
    decide
  · change 1 ≤ sparseIndexStride * maxIndexCount
    decide
  · change XorFilter.InRange ⟨0, 0, []⟩
    exact ⟨by decide, by decide, by decide⟩

/-- Of a prefix without an upper bound, an empty memtable shows nothing. -/
theorem prefixInner_of_unbounded (hns : ns.length ≤ maxNsLen) (hp : Unbounded ns p)
    (hmem : e.memtable = .empty) : e.prefixInner fs ns p = .ok [] := by
  have hu := (prefixUpperBound_encoded_eq_none hns).mpr hp
  have hseg : e.prefixSegments fs (encoded ns p) none = .ok ([], false) := by
    rw [prefixSegments, hu]
  rw [prefixInner, @prefixCore_eq fs e ns p hns none _ _ hseg, hmem]
  rfl

/-- The only key of a namespace is in a segment, and the scan for a prefix without an upper bound misses
it. -/
theorem prefix_misses (hlen : ns.length = maxNsLen) (hunbounded : Unbounded ns []) :
    let entries : List (Bytes × MemEntry) :=
      [(encoded ns [1], ⟨encoded ns [1], some [10], .put, 1, 0, 0⟩)]
    let flushed := (segmentFlush (X := plainExternals) 0 60 entries).run ⟨(), fun _ => 0⟩ {}
    let fs := (disk plainExternals).run flushed.2.2 {}
    ∃ m r, flushed.1 = .ok m ∧ openReader 0 (fs.segs 0) = .ok r ∧
      let e : Engine := {
        config := {}
        wal := ⟨0, 0, 0, 0, 0⟩
        memtable := .empty
        lsnCounter := 1
        txidCounter := 0
        segmentStore := ⟨⟨0, [m]⟩, [r], 1, 60⟩
        snapshotRegistry := {} }
      ¬ e.PrefixAgrees fs ns [] := by
  intro entries flushed fs
  have hfit : Flushable plainExternals entries := flushable_longest hlen
  obtain ⟨m, hm⟩ : ∃ m, flushed.1 = .ok m := ⟨_, rfl⟩
  have hid : m.segmentId = 0 := by
    cases hm
    rfl
  have hleft : FlushLeft plainExternals entries m (fs.segs m.segmentId) := by
    rw [FlushLeft, hid]
    exact ⟨60, ⟨(), fun _ => 0⟩, {}, hm, rfl⟩
  obtain ⟨r, hr⟩ := (hleft.wf hfit).1.openReader m.segmentId
  refine ⟨m, r, hm, hid ▸ hr, ?_⟩
  intro e
  rintro ⟨items, hitems, -, hall⟩
  rw [prefixInner_of_unbounded hlen.le hunbounded rfl] at hitems
  cases hitems
  -- the scan of the namespace finds the key
  obtain ⟨l, hl, hin, hscan, hfound⟩ := rangeScan_flushed
    (show Readers fs ([(m, entries)].map Prod.fst) e.segmentStore.readers from .cons hr .nil)
    (fun s hs => by rw [List.mem_singleton.mp hs]; exact hfit)
    (fun s hs => by rw [List.mem_singleton.mp hs]; exact hleft) (encoded ns []) (encoded ns [2])
  obtain ⟨all, hrangeEq, -, hmem⟩ := range_of_scan hl hin hscan hlen.le
  have hone : find entries (encoded ns [1]) = some ⟨encoded ns [1], some [10], .put, 1, 0, 0⟩ := by
    rw [find_cons, if_pos rfl]
  have hbetween := hfound (encoded ns [1]) (encoded_le_iff.mpr (by decide))
    (encoded_lt_iff.mpr (by decide))
  have hrecords : ([(m, entries)].map Prod.snd).filterMap (fun table => find table (encoded ns [1])) =
      [⟨encoded ns [1], some [10], .put, 1, 0, 0⟩] := by
    simp only [List.map_cons, List.map_nil, List.filterMap_cons, List.filterMap_nil, hone]
  have hlk : find l (encoded ns [1]) = some ⟨encoded ns [1], some [10], .put, 1, 0, 0⟩ := by
    cases hfind : find l (encoded ns [1]) with
    | none =>
      have hnil := hbetween.2 hfind
      rw [hrecords] at hnil
      cases hnil
    | some x =>
      have hx := (hbetween.1 x hfind).1
      rw [hrecords] at hx
      rw [List.mem_singleton.mp hx]
  have hshown : ([1], [10]) ∈ all := by
    refine (hmem [1] [10]).mpr ⟨by decide, by decide, ?_⟩
    rw [hlk]
    rfl
  have hempty := hall [2] all hrangeEq
  have hkept : (([1], [10]) : Bytes × Bytes) ∈ all.filter fun q => ([] : Bytes).isPrefixOf q.1 :=
    List.mem_filter.mpr ⟨hshown, rfl⟩
  rw [← hempty] at hkept
  cases hkept

/-- **A prefix scan that misses a key**: the namespace is 65535 bytes of `0xFF`, its only key is in a
segment, and the scan for the empty prefix finds nothing. -/
theorem unbounded_prefix_misses :
    let ns : Bytes := List.replicate maxNsLen 255
    let entries : List (Bytes × MemEntry) :=
      [(encoded ns [1], ⟨encoded ns [1], some [10], .put, 1, 0, 0⟩)]
    let flushed := (segmentFlush (X := plainExternals) 0 60 entries).run ⟨(), fun _ => 0⟩ {}
    let fs := (disk plainExternals).run flushed.2.2 {}
    ∃ m r, flushed.1 = .ok m ∧ openReader 0 (fs.segs 0) = .ok r ∧
      let e : Engine := {
        config := {}
        wal := ⟨0, 0, 0, 0, 0⟩
        memtable := .empty
        lsnCounter := 1
        txidCounter := 0
        segmentStore := ⟨⟨0, [m]⟩, [r], 1, 60⟩
        snapshotRegistry := {} }
      ¬ e.PrefixAgrees fs ns [] := by
  have hunbounded : Unbounded (List.replicate maxNsLen 255) [] := by
    refine ⟨List.length_replicate, fun b hb => ?_⟩
    rw [List.append_nil] at hb
    exact List.eq_of_mem_replicate hb
  exact prefix_misses List.length_replicate hunbounded

end Engine
