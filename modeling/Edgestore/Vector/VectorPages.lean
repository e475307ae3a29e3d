import Edgestore.Vector.FlatSearch
import Edgestore.Pagination

/-!
# Pages of vectors

Vectors are also read page by page, with the pages of ranges. The pages end in front of 32 bytes `0xFF`, the flat scan
in front of 1024 of them. They inherit what is said about the pages of ranges: a page covers what comes next or not.

## Main definitions

* `Engine.vectorPage`: a page of vectors
* `Engine.PagesExactly`: the pages are the live vectors
* `Engine.Pageable`: the condition under which they are

## Main results

* `Engine.vectorPages_eq_ok_iff`: the pages of vectors are those of the range, decoded
* `Engine.flatVectors_exact_iff`: when the flat scan and the pages are exact
-/

variable {X : Externals} {R : List SegmentId} {F : Floats} {query : VectorRecord} {k n : ℕ} {metric : Metric}
  {fs : Fs} {e : Engine} {ns : Bytes} {cursor : Option Bytes}

/-- A page of vectors. -/
structure VectorPage where
  records : List (Bytes × VectorRecord)
  nextKey : Option Bytes
  deriving DecidableEq, Repr

/-- Where the pages end: 32 bytes `0xFF`. -/
def pageScanEnd : Bytes := List.replicate 32 255

/-- Decode the vector of a key. -/
def decodePair (p : Bytes × Bytes) : Except EdgestoreError (Bytes × VectorRecord) := do
  return (p.1, ← decodeStored "vector record" p.2)

namespace Engine

/-- A page of the vectors behind a cursor. -/
def vectorPage (fs : Fs) (e : Engine) (ns : Bytes) (cursor : Option Bytes) (pageSize : ℕ) :
    Except EdgestoreError VectorPage :=
  if pageSize = 0 then .ok ⟨[], none⟩
  else do
    let scan ← e.rangeBudgeted fs (vectorNamespace ns) (effectiveStart [] cursor) pageScanEnd
      { maxItems := some pageSize }
    let records ← scan.items.mapM decodePair
    return ⟨records, if scan.truncated then scan.items.getLast?.map Prod.fst else none⟩

/-- Ask for pages until no cursor comes back: the records of all pages, if there are no more than the fuel. -/
def vectorPagesFrom (fs : Fs) (e : Engine) (ns : Bytes) (pageSize : ℕ) :
    ℕ → Option Bytes → Except EdgestoreError (Option (List (Bytes × VectorRecord))) :=
  pages fun cursor => (e.vectorPage fs ns cursor pageSize).map fun p => (p.records, p.nextKey.map some)

end Engine

/-! ### Decoded pairs -/

/-- Records are what pairs of keys and values are decoded to. -/
def Decoded (items : List (Bytes × Bytes)) (records : List (Bytes × VectorRecord)) : Prop :=
  List.Forall₂ (fun p r => r.1 = p.1 ∧ decodeVectorRecord p.2 = .ok r.2) items records

theorem decodePair_eq_ok {p : Bytes × Bytes} {r : Bytes × VectorRecord} :
    decodePair p = .ok r ↔ r.1 = p.1 ∧ decodeVectorRecord p.2 = .ok r.2 := by
  unfold decodePair
  rw [Except.bind_eq_ok]
  constructor
  · rintro ⟨record, hrecord, heq⟩
    cases heq
    exact ⟨rfl, decodeVectorRecord_of_stored hrecord⟩
  · rintro ⟨hkey, hrecord⟩
    exact ⟨r.2, decodeStored_of_ok hrecord, congrArg Except.ok (Prod.ext hkey.symm rfl)⟩

theorem mapM_decodePair_eq_ok {items : List (Bytes × Bytes)} {records : List (Bytes × VectorRecord)} :
    items.mapM decodePair = .ok records ↔ Decoded items records := by
  induction items generalizing records with
  | nil =>
    rw [List.mapM_nil]
    constructor
    · intro h
      cases h
      exact .nil
    · intro h
      cases h
      rfl
  | cons p items ih =>
    rw [List.mapM_cons, Except.bind_eq_ok]
    constructor
    · rintro ⟨r, hr, h⟩
      obtain ⟨rest, hrest, h⟩ := Except.bind_eq_ok.mp h
      cases h
      exact .cons (decodePair_eq_ok.mp hr) (ih.mp hrest)
    · intro h
      cases h with
      | cons hr hrest =>
        exact ⟨_, decodePair_eq_ok.mpr hr, Except.bind_eq_ok.mpr ⟨_, ih.mpr hrest, rfl⟩⟩

theorem toByte_of_tryFrom {b : Byte} {dtype : Dtype} (h : Dtype.tryFrom b = .ok dtype) : dtype.toByte = b := by
  unfold Dtype.tryFrom at h
  split at h
  · cases h
    exact Fin.ext (by assumption : b.val = 0).symm
  · cases h
    exact Fin.ext (by assumption : b.val = 1).symm
  · cases h
    exact Fin.ext (by assumption : b.val = 2).symm
  · cases h

/-- **What is decoded** was encoded that way. -/
theorem eq_of_decodeVectorRecord {bytes : Bytes} {record : VectorRecord}
    (h : decodeVectorRecord bytes = .ok record) :
    bytes = beBytes 2 record.dims ++ record.dtype.toByte :: record.data := by
  unfold decodeVectorRecord at h
  split at h
  case h_2 => cases h
  case h_1 b₀ b₁ b₂ data =>
    obtain ⟨dtype, hdtype, h⟩ := Except.bind_eq_ok.mp h
    dsimp only at h
    split at h
    case isTrue => cases h
    case isFalse =>
      cases h
      have hdims : beBytes 2 (ofBe [b₀, b₁]) = [b₀, b₁] := beBytes_ofBe [b₀, b₁]
      dsimp only
      rw [hdims, toByte_of_tryFrom hdtype]
      rfl

/-- Pairs that are decoded to the same records are the same. -/
theorem Decoded.unique {items items' : List (Bytes × Bytes)} {records : List (Bytes × VectorRecord)}
    (h : Decoded items records) (h' : Decoded items' records) : items = items' := by
  induction h generalizing items' with
  | nil =>
    cases h'
    rfl
  | cons hp _ ih =>
    cases h' with
    | cons hp' hrest =>
      refine congrArg₂ List.cons (Prod.ext (hp.1.symm.trans hp'.1) ?_) (ih hrest)
      rw [eq_of_decodeVectorRecord hp.2, eq_of_decodeVectorRecord hp'.2]

theorem Decoded.append {items items' : List (Bytes × Bytes)} {records records' : List (Bytes × VectorRecord)}
    (h : Decoded items records) (h' : Decoded items' records') : Decoded (items ++ items') (records ++ records') := by
  induction h with
  | nil => exact h'
  | cons hp _ ih => exact .cons hp ih

theorem Decoded.split {items items' : List (Bytes × Bytes)} {out : List (Bytes × VectorRecord)}
    (h : Decoded (items ++ items') out) :
    ∃ records records', Decoded items records ∧ Decoded items' records' ∧ out = records ++ records' := by
  induction items generalizing out with
  | nil => exact ⟨[], out, .nil, h, rfl⟩
  | cons p items ih =>
    cases h with
    | cons hp hrest =>
      obtain ⟨records, records', hfirst, hsecond, rfl⟩ := ih hrest
      exact ⟨_, records', .cons hp hfirst, hsecond, rfl⟩

/-- Pairs are decoded if each of them is. -/
theorem exists_decoded {items : List (Bytes × Bytes)} :
    (∃ records, Decoded items records) ↔ ∀ p ∈ items, ∃ record, decodeVectorRecord p.2 = .ok record := by
  induction items with
  | nil => exact iff_of_true ⟨[], .nil⟩ fun p hp => absurd hp List.not_mem_nil
  | cons p items ih =>
    rw [List.forall_mem_cons, ← ih]
    constructor
    · rintro ⟨records, h⟩
      cases h with
      | cons hp hrest => exact ⟨⟨_, hp.2⟩, ⟨_, hrest⟩⟩
    · rintro ⟨⟨record, hrecord⟩, records, hrest⟩
      exact ⟨(p.1, record) :: records, .cons ⟨rfl, hrecord⟩ hrest⟩

namespace Engine

/-! ### Pages -/

/-- **A page of vectors** is a page of the range, decoded. -/
theorem vectorPage_eq_ok (hn : 1 ≤ n) {records : List (Bytes × VectorRecord)} {next : Option (Option Bytes)} :
    (e.vectorPage fs ns cursor n).map (fun p => (p.records, p.nextKey.map some)) = .ok (records, next) ↔
      ∃ items, e.forwardPage fs (vectorNamespace ns) [] pageScanEnd n cursor = .ok (items, next) ∧
        Decoded items records := by
  unfold vectorPage forwardPage rangePage rangeBudgeted
  rw [if_neg (Nat.ne_of_gt hn), if_neg (Nat.ne_of_gt hn)]
  cases hscan : e.rangeCore fs (vectorNamespace ns) (effectiveStart [] cursor) pageScanEnd
      (some { maxItems := some n }) with
  | error err => exact iff_of_false (fun h => by cases h) fun ⟨_, h, _⟩ => by cases h
  | ok scan =>
    dsimp only [bind, Except.bind, pure, Except.pure, Except.map]
    simp only [← mapM_decodePair_eq_ok]
    cases hrecords : scan.items.mapM decodePair with
    | error err =>
      refine iff_of_false (fun h => by cases h) ?_
      rintro ⟨items, heq, hitems⟩
      cases heq
      rw [hrecords] at hitems
      cases hitems
    | ok records' =>
      constructor
      · intro heq
        cases heq
        exact ⟨_, rfl, hrecords⟩
      · rintro ⟨items, heq, hitems⟩
        cases heq
        rw [hrecords] at hitems
        cases hitems
        rfl

/-- **The pages of vectors** are those of the range, decoded. -/
theorem vectorPages_eq_ok_iff (hn : 1 ≤ n) {fuel : ℕ} {out : List (Bytes × VectorRecord)} :
    e.vectorPagesFrom fs ns n fuel cursor = .ok (some out) ↔
      ∃ items, pages (e.forwardPage fs (vectorNamespace ns) [] pageScanEnd n) fuel cursor = .ok (some items) ∧
        Decoded items out := by
  unfold vectorPagesFrom
  induction fuel generalizing cursor out with
  | zero => exact iff_of_false (fun h => by cases h) fun ⟨_, h, _⟩ => by cases h
  | succ fuel ih =>
    rw [pages_succ_eq_ok]
    constructor
    · rintro (hlast | ⟨records, next, rest, hpage, hrest, rfl⟩)
      · obtain ⟨items, hitems, hdecoded⟩ := (vectorPage_eq_ok hn).mp hlast
        exact ⟨items, pages_last hitems, hdecoded⟩
      · obtain ⟨items, hitems, hdecoded⟩ := (vectorPage_eq_ok hn).mp hpage
        obtain ⟨items', hitems', hdecoded'⟩ := ih.mp hrest
        exact ⟨items ++ items', pages_succ_eq_ok.mpr (.inr ⟨items, next, items', hitems, hitems', rfl⟩),
          hdecoded.append hdecoded'⟩
    · rintro ⟨all, h, hdecoded⟩
      rcases pages_succ_eq_ok.mp h with hlast | ⟨items, next, rest, hitems, hrest, rfl⟩
      · exact .inl ((vectorPage_eq_ok hn).mpr ⟨_, hlast, hdecoded⟩)
      · obtain ⟨records, records', hfirst, hsecond, rfl⟩ := hdecoded.split
        exact .inr ⟨records, next, records', (vectorPage_eq_ok hn).mpr ⟨_, hitems, hfirst⟩,
          ih.mpr ⟨rest, hrest, hsecond⟩, rfl⟩

/-! ### The live vectors -/

/-- The pages from a cursor on are the live vectors behind it, in order of keys. -/
def PagesExactly (X : Externals) (fs : Fs) (e : Engine) (ns : Bytes) (n : ℕ) (cursor : Option Bytes) : Prop :=
  ∃ fuel out, e.vectorPagesFrom fs ns n fuel cursor = .ok (some out) ∧
    Decoded ((e.live X fs (vectorNamespace ns)).filter fun p => effectiveStart [] cursor ≤ p.1) out

/-- **The condition under which pages are exact**: the namespace is one that can have keys, the live vectors can be
decoded and are in front of the end of the pages, and the pages at some cursors cover what comes next. -/
structure Pageable (X : Externals) (fs : Fs) (e : Engine) (ns : Bytes) (n : ℕ) (cursors : Option Bytes → Prop) :
    Prop where
  nsFits : (vectorNamespace ns).length ≤ maxNsLen
  decodes : ∀ p ∈ e.live X fs (vectorNamespace ns), ∃ record, decodeVectorRecord p.2 = .ok record
  below : ∀ p ∈ e.live X fs (vectorNamespace ns), p.1 < pageScanEnd
  covers : ∀ cursor, cursors cursor →
    e.ForwardCovers fs (vectorNamespace ns) (effectiveStart [] cursor) pageScanEnd n

/-- Pages in a namespace that is too long for keys fail. -/
theorem forwardPage_of_long (hn : 1 ≤ n) (hns : ¬ ns.length ≤ maxNsLen) (start «end» : Bytes)
    {p : List (Bytes × Bytes) × Option (Option Bytes)} : e.forwardPage fs ns start «end» n cursor ≠ .ok p := by
  intro h
  unfold forwardPage rangePage at h
  rw [if_neg (Nat.ne_of_gt hn)] at h
  cases hcore : e.rangeCore fs ns (effectiveStart start cursor) «end» (some { maxItems := some n }) with
  | error err =>
    rw [hcore] at h
    cases h
  | ok scan =>
    obtain ⟨encStart, hstart, -⟩ := Except.bind_eq_ok.mp hcore
    exact hns (encodeKey_eq_ok.mp hstart).1

/-- What pages return is in front of their end. -/
theorem lt_of_pages (h : StoreInv X R e.segmentStore fs) (hns : ns.length ≤ maxNsLen) (hn : 1 ≤ n)
    {start «end» : Bytes} {fuel : ℕ} {items : List (Bytes × Bytes)}
    (hpages : pages (e.forwardPage fs ns start «end» n) fuel cursor = .ok (some items)) :
    ∀ p ∈ items, p.1 < «end» := by
  induction fuel generalizing cursor items with
  | zero => cases hpages
  | succ fuel ih =>
    have hpage : ∀ {items next}, e.forwardPage fs ns start «end» n cursor = .ok (items, next) →
        ∀ p ∈ items, p.1 < «end» := by
      intro items next hp q hq
      obtain ⟨truncated, heq, -⟩ := rangePage_eq h hns hn start «end» cursor rfl rfl
      rw [forwardPage, heq] at hp
      cases hp
      exact (shown_range hns (fun p hp => segmentLayer_range h p (List.mem_of_mem_take hp))
        (memtable_range _ _ _) q (List.mem_of_mem_take hq)).2
    rcases pages_succ_eq_ok.mp hpages with hlast | ⟨items, next, rest, hitems, hrest, rfl⟩
    · exact hpage hlast
    · intro p hp
      rcases List.mem_append.mp hp with hp | hp
      · exact hpage hitems p hp
      · exact ih hrest p hp

/-- The pages from a cursor on are exact if and only if those of the range are, and what is live can be decoded and is
in front of their end. -/
theorem pagesExactly_iff_left (hone : OneRecordPerLsn X fs) (h : StoreInv X R e.segmentStore fs) (hn : 1 ≤ n)
    (hns : (vectorNamespace ns).length ≤ maxNsLen) :
    e.PagesExactly X fs ns n cursor ↔
      (∀ p ∈ e.live X fs (vectorNamespace ns), effectiveStart [] cursor ≤ p.1 →
        (∃ record, decodeVectorRecord p.2 = .ok record) ∧ p.1 < pageScanEnd) ∧
      ∃ fuel, pages (e.forwardPage fs (vectorNamespace ns) [] pageScanEnd n) fuel cursor =
        .ok (some (e.leftForward fs (vectorNamespace ns) [] pageScanEnd cursor)) := by
  set live := (e.live X fs (vectorNamespace ns)).filter fun p => effectiveStart [] cursor ≤ p.1 with hlive
  have hmem : ∀ p, p ∈ live ↔ p ∈ e.live X fs (vectorNamespace ns) ∧ effectiveStart [] cursor ≤ p.1 := by
    intro p
    rw [hlive, List.mem_filter, decide_eq_true_eq]
  have hleft : (∀ p ∈ live, p.1 < pageScanEnd) →
      e.leftForward fs (vectorNamespace ns) [] pageScanEnd cursor = live := by
    intro hbelow
    rw [leftForward, visible_eq_live hone h hns, hlive]
    refine List.filter_congr fun p hp => ?_
    rw [decide_eq_decide]
    exact and_iff_left_of_imp fun hle => hbelow p ((hmem p).mpr ⟨hp, hle⟩)
  constructor
  · rintro ⟨fuel, out, hout, hdecoded⟩
    obtain ⟨items, hitems, hdecoded'⟩ := (vectorPages_eq_ok_iff hn).mp hout
    obtain rfl : items = live := hdecoded'.unique hdecoded
    have hbelow := lt_of_pages h hns hn hitems
    refine ⟨fun p hp hle => ?_, fuel, ?_⟩
    · have hp := (hmem p).mpr ⟨hp, hle⟩
      exact ⟨exists_decoded.mp ⟨out, hdecoded⟩ p hp, hbelow p hp⟩
    · rw [hleft hbelow]
      exact hitems
  · rintro ⟨hall, fuel, hpages⟩
    have hlive' : ∀ p ∈ live, (∃ record, decodeVectorRecord p.2 = .ok record) ∧ p.1 < pageScanEnd :=
      fun p hp => hall p ((hmem p).mp hp).1 ((hmem p).mp hp).2
    obtain ⟨out, hdecoded⟩ := exists_decoded.mpr fun p hp => (hlive' p hp).1
    rw [hleft fun p hp => (hlive' p hp).2] at hpages
    exact ⟨fuel, out, (vectorPages_eq_ok_iff hn).mpr ⟨_, hpages, hdecoded⟩, hdecoded⟩

/-- **Paging from a cursor on** is exact if and only if the range pager covers what comes next wherever it comes to. -/
theorem pages_left_iff (hone : OneRecordPerLsn X fs) (h : StoreInv X R e.segmentStore fs)
    (hns : ns.length ≤ maxNsLen) (hn : 1 ≤ n) {start «end» : Bytes} :
    (∃ fuel, pages (e.forwardPage fs ns start «end» n) fuel cursor =
      .ok (some (e.leftForward fs ns start «end» cursor))) ↔
      ∀ cursor', Reaches (e.forwardPage fs ns start «end» n) cursor cursor' →
        e.ForwardCovers fs ns (effectiveStart start cursor') «end» n := by
  rw [pages_eq_iff (exists_forwardPage h hns hn) (advances_forward hone h hns hn)]
  constructor
  · intro hexact cursor' hreach
    obtain ⟨p, hp⟩ := exists_forwardPage h hns hn cursor'
    exact (forwardPage_exact_iff h hns hn hp).mp (hexact cursor' p hreach hp)
  · intro hcovers cursor' p hreach hp
    exact (forwardPage_exact_iff h hns hn hp).mpr (hcovers cursor' hreach)

/-- **The pages are exact** from the first one on if and only if the condition holds where they come to. -/
theorem pagesExactly_iff (hone : OneRecordPerLsn X fs) (h : StoreInv X R e.segmentStore fs) (hn : 1 ≤ n) :
    e.PagesExactly X fs ns n none ↔ e.Pageable X fs ns n
      (Reaches (e.forwardPage fs (vectorNamespace ns) [] pageScanEnd n) none) := by
  by_cases hns : (vectorNamespace ns).length ≤ maxNsLen
  · rw [pagesExactly_iff_left hone h hn hns, pages_left_iff hone h hns hn]
    have hall : ∀ p : Bytes × Bytes, effectiveStart [] none ≤ p.1 := fun p => not_lt.mp (List.not_lt_nil p.1)
    constructor
    · rintro ⟨hlive, hcovers⟩
      exact ⟨hns, fun p hp => (hlive p hp (hall p)).1, fun p hp => (hlive p hp (hall p)).2, hcovers⟩
    · intro hcond
      exact ⟨fun p hp _ => ⟨hcond.decodes p hp, hcond.below p hp⟩, hcond.covers⟩
  · refine iff_of_false ?_ fun hcond => hns hcond.nsFits
    rintro ⟨fuel, out, hout, -⟩
    obtain ⟨items, hitems, -⟩ := (vectorPages_eq_ok_iff hn).mp hout
    cases fuel with
    | zero => cases hitems
    | succ fuel =>
      rcases pages_succ_eq_ok.mp hitems with hlast | ⟨items, next, rest, hpage, -⟩
      · exact forwardPage_of_long hn hns [] pageScanEnd hlast
      · exact forwardPage_of_long hn hns [] pageScanEnd hpage

/-- **The pages are exact from every cursor on** that is in front of their end, if and only if the condition holds at
all of these. -/
theorem forall_pagesExactly_iff (hone : OneRecordPerLsn X fs) (h : StoreInv X R e.segmentStore fs) (hn : 1 ≤ n) :
    (∀ cursor, effectiveStart [] cursor ≤ pageScanEnd → e.PagesExactly X fs ns n cursor) ↔
      e.Pageable X fs ns n fun cursor => effectiveStart [] cursor ≤ pageScanEnd := by
  constructor
  · intro hpages
    have hfirst := (pagesExactly_iff hone h hn).mp (hpages none (not_lt.mp (List.not_lt_nil pageScanEnd)))
    refine ⟨hfirst.nsFits, hfirst.decodes, hfirst.below, fun cursor hcursor => ?_⟩
    obtain ⟨-, hleft⟩ := (pagesExactly_iff_left hone h hn hfirst.nsFits).mp (hpages cursor hcursor)
    exact (pages_left_iff hone h hfirst.nsFits hn).mp hleft cursor (.refl cursor)
  · intro hcond cursor hcursor
    refine (pagesExactly_iff_left hone h hn hcond.nsFits).mpr
      ⟨fun p hp _ => ⟨hcond.decodes p hp, hcond.below p hp⟩, ?_⟩
    refine (pages_left_iff hone h hcond.nsFits hn).mpr fun cursor' hreach => ?_
    exact hcond.covers cursor' ((reaches_forward h hcond.nsFits hn hreach).2 hcursor)

/-- **Flat vector search**: when the scan returns the closest vectors, and when the pages are the live vectors, from the
first page on, and from every cursor on that is in front of their end. -/
theorem flatVectors_exact_iff (hone : OneRecordPerLsn X fs) (h : StoreInv X R e.segmentStore fs) (hn : 1 ≤ n) :
    (e.SearchesExactly X F fs ns query k metric ↔ k = 0 ∨ e.FlatScannable X F fs ns query k metric) ∧
    (e.PagesExactly X fs ns n none ↔ e.Pageable X fs ns n
      (Reaches (e.forwardPage fs (vectorNamespace ns) [] pageScanEnd n) none)) ∧
    ((∀ cursor, effectiveStart [] cursor ≤ pageScanEnd → e.PagesExactly X fs ns n cursor) ↔
      e.Pageable X fs ns n fun cursor => effectiveStart [] cursor ≤ pageScanEnd) :=
  ⟨flatSearch_exact_iff hone h, pagesExactly_iff hone h hn, forall_pagesExactly_iff hone h hn⟩

end Engine

namespace World

/-- Three vectors of one number: 1 and 2 are flushed, 4 is put later. -/
def flushedVectors : List Call :=
  [{ op := .open {} }, { op := .put (vectorNamespace [1]) [7] [0, 1, 0, 0, 0, 128, 63] },
    { op := .put (vectorNamespace [1]) [8] [0, 1, 0, 0, 0, 0, 64] }, { op := .flushToSegments },
    { op := .put (vectorNamespace [1]) [9] [0, 1, 0, 0, 0, 128, 64] }]

theorem isSome_flushedVectors : (Run.from (step plainExternals) {} flushedVectors).engine.isSome = true := by
  decide +kernel

/-- A search for the two closest ones is exact, and so are the pages of two. -/
theorem flatVectors_exact_iff_flushed :
    let w := Run.from (step plainExternals) {} flushedVectors
    ∃ e, w.engine = some e ∧
      e.SearchesExactly plainExternals plainFloats w.fs [1] ⟨1, .f32, [0, 0, 128, 63]⟩ 2 .l2 ∧
      e.PagesExactly plainExternals w.fs [1] 2 none ∧
      ∀ cursor, Reaches (e.forwardPage w.fs (vectorNamespace [1]) [] pageScanEnd 2) none cursor →
        e.ForwardCovers w.fs (vectorNamespace [1]) (Engine.effectiveStart [] cursor) pageScanEnd 2 := by
  obtain ⟨hw, hord⟩ : WorldInv plainExternals (Run.from (step plainExternals) {} flushedVectors) ∧
      ∀ k, InLsnOrder (recordsOf plainExternals (Run.from (step plainExternals) {} flushedVectors).fs k) :=
    inLsnOrder_of_registersInOrder (by decide +kernel)
  have hlive : ((Run.from (step plainExternals) {} flushedVectors).engine.get isSome_flushedVectors).live plainExternals
      (Run.from (step plainExternals) {} flushedVectors).fs (vectorNamespace [1]) =
        [([7], [0, 1, 0, 0, 0, 128, 63]), ([8], [0, 1, 0, 0, 0, 0, 64]), ([9], [0, 1, 0, 0, 0, 128, 64])] := by
    decide +kernel
  have hstore := (hw.engine _ (Option.some_get isSome_flushedVectors).symm).store
  have hall : (Engine.SearchesExactly plainExternals plainFloats _ _ [1] ⟨1, .f32, [0, 0, 128, 63]⟩ 2 .l2 ↔ _) ∧
      (Engine.PagesExactly plainExternals _ _ [1] 2 none ↔ _) ∧ _ :=
    Engine.flatVectors_exact_iff (.of_inLsnOrder hord) hstore (by decide)
  obtain ⟨hsearch, hpages, -⟩ := hall
  have hnear : ((Run.from (step plainExternals) {} flushedVectors).engine.get isSome_flushedVectors).near plainExternals
      (Run.from (step plainExternals) {} flushedVectors).fs [1] =
        [([7], [0, 1, 0, 0, 0, 128, 63]), ([8], [0, 1, 0, 0, 0, 0, 64]), ([9], [0, 1, 0, 0, 0, 128, 64])] := by
    rw [Engine.near, hlive]
    decide +kernel
  have hfar : ((Run.from (step plainExternals) {} flushedVectors).engine.get isSome_flushedVectors).far plainExternals
      (Run.from (step plainExternals) {} flushedVectors).fs [1] = [] := by
    rw [Engine.far, hlive]
    decide +kernel
  refine ⟨_, (Option.some_get isSome_flushedVectors).symm, hsearch.mpr (.inr ⟨by decide, ?_, .inl rfl, ?_, ?_⟩), ?_⟩
  · rw [hnear]
    exact List.forall_mem_cons.mpr ⟨⟨_, rfl⟩, List.forall_mem_cons.mpr ⟨⟨_, rfl⟩,
      List.forall_mem_cons.mpr ⟨⟨_, rfl⟩, fun p hp => absurd hp List.not_mem_nil⟩⟩⟩
  · rw [hnear]
    decide +kernel
  · rw [hfar]
    exact fun x hx => absurd hx List.not_mem_nil
  · have hexact : Engine.PagesExactly plainExternals (Run.from (step plainExternals) {} flushedVectors).fs
        ((Run.from (step plainExternals) {} flushedVectors).engine.get isSome_flushedVectors) [1] 2 none := by
      refine ⟨3, [([7], ⟨1, .f32, [0, 0, 128, 63]⟩), ([8], ⟨1, .f32, [0, 0, 0, 64]⟩),
        ([9], ⟨1, .f32, [0, 0, 128, 64]⟩)], by decide +kernel, ?_⟩
      rw [hlive]
      exact .cons ⟨rfl, rfl⟩ (.cons ⟨rfl, rfl⟩ (.cons ⟨rfl, rfl⟩ .nil))
    exact ⟨hexact, (hpages.mp hexact).covers⟩

/-- Three vectors of one number: NaN, 1 and 2, the last one under a key of 32 bytes `0xFF`. -/
def threeVectors : List Call :=
  [{ op := .open {} }, { op := .put (vectorNamespace [1]) [7] [0, 1, 0, 0, 0, 192, 127] },
    { op := .put (vectorNamespace [1]) [8] [0, 1, 0, 0, 0, 128, 63] },
    { op := .put (vectorNamespace [1]) (List.replicate 32 255) [0, 1, 0, 0, 0, 0, 64] }]

/-- Arithmetic in which a distance to NaN is NaN. -/
def nanFloats : Floats :=
  { plainFloats with
    distanceSimdF32 := fun q c metric =>
      if (q ++ c).any F32.isNan then 0x7FC00000 else plainFloats.distanceSimdF32 q c metric }

/-- The run registers its segments in the order of their records. -/
theorem inLsnOrder_threeVectors :
    WorldInv plainExternals (Run.from (step plainExternals) {} threeVectors) ∧
      ∀ k, InLsnOrder (recordsOf plainExternals (Run.from (step plainExternals) {} threeVectors).fs k) :=
  inLsnOrder_of_registersInOrder (by decide +kernel)

theorem isSome_threeVectors : (Run.from (step plainExternals) {} threeVectors).engine.isSome = true := by
  decide +kernel

/-- **A search for the closest vector** to 1 returns NaN, although 1 is stored; and the pages end without the vector
under the last key. -/
theorem flatVectors_not_exact :
    let w := Run.from (step plainExternals) {} threeVectors
    ∃ e, w.engine = some e ∧
      e.flatVectorSearch nanFloats w.fs [1] ⟨1, .f32, [0, 0, 128, 63]⟩ 1 .l2 = .ok [([7], 0x7FC00000)] ∧
      ¬ e.SearchesExactly plainExternals nanFloats w.fs [1] ⟨1, .f32, [0, 0, 128, 63]⟩ 1 .l2 ∧
      e.vectorPage w.fs [1] none 10 =
        .ok ⟨[([7], ⟨1, .f32, [0, 0, 192, 127]⟩), ([8], ⟨1, .f32, [0, 0, 128, 63]⟩)], none⟩ ∧
      ¬ e.PagesExactly plainExternals w.fs [1] 10 none := by
  obtain ⟨hw, hord⟩ := inLsnOrder_threeVectors
  have hlive : ((Run.from (step plainExternals) {} threeVectors).engine.get isSome_threeVectors).live plainExternals
      (Run.from (step plainExternals) {} threeVectors).fs (vectorNamespace [1]) =
        [([7], [0, 1, 0, 0, 0, 192, 127]), ([8], [0, 1, 0, 0, 0, 128, 63]),
          (List.replicate 32 255, [0, 1, 0, 0, 0, 0, 64])] := by decide +kernel
  have hstore := (hw.engine _ (Option.some_get isSome_threeVectors).symm).store
  refine ⟨_, (Option.some_get isSome_threeVectors).symm, by decide +kernel, fun hsearch => ?_,
    by decide +kernel, fun hpages => ?_⟩
  · rcases (Engine.flatSearch_exact_iff (.of_inLsnOrder hord) hstore).mp hsearch with hk | hcond
    · exact absurd hk (by decide)
    · have hnan := hcond.nan
      unfold Engine.near at hnan
      rw [hlive] at hnan
      revert hnan
      decide +kernel
  · have hbelow := ((Engine.pagesExactly_iff (.of_inLsnOrder hord) hstore (by decide)).mp hpages).below
    rw [hlive] at hbelow
    exact absurd (hbelow (List.replicate 32 255, [0, 1, 0, 0, 0, 0, 64])
      (List.mem_cons_of_mem _ (List.mem_cons_of_mem _ (List.mem_singleton_self _)))) (lt_irrefl pageScanEnd)

end World
