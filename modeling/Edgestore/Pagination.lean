import Edgestore.Engine.PageSpec
import Edgestore.PointReads

/-!
# Pagination

Asking for pages until no cursor comes back should read exactly what a range returns. A page cuts the
scan of the segments at the page size, before the memtable is merged in. Deletions in the memtable
then leave the page short, and entries of the memtable beyond the cut take the place of what the
segments hold in between.

## Main definitions

* `Engine.PagesForward`, `Engine.PagesBackward`: the pages of a range are what the range returns
* `Engine.ForwardCovers`, `Engine.BackwardCovers`: the first page of a range is what comes first

## Main results

* `Engine.pagesForward_iff`, `Engine.pagesBackward_iff`: paging is exact if and only if the first page
  of every range that it can come to covers what comes first
* `World.deletions_end_forward_pages`, `World.deletions_end_reverse_pages`: deletions end paging early
-/

variable {X : Externals} {R : List SegmentId} {fs : Fs}

namespace Engine

/-- Asking for forward pages ends, and reads what the range returns. -/
def PagesForward (fs : Fs) (e : Engine) (ns start «end» : Bytes) (n : ℕ) : Prop :=
  ∃ k items, e.range fs ns start «end» = .ok items ∧
    e.pagesFrom fs ns start «end» n k none = .ok (some items)

/-- Asking for reverse pages ends, and reads what the range returns, in descending order. -/
def PagesBackward (fs : Fs) (e : Engine) (ns start «end» : Bytes) (n : ℕ) : Prop :=
  ∃ k items, e.range fs ns start «end» = .ok items ∧
    e.revPagesFrom fs ns start «end» n k none = .ok (some items.reverse)

/-- **The first forward page is what comes first.** If more than `n` entries of the segments are live
in the range, then up to the `n`-th of them `n` pairs are visible, or the memtable alone shows beyond it
what is visible there. If nothing is shown, nothing may be visible. -/
def ForwardCovers (fs : Fs) (e : Engine) (ns start «end» : Bytes) (n : ℕ) : Prop :=
  PageCovers (· < ·) MemEntry.lsn (emitted ns) n (fun i => i = 0)
    (e.segmentLayer fs (encoded ns start) (encoded ns «end»))
    (e.memtable.range (encoded ns start) (encoded ns «end»))

/-- **The first reverse page is what comes last.** If fewer than `n` pairs are shown, nothing more may
be visible. -/
def BackwardCovers (fs : Fs) (e : Engine) (ns start «end» : Bytes) (n : ℕ) : Prop :=
  PageCovers (· > ·) MemEntry.lsn (emitted ns) n (fun i => i < n)
    (e.segmentLayer fs (encoded ns start) (encoded ns «end»)).reverse
    (e.memtable.range (encoded ns start) (encoded ns «end»)).reverse

variable {e : Engine} {ns start «end» : Bytes} {n : ℕ}

/-- The keys shown by entries of a range are in the range. -/
theorem shown_range {r : Bytes → Bytes → Prop} [DecidableRel r] {a b : Bytes}
    {s m : List (Bytes × MemEntry)} (hns : ns.length ≤ maxNsLen)
    (hs : ∀ p ∈ s, encoded ns a ≤ p.1 ∧ p.1 < encoded ns b)
    (hm : ∀ p ∈ m, encoded ns a ≤ p.1 ∧ p.1 < encoded ns b) :
    ∀ q ∈ shown r MemEntry.lsn (emitted ns) s m, a ≤ q.1 ∧ q.1 < b := by
  intro q hq
  obtain ⟨p, hp, hpq⟩ := List.mem_filterMap.mp hq
  have hin := mem_mergeBy.mp (mem_newest hp)
  obtain ⟨key, hkey⟩ := exists_encoded hns hs hm p hin
  have hbetween := hin.elim (hs p) (hm p)
  simp only [emitted, rawKey_encodeKey hkey, Option.map_eq_some_iff] at hpq
  obtain ⟨v, -, rfl⟩ := hpq
  obtain ⟨-, hp1⟩ := encodeKey_eq_ok.mp hkey
  change p.1 = encoded ns key at hp1
  rwa [hp1, encoded_le_iff, encoded_lt_iff] at hbetween

/-- A page with a cursor ends with the key of the cursor. -/
theorem exists_of_getLast?_map {items : List (Bytes × Bytes)} {k : Bytes}
    (h : items.getLast?.map Prod.fst = some k) : ∃ pre v, items = pre ++ [(k, v)] := by
  obtain ⟨⟨k', v⟩, hlast, rfl⟩ := Option.map_eq_some_iff.mp h
  obtain ⟨pre, rfl⟩ := List.getLast?_eq_some_iff.mp hlast
  exact ⟨pre, v, rfl⟩

/-! ### Forward pages -/

/-- The page at a cursor, as the pager asks for it. -/
def forwardPage (fs : Fs) (e : Engine) (ns start «end» : Bytes) (n : ℕ) (cursor : Option Bytes) :
    Except EdgestoreError (List (Bytes × Bytes) × Option (Option Bytes)) :=
  (e.rangePage fs ns start «end» cursor n).map fun p => (p.items, p.nextKey.map some)

/-- What is left at a cursor. -/
def leftForward (fs : Fs) (e : Engine) (ns start «end» : Bytes) (cursor : Option Bytes) :
    List (Bytes × Bytes) := e.visible fs ns (effectiveStart start cursor) «end»

/-- **One page** is what comes next if and only if it covers. -/
theorem forwardPage_exact_iff (h : StoreInv X R e.segmentStore fs) (hns : ns.length ≤ maxNsLen)
    (hn : 1 ≤ n) {cursor : Option Bytes} {p : List (Bytes × Bytes) × Option (Option Bytes)}
    (hp : e.forwardPage fs ns start «end» n cursor = .ok p) :
    PageExact (e.leftForward fs ns start «end») cursor p ↔
      e.ForwardCovers fs ns (effectiveStart start cursor) «end» n := by
  set a := effectiveStart start cursor with ha
  obtain ⟨truncated, hpage, htrunc, hall⟩ := rangePage_eq h hns hn start «end» cursor rfl rfl
  rw [← ha] at hpage htrunc hall
  set seg := e.segmentLayer fs (encoded ns a) (encoded ns «end») with hseg
  set mem := e.memtable.range (encoded ns a) (encoded ns «end») with hmem
  set page := shown (· < ·) MemEntry.lsn (emitted ns) (seg.take n) mem with hpageDef
  rw [forwardPage, hpage] at hp
  cases hp
  have hleft : e.leftForward fs ns start «end» cursor = shown (· < ·) MemEntry.lsn (emitted ns) seg mem := rfl
  -- an empty page has no successor
  have hempty : (page.take n).getLast?.map Prod.fst = none ↔ page.length = 0 := by
    rw [Option.map_eq_none_iff, List.getLast?_eq_none_iff, List.take_eq_nil_iff,
      List.length_eq_zero_iff]
    exact or_iff_right (Nat.ne_of_gt hn)
  by_cases hlt : n < seg.length
  · rw [ForwardCovers, pageCovers_iff (keySorted_segmentLayer h _ _).keysBy
      (MemTable.keySorted_range _ _ _).keysBy hn (by omega) hlt, PageExact, hleft]
    refine and_congr_right fun _ => imp_congr_left ?_
    rw [htrunc hlt, if_pos rfl, Option.map_eq_none_iff]
    exact hempty
  · -- the page sees the segments whole
    have htake : seg.take n = seg := List.take_of_length_le (not_lt.mp hlt)
    refine iff_of_true ⟨?_, fun hnext => ?_⟩ fun q _ hlt' => absurd hlt' hlt
    · rw [hleft, hpageDef, htake]
      exact List.take_prefix n _
    · rw [hleft, ← htake]
      apply List.take_of_length_le
      cases truncated with
      | false => exact hall rfl
      | true =>
        rw [if_pos rfl, Option.map_eq_none_iff] at hnext
        exact (hempty.mp hnext).trans_le (Nat.zero_le n)

/-- The pager never fails. -/
theorem exists_forwardPage (h : StoreInv X R e.segmentStore fs) (hns : ns.length ≤ maxNsLen)
    (hn : 1 ≤ n) (cursor : Option Bytes) : ∃ p, e.forwardPage fs ns start «end» n cursor = .ok p := by
  obtain ⟨truncated, hpage, -⟩ := rangePage_eq h hns hn start «end» cursor rfl rfl
  exact ⟨_, by rw [forwardPage, hpage]; rfl⟩

/-- A forward page has keys of the range behind its cursor, and ends with its next cursor. -/
theorem forwardPage_next (h : StoreInv X R e.segmentStore fs) (hns : ns.length ≤ maxNsLen)
    (hn : 1 ≤ n) {cursor next : Option Bytes} {items : List (Bytes × Bytes)}
    (hp : e.forwardPage fs ns start «end» n cursor = .ok (items, some next)) :
    ∃ pre k v, items = pre ++ [(k, v)] ∧ next = some k ∧ effectiveStart start cursor ≤ k ∧ k < «end» := by
  obtain ⟨truncated, hpage, -⟩ := rangePage_eq h hns hn start «end» cursor rfl rfl
  rw [forwardPage, hpage] at hp
  simp only [Except.map, Except.ok.injEq, Prod.mk.injEq, Option.map_eq_some_iff] at hp
  obtain ⟨hitems, k, hk, rfl⟩ := hp
  split at hk
  case isFalse => cases hk
  case isTrue =>
    rw [hitems] at hk
    obtain ⟨pre, v, heq⟩ := exists_of_getLast?_map hk
    refine ⟨pre, k, v, heq, rfl, ?_⟩
    have hmem : (k, v) ∈ items := by
      rw [heq]
      exact List.mem_append_right _ List.mem_cons_self
    rw [← hitems] at hmem
    exact shown_range hns (fun p hp => segmentLayer_range h p (List.mem_of_mem_take hp))
      (memtable_range _ _ _) _ (List.mem_of_mem_take hmem)

theorem advances_forward (hone : OneRecordPerLsn X fs) (h : StoreInv X R e.segmentStore fs)
    (hns : ns.length ≤ maxNsLen) (hn : 1 ≤ n) :
    Advances (e.forwardPage fs ns start «end» n) (e.leftForward fs ns start «end») := by
  intro cursor items next hp
  obtain ⟨pre, k, v, heq, rfl, hle, -⟩ := forwardPage_next h hns hn hp
  refine ⟨by simp [heq], ?_⟩
  rintro ⟨rest, hrest⟩
  -- the next page starts right behind the last key
  have hsorted : KeySorted (e.leftForward fs ns start «end» cursor) := keySorted_visible h hns
  have hsuffix : e.leftForward fs ns start «end» (some k) =
      (e.leftForward fs ns start «end» cursor).filter fun q => k < q.1 := by
    rw [leftForward, effectiveStart, visible_suffix hone h hns (hle.trans (lt_append_zero k).le)]
    simp only [append_zero_le_iff]
    rfl
  rw [hsuffix, ← hrest, List.drop_left, heq]
  rw [← hrest, heq] at hsorted
  exact KeysBy.filter_beyond hsorted.keysBy

/-- Paging from a key on only comes to later keys, and does not go past the end. -/
theorem reaches_forward (h : StoreInv X R e.segmentStore fs) (hns : ns.length ≤ maxNsLen)
    (hn : 1 ≤ n) {cursor cursor' : Option Bytes}
    (hreach : Reaches (e.forwardPage fs ns start «end» n) cursor cursor') :
    effectiveStart start cursor ≤ effectiveStart start cursor' ∧
      (effectiveStart start cursor ≤ «end» → effectiveStart start cursor' ≤ «end») := by
  induction hreach with
  | refl => exact ⟨le_rfl, fun hle => hle⟩
  | next hp _ ih =>
    obtain ⟨-, k, -, -, rfl, hle, hlt⟩ := forwardPage_next h hns hn hp
    exact ⟨(hle.trans (lt_append_zero k).le).trans ih.1, fun _ => ih.2 (append_zero_le_iff.mpr hlt)⟩

/-- The pages of a range are those of the pager. -/
theorem pagesForward_iff_left (h : StoreInv X R e.segmentStore fs) (hns : ns.length ≤ maxNsLen) :
    e.PagesForward fs ns start «end» n ↔ ∃ k, pages (e.forwardPage fs ns start «end» n) k none =
      .ok (some (e.leftForward fs ns start «end» none)) := by
  refine exists_congr fun k => ?_
  rw [range_eq_visible h hns]
  constructor
  · rintro ⟨items, hitems, hpages⟩
    cases hitems
    exact hpages
  · intro hpages
    exact ⟨_, rfl, hpages⟩

/-- **Forward paging** of a range and of all its tails is exact if and only if the first page of each of
them covers what comes first. -/
theorem pagesForward_iff (hone : OneRecordPerLsn X fs) (h : StoreInv X R e.segmentStore fs)
    (hns : ns.length ≤ maxNsLen) (hn : 1 ≤ n) :
    (∀ start', start ≤ start' → start' ≤ «end» → e.PagesForward fs ns start' «end» n) ↔
      ∀ start', start ≤ start' → start' ≤ «end» → e.ForwardCovers fs ns start' «end» n := by
  constructor
  · intro hpages start' hle hend
    have hexact := (pages_eq_iff (exists_forwardPage h hns hn) (advances_forward hone h hns hn)).mp
      ((pagesForward_iff_left h hns).mp (hpages start' hle hend))
    obtain ⟨p, hp⟩ : ∃ p, e.forwardPage fs ns start' «end» n none = .ok p :=
      exists_forwardPage h hns hn none
    exact (forwardPage_exact_iff h hns hn hp).mp (hexact none p (.refl none) hp)
  · intro hcovers start' hle hend
    refine (pagesForward_iff_left h hns).mpr ?_
    refine (pages_eq_iff (exists_forwardPage h hns hn) (advances_forward hone h hns hn)).mpr ?_
    intro cursor p hreach hp
    obtain ⟨hlater, hinside⟩ := reaches_forward h hns hn hreach
    exact (forwardPage_exact_iff h hns hn hp).mpr (hcovers _ (hle.trans hlater) (hinside hend))

/-! ### Reverse pages -/

/-- The reverse page at a cursor, as the pager asks for it. -/
def backwardPage (fs : Fs) (e : Engine) (ns start «end» : Bytes) (n : ℕ) (cursor : Option Bytes) :
    Except EdgestoreError (List (Bytes × Bytes) × Option (Option Bytes)) :=
  (e.rangeRevPage fs ns start «end» cursor n).map fun p => (p.items, p.nextKey.map some)

/-- What is left below a cursor. -/
def leftBackward (fs : Fs) (e : Engine) (ns start «end» : Bytes) (cursor : Option Bytes) :
    List (Bytes × Bytes) := (e.visible fs ns start (cursor.getD «end»)).reverse

/-- **One reverse page** is what comes next if and only if it covers. -/
theorem backwardPage_exact_iff (hone : OneRecordPerLsn X fs) (h : StoreInv X R e.segmentStore fs)
    (hns : ns.length ≤ maxNsLen) (hn : 1 ≤ n) {cursor : Option Bytes}
    {p : List (Bytes × Bytes) × Option (Option Bytes)}
    (hp : e.backwardPage fs ns start «end» n cursor = .ok p) :
    PageExact (e.leftBackward fs ns start «end») cursor p ↔
      e.BackwardCovers fs ns start (cursor.getD «end») n := by
  have hpage := rangeRevPage_eq hone h hns hn start «end» cursor rfl rfl rfl
  set b := cursor.getD «end» with hb
  set seg := e.segmentLayer fs (encoded ns start) (encoded ns b) with hseg
  set mem := e.memtable.range (encoded ns start) (encoded ns b) with hmem
  set page := shown (· > ·) MemEntry.lsn (emitted ns) (seg.reverse.take n) mem.reverse with hpageDef
  rw [backwardPage, hpage] at hp
  cases hp
  have hleft : e.leftBackward fs ns start «end» cursor =
      shown (· > ·) MemEntry.lsn (emitted ns) seg.reverse mem.reverse := (shown_reverse h).symm
  -- a page that is not full has no successor
  have hshort : (if (page.take n).length ≥ n then (page.take n).getLast?.map Prod.fst else none) = none ↔
      page.length < n := by
    rw [List.length_take]
    split
    case isTrue hfull =>
      rw [Option.map_eq_none_iff, List.getLast?_eq_none_iff, List.take_eq_nil_iff,
        ← List.length_eq_zero_iff]
      omega
    case isFalse hfull => exact iff_of_true rfl (by omega)
  by_cases hlt : n < seg.reverse.length
  · rw [BackwardCovers, pageCovers_iff (keySorted_segmentLayer h _ _).keysBy.reverse
      (MemTable.keySorted_range _ _ _).keysBy.reverse hn (fun _ => Nat.le_of_lt) hlt, PageExact, hleft]
    refine and_congr_right fun _ => imp_congr_left ?_
    rw [Option.map_eq_none_iff]
    exact hshort
  · -- the page sees the segments whole
    have htake : seg.reverse.take n = seg.reverse := List.take_of_length_le (not_lt.mp hlt)
    refine iff_of_true ⟨?_, fun hnext => ?_⟩ fun q _ hlt' => absurd hlt' hlt
    · rw [hleft, hpageDef, htake]
      exact List.take_prefix n _
    · rw [hleft, ← htake]
      apply List.take_of_length_le
      rw [Option.map_eq_none_iff] at hnext
      exact (hshort.mp hnext).le

theorem exists_backwardPage (hone : OneRecordPerLsn X fs) (h : StoreInv X R e.segmentStore fs)
    (hns : ns.length ≤ maxNsLen) (hn : 1 ≤ n) (cursor : Option Bytes) :
    ∃ p, e.backwardPage fs ns start «end» n cursor = .ok p :=
  ⟨_, by rw [backwardPage, rangeRevPage_eq hone h hns hn start «end» cursor rfl rfl rfl]; rfl⟩

/-- A reverse page has keys of the range below its cursor, and ends with its next cursor. -/
theorem backwardPage_next (hone : OneRecordPerLsn X fs) (h : StoreInv X R e.segmentStore fs)
    (hns : ns.length ≤ maxNsLen) (hn : 1 ≤ n) {cursor next : Option Bytes}
    {items : List (Bytes × Bytes)}
    (hp : e.backwardPage fs ns start «end» n cursor = .ok (items, some next)) :
    ∃ pre k v, items = pre ++ [(k, v)] ∧ next = some k ∧ start ≤ k ∧ k < cursor.getD «end» := by
  rw [backwardPage, rangeRevPage_eq hone h hns hn start «end» cursor rfl rfl rfl] at hp
  simp only [Except.map, Except.ok.injEq, Prod.mk.injEq, Option.map_eq_some_iff] at hp
  obtain ⟨hitems, k, hk, rfl⟩ := hp
  split at hk
  case isFalse => cases hk
  case isTrue =>
    rw [hitems] at hk
    obtain ⟨pre, v, heq⟩ := exists_of_getLast?_map hk
    refine ⟨pre, k, v, heq, rfl, ?_⟩
    have hmem : (k, v) ∈ items := by
      rw [heq]
      exact List.mem_append_right _ List.mem_cons_self
    rw [← hitems] at hmem
    exact shown_range hns
      (fun p hp => segmentLayer_range h p (List.mem_reverse.mp (List.mem_of_mem_take hp)))
      (fun p hp => memtable_range _ _ _ p (List.mem_reverse.mp hp)) _ (List.mem_of_mem_take hmem)

theorem advances_backward (hone : OneRecordPerLsn X fs) (h : StoreInv X R e.segmentStore fs)
    (hns : ns.length ≤ maxNsLen) (hn : 1 ≤ n) :
    Advances (e.backwardPage fs ns start «end» n) (e.leftBackward fs ns start «end») := by
  intro cursor items next hp
  obtain ⟨pre, k, v, heq, rfl, -, hlt⟩ := backwardPage_next hone h hns hn hp
  refine ⟨by simp [heq], ?_⟩
  rintro ⟨rest, hrest⟩
  -- the next page ends right in front of the last key
  have hsorted : KeysBy (· > ·) (e.leftBackward fs ns start «end» cursor) :=
    (keySorted_visible h hns).keysBy.reverse
  have hnext : e.leftBackward fs ns start «end» (some k) =
      (e.leftBackward fs ns start «end» cursor).filter fun q => k > q.1 := by
    rw [leftBackward, Option.getD_some, visible_prefix hone h hns hlt.le, ← List.filter_reverse]
    rfl
  rw [hnext, ← hrest, List.drop_left, heq]
  rw [← hrest, heq] at hsorted
  exact KeysBy.filter_beyond hsorted

/-- Paging down from a key only comes to lesser keys, and does not go past the start. -/
theorem reaches_backward (hone : OneRecordPerLsn X fs) (h : StoreInv X R e.segmentStore fs)
    (hns : ns.length ≤ maxNsLen) (hn : 1 ≤ n) {cursor cursor' : Option Bytes}
    (hreach : Reaches (e.backwardPage fs ns start «end» n) cursor cursor') :
    cursor'.getD «end» ≤ cursor.getD «end» ∧
      (start ≤ cursor.getD «end» → start ≤ cursor'.getD «end») := by
  induction hreach with
  | refl => exact ⟨le_rfl, fun hle => hle⟩
  | next hp _ ih =>
    obtain ⟨-, k, -, -, rfl, hle, hlt⟩ := backwardPage_next hone h hns hn hp
    exact ⟨ih.1.trans hlt.le, fun _ => ih.2 hle⟩

theorem pagesBackward_iff_left (h : StoreInv X R e.segmentStore fs) (hns : ns.length ≤ maxNsLen) :
    e.PagesBackward fs ns start «end» n ↔ ∃ k, pages (e.backwardPage fs ns start «end» n) k none =
      .ok (some (e.leftBackward fs ns start «end» none)) := by
  refine exists_congr fun k => ?_
  rw [range_eq_visible h hns]
  constructor
  · rintro ⟨items, hitems, hpages⟩
    cases hitems
    exact hpages
  · intro hpages
    exact ⟨_, rfl, hpages⟩

/-- **Reverse paging** of a range and of all its heads is exact if and only if the first page of each
of them covers what comes last. -/
theorem pagesBackward_iff (hone : OneRecordPerLsn X fs) (h : StoreInv X R e.segmentStore fs)
    (hns : ns.length ≤ maxNsLen) (hn : 1 ≤ n) :
    (∀ end', start ≤ end' → end' ≤ «end» → e.PagesBackward fs ns start end' n) ↔
      ∀ end', start ≤ end' → end' ≤ «end» → e.BackwardCovers fs ns start end' n := by
  constructor
  · intro hpages end' hstart hle
    have hexact := (pages_eq_iff (exists_backwardPage hone h hns hn)
      (advances_backward hone h hns hn)).mp ((pagesBackward_iff_left h hns).mp (hpages end' hstart hle))
    obtain ⟨p, hp⟩ : ∃ p, e.backwardPage fs ns start end' n none = .ok p :=
      exists_backwardPage hone h hns hn none
    exact (backwardPage_exact_iff hone h hns hn hp).mp (hexact none p (.refl none) hp)
  · intro hcovers end' hstart hle
    refine (pagesBackward_iff_left h hns).mpr ?_
    refine (pages_eq_iff (exists_backwardPage hone h hns hn) (advances_backward hone h hns hn)).mpr ?_
    intro cursor p hreach hp
    obtain ⟨hlesser, hinside⟩ := reaches_backward hone h hns hn hreach
    exact (backwardPage_exact_iff hone h hns hn hp).mpr (hcovers _ (hinside hstart) (hlesser.trans hle))

end Engine

namespace World

/-- Asking the open engine for forward pages of a range reads what the range returns. -/
def PagesForward (w : World) (ns start «end» : Bytes) (n : ℕ) : Prop :=
  ∀ e, w.engine = some e → e.PagesForward w.fs ns start «end» n

/-- Asking the open engine for reverse pages of a range reads what the range returns. -/
def PagesBackward (w : World) (ns start «end» : Bytes) (n : ℕ) : Prop :=
  ∀ e, w.engine = some e → e.PagesBackward w.fs ns start «end» n

/-- Four keys are flushed, and the two in the middle deleted. -/
def deletedMiddle : List Call :=
  [{ op := .open {} }, { op := .put [1] [1] [10] }, { op := .put [1] [2] [20] },
    { op := .put [1] [3] [30] }, { op := .put [1] [4] [40] }, { op := .flushToSegments },
    { op := .delete [1] [2] }, { op := .delete [1] [3] }]

/-- The run registers its segments in the order of their records. -/
theorem inLsnOrder_deletedMiddle :
    WorldInv plainExternals (Run.from (step plainExternals) {} deletedMiddle) ∧
      ∀ k, InLsnOrder
        (recordsOf plainExternals (Run.from (step plainExternals) {} deletedMiddle).fs k) :=
  inLsnOrder_of_registersInOrder (by decide +kernel)

theorem pagesForward_iff_deletedMiddle :
    ∃ e, (Run.from (step plainExternals) {} deletedMiddle).engine = some e ∧
      ((∀ start', [2] ≤ start' → start' ≤ [9] → e.PagesForward
          (Run.from (step plainExternals) {} deletedMiddle).fs [1] start' [9] 1) ↔
        ∀ start', [2] ≤ start' → start' ≤ [9] → e.ForwardCovers
          (Run.from (step plainExternals) {} deletedMiddle).fs [1] start' [9] 1) := by
  obtain ⟨hw, hord⟩ := inLsnOrder_deletedMiddle
  obtain ⟨e, he⟩ : ∃ e, (Run.from (step plainExternals) {} deletedMiddle).engine = some e :=
    Option.isSome_iff_exists.mp (by decide +kernel)
  exact ⟨e, he, Engine.pagesForward_iff (.of_inLsnOrder hord) (hw.engine e he).store (by decide)
    (by decide)⟩

theorem pagesBackward_iff_deletedMiddle :
    ∃ e, (Run.from (step plainExternals) {} deletedMiddle).engine = some e ∧
      ((∀ end', [1] ≤ end' → end' ≤ [4] → e.PagesBackward
          (Run.from (step plainExternals) {} deletedMiddle).fs [1] [1] end' 1) ↔
        ∀ end', [1] ≤ end' → end' ≤ [4] → e.BackwardCovers
          (Run.from (step plainExternals) {} deletedMiddle).fs [1] [1] end' 1) := by
  obtain ⟨hw, hord⟩ := inLsnOrder_deletedMiddle
  obtain ⟨e, he⟩ : ∃ e, (Run.from (step plainExternals) {} deletedMiddle).engine = some e :=
    Option.isSome_iff_exists.mp (by decide +kernel)
  exact ⟨e, he, Engine.pagesBackward_iff (.of_inLsnOrder hord) (hw.engine e he).store (by decide)
    (by decide)⟩

/-- What the range and the first page return, forward from the first deleted key. -/
theorem page_deletedMiddle :
    ((Run.from (step plainExternals) {} deletedMiddle).engine.map fun e =>
      (e.range (Run.from (step plainExternals) {} deletedMiddle).fs [1] [2] [9],
        e.rangePage (Run.from (step plainExternals) {} deletedMiddle).fs [1] [2] [9] none 1)) =
      some (.ok [([4], [40])], .ok ⟨[], none⟩) := by
  decide +kernel

/-- **Deletions end the forward pages early**: the first page is empty, and no cursor comes back, though
a key is left. -/
theorem deletions_end_forward_pages :
    ¬ (Run.from (step plainExternals) {} deletedMiddle).PagesForward [1] [2] [9] 1 := by
  intro h
  obtain ⟨e, he, hread⟩ := Option.map_eq_some_iff.mp page_deletedMiddle
  obtain ⟨hrange, hpage⟩ := Prod.mk.inj hread
  obtain ⟨k, items, hitems, hpages⟩ := h e he
  rw [hrange, Except.ok.injEq] at hitems
  cases k with
  | zero => cases hpages
  | succ k =>
    rw [Engine.pagesFrom, pages_last (by rw [hpage]; rfl), ← hitems] at hpages
    cases hpages

/-- What the range and the first reverse page return, below the last key. -/
theorem revPage_deletedMiddle :
    ((Run.from (step plainExternals) {} deletedMiddle).engine.map fun e =>
      (e.range (Run.from (step plainExternals) {} deletedMiddle).fs [1] [1] [4],
        e.rangeRevPage (Run.from (step plainExternals) {} deletedMiddle).fs [1] [1] [4] none 1)) =
      some (.ok [([1], [10])], .ok ⟨[], none⟩) := by
  decide +kernel

/-- **Deletions end the reverse pages early**: the first page is empty, and no cursor comes back, though
a key is left. -/
theorem deletions_end_reverse_pages :
    ¬ (Run.from (step plainExternals) {} deletedMiddle).PagesBackward [1] [1] [4] 1 := by
  intro h
  obtain ⟨e, he, hread⟩ := Option.map_eq_some_iff.mp revPage_deletedMiddle
  obtain ⟨hrange, hpage⟩ := Prod.mk.inj hread
  obtain ⟨k, items, hitems, hpages⟩ := h e he
  rw [hrange, Except.ok.injEq] at hitems
  cases k with
  | zero => cases hpages
  | succ k =>
    rw [Engine.revPagesFrom, pages_last (by rw [hpage]; rfl), ← hitems] at hpages
    cases hpages

end World
