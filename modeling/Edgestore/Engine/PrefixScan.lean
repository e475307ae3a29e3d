import Edgestore.Engine.PageSpec

/-!
# Prefix scans

A prefix scan asks the segments for the range from the prefix to its upper bound, which is the prefix
with its last byte below `0xFF` incremented and the rest cut off, and takes from the memtable what
starts with the prefix. A prefix of nothing but `0xFF` has no upper bound; then the segments are not
asked.

## Main definitions

* `prefixUpperBound`: the exclusive upper bound of the keys with a prefix
* `MemTable.prefixEntries`: the entries of a memtable with a prefix
* `Engine.prefixCore`, `Engine.prefixInner`: the scan
* `Engine.rangeBudgeted`, `Engine.prefixBudgeted`: scans with limits

## Main results

* `prefixUpperBound_some`: between a prefix and its upper bound are the keys with the prefix
* `MemTable.find_prefixEntries`: what a memtable has under a prefix
* `Engine.prefixCore_eq`: a prefix scan merges two layers, as a range scan does
-/

variable {X : Externals} {R : List SegmentId} {fs : Fs}

/-! ### The upper bound of a prefix -/

/-- The exclusive upper bound of the keys with a prefix: the last byte below `0xFF` is incremented,
and what follows it is cut off. There is none when every byte is `0xFF`. -/
def prefixUpperBound : Bytes → Option Bytes
  | [] => none
  | b :: p =>
    match prefixUpperBound p with
    | some u => some (b :: u)
    | none => if h : b.val < 255 then some [⟨b.val + 1, Byte.succ_lt h⟩] else none

theorem prefixUpperBound_eq_none {p : Bytes} : prefixUpperBound p = none ↔ ∀ b ∈ p, b = 255 := by
  induction p with
  | nil => simp [prefixUpperBound]
  | cons b p ih =>
    rw [prefixUpperBound, List.forall_mem_cons, ← ih]
    cases hp : prefixUpperBound p with
    | some u => simp
    | none =>
      have hb : b = 255 ↔ ¬ b.val < 255 := by
        rw [Fin.ext_iff]
        have := b.isLt
        change b.val = 255 ↔ _
        omega
      by_cases hlt : b.val < 255
      · simp [hlt, hb]
      · simp [hlt, hb]

theorem cons_le_cons_iff {b c : Byte} {p k : Bytes} : b :: p ≤ c :: k ↔ b < c ∨ b = c ∧ p ≤ k := by
  rw [← not_lt, List.cons_lt_cons_iff, ← not_lt]
  constructor
  · intro h
    rcases lt_trichotomy b c with hlt | rfl | hgt
    · exact .inl hlt
    · exact .inr ⟨rfl, fun hk => h (.inr ⟨rfl, hk⟩)⟩
    · exact absurd (.inl hgt) h
  · rintro (hlt | ⟨rfl, hk⟩) (hgt | ⟨heq, hk'⟩)
    · exact absurd hlt hgt.asymm
    · exact absurd heq hlt.ne'
    · exact absurd hgt (lt_irrefl b)
    · exact hk hk'

/-- A key from a prefix of nothing but `0xFF` on has the prefix. -/
theorem le_iff_of_prefixUpperBound_none {p : Bytes} (h : prefixUpperBound p = none) (k : Bytes) :
    p ≤ k ↔ p <+: k := by
  rw [prefixUpperBound_eq_none] at h
  induction p generalizing k with
  | nil => simpa using not_lt.mp (List.not_lt_nil k)
  | cons b p ih =>
    cases k with
    | nil => simp
    | cons c k =>
      obtain rfl : b = 255 := h b (by simp)
      have hle : ¬ (255 : Byte) < c := by
        rw [Fin.lt_def]
        have := c.isLt
        change ¬ 255 < c.val
        omega
      rw [cons_le_cons_iff, List.cons_prefix_cons, ih (fun b hb => h b (by simp [hb])) k]
      simp [hle]

/-- **Between a prefix and its upper bound** are the keys with the prefix. -/
theorem prefixUpperBound_some {p u : Bytes} (h : prefixUpperBound p = some u) (k : Bytes) :
    p ≤ k ∧ k < u ↔ p <+: k := by
  induction p generalizing u k with
  | nil => cases h
  | cons b p ih =>
    rw [prefixUpperBound] at h
    cases k with
    | nil => simp
    | cons c k =>
      rw [cons_le_cons_iff, List.cons_prefix_cons]
      cases hp : prefixUpperBound p with
      | some u' =>
        rw [hp] at h
        cases h
        rw [List.cons_lt_cons_iff, ← ih hp k]
        constructor
        · rintro ⟨hlt | ⟨rfl, hle⟩, hgt | ⟨heq, hlt'⟩⟩
          · exact absurd hlt hgt.asymm
          · exact absurd heq hlt.ne'
          · exact absurd hgt (lt_irrefl b)
          · exact ⟨rfl, hle, hlt'⟩
        · rintro ⟨rfl, hle, hlt⟩
          exact ⟨.inr ⟨rfl, hle⟩, .inr ⟨rfl, hlt⟩⟩
      | none =>
        rw [hp] at h
        simp only at h
        split at h
        case isFalse => cases h
        case isTrue hb =>
          cases h
          rw [List.cons_lt_cons_iff, le_iff_of_prefixUpperBound_none hp]
          have hsucc : c < (⟨b.val + 1, by omega⟩ : Byte) ↔ c ≤ b := by
            rw [Fin.lt_def, Fin.le_def]
            exact Nat.lt_succ_iff
          constructor
          · rintro ⟨hlt | ⟨rfl, hpre⟩, hgt | ⟨-, hk⟩⟩
            · exact absurd (hsucc.mp hgt) (not_le.mpr hlt)
            · exact absurd hk (List.not_lt_nil k)
            · exact ⟨rfl, hpre⟩
            · exact absurd hk (List.not_lt_nil k)
          · rintro ⟨rfl, hpre⟩
            exact ⟨.inr ⟨rfl, hpre⟩, .inl (hsucc.mpr le_rfl)⟩

/-- The keys with a prefix form an interval. -/
theorem isPrefix_of_between {p k k' : Bytes} (hp : p ≤ k) (hk : k ≤ k') (h : p <+: k') : p <+: k := by
  obtain ⟨c, rfl⟩ := h
  have hlt : k < p ++ (c ++ [0]) := by
    rw [← List.append_assoc]
    exact hk.trans_lt (lt_append_zero _)
  obtain ⟨d, rfl⟩ := prefix_of_between (a := []) (by rwa [List.append_nil]) hlt
  exact List.prefix_append p d

theorem le_of_isPrefix {p k : Bytes} (h : p <+: k) : p ≤ k := by
  obtain ⟨c, rfl⟩ := h
  have hle : p ++ [] ≤ p ++ c := append_le_append_iff.mpr (not_lt.mp (List.not_lt_nil c))
  rwa [List.append_nil] at hle

/-! ### The memtable -/

namespace MemTable

/-- The entries from a prefix on, up to the first without it. -/
def prefixEntries (m : MemTable) (p : Bytes) : List (Bytes × MemEntry) :=
  (m.entries.filter fun q => p ≤ q.1).takeWhile fun q => p.isPrefixOf q.1

/-- The entries up to the first without the prefix are all that have it. -/
theorem prefixEntries_eq (m : MemTable) (p : Bytes) :
    m.prefixEntries p = m.entries.filter fun q => p.isPrefixOf q.1 := by
  have hfrom : ∀ l : List (Bytes × MemEntry), KeySorted l →
      (l.filter fun q => p ≤ q.1).takeWhile (fun q => p.isPrefixOf q.1) =
        l.filter fun q => p.isPrefixOf q.1 := by
    intro l
    induction l with
    | nil => exact fun _ => rfl
    | cons q l ih =>
      intro hs
      obtain ⟨hlt, hs'⟩ := keySorted_cons.mp hs
      by_cases hq : p <+: q.1
      · have hle := le_of_isPrefix hq
        simp [hq, hle, ih hs']
      · by_cases hle : p ≤ q.1
        · -- behind a key without the prefix there is none with it
          have hnone : ∀ r ∈ l, ¬ p <+: r.1 := fun r hr hpre =>
            hq (isPrefix_of_between hle (hlt r hr).le hpre)
          simpa [hq, hle] using fun a b hab => hnone (a, b) hab
        · simp [hq, hle, ih hs']
  exact hfrom m.entries m.sorted

theorem keySorted_prefixEntries (m : MemTable) (p : Bytes) : KeySorted (m.prefixEntries p) := by
  rw [prefixEntries_eq]
  exact m.sorted.filter _

theorem find_prefixEntries (m : MemTable) (p k : Bytes) :
    find (m.prefixEntries p) k = if p <+: k then m.get k else none := by
  have h := find_filter_key (l := m.entries) (fun k => p.isPrefixOf k) k
  rw [prefixEntries_eq, h]
  by_cases hk : p <+: k
  · rw [if_pos hk, if_pos (List.isPrefixOf_iff_prefix.mpr hk)]
    rfl
  · rw [if_neg hk, if_neg fun hb => hk (List.isPrefixOf_iff_prefix.mp hb)]

theorem isPrefix_of_mem_prefixEntries {m : MemTable} {p : Bytes} :
    ∀ q ∈ m.prefixEntries p, p <+: q.1 := by
  intro q hq
  rw [prefixEntries_eq] at hq
  exact List.isPrefixOf_iff_prefix.mp (List.mem_filter.mp hq).2

end MemTable

/-! ### The scan -/

namespace Engine

/-- The entries of the segments with an encoded prefix, if it has an upper bound. -/
def prefixSegments (fs : Fs) (e : Engine) (encPrefix : Bytes) (maxItems : Option ℕ) :
    Except EdgestoreError ScanResult :=
  match prefixUpperBound encPrefix with
  | some encEnd => do
    let (raw, trunc) ← e.segmentStore.rangeScanBudgeted fs encPrefix encEnd maxItems
    return (raw.filter fun q => encPrefix.isPrefixOf q.1, trunc)
  | none => .ok ([], false)

/-- A scan of memtable and segments for a prefix. -/
def prefixCore (fs : Fs) (e : Engine) (ns p : Bytes) (budget : Option ScanBudget) :
    Except EdgestoreError BudgetedScan := do
  let encPrefix ← encodeKey ns p
  let maxItems := budget.bind ScanBudget.maxItems
  let (segResults, segTruncated) ← e.prefixSegments fs encPrefix maxItems
  let memResults := e.memtable.prefixEntries encPrefix
  let stats : QueryStats := { segmentsScanned := if segResults = [] then 0 else 1 }
  dedupFilterScan budget segTruncated none [] stats (mergeSortedScans segResults memResults)

/-- The live pairs of a namespace whose key has a prefix. -/
def prefixInner (fs : Fs) (e : Engine) (ns p : Bytes) :
    Except EdgestoreError (List (Bytes × Bytes)) := do
  return (← prefixCore fs e ns p none).items

/-- A range scan with limits. -/
def rangeBudgeted (fs : Fs) (e : Engine) (ns start «end» : Bytes) (budget : ScanBudget) :
    Except EdgestoreError BudgetedScan := rangeCore fs e ns start «end» (some budget)

/-- A prefix scan with limits. -/
def prefixBudgeted (fs : Fs) (e : Engine) (ns p : Bytes) (budget : ScanBudget) :
    Except EdgestoreError BudgetedScan := prefixCore fs e ns p (some budget)

/-! ### Two layers -/

/-- A scan of the segments yields `seg`, up to a limit. It says that it stopped early if there was
more. -/
structure LimitsTo (scan : Option ℕ → Except EdgestoreError ScanResult)
    (seg : List (Bytes × MemEntry)) : Prop where
  all : scan none = .ok (seg, false)
  limit : ∀ n, 1 ≤ n → ∃ stopped, scan (some n) = .ok (seg.take n, stopped) ∧
    (stopped = false → seg.length ≤ n)

variable {e : Engine} {ns start «end» p : Bytes}

/-- A range of the segments yields their newest live entries. -/
theorem limitsTo_range (h : StoreInv X R e.segmentStore fs) (a b : Bytes) :
    LimitsTo (e.segmentStore.rangeScanBudgeted fs a b) (e.segmentLayer fs a b) := by
  obtain ⟨out, -, -, hpopped⟩ := h.rangeScanBudgeted_popped a b
  have hlayer : e.segmentLayer fs a b = (newest MemEntry.lsn out).filter fun p => p.2.op ≠ .delete := by
    rw [segmentLayer, hpopped none, collectMerged_eq]
  constructor
  · rw [hpopped none, collectMerged_eq, hlayer]
  · intro n hn
    obtain ⟨stopped, hscan, hstopped⟩ := collectMerged_limit hn out
    rw [← hlayer] at hscan hstopped
    exact ⟨stopped, (hpopped _).trans hscan, hstopped⟩

/-- The newest live entries of the segments with an encoded prefix, if it has an upper bound. -/
def prefixLayer (fs : Fs) (e : Engine) (encPrefix : Bytes) : List (Bytes × MemEntry) :=
  match prefixUpperBound encPrefix with
  | some encEnd => e.segmentLayer fs encPrefix encEnd
  | none => []

theorem keySorted_prefixLayer (h : StoreInv X R e.segmentStore fs) (enc : Bytes) :
    KeySorted (e.prefixLayer fs enc) := by
  unfold prefixLayer
  split
  · exact keySorted_segmentLayer h _ _
  · exact keySorted_nil

theorem isPrefix_of_mem_prefixLayer (h : StoreInv X R e.segmentStore fs) {enc : Bytes} :
    ∀ q ∈ e.prefixLayer fs enc, enc <+: q.1 := by
  intro q hq
  unfold prefixLayer at hq
  split at hq
  case h_1 u hu => exact (prefixUpperBound_some hu q.1).mp (segmentLayer_range h q hq)
  case h_2 => cases hq

/-- A prefix of the segments yields their newest live entries. -/
theorem limitsTo_prefixSegments (h : StoreInv X R e.segmentStore fs) (enc : Bytes) :
    LimitsTo (e.prefixSegments fs enc) (e.prefixLayer fs enc) := by
  cases hu : prefixUpperBound enc with
  | none =>
    have hseg : e.prefixLayer fs enc = [] := by rw [prefixLayer, hu]
    have hscan : ∀ m, e.prefixSegments fs enc m = .ok ([], false) := by
      intro m
      rw [prefixSegments, hu]
    rw [hseg]
    exact ⟨hscan none, fun n _ => ⟨false, by rw [hscan, List.take_nil], fun _ => Nat.zero_le _⟩⟩
  | some u =>
    have hseg : e.prefixLayer fs enc = e.segmentLayer fs enc u := by rw [prefixLayer, hu]
    have hall := limitsTo_range h enc u
    -- every entry of the range has the prefix
    have hfilter : ∀ l : List (Bytes × MemEntry), (∀ q ∈ l, q ∈ e.segmentLayer fs enc u) →
        l.filter (fun q => enc.isPrefixOf q.1) = l := by
      intro l hl
      apply List.filter_eq_self.mpr
      intro q hq
      exact List.isPrefixOf_iff_prefix.mpr
        ((prefixUpperBound_some hu q.1).mp (segmentLayer_range h q (hl q hq)))
    have hscan : ∀ m l t, e.segmentStore.rangeScanBudgeted fs enc u m = .ok (l, t) →
        (∀ q ∈ l, q ∈ e.segmentLayer fs enc u) → e.prefixSegments fs enc m = .ok (l, t) := by
      intro m l t hm hl
      rw [prefixSegments, hu]
      change (e.segmentStore.rangeScanBudgeted fs enc u m >>= fun r => _) = _
      rw [hm]
      change Except.ok (l.filter _, t) = _
      rw [hfilter l hl]
    rw [hseg]
    constructor
    · exact hscan none _ _ hall.all fun q hq => hq
    · intro n hn
      obtain ⟨stopped, hlimit, hstopped⟩ := hall.limit n hn
      exact ⟨stopped, hscan _ _ _ hlimit fun q hq => List.mem_of_mem_take hq, hstopped⟩

theorem rangeCore_eq (hns : ns.length ≤ maxNsLen) {budget : Option ScanBudget}
    {seg : List (Bytes × MemEntry)} {stopped : Bool}
    (h : e.segmentStore.rangeScanBudgeted fs (encoded ns start) (encoded ns «end»)
      (budget.bind ScanBudget.maxItems) = .ok (seg, stopped)) :
    e.rangeCore fs ns start «end» budget =
      dedupFilterScan budget stopped none [] { segmentsScanned := if seg = [] then 0 else 1 }
        (mergeBy (· < ·) seg (e.memtable.range (encoded ns start) (encoded ns «end»))) := by
  rw [rangeCore, encodeKey_eq_encoded hns, encodeKey_eq_encoded hns, ← mergeSortedScans_eq_mergeBy]
  change (e.segmentStore.rangeScanBudgeted fs (encoded ns start) (encoded ns «end»)
    (budget.bind ScanBudget.maxItems) >>= fun r => _) = _
  rw [h]
  rfl

/-- **A prefix scan** merges two layers, as a range scan does. -/
theorem prefixCore_eq (hns : ns.length ≤ maxNsLen) {budget : Option ScanBudget}
    {seg : List (Bytes × MemEntry)} {stopped : Bool}
    (h : e.prefixSegments fs (encoded ns p) (budget.bind ScanBudget.maxItems) = .ok (seg, stopped)) :
    e.prefixCore fs ns p budget =
      dedupFilterScan budget stopped none [] { segmentsScanned := if seg = [] then 0 else 1 }
        (mergeBy (· < ·) seg (e.memtable.prefixEntries (encoded ns p))) := by
  rw [prefixCore, encodeKey_eq_encoded hns, ← mergeSortedScans_eq_mergeBy]
  change (e.prefixSegments fs (encoded ns p) (budget.bind ScanBudget.maxItems) >>= fun r => _) = _
  rw [h]
  rfl

theorem encodeKey_of_isPrefix (hns : ns.length ≤ maxNsLen) {k : Bytes} (h : encoded ns p <+: k) :
    ∃ key, p <+: key ∧ encodeKey ns key = .ok k := by
  obtain ⟨c, rfl⟩ := h
  refine ⟨p ++ c, List.prefix_append p c, ?_⟩
  rw [encodeKey_eq_encoded hns]
  simp only [encoded, List.append_assoc]

@[simp] theorem encoded_isPrefix_iff {key : Bytes} : encoded ns p <+: encoded ns key ↔ p <+: key :=
  List.prefix_append_right_inj _

/-- What a prefix scan shows. -/
def prefixVisible (fs : Fs) (e : Engine) (ns p : Bytes) : List (Bytes × Bytes) :=
  shown (· < ·) MemEntry.lsn (emitted ns) (e.prefixLayer fs (encoded ns p))
    (e.memtable.prefixEntries (encoded ns p))

theorem exists_of_mem_prefixLayers (h : StoreInv X R e.segmentStore fs) (hns : ns.length ≤ maxNsLen) :
    ∀ q ∈ mergeBy (· < ·) (e.prefixLayer fs (encoded ns p))
      (e.memtable.prefixEntries (encoded ns p)), ∃ key, p <+: key ∧ encodeKey ns key = .ok q.1 := by
  intro q hq
  rcases mem_mergeBy.mp hq with hq | hq
  · exact encodeKey_of_isPrefix hns (isPrefix_of_mem_prefixLayer h q hq)
  · exact encodeKey_of_isPrefix hns (MemTable.isPrefix_of_mem_prefixEntries q hq)

/-- **A prefix scan** returns what is shown. -/
theorem prefixInner_eq (h : StoreInv X R e.segmentStore fs) (hns : ns.length ≤ maxNsLen) :
    e.prefixInner fs ns p = .ok (e.prefixVisible fs ns p) := by
  have hkeys : ∀ q ∈ mergeBy (· < ·) (e.prefixLayer fs (encoded ns p))
      (e.memtable.prefixEntries (encoded ns p)), ∃ key, encodeKey ns key = .ok q.1 := by
    intro q hq
    obtain ⟨key, -, hkey⟩ := exists_of_mem_prefixLayers h hns q hq
    exact ⟨key, hkey⟩
  obtain ⟨stats, hdedup⟩ := dedupFilterScan_eq false
    { segmentsScanned := if e.prefixLayer fs (encoded ns p) = [] then 0 else 1 } hkeys
  rw [prefixInner, prefixCore_eq hns (limitsTo_prefixSegments h _).all, hdedup]
  rfl

/-- What a prefix scan shows is sorted, has the prefix, and is the value of the entry that wins. -/
theorem prefixVisible_spec (h : StoreInv X R e.segmentStore fs) (hns : ns.length ≤ maxNsLen) :
    KeySorted (e.prefixVisible fs ns p) ∧ ∀ key, find (e.prefixVisible fs ns p) key =
      if p <+: key then
        (pick MemEntry.lsn (find (e.prefixLayer fs (encoded ns p)) (encoded ns key))
          (e.memtable.get (encoded ns key))).bind MemEntry.live
      else none := by
  have hover : Overlays (· < ·) MemEntry.lsn (e.prefixLayer fs (encoded ns p))
      (e.memtable.prefixEntries (encoded ns p)) _ :=
    .of_merge (keySorted_prefixLayer h _) (MemTable.keySorted_prefixEntries _ _)
  have hkeys : ∀ q ∈ newest MemEntry.lsn (mergeBy (· < ·) (e.prefixLayer fs (encoded ns p))
      (e.memtable.prefixEntries (encoded ns p))), ∃ key, encodeKey ns key = .ok q.1 := by
    intro q hq
    obtain ⟨key, -, hkey⟩ := exists_of_mem_prefixLayers h hns q (mem_newest hq)
    exact ⟨key, hkey⟩
  refine ⟨keySorted_emitted hover.sorted hkeys, fun key => ?_⟩
  rw [prefixVisible, shown, find_emitted hover.sorted hkeys (encodeKey_eq_encoded hns key),
    hover.find_eq, MemTable.find_prefixEntries]
  by_cases hp : p <+: key
  · rw [if_pos hp, if_pos (encoded_isPrefix_iff.mpr hp)]
  · have hnone : find (e.prefixLayer fs (encoded ns p)) (encoded ns key) = none := by
      apply find_eq_none_iff.mpr
      rintro q hq heq
      exact hp (encoded_isPrefix_iff.mp (heq ▸ isPrefix_of_mem_prefixLayer h q hq))
    rw [if_neg hp, if_neg fun hk => hp (encoded_isPrefix_iff.mp hk), hnone]
    rfl

end Engine
