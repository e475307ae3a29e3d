import Edgestore.Engine
import Edgestore.Segment.Reads

/-!
# What an engine reads

`get` returns the record of the memtable, or the one in the last segment that has one. `range`
returns, for every key in the range, the value of a newest record among that of the memtable and the
one the scan of the segments found.

## Main definitions

* `ScanHit l o`: what the scan of the segments contributes to a key with the records `l`
* `emitted`: the pairs a scan returns

## Main results

* `Engine.get_eq`: what `get` returns
* `Engine.range_eq`: what `range` returns
-/

variable {X : Externals} {R : List SegmentId} {fs : Fs}

/-! ### Keys of a namespace -/

/-- The key behind the namespace of an encoded key. -/
def rawKey (ns k : Bytes) : Bytes := k.drop (2 + ns.length)

theorem rawKey_encodeKey {ns key k : Bytes} (h : encodeKey ns key = .ok k) : rawKey ns k = key := by
  obtain ⟨-, rfl⟩ := encodeKey_eq_ok.mp h
  rw [rawKey, List.drop_left' (by simp)]

/-- The keys between two keys of a namespace are keys of that namespace. -/
theorem encodeKey_of_between {ns a b ka kb k : Bytes} (ha : encodeKey ns a = .ok ka)
    (hb : encodeKey ns b = .ok kb) (h : ka ≤ k) (h' : k < kb) : ∃ c, encodeKey ns c = .ok k := by
  obtain ⟨hlen, rfl⟩ := encodeKey_eq_ok.mp ha
  obtain ⟨-, rfl⟩ := encodeKey_eq_ok.mp hb
  obtain ⟨c, rfl⟩ := prefix_of_between h h'
  exact ⟨c, encodeKey_eq_ok.mpr ⟨hlen, rfl⟩⟩

/-- Encoding keeps the order of keys. -/
theorem encodeKey_lt_iff {ns a b ka kb : Bytes} (ha : encodeKey ns a = .ok ka)
    (hb : encodeKey ns b = .ok kb) : ka < kb ↔ a < b := by
  obtain ⟨-, rfl⟩ := encodeKey_eq_ok.mp ha
  obtain ⟨-, rfl⟩ := encodeKey_eq_ok.mp hb
  exact append_lt_append_iff

theorem encodeKey_le_iff {ns a b ka kb : Bytes} (ha : encodeKey ns a = .ok ka)
    (hb : encodeKey ns b = .ok kb) : ka ≤ kb ↔ a ≤ b := by
  rw [← not_lt, ← not_lt, encodeKey_lt_iff hb ha]

/-! ### Merging the scans -/

namespace Engine

/-- Merging two sorted scans sorts their entries. -/
theorem mergeSortedScans_eq {seg mem : List (Bytes × MemEntry)}
    (hseg : seg.Pairwise fun p q => p.1 ≤ q.1) (hmem : mem.Pairwise fun p q => p.1 ≤ q.1) :
    (mergeSortedScans seg mem).Perm (seg ++ mem) ∧
      (mergeSortedScans seg mem).Pairwise fun p q => p.1 ≤ q.1 := by
  induction seg generalizing mem with
  | nil => exact ⟨.refl _, hmem⟩
  | cons s seg ih =>
    obtain ⟨hs, hseg'⟩ := List.pairwise_cons.mp hseg
    rw [mergeSortedScans]
    induction mem with
    | nil =>
      rw [mergeSortedScans.go, List.append_nil]
      exact ⟨.refl _, hseg⟩
    | cons m mem ihm =>
      obtain ⟨hm, hmem'⟩ := List.pairwise_cons.mp hmem
      rw [mergeSortedScans.go]
      split
      case isTrue hle =>
        obtain ⟨hperm, hsorted⟩ := ih hseg' hmem
        refine ⟨hperm.cons s, List.pairwise_cons.mpr ⟨fun p hp => ?_, hsorted⟩⟩
        rcases List.mem_append.mp (hperm.mem_iff.mp hp) with hp | hp
        · exact hs p hp
        · rcases List.mem_cons.mp hp with rfl | hp
          · exact hle
          · exact hle.trans (hm p hp)
      case isFalse hlt =>
        obtain ⟨hperm, hsorted⟩ := ihm hmem'
        have hms : m.1 ≤ s.1 := (not_le.mp hlt).le
        refine ⟨(hperm.cons m).trans List.perm_middle.symm,
          List.pairwise_cons.mpr ⟨fun p hp => ?_, hsorted⟩⟩
        rcases List.mem_append.mp (hperm.mem_iff.mp hp) with hp | hp
        · rcases List.mem_cons.mp hp with rfl | hp
          · exact hms
          · exact hms.trans (hs p hp)
        · exact hm p hp

/-! ### Emitting -/

/-- The pair a scan returns for an entry, unless it is a tombstone. -/
def emitted (ns : Bytes) (p : Bytes × MemEntry) : Option (Bytes × Bytes) :=
  p.2.live.map fun v => (rawKey ns p.1, v)

theorem emitBest_eq {ns key : Bytes} {p : Bytes × MemEntry} (h : encodeKey ns key = .ok p.1)
    (out : List (Bytes × Bytes)) :
    emitBest p out = .ok ((emitted ns p).map fun q => out ++ [q]) := by
  rw [emitBest, emitted, MemEntry.live, rawKey_encodeKey h]
  split
  · rfl
  · cases p.2.value with
    | none => rfl
    | some v =>
      change (decodeKey p.1 >>= fun q => Except.ok (some (out ++ [(q.2, v)]))) = _
      rw [decodeKey_encodeKey h]
      rfl

/-- Without a budget, a scan returns the newest live entries. -/
theorem dedupFilterScan_some {ns : Bytes} {trunc : Bool} {b : Bytes × MemEntry}
    {l : List (Bytes × MemEntry)} {out : List (Bytes × Bytes)} {stats : QueryStats}
    (h : ∀ p ∈ b :: l, ∃ key, encodeKey ns key = .ok p.1) :
    ∃ stats', dedupFilterScan none trunc (some b) out stats l =
      .ok ⟨out ++ (newestFrom MemEntry.lsn b l).filterMap (emitted ns), trunc, stats'⟩ := by
  induction l generalizing b out stats with
  | nil =>
    obtain ⟨key, hkey⟩ := h b (by simp)
    refine ⟨stats, ?_⟩
    rw [dedupFilterScan, emitBest_eq hkey, newestFrom]
    cases hb : emitted ns b <;> simp [hb] <;> rfl
  | cons p l ih =>
    rw [dedupFilterScan, newestFrom]
    by_cases hk : p.1 = b.1
    · rw [if_pos hk, if_pos hk.symm]
      refine ih fun q hq => ?_
      rcases List.mem_cons.mp hq with rfl | hq
      · exact h b (by simp)
      · exact h q (by simp [hq])
    · obtain ⟨key, hkey⟩ := h b (by simp)
      rw [if_neg hk, if_neg (Ne.symm hk), emitBest_eq hkey]
      have hrest : ∀ q ∈ p :: l, ∃ key, encodeKey ns key = .ok q.1 :=
        fun q hq => h q (List.mem_cons_of_mem _ hq)
      cases hb : emitted ns b with
      | none =>
        obtain ⟨stats', heq⟩ := @ih p out (stats.examine p) hrest
        refine ⟨stats', ?_⟩
        rw [List.filterMap_cons, hb]
        exact heq
      | some q =>
        obtain ⟨stats', heq⟩ := @ih p (out ++ [q]) (stats.examine p) hrest
        refine ⟨stats', ?_⟩
        rw [List.filterMap_cons, hb]
        rw [List.append_assoc] at heq
        exact heq

theorem dedupFilterScan_eq {ns : Bytes} {l : List (Bytes × MemEntry)} (trunc : Bool)
    (stats : QueryStats) (h : ∀ p ∈ l, ∃ key, encodeKey ns key = .ok p.1) :
    ∃ stats', dedupFilterScan none trunc none [] stats l =
      .ok ⟨(newest MemEntry.lsn l).filterMap (emitted ns), trunc, stats'⟩ := by
  cases l with
  | nil => exact ⟨stats, rfl⟩
  | cons p l =>
    rw [dedupFilterScan]
    exact dedupFilterScan_some h

/-- The value returned for a key is that of its entry. -/
theorem find_emitted {ns key k : Bytes} {l : List (Bytes × MemEntry)} (hs : KeySorted l)
    (hl : ∀ p ∈ l, ∃ key, encodeKey ns key = .ok p.1) (hk : encodeKey ns key = .ok k) :
    find (l.filterMap (emitted ns)) key = (find l k).bind MemEntry.live := by
  induction l with
  | nil => rfl
  | cons p l ih =>
    obtain ⟨hlt, hs'⟩ := keySorted_cons.mp hs
    have ih' := ih hs' fun q hq => hl q (List.mem_cons_of_mem _ hq)
    obtain ⟨key', hkey'⟩ := hl p List.mem_cons_self
    rw [List.filterMap_cons, find_cons, emitted, rawKey_encodeKey hkey']
    by_cases hp : p.1 = k
    · rw [if_pos hp]
      obtain rfl : key' = key := (encodeKey_inj (hp ▸ hkey') hk).2
      cases hlive : p.2.live with
      | none =>
        have hnone : find l k = none := find_eq_none_of_lt fun q hq => hp ▸ hlt q hq
        rw [hnone] at ih'
        simpa [hlive] using ih'
      | some v => simp [find_cons, hlive]
    · rw [if_neg hp]
      have hne : key' ≠ key := fun h => hp (by
        rw [h] at hkey'
        exact Except.ok.inj (hkey'.symm.trans hk))
      cases hlive : p.2.live with
      | none => simpa using ih'
      | some v => simpa [find_cons, hne] using ih'

/-! ### Reads -/

/-- What the scan of the segments contributes to a key with the records `l`: a newest record, unless
it is a tombstone. -/
def ScanHit (l : List MemEntry) (o : Option MemEntry) : Prop :=
  (l = [] ∧ o = none) ∨ ∃ e, IsNewest l e ∧ o = if e.op = .delete then none else some e

theorem scanHit_of_scanned {start «end» k : Bytes} {l : List (Bytes × MemEntry)}
    (h : Scanned X fs start «end» l) (hstart : start ≤ k) (hend : k < «end») :
    ScanHit (recordsOf X fs k) (find (l.filter fun p => p.2.op ≠ .delete) k) := by
  rw [h.sorted.find_filter]
  cases hf : find l k with
  | none => exact .inl ⟨h.all k hstart hend hf, rfl⟩
  | some e =>
    refine .inr ⟨e, h.newest k e hf, ?_⟩
    by_cases he : e.op = .delete <;> simp [he]

variable {e : Engine} {ns : Bytes}

/-- **A lookup** returns the value of the record in the memtable, else that of the record in the last
segment that has one. -/
theorem get_eq (h : StoreInv X R e.segmentStore fs) {key k : Bytes} (hk : encodeKey ns key = .ok k) :
    e.get X fs ns key =
      .ok (((e.memtable.get k).or (recordsOf X fs k).getLast?).bind MemEntry.live) := by
  rw [get, hk]
  simp only [bind, Except.bind]
  cases e.memtable.get k with
  | some m => rfl
  | none =>
    rw [h.get_eq]
    cases (recordsOf X fs k).getLast? <;> rfl

/-- **A scan** returns, for every key of the range, the value of a newest record among that of the
memtable and the one the scan of the segments found. -/
theorem range_eq (h : StoreInv X R e.segmentStore fs) (hns : ns.length ≤ maxNsLen)
    (start «end» : Bytes) :
    ∃ items, e.range fs ns start «end» = .ok items ∧
      ∀ key k, encodeKey ns key = .ok k → start ≤ key → key < «end» →
        ∃ o, ScanHit (recordsOf X fs k) o ∧
          (o = none ∧ e.memtable.get k = none ∧ find items key = none ∨
            ∃ r, IsNewest (o.toList ++ (e.memtable.get k).toList) r ∧ find items key = r.live) := by
  have hstart : encodeKey ns start = .ok (beBytes 2 ns.length ++ ns ++ start) :=
    encodeKey_eq_ok.mpr ⟨hns, rfl⟩
  have hend : encodeKey ns «end» = .ok (beBytes 2 ns.length ++ ns ++ «end») :=
    encodeKey_eq_ok.mpr ⟨hns, rfl⟩
  set encStart := beBytes 2 ns.length ++ ns ++ start
  set encEnd := beBytes 2 ns.length ++ ns ++ «end»
  obtain ⟨l, hl, hscan⟩ := h.rangeScanBudgeted_eq encStart encEnd
  set seg := l.filter fun p => p.2.op ≠ .delete with hseg
  set mem := e.memtable.range encStart encEnd with hmem
  have hsegSorted : KeySorted seg := hl.sorted.filter _
  have hmemSorted : KeySorted mem := MemTable.keySorted_range _ _ _
  obtain ⟨hperm, hsorted⟩ := mergeSortedScans_eq hsegSorted.le hmemSorted.le
  have hkeys : ∀ p ∈ mergeSortedScans seg mem, ∃ key, encodeKey ns key = .ok p.1 := by
    intro p hp
    have hbetween : encStart ≤ p.1 ∧ p.1 < encEnd := by
      rcases List.mem_append.mp (hperm.mem_iff.mp hp) with hp | hp
      · exact hl.range p (List.mem_filter.mp hp).1
      · simpa using (List.mem_filter.mp hp).2
    exact encodeKey_of_between hstart hend hbetween.1 hbetween.2
  obtain ⟨stats, hdedup⟩ := dedupFilterScan_eq false
    { segmentsScanned := if seg = [] then 0 else 1 } hkeys
  set items := (newest MemEntry.lsn (mergeSortedScans seg mem)).filterMap (emitted ns) with hitems
  have hcore : e.rangeCore fs ns start «end» none = .ok ⟨items, false, stats⟩ := by
    rw [rangeCore, hstart, hend]
    change (e.segmentStore.rangeScanBudgeted fs encStart encEnd none >>= fun r => _) = _
    rw [hscan]
    exact hdedup
  refine ⟨items, by rw [range, hcore]; rfl, fun key k hk hle hlt => ?_⟩
  have hkle : encStart ≤ k := (encodeKey_le_iff hstart hk).mpr hle
  have hklt : k < encEnd := (encodeKey_lt_iff hk hend).mpr hlt
  refine ⟨find seg k, scanHit_of_scanned hl hkle hklt, ?_⟩
  have hmemGet : find mem k = e.memtable.get k := by
    rw [hmem, MemTable.find_range, if_pos ⟨hkle, hklt⟩]
  -- the entries of the key that are merged
  have hcand : ∀ v, (k, v) ∈ mergeSortedScans seg mem ↔
      v ∈ (find seg k).toList ++ (e.memtable.get k).toList := by
    intro v
    rw [hperm.mem_iff, List.mem_append, List.mem_append, Option.mem_toList, Option.mem_toList,
      ← hmemGet, hsegSorted.find_eq_some_iff,
      hmemSorted.find_eq_some_iff]
  rw [hitems, find_emitted (keySorted_newest hsorted) (fun p hp => hkeys p (mem_newest hp)) hk]
  cases hf : find (newest MemEntry.lsn (mergeSortedScans seg mem)) k with
  | none =>
    have hnone : (find seg k).toList ++ (e.memtable.get k).toList = [] :=
      List.eq_nil_iff_forall_not_mem.mpr fun v hv => find_newest_eq_none hf v ((hcand v).mpr hv)
    obtain ⟨hs, hm⟩ := List.append_eq_nil_iff.mp hnone
    exact .inl ⟨by simpa using hs, by simpa using hm, rfl⟩
  | some r =>
    obtain ⟨hin, hmax⟩ := find_newest hsorted hf
    exact .inr ⟨r, ⟨(hcand r).mp hin, fun r' hr' => hmax r' ((hcand r').mpr hr')⟩, rfl⟩

end Engine
