import Edgestore.PrefixScans
import Edgestore.ReadBack

/-!
# What scans return

If an engine represents contents, its range scans and its scans of whole namespaces return them.

## Main results

* `Engine.Represents.find_visible`: a range shows the contents, up to its end
* `Engine.Represents.prefixInner`: a scan of a whole namespace returns its contents
-/

namespace Engine.Represents

variable {X : Externals} {R : List SegmentId} {e : Engine} {fs : Fs} {s : Contents} {ns : Bytes}

/-- A range shows the contents, up to its end. -/
theorem find_visible (h : e.Represents X R fs s) (hns : ns.length ≤ maxNsLen) («end» key : Bytes) :
    find (e.visible fs ns [] «end») key = if key < «end» then s (ns, key) else none := by
  have hstore := h.inv.store
  split
  case isTrue hlt =>
    have hk : encodeKey ns key = .ok (encoded ns key) := encodeKey_eq_ok.mpr ⟨hns, rfl⟩
    obtain ⟨items, hitems, hfound⟩ := ((h.settled _ key _ hk).reads hstore hk).2 [] «end»
      (not_lt.mp (List.not_lt_nil key)) hlt
    rw [range_eq_visible hstore hns] at hitems
    cases hitems
    exact hfound
  case isFalse hge =>
    exact find_eq_none_iff.mpr fun q hq heq => hge (heq ▸ (visible_range hstore hns q hq).2)

/-- **A scan of a whole namespace** returns its contents, if the prefix of its keys has an upper bound. -/
theorem prefixInner (h : e.Represents X R fs s) (hone : OneRecordPerLsn X fs) (hns : ns.length ≤ maxNsLen)
    (hbounded : ¬ Unbounded ns []) :
    ∃ items, Engine.prefixInner fs e ns [] = .ok items ∧ KeySorted items ∧ ∀ key, find items key = s (ns, key) := by
  have hstore := h.inv.store
  obtain ⟨items, hitems, hsorted, hagree⟩ := (prefixAgrees_iff hone hstore hns).mpr (.inl hbounded)
  refine ⟨items, hitems, hsorted, fun key => ?_⟩
  -- a range that ends behind the key shows the same of it
  have hall := hagree (key ++ [0]) _ (range_eq_visible hstore hns [] (key ++ [0]))
  have hkey := congrArg (fun l => find l key) hall
  rw [find_filter_key fun k => decide (k < key ++ [0]), find_filter_key fun k => [].isPrefixOf k,
    if_pos (decide_eq_true (lt_append_zero key)),
    if_pos (show ([] : Bytes).isPrefixOf key = true from rfl), h.find_visible hns,
    if_pos (lt_append_zero key)] at hkey
  exact hkey

end Engine.Represents
