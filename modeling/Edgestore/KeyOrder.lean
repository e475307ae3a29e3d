import Edgestore.Engine.PrefixScan

/-!
# The order of encoded keys

An encoded key is the length of its namespace, the namespace and the key. The lengths and the namespaces of
two encoded keys are compared before the keys are, so that the keys of a namespace are an interval in which
they have their own order. A prefix of a key is an interval as well, which ends at the upper bound of the prefix,
unless nothing is above the prefix but what starts with it.

## Main definitions

* `BoundsPrefix p u`: the keys with a prefix are those from the prefix to a bound

## Main results

* `prefixUpperBound_concat`: the upper bound, as it is found from the last byte to the first
* `prefixUpperBound_eq_none_iff`: a prefix has no upper bound if it has none of that kind
* `encodeKey_orderEmbedding`: keys are encoded in their order, and without mixing namespaces
-/

variable {p u ns ns' a b c k ka kb : Bytes}

/-! ### Prefixes -/

/-- The keys with a prefix are those from the prefix on that are below `u`. -/
def BoundsPrefix (p u : Bytes) : Prop := ∀ k, p ≤ k ∧ k < u ↔ p <+: k

/-- The last byte is incremented if it is below `0xFF`, and otherwise cut off. -/
theorem prefixUpperBound_concat (p : Bytes) (b : Byte) : prefixUpperBound (p ++ [b]) =
    if h : b.val < 255 then some (p ++ [⟨b.val + 1, Byte.succ_lt h⟩]) else prefixUpperBound p := by
  induction p with
  | nil => rfl
  | cons c p ih =>
    rw [List.cons_append, prefixUpperBound, ih]
    by_cases h : b.val < 255
    · rw [dif_pos h, dif_pos h, List.cons_append]
    · rw [dif_neg h, dif_neg h, prefixUpperBound]

/-- **A prefix has no upper bound** if there is no byte string that bounds the keys with the prefix. -/
theorem prefixUpperBound_eq_none_iff : prefixUpperBound p = none ↔ ¬ ∃ u, BoundsPrefix p u := by
  constructor
  · rintro hnone ⟨u, hu⟩
    -- the bound is neither below the prefix nor does it start with it
    have hlt : p < u := ((hu p).mpr (List.prefix_refl p)).2
    have hpre : p <+: u := (le_iff_of_prefixUpperBound_none hnone u).mp hlt.le
    exact lt_irrefl u ((hu u).mpr hpre).2
  · intro h
    cases hp : prefixUpperBound p with
    | none => rfl
    | some u => exact absurd ⟨u, prefixUpperBound_some hp⟩ h

/-! ### Keys -/

/-- **Between two keys of a namespace** are only keys of this namespace. -/
theorem ns_eq_of_between (ha : encodeKey ns a = .ok ka) (hb : encodeKey ns b = .ok kb)
    (hc : encodeKey ns' c = .ok k) (hak : ka ≤ k) (hkb : k ≤ kb) : ns' = ns := by
  obtain ⟨hns, rfl⟩ := encodeKey_eq_ok.mp ha
  obtain ⟨-, rfl⟩ := encodeKey_eq_ok.mp hb
  have hpre : beBytes 2 ns.length ++ ns <+: k :=
    isPrefix_of_between ((le_of_isPrefix (List.prefix_append _ a)).trans hak) hkb (List.prefix_append _ b)
  obtain ⟨d, rfl⟩ := hpre
  -- the string is an encoded key of both namespaces
  exact (encodeKey_inj hc (encodeKey_eq_ok.mpr ⟨hns, rfl⟩)).1

/-- **Keys are encoded in their order, and without mixing namespaces.** What is encoded is decoded, different
keys have different encodings, the keys of a namespace keep their order, and no key of another one is between
them. A prefix has an upper bound if there is one, and this bounds the keys with the prefix. -/
theorem encodeKey_orderEmbedding :
    (∀ ns key : Bytes, ns.length ≤ maxNsLen →
      ∃ k, encodeKey ns key = .ok k ∧ decodeKey k = .ok (ns, key)) ∧
    (∀ ns key ns' key' k : Bytes, encodeKey ns key = .ok k → encodeKey ns' key' = .ok k →
      (ns, key) = (ns', key')) ∧
    (∀ ns a b ka kb : Bytes, encodeKey ns a = .ok ka → encodeKey ns b = .ok kb → (ka < kb ↔ a < b)) ∧
    (∀ ns ns' a b c ka kb kc : Bytes, encodeKey ns a = .ok ka → encodeKey ns b = .ok kb →
      encodeKey ns' c = .ok kc → ns ≠ ns' → ¬ (ka ≤ kc ∧ kc ≤ kb)) ∧
    (∀ p u : Bytes, prefixUpperBound p = some u → BoundsPrefix p u) ∧
    ∀ p : Bytes, prefixUpperBound p = none ↔ ¬ ∃ u, BoundsPrefix p u := by
  refine ⟨?_, ?_, ?_, ?_, ?_, ?_⟩
  · intro ns key hns
    have henc : encodeKey ns key = .ok _ := encodeKey_eq_ok.mpr ⟨hns, rfl⟩
    exact ⟨_, henc, decodeKey_encodeKey henc⟩
  · intro ns key ns' key' k h h'
    obtain ⟨rfl, rfl⟩ := encodeKey_inj h h'
    rfl
  · exact fun _ _ _ _ _ ha hb => encodeKey_lt_iff ha hb
  · exact fun _ _ _ _ _ _ _ _ ha hb hc hne h => hne (ns_eq_of_between ha hb hc h.1 h.2).symm
  · exact fun _ _ h => prefixUpperBound_some h
  · exact fun _ => prefixUpperBound_eq_none_iff

example : prefixUpperBound [1, 2, 255] = some [1, 3] := rfl

example : prefixUpperBound [255, 255] = none := rfl
