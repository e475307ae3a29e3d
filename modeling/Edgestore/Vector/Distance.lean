import Edgestore.Vector.Records
import Edgestore.Lib.Except
import Edgestore.Lib.Heap
import Mathlib.Order.WithBot
import Mathlib.Data.Int.ConditionallyCompleteOrder
import Mathlib.Order.ConditionallyCompleteLattice.Basic

/-!
# Distances

Single-precision numbers, by their bits, with the comparisons of the vector code. Their arithmetic is a
parameter: the conversions of elements, the distances of two vectors, and the layer that the index draws
for a node.

## Main definitions

* `F32`: single-precision numbers, with `F32.partialCmp` and `totalCmpF32`
* `Metric`, `Floats`: the distances
* `distance`: the distance of two vectors, given by their bytes
* `plainFloats`: arithmetic on small integers

## Main results

* `totalCmpF32_eq_compare`: the total comparison is that of keys in a linear order
-/

/-! ### Single-precision numbers -/

/-- A single-precision number, by its bits: a sign, eight bits of exponent, 23 bits of fraction. -/
abbrev F32 := BitVec 32

namespace F32

/-- The bits without the sign. -/
def magnitude (a : F32) : ℕ := a.toNat % 2 ^ 31

/-- The exponent is all ones and the fraction is not zero. -/
def isNan (a : F32) : Bool := 0x7F800000 < a.magnitude

/-- The place of a number among the numbers; both zeros are at 0. -/
def rank (a : F32) : ℤ := if 2 ^ 31 ≤ a.toNat then -(a.magnitude : ℤ) else a.magnitude

/-- The comparison of numbers; NaN is not comparable. -/
def partialCmp (a b : F32) : Option Ordering :=
  if a.isNan || b.isNan then none else some (compare a.rank b.rank)

/-- The place of a number in the total order: NaN is greater than every number. -/
def totalKey (a : F32) : WithTop ℤ := if a.isNan then ⊤ else (a.rank : WithTop ℤ)

end F32

/-- The total comparison: NaN is greater than every number, and equal to itself. -/
def totalCmpF32 (a b : F32) : Ordering :=
  match a.partialCmp b with
  | some ord => ord
  | none => if a.isNan then (if b.isNan then .eq else .gt) else .lt

theorem compare_coe (a b : ℤ) : compare (a : WithTop ℤ) (b : WithTop ℤ) = compare a b := by
  rcases lt_trichotomy a b with h | rfl | h
  · rw [compare_lt_iff_lt.mpr h, compare_lt_iff_lt.mpr (WithTop.coe_lt_coe.mpr h)]
  · rw [compare_eq_iff_eq.mpr rfl, compare_eq_iff_eq.mpr rfl]
  · rw [compare_gt_iff_gt.mpr h, compare_gt_iff_gt.mpr (WithTop.coe_lt_coe.mpr h)]

/-- **The total comparison** is that of keys in a linear order. -/
theorem totalCmpF32_eq_compare : Heap.Keyed totalCmpF32 F32.totalKey := by
  intro a b
  unfold totalCmpF32 F32.partialCmp F32.totalKey
  cases ha : a.isNan <;> cases hb : b.isNan
  · exact (compare_coe _ _).symm
  · exact (compare_lt_iff_lt.mpr (WithTop.coe_lt_top _)).symm
  · exact (compare_gt_iff_gt.mpr (WithTop.coe_lt_top _)).symm
  · exact (compare_eq_iff_eq.mpr rfl).symm

/-- The strict comparison agrees with the total one. -/
theorem F32.totalKey_lt_of_partialCmp {a b : F32} (h : a.partialCmp b = some .gt) :
    b.totalKey < a.totalKey := by
  have htotal : totalCmpF32 a b = .gt := by
    unfold totalCmpF32
    rw [h]
  rw [totalCmpF32_eq_compare] at htotal
  exact compare_gt_iff_gt.mp htotal

/-! ### Distances of vectors -/

/-- The distances of vectors: the cosine distance, the Euclidean distance, the negated dot product. -/
inductive Metric
  | cosine
  | l2
  | dotProduct
  deriving DecidableEq, Repr

/-- The byte of a metric in an index file. -/
def Metric.toByte : Metric → Byte
  | cosine => 0
  | l2 => 1
  | dotProduct => 2

/-- What the vector code takes from floating-point arithmetic, with distances of vectors of one length, and from
`BinaryHeap`. -/
structure Floats where
  /-- The conversion `f16_to_f32` of 16 bits. -/
  f16ToF32 : ℕ → F32
  /-- The conversion `as i8 as f32` of a byte. -/
  i8AsF32 : Byte → F32
  distanceSimdF32 : List F32 → List F32 → Metric → F32
  distanceScalar : List F32 → List F32 → Metric → F32
  /-- The layer `(-r.ln() * (1.0 / (m as f64).ln())).floor()` of a node, where `r` is the seed over
  `u64::MAX`, but no less than `1e-10`. -/
  layer : (m seed : ℕ) → ℕ
  /-- The index is built with `m = 16`, and `-ln(1e-10) / ln(16)` is less than 9. -/
  layer_lt : ∀ seed, layer 16 seed < 9
  /-- With `m = 1` the logarithm is zero, and the quotient infinite unless `r` is rounded to 1. -/
  layer_one : ∀ seed, seed + 1024 < 2 ^ 64 → layer 1 seed = 2 ^ 64 - 1
  /-- For any other `m` the layer is at most `-ln(1e-10) / ln(2)`. -/
  layer_lt_of_ne_one : ∀ m seed, m ≠ 1 → layer m seed < 34
  /-- The order in which the results of a layer leave their heap. `BinaryHeap::into_iter` keeps it open. -/
  intoIter : (layer : ℕ) → List (ℕ × F32) → List (ℕ × F32)
  intoIter_perm : ∀ layer results, (intoIter layer results).Perm results

/-- Cut a byte string into pieces of `n` bytes; a rest is left out. -/
def chunksExact (n : ℕ) : ℕ → Bytes → List Bytes
  | 0, _ => []
  | count + 1, bs => bs.take n :: chunksExact n count (bs.drop n)

variable (F : Floats)

/-- Decode the elements of a vector. -/
def decodeToF32 (bytes : Bytes) (dtype : Dtype) : Except EdgestoreError (List F32) :=
  match dtype with
  | .f32 =>
    if bytes.length % 4 ≠ 0 then .error (.corruptData "f32 data length not multiple of 4")
    else .ok ((chunksExact 4 (bytes.length / 4) bytes).map fun chunk => BitVec.ofNat 32 (ofLe chunk))
  | .f16 =>
    if bytes.length % 2 ≠ 0 then .error (.corruptData "f16 data length not multiple of 2")
    else .ok ((chunksExact 2 (bytes.length / 2) bytes).map fun chunk => F.f16ToF32 (ofLe chunk))
  | .i8 => .ok (bytes.map F.i8AsF32)

/-- The distance of two vectors. -/
def distance (query candidate : Bytes) (dtype : Dtype) (metric : Metric) : Except EdgestoreError F32 := do
  let q ← decodeToF32 F query dtype
  let c ← decodeToF32 F candidate dtype
  if q.length ≠ c.length then .error (.dimensionMismatch q.length c.length)
  else if dtype = .f32 then return F.distanceSimdF32 q c metric
  else return F.distanceScalar q c metric

variable {F}

theorem length_chunksExact (n count : ℕ) (bs : Bytes) : (chunksExact n count bs).length = count := by
  induction count generalizing bs with
  | zero => rfl
  | succ count ih => rw [chunksExact, List.length_cons, ih]

/-- The elements of a vector of `dims` dimensions. -/
theorem decodeToF32_of_length {bytes : Bytes} {dtype : Dtype} {dims : ℕ}
    (h : bytes.length = dims * dtype.elementSize) :
    ∃ l, decodeToF32 F bytes dtype = .ok l ∧ l.length = dims := by
  unfold decodeToF32
  cases dtype with
  | f32 =>
    change bytes.length = dims * 4 at h
    have hrest : bytes.length % 4 = 0 := by omega
    refine ⟨_, if_neg (not_not.mpr hrest), ?_⟩
    rw [List.length_map, length_chunksExact]
    omega
  | f16 =>
    change bytes.length = dims * 2 at h
    have hrest : bytes.length % 2 = 0 := by omega
    refine ⟨_, if_neg (not_not.mpr hrest), ?_⟩
    rw [List.length_map, length_chunksExact]
    omega
  | i8 =>
    change bytes.length = dims * 1 at h
    refine ⟨_, rfl, ?_⟩
    rw [List.length_map]
    omega

/-- When two vectors have a distance. -/
theorem distance_eq_ok {query candidate : Bytes} {dtype : Dtype} {metric : Metric} :
    (∃ d, distance F query candidate dtype metric = .ok d) ↔ ∃ q c,
      decodeToF32 F query dtype = .ok q ∧ decodeToF32 F candidate dtype = .ok c ∧ q.length = c.length := by
  unfold distance
  constructor
  · rintro ⟨d, h⟩
    obtain ⟨q, hq, h⟩ := Except.bind_eq_ok.mp h
    obtain ⟨c, hc, h⟩ := Except.bind_eq_ok.mp h
    refine ⟨q, c, hq, hc, ?_⟩
    by_contra hne
    rw [if_pos hne] at h
    cases h
  · rintro ⟨q, c, hq, hc, hlen⟩
    rw [hq, hc]
    change ∃ d, (if q.length ≠ c.length then _ else if dtype = .f32 then pure _ else pure _) =
      Except.ok d
    rw [if_neg (not_not.mpr hlen)]
    split
    · exact ⟨_, rfl⟩
    · exact ⟨_, rfl⟩

/-- Vectors of the same dimensions have a distance. -/
theorem distance_of_length {query candidate : Bytes} {dtype : Dtype} {dims : ℕ}
    (hq : query.length = dims * dtype.elementSize) (hc : candidate.length = dims * dtype.elementSize)
    (metric : Metric) : ∃ d, distance F query candidate dtype metric = .ok d := by
  obtain ⟨q, hq, hqlen⟩ := decodeToF32_of_length (F := F) hq
  obtain ⟨c, hc, hclen⟩ := decodeToF32_of_length (F := F) hc
  exact distance_eq_ok.mpr ⟨q, c, hq, hc, hqlen.trans hclen.symm⟩

/-! ### A concrete choice -/

/-- The number `n`, of less than 24 bits. -/
def f32OfInt (n : ℤ) : F32 :=
  if n = 0 then 0
  else
    let a := n.natAbs
    let e := Nat.log2 a
    BitVec.ofNat 32 ((if n < 0 then 2 ^ 31 else 0) + (127 + e) * 2 ^ 23 + (a - 2 ^ e) * 2 ^ 23 / 2 ^ e)

/-- The integral part of a number. -/
def intOfF32 (a : F32) : ℤ :=
  let e := a.magnitude / 2 ^ 23
  let n : ℕ := if e < 127 then 0 else (2 ^ 23 + a.magnitude % 2 ^ 23) * 2 ^ (e - 127) / 2 ^ 23
  if 2 ^ 31 ≤ a.toNat then -(n : ℤ) else n

/-- The distances of vectors of integers, rounded down. -/
def intDistance (query candidate : List ℤ) (metric : Metric) : ℤ :=
  let dot := (List.zipWith (· * ·) query candidate).sum
  match metric with
  | .cosine =>
    let denom : ℤ := Nat.sqrt (query.map (· ^ 2)).sum.toNat * Nat.sqrt (candidate.map (· ^ 2)).sum.toNat
    if denom = 0 then 0 else 1 - dot / denom
  | .l2 => Nat.sqrt ((List.zipWith (· - ·) query candidate).map (· ^ 2)).sum.toNat
  | .dotProduct => -dot

/-- Arithmetic that is exact on small integers where the distances are integers. Halves are converted as
if subnormal ones were zero. -/
def plainFloats : Floats where
  f16ToF32 bits :=
    let sign := bits / 2 ^ 15 % 2
    let exp := bits / 2 ^ 10 % 2 ^ 5
    let exp' := if exp = 0 then 0 else if exp = 31 then 255 else exp + 112
    let mant := if exp = 0 then 0 else bits % 2 ^ 10
    BitVec.ofNat 32 (sign * 2 ^ 31 + exp' * 2 ^ 23 + mant * 2 ^ 13)
  i8AsF32 b := f32OfInt (if b.val < 128 then b.val else (b.val : ℤ) - 256)
  distanceSimdF32 q c metric := f32OfInt (intDistance (q.map intOfF32) (c.map intOfF32) metric)
  distanceScalar q c metric := f32OfInt (intDistance (q.map intOfF32) (c.map intOfF32) metric)
  layer m seed :=
    if m = 1 then 2 ^ 64 - 1 else ((List.range 8).filter fun l => decide (seed * m ^ (l + 1) < 2 ^ 64)).length
  layer_lt _ := Nat.lt_succ_of_le (List.length_filter_le _ _)
  layer_one _ _ := rfl
  layer_lt_of_ne_one m seed hm := by
    rw [if_neg hm]
    exact (List.length_filter_le _ _).trans_lt (by decide)
  intoIter _ results := results
  intoIter_perm _ results := List.Perm.refl results
