import Edgestore.VectorWorld
import Edgestore.Vector.Build
import Edgestore.StoreScans

/-!
# Freshness of vector searches

A search in a namespace should return keys that are stored there, with the distances of their vectors, and all
of them if it is for as many as there are. The flat scan does, as long as the scans of the store return what
has been stored. An index does if it has been built from the vectors that are stored now, which the root of
the segments, by which stale indexes are told, does not say: it does not change with a write that has not been
flushed. The index also answers with the Euclidean distance whatever the metric, may be that of a namespace
with the same slug, and may not reach all of its nodes.

## Main definitions

* `VectorTrack`: a world with what has been stored in the namespaces, and from what their indexes were built
* `VectorTrack.Meets`: the condition on a call
* `VectorTrack.SearchRight`: what a search returns is right

## Main results

* `VectorTrack.searches_right`: in a run whose calls meet the condition, every search is right
* `Engine.Represents.showsVectors`, `Engine.Represents.vectorGet`: the scans return the vectors of a store that
  represents them, and so does a lookup
* `VectorTrack.stale_search`: a search that returns a key that has been deleted
-/

/-- A world, the vectors that have been put in each namespace and not been deleted, and those from which the
index of a namespace has last been built. -/
structure VectorTrack where
  v : VectorWorld := {}
  stored : Bytes → Vectors := fun _ _ => none
  built : Bytes → Option Vectors := fun _ => none

/-- A build has an index to write. -/
def VectorWorld.builds (F : Floats) (v : VectorWorld) (ns : Bytes) : Bool :=
  match v.world.engine with
  | none => false
  | some e =>
    match e.gatherIndex F v.world.fs ns with
    | .ok (some _) => true
    | _ => false

theorem VectorWorld.world_onIndices {α : Type} (v : VectorWorld) (m : Engine → VectorExec α) :
    (v.onIndices m).world = v.world := by
  unfold VectorWorld.onIndices
  split <;> rfl

/-! ### What scans return -/

/-- **The scans of a namespace return its vectors**, if the engine represents them. The namespace is shorter
than the longest one there is, so that the prefix of its keys has an upper bound. -/
theorem Engine.Represents.showsVectors {X : Externals} {R : List SegmentId} {e : Engine} {fs : Fs}
    {s : Contents} (h : e.Represents X R fs s) (hone : OneRecordPerLsn X fs) {ns : Bytes}
    (hns : (vectorNamespace ns).length < maxNsLen) {vectors : Vectors}
    (hs : ∀ key, (s (vectorNamespace ns, key)).map decodeVectorRecord = (vectors key).map .ok) :
    e.ShowsVectors fs ns vectors := by
  have hstore := h.inv.store
  obtain ⟨items, hitems, hsorted, hfind⟩ := h.prefixInner hone hns.le fun hunbounded => hns.ne hunbounded.1
  refine ⟨⟨items, hitems, hsorted, fun key => ?_⟩, fun «end» =>
    ⟨_, range_eq_visible hstore hns.le [] «end», keySorted_visible hstore hns.le, fun key => ?_⟩⟩
  · rw [hfind]
    exact hs key
  · rw [h.find_visible hns.le]
    split
    · exact hs key
    · rfl

/-- **A lookup returns the vector of its key**, if the engine represents the vectors. -/
theorem Engine.Represents.vectorGet {X : Externals} {R : List SegmentId} {e : Engine} {fs : Fs} {s : Contents}
    (h : e.Represents X R fs s) {ns : Bytes} (hns : (vectorNamespace ns).length ≤ maxNsLen) {vectors : Vectors}
    {key : Bytes} (hs : (s (vectorNamespace ns, key)).map decodeVectorRecord = (vectors key).map .ok) :
    e.vectorGet X fs ns key = .ok (vectors key) := by
  have hk : encodeKey (vectorNamespace ns) key = .ok _ := encodeKey_eq_ok.mpr ⟨hns, rfl⟩
  have hget := ((h.settled _ key _ hk).reads h.inv.store hk).1
  unfold Engine.vectorGet
  rw [hget]
  cases hstored : s (vectorNamespace ns, key) with
  | none =>
    rw [hstored] at hs
    rw [Option.map_eq_none_iff.mp hs.symm]
    rfl
  | some bytes =>
    rw [hstored] at hs
    obtain ⟨record, hrecord, hdecode⟩ := Option.map_eq_some_iff.mp hs.symm
    rw [hrecord]
    show (decodeStored "vector" bytes).map some = _
    unfold decodeStored
    rw [← hdecode]
    rfl

namespace VectorTrack

variable (X : Externals) (F : Floats)

/-- The vectors that are stored after a call. -/
def storedAfter (t : VectorTrack) : VectorOp → Bytes → Vectors
  | .vectorPut ns key dims dtype data clock =>
    if (t.v.world.onEngine X clock (Engine.vectorPut ns key dims dtype data)).ok then
      Function.update t.stored ns (Function.update (t.stored ns) key (some ⟨dims, dtype, data⟩))
    else t.stored
  | .vectorDelete ns key clock =>
    if (t.v.world.onEngine X clock (Engine.vectorDelete ns key)).ok then
      Function.update t.stored ns (Function.update (t.stored ns) key none)
    else t.stored
  | _ => t.stored

/-- The vectors of which there is an index after a call. -/
def builtAfter (t : VectorTrack) : VectorOp → Bytes → Option Vectors
  | .buildIndex ns none =>
    if t.v.builds F ns then Function.update t.built ns (some (t.stored ns)) else t.built
  | _ => t.built

/-- Make a call. -/
def step (t : VectorTrack) (op : VectorOp) : VectorTrack where
  v := t.v.step X F op
  stored := t.storedAfter X op
  built := t.builtAfter F op

/-- No index has been built of another namespace with the same slug. -/
def Alone (t : VectorTrack) (ns : Bytes) : Prop :=
  ∀ ns', nsToSlug ns' = nsToSlug ns → t.built ns' ≠ none → ns' = ns

/-- **The condition on a search that an index serves**: it is for the Euclidean distance, no index has been
built of another namespace with the same slug, the vectors that are stored are those from which the index was
built, they all match the query, and if the search is for as many keys as there are vectors, every node of
the index can be reached on layer 0 from the node at which the search enters it. -/
structure ServedRight (t : VectorTrack) (index : HnswIndex) (ns : Bytes) (query : VectorRecord) (k : ℕ)
    (metric : Metric) : Prop where
  metric : metric = .l2
  alone : t.Alone ns
  unchanged : ∀ s, t.built ns = some s → s = t.stored ns
  «matches» : ∀ key record, t.stored ns key = some record → query.Matches record
  reaches : (t.stored ns).keys.encard ≤ k → ∀ curr, index.enters F query.data k 50 = .ok curr →
    ∀ i < index.nodes.length, index.Reaches 0 curr i

/-- **The condition on a call.** At a build and at a search, the scans of the namespace return the vectors that
are stored. A build is not cut short, and is of at most 10,000,000 vectors with keys shorter than 4 GiB. At
a search, the keys are below the end of the flat scan, and an index that serves it serves it right. -/
def Meets (t : VectorTrack) : VectorOp → Prop
  | .buildIndex ns stop => stop = none ∧ ∀ e, t.v.world.engine = some e →
    e.ShowsVectors t.v.world.fs ns (t.stored ns) ∧ (t.stored ns).keys.encard ≤ (10000000 : ℕ) ∧
      ∀ key ∈ (t.stored ns).keys, key.length < 256 ^ 4
  | .vectorSearch ns query k metric => ∀ e, t.v.world.engine = some e →
    e.ShowsVectors t.v.world.fs ns (t.stored ns) ∧ (∀ key ∈ (t.stored ns).keys, key < flatScanEnd) ∧
      ∀ index, e.servedIndex X ns (t.v.indices ns) t.v.files = .ok (some index) →
        index.dtype = query.dtype → index.dims = query.dims → t.ServedRight F index ns query k metric
  | _ => True

/-- What a search returns is right for the vectors that are stored. -/
def SearchRight (t : VectorTrack) : VectorOp → Prop
  | .vectorSearch ns query k metric => ∀ r, t.v.searchResult X F ns query k metric = some r →
    RightAnswer F (t.stored ns) query k metric r
  | _ => True

/-! ### The invariant -/

/-- The file of the index of a namespace and the index in memory, for the vectors from which they were
built. -/
def Held : Option Vectors → Option Bytes → Option HnswIndex → Prop
  | none, file, cached => file = none ∧ cached = none
  | some s, file, cached => ∃ index : HnswIndex, index.Holds s ∧ index.nodes ≠ [] ∧ index.Storable ∧
    file = some index.serialize ∧ ∀ i, cached = some i → i = index ∨ i = { index with rngSeed := 12345 }

/-- The files of indexes can be read, and those of a namespace whose slug no other one has are of the vectors
from which its index was built. -/
structure Inv (t : VectorTrack) : Prop where
  readable : ∀ ns bytes, t.v.files (sidecarName ns) = some bytes →
    ∃ index, HnswIndex.deserialize bytes = .ok index
  held : ∀ ns, t.Alone ns → Held (t.built ns) (t.v.files (sidecarName ns)) (t.v.indices ns)

variable {X F} {t t' : VectorTrack} {ns : Bytes} {e : Engine}

theorem inv_empty : Inv {} where
  readable := fun _ _ h => by cases h
  held := fun _ _ => ⟨rfl, rfl⟩

/-- The index that serves a namespace is the one in memory, or is read from the file. -/
theorem served_cases {cached : Option HnswIndex} {files : VectorFiles} {index : HnswIndex}
    (h : e.servedIndex X ns cached files = .ok (some index)) :
    cached = some index ∨ ∃ bytes, files (sidecarName ns) = some bytes ∧
      HnswIndex.deserialize bytes = .ok index := by
  have hload : e.loadedIndex X ns files = .ok (some index) → ∃ bytes,
      files (sidecarName ns) = some bytes ∧ HnswIndex.deserialize bytes = .ok index := by
    intro h
    unfold Engine.loadedIndex at h
    split at h
    case h_1 => cases h
    case h_2 bytes hbytes =>
      split at h
      case isTrue => cases h
      case isFalse =>
        refine ⟨bytes, hbytes, ?_⟩
        cases hread : HnswIndex.deserialize bytes with
        | error err =>
          rw [hread] at h
          cases h
        | ok index' =>
          rw [hread] at h
          have h := Except.ok.inj h
          split at h
          · cases h
          · cases h
            rfl
  unfold Engine.servedIndex at h
  split at h
  case isTrue => exact .inr (hload h)
  case isFalse =>
    split at h
    case h_1 =>
      cases h
      exact .inl rfl
    case h_2 => exact .inr (hload h)

/-- A lookup succeeds if the file can be read. -/
theorem served_total {cached : Option HnswIndex} {files : VectorFiles}
    (h : ∀ bytes, files (sidecarName ns) = some bytes → ∃ index, HnswIndex.deserialize bytes = .ok index) :
    ∃ found, e.servedIndex X ns cached files = .ok found := by
  have hload : ∃ found, e.loadedIndex X ns files = .ok found := by
    unfold Engine.loadedIndex
    split
    case h_1 => exact ⟨none, rfl⟩
    case h_2 bytes hbytes =>
      split
      case isTrue => exact ⟨none, rfl⟩
      case isFalse =>
        obtain ⟨index, hindex⟩ := h bytes hbytes
        rw [hindex]
        exact ⟨_, rfl⟩
  unfold Engine.servedIndex
  split
  case isTrue => exact hload
  case isFalse =>
    split
    case h_1 index => exact ⟨some index, rfl⟩
    case h_2 => exact hload

/-- An index that is in memory or in the file holds the vectors from which it was built. -/
theorem Held.holds {built : Option Vectors} {file : Option Bytes} {cached : Option HnswIndex}
    (h : Held built file cached) {index : HnswIndex}
    (hindex : cached = some index ∨ ∃ bytes, file = some bytes ∧ HnswIndex.deserialize bytes = .ok index) :
    ∃ s, built = some s ∧ index.Holds s ∧ index.nodes ≠ [] ∧ Held built file (some index) := by
  cases built with
  | none =>
    obtain ⟨rfl, rfl⟩ := h
    rcases hindex with hnone | ⟨bytes, hnone, -⟩
    · cases hnone
    · cases hnone
  | some s =>
    obtain ⟨built, hholds, hne, hstorable, rfl, hcached⟩ := h
    have hone : index = built ∨ index = { built with rngSeed := 12345 } := by
      rcases hindex with hmem | ⟨bytes, hbytes, hread⟩
      · exact hcached index hmem
      · cases hbytes
        rw [HnswIndex.deserialize_serialize hstorable] at hread
        exact .inr (Except.ok.inj hread).symm
    have hheld : Held (some s) (some built.serialize) (some index) :=
      ⟨built, hholds, hne, hstorable, rfl, fun i hi => Option.some.inj hi ▸ hone⟩
    rcases hone with rfl | rfl
    · exact ⟨s, rfl, hholds, hne, hheld⟩
    · exact ⟨s, rfl, hholds.withSeed _, hne, hheld⟩

/-! ### Steps -/

/-- A call that writes no index keeps the invariant, if what is in memory of a namespace afterwards was there
or is read from the file. -/
theorem Inv.keep (h : t.Inv) (hfiles : t'.v.files = t.v.files) (hbuilt : t'.built = t.built)
    (hindices : ∀ ns index, t'.v.indices ns = some index → t.v.indices ns = some index ∨
      ∃ bytes, t.v.files (sidecarName ns) = some bytes ∧ HnswIndex.deserialize bytes = .ok index) :
    t'.Inv := by
  refine ⟨fun ns bytes hbytes => h.readable ns bytes (hfiles ▸ hbytes), fun ns halone => ?_⟩
  have hheld := h.held ns fun ns' hslug hns' => halone ns' hslug (hbuilt ▸ hns')
  rw [hfiles, hbuilt]
  cases hindex : t'.v.indices ns with
  | some index => exact (hheld.holds (hindices ns index hindex)).choose_spec.2.2.2
  | none =>
    -- nothing is asked of a namespace without an index in memory
    cases hb : t.built ns with
    | none =>
      rw [hb] at hheld
      exact ⟨hheld.1, rfl⟩
    | some s =>
      rw [hb] at hheld
      obtain ⟨index, hholds, hne, hstorable, hfile, -⟩ := hheld
      exact ⟨index, hholds, hne, hstorable, hfile, fun i hi => by cases hi⟩

/-- A call of the store. -/
theorem Inv.withWorld (h : t.Inv) {w : World} (hv : t'.v = t.v.withWorld w) (hbuilt : t'.built = t.built) :
    t'.Inv := by
  refine h.keep (by rw [hv]; rfl) hbuilt fun ns index hindex => .inl ?_
  rw [hv, VectorWorld.withWorld] at hindex
  dsimp only at hindex
  split at hindex
  · exact hindex
  · cases hindex

/-- A lookup. -/
theorem Inv.lookup (h : t.Inv) {ns : Bytes} {α : Type} {m : Engine → VectorExec α}
    (hm : ∀ e, ((m e).run t.v.indices t.v.files).2.2 = [] ∧ ((m e).run t.v.indices t.v.files).2.1 =
      ((e.getVectorIndex X ns).run t.v.indices t.v.files).2.1)
    (hv : t'.v = t.v.onIndices m) (hbuilt : t'.built = t.built) : t'.Inv := by
  rw [VectorWorld.onIndices] at hv
  cases he : t.v.world.engine with
  | none =>
    rw [he] at hv
    dsimp only at hv
    refine h.keep (by rw [hv]) hbuilt fun _ _ hindex => .inl ?_
    rwa [hv] at hindex
  | some e =>
    rw [he] at hv
    dsimp only at hv
    rw [(hm e).1, (hm e).2, Engine.run_getVectorIndex] at hv
    refine h.keep (by rw [hv]; rfl) hbuilt fun ns' index hindex => ?_
    rw [hv] at hindex
    dsimp only at hindex
    by_cases hns : ns' = ns
    · subst hns
      rw [Function.update_self] at hindex
      cases hserved : e.servedIndex X ns' (t.v.indices ns') t.v.files with
      | error err =>
        rw [hserved] at hindex
        cases hindex
      | ok found =>
        rw [hserved] at hindex
        change found = some index at hindex
        exact served_cases (hserved.trans (congrArg Except.ok hindex))
    · rw [Function.update_of_ne hns] at hindex
      exact .inl hindex

/-- A build that has an index to write. -/
theorem Inv.build (h : t.Inv) {index : HnswIndex} (hholds : index.Holds (t.stored ns))
    (hne : index.nodes ≠ []) (hstorable : index.Storable)
    (hfiles : t'.v.files = (directory Bytes).run (e.indexEffects X ns index) t.v.files)
    (hindices : t'.v.indices = Function.update t.v.indices ns (some index))
    (hbuilt : t'.built = Function.update t.built ns (some (t.stored ns))) : t'.Inv := by
  -- the file of a namespace is the new one, or what it was
  have hfile : ∀ ns', t'.v.files (sidecarName ns') =
      if nsToSlug ns' = nsToSlug ns then some index.serialize else t.v.files (sidecarName ns') := by
    intro ns'
    rw [hfiles, Engine.indexEffects, Device.run_append, Directory.run_writeEffects,
      Directory.run_writeEffects, Function.update_of_ne (sidecarName_ne_stampName ns' ns),
      Function.update_apply]
    simp only [sidecarName_inj]
  refine ⟨fun ns' bytes hbytes => ?_, fun ns' halone => ?_⟩
  · rw [hfile] at hbytes
    split at hbytes
    case isTrue =>
      cases hbytes
      exact ⟨_, HnswIndex.deserialize_serialize hstorable⟩
    case isFalse => exact h.readable ns' bytes hbytes
  · rw [hfile, hindices, hbuilt]
    by_cases hns : ns' = ns
    · subst hns
      rw [if_pos rfl, Function.update_self, Function.update_self]
      exact ⟨index, hholds, hne, hstorable, rfl, fun i hi => .inl (Option.some.inj hi).symm⟩
    · have hslug : nsToSlug ns' ≠ nsToSlug ns := fun heq => hns (halone ns heq.symm (by
        rw [hbuilt, Function.update_self]
        exact Option.some_ne_none _)).symm
      rw [if_neg hslug, Function.update_of_ne hns, Function.update_of_ne hns]
      refine h.held ns' fun ns'' hslug' hns'' => halone ns'' hslug' ?_
      rw [hbuilt, Function.update_apply]
      split
      · exact Option.some_ne_none _
      · exact hns''

/-- What a build that has no index to write leaves. -/
theorem Inv.noBuild (h : t.Inv) (hnone : t.v.builds F ns = false) :
    (t.step X F (.buildIndex ns none)).Inv := by
  have hv : (t.step X F (.buildIndex ns none)).v = t.v := by
    change t.v.onIndices _ = t.v
    unfold VectorWorld.builds at hnone
    unfold VectorWorld.onIndices
    cases he : t.v.world.engine with
    | none => rfl
    | some e =>
      rw [he] at hnone
      dsimp only at hnone ⊢
      rw [Engine.run_buildVectorIndex]
      match hgather : e.gatherIndex F t.v.world.fs ns with
      | .error err => rfl
      | .ok none => rfl
      | .ok (some index) =>
        rw [hgather] at hnone
        cases hnone
  have hbuilt : (t.step X F (.buildIndex ns none)).built = t.built := by
    change (if t.v.builds F ns then _ else _) = t.built
    rw [hnone]
    rfl
  refine h.keep (by rw [hv]) hbuilt fun ns' index hindex => .inl ?_
  rwa [hv] at hindex

/-- **A call that meets the condition** keeps the invariant. -/
theorem Inv.step (h : t.Inv) {op : VectorOp} (hop : t.Meets X F op) : (t.step X F op).Inv := by
  cases op with
  | store c => exact h.withWorld rfl rfl
  | vectorPut ns key dims dtype data clock => exact h.withWorld rfl rfl
  | vectorDelete ns key clock => exact h.withWorld rfl rfl
  | crash => exact h.withWorld rfl rfl
  | preloadIndex ns =>
    refine @Inv.lookup X _ _ h ns _ (fun e => e.preloadVectorIndex X ns) (fun e => ?_) rfl rfl
    rw [Engine.run_preloadVectorIndex]
    exact ⟨rfl, rfl⟩
  | vectorSearch ns query k metric =>
    refine @Inv.lookup X _ _ h ns _ (fun e => e.vectorSearch X F t.v.world.fs ns query k metric)
      (fun e => ?_) rfl rfl
    rw [Engine.run_vectorSearch]
    exact ⟨rfl, rfl⟩
  | buildIndex ns stop =>
    obtain ⟨rfl, hop⟩ := hop
    cases hbuilds : t.v.builds F ns with
    | false => exact h.noBuild hbuilds
    | true =>
      have hbuilt : (t.step X F (.buildIndex ns none)).built =
          Function.update t.built ns (some (t.stored ns)) := if_pos hbuilds
      unfold VectorWorld.builds at hbuilds
      cases he : t.v.world.engine with
      | none =>
        rw [he] at hbuilds
        cases hbuilds
      | some e =>
        rw [he] at hbuilds
        dsimp only at hbuilds
        split at hbuilds
        case h_2 => cases hbuilds
        case h_1 index hgather =>
          obtain ⟨hshows, hcount, hshort⟩ := hop e he
          obtain ⟨hholds, hne, hstorable⟩ := Engine.gatherIndex_holds hshows hgather
          have hv : (t.step X F (.buildIndex ns none)).v = { t.v with
              indices := Function.update t.v.indices ns (some index)
              files := (directory Bytes).run (e.indexEffects X ns index) t.v.files } := by
            change t.v.onIndices _ = _
            unfold VectorWorld.onIndices
            rw [he]
            dsimp only
            rw [Engine.run_buildVectorIndex, hgather]
          exact h.build hholds hne (hstorable hcount hshort) (by rw [hv]) (by rw [hv]) hbuilt

/-! ### Searches -/

/-- **A search that meets the condition** is right. -/
theorem Inv.searchRight (h : t.Inv) {op : VectorOp} (hop : t.Meets X F op) : t.SearchRight X F op := by
  cases op with
  | vectorSearch ns query k metric =>
    intro r hr
    obtain ⟨e, he, rfl⟩ := Option.map_eq_some_iff.mp hr
    obtain ⟨hshows, hend, hserves⟩ := hop e he
    rw [Engine.run_vectorSearch]
    dsimp only
    obtain ⟨found, hfound⟩ := @served_total X ns e (t.v.indices ns) _ (h.readable ns)
    rw [hfound]
    change RightAnswer F (t.stored ns) query k metric (e.answer F t.v.world.fs ns query k metric found)
    have hflat := @Engine.rightAnswer_flat F _ query k metric _ _ _ hshows hend
    cases found with
    | none => exact hflat
    | some index =>
      rw [Engine.answer]
      split
      case isFalse => exact hflat
      case isTrue hkind =>
        have hserved := hserves index hfound hkind.1 hkind.2
        obtain ⟨s, hbuilt, hholds, hne, -⟩ := (h.held ns hserved.alone).holds (served_cases hfound)
        rw [hserved.unchanged s hbuilt] at hholds
        rw [hserved.metric]
        exact hholds.rightAnswer hserved.matches hkind.1 hne hserved.reaches
  | _ => trivial

/-- **Searches are right**: in a run whose calls meet the condition, every search returns keys that are stored,
with the distances of their vectors, and all that match if it is for as many keys as there are vectors. -/
theorem searches_right {ops : List VectorOp} (h : Run.All (VectorTrack.step X F) (Meets X F) {} ops) :
    Run.All (VectorTrack.step X F) (SearchRight X F) {} ops :=
  h.imp_of_invariant (I := Inv) (fun _ _ ht hop => ht.step hop) (fun _ _ ht hop => ht.searchRight hop)
    inv_empty

/-- What a put of a vector stores. -/
theorem stored_vectorPut {ns key data : Bytes} {dims : ℕ} {dtype : Dtype} {clock : ℕ → ℕ}
    (hok : (t.v.world.onEngine X clock (Engine.vectorPut ns key dims dtype data)).ok = true) :
    (t.step X F (.vectorPut ns key dims dtype data clock)).stored ns =
      Function.update (t.stored ns) key (some ⟨dims, dtype, data⟩) := by
  show t.storedAfter X (.vectorPut ns key dims dtype data clock) ns = _
  rw [storedAfter, if_pos hok, Function.update_self]

theorem stored_buildIndex {ns : Bytes} {stop : Option (ℕ × ℕ)} :
    (t.step X F (.buildIndex ns stop)).stored = t.stored := rfl

/-! ### Runs -/

/-- Two vectors are stored, an index is built, and a search for both follows. -/
def indexedSearch : List VectorOp := [
  .store { op := .open {} },
  .vectorPut [7] [1] 1 .i8 [5] fun _ => 0,
  .vectorPut [7] [2] 1 .i8 [9] fun _ => 0,
  .buildIndex [7] none,
  .vectorSearch [7] ⟨1, .i8, [5]⟩ 2 .l2]

/-- The vectors that are stored in `indexedSearch` at the build and at the search. -/
def pairVectors : Vectors :=
  Function.update (Function.update (fun _ => none) [1] (some ⟨1, .i8, [5]⟩)) [2] (some ⟨1, .i8, [9]⟩)

/-- The puts that store them. -/
def pairWrites : List Call :=
  [⟨.put (vectorNamespace [7]) [1] [0, 1, 2, 5], fun _ => 0, none⟩,
    ⟨.put (vectorNamespace [7]) [2] [0, 1, 2, 9], fun _ => 0, none⟩]

/-- A vector is stored, an index is built, the vector is deleted, and a search follows. -/
def staleRun : List VectorOp := [
  .store { op := .open {} },
  .vectorPut [7] [1] 1 .i8 [5] fun _ => 0,
  .buildIndex [7] none,
  .vectorDelete [7] [1] fun _ => 0,
  .vectorSearch [7] ⟨1, .i8, [5]⟩ 1 .l2]

/-- **A stale search**: the key that has been deleted is found in the index. -/
theorem stale_search : ¬ Run.All (VectorTrack.step plainExternals plainFloats)
    (SearchRight plainExternals plainFloats) {} staleRun := by
  intro h
  set t : VectorTrack := Run.from (VectorTrack.step plainExternals plainFloats) {} (staleRun.take 4) with ht
  have hright : t.SearchRight plainExternals plainFloats (.vectorSearch [7] ⟨1, .i8, [5]⟩ 1 .l2) :=
    h.2.2.2.2.1
  have hfound : t.v.searchResult plainExternals plainFloats [7] ⟨1, .i8, [5]⟩ 1 .l2 =
      some (.ok [([1], 0)]) := by
    rw [ht]
    decide +kernel
  have hstored : t.stored [7] [1] = none := by
    rw [ht]
    decide +kernel
  obtain ⟨record, hrecord, -⟩ := (hright _ hfound).sound _ rfl _ List.mem_cons_self
  rw [hstored] at hrecord
  cases hrecord

theorem pairVectors_eq_none {key : Bytes} (h₁ : key ≠ [1]) (h₂ : key ≠ [2]) : pairVectors key = none := by
  rw [pairVectors, Function.update_of_ne h₂, Function.update_of_ne h₁]

theorem keys_pairVectors {key : Bytes} (h : key ∈ Vectors.keys pairVectors) : key = [1] ∨ key = [2] := by
  by_contra hne
  obtain ⟨h₁, h₂⟩ := not_or.mp hne
  exact h (pairVectors_eq_none h₁ h₂)

/-- What is stored fits the disk, and does not make a flush due. -/
theorem acceptsWrite_of_put {w : World} {ns key val : Bytes}
    (hok : (w.perform plainExternals (.put ns key val) fun _ => 0).ok = true)
    (hput : ∀ e ∈ w.engine,
      (Engine.putRecord plainExternals (e.lsnCounter + 1) (asI64 0) 0 ns key val).Fits plainExternals ∧
        ¬ (e.applied (Engine.putRecord plainExternals (e.lsnCounter + 1) (asI64 0) 0 ns key val)).memtable.len *
          avgEntrySizeEstimate ≥ e.config.memtableMaxBytes) :
    w.AcceptsWrite plainExternals ⟨.put ns key val, fun _ => 0, none⟩ :=
  ⟨rfl, hok, fun e he => ⟨(hput e he).1, fun hdue => absurd hdue (hput e he).2⟩⟩

/-- The store of `indexedSearch` shows the two vectors at the build and at the search. -/
theorem shows_indexedSearch {t : VectorTrack}
    (ht : t.v.world = (Run.from (VectorTrack.step plainExternals plainFloats) {}
      (indexedSearch.take 3)).v.world) {e : Engine} (he : t.v.world.engine = some e) :
    e.ShowsVectors t.v.world.fs [7] pairVectors := by
  have hopened : (({} : World).step plainExternals ⟨.open {}, fun _ => 0, none⟩).Represents plainExternals
      fun _ => none := World.represents_open (by decide)
  have haccepts : Run.All (World.step plainExternals) (World.AcceptsWrite plainExternals)
      (({} : World).step plainExternals ⟨.open {}, fun _ => 0, none⟩) pairWrites := by
    refine ⟨acceptsWrite_of_put ?_ ?_, acceptsWrite_of_put ?_ ?_, trivial⟩
    · decide +kernel
    · decide +kernel
    · decide +kernel
    · decide +kernel
  have hrep := hopened.writes haccepts
  -- the calls that store the vectors are those puts
  have hworld : t.v.world = Run.from (World.step plainExternals)
      (({} : World).step plainExternals ⟨.open {}, fun _ => 0, none⟩) pairWrites := ht
  obtain ⟨e', he', hrep⟩ := hrep.engine
  rw [← hworld, he] at he'
  cases he'
  rw [← hworld] at hrep
  have hreg : registered plainExternals t.v.world.fs = [] := by
    rw [hworld]
    decide +kernel
  refine hrep.showsVectors (fun k a ha => ?_) (by decide) fun key => ?_
  · rw [recordsOf_eq, registeredIds, hreg] at ha
    cases ha
  · by_cases h₂ : key = [2]
    · subst h₂
      decide +kernel
    by_cases h₁ : key = [1]
    · subst h₁
      decide +kernel
    · have hne₁ : (vectorNamespace [7], key) ≠ (vectorNamespace [7], [1]) := fun h => h₁ (Prod.mk.inj h).2
      have hne₂ : (vectorNamespace [7], key) ≠ (vectorNamespace [7], [2]) := fun h => h₂ (Prod.mk.inj h).2
      rw [pairVectors_eq_none h₁ h₂]
      change Option.map decodeVectorRecord (Function.update (Function.update (fun _ => none)
        (vectorNamespace [7], [1]) (some [0, 1, 2, 5])) (vectorNamespace [7], [2]) (some [0, 1, 2, 9])
          (vectorNamespace [7], key)) = _
      rw [Function.update_of_ne hne₂, Function.update_of_ne hne₁]
      rfl

/-- What is stored in `indexedSearch` at the build and at the search. -/
theorem stored_indexedSearch :
    (Run.from (VectorTrack.step plainExternals plainFloats) {} (indexedSearch.take 3)).stored [7] =
      pairVectors := by
  have hok₁ : ((Run.from (VectorTrack.step plainExternals plainFloats) {}
      (indexedSearch.take 1)).v.world.onEngine plainExternals (fun _ => 0)
        (Engine.vectorPut [7] [1] 1 .i8 [5])).ok = true := by
    decide +kernel
  have hok₂ : ((Run.from (VectorTrack.step plainExternals plainFloats) {}
      (indexedSearch.take 2)).v.world.onEngine plainExternals (fun _ => 0)
        (Engine.vectorPut [7] [2] 1 .i8 [9])).ok = true := by
    decide +kernel
  have hfirst : (Run.from (VectorTrack.step plainExternals plainFloats) {} (indexedSearch.take 2)).stored [7] =
      Function.update (fun _ => none) [1] (some ⟨1, .i8, [5]⟩) := stored_vectorPut hok₁
  have hsecond : (Run.from (VectorTrack.step plainExternals plainFloats) {} (indexedSearch.take 3)).stored [7] =
      Function.update ((Run.from (VectorTrack.step plainExternals plainFloats) {} (indexedSearch.take 2)).stored [7])
        [2] (some ⟨1, .i8, [9]⟩) := stored_vectorPut hok₂
  rw [hsecond, hfirst]
  rfl

/-- The index that serves the search of `indexedSearch` has two nodes, each of which is a neighbour of the other. -/
theorem served_indexedSearch {e : Engine}
    (he : (Run.from (VectorTrack.step plainExternals plainFloats) {} (indexedSearch.take 4)).v.world.engine =
      some e) {index : HnswIndex}
    (hserved : e.servedIndex plainExternals [7]
      ((Run.from (VectorTrack.step plainExternals plainFloats) {} (indexedSearch.take 4)).v.indices [7])
      (Run.from (VectorTrack.step plainExternals plainFloats) {} (indexedSearch.take 4)).v.files =
        .ok (some index)) :
    index.nodes.length = 2 ∧ index.entryPoint = 0 ∧ 1 ∈ index.neighborsAt 0 0 ∧ 0 ∈ index.neighborsAt 1 0 := by
  set t := Run.from (VectorTrack.step plainExternals plainFloats) {} (indexedSearch.take 4) with ht
  have htwo : ∀ e ∈ t.v.world.engine, ∀ index ∈
      (e.servedIndex plainExternals [7] (t.v.indices [7]) t.v.files).toOption.join,
        index.nodes.length = 2 ∧ index.entryPoint = 0 ∧ 1 ∈ index.neighborsAt 0 0 ∧ 0 ∈ index.neighborsAt 1 0 := by
    rw [ht]
    decide +kernel
  refine htwo e he index ?_
  rw [hserved]
  rfl

/-- Searches are right in the run with an index. -/
theorem searches_right_indexedSearch : Run.All (VectorTrack.step plainExternals plainFloats)
    (SearchRight plainExternals plainFloats) {} indexedSearch := by
  set t₃ := Run.from (VectorTrack.step plainExternals plainFloats) {} (indexedSearch.take 3) with ht₃
  set t₄ := Run.from (VectorTrack.step plainExternals plainFloats) {} (indexedSearch.take 4) with ht₄
  have hstored₃ : t₃.stored [7] = pairVectors := stored_indexedSearch
  have hstep : t₄ = t₃.step plainExternals plainFloats (.buildIndex [7] none) := rfl
  have hstored₄ : t₄.stored [7] = pairVectors := by rw [hstep, stored_buildIndex, hstored₃]
  have hworld : t₄.v.world = t₃.v.world := VectorWorld.world_onIndices t₃.v _
  have hkeys : ∀ key ∈ Vectors.keys pairVectors, key = [1] ∨ key = [2] := fun _ => keys_pairVectors
  have hbuild : t₃.Meets plainExternals plainFloats (.buildIndex [7] none) := by
    refine ⟨rfl, fun e he => ?_⟩
    rw [hstored₃]
    refine ⟨shows_indexedSearch rfl he, ?_, fun key h => ?_⟩
    · refine (Set.encard_le_encard (t := {[1], [2]}) hkeys).trans ?_
      rw [Set.encard_pair (by decide)]
      exact Nat.cast_le.mpr (show 2 ≤ 10000000 by decide)
    · obtain rfl | rfl := hkeys key h
      · decide
      · decide
  have hsearch : t₄.Meets plainExternals plainFloats (.vectorSearch [7] ⟨1, .i8, [5]⟩ 2 .l2) := by
    intro e he
    refine ⟨?_, fun key h => ?_, fun index hserved _ _ => ?_⟩
    · rw [hstored₄]
      exact shows_indexedSearch hworld he
    · rw [hstored₄] at h
      obtain rfl | rfl := hkeys key h
      · decide
      · decide
    · obtain ⟨hlen, hentry, hlinks⟩ := served_indexedSearch he hserved
      have hbuilt : t₄.built = (if t₃.v.builds plainFloats [7] then
          Function.update (fun _ => none) [7] (some (t₃.stored [7])) else fun _ => none) := rfl
      refine ⟨rfl, fun ns' _ hns' => ?_, fun s hs => ?_, fun key record hrecord => ?_,
        fun _ curr hcurr i hi => ?_⟩
      · by_contra hne
        refine hns' ?_
        rw [hbuilt]
        split
        · exact Function.update_of_ne hne _ _
        · rfl
      · rw [hbuilt] at hs
        split at hs
        · rw [Function.update_self] at hs
          exact (Option.some.inj hs).symm.trans (hstored₃.trans hstored₄.symm)
        · cases hs
      · rw [hstored₄] at hrecord
        obtain rfl | rfl := hkeys key fun hnone => Option.some_ne_none record (hrecord.symm.trans hnone)
        · obtain rfl : ⟨1, .i8, [5]⟩ = record := Option.some.inj hrecord
          exact ⟨rfl, rfl⟩
        · obtain rfl : ⟨1, .i8, [9]⟩ = record := Option.some.inj hrecord
          exact ⟨rfl, rfl⟩
      · -- the search enters layer 0 at one of the two nodes, and the other one is its neighbour
        have hlt := HnswIndex.descend_lt hcurr (by rw [hlen, hentry]; exact Nat.two_pos)
        rw [hlen] at hi hlt
        by_cases heq : curr = i
        · exact heq ▸ Relation.ReflTransGen.refl
        apply Relation.ReflTransGen.single
        obtain ⟨rfl, rfl⟩ | ⟨rfl, rfl⟩ : (curr = 0 ∧ i = 1) ∨ (curr = 1 ∧ i = 0) := by omega
        · exact hlinks.1
        · exact hlinks.2
  exact searches_right
    (show Run.All _ _ _ indexedSearch from ⟨trivial, trivial, trivial, hbuild, hsearch, trivial⟩)

end VectorTrack
