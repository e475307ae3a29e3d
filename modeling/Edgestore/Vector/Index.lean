import Edgestore.Vector.HnswFile
import Edgestore.Vector.Search
import Edgestore.Replication.Exchange
import Edgestore.Lib.Directory

/-!
# Indexes of namespaces

The index of a namespace is built from a scan of its vectors. It is kept in memory under the namespace,
and in a file named by the slug of the namespace, beside which the root of the segment hashes at the time
is written as a stamp. An index is used as long as the stamp is the root of the segments.

## Main definitions

* `nsToSlug`, `sidecarName`, `stampName`: the names of the two files
* `VectorExec`: programs over the directory of the indexes and the indexes in memory
* `Engine.buildVectorIndex`, `Engine.getVectorIndex`, `Engine.vectorSearch`
* `Engine.servedIndex`: the index that serves a namespace, given what is in memory and in the files

## Main results

* `sidecarName_inj`, `stampName_inj`: namespaces have the same files if they have the same slug
* `Engine.run_buildVectorIndex`, `Engine.run_getVectorIndex`, `Engine.run_vectorSearch`: what the
  programs return, keep and write
-/

variable (X : Externals) (F : Floats)

/-! ### File names -/

/-- A digit or a letter in ASCII. -/
def isAsciiAlphanumeric (b : Byte) : Bool :=
  (48 ≤ b.val ∧ b.val ≤ 57) ∨ (65 ≤ b.val ∧ b.val ≤ 90) ∨ (97 ≤ b.val ∧ b.val ≤ 122)

/-- The name of a namespace in file names: bytes other than letters, digits, `-` and `_` become `_`. -/
def nsToSlug (ns : Bytes) : Bytes :=
  ns.map fun b => if isAsciiAlphanumeric b ∨ b = 45 ∨ b = 95 then b else 95

/-- The name of a file without its extension. A dot in front begins no extension. -/
def fileStem (name : Bytes) : Bytes :=
  let before := ((name.reverse.dropWhile (· ≠ 46)).drop 1).reverse
  if before = [] then name else before

/-- The name of a file with another extension. -/
def withExtension (name ext : Bytes) : Bytes := fileStem name ++ 46 :: ext

/-- The extension `hnsw`. -/
def hnswExt : Bytes := [104, 110, 115, 119]

/-- The extension `stamp`. -/
def stampExt : Bytes := [115, 116, 97, 109, 112]

/-- The file of the index of a namespace. -/
def sidecarName (ns : Bytes) : Bytes := nsToSlug ns ++ 46 :: hnswExt

/-- The file of its stamp. -/
def stampName (ns : Bytes) : Bytes := withExtension (sidecarName ns) stampExt

/-! ### Programs -/

/-- The files in the directory of the indexes. -/
abbrev VectorFiles := Directory.Files Bytes

/-- The indexes in memory, by namespace. -/
abbrev VectorIndices := Bytes → Option HnswIndex

/-- Programs over the directory of the indexes and the indexes in memory. -/
abbrev VectorExec (α : Type) := Prog (directory Bytes) VectorIndices EdgestoreError α

namespace Engine

/-- The index of the vectors of a namespace, or none if there are no vectors. The first vector decides
the dimensions and the type; the metric is always the Euclidean distance. -/
def gatherIndex (fs : Fs) (e : Engine) (ns : Bytes) : Except EdgestoreError (Option HnswIndex) := do
  match ← e.prefixInner fs (vectorNamespace ns) [] with
  | [] => return none
  | first :: rest =>
    let firstRec ← decodeStored "vector" first.2
    let index := (HnswIndex.new firstRec.dims firstRec.dtype .l2).withParams 16 100
    let index ← (first :: rest).foldlM (fun (index : HnswIndex) p => do
      let rec' ← decodeVectorRecord p.2
      index.insert F p.1 rec'.data) index
    return some index

/-- Build the index of a namespace, write its files, and keep it in memory. -/
def buildVectorIndex (fs : Fs) (e : Engine) (ns : Bytes) : VectorExec Unit := do
  match ← Prog.lift (e.gatherIndex F fs ns) with
  | none => return ()
  | some index =>
    Directory.write (sidecarName ns) index.serialize
    Directory.write (stampName ns) (e.rangeMerkleRoot X)
    Prog.modify fun indices => Function.update indices ns (some index)

/-- Whether the index of a namespace is stale: there is no file or no stamp, or the stamp is not the
root of the segments. -/
def isIndexStale (e : Engine) (ns : Bytes) (files : VectorFiles) : Bool :=
  match files (sidecarName ns), files (stampName ns) with
  | some _, some stamp => stamp ≠ e.rangeMerkleRoot X
  | _, _ => true

/-- Load the index of a namespace from its file. A file that is too large is not loaded, and a stale
index is not kept. -/
def loadVectorIndex (e : Engine) (ns : Bytes) : VectorExec (Option HnswIndex) := do
  let files ← Prog.disk
  match files (sidecarName ns) with
  | none => return none
  | some bytes =>
    if e.config.hnswMaxRamBytes < bytes.length then return none
    else
      let index ← Prog.lift (HnswIndex.deserialize bytes)
      if e.isIndexStale X ns files then return none
      else
        Prog.modify fun indices => Function.update indices ns (some index)
        return some index

/-- The index of a namespace, from memory or from its file. A stale one in memory is removed. -/
def getVectorIndex (e : Engine) (ns : Bytes) : VectorExec (Option HnswIndex) := do
  let indices ← Prog.mem
  let files ← Prog.disk
  match indices ns with
  | some index =>
    if e.isIndexStale X ns files then do
      Prog.modify fun indices => Function.update indices ns none
      e.loadVectorIndex X ns
    else return some index
  | none => e.loadVectorIndex X ns

/-- The `k` keys closest to a query: from the index if there is one of the type and the dimensions of
the query, otherwise from the flat scan. -/
def vectorSearch (fs : Fs) (e : Engine) (ns : Bytes) (query : VectorRecord) (k : ℕ) (metric : Metric) :
    VectorExec (List (Bytes × F32)) := do
  match ← e.getVectorIndex X ns with
  | some index =>
    if index.dtype = query.dtype ∧ index.dims = query.dims then
      Prog.lift (index.search F query.data k 50)
    else Prog.lift (e.flatVectorSearch F fs ns query k metric)
  | none => Prog.lift (e.flatVectorSearch F fs ns query k metric)

/-- Load the index of a namespace. Says whether there is one. -/
def preloadVectorIndex (e : Engine) (ns : Bytes) : VectorExec Bool := do
  return (← e.getVectorIndex X ns).isSome

end Engine

/-! ### The files of a namespace -/

theorem dot_notMem_nsToSlug (ns : Bytes) : (46 : Byte) ∉ nsToSlug ns := by
  intro h
  obtain ⟨b, -, hb⟩ := List.mem_map.mp h
  split at hb
  case isTrue hkept =>
    subst hb
    revert hkept
    decide
  case isFalse => exact absurd hb (by decide)

/-- The stem of a name is what is in front of the last dot, if there is anything. -/
theorem fileStem_append {name ext : Bytes} (hext : (46 : Byte) ∉ ext) :
    fileStem (name ++ 46 :: ext) = if name = [] then 46 :: ext else name := by
  have hdrop : ((name ++ 46 :: ext).reverse.dropWhile (· ≠ 46)) = 46 :: name.reverse := by
    rw [List.reverse_append, List.reverse_cons, List.append_assoc, List.dropWhile_append_of_pos]
    · simp
    · intro b hb
      have hne : b ≠ 46 := fun h => hext (h ▸ List.mem_reverse.mp hb)
      simpa using hne
  unfold fileStem
  rw [hdrop]
  by_cases hname : name = [] <;> simp [hname]

theorem stampName_eq (ns : Bytes) : stampName ns =
    (if nsToSlug ns = [] then 46 :: hnswExt else nsToSlug ns) ++ 46 :: stampExt := by
  rw [stampName, withExtension, sidecarName, fileStem_append (by decide)]

theorem sidecarName_inj {ns ns' : Bytes} :
    sidecarName ns = sidecarName ns' ↔ nsToSlug ns = nsToSlug ns' := List.append_left_inj _

/-- A slug has no dot, so the stamp of the empty slug, `.hnsw.stamp`, is that of no other. -/
theorem stampName_inj {ns ns' : Bytes} : stampName ns = stampName ns' ↔ nsToSlug ns = nsToSlug ns' := by
  rw [stampName_eq, stampName_eq, List.append_left_inj]
  have hdot : ∀ ns, nsToSlug ns ≠ 46 :: hnswExt := fun ns h =>
    dot_notMem_nsToSlug ns (h ▸ List.mem_cons_self)
  split
  case isTrue hns =>
    split
    case isTrue hns' => exact iff_of_true rfl (hns.trans hns'.symm)
    case isFalse hns' => exact iff_of_false (hdot ns').symm fun h => hns' (h.symm.trans hns)
  case isFalse hns =>
    split
    case isTrue hns' => exact iff_of_false (hdot ns) fun h => hns (h.trans hns')
    case isFalse hns' => exact Iff.rfl

theorem sidecarName_ne_stampName (ns ns' : Bytes) : sidecarName ns ≠ stampName ns' := by
  intro h
  rw [stampName_eq, sidecarName] at h
  -- the last bytes of the names are `w` and `p`
  have hlast := congrArg List.getLast? h
  rw [List.getLast?_append, List.getLast?_append] at hlast
  exact absurd hlast (by simp [hnswExt, stampExt])

/-! ### What the programs do -/

namespace Engine

variable {X F} {fs : Fs} {e : Engine} {ns : Bytes} {indices : VectorIndices} {files files' : VectorFiles}

/-- The index that the file of a namespace gives. -/
def loadedIndex (X : Externals) (e : Engine) (ns : Bytes) (files : VectorFiles) :
    Except EdgestoreError (Option HnswIndex) :=
  match files (sidecarName ns) with
  | none => .ok none
  | some bytes =>
    if e.config.hnswMaxRamBytes < bytes.length then .ok none
    else (HnswIndex.deserialize bytes).map fun index =>
      if e.isIndexStale X ns files then none else some index

/-- The index that serves a namespace, given the one in memory. -/
def servedIndex (X : Externals) (e : Engine) (ns : Bytes) (cached : Option HnswIndex)
    (files : VectorFiles) : Except EdgestoreError (Option HnswIndex) :=
  if e.isIndexStale X ns files then e.loadedIndex X ns files
  else match cached with
    | some index => .ok (some index)
    | none => e.loadedIndex X ns files

theorem run_loadVectorIndex : (e.loadVectorIndex X ns).run indices files =
    (e.loadedIndex X ns files,
      match e.loadedIndex X ns files with
      | .ok (some index) => Function.update indices ns (some index)
      | _ => indices, []) := by
  refine (Prog.run_bind_nil rfl).trans ?_
  unfold loadedIndex
  cases files (sidecarName ns) with
  | none => rfl
  | some bytes =>
    dsimp only
    split
    case isTrue => rfl
    case isFalse =>
      cases HnswIndex.deserialize bytes with
      | error err => rfl
      | ok index =>
        refine (Prog.run_bind_nil (m := Prog.lift (.ok index)) rfl).trans ?_
        simp only [Except.map]
        split <;> rfl

/-- **What a lookup does**: the index that serves the namespace is kept in memory, and no other of the
namespace is. -/
theorem run_getVectorIndex : (e.getVectorIndex X ns).run indices files =
    (e.servedIndex X ns (indices ns) files,
      Function.update indices ns (e.servedIndex X ns (indices ns) files).toOption.join, []) := by
  refine (Prog.run_bind_nil rfl).trans ((Prog.run_bind_nil rfl).trans ?_)
  -- what is loaded into a memory without an index of the namespace
  have hload : ∀ s : VectorIndices, s ns = none → (e.loadVectorIndex X ns).run s files =
      (e.loadedIndex X ns files, Function.update s ns (e.loadedIndex X ns files).toOption.join, []) := by
    intro s hs
    have hkeep : Function.update s ns none = s := by rw [← hs, Function.update_eq_self]
    rw [run_loadVectorIndex]
    match e.loadedIndex X ns files with
    | .ok (some index) => rfl
    | .ok none => exact congrArg (fun s' => (_, s', _)) hkeep.symm
    | .error err => exact congrArg (fun s' => (_, s', _)) hkeep.symm
  unfold servedIndex
  cases hcached : indices ns with
  | none =>
    rw [hload indices hcached]
    split <;> rfl
  | some index =>
    dsimp only
    split
    case isTrue =>
      refine (Prog.run_bind_nil rfl).trans ?_
      rw [hload _ (Function.update_self ..), Function.update_idem]
    case isFalse =>
      have hkeep : Function.update indices ns (some index) = indices := by
        rw [← hcached, Function.update_eq_self]
      exact congrArg (fun s' => (_, s', _)) hkeep.symm

theorem run_preloadVectorIndex : (e.preloadVectorIndex X ns).run indices files =
    ((e.servedIndex X ns (indices ns) files).map Option.isSome,
      ((e.getVectorIndex X ns).run indices files).2.1, []) := by
  rw [run_getVectorIndex]
  cases hserved : e.servedIndex X ns (indices ns) files with
  | error err =>
    refine Prog.run_bind_error ?_
    rw [run_getVectorIndex, hserved]
  | ok found =>
    refine Prog.run_bind_nil ?_
    rw [run_getVectorIndex, hserved]

/-- The answer to a search, given the index that serves the namespace. -/
def answer (F : Floats) (fs : Fs) (e : Engine) (ns : Bytes) (query : VectorRecord) (k : ℕ)
    (metric : Metric) : Option HnswIndex → Except EdgestoreError (List (Bytes × F32))
  | some index =>
    if index.dtype = query.dtype ∧ index.dims = query.dims then index.search F query.data k 50
    else e.flatVectorSearch F fs ns query k metric
  | none => e.flatVectorSearch F fs ns query k metric

/-- **What a search does**: it looks for the index of the namespace, and answers from it or from the flat
scan. -/
theorem run_vectorSearch {query : VectorRecord} {k : ℕ} {metric : Metric} :
    (e.vectorSearch X F fs ns query k metric).run indices files =
      ((e.servedIndex X ns (indices ns) files).bind (e.answer F fs ns query k metric),
        ((e.getVectorIndex X ns).run indices files).2.1, []) := by
  rw [run_getVectorIndex]
  cases hserved : e.servedIndex X ns (indices ns) files with
  | error err =>
    refine Prog.run_bind_error ?_
    rw [run_getVectorIndex, hserved]
  | ok found =>
    have hget : (e.getVectorIndex X ns).run indices files =
        (.ok found, Function.update indices ns found, []) := by
      rw [run_getVectorIndex, hserved]
      rfl
    refine (Prog.run_bind_nil hget).trans ?_
    cases found with
    | none => rfl
    | some index =>
      simp only [Except.bind, answer]
      split <;> rfl

/-- The effects of building an index. -/
def indexEffects (X : Externals) (e : Engine) (ns : Bytes) (index : HnswIndex) :
    List (Directory.Effect Bytes) :=
  Directory.writeEffects (sidecarName ns) index.serialize ++
    Directory.writeEffects (stampName ns) (e.rangeMerkleRoot X)

/-- **What a build does**: if there is an index to build, it is written and kept in memory. -/
theorem run_buildVectorIndex : (e.buildVectorIndex X F fs ns).run indices files =
    match e.gatherIndex F fs ns with
    | .ok (some index) =>
      (.ok (), Function.update indices ns (some index), e.indexEffects X ns index)
    | .ok none => (.ok (), indices, [])
    | .error err => (.error err, indices, []) := by
  have hlift : ∀ r, e.gatherIndex F fs ns = r →
      (Prog.lift (e.gatherIndex F fs ns) : VectorExec (Option HnswIndex)).run indices files =
        (r, indices, []) := fun r hr => congrArg (fun r => (r, indices, [])) hr
  cases hgather : e.gatherIndex F fs ns with
  | error err => exact Prog.run_bind_error (hlift _ hgather)
  | ok found =>
    cases found with
    | none => exact Prog.run_bind_nil (hlift _ hgather)
    | some index => exact Prog.run_bind_nil (hlift _ hgather)

end Engine
