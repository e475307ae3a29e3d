import Edgestore.VectorWorld
import Edgestore.PlainExternals
import Edgestore.Lib.Run

/-!
# Isolation of vector indexes

What a search in a namespace returns should not depend on the indexes of other namespaces. It does not
depend on which of them are loaded. But namespaces share the files of their indexes when they have the
same slug: then a build for one of them writes the files of the other.

## Main definitions

* `VectorWorld.SameFor B`: what a search in `B` depends on is the same
* `VectorOp.without A`: a call, unless it is one on the index of `A`
* `VectorWorld.BuildsApart A B`: a build for `A` does not write the files of `B`

## Main results

* `VectorWorld.isolated`: where builds write other files, the calls on the index of a namespace change
  no search in another
* `VectorWorld.slugs_collide`: a search in `a_b` that returns a key of `a.b`
-/

variable {X : Externals} {F : Floats}

open Directory (Effect)

/-! ### The files of a namespace -/

namespace Engine

variable {fs : Fs} {e : Engine} {ns ns' : Bytes} {index : HnswIndex} {files files' : VectorFiles}

theorem isWrite_indexEffects : ∀ eff ∈ e.indexEffects X ns index, eff.IsWrite := by
  intro eff heff
  simp only [indexEffects, Directory.writeEffects, List.cons_append, List.nil_append, List.mem_cons,
    List.not_mem_nil, or_false] at heff
  rcases heff with rfl | rfl | rfl | rfl <;> trivial

/-- A build writes no file of a namespace with another slug. -/
theorem notMem_names_indexEffects (h : nsToSlug ns ≠ nsToSlug ns') {name : Bytes}
    (hname : name = sidecarName ns' ∨ name = stampName ns') :
    ∀ eff ∈ e.indexEffects X ns index, name ∉ eff.names := by
  have hsidecar : name ≠ sidecarName ns := by
    rcases hname with rfl | rfl
    · exact fun heq => h (sidecarName_inj.mp heq.symm)
    · exact (sidecarName_ne_stampName ns ns').symm
  have hstamp : name ≠ stampName ns := by
    rcases hname with rfl | rfl
    · exact sidecarName_ne_stampName ns' ns
    · exact fun heq => h (stampName_inj.mp heq.symm)
  intro eff heff
  simp only [indexEffects, Directory.writeEffects, List.cons_append, List.nil_append, List.mem_cons,
    List.not_mem_nil, or_false] at heff
  rcases heff with rfl | rfl | rfl | rfl
  · exact fun hmem => hsidecar (List.mem_singleton.mp hmem)
  · exact fun hmem => hsidecar (List.mem_singleton.mp hmem)
  · exact fun hmem => hstamp (List.mem_singleton.mp hmem)
  · exact fun hmem => hstamp (List.mem_singleton.mp hmem)

/-- The index that serves a namespace depends on the two files of the namespace alone. -/
theorem servedIndex_congr (hsidecar : files (sidecarName ns) = files' (sidecarName ns))
    (hstamp : files (stampName ns) = files' (stampName ns)) (cached : Option HnswIndex) :
    e.servedIndex X ns cached files = e.servedIndex X ns cached files' := by
  have hstale : e.isIndexStale X ns files = e.isIndexStale X ns files' := by
    rw [isIndexStale, isIndexStale, hsidecar, hstamp]
  have hload : e.loadedIndex X ns files = e.loadedIndex X ns files' := by
    rw [loadedIndex, loadedIndex, hsidecar, hstale]
  unfold servedIndex
  rw [hstale, hload]

end Engine

/-! ### What a search depends on -/

variable {A B : Bytes} {v v' : VectorWorld}

namespace VectorWorld

/-- The store, the files of the index of `B`, and the index of `B` in memory are the same. -/
structure SameFor (B : Bytes) (v v' : VectorWorld) : Prop where
  world : v.world = v'.world
  sidecar : v.files (sidecarName B) = v'.files (sidecarName B)
  stamp : v.files (stampName B) = v'.files (stampName B)
  index : v.indices B = v'.indices B

/-- **A search** depends on these alone. -/
theorem SameFor.searchResult (h : SameFor B v v') (query : VectorRecord) (k : ℕ) (metric : Metric) :
    v.searchResult X F B query k metric = v'.searchResult X F B query k metric := by
  unfold VectorWorld.searchResult
  rw [h.world]
  refine congrArg (fun f => Option.map f v'.world.engine) (funext fun e => ?_)
  rw [Engine.run_vectorSearch, Engine.run_vectorSearch, h.index,
    Engine.servedIndex_congr h.sidecar h.stamp]

theorem SameFor.withWorld (h : SameFor B v v') (w : World) :
    SameFor B (v.withWorld w) (v'.withWorld w) := by
  refine ⟨rfl, h.sidecar, h.stamp, ?_⟩
  simp only [VectorWorld.withWorld]
  split
  · exact h.index
  · rfl

/-- What two methods have in common if they have the same effects and keep the same index of `B`. -/
theorem SameFor.onIndices {α β : Type} {m : Engine → VectorExec α} {m' : Engine → VectorExec β}
    (h : SameFor B v v')
    (hm : ∀ e, v'.world.engine = some e →
      ((m e).run v.indices v.files).2.1 B = ((m' e).run v'.indices v'.files).2.1 B ∧
      ∀ name, name = sidecarName B ∨ name = stampName B →
        (directory Bytes).run ((m e).run v.indices v.files).2.2 v.files name =
          (directory Bytes).run ((m' e).run v'.indices v'.files).2.2 v'.files name) :
    SameFor B (v.onIndices m) (v'.onIndices m') := by
  unfold VectorWorld.onIndices
  rw [h.world]
  cases he : v'.world.engine with
  | none => exact h
  | some e =>
    obtain ⟨hindex, hfiles⟩ := hm e he
    exact ⟨rfl, hfiles _ (.inl rfl), hfiles _ (.inr rfl), hindex⟩

/-! ### A call in both runs -/

/-- What is kept of a namespace in memory when the index of another one is looked up, and of the same
one, depends on what was there. -/
theorem SameFor.getVectorIndex (h : SameFor B v v') (e : Engine) (ns : Bytes) :
    ((e.getVectorIndex X ns).run v.indices v.files).2.1 B =
      ((e.getVectorIndex X ns).run v'.indices v'.files).2.1 B := by
  rw [Engine.run_getVectorIndex, Engine.run_getVectorIndex]
  change Function.update v.indices ns _ B = Function.update v'.indices ns _ B
  by_cases hns : ns = B
  · subst hns
    rw [Function.update_self, Function.update_self, h.index,
      Engine.servedIndex_congr h.sidecar h.stamp]
  · rw [Function.update_of_ne (Ne.symm hns), Function.update_of_ne (Ne.symm hns), h.index]

/-- The files of `B` are the same. -/
theorem SameFor.files (h : SameFor B v v') {name : Bytes}
    (hname : name = sidecarName B ∨ name = stampName B) : v.files name = v'.files name := by
  rcases hname with rfl | rfl
  · exact h.sidecar
  · exact h.stamp

theorem SameFor.preload (h : SameFor B v v') (ns : Bytes) :
    SameFor B (v.onIndices fun e => e.preloadVectorIndex X ns)
      (v'.onIndices fun e => e.preloadVectorIndex X ns) := by
  refine h.onIndices fun e _ => ?_
  rw [Engine.run_preloadVectorIndex, Engine.run_preloadVectorIndex]
  exact ⟨h.getVectorIndex e ns, fun name hname => h.files hname⟩

theorem SameFor.search (h : SameFor B v v') (ns : Bytes) (query : VectorRecord) (k : ℕ)
    (metric : Metric) :
    SameFor B (v.onIndices fun e => e.vectorSearch X F v.world.fs ns query k metric)
      (v'.onIndices fun e => e.vectorSearch X F v'.world.fs ns query k metric) := by
  refine h.onIndices fun e _ => ?_
  rw [Engine.run_vectorSearch, Engine.run_vectorSearch]
  exact ⟨h.getVectorIndex e ns, fun name hname => h.files hname⟩

theorem SameFor.build (h : SameFor B v v') (ns : Bytes) :
    SameFor B (v.onIndices fun e => e.buildVectorIndex X F v.world.fs ns)
      (v'.onIndices fun e => e.buildVectorIndex X F v'.world.fs ns) := by
  refine h.onIndices fun e _ => ?_
  rw [Engine.run_buildVectorIndex, Engine.run_buildVectorIndex, h.world]
  match e.gatherIndex F v'.world.fs ns with
  | .error err => exact ⟨h.index, fun name hname => h.files hname⟩
  | .ok none => exact ⟨h.index, fun name hname => h.files hname⟩
  | .ok (some index) =>
    refine ⟨?_, fun name hname => Directory.run_congr Engine.isWrite_indexEffects (h.files hname)⟩
    change Function.update v.indices ns _ B = Function.update v'.indices ns _ B
    rw [Function.update_apply, Function.update_apply, h.index]

theorem SameFor.stopBuild (h : SameFor B v v') (ns : Bytes) (n i : ℕ) :
    SameFor B (v.stopIndices (fun e => e.buildVectorIndex X F v.world.fs ns) n i)
      (v'.stopIndices (fun e => e.buildVectorIndex X F v'.world.fs ns) n i) := by
  have hfiles : ∀ name, name = sidecarName B ∨ name = stampName B →
      (v.stopIndices (fun e => e.buildVectorIndex X F v.world.fs ns) n i).files name =
        (v'.stopIndices (fun e => e.buildVectorIndex X F v'.world.fs ns) n i).files name := by
    intro name hname
    simp only [stopIndices]
    rw [h.world]
    cases v'.world.engine with
    | none => exact h.files hname
    | some e =>
      simp only [Engine.run_buildVectorIndex]
      match e.gatherIndex F v'.world.fs ns with
      | .error err => exact h.files hname
      | .ok none => exact h.files hname
      | .ok (some index) =>
        exact Directory.cut_congr Engine.isWrite_indexEffects (h.files hname) n i
  exact ⟨congrArg World.crashed h.world, hfiles _ (.inl rfl), hfiles _ (.inr rfl), rfl⟩

/-- **A call in both runs** keeps what a search in `B` depends on the same. -/
theorem SameFor.step (h : SameFor B v v') (op : VectorOp) :
    SameFor B (v.step X F op) (v'.step X F op) := by
  cases op with
  | store c =>
    simp only [VectorWorld.step, h.world]
    exact h.withWorld _
  | vectorPut ns key dims dtype data clock =>
    rw [VectorWorld.step, VectorWorld.step, h.world]
    exact h.withWorld _
  | vectorDelete ns key clock =>
    rw [VectorWorld.step, VectorWorld.step, h.world]
    exact h.withWorld _
  | buildIndex ns stop =>
    cases stop with
    | none => exact h.build ns
    | some p => exact h.stopBuild ns p.1 p.2
  | preloadIndex ns => exact h.preload ns
  | vectorSearch ns query k metric => exact h.search ns query k metric
  | crash =>
    simp only [VectorWorld.step, h.world]
    exact h.withWorld _

/-! ### A call on the index of another namespace -/

/-- A build for `A` does not write the files of `B`: the slugs differ, or there is nothing to build. -/
def BuildsApart (F : Floats) (A B : Bytes) (v : VectorWorld) : VectorOp → Prop
  | .buildIndex ns _ => ns = A → nsToSlug A ≠ nsToSlug B ∨
      ∀ e, v.world.engine = some e → ∀ index, e.gatherIndex F v.world.fs A ≠ .ok (some index)
  | _ => True

end VectorWorld

/-- A call, unless it is one on the index of `A`. Of a build that is stopped the crash remains. -/
def VectorOp.without (A : Bytes) : VectorOp → Option VectorOp
  | .buildIndex ns none => if ns = A then none else some (.buildIndex ns none)
  | .buildIndex ns (some p) => if ns = A then some .crash else some (.buildIndex ns (some p))
  | .preloadIndex ns => if ns = A then none else some (.preloadIndex ns)
  | .vectorSearch ns query k metric =>
    if ns = A then none else some (.vectorSearch ns query k metric)
  | op => some op

namespace VectorWorld

/-- A method that keeps the index of `B` and its files keeps what a search in `B` depends on. -/
theorem SameFor.onIndices_left {α : Type} {m : Engine → VectorExec α} (h : SameFor B v v')
    (hm : ∀ e, v.world.engine = some e → ((m e).run v.indices v.files).2.1 B = v.indices B ∧
      ∀ name, name = sidecarName B ∨ name = stampName B →
        (directory Bytes).run ((m e).run v.indices v.files).2.2 v.files name = v.files name) :
    SameFor B (v.onIndices m) v' := by
  unfold VectorWorld.onIndices
  cases he : v.world.engine with
  | none => exact h
  | some e =>
    obtain ⟨hindex, hfiles⟩ := hm e he
    exact ⟨h.world, (hfiles _ (.inl rfl)).trans h.sidecar, (hfiles _ (.inr rfl)).trans h.stamp,
      hindex.trans h.index⟩

/-- A lookup for another namespace. -/
theorem getVectorIndex_other (hne : A ≠ B) (e : Engine) (indices : VectorIndices)
    (files : VectorFiles) :
    ((e.getVectorIndex X A).run indices files).2.1 B = indices B := by
  rw [Engine.run_getVectorIndex]
  exact Function.update_of_ne hne.symm _ _

/-- What a build for `A` leaves of the files of `B`. -/
theorem build_files_other {stop : Option (ℕ × ℕ)} (hv : v.BuildsApart F A B (.buildIndex A stop))
    {e : Engine} (he : v.world.engine = some e) {name : Bytes}
    (hname : name = sidecarName B ∨ name = stampName B) :
    let es := ((e.buildVectorIndex X F v.world.fs A).run v.indices v.files).2.2
    ∀ eff ∈ es, name ∉ eff.names := by
  rw [Engine.run_buildVectorIndex]
  match hgather : e.gatherIndex F v.world.fs A with
  | .error err => exact fun eff heff => absurd heff List.not_mem_nil
  | .ok none => exact fun eff heff => absurd heff List.not_mem_nil
  | .ok (some index) =>
    rcases hv rfl with hslug | hnone
    · exact Engine.notMem_names_indexEffects hslug hname
    · exact absurd hgather (hnone e he index)

theorem SameFor.build_left (h : SameFor B v v') (hne : A ≠ B)
    (hv : v.BuildsApart F A B (.buildIndex A none)) :
    SameFor B (v.onIndices fun e => e.buildVectorIndex X F v.world.fs A) v' := by
  refine h.onIndices_left fun e he => ⟨?_, fun name hname =>
    Directory.run_of_notMem (build_files_other hv he hname)⟩
  rw [Engine.run_buildVectorIndex]
  match e.gatherIndex F v.world.fs A with
  | .error err => rfl
  | .ok none => rfl
  | .ok (some index) => exact Function.update_of_ne hne.symm _ _

theorem SameFor.stopBuild_left (h : SameFor B v v') {n i : ℕ}
    (hv : v.BuildsApart F A B (.buildIndex A (some (n, i)))) :
    SameFor B (v.stopIndices (fun e => e.buildVectorIndex X F v.world.fs A) n i)
      (v'.withWorld v'.world.crashed) := by
  have hfiles : ∀ name, name = sidecarName B ∨ name = stampName B →
      (v.stopIndices (fun e => e.buildVectorIndex X F v.world.fs A) n i).files name =
        v.files name := by
    intro name hname
    simp only [stopIndices]
    cases he : v.world.engine with
    | none => rfl
    | some e => exact Directory.cut_of_notMem (build_files_other hv he hname) n i
  exact ⟨congrArg World.crashed h.world, (hfiles _ (.inl rfl)).trans h.sidecar,
    (hfiles _ (.inr rfl)).trans h.stamp, rfl⟩

/-- **A call that is left out of one run** keeps what a search in `B` depends on the same. -/
theorem SameFor.step_without (h : SameFor B v v') (hne : A ≠ B) {op : VectorOp}
    (hv : v.BuildsApart F A B op) :
    SameFor B (v.step X F op) (((op.without A).map (v'.step X F)).getD v') := by
  -- a call that is not on the index of `A` is made in both runs
  have hboth : op.without A = some op →
      SameFor B (v.step X F op) (((op.without A).map (v'.step X F)).getD v') := fun hop => by
    rw [hop]
    exact h.step op
  cases op with
  | buildIndex ns stop =>
    by_cases hns : ns = A
    · subst hns
      cases stop with
      | none =>
        rw [VectorOp.without, if_pos rfl]
        exact h.build_left hne hv
      | some p =>
        rw [VectorOp.without, if_pos rfl]
        exact h.stopBuild_left hv
    · cases stop <;> exact hboth (if_neg hns)
  | preloadIndex ns =>
    by_cases hns : ns = A
    · subst hns
      rw [VectorOp.without, if_pos rfl]
      refine h.onIndices_left fun e _ => ?_
      rw [Engine.run_preloadVectorIndex]
      exact ⟨getVectorIndex_other hne e _ _, fun _ _ => rfl⟩
    · exact hboth (if_neg hns)
  | vectorSearch ns query k metric =>
    by_cases hns : ns = A
    · subst hns
      rw [VectorOp.without, if_pos rfl]
      refine h.onIndices_left fun e _ => ?_
      rw [Engine.run_vectorSearch]
      exact ⟨getVectorIndex_other hne e _ _, fun _ _ => rfl⟩
    · exact hboth (if_neg hns)
  | store c => exact hboth rfl
  | vectorPut ns key dims dtype data clock => exact hboth rfl
  | vectorDelete ns key clock => exact hboth rfl
  | crash => exact hboth rfl

/-- **Run lemma**: a run and the same run without the calls on the index of `A`. -/
theorem SameFor.run (hne : A ≠ B) {ops : List VectorOp} (h : SameFor B v v')
    (hops : Run.All (VectorWorld.step X F) (BuildsApart F A B) v ops) :
    SameFor B (Run.from (VectorWorld.step X F) v ops)
      (Run.from (VectorWorld.step X F) v' (ops.filterMap (VectorOp.without A))) := by
  induction ops generalizing v v' with
  | nil => exact h
  | cons op ops ih =>
    have hstep := h.step_without (X := X) hne hops.1
    rw [Run.from_cons, List.filterMap_cons]
    cases hop : op.without A with
    | none =>
      rw [hop] at hstep
      exact ih hstep hops.2
    | some op' =>
      rw [hop] at hstep
      exact ih hstep hops.2

/-- **Isolation**: if the builds for `A` that have something to build are under another slug than that of
`B`, the calls on the index of `A` change nothing of what a search in `B` returns. -/
theorem isolated (hne : A ≠ B) {ops : List VectorOp}
    (hops : Run.All (step X F) (BuildsApart F A B) v ops) (query : VectorRecord) (k : ℕ)
    (metric : Metric) :
    (Run.from (step X F) v ops).searchResult X F B query k metric =
      (Run.from (step X F) v (ops.filterMap (VectorOp.without A))).searchResult X F B query k metric :=
  (SameFor.run hne ⟨rfl, rfl, rfl, rfl⟩ hops).searchResult query k metric

/-- A vector under the key 1 in `a.b`, and an index of `a.b`. -/
def indexedAB : List VectorOp := [
  .store { op := .open {} },
  .vectorPut [97, 46, 98] [1] 1 .i8 [5] fun _ => 0,
  .buildIndex [97, 46, 98] none]

/-- The calls of `indexedAB` keep `a.b` apart from `ab`. -/
theorem isolated_indexedAB :
    (Run.from (step plainExternals plainFloats) {} indexedAB).searchResult plainExternals plainFloats
        [97, 98] ⟨1, .i8, [5]⟩ 1 .l2 =
      (Run.from (step plainExternals plainFloats) {}
        (indexedAB.filterMap (VectorOp.without [97, 46, 98]))).searchResult plainExternals plainFloats
        [97, 98] ⟨1, .i8, [5]⟩ 1 .l2 :=
  isolated (A := [97, 46, 98]) (by decide)
    (show Run.All _ _ _ indexedAB from ⟨trivial, trivial, fun _ => .inl (by decide), trivial⟩)
    ⟨1, .i8, [5]⟩ 1 .l2

/-- **Slugs collide**: the index of `a.b` answers a search in `a_b`, where nothing is stored. -/
theorem slugs_collide :
    (Run.from (step plainExternals plainFloats) {} indexedAB).searchResult plainExternals plainFloats
        [97, 95, 98] ⟨1, .i8, [5]⟩ 1 .l2 = some (.ok [([1], 0)]) ∧
      (Run.from (step plainExternals plainFloats) {}
        (indexedAB.filterMap (VectorOp.without [97, 46, 98]))).searchResult plainExternals plainFloats
        [97, 95, 98] ⟨1, .i8, [5]⟩ 1 .l2 = some (.ok []) := by
  decide +kernel

end VectorWorld
