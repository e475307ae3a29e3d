import Edgestore.World
import Edgestore.Vector.Index

/-!
# Runs with vector indexes

The calls of the store together with those of the vector API: vectors are stored and deleted, indexes are
built and loaded, and namespaces are searched. The indexes in memory are those of the open engine; their
files stay when it is closed, or when the process stops.

## Main definitions

* `VectorWorld`, `VectorOp`
* `VectorWorld.step`: a call
* `VectorWorld.searchResult`: what a search returns
-/

/-- A world with the files of the indexes and the indexes in memory. -/
structure VectorWorld where
  world : World := {}
  files : VectorFiles := fun _ => none
  indices : VectorIndices := fun _ => none

/-- The calls. A build may be cut short by a crash, as a call of the store may. -/
inductive VectorOp
  | store (c : Call)
  | vectorPut (ns key : Bytes) (dims : ℕ) (dtype : Dtype) (data : Bytes) (clock : ℕ → ℕ)
  | vectorDelete (ns key : Bytes) (clock : ℕ → ℕ)
  | buildIndex (ns : Bytes) (stop : Option (ℕ × ℕ))
  | preloadIndex (ns : Bytes)
  | vectorSearch (ns : Bytes) (query : VectorRecord) (k : ℕ) (metric : Metric)
  | crash

/-- The world after a crash outside of the calls of the store. -/
def World.crashed (w : World) : World := { w with engine := none, flights := [] }

namespace VectorWorld

variable (X : Externals) (F : Floats)

/-- After a call of the store. An engine that is gone takes its indexes with it. -/
def withWorld (v : VectorWorld) (w : World) : VectorWorld :=
  { v with world := w, indices := if w.engine.isSome then v.indices else fun _ => none }

/-- Call a method of the open engine on the indexes. -/
def onIndices {α : Type} (v : VectorWorld) (m : Engine → VectorExec α) : VectorWorld :=
  match v.world.engine with
  | none => v
  | some e =>
    let r := (m e).run v.indices v.files
    { v with indices := r.2.1, files := (directory Bytes).run r.2.2 v.files }

/-- A crash inside a method of the open engine on the indexes. -/
def stopIndices {α : Type} (v : VectorWorld) (m : Engine → VectorExec α) (n i : ℕ) : VectorWorld where
  world := v.world.crashed
  files :=
    match v.world.engine with
    | none => v.files
    | some e => (directory Bytes).cut ((m e).run v.indices v.files).2.2 n i v.files
  indices := fun _ => none

/-- Make a call. -/
def step (v : VectorWorld) : VectorOp → VectorWorld
  | .store c => v.withWorld (v.world.step X c)
  | .vectorPut ns key dims dtype data clock => v.withWorld <|
    v.world.land X (v.world.onEngine X clock (Engine.vectorPut ns key dims dtype data))
  | .vectorDelete ns key clock => v.withWorld <|
    v.world.land X (v.world.onEngine X clock (Engine.vectorDelete ns key))
  | .buildIndex ns none => v.onIndices fun e => e.buildVectorIndex X F v.world.fs ns
  | .buildIndex ns (some (n, i)) =>
    v.stopIndices (fun e => e.buildVectorIndex X F v.world.fs ns) n i
  | .preloadIndex ns => v.onIndices fun e => e.preloadVectorIndex X ns
  | .vectorSearch ns query k metric =>
    v.onIndices fun e => e.vectorSearch X F v.world.fs ns query k metric
  | .crash => v.withWorld v.world.crashed

/-- What a search returns. -/
def searchResult (v : VectorWorld) (ns : Bytes) (query : VectorRecord) (k : ℕ) (metric : Metric) :
    Option (Except EdgestoreError (List (Bytes × F32))) :=
  v.world.engine.map fun e =>
    ((e.vectorSearch X F v.world.fs ns query k metric).run v.indices v.files).1

end VectorWorld
