import Edgestore.Compactor
import Edgestore.Strip
import Edgestore.Import
import Edgestore.Lib.Run

/-!
# Runs of the store

A database directory, the engine that is open on it, if one is, and the flushes in flight: their
segments may be written while the engine accepts other calls. A run is a sequence of calls, each
with its own readings of the clock; a call may also be cut short by a crash, after some of its
file-system effects and inside the next one.

## Main definitions

* `World`, `Op`, `Call`
* `World.perform`: the outcome of an operation, with the effects it had
* `World.step`: a call, crashed or not
* `World.get`, `World.range`: what the open engine returns
-/

/-- A flush in flight: the work, and the metadata once its files are written. -/
structure Flight where
  work : FlushWork
  written : Option SegmentMeta := none
  deriving DecidableEq, Repr

/-- One operation of a transaction, with the LSN and time stamp the caller passes. -/
structure TxOp where
  op : Operation
  ns : Bytes
  key : Bytes
  val : Bytes := []
  ttl : ℕ := 0
  lsn : Lsn := 0
  timestamp : ℤ := 0
  deriving DecidableEq, Repr

/-- The operations on a database. Flights are numbered in the order in which they began. -/
inductive Op
  | open (config : EdgestoreConfig)
  | close
  | put (ns key val : Bytes)
  | putWithTtl (ns key val : Bytes) (ttlSecs : ℕ)
  | delete (ns key : Bytes)
  | commit (ops : List TxOp)
  | flush
  | flushToSegments
  | beginFlush
  | execute (i : ℕ)
  | finalizeFlush (i : ℕ)
  | abandon (i : ℕ)
  | compactOnce (order : HashOrder)
  | stripTextIndex (id : SegmentId)
  | stripVectorIndex (id : SegmentId)
  | importSegment (dat : Dat) (size : ℕ) (hash : Bytes)
  | snapshot
  | dropSnapshot (id : ℕ)

/-- A call: an operation with its clock readings. `stop = some (n, m)` is a crash after `n` effects
and `m` units into the next. -/
structure Call where
  op : Op
  clock : ℕ → ℕ := fun _ => 0
  stop : Option (ℕ × ℕ) := none

/-- The directory, the open engine, the flushes in flight, and the records of acknowledged writes,
in the order in which they were acknowledged. -/
structure World where
  fs : Fs := {}
  engine : Option Engine := none
  flights : List Flight := []
  acked : List WalRecord := []

/-- The outcome of an operation: whether it returned `Ok`, the effects it had, the engine and the
flights it left. -/
structure Outcome where
  ok : Bool
  effects : List Effect := []
  engine : Option Engine
  flights : List Flight

/-- The records that effects append to the WAL. -/
def appendedRecords (es : List Effect) : List WalRecord :=
  es.filterMap fun
    | .walAppend _ r => some r
    | _ => none

/-- Add the operations of a client to a transaction. -/
def TxOp.addAll (X : Externals) (tx : Transaction) (ops : List TxOp) :
    Except EdgestoreError Transaction :=
  ops.foldlM (fun tx o => tx.push X o.op o.ns o.key o.val o.ttl o.lsn o.timestamp) tx

/-- Begin a transaction, fill it, commit it. -/
def Engine.runTransaction {X : Externals} (ops : List TxOp) : Exec X Engine Lsn := do
  let tx ← Engine.begin
  let tx ← Prog.lift (TxOp.addAll X tx ops)
  Engine.commitTransaction tx

namespace World

variable (X : Externals)

/-- The outcome of an operation that does nothing. -/
def idle (w : World) (ok : Bool) : Outcome :=
  { ok := ok, engine := w.engine, flights := w.flights }

/-- Call a method of the open engine. `land` says what becomes of the flights. -/
def onEngine {α : Type} (w : World) (clock : ℕ → ℕ) (m : Exec X Engine α)
    (land : α → List Flight := fun _ => w.flights) : Outcome :=
  match w.engine with
  | none => w.idle false
  | some e =>
    let r := m.run ⟨e, clock⟩ w.fs
    match r.1 with
    | .ok a => ⟨true, r.2.2, some r.2.1.state, land a⟩
    | .error _ => ⟨false, r.2.2, some r.2.1.state, w.flights⟩

/-- Write the files of a flight. The engine takes no part in it. -/
def executeFlight (w : World) (clock : ℕ → ℕ) (i : ℕ) : Outcome :=
  match w.flights[i]? with
  | none => w.idle false
  | some f =>
    let r := (f.work.execute (X := X)).run ⟨(), clock⟩ w.fs
    match r.1 with
    | .ok m => ⟨true, r.2.2, w.engine, w.flights.set i { f with written := some m }⟩
    | .error _ => ⟨false, r.2.2, w.engine, w.flights.eraseIdx i⟩

/-- Perform an operation to its end. -/
def perform (w : World) (op : Op) (clock : ℕ → ℕ) : Outcome :=
  match op with
  | .open config =>
    match w.engine with
    | some _ => w.idle false
    | none =>
      let r := (Engine.open (X := X) (σ := Unit) config).run ⟨(), clock⟩ w.fs
      ⟨r.1.isOk, r.2.2, r.1.toOption, w.flights⟩
  | .close => { w.onEngine X clock Engine.flush with engine := none }
  | .put ns key val => w.onEngine X clock (Engine.put ns key val)
  | .putWithTtl ns key val ttlSecs => w.onEngine X clock (Engine.putWithTtl ns key val ttlSecs)
  | .delete ns key => w.onEngine X clock (Engine.delete ns key)
  | .commit ops => w.onEngine X clock (Engine.runTransaction ops)
  | .flush => w.onEngine X clock Engine.flush
  | .flushToSegments => w.onEngine X clock Engine.flushToSegments
  | .beginFlush =>
    w.onEngine X clock Engine.beginFlush fun work =>
      w.flights ++ (work.map fun f => ⟨f, none⟩).toList
  | .execute i => w.executeFlight X clock i
  | .finalizeFlush i =>
    match w.engine, w.flights[i]? with
    | some _, some ⟨work, some m⟩ =>
      { w.onEngine X clock (Engine.finalizeFlush m work.flushedMaxLsn) with
        flights := w.flights.eraseIdx i }
    | _, _ => w.idle false
  | .abandon i => { w.idle true with flights := w.flights.eraseIdx i }
  | .compactOnce order => w.onEngine X clock (Engine.compactOnce order)
  | .stripTextIndex id => w.onEngine X clock (Engine.stripTextIndex id)
  | .stripVectorIndex id => w.onEngine X clock (Engine.stripVectorIndex id)
  | .importSegment dat size hash => w.onEngine X clock (Engine.importSegment dat size hash)
  | .snapshot => w.onEngine X clock Engine.snapshot
  | .dropSnapshot id => w.onEngine X clock (Engine.dropSnapshot id)

/-- The effects of a call. -/
def effects (w : World) (c : Call) : List Effect := (w.perform X c.op c.clock).effects

/-- The world that an outcome leaves. -/
def land (w : World) (o : Outcome) : World where
  fs := (disk X).run o.effects w.fs
  engine := o.engine
  flights := o.flights
  acked := if o.ok then w.acked ++ appendedRecords o.effects else w.acked

/-- Make a call. A crash leaves the directory, and nothing in memory. -/
def step (w : World) (c : Call) : World :=
  let o := w.perform X c.op c.clock
  match c.stop with
  | none =>
    { fs := (disk X).run o.effects w.fs
      engine := o.engine
      flights := o.flights
      acked := if o.ok then w.acked ++ appendedRecords o.effects else w.acked }
  | some (n, m) =>
    { fs := (disk X).cut o.effects n m w.fs
      engine := none
      flights := []
      acked := w.acked }

/-- Every effect of a call, up to the one in which a crash stops it, meets a condition in the
directory it finds. -/
def EffectsMeet (G : Effect → Fs → Prop) (w : World) (c : Call) : Prop :=
  match c.stop with
  | none => (disk X).All G (w.effects X c) w.fs
  | some (n, _) => (disk X).All G ((w.effects X c).take (n + 1)) w.fs

instance (G : Effect → Fs → Prop) [∀ e fs, Decidable (G e fs)] (w : World) :
    ∀ c, Decidable (w.EffectsMeet X G c)
  | ⟨op, clock, none⟩ =>
    inferInstanceAs (Decidable ((disk X).All G (w.effects X ⟨op, clock, none⟩) w.fs))
  | ⟨op, clock, some (n, m)⟩ => inferInstanceAs (Decidable
      ((disk X).All G ((w.effects X ⟨op, clock, some (n, m)⟩).take (n + 1)) w.fs))

/-- What `get` returns. -/
def get (w : World) (ns key : Bytes) : Option (Except EdgestoreError (Option Bytes)) :=
  w.engine.map fun e => e.get X w.fs ns key

/-- What `range` returns. -/
def range (w : World) (ns start «end» : Bytes) :
    Option (Except EdgestoreError (List (Bytes × Bytes))) :=
  w.engine.map fun e => e.range w.fs ns start «end»

end World
