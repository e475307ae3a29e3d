import Edgestore.Replication.AntiEntropy
import Edgestore.World

/-!
# Replicating nodes

A node is a store that also has a write token and synchronises with peers. Its runs interleave calls
to the store, anti-entropy cycles, new write tokens and promotions; any of them may be cut short by
a crash.

## Main definitions

* `Node`, `NodeOp`, `Node.step`
* `loadWriteToken`, `promotedToken`: the token of an opened engine, and of a promoted one
* `Node.rejectedFrom`, `Node.seenFrom`: the hashes a node has rejected, the tokens it has seen
-/

/-- What a cycle with a peer did. -/
structure CycleRecord where
  peerId : String
  events : List CycleEvent

/-- A store with its side files, the write token of the open engine, and the cycles so far. -/
structure Node where
  world : World := {}
  files : Directory.Files SideFile := fun _ => none
  token : ℕ := 0
  cycles : List CycleRecord := []

/-- What a node does. `stop = some (n, m)` is a crash after `n` effects and `m` units into the
next. -/
inductive NodeOp
  | call (c : Call)
  | cycle (peerId : String) (answers : PeerAnswers) (archive : Bool) (clock : ℕ → ℕ)
      (stop : Option (ℕ × ℕ))
  | setWriteToken (token : ℕ) (stop : Option (ℕ × ℕ))
  | promoteToPrimary (config : EdgestoreConfig) (clock : ℕ → ℕ) (fetched : Option ℕ)
      (stop : Option (ℕ × ℕ))

/-- The token in the token file: 0 when there is no file or it does not have eight bytes. -/
def loadWriteToken (files : Directory.Files SideFile) : ℕ :=
  match files .wtoken with
  | some bs => if bs.length = 8 then ofLe bs else 0
  | none => 0

/-- The token of a promoted node. The sum wraps around at 64 bits. -/
def promotedToken (fetched : Option ℕ) (own : ℕ) : ℕ := (max (fetched.getD 0) own + 1) % 2 ^ 64

/-- The effects of writing a token file. -/
def tokenEffects (token : ℕ) : List (Directory.Effect SideFile) :=
  Directory.writeEffects .wtoken (leBytes 8 token)

namespace Node

variable (X : Externals) (codec : CursorCodec)

/-- Write a token file, and set the token. -/
def writeToken (s : Node) (token : ℕ) (stop : Option (ℕ × ℕ)) : Node :=
  match stop with
  | none => { s with files := (directory SideFile).run (tokenEffects token) s.files, token := token }
  | some (n, m) =>
    { s with
      world := { s.world with engine := none, flights := [] }
      files := (directory SideFile).cut (tokenEffects token) n m s.files }

/-- A call to the store. An engine that is opened loads the token. -/
def call (s : Node) (c : Call) : Node :=
  match s.world.engine with
  | some _ => { s with world := s.world.step X c }
  | none => { s with world := s.world.step X c, token := loadWriteToken s.files }

/-- A cycle, with the engine it works on. -/
def cycleRun (e : Engine) (s : Node) (peerId : String) (answers : PeerAnswers) (archive : Bool)
    (clock : ℕ → ℕ) : Except EdgestoreError Unit × Process Engine ×
      List (AntiEntropy.cycleDevice X).Effect :=
  (AntiEntropy.runOnce (X := X) codec peerId answers archive).run ⟨e, clock⟩
    (s.world.fs, s.files, [])

/-- A cycle with a peer. -/
def cycle (s : Node) (peerId : String) (answers : PeerAnswers) (archive : Bool) (clock : ℕ → ℕ)
    (stop : Option (ℕ × ℕ)) : Node :=
  match s.world.engine with
  | none => s
  | some e =>
    let r := s.cycleRun X codec e peerId answers archive clock
    match stop with
    | none =>
      let d := (AntiEntropy.cycleDevice X).run r.2.2 (s.world.fs, s.files, [])
      { s with
        world := { s.world with fs := d.1, engine := some r.2.1.state }
        files := d.2.1
        cycles := s.cycles ++ [⟨peerId, d.2.2⟩] }
    | some (n, m) =>
      let d := (AntiEntropy.cycleDevice X).cut r.2.2 n m (s.world.fs, s.files, [])
      { s with
        world := { s.world with fs := d.1, engine := none, flights := [] }
        files := d.2.1
        cycles := s.cycles ++ [⟨peerId, d.2.2⟩] }

/-- Open the engine and give it a token above its own and the fetched one. -/
def promoteToPrimary (s : Node) (config : EdgestoreConfig) (clock : ℕ → ℕ) (fetched : Option ℕ)
    (stop : Option (ℕ × ℕ)) : Node :=
  match s.world.engine with
  | some _ => s
  | none =>
    let opened := s.call X { op := .open config, clock := clock }
    match opened.world.engine with
    | none => opened
    | some _ => opened.writeToken (promotedToken fetched opened.token) stop

/-- One step of a node. -/
def step (s : Node) : NodeOp → Node
  | .call c => s.call X c
  | .cycle peerId answers archive clock stop => s.cycle X codec peerId answers archive clock stop
  | .setWriteToken token stop =>
    match s.world.engine with
    | none => s
    | some _ => s.writeToken token stop
  | .promoteToPrimary config clock fetched stop => s.promoteToPrimary X config clock fetched stop

end Node

/-- The hashes a cycle fetched. -/
def fetchedIn (events : List CycleEvent) : List Bytes :=
  events.filterMap fun
    | .fetched h => some h
    | _ => none

/-- The hashes a cycle imported, or found imported. -/
def acceptedIn (events : List CycleEvent) : List Bytes :=
  events.filterMap fun
    | .imported h (.ok r) => if r.Accepted then some h else none
    | _ => none

/-- The hashes whose import a cycle rejected. -/
def rejectedIn (events : List CycleEvent) : List Bytes :=
  events.filterMap fun
    | .imported h (.ok (.rejected _)) => some h
    | _ => none

/-- The write tokens a cycle saw. -/
def seenIn (events : List CycleEvent) : List ℕ :=
  events.filterMap fun
    | .saw wtoken => some wtoken
    | _ => none

/-- The write tokens a node has seen of a peer. -/
def Node.seenFrom (s : Node) (peerId : String) : List ℕ :=
  s.cycles.flatMap fun c => if c.peerId = peerId then seenIn c.events else []

/-- The hashes whose import from a peer has been rejected. -/
def Node.rejectedFrom (s : Node) (peerId : String) : List Bytes :=
  s.cycles.flatMap fun c => if c.peerId = peerId then rejectedIn c.events else []
