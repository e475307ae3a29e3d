import Edgestore.Replication.CycleSpec
import Edgestore.PlainExternals
import Edgestore.Lib.Codec

/-!
# Rejected segments

An import that rejects a segment will always reject it, so the cycle takes the hash off the pending
ones. But what is pending is computed anew in every cycle from the list of the peer: a rejected hash
that is listed again is fetched again. Where that does not happen, rejected hashes stay rejected, and
the cursor keeps exactly what is left to do.

## Main definitions

* `Node.KeepsRejections`: what a step should keep to
* `Node.ListsNoRejected`: no list that a cycle obtains has a rejected hash the engine lacks

## Main results

* `Node.run_keepsRejections`: in runs of such cycles rejections are kept
-/

variable {X : Externals} {codec : CursorCodec}

/-- A step that no crash cuts short. -/
def NodeOp.Completes : NodeOp → Prop
  | .call c => c.stop = none
  | .cycle _ _ _ _ stop => stop = none
  | .setWriteToken _ stop => stop = none
  | .promoteToPrimary _ _ _ stop => stop = none

namespace Node

variable (X codec)

/-- What the cycles of a step did. -/
def newEvents (s : Node) (op : NodeOp) : List CycleEvent :=
  ((s.step X codec op).cycles.drop s.cycles.length).flatMap CycleRecord.events

/-- **Rejections are kept** by a step. A cycle fetches no hash that was rejected from the peer; and a
cycle that obtains the list and is not cut short fetches every other missing hash, and leaves in the
cursor file those that the engine still lacks, less the rejected ones. -/
def KeepsRejections (s : Node) : NodeOp → Prop
  | .cycle peerId answers archive clock stop =>
    let op := NodeOp.cycle peerId answers archive clock stop
    (∀ h ∈ s.rejectedFrom peerId, h ∉ fetchedIn (s.newEvents X codec op)) ∧
    ∀ e missing entries, stop = none → s.world.engine = some e →
      AntiEntropy.targets X e answers = some missing → answers.listSegments = some entries →
      (∀ h ∈ missing, h ∉ s.rejectedFrom peerId → h ∈ fetchedIn (s.newEvents X codec op)) ∧
      ∃ e' cursor, (s.step X codec op).world.engine = some e' ∧
        (s.step X codec op).files (.cursor peerId) = some (codec.toVec cursor) ∧
        cursor.segmentsPending = (e'.missingSegments (entries.map SegmentRef.received)).filter
          fun h => h ∉ (s.step X codec op).rejectedFrom peerId
  | _ => True

/-- The list that a cycle obtains has no hash that the engine lacks and that was rejected from the
peer in an earlier cycle. -/
def ListsNoRejected (s : Node) : NodeOp → Prop
  | .cycle peerId answers _ _ _ => ∀ e, s.world.engine = some e →
      ∀ h ∈ (AntiEntropy.targets X e answers).getD [], h ∉ s.rejectedFrom peerId
  | _ => True

variable {X codec}

/-! ### One cycle -/

section

variable {s : Node} {e : Engine} {peerId : String} {answers : PeerAnswers} {archive : Bool}
  {clock : ℕ → ℕ}

theorem wp_cycle :
    Prog.wp (AntiEntropy.runOnce (X := X) codec peerId answers archive)
      (cyclePost X ((AntiEntropy.targets X e answers).getD []) answers.watermark fun _ q d' =>
        match AntiEntropy.targets X e answers with
        | none => q.state = e ∧ Idle d'.2.2
        | some missing => ∃ cursor, d'.2.1 (.cursor peerId) = some (codec.toVec cursor) ∧
            AntiEntropy.PullInv e missing missing cursor q.state d'.2.2)
      ⟨e, clock⟩ (s.world.fs, s.files, []) :=
  AntiEntropy.wp_runOnce .nil

theorem newEvents_completed (he : s.world.engine = some e) :
    s.newEvents X codec (.cycle peerId answers archive clock none) =
      ((AntiEntropy.cycleDevice X).run (s.cycleRun X codec e peerId answers archive clock).2.2
        (s.world.fs, s.files, [])).2.2 := by
  simp [newEvents, step, cycle, he]

theorem newEvents_stopped (he : s.world.engine = some e) (n m : ℕ) :
    s.newEvents X codec (.cycle peerId answers archive clock (some (n, m))) =
      ((AntiEntropy.cycleDevice X).cut (s.cycleRun X codec e peerId answers archive clock).2.2 n m
        (s.world.fs, s.files, [])).2.2 := by
  simp [newEvents, step, cycle, he]

theorem newEvents_closed (he : s.world.engine = none) (stop : Option (ℕ × ℕ)) :
    s.newEvents X codec (.cycle peerId answers archive clock stop) = [] := by
  simp [newEvents, step, cycle, he]

/-- **The journal of a cycle**: what its entries keep holds of it, wherever a crash may stop it. -/
theorem newEvents_inv {J : List CycleEvent → Prop} (he : s.world.engine = some e)
    (stop : Option (ℕ × ℕ)) (hnil : J [])
    (hconcat : ∀ j event, CycleEffect X ((AntiEntropy.targets X e answers).getD [])
      answers.watermark (.inr (.inr event)) → J j → J (j ++ [event])) :
    J (s.newEvents X codec (.cycle peerId answers archive clock stop)) := by
  have hguar := Prog.wp_guar (@wp_cycle X codec s e peerId answers archive clock) Device.all_true
  have hstep : ∀ (f : (AntiEntropy.cycleDevice X).Effect) d,
      CycleEffect X ((AntiEntropy.targets X e answers).getD []) answers.watermark f →
      J d.2.2 → J ((AntiEntropy.cycleDevice X).apply f d).2.2 := by
    rintro (f | f | event) d hf hd
    · exact hd
    · exact hd
    · exact hconcat _ _ hf hd
  cases stop with
  | none =>
    rw [newEvents_completed he]
    exact hguar.run (I := fun (d : (AntiEntropy.cycleDevice X).State) => J d.2.2) hstep hnil
  | some stop =>
    obtain ⟨n, m⟩ := stop
    rw [newEvents_stopped he]
    refine hguar.cut (I := fun (d : (AntiEntropy.cycleDevice X).State) => J d.2.2) hstep ?_ hnil n m
    -- an entry of the journal is there or not
    rintro (f | f | event) d hf hd m
    · exact hd
    · exact hd
    · exact hd

/-- A cycle fetches missing hashes only. -/
theorem newEvents_subset (he : s.world.engine = some e) (stop : Option (ℕ × ℕ)) :
    ∀ h ∈ fetchedIn (s.newEvents X codec (.cycle peerId answers archive clock stop)),
      h ∈ (AntiEntropy.targets X e answers).getD [] := by
  refine newEvents_inv (J := fun j => ∀ h ∈ fetchedIn j,
    h ∈ (AntiEntropy.targets X e answers).getD []) he stop (by simp [fetchedIn]) ?_
  intro j event hevent hj
  cases event with
  | fetched h =>
    intro a ha
    rw [fetchedIn_fetched] at ha
    rcases List.mem_append.mp ha with ha | ha
    · exact hj a ha
    · exact List.mem_singleton.mp ha ▸ hevent
  | saw t => simpa using hj
  | imported h r => simpa using hj
  | archived h => simpa using hj

/-- A cycle sees no token but the one the peer shows. -/
theorem newEvents_seen (he : s.world.engine = some e) (stop : Option (ℕ × ℕ)) :
    ∀ t ∈ seenIn (s.newEvents X codec (.cycle peerId answers archive clock stop)),
      answers.watermark = some t := by
  refine newEvents_inv (J := fun j => ∀ t ∈ seenIn j, answers.watermark = some t) he stop
    (by simp [seenIn]) ?_
  intro j event hevent hj t ht
  rw [seenIn, List.filterMap_append, List.mem_append] at ht
  rcases ht with ht | ht
  · exact hj t ht
  · cases event with
    | saw t' => exact (by simpa using ht : t = t') ▸ hevent
    | fetched h => simp at ht
    | imported h r => simp at ht
    | archived h => simp at ht

/-- The hashes still missing after a cycle, when the accepted ones have been added. -/
theorem missingSegments_after {e' : Engine} {segs : List SegmentRef} {accepted : List Bytes}
    (h : ∀ a, a ∈ e'.segmentHashes ↔ a ∈ e.segmentHashes ∨ a ∈ accepted) :
    e'.missingSegments segs = (e.missingSegments segs).filter fun a => a ∉ accepted := by
  rw [Engine.missingSegments, Engine.missingSegments, List.filter_map, List.filter_filter]
  congr 1
  refine List.filter_congr fun s _ => ?_
  simp [h, Bool.and_comm]

theorem rejectedFrom_after (he : s.world.engine = some e) (stop : Option (ℕ × ℕ)) :
    (s.step X codec (.cycle peerId answers archive clock stop)).rejectedFrom peerId =
      s.rejectedFrom peerId ++
        rejectedIn (s.newEvents X codec (.cycle peerId answers archive clock stop)) := by
  cases stop with
  | none => simp [newEvents, step, cycle, he, rejectedFrom]
  | some stop => simp [newEvents, step, cycle, he, rejectedFrom]

/-- What a cycle leaves that obtains the list and is not cut short. -/
theorem cycle_completed (he : s.world.engine = some e) {missing : List Bytes}
    (htargets : AntiEntropy.targets X e answers = some missing) :
    ∃ e' cursor,
      (s.step X codec (.cycle peerId answers archive clock none)).world.engine = some e' ∧
      (s.step X codec (.cycle peerId answers archive clock none)).files (.cursor peerId) =
        some (codec.toVec cursor) ∧
      AntiEntropy.PullInv e missing missing cursor e'
        (s.newEvents X codec (.cycle peerId answers archive clock none)) := by
  have hresult := Prog.wp_result (@wp_cycle X codec s e peerId answers archive clock) Device.all_true
  rw [newEvents_completed he]
  simp only [step, cycle, he, cycleRun]
  generalize (AntiEntropy.runOnce (X := X) codec peerId answers archive).run ⟨e, clock⟩
    (s.world.fs, s.files, []) = r at hresult
  rcases r with ⟨_ | _, q, es⟩
  · exact hresult.elim
  · simp only [Prog.result_ok, htargets] at hresult
    obtain ⟨cursor, hfile, hpull⟩ := hresult
    exact ⟨q.state, cursor, rfl, hfile, hpull⟩

end

/-! ### Steps and runs -/

variable {s : Node} {op : NodeOp} {ops : List NodeOp}

/-- **A step** keeps rejections when its cycle obtains no list with a rejected hash. -/
theorem keepsRejections_of_lists (h : s.ListsNoRejected X op) : s.KeepsRejections X codec op := by
  cases op with
  | cycle peerId answers archive clock stop =>
    refine ⟨fun a ha hfetched => ?_, ?_⟩
    · cases he : s.world.engine with
      | none =>
        rw [newEvents_closed he] at hfetched
        cases hfetched
      | some e => exact h e he a (newEvents_subset he stop a hfetched) ha
    · rintro e missing entries rfl he htargets hentries
      have hfree : ∀ a ∈ missing, a ∉ s.rejectedFrom peerId := by
        have := h e he
        rwa [htargets] at this
      obtain ⟨e', cursor, he', hfile, hpull⟩ := @cycle_completed X codec s e peerId answers archive
        clock he missing htargets
      refine ⟨fun a ha _ => hpull.fetched ▸ ha, e', cursor, he', hfile, ?_⟩
      rw [hpull.pending, missingSegments_after hpull.hashes,
        ← AntiEntropy.targets_eq htargets hentries, List.filter_filter, rejectedFrom_after he]
      refine List.filter_congr fun a ha => ?_
      simp [hfree a ha, Bool.and_comm]
  | call => trivial
  | setWriteToken => trivial
  | promoteToPrimary => trivial

/-- A cycle that is not cut short fetches all that is missing, so it keeps rejections only if no
rejected hash is among it. -/
theorem lists_of_keepsRejections (hc : op.Completes) (h : s.KeepsRejections X codec op) :
    s.ListsNoRejected X op := by
  cases op with
  | cycle peerId answers archive clock stop =>
    intro e he a ha hrejected
    obtain rfl : stop = none := hc
    cases htargets : AntiEntropy.targets X e answers with
    | none =>
      rw [htargets] at ha
      cases ha
    | some missing =>
      rw [htargets, Option.getD_some] at ha
      obtain ⟨_, _, -, -, hpull⟩ := @cycle_completed X codec s e peerId answers archive clock he
        missing htargets
      exact h.1 a hrejected (hpull.fetched ▸ ha)
  | call => trivial
  | setWriteToken => trivial
  | promoteToPrimary => trivial

/-- **Rejections are kept** in every run, with any crashes, whose cycles obtain no list with a
rejected hash that the engine lacks; and in a run without crashes only then. -/
theorem run_keepsRejections (s : Node) (ops : List NodeOp) :
    (Run.All (step X codec) (ListsNoRejected X) s ops →
      Run.All (step X codec) (KeepsRejections X codec) s ops) ∧
    ((∀ op ∈ ops, op.Completes) → Run.All (step X codec) (KeepsRejections X codec) s ops →
      Run.All (step X codec) (ListsNoRejected X) s ops) := by
  refine ⟨fun h => h.mono fun _ _ h => keepsRejections_of_lists h, ?_⟩
  induction ops generalizing s with
  | nil => exact fun _ _ => trivial
  | cons op ops ih =>
    intro hc h
    exact ⟨lists_of_keepsRejections (hc op List.mem_cons_self) h.1,
      ih _ (fun op hop => hc op (List.mem_cons_of_mem _ hop)) h.2⟩

/-! ### A rejected segment that is listed again -/

/-- Cursors field by field. -/
def cursorCodec : Codec PeerCursor :=
  (Codec.pair Codec.bytes (Codec.pair (Codec.list Codec.bytes)
    (Codec.pair Codec.nat (Codec.pair Codec.nat Codec.nat)))).iso
    (fun c => (c.lastKnownMerkleRoot, c.segmentsPending, c.lastAttemptSecs, c.segmentsAppliedTotal,
      c.lastKnownWtoken))
    (fun p => ⟨p.1, p.2.1, p.2.2.1, p.2.2.2.1, p.2.2.2.2⟩) (fun _ => rfl)

/-- A file format for cursors. -/
def plainCursorCodec : CursorCodec where
  toVec := cursorCodec.enc
  fromRead bs := (cursorCodec.dec bs).map Prod.fst
  fromRead_toVec c := by
    have h := cursorCodec.dec_enc c []
    rw [List.append_nil] at h
    rw [h]
    rfl

/-- The hash of a segment with a block that does not decompress. -/
def corruptHash : Bytes := plainExternals.datHash [.undecodable]

/-- A peer that lists that segment and delivers it. -/
def corruptPeer : PeerAnswers where
  merkleRoot := some (List.replicate 32 1)
  listSegments := some [⟨corruptHash, 0⟩]
  fetchSegment _ _ := some ([.undecodable], 12)

/-- Cycles with two peers that list the segment. -/
def twoPeersRun : List NodeOp :=
  [.call { op := .open {} }, .cycle "a" corruptPeer false (fun _ => 0) none,
    .cycle "b" corruptPeer false (fun _ => 0) (some (20, 0))]

/-- What one peer's segment was rejected for says nothing about the other peer. -/
theorem run_keepsRejections_twoPeers :
    Run.All (step plainExternals plainCursorCodec)
      (KeepsRejections plainExternals plainCursorCodec) {} twoPeersRun := by
  have hnone : ∀ ops peerId, (Run.from (step plainExternals plainCursorCodec) {} ops).rejectedFrom
      peerId = [] → ∀ answers archive clock stop,
        (Run.from (step plainExternals plainCursorCodec) {} ops).ListsNoRejected plainExternals
          (.cycle peerId answers archive clock stop) := by
    intro ops peerId h answers archive clock stop e _ a _ ha
    rw [h] at ha
    cases ha
  refine (run_keepsRejections {} twoPeersRun).1 ⟨trivial, ?_, ?_, trivial⟩
  · exact hnone (twoPeersRun.take 1) "a" (by decide +kernel) _ _ _ _
  · exact hnone (twoPeersRun.take 2) "b" (by decide +kernel) _ _ _ _

/-- Two cycles with one peer that lists the segment. -/
def onePeerRun : List NodeOp :=
  [.call { op := .open {} }, .cycle "a" corruptPeer false (fun _ => 0) none,
    .cycle "a" corruptPeer false (fun _ => 0) none]

/-- **A rejected segment is fetched again** by the next cycle. -/
theorem rejected_fetched_again :
    ¬ Run.All (step plainExternals plainCursorCodec)
      (KeepsRejections plainExternals plainCursorCodec) {} onePeerRun := by
  rintro ⟨-, -, hkeeps, -⟩
  refine hkeeps.1 corruptHash ?_ ?_
  · decide +kernel
  · decide +kernel

end Node
