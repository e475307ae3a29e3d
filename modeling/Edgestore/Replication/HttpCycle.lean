import Edgestore.Replication.Http

/-!
# Cycles over HTTP

A cycle asks its peer over HTTP, and the peer goes on between the requests: it writes, it compacts, it crashes and is
opened again. A segment that it lists may be gone when it is fetched; one that is still listed then is delivered, and
the import finds the hash that was asked for.

## Main definitions

* `HttpPeer`: a peer that goes on between the requests of a cycle
* `Delivers`: what the journal of a cycle says when listed segments are delivered

## Main results

* `Node.cycle_over_http`: what a cycle with such a peer does
-/

/-- The requests of a cycle. A segment is fetched after what the journal says. -/
inductive CycleRequest
  | watermark
  | merkleRoot
  | listSegments
  | fetchSegment (journal : List CycleEvent)

/-- A world after any calls, each of which may have stopped anywhere. -/
def World.Reached (X : Externals) (w : World) : Prop :=
  ∃ calls, Run.All (World.step X) (World.Stoppable X) {} calls ∧ w = Run.from (World.step X) {} calls

/-- A peer behind HTTP: its world at each request of a cycle, and the client that asks it then. While its engine is
open, the peer serves. -/
structure HttpPeer (X : Externals) (C : Wires) where
  world : CycleRequest → World
  wtoken : ℕ
  client : CycleRequest → HttpReplicationClient
  reached : ∀ request, (world request).Reached X
  serves : ∀ request e, (world request).engine = some e →
    (client request).Serves (Http.handleRequest X C (some e) wtoken (world request).fs)

namespace HttpPeer

variable {X : Externals} {C : Wires} (peer : HttpPeer X C)

/-- The answers of the client. The bytes of a segment are those of a `.dat` file. -/
def answers : PeerAnswers where
  watermark := ((peer.client .watermark).watermark C).toOption.map WatermarkResponse.wtoken
  merkleRoot := ((peer.client .merkleRoot).merkleRoot C).toOption
  listSegments := ((peer.client .listSegments).listSegments C).toOption
  fetchSegment journal hash := ((peer.client (.fetchSegment journal)).fetchSegment hash).toOption.map fun data =>
    (C.datOf data, data.length)

/-- The peer lists a segment when it is asked for it. -/
def Lists (journal : List CycleEvent) (hash : Bytes) : Prop :=
  ∃ e, (peer.world (.fetchSegment journal)).engine = some e ∧ hash ∈ e.segmentHashes

variable {peer} {e : Engine} {journal : List CycleEvent} {hash : Bytes}

theorem hashed (request : CycleRequest) : (peer.world request).Hashed X := by
  obtain ⟨calls, hcalls, hw⟩ := peer.reached request
  rw [hw]
  exact World.Hashed.run hcalls

theorem answers_merkleRoot (he : (peer.world .merkleRoot).engine = some e) :
    peer.answers.merkleRoot = some (e.rangeMerkleRoot X) := by
  have hclient := (peer.serves _ e he).merkleRoot_eq
  simp only [answers, hclient]
  rfl

theorem answers_listSegments (hlen : ∀ dat, (X.datHash dat).length = 32)
    (he : (peer.world .listSegments).engine = some e) : peer.answers.listSegments = some e.exportManifest := by
  have hclient := (peer.serves _ e he).listSegments_eq fun _ hhash => (hashed _).length_of_mem he hlen hhash
  simp only [answers, hclient]
  rfl

/-- A segment that is listed is delivered. -/
theorem answers_fetchSegment (hlen : ∀ dat, (X.datHash dat).length = 32) (hlists : peer.Lists journal hash) :
    ∃ dat size, peer.answers.fetchSegment journal hash = some (dat, size) ∧ X.datHash dat = hash := by
  obtain ⟨e, he, hhash⟩ := hlists
  have hw : (peer.world (.fetchSegment journal)).Hashed X := hashed _
  obtain ⟨dat, hbytes, hdat⟩ := hw.segmentBytes_eq (C := C) he hlen hhash (Hex.encode hash)
  have hclient := (peer.serves _ e he).fetchSegment_eq (hw.length_of_mem he hlen hhash)
  rw [hbytes] at hclient
  refine ⟨dat, (C.datBytes dat).length, ?_, hdat⟩
  simp only [answers, hclient]
  exact congrArg (fun d => some (d, (C.datBytes dat).length)) (C.datOf_datBytes dat)

end HttpPeer

/-! ### Journals -/

/-- **Listed segments are delivered**: where the journal goes on after the fetch of a segment that is in `L`, it does so
with its import, and the import finds the hash. -/
def Delivers (L : List CycleEvent → Bytes → Prop) (journal : List CycleEvent) : Prop :=
  ∀ j hash event, (j ++ [.fetched hash, event]) <+: journal → L j hash →
    ∃ r, event = .imported hash r ∧ r ≠ .ok .hashMismatch

/-- Listed segments are delivered, and the journal does not end before the import of one. -/
structure DeliversAll (L : List CycleEvent → Bytes → Prop) (journal : List CycleEvent) : Prop where
  delivers : Delivers L journal
  last : ∀ j hash, journal = j ++ [.fetched hash] → ¬ L j hash

section

variable {L : List CycleEvent → Bytes → Prop} {journal : List CycleEvent} {event : CycleEvent} {hash : Bytes}

theorem Delivers.nil : Delivers L [] := by
  intro j hash event hstart
  have hlength := hstart.length_le
  simp at hlength

theorem Delivers.concat (h : Delivers L journal)
    (hnext : ∀ j hash, journal = j ++ [.fetched hash] → L j hash →
      ∃ r, event = .imported hash r ∧ r ≠ .ok .hashMismatch) :
    Delivers L (journal ++ [event]) := by
  intro j hash event' hstart hL
  rcases List.prefix_concat_iff.mp hstart with heq | hstart
  · -- the pair is at the end of the journal
    have hend : (j ++ [.fetched hash]) ++ [event'] = journal ++ [event] := by simpa using heq
    obtain ⟨hj, hevent⟩ := List.append_inj' hend rfl
    rw [List.singleton_inj.mp hevent]
    exact hnext j hash hj.symm hL
  · exact h j hash event' hstart hL

theorem DeliversAll.nil : DeliversAll L [] := ⟨.nil, fun j hash h => by simp at h⟩

theorem DeliversAll.delivers_concat (h : DeliversAll L journal) (event : CycleEvent) :
    Delivers L (journal ++ [event]) :=
  h.delivers.concat fun j hash heq hL => absurd hL (h.last j hash heq)

theorem DeliversAll.concat (h : DeliversAll L journal) (hevent : ∀ hash, event = .fetched hash → ¬ L journal hash) :
    DeliversAll L (journal ++ [event]) := by
  refine ⟨h.delivers_concat event, fun j hash heq => ?_⟩
  obtain ⟨rfl, hlast⟩ := List.append_inj' heq rfl
  exact hevent hash (List.singleton_inj.mp hlast)

theorem DeliversAll.import {r : Except EdgestoreError ImportResult} (h : DeliversAll L journal)
    (hr : L journal hash → r ≠ .ok .hashMismatch) :
    DeliversAll L (journal ++ [.fetched hash] ++ [.imported hash r]) := by
  -- the journal ends with the fetch, and its import is what comes next
  refine ⟨(h.delivers_concat _).concat fun j hash' heq hL => ?_, fun j hash' heq => ?_⟩
  · obtain ⟨rfl, hlast⟩ := List.append_inj' heq rfl
    cases List.singleton_inj.mp hlast
    exact ⟨r, rfl, hr hL⟩
  · have hlast := (List.append_inj' heq rfl).2
    cases List.singleton_inj.mp hlast

end

/-! ### The cycle -/

/-- The answers to fetches in `L` are segments with the hash that is asked for. -/
def PeerAnswers.DeliverOn (X : Externals) (answers : PeerAnswers) (L : List CycleEvent → Bytes → Prop) : Prop :=
  ∀ journal hash, L journal hash →
    ∃ dat size, answers.fetchSegment journal hash = some (dat, size) ∧ X.datHash dat = hash

variable {X : Externals} {codec : CursorCodec} {peerId : String} {answers : PeerAnswers} {archive : Bool}

/-- An import says that the hash is not that of the segment only where it is not. -/
theorem Engine.importSegment_returns (dat : Dat) (size : ℕ) (hash : Bytes) :
    Prog.Returns (fun r => r = .hashMismatch → X.datHash dat ≠ hash) (importSegment (X := X) dat size hash) := by
  apply Prog.Returns.bind
  intro e
  apply Prog.Returns.ite
  · rintro -
    apply Prog.Returns.pure
    rintro ⟨⟩
  · rintro -
    apply Prog.Returns.ite
    · exact fun hne => .pure fun _ => hne
    · rintro -
      refine .bind fun _ => .bind fun _ => ?_
      cases parseDatEntries dat with
      | error err => cases err <;> exact .pure (by rintro ⟨⟩)
      | ok parsed =>
        refine .bind fun g => .bind fun id => .bind fun _ => .bind fun _ => .bind fun nanos => ?_
        refine .bind fun _ => .bind fun _ => .bind fun _ => .bind fun _ => .pure ?_
        rintro ⟨⟩

/-- Effects that keep to it that listed segments are delivered. -/
def KeepsDelivering (L : List CycleEvent → Bytes → Prop) :
    (AntiEntropy.cycleDevice X).Effect → (AntiEntropy.cycleDevice X).State → Prop
  | .inl _, _ => True
  | .inr (.inl _), _ => True
  | .inr (.inr event), d => Delivers L (d.2.2 ++ [event])

/-- A specification of a program of the cycle: all its fetches of listed segments are imported. -/
abbrev deliveryPost {α : Type} (X : Externals) (L : List CycleEvent → Bytes → Prop) :
    Prog.Post (AntiEntropy.cycleDevice X) (Process Engine) EdgestoreError α :=
  ⟨fun _ _ d => DeliversAll L d.2.2, fun _ _ _ => False, fun _ _ => True, KeepsDelivering L⟩

namespace AntiEntropy

variable {L : List CycleEvent → Bytes → Prop} {p : Process Engine} {d : (cycleDevice X).State} {cursor : PeerCursor}
  {hash : Bytes}

/-- **One segment** of the pull: where it is listed it is delivered, and the import finds its hash. -/
theorem wp_pullSegment_delivers (h : DeliversAll L d.2.2) (hanswers : answers.DeliverOn X L) :
    Prog.wp (pullSegment codec peerId answers archive cursor hash) (deliveryPost X L) p d := by
  rw [pullSegment]
  split
  case isTrue => exact (Prog.wp_pure _).mpr h
  case isFalse =>
  simp only [Prog.wp_bind, wp_journal, wp_note]
  refine fun _ => ⟨h.delivers_concat _, ?_⟩
  cases hanswer : answers.fetchSegment d.2.2 hash with
  | none =>
    -- nothing comes for a segment that is no longer listed
    refine (Prog.wp_pure _).mpr (h.concat ?_)
    rintro _ ⟨⟩ hL
    obtain ⟨dat, size, hsome, -⟩ := hanswers _ _ hL
    rw [hanswer] at hsome
    cases hsome
  | some answer =>
    obtain ⟨dat, size⟩ := answer
    dsimp only
    simp only [Prog.wp_bind, Prog.wp_attempt, onEngine, Prog.wp_onFst, wp_note]
    have hdone : ∀ r : Except EdgestoreError ImportResult, (r = .ok .hashMismatch → X.datHash dat ≠ hash) →
        DeliversAll L (d.2.2 ++ [.fetched hash] ++ [.imported hash r]) := by
      refine fun r hr => h.import fun hL hmismatch => ?_
      obtain ⟨dat', size', hsome, hdat⟩ := hanswers _ _ hL
      cases hanswer.symm.trans hsome
      exact hr hmismatch hdat
    have himport := (Engine.importSegment_returns dat size hash).wp
      (@Engine.wp_importSegment_hashes X p.state d.1 p.clock dat size hash)
    refine Prog.wp_mono himport ?_ ?_ (fun _ _ h => h) fun _ _ _ _ => trivial
    · rintro r q fs' ⟨-, hr⟩
      have hall := hdone (.ok r) fun h => hr (Except.ok.inj h)
      refine fun _ => ⟨hall.delivers, ?_⟩
      cases r with
      | applied written skipped =>
        rw [Prog.wp_bind]
        refine wp_flushCursor (fun _ _ _ => trivial) fun files _ => ?_
        cases archive with
        | false => exact (Prog.wp_pure _).mpr hall
        | true =>
          simp only [if_true, Prog.wp_bind, wp_note]
          refine fun _ => ⟨hall.delivers_concat _, (Prog.wp_pure _).mpr (hall.concat ?_)⟩
          rintro _ ⟨⟩
      | skipped =>
        rw [Prog.wp_bind]
        exact wp_flushCursor (fun _ _ _ => trivial) fun files _ => (Prog.wp_pure _).mpr hall
      | hashMismatch => exact (Prog.wp_pure _).mpr hall
      | rejected reason =>
        rw [Prog.wp_bind]
        exact wp_flushCursor (fun _ _ _ => trivial) fun files _ => (Prog.wp_pure _).mpr hall
    · intro err q fs' _
      have hall := hdone (.error err) (by rintro ⟨⟩)
      exact fun _ => ⟨hall.delivers, (Prog.wp_pure _).mpr hall⟩

/-- **The cycle** delivers the listed segments that it fetches. -/
theorem wp_runOnce_delivers (h : DeliversAll L d.2.2) (hanswers : answers.DeliverOn X L) :
    Prog.wp (runOnce (X := X) codec peerId answers archive) (deliveryPost X L) p d := by
  rw [runOnce]
  simp only [Prog.wp_bind, loadCursor, onEngine, onFiles, Prog.wp_onFst, Prog.wp_onSnd, Prog.wp_pure, Exec.wp_now]
  refine (Prog.wp_disk (D := directory SideFile)).mpr ?_
  refine wp_flushCursor (fun _ _ _ => trivial) fun files _ => ?_
  -- the token is noted and the cursor written
  have hwatermark : ∀ cursor p d, DeliversAll L d.2.2 →
      Prog.wp (observeWatermark (X := X) codec peerId answers.watermark cursor) (deliveryPost X L) p d := by
    intro cursor p d h
    cases answers.watermark with
    | none => exact (Prog.wp_pure _).mpr h
    | some wtoken =>
      have hsaw : DeliversAll L (d.2.2 ++ [.saw wtoken]) := h.concat (by rintro _ ⟨⟩)
      simp only [observeWatermark, Prog.wp_ite, Prog.wp_bind, Prog.wp_pure, wp_note]
      refine fun _ => ⟨hsaw.delivers, ?_⟩
      split
      · exact wp_flushCursor (fun _ _ _ => trivial) fun files _ => hsaw
      · exact hsaw
  refine Prog.wp_imp (hwatermark _ _ _ h) ?_ fun _ _ _ h => h
  intro cursor q d' h'
  cases answers.merkleRoot with
  | none => exact (Prog.wp_pure _).mpr h'
  | some peerRoot =>
    simp only [Prog.wp_bind, Prog.wp_onFst, Exec.wp_get, Prog.wp_ite]
    split
    case isTrue => exact wp_flushCursor (fun _ _ _ => trivial) fun files _ => h'
    case isFalse =>
      cases answers.listSegments with
      | none => exact (Prog.wp_pure _).mpr h'
      | some entries =>
        simp only [pullMissing, onEngine, Prog.wp_bind, Prog.wp_onFst, Exec.wp_get]
        refine wp_flushCursor (fun _ _ _ => trivial) fun files _ => ?_
        refine Prog.wp_foldlM (fun _ _ _ (d : (cycleDevice X).State) => DeliversAll L d.2.2) ?_ ?_ _ _ h'
        · exact fun hash rest cursor p d h => wp_pullSegment_delivers h hanswers
        · exact fun cursor p d h => wp_flushCursor (fun _ _ _ => trivial) fun files _ => h

end AntiEntropy

namespace Node

variable {s : Node} {e : Engine} {clock : ℕ → ℕ} {L : List CycleEvent → Bytes → Prop}

/-- In a cycle that may stop anywhere, listed segments are delivered. -/
theorem newEvents_delivers (hanswers : answers.DeliverOn X L) (stop : Option (ℕ × ℕ)) :
    Delivers L (s.newEvents X codec (.cycle peerId answers archive clock stop)) := by
  cases he : s.world.engine with
  | none =>
    rw [newEvents_closed he]
    exact .nil
  | some e =>
    have hguar := Prog.wp_guar (@AntiEntropy.wp_runOnce_delivers X codec peerId answers archive L ⟨e, clock⟩
      (s.world.fs, s.files, []) .nil hanswers) Device.all_true
    have hstep : ∀ (f : (AntiEntropy.cycleDevice X).Effect) d, KeepsDelivering L f d →
        Delivers L d.2.2 → Delivers L ((AntiEntropy.cycleDevice X).apply f d).2.2 := by
      rintro (f | f | event) d hf hd
      · exact hd
      · exact hd
      · exact hf
    cases stop with
    | none =>
      rw [newEvents_completed he]
      exact hguar.run (I := fun (d : (AntiEntropy.cycleDevice X).State) => Delivers L d.2.2) hstep .nil
    | some stop =>
      obtain ⟨n, m⟩ := stop
      rw [newEvents_stopped he]
      refine hguar.cut (I := fun (d : (AntiEntropy.cycleDevice X).State) => Delivers L d.2.2) hstep ?_ .nil n m
      -- an entry of the journal is there or not
      rintro (f | f | event) d hf hd m
      · exact hd
      · exact hd
      · exact hd

/-- A cycle that is not cut short ends after the import of what it fetched. -/
theorem newEvents_deliversAll (he : s.world.engine = some e) (hanswers : answers.DeliverOn X L) :
    DeliversAll L (s.newEvents X codec (.cycle peerId answers archive clock none)) := by
  have hresult := Prog.wp_result (@AntiEntropy.wp_runOnce_delivers X codec peerId answers archive L ⟨e, clock⟩
    (s.world.fs, s.files, []) .nil hanswers) Device.all_true
  rw [newEvents_completed he, cycleRun]
  generalize (AntiEntropy.runOnce (X := X) codec peerId answers archive).run ⟨e, clock⟩
    (s.world.fs, s.files, []) = r at hresult ⊢
  rcases r with ⟨_ | _, q, es⟩
  · exact hresult.elim
  · exact hresult

/-- A cycle that does not obtain the list, or need not, leaves the engine as it is. -/
theorem cycle_idle (he : s.world.engine = some e) (htargets : AntiEntropy.targets X e answers = none) :
    (s.step X codec (.cycle peerId answers archive clock none)).world.engine = some e ∧
      fetchedIn (s.newEvents X codec (.cycle peerId answers archive clock none)) = [] := by
  have hresult := Prog.wp_result (@wp_cycle X codec s e peerId answers archive clock) Device.all_true
  rw [newEvents_completed he]
  simp only [step, cycle, he, cycleRun]
  generalize (AntiEntropy.runOnce (X := X) codec peerId answers archive).run ⟨e, clock⟩
    (s.world.fs, s.files, []) = r at hresult
  rcases r with ⟨_ | _, q, es⟩
  · exact hresult.elim
  · simp only [Prog.result_ok, htargets] at hresult
    obtain ⟨hstate, hidle⟩ := hresult
    exact ⟨congrArg some hstate, hidle.1⟩

/-- What became of a fetch of a listed segment. -/
theorem import_of_fetched {journal : List CycleEvent} {hash : Bytes} (h : DeliversAll L journal)
    (hfetched : hash ∈ fetchedIn journal) :
    (∃ r, .imported hash r ∈ journal ∧ r ≠ .ok .hashMismatch) ∨
      ∃ j, (j ++ [.fetched hash]) <+: journal ∧ ¬ L j hash := by
  obtain ⟨event, hevent, hsome⟩ := List.mem_filterMap.mp hfetched
  obtain ⟨j, rest, rfl⟩ := List.append_of_mem hevent
  cases event with
  | fetched hash' =>
    obtain rfl : hash' = hash := Option.some.inj hsome
    by_cases hL : L j hash'
    · left
      -- there is a next entry, and it is the import
      cases rest with
      | nil => exact absurd hL (h.last j hash' rfl)
      | cons next rest =>
        obtain ⟨r, rfl, hr⟩ := h.delivers j hash' next ⟨rest, by simp⟩ hL
        exact ⟨r, by simp, hr⟩
    · exact .inr ⟨j, ⟨rest, by simp⟩, hL⟩
  | saw => cases hsome
  | imported => cases hsome
  | archived => cases hsome

/-- A manifest has been copied already. -/
theorem exportManifest_received (e : Engine) : e.exportManifest.map SegmentRef.received = e.exportManifest := by
  have hcopied : ∀ r ∈ e.exportManifest, r.received = r := by
    intro r hr
    obtain ⟨m, -, rfl⟩ := List.mem_map.mp hr
    simp only [SegmentRef.received, toHash32_of_length (length_toHash32 _)]
  rw [List.map_congr_left hcopied, List.map_id']

/-- A listed segment that the engine lacks is missing. -/
theorem mem_missingSegments {e₁ e₂ : Engine} {hash : Bytes} (hlength : hash.length = 32)
    (hlisted : hash ∈ e₂.segmentHashes) (hlacks : hash ∉ e₁.segmentHashes) :
    hash ∈ e₁.missingSegments e₂.exportManifest := by
  obtain ⟨m, hm, rfl⟩ := List.mem_map.mp hlisted
  have hcopied : toHash32 m.segmentHash = m.segmentHash := toHash32_of_length hlength
  refine List.mem_map.mpr ⟨⟨toHash32 m.segmentHash, m.segmentId⟩, ?_, hcopied⟩
  refine List.mem_filter.mpr ⟨List.mem_map_of_mem hm, ?_⟩
  simpa [hcopied] using hlacks

variable {C : Wires}

/-- Two flushes. -/
def flushedCalls : List Call :=
  [{ op := .open {} }, { op := .put [1] [7] [10] }, { op := .flushToSegments }, { op := .put [1] [8] [11] },
    { op := .flushToSegments }]

/-- What a peer has run by each request. It merges its two segments when one of them has been imported. -/
def compactingCalls : CycleRequest → List Call
  | .fetchSegment journal =>
    if journal.length < 3 then flushedCalls else flushedCalls ++ [{ op := .compactOnce .given }]
  | .watermark => flushedCalls
  | .merkleRoot => flushedCalls
  | .listSegments => flushedCalls

theorem compactingCalls_eq (request : CycleRequest) :
    compactingCalls request = flushedCalls ∨
      compactingCalls request = flushedCalls ++ [{ op := .compactOnce .given }] := by
  cases request with
  | fetchSegment journal =>
    rw [compactingCalls]
    split
    · exact .inl rfl
    · exact .inr rfl
  | watermark => exact .inl rfl
  | merkleRoot => exact .inl rfl
  | listSegments => exact .inl rfl

/-- A peer with those calls. A closed engine answers no request. -/
def compactingPeer : HttpPeer plainExternals plainWires where
  world request := Run.from (World.step plainExternals) {} (compactingCalls request)
  wtoken := 3
  client request :=
    let w := Run.from (World.step plainExternals) {} (compactingCalls request)
    plainClient (w.engine.elim (fun _ => Http.respondError 500 "closed") fun e =>
      Http.handleRequest plainExternals plainWires (some e) 3 w.fs)
  reached request := by
    refine ⟨_, ?_, rfl⟩
    rcases compactingCalls_eq request with h | h
    · rw [h]
      decide +kernel
    · rw [h]
      decide +kernel
  serves request e he := by
    simp only [he]
    exact HttpReplicationClient.serves_plainClient _

/-- A node that has been opened. -/
def openedNode : Node := Run.from (step plainExternals plainCursorCodec) {} [.call { op := .open {} }]

end Node
