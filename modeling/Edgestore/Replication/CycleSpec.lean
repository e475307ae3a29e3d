import Edgestore.Replication.Node

/-!
# What a cycle does

A cycle fetches the hashes that are missing, in the order in which the peer lists them, and no
others. At its end the cursor keeps those that the engine still lacks, less those that were rejected.
The side files it writes are those of the cursor.

## Main definitions

* `CycleEffect hs`: the effects of a cycle that fetches hashes of `hs`
* `PullInv`: the state of the pull after the hashes `done`

## Main results

* `AntiEntropy.wp_pullSegment`, `AntiEntropy.wp_pullMissing`: one segment, and all of them
* `AntiEntropy.wp_runOnce`: the cycle
-/

variable {X : Externals} {codec : CursorCodec} {peerId : String} {answers : PeerAnswers}
  {archive : Bool}

@[simp] theorem length_toHash32 (src : Bytes) : (toHash32 src).length = 32 := by
  simp only [toHash32, List.length_append, List.length_take, List.length_replicate]
  omega

/-! ### Journals -/

section

variable {j : List CycleEvent} {h : Bytes} {r : Except EdgestoreError ImportResult}

@[simp] theorem fetchedIn_fetched : fetchedIn (j ++ [.fetched h]) = fetchedIn j ++ [h] := by
  simp [fetchedIn]

@[simp] theorem fetchedIn_imported : fetchedIn (j ++ [.imported h r]) = fetchedIn j := by
  simp [fetchedIn]

@[simp] theorem fetchedIn_archived : fetchedIn (j ++ [.archived h]) = fetchedIn j := by
  simp [fetchedIn]

@[simp] theorem acceptedIn_fetched : acceptedIn (j ++ [.fetched h]) = acceptedIn j := by
  simp [acceptedIn]

@[simp] theorem acceptedIn_archived : acceptedIn (j ++ [.archived h]) = acceptedIn j := by
  simp [acceptedIn]

@[simp] theorem fetchedIn_saw {t : ℕ} : fetchedIn (j ++ [.saw t]) = fetchedIn j := by
  simp [fetchedIn]

@[simp] theorem acceptedIn_saw {t : ℕ} : acceptedIn (j ++ [.saw t]) = acceptedIn j := by
  simp [acceptedIn]

@[simp] theorem rejectedIn_saw {t : ℕ} : rejectedIn (j ++ [.saw t]) = rejectedIn j := by
  simp [rejectedIn]

@[simp] theorem rejectedIn_fetched : rejectedIn (j ++ [.fetched h]) = rejectedIn j := by
  simp [rejectedIn]

@[simp] theorem rejectedIn_archived : rejectedIn (j ++ [.archived h]) = rejectedIn j := by
  simp [rejectedIn]

/-- A journal in which nothing has been fetched or imported yet. -/
def Idle (j : List CycleEvent) : Prop := fetchedIn j = [] ∧ acceptedIn j = [] ∧ rejectedIn j = []

theorem Idle.nil : Idle [] := ⟨rfl, rfl, rfl⟩

theorem Idle.saw (hj : Idle j) (t : ℕ) : Idle (j ++ [.saw t]) := by
  simpa [Idle] using hj

end

/-! ### Effects -/

/-- The effects of a cycle that fetches hashes of `hs`, of a peer with the write token `w`: any on the
store, those on the files of cursors, and the entries of the journal. -/
def CycleEffect (X : Externals) (hs : List Bytes) (w : Option ℕ) :
    (AntiEntropy.cycleDevice X).Effect → Prop
  | .inl _ => True
  | .inr (.inl e) => SideFile.wtoken ∉ e.names
  | .inr (.inr (.saw t)) => w = some t
  | .inr (.inr (.fetched h)) => h ∈ hs
  | .inr (.inr (.imported _ _)) => True
  | .inr (.inr (.archived _)) => True

/-- A specification of a program of the cycle: what it leaves, that it does not fail, and that its
effects are those of a cycle that fetches hashes of `hs`. -/
abbrev cyclePost {α : Type} (X : Externals) (hs : List Bytes) (w : Option ℕ)
    (ok : α → Process Engine → (AntiEntropy.cycleDevice X).State → Prop) :
    Prog.Post (AntiEntropy.cycleDevice X) (Process Engine) EdgestoreError α :=
  ⟨ok, fun _ _ _ => False, fun _ _ => True, fun e _ => CycleEffect X hs w e⟩

namespace AntiEntropy

variable {hs : List Bytes} {w : Option ℕ} {p : Process Engine} {d : (cycleDevice X).State} {cursor : PeerCursor}

section

variable {α : Type}

theorem wp_journal {Q : Prog.Post (cycleDevice X) (Process Engine) EdgestoreError (List CycleEvent)} :
    Prog.wp journal Q p d ↔ Q.ok d.2.2 p d := by
  simp only [journal, Prog.wp_onSnd]
  exact Prog.wp_disk (D := Device.journal CycleEvent)

theorem wp_note {event : CycleEvent}
    {Q : Prog.Post (cycleDevice X) (Process Engine) EdgestoreError Unit} :
    Prog.wp (note event) Q p d ↔ (Q.rely (.inr (.inr event)) d →
      Q.guar (.inr (.inr event)) d ∧ Q.ok () p (d.1, d.2.1, d.2.2 ++ [event])) := by
  simp only [note, Prog.wp_onSnd, Prog.wp_emit]

/-- A flush writes the cursor file, and touches no file but that and the temporary one. -/
theorem wp_flushCursor {Q : Prog.Post (cycleDevice X) (Process Engine) EdgestoreError Unit}
    (hguar : ∀ e d, SideFile.wtoken ∉ Directory.Effect.names e → Q.guar (.inr (.inl e)) d)
    (hok : ∀ files : Directory.Files SideFile, files (.cursor peerId) = some (codec.toVec cursor) →
      Q.ok () p (d.1, files, d.2.2)) :
    Prog.wp (flushCursor codec peerId cursor) Q p d := by
  simp only [flushCursor, onFiles, Prog.wp_onSnd, Prog.wp_onFst]
  have hne : SideFile.cursorTmp peerId ≠ .cursor peerId := SideFile.noConfusion
  refine Directory.wp_replace _ _ hne ?_ (hok _ (Function.update_self _ _ _))
  intro e he d
  refine hguar e _ ?_
  simp only [Directory.replaceEffects, List.mem_cons, List.not_mem_nil, or_false] at he
  rcases he with rfl | rfl | rfl <;> simp [Directory.Effect.names]

/-- The watermark is noted in the journal, and it may change the cursor. -/
theorem wp_observeWatermark {watermark : Option ℕ}
    {Q : Prog.Post (cycleDevice X) (Process Engine) EdgestoreError PeerCursor}
    (hguar : ∀ e d, SideFile.wtoken ∉ Directory.Effect.names e → Q.guar (.inr (.inl e)) d)
    (hsaw : ∀ t d, watermark = some t → Q.guar (.inr (.inr (.saw t))) d)
    (hj : Idle d.2.2)
    (hok : ∀ cursor' files j, Idle j → Q.ok cursor' p (d.1, files, j)) :
    Prog.wp (observeWatermark codec peerId watermark cursor) Q p d := by
  cases watermark with
  | none => exact (Prog.wp_pure _).mpr (hok _ _ _ hj)
  | some wtoken =>
    simp only [observeWatermark, Prog.wp_ite, Prog.wp_bind, Prog.wp_pure, wp_note]
    refine fun _ => ⟨hsaw _ _ rfl, ?_⟩
    split
    · exact wp_flushCursor hguar fun files _ => hok _ _ _ (hj.saw _)
    · exact hok _ _ _ (hj.saw _)

end

/-- The state of the pull after the hashes `done`: they were fetched, and settled ones are no longer
pending; the engine `e'` has the accepted ones on top of what the engine `e` had. -/
structure PullInv (e : Engine) (missing done : List Bytes) (cursor : PeerCursor) (e' : Engine)
    (j : List CycleEvent) : Prop where
  fetched : fetchedIn j = done
  pending : cursor.segmentsPending =
    missing.filter fun h => h ∉ acceptedIn j ∧ h ∉ rejectedIn j
  hashes : ∀ h, h ∈ e'.segmentHashes ↔ h ∈ e.segmentHashes ∨ h ∈ acceptedIn j

variable {e e₁ e₂ : Engine} {missing done : List Bytes} {j : List CycleEvent}
  {hash : Bytes} {r : ImportResult}

/-- A fetch that fails, or an import that may be repeated. -/
theorem PullInv.skip {result : Except EdgestoreError ImportResult}
    (h : PullInv e missing done cursor e₁ (j ++ [.fetched hash]))
    (hacc : acceptedIn (j ++ [.fetched hash] ++ [.imported hash result]) = acceptedIn j)
    (hrej : rejectedIn (j ++ [.fetched hash] ++ [.imported hash result]) = rejectedIn j)
    (hsame : e₂.segmentHashes = e₁.segmentHashes) :
    PullInv e missing done cursor e₂ (j ++ [.fetched hash] ++ [.imported hash result]) := by
  refine ⟨by rw [fetchedIn_imported, h.fetched], ?_, fun a => ?_⟩
  · rw [h.pending, hacc, hrej, acceptedIn_fetched, rejectedIn_fetched]
  · rw [hsame, h.hashes, hacc, acceptedIn_fetched]

theorem filter_retain {P Q : Bytes → Prop} [DecidablePred P] [DecidablePred Q]
    (h : ∀ a, Q a ↔ P a ∧ a ≠ hash) :
    (missing.filter fun a => P a).filter (fun a => a ≠ hash) = missing.filter fun a => Q a := by
  rw [List.filter_filter]
  refine List.filter_congr fun a _ => ?_
  simp [h, Bool.and_comm]

/-- A segment that is accepted is settled. -/
theorem PullInv.accept (h : PullInv e missing done cursor e₁ (j ++ [.fetched hash]))
    (hr : r.Accepted) (hi : e₁.ImportsHash hash r e₂) {cursor' : PeerCursor}
    (hc : cursor'.segmentsPending = (cursor.retain hash).segmentsPending) :
    PullInv e missing done cursor' e₂ (j ++ [.fetched hash] ++ [.imported hash (.ok r)]) := by
  have hacc : acceptedIn (j ++ [.fetched hash] ++ [.imported hash (.ok r)]) =
      acceptedIn j ++ [hash] := by
    simp [acceptedIn, hr]
  have hrej : rejectedIn (j ++ [.fetched hash] ++ [.imported hash (.ok r)]) = rejectedIn j := by
    cases r with
    | rejected => exact hr.elim
    | _ => simp [rejectedIn]
  refine ⟨by rw [fetchedIn_imported, h.fetched], ?_, fun a => ?_⟩
  · rw [hc, PeerCursor.retain, h.pending, hacc, hrej, acceptedIn_fetched, rejectedIn_fetched]
    refine filter_retain fun a => ?_
    rw [List.mem_append, List.mem_singleton]
    tauto
  · have hgain : a ∈ e₂.segmentHashes ↔ a ∈ e₁.segmentHashes ∨ a = hash := by
      cases r with
      | applied => rw [hi.2, List.mem_append, List.mem_singleton]
      | skipped =>
        rw [hi.2]
        exact ⟨.inl, fun h => h.elim id fun h => h ▸ hi.1⟩
      | hashMismatch => exact hr.elim
      | rejected => exact hr.elim
    rw [hgain, h.hashes, hacc, acceptedIn_fetched, List.mem_append, List.mem_singleton, or_assoc]

/-- A segment that is rejected is settled, too. -/
theorem PullInv.reject {reason : String}
    (h : PullInv e missing done cursor e₁ (j ++ [.fetched hash])) (hsame : e₂ = e₁) :
    PullInv e missing done (cursor.retain hash) e₂
      (j ++ [.fetched hash] ++ [.imported hash (.ok (.rejected reason))]) := by
  subst hsame
  have hacc : acceptedIn (j ++ [.fetched hash] ++ [.imported hash (.ok (.rejected reason))]) =
      acceptedIn j := by
    simp [acceptedIn, ImportResult.Accepted]
  have hrej : rejectedIn (j ++ [.fetched hash] ++ [.imported hash (.ok (.rejected reason))]) =
      rejectedIn j ++ [hash] := by
    simp [rejectedIn]
  refine ⟨by rw [fetchedIn_imported, h.fetched], ?_, fun a => ?_⟩
  · rw [PeerCursor.retain, h.pending, hacc, hrej, acceptedIn_fetched, rejectedIn_fetched]
    refine filter_retain fun a => ?_
    rw [List.mem_append, List.mem_singleton]
    tauto
  · rw [h.hashes, hacc, acceptedIn_fetched]

/-- **One segment** of the pull. -/
theorem wp_pullSegment (hlen : hash.length = 32) (hmem : hash ∈ hs)
    (h : PullInv e missing done cursor p.state d.2.2) :
    Prog.wp (pullSegment codec peerId answers archive cursor hash)
      (cyclePost X hs w fun cursor' q d' =>
        PullInv e missing (done ++ [hash]) cursor' q.state d'.2.2) p d := by
  have hfetched : PullInv e missing (done ++ [hash]) cursor p.state (d.2.2 ++ [.fetched hash]) := by
    refine ⟨by rw [fetchedIn_fetched, h.fetched], ?_, ?_⟩
    · rw [h.pending, acceptedIn_fetched, rejectedIn_fetched]
    · rw [acceptedIn_fetched]
      exact h.hashes
  rw [pullSegment, if_neg (by simpa using hlen)]
  simp only [Prog.wp_bind, wp_journal, wp_note]
  refine fun _ => ⟨hmem, ?_⟩
  cases answers.fetchSegment d.2.2 hash with
  | none => exact (Prog.wp_pure _).mpr hfetched
  | some answer =>
    obtain ⟨dat, size⟩ := answer
    dsimp only
    simp only [Prog.wp_bind, Prog.wp_attempt, onEngine, Prog.wp_onFst, wp_note]
    refine Prog.wp_mono (Engine.wp_importSegment_hashes dat size hash) ?_ ?_ (fun _ _ h => h)
      fun _ _ _ _ => trivial
    · intro r q fs' hi
      refine fun _ => ⟨trivial, ?_⟩
      cases r with
      | applied written skipped =>
        rw [Prog.wp_bind]
        refine wp_flushCursor (fun _ _ h => h) fun files _ => ?_
        have hinv : PullInv e missing (done ++ [hash])
            { cursor.retain hash with
              segmentsAppliedTotal := (cursor.retain hash).segmentsAppliedTotal + 1 } q.state
            (d.2.2 ++ [.fetched hash] ++ [.imported hash (.ok (.applied written skipped))]) :=
          hfetched.accept (r := .applied written skipped) trivial hi rfl
        cases archive with
        | false => exact (Prog.wp_pure _).mpr hinv
        | true =>
          simp only [if_true, Prog.wp_bind, wp_note]
          refine fun _ => ⟨trivial, (Prog.wp_pure _).mpr ⟨?_, ?_, ?_⟩⟩
          · rw [fetchedIn_archived, hinv.fetched]
          · rw [acceptedIn_archived, rejectedIn_archived, hinv.pending]
          · rw [acceptedIn_archived]
            exact hinv.hashes
      | skipped =>
        rw [Prog.wp_bind]
        refine wp_flushCursor (fun _ _ h => h) fun files _ => (Prog.wp_pure _).mpr ?_
        exact hfetched.accept (r := .skipped) trivial hi rfl
      | hashMismatch =>
        exact (Prog.wp_pure _).mpr (hfetched.skip (by simp [acceptedIn, ImportResult.Accepted])
          (by simp [rejectedIn]) (congrArg Engine.segmentHashes hi))
      | rejected reason =>
        rw [Prog.wp_bind]
        refine wp_flushCursor (fun _ _ h => h) fun files _ => (Prog.wp_pure _).mpr ?_
        exact hfetched.reject hi
    · intro err q fs' hsame
      refine fun _ => ⟨trivial, (Prog.wp_pure _).mpr ?_⟩
      exact hfetched.skip (by simp [acceptedIn]) (by simp [rejectedIn]) hsame

/-- **The pull**: everything that is missing is fetched, and at its end the cursor file holds a
cursor with those that were not settled. -/
theorem wp_pullMissing {peerRoot : Bytes} {peerSegments : List SegmentRef}
    (hlen : ∀ s ∈ peerSegments, s.segmentHash.length = 32)
    (hmem : ∀ h ∈ p.state.missingSegments peerSegments, h ∈ hs) (hj : Idle d.2.2) :
    Prog.wp (pullMissing codec peerId answers archive peerRoot peerSegments cursor)
      (cyclePost X hs w fun _ q d' =>
        ∃ cursor', d'.2.1 (.cursor peerId) = some (codec.toVec cursor') ∧
          PullInv p.state (p.state.missingSegments peerSegments)
            (p.state.missingSegments peerSegments) cursor' q.state d'.2.2) p d := by
  simp only [pullMissing, onEngine, Prog.wp_bind, Prog.wp_onFst, Exec.wp_get]
  generalize hmissing : p.state.missingSegments peerSegments = missing at hmem
  have hlens : ∀ h ∈ missing, h.length = 32 := by
    intro h hh
    rw [← hmissing] at hh
    obtain ⟨s, hs, rfl⟩ := List.mem_map.mp hh
    exact hlen s (List.mem_filter.mp hs).1
  refine wp_flushCursor (fun _ _ h => h) fun files _ => ?_
  refine Prog.wp_foldlM (fun rest cursor' (q : Process Engine) (d' : (cycleDevice X).State) =>
    ∃ done, done ++ rest = missing ∧
      PullInv p.state missing done cursor' q.state d'.2.2) ?_ ?_ missing _ ?_
  · rintro hash rest cursor' q d' ⟨done, hdone, hinv⟩
    have hhash : hash ∈ missing := hdone ▸ by simp
    refine Prog.wp_imp (wp_pullSegment (hlens hash hhash) (hmem hash hhash) hinv) ?_
      fun _ _ _ h => h
    exact fun cursor'' q' d'' hinv' => ⟨done ++ [hash], by simpa using hdone, hinv'⟩
  · rintro cursor' q d' ⟨done, hdone, hinv⟩
    rw [List.append_nil] at hdone
    refine wp_flushCursor (fun _ _ h => h) fun files' hfile => ⟨_, hfile, ?_⟩
    exact ⟨hinv.fetched.trans hdone, hinv.pending, hinv.hashes⟩
  · refine ⟨[], rfl, ?_⟩
    obtain ⟨hf, ha, hr⟩ := hj
    exact ⟨hf, by simp [ha, hr], fun h => by simp [ha]⟩

theorem received_length {entries : List SegmentRef} :
    ∀ s ∈ entries.map SegmentRef.received, s.segmentHash.length = 32 := by
  intro s hs
  obtain ⟨r, -, rfl⟩ := List.mem_map.mp hs
  exact length_toHash32 _

/-- What a cycle goes for: the hashes that are missing, where it obtains the list of the peer. -/
def targets (X : Externals) (e : Engine) (answers : PeerAnswers) : Option (List Bytes) :=
  match answers.merkleRoot with
  | none => none
  | some peerRoot =>
    if e.compareMerkle X peerRoot then none
    else answers.listSegments.map fun entries =>
      e.missingSegments (entries.map SegmentRef.received)

theorem targets_eq {answers : PeerAnswers} {missing : List Bytes} {entries : List SegmentRef}
    (h : targets X e answers = some missing) (hentries : answers.listSegments = some entries) :
    missing = e.missingSegments (entries.map SegmentRef.received) := by
  unfold targets at h
  split at h
  · cases h
  · split at h
    · cases h
    · rw [hentries, Option.map_some, Option.some.injEq] at h
      exact h.symm

/-- **The cycle**: where it obtains the list, it fetches all that is missing, and the cursor keeps
what was not settled; otherwise it fetches nothing. -/
theorem wp_runOnce (hj : Idle d.2.2) :
    Prog.wp (runOnce (X := X) codec peerId answers archive)
      (cyclePost X ((targets X p.state answers).getD []) answers.watermark fun _ q d' =>
        match targets X p.state answers with
        | none => q.state = p.state ∧ Idle d'.2.2
        | some missing => ∃ cursor, d'.2.1 (.cursor peerId) = some (codec.toVec cursor) ∧
            PullInv p.state missing missing cursor q.state d'.2.2) p d := by
  rw [runOnce]
  simp only [Prog.wp_bind]
  -- the cursor is loaded, stamped and written, and the watermark noted
  have hload : Prog.wp (loadCursor (X := X) codec peerId)
      (cyclePost X ((targets X p.state answers).getD []) answers.watermark
        fun _ q d' => q = p ∧ d' = d) p d := by
    simp only [loadCursor, onFiles, Prog.wp_bind, Prog.wp_onSnd, Prog.wp_onFst, Prog.wp_pure]
    exact (Prog.wp_disk (D := directory SideFile)).mpr ⟨rfl, rfl⟩
  refine Prog.wp_imp hload ?_ fun _ _ _ h => h
  rintro cursor q d' ⟨hq, hd⟩
  rw [hq, hd]
  simp only [onEngine, Prog.wp_onFst, Exec.wp_now]
  refine wp_flushCursor (fun _ _ h => h) fun files _ => ?_
  refine wp_observeWatermark (fun _ _ h => h) (fun _ _ h => h) hj fun cursor' files' j hj => ?_
  simp only [targets]
  cases answers.merkleRoot with
  | none => exact (Prog.wp_pure _).mpr ⟨rfl, hj⟩
  | some peerRoot =>
    simp only [Prog.wp_bind, Prog.wp_onFst, Exec.wp_get, Prog.wp_ite]
    split
    case isTrue => exact wp_flushCursor (fun _ _ h => h) fun files'' _ => ⟨rfl, hj⟩
    case isFalse =>
      cases answers.listSegments with
      | none => exact (Prog.wp_pure _).mpr ⟨rfl, hj⟩
      | some entries =>
        simp only [Option.map_some, Option.getD_some]
        have hpull := @wp_pullMissing X codec peerId answers archive _ answers.watermark
          ⟨p.state, fun i => p.clock (i + 1)⟩ (d.1, files', j) cursor' peerRoot
          (entries.map SegmentRef.received) received_length (fun _ h => h) hj
        exact hpull

end AntiEntropy
