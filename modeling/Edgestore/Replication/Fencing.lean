import Edgestore.Replication.Rejection

/-!
# Write tokens

A promoted node takes a token above its own and that of the old primary, so that nodes that have seen
it can tell the old primary apart. The token file is truncated before it is written, and a cycle
notes the token of a peer and goes on whatever it is. Where no crash falls between the truncation and
the last byte, no token reaches the end of its 64 bits, and no peer shows a token below one it has
shown before, tokens fence as they should.

## Main definitions

* `Node.reports`: the tokens a node reports in a run
* `Node.Fenced`: they never decrease, promotions raise them, and stale peers are not imported from
* `Node.RaisesToken`: the calls the fence is for
* `Node.WritesWholeToken`, `Node.SeesNoStaleToken`: the conditions

## Main results

* `Node.token_step`: the token on disk never decreases
* `Node.fenced_run`: runs of such steps are fenced
-/

variable {X : Externals} {codec : CursorCodec}

/-! ### The token file -/

section

variable {files : Directory.Files SideFile} {token : ℕ}

theorem loadWriteToken_congr {files' : Directory.Files SideFile}
    (h : files' .wtoken = files .wtoken) : loadWriteToken files' = loadWriteToken files := by
  rw [loadWriteToken, loadWriteToken, h]

theorem loadWriteToken_whole (ht : token < 2 ^ 64) :
    loadWriteToken (Function.update files .wtoken (some (leBytes 8 token))) = token := by
  have hfits : token < 256 ^ 8 := by omega
  simp [loadWriteToken, ofLe_leBytes_of_lt hfits]

/-- A crash while the token is written leaves the old token or the new one, or, after the truncation
and before the last byte, none. -/
theorem loadWriteToken_cut (ht : token < 2 ^ 64) (n m : ℕ) :
    loadWriteToken ((directory SideFile).cut (tokenEffects token) n m files) = loadWriteToken files ∨
      loadWriteToken ((directory SideFile).cut (tokenEffects token) n m files) = token ∨
      (n = 1 ∧ m < 8 ∧
        loadWriteToken ((directory SideFile).cut (tokenEffects token) n m files) = 0) := by
  match n with
  | 0 => exact .inl rfl
  | 1 =>
    have hfile : (directory SideFile).cut (tokenEffects token) 1 m files =
        Function.update files .wtoken (some ((leBytes 8 token).take m)) := by
      simp [tokenEffects, Directory.writeEffects, Device.cut, Directory.tear, Directory.apply]
    rw [hfile]
    by_cases hm : m < 8
    · refine .inr (.inr ⟨rfl, hm, ?_⟩)
      simp [loadWriteToken, List.length_take, show ¬ 8 ≤ m by omega]
    · rw [List.take_of_length_le (by simp; omega)]
      exact .inr (.inl (loadWriteToken_whole ht))
  | n + 2 =>
    refine .inr (.inl ?_)
    have hfile : (directory SideFile).cut (tokenEffects token) (n + 2) m files =
        Function.update files .wtoken (some (leBytes 8 token)) := by
      simp [tokenEffects, Directory.writeEffects, Device.cut, Directory.apply]
    rw [hfile, loadWriteToken_whole ht]

theorem loadWriteToken_run (ht : token < 2 ^ 64) :
    loadWriteToken ((directory SideFile).run (tokenEffects token) files) = token := by
  rw [tokenEffects, Directory.run_writeEffects]
  exact loadWriteToken_whole ht

end

namespace Node

variable (X codec)

/-- The tokens a node reports: that of the open engine after every step. -/
def reports : Node → List NodeOp → List ℕ
  | _, [] => []
  | s, op :: ops =>
    let s' := s.step X codec op
    (s'.world.engine.map fun _ => s'.token).toList ++ reports s' ops

/-- A promotion gives a token above its own and the fetched one; a cycle imports nothing from a peer
that shows a token below one it has shown before. -/
def FencesStep (s : Node) : NodeOp → Prop
  | .promoteToPrimary config clock fetched none =>
    let s' := s.step X codec (.promoteToPrimary config clock fetched none)
    s.world.engine = none → s'.world.engine.isSome →
      loadWriteToken s.files < s'.token ∧ ∀ t, fetched = some t → t < s'.token
  | .cycle peerId answers archive clock stop =>
    let events := s.newEvents X codec (.cycle peerId answers archive clock stop)
    ∀ t ∈ seenIn events, (∃ t' ∈ s.seenFrom peerId, t < t') →
      ∀ h r, CycleEvent.imported h r ∉ events
  | _ => True

/-- **Tokens fence.** -/
def Fenced (s : Node) (ops : List NodeOp) : Prop :=
  (s.reports X codec ops).Pairwise (· ≤ ·) ∧ Run.All (step X codec) (FencesStep X codec) s ops

/-- A token that is set is greater than the current one; tokens have 64 bits. -/
def RaisesToken (s : Node) : NodeOp → Prop
  | .setWriteToken token _ => token < 2 ^ 64 ∧ s.token < token
  | .promoteToPrimary _ _ fetched _ => ∀ t, fetched = some t → t < 2 ^ 64
  | _ => True

/-- No crash falls between the truncation of the token file and its last byte, unless the token there
is 0; and a promotion does not overflow. -/
def WritesWholeToken (s : Node) : NodeOp → Prop
  | .setWriteToken _ stop => ∀ m < 8, stop = some (1, m) → loadWriteToken s.files = 0
  | .promoteToPrimary _ _ fetched stop =>
    (∀ m < 8, stop = some (1, m) → loadWriteToken s.files = 0) ∧
      max (fetched.getD 0) (loadWriteToken s.files) + 1 < 2 ^ 64
  | _ => True

/-- The peer of a cycle shows no token below one it has shown before. -/
def SeesNoStaleToken (s : Node) : NodeOp → Prop
  | .cycle peerId answers _ _ _ => ∀ t, answers.watermark = some t → ∀ t' ∈ s.seenFrom peerId, t' ≤ t
  | _ => True

/-- The token of the open engine is the one on disk. -/
def TokenInv (s : Node) : Prop := s.world.engine.isSome → s.token = loadWriteToken s.files

variable {X codec} {s : Node} {op : NodeOp} {ops : List NodeOp}

/-! ### One step -/

/-- A new token of 64 bits, above the old one. -/
theorem tokenInv_writeToken {token : ℕ} {stop : Option (ℕ × ℕ)} (ht : token < 2 ^ 64)
    (hlt : loadWriteToken s.files < token)
    (hstop : ∀ m < 8, stop = some (1, m) → loadWriteToken s.files = 0) :
    TokenInv (s.writeToken token stop) ∧
      loadWriteToken s.files ≤ loadWriteToken (s.writeToken token stop).files := by
  cases stop with
  | none =>
    have hload := @loadWriteToken_run s.files token ht
    simp only [writeToken, TokenInv]
    rw [hload]
    exact ⟨fun _ => rfl, hlt.le⟩
  | some p =>
    obtain ⟨n, m⟩ := p
    refine ⟨fun h => (by simp [writeToken] at h), ?_⟩
    simp only [writeToken]
    rcases @loadWriteToken_cut s.files token ht n m with h | h | ⟨rfl, hm, -⟩
    · exact h.ge
    · exact hlt.le.trans h.ge
    · rw [hstop m hm rfl]
      exact Nat.zero_le _

theorem wtoken_cycle {e : Engine} {peerId : String} {answers : PeerAnswers} {archive : Bool}
    {clock : ℕ → ℕ} (he : s.world.engine = some e) (stop : Option (ℕ × ℕ)) :
    (s.step X codec (.cycle peerId answers archive clock stop)).files .wtoken = s.files .wtoken := by
  have hguar := Prog.wp_guar (@wp_cycle X codec s e peerId answers archive clock) Device.all_true
  have hstep : ∀ (f : (AntiEntropy.cycleDevice X).Effect) d,
      CycleEffect X ((AntiEntropy.targets X e answers).getD []) answers.watermark f →
      d.2.1 .wtoken = s.files .wtoken →
      ((AntiEntropy.cycleDevice X).apply f d).2.1 .wtoken = s.files .wtoken := by
    rintro (f | f | event) d hf hd
    · exact hd
    · exact (Directory.apply_of_notMem hf _).trans hd
    · exact hd
  cases stop with
  | none =>
    simp only [step, cycle, he]
    exact hguar.run (I := fun (d : (AntiEntropy.cycleDevice X).State) =>
      d.2.1 .wtoken = s.files .wtoken) hstep rfl
  | some p =>
    obtain ⟨n, m⟩ := p
    simp only [step, cycle, he]
    refine hguar.cut (I := fun (d : (AntiEntropy.cycleDevice X).State) =>
      d.2.1 .wtoken = s.files .wtoken) hstep ?_ rfl n m
    rintro (f | f | event) d hf hd m
    · exact hd
    · exact (Directory.tear_of_notMem hf m _).trans hd
    · exact hd

/-- **The token on disk never decreases**, and an open engine has it in memory. -/
theorem token_step (hi : TokenInv s) (hr : RaisesToken s op) (hw : WritesWholeToken s op) :
    TokenInv (s.step X codec op) ∧
      loadWriteToken s.files ≤ loadWriteToken (s.step X codec op).files := by
  cases op with
  | call c =>
    cases he : s.world.engine with
    | none =>
      simp only [step, call, he]
      exact ⟨fun _ => rfl, le_rfl⟩
    | some e =>
      simp only [step, call, he]
      exact ⟨fun _ => hi (by simp [he]), le_rfl⟩
  | cycle peerId answers archive clock stop =>
    cases he : s.world.engine with
    | none =>
      simp only [step, cycle, he]
      exact ⟨hi, le_rfl⟩
    | some e =>
      have hsame := loadWriteToken_congr
        (@wtoken_cycle X codec s e peerId answers archive clock he stop)
      refine ⟨fun hopen => ?_, hsame.ge⟩
      rw [hsame, ← hi (by simp [he])]
      cases stop <;> simp [step, cycle, he]
  | setWriteToken token stop =>
    cases he : s.world.engine with
    | none =>
      simp only [step, he]
      exact ⟨hi, le_rfl⟩
    | some e =>
      simp only [step, he]
      exact tokenInv_writeToken hr.1 (hi (by simp [he]) ▸ hr.2) hw
  | promoteToPrimary config clock fetched stop =>
    cases he : s.world.engine with
    | some e =>
      simp only [step, promoteToPrimary, he]
      exact ⟨hi, le_rfl⟩
    | none =>
      have hfiles : (s.call X { op := .open config, clock := clock }).files = s.files := by
        simp [call, he]
      have htoken : (s.call X { op := .open config, clock := clock }).token =
          loadWriteToken s.files := by
        simp [call, he]
      simp only [step, promoteToPrimary, he]
      split
      case h_1 hclosed => exact ⟨fun h => (by simp [hclosed] at h), by rw [hfiles]⟩
      case h_2 =>
        obtain ⟨hwhole, hlt⟩ := hw
        have hnew : promotedToken fetched (loadWriteToken s.files) =
            max (fetched.getD 0) (loadWriteToken s.files) + 1 := Nat.mod_eq_of_lt hlt
        rw [htoken, hnew, ← hfiles]
        rw [← hfiles] at hwhole hlt
        exact tokenInv_writeToken hlt (by omega) hwhole

/-- **A promotion** gives a token above the node's own and the fetched one, and a cycle imports
nothing from a peer with a stale token, since it meets none. -/
theorem fences_step (hr : RaisesToken s op) (hw : WritesWholeToken s op)
    (hseen : SeesNoStaleToken s op) : FencesStep X codec s op := by
  cases op with
  | call c => trivial
  | setWriteToken token stop => trivial
  | promoteToPrimary config clock fetched stop =>
    cases stop with
    | some p => trivial
    | none =>
      intro he hopen
      obtain ⟨-, hlt⟩ := hw
      have hnew : promotedToken fetched (loadWriteToken s.files) =
          max (fetched.getD 0) (loadWriteToken s.files) + 1 := Nat.mod_eq_of_lt hlt
      have htoken : (s.step X codec (.promoteToPrimary config clock fetched none)).token =
          max (fetched.getD 0) (loadWriteToken s.files) + 1 := by
        simp only [step, promoteToPrimary, he] at hopen ⊢
        split at hopen
        case h_1 hclosed => simp [hclosed] at hopen
        case h_2 e' he' =>
          simp only [writeToken]
          rw [← hnew]
          simp [call, he]
      rw [htoken]
      refine ⟨by omega, ?_⟩
      rintro t rfl
      exact Nat.lt_succ_of_le (le_max_left t _)
  | cycle peerId answers archive clock stop =>
    rintro t ht ⟨t', ht', hlt⟩
    cases he : s.world.engine with
    | none =>
      rw [newEvents_closed he] at ht
      cases ht
    | some e => exact absurd hlt (not_lt.mpr (hseen t (newEvents_seen he stop t ht) t' ht'))

/-! ### Runs -/

/-- The tokens of a run are at least the one on disk at its beginning, and they never decrease. -/
theorem reports_run (hi : TokenInv s)
    (h : Run.All (step X codec) (fun s op => RaisesToken s op ∧ WritesWholeToken s op) s ops) :
    (∀ t ∈ s.reports X codec ops, loadWriteToken s.files ≤ t) ∧
      (s.reports X codec ops).Pairwise (· ≤ ·) := by
  induction ops generalizing s with
  | nil => exact ⟨by simp [reports], .nil⟩
  | cons op ops ih =>
    obtain ⟨⟨hr, hw⟩, hrest⟩ := h
    obtain ⟨hi', hle⟩ := @token_step X codec s op hi hr hw
    obtain ⟨hlater, hpairwise⟩ := ih hi' hrest
    rw [reports]
    -- the report of this step, if there is one, is the token on disk after it
    have hnow : ∀ t ∈ ((s.step X codec op).world.engine.map fun _ =>
        (s.step X codec op).token).toList, t = loadWriteToken (s.step X codec op).files := by
      intro t ht
      obtain ⟨e, he, rfl⟩ := Option.map_eq_some_iff.mp (Option.mem_toList.mp ht)
      exact hi' (by simp [he])
    constructor
    · intro t ht
      rcases List.mem_append.mp ht with ht | ht
      · exact hnow t ht ▸ hle
      · exact hle.trans (hlater t ht)
    · refine List.pairwise_append.mpr ⟨?_, hpairwise, fun a ha b hb => hnow a ha ▸ hlater b hb⟩
      cases (s.step X codec op).world.engine with
      | none => exact .nil
      | some e => exact List.pairwise_singleton _ _

/-- **Tokens fence** in every run, from a node whose engine is closed, in which the token file is
written as a whole, promotions do not overflow, and no peer shows a stale token. -/
theorem fenced_run (hs : s.world.engine = none)
    (h : Run.All (step X codec) (fun s op => RaisesToken s op ∧ WritesWholeToken s op ∧
      SeesNoStaleToken s op) s ops) : Fenced X codec s ops := by
  refine ⟨(reports_run (fun hopen => ?_) (h.mono fun _ _ h => ⟨h.1, h.2.1⟩)).2,
    h.mono fun _ _ h => fences_step h.1 h.2.1 h.2.2⟩
  simp [hs] at hopen

/-- A node that sets a token, is promoted past another, and synchronises. -/
def promotedRun : List NodeOp :=
  [.call { op := .open {} }, .setWriteToken 5 none, .setWriteToken 6 (some (0, 0)),
    .promoteToPrimary {} (fun _ => 0) (some 9) none,
    .cycle "a" corruptPeer false (fun _ => 0) none]

theorem fenced_promotedRun : Fenced plainExternals plainCursorCodec {} promotedRun := by
  refine fenced_run rfl ⟨⟨trivial, trivial, trivial⟩, ⟨⟨by decide, by decide +kernel⟩, ?_, trivial⟩,
    ⟨⟨by decide, by decide +kernel⟩, ?_, trivial⟩, ⟨?_, ⟨?_, by decide +kernel⟩, trivial⟩,
    ⟨trivial, trivial, fun t ht => ?_⟩, trivial⟩
  · exact fun m _ h => (by cases h)
  · exact fun m _ h => (by cases h)
  · rintro t ht
    cases ht
    decide
  · exact fun m _ h => (by cases h)
  · cases ht

/-- A node that crashes after it has truncated the token file. -/
def truncatedTokenRun : List NodeOp :=
  [.call { op := .open {} }, .setWriteToken 5 none, .setWriteToken 6 (some (1, 0)),
    .call { op := .open {} }]

/-- **A token is lost** in a crash: the node reports 5, and after the restart 0. -/
theorem token_lost_truncated :
    ¬ ∀ ops, Run.All (step plainExternals plainCursorCodec) RaisesToken {} ops →
      Fenced plainExternals plainCursorCodec {} ops := by
  intro h
  have hraises : Run.All (step plainExternals plainCursorCodec) RaisesToken {} truncatedTokenRun :=
    ⟨trivial, ⟨by decide, by decide +kernel⟩, ⟨by decide, by decide +kernel⟩, trivial, trivial⟩
  have hreports : reports plainExternals plainCursorCodec {} truncatedTokenRun = [0, 5, 0] := by
    decide +kernel
  have hpairwise := (h truncatedTokenRun hraises).1
  rw [hreports] at hpairwise
  exact absurd hpairwise (by decide)

end Node
