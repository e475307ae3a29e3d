import Edgestore.Replication.Exchange
import Edgestore.World
import Edgestore.PlainExternals
import Mathlib.Data.List.Count

/-!
# The fixed point of anti-entropy

An engine that imports what it lacks of a peer ends with the hashes of both, and a second round does
nothing. Every delivered hash is registered once, however often it is delivered; so the roots of the
two agree when the peer, too, lists no new hash twice, and they never agree otherwise.

## Main definitions

* `Engine.deliver`: importing deliveries one after the other
* `Engine.Syncs`: deliveries that cover what the peer lists and the engine lacks
* `Engine.AtFixedPoint`: what a synchronised engine should meet
* `Engine.ListsAlike`: the peer lists new hashes once, and old ones as often as the engine does

## Main results

* `Engine.Syncs.gains`: which hashes deliveries add
* `Engine.atFixedPoint_iff`: an engine that has synchronised is at the fixed point if and only if the
  peer lists the hashes alike
-/

/-! ### Lists of hashes -/

/-- Lists of hashes of one length are equal when their concatenations are. -/
theorem eq_of_flatten_eq {n : ℕ} (hn : 0 < n) {l l' : List Bytes} (h : ∀ a ∈ l, a.length = n)
    (h' : ∀ a ∈ l', a.length = n) (heq : l.flatten = l'.flatten) : l = l' := by
  have hlengths : l.map List.length = List.replicate l.length n :=
    List.eq_replicate_iff.mpr ⟨by simp, by simpa using h⟩
  have hlengths' : l'.map List.length = List.replicate l'.length n :=
    List.eq_replicate_iff.mpr ⟨by simp, by simpa using h'⟩
  -- the number of hashes is the number of bytes over their length
  have hbytes : l.length * n = l'.length * n := by
    have hsum := congrArg List.length heq
    rwa [List.length_flatten, List.length_flatten, hlengths, hlengths', List.sum_replicate_nat,
      List.sum_replicate_nat] at hsum
  have hcount : l.length = l'.length := Nat.eq_of_mul_eq_mul_right hn hbytes
  exact List.eq_iff_flatten_eq.mpr ⟨heq, by rw [hlengths, hlengths', hcount]⟩

variable {X : Externals}

/-- A segment as it was fetched, under the hash it was asked for by. -/
structure Delivery where
  dat : Dat
  size : ℕ
  hash : Bytes
  deriving DecidableEq, Repr

namespace Engine

variable {e e' peer : Engine} {fs : Fs} {clock : ℕ → ℕ} {h : Bytes}

/-! ### Roots -/

theorem rootInput_eq_of_perm (hp : e.segmentHashes.Perm e'.segmentHashes) :
    e.rootInput = e'.rootInput := by
  have hsorted : (e.segmentHashes.insertionSort (· ≤ ·)).Perm
      (e'.segmentHashes.insertionSort (· ≤ ·)) :=
    ((List.perm_insertionSort _ _).trans hp).trans (List.perm_insertionSort _ _).symm
  rw [rootInput, rootInput,
    List.Perm.eq_of_sortedLE List.sortedLE_insertionSort List.sortedLE_insertionSort hsorted]

/-- Equal roots follow from equal hashes in any order. -/
theorem rangeMerkleRoot_eq_of_perm (hp : e.segmentHashes.Perm e'.segmentHashes) :
    e.rangeMerkleRoot X = e'.rangeMerkleRoot X := by
  have hnil : e.segmentHashes = [] ↔ e'.segmentHashes = [] := by
    rw [← List.length_eq_zero_iff, ← List.length_eq_zero_iff, hp.length_eq]
  rw [rangeMerkleRoot, rangeMerkleRoot, rootInput_eq_of_perm hp]
  simp only [hnil]

theorem perm_of_rootInput_eq (hs : ∀ a ∈ e.segmentHashes, a.length = 32)
    (hs' : ∀ a ∈ e'.segmentHashes, a.length = 32) (heq : e.rootInput = e'.rootInput) :
    e.segmentHashes.Perm e'.segmentHashes := by
  have hsorted := eq_of_flatten_eq (n := 32) (by omega)
    (fun a ha => hs a ((List.perm_insertionSort _ _).mem_iff.mp ha))
    (fun a ha => hs' a ((List.perm_insertionSort _ _).mem_iff.mp ha)) heq
  exact ((List.perm_insertionSort _ _).symm.trans (.of_eq hsorted)).trans
    (List.perm_insertionSort _ _)

/-! ### Deliveries -/

/-- Import deliveries one after the other. -/
def deliver (ds : List Delivery) : Exec X Engine (List ImportResult) :=
  ds.foldlM (fun rs d => do return rs ++ [← importSegment d.dat d.size d.hash]) []

/-- The hashes `hs` have been delivered: those that were not there are, each once. -/
def Gains (e : Engine) (hs : List Bytes) (e' : Engine) : Prop :=
  ∃ new, e'.segmentHashes = e.segmentHashes ++ new ∧ new.Nodup ∧
    ∀ h, h ∈ new ↔ h ∈ hs ∧ h ∉ e.segmentHashes

theorem Gains.nil : Gains e [] e := ⟨[], by simp⟩

/-- One more delivery. -/
theorem Gains.concat {e₁ : Engine} {hs : List Bytes} {r : ImportResult} (hg : Gains e hs e₁)
    (hr : r.Accepted) (hi : ImportsHash e₁ h r e') : Gains e (hs ++ [h]) e' := by
  obtain ⟨new, hnew, hnodup, hmem⟩ := hg
  cases r with
  | applied written skipped =>
    -- the hash was not there: it is new, and it is appended
    obtain ⟨hnot, happend⟩ := hi
    rw [hnew] at hnot happend
    refine ⟨new ++ [h], by rw [happend, List.append_assoc], ?_, fun a => ?_⟩
    · refine List.nodup_append.mpr ⟨hnodup, List.nodup_singleton _, fun a ha b hb => ?_⟩
      rintro rfl
      exact hnot (List.mem_append_right _ (List.mem_singleton.mp hb ▸ ha))
    · rw [List.mem_append, List.mem_append, hmem, List.mem_singleton]
      constructor
      · rintro (⟨ha, hold⟩ | rfl)
        · exact ⟨.inl ha, hold⟩
        · exact ⟨.inr rfl, fun hold => hnot (List.mem_append_left _ hold)⟩
      · rintro ⟨ha | rfl, hold⟩
        · exact .inl ⟨ha, hold⟩
        · exact .inr rfl
  | skipped =>
    -- the hash was there, before the deliveries or since
    obtain ⟨hthere, rfl⟩ := hi
    refine ⟨new, hnew, hnodup, fun a => ?_⟩
    rw [hmem, List.mem_append, List.mem_singleton]
    constructor
    · exact fun ⟨ha, hold⟩ => ⟨.inl ha, hold⟩
    · rintro ⟨ha | rfl, hold⟩
      · exact ⟨ha, hold⟩
      · rw [hnew] at hthere
        exact (hmem _).mp ((List.mem_append.mp hthere).resolve_left hold)
  | hashMismatch => exact hr.elim
  | rejected reason => exact hr.elim

/-- **Deliveries** that are all accepted add the hashes that were not there, each once. -/
theorem wp_deliver (ds : List Delivery) :
    Prog.wp (deliver (X := X) ds)
      ⟨fun rs q _ => (∀ r ∈ rs, r.Accepted) → Gains e (ds.map Delivery.hash) q.state,
        fun _ _ _ => True, fun _ _ => True, fun _ _ => True⟩ ⟨e, clock⟩ fs := by
  refine Prog.wp_foldlM (fun rest rs p _ => (∀ r ∈ rs, r.Accepted) →
    ∃ done, done ++ rest = ds ∧ Gains e (done.map Delivery.hash) p.state) ?_ ?_ ds [] ?_
  · intro d rest rs p fs hinv
    rw [Prog.wp_bind]
    refine Prog.wp_imp (wp_importSegment_hashes d.dat d.size d.hash) ?_ fun _ _ _ _ => trivial
    intro r q fs' hi
    rw [Prog.wp_pure]
    intro hall
    obtain ⟨done, rfl, hg⟩ := hinv fun r hr => hall r (List.mem_append_left _ hr)
    refine ⟨done ++ [d], by simp, ?_⟩
    rw [List.map_append]
    exact hg.concat (hall r (by simp)) hi
  · intro rs p fs hinv hall
    obtain ⟨done, hdone, hg⟩ := hinv hall
    rw [List.append_nil] at hdone
    exact hdone ▸ hg
  · exact fun _ => ⟨[], rfl, .nil⟩

/-- The engine imported deliveries that were all accepted, and that cover, with any repetitions,
what the peer lists and the engine lacked. -/
def Syncs (X : Externals) (ds : List Delivery) (clock : ℕ → ℕ) (fs : Fs) (e peer e' : Engine) : Prop :=
  (∃ results clock' es, (deliver (X := X) ds).run ⟨e, clock⟩ fs = (.ok results, ⟨e', clock'⟩, es) ∧
    ∀ r ∈ results, r.Accepted) ∧
  ∀ h, h ∈ ds.map Delivery.hash ↔ h ∈ e.missingSegments peer.exportManifest

/-- The fixed point: nothing is missing, importing a listed segment again does nothing, the hashes
are those of both, the order of the deliveries makes no difference to the root, and an engine that
had nothing of its own has the root of the peer. -/
structure AtFixedPoint (X : Externals) (fs : Fs) (e peer e' : Engine) : Prop where
  missing : e'.missingSegments peer.exportManifest = []
  again : ∀ s ∈ peer.exportManifest, ∀ dat size clock fs',
    (importSegment (X := X) dat size s.segmentHash).run ⟨e', clock⟩ fs' =
      (.ok .skipped, ⟨e', clock⟩, [])
  union : ∀ h, h ∈ e'.segmentHashes ↔ h ∈ e.segmentHashes ∨ h ∈ peer.segmentHashes
  order : ∀ ds clock e'', Syncs X ds clock fs e peer e'' →
    e''.rangeMerkleRoot X = e'.rangeMerkleRoot X
  root : (∀ h ∈ e.segmentHashes, h ∈ peer.segmentHashes) →
    e'.rangeMerkleRoot X = peer.rangeMerkleRoot X

/-- If the engine has no segment of its own, the peer lists every hash the engine has as often as
the engine does, and every other hash once. -/
def ListsAlike (e peer : Engine) : Prop :=
  (∀ h ∈ e.segmentHashes, h ∈ peer.segmentHashes) →
    ∀ h ∈ peer.segmentHashes, peer.segmentHashes.count h = max 1 (e.segmentHashes.count h)

/-! ### The result -/

theorem Syncs.gains {ds : List Delivery} (hs : Syncs X ds clock fs e peer e') :
    Gains e (e.missingSegments peer.exportManifest) e' := by
  obtain ⟨⟨results, clock', es, hrun, hall⟩, hcover⟩ := hs
  have hwp := Prog.wp_result (@wp_deliver X e fs clock ds)
    Device.all_true
  rw [hrun] at hwp
  obtain ⟨new, hnew, hnodup, hmem⟩ := hwp hall
  exact ⟨new, hnew, hnodup, fun a => by rw [hmem, hcover]⟩

theorem mem_missingSegments (hsized : ∀ a ∈ peer.segmentHashes, a.length = 32) :
    h ∈ e.missingSegments peer.exportManifest ↔ h ∈ peer.segmentHashes ∧ h ∉ e.segmentHashes := by
  have hexport : ∀ m ∈ peer.segmentStore.manifest.segments, toHash32 m.segmentHash = m.segmentHash :=
    fun m hm => toHash32_of_length (hsized _ (List.mem_map_of_mem hm))
  simp only [missingSegments, exportManifest, segmentHashes, List.mem_map, List.mem_filter,
    decide_eq_true_eq]
  constructor
  · rintro ⟨_, ⟨⟨m, hm, rfl⟩, hnot⟩, rfl⟩
    rw [hexport m hm] at hnot ⊢
    exact ⟨⟨m, hm, rfl⟩, hnot⟩
  · rintro ⟨⟨m, hm, rfl⟩, hnot⟩
    exact ⟨_, ⟨⟨m, hm, rfl⟩, by rwa [hexport m hm]⟩, hexport m hm⟩

theorem syncs_of_run {ds : List Delivery} {results : List ImportResult}
    (hok : ((deliver (X := X) ds).run ⟨e, clock⟩ fs).1 = .ok results)
    (hall : ∀ r ∈ results, r.Accepted)
    (hcover : ∀ h, h ∈ ds.map Delivery.hash ↔ h ∈ e.missingSegments peer.exportManifest) :
    Syncs X ds clock fs e peer ((deliver (X := X) ds).run ⟨e, clock⟩ fs).2.1.state :=
  ⟨⟨results, _, _, by rw [← hok], hall⟩, hcover⟩

/-- How often a synchronised engine lists a hash. -/
theorem Gains.count (hsized : ∀ a ∈ peer.segmentHashes, a.length = 32)
    (hg : Gains e (e.missingSegments peer.exportManifest) e') (h : Bytes) :
    e'.segmentHashes.count h =
      if h ∈ peer.segmentHashes then max 1 (e.segmentHashes.count h)
      else e.segmentHashes.count h := by
  obtain ⟨new, hnew, hnodup, hmem⟩ := hg
  have hiff : h ∈ new ↔ h ∈ peer.segmentHashes ∧ h ∉ e.segmentHashes := by
    rw [hmem, mem_missingSegments hsized]
    tauto
  rw [hnew, List.count_append]
  by_cases hthere : h ∈ e.segmentHashes
  · have hpos : 0 < e.segmentHashes.count h := List.count_pos_iff.mpr hthere
    have hnone : new.count h = 0 := List.count_eq_zero.mpr fun hn => (hiff.mp hn).2 hthere
    split <;> omega
  · have hzero : e.segmentHashes.count h = 0 := List.count_eq_zero.mpr hthere
    split
    case isTrue hpeer =>
      rw [hzero, List.count_eq_one_of_mem hnodup (hiff.mpr ⟨hpeer, hthere⟩)]
      rfl
    case isFalse hpeer =>
      rw [List.count_eq_zero.mpr fun hn => hpeer (hiff.mp hn).1, Nat.add_zero]

/-- **The fixed point of anti-entropy.** An engine that has synchronised with a peer is at the fixed
point if and only if the peer lists the hashes alike. -/
theorem atFixedPoint_iff {ds : List Delivery} (hs : Syncs X ds clock fs e peer e')
    (hsized : ∀ a ∈ e.segmentHashes, a.length = 32)
    (hsized' : ∀ a ∈ peer.segmentHashes, a.length = 32)
    (hinj : X.blake3 e'.rootInput = X.blake3 peer.rootInput → e'.rootInput = peer.rootInput) :
    AtFixedPoint X fs e peer e' ↔ ListsAlike e peer := by
  have hg := hs.gains
  have hmem : ∀ a, a ∈ e'.segmentHashes ↔ a ∈ e.segmentHashes ∨ a ∈ peer.segmentHashes := by
    intro a
    rw [← List.count_pos_iff, hg.count hsized', ← List.count_pos_iff (l := e.segmentHashes)]
    split <;> simp_all
  constructor
  · intro hfix hsub a ha
    -- equal roots are equal hashes, since the peer has a segment
    have hroot := hfix.root hsub
    rw [rangeMerkleRoot, rangeMerkleRoot, if_neg (List.ne_nil_of_mem ((hmem a).mpr (.inr ha))),
      if_neg (List.ne_nil_of_mem ha)] at hroot
    have hsized'' : ∀ b ∈ e'.segmentHashes, b.length = 32 := fun b hb =>
      ((hmem b).mp hb).elim (hsized b) (hsized' b)
    have hperm := perm_of_rootInput_eq hsized'' hsized' (hinj hroot)
    rw [← hperm.count_eq, hg.count hsized', if_pos ha]
  · intro halike
    refine ⟨?_, ?_, hmem, ?_, ?_⟩
    · refine List.eq_nil_iff_forall_not_mem.mpr fun a ha => ?_
      obtain ⟨hpeer, hnot⟩ := (mem_missingSegments hsized').mp ha
      exact hnot ((hmem a).mpr (.inr hpeer))
    · intro s hs dat size clock fs'
      obtain ⟨m, hm, rfl⟩ := List.mem_map.mp hs
      have hpeer : m.segmentHash ∈ peer.segmentHashes := List.mem_map_of_mem hm
      rw [toHash32_of_length (hsized' _ hpeer)]
      exact importSegment_of_mem ((hmem _).mpr (.inr hpeer)) dat size
    · intro ds' clock' e'' hs''
      refine rangeMerkleRoot_eq_of_perm (List.perm_iff_count.mpr fun a => ?_)
      rw [hs''.gains.count hsized', hg.count hsized']
    · intro hsub
      refine rangeMerkleRoot_eq_of_perm (List.perm_iff_count.mpr fun a => ?_)
      rw [hg.count hsized']
      split
      case isTrue ha => exact (halike hsub a ha).symm
      case isFalse ha =>
        rw [List.count_eq_zero.mpr fun hn => ha (hsub a hn), List.count_eq_zero.mpr ha]

/-! ### A peer that flushed twice -/

/-- A run that flushes an entry, reopens the store on the WAL that was kept, and flushes the entry
again. -/
def twiceFlushedRun : List Call :=
  [{ op := .open {} }, { op := .put [1] [2] [3] }, { op := .flushToSegments }, { op := .close },
    { op := .open {} }, { op := .flushToSegments }]

/-- A run that opens a new store. -/
def newStoreRun : List Call := [{ op := .open {} }]

/-- The segment that the first run flushes. -/
def flushedDelivery : Delivery :=
  let dat : Dat := [.decoded 34 [([0, 1, 1, 2],
    { key := [0, 1, 1, 2], value := some [3], op := .put, lsn := 1, timestamp := 0, ttl := 0 })]]
  ⟨dat, 4104, plainExternals.datHash dat⟩

/-- A new store that has imported the segment of the peer: the two list it once and twice, and their
roots differ. -/
theorem syncs_twiceFlushed :
    ∃ e peer e', (Run.from (World.step plainExternals) {} newStoreRun).engine = some e ∧
      (Run.from (World.step plainExternals) {} twiceFlushedRun).engine = some peer ∧
      Syncs plainExternals [flushedDelivery] (fun _ => 0)
        (Run.from (World.step plainExternals) {} newStoreRun).fs e peer e' ∧
      e.segmentHashes = [] ∧ peer.segmentHashes = List.replicate 2 flushedDelivery.hash ∧
      plainExternals.blake3 e'.rootInput ≠ plainExternals.blake3 peer.rootInput ∧
      e'.rangeMerkleRoot plainExternals ≠ peer.rangeMerkleRoot plainExternals := by
  have hlocal : (Run.from (World.step plainExternals) {} newStoreRun).engine.map (fun e =>
      (e.segmentHashes, ((deliver (X := plainExternals) [flushedDelivery]).run ⟨e, fun _ => 0⟩
          (Run.from (World.step plainExternals) {} newStoreRun).fs).1,
        ((deliver (X := plainExternals) [flushedDelivery]).run ⟨e, fun _ => 0⟩
          (Run.from (World.step plainExternals) {} newStoreRun).fs).2.1.state.segmentHashes)) =
      some ([], .ok [.applied 1 0], [flushedDelivery.hash]) := by
    decide +kernel
  have hpeer : (Run.from (World.step plainExternals) {} twiceFlushedRun).engine.map
      (fun e => (e.segmentHashes, e.exportManifest.map SegmentRef.segmentHash)) =
      some (List.replicate 2 flushedDelivery.hash, List.replicate 2 flushedDelivery.hash) := by
    decide +kernel
  obtain ⟨e, he, hfacts⟩ := Option.map_eq_some_iff.mp hlocal
  obtain ⟨peer, hp, hfacts'⟩ := Option.map_eq_some_iff.mp hpeer
  simp only [Prod.mk.injEq] at hfacts hfacts'
  obtain ⟨hnone, hok, hone⟩ := hfacts
  obtain ⟨htwo, hexport⟩ := hfacts'
  have hroots : plainExternals.blake3 flushedDelivery.hash ≠
      plainExternals.blake3 (flushedDelivery.hash ++ flushedDelivery.hash) := by
    decide +kernel
  have hinput : ∀ e' : Engine, e'.segmentHashes = [flushedDelivery.hash] →
      e'.rootInput = flushedDelivery.hash := fun e' h => by simp [rootInput, h]
  have hinput' : peer.rootInput = flushedDelivery.hash ++ flushedDelivery.hash := by
    simp [rootInput, htwo, List.replicate]
  refine ⟨e, peer, _, he, hp, syncs_of_run hok (by decide) fun a => ?_, hnone, htwo, ?_, ?_⟩
  · have hmissing : e.missingSegments peer.exportManifest =
        List.replicate 2 flushedDelivery.hash := by
      simp [missingSegments, hnone, hexport]
    rw [hmissing]
    simp
  · rwa [hinput _ hone, hinput']
  · rwa [rangeMerkleRoot, rangeMerkleRoot, hone, htwo, if_neg (by simp), if_neg (by simp),
      hinput _ hone, hinput']

theorem atFixedPoint_iff_twiceFlushed :
    ∃ e peer e', (Run.from (World.step plainExternals) {} newStoreRun).engine = some e ∧
      (Run.from (World.step plainExternals) {} twiceFlushedRun).engine = some peer ∧
      (AtFixedPoint plainExternals (Run.from (World.step plainExternals) {} newStoreRun).fs e peer e' ↔
        ListsAlike e peer) := by
  obtain ⟨e, peer, e', he, hp, hs, hnone, htwo, hinput, -⟩ := syncs_twiceFlushed
  have hsized : ∀ a ∈ peer.segmentHashes, a.length = 32 := by
    rw [htwo]
    exact fun a ha => List.eq_of_mem_replicate ha ▸ by decide +kernel
  exact ⟨e, peer, e', he, hp, atFixedPoint_iff hs (by simp [hnone]) hsized fun h => absurd h hinput⟩

/-- **Two nodes that never agree**: the new store has every segment of the peer, and a root of its
own. -/
theorem roots_differ_twiceFlushed :
    ¬ ∀ (peerCalls localCalls : List Call) (e peer e' : Engine) (ds : List Delivery)
      (clock : ℕ → ℕ),
      (Run.from (World.step plainExternals) {} peerCalls).engine = some peer →
      (Run.from (World.step plainExternals) {} localCalls).engine = some e →
      Syncs plainExternals ds clock (Run.from (World.step plainExternals) {} localCalls).fs
        e peer e' →
      (plainExternals.blake3 e'.rootInput = plainExternals.blake3 peer.rootInput →
        e'.rootInput = peer.rootInput) →
      AtFixedPoint plainExternals (Run.from (World.step plainExternals) {} localCalls).fs e peer e' := by
  intro h
  obtain ⟨e, peer, e', he, hp, hs, hnone, -, hinput, hroots⟩ := syncs_twiceFlushed
  have hfix := h _ _ e peer e' _ _ hp he hs fun heq => absurd heq hinput
  exact hroots (hfix.root (by simp [hnone]))

end Engine
