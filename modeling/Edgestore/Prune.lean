import Edgestore.Engine.RewriteSpec
import Edgestore.Reopen
import Edgestore.LsnRestarts

/-!
# Pruning archived segments

A segment that has been archived elsewhere can be removed from the local store. Like the replacement of a
segment, this does not ask whether a snapshot has pinned it.

## Main definitions

* `SegmentStore.removeSegment`, `Engine.pruneLocalSegment`
* `LocalOp`, `World.localStep`: the operations on a database together with prunes
* `World.LocalAdmitted`: a call that is admitted, or the prune of an id that no flush has reserved

## Main results

* `Engine.wp_pruneLocalSegment`: what a prune removes
* `WorldInv.localStep`, `World.WalInv.localStep`: the invariants hold in all runs with prunes
-/

variable {X : Externals} {R : List SegmentId} {fs : Fs}

/-- Remove a segment: from the manifest and the readers, then its files. -/
def SegmentStore.removeSegment (id : SegmentId) : Exec X SegmentStore Unit := do
  onManifest (Manifest.removeSegments [id])
  Exec.modify fun s => { s with readers := s.readers.filter fun r => r.segmentId ≠ id }
  unlinkSegment id

/-- Remove a local segment. An id that is not there is no error. -/
def Engine.pruneLocalSegment (id : SegmentId) : Exec X Engine Unit :=
  onStore (SegmentStore.removeSegment id)

/-- An effect that takes part in the removal of a segment. -/
def Effect.Removes (id : SegmentId) : Effect → Prop
  | .manifestAppend _ e => e = removeEntry id
  | .segUnlink j _ => j = id
  | .sync f => f = .manifest
  | _ => False

theorem Effect.Removes.withinLimits {f : Effect} {id : SegmentId} (h : f.Removes id) (d : Fs) :
    WithinLimits X f d := by
  cases f with
  | datWrite j dat => exact h.elim
  | idxWrite j idx => exact h.elim
  | xfWrite j xf => exact h.elim
  | metaWrite j m => exact h.elim
  | stageAdopt hash j => exact h.elim
  | _ => trivial

theorem Effect.Removes.keepsWal {f : Effect} {id : SegmentId} (h : f.Removes id) : f.KeepsWal := by
  cases f with
  | walCreate n => exact h.elim
  | walHeader n => exact h.elim
  | walAppend n r => exact h.elim
  | walUnlink n => exact h.elim
  | _ => trivial

theorem Manifest.removeSegments_removes (id : SegmentId) :
    Exec.Frame (Effect.Removes id) (fun _ => ()) (Manifest.removeSegments (X := X) [id]) := by
  refine .bind (.forM fun j hj => ?_) fun _ => .bind (.effect rfl) fun _ => .modify fun _ => rfl
  rw [List.mem_singleton.mp hj]
  exact .ite (fun _ => .throw _) fun _ => .bind .get fun _ => .bind (.effect rfl) fun _ =>
    .modify fun _ => rfl

theorem SegmentStore.removeSegment_removes (id : SegmentId) :
    Exec.Frame (Effect.Removes id) (fun _ => ()) (removeSegment (X := X) id) :=
  .bind (.zoom (Manifest.removeSegments_removes id) fun _ _ _ => rfl) fun _ =>
    .bind (.modify fun _ => rfl) fun _ => .forM fun _ _ => .bind .fs fun _ =>
      .ite (fun _ => .effect rfl) fun _ => .pure _

/-- What removing a segment leaves. -/
structure Pruned (X : Externals) (id : SegmentId) (fs fs' : Fs) : Prop where
  registered : registered X fs' = (registered X fs).filter fun m => m.segmentId ≠ id
  segs : ∀ j ≠ id, fs'.segs j = fs.segs j

/-- **Removing a segment** keeps the store in step with its directory, also if there is no such segment. -/
theorem SegmentStore.wp_removeSegment {s : SegmentStore} {id : SegmentId} {clock : ℕ → ℕ}
    (h : StoreInv X R s fs) (hid : id < 2 ^ 64) (hR : id ∉ R) :
    Prog.wp (removeSegment (X := X) id)
      ⟨fun _ q fs' => StoreInv X R q.state fs' ∧ Pruned X id fs fs', fun _ _ _ => False, StoreRely X,
        StoreEffect X R⟩ ⟨s, clock⟩ fs := by
  rw [removeSegment, onManifest, Prog.wp_bind, Exec.wp_zoom]
  have hids : ∀ j ∈ [id], j < 2 ^ 64 := fun j hj => List.mem_singleton.mp hj ▸ hid
  refine Prog.wp_imp (Manifest.wp_removeSegments h.synced hids) ?_ (fun _ _ _ he => he)
  rintro _ p fs₁ ⟨hman, hreg, hsegs⟩
  obtain ⟨h₁, hids₁⟩ := h.unregister hman hreg hsegs
  have hfree : id ∉ registeredIds X fs₁ := by
    rw [hids₁]
    simp
  simp only [Prog.wp_bind, Exec.wp_modify]
  refine Prog.wp_imp (wp_unlinkSegment hfree hR) ?_ (fun _ _ _ he => he)
  rintro _ q fs₂ ⟨hq, hout⟩
  refine ⟨?_, ?_, fun j hj => by rw [hout.segs j hj, hsegs]⟩
  · rw [hq]
    exact h₁.outside hout hfree
  · rw [hout.registered_eq, hreg]
    simp

namespace Engine

variable {e : Engine} {clock : ℕ → ℕ} {id : SegmentId}

/-- **A prune** removes one segment, and nothing else of the engine. -/
theorem wp_pruneLocalSegment (h : Inv X R e fs) (hid : id < 2 ^ 64) (hR : id ∉ R) :
    Prog.wp (pruneLocalSegment (X := X) id)
      ⟨fun _ q fs' => Inv X R q.state fs' ∧ Pruned X id fs fs' ∧
          q.state = { e with segmentStore := q.state.segmentStore },
        fun _ _ _ => False, StoreRely X, StoreEffect X R⟩ ⟨e, clock⟩ fs := by
  rw [pruneLocalSegment, onStore, Exec.wp_zoom]
  refine Prog.wp_imp (SegmentStore.wp_removeSegment h.store hid hR) ?_ (fun _ _ _ he => he)
  rintro _ q fs' ⟨hstore, hpruned⟩
  exact ⟨⟨hstore, h.window⟩, hpruned, rfl⟩

theorem pruneLocalSegment_removes (id : SegmentId) :
    Exec.Frame (Effect.Removes id) walPart (pruneLocalSegment (X := X) id) :=
  onStore_frame (SegmentStore.removeSegment_removes id)

end Engine

/-! ### Runs with prunes -/

/-- The operations on a database, and the removal of a segment that is archived elsewhere. -/
inductive LocalOp
  | op (op : Op)
  | prune (id : SegmentId)

/-- A call that runs to its end, with its clock readings. -/
structure LocalCall where
  op : LocalOp
  clock : ℕ → ℕ := fun _ => 0

namespace World

variable {w : World} {c : LocalCall}

/-- The outcome of an operation or of a prune. -/
def localPerform (X : Externals) (w : World) (c : LocalCall) : Outcome :=
  match c.op with
  | .op op => w.perform X op c.clock
  | .prune id => w.onEngine X c.clock (Engine.pruneLocalSegment id)

/-- Make a call. -/
def localStep (X : Externals) (w : World) (c : LocalCall) : World := w.land X (w.localPerform X c)

/-- An admitted call, or the prune of an id that no flush has reserved. -/
def LocalAdmitted (X : Externals) (w : World) (c : LocalCall) : Prop :=
  match c.op with
  | .op op => w.Admitted X ⟨op, c.clock, none⟩
  | .prune id => id < 2 ^ 64 ∧ id ∉ w.reservedIds

instance (X : Externals) (w : World) (c : LocalCall) : Decidable (w.LocalAdmitted X c) := by
  obtain ⟨op, clock⟩ := c
  unfold LocalAdmitted
  rcases op <;> infer_instance

/-- The records of a call are ones that the reader of the WAL accepts, and rotations are ahead. -/
def LocalWalAdmitted (X : Externals) (w : World) (c : LocalCall) : Prop :=
  match c.op with
  | .op op => w.WalAdmitted X ⟨op, c.clock, none⟩
  | .prune _ => True

instance (X : Externals) (w : World) (c : LocalCall) : Decidable (w.LocalWalAdmitted X c) := by
  obtain ⟨op, clock⟩ := c
  unfold LocalWalAdmitted
  rcases op <;> infer_instance

/-- The effects of a prune take part in it. -/
theorem all_removes {id : SegmentId} {clock : ℕ → ℕ} :
    (disk X).All (fun f _ => f.Removes id)
      (w.onEngine X clock (Engine.pruneLocalSegment (X := X) id)).effects w.fs := by
  cases he : w.engine with
  | none =>
    simp only [onEngine, he]
    trivial
  | some e =>
    rw [(onEngine_some he).1]
    exact Prog.wp_guar ((Engine.pruneLocalSegment_removes id).wp fun _ _ => True) Device.all_true

end World

theorem kept_prune {w : World} {id : SegmentId} {clock : ℕ → ℕ} (h : WorldInv X w)
    (hid : id < 2 ^ 64) (hR : id ∉ w.reservedIds) :
    (w.onEngine X clock (Engine.pruneLocalSegment id)).Kept X w w.reservedIds := by
  refine kept_onEngine_of_wp h (fun e he => ?_) (World.all_removes.mono fun _ d hf => hf.withinLimits d)
  exact Prog.wp_imp (Engine.wp_pruneLocalSegment he hid hR) (fun _ _ _ hq => hq.1)
    fun _ _ _ hq => hq.elim

/-- **A call, or a prune**, keeps the invariant. -/
theorem WorldInv.localStep {w : World} {c : LocalCall} (h : WorldInv X w) (hc : w.LocalAdmitted X c) :
    WorldInv X (w.localStep X c) := by
  obtain ⟨op | id, clock⟩ := c
  · exact h.step hc
  · exact (kept_prune h hc.1 hc.2).inv _

/-- **A call, or a prune**, keeps the WAL in order. -/
theorem World.WalInv.localStep {w : World} {c : LocalCall} (h : w.WalInv X)
    (hc : w.LocalWalAdmitted X c) : (w.localStep X c).WalInv X := by
  obtain ⟨op | id, clock⟩ := c
  · exact h.step hc
  · have hkeeps : Exec.Frame Effect.KeepsWal Engine.walPart (Engine.pruneLocalSegment (X := X) id) :=
      (Engine.pruneLocalSegment_removes id).mono fun _ hf => hf.keepsWal
    have hnone : ∀ r ∈ appendedRecords (w.onEngine X clock (Engine.pruneLocalSegment id)).effects,
        r.Fits X := by
      intro r hr
      obtain ⟨n, hn⟩ := mem_appendedRecords.mp hr
      exact (World.all_removes.forall_mem _ hn).elim
    obtain ⟨hguar, hengine⟩ := h.kept_onEngine (fun e _ he => he.wp_keeps hkeeps) hnone
    exact ⟨h.log.run hguar, hengine⟩
