import Edgestore.WorldInv
import Edgestore.PlainExternals

/-!
# Segment ids are unique

Ids are taken from the counter of the segment store, but a compaction takes them from the manifest,
and it replaces the store by one whose counter is rebuilt from the manifest. Ids stay unique as long
as the manifest lists, whenever that happens, an id at least as high as those of the flushes in
flight. Otherwise a flush overwrites the files of another segment.

## Main definitions

* `World.IdsDistinct X w`: no id is in use twice
* `World.WritesOwnFiles X w c`: a call touches no file of a segment that is not its own

## Main results

* `World.segmentIds_unique`: both hold throughout admitted runs
* `World.compaction_reuses_reserved_id`: a compaction while a flush is in flight hands its id out again
-/

namespace World

/-- No two segments, registered or in flight, have the same id. -/
def IdsDistinct (X : Externals) (w : World) : Prop :=
  (registeredIds X w.fs ++ w.reservedIds).Nodup

/-- Every file that a call writes, replaces or unlinks belongs to no registered segment and to no
flush in flight but the one the call is about. -/
def WritesOwnFiles (X : Externals) (w : World) (c : Call) : Prop :=
  w.EffectsMeet X (fun e fs => ∀ id ∈ e.target, id ∉ registeredIds X fs ∧ id ∉ w.others c.op) c

instance (X : Externals) (w : World) : Decidable (w.IdsDistinct X) :=
  inferInstanceAs (Decidable (List.Nodup _))

instance (X : Externals) (w : World) (c : Call) : Decidable (w.WritesOwnFiles X c) :=
  inferInstanceAs (Decidable (w.EffectsMeet X _ c))

variable {X : Externals}

theorem idsDistinct_of_inv {w : World} (h : WorldInv X w) : w.IdsDistinct X := by
  refine List.nodup_append.mpr ⟨h.fs.disk.nodup, h.nodup, fun a ha b hb hab => ?_⟩
  obtain ⟨f, hf, rfl⟩ := List.mem_map.mp hb
  exact (h.fs.held f hf).1 (hab ▸ ha)

theorem writesOwnFiles_of_inv {w : World} {c : Call} (h : WorldInv X w) (hc : w.Admitted X c) :
    w.WritesOwnFiles X c := by
  have hall : (disk X).All (fun e fs => ∀ id ∈ e.target, id ∉ registeredIds X fs ∧
      id ∉ w.others c.op) (w.effects X c) w.fs :=
    (h.all_storeEffect hc).mono fun e fs he id ht => target_not_registered he ht
  obtain ⟨op, clock, stop⟩ := c
  obtain rfl : stop = none := hc.stop
  exact hall

/-- **Segment ids are unique**: in a run of admitted calls, no two segments ever have the same id,
and every call writes only files of its own segments. -/
theorem segmentIds_unique {calls : List Call} (h : Run.All (step X) (Admitted X) {} calls) :
    (Run.from (step X) {} calls).IdsDistinct X ∧
      Run.All (step X) (fun w c => w.IdsDistinct X ∧ w.WritesOwnFiles X c) {} calls :=
  ⟨idsDistinct_of_inv (worldInv_run h),
    h.imp_of_invariant (I := WorldInv X) (fun _ _ hw hc => hw.step hc)
      (fun _ _ hw hc => ⟨idsDistinct_of_inv hw, writesOwnFiles_of_inv hw hc⟩) worldInv_empty⟩

/-- A put of a one-byte value under a one-byte key. -/
def putByte (key val : Byte) : Call := { op := .put [1] [key] [val] }

/-- A compaction with a flush in flight whose id the manifest covers. -/
def coveredRun : List Call :=
  [{ op := .open {} }, putByte 1 1, { op := .beginFlush }, putByte 2 2, { op := .flushToSegments },
    { op := .compactOnce .given, clock := fun _ => 1 }, { op := .execute 0 },
    { op := .finalizeFlush 0 }]

theorem segmentIds_unique_coveredRun :
    Run.All (step plainExternals) (Admitted plainExternals) {} coveredRun ∧
      (Run.from (step plainExternals) {} coveredRun).IdsDistinct plainExternals ∧
      Run.All (step plainExternals)
        (fun w c => w.IdsDistinct plainExternals ∧ w.WritesOwnFiles plainExternals c) {} coveredRun :=
  ⟨by decide +kernel, segmentIds_unique (by decide +kernel)⟩

/-- A compaction with a flush in flight whose id the manifest does not cover. -/
def uncoveredRun : List Call :=
  [{ op := .open {} }, putByte 1 1, { op := .beginFlush }, { op := .compactOnce .given },
    { op := .flushToSegments }]

/-- **A compaction hands a reserved id out again**: the segment that the next flush registers has the
id of the flush in flight, which then writes over its files. -/
theorem compaction_reuses_reserved_id :
    ¬ (Run.from (step plainExternals) {} uncoveredRun).IdsDistinct plainExternals ∧
      ¬ (Run.from (step plainExternals) {} uncoveredRun).WritesOwnFiles plainExternals
        { op := .execute 0 } := by
  decide +kernel

end World
