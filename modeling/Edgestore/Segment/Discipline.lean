import Edgestore.Segment.Flush

/-!
# The discipline of the segment store

The store registers a segment only when its files are complete and its id is new, writes and unlinks
only the files of segments that are not registered, and writes manifest frames only at the end of the
manifest. An effect that keeps this discipline keeps the directory well formed.

Ids that a flush in flight has reserved belong to that flush: they are a parameter, and no other
operation touches their files.

## Main definitions

* `registeredIds X fs`: the ids of the segments in the manifest
* `DiskInv X fs`: the registered segments have distinct ids and well-formed files
* `StoreEffect X R`: effects that keep the discipline, with the ids `R` reserved by others
* `layers X fs`: the tables of the registered segments, in the order of the manifest

## Main results

* `DiskInv.apply`: the discipline keeps the directory well formed
* `registered_apply`: what an effect does to the registered segments
-/

variable {X : Externals}

/-- The ids of the segments in the manifest. -/
def registeredIds (X : Externals) (fs : Fs) : List SegmentId :=
  (registered X fs).map SegmentMeta.segmentId

/-- The registered segments have distinct ids of 64 bits and well-formed files. -/
structure DiskInv (X : Externals) (fs : Fs) : Prop where
  nodup : (registeredIds X fs).Nodup
  wf : ∀ id ∈ registeredIds X fs, id < 2 ^ 64 ∧ SegmentWf X (fs.segs id)

/-- A segment that may be registered: its id is new, of 64 bits and reserved by nobody else, and its
files are complete. -/
structure Registrable (X : Externals) (R : List SegmentId) (fs : Fs) (id : SegmentId) : Prop where
  lt : id < 2 ^ 64
  wf : SegmentWf X (fs.segs id)
  fresh : id ∉ registeredIds X fs
  free : id ∉ R

/-- The manifest frames the store writes: additions of registrable segments, and removals. -/
def StoreFrame (X : Externals) (R : List SegmentId) (fs : Fs) (e : ManifestEntry) : Prop :=
  (∃ m, e = addEntry m ∧ Registrable X R fs m.segmentId) ∨ ∃ id, e = removeEntry id

/-- The segment whose files an effect writes or unlinks. -/
def Effect.target : Effect → Option SegmentId
  | .datWrite id _ => some id
  | .idxWrite id _ => some id
  | .xfWrite id _ => some id
  | .metaWrite id _ => some id
  | .segUnlink id _ => some id
  | .stageAdopt _ id => some id
  | _ => none

/-- Effects that keep the discipline, with the ids `R` reserved by others. -/
def StoreEffect (X : Externals) (R : List SegmentId) : Effect → Fs → Prop
  | .manifestCreate, fs => fs.manifest = none
  | .manifestHeader, fs => fs.manifest = some []
  | .manifestAppend pos e, fs => (∃ xs, ManifestLog X fs xs) ∧
      pos = (fs.manifest.getD []).length ∧ (X.manifestJson e).length ≤ maxEntryLen ∧
      StoreFrame X R fs e
  | e, fs => ∀ id ∈ e.target, id ∉ registeredIds X fs ∧ id ∉ R

/-- A frame is written only behind a manifest without torn rest. -/
def AppendsClean (X : Externals) : Effect → Fs → Prop
  | .manifestAppend _ _, fs => ManifestClean X fs
  | _, _ => True

/-- What the store relies on: files within the limits of their readers, and no torn manifest frame
in front of a new one. -/
def StoreRely (X : Externals) (e : Effect) (fs : Fs) : Prop := WithinLimits X e fs ∧ AppendsClean X e fs

/-- The tables of the registered segments, in the order of the manifest. -/
def layers (X : Externals) (fs : Fs) : List (List (Bytes × MemEntry)) :=
  (registeredIds X fs).map fun id => (fs.segs id).table

/-! ### What an effect does to the registered segments -/

/-- The registered segments after an effect of the store. -/
def registeredAfter (e : Effect) (segs : List SegmentMeta) : List SegmentMeta :=
  match e with
  | .manifestAppend _ f => applyEntry segs f
  | _ => segs

theorem registered_congr {fs fs' : Fs} (h : fs'.manifest = fs.manifest) :
    registered X fs' = registered X fs := by
  rw [registered, registered, h]

theorem registered_none {fs : Fs} (h : fs.manifest = none) : registered X fs = [] := by
  rw [registered, h]
  rfl

variable {R : List SegmentId} {e : Effect} {fs : Fs}

theorem registered_manifestCreate (h : fs.manifest = none) :
    registered X (applyEffect X .manifestCreate fs) = registered X fs := by
  rw [registered_none h]
  rfl

theorem manifest_manifestHeader (h : fs.manifest = some []) :
    (applyEffect X .manifestHeader fs).manifest = some manifestHeader := by
  rw [applyEffect, Fs.writeManifest, h]
  rfl

theorem registered_header (h : fs.manifest = some manifestHeader) : registered X fs = [] := by
  rw [registered, h]
  rfl

/-- **The registered segments** change only by manifest frames. -/
theorem registered_apply (h : StoreEffect X R e fs) (hc : AppendsClean X e fs) :
    registered X (applyEffect X e fs) = registeredAfter e (registered X fs) := by
  cases e with
  | manifestCreate => exact registered_manifestCreate h
  | manifestHeader =>
    have hnil : registered X fs = [] := by
      rw [registered, (h : fs.manifest = some [])]
      rfl
    rw [registered_header (manifest_manifestHeader h)]
    exact hnil.symm
  | manifestAppend pos e =>
    obtain ⟨⟨xs, hlog⟩, hpos, hjson, -⟩ := h
    rw [(hlog.append hc hjson hpos).1.registered_eq, replay_append, hlog.registered_eq]
    rfl
  | _ => exact registered_congr rfl

theorem target_not_registered (h : StoreEffect X R e fs) {id : SegmentId}
    (ht : e.target = some id) : id ∉ registeredIds X fs ∧ id ∉ R := by
  cases e <;> first | (cases ht; done) | exact h id ht

/-- The files of other segments than the target stay. -/
theorem segs_apply_of_ne {id : SegmentId} (h : e.target ≠ some id) :
    (applyEffect X e fs).segs id = fs.segs id := by
  cases e <;>
    first
    | rfl
    | (simp only [Effect.target, ne_eq, Option.some.injEq] at h
       simp only [applyEffect, Fs.setStaged]
       exact Fs.segs_setSegment_of_ne _ fs (Ne.symm h))

/-- The files of registered segments stay. -/
theorem segs_apply_registered (h : StoreEffect X R e fs) {id : SegmentId}
    (hid : id ∈ registeredIds X fs) : (applyEffect X e fs).segs id = fs.segs id :=
  segs_apply_of_ne fun ht => (target_not_registered h ht).1 hid

/-- The files of reserved segments stay. -/
theorem segs_apply_reserved (h : StoreEffect X R e fs) {id : SegmentId} (hid : id ∈ R) :
    (applyEffect X e fs).segs id = fs.segs id :=
  segs_apply_of_ne fun ht => (target_not_registered h ht).2 hid

/-- What an effect does to the list of registered ids. -/
theorem registeredIds_apply (h : StoreEffect X R e fs) (hc : AppendsClean X e fs) :
    ((∀ pos f, e ≠ .manifestAppend pos f) ∧
      registeredIds X (applyEffect X e fs) = registeredIds X fs) ∨
    (∃ pos m, e = .manifestAppend pos (addEntry m) ∧ Registrable X R fs m.segmentId ∧
      registeredIds X (applyEffect X e fs) = registeredIds X fs ++ [m.segmentId]) ∨
    ∃ pos id, e = .manifestAppend pos (removeEntry id) ∧
      registeredIds X (applyEffect X e fs) = (registeredIds X fs).filter (· ≠ id) := by
  have hreg := registered_apply h hc
  simp only [registeredIds, hreg]
  cases e with
  | manifestAppend pos e =>
    obtain ⟨-, -, -, ⟨m, rfl, hm⟩ | ⟨id, rfl⟩⟩ := h
    · exact .inr (.inl ⟨pos, m, rfl, hm, by simp [registeredAfter]⟩)
    · refine .inr (.inr ⟨pos, id, rfl, ?_⟩)
      rw [registeredAfter, applyEntry_remove, List.filter_map]
      rfl
  | _ => exact .inl ⟨fun _ _ h => (by cases h), rfl⟩

/-- **The discipline keeps the directory well formed.** -/
theorem DiskInv.apply (h : DiskInv X fs) (he : StoreEffect X R e fs) (hc : AppendsClean X e fs) :
    DiskInv X (applyEffect X e fs) := by
  have hsegs : ∀ id ∈ registeredIds X fs, (applyEffect X e fs).segs id = fs.segs id :=
    fun id hid => segs_apply_registered he hid
  rcases registeredIds_apply he hc with ⟨-, heq⟩ | ⟨pos, m, rfl, hm, heq⟩ | ⟨pos, id, rfl, heq⟩
  · refine ⟨heq ▸ h.nodup, fun id hid => ?_⟩
    rw [heq] at hid
    rw [hsegs id hid]
    exact h.wf id hid
  · refine ⟨?_, fun id hid => ?_⟩
    · rw [heq]
      refine List.nodup_append.mpr ⟨h.nodup, List.nodup_singleton _, fun a ha b hb hab => ?_⟩
      exact hm.fresh (List.mem_singleton.mp hb ▸ hab ▸ ha)
    · rw [heq] at hid
      rcases List.mem_append.mp hid with hid | hid
      · rw [hsegs id hid]
        exact h.wf id hid
      · obtain rfl := List.mem_singleton.mp hid
        exact ⟨hm.lt, hm.wf⟩
  · refine ⟨?_, fun id hid => ?_⟩
    · rw [heq]
      exact h.nodup.filter _
    · rw [heq] at hid
      have hmem := (List.mem_filter.mp hid).1
      rw [hsegs id hmem]
      exact h.wf id hmem
