import Edgestore.Engine

/-!
# Stripping index records from segments

After a segment has been archived, its text or vector index records can be removed: the remaining
entries are written as a new segment, which replaces the old one.

## Main definitions

* `Engine.stripIndex`: the rewrite, for a namespace prefix and a flag
* `Engine.stripTextIndex`, `Engine.stripVectorIndex`: its two instances
-/

variable {X : Externals}

/-- What `strip_text_index` and `strip_vector_index` differ in. -/
structure IndexKind where
  callName : String
  nsPrefix : Bytes
  isStripped : SegmentMeta → Bool
  setStripped : SegmentMeta → SegmentMeta

/-- The text index: namespaces that start with `__text__`. -/
def textIndex : IndexKind where
  callName := "strip_text_index"
  nsPrefix := [95, 95, 116, 101, 120, 116, 95, 95]
  isStripped := SegmentMeta.textIndexStripped
  setStripped m := { m with textIndexStripped := true }

/-- The vector index: namespaces that start with `__vec__`. -/
def vectorIndex : IndexKind where
  callName := "strip_vector_index"
  nsPrefix := [95, 95, 118, 101, 99, 95, 95]
  isStripped := SegmentMeta.vectorIndexStripped
  setStripped m := { m with vectorIndexStripped := true }

/-- Whether a record stays: its namespace is not one of the index, or its key is malformed. -/
def IndexKind.keeps (kind : IndexKind) (k : Bytes) : Bool :=
  match decodeKey k with
  | .ok (ns, _) => ¬ kind.nsPrefix <+: ns
  | .error _ => true

/-- The exclusive upper bound of the scan: 1024 bytes `0xFF`. -/
def stripScanKey : Bytes := List.replicate 1024 255

namespace Engine

/-- Rewrite a segment without the records of an index. A segment that is already stripped, holds no
such record, or holds nothing else is left as it is. -/
def stripIndex (kind : IndexKind) (id : SegmentId) : Exec X Engine SegmentMeta := do
  let store := (← Exec.get).segmentStore
  match store.manifest.segments.find? fun m => m.segmentId = id with
  | none => Prog.throw (.invalidOperation s!"{kind.callName}: segment {id} not found")
  | some oldMeta =>
    if kind.isStripped oldMeta then return oldMeta
    else
      match store.readerFor id with
      | none => Prog.throw (.invalidOperation s!"{kind.callName}: no reader for segment {id}")
      | some reader =>
        let entries ← Prog.lift (reader.rangeScan (← Exec.fs) [] stripScanKey)
        let filtered := entries.filter fun p => kind.keeps p.1
        if filtered.length = oldMeta.recordCount ∨ filtered = [] then return oldMeta
        else
          let newId ← onStore SegmentStore.allocSegmentId
          let written ← segmentFlush newId (← Exec.get).config.cohortWindowSecs filtered
          let newMeta := kind.setStripped written
          let newReader ← Prog.lift (openReader newId ((← Exec.fs).segs newId))
          onStore (SegmentStore.replaceSegment id newMeta newReader)
          return newMeta

/-- Rewrite a segment without its `__text__` records. -/
def stripTextIndex (id : SegmentId) : Exec X Engine SegmentMeta := stripIndex textIndex id

/-- Rewrite a segment without its `__vec__` records. -/
def stripVectorIndex (id : SegmentId) : Exec X Engine SegmentMeta := stripIndex vectorIndex id

end Engine
