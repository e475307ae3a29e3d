import Edgestore.Strip

/-!
# Vector records

A vector is stored as the value of its key, under the namespace of the vectors of its namespace: two
bytes of dimensions, a byte for the type of its elements, and the elements.

## Main definitions

* `Dtype`, `VectorRecord`
* `encodeVectorRecord`, `decodeVectorRecord`: records as values
* `vectorNamespace`, `Engine.vectorPut`, `Engine.vectorDelete`

## Main results

* `decode_encodeVectorRecord`: decoding inverts encoding
* `VectorRecord.WellFormed.of_decode`: what is decoded is well-formed
-/

/-! ### Error messages -/

namespace IoError

/-- The text of an I/O error. -/
def text : IoError → String
  | alreadyExists => "entity already exists"
  | notFound => "entity not found"
  | unexpectedEof => "unexpected end of file"

end IoError

namespace EdgestoreError

/-- The text of an error. -/
def text : EdgestoreError → String
  | io kind => "I/O error: " ++ kind.text
  | corruptRecord msg => "corrupt WAL record: " ++ msg
  | corruptKey => "corrupt key encoding"
  | writerBusy => "another writer holds the database lock"
  | invalidOperation msg => "invalid operation: " ++ msg
  | namespaceTooLong len max =>
    "namespace length " ++ toString len ++ " exceeds maximum " ++ toString max
  | formatVersion expected got =>
    "WAL format version mismatch: expected " ++ toString expected ++ ", got " ++ toString got
  | segmentCorrupt msg => "segment corrupt: " ++ msg
  | manifestCorrupt msg => "manifest corrupt: " ++ msg
  | dimensionMismatch expected actual =>
    "dimension mismatch: expected " ++ toString expected ++ " bytes, got " ++ toString actual
  | corruptData msg => "corrupt data: " ++ msg
  | readOnly => "write attempted on a read-only engine"
  | replicationError msg => "replication error: " ++ msg
  | panicked msg => msg

end EdgestoreError

/-! ### Records -/

/-- The types of vector elements. -/
inductive Dtype
  | f32
  | f16
  | i8
  deriving DecidableEq, Repr

namespace Dtype

/-- The size of an element in bytes. -/
def elementSize : Dtype → ℕ
  | f32 => 4
  | f16 => 2
  | i8 => 1

/-- The byte of a type in a vector record. -/
def toByte : Dtype → Byte
  | f32 => 0
  | f16 => 1
  | i8 => 2

/-- The type a byte stands for. -/
def tryFrom (value : Byte) : Except EdgestoreError Dtype :=
  match value.val with
  | 0 => .ok f32
  | 1 => .ok f16
  | 2 => .ok i8
  | n => .error (.invalidOperation ("unknown dtype value: " ++ toString n))

@[simp] theorem tryFrom_toByte (dtype : Dtype) : tryFrom dtype.toByte = .ok dtype := by
  cases dtype <;> rfl

end Dtype

/-- A vector record. `dims` is a `u16`. -/
structure VectorRecord where
  dims : ℕ
  dtype : Dtype
  data : Bytes
  deriving DecidableEq, Repr

/-- A record whose data is as long as its dimensions say. -/
structure VectorRecord.WellFormed (record : VectorRecord) : Prop where
  dims_lt : record.dims < 256 ^ 2
  length_data : record.data.length = record.dims * record.dtype.elementSize

/-- Encode a vector record: its dimensions, the byte of its type, its data. -/
def encodeVectorRecord (record : VectorRecord) : Except EdgestoreError Bytes :=
  let expected := record.dims * record.dtype.elementSize
  if record.data.length ≠ expected then .error (.dimensionMismatch expected record.data.length)
  else .ok (beBytes 2 record.dims ++ record.dtype.toByte :: record.data)

/-- Decode a vector record. -/
def decodeVectorRecord (bytes : Bytes) : Except EdgestoreError VectorRecord :=
  match bytes with
  | b₀ :: b₁ :: b₂ :: data => do
    let dims := ofBe [b₀, b₁]
    let dtype ← Dtype.tryFrom b₂
    let expected := dims * dtype.elementSize
    if data.length ≠ expected then .error (.dimensionMismatch expected data.length)
    else return ⟨dims, dtype, data⟩
  | _ => .error (.corruptData "vector record too short")

/-- Only well-formed records are encoded. -/
theorem encodeVectorRecord_eq_ok {record : VectorRecord} {bytes : Bytes} :
    encodeVectorRecord record = .ok bytes ↔
      record.data.length = record.dims * record.dtype.elementSize ∧
        bytes = beBytes 2 record.dims ++ record.dtype.toByte :: record.data := by
  unfold encodeVectorRecord
  by_cases hlen : record.data.length = record.dims * record.dtype.elementSize
  · simp only [hlen, ne_eq, not_true_eq_false, if_false, true_and, Except.ok.injEq]
    exact eq_comm
  · simp [hlen]

/-- **Decoding inverts encoding.** -/
theorem decode_encodeVectorRecord {record : VectorRecord} {bytes : Bytes}
    (hdims : record.dims < 256 ^ 2) (h : encodeVectorRecord record = .ok bytes) :
    decodeVectorRecord bytes = .ok record := by
  obtain ⟨hlen, rfl⟩ := encodeVectorRecord_eq_ok.mp h
  -- the dimensions take two bytes
  obtain ⟨b₀, b₁, hb⟩ : ∃ b₀ b₁, beBytes 2 record.dims = [b₀, b₁] :=
    List.length_eq_two.mp (length_beBytes 2 record.dims)
  have hofBe : ofBe [b₀, b₁] = record.dims := by rw [← hb, ofBe_beBytes_of_lt hdims]
  rw [hb]
  change (do
    let dtype ← Dtype.tryFrom record.dtype.toByte
    let expected := ofBe [b₀, b₁] * dtype.elementSize
    if record.data.length ≠ expected then .error (.dimensionMismatch expected record.data.length)
    else return ⟨ofBe [b₀, b₁], dtype, record.data⟩ : Except EdgestoreError VectorRecord) = _
  rw [Dtype.tryFrom_toByte, hofBe]
  simp only [bind, Except.bind, hlen, ne_eq, not_true_eq_false, if_false]
  rfl

/-- **What is decoded is well-formed.** -/
theorem VectorRecord.WellFormed.of_decode {bytes : Bytes} {record : VectorRecord}
    (h : decodeVectorRecord bytes = .ok record) : record.WellFormed := by
  unfold decodeVectorRecord at h
  split at h
  case h_2 => cases h
  case h_1 b₀ b₁ b₂ data =>
    cases hd : Dtype.tryFrom b₂ with
    | error err =>
      rw [hd] at h
      cases h
    | ok dtype =>
      rw [hd] at h
      simp only [bind, Except.bind] at h
      split at h
      case isTrue => cases h
      case isFalse hlen =>
        cases h
        exact ⟨ofLe_lt [b₁, b₀], not_not.mp hlen⟩

/-! ### The namespace of vectors -/

/-- The namespace of the vectors of a namespace. -/
def vectorNamespace (ns : Bytes) : Bytes := vectorIndex.nsPrefix ++ ns

variable {X : Externals}

namespace Engine

/-- Store a vector. -/
def vectorPut (ns key : Bytes) (dims : ℕ) (dtype : Dtype) (data : Bytes) : Exec X Engine Lsn := do
  let expected := dims * dtype.elementSize
  if data.length ≠ expected then Prog.throw (.dimensionMismatch expected data.length)
  else
    let encoded ← Prog.lift (encodeVectorRecord ⟨dims, dtype, data⟩)
    put (vectorNamespace ns) key encoded

/-- Delete a vector. -/
def vectorDelete (ns key : Bytes) : Exec X Engine Lsn := delete (vectorNamespace ns) key

end Engine
