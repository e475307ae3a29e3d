import Edgestore.Lib.Bytes

/-!
# Strings as bytes

The UTF-8 bytes of a string, and the string of bytes that are valid UTF-8.

## Main definitions

* `utf8Bytes`, `ofUtf8`

## Main results

* `ofUtf8_eq_some`: some bytes are read as a string when they are its bytes
-/

/-- The bytes of a string. -/
def utf8Bytes (s : String) : Bytes := s.toByteArray.data.toList.map UInt8.toFin

/-- The string of some bytes, if they are valid. -/
def ofUtf8 (bs : Bytes) : Option String := String.fromUTF8? ⟨(bs.map UInt8.ofFin).toArray⟩

theorem map_ofFin_toFin (l : List UInt8) : (l.map UInt8.toFin).map UInt8.ofFin = l := by
  rw [List.map_map]
  exact List.map_id'' (fun b => UInt8.ofFin_toFin b) l

theorem map_toFin_ofFin (bs : Bytes) : (bs.map UInt8.ofFin).map UInt8.toFin = bs := by
  rw [List.map_map]
  exact List.map_id'' (fun b => UInt8.toFin_ofFin b) bs

/-- **Bytes are read as a string** when they are its bytes. -/
theorem ofUtf8_eq_some {bs : Bytes} {s : String} : ofUtf8 bs = some s ↔ utf8Bytes s = bs := by
  unfold ofUtf8 String.fromUTF8?
  constructor
  · intro h
    split at h
    case isTrue hvalid =>
      cases h
      exact map_toFin_ofFin bs
    case isFalse => cases h
  · rintro rfl
    have harray : (⟨((utf8Bytes s).map UInt8.ofFin).toArray⟩ : ByteArray) = s.toByteArray := by
      unfold utf8Bytes
      rw [map_ofFin_toFin, Array.toArray_toList]
    rw [harray, dif_pos s.isValidUTF8]
    rfl

@[simp] theorem ofUtf8_utf8Bytes (s : String) : ofUtf8 (utf8Bytes s) = some s := ofUtf8_eq_some.mpr rfl

/-! ### Lengths -/

/-- The number of bytes of some characters. -/
def utf8Len (cs : List Char) : ℕ := (cs.map Char.utf8Size).sum

theorem length_utf8Bytes_ofList (cs : List Char) : (utf8Bytes (String.ofList cs)).length = utf8Len cs := by
  have hsize : (utf8Bytes (String.ofList cs)).length = (String.ofList cs).toByteArray.size := by
    rw [utf8Bytes, List.length_map, Array.length_toList]
    rfl
  rw [hsize, String.toByteArray_ofList, List.utf8Encode, List.size_toByteArray, utf8Len,
    List.length_flatMap]
  simp only [String.length_utf8EncodeChar]

theorem length_utf8Bytes (s : String) : (utf8Bytes s).length = utf8Len s.toList := by
  rw [← length_utf8Bytes_ofList, String.ofList_toList]

theorem utf8Len_append (cs ds : List Char) : utf8Len (cs ++ ds) = utf8Len cs + utf8Len ds := by
  rw [utf8Len, List.map_append, List.sum_append]
  rfl

/-- A character has at least one byte. -/
theorem length_le_utf8Len (cs : List Char) : cs.length ≤ utf8Len cs := by
  induction cs with
  | nil => exact le_rfl
  | cons c cs ih =>
    rw [← List.singleton_append, utf8Len_append, List.length_append]
    have hc : 1 ≤ utf8Len [c] := Char.utf8Size_pos c
    exact Nat.add_le_add hc ih
