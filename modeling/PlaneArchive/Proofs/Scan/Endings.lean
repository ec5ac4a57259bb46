import PlaneArchive.Scan.Expansion

/-! # The endings of names

Endings are compared as bytes. A character of another text never starts within a character, so a
name whose bytes end in those of an ending is a text followed by that ending.
-/
namespace PlaneArchive

namespace Utf8

theorem getElem?_encode {text : String} {position : String.Pos.Raw}
    (h : position < text.rawEndPos) :
    (encode text)[position.byteIdx]? = some (text.getUTF8Byte position h) := by
  have hlt : position.byteIdx < (encode text).length := h
  rw [List.getElem?_eq_getElem hlt]
  rfl

/-- Where the bytes of an ending start, a character starts. -/
theorem isValid_of_suffix {name ending : String} {front : Bytes} (hne : ending ≠ "")
    (h : front ++ encode ending = encode name) :
    String.Pos.Raw.IsValid name ⟨front.length⟩ := by
  have hstart : (0 : String.Pos.Raw) < ending.rawEndPos := by
    rw [String.Pos.Raw.lt_iff, String.byteIdx_rawEndPos, String.Pos.Raw.byteIdx_zero,
      Nat.pos_iff_ne_zero]
    intro hzero
    exact hne (String.utf8ByteSize_eq_zero_iff.mp hzero)
  have hlt : (⟨front.length⟩ : String.Pos.Raw) < name.rawEndPos := by
    rw [String.Pos.Raw.lt_iff, String.byteIdx_rawEndPos, ← length_encode, ← h, List.length_append]
    exact Nat.lt_add_of_pos_right hstart
  have hsame : name.getUTF8Byte ⟨front.length⟩ hlt = ending.getUTF8Byte 0 hstart := by
    rw [← Option.some_inj, ← getElem?_encode hlt, ← getElem?_encode hstart, ← h,
      List.getElem?_append_right Nat.le.refl, Nat.sub_self]
    rfl
  refine String.Pos.Raw.isValid_iff_isUTF8FirstByte.mpr (.inr ⟨hlt, ?_⟩)
  rw [hsame]
  exact String.isUTF8FirstByte_getUTF8Byte_zero

theorem encode_suffix_iff {name ending : String} :
    encode ending <:+ encode name ↔ ∃ stem, name = stem ++ ending := by
  constructor
  · rintro ⟨front, hfront⟩
    by_cases hempty : ending = ""
    · exact ⟨name, by rw [hempty, String.append_empty]⟩
    · obtain ⟨stem, rest, rfl, hstem⟩ :=
        String.Pos.Raw.isValid_iff_exists_append.mp (isValid_of_suffix hempty hfront)
      rw [encode_append] at hfront
      have hlength : front.length = (encode stem).length :=
        congrArg String.Pos.Raw.byteIdx hstem
      exact ⟨stem, by rw [encode_injective (List.append_inj hfront hlength).2]⟩
  · rintro ⟨stem, rfl⟩
    rw [encode_append]
    exact List.suffix_append _ _

end Utf8

namespace Item

theorem isGzip_iff {name : String} : isGzip name = true ↔ ∃ stem, name = stem ++ ".gz" := by
  rw [isGzip, Bytes.endsWith, List.isSuffixOf_iff_suffix]
  exact Utf8.encode_suffix_iff

theorem isTar_iff {name : String} : isTar name = true ↔ ∃ stem, name = stem ++ ".tar" := by
  rw [isTar, Bytes.endsWith, List.isSuffixOf_iff_suffix]
  exact Utf8.encode_suffix_iff

theorem isGzip_append (stem : String) : isGzip (stem ++ ".gz") = true := isGzip_iff.mpr ⟨stem, rfl⟩

/-- No name has both endings. -/
theorem isTar_of_isGzip {name : String} (h : isGzip name = true) : isTar name = false := by
  rw [Bool.eq_false_iff]
  intro htar
  have hgzipEnding : gzipEnding = [46, 103, 122] := by rfl
  have htarEnding : tarEnding = [46, 116, 97, 114] := by rfl
  rw [isGzip, Bytes.endsWith, List.isSuffixOf_iff_suffix, hgzipEnding] at h
  rw [isTar, Bytes.endsWith, List.isSuffixOf_iff_suffix, htarEnding] at htar
  obtain ⟨front, hfront⟩ := h
  obtain ⟨other, hother⟩ := htar
  have hlast := congrArg List.getLast? (hfront.trans hother.symm)
  simp at hlast

/-- Exactly one ending is taken off. -/
theorem stripGzip_append (stem : String) : stripGzip (stem ++ ".gz") = stem := by
  have hending : (".gz" : String).length = 3 := by rfl
  rw [stripGzip, if_pos (isGzip_append stem), String.length_append, hending, Nat.add_sub_cancel,
    String.toList_append, ← String.length_toList, List.take_left, String.ofList_toList]

end Item

end PlaneArchive
