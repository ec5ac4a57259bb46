import PlaneArchive.Proofs.Wire.Varint
import PlaneArchive.Wire.Field

/-! # Fields read back

What a writer puts down field by field is read back as the same fields in the same order, whatever
follows.
-/
namespace PlaneArchive.Wire

variable {limit number n : ℕ} {content rest : Bytes}

theorem decode_encode_key (hn : 0 < number) (hk : number < 2 ^ 29) (wireType : WireType)
    (rest : Bytes) :
    Key.decode (Key.encode ⟨number, wireType⟩ ++ rest) = .ok (⟨number, wireType⟩, rest) := by
  have hcode : wireType.code < 8 := by cases wireType <;> decide
  have hmod : (number * 8 + wireType.code) % 8 = wireType.code := by omega
  have hdiv : (number * 8 + wireType.code) / 8 = number := by omega
  have hcoded : WireType.ofCode? wireType.code = some wireType := by cases wireType <;> rfl
  have hbig : ¬ UInt32.size ≤ number * 8 + wireType.code := by
    unfold UInt32.size
    omega
  have hzero : number ≠ 0 := by omega
  simp only [Key.encode, Key.decode, Varint.decode_encode (show number * 8 + wireType.code < 2 ^ 64
    by omega), if_neg hbig, hmod, hcoded, hdiv, if_neg hzero]

theorem decodeField_encodeNumber (h : 0 < number) (hk : number < 2 ^ 29) (hn : n < 2 ^ 64)
    (limit : ℕ) (rest : Bytes) :
    decodeField limit (encodeNumber number n ++ rest) = .ok (⟨number, .varint n⟩, rest) := by
  simp only [encodeNumber, decodeField, List.append_assoc,
    decode_encode_key h hk, decodeScalar, Varint.decode_encode hn,
    Except.map]

theorem decodeField_encodeDelimited (h : 0 < number) (hk : number < 2 ^ 29)
    (hc : content.length < 2 ^ 64) (limit : ℕ) (rest : Bytes) :
    decodeField limit (encodeDelimited number content.length content ++ rest) =
      .ok (⟨number, .delimited content⟩, rest) := by
  simp only [encodeDelimited, decodeField, List.append_assoc,
    decode_encode_key h hk, decodeScalar, Varint.decode_encode hc,
    Bytes.split?_append]

/-- `bytes` stand for `fields`, whatever follows them. -/
def Reads (limit : ℕ) (bytes : Bytes) (fields : List Field) : Prop :=
  ∀ rest, decodeFields limit (bytes ++ rest) = (decodeFields limit rest).map (fields ++ ·)

namespace Reads

variable {bytes more : Bytes} {fields others : List Field}

theorem nil : Reads limit [] [] := by
  intro rest
  rw [List.nil_append]
  cases decodeFields limit rest <;> rfl

theorem append (h : Reads limit bytes fields) (k : Reads limit more others) :
    Reads limit (bytes ++ more) (fields ++ others) := by
  intro rest
  rw [List.append_assoc, h, k]
  cases decodeFields limit rest with
  | error e => rfl
  | ok tail => simp [Except.map]

theorem flatMap {α : Type} {xs : List α} {encode : α → Bytes} {field : α → Field}
    (h : ∀ x ∈ xs, Reads limit (encode x) [field x]) :
    Reads limit (xs.flatMap encode) (xs.map field) := by
  induction xs with
  | nil => exact nil
  | cons x xs ih =>
    rw [List.flatMap_cons, List.map_cons]
    exact (h x List.mem_cons_self).append (ih fun y hy => h y (List.mem_cons_of_mem _ hy))

theorem singleton {field : Field} (hne : bytes ≠ [])
    (h : ∀ rest, decodeField limit (bytes ++ rest) = .ok (field, rest)) :
    Reads limit bytes [field] := by
  intro rest
  obtain ⟨byte, bytes, rfl⟩ := List.exists_cons_of_ne_nil hne
  have hd := h rest
  rw [List.cons_append] at hd ⊢
  rw [decodeFields]
  split
  · next e he =>
    rw [hd] at he
    cases he
  · next f r he =>
    rw [hd] at he
    cases he
    cases decodeFields limit rest <;> rfl

theorem decodeFields_eq (h : Reads limit bytes fields) : decodeFields limit bytes = .ok fields := by
  have hend := h []
  rw [List.append_nil] at hend
  rw [hend, decodeFields]
  simp [Except.map]

theorem ofNumber (h : 0 < number) (hk : number < 2 ^ 29) (hn : n < 2 ^ 64) :
    Reads limit (encodeNumber number n) [⟨number, .varint n⟩] := by
  apply singleton
  · intro he
    exact Varint.encode_ne_nil _ (List.append_eq_nil_iff.mp he).2
  · exact decodeField_encodeNumber h hk hn limit

theorem ofDelimited (h : 0 < number) (hk : number < 2 ^ 29) (hc : content.length < 2 ^ 64) :
    Reads limit (encodeDelimited number content.length content)
      [⟨number, .delimited content⟩] := by
  apply singleton
  · intro he
    exact Varint.encode_ne_nil _ (List.append_eq_nil_iff.mp (List.append_eq_nil_iff.mp he).1).2
  · exact decodeField_encodeDelimited h hk hc limit

end Reads

theorem length_le_encodeDelimited (number length : ℕ) (content : Bytes) :
    content.length ≤ (encodeDelimited number length content).length := by
  simp only [encodeDelimited, List.length_append]
  omega

/-- The wire type does not change the number of bytes of a key. -/
theorem length_encode_key (hn : 0 < number) (hk : number < 2 ^ 29) (wireType : WireType) :
    (Key.encode ⟨number, wireType⟩).length = keyLen number := by
  have hlog : ∀ c < 8, (number * 8 + c).log2 = number.log2 + 3 := by
    intro c hc
    have hlow := Nat.log2_self_le (n := number) (by omega)
    have hhigh := @Nat.lt_log2_self number
    have h3 : 2 ^ (number.log2 + 3) = 2 ^ number.log2 * 8 := Nat.pow_add 2 _ 3
    have h4 : 2 ^ (number.log2 + 3 + 1) = 2 ^ number.log2 * 16 := Nat.pow_add 2 _ 4
    rw [Nat.pow_succ] at hhigh
    rw [Nat.log2_eq_iff (by omega)]
    omega
  have hcode : wireType.code < 8 := by cases wireType <;> decide
  have hz := hlog 0 (by omega)
  rw [Nat.add_zero] at hz
  change (Varint.encode (number * 8 + wireType.code)).length = Varint.encodedLen (number * 8)
  rw [Varint.encodedLen_eq_length (by omega), Varint.length_encode, Varint.length_encode,
    Varint.log2_or_one (by omega), Varint.log2_or_one (by omega), hlog _ hcode, hz]

theorem numberLen_eq_length (h : 0 < number) (hk : number < 2 ^ 29) (hn : n < 2 ^ 64) :
    numberLen number n = (encodeNumber number n).length := by
  rw [numberLen, encodeNumber, List.length_append, Varint.encodedLen_eq_length hn,
    length_encode_key h hk]

theorem delimitedLen_eq_length (h : 0 < number) (hk : number < 2 ^ 29)
    (hc : content.length < 2 ^ 64) :
    delimitedLen number content.length =
      (encodeDelimited number content.length content).length := by
  rw [delimitedLen, encodeDelimited, List.length_append, List.length_append,
    Varint.encodedLen_eq_length hc, length_encode_key h hk]

end PlaneArchive.Wire
