import PlaneArchive.Proofs.Wire.Fields

/-! # Fields that are written again

A number may be read from more bytes than it takes, so the bytes of a message are not determined
by its fields. None of the bytes that are read as a number or a delimited field is shorter than
the canonical ones, so that writing a field again never takes more than was read for it.
-/
namespace PlaneArchive.Wire

namespace Varint

variable {index n : ℕ} {bytes rest : Bytes}

theorem encode_of_lt (h : n < 128) : encode n = [UInt8.ofNat n] := by
  rw [encode, if_pos h]

theorem encode_of_le (h : 128 ≤ n) :
    encode n = UInt8.ofNat (n % 128 + 128) :: encode (n / 128) := by
  rw [encode, if_neg (by omega)]

/-- A number is read from one byte, or from one byte and the number that its successors make. -/
theorem decodeFrom_cons {byte : UInt8} (h : decodeFrom index (byte :: bytes) = .ok (n, rest)) :
    index ≤ 9 ∧ (index = 9 → byte < 2) ∧
      ((byte < 128 ∧ n = byte.toNat ∧ rest = bytes) ∨
        (128 ≤ byte ∧ ∃ high, decodeFrom (index + 1) bytes = .ok (high, rest) ∧
          n = byte.toNat % 128 + 128 * high)) := by
  simp only [decodeFrom] at h
  by_cases hover : 10 ≤ index ∨ index = 9 ∧ 2 ≤ byte
  · simp [hover] at h
  · have hindex : index ≤ 9 := by
      by_contra hlarge
      exact hover (.inl (by omega))
    have hlast : index = 9 → byte < 2 := by
      intro hnine
      by_contra hbyte
      exact hover (.inr ⟨hnine, UInt8.not_lt.mp hbyte⟩)
    refine ⟨hindex, hlast, ?_⟩
    rw [if_neg hover] at h
    by_cases hend : byte < 128
    · simp only [if_pos hend, Except.ok.injEq, Prod.mk.injEq] at h
      exact .inl ⟨hend, h.1.symm, h.2.symm⟩
    · rw [if_neg hend] at h
      cases hhigh : decodeFrom (index + 1) bytes with
      | error e => simp [hhigh] at h
      | ok read =>
        simp only [hhigh, Except.ok.injEq, Prod.mk.injEq] at h
        exact .inr ⟨UInt8.not_lt.mp hend, read.1, by simp [← h.2], h.1.symm⟩

theorem lt_of_decodeFrom (h : decodeFrom index bytes = .ok (n, rest)) :
    n < 2 ^ (64 - 7 * index) := by
  induction bytes generalizing index n with
  | nil => simp [decodeFrom] at h
  | cons byte bytes ih =>
    obtain ⟨hindex, hlast, hread⟩ := decodeFrom_cons h
    rcases hread with ⟨hend, rfl, rfl⟩ | ⟨hmore, high, hhigh, rfl⟩
    · by_cases hnine : index = 9
      · simpa [hnine] using UInt8.lt_iff_toNat_lt.mp (hlast hnine)
      · have hpow : 2 ^ 7 ≤ 2 ^ (64 - 7 * index) := Nat.pow_le_pow_right (by omega) (by omega)
        have hbyte : byte.toNat < 128 := UInt8.lt_iff_toNat_lt.mp hend
        omega
    · have height : index ≤ 8 := by
        by_contra hnine
        have hsmall := UInt8.lt_iff_toNat_lt.mp (hlast (by omega))
        have hlarge := UInt8.le_iff_toNat_le.mp hmore
        simp only [UInt8.reduceToNat] at hsmall hlarge
        omega
      have hpow : 2 ^ (64 - 7 * index) = 128 * 2 ^ (64 - 7 * (index + 1)) := by
        rw [show 64 - 7 * index = 7 + (64 - 7 * (index + 1)) by omega, Nat.pow_add]
      have hbound := ih hhigh
      omega

theorem lt_of_decode (h : decode bytes = .ok (n, rest)) : n < 2 ^ 64 := by
  simpa using lt_of_decodeFrom h

/-- The canonical bytes of a number are the fewest from which it is read. -/
theorem length_encode_le_of_decodeFrom (h : decodeFrom index bytes = .ok (n, rest)) :
    (encode n).length + rest.length ≤ bytes.length := by
  induction bytes generalizing index n with
  | nil => simp [decodeFrom] at h
  | cons byte bytes ih =>
    obtain ⟨-, -, hread⟩ := decodeFrom_cons h
    rcases hread with ⟨hend, rfl, rfl⟩ | ⟨-, high, hhigh, rfl⟩
    · rw [encode_of_lt (UInt8.lt_iff_toNat_lt.mp hend)]
      simp [Nat.add_comm]
    · have hrest := ih hhigh
      by_cases hsmall : byte.toNat % 128 + 128 * high < 128
      · have hone : 0 < (encode high).length := List.length_pos_iff.mpr (encode_ne_nil high)
        rw [encode_of_lt hsmall]
        simp only [List.length_cons, List.length_nil]
        omega
      · have hhigh : (byte.toNat % 128 + 128 * high) / 128 = high := by omega
        rw [encode_of_le (by omega), hhigh]
        simp only [List.length_cons]
        omega

theorem length_encode_le_of_decode (h : decode bytes = .ok (n, rest)) :
    (encode n).length + rest.length ≤ bytes.length :=
  length_encode_le_of_decodeFrom h

theorem length_encode_mono {m : ℕ} (h : m ≤ n) : (encode m).length ≤ (encode n).length := by
  induction n using Nat.strong_induction_on generalizing m with
  | h n ih =>
    by_cases hm : m < 128
    · rw [encode_of_lt hm]
      exact List.length_pos_iff.mpr (encode_ne_nil n)
    · rw [encode_of_le (n := m) (by omega), encode_of_le (n := n) (by omega)]
      simpa using ih (n / 128) (by omega) (Nat.div_le_div_right h)

theorem length_encode_le_ten (hn : n < 2 ^ 64) : (encode n).length ≤ 10 :=
  calc (encode n).length
    _ ≤ (encode (2 ^ 64 - 1)).length := length_encode_mono (by omega)
    _ = 10 := by
      rw [length_encode]
      decide

end Varint

variable {limit number : ℕ} {bytes rest : Bytes}

theorem WireType.code_of_ofCode? {code : ℕ} {wireType : WireType}
    (h : WireType.ofCode? code = some wireType) : wireType.code = code := by
  unfold WireType.ofCode? at h
  split at h <;> simp at h <;> subst h <;> rfl

theorem length_encode_key_le {key : Key} (h : Key.decode bytes = .ok (key, rest)) :
    (Key.encode key).length + rest.length ≤ bytes.length := by
  simp only [Key.decode] at h
  split at h
  · cases h
  · next n left hn =>
    split at h
    · cases h
    · split at h
      · cases h
      · next wireType htype =>
        split at h
        · cases h
        · simp only [Except.ok.injEq, Prod.mk.injEq] at h
          obtain ⟨rfl, rfl⟩ := h
          have hkey : n / 8 * 8 + wireType.code = n := by
            rw [WireType.code_of_ofCode? htype]
            omega
          simp only [Key.encode, hkey]
          exact Varint.length_encode_le_of_decode hn

variable {wireType : WireType} {content : Content} {field : Field}

/-- What the content of a field is and where it was read, for each way of writing it. -/
theorem decodeScalar_cases (h : decodeScalar wireType bytes = .ok (content, rest)) :
    (wireType = .varint ∧ ∃ n, content = .varint n ∧ Varint.decode bytes = .ok (n, rest)) ∨
      (wireType = .delimited ∧ ∃ front, content = .delimited front ∧
        Varint.decode bytes = .ok (front.length, front ++ rest)) ∨
      ∃ bits, content = .fixed64 bits ∨ content = .fixed32 bits := by
  cases wireType with
  | varint =>
    refine .inl ⟨rfl, ?_⟩
    cases hn : Varint.decode bytes with
    | error e => simp [decodeScalar, hn, Except.map] at h
    | ok read =>
      simp only [decodeScalar, hn, Except.map, Except.ok.injEq, Prod.mk.injEq] at h
      exact ⟨read.1, h.1.symm, by simp [← h.2]⟩
  | delimited =>
    refine .inr (.inl ⟨rfl, ?_⟩)
    cases hn : Varint.decode bytes with
    | error e => simp [decodeScalar, hn] at h
    | ok read =>
      cases hs : Bytes.split? read.1 read.2 with
      | none => simp [decodeScalar, hn, hs] at h
      | some cut =>
        obtain ⟨hcut, hlength⟩ := Bytes.split?_eq_some hs
        simp only [decodeScalar, hn, hs, Except.ok.injEq, Prod.mk.injEq] at h
        exact ⟨cut.1, h.1.symm, by rw [hlength, ← h.2, ← hcut]⟩
  | fixed64 =>
    simp only [decodeScalar] at h
    split at h <;> simp at h
    exact .inr (.inr ⟨_, .inl h.1.symm⟩)
  | fixed32 =>
    simp only [decodeScalar] at h
    split at h <;> simp at h
    exact .inr (.inr ⟨_, .inr h.1.symm⟩)
  | groupStart => simp [decodeScalar] at h
  | groupEnd => simp [decodeScalar] at h

theorem decodeField_cases (h : decodeField limit bytes = .ok (field, rest)) :
    field.content = .group ∨
      ∃ wireType left, Key.decode bytes = .ok (⟨field.number, wireType⟩, left) ∧
        decodeScalar wireType left = .ok (field.content, rest) := by
  simp only [decodeField] at h
  split at h
  · cases h
  · split at h
    · cases h
    · simp only [Except.ok.injEq, Prod.mk.injEq] at h
      exact .inl (by rw [← h.1])
  · next hkey =>
    split at h
    · cases h
    · next hscalar =>
      simp only [Except.ok.injEq, Prod.mk.injEq] at h
      obtain ⟨rfl, rfl⟩ := h
      exact .inr ⟨_, _, hkey, hscalar⟩

namespace Field

/-- The number of bytes that a field takes when it is written; nothing for the kinds of content
that are never written. -/
def size (field : Field) : ℕ :=
  match field.content with
  | .varint n => (encodeNumber field.number n).length
  | .delimited content => (encodeDelimited field.number content.length content).length
  | _ => 0

/-- The length of delimited content can be announced. -/
def Announced (field : Field) : Prop :=
  ∀ content, field.content = .delimited content → content.length < 2 ^ 64

theorem size_of_varint {n : ℕ} (h : field.content = .varint n) :
    field.size = (encodeNumber field.number n).length := by
  simp [size, h]

theorem size_of_delimited {content : Bytes} (h : field.content = .delimited content) :
    field.size = (encodeDelimited field.number content.length content).length := by
  simp [size, h]

end Field

/-- A field takes no more bytes than it was read from, and its length was read with it. -/
theorem decodeField_size (h : decodeField limit bytes = .ok (field, rest)) :
    field.size + rest.length ≤ bytes.length ∧ field.Announced := by
  have hshort := length_of_decodeField h
  rcases decodeField_cases h with hgroup | ⟨wireType, left, hkey, hscalar⟩
  · refine ⟨?_, by simp [Field.Announced, hgroup]⟩
    simp only [Field.size, hgroup]
    omega
  have hkeyLength := length_encode_key_le hkey
  rcases decodeScalar_cases hscalar with
    ⟨rfl, n, hcontent, hn⟩ | ⟨rfl, front, hcontent, hn⟩ | ⟨bits, hbits⟩
  · have hnumber := Varint.length_encode_le_of_decode hn
    refine ⟨?_, by simp [Field.Announced, hcontent]⟩
    rw [Field.size_of_varint hcontent, encodeNumber, List.length_append]
    omega
  · have hnumber := Varint.length_encode_le_of_decode hn
    constructor
    · rw [List.length_append] at hnumber
      rw [Field.size_of_delimited hcontent, encodeDelimited, List.length_append, List.length_append]
      omega
    · intro content heq
      rw [hcontent, Content.delimited.injEq] at heq
      exact heq ▸ Varint.lt_of_decode hn
  · have hunwritten : field.size = 0 ∧ field.Announced := by
      rcases hbits with hbits | hbits <;> simp [Field.size, Field.Announced, hbits]
    exact ⟨by omega, hunwritten.2⟩

theorem decodeFields_size {fields : List Field} (h : decodeFields limit bytes = .ok fields) :
    (fields.map Field.size).sum ≤ bytes.length ∧ ∀ field ∈ fields, field.Announced := by
  fun_induction decodeFields limit bytes generalizing fields with
  | case1 =>
    cases h
    simp
  | case2 byte more e herror => cases h
  | case3 byte more field rest hfield e herror ih => cases h
  | case4 byte more field rest hfield others hothers ih =>
    cases h
    obtain ⟨hsize, hannounced⟩ := decodeField_size hfield
    obtain ⟨hsizes, hall⟩ := ih hothers
    constructor
    · rw [List.map_cons, List.sum_cons]
      omega
    · exact List.forall_mem_cons.mpr ⟨hannounced, hall⟩

end PlaneArchive.Wire
