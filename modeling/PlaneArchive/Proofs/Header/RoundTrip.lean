import PlaneArchive.Proofs.Header.Codec
import PlaneArchive.Proofs.Wire.Canonical

/-! # Headers and entries told apart by their bytes

What a header or an entry consists of comes back from its own bytes, so that no two of them share
an encoding. Bytes that were written elsewhere may hold unknown or repeated fields and numbers of
more bytes than needed; what is read from them can be written again and reads the same.
-/
namespace PlaneArchive

open Wire

theorem Utf8.encode_of_decode? {bytes : Bytes} {text : String} (h : decode? bytes = some text) :
    encode text = bytes := by
  unfold decode? String.fromUTF8? at h
  split at h
  · cases h
    simp [encode, String.fromUTF8]
  · cases h

namespace Wire

/-- A text that can lie in memory, where nothing takes more than half of the 64-bit addresses. -/
def InMemory (text? : Option String) : Prop :=
  ∀ text, text? = some text → text.utf8ByteSize < 2 ^ 63

variable {text? : Option String} {number : ℕ} {content : Content} {field : Field}

theorem InMemory.textFits (h : InMemory text?) : TextFits text? :=
  fun text htext => (h text htext).trans (by norm_num)

theorem textFits_none : TextFits none := by
  simp [TextFits]

theorem length_encodeNumber?_le {n? : Option ℕ} (hk : number < 2 ^ 29)
    (hn : ∀ n, n? = some n → n < 2 ^ 64) : (encodeNumber? number n?).length ≤ 20 := by
  cases n? with
  | none => simp [encodeNumber?]
  | some n =>
    have hkey : (Key.encode ⟨number, .varint⟩).length ≤ 10 :=
      Varint.length_encode_le_ten (by simp only [WireType.code]; omega)
    have hcontent := Varint.length_encode_le_ten (hn n rfl)
    simp only [encodeNumber?, encodeNumber, List.length_append]
    omega

theorem InMemory.length_encodeText?_lt (hk : number < 2 ^ 29) (h : InMemory text?) :
    (encodeText? number text?).length < 2 ^ 63 + 20 := by
  cases text? with
  | none => simp [encodeText?]
  | some text =>
    have hkey : (Key.encode ⟨number, .delimited⟩).length ≤ 10 :=
      Varint.length_encode_le_ten (by simp only [WireType.code]; omega)
    have hsize := h text rfl
    have hcontent : (Varint.encode text.utf8ByteSize).length ≤ 10 :=
      Varint.length_encode_le_ten (by omega)
    simp only [encodeText?, encodeDelimited, List.length_append, Utf8.length_encode]
    omega

theorem Content.eq_of_number {n : ℕ} (h : content.number = .ok n) : content = .varint n := by
  cases content <;> simp_all [Content.number]

theorem Content.eq_of_bytes {bytes : Bytes} (h : content.bytes = .ok bytes) :
    content = .delimited bytes := by
  cases content <;> simp_all [Content.bytes]

theorem Content.eq_of_text {text : String} (h : content.text = .ok text) :
    content = .delimited (Utf8.encode text) := by
  cases hbytes : content.bytes with
  | error e => simp [Content.text, hbytes] at h
  | ok bytes =>
    cases hdecode : Utf8.decode? bytes with
    | none => simp [Content.text, hbytes, hdecode] at h
    | some found =>
      simp only [Content.text, hbytes, hdecode, Except.ok.injEq] at h
      subst h
      rw [Utf8.encode_of_decode? hdecode]
      exact eq_of_bytes hbytes

theorem Field.Announced.textFits {text : String} (h : field.Announced)
    (hcontent : field.content = .delimited (Utf8.encode text)) : TextFits (some text) := by
  intro found hfound
  cases hfound
  exact h _ hcontent

theorem exists_of_map_eq_ok {ε α β : Type} {f : α → β} {result : Except ε α} {y : β}
    (h : result.map f = .ok y) : ∃ x, result = .ok x ∧ y = f x := by
  cases result with
  | error e => simp [Except.map] at h
  | ok x => exact ⟨x, rfl, (Except.ok.inj h).symm⟩

section Folding

variable {σ : Type} {step : σ → Field → Except WireError σ} {fields : List Field} {start final : σ}

theorem exists_of_foldlM_cons (h : (field :: fields).foldlM step start = .ok final) :
    ∃ next, step start field = .ok next ∧ fields.foldlM step next = .ok final := by
  rw [List.foldlM_cons] at h
  cases hnext : step start field with
  | error e => simp [hnext, bind, Except.bind] at h
  | ok next => exact ⟨next, rfl, by simpa [hnext, bind, Except.bind] using h⟩

/-- What every field keeps holds after all of them. -/
theorem invariant_of_foldlM {P : σ → Prop}
    (hstep : ∀ field ∈ fields, ∀ state next, P state → step state field = .ok next → P next)
    (hstart : P start) (h : fields.foldlM step start = .ok final) : P final := by
  induction fields generalizing start with
  | nil =>
    cases h
    exact hstart
  | cons field fields ih =>
    obtain ⟨next, hnext, hrest⟩ := exists_of_foldlM_cons h
    have hkept := hstep field List.mem_cons_self start next hstart hnext
    exact ih (fun other hmem => hstep other (List.mem_cons_of_mem _ hmem)) hkept hrest

/-- A measure that no field raises by more than its size is bounded by the sizes together. -/
theorem measure_of_foldlM (f : σ → ℕ)
    (hstep : ∀ field state next, step state field = .ok next → f next ≤ f state + field.size)
    (h : fields.foldlM step start = .ok final) :
    f final ≤ f start + (fields.map Field.size).sum := by
  induction fields generalizing start with
  | nil =>
    cases h
    simp
  | cons field fields ih =>
    obtain ⟨next, hnext, hrest⟩ := exists_of_foldlM_cons h
    have hone := hstep field start next hnext
    have hmore := ih hrest
    rw [List.map_cons, List.sum_cons]
    omega

end Folding

end Wire

/-- Encoding and decoding of the messages of one kind, as far as they are `valid`. -/
structure RoundTrips {σ : Type} (encode : σ → Bytes) (encodedLen : σ → ℕ)
    (decode : Bytes → Except WireError σ) (valid : σ → Prop) : Prop where
  decode_encode : ∀ message, valid message → decode (encode message) = .ok message
  encodedLen_eq : ∀ message, valid message → encodedLen message = (encode message).length
  encode_injective : ∀ message other, valid message → valid other →
    encode message = encode other → message = other
  decode_again : ∀ bytes message, decode bytes = .ok message →
    decode (encode message) = .ok message

/-- What can be read back is told apart by its bytes. -/
theorem RoundTrips.of_decode_encode {σ : Type} {encode : σ → Bytes} {encodedLen : σ → ℕ}
    {decode : Bytes → Except WireError σ} {valid : σ → Prop}
    (hdecode : ∀ message, valid message → decode (encode message) = .ok message)
    (hlen : ∀ message, valid message → encodedLen message = (encode message).length)
    (hagain : ∀ bytes message, decode bytes = .ok message →
      decode (encode message) = .ok message) : RoundTrips encode encodedLen decode valid where
  decode_encode := hdecode
  encodedLen_eq := hlen
  encode_injective := by
    intro message other hmessage hother h
    have hsame := hdecode message hmessage
    rw [h, hdecode other hother] at hsame
    exact (Except.ok.inj hsame).symm
  decode_again := hagain

namespace FileMetadata

variable {entry next : FileMetadata} {limit : ℕ} {bytes : Bytes} {field : Field}

/-- The name of the entry, if it has one, lies in memory. -/
def Addressable (entry : FileMetadata) : Prop := InMemory entry.name?

theorem Addressable.length_encode_lt (h : entry.Addressable) : entry.encode.length < 2 ^ 64 := by
  have hname : (encodeText? 1 entry.name?).length < 2 ^ 63 + 20 :=
    InMemory.length_encodeText?_lt (by norm_num) h
  have hsize : (encodeNumber? 2 (entry.size?.map UInt32.toNat)).length ≤ 20 :=
    length_encodeNumber?_le (by norm_num) word_lt
  simp only [encode, List.length_append]
  omega

theorem addField_cases (h : addField entry field = .ok next) :
    (field.number = 1 ∧ ∃ text, field.content = .delimited (Utf8.encode text) ∧
        next = { entry with name? := some text }) ∨
      (field.number = 2 ∧ ∃ n, field.content = .varint n ∧
        next = { entry with size? := some (UInt32.ofNat n) }) ∨
      next = entry := by
  unfold addField at h
  split at h
  · next hnumber =>
    obtain ⟨text, htext, rfl⟩ := exists_of_map_eq_ok h
    exact .inl ⟨hnumber, text, Content.eq_of_text htext, rfl⟩
  · next hnumber =>
    obtain ⟨n, hn, rfl⟩ := exists_of_map_eq_ok h
    exact .inr (.inl ⟨hnumber, n, Content.eq_of_number hn, rfl⟩)
  · exact .inr (.inr (Except.ok.inj h).symm)

/-- A field makes an entry longer by no more than its own size. -/
theorem length_encode_addField (h : addField entry field = .ok next) :
    next.encode.length ≤ entry.encode.length + field.size := by
  rcases addField_cases h with
    ⟨hnumber, text, hcontent, rfl⟩ | ⟨hnumber, n, hcontent, rfl⟩ | rfl
  · have hsize : field.size = (encodeText? 1 (some text)).length := by
      rw [Field.size_of_delimited hcontent, hnumber]
      rfl
    simp only [encode, List.length_append]
    omega
  · have hsmaller : (UInt32.ofNat n).toNat ≤ n := by
      rw [UInt32.toNat_ofNat']
      exact Nat.mod_le _ _
    have hword := Varint.length_encode_mono hsmaller
    have hsize : (encodeNumber? 2 (some (UInt32.ofNat n).toNat)).length ≤ field.size := by
      rw [Field.size_of_varint hcontent, hnumber]
      simp only [encodeNumber?, encodeNumber, List.length_append]
      omega
    simp only [encode, List.length_append, Option.map_some]
    omega
  · omega

theorem decodeWithin_cases (h : decodeWithin limit bytes = .ok entry) :
    ∃ fields, decodeFields limit bytes = .ok fields ∧ fields.foldlM addField {} = .ok entry := by
  cases hfields : decodeFields limit bytes with
  | error e => simp [decodeWithin, hfields, Except.bind] at h
  | ok fields => exact ⟨fields, rfl, by simpa [decodeWithin, hfields, Except.bind] using h⟩

/-- An entry takes no more bytes than it was read from. -/
theorem length_encode_of_decodeWithin (h : decodeWithin limit bytes = .ok entry) :
    entry.encode.length ≤ bytes.length := by
  obtain ⟨fields, hfields, hfold⟩ := decodeWithin_cases h
  have hsizes := (decodeFields_size hfields).1
  have hmeasure := measure_of_foldlM (fun entry => entry.encode.length)
    (fun _ _ _ => length_encode_addField) hfold
  have hempty : ({} : FileMetadata).encode.length = 0 := rfl
  omega

theorem textFits_of_decodeWithin (h : decodeWithin limit bytes = .ok entry) :
    TextFits entry.name? := by
  obtain ⟨fields, hfields, hfold⟩ := decodeWithin_cases h
  have hannounced := (decodeFields_size hfields).2
  refine invariant_of_foldlM (P := fun entry => TextFits entry.name?) ?_ textFits_none hfold
  intro field hmem state next hstate hnext
  rcases addField_cases hnext with ⟨-, text, hcontent, rfl⟩ | ⟨-, n, -, rfl⟩ | rfl
  · exact (hannounced field hmem).textFits hcontent
  · exact hstate
  · exact hstate

theorem roundTrips : RoundTrips encode encodedLen decode Addressable :=
  .of_decode_encode (fun _ h => decodeWithin_encode h.textFits)
    (fun _ h => encodedLen_eq_length h.textFits)
    (fun _ _ h => decodeWithin_encode (textFits_of_decodeWithin h))

end FileMetadata

namespace Header

variable {header next : Header} {bytes : Bytes} {field : Field}

/-- The texts of the header and of its entries lie in memory. -/
structure Addressable (header : Header) : Prop where
  magic : InMemory header.magic?
  entries : ∀ entry ∈ header.files, entry.Addressable

theorem Addressable.lengthsFit (h : header.Addressable) : header.LengthsFit where
  magic := h.magic.textFits
  entries := fun entry hentry => (h.entries entry hentry).length_encode_lt

theorem sum_entries {entries : List FileMetadata}
    (h : ∀ entry ∈ entries, entry.encode.length < 2 ^ 64) :
    entries.foldr (fun entry total => delimitedLen 5 entry.encodedLen + total) 0 =
      (entries.flatMap encodeEntry).length := by
  induction entries with
  | nil => rfl
  | cons entry entries ih =>
    have hentry := h entry List.mem_cons_self
    have hname := FileMetadata.textFits_name hentry
    have hrest := ih fun other hmem => h other (List.mem_cons_of_mem _ hmem)
    rw [List.foldr_cons, List.flatMap_cons, List.length_append, hrest,
      FileMetadata.encodedLen_eq_length hname, encodeEntry_eq hname,
      delimitedLen_eq_length (by norm_num) (by norm_num) hentry]

theorem encodedLen_eq_length (hl : header.LengthsFit) :
    header.encodedLen = header.encode.length := by
  simp only [encodedLen, encode, List.length_append]
  rw [textLen?_eq_length (by norm_num) (by norm_num) hl.magic,
    numberLen?_eq_length (by norm_num) (by norm_num) word_lt,
    numberLen?_eq_length (by norm_num) (by norm_num) word_lt,
    numberLen?_eq_length (by norm_num) (by norm_num) signed_lt,
    numberLen?_eq_length (by norm_num) (by norm_num) word_lt, sum_entries hl.entries]

/-- The lengths in a header come from one field at a time. -/
theorem addField_cases (h : addField header field = .ok next) :
    (∃ text, field.content = .delimited (Utf8.encode text) ∧
        next = { header with magic? := some text }) ∨
      (∃ content entry, field.content = .delimited content ∧
        FileMetadata.decodeWithin (nestingLimit - 1) content = .ok entry ∧
        next = { header with files := header.files ++ [entry] }) ∨
      next.magic? = header.magic? ∧ next.files = header.files := by
  unfold addField at h
  split at h
  · obtain ⟨text, htext, rfl⟩ := exists_of_map_eq_ok h
    exact .inl ⟨text, Content.eq_of_text htext, rfl⟩
  · obtain ⟨n, hn, rfl⟩ := exists_of_map_eq_ok h
    exact .inr (.inr ⟨rfl, rfl⟩)
  · obtain ⟨n, hn, rfl⟩ := exists_of_map_eq_ok h
    exact .inr (.inr ⟨rfl, rfl⟩)
  · obtain ⟨n, hn, rfl⟩ := exists_of_map_eq_ok h
    exact .inr (.inr ⟨rfl, rfl⟩)
  · obtain ⟨entry, hentry, rfl⟩ := exists_of_map_eq_ok h
    cases hcontent : field.content.bytes with
    | error e => simp [hcontent, Except.bind] at hentry
    | ok content =>
      rw [hcontent] at hentry
      exact .inr (.inl ⟨content, entry, Content.eq_of_bytes hcontent, hentry, rfl⟩)
  · obtain ⟨n, hn, rfl⟩ := exists_of_map_eq_ok h
    exact .inr (.inr ⟨rfl, rfl⟩)
  · cases h
    exact .inr (.inr ⟨rfl, rfl⟩)

theorem LengthsFit.addField (h : header.LengthsFit) (hfield : field.Announced)
    (hnext : addField header field = .ok next) : next.LengthsFit := by
  rcases addField_cases hnext with
    ⟨text, hcontent, rfl⟩ | ⟨content, entry, hcontent, hentry, rfl⟩ | ⟨hmagic, hfiles⟩
  · exact ⟨hfield.textFits hcontent, h.entries⟩
  · have hshort := FileMetadata.length_encode_of_decodeWithin hentry
    have hlength := hfield content hcontent
    refine ⟨h.magic, fun other hother => ?_⟩
    rcases List.mem_append.mp hother with hold | hnew
    · exact h.entries other hold
    · rw [List.mem_singleton.mp hnew]
      omega
  · exact ⟨hmagic ▸ h.magic, hfiles ▸ h.entries⟩

/-- Whatever is read as a header can be written, however many bytes it was read from. -/
theorem lengthsFit_of_decode (h : decode bytes = .ok header) : header.LengthsFit := by
  cases hfields : decodeFields nestingLimit bytes with
  | error e => simp [decode, hfields, Except.bind] at h
  | ok fields =>
    have hfold : fields.foldlM Header.addField {} = .ok header := by
      simpa [decode, hfields, Except.bind] using h
    have hannounced := (decodeFields_size hfields).2
    have hstart : ({} : Header).LengthsFit := ⟨textFits_none, by simp⟩
    exact invariant_of_foldlM
      (fun field hmem _ _ hstate => hstate.addField (hannounced field hmem)) hstart hfold

theorem roundTrips : RoundTrips encode encodedLen decode Addressable :=
  .of_decode_encode (fun _ h => decode_encode_of_lengthsFit h.lengthsFit)
    (fun _ h => encodedLen_eq_length h.lengthsFit)
    (fun _ _ h => decode_encode_of_lengthsFit (lengthsFit_of_decode h))

/-- Headers and entries come back from their bytes, their lengths are told without encoding them,
and every entry stands in a header under the length of its own encoding. -/
theorem codec_round_trips :
    RoundTrips Header.encode Header.encodedLen Header.decode Header.Addressable ∧
      RoundTrips FileMetadata.encode FileMetadata.encodedLen FileMetadata.decode
        FileMetadata.Addressable ∧
      ∀ header : Header, header.Addressable → ∀ entry ∈ header.files,
        encodeEntry entry = encodeDelimited 5 entry.encode.length entry.encode := by
  refine ⟨Header.roundTrips, FileMetadata.roundTrips, ?_⟩
  intro header haddressable entry hentry
  exact encodeEntry_eq (haddressable.entries entry hentry).textFits

/-- A negative layout code takes ten bytes; an empty name and a size of zero are written, while
what is absent is not. The second header is read from an unknown field, a version that is replaced
and another in two bytes where one would do. -/
theorem codec_round_trips_negativeLayout :
    let header : Header := { layoutCode? := some (-5), files := [⟨some "", some 0⟩, {}] }
    decode header.encode = .ok header ∧ header.encode.length = 19 ∧
      decode [0x78, 7, 0x10, 5, 0x10, 0x81, 0] = .ok { version? := some 1 } ∧
      decode ({ version? := some 1 } : Header).encode = .ok { version? := some 1 } := by
  intro header
  have haddressable : header.Addressable := by
    constructor
    · simp [header, InMemory]
    · simp [header, FileMetadata.Addressable, InMemory]
  have hread : decode [0x78, 7, 0x10, 5, 0x10, 0x81, 0] = .ok { version? := some 1 } := by
    have hunknown : Reads nestingLimit [0x78, 7] [⟨15, .varint 7⟩] :=
      Reads.singleton (by simp) fun _ => rfl
    have hfirst : Reads nestingLimit [0x10, 5] [⟨2, .varint 5⟩] :=
      Reads.singleton (by simp) fun _ => rfl
    have hsecond : Reads nestingLimit [0x10, 0x81, 0] [⟨2, .varint 1⟩] :=
      Reads.singleton (by simp) fun _ => rfl
    have hfields := (hunknown.append (hfirst.append hsecond)).decodeFields_eq
    exact congrArg (Except.bind · fun fields => fields.foldlM addField {}) hfields
  refine ⟨codec_round_trips.1.decode_encode header haddressable, ?_, hread,
    codec_round_trips.1.decode_again _ _ hread⟩
  rw [← codec_round_trips.1.encodedLen_eq header haddressable]
  decide

end Header
end PlaneArchive
