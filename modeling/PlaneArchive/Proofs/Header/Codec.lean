import PlaneArchive.Header.Codec
import PlaneArchive.Proofs.Wire.Fields

/-! # Headers read back

A header stands for a list of fields. Its bytes read as these fields, and taking the fields into
account one by one rebuilds the header, with presence and order intact.
-/
namespace PlaneArchive

open Wire

namespace Wire

/-- The field of a text, if it is present. -/
def textFields (number : ℕ) (text? : Option String) : List Field :=
  text?.toList.map fun text => ⟨number, .delimited (Utf8.encode text)⟩

def numberFields (number : ℕ) (n? : Option ℕ) : List Field :=
  n?.toList.map fun n => ⟨number, .varint n⟩

variable {number limit : ℕ}

/-- The length of a text, if there is one, can be announced. -/
def TextFits (text? : Option String) : Prop :=
  ∀ text, text? = some text → text.utf8ByteSize < 2 ^ 64

theorem textFits_of_length {text? : Option String}
    (hl : (encodeText? number text?).length < 2 ^ 64) : TextFits text? := by
  rintro text rfl
  exact lt_of_le_of_lt (length_le_encodeDelimited number _ (Utf8.encode text)) hl

theorem reads_encodeText? {text? : Option String} (h : 0 < number) (hk : number < 2 ^ 29)
    (hl : TextFits text?) : Reads limit (encodeText? number text?) (textFields number text?) := by
  cases text? with
  | none => exact Reads.nil
  | some text => exact Reads.ofDelimited h hk (hl text rfl)

theorem reads_encodeNumber? {n? : Option ℕ} (h : 0 < number) (hk : number < 2 ^ 29)
    (hn : ∀ n, n? = some n → n < 2 ^ 64) :
    Reads limit (encodeNumber? number n?) (numberFields number n?) := by
  cases n? with
  | none => exact Reads.nil
  | some n => exact Reads.ofNumber h hk (hn n rfl)

theorem textLen?_eq_length {text? : Option String} (h : 0 < number) (hk : number < 2 ^ 29)
    (hl : TextFits text?) : textLen? number text? = (encodeText? number text?).length := by
  cases text? with
  | none => rfl
  | some text =>
    have hcontent : (Utf8.encode text).length < 2 ^ 64 := hl text rfl
    exact delimitedLen_eq_length h hk hcontent

theorem numberLen?_eq_length {n? : Option ℕ} (h : 0 < number) (hk : number < 2 ^ 29)
    (hn : ∀ n, n? = some n → n < 2 ^ 64) :
    numberLen? number n? = (encodeNumber? number n?).length := by
  cases n? with
  | none => rfl
  | some n => exact numberLen_eq_length h hk (hn n rfl)

theorem word_lt {n? : Option UInt32} (n : ℕ) (h : n?.map UInt32.toNat = some n) : n < 2 ^ 64 := by
  obtain ⟨w, _, rfl⟩ := Option.map_eq_some_iff.mp h
  exact w.toNat_lt.trans (by norm_num)

theorem signed_lt {n? : Option Int32} (n : ℕ) (h : n?.map ofInt32 = some n) : n < 2 ^ 64 := by
  obtain ⟨w, _, rfl⟩ := Option.map_eq_some_iff.mp h
  exact UInt64.toNat_lt _

theorem toInt32_ofInt32 (n : Int32) : toInt32 (ofInt32 n) = n := by
  have h : toInt32 (ofInt32 n) = n.toInt64.toInt32 := by
    rw [toInt32, ofInt32, UInt32.ofNat_uInt64ToNat]
    apply Int32.toBitVec_inj.mp
    exact (BitVec.signExtend_eq_setWidth_of_le (w := 64) (v := 32) _ (by decide)).symm
  rw [h, Int32.toInt32_toInt64]

/-- A field that may be absent sets its own place and no other. -/
theorem foldlM_optional {σ α : Type} {step : σ → Field → Except WireError σ} {field : α → Field}
    {s : Option α → σ} (h : ∀ x, step (s none) (field x) = .ok (s (some x)))
    (x? : Option α) : (x?.toList.map field).foldlM step (s none) = .ok (s x?) := by
  cases x? with
  | none => rfl
  | some x => simp [h, bind, Except.bind, pure, Except.pure]

theorem foldlM_numberFields {σ α : Type} {step : σ → Field → Except WireError σ} {code : α → ℕ}
    {s : Option α → σ} (h : ∀ x, step (s none) ⟨number, .varint (code x)⟩ = .ok (s (some x)))
    (x? : Option α) :
    (numberFields number (x?.map code)).foldlM step (s none) = .ok (s x?) := by
  rw [numberFields, Option.toList_map, List.map_map]
  exact foldlM_optional h x?

end Wire

namespace FileMetadata

variable {entry : FileMetadata} {limit : ℕ}

/-- What an entry consists of on the wire. -/
def fields (entry : FileMetadata) : List Field :=
  textFields 1 entry.name? ++ numberFields 2 (entry.size?.map UInt32.toNat)

theorem textFits_name (hl : entry.encode.length < 2 ^ 64) : TextFits entry.name? := by
  have hname : (encodeText? 1 entry.name?).length < 2 ^ 64 := by
    simp only [encode, List.length_append] at hl
    omega
  exact textFits_of_length hname

theorem reads_encode (hl : TextFits entry.name?) : Reads limit entry.encode entry.fields :=
  (reads_encodeText? (by omega) (by omega) hl).append
    (reads_encodeNumber? (by omega) (by omega) word_lt)

theorem foldlM_fields (entry : FileMetadata) : entry.fields.foldlM addField {} = .ok entry := by
  have hname : (textFields 1 entry.name?).foldlM addField {} = .ok { name? := entry.name? } :=
    foldlM_optional (s := fun name? => ({ name? } : FileMetadata)) (fun text => by
      simp [addField, Content.text, Content.bytes, Utf8.decode?_encode, Except.map]) _
  have hsize : (numberFields 2 (entry.size?.map UInt32.toNat)).foldlM addField
      { name? := entry.name? } = .ok entry :=
    foldlM_numberFields (s := fun size? => ({ name? := entry.name?, size? } : FileMetadata))
      (fun n => by simp [addField, Content.number, Except.map]) _
  rw [fields, List.foldlM_append, hname]
  exact hsize

theorem decodeWithin_encode (hl : TextFits entry.name?) :
    decodeWithin limit entry.encode = .ok entry := by
  rw [decodeWithin, (reads_encode hl).decodeFields_eq]
  exact foldlM_fields entry

theorem encodedLen_eq_length (hl : TextFits entry.name?) :
    entry.encodedLen = entry.encode.length := by
  rw [encodedLen, encode, List.length_append, textLen?_eq_length (by omega) (by omega) hl,
    numberLen?_eq_length (by omega) (by omega) word_lt]

end FileMetadata

namespace Header

variable {header : Header}

def fields (header : Header) : List Field :=
  textFields 1 header.magic? ++ numberFields 2 (header.version?.map UInt32.toNat)
    ++ numberFields 3 (header.payloadSize?.map UInt32.toNat)
    ++ numberFields 4 (header.layoutCode?.map ofInt32)
    ++ header.files.map (fun entry => ⟨5, .delimited entry.encode⟩)
    ++ numberFields 6 (header.pageSize?.map UInt32.toNat)

theorem length_encode_le_of_mem {entry : FileMetadata} (h : entry ∈ header.files) :
    entry.encode.length ≤ header.encode.length := by
  have hentry : (encodeEntry entry).length ≤ (header.files.flatMap encodeEntry).length :=
    (List.sublist_flatten_of_mem (List.mem_map_of_mem h)).length_le
  have hcontent : entry.encode.length ≤ (encodeEntry entry).length :=
    length_le_encodeDelimited _ _ _
  simp only [encode, List.length_append]
  omega

/-- Every length that is announced in the encoding fits 64 bits. -/
structure LengthsFit (header : Header) : Prop where
  magic : TextFits header.magic?
  entries : ∀ entry ∈ header.files, entry.encode.length < 2 ^ 64

theorem lengthsFit_of_length (hl : header.encode.length < 2 ^ 64) : header.LengthsFit where
  magic := by
    have hmagic : (encodeText? 1 header.magic?).length < 2 ^ 64 := by
      simp only [encode, List.length_append] at hl
      omega
    exact textFits_of_length hmagic
  entries := fun _ h => lt_of_le_of_lt (length_encode_le_of_mem h) hl

theorem encodeEntry_eq {entry : FileMetadata} (hl : TextFits entry.name?) :
    encodeEntry entry = encodeDelimited 5 entry.encode.length entry.encode := by
  rw [encodeEntry, entry.encodedLen_eq_length hl]

theorem reads_encodeEntry {limit : ℕ} {entry : FileMetadata} (hl : entry.encode.length < 2 ^ 64) :
    Reads limit (encodeEntry entry) [⟨5, .delimited entry.encode⟩] := by
  rw [encodeEntry_eq (FileMetadata.textFits_name hl)]
  exact Reads.ofDelimited (by omega) (by omega) hl

theorem reads_encode {limit : ℕ} (hl : header.LengthsFit) :
    Reads limit header.encode header.fields :=
  (((((reads_encodeText? (by omega) (by omega) hl.magic).append
    (reads_encodeNumber? (by omega) (by omega) word_lt)).append
    (reads_encodeNumber? (by omega) (by omega) word_lt)).append
    (reads_encodeNumber? (by omega) (by omega) signed_lt)).append
    (Reads.flatMap fun entry h => reads_encodeEntry (hl.entries entry h))).append
    (reads_encodeNumber? (by omega) (by omega) word_lt)

theorem foldlM_entries {entries : List FileMetadata}
    (hl : ∀ entry ∈ entries, entry.encode.length < 2 ^ 64) (header : Header) :
    (entries.map fun entry => (⟨5, .delimited entry.encode⟩ : Field)).foldlM addField header =
      .ok { header with files := header.files ++ entries } := by
  induction entries generalizing header with
  | nil => simp [pure, Except.pure]
  | cons entry entries ih =>
    have hadd : addField header ⟨5, .delimited entry.encode⟩ =
        .ok { header with files := header.files ++ [entry] } := by
      simp [addField, Content.bytes, Except.bind, Except.map,
        FileMetadata.decodeWithin_encode
          (FileMetadata.textFits_name (hl entry List.mem_cons_self))]
    rw [List.map_cons, List.foldlM_cons, hadd]
    refine (ih (fun e h => hl e (List.mem_cons_of_mem _ h)) _).trans ?_
    simp

theorem foldlM_fields (hl : header.LengthsFit) :
    header.fields.foldlM addField {} = .ok header := by
  obtain ⟨magic?, version?, payloadSize?, layoutCode?, files, pageSize?⟩ := header
  have h₁ : (textFields 1 magic?).foldlM addField {} = .ok { magic? } :=
    foldlM_optional (s := fun magic? => ({ magic? } : Header)) (fun text => by
      simp [addField, Content.text, Content.bytes, Utf8.decode?_encode, Except.map]) _
  have h₂ : (numberFields 2 (version?.map UInt32.toNat)).foldlM addField { magic? } =
      .ok { magic?, version? } :=
    foldlM_numberFields (s := fun version? => ({ magic?, version? } : Header))
      (fun n => by simp [addField, Content.number, Except.map]) _
  have h₃ : (numberFields 3 (payloadSize?.map UInt32.toNat)).foldlM addField
      { magic?, version? } = .ok { magic?, version?, payloadSize? } :=
    foldlM_numberFields (s := fun payloadSize? => ({ magic?, version?, payloadSize? } : Header))
      (fun n => by simp [addField, Content.number, Except.map]) _
  have h₄ : (numberFields 4 (layoutCode?.map ofInt32)).foldlM addField
      { magic?, version?, payloadSize? } =
      .ok { magic?, version?, payloadSize?, layoutCode? } :=
    foldlM_numberFields
      (s := fun layoutCode? => ({ magic?, version?, payloadSize?, layoutCode? } : Header))
      (fun n => by simp [addField, Content.number, Except.map, toInt32_ofInt32]) _
  have h₅ := foldlM_entries hl.entries { magic?, version?, payloadSize?, layoutCode? }
  have h₆ : (numberFields 6 (pageSize?.map UInt32.toNat)).foldlM addField
      { magic?, version?, payloadSize?, layoutCode?, files } =
      .ok { magic?, version?, payloadSize?, layoutCode?, files, pageSize? } :=
    foldlM_numberFields
      (s := fun pageSize? =>
        ({ magic?, version?, payloadSize?, layoutCode?, files, pageSize? } : Header))
      (fun n => by simp [addField, Content.number, Except.map]) _
  simp only [fields, List.foldlM_append, bind, Except.bind, h₁, h₂, h₃, h₄, h₅, List.nil_append, h₆]

/-- A header is read back from its bytes as it was, absent and empty fields told apart. -/
theorem decode_encode_of_lengthsFit (hl : header.LengthsFit) :
    decode header.encode = .ok header := by
  rw [decode, (reads_encode hl).decodeFields_eq]
  exact foldlM_fields hl

theorem decode_encode (hl : header.encode.length < 2 ^ 64) :
    decode header.encode = .ok header :=
  decode_encode_of_lengthsFit (lengthsFit_of_length hl)

end Header

end PlaneArchive
