import PlaneArchive.Bytes

/-! # UTF-8 text

Names are text inside the archive and byte strings outside it. Strict reading refuses ill-formed
bytes; lossy reading replaces each maximal ill-formed part by U+FFFD, so that it never fails.
-/
namespace PlaneArchive.Utf8

def encode (text : String) : Bytes := text.toByteArray.data.toList

/-- The text with exactly these UTF-8 bytes, if they are well formed. -/
def decode? (bytes : Bytes) : Option String := String.fromUTF8? ⟨bytes.toArray⟩

theorem decode?_encode (text : String) : decode? (encode text) = some text := by
  have h : (⟨text.toByteArray.data.toList.toArray⟩ : ByteArray) = text.toByteArray := by simp
  simp only [decode?, encode, h, String.fromUTF8?]
  split
  · rfl
  · next hv => exact absurd text.isValidUTF8 hv

theorem encode_injective {first second : String} (h : encode first = encode second) :
    first = second := by
  have hdecode := congrArg decode? h
  rw [decode?_encode, decode?_encode] at hdecode
  exact Option.some.inj hdecode

theorem length_encode (text : String) : (encode text).length = text.utf8ByteSize := rfl

theorem encode_append (first second : String) :
    encode (first ++ second) = encode first ++ encode second := by
  simp [encode, String.toByteArray_append]

def replacement : Char := '\uFFFD'

def isContinuation (byte : UInt8) : Bool := 0x80 ≤ byte && byte ≤ 0xBF

def continuationBits (byte : UInt8) : Nat := byte.toNat % 64

/-- The bytes that may stand second after a three-byte lead: no overlong form, no surrogate. -/
def secondOfThree (lead byte : UInt8) : Bool :=
  if lead = 0xE0 then 0xA0 ≤ byte && byte ≤ 0xBF
  else if lead = 0xED then 0x80 ≤ byte && byte ≤ 0x9F
  else isContinuation byte

/-- The bytes that may stand second after a four-byte lead: no overlong form, at most U+10FFFF. -/
def secondOfFour (lead byte : UInt8) : Bool :=
  if lead = 0xF0 then 0x90 ≤ byte && byte ≤ 0xBF
  else if lead = 0xF4 then 0x80 ≤ byte && byte ≤ 0x8F
  else isContinuation byte

/-- The character that starts with `lead`, and how many of the following bytes belong to it. An
ill-formed start gives the replacement, together with the bytes that could still have continued
a character. -/
def character (lead : UInt8) (rest : Bytes) : Char × Nat :=
  if lead < 0x80 then (Char.ofNat lead.toNat, 0)
  else if 0xC2 ≤ lead && lead ≤ 0xDF then
    match rest with
    | b :: _ =>
      if isContinuation b then (Char.ofNat (lead.toNat % 32 * 64 + continuationBits b), 1)
      else (replacement, 0)
    | [] => (replacement, 0)
  else if 0xE0 ≤ lead && lead ≤ 0xEF then
    match rest with
    | b :: c :: _ =>
      if !secondOfThree lead b then (replacement, 0)
      else if !isContinuation c then (replacement, 1)
      else
        (Char.ofNat
          ((lead.toNat % 16 * 64 + continuationBits b) * 64 + continuationBits c), 2)
    | [b] => (replacement, if secondOfThree lead b then 1 else 0)
    | [] => (replacement, 0)
  else if 0xF0 ≤ lead && lead ≤ 0xF4 then
    match rest with
    | b :: c :: d :: _ =>
      if !secondOfFour lead b then (replacement, 0)
      else if !isContinuation c then (replacement, 1)
      else if !isContinuation d then (replacement, 2)
      else
        (Char.ofNat
          (((lead.toNat % 8 * 64 + continuationBits b) * 64 + continuationBits c) * 64
            + continuationBits d), 3)
    | [b, c] =>
      (replacement, if !secondOfFour lead b then 0 else if !isContinuation c then 1 else 2)
    | [b] => (replacement, if secondOfFour lead b then 1 else 0)
    | [] => (replacement, 0)
  else (replacement, 0)

/-- The characters of `bytes` after the first `skipped` of them, read without failing. -/
def lossyCharacters : Nat → Bytes → List Char
  | _, [] => []
  | skipped + 1, _ :: rest => lossyCharacters skipped rest
  | 0, lead :: rest =>
    let (char, following) := character lead rest
    char :: lossyCharacters following rest

/-- The text of `bytes`, with U+FFFD for each maximal ill-formed part. -/
def lossy (bytes : Bytes) : String := String.ofList (lossyCharacters 0 bytes)

end PlaneArchive.Utf8
