import PlaneArchive.Gzip.Checksum
import PlaneArchive.Gzip.Deflate

/-! # Gzip members

A gzip file is a sequence of members. Each has a header with optional fields, a deflate stream,
and a trailer with the check value and the length of the content. The file is good only if it is
members and nothing else; anything less yields no content at all.
-/
namespace PlaneArchive.Gzip

/-- A way of reading one member from the front of a byte string. -/
structure MemberDecoder where
  decode? : Bytes → Option (Bytes × Bytes)
  shrinks {bytes content rest : Bytes} :
    decode? bytes = some (content, rest) → rest.length < bytes.length

/-- The contents of all members one after another, if the byte string consists of one or more
members. -/
def MemberDecoder.contents? (decoder : MemberDecoder) (bytes : Bytes) : Option Bytes :=
  match _h : decoder.decode? bytes with
  | none => none
  | some (content, []) => some content
  | some (content, byte :: rest) =>
    (decoder.contents? (byte :: rest)).map fun contents => content ++ contents
termination_by bytes.length
decreasing_by exact decoder.shrinks ‹_›

def textLimit : Nat := 65535

/-- Drops a text and the zero byte that ends it. -/
def skipText? (bytes : Bytes) : Option Bytes :=
  let text := bytes.take (textLimit + 1) |>.takeWhile (· != 0)
  if text.length ≤ textLimit then
    match bytes.drop text.length with
    | 0 :: rest => some rest
    | _ => none
  else none

/-- Drops a field that announces its length in two bytes. -/
def skipExtra? (bytes : Bytes) : Option Bytes := do
  let (length, rest) ← Bytes.split? 2 bytes
  let (_, rest) ← Bytes.split? (Bytes.ofLittleEndian length) rest
  return rest

/-- Drops the check value of a header, which must be the low half of the one of the bytes before
it. -/
def skipHeaderCheck? (header bytes : Bytes) : Option Bytes := do
  let (check, rest) ← Bytes.split? 2 bytes
  if Bytes.ofLittleEndian check = (crc32 header).toNat % UInt16.size then some rest else none

def skipField? (present : Bool) (skip : Bytes → Option Bytes) (bytes : Bytes) : Option Bytes :=
  if present then skip bytes else some bytes

/-- Drops the header of a member. Its flags say which optional fields it has; the three highest
must be clear. -/
def skipHeader? (bytes : Bytes) : Option Bytes := do
  let (fixed, rest) ← Bytes.split? 10 bytes
  match fixed with
  | 0x1F :: 0x8B :: 8 :: flags :: _ =>
    if 0x20 ≤ flags then none
    else
      let rest ← skipField? (flags &&& 4 != 0) skipExtra? rest
      let rest ← skipField? (flags &&& 8 != 0) skipText? rest
      let rest ← skipField? (flags &&& 16 != 0) skipText? rest
      let header := bytes.take (bytes.length - rest.length)
      skipField? (flags &&& 2 != 0) (skipHeaderCheck? header) rest
  | _ => none

/-- The content of the first member, after its check value and length have been verified, and the
bytes after it. -/
def readMember? (bytes : Bytes) : Option (Bytes × Bytes) := do
  let body ← skipHeader? bytes
  let (content, taken) ← inflate? body
  let (check, rest) ← Bytes.split? 4 (body.drop taken)
  let (length, rest) ← Bytes.split? 4 rest
  if Bytes.ofLittleEndian check = (crc32 content).toNat
      ∧ Bytes.ofLittleEndian length = content.length % UInt32.size then
    some (content, rest)
  else none

theorem length_of_skipText? {bytes rest : Bytes} (h : skipText? bytes = some rest) :
    rest.length < bytes.length := by
  simp only [skipText?] at h
  split at h
  · split at h
    · next hd =>
      injection h with h
      subst h
      have := congrArg List.length hd
      simp only [List.length_drop, List.length_cons] at this
      omega
    · cases h
  · cases h

theorem length_of_skipExtra? {bytes rest : Bytes} (h : skipExtra? bytes = some rest) :
    rest.length < bytes.length := by
  simp only [skipExtra?, Option.bind_eq_bind, Option.bind_eq_some_iff, Option.pure_def,
    Option.some.injEq, Prod.exists] at h
  obtain ⟨length, r, hs, _, r', hs', rfl⟩ := h
  have := Bytes.length_rest_of_split? hs
  have := Bytes.length_rest_of_split? hs'
  omega

theorem length_of_skipHeaderCheck? {header bytes rest : Bytes}
    (h : skipHeaderCheck? header bytes = some rest) : rest.length < bytes.length := by
  simp only [skipHeaderCheck?, Option.bind_eq_bind, Option.bind_eq_some_iff, Prod.exists] at h
  obtain ⟨check, r, hs, h⟩ := h
  split at h
  · injection h with h
    subst h
    have := Bytes.length_rest_of_split? hs
    omega
  · cases h

theorem length_of_skipField? {present : Bool} {skip : Bytes → Option Bytes} {bytes rest : Bytes}
    (hs : ∀ r, skip bytes = some r → r.length < bytes.length)
    (h : skipField? present skip bytes = some rest) : rest.length ≤ bytes.length := by
  simp only [skipField?] at h
  split at h
  · exact Nat.le_of_lt (hs rest h)
  · injection h with h
    subst h
    exact Nat.le_refl _

theorem length_of_skipHeader? {bytes rest : Bytes} (h : skipHeader? bytes = some rest) :
    rest.length < bytes.length := by
  simp only [skipHeader?, Option.bind_eq_bind, Option.bind_eq_some_iff, Prod.exists] at h
  obtain ⟨fixed, r, hs, h⟩ := h
  have := Bytes.length_rest_of_split? hs
  split at h
  · split at h
    · cases h
    · simp only [Option.bind_eq_some_iff] at h
      obtain ⟨r₁, h₁, r₂, h₂, r₃, h₃, h₄⟩ := h
      have := length_of_skipField? (fun _ => length_of_skipExtra?) h₁
      have := length_of_skipField? (fun _ => length_of_skipText?) h₂
      have := length_of_skipField? (fun _ => length_of_skipText?) h₃
      have := length_of_skipField? (fun _ => length_of_skipHeaderCheck?) h₄
      omega
  · cases h

def member : MemberDecoder where
  decode? := readMember?
  shrinks h := by
    simp only [readMember?, Option.bind_eq_bind, Option.bind_eq_some_iff, Prod.exists] at h
    obtain ⟨body, hb, content, taken, _, check, r, hc, length, r', hl, h⟩ := h
    have := length_of_skipHeader? hb
    have := Bytes.length_rest_of_split? hc
    have := Bytes.length_rest_of_split? hl
    split at h
    · injection h with h
      injection h with _ h
      subst h
      simp only [List.length_drop] at *
      omega
    · cases h

end PlaneArchive.Gzip
