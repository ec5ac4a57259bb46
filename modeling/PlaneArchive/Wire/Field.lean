import PlaneArchive.Wire.Varint

/-! # Numbered fields

A message is a sequence of numbered fields. Reading splits it into fields without knowing what
they mean; unknown fields, groups among them, are carried along or passed over, so that only a
byte string that is no message at all is refused.
-/
namespace PlaneArchive.Wire

inductive WireType where
  | varint
  | fixed64
  | delimited
  | groupStart
  | groupEnd
  | fixed32
  deriving DecidableEq, Repr

namespace WireType

def code : WireType → Nat
  | varint => 0
  | fixed64 => 1
  | delimited => 2
  | groupStart => 3
  | groupEnd => 4
  | fixed32 => 5

def ofCode? : Nat → Option WireType
  | 0 => some varint
  | 1 => some fixed64
  | 2 => some delimited
  | 3 => some groupStart
  | 4 => some groupEnd
  | 5 => some fixed32
  | _ => none

end WireType

structure Key where
  number : Nat
  wireType : WireType
  deriving DecidableEq, Repr

namespace Key

def encode (key : Key) : Bytes := Varint.encode (key.number * 8 + key.wireType.code)

def decode (bytes : Bytes) : Except WireError (Key × Bytes) :=
  match Varint.decode bytes with
  | .error e => .error e
  | .ok (n, rest) =>
    if UInt32.size ≤ n then .error .invalidKey
    else
      match WireType.ofCode? (n % 8) with
      | none => .error .unknownWireType
      | some wireType =>
        if n / 8 = 0 then .error .zeroFieldNumber else .ok (⟨n / 8, wireType⟩, rest)

theorem length_of_decode {key : Key} {bytes rest : Bytes} (h : decode bytes = .ok (key, rest)) :
    rest.length < bytes.length := by
  simp only [decode] at h
  split at h
  · cases h
  · next hv =>
    split at h
    · cases h
    · split at h
      · cases h
      · split at h
        · cases h
        · injection h with h
          injection h with _ h
          subst h
          exact Varint.length_of_decode hv

end Key

inductive Content where
  | varint (n : Nat)
  | fixed64 (bits : Bytes)
  | delimited (bytes : Bytes)
  /-- A group; no message of this library has one, so what is inside is not kept. -/
  | group
  | fixed32 (bits : Bytes)
  deriving DecidableEq, Repr

structure Field where
  number : Nat
  content : Content
  deriving DecidableEq, Repr

def encodeNumber (number n : Nat) : Bytes :=
  Key.encode ⟨number, .varint⟩ ++ Varint.encode n

/-- The bytes of a field with delimited content whose announced length is `length`. -/
def encodeDelimited (number length : Nat) (content : Bytes) : Bytes :=
  Key.encode ⟨number, .delimited⟩ ++ Varint.encode length ++ content

def keyLen (number : Nat) : Nat := Varint.encodedLen (number * 8)

def numberLen (number n : Nat) : Nat := keyLen number + Varint.encodedLen n

/-- The length of `encodeDelimited` for content of `length` bytes, computed without writing it. -/
def delimitedLen (number length : Nat) : Nat :=
  keyLen number + Varint.encodedLen length + length

def decodeScalar (wireType : WireType) (bytes : Bytes) : Except WireError (Content × Bytes) :=
  match wireType with
  | .varint => (Varint.decode bytes).map fun (n, rest) => (.varint n, rest)
  | .fixed64 =>
    match Bytes.split? 8 bytes with
    | some (bits, rest) => .ok (.fixed64 bits, rest)
    | none => .error .truncated
  | .delimited =>
    match Varint.decode bytes with
    | .error e => .error e
    | .ok (length, rest) =>
      match Bytes.split? length rest with
      | some (content, rest) => .ok (.delimited content, rest)
      | none => .error .truncated
  | .fixed32 =>
    match Bytes.split? 4 bytes with
    | some (bits, rest) => .ok (.fixed32 bits, rest)
    | none => .error .truncated
  | .groupStart | .groupEnd => .error .unmatchedGroupEnd

theorem length_of_decodeScalar {wireType : WireType} {content : Content} {bytes rest : Bytes}
    (h : decodeScalar wireType bytes = .ok (content, rest)) : rest.length ≤ bytes.length := by
  cases wireType with
  | varint =>
    simp only [decodeScalar] at h
    cases hv : Varint.decode bytes with
    | error e => rw [hv] at h; cases h
    | ok p =>
      rw [hv] at h
      obtain ⟨n, r⟩ := p
      injection h with h
      injection h with _ h
      subst h
      exact Nat.le_of_lt (Varint.length_of_decode hv)
  | fixed64 =>
    simp only [decodeScalar] at h
    split at h
    · next hs =>
      injection h with h
      injection h with _ h
      subst h
      have := Bytes.length_rest_of_split? hs
      omega
    · cases h
  | delimited =>
    simp only [decodeScalar] at h
    split at h
    · cases h
    · next hv =>
      split at h
      · next hs =>
        injection h with h
        injection h with _ h
        subst h
        have := Bytes.length_rest_of_split? hs
        have := Varint.length_of_decode hv
        omega
      · cases h
  | fixed32 =>
    simp only [decodeScalar] at h
    split at h
    · next hs =>
      injection h with h
      injection h with _ h
      subst h
      have := Bytes.length_rest_of_split? hs
      omega
    · cases h
  | groupStart => simp [decodeScalar] at h
  | groupEnd => simp [decodeScalar] at h

/-- Passes over the rest of the groups whose numbers are `nesting`, innermost first. A field
inside a group is accepted at depth below `limit` only. -/
def skipGroups (limit : Nat) (nesting : List Nat) (bytes : Bytes) : Except WireError Bytes :=
  match nesting with
  | [] => .ok bytes
  | number :: outer =>
    match _h : Key.decode bytes with
    | .error e => .error e
    | .ok (⟨n, .groupEnd⟩, rest) =>
      if n = number then skipGroups limit outer rest else .error .unmatchedGroupEnd
    | .ok (⟨n, .groupStart⟩, rest) =>
      if limit ≤ outer.length + 1 then .error .nestingLimit
      else skipGroups limit (n :: number :: outer) rest
    | .ok (⟨_, wireType⟩, rest) =>
      if limit ≤ outer.length + 1 then .error .nestingLimit
      else
        match _hs : decodeScalar wireType rest with
        | .error e => .error e
        | .ok (_, rest) => skipGroups limit (number :: outer) rest
termination_by bytes.length
decreasing_by
  · exact Key.length_of_decode ‹_›
  · exact Key.length_of_decode ‹_›
  · exact Nat.lt_of_le_of_lt (length_of_decodeScalar ‹_›) (Key.length_of_decode ‹_›)

theorem length_of_skipGroups {limit : Nat} {nesting : List Nat} {bytes rest : Bytes}
    (h : skipGroups limit nesting bytes = .ok rest) : rest.length ≤ bytes.length := by
  fun_induction skipGroups limit nesting bytes <;>
    grind [→ Key.length_of_decode, → length_of_decodeScalar]

def decodeField (limit : Nat) (bytes : Bytes) : Except WireError (Field × Bytes) :=
  match Key.decode bytes with
  | .error e => .error e
  | .ok (⟨number, .groupStart⟩, rest) =>
    match skipGroups limit [number] rest with
    | .error e => .error e
    | .ok rest => .ok (⟨number, .group⟩, rest)
  | .ok (⟨number, wireType⟩, rest) =>
    match decodeScalar wireType rest with
    | .error e => .error e
    | .ok (content, rest) => .ok (⟨number, content⟩, rest)

theorem length_of_decodeField {limit : Nat} {field : Field} {bytes rest : Bytes}
    (h : decodeField limit bytes = .ok (field, rest)) : rest.length < bytes.length := by
  simp only [decodeField] at h
  grind [→ Key.length_of_decode, → length_of_decodeScalar, → length_of_skipGroups]

def decodeFields (limit : Nat) (bytes : Bytes) : Except WireError (List Field) :=
  match bytes with
  | [] => .ok []
  | byte :: more =>
    match _h : decodeField limit (byte :: more) with
    | .error e => .error e
    | .ok (field, rest) =>
      match decodeFields limit rest with
      | .error e => .error e
      | .ok fields => .ok (field :: fields)
termination_by bytes.length
decreasing_by exact length_of_decodeField ‹_›

end PlaneArchive.Wire
