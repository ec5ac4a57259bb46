import PlaneArchive.Header.Basic
import PlaneArchive.Wire.Field

/-! # Headers as bytes

A header is a message of numbered fields. What is absent is not written, and what is present is
written even if it is zero or empty, so presence survives. Reading lets the last occurrence of a
field win, collects the entries in order and ignores unknown fields.
-/
namespace PlaneArchive

open Wire

/-- The 64-bit number under which a signed 32-bit number travels: its sign is extended. -/
def Wire.ofInt32 (n : Int32) : Nat := n.toInt64.toUInt64.toNat

/-- The signed 32-bit number in the low half of a 64-bit number. -/
def Wire.toInt32 (n : Nat) : Int32 := (UInt32.ofNat n).toInt32

namespace Wire.Content

def number : Content → Except WireError Nat
  | varint n => .ok n
  | _ => .error .unexpectedWireType

def bytes : Content → Except WireError Bytes
  | delimited content => .ok content
  | _ => .error .unexpectedWireType

def text (content : Content) : Except WireError String :=
  match content.bytes with
  | .error e => .error e
  | .ok content =>
    match Utf8.decode? content with
    | some text => .ok text
    | none => .error .invalidText

end Wire.Content

namespace Wire

def encodeText? (number : Nat) : Option String → Bytes
  | some text => encodeDelimited number text.utf8ByteSize (Utf8.encode text)
  | none => []

def encodeNumber? (number : Nat) : Option Nat → Bytes
  | some n => encodeNumber number n
  | none => []

def textLen? (number : Nat) : Option String → Nat
  | some text => delimitedLen number text.utf8ByteSize
  | none => 0

def numberLen? (number : Nat) : Option Nat → Nat
  | some n => numberLen number n
  | none => 0

def nestingLimit : Nat := 100

end Wire

namespace FileMetadata

def encode (entry : FileMetadata) : Bytes :=
  encodeText? 1 entry.name? ++ encodeNumber? 2 (entry.size?.map UInt32.toNat)

def encodedLen (entry : FileMetadata) : Nat :=
  textLen? 1 entry.name? + numberLen? 2 (entry.size?.map UInt32.toNat)

def addField (entry : FileMetadata) (field : Field) : Except WireError FileMetadata :=
  match field.number with
  | 1 => field.content.text.map fun text => { entry with name? := some text }
  | 2 => field.content.number.map fun n => { entry with size? := some (UInt32.ofNat n) }
  | _ => .ok entry

/-- Reads an entry in which groups may be nested below `limit`. -/
def decodeWithin (limit : Nat) (bytes : Bytes) : Except WireError FileMetadata :=
  (decodeFields limit bytes).bind fun fields => fields.foldlM addField {}

def decode (bytes : Bytes) : Except WireError FileMetadata := decodeWithin nestingLimit bytes

end FileMetadata

namespace Header

/-- One entry as a field of the header, under the length computed for it. -/
def encodeEntry (entry : FileMetadata) : Bytes :=
  encodeDelimited 5 entry.encodedLen entry.encode

def encode (header : Header) : Bytes :=
  encodeText? 1 header.magic?
    ++ encodeNumber? 2 (header.version?.map UInt32.toNat)
    ++ encodeNumber? 3 (header.payloadSize?.map UInt32.toNat)
    ++ encodeNumber? 4 (header.layoutCode?.map ofInt32)
    ++ header.files.flatMap encodeEntry
    ++ encodeNumber? 6 (header.pageSize?.map UInt32.toNat)

/-- The length of the encoded header, computed without encoding it. -/
def encodedLen (header : Header) : Nat :=
  textLen? 1 header.magic?
    + numberLen? 2 (header.version?.map UInt32.toNat)
    + numberLen? 3 (header.payloadSize?.map UInt32.toNat)
    + numberLen? 4 (header.layoutCode?.map ofInt32)
    + header.files.foldr (fun entry total => delimitedLen 5 entry.encodedLen + total) 0
    + numberLen? 6 (header.pageSize?.map UInt32.toNat)

/-- The header in a buffer with room for `capacity` bytes. -/
def encodeWithin (capacity : Nat) (header : Header) : Except ArchiveError Bytes :=
  if capacity < header.encodedLen then .error (.headerEncode header.encodedLen capacity)
  else .ok header.encode

theorem encodeWithin_of_le {capacity : Nat} {header : Header} (h : header.encodedLen ≤ capacity) :
    header.encodeWithin capacity = .ok header.encode := if_neg (Nat.not_lt.mpr h)

def addField (header : Header) (field : Field) : Except WireError Header :=
  match field.number with
  | 1 => field.content.text.map fun text => { header with magic? := some text }
  | 2 => field.content.number.map fun n => { header with version? := some (UInt32.ofNat n) }
  | 3 => field.content.number.map fun n => { header with payloadSize? := some (UInt32.ofNat n) }
  | 4 => field.content.number.map fun n => { header with layoutCode? := some (toInt32 n) }
  | 5 =>
    (field.content.bytes.bind (FileMetadata.decodeWithin (nestingLimit - 1))).map fun entry =>
      { header with files := header.files ++ [entry] }
  | 6 => field.content.number.map fun n => { header with pageSize? := some (UInt32.ofNat n) }
  | _ => .ok header

def decode (bytes : Bytes) : Except WireError Header :=
  (decodeFields nestingLimit bytes).bind fun fields => fields.foldlM addField {}

end Header
end PlaneArchive
