import PlaneArchive.Tar.Attribute
import PlaneArchive.Tar.Sparse

/-! # Entries of a tar file

A tar file is read from its start, entry by entry, until it ends, until a block of zeros, or until
something is wrong. The plain files found before that are kept.
-/
namespace PlaneArchive.Tar

structure Entry where
  path : Bytes
  /-- The size that the tar file declares for the content. -/
  size : Nat
  content : Bytes
  deriving DecidableEq, Repr

/-- What was found, and why reading stopped before the end, if it did. -/
structure Extraction where
  entries : List Entry
  fault? : Option TarFault
  deriving DecidableEq, Repr

structure Pending where
  longName? : Option Bytes := none
  longLink? : Option Bytes := none
  attributes? : Option Bytes := none
  deriving DecidableEq, Repr

namespace Pending

def isEmpty (pending : Pending) : Bool :=
  pending.longName?.isNone && pending.longLink?.isNone && pending.attributes?.isNone

/-- The size of the content that follows a header: declared attributes win over the header, but
they are not about an entry that is itself a description. -/
def size? (pending : Pending) (header : Header) : Option Nat :=
  header.size?.map fun size =>
    if header.isDescription then size else (pending.attributes?.bind Attribute.size?).getD size

/-- The path of an entry: a long name wins over declared attributes, and these over the header.
A zero byte at the end of a long name does not belong to it. -/
def path (pending : Pending) (header : Header) : Bytes :=
  match pending.longName? with
  | some name => if name.getLast? = some 0 then name.dropLast else name
  | none => (pending.attributes?.bind Attribute.path?).getD header.path

end Pending

/-- The next header, after `gap` bytes that belong to the entry before it, and the bytes after the
header. There is none at the end of the bytes and at a block of zeros. -/
def nextHeader (gap : Nat) (bytes : Bytes) : Except TarFault (Option (Header × Bytes)) :=
  match Bytes.split? gap bytes with
  | none => .error .shortSkip
  | some (_, []) => .ok none
  | some (_, byte :: more) =>
    match Bytes.split? blockSize (byte :: more) with
    | none => .error .shortHeader
    | some (block, rest) =>
      if block.all (· == 0) then .ok none
      else if Header.isIntact ⟨block⟩ then .ok (some (⟨block⟩, rest))
      else .error .badChecksum

theorem length_of_nextHeader {gap : Nat} {header : Header} {bytes rest : Bytes}
    (h : nextHeader gap bytes = .ok (some (header, rest))) : rest.length < bytes.length := by
  simp only [nextHeader, blockSize] at h
  grind [→ Bytes.length_rest_of_split?]

def extractFrom (pending : Pending) (gap : Nat) (bytes : Bytes) : Extraction :=
  match _h : nextHeader gap bytes with
  | .error fault => ⟨[], some fault⟩
  | .ok none => ⟨[], if pending.isEmpty then none else some .danglingDescription⟩
  | .ok (some (header, rest)) =>
    match pending.size? header with
    | none => ⟨[], some .badNumber⟩
    | some size =>
      let content := rest.take size
      match header.kind with
      | .longName =>
        if pending.longName?.isSome then ⟨[], some .repeatedDescription⟩
        else extractFrom { pending with longName? := some content } (occupied size) rest
      | .longLink =>
        if pending.longLink?.isSome then ⟨[], some .repeatedDescription⟩
        else extractFrom { pending with longLink? := some content } (occupied size) rest
      | .attributes =>
        if pending.attributes?.isSome then ⟨[], some .repeatedDescription⟩
        else extractFrom { pending with attributes? := some content } (occupied size) rest
      | .sparse =>
        match _hs : checkSparse header size rest with
        | .error fault => ⟨[], some fault⟩
        | .ok rest => extractFrom {} (occupied size) rest
      | .other => extractFrom {} (occupied size) rest
      | .file =>
        if content.length = size then
          let others := extractFrom {} (occupied size) rest
          { others with entries := ⟨pending.path header, size, content⟩ :: others.entries }
        else ⟨[], some .shortContent⟩
termination_by bytes.length
decreasing_by
  all_goals
    have := length_of_nextHeader ‹_›
    first
    | exact this
    | exact Nat.lt_of_le_of_lt (length_of_checkSparse ‹_›) this

def extract (bytes : Bytes) : Extraction := extractFrom {} 0 bytes

end PlaneArchive.Tar
