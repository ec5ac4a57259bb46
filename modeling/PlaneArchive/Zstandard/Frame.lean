import PlaneArchive.Zstandard.Checksum
import PlaneArchive.Zstandard.Literals
import PlaneArchive.Zstandard.Sequence

/-! # Zstandard frames

A Zstandard file is a sequence of frames. A frame has a header, blocks that are stored, one byte
repeated, or coded, and possibly a hash of its content. A frame of another kind is passed over.
-/
namespace PlaneArchive.Zstandard

def blockLimit : Nat := 128 * 1024

structure FrameHeader where
  window : Nat
  /-- The size of the content, if the header tells. -/
  contentSize? : Option Nat
  hasHash : Bool
  deriving DecidableEq, Repr

namespace FrameHeader

def limit (header : FrameHeader) : Nat := min header.window blockLimit

/-- The window that a byte stands for: a power of two and some eighths of it. -/
def windowOf (byte : UInt8) : Nat :=
  let power := 1 <<< (10 + byte.toNat / 8)
  power + power / 8 * (byte.toNat % 8)

/-- Can the frame be read? A window of more than 128 MiB is too large to be kept; a frame that tells
the size of its content needs none, and its window only has to be below 4 GiB. -/
def isBearable (header : FrameHeader) : Bool :=
  if header.contentSize?.isSome then header.window < UInt32.size else header.window ≤ 1 <<< 27

/-- The window that a header tells, if it does, and the bytes after it. -/
def readWindow? (isSingle : Bool) (bytes : Bytes) : Option (Option Nat × Bytes) :=
  if isSingle then some (none, bytes)
  else (Bytes.split? 1 bytes).map fun (window, rest) => (some (windowOf (window.headD 0)), rest)

/-- The content size that a header tells, if it does, and the bytes after it. -/
def readContentSize? (width : Nat) (bytes : Bytes) : Option (Option Nat × Bytes) :=
  (Bytes.split? width bytes).map fun (field, rest) =>
    let n := Bytes.ofLittleEndian field
    (if width = 0 ∨ (width = 8 ∧ n = UInt64.size - 1) then none
      else some (if width = 2 then n + 256 else n), rest)

def dictionaryWidth (descriptor : Nat) : Nat := (1 <<< (descriptor % 4)) / 2

def contentSizeWidth (isSingle : Bool) (descriptor : Nat) : Nat :=
  match descriptor / 64 with
  | 0 => if isSingle then 1 else 0
  | n => 1 <<< n

/-- Reads a header. A frame that refers to a dictionary cannot be read. -/
def read? (bytes : Bytes) : Option (FrameHeader × Bytes) := do
  let (descriptor, rest) ← Bytes.split? 1 bytes
  let descriptor := Bytes.ofLittleEndian descriptor
  let isSingle := descriptor / 32 % 2 = 1
  let (told?, rest) ← readWindow? isSingle rest
  let (dictionary, rest) ← Bytes.split? (dictionaryWidth descriptor) rest
  let (contentSize?, rest) ← readContentSize? (contentSizeWidth isSingle descriptor) rest
  let header : FrameHeader :=
    { window := told?.getD (contentSize?.getD 0), contentSize?, hasHash := descriptor / 4 % 2 = 1 }
  if descriptor / 8 % 2 = 1 ∨ Bytes.ofLittleEndian dictionary ≠ 0 then none
  else if header.isBearable then return (header, rest) else none

end FrameHeader

/-- What a block needs to know of the blocks before it in the frame. -/
structure FrameState where
  out : Array UInt8 := #[]
  code? : Option WeightedCode := none
  tables? : Option SequenceTables := none
  distances : Distances := {}

namespace FrameState

def coded? (state : FrameState) (limit : Nat) (block : Bytes) : Option FrameState := do
  let (literals, code?, rest) ← readLiterals? limit state.code? block
  let (sequences, tables?) ← readSequences? state.tables? rest
  let (out, distances) ← applySequences? literals sequences 0 state.distances state.out
  if limit < out.size - state.out.size then none else return { out, code?, tables?, distances }

/-- Appends a block, with the bytes that follow its header. Returns the bytes after it. A coded
block of no bytes is passed over, unless the size of the content is known. -/
def block? (state : FrameState) (header : FrameHeader) (kind size : Nat) (bytes : Bytes) :
    Option (FrameState × Bytes) :=
  if header.limit < size then none
  else
    match kind with
    | 0 => (Bytes.split? size bytes).map fun (content, rest) =>
      ({ state with out := state.out ++ content }, rest)
    | 1 => (Bytes.split? 1 bytes).map fun (byte, rest) =>
      ({ state with out := state.out ++ Array.replicate size (byte.headD 0) }, rest)
    | 2 =>
      if size = 0 ∧ header.contentSize? = none then some (state, bytes)
      else
        match Bytes.split? size bytes with
        | none => none
        | some (block, rest) => (state.coded? header.limit block).map fun state => (state, rest)
    | _ => none

end FrameState

theorem length_of_block? {state state' : FrameState} {header : FrameHeader} {kind size : Nat}
    {bytes rest : Bytes} (h : state.block? header kind size bytes = some (state', rest)) :
    rest.length ≤ bytes.length := by
  simp only [FrameState.block?] at h
  grind [Option.map_eq_some_iff, → Bytes.length_rest_of_split?]

def readBlocks? (header : FrameHeader) (state : FrameState) (bytes : Bytes) :
    Option (Array UInt8 × Bytes) :=
  match _h : Bytes.split? 3 bytes with
  | none => none
  | some (front, rest) =>
    let n := Bytes.ofLittleEndian front
    match _hb : state.block? header (n / 2 % 4) (n / 8) rest with
    | none => none
    | some (state, rest) =>
      if n % 2 = 1 then some (state.out, rest) else readBlocks? header state rest
termination_by bytes.length
decreasing_by
  have := Bytes.length_rest_of_split? _h
  have := length_of_block? _hb
  omega

/-- Do the size and the hash of the content match what the frame says? Returns the bytes after the
hash. -/
def checkContent? (header : FrameHeader) (content rest : Bytes) : Option Bytes :=
  if header.contentSize?.all (· = content.length) then
    if header.hasHash then
      match Bytes.split? 4 rest with
      | none => none
      | some (check, rest) =>
        if Bytes.ofLittleEndian check = (hash content).toNat % UInt32.size then some rest else none
    else some rest
  else none

def readContent? (bytes : Bytes) : Option (Bytes × Bytes) :=
  match FrameHeader.read? bytes with
  | none => none
  | some (header, rest) =>
    match readBlocks? header {} rest with
    | none => none
    | some (out, rest) =>
      (checkContent? header out.toList rest).map fun rest => (out.toList, rest)

def magic : Bytes := [0x28, 0xB5, 0x2F, 0xFD]

/-- Reads a frame. One to be passed over has a magic number of its own, then its size; it holds
nothing. -/
def readFrame? (bytes : Bytes) : Option (Bytes × Bytes) :=
  match Bytes.split? 4 bytes with
  | none => none
  | some (start, rest) =>
    if start = magic then readContent? rest
    else if Bytes.ofLittleEndian start / 16 = 0x184D2A5 then
      match Bytes.split? 4 rest with
      | none => none
      | some (size, rest) =>
        (Bytes.split? (Bytes.ofLittleEndian size) rest).map fun (_, rest) => ([], rest)
    else none

theorem length_of_readBlocks? {header : FrameHeader} {state : FrameState} {out : Array UInt8}
    {bytes rest : Bytes} (h : readBlocks? header state bytes = some (out, rest)) :
    rest.length ≤ bytes.length := by
  fun_induction readBlocks? header state bytes <;>
    grind [→ Bytes.length_rest_of_split?, → length_of_block?]

theorem length_of_header {header : FrameHeader} {bytes rest : Bytes}
    (h : FrameHeader.read? bytes = some (header, rest)) : rest.length ≤ bytes.length := by
  simp only [FrameHeader.read?, FrameHeader.readWindow?, FrameHeader.readContentSize?,
    Option.bind_eq_bind, Option.bind_eq_some_iff] at h
  grind [Option.map_eq_some_iff, → Bytes.length_rest_of_split?]

theorem length_of_readFrame? {bytes content rest : Bytes}
    (h : readFrame? bytes = some (content, rest)) : rest.length < bytes.length := by
  simp only [readFrame?, readContent?, checkContent?] at h
  grind [Option.map_eq_some_iff, → Bytes.length_rest_of_split?, → length_of_readBlocks?,
    → length_of_header]

def readFrames? (bytes : Bytes) : Option (List Bytes) :=
  match bytes with
  | [] => some []
  | byte :: more =>
    match _h : readFrame? (byte :: more) with
    | none => none
    | some (content, rest) => (readFrames? rest).map (content :: ·)
termination_by bytes.length
decreasing_by exact length_of_readFrame? _h

end PlaneArchive.Zstandard
