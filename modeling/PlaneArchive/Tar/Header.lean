import PlaneArchive.Padding
import PlaneArchive.Text.Blank
import PlaneArchive.Text.Digits
import PlaneArchive.Text.Utf8

/-! # Tar headers

A tar file is a sequence of blocks of 512 bytes. An entry starts with a header block of fixed
fields; numbers are octal text, or base 256 when the top bit of the field is set.
-/
namespace PlaneArchive.Tar

def blockSize : Nat := 512

/-- The number of bytes that content of `size` bytes takes, in whole blocks. -/
def occupied (size : Nat) : Nat := roundUp size blockSize

/-- Octal text up to the first zero byte, between blanks. -/
def octal? (field : Bytes) : Option Nat :=
  (Utf8.decode? (Bytes.untilZero field)).bind fun text =>
    Digits.unsigned? 8 (trimBlanks text.toList)

/-- A number in either notation; of base 256 only the last eight bytes count. -/
def number? (field : Bytes) : Option Nat :=
  match field with
  | first :: _ =>
    if 0x80 ≤ first then some (Bytes.ofBigEndian (field.drop (field.length - 8)))
    else octal? field
  | [] => none

structure Header where
  block : Bytes
  deriving DecidableEq, Repr

inductive Kind where
  | file
  | longName
  /-- The content is the link target of the entry that follows. -/
  | longLink
  | attributes
  /-- A file with holes, described by a table of areas. -/
  | sparse
  /-- A directory, a link, a device, global attributes and everything else. -/
  | other
  deriving DecidableEq, Repr

namespace Header

def field (header : Header) (start count : Nat) : Bytes := Bytes.slice start count header.block

def name (header : Header) : Bytes := header.field 0 100

/-- The size of the content, or of the stored part of a sparse file. -/
def size? (header : Header) : Option Nat := number? (header.field 124 12)

def checksum? (header : Header) : Option Nat := octal? (header.field 148 8)

def typeFlag (header : Header) : UInt8 := (header.field 156 1).headD 0

def magic (header : Header) : Bytes := header.field 257 8

def directory (header : Header) : Bytes := header.field 345 155

def isUstar (header : Header) : Bool := header.magic == Utf8.encode "ustar\x0000"

def isGnu (header : Header) : Bool := header.magic == Utf8.encode "ustar  \x00"

/-- The sum of all bytes, with the checksum field itself read as blanks. -/
def sum (header : Header) : Nat :=
  let total (bytes : Bytes) : Nat := bytes.foldl (fun n byte => n + byte.toNat) 0
  total (header.block.take 148) + 8 * 32 + total (header.block.drop 156)

def isIntact (header : Header) : Bool := header.checksum? == some header.sum

/-- Entries that describe the next one are recognised in the two dialects only. -/
def kind (header : Header) : Kind :=
  let dialect := header.isUstar || header.isGnu
  let flag := header.typeFlag
  if flag = 0 ∨ flag = '0'.toUInt8 then .file
  else if flag = 'S'.toUInt8 then .sparse
  else if !dialect then .other
  else if flag = 'L'.toUInt8 then .longName
  else if flag = 'K'.toUInt8 then .longLink
  else if flag = 'x'.toUInt8 then .attributes
  else .other

/-- Is the content about other entries? Here the dialect does not matter, and attributes for all
entries, with flag `g`, count as well. -/
def isDescription (header : Header) : Bool :=
  (Utf8.encode "LKxg").contains header.typeFlag

def path (header : Header) : Bytes :=
  let name := Bytes.untilZero header.name
  let directory := Bytes.untilZero header.directory
  if header.isUstar && !directory.isEmpty then directory ++ '/'.toUInt8 :: name else name

end Header
end PlaneArchive.Tar
