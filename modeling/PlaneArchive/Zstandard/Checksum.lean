import PlaneArchive.Bytes

/-! # The 64-bit content hash

The hash of a frame's content is XXH64 with seed zero: four lanes take eight bytes of every stripe
of 32, are merged, and the bytes that are left are mixed in one by one.
-/
namespace PlaneArchive.Zstandard

namespace Hash

def prime1 : UInt64 := 0x9E3779B185EBCA87

def prime2 : UInt64 := 0xC2B2AE3D27D4EB4F

def prime3 : UInt64 := 0x165667B19E3779F9

def prime4 : UInt64 := 0x85EBCA77C2B2AE63

def prime5 : UInt64 := 0x27D4EB2F165667C5

def rotate (word count : UInt64) : UInt64 := (word <<< count) ||| (word >>> (64 - count))

/-- The word whose bytes are given, least significant first. -/
def word (bytes : Bytes) : UInt64 := UInt64.ofNat (Bytes.ofLittleEndian bytes)

def mixWord (lane word : UInt64) : UInt64 := rotate (lane + word * prime2) 31 * prime1

structure Lanes where
  first : UInt64 := prime1 + prime2
  second : UInt64 := prime2
  third : UInt64 := 0
  fourth : UInt64 := 0 - prime1

namespace Lanes

def mix (lanes : Lanes) (stripe : Bytes) : Lanes :=
  { first := mixWord lanes.first (word (Bytes.slice 0 8 stripe))
    second := mixWord lanes.second (word (Bytes.slice 8 8 stripe))
    third := mixWord lanes.third (word (Bytes.slice 16 8 stripe))
    fourth := mixWord lanes.fourth (word (Bytes.slice 24 8 stripe)) }

def merge (lanes : Lanes) : UInt64 :=
  let sum := rotate lanes.first 1 + rotate lanes.second 7 + rotate lanes.third 12
    + rotate lanes.fourth 18
  [lanes.first, lanes.second, lanes.third, lanes.fourth].foldl
    (fun hash lane => (hash ^^^ mixWord 0 lane) * prime1 + prime4) sum

end Lanes

/-- Takes all whole stripes, and returns the bytes that are left. -/
def stripes (lanes : Lanes) (bytes : Bytes) : Lanes × Bytes :=
  match _h : Bytes.split? 32 bytes with
  | none => (lanes, bytes)
  | some (stripe, rest) => stripes (lanes.mix stripe) rest
termination_by bytes.length
decreasing_by
  have := Bytes.length_rest_of_split? _h
  omega

/-- Mixes in the bytes after the last stripe: words of eight, one of four, then single bytes. -/
def mixRest (hash : UInt64) (bytes : Bytes) : UInt64 :=
  match _h : Bytes.split? 8 bytes with
  | some (bytes, rest) =>
    mixRest (rotate (hash ^^^ mixWord 0 (word bytes)) 27 * prime1 + prime4) rest
  | none =>
    let (hash, rest) :=
      match Bytes.split? 4 bytes with
      | some (bytes, rest) => (rotate (hash ^^^ word bytes * prime1) 23 * prime2 + prime3, rest)
      | none => (hash, bytes)
    rest.foldl (fun hash byte => rotate (hash ^^^ byte.toUInt64 * prime5) 11 * prime1) hash
termination_by bytes.length
decreasing_by
  have := Bytes.length_rest_of_split? _h
  omega

/-- Lets every bit of the result depend on every bit before. -/
def avalanche (hash : UInt64) : UInt64 :=
  let hash := (hash ^^^ (hash >>> 33)) * prime2
  let hash := (hash ^^^ (hash >>> 29)) * prime3
  hash ^^^ (hash >>> 32)

end Hash

def hash (bytes : Bytes) : UInt64 :=
  let (lanes, rest) := Hash.stripes {} bytes
  let start := if bytes.length < 32 then Hash.prime5 else lanes.merge
  Hash.avalanche (Hash.mixRest (start + UInt64.ofNat bytes.length) rest)

end PlaneArchive.Zstandard
