import PlaneArchive.Bytes

/-! # The 32-bit cyclic redundancy check

The remainder of a byte string modulo the reflected polynomial of gzip, one bit at a time.
-/
namespace PlaneArchive.Gzip

/-- One bit of the division. -/
def crcBit (state : UInt32) : UInt32 :=
  if state &&& 1 = 1 then (state >>> 1) ^^^ 0xEDB88320 else state >>> 1

def crcByte (state : UInt32) (byte : UInt8) : UInt32 :=
  let state := state ^^^ byte.toUInt32
  crcBit (crcBit (crcBit (crcBit (crcBit (crcBit (crcBit (crcBit state)))))))

def crc32 (bytes : Bytes) : UInt32 := ~~~(bytes.foldl crcByte 0xFFFFFFFF)

end PlaneArchive.Gzip
