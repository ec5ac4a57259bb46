import PlaneArchive.Compression
import PlaneArchive.Zstandard.Frame

/-! # Stored frames

A Zstandard frame may store its blocks as they are. Writing uses only such blocks, whatever the
level, under a header with a window of 128 KiB and nothing else.
-/
namespace PlaneArchive.Zstandard

/-- Descriptor and window of a stored frame. -/
def storedHeader : Bytes := [0x00, 0x38]

/-- The header of a stored block: its size, and whether it is the last of its frame. -/
def blockHeader (last : Bool) (size : Nat) : Bytes :=
  let n := size * 8 + if last then 1 else 0
  [UInt8.ofNat n, UInt8.ofNat (n / 256), UInt8.ofNat (n / 65536)]

def storedBlocks (content : Bytes) : Bytes :=
  match _h : content.drop blockLimit with
  | [] => blockHeader true content.length ++ content
  | byte :: more =>
    blockHeader false blockLimit ++ (content.take blockLimit ++ storedBlocks (byte :: more))
termination_by content.length
decreasing_by
  have := congrArg List.length _h
  simp only [List.length_drop, blockLimit] at this
  simp only [List.length_cons] at *
  omega

def store (content : Bytes) : Bytes := magic ++ (storedHeader ++ storedBlocks content)

theorem ofLittleEndian_blockHeader (last : Bool) {size : Nat} (h : size ≤ blockLimit) :
    Bytes.ofLittleEndian (blockHeader last size) = size * 8 + if last then 1 else 0 := by
  simp only [blockLimit] at h
  simp only [blockHeader, Bytes.ofLittleEndian, UInt8.toNat_ofNat']
  split <;> omega

theorem readBlocks?_block (header : FrameHeader) (state : FrameState) (last : Bool)
    (content rest : Bytes) (hb : content.length ≤ blockLimit) (hl : header.limit = blockLimit) :
    readBlocks? header state (blockHeader last content.length ++ (content ++ rest)) =
      if last then some (state.out ++ content, rest)
      else readBlocks? header { state with out := state.out ++ content } rest := by
  have hn := ofLittleEndian_blockHeader last hb
  have hs : Bytes.split? 3 (blockHeader last content.length ++ (content ++ rest)) =
      some (blockHeader last content.length, content ++ rest) :=
    Bytes.split?_append (blockHeader last content.length) (content ++ rest)
  have hc : Bytes.split? content.length (content ++ rest) = some (content, rest) :=
    Bytes.split?_append content rest
  have hk : Bytes.ofLittleEndian (blockHeader last content.length) / 2 % 4 = 0 := by
    rw [hn]; split <;> omega
  have hq : Bytes.ofLittleEndian (blockHeader last content.length) / 8 = content.length := by
    rw [hn]; split <;> omega
  have hm : Bytes.ofLittleEndian (blockHeader last content.length) % 2 = 1 ↔ last = true := by
    rw [hn]; split <;> simp_all <;> omega
  have hr : state.block? header (Bytes.ofLittleEndian (blockHeader last content.length) / 2 % 4)
      (Bytes.ofLittleEndian (blockHeader last content.length) / 8) (content ++ rest) =
      some ({ state with out := state.out ++ content }, rest) := by
    simp [FrameState.block?, hk, hq, hc, hl, hb]
  rw [readBlocks?]
  grind

theorem readBlocks?_storedBlocks (header : FrameHeader) (state : FrameState)
    (content rest : Bytes) (hl : header.limit = blockLimit) :
    readBlocks? header state (storedBlocks content ++ rest) =
      some (state.out ++ content, rest) := by
  fun_induction storedBlocks content generalizing state with
  | case1 content hd =>
    have hb := List.drop_eq_nil_iff.1 hd
    simp [readBlocks?_block header state true content rest hb hl]
  | case2 content byte more hd ih =>
    have ht : (content.take blockLimit).length = blockLimit := by
      have := congrArg List.length hd
      simp only [List.length_drop, List.length_cons] at this
      simp only [List.length_take]
      omega
    have hb := readBlocks?_block header state false (content.take blockLimit)
      (storedBlocks (byte :: more) ++ rest) (Nat.le_of_eq ht) hl
    rw [ht] at hb
    rw [List.append_assoc, List.append_assoc, hb, if_neg (by decide), ih, ← hd]
    refine congrArg (fun out => some (out, rest)) (Array.ext' ?_)
    simp

theorem read?_storedHeader (rest : Bytes) :
    FrameHeader.read? (storedHeader ++ rest) = some (⟨blockLimit, none, false⟩, rest) := by
  have hd : Bytes.split? 1 (storedHeader ++ rest) = some ([0x00], 0x38 :: rest) := rfl
  have hw : Bytes.split? 1 (0x38 :: rest) = some ([0x38], rest) := rfl
  have hz : Bytes.split? 0 rest = some ([], rest) := rfl
  have hl : FrameHeader.windowOf 0x38 = blockLimit := rfl
  have hb : (FrameHeader.mk blockLimit none false).isBearable = true := rfl
  have hdictionary : FrameHeader.dictionaryWidth 0 = 0 := rfl
  have hsize : FrameHeader.contentSizeWidth false 0 = 0 := rfl
  simp [FrameHeader.read?, FrameHeader.readWindow?, FrameHeader.readContentSize?, hdictionary,
    hsize, hd, hw, hz, hl, hb, Bytes.ofLittleEndian]

theorem readFrame?_store (content rest : Bytes) :
    readFrame? (store content ++ rest) = some (content, rest) := by
  have h : Bytes.split? 4 (store content ++ rest) =
      some (magic, storedHeader ++ (storedBlocks content ++ rest)) := by
    rw [store, List.append_assoc, List.append_assoc]
    exact Bytes.split?_append magic (storedHeader ++ (storedBlocks content ++ rest))
  have hb := readBlocks?_storedBlocks ⟨blockLimit, none, false⟩ {} content rest rfl
  simp [readFrame?, readContent?, checkContent?, h, hb, read?_storedHeader]

/-- Takes in all content, and stores it when the stream is finished. -/
def encoder : Encoder where
  State := Buffer
  start _ := {}
  feed buffer run := ([], buffer.push run)
  finish buffer := store buffer.bytes

theorem encode_eq (buffer : Buffer) (runs : List Bytes) :
    encoder.encode buffer runs = store (buffer.bytes ++ runs.flatten) := by
  induction runs generalizing buffer with
  | nil =>
    rw [List.flatten_nil, List.append_nil]
    rfl
  | cons run runs ih =>
    have h := ih (buffer.push run)
    rw [Buffer.bytes_push, List.append_assoc] at h
    exact h

theorem readFrames?_store (content rest : Bytes) :
    readFrames? (store content ++ rest) = (readFrames? rest).map (content :: ·) := by
  have h := readFrame?_store content rest
  have hc : store content ++ rest = 0x28 :: ((store content).tail ++ rest) := rfl
  rw [hc] at h ⊢
  rw [readFrames?]
  split
  · next hn => rw [h] at hn; cases hn
  · next hs =>
    rw [h] at hs
    injection hs with hs
    injection hs with hf hr
    subst hf hr
    rfl

def compressor : Compressor where
  toEncoder := encoder
  streams? := readFrames?
  streams?_nil := by simp [readFrames?]
  streams?_append {_ runs rest} := by
    have h : encoder.encode {} runs = store runs.flatten := encode_eq {} runs
    exact h ▸ readFrames?_store runs.flatten rest

end PlaneArchive.Zstandard
