import PlaneArchive.Frame
import PlaneArchive.Proofs.Header.Codec

/-! # Frames read back

A frame is self-contained: from the front of any byte string that starts with it, it is read back
whole, and what follows is left for the next frame.
-/
namespace PlaneArchive

namespace Bytes

theorem ofBigEndian_append (digits : Bytes) (digit : UInt8) :
    ofBigEndian (digits ++ [digit]) = ofBigEndian digits * 256 + digit.toNat := by
  simp [ofBigEndian]

theorem ofBigEndian_bigEndian {width n : ℕ} (hn : n < 256 ^ width) :
    ofBigEndian (bigEndian width n) = n := by
  induction width generalizing n with
  | zero =>
    have : n = 0 := by simpa using hn
    rw [this]
    rfl
  | succ width ih =>
    rw [bigEndian, ofBigEndian_append, ih (by rw [Nat.pow_succ] at hn; omega),
      UInt8.toNat_ofNat']
    omega

end Bytes

namespace Frame

/-- A frame that describes itself: its header gives the size of its payload, and the length of
its header fits the length field. -/
structure WellFormed (frame : Frame) : Prop where
  payloadSize_eq : frame.header.payloadSize.toNat = frame.payload.length
  header_lt : frame.header.encode.length < UInt32.size

theorem encode_eq (frame : Frame) :
    frame.encode =
      Bytes.bigEndian 4 frame.header.encode.length ++ (frame.header.encode ++ frame.payload) := by
  simp [encode, parts]

theorem length_encode (frame : Frame) :
    frame.encode.length = 4 + frame.header.encode.length + frame.payload.length := by
  rw [encode_eq, List.length_append, List.length_append, Bytes.length_bigEndian, Nat.add_assoc]

theorem encodeAll_cons (frame : Frame) (frames : List Frame) :
    encodeAll (frame :: frames) = frame.encode ++ encodeAll frames :=
  List.flatMap_cons

theorem encode_ne_nil (frame : Frame) : frame.encode ≠ [] := by
  intro h
  have := congrArg List.length h
  simp [encode_eq] at this

variable {frame : Frame} {frames : List Frame}

theorem read_encode (h : frame.WellFormed) (rest : Bytes) :
    read (frame.encode ++ rest) = .ok (frame, rest) := by
  have hlength : Bytes.split? 4 (frame.encode ++ rest) =
      some (Bytes.bigEndian 4 frame.header.encode.length,
        frame.header.encode ++ (frame.payload ++ rest)) := by
    have hs := Bytes.split?_append (Bytes.bigEndian 4 frame.header.encode.length)
      (frame.header.encode ++ (frame.payload ++ rest))
    rw [Bytes.length_bigEndian] at hs
    rw [encode_eq, List.append_assoc, List.append_assoc, hs]
  have hnumber : Bytes.ofBigEndian (Bytes.bigEndian 4 frame.header.encode.length) =
      frame.header.encode.length := Bytes.ofBigEndian_bigEndian h.header_lt
  have hheader : Header.decode frame.header.encode = .ok frame.header :=
    Header.decode_encode (h.header_lt.trans (by norm_num))
  simp only [read, hlength, hnumber, Bytes.split?_append, hheader, h.payloadSize_eq]

theorem readAll_nil : readAll [] = ([], none) := by rw [readAll]

theorem readAll_encode_append (h : frame.WellFormed) (rest : Bytes) :
    readAll (frame.encode ++ rest) = (frame :: (readAll rest).1, (readAll rest).2) := by
  obtain ⟨byte, more, he⟩ := List.exists_cons_of_ne_nil frame.encode_ne_nil
  have hr := read_encode h rest
  rw [he, List.cons_append] at hr ⊢
  rw [readAll]
  split
  · next e hread =>
    rw [hr] at hread
    cases hread
  · next f r hread =>
    rw [hr] at hread
    cases hread
    rfl

theorem readAll_encodeAll (h : ∀ frame ∈ frames, frame.WellFormed) :
    readAll (encodeAll frames) = (frames, none) := by
  induction frames with
  | nil => exact readAll_nil
  | cons frame frames ih =>
    rw [encodeAll_cons, readAll_encode_append (h frame List.mem_cons_self),
      ih fun f hf => h f (List.mem_cons_of_mem _ hf)]

theorem decodeAll?_encodeAll (h : ∀ frame ∈ frames, frame.WellFormed) :
    decodeAll? (encodeAll frames) = some frames := by
  rw [decodeAll?, readAll_encodeAll h]

end Frame

end PlaneArchive
