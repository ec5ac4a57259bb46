import Mathlib.Data.List.Induction
import PlaneArchive.Proofs.Frame.Reading
import PlaneArchive.Proofs.Sink.Filling

/-! # Streams of frames that are cut off

A stream that is cut off anywhere still gives back every frame that lies in it as a whole. Where
the cut falls on the border between two frames nothing is missed; anywhere else the reader reports
that a frame is incomplete.
-/
namespace PlaneArchive

namespace Bytes

/-- The front of two byte strings in a row ends within the first, or covers it. -/
theorem prefix_append_cases {front first second : Bytes} (h : front <+: first ++ second) :
    front.length < first.length ∨ ∃ rest, front = first ++ rest ∧ rest <+: second := by
  rcases Nat.lt_or_ge front.length first.length with hlt | hge
  · exact Or.inl hlt
  · obtain ⟨rest, rfl⟩ := List.prefix_of_prefix_length_le (List.prefix_append first second) h hge
    exact Or.inr ⟨rest, rfl, (List.prefix_append_right_inj first).mp h⟩

end Bytes

namespace Frame

/-- How many of the frames lie within the first `room` bytes as a whole. -/
def wholeWithin : ℕ → List Frame → ℕ
  | _, [] => 0
  | room, frame :: frames =>
    if frame.encode.length ≤ room then wholeWithin (room - frame.encode.length) frames + 1 else 0

/-- Bytes that end within the frame after the first `count` ones. -/
structure Torn (frames : List Frame) (count : ℕ) (torn bytes : Bytes) : Prop where
  count_le : count ≤ frames.length
  bytes_eq : bytes = encodeAll (frames.take count) ++ torn
  front : torn = [] ∨ ∃ frame, frames[count]? = some frame ∧ torn <+: frame.encode ∧
    torn ≠ frame.encode

/-- Cutting a stream anywhere leaves whole frames and the front of at most one more. -/
theorem torn_take_encodeAll (room : ℕ) (frames : List Frame) :
    ∃ torn, Torn frames (wholeWithin room frames) torn ((encodeAll frames).take room) ∧
      (torn ≠ [] → room < (encodeAll frames).length) := by
  induction frames generalizing room with
  | nil =>
    refine ⟨[], ⟨Nat.le_refl _, ?_, Or.inl rfl⟩, fun h => absurd rfl h⟩
    exact List.take_nil
  | cons frame frames ih =>
    rw [encodeAll_cons, wholeWithin]
    by_cases hfit : frame.encode.length ≤ room
    · obtain ⟨torn, htorn, hshort⟩ := ih (room - frame.encode.length)
      rw [if_pos hfit]
      refine ⟨torn, ⟨Nat.succ_le_succ htorn.count_le, ?_, ?_⟩, ?_⟩
      · rw [List.take_append, List.take_of_length_le hfit, htorn.bytes_eq, List.take_succ_cons,
          ← List.append_assoc]
        rfl
      · simpa using htorn.front
      · intro hne
        have := hshort hne
        rw [List.length_append]
        omega
    · rw [if_neg hfit]
      refine ⟨frame.encode.take room, ⟨Nat.zero_le _, ?_, Or.inr ⟨frame, rfl, ?_, ?_⟩⟩, ?_⟩
      · rw [List.take_append_of_le_length (by omega)]
        rfl
      · exact List.take_prefix _ _
      · intro h
        have := congrArg List.length h
        rw [List.length_take] at this
        omega
      · intro _
        rw [List.length_append]
        omega

theorem Torn.of_prefix {frames more : List Frame} {count : ℕ} {torn bytes : Bytes}
    (h : Torn frames count torn bytes) (hpre : frames <+: more) : Torn more count torn bytes := by
  obtain ⟨rest, rfl⟩ := hpre
  refine ⟨?_, ?_, ?_⟩
  · rw [List.length_append]
    exact h.count_le.trans (Nat.le_add_right _ _)
  · rw [List.take_append_of_le_length h.count_le]
    exact h.bytes_eq
  · rcases h.front with hnil | ⟨frame, hframe, hfront, hne⟩
    · exact Or.inl hnil
    · refine Or.inr ⟨frame, ?_, hfront, hne⟩
      rw [List.getElem?_append_left (List.getElem?_eq_some_iff.mp hframe).1]
      exact hframe

variable {frame : Frame} {frames : List Frame} {front torn : Bytes}

/-- A frame that is cut off in its length field, in its header or in its payload cannot be read. -/
theorem read_torn (h : frame.WellFormed) (hfront : torn <+: frame.encode)
    (hne : torn ≠ frame.encode) : read torn = .error .incomplete := by
  have hnumber : Bytes.ofBigEndian (Bytes.bigEndian 4 frame.header.encode.length) =
      frame.header.encode.length := Bytes.ofBigEndian_bigEndian h.header_lt
  rw [encode_eq] at hfront hne
  rcases Bytes.prefix_append_cases hfront with hshort | ⟨afterLength, rfl, hlater⟩
  · rw [Bytes.length_bigEndian] at hshort
    rw [read, Bytes.split?_eq_none hshort]
  have hlength : Bytes.split? 4 (Bytes.bigEndian 4 frame.header.encode.length ++ afterLength) =
      some (Bytes.bigEndian 4 frame.header.encode.length, afterLength) := by
    have hsplit := Bytes.split?_append (Bytes.bigEndian 4 frame.header.encode.length) afterLength
    rw [Bytes.length_bigEndian] at hsplit
    exact hsplit
  rcases Bytes.prefix_append_cases hlater with hshort | ⟨afterHeader, rfl, hlast⟩
  · simp only [read, hlength, hnumber, Bytes.split?_eq_none hshort]
  have hheader : Header.decode frame.header.encode = .ok frame.header :=
    Header.decode_encode (h.header_lt.trans (by norm_num))
  have hshort : afterHeader.length < frame.header.payloadSize.toNat := by
    rw [h.payloadSize_eq]
    refine Nat.lt_of_le_of_ne hlast.length_le fun hfull => hne ?_
    rw [hlast.eq_of_length hfull]
  simp only [read, hlength, hnumber, Bytes.split?_append, hheader, Bytes.split?_eq_none hshort]

/-- Whole frames are read one by one up to whatever follows them. -/
theorem readAll_encodeAll_append (h : ∀ frame ∈ frames, frame.WellFormed) (rest : Bytes) :
    readAll (encodeAll frames ++ rest) =
      (frames ++ (readAll rest).1, (readAll rest).2) := by
  induction frames with
  | nil => rfl
  | cons frame frames ih =>
    rw [encodeAll_cons, List.append_assoc, readAll_encode_append (h frame List.mem_cons_self),
      ih fun later hmem => h later (List.mem_cons_of_mem _ hmem)]
    rfl

theorem readAll_of_incomplete (hne : torn ≠ []) (h : read torn = .error .incomplete) :
    readAll torn = ([], some .incomplete) := by
  obtain ⟨byte, more, rfl⟩ := List.exists_cons_of_ne_nil hne
  rw [readAll]
  split
  · next e hread =>
    rw [h] at hread
    cases hread
    rfl
  · next hread =>
    rw [h] at hread
    cases hread

/-- What is read of a stream that was cut off within the frame after the first `count` ones. -/
theorem Torn.readAll_eq {count : ℕ} (h : ∀ frame ∈ frames, frame.WellFormed)
    (htorn : Torn frames count torn front) :
    readAll front = (frames.take count, if torn = [] then none else some .incomplete) := by
  have htaken : ∀ frame ∈ frames.take count, frame.WellFormed :=
    fun frame hmem => h frame (List.mem_of_mem_take hmem)
  rw [htorn.bytes_eq, readAll_encodeAll_append htaken]
  rcases htorn.front with rfl | ⟨frame, hframe, hfront, hne⟩
  · rw [readAll_nil, List.append_nil, if_pos rfl]
  · by_cases hnil : torn = []
    · rw [hnil, readAll_nil, List.append_nil, if_pos rfl]
    · have hwell := h frame (List.mem_of_getElem? hframe)
      rw [readAll_of_incomplete hnil (read_torn hwell hfront hne), List.append_nil, if_neg hnil]

/-- The bytes that a buffer holds after the frames have been written to it one after another. -/
def stream (frames : List Frame) : Bytes :=
  (frames.foldl (fun sink frame => (frame.write sink).2) ({} : Buffer)).bytes

theorem write_buffer (h : frame.header.encode.length < UInt32.size) (buffer : Buffer) :
    (frame.write buffer).1 = .ok frame.encode.length ∧
      (frame.write buffer).2.bytes = buffer.bytes ++ frame.encode := by
  obtain ⟨after, hparts, hbytes, _⟩ := (Buffer.takesAll buffer).writeParts_eq frame.parts
  rw [write_eq, if_neg (Nat.not_le.mpr h), hparts]
  refine ⟨?_, hbytes⟩
  rw [length_encode]

theorem stream_eq (h : ∀ frame ∈ frames, frame.WellFormed) : stream frames = encodeAll frames := by
  induction frames using List.reverseRecOn with
  | nil => rfl
  | append_singleton frames frame ih =>
    have hwell := h frame (List.mem_append_right _ List.mem_cons_self)
    have hearlier := ih fun earlier hmem => h earlier (List.mem_append_left _ hmem)
    rw [stream, List.foldl_append, List.foldl_cons, List.foldl_nil,
      (write_buffer hwell.header_lt _).2]
    change stream frames ++ _ = _
    rw [hearlier, encodeAll, encodeAll, List.flatMap_append, List.flatMap_singleton]

/-- A stream is read back as the frames that were written, and no other frames have this stream.
Cut off at the end of a frame, it gives the frames up to there; cut off anywhere else, it gives the
frames that are complete and the report that one is not. -/
theorem readAll_of_cut_stream (h : ∀ frame ∈ frames, frame.WellFormed) :
    (∀ frame ∈ frames, ∀ buffer : Buffer, (frame.write buffer).1 = .ok frame.encode.length) ∧
      readAll (stream frames) = (frames, none) ∧
      (∀ others, (∀ frame ∈ others, frame.WellFormed) → stream others = stream frames →
        others = frames) ∧
      (∀ count, readAll (stream (frames.take count)) = (frames.take count, none)) ∧
      ∀ front, front <+: stream frames → (∀ count, front ≠ stream (frames.take count)) →
        ∃ count < frames.length, stream (frames.take count) <+: front ∧
          front <+: stream (frames.take (count + 1)) ∧
          readAll front = (frames.take count, some .incomplete) := by
  have htake : ∀ count, ∀ frame ∈ frames.take count, frame.WellFormed := fun count frame hmem =>
    h frame (List.mem_of_mem_take hmem)
  refine ⟨?_, ?_, ?_, ?_, ?_⟩
  · intro frame hmem buffer
    exact (write_buffer (h frame hmem).header_lt buffer).1
  · rw [stream_eq h, readAll_encodeAll h]
  · intro others hothers hsame
    rw [stream_eq hothers, stream_eq h] at hsame
    have hread := readAll_encodeAll hothers
    rw [hsame, readAll_encodeAll h] at hread
    exact (congrArg Prod.fst hread).symm
  · intro count
    rw [stream_eq (htake count), readAll_encodeAll (htake count)]
  · intro front hfront hborder
    rw [stream_eq h] at hfront
    obtain ⟨torn, htorn, _⟩ := torn_take_encodeAll front.length frames
    rw [← List.prefix_iff_eq_take.mp hfront] at htorn
    generalize wholeWithin front.length frames = count at htorn
    have hwhole : front = stream (frames.take count) ++ torn := by
      rw [stream_eq (htake count)]
      exact htorn.bytes_eq
    have hnil : torn ≠ [] := by
      rintro rfl
      exact hborder count (hwhole.trans (List.append_nil _))
    obtain ⟨frame, hframe, hpart, _⟩ := htorn.front.resolve_left hnil
    have hnext : stream (frames.take (count + 1)) = stream (frames.take count) ++ frame.encode := by
      rw [stream_eq (htake _), stream_eq (htake _), List.take_add_one, hframe, encodeAll, encodeAll,
        List.flatMap_append, Option.toList_some, List.flatMap_singleton]
    refine ⟨count, (List.getElem?_eq_some_iff.mp hframe).1, ?_, ?_, ?_⟩
    · rw [hwhole]
      exact List.prefix_append _ _
    · rw [hwhole, hnext]
      exact (List.prefix_append_right_inj _).mpr hpart
    · rw [htorn.readAll_eq h, if_neg hnil]

/-- A frame with two bytes of payload, and one whose header has a negative layout, an empty text and
absent fields. -/
def twoFrames : List Frame :=
  [⟨{ magic? := some "lc0ar", payloadSize? := some 2, files := [{ name? := some "a" }] }, [7, 8]⟩,
    ⟨{ magic? := some "", payloadSize? := some 0, layoutCode? := some (-1) }, []⟩]

theorem readAll_of_cut_twoFrames :
    (∀ frame ∈ twoFrames, frame.WellFormed) ∧ readAll (stream twoFrames) = (twoFrames, none) ∧
      ∃ count < twoFrames.length,
        readAll ((stream twoFrames).take 9) = (twoFrames.take count, some .incomplete) := by
  have hwell : ∀ frame ∈ twoFrames, frame.WellFormed := by
    intro frame hmem
    rcases List.mem_cons.mp hmem with rfl | hlast
    · exact ⟨by decide, by decide +kernel⟩
    · rw [List.mem_singleton.mp hlast]
      exact ⟨by decide, by decide +kernel⟩
  have hborder : ∀ count, (stream twoFrames).take 9 ≠ stream (twoFrames.take count) := by
    intro count
    rcases count with _ | _ | count
    · decide +kernel
    · decide +kernel
    · have hall : twoFrames.take (count + 1 + 1) = twoFrames := by simp [twoFrames]
      rw [hall]
      decide +kernel
  obtain ⟨_, hread, _, _, hcut⟩ := readAll_of_cut_stream hwell
  obtain ⟨count, hcount, _, _, htorn⟩ := hcut _ (List.take_prefix 9 _) hborder
  exact ⟨hwell, hread, count, hcount, htorn⟩

end Frame

end PlaneArchive
