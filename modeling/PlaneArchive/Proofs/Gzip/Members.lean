import Mathlib.Data.Nat.Notation
import PlaneArchive.Gzip.Member

/-! # Gzip data is whole or it is nothing

Members are read one after another. Either this comes to the end of the data, after at least one
member, and the contents of all members are the content; or it comes to bytes that are no member,
and whatever has been read by then is of no use.
-/
namespace PlaneArchive.Gzip.MemberDecoder

/-- Members with these contents stand at the front, and this follows them. -/
inductive Reads (decoder : MemberDecoder) : Bytes → List Bytes → Bytes → Prop where
  | stop (bytes : Bytes) : Reads decoder bytes [] bytes
  | member {bytes content between rest : Bytes} {contents : List Bytes}
      (h : decoder.decode? bytes = some (content, between))
      (hrest : Reads decoder between contents rest) : Reads decoder bytes (content :: contents) rest

/-- The bytes are one or more members and nothing else. -/
structure Splits (decoder : MemberDecoder) (bytes : Bytes) (contents : List Bytes) : Prop where
  ne_nil : contents ≠ []
  reads : decoder.Reads bytes contents []

/-- After some members there is no further one, and the bytes are not at an end; or there is no
member at all. -/
structure Breaks (decoder : MemberDecoder) (bytes : Bytes) (contents : List Bytes) (rest : Bytes) :
    Prop where
  reads : decoder.Reads bytes contents rest
  no_member : decoder.decode? rest = none
  not_done : contents = [] ∨ rest ≠ []

variable {decoder : MemberDecoder} {bytes content rest : Bytes} {contents : List Bytes}

theorem decode?_nil (decoder : MemberDecoder) : decoder.decode? [] = none := by
  cases h : decoder.decode? [] with
  | none => rfl
  | some result => exact absurd (decoder.shrinks h) (Nat.not_lt_zero _)

/-- Nothing can be read where nothing is. -/
theorem Reads.of_nil (h : decoder.Reads [] contents rest) : contents = [] ∧ rest = [] := by
  cases h with
  | stop _ => exact ⟨rfl, rfl⟩
  | member hmember _ =>
    rw [decode?_nil] at hmember
    cases hmember

theorem contents?_of_none (h : decoder.decode? bytes = none) : decoder.contents? bytes = none := by
  rw [contents?]
  split <;> simp_all

theorem contents?_of_last (h : decoder.decode? bytes = some (content, [])) :
    decoder.contents? bytes = some content := by
  rw [contents?]
  split <;> simp_all

theorem contents?_of_more (h : decoder.decode? bytes = some (content, rest)) (hne : rest ≠ []) :
    decoder.contents? bytes = (decoder.contents? rest).map fun later => content ++ later := by
  rw [contents?]
  split <;> simp_all

/-- The contents of all members in a row are the content. -/
theorem Splits.contents?_eq (h : decoder.Splits bytes contents) :
    decoder.contents? bytes = some contents.flatten := by
  obtain ⟨hne, hreads⟩ := h
  generalize hnil : ([] : Bytes) = rest at hreads
  induction hreads with
  | stop _ => exact absurd rfl hne
  | @member bytes content between rest contents hmember hrest ih =>
    by_cases hlast : contents = []
    · subst hlast
      cases hrest
      rw [contents?_of_last (hnil ▸ hmember), List.flatten_singleton]
    · have hbetween : between ≠ [] := by
        rintro rfl
        cases hrest with
        | stop _ => exact hlast rfl
        | member hnone _ =>
          rw [decode?_nil] at hnone
          cases hnone
      rw [contents?_of_more hmember hbetween, ih hlast hnil]
      rfl

/-- Whatever has been read before the bytes go wrong, nothing is left of it. -/
theorem Breaks.contents?_eq (h : decoder.Breaks bytes contents rest) :
    decoder.contents? bytes = none := by
  obtain ⟨hreads, hnone, hdone⟩ := h
  induction hreads with
  | stop _ => exact contents?_of_none hnone
  | @member bytes content between rest contents hmember hrest ih =>
    have hrest_ne : rest ≠ [] := hdone.resolve_left (List.cons_ne_nil _ _)
    have hbetween : between ≠ [] := by
      rintro rfl
      exact hrest_ne hrest.of_nil.2
    rw [contents?_of_more hmember hbetween, ih hnone (Or.inr hrest_ne)]
    rfl

theorem splits_or_breaks (decoder : MemberDecoder) (bytes : Bytes) :
    (∃ contents, decoder.Splits bytes contents) ∨
      ∃ contents rest, decoder.Breaks bytes contents rest := by
  fun_induction decoder.contents? bytes with
  | case1 bytes hnone => exact Or.inr ⟨[], bytes, .stop bytes, hnone, Or.inl rfl⟩
  | case2 bytes content hlast =>
    exact Or.inl ⟨[content], List.cons_ne_nil _ _, .member hlast (.stop [])⟩
  | case3 bytes content byte rest hmember ih =>
    rcases ih with ⟨contents, _, hreads⟩ | ⟨contents, left, hreads, hnone, hdone⟩
    · exact Or.inl ⟨content :: contents, List.cons_ne_nil _ _, .member hmember hreads⟩
    · refine Or.inr ⟨content :: contents, left, .member hmember hreads, hnone, Or.inr ?_⟩
      rintro rfl
      rcases hdone with rfl | hne
      · cases hreads
      · exact hne rfl

end PlaneArchive.Gzip.MemberDecoder
