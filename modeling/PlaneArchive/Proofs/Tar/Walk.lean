import PlaneArchive.Proofs.Padding
import PlaneArchive.Tar.Entry

/-! # Walking through a tar file

A tar file is read member by member: a header, and the content that it declares. Members that
describe the next one are read like the others. The walk ends where nothing more is there, or with
the first fault, and never goes back. What is read of a member does not depend on what follows it.
-/
namespace PlaneArchive.Tar

/-- Where reading stands: what has been said of the next member, the bytes still to be passed over
before its header, and all bytes from there on. -/
structure Cursor where
  pending : Pending := {}
  gap : ℕ := 0
  bytes : Bytes

/-- A header with the content behind it, which is shorter than declared if the file ends in it. -/
structure Member where
  header : Header
  /-- What the members before it have said of it. -/
  pending : Pending
  size : ℕ
  content : Bytes

namespace Member

def IsWhole (member : Member) : Prop := member.content.length = member.size

instance (member : Member) : Decidable member.IsWhole := inferInstanceAs (Decidable (_ = _))

def isFile (member : Member) : Bool := member.header.kind == .file

/-- Is the member one whose content is taken out? -/
def isKept (member : Member) : Bool := member.isFile && decide member.IsWhole

def path (member : Member) : Bytes := member.pending.path member.header

def entry (member : Member) : Entry := ⟨member.path, member.size, member.content⟩

end Member

namespace Pending

/-- What is known of the next member after one of some kind. -/
def after (pending : Pending) (kind : Kind) (content : Bytes) : Except TarFault Pending :=
  match kind with
  | .longName =>
    if pending.longName?.isSome then .error .repeatedDescription
    else .ok { pending with longName? := some content }
  | .longLink =>
    if pending.longLink?.isSome then .error .repeatedDescription
    else .ok { pending with longLink? := some content }
  | .attributes =>
    if pending.attributes?.isSome then .error .repeatedDescription
    else .ok { pending with attributes? := some content }
  | .sparse | .other | .file => .ok {}

end Pending

namespace Header

/-- The bytes from the content on, behind the table of a sparse file. -/
def body (header : Header) (size : ℕ) (bytes : Bytes) : Except TarFault Bytes :=
  if header.kind = .sparse then checkSparse header size bytes else .ok bytes

end Header

namespace Cursor

def extraction (cursor : Cursor) : Extraction :=
  extractFrom cursor.pending cursor.gap cursor.bytes

def append (cursor : Cursor) (more : Bytes) : Cursor :=
  { cursor with bytes := cursor.bytes ++ more }

/-- Reads one member. -/
def advance (cursor : Cursor) : Except TarFault (Option (Member × Cursor)) :=
  match nextHeader cursor.gap cursor.bytes with
  | .error fault => .error fault
  | .ok none => if cursor.pending.isEmpty then .ok none else .error .danglingDescription
  | .ok (some (header, rest)) =>
    match cursor.pending.size? header with
    | none => .error .badNumber
    | some size =>
      match header.body size rest with
      | .error fault => .error fault
      | .ok body =>
        match cursor.pending.after header.kind (body.take size) with
        | .error fault => .error fault
        | .ok pending =>
          .ok (some (⟨header, cursor.pending, size, body.take size⟩,
            ⟨pending, occupied size, body⟩))

end Cursor

/-- All members that are read from somewhere on, and the fault that ends this, if one does. -/
inductive Walk : Cursor → List Member → Option TarFault → Prop where
  | ends {cursor : Cursor} (h : cursor.advance = .ok none) : Walk cursor [] none
  | breaks {cursor : Cursor} {fault : TarFault} (h : cursor.advance = .error fault) :
      Walk cursor [] (some fault)
  | passes {cursor next : Cursor} {member : Member} {members : List Member}
      {fault? : Option TarFault} (h : cursor.advance = .ok (some (member, next)))
      (hrest : Walk next members fault?) : Walk cursor (member :: members) fault?

variable {cursor next : Cursor} {member : Member} {members : List Member}
  {fault? : Option TarFault} {pending : Pending} {header : Header} {gap size : ℕ}
  {bytes rest more : Bytes}

/-- What reading one member has established. -/
structure Passed (cursor : Cursor) (member : Member) (next : Cursor) : Prop where
  header_eq : ∃ rest, nextHeader cursor.gap cursor.bytes = .ok (some (member.header, rest)) ∧
    member.header.body member.size rest = .ok next.bytes
  pending_eq : member.pending = cursor.pending
  size_eq : cursor.pending.size? member.header = some member.size
  content_eq : member.content = next.bytes.take member.size
  after_eq : cursor.pending.after member.header.kind member.content = .ok next.pending
  gap_eq : next.gap = occupied member.size

theorem advance_eq_some_iff :
    cursor.advance = .ok (some (member, next)) ↔ Passed cursor member next := by
  constructor
  · intro h
    unfold Cursor.advance at h
    split at h
    · cases h
    · split at h <;> cases h
    · next header rest hheader =>
      split at h
      · cases h
      · next size hsize =>
        split at h
        · cases h
        · next body hbody =>
          split at h
          · cases h
          · next pending hafter =>
            cases h
            exact ⟨⟨rest, hheader, hbody⟩, rfl, hsize, rfl, hafter, rfl⟩
  · rintro ⟨⟨rest, hheader, hbody⟩, hpending, hsize, hcontent, hafter, hgap⟩
    obtain ⟨header, _, size, content⟩ := member
    obtain ⟨pending, gap, body⟩ := next
    dsimp only at *
    subst hpending hcontent hgap
    simp only [Cursor.advance, hheader, hsize, hbody, hafter]

theorem nextHeader_eq_some_iff :
    nextHeader gap bytes = .ok (some (header, rest)) ↔
      ∃ skipped, bytes = skipped ++ header.block ++ rest ∧ skipped.length = gap ∧
        header.block.length = blockSize ∧ (header.block.all (· == 0)) = false ∧
        header.isIntact = true := by
  constructor
  · intro h
    unfold nextHeader at h
    split at h
    · cases h
    · cases h
    · next skipped byte bytes hskip =>
      split at h
      · cases h
      · next block rest hblock =>
        obtain ⟨rfl, hlength⟩ := Bytes.split?_eq_some hskip
        obtain ⟨hbytes, hsize⟩ := Bytes.split?_eq_some hblock
        split at h
        · cases h
        · next hzeros =>
          split at h
          · next hintact =>
            cases h
            refine ⟨skipped, ?_, hlength, hsize, Bool.eq_false_iff.mpr hzeros, hintact⟩
            rw [hbytes, List.append_assoc]
          · cases h
  · rintro ⟨skipped, rfl, rfl, hsize, hzeros, hintact⟩
    obtain ⟨block⟩ := header
    cases block with
    | nil => cases hsize
    | cons byte block =>
      rw [nextHeader, List.append_assoc, Bytes.split?_append]
      dsimp only [List.cons_append] at hsize hzeros hintact ⊢
      rw [← hsize, ← List.cons_append, Bytes.split?_append]
      dsimp only
      rw [hzeros, hintact]
      rfl

theorem nextHeader_append (h : nextHeader gap bytes = .ok (some (header, rest))) (more : Bytes) :
    nextHeader gap (bytes ++ more) = .ok (some (header, rest ++ more)) := by
  obtain ⟨skipped, rfl, hskipped⟩ := nextHeader_eq_some_iff.mp h
  refine nextHeader_eq_some_iff.mpr ⟨skipped, ?_, hskipped⟩
  rw [List.append_assoc]

theorem nextHeader_of_length_lt (h : bytes.length < gap) :
    nextHeader gap bytes = .error .shortSkip := by
  rw [nextHeader, Bytes.split?_eq_none h]

theorem continueTable_append {progress after : SparseProgress}
    (h : continueTable progress bytes = .ok (after, rest)) (more : Bytes) :
    continueTable progress (bytes ++ more) = .ok (after, rest ++ more) := by
  fun_induction continueTable progress bytes with
  | case1 progress bytes hsplit => cases h
  | case2 progress bytes block others hsplit fault hareas => cases h
  | case3 progress bytes block others hsplit areas hareas hagain ih =>
    rw [continueTable, Bytes.split?_append_of_split? hsplit]
    simp only [hareas, hagain]
    exact ih h
  | case4 progress bytes block others hsplit areas hareas hlast =>
    cases h
    rw [continueTable, Bytes.split?_append_of_split? hsplit]
    simp only [hareas, hlast, if_false]

theorem suffix_of_continueTable {progress after : SparseProgress}
    (h : continueTable progress bytes = .ok (after, rest)) : rest <:+ bytes := by
  fun_induction continueTable progress bytes with
  | case1 progress bytes hsplit => cases h
  | case2 progress bytes block others hsplit fault hareas => cases h
  | case3 progress bytes block others hsplit areas hareas hagain ih =>
    rw [(Bytes.split?_eq_some hsplit).1]
    exact (ih h).trans (List.suffix_append block others)
  | case4 progress bytes block others hsplit areas hareas hlast =>
    cases h
    rw [(Bytes.split?_eq_some hsplit).1]
    exact List.suffix_append block _

theorem readTable_append {after : SparseProgress}
    (h : readTable header size bytes = .ok (after, rest)) (more : Bytes) :
    readTable header size (bytes ++ more) = .ok (after, rest ++ more) := by
  unfold readTable at h ⊢
  split at h
  · cases h
  · split at h
    · next hcontinued =>
      rw [if_pos hcontinued]
      exact continueTable_append h more
    · next hcontinued =>
      cases h
      rw [if_neg hcontinued]

theorem checkSparse_append (h : checkSparse header size bytes = .ok rest) (more : Bytes) :
    checkSparse header size (bytes ++ more) = .ok (rest ++ more) := by
  unfold checkSparse at h ⊢
  split at h
  · next hdialect =>
    rw [if_pos hdialect]
    cases hread : readTable header size bytes with
    | error fault =>
      rw [hread] at h
      cases h
    | ok result =>
      rw [hread] at h
      rw [readTable_append hread]
      dsimp only at h ⊢
      split at h
      · cases h
      · split at h
        · next hfits =>
          cases h
          rw [if_pos hfits]
        · cases h
  · cases h

theorem suffix_of_checkSparse (h : checkSparse header size bytes = .ok rest) : rest <:+ bytes := by
  unfold checkSparse readTable at h
  split at h
  · split at h
    · cases h
    · next after others hread =>
      have hothers : others <:+ bytes := by
        split at hread
        · cases hread
        · split at hread
          · exact suffix_of_continueTable hread
          · cases hread
            exact List.suffix_refl bytes
      split at h
      · cases h
      · split at h
        · cases h
          exact hothers
        · cases h
  · cases h

theorem body_append (h : header.body size bytes = .ok rest) (more : Bytes) :
    header.body size (bytes ++ more) = .ok (rest ++ more) := by
  unfold Header.body at h ⊢
  by_cases hsparse : header.kind = .sparse
  · rw [if_pos hsparse] at h ⊢
    exact checkSparse_append h more
  · rw [if_neg hsparse] at h ⊢
    cases h
    rfl

theorem le_occupied (size : ℕ) : size ≤ occupied size := le_roundUp (by decide) size

namespace Passed

/-- More bytes at the end make no difference to a member that has been read as a whole. -/
theorem append (h : Passed cursor member next) (hwhole : member.IsWhole) (more : Bytes) :
    Passed (cursor.append more) member (next.append more) := by
  obtain ⟨⟨rest, hheader, hbody⟩, hpending, hsize, hcontent, hafter, hgap⟩ := h
  refine ⟨⟨rest ++ more, nextHeader_append hheader more, body_append hbody more⟩, hpending, hsize,
    ?_, hafter, hgap⟩
  have hlength : member.size ≤ next.bytes.length := by
    rw [Member.IsWhole, hcontent, List.length_take] at hwhole
    omega
  rw [hcontent]
  exact (List.take_append_of_le_length hlength).symm

/-- Nothing can be read after a member that the file ends in. -/
theorem advance_of_short (h : Passed cursor member next) (hshort : ¬ member.IsWhole) :
    next.advance = .error .shortSkip := by
  have hlength : next.bytes.length < next.gap := by
    have hgap := le_occupied member.size
    rw [Member.IsWhole, h.content_eq, List.length_take] at hshort
    rw [h.gap_eq]
    omega
  rw [Cursor.advance, nextHeader_of_length_lt hlength]

/-- What is still to be read lies behind the header. -/
theorem exists_front (h : Passed cursor member next) :
    ∃ front, cursor.bytes = front ++ next.bytes ∧ blockSize ≤ front.length := by
  obtain ⟨rest, hheader, hbody⟩ := h.header_eq
  obtain ⟨skipped, hbytes, -, hblock, -⟩ := nextHeader_eq_some_iff.mp hheader
  have hsuffix : next.bytes <:+ rest := by
    unfold Header.body at hbody
    split at hbody
    · exact suffix_of_checkSparse hbody
    · cases hbody
      exact List.suffix_refl _
  obtain ⟨table, rfl⟩ := hsuffix
  refine ⟨skipped ++ member.header.block ++ table, ?_, ?_⟩
  · rw [hbytes, List.append_assoc _ table]
  · rw [List.length_append, List.length_append]
    omega

/-- The header is intact, and the content of a plain file follows right behind it. -/
theorem infix_of_isFile (h : Passed cursor member next) (hfile : member.isFile = true) :
    member.header.isIntact = true ∧ member.header.block.length = blockSize ∧
      (member.header.block ++ member.content) <:+: cursor.bytes := by
  obtain ⟨rest, hheader, hbody⟩ := h.header_eq
  obtain ⟨skipped, hbytes, -, hblock, -, hintact⟩ := nextHeader_eq_some_iff.mp hheader
  have hkind : member.header.kind = .file := eq_of_beq hfile
  rw [Header.body, hkind, if_neg (by decide)] at hbody
  cases hbody
  refine ⟨hintact, hblock, skipped, next.bytes.drop member.size, ?_⟩
  rw [h.content_eq, List.append_assoc, List.append_assoc, List.take_append_drop, hbytes,
    List.append_assoc]

end Passed

theorem exists_walk (cursor : Cursor) : ∃ members fault?, Walk cursor members fault? := by
  -- Every member that is passed leaves fewer bytes.
  induction hlength : cursor.bytes.length using Nat.strong_induction_on generalizing cursor with
  | _ length ih =>
    cases hadvance : cursor.advance with
    | error fault => exact ⟨[], some fault, .breaks hadvance⟩
    | ok read =>
      cases read with
      | none => exact ⟨[], none, .ends hadvance⟩
      | some found =>
        obtain ⟨member, next⟩ := found
        obtain ⟨front, hfront, hlong⟩ := (advance_eq_some_iff.mp hadvance).exists_front
        have hfewer : next.bytes.length < length := by
          rw [← hlength, hfront, List.length_append]
          exact Nat.lt_add_of_pos_left (Nat.lt_of_lt_of_le (by decide) hlong)
        obtain ⟨members, fault?, hrest⟩ := ih _ hfewer next rfl
        exact ⟨member :: members, fault?, .passes hadvance hrest⟩

/-- Extracting is reading one member after another, up to the first plain file that is not whole. -/
theorem extraction_eq (cursor : Cursor) :
    cursor.extraction =
      match cursor.advance with
      | .error fault => ⟨[], some fault⟩
      | .ok none => ⟨[], none⟩
      | .ok (some (member, next)) =>
        if member.isFile then
          if member.IsWhole then
            { next.extraction with entries := member.entry :: next.extraction.entries }
          else ⟨[], some .shortContent⟩
        else next.extraction := by
  obtain ⟨pending, gap, bytes⟩ := cursor
  rw [Cursor.extraction, extractFrom, Cursor.advance]
  dsimp only
  split
  · next hheader => rw [hheader]
  · next hheader =>
    rw [hheader]
    split <;> rfl
  · next header rest hheader =>
    rw [hheader]
    dsimp only
    cases hsize : pending.size? header with
    | none => rfl
    | some size =>
      dsimp only
      cases hkind : header.kind with
      | longName | longLink | attributes =>
        simp only [Header.body, Pending.after, hkind, reduceCtorEq, if_false]
        split
        · rfl
        · simp only [Member.isFile, hkind]
          rfl
      | sparse =>
        simp only [Header.body, Pending.after, hkind, if_true]
        cases checkSparse header size rest with
        | error fault => rfl
        | ok body =>
          simp only [Member.isFile, hkind]
          rfl
      | other =>
        simp only [Header.body, Pending.after, Member.isFile, hkind, reduceCtorEq, if_false]
        rfl
      | file =>
        simp only [Header.body, Pending.after, Member.isFile, hkind, reduceCtorEq, if_false]
        rfl

namespace Walk

/-- Exactly the plain files that are there as a whole are taken out. -/
theorem extraction_eq (h : Walk cursor members fault?) :
    cursor.extraction.entries = (members.filter Member.isKept).map Member.entry ∧
      cursor.extraction.fault?.isSome = fault?.isSome := by
  induction h with
  | ends h =>
    rw [Tar.extraction_eq, h]
    exact ⟨rfl, rfl⟩
  | breaks h =>
    rw [Tar.extraction_eq, h]
    exact ⟨rfl, rfl⟩
  | @passes cursor next member members fault? h hrest ih =>
    rw [Tar.extraction_eq, h]
    dsimp only
    by_cases hfile : member.isFile = true
    · rw [if_pos hfile]
      by_cases hwhole : member.IsWhole
      · have hkept : member.isKept = true := by
          rw [Member.isKept, hfile, decide_eq_true hwhole, Bool.and_self]
        rw [if_pos hwhole, List.filter_cons_of_pos hkept, List.map_cons, ← ih.1]
        exact ⟨rfl, ih.2⟩
      · have hkept : ¬ member.isKept = true := by
          rw [Member.isKept, hfile, decide_eq_false hwhole, Bool.and_false]
          exact Bool.false_ne_true
        have hlast := (advance_eq_some_iff.mp h).advance_of_short hwhole
        rw [if_neg hwhole, List.filter_cons_of_neg hkept]
        cases hrest with
        | ends hnext =>
          rw [hlast] at hnext
          cases hnext
        | breaks _ => exact ⟨rfl, rfl⟩
        | passes hnext _ =>
          rw [hlast] at hnext
          cases hnext
    · have hkept : ¬ member.isKept = true := fun hkept => hfile (Bool.and_eq_true_iff.mp hkept).1
      rw [if_neg hfile, List.filter_cons_of_neg hkept]
      exact ih

/-- What is taken out if the file is cut off somewhere is the beginning of what is taken out of all
of it. -/
theorem entries_prefix (h : Walk cursor members fault?) (more : Bytes) :
    cursor.extraction.entries <+: (cursor.append more).extraction.entries := by
  induction h with
  | @ends cursor h =>
    rw [Tar.extraction_eq cursor, h]
    exact List.nil_prefix
  | @breaks cursor _ h =>
    rw [Tar.extraction_eq cursor, h]
    exact List.nil_prefix
  | @passes cursor next member members fault? h hrest ih =>
    have hpassed := advance_eq_some_iff.mp h
    by_cases hwhole : member.IsWhole
    · have hmore := advance_eq_some_iff.mpr (hpassed.append hwhole more)
      rw [Tar.extraction_eq cursor, Tar.extraction_eq (cursor.append more), h, hmore]
      dsimp only
      split
      · exact (List.prefix_cons_inj _).mpr ih
      · exact ih
    · have hnone : cursor.extraction.entries = [] := by
        rw [Tar.extraction_eq, h]
        dsimp only
        rw [if_neg hwhole]
        split
        · rfl
        · rw [Tar.extraction_eq, hpassed.advance_of_short hwhole]
      rw [hnone]
      exact List.nil_prefix

/-- Each plain file is found with an intact header, a declared size, and its content right behind
the header. -/
theorem member_found (h : Walk cursor members fault?) (hmem : member ∈ members) :
    member.pending.size? member.header = some member.size ∧
      (member.isFile = true → member.header.isIntact = true ∧
        member.header.block.length = blockSize ∧
        (member.header.block ++ member.content) <:+: cursor.bytes) := by
  induction h with
  | ends _ => cases hmem
  | breaks _ => cases hmem
  | @passes cursor next first members fault? h hrest ih =>
    have hpassed := advance_eq_some_iff.mp h
    rcases List.mem_cons.mp hmem with rfl | hmem
    · refine ⟨?_, hpassed.infix_of_isFile⟩
      rw [hpassed.pending_eq]
      exact hpassed.size_eq
    · obtain ⟨hsize, hfound⟩ := ih hmem
      refine ⟨hsize, fun hfile => ?_⟩
      obtain ⟨hintact, hblock, hinfix⟩ := hfound hfile
      obtain ⟨front, hfront, -⟩ := hpassed.exists_front
      rw [hfront]
      exact ⟨hintact, hblock, hinfix.trans (List.suffix_append front next.bytes).isInfix⟩

end Walk

end PlaneArchive.Tar
