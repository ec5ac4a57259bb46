import Mathlib
import PlaneArchive.Proofs.Tar.Walk
import PlaneArchive.Scan.Machine

/-! # What a tar file hands on

From a tar file only plain files are handed on, and only those that are there as a whole. A fault
costs one unit of work, no matter what follows it, and what was handed on before it stays.
-/
namespace PlaneArchive

namespace Item

def ofMember (member : Tar.Member) : Item :=
  ofContent (Utf8.lossy member.path) member.content

variable {item : Item} {decoder : Gzip.MemberDecoder} {name : String} {content : Bytes}

theorem ofContent_ne_failed (h : (ofContent name content).deliver? decoder = none) :
    ofContent name content = .compressed name content ∧ isGzip name = true := by
  unfold ofContent at h ⊢
  split
  · next hgzip => exact ⟨rfl, hgzip⟩
  · next hgzip =>
    rw [if_neg hgzip] at h
    cases h

end Item

namespace Expansion

variable {tree : FileTree} {path : Path} {content more : Bytes} {members : List Tar.Member}
  {fault? : Option Tar.TarFault}

theorem ofPath_of_tar (htar : Item.isTar path.display = true)
    (h : tree.look path = .ok (.file content)) : ofPath tree path = ofTar content := by
  rw [ofPath, h]
  exact if_pos htar

theorem ofTar_of_walk (h : Tar.Walk { bytes := content } members fault?) :
    ofTar content = { items := (members.filter Tar.Member.isKept).map Item.ofMember
                      failed := fault?.isSome } := by
  obtain ⟨hentries, hfault⟩ := h.extraction_eq
  have hextract : Tar.extract content = Tar.Cursor.extraction { bytes := content } := rfl
  rw [ofTar, hextract, hentries, hfault, List.map_map]
  rfl

theorem items_ofTar_prefix (content more : Bytes) :
    (ofTar content).items <+: (ofTar (content ++ more)).items := by
  obtain ⟨members, fault?, hwalk⟩ := Tar.exists_walk { bytes := content }
  exact (hwalk.entries_prefix more).map _

theorem skipped_outcome (decoder : Gzip.MemberDecoder) (expansion : Expansion) :
    (expansion.outcome decoder).skipped =
      (expansion.items.countP fun item => (item.deliver? decoder).isNone) +
        if expansion.failed then 1 else 0 := by
  unfold outcome
  induction expansion.items with
  | nil => exact (Nat.zero_add _).symm
  | cons item items ih =>
    have hitem : (item.outcome decoder).skipped =
        if (item.deliver? decoder).isNone then 1 else 0 := by
      unfold Item.outcome
      cases item.deliver? decoder with
      | none => rfl
      | some record => rfl
    have happend : ∀ first second : ScanOutcome,
        (first ++ second).skipped = first.skipped + second.skipped := fun _ _ => rfl
    rw [List.foldr_cons, happend, ih, hitem, List.countP_cons]
    omega

end Expansion

namespace Scan

variable {tree : FileTree} {path : Path} {content : Bytes}

/-- From a tar file the plain files are handed on that are as long as declared, in order; if the
file is cut off somewhere, then the first of them. A walk that ends with a fault, which may be that
the file ends too early, is dropped once. -/
theorem tar_files_yield_whole_entries (htar : Item.isTar path.display = true)
    (h : tree.look path = .ok (.file content)) :
    (∀ count (cut : FileTree), cut.look path = .ok (.file (content.take count)) →
      (Expansion.ofPath cut path).items <+: (Expansion.ofPath tree path).items) ∧
    ∃ members fault?, Tar.Walk { bytes := content } members fault? ∧
      (∀ member ∈ members, member.pending.size? member.header = some member.size ∧
        (member.isFile = true → member.header.isIntact = true ∧
          member.header.block.length = Tar.blockSize ∧
          (member.header.block ++ member.content) <:+: content)) ∧
      (Expansion.ofPath tree path).items =
        (members.filter Tar.Member.isKept).map Item.ofMember ∧
      Effect.ofExpansion (Expansion.ofPath tree path) =
        (Expansion.ofPath tree path).items.map Effect.ofItem ++
          (if fault?.isSome then [.skip] else []) ++ [.done] ∧
      ∀ decoder,
        ((Expansion.ofPath tree path).outcome decoder).skipped =
          ((Expansion.ofPath tree path).items.countP fun item => (item.deliver? decoder).isNone) +
            (if fault?.isSome then 1 else 0) ∧
        ∀ item ∈ (Expansion.ofPath tree path).items, item.deliver? decoder = none →
          ∃ name gzip, item = .compressed name gzip ∧ Item.isGzip name = true := by
  obtain ⟨members, fault?, hwalk⟩ := Tar.exists_walk { bytes := content }
  have hpath := Expansion.ofPath_of_tar htar h
  have hexpansion := hpath.trans (Expansion.ofTar_of_walk hwalk)
  refine ⟨?_, members, fault?, hwalk, fun member => hwalk.member_found, ?_, ?_, fun decoder => ?_⟩
  · intro count cut hcut
    rw [Expansion.ofPath_of_tar htar hcut, hpath]
    have hprefix := Expansion.items_ofTar_prefix (content.take count) (content.drop count)
    rw [List.take_append_drop] at hprefix
    exact hprefix
  · rw [hexpansion]
  · rw [hexpansion, Effect.ofExpansion]
    simp only [List.map_nil, List.append_nil]
  · refine ⟨?_, ?_⟩
    · rw [Expansion.skipped_outcome, hexpansion]
    · intro item hmem hfailed
      rw [hexpansion] at hmem
      obtain ⟨member, -, rfl⟩ := List.mem_map.mp hmem
      exact ⟨_, _, Item.ofContent_ne_failed hfailed⟩

/-- The header of a plain file, of which only name, size and checksum are set. -/
def plainHeader (name size checksum : Bytes) : Bytes :=
  let fill (count : ℕ) (field : Bytes) : Bytes := field ++ Bytes.zeros (count - field.length)
  fill 124 name ++ fill 24 size ++ fill 364 checksum

/-- The file `a` with one byte, and the file `b` that declares `2 ^ 45` bytes and has none. -/
def oversizedTar : Bytes :=
  plainHeader [97] [49] [54, 50, 50] ++ 7 :: Bytes.zeros 511 ++
    plainHeader [98] [128, 0, 0, 0, 0, 0, 32] [49, 48, 48, 50] ++ Bytes.zeros 1024

/-- A tree with the tar file `/a.tar`. -/
def tarTree (content : Bytes) : FileTree := { nodes := [([[97, 46, 116, 97, 114]], .file content)] }

def tarPath : Path := [47, 97, 46, 116, 97, 114]

set_option maxRecDepth 4096 in
theorem tar_files_yield_whole_entries_oversized :
    Item.isTar tarPath.display = true ∧
      (tarTree oversizedTar).look tarPath = .ok (.file oversizedTar) ∧
      (∀ count, (Expansion.ofPath (tarTree (oversizedTar.take count)) tarPath).items <+:
        [.record ⟨"a", [7]⟩]) ∧
      ∃ members fault?, Tar.Walk { bytes := oversizedTar } members fault? ∧
        fault?.isSome = true ∧
        (members.filter Tar.Member.isKept).map Item.ofMember = [.record ⟨"a", [7]⟩] := by
  have htar : Item.isTar tarPath.display = true := by cbv
  have hlook : ∀ content, (tarTree content).look tarPath = .ok (.file content) := by
    intro content
    cbv
  have hexpansion : Expansion.ofPath (tarTree oversizedTar) tarPath =
      { items := [.record ⟨"a", [7]⟩], failed := true } := by
    rw [Expansion.ofPath_of_tar htar (hlook oversizedTar)]
    decide +kernel
  obtain ⟨hcut, members, fault?, hwalk, -, hitems, heffects, -⟩ :=
    tar_files_yield_whole_entries htar (hlook oversizedTar)
  rw [hexpansion] at hitems heffects hcut
  refine ⟨htar, hlook oversizedTar, fun count => hcut count _ (hlook _), members, fault?, hwalk, ?_,
    hitems.symm⟩
  cases fault? with
  | none => exact absurd heffects (by decide)
  | some fault => rfl

end Scan
end PlaneArchive
