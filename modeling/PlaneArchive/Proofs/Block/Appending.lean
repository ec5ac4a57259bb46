import Mathlib.Algebra.BigOperators.Ring.List
import Mathlib.Algebra.Ring.Nat
import PlaneArchive.Proofs.Block.Records

/-! # Blocks under any sequence of appends

Records are appended with a page size of their own each, and some of them are refused. The payload
and the entries of a block are two lists that nothing but the recorded sizes ties together; they
agree after every sequence of appends.
-/
namespace PlaneArchive

namespace Block

/-- A record that is to be appended, and the page to whole multiples of which it is filled up. -/
structure Item where
  record : FileRecord
  page : UInt64
  deriving DecidableEq, Repr

namespace Item

/-- The length of the content in whole pages, be it a word or not. -/
def size (item : Item) : ℕ := roundUp item.record.content.length item.page.toNat

/-- An item of whole pages that a size field can describe. -/
def Fits (item : Item) : Prop := item.page ≠ 0 ∧ item.size < UInt32.size

instance (item : Item) : Decidable item.Fits := inferInstanceAs (Decidable (_ ∧ _))

end Item

/-- Appends an item. A block that refuses it stays as it is. -/
def offer (block : Block) (item : Item) : Except ArchiveError Unit × Block :=
  match block.append item.record item.page with
  | .ok grown => (.ok (), grown)
  | .error e => (.error e, block)

def offerAll (block : Block) : List Item → Block
  | [] => block
  | item :: items => (block.offer item).2.offerAll items

/-- The items whose appends succeed when they are offered one after another. -/
def accepted (block : Block) : List Item → List Item
  | [] => []
  | item :: items =>
    match block.offer item with
    | (.ok (), grown) => item :: grown.accepted items
    | (.error _, same) => same.accepted items

variable {block : Block} {item : Item} {items : List Item}

theorem paddedSize_of_le {len : ℕ} {page : UInt64} (hp : page ≠ 0) (hl : len < UInt64.size)
    (hs : UInt64.size ≤ roundUp len page.toNat) :
    paddedSize (UInt64.ofNat len) page = .error (.invalidConfig (.paddingOverflow len)) := by
  have hword : (UInt64.ofNat len).toNat = len := UInt64.toNat_ofNat_of_lt hl
  have hnone : PlaneArchive.paddedLen (UInt64.ofNat len) page = none := by
    rw [paddedLen_eq_none_iff, hword]
    exact .inr hs
  simp [paddedSize, hp, hnone, hword]

/-- What becomes of an append depends on the item alone. -/
theorem append_item (block : Block) (hword : item.record.content.length < UInt64.size) :
    block.append item.record item.page =
      if item.page = 0 then .error (.invalidConfig .zeroPageSize)
      else if UInt64.size ≤ item.size then
        .error (.invalidConfig (.paddingOverflow item.record.content.length))
      else if UInt32.size ≤ item.size then
        .error (.recordTooLarge item.record.name item.record.content.length)
      else .ok (block.push (segment item.record item.size)) := by
  by_cases hp : item.page = 0
  · simp [append, paddedSize, hp]
  by_cases hover : UInt64.size ≤ item.size
  · simp [append, paddedSize_of_le hp hword hover, hp, hover]
  · obtain ⟨padded, hsize, hnat⟩ := paddedSize_of_lt hp (Nat.lt_of_not_le hover)
    have hlarge : sizeLimit < item.size ↔ UInt32.size ≤ item.size := Nat.lt_iff_add_one_le
    change padded.toNat = item.size at hnat
    simp [append, hsize, hnat, hp, hover, hlarge]

theorem offer_of_fits (hword : item.record.content.length < UInt64.size) (h : item.Fits)
    (block : Block) :
    block.offer item = (.ok (), block.push (segment item.record item.size)) := by
  obtain ⟨hp, hs⟩ := h
  have hover : ¬ UInt64.size ≤ item.size := by
    have : UInt32.size ≤ UInt64.size := by decide
    omega
  simp [offer, append_item block hword, hp, hover, Nat.not_le.mpr hs]

theorem offer_of_not_fits (hword : item.record.content.length < UInt64.size) (h : ¬ item.Fits)
    (block : Block) : ∃ e, block.offer item = (.error e, block) := by
  rw [offer, append_item block hword]
  by_cases hp : item.page = 0
  · rw [if_pos hp]
    exact ⟨_, rfl⟩
  by_cases hover : UInt64.size ≤ item.size
  · rw [if_neg hp, if_pos hover]
    exact ⟨_, rfl⟩
  by_cases hlarge : UInt32.size ≤ item.size
  · rw [if_neg hp, if_neg hover, if_pos hlarge]
    exact ⟨_, rfl⟩
  · exact absurd ⟨hp, Nat.lt_of_not_le hlarge⟩ h

section Word

variable (hword : ∀ item ∈ items, item.record.content.length < UInt64.size)
include hword

/-- Whether an item is taken does not depend on what was offered before it. -/
theorem accepted_eq_filter (block : Block) : block.accepted items = items.filter Item.Fits := by
  induction items generalizing block with
  | nil => rfl
  | cons item items ih =>
    rw [List.forall_mem_cons] at hword
    by_cases h : item.Fits
    · simp [accepted, offer_of_fits hword.1 h, h, ih hword.2]
    · obtain ⟨e, hoffer⟩ := offer_of_not_fits hword.1 h block
      simp [accepted, hoffer, h, ih hword.2]

theorem payload_offerAll (block : Block) :
    (block.offerAll items).payload = block.payload ++ (block.accepted items).flatMap fun item =>
      item.record.content ++ Bytes.zeros (item.size - item.record.content.length) := by
  induction items generalizing block with
  | nil => simp [offerAll, accepted]
  | cons item items ih =>
    rw [List.forall_mem_cons] at hword
    by_cases h : item.Fits
    · simp [offerAll, accepted, offer_of_fits hword.1 h, ih hword.2, segment]
    · obtain ⟨e, hoffer⟩ := offer_of_not_fits hword.1 h block
      simp [offerAll, accepted, hoffer, ih hword.2]

theorem files_offerAll (block : Block) :
    (block.offerAll items).files =
      block.files ++ (block.accepted items).map fun item => item.record.entry := by
  induction items generalizing block with
  | nil => simp [offerAll, accepted]
  | cons item items ih =>
    rw [List.forall_mem_cons] at hword
    by_cases h : item.Fits
    · simp [offerAll, accepted, offer_of_fits hword.1 h, ih hword.2, segment, FileRecord.entry]
    · obtain ⟨e, hoffer⟩ := offer_of_not_fits hword.1 h block
      simp [offerAll, accepted, hoffer, ih hword.2]

end Word

theorem Item.Fits.isLeast (h : item.Fits) :
    IsLeast {m | item.page.toNat ∣ m ∧ item.record.content.length ≤ m} item.size :=
  isLeast_roundUp (toNat_pos_of_ne_zero h.1) _

/-- The cast to the size field truncates nothing. -/
theorem Item.Fits.size_entry (h : item.Fits) :
    item.record.entry.size.toNat = item.record.content.length := by
  have hle : item.record.content.length ≤ item.size := h.isLeast.1.2
  exact UInt32.toNat_ofNat_of_lt (hle.trans_lt h.2)

end Block

/-- Where the record with this number starts, as the entries before it tell. -/
def FileMetadata.start (page : ℕ) (files : List FileMetadata) (index : ℕ) : ℕ :=
  ((files.take index).map fun entry => roundUp entry.size.toNat page).sum

namespace Block

variable {page : ℕ} {items : List Item}

section OnePage

variable (hpage : ∀ item ∈ items, item.page.toNat = page)
include hpage

theorem flatMap_padded :
    (items.flatMap fun item =>
      item.record.content ++ Bytes.zeros (item.size - item.record.content.length)) =
        items.flatMap fun item => item.record.padded page := by
  apply List.flatMap_congr
  intro item hmem
  simp [FileRecord.padded, FileRecord.filler, Item.size, hpage item hmem]

variable (hfits : ∀ item ∈ items, item.Fits)
include hfits

theorem length_flatMap_padded :
    (items.flatMap fun item => item.record.padded page).length =
      ((items.map fun item => item.record.entry).map fun entry =>
        roundUp entry.size.toNat page).sum := by
  rw [List.length_flatMap, List.map_map]
  congr 1
  apply List.map_congr_left
  intro item hmem
  have hpos : 0 < page := hpage item hmem ▸ toNat_pos_of_ne_zero (hfits item hmem).1
  simp [FileRecord.length_padded hpos, (hfits item hmem).size_entry]

theorem dvd_length_flatMap_padded :
    page ∣ (items.flatMap fun item => item.record.padded page).length := by
  rw [length_flatMap_padded hpage hfits]
  apply List.dvd_sum
  simp only [List.mem_map]
  rintro _ ⟨_, _, rfl⟩
  exact dvd_roundUp _ _

/-- The content of a record is found from the entries alone. -/
theorem slice_flatMap_padded {index : ℕ} {item : Item} (h : items[index]? = some item) :
    Bytes.slice (FileMetadata.start page (items.map fun item => item.record.entry) index)
        item.record.entry.size.toNat (items.flatMap fun item => item.record.padded page) =
      item.record.content := by
  obtain ⟨hlt, rfl⟩ := List.getElem?_eq_some_iff.mp h
  have hstart : FileMetadata.start page (items.map fun item => item.record.entry) index =
      ((items.take index).flatMap fun item => item.record.padded page).length := by
    rw [length_flatMap_padded (fun item hmem => hpage item (List.mem_of_mem_take hmem))
      (fun item hmem => hfits item (List.mem_of_mem_take hmem)), FileMetadata.start,
      ← List.map_take]
  have hsplit : items = items.take index ++ items[index] :: items.drop (index + 1) := by
    rw [List.getElem_cons_drop, List.take_append_drop]
  have hpayload : (items.flatMap fun item => item.record.padded page) =
      ((items.take index).flatMap fun item => item.record.padded page) ++
        (items[index].record.padded page ++
          (items.drop (index + 1)).flatMap fun item => item.record.padded page) := by
    conv_lhs => rw [hsplit]
    rw [List.flatMap_append, List.flatMap_cons]
  have hsize := (hfits _ (List.getElem_mem hlt)).size_entry
  rw [hstart, hpayload, Bytes.slice, List.drop_left, hsize, FileRecord.padded, List.append_assoc,
    List.take_left]

end OnePage

/-- Whatever is appended to a new block, and whatever is refused, the entries name the appended
records with their lengths, and the payload consists of their contents, each filled up with zero
bytes to the least multiple of its page. With a single page size the entries alone tell where each
content is. -/
theorem represents_accepted (hword : ∀ item ∈ items, item.record.content.length < UInt64.size) :
    let block := empty.offerAll items
    let taken := empty.accepted items
    (∀ item : Item, item.record.content.length < UInt64.size →
      ((∃ fault, (block.offer item).1 = .error (.invalidConfig fault)) ↔
        item.page = 0 ∨ UInt64.size ≤ item.size) ∧
      ((∃ name size, (block.offer item).1 = .error (.recordTooLarge name size)) ↔
        item.page ≠ 0 ∧ item.size < UInt64.size ∧ UInt32.size ≤ item.size) ∧
      ((block.offer item).1 = .ok () ↔ item.page ≠ 0 ∧ item.size < UInt32.size) ∧
      ∀ e, (block.offer item).1 = .error e →
        (block.offer item).2.payload = block.payload ∧
          (block.offer item).2.files = block.files) ∧
    taken = items.filter Item.Fits ∧
    (block.files.map fun entry => (entry.name?, entry.size?.map UInt32.toNat)) =
      taken.map (fun item => (some item.record.name, some item.record.content.length)) ∧
    block.payload = taken.flatMap (fun item =>
      item.record.content ++ Bytes.zeros (item.size - item.record.content.length)) ∧
    (∀ item ∈ taken,
      IsLeast {m | item.page.toNat ∣ m ∧ item.record.content.length ≤ m} item.size) ∧
    ∀ page, (∀ item ∈ taken, item.page.toNat = page) →
      page ∣ block.payload.length ∧
      ∀ index item, taken[index]? = some item → ∃ entry, block.files[index]? = some entry ∧
        Bytes.slice (FileMetadata.start page block.files index) entry.size.toNat block.payload =
          item.record.content := by
  intro block taken
  have hfilter : taken = items.filter Item.Fits := accepted_eq_filter hword empty
  have hfits : ∀ item ∈ taken, item.Fits := by
    intro item hmem
    rw [hfilter, List.mem_filter] at hmem
    exact of_decide_eq_true hmem.2
  have hfiles : block.files = taken.map fun item => item.record.entry := files_offerAll hword empty
  have hpayload : block.payload = taken.flatMap fun item =>
      item.record.content ++ Bytes.zeros (item.size - item.record.content.length) :=
    payload_offerAll hword empty
  refine ⟨?_, hfilter, ?_, hpayload, fun item hmem => (hfits item hmem).isLeast, ?_⟩
  · intro item hitem
    have hwords : UInt32.size ≤ UInt64.size := by decide
    rw [offer, append_item block hitem]
    by_cases hp : item.page = 0
    · simp [hp]
    by_cases hover : UInt64.size ≤ item.size
    · simp [hp, hover, Nat.not_lt.mpr hover, Nat.not_lt.mpr (hwords.trans hover)]
    by_cases hlarge : UInt32.size ≤ item.size
    · simp [hp, hover, hlarge, Nat.lt_of_not_le hover]
    · simp [hp, hover, hlarge, Nat.lt_of_not_le hlarge]
  · rw [hfiles, List.map_map]
    apply List.map_congr_left
    intro item hmem
    have hsize : (UInt32.ofNat item.record.content.length).toNat = item.record.content.length :=
      (hfits item hmem).size_entry
    simp [FileRecord.entry, FileMetadata.ofRecord, hsize]
  · intro page hpage
    rw [hpayload, flatMap_padded hpage]
    refine ⟨dvd_length_flatMap_padded hpage hfits, ?_⟩
    intro index item hitem
    refine ⟨item.record.entry, by simp [hfiles, hitem], ?_⟩
    rw [hfiles]
    exact slice_flatMap_padded hpage hfits hitem

/-- A record of two pages, one without a page size, an empty one, one whose page no size field can
describe, and a record of half a page. -/
def mixedItems : List Item :=
  [⟨⟨"a", [1, 2, 3, 4, 5]⟩, 4⟩, ⟨⟨"b", [6]⟩, 0⟩, ⟨⟨"c", []⟩, 4⟩, ⟨⟨"d", [7]⟩, 8589934592⟩,
    ⟨⟨"e", [8, 9]⟩, 4⟩]

theorem represents_accepted_mixedItems :
    (∀ item ∈ mixedItems, item.record.content.length < UInt64.size) ∧
    (empty.accepted mixedItems).map (fun item => item.record.name) = ["a", "c", "e"] ∧
    (empty.offerAll mixedItems).payload = [1, 2, 3, 4, 5, 0, 0, 0, 8, 9, 0, 0] ∧
    ∃ entry, (empty.offerAll mixedItems).files[2]? = some entry ∧
      Bytes.slice (FileMetadata.start 4 (empty.offerAll mixedItems).files 2) entry.size.toNat
        (empty.offerAll mixedItems).payload = [8, 9] := by
  have hword : ∀ item ∈ mixedItems, item.record.content.length < UInt64.size := by decide
  have htaken : empty.accepted mixedItems = [⟨⟨"a", [1, 2, 3, 4, 5]⟩, 4⟩, ⟨⟨"c", []⟩, 4⟩,
      ⟨⟨"e", [8, 9]⟩, 4⟩] := by decide +kernel
  obtain ⟨-, -, -, hpayload, -, hslices⟩ := represents_accepted hword
  rw [htaken] at hpayload hslices
  obtain ⟨-, hslice⟩ := hslices 4 (by decide)
  refine ⟨hword, by rw [htaken]; decide, ?_, hslice 2 _ rfl⟩
  rw [hpayload]
  decide

end Block

end PlaneArchive
