import Mathlib.Algebra.GroupWithZero.Nat
import Mathlib.Algebra.Order.BigOperators.Group.List
import Mathlib.Algebra.Order.Group.Nat
import Mathlib.Data.List.Induction
import Mathlib.Data.List.ReduceOption

/-! # The greedy partition

Items of some sizes are put into batches one after another. A batch ends before an item that would
make it larger than a limit, after an item with which it reaches a threshold, and wherever a flush
asks for it. This says nothing of blocks, frames or sinks; the packing of a writer amounts to it.
-/
namespace PlaneArchive

/-- Batches that have ended, in order, and the batch that takes the next item. -/
structure Partition (α : Type) where
  closed : List (List α) := []
  current : List α := []
  deriving DecidableEq, Repr

namespace Partition

variable {α β : Type}

def endBatch (partition : Partition α) : Partition α :=
  ⟨partition.closed ++ [partition.current], []⟩

def put (partition : Partition α) (item : α) : Partition α :=
  { partition with current := partition.current ++ [item] }

def map (f : α → β) (partition : Partition α) : Partition β :=
  ⟨partition.closed.map (List.map f), partition.current.map f⟩

def items (partition : Partition α) : List α := partition.closed.flatten ++ partition.current

@[simp] theorem items_endBatch (partition : Partition α) :
    partition.endBatch.items = partition.items := by
  simp [items, endBatch]

@[simp] theorem items_put (partition : Partition α) (item : α) :
    (partition.put item).items = partition.items ++ [item] := by
  simp [items, put]

@[simp] theorem map_endBatch (f : α → β) (partition : Partition α) :
    partition.endBatch.map f = (partition.map f).endBatch := by
  simp [map, endBatch]

@[simp] theorem map_put (f : α → β) (partition : Partition α) (item : α) :
    (partition.put item).map f = (partition.map f).put (f item) := by
  simp [map, put]

end Partition

/-- The sizes of items, the most that a batch may hold, and the size at which it ends. -/
structure BatchRule (α : Type) where
  size : α → ℕ
  limit : ℕ
  threshold : ℕ

namespace BatchRule

variable {α : Type} {rule : BatchRule α} {held : Partition α} {item : α}

def total (rule : BatchRule α) (batch : List α) : ℕ := (batch.map rule.size).sum

/-- Ends the batch if it cannot take the item as well. A batch without items takes any item. -/
def makeRoom (rule : BatchRule α) (item : α) (held : Partition α) : Partition α :=
  if held.current.isEmpty = false ∧
      rule.limit < rule.total held.current + rule.size item then held.endBatch
  else held

def endFilled (rule : BatchRule α) (held : Partition α) : Partition α :=
  if rule.threshold ≤ rule.total held.current then held.endBatch else held

/-- Puts an item into a batch, or ends the batch if there is no item. An item that is too large for
any batch is left out. -/
def step (rule : BatchRule α) (held : Partition α) : Option α → Partition α
  | none => held.endBatch
  | some item =>
    if rule.limit < rule.size item then held
    else rule.endFilled ((rule.makeRoom item held).put item)

def partition (rule : BatchRule α) (steps : List (Option α)) : Partition α :=
  steps.foldl rule.step {}

/-- The same rule for items that are their own sizes. -/
def ofSizes (rule : BatchRule α) : BatchRule ℕ := { rule with size := id }

@[simp] theorem limit_ofSizes (rule : BatchRule α) : rule.ofSizes.limit = rule.limit := rfl

@[simp] theorem threshold_ofSizes (rule : BatchRule α) :
    rule.ofSizes.threshold = rule.threshold := rfl

@[simp] theorem size_ofSizes (rule : BatchRule α) (size : ℕ) : rule.ofSizes.size size = size := rfl

@[simp] theorem total_nil (rule : BatchRule α) : rule.total [] = 0 := rfl

@[simp] theorem total_append_singleton (rule : BatchRule α) (batch : List α) (item : α) :
    rule.total (batch ++ [item]) = rule.total batch + rule.size item := by
  simp [total]

@[simp] theorem total_ofSizes (rule : BatchRule α) (batch : List α) :
    rule.ofSizes.total (batch.map rule.size) = rule.total batch := by
  simp [total, ofSizes]

theorem size_le_total {batch : List α} (h : item ∈ batch) : rule.size item ≤ rule.total batch :=
  List.single_le_sum (by simp) _ (List.mem_map_of_mem h)

theorem partition_append_singleton (rule : BatchRule α) (steps : List (Option α))
    (next : Option α) :
    rule.partition (steps ++ [next]) = rule.step (rule.partition steps) next := by
  simp [BatchRule.partition]

theorem step_of_large (h : rule.limit < rule.size item) (held : Partition α) :
    rule.step held (some item) = held := if_pos h

theorem step_of_fits (h : rule.size item ≤ rule.limit) (held : Partition α) :
    rule.step held (some item) = rule.endFilled ((rule.makeRoom item held).put item) :=
  if_neg (Nat.not_lt.mpr h)

theorem total_makeRoom (hsize : rule.size item ≤ rule.limit) (held : Partition α) :
    rule.total (rule.makeRoom item held).current + rule.size item ≤ rule.limit := by
  unfold makeRoom
  split
  · simpa [Partition.endBatch] using hsize
  · next hroom =>
    by_cases hempty : held.current = []
    · simpa [hempty] using hsize
    · have hfalse : held.current.isEmpty = false := List.isEmpty_eq_false_iff.mpr hempty
      by_contra hlarge
      exact hroom ⟨hfalse, Nat.lt_of_not_le hlarge⟩

/-- What every greedy partition keeps to. -/
structure Keeps (rule : BatchRule α) (held : Partition α) : Prop where
  current_lt : rule.total held.current < rule.threshold
  current_le : rule.total held.current ≤ rule.limit
  closed_le : ∀ batch ∈ held.closed, rule.total batch ≤ rule.limit
  /-- A batch that has reached the threshold did so with its last item. -/
  filled : ∀ batch ∈ held.closed, rule.threshold ≤ rule.total batch →
    ∃ front last, batch = front ++ [last] ∧ rule.total front < rule.threshold

theorem keeps_nothing (h : 0 < rule.threshold) : rule.Keeps {} where
  current_lt := h
  current_le := Nat.zero_le _
  closed_le := by
    intro batch hmem
    cases hmem
  filled := by
    intro batch hmem
    cases hmem

namespace Keeps

theorem endBatch (h : rule.Keeps held) : rule.Keeps held.endBatch where
  current_lt := Nat.zero_lt_of_lt h.current_lt
  current_le := Nat.zero_le _
  closed_le := by
    intro batch hmem
    rcases List.mem_append.mp hmem with hold | hnew
    · exact h.closed_le batch hold
    · rw [List.mem_singleton.mp hnew]
      exact h.current_le
  filled := by
    intro batch hmem hfull
    rcases List.mem_append.mp hmem with hold | hnew
    · exact h.filled batch hold hfull
    · rw [List.mem_singleton.mp hnew] at hfull
      have := h.current_lt
      omega

theorem makeRoom (h : rule.Keeps held) (item : α) :
    rule.Keeps (rule.makeRoom item held) := by
  unfold BatchRule.makeRoom
  split
  · exact h.endBatch
  · exact h

/-- An item for which there is room fills the batch, or leaves it below the threshold. -/
theorem put (h : rule.Keeps held)
    (hroom : rule.total held.current + rule.size item ≤ rule.limit) :
    rule.Keeps (rule.endFilled (held.put item)) := by
  unfold endFilled
  split
  · exact {
      current_lt := Nat.zero_lt_of_lt h.current_lt
      current_le := Nat.zero_le _
      closed_le := by
        intro batch hmem
        rcases List.mem_append.mp hmem with hold | hnew
        · exact h.closed_le batch hold
        · rw [List.mem_singleton.mp hnew]
          simpa [Partition.put] using hroom
      filled := by
        intro batch hmem hfull
        rcases List.mem_append.mp hmem with hold | hnew
        · exact h.filled batch hold hfull
        · exact ⟨held.current, item, List.mem_singleton.mp hnew, h.current_lt⟩ }
  · next hshort =>
    exact {
      current_lt := Nat.lt_of_not_le hshort
      current_le := by simpa [Partition.put] using hroom
      closed_le := h.closed_le
      filled := h.filled }

theorem step (h : rule.Keeps held) (next : Option α) :
    rule.Keeps (rule.step held next) := by
  cases next with
  | none => exact h.endBatch
  | some item =>
    rcases Nat.lt_or_ge rule.limit (rule.size item) with hlarge | hfits
    · rw [step_of_large hlarge]
      exact h
    · rw [step_of_fits hfits]
      exact (h.makeRoom item).put (total_makeRoom hfits held)

end Keeps

theorem keeps_partition (h : 0 < rule.threshold) (steps : List (Option α)) :
    rule.Keeps (rule.partition steps) := by
  induction steps using List.reverseRecOn with
  | nil => exact keeps_nothing h
  | append_singleton steps next ih =>
    rw [partition_append_singleton]
    exact ih.step next

@[simp] theorem items_makeRoom (rule : BatchRule α) (item : α) (held : Partition α) :
    (rule.makeRoom item held).items = held.items := by
  unfold makeRoom
  split <;> simp

@[simp] theorem items_endFilled (rule : BatchRule α) (held : Partition α) :
    (rule.endFilled held).items = held.items := by
  unfold endFilled
  split <;> simp

/-- No item is lost but those that are too large for any batch, and the order stays. -/
theorem items_partition (rule : BatchRule α) (steps : List (Option α)) :
    (rule.partition steps).items =
      steps.reduceOption.filter fun item => rule.size item ≤ rule.limit := by
  induction steps using List.reverseRecOn with
  | nil => rfl
  | append_singleton steps next ih =>
    rw [partition_append_singleton, List.reduceOption_append, List.filter_append, ← ih]
    cases next with
    | none => simp [step]
    | some item =>
      rcases Nat.lt_or_ge rule.limit (rule.size item) with hlarge | hfits
      · simp [step_of_large hlarge, hlarge]
      · simp [step_of_fits hfits, hfits]

theorem map_makeRoom (rule : BatchRule α) (item : α) (held : Partition α) :
    (rule.makeRoom item held).map rule.size =
      rule.ofSizes.makeRoom (rule.size item) (held.map rule.size) := by
  have hcurrent : rule.ofSizes.total (held.map rule.size).current =
      rule.total held.current := total_ofSizes rule _
  have hempty : (held.map rule.size).current.isEmpty = held.current.isEmpty :=
    List.isEmpty_map
  unfold makeRoom
  rw [hcurrent, hempty, limit_ofSizes, size_ofSizes]
  split
  · exact Partition.map_endBatch _ _
  · rfl

theorem map_endFilled (rule : BatchRule α) (held : Partition α) :
    (rule.endFilled held).map rule.size =
      rule.ofSizes.endFilled (held.map rule.size) := by
  have hcurrent : rule.ofSizes.total (held.map rule.size).current =
      rule.total held.current := total_ofSizes rule _
  unfold endFilled
  rw [hcurrent, threshold_ofSizes]
  split
  · exact Partition.map_endBatch _ _
  · rfl

theorem map_step (rule : BatchRule α) (held : Partition α) (next : Option α) :
    (rule.step held next).map rule.size =
      rule.ofSizes.step (held.map rule.size) (next.map rule.size) := by
  cases next with
  | none => exact Partition.map_endBatch _ _
  | some item =>
    rw [Option.map_some]
    rcases Nat.lt_or_ge rule.limit (rule.size item) with hlarge | hfits
    · have hsame : rule.ofSizes.limit < rule.ofSizes.size (rule.size item) := hlarge
      rw [step_of_large hlarge, step_of_large hsame]
    · have hsame : rule.ofSizes.size (rule.size item) ≤ rule.ofSizes.limit := hfits
      rw [step_of_fits hfits, step_of_fits hsame, map_endFilled, Partition.map_put, map_makeRoom]

/-- Where batches end depends on nothing but the sizes of the items and where the flushes are. -/
theorem map_partition (rule : BatchRule α) (steps : List (Option α)) :
    (rule.partition steps).map rule.size =
      rule.ofSizes.partition (steps.map (Option.map rule.size)) := by
  induction steps using List.reverseRecOn with
  | nil => rfl
  | append_singleton steps next ih =>
    rw [List.map_append, List.map_singleton, partition_append_singleton,
      partition_append_singleton, ← ih, map_step]

end BatchRule

end PlaneArchive
