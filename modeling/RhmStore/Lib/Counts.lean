import Mathlib.Algebra.BigOperators.Group.Finset.Basic
import Mathlib.Algebra.Order.BigOperators.Group.Finset
import Mathlib.Data.List.Count
import Mathlib.Logic.Function.Basic

/-! # Sums of a table's entries, counts of a list's elements -/

namespace RhmStore

open Finset

section Sums

variable {α : Type} (f : Nat → α) (w : α → Nat) {i n : Nat} (a : α)

/-- A change of one entry changes the sum by what it weighs. -/
theorem sum_range_update (h : i < n) :
    (∑ j ∈ range n, w (Function.update f i a j)) + w (f i) = (∑ j ∈ range n, w (f j)) + w a := by
  have hi : i ∈ range n := mem_range.mpr h
  rw [← add_sum_erase _ _ hi, ← add_sum_erase (range n) (fun j => w (f j)) hi,
    Function.update_self]
  have he : ∑ j ∈ (range n).erase i, w (Function.update f i a j) = ∑ j ∈ (range n).erase i, w (f j) := by
    apply sum_congr rfl
    intro j hj
    rw [Function.update_of_ne (ne_of_mem_erase hj)]
  rw [he]
  omega

theorem le_sum_range (h : i < n) : w (f i) ≤ ∑ j ∈ range n, w (f j) :=
  single_le_sum (f := fun j => w (f j)) (fun _ _ => Nat.zero_le _) (mem_range.mpr h)

theorem sum_range_eq_zero_iff : ∑ j ∈ range n, w (f j) = 0 ↔ ∀ j < n, w (f j) = 0 := by
  rw [sum_eq_zero_iff]
  simp only [mem_range]

end Sums

section Count

variable {α : Type} [BEq α] [LawfulBEq α]

theorem countP_erase_add {l : List α} {a : α} (h : a ∈ l) (p : α → Bool) :
    (l.erase a).countP p + (if p a then 1 else 0) = l.countP p := by
  rw [(List.perm_cons_erase h).countP_eq p, List.countP_cons]

end Count

end RhmStore
