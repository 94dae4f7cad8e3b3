import Mathlib.Data.List.Basic

/-! # Lists whose elements lie end to end -/

namespace RhmStore

variable {α : Type*} (pos size : α → Nat)

/-- The elements lie end to end from `p` to `q`. -/
def Tiles : Nat → List α → Nat → Prop
  | p, [], q => p = q
  | p, x :: xs, q => pos x = p ∧ Tiles (p + size x) xs q

namespace Tiles

variable {pos size} {p q r : Nat} {xs ys : List α}

theorem append (h : Tiles pos size p xs q) (h' : Tiles pos size q ys r) : Tiles pos size p (xs ++ ys) r := by
  induction xs generalizing p with
  | nil =>
    obtain rfl : p = q := h
    exact h'
  | cons x xs ih => exact ⟨h.1, ih h.2⟩

theorem le (h : Tiles pos size p xs q) : p ≤ q := by
  induction xs generalizing p with
  | nil => exact Nat.le_of_eq h
  | cons x xs ih =>
    have := ih h.2
    omega

theorem mem_bounds (h : Tiles pos size p xs q) {x : α} (hx : x ∈ xs) : p ≤ pos x ∧ pos x + size x ≤ q := by
  induction xs generalizing p with
  | nil => cases hx
  | cons y xs ih =>
    obtain ⟨hy, hr⟩ := h
    rcases List.mem_cons.mp hx with rfl | hx
    · have := le hr
      omega
    · have := ih hr hx
      omega

theorem exists_cover (h : Tiles pos size p xs q) {k : Nat} (hp : p ≤ k) (hq : k < q) :
    ∃ pre x post, xs = pre ++ x :: post ∧ pos x ≤ k ∧ k < pos x + size x ∧
      Tiles pos size p pre (pos x) ∧ Tiles pos size (pos x + size x) post q := by
  induction xs generalizing p with
  | nil =>
    obtain rfl : p = q := h
    omega
  | cons x xs ih =>
    obtain ⟨hx, hr⟩ := h
    by_cases hk : k < p + size x
    · exact ⟨[], x, xs, rfl, by omega, by omega, hx.symm, hx ▸ hr⟩
    · obtain ⟨pre, y, post, rfl, hy, hlt, hpre, hpost⟩ := ih hr (by omega)
      exact ⟨x :: pre, y, post, rfl, hy, hlt, ⟨hx, hpre⟩, hpost⟩

variable (hs : ∀ x, 0 < size x)
include hs

theorem find?_eq {y : α} (h : Tiles pos size p (xs ++ y :: ys) r) :
    (xs ++ y :: ys).find? (fun x => pos x = pos y) = some y := by
  induction xs generalizing p with
  | nil => simp
  | cons x xs ih =>
    obtain ⟨hx, hr⟩ := h
    have hb := mem_bounds hr (List.mem_append_right xs List.mem_cons_self)
    have := hs x
    rw [List.cons_append, List.find?_cons_of_neg (by simp; omega)]
    exact ih hr

end Tiles

end RhmStore
