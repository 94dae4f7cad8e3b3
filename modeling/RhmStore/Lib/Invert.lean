import Mathlib.Data.List.Basic
import Mathlib.Data.List.Range
import Mathlib.Data.List.Perm.Basic

/-! # Lists that permute their indices -/

namespace RhmStore

/-- Every index of `l`, counted from `k`, is stored where its element says. -/
def storeIdx : List Nat → Nat → List Nat → List Nat
  | [], _, acc => acc
  | p :: l, k, acc => storeIdx l (k + 1) (acc.set p k)

def invert (l : List Nat) : List Nat := storeIdx l 0 (List.replicate l.length 0)

variable {l acc : List Nat}

@[simp] theorem length_storeIdx (l acc : List Nat) (k : Nat) :
    (storeIdx l k acc).length = acc.length := by
  induction l generalizing k acc with
  | nil => rfl
  | cons p l ih => rw [storeIdx, ih, List.length_set]

@[simp] theorem length_invert (l : List Nat) : (invert l).length = l.length := by
  rw [invert, length_storeIdx, List.length_replicate]

theorem storeIdx_of_notMem {p : Nat} (h : p ∉ l) (k : Nat) : (storeIdx l k acc)[p]? = acc[p]? := by
  induction l generalizing k acc with
  | nil => rfl
  | cons q l ih =>
    rw [List.mem_cons, not_or] at h
    rw [storeIdx, ih h.2, List.getElem?_set_ne (Ne.symm h.1)]

theorem storeIdx_of_getElem {i p : Nat} (hn : l.Nodup) (h : l[i]? = some p) (hp : p < acc.length)
    (k : Nat) : (storeIdx l k acc)[p]? = some (k + i) := by
  induction l generalizing i k acc with
  | nil => cases h
  | cons q l ih =>
    rw [List.nodup_cons] at hn
    rw [storeIdx]
    cases i with
    | zero =>
      obtain rfl : q = p := Option.some.inj h
      rw [storeIdx_of_notMem hn.1, List.getElem?_set_self hp]
      rfl
    | succ i =>
      rw [ih hn.2 h (by rw [List.length_set]; exact hp)]
      simp only [Option.some.injEq]
      omega

theorem lt_of_perm {n p : Nat} (h : l.Perm (List.range n)) (hp : p ∈ l) : p < l.length := by
  have hr := (h.mem_iff (a := p)).mp hp
  rw [h.length_eq, List.length_range]
  exact List.mem_range.mp hr

theorem nodup_of_perm {n : Nat} (h : l.Perm (List.range n)) : l.Nodup :=
  h.nodup_iff.mpr List.nodup_range

theorem invert_iff {n : Nat} (h : l.Perm (List.range n)) {i p : Nat} (hp : p < n) :
    (invert l)[p]? = some i ↔ l[i]? = some p := by
  have hto : ∀ j, l[j]? = some p → (invert l)[p]? = some j := by
    intro j hj
    have hlt := lt_of_perm h (List.mem_of_getElem? hj)
    have hst := storeIdx_of_getElem (nodup_of_perm h) hj
      (by rwa [List.length_replicate] : p < (List.replicate l.length 0).length) 0
    rw [invert, hst, Nat.zero_add]
  constructor
  · intro hi
    have hmem : p ∈ l := (h.mem_iff (a := p)).mpr (List.mem_range.mpr hp)
    obtain ⟨j, hj⟩ := List.mem_iff_getElem?.mp hmem
    have hij := hto j hj
    rw [hi] at hij
    obtain rfl := Option.some.inj hij
    exact hj
  · exact hto i

end RhmStore
