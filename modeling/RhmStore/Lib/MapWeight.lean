import Mathlib.Data.List.Basic
import Mathlib.Algebra.BigOperators.Group.List.Basic
import Mathlib.Tactic.Common

/-! # Weights of finite ordered maps -/

namespace RhmStore

open Std

section MapWeight

variable {α : Type*} {β : Type*} [Ord α] [TransOrd α] [LawfulEqOrd α]

/-- Sum of `w k v` over the entries of an ordered map. -/
def mapWeight (w : α → β → Nat) (t : ExtTreeMap α β) : Nat :=
  (t.toList.map fun p => w p.1 p.2).foldr Nat.add 0

private theorem nodup_toList (t : ExtTreeMap α β) : t.toList.Nodup := by
  have h := t.distinct_keys_toList
  refine h.imp ?_
  intro a b hab he
  exact hab (by rw [he]; exact ReflCmp.compare_self)

theorem mapGet_insert [DecidableEq α] (t : ExtTreeMap α β) (k a : α) (v : β) :
    (t.insert k v)[a]? = if a = k then some v else t[a]? := by
  rw [ExtTreeMap.getElem?_insert]
  by_cases h : a = k
  · subst h; simp
  · simp [h, Ne.symm h]

theorem mapGet_erase [DecidableEq α] (t : ExtTreeMap α β) (k a : α) :
    (t.erase k)[a]? = if a = k then none else t[a]? := by
  rw [ExtTreeMap.getElem?_erase]
  by_cases h : a = k
  · subst h; simp
  · simp [h, Ne.symm h]

theorem mapGet_modify [DecidableEq α] (t : ExtTreeMap α β) (k a : α) (f : β → β) :
    (t.modify k f)[a]? = if a = k then (t[a]?).map f else t[a]? := by
  rw [ExtTreeMap.getElem?_modify]
  by_cases h : a = k
  · subst h; simp
  · simp [h, Ne.symm h]

theorem mapGet_foldl_insert [DecidableEq α] {l : List (α × β)} (hl : ∀ p ∈ l, ∀ q ∈ l, p.1 = q.1 → p.2 = q.2)
    (t : ExtTreeMap α β) (k : α) (v : β) :
    (l.foldl (fun t p => t.insert p.1 p.2) t)[k]? = some v ↔
      (k, v) ∈ l ∨ (∀ p ∈ l, p.1 ≠ k) ∧ t[k]? = some v := by
  induction l generalizing t with
  | nil => simp
  | cons p l ih =>
    have hp : ∀ q ∈ l, p.1 = q.1 → p.2 = q.2 := fun q hq => hl p List.mem_cons_self q (List.mem_cons_of_mem _ hq)
    rw [List.foldl_cons, ih fun q hq r hr => hl q (List.mem_cons_of_mem _ hq) r (List.mem_cons_of_mem _ hr),
      mapGet_insert, List.mem_cons]
    by_cases hk : k = p.1
    · rw [if_pos hk, Option.some_inj]
      constructor
      · rintro (hm | ⟨-, rfl⟩)
        · exact .inl (.inr hm)
        · exact .inl (.inl (Prod.ext hk rfl))
      · rintro ((rfl | hm) | ⟨hno, -⟩)
        · by_cases hm : (k, v) ∈ l
          · exact .inl hm
          · refine .inr ⟨fun q hq hqk => hm ?_, rfl⟩
            have hv := hp q hq hqk.symm
            rw [show (k, v) = q from Prod.ext hqk.symm hv]
            exact hq
        · exact .inl hm
        · exact absurd hk.symm (hno p List.mem_cons_self)
    · rw [if_neg hk]
      constructor
      · rintro (hm | ⟨hno, ht⟩)
        · exact .inl (.inr hm)
        · refine .inr ⟨fun q hq => ?_, ht⟩
          rcases List.mem_cons.mp hq with rfl | hq
          · exact Ne.symm hk
          · exact hno q hq
      · rintro ((heq | hm) | ⟨hno, ht⟩)
        · exact absurd (congrArg Prod.fst heq) hk
        · exact .inl hm
        · exact .inr ⟨fun q hq => hno q (List.mem_cons_of_mem _ hq), ht⟩

private theorem toList_insert_perm (t : ExtTreeMap α β) (k : α) (v : β)
    (h : t[k]? = none) : ((t.insert k v).toList).Perm ((k, v) :: t.toList) := by
  classical
  have hk : (k, v) ∉ t.toList := by
    intro hm
    rw [ExtTreeMap.mem_toList_iff_getElem?_eq_some, h] at hm
    cases hm
  refine (List.perm_ext_iff_of_nodup (nodup_toList _)
    (List.nodup_cons.mpr ⟨hk, nodup_toList _⟩)).mpr ?_
  rintro ⟨a, b⟩
  rw [List.mem_cons, ExtTreeMap.mem_toList_iff_getElem?_eq_some,
    ExtTreeMap.mem_toList_iff_getElem?_eq_some, ExtTreeMap.getElem?_insert]
  by_cases ha : k = a
  · subst ha
    simp [ReflCmp.compare_self, h, eq_comm]
  · have hc : compare k a ≠ .eq := fun hc => ha (LawfulEqCmp.eq_of_compare hc)
    simp [hc, Ne.symm ha]

theorem toList_insert_last (t : ExtTreeMap α β) (k : α) (v : β)
    (h : ∀ e ∈ t.toList, compare e.1 k = .lt) : (t.insert k v).toList = t.toList ++ [(k, v)] := by
  have hnone : t[k]? = none := by
    cases hk : t[k]? with
    | none => rfl
    | some w =>
      have hlt := h (k, w) (ExtTreeMap.mem_toList_iff_getElem?_eq_some.mpr hk)
      rw [(ReflCmp.compare_self : compare k k = .eq)] at hlt
      cases hlt
  have hperm : (t.insert k v).toList.Perm (t.toList ++ [(k, v)]) :=
    (toList_insert_perm t k v hnone).trans (List.perm_append_singleton _ _).symm
  have hsorted : (t.toList ++ [(k, v)]).Pairwise fun a b => compare a.1 b.1 = .lt := by
    rw [List.pairwise_append]
    refine ⟨ExtTreeMap.ordered_keys_toList, List.pairwise_singleton _ _, ?_⟩
    intro a ha b hb
    rw [List.mem_singleton.mp hb]
    exact h a ha
  apply List.Perm.eq_of_pairwise _ ExtTreeMap.ordered_keys_toList hsorted hperm
  intro a b _ _ hab hba
  rw [(OrientedCmp.eq_swap : compare a.1 b.1 = (compare b.1 a.1).swap), hba] at hab
  cases hab

/-- A new key adds its own weight. -/
theorem mapWeight_insert (w : α → β → Nat) (t : ExtTreeMap α β) (k : α) (v : β)
    (h : t[k]? = none) : mapWeight w (t.insert k v) = w k v + mapWeight w t := by
  have : LeftCommutative Nat.add := ⟨Nat.add_left_comm⟩
  exact ((toList_insert_perm t k v h).map _).foldr_eq 0

private theorem getElem?_erase_of_ne (t : ExtTreeMap α β) (k a : α) (h : k ≠ a) :
    (t.erase k)[a]? = t[a]? := by
  have hc : compare k a ≠ .eq := fun hc => h (LawfulEqCmp.eq_of_compare hc)
  rw [ExtTreeMap.getElem?_erase]
  simp [hc]

private theorem insert_erase (t : ExtTreeMap α β) (k : α) (v : β) (h : t[k]? = some v) :
    (t.erase k).insert k v = t := by
  apply ExtTreeMap.ext_getElem?
  intro a
  rw [ExtTreeMap.getElem?_insert]
  by_cases ha : k = a
  · subst ha
    simp [ReflCmp.compare_self, h]
  · have hc : compare k a ≠ .eq := fun hc => ha (LawfulEqCmp.eq_of_compare hc)
    simp [hc, getElem?_erase_of_ne t k a ha]

/-- Erasing an entry takes its weight away. -/
theorem mapWeight_erase (w : α → β → Nat) (t : ExtTreeMap α β) (k : α) (v : β)
    (h : t[k]? = some v) : w k v + mapWeight w (t.erase k) = mapWeight w t := by
  have hn : (t.erase k)[k]? = none := by simp
  calc w k v + mapWeight w (t.erase k)
      = mapWeight w ((t.erase k).insert k v) := (mapWeight_insert w _ k v hn).symm
    _ = mapWeight w t := by rw [insert_erase t k v h]

theorem mapWeight_modify (w : α → β → Nat) (t : ExtTreeMap α β) (k : α) (f : β → β) (v : β)
    (h : t[k]? = some v) :
    w k v + mapWeight w (t.modify k f) = w k (f v) + mapWeight w t := by
  have hm : (t.modify k f)[k]? = some (f v) := by simp [h]
  have he : (t.modify k f).erase k = t.erase k := by
    apply ExtTreeMap.ext_getElem?
    intro a
    by_cases ha : k = a
    · subst ha; simp
    · have hc : compare k a ≠ .eq := fun hc => ha (LawfulEqCmp.eq_of_compare hc)
      rw [getElem?_erase_of_ne _ k a ha, getElem?_erase_of_ne _ k a ha,
        ExtTreeMap.getElem?_modify]
      simp [hc]
  have h1 := mapWeight_erase w (t.modify k f) k (f v) hm
  have h2 := mapWeight_erase w t k v h
  rw [he] at h1
  omega

theorem le_mapWeight (w : α → β → Nat) (t : ExtTreeMap α β) (k : α) (v : β)
    (h : t[k]? = some v) : w k v ≤ mapWeight w t := by
  have := mapWeight_erase w t k v h
  omega

private theorem foldr_add_eq_zero {l : List Nat} (h : ∀ x ∈ l, x = 0) : l.foldr Nat.add 0 = 0 := by
  induction l with
  | nil => rfl
  | cons x l ih =>
    rw [List.foldr_cons, ih fun y hy => h y (List.mem_cons_of_mem _ hy), h x List.mem_cons_self]

theorem mapWeight_eq_zero_iff (w : α → β → Nat) (t : ExtTreeMap α β) :
    mapWeight w t = 0 ↔ ∀ (k : α) v, t[k]? = some v → w k v = 0 := by
  constructor
  · intro hz k v hv
    have hle := le_mapWeight w t k v hv
    omega
  · intro hall
    apply foldr_add_eq_zero
    intro x hx
    obtain ⟨e, he, rfl⟩ := List.mem_map.mp hx
    exact hall e.1 e.2 (ExtTreeMap.mem_toList_iff_getElem?_eq_some.mp he)

theorem mapWeight_congr {γ : Type*} (g : β → γ) (w : α → γ → Nat) (t t' : ExtTreeMap α β)
    (h : ∀ k : α, (t[k]?).map g = (t'[k]?).map g) :
    mapWeight (fun k v => w k (g v)) t = mapWeight (fun k v => w k (g v)) t' := by
  have he : t.map (fun _ v => g v) = t'.map (fun _ v => g v) := by
    apply ExtTreeMap.ext_getElem?
    intro k
    simpa only [ExtTreeMap.getElem?_map] using h k
  have hm : ∀ u : ExtTreeMap α β,
      mapWeight (fun k v => w k (g v)) u = mapWeight w (u.map fun _ v => g v) := by
    intro u
    simp only [mapWeight, ExtTreeMap.toList_map, List.map_map]
    rfl
  rw [hm, hm, he]

omit [LawfulEqOrd α] in
@[simp] theorem mapWeight_empty (w : α → β → Nat) :
    mapWeight w (∅ : ExtTreeMap α β) = 0 := by
  have h : (∅ : ExtTreeMap α β).toList = [] := ExtTreeMap.toList_eq_nil_iff.mpr rfl
  simp [mapWeight, h]

end MapWeight

end RhmStore
