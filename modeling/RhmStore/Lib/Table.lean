import Mathlib.Data.List.Nodup
import Mathlib.Data.Set.Insert

/-! # Tables of a database

What a program may rely on of the tables of a database: those with one record for each key, and those
with several. A cursor goes through the entries in some order. -/

namespace RhmStore

/-- A table with at most one record for each key. `put` does not overwrite: it gives none if the key
is there. -/
structure Table (σ κ ν : Type*) where
  empty : σ
  entries : σ → List (κ × ν)
  put : σ → κ → ν → Option σ
  del : σ → κ → σ
  entries_empty : entries empty = []
  nodup_keys : ∀ t, ((entries t).map Prod.fst).Nodup
  put_isSome : ∀ t k v, (put t k v).isSome ↔ k ∉ (entries t).map Prod.fst
  mem_put : ∀ {t t' k v}, put t k v = some t' → ∀ e, e ∈ entries t' ↔ e = (k, v) ∨ e ∈ entries t
  mem_del : ∀ t k e, e ∈ entries (del t k) ↔ e ∈ entries t ∧ e.1 ≠ k

/-- A table with several records for a key. `put` gives none if the very record is there, `del`
removes all records of a key and `delAt` the one that a cursor is at. -/
structure DupTable (τ κ ν : Type*) where
  empty : τ
  entries : τ → List (κ × ν)
  put : τ → κ → ν → Option τ
  del : τ → κ → τ
  delAt : τ → κ × ν → τ
  entries_empty : entries empty = []
  nodup : ∀ t, (entries t).Nodup
  put_isSome : ∀ t k v, (put t k v).isSome ↔ (k, v) ∉ entries t
  mem_put : ∀ {t t' k v}, put t k v = some t' → ∀ e, e ∈ entries t' ↔ e = (k, v) ∨ e ∈ entries t
  mem_del : ∀ t k e, e ∈ entries (del t k) ↔ e ∈ entries t ∧ e.1 ≠ k
  mem_delAt : ∀ t e e', e' ∈ entries (delAt t e) ↔ e' ∈ entries t ∧ e' ≠ e

namespace Table

variable {σ κ ν : Type*} (T : Table σ κ ν)

theorem nodup_entries (t : σ) : (T.entries t).Nodup := (T.nodup_keys t).of_map

def ofList (κ ν : Type*) [DecidableEq κ] : Table {l : List (κ × ν) // (l.map Prod.fst).Nodup} κ ν where
  empty := ⟨[], List.nodup_nil⟩
  entries := Subtype.val
  put t k v :=
    if h : k ∈ t.val.map Prod.fst then none
    else some ⟨(k, v) :: t.val, List.nodup_cons.mpr ⟨h, t.property⟩⟩
  del t k := ⟨t.val.filter fun e => e.1 ≠ k, t.property.sublist (List.filter_sublist.map _)⟩
  entries_empty := rfl
  nodup_keys := Subtype.property
  put_isSome t k v := by
    by_cases h : k ∈ t.val.map Prod.fst
    · rw [dif_pos h]
      exact iff_of_false Bool.false_ne_true (not_not_intro h)
    · rw [dif_neg h]
      exact iff_of_true rfl h
  mem_put {t t' k v} h e := by
    by_cases hk : k ∈ t.val.map Prod.fst
    · rw [dif_pos hk] at h
      cases h
    · rw [dif_neg hk] at h
      cases h
      exact List.mem_cons
  mem_del t k e := by simp

end Table

namespace DupTable

variable {τ κ ν : Type*} (D : DupTable τ κ ν)

/-- A cursor goes through the entries `es` and removes those with `p`. -/
def delLoop (p : κ × ν → Bool) : List (κ × ν) → τ → τ
  | [], t => t
  | e :: es, t => delLoop p es (if p e then D.delAt t e else t)

theorem mem_delLoop (p : κ × ν → Bool) (es : List (κ × ν)) (t : τ) (e : κ × ν) :
    e ∈ D.entries (D.delLoop p es t) ↔ e ∈ D.entries t ∧ ¬(e ∈ es ∧ p e = true) := by
  induction es generalizing t with
  | nil => simp [delLoop]
  | cons e' es ih =>
    rw [delLoop, ih]
    by_cases hp : p e' = true
    · rw [if_pos hp, D.mem_delAt]
      by_cases he : e = e'
      · subst he
        simp [hp]
      · simp [he]
    · rw [if_neg hp]
      by_cases he : e = e'
      · subst he
        simp [hp]
      · simp [he]

def ofList (κ ν : Type*) [DecidableEq κ] [DecidableEq ν] : DupTable {l : List (κ × ν) // l.Nodup} κ ν where
  empty := ⟨[], List.nodup_nil⟩
  entries := Subtype.val
  put t k v := if h : (k, v) ∈ t.val then none else some ⟨(k, v) :: t.val, List.nodup_cons.mpr ⟨h, t.property⟩⟩
  del t k := ⟨t.val.filter fun e => e.1 ≠ k, t.property.filter _⟩
  delAt t e := ⟨t.val.filter fun e' => e' ≠ e, t.property.filter _⟩
  entries_empty := rfl
  nodup := Subtype.property
  put_isSome t k v := by
    by_cases h : (k, v) ∈ t.val
    · rw [dif_pos h]
      exact iff_of_false Bool.false_ne_true (not_not_intro h)
    · rw [dif_neg h]
      exact iff_of_true rfl h
  mem_put {t t' k v} h e := by
    by_cases hk : (k, v) ∈ t.val
    · rw [dif_pos hk] at h
      cases h
    · rw [dif_neg hk] at h
      cases h
      exact List.mem_cons
  mem_del t k e := by simp
  mem_delAt t e e' := by simp

end DupTable

end RhmStore
