import Mathlib.Data.List.DropRight

/-! # Append-only logs of which a crash leaves a front part

Entries get to the disk in any order, and what is read again after a crash ends at the first that is
missing. All that is asked is that it does not end before an entry that somebody has waited for. -/

namespace RhmStore

/-- A log with the first `synced` entries waited for. -/
structure Wal (α : Type*) where
  recs : List α
  synced : Nat
  synced_le : synced ≤ recs.length

namespace Wal

variable {α : Type*}

def empty : Wal α := ⟨[], 0, Nat.le_refl _⟩

def durable (w : Wal α) : List α := w.recs.take w.synced

def append (w : Wal α) (a : α) : Wal α :=
  ⟨w.recs ++ [a], w.synced, by
    rw [List.length_append]
    exact Nat.le_add_right_of_le w.synced_le⟩

/-- The first `k` entries have been waited for. -/
def sync (w : Wal α) (k : Nat) : Wal α :=
  ⟨w.recs, max w.synced (min k w.recs.length), Nat.max_le.mpr ⟨w.synced_le, Nat.min_le_right _ _⟩⟩

/-- The entries that `P` holds of have been waited for. -/
def syncFor (w : Wal α) (P : α → Bool) : Wal α := w.sync (w.recs.rdropWhile fun a => !P a).length

/-- A crash leaves any front part, the entries before the `k`th, with those waited for. -/
def crash (w : Wal α) (k : Nat) : Wal α :=
  ⟨w.recs.take (max w.synced k), (w.recs.take (max w.synced k)).length, Nat.le_refl _⟩

inductive Step (w : Wal α) : Wal α → Prop
  | sync (k : Nat) : Step w (w.sync k)
  | append (k : Nat) (a : α) : Step w ((w.sync k).append a)
  | crash (k : Nat) : Step w (w.crash k)

variable (w : Wal α)

@[simp] theorem recs_append (a : α) : (w.append a).recs = w.recs ++ [a] := rfl

@[simp] theorem recs_sync (k : Nat) : (w.sync k).recs = w.recs := rfl

theorem durable_prefix : w.durable <+: w.recs := List.take_prefix _ _

@[simp] theorem durable_append (a : α) : (w.append a).durable = w.durable :=
  List.take_append_of_le_length w.synced_le

@[simp] theorem sync_zero : w.sync 0 = w := by
  cases w
  simp [sync]

theorem durable_sync (k : Nat) : w.durable <+: (w.sync k).durable :=
  List.take_prefix_take_left (Nat.le_max_left _ _)

theorem mem_durable_syncFor {w : Wal α} {P : α → Bool} {a : α} (h : a ∈ w.recs) (hP : P a = true) :
    a ∈ (w.syncFor P).durable := by
  have hpre := w.recs.rdropWhile_prefix fun a => !P a
  have hsplit : (w.recs.rdropWhile fun a => !P a) ++ (w.recs.rtakeWhile fun a => !P a) = w.recs := by simp
  have hm : a ∈ w.recs.rdropWhile fun a => !P a := by
    rw [← hsplit, List.mem_append] at h
    refine h.resolve_right fun ht => ?_
    have hn := List.mem_rtakeWhile_imp ht
    simp [hP] at hn
  rw [List.prefix_iff_eq_take.mp hpre] at hm
  refine (List.take_subset_take_left _ ?_) hm
  exact Nat.le_trans (Nat.le_min.mpr ⟨Nat.le_refl _, hpre.length_le⟩) (Nat.le_max_right _ _)

theorem crash_prefix (k : Nat) : (w.crash k).recs <+: w.recs := List.take_prefix _ _

@[simp] theorem durable_crash (k : Nat) : (w.crash k).durable = (w.crash k).recs := List.take_length

theorem durable_prefix_crash (k : Nat) : w.durable <+: (w.crash k).recs :=
  List.take_prefix_take_left (Nat.le_max_left _ _)

/-- What was waited for stays. -/
theorem Step.durable {w w' : Wal α} (h : Step w w') : w.durable <+: w'.durable := by
  cases h with
  | sync k => exact w.durable_sync k
  | append k a =>
    rw [durable_append]
    exact w.durable_sync k
  | crash k =>
    rw [durable_crash]
    exact w.durable_prefix_crash k

end Wal

end RhmStore
