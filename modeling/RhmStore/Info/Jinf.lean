import RhmStore.Jrnl.Page
import RhmStore.Store.Config

/-! # The info file of a journal -/

namespace RhmStore

structure Tm where
  year : Nat
  mon : Nat
  mday : Nat
  hour : Nat
  min : Nat
  sec : Nat
  deriving DecidableEq, Repr

/-- `jinf`, without the state of an analysis. Strings are lists of characters, a byte each. -/
structure Jinf where
  jver : Nat
  jid : List Char
  jdir : List Char
  baseFilename : List Char
  tvSec : Nat
  tvNsec : Nat
  tm : Tm
  numJfiles : Nat
  ae : Bool
  aeMaxJfiles : Nat
  jfsizeSblks : Nat
  sblkSizeDblks : Nat
  dblkSize : Nat
  wcachePgsizeSblks : Nat
  wcacheNumPages : Nat
  rcachePgsizeSblks : Nat
  rcacheNumPages : Nat
  deriving DecidableEq, Repr

/-- The codes of `jerrno` that `jinf` throws, and failed assertions. -/
inductive JinfErr
  | stat
  | badFileSize
  | invalidFhdr
  | jdatEmpty
  | owiBad
  | mapDuplicate
  | cvalidFail
  | noValueStr
  | badValueStr
  | zeroLenFile
  | assertFailed
  deriving DecidableEq, Repr

namespace Jinf

def rhmJdatVersion : Nat := 1

def jrnlRmgrPages : Nat := 16

/-- What `validate` reports; any of it fails. -/
def faults (ji : Jinf) : List Bool :=
  [ji.jver != rhmJdatVersion,
    decide (ji.numJfiles < Store.jrnlMinNumFiles),
    decide (Store.jrnlMaxNumFiles < ji.numJfiles),
    ji.ae && decide (ji.aeMaxJfiles < ji.numJfiles),
    ji.ae && decide (Store.jrnlMaxNumFiles < ji.aeMaxJfiles),
    decide (ji.jfsizeSblks < Store.jrnlMinFileSize),
    ji.sblkSizeDblks != jrnlSblkSize,
    ji.dblkSize != jrnlDblkSize]

def validate (ji : Jinf) : Except JinfErr Unit :=
  if ji.faults.any id then .error .cvalidFail else .ok ()

theorem validate_iff (ji : Jinf) : ji.validate = .ok () ↔
    ji.jver = rhmJdatVersion ∧ Store.jrnlMinNumFiles ≤ ji.numJfiles ∧
      ji.numJfiles ≤ Store.jrnlMaxNumFiles ∧
      (ji.ae = true → ji.numJfiles ≤ ji.aeMaxJfiles ∧ ji.aeMaxJfiles ≤ Store.jrnlMaxNumFiles) ∧
      Store.jrnlMinFileSize ≤ ji.jfsizeSblks ∧ ji.sblkSizeDblks = jrnlSblkSize ∧
      ji.dblkSize = jrnlDblkSize := by
  rw [validate]
  by_cases h : ji.faults.any id = true
  · rw [if_pos h]
    simp only [faults, List.any_cons, List.any_nil, id_eq, Bool.or_eq_true, bne_iff_ne, ne_eq,
      decide_eq_true_eq, Bool.and_eq_true, Bool.or_false, reduceCtorEq, false_iff] at h ⊢
    rintro ⟨h₁, h₂, h₃, h₄, h₅, h₆, h₇⟩
    rcases h with h | h | h | ⟨hae, h⟩ | ⟨hae, h⟩ | h | h | h
    · exact h h₁
    · omega
    · omega
    · have hle := (h₄ hae).1
      omega
    · have hle := (h₄ hae).2
      omega
    · omega
    · exact h h₆
    · exact h h₇
  · rw [if_neg h]
    simp only [faults, List.any_cons, List.any_nil, id_eq, Bool.or_eq_true, bne_iff_ne, ne_eq,
      decide_eq_true_eq, Bool.and_eq_true, Bool.or_false, not_or, not_not, not_and, Nat.not_lt,
      true_iff] at h ⊢
    obtain ⟨h₁, h₂, h₃, h₄, h₅, h₆, h₇, h₈⟩ := h
    exact ⟨h₁, h₂, h₃, fun hae => ⟨h₄ hae, h₅ hae⟩, h₆, h₇, h₈⟩

end Jinf

end RhmStore
