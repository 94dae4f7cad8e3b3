import RhmStore.Lib.Ring

/-! # The position of the writer in the ring of files -/

namespace RhmStore

/-- The position of `wrfc`: file, overwrite indicator, and whether this is the first rotation. -/
structure Wrfc where
  fcIndex : Nat
  owi : Bool
  frot : Bool
  deriving DecidableEq, Repr

/-- The data that `wrfc::initialize` takes from `rcvdat` for its position. -/
structure WrRcvdat where
  lfid : Nat
  owi : Bool
  frot : Bool
  lffull : Bool
  deriving DecidableEq, Repr

namespace Wrfc

def new : Wrfc := ⟨0, false, true⟩

/-- `wrfc::rotate` up to the reset of the file. -/
def rotate (n : Nat) (w : Wrfc) : Wrfc :=
  if w.fcIndex + 1 = n then { fcIndex := 0, owi := !w.owi, frot := false }
  else { w with fcIndex := w.fcIndex + 1 }

/-- `wrfc::initialize` for new files: only the index is set. -/
def init (w : Wrfc) : Wrfc := { w with fcIndex := 0 }

/-- `wrfc::initialize` for a journal recovered. -/
def recovered (n : Nat) (rd : WrRcvdat) : Wrfc :=
  let w : Wrfc := { fcIndex := rd.lfid, owi := rd.owi, frot := rd.frot }
  if rd.lffull then w.rotate n else w

def earliestIndex (n : Nat) (w : Wrfc) : Nat := if w.frot then 0 else ringNext n w.fcIndex

variable {n : Nat} {w : Wrfc}

theorem rotate_lt (h : w.fcIndex < n) : (w.rotate n).fcIndex < n := by
  rw [rotate]
  split <;> simp only <;> omega

theorem recovered_lt {rd : WrRcvdat} (h : rd.lfid < n) : (recovered n rd).fcIndex < n := by
  rw [recovered]
  split
  · exact rotate_lt h
  · exact h

theorem earliestIndex_lt (h : w.fcIndex < n) : w.earliestIndex n < n := by
  rw [earliestIndex]
  split
  · omega
  · exact ringNext_lt (by omega) _

theorem lt_of_behind (h : w.fcIndex < n) {d i : Nat} (hd : ringAt n (w.earliestIndex n) d = w.fcIndex)
    (hdi : d < i) (hi : i < n) :
    w.frot = true ∧ w.fcIndex < ringAt n (w.earliestIndex n) i := by
  by_cases hf : w.frot = true
  · rw [earliestIndex, if_pos hf, ringAt, Nat.zero_add, Nat.mod_eq_of_lt (by omega)] at hd
    rw [earliestIndex, if_pos hf, ringAt, Nat.zero_add, Nat.mod_eq_of_lt hi]
    exact ⟨hf, by omega⟩
  · -- the walk starts behind the current file and comes to it last
    rw [earliestIndex, if_neg hf] at hd
    have hn : 0 < n := by omega
    have hlast : ringAt n (ringNext n w.fcIndex) (n - 1) = w.fcIndex := by
      rw [ringAt_ringNext h, Nat.sub_add_cancel hn, ringAt, Nat.add_mod_right, Nat.mod_eq_of_lt h]
    have hdn := ringAt_inj (ringNext_lt hn w.fcIndex) (by omega : d < n) (by omega : n - 1 < n)
      (hd.trans hlast.symm)
    omega

end Wrfc

end RhmStore
