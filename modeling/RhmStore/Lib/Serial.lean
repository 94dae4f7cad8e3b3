import Mathlib.Data.BitVec

/-! # Serial numbers

Numbers on a circle of `2 ^ w`, compared as RFC 1982 does: of two numbers less than half the circle
apart, the later one is the one that the other one reaches by going forward. -/

namespace RhmStore

namespace Serial

variable {w : Nat}

/-- `a` is `b` or later. -/
def NotBefore (a b : BitVec w) : Prop := (a - b).toNat < 2 ^ (w - 1)

instance (a b : BitVec w) : Decidable (NotBefore a b) := inferInstanceAs (Decidable (_ < _))

def InHalf (S : List (BitVec w)) : Prop := ∃ b, ∀ r ∈ S, NotBefore r b

def IsLatest (m : BitVec w) (S : List (BitVec w)) : Prop := m ∈ S ∧ ∀ r ∈ S, NotBefore m r

theorem two_mul_half (hw : 0 < w) : 2 * 2 ^ (w - 1) = 2 ^ w := by
  rw [← Nat.pow_succ', Nat.succ_eq_add_one, Nat.sub_add_cancel hw]

theorem NotBefore.refl (a : BitVec w) : NotBefore a a := by
  rw [NotBefore, BitVec.sub_self]
  exact Nat.two_pow_pos _

theorem notBefore_iff (hw : 0 < w) {a c b : BitVec w} (ha : NotBefore a b) (hc : NotBefore c b) :
    NotBefore a c ↔ (c - b).toNat ≤ (a - b).toNat := by
  have hh := two_mul_half hw
  have hd : a - c = (a - b) - (c - b) := by
    rw [BitVec.sub_sub, BitVec.add_comm, BitVec.sub_add_cancel]
  unfold NotBefore at ha hc ⊢
  rw [hd, BitVec.toNat_sub]
  generalize (a - b).toNat = x at ha ⊢
  generalize (c - b).toNat = y at hc ⊢
  by_cases hle : y ≤ x
  · have he : 2 ^ w - y + x = 2 ^ w + (x - y) := by omega
    rw [he, Nat.add_mod_left, Nat.mod_eq_of_lt (by omega)]
    simp only [hle, iff_true]
    omega
  · rw [Nat.mod_eq_of_lt (by omega)]
    simp only [hle, iff_false]
    omega

theorem NotBefore.antisymm (hw : 0 < w) {a c b : BitVec w} (ha : NotBefore a b) (hc : NotBefore c b)
    (h : NotBefore a c) (h' : NotBefore c a) : a = c := by
  have h₁ := (notBefore_iff hw ha hc).mp h
  have h₂ := (notBefore_iff hw hc ha).mp h'
  have he : a - b = c - b := BitVec.eq_of_toNat_eq (Nat.le_antisymm h₂ h₁)
  rw [← BitVec.sub_add_cancel a b, he, BitVec.sub_add_cancel]

theorem NotBefore.trans (hw : 0 < w) {a c d b : BitVec w} (ha : NotBefore a b) (hc : NotBefore c b)
    (hd : NotBefore d b) (h : NotBefore a c) (h' : NotBefore c d) : NotBefore a d := by
  rw [notBefore_iff hw ha hd]
  exact Nat.le_trans ((notBefore_iff hw hc hd).mp h') ((notBefore_iff hw ha hc).mp h)

theorem NotBefore.total (hw : 0 < w) {a c b : BitVec w} (ha : NotBefore a b) (hc : NotBefore c b) :
    NotBefore a c ∨ NotBefore c a := by
  rw [notBefore_iff hw ha hc, notBefore_iff hw hc ha]
  exact Nat.le_total _ _

theorem InHalf.exists_isLatest (hw : 0 < w) {S : List (BitVec w)} (h : InHalf S) (hne : S ≠ []) :
    ∃ m, IsLatest m S := by
  obtain ⟨b, hb⟩ := h
  induction S with
  | nil => exact (hne rfl).elim
  | cons a S ih =>
    by_cases hS : S = []
    · subst hS
      refine ⟨a, List.mem_cons_self, fun r hr => ?_⟩
      rw [List.mem_singleton] at hr
      exact hr ▸ .refl a
    · obtain ⟨m, hm, hmax⟩ := ih hS (fun r hr => hb r (List.mem_cons_of_mem a hr))
      have hmb := hb m (List.mem_cons_of_mem a hm)
      have hab := hb a List.mem_cons_self
      rcases NotBefore.total hw hab hmb with ham | hma
      · refine ⟨a, List.mem_cons_self, fun r hr => ?_⟩
        rcases List.mem_cons.mp hr with rfl | hr
        · exact .refl _
        · exact .trans hw hab hmb (hb r (List.mem_cons_of_mem a hr)) ham (hmax r hr)
      · refine ⟨m, List.mem_cons_of_mem a hm, fun r hr => ?_⟩
        rcases List.mem_cons.mp hr with rfl | hr
        · exact hma
        · exact hmax r hr

/-- Nothing in `S` is up to half the circle ahead of its latest number. -/
theorem IsLatest.not_mem (hw : 0 < w) {m : BitVec w} {S : List (BitVec w)} (h : IsLatest m S) {d : Nat}
    (h0 : 0 < d) (hd : d ≤ 2 ^ (w - 1)) : m + BitVec.ofNat w d ∉ S := by
  intro hm
  have hh := two_mul_half hw
  have hlt := h.2 _ hm
  have he : m - (m + BitVec.ofNat w d) = 0#w - BitVec.ofNat w d := by
    rw [← BitVec.sub_sub, BitVec.sub_self]
  rw [NotBefore, he, BitVec.toNat_sub, BitVec.toNat_ofNat, BitVec.toNat_ofNat,
    Nat.mod_eq_of_lt (show d < 2 ^ w by omega), Nat.zero_mod, Nat.add_zero,
    Nat.mod_eq_of_lt (by omega)] at hlt
  omega

end Serial

end RhmStore
