import Mathlib.Data.List.Basic
import Mathlib.Tactic.Common

/-! # Rings of numbered places, and a count for each place -/

namespace RhmStore

/-! ## Walks -/

/-- The place `i` steps behind `a` in a ring of `n`. -/
def ringAt (n a i : Nat) : Nat := (a + i) % n

/-- `++` that starts again at the end of the ring. -/
def ringNext (n a : Nat) : Nat := if n ≤ a + 1 then 0 else a + 1

/-- The walk goes on to a place that `p` holds of or to `stop`; where `p` fails, so does the walk. -/
def ringWalk (n : Nat) (p : Nat → Option Bool) (stop : Nat) : Nat → Nat → Option Nat
  | 0, _ => none
  | k + 1, a => (p a).bind fun b =>
    if b || a == stop then some a else ringWalk n p stop k (ringNext n a)

/-- The first place from `a` on that `P` holds of, or `stop` where there is none in the ring. -/
def FirstFrom (n : Nat) (P : Nat → Prop) (a stop f : Nat) : Prop :=
  (∃ i < n, f = ringAt n a i ∧ P f ∧ ∀ j < i, ¬P (ringAt n a j)) ∨ (f = stop ∧ ∀ g < n, ¬P g)

variable {n : Nat} {p : Nat → Option Bool} {q : Nat → Bool} {a stop : Nat}

theorem ringAt_zero (ha : a < n) : ringAt n a 0 = a := Nat.mod_eq_of_lt ha

theorem ringAt_lt (hn : 0 < n) (a i : Nat) : ringAt n a i < n := Nat.mod_lt _ hn

theorem ringNext_lt (hn : 0 < n) (a : Nat) : ringNext n a < n := by
  rw [ringNext]
  split <;> omega

theorem ringNext_eq (ha : a < n) : ringNext n a = ringAt n a 1 := by
  rw [ringNext, ringAt]
  by_cases h : n ≤ a + 1
  · have hn : a + 1 = n := by omega
    rw [if_pos h, hn, Nat.mod_self]
  · rw [if_neg h, Nat.mod_eq_of_lt (by omega)]

theorem ringAt_ringNext (ha : a < n) (i : Nat) : ringAt n (ringNext n a) i = ringAt n a (i + 1) := by
  rw [ringNext_eq ha, ringAt, ringAt, ringAt, Nat.mod_add_mod]
  congr 1
  omega

theorem exists_ringAt (ha : a < n) {g : Nat} (hg : g < n) : ∃ i < n, ringAt n a i = g := by
  by_cases h : a ≤ g
  · refine ⟨g - a, by omega, ?_⟩
    rw [ringAt, Nat.add_sub_cancel' h, Nat.mod_eq_of_lt hg]
  · refine ⟨n - a + g, by omega, ?_⟩
    have hsum : a + (n - a + g) = g + n := by omega
    rw [ringAt, hsum, Nat.add_mod_right, Nat.mod_eq_of_lt hg]

theorem ringAt_inj {i j : Nat} (ha : a < n) (hi : i < n) (hj : j < n)
    (h : ringAt n a i = ringAt n a j) : i = j := by
  have hmod : ∀ k < n, (a + k) % n = if a + k < n then a + k else a + k - n := by
    intro k hk
    split
    · exact Nat.mod_eq_of_lt (by omega)
    · rw [Nat.mod_eq_sub_mod (by omega), Nat.mod_eq_of_lt (by omega)]
  rw [ringAt, ringAt, hmod i hi, hmod j hj] at h
  split at h <;> split at h <;> omega

/-- The walk stops at the first place that `q` holds of, at the latest at `stop`, which is `d` steps
away. -/
theorem ringWalk_eq (hp : ∀ g < n, p g = some (q g)) {d k : Nat} (ha : a < n)
    (hd : ringAt n a d = stop) (hdk : d < k) :
    ∃ i ≤ d, ringWalk n p stop k a = some (ringAt n a i) ∧
      (q (ringAt n a i) = true ∨ ringAt n a i = stop) ∧
      ∀ j < i, q (ringAt n a j) = false ∧ ringAt n a j ≠ stop := by
  induction k generalizing a d with
  | zero => cases hdk
  | succ k ih =>
    rw [ringWalk, hp a ha, Option.bind_some]
    by_cases hstop : (q a || a == stop) = true
    · rw [if_pos hstop]
      refine ⟨0, Nat.zero_le d, ?_, ?_, fun j hj => absurd hj (Nat.not_lt_zero j)⟩
      · rw [ringAt_zero ha]
      · rw [ringAt_zero ha]
        simpa only [Bool.or_eq_true, beq_iff_eq] using hstop
    · rw [if_neg hstop]
      rw [Bool.or_eq_true, beq_iff_eq, not_or, Bool.not_eq_true] at hstop
      have hn : 0 < n := by omega
      cases d with
      | zero =>
        rw [ringAt_zero ha] at hd
        exact (hstop.2 hd).elim
      | succ d =>
        rw [← ringAt_ringNext ha] at hd
        obtain ⟨i, hi, hwalk, hat, hbefore⟩ := ih (ringNext_lt hn a) hd (by omega)
        simp only [ringAt_ringNext ha] at hwalk hat hbefore
        refine ⟨i + 1, by omega, hwalk, hat, ?_⟩
        intro j hj
        cases j with
        | zero =>
          rw [ringAt_zero ha]
          exact hstop
        | succ j => exact hbefore j (by omega)

theorem ringWalk_first {P : Nat → Prop} (hp : ∀ g < n, p g = some (q g))
    (hq : ∀ g < n, q g = true ↔ P g) (ha : a < n) (hs : stop < n)
    (hbehind : ∀ d i, ringAt n a d = stop → d < i → i < n → ¬P (ringAt n a i)) :
    ∃ f, ringWalk n p stop n a = some f ∧ FirstFrom n P a stop f := by
  obtain ⟨d, hdn, hd⟩ := exists_ringAt ha hs
  obtain ⟨i, hi, hwalk, hat, hbefore⟩ := ringWalk_eq hp ha hd hdn
  have hnot : ∀ j < i, ¬P (ringAt n a j) := by
    intro j hj hP
    have hqj := (hq _ (ringAt_lt (by omega) a j)).mpr hP
    rw [(hbefore j hj).1] at hqj
    cases hqj
  refine ⟨ringAt n a i, hwalk, ?_⟩
  by_cases hP : P (ringAt n a i)
  · exact .inl ⟨i, by omega, rfl, hP, hnot⟩
  · have hstop : ringAt n a i = stop := by
      apply hat.resolve_left
      rwa [hq _ (ringAt_lt (by omega) a i)]
    refine .inr ⟨hstop, ?_⟩
    intro g hg
    obtain ⟨j, hj, rfl⟩ := exists_ringAt ha hg
    rcases Nat.lt_trichotomy j i with hji | rfl | hij
    · exact hnot j hji
    · exact hP
    · exact hbehind i j hstop hij hj

/-- The places of a ring in order from place `c` on. -/
def ringFrom (c n : Nat) : List Nat := List.range' c (n - c) ++ List.range c

theorem length_ringFrom {c n : Nat} (hc : c ≤ n) : (ringFrom c n).length = n := by
  rw [ringFrom, List.length_append, List.length_range', List.length_range]
  omega

theorem ringFrom_zero (n : Nat) : ringFrom 0 n = List.range n := by
  rw [ringFrom, List.range_zero, List.append_nil, Nat.sub_zero, List.range_eq_range']

theorem ringFrom_self (n : Nat) : ringFrom n n = List.range n := by
  rw [ringFrom, Nat.sub_self, List.range'_zero, List.nil_append]

theorem getD_ringFrom {c n j : Nat} (hc : c < n) (hj : j < n) : (ringFrom c n).getD j 0 = ringAt n c j := by
  rw [ringFrom, List.getD_eq_getElem?_getD, ringAt]
  by_cases hjc : j < n - c
  · rw [List.getElem?_append_left (by rwa [List.length_range']), List.getElem?_range' hjc,
      Option.getD_some, Nat.mod_eq_of_lt (by omega)]
    omega
  · have hwrap : c + j = j - (n - c) + n := by omega
    rw [List.getElem?_append_right (by rw [List.length_range']; omega), List.length_range',
      List.getElem?_range (by omega), Option.getD_some, hwrap, Nat.add_mod_right,
      Nat.mod_eq_of_lt (by omega)]

theorem idxOf_ringFrom {c n : Nat} (hc : c < n) :
    (ringFrom c n).idxOf 0 < n ∧ ringAt n c ((ringFrom c n).idxOf 0) = 0 := by
  have hmem : 0 ∈ ringFrom c n := by
    rw [ringFrom, List.mem_append, List.mem_range'_1, List.mem_range]
    omega
  have hlt := List.idxOf_lt_length_of_mem hmem
  rw [length_ringFrom (Nat.le_of_lt hc)] at hlt
  refine ⟨hlt, ?_⟩
  rw [← getD_ringFrom hc hlt, List.getD_eq_getElem?_getD, List.getElem?_idxOf hmem, Option.getD_some]

/-! ## Counts -/

/-- The counts `h` of `n` places. -/
def tally (n : Nat) (h : Nat → Nat) : List Nat := (List.range n).map h

variable {h h' : Nat → Nat}

theorem getElem?_tally {f : Nat} (hf : f < n) : (tally n h)[f]? = some (h f) := by
  rw [tally, List.getElem?_map, List.getElem?_range hf, Option.map_some]

theorem tally_congr (hh : ∀ f < n, h f = h' f) : tally n h = tally n h' := by
  apply List.map_congr_left
  intro f hf
  exact hh f (List.mem_range.mp hf)

theorem modify_tally (i : Nat) (g : Nat → Nat) :
    (tally n h).modify i g = tally n fun f => if i = f then g (h f) else h f := by
  apply List.ext_getElem?
  intro f
  rw [List.getElem?_modify]
  by_cases hf : f < n
  · rw [getElem?_tally hf, getElem?_tally hf]
    split <;> rfl
  · have hnone : ∀ h : Nat → Nat, (tally n h)[f]? = none := by
      intro h
      rw [tally, List.getElem?_eq_none_iff, List.length_map, List.length_range]
      omega
    rw [hnone, hnone]
    split <;> rfl

theorem resize_tally (hout : ∀ f, n ≤ f → h f = 0) (m : Nat) :
    (tally n h).take m ++ List.replicate (m - (tally n h).length) 0 = tally m h := by
  have hlen : (tally n h).length = n := by rw [tally, List.length_map, List.length_range]
  rw [hlen]
  apply List.ext_getElem?
  intro f
  by_cases hf : f < m
  · rw [getElem?_tally hf]
    by_cases hfn : f < n
    · rw [List.getElem?_append_left, List.getElem?_take_of_lt hf, getElem?_tally hfn]
      rw [List.length_take, hlen]
      omega
    · have htake : ((tally n h).take m).length = n := by
        rw [List.length_take, hlen]
        omega
      rw [List.getElem?_append_right (by omega), htake, List.getElem?_replicate_of_lt (by omega)]
      rw [hout f (by omega)]
  · have hnone : (tally m h)[f]? = none := by
      rw [tally, List.getElem?_eq_none_iff, List.length_map, List.length_range]
      omega
    rw [hnone, List.getElem?_eq_none_iff, List.length_append, List.length_take, hlen,
      List.length_replicate]
    omega

theorem tally_inj : tally n h = tally n h' ↔ ∀ f < n, h f = h' f := by
  constructor
  · intro he f hf
    have hf' := congrArg (fun l => l[f]?) he
    simp only [getElem?_tally hf, Option.some.injEq] at hf'
    exact hf'
  · exact tally_congr

end RhmStore
