import RhmStore.Lib.Serial

/-! # Record ids over a restart -/

namespace RhmStore

open Serial

/-- A record id, `u_int64_t`. -/
abbrev Rid := BitVec 64

/-- `IdSequence`. -/
structure IdSequence where
  id : Rid
  deriving DecidableEq, Repr

namespace IdSequence

/-- `IdSequence::next`, which avoids 0. -/
def next (s : IdSequence) : Rid × IdSequence :=
  let id := if s.id = 0 then s.id + 1 else s.id
  (id, ⟨id + 1⟩)

/-- `IdSequence::reset`. -/
def reset (value : Rid) : IdSequence := ⟨value⟩

/-- What the call of `next` after `k` others returns. -/
def nth (s : IdSequence) : Nat → Rid
  | 0 => s.next.1
  | k + 1 => s.next.2.nth k

theorem next_eq (s : IdSequence) : ∃ d ≤ 1, s.next = (s.id + BitVec.ofNat 64 d,
    ⟨s.id + BitVec.ofNat 64 (d + 1)⟩) := by
  by_cases h : s.id = 0
  · exact ⟨1, Nat.le_refl 1, by simp [next, h]⟩
  · exact ⟨0, Nat.zero_le 1, by simp only [next, if_neg h]; simp⟩

theorem nth_eq (s : IdSequence) (k : Nat) :
    ∃ d ≤ 2 * k + 1, s.nth k = s.id + BitVec.ofNat 64 d := by
  induction k generalizing s with
  | zero =>
    obtain ⟨d, hd, hn⟩ := s.next_eq
    exact ⟨d, hd, by rw [nth, hn]⟩
  | succ k ih =>
    obtain ⟨d, hd, hn⟩ := s.next_eq
    obtain ⟨e, he, hk⟩ := ih s.next.2
    refine ⟨d + 1 + e, by omega, ?_⟩
    rw [nth, hk, hn, BitVec.add_assoc, BitVec.ofNat_add_ofNat]

end IdSequence

/-- The highest rid after another one is found: 0 stands for none, and the comparison is that of RFC
1982 for unsigned 64-bit numbers. -/
def highestRidStep (highest rid : Rid) : Rid :=
  if highest = 0 then rid else if rid - highest < 0x8000000000000000 then rid else highest

/-- `rcvdat::_h_rid` after `jcntl::check_owi` of the records of a journal. -/
def hRid (rids : List Rid) : Rid := rids.foldl highestRidStep 0

/-- `MessageStoreImpl::highestRid` after `recoverTplStore` and `recoverQueues` of journals with
these rids, in this order. -/
def highestRid (journals : List (List Rid)) : Rid :=
  journals.foldl (fun highest rids => highestRidStep highest (hRid rids)) 0

/-- `messageIdSequence` at the end of `recoverQueues`. -/
def messageIdSequence (journals : List (List Rid)) : IdSequence :=
  .reset (highestRid journals + 1)

/-- The highest rid is the latest of those stored, and none of them is issued again for long. -/
def RestartsAfter (journals : List (List Rid)) : Prop :=
  (∀ m, IsLatest m journals.flatten → highestRid journals = m) ∧
    ∀ k < 2 ^ 62, (messageIdSequence journals).nth k ∉ journals.flatten

/-- No empty journal is recovered after the last one that holds `m`, or `m` is not beyond the middle
of the circle. -/
def KeepsHighest (m : Rid) (journals : List (List Rid)) : Prop :=
  m.toNat ≤ 2 ^ 63 ∨
    ∃ pre j post, journals = pre ++ j :: post ∧ m ∈ j ∧ ∀ rids ∈ post, rids ≠ []

section

variable {m h r : Rid} {l : List Rid}

theorem lt_iff_notBefore : r - h < 0x8000000000000000 ↔ NotBefore r h := Iff.rfl

theorem step_zero (r : Rid) : highestRidStep 0 r = r := rfl

theorem step_latest (hn : h = 0 ∨ NotBefore m h) : highestRidStep h m = m := by
  unfold highestRidStep
  by_cases h0 : h = 0
  · rw [if_pos h0]
  · rw [if_neg h0, if_pos (lt_iff_notBefore.mpr (hn.resolve_left h0))]

theorem step_keeps (hm : m ≠ 0) (hn : ¬NotBefore r m) : highestRidStep m r = m := by
  rw [highestRidStep, if_neg hm, if_neg (fun hc => hn (lt_iff_notBefore.mp hc))]

theorem step_self (m : Rid) : highestRidStep m m = m :=
  step_latest (Or.inr (.refl m))

theorem step_empty (hm : m ≠ 0) : highestRidStep m 0 = if m.toNat ≤ 2 ^ 63 then m else 0 := by
  have h : 0 - m < 0x8000000000000000 ↔ ¬m.toNat ≤ 2 ^ 63 := by
    have : m.toNat ≠ 0 := by
      intro hc
      exact hm (BitVec.eq_of_toNat_eq hc)
    bv_omega
  rw [highestRidStep, if_neg hm]
  by_cases hle : m.toNat ≤ 2 ^ 63
  · rw [if_pos hle, if_neg (by rw [h]; exact not_not.mpr hle)]
  · rw [if_neg hle, if_pos (h.mpr hle)]

theorem step_mem (h r : Rid) : highestRidStep h r = h ∨ highestRidStep h r = r := by
  unfold highestRidStep
  split
  · exact Or.inr rfl
  · split
    · exact Or.inr rfl
    · exact Or.inl rfl

theorem foldl_mem (h : Rid) (l : List Rid) :
    l.foldl highestRidStep h = h ∨ l.foldl highestRidStep h ∈ l := by
  induction l generalizing h with
  | nil => exact Or.inl rfl
  | cons r l ih =>
    rw [List.foldl_cons]
    rcases ih (highestRidStep h r) with he | hm
    · rw [he]
      rcases step_mem h r with hh | hr
      · exact Or.inl hh
      · exact Or.inr (by rw [hr]; exact List.mem_cons_self)
    · exact Or.inr (List.mem_cons_of_mem r hm)

theorem foldl_keeps (hl : ∀ r ∈ l, highestRidStep m r = m) : l.foldl highestRidStep m = m := by
  induction l with
  | nil => rfl
  | cons r l ih =>
    rw [List.foldl_cons, hl r List.mem_cons_self]
    exact ih fun r hr => hl r (List.mem_cons_of_mem _ hr)

theorem foldl_latest {pre post : List Rid} (hpre : ∀ r ∈ pre, r = 0 ∨ NotBefore m r)
    (hpost : ∀ r ∈ post, highestRidStep m r = m) :
    (pre ++ m :: post).foldl highestRidStep 0 = m := by
  have hx : pre.foldl highestRidStep 0 = 0 ∨ NotBefore m (pre.foldl highestRidStep 0) := by
    rcases foldl_mem 0 pre with h0 | hm
    · exact Or.inl h0
    · exact hpre _ hm
  rw [List.foldl_append, List.foldl_cons, step_latest hx]
  exact foldl_keeps hpost

end

section

variable {m : Rid} {rids : List Rid} {journals : List (List Rid)}

theorem highestRid_eq (journals : List (List Rid)) :
    highestRid journals = (journals.map hRid).foldl highestRidStep 0 := by
  rw [highestRid, List.foldl_map]

theorem hRid_mem (h : rids ≠ []) : hRid rids ∈ rids := by
  cases rids with
  | nil => exact (h rfl).elim
  | cons r rids =>
    rw [hRid, List.foldl_cons, step_zero]
    rcases foldl_mem r rids with he | hm
    · rw [he]
      exact List.mem_cons_self
    · exact List.mem_cons_of_mem r hm

theorem step_other (hS : InHalf journals.flatten) (hm : IsLatest m journals.flatten) (h0 : m ≠ 0)
    {r : Rid} (hr : r ∈ journals.flatten) : highestRidStep m r = m := by
  by_cases he : r = m
  · rw [he, step_self]
  · refine step_keeps h0 fun hn => he ?_
    obtain ⟨b, hb⟩ := hS
    exact NotBefore.antisymm (by decide) (hb r hr) (hb m hm.1) hn (hm.2 r hr)

theorem hRid_of_mem (hS : InHalf journals.flatten) (hm : IsLatest m journals.flatten) (h0 : m ≠ 0)
    (hj : rids ∈ journals) (hmj : m ∈ rids) : hRid rids = m := by
  have hall : ∀ r ∈ rids, r ∈ journals.flatten := fun r hr => List.mem_flatten_of_mem hj hr
  obtain ⟨pre, post, rfl⟩ := List.append_of_mem hmj
  refine foldl_latest (fun r hr => Or.inr (hm.2 r (hall r (by simp [hr])))) fun r hr => ?_
  exact step_other hS hm h0 (hall r (by simp [hr]))

theorem hRid_cases (hj : rids ∈ journals) :
    rids = [] ∧ hRid rids = 0 ∨ rids ≠ [] ∧ hRid rids ∈ rids ∧ hRid rids ∈ journals.flatten := by
  by_cases h : rids = []
  · exact Or.inl ⟨h, h ▸ rfl⟩
  · exact Or.inr ⟨h, hRid_mem h, List.mem_flatten_of_mem hj (hRid_mem h)⟩

theorem highestRid_of_keeps (hS : InHalf journals.flatten) (hm : IsLatest m journals.flatten)
    (h0 : m ≠ 0) (hk : KeepsHighest m journals) : highestRid journals = m := by
  have hfin : ∀ pre j post, journals = pre ++ j :: post → m ∈ j →
      (∀ rids ∈ post, rids = [] → m.toNat ≤ 2 ^ 63) → highestRid journals = m := by
    intro pre j post he hmj hp
    have hmem : ∀ rids, rids ∈ pre ∨ rids = j ∨ rids ∈ post → rids ∈ journals := by
      intro rids hr
      simpa [he] using hr
    rw [highestRid_eq, he, List.map_append, List.map_cons,
      hRid_of_mem hS hm h0 (hmem j (by simp)) hmj]
    refine foldl_latest ?_ ?_
    · intro r hr
      obtain ⟨rids, hj, rfl⟩ := List.mem_map.mp hr
      rcases hRid_cases (hmem rids (by simp [hj])) with ⟨-, h⟩ | ⟨-, -, h⟩
      · exact Or.inl h
      · exact Or.inr (hm.2 _ h)
    · intro r hr
      obtain ⟨rids, hj, rfl⟩ := List.mem_map.mp hr
      rcases hRid_cases (hmem rids (by simp [hj])) with ⟨he, h⟩ | ⟨-, -, h⟩
      · rw [h, step_empty h0, if_pos (hp rids hj he)]
      · exact step_other hS hm h0 h
  rcases hk with hle | ⟨pre, j, post, he, hmj, hne⟩
  · obtain ⟨j, hj, hmj⟩ := List.mem_flatten.mp hm.1
    obtain ⟨pre, post, he⟩ := List.append_of_mem hj
    exact hfin pre j post he hmj fun _ _ _ => hle
  · exact hfin pre j post he hmj fun rids hr hnil => (hne rids hr hnil).elim

theorem exists_last_mem (h : m ∈ journals.flatten) :
    ∃ pre j post, journals = pre ++ j :: post ∧ m ∈ j ∧ ∀ rids ∈ post, m ∉ rids := by
  induction journals with
  | nil => cases h
  | cons j js ih =>
    by_cases hjs : m ∈ js.flatten
    · obtain ⟨pre, j', post, he, hj', hp⟩ := ih hjs
      exact ⟨j :: pre, j', post, by rw [he]; rfl, hj', hp⟩
    · refine ⟨[], j, js, rfl, ?_, fun rids hr hmr => hjs (List.mem_flatten_of_mem hr hmr)⟩
      simpa [hjs] using h

theorem keeps_of_highestRid (hm : IsLatest m journals.flatten) (h0 : m ≠ 0)
    (hh : highestRid journals = m) : KeepsHighest m journals := by
  by_contra hk
  obtain ⟨hgt, hno⟩ := not_or.mp hk
  obtain ⟨pre, j, post, he, hmj, hp⟩ := exists_last_mem hm.1
  have hempty : [] ∈ post := by
    by_contra hn
    exact hno ⟨pre, j, post, he, hmj, fun rids hr hnil => hn (hnil ▸ hr)⟩
  obtain ⟨a, b, hab⟩ := List.append_of_mem hempty
  -- the empty journal loses `m`, and nothing after it brings it back
  rw [highestRid_eq, he, hab] at hh
  simp only [List.map_append, List.map_cons, List.foldl_append, List.foldl_cons] at hh
  generalize List.foldl highestRidStep _ (a.map hRid) = x at hh
  have hlost : highestRidStep x (hRid []) ≠ m := by
    intro hc
    rcases step_mem x (hRid []) with hx | hx
    · have hxm : x = m := hx.symm.trans hc
      rw [hxm, show hRid [] = 0 from rfl, step_empty h0, if_neg hgt] at hc
      exact h0 hc.symm
    · exact h0 (hc.symm.trans hx)
  rcases foldl_mem (highestRidStep x (hRid [])) (b.map hRid) with hb | hb
  · exact hlost (hb.symm.trans hh)
  · rw [hh] at hb
    obtain ⟨rids, hr, hrm⟩ := List.mem_map.mp hb
    by_cases hnil : rids = []
    · rw [hnil] at hrm
      exact h0 hrm.symm
    · exact hp rids (by simp [hab, hr]) (hrm ▸ hRid_mem hnil)

/-- The ids issued after the latest rid are new for long. -/
theorem nth_not_mem (hm : IsLatest m journals.flatten) (hh : highestRid journals = m) {k : Nat}
    (hk : k < 2 ^ 62) : (messageIdSequence journals).nth k ∉ journals.flatten := by
  obtain ⟨d, hd, he⟩ := (messageIdSequence journals).nth_eq k
  have hid : (messageIdSequence journals).nth k = m + BitVec.ofNat 64 (1 + d) := by
    rw [he, messageIdSequence, IdSequence.reset, hh, BitVec.add_assoc]
    exact congrArg (m + ·) (BitVec.ofNat_add_ofNat _ _)
  rw [hid]
  exact hm.not_mem (by decide) (by omega) (by omega)

/-- Restart is safe exactly if no empty journal comes in the way. -/
theorem restartsAfter_iff (hS : InHalf journals.flatten) (h0 : ∀ r ∈ journals.flatten, r ≠ 0) :
    RestartsAfter journals ↔ ∀ m, IsLatest m journals.flatten → KeepsHighest m journals := by
  constructor
  · intro h m hm
    exact keeps_of_highestRid hm (h0 m hm.1) (h.1 m hm)
  · intro h
    have hall : ∀ m, IsLatest m journals.flatten → highestRid journals = m :=
      fun m hm => highestRid_of_keeps hS hm (h0 m hm.1) (h m hm)
    refine ⟨hall, fun k hk => ?_⟩
    by_cases hne : journals.flatten = []
    · rw [hne]
      exact List.not_mem_nil
    · obtain ⟨m, hm⟩ := hS.exists_isLatest (by decide) hne
      exact nth_not_mem hm (hall m hm) hk

theorem restartsAfter_small : RestartsAfter [[5, 7], [], [6]] := by
  have hmem : ∀ r ∈ ([[5, 7], [], [6]] : List (List Rid)).flatten, r = 5 ∨ r = 7 ∨ r = 6 := by simp
  refine (restartsAfter_iff ⟨0, fun r hr => ?_⟩ fun r hr => ?_).mpr fun m hm => Or.inl ?_
  · rcases hmem r hr with rfl | rfl | rfl <;> decide
  · rcases hmem r hr with rfl | rfl | rfl <;> decide
  · rcases hmem m hm.1 with rfl | rfl | rfl <;> decide

/-- Three journals beyond the middle of the circle, the second one empty. -/
def emptyBetween : List (List Rid) := [[0x800000000000000c], [], [0x800000000000000a]]

/-- The empty journal makes the store forget the first one, whose rid is issued again. -/
theorem emptyBetween_reissues : InHalf emptyBetween.flatten ∧ (∀ r ∈ emptyBetween.flatten, r ≠ 0) ∧
    ¬RestartsAfter emptyBetween := by
  have hmem : ∀ r ∈ emptyBetween.flatten, r = 0x800000000000000c ∨ r = 0x800000000000000a := by
    simp [emptyBetween]
  refine ⟨⟨0x8000000000000000, fun r hr => ?_⟩, fun r hr => ?_, fun h => ?_⟩
  · rcases hmem r hr with rfl | rfl <;> decide
  · rcases hmem r hr with rfl | rfl <;> decide
  · exact h.2 1 (by decide) (by decide)

end

end RhmStore
