import RhmStore.Ring.LfidMap

/-! # The file map over the calls of a journal -/

namespace RhmStore

namespace Lpmgr

variable {k : Nat} {ids : List Nat} {fp : NewObj} {s s' : Lpmgr}

/-! ## Recovery -/

def recoveredIds (rd : LpRcvdat) : List Nat :=
  rd.fidList ++ List.range' rd.fidList.length (rd.njf - rd.fidList.length)

/-- A list as `jinf::get_normalized_pfid_list` gives it. -/
structure Normalized (rd : LpRcvdat) : Prop where
  perm : rd.fidList.Perm (List.range rd.fidList.length)
  le : rd.fidList.length ≤ rd.njf
  first : ∀ p ∈ rd.fidList.head?, p = 0

variable {rd : LpRcvdat}

theorem length_recoveredIds (h : Normalized rd) : (recoveredIds rd).length = rd.njf := by
  have hle := h.le
  rw [recoveredIds, List.length_append, List.length_range']
  omega

theorem perm_recoveredIds (h : Normalized rd) : (recoveredIds rd).Perm (List.range rd.njf) := by
  have hsplit : List.range rd.njf = List.range rd.fidList.length ++
      List.range' rd.fidList.length (rd.njf - rd.fidList.length) := by
    rw [List.range_eq_range', List.range_eq_range']
    conv_lhs => rw [← Nat.add_sub_cancel' h.le, ← List.range'_append_1]
    rw [Nat.zero_add]
  rw [hsplit, recoveredIds]
  exact h.perm.append_right _

theorem head_recoveredIds (h : Normalized rd) : ∀ p ∈ (recoveredIds rd).head?, p = 0 := by
  intro p hp
  have hfirst := h.first
  rw [recoveredIds] at hp
  cases hl : rd.fidList with
  | nil =>
    rw [hl, List.nil_append, List.length_nil] at hp
    cases hk : rd.njf - 0 with
    | zero =>
      rw [hk] at hp
      cases hp
    | succ k =>
      rw [hk, List.range'_succ] at hp
      exact (Option.some.inj hp).symm
  | cons q l =>
    rw [hl] at hp hfirst
    exact hfirst p hp

/-- The lfid that `recover` takes for a pfid. -/
def recoveredLfid (rd : LpRcvdat) (pfid : Nat) : Nat := ((invert rd.fidList)[pfid]?).getD pfid

theorem recoveredLfid_iff (h : Normalized rd) {p i : Nat} (hp : p < rd.njf) :
    recoveredLfid rd p = i ↔ (recoveredIds rd)[i]? = some p := by
  rw [recoveredLfid, recoveredIds]
  by_cases hm : p < rd.fidList.length
  · obtain ⟨j, hj⟩ : ∃ j, (invert rd.fidList)[p]? = some j :=
      ⟨_, List.getElem?_eq_getElem (by rwa [length_invert])⟩
    have hij := (invert_iff h.perm hm).mp hj
    rw [hj, Option.getD_some]
    constructor
    · rintro rfl
      rw [List.getElem?_append_left (List.getElem?_eq_some_iff.mp hij).1]
      exact hij
    · intro hi
      by_cases hilt : i < rd.fidList.length
      · rw [List.getElem?_append_left hilt] at hi
        have hinv := (invert_iff h.perm hm).mpr hi
        rw [hj] at hinv
        exact Option.some.inj hinv
      · rw [List.getElem?_append_right (Nat.le_of_not_lt hilt)] at hi
        have hmem := List.mem_range'_1.mp (List.mem_of_getElem? hi)
        omega
  · have hnone : (invert rd.fidList)[p]? = none := by
      rw [List.getElem?_eq_none_iff, length_invert]
      omega
    rw [hnone, Option.getD_none]
    constructor
    · rintro rfl
      rw [List.getElem?_append_right (Nat.le_of_not_lt hm), List.getElem?_range' (by omega)]
      simp only [Option.some.injEq]
      omega
    · intro hi
      by_cases hilt : i < rd.fidList.length
      · rw [List.getElem?_append_left hilt] at hi
        have hlt := lt_of_perm h.perm (List.mem_of_getElem? hi)
        omega
      · have hlen := (List.getElem?_eq_some_iff.mp hi).1
        rw [List.length_append, List.length_range'] at hlen
        rw [List.getElem?_append_right (Nat.le_of_not_lt hilt), List.getElem?_range' (by omega)] at hi
        simp only [Option.some.injEq] at hi
        omega

theorem recoveredLfid_lt (h : Normalized rd) {p : Nat} (hp : p < rd.njf) :
    recoveredLfid rd p < rd.njf := by
  have hi := (recoveredLfid_iff h hp).mp rfl
  have hlt := (List.getElem?_eq_some_iff.mp hi).1
  rwa [length_recoveredIds h] at hlt

theorem recoveredLfid_inj (h : Normalized rd) {p q : Nat} (hp : p < rd.njf) (hq : q < rd.njf)
    (he : recoveredLfid rd p = recoveredLfid rd q) : p = q := by
  have hi := (recoveredLfid_iff h hp).mp he
  rw [(recoveredLfid_iff h hq).mp rfl] at hi
  exact (Option.some.inj hi).symm

theorem wp_recoverLoop (h : Normalized rd) (hlen : s.fcntlArr.length = rd.njf) {pfid : Nat}
    (hk : pfid + k ≤ rd.njf) :
    wp (recoverLoop fp (invert rd.fidList) pfid k)
      (fun _ t => t.ae = s.ae ∧ t.aeMaxJfiles = s.aeMaxJfiles ∧ t.fcntlArr.length = rd.njf ∧
        (∀ p, pfid ≤ p → p < pfid + k →
          t.fcntlArr[recoveredLfid rd p]? = some (some ⟨recoveredLfid rd p, p⟩)) ∧
        ∀ i, (∀ p, pfid ≤ p → p < pfid + k → recoveredLfid rd p ≠ i) →
          t.fcntlArr[i]? = s.fcntlArr[i]?)
      (fun _ _ => ∃ p < rd.njf, ¬fp (recoveredLfid rd p) p = true) s := by
  induction k generalizing s pfid with
  | zero =>
    rw [recoverLoop]
    refine ⟨rfl, rfl, hlen, ?_, fun i _ => rfl⟩
    intro p hp hp'
    omega
  | succ k ih =>
    rw [recoverLoop, wp_bind]
    apply wp_mono (wp_newFcntl _ _)
    · intro f t ht
      obtain ⟨-, rfl, rfl⟩ := ht
      have hlen' : (t.fcntlArr.set (recoveredLfid rd pfid)
          (some ⟨recoveredLfid rd pfid, pfid⟩)).length = rd.njf := by
        rw [List.length_set, hlen]
      have hih := ih (s := { t with
        fcntlArr := t.fcntlArr.set (recoveredLfid rd pfid) (some ⟨recoveredLfid rd pfid, pfid⟩) })
        hlen' (by omega : pfid + 1 + k ≤ rd.njf)
      rw [wp_bind, modArr, wp_modify]
      apply wp_mono hih _ fun _ _ he => he
      intro _ u hu
      obtain ⟨hae, hmax, hulen, hin, hout⟩ := hu
      refine ⟨hae, hmax, hulen, ?_, ?_⟩
      · intro p hp hp'
        by_cases he : p = pfid
        · subst he
          rw [hout, List.getElem?_set_self]
          · rw [hlen]
            exact recoveredLfid_lt h (by omega)
          · intro q hq hq' heq
            have hqp := recoveredLfid_inj h (by omega) (by omega) heq
            omega
        · exact hin p (by omega) (by omega)
      · intro i hi
        rw [hout i fun p hp hp' => hi p (by omega) (by omega)]
        exact List.getElem?_set_ne (hi pfid (Nat.le_refl _) (by omega))
    · intro e t ht
      exact ⟨pfid, by omega, ht.1⟩

theorem wp_recover (h : Normalized rd) :
    wp (recover rd fp)
      (fun _ t => t.ae = rd.ae ∧ t.aeMaxJfiles = rd.aemjf ∧ t.fcntlArr = slots (recoveredIds rd))
      (fun _ _ => 0 < rd.aemjf ∧ rd.aemjf ≤ rd.njf ∨ ∃ p < rd.njf, ¬fp (recoveredLfid rd p) p = true)
      s := by
  rw [recover, wp_bind, finalize, wp_set]
  by_cases hlim : 0 < rd.aemjf ∧ rd.aemjf ≤ rd.njf
  · rw [if_pos hlim]
    exact .inl hlim
  · rw [if_neg hlim, wp_bind, wp_set]
    apply wp_mono (wp_recoverLoop h (List.length_replicate) (by omega)) _ fun _ _ he => .inr he
    intro _ t ht
    obtain ⟨hae, hmax, htlen, hin, -⟩ := ht
    refine ⟨hae, hmax, ?_⟩
    apply List.ext_getElem?
    intro i
    rw [getElem?_slots]
    cases hi : (recoveredIds rd)[i]? with
    | none =>
      rw [List.getElem?_eq_none_iff, length_recoveredIds h] at hi
      rw [Option.map_none, List.getElem?_eq_none_iff, htlen]
      exact hi
    | some p =>
      have hp : p < rd.njf := by
        have hlt := lt_of_perm (length_recoveredIds h ▸ perm_recoveredIds h) (List.mem_of_getElem? hi)
        rwa [length_recoveredIds h] at hlt
      have hpi := (recoveredLfid_iff h hp).mpr hi
      have hslot := hin p (Nat.zero_le p) (by omega)
      rw [hpi] at hslot
      exact hslot

/-! ## Consistency -/

/-- Slot `i` holds the file with lfid `i`, the pfids are those of `n` files with pfid 0 in front,
`get_lfid_list` is the inverse of `get_pfid_list`, and a recovery that accepts the list builds the map
again. -/
structure Consistent (s : Lpmgr) : Prop where
  lfid : ∀ i < s.numJfiles, ∃ p, s.fcntlArr[i]? = some (some ⟨i, p⟩)
  perm : s.getPfidList.Perm (List.range s.numJfiles)
  first : ∀ p ∈ s.getPfidList.head?, p = 0
  inverse : ∀ i p : Nat, s.getLfidList[p]? = some i ↔ s.getPfidList[i]? = some p
  rebuilt : ∀ (rd : LpRcvdat) (fp : NewObj) (t u : Lpmgr), rd.njf = s.numJfiles →
    rd.fidList = s.getPfidList → recover rd fp t = .ok () u → u.fcntlArr = s.fcntlArr
  accepted : ∀ (rd : LpRcvdat) (fp : NewObj) (t : Lpmgr), rd.njf = s.numJfiles →
    rd.fidList = s.getPfidList → rd.aemjf = 0 ∨ s.numJfiles < rd.aemjf →
    (∀ lfid pfid, fp lfid pfid = true) → ∃ u, recover rd fp t = .ok () u

structure Slotted (s : Lpmgr) (ids : List Nat) : Prop where
  arr : s.fcntlArr = slots ids
  perm : ids.Perm (List.range ids.length)
  first : ∀ p ∈ ids.head?, p = 0

theorem Slotted.normalized (h : s.Slotted ids) (hn : rd.njf = s.numJfiles)
    (hl : rd.fidList = s.getPfidList) : Normalized rd ∧ recoveredIds rd = ids := by
  rw [getPfidList_eq h.arr] at hl
  rw [numJfiles_eq h.arr] at hn
  refine ⟨⟨?_, ?_, ?_⟩, ?_⟩
  · rw [hl]
    exact h.perm
  · rw [hl, hn]
  · rw [hl]
    exact h.first
  · rw [recoveredIds, hl, hn, Nat.sub_self, List.range'_zero, List.append_nil]

theorem Slotted.consistent (h : s.Slotted ids) : s.Consistent where
  lfid := by
    intro i hi
    rw [numJfiles_eq h.arr] at hi
    rw [h.arr, getElem?_slots, List.getElem?_eq_getElem hi]
    exact ⟨_, rfl⟩
  perm := by
    rw [getPfidList_eq h.arr, numJfiles_eq h.arr]
    exact h.perm
  first := by
    rw [getPfidList_eq h.arr]
    exact h.first
  inverse := by
    intro i p
    rw [getLfidList, getPfidList_eq h.arr]
    by_cases hp : p < ids.length
    · exact invert_iff h.perm hp
    · constructor
      · intro hi
        have hlt := (List.getElem?_eq_some_iff.mp hi).1
        rw [length_invert] at hlt
        exact (hp hlt).elim
      · intro hi
        exact (hp (lt_of_perm h.perm (List.mem_of_getElem? hi))).elim
  rebuilt := by
    intro rd fp t u hn hl hu
    obtain ⟨hnorm, hids⟩ := h.normalized hn hl
    rw [(wp_of_ok (wp_recover hnorm) hu).2.2, hids, h.arr]
  accepted := by
    intro rd fp t hn hl hlim hfp
    obtain ⟨hnorm, -⟩ := h.normalized hn hl
    have hok : wp (recover rd fp) (fun _ _ => True) (fun _ _ => False) t := by
      apply wp_mono (wp_recover hnorm) (fun _ _ _ => trivial)
      intro _ u he
      rcases he with hbad | ⟨p, -, hp⟩
      · omega
      · exact hp (hfp _ _)
    obtain ⟨⟨⟩, u, hu⟩ := ok_of_wp hok
    exact ⟨u, hu⟩

theorem Slotted.insert (h : s.Slotted ids) {a k : Nat} (ha : a < ids.length) :
    ({ s with fcntlArr := slots (insertIds a k ids) } : Lpmgr).Slotted (insertIds a k ids) where
  arr := rfl
  perm := by
    -- the new pfids go in between
    have hsplit : (insertIds a k ids).Perm (ids ++ List.range' ids.length k) := by
      rw [insertIds, List.append_assoc]
      conv_rhs => rw [← List.take_append_drop (a + 1) ids, List.append_assoc, List.take_append_drop]
      exact (List.perm_append_comm).append_left _
    have hrange : List.range (ids.length + k) = List.range ids.length ++ List.range' ids.length k := by
      rw [List.range_eq_range', List.range_eq_range', ← List.range'_append_1, Nat.zero_add]
    rw [hsplit.length_eq, List.length_append, List.length_range', hrange]
    exact hsplit.trans (h.perm.append_right _)
  first := by
    have hfirst := h.first
    cases ids with
    | nil => cases ha
    | cons p ids => exact hfirst

/-! ## Runs -/

inductive Call
  | insert (afterLfid : Nat) (fp : NewObj) (numJfiles : Nat)
  | setAe (ae : Bool)
  | setAeMaxJfiles (n : Nat)

def Call.prog : Call → LpM Unit
  | .insert a fp k => Lpmgr.insert a fp k
  | .setAe ae => Lpmgr.setAe ae
  | .setAeMaxJfiles n => Lpmgr.setAeMaxJfiles n

structure Used where
  lp : Lpmgr
  limit : Option Nat

def Used.after (t : Used) (c : Call) : Used :=
  match c.prog t.lp, c with
  | .ok _ s, .insert _ _ _ => ⟨s, some t.lp.effAeMaxJfiles⟩
  | .ok _ s, _ => ⟨s, t.limit⟩
  | .error _ s, _ => ⟨s, t.limit⟩

/-- A call that throws changes nothing, and an insert puts the new files in a row behind its lfid. -/
structure Takes (s : Lpmgr) (c : Call) : Prop where
  throws : ∀ e t, c.prog s = .error e t → t = s
  inserts : ∀ a fp k t, c = .insert a fp k → c.prog s = .ok () t →
    t.getPfidList = insertIds a k s.getPfidList

/-- The map is consistent, and not larger than the limit in force at the last insert. -/
structure Used.Right (t : Used) : Prop where
  consistent : t.lp.Consistent
  limited : ∀ n ∈ t.limit, t.lp.numJfiles ≤ n

/-- In all states that calls come to, and in all calls, the map is as it should be. -/
def Used.RightAlong (t : Used) : List Call → Prop
  | [] => t.Right
  | c :: calls => t.Right ∧ t.lp.Takes c ∧ (t.after c).RightAlong calls

def Creates (s : Lpmgr) : Call → Prop
  | .insert a fp k => s.Completes a fp k
  | _ => True

def Used.CreatesAlong (t : Used) : List Call → Prop
  | [] => True
  | c :: calls => t.lp.Creates c ∧ (t.after c).CreatesAlong calls

inductive Start : Lpmgr → Prop
  | init {s t : Lpmgr} {n : Nat} {ae : Bool} {m : Nat} {fp : NewObj} (h : init n ae m fp s = .ok () t) :
    Start t
  | recover {s t : Lpmgr} {rd : LpRcvdat} {fp : NewObj} (hr : Normalized rd)
    (h : recover rd fp s = .ok () t) : Start t

theorem Start.slotted (h : Start s) : ∃ ids, s.Slotted ids := by
  cases h with
  | init h =>
    rename_i t n ae m fp
    have ht := wp_of_ok wp_init h
    refine ⟨List.range n, by rw [ht.1], ?_, ?_⟩
    · rw [List.length_range]
    · intro p hp
      cases n with
      | zero => cases hp
      | succ n =>
        rw [List.range_succ_eq_map] at hp
        exact (Option.some.inj hp).symm
  | recover hr h =>
    have ht := wp_of_ok (wp_recover hr) h
    refine ⟨recoveredIds _, ht.2.2, ?_, head_recoveredIds hr⟩
    rw [length_recoveredIds hr]
    exact perm_recoveredIds hr

theorem takes_of_slotted (h : s.Slotted ids) {c : Call} (hc : s.Creates c) : s.Takes c where
  throws := by
    intro e t he
    cases c with
    | insert a fp k =>
      have ht := wp_of_error (wp_insert h.arr hc) he
      exact ht
    | setAe ae =>
      have ht := wp_of_error (wp_setAe ae) he
      exact ht
    | setAeMaxJfiles n =>
      have ht := wp_of_error (wp_setAeMaxJfiles n) he
      exact ht
  inserts := by
    rintro a fp k t rfl ht
    obtain ⟨-, -, rfl⟩ := wp_of_ok (wp_insert h.arr hc) ht
    rw [getPfidList_eq h.arr]
    exact getPfidList_eq rfl

/-- Each call keeps the map and its limit. -/
theorem Slotted.after {t : Used} (h : t.lp.Slotted ids) (hl : ∀ n ∈ t.limit, ids.length ≤ n)
    {c : Call} (hc : t.lp.Creates c) :
    ∃ ids', (t.after c).lp.Slotted ids' ∧ ∀ n ∈ (t.after c).limit, ids'.length ≤ n := by
  cases hr : c.prog t.lp with
  | error e s =>
    have hs := (takes_of_slotted h hc).throws e s hr
    simp only [Used.after, hr, hs]
    exact ⟨ids, h, hl⟩
  | ok _ s =>
    cases c with
    | insert a fp k =>
      simp only [Used.after, hr]
      obtain ⟨ha, hlim, rfl⟩ := wp_of_ok (wp_insert h.arr hc) hr
      refine ⟨insertIds a k ids, h.insert ha, ?_⟩
      rintro n ⟨⟩
      have hlen : (insertIds a k ids).length = ids.length + k := by
        rw [insertIds, List.length_append, List.length_append, List.length_take, List.length_drop,
          List.length_range']
        omega
      rw [hlen]
      exact hlim
    | setAe ae =>
      simp only [Used.after, hr]
      have hs := wp_of_ok (wp_setAe ae) hr
      rw [hs]
      exact ⟨ids, ⟨h.arr, h.perm, h.first⟩, hl⟩
    | setAeMaxJfiles n =>
      simp only [Used.after, hr]
      have hs := wp_of_ok (wp_setAeMaxJfiles n) hr
      rw [hs]
      exact ⟨ids, ⟨h.arr, h.perm, h.first⟩, hl⟩

theorem Slotted.right {t : Used} (h : t.lp.Slotted ids) (hl : ∀ n ∈ t.limit, ids.length ≤ n) :
    t.Right := by
  refine ⟨h.consistent, ?_⟩
  rw [numJfiles_eq h.arr]
  exact hl

theorem Slotted.rightAlong {t : Used} (h : t.lp.Slotted ids) (hl : ∀ n ∈ t.limit, ids.length ≤ n)
    {calls : List Call} (hc : t.CreatesAlong calls) : t.RightAlong calls := by
  induction calls generalizing t ids with
  | nil => exact h.right hl
  | cons c calls ih =>
    obtain ⟨ids', h', hl'⟩ := h.after hl hc.1
    exact ⟨h.right hl, takes_of_slotted h hc.1, ih h' hl' hc.2⟩

/-- Calls in which no insert stops between its files keep the map as it should be. -/
theorem start_rightAlong (h : Start s) {calls : List Call} (hc : Used.CreatesAlong ⟨s, none⟩ calls) :
    Used.RightAlong ⟨s, none⟩ calls := by
  obtain ⟨ids, hs⟩ := h.slotted
  apply hs.rightAlong _ hc
  rintro n ⟨⟩

/-- Four files. -/
def fourSlots : Lpmgr := ⟨true, 0, slots [0, 1, 2, 3]⟩

theorem fourSlots_start : Start fourSlots :=
  .init (show init 4 true 0 (fun _ _ => true) empty = .ok () fourSlots from rfl)

/-- Two files are inserted in the middle, and then, with another limit, two too many. -/
theorem fourSlots_rightAlong : Used.RightAlong ⟨fourSlots, none⟩
    [.insert 1 (fun _ _ => true) 2, .setAeMaxJfiles 7, .insert 2 (fun _ _ => true) 2] := by
  apply start_rightAlong fourSlots_start
  refine ⟨⟨fun _ _ _ => rfl, ?_⟩, trivial, ⟨fun _ _ _ => rfl, ?_⟩, trivial⟩
  · rintro ⟨⟩
  · rintro ⟨⟩

/-- The second of two new files cannot be opened. -/
theorem fourSlots_not_rightAlong : ¬ ∀ (s : Lpmgr) (calls : List Call), Start s →
    Used.RightAlong ⟨s, none⟩ calls := by
  intro hall
  obtain ⟨-, htakes, -⟩ := hall fourSlots [.insert 1 (fun _ pfid => pfid != 5) 2] fourSlots_start
  have hthrow := htakes.throws .newObj _ rfl
  have hlen := congrArg numJfiles hthrow
  revert hlen
  decide

end Lpmgr

end RhmStore
