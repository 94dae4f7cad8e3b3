import RhmStore.Log.Discard

/-! # The invariant of a journal

It holds over the whole life of a journal: files are dropped as the ring turns, and recoveries
forget transactions without recording it. -/

namespace RhmStore

namespace Journal

def stale (n : Nat) (s : Journal) : List (Xid × TxnData) :=
  (s.openOps n).filter (·.2.rid ∈ s.discarded)

def live (n : Nat) (s : Journal) : List (Xid × TxnData) :=
  (s.openOps n).filter (·.2.rid ∉ s.discarded)

/-- No record that a discarded operation of `xid` dequeues is now dequeued by another. -/
def AbortClean (n : Nat) (s : Journal) (xid : Xid) : Prop :=
  ∀ o ∈ s.stale n, o.1 = xid → o.2.enqFlag = false →
    ∀ o' ∈ s.live n, o'.1 ≠ xid → o'.2.enqFlag = false → o'.2.drid ≠ o.2.drid

/-- No prepared xid has discarded operations, and no record that a discarded operation dequeues is
now dequeued by a prepared one. -/
def RecoverClean (n : Nat) (s : Journal) (prepared : List Xid) : Prop :=
  (∀ o ∈ s.stale n, o.1 ∉ prepared) ∧
    ∀ o ∈ s.stale n, o.2.enqFlag = false →
      ∀ o' ∈ s.live n, o'.1 ∈ prepared → o'.2.enqFlag = false → o'.2.drid ≠ o.2.drid

/-- The step keeps clear of the operations that earlier recoveries discarded: it does not commit or
prepare their xids, and it gives up no lock that another transaction has taken since. -/
def Clean (n : Nat) (s : Journal) : LogAct → Prop
  | .op (.txa _ xid) _ => s.AbortClean n xid
  | .op (.txc _ xid) _ => ∀ o ∈ s.stale n, o.1 ≠ xid
  | .op _ _ => True
  | .advance => True
  | .recover prepared => s.RecoverClean n prepared

instance (n : Nat) (s : Journal) (xid : Xid) : Decidable (s.AbortClean n xid) := by
  delta AbortClean
  infer_instance

instance (n : Nat) (s : Journal) (prepared : List Xid) : Decidable (s.RecoverClean n prepared) := by
  delta RecoverClean
  infer_instance

instance (n : Nat) (s : Journal) : ∀ a, Decidable (s.Clean n a)
  | .op (.enq ..) _ => isTrue trivial
  | .op (.deq ..) _ => isTrue trivial
  | .op (.txa _ xid) _ => inferInstanceAs (Decidable (s.AbortClean n xid))
  | .op (.txc _ xid) _ => inferInstanceAs (Decidable (∀ o ∈ s.stale n, o.1 ≠ xid))
  | .advance => isTrue trivial
  | .recover prepared => inferInstanceAs (Decidable (s.RecoverClean n prepared))

def found (n : Nat) (s : Journal) : View := View.empty.applyAll (s.records n)

/-- The invariant of a journal. -/
structure Inv (n : Nat) (s : Journal) : Prop where
  shaped : s.maps.Shaped n
  counted : s.maps.Counted
  agree : View.Agree s.discarded s.maps.view (s.found n)
  locks : s.maps.view.Locks
  nodup : (rids (s.records n)).Nodup
  used : ∀ e ∈ s.log, e.jrec.rid ∈ s.used ∧
    ∀ rid drid xid c, e.jrec = .deq rid drid xid c → drid ∈ s.used
  discarded : ∀ r ∈ s.discarded, r ∈ s.used
  transient : ∀ e ∈ s.log, e.jrec.isTransient = false
  window : ∀ e ∈ s.log, e.inst ≤ s.cur ∧ s.cur < e.inst + n
  sorted : s.log.Pairwise fun a b => a.inst ≤ b.inst
  named : s.log.Pairwise fun a b =>
    ∀ rid drid xid c, a.jrec = .deq rid drid xid c → b.jrec.rid ≠ drid
  notSelf : ∀ e ∈ s.log, ∀ rid drid xid c, e.jrec = .deq rid drid xid c → drid ≠ rid

theorem init_inv (n : Nat) : (init n).Inv n := by
  refine ⟨Maps.init_shaped n, Maps.init_counted n, ?_, ?_, List.nodup_nil, ?_, ?_, ?_, ?_,
    List.Pairwise.nil, List.Pairwise.nil, ?_⟩
  · change View.Agree [] (Maps.init n).view View.empty
    rw [Maps.view_init]
    exact View.agree_empty
  · change (Maps.init n).view.Locks
    rw [Maps.view_init]
    exact View.locks_empty
  all_goals
    intro e he
    cases he

variable {n : Nat} {s s' : Journal}

theorem Inv.fromLog (h : s.Inv n) : (s.found n).FromLog (s.records n) :=
  View.fromLog_applyAll h.nodup

theorem Inv.distinct (h : s.Inv n) : s.maps.view.Distinct := by
  refine ⟨?_, ?_⟩
  · intro x y td td' hm hm' hr
    have h₁ := (h.agree.mem.mp hm).1
    have h₂ := (h.agree.mem.mp hm').1
    rw [h.fromLog.opn] at h₁ h₂
    exact (openEntries_inj h.nodup h₁ h₂ hr).1
  · intro x td hm he
    have hf := h.fromLog.fresh x td (h.agree.mem.mp hm).1 he
    exact (View.none_of_pfid (h.agree.pfid td.rid)).mpr hf

theorem rid_mem_used (h : s.Inv n) {p : Placed} (hp : p ∈ s.records n) :
    p.jrec.rid ∈ s.used ∧
      ∀ rid drid xid c, p.jrec = .deq rid drid xid c → drid ∈ s.used := by
  obtain ⟨e, he, rfl⟩ := List.mem_map.mp hp
  exact h.used e he

theorem Inv.uses (h : s.Inv n) : s.maps.view.Uses s.used := by
  refine ⟨?_, ?_⟩
  · intro r hs
    obtain ⟨d, hd⟩ := Option.isSome_iff_exists.mp hs
    obtain ⟨d', hd', -⟩ := View.some_of_pfid (h.agree.pfid r) hd
    obtain ⟨p, hp, -, x, ds, t, e, hj⟩ := h.fromLog.enq r d' hd'
    have := (rid_mem_used h hp).1
    rwa [hj] at this
  · intro x td hm
    have ho := (h.agree.mem.mp hm).1
    rw [h.fromLog.opn] at ho
    obtain ⟨p, hp, hpe⟩ := mem_openEntries ho
    have hpe' := mem_entry hpe
    refine ⟨hpe'.1 ▸ (rid_mem_used h hp).1, fun he => ?_⟩
    obtain ⟨c, hj⟩ := hpe'.2.2.2.2.2.1 he
    exact (rid_mem_used h hp).2 _ _ _ _ hj

theorem mem_stale (h : s.Inv n) {x : Xid} {td : TxnData} :
    (x, td) ∈ s.stale n ↔ td ∈ (s.found n).opn x ∧ td.rid ∈ s.discarded := by
  rw [stale, List.mem_filter, mem_openOps, h.fromLog.opn]
  simp

theorem mem_live (h : s.Inv n) {x : Xid} {td : TxnData} :
    (x, td) ∈ s.live n ↔ td ∈ s.maps.view.opn x := by
  rw [live, List.mem_filter, mem_openOps, h.agree.mem, h.fromLog.opn]
  simp

/-- A successful operation keeps the invariant. -/
theorem inv_op (h : s.Inv n) {r : JRec} {inst : Nat} (hc : s.Clean n (.op r inst))
    (hs : s.step n (.op r inst) = some s') : s'.Inv n := by
  obtain ⟨hr, ht, had, m, hp, rfl⟩ := step_op hs
  obtain ⟨-, hcm⟩ := Maps.ok_perform hp
  have hv : m.view = s.maps.view.apply (inst % n) r := Maps.view_complete _ _ hcm
  have hrec : records n { s with log := s.log ++ [⟨r, inst⟩], maps := m, used := r.rid :: s.used } =
      s.records n ++ [⟨r, inst % n⟩] := by simp [records, LogRec.placed]
  have hw : View.empty.applyAll (s.records n ++ [⟨r, inst % n⟩]) =
      (s.found n).apply (inst % n) r := View.applyAll_concat _ _ _
  have hrd : r.rid ∉ s.discarded := fun hd => hr (h.discarded _ hd)
  have hdeq : ∀ rid drid xid c, r = .deq rid drid xid c → drid ∈ s.used := by
    intro rid drid xid c he
    subst he
    exact Maps.uses_deq hp h.uses
  refine ⟨(Maps.keeps_complete _ _).of_ok h.shaped hcm, Maps.counted_complete _ _ h.counted hcm,
    ?_, Maps.locks_perform hp h.locks h.uses h.distinct hr, ?_, ?_, ?_, ?_, ?_, ?_, ?_, ?_⟩
  · simp only [found, hrec, hv, hw]
    cases r with
    | enq rid xid ds t e =>
      simp only [View.apply]
      split
      · exact h.agree.insert rid _
      · exact h.agree.push xid hrd
    | deq rid drid xid c =>
      simp only [View.apply]
      split
      · exact h.agree.remove drid
      · exact (h.agree.setLock drid).push xid hrd
    | txa rid xid =>
      refine h.agree.abort h.locks xid ?_
      rintro td hm hd he y hy ⟨td', hm', he', heq⟩
      exact hc _ ((mem_stale h).mpr ⟨hm, hd⟩) rfl he _ ((mem_live h).mpr hm') hy he' heq
    | txc rid xid =>
      refine h.agree.commit xid ?_
      intro td hm hd
      exact hc _ ((mem_stale h).mpr ⟨hm, hd⟩) rfl
  · rw [hrec, rids, List.map_append, List.nodup_append]
    refine ⟨h.nodup, List.nodup_singleton _, ?_⟩
    intro a ha b hb heq
    obtain ⟨p, hp', rfl⟩ := List.mem_map.mp ha
    rw [List.map_singleton, List.mem_singleton] at hb
    subst hb
    exact hr (heq ▸ (rid_mem_used h hp').1)
  · intro e he
    rcases List.mem_append.mp he with he | he
    · refine ⟨List.mem_cons_of_mem _ (h.used e he).1, fun rid drid xid c hj => ?_⟩
      exact List.mem_cons_of_mem _ ((h.used e he).2 rid drid xid c hj)
    · rw [List.mem_singleton] at he
      subst he
      refine ⟨List.mem_cons_self, fun rid drid xid c hj => ?_⟩
      exact List.mem_cons_of_mem _ (hdeq rid drid xid c hj)
  · intro d hd
    exact List.mem_cons_of_mem _ (h.discarded d hd)
  · intro e he
    rcases List.mem_append.mp he with he | he
    · exact h.transient e he
    · rw [List.mem_singleton] at he
      subst he
      exact ht
  · intro e he
    rcases List.mem_append.mp he with he | he
    · exact h.window e he
    · rw [List.mem_singleton] at he
      subst he
      exact ⟨had.1, had.2.1⟩
  · rw [List.pairwise_append]
    refine ⟨h.sorted, List.pairwise_singleton _ _, ?_⟩
    intro a ha b hb
    rw [List.mem_singleton] at hb
    subst hb
    exact had.2.2 a ha
  · rw [List.pairwise_append]
    refine ⟨h.named, List.pairwise_singleton _ _, ?_⟩
    intro a ha b hb rid drid xid c hj heq
    rw [List.mem_singleton] at hb
    subst hb
    exact hr (heq ▸ (h.used a ha).2 rid drid xid c hj)
  · intro e he rid drid xid c hj
    rcases List.mem_append.mp he with he | he
    · exact h.notSelf e he rid drid xid c hj
    · rw [List.mem_singleton] at he
      subst he
      intro heq
      have hd := hdeq rid drid xid c hj
      have hrr : r.rid = rid := by rw [show r = _ from hj]; rfl
      exact hr (hrr ▸ heq ▸ hd)

end Journal

end RhmStore
