import RhmStore.Log.Agree

/-! # Discarding the transactions that were not prepared -/

namespace RhmStore

namespace View

def abort (v : View) (xid : Xid) : View := (v.opn xid).foldl abortEntry (v.close xid)

/-- `v'` is `v` with the transactions in `p` aborted. -/
structure Discards (p : Xid → Prop) (v v' : View) : Prop where
  gone : ∀ x, p x → v'.opn x = []
  kept : ∀ x, ¬p x → v'.opn x = v.opn x
  unlocked : ∀ r, (∃ x, p x ∧ Dequeues (v.opn x) r) →
    v'.enq r = (v.enq r).map fun d => { d with lock := false }
  same : ∀ r, (¬∃ x, p x ∧ Dequeues (v.opn x) r) → v'.enq r = v.enq r

theorem discards_refl (v : View) : Discards (fun _ => False) v v :=
  ⟨fun _ h => h.elim, fun _ _ => rfl, fun _ ⟨_, h, _⟩ => h.elim, fun _ _ => rfl⟩

/-- One more transaction is aborted. -/
theorem Discards.abort {p : Xid → Prop} {v v' : View} (h : Discards p v v') (xid : Xid) :
    Discards (fun x => p x ∨ x = xid) v (v'.abort xid) := by
  have hop : (v'.abort xid).opn = (v'.close xid).opn := opn_foldl opn_abortEntry _ _
  have henq := fun r => enq_foldl_abort (v'.opn xid) (v'.close xid) r
  have hdq : ∀ r, Dequeues (v'.opn xid) r → Dequeues (v.opn xid) r := by
    intro r hd
    by_cases hp : p xid
    · rw [h.gone xid hp] at hd
      obtain ⟨td, hm, -⟩ := hd
      cases hm
    · rwa [h.kept xid hp] at hd
  refine ⟨?_, ?_, ?_, ?_⟩
  · intro x hx
    rw [hop]
    by_cases he : x = xid
    · subst he; simp [close]
    · simp only [close, Function.update_of_ne he]
      exact h.gone x (hx.resolve_right he)
  · intro x hx
    rw [hop]
    have he : x ≠ xid := fun he => hx (Or.inr he)
    simp only [close, Function.update_of_ne he]
    exact h.kept x fun hp => hx (Or.inl hp)
  · rintro r ⟨x, hx, hd⟩
    have hunl : (v'.enq r).map (fun d => { d with lock := false }) =
        (v.enq r).map fun d => { d with lock := false } := by
      by_cases hD : ∃ x, p x ∧ Dequeues (v.opn x) r
      · rw [h.unlocked r hD, Option.map_map]
        rfl
      · rw [h.same r hD]
    by_cases hnew : Dequeues (v'.opn xid) r
    · exact ((henq r).1 hnew).trans hunl
    · refine ((henq r).2 hnew).trans ?_
      by_cases hp : p x
      · exact h.unlocked r ⟨x, hp, hd⟩
      · have he := hx.resolve_left hp
        subst he
        rw [h.kept x hp] at hnew
        exact (hnew hd).elim
  · intro r hr
    have hD : ¬∃ x, p x ∧ Dequeues (v.opn x) r := by
      rintro ⟨x, hp, hd⟩
      exact hr ⟨x, Or.inl hp, hd⟩
    have hnew : ¬Dequeues (v'.opn xid) r := fun hd => hr ⟨xid, Or.inr rfl, hdq r hd⟩
    exact ((henq r).2 hnew).trans (h.same r hD)

theorem Discards.congr {p q : Xid → Prop} {v v' : View} (h : Discards p v v')
    (hpq : ∀ x, p x → q x) (hqp : ∀ x, q x → p x ∨ v.opn x = []) : Discards q v v' := by
  have hiff : ∀ r, (∃ x, q x ∧ Dequeues (v.opn x) r) ↔ ∃ x, p x ∧ Dequeues (v.opn x) r := by
    intro r
    constructor
    · rintro ⟨x, hx, hd⟩
      rcases hqp x hx with hp | hn
      · exact ⟨x, hp, hd⟩
      · rw [hn] at hd
        obtain ⟨td, hm, -⟩ := hd
        cases hm
    · rintro ⟨x, hx, hd⟩
      exact ⟨x, hpq x hx, hd⟩
  refine ⟨?_, ?_, ?_, ?_⟩
  · intro x hx
    by_cases hp : p x
    · exact h.gone x hp
    · rw [h.kept x hp]
      exact (hqp x hx).resolve_left hp
  · intro x hx
    exact h.kept x fun hp => hx (hpq x hp)
  · intro r hr
    exact h.unlocked r ((hiff r).mp hr)
  · intro r hr
    exact h.same r fun hp => hr ((hiff r).mpr hp)

theorem Discards.pfid {p : Xid → Prop} {v v' : View} (h : Discards p v v') (r : Nat) :
    (v'.enq r).map EmapData.pfid = (v.enq r).map EmapData.pfid := by
  by_cases hD : ∃ x, p x ∧ Dequeues (v.opn x) r
  · rw [h.unlocked r hD, Option.map_map]
    rfl
  · rw [h.same r hD]

theorem Discards.held {p : Xid → Prop} {v v' : View} (h : Discards p v v') (hv : v.Held) : v'.Held := by
  intro r d hd hl
  by_cases hD : ∃ x, p x ∧ Dequeues (v.opn x) r
  · rw [h.unlocked r hD] at hd
    obtain ⟨d', -, rfl⟩ := Option.map_eq_some_iff.mp hd
    cases hl
  · rw [h.same r hD] at hd
    obtain ⟨x, hx⟩ := hv r d hd hl
    refine ⟨x, ?_⟩
    rwa [h.kept x fun hp => hD ⟨x, hp, hx⟩]

end View

namespace Maps

variable {m m' : Maps}

theorem discardEntry_eq (td : TxnData) : discardEntry td = rcvrAbortEntry td := by
  funext m
  unfold discardEntry rcvrAbortEntry
  cases td.enqFlag with
  | true => rfl
  | false =>
    simp only [Bool.false_eq_true, if_false]
    change (if m.emap.isEnqueued td.drid true then _ else _ : MapsM Unit) m = _
    cases hr : m.emap.map[td.drid]? with
    | none =>
      have he : m.emap.isEnqueued td.drid true = false := by simp [EnqMap.isEnqueued, hr]
      have hu : m.emap.unlock td.drid = .error .ridNotFound := by simp [EnqMap.unlock, hr]
      rw [he, if_neg (by simp)]
      change EStateM.Result.ok () m = EStateM.Result.ok () _
      simp [hu, Except.toOption]
    | some d =>
      have he : m.emap.isEnqueued td.drid true = true := by simp [EnqMap.isEnqueued, hr]
      have hu : m.emap.unlock td.drid = .ok (m.emap.setLock td.drid false) := by
        simp [EnqMap.unlock, hr]
      rw [he, if_pos rfl, hu]
      change EStateM.Result.ok () _ = EStateM.Result.ok () _
      simp [hu, Except.toOption]

theorem keeps_discardEntry {n : Nat} (td : TxnData) : Keeps (Shaped n) (discardEntry td) := by
  rw [discardEntry_eq]
  exact Keeps.ite _ (keeps_decrEnqCntList _) (keeps_unlock _)

/-- The body of the loop of `discard`. -/
def discardXid (prepared : List Xid) (xid : Xid) : MapsM Unit :=
  if xid ∈ prepared then pure ()
  else do
    let tdl ← getRemoveTdataList xid
    tdl.forM discardEntry

private theorem discardXid_spec (prepared : List Xid) (xid : Xid) (m : Maps) :
    ∃ m', discardXid prepared xid m = .ok () m' ∧
      m'.view = (if xid ∈ prepared then m.view else m.view.abort xid) ∧
      (m.Counted → m'.Counted) := by
  unfold discardXid
  split
  · exact ⟨m, rfl, rfl, id⟩
  · obtain ⟨tdl, m₁, h₁⟩ := getRemoveTdataList_isOk m xid
    obtain ⟨m₂, h₂⟩ := rcvrAbort_isOk tdl m₁
    have hfun : discardEntry = rcvrAbortEntry := funext discardEntry_eq
    rw [hfun]
    refine ⟨m₂, ok_bind.mpr ⟨tdl, m₁, h₁, h₂⟩, ?_, fun hc => ?_⟩
    · rw [view_forM (fun td _ _ => view_rcvrAbortEntry td) tdl h₂]
      obtain ⟨rfl, hv, -⟩ := ok_getRemoveTdataList xid h₁
      rw [hv]
      rfl
    · exact counted_forM (fun td _ _ _ => countedWith_rcvrAbortEntry td)
        (countedWith_getRemoveTdataList xid hc h₁) h₂

private theorem discardList_spec (prepared : List Xid) (xids : List Xid) (m₀ m : Maps)
    {p : Xid → Prop} (h : View.Discards p m₀.view m.view) :
    ∃ m', xids.forM (discardXid prepared) m = .ok () m' ∧
      View.Discards (fun x => p x ∨ x ∈ xids ∧ x ∉ prepared) m₀.view m'.view ∧
      (m.Counted → m'.Counted) ∧ (m.view.Locks → m'.view.Locks) := by
  induction xids generalizing m p with
  | nil =>
    refine ⟨m, rfl, ?_, id, id⟩
    exact h.congr (fun x hx => Or.inl hx) (fun x hx => Or.inl (hx.resolve_right (by simp)))
  | cons xid xids ih =>
    obtain ⟨m₁, h₁, hv, hc⟩ := discardXid_spec prepared xid m
    by_cases hx : xid ∈ prepared
    · rw [if_pos hx] at hv
      obtain ⟨m₂, h₂, hd, hc₂, hl₂⟩ := ih m₁ (hv ▸ h)
      refine ⟨m₂, ok_bind.mpr ⟨(), m₁, h₁, h₂⟩, ?_, fun hh => hc₂ (hc hh),
        fun hh => hl₂ (hv ▸ hh)⟩
      refine hd.congr ?_ ?_
      · rintro x (hp | ⟨hm, hn⟩)
        · exact Or.inl hp
        · exact Or.inr ⟨by simp [hm], hn⟩
      · rintro x (hp | ⟨hm, hn⟩)
        · exact Or.inl (Or.inl hp)
        · rcases List.mem_cons.mp hm with rfl | hm
          · exact (hn hx).elim
          · exact Or.inl (Or.inr ⟨hm, hn⟩)
    · rw [if_neg hx] at hv
      obtain ⟨m₂, h₂, hd, hc₂, hl₂⟩ := ih m₁ (hv ▸ h.abort xid)
      refine ⟨m₂, ok_bind.mpr ⟨(), m₁, h₁, h₂⟩, ?_, fun hh => hc₂ (hc hh),
        fun hh => hl₂ (hv ▸ View.locks_abort hh xid)⟩
      refine hd.congr ?_ ?_
      · rintro x ((hp | rfl) | ⟨hm, hn⟩)
        · exact Or.inl hp
        · exact Or.inr ⟨by simp, hx⟩
        · exact Or.inr ⟨by simp [hm], hn⟩
      · rintro x (hp | ⟨hm, hn⟩)
        · exact Or.inl (Or.inl (Or.inl hp))
        · rcases List.mem_cons.mp hm with rfl | hm
          · exact Or.inl (Or.inl (Or.inr rfl))
          · exact Or.inl (Or.inr ⟨hm, hn⟩)

/-- The discard loop does not throw and aborts in memory what is not prepared. -/
theorem discard_spec (prepared : List Xid) (m : Maps) {n : Nat} (hs : m.Shaped n) :
    ∃ m', discard prepared m = .ok () m' ∧
      View.Discards (· ∉ prepared) m.view m'.view ∧ m'.Shaped n ∧
      (m.Counted → m'.Counted) ∧ (m.view.Locks → m'.view.Locks) := by
  obtain ⟨m', hm', hd, hc, hl⟩ := discardList_spec prepared m.tmap.xidList m m
    (View.discards_refl m.view)
  have hk : Keeps (Shaped n) (discard prepared) := by
    refine Keeps.get_bind fun k hk => ?_
    refine Keeps.forM _ (fun xid => ?_) k hk
    exact Keeps.ite _ (Keeps.pure _)
      ((keeps_getRemoveTdataList xid).bind fun tdl => Keeps.forM tdl keeps_discardEntry)
  have hok : discard prepared m = .ok () m' := hm'
  refine ⟨m', hok, ?_, hk.of_ok hs hok, hc, hl⟩
  refine hd.congr ?_ ?_
  · rintro x (hf | ⟨-, hn⟩)
    · exact hf.elim
    · exact hn
  · intro x hn
    by_cases hx : x ∈ m.tmap.xidList
    · exact Or.inl (Or.inr ⟨hx, hn⟩)
    · right
      rw [TxnMap.xidList, Std.ExtTreeMap.mem_keys, ← Std.ExtTreeMap.isSome_getElem?_iff_mem] at hx
      have hno : m.tmap.map[x]? = none := by simpa using hx
      simp [view, TxnMap.getTdataList, hno]

end Maps

end RhmStore
