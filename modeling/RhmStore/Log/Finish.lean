import RhmStore.Log.Moves
import RhmStore.Log.Locked

/-! # Every open transaction can be finished -/

namespace RhmStore

namespace View

/-- Each open transaction can be committed as it stands. -/
structure Finishable (used : List Nat) (v : View) : Prop where
  locks : v.Locks
  uses : v.Uses used
  distinct : v.Distinct
  anon : v.opn [] = []
  fits : ∀ x r, Fits (v.enq r).isSome (moves r (v.opn x))

theorem finishable_empty (used : List Nat) : empty.Finishable used where
  locks := locks_empty
  uses := by
    constructor
    · intro r h
      cases h
    · intro x td h
      cases h
  distinct := by
    constructor
    · intro x y td td' h
      cases h
    · intro x td h
      cases h
  anon := rfl
  fits x r := fits_nil _

variable {used : List Nat} {v w : View}

theorem Finishable.no_true (h : v.Finishable used) {x : Xid} {r : Nat} (hr : (v.enq r).isSome) :
    true ∉ moves r (v.opn x) := by
  intro ht
  obtain ⟨td, hm, he, rfl⟩ := true_mem_moves.mp ht
  rw [h.distinct.fresh x td hm he] at hr
  cases hr

theorem Finishable.moves_free (h : v.Finishable used) {r : Nat} {d : EmapData}
    (hd : v.enq r = some d) (hl : d.lock = false) (x : Xid) : moves r (v.opn x) = [] := by
  have hs : (v.enq r).isSome := by rw [hd]; rfl
  apply moves_eq_nil
  · exact fun ht => h.no_true hs (true_mem_moves.mpr ht)
  · intro hdq
    obtain ⟨td, hm, he, rfl⟩ := hdq
    have := h.locks.holder x td d hm he hd
    rw [hl] at this
    cases this

theorem Finishable.moves_fresh (h : v.Finishable used) {r : Nat} (hr : r ∉ used) (x : Xid) :
    moves r (v.opn x) = [] := by
  apply moves_eq_nil
  · intro ht
    obtain ⟨td, hm, -, rfl⟩ := ht
    exact hr (h.uses.opn x td hm).1
  · intro hd
    obtain ⟨td, hm, he, rfl⟩ := hd
    exact hr ((h.uses.opn x td hm).2 he)

theorem Finishable.enq_fresh (h : v.Finishable used) {r : Nat} (hr : r ∉ used) : v.enq r = none := by
  cases hd : v.enq r with
  | none => rfl
  | some d => exact (hr (h.uses.enq r (by rw [hd]; rfl))).elim

theorem Finishable.apart (h : v.Finishable used) {x y : Xid} (hxy : x ≠ y) {r : Nat}
    (hx : moves r (v.opn x) ≠ []) : moves r (v.opn y) = [] := by
  by_contra hy
  have hnot : ∀ z, moves r (v.opn z) ≠ [] → (!(v.enq r).isSome) ∈ moves r (v.opn z) :=
    fun z hz => by_contra fun hn => hz ((h.fits z r).eq_nil hn)
  have hmx := hnot x hx
  have hmy := hnot y hy
  cases hs : (v.enq r).isSome with
  | true =>
    rw [hs] at hmx hmy
    obtain ⟨td, hm, he, rfl⟩ := false_mem_moves.mp hmx
    obtain ⟨td', hm', he', hr⟩ := false_mem_moves.mp hmy
    exact hxy (h.locks.unique x y td td' hm hm' he he' hr.symm hs).1
  | false =>
    rw [hs] at hmx hmy
    obtain ⟨td, hm, he, rfl⟩ := true_mem_moves.mp hmx
    obtain ⟨td', hm', he', hr⟩ := true_mem_moves.mp hmy
    exact hxy (h.distinct.inj x y td td' hm hm' hr.symm)

/-- A recovery gives up transactions, and no record. -/
theorem Finishable.discards {p : Xid → Prop} (h : v.Finishable used) (hd : Discards p v w)
    (hl : w.Locks) : w.Finishable used := by
  have hsome : ∀ r, (w.enq r).isSome = (v.enq r).isSome := by
    intro r
    by_cases hD : ∃ x, p x ∧ Dequeues (v.opn x) r
    · rw [hd.unlocked r hD, Option.isSome_map]
    · rw [hd.same r hD]
  have hopn : ∀ x, w.opn x = [] ∨ w.opn x = v.opn x := by
    intro x
    by_cases hp : p x
    · exact Or.inl (hd.gone x hp)
    · exact Or.inr (hd.kept x hp)
  have hmem : ∀ {x td}, td ∈ w.opn x → td ∈ v.opn x := by
    intro x td hm
    rcases hopn x with hx | hx
    · rw [hx] at hm
      cases hm
    · rwa [hx] at hm
  refine ⟨hl, ⟨?_, ?_⟩, ⟨?_, ?_⟩, ?_, ?_⟩
  · intro r hr
    rw [hsome] at hr
    exact h.uses.enq r hr
  · exact fun x td hm => h.uses.opn x td (hmem hm)
  · exact fun x y td td' hm hm' => h.distinct.inj x y td td' (hmem hm) (hmem hm')
  · intro x td hm he
    have hn := h.distinct.fresh x td (hmem hm) he
    have hs := hsome td.rid
    rw [hn] at hs
    simpa using hs
  · rcases hopn [] with hx | hx
    · exact hx
    · rw [hx]
      exact h.anon
  · intro x r
    rw [hsome]
    rcases hopn x with hx | hx
    · rw [hx]
      exact fits_nil _
    · rw [hx]
      exact h.fits x r

theorem fits_push {v : View} {xid : Xid} {td : TxnData}
    (h : ∀ x r, Fits (v.enq r).isSome (moves r (v.opn x)))
    (ht : ∀ r, move r td ≠ [] → Fits (v.enq r).isSome (moves r (v.opn xid) ++ move r td)) (x : Xid)
    (r : Nat) : Fits ((v.push xid td).enq r).isSome (moves r ((v.push xid td).opn x)) := by
  change Fits (v.enq r).isSome _
  by_cases hx : x = xid
  · subst hx
    simp only [push, Function.update_self, moves_concat]
    by_cases hm : move r td = []
    · rw [hm, List.append_nil]
      exact h x r
    · exact ht r hm
  · simp only [push, Function.update_of_ne hx]
    exact h x r

theorem isSome_setLock (v : View) (rid : Nat) (b : Bool) (r : Nat) :
    ((v.setLock rid b).enq r).isSome = (v.enq r).isSome := by
  by_cases hr : r = rid
  · subst hr
    simp [setLock]
  · simp [setLock, hr]

theorem fits_close {v w : View} {xid : Xid} (h : ∀ x r, Fits (v.enq r).isSome (moves r (v.opn x)))
    (ho : w.opn = (v.close xid).opn)
    (he : ∀ x r, x ≠ xid → moves r (v.opn x) ≠ [] → (w.enq r).isSome = (v.enq r).isSome) (x : Xid)
    (r : Nat) : Fits (w.enq r).isSome (moves r (w.opn x)) := by
  rw [ho]
  by_cases hx : x = xid
  · subst hx
    simp only [close, Function.update_self]
    exact fits_nil _
  · simp only [close, Function.update_of_ne hx]
    by_cases hm : moves r (v.opn x) = []
    · rw [hm]
      exact fits_nil _
    · rw [he x r hx hm]
      exact h x r

theorem commitEffect_of_nil {tdl : List TxnData} {r : Nat} (h : moves r tdl = []) :
    commitEffect tdl r = none := by
  apply (commitEffect_of_last tdl r).1
  rw [h]
  rfl

end View

namespace Maps

variable {n fid : Nat} {m m' : Maps} {r : JRec} {used : List Nat}

def Fit (m : Maps) : JRec → Prop
  | .deq _ drid xid _ => xid ≠ [] → m.emap.map[drid]? = none →
    (∃ td ∈ m.tmap.getTdataList xid, td.enqFlag = true ∧ td.rid = drid) ∧ ¬m.HasDeq xid drid
  | _ => True

theorem uses_perform (h : perform fid r m = .ok () m') (hu : m.view.Uses used) :
    m'.view.Uses (r.rid :: used) := by
  obtain ⟨-, hc⟩ := ok_perform h
  rw [view_complete fid r hc]
  constructor
  · intro a hs
    obtain ⟨d, hd⟩ := Option.isSome_iff_exists.mp hs
    rcases View.enq_apply (p := ⟨r, fid⟩) hd with ⟨d', hv, -⟩ | ⟨-, ds, t, e, hj⟩ | ⟨x, td, -, hm, -, rfl, -⟩
    · exact List.mem_cons_of_mem _ (hu.enq a (by rw [hv]; rfl))
    · obtain rfl : r = .enq a [] ds t e := hj
      exact List.mem_cons_self
    · exact List.mem_cons_of_mem _ (hu.opn x td hm).1
  · intro x td hm
    rw [View.opn_apply m.view ⟨r, fid⟩] at hm
    split at hm
    · cases hm
    · rcases List.mem_append.mp hm with hm | hm
      · obtain ⟨h₁, h₂⟩ := hu.opn x td hm
        exact ⟨List.mem_cons_of_mem _ h₁, fun he => List.mem_cons_of_mem _ (h₂ he)⟩
      · obtain ⟨hrid, -, -, -, -, hdeq, -⟩ := mem_entry hm
        refine ⟨hrid ▸ List.mem_cons_self, ?_⟩
        intro he
        obtain ⟨c, hj⟩ := hdeq he
        obtain rfl : r = .deq td.rid td.drid x c := hj
        exact List.mem_cons_of_mem _ (uses_deq h hu)

theorem distinct_perform (h : perform fid r m = .ok () m') (hu : m.view.Uses used)
    (hd : m.view.Distinct) (hr : r.rid ∉ used) : m'.view.Distinct := by
  obtain ⟨-, hc⟩ := ok_perform h
  rw [view_complete fid r hc]
  have hopn : ∀ {x td}, td ∈ (m.view.apply fid r).opn x →
      r.closes x = false ∧ (td ∈ m.view.opn x ∨ td ∈ (⟨r, fid⟩ : Placed).entry x) := by
    intro x td hm
    rw [View.opn_apply m.view ⟨r, fid⟩] at hm
    split at hm
    · cases hm
    · rename_i hcl
      exact ⟨by simpa using hcl, List.mem_append.mp hm⟩
  have hnew : ∀ {x td}, td ∈ (⟨r, fid⟩ : Placed).entry x → td.rid ∉ used ∧ r.xid = x := by
    intro x td hm
    obtain ⟨hrid, hx, -⟩ := mem_entry hm
    exact ⟨hrid ▸ hr, hx⟩
  constructor
  · intro x y td td' hm hm' heq
    rcases (hopn hm).2 with ho | he
    · rcases (hopn hm').2 with ho' | he'
      · exact hd.inj x y td td' ho ho' heq
      · exact ((hnew he').1 (heq ▸ (hu.opn x td ho).1)).elim
    · rcases (hopn hm').2 with ho' | he'
      · exact ((hnew he).1 (heq ▸ (hu.opn y td' ho').1)).elim
      · exact (hnew he).2.symm.trans (hnew he').2
  · intro x td hm he
    by_contra hne
    obtain ⟨d, hd'⟩ := Option.ne_none_iff_exists'.mp hne
    obtain ⟨hcl, ho⟩ := hopn hm
    rcases View.enq_apply (p := ⟨r, fid⟩) hd' with ⟨d', hv, -⟩ | ⟨-, ds, t, e, hj⟩ |
      ⟨y, td', hcl', hm', -, heq, -⟩
    · rcases ho with ho | ho
      · rw [hd.fresh x td ho he] at hv
        cases hv
      · exact (hnew ho).1 (hu.enq td.rid (by rw [hv]; rfl))
    · obtain rfl : r = .enq td.rid [] ds t e := hj
      rcases ho with ho | ho
      · exact hr (hu.opn x td ho).1
      · obtain ⟨-, hx, -, hne', -⟩ := mem_entry ho
        exact hne' hx.symm
    · rcases ho with ho | ho
      · rw [hd.inj x y td td' ho hm' heq] at hcl
        rw [show r.closes y = true from hcl'] at hcl
        cases hcl
      · exact (hnew ho).1 (heq ▸ (hu.opn y td' hm').1)

theorem fits_perform (h : perform fid r m = .ok () m') (hf : m.view.Finishable used)
    (hr : r.rid ∉ used) (hfit : m.Fit r) (x : Xid) (a : Nat) :
    View.Fits (m'.view.enq a).isSome (View.moves a (m'.view.opn x)) := by
  obtain ⟨hck, hc⟩ := ok_perform h
  rw [view_complete fid r hc]
  cases r with
  | enq rid xid ds t e =>
    change rid ∉ used at hr
    simp only [View.apply]
    split
    · change View.Fits _ (View.moves a (m.view.opn x))
      by_cases ha : a = rid
      · subst ha
        rw [hf.moves_fresh hr]
        exact View.fits_nil _
      · simp only [View.insert, Function.update_of_ne ha]
        exact hf.fits x a
    · apply View.fits_push hf.fits
      intro b hb
      obtain rfl : rid = b := by
        by_contra hne
        simp [View.move, hne] at hb
      rw [hf.moves_fresh hr, hf.enq_fresh hr]
      exact Or.inr (Or.inl (by simp [View.move]))
  | deq rid drid xid c =>
    have htarget := (ok_dequeueCheck hck).2
    simp only [View.apply]
    split
    · rename_i hx
      obtain ⟨d, hd, hl⟩ : ∃ d, m.view.enq drid = some d ∧ d.lock = false := by
        rcases htarget with ht | ⟨-, hne, -⟩
        · exact ht
        · exact (hne hx).elim
      change View.Fits _ (View.moves a (m.view.opn x))
      by_cases ha : a = drid
      · subst ha
        rw [hf.moves_free hd hl]
        exact View.fits_nil _
      · simp only [View.remove, Function.update_of_ne ha]
        exact hf.fits x a
    · rename_i hx
      have hlock : ∀ y b, View.Fits ((m.view.setLock drid true).enq b).isSome
          (View.moves b ((m.view.setLock drid true).opn y)) := by
        intro y b
        rw [View.isSome_setLock]
        exact hf.fits y b
      apply View.fits_push hlock
      intro b hb
      obtain rfl : drid = b := by
        by_contra hne
        simp [View.move, hne] at hb
      rw [View.isSome_setLock]
      change View.Fits _ (View.moves drid (m.view.opn xid) ++ _)
      rcases htarget with ⟨d, hd, hl⟩ | ⟨hn, -, -⟩
      · rw [hf.moves_free hd hl, hd]
        exact Or.inr (Or.inl (by simp [View.move]))
      · -- the first dequeue of what the transaction has enqueued itself
        obtain ⟨⟨td, hm, he, htr⟩, hnd⟩ := hfit hx hn
        have htrue : true ∈ View.moves drid (m.view.opn xid) :=
          View.true_mem_moves.mpr ⟨td.core, List.mem_map_of_mem hm, he, htr⟩
        have hfalse : false ∉ View.moves drid (m.view.opn xid) := by
          rw [View.false_mem_moves, ← hasDeq_iff]
          exact hnd
        obtain ⟨hs, hl⟩ := (hf.fits xid drid).eq_true htrue hfalse
        rw [hs, hl]
        exact Or.inr (Or.inr ⟨rfl, by simp [View.move]⟩)
  | txa rid xid =>
    apply View.fits_close hf.fits (View.opn_foldl View.opn_abortEntry _ _)
    intro y b _ _
    have hab := View.enq_foldl_abort (m.view.opn xid) (m.view.close xid) b
    by_cases hd : View.Dequeues (m.view.opn xid) b
    · rw [hab.1 hd, Option.isSome_map]
      rfl
    · rw [hab.2 hd]
      rfl
  | txc rid xid =>
    apply View.fits_close hf.fits (View.opn_foldl View.opn_commitEntry _ _)
    intro y b hy hb
    have hnil := View.commitEffect_of_nil (hf.apart hy hb)
    rw [View.enq_foldl_commit, hnil]
    rfl

theorem anon_perform (h : perform fid r m = .ok () m') (ha : m.view.opn [] = []) :
    m'.view.opn [] = [] := by
  obtain ⟨-, hc⟩ := ok_perform h
  rw [view_complete fid r hc, View.opn_apply m.view ⟨r, fid⟩]
  split
  · rfl
  · rw [ha, List.nil_append, List.eq_nil_iff_forall_not_mem]
    intro td hm
    obtain ⟨-, -, -, hne, -⟩ := mem_entry hm
    exact hne rfl

theorem finishable_perform (h : perform fid r m = .ok () m') (hf : m.view.Finishable used)
    (hr : r.rid ∉ used) (hfit : m.Fit r) : m'.view.Finishable (r.rid :: used) where
  locks := locks_perform h hf.locks hf.uses hf.distinct hr
  uses := uses_perform h hf.uses
  distinct := distinct_perform h hf.uses hf.distinct hr
  anon := anon_perform h hf.anon
  fits := fits_perform h hf hr hfit

def ClosedBy (xid : Xid) (m m' : Maps) : Prop :=
  ∀ x, m'.tmap.getTdataList x = if x = xid then [] else m.tmap.getTdataList x

/-- The commit of a transaction: what it dequeues is gone, what it enqueues and does not dequeue is
there, and nothing else has changed. -/
structure CommittedBy (xid : Xid) (m m' : Maps) : Prop where
  closed : ClosedBy xid m m'
  gone : ∀ r, m.HasDeq xid r → m'.emap.map[r]? = none
  added : ∀ r, ¬m.HasDeq xid r → (∃ td ∈ m.tmap.getTdataList xid, td.enqFlag = true ∧ td.rid = r) →
    ∃ td ∈ m.tmap.getTdataList xid, td.enqFlag = true ∧ td.rid = r ∧
      m'.emap.map[r]? = some ⟨td.pfid, false⟩
  kept : ∀ r, ¬m.HasDeq xid r →
    (¬∃ td ∈ m.tmap.getTdataList xid, td.enqFlag = true ∧ td.rid = r) →
    m'.emap.map[r]? = m.emap.map[r]?

/-- The abort of a transaction: what it dequeues is unlocked, and nothing else has changed. -/
structure AbortedBy (xid : Xid) (m m' : Maps) : Prop where
  closed : ClosedBy xid m m'
  unlocked : ∀ r, m.HasDeq xid r →
    m'.emap.map[r]? = m.emap.map[r]?.map fun d => { d with lock := false }
  kept : ∀ r, ¬m.HasDeq xid r → m'.emap.map[r]? = m.emap.map[r]?

private theorem hasEnq_iff (m : Maps) (xid : Xid) (r : Nat) :
    (∃ td ∈ m.tmap.getTdataList xid, td.enqFlag = true ∧ td.rid = r) ↔
      true ∈ View.moves r (m.view.opn xid) := by
  rw [View.true_mem_moves]
  constructor
  · intro h
    obtain ⟨td, hm, ht⟩ := h
    exact ⟨td.core, List.mem_map_of_mem hm, ht⟩
  · intro h
    obtain ⟨td, hm, ht⟩ := h
    obtain ⟨td', hm', rfl⟩ := List.mem_map.mp hm
    exact ⟨td', hm', ht⟩

section Closed

variable {t : TxnMap}

theorem keepsTmap_decrEnqcnt (fid : Nat) : Keeps (fun m => m.tmap = t) (decrEnqcnt fid) := by
  apply Keeps.get_bind
  intro m h
  rw [wp_ite]
  exact ⟨fun _ => h, fun _ => h⟩

theorem keepsTmap_insertPfid (rid pfid : Nat) :
    Keeps (fun m => m.tmap = t) (insertPfid rid pfid) := by
  apply Keeps.get_bind
  intro m h
  split
  · exact h
  · exact h

theorem keepsTmap_getRemovePfid (rid : Nat) (b : Bool) :
    Keeps (fun m => m.tmap = t) (getRemovePfid rid b) := by
  apply Keeps.get_bind
  intro m h
  split
  · exact h
  · exact h
  · exact h

theorem keepsTmap_unlock (rid : Nat) : Keeps (fun m => m.tmap = t) (unlock rid) :=
  Keeps.modify fun _ h => h

theorem closedBy_of_keeps {g : TxnData → MapsM Unit}
    (hg : ∀ {t} td, Keeps (fun m => m.tmap = t) (g td)) {xid : Xid}
    (h : (getRemoveTdataList xid >>= fun tdl => tdl.forM g) m = .ok () m') : ClosedBy xid m m' := by
  obtain ⟨tdl, m₁, h₁, h₂⟩ := ok_bind.mp h
  obtain ⟨-, -, -, -, ht⟩ := ok_getRemoveTdataList xid h₁
  have hk : m'.tmap = m₁.tmap := (Keeps.forM tdl hg).of_ok rfl h₂
  intro x
  rw [hk, ht, getTdataList_getRemove]

end Closed

theorem complete_commit (hp : m.Protected n) (hf : m.view.Finishable used) (fid rid : Nat)
    (xid : Xid) : ∃ m', complete fid (.txc rid xid) m = .ok () m' ∧ CommittedBy xid m m' := by
  obtain ⟨tdl, m₁, h₁⟩ := getRemoveTdataList_isOk m xid
  obtain ⟨htdl, hv, -⟩ := ok_getRemoveTdataList xid h₁
  have hfits : ∀ r, View.Fits (m₁.view.enq r).isSome (View.moves r tdl) := by
    intro r
    rw [hv, htdl, ← View.moves_core]
    exact hf.fits xid r
  obtain ⟨m', h₂⟩ := forM_commitEntry_isOk (hp.getRemoveTdataList xid h₁) hfits
  have hc : complete fid (.txc rid xid) m = .ok () m' := ok_bind.mpr ⟨tdl, m₁, h₁, h₂⟩
  have henq : ∀ r, m'.emap.map[r]? =
      (View.commitEffect (m.view.opn xid) r).getD (m.emap.map[r]?) := by
    intro r
    change m'.view.enq r = _
    rw [view_complete fid _ hc]
    exact View.enq_foldl_commit _ _ _
  refine ⟨m', hc, closedBy_of_keeps (fun td => Keeps.ite _ (keepsTmap_insertPfid _ _)
    ((keepsTmap_getRemovePfid _ _).bind fun _ => keepsTmap_decrEnqcnt _)) hc, ?_, ?_, ?_⟩
  · intro r hd
    rw [hasDeq_iff, ← View.false_mem_moves] at hd
    have hlast := (hf.fits xid r).last hd
    rw [henq, (View.commitEffect_of_last _ r).2.1 hlast, Option.getD_some]
  · intro r hd he
    rw [hasDeq_iff, ← View.false_mem_moves] at hd
    rw [hasEnq_iff] at he
    obtain ⟨td, hm, ht, hr, hce⟩ :=
      (View.commitEffect_of_last _ r).2.2 (View.last_of_true he hd)
    obtain ⟨td', hm', rfl⟩ := List.mem_map.mp hm
    refine ⟨td', hm', ht, hr, ?_⟩
    rw [henq, hce, Option.getD_some]
    rfl
  · intro r hd he
    rw [hasDeq_iff] at hd
    have hnil : View.moves r (m.view.opn xid) = [] := by
      apply View.moves_eq_nil _ hd
      rwa [← View.true_mem_moves, ← hasEnq_iff]
    rw [henq, View.commitEffect_of_nil hnil, Option.getD_none]

theorem complete_abort (hp : m.Protected n) (fid rid : Nat) (xid : Xid) :
    ∃ m', complete fid (.txa rid xid) m = .ok () m' ∧ AbortedBy xid m m' := by
  obtain ⟨tdl, m₁, h₁⟩ := getRemoveTdataList_isOk m xid
  obtain ⟨m', h₂⟩ := forM_abortEntry_isOk (hp.getRemoveTdataList xid h₁)
  have hc : complete fid (.txa rid xid) m = .ok () m' := ok_bind.mpr ⟨tdl, m₁, h₁, h₂⟩
  have henq : ∀ r, m'.emap.map[r]? =
      ((m.view.opn xid).foldl View.abortEntry (m.view.close xid)).enq r := by
    intro r
    change m'.view.enq r = _
    rw [view_complete fid _ hc]
    rfl
  refine ⟨m', hc, closedBy_of_keeps (fun td => Keeps.ite _ (keepsTmap_decrEnqcnt _)
    (keepsTmap_unlock _)) hc, ?_, ?_⟩
  · intro r hd
    rw [hasDeq_iff] at hd
    rw [henq, (View.enq_foldl_abort _ _ r).1 hd]
    rfl
  · intro r hd
    rw [hasDeq_iff] at hd
    rw [henq, (View.enq_foldl_abort _ _ r).2 hd]
    rfl

end Maps

end RhmStore
