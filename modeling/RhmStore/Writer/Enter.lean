import RhmStore.Log.Locks
import RhmStore.Writer.Effects

/-! # How an operation begins -/

namespace RhmStore

namespace Call

def xid : Call → Xid
  | enqueue _ _ _ xid _ _ => xid
  | dequeue _ xid _ => xid
  | abort _ xid => xid
  | commit _ xid => xid

end Call

namespace Wmgr

variable {g : Geom} {s s' t : Wmgr} {c : Call} {I : Wmgr → Prop}

def Takes (op : OpType) (t : DataTok) : Prop :=
  (op = .enqueue → t.isWritable = true) ∧ (op = .dequeue → t.isDequeueable = true)

theorem takes_iff {op : OpType} {t t' : DataTok} (h : t'.wstate = t.wstate) :
    Takes op t' ↔ Takes op t := by
  simp only [Takes, DataTok.isWritable, DataTok.isDequeueable, h]

theorem wp_opCheck (op : OpType) (tok xidsize dsize : Nat) (external : Bool) :
    wp (opCheck g op tok xidsize dsize external)
      (fun res s' => s' = s ∧ (res = .success → Takes op (s.toks tok)) ∧ res ≠ .pageAioWait)
      (fun _ s' => s' = s) s := by
  rw [opCheck, wp_bind, wp_get]
  cases op with
  | enqueue =>
    simp only [wp_ite, wp_pure, wp_throw]
    refine ⟨fun _ => ⟨trivial, (by rintro ⟨⟩), by decide⟩, fun _ => ⟨fun _ => trivial, fun hw => ?_⟩⟩
    refine ⟨trivial, fun _ => ⟨fun _ => ?_, (by rintro ⟨⟩)⟩, by decide⟩
    simpa using hw
  | dequeue =>
    simp only [wp_ite, wp_pure, wp_throw]
    refine ⟨fun _ => trivial, fun hw => ⟨trivial, fun _ => ⟨(by rintro ⟨⟩), fun _ => ?_⟩, by decide⟩⟩
    simpa using hw
  | abort => exact ⟨rfl, fun _ => ⟨(by rintro ⟨⟩), (by rintro ⟨⟩)⟩, by decide⟩
  | commit => exact ⟨rfl, fun _ => ⟨(by rintro ⟨⟩), (by rintro ⟨⟩)⟩, by decide⟩

structure Passed (c : Call) (s : Wmgr) : Prop where
  resetOk : s.resetOk = true
  page : (s.pages s.pgIndex).state = .inUse
  takes : Takes c.op (s.toks c.tok)

/-- What the checks before a write keep: they may reset the current file and take its page. -/
structure Prepares (I : Wmgr → Prop) : Prop where
  reset : ∀ s b s', I s → s.resetOk = false → s.ResetTo b s' → I s'
  use : ∀ s, I s → (s.pages s.pgIndex).state = .unused → I s.used

theorem Prepares.wp_preWriteCheck (h : Prepares I) (hs : I s) (n m : Nat) (external : Bool) :
    wp (preWriteCheck g c.op c.tok n m external) (fun res s' => I s' ∧
      (res = .success → Passed c s') ∧
      (res = .pageAioWait → (s'.pages s'.pgIndex).state = .aioPending)) (fun _ => I) s := by
  have hop : ∀ u, I u → u.resetOk = true → (u.pages u.pgIndex).state = .inUse →
      wp (opCheck g c.op c.tok n m external) (fun res s' => I s' ∧
        (res = .success → Passed c s') ∧
        (res = .pageAioWait → (s'.pages s'.pgIndex).state = .aioPending)) (fun _ => I) u := by
    intro u hu hok hp
    apply wp_mono (wp_opCheck c.op c.tok n m external)
    · intro res v hv
      obtain ⟨rfl, hv, hne⟩ := hv
      exact ⟨hu, fun hres => ⟨hok, hp, hv hres⟩, fun hw => (hne hw).elim⟩
    · intro _ v hv
      exact hv ▸ hu
  have hpage : ∀ u, I u → u.resetOk = true → wp (pageCheck g c.op c.tok n m external)
      (fun res s' => I s' ∧ (res = .success → Passed c s') ∧
        (res = .pageAioWait → (s'.pages s'.pgIndex).state = .aioPending)) (fun _ => I) u := by
    intro u hu hok
    rw [pageCheck, wp_bind, wp_get]
    cases hp : (u.pages u.pgIndex).state with
    | inUse => exact hop u hu hok hp
    | unused =>
      simp only
      rw [wp_bind]
      exact hop _ (h.use u hu hp) hok (by simp)
    | aioPending => exact ⟨hu, (by rintro ⟨⟩), fun _ => hp⟩
    | aioComplete => exact hu
  rw [preWriteCheck, wp_bind, wp_get]
  by_cases hr : s.resetOk = true
  · rw [if_pos hr]
    exact hpage s hs hr
  · rw [if_neg hr, wp_bind]
    apply wp_mono (wp_wrReset_to fun _ _ => False) _ (fun _ _ he => he.elim)
    intro b t ht
    have hI : I t := h.reset s b t hs (by simpa using hr) ht
    cases b with
    | false => exact ⟨hI, (by rintro ⟨⟩), by rintro ⟨⟩⟩
    | true =>
      cases ht with
      | reset he ha => exact hpage _ hI rfl

/-- What a call keeps up to its loop: behind the checks it changes the rid, `_..._busy`, and its
token, but for the token's state, count of pages and file, and it may begin with its first dblk. -/
structure Unentered (c : Call) (I : Wmgr → Prop) : Prop extends Prepares I where
  rid : ∀ s n, I s → I { s with rid := n }
  busy : ∀ s, I s → I { s with busy := Function.update s.busy c.op true }
  tok : ∀ s t, I s → Takes c.op (s.toks c.tok) → t.wstate = (s.toks c.tok).wstate →
    t.pgCnt = (s.toks c.tok).pgCnt → t.fid = (s.toks c.tok).fid →
    t.dblksWritten = 0 ∨ t.dblksWritten = (s.toks c.tok).dblksWritten →
    I { s with toks := Function.update s.toks c.tok t }

/-- The checks are passed, and the operation goes on with its record or has got a rid. -/
structure Begun (c : Call) (I : Wmgr → Prop) (s : Wmgr) (cont : Bool) (rid : Nat) (s' : Wmgr) :
    Prop where
  inv : I s'
  passed : Passed c s'
  toks : s'.toks = s.toks
  busy : s'.busy = s.busy
  maps : s'.maps = s.maps
  goesOn : cont = true → s.busy c.op = true ∧ (s.toks c.tok).wstate = c.op.part
  fresh : cont = false → s.busy c.op = false
  rid : (s.toks c.tok).externalRid = true ∨ cont = true → rid = (s.toks c.tok).rid

structure Refused (c : Call) (I : Wmgr → Prop) (s s' : Wmgr) : Prop where
  inv : I s'
  busy : s'.busy = s.busy
  maps : s'.maps = s.maps
  toks : s'.toks = s.toks ∨ (∀ op, s.busy op = false) ∧ ∃ t, s'.toks = Function.update s.toks c.tok t ∧
    t.wstate = (s.toks c.tok).wstate ∧ t.pgCnt = (s.toks c.tok).pgCnt ∧
      t.dblksWritten = (s.toks c.tok).dblksWritten ∧ t.xid = c.xid

/-- Checks, `contCheck` and `takeRid`, with which all operations begin. -/
theorem Prepares.wp_begin (h : Prepares I) (hn : ∀ s n, I s → I { s with rid := n }) (hs : I s)
    {xidsize dsize : Nat} {external : Bool}
    {k : Bool → Nat → WmgrM Entry} {Q : Entry → Wmgr → Prop} {E : JErr → Wmgr → Prop}
    (hdone : ∀ res t, Refused c I s t →
      (res = .pageAioWait → (t.pages t.pgIndex).state = .aioPending) → Q (.done res) t)
    (herr : ∀ e t, Refused c I s t → E e t)
    (hk : ∀ cont rid t, Begun c I s cont rid t → wp (k cont rid) Q E t) :
    wp (preWriteCheck g c.op c.tok xidsize dsize external >>= fun res =>
      if res ≠ .success then pure (.done res)
      else contCheck c.op c.tok >>= fun cont => takeRid c.tok cont >>= fun rid => k cont rid) Q E s := by
  have hpre : Prepares fun t => I t ∧ t.toks = s.toks ∧ t.busy = s.busy ∧ t.maps = s.maps := by
    constructor
    · intro t b u ht hr hu
      refine ⟨h.reset t b u ht.1 hr hu, ?_⟩
      cases hu with
      | held _ => exact ht.2
      | reset _ _ => exact ht.2
    · intro t ht hp
      exact ⟨h.use t ht.1 hp, ht.2⟩
  have hrefused : ∀ t, (I t ∧ t.toks = s.toks ∧ t.busy = s.busy ∧ t.maps = s.maps) →
      Refused c I s t := fun t ht => ⟨ht.1, ht.2.2.1, ht.2.2.2, Or.inl ht.2.1⟩
  rw [wp_bind]
  apply wp_mono (hpre.wp_preWriteCheck (c := c) ⟨hs, rfl, rfl, rfl⟩ xidsize dsize external) _
    (fun e t ht => herr e t (hrefused t ht))
  intro res t ht
  obtain ⟨ht, hres, hwait⟩ := ht
  by_cases hne : res ≠ .success
  · rw [if_pos hne]
    exact hdone res t (hrefused t ht) hwait
  · rw [if_neg hne]
    have hp : Passed c t := hres (by simpa using hne)
    obtain ⟨hI, htoks, hbusy, hmaps⟩ := ht
    have hrid : ∀ cont, (cont = true → s.busy c.op = true ∧ (s.toks c.tok).wstate = c.op.part) →
        (cont = false → s.busy c.op = false) →
        wp (takeRid c.tok cont >>= fun rid => k cont rid) Q E t := by
      intro cont h₁ h₂
      rw [takeRid, wp_bind, wp_bind, wp_get]
      by_cases hx : ((t.toks c.tok).externalRid || cont) = true
      · rw [if_pos hx]
        exact hk _ _ _ ⟨hI, hp, htoks, hbusy, hmaps, h₁, h₂, fun _ => by rw [htoks]⟩
      · rw [if_neg hx, wp_bind, wp_set]
        rw [Bool.or_eq_true, not_or, htoks] at hx
        refine hk _ _ _ ⟨hn t _ hI, ⟨hp.resetOk, hp.page, hp.takes⟩, htoks, hbusy, hmaps, h₁, h₂, ?_⟩
        intro he
        exact (not_or.mpr hx he).elim
    rw [contCheck, wp_bind, wp_bind, wp_get]
    by_cases hb : t.busy c.op = true
    · rw [if_pos hb]
      by_cases hw : (t.toks c.tok).wstate = c.op.part
      · rw [if_pos hw]
        exact hrid true (fun _ => ⟨hbusy ▸ hb, htoks ▸ hw⟩) (by rintro ⟨⟩)
      · rw [if_neg hw]
        exact herr _ _ (hrefused t ⟨hI, htoks, hbusy, hmaps⟩)
    · rw [if_neg hb]
      exact hrid false (by rintro ⟨⟩) fun _ => by simpa [hbusy] using hb

/-- The operation is at the head of its loop, with the record `r`. -/
structure Entered (c : Call) (I : Wmgr → Prop) (s : Wmgr) (r : JRec) (cont : Bool) (s' : Wmgr) :
    Prop where
  inv : I s'
  passed : Passed c s'
  maps : s'.maps = s.maps
  others : ∀ i ≠ c.tok, s'.toks i = s.toks i
  wstate : (s'.toks c.tok).wstate = (s.toks c.tok).wstate
  pgCnt : (s'.toks c.tok).pgCnt = (s.toks c.tok).pgCnt
  jrec : r = c.jrec (s'.toks c.tok)
  goesOn : cont = true → s.busy c.op = true ∧ (s.toks c.tok).wstate = c.op.part ∧
    s'.toks = s.toks ∧ s'.busy = s.busy
  fresh : cont = false → (∀ op, s.busy op = false) ∧
    s'.busy = Function.update s.busy c.op true ∧ Maps.checkOp r s.maps = .ok () s.maps ∧
    (s'.toks c.tok).xid = c.xid ∧ ((s'.toks c.tok).dblksWritten = 0 ∨
      c.op = .enqueue ∧ (s'.toks c.tok).dblksWritten = (s.toks c.tok).dblksWritten)

def AfterEntry (c : Call) (I : Wmgr → Prop) (s : Wmgr) : Entry → Wmgr → Prop
  | .done res, s' => Refused c I s s' ∧
    (res = .pageAioWait → (s'.pages s'.pgIndex).state = .aioPending)
  | .encode r cont, s' => Entered c I s r cont s'

theorem not_busy {op : OpType} (ho : s.otherBusy op = false) (hb : s.busy op = false) (o : OpType) :
    s.busy o = false := by
  by_cases h : o = op
  · rw [h, hb]
  · have hm : o ∈ [OpType.enqueue, .dequeue, .abort, .commit] := by cases o <;> decide
    have := List.any_eq_false.mp ho o hm
    simpa [h] using this

theorem Begun.goOn {rid : Nat} {r : JRec} (h : Begun c I s true rid s')
    (hr : r = c.jrec (s.toks c.tok)) : Entered c I s r true s' where
  inv := h.inv
  passed := h.passed
  maps := h.maps
  others _ _ := by rw [h.toks]
  wstate := by rw [h.toks]
  pgCnt := by rw [h.toks]
  jrec := by rw [h.toks, hr]
  goesOn _ := ⟨(h.goesOn rfl).1, (h.goesOn rfl).2, h.toks, h.busy⟩
  fresh := by rintro ⟨⟩

/-- A record is begun with the token set to `t`. -/
theorem Begun.start {rid : Nat} {r : JRec} {t : DataTok} (hu : Unentered c I)
    (h : Begun c I s false rid s') (ho : s.otherBusy c.op = false)
    (hw : t.wstate = (s.toks c.tok).wstate) (hp : t.pgCnt = (s.toks c.tok).pgCnt)
    (hf : t.fid = (s.toks c.tok).fid)
    (hr : r = c.jrec t) (hc : Maps.checkOp r s.maps = .ok () s.maps) (hx : t.xid = c.xid)
    (hd : t.dblksWritten = 0 ∨ c.op = .enqueue ∧ t.dblksWritten = (s.toks c.tok).dblksWritten) :
    Entered c I s r false { s' with
      toks := Function.update s'.toks c.tok t
      busy := Function.update s'.busy c.op true } := by
  have htok := hu.tok s' t h.inv h.passed.takes (by rw [h.toks, hw]) (by rw [h.toks, hp])
    (by rw [h.toks, hf]) (by rw [h.toks]; exact hd.imp_right And.right)
  constructor
  · exact hu.busy _ htok
  · refine ⟨h.passed.resetOk, h.passed.page, ?_⟩
    apply (takes_iff _).mpr h.passed.takes
    simp [h.toks, hw]
  · exact h.maps
  · intro i hi
    simp only [Function.update_of_ne hi, h.toks]
  · simp only [Function.update_self, hw]
  · simp only [Function.update_self, hp]
  · simp only [Function.update_self, hr]
  · rintro ⟨⟩
  · intro _
    simp only [Function.update_self, h.busy]
    exact ⟨not_busy ho (h.fresh rfl), trivial, hc, hx, hd⟩

theorem wp_enqueue (h : Unentered c I) (hs : I s) {tok n m : Nat} {xid : Xid}
    {transient external : Bool} (hc : c = .enqueue tok n m xid transient external) :
    wp (enqueue g tok n m xid transient external) (AfterEntry c I s) (fun _ => Refused c I s) s := by
  subst hc
  have hs' : Refused (.enqueue tok n m xid transient external) I s s := ⟨hs, rfl, rfl, Or.inl rfl⟩
  rw [enqueue, wp_bind, wp_get]
  by_cases ho : s.otherBusy .enqueue = true
  · rw [if_pos ho]
    exact ⟨hs', by rintro ⟨⟩⟩
  · rw [if_neg ho]
    by_cases hn : m ≠ n ∧ external = false
    · rw [if_pos hn]
      exact ⟨hs', by rintro ⟨⟩⟩
    · rw [if_neg hn]
      apply h.wp_begin (c := .enqueue tok n m xid transient external) h.rid hs (fun _ t ht hw => ⟨ht, hw⟩) (fun _ t ht => ht)
      intro cont rid t ht
      cases cont with
      | true => exact ht.goOn (by rw [ht.rid (Or.inr rfl)]; rfl)
      | false =>
        exact ht.start h (t := { t.toks tok with rid := rid, dequeueRid := 0, xid := xid })
          (Bool.eq_false_iff.mpr ho) (by rw [ht.toks]; rfl) (by rw [ht.toks]; rfl)
          (by rw [ht.toks]; rfl) rfl rfl rfl
          (Or.inr ⟨rfl, by rw [ht.toks]; rfl⟩)

theorem wp_dequeueCheck (xid : Xid) (drid : Nat) (m : Maps) :
    wp (Maps.dequeueCheck xid drid) (fun _ m' => m' = m ∧ Maps.dequeueCheck xid drid m = .ok () m)
      (fun _ m' => m' = m) m := by
  have hk : Keeps (· = m) (Maps.dequeueCheck xid drid) := by
    refine .get_bind fun m' hm => ?_
    cases m'.emap.getPfid drid with
    | ok fid => exact hm
    | error e =>
      cases e with
      | locked => exact hm
      | ridNotFound => exact Keeps.ite _ (.pure _) (.throw _) m' hm
      | dupRid => exact Keeps.ite _ (.pure _) (.throw _) m' hm
  refine wp_mono (wp_and (hk m rfl) (wp_self _ m)) (fun _ m' h => ⟨h.1, ?_⟩) fun _ _ h => h.1
  rw [h.2, h.1]

theorem wp_txnEnd (h : Unentered c I) (hs : I s) (mk : Nat → Xid → JRec)
    (hr : ∀ t, c.jrec t = mk t.rid c.xid)
    (hc : c.xid ≠ [] → ∀ rid m, Maps.checkOp (mk rid c.xid) m = .ok () m) :
    wp (txnEnd g c.op mk c.tok c.xid) (AfterEntry c I s) (fun _ => Refused c I s) s := by
  have hs' : Refused c I s s := ⟨hs, rfl, rfl, Or.inl rfl⟩
  rw [txnEnd, wp_bind, wp_get]
  by_cases hx : c.xid = []
  · rw [if_pos hx]
    exact hs'
  · rw [if_neg hx]
    by_cases ho : s.otherBusy c.op = true
    · rw [if_pos ho]
      exact ⟨hs', by rintro ⟨⟩⟩
    · rw [if_neg ho]
      apply h.wp_begin (c := c) h.rid hs (fun _ t ht hw => ⟨ht, hw⟩) (fun _ t ht => ht)
      intro cont rid t ht
      cases cont with
      | true => exact ht.goOn (by rw [hr, ht.rid (Or.inr rfl)])
      | false =>
        exact ht.start h
          (t := { t.toks c.tok with rid := rid, dequeueRid := 0, xid := c.xid, dblksWritten := 0 })
          (by simpa using ho) (by rw [ht.toks]) (by rw [ht.toks]) (by rw [ht.toks]) (by rw [hr])
          (hc hx _ _) rfl
          (Or.inl rfl)

private theorem wp_dequeueEnd {tok rid drid : Nat} {xid : Xid} {b : Bool} {t : DataTok}
    (h : Unentered (.dequeue tok xid b) I) (ht : Begun (.dequeue tok xid b) I s false rid s')
    (ho : s.otherBusy .dequeue = false) (hw : t.wstate = (s.toks tok).wstate)
    (hp : t.pgCnt = (s.toks tok).pgCnt) (hf : t.fid = (s.toks tok).fid)
    (hd : t.dblksWritten = (s.toks tok).dblksWritten) (hr : t.rid = rid) (hdr : t.dequeueRid = drid) :
    wp (modTok tok (fun t => { t with xid := xid }) >>= fun _ =>
      onMaps (Maps.dequeueCheck xid drid) >>= fun _ =>
      modTok tok (fun t => { t with dblksWritten := 0 }) >>= fun _ =>
      setBusy .dequeue true >>= fun _ => pure (Entry.encode (.deq rid drid xid b) false))
      (AfterEntry (.dequeue tok xid b) I s) (fun _ => Refused (.dequeue tok xid b) I s)
      { s' with toks := Function.update s'.toks tok t } := by
  rw [wp_bind, modTok, wp_modify, wp_bind, onMaps, wp_onPart]
  simp only [Function.update_idem, Function.update_self]
  apply wp_mono (wp_dequeueCheck xid drid _)
  · intro _ m hm
    obtain ⟨rfl, hm⟩ := hm
    rw [wp_bind, modTok, wp_modify]
    simp only [Function.update_idem, Function.update_self]
    refine ht.start h (t := { t with xid := xid, dblksWritten := 0 }) ho hw hp hf ?_ ?_ rfl
      (Or.inl rfl)
    · rw [← hr, ← hdr]
      rfl
    · rw [← ht.maps]
      exact hm
  · intro _ m hm
    subst hm
    refine ⟨?_, ht.busy, ht.maps, Or.inr ⟨not_busy ho (ht.fresh rfl), { t with xid := xid }, ?_, hw,
      hp, hd, rfl⟩⟩
    · exact h.tok s' _ ht.inv ht.passed.takes (by rw [ht.toks]; exact hw) (by rw [ht.toks]; exact hp)
        (by rw [ht.toks]; exact hf) (Or.inr (by rw [ht.toks]; exact hd))
    · rw [← ht.toks]
      rfl

theorem wp_dequeue (h : Unentered c I) (hs : I s) {tok : Nat} {xid : Xid} {b : Bool}
    (hc : c = .dequeue tok xid b) :
    wp (dequeue g tok xid b) (AfterEntry c I s) (fun _ => Refused c I s) s := by
  subst hc
  have hs' : Refused (.dequeue tok xid b) I s s := ⟨hs, rfl, rfl, Or.inl rfl⟩
  rw [dequeue, wp_bind, wp_get]
  by_cases ho : s.otherBusy .dequeue = true
  · rw [if_pos ho]
    exact ⟨hs', by rintro ⟨⟩⟩
  · rw [if_neg ho]
    have ho' : s.otherBusy .dequeue = false := by simpa using ho
    apply h.wp_begin (c := .dequeue tok xid b) h.rid hs (fun _ t ht hw => ⟨ht, hw⟩) (fun _ t ht => ht)
    intro cont rid t ht
    rw [wp_bind, wp_get]
    cases cont with
    | true =>
      apply ht.goOn
      simp [Call.jrec, Call.tok, ht.rid (Or.inr rfl), ht.toks]
    | false =>
      simp only [Bool.or_false, Bool.false_eq_true, if_false]
      have hrid := fun hx => ht.rid (Or.inl hx)
      have hsame : t = { t with toks := Function.update t.toks tok (t.toks tok) } := by
        rw [Function.update_eq_self]
      by_cases hx : (t.toks tok).externalRid = true
      · rw [if_pos hx, if_pos hx, hsame]
        apply wp_dequeueEnd h ht ho'
        · rw [ht.toks]
        · rw [ht.toks]
        · rw [ht.toks]
        · rw [ht.toks]
        · rw [ht.toks] at hx ⊢
          exact (hrid hx).symm
        · simp
      · rw [if_neg hx, if_neg hx, wp_bind, modTok, wp_modify]
        apply wp_dequeueEnd h ht ho'
        · rw [ht.toks]
        · rw [ht.toks]
        · rw [ht.toks]
        · rw [ht.toks]
        · rfl
        · rfl

theorem wp_enter (h : Unentered c I) (hs : I s) :
    wp (c.enter g) (AfterEntry c I s) (fun _ => Refused c I s) s := by
  cases hc : c with
  | enqueue tok n m xid transient external =>
    subst hc
    exact wp_enqueue h hs rfl
  | dequeue tok xid txnComlCommit =>
    subst hc
    exact wp_dequeue h hs rfl
  | abort tok xid =>
    subst hc
    refine wp_txnEnd h hs .txa (fun _ => rfl) fun hx rid m => ?_
    rw [Maps.checkOp, if_pos hx]
    rfl
  | commit tok xid =>
    subst hc
    refine wp_txnEnd h hs .txc (fun _ => rfl) fun hx rid m => ?_
    rw [Maps.checkOp, if_pos hx]
    rfl

end Wmgr

end RhmStore
