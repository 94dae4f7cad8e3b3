import RhmStore.Writer.Once
import RhmStore.Writer.Turns

/-! # Records that are needed stay on their files -/

namespace RhmStore

namespace View

variable {v : View} {rid fid f : Nat} {r : JRec}

/-- The record `rid`, which begins in file `f`, is enqueued, also in an open transaction. -/
def Has (v : View) (rid f : Nat) : Prop :=
  (∃ d, v.enq rid = some d ∧ d.pfid = f) ∨
    ∃ x td, td ∈ v.opn x ∧ td.enqFlag = true ∧ td.rid = rid ∧ td.pfid = f

theorem NoneIn.not_has (h : v.NoneIn f) : ¬v.Has rid f := by
  rintro (⟨d, hd, hf⟩ | ⟨x, td, hm, he, -, hf⟩)
  · exact h.enq rid d hd hf
  · exact h.opn x td hm he hf

theorem has_insert {rid' : Nat} (h : (v.insert rid' fid).Has rid f) :
    v.Has rid f ∨ rid' = rid ∧ fid = f := by
  rcases h with ⟨d, hd, hf⟩ | h
  · by_cases hr : rid = rid'
    · subst hr
      simp only [insert, Function.update_self] at hd
      obtain rfl := Option.some.inj hd
      exact Or.inr ⟨rfl, hf⟩
    · simp only [insert, Function.update_of_ne hr] at hd
      exact Or.inl (Or.inl ⟨d, hd, hf⟩)
  · exact Or.inl (Or.inr h)

theorem has_remove {rid' : Nat} (h : (v.remove rid').Has rid f) : v.Has rid f := by
  rcases h with ⟨d, hd, hf⟩ | h
  · by_cases hr : rid = rid'
    · subst hr
      simp [remove] at hd
    · simp only [remove, Function.update_of_ne hr] at hd
      exact Or.inl ⟨d, hd, hf⟩
  · exact Or.inr h

theorem has_setLock {rid' : Nat} {b : Bool} (h : (v.setLock rid' b).Has rid f) : v.Has rid f := by
  rcases h with ⟨d, hd, hf⟩ | h
  · by_cases hr : rid = rid'
    · subst hr
      simp only [setLock, Function.update_self, Option.map_eq_some_iff] at hd
      obtain ⟨d', hd', rfl⟩ := hd
      exact Or.inl ⟨d', hd', hf⟩
    · simp only [setLock, Function.update_of_ne hr] at hd
      exact Or.inl ⟨d, hd, hf⟩
  · exact Or.inr h

theorem has_push {x : Xid} {td : TxnData} (h : (v.push x td).Has rid f) :
    v.Has rid f ∨ td.enqFlag = true ∧ td.rid = rid ∧ td.pfid = f := by
  rcases h with h | ⟨y, td', hm, hk⟩
  · exact Or.inl (Or.inl h)
  · by_cases hy : y = x
    · subst hy
      simp only [push, Function.update_self, List.mem_append, List.mem_singleton] at hm
      rcases hm with hm | rfl
      · exact Or.inl (Or.inr ⟨y, td', hm, hk⟩)
      · exact Or.inr hk
    · simp only [push, Function.update_of_ne hy] at hm
      exact Or.inl (Or.inr ⟨y, td', hm, hk⟩)

/-- The entries of a transaction are put into the map, or not. -/
theorem has_foldl {e : View → TxnData → View}
    (he : ∀ v td, (e v td).Has rid f → v.Has rid f ∨ td.enqFlag = true ∧ td.rid = rid ∧ td.pfid = f)
    (tdl : List TxnData) (h : (tdl.foldl e v).Has rid f) :
    v.Has rid f ∨ ∃ td ∈ tdl, td.enqFlag = true ∧ td.rid = rid ∧ td.pfid = f := by
  induction tdl generalizing v with
  | nil => exact Or.inl h
  | cons td tdl ih =>
    rcases ih h with h | ⟨td', hm, hk⟩
    · rcases he v td h with h | hk
      · exact Or.inl h
      · exact Or.inr ⟨td, List.mem_cons_self, hk⟩
    · exact Or.inr ⟨td', List.mem_cons_of_mem td hm, hk⟩

theorem has_close {x : Xid} (h : (v.close x).Has rid f) : v.Has rid f := by
  rcases h with h | ⟨y, td, hm, hk⟩
  · exact Or.inl h
  · by_cases hy : y = x
    · subst hy
      simp [close] at hm
    · simp only [close, Function.update_of_ne hy] at hm
      exact Or.inr ⟨y, td, hm, hk⟩

theorem has_closeWith {e : View → TxnData → View} {x : Xid}
    (he : ∀ v td, (e v td).Has rid f → v.Has rid f ∨ td.enqFlag = true ∧ td.rid = rid ∧ td.pfid = f)
    (h : ((v.opn x).foldl e (v.close x)).Has rid f) : v.Has rid f := by
  rcases has_foldl he _ h with h | ⟨td, hm, hk⟩
  · exact has_close h
  · exact Or.inr ⟨x, td, hm, hk⟩

/-- Only an enqueue makes a record enqueued. -/
theorem has_apply (h : (v.apply fid r).Has rid f) :
    v.Has rid f ∨ r.opType = .enqueue ∧ r.rid = rid ∧ fid = f := by
  cases r with
  | enq rid' x n b e =>
    simp only [apply] at h
    split at h
    · exact (has_insert h).imp_right fun hk => ⟨rfl, hk⟩
    · exact (has_push h).imp_right fun hk => ⟨rfl, hk.2⟩
  | deq rid' drid x b =>
    simp only [apply] at h
    left
    split at h
    · exact has_remove h
    · rcases has_push h with h | ⟨hk, -⟩
      · exact has_setLock h
      · cases hk
  | txa rid' x =>
    left
    refine has_closeWith (fun v td h => ?_) h
    left
    unfold abortEntry at h
    split at h
    · exact h
    · exact has_setLock h
  | txc rid' x =>
    left
    refine has_closeWith (fun v td h => ?_) h
    unfold commitEntry at h
    split at h
    · exact (has_insert h).imp_right fun hk => ⟨‹_›, hk⟩
    · exact Or.inl (has_remove h)

end View

namespace Wmgr

variable {g : Geom} {s₀ s s' : Wmgr} {c : Call}

/-- The last record enqueued with this rid that begins in this file. -/
def newest (s : Wmgr) (rid f : Nat) : Option Written :=
  s.log.reverse.find? fun w => w.jrec.opType = .enqueue ∧ w.jrec.rid = rid ∧ w.fid = f

/-- The ring has not come round to what is enqueued, be it encoded here or found by the recovery. -/
structure Holds (g : Geom) (s s₀ : Wmgr) : Prop where
  encoded : ∀ rid f w, s.maps.view.Has rid f → s.newest rid f = some w →
    s.entered ≤ w.turn + g.numJfiles
  found : ∀ rid f, s.maps.view.Has rid f → s.newest rid f = none → s₀.maps.view.Has rid f ∧
    ∀ t < s₀.entered, s₀.entered ≤ t + g.numJfiles → t % g.numJfiles = f →
      s.entered ≤ t + g.numJfiles

theorem mem_of_newest {rid f : Nat} {w : Written} (h : s.newest rid f = some w) :
    w ∈ s.log ∧ w.jrec.opType = .enqueue ∧ w.jrec.rid = rid ∧ w.fid = f := by
  have hm := List.mem_of_find?_eq_some h
  have hp := List.find?_some h
  exact ⟨List.mem_reverse.mp hm, by simpa using hp⟩

theorem Holds.of_eq (h : s.Holds g s₀) (hv : s'.maps.view = s.maps.view) (hl : s'.log = s.log)
    (he : s'.entered = s.entered) : s'.Holds g s₀ := by
  obtain ⟨h1, h2⟩ := h
  constructor
  · simpa only [newest, hv, hl, he] using h1
  · simpa only [newest, hv, hl, he] using h2

theorem view_returned (hr : s.Returned s') : s'.maps.view = s.maps.view := by
  apply hr.maps (fun m => m.view = s.maps.view) _ rfl
  intro m x r t hm ht
  rw [← hm]
  exact Maps.view_setAioCompl x r (Maps.setAioCompl_ok ht)

theorem Holds.returned (h : s.Holds g s₀) (hr : s.Returned s') : s'.Holds g s₀ :=
  h.of_eq (view_returned hr) hr.log (entered_congr hr.rot hr.fresh)

/-- The ring does not come round to a file that protects a record. -/
theorem Holds.resetTo (h : s.Holds g s₀) (hg : s.Protects g) (ht : s.Turns g s₀) (hf : s.fresh = false)
    {ok : Bool} (hr : s.ResetTo ok s') : s'.Holds g s₀ := by
  cases hr with
  | held _ => exact h.of_eq rfl rfl rfl
  | reset he _ =>
    have hlt : s.fcIndex < g.numJfiles := ht.index ▸ Nat.mod_lt _ g.numJfiles_pos
    have hnone := hg.maps.noneIn hlt he
    have hent := entered_of_not_fresh hf
    have hent' : s.afterReset.entered = s.rot + 1 := entered_of_fresh rfl
    -- the file that is reset is not the one in which the record has begun
    have key : ∀ {rid f t : Nat}, s.maps.view.Has rid f → t % g.numJfiles = f →
        s.entered ≤ t + g.numJfiles → s.afterReset.entered ≤ t + g.numJfiles := by
      intro rid f t hh hm hle
      have hne : s.rot ≠ t + g.numJfiles := by
        intro hr
        have hin : s.maps.view.Has rid s.fcIndex := by rwa [ht.index, hr, Nat.add_mod_right, hm]
        exact hnone.not_has hin
      omega
    constructor
    · intro rid f w hh hn
      obtain ⟨hw, -, -, hwf⟩ := mem_of_newest hn
      have hmod := (ht.turn_lt (Or.inl hw)).2
      exact key hh (hmod.symm.trans hwf) (h.encoded rid f w hh hn)
    · intro rid f hh hn
      obtain ⟨h1, h2⟩ := h.found rid f hh hn
      exact ⟨h1, fun t h3 h4 h5 => key hh h5 (h2 t h3 h4 h5)⟩

theorem Holds.rotatesTo (h : s.Holds g s₀) (hg : s.Protects g) (ht : s.Turns g s₀) (hf : s.fresh = true)
    {res : Iores} (hr : s.RotatesTo g res s') : s'.Holds g s₀ := by
  have hh : (s.turned g).Holds g s₀ := h.of_eq rfl rfl (entered_turned hf)
  cases hr with
  | wait _ => exact hh
  | full _ => exact hh.of_eq rfl rfl rfl
  | reset he ha => exact hh.resetTo ⟨hg.maps, hg.fids⟩ (ht.turned hf) rfl (.reset he ha)

/-- There are enqueued records in some file. -/
def InUse (g : Geom) (s : Wmgr) : Prop := ∃ f < g.numJfiles, s.maps.enqCnt.getD f 0 ≠ 0

instance decidableInUse : Decidable (s.InUse g) := inferInstanceAs (Decidable (∃ f < g.numJfiles, _))

/-- The ring has not come round to where the record that goes on has begun, and will not. -/
structure Ahead (g : Geom) (s : Wmgr) : Prop where
  entered : s.entered ≤ s.curTurn + g.numJfiles
  unused : ∀ u, s.curTurn < u → u < s.entered → s.maps.enqCnt.getD (u % g.numJfiles) 0 = 0
  ends : s.rot < s.curTurn + g.numJfiles ∨ s.InUse g

theorem ahead_of_none (h : s.cur = none) : s.Ahead g := by
  have ht : s.curTurn = s.rot := by simp [curTurn, h]
  have hle := entered_le s
  have hn := g.numJfiles_pos
  refine ⟨by omega, fun u hu hlt => ?_, Or.inl (by omega)⟩
  omega

theorem Ahead.of_eq (h : s.Ahead g) (hc : s'.cur = s.cur) (hr : s'.rot = s.rot) (hf : s'.fresh = s.fresh)
    (hn : s'.maps.enqCnt = s.maps.enqCnt) : s'.Ahead g := by
  have ht : s'.curTurn = s.curTurn := by rw [curTurn, hc, hr, curTurn]
  have he := entered_congr hr hf
  obtain ⟨h1, h2, h3⟩ := h
  refine ⟨by rwa [he, ht], by rwa [he, ht, hn], ?_⟩
  rwa [hr, ht, InUse, hn]

theorem enqCnt_returned (hr : s.Returned s') : s'.maps.enqCnt = s.maps.enqCnt :=
  hr.maps (fun m => m.enqCnt = s.maps.enqCnt) (fun _ _ _ _ hm _ => hm) rfl

theorem Ahead.returned (h : s.Ahead g) (hr : s.Returned s') : s'.Ahead g :=
  h.of_eq hr.cur hr.rot hr.fresh (enqCnt_returned hr)

/-- Were the ring to come round, no file would be in use. -/
theorem Ahead.resetTo (h : s.Ahead g) (hx : s.fcIndex = s.rot % g.numJfiles) (hf : s.fresh = false)
    {ok : Bool} (hr : s.ResetTo ok s') : s'.Ahead g := by
  cases hr with
  | held _ => exact h.of_eq rfl rfl rfl rfl
  | reset he _ =>
    obtain ⟨h1, h2, h3⟩ := h
    rw [entered_of_not_fresh hf] at h1 h2
    have hent : s.afterReset.entered = s.rot + 1 := entered_of_fresh rfl
    have hunused : ∀ u, s.curTurn < u → u < s.rot + 1 →
        s.maps.enqCnt.getD (u % g.numJfiles) 0 = 0 := by
      intro u hu hlt
      rcases Nat.lt_succ_iff_lt_or_eq.mp hlt with hlt | rfl
      · exact h2 u hu hlt
      · rwa [← hx]
    refine ⟨?_, ?_, h3⟩
    · rw [hent]
      rcases h3 with h3 | ⟨f, hf, hn⟩
      · exact h3
      · by_contra hlt
        change ¬s.rot + 1 ≤ s.curTurn + g.numJfiles at hlt
        -- the turns behind the record's own go through all files
        have hmod := Nat.mod_lt s.curTurn g.numJfiles_pos
        have hdiv := Nat.div_add_mod s.curTurn g.numJfiles
        have hcover : ∃ u, s.curTurn < u ∧ u < s.rot + 1 ∧ u % g.numJfiles = f := by
          by_cases hle : f ≤ s.curTurn % g.numJfiles
          · refine ⟨g.numJfiles * (s.curTurn / g.numJfiles + 1) + f, ?_, ?_, ?_⟩
            · rw [Nat.mul_succ]
              omega
            · rw [Nat.mul_succ]
              omega
            · rw [Nat.mul_add_mod, Nat.mod_eq_of_lt hf]
          · refine ⟨g.numJfiles * (s.curTurn / g.numJfiles) + f, by omega, by omega, ?_⟩
            rw [Nat.mul_add_mod, Nat.mod_eq_of_lt hf]
        obtain ⟨u, hu1, hu2, hu3⟩ := hcover
        exact hn (hu3 ▸ hunused u hu1 hu2)
    · rw [hent]
      exact hunused

/-- The ring turns while the record that goes on, if there is one, has not come to its end. -/
theorem Ahead.turned (h : s.Ahead g) (hf : s.fresh = true)
    (hn : s.cur ≠ none → s.rot + 1 < s.curTurn + g.numJfiles ∨ s.InUse g) : (s.turned g).Ahead g := by
  cases hc : s.cur with
  | none => exact ahead_of_none hc
  | some w =>
    have ht : (s.turned g).curTurn = s.curTurn := by
      change (s.cur.map _).getD (s.rot + 1) = (s.cur.map _).getD s.rot
      rw [hc]
      rfl
    obtain ⟨h1, h2, -⟩ := h
    refine ⟨by rwa [entered_turned hf, ht], by rwa [entered_turned hf, ht], ?_⟩
    rw [ht]
    exact hn (by rw [hc]; rintro ⟨⟩)

theorem Ahead.rotatesTo (h : s.Ahead g) (hx : s.fcIndex = s.rot % g.numJfiles) (hf : s.fresh = true)
    (hn : s.cur ≠ none → s.rot + 1 < s.curTurn + g.numJfiles ∨ s.InUse g) {res : Iores}
    (hr : s.RotatesTo g res s') : s'.Ahead g := by
  have ht := h.turned hf hn
  cases hr with
  | wait _ => exact ht
  | full _ => exact ht.of_eq rfl rfl rfl rfl
  | reset he ha => exact ht.resetTo (index_turned hx) rfl (.reset he ha)

/-- A token that no record has been written with has no dblks. -/
def Unwritten (s : Wmgr) : Prop := ∀ tok, (s.toks tok).wstate = .none → (s.toks tok).dblksWritten = 0

theorem unwritten_update {toks : Nat → DataTok} (h : ∀ i, (toks i).wstate = .none → (toks i).dblksWritten = 0)
    {tok : Nat} {t : DataTok} (ht : t.wstate = .none → t.dblksWritten = 0) (i : Nat) :
    (Function.update toks tok t i).wstate = .none → (Function.update toks tok t i).dblksWritten = 0 := by
  by_cases hi : i = tok
  · subst hi
    simpa using ht
  · simpa [hi] using h i

/-- The files of all that is needed are left alone, so far and by the next turn of the ring. -/
structure Spared (g : Geom) (s s₀ : Wmgr) : Prop where
  turns : s.Turns g s₀
  holds : s.Holds g s₀
  ahead : s.Ahead g
  protects : s.Protects g
  unwritten : s.Unwritten

/-- A change of tokens only. -/
theorem Spared.of_toks (h : s.Spared g s₀) (hr : s'.rot = s.rot) (hf : s'.fresh = s.fresh)
    (hx : s'.fcIndex = s.fcIndex) (hk : s'.pgCntr = s.pgCntr) (hres : s'.resets = s.resets)
    (hs : s'.subm = s.subm) (hl : s'.log = s.log) (hc : s'.cur = s.cur) (hm : s'.maps = s.maps)
    (hp : s'.Protects g) (hu : s'.Unwritten) : s'.Spared g s₀ where
  turns := h.turns.of_eq hr hf hx hk hres hs fun w hw => by rwa [hl, hc] at hw
  holds := h.holds.of_eq (by rw [hm]) hl (entered_congr hr hf)
  ahead := h.ahead.of_eq hc hr hf (by rw [hm])
  protects := hp
  unwritten := hu

theorem Spared.returned (h : s.Spared g s₀) (hr : s.Returned s') : s'.Spared g s₀ where
  turns := h.turns.returned hr
  holds := h.holds.returned hr
  ahead := h.ahead.returned hr
  protects := by
    have hx : s.fcIndex < g.numJfiles := h.turns.index ▸ Nat.mod_lt _ g.numJfiles_pos
    exact ((Guards.start hx h.protects).returned hr).protects
  unwritten tok hn := by
    rw [(hr.toks tok).dblksWritten]
    exact h.unwritten tok ((hr.toks tok).wstate_of_none hn)

theorem Spared.resetTo (h : s.Spared g s₀) (hf : s.fresh = false) {ok : Bool} (hr : s.ResetTo ok s') :
    s'.Spared g s₀ where
  turns := h.turns.resetTo hf hr
  holds := h.holds.resetTo h.protects h.turns hf hr
  ahead := h.ahead.resetTo h.turns.index hf hr
  protects := by cases hr <;> exact ⟨h.protects.maps, h.protects.fids⟩
  unwritten := by cases hr <;> exact h.unwritten

theorem Spared.rotatesTo (h : s.Spared g s₀) (hf : s.fresh = true)
    (hn : s.cur ≠ none → s.rot + 1 < s.curTurn + g.numJfiles ∨ s.InUse g) {res : Iores}
    (hr : s.RotatesTo g res s') : s'.Spared g s₀ where
  turns := h.turns.rotatesTo hf hr
  holds := h.holds.rotatesTo h.protects h.turns hf hr
  ahead := h.ahead.rotatesTo h.turns.index hf hn hr
  protects := by cases hr <;> exact ⟨h.protects.maps, h.protects.fids⟩
  unwritten := by cases hr <;> exact h.unwritten

theorem Spared.flushed (h : s.Spared g s₀) (hf : s.cached ≠ 0 → s.fresh = true) :
    (s.flushed g).Spared g s₀ := by
  have ht := h.turns.flushed hf
  rw [Wmgr.flushed] at ht ⊢
  split
  · exact h
  · rename_i h0
    have hs : (s.pageSubmitted g).Turns g s₀ :=
      h.turns.submit (hf h0) (w := ⟨s.fcIndex, _, _, _, some s.pgIndex, s.rot⟩) rfl rfl rfl rfl rfl rfl rfl
        rfl rfl
    have hp : (s.pageSubmitted g).Spared g s₀ := ⟨hs, h.holds.of_eq rfl rfl rfl, h.ahead.of_eq rfl rfl rfl rfl,
      ⟨h.protects.maps, h.protects.fids⟩, h.unwritten⟩
    exact hp.returned returned_taken

section Encode

variable {op : OpType} {r : JRec} {tok : Nat}

theorem EncodesTo.turns {done : Bool} (ht : s.EncodesTo g op r tok done s') (h : s.Turns g s₀)
    (hf : s.fresh = true) : s'.Turns g s₀ := by
  have he := h.encoded hf r tok
  cases ht with
  | part _ hh =>
    have hp : (s.partEncoded g op r tok).Turns g s₀ := he.of_eq rfl rfl rfl rfl rfl rfl fun _ hw => hw
    exact hp.headeredTo hf hh
  | @done _ m pend _ _ _ _ hh =>
    have hd : ({ (s.encoded g r tok).completed op r tok m with txnPending := pend } : Wmgr).Turns g s₀ := by
      refine he.of_eq rfl rfl rfl rfl rfl rfl fun w hw => ?_
      rcases hw with hw | hw
      · rcases List.mem_append.mp hw with hw | hw
        · exact Or.inl hw
        · exact Or.inr (by simpa using hw)
      · cases hw
    exact hd.headeredTo hf hh

theorem HeaderedTo.frame (h : s.HeaderedTo s') : s'.maps = s.maps ∧ s'.log = s.log ∧ s'.cur = s.cur ∧
    s'.rot = s.rot ∧ s'.fresh = s.fresh ∧ s'.pgCntr = s.pgCntr ∧ s'.pgOffset = s.pgOffset := by
  cases h <;> exact ⟨rfl, rfl, rfl, rfl, rfl, rfl, rfl⟩

theorem newest_concat (rid f : Nat) (w : Written) (hl : s'.log = s.log ++ [w]) :
    s'.newest rid f = if w.jrec.opType = .enqueue ∧ w.jrec.rid = rid ∧ w.fid = f then some w
      else s.newest rid f := by
  rw [newest, hl, List.reverse_append, List.reverse_singleton, List.singleton_append, List.find?_cons]
  split
  · rename_i h
    rw [if_pos (of_decide_eq_true h)]
  · rename_i h
    rw [if_neg (of_decide_eq_false h), newest]

/-- The record that is completed has not been overtaken by the ring. -/
theorem EncodesTo.holds {done : Bool} (ht : s.EncodesTo g op r tok done s') (h : s.Spared g s₀)
    (hc : ∀ w ∈ s.cur, w.tok = tok ∧ w.jrec = r) (hfid : s.headFid tok = s.curFid) :
    s'.Holds g s₀ := by
  cases ht with
  | part _ hh =>
    obtain ⟨h1, h2, -, h4, h5, -⟩ := hh.frame
    have hp : (s.partEncoded g op r tok).Holds g s₀ := h.holds.of_eq rfl rfl rfl
    exact hp.of_eq (by rw [h1]) h2 (entered_congr h4 h5)
  | @done _ m pend _ hm _ _ hh =>
    obtain ⟨h1, h2, -, h4, h5, -⟩ := hh.frame
    obtain ⟨hturn, hwf⟩ := h.turns.begins_add r tok
    have hj : ((s.cur.getD ⟨tok, r, s.owi, []⟩).add (s.nextPart g r tok)).jrec = r := by
      cases hs : s.cur with
      | none => rfl
      | some w => exact (hc w hs).2
    have hlog : s'.log = s.log ++ [(s.cur.getD ⟨tok, r, s.owi, []⟩).add (s.nextPart g r tok)] := by
      rw [h2]
      change s.log ++ (s.encoded g r tok).cur.toList = _
      rw [cur_encoded_eq]
      rfl
    have hent : s'.entered = s.entered := entered_congr h4 h5
    have hview : s'.maps.view = s.maps.view.apply (s.headFid tok) r := by
      rw [h1]
      exact Maps.view_complete _ _ hm
    have hold : ∀ {rid f : Nat}, s'.maps.view.Has rid f →
        ¬(r.opType = .enqueue ∧ r.rid = rid ∧ s.curFid = f) → s.maps.view.Has rid f := by
      intro rid f hh hn
      rw [hview] at hh
      refine (View.has_apply hh).resolve_right fun hk => hn ⟨hk.1, hk.2.1, ?_⟩
      rw [← hfid]
      exact hk.2.2
    constructor
    · intro rid f w hh hn
      rw [newest_concat rid f _ hlog, hj, hwf] at hn
      rw [hent]
      split at hn
      · obtain rfl := Option.some.inj hn
        rw [hturn]
        exact h.ahead.entered
      · exact h.holds.encoded rid f w (hold hh ‹_›) hn
    · intro rid f hh hn
      rw [newest_concat rid f _ hlog, hj, hwf] at hn
      rw [hent]
      split at hn
      · cases hn
      · exact h.holds.found rid f (hold hh ‹_›) hn

theorem encodeLen_pos (ho : s.pgOffset < g.pgDblks) (h : (s.toks tok).dblksWritten < r.recSizeDblks) :
    0 < s.encodeLen g r tok :=
  Nat.lt_min.mpr ⟨Nat.sub_pos_of_lt h, Nat.sub_pos_of_lt ho⟩

/-- Where the end of the record lies from the place of its next part, counted from the start of the file in
which it has begun, there are files left for it, or some file is in use. -/
def EndsAhead (g : Geom) (r : JRec) (tok : Nat) (s : Wmgr) : Prop :=
  s.pos g + (r.recSizeDblks - (s.toks tok).dblksWritten) ≤ (s.curTurn + g.numJfiles) * g.fileDblks ∨
    s.InUse g

instance decidableEndsAhead (r : JRec) (tok : Nat) : Decidable (s.EndsAhead g r tok) :=
  inferInstanceAs (Decidable (_ ∨ _))

def PosAhead (g : Geom) (s : Wmgr) : Prop :=
  s.pos g < (s.curTurn + g.numJfiles) * g.fileDblks ∨ s.InUse g

theorem EncodesTo.ahead {done : Bool} (ht : s.EncodesTo g op r tok done s') (h : s.Spared g s₀)
    (he : s.EndsAhead g r tok) : s'.Ahead g ∧ (done = false → s'.cur ≠ none ∧ s'.PosAhead g) := by
  cases ht with
  | part hlt hh =>
    obtain ⟨h1, -, h3, h4, h5, h6, h7⟩ := hh.frame
    have hcur : s'.cur = some ((s.cur.getD ⟨tok, r, s.owi, []⟩).add (s.nextPart g r tok)) :=
      h3.trans (cur_encoded_eq g r tok s)
    have hturn : s'.curTurn = s.curTurn := by
      rw [curTurn, hcur]
      exact (h.turns.begins_add r tok).1
    have hent : s'.entered = s.entered := entered_congr h4 h5
    have hcnt : s'.maps.enqCnt = s.maps.enqCnt := by
      rw [h1]
      rfl
    have hpos : s'.pos g = s.pos g + s.encodeLen g r tok := by
      rw [pos, h4, h6, h7]
      exact (Nat.add_assoc _ _ _).symm
    obtain ⟨h8, h9, h10⟩ := h.ahead
    refine ⟨⟨by rwa [hent, hturn], by rwa [hent, hturn, hcnt], ?_⟩, fun _ => ⟨by rw [hcur]; rintro ⟨⟩, ?_⟩⟩
    · rw [hturn, h4, InUse, hcnt]
      exact h10
    · rw [PosAhead, hturn, hpos, InUse, hcnt]
      refine he.imp_left fun hle => ?_
      have hlen : (s.toks tok).dblksWritten + s.encodeLen g r tok < r.recSizeDblks := hlt
      omega
  | done _ _ _ _ hh => exact ⟨ahead_of_none (hh.frame.2.2.1), by rintro ⟨⟩⟩

theorem EncodesTo.unwritten {done : Bool} (ht : s.EncodesTo g op r tok done s') (h : s.Unwritten) :
    s'.Unwritten := by
  have he : ∀ i ≠ tok, ((s.encoded g r tok).toks i) = s.toks i := by
    intro i hi
    simp [Wmgr.encoded, hi]
  have key : ∀ u : Wmgr, (∀ i ≠ tok, u.toks i = s.toks i) → (u.toks tok).wstate ≠ .none → u.HeaderedTo s' →
      s'.Unwritten := by
    intro u hu hn hh i hi
    rw [hh.same.2.2] at hi ⊢
    by_cases hit : i = tok
    · subst hit
      exact (hn hi).elim
    · rw [hu i hit] at hi ⊢
      exact h i hi
  cases ht with
  | part _ hh =>
    refine key _ (fun i hi => ?_) ?_ hh
    · simp [Wmgr.partEncoded, hi, he i hi]
    · simp only [Wmgr.partEncoded, Function.update_self]
      cases op <;> rintro ⟨⟩
  | done _ _ _ _ hh =>
    refine key _ (fun i hi => ?_) ?_ hh
    · simp [Wmgr.completed, hi, he i hi]
    · simp only [Wmgr.completed, Function.update_self]
      cases op <;> rintro ⟨⟩

theorem EncodesTo.spared {done : Bool} (ht : s.EncodesTo g op r tok done s') (h : s.Spared g s₀)
    (hf : s.fresh = true) (hc : ∀ w ∈ s.cur, w.tok = tok ∧ w.jrec = r) (hfid : s.headFid tok = s.curFid)
    (he : s.EndsAhead g r tok) : s'.Spared g s₀ where
  turns := ht.turns h.turns hf
  holds := ht.holds h hc hfid
  ahead := (ht.ahead h he).1
  protects := by
    have hx : s.fcIndex < g.numJfiles := h.turns.index ▸ Nat.mod_lt _ g.numJfiles_pos
    exact (ht.protects (Guards.start hx h.protects)).protects
  unwritten := ht.unwritten h.unwritten

end Encode

end Wmgr

end RhmStore
