import RhmStore.Writer.Steady

/-! # The accounts of outstanding writes are exact -/

namespace RhmStore

open Finset

theorem DataTok.Returned.wstate_of_submOp {t t' : DataTok} (h : t.Returned t')
    (hs : t.wstate.submOp = none) : t'.wstate = t.wstate := by
  rcases h.wstate with hw | ⟨op, ho, -⟩
  · exact hw
  · rw [hs] at ho
    cases ho

structure Call.Writes (c : Call) (r : JRec) (t : DataTok) : Prop where
  jrec : ∃ t', r = c.jrec t'
  xid : t.xid = c.xid

theorem Call.Writes.endsAs {c : Call} {r : JRec} {t : DataTok} (h : c.Writes r t) :
    Wmgr.EndsAs c.op r t := by
  obtain ⟨⟨t', rfl⟩, hx⟩ := h
  rw [Call.xid.eq_def] at hx
  cases c with
  | enqueue => exact ⟨(by rintro ⟨⟩), by rintro _ ⟨⟩⟩
  | dequeue => exact ⟨(by rintro ⟨⟩), by rintro _ ⟨⟩⟩
  | abort tok xid =>
    refine ⟨fun _ => (by rintro ⟨⟩), fun y hy => ?_⟩
    obtain rfl := Option.some.inj hy
    exact hx
  | commit tok xid =>
    refine ⟨fun _ => (by rintro ⟨⟩), fun y hy => ?_⟩
    obtain rfl := Option.some.inj hy
    exact hx

namespace Sys

variable {g : Geom} {s s' : Sys} {c : Call}

/-- The token of the record that is written in part is in its state, with the xid of its call. -/
def Owned (s : Sys) : Prop :=
  ∀ c, s.part = some c → (s.w.toks c.tok).wstate = c.op.part ∧ (s.w.toks c.tok).xid = c.xid

def Own (s : Sys) (c : Call) : Prop :=
  s.part = some c ∨ (s.w.toks c.tok).wstate.isPart = false

def AtCtl (s : Sys) : Prop :=
  match s.ctl with
  | .idle => s.Owned
  | .encode c r _ => (s.w.pages s.w.pgIndex).state = .inUse ∧ c.Writes r (s.w.toks c.tok) ∧
      (s.w.toks c.tok).wstate.submOp = none
  | .check c r _ done => (s.w.pages s.w.pgIndex).state = .inUse ∧ c.Writes r (s.w.toks c.tok) ∧
      (s.w.toks c.tok).wstate = if done then c.op.subm else c.op.part
  | .pageWait c => s.Owned ∧ s.Own c ∧ Wmgr.Free c s.w ∧
      ((s.w.pages s.w.pgIndex).state = .aioPending ∨ (s.w.pages s.w.pgIndex).state = .unused)
  | .fileWait c => s.Owned ∧ s.Own c
  | .failed => True

/-- All accounts are right where the journal stands. -/
structure Steady (g : Geom) (s : Sys) : Prop where
  w : s.w.Steady g
  ctl : s.AtCtl

/-- Whatever is refused, records in part stay as they are. -/
theorem Owned.refused {I : Wmgr → Prop} {w : Wmgr} (ho : s.Owned) (hc : s.Own c)
    (hw : Wmgr.Refused c I s.w w) :
    (∀ c', s.part = some c' → (w.toks c'.tok).wstate = c'.op.part ∧ (w.toks c'.tok).xid = c'.xid) ∧
      (s.part = some c ∨ (w.toks c.tok).wstate.isPart = false) := by
  rcases hw.toks with htoks | ⟨-, t, htoks, hst, -, -, hx⟩
  · rw [htoks]
    exact ⟨ho, hc⟩
  · rw [htoks]
    refine ⟨fun c' hp => ?_, ?_⟩
    · obtain ⟨hpart, hxid⟩ := ho c' hp
      by_cases he : c'.tok = c.tok
      · rw [he, Function.update_self]
        rcases hc with hc | hc
        · rw [hc] at hp
          obtain rfl := Option.some.inj hp
          exact ⟨hst.trans hpart, hx⟩
        · rw [← he, hpart, c'.op.part_isPart] at hc
          cases hc
      · rw [Function.update_of_ne he]
        exact ⟨hpart, hxid⟩
    · rw [Function.update_self, hst]
      exact hc

theorem EntersTo.steady (ht : s.EntersTo g c s') (h : s.w.Steady g) (ho : s.Owned) (hc : s.Own c)
    (hf : Wmgr.Free c s.w) : s'.Steady g := by
  have hent := Wmgr.wp_enter (g := g) (c := c) Wmgr.unentered_steady ⟨h, hf⟩
  cases ht with
  | encode he =>
    have ha := wp_of_ok hent he
    refine ⟨ha.inv.1, ha.passed.page, ⟨⟨_, ha.jrec⟩, ?_⟩, Wmgr.submOp_of_takes ha.passed.takes ha.inv.2⟩
    rename_i r cont w
    cases cont with
    | false => exact (ha.fresh rfl).2.2.2.1
    | true =>
      obtain ⟨-, hst, htoks, -⟩ := ha.goesOn rfl
      have hpart : (s.w.toks c.tok).wstate.isPart = true := hst ▸ c.op.part_isPart
      rcases hc with hc | hc
      · simp only [htoks]
        exact (ho c hc).2
      · rw [hc] at hpart
        cases hpart
  | wait he =>
    have ha := wp_of_ok hent he
    obtain ⟨howned, hown⟩ := ho.refused hc ha.1
    exact ⟨ha.1.inv.1, howned, hown, ha.1.inv.2, Or.inl (ha.2 rfl)⟩
  | done he =>
    have ha := wp_of_ok hent he
    exact ⟨ha.1.inv.1, (ho.refused hc ha.1).1⟩
  | assert he => exact ⟨(wp_of_error hent he).inv.1, trivial⟩
  | refused he =>
    have ha := wp_of_error hent he
    exact ⟨ha.inv.1, (ho.refused hc ha).1⟩

/-- Completions leave records in part as they are. -/
theorem Owned.returned {w : Wmgr} (ho : s.Owned)
    (hr : ∀ i, (s.w.toks i).Returned (w.toks i)) :
    ∀ c, s.part = some c → (w.toks c.tok).wstate = c.op.part ∧ (w.toks c.tok).xid = c.xid := by
  intro c hp
  obtain ⟨hpart, hxid⟩ := ho c hp
  have hsame := (hr c.tok).wstate_of_submOp (hpart ▸ c.op.part_submOp)
  exact ⟨hsame.trans hpart, (hr c.tok).xid.trans hxid⟩

theorem released_same (c : Call) (w : Wmgr) : (released c w).toks = w.toks ∧
    (released c w).pages = w.pages ∧ (released c w).pgIndex = w.pgIndex := by
  rw [released]
  split <;> exact ⟨rfl, rfl, rfl⟩

theorem owned_handle (res : Iores) {w : Wmgr}
    (hp : (w.toks c.tok).wstate.isPart = true → (w.toks c.tok).wstate = c.op.part)
    (hx : (w.toks c.tok).xid = c.xid) : (handle c res w).Owned ∧ (handle c res w).Own c := by
  have hw : (handle c res w).w = w ∧
      (handle c res w).part = if (w.toks c.tok).wstate.isPart then some c else none := by
    cases res <;> exact ⟨rfl, rfl⟩
  rw [Owned, Own, hw.1, hw.2]
  split
  · rename_i h
    refine ⟨fun c' hc' => ?_, Or.inl rfl⟩
    obtain rfl := Option.some.inj hc'
    exact ⟨hp h, hx⟩
  · rename_i h
    exact ⟨by rintro _ ⟨⟩, Or.inr (Bool.eq_false_iff.mpr h)⟩

/-- A page fits into the file, and the end of a transaction into the maps: neither `fcntl` nor the maps
throw in the step. -/
def Clear (g : Geom) (s : Sys) : Act → Prop
  | .step _ => match s.ctl with
    | .encode c r _ => r.endXid ≠ none → r.recSizeDblks ≤ s.w.dblksAfter g r c.tok →
        (∃ m, Maps.complete (s.w.headFid c.tok) r s.w.maps = .ok () m) ∧
          ∀ xid ∈ r.endXid, xid ∉ s.w.txnPending
    | .check _ _ _ _ => g.pgDblks ≤ s.w.pgOffset → s.w.Room g
    | _ => True
  | .flush _ => s.w.cached ≠ 0 → s.w.Room g
  | _ => True

instance : (a : Act) → Decidable (s.Clear g a)
  | .step _ => match hc : s.ctl with
    | .encode c r _ => decidable_of_iff (r.endXid ≠ none → r.recSizeDblks ≤ s.w.dblksAfter g r c.tok →
        (∃ m, Maps.complete (s.w.headFid c.tok) r s.w.maps = .ok () m) ∧
          ∀ xid ∈ r.endXid, xid ∉ s.w.txnPending) (by simp only [Clear, hc])
    | .check _ _ _ _ => decidable_of_iff (g.pgDblks ≤ s.w.pgOffset → s.w.Room g)
        (by simp only [Clear, hc])
    | .idle => isTrue (by simp only [Clear, hc])
    | .pageWait _ => isTrue (by simp only [Clear, hc])
    | .fileWait _ => isTrue (by simp only [Clear, hc])
    | .failed => isTrue (by simp only [Clear, hc])
  | .flush _ => inferInstanceAs (Decidable (s.w.cached ≠ 0 → s.w.Room g))
  | .token _ _ => isTrue trivial
  | .call _ => isTrue trivial
  | .collect _ => isTrue trivial

/-- All accounts stay right but behind an exception, and behind the ones that `Clear` leaves. -/
theorem ProceedsTo.steady {evs : List Nat} (ht : s.ProceedsTo g evs s') (h : s.Steady g)
    (hc : s'.ctl = .failed → s.Clear g (.step evs)) : s'.Steady g := by
  obtain ⟨hw, hctl⟩ := h
  cases ht with
  | encoded hs he =>
    simp only [AtCtl, hs] at hctl
    obtain ⟨hp, hwr, hsub⟩ := hctl
    obtain ⟨h1, h2, h3, h4⟩ :=
      (wp_of_ok (Wmgr.wp_encodePart_to _) he).steady hw hp hsub hwr.endsAs
    exact ⟨h1, h2, ⟨hwr.jrec, h3.trans hwr.xid⟩, h4⟩
  | encodeFailed hs he =>
    simp only [AtCtl, hs] at hctl
    obtain ⟨hp, hwr, hsub⟩ := hctl
    replace hc := hc rfl
    simp only [Clear, hs] at hc
    exact ⟨(wp_of_error (Wmgr.wp_encodePart_to _) he).steady hw hp hsub hwr.endsAs hc, trivial⟩
  | checked hs he =>
    simp only [AtCtl, hs] at hctl
    obtain ⟨hp, hwr, hsub⟩ := hctl
    obtain ⟨h1, h2, h3, -⟩ := (wp_of_ok (Wmgr.wp_flushCheck_steady hw _ _ evs) he).steady hw hp
    obtain ⟨hd, hpage⟩ := h3 rfl
    rename_i c r cont done cont' res w
    subst hd
    have hnone : (s.w.toks c.tok).wstate.submOp = none := hsub ▸ c.op.part_submOp
    refine ⟨h1, hpage, ⟨hwr.jrec, (h2 c.tok).xid.trans hwr.xid⟩, ?_⟩
    simp only [(h2 c.tok).wstate_of_submOp hnone]
    exact hnone
  | left hs he =>
    simp only [AtCtl, hs] at hctl
    obtain ⟨hp, hwr, hsub⟩ := hctl
    obtain ⟨h1, h2, -, h4⟩ := (wp_of_ok (Wmgr.wp_flushCheck_steady hw _ _ evs) he).steady hw hp
    rename_i c r cont done cont' res w
    obtain ⟨htoks, hpages, hindex⟩ := released_same c w
    have hst : (released c w).Steady g := by
      rw [released]
      split
      · exact h1.of_eq rfl rfl rfl rfl rfl rfl rfl rfl rfl rfl
      · exact h1
    have hret := h2 c.tok
    rw [← htoks] at hret
    have hpart : ((released c w).toks c.tok).wstate.isPart = true →
        ((released c w).toks c.tok).wstate = c.op.part := by
      intro h
      rw [hret.part] at h
      cases done with
      | true =>
        rw [hsub, if_pos rfl, c.op.subm_isPart] at h
        cases h
      | false => exact (hret.wstate_of_submOp (hsub ▸ c.op.part_submOp)).trans hsub
    obtain ⟨howned, hown⟩ := owned_handle res hpart (hret.xid.trans hwr.xid)
    cases res with
    | pageAioWait =>
      obtain ⟨rfl, hpend⟩ := h4 rfl
      refine ⟨hst, howned, hown, fun _ => ?_, Or.inl ?_⟩
      · change ((released c w).toks c.tok).wstate.submOp = none
        have hnone : (s.w.toks c.tok).wstate.submOp = none := hsub ▸ c.op.part_submOp
        rw [hret.wstate_of_submOp hnone]
        exact hnone
      · simp only [handle, hpages, hindex, hpend]
    | fileAioWait => exact ⟨hst, howned, hown⟩
    | success => exact ⟨hst, howned⟩
    | full => exact ⟨hst, howned⟩
    | busy => exact ⟨hst, howned⟩
    | enqCapThresh => exact ⟨hst, howned⟩
    | notImpl => exact ⟨hst, howned⟩
  | checkFailed hs he =>
    replace hc := hc rfl
    simp only [Clear, hs] at hc
    obtain ⟨hf, hr, -⟩ := wp_of_error (Wmgr.wp_flushCheck_steady hw _ _ evs) he
    exact (hr (hc hf)).elim
  | pageFree hs hp he =>
    simp only [AtCtl, hs] at hctl
    obtain ⟨ho, hown, hfree, -⟩ := hctl
    exact he.steady hw ho hown hfree
  | fileFree hs ha hr hp he =>
    simp only [AtCtl, hs] at hctl
    obtain ⟨ho, hown⟩ := hctl
    have hto := wp_of_ok (Wmgr.wp_wrReset_to fun _ _ => False) hr
    rename_i c b w
    have htoks : w.toks = s.w.toks := by cases hto <;> rfl
    have hfree : Wmgr.Free c w := fun _ => WState.submOp_of_isPart hp
    refine he.steady (hw.resetTo hto) ?_ ?_ hfree
    · intro c' hc'
      simp only [htoks]
      exact ho c' hc'
    · rcases hown with hown | hown
      · exact Or.inl hown
      · rw [htoks, hown] at hp
        cases hp
  | fileDone hs ha hr hp =>
    simp only [AtCtl, hs] at hctl
    have hto := wp_of_ok (Wmgr.wp_wrReset_to fun _ _ => False) hr
    rename_i c b w
    have htoks : w.toks = s.w.toks := by cases hto <;> rfl
    refine ⟨hw.resetTo hto, ?_⟩
    intro c' hc'
    simp only [htoks]
    exact hctl.1 c' hc'
  | waits hs he =>
    obtain ⟨h1, h2, h3, -⟩ := wp_of_ok (Wmgr.wp_getEvents_steady hw evs) he
    rename_i c w
    have hown : s.Own c → s.part = some c ∨ (w.toks c.tok).wstate.isPart = false := by
      intro ho
      rw [(h2.toks c.tok).part]
      exact ho
    refine ⟨h1, ?_⟩
    rcases hs with ⟨hs, hp⟩ | ⟨hs, -⟩
    · simp only [AtCtl, hs] at hctl ⊢
      obtain ⟨ho, hc, hfree, hpage⟩ := hctl
      refine ⟨ho.returned h2.toks, hown hc, fun hop => ?_, ?_⟩
      · rw [(h2.toks c.tok).wstate_of_submOp (hfree hop)]
        exact hfree hop
      · rw [h2.pgIndex]
        rcases h3 s.w.pgIndex with hst | hst
        · rw [hst]
          exact hpage
        · exact Or.inr hst
    · simp only [AtCtl, hs] at hctl ⊢
      exact ⟨hctl.1.returned h2.toks, hown hctl.2⟩
  | waitFailed hs he => exact (wp_of_error (Wmgr.wp_getEvents_steady hw evs) he).elim

/-- A user's call owns what is written in part of its token, and ends no transaction with a token in use. -/
theorem Steady.of_given (h : s.Steady g) (hi : s.ctl = .idle) (hg : s.given c = true) :
    s.Own c ∧ Wmgr.Free c s.w := by
  obtain ⟨hw, hctl⟩ := h
  simp only [AtCtl, hi] at hctl
  simp only [given, free, Bool.or_eq_true, Bool.and_eq_true, decide_eq_true_eq,
    Bool.not_eq_true'] at hg
  refine ⟨hg.imp_right And.left, fun hop => ?_⟩
  rcases hg with hg | ⟨-, hg⟩
  · rw [(hctl c hg).1]
    exact c.op.part_submOp
  · by_contra hn
    apply hw.awaits.subm c.tok hn
    rcases hg with (hg | hg) | hg
    · rcases hop with hop | hop <;> rw [hg] at hop <;> cases hop
    · rcases hop with hop | hop <;> rw [hg] at hop <;> cases hop
    · exact hg.1

theorem StepsTo.steady {a : Act} (ht : s.StepsTo g a s') (h : s.Steady g)
    (hc : s'.ctl = .failed → s.Clear g a) : s'.Steady g := by
  cases ht with
  | token hi hf hp =>
    obtain ⟨hw, hctl⟩ := h
    simp only [AtCtl, hi] at hctl
    simp only [free, Bool.and_eq_true, decide_eq_true_eq, Bool.not_eq_true'] at hf
    simp only [pristine, Bool.and_eq_true, decide_eq_true_eq, Bool.or_eq_true] at hp
    rename_i tok t
    have hsub : (s.w.toks tok).wstate.submOp = none := by
      by_contra hn
      exact hw.awaits.subm tok hn hf.1
    have hnew : t.wstate.submOp = none ∧ t.wstate.isPart = false := by
      rcases hp.2 with hp | hp <;> rw [hp] <;> exact ⟨rfl, rfl⟩
    refine ⟨⟨hw.toAccounted.setTok hsub (hp.1.1.trans hf.1.symm) hnew.1 fun h0 => (h0 hp.1.1).elim,
      hw.page, hw.sound⟩, ?_⟩
    simp only [AtCtl, hi]
    intro c hpart
    obtain ⟨hst, hx⟩ := hctl c hpart
    have hct : c.tok ≠ tok := by
      rintro rfl
      rw [hst, c.op.part_isPart] at hf
      cases hf.2
    simp only [Function.update_of_ne hct]
    exact ⟨hst, hx⟩
  | call hi hg he =>
    obtain ⟨hown, hfree⟩ := h.of_given hi hg
    have hctl := h.ctl
    simp only [AtCtl, hi] at hctl
    exact he.steady h.w hctl hown hfree
  | step he => exact he.steady h hc
  | collected hi he =>
    obtain ⟨h1, h2, -⟩ := wp_of_ok (Wmgr.wp_getEvents_steady h.w _) he
    refine ⟨h1, ?_⟩
    have hctl := h.ctl
    rcases hi with hi | hi
    · simp only [AtCtl, hi] at hctl ⊢
      exact hctl.returned h2.toks
    · simp only [AtCtl, hi]
  | collectFailed hi he => exact (wp_of_error (Wmgr.wp_getEvents_steady h.w _) he).elim
  | flushed hi he =>
    obtain ⟨t, ht, hto⟩ := wp_of_ok (Wmgr.wp_flush_steady h.w _) he
    refine ⟨ht.steady.taken.turnsTo hto, ?_⟩
    have hctl := h.ctl
    rcases hi with hi | hi
    · simp only [AtCtl, hi] at hctl ⊢
      exact hctl.returned (hto.same.2.2 ▸ ht.toks)
    · simp only [AtCtl, hi]
  | flushFailed hi he =>
    obtain ⟨h0, hr, -⟩ := wp_of_error (Wmgr.wp_flush_steady h.w _) he
    exact (hr (hc rfl h0)).elim

section Starts

private theorem steady_start {w : Wmgr} (hi : w.pgIndex = 0) (hf : w.fcIndex < g.numJfiles)
    (hp : w.pages = (Wmgr.init g).pages) (hc : ∀ fid, w.fcntls fid = ⟨(w.fcntls fid).wrSubm,
      (w.fcntls fid).wrSubm, 0, false⟩) (he : w.aioEvtRem = 0) (hq : w.pending = [])
    (ht : w.toks = (Wmgr.init g).toks) (hd : w.cached = 0) : w.Steady g := by
  have hpage : ∀ pg, (w.pages pg).state ≠ .aioPending ∧ (w.pages pg).state ≠ .aioComplete ∧
      (w.pages pg).pdtokl = [] := by
    intro pg
    rw [hp]
    by_cases h0 : pg = 0
    · subst h0
      simp [Wmgr.init]
    · simp [Wmgr.init, h0]
  have hfc : ∀ fid, (w.fcntls fid).aioCnt = 0 ∧ (w.fcntls fid).out = 0 ∧
      (w.fcntls fid).wrSubm = (w.fcntls fid).wrCmpl := by
    intro fid
    rw [hc fid]
    exact ⟨rfl, rfl, rfl⟩
  have hzero : ∀ v : PageCb → Nat, (∀ p, p.state ≠ .aioPending → v p = 0) →
      ∑ j ∈ range g.numPages, v (w.pages j) = 0 := by
    intro v hv
    apply (sum_range_eq_zero_iff w.pages v).mpr
    exact fun j _ => hv _ (hpage j).1
  refine ⟨⟨⟨?_, hf, ?_, ?_, ?_, ?_, ?_, ?_, ?_⟩, ?_⟩, fun h => (h hd).elim, fun pg => (hpage pg).2.1⟩
  · rw [hi]
    exact g.numPages_pos
  · exact fun pg h => ((hpage pg).1 h).elim
  · intro fid h
    rw [hc fid] at h
    cases h
  · have hs : ∑ j ∈ range g.numJfiles, (w.fcntls j).out = 0 :=
      (sum_range_eq_zero_iff w.fcntls Fcntl.out).mpr fun j _ => (hfc j).2.1
    rw [he, hs, hzero _ fun p hp => by simp [PageCb.out, hp]]
  · intro fid
    rw [hzero _ fun p hp => by simp [PageCb.outTo, hp], (hfc fid).1, (hfc fid).2.1]
  · intro fid
    rw [hzero _ fun p hp => by simp [PageCb.dblksTo, hp], (hfc fid).2.1]
    exact (hfc fid).2.2
  · intro x
    rw [Wmgr.seated, hq]
    cases x with
    | inl pg => simp [Wmgr.seatTaken, PageCb.out, (hpage pg).1]
    | inr fid => simp [Wmgr.seatTaken, (hfc fid).2.1]
  · intro i h
    rw [hq] at h
    cases h
  · constructor <;> rw [ht]
    · intro tok
      simp [Wmgr.queued, (hpage _).2.2, Wmgr.init]
    · exact fun _ h => (h rfl).elim
    · exact fun _ h => (h rfl).elim
    · intro tok h
      cases h
    · intro tok tok' h
      cases h

theorem Start.steady (h : s.Start g) : s.Steady g := by
  have howned : ∀ w, (⟨w, .idle, none⟩ : Sys).AtCtl := by
    intro w c hc
    cases hc
  cases h with
  | init => exact ⟨steady_start rfl g.numJfiles_pos rfl (fun _ => rfl) rfl rfl rfl rfl, howned _⟩
  | recovered rd hrd =>
    have hr : (Wmgr.resumed g rd).Steady g :=
      steady_start rfl hrd rfl (fun _ => rfl) rfl rfl rfl rfl
    refine ⟨?_, howned _⟩
    change (Wmgr.recovered g rd).Steady g
    rcases Wmgr.recovered_to g rd with he | ⟨res, hto⟩
    · rw [he]
      exact hr
    · exact hr.rotatesTo hto

end Starts

end Sys

namespace Wmgr

variable {g : Geom} {s : Wmgr}

def pendingPages (g : Geom) (s : Wmgr) : Finset Nat :=
  (range g.numPages).filter fun pg => (s.pages pg).state = .aioPending

def pagesTo (g : Geom) (s : Wmgr) (fid : Nat) : Finset Nat :=
  (s.pendingPages g).filter fun pg => (s.pages pg).wfh = fid

def headersOut (g : Geom) (s : Wmgr) : Finset Nat :=
  (range g.numJfiles).filter fun fid => (s.fcntls fid).wrFhdrAioOutstanding = true

/-- The counters of outstanding writes are what is outstanding. -/
structure Exact (g : Geom) (s : Wmgr) : Prop where
  evtRem : s.aioEvtRem = #(s.pendingPages g) + #(s.headersOut g)
  aioCnt : ∀ fid < g.numJfiles,
    (s.fcntls fid).aioCnt = #(s.pagesTo g fid) + if fid ∈ s.headersOut g then 1 else 0
  cmpl : ∀ fid < g.numJfiles, (s.fcntls fid).wrCmpl ≤ (s.fcntls fid).wrSubm
  dblks : ∀ fid < g.numJfiles, (s.fcntls fid).wrSubm - (s.fcntls fid).wrCmpl =
    (∑ pg ∈ s.pagesTo g fid, (s.pages pg).wdblks) +
      if fid ∈ s.headersOut g then jrnlSblkSize else 0

theorem Booked.exact (h : s.Booked g) : s.Exact g := by
  have hpages : ∀ fid (v : PageCb → Nat), ∑ pg ∈ s.pagesTo g fid, v (s.pages pg) =
      ∑ pg ∈ range g.numPages,
        if (s.pages pg).state = .aioPending ∧ (s.pages pg).wfh = fid then v (s.pages pg) else 0 := by
    intro fid v
    rw [pagesTo, pendingPages, filter_filter, sum_filter]
  have hcard : ∀ fid, #(s.pagesTo g fid) = ∑ pg ∈ range g.numPages, (s.pages pg).outTo fid := by
    intro fid
    rw [card_eq_sum_ones]
    exact hpages fid fun _ => 1
  have hout : ∀ fid < g.numJfiles, (s.fcntls fid).out = if fid ∈ s.headersOut g then 1 else 0 := by
    intro fid hf
    simp [headersOut, hf, Fcntl.out]
  constructor
  · rw [h.evtRem, pendingPages, headersOut, card_eq_sum_ones, card_eq_sum_ones, sum_filter, sum_filter]
    rfl
  · intro fid hf
    rw [h.aioCnt fid, hcard, hout fid hf]
  · intro fid _
    have := h.subm fid
    omega
  · intro fid hf
    have hs := h.subm fid
    rw [hout fid hf, mul_ite, mul_one, Nat.mul_zero] at hs
    rw [hpages fid fun p => p.wdblks]
    change _ = (∑ pg ∈ range g.numPages, (s.pages pg).dblksTo fid) + _
    omega

theorem Booked.event_of_page (h : s.Booked g) {pg : Nat} (hp : (s.pages pg).state = .aioPending) :
    ∃ i ∈ s.pending, ∃ w, s.subm[i]? = some w ∧ w.page = some pg ∧ w.fid = (s.pages pg).wfh := by
  have hs := h.seats (.inl pg)
  rw [seatTaken, PageCb.out, if_pos hp, seated] at hs
  obtain ⟨i, hi, hw⟩ := List.countP_pos_iff.mp (hs ▸ Nat.one_pos)
  obtain ⟨w, hw', hpg⟩ := h.events i hi
  have hpage : w.page = some pg := by
    rw [hw'] at hw
    cases hwp : w.page with
    | some pg' => simpa [Write.seat, hwp] using hw
    | none => simp [Write.seat, hwp] at hw
  exact ⟨i, hi, w, hw', hpage, (hpg pg hpage).1.symm⟩

theorem Booked.event_of_file (h : s.Booked g) {fid : Nat} (ha : (s.fcntls fid).aioCnt ≠ 0) :
    ∃ i ∈ s.pending, ∃ w, s.subm[i]? = some w ∧ w.fid = fid := by
  have hc := h.aioCnt fid
  by_cases ho : (s.fcntls fid).out = 0
  · rw [ho] at hc
    have hsum : ∑ j ∈ range g.numPages, (s.pages j).outTo fid ≠ 0 := by omega
    rw [Ne, sum_range_eq_zero_iff s.pages (PageCb.outTo fid)] at hsum
    push Not at hsum
    obtain ⟨j, -, hj⟩ := hsum
    have hst : (s.pages j).state = .aioPending ∧ (s.pages j).wfh = fid := by
      by_contra hn
      exact hj (if_neg hn)
    obtain ⟨i, hi, w, hw, -, hf⟩ := h.event_of_page hst.1
    exact ⟨i, hi, w, hw, hf.trans hst.2⟩
  · have hs := h.seats (.inr fid)
    rw [seatTaken] at hs
    obtain ⟨i, hi, hw⟩ := List.countP_pos_iff.mp (Nat.pos_of_ne_zero (hs ▸ ho))
    obtain ⟨w, hw', -⟩ := h.events i hi
    refine ⟨i, hi, w, hw', ?_⟩
    rw [hw'] at hw
    cases hwp : w.page with
    | some pg' => simp [Write.seat, hwp] at hw
    | none => simpa [Write.seat, hwp] using hw

end Wmgr

namespace Sys

variable {g : Geom} {s s' : Sys}

/-- The accounts are exact, nothing throws in them, and what a call waits for is outstanding. -/
structure Exact (g : Geom) (s : Sys) : Prop where
  counts : s.w.Exact g
  collect : ∀ evs, ∃ w, Wmgr.getEvents evs s.w = .ok () w
  flush : ∀ evs, s.Clear g (.flush evs) → ∃ res w, Wmgr.flush g evs s.w = .ok res w
  check : ∀ c r cont done evs, s.ctl = .check c r cont done → s.Clear g (.step evs) →
    ∃ res w, Wmgr.flushCheck g cont done evs s.w = .ok res w
  pageWait : ∀ c, s.ctl = .pageWait c → (s.w.pages s.w.pgIndex).state ≠ .unused →
    ∃ i ∈ s.w.pending, ∃ w, s.w.subm[i]? = some w ∧ w.page = some s.w.pgIndex
  fileWait : ∀ c, s.ctl = .fileWait c → (s.w.fcntls s.w.fcIndex).aioCnt ≠ 0 →
    ∃ i ∈ s.w.pending, ∃ w, s.w.subm[i]? = some w ∧ w.fid = s.w.fcIndex

theorem Steady.exact (h : s.Steady g) : s.Exact g := by
  constructor
  · exact h.w.toBooked.exact
  · intro evs
    obtain ⟨_, w, hw⟩ := ok_of_wp (Wmgr.wp_getEvents_steady h.w evs)
    exact ⟨w, hw⟩
  · intro evs hc
    exact ok_of_wp (wp_mono (Wmgr.wp_flush_steady h.w evs) (fun _ _ h => h) fun _ _ he => he.2.1 (hc he.1))
  · intro c r cont done evs hctl hc
    simp only [Clear, hctl] at hc
    exact ok_of_wp (wp_mono (Wmgr.wp_flushCheck_steady h.w cont done evs) (fun _ _ h => h)
      fun _ _ he => he.2.1 (hc he.1))
  · intro c hctl hp
    have hs := h.ctl
    simp only [AtCtl, hctl] at hs
    obtain ⟨i, hi, w, hw, hpage, -⟩ := h.w.event_of_page (hs.2.2.2.resolve_right hp)
    exact ⟨i, hi, w, hw, hpage⟩
  · intro c _ ha
    exact h.w.event_of_file ha

theorem run_exact (hs : s.Start g) {acts : List Act} (hc : s.Along g (Clear g) acts)
    (hr : s.run g acts = some s') : s'.Exact g := by
  apply Steady.exact
  apply run_preserves _ hs.steady hc hr
  intro t a u ht ha hu
  exact hu.steady ht fun _ => ha

/-- The default write pages, in four files of two pages each. -/
def fourFiles : Geom := ⟨4, 128, 64, 32, by decide, by decide, by decide, by decide⟩

/-- A record of a transaction and its commit are written together; header and page return in reverse. -/
def commitRun : List Act :=
  [.call (.enqueue 0 100 100 [1] false false), .step [], .step [], .call (.commit 1 [1]), .step [], .step [],
    .flush [], .collect [1, 0]]

theorem commitRun_exact : ∃ s, (init fourFiles).run fourFiles commitRun = some s ∧ s.Exact fourFiles := by
  have hc : (init fourFiles).Along fourFiles (Clear fourFiles) commitRun := by decide +kernel
  have hr : ((init fourFiles).run fourFiles commitRun).isSome := by decide +kernel
  obtain ⟨s, hs⟩ := Option.isSome_iff_exists.mp hr
  exact ⟨s, hs, run_exact .init hc hs⟩

/-- A record two dblks short of the ring is flushed while the header of file 0, of all its writes, has not
returned, so the ring turns onto a file that is not reset. The write of a commit there is not counted,
but it returns. -/
def lapRun : List Act :=
  .call (.enqueue 0 261844 261844 [] false false) :: (List.replicate 16 (.step (List.range' 1 11)) ++
    [.flush [11], .call (.commit 1 [1]), .step [], .step [], .flush [], .collect [12]])

theorem lapRun_not_exact : ¬ ∀ (g : Geom) (s s' : Sys) (acts : List Act), s.Start g →
    s.run g acts = some s' → s'.Exact g := by
  intro h
  have hr : ((init fourFiles).run fourFiles lapRun).map (fun s => (s.w.aioEvtRem,
      #(s.w.pendingPages fourFiles), #(s.w.headersOut fourFiles))) = some (0, 0, 1) := by
    decide +kernel
  obtain ⟨s, hs, he⟩ := Option.map_eq_some_iff.mp hr
  have hx := (h fourFiles _ s lapRun .init hs).counts.evtRem
  simp only [Prod.mk.injEq] at he
  omega

end Sys

end RhmStore
