import RhmStore.Log.Protected
import RhmStore.Writer.Exact

/-! # A journal in use counts the records that each file protects -/

namespace RhmStore

structure View.NoneIn (f : Nat) (v : View) : Prop where
  enq : ∀ r d, v.enq r = some d → d.pfid ≠ f
  opn : ∀ x td, td ∈ v.opn x → td.enqFlag = true → td.pfid ≠ f

theorem Maps.Protected.noneIn {n : Nat} {m : Maps} (h : m.Protected n) {f : Nat} (hf : f < n)
    (h0 : m.enqCnt.getD f 0 = 0) : m.view.NoneIn f := by
  have hc := (Maps.counted_iff m).mp h.counted f (h.shaped.length.symm ▸ hf)
  constructor
  · intro r d hd he
    have := held_pos_of_enq hd he
    omega
  · intro x td hm hq he
    obtain ⟨td', hm', rfl⟩ := List.mem_map.mp hm
    have := held_pos_of_opn hm' hq he
    omega

theorem Maps.setAioCompl_ok {m : Maps} {x : Xid} {r : Nat} {t : TxnMap}
    (h : m.tmap.setAioCompl x r = .ok t) : Maps.setAioCompl x r m = .ok () { m with tmap := t } := by
  unfold Maps.setAioCompl
  rw [get_bind_apply, h]
  rfl

theorem Maps.Protected.setAioCompl {n : Nat} {m : Maps} (h : m.Protected n) {x : Xid} {r : Nat}
    {t : TxnMap} (ht : m.tmap.setAioCompl x r = .ok t) :
    Maps.Protected n { m with tmap := t } := by
  have hm := Maps.setAioCompl_ok ht
  refine ⟨Maps.counted_setAioCompl x r h.counted hm,
    (Maps.keeps_setAioCompl x r).of_ok h.shaped hm, ?_⟩
  rw [Maps.view_setAioCompl x r hm]
  exact h.ring

namespace Wmgr

variable {g : Geom} {s s' : Wmgr} {l : List Nat} {c : Call}

/-- The maps count what is protected, and every record in part has its header in the ring. -/
structure Protects (g : Geom) (s : Wmgr) : Prop where
  maps : s.maps.Protected g.numJfiles
  fids : ∀ tok, (s.toks tok).dblksWritten = 0 ∨ (s.toks tok).fid < g.numJfiles

/-- No live record and no pending one starts in a file that has been reset since `l`. -/
def ResetsFree (l : List Nat) (s : Wmgr) : Prop :=
  ∀ f, l.count f < s.resets.count f → s.maps.view.NoneIn f

structure Guards (g : Geom) (l : List Nat) (s : Wmgr) : Prop where
  ring : s.fcIndex < g.numJfiles
  protects : s.Protects g
  free : s.ResetsFree l

theorem Guards.of_eq (h : s.Guards g l) (hf : s'.fcIndex < g.numJfiles) (hm : s'.maps = s.maps)
    (ht : s'.toks = s.toks) (hr : s'.resets = s.resets) : s'.Guards g l where
  ring := hf
  protects := ⟨hm ▸ h.protects.maps, ht ▸ h.protects.fids⟩
  free := by
    rw [ResetsFree, hr, hm]
    exact h.free

theorem Guards.start (hf : s.fcIndex < g.numJfiles) (h : s.Protects g) : s.Guards g s.resets :=
  ⟨hf, h, fun _ hlt => (Nat.lt_irrefl _ hlt).elim⟩

/-- A file that `wr_reset` accepts protects nothing. -/
theorem Guards.resetTo (h : s.Guards g l) {b : Bool} (hr : s.ResetTo b s') : s'.Guards g l := by
  cases hr with
  | held _ => exact h.of_eq h.ring rfl rfl rfl
  | reset he _ =>
    refine ⟨h.ring, ⟨h.protects.maps, h.protects.fids⟩, ?_⟩
    intro f hlt
    simp only [afterReset, List.count_append, List.count_singleton] at hlt
    by_cases hf : s.fcIndex = f
    · subst hf
      exact h.protects.maps.noneIn h.ring he
    · simp only [beq_iff_eq, hf, if_false, Nat.add_zero] at hlt
      exact h.free f hlt

theorem fcIndex_turned (hf : s.fcIndex < g.numJfiles) : (s.turned g).fcIndex < g.numJfiles := by
  simp only [turned]
  split <;> omega

theorem Guards.rotatesTo (h : s.Guards g l) {res : Iores} (hr : s.RotatesTo g res s') :
    s'.Guards g l := by
  have hf := fcIndex_turned h.ring
  have ht : (s.turned g).Guards g l := h.of_eq hf rfl rfl rfl
  cases hr with
  | wait _ => exact ht
  | full _ => exact ht.of_eq hf rfl rfl rfl
  | reset he ha => exact ht.resetTo (.reset he ha)

theorem Guards.headeredTo (h : s.Guards g l) (ht : s.HeaderedTo s') : s'.Guards g l := by
  cases ht with
  | kept _ => exact h
  | written _ _ => exact h.of_eq h.ring rfl rfl rfl

theorem Guards.taken (h : s.Guards g l) : s.taken.Guards g l := by
  rw [Wmgr.taken]
  split
  · exact h.of_eq h.ring rfl rfl rfl
  · exact h

theorem Guards.flushed (h : s.Guards g l) : (s.flushed g).Guards g l := by
  rw [Wmgr.flushed]
  split
  · exact h
  · have hp : (s.pageSubmitted g).Guards g l := h.of_eq h.ring rfl rfl rfl
    exact hp.taken

/-- Completions change neither records nor counts. -/
theorem Guards.returned (h : s.Guards g l) (hr : s.Returned s') : s'.Guards g l := by
  have hview : s'.maps.view = s.maps.view := by
    apply hr.maps (fun m => m.view = s.maps.view) _ rfl
    intro m x r t hm ht
    rw [← hm]
    exact Maps.view_setAioCompl x r (Maps.setAioCompl_ok ht)
  refine ⟨hr.fcIndex ▸ h.ring, ⟨?_, ?_⟩, ?_⟩
  · exact hr.maps _ (fun m x r t hm ht => Maps.Protected.setAioCompl hm ht) h.protects.maps
  · intro tok
    rw [(hr.toks tok).dblksWritten, (hr.toks tok).fid]
    exact h.protects.fids tok
  · rw [ResetsFree, hr.resets, hview]
    exact h.free

theorem Guards.turnsTo (h : s.Guards g l) (ht : s.TurnsTo g s') : s'.Guards g l := by
  cases ht with
  | stay _ => exact h
  | turn _ hr => exact h.rotatesTo hr

theorem Guards.flushedFrom (h : s.Guards g l) {evs : List Nat} (ht : s.FlushedFrom g evs s') :
    s'.taken.Guards g l :=
  (h.flushed.returned ht.returned).taken

theorem Guards.checksTo (h : s.Guards g l) {cont done : Bool} {evs : List Nat}
    {x : Iores × Bool × Bool} (ht : s.ChecksTo g (s.FlushedFrom g evs) cont done x s') :
    s'.Guards g l := by
  cases ht with
  | room _ => exact h
  | stay _ ht _ _ => exact h.flushedFrom ht
  | turn _ ht _ _ hu => exact (h.flushedFrom ht).rotatesTo hu

private theorem fids_encoded (h : s.Guards g l) {r : JRec} {tok : Nat} (i : Nat) :
    ((s.encoded g r tok).toks i).dblksWritten = 0 ∨
      ((s.encoded g r tok).toks i).fid < g.numJfiles := by
  by_cases hi : i = tok
  · subst hi
    right
    simp only [encoded, Function.update_self]
    split
    · exact h.ring
    · exact (h.protects.fids i).resolve_left ‹_›
  · simp only [encoded, Function.update_of_ne hi]
    exact h.protects.fids i

theorem headFid_lt (h : s.Guards g l) (tok : Nat) : s.headFid tok < g.numJfiles := by
  rw [headFid]
  split
  · exact h.ring
  · exact (h.protects.fids tok).resolve_left ‹_›

theorem EncodesTo.protects {op : OpType} {r : JRec} {tok : Nat} {done : Bool}
    (ht : s.EncodesTo g op r tok done s') (h : s.Guards g s.resets) : s'.Guards g s.resets := by
  have htoks : ∀ f : DataTok → DataTok, (∀ t, (f t).dblksWritten = t.dblksWritten ∧
      (f t).fid = t.fid) → ∀ i, (Function.update (s.encoded g r tok).toks tok
        (f ((s.encoded g r tok).toks tok)) i).dblksWritten = 0 ∨
      (Function.update (s.encoded g r tok).toks tok (f ((s.encoded g r tok).toks tok)) i).fid <
        g.numJfiles := by
    intro f hf i
    by_cases hi : i = tok
    · subst hi
      rw [Function.update_self, (hf _).1, (hf _).2]
      exact fids_encoded h i
    · rw [Function.update_of_ne hi]
      exact fids_encoded h i
  cases ht with
  | part _ hh =>
    have hp : (s.partEncoded g op r tok).Protects g :=
      ⟨h.protects.maps, htoks (fun t => { t with wstate := op.part }) fun _ => ⟨rfl, rfl⟩⟩
    exact Guards.headeredTo (Guards.start (s := s.partEncoded g op r tok) h.ring hp) hh
  | @done _ m pend _ hm _ _ hh =>
    have hp : Protects g { (s.encoded g r tok).completed op r tok m with txnPending := pend } :=
      ⟨h.protects.maps.complete (headFid_lt h tok) hm,
        htoks (fun t => { t with wstate := op.subm, dsize := _ }) fun _ => ⟨rfl, rfl⟩⟩
    exact Guards.headeredTo (Guards.start
      (s := { (s.encoded g r tok).completed op r tok m with txnPending := pend }) h.ring hp) hh

theorem unentered_guards : Unentered c fun s => s.Guards g l where
  reset s b s' h _ hr := h.resetTo hr
  use s h _ := h.of_eq h.ring rfl rfl rfl
  rid s n h := h.of_eq h.ring rfl rfl rfl
  busy s h := h.of_eq h.ring rfl rfl rfl
  tok s t h _ _ _ hf hd := by
    refine ⟨h.ring, ⟨h.protects.maps, ?_⟩, h.free⟩
    intro i
    by_cases hi : i = c.tok
    · subst hi
      simp only [Function.update_self, hf]
      rcases hd with hd | hd
      · exact Or.inl hd
      · rw [hd]
        exact h.protects.fids _
    · simp only [Function.update_of_ne hi]
      exact h.protects.fids i

end Wmgr

namespace Sys

variable {g : Geom} {s s' : Sys} {c : Call} {l : List Nat}

theorem EntersTo.guards (ht : s.EntersTo g c s') (h : s.w.Guards g l) : s'.w.Guards g l := by
  have hent := Wmgr.wp_enter (g := g) (c := c) Wmgr.unentered_guards h
  cases ht with
  | encode he => exact (wp_of_ok hent he).inv
  | wait he => exact (wp_of_ok hent he).1.inv
  | done he => exact (wp_of_ok hent he).1.inv
  | assert he => exact (wp_of_error hent he).inv
  | refused he => exact (wp_of_error hent he).inv

theorem ProceedsTo.guards {evs : List Nat} (ht : s.ProceedsTo g evs s') (h : s.Steady g)
    (hg : s.w.Guards g s.w.resets) (hf : s'.ctl ≠ .failed) : s'.w.Guards g s.w.resets := by
  cases ht with
  | encoded _ he => exact (wp_of_ok (Wmgr.wp_encodePart_to _) he).protects hg
  | encodeFailed _ _ => exact (hf rfl).elim
  | checked _ he => exact hg.checksTo (wp_of_ok (Wmgr.wp_flushCheck_steady h.w _ _ evs) he)
  | @left c _ _ _ _ res w _ he =>
    have hc := hg.checksTo (wp_of_ok (Wmgr.wp_flushCheck_steady h.w _ _ evs) he)
    have hw : (handle c res (released c w)).w = released c w := by cases res <;> rfl
    rw [hw, released]
    split
    · exact hc.of_eq hc.ring rfl rfl rfl
    · exact hc
  | checkFailed _ _ => exact (hf rfl).elim
  | pageFree _ _ he => exact he.guards hg
  | fileFree _ _ hr _ he =>
    exact he.guards (hg.resetTo (wp_of_ok (Wmgr.wp_wrReset_to fun _ _ => False) hr))
  | fileDone _ _ hr _ => exact hg.resetTo (wp_of_ok (Wmgr.wp_wrReset_to fun _ _ => False) hr)
  | waits _ he => exact hg.returned (wp_of_ok (Wmgr.wp_getEvents_steady h.w evs) he).2.1
  | waitFailed _ _ => exact (hf rfl).elim

theorem StepsTo.guards {a : Act} (ht : s.StepsTo g a s') (h : s.Steady g)
    (hg : s.w.Guards g s.w.resets) (hf : s'.ctl ≠ .failed) : s'.w.Guards g s.w.resets := by
  cases ht with
  | @token tok _ _ _ hp =>
    refine ⟨hg.ring, ⟨hg.protects.maps, ?_⟩, hg.free⟩
    intro i
    simp only [pristine, Bool.and_eq_true, decide_eq_true_eq] at hp
    by_cases hit : i = tok
    · subst hit
      simp only [Function.update_self]
      exact Or.inl hp.1.2
    · simp only [Function.update_of_ne hit]
      exact hg.protects.fids i
  | call _ _ he => exact he.guards hg
  | step he => exact he.guards h hg hf
  | collected _ he => exact hg.returned (wp_of_ok (Wmgr.wp_getEvents_steady h.w _) he).2.1
  | collectFailed _ _ => exact (hf rfl).elim
  | flushed _ he =>
    obtain ⟨t, ht, hto⟩ := wp_of_ok (Wmgr.wp_flush_steady h.w _) he
    exact (hg.flushedFrom ht).turnsTo hto
  | flushFailed _ _ => exact (hf rfl).elim

theorem ctl_of_failed {a : Act} (h : s.ctl = .failed) (ht : s.StepsTo g a s') : s'.ctl = .failed := by
  cases ht with
  | token hi _ _ => simp [h] at hi
  | call hi _ _ => simp [h] at hi
  | step he => cases he <;> simp_all
  | collected _ _ => exact h
  | collectFailed _ _ => rfl
  | flushed _ _ => exact h
  | flushFailed _ _ => rfl

/-- A new journal, or one with the maps that a recovery has built from records in its files. -/
inductive Begins (g : Geom) : Sys → Prop
  | init : Begins g (init g)
  | recovered (rd : Wmgr.Rcvdat) (log : List Placed) (prepared : List Xid) (h : rd.lfid < g.numJfiles)
    (hl : ∀ p ∈ log, p.fid < g.numJfiles)
    (hm : janalyze g.numJfiles log prepared = .ok () rd.maps) : Begins g (recovered g rd)

theorem Begins.start (h : s.Begins g) : s.Start g := by
  cases h with
  | init => exact .init
  | recovered rd log prepared h hl hm => exact .recovered rd h

theorem guards_resumed (rd : Wmgr.Rcvdat) (h : rd.lfid < g.numJfiles)
    (hm : rd.maps.Protected g.numJfiles) :
    (Wmgr.recovered g rd).Guards g (Wmgr.resumed g rd).resets := by
  have hr : (Wmgr.resumed g rd).Guards g (Wmgr.resumed g rd).resets :=
    Wmgr.Guards.start h ⟨hm, fun _ => Or.inl rfl⟩
  rcases Wmgr.recovered_to g rd with he | ⟨res, hto⟩
  · rw [he]
    exact hr
  · exact hr.rotatesTo hto

theorem Begins.guards (h : s.Begins g) : s.w.Guards g s.w.resets := by
  cases h with
  | init =>
    exact Wmgr.Guards.start g.numJfiles_pos
      ⟨Maps.init_protected g.numJfiles, fun _ => Or.inl rfl⟩
  | recovered rd log prepared h hl hm =>
    have hp := (Maps.janalyze_protected hl g.numJfiles_pos prepared).2 _ hm
    have hg := guards_resumed rd h hp
    exact Wmgr.Guards.start hg.ring hg.protects

theorem StepsTo.guarded {a : Act} (ht : s.StepsTo g a s')
    (h : s.ctl = .failed ∨ s.Steady g ∧ s.w.Guards g s.w.resets) :
    s'.ctl = .failed ∨ s'.Steady g ∧ s'.w.Guards g s'.w.resets := by
  by_cases hf : s'.ctl = .failed
  · exact Or.inl hf
  · right
    obtain ⟨hs, hg⟩ := h.resolve_left fun h => hf (ctl_of_failed h ht)
    have hg' := ht.guards hs hg hf
    exact ⟨ht.steady hs fun h => (hf h).elim, Wmgr.Guards.start hg'.ring hg'.protects⟩

/-- Each file's count is that of the records it protects, no operation counts below zero, and no file
that a step resets holds a record. -/
structure Protecting (g : Geom) (s : Sys) : Prop where
  counts : ∀ f < g.numJfiles,
    s.w.maps.enqCnt.getD f 0 = s.w.maps.emap.held f + s.w.maps.tmap.held f
  complete : ∀ fid r, Maps.NoUnderflow (Maps.complete fid r) s.w.maps
  resets : ∀ a s', s.step g a = some s' → s'.ctl ≠ .failed → s'.w.ResetsFree s.w.resets

theorem protecting (h : s.Steady g) (hg : s.w.Guards g s.w.resets) : s.Protecting g := by
  have hp := hg.protects.maps
  constructor
  · intro f hf
    exact (Maps.counted_iff _).mp hp.counted f (hp.shaped.length.symm ▸ hf)
  · exact fun fid r => Maps.noUnderflow_complete hp fid r
  · intro a s' ht hf
    exact ((stepsTo ht).guards h hg hf).free

/-- Every journal counts what its files protect for as long as nothing is thrown; so does its recovery,
from any records and with any prepared list, where no entry of the list goes below zero. -/
theorem run_protecting (hs : s.Begins g) {acts : List Act} (hr : s.run g acts = some s')
    (hf : s'.ctl ≠ .failed) : s'.Protecting g ∧
      ∀ (log : List Placed) (prepared : List Xid), (∀ p ∈ log, p.fid < g.numJfiles) →
        Maps.janalyzeWith Maps.decrEnqcnt g.numJfiles log prepared =
          janalyze g.numJfiles log prepared ∧
        ∀ rd : Wmgr.Rcvdat, rd.lfid < g.numJfiles →
          janalyze g.numJfiles log prepared = .ok () rd.maps →
          (Wmgr.recovered g rd).ResetsFree (Wmgr.resumed g rd).resets := by
  constructor
  · have h := run_preserves (P := fun _ _ => True) (fun t a u ht _ hu => hu.guarded ht)
      (Or.inr ⟨hs.start.steady, hs.guards⟩) (along_of_all (fun _ _ => trivial) acts) hr
    obtain ⟨hs', hg'⟩ := h.resolve_left hf
    exact protecting hs' hg'
  · intro log prepared hl
    have hj := Maps.janalyze_protected hl g.numJfiles_pos prepared
    exact ⟨hj.1, fun rd hrd hm => (guards_resumed rd hrd (hj.2 _ hm)).free⟩

/-- A transaction dequeues the record of the first file and enqueues one of its own in the second. -/
def preparedLog : List Placed :=
  [⟨.enq 1 [] 100 false false, 0⟩, ⟨.enq 2 [7] 50 false false, 1⟩, ⟨.deq 3 1 [7] false, 1⟩]

def preparedRcvdat : Wmgr.Rcvdat where
  lfid := 1
  eoDblks := 8
  jempty := false
  lffull := false
  hRid := 3
  owi := false
  frot := true
  maps := match janalyze 4 preparedLog [[7]] with
    | .ok _ m => m
    | .error _ m => m

/-- The transaction is committed, and another record enqueued. -/
def committedRun : List Act :=
  [.call (.commit 0 [7]), .step [], .step [], .flush [], .collect [0, 1],
    .call (.enqueue 1 100 100 [] false false), .step [], .step [], .flush [], .collect [2]]

theorem committedRun_protecting : ∃ s, (recovered fourFiles preparedRcvdat).run fourFiles committedRun =
    some s ∧ s.Protecting fourFiles := by
  have hm : janalyze 4 preparedLog [[7]] = .ok () preparedRcvdat.maps := rfl
  have hs : Begins fourFiles (recovered fourFiles preparedRcvdat) :=
    .recovered preparedRcvdat preparedLog [[7]] (by decide) (by decide) hm
  have hr : ((recovered fourFiles preparedRcvdat).run fourFiles committedRun).map (·.ctl) =
      some .idle := by
    decide +kernel
  obtain ⟨s, hs', hc⟩ := Option.map_eq_some_iff.mp hr
  have hf : s.ctl ≠ .failed := by
    rw [hc]
    exact Ctl.noConfusion
  exact ⟨s, hs', (run_protecting hs hs' hf).1⟩

end Sys

end RhmStore
