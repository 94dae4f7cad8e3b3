import RhmStore.Log.Finish
import RhmStore.Writer.Effects

/-! # Commit and abort of a journal in use and of a recovered one -/

namespace RhmStore

def LogAct.isRecover : LogAct → Bool
  | .recover _ => true
  | _ => false

theorem Placed.entry_persisted (p : Placed) (x : Xid) : p.persisted.entry x = p.entry x := by
  obtain ⟨r, fid⟩ := p
  cases r <;> rfl

theorem JRec.closes_persisted (r : JRec) (x : Xid) : r.persisted.closes x = r.closes x := by
  cases r <;> rfl

theorem openEntries_persisted (x : Xid) (log : List Placed) :
    openEntries x (log.map Placed.persisted) = openEntries x log := by
  induction log using List.reverseRecOn with
  | nil => rfl
  | append_singleton log p ih =>
    rw [List.map_append, List.map_singleton, openEntries_concat, openEntries_concat, ih,
      p.entry_persisted]
    change (if p.jrec.persisted.closes x then _ else _) = _
    rw [JRec.closes_persisted]

namespace Wmgr

variable {g : Geom} {op : OpType} {r : JRec} {tok : Nat} {w w' : Wmgr}

theorem HeaderedTo.maps (h : w.HeaderedTo w') : w'.maps = w.maps := by
  cases h with
  | kept _ => rfl
  | written _ _ => rfl

variable (g op) in
theorem encodePart_isOk (cont : Bool) (hp : w.pgOffset < g.pgDblks) {m : Maps}
    (hm : Maps.complete (w.headFid tok) r w.maps = .ok () m)
    (hx : ∀ xid ∈ r.endXid, xid ∉ w.txnPending) :
    ∃ done w', encodePart g op r tok cont w = .ok done w' ∧
      w'.maps = if done then m else w.maps := by
  have hwp : wp (encodePart g op r tok cont) (w.EncodesTo g op r tok)
      (fun _ => w.EncodeFails g op r tok) w := wp_encodePart_to cont
  have hno : ∀ u, ¬w.EncodeFails g op r tok u := by
    intro u he
    cases he with
    | full h => omega
    | maps m' h hf =>
      rcases hf with hf | ⟨xid, hxid, hin⟩
      · exact hf m hm
      · exact hx xid hxid hin
  obtain ⟨done, w', hw⟩ := ok_of_wp (wp_mono hwp (fun _ _ h => h) fun _ u he => hno u he)
  refine ⟨done, w', hw, ?_⟩
  cases wp_of_ok hwp hw with
  | part _ hh =>
    rw [hh.maps]
    rfl
  | done _ hm' _ _ hh =>
    rw [hm] at hm'
    cases hm'
    rw [hh.maps]
    rfl

end Wmgr

namespace Journal

variable {n : Nat} {s s' : Journal}

def anyStep (n : Nat) (s : Journal) : LogAct → Option Journal
  | .op r inst => s.liveStep n (.op r inst)
  | .advance => s.liveStep n .advance
  | .recover prepared => s.step n (.recover prepared)

def anyRun (n : Nat) (s : Journal) : List LogAct → Option Journal
  | [] => some s
  | a :: acts => (s.anyStep n a).bind fun s' => s'.anyRun n acts

def Fit (s : Journal) : LogAct → Prop
  | .op r _ => s.maps.Fit r
  | .advance => True
  | .recover _ => ∀ e ∈ s.log, e.jrec.isTransient = false

/-- Every step fits, and keeps clear of what earlier recoveries discarded while a recovery is to come. -/
def Fits (n : Nat) (s : Journal) : List LogAct → Prop
  | [] => True
  | a :: acts => s.Fit a ∧ ((a :: acts).any LogAct.isRecover → s.Clean n a) ∧
    ∀ s' ∈ s.anyStep n a, s'.Fits n acts

instance decidableFit (s : Journal) : (a : LogAct) → Decidable (s.Fit a)
  | .op (.enq ..) _ => isTrue trivial
  | .op (.deq _ drid xid _) _ => inferInstanceAs (Decidable (xid ≠ [] →
      s.maps.emap.map[drid]? = none → (∃ td ∈ s.maps.tmap.getTdataList xid,
        td.enqFlag = true ∧ td.rid = drid) ∧
      ¬∃ td ∈ s.maps.tmap.getTdataList xid, td.enqFlag = false ∧ td.drid = drid))
  | .op (.txa ..) _ => isTrue trivial
  | .op (.txc ..) _ => isTrue trivial
  | .advance => isTrue trivial
  | .recover _ => inferInstanceAs (Decidable (∀ e ∈ s.log, e.jrec.isTransient = false))

instance decidableFits (n : Nat) : (acts : List LogAct) → (s : Journal) → Decidable (s.Fits n acts)
  | [], _ => isTrue trivial
  | a :: acts, s =>
    have : ∀ s', Decidable (Fits n s' acts) := fun s' => decidableFits n acts s'
    inferInstanceAs (Decidable (s.Fit a ∧ ((a :: acts).any LogAct.isRecover → s.Clean n a) ∧
      ∀ s' ∈ s.anyStep n a, s'.Fits n acts))

/-! ## As if no record were transient -/

theorem openOps_persisted (n : Nat) (s : Journal) : s.persisted.openOps n = s.openOps n := by
  unfold openOps
  rw [records_persisted, List.flatMap_map]
  apply List.flatMap_congr
  intro p hp
  have hx : p.persisted.jrec.xid = p.jrec.xid := by
    obtain ⟨r, fid⟩ := p
    cases r <;> rfl
  rw [hx, p.entry_persisted, openEntries_persisted]

theorem clean_persisted {r : JRec} {inst : Nat} :
    s.persisted.Clean n (.op r.persisted inst) ↔ s.Clean n (.op r inst) := by
  have hs : s.persisted.stale n = s.stale n := by
    rw [stale, openOps_persisted]
    rfl
  have hl : s.persisted.live n = s.live n := by
    rw [live, openOps_persisted]
    rfl
  cases r with
  | enq => exact Iff.rfl
  | deq => exact Iff.rfl
  | txa rid xid =>
    change s.persisted.AbortClean n xid ↔ s.AbortClean n xid
    rw [AbortClean, AbortClean, hs, hl]
  | txc rid xid =>
    change (∀ o ∈ s.persisted.stale n, _) ↔ ∀ o ∈ s.stale n, _
    rw [hs]

theorem persisted_eq (h : ∀ e ∈ s.log, e.jrec.isTransient = false) : s.persisted = s := by
  have hlog : s.log.map (fun e => { e with jrec := e.jrec.persisted }) = s.log.map id := by
    apply List.map_congr_left
    intro e he
    rw [JRec.persisted_eq (h e he)]
    rfl
  rw [persisted, hlog, List.map_id]

/-! ## What runs keep -/

/-- Counts are exact and every open transaction can be finished; while a recovery is to come, replay
agrees with the maps. -/
structure Ready (n : Nat) (acts : List LogAct) (s : Journal) : Prop where
  maps : s.maps.Protected n
  finishable : s.maps.view.Finishable s.used
  inv : acts.any LogAct.isRecover → s.persisted.Inv n

theorem init_ready (n : Nat) (acts : List LogAct) : (init n).Ready n acts where
  maps := Maps.init_protected n
  finishable := by
    change (Maps.init n).view.Finishable []
    rw [Maps.view_init]
    exact View.finishable_empty []
  inv _ := init_inv n

variable {a : LogAct} {acts : List LogAct}

/-- A recovery gives up the transactions that are not prepared, and leaves the others fit. -/
theorem Ready.recover {prepared : List Xid} (h : s.Ready n (.recover prepared :: acts)) (hn : 0 < n)
    (hf : ∀ e ∈ s.log, e.jrec.isTransient = false) (hc : s.RecoverClean n prepared)
    (hs : s.step n (.recover prepared) = some s') : s'.Ready n acts := by
  have hinv : s.Inv n := by
    have := h.inv rfl
    rwa [persisted_eq hf] at this
  have hinv' : s'.Inv n := inv_recover hinv hc hs
  obtain ⟨m, hm, rfl⟩ := step_recover hs
  obtain ⟨m₁, m', hm₁, hd, -, hv, -, -, hl, -⟩ := janalyze_same hinv hc
  rw [hm] at hm₁
  cases hm₁
  obtain ⟨m₂, hm₂, hdis, -⟩ := Maps.discard_spec prepared s.maps hinv.shaped
  rw [hd] at hm₂
  cases hm₂
  have hfid : ∀ p ∈ s.records n, p.fid < n := by
    intro p hp
    obtain ⟨e, -, rfl⟩ := List.mem_map.mp hp
    exact Nat.mod_lt _ hn
  refine ⟨(Maps.janalyze_protected hfid hn prepared).2 m hm, ?_, fun _ => ?_⟩
  · rw [← hv] at hdis
    exact h.finishable.discards hdis hl
  · rw [persisted_eq (s := { s with maps := m, discarded := _ }) hf]
    exact hinv'

theorem Ready.step (h : s.Ready n (a :: acts)) (hn : 0 < n) (hf : s.Fit a)
    (hc : (a :: acts).any LogAct.isRecover → s.Clean n a) (hs : s.anyStep n a = some s') :
    s'.Ready n acts := by
  have hrec : acts.any LogAct.isRecover → (a :: acts).any LogAct.isRecover := by
    intro h
    rw [List.any_cons, h, Bool.or_true]
  cases a with
  | op r inst =>
    have hs' := hs
    simp only [anyStep, liveStep] at hs'
    split at hs'
    · rename_i hok
      cases hp : Maps.perform (inst % n) r s.maps with
      | error e m =>
        rw [hp] at hs'
        cases hs'
      | ok u m =>
        rw [hp] at hs'
        cases hs'
        refine ⟨h.maps.complete (Nat.mod_lt inst hn) (Maps.ok_perform hp).2,
          Maps.finishable_perform hp h.finishable hok.1 hf, ?_⟩
        intro hr
        exact inv_step (h.inv (hrec hr)) hn (clean_persisted.mpr (hc (hrec hr)))
          (persisted_op hok.1 hok.2 hp)
    · cases hs'
  | advance =>
    obtain ⟨h0, rfl⟩ := step_advance hs
    refine ⟨h.maps, h.finishable, ?_⟩
    intro hr
    exact inv_step (a := .advance) (h.inv (hrec hr)) hn trivial (persisted_advance h0)
  | recover prepared => exact h.recover hn hf (hc rfl) hs

theorem anyRun_ready (h : s.Ready n acts) (hn : 0 < n) (hf : s.Fits n acts)
    (hr : s.anyRun n acts = some s') : s'.Ready n [] := by
  induction acts generalizing s with
  | nil =>
    cases hr
    exact h
  | cons a acts ih =>
    obtain ⟨t, ht, hr⟩ := Option.bind_eq_some_iff.mp hr
    exact ih (h.step hn hf.1 hf.2.1 ht) (hf.2.2 t ht) hr

/-- Commit and abort of every open transaction succeed, with any new rid and in any file that may hold
the record's header, and do what they should. The loop of `wmgr` encodes each part of their record that
has room in the page, while no earlier end of a transaction with this xid waits for its write. -/
structure Finishes (n : Nat) (s : Journal) : Prop where
  commit : ∀ xid rid inst, s.maps.tmap.map[xid]? ≠ none → rid ∉ s.used → s.Admits n inst →
    ∃ s', s.anyStep n (.op (.txc rid xid) inst) = some s' ∧ Maps.CommittedBy xid s.maps s'.maps ∧
      s'.maps.Protected n
  abort : ∀ xid rid inst, s.maps.tmap.map[xid]? ≠ none → rid ∉ s.used → s.Admits n inst →
    ∃ s', s.anyStep n (.op (.txa rid xid) inst) = some s' ∧ Maps.AbortedBy xid s.maps s'.maps ∧
      s'.maps.Protected n
  encodeCommit : ∀ (g : Geom) (w : Wmgr) xid rid tok cont, s.maps.tmap.map[xid]? ≠ none →
    w.maps = s.maps → w.pgOffset < g.pgDblks → xid ∉ w.txnPending →
    ∃ done w', Wmgr.encodePart g .commit (.txc rid xid) tok cont w = .ok done w' ∧
      if done then Maps.CommittedBy xid s.maps w'.maps else w'.maps = s.maps
  encodeAbort : ∀ (g : Geom) (w : Wmgr) xid rid tok cont, s.maps.tmap.map[xid]? ≠ none →
    w.maps = s.maps → w.pgOffset < g.pgDblks → xid ∉ w.txnPending →
    ∃ done w', Wmgr.encodePart g .abort (.txa rid xid) tok cont w = .ok done w' ∧
      if done then Maps.AbortedBy xid s.maps w'.maps else w'.maps = s.maps

theorem Ready.xid_ne_nil (h : s.Ready n acts) {xid : Xid} (hx : s.maps.tmap.map[xid]? ≠ none) :
    xid ≠ [] := by
  intro he
  subst he
  obtain ⟨tdl, ht⟩ := Option.ne_none_iff_exists'.mp hx
  have hanon := h.finishable.anon
  simp only [Maps.view, TxnMap.getTdataList, ht, Option.getD_some, List.map_eq_nil_iff] at hanon
  exact h.maps.shaped.nonempty [] (hanon ▸ ht)

theorem anyStep_isOk {r : JRec} {inst : Nat} {m : Maps} (hr : r.rid ∉ s.used)
    (ha : s.Admits n inst) (hck : Maps.checkOp r s.maps = .ok () s.maps)
    (hm : Maps.complete (inst % n) r s.maps = .ok () m) :
    s.anyStep n (.op r inst) =
      some { s with log := s.log ++ [⟨r, inst⟩], maps := m, used := r.rid :: s.used } := by
  have hp : Maps.perform (inst % n) r s.maps = .ok () m := ok_bind.mpr ⟨(), s.maps, hck, hm⟩
  simp only [anyStep, liveStep, if_pos (And.intro hr ha), hp]

theorem Ready.finishes (h : s.Ready n acts) (hn : 0 < n) : s.Finishes n := by
  constructor
  · intro xid rid inst hx hr ha
    obtain ⟨m, hm, hc⟩ := Maps.complete_commit h.maps h.finishable (inst % n) rid xid
    have hck : Maps.checkOp (.txc rid xid) s.maps = .ok () s.maps := by
      simp only [Maps.checkOp, if_pos (h.xid_ne_nil hx), ok_pure, and_self]
    exact ⟨_, anyStep_isOk hr ha hck hm, hc, h.maps.complete (Nat.mod_lt inst hn) hm⟩
  · intro xid rid inst hx hr ha
    obtain ⟨m, hm, hc⟩ := Maps.complete_abort h.maps (inst % n) rid xid
    have hck : Maps.checkOp (.txa rid xid) s.maps = .ok () s.maps := by
      simp only [Maps.checkOp, if_pos (h.xid_ne_nil hx), ok_pure, and_self]
    exact ⟨_, anyStep_isOk hr ha hck hm, hc, h.maps.complete (Nat.mod_lt inst hn) hm⟩
  · intro g w xid rid tok cont _ hw hp hx
    obtain ⟨m, hm, hc⟩ := Maps.complete_commit h.maps h.finishable (w.headFid tok) rid xid
    rw [← hw] at hm
    obtain ⟨done, w', he, hmaps⟩ := Wmgr.encodePart_isOk g .commit cont hp hm
      (by simpa [JRec.endXid] using hx)
    refine ⟨done, w', he, ?_⟩
    cases done with
    | true => exact hmaps ▸ hc
    | false => exact hmaps.trans hw
  · intro g w xid rid tok cont _ hw hp hx
    obtain ⟨m, hm, hc⟩ := Maps.complete_abort h.maps (w.headFid tok) rid xid
    rw [← hw] at hm
    obtain ⟨done, w', he, hmaps⟩ := Wmgr.encodePart_isOk g .abort cont hp hm
      (by simpa [JRec.endXid] using hx)
    refine ⟨done, w', he, ?_⟩
    cases done with
    | true => exact hmaps ▸ hc
    | false => exact hmaps.trans hw

/-- `[7]` dequeues a record and one of its own before a crash, and is prepared; `[8]` goes on. -/
def ownDequeueRun : List LogAct :=
  [.op (.enq 1 [] 10 false false) 0, .op (.enq 2 [7] 10 false false) 0, .op (.deq 3 1 [7] false) 0,
    .op (.deq 4 2 [7] false) 0, .recover [[7]], .op (.enq 5 [8] 10 true false) 0,
    .op (.deq 6 5 [8] false) 0]

/-- `[7]` dequeues its own record twice. -/
def twiceDequeuedRun : List LogAct :=
  [.op (.enq 1 [7] 10 false false) 0, .op (.deq 2 1 [7] false) 0, .op (.deq 3 1 [7] false) 0]

end Journal

end RhmStore
