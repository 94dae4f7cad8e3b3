import RhmStore.Log.Discard

/-! # No count goes below zero

The counts are exact and every record is in a file of the ring, so what is taken out is counted. -/

namespace RhmStore

/-- Every record that a file protects has its header in one of `n` files. -/
structure View.InRing (n : Nat) (v : View) : Prop where
  enq : ∀ r d, v.enq r = some d → d.pfid < n
  opn : ∀ x td, td ∈ v.opn x → td.enqFlag = true → td.pfid < n

namespace View.InRing

variable {n : Nat} {v w : View}

theorem empty (n : Nat) : View.empty.InRing n := by
  constructor
  · intro r d h
    cases h
  · intro x td h
    cases h

/-- A record goes into the file of its header. -/
theorem apply (h : v.InRing n) (p : Placed) (hf : p.fid < n) : (v.apply p.fid p.jrec).InRing n := by
  constructor
  · intro r d hd
    rcases View.enq_apply hd with ⟨d', hv, he⟩ | ⟨he, -⟩ | ⟨x, td, -, hm, hq, -, he⟩
    · exact he ▸ h.enq r d' hv
    · exact he ▸ hf
    · exact he ▸ h.opn x td hm hq
  · intro x td hm he
    rw [View.opn_apply] at hm
    split at hm
    · cases hm
    · rcases List.mem_append.mp hm with hm | hm
      · exact h.opn x td hm he
      · rw [← (mem_entry hm).2.2.1]
        exact hf

end View.InRing

namespace Maps

variable {n : Nat} {m m' : Maps} {td : TxnData} {tdl : List TxnData}

/-- Every count is exact, those of the transaction `tdl` that is just being closed included, and all
that is counted is in one of `n` files. -/
structure ProtectedWith (n : Nat) (tdl : List TxnData) (m : Maps) : Prop where
  counted : CountedWith tdl m
  shaped : m.Shaped n
  enq : ∀ r d, m.view.enq r = some d → d.pfid < n
  opn : ∀ td ∈ tdl, td.enqFlag = true → td.pfid < n

/-- Every count is exact, and all that is counted is in one of `n` files. -/
structure Protected (n : Nat) (m : Maps) : Prop where
  counted : m.Counted
  shaped : m.Shaped n
  ring : m.view.InRing n

theorem init_protected (n : Nat) : (init n).Protected n :=
  ⟨init_counted n, init_shaped n, by rw [view_init]; exact View.InRing.empty n⟩

/-- A record that is taken out of `enq_map` is counted. -/
theorem ProtectedWith.count_enq (h : ProtectedWith n tdl m) {r : Nat} {d : EmapData}
    (hd : m.emap.map[r]? = some d) : m.enqCnt.getD d.pfid 0 ≠ 0 := by
  have hlt : d.pfid < m.enqCnt.length := h.shaped.length.symm ▸ h.enq r d hd
  have hpos := held_pos_of_enq hd rfl
  have hc := h.counted d.pfid hlt
  omega

theorem ProtectedWith.count_open (h : ProtectedWith n (td :: tdl) m) (he : td.enqFlag = true) :
    m.enqCnt.getD td.pfid 0 ≠ 0 := by
  have hlt : td.pfid < m.enqCnt.length := h.shaped.length.symm ▸ h.opn td (by simp) he
  have hc := h.counted td.pfid hlt
  simp only [entryCnt_cons, he, Bool.true_and, beq_self_eq_true, if_true] at hc
  omega

theorem decrEnqcnt_isOk {fid : Nat} (h : m.enqCnt.getD fid 0 ≠ 0) :
    decrEnqcnt fid m = .ok () { m with enqCnt := m.enqCnt.modify fid (· - 1) } := by
  change (if m.enqCnt.getD fid 0 = 0 then throw .underflow else set _ : MapsM Unit) m = _
  rw [if_neg h]
  rfl

theorem decrEnqcnt_eq {fid : Nat} (h : m.enqCnt.getD fid 0 ≠ 0) :
    decrEnqcnt fid m = decrEnqCntList fid m := by
  rw [decrEnqcnt_isOk h]
  change EStateM.Result.ok () _ = EStateM.Result.ok () _
  congr 2
  rw [List.getD_eq_getElem?_getD] at h
  apply List.ext_getElem?
  intro i
  rw [List.getElem?_modify, List.getElem?_modify]
  by_cases hi : fid = i
  · subst hi
    cases hc : m.enqCnt[fid]? with
    | none => rfl
    | some k =>
      rw [hc, Option.getD_some] at h
      simp [u32Decr, h]
  · simp [hi]

/-- A transaction taken out of the map is still counted. -/
theorem Protected.getRemoveTdataList (h : m.Protected n) (xid : Xid)
    (hm : getRemoveTdataList xid m = .ok tdl m') : ProtectedWith n tdl m' := by
  obtain ⟨htdl, hv, -, -, -⟩ := ok_getRemoveTdataList xid hm
  refine ⟨countedWith_getRemoveTdataList xid h.counted hm,
    (keeps_getRemoveTdataList xid).of_ok h.shaped hm, ?_, ?_⟩
  · intro r d hd
    rw [hv] at hd
    exact h.ring.enq r d hd
  · intro td htd he
    rw [htdl] at htd
    exact h.ring.opn xid td.core (List.mem_map_of_mem htd) he

theorem ProtectedWith.mem_cons (h : ProtectedWith n (td :: tdl) m) :
    ∀ td' ∈ tdl, td'.enqFlag = true → td'.pfid < n :=
  fun td' hm => h.opn td' (List.mem_cons_of_mem _ hm)

structure EntryOp (n : Nat) (g : TxnData → MapsM Unit) (e : View → TxnData → View) : Prop where
  view : ∀ td {m m' : Maps}, g td m = .ok () m' → m'.view = e m.view td.core
  keeps : ∀ td, Keeps (Shaped n) (g td)
  counted : ∀ td tdl {m m' : Maps}, CountedWith (td :: tdl) m → g td m = .ok () m' →
    CountedWith tdl m'
  enq : ∀ v td r d, (e v td).enq r = some d →
    (∃ d', v.enq r = some d' ∧ d'.pfid = d.pfid) ∨ td.enqFlag = true ∧ td.pfid = d.pfid

theorem EntryOp.protectedWith {g : TxnData → MapsM Unit} {e : View → TxnData → View}
    (hg : EntryOp n g e) (h : ProtectedWith n (td :: tdl) m) (hm : g td m = .ok () m') :
    ProtectedWith n tdl m' := by
  refine ⟨hg.counted td tdl h.counted hm, (hg.keeps td).of_ok h.shaped hm, ?_, h.mem_cons⟩
  intro r d hd
  rw [hg.view td hm] at hd
  rcases hg.enq _ _ r d hd with ⟨d', hv, he⟩ | ⟨he, hp⟩
  · exact he ▸ h.enq r d' hv
  · exact hp ▸ h.opn td (by simp) he

private theorem enq_of_abortEntry (v : View) (td : TxnData) (r : Nat) (d : EmapData)
    (h : (v.abortEntry td).enq r = some d) :
    (∃ d', v.enq r = some d' ∧ d'.pfid = d.pfid) ∨ td.enqFlag = true ∧ td.pfid = d.pfid :=
  Or.inl (View.some_of_pfid (View.pfid_abortEntry v td r) h)

private theorem enq_of_commitEntry (v : View) (td : TxnData) (r : Nat) (d : EmapData)
    (h : (v.commitEntry td).enq r = some d) :
    (∃ d', v.enq r = some d' ∧ d'.pfid = d.pfid) ∨ td.enqFlag = true ∧ td.pfid = d.pfid := by
  rcases View.enq_commitEntry h with h | ⟨he, -, hp⟩
  · exact Or.inl ⟨d, h, rfl⟩
  · exact Or.inr ⟨he, hp.symm⟩

theorem entryOp_abort (n : Nat) : EntryOp n abortEntry View.abortEntry where
  view td _ _ := view_abortEntry td
  keeps _ := Keeps.ite _ (keeps_decrEnqcnt _) (keeps_unlock _)
  counted td _ _ _ := countedWith_abortEntry td
  enq := enq_of_abortEntry

theorem entryOp_commit (n : Nat) : EntryOp n commitEntry View.commitEntry where
  view td _ _ := view_commitEntry td
  keeps _ := Keeps.ite _ (keeps_insertPfid _ _) ((keeps_getRemovePfid _ _).bind fun _ =>
    keeps_decrEnqcnt _)
  counted td _ _ _ := countedWith_commitEntry td
  enq := enq_of_commitEntry

theorem entryOp_rcvrAbort (n : Nat) : EntryOp n rcvrAbortEntry View.abortEntry where
  view td _ _ := view_rcvrAbortEntry td
  keeps _ := Keeps.ite _ (keeps_decrEnqCntList _) (keeps_unlock _)
  counted td _ _ _ := countedWith_rcvrAbortEntry td
  enq := enq_of_abortEntry

theorem entryOp_rcvrCommit (n : Nat) : EntryOp n rcvrCommitEntry View.commitEntry where
  view td _ _ := view_rcvrCommitEntry td
  keeps _ := Keeps.ite _ (keeps_insertPfid _ _) (keeps_rcvrRemove _)
  counted td _ _ _ := countedWith_rcvrCommitEntry td
  enq := enq_of_commitEntry

/-! ## A running journal -/

theorem abortEntry_isOk (h : ProtectedWith n (td :: tdl) m) :
    ∃ m', abortEntry td m = .ok () m' := by
  unfold abortEntry
  cases he : td.enqFlag with
  | true => exact ⟨_, by rw [if_pos rfl]; exact decrEnqcnt_isOk (h.count_open he)⟩
  | false => exact ⟨_, rfl⟩

theorem forM_abortEntry_isOk (h : ProtectedWith n tdl m) :
    ∃ m', tdl.forM abortEntry m = .ok () m' := by
  induction tdl generalizing m with
  | nil => exact ⟨m, rfl⟩
  | cons td tdl ih =>
    obtain ⟨m₁, h₁⟩ := abortEntry_isOk h
    obtain ⟨m', h₂⟩ := ih ((entryOp_abort n).protectedWith h h₁)
    exact ⟨m', ok_bind.mpr ⟨(), m₁, h₁, h₂⟩⟩

def NoUnderflow {α : Type} (x : MapsM α) (m : Maps) : Prop :=
  wp x (fun _ _ => True) (fun e _ => e ≠ .underflow) m

theorem noUnderflow_of_isOk {x : MapsM Unit} (h : ∃ m', x m = .ok () m') : NoUnderflow x m := by
  obtain ⟨m', hm⟩ := h
  unfold NoUnderflow wp
  rw [hm]
  trivial

theorem NoUnderflow.bind {α β : Type} {x : MapsM α} {f : α → MapsM β} (hx : NoUnderflow x m)
    (hf : ∀ a m', x m = .ok a m' → NoUnderflow (f a) m') : NoUnderflow (x >>= f) m := by
  unfold NoUnderflow
  rw [wp_bind]
  apply wp_mono (wp_and hx (wp_self x m))
  · intro a m' h
    exact hf a m' h.2
  · intro e m' h
    exact h.1

theorem noUnderflow_insertPfid (rid pfid : Nat) : NoUnderflow (insertPfid rid pfid) m := by
  unfold NoUnderflow insertPfid
  rw [wp_bind, wp_get]
  split
  · trivial
  · exact fun h => JErr.noConfusion h

theorem noUnderflow_getRemovePfid (rid : Nat) (b : Bool) : NoUnderflow (getRemovePfid rid b) m := by
  unfold NoUnderflow getRemovePfid
  rw [wp_bind, wp_get]
  split
  · trivial
  · exact fun h => JErr.noConfusion h
  · exact fun h => JErr.noConfusion h

theorem noUnderflow_remove (h : ProtectedWith n tdl m) (drid : Nat) (b : Bool) :
    NoUnderflow (getRemovePfid drid b >>= decrEnqcnt) m := by
  apply (noUnderflow_getRemovePfid drid b).bind
  intro fid m' hm
  obtain ⟨d, hd, rfl, -, rfl⟩ := ok_getRemovePfid hm
  exact noUnderflow_of_isOk ⟨_, decrEnqcnt_isOk (h.count_enq hd)⟩

theorem noUnderflow_commitEntry (h : ProtectedWith n (td :: tdl) m) :
    NoUnderflow (commitEntry td) m := by
  unfold commitEntry
  split
  · exact noUnderflow_insertPfid _ _
  · have ht : ProtectedWith n (td :: tdl) m := h
    exact noUnderflow_remove ht td.drid true

theorem noUnderflow_forM_commitEntry (h : ProtectedWith n tdl m) :
    NoUnderflow (tdl.forM commitEntry) m := by
  induction tdl generalizing m with
  | nil => trivial
  | cons td tdl ih =>
    apply (noUnderflow_commitEntry h).bind
    intro _ m' hm
    exact ih ((entryOp_commit n).protectedWith h hm)

theorem Protected.with_nil (h : m.Protected n) : ProtectedWith n [] m :=
  ⟨h.counted, h.shaped, h.ring.enq, fun _ hm => (List.not_mem_nil hm).elim⟩

/-- The end of no operation counts a file below zero. -/
theorem noUnderflow_complete (h : m.Protected n) (fid : Nat) (r : JRec) :
    NoUnderflow (complete fid r) m := by
  cases r with
  | enq rid xid ds t e =>
    apply NoUnderflow.bind (x := incrEnqcnt fid) trivial
    intro _ m' _
    split
    · trivial
    · exact noUnderflow_insertPfid _ _
  | deq rid drid xid c =>
    change NoUnderflow (if xid ≠ [] then _ else _) m
    split
    · trivial
    · exact noUnderflow_remove h.with_nil drid false
  | txa rid xid =>
    apply NoUnderflow.bind (x := Maps.getRemoveTdataList xid) trivial
    intro tdl m' hm
    exact noUnderflow_of_isOk (forM_abortEntry_isOk (h.getRemoveTdataList xid hm))
  | txc rid xid =>
    apply NoUnderflow.bind (x := Maps.getRemoveTdataList xid) trivial
    intro tdl m' hm
    exact noUnderflow_forM_commitEntry (h.getRemoveTdataList xid hm)

theorem Protected.complete (h : m.Protected n) {fid : Nat} (hf : fid < n) {r : JRec}
    (hm : complete fid r m = .ok () m') : m'.Protected n := by
  refine ⟨counted_complete fid r h.counted hm, (keeps_complete fid r).of_ok h.shaped hm, ?_⟩
  rw [view_complete fid r hm]
  exact h.ring.apply ⟨r, fid⟩ hf

/-! ## A recovery

The same programs with any way of counting down: `decrEnqCntList`, as the code has it, wraps below
zero, where `decrEnqcnt` throws. -/

section Recovery

variable (decr : Nat → MapsM Unit)

def rcvrRemoveWith (drid : Nat) : MapsM Unit := do
  let m ← get
  match m.emap.getRemovePfid drid true with
  | .ok (efid, emap) => do
    set { m with emap := emap }
    decr efid
  | .error _ => pure ()

def rcvrDeqWith (rid drid : Nat) (xid : Xid) (commit : Bool) (fid : Nat) : MapsM Unit := do
  if xid ≠ [] then
    lock drid
    insertTxnData xid
      { rid := rid, drid := drid, pfid := fid, enqFlag := false, commitFlag := commit }
    setAioCompl xid rid
  else rcvrRemoveWith decr drid

def rcvrAbortEntryWith (td : TxnData) : MapsM Unit := do
  if td.enqFlag then decr td.pfid else unlock td.drid

def rcvrCommitEntryWith (td : TxnData) : MapsM Unit := do
  if td.enqFlag then insertPfid td.rid td.pfid else rcvrRemoveWith decr td.drid

def rcvrRecordWith (fid : Nat) : JRec → MapsM Unit
  | .enq rid xid _ transient _ => rcvrEnq rid xid transient fid
  | .deq rid drid xid commit => rcvrDeqWith decr rid drid xid commit fid
  | .txa _ xid => do
    let tdl ← getRemoveTdataList xid
    tdl.forM (rcvrAbortEntryWith decr)
  | .txc _ xid => do
    let tdl ← getRemoveTdataList xid
    tdl.forM (rcvrCommitEntryWith decr)

def discardEntryWith (td : TxnData) : MapsM Unit := do
  if td.enqFlag then decr td.pfid
  else
    let m ← get
    if m.emap.isEnqueued td.drid true then
      match m.emap.unlock td.drid with
      | .ok emap => set { m with emap := emap }
      | .error _ => throw .mapNotFound
    else pure ()

def discardXidWith (prepared : List Xid) (xid : Xid) : MapsM Unit :=
  if xid ∈ prepared then pure ()
  else do
    let tdl ← getRemoveTdataList xid
    tdl.forM (discardEntryWith decr)

def discardWith (prepared : List Xid) : MapsM Unit := do
  let m ← get
  m.tmap.xidList.forM (discardXidWith decr prepared)

def replayWith (log : List Placed) : MapsM Unit :=
  log.forM fun p => rcvrRecordWith decr p.fid p.jrec

/-- What `janalyze` does, with any way of counting down. -/
def janalyzeWith (n : Nat) (log : List Placed) (prepared : List Xid) :
    EStateM.Result JErr Maps Unit :=
  (replayWith decr log >>= fun _ => discardWith decr prepared) (init n)

end Recovery

theorem rcvrRecordWith_list (fid : Nat) (r : JRec) :
    rcvrRecordWith decrEnqCntList fid r = rcvrRecord fid r := by cases r <;> rfl

theorem janalyzeWith_list (n : Nat) (log : List Placed) (prepared : List Xid) :
    janalyzeWith decrEnqCntList n log prepared = janalyze n log prepared := by
  have hr : replayWith decrEnqCntList log = replay log := by
    unfold replayWith replay
    simp only [rcvrRecordWith_list]
  unfold janalyzeWith janalyze
  rw [hr]
  rfl

theorem rcvrRemoveWith_eq (h : ProtectedWith n tdl m) (drid : Nat) :
    rcvrRemoveWith decrEnqcnt drid m = rcvrRemove drid m := by
  unfold rcvrRemoveWith rcvrRemove
  rw [get_bind_apply, get_bind_apply]
  cases hr : m.emap.map[drid]? with
  | none => simp only [EnqMap.getRemovePfid, hr]
  | some d =>
    simp only [EnqMap.getRemovePfid, hr, Bool.not_true, Bool.and_false, Bool.false_eq_true, if_false]
    exact decrEnqcnt_eq (h.count_enq hr)

theorem forM_eq {g g' : TxnData → MapsM Unit} {e : View → TxnData → View} (hg : EntryOp n g e)
    (heq : ∀ td tdl {m : Maps}, ProtectedWith n (td :: tdl) m → g' td m = g td m)
    (h : ProtectedWith n tdl m) : tdl.forM g' m = tdl.forM g m := by
  induction tdl generalizing m with
  | nil => rfl
  | cons td tdl ih =>
    change (g' td >>= fun _ => tdl.forM g') m = (g td >>= fun _ => tdl.forM g) m
    simp only [bind, EStateM.bind, heq td tdl h]
    cases hm : g td m with
    | ok u m' => exact ih (hg.protectedWith h hm)
    | error e m' => rfl

theorem rcvrAbortEntryWith_eq (td : TxnData) (tdl : List TxnData)
    (h : ProtectedWith n (td :: tdl) m) :
    rcvrAbortEntryWith decrEnqcnt td m = rcvrAbortEntry td m := by
  unfold rcvrAbortEntryWith rcvrAbortEntry
  cases he : td.enqFlag with
  | true => exact decrEnqcnt_eq (h.count_open he)
  | false => rfl

theorem rcvrCommitEntryWith_eq (td : TxnData) (tdl : List TxnData)
    (h : ProtectedWith n (td :: tdl) m) :
    rcvrCommitEntryWith decrEnqcnt td m = rcvrCommitEntry td m := by
  unfold rcvrCommitEntryWith rcvrCommitEntry
  cases he : td.enqFlag with
  | true => rfl
  | false => exact rcvrRemoveWith_eq h td.drid

theorem discardEntryWith_eq (td : TxnData) (tdl : List TxnData)
    (h : ProtectedWith n (td :: tdl) m) :
    discardEntryWith decrEnqcnt td m = discardEntry td m := by
  unfold discardEntryWith discardEntry
  cases he : td.enqFlag with
  | true => exact decrEnqcnt_eq (h.count_open he)
  | false => rfl

private theorem closeWith_eq {g g' : TxnData → MapsM Unit} {e : View → TxnData → View}
    (hg : EntryOp n g e)
    (heq : ∀ td tdl {m : Maps}, ProtectedWith n (td :: tdl) m → g' td m = g td m)
    (h : m.Protected n) (xid : Xid) :
    (getRemoveTdataList xid >>= fun tdl => tdl.forM g') m =
      (getRemoveTdataList xid >>= fun tdl => tdl.forM g) m := by
  simp only [bind, EStateM.bind]
  cases hm : Maps.getRemoveTdataList xid m with
  | ok tdl m' => exact forM_eq hg heq (h.getRemoveTdataList xid hm)
  | error e m' => rfl

theorem rcvrRecordWith_eq (h : m.Protected n) (fid : Nat) (r : JRec) :
    rcvrRecordWith decrEnqcnt fid r m = rcvrRecord fid r m := by
  cases r with
  | enq rid xid ds t e => rfl
  | deq rid drid xid c =>
    change rcvrDeqWith decrEnqcnt rid drid xid c fid m = rcvrDeq rid drid xid c fid m
    unfold rcvrDeqWith rcvrDeq
    split
    · rfl
    · exact rcvrRemoveWith_eq h.with_nil drid
  | txa rid xid =>
    exact closeWith_eq (entryOp_rcvrAbort n) (fun td tdl _ => rcvrAbortEntryWith_eq td tdl) h xid
  | txc rid xid =>
    exact closeWith_eq (entryOp_rcvrCommit n) (fun td tdl _ => rcvrCommitEntryWith_eq td tdl) h xid

theorem Protected.rcvrRecord (h : m.Protected n) {fid : Nat} (hf : fid < n) {r : JRec}
    (hm : rcvrRecord fid r m = .ok () m') : m'.Protected n := by
  refine ⟨counted_rcvrRecord fid r h.counted hm, (keeps_rcvrRecord fid r).of_ok h.shaped hm, ?_⟩
  cases ht : r.isTransient with
  | false =>
    rw [view_rcvrRecord fid r ht hm]
    exact h.ring.apply ⟨r, fid⟩ hf
  | true =>
    -- replay skips it
    cases r with
    | enq rid xid ds t e =>
      obtain rfl : t = true := ht
      cases hm
      exact h.ring
    | deq => cases ht
    | txa => cases ht
    | txc => cases ht

theorem replayWith_eq {log : List Placed} (h : m.Protected n) (hf : ∀ p ∈ log, p.fid < n) :
    replayWith decrEnqcnt log m = replay log m ∧
      ∀ m', replay log m = .ok () m' → m'.Protected n := by
  induction log generalizing m with
  | nil =>
    refine ⟨rfl, ?_⟩
    intro m' hm
    obtain ⟨-, rfl⟩ := ok_pure.mp hm
    exact h
  | cons p log ih =>
    have hp := hf p (by simp)
    have hl : ∀ q ∈ log, q.fid < n := fun q hq => hf q (by simp [hq])
    constructor
    · change (rcvrRecordWith decrEnqcnt p.fid p.jrec >>= fun _ => replayWith decrEnqcnt log) m =
        (rcvrRecord p.fid p.jrec >>= fun _ => replay log) m
      simp only [bind, EStateM.bind, rcvrRecordWith_eq h]
      cases hm : rcvrRecord p.fid p.jrec m with
      | ok u m' => exact (ih (h.rcvrRecord hp hm) hl).1
      | error e m' => rfl
    · intro m' hm
      obtain ⟨_, m₁, h₁, h₂⟩ := ok_bind.mp hm
      exact (ih (h.rcvrRecord hp h₁) hl).2 m' h₂

theorem discardEntry_eq_rcvrAbortEntry : discardEntry = rcvrAbortEntry := funext discardEntry_eq

theorem discardXidWith_eq (h : m.Protected n) (prepared : List Xid) (xid : Xid) :
    discardXidWith decrEnqcnt prepared xid m = discardXid prepared xid m := by
  unfold discardXidWith discardXid
  split
  · rfl
  · apply closeWith_eq _ (fun td tdl _ => discardEntryWith_eq td tdl) h xid
    · exact View.abortEntry
    · rw [discardEntry_eq_rcvrAbortEntry]
      exact entryOp_rcvrAbort n

theorem Protected.discardXid (h : m.Protected n) (hn : 0 < n) {prepared : List Xid} {xid : Xid}
    (hm : discardXid prepared xid m = .ok () m') : m'.Protected n := by
  unfold Maps.discardXid at hm
  split at hm
  · obtain ⟨-, rfl⟩ := ok_pure.mp hm
    exact h
  · rw [discardEntry_eq_rcvrAbortEntry] at hm
    exact h.rcvrRecord hn (r := .txa 0 xid) hm

theorem discardListWith_eq (prepared : List Xid) (xids : List Xid) (h : m.Protected n)
    (hn : 0 < n) :
    xids.forM (discardXidWith decrEnqcnt prepared) m = xids.forM (discardXid prepared) m ∧
      ∀ m', xids.forM (discardXid prepared) m = .ok () m' → m'.Protected n := by
  induction xids generalizing m with
  | nil =>
    refine ⟨rfl, ?_⟩
    intro m' hm
    obtain ⟨-, rfl⟩ := ok_pure.mp hm
    exact h
  | cons xid xids ih =>
    constructor
    · change (discardXidWith decrEnqcnt prepared xid >>= fun _ =>
          xids.forM (discardXidWith decrEnqcnt prepared)) m =
        (Maps.discardXid prepared xid >>= fun _ => xids.forM (Maps.discardXid prepared)) m
      simp only [bind, EStateM.bind, discardXidWith_eq h]
      cases hm : Maps.discardXid prepared xid m with
      | ok u m' => exact (ih (h.discardXid hn hm)).1
      | error e m' => rfl
    · intro m' hm
      obtain ⟨_, m₁, h₁, h₂⟩ := ok_bind.mp hm
      exact (ih (h.discardXid hn h₁)).2 m' h₂

/-- A recovery counts every record that it protects, and no count on its way goes below zero. -/
theorem janalyze_protected {log : List Placed} (hf : ∀ p ∈ log, p.fid < n) (hn : 0 < n)
    (prepared : List Xid) :
    janalyzeWith decrEnqcnt n log prepared = janalyze n log prepared ∧
      ∀ m, janalyze n log prepared = .ok () m → m.Protected n := by
  obtain ⟨heq, hp⟩ := replayWith_eq (init_protected n) hf
  constructor
  · unfold janalyzeWith janalyze
    simp only [bind, EStateM.bind, heq]
    cases hm : replay log (init n) with
    | ok u m => exact (discardListWith_eq prepared m.tmap.xidList (hp m hm) hn).1
    | error e m => rfl
  · intro m hm
    obtain ⟨_, m₁, h₁, h₂⟩ := ok_bind.mp hm
    exact (discardListWith_eq prepared m₁.tmap.xidList (hp m₁ h₁) hn).2 m h₂

end Maps

end RhmStore
