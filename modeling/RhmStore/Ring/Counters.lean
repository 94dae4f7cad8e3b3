import RhmStore.Log.Counted
import RhmStore.Ring.Wrfc
import RhmStore.Store.Config

/-! # The counters of `enq_map` and `txn_map` beside their maps -/

namespace RhmStore

namespace EnqMap

/-- `get_enq_cnt`, where `at` throws outside the vector. -/
def getEnqCnt (m : EnqMap) (pfid : Nat) : Option Nat := m.pfidEnqCnt[pfid]?

/-- The counters of `n` files are right. -/
def Tallied (n : Nat) (m : EnqMap) : Prop := m.pfidEnqCnt = tally n m.held

end EnqMap

namespace TxnMap

/-- `get_txn_pfid_cnt`, where `at` throws outside the vector. -/
def getTxnPfidCnt (m : TxnMap) (pfid : Nat) : Option Nat := m.pfidTxnCnt[pfid]?

/-- Entries of open transactions with their record in file `f`. -/
def entriesIn (m : TxnMap) (f : Nat) : Nat := m.opCnt fun td => td.pfid == f

def Tallied (n : Nat) (m : TxnMap) : Prop := m.pfidTxnCnt = tally n m.entriesIn

end TxnMap

/-! ## One map -/

section Maps

variable {n : Nat}

theorem held_eq_zero_iff (e : EnqMap) (f : Nat) :
    e.held f = 0 ↔ ∀ (rid : Nat) (d : EmapData), e.map[rid]? = some d → d.pfid ≠ f := by
  rw [EnqMap.held, mapWeight_eq_zero_iff]
  constructor
  · intro h rid d hd hf
    have hz := h rid d hd
    rw [if_pos hf] at hz
    cases hz
  · intro h rid d hd
    rw [if_neg (h rid d hd)]

theorem entriesIn_eq_zero_iff (t : TxnMap) (f : Nat) :
    t.entriesIn f = 0 ↔ ∀ xid, ∀ td ∈ t.getTdataList xid, td.pfid ≠ f := by
  rw [TxnMap.entriesIn, TxnMap.opCnt, mapWeight_eq_zero_iff]
  constructor
  · intro h xid td htd hf
    rw [TxnMap.getTdataList] at htd
    cases hx : t.map[xid]? with
    | none =>
      rw [hx] at htd
      cases htd
    | some tdl =>
      rw [hx, Option.getD_some] at htd
      have hz := List.countP_eq_zero.mp (h xid tdl hx) td htd
      exact hz (beq_iff_eq.mpr hf)
  · intro h xid tdl hx
    rw [List.countP_eq_zero]
    intro td htd hf
    apply h xid td
    · rw [TxnMap.getTdataList, hx, Option.getD_some]
      exact htd
    · exact beq_iff_eq.mp hf

theorem EnqMap.Tallied.insertPfid {m m' : EnqMap} (h : m.Tallied n) {rid pfid : Nat} {locked : Bool}
    (hm : m.insertPfid rid pfid locked = .ok m') :
    m'.Tallied n ∧ ∀ f, m'.held f = (if pfid = f then 1 else 0) + m.held f := by
  rw [EnqMap.insertPfid] at hm
  cases hr : m.map[rid]? with
  | some d =>
    rw [hr] at hm
    cases hm
  | none =>
    rw [hr] at hm
    cases hm
    have hheld : ∀ f c, EnqMap.held ⟨m.map.insert rid ⟨pfid, locked⟩, c⟩ f =
        (if pfid = f then 1 else 0) + m.held f := fun f _ => mapWeight_insert _ _ _ _ hr
    refine ⟨?_, fun f => hheld f _⟩
    rw [EnqMap.Tallied, h, modify_tally]
    apply tally_congr
    intro f _
    rw [hheld f]
    split <;> omega

theorem EnqMap.Tallied.getRemovePfid {m : EnqMap} {p : Nat × EnqMap} (h : m.Tallied n) {rid : Nat}
    {txnFlag : Bool} (hm : m.getRemovePfid rid txnFlag = .ok p) :
    p.2.Tallied n ∧ ∀ f, p.2.held f ≤ m.held f := by
  rw [EnqMap.getRemovePfid] at hm
  cases hr : m.map[rid]? with
  | none =>
    rw [hr] at hm
    cases hm
  | some d =>
    by_cases hl : (d.lock && !txnFlag) = true
    · simp only [hr, hl, if_true] at hm
      cases hm
    · simp only [hr, hl, Bool.false_eq_true, if_false] at hm
      cases hm
      have hheld := fun f c => Maps.held_erase m rid f hr c
      constructor
      · rw [EnqMap.Tallied, h, modify_tally]
        apply tally_congr
        intro f _
        have hf := hheld f ((tally n m.held).modify d.pfid u32Decr)
        rw [modify_tally] at hf
        simp only
        by_cases hd : d.pfid = f
        · rw [if_pos hd] at hf ⊢
          rw [u32Decr, if_neg (by omega)]
          omega
        · rw [if_neg hd] at hf ⊢
          omega
      · intro f
        have hf := hheld f (m.pfidEnqCnt.modify d.pfid u32Decr)
        simp only
        omega

theorem EnqMap.Tallied.setLock {m : EnqMap} (h : m.Tallied n) (rid : Nat) (b : Bool) :
    (m.setLock rid b).Tallied n := by
  have hcnt : (m.setLock rid b).pfidEnqCnt = m.pfidEnqCnt := rfl
  rw [EnqMap.Tallied, hcnt, h]
  apply tally_congr
  intro f _
  rw [Maps.held_setLock]

theorem TxnMap.Tallied.insertTxnData {m : TxnMap} (h : m.Tallied n) (xid : Xid) (td : TxnData) :
    (m.insertTxnData xid td).Tallied n ∧
      ∀ f, (m.insertTxnData xid td).entriesIn f = m.entriesIn f + if td.pfid = f then 1 else 0 := by
  have hentries : ∀ f, (m.insertTxnData xid td).entriesIn f =
      m.entriesIn f + if td.pfid = f then 1 else 0 := by
    intro f
    rw [TxnMap.entriesIn, opCnt_insertTxnData, List.countP_singleton]
    simp only [beq_iff_eq]
    rfl
  refine ⟨?_, hentries⟩
  have hcnt : (m.insertTxnData xid td).pfidTxnCnt = m.pfidTxnCnt.modify td.pfid (· + 1) := rfl
  rw [TxnMap.Tallied, hcnt, h, modify_tally]
  apply tally_congr
  intro f _
  rw [hentries f]
  split <;> omega

theorem foldl_decr {h : Nat → Nat} (tdl : List TxnData)
    (hle : ∀ f, tdl.countP (fun td => td.pfid == f) ≤ h f) :
    tdl.foldl (fun c td => c.modify td.pfid u32Decr) (tally n h) =
      tally n fun f => h f - tdl.countP fun td => td.pfid == f := by
  induction tdl generalizing h with
  | nil => rfl
  | cons td tdl ih =>
    simp only [List.countP_cons, beq_iff_eq] at hle
    rw [List.foldl_cons, modify_tally, ih]
    · apply tally_congr
      intro f _
      simp only [List.countP_cons, beq_iff_eq]
      have hf := hle f
      by_cases hp : td.pfid = f
      · rw [if_pos hp] at hf ⊢
        rw [if_pos hp, u32Decr, if_neg (by omega)]
        omega
      · rw [if_neg hp] at hf ⊢
        rw [if_neg hp]
        omega
    · intro f
      have hf := hle f
      by_cases hp : td.pfid = f
      · rw [if_pos hp] at hf ⊢
        rw [u32Decr, if_neg (by omega)]
        omega
      · rw [if_neg hp] at hf ⊢
        omega

theorem TxnMap.Tallied.getRemove {m : TxnMap} (h : m.Tallied n) (xid : Xid) :
    (m.getRemoveTdataList xid).2.Tallied n ∧
      ∀ f, (m.getRemoveTdataList xid).2.entriesIn f ≤ m.entriesIn f := by
  have hentries := fun f => opCnt_getRemove m (fun td => td.pfid == f) xid
  constructor
  · rw [TxnMap.Tallied]
    have hcnt : (m.getRemoveTdataList xid).2.pfidTxnCnt =
        (m.getTdataList xid).foldl (fun c td => c.modify td.pfid u32Decr) m.pfidTxnCnt := by
      rw [TxnMap.getRemoveTdataList, TxnMap.getTdataList]
      cases m.map[xid]? <;> rfl
    rw [hcnt, h, foldl_decr]
    · apply tally_congr
      intro f _
      have hf := hentries f
      simp only [TxnMap.entriesIn]
      omega
    · intro f
      have hf := hentries f
      simp only [TxnMap.entriesIn]
      omega
  · intro f
    have hf := hentries f
    simp only [TxnMap.entriesIn]
    omega

theorem countP_markAioCompl (f rid : Nat) (tdl : List TxnData) :
    (TxnMap.markAioCompl rid tdl).countP (fun td => td.pfid == f) =
      tdl.countP fun td => td.pfid == f := by
  induction tdl with
  | nil => rfl
  | cons td tdl ih =>
    rw [TxnMap.markAioCompl]
    split
    · simp only [List.countP_cons]
    · rw [List.countP_cons, ih, List.countP_cons]

theorem TxnMap.Tallied.setAioCompl {m m' : TxnMap} (h : m.Tallied n) {xid : Xid} {rid : Nat}
    (hm : m.setAioCompl xid rid = .ok m') : m'.Tallied n ∧ ∀ f, m'.entriesIn f = m.entriesIn f := by
  rw [TxnMap.setAioCompl] at hm
  cases hx : m.map[xid]? with
  | none =>
    rw [hx] at hm
    cases hm
  | some tdl =>
    by_cases ha : tdl.any (·.rid == rid) = true
    · simp only [hx, ha, if_true] at hm
      cases hm
      have hentries : ∀ f, TxnMap.entriesIn
          ⟨m.map.modify xid (TxnMap.markAioCompl rid), m.pfidTxnCnt⟩ f = m.entriesIn f :=
        fun f => opCnt_modify m _ xid _ (fun l => countP_markAioCompl f rid l) _
      refine ⟨?_, hentries⟩
      exact h.trans (tally_congr fun f _ => (hentries f).symm)
    · simp only [hx, ha, Bool.false_eq_true, if_false] at hm
      cases hm

end Maps

/-! ## The calls -/

/-- The calls of `jcntl` and `wmgr` that change a map. -/
inductive MapOp
  | insertPfid (rid pfid : Nat) (locked : Bool)
  | getRemovePfid (rid : Nat) (txnFlag : Bool)
  | lock (rid : Nat)
  | unlock (rid : Nat)
  | insertTxnData (xid : Xid) (td : TxnData)
  | getRemoveTdataList (xid : Xid)
  | setAioCompl (xid : Xid) (rid : Nat)

namespace MapOp

/-- What a call leaves of `enq_map`; an error code leaves the map as it was. -/
def onEmap (m : EnqMap) : MapOp → EnqMap
  | insertPfid rid pfid locked => (m.insertPfid rid pfid locked).toOption.getD m
  | getRemovePfid rid txnFlag => ((m.getRemovePfid rid txnFlag).toOption.map Prod.snd).getD m
  | lock rid => (m.lock rid).toOption.getD m
  | unlock rid => (m.unlock rid).toOption.getD m
  | _ => m

/-- What a call leaves of `txn_map`. -/
def onTmap (m : TxnMap) : MapOp → TxnMap
  | insertTxnData xid td => m.insertTxnData xid td
  | getRemoveTdataList xid => (m.getRemoveTdataList xid).2
  | setAioCompl xid rid => (m.setAioCompl xid rid).toOption.getD m
  | _ => m

def pfid : MapOp → Option Nat
  | insertPfid _ pfid _ => some pfid
  | insertTxnData _ td => some td.pfid
  | _ => none

end MapOp

/-- `jcntl` with its maps and the position of its writer. The number of files is that of `_lpmgr`,
during a recovery that of `_rcvdat`. -/
structure Jcntl where
  numJfiles : Nat
  initFlag : Bool
  emap : EnqMap
  tmap : TxnMap
  wrfc : Wrfc

namespace Jcntl

def new : Jcntl := ⟨0, false, EnqMap.empty, TxnMap.empty, Wrfc.new⟩

inductive Act
  | op (o : MapOp)
  | rotate
  | init (numJfiles : Nat)
  | recover (numJfiles : Nat)
  | recovered (rd : WrRcvdat)

def cleared (s : Jcntl) (numJfiles : Nat) : Jcntl :=
  { s with
    numJfiles := numJfiles
    emap := s.emap.clear.setNumJfiles numJfiles
    tmap := s.tmap.clear.setNumJfiles numJfiles }

/-- `recover` goes up to the reading of the records, which are calls of their own, and `recovered` is the
rest of it. An `initialize` that stops by an exception leaves the maps as such a `recover` does. -/
def step (s : Jcntl) : Act → Jcntl
  | .op o => { s with emap := o.onEmap s.emap, tmap := o.onTmap s.tmap }
  | .rotate => { s with wrfc := s.wrfc.rotate s.numJfiles }
  | .init n => { s.cleared n with initFlag := true, wrfc := s.wrfc.init }
  | .recover n => { s.cleared n with initFlag := false }
  | .recovered rd => { s with initFlag := true, wrfc := Wrfc.recovered s.numJfiles rd }

/-- `get_earliest_fid`, without the reader that it may start there. -/
def getEarliestFid (s : Jcntl) : Option Nat :=
  ringWalk s.numJfiles
    (fun f => do
      let e ← s.emap.getEnqCnt f
      let t ← s.tmap.getTxnPfidCnt f
      pure (!(e == 0 && t == 0)))
    s.wrfc.fcIndex s.numJfiles (s.wrfc.earliestIndex s.numJfiles)

/-- An enqueued or pending record in file `f`. -/
def Holds (s : Jcntl) (f : Nat) : Prop :=
  (∃ (rid : Nat) (d : EmapData), s.emap.map[rid]? = some d ∧ d.pfid = f) ∨
    ∃ xid, ∃ td ∈ s.tmap.getTdataList xid, td.pfid = f

/-- What the counters and `get_earliest_fid` are to say. -/
structure Right (s : Jcntl) : Prop where
  enqCnt : ∀ f < s.numJfiles, s.emap.getEnqCnt f = some (s.emap.held f)
  txnCnt : ∀ f < s.numJfiles, s.tmap.getTxnPfidCnt f = some (s.tmap.entriesIn f)
  earliest : s.initFlag = true → ∃ f, s.getEarliestFid = some f ∧
    FirstFrom s.numJfiles s.Holds (s.wrfc.earliestIndex s.numJfiles) s.wrfc.fcIndex f

/-- What the callers do: a record stands in a file of the journal, in the first rotation in one that
the writer has come to. A recovery finds a first rotation where the file behind the last one has no
header, and reads no further. -/
def Issued (s : Jcntl) : Act → Prop
  | .op o => ∀ f ∈ o.pfid, f < s.numJfiles ∧
      (s.initFlag = true → s.wrfc.frot = true → f ≤ s.wrfc.fcIndex)
  | .rotate => s.initFlag = true
  | .init n => Store.jrnlMinNumFiles ≤ n ∧ n ≤ Store.jrnlMaxNumFiles
  | .recover n => Store.jrnlMinNumFiles ≤ n ∧ n ≤ Store.jrnlMaxNumFiles
  | .recovered rd => rd.lfid < s.numJfiles ∧ (rd.frot = true → ∀ f, s.Holds f → f ≤ rd.lfid)

def Empties (s : Jcntl) : Act → Prop
  | .init n => ∀ f < n, ¬s.Holds f
  | .recover n => ∀ f < n, ¬s.Holds f
  | _ => True

def IssuedAlong (s : Jcntl) : List Act → Prop
  | [] => True
  | a :: acts => s.Issued a ∧ (s.step a).IssuedAlong acts

def EmptiesAlong (s : Jcntl) : List Act → Prop
  | [] => True
  | a :: acts => s.Empties a ∧ (s.step a).EmptiesAlong acts

def RightAlong (s : Jcntl) : List Act → Prop
  | [] => s.Right
  | a :: acts => s.Right ∧ (s.step a).RightAlong acts

/-! ## Runs -/

theorem holds_iff (s : Jcntl) (f : Nat) : s.Holds f ↔ s.emap.held f ≠ 0 ∨ s.tmap.entriesIn f ≠ 0 := by
  rw [Ne, held_eq_zero_iff, Ne, entriesIn_eq_zero_iff, Holds]
  simp only [not_forall, ne_eq, not_not, exists_prop]

theorem not_holds_of_empty {s : Jcntl} (he : s.emap.map = ∅) (ht : s.tmap.map = ∅) (f : Nat) :
    ¬s.Holds f := by
  rw [holds_iff, EnqMap.held, he, mapWeight_empty, TxnMap.entriesIn, TxnMap.opCnt, ht, mapWeight_empty]
  simp

/-- The counters are right, and a record stands where its caller puts it. -/
structure Inv (s : Jcntl) : Prop where
  emap : s.emap.Tallied s.numJfiles
  tmap : s.tmap.Tallied s.numJfiles
  placed : ∀ f, s.Holds f → f < s.numJfiles ∧
    (s.initFlag = true → s.wrfc.frot = true → f ≤ s.wrfc.fcIndex)
  index : s.initFlag = true → s.wrfc.fcIndex < s.numJfiles

variable {s : Jcntl}

theorem inv_new : new.Inv := by
  refine ⟨rfl, rfl, ?_, ?_⟩
  · intro f hf
    exact (not_holds_of_empty rfl rfl f hf).elim
  · rintro ⟨⟩

theorem Inv.enqCnt (h : s.Inv) {f : Nat} (hf : f < s.numJfiles) :
    s.emap.getEnqCnt f = some (s.emap.held f) := by
  rw [EnqMap.getEnqCnt, h.emap, getElem?_tally hf]

theorem Inv.txnCnt (h : s.Inv) {f : Nat} (hf : f < s.numJfiles) :
    s.tmap.getTxnPfidCnt f = some (s.tmap.entriesIn f) := by
  rw [TxnMap.getTxnPfidCnt, h.tmap, getElem?_tally hf]

/-- With the right counters the walk of `get_earliest_fid` finds the first file that holds a record. -/
theorem Inv.right (h : s.Inv) : s.Right where
  enqCnt := fun _ hf => h.enqCnt hf
  txnCnt := fun _ hf => h.txnCnt hf
  earliest := by
    intro hinit
    have hidx := h.index hinit
    apply ringWalk_first (q := fun f => !(s.emap.held f == 0 && s.tmap.entriesIn f == 0))
    · intro f hf
      rw [h.enqCnt hf, h.txnCnt hf]
      rfl
    · intro f _
      rw [holds_iff, Bool.not_eq_true', Bool.and_eq_false_iff, beq_eq_false_iff_ne, beq_eq_false_iff_ne]
    · exact Wrfc.earliestIndex_lt hidx
    · exact hidx
    · intro d i hd hdi hi hholds
      obtain ⟨hfrot, hlt⟩ := Wrfc.lt_of_behind hidx hd hdi hi
      have hle := (h.placed _ hholds).2 hinit hfrot
      omega

/-- A call on the maps keeps the counters right and adds a record to its file at most. -/
theorem Inv.op (h : s.Inv) (o : MapOp) :
    (o.onEmap s.emap).Tallied s.numJfiles ∧ (o.onTmap s.tmap).Tallied s.numJfiles ∧
      ∀ f, (s.step (.op o)).Holds f → s.Holds f ∨ o.pfid = some f := by
  simp only [holds_iff, step]
  cases o with
  | insertPfid rid pfid locked =>
    simp only [MapOp.onEmap, MapOp.onTmap, MapOp.pfid]
    cases hr : s.emap.insertPfid rid pfid locked with
    | error e => exact ⟨h.emap, h.tmap, fun f hf => .inl hf⟩
    | ok m =>
      obtain ⟨htally, hheld⟩ := h.emap.insertPfid hr
      refine ⟨htally, h.tmap, ?_⟩
      intro f hf
      simp only [Except.toOption, Option.getD_some, hheld f] at hf
      by_cases hp : pfid = f
      · exact .inr (congrArg some hp)
      · rw [if_neg hp, Nat.zero_add] at hf
        exact .inl hf
  | getRemovePfid rid txnFlag =>
    simp only [MapOp.onEmap, MapOp.onTmap, MapOp.pfid]
    cases hr : s.emap.getRemovePfid rid txnFlag with
    | error e => exact ⟨h.emap, h.tmap, fun f hf => .inl hf⟩
    | ok p =>
      obtain ⟨htally, hheld⟩ := h.emap.getRemovePfid hr
      refine ⟨htally, h.tmap, ?_⟩
      intro f hf
      simp only [Except.toOption, Option.map_some, Option.getD_some] at hf
      have hle := hheld f
      left
      omega
  | lock rid =>
    simp only [MapOp.onEmap, MapOp.onTmap, MapOp.pfid, EnqMap.lock]
    cases s.emap.map[rid]? with
    | none => exact ⟨h.emap, h.tmap, fun f hf => .inl hf⟩
    | some d =>
      refine ⟨h.emap.setLock rid true, h.tmap, ?_⟩
      intro f hf
      simp only [Except.toOption, Option.getD_some, Maps.held_setLock] at hf
      exact .inl hf
  | unlock rid =>
    simp only [MapOp.onEmap, MapOp.onTmap, MapOp.pfid, EnqMap.unlock]
    cases s.emap.map[rid]? with
    | none => exact ⟨h.emap, h.tmap, fun f hf => .inl hf⟩
    | some d =>
      refine ⟨h.emap.setLock rid false, h.tmap, ?_⟩
      intro f hf
      simp only [Except.toOption, Option.getD_some, Maps.held_setLock] at hf
      exact .inl hf
  | insertTxnData xid td =>
    simp only [MapOp.onEmap, MapOp.onTmap, MapOp.pfid]
    obtain ⟨htally, hentries⟩ := h.tmap.insertTxnData xid td
    refine ⟨h.emap, htally, ?_⟩
    intro f hf
    rw [hentries f] at hf
    by_cases hp : td.pfid = f
    · exact .inr (congrArg some hp)
    · rw [if_neg hp, Nat.add_zero] at hf
      exact .inl hf
  | getRemoveTdataList xid =>
    simp only [MapOp.onEmap, MapOp.onTmap, MapOp.pfid]
    obtain ⟨htally, hentries⟩ := h.tmap.getRemove xid
    refine ⟨h.emap, htally, ?_⟩
    intro f hf
    have hle := hentries f
    left
    omega
  | setAioCompl xid rid =>
    simp only [MapOp.onEmap, MapOp.onTmap, MapOp.pfid]
    cases hr : s.tmap.setAioCompl xid rid with
    | error e => exact ⟨h.emap, h.tmap, fun f hf => .inl hf⟩
    | ok m =>
      obtain ⟨htally, hentries⟩ := h.tmap.setAioCompl hr
      refine ⟨h.emap, htally, ?_⟩
      intro f hf
      simp only [Except.toOption, Option.getD_some, hentries f] at hf
      exact .inl hf

theorem not_holds_cleared (s : Jcntl) (n f : Nat) : ¬(s.cleared n).Holds f :=
  not_holds_of_empty rfl rfl f

/-- The counters behind `clear` and `set_num_jfiles` are those of the records that the maps held
before. -/
theorem Inv.cleared (h : s.Inv) (n : Nat) :
    (s.cleared n).emap.pfidEnqCnt = tally n s.emap.held ∧
      (s.cleared n).tmap.pfidTxnCnt = tally n s.tmap.entriesIn := by
  have hout : ∀ f, s.numJfiles ≤ f → s.emap.held f = 0 ∧ s.tmap.entriesIn f = 0 := by
    intro f hf
    by_contra hne
    rw [not_and_or] at hne
    have hlt := (h.placed f ((holds_iff s f).mpr hne)).1
    omega
  constructor
  · have hcnt : (s.cleared n).emap.pfidEnqCnt =
        s.emap.pfidEnqCnt.take n ++ List.replicate (n - s.emap.pfidEnqCnt.length) 0 := rfl
    rw [hcnt, h.emap, resize_tally fun f hf => (hout f hf).1]
  · have hcnt : (s.cleared n).tmap.pfidTxnCnt =
        s.tmap.pfidTxnCnt.take n ++ List.replicate (n - s.tmap.pfidTxnCnt.length) 0 := rfl
    rw [hcnt, h.tmap, resize_tally fun f hf => (hout f hf).2]

theorem Inv.tallied_cleared (h : s.Inv) (n : Nat) :
    ((s.cleared n).emap.Tallied n ∧ (s.cleared n).tmap.Tallied n) ↔ ∀ f < n, ¬s.Holds f := by
  have hzero : ∀ f, (s.cleared n).emap.held f = 0 ∧ (s.cleared n).tmap.entriesIn f = 0 := by
    intro f
    have hno := not_holds_cleared s n f
    rwa [holds_iff, not_or, not_not, not_not] at hno
  obtain ⟨he, ht⟩ := h.cleared n
  rw [EnqMap.Tallied, TxnMap.Tallied, he, ht, tally_inj, tally_inj, ← forall₂_and]
  simp only [hzero, holds_iff, not_or, not_not]

/-- A call keeps the invariant where it clears no map with records. -/
theorem Inv.step (h : s.Inv) {a : Act} (ha : s.Issued a) (he : s.Empties a) : (s.step a).Inv := by
  cases a with
  | op o =>
    obtain ⟨hemap, htmap, hholds⟩ := h.op o
    refine ⟨hemap, htmap, ?_, h.index⟩
    intro f hf
    rcases hholds f hf with hold | hnew
    · exact h.placed f hold
    · exact ha f hnew
  | rotate =>
    have hidx := h.index ha
    refine ⟨h.emap, h.tmap, ?_, fun _ => Wrfc.rotate_lt hidx⟩
    intro f hf
    obtain ⟨hlt, hle⟩ := h.placed f hf
    refine ⟨hlt, ?_⟩
    intro hinit hfrot
    simp only [Jcntl.step, Wrfc.rotate] at hfrot ⊢
    by_cases hw : s.wrfc.fcIndex + 1 = s.numJfiles
    · rw [if_pos hw] at hfrot
      cases hfrot
    · rw [if_neg hw] at hfrot ⊢
      exact Nat.le_succ_of_le (hle hinit hfrot)
  | init n =>
    obtain ⟨hemap, htmap⟩ := (h.tallied_cleared n).mpr he
    refine ⟨hemap, htmap, fun f hf => (not_holds_cleared s n f hf).elim, ?_⟩
    intro _
    have hmin : 0 < Store.jrnlMinNumFiles := by decide
    exact Nat.lt_of_lt_of_le hmin ha.1
  | recover n =>
    obtain ⟨hemap, htmap⟩ := (h.tallied_cleared n).mpr he
    refine ⟨hemap, htmap, fun f hf => (not_holds_cleared s n f hf).elim, ?_⟩
    rintro ⟨⟩
  | recovered rd =>
    refine ⟨h.emap, h.tmap, ?_, fun _ => Wrfc.recovered_lt ha.1⟩
    intro f hf
    refine ⟨(h.placed f hf).1, ?_⟩
    intro _ hfrot
    simp only [Jcntl.step, Wrfc.recovered] at hfrot ⊢
    by_cases hfull : rd.lffull = true
    · simp only [hfull, if_true, Wrfc.rotate] at hfrot ⊢
      by_cases hw : rd.lfid + 1 = s.numJfiles
      · rw [if_pos hw] at hfrot
        cases hfrot
      · rw [if_neg hw] at hfrot ⊢
        exact Nat.le_succ_of_le (ha.2 hfrot f hf)
    · rw [if_neg hfull] at hfrot ⊢
      exact ha.2 hfrot f hf

theorem Inv.empties (h : s.Inv) {a : Act} (hr : (s.step a).Right) : s.Empties a := by
  have hclear : ∀ n, (∀ f < n, (s.cleared n).emap.getEnqCnt f = some ((s.cleared n).emap.held f)) →
      (∀ f < n, (s.cleared n).tmap.getTxnPfidCnt f = some ((s.cleared n).tmap.entriesIn f)) →
      ∀ f < n, ¬s.Holds f := by
    intro n henq htxn
    apply (h.tallied_cleared n).mp
    obtain ⟨he, ht⟩ := h.cleared n
    rw [EnqMap.Tallied, TxnMap.Tallied, he, ht, tally_inj, tally_inj]
    constructor
    · intro f hf
      have hcnt := henq f hf
      rw [EnqMap.getEnqCnt, he, getElem?_tally hf] at hcnt
      exact Option.some.inj hcnt
    · intro f hf
      have hcnt := htxn f hf
      rw [TxnMap.getTxnPfidCnt, ht, getElem?_tally hf] at hcnt
      exact Option.some.inj hcnt
  cases a with
  | op o => trivial
  | rotate => trivial
  | init n => exact hclear n hr.enqCnt hr.txnCnt
  | recover n => exact hclear n hr.enqCnt hr.txnCnt
  | recovered rd => trivial

theorem RightAlong.head {acts : List Act} (h : s.RightAlong acts) : s.Right := by
  cases acts with
  | nil => exact h
  | cons a acts => exact h.1

theorem Inv.rightAlong_iff (h : s.Inv) {acts : List Act} (hi : s.IssuedAlong acts) :
    s.RightAlong acts ↔ s.EmptiesAlong acts := by
  induction acts generalizing s with
  | nil => exact iff_of_true h.right trivial
  | cons a acts ih =>
    constructor
    · intro hr
      have he := h.empties (RightAlong.head hr.2)
      exact ⟨he, (ih (h.step hi.1 he) hi.2).mp hr.2⟩
    · intro he
      exact ⟨h.right, (ih (h.step hi.1 he.1) hi.2).mpr he.2⟩

/-- Counters and earliest file are right throughout exactly if the maps are never cleared with records
in files that stay. -/
theorem new_rightAlong_iff {acts : List Act} (hi : new.IssuedAlong acts) :
    new.RightAlong acts ↔ new.EmptiesAlong acts :=
  inv_new.rightAlong_iff hi

instance decidableHolds (s : Jcntl) (f : Nat) : Decidable (s.Holds f) :=
  decidable_of_iff _ (holds_iff s f).symm

/-- The one record left is in a file that a recovery with fewer files does not have. -/
theorem shrunk_rightAlong : new.RightAlong
    [.init 8, .rotate, .op (.insertPfid 3 1 false), .rotate, .rotate, .rotate, .rotate,
      .op (.insertPfid 4 5 false), .op (.getRemovePfid 3 false), .recover 4,
      .op (.insertTxnData [1] { rid := 5, drid := 0, pfid := 2, enqFlag := true }),
      .recovered { lfid := 2, owi := true, frot := false, lffull := true }] := by
  apply (new_rightAlong_iff _).mpr
  · simp only [EmptiesAlong, Empties]
    decide +kernel
  · simp only [IssuedAlong, Issued]
    refine ⟨by decide, rfl, by decide +kernel, rfl, rfl, rfl, rfl, by decide +kernel, by decide +kernel,
      by decide, by decide +kernel, ⟨by decide, ?_⟩, trivial⟩
    rintro ⟨⟩

/-- A record of the journal before the second `initialize` still counts, and reading starts there. -/
theorem reused_not_rightAlong : ¬ ∀ acts, new.IssuedAlong acts → new.RightAlong acts := by
  intro hall
  have hissued : new.IssuedAlong [.init 4, .op (.insertPfid 0 0 false), .init 4, .rotate] := by
    simp only [IssuedAlong, Issued]
    decide +kernel
  obtain ⟨-, -, -, -, hlast⟩ := hall _ hissued
  obtain ⟨f, hf, hfirst⟩ := hlast.earliest rfl
  have hzero : some 0 = some f := by
    rw [← hf]
    decide +kernel
  cases hzero
  rcases hfirst with ⟨i, -, -, hholds, -⟩ | ⟨hcur, -⟩
  · exact not_holds_of_empty rfl rfl 0 hholds
  · cases hcur

end Jcntl

end RhmStore
