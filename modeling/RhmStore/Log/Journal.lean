import RhmStore.Log.Prefix

/-! # A journal as its surviving records and its maps

Files are numbered as they are entered: the `k`th file is `k % n` of the ring of `n`. Entering a
file drops what the ring held there before. -/

namespace RhmStore

/-- A complete record and the file, as entered, that holds its header. -/
structure LogRec where
  jrec : JRec
  inst : Nat
  deriving DecidableEq, Repr

def LogRec.placed (n : Nat) (e : LogRec) : Placed := ⟨e.jrec, e.inst % n⟩

/-- A journal between operations. `used` and `discarded` are history: every rid ever given to a
record, and the rids of the open operations that some recovery found not prepared. -/
structure Journal where
  cur : Nat
  log : List LogRec
  maps : Maps
  used : List Nat
  discarded : List Nat

/-- One operation (with the file of its record's header), the header of the next file that gets to the
disk, or a crash and the recovery after it. -/
inductive LogAct
  | op (r : JRec) (inst : Nat)
  | advance
  | recover (prepared : List Xid)
  deriving DecidableEq, Repr

/-- The checks of `wmgr` on the arguments of an operation. -/
def Maps.checkOp : JRec → MapsM Unit
  | .enq _ _ _ _ _ => pure ()
  | .deq _ drid xid _ => dequeueCheck xid drid
  | .txa _ xid => if xid ≠ [] then pure () else throw .assertFailed
  | .txc _ xid => if xid ≠ [] then pure () else throw .assertFailed

/-- Check and effect of an operation whose record has its header in file `fid`. -/
def Maps.perform (fid : Nat) (r : JRec) : MapsM Unit := do
  Maps.checkOp r
  Maps.complete fid r

/-- The maps that `jcntl::rcvr_janalyze` builds from the records that its walk over the files meets. -/
def janalyze (n : Nat) (log : List Placed) (prepared : List Xid) :
    EStateM.Result JErr Maps Unit :=
  (replay log >>= fun _ => Maps.discard prepared) (Maps.init n)

namespace Journal

def init (n : Nat) : Journal := ⟨0, [], Maps.init n, [], []⟩

def records (n : Nat) (s : Journal) : List Placed := s.log.map (LogRec.placed n)

def openOps (n : Nat) (s : Journal) : List (Xid × TxnData) :=
  (s.records n).flatMap fun p =>
    ((p.entry p.jrec.xid).filter (· ∈ openEntries p.jrec.xid (s.records n))).map (p.jrec.xid, ·)

/-- The header's file is one of the ring's, not before that of any earlier record. -/
def Admits (n : Nat) (s : Journal) (inst : Nat) : Prop :=
  inst ≤ s.cur ∧ s.cur < inst + n ∧ ∀ e ∈ s.log, e.inst ≤ inst

instance (n : Nat) (s : Journal) (inst : Nat) : Decidable (s.Admits n inst) :=
  inferInstanceAs (Decidable (_ ∧ _ ∧ ∀ e ∈ s.log, e.inst ≤ inst))

def step (n : Nat) (s : Journal) : LogAct → Option Journal
  | .op r inst =>
    if r.rid ∉ s.used ∧ r.isTransient = false ∧ s.Admits n inst then
      match Maps.perform (inst % n) r s.maps with
      | .ok _ m => some { s with log := s.log ++ [⟨r, inst⟩], maps := m, used := r.rid :: s.used }
      | .error _ _ => none
    else none
  | .advance =>
    if s.maps.enqCnt.getD ((s.cur + 1) % n) 0 = 0 then
      some { s with cur := s.cur + 1, log := s.log.filter fun e => s.cur + 1 < e.inst + n }
    else none
  | .recover prepared =>
    match janalyze n (s.records n) prepared with
    | .ok _ m =>
      some { s with maps := m, discarded := s.discarded ++
        ((s.openOps n).filter fun o => o.1 ∉ prepared).map (·.2.rid) }
    | .error _ _ => none

def run (n : Nat) (s : Journal) : List LogAct → Option Journal
  | [] => some s
  | a :: acts => (s.step n a).bind fun s' => s'.run n acts

variable {n : Nat} {s s' : Journal}

theorem mem_openOps {x : Xid} {td : TxnData} :
    (x, td) ∈ s.openOps n ↔ td ∈ openEntries x (s.records n) := by
  unfold openOps
  rw [List.mem_flatMap]
  constructor
  · rintro ⟨p, -, h⟩
    obtain ⟨td', h, he⟩ := List.mem_map.mp h
    obtain ⟨-, ho⟩ := List.mem_filter.mp h
    cases he
    simpa using ho
  · intro h
    obtain ⟨p, hp, hpe⟩ := mem_openEntries h
    have hx : p.jrec.xid = x := (mem_entry hpe).2.1
    subst hx
    exact ⟨p, hp, List.mem_map.mpr ⟨td, List.mem_filter.mpr ⟨hpe, by simpa using h⟩, rfl⟩⟩

theorem step_op {r : JRec} {inst : Nat} (h : s.step n (.op r inst) = some s') :
    r.rid ∉ s.used ∧ r.isTransient = false ∧ s.Admits n inst ∧
      ∃ m, Maps.perform (inst % n) r s.maps = .ok () m ∧
        s' = { s with log := s.log ++ [⟨r, inst⟩], maps := m, used := r.rid :: s.used } := by
  simp only [step] at h
  split at h
  · rename_i hc
    cases hp : Maps.perform (inst % n) r s.maps with
    | ok a m =>
      rw [hp] at h
      exact ⟨hc.1, hc.2.1, hc.2.2, m, rfl, (Option.some.inj h).symm⟩
    | error e m =>
      rw [hp] at h
      cases h
  · cases h

theorem step_advance (h : s.step n .advance = some s') :
    s.maps.enqCnt.getD ((s.cur + 1) % n) 0 = 0 ∧
      s' = { s with cur := s.cur + 1, log := s.log.filter fun e => s.cur + 1 < e.inst + n } := by
  simp only [step] at h
  split at h
  · rename_i hc
    exact ⟨hc, (Option.some.inj h).symm⟩
  · cases h

theorem step_recover {prepared : List Xid} (h : s.step n (.recover prepared) = some s') :
    ∃ m, janalyze n (s.records n) prepared = .ok () m ∧
      s' = { s with maps := m, discarded := s.discarded ++
        ((s.openOps n).filter fun o => o.1 ∉ prepared).map (·.2.rid) } := by
  simp only [step] at h
  cases hp : janalyze n (s.records n) prepared with
  | ok a m =>
    rw [hp] at h
    exact ⟨m, rfl, (Option.some.inj h).symm⟩
  | error e m =>
    rw [hp] at h
    cases h

end Journal

end RhmStore
