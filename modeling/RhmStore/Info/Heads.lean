import RhmStore.Info.Analyze

/-! # The file headers of a writer that goes round the ring -/

namespace RhmStore

/-- The writer's position, whether the header of its file has been written since the ring turned to it,
the headers of all files, and the files with headers in the order in which these were written. -/
structure Heads where
  wrfc : Wrfc
  written : Bool
  hdrs : Nat → Option FileHdr
  order : List Nat

namespace Heads

/-- After a restart `_lffull` says whether the replay came to the end of the last file. Where it met an
unaligned torn record, `check_journal_alignment` has put `_lfid` to the file that this starts in. -/
inductive Act
  | writeFhdr (rid fro : Nat)
  | rotate
  | restart (torn : Option Nat) (lffull : Bool)

/-- New files. A journal object used before keeps the indicator and the flag of its `wrfc`. -/
def start (w : Wrfc) : Heads := ⟨w.init, false, fun _ => none, []⟩

def files (ji : Jinf) (s : Heads) (pfid : Nat) : Option DataFile :=
  if pfid < ji.numJfiles then
    some ⟨ji.fileBytes, match s.hdrs pfid with
      | some h => .hdr h
      | none => .zero⟩
  else none

/-- `wmgr::write_fhdr`. -/
def writeFhdr (rid fro : Nat) (s : Heads) : Heads :=
  let f := s.wrfc.fcIndex
  { s with
    written := true
    hdrs := Function.update s.hdrs f (some ⟨rid, f, f, fro, s.wrfc.owi⟩)
    order := s.order.erase f ++ [f] }

/-- What `jcntl::rcvr_janalyze` hands on to `wrfc::initialize`. -/
def rcvdat (ji : Jinf) (s : Heads) (torn : Option Nat) (lffull : Bool) : Except JinfErr WrRcvdat :=
  match ji.analyze (s.files ji) with
  | .ok a => .ok ⟨torn.getD (a.lastPfid.getD 0), a.initialOwi, a.frot, lffull⟩
  | .error .jdatEmpty => .ok ⟨0, false, false, false⟩
  | .error e => .error e

/-- A header is written where the file has none since the ring turned to it; the ring turns on from a
full file, which has its header. A replay comes to the end of a file only if the ring has turned on
from it. -/
def step (ji : Jinf) (s : Heads) : Act → Option Heads
  | .writeFhdr rid fro => if s.written then none else some (s.writeFhdr rid fro)
  | .rotate =>
    if s.written then some { s with wrfc := s.wrfc.rotate ji.numJfiles, written := false } else none
  | .restart torn lffull =>
    if s.written && lffull then none
    else
      match s.rcvdat ji torn lffull with
      | .ok rd => some { s with
          wrfc := Wrfc.recovered ji.numJfiles rd, written := !rd.lffull && (s.hdrs rd.lfid).isSome }
      | .error _ => none

def run (ji : Jinf) (s : Heads) : List Act → Option Heads
  | [] => some s
  | a :: acts => (s.step ji a).bind fun s' => s'.run ji acts

def Act.Stays : Act → Prop
  | .restart torn _ => torn = none
  | _ => True

/-- The headers give the writer's position back. -/
structure Located (ji : Jinf) (s : Heads) (a : Analyzed) : Prop where
  pfidList : a.pfidList = s.order
  initialOwi : ∃ h, s.hdrs 0 = some h ∧ a.initialOwi = h.owi
  normalized : a.normalizedPfidList = .ok (List.range s.order.length)
  headed : ∀ f < ji.numJfiles, (s.hdrs f).isSome ↔ f < s.order.length
  resumed : ∀ lfid ∈ a.lastPfid,
    (Wrfc.recovered ji.numJfiles ⟨lfid, a.initialOwi, a.frot, !s.written⟩).fcIndex = s.wrfc.fcIndex ∧
    (Wrfc.recovered ji.numJfiles ⟨lfid, a.initialOwi, a.frot, !s.written⟩).owi = s.wrfc.owi

def upTo (s : Heads) : Nat := s.wrfc.fcIndex + if s.written then 1 else 0

/-- The header of file `f` with this indicator. -/
def Has (s : Heads) (f : Nat) (o : Bool) : Prop :=
  ∃ h, s.hdrs f = some h ∧ h.pfid = f ∧ h.lfid = f ∧ h.owi = o

/-- Up to the last header written the files have the writer's indicator; behind it they have none, or
all the other one. -/
structure Inv (ji : Jinf) (s : Heads) : Prop where
  index : s.wrfc.fcIndex < ji.numJfiles
  newer : ∀ f < s.upTo, s.Has f s.wrfc.owi
  older : ((∀ f, s.upTo ≤ f → f < ji.numJfiles → s.hdrs f = none) ∧ s.order = List.range s.upTo) ∨
    ((∀ f, s.upTo ≤ f → f < ji.numJfiles → s.Has f (!s.wrfc.owi)) ∧
      s.order = List.range' s.upTo (ji.numJfiles - s.upTo) ++ List.range s.upTo)

variable {ji : Jinf} {s s' : Heads} {o : Bool}

theorem Inv.upTo_le (h : Inv ji s) : s.upTo ≤ ji.numJfiles := by
  have hi := h.index
  rw [upTo]
  split <;> omega

theorem Has.file {f : Nat} (h : s.Has f o) (hf : f < ji.numJfiles) :
    ∃ h, s.files ji f = some ⟨ji.fileBytes, .hdr h⟩ ∧ h.pfid = f ∧ h.lfid = f ∧ h.owi = o := by
  obtain ⟨h, hh, hp, hl, ho⟩ := h
  refine ⟨h, ?_, hp, hl, ho⟩
  rw [files, if_pos hf, hh]

theorem file_zero {f : Nat} (h : s.hdrs f = none) (hf : f < ji.numJfiles) :
    s.files ji f = some ⟨ji.fileBytes, .zero⟩ := by
  rw [files, if_pos hf, h]

theorem inv_start (hn : 0 < ji.numJfiles) (w : Wrfc) : Inv ji (start w) where
  index := hn
  newer := fun f hf => absurd hf (Nat.not_lt_zero f)
  older := .inl ⟨fun _ _ _ => rfl, rfl⟩

theorem analyze_empty (hv : ji.validate = .ok ()) (hn : 0 < ji.numJfiles) (h : s.hdrs 0 = none) :
    ji.analyze (s.files ji) = .error .jdatEmpty := by
  obtain ⟨k, hk⟩ : ∃ k, ji.numJfiles = k + 1 := ⟨ji.numJfiles - 1, by omega⟩
  have hloop : ∀ a, ji.analyzeLoop (s.files ji) 0 a ji.numJfiles = .error .jdatEmpty := by
    intro a
    rw [hk, Jinf.analyzeLoop, file_zero h hn]
    simp only [ne_eq, not_true_eq_false, if_false, if_true]
  rw [Jinf.analyze, hv, hloop]
  rfl

theorem normalized_ringFrom {c n : Nat} (hc : c < n) (o frot : Bool) :
    (⟨ringFrom c n, o, frot⟩ : Analyzed).normalizedPfidList = .ok (List.range n) := by
  obtain ⟨hlt, hat⟩ := idxOf_ringFrom hc
  have hlen := length_ringFrom (Nat.le_of_lt hc)
  simp only [Analyzed.normalizedPfidList, hlen]
  rw [if_neg (Nat.ne_of_lt hlt), List.range'_eq_map_range, List.map_map]
  congr 1
  conv_rhs => rw [← List.map_id (List.range n)]
  apply List.map_congr_left
  intro j hj
  have hjn := List.mem_range.mp hj
  rw [Function.comp_apply, getD_ringFrom hc (Nat.mod_lt _ (by omega)), id_eq]
  rw [ringAt] at hat
  rw [ringAt, Nat.add_mod_mod, ← Nat.add_assoc, Nat.add_mod, hat, Nat.zero_add, Nat.mod_mod,
    Nat.mod_eq_of_lt hjn]

theorem Inv.order_eq (h : Inv ji s) (hne : s.order ≠ []) :
    ∃ c, c < s.order.length ∧ s.order = ringFrom c s.order.length := by
  have hle := h.upTo_le
  rcases h.older with ⟨-, horder⟩ | ⟨-, horder⟩
  · refine ⟨0, List.length_pos_of_ne_nil hne, ?_⟩
    rw [ringFrom_zero, horder, List.length_range]
  · rw [← ringFrom] at horder
    have hlen : s.order.length = ji.numJfiles := by rw [horder, length_ringFrom hle]
    rcases Nat.lt_or_eq_of_le hle with hlt | heq
    · exact ⟨s.upTo, by omega, by rw [hlen, horder]⟩
    · refine ⟨0, List.length_pos_of_ne_nil hne, ?_⟩
      rw [ringFrom_zero, hlen, horder, heq, ringFrom_self]

/-- The analysis of a journal with a header finds the files in order, and the indicator of file 0. -/
theorem Inv.analyze (h : Inv ji s) (hv : ji.validate = .ok ()) (hne : s.order ≠ []) :
    ∃ frot, ji.analyze (s.files ji) =
      .ok ⟨s.order, if s.upTo = 0 then !s.wrfc.owi else s.wrfc.owi, frot⟩ := by
  have hle := h.upTo_le
  have hnew : ∀ m, m ≤ s.upTo → Jinf.Headed ji (s.files ji) 0 m s.wrfc.owi := by
    intro m hm f _ hf
    exact (h.newer f (by omega)).file (by omega)
  by_cases hc : s.upTo = 0
  · rw [if_pos hc]
    have hn : 0 < ji.numJfiles := Nat.zero_lt_of_lt h.index
    rcases h.older with ⟨-, horder⟩ | ⟨hold, horder⟩
    · rw [hc] at horder
      exact (hne horder).elim
    · rw [← ringFrom, hc, ringFrom_zero] at horder
      refine ⟨false, ?_⟩
      rw [horder]
      apply Jinf.analyze_uniform hv hn
      intro f _ hf
      exact (hold f (by omega) (by omega)).file (by omega)
  · rw [if_neg hc]
    have hpos : 0 < s.upTo := Nat.pos_of_ne_zero hc
    rcases Nat.lt_or_eq_of_le hle with hlt | heq
    · rcases h.older with ⟨hnone, horder⟩ | ⟨hold, horder⟩
      · refine ⟨true, ?_⟩
        rw [horder]
        exact Jinf.analyze_partial hv hpos hlt (hnew _ (Nat.le_refl _))
          (file_zero (hnone _ (Nat.le_refl _) hlt) hlt)
      · refine ⟨false, ?_⟩
        rw [horder]
        apply Jinf.analyze_mixed hv hpos hlt (hnew _ (Nat.le_refl _))
        intro f hf hf'
        exact (hold f hf (by omega)).file (by omega)
    · have horder : s.order = List.range ji.numJfiles := by
        rcases h.older with ⟨-, horder⟩ | ⟨-, horder⟩
        · rw [horder, heq]
        · rw [horder, ← ringFrom, heq, ringFrom_self]
      refine ⟨false, ?_⟩
      rw [horder]
      exact Jinf.analyze_uniform hv (by omega) (hnew _ (Nat.le_of_eq heq.symm))

theorem Inv.headed (h : Inv ji s) {f : Nat} (hf : f < ji.numJfiles) :
    (s.hdrs f).isSome ↔ f < s.order.length := by
  have hle := h.upTo_le
  by_cases hfc : f < s.upTo
  · obtain ⟨hd, hhd, -⟩ := h.newer f hfc
    rw [hhd]
    refine iff_of_true rfl ?_
    rcases h.older with ⟨-, horder⟩ | ⟨-, horder⟩
    · rwa [horder, List.length_range]
    · rwa [horder, ← ringFrom, length_ringFrom hle]
  · rcases h.older with ⟨hnone, horder⟩ | ⟨hold, horder⟩
    · rw [hnone f (by omega) hf, horder, List.length_range]
      exact iff_of_false Bool.false_ne_true hfc
    · obtain ⟨hd, hhd, -⟩ := hold f (by omega) hf
      rw [hhd, horder, ← ringFrom, length_ringFrom hle]
      exact iff_of_true rfl hf

/-- The last file with a header: the writer's or, just behind it, the one before. -/
theorem Inv.last (h : Inv ji s) (hne : s.order ≠ []) :
    s.order.getLast? = some (if s.upTo = 0 then ji.numJfiles - 1 else s.upTo - 1) := by
  have hn : 0 < ji.numJfiles := Nat.zero_lt_of_lt h.index
  have hlast : ∀ m, 0 < m → (List.range m).getLast? = some (m - 1) := by
    intro m hm
    obtain ⟨k, rfl⟩ : ∃ k, m = k + 1 := ⟨m - 1, by omega⟩
    rw [List.range_succ, List.getLast?_concat, Nat.add_sub_cancel]
  by_cases hc : s.upTo = 0
  · rw [if_pos hc]
    rcases h.older with ⟨-, horder⟩ | ⟨-, horder⟩
    · rw [hc] at horder
      exact (hne horder).elim
    · rw [horder, ← ringFrom, hc, ringFrom_zero]
      exact hlast _ hn
  · rw [if_neg hc]
    have hpos : 0 < s.upTo := Nat.pos_of_ne_zero hc
    rcases h.older with ⟨-, horder⟩ | ⟨-, horder⟩
    · rw [horder]
      exact hlast _ hpos
    · rw [horder, List.getLast?_append_of_ne_nil]
      · exact hlast _ hpos
      · rw [Ne, List.range_eq_nil]
        exact hc

/-- From the last file and the indicator of file 0 the writer comes to where it was. -/
theorem Inv.resumed (h : Inv ji s) (frot : Bool) :
    let w := Wrfc.recovered ji.numJfiles ⟨if s.upTo = 0 then ji.numJfiles - 1 else s.upTo - 1,
      if s.upTo = 0 then !s.wrfc.owi else s.wrfc.owi, frot, !s.written⟩
    w.fcIndex = s.wrfc.fcIndex ∧ w.owi = s.wrfc.owi := by
  have hidx := h.index
  cases hw : s.written with
  | true =>
    have hup : s.upTo = s.wrfc.fcIndex + 1 := by rw [upTo, hw, if_pos rfl]
    simp only [Wrfc.recovered, hup, Nat.add_one_ne_zero, if_false, Nat.add_sub_cancel, Bool.not_true,
      Bool.false_eq_true, and_self]
  | false =>
    have hup : s.upTo = s.wrfc.fcIndex := by rw [upTo, hw, if_neg Bool.false_ne_true, Nat.add_zero]
    simp only [Wrfc.recovered, hup, Bool.not_false, if_true, Wrfc.rotate]
    by_cases hz : s.wrfc.fcIndex = 0
    · rw [if_pos hz, if_pos hz, if_pos (by omega)]
      exact ⟨hz.symm, Bool.not_not _⟩
    · rw [if_neg hz, if_neg hz, if_neg (by omega)]
      exact ⟨by simp only; omega, rfl⟩

/-- The analysis of a journal with a header gives the writer's position back. -/
theorem Inv.located (h : Inv ji s) (hv : ji.validate = .ok ()) (hne : s.order ≠ []) :
    ∃ a, ji.analyze (s.files ji) = .ok a ∧ Located ji s a := by
  obtain ⟨frot, ha⟩ := h.analyze hv hne
  refine ⟨_, ha, rfl, ?_, ?_, fun f hf => h.headed hf, ?_⟩
  · have hn : 0 < ji.numJfiles := Nat.zero_lt_of_lt h.index
    by_cases hc : s.upTo = 0
    · rcases h.older with ⟨-, horder⟩ | ⟨hold, -⟩
      · rw [hc] at horder
        exact (hne horder).elim
      · obtain ⟨hd, hhd, -, -, ho⟩ := hold 0 (by omega) hn
        refine ⟨hd, hhd, ?_⟩
        simp only [hc, if_true, ho]
    · obtain ⟨hd, hhd, -, -, ho⟩ := h.newer 0 (Nat.pos_of_ne_zero hc)
      refine ⟨hd, hhd, ?_⟩
      simp only [hc, if_false, ho]
  · obtain ⟨c, hc, horder⟩ := h.order_eq hne
    conv_lhs => rw [horder]
    exact normalized_ringFrom hc _ _
  · intro lfid hl
    rw [Analyzed.lastPfid, h.last hne] at hl
    cases hl
    exact h.resumed frot

/-! ## Runs -/

theorem Inv.writeFhdr (h : Inv ji s) (hw : s.written = false) (rid fro : Nat) :
    Inv ji (s.writeFhdr rid fro) := by
  have hidx := h.index
  have hup : s.upTo = s.wrfc.fcIndex := by rw [upTo, hw, if_neg Bool.false_ne_true, Nat.add_zero]
  have hup' : (s.writeFhdr rid fro).upTo = s.wrfc.fcIndex + 1 := rfl
  have hnewer := h.newer
  have holder := h.older
  rw [hup] at hnewer holder
  have hother : ∀ f, f ≠ s.wrfc.fcIndex → (s.writeFhdr rid fro).hdrs f = s.hdrs f :=
    fun f hf => Function.update_of_ne hf _ _
  refine ⟨hidx, ?_, ?_⟩
  · intro f hf
    rw [hup'] at hf
    by_cases hfc : f = s.wrfc.fcIndex
    · subst hfc
      exact ⟨_, Function.update_self _ _ _, rfl, rfl, rfl⟩
    · rw [Has, hother f hfc]
      exact hnewer f (by omega)
  · rw [hup']
    have hsucc : List.range (s.wrfc.fcIndex + 1) = List.range s.wrfc.fcIndex ++ [s.wrfc.fcIndex] :=
      List.range_succ
    have horder' : (s.writeFhdr rid fro).order = s.order.erase s.wrfc.fcIndex ++ [s.wrfc.fcIndex] := rfl
    rcases holder with ⟨hnone, horder⟩ | ⟨hold, horder⟩
    · left
      constructor
      · intro f hf hfn
        rw [hother f (by omega)]
        exact hnone f (by omega) hfn
      · rw [horder', horder, List.erase_of_not_mem List.not_mem_range_self, hsucc]
    · right
      constructor
      · intro f hf hfn
        rw [Has, hother f (by omega)]
        exact hold f (by omega) hfn
      · obtain ⟨k, hk⟩ : ∃ k, ji.numJfiles - s.wrfc.fcIndex = k + 1 :=
          ⟨ji.numJfiles - s.wrfc.fcIndex - 1, by omega⟩
        have hk' : ji.numJfiles - (s.wrfc.fcIndex + 1) = k := by omega
        rw [horder', horder, hk, hk', List.range'_succ, List.cons_append, List.erase_cons_head,
          List.append_assoc, ← hsucc]

theorem Inv.rotate (h : Inv ji s) (hw : s.written = true) :
    Inv ji { s with wrfc := s.wrfc.rotate ji.numJfiles, written := false } := by
  have hidx := h.index
  have hup : s.upTo = s.wrfc.fcIndex + 1 := by rw [upTo, hw, if_pos rfl]
  have hnewer := h.newer
  have holder := h.older
  rw [hup] at hnewer holder
  by_cases hwrap : s.wrfc.fcIndex + 1 = ji.numJfiles
  · -- the ring is complete: all headers are old ones now
    rw [Wrfc.rotate, if_pos hwrap]
    refine ⟨by simp only; omega, fun f hf => absurd hf (Nat.not_lt_zero f), .inr ⟨?_, ?_⟩⟩
    · intro f _ hf
      simp only [Bool.not_not]
      exact hnewer f (by omega)
    · have horder : s.order = List.range ji.numJfiles := by
        rcases holder with ⟨-, horder⟩ | ⟨-, horder⟩
        · rw [horder, hwrap]
        · rw [horder, ← ringFrom, hwrap, ringFrom_self]
      exact horder.trans (ringFrom_zero _).symm
  · rw [Wrfc.rotate, if_neg hwrap]
    exact ⟨by simp only; omega, hnewer, holder⟩

/-- The flag of the first rotation plays no part. -/
theorem Inv.congr (h : Inv ji s) {w : Wrfc} (hi : w.fcIndex = s.wrfc.fcIndex) (ho : w.owi = s.wrfc.owi) :
    Inv ji { s with wrfc := w } := by
  have hup : upTo { s with wrfc := w } = s.upTo := by simp only [upTo, hi]
  refine ⟨?_, ?_, ?_⟩
  · rw [hi]
    exact h.index
  · rw [hup, ho]
    exact h.newer
  · rw [hup, ho]
    exact h.older

theorem Inv.reopen (h : Inv ji s) (hw : s.written = false) (hne : s.order ≠ []) {w : Wrfc}
    (hi : w.fcIndex = if s.upTo = 0 then ji.numJfiles - 1 else s.upTo - 1)
    (ho : w.owi = if s.upTo = 0 then !s.wrfc.owi else s.wrfc.owi) :
    Inv ji { s with wrfc := w, written := true } := by
  have hidx := h.index
  have hup : s.upTo = s.wrfc.fcIndex := by rw [upTo, hw, if_neg Bool.false_ne_true, Nat.add_zero]
  have hup' : upTo { s with wrfc := w, written := true } = w.fcIndex + 1 := by simp only [upTo, if_true]
  by_cases hz : s.upTo = 0
  · -- the ring is complete again
    rw [if_pos hz] at hi ho
    rcases h.older with ⟨-, horder⟩ | ⟨hold, horder⟩
    · rw [hz] at horder
      exact (hne horder).elim
    · have hn : w.fcIndex + 1 = ji.numJfiles := by omega
      refine ⟨by simp only; omega, ?_, .inl ⟨?_, ?_⟩⟩
      · rw [hup', hn, ho]
        exact fun f hf => hold f (by omega) hf
      · rw [hup', hn]
        exact fun f hf hf' => absurd hf (Nat.not_le_of_lt hf')
      · rw [hup', hn]
        rw [hz, ← ringFrom, ringFrom_zero] at horder
        exact horder
  · rw [if_neg hz] at hi ho
    have hn : w.fcIndex + 1 = s.upTo := by omega
    refine ⟨by simp only; omega, ?_, ?_⟩
    · rw [hup', hn, ho]
      exact h.newer
    · rw [hup', hn, ho]
      exact h.older

/-- Without a header there is nothing in front of the writer, nor behind it. -/
theorem Inv.empty (h : Inv ji s) (hne : s.order = []) : s.upTo = 0 ∧ ∀ f < ji.numJfiles, s.hdrs f = none := by
  rcases h.older with ⟨hnone, horder⟩ | ⟨-, horder⟩
  · rw [hne] at horder
    have hup := List.range_eq_nil.mp horder.symm
    refine ⟨hup, ?_⟩
    rw [hup] at hnone
    exact fun f hf => hnone f (Nat.zero_le f) hf
  · have hidx := h.index
    rw [← ringFrom, hne] at horder
    have hlen := congrArg List.length horder
    rw [length_ringFrom h.upTo_le, List.length_nil] at hlen
    omega

/-- A restart leaves the writer in its place, or brings it back to the last file with a header. -/
theorem Inv.restart (h : Inv ji s) (hv : ji.validate = .ok ()) {lffull : Bool}
    (hl : s.written = true → lffull = false) : ∃ rd, s.rcvdat ji none lffull = .ok rd ∧
      Inv ji { s with
        wrfc := Wrfc.recovered ji.numJfiles rd, written := !rd.lffull && (s.hdrs rd.lfid).isSome } := by
  have hn : 0 < ji.numJfiles := Nat.zero_lt_of_lt h.index
  by_cases hne : s.order = []
  · -- no header is written yet
    obtain ⟨hup, hnone⟩ := h.empty hne
    refine ⟨⟨0, false, false, false⟩, ?_, ?_⟩
    · rw [rcvdat, analyze_empty hv hn (hnone 0 hn)]
    · simp only [hnone 0 hn, Option.isSome_none, Bool.and_false]
      have hup' : upTo { s with
          wrfc := Wrfc.recovered ji.numJfiles ⟨0, false, false, false⟩, written := false } = 0 := by
        simp only [upTo, Bool.false_eq_true, if_false, Wrfc.recovered]
      refine ⟨hn, ?_, .inl ⟨?_, ?_⟩⟩
      · rw [hup']
        exact fun f hf => absurd hf (Nat.not_lt_zero f)
      · exact fun f _ hf => hnone f hf
      · rw [hup']
        exact hne
  · obtain ⟨frot, ha⟩ := h.analyze hv hne
    refine ⟨_, by rw [rcvdat, ha], ?_⟩
    simp only [Analyzed.lastPfid, h.last hne, Option.getD_some, Option.getD_none]
    by_cases hsame : lffull = !s.written
    · -- the headers say where the writer was
      subst hsame
      obtain ⟨hidx, howi⟩ := h.resumed frot
      have hhead : s.written = true → (s.hdrs (if s.upTo = 0 then ji.numJfiles - 1 else s.upTo - 1)).isSome := by
        intro hw
        have hup : s.upTo = s.wrfc.fcIndex + 1 := by rw [upTo, hw, if_pos rfl]
        obtain ⟨hd, hhd, -⟩ := h.newer s.wrfc.fcIndex (by omega)
        rw [if_neg (by omega), hup, Nat.add_sub_cancel, hhd]
        rfl
      have hwritten : (!(!s.written) &&
          (s.hdrs (if s.upTo = 0 then ji.numJfiles - 1 else s.upTo - 1)).isSome) = s.written := by
        cases hw : s.written with
        | true => simp [hhead hw]
        | false => rfl
      rw [hwritten]
      exact h.congr hidx howi
    · -- what was written behind the last header has not all got to the disk
      have hw : s.written = false := by
        cases hw : s.written with
        | false => rfl
        | true =>
          rw [hl hw, hw] at hsame
          exact absurd rfl hsame
      have hlf : lffull = false := by
        cases lffull with
        | false => rfl
        | true =>
          rw [hw] at hsame
          exact absurd rfl hsame
      subst hlf
      have hhead : (s.hdrs (if s.upTo = 0 then ji.numJfiles - 1 else s.upTo - 1)).isSome := by
        by_cases hz : s.upTo = 0
        · rw [if_pos hz]
          rcases h.older with ⟨-, horder⟩ | ⟨hold, -⟩
          · rw [hz] at horder
            exact (hne horder).elim
          · obtain ⟨hd, hhd, -⟩ := hold (ji.numJfiles - 1) (by omega) (by omega)
            rw [hhd]
            rfl
        · rw [if_neg hz]
          obtain ⟨hd, hhd, -⟩ := h.newer (s.upTo - 1) (by omega)
          rw [hhd]
          rfl
      rw [hhead]
      exact h.reopen hw hne rfl rfl

theorem Inv.step (h : Inv ji s) (hv : ji.validate = .ok ()) {a : Act} (ha : a.Stays)
    (hs : s.step ji a = some s') : Inv ji s' := by
  cases a with
  | writeFhdr rid fro =>
    rw [Heads.step] at hs
    by_cases hw : s.written = true
    · rw [if_pos hw] at hs
      cases hs
    · rw [if_neg hw] at hs
      cases hs
      exact h.writeFhdr (Bool.eq_false_iff.mpr hw) rid fro
  | rotate =>
    rw [Heads.step] at hs
    by_cases hw : s.written = true
    · rw [if_pos hw] at hs
      cases hs
      exact h.rotate hw
    · rw [if_neg hw] at hs
      cases hs
  | restart torn lffull =>
    obtain rfl : torn = none := ha
    rw [Heads.step] at hs
    by_cases hc : (s.written && lffull) = true
    · rw [if_pos hc] at hs
      cases hs
    · have hl : s.written = true → lffull = false := by
        intro hw
        rw [hw, Bool.true_and, Bool.not_eq_true] at hc
        exact hc
      obtain ⟨rd, hrd, hinv⟩ := h.restart hv hl
      rw [if_neg hc, hrd] at hs
      cases hs
      exact hinv

theorem Inv.run (h : Inv ji s) (hv : ji.validate = .ok ()) {acts : List Act} (ha : ∀ a ∈ acts, a.Stays)
    (hr : s.run ji acts = some s') : Inv ji s' := by
  induction acts generalizing s with
  | nil =>
    cases hr
    exact h
  | cons a acts ih =>
    obtain ⟨t, ht, hrest⟩ := Option.bind_eq_some_iff.mp hr
    exact ih (h.step hv (ha a List.mem_cons_self) ht) (fun b hb => ha b (List.mem_cons_of_mem a hb)) hrest

/-- In every history of a writer, once it has written a header, the headers give its position back,
unless a restart has set it back behind its last header. -/
theorem run_located (hv : ji.validate = .ok ()) {w : Wrfc} {acts : List Act} (hstay : ∀ a ∈ acts, a.Stays)
    (hr : (start w).run ji acts = some s) (hne : s.order ≠ []) :
    ∃ a, ji.analyze (s.files ji) = .ok a ∧ Located ji s a := by
  have hmin := ((Jinf.validate_iff ji).mp hv).2.1
  have hn : 0 < ji.numJfiles := Nat.lt_of_lt_of_le (by decide) hmin
  exact ((inv_start hn w).run hv hstay hr).located hv hne

/-- A journal of four files. -/
def fourFiles : Jinf where
  jver := Jinf.rhmJdatVersion
  jid := ['q']
  jdir := ['d']
  baseFilename := ['b']
  tvSec := 0
  tvNsec := 0
  tm := ⟨1970, 1, 1, 0, 0, 0⟩
  numJfiles := 4
  ae := false
  aeMaxJfiles := 0
  jfsizeSblks := 128
  sblkSizeDblks := jrnlSblkSize
  dblkSize := jrnlDblkSize
  wcachePgsizeSblks := 64
  wcacheNumPages := 32
  rcachePgsizeSblks := 128
  rcacheNumPages := 16

/-- A writer in its second round, restarted just before it, and in the first when pages were lost. -/
theorem fourFiles_located : ∃ s, (start Wrfc.new).run fourFiles
    [.writeFhdr 1 0, .rotate, .writeFhdr 2 0, .rotate, .restart none false, .rotate, .writeFhdr 3 0, .rotate,
      .writeFhdr 4 0, .rotate, .restart none true, .writeFhdr 5 0, .rotate] = some s ∧
    s.order = [1, 2, 3, 0] ∧ ∃ a, fourFiles.analyze (s.files fourFiles) = .ok a ∧ Located fourFiles s a := by
  have horder : ((start Wrfc.new).run fourFiles
      [.writeFhdr 1 0, .rotate, .writeFhdr 2 0, .rotate, .restart none false, .rotate, .writeFhdr 3 0,
        .rotate, .writeFhdr 4 0, .rotate, .restart none true, .writeFhdr 5 0, .rotate]).map Heads.order =
      some [1, 2, 3, 0] := by decide +kernel
  obtain ⟨s, hs, ho⟩ := Option.map_eq_some_iff.mp horder
  refine ⟨s, hs, ho, run_located (by rfl) (by simp [Act.Stays]) hs ?_⟩
  rw [ho]
  exact List.cons_ne_nil _ _

/-- A writer that has not written anything, and one that a torn record has set back from file 1. -/
theorem fourFiles_not_located :
    (∃ s, (start Wrfc.new).run fourFiles [] = some s ∧
      ¬∃ a, fourFiles.analyze (s.files fourFiles) = .ok a ∧ Located fourFiles s a) ∧
    ∃ s, (start Wrfc.new).run fourFiles
      [.writeFhdr 1 0, .rotate, .writeFhdr 2 0, .restart (some 0) false] = some s ∧
      ¬∃ a, fourFiles.analyze (s.files fourFiles) = .ok a ∧ Located fourFiles s a := by
  constructor
  · refine ⟨start Wrfc.new, rfl, fun h => ?_⟩
    obtain ⟨a, ha, -⟩ := h
    rw [analyze_empty rfl (by decide) rfl] at ha
    cases ha
  · have hback : ((start Wrfc.new).run fourFiles
        [.writeFhdr 1 0, .rotate, .writeFhdr 2 0, .restart (some 0) false]).map
          (fun s => (s.wrfc.fcIndex, s.written, (fourFiles.analyze (s.files fourFiles)).toOption)) =
        some (0, true, some ⟨[0, 1], false, true⟩) := by decide +kernel
    obtain ⟨s, hs, hb⟩ := Option.map_eq_some_iff.mp hback
    refine ⟨s, hs, fun h => ?_⟩
    obtain ⟨a, ha, hloc⟩ := h
    obtain ⟨hidx, hb⟩ := Prod.mk.inj hb
    obtain ⟨hw, hb⟩ := Prod.mk.inj hb
    rw [ha] at hb
    obtain rfl : a = ⟨[0, 1], false, true⟩ := Option.some.inj hb
    have hres := (hloc.resumed 1 rfl).1
    rw [hidx, hw] at hres
    cases hres

end Heads

end RhmStore
