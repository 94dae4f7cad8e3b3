import RhmStore.Info.Jinf
import RhmStore.Lib.MapWeight
import RhmStore.Ring.Wrfc

/-! # Finding the position in the ring from the file headers -/

namespace RhmStore

open Std

/-- What a data file starts with: zeros, something else, or a file header. -/
inductive FileHead
  | zero
  | other
  | hdr (h : FileHdr)
  deriving DecidableEq, Repr

/-- A data file as `jinf::analyze` sees it. -/
structure DataFile where
  size : Nat
  head : FileHead
  deriving DecidableEq, Repr

/-- `lp_map`: logical to physical file ids. -/
abbrev LpMap := ExtTreeMap Nat Nat

namespace LpMap

/-- `lp_map::insert`. -/
def add (m : LpMap) (lfid pfid : Nat) : Except JinfErr LpMap :=
  match m[lfid]? with
  | some _ => .error .mapDuplicate
  | none => .ok (m.insert lfid pfid)

/-- `lp_map::get_pfid_list`. -/
def pfidList (m : LpMap) : List Nat := m.toList.map Prod.snd

end LpMap

/-- The variables of the loop of `jinf::analyze`. -/
structure Analysis where
  earlyMap : LpMap
  lateMap : LpMap
  lateLatch : Bool
  initialOwi : Bool
  frot : Bool

/-- What `jinf::analyze` leaves. -/
structure Analyzed where
  pfidList : List Nat
  initialOwi : Bool
  frot : Bool
  deriving DecidableEq, Repr

namespace Jinf

def fileBytes (ji : Jinf) : Nat := (ji.jfsizeSblks + 1) * ji.sblkSizeDblks * ji.dblkSize

def addHdr (ji : Jinf) (pfid : Nat) (h : FileHdr) (a : Analysis) : Except JinfErr Analysis :=
  if pfid = 0 then do
    let m ← a.earlyMap.add h.lfid pfid
    .ok { a with initialOwi := h.owi, earlyMap := m }
  else if a.initialOwi = h.owi then do
    let m ← a.earlyMap.add h.lfid pfid
    if a.lateLatch && (!ji.ae || ji.numJfiles == Store.jrnlMinNumFiles) then .error .owiBad
    else .ok { a with earlyMap := m }
  else do
    let m ← a.lateMap.add h.lfid pfid
    .ok { a with lateMap := m, lateLatch := true }

/-- The loop of `analyze` over `k` files from `pfid` on. -/
def analyzeLoop (ji : Jinf) (files : Nat → Option DataFile) (pfid : Nat) (a : Analysis) :
    Nat → Except JinfErr Analysis
  | 0 => .ok a
  | k + 1 =>
    match files pfid with
    | none => .error .stat
    | some f =>
      if f.size % 2 ^ 32 ≠ ji.fileBytes % 2 ^ 32 then .error .badFileSize
      else
        match f.head with
        | .other => .error .invalidFhdr
        | .zero => if pfid = 0 then .error .jdatEmpty else .ok { a with frot := true }
        | .hdr h =>
          if pfid ≠ h.pfid then .error .assertFailed
          else do
            let a ← ji.addHdr pfid h a
            analyzeLoop ji files (pfid + 1) a k

def analyze (ji : Jinf) (files : Nat → Option DataFile) : Except JinfErr Analyzed := do
  ji.validate
  let a ← analyzeLoop ji files 0 ⟨∅, ∅, false, false, false⟩ ji.numJfiles
  if !a.frot && a.earlyMap.size + a.lateMap.size != ji.numJfiles then .error .assertFailed
  else .ok ⟨a.lateMap.pfidList ++ a.earlyMap.pfidList, a.initialOwi, a.frot⟩

end Jinf

namespace Analyzed

/-- `get_first_pfid`. -/
def firstPfid (a : Analyzed) : Option Nat := a.pfidList.head?

/-- `get_last_pfid`. -/
def lastPfid (a : Analyzed) : Option Nat := a.pfidList.getLast?

/-- `get_normalized_pfid_list`. -/
def normalizedPfidList (a : Analyzed) : Except JinfErr (List Nat) :=
  let s := a.pfidList.length
  let iz := a.pfidList.idxOf 0
  if iz = s then .error .assertFailed
  else .ok ((List.range' iz s).map fun i => a.pfidList.getD (i % s) 0)

end Analyzed

/-! ## The analysis -/

/-- The map of files `a`, `a + 1`, .., `k` of them, each under its own number. -/
def LpMap.IsRun (m : LpMap) (a k : Nat) : Prop := m.toList = (List.range' a k).map fun i => (i, i)

theorem LpMap.isRun_empty (a : Nat) : LpMap.IsRun ∅ a 0 := by
  rw [LpMap.IsRun, List.range'_zero, List.map_nil, ExtTreeMap.toList_eq_nil_iff]

theorem LpMap.IsRun.add {m : LpMap} {a k : Nat} (h : m.IsRun a k) :
    ∃ m', m.add (a + k) (a + k) = .ok m' ∧ LpMap.IsRun m' a (k + 1) := by
  have hlt : ∀ e ∈ m.toList, compare e.1 (a + k) = .lt := by
    intro e he
    rw [h] at he
    obtain ⟨i, hi, rfl⟩ := List.mem_map.mp he
    rw [Nat.compare_eq_lt]
    have hi' := List.mem_range'_1.mp hi
    exact hi'.2
  have hnone : m[a + k]? = none := by
    cases hk : m[a + k]? with
    | none => rfl
    | some v =>
      have hself := hlt (a + k, v) (ExtTreeMap.mem_toList_iff_getElem?_eq_some.mpr hk)
      rw [Nat.compare_eq_lt] at hself
      exact (Nat.lt_irrefl _ hself).elim
  refine ⟨m.insert (a + k) (a + k), ?_, ?_⟩
  · rw [LpMap.add, hnone]
  · rw [LpMap.IsRun, toList_insert_last m _ _ hlt, h, List.range'_1_concat, List.map_append]
    rfl

theorem LpMap.IsRun.pfidList {m : LpMap} {a k : Nat} (h : m.IsRun a k) :
    m.pfidList = List.range' a k := by
  rw [LpMap.pfidList, h, List.map_map]
  exact List.map_id _

theorem LpMap.IsRun.size {m : LpMap} {a k : Nat} (h : m.IsRun a k) : m.size = k := by
  rw [← ExtTreeMap.length_toList, h, List.length_map, List.length_range']

namespace Jinf

variable {ji : Jinf} {files : Nat → Option DataFile} {p k : Nat} {a : Analysis} {o : Bool}

/-- The next `k` files have headers with their own ids and this indicator. -/
def Headed (ji : Jinf) (files : Nat → Option DataFile) (p k : Nat) (o : Bool) : Prop :=
  ∀ f, p ≤ f → f < p + k →
    ∃ h, files f = some ⟨ji.fileBytes, .hdr h⟩ ∧ h.pfid = f ∧ h.lfid = f ∧ h.owi = o

theorem analyzeLoop_hdr {h : FileHdr} (hf : files p = some ⟨ji.fileBytes, .hdr h⟩) (hp : h.pfid = p) :
    ji.analyzeLoop files p a (k + 1) =
      (ji.addHdr p h a).bind fun a' => ji.analyzeLoop files (p + 1) a' k := by
  rw [Jinf.analyzeLoop, hf]
  simp only [ne_eq, not_true_eq_false, if_false, hp]
  rfl

structure EarlyTo (a : Analysis) (p : Nat) (o : Bool) : Prop where
  early : a.earlyMap.IsRun 0 p
  late : a.lateMap = ∅
  latch : a.lateLatch = false
  frot : a.frot = false
  owi : 0 < p → a.initialOwi = o

/-- The files so far have the indicator of file 0 up to `c`, and the other one from there on. -/
structure LateTo (a : Analysis) (c p : Nat) (o : Bool) : Prop where
  early : a.earlyMap.IsRun 0 c
  late : a.lateMap.IsRun c (p - c)
  frot : a.frot = false
  owi : a.initialOwi = o
  pos : 0 < c
  le : c ≤ p

theorem addHdr_early {h : FileHdr} (ha : EarlyTo a p o) (hl : h.lfid = p) (ho : h.owi = o) :
    ∃ a', ji.addHdr p h a = .ok a' ∧ EarlyTo a' (p + 1) o := by
  obtain ⟨m, hm, hrun⟩ := ha.early.add
  rw [Nat.zero_add] at hm
  rw [Jinf.addHdr, hl]
  by_cases hp : p = 0
  · rw [if_pos hp, hm]
    exact ⟨_, rfl, hrun, ha.late, ha.latch, ha.frot, fun _ => ho⟩
  · have howi : a.initialOwi = h.owi := (ha.owi (by omega)).trans ho.symm
    rw [if_neg hp, if_pos howi, hm, ha.latch]
    exact ⟨_, rfl, hrun, ha.late, rfl, ha.frot, fun _ => ha.owi (by omega)⟩

theorem addHdr_late {h : FileHdr} {c : Nat} (ha : LateTo a c p o) (hl : h.lfid = p) (ho : h.owi = !o) :
    ∃ a', ji.addHdr p h a = .ok a' ∧ LateTo a' c (p + 1) o := by
  have hp : p ≠ 0 := by
    have hpos := ha.pos
    have hle := ha.le
    omega
  have howi : ¬a.initialOwi = h.owi := by
    rw [ha.owi, ho]
    cases o <;> decide
  obtain ⟨m, hm, hrun⟩ := ha.late.add
  rw [Nat.add_sub_cancel' ha.le] at hm
  rw [Jinf.addHdr, hl, if_neg hp, if_neg howi, hm]
  refine ⟨_, rfl, ha.early, ?_, ha.frot, ha.owi, ha.pos, Nat.le_succ_of_le ha.le⟩
  rw [Nat.succ_sub ha.le]
  exact hrun

theorem analyzeLoop_early (ha : EarlyTo a p o) (hh : Headed ji files p k o) :
    ∃ a', EarlyTo a' (p + k) o ∧
      ∀ r, ji.analyzeLoop files p a (k + r) = ji.analyzeLoop files (p + k) a' r := by
  induction k generalizing p a with
  | zero =>
    refine ⟨a, ha, fun r => ?_⟩
    rw [Nat.zero_add, Nat.add_zero]
  | succ k ih =>
    obtain ⟨h, hf, hp, hl, ho⟩ := hh p (Nat.le_refl p) (by omega)
    obtain ⟨a', hadd, ha'⟩ : ∃ a', ji.addHdr p h a = .ok a' ∧ EarlyTo a' (p + 1) o := addHdr_early ha hl ho
    obtain ⟨b, hb, hloop⟩ := ih ha' fun f hf hf' => hh f (by omega) (by omega)
    have hpk : p + (k + 1) = p + 1 + k := by omega
    rw [hpk]
    refine ⟨b, hb, fun r => ?_⟩
    have hkr : k + 1 + r = k + r + 1 := by omega
    rw [hkr, analyzeLoop_hdr hf hp, hadd]
    exact hloop r

theorem analyzeLoop_late {c : Nat} (ha : LateTo a c p o) (hh : Headed ji files p k (!o)) :
    ∃ a', LateTo a' c (p + k) o ∧
      ∀ r, ji.analyzeLoop files p a (k + r) = ji.analyzeLoop files (p + k) a' r := by
  induction k generalizing p a with
  | zero =>
    refine ⟨a, ha, fun r => ?_⟩
    rw [Nat.zero_add, Nat.add_zero]
  | succ k ih =>
    obtain ⟨h, hf, hp, hl, ho⟩ := hh p (Nat.le_refl p) (by omega)
    obtain ⟨a', hadd, ha'⟩ : ∃ a', ji.addHdr p h a = .ok a' ∧ LateTo a' c (p + 1) o := addHdr_late ha hl ho
    obtain ⟨b, hb, hloop⟩ := ih ha' fun f hf hf' => hh f (by omega) (by omega)
    have hpk : p + (k + 1) = p + 1 + k := by omega
    rw [hpk]
    refine ⟨b, hb, fun r => ?_⟩
    have hkr : k + 1 + r = k + r + 1 := by omega
    rw [hkr, analyzeLoop_hdr hf hp, hadd]
    exact hloop r

/-! ## The images of a ring -/

variable {n c : Nat}

theorem earlyTo_start (o : Bool) : EarlyTo ⟨∅, ∅, false, false, false⟩ 0 o :=
  ⟨LpMap.isRun_empty 0, rfl, rfl, rfl, fun h => absurd h (Nat.lt_irrefl 0)⟩

/-- The file behind the headers starts with zeros: a first rotation. -/
theorem analyze_partial (hv : ji.validate = .ok ()) (hc : 0 < c) (hcn : c < ji.numJfiles)
    (hh : Headed ji files 0 c o) (hz : files c = some ⟨ji.fileBytes, .zero⟩) :
    ji.analyze files = .ok ⟨List.range c, o, true⟩ := by
  obtain ⟨a, ha, hloop⟩ := analyzeLoop_early (earlyTo_start o) hh
  rw [Nat.zero_add] at ha
  have hrest : ji.numJfiles = c + (ji.numJfiles - c - 1 + 1) := by omega
  have hend : ji.analyzeLoop files 0 ⟨∅, ∅, false, false, false⟩ ji.numJfiles =
      .ok { a with frot := true } := by
    rw [hrest, hloop, Nat.zero_add, Jinf.analyzeLoop, hz]
    simp only [ne_eq, not_true_eq_false, if_false]
    rw [if_neg (by omega)]
  rw [Jinf.analyze, hv, hend]
  simp only [bind, Except.bind, Bool.not_true, Bool.false_and, Bool.false_eq_true, if_false]
  rw [ha.early.pfidList, ha.late, (LpMap.isRun_empty 0).pfidList, ha.owi hc, List.range_eq_range']
  rfl

/-- All headers have the same indicator. -/
theorem analyze_uniform (hv : ji.validate = .ok ()) (hn : 0 < ji.numJfiles)
    (hh : Headed ji files 0 ji.numJfiles o) :
    ji.analyze files = .ok ⟨List.range ji.numJfiles, o, false⟩ := by
  obtain ⟨a, ha, hloop⟩ := analyzeLoop_early (earlyTo_start o) hh
  rw [Nat.zero_add] at ha
  have hend : ji.analyzeLoop files 0 ⟨∅, ∅, false, false, false⟩ ji.numJfiles = .ok a := hloop 0
  rw [Jinf.analyze, hv, hend]
  simp only [bind, Except.bind, ha.frot, ha.early.size, ha.late, (LpMap.isRun_empty 0).size,
    Nat.add_zero, bne_self_eq_false, Bool.and_false, Bool.false_eq_true, if_false]
  rw [ha.early.pfidList, (LpMap.isRun_empty 0).pfidList, ha.owi hn, List.range_eq_range']
  rfl

theorem analyze_mixed (hv : ji.validate = .ok ()) (hc : 0 < c) (hcn : c < ji.numJfiles)
    (hnew : Headed ji files 0 c o) (hold : Headed ji files c (ji.numJfiles - c) (!o)) :
    ji.analyze files = .ok ⟨List.range' c (ji.numJfiles - c) ++ List.range c, o, false⟩ := by
  obtain ⟨a, ha, hloop⟩ := analyzeLoop_early (earlyTo_start o) hnew
  rw [Nat.zero_add] at ha
  have hlate : LateTo a c c o := by
    refine ⟨ha.early, ?_, ha.frot, ha.owi hc, hc, Nat.le_refl c⟩
    rw [ha.late, Nat.sub_self]
    exact LpMap.isRun_empty c
  obtain ⟨b, hb, hloop'⟩ := analyzeLoop_late hlate hold
  have hsum : ji.numJfiles = c + (ji.numJfiles - c) := by omega
  have hend : ji.analyzeLoop files 0 ⟨∅, ∅, false, false, false⟩ ji.numJfiles = .ok b := by
    rw [hsum, hloop, Nat.zero_add]
    exact hloop' 0
  rw [Nat.add_sub_cancel' (Nat.le_of_lt hcn)] at hb
  have hsize : b.earlyMap.size + b.lateMap.size = ji.numJfiles := by
    rw [hb.early.size, hb.late.size]
    omega
  rw [Jinf.analyze, hv, hend]
  simp only [bind, Except.bind, hb.frot, hsize, bne_self_eq_false, Bool.and_false, Bool.false_eq_true,
    if_false]
  rw [hb.early.pfidList, hb.late.pfidList, hb.owi, List.range_eq_range']

end Jinf

end RhmStore
