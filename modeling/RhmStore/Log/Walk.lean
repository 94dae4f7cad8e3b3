import RhmStore.Jrnl.Page
import RhmStore.Lib.Tiles
import RhmStore.Log.Locked
import RhmStore.Rec.Recover

/-! # The walk of a recovery over the files

Places count the dblks of all files as they were entered, without the headers. -/

namespace RhmStore

/-- A record, or a filler of one dblk, and where it begins. -/
structure Extent where
  pos : Nat
  jrec : Option JRec
  deriving DecidableEq, Repr

namespace Extent

def dblks (x : Extent) : Nat := x.jrec.elim 1 JRec.recSizeDblks

def logRec (g : Geom) (x : Extent) : Option LogRec := x.jrec.map fun r => ⟨r, x.pos / g.jfsizeDblks⟩

/-- `rcv_decode` leaves the stream at the dblk boundary behind it. -/
def Fits (x : Extent) : Prop := ∀ r ∈ x.jrec, BoundaryFits r.recSize

instance (x : Extent) : Decidable x.Fits := inferInstanceAs (Decidable (∀ r ∈ x.jrec, BoundaryFits r.recSize))

theorem dblks_pos (x : Extent) : 0 < x.dblks := by
  obtain ⟨pos, jrec⟩ := x
  cases jrec with
  | none => exact Nat.one_pos
  | some r => exact r.recSizeDblks_pos

end Extent

/-- A journal with its files: all that was ever written and where that ends, and what the header of
the file entered `k`th has as `fro`. -/
structure Tape where
  jrnl : Journal
  extents : List Extent
  stop : Nat
  fro : Nat → Nat

/-- An operation, `wmgr::flush`, or a crash and the recovery after it. `behind` is what stands behind
the last record and reads as records of this turn of the ring. -/
inductive TapeAct
  | op (r : JRec)
  | flush
  | recover (prepared : List Xid) (behind : List Placed)
  deriving DecidableEq, Repr

namespace Tape

def init (g : Geom) : Tape := ⟨Journal.init g.numJfiles, [], 0, fun _ => g.fro false 0⟩

def enter (g : Geom) (r : JRec) (s : Tape) : Option Tape :=
  (s.jrnl.step g.numJfiles .advance).map fun j =>
    { s with
      jrnl := j
      fro := Function.update s.fro j.cur
        (g.fro (s.stop < j.cur * g.jfsizeDblks) (s.stop + r.recSizeDblks - j.cur * g.jfsizeDblks)) }

def enterN (g : Geom) (r : JRec) : Nat → Tape → Option Tape
  | 0, s => some s
  | k + 1, s => (s.enter g r).bind (enterN g r k)

def opened (g : Geom) (r : JRec) (s : Tape) : Option Tape :=
  enterN g r ((s.stop + r.recSizeDblks - 1) / g.jfsizeDblks - s.jrnl.cur) s

def write (g : Geom) (r : JRec) (s : Tape) : Option Tape :=
  (s.jrnl.liveStep g.numJfiles (.op r (s.stop / g.jfsizeDblks))).map fun j =>
    { s with jrnl := j, extents := s.extents ++ [⟨s.stop, some r⟩], stop := s.stop + r.recSizeDblks }

/-- Fillers up to the end of the sblk, of `wmgr::dblk_roundup` or `jcntl::check_journal_alignment`. -/
def roundup (s : Tape) : Tape :=
  let k := (jrnlSblkSize - s.stop % jrnlSblkSize) % jrnlSblkSize
  { s with extents := s.extents ++ (List.range k).map fun i => ⟨s.stop + i, none⟩, stop := s.stop + k }

/-- The oldest file, `jinf::get_first_pfid`. -/
def oldest (g : Geom) (s : Tape) : Nat := s.jrnl.cur + 1 - g.numJfiles

/-- `jcntl::jfile_cycle`: where a file begins, the walk goes to its `fro`. There is no way on behind
the last file, nor from the file header that is at offset 0. -/
def seek (g : Geom) (s : Tape) (p : Nat) : Option Nat :=
  if p % g.jfsizeDblks = 0 then
    let k := p / g.jfsizeDblks
    if k ≤ s.jrnl.cur ∧ s.fro k ≠ 0 then some (p + (s.fro k / jrnlDblkSize - jrnlSblkSize)) else none
  else some p

/-- `jcntl::rcvr_get_next_record` until it returns false: the records with the files of their headers,
or `none` if it comes to read in the padding of a record. -/
def walkFrom (g : Geom) (s : Tape) (behind : List Placed) : Nat → Nat → Option (List Placed)
  | 0, _ => some []
  | fuel + 1, p =>
    match s.seek g p with
    | none => some []
    | some q =>
      match s.extents.find? (·.pos = q) with
      | none => some behind
      | some x =>
        if x.Fits then
          (s.walkFrom g behind fuel (q + x.dblks)).map
            (((x.logRec g).map (LogRec.placed g.numJfiles)).toList ++ ·)
        else none

def walk (g : Geom) (s : Tape) (behind : List Placed) : Option (List Placed) :=
  s.walkFrom g behind (s.extents.length + 1) (s.oldest g * g.jfsizeDblks)

/-- A successful step. Where the writer goes on after a recovery that does not find what was written
is left open. -/
def step (g : Geom) (s : Tape) : TapeAct → Option Tape
  | .op r => (s.opened g r).bind (write g r)
  | .flush => some s.roundup
  | .recover prepared behind =>
    if s.walk g behind = some (s.jrnl.records g.numJfiles) then
      (s.jrnl.step g.numJfiles (.recover prepared)).map fun j => { s with jrnl := j }.roundup
    else none

def run (g : Geom) (s : Tape) : List TapeAct → Option Tape
  | [] => some s
  | a :: acts => (s.step g a).bind fun s' => s'.run g acts

/-- A record that begins before the file entered `k`th goes on to its end or further. -/
def Covered (g : Geom) (s : Tape) (k : Nat) : Prop :=
  ∃ x ∈ s.extents, x.pos < k * g.jfsizeDblks ∧ (k + 1) * g.jfsizeDblks ≤ x.pos + x.dblks

/-- The walk can go on behind all that begins in the files. -/
def AllFit (g : Geom) (s : Tape) : Prop := ∀ x ∈ s.extents, s.oldest g * g.jfsizeDblks ≤ x.pos → x.Fits

/-- The step writes no transient record and keeps clear of the operations that earlier recoveries
discarded, and a recovery finds the start of a record in the oldest file, no record that is too large, and
zeros or a record of the last turn behind the last record. -/
def Clean (g : Geom) (s : Tape) : TapeAct → Prop
  | .op r => r.isTransient = false ∧ ∀ s' ∈ s.opened g r, s'.jrnl.Clean g.numJfiles (.op r (s.stop / g.jfsizeDblks))
  | .flush => True
  | .recover prepared behind =>
    s.jrnl.RecoverClean g.numJfiles prepared ∧ ¬s.Covered g (s.oldest g) ∧ s.AllFit g ∧ behind = []

instance (g : Geom) (s : Tape) (k : Nat) : Decidable (s.Covered g k) :=
  inferInstanceAs (Decidable (∃ x ∈ s.extents, _ ∧ _))

instance (g : Geom) (s : Tape) : Decidable (s.AllFit g) := inferInstanceAs (Decidable (∀ x ∈ s.extents, _))

instance (g : Geom) (s : Tape) : ∀ a, Decidable (s.Clean g a)
  | .op r => inferInstanceAs (Decidable (_ ∧ ∀ s' ∈ s.opened g r, _))
  | .flush => isTrue trivial
  | .recover _ _ => inferInstanceAs (Decidable (_ ∧ _ ∧ _ ∧ _))

/-- A run whose steps are all clean. -/
inductive CleanRun (g : Geom) : Tape → Prop
  | init : CleanRun g (init g)
  | step {s s' : Tape} {a : TapeAct} (h : CleanRun g s) (hc : s.Clean g a) (hs : s.step g a = some s') :
    CleanRun g s'

/-- The next recovery does not throw and builds the maps, locks and counts that memory holds at the
crash, less the transactions that are not prepared. -/
def RecoversAs (g : Geom) (s : Tape) (prepared : List Xid) (behind : List Placed) : Prop :=
  ∃ log m m', s.walk g behind = some log ∧ janalyze g.numJfiles log prepared = .ok () m ∧
    Maps.discard prepared s.jrnl.maps = .ok () m' ∧ m.Same m'

variable {g : Geom} {s s' : Tape}

/-- What lies where in the files, and what their headers say of it. -/
structure Laid (g : Geom) (s : Tape) : Prop where
  tiles : Tiles Extent.pos Extent.dblks 0 s.extents s.stop
  stop_le : s.stop ≤ (s.jrnl.cur + 1) * g.jfsizeDblks
  log : s.jrnl.log = (s.extents.filterMap (Extent.logRec g)).filter fun e => s.jrnl.cur < e.inst + g.numJfiles
  fro : ∀ k ≤ s.jrnl.cur, ∀ x ∈ s.extents, x.pos ≤ k * g.jfsizeDblks →
    k * g.jfsizeDblks < x.pos + x.dblks →
      s.fro k = g.fro (x.pos < k * g.jfsizeDblks) (x.pos + x.dblks - k * g.jfsizeDblks)
  first : s.fro 0 = g.fro false 0

/-- Between operations a file has been entered only for what is in it. -/
structure Inv (g : Geom) (s : Tape) : Prop extends s.Laid g where
  entered : s.jrnl.cur = 0 ∨ s.jrnl.cur * g.jfsizeDblks < s.stop

theorem init_inv (g : Geom) : (init g).Inv g where
  tiles := rfl
  stop_le := Nat.zero_le _
  entered := .inl rfl
  log := rfl
  fro _ _ _ hx := absurd hx List.not_mem_nil
  first := rfl

section Enter

variable {r : JRec} {k : Nat}

structure Enters (g : Geom) (r : JRec) (k : Nat) (s s' : Tape) : Prop where
  extents : s'.extents = s.extents
  stop : s'.stop = s.stop
  cur : s'.jrnl.cur = s.jrnl.cur + k
  log : s'.jrnl.log = s.jrnl.log.filter fun e => s.jrnl.cur + k < e.inst + g.numJfiles
  old : ∀ i ≤ s.jrnl.cur, s'.fro i = s.fro i
  new : ∀ i, s.jrnl.cur < i → i ≤ s.jrnl.cur + k →
    s'.fro i = g.fro (s.stop < i * g.jfsizeDblks) (s.stop + r.recSizeDblks - i * g.jfsizeDblks)

theorem enters_enterN (hw : ∀ e ∈ s.jrnl.log, s.jrnl.cur < e.inst + g.numJfiles) (h : enterN g r k s = some s') :
    s.Enters g r k s' := by
  induction k generalizing s with
  | zero =>
    cases h
    refine ⟨rfl, rfl, rfl, ?_, fun i _ => rfl, fun i hi hle => absurd hle (Nat.not_le.mpr hi)⟩
    rw [List.filter_eq_self.mpr fun e he => by simpa using hw e he]
  | succ k ih =>
    obtain ⟨s₁, h₁, h₂⟩ := Option.bind_eq_some_iff.mp h
    obtain ⟨j, hj, rfl⟩ := Option.map_eq_some_iff.mp h₁
    obtain ⟨-, rfl⟩ := Journal.step_advance hj
    obtain ⟨he, hs, hc, hl, hold, hnew⟩ := ih (fun e he => by simpa using (List.mem_filter.mp he).2) h₂
    simp only at he hs hc hl hold hnew
    refine ⟨he, hs, by omega, ?_, fun i hi => ?_, fun i hi hle => ?_⟩
    · rw [hl, List.filter_filter]
      refine List.filter_congr fun e _ => ?_
      rw [Bool.eq_iff_iff]
      simp only [Bool.and_eq_true, decide_eq_true_eq]
      omega
    · rw [hold i (by omega), Function.update_of_ne (by omega)]
    · by_cases hi' : i = s.jrnl.cur + 1
      · rw [hold i (by omega), hi', Function.update_self]
      · exact hnew i (by omega) (by omega)

end Enter

theorem Laid.window (h : s.Laid g) : ∀ e ∈ s.jrnl.log, s.jrnl.cur < e.inst + g.numJfiles := by
  intro e he
  rw [h.log] at he
  simpa using (List.mem_filter.mp he).2

/-- What a successful operation does. -/
theorem step_op {r : JRec} (h : s.step g (.op r) = some s') :
    ∃ s₁ j, s.opened g r = some s₁ ∧ s₁.write g r = some s' ∧
      s₁.jrnl.liveStep g.numJfiles (.op r (s₁.stop / g.jfsizeDblks)) = some j ∧ s' = { s₁ with
        jrnl := j, extents := s₁.extents ++ [⟨s₁.stop, some r⟩], stop := s₁.stop + r.recSizeDblks } := by
  obtain ⟨s₁, h₁, h₂⟩ := Option.bind_eq_some_iff.mp h
  obtain ⟨j, hj, rfl⟩ := Option.map_eq_some_iff.mp h₂
  exact ⟨s₁, j, h₁, h₂, hj, rfl⟩

theorem inv_op {r : JRec} (h : s.Inv g) (hs : s.step g (.op r) = some s') : s'.Inv g := by
  obtain ⟨s₁, j, hopen, -, hj, rfl⟩ := step_op hs
  have hF := g.jfsizeDblks_pos
  have hd := r.recSizeDblks_pos
  obtain ⟨hext, hstop, hcur, hlog, hold, hnew⟩ := enters_enterN h.window hopen
  obtain ⟨-, ⟨-, hwin, -⟩, m, -, rfl⟩ := Journal.liveStep_op hj
  -- `c` is the file of the last dblk
  obtain ⟨c, hc⟩ : ∃ c, (s.stop + r.recSizeDblks - 1) / g.jfsizeDblks = c := ⟨_, rfl⟩
  rw [hc] at hcur hlog hnew
  have hlo : c * g.jfsizeDblks ≤ s.stop + r.recSizeDblks - 1 := hc ▸ Nat.div_mul_le_self _ _
  have hhi : s.stop + r.recSizeDblks - 1 < (c + 1) * g.jfsizeDblks := by
    rw [← hc, Nat.succ_mul]
    exact Nat.lt_div_mul_add hF
  have hmono : ∀ {a b : Nat}, a ≤ b → a * g.jfsizeDblks ≤ b * g.jfsizeDblks := Nat.mul_le_mul_right _
  refine ⟨⟨?_, ?_, ?_, ?_, ?_⟩, ?_⟩
  · simp only [hext, hstop]
    exact h.tiles.append ⟨rfl, rfl⟩
  · simp only [hstop, hcur]
    have := hmono (show c + 1 ≤ s.jrnl.cur + (c - s.jrnl.cur) + 1 by omega)
    omega
  · simp only [hext, hstop, hcur, hlog, List.filterMap_append, List.filter_append]
    congr 1
    · rw [h.log, List.filter_filter]
      refine List.filter_congr fun e _ => ?_
      rw [Bool.eq_iff_iff]
      simp only [Bool.and_eq_true, decide_eq_true_eq]
      omega
    · rw [hcur, hstop] at hwin
      simp [Extent.logRec, hwin]
  · simp only [hext, hstop, hcur]
    intro k hk x hx hle hlt
    rcases List.mem_append.mp hx with hx | hx
    · have hb := (h.tiles.mem_bounds hx).2
      have hkc : k ≤ s.jrnl.cur := by
        by_contra hgt
        have := hmono (show s.jrnl.cur + 1 ≤ k by omega)
        have := h.stop_le
        omega
      rw [hold k hkc]
      exact h.fro k hkc x hx hle hlt
    · obtain rfl := List.mem_singleton.mp hx
      by_cases hkc : k ≤ s.jrnl.cur
      · -- only at the very start of the journal is there no file to enter
        have hz : k = 0 ∧ s.stop = 0 := by
          simp only at hle
          rcases h.entered with h0 | hlt'
          · have hk0 : k = 0 := by omega
            rw [hk0, Nat.zero_mul] at hle
            exact ⟨hk0, by omega⟩
          · have := hmono hkc
            omega
        rw [hold k hkc, hz.1, hz.2, h.first]
        simp [Geom.fro]
      · exact hnew k (by omega) hk
  · simp only
    rw [hold 0 (Nat.zero_le _), h.first]
  · simp only [hstop, hcur]
    by_cases hk : c ≤ s.jrnl.cur
    · rw [show s.jrnl.cur + (c - s.jrnl.cur) = s.jrnl.cur by omega]
      exact h.entered.imp id fun hlt => by omega
    · rw [show s.jrnl.cur + (c - s.jrnl.cur) = c by omega]
      exact .inr (by omega)

theorem inv_roundup (h : s.Inv g) : s.roundup.Inv g := by
  have hdvd : ∀ k, k * g.jfsizeDblks % jrnlSblkSize = 0 := fun k => by
    rw [Geom.jfsizeDblks, ← Nat.mul_assoc, Nat.mul_mod_left]
  obtain ⟨k, hk⟩ : ∃ k, (jrnlSblkSize - s.stop % jrnlSblkSize) % jrnlSblkSize = k := ⟨_, rfl⟩
  have htiles : ∀ k, Tiles Extent.pos Extent.dblks s.stop ((List.range k).map fun i => ⟨s.stop + i, none⟩)
      (s.stop + k) := by
    intro k
    induction k with
    | zero => rfl
    | succ k ih =>
      rw [List.range_succ, List.map_append]
      exact ih.append ⟨rfl, rfl⟩
  have hnone : ((List.range k).map fun i => (⟨s.stop + i, none⟩ : Extent)).filterMap (Extent.logRec g) = [] := by
    rw [List.filterMap_eq_nil_iff]
    intro x hx
    obtain ⟨i, -, rfl⟩ := List.mem_map.mp hx
    rfl
  have hmod := hdvd (s.jrnl.cur + 1)
  have hle := h.stop_le
  refine ⟨⟨?_, ?_, ?_, ?_, h.first⟩, ?_⟩
  · simp only [roundup, hk]
    exact h.tiles.append (htiles k)
  · simp only [roundup, hk]
    unfold jrnlSblkSize at hk hmod
    omega
  · simp only [roundup, hk, List.filterMap_append, hnone, List.append_nil]
    exact h.log
  · simp only [roundup, hk]
    intro f hf x hx hxle hxlt
    rcases List.mem_append.mp hx with hx | hx
    · exact h.fro f hf x hx hxle hxlt
    · -- no file begins within the fillers
      obtain ⟨i, hi, rfl⟩ := List.mem_map.mp hx
      have hf4 := hdvd f
      have hik := List.mem_range.mp hi
      simp only [Extent.dblks, Option.elim_none] at hxle hxlt
      unfold jrnlSblkSize at hf4 hk
      omega
  · simp only [roundup, hk]
    exact h.entered.imp id fun hlt => by omega

theorem laid_enterN (h : s.Laid g) {r : JRec} {k : Nat} (hs : enterN g r k s = some s') : s'.Laid g := by
  have hF := g.jfsizeDblks_pos
  obtain ⟨hext, hstop, hcur, hlog, hold, -⟩ := enters_enterN h.window hs
  refine ⟨?_, ?_, ?_, ?_, ?_⟩
  · rw [hext, hstop]
    exact h.tiles
  · have := Nat.mul_le_mul_right g.jfsizeDblks (show s.jrnl.cur + 1 ≤ s.jrnl.cur + k + 1 by omega)
    have := h.stop_le
    rw [hstop, hcur]
    omega
  · rw [hext, hlog, hcur, h.log, List.filter_filter]
    refine List.filter_congr fun e _ => ?_
    rw [Bool.eq_iff_iff]
    simp only [Bool.and_eq_true, decide_eq_true_eq]
    omega
  · rw [hext]
    intro i _ x hx hle hlt
    have hi : i ≤ s.jrnl.cur := by
      by_contra hgt
      have := (h.tiles.mem_bounds hx).2
      have := Nat.mul_le_mul_right g.jfsizeDblks (show s.jrnl.cur + 1 ≤ i by omega)
      have := h.stop_le
      omega
    rw [hold i hi]
    exact h.fro i hi x hx hle hlt
  · rw [hold 0 (Nat.zero_le _), h.first]

section Walk

theorem seek_eq (h : s.Laid g) {x : Extent} (hx : x ∈ s.extents) : s.seek g x.pos = some x.pos := by
  unfold seek
  split
  · rename_i h0
    have hF := g.jfsizeDblks_pos
    have hb := (h.tiles.mem_bounds hx).2
    have hpos := x.dblks_pos
    have hk : x.pos / g.jfsizeDblks * g.jfsizeDblks = x.pos := Nat.div_mul_cancel (Nat.dvd_of_mod_eq_zero h0)
    have hle := h.stop_le
    have hcur : x.pos / g.jfsizeDblks ≤ s.jrnl.cur :=
      Nat.lt_succ_iff.mp ((Nat.div_lt_iff_lt_mul hF).mpr (by rw [Nat.succ_eq_add_one]; omega))
    have hfro := h.fro _ hcur x hx (by omega) (by omega)
    rw [hk, decide_eq_false (Nat.lt_irrefl _)] at hfro
    simp [hcur, hfro, Geom.fro, jrnlSblkSize, jrnlDblkSize]
  · rfl

theorem le_seek {p q : Nat} (h : s.seek g p = some q) : p ≤ q := by
  unfold seek at h
  split at h
  · simp only at h
    split at h
    · cases h
      exact Nat.le_add_right _ _
    · cases h
  · cases h
    exact Nat.le_refl _

theorem walkFrom_behind (h : s.Laid g) {p : Nat} (hp : s.stop ≤ p) (fuel : Nat) (behind : List Placed) :
    s.walkFrom g behind (fuel + 1) p = some (if s.seek g p = none then [] else behind) := by
  unfold walkFrom
  cases hs : s.seek g p with
  | none => rfl
  | some q =>
    have hq := le_seek hs
    have hnone : s.extents.find? (·.pos = q) = none := by
      rw [List.find?_eq_none]
      intro x hx
      have hb := (h.tiles.mem_bounds hx).2
      have := x.dblks_pos
      simp only [decide_eq_true_eq]
      omega
    simp only [hnone]
    rfl

theorem walkFrom_eq (h : s.Laid g) {post : List Extent} {fuel p : Nat} (hf : post.length < fuel)
    {pre : List Extent} (hext : s.extents = pre ++ post) (ht : Tiles Extent.pos Extent.dblks p post s.stop)
    (behind : List Placed) :
    s.walkFrom g behind fuel p = if ∀ x ∈ post, x.Fits then
      some ((post.filterMap (Extent.logRec g)).map (LogRec.placed g.numJfiles) ++
        if s.seek g s.stop = none then [] else behind) else none := by
  induction post generalizing fuel p pre with
  | nil =>
    obtain rfl : p = s.stop := ht
    obtain ⟨fuel, rfl⟩ := Nat.exists_eq_succ_of_ne_zero (Nat.ne_of_gt hf)
    rw [walkFrom_behind h (Nat.le_refl _), if_pos fun x hx => absurd hx List.not_mem_nil]
    rfl
  | cons x post ih =>
    obtain ⟨rfl, ht⟩ := ht
    obtain ⟨fuel, rfl⟩ := Nat.exists_eq_succ_of_ne_zero (Nat.ne_of_gt (Nat.lt_of_le_of_lt (Nat.zero_le _) hf))
    have hx : x ∈ s.extents := by
      rw [hext]
      exact List.mem_append_right _ List.mem_cons_self
    have hfind : s.extents.find? (·.pos = x.pos) = some x := by
      have htiles := h.tiles
      rw [hext] at htiles ⊢
      exact htiles.find?_eq Extent.dblks_pos
    have hrest := ih (Nat.succ_lt_succ_iff.mp hf)
      (show s.extents = (pre ++ [x]) ++ post by rw [hext, List.append_assoc, List.singleton_append]) ht
    simp only [walkFrom, seek_eq h hx, hfind, hrest, List.forall_mem_cons]
    by_cases hfit : x.Fits
    · by_cases hall : ∀ y ∈ post, y.Fits
      · rw [if_pos hfit, if_pos hall, if_pos (And.intro hfit hall)]
        cases hl : x.logRec g with
        | none =>
          rw [List.filterMap_cons_none hl]
          rfl
        | some e =>
          rw [List.filterMap_cons_some hl]
          rfl
      · rw [if_pos hfit, if_neg hall, if_neg fun hc => hall hc.2]
        rfl
    · rw [if_neg hfit, if_neg fun hc => hfit hc.1]

/-- The files that are kept begin with the oldest. -/
theorem records_split (h : s.Laid g) {pre post : List Extent} (hext : s.extents = pre ++ post)
    (hpre : ∀ x ∈ pre, x.pos < s.oldest g * g.jfsizeDblks) (hpost : ∀ x ∈ post, s.oldest g * g.jfsizeDblks ≤ x.pos) :
    s.jrnl.records g.numJfiles = (post.filterMap (Extent.logRec g)).map (LogRec.placed g.numJfiles) := by
  have hF := g.jfsizeDblks_pos
  have hn := g.numJfiles_pos
  have hlog : s.jrnl.log = post.filterMap (Extent.logRec g) := by
    rw [h.log, hext, List.filterMap_append, List.filter_append, List.filter_eq_nil_iff.mpr, List.nil_append,
      List.filter_eq_self.mpr]
    · intro e he
      obtain ⟨x, hx, hxe⟩ := List.mem_filterMap.mp he
      obtain ⟨r, -, rfl⟩ := Option.map_eq_some_iff.mp hxe
      have hle := (Nat.le_div_iff_mul_le hF).mpr (hpost x hx)
      unfold oldest at hle
      generalize x.pos / g.jfsizeDblks = k at hle ⊢
      simp only [decide_eq_true_eq]
      omega
    · intro e he
      obtain ⟨x, hx, hxe⟩ := List.mem_filterMap.mp he
      obtain ⟨r, -, rfl⟩ := Option.map_eq_some_iff.mp hxe
      have hlt := (Nat.div_lt_iff_lt_mul hF).mpr (hpre x hx)
      unfold oldest at hlt
      generalize x.pos / g.jfsizeDblks = k at hlt ⊢
      simp only [decide_eq_true_eq]
      omega
  rw [Journal.records, hlog]

theorem oldest_le (g : Geom) (s : Tape) : s.oldest g ≤ s.jrnl.cur := by
  have hn := g.numJfiles_pos
  unfold oldest
  omega

theorem seek_rest (h : s.Laid g) {x : Extent} (hx : x ∈ s.extents) {k : Nat} (hk : k ≤ s.jrnl.cur)
    (hlt : x.pos < k * g.jfsizeDblks) (hgt : k * g.jfsizeDblks < x.pos + x.dblks)
    (hin : x.pos + x.dblks < (k + 1) * g.jfsizeDblks) :
    s.seek g (k * g.jfsizeDblks) = some (x.pos + x.dblks) ∧
      s.seek g (x.pos + x.dblks) = some (x.pos + x.dblks) := by
  have hF := g.jfsizeDblks_pos
  rw [Nat.succ_mul] at hin
  have hfro := h.fro k hk x hx (Nat.le_of_lt hlt) hgt
  have hrest : x.pos + x.dblks - k * g.jfsizeDblks < g.jfsizeDblks := by omega
  rw [decide_eq_true hlt, Geom.fro, if_pos rfl, if_pos hrest] at hfro
  have hmod : (x.pos + x.dblks) % g.jfsizeDblks ≠ 0 := by
    rw [show x.pos + x.dblks = x.pos + x.dblks - k * g.jfsizeDblks + k * g.jfsizeDblks by omega,
      Nat.add_mul_mod_self_right, Nat.mod_eq_of_lt hrest]
    omega
  constructor
  · unfold seek
    rw [if_pos (Nat.mul_mod_left _ _)]
    simp only [Nat.mul_div_cancel _ hF]
    unfold jrnlSblkSize jrnlDblkSize at *
    rw [if_pos ⟨hk, by omega⟩, hfro, Option.some.injEq]
    omega
  · unfold seek
    rw [if_neg hmod]

/-- The walk comes to the end of the files, or to a file header that has `fro` 0, and does not read on. -/
def Ended (g : Geom) (s : Tape) : Prop := s.seek g (max s.stop (s.oldest g * g.jfsizeDblks)) = none

instance (g : Geom) (s : Tape) : Decidable (s.Ended g) := inferInstanceAs (Decidable (_ = none))

theorem allFit_split {pre post : List Extent} (hext : s.extents = pre ++ post)
    (hpre : ∀ x ∈ pre, x.pos < s.oldest g * g.jfsizeDblks) (hpost : ∀ x ∈ post, s.oldest g * g.jfsizeDblks ≤ x.pos) :
    s.AllFit g ↔ ∀ x ∈ post, x.Fits := by
  unfold AllFit
  rw [hext]
  constructor
  · intro hall x hx
    exact hall x (List.mem_append_right _ hx) (hpost x hx)
  · intro hall x hx hle
    rcases List.mem_append.mp hx with hx | hx
    · exact absurd (hpre x hx) (Nat.not_lt.mpr hle)
    · exact hall x hx

/-- If the oldest file is not all in a record that goes on in it, the walk meets all that the files
hold. -/
theorem walk_eq (h : s.Laid g) (hc : ¬s.Covered g (s.oldest g)) (behind : List Placed) :
    s.walk g behind = if s.AllFit g then
      some (s.jrnl.records g.numJfiles ++ if s.Ended g then [] else behind) else none := by
  by_cases h0 : s.stop ≤ s.oldest g * g.jfsizeDblks
  · have hpre : ∀ x ∈ s.extents, x.pos < s.oldest g * g.jfsizeDblks := by
      intro x hx
      have hb := (h.tiles.mem_bounds hx).2
      have := x.dblks_pos
      omega
    have hext : s.extents = s.extents ++ [] := (List.append_nil _).symm
    rw [records_split h hext hpre (by simp), walk, walkFrom_behind h h0,
      if_pos ((allFit_split hext hpre (by simp)).mpr (by simp))]
    simp only [Ended, Nat.max_eq_right h0]
    rfl
  · have hmax : max s.stop (s.oldest g * g.jfsizeDblks) = s.stop := Nat.max_eq_left (by omega)
    obtain ⟨pre, x, post, hext, hle, hlt, hpre, hpost⟩ :=
      h.tiles.exists_cover (Nat.zero_le _) (Nat.lt_of_not_le h0)
    have hx : x ∈ s.extents := by
      rw [hext]
      exact List.mem_append_right _ List.mem_cons_self
    have hlen : s.extents.length = pre.length + (post.length + 1) := by
      rw [hext, List.length_append, List.length_cons]
    have hbefore : ∀ y ∈ pre, y.pos < x.pos := fun y hy => by
      have := (hpre.mem_bounds hy).2
      have := y.dblks_pos
      omega
    have hbehind : ∀ y ∈ post, x.pos + x.dblks ≤ y.pos := fun y hy => (hpost.mem_bounds hy).1
    by_cases heq : x.pos = s.oldest g * g.jfsizeDblks
    · -- the oldest file begins with `x`
      have hlo : ∀ y ∈ pre, y.pos < s.oldest g * g.jfsizeDblks := fun y hy => heq ▸ hbefore y hy
      have hhi : ∀ y ∈ x :: post, s.oldest g * g.jfsizeDblks ≤ y.pos := by
        intro y hy
        rcases List.mem_cons.mp hy with rfl | hy
        · exact Nat.le_of_eq heq.symm
        · have := hbehind y hy
          omega
      have hw := walkFrom_eq h (show (x :: post).length < s.extents.length + 1 by rw [List.length_cons]; omega)
        hext ⟨rfl, hpost⟩ behind
      rw [walk, ← heq, hw, records_split h hext hlo hhi]
      simp only [Ended, hmax, allFit_split hext hlo hhi]
    · -- `x` ends in it
      have hends : x.pos + x.dblks < (s.oldest g + 1) * g.jfsizeDblks := by
        by_contra hge
        exact hc ⟨x, hx, by omega, by omega⟩
      obtain ⟨hstart, hstay⟩ := seek_rest h hx (oldest_le g s) (by omega) hlt hends
      have hext' : s.extents = (pre ++ [x]) ++ post := by rw [hext, List.append_assoc, List.singleton_append]
      have hlo : ∀ y ∈ pre ++ [x], y.pos < s.oldest g * g.jfsizeDblks := by
        intro y hy
        rcases List.mem_append.mp hy with hy | hy
        · have := hbefore y hy
          omega
        · rw [List.mem_singleton.mp hy]
          omega
      have hhi : ∀ y ∈ post, s.oldest g * g.jfsizeDblks ≤ y.pos := fun y hy => by
        have := hbehind y hy
        omega
      have hw := walkFrom_eq h (show post.length < s.extents.length + 1 by omega) hext' hpost behind
      have hfrom : s.walk g behind = s.walkFrom g behind (s.extents.length + 1) (x.pos + x.dblks) := by
        simp only [walk, walkFrom, hstart, hstay]
      rw [hfrom, hw, records_split h hext' hlo hhi]
      simp only [Ended, hmax, allFit_split hext' hlo hhi]

/-- If it is, the walk meets nothing. -/
theorem walk_covered (h : s.Laid g) (hc : s.Covered g (s.oldest g)) (behind : List Placed) :
    s.walk g behind = some [] := by
  obtain ⟨x, hx, hlt, hge⟩ := hc
  have hF := g.jfsizeDblks_pos
  rw [Nat.succ_mul] at hge
  have hfro := h.fro _ (oldest_le g s) x hx (Nat.le_of_lt hlt) (by omega)
  rw [decide_eq_true hlt, Geom.fro, if_pos rfl, if_neg (by omega)] at hfro
  simp [walk, walkFrom, seek, Nat.mul_div_cancel _ hF, hfro]

/-- The walk meets what the files hold, and nothing else. -/
theorem walk_eq_iff (h : s.Laid g) (behind : List Placed) :
    s.walk g behind = some (s.jrnl.records g.numJfiles) ↔
      s.Covered g (s.oldest g) ∧ s.jrnl.records g.numJfiles = [] ∨
        ¬s.Covered g (s.oldest g) ∧ s.AllFit g ∧ (s.Ended g ∨ behind = []) := by
  by_cases hc : s.Covered g (s.oldest g)
  · rw [walk_covered h hc, Option.some.injEq, eq_comm]
    exact ⟨fun h => .inl ⟨hc, h⟩, fun h => h.elim And.right fun h => absurd hc h.1⟩
  · rw [walk_eq h hc]
    by_cases hf : s.AllFit g
    · by_cases he : s.Ended g <;> simp [hc, hf, he]
    · simp [hc, hf]

end Walk

section Run

theorem cleanRun_enterN {r : JRec} {k : Nat} (h : Journal.CleanRun g.numJfiles s.jrnl)
    (hs : enterN g r k s = some s') : Journal.CleanRun g.numJfiles s'.jrnl := by
  induction k generalizing s with
  | zero =>
    cases hs
    exact h
  | succ k ih =>
    obtain ⟨s₁, h₁, h₂⟩ := Option.bind_eq_some_iff.mp hs
    obtain ⟨j, hj, rfl⟩ := Option.map_eq_some_iff.mp h₁
    exact ih (h.step (a := .advance) trivial hj) h₂

/-- What a successful recovery does. -/
theorem step_recover {prepared : List Xid} {behind : List Placed} (h : s.step g (.recover prepared behind) = some s') :
    ∃ j, s.jrnl.step g.numJfiles (.recover prepared) = some j ∧ s' = { s with jrnl := j }.roundup := by
  simp only [Tape.step] at h
  split at h
  · obtain ⟨j, hj, rfl⟩ := Option.map_eq_some_iff.mp h
    exact ⟨j, hj, rfl⟩
  · cases h

theorem inv_step {a : TapeAct} (h : s.Inv g) (hs : s.step g a = some s') : s'.Inv g := by
  cases a with
  | op r => exact inv_op h hs
  | flush =>
    cases hs
    exact inv_roundup h
  | recover prepared behind =>
    obtain ⟨j, hj, rfl⟩ := step_recover hs
    obtain ⟨m, -, rfl⟩ := Journal.step_recover hj
    exact inv_roundup ⟨⟨h.tiles, h.stop_le, h.log, h.fro, h.first⟩, h.entered⟩

theorem inv_run {acts : List TapeAct} (h : s.Inv g) (hr : s.run g acts = some s') : s'.Inv g := by
  induction acts generalizing s with
  | nil =>
    cases hr
    exact h
  | cons a acts ih =>
    obtain ⟨s₁, h₁, h₂⟩ := Option.bind_eq_some_iff.mp hr
    exact ih (inv_step h h₁) h₂

/-- A clean run over the files is one of the journal, whose records are laid out in them. -/
theorem CleanRun.journal (h : CleanRun g s) : Journal.CleanRun g.numJfiles s.jrnl ∧ s.Inv g := by
  induction h with
  | init => exact ⟨.init, init_inv g⟩
  | @step s s' a _ hc hs ih =>
    obtain ⟨hrun, hi⟩ := ih
    refine ⟨?_, inv_step hi hs⟩
    cases a with
    | op r =>
      obtain ⟨s₁, j, hopen, -, hj, rfl⟩ := step_op hs
      have hcl := hc.2 s₁ hopen
      rw [(enters_enterN hi.window hopen).stop, Journal.liveStep_eq hc.1] at hj
      exact (cleanRun_enterN hrun hopen).step hcl hj
    | flush =>
      cases hs
      exact hrun
    | recover prepared behind =>
      obtain ⟨j, hj, rfl⟩ := step_recover hs
      exact hrun.step (a := .recover prepared) hc.1 hj

end Run

def runClean (g : Geom) (s : Tape) : List TapeAct → Option Tape
  | [] => some s
  | a :: acts => if s.Clean g a then (s.step g a).bind fun s' => s'.runClean g acts else none

theorem CleanRun.of_runClean {acts : List TapeAct} (h : CleanRun g s) (hr : s.runClean g acts = some s') :
    CleanRun g s' := by
  induction acts generalizing s with
  | nil =>
    cases hr
    exact h
  | cons a acts ih =>
    simp only [runClean] at hr
    split at hr
    · rename_i hc
      obtain ⟨s₁, h₁, h₂⟩ := Option.bind_eq_some_iff.mp hr
      exact ih (h.step hc h₁) h₂
    · cases hr

theorem ring_pos : 0 < 4 := Nat.succ_pos 3

theorem page_pos : 0 < 8 := Nat.succ_pos 7

theorem page_le : 8 ≤ 128 := Nat.le_add_right 8 120

/-- Four files of 512 dblks. -/
def fourFiles : Geom := ⟨4, 128, 8, 2, ring_pos, page_pos, page_le, Nat.two_pos⟩

/-- Record 1 goes on into file 1 and is dequeued. Transaction `[7]` dequeues record 3 and is forgotten,
`[8]` dequeues it again; the ring has turned to file 0 again when `[9]` dequeues record 6. -/
def turnedRun : List TapeAct :=
  [.op (.enq 1 [] 89556 false false), .op (.deq 2 1 [] false), .op (.enq 3 [] 10 false false),
    .op (.deq 4 3 [7] false), .recover [] [], .op (.deq 5 3 [8] false), .op (.enq 6 [] 171860 false false),
    .op (.deq 7 6 [9] false)]

/-- Transaction `[7]` dequeues record 1 and is forgotten; `[8]` dequeues it again. -/
def relockedRun : List TapeAct :=
  [.op (.enq 1 [] 10 false false), .op (.deq 3 1 [7] false), .recover [] [], .op (.deq 4 1 [8] false)]

/-- Record 1 goes from file 0 to file 2 and is dequeued; then the ring turns to file 0 again. -/
def coveredRun : List TapeAct :=
  [.op (.enq 1 [] 139092 false false), .op (.deq 2 1 [] false), .op (.enq 3 [] 122836 false false),
    .op (.enq 4 [] 10 false false)]

def entryAfter (rid : Nat) : EStateM.Result JErr Maps Unit → Option EmapData
  | .ok _ m => m.emap.map[rid]?
  | .error _ _ => none

theorem not_recoversAs {prepared : List Xid} {rid : Nat}
    (h : (s.walk g []).map (fun log => entryAfter rid (janalyze g.numJfiles log prepared)) ≠
      some (entryAfter rid (Maps.discard prepared s.jrnl.maps))) : ¬s.RecoversAs g prepared [] := by
  rintro ⟨log, m, m', hlog, hm, hm', hsame⟩
  rw [hlog, Option.map_some, hm, hm'] at h
  exact h (by rw [entryAfter, entryAfter, hsame.emap])

/-- Record 1 goes on into file 1, and record 3 from there into file 3; both are dequeued. -/
def spannedRun : List TapeAct :=
  [.op (.enq 1 [] 89556 false false), .op (.deq 2 1 [] false), .flush, .op (.enq 3 [] 170000 false false),
    .op (.deq 4 3 [] false), .op (.enq 5 [7] 900 false false)]

/-- Files of 2 GiB. -/
def largeFiles : Geom :=
  ⟨4, 4194176, 128, 32, Nat.succ_pos 3, Nat.succ_pos 127, Nat.le_add_right 128 4194048, Nat.succ_pos 31⟩

/-- A record of 52 bytes less than 4 GiB, and another. -/
def giantRun : List TapeAct := [.op (.enq 1 [] 0xffffffa0 false false), .op (.enq 2 [] 10 false false)]

end Tape

end RhmStore
