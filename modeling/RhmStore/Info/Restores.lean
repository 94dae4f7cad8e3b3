import RhmStore.Info.ReadBack
import RhmStore.Ring.LfidMap

/-! # Which info files read back -/

namespace RhmStore

namespace Jinf

variable {ji ji' : Jinf} {localtime : Nat → Tm} {v : List Char} {front : String}

/-! ## What reading can give back -/

theorem findValue_ok {line : List Char} (h : findValue line = .ok v) : v <:+: line ∧ '\"' ∉ v := by
  rw [findValue] at h
  cases ht : strstr ("value=\"").toList line with
  | none =>
    rw [ht] at h
    cases h
  | some t =>
    simp only [ht] at h
    split at h
    · cases h
      constructor
      · have hpre : (t.drop ("value=\"").length).takeWhile (· != '\"') <+: t.drop ("value=\"").length :=
          List.takeWhile_prefix _
        exact hpre.isInfix.trans ((List.drop_suffix _ t).isInfix.trans (strstr_suffix ht).1.isInfix)
      · intro hq
        have hne := List.mem_takeWhile_imp hq
        revert hne
        decide
    · cases h

theorem readLine_ok {buff : List Char} (h : readLine localtime ji buff = .ok ji') :
    ji' = ji ∨ ∃ i f v, fields[i]? = some f ∧ (∀ g ∈ fields.take i, ¬g.In (cstr buff)) ∧
      findValue (cstr buff) = .ok v ∧ ji' = f.store localtime ji v := by
  rw [readLine_eq] at h
  cases hfind : fields.find? (fun f => decide (f.In (cstr buff))) with
  | none =>
    rw [hfind] at h
    cases h
    exact .inl rfl
  | some f =>
    rw [hfind] at h
    obtain ⟨-, before, behind, hsplit, hbefore⟩ := List.find?_eq_some_iff_append.mp hfind
    cases hv : findValue (cstr buff) with
    | error e =>
      rw [hv] at h
      cases h
    | ok v =>
      rw [hv] at h
      cases h
      refine .inr ⟨before.length, f, v, ?_, ?_, rfl, rfl⟩
      · rw [hsplit, List.getElem?_append_right (Nat.le_refl _), Nat.sub_self]
        rfl
      · rw [hsplit, List.take_left]
        intro g hg
        have hno := hbefore g hg
        rwa [Bool.not_eq_true', decide_eq_false_iff_not] at hno

theorem store_drop : ∀ f ∈ fields.drop 4, ∀ (localtime : Nat → Tm) (ji : Jinf) (v : List Char),
    (f.store localtime ji v).jid = ji.jid ∧ (f.store localtime ji v).jdir = ji.jdir ∧
      (f.store localtime ji v).baseFilename = ji.baseFilename := by
  simp [fields]

theorem store_take : ∀ f ∈ fields.take 4, ∀ (localtime : Nat → Tm) (ji : Jinf) (v : List Char),
    (f.store localtime ji v).numJfiles = ji.numJfiles := by
  simp [fields]

/-- No line sets a string that could not stand in its line. -/
theorem StringsOk.readLine (h : ji.StringsOk) {buff : List Char} (hn : '\n' ∉ buff)
    (hr : readLine localtime ji buff = .ok ji') : ji'.StringsOk := by
  rcases readLine_ok hr with rfl | ⟨i, f, v, hf, hnot, hv, rfl⟩
  · exact h
  · obtain ⟨hin, hq⟩ := findValue_ok hv
    have hun : Unquoted v := by
      refine ⟨hq, ?_, ?_⟩
      · intro hnl
        exact hn ((cstr_isStart buff).subset (hin.subset hnl))
      · intro c hc
        exact toNat_ne_of_mem_cstr (hin.subset hc)
    have hkeys : ∀ g ∈ fields.take i, ¬g.key.toList <:+: v :=
      fun g hg hgv => hnot g hg (List.IsInfix.trans hgv hin)
    have hi : i = 0 ∨ i = 1 ∨ i = 2 ∨ i = 3 ∨ 4 ≤ i := by omega
    rcases hi with rfl | rfl | rfl | rfl | hi
    · cases hf
      exact ⟨h.jid, h.jdir, h.baseFilename, h.jidNames, h.jdirNames, h.baseFilenameNames⟩
    · cases hf
      refine ⟨hun, h.jdir, h.baseFilename, ?_, h.jdirNames, h.baseFilenameNames⟩
      simpa [fields] using hkeys
    · cases hf
      refine ⟨h.jid, hun, h.baseFilename, h.jidNames, ?_, h.baseFilenameNames⟩
      simpa [fields] using hkeys
    · cases hf
      refine ⟨h.jid, h.jdir, hun, h.jidNames, h.jdirNames, ?_⟩
      simpa [fields] using hkeys
    · have hmem : f ∈ fields.drop 4 := by
        apply List.mem_of_getElem? (i := i - 4)
        rw [List.getElem?_drop, Nat.add_sub_cancel' hi]
        exact hf
      obtain ⟨h₁, h₂, h₃⟩ := store_drop f hmem localtime ji v
      exact ⟨h₁ ▸ h.jid, h₂ ▸ h.jdir, h₃ ▸ h.baseFilename, h₁ ▸ h.jidNames, h₂ ▸ h.jdirNames,
        h₃ ▸ h.baseFilenameNames⟩

theorem StringsOk.foldlM (h : ji.StringsOk) {buffs : List (List Char)} (hn : ∀ b ∈ buffs, '\n' ∉ b)
    (hr : buffs.foldlM (Jinf.readLine localtime) ji = .ok ji') : ji'.StringsOk := by
  induction buffs generalizing ji with
  | nil =>
    cases hr
    exact h
  | cons b buffs ih =>
    rw [List.foldlM_cons] at hr
    cases hb : Jinf.readLine localtime ji b with
    | error e =>
      rw [hb] at hr
      cases hr
    | ok j =>
      rw [hb] at hr
      exact ih (h.readLine (hn b List.mem_cons_self) hb) (fun c hc => hn c (List.mem_cons_of_mem b hc)) hr

theorem read_ok {text : List Char} (h : read localtime text = .ok ji') :
    (getLines lineLimit [] text).foldlM (readLine localtime) blank = .ok ji' := by
  rw [read] at h
  cases hfold : (getLines lineLimit [] text).foldlM (readLine localtime) blank with
  | error e =>
    simp only [hfold] at h
    cases h
  | ok j =>
    simp only [hfold, bind, Except.bind] at h
    split at h
    · cases h
    · exact h

theorem stringsOk_of_read {text : List Char} (h : read localtime text = .ok ji') : ji'.StringsOk := by
  have hblank : StringsOk blank := by
    have hempty : Unquoted [] := ⟨List.not_mem_nil, List.not_mem_nil, fun c hc => absurd hc List.not_mem_nil⟩
    exact ⟨hempty, hempty, hempty, by decide, by decide, by decide⟩
  apply hblank.foldlM _ (read_ok h)
  intro b hb
  exact newline_not_mem_getLines List.not_mem_nil hb

def Passes (b : List Char) : Prop :=
  (∃ g ∈ fields.take 4, g.In (cstr b)) ∨ ∀ g ∈ fields, ¬g.In (cstr b)

theorem numJfiles_of_passes {b : List Char} (hp : Passes b) (h : readLine localtime ji b = .ok ji') :
    ji'.numJfiles = ji.numJfiles := by
  rcases hp with ⟨g, hg, hin⟩ | hnone
  · rcases readLine_ok h with rfl | ⟨i, f, v, hf, hnot, -, rfl⟩
    · rfl
    · have hi : i < 4 := by
        by_contra hle
        apply hnot g _ hin
        have htake : fields.take 4 = (fields.take i).take 4 := by
          rw [List.take_take, Nat.min_eq_left (by omega)]
        exact List.mem_of_mem_take (htake ▸ hg)
      apply store_take
      apply List.mem_of_getElem? (i := i)
      rw [List.getElem?_take_of_lt hi, hf]
  · rw [readLine_of_not_in hnone] at h
    cases h
    rfl

theorem numJfiles_of_foldlM {bs : List (List Char)} (hp : ∀ b ∈ bs, Passes b)
    (h : bs.foldlM (readLine localtime) ji = .ok ji') : ji'.numJfiles = ji.numJfiles := by
  induction bs generalizing ji with
  | nil =>
    cases h
    rfl
  | cons b bs ih =>
    rw [List.foldlM_cons] at h
    cases hb : readLine localtime ji b with
    | error e =>
      rw [hb] at h
      cases h
    | ok j =>
      rw [hb] at h
      rw [ih (fun c hc => hp c (List.mem_cons_of_mem b hc)) h]
      exact numJfiles_of_passes (hp b List.mem_cons_self) hb

def NamesEarly (front : String) : Prop :=
  '\n' ∉ front.toList ∧ (∀ c ∈ front.toList, c.toNat ≠ 0) ∧ front.toList.length ≤ 40 ∧
    ∃ g ∈ fields.take 4, g.In (front ++ " value=").toList

instance decidableNamesEarly (front : String) : Decidable (NamesEarly front) := by
  unfold NamesEarly
  infer_instance

theorem passes_take (hfront : NamesEarly front) (hv : ∀ c ∈ v, c.toNat ≠ 0) {k : Nat} (hk : 60 ≤ k) :
    Passes ((valueLine front v).take k) := by
  obtain ⟨-, hnul, hlen, g, hg, hin⟩ := hfront
  left
  refine ⟨g, hg, ?_⟩
  have hline : ∀ c ∈ (valueLine front v).take k, c.toNat ≠ 0 := by
    intro c hc
    have hmem := List.mem_of_mem_take hc
    rw [← cstr_valueLine hnul hv] at hmem
    exact toNat_ne_of_mem_cstr hmem
  have hpre : (front ++ " value=").toList <+: (valueLine front v).take k := by
    have hshort : (front ++ " value=").toList.length ≤ k := by
      have hsp : (" value=").toList.length = 7 := by decide
      rw [String.toList_append, List.length_append, hsp]
      omega
    rw [valueLine_eq, List.take_append, List.take_of_length_le hshort]
    exact List.prefix_append _ _
  rw [cstr_eq hline]
  exact List.IsInfix.trans hin hpre.isInfix

theorem passes_valueLine (hfront : NamesEarly front) (hv : ∀ c ∈ v, c.toNat ≠ 0) :
    Passes (valueLine front v) := by
  have hp := passes_take hfront hv (Nat.le_add_right 60 (valueLine front v).length)
  rwa [List.take_of_length_le (Nat.le_add_left _ _)] at hp

theorem unlines_append (ls ls' : List (List Char)) : unlines (ls ++ ls') = unlines ls ++ unlines ls' :=
  List.flatMap_append

theorem numJfiles_of_long {ls more : List (List Char)} (hls : ∀ l ∈ ls, Whole l ∧ Passes l)
    (hfront : NamesEarly front) (hv : Unquoted v) (hlong : ¬(valueLine front v).length ≤ lineLimit)
    (h : read localtime (unlines (ls ++ valueLine front v :: more)) = .ok ji') : ji'.numJfiles = 0 := by
  have hbuffs : getLines lineLimit [] (unlines (ls ++ valueLine front v :: more)) =
      ls ++ [(valueLine front v).take lineLimit] := by
    have hnl := newline_not_mem_valueLine hfront.1 hv.newline
    rw [unlines_append, unlines_cons, getLines_unlines fun l hl => (hls l hl).1,
      getLines_long hnl (Nat.zero_le _) (Nat.lt_of_not_le hlong), List.nil_append]
  have hfold := read_ok h
  rw [hbuffs] at hfold
  apply numJfiles_of_foldlM _ hfold
  intro b hb
  rcases List.mem_append.mp hb with hb | hb
  · exact (hls b hb).2
  · rw [List.mem_singleton.mp hb]
    exact passes_take hfront hv.nul (by decide)

theorem passes_headLines : ∀ l ∈ ji.headLines, Passes l := by
  simp only [headLines, List.forall_mem_cons, List.not_mem_nil, false_imp_iff, implies_true, and_true]
  exact ⟨.inr (by decide +kernel), .inr (by decide +kernel),
    passes_valueLine (by decide +kernel) (tame_decimal _).unquoted.nul, .inr (by decide +kernel)⟩

theorem readable_of_read (hf : ji.Fits) (h : read localtime ji.xmlStr = .ok ji') (hjid : ji'.jid = ji.jid)
    (hjdir : ji'.jdir = ji.jdir) (hbase : ji'.baseFilename = ji.baseFilename) (hn : ji'.numJfiles ≠ 0) :
    ji.Readable := by
  have hs : ji.StringsOk := by
    obtain ⟨h₁, h₂, h₃, h₄, h₅, h₆⟩ := stringsOk_of_read h
    rw [hjid] at h₁ h₄
    rw [hjdir] at h₂ h₅
    rw [hbase] at h₃ h₆
    exact ⟨h₁, h₂, h₃, h₄, h₅, h₆⟩
  have hhead : ∀ l ∈ ji.headLines, Whole l ∧ Passes l :=
    fun l hl => ⟨whole_headLines hf l hl, passes_headLines l hl⟩
  have hid : NamesEarly "    <id_string" := by decide +kernel
  have hdir : NamesEarly "    <directory" := by decide +kernel
  have hbf : NamesEarly "    <base_filename" := by decide +kernel
  rw [xmlStr, xmlLines_eq] at h
  have hlen₁ : (valueLine "    <id_string" ji.jid).length ≤ lineLimit := by
    by_contra hlong
    exact hn (numJfiles_of_long hhead hid hs.jid hlong h)
  have hls₁ : ∀ l ∈ ji.headLines ++ [valueLine "    <id_string" ji.jid], Whole l ∧ Passes l := by
    rw [List.forall_mem_append, List.forall_mem_singleton]
    exact ⟨hhead, ⟨newline_not_mem_valueLine hid.1 hs.jid.newline, hlen₁⟩,
      passes_valueLine hid hs.jid.nul⟩
  rw [List.append_cons] at h
  have hlen₂ : (valueLine "    <directory" ji.jdir).length ≤ lineLimit := by
    by_contra hlong
    exact hn (numJfiles_of_long hls₁ hdir hs.jdir hlong h)
  have hls₂ : ∀ l ∈ ji.headLines ++ [valueLine "    <id_string" ji.jid] ++
      [valueLine "    <directory" ji.jdir], Whole l ∧ Passes l := by
    rw [List.forall_mem_append, List.forall_mem_singleton]
    exact ⟨hls₁, ⟨newline_not_mem_valueLine hdir.1 hs.jdir.newline, hlen₂⟩,
      passes_valueLine hdir hs.jdir.nul⟩
  rw [List.append_cons] at h
  have hlen₃ : (valueLine "    <base_filename" ji.baseFilename).length ≤ lineLimit := by
    by_contra hlong
    exact hn (numJfiles_of_long hls₂ hbf hs.baseFilename hlong h)
  rw [length_valueLine, lineLimit] at hlen₁ hlen₂ hlen₃
  rw [(by decide : ("    <id_string").toList.length = 14)] at hlen₁
  rw [(by decide : ("    <directory").toList.length = 14)] at hlen₂
  rw [(by decide : ("    <base_filename").toList.length = 18)] at hlen₃
  exact ⟨hs, by omega, by omega, by omega⟩

/-! ## Journals -/

/-- All fields but the time are as written; the limit of auto-expand is one of them with auto-expand.
Recovery never reads the id of the journal and the sizes of its caches. -/
structure Restored (ji ji' : Jinf) : Prop where
  jver : ji'.jver = ji.jver
  jid : ji'.jid = ji.jid
  jdir : ji'.jdir = ji.jdir
  baseFilename : ji'.baseFilename = ji.baseFilename
  numJfiles : ji'.numJfiles = ji.numJfiles
  ae : ji'.ae = ji.ae
  aeMaxJfiles : ji.ae = true → ji'.aeMaxJfiles = ji.aeMaxJfiles
  jfsizeSblks : ji'.jfsizeSblks = ji.jfsizeSblks
  sblkSizeDblks : ji'.sblkSizeDblks = ji.sblkSizeDblks
  dblkSize : ji'.dblkSize = ji.dblkSize
  wcachePgsizeSblks : ji'.wcachePgsizeSblks = ji.wcachePgsizeSblks
  wcacheNumPages : ji'.wcacheNumPages = ji.wcacheNumPages
  rcachePgsizeSblks : ji'.rcachePgsizeSblks = ji.rcachePgsizeSblks
  rcacheNumPages : ji'.rcacheNumPages = ji.rcacheNumPages

def ReadsBack (localtime : Nat → Tm) (ji : Jinf) : Prop :=
  ∃ ji', read localtime ji.xmlStr = .ok ji' ∧ Restored ji ji' ∧ ji'.validate = .ok ()

theorem restored_readBack (localtime : Nat → Tm) (ji : Jinf) : Restored ji (readBack localtime ji) := by
  refine ⟨rfl, rfl, rfl, rfl, rfl, rfl, ?_, rfl, rfl, rfl, rfl, rfl, rfl, rfl⟩
  intro hae
  rw [readBack]
  simp only [hae, if_true]

theorem readsBack_iff_readable (hf : ji.Fits) (hn : ji.numJfiles ≠ 0) : ReadsBack localtime ji ↔
    ji.Readable ∧ (readBack localtime ji).validate = .ok () := by
  constructor
  · rintro ⟨ji', hread, hrest, hvalid⟩
    have hr := readable_of_read hf hread hrest.jid hrest.jdir hrest.baseFilename
      (by rw [hrest.numJfiles]; exact hn)
    rw [read_xmlStr hf hr] at hread
    cases hread
    exact ⟨hr, hvalid⟩
  · intro h
    exact ⟨_, read_xmlStr hf h.1, restored_readBack localtime ji, h.2⟩

end Jinf

/-- The arguments of `jcntl` and its `initialize` that go into the info file, and the time. -/
structure InitArgs where
  jid : List Char
  jdir : List Char
  baseFilename : List Char
  numJfiles : Nat
  ae : Bool
  aeMaxJfiles : Nat
  jfsizeSblks : Nat
  wcacheNumPages : Nat
  wcachePgsizeSblks : Nat
  tvSec : Nat
  tvNsec : Nat

namespace InitArgs

/-- The info file that `write_infofile` writes. -/
def info (localtime : Nat → Tm) (a : InitArgs) (lp : Lpmgr) : Jinf :=
  .make localtime a.jid a.jdir a.baseFilename lp.numJfiles lp.ae lp.aeMaxJfiles a.jfsizeSblks
    a.wcachePgsizeSblks a.wcacheNumPages a.tvSec a.tvNsec

/-- `jcntl::initialize` and `lpmgr::initialize` accept the arguments. -/
structure Accepted (a : InitArgs) (lp : Lpmgr) : Prop where
  minFiles : Store.jrnlMinNumFiles ≤ a.numJfiles
  maxFiles : a.numJfiles ≤ Store.jrnlMaxNumFiles
  minSize : Store.jrnlMinFileSize ≤ a.jfsizeSblks
  maxSize : a.jfsizeSblks ≤ Store.jrnlMaxFileSize
  lpmgr : ∃ fp s, Lpmgr.init a.numJfiles a.ae a.aeMaxJfiles fp s = .ok () lp

structure InRange (localtime : Nat → Tm) (a : InitArgs) : Prop where
  aeMaxJfiles : a.aeMaxJfiles < 2 ^ 16
  wcachePgsizeSblks : a.wcachePgsizeSblks < 2 ^ 32
  wcacheNumPages : a.wcacheNumPages < 2 ^ 16
  tvSec : a.tvSec < 2 ^ 63
  tvNsec : a.tvNsec < 2 ^ 63
  year : (localtime a.tvSec).year < 2 ^ 31
  mon : (localtime a.tvSec).mon < 2 ^ 31
  mday : (localtime a.tvSec).mday < 2 ^ 31
  hour : (localtime a.tvSec).hour < 2 ^ 31
  min : (localtime a.tvSec).min < 2 ^ 31
  sec : (localtime a.tvSec).sec < 2 ^ 31

/-- The limit of auto-expand is one that `jinf::validate` accepts. -/
def LimitSet (a : InitArgs) : Prop :=
  a.ae = true → a.aeMaxJfiles ≠ 0 ∧ a.aeMaxJfiles ≤ Store.jrnlMaxNumFiles

variable {a : InitArgs} {localtime : Nat → Tm} {lp : Lpmgr}

theorem Accepted.built (h : a.Accepted lp) : lp.numJfiles = a.numJfiles ∧ lp.ae = a.ae ∧
    lp.aeMaxJfiles = a.aeMaxJfiles ∧ (a.ae = true → a.aeMaxJfiles = 0 ∨ a.numJfiles < a.aeMaxJfiles) := by
  obtain ⟨fp, s, hinit⟩ := h.lpmgr
  have ht := wp_of_ok Lpmgr.wp_init hinit
  obtain ⟨rfl, hlim⟩ := ht
  refine ⟨?_, rfl, rfl, hlim⟩
  rw [Lpmgr.numJfiles_eq rfl, List.length_range]

theorem Accepted.fits (h : a.Accepted lp) (hr : a.InRange localtime) : (a.info localtime lp).Fits := by
  obtain ⟨hn, -, hm, -⟩ := h.built
  have hmax := h.maxFiles
  have hsize := h.maxSize
  rw [Store.jrnlMaxNumFiles] at hmax
  rw [Store.jrnlMaxFileSize] at hsize
  constructor
  case numJfiles => simp only [info, Jinf.make, hn]; omega
  case aeMaxJfiles => simp only [info, Jinf.make, hm]; exact hr.aeMaxJfiles
  case jfsizeSblks => simp only [info, Jinf.make]; omega
  case jver => exact (by decide : Jinf.rhmJdatVersion < 2 ^ 8)
  case sblkSizeDblks => exact (by decide : jrnlSblkSize < 2 ^ 16)
  case dblkSize => exact (by decide : jrnlDblkSize < 2 ^ 32)
  case rcachePgsizeSblks => exact (by decide : Store.jrnlRmgrPageSize < 2 ^ 32)
  case rcacheNumPages => exact (by decide : Jinf.jrnlRmgrPages < 2 ^ 16)
  case tvSec => exact hr.tvSec
  case tvNsec => exact hr.tvNsec
  case year => exact hr.year
  case mon => exact hr.mon
  case mday => exact hr.mday
  case hour => exact hr.hour
  case min => exact hr.min
  case sec => exact hr.sec
  case wcachePgsizeSblks => exact hr.wcachePgsizeSblks
  case wcacheNumPages => exact hr.wcacheNumPages

theorem Accepted.validate_iff (h : a.Accepted lp) :
    (Jinf.readBack localtime (a.info localtime lp)).validate = .ok () ↔ a.LimitSet := by
  obtain ⟨hn, hae, hm, hlim⟩ := h.built
  rw [Jinf.validate_iff, LimitSet]
  simp only [Jinf.readBack, info, Jinf.make, hn, hae, hm]
  constructor
  · rintro ⟨-, hmin, -, hlimit, -⟩ hset
    have hl := hlimit hset
    rw [if_pos hset] at hl
    rw [Store.jrnlMinNumFiles] at hmin
    exact ⟨by omega, hl.2⟩
  · intro hset
    refine ⟨trivial, h.minFiles, h.maxFiles, ?_, h.minSize, trivial, trivial⟩
    intro htrue
    obtain ⟨hne, hle⟩ := hset htrue
    have hor := hlim htrue
    rw [if_pos htrue]
    exact ⟨by omega, hle⟩

/-- The info file of an initialised journal reads back and is accepted exactly with readable strings and
with a limit set for auto-expand. -/
theorem jinf_readsBack_iff (h : a.Accepted lp) (hr : a.InRange localtime) :
    (a.info localtime lp).ReadsBack localtime ↔ (a.info localtime lp).Readable ∧ a.LimitSet := by
  have hn : (a.info localtime lp).numJfiles ≠ 0 := by
    have hmin := h.minFiles
    have hnum := h.built.1
    rw [Store.jrnlMinNumFiles] at hmin
    simp only [info, Jinf.make]
    omega
  rw [Jinf.readsBack_iff_readable (h.fits hr) hn, h.validate_iff]

def growing : InitArgs where
  jid := ("q1").toList
  jdir := ("/tmp/q1").toList
  baseFilename := ("JournalData").toList
  numJfiles := 8
  ae := true
  aeMaxJfiles := 16
  jfsizeSblks := 3072
  wcacheNumPages := 32
  wcachePgsizeSblks := 64
  tvSec := 0
  tvNsec := 0

theorem growing_accepted (m : Nat) (hm : m = 0 ∨ m = 16) :
    Accepted { growing with aeMaxJfiles := m } ⟨true, m, Lpmgr.slots (List.range 8)⟩ := by
  rcases hm with rfl | rfl
  · exact ⟨by decide, by decide, by decide, by decide, fun _ _ => true, Lpmgr.empty, rfl⟩
  · exact ⟨by decide, by decide, by decide, by decide, fun _ _ => true, Lpmgr.empty, rfl⟩

theorem growing_readsBack :
    (growing.info (fun _ => ⟨1970, 1, 1, 0, 0, 0⟩) ⟨true, 16, Lpmgr.slots (List.range 8)⟩).ReadsBack
      fun _ => ⟨1970, 1, 1, 0, 0, 0⟩ := by
  apply (jinf_readsBack_iff (growing_accepted 16 (.inr rfl)) _).mpr
  · have hun : ∀ v ∈ [growing.jid, growing.jdir, growing.baseFilename], Jinf.Unquoted v := by
      have hall : ∀ v ∈ [growing.jid, growing.jdir, growing.baseFilename],
          '\"' ∉ v ∧ '\n' ∉ v ∧ ∀ c ∈ v, c.toNat ≠ 0 := by decide
      intro v hv
      obtain ⟨h₁, h₂, h₃⟩ := hall v hv
      exact ⟨h₁, h₂, h₃⟩
    refine ⟨⟨⟨hun _ (by decide), hun _ (by decide), hun _ (by decide), by decide +kernel,
      by decide +kernel, by decide +kernel⟩, by decide, by decide, by decide⟩, ?_⟩
    intro _
    decide
  · constructor <;> decide

/-- Without a limit the journal is initialised, but its info file is not accepted. -/
theorem unlimited_not_readsBack : ¬ ∀ (localtime : Nat → Tm) (a : InitArgs) (lp : Lpmgr),
    a.Accepted lp → a.InRange localtime → (a.info localtime lp).ReadsBack localtime := by
  intro hall
  obtain ⟨ji', -, hrest, hvalid⟩ := hall (fun _ => ⟨1970, 1, 1, 0, 0, 0⟩) _ _
    (growing_accepted 0 (.inl rfl)) (by constructor <;> decide)
  have hlimit := ((Jinf.validate_iff ji').mp hvalid).2.2.2.1 hrest.ae
  rw [hrest.numJfiles, hrest.aeMaxJfiles rfl] at hlimit
  exact absurd hlimit.1 (by decide)

end InitArgs

end RhmStore
