import RhmStore.Info.Text

/-! # The info file reads back -/

namespace RhmStore

namespace Jinf

variable {ji ji' : Jinf} {localtime : Nat → Tm} {v : List Char} {front : String}

/-! ## One line -/

def Field.In (f : Field) (l : List Char) : Prop := f.key.toList <:+: l

instance Field.decidableIn (f : Field) (l : List Char) : Decidable (f.In l) :=
  decidable_of_iff _ (strstr_isSome_iff f.key.toList l)

theorem readLine_eq (buff : List Char) : readLine localtime ji buff =
    match fields.find? fun f => decide (f.In (cstr buff)) with
    | none => .ok ji
    | some f => (findValue (cstr buff)).bind fun v => .ok (f.store localtime ji v) := by
  have hp : (fun f : Field => (strstr f.key.toList (cstr buff)).isSome) =
      fun f => decide (f.In (cstr buff)) := by
    funext f
    rw [Bool.eq_iff_iff, strstr_isSome_iff, decide_eq_true_iff]
    rfl
  rw [readLine, hp]
  rfl

theorem readLine_of_not_in {buff : List Char} (h : ∀ f ∈ fields, ¬f.In (cstr buff)) :
    readLine localtime ji buff = .ok ji := by
  have hnone : fields.find? (fun f => decide (f.In (cstr buff))) = none := by
    rw [List.find?_eq_none]
    intro f hf
    rw [decide_eq_true_iff]
    exact h f hf
  rw [readLine_eq, hnone]

theorem readLine_of_in {buff : List Char} {f : Field} {before behind : List Field}
    (hsplit : fields = before ++ f :: behind) (hf : f.In (cstr buff))
    (hbefore : ∀ g ∈ before, ¬g.In (cstr buff)) (hv : findValue (cstr buff) = .ok v) :
    readLine localtime ji buff = .ok (f.store localtime ji v) := by
  have hsome : fields.find? (fun f => decide (f.In (cstr buff))) = some f := by
    rw [List.find?_eq_some_iff_append]
    refine ⟨decide_eq_true hf, before, behind, hsplit, ?_⟩
    intro g hg
    rw [Bool.not_eq_true', decide_eq_false_iff_not]
    exact hbefore g hg
  rw [readLine_eq, hsome, hv]
  rfl

structure Unquoted (v : List Char) : Prop where
  quote : '\"' ∉ v
  newline : '\n' ∉ v
  nul : ∀ c ∈ v, c.toNat ≠ 0

theorem valueLine_eq (front : String) (v : List Char) :
    valueLine front v = (front ++ " value=").toList ++ '\"' :: (v ++ '\"' :: (" />").toList) := by
  have hq : (" value=\"").toList = (" value=").toList ++ ['\"'] := by decide
  have hend : ("\" />").toList = '\"' :: (" />").toList := by decide
  rw [valueLine, String.toList_append, String.toList_append, hq, hend]
  simp only [List.append_assoc, List.cons_append, List.nil_append]

theorem in_valueLine_iff {f : Field} (hf : f ∈ fields) :
    f.In (valueLine front v) ↔ f.In (front ++ " value=").toList ∨ f.In v := by
  have hq : ∀ f ∈ fields, '\"' ∉ f.key.toList ∧ ¬f.In (" />").toList := by decide +kernel
  obtain ⟨hquote, hend⟩ := hq f hf
  rw [Field.In, valueLine_eq, infix_append_cons_iff hquote, infix_append_cons_iff hquote]
  rw [Field.In] at hend
  simp only [Field.In, hend, or_false]

theorem findValue_valueLine (hfront : '\"' ∉ front.toList) (hv : '\"' ∉ v) :
    findValue (valueLine front v) = .ok v := by
  have htarget : ("value=\"").toList = ("value=").toList ++ ['\"'] := by decide
  have hsp : (" value=").toList = ' ' :: ("value=").toList := by decide
  have hline : valueLine front v =
      (front.toList ++ [' ']) ++ (("value=").toList ++ '\"' :: (v ++ '\"' :: (" />").toList)) := by
    rw [valueLine_eq, String.toList_append, hsp]
    simp only [List.append_assoc, List.cons_append, List.nil_append]
  have hfind : strstr ("value=\"").toList (valueLine front v) =
      some (("value=").toList ++ '\"' :: (v ++ '\"' :: (" />").toList)) := by
    rw [hline, htarget]
    apply strstr_append
    · rw [List.mem_append, List.mem_singleton, not_or]
      exact ⟨hfront, by decide⟩
    · decide
  have hdrop : (("value=").toList ++ '\"' :: (v ++ '\"' :: (" />").toList)).drop ("value=\"").length =
      v ++ '\"' :: (" />").toList := by
    have hlen : ("value=\"").length = (("value=").toList ++ ['\"']).length := by decide
    have hsplit : ("value=").toList ++ '\"' :: (v ++ '\"' :: (" />").toList) =
        (("value=").toList ++ ['\"']) ++ (v ++ '\"' :: (" />").toList) := List.append_cons _ _ _
    rw [hlen, hsplit, List.drop_left]
  have htake : (v ++ '\"' :: (" />").toList).takeWhile (· != '\"') = v := by
    rw [List.takeWhile_append_of_pos]
    · rw [List.takeWhile_cons_of_neg (by decide), List.append_nil]
    · intro c hc
      rw [bne_iff_ne]
      rintro rfl
      exact hv hc
  simp only [findValue, hfind, hdrop, htake]
  rw [if_pos (List.mem_append_right v List.mem_cons_self)]

theorem cstr_valueLine (hfront : ∀ c ∈ front.toList, c.toNat ≠ 0) (hv : ∀ c ∈ v, c.toNat ≠ 0) :
    cstr (valueLine front v) = valueLine front v := by
  have hfix : ∀ c ∈ (" value=\"").toList ++ ("\" />").toList, c.toNat ≠ 0 := by decide
  apply cstr_eq
  intro c hc
  rw [valueLine, String.toList_append, List.mem_append, List.mem_append, List.mem_append] at hc
  rcases hc with ((hc | hc) | hc) | hc
  · exact hfront c hc
  · exact hfix c (List.mem_append_left _ hc)
  · exact hv c hc
  · exact hfix c (List.mem_append_right _ hc)

/-- The front of a line names the field at place `i`. -/
def Names (i : Nat) (front : String) : Prop :=
  '\"' ∉ front.toList ∧ '\n' ∉ front.toList ∧ (∀ c ∈ front.toList, c.toNat ≠ 0) ∧
    (∀ f ∈ fields[i]?, f.In (front ++ " value=").toList) ∧
    ∀ f ∈ fields.take i, ¬f.In (front ++ " value=").toList

/-- A line with its value is taken for the field that its front names, if the value names none of those
tried before. -/
theorem readLine_valueLine {i : Nat} {f : Field} (hi : fields[i]? = some f) (hn : Names i front)
    (hv : Unquoted v) (hbefore : ∀ g ∈ fields.take i, ¬g.In v) :
    readLine localtime ji (valueLine front v) = .ok (f.store localtime ji v) := by
  obtain ⟨hquote, -, hnul, hin, hnot⟩ := hn
  have hmem : f ∈ fields := List.mem_of_getElem? hi
  have hc := cstr_valueLine hnul hv.nul
  have hsplit : fields = fields.take i ++ f :: fields.drop (i + 1) := by
    obtain ⟨hlt, hget⟩ := List.getElem?_eq_some_iff.mp hi
    conv_lhs => rw [← List.take_append_drop i fields, List.drop_eq_getElem_cons hlt, hget]
  apply readLine_of_in hsplit
  · rw [hc, in_valueLine_iff hmem]
    exact .inl (hin f hi)
  · intro g hg
    rw [hc, in_valueLine_iff (List.mem_of_mem_take hg), not_or]
    exact ⟨hnot g hg, hbefore g hg⟩
  · rw [hc, findValue_valueLine hquote hv.quote]

/-! ## Numbers and times -/

structure Tame (v : List Char) : Prop where
  unquoted : Unquoted v
  letters : ∀ c ∈ v, c.isAlpha = false

theorem Tame.not_in (h : Tame v) {f : Field} (hf : f ∈ fields) : ¬f.In v := by
  have halpha : ∀ f ∈ fields, f.key.toList.any Char.isAlpha = true := by decide +kernel
  obtain ⟨c, hc, ha⟩ := List.any_eq_true.mp (halpha f hf)
  intro hin
  have hno := h.letters c (hin.subset hc)
  rw [ha] at hno
  cases hno

theorem tame_of_all (h : ∀ c ∈ v, c.isDigit = true ∨ c ∈ ['/', ' ', ':', '.']) : Tame v := by
  have hch : ∀ c ∈ v, c ≠ '\"' ∧ c ≠ '\n' ∧ c.toNat ≠ 0 ∧ c.isAlpha = false := by
    intro c hc
    rcases h c hc with hd | hs
    · have hrange := Char.isDigit_iff_toNat.mp hd
      have hlo : 48 ≤ c.toNat := hrange.1
      have hhi : c.toNat ≤ 57 := hrange.2
      refine ⟨?_, ?_, by omega, ?_⟩
      · rintro rfl
        revert hlo
        decide
      · rintro rfl
        revert hlo
        decide
      · cases ha : c.isAlpha with
        | false => rfl
        | true =>
          have hletter : c.isUpper = true ∨ c.isLower = true := Bool.or_eq_true_iff.mp ha
          rcases hletter with hu | hl
          · have hle : 'A'.val ≤ c.val ∧ c.val ≤ 'Z'.val := of_decide_eq_true hu
            have hA : 65 ≤ c.toNat := UInt32.le_iff_toNat_le.mp hle.1
            omega
          · have hle : 'a'.val ≤ c.val := of_decide_eq_true (Bool.and_eq_true_iff.mp hl).1
            have ha : 97 ≤ c.toNat := UInt32.le_iff_toNat_le.mp hle
            omega
    · have hfix : ['/', ' ', ':', '.'].Forall fun c =>
          c ≠ '\"' ∧ c ≠ '\n' ∧ c.toNat ≠ 0 ∧ c.isAlpha = false := by
        simp only [List.Forall]
        decide
      exact List.forall_iff_forall_mem.mp hfix c hs
  refine ⟨⟨?_, ?_, fun c hc => (hch c hc).2.2.1⟩, fun c hc => (hch c hc).2.2.2⟩
  · intro hq
    exact (hch _ hq).1 rfl
  · intro hn
    exact (hch _ hn).2.1 rfl

theorem tame_decimal (n : Nat) : Tame (decimal n) :=
  tame_of_all fun _ hc => .inl (isDigit_of_mem_decimal hc)

theorem tame_timeString (ji : Jinf) : Tame ji.timeString := by
  apply tame_of_all
  have hdec : ∀ n, ∀ c ∈ decimal n, c.isDigit = true ∨ c ∈ ['/', ' ', ':', '.'] :=
    fun _ _ hc => .inl (isDigit_of_mem_decimal hc)
  have hdecW : ∀ w n, ∀ c ∈ decimalW w n, c.isDigit = true ∨ c ∈ ['/', ' ', ':', '.'] := by
    intro w n c hc
    rcases List.mem_append.mp hc with hz | hd
    · rw [(List.mem_replicate.mp hz).2]
      exact .inl rfl
    · exact hdec n c hd
  intro c hc
  simp only [timeString, List.mem_append, List.mem_singleton] at hc
  rcases hc with (((((((((((hc | rfl) | hc) | rfl) | hc) | rfl) | hc) | rfl) | hc) | rfl) | hc) | rfl) | hc
  all_goals first | exact hdec _ _ hc | exact hdecW _ _ _ hc | exact .inr (by decide)

theorem uintValue_decimal {bits n : Nat} (hb : bits ≤ 63) (h : n < 2 ^ bits) :
    uintValue bits (decimal n) = n := by
  have hlt : n < 2 ^ 63 := Nat.lt_of_lt_of_le h (Nat.pow_le_pow_right (by decide) hb)
  rw [uintValue, strtol_decimal hlt]
  have hmod : (n : Int) % 2 ^ bits = n := by
    rw [Int.emod_eq_of_lt (by omega)]
    exact_mod_cast h
  rw [hmod, Int.toNat_natCast]

/-! ## All lines -/

structure Fits (ji : Jinf) : Prop where
  jver : ji.jver < 2 ^ 8
  tvSec : ji.tvSec < 2 ^ 63
  tvNsec : ji.tvNsec < 2 ^ 63
  year : ji.tm.year < 2 ^ 31
  mon : ji.tm.mon < 2 ^ 31
  mday : ji.tm.mday < 2 ^ 31
  hour : ji.tm.hour < 2 ^ 31
  min : ji.tm.min < 2 ^ 31
  sec : ji.tm.sec < 2 ^ 31
  numJfiles : ji.numJfiles < 2 ^ 16
  aeMaxJfiles : ji.aeMaxJfiles < 2 ^ 16
  jfsizeSblks : ji.jfsizeSblks < 2 ^ 32
  sblkSizeDblks : ji.sblkSizeDblks < 2 ^ 16
  dblkSize : ji.dblkSize < 2 ^ 32
  wcachePgsizeSblks : ji.wcachePgsizeSblks < 2 ^ 32
  wcacheNumPages : ji.wcacheNumPages < 2 ^ 16
  rcachePgsizeSblks : ji.rcachePgsizeSblks < 2 ^ 32
  rcacheNumPages : ji.rcacheNumPages < 2 ^ 16

/-- The strings stand between their quotes and name no field that `read` tries before theirs. -/
structure StringsOk (ji : Jinf) : Prop where
  jid : Unquoted ji.jid
  jdir : Unquoted ji.jdir
  baseFilename : Unquoted ji.baseFilename
  jidNames : ∀ k ∈ ["journal_version"], ¬k.toList <:+: ji.jid
  jdirNames : ∀ k ∈ ["journal_version", "id_string"], ¬k.toList <:+: ji.jdir
  baseFilenameNames : ∀ k ∈ ["journal_version", "id_string", "directory"], ¬k.toList <:+: ji.baseFilename

/-- And their lines fit into the buffer. -/
structure Readable (ji : Jinf) : Prop extends StringsOk ji where
  jidLength : ji.jid.length ≤ 996
  jdirLength : ji.jdir.length ≤ 996
  baseFilenameLength : ji.baseFilename.length ≤ 992

/-- What `read` makes of the lines: the limit is only written with auto-expand, and the time is cut to
32 bits. -/
def readBack (localtime : Nat → Tm) (ji : Jinf) : Jinf :=
  { ji with
    aeMaxJfiles := if ji.ae then ji.aeMaxJfiles else 0
    tvSec := uintValue 32 (decimal ji.tvSec)
    tvNsec := uintValue 32 (decimal ji.tvNsec)
    tm := localtime (uintValue 32 (decimal ji.tvSec)) }

theorem foldlM_cons_ok {j k : Jinf} {l : List Char} {ls : List (List Char)}
    (h : readLine localtime ji l = .ok j) (hs : ls.foldlM (readLine localtime) j = .ok k) :
    (l :: ls).foldlM (readLine localtime) ji = .ok k := by
  rw [List.foldlM_cons, h]
  exact hs

theorem readLine_tag {tag : String} (h : ∀ f ∈ fields, ¬f.In (cstr tag.toList)) :
    readLine localtime ji tag.toList = .ok ji := readLine_of_not_in h

theorem readLine_decimal {i : Nat} {f : Field} (n : Nat) (hi : fields[i]? = some f) (hn : Names i front) :
    readLine localtime ji (valueLine front (decimal n)) = .ok (f.store localtime ji (decimal n)) :=
  readLine_valueLine hi hn (tame_decimal n).unquoted fun _ hg =>
    (tame_decimal n).not_in (List.mem_of_mem_take hg)

instance decidableNames (i : Nat) (front : String) : Decidable (Names i front) := by
  unfold Names
  infer_instance

theorem unquoted_bool (b : Bool) :
    Unquoted (if b then ("true").toList else ("false").toList) ∧
      ∀ g ∈ fields, ¬g.In (if b then ("true").toList else ("false").toList) := by
  cases b with
  | true => exact ⟨⟨by decide, by decide, by decide⟩, by decide +kernel⟩
  | false => exact ⟨⟨by decide, by decide, by decide⟩, by decide +kernel⟩

theorem readLine_bool {i : Nat} {f : Field} (b : Bool) (hi : fields[i]? = some f) (hn : Names i front) :
    readLine localtime ji (valueLine front (if b then ("true").toList else ("false").toList)) =
      .ok (f.store localtime ji (if b then ("true").toList else ("false").toList)) :=
  readLine_valueLine hi hn (unquoted_bool b).1 fun g hg => (unquoted_bool b).2 g (List.mem_of_mem_take hg)

theorem readLine_timeString (ji j : Jinf) :
    readLine localtime j (valueLine "    <string" ji.timeString) = .ok j := by
  have htame := tame_timeString ji
  have hfront : (∀ c ∈ ("    <string").toList, c.toNat ≠ 0) ∧
      ∀ f ∈ fields, ¬f.In ("    <string" ++ " value=").toList := by decide +kernel
  apply readLine_of_not_in
  intro f hf
  rw [cstr_valueLine hfront.1 htame.unquoted.nul, in_valueLine_iff hf, not_or]
  exact ⟨hfront.2 f hf, htame.not_in hf⟩

def headLines (ji : Jinf) : List (List Char) :=
  [("<?xml version=\"1.0\" ?>").toList,
    ("<jrnl>").toList,
    valueLine "  <journal_version" (decimal ji.jver),
    ("  <journal_id>").toList]

theorem foldlM_headLines (hf : ji.Fits) :
    ji.headLines.foldlM (readLine localtime) blank = .ok { blank with jver := ji.jver } := by
  rw [headLines]
  apply foldlM_cons_ok (readLine_tag (by decide +kernel))
  apply foldlM_cons_ok (readLine_tag (by decide +kernel))
  apply foldlM_cons_ok (readLine_decimal (i := 0) ji.jver rfl (by decide +kernel))
  apply foldlM_cons_ok (readLine_tag (by decide +kernel))
  simp only [uintValue_decimal (by decide) hf.jver]
  rfl

theorem readLine_jid (hr : ji.Readable) (j : Jinf) :
    readLine localtime j (valueLine "    <id_string" ji.jid) = .ok { j with jid := ji.jid } := by
  apply readLine_valueLine (i := 1) rfl (by decide +kernel) hr.jid
  intro g hg
  apply hr.jidNames
  have hkeys : ∀ g ∈ fields.take 1, g.key ∈ ["journal_version"] := by decide
  exact hkeys g hg

theorem readLine_jdir (hr : ji.Readable) (j : Jinf) :
    readLine localtime j (valueLine "    <directory" ji.jdir) = .ok { j with jdir := ji.jdir } := by
  apply readLine_valueLine (i := 2) rfl (by decide +kernel) hr.jdir
  intro g hg
  apply hr.jdirNames
  have hkeys : ∀ g ∈ fields.take 2, g.key ∈ ["journal_version", "id_string"] := by decide
  exact hkeys g hg

theorem readLine_baseFilename (hr : ji.Readable) (j : Jinf) :
    readLine localtime j (valueLine "    <base_filename" ji.baseFilename) =
      .ok { j with baseFilename := ji.baseFilename } := by
  apply readLine_valueLine (i := 3) rfl (by decide +kernel) hr.baseFilename
  intro g hg
  apply hr.baseFilenameNames
  have hkeys : ∀ g ∈ fields.take 3, g.key ∈ ["journal_version", "id_string", "directory"] := by decide
  exact hkeys g hg

def tailLines (ji : Jinf) : List (List Char) :=
  [("  </journal_id>").toList,
    ("  <creation_time>").toList,
    valueLine "    <seconds" (decimal ji.tvSec),
    valueLine "    <nanoseconds" (decimal ji.tvNsec),
    valueLine "    <string" ji.timeString,
    ("  </creation_time>").toList,
    ("  <journal_file_geometry>").toList,
    valueLine "    <number_jrnl_files" (decimal ji.numJfiles),
    valueLine "    <auto_expand" (if ji.ae then ("true").toList else ("false").toList)] ++
  (if ji.ae then [valueLine "    <auto_expand_max_jrnl_files" (decimal ji.aeMaxJfiles)] else []) ++
  [valueLine "    <jrnl_file_size_sblks" (decimal ji.jfsizeSblks),
    valueLine "    <JRNL_SBLK_SIZE" (decimal ji.sblkSizeDblks),
    valueLine "    <JRNL_DBLK_SIZE" (decimal ji.dblkSize),
    ("  </journal_file_geometry>").toList,
    ("  <cache_geometry>").toList,
    valueLine "    <wcache_pgsize_sblks" (decimal ji.wcachePgsizeSblks),
    valueLine "    <wcache_num_pages" (decimal ji.wcacheNumPages),
    valueLine "    <JRNL_RMGR_PAGE_SIZE" (decimal ji.rcachePgsizeSblks),
    valueLine "    <JRNL_RMGR_PAGES" (decimal ji.rcacheNumPages),
    ("  </cache_geometry>").toList,
    ("</jrnl>").toList]

theorem xmlLines_eq (ji : Jinf) : ji.xmlLines = ji.headLines ++
    valueLine "    <id_string" ji.jid :: valueLine "    <directory" ji.jdir ::
      valueLine "    <base_filename" ji.baseFilename :: ji.tailLines := by
  rw [xmlLines, headLines, tailLines]
  simp only [List.cons_append, List.nil_append]

theorem foldlM_append_ok {j k : Jinf} {ls ls' : List (List Char)}
    (h : ls.foldlM (readLine localtime) ji = .ok j) (h' : ls'.foldlM (readLine localtime) j = .ok k) :
    (ls ++ ls').foldlM (readLine localtime) ji = .ok k := by
  rw [List.foldlM_append, h]
  exact h'

theorem foldlM_limitLine (hf : ji.Fits) {j : Jinf} (hmax : j.aeMaxJfiles = 0) :
    (if ji.ae then [valueLine "    <auto_expand_max_jrnl_files" (decimal ji.aeMaxJfiles)] else []).foldlM
      (readLine localtime) j = .ok { j with aeMaxJfiles := if ji.ae then ji.aeMaxJfiles else 0 } := by
  cases ji.ae with
  | true =>
    rw [if_pos rfl]
    apply foldlM_cons_ok (readLine_decimal (i := 5) ji.aeMaxJfiles rfl (by decide +kernel))
    simp only [uintValue_decimal (by decide) hf.aeMaxJfiles]
    rfl
  | false =>
    have hj : { j with aeMaxJfiles := 0 } = j := by rw [← hmax]
    simp only [Bool.false_eq_true, if_false, hj]
    rfl

theorem foldlM_tailLines (hf : ji.Fits) {j : Jinf} (hver : j.jver = ji.jver) (hid : j.jid = ji.jid)
    (hdir : j.jdir = ji.jdir) (hbase : j.baseFilename = ji.baseFilename) (hmax : j.aeMaxJfiles = 0) :
    ji.tailLines.foldlM (readLine localtime) j = .ok (readBack localtime ji) := by
  have hae : ((if ji.ae then ("true").toList else ("false").toList) == ("true").toList) = ji.ae := by
    cases ji.ae <;> decide
  rw [tailLines]
  apply foldlM_append_ok
  · apply foldlM_append_ok
    · apply foldlM_cons_ok (readLine_tag (by decide +kernel))
      apply foldlM_cons_ok (readLine_tag (by decide +kernel))
      apply foldlM_cons_ok (readLine_decimal (i := 15) ji.tvSec rfl (by decide +kernel))
      apply foldlM_cons_ok (readLine_decimal (i := 14) ji.tvNsec rfl (by decide +kernel))
      apply foldlM_cons_ok (readLine_timeString ji _)
      apply foldlM_cons_ok (readLine_tag (by decide +kernel))
      apply foldlM_cons_ok (readLine_tag (by decide +kernel))
      apply foldlM_cons_ok (readLine_decimal (i := 4) ji.numJfiles rfl (by decide +kernel))
      apply foldlM_cons_ok (readLine_bool (i := 6) ji.ae rfl (by decide +kernel))
      rfl
    · exact foldlM_limitLine hf hmax
  · apply foldlM_cons_ok (readLine_decimal (i := 7) ji.jfsizeSblks rfl (by decide +kernel))
    apply foldlM_cons_ok (readLine_decimal (i := 8) ji.sblkSizeDblks rfl (by decide +kernel))
    apply foldlM_cons_ok (readLine_decimal (i := 9) ji.dblkSize rfl (by decide +kernel))
    apply foldlM_cons_ok (readLine_tag (by decide +kernel))
    apply foldlM_cons_ok (readLine_tag (by decide +kernel))
    apply foldlM_cons_ok (readLine_decimal (i := 10) ji.wcachePgsizeSblks rfl (by decide +kernel))
    apply foldlM_cons_ok (readLine_decimal (i := 11) ji.wcacheNumPages rfl (by decide +kernel))
    apply foldlM_cons_ok (readLine_decimal (i := 12) ji.rcachePgsizeSblks rfl (by decide +kernel))
    apply foldlM_cons_ok (readLine_decimal (i := 13) ji.rcacheNumPages rfl (by decide +kernel))
    apply foldlM_cons_ok (readLine_tag (by decide +kernel))
    apply foldlM_cons_ok (readLine_tag (by decide +kernel))
    simp only [uintValue_decimal (by decide) hf.numJfiles, uintValue_decimal (by decide) hf.jfsizeSblks,
      uintValue_decimal (by decide) hf.sblkSizeDblks, uintValue_decimal (by decide) hf.dblkSize,
      uintValue_decimal (by decide) hf.wcachePgsizeSblks, uintValue_decimal (by decide) hf.wcacheNumPages,
      uintValue_decimal (by decide) hf.rcachePgsizeSblks, uintValue_decimal (by decide) hf.rcacheNumPages,
      hae, hver, hid, hdir, hbase]
    rfl

theorem foldlM_xmlLines (hf : ji.Fits) (hr : ji.Readable) :
    ji.xmlLines.foldlM (readLine localtime) blank = .ok (readBack localtime ji) := by
  rw [xmlLines_eq]
  apply foldlM_append_ok (foldlM_headLines hf)
  apply foldlM_cons_ok (readLine_jid hr _)
  apply foldlM_cons_ok (readLine_jdir hr _)
  apply foldlM_cons_ok (readLine_baseFilename hr _)
  exact foldlM_tailLines hf rfl rfl rfl rfl rfl

/-! ## The text -/

/-- A line that `getline` takes whole. -/
def Whole (l : List Char) : Prop := '\n' ∉ l ∧ l.length ≤ lineLimit

instance Whole.decidable (l : List Char) : Decidable (Whole l) :=
  inferInstanceAs (Decidable ('\n' ∉ l ∧ l.length ≤ lineLimit))

theorem length_valueLine (front : String) (v : List Char) :
    (valueLine front v).length = front.toList.length + v.length + 12 := by
  have hlen : (" value=\"").toList.length = 8 ∧ ("\" />").toList.length = 4 := by decide
  rw [valueLine, String.toList_append, List.length_append, List.length_append, List.length_append, hlen.1,
    hlen.2]
  omega

theorem newline_not_mem_valueLine (hfront : '\n' ∉ front.toList) (hv : '\n' ∉ v) :
    '\n' ∉ valueLine front v := by
  have hfix : '\n' ∉ (" value=\"").toList ∧ '\n' ∉ ("\" />").toList := by decide
  rw [valueLine, String.toList_append]
  simp only [List.mem_append, hfront, hfix.1, hfix.2, hv, or_self, not_false_eq_true]

theorem whole_valueLine (hfront : '\n' ∉ front.toList ∧ front.toList.length ≤ 40) (hv : '\n' ∉ v)
    (hlen : v.length ≤ 200) : Whole (valueLine front v) := by
  refine ⟨newline_not_mem_valueLine hfront.1 hv, ?_⟩
  have hf := hfront.2
  rw [length_valueLine, lineLimit]
  omega

theorem whole_decimal {n : Nat} (hfront : '\n' ∉ front.toList ∧ front.toList.length ≤ 40)
    (hn : n < 2 ^ 63) : Whole (valueLine front (decimal n)) := by
  have hlen := length_decimal_le (by decide : 0 < 20) (by omega : n < 10 ^ 20)
  exact whole_valueLine hfront (tame_decimal n).unquoted.newline (by omega)

theorem length_decimalW_le {w n : Nat} (hw : w ≤ 20) (hn : n < 2 ^ 63) : (decimalW w n).length ≤ 20 := by
  have hlen := length_decimal_le (by decide : 0 < 20) (by omega : n < 10 ^ 20)
  rw [decimalW, List.length_append, List.length_replicate]
  omega

theorem length_timeString_le (hf : ji.Fits) : ji.timeString.length ≤ 200 := by
  have hyear := length_decimal_le (by decide : 0 < 20) (by have := hf.year; omega : ji.tm.year < 10 ^ 20)
  have hmon := length_decimalW_le (by decide : 2 ≤ 20) (by have := hf.mon; omega : ji.tm.mon < 2 ^ 63)
  have hmday := length_decimalW_le (by decide : 2 ≤ 20) (by have := hf.mday; omega : ji.tm.mday < 2 ^ 63)
  have hhour := length_decimalW_le (by decide : 2 ≤ 20) (by have := hf.hour; omega : ji.tm.hour < 2 ^ 63)
  have hmin := length_decimalW_le (by decide : 2 ≤ 20) (by have := hf.min; omega : ji.tm.min < 2 ^ 63)
  have hsec := length_decimalW_le (by decide : 2 ≤ 20) (by have := hf.sec; omega : ji.tm.sec < 2 ^ 63)
  have hnsec := length_decimalW_le (by decide : 9 ≤ 20) hf.tvNsec
  simp only [timeString, List.length_append, List.length_singleton]
  omega

theorem whole_headLines (hf : ji.Fits) : ∀ l ∈ ji.headLines, Whole l := by
  simp only [headLines, List.forall_mem_cons, List.not_mem_nil, false_imp_iff, implies_true, and_true]
  refine ⟨by decide, by decide, whole_decimal (by decide) ?_, by decide⟩
  have hver := hf.jver
  omega

theorem whole_tailLines (hf : ji.Fits) : ∀ l ∈ ji.tailLines, Whole l := by
  have hlimit : ∀ l ∈ if ji.ae then [valueLine "    <auto_expand_max_jrnl_files" (decimal ji.aeMaxJfiles)]
      else [], Whole l := by
    cases ji.ae with
    | true =>
      rw [if_pos rfl]
      intro l hl
      rw [List.mem_singleton.mp hl]
      have hmax := hf.aeMaxJfiles
      exact whole_decimal (by decide) (by omega)
    | false =>
      intro l hl
      cases hl
  have hbool : Whole (valueLine "    <auto_expand" (if ji.ae then ("true").toList else ("false").toList)) := by
    cases ji.ae <;> decide
  have h₁ := hf.numJfiles
  have h₂ := hf.jfsizeSblks
  have h₃ := hf.sblkSizeDblks
  have h₄ := hf.dblkSize
  have h₅ := hf.wcachePgsizeSblks
  have h₆ := hf.wcacheNumPages
  have h₇ := hf.rcachePgsizeSblks
  have h₈ := hf.rcacheNumPages
  rw [tailLines, List.forall_mem_append, List.forall_mem_append]
  refine ⟨⟨?_, hlimit⟩, ?_⟩
  · simp only [List.forall_mem_cons, List.not_mem_nil, false_imp_iff, implies_true, and_true]
    exact ⟨by decide, by decide, whole_decimal (by decide) hf.tvSec, whole_decimal (by decide) hf.tvNsec,
      whole_valueLine (by decide) (tame_timeString ji).unquoted.newline (length_timeString_le hf),
      by decide, by decide, whole_decimal (by decide) (by omega), hbool⟩
  · simp only [List.forall_mem_cons, List.not_mem_nil, false_imp_iff, implies_true, and_true]
    exact ⟨whole_decimal (by decide) (by omega), whole_decimal (by decide) (by omega),
      whole_decimal (by decide) (by omega), by decide, by decide, whole_decimal (by decide) (by omega),
      whole_decimal (by decide) (by omega), whole_decimal (by decide) (by omega),
      whole_decimal (by decide) (by omega), by decide, by decide⟩

theorem whole_xmlLines (hf : ji.Fits) (hr : ji.Readable) : ∀ l ∈ ji.xmlLines, Whole l := by
  have hjid : Whole (valueLine "    <id_string" ji.jid) := by
    refine ⟨newline_not_mem_valueLine (by decide) hr.jid.newline, ?_⟩
    have hlen := hr.jidLength
    rw [length_valueLine, (by decide : ("    <id_string").toList.length = 14), lineLimit]
    omega
  have hjdir : Whole (valueLine "    <directory" ji.jdir) := by
    refine ⟨newline_not_mem_valueLine (by decide) hr.jdir.newline, ?_⟩
    have hlen := hr.jdirLength
    rw [length_valueLine, (by decide : ("    <directory").toList.length = 14), lineLimit]
    omega
  have hbase : Whole (valueLine "    <base_filename" ji.baseFilename) := by
    refine ⟨newline_not_mem_valueLine (by decide) hr.baseFilename.newline, ?_⟩
    have hlen := hr.baseFilenameLength
    rw [length_valueLine, (by decide : ("    <base_filename").toList.length = 18), lineLimit]
    omega
  rw [xmlLines_eq, List.forall_mem_append, List.forall_mem_cons, List.forall_mem_cons,
    List.forall_mem_cons]
  exact ⟨whole_headLines hf, hjid, hjdir, hbase, whole_tailLines hf⟩

theorem read_xmlStr (hf : ji.Fits) (hr : ji.Readable) :
    read localtime ji.xmlStr = .ok (readBack localtime ji) := by
  have hlines : getLines lineLimit [] ji.xmlStr = ji.xmlLines ++ [[]] := by
    have happ := getLines_unlines (whole_xmlLines hf hr) []
    rw [List.append_nil] at happ
    exact happ
  have hlast : [[]].foldlM (readLine localtime) (readBack localtime ji) = .ok (readBack localtime ji) :=
    foldlM_cons_ok (readLine_of_not_in (by decide +kernel)) rfl
  have hfold : (ji.xmlLines ++ [[]]).foldlM (readLine localtime) blank = .ok (readBack localtime ji) :=
    foldlM_append_ok (foldlM_xmlLines hf hr) hlast
  have hchars : ((ji.xmlLines ++ [[]]).all fun b => (cstr b).isEmpty) = false := by
    rw [xmlLines_eq, headLines]
    rfl
  rw [read]
  simp only [hlines, hfold, hchars]
  rfl

end Jinf

end RhmStore
