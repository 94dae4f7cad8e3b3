import RhmStore.Info.Jinf
import RhmStore.Lib.Text

/-! # The text of the info file -/

namespace RhmStore

namespace Jinf

def valueLine (front : String) (v : List Char) : List Char :=
  (front ++ " value=\"").toList ++ v ++ ("\" />").toList

def timeString (ji : Jinf) : List Char :=
  decimal ji.tm.year ++ ['/'] ++ decimalW 2 ji.tm.mon ++ ['/'] ++ decimalW 2 ji.tm.mday ++ [' '] ++
    decimalW 2 ji.tm.hour ++ [':'] ++ decimalW 2 ji.tm.min ++ [':'] ++ decimalW 2 ji.tm.sec ++ ['.'] ++
    decimalW 9 ji.tvNsec

/-- The lines of `xml_str`. -/
def xmlLines (ji : Jinf) : List (List Char) :=
  [("<?xml version=\"1.0\" ?>").toList,
    ("<jrnl>").toList,
    valueLine "  <journal_version" (decimal ji.jver),
    ("  <journal_id>").toList,
    valueLine "    <id_string" ji.jid,
    valueLine "    <directory" ji.jdir,
    valueLine "    <base_filename" ji.baseFilename,
    ("  </journal_id>").toList,
    ("  <creation_time>").toList,
    valueLine "    <seconds" (decimal ji.tvSec),
    valueLine "    <nanoseconds" (decimal ji.tvNsec),
    valueLine "    <string" ji.timeString,
    ("  </creation_time>").toList,
    ("  <journal_file_geometry>").toList,
    valueLine "    <number_jrnl_files" (decimal ji.numJfiles),
    valueLine "    <auto_expand" (if ji.ae then ("true").toList else ("false").toList)] ++
  (if ji.ae then [valueLine "    <auto_expand_max_jrnl_files" (decimal ji.aeMaxJfiles)] else []) ++
  [valueLine "    <jrnl_file_size_sblks" (decimal ji.jfsizeSblks),
    valueLine "    <JRNL_SBLK_SIZE" (decimal ji.sblkSizeDblks),
    valueLine "    <JRNL_DBLK_SIZE" (decimal ji.dblkSize),
    ("  </journal_file_geometry>").toList,
    ("  <cache_geometry>").toList,
    valueLine "    <wcache_pgsize_sblks" (decimal ji.wcachePgsizeSblks),
    valueLine "    <wcache_num_pages" (decimal ji.wcacheNumPages),
    valueLine "    <JRNL_RMGR_PAGE_SIZE" (decimal ji.rcachePgsizeSblks),
    valueLine "    <JRNL_RMGR_PAGES" (decimal ji.rcacheNumPages),
    ("  </cache_geometry>").toList,
    ("</jrnl>").toList]

def xmlStr (ji : Jinf) : List Char := unlines ji.xmlLines

/-- `find_value`: what stands between the quotes. -/
def findValue (line : List Char) : Except JinfErr (List Char) :=
  match strstr ("value=\"").toList line with
  | none => .error .noValueStr
  | some t =>
    let t₁ := t.drop ("value=\"").length
    if '\"' ∈ t₁ then .ok (t₁.takeWhile (· != '\"')) else .error .badValueStr

/-- `u_int16_value` and `u_int32_value`, and what a narrower field keeps of these. -/
def uintValue (bits : Nat) (v : List Char) : Nat := (strtol v % 2 ^ bits).toNat

/-- A field that `read` looks for, and what it does with the value. -/
structure Field where
  key : String
  store : (Nat → Tm) → Jinf → List Char → Jinf

/-- The fields in the order in which `read` tries them. -/
def fields : List Field :=
  [⟨"journal_version", fun _ ji v => { ji with jver := uintValue 8 v }⟩,
    ⟨"id_string", fun _ ji v => { ji with jid := v }⟩,
    ⟨"directory", fun _ ji v => { ji with jdir := v }⟩,
    ⟨"base_filename", fun _ ji v => { ji with baseFilename := v }⟩,
    ⟨"number_jrnl_files", fun _ ji v => { ji with numJfiles := uintValue 16 v }⟩,
    ⟨"auto_expand_max_jrnl_files", fun _ ji v => { ji with aeMaxJfiles := uintValue 16 v }⟩,
    ⟨"auto_expand", fun _ ji v => { ji with ae := v == ("true").toList }⟩,
    ⟨"jrnl_file_size_sblks", fun _ ji v => { ji with jfsizeSblks := uintValue 32 v }⟩,
    ⟨"JRNL_SBLK_SIZE", fun _ ji v => { ji with sblkSizeDblks := uintValue 16 v }⟩,
    ⟨"JRNL_DBLK_SIZE", fun _ ji v => { ji with dblkSize := uintValue 32 v }⟩,
    ⟨"wcache_pgsize_sblks", fun _ ji v => { ji with wcachePgsizeSblks := uintValue 32 v }⟩,
    ⟨"wcache_num_pages", fun _ ji v => { ji with wcacheNumPages := uintValue 16 v }⟩,
    ⟨"JRNL_RMGR_PAGE_SIZE", fun _ ji v => { ji with rcachePgsizeSblks := uintValue 32 v }⟩,
    ⟨"JRNL_RMGR_PAGES", fun _ ji v => { ji with rcacheNumPages := uintValue 16 v }⟩,
    ⟨"nanoseconds", fun _ ji v => { ji with tvNsec := uintValue 32 v }⟩,
    ⟨"seconds", fun localtime ji v =>
      { ji with tvSec := uintValue 32 v, tm := localtime (uintValue 32 v) }⟩]

/-- One turn of the loop of `read`. -/
def readLine (localtime : Nat → Tm) (ji : Jinf) (buff : List Char) : Except JinfErr Jinf :=
  match fields.find? fun f => (strstr f.key.toList (cstr buff)).isSome with
  | none => .ok ji
  | some f => do
    let v ← findValue (cstr buff)
    .ok (f.store localtime ji v)

def blank : Jinf where
  jver := 0
  jid := []
  jdir := []
  baseFilename := []
  tvSec := 0
  tvNsec := 0
  tm := ⟨0, 0, 0, 0, 0, 0⟩
  numJfiles := 0
  ae := false
  aeMaxJfiles := 0
  jfsizeSblks := 0
  sblkSizeDblks := 0
  dblkSize := 0
  wcachePgsizeSblks := 0
  wcacheNumPages := 0
  rcachePgsizeSblks := 0
  rcacheNumPages := 0

/-- `char buff[1024]` with `getline(buff, 1023)`. -/
def lineLimit : Nat := 1022

def read (localtime : Nat → Tm) (text : List Char) : Except JinfErr Jinf := do
  let buffs := getLines lineLimit [] text
  let ji ← buffs.foldlM (readLine localtime) blank
  if buffs.all fun b => (cstr b).isEmpty then .error .zeroLenFile else .ok ji

def make (localtime : Nat → Tm) (jid jdir baseFilename : List Char) (numJfiles : Nat) (autoExpand : Bool)
    (aeMaxJfiles jfsizeSblks wcachePgsizeSblks wcacheNumPages tvSec tvNsec : Nat) : Jinf where
  jver := rhmJdatVersion
  jid := jid
  jdir := jdir
  baseFilename := baseFilename
  tvSec := tvSec
  tvNsec := tvNsec
  tm := localtime tvSec
  numJfiles := numJfiles
  ae := autoExpand
  aeMaxJfiles := aeMaxJfiles
  jfsizeSblks := jfsizeSblks
  sblkSizeDblks := jrnlSblkSize
  dblkSize := jrnlDblkSize
  wcachePgsizeSblks := wcachePgsizeSblks
  wcacheNumPages := wcacheNumPages
  rcachePgsizeSblks := Store.jrnlRmgrPageSize
  rcacheNumPages := jrnlRmgrPages

end Jinf

end RhmStore
