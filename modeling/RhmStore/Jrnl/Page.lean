import Mathlib.Logic.Function.Basic
import RhmStore.Jrnl.DataTok

/-! # Files, pages and asynchronous writes -/

namespace RhmStore

/-- The sizes a journal is set up with: at least one page goes into a file. -/
structure Geom where
  numJfiles : Nat
  jfsizeSblks : Nat
  pgsizeSblks : Nat
  numPages : Nat
  numJfiles_pos : 0 < numJfiles
  pgsize_pos : 0 < pgsizeSblks
  pgsize_le : pgsizeSblks ≤ jfsizeSblks
  numPages_pos : 0 < numPages

namespace Geom

def pgDblks (g : Geom) : Nat := g.pgsizeSblks * jrnlSblkSize

/-- `_jfsize_dblks`: the dblks of a file without its header. -/
def jfsizeDblks (g : Geom) : Nat := g.jfsizeSblks * jrnlSblkSize

/-- `_jfsize_pgs`: the whole pages of a file. -/
def jfsizePgs (g : Geom) : Nat := g.jfsizeSblks / g.pgsizeSblks

def fileDblks (g : Geom) : Nat := g.jfsizePgs * g.pgDblks

/-- `_ffull_dblks`: the dblks of a file with its header. -/
def ffullDblks (g : Geom) : Nat := jrnlSblkSize * (g.jfsizeSblks + 1)

/-- `_enq_cap_offs_dblks`: what JRNL_ENQ_THRESHOLD (80%) leaves free, at least a file. -/
def enqCapOffsDblks (g : Geom) : Nat :=
  max ((g.jfsizeDblks * g.numJfiles * 20 + 99) / 100) g.jfsizeDblks

/-- `fro` of `wmgr::file_header_check`, the offset of the first record header in a file: 0 if the record
that goes on in the file fills it. -/
def fro (g : Geom) (cont : Bool) (recDblksRem : Nat) : Nat :=
  if cont then
    if recDblksRem < g.jfsizeDblks then (recDblksRem + jrnlSblkSize) * jrnlDblkSize else 0
  else jrnlSblkSize * jrnlDblkSize

variable (g : Geom)

theorem pgDblks_pos : 0 < g.pgDblks := Nat.mul_pos g.pgsize_pos (by decide)

theorem jfsizeDblks_pos : 0 < g.jfsizeDblks := Nat.mul_pos (Nat.lt_of_lt_of_le g.pgsize_pos g.pgsize_le) (by decide)

theorem fileDblks_le : jrnlSblkSize + g.fileDblks ≤ g.ffullDblks := by
  have h : g.jfsizeSblks / g.pgsizeSblks * g.pgsizeSblks ≤ g.jfsizeSblks := Nat.div_mul_le_self _ _
  simp only [fileDblks, ffullDblks, jfsizePgs, pgDblks, ← Nat.mul_assoc]
  unfold jrnlSblkSize
  omega

end Geom

/-- `file_hdr`: the rid, the file's ids, the offset of the first record header in the file, and the
overwrite indicator. -/
structure FileHdr where
  rid : Nat
  pfid : Nat
  lfid : Nat
  fro : Nat
  owi : Bool
  deriving DecidableEq, Repr

/-- What a dblk of a file or of a page holds. A file is created as zeros; what is behind a file
header in its sblk is never read. -/
inductive Dblk
  | zero
  | fhdr (h : FileHdr)
  | pad
  | filler
  | head (r : JRec) (owi : Bool)
  | body (r : JRec) (idx : Nat)
  deriving DecidableEq, Repr

def JRec.dblk (r : JRec) (owi : Bool) (idx : Nat) : Dblk := if idx = 0 then .head r owi else .body r idx

/-- `pmgr::page_state`. -/
inductive PageState
  | unused
  | inUse
  | aioPending
  | aioComplete
  deriving DecidableEq, Repr

/-- `page_cb` with its page: tokens of the records in the page, file of the last submit. -/
structure PageCb where
  state : PageState := .unused
  wdblks : Nat := 0
  pdtokl : List Nat := []
  wfh : Nat := 0
  buff : Nat → Dblk := fun _ => .zero

/-- The write side of `fcntl`; its `_rec_enqcnt` is in `Maps.enqCnt`. -/
structure Fcntl where
  wrSubm : Nat := 0
  wrCmpl : Nat := 0
  aioCnt : Nat := 0
  wrFhdrAioOutstanding : Bool := false
  deriving DecidableEq, Repr

/-- A write handed to AIO: `page` is none for a file header. `inst` is history: how many times the
ring had turned to a next file. -/
structure Write where
  fid : Nat
  offs : Nat
  dblks : Nat
  content : Nat → Dblk
  page : Option Nat
  inst : Nat

/-- History: a run of a record's dblks in one page. `inst` counts the turns of the ring, `stamp` the
file resets and `sent` the writes there had been. -/
structure Part where
  fid : Nat
  inst : Nat
  offs : Nat
  idx : Nat
  len : Nat
  stamp : Nat
  sent : Nat
  deriving DecidableEq, Repr

/-- History: a record as far as it is encoded, and its token. -/
structure Written where
  tok : Nat
  jrec : JRec
  owi : Bool
  parts : List Part
  deriving DecidableEq, Repr

end RhmStore
