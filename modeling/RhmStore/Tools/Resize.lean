import Std.Data.ExtTreeMap
import RhmStore.Tools.Jrnl

/-! # The script `resize` -/

namespace RhmStore

namespace Jrnl

/-- What `JrnlInfo` says of the new files. -/
structure JrnlInfo where
  numJrnlFiles : Nat
  jrnlDataSizeSblks : Nat
  deriving DecidableEq, Repr

namespace JrnlInfo

def sblkSizeBytes : Nat := jrnlSblkSize * jrnlDblkSize

def jrnlDataSizeBytes (i : JrnlInfo) : Nat := i.jrnlDataSizeSblks * sblkSizeBytes

def jrnlFileSizeBytes (i : JrnlInfo) : Nat := (i.jrnlDataSizeSblks + 1) * sblkSizeBytes

end JrnlInfo

/-- `FileHdr.encode`. -/
def encodeFileHdr (fid fro sec nsec : Nat) (rid : UInt64) : Bytes :=
  Hdr.encode ⟨Hdr.rhm ++ [0x66], 1, 0, 0, rid⟩ ++ (leBytes 2 fid ++ leBytes 2 fid ++ List.replicate 4 0 ++
    leBytes 8 fro ++ leBytes 8 sec ++ leBytes 8 nsec)

/-! ## The records to be transferred -/

/-- `master_record_list`, by rid. -/
abbrev MasterRecordList := Std.ExtTreeMap Nat Rec

/-- A record of `emap`, and the commit of its transaction if that is still in the list of these. -/
def addEnq (p : MasterRecordList × List (Bytes × TxnRec)) (hdr : EnqRec) :
    MasterRecordList × List (Bytes × TxnRec) :=
  let master := p.1.insert hdr.hdr.rid.toNat (Rec.enq hdr).clearOwi
  let txn := if hdr.xidsize > 0 then hdr.body.xid.bind (p.2.lookup ·) else none
  match txn with
  | none => (master, p.2)
  | some txnHdr =>
    (master.insert txnHdr.hdr.rid.toNat (Rec.txn txnHdr).clearOwi,
      p.2.filter fun e => some e.1 ≠ hdr.body.xid)

/-- The records of `emap` with their commits, and those of `tmap`. -/
def masterRecordList (emap : List EnqRec) (txnObjList : List (Bytes × TxnRec)) (tmap : List (List Rec)) :
    MasterRecordList :=
  tmap.flatten.foldl (fun master hdr => master.insert hdr.hdr.rid.toNat hdr.clearOwi)
    (emap.foldl addEnq (∅, txnObjList)).1

/-! ## The new files -/

/-- The files that are closed, the one that is open, and its number. -/
structure Resize where
  closed : List Bytes
  file : Option Bytes
  fnum : Option Nat
  deriving DecidableEq, Repr

namespace Resize

def init : Resize := ⟨[], none, none⟩

/-- `_fill_file` to a position. -/
def fillTo (i : JrnlInfo) (toPosn : Nat) (file : Bytes) : Except Err Bytes :=
  if i.jrnlFileSizeBytes < toPosn then .error .fillExceedsFileSizeError
  else
    let file := file ++ List.replicate (toPosn - file.length) 0
    if file.length ≠ toPosn then .error .fillSizeError else .ok file

def rhmx : Bytes := Hdr.rhm ++ [0x78]

/-- `n` filler records. -/
def addFillerRecs (i : JrnlInfo) : Nat → Bytes → Except Err Bytes
  | 0, file => .ok file
  | n + 1, file => do
    let file := file ++ rhmx
    let file ← fillTo i (sizeInBytesToBlk file.length jrnlDblkSize) file
    addFillerRecs i n file

/-- `_fill_file` with filler records, to the end of the file. -/
def fillFile (i : JrnlInfo) (s : Resize) : Except Err Resize :=
  match s.file with
  | none => .ok s
  | some file => do
    let file ← addFillerRecs i (remBytesInBlk file.length JrnlInfo.sblkSizeBytes / jrnlDblkSize) file
    let file ← fillTo i i.jrnlFileSizeBytes file
    pure { s with file := some file }

def openFile (i : JrnlInfo) (time : Nat → Nat × Nat) (hdr : Option (UInt64 × Nat)) (fnum : Nat) (s : Resize) :
    Except Err (Bool × Resize) :=
  match hdr with
  | none => do
    let file ← fillTo i i.jrnlFileSizeBytes []
    pure (true, { s with file := some file, fnum := some fnum })
  | some (rid, fro) => do
    let file ← fillTo i JrnlInfo.sblkSizeBytes (encodeFileHdr fnum fro (time fnum).1 (time fnum).2 rid)
    pure (true, { s with file := some file, fnum := some fnum })

/-- `_rotate_file`: false if there are no more files. -/
def rotateFile (i : JrnlInfo) (time : Nat → Nat × Nat) (hdr : Option (UInt64 × Nat)) (s : Resize) :
    Except Err (Bool × Resize) :=
  let s' := { s with closed := s.closed ++ s.file.toList, file := none }
  match s.fnum with
  | none => openFile i time hdr 0 s'
  | some fnum => if fnum = i.numJrnlFiles - 1 then .ok (false, s') else openFile i time hdr (fnum + 1) s'

/-- `tell`. -/
def tell (s : Resize) : Nat := (s.file.map List.length).getD 0

def write (s : Resize) (b : Bytes) : Resize := { s with file := s.file.map (· ++ b) }

/-- The next file, if none is open or the one that is is full. Its header has the rid that comes next in
the list if there is a file before it. -/
def ready (i : JrnlInfo) (time : Nat → Nat × Nat) (rid : UInt64) (ridList : List UInt64) (fro : Nat)
    (s : Resize) : Except Err Resize :=
  if s.file = none ∨ i.jrnlFileSizeBytes ≤ s.tell then
    rotateFile i time (some (if s.file = none then rid else ridList.headD 0, fro)) s >>= fun x =>
      if x.1 then .ok x.2 else .error .journalSpaceExceededError
  else .ok s

/-- The turns of the loop that writes the record of rid `rid`: what is left of it goes into the files.
`fuel` bounds the turns. -/
def writeRec (i : JrnlInfo) (time : Nat → Nat × Nat) (rid : UInt64) (ridList : List UInt64) :
    (fuel : Nat) → (rec : Bytes) → (fro : Nat) → Resize → Except Err (Resize × Nat)
  | _, [], fro, s => .ok (s, fro)
  | 0, _ :: _, _, _ => .error .journalSpaceExceededError
  | fuel + 1, rec, fro, s => do
    let s ← ready i time rid ridList fro s
    let flen := i.jrnlFileSizeBytes - s.tell
    if rec.length ≤ flen then do
      let s := s.write rec
      let file ← fillTo i (sizeInBytesToBlk s.tell jrnlDblkSize) (s.file.getD [])
      pure ({ s with file := some file }, JrnlInfo.sblkSizeBytes)
    else
      let rem := rec.length - flen
      let fro := if rem ≤ i.jrnlDataSizeBytes then
        sizeInBytesToBlk (JrnlInfo.sblkSizeBytes + rem) jrnlDblkSize else 0
      writeRec i time rid ridList fuel (rec.drop flen) fro (s.write (rec.take flen))

def writeRecs (i : JrnlInfo) (time : Nat → Nat × Nat) :
    List (Nat × Rec) → (fro : Nat) → Resize → Except Err (Resize × Nat)
  | [], fro, s => .ok (s, fro)
  | (_, hdr) :: rest, fro, s => do
    let rec ← hdr.encode
    let x ← writeRec i time hdr.hdr.rid (rest.map (·.2.hdr.rid)) rec.length rec fro s
    writeRecs i time rest x.2 x.1

def rotateRest (i : JrnlInfo) (time : Nat → Nat × Nat) : (fuel : Nat) → Resize → Except Err Resize
  | 0, s => .ok s
  | fuel + 1, s => do
    let x ← rotateFile i time none s
    if x.1 then rotateRest i time fuel x.2 else pure x.2

/-- `_create_new_files`: the contents of the new files. -/
def createNewFiles (i : JrnlInfo) (time : Nat → Nat × Nat) (emap : List EnqRec)
    (txnObjList : List (Bytes × TxnRec)) (tmap : List (List Rec)) : Except Err (List Bytes) := do
  let master := masterRecordList emap txnObjList tmap
  let x ← writeRecs i time master.toList JrnlInfo.sblkSizeBytes init
  let s ← fillFile i x.1
  let s ← rotateRest i time (i.numJrnlFiles + 1) s
  pure (s.closed ++ s.file.toList)

end Resize

end Jrnl

end RhmStore
