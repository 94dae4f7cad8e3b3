import RhmStore.Jrnl.RcvDecode

/-! # The records that a recovery finds in the files -/

namespace RhmStore

/-- The classes of `jrec`. -/
inductive StoredRec
  | enq (r : EnqRec)
  | deq (r : DeqRec)
  | txn (r : TxnRec)
  deriving DecidableEq, Repr

namespace StoredRec

def hdr : StoredRec → RecHdr
  | enq r => r.enqHdr.toRecHdr
  | deq r => r.deqHdr.toRecHdr
  | txn r => r.txnHdr.toRecHdr

def recSizeDblks : StoredRec → Nat
  | enq r => r.recSizeDblks
  | deq r => r.recSizeDblks
  | txn r => r.recSizeDblks

/-- `jrec::encode`. -/
def encode : StoredRec → (recOffsDblks maxSizeDblks : Nat) → Except RecErr (Bytes × Nat)
  | enq r => r.encode
  | deq r => r.encode
  | txn r => r.encode

end StoredRec

def rhmJdatFileMagic : UInt32 := 0x664d4852

def rhmJdatEmptyMagic : UInt32 := 0x784d4852

/-- `get_owi`. -/
def RecHdr.getOwi (h : RecHdr) : Bool := h.uflag &&& 1 ≠ 0

inductive RcvErr
  | owiMismatch
  | failed (e : RecErr)
  | unfinished
  deriving DecidableEq, Repr

def fileHeaded (file : Bytes) : Bool := leNat (file.take 4) == rhmJdatFileMagic.toNat

/-- `_fro` of the file header. -/
def fileFro (file : Bytes) : Nat := leNat ((file.drop 24).take 8)

/-- `jcntl::jfile_cycle` from a stream that has ended to the next of the files that are left. -/
def jfileCycle (jumpFro : Bool) : List Bytes → Option (IfStream × List Bytes)
  | [] => none
  | file :: files =>
    if fileHeaded file then
      some (⟨file.drop (if jumpFro then fileFro file else jrnlDblkSize * jrnlSblkSize), false, false⟩, files)
    else none

/-- The files that `jcntl::decode` goes on to, each from the end of its header on. -/
def dataFiles (files : List Bytes) : List Bytes :=
  (files.takeWhile fileHeaded).map (·.drop (jrnlDblkSize * jrnlSblkSize))

/-- The first loop of `jcntl::rcvr_get_next_record`: the next record header, from this file or one that
follows. -/
def readRecHdr : IfStream → List Bytes → Option (RecHdr × IfStream × List Bytes)
  | ifs, files =>
    let x := ifs.read RecHdr.size
    if x.1.length = RecHdr.size then some (.ofBytes x.1, x.2, files)
    else match files with
      | [] => none
      | file :: files =>
        if fileHeaded file then readRecHdr ⟨file.drop (fileFro file), false, false⟩ files else none

/-- `jcntl::decode` in the files of a journal that starts with the first: none where the recovery stops.
An exception of `rcv_decode` is caught. -/
def rcvrDecode {ρ : Type} (rcvDecode : RecHdr → ρ → IfStream → Nat → Except RecErr (Bool × ρ × IfStream × Nat))
    (r : ρ) (h : RecHdr) (ifs : IfStream) (files : List Bytes) :
    Except RcvErr (Option (ρ × IfStream × List Bytes)) :=
  if h.getOwi then
    -- the overwrite boundary can only be in the last file
    if files = [] then .ok none else .error .owiMismatch
  else
    match rcvLoop (rcvDecode h) r 0 ifs (dataFiles files) with
    | .ok x => .ok (x.map fun x => (x.1, x.2.1, files.drop x.2.2))
    | .error .assertion => .error (.failed .assertion)
    | .error .outside => .error (.failed .outside)
    | .error _ => .ok none

/-- `jcntl::rcvr_get_next_record`: the record that is found, if it is not a filler. -/
def rcvrGetNextRecord (ifs : IfStream) (files : List Bytes) :
    Except RcvErr (Option (Option StoredRec × IfStream × List Bytes)) :=
  match readRecHdr ifs files with
  | none => .ok none
  | some (h, ifs, files) =>
    if h.magic = rhmJdatEnqMagic then
      (rcvrDecode EnqRec.rcvDecode .init h ifs files).map (·.map fun x => (some (.enq x.1), x.2))
    else if h.magic = rhmJdatDeqMagic then
      (rcvrDecode DeqRec.rcvDecode .init h ifs files).map (·.map fun x => (some (.deq x.1), x.2))
    else if h.magic = rhmJdatTxaMagic ∨ h.magic = rhmJdatTxcMagic then
      (rcvrDecode TxnRec.rcvDecode .init h ifs files).map (·.map fun x => (some (.txn x.1), x.2))
    else if h.magic = rhmJdatEmptyMagic then
      let ifs := (ifs.ignore (sizeDblks RecHdr.size * jrnlDblkSize - RecHdr.size)).2
      if ifs.fail then .error (.failed .assertion)
      else if ifs.good then .ok (some (none, ifs, files))
      else .ok ((jfileCycle false files).map fun x => (none, x))
    else .ok none

/-- The loop of `jcntl::rcvr_janalyze`: the records in the order in which they are found. -/
def rcvrRecords : (fuel : Nat) → IfStream → List Bytes → Except RcvErr (List StoredRec)
  | 0, _, _ => .error .unfinished
  | fuel + 1, ifs, files => do
    let x ← rcvrGetNextRecord ifs files
    match x with
    | none => pure []
    | some (r, ifs, files) => do
      let rs ← rcvrRecords fuel ifs files
      pure (r.toList ++ rs)

def rcvrJanalyze (fuel : Nat) (files : List Bytes) : Except RcvErr (List StoredRec) :=
  rcvrRecords fuel ⟨[], true, false⟩ files

end RhmStore
