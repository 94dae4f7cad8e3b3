import RhmStore.Jrnl.Record
import RhmStore.Lib.Bytes

/-! # The records of `jrnl.py` -/

namespace RhmStore

namespace Jrnl

/-- What `load` and `encode` raise. -/
inductive Err
  | structError
  | attributeError
  | unexpectedEndOfFileError
  | invalidRecordTailError
  | invalidHeaderVersionError
  | endianMismatchError
  | journalSpaceExceededError
  | fillExceedsFileSizeError
  | fillSizeError
  deriving DecidableEq, Repr

/-! ## Files -/

structure File where
  bytes : Bytes
  tell : Nat
  deriving DecidableEq, Repr

namespace File

def read (f : File) (n : Nat) : Bytes × File :=
  let fbin := (f.bytes.drop f.tell).take n
  (fbin, { f with tell := f.tell + fbin.length })

end File

/-- `Utils.size_in_bytes_to_blk`. -/
def sizeInBytesToBlk (size blkSize : Nat) : Nat := sizeBlks size blkSize * blkSize

/-- `Utils.rem_bytes_in_blk`. -/
def remBytesInBlk (foffs blkSize : Nat) : Nat := sizeInBytesToBlk foffs blkSize - foffs

/-- `unpack` of `n` characters. -/
def unpackS (n : Nat) (fbin : Bytes) : Except Err Bytes :=
  if fbin.length = n then .ok fbin else .error .structError

/-- `pack` of `n` characters: a shorter string is filled up, a longer one is cut, None is no string. -/
def packS (n : Nat) (s : Option Bytes) : Except Err Bytes :=
  s.elim (.error .structError) fun s => .ok ((s ++ List.replicate (n - s.length) 0).take n)

/-- What is added to a buffer only if `c` holds. -/
def addIf (c : Prop) [Decidable c] (b : Except Err Bytes) : Except Err Bytes := if c then b else .ok []

/-- `Utils.load_file_data`, where files have `jrnlFileSize` bytes: what is loaded so far, and whether it
is complete. -/
def loadFileData (jrnlFileSize : Nat) (f : File) (size : Nat) (data : Option Bytes) :
    Except Err ((Option Bytes × Bool) × File) :=
  if size = 0 then .ok ((data, true), f)
  else
    let loaded := data.elim 0 List.length
    let foverflow := decide (jrnlFileSize < f.tell + size - loaded)
    let rsize := if foverflow then jrnlFileSize - f.tell else size - loaded
    let x := f.read rsize
    unpackS rsize x.1 >>= fun b => .ok ((some (data.getD [] ++ b), !foverflow), x.2)

/-- `Utils._load_args`: the bytes that are unpacked. -/
def loadArgs (f : File) (size : Nat) : Except Err (Bytes × File) :=
  let x := f.read size
  if x.1.length = size then .ok x else .error .unexpectedEndOfFileError

/-! ## Header and tail -/

structure Hdr where
  magic : Bytes
  ver : UInt8
  endn : UInt8
  flags : UInt16
  rid : UInt64
  deriving DecidableEq, Repr

namespace Hdr

def encode (h : Hdr) : Bytes :=
  h.magic ++ leBytes 1 h.ver.toNat ++ leBytes 1 h.endn.toNat ++ leBytes 2 h.flags.toNat ++
    leBytes 8 h.rid.toNat

def unpack (b : Bytes) : Hdr where
  magic := b.take 4
  ver := .ofNat (leNat ((b.drop 4).take 1))
  endn := .ofNat (leNat ((b.drop 5).take 1))
  flags := .ofNat (leNat ((b.drop 6).take 2))
  rid := .ofNat (leNat ((b.drop 8).take 8))

/-- `calcsize` of the format. -/
def size : Nat := 16

def rhm : Bytes := [0x52, 0x48, 0x4d]

def letter (h : Hdr) : UInt8 := h.magic.getD 3 0

def letters : Bytes := [0x61, 0x63, 0x64, 0x65, 0x66, 0x78]

/-- `check`: true for what is not a record. -/
def check (h : Hdr) : Except Err Bool :=
  if h.magic.take 3 ≠ rhm ∨ h.letter ∉ letters then .ok true
  else if h.letter ≠ 0x78 then
    if h.ver ≠ 1 then .error .invalidHeaderVersionError
    else if h.endn ≠ 0 then .error .endianMismatchError
    else .ok false
  else .ok false

/-- `skip` to the end of the dblk. -/
def skip (f : File) : File := (f.read (remBytesInBlk f.tell jrnlDblkSize)).2

def clearOwi (h : Hdr) : Hdr := { h with flags := h.flags &&& ~~~1 }

end Hdr

/-- `Utils.inv_str`. -/
def invStr (s : Bytes) : Bytes := s.map (~~~ ·)

structure RecTail where
  magicInv : Bytes
  rid : UInt64
  deriving DecidableEq, Repr

namespace RecTail

def encode (t : RecTail) : Bytes := t.magicInv ++ leBytes 8 t.rid.toNat

/-- `calcsize` of the format. -/
def size : Nat := 12

def unpack (b : Bytes) : RecTail := ⟨b.take 4, .ofNat (leNat ((b.drop 4).take 8))⟩

end RecTail

/-! ## Behind the header -/

/-- What `init` resets and `load` fills. Only an enqueue record has data. -/
structure Body where
  xid : Option Bytes
  data : Option Bytes
  tail : Option RecTail
  tailBin : Option Bytes
  xidComplete : Bool
  dataComplete : Bool
  tailComplete : Bool
  deriving DecidableEq, Repr

namespace Body

def init : Body := ⟨none, none, none, none, false, false, false⟩

def loadXid (jrnlFileSize xidsize : Nat) (b : Body) (f : File) : Except Err (Body × File) :=
  if b.xidComplete then .ok (b, f)
  else loadFileData jrnlFileSize f xidsize b.xid >>= fun x =>
    .ok ({ b with xid := x.1.1, xidComplete := x.1.2 }, x.2)

def loadData (jrnlFileSize dsize : Nat) (external : Bool) (b : Body) (f : File) : Except Err (Body × File) :=
  if b.xidComplete && !b.dataComplete then
    if external then .ok ({ b with dataComplete := true }, f)
    else loadFileData jrnlFileSize f dsize b.data >>= fun x =>
      .ok ({ b with data := x.1.1, dataComplete := x.1.2 }, x.2)
  else .ok (b, f)

/-- The tail, if what is before it is complete and the tail is not. It is checked, and what is left of
the dblk is skipped. -/
def loadTail (jrnlFileSize : Nat) (h : Hdr) (before : Bool) (b : Body) (f : File) : Except Err (Body × File) :=
  if before && !b.tailComplete then
    loadFileData jrnlFileSize f RecTail.size b.tailBin >>= fun x =>
      if x.1.2 then
        unpackS RecTail.size (x.1.1.getD []) >>= fun bin =>
          let t := RecTail.unpack bin
          if t.magicInv ≠ invStr h.magic ∨ t.rid ≠ h.rid then .error .invalidRecordTailError
          else .ok ({ b with tail := some t, tailBin := x.1.1, tailComplete := true }, Hdr.skip x.2)
      else .ok ({ b with tailBin := x.1.1, tailComplete := false }, x.2)
  else .ok (b, f)

/-- `encode` of the tail. -/
def encodeTail (b : Body) : Except Err Bytes := b.tail.elim (.error .attributeError) (.ok ·.encode)

end Body

/-! ## The record classes -/

structure DeqRec where
  hdr : Hdr
  deqRid : UInt64
  xidsize : UInt64
  body : Body
  deriving DecidableEq, Repr

namespace DeqRec

def load (jrnlFileSize : Nat) (r : DeqRec) (f : File) : Except Err (DeqRec × File) :=
  if r.xidsize = 0 then .ok ({ r with body := { r.body with xidComplete := true, tailComplete := true } }, f)
  else do
    let x ← r.body.loadXid jrnlFileSize r.xidsize.toNat f
    let y ← x.1.loadTail jrnlFileSize r.hdr x.1.xidComplete x.2
    pure ({ r with body := y.1 }, y.2)

def complete (r : DeqRec) : Bool := r.body.xidComplete && r.body.tailComplete

def encode (r : DeqRec) : Except Err Bytes := do
  let buf := r.hdr.encode ++ (leBytes 8 r.deqRid.toNat ++ leBytes 8 r.xidsize.toNat)
  if r.xidsize > 0 then do
    let x ← packS r.xidsize.toNat r.body.xid
    let t ← r.body.encodeTail
    pure (buf ++ x ++ t)
  else pure buf

end DeqRec

structure TxnRec where
  hdr : Hdr
  xidsize : UInt64
  body : Body
  deriving DecidableEq, Repr

namespace TxnRec

def load (jrnlFileSize : Nat) (r : TxnRec) (f : File) : Except Err (TxnRec × File) := do
  let x ← r.body.loadXid jrnlFileSize r.xidsize.toNat f
  let y ← x.1.loadTail jrnlFileSize r.hdr x.1.xidComplete x.2
  pure ({ r with body := y.1 }, y.2)

def complete (r : TxnRec) : Bool := r.body.xidComplete && r.body.tailComplete

def encode (r : TxnRec) : Except Err Bytes := do
  let x ← packS r.xidsize.toNat r.body.xid
  let t ← r.body.encodeTail
  pure (r.hdr.encode ++ leBytes 8 r.xidsize.toNat ++ x ++ t)

end TxnRec

structure EnqRec where
  hdr : Hdr
  xidsize : UInt64
  dsize : UInt64
  body : Body
  deriving DecidableEq, Repr

namespace EnqRec

def external (r : EnqRec) : Bool := r.hdr.flags &&& 0x20 > 0

def load (jrnlFileSize : Nat) (r : EnqRec) (f : File) : Except Err (EnqRec × File) := do
  let x ← r.body.loadXid jrnlFileSize r.xidsize.toNat f
  let y ← x.1.loadData jrnlFileSize r.dsize.toNat r.external x.2
  let z ← y.1.loadTail jrnlFileSize r.hdr y.1.dataComplete y.2
  pure ({ r with body := z.1 }, z.2)

def complete (r : EnqRec) : Bool := r.body.xidComplete && r.body.dataComplete && r.body.tailComplete

def encode (r : EnqRec) : Except Err Bytes := do
  let buf := r.hdr.encode ++ (leBytes 8 r.xidsize.toNat ++ leBytes 8 r.dsize.toNat)
  let x ← addIf (r.xidsize > 0) (packS r.xidsize.toNat r.body.xid)
  let d ← addIf (r.dsize > 0) (packS r.dsize.toNat r.body.data)
  let t ← addIf (r.xidsize > 0 ∨ r.dsize > 0) r.body.encodeTail
  pure (buf ++ x ++ d ++ t)

end EnqRec

/-- The classes that `discriminate` tells apart; `bare` stands for a header that has none of them. -/
inductive Rec
  | enq (r : EnqRec)
  | deq (r : DeqRec)
  | txn (r : TxnRec)
  | bare (h : Hdr)
  deriving DecidableEq, Repr

namespace Rec

def hdr : Rec → Hdr
  | enq r => r.hdr
  | deq r => r.hdr
  | txn r => r.hdr
  | bare h => h

def clearOwi : Rec → Rec
  | enq r => enq { r with hdr := r.hdr.clearOwi }
  | deq r => deq { r with hdr := r.hdr.clearOwi }
  | txn r => txn { r with hdr := r.hdr.clearOwi }
  | bare h => bare h.clearOwi

def encode : Rec → Except Err Bytes
  | enq r => r.encode
  | deq r => r.encode
  | txn r => r.encode
  | bare h => .ok h.encode

def complete : Rec → Bool
  | enq r => r.complete
  | deq r => r.complete
  | txn r => r.complete
  | bare _ => true

/-- `load`, which goes on with a record. -/
def load (jrnlFileSize : Nat) (r : Rec) (f : File) : Except Err (Rec × File) :=
  match r with
  | enq r => r.load jrnlFileSize f >>= fun x => pure (enq x.1, x.2)
  | deq r => r.load jrnlFileSize f >>= fun x => pure (deq x.1, x.2)
  | txn r => r.load jrnlFileSize f >>= fun x => pure (txn x.1, x.2)
  | bare h => .ok (bare h, f)

/-- `discriminate`, and the arguments of the class. -/
def loadClass (h : Hdr) (f : File) : Except Err (Rec × File) :=
  if h.letter = 0x65 then do
    let x ← loadArgs f 16
    pure (enq ⟨h, .ofNat (leNat (x.1.take 8)), .ofNat (leNat (x.1.drop 8)), .init⟩, x.2)
  else if h.letter = 0x64 then do
    let x ← loadArgs f 16
    pure (deq ⟨h, .ofNat (leNat (x.1.take 8)), .ofNat (leNat (x.1.drop 8)), .init⟩, x.2)
  else if h.letter = 0x61 ∨ h.letter = 0x63 then do
    let x ← loadArgs f 8
    pure (txn ⟨h, .ofNat (leNat x.1), .init⟩, x.2)
  else pure (bare h, f)

/-- `Utils.load` of a record. -/
def start (jrnlFileSize : Nat) (f : File) : Except Err (Rec × File) := do
  let x ← loadArgs f Hdr.size
  let y ← loadClass (.unpack x.1) x.2
  let z ← y.1.load jrnlFileSize y.2
  pure (z.1, Hdr.skip z.2)

/-- `JrnlReader._load_rec`, where `files` are those that follow: each is read from the end of its header
on. None if they are used up. -/
def loadRec (jrnlFileSize : Nat) : Rec → List Bytes → Except Err (Option Rec)
  | r, files =>
    if r.complete then .ok (some r)
    else match files with
      | [] => .ok none
      | file :: files => do
        let x ← r.load jrnlFileSize ⟨file, jrnlSblkSize * jrnlDblkSize⟩
        loadRec jrnlFileSize x.1 files

/-- A record in `JrnlReader._get_next_record`: none if the reader stops at it. -/
def next (jrnlFileSize : Nat) (f : File) (files : List Bytes) : Except Err (Option Rec) :=
  match start jrnlFileSize f with
  | .error _ => .ok none
  | .ok x => x.1.hdr.check >>= fun stop =>
    if stop then .ok none else loadRec jrnlFileSize x.1 files

end Rec

end Jrnl

end RhmStore
