import RhmStore.Jrnl.XidRec

/-! # Decoding records in recovery

`rcv_decode` of the three record classes takes a record from the stream of a file, and goes on in the
next file where the stream has ended. -/

namespace RhmStore

/-- A `std::ifstream`: what is left of the file, and its state flags. -/
structure IfStream where
  rest : Bytes
  eof : Bool := false
  fail : Bool := false
  deriving DecidableEq, Repr

namespace IfStream

def good (s : IfStream) : Bool := !s.eof && !s.fail

/-- `read`: the bytes that are there. A stream that has less fails at its end. -/
def read (s : IfStream) (n : Nat) : Bytes × IfStream :=
  if !s.good then ([], { s with fail := true })
  else if n ≤ s.rest.length then (s.rest.take n, { s with rest := s.rest.drop n })
  else (s.rest, ⟨[], true, true⟩)

/-- `ignore`: the bytes that are skipped. A stream that has less is at its end, but does not fail. -/
def ignore (s : IfStream) (n : Nat) : Bytes × IfStream :=
  if !s.good then ([], { s with fail := true })
  else if n ≤ s.rest.length then (s.rest.take n, { s with rest := s.rest.drop n })
  else (s.rest, ⟨[], true, false⟩)

end IfStream

/-- A `size_t` taken for a `std::streamsize`: nothing is skipped if it is negative. -/
def toStreamsize (n : Nat) : Nat := if n < 2 ^ 63 then n else 0

/-- What `rcv_decode` works on: `_buff`, the tail, the stream, and the offset in the record. -/
structure Rcv where
  buff : Option Bytes
  tail : RecTail
  ifsp : IfStream
  recOffs : Nat
  deriving DecidableEq, Repr

/-- The sizes of a record class: of its header, the xid, the data that is in the journal, the tail if
there is one, and `rec_size()`. -/
structure RcvSizes where
  hdrSize : Nat
  xidsize : Nat
  dsize : Nat
  tailSize : Nat
  recSize : Nat
  deriving DecidableEq, Repr

namespace Rcv

/-- A part of `size` bytes that starts at `start`, if it is not complete: it is extracted from the stream
and stored. False if the stream has ended before. -/
def part (start size : Nat) (extract : IfStream → Nat → Bytes × IfStream)
    (store : Rcv → (offs : Nat) → Bytes → Except RecErr Rcv) (r : Rcv) : Except RecErr (Bool × Rcv) :=
  if r.recOffs < wrap 64 (start + size) then do
    let offs := wsub 64 r.recOffs start
    let x := extract r.ifsp (wsub 64 size offs)
    let r ← store { r with ifsp := x.2, recOffs := wrap 64 (r.recOffs + x.1.length) } offs x.1
    if x.1.length < wsub 64 size offs then do
      require r.ifsp.eof .assertion
      -- as we may have read past eof, turn off fail bit
      pure (false, { r with ifsp.fail := false })
    else pure (true, r)
  else pure (true, r)

def storeBuff (r : Rcv) (offs : Nat) (b : Bytes) : Except RecErr Rcv := do
  let buff ← r.buff.elim (.error .outside) (memcpyTo · offs b)
  pure { r with buff := some buff }

def storeTail (r : Rcv) (offs : Nat) (b : Bytes) : Except RecErr Rcv := do
  let t ← memcpyTo r.tail.bytes offs b
  pure { r with tail := .ofBytes t }

def xid (z : RcvSizes) (r : Rcv) : Except RecErr (Bool × Rcv) :=
  r.part z.hdrSize z.xidsize IfStream.read storeBuff

def data (z : RcvSizes) (r : Rcv) : Except RecErr (Bool × Rcv) :=
  r.part (wrap 64 (z.hdrSize + z.xidsize)) z.dsize (fun s n => s.ignore (toStreamsize n))
    fun r _ _ => pure r

def readTail (z : RcvSizes) (r : Rcv) : Except RecErr (Bool × Rcv) :=
  r.part (wrap 64 (z.hdrSize + z.xidsize + z.dsize)) z.tailSize
    IfStream.read storeTail

def finish (z : RcvSizes) (h : RecHdr) (r : Rcv) : Except RecErr (Bool × Rcv) := do
  let n := wsub 64 (wrap 32 (sizeDblks32 z.recSize * jrnlDblkSize)) z.recSize
  let r := { r with ifsp := (r.ifsp.ignore (toStreamsize n)).2 }
  if z.tailSize ≠ 0 then r.tail.chkTail h
  require (r.ifsp.fail = false) .assertion
  pure (true, r)

def decode (z : RcvSizes) (h : RecHdr) (r : Rcv) : Except RecErr (Bool × Rcv) := do
  let p ← r.xid z
  if !p.1 then pure p
  else do
    let p ← p.2.data z
    if !p.1 then pure p
    else do
      let p ← p.2.readTail z
      if !p.1 then pure p else p.2.finish z h

end Rcv

/-! ## The record classes -/

namespace EnqRec

def rcvSizes (r : EnqRec) : RcvSizes :=
  ⟨EnqHdr.size, r.xidsize, r.storedDsize, recTailSize, r.recSize⟩

/-- `enq_rec::rcv_decode`. -/
def rcvDecode (h : RecHdr) (r : EnqRec) (ifsp : IfStream) (recOffs : Nat) :
    Except RecErr (Bool × EnqRec × IfStream × Nat) := do
  let p :=
    if recOffs = 0 then
      let x := ifsp.read 8
      let d := x.2.read 8
      let r := { r with enqHdr := ⟨h, .ofNat (leNat x.1), .ofNat (leNat d.1)⟩ }
      let buff := if r.xidsize ≠ 0 then some (List.replicate r.xidsize 0) else r.buff
      ({ r with buff := buff }, d.2, EnqHdr.size)
    else (r, ifsp, recOffs)
  let r := p.1
  let x ← Rcv.decode r.rcvSizes r.enqHdr.toRecHdr ⟨r.buff, r.enqTail, p.2.1, p.2.2⟩
  pure (x.1, { r with buff := x.2.buff, enqTail := x.2.tail }, x.2.ifsp, x.2.recOffs)

end EnqRec

namespace DeqRec

def rcvSizes (r : DeqRec) : RcvSizes :=
  ⟨DeqHdr.size, r.xidsize, 0, if r.xidsize ≠ 0 then recTailSize else 0, r.recSize⟩

/-- `deq_rec::rcv_decode`. -/
def rcvDecode (h : RecHdr) (r : DeqRec) (ifsp : IfStream) (recOffs : Nat) :
    Except RecErr (Bool × DeqRec × IfStream × Nat) := do
  let p :=
    if recOffs = 0 then
      let d := ifsp.read 8
      let x := d.2.read 8
      let r := { r with deqHdr := ⟨h, .ofNat (leNat d.1), .ofNat (leNat x.1)⟩ }
      let buff := if r.xidsize ≠ 0 then some (List.replicate r.xidsize 0) else r.buff
      ({ r with buff := buff }, x.2, DeqHdr.size)
    else (r, ifsp, recOffs)
  let r := p.1
  let x ← Rcv.decode r.rcvSizes r.deqHdr.toRecHdr ⟨r.buff, r.deqTail, p.2.1, p.2.2⟩
  pure (x.1, { r with buff := x.2.buff, deqTail := x.2.tail }, x.2.ifsp, x.2.recOffs)

end DeqRec

namespace TxnRec

def rcvSizes (r : TxnRec) : RcvSizes := ⟨TxnHdr.size, r.xidsize, 0, recTailSize, r.recSize⟩

/-- `txn_rec::rcv_decode`. -/
def rcvDecode (h : RecHdr) (r : TxnRec) (ifsp : IfStream) (recOffs : Nat) :
    Except RecErr (Bool × TxnRec × IfStream × Nat) := do
  let p :=
    if recOffs = 0 then
      let x := ifsp.read 8
      let r := { r with txnHdr := ⟨h, .ofNat (leNat x.1)⟩ }
      ({ r with buff := some (List.replicate r.xidsize 0) }, x.2, TxnHdr.size)
    else (r, ifsp, recOffs)
  let r := p.1
  let x ← Rcv.decode r.rcvSizes r.txnHdr.toRecHdr ⟨r.buff, r.txnTail, p.2.1, p.2.2⟩
  pure (x.1, { r with buff := x.2.buff, txnTail := x.2.tail }, x.2.ifsp, x.2.recOffs)

end TxnRec

/-! ## The files -/

/-- The loop of `jcntl::decode`: `rcv_decode` is called on the stream of a file, and on those of the
files that follow, until it returns true. The record, the stream, and how often it returned false; none
if the files are used up. -/
def rcvLoop {ρ : Type} (rcvDecode : ρ → IfStream → Nat → Except RecErr (Bool × ρ × IfStream × Nat)) :
    (r : ρ) → (cumSizeRead : Nat) → IfStream → (files : List Bytes) →
      Except RecErr (Option (ρ × IfStream × Nat))
  | r, cumSizeRead, ifsp, files => do
    let x ← rcvDecode r ifsp cumSizeRead
    if x.1 then pure (some (x.2.1, x.2.2.1, 0))
    else match files with
      | [] => pure none
      | file :: files => do
        let y ← rcvLoop rcvDecode x.2.1 x.2.2.2 ⟨file, false, false⟩ files
        pure (y.map fun y => (y.1, y.2.1, y.2.2 + 1))

/-- `jcntl::rcvr_get_next_record` on a record that starts the first file: the record header is read, and
the record decoded. -/
def rcvRecord {ρ : Type}
    (rcvDecode : RecHdr → ρ → IfStream → Nat → Except RecErr (Bool × ρ × IfStream × Nat)) (r : ρ)
    (file : Bytes) (files : List Bytes) : Except RecErr (Option (ρ × IfStream × Nat)) :=
  let x := IfStream.read ⟨file, false, false⟩ RecHdr.size
  rcvLoop (rcvDecode (.ofBytes x.1)) r 0 x.2 files

end RhmStore
