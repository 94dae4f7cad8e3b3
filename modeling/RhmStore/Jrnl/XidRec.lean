import RhmStore.Jrnl.EnqRec

/-! # Dequeue and transaction records in bytes

`deq_rec` and `txn_rec` hold a header, an xid and a tail. Their `encode` and `decode` have the same
branches on these, which stand here once. -/

namespace RhmStore

def rhmJdatDeqMagic : UInt32 := 0x644d4852

def rhmJdatTxaMagic : UInt32 := 0x614d4852

def rhmJdatTxcMagic : UInt32 := 0x634d4852

/-- `deq_hdr`. -/
structure DeqHdr extends RecHdr where
  deqRid : UInt64
  xidsize : UInt64
  deriving DecidableEq, Repr

namespace DeqHdr

/-- `deq_hdr::size()`. -/
def size : Nat := 32

def bytes (h : DeqHdr) : Bytes :=
  h.toRecHdr.bytes ++ leBytes 8 h.deqRid.toNat ++ leBytes 8 h.xidsize.toNat

end DeqHdr

/-- `txn_hdr`. -/
structure TxnHdr extends RecHdr where
  xidsize : UInt64
  deriving DecidableEq, Repr

namespace TxnHdr

/-- `txn_hdr::size()`. -/
def size : Nat := 24

def bytes (h : TxnHdr) : Bytes := h.toRecHdr.bytes ++ leBytes 8 h.xidsize.toNat

end TxnHdr

/-! ## Encoding -/

/-- What `encode` writes: the header, the xid of `_xidsize` bytes, and the tail. -/
structure XidParts where
  hdr : Bytes
  xid : Bytes
  xidsize : Nat
  tail : RecTail

namespace XidParts

open EnqRec (Enc copyMiddle copyLast copyFirst)

def encodeMiddle (p : XidParts) (recOffs rem : Nat) : Except RecErr Bytes := do
  let st ← copyMiddle p.xid p.xidsize ⟨[], wsub 64 recOffs p.hdr.length, rem⟩
  let st ← onlyIf (st.rem ≠ 0) (copyMiddle p.tail.bytes recTailSize st) st
  require (st.rem = 0) .assertion
  require (st.recOffs = 0) .assertion
  pure st.out

def encodeLast (p : XidParts) (recOffs rem : Nat) : Except RecErr Bytes := do
  let st ← copyLast p.xid p.xidsize true ⟨[], wsub 64 recOffs p.hdr.length, rem⟩
  let st ← copyLast p.tail.bytes recTailSize true st
  require (st.recOffs = 0) .assertion
  pure st.out

def encodeFirst (p : XidParts) (rem : Nat) : Except RecErr Bytes := do
  let st : Enc := ⟨p.hdr, 0, wsub 64 rem p.hdr.length⟩
  let st ← onlyIf (st.rem ≠ 0) (copyFirst p.xid p.xidsize st) st
  let st ← onlyIf (st.rem ≠ 0) (copyFirst p.tail.bytes recTailSize st) st
  require (st.rem = 0) .assertion
  pure st.out

def encodeWhole (p : XidParts) : Except RecErr Bytes := do
  let x ← memcpy p.xid 0 p.xidsize
  pure (p.hdr ++ x ++ p.tail.bytes)

/-- The branches of `encode`, where `whole` is the one without a split. -/
def encodeBytes (p : XidParts) (recSizeDblks : Nat) (whole : Except RecErr Bytes)
    (recOffsDblks maxSizeDblks : Nat) : Except RecErr Bytes :=
  let recOffs := wrap 32 (recOffsDblks * jrnlDblkSize)
  let rem := wrap 32 (maxSizeDblks * jrnlDblkSize)
  if recOffsDblks ≠ 0 then
    if wsub 32 recSizeDblks recOffsDblks > maxSizeDblks then p.encodeMiddle recOffs rem
    else p.encodeLast recOffs rem
  else if recSizeDblks > maxSizeDblks then p.encodeFirst rem
  else whole

end XidParts

/-- The calls of `encode` for one record of `recSizeDblks` in the loops of `wmgr`, over the spaces that
the pages leave, from `dblksWritten` on. -/
def writeAll (recSizeDblks : Nat) (encode : Nat → Nat → Except RecErr (Bytes × Nat)) :
    (dblksWritten : Nat) → (spaces : List Nat) → Except RecErr (List (Bytes × Nat))
  | _, [] => pure []
  | dblksWritten, space :: spaces => do
    let p ← encode dblksWritten space
    if recSizeDblks ≤ dblksWritten + p.2 then pure [p]
    else do
      let ps ← writeAll recSizeDblks encode (dblksWritten + p.2) spaces
      pure (p :: ps)

/-! ## Decoding -/

/-- What `decode` builds: the header `chk_tail` looks at, the sizes of the header and of the xid, `_buff`
and the tail. -/
structure XidBuf where
  hdr : RecHdr
  hdrSize : Nat
  xidsize : Nat
  buff : Option Bytes
  tail : RecTail

namespace XidBuf

/-- `n` bytes of the page from `rd_cnt` on go to offset `offs` of `_buff`. -/
def readBuff (r : XidBuf) (offs : Nat) (page : Bytes) (rdCnt n : Nat) :
    Except RecErr (XidBuf × Nat) := do
  let b ← memcpy page rdCnt n
  let buff ← r.buff.elim (.error .outside) (memcpyTo · offs b)
  pure ({ r with buff := some buff }, rdCnt + n)

/-- `n` bytes of the page from `rd_cnt` on go to offset `offs` of the tail. -/
def readTail (r : XidBuf) (offs : Nat) (page : Bytes) (rdCnt n : Nat) :
    Except RecErr (XidBuf × Nat) := do
  let b ← memcpy page rdCnt n
  let t ← memcpyTo r.tail.bytes offs b
  pure ({ r with tail := .ofBytes t }, rdCnt + n)

/-- `n` bytes of the page from `rd_cnt` on complete the tail at offset `offs`, which is checked. -/
def finishTail (r : XidBuf) (offs : Nat) (page : Bytes) (rdCnt n : Nat) :
    Except RecErr (XidBuf × Nat) := do
  let p ← r.readTail offs page rdCnt n
  p.1.tail.chkTail p.1.hdr
  pure p

/-- `hdr_xid_dblks`. -/
def hdrXidDblks (r : XidBuf) : Nat := sizeDblks32 (wrap 64 (r.hdrSize + r.xidsize))

/-- `hdr_xid_tail_dblks`. -/
def hdrXidTailDblks (r : XidBuf) : Nat :=
  sizeDblks32 (wrap 64 (r.hdrSize + r.xidsize + recTailSize))

def decodeNext (r : XidBuf) (page : Bytes) (recOffsDblks maxSizeDblks : Nat) :
    Except RecErr (XidBuf × Nat) :=
  let recOffs := wrap 32 (recOffsDblks * jrnlDblkSize)
  let xidOffs := wsub 64 recOffs r.hdrSize
  let maxSize := wrap 32 (maxSizeDblks * jrnlDblkSize)
  if wsub 32 r.hdrXidTailDblks recOffsDblks ≤ maxSizeDblks then
    if xidOffs < r.xidsize then do
      let p ← r.readBuff xidOffs page 0 (wsub 64 r.xidsize xidOffs)
      p.1.finishTail 0 page p.2 recTailSize
    else
      let tailOffs := wsub 64 xidOffs r.xidsize
      r.finishTail tailOffs page 0 (wsub 64 recTailSize tailOffs)
  else if wsub 32 r.hdrXidDblks recOffsDblks ≤ maxSizeDblks then do
    let p ← r.readBuff xidOffs page 0 (wsub 64 r.xidsize xidOffs)
    let tailRem := wsub 64 maxSize p.2
    onlyIf (tailRem ≠ 0) (p.1.readTail 0 page p.2 tailRem) p
  else r.readBuff xidOffs page 0 maxSize

/-- The record from its start, once the header is read and `_buff` is allocated. -/
def decodeBody (r : XidBuf) (page : Bytes) (maxSizeDblks : Nat) : Except RecErr (XidBuf × Nat) :=
  let maxSize := wrap 32 (maxSizeDblks * jrnlDblkSize)
  if r.hdrXidTailDblks ≤ maxSizeDblks then do
    let p ← r.readBuff 0 page r.hdrSize r.xidsize
    p.1.finishTail 0 page p.2 recTailSize
  else if r.hdrXidDblks ≤ maxSizeDblks then do
    let p ← r.readBuff 0 page r.hdrSize r.xidsize
    let tailRem := wsub 64 maxSize p.2
    onlyIf (tailRem ≠ 0) (p.1.readTail 0 page p.2 tailRem) p
  else r.readBuff 0 page r.hdrSize (wsub 64 maxSize r.hdrSize)

/-- `_buff` allocated for the xid. -/
def alloc (r : XidBuf) : XidBuf := { r with buff := some (List.replicate r.xidsize 0) }

end XidBuf

/-- The calls of `decode` on the pages that follow, as long as the record has more dblks than have been
read. -/
def readAll {ρ : Type} (recSizeDblks : ρ → Nat)
    (decode : ρ → (page : Bytes) → (recOffsDblks maxSizeDblks : Nat) → Except RecErr (ρ × Nat)) :
    (r : ρ) → (dblocksRead : Nat) → (pages : List Bytes) → Except RecErr (ρ × Nat)
  | r, dblocksRead, [] => pure (r, dblocksRead)
  | r, dblocksRead, page :: pages =>
    if dblocksRead < recSizeDblks r then do
      let p ← decode r page dblocksRead (EnqRec.dblksRem page)
      readAll recSizeDblks decode p.1 (dblocksRead + p.2) pages
    else pure (r, dblocksRead)

/-! ## The records -/

/-- `deq_rec`. -/
structure DeqRec where
  deqHdr : DeqHdr
  xidp : Option Bytes
  buff : Option Bytes
  deqTail : RecTail
  deriving DecidableEq, Repr

namespace DeqRec

/-- `deq_rec::deq_rec()`. -/
def init : DeqRec :=
  let h : DeqHdr := ⟨⟨rhmJdatDeqMagic, rhmJdatVersion, rhmLendianFlag, 0, 0⟩, 0, 0⟩
  ⟨h, none, none, .ofHdr h.toRecHdr⟩

/-- `deq_rec::reset()`, before a read. -/
def resetRead (r : DeqRec) : DeqRec :=
  { r with
    deqHdr.rid := 0
    deqHdr.uflag := setFlag (setFlag r.deqHdr.uflag 1 false) 0x10 false
    deqHdr.deqRid := 0
    deqHdr.xidsize := 0
    deqTail.rid := 0
    xidp := none
    buff := none }

/-- `deq_rec::reset(...)`, before a write. -/
def resetWrite (r : DeqRec) (rid drid : UInt64) (xidp : Option Bytes) (xidlen : UInt64)
    (owi txnComlCommit : Bool) : DeqRec :=
  { r with
    deqHdr.rid := rid
    deqHdr.uflag := setFlag (setFlag r.deqHdr.uflag 1 owi) 0x10 txnComlCommit
    deqHdr.deqRid := drid
    deqHdr.xidsize := xidlen
    deqTail.rid := rid
    xidp := xidp
    buff := none }

def xidsize (r : DeqRec) : Nat := r.deqHdr.xidsize.toNat

def xidBytes (r : DeqRec) : Bytes := r.xidp.getD []

/-- `deq_rec::rec_size()`. -/
def recSize (r : DeqRec) : Nat := wrap 64 (deqRecSize r.xidsize)

def recSizeDblks (r : DeqRec) : Nat := sizeDblks32 r.recSize

def parts (r : DeqRec) : XidParts := ⟨r.deqHdr.bytes, r.xidBytes, r.xidsize, r.deqTail⟩

def encodeWhole (r : DeqRec) : Except RecErr Bytes :=
  if r.xidsize ≠ 0 then r.parts.encodeWhole else pure r.deqHdr.bytes

/-- `deq_rec::encode`: the bytes written at `wptr`, without the fill of -DRHM_CLEAN, and the dblks they
take. -/
def encode (r : DeqRec) (recOffsDblks maxSizeDblks : Nat) : Except RecErr (Bytes × Nat) := do
  require (0 < maxSizeDblks) .assertion
  require (r.xidp.isSome ∨ r.xidsize = 0) .assertion
  let out ← r.parts.encodeBytes r.recSizeDblks r.encodeWhole recOffsDblks maxSizeDblks
  pure (out, sizeDblks32 out.length)

/-- `deq_rec::chk_hdr`. -/
def chkHdr (r : DeqRec) : Except RecErr Unit := do
  r.deqHdr.toRecHdr.chkHdr
  require (r.deqHdr.magic = rhmJdatDeqMagic) .badRecHdr

/-- `deq_rec::chk_tail`. -/
def chkTail (r : DeqRec) : Except RecErr Unit := r.deqTail.chkTail r.deqHdr.toRecHdr

def buf (r : DeqRec) : XidBuf := ⟨r.deqHdr.toRecHdr, DeqHdr.size, r.xidsize, r.buff, r.deqTail⟩

def setBuf (r : DeqRec) (b : XidBuf) : DeqRec := { r with buff := b.buff, deqTail := b.tail }

/-- Start of a record: the header is read and checked, `_buff` is allocated if there is an xid. -/
def decodeStart (r : DeqRec) (h : RecHdr) (page : Bytes) (maxSizeDblks : Nat) :
    Except RecErr (DeqRec × Nat) := do
  let deqRid ← memcpy page 16 8
  let xidsize ← memcpy page 24 8
  let r := { r with deqHdr := ⟨h, .ofNat (leNat deqRid), .ofNat (leNat xidsize)⟩ }
  r.chkHdr
  if r.xidsize ≠ 0 then do
    let p ← r.buf.alloc.decodeBody page maxSizeDblks
    pure (r.setBuf p.1, p.2)
  else pure (r, DeqHdr.size)

/-- `deq_rec::decode` on what is left of a page, where `h` is the record header: the dblks read. -/
def decode (h : RecHdr) (r : DeqRec) (page : Bytes) (recOffsDblks maxSizeDblks : Nat) :
    Except RecErr (DeqRec × Nat) := do
  require (0 < maxSizeDblks) .assertion
  let p ← if recOffsDblks ≠ 0 then do
      let p ← r.buf.decodeNext page recOffsDblks maxSizeDblks
      pure (r.setBuf p.1, p.2)
    else r.decodeStart h page maxSizeDblks
  pure (p.1, sizeDblks32 p.2)

def readDeq (r : DeqRec) (page : Bytes) (pages : List Bytes) : Except RecErr (DeqRec × Nat) := do
  let h ← memcpy page 0 RecHdr.size
  let p ← decode (.ofBytes h) r.resetRead page 0 (EnqRec.dblksRem page)
  readAll recSizeDblks (decode (.ofBytes h)) p.1 p.2 pages

/-- `deq_rec::get_xid`. -/
def getXid (r : DeqRec) : Option Bytes × Nat :=
  if r.buff.isNone then (none, 0) else (r.buff.map (·.take r.xidsize), r.xidsize)

end DeqRec

/-- `txn_rec`, for aborts and commits. -/
structure TxnRec where
  txnHdr : TxnHdr
  xidp : Option Bytes
  buff : Option Bytes
  txnTail : RecTail
  deriving DecidableEq, Repr

namespace TxnRec

/-- `txn_rec::txn_rec()`. -/
def init : TxnRec :=
  ⟨⟨⟨0, rhmJdatVersion, 0, 0, 0⟩, 0⟩, none, none, ⟨0xffffffff, 0⟩⟩

/-- `txn_rec::reset(magic)`, before a read. -/
def resetRead (r : TxnRec) (magic : UInt32) : TxnRec :=
  { r with
    txnHdr.magic := magic
    txnHdr.rid := 0
    txnHdr.xidsize := 0
    xidp := none
    buff := none
    txnTail := ⟨~~~magic, 0⟩ }

/-- `txn_rec::reset(...)`, before a write. -/
def resetWrite (r : TxnRec) (magic : UInt32) (rid : UInt64) (xidp : Option Bytes) (xidlen : UInt64)
    (owi : Bool) : TxnRec :=
  { r with
    txnHdr.magic := magic
    txnHdr.rid := rid
    txnHdr.uflag := setFlag r.txnHdr.uflag 1 owi
    txnHdr.xidsize := xidlen
    xidp := xidp
    buff := none
    txnTail := ⟨~~~magic, rid⟩ }

def xidsize (r : TxnRec) : Nat := r.txnHdr.xidsize.toNat

def xidBytes (r : TxnRec) : Bytes := r.xidp.getD []

/-- `txn_rec::rec_size()`. -/
def recSize (r : TxnRec) : Nat := wrap 64 (txnRecSize r.xidsize)

def recSizeDblks (r : TxnRec) : Nat := sizeDblks32 r.recSize

def parts (r : TxnRec) : XidParts := ⟨r.txnHdr.bytes, r.xidBytes, r.xidsize, r.txnTail⟩

/-- `txn_rec::encode`: the bytes written at `wptr`, without the fill of -DRHM_CLEAN, and the dblks they
take. -/
def encode (r : TxnRec) (recOffsDblks maxSizeDblks : Nat) : Except RecErr (Bytes × Nat) := do
  require (0 < maxSizeDblks) .assertion
  require (r.xidp.isSome ∧ 0 < r.xidsize) .assertion
  let out ← r.parts.encodeBytes r.recSizeDblks r.parts.encodeWhole recOffsDblks maxSizeDblks
  pure (out, sizeDblks32 out.length)

/-- `txn_rec::chk_hdr`. -/
def chkHdr (r : TxnRec) : Except RecErr Unit := do
  r.txnHdr.toRecHdr.chkHdr
  require (r.txnHdr.magic = rhmJdatTxaMagic ∨ r.txnHdr.magic = rhmJdatTxcMagic) .badRecHdr

/-- `txn_rec::chk_tail`. -/
def chkTail (r : TxnRec) : Except RecErr Unit := r.txnTail.chkTail r.txnHdr.toRecHdr

def buf (r : TxnRec) : XidBuf := ⟨r.txnHdr.toRecHdr, TxnHdr.size, r.xidsize, r.buff, r.txnTail⟩

def setBuf (r : TxnRec) (b : XidBuf) : TxnRec := { r with buff := b.buff, txnTail := b.tail }

/-- Start of a record: the header is read and checked, `_buff` is allocated. -/
def decodeStart (r : TxnRec) (h : RecHdr) (page : Bytes) (maxSizeDblks : Nat) :
    Except RecErr (TxnRec × Nat) := do
  let xidsize ← memcpy page 16 8
  let r := { r with txnHdr := ⟨h, .ofNat (leNat xidsize)⟩ }
  r.chkHdr
  let p ← r.buf.alloc.decodeBody page maxSizeDblks
  pure (r.setBuf p.1, p.2)

/-- `txn_rec::decode` on what is left of a page, where `h` is the record header: the dblks read. -/
def decode (h : RecHdr) (r : TxnRec) (page : Bytes) (recOffsDblks maxSizeDblks : Nat) :
    Except RecErr (TxnRec × Nat) := do
  require (0 < maxSizeDblks) .assertion
  let p ← if recOffsDblks ≠ 0 then do
      let p ← r.buf.decodeNext page recOffsDblks maxSizeDblks
      pure (r.setBuf p.1, p.2)
    else r.decodeStart h page maxSizeDblks
  pure (p.1, sizeDblks32 p.2)

def readTxn (r : TxnRec) (page : Bytes) (pages : List Bytes) : Except RecErr (TxnRec × Nat) := do
  let h ← memcpy page 0 RecHdr.size
  let hdr : RecHdr := .ofBytes h
  let p ← decode hdr (r.resetRead hdr.magic) page 0 (EnqRec.dblksRem page)
  readAll recSizeDblks (decode hdr) p.1 p.2 pages

/-- `txn_rec::get_xid`. -/
def getXid (r : TxnRec) : Option Bytes × Nat :=
  if r.buff.isNone then (none, 0) else (r.buff.map (·.take r.xidsize), r.xidsize)

end TxnRec

end RhmStore
