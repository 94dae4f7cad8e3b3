import RhmStore.Jrnl.Record
import RhmStore.Lib.Bytes

/-! # Enqueue records in bytes -/

namespace RhmStore

/-- What stops `encode` or `decode`: a failed assertion, an access outside of an object, and
JERR_JREC_BADRECHDR and JERR_JREC_BADRECTAIL. -/
inductive RecErr
  | assertion
  | outside
  | badRecHdr
  | badRecTail
  deriving DecidableEq, Repr

def require (c : Prop) [Decidable c] (e : RecErr) : Except RecErr Unit :=
  if c then .ok () else .error e

/-- A step that is made only if `c` holds; else its result is `a`. -/
def onlyIf {α : Type} (c : Prop) [Decidable c] (x : Except RecErr α) (a : α) : Except RecErr α :=
  if c then x else .ok a

/-- `memcpy` from `src + offs`. -/
def memcpy (src : Bytes) (offs n : Nat) : Except RecErr Bytes :=
  (readAt src offs n).elim (.error .outside) .ok

/-- `memcpy` to `dst + offs`. -/
def memcpyTo (dst : Bytes) (offs : Nat) (src : Bytes) : Except RecErr Bytes :=
  (writeAt dst offs src).elim (.error .outside) .ok

/-! ## Headers and tail -/

/-- `rec_hdr`. -/
structure RecHdr where
  magic : UInt32
  version : UInt8
  eflag : UInt8
  uflag : UInt16
  rid : UInt64
  deriving DecidableEq, Repr

def rhmJdatEnqMagic : UInt32 := 0x654d4852

def rhmJdatVersion : UInt8 := 1

def rhmLendianFlag : UInt8 := 0

namespace RecHdr

/-- `sizeof(rec_hdr)`. -/
def size : Nat := 16

def bytes (h : RecHdr) : Bytes :=
  leBytes 4 h.magic.toNat ++ leBytes 1 h.version.toNat ++ leBytes 1 h.eflag.toNat ++
    leBytes 2 h.uflag.toNat ++ leBytes 8 h.rid.toNat

def ofBytes (b : Bytes) : RecHdr where
  magic := .ofNat (leNat (b.take 4))
  version := .ofNat (leNat ((b.drop 4).take 1))
  eflag := .ofNat (leNat ((b.drop 5).take 1))
  uflag := .ofNat (leNat ((b.drop 6).take 2))
  rid := .ofNat (leNat ((b.drop 8).take 8))

/-- `jrec::chk_hdr`. -/
def chkHdr (h : RecHdr) : Except RecErr Unit :=
  require (h.magic ≠ 0 ∧ h.version = rhmJdatVersion ∧ h.eflag = rhmLendianFlag) .badRecHdr

end RecHdr

/-- `enq_hdr`. -/
structure EnqHdr extends RecHdr where
  xidsize : UInt64
  dsize : UInt64
  deriving DecidableEq, Repr

namespace EnqHdr

/-- `enq_hdr::size()`. -/
def size : Nat := 32

def bytes (h : EnqHdr) : Bytes :=
  h.toRecHdr.bytes ++ leBytes 8 h.xidsize.toNat ++ leBytes 8 h.dsize.toNat

/-- `is_external`, ENQ_HDR_EXTERNAL_MASK. -/
def isExternal (h : EnqHdr) : Bool := h.uflag &&& 0x20 ≠ 0

end EnqHdr

/-- `rec_tail`. -/
structure RecTail where
  xmagic : UInt32
  rid : UInt64
  deriving DecidableEq, Repr

namespace RecTail

def bytes (t : RecTail) : Bytes := leBytes 4 t.xmagic.toNat ++ leBytes 8 t.rid.toNat

def ofBytes (b : Bytes) : RecTail where
  xmagic := .ofNat (leNat (b.take 4))
  rid := .ofNat (leNat ((b.drop 4).take 8))

def ofHdr (h : RecHdr) : RecTail := ⟨~~~h.magic, h.rid⟩

/-- `jrec::chk_tail`. -/
def chkTail (t : RecTail) (h : RecHdr) : Except RecErr Unit :=
  require (t.xmagic = ~~~h.magic ∧ t.rid = h.rid) .badRecTail

end RecTail

/-! ## The record -/

/-- `enq_rec`: the pointers `_xidp` and `_data` to what is written, and the buffer `_buff` for what
is read. -/
structure EnqRec where
  enqHdr : EnqHdr
  xidp : Option Bytes
  data : Option Bytes
  buff : Option Bytes
  enqTail : RecTail
  deriving DecidableEq, Repr

/-- `jrec::size_dblks` of a `size_t`. -/
def sizeDblks32 (size : Nat) : Nat := wrap 32 (wrap 64 (size + (jrnlDblkSize - 1)) / jrnlDblkSize)

def setFlag (uflag mask : UInt16) (on : Bool) : UInt16 :=
  if on then uflag ||| mask else uflag &&& ~~~mask

namespace EnqRec

/-- `enq_rec::enq_rec()`. -/
def init : EnqRec :=
  let h : EnqHdr := ⟨⟨rhmJdatEnqMagic, rhmJdatVersion, rhmLendianFlag, 0, 0⟩, 0, 0⟩
  ⟨h, none, none, none, .ofHdr h.toRecHdr⟩

/-- `enq_rec::reset()`, before a read. -/
def resetRead (r : EnqRec) : EnqRec :=
  { r with
    enqHdr.rid := 0
    enqHdr.uflag := setFlag (setFlag r.enqHdr.uflag 1 false) 0x10 false
    enqHdr.xidsize := 0
    enqHdr.dsize := 0
    xidp := none
    data := none
    buff := none
    enqTail.rid := 0 }

/-- `enq_rec::reset(...)`, before a write. -/
def resetWrite (r : EnqRec) (rid : UInt64) (dbuf : Option Bytes) (dlen : UInt64)
    (xidp : Option Bytes) (xidlen : UInt64) (owi transient external : Bool) : EnqRec :=
  { r with
    enqHdr.rid := rid
    enqHdr.uflag := setFlag (setFlag (setFlag r.enqHdr.uflag 1 owi) 0x10 transient) 0x20 external
    enqHdr.xidsize := xidlen
    enqHdr.dsize := dlen
    xidp := xidp
    data := dbuf
    buff := none
    enqTail.rid := rid }

def xidsize (r : EnqRec) : Nat := r.enqHdr.xidsize.toNat

def dsize (r : EnqRec) : Nat := r.enqHdr.dsize.toNat

def isExternal (r : EnqRec) : Bool := r.enqHdr.isExternal

/-- `enq_rec::rec_size()`. -/
def recSize (r : EnqRec) : Nat := wrap 64 (enqRecSize r.xidsize r.dsize r.isExternal)

def recSizeDblks (r : EnqRec) : Nat := sizeDblks32 r.recSize

/-! ## Encoding -/

/-- What a call of `encode` has written, the offset `rec_offs` and the space `rem` that is left. -/
structure Enc where
  out : Bytes
  recOffs : Nat
  rem : Nat

/-- A block of the branch "further split required": as much as fits of the part `src` from
`rec_offs` on. -/
def copyMiddle (src : Bytes) (size : Nat) (st : Enc) : Except RecErr Enc := do
  let wsize2 := if size > st.recOffs then wsub 64 size st.recOffs else 0
  let wsize := if wsize2 > st.rem then st.rem else wsize2
  let b ← onlyIf (wsize2 ≠ 0) (memcpy src st.recOffs wsize) []
  pure ⟨st.out ++ b, wsub 64 st.recOffs (wsub 64 size wsize2), wsub 64 st.rem wsize⟩

/-- A block of the branch "no further split required": the part `src` from `rec_offs` on, if it is
to be copied. -/
def copyLast (src : Bytes) (size : Nat) (copy : Bool) (st : Enc) : Except RecErr Enc := do
  let wsize := if size > st.recOffs then wsub 64 size st.recOffs else 0
  let b ← onlyIf (wsize ≠ 0 ∧ copy) (memcpy src st.recOffs wsize) []
  pure ⟨st.out ++ b, wsub 64 st.recOffs (wsub 64 size wsize), st.rem⟩

def copyFirst (src : Bytes) (size : Nat) (st : Enc) : Except RecErr Enc := do
  let wsize := if st.rem ≥ size then size else st.rem
  let b ← memcpy src 0 wsize
  pure ⟨st.out ++ b, st.recOffs, wsub 64 st.rem wsize⟩

def xidBytes (r : EnqRec) : Bytes := r.xidp.getD []

def dataBytes (r : EnqRec) : Bytes := r.data.getD []

def encodeMiddle (r : EnqRec) (recOffs rem : Nat) : Except RecErr Bytes := do
  let st ← copyMiddle r.xidBytes r.xidsize ⟨[], wsub 64 recOffs EnqHdr.size, rem⟩
  let st ← onlyIf (st.rem ≠ 0 ∧ ¬r.isExternal) (copyMiddle r.dataBytes r.dsize st) st
  let st ← onlyIf (st.rem ≠ 0) (copyMiddle r.enqTail.bytes recTailSize st) st
  require (st.rem = 0) .assertion
  require (st.recOffs = 0) .assertion
  pure st.out

def encodeLast (r : EnqRec) (recOffs rem : Nat) : Except RecErr Bytes := do
  let st ← copyLast r.xidBytes r.xidsize true ⟨[], wsub 64 recOffs EnqHdr.size, rem⟩
  let st ← copyLast r.dataBytes r.dsize (!r.isExternal) st
  let st ← copyLast r.enqTail.bytes recTailSize true st
  require (st.recOffs = 0) .assertion
  pure st.out

def encodeFirst (r : EnqRec) (rem : Nat) : Except RecErr Bytes := do
  let st : Enc := ⟨r.enqHdr.bytes, 0, wsub 64 rem EnqHdr.size⟩
  let st ← onlyIf (st.rem ≠ 0) (copyFirst r.xidBytes r.xidsize st) st
  let st ← onlyIf (st.rem ≠ 0 ∧ ¬r.isExternal) (copyFirst r.dataBytes r.dsize st) st
  let st ← onlyIf (st.rem ≠ 0) (copyFirst r.enqTail.bytes recTailSize st) st
  require (st.rem = 0) .assertion
  pure st.out

def encodeWhole (r : EnqRec) : Except RecErr Bytes := do
  let x ← onlyIf (r.xidsize ≠ 0) (memcpy r.xidBytes 0 r.xidsize) []
  let d ← onlyIf (¬r.isExternal) (memcpy r.dataBytes 0 r.dsize) []
  pure (r.enqHdr.bytes ++ x ++ d ++ r.enqTail.bytes)

/-- The branches of `encode`. -/
def encodeBytes (r : EnqRec) (recOffsDblks maxSizeDblks : Nat) : Except RecErr Bytes :=
  let recOffs := wrap 32 (recOffsDblks * jrnlDblkSize)
  let rem := wrap 32 (maxSizeDblks * jrnlDblkSize)
  if recOffsDblks ≠ 0 then
    if wsub 32 r.recSizeDblks recOffsDblks > maxSizeDblks then r.encodeMiddle recOffs rem
    else r.encodeLast recOffs rem
  else if r.recSizeDblks > maxSizeDblks then r.encodeFirst rem
  else r.encodeWhole

/-- `enq_rec::encode`: the bytes written at `wptr`, and the dblks they take. The rest of the last dblk,
which -DRHM_CLEAN fills, is left out. -/
def encode (r : EnqRec) (recOffsDblks maxSizeDblks : Nat) : Except RecErr (Bytes × Nat) := do
  require (0 < maxSizeDblks) .assertion
  require (r.xidp.isSome ∨ r.xidsize = 0) .assertion
  let out ← r.encodeBytes recOffsDblks maxSizeDblks
  pure (out, sizeDblks32 out.length)

/-- The calls of `encode` for one record in the loop of `wmgr::enqueue`, over the spaces that the
pages leave, from `dblksWritten` on. -/
def encodeAll (r : EnqRec) : (dblksWritten : Nat) → (spaces : List Nat) →
    Except RecErr (List (Bytes × Nat))
  | _, [] => pure []
  | dblksWritten, space :: spaces =>
    if dblksWritten < r.recSizeDblks then do
      let p ← r.encode dblksWritten space
      let ps ← r.encodeAll (dblksWritten + p.2) spaces
      pure (p :: ps)
    else pure []

/-! ## Decoding -/

/-- `enq_rec::chk_hdr`. -/
def chkHdr (r : EnqRec) : Except RecErr Unit := do
  r.enqHdr.toRecHdr.chkHdr
  require (r.enqHdr.magic = rhmJdatEnqMagic) .badRecHdr

/-- `enq_rec::chk_tail`. -/
def chkTail (r : EnqRec) : Except RecErr Unit := r.enqTail.chkTail r.enqHdr.toRecHdr

/-- The sizes that `decode` computes, as `u_int32_t`: the header with the xid, with the data that is
stored, and with the tail. -/
def hdrXidSize (r : EnqRec) : Nat := wrap 32 (wrap 64 (EnqHdr.size + r.xidsize))

def storedDsize (r : EnqRec) : Nat := if r.isExternal then 0 else r.dsize

def hdrXidDataSize (r : EnqRec) : Nat :=
  wrap 32 (wrap 64 (EnqHdr.size + r.xidsize + r.storedDsize))

def hdrXidDataTailSize (r : EnqRec) : Nat := wrap 32 (wrap 64 (r.hdrXidDataSize + recTailSize))

/-- `n` bytes of the page from `rd_cnt` on go to offset `offs` of `_buff`. -/
def readBuff (r : EnqRec) (offs : Nat) (page : Bytes) (rdCnt n : Nat) :
    Except RecErr (EnqRec × Nat) := do
  let b ← memcpy page rdCnt n
  let buff ← r.buff.elim (.error .outside) (memcpyTo · offs b)
  pure ({ r with buff := some buff }, rdCnt + n)

/-- `n` bytes of the page from `rd_cnt` on go to offset `offs` of `_enq_tail`. -/
def readTail (r : EnqRec) (offs : Nat) (page : Bytes) (rdCnt n : Nat) :
    Except RecErr (EnqRec × Nat) := do
  let b ← memcpy page rdCnt n
  let t ← memcpyTo r.enqTail.bytes offs b
  pure ({ r with enqTail := .ofBytes t }, rdCnt + n)

/-- `n` bytes of the page from `rd_cnt` on complete the tail at offset `offs`, which is checked. -/
def finishTail (r : EnqRec) (offs : Nat) (page : Bytes) (rdCnt n : Nat) :
    Except RecErr (EnqRec × Nat) := do
  let p ← r.readTail offs page rdCnt n
  p.1.chkTail
  pure p

/-- What is left of the xid and the data goes to `_buff`, where some is: the blocks that both
continuation branches have. -/
def readXidData (r : EnqRec) (offs : Nat) (page : Bytes) : Except RecErr (EnqRec × Nat) :=
  let xidData := wrap 64 (r.xidsize + r.dsize)
  if offs < r.xidsize then r.readBuff offs page 0 (wsub 64 xidData offs)
  else r.readBuff offs page 0 (wsub 64 r.dsize (wsub 64 offs r.xidsize))

def outstanding (r : EnqRec) (offs : Nat) : Prop :=
  offs < r.xidsize ∨ (offs < wrap 64 (r.xidsize + r.dsize) ∧ ¬r.isExternal)

instance (r : EnqRec) (offs : Nat) : Decidable (r.outstanding offs) :=
  inferInstanceAs (Decidable (_ ∨ _))

def decodeNext (r : EnqRec) (page : Bytes) (recOffsDblks maxSizeDblks : Nat) :
    Except RecErr (EnqRec × Nat) :=
  let recOffs := wrap 32 (recOffsDblks * jrnlDblkSize)
  let offs := wsub 64 recOffs EnqHdr.size
  if wsub 32 (sizeDblks32 r.hdrXidDataTailSize) recOffsDblks ≤ maxSizeDblks then
    if r.outstanding offs then do
      let p ← r.readXidData offs page
      p.1.finishTail 0 page p.2 recTailSize
    else
      let tailOffs := wsub 64 (wsub 64 (wsub 64 recOffs EnqHdr.size) r.xidsize) r.dsize
      r.finishTail tailOffs page 0 (wsub 64 recTailSize tailOffs)
  else if wsub 32 (sizeDblks32 r.hdrXidDataSize) recOffsDblks ≤ maxSizeDblks then do
    -- the block of the comment on a possible overwrite: the tail is copied to its start
    let p ← onlyIf (r.outstanding offs) (r.readXidData offs page) (r, 0)
    let tailRem := wsub 64 (wrap 32 (maxSizeDblks * jrnlDblkSize)) p.2
    onlyIf (tailRem ≠ 0) (p.1.readTail 0 page p.2 tailRem) p
  else r.readBuff offs page 0 (wrap 32 (maxSizeDblks * jrnlDblkSize))

/-- The xid, if there is one, and the data, if it is stored and not empty: the blocks that the first
two branches at the start of a record have. -/
def readWholeXidData (r : EnqRec) (page : Bytes) : Except RecErr (EnqRec × Nat) := do
  let p ← onlyIf (r.xidsize ≠ 0) (r.readBuff 0 page EnqHdr.size r.xidsize) (r, EnqHdr.size)
  onlyIf (r.dsize ≠ 0 ∧ ¬r.isExternal) (p.1.readBuff r.xidsize page p.2 r.dsize) p

def decodeBody (r : EnqRec) (page : Bytes) (maxSizeDblks : Nat) :
    Except RecErr (EnqRec × Nat) :=
  let maxSize := wrap 32 (maxSizeDblks * jrnlDblkSize)
  if sizeDblks32 r.hdrXidDataTailSize ≤ maxSizeDblks then do
    let p ← r.readWholeXidData page
    p.1.finishTail 0 page p.2 recTailSize
  else if sizeDblks32 r.hdrXidDataSize ≤ maxSizeDblks then do
    let p ← r.readWholeXidData page
    let tailRem := wsub 64 maxSize p.2
    onlyIf (tailRem ≠ 0) (p.1.readTail 0 page p.2 tailRem) p
  else if sizeDblks32 r.hdrXidSize ≤ maxSizeDblks then do
    let p ← onlyIf (r.xidsize ≠ 0) (r.readBuff 0 page EnqHdr.size r.xidsize) (r, EnqHdr.size)
    onlyIf (r.dsize ≠ 0 ∧ ¬r.isExternal)
      (p.1.readBuff r.xidsize page p.2 (wsub 64 maxSize p.2)) p
  else r.readBuff 0 page EnqHdr.size (wsub 64 maxSize EnqHdr.size)

/-- Start of a record: the header is read and checked, `_buff` is allocated. -/
def decodeStart (r : EnqRec) (h : RecHdr) (page : Bytes) (maxSizeDblks : Nat) :
    Except RecErr (EnqRec × Nat) := do
  let xidsize ← memcpy page 16 8
  let dsize ← memcpy page 24 8
  let r := { r with enqHdr := ⟨h, .ofNat (leNat xidsize), .ofNat (leNat dsize)⟩ }
  r.chkHdr
  let len := wrap 64 (r.xidsize + r.storedDsize)
  onlyIf (len ≠ 0) (decodeBody { r with buff := some (List.replicate len 0) } page maxSizeDblks)
    (r, EnqHdr.size)

/-- The branches of `decode`. -/
def decodeBytes (r : EnqRec) (h : RecHdr) (page : Bytes) (recOffsDblks maxSizeDblks : Nat) :
    Except RecErr (EnqRec × Nat) :=
  if recOffsDblks ≠ 0 then r.decodeNext page recOffsDblks maxSizeDblks
  else r.decodeStart h page maxSizeDblks

/-- `enq_rec::decode` on what is left of a page, where `h` is the record header: the dblks read. -/
def decode (r : EnqRec) (h : RecHdr) (page : Bytes) (recOffsDblks maxSizeDblks : Nat) :
    Except RecErr (EnqRec × Nat) := do
  require (0 < maxSizeDblks) .assertion
  let p ← r.decodeBytes h page recOffsDblks maxSizeDblks
  pure (p.1, sizeDblks32 p.2)

/-- `dblks_rem` on what is left of a page. -/
def dblksRem (page : Bytes) : Nat := page.length / jrnlDblkSize

/-- The loop of `rmgr::read_enq` over the pages that follow. -/
def readNext (h : RecHdr) : (r : EnqRec) → (dblocksRead : Nat) → (pages : List Bytes) →
    Except RecErr (EnqRec × Nat)
  | r, dblocksRead, [] => pure (r, dblocksRead)
  | r, dblocksRead, page :: pages =>
    if dblocksRead < r.recSizeDblks then do
      let p ← r.decode h page dblocksRead (dblksRem page)
      readNext h p.1 (dblocksRead + p.2) pages
    else pure (r, dblocksRead)

/-- `rmgr::read_enq` on a record that starts with the first page, after `rmgr::read` has read its
header and reset `_enq_rec`: the record and `dblocks_read` of the token. -/
def readEnq (r : EnqRec) (page : Bytes) (pages : List Bytes) : Except RecErr (EnqRec × Nat) := do
  let h ← memcpy page 0 RecHdr.size
  let p ← r.resetRead.decode (.ofBytes h) page 0 (dblksRem page)
  readNext (.ofBytes h) p.1 p.2 pages

/-- `enq_rec::get_xid`. -/
def getXid (r : EnqRec) : Option Bytes × Nat :=
  if r.buff.isNone ∨ r.xidsize = 0 then (none, 0)
  else (r.buff.map (·.take r.xidsize), r.xidsize)

/-- `enq_rec::get_data`. -/
def getData (r : EnqRec) : Option Bytes × Nat :=
  if r.buff.isNone then (none, 0)
  else (if r.isExternal then none else r.buff.map fun b => (b.drop r.xidsize).take r.dsize, r.dsize)

end EnqRec

end RhmStore
