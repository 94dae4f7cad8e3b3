import RhmStore.Lib.Bytes
import RhmStore.Jrnl.Page
import RhmStore.Jrnl.Maps

/-! # The write manager

The loops of `wmgr` that encode a record are cut at their heads: an operation is its part before the
loop, and then one `encodePart` and `flushCheck` after the other. -/

namespace RhmStore

/-- `iores`, the results that `wmgr` returns. -/
inductive Iores
  | success
  | pageAioWait
  | fileAioWait
  | full
  | busy
  | enqCapThresh
  | notImpl
  deriving DecidableEq, Repr

/-- `wmgr` with its `wrfc`, maps and tokens, and the writes in AIO: all ever submitted, and which of
them have not returned. `busy` is `_enq_busy`, `_deq_busy`, `_abort_busy` and `_commit_busy`, `acked` what
`wr_aio_cb` has been called with. The last seven are history: turns of the ring, files reset, whether
the current one has been reset since the ring turned to it, dblks encoded by position, the record being
encoded and those encoded. -/
structure Wmgr where
  pages : Nat → PageCb
  pgIndex : Nat
  pgCntr : Nat
  pgOffset : Nat
  cached : Nat
  aioEvtRem : Nat
  busy : OpType → Bool
  txnPending : List Xid
  fcntls : Nat → Fcntl
  fcIndex : Nat
  rid : Nat
  resetOk : Bool
  owi : Bool
  frot : Bool
  maps : Maps
  toks : Nat → DataTok
  subm : List Write
  pending : List Nat
  acked : List (Nat × DataTok)
  rot : Nat
  resets : List Nat
  fresh : Bool
  tape : Nat → Dblk
  cur : Option Written
  log : List Written

abbrev WmgrM := EStateM JErr Wmgr

namespace Wmgr

/-- After `jcntl::initialize` on new files. -/
def init (g : Geom) : Wmgr where
  pages := Function.update (fun _ => {}) 0 { state := .inUse }
  pgIndex := 0
  pgCntr := 0
  pgOffset := 0
  cached := 0
  aioEvtRem := 0
  busy := fun _ => false
  txnPending := []
  fcntls := fun _ => {}
  fcIndex := 0
  rid := 0
  resetOk := false
  owi := false
  frot := true
  maps := Maps.init g.numJfiles
  toks := fun _ => {}
  subm := []
  pending := []
  acked := []
  rot := 0
  resets := []
  fresh := false
  tape := fun _ => .zero
  cur := none
  log := []

/-- What `jcntl::rcvr_janalyze` finds out for the writer: the file written last, the end offset in it
in dblks, and whether it is full, or the journal empty. -/
structure Rcvdat where
  lfid : Nat
  eoDblks : Nat
  jempty : Bool
  lffull : Bool
  hRid : Nat
  owi : Bool
  frot : Bool
  maps : Maps

/-- `fcntl::wr_reset` with the recovery data, on new file controllers. -/
def Rcvdat.fcntl (g : Geom) (rd : Rcvdat) (fid : Nat) : Fcntl :=
  let n := if rd.jempty then 0 else if fid = rd.lfid then rd.eoDblks else g.ffullDblks
  { wrSubm := n, wrCmpl := n }

/-- `wrfc::initialize` and `wmgr::initialize` with the recovery data, but for the rotation behind a
full file. The history is as if each file up to this one had been entered and reset. -/
def resumed (g : Geom) (rd : Rcvdat) : Wmgr :=
  let dataDblks := if rd.jempty || rd.lffull then 0 else rd.eoDblks - jrnlSblkSize
  { init g with
    pgCntr := dataDblks / g.pgDblks
    pgOffset := dataDblks - dataDblks / g.pgDblks * g.pgDblks
    fcntls := rd.fcntl g
    fcIndex := rd.lfid
    rid := rd.hRid + 1
    resetOk := true
    owi := rd.owi
    frot := rd.frot
    maps := rd.maps
    rot := g.numJfiles + rd.lfid
    resets := (List.range (g.numJfiles + rd.lfid + 1)).map (· % g.numJfiles)
    fresh := true }

/-- Position of the next dblk, counted over all files entered so far without their headers. -/
def pos (g : Geom) (s : Wmgr) : Nat := s.rot * g.fileDblks + s.pgCntr * g.pgDblks + s.pgOffset

def onMaps (x : MapsM Unit) : WmgrM Unit := onPart Wmgr.maps (fun s m => { s with maps := m }) x

def modTok (tok : Nat) (f : DataTok → DataTok) : WmgrM Unit :=
  modify fun s => { s with toks := Function.update s.toks tok (f (s.toks tok)) }

def modPage (i : Nat) (f : PageCb → PageCb) : WmgrM Unit :=
  modify fun s => { s with pages := Function.update s.pages i (f (s.pages i)) }

def modFcntl (fid : Nat) (f : Fcntl → Fcntl) : WmgrM Unit :=
  modify fun s => { s with fcntls := Function.update s.fcntls fid (f (s.fcntls fid)) }

def setBusy (op : OpType) (b : Bool) : WmgrM Unit :=
  modify fun s => { s with busy := Function.update s.busy op b }

/-- `wrfc::wr_reset`: the current file is reset unless it holds enqueued records or has outstanding
writes. -/
def wrReset : WmgrM Bool := do
  let s ← get
  if s.maps.enqCnt.getD s.fcIndex 0 ≠ 0 ∨ (s.fcntls s.fcIndex).aioCnt ≠ 0 then do
    set { s with resetOk := false }
    pure false
  else do
    set { s with
      fcntls := Function.update s.fcntls s.fcIndex
        { s.fcntls s.fcIndex with wrSubm := 0, wrCmpl := 0 }
      resetOk := true
      resets := s.resets ++ [s.fcIndex]
      fresh := true }
    pure true

/-- `wrfc::rotate`. -/
def rotate (g : Geom) : WmgrM Iores := do
  modify fun s => { s with fcIndex := s.fcIndex + 1, rot := s.rot + 1, fresh := false }
  let s ← get
  if s.fcIndex = g.numJfiles then set { s with fcIndex := 0, owi := !s.owi, frot := false }
  let s ← get
  if (s.fcntls s.fcIndex).aioCnt ≠ 0 then pure .fileAioWait
  else do
    let ok ← wrReset
    pure (if ok then .success else .full)

/-- After `jcntl::recover_complete`. -/
def recovered (g : Geom) (rd : Rcvdat) : Wmgr :=
  if rd.lffull then
    match rotate g (resumed g rd) with
    | .ok _ s => s
    | .error _ s => s
  else resumed g rd

/-- `wmgr::rotate_file`. -/
def rotateFile (g : Geom) : WmgrM Iores := do
  modify fun s => { s with pgCntr := 0 }
  rotate g

/-- The variables of the loop of `wrfc::enq_threshold`. -/
structure Probe where
  fwdDblks : Nat
  findex : Nat
  inUse : Bool
  deriving DecidableEq

def Probe.goesOn (s : Wmgr) (p : Probe) : Bool :=
  p.fwdDblks ≠ 0 && !(p.findex ≠ s.fcIndex && s.maps.enqCnt.getD p.findex 0 ≠ 0)

def Probe.next (g : Geom) (s : Wmgr) (p : Probe) : Probe :=
  let fwd := p.fwdDblks - if p.fwdDblks > g.jfsizeDblks then g.jfsizeDblks else p.fwdDblks
  let findex :=
    if fwd = 0 then p.findex else if p.findex + 1 = g.numJfiles then 0 else p.findex + 1
  ⟨fwd, findex, p.inUse || s.maps.enqCnt.getD findex 0 ≠ 0⟩

/-- At most `fuel` rounds of the loop. -/
def Probe.run (g : Geom) (s : Wmgr) : Nat → Probe → Probe
  | 0, p => p
  | fuel + 1, p => if p.goesOn s then Probe.run g s fuel (p.next g s) else p

/-- `fwd_dblks` of `wrfc::enq_threshold`, a `u_int32_t`. -/
def fwdDblks (g : Geom) (s : Wmgr) (enqDsizeDblks : Nat) : Nat :=
  let submDblks := (s.fcntls s.fcIndex).wrSubm
  let submDblks := if submDblks ≠ 0 then wsub 32 submDblks 4 else submDblks
  wrap 32 (submDblks + enqDsizeDblks + g.enqCapOffsDblks)

/-- `wrfc::enq_threshold`. Every round takes a dblk or more off the window. -/
def enqThreshold (g : Geom) (s : Wmgr) (enqDsizeDblks : Nat) : Bool :=
  let fwd := s.fwdDblks g enqDsizeDblks
  let p := Probe.run g s fwd ⟨fwd, s.fcIndex, false⟩
  p.findex ≠ s.fcIndex && p.inUse

/-- The checks of `wmgr::pre_write_check` on the operation. -/
def opCheck (g : Geom) (op : OpType) (tok xidsize dsize : Nat) (external : Bool) :
    WmgrM Iores := do
  let s ← get
  match op with
  | .enqueue =>
    if !s.busy .enqueue &&
        s.enqThreshold g (s.cached + sizeDblks (enqRecSize xidsize dsize external)) then
      pure .enqCapThresh
    else if !(s.toks tok).isWritable then throw .badDtokState
    else pure .success
  | .dequeue => if !(s.toks tok).isDequeueable then throw .badDtokState else pure .success
  | .abort => pure .success
  | .commit => pure .success

/-- The rest of `wmgr::pre_write_check` once the file can be written: the current page. -/
def pageCheck (g : Geom) (op : OpType) (tok xidsize dsize : Nat) (external : Bool) :
    WmgrM Iores := do
  let s ← get
  match (s.pages s.pgIndex).state with
  | .inUse => opCheck g op tok xidsize dsize external
  | .unused => do
    modPage s.pgIndex fun p => { p with state := .inUse }
    opCheck g op tok xidsize dsize external
  | .aioPending => pure .pageAioWait
  | .aioComplete => throw .badPgState

/-- `wmgr::pre_write_check`. -/
def preWriteCheck (g : Geom) (op : OpType) (tok xidsize dsize : Nat) (external : Bool) :
    WmgrM Iores := do
  let s ← get
  let ok ← if s.resetOk then pure true else wrReset
  if !ok then pure .full else pageCheck g op tok xidsize dsize external

def contCheck (op : OpType) (tok : Nat) : WmgrM Bool := do
  let s ← get
  if s.busy op then
    if (s.toks tok).wstate = op.part then pure true
    else throw (if op = .enqueue then .enqDiscont else .deqDiscont)
  else pure false

def takeRid (tok : Nat) (cont : Bool) : WmgrM Nat := do
  let s ← get
  if (s.toks tok).externalRid || cont then pure (s.toks tok).rid
  else do
    set { s with rid := s.rid + 1 }
    pure s.rid

/-- How an operation enters its loop: it returns before, or encodes a record, the rest of it if
`cont`. -/
inductive Entry
  | done (res : Iores)
  | encode (r : JRec) (cont : Bool)
  deriving DecidableEq, Repr

def otherBusy (s : Wmgr) (op : OpType) : Bool :=
  [OpType.enqueue, .dequeue, .abort, .commit].any fun o => o ≠ op && s.busy o

/-- `wmgr::enqueue` before its loop. -/
def enqueue (g : Geom) (tok totDataLen thisDataLen : Nat) (xid : Xid) (transient external : Bool) :
    WmgrM Entry := do
  let s ← get
  if s.otherBusy .enqueue then pure (.done .busy)
  else if thisDataLen ≠ totDataLen ∧ external = false then pure (.done .notImpl)
  else do
    let res ← preWriteCheck g .enqueue tok xid.length totDataLen external
    if res ≠ .success then pure (.done res)
    else do
      let cont ← contCheck .enqueue tok
      let rid ← takeRid tok cont
      if cont then pure ()
      else do
        modTok tok fun t => { t with rid := rid, dequeueRid := 0, xid := xid }
        setBusy .enqueue true
      pure (.encode (.enq rid xid totDataLen transient external) cont)

/-- `wmgr::dequeue` before its loop. -/
def dequeue (g : Geom) (tok : Nat) (xid : Xid) (txnComlCommit : Bool) : WmgrM Entry := do
  let s ← get
  if s.otherBusy .dequeue then pure (.done .busy)
  else do
    let res ← preWriteCheck g .dequeue tok 0 0 false
    if res ≠ .success then pure (.done res)
    else do
      let cont ← contCheck .dequeue tok
      let rid ← takeRid tok cont
      let t := (← get).toks tok
      let drid := if t.externalRid || cont then t.dequeueRid else t.rid
      if cont then pure ()
      else do
        if t.externalRid then pure ()
        else modTok tok fun t => { t with rid := rid, dequeueRid := drid }
        modTok tok fun t => { t with xid := xid }
        onMaps (Maps.dequeueCheck xid drid)
        modTok tok fun t => { t with dblksWritten := 0 }
        setBusy .dequeue true
      pure (.encode (.deq rid drid xid txnComlCommit) cont)

/-- What `wmgr::abort` and `wmgr::commit` do before their loops. -/
def txnEnd (g : Geom) (op : OpType) (mk : Nat → Xid → JRec) (tok : Nat) (xid : Xid) :
    WmgrM Entry := do
  let s ← get
  if xid = [] then throw .assertFailed
  else if s.otherBusy op then pure (.done .busy)
  else do
    let res ← preWriteCheck g op tok 0 0 false
    if res ≠ .success then pure (.done res)
    else do
      let cont ← contCheck op tok
      let rid ← takeRid tok cont
      if cont then pure ()
      else do
        modTok tok fun t => { t with rid := rid, dequeueRid := 0, xid := xid, dblksWritten := 0 }
        setBusy op true
      pure (.encode (mk rid xid) cont)

/-- `wmgr::abort` before its loop. -/
def abort (g : Geom) (tok : Nat) (xid : Xid) : WmgrM Entry := txnEnd g .abort .txa tok xid

/-- `wmgr::commit` before its loop. -/
def commit (g : Geom) (tok : Nat) (xid : Xid) : WmgrM Entry := txnEnd g .commit .txc tok xid

def encodeLen (g : Geom) (r : JRec) (tok : Nat) (s : Wmgr) : Nat :=
  min (r.recSizeDblks - (s.toks tok).dblksWritten) (g.pgDblks - s.pgOffset)

def nextPart (g : Geom) (r : JRec) (tok : Nat) (s : Wmgr) : Part where
  fid := s.fcIndex
  inst := s.rot
  offs := jrnlSblkSize + s.pgCntr * g.pgDblks + s.pgOffset
  idx := (s.toks tok).dblksWritten
  len := s.encodeLen g r tok
  stamp := s.resets.length
  sent := s.subm.length

def encoded (g : Geom) (r : JRec) (tok : Nat) (s : Wmgr) : Wmgr :=
  let t := s.toks tok
  let ret := s.encodeLen g r tok
  let p := s.pages s.pgIndex
  { s with
    pages := Function.update s.pages s.pgIndex { p with
      pdtokl := p.pdtokl ++ [tok]
      buff := fun i => if s.pgOffset ≤ i ∧ i < s.pgOffset + ret then
        r.dblk s.owi (t.dblksWritten + (i - s.pgOffset)) else p.buff i }
    pgOffset := s.pgOffset + ret
    cached := s.cached + ret
    toks := Function.update s.toks tok { t with
      fid := if t.dblksWritten = 0 then s.fcIndex else t.fid
      dblksWritten := t.dblksWritten + ret
      pgCnt := t.pgCnt + 1 }
    tape := fun i => if s.pos g ≤ i ∧ i < s.pos g + ret then
      r.dblk s.owi (t.dblksWritten + (i - s.pos g)) else s.tape i
    cur := match s.cur with
      | some w => some { w with parts := w.parts ++ [s.nextPart g r tok] }
      | none => some ⟨tok, r, s.owi, [s.nextPart g r tok]⟩ }

def encode (g : Geom) (r : JRec) (tok : Nat) : WmgrM Unit := do
  let s ← get
  if g.pgDblks ≤ s.pgOffset then throw .assertFailed
  else set (s.encoded g r tok)

/-- `_txn_pending_set.insert(xid)`. -/
def insertTxnPending (xid : Xid) : WmgrM Unit := do
  let s ← get
  if xid ∈ s.txnPending then throw .mapDuplicate
  else set { s with txnPending := xid :: s.txnPending }

def completeRecord (op : OpType) (r : JRec) (tok : Nat) : WmgrM Unit := do
  let fid := ((← get).toks tok).fid
  modTok tok fun t => { t with
    wstate := op.subm
    dsize := match r with
      | .enq _ _ dsize _ _ => dsize
      | _ => t.dsize }
  modify fun s => { s with log := s.log ++ s.cur.toList, cur := none }
  onMaps (Maps.complete fid r)
  match r with
  | .txa _ xid => insertTxnPending xid
  | .txc _ xid => insertTxnPending xid
  | _ => pure ()

/-- `fcntl::add_wr_subm_cnt_dblks` of the current file. -/
def addSubmCntDblks (g : Geom) (a : Nat) : WmgrM Unit := do
  let s ← get
  if g.ffullDblks < (s.fcntls s.fcIndex).wrSubm + a then throw .fileOffsOvfl
  else modFcntl s.fcIndex fun f => { f with wrSubm := f.wrSubm + a }

/-- `aio::submit`. -/
def submit (w : Write) : WmgrM Unit :=
  modify fun s => { s with subm := s.subm ++ [w], pending := s.pending ++ [s.subm.length] }

/-- `wmgr::write_fhdr` for the current file. -/
def writeFhdr (g : Geom) (rid fro : Nat) : WmgrM Unit := do
  let s ← get
  let h : FileHdr := ⟨rid, s.fcIndex, s.fcIndex, fro, s.owi⟩
  submit ⟨s.fcIndex, 0, jrnlSblkSize, fun i => if i = 0 then .fhdr h else .pad, none, s.rot⟩
  modify fun s => { s with aioEvtRem := s.aioEvtRem + 1 }
  addSubmCntDblks g jrnlSblkSize
  modFcntl s.fcIndex fun f => { f with aioCnt := f.aioCnt + 1, wrFhdrAioOutstanding := true }

/-- `wmgr::file_header_check`. -/
def fileHeaderCheck (g : Geom) (rid : Nat) (cont : Bool) (recDblksRem : Nat) : WmgrM Unit := do
  let s ← get
  if (s.fcntls s.fcIndex).wrSubm = 0 then writeFhdr g rid (g.fro cont recDblksRem)
  else pure ()

/-- One turn of an operation's loop up to `flush_check`: whether the record is complete. -/
def encodePart (g : Geom) (op : OpType) (r : JRec) (tok : Nat) (cont : Bool) : WmgrM Bool := do
  let offs := ((← get).toks tok).dblksWritten
  encode g r tok
  let done := r.recSizeDblks ≤ ((← get).toks tok).dblksWritten
  if done then completeRecord op r tok
  else modTok tok fun t => { t with wstate := op.part }
  fileHeaderCheck g r.rid cont (r.recSizeDblks - offs)
  pure done

/-- `fcntl::add_wr_cmpl_cnt_dblks` and `decr_aio_cnt`. -/
def writeReturned (fid dblks : Nat) : WmgrM Unit := do
  let f := (← get).fcntls fid
  if f.wrSubm < f.wrCmpl + dblks then throw .cmplOffsOvfl
  else if f.aioCnt = 0 then throw .underflow
  else modFcntl fid fun f => { f with wrCmpl := f.wrCmpl + dblks, aioCnt := f.aioCnt - 1 }

/-- `_txn_pending_set.erase(xid)`. -/
def eraseTxnPending (xid : Xid) : WmgrM Unit := do
  let s ← get
  if xid ∈ s.txnPending then set { s with txnPending := s.txnPending.erase xid }
  else throw .mapNotFound

/-- `set_aio_compl`, its result ignored. -/
def setAioCompl (xid : Xid) (rid : Nat) : WmgrM Unit :=
  modify fun s => { s with maps := { s.maps with
    tmap := (s.maps.tmap.setAioCompl xid rid).toOption.getD s.maps.tmap } }

/-- The switch of `wmgr::get_events` on a token all of whose writes have returned: whether it goes to
the callback. -/
def tokCompleted (tok : Nat) : WmgrM Bool := do
  let t := (← get).toks tok
  match t.wstate.submOp with
  | some op => do
    modTok tok fun t => { t with wstate := op.compl }
    match op with
    | .enqueue => if t.xid ≠ [] then setAioCompl t.xid t.rid else pure ()
    | .dequeue => if t.xid ≠ [] then setAioCompl t.xid t.rid else pure ()
    | .abort => eraseTxnPending t.xid
    | .commit => eraseTxnPending t.xid
    pure true
  | none => if t.wstate.isPart then pure false else throw .badDtokState

def tokReturned (tok : Nat) : WmgrM Bool := do
  let t := (← get).toks tok
  if t.pgCnt = 0 then throw .assertFailed
  else do
    modTok tok fun t => { t with pgCnt := t.pgCnt - 1 }
    if t.pgCnt = 1 then tokCompleted tok else pure false

def toksReturned : List Nat → WmgrM (List Nat)
  | [] => pure []
  | tok :: toks => do
    let b ← tokReturned tok
    let l ← toksReturned toks
    pure (if b then tok :: l else l)

/-- One event of `wmgr::get_events`, from a write that is outstanding. -/
def eventReturned (i : Nat) : WmgrM Unit := do
  let s ← get
  if i ∉ s.pending then pure ()
  else if s.aioEvtRem = 0 then throw .underflow
  else do
    set { s with aioEvtRem := s.aioEvtRem - 1, pending := s.pending.erase i }
    match s.subm[i]? with
    | none => pure ()
    | some w =>
      match w.page with
      | some pg => do
        let toks ← toksReturned (s.pages pg).pdtokl
        writeReturned (s.pages pg).wfh (s.pages pg).wdblks
        modPage pg fun p => { p with pdtokl := [], state := .unused }
        modify fun s => { s with acked := s.acked ++ toks.map fun tok => (tok, s.toks tok) }
      | none => do
        writeReturned w.fid jrnlSblkSize
        modFcntl w.fid fun f => { f with wrFhdrAioOutstanding := false }

/-- `wmgr::get_events`, the writes `evs` having returned if they are outstanding. Where it waits without
a timeout, as in `write_flush`, it comes back with none of them only on -EINTR. -/
def getEvents (evs : List Nat) : WmgrM Unit := do
  let s ← get
  if s.aioEvtRem = 0 then pure () else evs.forM eventReturned

def rounded (g : Geom) (s : Wmgr) : Wmgr :=
  let n := sizeBlks s.cached jrnlSblkSize * jrnlSblkSize - s.cached
  let p := s.pages s.pgIndex
  { s with
    pages := Function.update s.pages s.pgIndex { p with
      buff := fun i => if s.pgOffset ≤ i ∧ i < s.pgOffset + n then .filler else p.buff i }
    pgOffset := s.pgOffset + n
    cached := s.cached + n
    tape := fun i => if s.pos g ≤ i ∧ i < s.pos g + n then .filler else s.tape i }

/-- `wmgr::dblk_roundup`. -/
def dblkRoundup (g : Geom) : WmgrM Unit := modify fun s => s.rounded g

/-- `wmgr::rotate_page`. -/
def rotatePage (g : Geom) : WmgrM Unit := do
  let s ← get
  modPage s.pgIndex fun p => { p with state := .aioPending }
  if g.pgDblks ≤ s.pgOffset then modify fun s => { s with pgOffset := 0, pgCntr := s.pgCntr + 1 }
  else pure ()
  modify fun s => { s with
    pgIndex := if g.numPages ≤ s.pgIndex + 1 then 0 else s.pgIndex + 1 }

def takePage : WmgrM Unit := do
  let s ← get
  if (s.pages s.pgIndex).state = .unused then modPage s.pgIndex fun p => { p with state := .inUse }
  else pure ()

/-- `wmgr::write_flush` where there is something to flush and the page is in use. -/
def submitPage (g : Geom) : WmgrM Unit := do
  dblkRoundup g
  let s ← get
  let p := s.pages s.pgIndex
  let offs := s.pgOffset - s.cached
  modPage s.pgIndex fun p => { p with wdblks := s.cached, wfh := s.fcIndex }
  submit ⟨s.fcIndex, (s.fcntls s.fcIndex).wrSubm, s.cached, fun i => p.buff (offs + i),
    some s.pgIndex, s.rot⟩
  addSubmCntDblks g s.cached
  modFcntl s.fcIndex fun f => { f with aioCnt := f.aioCnt + 1 }
  modify fun s => { s with aioEvtRem := s.aioEvtRem + 1, cached := 0 }
  rotatePage g
  takePage

/-- `wmgr::write_flush`, the writes `evs` having returned by its end. -/
def writeFlush (g : Geom) (evs : List Nat) : WmgrM Iores := do
  let s ← get
  let res ←
    if s.cached = 0 then pure Iores.success
    else match (s.pages s.pgIndex).state with
      | .aioPending => pure .pageAioWait
      | .inUse => do
        submitPage g
        pure .success
      | _ => throw .badPgState
  getEvents evs
  takePage
  pure res

/-- `wmgr::flush_check`: result, `cont` and `done`. -/
def flushCheck (g : Geom) (cont done : Bool) (evs : List Nat) : WmgrM (Iores × Bool × Bool) := do
  let s ← get
  if s.pgOffset < g.pgDblks then pure (.success, cont, done)
  else do
    let res ← writeFlush g evs
    if res ≠ .success then throw .assertFailed
    else do
      let s ← get
      let wait := (s.pages s.pgIndex).state = .aioPending && !done
      if s.pgCntr < g.jfsizePgs then
        pure (if wait then .pageAioWait else .success, cont, done || wait)
      else do
        let rfres ← rotateFile g
        let res := if rfres ≠ .success then rfres else if wait then .pageAioWait else .success
        if done || wait then pure (res, cont, true)
        else pure (res, cont || rfres = .success, rfres ≠ .success)

/-- `wmgr::flush`. -/
def flush (g : Geom) (evs : List Nat) : WmgrM Iores := do
  let res ← writeFlush g evs
  let s ← get
  if s.pgCntr < g.jfsizePgs then pure res
  else do
    let rfres ← rotateFile g
    pure (if rfres ≠ .success then rfres else res)

/-- The test of `wmgr::is_txn_synced`: no operation of the transaction is without its completion mark,
and no commit or abort is in `_txn_pending_set`. -/
def txnSynced (tmap : TxnMap) (txnPending : List Xid) (xid : Xid) : Bool :=
  tmap.isTxnSynced xid ≠ some false && xid ∉ txnPending

def isTxnSynced (s : Wmgr) (xid : Xid) : Bool := txnSynced s.maps.tmap s.txnPending xid

end Wmgr

end RhmStore
