import RhmStore.Jrnl.Wmgr

/-! # A journal in use

The operations of `jcntl` call `wmgr` until it need not wait for AIO. They hold `_wr_mutex`
throughout, so one is at its end before the next one starts. -/

namespace RhmStore

/-- A call of `jcntl` that writes a record. -/
inductive Call
  | enqueue (tok totDataLen thisDataLen : Nat) (xid : Xid) (transient external : Bool)
  | dequeue (tok : Nat) (xid : Xid) (txnComlCommit : Bool)
  | abort (tok : Nat) (xid : Xid)
  | commit (tok : Nat) (xid : Xid)
  deriving DecidableEq, Repr

namespace Call

def op : Call → OpType
  | enqueue .. => .enqueue
  | dequeue .. => .dequeue
  | abort .. => .abort
  | commit .. => .commit

def tok : Call → Nat
  | enqueue tok .. => tok
  | dequeue tok .. => tok
  | abort tok .. => tok
  | commit tok .. => tok

/-- The call of `wmgr`, up to its loop. -/
def enter (g : Geom) : Call → WmgrM Wmgr.Entry
  | enqueue tok totDataLen thisDataLen xid transient external =>
    Wmgr.enqueue g tok totDataLen thisDataLen xid transient external
  | dequeue tok xid txnComlCommit => Wmgr.dequeue g tok xid txnComlCommit
  | abort tok xid => Wmgr.abort g tok xid
  | commit tok xid => Wmgr.commit g tok xid

def jrec (t : DataTok) : Call → JRec
  | enqueue _ totDataLen _ xid transient external => .enq t.rid xid totDataLen transient external
  | dequeue _ xid txnComlCommit => .deq t.rid t.dequeueRid xid txnComlCommit
  | abort _ xid => .txa t.rid xid
  | commit _ xid => .txc t.rid xid

end Call

/-- Where a call stands: no call, at the head of the loop, before `flush_check`, or in one of the
loops of `handle_aio_wait`. `failed` is after an exception from within the loops or from a flush. -/
inductive Ctl
  | idle
  | encode (c : Call) (r : JRec) (cont : Bool)
  | check (c : Call) (r : JRec) (cont done : Bool)
  | pageWait (c : Call)
  | fileWait (c : Call)
  | failed
  deriving DecidableEq, Repr

/-- A journal with the call it is in, and the call whose record it has written in part. -/
structure Sys where
  w : Wmgr
  ctl : Ctl
  part : Option Call

/-- A user makes a new token, calls, or flushes; AIO writes return while a call goes on
(`step`), are collected by `get_wr_events`, or return during a flush. -/
inductive Act
  | token (tok : Nat) (t : DataTok)
  | call (c : Call)
  | step (evs : List Nat)
  | collect (evs : List Nat)
  | flush (evs : List Nat)
  deriving DecidableEq, Repr

namespace Sys

def init (g : Geom) : Sys := ⟨Wmgr.init g, .idle, none⟩

def recovered (g : Geom) (rd : Wmgr.Rcvdat) : Sys := ⟨Wmgr.recovered g rd, .idle, none⟩

/-- A token that its user may still set or set again: no record of it is in progress. -/
def free (t : DataTok) : Bool := t.pgCnt = 0 && !t.wstate.isPart

/-- A token as its user makes it, to enqueue with or to dequeue what is in the journal. -/
def pristine (t : DataTok) : Bool :=
  t.pgCnt = 0 && t.dblksWritten = 0 && (t.wstate = .none || t.wstate = .enq)

/-- What the caller of `wmgr` does with its result: `jcntl::handle_aio_wait`. -/
def handle (c : Call) (res : Iores) (w : Wmgr) : Sys :=
  let part := if (w.toks c.tok).wstate.isPart then some c else none
  match res with
  | .pageAioWait => ⟨w, .pageWait c, part⟩
  | .fileAioWait => ⟨w, .fileWait c, part⟩
  | _ => ⟨w, .idle, part⟩

/-- A call of `wmgr`. What it throws before its loop goes to the user. -/
def enter (g : Geom) (s : Sys) (c : Call) : Sys :=
  match c.enter g s.w with
  | .ok (.encode r cont) w => ⟨w, .encode c r cont, s.part⟩
  | .ok (.done .pageAioWait) w => ⟨w, .pageWait c, s.part⟩
  | .ok (.done _) w => ⟨w, .idle, s.part⟩
  | .error .assertFailed w => ⟨w, .failed, s.part⟩
  | .error _ w => ⟨w, .idle, s.part⟩

def proceed (g : Geom) (s : Sys) (evs : List Nat) : Option Sys :=
  match s.ctl with
  | .idle => none
  | .failed => none
  | .encode c r cont =>
    match Wmgr.encodePart g c.op r c.tok cont s.w with
    | .ok done w => some ⟨w, .check c r cont done, s.part⟩
    | .error _ w => some ⟨w, .failed, s.part⟩
  | .check c r cont done =>
    match Wmgr.flushCheck g cont done evs s.w with
    | .ok (_, cont, false) w => some ⟨w, .encode c r cont, s.part⟩
    | .ok (res, _, true) w =>
      some (handle c res (if (w.toks c.tok).wstate.atLeast c.op.subm then
        { w with busy := Function.update w.busy c.op false } else w))
    | .error _ w => some ⟨w, .failed, s.part⟩
  | .pageWait c =>
    if (s.w.pages s.w.pgIndex).state = .unused then some (s.enter g c)
    else
      match Wmgr.getEvents evs s.w with
      | .ok _ w => some ⟨w, .pageWait c, s.part⟩
      | .error _ w => some ⟨w, .failed, s.part⟩
  | .fileWait c =>
    if (s.w.fcntls s.w.fcIndex).aioCnt = 0 then
      match Wmgr.wrReset s.w with
      | .ok _ w =>
        if (w.toks c.tok).wstate.isPart then some (enter g ⟨w, .idle, s.part⟩ c)
        else some ⟨w, .idle, s.part⟩
      | .error _ w => some ⟨w, .failed, s.part⟩
    else
      match Wmgr.getEvents evs s.w with
      | .ok _ w => some ⟨w, .fileWait c, s.part⟩
      | .error _ w => some ⟨w, .failed, s.part⟩

/-- A call that a user makes with its token: one written in part is only used for the rest of its
record. `abort` and `commit` do not check their token, which is a new one or a free one. -/
def given (s : Sys) (c : Call) : Bool :=
  let t := s.w.toks c.tok
  s.part = some c || !t.wstate.isPart && (c.op = .enqueue || c.op = .dequeue || free t)

def step (g : Geom) (s : Sys) : Act → Option Sys
  | .token tok t =>
    if s.ctl = .idle ∧ free (s.w.toks tok) ∧ pristine t then
      some { s with w := { s.w with toks := Function.update s.w.toks tok t } }
    else none
  | .call c =>
    if s.ctl = .idle ∧ s.given c then some (s.enter g c)
    else none
  | .step evs => s.proceed g evs
  | .collect evs =>
    if s.ctl = .idle ∨ s.ctl = .failed then
      match Wmgr.getEvents evs s.w with
      | .ok _ w => some { s with w := w }
      | .error _ w => some { s with w := w, ctl := .failed }
    else none
  | .flush evs =>
    if s.ctl = .idle ∨ s.ctl = .failed then
      match Wmgr.flush g evs s.w with
      | .ok _ w => some { s with w := w }
      | .error _ w => some { s with w := w, ctl := .failed }
    else none

def run (g : Geom) (s : Sys) : List Act → Option Sys
  | [] => some s
  | a :: acts => (s.step g a).bind fun s' => s'.run g acts

end Sys

end RhmStore
