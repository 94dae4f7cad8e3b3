import RhmStore.Lib.Wal
import RhmStore.Store.Tpl
import RhmStore.Log.Journal
import RhmStore.Jrnl.Wmgr

/-! # Transactions over several queues

Each queue has a journal, and the TPL is one more. The writes of a journal return in any order.
`TxnCtxt::sync` waits for those of its transaction, by `is_txn_synced`; of the disk it is assumed that
a recovery replays a front part of the records, with all that a `sync` has waited for. A journal keeps
all its records here: that a file of the ring is used again is left out. -/

namespace RhmStore

open Function

/-- A journal of the store: its records, with the part that syncs have waited for, its maps with
`_txn_pending_set`, and the rids of the records whose writes are outstanding. -/
structure Jnl where
  log : Wal DataRec
  maps : Maps
  txnPending : List Xid
  out : List Nat

/-- What a commit or abort adds to `_txn_pending_set`. -/
def JRec.ended : JRec → List Xid
  | .txa _ x => [x]
  | .txc _ x => [x]
  | _ => []

namespace Jnl

def init (files : Nat) : Jnl := ⟨Wal.empty, Maps.init files, [], []⟩

def recs (j : Jnl) : List Placed := placeds j.log.recs

def durable (j : Jnl) : List Placed := placeds j.log.durable

/-- An operation of a journal that succeeds. `messageIdSequence` gives its record an id that no
record of the journal has. -/
def write (j : Jnl) (w : DataRec) : Option Jnl :=
  if w.placed.jrec.rid ∈ dataRids j.log.recs ∨ w.placed.jrec.isTransient = true then none
  else
    match Maps.perform w.placed.fid w.placed.jrec j.maps with
    | .ok _ m =>
      some ⟨j.log.append w, m, w.placed.jrec.ended ++ j.txnPending, w.placed.jrec.rid :: j.out⟩
    | .error _ _ => none

/-- `set_aio_compl`, its result ignored. -/
def setAioCompl (j : Jnl) (xid : Xid) (rid : Nat) : Jnl :=
  { j with maps := { j.maps with tmap := (j.maps.tmap.setAioCompl xid rid).toOption.getD j.maps.tmap } }

/-- What `wmgr::get_events` does when the last write of a record has returned. -/
def returned (j : Jnl) (rid : Nat) : Jnl :=
  let j' := { j with out := j.out.erase rid }
  match j.log.recs.find? fun w => w.placed.jrec.rid = rid with
  | none => j
  | some w =>
    match w.placed.jrec with
    | .enq _ x _ _ _ => if x ≠ [] then j'.setAioCompl x rid else j'
    | .deq _ _ x _ => if x ≠ [] then j'.setAioCompl x rid else j'
    | .txa _ x => { j' with txnPending := j.txnPending.erase x }
    | .txc _ x => { j' with txnPending := j.txnPending.erase x }

def isTxnSynced (j : Jnl) (x : Xid) : Bool := Wmgr.txnSynced j.maps.tmap j.txnPending x

def waitedFor (j : Jnl) (x : Xid) : Jnl :=
  { j with log := j.log.syncFor fun w => w.placed.jrec.xid = x }

/-- `JournalImpl::recover` of what a crash left, with the prepared transactions. -/
def recover (files : Nat) (log : Wal DataRec) (prepared : List Xid) : Option Jnl :=
  match janalyze files (placeds log.recs) prepared with
  | .ok _ m => some ⟨log, m, [], []⟩
  | .error _ _ => none

end Jnl

/-- How far a transaction has come. In `closing` the queues are left that `completeTxn` has not yet
written to. -/
inductive Phase
  | active
  | preparing
  | prepared
  | decided
  | closing (todo : List Nat)
  deriving DecidableEq, Repr

/-- `TxnCtxt`. `commit` is the call under way, `tplRid` the rid of the TPL record. -/
structure TxnCtxt where
  tpc : Bool
  impactedQueues : List Nat
  phase : Phase
  commit : Option Bool
  tplRid : Option Nat
  deriving DecidableEq, Repr

/-- The store. The last fields are history: the operations ever written to each queue, those lost in
a crash included; the xids ever begun; the calls of `commit` and `abort`; the local transactions
that a restart found prepared and not decided. -/
structure TxnSys where
  queues : Nat → Jnl
  tpl : Jnl
  ctxs : Xid → Option TxnCtxt
  wrote : Nat → List Placed
  begun : List Xid
  called : List (Xid × Bool)
  rolled : List Xid

/-- What can happen: a call of a client, the next step of one that is under way, the return of a
record's write, a crash with the recovery after it. -/
inductive TxnAct
  | begin (x : Xid) (tpc : Bool)
  | store (q : Nat) (w : DataRec)
  | call (x : Xid) (commit : Bool)
  | drop (x : Xid)
  | tplEnqueue (x : Xid) (rid fid : Nat)
  | prepareSynced (x : Xid)
  | completed (x : Xid) (rid fid : Nat)
  | completeSynced (x : Xid)
  | commitTxn (x : Xid) (q rid fid : Nat)
  | commitTxnTpl (x : Xid) (rid fid : Nat)
  | returned (q rid : Nat)
  | returnedTpl (rid : Nat)
  | crash (tplKept : Nat) (kept : Nat → Nat)

def JRec.isOp : JRec → Bool
  | .enq _ _ _ _ _ => true
  | .deq _ _ _ _ => true
  | _ => false

namespace TxnSys

/-- An initialised store with its queues created: files of each journal, files of the TPL. -/
def init (files tplFiles : Nat) : TxnSys :=
  ⟨fun _ => Jnl.init files, Jnl.init tplFiles, fun _ => none, fun _ => [], [], [], []⟩

def setCtx (s : TxnSys) (x : Xid) (c : Option TxnCtxt) : TxnSys := { s with ctxs := update s.ctxs x c }

def setQueue (s : TxnSys) (q : Nat) (j : Jnl) : TxnSys := { s with queues := update s.queues q j }

/-- `MessageStoreImpl::begin`. -/
def begin (s : TxnSys) (x : Xid) (tpc : Bool) : TxnSys :=
  { s.setCtx x (some ⟨tpc, [], .active, none, none⟩) with begun := x :: s.begun }

/-- `enqueue` and `dequeue`, in the transaction of the record's xid if it has one. -/
def store (s : TxnSys) (q : Nat) (w : DataRec) : Option TxnSys :=
  let x := w.placed.jrec.xid
  if w.placed.jrec.isOp = false then none
  else
    match (s.queues q).write w with
    | none => none
    | some j =>
      let s' := { s.setQueue q j with wrote := update s.wrote q (s.wrote q ++ [w.placed]) }
      if x = [] then some s'
      else
        match s.ctxs x with
        | none => none
        | some c =>
          if c.phase = .active ∧ c.commit = none then
            some (s'.setCtx x (some { c with impactedQueues := c.impactedQueues.insert q }))
          else none

/-- `commit` and `abort` are called. A local transaction without operations is gone. The broker
commits only those distributed transactions that it prepared. -/
def call (s : TxnSys) (x : Xid) (commit : Bool) : Option TxnSys :=
  match s.ctxs x with
  | none => none
  | some c =>
    let s' := { s with called := (x, commit) :: s.called }
    if c.commit ≠ none then none
    else if c.tpc then
      if c.phase = .prepared ∨ c.phase = .active ∧ commit = false then
        some (s'.setCtx x (some { c with commit := some commit }))
      else none
    else if c.phase = .active then
      if c.impactedQueues = [] then some (s'.setCtx x none)
      else some (s'.setCtx x (some { c with commit := some commit }))
    else none

def drop (s : TxnSys) (x : Xid) : Option TxnSys :=
  match s.ctxs x with
  | none => none
  | some c => if c.phase = .active ∧ c.commit = none then some (s.setCtx x none) else none

/-- `TxnCtxt::sync` has returned. The TPL is in it from the prepare on. -/
def sync (s : TxnSys) (x : Xid) (c : TxnCtxt) : Option TxnSys :=
  if (∀ q ∈ c.impactedQueues, (s.queues q).isTxnSynced x) ∧ (c.tplRid.isSome → s.tpl.isTxnSynced x) then
    some { s with
      queues := fun q => if q ∈ c.impactedQueues then (s.queues q).waitedFor x else s.queues q
      tpl := if c.tplRid.isSome then s.tpl.waitedFor x else s.tpl }
  else none

/-- The `sync` of `TxnCtxt::commitTxn`, which an abort does not do. -/
def syncCommit (s : TxnSys) (commit : Bool) (x : Xid) (c : TxnCtxt) : Option TxnSys :=
  if commit then s.sync x c else some s

/-- `localPrepare` to its record in the TPL: for a local transaction from `commit` or `abort`, for a
distributed one before these. -/
def tplEnqueue (s : TxnSys) (x : Xid) (rid fid : Nat) : Option TxnSys := do
  let c ← s.ctxs x
  if c.phase = .active ∧ c.commit.isSome = !c.tpc then
    let s ← s.sync x c
    let j ← s.tpl.write ⟨⟨.enq rid x 1 false false, fid⟩, [if c.tpc then 1 else 0]⟩
    some ({ s with tpl := j }.setCtx x (some { c with phase := .preparing, tplRid := some rid }))
  else none

/-- The rest of `localPrepare`. -/
def prepareSynced (s : TxnSys) (x : Xid) : Option TxnSys := do
  let c ← s.ctxs x
  if c.phase = .preparing then
    let s ← s.sync x c
    some (s.setCtx x (some { c with phase := .prepared }))
  else none

/-- `completed` to the call of `TxnCtxt::complete`: the outcome goes to the TPL, unless the
transaction was not prepared. -/
def completed (s : TxnSys) (x : Xid) (rid fid : Nat) : Option TxnSys :=
  match s.ctxs x with
  | none => none
  | some c =>
    match c.commit, c.tplRid with
    | some commit, some erid =>
      if c.phase = .prepared then
        match s.tpl.write ⟨⟨.deq rid erid x commit, fid⟩, []⟩ with
        | none => none
        | some j => some ({ s with tpl := j }.setCtx x (some { c with phase := .decided }))
      else none
    | some _, none =>
      if c.phase = .active ∧ c.tpc then some (s.setCtx x (some { c with phase := .decided })) else none
    | none, _ => none

/-- The first `sync` of `completeTxn`. -/
def completeSynced (s : TxnSys) (x : Xid) : Option TxnSys := do
  let c ← s.ctxs x
  if c.phase = .decided then
    let s ← s.sync x c
    some (s.setCtx x (some { c with phase := .closing c.impactedQueues }))
  else none

/-- `TxnCtxt::commitTxn` on a queue, in any order of the queues. For a commit the `sync` after the
one before has returned. -/
def commitTxn (s : TxnSys) (x : Xid) (q rid fid : Nat) : Option TxnSys := do
  let c ← s.ctxs x
  let commit ← c.commit
  match c.phase with
  | .closing todo =>
    if q ∈ todo then
      let s ← s.syncCommit commit x c
      let j ← (s.queues q).write ⟨⟨if commit then .txc rid x else .txa rid x, fid⟩, []⟩
      some ((s.setQueue q j).setCtx x (some { c with phase := .closing (todo.erase q) }))
    else none
  | _ => none

/-- `commitTxn` on the TPL, for a transaction that was prepared, is the end. -/
def commitTxnTpl (s : TxnSys) (x : Xid) (rid fid : Nat) : Option TxnSys := do
  let c ← s.ctxs x
  let commit ← c.commit
  if c.phase = .closing [] then
    let s ← s.syncCommit commit x c
    if c.tplRid.isSome then
      let j ← s.tpl.write ⟨⟨if commit then .txc rid x else .txa rid x, fid⟩, []⟩
      some ({ s with tpl := j }.setCtx x none)
    else some (s.setCtx x none)
  else none

def returned (s : TxnSys) (q rid : Nat) : TxnSys := s.setQueue q ((s.queues q).returned rid)

def returnedTpl (s : TxnSys) (rid : Nat) : TxnSys := { s with tpl := s.tpl.returned rid }

def openQueues (n : Nat) (queues : Nat → Jnl) (x : Xid) : List Nat :=
  (List.range n).filter fun q => (queues q).maps.tmap.getTdataList x ≠ []

/-- The context that `recover` makes for an entry of `tplRecoverMap`: with an outcome the completion
goes on, a local transaction is completed with the flag of the entry, a distributed one waits. -/
def recoverCtxt (n : Nat) (queues : Nat → Jnl) (x : Xid) (t : TplRecoverStruct) : TxnCtxt :=
  { tpc := t.tpcFlag
    impactedQueues := openQueues n queues x
    phase := if t.deqFlag then .decided else .prepared
    commit := if t.deqFlag || !t.tpcFlag then some t.commitFlag else none
    tplRid := some t.rid }

/-- A crash, and `MessageStoreImpl::recover` to the loop over the prepared transactions; its steps
are those of the contexts it makes. Of each journal `kept` says how many of the records are replayed,
which are at least those waited for. What the broker is given meanwhile is in `recoverQueues`. -/
def crash (n files tplFiles : Nat) (s : TxnSys) (tplKept : Nat) (kept : Nat → Nat) : Option TxnSys :=
  let tlog := s.tpl.log.crash tplKept
  match replay (placeds tlog.recs) (Maps.init tplFiles) with
  | .error _ _ => none
  | .ok _ tm =>
    match readTplStore tm.tmap ((delivered tm tlog.recs).map fun e => .success e.1 e.2) with
    | .error _ => none
    | .ok rm =>
      let found := fun q =>
        Jnl.recover files ((s.queues q).log.crash (kept q)) (recoverLockedMappings rm)
      if ∀ q < n, (found q).isSome then
        let queues := fun q => if q < n then (found q).getD (s.queues q) else s.queues q
        some { s with
          queues := queues
          tpl := ⟨tlog, tm, [], []⟩
          ctxs := fun x => (rm[x]?).map (recoverCtxt n queues x)
          rolled := (rm.toList.filter fun p => !p.2.deqFlag && !p.2.tpcFlag).map (·.1) ++ s.rolled }
      else none

/-- One step of a store with `n` queues. An xid is used once: a local transaction has the uuid of the
process and a counter in it, that of a distributed one the transaction manager makes unique. -/
def step (n files tplFiles : Nat) (s : TxnSys) : TxnAct → Option TxnSys
  | .begin x tpc => if x = [] ∨ x ∈ s.begun then none else some (s.begin x tpc)
  | .store q w => if q < n then s.store q w else none
  | .call x commit => s.call x commit
  | .drop x => s.drop x
  | .tplEnqueue x rid fid => s.tplEnqueue x rid fid
  | .prepareSynced x => s.prepareSynced x
  | .completed x rid fid => s.completed x rid fid
  | .completeSynced x => s.completeSynced x
  | .commitTxn x q rid fid => if q < n then s.commitTxn x q rid fid else none
  | .commitTxnTpl x rid fid => s.commitTxnTpl x rid fid
  | .returned q rid => if rid ∈ (s.queues q).out then some (s.returned q rid) else none
  | .returnedTpl rid => if rid ∈ s.tpl.out then some (s.returnedTpl rid) else none
  | .crash tplKept kept => s.crash n files tplFiles tplKept kept

def run (n files tplFiles : Nat) (s : TxnSys) : List TxnAct → Option TxnSys
  | [] => some s
  | a :: acts => (s.step n files tplFiles a).bind fun s' => s'.run n files tplFiles acts

end TxnSys

end RhmStore
