import RhmStore.Store.Tpl

/-! # Recovery of the messages

While the queues are recovered, one after the other, the broker is given their messages. What the
prepared transactions have enqueued or dequeued is decided before their completion, from the entries
of the TPL. -/

namespace RhmStore

open Std

/-- `LockedMappings`: queues, each with a message. -/
abbrev LockedMappings := List (Nat × Nat)

structure PreparedTransaction where
  xid : Xid
  enqueues : LockedMappings
  dequeues : LockedMappings
  deriving DecidableEq, Repr

namespace PreparedTransaction

def isLocked (t : PreparedTransaction) (queue message : Nat) : Bool :=
  t.enqueues.contains (queue, message) || t.dequeues.contains (queue, message)

def getLockedPreparedTransaction (txns : List PreparedTransaction) (queue message : Nat) :
    Option PreparedTransaction :=
  txns.find? fun t => t.isLocked queue message

end PreparedTransaction

/-- The list that `recoverLockedMappings` makes, without mappings. -/
def preparedTransactions (rm : TplRecoverMap) : List PreparedTransaction :=
  (recoverLockedMappings rm).map fun x => ⟨x, [], []⟩

/-- The end of `JournalImpl::recover` populates the list. -/
def populate (queue : Nat) (tmap : TxnMap) (txns : List PreparedTransaction) : List PreparedTransaction :=
  txns.map fun t =>
    let tdl := tmap.getTdataList t.xid
    { t with
      enqueues := t.enqueues ++ (tdl.filter fun td => td.enqFlag).map fun td => (queue, td.rid)
      dequeues := t.dequeues ++ (tdl.filter fun td => !td.enqFlag).map fun td => (queue, td.drid) }

/-- The exceptions of `recoverMessages`. -/
inductive MsgErr
  | notImplemented
  | xidNotFound
  | assertFailed
  | aioTimeout
  | unexpectedRead
  deriving DecidableEq, Repr

/-- One call of `read_data_record`. -/
inductive MsgRead
  | success (rid : Nat) (externalFlag : Bool)
  | pageAioWait
  | other
  deriving DecidableEq, Repr

/-- What happens to a message that was read. -/
inductive Verdict
  | recover
  | inDoubt
  | skip
  deriving DecidableEq, Repr

/-- The decision of `recoverMessages` over a message. -/
def verdict (m : Maps) (rm : TplRecoverMap) (prepared : List PreparedTransaction) (queue rid : Nat) :
    Except MsgErr Verdict :=
  match PreparedTransaction.getLockedPreparedTransaction prepared queue rid with
  | none => .ok .recover
  | some i =>
    match rm[i.xid]? with
    | none => .error .xidNotFound
    | some t =>
      if t.deqFlag || !t.tpcFlag then
        if m.emap.isEnqueued rid true then
          match m.emap.isLocked rid with
          | .ok true => .ok (if t.commitFlag then .skip else .recover)
          | _ => .error .assertFailed
        else
          let txnList := m.tmap.getTdataList i.xid
          let enq := txnList.any fun j => j.enqFlag && j.rid == rid
          let deq := txnList.any fun j => !j.enqFlag && j.drid == rid
          .ok (if enq && !deq && t.commitFlag then .recover else .skip)
      else .ok .inDoubt

/-- The messages given to their queues, with the queue, and the index `messages`. -/
structure RecoveredMsgs where
  given : List (Nat × Nat)
  messages : List Nat
  deriving DecidableEq, Repr

def RecoveredMsgs.add (r : RecoveredMsgs) (queue rid : Nat) : Verdict → RecoveredMsgs
  | .recover => { r with given := r.given ++ [(queue, rid)] }
  | .inDoubt => { r with messages := r.messages ++ [rid] }
  | .skip => r

/-- The loop of `recoverMessages` with `aio_sleep_cnt`. After the results listed comes
RHM_IORES_EMPTY. -/
def recoverMessages (m : Maps) (rm : TplRecoverMap) (prepared : List PreparedTransaction) (queue : Nat) :
    List MsgRead → Nat → RecoveredMsgs → Except MsgErr RecoveredMsgs
  | [], _, r => .ok r
  | .success rid externalFlag :: rs, _, r =>
    if externalFlag then .error .notImplemented
    else do
      let v ← verdict m rm prepared queue rid
      recoverMessages m rm prepared queue rs 0 (r.add queue rid v)
  | .pageAioWait :: rs, cnt, r =>
    if maxAioSleeps < cnt + 1 then .error .aioTimeout
    else recoverMessages m rm prepared queue rs (cnt + 1) r
  | .other :: _, _, _ => .error .unexpectedRead

/-- The loop of `recoverQueues` over the queues in the database: the journal is recovered, that is
its maps are there, then its messages are. -/
def recoverQueues (maps : Nat → Maps) (rm : TplRecoverMap) (reads : Nat → List MsgRead) :
    List Nat → List PreparedTransaction → RecoveredMsgs → Except MsgErr (List PreparedTransaction × RecoveredMsgs)
  | [], prepared, r => .ok (prepared, r)
  | q :: qs, prepared, r => do
    let prepared' := populate q (maps q).tmap prepared
    let r' ← recoverMessages (maps q) rm prepared' q (reads q) 0 r
    recoverQueues maps rm reads qs prepared' r'

def JRec.isExternal : JRec → Bool
  | .enq _ _ _ _ external => external
  | _ => false

/-- What the reader delivers of the records: the rids, and whether the content is external. -/
def deliveredMsgs (m : Maps) (log : List Placed) : List (Nat × Bool) :=
  (log.filter fun p => rmgrReads m p.jrec).map fun p => (p.jrec.rid, p.jrec.isExternal)

/-- The results of `read_data_record` deliver `es`, with fewer waits in a row than the limit. -/
inductive DeliversMsgs : Nat → List (Nat × Bool) → List MsgRead → Prop
  | done (cnt : Nat) : DeliversMsgs cnt [] []
  | wait {cnt : Nat} {es : List (Nat × Bool)} {rs : List MsgRead} : cnt + 1 ≤ maxAioSleeps →
      DeliversMsgs (cnt + 1) es rs → DeliversMsgs cnt es (.pageAioWait :: rs)
  | read {cnt : Nat} {es : List (Nat × Bool)} {rs : List MsgRead} (rid : Nat) (externalFlag : Bool) :
      DeliversMsgs 0 es rs → DeliversMsgs cnt ((rid, externalFlag) :: es) (.success rid externalFlag :: rs)

/-- A reader that never waits. -/
theorem DeliversMsgs.of_success (es : List (Nat × Bool)) (cnt : Nat) :
    DeliversMsgs cnt es (es.map fun e => .success e.1 e.2) := by
  induction es generalizing cnt with
  | nil => exact .done cnt
  | cons e es ih => exact .read e.1 e.2 (ih 0)

section Loops

variable {m : Maps} {rm : TplRecoverMap} {prepared : List PreparedTransaction} {queue : Nat}

/-- The loop goes through what is delivered, however long it waits. -/
theorem recoverMessages_eq {cnt : Nat} {es : List (Nat × Bool)} {rs : List MsgRead}
    (h : DeliversMsgs cnt es rs) (hint : ∀ e ∈ es, e.2 = false) {v : Nat → Verdict}
    (hv : ∀ e ∈ es, verdict m rm prepared queue e.1 = .ok (v e.1)) (r : RecoveredMsgs) :
    recoverMessages m rm prepared queue rs cnt r =
      .ok (es.foldl (fun r e => r.add queue e.1 (v e.1)) r) := by
  induction h generalizing r with
  | done cnt => rfl
  | wait hle _ ih =>
    rw [recoverMessages, if_neg (Nat.not_lt.mpr hle)]
    exact ih hint hv r
  | @read cnt es rs rid ext _ ih =>
    obtain rfl : ext = false := hint _ List.mem_cons_self
    have hok := hv _ List.mem_cons_self
    simp only [recoverMessages, Bool.false_eq_true, if_false, List.foldl_cons]
    rw [hok]
    exact ih (fun e he => hint e (List.mem_cons_of_mem _ he)) (fun e he => hv e (List.mem_cons_of_mem _ he)) _

theorem verdict_of_recoverMessages {cnt : Nat} {es : List (Nat × Bool)} {rs : List MsgRead}
    (h : DeliversMsgs cnt es rs) {r r' : RecoveredMsgs}
    (hok : recoverMessages m rm prepared queue rs cnt r = .ok r') :
    ∀ e ∈ es, ∃ v, verdict m rm prepared queue e.1 = .ok v := by
  induction h generalizing r with
  | done cnt => exact fun e he => absurd he List.not_mem_nil
  | wait hle _ ih =>
    rw [recoverMessages, if_neg (Nat.not_lt.mpr hle)] at hok
    exact ih hok
  | @read cnt es rs rid ext _ ih =>
    cases ext with
    | true => cases hok
    | false =>
      simp only [recoverMessages, Bool.false_eq_true, if_false] at hok
      cases hv : verdict m rm prepared queue rid with
      | error err =>
        rw [hv] at hok
        cases hok
      | ok v =>
        rw [hv] at hok
        intro e he
        rcases List.mem_cons.mp he with rfl | he
        · exact ⟨v, hv⟩
        · exact ih hok e he

theorem foldl_add (es : List (Nat × Bool)) (v : Nat → Verdict) (r : RecoveredMsgs) :
    (es.foldl (fun r e => r.add queue e.1 (v e.1)) r).given =
        r.given ++ ((es.filter fun e => v e.1 = .recover).map fun e => (queue, e.1)) ∧
      (es.foldl (fun r e => r.add queue e.1 (v e.1)) r).messages =
        r.messages ++ ((es.filter fun e => v e.1 = .inDoubt).map fun e => e.1) := by
  induction es generalizing r with
  | nil => simp
  | cons e es ih =>
    rw [List.foldl_cons]
    obtain ⟨hg, hm⟩ := ih (r.add queue e.1 (v e.1))
    rw [hg, hm]
    cases hv : v e.1 with
    | recover => simp [RecoveredMsgs.add, hv]
    | inDoubt => simp [RecoveredMsgs.add, hv]
    | skip => simp [RecoveredMsgs.add, hv]

end Loops

end RhmStore
