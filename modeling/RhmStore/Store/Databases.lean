import RhmStore.Jrnl.TxnMap
import RhmStore.Lib.Table
import RhmStore.Store.RecordIds

/-! # Queues, exchanges and bindings in the databases

Each change of the databases is a transaction of its own. To destroy a queue or an exchange takes two
of them, so that a crash, or a call of another thread, can come between. -/

namespace RhmStore

abbrev Str := List UInt8

/-- `BindingDbt`, the value of a binding under the id of its exchange. -/
structure BindingDbt where
  queueId : Rid
  queueName : Str
  routingKey : Str
  args : Str
  deriving DecidableEq, Repr

/-- The exceptions of `create` and `put`. -/
inductive CfgErr
  | queueAlreadyCreated (name : Str)
  | queueCreateFailed (name : Str)
  | queueAlreadyExists (name : Str)
  | exchangeAlreadyCreated
  | exchangeAlreadyExists
  | generalAlreadyCreated
  | generalAlreadyExists
  | duplicateData
  deriving DecidableEq, Repr

/-- The databases and the sequences of ids. -/
structure StoreDbs (σ τ : Type) where
  queueDb : σ
  exchangeDb : σ
  generalDb : σ
  bindingDb : τ
  queueIdSequence : IdSequence
  exchangeIdSequence : IdSequence
  generalIdSequence : IdSequence

structure Registry where
  queues : List (Rid × Str)
  exchanges : List (Rid × Str)
  generals : List (Rid × Str)
  bound : List (Rid × BindingDbt)
  deriving DecidableEq, Repr

namespace StoreDbs

variable {σ τ : Type} (T : Table σ Rid Str) (D : DupTable τ Rid BindingDbt)

def init : StoreDbs σ τ := ⟨T.empty, T.empty, T.empty, D.empty, ⟨1⟩, ⟨1⟩, ⟨1⟩⟩

/-- `create` of a record with the next id: the sequence, and the id with the table unless the id is
there. -/
def create (db : σ) (seq : IdSequence) (value : Str) : IdSequence × Option (Rid × σ) :=
  (seq.next.2, (T.put db seq.next.1 value).map fun db' => (seq.next.1, db'))

/-- `create` of a queue returns its id, or 0 for one without a name, which is ignored. `initialized` says
whether `initialize` of its journal returns. -/
def createQueue (persistenceId : Rid) (name : Str) (initialized : Bool) :
    EStateM CfgErr (StoreDbs σ τ) Rid := do
  if persistenceId ≠ 0 then throw (.queueAlreadyCreated name)
  if name = [] then return persistenceId
  if !initialized then throw (.queueCreateFailed name)
  let s ← get
  match create T s.queueDb s.queueIdSequence name with
  | (seq, some (id, db)) =>
    set { s with queueDb := db, queueIdSequence := seq }
    return id
  | (seq, none) =>
    set { s with queueIdSequence := seq }
    throw (.queueAlreadyExists name)

def createExchange (persistenceId : Rid) (value : Str) : EStateM CfgErr (StoreDbs σ τ) Rid := do
  if persistenceId ≠ 0 then throw .exchangeAlreadyCreated
  let s ← get
  match create T s.exchangeDb s.exchangeIdSequence value with
  | (seq, some (id, db)) =>
    set { s with exchangeDb := db, exchangeIdSequence := seq }
    return id
  | (seq, none) =>
    set { s with exchangeIdSequence := seq }
    throw .exchangeAlreadyExists

def createGeneral (persistenceId : Rid) (value : Str) : EStateM CfgErr (StoreDbs σ τ) Rid := do
  if persistenceId ≠ 0 then throw .generalAlreadyCreated
  let s ← get
  match create T s.generalDb s.generalIdSequence value with
  | (seq, some (id, db)) =>
    set { s with generalDb := db, generalIdSequence := seq }
    return id
  | (seq, none) =>
    set { s with generalIdSequence := seq }
    throw .generalAlreadyExists

/-- The first transaction of `destroy` of a queue. -/
def destroyQueue (id : Rid) (s : StoreDbs σ τ) : StoreDbs σ τ := { s with queueDb := T.del s.queueDb id }

/-- The first transaction of `destroy` of an exchange. -/
def destroyExchange (id : Rid) (s : StoreDbs σ τ) : StoreDbs σ τ :=
  { s with exchangeDb := T.del s.exchangeDb id }

def destroyGeneral (id : Rid) (s : StoreDbs σ τ) : StoreDbs σ τ :=
  { s with generalDb := T.del s.generalDb id }

def deleteBindingsForQueue (id : Rid) (s : StoreDbs σ τ) : StoreDbs σ τ :=
  { s with bindingDb := D.delLoop (fun b => b.2.queueId == id) (D.entries s.bindingDb) s.bindingDb }

def deleteBindingsOfExchange (id : Rid) (s : StoreDbs σ τ) : StoreDbs σ τ :=
  { s with bindingDb := D.del s.bindingDb id }

def bind (e q : Rid) (queueName key args : Str) : EStateM CfgErr (StoreDbs σ τ) Unit := do
  let s ← get
  match D.put s.bindingDb e ⟨q, queueName, key, args⟩ with
  | some db => set { s with bindingDb := db }
  | none => throw .duplicateData

/-- `unbind`: a cursor goes through the bindings of the exchange. The arguments do not matter. -/
def deleteBinding (e q : Rid) (key : Str) (s : StoreDbs σ τ) : StoreDbs σ τ :=
  let bindings := (D.entries s.bindingDb).filter fun b => b.1 == e
  { s with bindingDb := D.delLoop (fun b => b.2.queueId == q && b.2.routingKey == key) bindings s.bindingDb }

/-- The loop of `recoverQueues` makes the index and the greatest id. A queue without a name ends it. -/
def recoverQueues : List (Rid × Str) → List (Rid × Str) → Rid → List (Rid × Str) × Rid
  | [], index, maxQueueId => (index, maxQueueId)
  | (id, name) :: es, index, maxQueueId =>
    if name = [] then (index, maxQueueId)
    else recoverQueues es (index ++ [(id, name)]) (if id < maxQueueId then maxQueueId else id)

/-- The loop of `recoverExchanges`. The broker may not know how to make an exchange. -/
def recoverExchanges (recoverExchange : Str → Bool) :
    List (Rid × Str) → List (Rid × Str) → Rid → List (Rid × Str) × Rid
  | [], index, maxExchangeId => (index, maxExchangeId)
  | (id, value) :: es, index, maxExchangeId =>
    recoverExchanges recoverExchange es (if recoverExchange value then index ++ [(id, value)] else index)
      (if id < maxExchangeId then maxExchangeId else id)

/-- The loop of `recoverGeneral`. -/
def recoverGeneral : List (Rid × Str) → List (Rid × Str) → Rid → List (Rid × Str) × Rid
  | [], items, maxGeneralId => (items, maxGeneralId)
  | (id, value) :: es, items, maxGeneralId =>
    recoverGeneral es (items ++ [(id, value)]) (if id < maxGeneralId then maxGeneralId else id)

/-- The loop of `recoverBindings`: a binding is made, or it is stale and deleted. -/
def recoverBindings (exchanges queues : List Rid) :
    List (Rid × BindingDbt) → List (Rid × BindingDbt) → τ → List (Rid × BindingDbt) × τ
  | [], bound, db => (bound, db)
  | b :: es, bound, db =>
    if b.1 ∈ exchanges ∧ b.2.queueId ∈ queues then recoverBindings exchanges queues es (bound ++ [b]) db
    else recoverBindings exchanges queues es bound (D.delAt db b)

/-- The databases in `recover`, one transaction. -/
def recover (recoverExchange : Str → Bool) (s : StoreDbs σ τ) : Registry × StoreDbs σ τ :=
  let q := recoverQueues (T.entries s.queueDb) [] 1
  let e := recoverExchanges recoverExchange (T.entries s.exchangeDb) [] 1
  let b := recoverBindings D (e.1.map Prod.fst) (q.1.map Prod.fst) (D.entries s.bindingDb) [] s.bindingDb
  let g := recoverGeneral (T.entries s.generalDb) [] 1
  (⟨q.1, e.1, g.1, b.1⟩,
    { s with
      bindingDb := b.2
      queueIdSequence := .reset (q.2 + 1)
      exchangeIdSequence := .reset (e.2 + 1)
      generalIdSequence := .reset (g.2 + 1) })

end StoreDbs

/-- The databases with the objects of the broker since the start, those destroyed since included, and
the calls of `destroy` under way. -/
structure CfgSys (σ τ : Type) where
  dbs : StoreDbs σ τ
  queues : List (Rid × Str)
  exchanges : List (Rid × Str)
  generals : List (Rid × Str)
  destroyingQueues : List Rid
  destroyingExchanges : List Rid

/-- A transaction of a call of the broker, or a crash with the recovery after it. -/
inductive CfgAct
  | createQueue (name : Str) (initialized : Bool)
  | createExchange (value : Str)
  | createGeneral (value : Str)
  | destroyQueue (id : Rid)
  | deleteBindingsForQueue (id : Rid)
  | destroyExchange (id : Rid)
  | deleteBindingsOfExchange (id : Rid)
  | destroyGeneral (id : Rid)
  | bind (e q : Rid) (queueName key args : Str)
  | unbind (e q : Rid) (key : Str)
  | restart (recoverExchange : Str → Bool)

namespace CfgSys

variable {σ τ : Type} (T : Table σ Rid Str) (D : DupTable τ Rid BindingDbt)

def init : CfgSys σ τ := ⟨StoreDbs.init T D, [], [], [], [], []⟩

/-- The calls of the broker are for objects that it has, and new ones have no id. A call that throws
is over. -/
def step (s : CfgSys σ τ) : CfgAct → Option (CfgSys σ τ)
  | .createQueue name initialized =>
    match StoreDbs.createQueue T 0 name initialized s.dbs with
    | .ok id dbs => some { s with dbs := dbs, queues := if id = 0 then s.queues else (id, name) :: s.queues }
    | .error _ dbs => some { s with dbs := dbs }
  | .createExchange value =>
    match StoreDbs.createExchange T 0 value s.dbs with
    | .ok id dbs => some { s with dbs := dbs, exchanges := (id, value) :: s.exchanges }
    | .error _ dbs => some { s with dbs := dbs }
  | .createGeneral value =>
    match StoreDbs.createGeneral T 0 value s.dbs with
    | .ok id dbs => some { s with dbs := dbs, generals := (id, value) :: s.generals }
    | .error _ dbs => some { s with dbs := dbs }
  | .destroyQueue id =>
    if id ∈ s.queues.map Prod.fst then
      some { s with dbs := s.dbs.destroyQueue T id, destroyingQueues := id :: s.destroyingQueues }
    else none
  | .deleteBindingsForQueue id =>
    if id ∈ s.destroyingQueues then
      some { s with dbs := s.dbs.deleteBindingsForQueue D id, destroyingQueues := s.destroyingQueues.erase id }
    else none
  | .destroyExchange id =>
    if id ∈ s.exchanges.map Prod.fst then
      some { s with dbs := s.dbs.destroyExchange T id, destroyingExchanges := id :: s.destroyingExchanges }
    else none
  | .deleteBindingsOfExchange id =>
    if id ∈ s.destroyingExchanges then
      some { s with
        dbs := s.dbs.deleteBindingsOfExchange D id
        destroyingExchanges := s.destroyingExchanges.erase id }
    else none
  | .destroyGeneral id =>
    if id ∈ s.generals.map Prod.fst then some { s with dbs := s.dbs.destroyGeneral T id } else none
  | .bind e q queueName key args =>
    if e ∈ s.exchanges.map Prod.fst ∧ (q, queueName) ∈ s.queues then
      match StoreDbs.bind D e q queueName key args s.dbs with
      | .ok _ dbs => some { s with dbs := dbs }
      | .error _ dbs => some { s with dbs := dbs }
    else none
  | .unbind e q key =>
    if e ∈ s.exchanges.map Prod.fst ∧ q ∈ s.queues.map Prod.fst then
      some { s with dbs := s.dbs.deleteBinding D e q key }
    else none
  | .restart recoverExchange =>
    let r := s.dbs.recover T D recoverExchange
    some ⟨r.2, r.1.queues, r.1.exchanges, r.1.generals, [], []⟩

def run (s : CfgSys σ τ) : List CfgAct → Option (CfgSys σ τ)
  | [] => some s
  | a :: acts => (step T D s a).bind fun s' => run s' acts

end CfgSys

end RhmStore
