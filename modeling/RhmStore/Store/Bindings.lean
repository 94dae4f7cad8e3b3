import RhmStore.Store.Databases

/-! # The bindings between the objects that exist

Through calls under way and crashes the databases stand for queues, exchanges and the bindings
between them; a binding of something destroyed is no more than a record to be deleted. -/

namespace RhmStore

/-- What the databases stand for. -/
@[ext] structure Conf where
  queues : Set (Rid × Str)
  exchanges : Set (Rid × Str)
  generals : Set (Rid × Str)
  bindings : Set (Rid × BindingDbt)

namespace Conf

def empty : Conf := ⟨∅, ∅, ∅, ∅⟩

def Live (c : Conf) (b : Rid × BindingDbt) : Prop :=
  (∃ v, (b.1, v) ∈ c.exchanges) ∧ ∃ name, (b.2.queueId, name) ∈ c.queues

/-- What an act means, where a new object gets the id. What is destroyed takes its bindings with it,
at once, and so does an exchange that the broker does not know at a restart. -/
def next (c : Conf) (id : Rid) : CfgAct → Conf
  | .createQueue name initialized =>
    if name = [] ∨ initialized = false then c else { c with queues := insert (id, name) c.queues }
  | .createExchange value => { c with exchanges := insert (id, value) c.exchanges }
  | .createGeneral value => { c with generals := insert (id, value) c.generals }
  | .destroyQueue q => { c with
      queues := {e | e ∈ c.queues ∧ e.1 ≠ q}
      bindings := {b | b ∈ c.bindings ∧ b.2.queueId ≠ q} }
  | .deleteBindingsForQueue _ => c
  | .destroyExchange x => { c with
      exchanges := {e | e ∈ c.exchanges ∧ e.1 ≠ x}
      bindings := {b | b ∈ c.bindings ∧ b.1 ≠ x} }
  | .deleteBindingsOfExchange _ => c
  | .destroyGeneral g => { c with generals := {e | e ∈ c.generals ∧ e.1 ≠ g} }
  | .bind e q queueName key args =>
    { c with bindings := {b | b ∈ c.bindings ∨ b = (e, ⟨q, queueName, key, args⟩) ∧ c.Live b} }
  | .unbind e q key =>
    { c with bindings := {b | b ∈ c.bindings ∧ ¬(b.1 = e ∧ b.2.queueId = q ∧ b.2.routingKey = key)} }
  | .restart recoverExchange =>
    { c with bindings := {b | b ∈ c.bindings ∧ ∃ v, (b.1, v) ∈ c.exchanges ∧ recoverExchange v = true} }

def Free (c : Conf) (id : Rid) : CfgAct → Prop
  | .createQueue _ _ => ∀ v, (id, v) ∉ c.queues
  | .createExchange _ => ∀ v, (id, v) ∉ c.exchanges
  | .createGeneral _ => ∀ v, (id, v) ∉ c.generals
  | _ => True

def Step (c : Conf) (a : CfgAct) (c' : Conf) : Prop := ∃ id, id ≠ 0 ∧ c.Free id a ∧ c' = c.next id a

def Run (c : Conf) : List CfgAct → Conf → Prop
  | [], c' => c' = c
  | a :: acts, c' => ∃ c₁, c.Step a c₁ ∧ Run c₁ acts c'

end Conf

namespace IdSequence

/-- The sequence is past all of `ids`, which are ids. -/
structure Above (seq : IdSequence) (ids : List Rid) : Prop where
  pos : 0 < seq.id
  lt : ∀ id ∈ ids, 0 < id ∧ id < seq.id

variable {seq : IdSequence} {ids : List Rid}

theorem Above.not_mem (h : seq.Above ids) : seq.id ∉ ids := fun hm => (BitVec.lt_irrefl _) (h.lt _ hm).2

theorem Above.ne_zero (h : seq.Above ids) : seq.id ≠ 0 := by
  have := h.pos
  rintro h0
  rw [h0] at this
  exact BitVec.lt_irrefl _ this

theorem Above.next_eq (h : seq.Above ids) : seq.next = (seq.id, ⟨seq.id + 1⟩) := by
  simp only [next, if_neg h.ne_zero]

theorem Above.mono {ids' : List Rid} (h : seq.Above ids) (hs : ∀ id ∈ ids', id ∈ ids) : seq.Above ids' :=
  ⟨h.pos, fun id hm => h.lt id (hs id hm)⟩

theorem toNat_succ {id : Rid} (h : id.toNat + 1 < 2 ^ 64) : (id + 1).toNat = id.toNat + 1 := by
  rw [BitVec.toNat_add]
  exact Nat.mod_eq_of_lt h

theorem Above.succ (h : seq.Above ids) (hlt : seq.id.toNat + 1 < 2 ^ 64) :
    (⟨seq.id + 1⟩ : IdSequence).Above (seq.id :: ids) := by
  have hs : seq.id < seq.id + 1 := by
    rw [BitVec.lt_def, toNat_succ hlt]
    exact Nat.lt_succ_self _
  refine ⟨BitVec.lt_trans h.pos hs, fun id hm => ?_⟩
  rcases List.mem_cons.mp hm with rfl | hm
  · exact ⟨h.pos, hs⟩
  · exact ⟨(h.lt id hm).1, BitVec.lt_trans (h.lt id hm).2 hs⟩

end IdSequence

namespace StoreDbs

variable {σ τ : Type} (T : Table σ Rid Str) (D : DupTable τ Rid BindingDbt)

/-- The greatest id, at least `m`. -/
def maxId (es : List (Rid × Str)) (m : Rid) : Rid := es.foldl (fun m e => if e.1 < m then m else e.1) m

theorem maxId_spec (es : List (Rid × Str)) (m : Rid) :
    m ≤ maxId es m ∧ (∀ e ∈ es, e.1 ≤ maxId es m) ∧ (maxId es m = m ∨ ∃ e ∈ es, e.1 = maxId es m) := by
  induction es generalizing m with
  | nil => exact ⟨BitVec.le_refl m, fun e he => absurd he List.not_mem_nil, .inl rfl⟩
  | cons e es ih =>
    obtain ⟨hm, hes, hex⟩ := ih (if e.1 < m then m else e.1)
    change _ ≤ maxId es _ at hm
    have hle : m ≤ (if e.1 < m then m else e.1) ∧ e.1 ≤ (if e.1 < m then m else e.1) := by
      split
      · rename_i hlt
        exact ⟨BitVec.le_refl m, BitVec.le_of_lt hlt⟩
      · rename_i hlt
        exact ⟨BitVec.not_lt.mp hlt, BitVec.le_refl _⟩
    refine ⟨BitVec.le_trans hle.1 hm, fun e' he' => ?_, ?_⟩
    · rcases List.mem_cons.mp he' with rfl | he'
      · exact BitVec.le_trans hle.2 hm
      · exact hes e' he'
    · change maxId es _ = m ∨ ∃ e' ∈ e :: es, e'.1 = maxId es _
      rcases hex with heq | ⟨e', he', heq⟩
      · rw [heq]
        split
        · exact .inl rfl
        · exact .inr ⟨e, List.mem_cons_self, rfl⟩
      · exact .inr ⟨e', List.mem_cons_of_mem _ he', heq⟩

theorem recoverQueues_eq {es : List (Rid × Str)} (h : ∀ e ∈ es, e.2 ≠ []) (index : List (Rid × Str)) (m : Rid) :
    recoverQueues es index m = (index ++ es, maxId es m) := by
  induction es generalizing index m with
  | nil => simp [recoverQueues, maxId]
  | cons e es ih =>
    rw [recoverQueues, if_neg (h e List.mem_cons_self), ih fun e' he' => h e' (List.mem_cons_of_mem _ he'),
      List.append_assoc]
    rfl

theorem recoverExchanges_eq (p : Str → Bool) (es index : List (Rid × Str)) (m : Rid) :
    recoverExchanges p es index m = (index ++ es.filter (fun e => p e.2), maxId es m) := by
  induction es generalizing index m with
  | nil => simp [recoverExchanges, maxId]
  | cons e es ih =>
    rw [recoverExchanges, ih, List.filter_cons]
    split
    · rw [List.append_assoc]
      rfl
    · rfl

theorem recoverGeneral_eq (es items : List (Rid × Str)) (m : Rid) :
    recoverGeneral es items m = (items ++ es, maxId es m) := by
  induction es generalizing items m with
  | nil => simp [recoverGeneral, maxId]
  | cons e es ih =>
    rw [recoverGeneral, ih, List.append_assoc]
    rfl

def hasEnds (exchanges queues : List Rid) (b : Rid × BindingDbt) : Bool :=
  exchanges.contains b.1 && queues.contains b.2.queueId

theorem hasEnds_iff {exchanges queues : List Rid} {b : Rid × BindingDbt} :
    hasEnds exchanges queues b = true ↔ b.1 ∈ exchanges ∧ b.2.queueId ∈ queues := by
  simp [hasEnds]

theorem recoverBindings_eq (exchanges queues : List Rid) (es bound : List (Rid × BindingDbt)) (db : τ) :
    recoverBindings D exchanges queues es bound db =
      (bound ++ es.filter (hasEnds exchanges queues),
        D.delLoop (fun b => !hasEnds exchanges queues b) es db) := by
  induction es generalizing bound db with
  | nil => simp [recoverBindings, DupTable.delLoop]
  | cons b es ih =>
    rw [recoverBindings, List.filter_cons, DupTable.delLoop]
    by_cases hb : hasEnds exchanges queues b = true
    · rw [if_pos (hasEnds_iff.mp hb), ih, if_pos hb, hb, List.append_assoc]
      rfl
    · rw [if_neg fun hc => hb (hasEnds_iff.mpr hc), ih, if_neg hb]
      rw [Bool.not_eq_true] at hb
      rw [hb]
      rfl

end StoreDbs

end RhmStore
