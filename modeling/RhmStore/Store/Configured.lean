import RhmStore.Lib.StateExcept
import RhmStore.Store.Bindings

/-! # The databases stand for what the broker has asked for -/

namespace RhmStore

namespace StoreDbs

variable {σ τ : Type} {T : Table σ Rid Str} {D : DupTable τ Rid BindingDbt} {seq : IdSequence} {ids : List Rid}

theorem create_eq (h : seq.Above ids) {db : σ} (hk : ∀ e ∈ T.entries db, e.1 ∈ ids) (value : Str) :
    ∃ db', T.put db seq.id value = some db' ∧ create T db seq value = (⟨seq.id + 1⟩, some (seq.id, db')) := by
  have hno : seq.id ∉ (T.entries db).map Prod.fst := by
    intro hm
    obtain ⟨e, he, heq⟩ := List.mem_map.mp hm
    exact h.not_mem (heq ▸ hk e he)
  obtain ⟨db', hdb⟩ := Option.isSome_iff_exists.mp ((T.put_isSome db seq.id value).mpr hno)
  refine ⟨db', hdb, ?_⟩
  unfold create
  rw [h.next_eq]
  simp only [hdb, Option.map_some]

theorem above_create {db db' : σ} {value : Str} (h : seq.Above (ids ++ (T.entries db).map Prod.fst))
    (hdb : T.put db seq.id value = some db') (hlt : seq.id.toNat + 1 < 2 ^ 64) :
    (⟨seq.id + 1⟩ : IdSequence).Above (seq.id :: ids ++ (T.entries db').map Prod.fst) := by
  refine (h.succ hlt).mono fun id hid => ?_
  rcases List.mem_append.mp hid with hid | hid
  · rcases List.mem_cons.mp hid with rfl | hid
    · exact List.mem_cons_self
    · exact List.mem_cons_of_mem _ (List.mem_append_left _ hid)
  · obtain ⟨e, he, rfl⟩ := List.mem_map.mp hid
    rcases (T.mem_put hdb e).mp he with rfl | he
    · exact List.mem_cons_self
    · exact List.mem_cons_of_mem _ (List.mem_append_right _ (List.mem_map_of_mem he))

theorem createQueue_eq {s : StoreDbs σ τ} {name : Str} {seq' : IdSequence} {id : Rid} {db : σ} (hn : name ≠ [])
    (h : create T s.queueDb s.queueIdSequence name = (seq', some (id, db))) :
    createQueue T 0 name true s = .ok id { s with queueDb := db, queueIdSequence := seq' } := by
  unfold createQueue
  simp only [ne_eq, not_true_eq_false, if_false, hn, Bool.not_true, Bool.false_eq_true]
  rw [get_bind_apply, h]
  rfl

theorem createQueue_failed {s : StoreDbs σ τ} {name : Str} (hn : name ≠ []) :
    createQueue T 0 name false s = .error (.queueCreateFailed name) s := by
  unfold createQueue
  simp only [ne_eq, not_true_eq_false, if_false, hn, Bool.not_false, if_true]
  rfl

theorem createExchange_eq {s : StoreDbs σ τ} {value : Str} {seq' : IdSequence} {id : Rid} {db : σ}
    (h : create T s.exchangeDb s.exchangeIdSequence value = (seq', some (id, db))) :
    createExchange T 0 value s = .ok id { s with exchangeDb := db, exchangeIdSequence := seq' } := by
  unfold createExchange
  simp only [ne_eq, not_true_eq_false, if_false]
  rw [get_bind_apply, h]
  rfl

theorem createGeneral_eq {s : StoreDbs σ τ} {value : Str} {seq' : IdSequence} {id : Rid} {db : σ}
    (h : create T s.generalDb s.generalIdSequence value = (seq', some (id, db))) :
    createGeneral T 0 value s = .ok id { s with generalDb := db, generalIdSequence := seq' } := by
  unfold createGeneral
  simp only [ne_eq, not_true_eq_false, if_false]
  rw [get_bind_apply, h]
  rfl

theorem above_reset (h : seq.Above ids) {es : List (Rid × Str)} (hk : ∀ e ∈ es, e.1 ∈ ids) {k : Nat}
    (hle : seq.id.toNat ≤ k + 2) (hlt : k + 2 < 2 ^ 64) :
    (IdSequence.reset (maxId es 1 + 1)).Above (es.map Prod.fst) ∧
      (IdSequence.reset (maxId es 1 + 1)).id.toNat ≤ k + 2 := by
  obtain ⟨hone, hall, hex⟩ := maxId_spec es 1
  have hmax : (maxId es 1).toNat + 1 ≤ k + 2 := by
    rcases hex with heq | ⟨e, he, heq⟩
    · rw [heq]
      exact Nat.le_add_left 2 k
    · have hl := (h.lt e.1 (hk e he)).2
      rw [heq, BitVec.lt_def] at hl
      exact Nat.le_trans hl hle
  have hsucc := IdSequence.toNat_succ (Nat.lt_of_le_of_lt hmax hlt)
  have hpos : ∀ id, id ≤ maxId es 1 → id < maxId es 1 + 1 := by
    intro id hid
    rw [BitVec.lt_def, hsucc]
    exact Nat.lt_succ_of_le (BitVec.le_def.mp hid)
  refine ⟨⟨?_, fun id hm => ?_⟩, ?_⟩
  · exact BitVec.lt_trans (by decide) (hpos 1 hone)
  · obtain ⟨e, he, rfl⟩ := List.mem_map.mp hm
    exact ⟨(h.lt e.1 (hk e he)).1, hpos e.1 (hall e he)⟩
  · change (maxId es 1 + 1).toNat ≤ k + 2
    rw [hsucc]
    exact hmax

end StoreDbs

namespace CfgSys

variable {σ τ : Type} {T : Table σ Rid Str} {D : DupTable τ Rid BindingDbt}

/-- What the databases stand for: of the bindings those between objects that are there. -/
def conf (T : Table σ Rid Str) (D : DupTable τ Rid BindingDbt) (s : CfgSys σ τ) : Conf where
  queues := {e | e ∈ T.entries s.dbs.queueDb}
  exchanges := {e | e ∈ T.entries s.dbs.exchangeDb}
  generals := {e | e ∈ T.entries s.dbs.generalDb}
  bindings := {b | b ∈ D.entries s.dbs.bindingDb ∧ (∃ v, (b.1, v) ∈ T.entries s.dbs.exchangeDb) ∧
    ∃ name, (b.2.queueId, name) ∈ T.entries s.dbs.queueDb}

/-- The invariant after `k` steps. -/
structure Inv (T : Table σ Rid Str) (D : DupTable τ Rid BindingDbt) (k : Nat) (s : CfgSys σ τ) : Prop where
  queueSeq : s.dbs.queueIdSequence.Above (s.queues.map Prod.fst)
  exchangeSeq : s.dbs.exchangeIdSequence.Above
    (s.exchanges.map Prod.fst ++ (T.entries s.dbs.exchangeDb).map Prod.fst)
  generalSeq : s.dbs.generalIdSequence.Above
    (s.generals.map Prod.fst ++ (T.entries s.dbs.generalDb).map Prod.fst)
  bound : s.dbs.queueIdSequence.id.toNat ≤ k + 2 ∧ s.dbs.exchangeIdSequence.id.toNat ≤ k + 2 ∧
    s.dbs.generalIdSequence.id.toNat ≤ k + 2
  nodup : (s.queues.map Prod.fst).Nodup
  queues : ∀ e ∈ T.entries s.dbs.queueDb, e ∈ s.queues ∧ e.2 ≠ []
  bindings : ∀ b ∈ D.entries s.dbs.bindingDb, (b.2.queueId, b.2.queueName) ∈ s.queues ∧
    b.1 ∈ s.exchanges.map Prod.fst
  destroyingQueues : ∀ id ∈ s.destroyingQueues, id ∈ s.queues.map Prod.fst ∧
    ∀ e ∈ T.entries s.dbs.queueDb, e.1 ≠ id
  destroyingExchanges : ∀ id ∈ s.destroyingExchanges, id ∈ s.exchanges.map Prod.fst ∧
    ∀ e ∈ T.entries s.dbs.exchangeDb, e.1 ≠ id

variable {k : Nat} {s s' : CfgSys σ τ}

theorem init_inv : (init T D).Inv T D 0 := by
  have hpos : (0 : Rid) < 1 := by decide
  have hle : (1 : Rid).toNat ≤ 2 := by decide
  refine ⟨⟨hpos, ?_⟩, ⟨hpos, ?_⟩, ⟨hpos, ?_⟩, ⟨hle, hle, hle⟩, List.nodup_nil, ?_, ?_, ?_, ?_⟩
  · simp [init]
  · simp [init, StoreDbs.init, T.entries_empty]
  · simp [init, StoreDbs.init, T.entries_empty]
  · simp [init, StoreDbs.init, T.entries_empty]
  · simp [init, StoreDbs.init, D.entries_empty]
  · simp [init]
  · simp [init]

theorem Inv.later (h : s.Inv T D k) : s.Inv T D (k + 1) :=
  { h with bound := ⟨by have := h.bound; omega, by have := h.bound; omega, by have := h.bound; omega⟩ }

/-- The queue with the id of a binding has its name: the broker has had no other with this id since
the start. -/
theorem Inv.named_of_id (h : s.Inv T D k) {b : Rid × BindingDbt} (hb : b ∈ D.entries s.dbs.bindingDb)
    (hq : b.2.queueId ∈ (T.entries s.dbs.queueDb).map Prod.fst) :
    (b.2.queueId, b.2.queueName) ∈ T.entries s.dbs.queueDb := by
  obtain ⟨e, hm, hid⟩ := List.mem_map.mp hq
  have heq := List.inj_on_of_nodup_map h.nodup (h.queues e hm).1 (h.bindings b hb).1 hid
  rwa [heq] at hm

section Steps

theorem Inv.step_createQueue (h : s.Inv T D k) (hk : k + 3 < 2 ^ 64) {name : Str} {initialized : Bool}
    (hs : s.step T D (.createQueue name initialized) = some s') :
    s'.Inv T D (k + 1) ∧ (s.conf T D).Step (.createQueue name initialized) (s'.conf T D) := by
  have hne := h.queueSeq.ne_zero
  have hfree : ∀ v, (s.dbs.queueIdSequence.id, v) ∉ T.entries s.dbs.queueDb := fun v hv =>
    h.queueSeq.not_mem (List.mem_map_of_mem (h.queues _ hv).1)
  by_cases hn : name = []
  · subst hn
    obtain rfl : s = s' := Option.some.inj hs
    exact ⟨h.later, _, hne, hfree, by rw [Conf.next, if_pos (Or.inl rfl)]⟩
  cases initialized with
  | false =>
    simp only [step, StoreDbs.createQueue_failed hn, Option.some.injEq] at hs
    subst hs
    exact ⟨h.later, _, hne, hfree, by rw [Conf.next, if_pos (Or.inr rfl)]⟩
  | true =>
    obtain ⟨db, hdb, hcr⟩ := StoreDbs.create_eq h.queueSeq
      (fun e he => List.mem_map_of_mem (h.queues e he).1) name
    have hmem := T.mem_put hdb
    simp only [step, StoreDbs.createQueue_eq hn hcr, if_neg hne, Option.some.injEq] at hs
    subst hs
    have hlt : s.dbs.queueIdSequence.id.toNat + 1 < 2 ^ 64 := by
      have := h.bound
      omega
    refine ⟨⟨h.queueSeq.succ hlt, h.exchangeSeq, h.generalSeq, ?_, ?_, fun e he => ?_, fun b hb => ?_,
      fun id hid => ?_, h.destroyingExchanges⟩, _, hne, hfree, ?_⟩
    · have := h.bound
      have hsucc := IdSequence.toNat_succ hlt
      simp only [hsucc]
      omega
    · exact List.nodup_cons.mpr ⟨h.queueSeq.not_mem, h.nodup⟩
    · rcases (hmem e).mp he with rfl | he
      · exact ⟨List.mem_cons_self, hn⟩
      · exact ⟨List.mem_cons_of_mem _ (h.queues e he).1, (h.queues e he).2⟩
    · exact ⟨List.mem_cons_of_mem _ (h.bindings b hb).1, (h.bindings b hb).2⟩
    · obtain ⟨hm, hgone⟩ := h.destroyingQueues id hid
      refine ⟨List.mem_cons_of_mem _ hm, fun e he => ?_⟩
      rcases (hmem e).mp he with rfl | he
      · rintro rfl
        exact h.queueSeq.not_mem hm
      · exact hgone e he
    · rw [Conf.next, if_neg (by simp [hn])]
      refine Conf.ext (Set.ext fun e => ?_) rfl rfl (Set.ext fun b => ?_)
      · exact hmem e
      · refine and_congr_right fun hb => and_congr_right fun _ => ?_
        constructor
        · rintro ⟨v, hv⟩
          rcases (hmem _).mp hv with heq | hv
          · have hid := (Prod.mk.inj heq).1
            have hold := List.mem_map_of_mem (f := Prod.fst) (h.bindings b hb).1
            exact absurd (hid ▸ hold) h.queueSeq.not_mem
          · exact ⟨v, hv⟩
        · rintro ⟨v, hv⟩
          exact ⟨v, (hmem _).mpr (.inr hv)⟩

theorem Inv.step_createExchange (h : s.Inv T D k) (hk : k + 3 < 2 ^ 64) {value : Str}
    (hs : s.step T D (.createExchange value) = some s') :
    s'.Inv T D (k + 1) ∧ (s.conf T D).Step (.createExchange value) (s'.conf T D) := by
  have hne := h.exchangeSeq.ne_zero
  have hold := h.exchangeSeq.not_mem
  have hfree : ∀ v, (s.dbs.exchangeIdSequence.id, v) ∉ T.entries s.dbs.exchangeDb := fun v hv =>
    hold (List.mem_append_right _ (List.mem_map_of_mem hv))
  obtain ⟨db, hdb, hcr⟩ := StoreDbs.create_eq h.exchangeSeq
    (fun e he => List.mem_append_right _ (List.mem_map_of_mem he)) value
  have hmem := T.mem_put hdb
  simp only [step, StoreDbs.createExchange_eq hcr, Option.some.injEq] at hs
  subst hs
  have hlt : s.dbs.exchangeIdSequence.id.toNat + 1 < 2 ^ 64 := by
    have := h.bound
    omega
  refine ⟨⟨h.queueSeq, StoreDbs.above_create h.exchangeSeq hdb hlt, h.generalSeq, ?_, h.nodup, h.queues, fun b hb => ?_, h.destroyingQueues,
    fun id hid => ?_⟩, _, hne, hfree, ?_⟩
  · have := h.bound
    have hsucc := IdSequence.toNat_succ hlt
    simp only [hsucc]
    omega
  · exact ⟨(h.bindings b hb).1, List.mem_cons_of_mem _ (h.bindings b hb).2⟩
  · obtain ⟨hm, hgone⟩ := h.destroyingExchanges id hid
    refine ⟨List.mem_cons_of_mem _ hm, fun e he => ?_⟩
    rcases (hmem e).mp he with rfl | he
    · rintro rfl
      exact hold (List.mem_append_left _ hm)
    · exact hgone e he
  · refine Conf.ext rfl (Set.ext fun e => hmem e) rfl (Set.ext fun b => ?_)
    refine and_congr_right fun hb => and_congr_left fun _ => ?_
    constructor
    · rintro ⟨v, hv⟩
      rcases (hmem _).mp hv with heq | hv
      · have hid := (Prod.mk.inj heq).1
        exact absurd (List.mem_append_left _ (hid ▸ (h.bindings b hb).2)) hold
      · exact ⟨v, hv⟩
    · rintro ⟨v, hv⟩
      exact ⟨v, (hmem _).mpr (.inr hv)⟩

theorem Inv.step_createGeneral (h : s.Inv T D k) (hk : k + 3 < 2 ^ 64) {value : Str}
    (hs : s.step T D (.createGeneral value) = some s') :
    s'.Inv T D (k + 1) ∧ (s.conf T D).Step (.createGeneral value) (s'.conf T D) := by
  have hne := h.generalSeq.ne_zero
  have hfree : ∀ v, (s.dbs.generalIdSequence.id, v) ∉ T.entries s.dbs.generalDb := fun v hv =>
    h.generalSeq.not_mem (List.mem_append_right _ (List.mem_map_of_mem hv))
  obtain ⟨db, hdb, hcr⟩ := StoreDbs.create_eq h.generalSeq
    (fun e he => List.mem_append_right _ (List.mem_map_of_mem he)) value
  have hmem := T.mem_put hdb
  simp only [step, StoreDbs.createGeneral_eq hcr, Option.some.injEq] at hs
  subst hs
  have hlt : s.dbs.generalIdSequence.id.toNat + 1 < 2 ^ 64 := by
    have := h.bound
    omega
  refine ⟨⟨h.queueSeq, h.exchangeSeq, StoreDbs.above_create h.generalSeq hdb hlt, ?_, h.nodup, h.queues, h.bindings,
    h.destroyingQueues, h.destroyingExchanges⟩, _, hne, hfree, ?_⟩
  · have := h.bound
    have hsucc := IdSequence.toNat_succ hlt
    simp only [hsucc]
    omega
  · exact Conf.ext rfl rfl (Set.ext fun e => hmem e) rfl

theorem Inv.step_destroyQueue (h : s.Inv T D k) {id : Rid} (hs : s.step T D (.destroyQueue id) = some s') :
    s'.Inv T D (k + 1) ∧ s'.conf T D = (s.conf T D).next 1 (.destroyQueue id) := by
  simp only [step] at hs
  split at hs
  · rename_i hid
    cases hs
    have hmem := T.mem_del s.dbs.queueDb id
    refine ⟨{ h.later with
      queues := fun e he => h.queues e ((hmem e).mp he).1
      destroyingQueues := fun id' hid' => ?_ }, ?_⟩
    · rcases List.mem_cons.mp hid' with rfl | hid'
      · exact ⟨hid, fun e he => ((hmem e).mp he).2⟩
      · obtain ⟨hm, hgone⟩ := h.destroyingQueues id' hid'
        exact ⟨hm, fun e he => hgone e ((hmem e).mp he).1⟩
    · refine Conf.ext (Set.ext fun e => hmem e) rfl rfl (Set.ext fun b => ?_)
      simp only [conf, Conf.next, StoreDbs.destroyQueue, hmem, Set.mem_ofPred_eq, exists_and_right]
      tauto
  · cases hs

theorem Inv.step_deleteBindingsForQueue (h : s.Inv T D k) {id : Rid}
    (hs : s.step T D (.deleteBindingsForQueue id) = some s') :
    s'.Inv T D (k + 1) ∧ s'.conf T D = s.conf T D := by
  simp only [step] at hs
  split at hs
  · rename_i hid
    cases hs
    obtain ⟨-, hgone⟩ := h.destroyingQueues id hid
    have hmem : ∀ b, b ∈ D.entries (s.dbs.deleteBindingsForQueue D id).bindingDb ↔
        b ∈ D.entries s.dbs.bindingDb ∧ b.2.queueId ≠ id := by
      intro b
      rw [StoreDbs.deleteBindingsForQueue, D.mem_delLoop]
      simp only [beq_iff_eq]
      tauto
    refine ⟨{ h.later with
      bindings := fun b hb => h.bindings b ((hmem b).mp hb).1
      destroyingQueues := fun id' hid' => h.destroyingQueues id' (List.mem_of_mem_erase hid') }, ?_⟩
    refine Conf.ext rfl rfl rfl (Set.ext fun b => ?_)
    simp only [conf, hmem, Set.mem_ofPred_eq]
    constructor
    · rintro ⟨⟨hb, -⟩, hlive⟩
      exact ⟨hb, hlive⟩
    · rintro ⟨hb, he, name, hq⟩
      exact ⟨⟨hb, hgone _ hq⟩, he, name, hq⟩
  · cases hs

theorem Inv.step_destroyExchange (h : s.Inv T D k) {id : Rid} (hs : s.step T D (.destroyExchange id) = some s') :
    s'.Inv T D (k + 1) ∧ s'.conf T D = (s.conf T D).next 1 (.destroyExchange id) := by
  simp only [step] at hs
  split at hs
  · rename_i hid
    cases hs
    have hmem := T.mem_del s.dbs.exchangeDb id
    refine ⟨{ h.later with
      exchangeSeq := h.exchangeSeq.mono fun id' hid' => ?_
      destroyingExchanges := fun id' hid' => ?_ }, ?_⟩
    · refine List.mem_append.mpr ((List.mem_append.mp hid').imp_right fun hm => ?_)
      obtain ⟨e, he, rfl⟩ := List.mem_map.mp hm
      exact List.mem_map_of_mem ((hmem e).mp he).1
    · rcases List.mem_cons.mp hid' with rfl | hid'
      · exact ⟨hid, fun e he => ((hmem e).mp he).2⟩
      · obtain ⟨hm, hgone⟩ := h.destroyingExchanges id' hid'
        exact ⟨hm, fun e he => hgone e ((hmem e).mp he).1⟩
    · refine Conf.ext rfl (Set.ext fun e => hmem e) rfl (Set.ext fun b => ?_)
      simp only [conf, Conf.next, StoreDbs.destroyExchange, hmem, Set.mem_ofPred_eq, exists_and_right]
      tauto
  · cases hs

theorem Inv.step_deleteBindingsOfExchange (h : s.Inv T D k) {id : Rid}
    (hs : s.step T D (.deleteBindingsOfExchange id) = some s') :
    s'.Inv T D (k + 1) ∧ s'.conf T D = s.conf T D := by
  simp only [step] at hs
  split at hs
  · rename_i hid
    cases hs
    obtain ⟨-, hgone⟩ := h.destroyingExchanges id hid
    have hmem := D.mem_del s.dbs.bindingDb id
    refine ⟨{ h.later with
      bindings := fun b hb => h.bindings b ((hmem b).mp hb).1
      destroyingExchanges := fun id' hid' => h.destroyingExchanges id' (List.mem_of_mem_erase hid') }, ?_⟩
    refine Conf.ext rfl rfl rfl (Set.ext fun b => ?_)
    simp only [conf, StoreDbs.deleteBindingsOfExchange, hmem, Set.mem_ofPred_eq]
    constructor
    · rintro ⟨⟨hb, -⟩, hlive⟩
      exact ⟨hb, hlive⟩
    · rintro ⟨hb, ⟨v, he⟩, hq⟩
      exact ⟨⟨hb, hgone _ he⟩, ⟨v, he⟩, hq⟩
  · cases hs

theorem Inv.step_destroyGeneral (h : s.Inv T D k) {id : Rid} (hs : s.step T D (.destroyGeneral id) = some s') :
    s'.Inv T D (k + 1) ∧ s'.conf T D = (s.conf T D).next 1 (.destroyGeneral id) := by
  simp only [step] at hs
  split at hs
  · cases hs
    have hmem := T.mem_del s.dbs.generalDb id
    refine ⟨{ h.later with generalSeq := h.generalSeq.mono fun id' hid' => ?_ }, ?_⟩
    · refine List.mem_append.mpr ((List.mem_append.mp hid').imp_right fun hm => ?_)
      obtain ⟨e, he, rfl⟩ := List.mem_map.mp hm
      exact List.mem_map_of_mem ((hmem e).mp he).1
    · exact Conf.ext rfl rfl (Set.ext fun e => hmem e) rfl
  · cases hs

theorem Inv.step_bind (h : s.Inv T D k) {e q : Rid} {queueName key args : Str}
    (hs : s.step T D (.bind e q queueName key args) = some s') :
    s'.Inv T D (k + 1) ∧ s'.conf T D = (s.conf T D).next 1 (.bind e q queueName key args) := by
  simp only [step] at hs
  split at hs
  · rename_i hobj
    cases hput : D.put s.dbs.bindingDb e ⟨q, queueName, key, args⟩ with
    | some db =>
      have hok : StoreDbs.bind D e q queueName key args s.dbs = .ok () { s.dbs with bindingDb := db } := by
        unfold StoreDbs.bind
        rw [get_bind_apply, hput]
        rfl
      rw [hok] at hs
      cases hs
      have hmem := D.mem_put hput
      refine ⟨{ h.later with bindings := fun b hb => ?_ }, ?_⟩
      · rcases (hmem b).mp hb with rfl | hb
        · exact ⟨hobj.2, hobj.1⟩
        · exact h.bindings b hb
      · refine Conf.ext rfl rfl rfl (Set.ext fun b => ?_)
        simp only [conf, Conf.next, hmem, Conf.Live, Set.mem_ofPred_eq]
        tauto
    | none =>
      have herr : StoreDbs.bind D e q queueName key args s.dbs = .error .duplicateData s.dbs := by
        unfold StoreDbs.bind
        rw [get_bind_apply, hput]
        rfl
      rw [herr] at hs
      obtain rfl : s = s' := Option.some.inj hs
      have hthere : (e, (⟨q, queueName, key, args⟩ : BindingDbt)) ∈ D.entries s.dbs.bindingDb := by
        by_contra hno
        have hsome := (D.put_isSome s.dbs.bindingDb e ⟨q, queueName, key, args⟩).mpr hno
        rw [hput] at hsome
        cases hsome
      refine ⟨h.later, ?_⟩
      refine Conf.ext rfl rfl rfl (Set.ext fun b => ?_)
      simp only [conf, Conf.next, Conf.Live, Set.mem_ofPred_eq]
      constructor
      · exact Or.inl
      · rintro (hb | ⟨rfl, hlive⟩)
        · exact hb
        · exact ⟨hthere, hlive⟩
  · cases hs

theorem Inv.step_unbind (h : s.Inv T D k) {e q : Rid} {key : Str} (hs : s.step T D (.unbind e q key) = some s') :
    s'.Inv T D (k + 1) ∧ s'.conf T D = (s.conf T D).next 1 (.unbind e q key) := by
  simp only [step] at hs
  split at hs
  · cases hs
    have hmem : ∀ b, b ∈ D.entries (s.dbs.deleteBinding D e q key).bindingDb ↔
        b ∈ D.entries s.dbs.bindingDb ∧ ¬(b.1 = e ∧ b.2.queueId = q ∧ b.2.routingKey = key) := by
      intro b
      simp only [StoreDbs.deleteBinding, D.mem_delLoop, List.mem_filter, Bool.and_eq_true, beq_iff_eq]
      tauto
    refine ⟨{ h.later with bindings := fun b hb => h.bindings b ((hmem b).mp hb).1 }, ?_⟩
    refine Conf.ext rfl rfl rfl (Set.ext fun b => ?_)
    simp only [conf, Conf.next, hmem, Set.mem_ofPred_eq]
    tauto
  · cases hs

def known (T : Table σ Rid Str) (s : CfgSys σ τ) (recoverExchange : Str → Bool) : List (Rid × Str) :=
  (T.entries s.dbs.exchangeDb).filter fun e => recoverExchange e.2

theorem mem_known {recoverExchange : Str → Bool} {id : Rid} : id ∈ (known T s recoverExchange).map Prod.fst ↔
    ∃ v, (id, v) ∈ T.entries s.dbs.exchangeDb ∧ recoverExchange v = true := by
  simp [known]

theorem Inv.recover_eq (h : s.Inv T D k) (recoverExchange : Str → Bool) :
    let ends := StoreDbs.hasEnds ((known T s recoverExchange).map Prod.fst) ((T.entries s.dbs.queueDb).map Prod.fst)
    s.dbs.recover T D recoverExchange =
      (⟨T.entries s.dbs.queueDb, known T s recoverExchange, T.entries s.dbs.generalDb,
          (D.entries s.dbs.bindingDb).filter ends⟩,
        { s.dbs with
          bindingDb := D.delLoop (fun b => !ends b) (D.entries s.dbs.bindingDb) s.dbs.bindingDb
          queueIdSequence := .reset (StoreDbs.maxId (T.entries s.dbs.queueDb) 1 + 1)
          exchangeIdSequence := .reset (StoreDbs.maxId (T.entries s.dbs.exchangeDb) 1 + 1)
          generalIdSequence := .reset (StoreDbs.maxId (T.entries s.dbs.generalDb) 1 + 1) }) := by
  simp only [StoreDbs.recover, StoreDbs.recoverQueues_eq fun e he => (h.queues e he).2,
    StoreDbs.recoverExchanges_eq, StoreDbs.recoverGeneral_eq, StoreDbs.recoverBindings_eq, List.nil_append, known]

theorem Inv.mem_recovered (h : s.Inv T D k) (recoverExchange : Str → Bool) (b : Rid × BindingDbt) :
    b ∈ D.entries (s.dbs.recover T D recoverExchange).2.bindingDb ↔ b ∈ D.entries s.dbs.bindingDb ∧
      b.1 ∈ (known T s recoverExchange).map Prod.fst ∧ b.2.queueId ∈ (T.entries s.dbs.queueDb).map Prod.fst := by
  rw [h.recover_eq]
  rw [D.mem_delLoop, ← StoreDbs.hasEnds_iff, Bool.not_eq_true', ← Bool.not_eq_true]
  tauto

/-- A restart. The ids start again past those in the databases, and no binding is left that is not
between recovered objects. -/
theorem Inv.step_restart (h : s.Inv T D k) (hk : k + 2 < 2 ^ 64) {recoverExchange : Str → Bool}
    (hs : s.step T D (.restart recoverExchange) = some s') :
    s'.Inv T D (k + 1) ∧ s'.conf T D = (s.conf T D).next 1 (.restart recoverExchange) := by
  have hmem := h.mem_recovered recoverExchange
  obtain ⟨hq, hqle⟩ := StoreDbs.above_reset h.queueSeq
    (fun e he => List.mem_map_of_mem (h.queues e he).1) h.bound.1 hk
  obtain ⟨he, hele⟩ := StoreDbs.above_reset h.exchangeSeq
    (fun e he => List.mem_append_right _ (List.mem_map_of_mem he)) h.bound.2.1 hk
  obtain ⟨hg, hgle⟩ := StoreDbs.above_reset h.generalSeq
    (fun e he => List.mem_append_right _ (List.mem_map_of_mem he)) h.bound.2.2 hk
  rw [h.recover_eq] at hmem
  simp only [step, h.recover_eq, Option.some.injEq] at hs
  subst hs
  refine ⟨⟨hq, he.mono fun id hid => ?_, hg.mono fun id hid => ?_, ?_, T.nodup_keys _, fun e he => ?_,
    fun b hb => ?_, ?_, ?_⟩, Conf.ext rfl rfl rfl (Set.ext fun b => ?_)⟩
  · rcases List.mem_append.mp hid with hid | hid
    · obtain ⟨v, hv, -⟩ := mem_known.mp hid
      exact List.mem_map_of_mem hv
    · exact hid
  · rcases List.mem_append.mp hid with hid | hid
    · exact hid
    · exact hid
  · exact ⟨Nat.le_succ_of_le hqle, Nat.le_succ_of_le hele, Nat.le_succ_of_le hgle⟩
  · exact ⟨he, (h.queues e he).2⟩
  · obtain ⟨hb, hx, hqb⟩ := (hmem b).mp hb
    exact ⟨h.named_of_id hb hqb, hx⟩
  · exact fun id hid => absurd hid List.not_mem_nil
  · exact fun id hid => absurd hid List.not_mem_nil
  · simp only [conf, Conf.next, hmem, mem_known, Set.mem_ofPred_eq]
    constructor
    · rintro ⟨⟨hb, hx, -⟩, hlive⟩
      exact ⟨⟨hb, hlive⟩, hx⟩
    · rintro ⟨⟨hb, hx, name, hqb⟩, hxk⟩
      exact ⟨⟨hb, hxk, List.mem_map_of_mem hqb⟩, hx, name, hqb⟩

/-- Each step is one of what the databases stand for. -/
theorem Inv.step (h : s.Inv T D k) (hk : k + 3 < 2 ^ 64) {a : CfgAct} (hs : s.step T D a = some s') :
    s'.Inv T D (k + 1) ∧ (s.conf T D).Step a (s'.conf T D) := by
  have hstep : ∀ {a : CfgAct}, (s.conf T D).Free 1 a → s'.Inv T D (k + 1) ∧ s'.conf T D = (s.conf T D).next 1 a →
      s'.Inv T D (k + 1) ∧ (s.conf T D).Step a (s'.conf T D) := fun hf hr =>
    ⟨hr.1, 1, by decide, hf, hr.2⟩
  cases a with
  | createQueue name initialized => exact h.step_createQueue hk hs
  | createExchange value => exact h.step_createExchange hk hs
  | createGeneral value => exact h.step_createGeneral hk hs
  | destroyQueue id => exact hstep trivial (h.step_destroyQueue hs)
  | deleteBindingsForQueue id => exact hstep trivial (h.step_deleteBindingsForQueue hs)
  | destroyExchange id => exact hstep trivial (h.step_destroyExchange hs)
  | deleteBindingsOfExchange id => exact hstep trivial (h.step_deleteBindingsOfExchange hs)
  | destroyGeneral id => exact hstep trivial (h.step_destroyGeneral hs)
  | bind e q queueName key args => exact hstep trivial (h.step_bind hs)
  | unbind e q key => exact hstep trivial (h.step_unbind hs)
  | restart recoverExchange => exact hstep trivial (h.step_restart (by omega) hs)

end Steps

variable {acts acts' : List CfgAct}

theorem Inv.run (h : s.Inv T D k) (hlen : k + acts.length + 2 < 2 ^ 64) (hs : s.run T D acts = some s') :
    s'.Inv T D (k + acts.length) ∧ (s.conf T D).Run acts (s'.conf T D) := by
  induction acts generalizing s k with
  | nil =>
    obtain rfl := Option.some.inj hs
    exact ⟨h, rfl⟩
  | cons a acts ih =>
    obtain ⟨s₁, h₁, h₂⟩ := Option.bind_eq_some_iff.mp hs
    rw [List.length_cons] at hlen ⊢
    obtain ⟨hi₁, hstep⟩ := h.step (by omega) h₁
    obtain ⟨hi, hrun⟩ := ih hi₁ (by omega) h₂
    refine ⟨?_, _, hstep, hrun⟩
    rwa [Nat.add_right_comm] at hi

theorem conf_init : (init T D).conf T D = Conf.empty := by
  simp [conf, init, StoreDbs.init, T.entries_empty, D.entries_empty, Conf.empty]

theorem Inv.of_run (hrun : (init T D).run T D acts = some s) (hlen : acts.length + 2 < 2 ^ 64) :
    s.Inv T D acts.length ∧ Conf.empty.Run acts (s.conf T D) := by
  have h := (init_inv (T := T) (D := D)).run (by omega) hrun
  rwa [Nat.zero_add, conf_init] at h

/-- However the calls of the broker come one after the other, with crashes between the two halves of
those that destroy: the databases stand for the objects created and not destroyed, and for the
bindings between them made and not undone. -/
theorem run_conf (hrun : (init T D).run T D acts = some s) (hlen : acts.length + 2 < 2 ^ 64) :
    Conf.empty.Run acts (s.conf T D) := (Inv.of_run hrun hlen).2

/-- A queue is destroyed but for its bindings when the crash comes, and its id is that of another after
the restart. -/
def idAgain : List CfgAct :=
  [.createExchange [1], .createQueue [97] true, .createQueue [98] true, .bind 1 2 [98] [107] [],
    .destroyQueue 2, .restart fun _ => true, .createQueue [99] true, .bind 1 2 [99] [107] []]

theorem idAgain_isSome :
    ((init (Table.ofList Rid Str) (DupTable.ofList Rid BindingDbt)).run (Table.ofList Rid Str)
      (DupTable.ofList Rid BindingDbt) idAgain).isSome := by decide +kernel

theorem idAgain_conf : ∃ s : CfgSys _ _, (init (Table.ofList Rid Str) (DupTable.ofList Rid BindingDbt)).run
    (Table.ofList Rid Str) (DupTable.ofList Rid BindingDbt) idAgain = some s ∧
      Conf.empty.Run idAgain (s.conf (Table.ofList Rid Str) (DupTable.ofList Rid BindingDbt)) := by
  obtain ⟨s, hs⟩ := Option.isSome_iff_exists.mp idAgain_isSome
  exact ⟨s, hs, run_conf hs (by decide)⟩

/-- What a recovery gives to the broker, and leaves in the databases. -/
structure Recovers (T : Table σ Rid Str) (D : DupTable τ Rid BindingDbt) (s : CfgSys σ τ)
    (recoverExchange : Str → Bool) (r : Registry) (dbs : StoreDbs σ τ) : Prop where
  nodup : r.queues.Nodup ∧ r.exchanges.Nodup ∧ r.generals.Nodup ∧ r.bound.Nodup
  queues : ∀ e, e ∈ r.queues ↔ e ∈ (s.conf T D).queues
  exchanges : ∀ e, e ∈ r.exchanges ↔ e ∈ (s.conf T D).exchanges ∧ recoverExchange e.2 = true
  generals : ∀ e, e ∈ r.generals ↔ e ∈ (s.conf T D).generals
  bound : ∀ b, b ∈ r.bound ↔ b ∈ (s.conf T D).bindings ∧ ∃ v, (b.1, v) ∈ r.exchanges
  named : ∀ b ∈ r.bound, (b.2.queueId, b.2.queueName) ∈ r.queues
  left : ∀ b, b ∈ D.entries dbs.bindingDb ↔ b ∈ r.bound

/-- A binding is made with the name that is in it, but the ids of queues are used again after a
restart. The name is always that of the queue with the id. -/
theorem recovers_of_run (hrun : (init T D).run T D acts = some s) (hlen : acts.length + 2 < 2 ^ 64)
    (recoverExchange : Str → Bool) :
    s.Recovers T D recoverExchange (s.dbs.recover T D recoverExchange).1 (s.dbs.recover T D recoverExchange).2 := by
  have h := (Inv.of_run hrun hlen).1
  have hmem := h.mem_recovered recoverExchange
  have hbound : ∀ b, b ∈ (s.dbs.recover T D recoverExchange).1.bound ↔ b ∈ D.entries s.dbs.bindingDb ∧
      b.1 ∈ (known T s recoverExchange).map Prod.fst ∧ b.2.queueId ∈ (T.entries s.dbs.queueDb).map Prod.fst := by
    intro b
    rw [h.recover_eq, List.mem_filter, StoreDbs.hasEnds_iff]
  refine ⟨?_, fun e => ?_, fun e => ?_, fun e => ?_, fun b => ?_, fun b hb => ?_, fun b => ?_⟩
  · rw [h.recover_eq]
    exact ⟨T.nodup_entries _, (T.nodup_entries _).filter _, T.nodup_entries _, (D.nodup _).filter _⟩
  · rw [h.recover_eq]
    rfl
  · rw [h.recover_eq]
    exact List.mem_filter
  · rw [h.recover_eq]
    rfl
  · rw [hbound]
    have hx : (∃ v, (b.1, v) ∈ (s.dbs.recover T D recoverExchange).1.exchanges) ↔
        b.1 ∈ (known T s recoverExchange).map Prod.fst := by
      rw [h.recover_eq]
      simp
    rw [hx]
    constructor
    · rintro ⟨hb, hk, hq⟩
      obtain ⟨v, hv, -⟩ := mem_known.mp hk
      obtain ⟨⟨id, name⟩, hm, rfl⟩ := List.mem_map.mp hq
      exact ⟨⟨hb, ⟨v, hv⟩, name, hm⟩, hk⟩
    · rintro ⟨⟨hb, -, name, hm⟩, hk⟩
      exact ⟨hb, hk, List.mem_map_of_mem hm⟩
  · obtain ⟨hb, -, hq⟩ := (hbound b).mp hb
    rw [h.recover_eq]
    exact h.named_of_id hb hq
  · rw [hmem, hbound]

theorem idAgain_recovers : ∃ s : CfgSys _ _, (init (Table.ofList Rid Str) (DupTable.ofList Rid BindingDbt)).run
    (Table.ofList Rid Str) (DupTable.ofList Rid BindingDbt) idAgain = some s ∧
      let r := s.dbs.recover (Table.ofList Rid Str) (DupTable.ofList Rid BindingDbt) fun _ => true
      s.Recovers (Table.ofList Rid Str) (DupTable.ofList Rid BindingDbt) (fun _ => true) r.1 r.2 := by
  obtain ⟨s, hs⟩ := Option.isSome_iff_exists.mp idAgain_isSome
  exact ⟨s, hs, recovers_of_run hs (by decide) fun _ => true⟩

/-- The exceptions for what exists already are never thrown, and no record or binding has the id of
something new. A queue whose journal is not initialized leaves nothing behind. -/
theorem create_new (hrun : (init T D).run T D acts = some s) (hlen : acts.length + 2 < 2 ^ 64) (value : Str) :
    (value ≠ [] → StoreDbs.createQueue T 0 value false s.dbs = .error (.queueCreateFailed value) s.dbs ∧
      ∃ id dbs, StoreDbs.createQueue T 0 value true s.dbs = .ok id dbs ∧ id ≠ 0 ∧
        (∀ e ∈ T.entries s.dbs.queueDb, e.1 ≠ id) ∧ (∀ b ∈ D.entries s.dbs.bindingDb, b.2.queueId ≠ id) ∧
        id ∉ s.queues.map Prod.fst) ∧
    (∃ id dbs, StoreDbs.createExchange T 0 value s.dbs = .ok id dbs ∧ id ≠ 0 ∧
      (∀ e ∈ T.entries s.dbs.exchangeDb, e.1 ≠ id) ∧ (∀ b ∈ D.entries s.dbs.bindingDb, b.1 ≠ id) ∧
      id ∉ s.exchanges.map Prod.fst) ∧
    ∃ id dbs, StoreDbs.createGeneral T 0 value s.dbs = .ok id dbs ∧ id ≠ 0 ∧
      (∀ e ∈ T.entries s.dbs.generalDb, e.1 ≠ id) ∧ id ∉ s.generals.map Prod.fst := by
  have h := (Inv.of_run hrun hlen).1
  refine ⟨fun hn => ?_, ?_, ?_⟩
  · obtain ⟨db, -, hcr⟩ := StoreDbs.create_eq h.queueSeq (fun e he => List.mem_map_of_mem (h.queues e he).1) value
    have hold := h.queueSeq.not_mem
    refine ⟨StoreDbs.createQueue_failed hn, _, _, StoreDbs.createQueue_eq hn hcr, h.queueSeq.ne_zero,
      fun e he heq => ?_, fun b hb heq => ?_, hold⟩
    · exact hold (heq ▸ List.mem_map_of_mem (h.queues e he).1)
    · exact hold (heq ▸ List.mem_map_of_mem (f := Prod.fst) (h.bindings b hb).1)
  · obtain ⟨db, -, hcr⟩ := StoreDbs.create_eq h.exchangeSeq
      (fun e he => List.mem_append_right _ (List.mem_map_of_mem he)) value
    have hold := h.exchangeSeq.not_mem
    refine ⟨_, _, StoreDbs.createExchange_eq hcr, h.exchangeSeq.ne_zero, fun e he heq => ?_, fun b hb heq => ?_,
      fun hm => hold (List.mem_append_left _ hm)⟩
    · exact hold (heq ▸ List.mem_append_right _ (List.mem_map_of_mem he))
    · exact hold (heq ▸ List.mem_append_left _ (h.bindings b hb).2)
  · obtain ⟨db, -, hcr⟩ := StoreDbs.create_eq h.generalSeq
      (fun e he => List.mem_append_right _ (List.mem_map_of_mem he)) value
    have hold := h.generalSeq.not_mem
    refine ⟨_, _, StoreDbs.createGeneral_eq hcr, h.generalSeq.ne_zero, fun e he heq => ?_,
      fun hm => hold (List.mem_append_left _ hm)⟩
    exact hold (heq ▸ List.mem_append_right _ (List.mem_map_of_mem he))

theorem idAgain_new : ∃ s : CfgSys _ _, (init (Table.ofList Rid Str) (DupTable.ofList Rid BindingDbt)).run
    (Table.ofList Rid Str) (DupTable.ofList Rid BindingDbt) idAgain = some s ∧
      ∃ id dbs, StoreDbs.createQueue (Table.ofList Rid Str) 0 [100] true s.dbs = .ok id dbs ∧ id ≠ 0 ∧
        (∀ e ∈ (Table.ofList Rid Str).entries s.dbs.queueDb, e.1 ≠ id) ∧
        (∀ b ∈ (DupTable.ofList Rid BindingDbt).entries s.dbs.bindingDb, b.2.queueId ≠ id) ∧
        id ∉ s.queues.map Prod.fst := by
  obtain ⟨s, hs⟩ := Option.isSome_iff_exists.mp idAgain_isSome
  exact ⟨s, hs, ((create_new hs (by decide) [100]).1 (by decide)).2⟩

end CfgSys

end RhmStore
