import RhmStore.Log.Journal

/-! # A record is locked exactly while one open transaction dequeues it -/

namespace RhmStore

namespace View

/-- An operation of a list dequeues `r`. -/
def Dequeues (tdl : List TxnData) (r : Nat) : Prop :=
  ∃ td ∈ tdl, td.enqFlag = false ∧ td.drid = r

/-- What an abort does to a record. -/
theorem enq_foldl_abort (tdl : List TxnData) (v : View) (r : Nat) :
    (Dequeues tdl r →
      (tdl.foldl abortEntry v).enq r = (v.enq r).map fun d => { d with lock := false }) ∧
    (¬Dequeues tdl r → (tdl.foldl abortEntry v).enq r = v.enq r) := by
  induction tdl generalizing v with
  | nil =>
    refine ⟨?_, fun _ => rfl⟩
    rintro ⟨td, hm, -⟩
    cases hm
  | cons td tdl ih =>
    rw [List.foldl_cons]
    obtain ⟨h₁, h₂⟩ := ih (v.abortEntry td)
    have hstep : (v.abortEntry td).enq r =
        if td.enqFlag = false ∧ td.drid = r then
          (v.enq r).map fun d => { d with lock := false } else v.enq r := by
      unfold abortEntry
      cases he : td.enqFlag with
      | true => simp
      | false =>
        by_cases hr : td.drid = r
        · subst hr; simp [setLock]
        · simp [setLock, hr, Ne.symm hr]
    by_cases ht : td.enqFlag = false ∧ td.drid = r
    · rw [if_pos ht] at hstep
      refine ⟨fun _ => ?_, fun hn => (hn ⟨td, by simp, ht⟩).elim⟩
      by_cases hd : Dequeues tdl r
      · rw [h₁ hd, hstep, Option.map_map]
        rfl
      · rw [h₂ hd, hstep]
    · rw [if_neg ht] at hstep
      have hiff : Dequeues (td :: tdl) r ↔ Dequeues tdl r := by
        constructor
        · rintro ⟨td', hm, hd⟩
          rcases List.mem_cons.mp hm with rfl | hm
          · exact (ht hd).elim
          · exact ⟨td', hm, hd⟩
        · rintro ⟨td', hm, hd⟩
          exact ⟨td', by simp [hm], hd⟩
      rw [hiff, ← hstep]
      exact ⟨h₁, h₂⟩

/-- What a commit of `tdl` makes of record `r`, `none` where it does not touch it. -/
def commitEffect (tdl : List TxnData) (r : Nat) : Option (Option EmapData) :=
  tdl.foldl (fun o td =>
    if td.enqFlag then if td.rid = r then some (some ⟨td.pfid, false⟩) else o
    else if td.drid = r then some none else o) none

theorem commitEffect_concat (tdl : List TxnData) (td : TxnData) (r : Nat) :
    commitEffect (tdl ++ [td]) r =
      if td.enqFlag then
        if td.rid = r then some (some ⟨td.pfid, false⟩) else commitEffect tdl r
      else if td.drid = r then some none else commitEffect tdl r := by
  simp [commitEffect]

theorem enq_foldl_commit (tdl : List TxnData) (v : View) (r : Nat) :
    (tdl.foldl commitEntry v).enq r = (commitEffect tdl r).getD (v.enq r) := by
  induction tdl using List.reverseRecOn with
  | nil => rfl
  | append_singleton tdl td ih =>
    rw [List.foldl_append, List.foldl_cons, List.foldl_nil, commitEffect_concat]
    generalize tdl.foldl commitEntry v = w at ih
    unfold commitEntry
    cases he : td.enqFlag with
    | true =>
      simp only [if_true]
      by_cases hr : td.rid = r
      · subst hr; simp [insert]
      · simp [insert, hr, Ne.symm hr, ih]
    | false =>
      simp only [Bool.false_eq_true, if_false]
      by_cases hr : td.drid = r
      · subst hr; simp [remove]
      · simp [remove, hr, Ne.symm hr, ih]

theorem commitEffect_none {tdl : List TxnData} {r : Nat} (h : commitEffect tdl r = none) :
    ¬Dequeues tdl r := by
  induction tdl using List.reverseRecOn with
  | nil =>
    rintro ⟨td, hm, -⟩
    cases hm
  | append_singleton tdl td ih =>
    rw [commitEffect_concat] at h
    rintro ⟨td', hm, he, hr⟩
    rcases List.mem_append.mp hm with hm | hm
    · refine ih ?_ ⟨td', hm, he, hr⟩
      split at h
      · split at h
        · cases h
        · exact h
      · split at h
        · cases h
        · exact h
    · rw [List.mem_singleton] at hm
      subst hm
      simp [he, hr] at h

theorem commitEffect_some {tdl : List TxnData} {r : Nat} {d : EmapData}
    (h : commitEffect tdl r = some (some d)) :
    d.lock = false ∧ ∃ td ∈ tdl, td.enqFlag = true ∧ td.rid = r := by
  induction tdl using List.reverseRecOn with
  | nil => cases h
  | append_singleton tdl td ih =>
    rw [commitEffect_concat] at h
    have hlift : commitEffect tdl r = some (some d) →
        d.lock = false ∧ ∃ td' ∈ tdl ++ [td], td'.enqFlag = true ∧ td'.rid = r := by
      intro hh
      obtain ⟨hl, td', hm, ht⟩ := ih hh
      exact ⟨hl, td', by simp [hm], ht⟩
    split at h
    · rename_i he
      split at h
      · rename_i hr
        cases h
        exact ⟨rfl, td, by simp, he, hr⟩
      · exact hlift h
    · split at h
      · cases h
      · exact hlift h

theorem commitEffect_ne_some_none {tdl : List TxnData} {r : Nat} (h : ¬Dequeues tdl r) :
    commitEffect tdl r ≠ some none := by
  induction tdl using List.reverseRecOn with
  | nil => simp [commitEffect]
  | append_singleton tdl td ih =>
    have ih' : commitEffect tdl r ≠ some none := by
      refine ih ?_
      rintro ⟨td', hm, ht⟩
      exact h ⟨td', by simp [hm], ht⟩
    rw [commitEffect_concat]
    split
    · split
      · simp
      · exact ih'
    · rename_i he
      split
      · rename_i hr
        exact (h ⟨td, by simp, by simpa using he, hr⟩).elim
      · exact ih'

/-- A record is locked exactly while one open operation dequeues it, and an open dequeue is of an
enqueued record or of an earlier operation of its own transaction. -/
structure Locks (v : View) : Prop where
  held : ∀ r d, v.enq r = some d → d.lock = true → ∃ x, Dequeues (v.opn x) r
  holder : ∀ x td d, td ∈ v.opn x → td.enqFlag = false → v.enq td.drid = some d → d.lock = true
  unique : ∀ x y td td', td ∈ v.opn x → td' ∈ v.opn y → td.enqFlag = false →
    td'.enqFlag = false → td.drid = td'.drid → (v.enq td.drid).isSome → x = y ∧ td = td'
  target : ∀ x td, td ∈ v.opn x → td.enqFlag = false →
    (v.enq td.drid).isSome ∨ ∃ td' ∈ v.opn x, td'.rid = td.drid

theorem locks_empty : empty.Locks := by
  refine ⟨?_, ?_, ?_, ?_⟩
  · intro r d h
    cases h
  · intro x td d h
    cases h
  · intro x y td td' h
    cases h
  · intro x td h
    cases h

/-- The rids of `v` are in use. -/
structure Uses (v : View) (used : List Nat) : Prop where
  enq : ∀ r, (v.enq r).isSome → r ∈ used
  opn : ∀ x td, td ∈ v.opn x → td.rid ∈ used ∧ (td.enqFlag = false → td.drid ∈ used)

/-- Open operations with one rid are of one transaction, and an open enqueue is not enqueued. -/
structure Distinct (v : View) : Prop where
  inj : ∀ x y td td', td ∈ v.opn x → td' ∈ v.opn y → td.rid = td'.rid → x = y
  fresh : ∀ x td, td ∈ v.opn x → td.enqFlag = true → v.enq td.rid = none

variable {v : View} {used : List Nat}

theorem mem_push {xid x : Xid} {td td' : TxnData} (h : td ∈ (v.push xid td').opn x) :
    td ∈ v.opn x ∨ x = xid ∧ td = td' := by
  by_cases hx : x = xid
  · subst hx
    simp only [push, Function.update_self, List.mem_append, List.mem_singleton] at h
    exact h.imp id fun h => ⟨rfl, h⟩
  · simp only [push, Function.update_of_ne hx] at h
    exact Or.inl h

theorem mem_push_of_mem {xid x : Xid} {td td' : TxnData} (h : td ∈ v.opn x) :
    td ∈ (v.push xid td').opn x := by
  by_cases hx : x = xid
  · subst hx
    simp [push, h]
  · simpa [push, Function.update_of_ne hx] using h

theorem mem_push_self (xid : Xid) (td : TxnData) : td ∈ (v.push xid td).opn xid := by
  simp [push]

theorem mem_close {xid x : Xid} {td : TxnData} (h : td ∈ (v.close xid).opn x) :
    x ≠ xid ∧ td ∈ v.opn x := by
  by_cases hx : x = xid
  · subst hx
    simp [close] at h
  · simp only [close, Function.update_of_ne hx] at h
    exact ⟨hx, h⟩

theorem mem_close_of_ne {xid x : Xid} {td : TxnData} (hx : x ≠ xid) (h : td ∈ v.opn x) :
    td ∈ (v.close xid).opn x := by
  simpa only [close, Function.update_of_ne hx] using h

/-- A lock is that of an open dequeue. -/
def Held (v : View) : Prop := ∀ r d, v.enq r = some d → d.lock = true → ∃ x, Dequeues (v.opn x) r

theorem held_insert (h : v.Held) (rid fid : Nat) : (v.insert rid fid).Held := by
  intro r d hd hl
  by_cases hrr : r = rid
  · subst hrr
    simp only [insert, Function.update_self, Option.some.injEq] at hd
    subst hd
    cases hl
  · simp only [insert, Function.update_of_ne hrr] at hd
    exact h r d hd hl

theorem held_remove (h : v.Held) (r : Nat) : (v.remove r).Held := by
  intro r' d hd hl
  by_cases hrr : r' = r
  · subst hrr
    simp [remove] at hd
  · simp only [remove, Function.update_of_ne hrr] at hd
    exact h r' d hd hl

theorem held_push (h : v.Held) (xid : Xid) (td : TxnData) : (v.push xid td).Held := by
  intro r d hd hl
  obtain ⟨x, td', hm, hd'⟩ := h r d hd hl
  exact ⟨x, td', mem_push_of_mem hm, hd'⟩

theorem enq_pushDeq (v : View) (xid : Xid) (td : TxnData) (r : Nat) :
    ((v.setLock td.drid true).push xid td).enq r =
      if r = td.drid then (v.enq r).map fun d => { d with lock := true } else v.enq r := by
  by_cases hr : r = td.drid
  · subst hr; simp [push, setLock]
  · simp [push, setLock, hr]

theorem held_pushDeq (h : v.Held) (xid : Xid) {td : TxnData} (he : td.enqFlag = false) :
    ((v.setLock td.drid true).push xid td).Held := by
  intro r d hd hl
  rw [enq_pushDeq] at hd
  split at hd
  · rename_i hr
    exact ⟨xid, td, mem_push_self (v := v.setLock td.drid true) xid td, he, hr.symm⟩
  · obtain ⟨x, a, ha, hd'⟩ := h r d hd hl
    exact ⟨x, a, mem_push_of_mem (v := v.setLock td.drid true) ha, hd'⟩

theorem held_abort (h : v.Held) (xid : Xid) : ((v.opn xid).foldl abortEntry (v.close xid)).Held := by
  have hop : ((v.opn xid).foldl abortEntry (v.close xid)).opn = (v.close xid).opn :=
    opn_foldl opn_abortEntry _ _
  have henq := fun r => enq_foldl_abort (v.opn xid) (v.close xid) r
  intro r d hd hl
  by_cases hdq : Dequeues (v.opn xid) r
  · rw [(henq r).1 hdq] at hd
    obtain ⟨d', -, rfl⟩ := Option.map_eq_some_iff.mp hd
    cases hl
  · rw [(henq r).2 hdq] at hd
    obtain ⟨x, hx⟩ := h r d hd hl
    have hne : x ≠ xid := fun he => hdq (he ▸ hx)
    obtain ⟨td, hm, ht⟩ := hx
    exact ⟨x, td, hop ▸ mem_close_of_ne hne hm, ht⟩

theorem held_commit (h : v.Held) (xid : Xid) : ((v.opn xid).foldl commitEntry (v.close xid)).Held := by
  have hop : ((v.opn xid).foldl commitEntry (v.close xid)).opn = (v.close xid).opn :=
    opn_foldl opn_commitEntry _ _
  intro r d hd hl
  rw [enq_foldl_commit] at hd
  cases hc : commitEffect (v.opn xid) r with
  | none =>
    rw [hc, Option.getD_none] at hd
    obtain ⟨x, hx⟩ := h r d hd hl
    have hne : x ≠ xid := fun he => commitEffect_none hc (he ▸ hx)
    obtain ⟨td, hm, ht⟩ := hx
    exact ⟨x, td, hop ▸ mem_close_of_ne hne hm, ht⟩
  | some o =>
    rw [hc, Option.getD_some] at hd
    subst hd
    rw [(commitEffect_some hc).1] at hl
    cases hl

theorem held_apply (h : v.Held) (fid : Nat) (j : JRec) : (v.apply fid j).Held := by
  cases j with
  | enq rid xid d t e =>
    simp only [apply]
    split
    · exact held_insert h rid fid
    · exact held_push h xid _
  | deq rid drid xid c =>
    simp only [apply]
    split
    · exact held_remove h drid
    · have he : (⟨rid, drid, fid, false, false, false⟩ : TxnData).enqFlag = false := rfl
      exact held_pushDeq h xid he
  | txa rid xid => exact held_abort h xid
  | txc rid xid => exact held_commit h xid

theorem held_applyAll (h : v.Held) (log : List Placed) : (v.applyAll log).Held := by
  induction log using List.reverseRecOn with
  | nil => exact h
  | append_singleton log p ih =>
    rw [applyAll_concat]
    exact held_apply ih p.fid p.jrec

theorem locks_insert (h : v.Locks) (hu : v.Uses used) {rid : Nat} (fid : Nat)
    (hr : rid ∉ used) : (v.insert rid fid).Locks := by
  have hdr : ∀ x td, td ∈ v.opn x → td.enqFlag = false → td.drid ≠ rid := by
    intro x td hm he heq
    exact hr (heq ▸ (hu.opn x td hm).2 he)
  refine ⟨held_insert h.held rid fid, ?_, ?_, ?_⟩
  · intro x td d hm he hd
    simp only [insert, Function.update_of_ne (hdr x td hm he)] at hd
    exact h.holder x td d hm he hd
  · intro x y td td' hm hm' he he' heq hs
    simp only [insert, Function.update_of_ne (hdr x td hm he)] at hs
    exact h.unique x y td td' hm hm' he he' heq hs
  · intro x td hm he
    simp only [insert, Function.update_of_ne (hdr x td hm he)]
    exact h.target x td hm he

theorem locks_pushEnq (h : v.Locks) (xid : Xid) {td : TxnData} (he : td.enqFlag = true) :
    (v.push xid td).Locks := by
  have hdeq : ∀ {x td'}, td' ∈ (v.push xid td).opn x → td'.enqFlag = false → td' ∈ v.opn x := by
    intro x td' hm hf
    rcases mem_push hm with hm | ⟨-, rfl⟩
    · exact hm
    · rw [he] at hf
      cases hf
  refine ⟨held_push h.held xid td, ?_, ?_, ?_⟩
  · intro x td' d hm hf hd
    exact h.holder x td' d (hdeq hm hf) hf hd
  · intro x y a b ha hb hfa hfb heq hs
    exact h.unique x y a b (hdeq ha hfa) (hdeq hb hfb) hfa hfb heq hs
  · intro x td' hm hf
    rcases h.target x td' (hdeq hm hf) hf with hs | ⟨b, hb, hbr⟩
    · exact Or.inl hs
    · exact Or.inr ⟨b, mem_push_of_mem hb, hbr⟩

theorem locks_remove (h : v.Locks) {r : Nat} {d : EmapData} (hd : v.enq r = some d)
    (hl : d.lock = false) : (v.remove r).Locks := by
  have hdr : ∀ x td, td ∈ v.opn x → td.enqFlag = false → td.drid ≠ r := by
    intro x td hm he heq
    rw [← heq] at hd
    have := h.holder x td d hm he hd
    rw [hl] at this
    cases this
  refine ⟨held_remove h.held r, ?_, ?_, ?_⟩
  · intro x td d' hm he hd'
    simp only [remove, Function.update_of_ne (hdr x td hm he)] at hd'
    exact h.holder x td d' hm he hd'
  · intro x y td td' hm hm' he he' heq hs
    simp only [remove, Function.update_of_ne (hdr x td hm he)] at hs
    exact h.unique x y td td' hm hm' he he' heq hs
  · intro x td hm he
    simp only [remove, Function.update_of_ne (hdr x td hm he)]
    exact h.target x td hm he

theorem locks_pushDeq (h : v.Locks) (xid : Xid) {td : TxnData} (he : td.enqFlag = false)
    (ht : (∃ d, v.enq td.drid = some d ∧ d.lock = false) ∨
      v.enq td.drid = none ∧ ∃ td' ∈ v.opn xid, td'.rid = td.drid) :
    ((v.setLock td.drid true).push xid td).Locks := by
  have henq := enq_pushDeq v xid td
  have hsome : ∀ r, (((v.setLock td.drid true).push xid td).enq r).isSome = (v.enq r).isSome := by
    intro r
    rw [henq]
    split <;> simp
  have hfree : ∀ x a, a ∈ v.opn x → a.enqFlag = false → (v.enq a.drid).isSome →
      a.drid ≠ td.drid := by
    intro x a ha hf hs heq
    obtain ⟨d, hd⟩ := Option.isSome_iff_exists.mp hs
    have hlock := h.holder x a d ha hf hd
    rw [heq] at hd
    rcases ht with ⟨d', hd', hl⟩ | ⟨hn, -⟩
    · rw [hd] at hd'
      cases hd'
      rw [hl] at hlock
      cases hlock
    · rw [hn] at hd
      cases hd
  have hmem : ∀ {x a}, a ∈ ((v.setLock td.drid true).push xid td).opn x →
      a ∈ v.opn x ∨ x = xid ∧ a = td := fun hm => mem_push (v := v.setLock td.drid true) hm
  have hmem' : ∀ {x a}, a ∈ v.opn x → a ∈ ((v.setLock td.drid true).push xid td).opn x :=
    fun hm => mem_push_of_mem (v := v.setLock td.drid true) hm
  refine ⟨held_pushDeq h.held xid he, ?_, ?_, ?_⟩
  · intro x a d ha hf hd
    rw [henq] at hd
    split at hd
    · obtain ⟨d', -, rfl⟩ := Option.map_eq_some_iff.mp hd
      rfl
    · rename_i hne
      rcases hmem ha with ha | ⟨-, rfl⟩
      · exact h.holder x a d ha hf hd
      · exact (hne rfl).elim
  · intro x y a b ha hb hfa hfb heq hs
    rw [hsome] at hs
    rcases hmem ha with ha' | ⟨rfl, rfl⟩
    · rcases hmem hb with hb' | ⟨rfl, rfl⟩
      · exact h.unique x y a b ha' hb' hfa hfb heq hs
      · exact (hfree x a ha' hfa hs heq).elim
    · rcases hmem hb with hb' | ⟨rfl, rfl⟩
      · exact (hfree y b hb' hfb (heq ▸ hs) heq.symm).elim
      · exact ⟨rfl, rfl⟩
  · intro x a ha hf
    rw [hsome]
    rcases hmem ha with ha | ⟨rfl, rfl⟩
    · rcases h.target x a ha hf with hs | ⟨b, hb, hbr⟩
      · exact Or.inl hs
      · exact Or.inr ⟨b, hmem' hb, hbr⟩
    · rcases ht with ⟨d, hd, -⟩ | ⟨-, b, hb, hbr⟩
      · exact Or.inl (by rw [hd]; rfl)
      · exact Or.inr ⟨b, hmem' hb, hbr⟩

theorem locks_abort (h : v.Locks) (xid : Xid) :
    ((v.opn xid).foldl abortEntry (v.close xid)).Locks := by
  have hop : ((v.opn xid).foldl abortEntry (v.close xid)).opn = (v.close xid).opn :=
    opn_foldl opn_abortEntry _ _
  have henq := fun r => enq_foldl_abort (v.opn xid) (v.close xid) r
  have hsome : ∀ r, (((v.opn xid).foldl abortEntry (v.close xid)).enq r).isSome =
      (v.enq r).isSome := by
    intro r
    by_cases hd : Dequeues (v.opn xid) r
    · rw [(henq r).1 hd, Option.isSome_map]
      rfl
    · rw [(henq r).2 hd]
      rfl
  -- an operation left open dequeues nothing that the aborted one did
  have hother : ∀ x td, x ≠ xid → td ∈ v.opn x → td.enqFlag = false → (v.enq td.drid).isSome →
      ¬Dequeues (v.opn xid) td.drid := by
    rintro x td hx hm he hs ⟨td', hm', he', hr'⟩
    exact hx (h.unique x xid td td' hm hm' he he' hr'.symm hs).1
  refine ⟨held_abort h.held xid, ?_, ?_, ?_⟩
  · intro x td d hm he hd
    rw [hop] at hm
    obtain ⟨hx, hm⟩ := mem_close hm
    have hs : (v.enq td.drid).isSome := by rw [← hsome, hd]; rfl
    rw [(henq _).2 (hother x td hx hm he hs)] at hd
    exact h.holder x td d hm he hd
  · intro x y a b ha hb hfa hfb heq hs
    rw [hop] at ha hb
    rw [hsome] at hs
    exact h.unique x y a b (mem_close ha).2 (mem_close hb).2 hfa hfb heq hs
  · intro x td hm he
    rw [hop] at hm
    obtain ⟨hx, hm⟩ := mem_close hm
    rw [hsome]
    rcases h.target x td hm he with hs | ⟨b, hb, hbr⟩
    · exact Or.inl hs
    · exact Or.inr ⟨b, hop ▸ mem_close_of_ne hx hb, hbr⟩

theorem locks_commit (h : v.Locks) (hdi : v.Distinct) (xid : Xid) :
    ((v.opn xid).foldl commitEntry (v.close xid)).Locks := by
  have hop : ((v.opn xid).foldl commitEntry (v.close xid)).opn = (v.close xid).opn :=
    opn_foldl opn_commitEntry _ _
  have henq : ∀ r, ((v.opn xid).foldl commitEntry (v.close xid)).enq r =
      (commitEffect (v.opn xid) r).getD (v.enq r) := fun r => enq_foldl_commit _ _ _
  -- the commit touches no record that an operation left open dequeues
  have hother : ∀ x td, x ≠ xid → td ∈ v.opn x → td.enqFlag = false →
      ∀ d, ((v.opn xid).foldl commitEntry (v.close xid)).enq td.drid = some d →
        v.enq td.drid = some d := by
    intro x td hx hm he d hd
    rw [henq] at hd
    cases hc : commitEffect (v.opn xid) td.drid with
    | none => simpa [hc] using hd
    | some o =>
      rw [hc, Option.getD_some] at hd
      subst hd
      obtain ⟨-, td', hm', he', hr'⟩ := commitEffect_some hc
      rcases h.target x td hm he with hs | ⟨b, hb, hbr⟩
      · rw [← hr', hdi.fresh xid td' hm' he'] at hs
        cases hs
      · exact (hx (hdi.inj x xid b td' hb hm' (hbr.trans hr'.symm))).elim
  refine ⟨held_commit h.held xid, ?_, ?_, ?_⟩
  · intro x td d hm he hd
    rw [hop] at hm
    obtain ⟨hx, hm⟩ := mem_close hm
    exact h.holder x td d hm he (hother x td hx hm he d hd)
  · intro x y a b ha hb hfa hfb heq hs
    rw [hop] at ha hb
    obtain ⟨hx, ha⟩ := mem_close ha
    obtain ⟨d, hd⟩ := Option.isSome_iff_exists.mp hs
    have := hother x a hx ha hfa d hd
    exact h.unique x y a b ha (mem_close hb).2 hfa hfb heq (by rw [this]; rfl)
  · intro x td hm he
    rw [hop] at hm
    obtain ⟨hx, hm⟩ := mem_close hm
    rcases h.target x td hm he with hs | ⟨b, hb, hbr⟩
    · left
      rw [henq]
      cases hc : commitEffect (v.opn xid) td.drid with
      | none => exact hs
      | some o =>
        cases o with
        | some d => rfl
        | none =>
          -- removed: then the committed transaction dequeued it too
          have hdq : Dequeues (v.opn xid) td.drid := by
            by_contra hnd
            exact absurd hc (commitEffect_ne_some_none hnd)
          obtain ⟨td', hm', he', hr'⟩ := hdq
          exact (hx (h.unique x xid td td' hm hm' he he' hr'.symm hs).1).elim
    · exact Or.inr ⟨b, hop ▸ mem_close_of_ne hx hb, hbr⟩

end View

namespace Maps

variable {m m' : Maps}

/-- What `dequeue_check` lets through. -/
theorem ok_dequeueCheck {xid : Xid} {drid : Nat} (h : dequeueCheck xid drid m = .ok () m') :
    m' = m ∧ ((∃ d, m.view.enq drid = some d ∧ d.lock = false) ∨
      m.view.enq drid = none ∧ xid ≠ [] ∧ ∃ td ∈ m.view.opn xid, td.rid = drid) := by
  simp only [dequeueCheck, ok_get_bind] at h
  cases hr : m.emap.map[drid]? with
  | none =>
    simp only [EnqMap.getPfid, hr] at h
    split at h
    · rename_i hc
      refine ⟨(ok_pure.mp h).2, Or.inr ⟨hr, hc.1, ?_⟩⟩
      obtain ⟨td, hm, ht⟩ := List.any_eq_true.mp hc.2
      exact ⟨td.core, List.mem_map_of_mem hm, beq_iff_eq.mp ht⟩
    · exact (ok_throw.mp h).elim
  | some d =>
    cases hl : d.lock with
    | true =>
      simp only [EnqMap.getPfid, hr, hl, if_true] at h
      exact (ok_throw.mp h).elim
    | false =>
      simp only [EnqMap.getPfid, hr, hl, Bool.false_eq_true, if_false] at h
      exact ⟨(ok_pure.mp h).2, Or.inl ⟨d, hr, hl⟩⟩

theorem ok_checkOp {r : JRec} (h : checkOp r m = .ok () m') : m' = m := by
  cases r with
  | enq => exact (ok_pure.mp h).2
  | deq rid drid xid c => exact (ok_dequeueCheck h).1
  | txa rid xid =>
    simp only [checkOp] at h
    split at h
    · exact (ok_pure.mp h).2
    · exact (ok_throw.mp h).elim
  | txc rid xid =>
    simp only [checkOp] at h
    split at h
    · exact (ok_pure.mp h).2
    · exact (ok_throw.mp h).elim

theorem ok_perform {fid : Nat} {r : JRec} (h : perform fid r m = .ok () m') :
    checkOp r m = .ok () m ∧ complete fid r m = .ok () m' := by
  obtain ⟨_, m₁, h₁, h₂⟩ := ok_bind.mp h
  have he := ok_checkOp h₁
  subst he
  exact ⟨h₁, h₂⟩

/-- A successful operation keeps the locks exact. -/
theorem locks_perform {fid : Nat} {r : JRec} {used : List Nat} (h : perform fid r m = .ok () m')
    (hl : m.view.Locks) (hu : m.view.Uses used) (hd : m.view.Distinct) (hr : r.rid ∉ used) :
    m'.view.Locks := by
  obtain ⟨hck, hc⟩ := ok_perform h
  rw [view_complete fid r hc]
  cases r with
  | enq rid xid ds t e =>
    simp only [View.apply]
    split
    · exact View.locks_insert hl hu fid hr
    · exact View.locks_pushEnq hl xid rfl
  | deq rid drid xid c =>
    simp only [View.apply]
    split
    · rename_i hx
      simp only [complete, dequeueComplete, hx, ne_eq, not_true_eq_false, if_false] at hc
      obtain ⟨efid, m₁, h₁, -⟩ := ok_bind.mp hc
      obtain ⟨-, d, hd, -, hdl⟩ := view_getRemovePfid _ _ h₁
      exact View.locks_remove hl hd (hdl rfl)
    · let td : TxnData := { rid := rid, drid := drid, pfid := fid, enqFlag := false }
      refine View.locks_pushDeq hl xid (show td.enqFlag = false from rfl) ?_
      rcases (ok_dequeueCheck hck).2 with hs | ⟨hn, -, ht⟩
      · exact Or.inl hs
      · exact Or.inr ⟨hn, ht⟩
  | txa rid xid => exact View.locks_abort hl xid
  | txc rid xid => exact View.locks_commit hl hd xid

/-- A successful dequeue is of a rid in use. -/
theorem uses_deq {rid drid : Nat} {xid : Xid} {c : Bool} {fid : Nat} {used : List Nat}
    (h : perform fid (.deq rid drid xid c) m = .ok () m') (hu : m.view.Uses used) :
    drid ∈ used := by
  rcases (ok_dequeueCheck (ok_perform h).1).2 with ⟨d, hd, -⟩ | ⟨-, -, td, hm, ht⟩
  · exact hu.enq drid (by rw [hd]; rfl)
  · exact ht ▸ (hu.opn xid td hm).1

end Maps

end RhmStore
