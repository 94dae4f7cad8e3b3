import RhmStore.Log.Protected

/-! # The changes that a commit makes to one record -/

namespace RhmStore

namespace View

/-- What an operation does to record `r` once it is committed: enqueue it, or dequeue it. -/
def move (r : Nat) (td : TxnData) : List Bool :=
  if td.enqFlag then if td.rid = r then [true] else []
  else if td.drid = r then [false] else []

def moves (r : Nat) (tdl : List TxnData) : List Bool := tdl.flatMap (move r)

@[simp] theorem moves_nil (r : Nat) : moves r [] = [] := rfl

theorem moves_cons (r : Nat) (td : TxnData) (tdl : List TxnData) :
    moves r (td :: tdl) = move r td ++ moves r tdl := rfl

theorem moves_concat (r : Nat) (tdl : List TxnData) (td : TxnData) :
    moves r (tdl ++ [td]) = moves r tdl ++ move r td := by
  simp [moves]

theorem moves_core (r : Nat) (tdl : List TxnData) : moves r (tdl.map TxnData.core) = moves r tdl := by
  rw [moves, List.flatMap_map]
  rfl

theorem mem_move {r : Nat} {td : TxnData} {b : Bool} :
    b ∈ move r td ↔ td.enqFlag = b ∧ (if b then td.rid else td.drid) = r := by
  unfold move
  cases td.enqFlag <;> cases b <;> simp

theorem true_mem_moves {r : Nat} {tdl : List TxnData} :
    true ∈ moves r tdl ↔ ∃ td ∈ tdl, td.enqFlag = true ∧ td.rid = r := by
  simp [moves, mem_move]

theorem false_mem_moves {r : Nat} {tdl : List TxnData} : false ∈ moves r tdl ↔ Dequeues tdl r := by
  simp [moves, mem_move, Dequeues]

theorem moves_eq_nil {r : Nat} {tdl : List TxnData}
    (ht : ¬∃ td ∈ tdl, td.enqFlag = true ∧ td.rid = r) (hd : ¬Dequeues tdl r) :
    moves r tdl = [] := by
  apply List.eq_nil_iff_forall_not_mem.mpr
  intro b hb
  cases b with
  | true => exact ht (true_mem_moves.mp hb)
  | false => exact hd (false_mem_moves.mp hb)

/-- Changes that can be made, one after the other, to a record that is enqueued or is not, and that
enqueue it once at most. -/
def Fits (b : Bool) (l : List Bool) : Prop := l = [] ∨ l = [!b] ∨ b = false ∧ l = [true, false]

theorem fits_nil (b : Bool) : Fits b [] := Or.inl rfl

theorem Fits.cons {b c : Bool} {l : List Bool} (h : Fits b (c :: l)) : c = !b ∧ Fits c l := by
  rcases h with h | h | ⟨rfl, h⟩
  · cases h
  · obtain ⟨rfl, rfl⟩ := List.cons.inj h
    exact ⟨rfl, fits_nil _⟩
  · obtain ⟨rfl, rfl⟩ := List.cons.inj h
    exact ⟨rfl, Or.inr (Or.inl rfl)⟩

theorem Fits.eq_nil {b : Bool} {l : List Bool} (h : Fits b l) (hb : (!b) ∉ l) : l = [] := by
  rcases h with h | h | ⟨rfl, h⟩
  · exact h
  · simp [h] at hb
  · simp [h] at hb

theorem Fits.eq_true {b : Bool} {l : List Bool} (h : Fits b l) (ht : true ∈ l) (hf : false ∉ l) :
    b = false ∧ l = [true] := by
  rcases h with rfl | rfl | ⟨rfl, rfl⟩
  · cases ht
  · cases b
    · exact ⟨rfl, rfl⟩
    · simp at hf
  · simp at hf

theorem Fits.last {b : Bool} {l : List Bool} (h : Fits b l) (hf : false ∈ l) :
    l.getLast? = some false := by
  rcases h with rfl | rfl | ⟨rfl, rfl⟩
  · cases hf
  · cases b
    · simp at hf
    · rfl
  · rfl

theorem last_of_true {l : List Bool} (ht : true ∈ l) (hf : false ∉ l) : l.getLast? = some true := by
  cases hl : l.getLast? with
  | none =>
    rw [List.getLast?_eq_none_iff] at hl
    rw [hl] at ht
    cases ht
  | some b =>
    cases b with
    | true => rfl
    | false => exact (hf (List.mem_of_getLast? hl)).elim

/-- What a commit makes of a record is its last change. -/
theorem commitEffect_of_last (tdl : List TxnData) (r : Nat) :
    ((moves r tdl).getLast? = none → commitEffect tdl r = none) ∧
    ((moves r tdl).getLast? = some false → commitEffect tdl r = some none) ∧
    ((moves r tdl).getLast? = some true → ∃ td ∈ tdl, td.enqFlag = true ∧ td.rid = r ∧
      commitEffect tdl r = some (some ⟨td.pfid, false⟩)) := by
  induction tdl using List.reverseRecOn with
  | nil =>
    refine ⟨fun _ => rfl, ?_, ?_⟩
    · intro h
      cases h
    · intro h
      cases h
  | append_singleton tdl td ih =>
    obtain ⟨hn, hf, ht⟩ := ih
    have hlift : (moves r tdl).getLast? = some true → ∃ td' ∈ tdl ++ [td], td'.enqFlag = true ∧
        td'.rid = r ∧ commitEffect tdl r = some (some ⟨td'.pfid, false⟩) := by
      intro h
      obtain ⟨td', hm, hd⟩ := ht h
      exact ⟨td', List.mem_append_left _ hm, hd⟩
    rw [moves_concat, commitEffect_concat]
    unfold move
    by_cases he : td.enqFlag = true
    · by_cases hr : td.rid = r
      · simp [he, hr]
      · simp only [he, hr, if_true, if_false, List.append_nil]
        exact ⟨hn, hf, hlift⟩
    · by_cases hr : td.drid = r
      · simp [he, hr]
      · simp only [he, hr, if_false, List.append_nil, Bool.false_eq_true]
        exact ⟨hn, hf, hlift⟩

theorem fits_commitEntry {v : View} {td : TxnData} {tdl : List TxnData}
    (h : ∀ r, Fits (v.enq r).isSome (moves r (td :: tdl))) (r : Nat) :
    Fits ((v.commitEntry td).enq r).isSome (moves r tdl) := by
  have hr := h r
  rw [moves_cons] at hr
  unfold commitEntry
  unfold move at hr
  cases he : td.enqFlag with
  | true =>
    by_cases hrr : td.rid = r
    · subst hrr
      simp only [he, if_true, List.singleton_append] at hr
      simpa [insert] using hr.cons.2
    · simp only [he, hrr, if_true, if_false, List.nil_append] at hr
      simpa [insert, Function.update_of_ne (Ne.symm hrr)] using hr
  | false =>
    by_cases hrr : td.drid = r
    · subst hrr
      simp only [he, Bool.false_eq_true, if_true, if_false, List.singleton_append] at hr
      simpa [remove] using hr.cons.2
    · simp only [he, Bool.false_eq_true, hrr, if_false, List.nil_append] at hr
      simpa [remove, Function.update_of_ne (Ne.symm hrr)] using hr

end View

namespace Maps

variable {n : Nat} {m : Maps} {td : TxnData} {tdl : List TxnData}

theorem getRemovePfid_isOk {rid : Nat} {d : EmapData} (h : m.emap.map[rid]? = some d) :
    getRemovePfid rid true m = .ok d.pfid { m with emap :=
      ⟨m.emap.map.erase rid, m.emap.pfidEnqCnt.modify d.pfid u32Decr⟩ } := by
  have hr : m.emap.getRemovePfid rid true =
      .ok (d.pfid, ⟨m.emap.map.erase rid, m.emap.pfidEnqCnt.modify d.pfid u32Decr⟩) := by
    simp [EnqMap.getRemovePfid, h]
  simp only [getRemovePfid, ok_get_bind, hr, ok_set_bind, ok_pure, and_self]

theorem commitEntry_isOk (h : ProtectedWith n (td :: tdl) m)
    (hf : ∀ r, View.Fits (m.view.enq r).isSome (View.moves r (td :: tdl))) :
    ∃ m', commitEntry td m = .ok () m' := by
  unfold commitEntry
  cases he : td.enqFlag with
  | true =>
    have hr := hf td.rid
    simp only [View.moves_cons, View.move, he, if_true, List.singleton_append] at hr
    have hn : m.view.enq td.rid = none := by simpa using hr.cons.1
    exact insertPfid_isOk td.pfid hn
  | false =>
    have hr := hf td.drid
    simp only [View.moves_cons, View.move, he, Bool.false_eq_true, if_true, if_false,
      List.singleton_append] at hr
    have hs : (m.view.enq td.drid).isSome := by simpa using hr.cons.1
    obtain ⟨d, hd⟩ := Option.isSome_iff_exists.mp hs
    have hc : m.enqCnt.getD d.pfid 0 ≠ 0 := h.count_enq hd
    exact ⟨_, ok_bind.mpr ⟨_, _, getRemovePfid_isOk hd, decrEnqcnt_isOk hc⟩⟩

/-- A transaction whose operations fit can be committed. -/
theorem forM_commitEntry_isOk (h : ProtectedWith n tdl m)
    (hf : ∀ r, View.Fits (m.view.enq r).isSome (View.moves r tdl)) :
    ∃ m', tdl.forM commitEntry m = .ok () m' := by
  induction tdl generalizing m with
  | nil => exact ⟨m, rfl⟩
  | cons td tdl ih =>
    obtain ⟨m₁, h₁⟩ := commitEntry_isOk h hf
    have hf₁ : ∀ r, View.Fits (m₁.view.enq r).isSome (View.moves r tdl) := by
      rw [view_commitEntry td h₁]
      exact View.fits_commitEntry hf
    obtain ⟨m', h₂⟩ := ih ((entryOp_commit n).protectedWith h h₁) hf₁
    exact ⟨m', ok_bind.mpr ⟨(), m₁, h₁, h₂⟩⟩

end Maps

end RhmStore
