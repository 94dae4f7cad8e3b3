import RhmStore.Store.TplMap
import RhmStore.Log.Content

/-! # A TPL in which each transaction is prepared once

Where a transaction stands is then decided by the records that there are of it. -/

namespace RhmStore

/-- The log prepares `x`. -/
def Prepares (x : Xid) (log : List Placed) : Prop := ∃ p ∈ log, ∃ rid d t e, p.jrec = .enq rid x d t e

/-- The log has the outcome `commit` of `x`. -/
def Decides (x : Xid) (commit : Bool) (log : List Placed) : Prop :=
  ∃ p ∈ log, ∃ rid drid, p.jrec = .deq rid drid x commit

/-- A TPL history in which no xid comes again, and the last record of a transaction is that of its
outcome. -/
inductive TplOnce : List DataRec → Prop
  | nil : TplOnce []
  | prepare {log : List DataRec} {rid : Nat} {x : Xid} (fid : Nat) (tpc : Bool) : TplOnce log →
      rid ∉ dataRids log → x ≠ [] → (∀ p ∈ placeds log, p.jrec.xid ≠ x) →
      TplOnce (log ++ [⟨⟨.enq rid x 1 false false, fid⟩, [if tpc then 1 else 0]⟩])
  | dequeue {log : List DataRec} {rid erid : Nat} {x : Xid} {tpc : Bool} (fid : Nat) (commit : Bool) :
      TplOnce log → rid ∉ dataRids log → tplState x log = .enqueued erid tpc →
      TplOnce (log ++ [⟨⟨.deq rid erid x commit, fid⟩, []⟩])
  | close {log : List DataRec} {rid erid : Nat} {x : Xid} {tpc commit : Bool} (fid : Nat) : TplOnce log →
      rid ∉ dataRids log → tplState x log = .dequeued erid tpc commit →
      TplOnce (log ++ [⟨⟨if commit then .txc rid x else .txa rid x, fid⟩, []⟩])

def TplState.Fits (x : Xid) (log : List Placed) : TplState → Prop
  | absent => (∀ p ∈ log, p.jrec.xid ≠ x) ∨ Prepares x log ∧ ∃ b, (∀ b', Decides x b' log ↔ b' = b) ∧
      (Commits x log ↔ b = true) ∧ (Aborts x log ↔ b = false)
  | enqueued _ _ => Prepares x log ∧ (∀ b, ¬Decides x b log) ∧ ¬Commits x log ∧ ¬Aborts x log
  | dequeued _ _ b => Prepares x log ∧ (∀ b', Decides x b' log ↔ b' = b) ∧ ¬Commits x log ∧ ¬Aborts x log

theorem exists_mem_concat {α : Type*} {l : List α} {a : α} {P : α → Prop} :
    (∃ b ∈ l ++ [a], P b) ↔ (∃ b ∈ l, P b) ∨ P a := by
  simp [or_and_right, exists_or]

section Concat

variable {log : List Placed} {p : Placed} {x : Xid} {b : Bool}

theorem prepares_concat :
    Prepares x (log ++ [p]) ↔ Prepares x log ∨ ∃ rid d t e, p.jrec = .enq rid x d t e :=
  exists_mem_concat

theorem decides_concat :
    Decides x b (log ++ [p]) ↔ Decides x b log ∨ ∃ rid drid, p.jrec = .deq rid drid x b :=
  exists_mem_concat

theorem commits_concat_iff : Commits x (log ++ [p]) ↔ Commits x log ∨ ∃ rid, p.jrec = .txc rid x :=
  exists_mem_concat

theorem aborts_concat_iff : Aborts x (log ++ [p]) ↔ Aborts x log ∨ ∃ rid, p.jrec = .txa rid x :=
  exists_mem_concat

theorem not_prepares_of_unnamed (h : ∀ p ∈ log, p.jrec.xid ≠ x) : ¬Prepares x log := by
  rintro ⟨p, hp, rid, d, t, e, hj⟩
  exact h p hp (by rw [hj]; rfl)

theorem not_decides_of_unnamed (h : ∀ p ∈ log, p.jrec.xid ≠ x) : ¬Decides x b log := by
  rintro ⟨p, hp, rid, drid, hj⟩
  exact h p hp (by rw [hj]; rfl)

theorem not_commits_of_unnamed (h : ∀ p ∈ log, p.jrec.xid ≠ x) : ¬Commits x log := by
  rintro ⟨p, hp, rid, hj⟩
  exact h p hp (by rw [hj]; rfl)

theorem not_aborts_of_unnamed (h : ∀ p ∈ log, p.jrec.xid ≠ x) : ¬Aborts x log := by
  rintro ⟨p, hp, rid, hj⟩
  exact h p hp (by rw [hj]; rfl)

theorem fits_concat_of_ne {s : TplState} (h : s.Fits x log) (hp : p.jrec.xid ≠ x) : s.Fits x (log ++ [p]) := by
  have hn : ∀ q ∈ [p], q.jrec.xid ≠ x := by
    intro q hq
    rw [List.mem_singleton.mp hq]
    exact hp
  have hprep : Prepares x (log ++ [p]) ↔ Prepares x log := by
    rw [prepares_concat, or_iff_left]
    rintro ⟨rid, d, t, e, hj⟩
    exact hp (by rw [hj]; rfl)
  have hdec : ∀ b, Decides x b (log ++ [p]) ↔ Decides x b log := by
    intro b
    rw [decides_concat, or_iff_left]
    rintro ⟨rid, drid, hj⟩
    exact hp (by rw [hj]; rfl)
  have hcom : Commits x (log ++ [p]) ↔ Commits x log := by
    rw [commits_concat_iff, or_iff_left]
    rintro ⟨rid, hj⟩
    exact hp (by rw [hj]; rfl)
  have habo : Aborts x (log ++ [p]) ↔ Aborts x log := by
    rw [aborts_concat_iff, or_iff_left]
    rintro ⟨rid, hj⟩
    exact hp (by rw [hj]; rfl)
  cases s with
  | absent =>
    simp only [TplState.Fits, hprep, hdec, hcom, habo] at h ⊢
    refine h.imp_left fun hno q hq => ?_
    rcases List.mem_append.mp hq with hq | hq
    · exact hno q hq
    · exact hn q hq
  | enqueued rid tpc =>
    simp only [TplState.Fits, hprep, hdec, hcom, habo]
    exact h
  | dequeued rid tpc b =>
    simp only [TplState.Fits, hprep, hdec, hcom, habo]
    exact h

variable {l l' : List Placed}

/-- Records of `x` that one log has and the other too. -/
theorem Commits.mono (h : ∀ p, p.jrec.xid = x → p ∈ l → p ∈ l') (hc : Commits x l) :
    Commits x l' := by
  obtain ⟨p, hp, rid, hj⟩ := hc
  exact ⟨p, h p (by rw [hj]; rfl) hp, rid, hj⟩

theorem Aborts.mono (h : ∀ p, p.jrec.xid = x → p ∈ l → p ∈ l') (hc : Aborts x l) :
    Aborts x l' := by
  obtain ⟨p, hp, rid, hj⟩ := hc
  exact ⟨p, h p (by rw [hj]; rfl) hp, rid, hj⟩

theorem Prepares.mono (h : ∀ p, p.jrec.xid = x → p ∈ l → p ∈ l') (hc : Prepares x l) :
    Prepares x l' := by
  obtain ⟨p, hp, rid, d, t, e, hj⟩ := hc
  exact ⟨p, h p (by rw [hj]; rfl) hp, rid, d, t, e, hj⟩

theorem Decides.mono (h : ∀ p, p.jrec.xid = x → p ∈ l → p ∈ l')
    (hc : Decides x b l) : Decides x b l' := by
  obtain ⟨p, hp, rid, drid, hj⟩ := hc
  exact ⟨p, h p (by rw [hj]; rfl) hp, rid, drid, hj⟩

theorem Unclosed.mono (h : ∀ p, p.jrec.xid = x → p ∈ l' → p ∈ l)
    (hc : Unclosed x l) : Unclosed x l' := by
  rw [unclosed_iff] at hc ⊢
  exact ⟨fun hm => hc.1 (Commits.mono h hm), fun hm => hc.2 (Aborts.mono h hm)⟩

end Concat

namespace TplOnce

variable {log : List DataRec} {x : Xid}

theorem hist (h : TplOnce log) : TplHist log := by
  induction h with
  | nil => exact TplHist.nil
  | @prepare log rid x fid tpc _ hn hx hno ih =>
    refine ih.concat hn (.prepare rid x fid tpc hx ?_)
    by_contra hs
    have hopen : ∃ rid, (tplState x log).openRid = some rid := by
      cases he : tplState x log with
      | absent => exact absurd he hs
      | enqueued rid tpc => exact ⟨rid, rfl⟩
      | dequeued rid tpc c => exact ⟨rid, rfl⟩
    obtain ⟨rid', hr⟩ := hopen
    obtain ⟨-, w, hw, hj, -⟩ := ih.prepare_mem hr
    exact hno _ (List.mem_map_of_mem hw) (by rw [hj]; rfl)
  | dequeue fid commit _ hn hs ih => exact ih.concat hn (.dequeue _ _ _ _ _ _ hs)
  | @close log rid erid x tpc commit fid _ hn hs ih =>
    cases commit with
    | true => exact ih.concat hn (.commit _ _ _ _ _ _ hs)
    | false => exact ih.concat hn (.abort _ _ _ _ _ _ hs)

theorem of_front {l : List DataRec} (h : TplOnce log) (hp : l <+: log) : TplOnce l := by
  induction h with
  | nil =>
    rw [List.prefix_nil.mp hp]
    exact nil
  | prepare fid tpc h hn hx hno ih =>
    rcases List.prefix_concat_iff.mp hp with rfl | hp
    · exact prepare fid tpc h hn hx hno
    · exact ih hp
  | dequeue fid commit h hn hs ih =>
    rcases List.prefix_concat_iff.mp hp with rfl | hp
    · exact dequeue fid commit h hn hs
    · exact ih hp
  | close fid h hn hs ih =>
    rcases List.prefix_concat_iff.mp hp with rfl | hp
    · exact close fid h hn hs
    · exact ih hp

theorem prepare_unique (h : TplOnce log) {w w' : DataRec} {rid d rid' d' : Nat} {t e t' e' : Bool} (hw : w ∈ log)
    (hw' : w' ∈ log) (hj : w.placed.jrec = .enq rid x d t e) (hj' : w'.placed.jrec = .enq rid' x d' t' e') :
    w = w' := by
  have hx : w.placed.jrec.xid = x := by rw [hj]; rfl
  have hx' : w'.placed.jrec.xid = x := by rw [hj']; rfl
  induction h with
  | nil => cases hw
  | @prepare log rid₀ y fid tpc h hn hy hno ih =>
    rcases List.mem_append.mp hw with hm | hm
    · rcases List.mem_append.mp hw' with hm' | hm'
      · exact ih hm hm'
      · have hyx : y = x := by rwa [List.mem_singleton.mp hm'] at hx'
        exact absurd (hx.trans hyx.symm) (hno _ (List.mem_map_of_mem hm))
    · rcases List.mem_append.mp hw' with hm' | hm'
      · have hyx : y = x := by rwa [List.mem_singleton.mp hm] at hx
        exact absurd (hx'.trans hyx.symm) (hno _ (List.mem_map_of_mem hm'))
      · rw [List.mem_singleton.mp hm, List.mem_singleton.mp hm']
  | @dequeue log rid₀ erid y tpc fid commit h hn hs ih =>
    rcases List.mem_append.mp hw with hm | hm
    · rcases List.mem_append.mp hw' with hm' | hm'
      · exact ih hm hm'
      · rw [List.mem_singleton.mp hm'] at hj'
        cases hj'
    · rw [List.mem_singleton.mp hm] at hj
      cases hj
  | @close log rid₀ erid y tpc commit fid h hn hs ih =>
    rcases List.mem_append.mp hw with hm | hm
    · rcases List.mem_append.mp hw' with hm' | hm'
      · exact ih hm hm'
      · rw [List.mem_singleton.mp hm'] at hj'
        cases commit with
        | true => cases hj'
        | false => cases hj'
    · rw [List.mem_singleton.mp hm] at hj
      cases commit with
      | true => cases hj
      | false => cases hj

theorem enqueued_of_front {l : List DataRec} {rid : Nat} {tpc : Bool} (h : TplOnce log) (hp : l <+: log)
    (hs : tplState x log = .enqueued rid tpc) (hprep : Prepares x (placeds l)) :
    tplState x l = .enqueued rid tpc := by
  induction h with
  | nil =>
    rw [List.prefix_nil.mp hp]
    exact hs
  | @prepare log rid' y fid tpc' h hn hy hno ih =>
    rcases List.prefix_concat_iff.mp hp with rfl | hp
    · exact hs
    · by_cases hyx : y = x
      · subst hyx
        exact absurd hprep (not_prepares_of_unnamed fun p hm => hno p ((hp.map DataRec.placed).subset hm))
      · rw [tplState_concat, TplState.next_of_ne _ (by exact hyx)] at hs
        exact ih hp hs
  | @dequeue log rid' erid y tpc' fid commit h hn hst ih =>
    rcases List.prefix_concat_iff.mp hp with rfl | hp
    · exact hs
    · by_cases hyx : y = x
      · subst hyx
        simp [tplState_concat, TplState.next, hst] at hs
      · rw [tplState_concat, TplState.next_of_ne _ (by exact hyx)] at hs
        exact ih hp hs
  | @close log rid' erid y tpc' commit fid h hn hst ih =>
    rcases List.prefix_concat_iff.mp hp with rfl | hp
    · exact hs
    · by_cases hyx : y = x
      · subst hyx
        cases commit with
        | true => simp [tplState_concat, TplState.next] at hs
        | false => simp [tplState_concat, TplState.next] at hs
      · have hne : (if commit then JRec.txc rid' y else JRec.txa rid' y).xid ≠ x := by
          cases commit
          · exact hyx
          · exact hyx
        rw [tplState_concat, TplState.next_of_ne _ (by exact hne)] at hs
        exact ih hp hs

theorem fits (h : TplOnce log) (x : Xid) : (tplState x log).Fits x (placeds log) := by
  induction h with
  | nil => exact .inl fun _ hp => (List.not_mem_nil hp).elim
  | @prepare log rid y fid tpc _ hn hy hno ih =>
    rw [tplState_concat, placeds_concat]
    by_cases hyx : y = x
    · subst hyx
      simp only [TplState.next, if_true, TplState.Fits]
      refine ⟨⟨_, List.mem_append_right _ (List.mem_singleton_self _), rid, 1, false, false, rfl⟩, ?_, ?_, ?_⟩
      · intro b
        rw [decides_concat, not_or]
        exact ⟨not_decides_of_unnamed hno, by simp⟩
      · rw [commits_concat_iff, not_or]
        exact ⟨not_commits_of_unnamed hno, by simp⟩
      · rw [aborts_concat_iff, not_or]
        exact ⟨not_aborts_of_unnamed hno, by simp⟩
    · rw [TplState.next_of_ne _ (by exact hyx)]
      exact fits_concat_of_ne ih hyx
  | @dequeue log rid erid y tpc fid commit _ hn hs ih =>
    rw [tplState_concat, placeds_concat]
    by_cases hyx : y = x
    · subst hyx
      rw [hs] at ih ⊢
      obtain ⟨hprep, hdec, hcom, habo⟩ := ih
      simp only [TplState.next, if_true, TplState.Fits]
      refine ⟨prepares_concat.mpr (.inl hprep), ?_, ?_, ?_⟩
      · intro b
        rw [decides_concat, or_iff_right (hdec b)]
        simp [eq_comm]
      · rw [commits_concat_iff, not_or]
        exact ⟨hcom, by simp⟩
      · rw [aborts_concat_iff, not_or]
        exact ⟨habo, by simp⟩
    · rw [TplState.next_of_ne _ (by exact hyx)]
      exact fits_concat_of_ne ih hyx
  | @close log rid erid y tpc commit fid _ hn hs ih =>
    rw [tplState_concat, placeds_concat]
    by_cases hyx : y = x
    · subst hyx
      rw [hs] at ih ⊢
      obtain ⟨hprep, hdec, hcom, habo⟩ := ih
      have hab : ∀ w : DataRec, w.placed.jrec.closes y = true →
          (TplState.dequeued erid tpc commit).next y w = .absent := by
        intro w hw
        rcases (closes_iff _ _).mp hw with ⟨rid, hj⟩ | ⟨rid, hj⟩
        · simp [TplState.next, hj]
        · simp [TplState.next, hj]
      rw [hab _ (by cases commit <;> simp [JRec.closes])]
      refine .inr ⟨prepares_concat.mpr (.inl hprep), commit, ?_, ?_, ?_⟩
      · intro b
        rw [decides_concat, hdec b, or_iff_left]
        cases commit <;> simp
      · rw [commits_concat_iff, or_iff_right hcom]
        cases commit <;> simp
      · rw [aborts_concat_iff, or_iff_right habo]
        cases commit <;> simp
    · have hne : (if commit then JRec.txc rid y else JRec.txa rid y).xid ≠ x := by
        cases commit
        · exact hyx
        · exact hyx
      rw [TplState.next_of_ne _ (by exact hne)]
      exact fits_concat_of_ne ih hne

/-- At most one outcome. -/
theorem decides_unique (h : TplOnce log) {b b' : Bool} (hb : Decides x b (placeds log))
    (hb' : Decides x b' (placeds log)) : b = b' := by
  have hf := h.fits x
  cases hs : tplState x log with
  | absent =>
    rw [hs] at hf
    rcases hf with hno | ⟨-, c, hd, -⟩
    · exact absurd hb (not_decides_of_unnamed hno)
    · exact ((hd b).mp hb).trans ((hd b').mp hb').symm
  | enqueued rid tpc =>
    rw [hs] at hf
    exact absurd hb (hf.2.1 b)
  | dequeued rid tpc c =>
    rw [hs] at hf
    exact ((hf.2.1 b).mp hb).trans ((hf.2.1 b').mp hb').symm

theorem prepares_of_named (h : TplOnce log) {p : Placed} (hp : p ∈ placeds log) (hx : p.jrec.xid = x) :
    Prepares x (placeds log) := by
  have hf := h.fits x
  cases hs : tplState x log with
  | absent =>
    rw [hs] at hf
    rcases hf with hno | ⟨hprep, -⟩
    · exact absurd hx (hno p hp)
    · exact hprep
  | enqueued rid tpc =>
    rw [hs] at hf
    exact hf.1
  | dequeued rid tpc c =>
    rw [hs] at hf
    exact hf.1

theorem prepares_of_decides (h : TplOnce log) {b : Bool}
    (hd : Decides x b (placeds log)) : Prepares x (placeds log) := by
  obtain ⟨p, hp, rid, drid, hj⟩ := hd
  exact h.prepares_of_named hp (by rw [hj]; rfl)

theorem ne_nil_of_prepares (h : TplOnce log) (hp : Prepares x (placeds log)) : x ≠ [] := by
  induction h with
  | nil =>
    obtain ⟨p, hp, -⟩ := hp
    cases hp
  | @prepare log rid y fid tpc h hn hy hno ih =>
    rw [placeds_concat, prepares_concat] at hp
    rcases hp with hp | ⟨rid', d, t, e, hj⟩
    · exact ih hp
    · cases hj
      exact hy
  | @dequeue log rid erid y tpc fid commit h hn hs ih =>
    rw [placeds_concat, prepares_concat] at hp
    rcases hp with hp | ⟨rid', d, t, e, hj⟩
    · exact ih hp
    · cases hj
  | @close log rid erid y tpc commit fid h hn hs ih =>
    rw [placeds_concat, prepares_concat] at hp
    rcases hp with hp | ⟨rid', d, t, e, hj⟩
    · exact ih hp
    · cases commit with
      | true => cases hj
      | false => cases hj

theorem absent_of_not_prepares (h : TplOnce log) (hp : ¬Prepares x (placeds log)) :
    tplState x log = .absent := by
  have hf := h.fits x
  cases hs : tplState x log with
  | absent => rfl
  | enqueued rid tpc =>
    rw [hs] at hf
    exact absurd hf.1 hp
  | dequeued rid tpc c =>
    rw [hs] at hf
    exact absurd hf.1 hp

theorem commits_of_decides (h : TplOnce log) (hs : tplState x log = .absent)
    (hd : Decides x true (placeds log)) : Commits x (placeds log) := by
  have hf := h.fits x
  rw [hs] at hf
  rcases hf with hno | ⟨-, b, hdec, hcom, -⟩
  · exact absurd hd (not_decides_of_unnamed hno)
  · exact hcom.mpr ((hdec true).mp hd).symm

end TplOnce

end RhmStore
