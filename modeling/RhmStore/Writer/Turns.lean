import RhmStore.Writer.Fresh
import RhmStore.Writer.Contents
import RhmStore.Writer.Protects

/-! # Turns of the ring and what is written in them

A file is reset at most once in each turn of the ring onto it. What is encoded in a turn stays on its
file until the ring has come round to the file again and has reset it. -/

namespace RhmStore

/-- The file in which a record begins. -/
def Written.fid (w : Written) : Nat := (w.parts.head?.map Part.fid).getD 0

/-- The turn of the ring in which a record begins. -/
def Written.turn (w : Written) : Nat := (w.parts.head?.map Part.inst).getD 0

def Written.add (w : Written) (p : Part) : Written := { w with parts := w.parts ++ [p] }

namespace Wmgr

variable {g : Geom} {s₀ s s' : Wmgr} {c : Call} {t stamp sent : Nat}

/-- The first turn of the ring of which the file has not been reset. -/
def entered (s : Wmgr) : Nat := if s.fresh then s.rot + 1 else s.rot

/-- A file has not been reset since there were `stamp` resets, and what has been written to it since there
were `sent` writes belongs to the turn `t`. -/
structure KeptSince (s : Wmgr) (fid t stamp sent : Nat) : Prop where
  notReset : fid ∉ s.resets.drop stamp
  notOver : ∀ w ∈ s.subm.drop sent, w.fid = fid → w.inst = t

def Kept (s : Wmgr) (p : Part) : Prop := s.KeptSince p.fid p.inst p.stamp p.sent

/-- All that has been reset and written since is of the turn `t` or of later ones. -/
structure Since (g : Geom) (s : Wmgr) (t stamp sent : Nat) : Prop where
  turn : t < s.entered
  resets : ∀ f ∈ s.resets.drop stamp, ∃ u, t < u ∧ u < s.entered ∧ f = u % g.numJfiles
  sent : ∀ w ∈ s.subm.drop sent, t ≤ w.inst

theorem entered_of_fresh (h : s.fresh = true) : s.entered = s.rot + 1 := if_pos h

theorem entered_of_not_fresh (h : s.fresh = false) : s.entered = s.rot := by
  rw [entered, h]
  rfl

theorem entered_le (s : Wmgr) : s.entered ≤ s.rot + 1 := by
  rw [entered]
  split <;> omega

theorem entered_congr (hr : s'.rot = s.rot) (hf : s'.fresh = s.fresh) : s'.entered = s.entered := by
  rw [entered, hr, hf, entered]

theorem entered_turned (h : s.fresh = true) : (s.turned g).entered = s.entered := by
  rw [entered_of_fresh h, entered_of_not_fresh rfl]
  rfl

theorem mod_ne_of_lt {u n : Nat} (h : t < u) (hu : u < t + n) : u % n ≠ t % n := by
  intro he
  have hd := Nat.dvd_of_mod_eq_zero (Nat.sub_mod_eq_zero_of_mod_eq he)
  have := Nat.le_of_dvd (by omega) hd
  omega

/-- Until the ring has come round to a turn before it, a file is kept as it is. -/
theorem Since.kept (h : s.Since g t stamp sent)
    (hs : ∀ w ∈ s.subm, w.inst < s.entered ∧ w.fid = w.inst % g.numJfiles)
    {t₀ : Nat} (hle : t₀ ≤ t) (hin : s.entered ≤ t₀ + g.numJfiles) :
    s.KeptSince (t % g.numJfiles) t stamp sent := by
  constructor
  · intro hm
    obtain ⟨u, h1, h2, h3⟩ := h.resets _ hm
    exact mod_ne_of_lt h1 (by omega) h3.symm
  · intro w hw hf
    obtain ⟨h1, h2⟩ := hs w (List.drop_subset _ _ hw)
    rcases Nat.lt_or_eq_of_le (h.sent w hw) with hlt | heq
    · exact (mod_ne_of_lt hlt (by omega) (h2 ▸ hf)).elim
    · exact heq.symm

theorem Since.of_eq (h : s.Since g t stamp sent) (hr : s'.rot = s.rot) (hf : s'.fresh = s.fresh)
    (hres : s'.resets = s.resets) (hs : s'.subm = s.subm) : s'.Since g t stamp sent := by
  have he := entered_congr hr hf
  obtain ⟨h1, h2, h3⟩ := h
  exact ⟨by rwa [he], by rwa [hres, he], by rwa [hs]⟩

theorem mem_drop_concat {α : Type*} {l : List α} {a b : α} {k : Nat} (h : b ∈ (l ++ [a]).drop k) :
    b ∈ l.drop k ∨ b = a := by
  rw [List.drop_append, List.mem_append] at h
  exact h.imp_right fun h => List.mem_singleton.mp (List.drop_subset _ _ h)

theorem Since.resetTo (h : s.Since g t stamp sent) (hf : s.fresh = false)
    (hx : s.fcIndex = s.rot % g.numJfiles) {ok : Bool} (hr : s.ResetTo ok s') : s'.Since g t stamp sent := by
  cases hr with
  | held _ => exact h.of_eq rfl rfl rfl rfl
  | reset _ _ =>
    have ht := h.turn
    have he : s.afterReset.entered = s.rot + 1 := entered_of_fresh rfl
    rw [entered_of_not_fresh hf] at ht
    refine ⟨by omega, fun f hm => ?_, h.sent⟩
    rw [he]
    rcases mem_drop_concat hm with hm | rfl
    · obtain ⟨u, h1, h2, h3⟩ := h.resets f hm
      rw [entered_of_not_fresh hf] at h2
      exact ⟨u, h1, by omega, h3⟩
    · exact ⟨s.rot, ht, Nat.lt_succ_self _, hx⟩

theorem Since.turned (h : s.Since g t stamp sent) (hf : s.fresh = true) :
    (s.turned g).Since g t stamp sent := by
  obtain ⟨h1, h2, h3⟩ := h
  exact ⟨by rwa [entered_turned hf], by rwa [entered_turned hf], h3⟩

theorem Since.submit (h : s.Since g t stamp sent) {w : Write} (hw : w.inst = s.rot) (hr : s'.rot = s.rot)
    (hf : s'.fresh = s.fresh) (hres : s'.resets = s.resets) (hs : s'.subm = s.subm ++ [w]) :
    s'.Since g t stamp sent := by
  have he := entered_congr hr hf
  have hle := entered_le s
  obtain ⟨h1, h2, h3⟩ := h
  refine ⟨by rwa [he], by rwa [hres, he], ?_⟩
  rw [hs]
  intro x hx
  rcases mem_drop_concat hx with hx | rfl
  · exact h3 x hx
  · omega

/-- Files, writes and the parts of all records are in their turns of the ring, and so is what the start has
found in the files. -/
structure Turns (g : Geom) (s s₀ : Wmgr) : Prop where
  index : s.fcIndex = s.rot % g.numJfiles
  short : s.fresh = false → s.pgCntr < g.jfsizePgs
  sent : ∀ w ∈ s.subm, w.inst < s.entered ∧ w.fid = w.inst % g.numJfiles
  found : ∀ t < s₀.entered, s.Since g t s₀.resets.length 0
  parts : ∀ w, w ∈ s.log ∨ w ∈ s.cur → w.parts ≠ [] ∧ ∀ p ∈ w.parts,
    p.fid = p.inst % g.numJfiles ∧ w.turn ≤ p.inst ∧ s.Since g p.inst p.stamp p.sent

/-- A change that leaves files and writes as they are. -/
theorem Turns.of_eq (h : s.Turns g s₀) (hr : s'.rot = s.rot) (hf : s'.fresh = s.fresh)
    (hx : s'.fcIndex = s.fcIndex) (hk : s'.pgCntr = s.pgCntr) (hres : s'.resets = s.resets)
    (hs : s'.subm = s.subm) (hl : ∀ w, w ∈ s'.log ∨ w ∈ s'.cur → w ∈ s.log ∨ w ∈ s.cur) :
    s'.Turns g s₀ where
  index := by rw [hx, hr, h.index]
  short := by
    rw [hf, hk]
    exact h.short
  sent := by
    rw [hs, entered_congr hr hf]
    exact h.sent
  found t ht := (h.found t ht).of_eq hr hf hres hs
  parts w hw := by
    obtain ⟨h1, h2⟩ := h.parts w (hl w hw)
    exact ⟨h1, fun p hp => ⟨(h2 p hp).1, (h2 p hp).2.1, (h2 p hp).2.2.of_eq hr hf hres hs⟩⟩

theorem Turns.returned (h : s.Turns g s₀) (hr : s.Returned s') : s'.Turns g s₀ :=
  h.of_eq hr.rot hr.fresh hr.fcIndex hr.pgCntr hr.resets hr.subm fun w hw => by
    rwa [hr.log, hr.cur] at hw

theorem Turns.resetTo (h : s.Turns g s₀) (hf : s.fresh = false) {ok : Bool} (hr : s.ResetTo ok s') :
    s'.Turns g s₀ := by
  have hsince : ∀ {t stamp sent}, s.Since g t stamp sent → s'.Since g t stamp sent :=
    fun hs => hs.resetTo hf h.index hr
  have hsent := h.sent
  rw [entered_of_not_fresh hf] at hsent
  have hparts : ∀ w, w ∈ s.log ∨ w ∈ s.cur → w.parts ≠ [] ∧ ∀ p ∈ w.parts,
      p.fid = p.inst % g.numJfiles ∧ w.turn ≤ p.inst ∧ s'.Since g p.inst p.stamp p.sent := fun w hw =>
    ⟨(h.parts w hw).1, fun p hp => ((h.parts w hw).2 p hp).imp_right (And.imp_right hsince)⟩
  cases hr with
  | held _ => exact h.of_eq rfl rfl rfl rfl rfl rfl fun _ hw => hw
  | reset _ _ =>
    refine ⟨h.index, by rintro ⟨⟩, fun w hw => ?_, fun t ht => hsince (h.found t ht), hparts⟩
    rw [entered_of_fresh rfl]
    exact ⟨Nat.lt_succ_of_lt (hsent w hw).1, (hsent w hw).2⟩

theorem Turns.turned (h : s.Turns g s₀) (hf : s.fresh = true) : (s.turned g).Turns g s₀ where
  index := index_turned h.index
  short _ := g.jfsizePgs_pos
  sent := by
    rw [entered_turned hf]
    exact h.sent
  found t ht := (h.found t ht).turned hf
  parts w hw := ⟨(h.parts w hw).1, fun p hp =>
    ((h.parts w hw).2 p hp).imp_right (And.imp_right fun hs => hs.turned hf)⟩

theorem Turns.rotatesTo (h : s.Turns g s₀) (hf : s.fresh = true) {res : Iores}
    (hr : s.RotatesTo g res s') : s'.Turns g s₀ := by
  have ht := h.turned hf
  cases hr with
  | wait _ => exact ht
  | full _ => exact ht.of_eq rfl rfl rfl rfl rfl rfl fun _ hw => hw
  | reset he ha => exact ht.resetTo rfl (.reset he ha)

/-- A write to the current file, which was reset. -/
theorem Turns.submit (h : s.Turns g s₀) (hf : s.fresh = true) {w : Write} (hw : w.inst = s.rot)
    (hx : w.fid = s.fcIndex) (hr : s'.rot = s.rot) (hf' : s'.fresh = s.fresh)
    (hx' : s'.fcIndex = s.fcIndex) (hres : s'.resets = s.resets) (hs : s'.subm = s.subm ++ [w])
    (hl : s'.log = s.log) (hc : s'.cur = s.cur) : s'.Turns g s₀ where
  index := by rw [hx', hr, h.index]
  short hn := by
    rw [hf', hf] at hn
    cases hn
  sent := by
    rw [hs, entered_congr hr hf']
    intro x hm
    rcases List.mem_append.mp hm with hm | hm
    · exact h.sent x hm
    · rw [List.mem_singleton.mp hm, hw, hx, h.index, entered_of_fresh hf]
      exact ⟨Nat.lt_succ_self _, rfl⟩
  found t ht := (h.found t ht).submit hw hr hf' hres hs
  parts x hm := by
    rw [hl, hc] at hm
    exact ⟨(h.parts x hm).1, fun p hp =>
      ((h.parts x hm).2 p hp).imp_right (And.imp_right fun hk => hk.submit hw hr hf' hres hs)⟩

theorem Turns.headeredTo (h : s.Turns g s₀) (hf : s.fresh = true) (ht : s.HeaderedTo s') :
    s'.Turns g s₀ := by
  cases ht with
  | kept _ => exact h
  | written h0 hdr => exact h.submit hf (w := ⟨s.fcIndex, 0, _, _, none, s.rot⟩) rfl rfl rfl rfl rfl rfl rfl rfl rfl

theorem Turns.flushed (h : s.Turns g s₀) (hf : s.cached ≠ 0 → s.fresh = true) :
    (s.flushed g).Turns g s₀ := by
  rw [Wmgr.flushed]
  split
  · exact h
  · have hs : (s.pageSubmitted g).Turns g s₀ :=
      h.submit (hf ‹_›) (w := ⟨s.fcIndex, _, _, _, some s.pgIndex, s.rot⟩) rfl rfl rfl rfl rfl rfl rfl rfl rfl
    exact hs.returned returned_taken

/-- The turn in which the record that goes on has begun, or one begins now. -/
def curTurn (s : Wmgr) : Nat := (s.cur.map Written.turn).getD s.rot

def curFid (s : Wmgr) : Nat := (s.cur.map Written.fid).getD s.fcIndex

section Encode

variable {op : OpType} {r : JRec} {tok : Nat}

theorem cur_encoded_eq (g : Geom) (r : JRec) (tok : Nat) (s : Wmgr) : (s.encoded g r tok).cur =
    some ((s.cur.getD ⟨tok, r, s.owi, []⟩).add (s.nextPart g r tok)) := by
  cases h : s.cur <;> simp [encoded, h, Written.add]

/-- One part more does not change where a record has begun. -/
theorem Turns.begins_add (h : s.Turns g s₀) (r : JRec) (tok : Nat) :
    ((s.cur.getD ⟨tok, r, s.owi, []⟩).add (s.nextPart g r tok)).turn = s.curTurn ∧
      ((s.cur.getD ⟨tok, r, s.owi, []⟩).add (s.nextPart g r tok)).fid = s.curFid := by
  cases hc : s.cur with
  | none => simp [Written.add, Written.turn, Written.fid, curTurn, curFid, hc, nextPart]
  | some w =>
    obtain ⟨p, ps, hp⟩ := List.exists_cons_of_ne_nil (h.parts w (Or.inr hc)).1
    simp [Written.add, Written.turn, Written.fid, curTurn, curFid, hc, hp]

theorem Turns.turn_lt (h : s.Turns g s₀) {w : Written} (hw : w ∈ s.log ∨ w ∈ s.cur) :
    w.turn < s.entered ∧ w.fid = w.turn % g.numJfiles := by
  obtain ⟨hne, hp⟩ := h.parts w hw
  obtain ⟨p, ps, hps⟩ := List.exists_cons_of_ne_nil hne
  obtain ⟨h1, -, h3⟩ := hp p (hps ▸ List.mem_cons_self)
  simpa [Written.turn, Written.fid, hps] using ⟨h3.turn, h1⟩

theorem Turns.curTurn_le (h : s.Turns g s₀) : s.curTurn ≤ s.rot := by
  cases hc : s.cur with
  | none => simp [curTurn, hc]
  | some w =>
    have h1 := (h.turn_lt (Or.inr hc)).1
    have h2 := entered_le s
    simp only [curTurn, hc, Option.map_some, Option.getD_some]
    omega

theorem Turns.encoded (h : s.Turns g s₀) (hf : s.fresh = true) (r : JRec) (tok : Nat) :
    (s.encoded g r tok).Turns g s₀ := by
  have hturn := (h.begins_add r tok).1
  have hle := h.curTurn_le
  have hsince : ∀ {t stamp sent}, s.Since g t stamp sent → (s.encoded g r tok).Since g t stamp sent :=
    fun hs => hs.of_eq rfl rfl rfl rfl
  refine ⟨h.index, h.short, h.sent, fun t ht => hsince (h.found t ht), fun w hw => ?_⟩
  rcases hw with hw | hw
  · exact ⟨(h.parts w (Or.inl hw)).1, fun p hp =>
      ((h.parts w (Or.inl hw)).2 p hp).imp_right (And.imp_right hsince)⟩
  · rw [cur_encoded_eq] at hw
    obtain rfl := Option.some.inj hw
    refine ⟨by simp [Written.add], fun p hp => ?_⟩
    rw [hturn]
    rcases List.mem_append.mp hp with hp | hp
    · cases hc : s.cur with
      | none =>
        rw [hc] at hp
        exact (List.not_mem_nil hp).elim
      | some v =>
        rw [hc] at hp
        obtain ⟨h1, h2, h3⟩ := (h.parts v (Or.inr hc)).2 p hp
        exact ⟨h1, by simpa [curTurn, hc] using h2, hsince h3⟩
    · rw [List.mem_singleton.mp hp]
      refine ⟨h.index, hle, hsince ⟨?_, ?_, ?_⟩⟩
      · rw [entered_of_fresh hf]
        exact Nat.lt_succ_self _
      · simp [nextPart]
      · simp [nextPart]

end Encode

end Wmgr

end RhmStore
