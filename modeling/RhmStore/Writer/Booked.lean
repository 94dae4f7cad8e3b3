import RhmStore.Writer.Tokens

/-! # Outstanding writes and what is counted of them -/

namespace RhmStore

open Finset

def PageCb.out (p : PageCb) : Nat := if p.state = .aioPending then 1 else 0

def PageCb.outTo (fid : Nat) (p : PageCb) : Nat :=
  if p.state = .aioPending ∧ p.wfh = fid then 1 else 0

def PageCb.dblksTo (fid : Nat) (p : PageCb) : Nat :=
  if p.state = .aioPending ∧ p.wfh = fid then p.wdblks else 0

def Fcntl.out (f : Fcntl) : Nat := if f.wrFhdrAioOutstanding then 1 else 0

/-- Where a write is kept until it returns: in a page, or in the header buffer of a file. -/
def Write.seat (w : Write) : Nat ⊕ Nat := (w.page.map Sum.inl).getD (.inr w.fid)

namespace Wmgr

variable {g : Geom} {s s' : Wmgr}

def seatTaken (s : Wmgr) : Nat ⊕ Nat → Nat
  | .inl pg => (s.pages pg).out
  | .inr fid => (s.fcntls fid).out

def seated (s : Wmgr) (x : Nat ⊕ Nat) : Nat :=
  s.pending.countP fun i => (s.subm[i]?).map Write.seat = some x

/-- What is counted of outstanding writes, in the write manager, in pages and in files. -/
structure Booked (g : Geom) (s : Wmgr) : Prop where
  pgIndex : s.pgIndex < g.numPages
  fcIndex : s.fcIndex < g.numJfiles
  pages : ∀ pg, (s.pages pg).state = .aioPending → pg < g.numPages
  headers : ∀ fid, (s.fcntls fid).wrFhdrAioOutstanding = true → fid < g.numJfiles
  evtRem : s.aioEvtRem = (∑ j ∈ range g.numPages, (s.pages j).out) +
    ∑ j ∈ range g.numJfiles, (s.fcntls j).out
  aioCnt : ∀ fid, (s.fcntls fid).aioCnt =
    (∑ j ∈ range g.numPages, (s.pages j).outTo fid) + (s.fcntls fid).out
  subm : ∀ fid, (s.fcntls fid).wrSubm = (s.fcntls fid).wrCmpl +
    (∑ j ∈ range g.numPages, (s.pages j).dblksTo fid) + jrnlSblkSize * (s.fcntls fid).out
  seats : ∀ x, s.seated x = s.seatTaken x
  events : ∀ i ∈ s.pending, ∃ w, s.subm[i]? = some w ∧ ∀ pg, w.page = some pg →
    (s.pages pg).wfh = w.fid ∧ (s.pages pg).wdblks = w.dblks

/-- The same outstanding writes, files and pages, but for what is in the pages. -/
theorem Booked.of_eq (h : s.Booked g) (hi : s'.pgIndex = s.pgIndex) (hf : s'.fcIndex < g.numJfiles)
    (hp : ∀ pg, (s'.pages pg).out = (s.pages pg).out ∧ (s'.pages pg).wfh = (s.pages pg).wfh ∧
      (s'.pages pg).wdblks = (s.pages pg).wdblks)
    (hc : s'.fcntls = s.fcntls) (he : s'.aioEvtRem = s.aioEvtRem) (hs : s'.subm = s.subm)
    (hq : s'.pending = s.pending) : s'.Booked g := by
  have hstate : ∀ pg, (s'.pages pg).state = .aioPending ↔ (s.pages pg).state = .aioPending := by
    intro pg
    have := (hp pg).1
    simp only [PageCb.out] at this
    split at this <;> split at this <;> simp_all
  have ho : ∀ fid pg, (s'.pages pg).outTo fid = (s.pages pg).outTo fid := by
    intro fid pg
    simp only [PageCb.outTo, hstate, (hp pg).2.1]
  have hd : ∀ fid pg, (s'.pages pg).dblksTo fid = (s.pages pg).dblksTo fid := by
    intro fid pg
    simp only [PageCb.dblksTo, hstate, (hp pg).2.1, (hp pg).2.2]
  constructor
  · exact hi ▸ h.pgIndex
  · exact hf
  · intro pg hpg
    exact h.pages pg ((hstate pg).mp hpg)
  · exact hc ▸ h.headers
  · simpa only [he, hc, fun pg => (hp pg).1] using h.evtRem
  · simpa only [hc, ho] using h.aioCnt
  · simpa only [hc, hd] using h.subm
  · intro x
    have hx := h.seats x
    simp only [seated, hs, hq] at hx ⊢
    rw [hx]
    cases x with
    | inl pg => exact (hp pg).1.symm
    | inr fid => simp only [seatTaken, hc]
  · intro i hi
    obtain ⟨w, hw, hpg⟩ := h.events i (hq ▸ hi)
    refine ⟨w, hs ▸ hw, fun pg hpage => ?_⟩
    rw [(hp pg).2.1, (hp pg).2.2]
    exact hpg pg hpage

theorem Booked.used (h : s.Booked g) (hp : (s.pages s.pgIndex).state = .unused) :
    s.used.Booked g := by
  refine h.of_eq rfl h.fcIndex ?_ rfl rfl rfl rfl
  intro pg
  by_cases hpg : pg = s.pgIndex
  · subst hpg
    simp [Wmgr.used, PageCb.out, hp]
  · simp [Wmgr.used, hpg]

theorem Booked.dblksTo_of_aioCnt (h : s.Booked g) {fid : Nat} (ha : (s.fcntls fid).aioCnt = 0) :
    (∑ j ∈ range g.numPages, (s.pages j).dblksTo fid) = 0 ∧ (s.fcntls fid).out = 0 := by
  have h0 := h.aioCnt fid
  rw [ha] at h0
  have hsum : ∑ j ∈ range g.numPages, (s.pages j).outTo fid = 0 := by omega
  constructor
  · rw [sum_range_eq_zero_iff s.pages (PageCb.dblksTo fid)]
    intro j hj
    have := (sum_range_eq_zero_iff s.pages (PageCb.outTo fid)).mp hsum j hj
    simp only [PageCb.outTo, PageCb.dblksTo] at this ⊢
    split at this
    · cases this
    · rw [if_neg ‹_›]
  · omega

theorem Booked.of_fcntls (h : s.Booked g) {c : Nat → Fcntl}
    (ho : ∀ fid, (c fid).wrFhdrAioOutstanding = (s.fcntls fid).wrFhdrAioOutstanding ∧
      (c fid).aioCnt = (s.fcntls fid).aioCnt)
    (hs : ∀ fid, (c fid).wrSubm = (c fid).wrCmpl +
      (∑ j ∈ range g.numPages, (s.pages j).dblksTo fid) + jrnlSblkSize * (s.fcntls fid).out) :
    ({ s with fcntls := c } : Wmgr).Booked g := by
  have hout : ∀ fid, (c fid).out = (s.fcntls fid).out := by
    intro fid
    simp only [Fcntl.out, (ho fid).1]
  constructor
  · exact h.pgIndex
  · exact h.fcIndex
  · exact h.pages
  · intro fid hf
    exact h.headers fid ((ho fid).1 ▸ hf)
  · simpa only [hout] using h.evtRem
  · intro fid
    simpa only [hout, (ho fid).2] using h.aioCnt fid
  · intro fid
    simpa only [hout] using hs fid
  · intro x
    rw [show ({ s with fcntls := c } : Wmgr).seated x = s.seated x from rfl, h.seats x]
    cases x with
    | inl pg => rfl
    | inr fid => simp only [seatTaken, hout]
  · exact h.events

theorem Booked.resetTo (h : s.Booked g) {b : Bool} (hr : s.ResetTo b s') : s'.Booked g := by
  cases hr with
  | held _ => exact h.of_eq rfl h.fcIndex (fun _ => ⟨rfl, rfl, rfl⟩) rfl rfl rfl rfl
  | reset _ ha =>
    obtain ⟨hd, ho⟩ := h.dblksTo_of_aioCnt ha
    have hb : ({ s with
        fcntls := Function.update s.fcntls s.fcIndex
          { s.fcntls s.fcIndex with wrSubm := 0, wrCmpl := 0 } } : Wmgr).Booked g := by
      apply h.of_fcntls
      · intro fid
        by_cases hf : fid = s.fcIndex
        · subst hf
          simp
        · simp [hf]
      · intro fid
        by_cases hf : fid = s.fcIndex
        · subst hf
          simp [hd, ho]
        · simpa [hf] using h.subm fid
    exact hb.of_eq rfl h.fcIndex (fun _ => ⟨rfl, rfl, rfl⟩) rfl rfl rfl rfl

theorem Booked.turned (h : s.Booked g) : (s.turned g).Booked g := by
  refine h.of_eq rfl ?_ (fun _ => ⟨rfl, rfl, rfl⟩) rfl rfl rfl rfl
  have := h.fcIndex
  simp only [Wmgr.turned]
  split <;> omega

theorem Booked.rotatesTo (h : s.Booked g) {res : Iores} (hr : s.RotatesTo g res s') :
    s'.Booked g := by
  cases hr with
  | wait _ => exact h.turned
  | full _ => exact h.turned.of_eq rfl h.turned.fcIndex (fun _ => ⟨rfl, rfl, rfl⟩) rfl rfl rfl rfl
  | reset he ha => exact h.turned.resetTo (.reset he ha)

theorem Booked.lt_of_pending (h : s.Booked g) {i : Nat} (hi : i ∈ s.pending) :
    i < s.subm.length := by
  obtain ⟨w, hw, -⟩ := h.events i hi
  exact (List.getElem?_eq_some_iff.mp hw).1

theorem Booked.seated_submit (h : s.Booked g) {w : Write} (hs : s'.subm = s.subm ++ [w])
    (hq : s'.pending = s.pending ++ [s.subm.length]) (x : Nat ⊕ Nat) :
    s'.seated x = s.seatTaken x + if w.seat = x then 1 else 0 := by
  have hold : s.pending.countP (fun i => ((s.subm ++ [w])[i]?).map Write.seat = some x) =
      s.seated x := by
    apply List.countP_congr
    intro i hi
    rw [List.getElem?_append_left (h.lt_of_pending hi)]
  rw [seated, hs, hq, List.countP_append, hold, h.seats x]
  simp

theorem Booked.seated_return (h : s.Booked g) {i : Nat} {w : Write} (hi : i ∈ s.pending)
    (hw : s.subm[i]? = some w) (hs : s'.subm = s.subm) (hq : s'.pending = s.pending.erase i)
    (x : Nat ⊕ Nat) : s'.seated x + (if w.seat = x then 1 else 0) = s.seatTaken x := by
  have he := countP_erase_add hi fun i => decide ((s.subm[i]?).map Write.seat = some x)
  rw [hw] at he
  rw [← h.seats x, seated, seated, hs, hq, ← he]
  simp

theorem Booked.taken_of_pending (h : s.Booked g) {i : Nat} {w : Write} (hi : i ∈ s.pending)
    (hw : s.subm[i]? = some w) : s.seatTaken w.seat = 1 := by
  have hpos : 0 < s.seated w.seat := by
    rw [seated, List.countP_pos_iff]
    exact ⟨i, hi, by simp [hw]⟩
  rw [h.seats] at hpos
  cases hx : w.seat with
  | inl pg =>
    rw [hx] at hpos
    simp only [seatTaken, PageCb.out] at hpos ⊢
    split at hpos
    · rw [if_pos ‹_›]
    · omega
  | inr fid =>
    rw [hx] at hpos
    simp only [seatTaken, Fcntl.out] at hpos ⊢
    split at hpos
    · rw [if_pos ‹_›]
    · omega

theorem Booked.pending_nodup (h : s.Booked g) : s.pending.Nodup := by
  rw [List.nodup_iff_count_le_one]
  intro i
  by_cases hi : i ∈ s.pending
  · obtain ⟨w, hw, -⟩ := h.events i hi
    have ht := h.taken_of_pending hi hw
    rw [← h.seats, seated] at ht
    rw [← ht, List.count]
    apply List.countP_mono_left
    intro j _ hj
    rw [beq_iff_eq] at hj
    simp [hj, hw]
  · rw [List.count_eq_zero_of_not_mem hi]
    exact Nat.zero_le 1

theorem Booked.out_of_void (h : s.Booked g) {fid : Nat} (h0 : (s.fcntls fid).wrSubm = 0) :
    (s.fcntls fid).wrCmpl = 0 ∧ (s.fcntls fid).out = 0 ∧
      (∑ j ∈ range g.numPages, (s.pages j).dblksTo fid) = 0 := by
  have := h.subm fid
  rw [h0] at this
  unfold jrnlSblkSize at this
  omega

theorem Booked.events_submit (h : s.Booked g) {w : Write} (hs : s'.subm = s.subm ++ [w])
    (hq : s'.pending = s.pending ++ [s.subm.length])
    (hold : ∀ pg, (s.pages pg).state = .aioPending → s'.pages pg = s.pages pg)
    (hnew : ∀ pg, w.page = some pg → (s'.pages pg).wfh = w.fid ∧ (s'.pages pg).wdblks = w.dblks) :
    ∀ i ∈ s'.pending, ∃ v, s'.subm[i]? = some v ∧ ∀ pg, v.page = some pg →
      (s'.pages pg).wfh = v.fid ∧ (s'.pages pg).wdblks = v.dblks := by
  intro i hi
  rw [hq] at hi
  rcases List.mem_append.mp hi with hi | hi
  · obtain ⟨v, hv, hpg⟩ := h.events i hi
    refine ⟨v, ?_, fun pg hp => ?_⟩
    · rw [hs, List.getElem?_append_left (h.lt_of_pending hi), hv]
    · have ht := h.taken_of_pending hi hv
      simp only [Write.seat, hp, Option.map_some, Option.getD_some, seatTaken, PageCb.out] at ht
      rw [hold pg (by_contra fun hn => by simp [hn] at ht)]
      exact hpg pg hp
  · rw [List.mem_singleton] at hi
    subst hi
    exact ⟨w, by simp [hs], hnew⟩

theorem Booked.headeredTo (h : s.Booked g) (ht : s.HeaderedTo s') : s'.Booked g := by
  cases ht with
  | kept _ => exact h
  | written h0 hdr =>
    obtain ⟨hc, ho, hd⟩ := h.out_of_void h0
    have hu : ∀ fid, fid ≠ s.fcIndex → (s.fhdrSubmitted hdr).fcntls fid = s.fcntls fid := by
      intro fid hf
      simp [fhdrSubmitted, hf]
    have hself : (s.fhdrSubmitted hdr).fcntls s.fcIndex =
        ⟨(s.fcntls s.fcIndex).wrSubm + jrnlSblkSize, (s.fcntls s.fcIndex).wrCmpl,
          (s.fcntls s.fcIndex).aioCnt + 1, true⟩ := by
      simp [fhdrSubmitted]
    constructor
    · exact h.pgIndex
    · exact h.fcIndex
    · exact h.pages
    · intro fid hf
      by_cases he : fid = s.fcIndex
      · exact he ▸ h.fcIndex
      · exact h.headers fid (hu fid he ▸ hf)
    · have hsum : (∑ j ∈ range g.numJfiles, ((s.fhdrSubmitted hdr).fcntls j).out) +
          (s.fcntls s.fcIndex).out = (∑ j ∈ range g.numJfiles, (s.fcntls j).out) +
            ((s.fhdrSubmitted hdr).fcntls s.fcIndex).out := by
        rw [hself]
        exact sum_range_update s.fcntls Fcntl.out _ h.fcIndex
      have hone : ((s.fhdrSubmitted hdr).fcntls s.fcIndex).out = 1 := by simp [hself, Fcntl.out]
      have he := h.evtRem
      change s.aioEvtRem + 1 = (∑ j ∈ range g.numPages, (s.pages j).out) +
        ∑ j ∈ range g.numJfiles, ((s.fhdrSubmitted hdr).fcntls j).out
      omega
    · intro fid
      have ha := h.aioCnt fid
      by_cases hf : fid = s.fcIndex
      · subst hf
        rw [hself]
        change _ + 1 = (∑ j ∈ range g.numPages, (s.pages j).outTo _) + 1
        omega
      · rw [hu fid hf]
        exact ha
    · intro fid
      have ha := h.subm fid
      by_cases hf : fid = s.fcIndex
      · subst hf
        rw [hself]
        change (s.fcntls s.fcIndex).wrSubm + jrnlSblkSize = (s.fcntls s.fcIndex).wrCmpl +
          (∑ j ∈ range g.numPages, (s.pages j).dblksTo _) + jrnlSblkSize * 1
        omega
      · rw [hu fid hf]
        exact ha
    · intro x
      rw [h.seated_submit rfl rfl]
      cases x with
      | inl pg => rfl
      | inr fid =>
        simp only [seatTaken]
        by_cases hf : fid = s.fcIndex
        · subst hf
          rw [hself, ho]
          simp [Write.seat, Fcntl.out]
        · rw [hu fid hf]
          simp [Write.seat, Ne.symm hf]
    · exact h.events_submit rfl rfl (fun _ _ => rfl) (by rintro _ ⟨⟩)

theorem Booked.rounded (h : s.Booked g) : (s.rounded g).Booked g := by
  refine h.of_eq rfl h.fcIndex (fun pg => ?_) rfl rfl rfl rfl
  by_cases hp : pg = s.pgIndex
  · subst hp
    simp [Wmgr.rounded, PageCb.out]
  · simp [Wmgr.rounded, hp]

/-- The current page goes to the current file. -/
theorem Booked.submit (h : s.Booked g) (hp : (s.pages s.pgIndex).state = .inUse) {w : Write}
    (hw : w.page = some s.pgIndex) (hs : s'.subm = s.subm ++ [w])
    (hq : s'.pending = s.pending ++ [s.subm.length]) (he : s'.aioEvtRem = s.aioEvtRem + 1)
    (hpg : s'.pages = Function.update s.pages s.pgIndex { s.pages s.pgIndex with
      wdblks := w.dblks, wfh := s.fcIndex, state := .aioPending })
    (hc : s'.fcntls = Function.update s.fcntls s.fcIndex { s.fcntls s.fcIndex with
      wrSubm := (s.fcntls s.fcIndex).wrSubm + w.dblks
      aioCnt := (s.fcntls s.fcIndex).aioCnt + 1 })
    (hwf : w.fid = s.fcIndex) (hf : s'.fcIndex = s.fcIndex) (hi : s'.pgIndex < g.numPages) :
    s'.Booked g := by
  have hpo : ∀ pg, pg ≠ s.pgIndex → s'.pages pg = s.pages pg := by
    intro pg hne
    rw [hpg, Function.update_of_ne hne]
  have hps : s'.pages s.pgIndex = { s.pages s.pgIndex with
      wdblks := w.dblks, wfh := s.fcIndex, state := .aioPending } := by
    rw [hpg, Function.update_self]
  have hco : ∀ fid, fid ≠ s.fcIndex → s'.fcntls fid = s.fcntls fid := by
    intro fid hne
    rw [hc, Function.update_of_ne hne]
  have hcs : s'.fcntls s.fcIndex = { s.fcntls s.fcIndex with
      wrSubm := (s.fcntls s.fcIndex).wrSubm + w.dblks
      aioCnt := (s.fcntls s.fcIndex).aioCnt + 1 } := by
    rw [hc, Function.update_self]
  have hout : ∀ fid, (s'.fcntls fid).out = (s.fcntls fid).out := by
    intro fid
    by_cases hfi : fid = s.fcIndex
    · subst hfi
      rw [hcs]
      rfl
    · rw [hco fid hfi]
  -- the weight of the page was nothing
  have hsum : ∀ v : PageCb → Nat, v (s.pages s.pgIndex) = 0 → ∑ j ∈ range g.numPages, v (s'.pages j) =
      (∑ j ∈ range g.numPages, v (s.pages j)) + v (s'.pages s.pgIndex) := by
    intro v hv
    have := sum_range_update s.pages v (s'.pages s.pgIndex) h.pgIndex
    rw [hv, hps, ← hpg] at this
    rw [hps]
    exact this
  constructor
  · exact hi
  · exact hf ▸ h.fcIndex
  · intro pg hpd
    by_cases hne : pg = s.pgIndex
    · exact hne ▸ h.pgIndex
    · exact h.pages pg (hpo pg hne ▸ hpd)
  · intro fid hfd
    apply h.headers fid
    have := hout fid
    simpa [Fcntl.out, hfd] using this
  · rw [hsum _ (by simp [PageCb.out, hp]), he, h.evtRem]
    simp only [hout]
    rw [hps, PageCb.out, if_pos rfl]
    omega
  · intro fid
    rw [hsum _ (by simp [PageCb.outTo, hp]), hout, hps]
    have ha := h.aioCnt fid
    by_cases hfi : fid = s.fcIndex
    · subst hfi
      simp only [PageCb.outTo, and_self, if_true, hcs]
      rw [ha]
      simp only [PageCb.outTo]
      omega
    · rw [hco fid hfi, ha]
      simp [PageCb.outTo, Ne.symm hfi]
  · intro fid
    rw [hsum _ (by simp [PageCb.dblksTo, hp]), hout, hps]
    have ha := h.subm fid
    by_cases hfi : fid = s.fcIndex
    · subst hfi
      simp only [PageCb.dblksTo, and_self, if_true, hcs]
      rw [ha]
      simp only [PageCb.dblksTo]
      omega
    · rw [hco fid hfi, ha]
      simp [PageCb.dblksTo, Ne.symm hfi]
  · intro x
    rw [h.seated_submit hs hq]
    cases x with
    | inl pg =>
      simp only [seatTaken, Write.seat, hw, Option.map_some, Option.getD_some]
      by_cases hne : pg = s.pgIndex
      · subst hne
        rw [hps]
        simp [PageCb.out, hp]
      · rw [hpo pg hne]
        simp [Ne.symm hne]
    | inr fid => simp [seatTaken, Write.seat, hw, hout]
  · apply h.events_submit hs hq
    · intro pg hpd
      apply hpo
      rintro rfl
      rw [hp] at hpd
      cases hpd
    · intro pg hpage
      rw [hw] at hpage
      obtain rfl := Option.some.inj hpage
      rw [hps]
      exact ⟨hwf.symm, rfl⟩

theorem Booked.pageSubmitted (h : s.Booked g) (hp : (s.pages s.pgIndex).state = .inUse) :
    (s.pageSubmitted g).Booked g := by
  have hv := h.rounded (g := g)
  have hpv : ((s.rounded g).pages (s.rounded g).pgIndex).state = .inUse := by
    simpa [Wmgr.rounded] using hp
  refine hv.submit hpv rfl rfl rfl rfl rfl rfl rfl rfl ?_
  have := g.numPages_pos
  have := h.pgIndex
  simp only [Wmgr.pageSubmitted]
  split <;> omega

/-- A page with an outstanding write counts in all its sums. -/
theorem Booked.pending_page (h : s.Booked g) {i pg : Nat} {w : Write} (hi : i ∈ s.pending)
    (hw : s.subm[i]? = some w) (hp : w.page = some pg) :
    (s.pages pg).state = .aioPending ∧ pg < g.numPages ∧ (s.pages pg).wfh = w.fid ∧
      (s.pages pg).wdblks = w.dblks := by
  have ht := h.taken_of_pending hi hw
  simp only [Write.seat, hp, Option.map_some, Option.getD_some, seatTaken, PageCb.out] at ht
  have hs : (s.pages pg).state = .aioPending := by
    by_contra hn
    simp [hn] at ht
  obtain ⟨v, hv, hpg⟩ := h.events i hi
  rw [hw] at hv
  obtain rfl := Option.some.inj hv
  exact ⟨hs, h.pages pg hs, hpg pg hp⟩

theorem Booked.returnPage (h : s.Booked g) {i pg : Nat} {w : Write} (hi : i ∈ s.pending)
    (hw : s.subm[i]? = some w) (hp : w.page = some pg) (hs : s'.subm = s.subm)
    (hq : s'.pending = s.pending.erase i) (he : s'.aioEvtRem = s.aioEvtRem - 1)
    (hpg : s'.pages = Function.update s.pages pg { s.pages pg with pdtokl := [], state := .unused })
    (hc : s'.fcntls = Function.update s.fcntls w.fid { s.fcntls w.fid with
      wrCmpl := (s.fcntls w.fid).wrCmpl + w.dblks
      aioCnt := (s.fcntls w.fid).aioCnt - 1 })
    (hf : s'.fcIndex = s.fcIndex) (hx : s'.pgIndex = s.pgIndex) : s'.Booked g := by
  obtain ⟨hst, hlt, hwf, hwd⟩ := h.pending_page hi hw hp
  have hpo : ∀ j, j ≠ pg → s'.pages j = s.pages j := by
    intro j hne
    rw [hpg, Function.update_of_ne hne]
  have hps : s'.pages pg = { s.pages pg with pdtokl := [], state := .unused } := by
    rw [hpg, Function.update_self]
  have hco : ∀ fid, fid ≠ w.fid → s'.fcntls fid = s.fcntls fid := by
    intro fid hne
    rw [hc, Function.update_of_ne hne]
  have hcs : s'.fcntls w.fid = { s.fcntls w.fid with
      wrCmpl := (s.fcntls w.fid).wrCmpl + w.dblks
      aioCnt := (s.fcntls w.fid).aioCnt - 1 } := by
    rw [hc, Function.update_self]
  have hout : ∀ fid, (s'.fcntls fid).out = (s.fcntls fid).out := by
    intro fid
    by_cases hfi : fid = w.fid
    · subst hfi
      rw [hcs]
      rfl
    · rw [hco fid hfi]
  -- the page weighs nothing any more
  have hsum : ∀ v : PageCb → Nat, v (s'.pages pg) = 0 →
      (∑ j ∈ range g.numPages, v (s'.pages j)) + v (s.pages pg) =
        ∑ j ∈ range g.numPages, v (s.pages j) := by
    intro v hv
    have := sum_range_update s.pages v (s'.pages pg) hlt
    rwa [hv, hps, ← hpg] at this
  constructor
  · exact hx ▸ h.pgIndex
  · exact hf ▸ h.fcIndex
  · intro j hpd
    by_cases hne : j = pg
    · exact hne ▸ hlt
    · exact h.pages j (hpo j hne ▸ hpd)
  · intro fid hfd
    apply h.headers fid
    have := hout fid
    simpa [Fcntl.out, hfd] using this
  · have hv := hsum PageCb.out (by simp [hps, PageCb.out])
    have hone : (s.pages pg).out = 1 := by simp [PageCb.out, hst]
    have hr := h.evtRem
    rw [he]
    simp only [hout]
    omega
  · intro fid
    have hv := hsum (PageCb.outTo fid) (by simp [hps, PageCb.outTo])
    have ha := h.aioCnt fid
    rw [hout]
    by_cases hfi : fid = w.fid
    · subst hfi
      have hone : (s.pages pg).outTo w.fid = 1 := by simp [PageCb.outTo, hst, hwf]
      simp only [hcs]
      omega
    · have hzero : (s.pages pg).outTo fid = 0 := by simp [PageCb.outTo, hwf, Ne.symm hfi]
      rw [hco fid hfi]
      omega
  · intro fid
    have hv := hsum (PageCb.dblksTo fid) (by simp [hps, PageCb.dblksTo])
    have ha := h.subm fid
    rw [hout]
    by_cases hfi : fid = w.fid
    · subst hfi
      have hone : (s.pages pg).dblksTo w.fid = w.dblks := by simp [PageCb.dblksTo, hst, hwf, hwd]
      simp only [hcs]
      omega
    · have hzero : (s.pages pg).dblksTo fid = 0 := by simp [PageCb.dblksTo, hwf, Ne.symm hfi]
      rw [hco fid hfi]
      omega
  · intro x
    have hr := h.seated_return hi hw hs hq x
    cases x with
    | inl j =>
      simp only [seatTaken, Write.seat, hp, Option.map_some, Option.getD_some, Sum.inl.injEq] at hr ⊢
      by_cases hne : j = pg
      · subst hne
        rw [hps]
        simp only [if_true, PageCb.out, hst] at hr ⊢
        simpa using hr
      · rw [hpo j hne]
        rwa [if_neg (Ne.symm hne), Nat.add_zero] at hr
    | inr fid =>
      simp only [seatTaken, Write.seat, hp, Option.map_some, Option.getD_some, hout] at hr ⊢
      simpa using hr
  · intro j hj
    rw [hq] at hj
    obtain ⟨v, hv, hvp⟩ := h.events j (List.mem_of_mem_erase hj)
    refine ⟨v, hs ▸ hv, fun k hk => ?_⟩
    by_cases hne : k = pg
    · rw [hne, hps, ← hne]
      exact hvp k hk
    · rw [hpo k hne]
      exact hvp k hk

theorem Booked.returnHeader (h : s.Booked g) {i : Nat} {w : Write} (hi : i ∈ s.pending)
    (hw : s.subm[i]? = some w) (hp : w.page = none) (hs : s'.subm = s.subm)
    (hq : s'.pending = s.pending.erase i) (he : s'.aioEvtRem = s.aioEvtRem - 1)
    (hpg : s'.pages = s.pages)
    (hc : s'.fcntls = Function.update s.fcntls w.fid { s.fcntls w.fid with
      wrCmpl := (s.fcntls w.fid).wrCmpl + jrnlSblkSize
      aioCnt := (s.fcntls w.fid).aioCnt - 1
      wrFhdrAioOutstanding := false })
    (hf : s'.fcIndex = s.fcIndex) (hx : s'.pgIndex = s.pgIndex) : s'.Booked g := by
  have ht := h.taken_of_pending hi hw
  simp only [Write.seat, hp, Option.map_none, Option.getD_none, seatTaken] at ht
  have hlt : w.fid < g.numJfiles := by
    apply h.headers
    by_contra hn
    simp [Fcntl.out, hn] at ht
  have hco : ∀ fid, fid ≠ w.fid → s'.fcntls fid = s.fcntls fid := by
    intro fid hne
    rw [hc, Function.update_of_ne hne]
  have hcs : s'.fcntls w.fid = { s.fcntls w.fid with
      wrCmpl := (s.fcntls w.fid).wrCmpl + jrnlSblkSize
      aioCnt := (s.fcntls w.fid).aioCnt - 1
      wrFhdrAioOutstanding := false } := by
    rw [hc, Function.update_self]
  have hzero : (s'.fcntls w.fid).out = 0 := by simp [hcs, Fcntl.out]
  constructor
  · exact hx ▸ h.pgIndex
  · exact hf ▸ h.fcIndex
  · exact hpg ▸ h.pages
  · intro fid hfd
    by_cases hfi : fid = w.fid
    · exact hfi ▸ hlt
    · exact h.headers fid (hco fid hfi ▸ hfd)
  · have hv : (∑ j ∈ range g.numJfiles, (s'.fcntls j).out) + (s.fcntls w.fid).out =
        (∑ j ∈ range g.numJfiles, (s.fcntls j).out) + (s'.fcntls w.fid).out := by
      rw [hcs, hc]
      exact sum_range_update s.fcntls Fcntl.out _ hlt
    have hr := h.evtRem
    rw [he, hpg]
    omega
  · intro fid
    have ha := h.aioCnt fid
    rw [hpg]
    by_cases hfi : fid = w.fid
    · subst hfi
      rw [hzero, hcs]
      simp only
      omega
    · rw [hco fid hfi]
      exact ha
  · intro fid
    have ha := h.subm fid
    rw [hpg]
    by_cases hfi : fid = w.fid
    · subst hfi
      rw [hzero, hcs]
      rw [ht] at ha
      simp only
      omega
    · rw [hco fid hfi]
      exact ha
  · intro x
    have hr := h.seated_return hi hw hs hq x
    cases x with
    | inl j =>
      simp only [seatTaken, Write.seat, hp, Option.map_none, Option.getD_none, hpg] at hr ⊢
      simpa using hr
    | inr fid =>
      simp only [seatTaken, Write.seat, hp, Option.map_none, Option.getD_none, Sum.inr.injEq] at hr ⊢
      by_cases hfi : fid = w.fid
      · subst hfi
        simp only [if_true] at hr
        omega
      · rw [hco fid hfi]
        rwa [if_neg (Ne.symm hfi), Nat.add_zero] at hr
  · intro j hj
    rw [hq] at hj
    obtain ⟨v, hv, hvp⟩ := h.events j (List.mem_of_mem_erase hj)
    exact ⟨v, hs ▸ hv, hpg ▸ hvp⟩

end Wmgr

end RhmStore
