import RhmStore.Log.Readable

/-! # Loading messages from a journal in use -/

namespace RhmStore

/-- A journal in use and its reader. -/
structure LoadSys where
  jrnl : Journal
  rd : Reader

/-- A step of the journal, after which the reader may have been invalidated, or a load. -/
inductive LoadAct
  | journal (a : LogAct) (invalidate : Bool)
  | load (messageId length offset : Nat)

namespace LoadSys

def jrecs (s : LoadSys) : List JRec := s.jrnl.log.map LogRec.jrec

/-- Records that the journal drops are no more behind the reader. The journal must not throw on a
load. -/
def step (n : Nat) (data : Nat → Bytes) (s : LoadSys) : LoadAct → Option LoadSys
  | .journal a invalidate =>
    (s.jrnl.liveStep n a).map fun j =>
      ⟨j, { s.rd with pos := if invalidate then 0 else s.rd.pos - (s.jrnl.log.length - j.log.length) }⟩
  | .load messageId length offset =>
    match loadContent s.jrnl.maps s.jrecs data messageId length offset s.rd with
    | (.error (.journal _), _) => none
    | (_, rd) => some { s with rd := rd }

def run (n : Nat) (data : Nat → Bytes) (s : LoadSys) : List LoadAct → Option LoadSys
  | [] => some s
  | a :: acts => (s.step n data a).bind fun s' => s'.run n data acts

end LoadSys

namespace Reader

variable {m : Maps} {log : List JRec} {rid : Nat} {rd rd' : Reader}

/-- A pending record is ahead of the one to read, which is not in the buffer. -/
def Blocked (rd : Reader) (m : Maps) (rid : Nat) (pre : List JRec) : Prop :=
  rd.dtokRid ≠ rid ∧ ∃ j ∈ pre.drop (rd.start rid), ∃ r, j.Enqueues r ∧ recState m r = .pending

theorem find_ok {u : Unit} (h : rd.find m log rid = (.ok u, rd')) :
    rd' = rd ∨ rd.dtokRid ≠ rid ∧ rd'.dtokRid = rid ∧ rd'.lastReadRid = rid ∧
      ∃ pre x d t post, log.drop (rd.start rid) = pre ++ .enq rid x d t rd'.external :: post ∧
        rd'.pos = rd.start rid + pre.length + 1 ∧ (rd.goesBack rid = false → ∀ r ∈ rd.oooRidList, r ∈ rd'.oooRidList) ∧
          ∀ j ∈ pre, ∀ r, j.Enqueues r → Left m rid rd'.oooRidList r := by
  unfold find at h
  split at h
  · cases h
    exact .inl rfl
  · rename_i hne
    simp only at h
    split at h
    · rename_i external pos ooo hl
      cases h
      obtain ⟨pre, x, d, t, post, hlog, hpos, hsub, hleft⟩ := loadLoop_ok hl
      refine .inr ⟨hne, rfl, rfl, pre, x, d, t, post, hlog, hpos, fun hb => ?_, hleft⟩
      rw [hb] at hsub
      exact hsub
    · cases h

theorem loadContent_cases {data : Nat → Bytes} {length offset : Nat} {res : Except ContentErr Bytes}
    (h : loadContent m log data rid length offset rd = (res, rd')) (hj : ∀ e, res ≠ .error (.journal e)) :
    rd' = rd ∨ rid ≠ 0 ∧ rd.find m log rid = (.ok (), rd') := by
  unfold loadContent at h
  split at h
  · cases h
    exact .inl rfl
  · rename_i h0
    split at h
    · refine .inr ⟨h0, ?_⟩
      have hfind : ∀ c, loadMsgContent m log data rid length offset rd = (.ok c, rd') →
          rd.find m log rid = (.ok (), rd') := by
        intro c hl
        unfold loadMsgContent at hl
        split at hl
        · rename_i hf
          split at hl
          · cases hl
            exact hf
          · split at hl
            · cases hl
              exact hf
            · cases hl
        · cases hl
      split at h
      · rename_i hl
        cases h
        exact hfind _ hl
      · rename_i hl
        cases h
        exact hfind _ hl
      · rename_i e _ _
        cases h
        exact absurd rfl (hj e)
    · cases h
      exact .inl rfl

end Reader

namespace LoadSys

variable {n : Nat} {data : Nat → Bytes} {s s' : LoadSys}

/-- The records behind the reader are gone, or the reader goes back for them. -/
structure Inv (n : Nat) (s : LoadSys) : Prop where
  readable : s.jrnl.Readable
  kept : s.jrnl.Kept n
  le : s.rd.pos ≤ s.jrnl.log.length
  passed : ∀ e ∈ s.jrnl.log.take s.rd.pos, ∀ r, e.jrec.Enqueues r →
    Reader.Left s.jrnl.maps s.rd.lastReadRid s.rd.oooRidList r
  held : s.rd.dtokRid = s.rd.lastReadRid
  known : s.rd.dtokRid ≠ 0 → s.rd.dtokRid ∈ s.jrnl.used ∧
    ∀ e ∈ s.jrnl.log, ∀ x d t ext, e.jrec = .enq s.rd.dtokRid x d t ext → ext = s.rd.external

theorem inv_start {j : Journal} (h : j.Readable) (hk : j.Kept n) : Inv n ⟨j, Reader.init⟩ where
  readable := h
  kept := hk
  le := Nat.zero_le _
  passed e he := absurd he (by simp [Reader.init])
  held := rfl
  known h0 := absurd rfl h0

theorem step_cases {a : LoadAct} (h : s.step n data a = some s') :
    (∃ j, s.jrnl.LivesTo n j ∧ s'.jrnl = j ∧
      ∃ pos, s'.rd = { s.rd with pos := pos } ∧ (pos = 0 ∨ pos = s.rd.pos - (s.jrnl.log.length - j.log.length))) ∨
    s' = s ∨ ∃ rid rd, rid ≠ 0 ∧ s.rd.find s.jrnl.maps s.jrecs rid = (.ok (), rd) ∧ s' = { s with rd := rd } := by
  cases a with
  | journal a invalidate =>
    obtain ⟨j, hj, rfl⟩ := Option.map_eq_some_iff.mp h
    refine .inl ⟨j, Journal.livesTo hj, rfl, _, rfl, ?_⟩
    cases invalidate with
    | true => exact .inl rfl
    | false => exact .inr rfl
  | load messageId length offset =>
    refine .inr ?_
    cases hl : loadContent s.jrnl.maps s.jrecs data messageId length offset s.rd with
    | mk res rd =>
      simp only [step, hl] at h
      split at h
      · cases h
      · rename_i hne heq
        cases heq
        cases h
        rcases Reader.loadContent_cases hl fun e he => hne e he with rfl | ⟨h0, hf⟩
        · exact .inl rfl
        · exact .inr ⟨messageId, rd, h0, hf, rfl⟩

theorem mem_jrecs {j : JRec} (h : j ∈ s.jrecs) : ∃ e ∈ s.jrnl.log, e.jrec = j := List.mem_map.mp h

theorem take_livesTo {j : Journal} (h : s.jrnl.LivesTo n j) (hi : s.Inv n) {pos : Nat}
    (hpos : pos = 0 ∨ pos = s.rd.pos - (s.jrnl.log.length - j.log.length)) :
    pos ≤ j.log.length ∧ ∀ e ∈ j.log.take pos, e ∈ s.jrnl.log.take s.rd.pos := by
  rcases hpos with rfl | rfl
  · exact ⟨Nat.zero_le _, fun e he => absurd he (by simp)⟩
  · have hle := hi.le
    rcases h.log_eq hi.readable with ⟨e, he⟩ | ⟨front, hf⟩
    · have hlen : j.log.length = s.jrnl.log.length + 1 := by rw [he, List.length_append, List.length_singleton]
      have h0 : s.rd.pos - (s.jrnl.log.length - j.log.length) = s.rd.pos := by omega
      rw [h0]
      refine ⟨by omega, fun e' he' => ?_⟩
      rwa [he, List.take_append_of_le_length hle] at he'
    · have hlen : s.jrnl.log.length = front.length + j.log.length := by rw [hf, List.length_append]
      have h0 : s.rd.pos - (s.jrnl.log.length - j.log.length) = s.rd.pos - front.length := by omega
      rw [h0]
      refine ⟨by omega, fun e he => ?_⟩
      rw [hf, List.take_append]
      exact List.mem_append_right _ he

theorem inv_find {rid : Nat} {rd : Reader} (hi : s.Inv n) (hf : s.rd.find s.jrnl.maps s.jrecs rid = (.ok (), rd)) :
    Inv n { s with rd := rd } := by
  rcases Reader.find_ok hf with rfl | ⟨hne, hd, hlast, pre, x, d, t, post, hlog, hpos, hsub, hleft⟩
  · exact hi
  · have hsplit : s.jrecs = s.jrecs.take (s.rd.start rid) ++ (pre ++ .enq rid x d t rd.external :: post) := by
      rw [← hlog, List.take_append_drop]
    have hmem : JRec.enq rid x d t rd.external ∈ s.jrecs := by
      rw [hsplit]
      simp
    obtain ⟨e, he, hj⟩ := mem_jrecs hmem
    have hrid : e.jrec.rid = rid := by
      rw [hj]
      rfl
    refine ⟨hi.readable, hi.kept, ?_, fun e' he' r hr => ?_, hd.trans hlast.symm, fun _ => ⟨?_, fun e' he' x' d' t' ext hj' => ?_⟩⟩
    · have hlen := congrArg List.length hlog
      rw [List.length_drop, List.length_append, List.length_cons, jrecs, List.length_map] at hlen
      change rd.pos ≤ s.jrnl.log.length
      omega
    · change Reader.Left s.jrnl.maps rd.lastReadRid rd.oooRidList r
      rw [hlast]
      have htake : e'.jrec ∈ s.jrecs.take rd.pos := by
        rw [jrecs, ← List.map_take]
        exact List.mem_map_of_mem he'
      rw [hpos, Nat.add_assoc, List.take_add, hlog, List.mem_append] at htake
      rcases htake with hin | hin
      · cases hb : s.rd.goesBack rid with
        | true => simp [Reader.start, hb] at hin
        | false =>
          rw [Reader.start, hb, if_neg Bool.false_ne_true, jrecs, ← List.map_take] at hin
          obtain ⟨e₀, he₀, hj₀⟩ := List.mem_map.mp hin
          have hge : s.rd.lastReadRid ≤ rid := by
            simp only [Reader.goesBack, Bool.or_eq_false_iff, decide_eq_false_iff_not, Nat.not_lt] at hb
            exact hb.2
          exact (hi.passed e₀ he₀ r (hj₀ ▸ hr)).imp id (Or.imp (hsub hb r) fun hle => Nat.le_trans hle hge)
      · rw [List.take_length_add_append, List.mem_append] at hin
        rcases hin with hin | hin
        · exact hleft e'.jrec hin r hr
        · obtain ⟨x', d', t', ext, hj'⟩ := hr
          rw [hj', List.take_succ_cons, List.take_zero, List.mem_singleton] at hin
          cases hin
          exact .inr (.inr (Nat.le_refl _))
    · rw [hd, ← hrid]
      exact hi.readable.logged e he
    · rw [hd] at hj'
      have hsame : e' = e := List.inj_on_of_nodup_map hi.readable.nodup he' he (by rw [hj', hj]; rfl)
      rw [hsame, hj] at hj'
      cases hj'
      rfl

theorem inv_step {a : LoadAct} (h : s.step n data a = some s') (hn : 0 < n) (hi : s.Inv n) : s'.Inv n := by
  rcases step_cases h with ⟨j, hj, rfl, pos, hrd, hpos⟩ | rfl | ⟨rid, rd, -, hf, rfl⟩
  · obtain ⟨hle, hmem⟩ := take_livesTo hj hi hpos
    refine ⟨hj.readable hi.readable, hj.kept hn hi.kept, ?_, ?_, ?_, ?_⟩
    · rw [hrd]
      exact hle
    · rw [hrd]
      intro e he r hr
      have hold := hmem e he
      exact (hi.passed e hold r hr).imp (hj.gone hi.readable (List.mem_of_mem_take hold) hr) id
    · rw [hrd]
      exact hi.held
    · rw [hrd]
      intro h0
      obtain ⟨hu, hext⟩ := hi.known h0
      obtain ⟨hu', hold⟩ := hj.old hu
      exact ⟨hu', fun e he x d t ext hj' => hext e (hold e he (by rw [hj']; rfl)) x d t ext hj'⟩
  · exact hi
  · exact inv_find hi hf

theorem run_inv {acts : List LoadAct} (hn : 0 < n) (hi : s.Inv n) (h : s.run n data acts = some s') :
    s'.Inv n := by
  induction acts generalizing s with
  | nil =>
    cases h
    exact hi
  | cons a acts ih =>
    obtain ⟨s₁, h₁, h₂⟩ := Option.bind_eq_some_iff.mp h
    exact ih (inv_step h₁ hn hi) h₂

variable {rid d : Nat} {pre post : List JRec} {x : Xid} {t ext : Bool}

theorem start_le (hi : s.Inv n) (hl : s.jrecs = pre ++ .enq rid x d t ext :: post)
    (hs : recState s.jrnl.maps rid = .enqueued) (hne : s.rd.dtokRid ≠ rid) : s.rd.start rid ≤ pre.length := by
  cases hb : s.rd.goesBack rid with
  | true =>
    rw [Reader.start, hb, if_pos rfl]
    exact Nat.zero_le _
  | false =>
    rw [Reader.start, hb, if_neg Bool.false_ne_true]
    by_contra hlt
    have hmem : JRec.enq rid x d t ext ∈ s.jrecs.take s.rd.pos := by
      obtain ⟨k, hk⟩ : ∃ k, s.rd.pos = pre.length + (k + 1) := ⟨s.rd.pos - pre.length - 1, by omega⟩
      rw [hl, hk, List.take_length_add_append, List.take_succ_cons]
      exact List.mem_append_right _ List.mem_cons_self
    rw [jrecs, ← List.map_take] at hmem
    obtain ⟨e, he, hj⟩ := List.mem_map.mp hmem
    simp only [Reader.goesBack, Bool.or_eq_false_iff, List.contains_eq_mem, decide_eq_false_iff_not,
      Nat.not_lt] at hb
    rcases hi.passed e he rid ⟨x, d, t, ext, hj⟩ with hg | ho | hle
    · rw [hs] at hg
      cases hg
    · exact hb.1 ho
    · exact hne (hi.held.trans (Nat.le_antisymm hb.2 hle))

theorem find_enqueued (hi : s.Inv n) (h0 : rid ≠ 0) (hl : s.jrecs = pre ++ .enq rid x d t ext :: post)
    (hs : recState s.jrnl.maps rid = .enqueued) :
    (s.rd.Blocked s.jrnl.maps rid pre → ∃ rd, s.rd.find s.jrnl.maps s.jrecs rid = (.error .txPending, rd)) ∧
    (¬s.rd.Blocked s.jrnl.maps rid pre →
      ∃ rd, s.rd.find s.jrnl.maps s.jrecs rid = (.ok (), rd) ∧ rd.external = ext) := by
  by_cases hd : s.rd.dtokRid = rid
  · refine ⟨fun hb => absurd hd hb.1, fun _ => ⟨s.rd, by rw [Reader.find, if_pos hd], ?_⟩⟩
    have hmem : JRec.enq rid x d t ext ∈ s.jrecs := by
      rw [hl]
      simp
    obtain ⟨e, he, hj⟩ := mem_jrecs hmem
    exact ((hi.known (hd ▸ h0)).2 e he x d t ext (hd ▸ hj)).symm
  · have hdrop : s.jrecs.drop (s.rd.start rid) = pre.drop (s.rd.start rid) ++ .enq rid x d t ext :: post := by
      rw [hl, List.drop_append_of_le_length (start_le hi hl hs hd)]
    have hother : ∀ j ∈ pre.drop (s.rd.start rid), ¬j.Enqueues rid := by
      intro j hj he
      have hnd := hi.readable.nodup
      rw [show (s.jrnl.log.map fun e => e.jrec.rid) = s.jrecs.map JRec.rid by rw [jrecs, List.map_map]; rfl,
        hl, List.map_append, List.nodup_append] at hnd
      exact hnd.2.2 _ (List.mem_map_of_mem (List.mem_of_mem_drop hj)) _ List.mem_cons_self (rid_of_enqueues he)
    constructor
    · intro hb
      have hloop : ∃ pos ooo, Reader.loadLoop s.jrnl.maps rid (s.jrecs.drop (s.rd.start rid)) (s.rd.start rid)
          (if s.rd.goesBack rid then [] else s.rd.oooRidList) = (.error .txPending, pos, ooo) := by
        rw [hdrop]
        exact Reader.loadLoop_pending hother hb.2 _ _
      obtain ⟨pos, ooo, hloop⟩ := hloop
      refine ⟨⟨pos, 0, false, s.rd.lastReadRid, ooo⟩, ?_⟩
      simp only [Reader.find, if_neg hd, hloop]
    · intro hb
      have hfree : ∀ j ∈ pre.drop (s.rd.start rid), ∀ r, j.Enqueues r →
          r ≠ rid ∧ recState s.jrnl.maps r ≠ .pending :=
        fun j hj r he => ⟨fun heq => hother j hj (heq ▸ he), fun hp => hb ⟨hd, j, hj, r, he, hp⟩⟩
      have hloop : ∃ pos ooo, Reader.loadLoop s.jrnl.maps rid (s.jrecs.drop (s.rd.start rid)) (s.rd.start rid)
          (if s.rd.goesBack rid then [] else s.rd.oooRidList) = (.ok ext, pos, ooo) := by
        rw [hdrop]
        exact Reader.loadLoop_found hs hfree _ _
      obtain ⟨pos, ooo, hloop⟩ := hloop
      refine ⟨⟨pos, rid, ext, rid, ooo⟩, ?_, rfl⟩
      simp only [Reader.find, if_neg hd, hloop]

def threeBytes (rid : Nat) : Bytes := msgEncode [0, 0] [UInt8.ofNat rid, 20, 30]

/-- On the way to message 2, message 5 is passed; message 4 is of an open transaction. -/
def backRun : List LoadAct :=
  [.journal (.op (.enq 5 [] 9 false false) 0) false, .journal (.op (.enq 1 [] 9 false false) 0) false,
    .load 1 3 0, .journal (.op (.deq 3 1 [] false) 0) false, .journal (.op (.enq 2 [] 9 false false) 0) false,
    .journal .advance false, .journal (.op (.enq 4 [7] 9 false false) 1) false, .load 2 3 0]

end LoadSys

end RhmStore
