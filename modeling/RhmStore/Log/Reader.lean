import RhmStore.Lib.Bytes
import RhmStore.Log.Content

/-! # Loading the content of a message

`JournalImpl` has one reader. To load a message it reads on from where it is, and starts again only
if what it remembers of its way tells it to. -/

namespace RhmStore

open Function

/-- What `rmgr::read` makes of the record of an enqueue, in a journal that is not read-only. -/
inductive RecState
  | enqueued
  | pending
  | gone
  deriving DecidableEq, Repr

def recState (m : Maps) (rid : Nat) : RecState :=
  match m.emap.getPfid rid with
  | .ok _ => .enqueued
  | .error .locked => .pending
  | .error _ => if m.tmap.isEnq rid then .pending else .gone

/-- The responses that `loadMsgContent` throws for, and a read outside of the data of the message. -/
inductive LoadErr
  | txPending
  | empty
  | outside
  deriving DecidableEq, Repr

/-- The exceptions of `MessageStoreImpl::loadContent`. -/
inductive ContentErr
  | notKnown
  | notEnqueued
  | isExtern
  | journal (e : LoadErr)
  deriving DecidableEq, Repr

/-- The reader with the data token of the last message read. `pos` counts the records behind it. -/
structure Reader where
  pos : Nat
  dtokRid : Nat
  external : Bool
  lastReadRid : Nat
  oooRidList : List Nat
  deriving DecidableEq, Repr

namespace Reader

def init : Reader := ⟨0, 0, false, 0, []⟩

/-- The loop of `loadMsgContent` over the records ahead. A wait for a page changes nothing. -/
def loadLoop (m : Maps) (rid : Nat) : List JRec → Nat → List Nat → Except LoadErr Bool × Nat × List Nat
  | [], pos, ooo => (.error .empty, pos, ooo)
  | .enq rid' _ _ _ external :: js, pos, ooo =>
    match recState m rid' with
    | .enqueued =>
      if rid' = rid then (.ok external, pos + 1, ooo)
      else loadLoop m rid js (pos + 1) (if rid < rid' then ooo ++ [rid'] else ooo)
    | .pending => (.error .txPending, pos, ooo)
    | .gone => loadLoop m rid js (pos + 1) ooo
  | _ :: js, pos, ooo => loadLoop m rid js (pos + 1) ooo

def goesBack (rd : Reader) (rid : Nat) : Bool := rd.oooRidList.contains rid || rid < rd.lastReadRid

def start (rd : Reader) (rid : Nat) : Nat := if rd.goesBack rid then 0 else rd.pos

/-- `loadMsgContent` to where it has the record. -/
def find (m : Maps) (log : List JRec) (rid : Nat) (rd : Reader) : Except LoadErr Unit × Reader :=
  if rd.dtokRid = rid then (.ok (), rd)
  else
    let ooo := if rd.goesBack rid then [] else rd.oooRidList
    match loadLoop m rid (log.drop (rd.start rid)) (rd.start rid) ooo with
    | (.ok external, pos, ooo) => (.ok (), ⟨pos, rid, external, rid, ooo⟩)
    | (.error e, pos, ooo) => (.error e, ⟨pos, 0, false, rd.lastReadRid, ooo⟩)

end Reader

/-- `msgEncode`: the size of the header in network byte order, the header and the content. -/
def msgEncode (header content : Bytes) : Bytes := (leBytes 4 header.length).reverse ++ header ++ content

/-- The end of `loadMsgContent`, on the data of the record. -/
def msgContent (data : Bytes) (length offset : Nat) : Option Bytes := do
  let hdrOffs := wrap 32 (leNat (← readAt data 0 4).reverse + 4)
  if data.length < wrap 64 (hdrOffs + offset + length) then
    readAt data (hdrOffs + offset) (wsub 64 (wsub 64 data.length hdrOffs) offset)
  else readAt data (hdrOffs + offset) length

/-- It returns false, here none, for an external message. `data` is what the records were written
with. -/
def loadMsgContent (m : Maps) (log : List JRec) (data : Nat → Bytes) (rid length offset : Nat) (rd : Reader) :
    Except LoadErr (Option Bytes) × Reader :=
  match rd.find m log rid with
  | (.ok _, rd') =>
    if rd'.external then (.ok none, rd')
    else
      match msgContent (data rid) length offset with
      | some content => (.ok (some content), rd')
      | none => (.error .outside, rd')
  | (.error e, rd') => (.error e, rd')

/-- `MessageStoreImpl::loadContent`. -/
def loadContent (m : Maps) (log : List JRec) (data : Nat → Bytes) (messageId length offset : Nat)
    (rd : Reader) : Except ContentErr Bytes × Reader :=
  if messageId = 0 then (.error .notKnown, rd)
  else if m.emap.isEnqueued messageId false then
    match loadMsgContent m log data messageId length offset rd with
    | (.ok (some content), rd') => (.ok content, rd')
    | (.ok none, rd') => (.error .isExtern, rd')
    | (.error e, rd') => (.error (.journal e), rd')
  else (.error .notEnqueued, rd)

section Content

theorem msgContent_msgEncode {header content : Bytes} {length offset : Nat} (hh : header.length + 4 < 2 ^ 32)
    (hl : (msgEncode header content).length + length < 2 ^ 64) (ho : offset ≤ content.length) :
    msgContent (msgEncode header content) length offset = some ((content.drop offset).take length) := by
  have hlt : header.length < 256 ^ 4 := by omega
  have hlen : (msgEncode header content).length = header.length + 4 + content.length := by
    simp [msgEncode]
    omega
  rw [hlen] at hl
  have htake : readAt (msgEncode header content) 0 4 = some (leBytes 4 header.length).reverse := by
    rw [readAt_of_le (by omega), List.drop_zero, msgEncode, List.append_assoc, List.take_left' (by simp)]
  have hdrop : (msgEncode header content).drop (header.length + 4 + offset) = content.drop offset := by
    rw [msgEncode, ← List.drop_drop, List.drop_left' (by simp; omega)]
  have hrest : wsub 64 (wsub 64 (header.length + 4 + content.length) (header.length + 4)) offset =
      content.length - offset := by
    have hin : wsub 64 (header.length + 4 + content.length) (header.length + 4) = content.length := by
      rw [wsub_of_le (by omega) (by omega)]
      omega
    rw [hin, wsub_of_le ho (by omega)]
  unfold msgContent
  simp only [htake, Option.bind_eq_bind, Option.bind_some, List.reverse_reverse, leNat_leBytes hlt, wrap_of_lt hh,
    hlen, wrap_of_lt (show header.length + 4 + offset + length < 2 ^ 64 by omega)]
  split
  · -- the rest of the content is shorter
    rw [hrest, readAt_of_le (by omega), hdrop, List.take_of_length_le (by simp),
      List.take_of_length_le (by simp; omega)]
  · rw [readAt_of_le (by omega), hdrop]

end Content

section RecState

theorem recState_eq_enqueued {m : Maps} {r : Nat} :
    recState m r = .enqueued ↔ ∃ d, m.view.enq r = some d ∧ d.lock = false := by
  change _ ↔ ∃ d, m.emap.map[r]? = some d ∧ d.lock = false
  unfold recState EnqMap.getPfid
  cases hr : m.emap.map[r]? with
  | none =>
    simp only
    split
    · simp
    · simp
  | some d =>
    cases hl : d.lock with
    | true => simp [hl]
    | false => simp [hl]

theorem isEnqueued_iff_recState (m : Maps) (r : Nat) :
    m.emap.isEnqueued r false = true ↔ recState m r = .enqueued := by
  rw [recState_eq_enqueued]
  change _ ↔ ∃ d, m.emap.map[r]? = some d ∧ d.lock = false
  unfold EnqMap.isEnqueued
  cases m.emap.map[r]? with
  | none => simp
  | some d => simp

theorem recState_eq_gone {m : Maps} {r : Nat} :
    recState m r = .gone ↔ m.view.enq r = none ∧ ∀ x, ¬m.view.Touches x r := by
  have htouch : (∀ x, ¬m.view.Touches x r) ↔ m.tmap.isEnq r = false := by
    rw [← not_exists, ← isEnq_iff_touches, Bool.not_eq_true]
  rw [htouch]
  change _ ↔ m.emap.map[r]? = none ∧ _
  unfold recState EnqMap.getPfid
  cases hr : m.emap.map[r]? with
  | none =>
    simp only
    split
    · rename_i h
      simp [h]
    · rename_i h
      simp [h]
  | some d =>
    cases hl : d.lock with
    | true => simp [hl]
    | false => simp [hl]

end RecState

namespace Reader

variable {m : Maps} {rid pos : Nat} {js : List JRec} {ooo : List Nat}

def Left (m : Maps) (rid : Nat) (ooo : List Nat) (r : Nat) : Prop := recState m r = .gone ∨ r ∈ ooo ∨ r ≤ rid

theorem enqueues_inj {j : JRec} {r r' : Nat} (h : j.Enqueues r) (h' : j.Enqueues r') : r = r' :=
  (rid_of_enqueues h).symm.trans (rid_of_enqueues h')

theorem loadLoop_other {j : JRec} (h : ∀ r, ¬j.Enqueues r) :
    loadLoop m rid (j :: js) pos ooo = loadLoop m rid js (pos + 1) ooo := by
  cases j with
  | enq rid' x d t e => exact absurd ⟨x, d, t, e, rfl⟩ (h rid')
  | deq rid' drid x c => rfl
  | txa rid' x => rfl
  | txc rid' x => rfl

theorem loadLoop_gone {j : JRec} {r : Nat} (h : j.Enqueues r) (hr : recState m r = .gone) :
    loadLoop m rid (j :: js) pos ooo = loadLoop m rid js (pos + 1) ooo := by
  obtain ⟨x, d, t, e, rfl⟩ := h
  simp only [loadLoop, hr]

theorem loadLoop_pass {j : JRec} {r : Nat} (h : j.Enqueues r) (hr : recState m r = .enqueued) (hne : r ≠ rid) :
    loadLoop m rid (j :: js) pos ooo =
      loadLoop m rid js (pos + 1) (if rid < r then ooo ++ [r] else ooo) := by
  obtain ⟨x, d, t, e, rfl⟩ := h
  simp only [loadLoop, hr, if_neg hne]

theorem loadLoop_ok {e : Bool} {pos' : Nat} {ooo' : List Nat}
    (h : loadLoop m rid js pos ooo = (.ok e, pos', ooo')) :
    ∃ pre x d t post, js = pre ++ .enq rid x d t e :: post ∧ pos' = pos + pre.length + 1 ∧
      (∀ r ∈ ooo, r ∈ ooo') ∧ ∀ j ∈ pre, ∀ r, j.Enqueues r → Left m rid ooo' r := by
  induction js generalizing pos ooo with
  | nil => cases h
  | cons j js ih =>
    have hpass : ∀ ooo₁, loadLoop m rid js (pos + 1) ooo₁ = (.ok e, pos', ooo') → (∀ r ∈ ooo, r ∈ ooo₁) →
        (∀ r, j.Enqueues r → Left m rid ooo₁ r) → ∃ pre x d t post, j :: js = pre ++ .enq rid x d t e :: post ∧
          pos' = pos + pre.length + 1 ∧ (∀ r ∈ ooo, r ∈ ooo') ∧
            ∀ j ∈ pre, ∀ r, j.Enqueues r → Left m rid ooo' r := by
      intro ooo₁ h₁ hsub hj
      obtain ⟨pre, x, d, t, post, rfl, rfl, hsub', hleft⟩ := ih h₁
      refine ⟨j :: pre, x, d, t, post, rfl, ?_, fun r hr => hsub' r (hsub r hr), fun j' hj' r he => ?_⟩
      · rw [List.length_cons]
        omega
      · rcases List.mem_cons.mp hj' with rfl | hj'
        · exact (hj r he).imp id (Or.imp (hsub' r) id)
        · exact hleft j' hj' r he
    by_cases hj : ∃ r, j.Enqueues r
    · obtain ⟨r, hj⟩ := hj
      cases hs : recState m r with
      | enqueued =>
        by_cases hr : r = rid
        · obtain ⟨x, d, t, ext, rfl⟩ := hj
          subst hr
          simp only [loadLoop, hs, if_true] at h
          cases h
          exact ⟨[], x, d, t, js, rfl, rfl, fun r h => h, fun j hj => absurd hj List.not_mem_nil⟩
        · rw [loadLoop_pass hj hs hr] at h
          refine hpass _ h (fun r' h => ?_) fun r' he => ?_
          · split
            · exact List.mem_append_left _ h
            · exact h
          · obtain rfl := enqueues_inj hj he
            by_cases hlt : rid < r
            · rw [if_pos hlt]
              exact .inr (.inl (List.mem_append_right _ List.mem_cons_self))
            · exact .inr (.inr (Nat.le_of_not_lt hlt))
      | pending =>
        obtain ⟨x, d, t, ext, rfl⟩ := hj
        simp only [loadLoop, hs] at h
        cases h
      | gone =>
        rw [loadLoop_gone hj hs] at h
        exact hpass ooo h (fun r h => h) fun r' he => .inl (enqueues_inj hj he ▸ hs)
    · have hno : ∀ r, ¬j.Enqueues r := fun r he => hj ⟨r, he⟩
      rw [loadLoop_other hno] at h
      exact hpass ooo h (fun r h => h) fun r he => absurd he (hno r)

theorem loadLoop_found {pre post : List JRec} {x : Xid} {d : Nat} {t e : Bool} (hr : recState m rid = .enqueued)
    (hpre : ∀ j ∈ pre, ∀ r, j.Enqueues r → r ≠ rid ∧ recState m r ≠ .pending) (pos : Nat) (ooo : List Nat) :
    ∃ pos' ooo', loadLoop m rid (pre ++ .enq rid x d t e :: post) pos ooo = (.ok e, pos', ooo') := by
  induction pre generalizing pos ooo with
  | nil => exact ⟨pos + 1, ooo, by simp only [List.nil_append, loadLoop, hr, if_true]⟩
  | cons j pre ih =>
    have hrest := ih fun j hj => hpre j (List.mem_cons_of_mem _ hj)
    rw [List.cons_append]
    by_cases hj : ∃ r, j.Enqueues r
    · obtain ⟨r, hj⟩ := hj
      obtain ⟨hne, hnp⟩ := hpre j List.mem_cons_self r hj
      cases hs : recState m r with
      | enqueued =>
        rw [loadLoop_pass hj hs hne]
        exact hrest _ _
      | pending => exact absurd hs hnp
      | gone =>
        rw [loadLoop_gone hj hs]
        exact hrest _ _
    · rw [loadLoop_other fun r he => hj ⟨r, he⟩]
      exact hrest _ _

theorem loadLoop_pending {pre post : List JRec} (hpre : ∀ j ∈ pre, ¬j.Enqueues rid)
    (hp : ∃ j ∈ pre, ∃ r, j.Enqueues r ∧ recState m r = .pending) (pos : Nat) (ooo : List Nat) :
    ∃ pos' ooo', loadLoop m rid (pre ++ post) pos ooo = (.error .txPending, pos', ooo') := by
  induction pre generalizing pos ooo with
  | nil =>
    obtain ⟨j, hj, -⟩ := hp
    cases hj
  | cons j pre ih =>
    -- unless this is the pending one, it is further on
    have hrest : (∀ r, j.Enqueues r → recState m r ≠ .pending) → ∀ pos ooo, ∃ pos' ooo',
        loadLoop m rid (pre ++ post) pos ooo = (.error .txPending, pos', ooo') := by
      intro hno
      refine ih (fun j hj => hpre j (List.mem_cons_of_mem _ hj)) ?_
      obtain ⟨j', hj', r, he, hs⟩ := hp
      rcases List.mem_cons.mp hj' with rfl | hj'
      · exact absurd hs (hno r he)
      · exact ⟨j', hj', r, he, hs⟩
    rw [List.cons_append]
    by_cases hj : ∃ r, j.Enqueues r
    · obtain ⟨r, hj⟩ := hj
      have hne : r ≠ rid := fun he => hpre j List.mem_cons_self (he ▸ hj)
      cases hs : recState m r with
      | enqueued =>
        rw [loadLoop_pass hj hs hne]
        refine hrest (fun r' he => ?_) _ _
        rw [← enqueues_inj hj he, hs]
        decide
      | pending =>
        obtain ⟨x, d, t, e, rfl⟩ := hj
        exact ⟨pos, ooo, by simp only [loadLoop, hs]⟩
      | gone =>
        rw [loadLoop_gone hj hs]
        refine hrest (fun r' he => ?_) _ _
        rw [← enqueues_inj hj he, hs]
        decide
    · have hno : ∀ r, ¬j.Enqueues r := fun r he => hj ⟨r, he⟩
      rw [loadLoop_other hno]
      exact hrest (fun r he => absurd he (hno r)) _ _

end Reader

end RhmStore
