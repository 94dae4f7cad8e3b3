import RhmStore.Writer.Exact

/-! # The pages and writes that hold the parts of records -/

namespace RhmStore

/-- A part with the token and the record it is of. -/
structure PartOf where
  tok : Nat
  jrec : JRec
  part : Part

def Written.partsOf (w : Written) : List PartOf := w.parts.map fun p => ⟨w.tok, w.jrec, p⟩

namespace Part

variable {p : Part} {subm : List Write} {i : Nat}

/-- The write that a part goes out with: the first one of a page since it was encoded. -/
def carrier (p : Part) (subm : List Write) : Option Nat :=
  ((subm.drop p.sent).findIdx? fun w => w.page.isSome).map (p.sent + ·)

theorem carrier_append (h : p.sent ≤ subm.length) (w : Write) : p.carrier (subm ++ [w]) =
    (p.carrier subm).or (if w.page.isSome then some subm.length else none) := by
  rw [carrier, carrier, List.drop_append_of_le_length h, List.findIdx?_append]
  cases (subm.drop p.sent).findIdx? fun w => w.page.isSome with
  | some i => simp
  | none =>
    by_cases hw : w.page.isSome = true
    · simp [hw, Nat.add_sub_cancel' h]
    · simp [hw]

theorem carrier_self (h : p.sent = subm.length) : p.carrier subm = none := by
  simp [carrier, h]

theorem carrier_lt (h : p.carrier subm = some i) : i < subm.length := by
  obtain ⟨j, hj, rfl⟩ := Option.map_eq_some_iff.mp h
  have hlt := (List.findIdx?_eq_some_iff_getElem.mp hj).1
  rw [List.length_drop] at hlt
  omega

end Part

/-- Where the part stands in a page or in what is written. -/
def PartOf.In (x : PartOf) (content : Nat → Dblk) (b : Nat) : Prop :=
  ∃ owi, ∀ k < x.part.len, content (b + k) = x.jrec.dblk owi (x.part.idx + k)

namespace Wmgr

variable {g : Geom} {s s' : Wmgr}

def partsOf (s : Wmgr) : List PartOf := (s.log ++ s.cur.toList).flatMap Written.partsOf

/-- The part is in the current page, or its write has not returned. -/
def Waits (s : Wmgr) (p : Part) : Prop := ∀ i ∈ p.carrier s.subm, i ∈ s.pending

instance decidableWaits (p : Part) : Decidable (s.Waits p) :=
  inferInstanceAs (Decidable (∀ i ∈ p.carrier s.subm, i ∈ s.pending))

def within (s : Wmgr) (o : Option Nat) (tok : Nat) : Nat :=
  s.partsOf.countP fun x => x.tok = tok ∧ x.part.carrier s.subm = o

/-- Each page lists the tokens of the parts in it. -/
structure Listed (s : Wmgr) : Prop where
  sent : ∀ x ∈ s.partsOf, x.part.sent ≤ s.subm.length
  current : ∀ tok, s.within none tok =
    if (s.pages s.pgIndex).state = .aioPending then 0 else (s.pages s.pgIndex).pdtokl.count tok
  others : ∀ pg ≠ s.pgIndex, (s.pages pg).state ≠ .aioPending → (s.pages pg).pdtokl = []
  written : ∀ i ∈ s.pending, ∀ w pg, s.subm[i]? = some w → w.page = some pg →
    ∀ tok, (s.pages pg).pdtokl.count tok = s.within (some i) tok

/-- Each part is in the current page, behind what of it was written before, or in its write. -/
structure Carried (s : Wmgr) : Prop where
  cached : s.cached ≤ s.pgOffset
  buffer : ∀ x ∈ s.partsOf, x.part.carrier s.subm = none → ∃ b, s.pgOffset - s.cached ≤ b ∧
    b + x.part.len ≤ s.pgOffset ∧ x.In (s.pages s.pgIndex).buff b
  content : ∀ x ∈ s.partsOf, ∀ i ∈ x.part.carrier s.subm, ∃ w, s.subm[i]? = some w ∧ w.page ≠ none ∧
    ∃ b, b + x.part.len ≤ w.dblks ∧ x.In w.content b

theorem within_congr {o o' : Option Nat} (hp : s'.partsOf = s.partsOf)
    (h : ∀ x ∈ s.partsOf, x.part.carrier s'.subm = o' ↔ x.part.carrier s.subm = o) (tok : Nat) :
    s'.within o' tok = s.within o tok := by
  rw [within, within, hp]
  apply List.countP_congr
  intro x hx
  simp only [decide_eq_true_eq, h x hx]

theorem Listed.of_eq (h : s.Listed) (hp : s'.partsOf = s.partsOf) (hs : s'.subm = s.subm)
    (hq : s'.pending = s.pending) (hx : s'.pgIndex = s.pgIndex)
    (hl : ∀ pg, (s'.pages pg).pdtokl = (s.pages pg).pdtokl)
    (hst : ∀ pg, (s'.pages pg).state = .aioPending ↔ (s.pages pg).state = .aioPending) :
    s'.Listed := by
  have hw : ∀ o, s'.within o = s.within o := fun o =>
    funext fun tok => within_congr hp (fun x _ => by rw [hs]) tok
  obtain ⟨h1, h2, h3, h4⟩ := h
  constructor
  · rwa [hp, hs]
  · intro tok
    rw [hw, h2, hx, hl]
    simp only [hst]
  · intro pg hpg hn
    rw [hl]
    exact h3 pg (hx ▸ hpg) (by rwa [Ne, ← hst])
  · rw [hq, hs]
    intro i hi w pg h5 h6 tok
    rw [hw, hl]
    exact h4 i hi w pg h5 h6 tok

theorem Carried.of_eq (h : s.Carried) (hp : s'.partsOf = s.partsOf) (hs : s'.subm = s.subm)
    (hx : s'.pgIndex = s.pgIndex) (hb : (s'.pages s.pgIndex).buff = (s.pages s.pgIndex).buff)
    (hc : s'.cached = s.cached) (ho : s'.pgOffset = s.pgOffset) : s'.Carried := by
  obtain ⟨h1, h2, h3⟩ := h
  constructor
  · rwa [hc, ho]
  · rwa [hp, hs, hx, hb, hc, ho]
  · rwa [hp, hs]

section Encode

variable {op : OpType} {r : JRec} {tok : Nat}

theorem partsOf_encoded (hc : ∀ w ∈ s.cur, w.tok = tok ∧ w.jrec = r) :
    (s.encoded g r tok).partsOf = s.partsOf ++ [⟨tok, r, s.nextPart g r tok⟩] := by
  cases h : s.cur with
  | none => simp [partsOf, encoded, h, Written.partsOf]
  | some w =>
    obtain ⟨rfl, rfl⟩ := hc w h
    simp [partsOf, encoded, h, Written.partsOf]

theorem partsOf_completed (op : OpType) (r : JRec) (tok : Nat) (u : Wmgr) (m : Maps) :
    (u.completed op r tok m).partsOf = u.partsOf := by
  simp [partsOf, completed]

theorem within_encoded (hc : ∀ w ∈ s.cur, w.tok = tok ∧ w.jrec = r) (o : Option Nat) (i : Nat) :
    (s.encoded g r tok).within o i = s.within o i + if o = none ∧ i = tok then 1 else 0 := by
  have hself : (s.nextPart g r tok).carrier s.subm = none := Part.carrier_self rfl
  rw [within, partsOf_encoded hc, List.countP_append, List.countP_singleton]
  apply congrArg (s.within o i + ·)
  change (if decide (tok = i ∧ (s.nextPart g r tok).carrier s.subm = o) = true then 1 else 0) = _
  rw [hself]
  by_cases hi : i = tok
  · by_cases ho : o = none <;> simp [hi, ho, Ne.symm]
  · simp [hi, Ne.symm hi]

theorem Listed.encoded (h : s.Listed) (hb : s.Booked g) (hp : (s.pages s.pgIndex).state = .inUse)
    (hc : ∀ w ∈ s.cur, w.tok = tok ∧ w.jrec = r) : (s.encoded g r tok).Listed := by
  have hpage : ∀ pg ≠ s.pgIndex, (s.encoded g r tok).pages pg = s.pages pg := by
    intro pg hpg
    simp only [Wmgr.encoded, Function.update_of_ne hpg]
  have hcur : (s.encoded g r tok).pages s.pgIndex = { (s.encoded g r tok).pages s.pgIndex with
      state := .inUse, pdtokl := (s.pages s.pgIndex).pdtokl ++ [tok] } := by
    simp only [Wmgr.encoded, Function.update_self, hp]
  constructor
  · rw [partsOf_encoded hc]
    intro x hx
    rcases List.mem_append.mp hx with hx | hx
    · exact h.sent x hx
    · rw [List.mem_singleton.mp hx]
      exact Nat.le_refl _
  · intro i
    have h1 := h.current i
    rw [hp, if_neg (by rintro ⟨⟩)] at h1
    rw [within_encoded hc, h1]
    change _ = if ((s.encoded g r tok).pages s.pgIndex).state = .aioPending then 0 else
      ((s.encoded g r tok).pages s.pgIndex).pdtokl.count i
    rw [hcur, if_neg (show PageState.inUse ≠ .aioPending by decide), List.count_append, List.count_singleton]
    by_cases hi : i = tok
    · simp [hi]
    · simp [hi, Ne.symm hi]
  · intro pg hpg
    rw [hpage pg hpg]
    exact h.others pg hpg
  · intro i hi w pg hw hwp j
    have hpg : pg ≠ s.pgIndex := by
      rintro rfl
      have h1 := (hb.pending_page hi hw hwp).1
      rw [hp] at h1
      cases h1
    rw [within_encoded hc, hpage pg hpg, if_neg (by rintro ⟨⟨⟩, -⟩)]
    exact h.written i hi w pg hw hwp j

theorem Carried.encoded (h : s.Carried) (hc : ∀ w ∈ s.cur, w.tok = tok ∧ w.jrec = r) :
    (s.encoded g r tok).Carried := by
  have hcached := h.cached
  have hbuff : ∀ i, ((s.encoded g r tok).pages s.pgIndex).buff i =
      if s.pgOffset ≤ i ∧ i < s.pgOffset + s.encodeLen g r tok then
        r.dblk s.owi ((s.toks tok).dblksWritten + (i - s.pgOffset)) else (s.pages s.pgIndex).buff i := by
    intro i
    simp only [Wmgr.encoded, Function.update_self]
  constructor
  · exact Nat.add_le_add_right hcached _
  · rw [partsOf_encoded hc]
    intro x hx hn
    change ∃ b, s.pgOffset + s.encodeLen g r tok - (s.cached + s.encodeLen g r tok) ≤ b ∧
      b + x.part.len ≤ s.pgOffset + s.encodeLen g r tok ∧ x.In ((s.encoded g r tok).pages s.pgIndex).buff b
    rcases List.mem_append.mp hx with hx | hx
    · obtain ⟨b, h1, h2, owi, h3⟩ := h.buffer x hx hn
      refine ⟨b, by omega, by omega, owi, fun k hk => ?_⟩
      rw [hbuff, if_neg (by omega)]
      exact h3 k hk
    · rw [List.mem_singleton.mp hx]
      refine ⟨s.pgOffset, by omega, Nat.le_refl _, s.owi, fun k hk => ?_⟩
      change k < s.encodeLen g r tok at hk
      rw [hbuff, if_pos ⟨Nat.le_add_right _ _, Nat.add_lt_add_left hk _⟩, Nat.add_sub_cancel_left]
      rfl
  · rw [partsOf_encoded hc]
    intro x hx i hi
    rcases List.mem_append.mp hx with hx | hx
    · exact h.content x hx i hi
    · rw [List.mem_singleton.mp hx] at hi
      change i ∈ (s.nextPart g r tok).carrier s.subm at hi
      rw [Part.carrier_self rfl] at hi
      cases hi

end Encode

section Submit

variable {w : Write}

theorem Listed.carrier_submit (h : s.Listed) {x : PartOf} (hx : x ∈ s.partsOf) (hs : s'.subm = s.subm ++ [w]) :
    x.part.carrier s'.subm =
      (x.part.carrier s.subm).or (if w.page.isSome then some s.subm.length else none) := by
  rw [hs]
  exact Part.carrier_append (h.sent x hx) w

/-- A header carries nothing. -/
theorem Listed.headeredTo (h : s.Listed) (hlt : ∀ i ∈ s.pending, i < s.subm.length)
    (ht : s.HeaderedTo s') : s'.Listed := by
  cases ht with
  | kept _ => exact h
  | written h0 hdr =>
    have hcar : ∀ x ∈ s.partsOf, x.part.carrier (s.fhdrSubmitted hdr).subm = x.part.carrier s.subm := by
      intro x hx
      rw [h.carrier_submit hx rfl]
      simp
    have hw : ∀ o, (s.fhdrSubmitted hdr).within o = s.within o := fun o =>
      funext fun tok => within_congr (show (s.fhdrSubmitted hdr).partsOf = s.partsOf from rfl)
        (fun x hx => by rw [hcar x hx]) tok
    constructor
    · intro x hx
      have := h.sent x hx
      simp only [fhdrSubmitted, List.length_append]
      omega
    · rw [hw]
      exact h.current
    · exact h.others
    · intro i hi w pg hsub hpg tok
      rw [hw]
      rcases List.mem_append.mp hi with hi | hi
      · refine h.written i hi w pg ?_ hpg tok
        rwa [fhdrSubmitted, List.getElem?_append_left (hlt i hi)] at hsub
      · rw [List.mem_singleton.mp hi, fhdrSubmitted, List.getElem?_concat_length] at hsub
        obtain rfl := Option.some.inj hsub
        cases hpg

theorem Carried.headeredTo (h : s.Carried) (hl : s.Listed) (ht : s.HeaderedTo s') : s'.Carried := by
  cases ht with
  | kept _ => exact h
  | written h0 hdr =>
    have hcar : ∀ x ∈ s.partsOf, x.part.carrier (s.fhdrSubmitted hdr).subm = x.part.carrier s.subm := by
      intro x hx
      rw [hl.carrier_submit hx rfl]
      simp
    constructor
    · exact h.cached
    · intro x hx hn
      rw [hcar x hx] at hn
      exact h.buffer x hx hn
    · intro x hx i hi
      rw [hcar x hx] at hi
      obtain ⟨w, hw, hrest⟩ := h.content x hx i hi
      refine ⟨w, ?_, hrest⟩
      rw [fhdrSubmitted, List.getElem?_append_left (Part.carrier_lt hi)]
      exact hw

/-- The write of the current page carries what was in the page. -/
theorem Listed.pageSubmitted (h : s.Listed) (hb : s.Booked g) (hp : (s.pages s.pgIndex).state = .inUse) :
    (s.pageSubmitted g).Listed := by
  have hcar : ∀ x ∈ s.partsOf, x.part.carrier (s.pageSubmitted g).subm =
      (x.part.carrier s.subm).or (some s.subm.length) := by
    intro x hx
    rw [h.carrier_submit hx rfl]
    rfl
  have hparts : (s.pageSubmitted g).partsOf = s.partsOf := rfl
  have hnone : ∀ tok, (s.pageSubmitted g).within none tok = 0 := by
    intro tok
    apply List.countP_eq_zero.mpr
    intro x hx
    rw [hcar x hx]
    simp
  have hlast : ∀ tok, (s.pageSubmitted g).within (some s.subm.length) tok = s.within none tok := by
    intro tok
    refine within_congr hparts (fun x hx => ?_) tok
    rw [hcar x hx]
    cases hx' : x.part.carrier s.subm with
    | none => simp
    | some i =>
      have := Part.carrier_lt hx'
      simp only [Option.some_or, Option.some.injEq, reduceCtorEq, iff_false]
      omega
  have hearlier : ∀ i < s.subm.length, ∀ tok, (s.pageSubmitted g).within (some i) tok = s.within (some i) tok := by
    intro i hi tok
    refine within_congr hparts (fun x hx => ?_) tok
    rw [hcar x hx]
    cases hx' : x.part.carrier s.subm with
    | none =>
      simp only [Option.none_or, Option.some.injEq, reduceCtorEq, iff_false]
      omega
    | some j => simp
  have hpages : ∀ pg, ((s.pageSubmitted g).pages pg).pdtokl = (s.pages pg).pdtokl ∧
      ((s.pageSubmitted g).pages pg).state = if pg = s.pgIndex then .aioPending else (s.pages pg).state := by
    intro pg
    by_cases hpg : pg = s.pgIndex
    · subst hpg
      simp [Wmgr.pageSubmitted, Wmgr.rounded]
    · simp [Wmgr.pageSubmitted, Wmgr.rounded, hpg]
  constructor
  · intro x hx
    have := h.sent x hx
    change _ ≤ (s.subm ++ [_]).length
    rw [List.length_append]
    omega
  · intro tok
    rw [hnone, (hpages _).1, (hpages _).2]
    by_cases hpg : (s.pageSubmitted g).pgIndex = s.pgIndex
    · rw [if_pos hpg, if_pos rfl]
    · rw [if_neg hpg]
      split
      · rfl
      · rename_i hst
        rw [h.others _ hpg hst, List.count_nil]
  · intro pg hpg hst
    rw [(hpages pg).2] at hst
    rw [(hpages pg).1]
    split at hst
    · exact (hst rfl).elim
    · exact h.others pg ‹_› hst
  · intro i hi w pg hw hwp tok
    change i ∈ s.pending ++ [s.subm.length] at hi
    change (s.subm ++ [_])[i]? = some w at hw
    rw [(hpages pg).1]
    rcases List.mem_append.mp hi with hi | hi
    · have hlt := hb.lt_of_pending hi
      rw [List.getElem?_append_left hlt] at hw
      rw [hearlier i hlt]
      exact h.written i hi w pg hw hwp tok
    · rw [List.mem_singleton.mp hi] at hw ⊢
      rw [List.getElem?_concat_length] at hw
      obtain rfl := Option.some.inj hw
      obtain rfl := Option.some.inj hwp
      have h1 := h.current tok
      rw [hp, if_neg (by rintro ⟨⟩)] at h1
      rw [hlast]
      exact h1.symm

theorem Carried.pageSubmitted (h : s.Carried) (hl : s.Listed) : (s.pageSubmitted g).Carried := by
  have hcar : ∀ x ∈ s.partsOf, x.part.carrier (s.pageSubmitted g).subm =
      (x.part.carrier s.subm).or (some s.subm.length) := by
    intro x hx
    rw [hl.carrier_submit hx rfl]
    rfl
  have hcached := h.cached
  constructor
  · exact Nat.zero_le _
  · intro x hx hn
    rw [hcar x hx] at hn
    cases hx' : x.part.carrier s.subm <;> rw [hx'] at hn <;> cases hn
  · intro x hx i hi
    rw [hcar x hx] at hi
    cases hx' : x.part.carrier s.subm with
    | some j =>
      rw [hx'] at hi
      obtain rfl := Option.some.inj hi
      obtain ⟨w, hw, hrest⟩ := h.content x hx j hx'
      refine ⟨w, ?_, hrest⟩
      change (s.subm ++ [_])[j]? = some w
      rw [List.getElem?_append_left (Part.carrier_lt hx')]
      exact hw
    | none =>
      rw [hx'] at hi
      obtain rfl := Option.some.inj hi
      obtain ⟨b, h1, h2, owi, h3⟩ := h.buffer x hx hx'
      refine ⟨_, List.getElem?_concat_length, by rintro ⟨⟩, b - (s.pgOffset - s.cached), ?_, owi, fun k hk => ?_⟩
      · change _ ≤ s.cached + _
        omega
      · change ((s.rounded g).pages s.pgIndex).buff ((s.rounded g).pgOffset - (s.rounded g).cached +
          (b - (s.pgOffset - s.cached) + k)) = _
        have hpos : (s.rounded g).pgOffset - (s.rounded g).cached + (b - (s.pgOffset - s.cached) + k) =
            b + k := by
          change s.pgOffset + s.fillLen - (s.cached + s.fillLen) + _ = _
          omega
        rw [hpos, ← h3 k hk]
        simp only [Wmgr.rounded, Function.update_self]
        rw [if_neg (by omega)]

end Submit

/-- A page that has returned lists nothing any more. -/
theorem Listed.eventTo (h : s.Listed) (hb : s.Booked g) (hb' : s'.Booked g) {i : Nat}
    (ht : s.EventTo i s') : s'.Listed := by
  cases ht with
  | none _ => exact h
  | header hi hw hp =>
    constructor
    · exact h.sent
    · exact h.current
    · exact h.others
    · exact fun j hj => h.written j (List.mem_of_mem_erase hj)
  | page hi hw hp htoks =>
    obtain ⟨t, x, m, rfl⟩ := htoks.frame
    rename_i w pg out
    have hst := (hb.pending_page hi hw hp).1
    constructor
    · exact h.sent
    · intro tok
      have h1 := h.current tok
      change s.within none tok = _
      rw [h1]
      by_cases hpg : s.pgIndex = pg
      · subst hpg
        simp [hst]
      · simp only [Function.update_of_ne hpg]
    · intro j hj hn
      by_cases hpg : j = pg
      · subst hpg
        simp
      · simp only [Function.update_of_ne hpg] at hn ⊢
        exact h.others j hj hn
    · intro j hj w' pg' hw' hp' tok
      have hpg : pg' ≠ pg := by
        rintro rfl
        have h1 := (hb'.pending_page hj hw' hp').1
        simp at h1
      simp only [Function.update_of_ne hpg]
      exact h.written j (List.mem_of_mem_erase hj) w' pg' hw' hp' tok

end Wmgr

end RhmStore
