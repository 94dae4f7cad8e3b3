import RhmStore.Rec.Recover
import RhmStore.Tools.Jrnl

/-! # Loading a stored record in pieces -/

namespace RhmStore

namespace Jrnl

/-! ## One part -/

namespace File

def rest (f : File) : Bytes := f.bytes.drop f.tell

structure Whole (jrnlFileSize : Nat) (f : File) : Prop where
  length : f.bytes.length = jrnlFileSize
  tell : f.tell ≤ jrnlFileSize

variable {jrnlFileSize : Nat} {f : File}

theorem Whole.rest_length (h : f.Whole jrnlFileSize) : f.rest.length = jrnlFileSize - f.tell := by
  simp [rest, h.length]

theorem read_fst (f : File) (n : Nat) : (f.read n).1 = f.rest.take n := rfl

theorem Whole.read (h : f.Whole jrnlFileSize) {n : Nat} (hn : n ≤ f.rest.length) :
    (f.read n).2.Whole jrnlFileSize ∧ (f.read n).2.rest = f.rest.drop n := by
  have hlen : (f.rest.take n).length = n := List.length_take_of_le hn
  have htell : (f.read n).2.tell = f.tell + n := congrArg (f.tell + ·) hlen
  have hl := h.rest_length
  have ht := h.tell
  constructor
  · constructor
    · exact h.length
    · omega
  · show f.bytes.drop (f.read n).2.tell = _
    rw [htell, ← List.drop_drop]
    rfl

end File

/-- What is loaded of the part `p`, which stands `o` bytes behind the header, when `e` of these bytes are
read. -/
structure Part (p : Bytes) (o e : Nat) (data : Option Bytes) (complete : Bool) : Prop where
  empty : p = [] → data = none
  bytes : data.getD [] = p.take (e - o)
  le : complete = true → o + p.length ≤ e
  ge : complete = false → p = [] ∨ e ≤ o + p.length

namespace Part

variable {p after : Bytes} {o e e' : Nat} {data : Option Bytes} {complete : Bool}

theorem init (p : Bytes) (o : Nat) : Part p o 0 none false where
  empty _ := rfl
  bytes := by simp
  le h := by cases h
  ge _ := .inr (Nat.zero_le _)

theorem eq_of_complete (h : Part p o e data true) : data = if p = [] then none else some p := by
  have hb := h.bytes
  have hle := h.le rfl
  rw [List.take_of_length_le (by omega)] at hb
  by_cases hp : p = []
  · rw [if_pos hp, h.empty hp]
  · rw [if_neg hp]
    cases data with
    | none => exact absurd hb.symm hp
    | some b => exact congrArg some hb

/-- Bytes of other parts are read. -/
theorem advance (h : Part p o e data complete) (hle : e ≤ e')
    (ho : e' = e ∨ complete = true ∨ e' ≤ o ∨ complete = false ∧ p = []) : Part p o e' data complete := by
  rcases ho with rfl | hc | ho | ⟨hc, hp⟩
  · exact h
  · have hl := h.le hc
    refine ⟨h.empty, ?_, fun _ => Nat.le_trans hl hle, ?_⟩
    · rw [h.bytes, List.take_of_length_le (by omega), List.take_of_length_le (by omega)]
    · rw [hc]
      intro hf
      cases hf
  · have h0 : e - o = 0 := by omega
    have h0' : e' - o = 0 := by omega
    refine ⟨h.empty, ?_, fun hc => Nat.le_trans (h.le hc) hle, fun _ => .inr (by omega)⟩
    rw [h.bytes, h0, h0']
  · refine ⟨h.empty, ?_, fun ht => ?_, fun _ => .inl hp⟩
    · rw [h.bytes, hp, List.take_nil, List.take_nil]
    · rw [hc] at ht
      cases ht

variable {jrnlFileSize : Nat} {f : File}

/-- A file ends within the part, or the part is complete and the file is left behind it. -/
theorem loadFileData (h : Part p o e data false) (ho : o ≤ e) (hw : f.Whole jrnlFileSize)
    (hs : f.rest <+: p.drop (e - o) ++ after) :
    ∃ data' complete' f' e', loadFileData jrnlFileSize f p.length data = .ok ((data', complete'), f') ∧
      Part p o e' data' complete' ∧ f'.Whole jrnlFileSize ∧ e' + f'.rest.length = e + f.rest.length ∧
      (complete' = true ∧ e' = max e (o + p.length) ∧ f'.rest <+: after ∨
        complete' = false ∧ f'.rest = [] ∧ e ≤ e' ∧ e' < o + p.length) := by
  by_cases hp : p = []
  · refine ⟨data, true, f, e, ?_, ?_, hw, rfl, .inl ⟨rfl, ?_, ?_⟩⟩
    · rw [Jrnl.loadFileData, hp, List.length_nil, if_pos rfl]
    · exact ⟨h.empty, h.bytes, fun _ => by simpa [hp] using ho, fun hc => by cases hc⟩
    · simp [hp, ho]
    · simpa [hp] using hs
  · have hpos : p.length ≠ 0 := fun h0 => hp (List.eq_nil_of_length_eq_zero h0)
    have hle : e ≤ o + p.length := (h.ge rfl).resolve_left hp
    have hloaded : data.elim 0 List.length = e - o := by
      have hlen := congrArg List.length h.bytes
      rw [List.length_take] at hlen
      cases data with
      | none =>
        rw [Option.getD_none, List.length_nil] at hlen
        rw [Option.elim_none]
        omega
      | some b =>
        rw [Option.getD_some] at hlen
        rw [Option.elim_some]
        omega
    have hrl := hw.rest_length
    have ht := hw.tell
    unfold Jrnl.loadFileData
    simp only [if_neg hpos, hloaded]
    by_cases hover : f.rest.length < o + p.length - e
    · -- the file ends first
      have hdec : decide (jrnlFileSize < f.tell + p.length - (e - o)) = true := by
        rw [decide_eq_true_iff]
        omega
      have hread : (f.read (jrnlFileSize - f.tell)).1 = f.rest := by
        rw [File.read_fst, ← hrl, List.take_length]
      obtain ⟨hw', hrest⟩ := hw.read (Nat.le_of_eq hrl.symm)
      have htake : p.take (e - o) ++ f.rest = p.take (e - o + f.rest.length) := by
        have hpre : f.rest = (p.drop (e - o)).take f.rest.length := by
          have heq := List.prefix_iff_eq_take.mp hs
          rwa [List.take_append_of_le_length (by rw [List.length_drop]; omega)] at heq
        rw [List.take_add, ← hpre]
      refine ⟨some (p.take (e - o) ++ f.rest), false, (f.read (jrnlFileSize - f.tell)).2,
        e + f.rest.length, ?_, ?_, hw', ?_, .inr ⟨rfl, ?_, by omega, by omega⟩⟩
      · rw [hdec, if_pos rfl, hread, unpackS, if_pos hrl, h.bytes]
        rfl
      · refine ⟨fun h0 => absurd h0 hp, ?_, fun hc => (by cases hc), fun _ => .inr (by omega)⟩
        rw [Option.getD_some, htake]
        congr 1
        omega
      · rw [hrest, List.length_drop]
        omega
      · rw [hrest]
        exact List.drop_of_length_le (Nat.le_of_eq hrl)
    · have hdec : decide (jrnlFileSize < f.tell + p.length - (e - o)) = false := by
        rw [decide_eq_false_iff_not]
        omega
      have hn : p.length - (e - o) ≤ f.rest.length := by omega
      have hread : (f.read (p.length - (e - o))).1 = p.drop (e - o) := by
        rw [File.read_fst]
        have heq := List.prefix_iff_eq_take.mp hs
        rw [heq, List.take_take, Nat.min_eq_left hn]
        exact List.take_left' (by rw [List.length_drop])
      obtain ⟨hw', hrest⟩ := hw.read hn
      refine ⟨some p, true, (f.read (p.length - (e - o))).2, o + p.length, ?_, ?_, hw', ?_,
        .inl ⟨rfl, by omega, ?_⟩⟩
      · have hl : (p.drop (e - o)).length = p.length - (e - o) := List.length_drop
        rw [hdec, if_neg Bool.false_ne_true, hread, unpackS, if_pos hl, h.bytes]
        show Except.ok ((some (p.take (e - o) ++ p.drop (e - o)), true), _) = _
        rw [List.take_append_drop]
      · refine ⟨fun h0 => absurd h0 hp, ?_, fun _ => Nat.le_refl _, fun hc => (by cases hc)⟩
        rw [Option.getD_some, List.take_of_length_le (by omega)]
      · rw [hrest, List.length_drop]
        omega
      · rw [hrest]
        obtain ⟨t, ht⟩ := hs
        have hcut := congrArg (List.drop (p.length - (e - o))) ht
        rw [List.drop_append_of_le_length hn, List.drop_left' (by rw [List.length_drop])] at hcut
        exact ⟨t, hcut⟩

end Part

/-! ## The stream of the files -/

/-- A file in which the bytes `s` go on from offset `e` of these. -/
structure File.Reads (jrnlFileSize : Nat) (s : Bytes) (e : Nat) (f : File) : Prop where
  whole : f.Whole jrnlFileSize
  rest : f.rest <+: s.drop e

variable {jrnlFileSize : Nat} {f : File}

theorem Part.load {p pre next s : Bytes} {o e : Nat} {data : Option Bytes} (h : Part p o e data false)
    (hs : s = pre ++ (p ++ next)) (hpre : pre.length = o) (ho : o ≤ e) (hr : f.Reads jrnlFileSize s e) :
    ∃ data' complete' f' e', Jrnl.loadFileData jrnlFileSize f p.length data = .ok ((data', complete'), f') ∧
      Part p o e' data' complete' ∧ f'.Reads jrnlFileSize s e' ∧ e ≤ e' ∧
      e' + f'.rest.length = e + f.rest.length ∧ (e' = e ∨ e' ≤ o + p.length) ∧
      (complete' = true ∨ f'.rest = [] ∧ e' < o + p.length) := by
  have hdrop : ∀ n, o ≤ n → s.drop n = p.drop (n - o) ++ next.drop (n - o - p.length) := by
    intro n hn
    rw [hs, List.drop_append, List.drop_of_length_le (by omega), List.nil_append, List.drop_append, hpre]
  have hpr := hr.rest
  rw [hdrop e ho] at hpr
  obtain ⟨data', complete', f', e', hok, hp, hw, hlen, hend⟩ := h.loadFileData ho hr.whole hpr
  rcases hend with ⟨hc, he, hrest⟩ | ⟨hc, hnil, hle, hle'⟩
  · refine ⟨data', complete', f', e', hok, hp, ⟨hw, ?_⟩, by omega, hlen, by omega, .inl hc⟩
    have hmax : max e (o + p.length) - o - p.length = e - o - p.length := by omega
    rw [hdrop e' (by omega), he, hmax, List.drop_of_length_le (by omega)]
    exact hrest
  · refine ⟨data', complete', f', e', hok, hp, ⟨hw, ?_⟩, hle, hlen, .inr (Nat.le_of_lt hle'),
      .inr ⟨hnil, hle'⟩⟩
    rw [hnil]
    exact List.nil_prefix

/-! ## The body of a record -/

namespace Body

def Goes (x d t : Bytes) (e : Nat) (f : File) (complete : Bool) : Prop :=
  complete = true ∨ f.rest = [] ∧ e < x.length + d.length + t.length

/-- What is loaded of xid, data and tail when `e` of their bytes are read. -/
structure Loaded (x d t : Bytes) (e : Nat) (b : Body) : Prop where
  xid : Part x 0 e b.xid b.xidComplete
  data : Part d x.length e b.data b.dataComplete
  tailBin : Part t (x.length + d.length) e b.tailBin b.tailComplete
  tail : b.tailComplete = true → b.tail = some (.unpack t)
  order : b.dataComplete = true → b.xidComplete = true

variable {x d t after : Bytes} {e : Nat} {b : Body}

theorem loaded_init (x d t : Bytes) : init.Loaded x d t 0 where
  xid := .init x 0
  data := .init d x.length
  tailBin := .init t (x.length + d.length)
  tail h := by cases h
  order h := by cases h

theorem Loaded.loadXid (h : b.Loaded x d t e) (hr : f.Reads jrnlFileSize (x ++ (d ++ (t ++ after))) e) :
    ∃ b' f' e', b.loadXid jrnlFileSize x.length f = .ok (b', f') ∧ b'.Loaded x d t e' ∧
      f'.Reads jrnlFileSize (x ++ (d ++ (t ++ after))) e' ∧ e' + f'.rest.length = e + f.rest.length ∧
      Goes x d t e' f' b'.xidComplete := by
  unfold Body.loadXid
  cases hx : b.xidComplete with
  | true => exact ⟨b, f, e, by rw [if_pos rfl], h, hr, rfl, .inl hx⟩
  | false =>
    have hpart := h.xid
    rw [hx] at hpart
    have hs : x ++ (d ++ (t ++ after)) = [] ++ (x ++ (d ++ (t ++ after))) := rfl
    obtain ⟨data', complete', f', e', hok, hp, hr', hle, hlen, he, hend⟩ :=
      hpart.load hs rfl (Nat.zero_le e) hr
    refine ⟨{ b with xid := data', xidComplete := complete' }, f', e', ?_, ?_, hr', hlen,
      hend.imp_right fun hf => ⟨hf.1, by omega⟩⟩
    · rw [if_neg Bool.false_ne_true, hok]
      rfl
    · refine ⟨hp, h.data.advance hle (by omega), h.tailBin.advance hle (by omega), h.tail, ?_⟩
      intro hd
      have ht := h.order hd
      rw [hx] at ht
      cases ht

theorem dataComplete_loadXid {xidsize : Nat} {b' : Body} {f' : File}
    (h : b.loadXid jrnlFileSize xidsize f = .ok (b', f')) : b'.dataComplete = b.dataComplete := by
  unfold Body.loadXid at h
  split at h
  · cases h
    rfl
  · cases hd : loadFileData jrnlFileSize f xidsize b.xid with
    | error err =>
      rw [hd] at h
      cases h
    | ok x =>
      rw [hd] at h
      cases h
      rfl

theorem Loaded.loadData {dsize : Nat} {external : Bool} (h : b.Loaded x d t e)
    (hr : f.Reads jrnlFileSize (x ++ (d ++ (t ++ after))) e) (hbefore : Goes x d t e f b.xidComplete)
    (hd : if external then d = [] else dsize = d.length) :
    ∃ b' f' e', b.loadData jrnlFileSize dsize external f = .ok (b', f') ∧ b'.Loaded x d t e' ∧
      f'.Reads jrnlFileSize (x ++ (d ++ (t ++ after))) e' ∧ e' + f'.rest.length = e + f.rest.length ∧
      Goes x d t e' f' b'.dataComplete := by
  unfold Body.loadData
  by_cases hc : (b.xidComplete && !b.dataComplete) = true
  · rw [if_pos hc]
    rw [Bool.and_eq_true, Bool.not_eq_true'] at hc
    obtain ⟨hx, hdc⟩ := hc
    have hxle : x.length ≤ e := by
      have hle := h.xid.le hx
      omega
    have hpart := h.data
    rw [hdc] at hpart
    cases external with
    | true =>
      rw [if_pos rfl] at hd
      refine ⟨{ b with dataComplete := true }, f, e, by rw [if_pos rfl], ⟨h.xid, ?_, h.tailBin, h.tail, fun _ => hx⟩,
        hr, rfl, .inl rfl⟩
      refine ⟨hpart.empty, hpart.bytes, fun _ => ?_, fun hf => (by cases hf)⟩
      rw [hd]
      exact hxle
    | false =>
      rw [if_neg Bool.false_ne_true] at hd
      obtain ⟨data', complete', f', e', hok, hp, hr', hle, hlen, he, hend⟩ := hpart.load rfl rfl hxle hr
      refine ⟨{ b with data := data', dataComplete := complete' }, f', e', ?_, ?_, hr', hlen,
        hend.imp_right fun hf => ⟨hf.1, by omega⟩⟩
      · rw [if_neg Bool.false_ne_true, hd, hok]
        rfl
      · exact ⟨h.xid.advance hle (.inr (.inl hx)), hp, h.tailBin.advance hle (by omega), h.tail, fun _ => hx⟩
  · rw [if_neg hc]
    refine ⟨b, f, e, rfl, h, hr, rfl, ?_⟩
    rcases hbefore with hx | hnil
    · left
      rw [hx, Bool.true_and, Bool.not_eq_true'] at hc
      exact Bool.not_eq_false _ ▸ hc
    · exact .inr hnil

/-- The tail that `load` accepts. -/
structure TailOf (h : Hdr) (t : Bytes) : Prop where
  length : t.length = RecTail.size
  magicInv : (RecTail.unpack t).magicInv = invStr h.magic
  rid : (RecTail.unpack t).rid = h.rid

theorem Loaded.loadTail {h : Hdr} {before : Bool} (hb : b.Loaded x d t e)
    (hr : f.Reads jrnlFileSize (x ++ (d ++ (t ++ after))) e)
    (hbefore : before = true → b.xidComplete = true ∧ (b.dataComplete = true ∨ b.dataComplete = false ∧ d = []))
    (hgoes : Goes x d t e f before) (ht : TailOf h t) :
    ∃ b' f' e', b.loadTail jrnlFileSize h before f = .ok (b', f') ∧ b'.Loaded x d t e' ∧
      b'.xidComplete = b.xidComplete ∧ b'.dataComplete = b.dataComplete ∧
      (before = true ∧ b'.tailComplete = true ∨
        e' = e + f.rest.length ∧ e' < x.length + d.length + t.length) := by
  unfold Body.loadTail
  by_cases hc : (before && !b.tailComplete) = true
  · rw [if_pos hc]
    rw [Bool.and_eq_true, Bool.not_eq_true'] at hc
    obtain ⟨hbf, htc⟩ := hc
    obtain ⟨hx, hd⟩ := hbefore hbf
    have hge : x.length + d.length ≤ e := by
      have hxle := hb.xid.le hx
      rcases hd with hdc | ⟨-, hnil⟩
      · exact hb.data.le hdc
      · rw [hnil, List.length_nil]
        omega
    have hpart := hb.tailBin
    rw [htc] at hpart
    have hs : x ++ (d ++ (t ++ after)) = (x ++ d) ++ (t ++ after) := (List.append_assoc _ _ _).symm
    obtain ⟨data', complete', f', e', hok, hp, -, hle, hlen, -, hend⟩ :=
      hpart.load hs List.length_append hge hr
    have hxid := hb.xid.advance hle (.inr (.inl hx))
    have hdata : Part d x.length e' b.data b.dataComplete := by
      apply hb.data.advance hle
      rcases hd with hdc | hnil
      · exact .inr (.inl hdc)
      · exact .inr (.inr (.inr hnil))
    rw [← ht.length, hok]
    cases complete' with
    | true =>
      have htne : t ≠ [] := by
        intro hnil
        have hl := ht.length
        rw [hnil] at hl
        cases hl
      have hsome := hp.eq_of_complete
      rw [if_neg htne] at hsome
      have hun : unpackS t.length (data'.getD []) = .ok t := by
        rw [hsome, unpackS]
        exact if_pos rfl
      refine ⟨{ b with tail := some (.unpack t), tailBin := data', tailComplete := true }, Hdr.skip f', e',
        ?_, ⟨hxid, hdata, hp, fun _ => rfl, hb.order⟩, rfl, rfl, .inl ⟨hbf, rfl⟩⟩
      simp [hun, ht.magicInv, ht.rid, bind, Except.bind]
    | false =>
      rw [Bool.false_eq_true, false_or] at hend
      rw [hend.1, List.length_nil, Nat.add_zero] at hlen
      refine ⟨{ b with tailBin := data', tailComplete := false }, f', e', ?_,
        ⟨hxid, hdata, hp, fun hf => (by cases hf), hb.order⟩, rfl, rfl, .inr ⟨hlen, hend.2⟩⟩
      simp [bind, Except.bind]
  · rw [if_neg hc]
    refine ⟨b, f, e, rfl, hb, rfl, rfl, ?_⟩
    rcases hgoes with hbf | ⟨hnil, hlt⟩
    · left
      rw [hbf, Bool.true_and, Bool.not_eq_true'] at hc
      exact ⟨hbf, Bool.not_eq_false _ ▸ hc⟩
    · right
      rw [hnil]
      exact ⟨rfl, hlt⟩

def whole (x d t : Bytes) (dataComplete : Bool) : Body where
  xid := if x = [] then none else some x
  data := if d = [] then none else some d
  tail := some (.unpack t)
  tailBin := if t = [] then none else some t
  xidComplete := true
  dataComplete := dataComplete
  tailComplete := true

theorem Loaded.eq_whole (h : b.Loaded x d t e) (hx : b.xidComplete = true)
    (hd : b.dataComplete = true ∨ b.dataComplete = false ∧ d = []) (ht : b.tailComplete = true) :
    b = whole x d t b.dataComplete := by
  have hxid := h.xid
  have hdata := h.data
  have htail := h.tailBin
  rw [hx] at hxid
  rw [ht] at htail
  have hdeq : b.data = if d = [] then none else some d := by
    rcases hd with hdc | ⟨-, hnil⟩
    · rw [hdc] at hdata
      exact hdata.eq_of_complete
    · rw [if_pos hnil]
      exact hdata.empty hnil
  cases b
  simp only [whole, mk.injEq]
  exact ⟨hxid.eq_of_complete, hdeq, h.tail ht, htail.eq_of_complete, hx, trivial, ht⟩

end Body

/-! ## The files of a record -/

namespace Rec

open Body (Loaded whole)

variable {x d t : Bytes}

/-- A class: how `load` goes on with the bodies `Inv` of one record, and what is loaded in the end. -/
structure Loads (jrnlFileSize : Nat) (x d t after : Bytes) (mk : Body → Rec) (Inv : Body → Prop) (w : Body) :
    Prop where
  load : ∀ {b : Body} {f : File} {e : Nat}, b.Loaded x d t e → Inv b →
    f.Reads jrnlFileSize (x ++ (d ++ (t ++ after))) e → ∃ b' f' e',
      (mk b).load jrnlFileSize f = .ok (mk b', f') ∧ b'.Loaded x d t e' ∧ Inv b' ∧
        ((mk b').complete = true ∨ e' = e + f.rest.length ∧ e' < x.length + d.length + t.length)
  whole : ∀ {b : Body} {e : Nat}, b.Loaded x d t e → Inv b → (mk b).complete = true → b = w

def following (files : List Bytes) : Bytes := (files.map (·.drop (jrnlSblkSize * jrnlDblkSize))).flatten

theorem Loads.loadRec {jrnlFileSize : Nat} {after : Bytes} {mk : Body → Rec} {Inv : Body → Prop} {w : Body}
    (h : Loads jrnlFileSize x d t after mk Inv w) (hsize : jrnlSblkSize * jrnlDblkSize ≤ jrnlFileSize)
    {files : List Bytes} (hfiles : ∀ file ∈ files, file.length = jrnlFileSize) {b : Body} {e : Nat}
    (hb : b.Loaded x d t e) (hinv : Inv b)
    (hgoes : (mk b).complete = true ∨
      (x ++ (d ++ (t ++ after))).drop e = following files ∧ e < x.length + d.length + t.length) :
    Rec.loadRec jrnlFileSize (mk b) files = .ok (some (mk w)) := by
  induction files generalizing b e with
  | nil =>
    have hc : (mk b).complete = true := by
      rcases hgoes with hc | ⟨hnil, hlt⟩
      · exact hc
      · have hlen := congrArg List.length hnil
        simp only [following, List.map_nil, List.flatten_nil, List.length_nil, List.length_drop,
          List.length_append] at hlen
        omega
    rw [Rec.loadRec, if_pos hc, h.whole hb hinv hc]
  | cons file files ih =>
    by_cases hc : (mk b).complete = true
    · rw [Rec.loadRec, if_pos hc, h.whole hb hinv hc]
    · obtain ⟨hdrop, hlt⟩ := hgoes.resolve_left hc
      have hfile := hfiles file List.mem_cons_self
      have hcons : following (file :: files) =
          file.drop (jrnlSblkSize * jrnlDblkSize) ++ following files := by
        simp only [following, List.map_cons, List.flatten_cons]
      have hr : File.Reads jrnlFileSize (x ++ (d ++ (t ++ after))) e ⟨file, jrnlSblkSize * jrnlDblkSize⟩ := by
        refine ⟨⟨hfile, hsize⟩, ?_⟩
        rw [hdrop, hcons]
        exact List.prefix_append _ _
      obtain ⟨b', f', e', hok, hb', hinv', hgoes'⟩ := h.load hb hinv hr
      rw [Rec.loadRec, if_neg hc]
      simp only [hok, bind, Except.bind]
      apply ih (fun g hg => hfiles g (List.mem_cons_of_mem _ hg)) hb' hinv'
      rcases hgoes' with hc' | ⟨he, hlt'⟩
      · exact .inl hc'
      · refine .inr ⟨?_, hlt'⟩
        rw [he, ← List.drop_drop, hdrop, hcons]
        exact List.drop_left

theorem loadArgs_eq {jrnlFileSize : Nat} {f : File} (hw : f.Whole jrnlFileSize) {a r : Bytes}
    (hr : f.rest = a ++ r) : ∃ f', loadArgs f a.length = .ok (a, f') ∧ f'.Whole jrnlFileSize ∧ f'.rest = r := by
  have hn : a.length ≤ f.rest.length := by
    rw [hr, List.length_append]
    exact Nat.le_add_right _ _
  obtain ⟨hw', hrest⟩ := hw.read hn
  refine ⟨(f.read a.length).2, ?_, hw', ?_⟩
  · have hread : (f.read a.length).1 = a := by rw [File.read_fst, hr, List.take_left]
    have hpair : f.read a.length = (a, (f.read a.length).2) := Prod.ext hread rfl
    rw [loadArgs, hread, if_pos rfl, ← hpair]
  · rw [hrest, hr, List.drop_left]

/-- A record whose header stands in the first file is loaded from there on. -/
theorem Loads.next {jrnlFileSize : Nat} {after : Bytes} {mk : Body → Rec} {Inv : Body → Prop} {w : Body}
    (h : Loads jrnlFileSize x d t after mk Inv w) (hsize : jrnlSblkSize * jrnlDblkSize ≤ jrnlFileSize)
    {files : List Bytes} (hfiles : ∀ file ∈ files, file.length = jrnlFileSize) (hinv : Inv .init)
    {hdr args r : Bytes} (hl : hdr.length = Hdr.size) (hcheck : (mk w).hdr.check = .ok false)
    (hhdr : ∀ b, (mk b).hdr = (mk w).hdr)
    (hclass : ∀ {f : File}, f.Whole jrnlFileSize → f.rest = args ++ r → ∃ f',
      loadClass (.unpack hdr) f = .ok (mk .init, f') ∧ f'.Whole jrnlFileSize ∧ f'.rest = r)
    {f : File} (hw : f.Whole jrnlFileSize) (hrest : f.rest = hdr ++ (args ++ r))
    (hs : r ++ following files = x ++ (d ++ (t ++ after))) :
    Rec.next jrnlFileSize f files = .ok (some (mk w)) := by
  obtain ⟨f₁, hok₁, hw₁, hrest₁⟩ := loadArgs_eq hw hrest
  obtain ⟨f₂, hok₂, hw₂, hrest₂⟩ := hclass hw₁ hrest₁
  have hr : f₂.Reads jrnlFileSize (x ++ (d ++ (t ++ after))) 0 := by
    refine ⟨hw₂, ?_⟩
    rw [hrest₂, List.drop_zero, ← hs]
    exact List.prefix_append _ _
  obtain ⟨b', f', e', hok, hb', hinv', hgoes⟩ := h.load (Body.loaded_init x d t) hinv hr
  have hstart : Rec.start jrnlFileSize f = .ok (mk b', Hdr.skip f') := by
    rw [hl] at hok₁
    simp only [Rec.start, hok₁, hok₂, hok, bind, Except.bind]
    rfl
  have hload := h.loadRec hsize hfiles hb' hinv' (hgoes.imp_right fun hg => by
    refine ⟨?_, hg.2⟩
    rw [hg.1, Nat.zero_add, hrest₂, ← hs, List.drop_left])
  simp only [Rec.next, hstart, hhdr, hcheck, hload, bind, Except.bind]
  rfl

end Rec

/-! ## The stored records -/

def Hdr.ofStore (h : RecHdr) : Hdr := ⟨leBytes 4 h.magic.toNat, h.version, h.eflag, h.uflag, h.rid⟩

def RecTail.ofStore (t : RhmStore.RecTail) : RecTail := ⟨leBytes 4 t.xmagic.toNat, t.rid⟩

theorem Hdr.encode_ofStore (h : RecHdr) : (Hdr.ofStore h).encode = h.bytes := rfl

theorem RecTail.encode_ofStore (t : RhmStore.RecTail) : (RecTail.ofStore t).encode = t.bytes := rfl

theorem unpack_recHdr (h : RecHdr) : Hdr.unpack h.bytes = .ofStore h := by
  have hmagic : h.bytes.take 4 = leBytes 4 h.magic.toNat := by
    simp only [RecHdr.bytes, List.append_assoc]
    exact List.take_left' (length_leBytes 4 _)
  have hof := RecHdr.ofBytes_bytes h
  show Hdr.mk (h.bytes.take 4) (RecHdr.ofBytes h.bytes).version (RecHdr.ofBytes h.bytes).eflag
    (RecHdr.ofBytes h.bytes).uflag (RecHdr.ofBytes h.bytes).rid = _
  rw [hmagic, hof]
  rfl

theorem unpack_recTail (t : RhmStore.RecTail) : RecTail.unpack t.bytes = .ofStore t := by
  have hmagic : t.bytes.take 4 = leBytes 4 t.xmagic.toNat := List.take_left' (length_leBytes 4 _)
  have hof := RhmStore.RecTail.ofBytes_bytes t
  show RecTail.mk (t.bytes.take 4) (RhmStore.RecTail.ofBytes t.bytes).rid = _
  rw [hmagic, hof]
  rfl

theorem invStr_leBytes (m : UInt32) : invStr (leBytes 4 m.toNat) = leBytes 4 (~~~m).toNat := by
  have hlt := m.toNat_lt
  have hnot : ∀ a b : Nat, a % 256 + b % 256 = 255 → ~~~(UInt8.ofNat a) = UInt8.ofNat b := by
    intro a b h
    apply UInt8.toNat_inj.mp
    simp only [UInt8.toNat_not, UInt8.toNat_ofNat', UInt8.size]
    omega
  simp only [invStr, leBytes, List.map_cons, List.map_nil, UInt32.toNat_not, UInt32.size, List.cons.injEq,
    and_true]
  refine ⟨hnot _ _ ?_, hnot _ _ ?_, hnot _ _ ?_, hnot _ _ ?_⟩ <;> omega

theorem tailOf_ofHdr (h : RecHdr) : Body.TailOf (.ofStore h) (RhmStore.RecTail.ofHdr h).bytes where
  length := length_recTail_bytes _
  magicInv := by
    rw [unpack_recTail]
    exact (invStr_leBytes _).symm
  rid := by
    rw [unpack_recTail]
    rfl

end Jrnl

end RhmStore
