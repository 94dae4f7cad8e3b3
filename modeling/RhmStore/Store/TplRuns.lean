import RhmStore.Store.TplMap

/-! # The TPL in a ring of files, over restarts

A file of the TPL is used again when no open transaction has its prepare there. So recovery does not
find the front of the log, and may find the dequeue and the end of a transaction without its prepare. -/

namespace RhmStore

open Std

variable {lost kept log : List DataRec} {m m' : Maps} {w : DataRec} {x : Xid} {n : Nat}

/-- Of the front of the log, `lost`, no prepare is open. -/
def Lost (lost kept : List DataRec) : Prop :=
  ∀ x rid, (tplState x (lost ++ kept)).openRid = some rid → rid ∉ dataRids lost

theorem TplHist.of_front {l : List DataRec} (h : TplHist log) (hp : l <+: log) : TplHist l := by
  induction h with
  | nil =>
    rw [List.prefix_nil.mp hp]
    exact .nil
  | concat h hn hw ih =>
    rcases List.prefix_concat_iff.mp hp with rfl | hp
    · exact .concat h hn hw
    · exact ih hp

def Headless (lost : List DataRec) (s : TplState) (tdl : List TxnData) : Prop :=
  match s with
  | .absent => False
  | .enqueued rid _ => rid ∈ dataRids lost ∧ tdl = []
  | .dequeued rid _ _ => rid ∈ dataRids lost ∧ (tdl = [] ∨ ∃ td, tdl = [td] ∧ td.enqFlag = false)

/-- The maps of a recovery that has replayed `kept`. -/
structure TplFound (lost kept : List DataRec) (m : Maps) : Prop where
  told : ∀ x, (tplState x (lost ++ kept)).Told true (m.tmap.getTdataList x) ∨
    Headless lost (tplState x (lost ++ kept)) (m.tmap.getTdataList x)
  enq : ∀ r, m.view.enq r = none

namespace TplFound

open Maps TplMaps

theorem init (h : TplHist lost) (n : Nat) : TplFound lost [] (Maps.init n) := by
  have hm := TplMaps.init true n
  have hnil : ∀ x, (Maps.init n).tmap.getTdataList x = [] := hm.told
  refine ⟨fun x => ?_, hm.enq⟩
  rw [List.append_nil, hnil]
  have hmem : ∀ rid, (tplState x lost).openRid = some rid → rid ∈ dataRids lost := by
    intro rid hr
    obtain ⟨-, w, hw, hj, -⟩ := h.prepare_mem hr
    exact List.mem_map.mpr ⟨w, hw, by rw [hj]; rfl⟩
  cases hs : tplState x lost with
  | absent => exact .inl rfl
  | enqueued rid tpc => exact .inr ⟨hmem rid (by rw [hs]; rfl), rfl⟩
  | dequeued rid tpc c => exact .inr ⟨hmem rid (by rw [hs]; rfl), .inl rfl⟩

theorem paired (h : TplFound lost kept m) {rid : Nat} {tpc c : Bool}
    (hs : tplState x (lost ++ kept) = .dequeued rid tpc c) : Paired (m.tmap.getTdataList x) := by
  have ht := h.told x
  rw [hs] at ht
  rcases ht with ⟨td, td', hl, he, hr, he', hd, -⟩ | ⟨-, hl | hl⟩
  · exact .inr (.inr ⟨td, td', hl, he, he', hd.trans hr.symm⟩)
  · exact .inl hl
  · exact .inr (.inl hl)

theorem markAioCompl_nil_or {tdl : List TxnData} (h : ∃ td, tdl = [td] ∧ td.enqFlag = false) (rid : Nat) :
    ∃ td, TxnMap.markAioCompl rid tdl = [td] ∧ td.enqFlag = false := by
  obtain ⟨td, rfl, he⟩ := h
  simp only [TxnMap.markAioCompl]
  split
  · exact ⟨_, rfl, he⟩
  · exact ⟨td, rfl, he⟩

/-- The recovery replays one record more. -/
theorem rcvrRecord (h : TplFound lost kept m) (hl : TplHist (lost ++ kept)) (hw : TplAdds (lost ++ kept) w)
    (ht : w.placed.jrec.isTransient = false)
    (hm : Maps.rcvrRecord w.placed.fid w.placed.jrec m = .ok () m') : TplFound lost (kept ++ [w]) m' := by
  refine ⟨fun x => ?_, fun r => ?_⟩
  · have htold := h.told x
    rw [← List.append_assoc, tplState_concat]
    cases hw with
    | prepare rid y fid tpc hy hs =>
      have hdata : m'.tmap.getTdataList x = if x = y then TxnMap.markAioCompl rid
          (m.tmap.getTdataList x ++ [entryOf true fid (.enq rid y 1 false false)]) else m.tmap.getTdataList x :=
        data_rcvrRecord_op (r := .enq rid y 1 false false) hy ht (.inl ⟨_, _, _, _, _, rfl⟩) hm x
      by_cases hx : x = y
      · subst hx
        rw [hs] at htold
        have hnil : m.tmap.getTdataList x = [] := htold.resolve_right id
        rw [hdata, if_pos rfl, hnil]
        refine .inl (TplState.Told.mark ?_ _)
        simp only [TplState.next, if_true, List.nil_append]
        exact ⟨_, rfl, rfl, rfl⟩
      · rw [hdata, if_neg hx, TplState.next_of_ne _ (Ne.symm hx)]
        exact htold
    | dequeue rid erid y commit fid tpc hs =>
      have hy := (hl.prepare_mem (x := y) (by rw [hs]; rfl)).1
      have hdata : m'.tmap.getTdataList x = if x = y then TxnMap.markAioCompl rid
          (m.tmap.getTdataList x ++ [entryOf true fid (.deq rid erid y commit)]) else m.tmap.getTdataList x :=
        data_rcvrRecord_op (r := .deq rid erid y commit) hy ht (.inr ⟨_, _, _, _, rfl⟩) hm x
      by_cases hx : x = y
      · subst hx
        have hnext : (tplState x (lost ++ kept)).next x ⟨⟨.deq rid erid x commit, fid⟩, []⟩ =
            .dequeued erid tpc commit := by simp [TplState.next, hs]
        rw [hs] at htold
        rw [hdata, if_pos rfl, hnext]
        rcases htold with ⟨td, hone, he, hr⟩ | ⟨hr, hnil⟩
        · rw [hone]
          refine .inl (TplState.Told.mark ?_ _)
          exact ⟨td, _, rfl, he, hr, rfl, rfl, fun _ => rfl⟩
        · rw [hnil]
          exact .inr ⟨hr, .inr (markAioCompl_nil_or ⟨_, rfl, rfl⟩ _)⟩
      · rw [hdata, if_neg hx, TplState.next_of_ne _ (Ne.symm hx)]
        exact htold
    | commit rid y fid erid tpc c hs =>
      have hdata := data_closeWith (fun _ td => keeps_tmap_rcvrCommitEntry td) y hm x
      by_cases hx : x = y
      · subst hx
        rw [hdata, if_pos rfl]
        simp only [TplState.next, if_true]
        exact .inl rfl
      · rw [hdata, if_neg hx, TplState.next_of_ne _ (Ne.symm hx)]
        exact htold
    | abort rid y fid erid tpc c hs =>
      have hdata := data_closeWith (fun _ td => keeps_tmap_rcvrAbortEntry td) y hm x
      by_cases hx : x = y
      · subst hx
        rw [hdata, if_pos rfl]
        simp only [TplState.next, if_true]
        exact .inl rfl
      · rw [hdata, if_neg hx, TplState.next_of_ne _ (Ne.symm hx)]
        exact htold
  · rw [view_rcvrRecord _ _ ht hm]
    exact enq_apply h.enq hw (fun _ _ _ _ => h.paired) r

/-- At the end the open transactions have their prepares. -/
theorem tplMaps (h : TplFound lost kept m) (hlost : Lost lost kept) : TplMaps true m (lost ++ kept) := by
  refine ⟨fun x => (h.told x).resolve_right fun hh => ?_, h.enq⟩
  unfold Headless at hh
  cases hs : tplState x (lost ++ kept) with
  | absent =>
    rw [hs] at hh
    exact hh
  | enqueued rid tpc =>
    rw [hs] at hh
    exact hlost x rid (by rw [hs]; rfl) hh.1
  | dequeued rid tpc c =>
    rw [hs] at hh
    exact hlost x rid (by rw [hs]; rfl) hh.1

end TplFound

/-- Recovery from what is left of a TPL does not throw. -/
theorem TplFound.replay_isOk (n : Nat) (h : TplHist (lost ++ kept)) :
    ∃ m, replay (placeds kept) (Maps.init n) = .ok () m ∧ TplFound lost kept m := by
  induction kept using List.reverseRecOn with
  | nil =>
    rw [List.append_nil] at h
    exact ⟨Maps.init n, rfl, .init h n⟩
  | append_singleton kept w ih =>
    have hpre : lost ++ kept <+: lost ++ (kept ++ [w]) := by
      rw [← List.append_assoc]
      exact List.prefix_append _ _
    have hold := h.of_front hpre
    obtain ⟨m, hm, hf⟩ := ih hold
    have hnodup : (rids (placeds (kept ++ [w]))).Nodup := by
      rw [rids_placeds]
      refine h.nodup.sublist (List.Sublist.map _ ?_)
      exact List.sublist_append_right _ _
    obtain ⟨m', hm', -⟩ := Maps.replay_isOk n hnodup (by
      intro p hp
      obtain ⟨v, hv, rfl⟩ := List.mem_map.mp hp
      exact h.persistent v (List.mem_append_right _ hv))
    refine ⟨m', hm', ?_⟩
    rw [placeds, List.map_append, Maps.replay_append] at hm'
    obtain ⟨_, m₁, h₁, h₂⟩ := ok_bind.mp hm'
    rw [← placeds, hm] at h₁
    cases h₁
    obtain ⟨_, m₂, h₂, h₃⟩ := ok_bind.mp h₂
    cases h₃
    have hadd : TplAdds (lost ++ kept) w := by
      rw [← List.append_assoc] at h
      generalize hl : lost ++ kept ++ [w] = l at h
      cases h with
      | nil => simp at hl
      | concat _ _ hw =>
        obtain ⟨hl', hw'⟩ := List.append_inj' hl rfl
        rw [hl', List.singleton_inj.mp hw']
        exact hw
    exact hf.rcvrRecord hold hadd (h.persistent w (by simp)) h₂

theorem delivered_append {flags : Bool} (h : TplMaps flags m (lost ++ kept)) (hlost : Lost lost kept) :
    delivered m (lost ++ kept) = delivered m kept := by
  have hnone : lost.filter (fun w => rmgrReads m w.placed.jrec) = [] := by
    rw [List.filter_eq_nil_iff]
    intro w hw hr
    cases hj : w.placed.jrec with
    | enq rid xid d t e =>
      have hpf : m.emap.map[rid]? = none := h.enq rid
      simp only [hj, rmgrReads, EnqMap.getPfid, hpf] at hr
      obtain ⟨x, hx⟩ := (h.isEnq_iff rid).mp hr
      exact hlost x rid hx (List.mem_map.mpr ⟨w, hw, by rw [hj]; rfl⟩)
    | deq rid drid xid c => simp [hj, rmgrReads] at hr
    | txa rid xid => simp [hj, rmgrReads] at hr
    | txc rid xid => simp [hj, rmgrReads] at hr
  rw [delivered, List.filter_append, hnone, List.nil_append]
  rfl

/-- The records that the TPL has had, and its maps: while the store runs, and after restarts that find
neither what was overwritten nor what was not on disk. -/
inductive TplRuns (n : Nat) : List DataRec → Maps → Prop
  | start : TplRuns n [] (Maps.init n)
  | write {log : List DataRec} {m m' : Maps} {w : DataRec} : TplRuns n log m →
      w.placed.jrec.rid ∉ dataRids log → TplAdds log w →
      Maps.perform w.placed.fid w.placed.jrec m = .ok () m' → TplRuns n (log ++ [w]) m'
  | restart {lost kept cut : List DataRec} {m m' : Maps} : TplRuns n (lost ++ kept ++ cut) m → Lost lost kept →
      replay (placeds kept) (Maps.init n) = .ok () m' → TplRuns n (lost ++ kept) m'

theorem TplRuns.spec (h : TplRuns n log m) : TplHist log ∧ TplMaps false m log := by
  induction h with
  | start => exact ⟨.nil, .init false n⟩
  | write _ hn hw hm ih => exact ⟨.concat ih.1 hn hw, ih.2.perform ih.1 hw hm⟩
  | restart _ hlost hm ih =>
    have hist := ih.1.of_front (List.prefix_append _ _)
    obtain ⟨m₁, hm₁, hf⟩ := TplFound.replay_isOk n hist
    rw [hm₁] at hm
    cases hm
    exact ⟨hist, (hf.tplMaps hlost).weaken⟩

/-- The TPL tells which transactions are open. After a restart its recovery does not throw, and
`readTplStore` makes one entry for each transaction that is prepared and not finished, with its
outcome if that was written. There and on the running store the asserts hold and the two-phase
transactions in doubt are collected. -/
theorem TplHist.tellsOpen (h : TplHist (lost ++ kept)) (hlost : Lost lost kept) (n : Nat) :
    (∃ m, replay (placeds kept) (Maps.init n) = .ok () m ∧
      ∀ rs, Delivers 0 (delivered m kept) rs → ∃ tm, readTplStore m.tmap rs = .ok tm ∧
        (∀ x, tm[x]? = (tplState x (lost ++ kept)).recovered) ∧
        ∀ x, x ∈ collectPreparedXids tm ↔ ∃ rid, tplState x (lost ++ kept) = .enqueued rid true) ∧
    ∀ m, TplRuns n (lost ++ kept) m →
      ∀ rs, Delivers 0 (delivered m kept) rs → ∃ tm, readTplStore m.tmap rs = .ok tm ∧
        ∀ x, x ∈ collectPreparedXids tm ↔ ∃ rid, tplState x (lost ++ kept) = .enqueued rid true := by
  constructor
  · obtain ⟨m, hm, hf⟩ := TplFound.replay_isOk n h
    have hmaps := hf.tplMaps hlost
    refine ⟨m, hm, fun rs hrs => ?_⟩
    rw [← delivered_append hmaps hlost] at hrs
    obtain ⟨tm, htm, hget⟩ := hmaps.readTplStore_eq h hrs
    refine ⟨tm, htm, fun x => ?_, collect_iff_of_seen hget⟩
    have hid : TplMaps.seen true = id := by
      funext t
      simp [TplMaps.seen]
    have hx := hget x
    rw [hid, Option.map_id] at hx
    exact hx
  · intro m hruns rs hrs
    have hmaps := hruns.spec.2
    rw [← delivered_append hmaps hlost] at hrs
    obtain ⟨tm, htm, hget⟩ := hmaps.readTplStore_eq h hrs
    exact ⟨tm, htm, collect_iff_of_seen hget⟩

/-- A local transaction that was finished, its xid prepared again as a two-phase one, and another
that is to be aborted. -/
def sampleTpl : List DataRec :=
  [⟨⟨.enq 1 [7] 1 false false, 0⟩, [0]⟩, ⟨⟨.enq 2 [8] 1 false false, 0⟩, [1]⟩,
    ⟨⟨.deq 3 1 [7] true, 0⟩, []⟩, ⟨⟨.deq 4 2 [8] false, 0⟩, []⟩, ⟨⟨.txc 5 [7], 1⟩, []⟩,
    ⟨⟨.enq 6 [7] 1 false false, 1⟩, [1]⟩]

theorem sampleTpl_hist : TplHist sampleTpl := by
  have h₁ := TplHist.nil.concat (by decide) (.prepare 1 [7] 0 false (by decide) rfl)
  have h₂ := h₁.concat (by decide) (.prepare 2 [8] 0 true (by decide) (by decide))
  have h₃ := h₂.concat (by decide) (.dequeue 3 1 [7] true 0 false (by decide))
  have h₄ := h₃.concat (by decide) (.dequeue 4 2 [8] false 0 true (by decide))
  have h₅ := h₄.concat (by decide) (.commit 5 [7] 1 1 false true (by decide))
  exact h₅.concat (by decide) (.prepare 6 [7] 1 true (by decide) (by decide))

theorem sampleTpl_tellsOpen : ∃ m, replay (placeds (sampleTpl.drop 1)) (Maps.init 2) = .ok () m ∧
    ∀ rs, Delivers 0 (delivered m (sampleTpl.drop 1)) rs → ∃ tm, readTplStore m.tmap rs = .ok tm ∧
      (∀ x, tm[x]? = (tplState x sampleTpl).recovered) ∧
      ∀ x, x ∈ collectPreparedXids tm ↔ ∃ rid, tplState x sampleTpl = .enqueued rid true := by
  have hlost : Lost (sampleTpl.take 1) (sampleTpl.drop 1) := by
    intro x rid hx hm
    obtain rfl : rid = 1 := List.mem_singleton.mp hm
    by_cases h7 : x = [7]
    · subst h7
      exact absurd hx (by decide)
    · by_cases h8 : x = [8]
      · subst h8
        exact absurd hx (by decide)
      · simp [sampleTpl, tplState, TplState.next, TplState.openRid, Ne.symm h7, Ne.symm h8] at hx
  have hist : TplHist (sampleTpl.take 1 ++ sampleTpl.drop 1) := sampleTpl_hist
  exact (TplHist.tellsOpen hist hlost 2).1

end RhmStore
