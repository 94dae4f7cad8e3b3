import RhmStore.Jrnl.RcvRecords
import RhmStore.Tools.Reload

/-! # What the tools load they write as the store does -/

namespace RhmStore

/-- An enqueue record as `reset` leaves it: of the constructor's magic, version and byte order, with the
tail of its header. -/
structure EnqRec.Made (r : EnqRec) : Prop where
  stored : r.Stored
  magic : r.enqHdr.magic = rhmJdatEnqMagic
  version : r.enqHdr.version = rhmJdatVersion
  eflag : r.enqHdr.eflag = rhmLendianFlag
  tail : r.enqTail = .ofHdr r.enqHdr.toRecHdr

namespace StoredRec

def image : StoredRec → Bytes
  | enq r => r.image
  | deq r => r.image
  | txn r => r.image

/-- A record that the store has written. A `std::streamsize` holds its size. -/
def Made : StoredRec → Prop
  | enq r => r.Made
  | deq r => r.Sound ∧ deqRecSize r.xidsize < 2 ^ 63
  | txn r => r.Sound ∧ txnRecSize r.xidsize < 2 ^ 63

def clearOwi : StoredRec → StoredRec
  | enq r => enq { r with enqHdr.uflag := r.enqHdr.uflag &&& ~~~1 }
  | deq r => deq { r with deqHdr.uflag := r.deqHdr.uflag &&& ~~~1 }
  | txn r => txn { r with txnHdr.uflag := r.txnHdr.uflag &&& ~~~1 }

end StoredRec

/-! ## The store's bytes -/

theorem StoredRec.encode_image {s : StoredRec} (h : s.Made) {m : Nat} (hm : 0 < m) (hn : s.recSizeDblks ≤ m) :
    s.encode 0 m = .ok (s.image, sizeDblks32 s.image.length) := by
  cases s with
  | enq r =>
    have hle : r.recSizeDblks ≤ m := hn
    have hb : r.encodeBytes 0 m = .ok r.image := by
      unfold EnqRec.encodeBytes
      rw [if_neg (fun hf => hf rfl), if_neg (Nat.not_lt.mpr hle), EnqRec.encodeWhole_eq h.stored.xid h.stored.data]
    show r.encode 0 m = .ok (r.image, _)
    rw [EnqRec.encode, require_true hm, except_ok_bind, require_true (EnqRec.xidp_of_length h.stored.xid),
      except_ok_bind, hb, except_ok_bind]
    rfl
  | deq r =>
    have hle : r.recSizeDblks ≤ m := hn
    show r.encode 0 m = .ok (r.image, _)
    rw [DeqRec.encode_eq h.1 hm, XidParts.encodeBytes_whole hle]
    rfl
  | txn r =>
    have hle : r.recSizeDblks ≤ m := hn
    show r.encode 0 m = .ok (r.image, _)
    rw [TxnRec.encode_eq h.1 hm, XidParts.encodeBytes_whole hle]
    rfl

/-! ## What the tools load -/

namespace Jrnl

open Body (whole)

namespace Rec

def ofStored : StoredRec → Rec
  | .enq r => enq ⟨.ofStore r.enqHdr.toRecHdr, r.enqHdr.xidsize, r.enqHdr.dsize,
      whole r.xidBytes r.storedData r.enqTail.bytes true⟩
  | .deq r => deq ⟨.ofStore r.deqHdr.toRecHdr, r.deqHdr.deqRid, r.deqHdr.xidsize,
      if r.deqHdr.xidsize = 0 then { Body.init with xidComplete := true, tailComplete := true }
      else whole r.xidBytes [] r.deqTail.bytes false⟩
  | .txn r => txn ⟨.ofStore r.txnHdr.toRecHdr, r.txnHdr.xidsize,
      whole r.xidBytes [] r.txnTail.bytes false⟩

end Rec

/-- The bytes of a record from a dblk of a file on, and over the files that follow. -/
structure Placed (jrnlFileSize : Nat) (image : Bytes) (f : File) (files : List Bytes) : Prop where
  header : jrnlSblkSize * jrnlDblkSize ≤ jrnlFileSize
  dblks : jrnlDblkSize ∣ jrnlFileSize
  whole : f.Whole jrnlFileSize
  start : jrnlDblkSize ∣ f.tell
  notFull : f.tell < jrnlFileSize
  sizes : ∀ file ∈ files, file.length = jrnlFileSize
  stands : image <+: f.rest ++ Rec.following files

namespace Rec

theorem extern_ofStore (r : RhmStore.EnqRec) (b : Body) :
    (EnqRec.mk (.ofStore r.enqHdr.toRecHdr) r.enqHdr.xidsize r.enqHdr.dsize b).external = r.isExternal := by
  show decide (r.enqHdr.uflag &&& 0x20 > 0) = decide (r.enqHdr.uflag &&& 0x20 ≠ 0)
  rw [decide_eq_decide]
  exact UInt16.pos_iff_ne_zero

theorem loads_enq {r : RhmStore.EnqRec} (h : r.Made) (jrnlFileSize : Nat) (after : Bytes) :
    Loads jrnlFileSize r.xidBytes r.storedData r.enqTail.bytes after
      (fun b => enq ⟨.ofStore r.enqHdr.toRecHdr, r.enqHdr.xidsize, r.enqHdr.dsize, b⟩) (fun _ => True)
      (whole r.xidBytes r.storedData r.enqTail.bytes true) where
  load := by
    intro b f e hb _ hr
    have hx : r.enqHdr.xidsize.toNat = r.xidBytes.length := h.stored.xid.symm
    have hd : if (EnqRec.mk (.ofStore r.enqHdr.toRecHdr) r.enqHdr.xidsize r.enqHdr.dsize b).external then
        r.storedData = [] else r.enqHdr.dsize.toNat = r.storedData.length := by
      rw [extern_ofStore, RhmStore.EnqRec.storedData]
      cases he : r.isExternal with
      | true => rw [if_pos rfl, if_pos rfl]
      | false =>
        rw [if_neg Bool.false_ne_true, if_neg Bool.false_ne_true]
        exact (h.stored.data he).symm
    have ht : Body.TailOf (.ofStore r.enqHdr.toRecHdr) r.enqTail.bytes := by
      rw [h.tail]
      exact tailOf_ofHdr _
    obtain ⟨b₁, f₁, e₁, hok₁, hb₁, hr₁, hlen₁, hg₁⟩ := hb.loadXid hr
    obtain ⟨b₂, f₂, e₂, hok₂, hb₂, hr₂, hlen₂, hg₂⟩ := hb₁.loadData hr₁ hg₁ hd
    obtain ⟨b₃, f₃, e₃, hok₃, hb₃, hx₃, hd₃, hg₃⟩ := hb₂.loadTail hr₂
      (fun hc => ⟨hb₂.order hc, .inl hc⟩) hg₂ ht
    refine ⟨b₃, f₃, e₃, ?_, hb₃, trivial, ?_⟩
    · simp only [Rec.load, EnqRec.load, hx, hok₁, hok₂, hok₃, bind, Except.bind]
      rfl
    · rcases hg₃ with ⟨hdc, htc⟩ | hg₃
      · left
        simp only [complete, EnqRec.complete, hx₃, hd₃, hb₂.order hdc, hdc, htc, Bool.and_self]
      · right
        rw [hg₃.1]
        exact ⟨by omega, by omega⟩
  whole := by
    intro b e hb _ hc
    simp only [complete, EnqRec.complete, Bool.and_eq_true] at hc
    obtain ⟨⟨hx, hd⟩, ht⟩ := hc
    rw [hb.eq_whole hx (.inl hd) ht, hd]

theorem load_xid_tail {jrnlFileSize xidsize : Nat} {h : Hdr} {x t after : Bytes} {b : Body} {f : File} {e : Nat}
    (hx : xidsize = x.length) (ht : Body.TailOf h t) (hb : b.Loaded x [] t e) (hd : b.dataComplete = false)
    (hr : f.Reads jrnlFileSize (x ++ ([] ++ (t ++ after))) e) : ∃ b₁ f₁ b' f' e',
      b.loadXid jrnlFileSize xidsize f = .ok (b₁, f₁) ∧
      b₁.loadTail jrnlFileSize h b₁.xidComplete f₁ = .ok (b', f') ∧ b'.Loaded x [] t e' ∧
      b'.dataComplete = false ∧ ((b'.xidComplete && b'.tailComplete) = true ∨
        e' = e + f.rest.length ∧ e' < x.length + ([] : Bytes).length + t.length) := by
  obtain ⟨b₁, f₁, e₁, hok₁, hb₁, hr₁, hlen₁, hg₁⟩ := hb.loadXid hr
  have hd₁ : b₁.dataComplete = false := by
    have hkeep := Body.dataComplete_loadXid hok₁
    rw [hkeep, hd]
  obtain ⟨b₂, f₂, e₂, hok₂, hb₂, hx₂, hd₂, hg₂⟩ := hb₁.loadTail hr₁
    (fun hc => ⟨hc, .inr ⟨hd₁, rfl⟩⟩) hg₁ ht
  refine ⟨b₁, f₁, b₂, f₂, e₂, by rw [hx, hok₁], hok₂, hb₂, hd₂.trans hd₁, ?_⟩
  rcases hg₂ with ⟨hxc, htc⟩ | hg₂
  · left
    rw [hx₂, hxc, htc]
    rfl
  · right
    rw [hg₂.1]
    exact ⟨by omega, by omega⟩

theorem loads_txn {r : RhmStore.TxnRec} (h : r.Sound) (jrnlFileSize : Nat) (after : Bytes) :
    Loads jrnlFileSize r.xidBytes [] r.txnTail.bytes after
      (fun b => txn ⟨.ofStore r.txnHdr.toRecHdr, r.txnHdr.xidsize, b⟩) (·.dataComplete = false)
      (whole r.xidBytes [] r.txnTail.bytes false) where
  load := by
    intro b f e hb hd hr
    have ht : Body.TailOf (.ofStore r.txnHdr.toRecHdr) r.txnTail.bytes := by
      rw [h.tail]
      exact tailOf_ofHdr _
    obtain ⟨b₁, f₁, b', f', e', hok₁, hok₂, hb', hd', hg⟩ := load_xid_tail h.xid.symm ht hb hd hr
    refine ⟨b', f', e', ?_, hb', hd', hg⟩
    show (do
      let x ← b.loadXid jrnlFileSize r.xidsize f
      let y ← x.1.loadTail jrnlFileSize (.ofStore r.txnHdr.toRecHdr) x.1.xidComplete x.2
      pure (TxnRec.mk (.ofStore r.txnHdr.toRecHdr) r.txnHdr.xidsize y.1, y.2)) >>= _ = _
    simp only [hok₁, hok₂, bind, Except.bind]
    rfl
  whole := by
    intro b e hb hd hc
    simp only [complete, TxnRec.complete, Bool.and_eq_true] at hc
    rw [hb.eq_whole hc.1 (.inr ⟨hd, rfl⟩) hc.2, hd]

theorem loads_deq {r : RhmStore.DeqRec} (h : r.Sound) (hx : r.deqHdr.xidsize ≠ 0) (jrnlFileSize : Nat)
    (after : Bytes) : Loads jrnlFileSize r.xidBytes [] r.deqTail.bytes after
      (fun b => deq ⟨.ofStore r.deqHdr.toRecHdr, r.deqHdr.deqRid, r.deqHdr.xidsize, b⟩)
      (·.dataComplete = false) (whole r.xidBytes [] r.deqTail.bytes false) where
  load := by
    intro b f e hb hd hr
    have ht : Body.TailOf (.ofStore r.deqHdr.toRecHdr) r.deqTail.bytes := by
      rw [h.tail]
      exact tailOf_ofHdr _
    obtain ⟨b₁, f₁, b', f', e', hok₁, hok₂, hb', hd', hg⟩ := load_xid_tail h.xid.symm ht hb hd hr
    refine ⟨b', f', e', ?_, hb', hd', hg⟩
    simp only [load, DeqRec.load, if_neg hx]
    show (do
      let x ← b.loadXid jrnlFileSize r.xidsize f
      let y ← x.1.loadTail jrnlFileSize (.ofStore r.deqHdr.toRecHdr) x.1.xidComplete x.2
      pure (DeqRec.mk (.ofStore r.deqHdr.toRecHdr) r.deqHdr.deqRid r.deqHdr.xidsize y.1, y.2)) >>= _ = _
    simp only [hok₁, hok₂, bind, Except.bind]
    rfl
  whole := by
    intro b e hb hd hc
    simp only [complete, DeqRec.complete, Bool.and_eq_true] at hc
    rw [hb.eq_whole hc.1 (.inr ⟨hd, rfl⟩) hc.2, hd]

variable {jrnlFileSize : Nat} {f : File} {files : List Bytes}

theorem placed_split {hdr args c : Bytes}
    (h : Placed jrnlFileSize (hdr ++ (args ++ c)) f files) (hl : hdr.length + args.length ≤ jrnlDblkSize) :
    ∃ r after, f.rest = hdr ++ (args ++ r) ∧ r ++ following files = c ++ after := by
  have hrest : jrnlDblkSize ≤ f.rest.length := by
    have hpos : 0 < jrnlFileSize - f.tell := Nat.sub_pos_of_lt h.notFull
    rw [h.whole.rest_length]
    exact Nat.le_of_dvd hpos (Nat.dvd_sub h.dblks h.start)
  obtain ⟨after, hafter⟩ := h.stands
  have hstart : hdr ++ args <+: f.rest ++ following files := by
    rw [← hafter]
    exact ⟨c ++ after, by simp only [List.append_assoc]⟩
  have hpre : hdr ++ args <+: f.rest := by
    apply List.prefix_of_prefix_length_le hstart (List.prefix_append _ _)
    rw [List.length_append]
    omega
  obtain ⟨r, hr⟩ := hpre
  refine ⟨r, after, by rw [← hr, List.append_assoc], ?_⟩
  rw [← hr] at hafter
  simp only [List.append_assoc, List.append_cancel_left_eq] at hafter
  exact hafter.symm

theorem check_of_letter {h : Hdr} {c : UInt8} (hm : h.magic = Hdr.rhm ++ [c])
    (hc : c ∈ ([0x61, 0x63, 0x64, 0x65] : Bytes)) (hv : h.ver = 1) (he : h.endn = 0) :
    h.check = .ok false ∧ h.letter = c := by
  have hl : h.letter = c := by
    rw [Hdr.letter, hm]
    rfl
  have htake : h.magic.take 3 = Hdr.rhm := by
    rw [hm]
    rfl
  have hmem : c ∈ Hdr.letters ∧ c ≠ 0x78 := by
    simp only [List.mem_cons, List.not_mem_nil, or_false] at hc
    rcases hc with rfl | rfl | rfl | rfl <;> decide
  refine ⟨?_, hl⟩
  rw [Hdr.check, hl, htake, if_neg (fun hf => hf.elim (fun hn => hn rfl) (fun hn => hn hmem.1)),
    if_pos hmem.2, if_neg (fun hf => hf hv), if_neg (fun hf => hf he)]

theorem leNat_take_args (a b : UInt64) :
    UInt64.ofNat (leNat ((leBytes 8 a.toNat ++ leBytes 8 b.toNat).take 8)) = a ∧
      UInt64.ofNat (leNat ((leBytes 8 a.toNat ++ leBytes 8 b.toNat).drop 8)) = b := by
  rw [List.take_left' (length_leBytes 8 _), List.drop_left' (length_leBytes 8 _)]
  exact ⟨ofNat_leNat a, ofNat_leNat b⟩

/-- The records that the store has written are loaded. -/
theorem next_ofStored {s : StoredRec} (h : s.Made) (hp : Placed jrnlFileSize s.image f files) :
    next jrnlFileSize f files = .ok (some (ofStored s)) := by
  cases s with
  | enq r =>
    have hm : r.Made := h
    have himg : (StoredRec.enq r).image = r.enqHdr.toRecHdr.bytes ++
        ((leBytes 8 r.enqHdr.xidsize.toNat ++ leBytes 8 r.enqHdr.dsize.toNat) ++
          (r.xidBytes ++ (r.storedData ++ r.enqTail.bytes))) := by
      simp only [StoredRec.image, RhmStore.EnqRec.image, EnqHdr.bytes, List.append_assoc]
    have hmagic : (Hdr.ofStore r.enqHdr.toRecHdr).magic = Hdr.rhm ++ [0x65] := by
      show leBytes 4 r.enqHdr.magic.toNat = _
      rw [hm.magic]
      decide
    obtain ⟨hcheck, hletter⟩ := check_of_letter hmagic (by decide) hm.version hm.eflag
    rw [himg] at hp
    obtain ⟨c, after, hc, hs⟩ := placed_split hp (by
      rw [length_recHdr_bytes, List.length_append, length_leBytes, length_leBytes]
      decide)
    apply (loads_enq hm jrnlFileSize after).next hp.header hp.sizes trivial (length_recHdr_bytes _) hcheck
      (fun _ => rfl) _ hp.whole hc
    · rw [hs]
      simp only [List.append_assoc]
    · intro g hw hg
      obtain ⟨f', hok, hw', hr'⟩ := loadArgs_eq hw hg
      refine ⟨f', ?_, hw', hr'⟩
      rw [List.length_append, length_leBytes, length_leBytes] at hok
      rw [unpack_recHdr, loadClass, if_pos hletter, hok, except_ok_bind, (leNat_take_args _ _).1,
        (leNat_take_args _ _).2]
      rfl
  | deq r =>
    obtain ⟨hm, -⟩ : r.Sound ∧ _ := h
    have hmagic : (Hdr.ofStore r.deqHdr.toRecHdr).magic = Hdr.rhm ++ [0x64] := by
      show leBytes 4 r.deqHdr.magic.toNat = _
      rw [hm.magic]
      decide
    obtain ⟨hcheck, hletter⟩ := check_of_letter hmagic (by decide) hm.version hm.eflag
    have hclass : ∀ {g : File} {c : Bytes}, g.Whole jrnlFileSize →
        g.rest = (leBytes 8 r.deqHdr.deqRid.toNat ++ leBytes 8 r.deqHdr.xidsize.toNat) ++ c → ∃ f',
          loadClass (.unpack r.deqHdr.toRecHdr.bytes) g =
            .ok (deq ⟨.ofStore r.deqHdr.toRecHdr, r.deqHdr.deqRid, r.deqHdr.xidsize, .init⟩, f') ∧
          f'.Whole jrnlFileSize ∧ f'.rest = c := by
      intro g c hw hg
      obtain ⟨f', hok, hw', hr'⟩ := loadArgs_eq hw hg
      refine ⟨f', ?_, hw', hr'⟩
      have hne : ¬(Hdr.ofStore r.deqHdr.toRecHdr).letter = 0x65 := by
        rw [hletter]
        decide
      rw [List.length_append, length_leBytes, length_leBytes] at hok
      rw [unpack_recHdr, loadClass, if_neg hne, if_pos hletter, hok, except_ok_bind, (leNat_take_args _ _).1,
        (leNat_take_args _ _).2]
      rfl
    by_cases hx : r.deqHdr.xidsize = 0
    · -- the header alone is complete at once
      have hx' : r.xidsize = 0 := congrArg UInt64.toNat hx
      have himg : (StoredRec.deq r).image = r.deqHdr.toRecHdr.bytes ++
          ((leBytes 8 r.deqHdr.deqRid.toNat ++ leBytes 8 r.deqHdr.xidsize.toNat) ++ []) := by
        simp only [StoredRec.image, RhmStore.DeqRec.image, if_pos hx', DeqHdr.bytes, List.append_assoc,
          List.append_nil]
      rw [himg] at hp
      obtain ⟨c, after, hc, hs⟩ := placed_split hp (by
        rw [length_recHdr_bytes, List.length_append, length_leBytes, length_leBytes]
        decide)
      obtain ⟨f₁, hok₁, hw₁, hrest₁⟩ := loadArgs_eq hp.whole hc
      obtain ⟨f₂, hok₂, hw₂, hrest₂⟩ := hclass hw₁ hrest₁
      rw [length_recHdr_bytes] at hok₁
      have hargs : loadArgs f Hdr.size = .ok (r.deqHdr.toRecHdr.bytes, f₁) := hok₁
      have hload : (deq ⟨.ofStore r.deqHdr.toRecHdr, r.deqHdr.deqRid, r.deqHdr.xidsize, .init⟩).load
          jrnlFileSize f₂ = .ok (ofStored (.deq r), f₂) := by
        rw [ofStored, if_pos hx, load, DeqRec.load, if_pos hx]
        rfl
      have hstart : start jrnlFileSize f = .ok (ofStored (.deq r), Hdr.skip f₂) := by
        rw [start, hargs, except_ok_bind, hok₂, except_ok_bind, hload]
        rfl
      have hdone : (ofStored (.deq r)).complete = true := by
        rw [ofStored, if_pos hx]
        rfl
      rw [next, hstart]
      show (Hdr.ofStore r.deqHdr.toRecHdr).check >>= _ = _
      rw [hcheck, except_ok_bind, if_neg Bool.false_ne_true, loadRec.eq_def]
      exact if_pos hdone
    · have hx' : r.xidsize ≠ 0 := fun h0 => hx (UInt64.toNat_inj.mp h0)
      have himg : (StoredRec.deq r).image = r.deqHdr.toRecHdr.bytes ++
          ((leBytes 8 r.deqHdr.deqRid.toNat ++ leBytes 8 r.deqHdr.xidsize.toNat) ++
            (r.xidBytes ++ ([] ++ r.deqTail.bytes))) := by
        simp only [StoredRec.image, RhmStore.DeqRec.image, if_neg hx', XidParts.image, RhmStore.DeqRec.parts,
          DeqHdr.bytes, List.append_assoc, List.nil_append]
      rw [himg] at hp
      obtain ⟨c, after, hc, hs⟩ := placed_split hp (by
        rw [length_recHdr_bytes, List.length_append, length_leBytes, length_leBytes]
        decide)
      rw [ofStored, if_neg hx]
      apply (loads_deq hm hx jrnlFileSize after).next hp.header hp.sizes rfl (length_recHdr_bytes _) hcheck
        (fun _ => rfl) hclass hp.whole hc
      rw [hs]
      simp only [List.append_assoc]
  | txn r =>
    obtain ⟨hm, -⟩ : r.Sound ∧ _ := h
    have hmagic : ∃ l : UInt8, (l = 0x61 ∨ l = 0x63) ∧
        (Hdr.ofStore r.txnHdr.toRecHdr).magic = Hdr.rhm ++ [l] := by
      rcases hm.magic with ha | hc
      · refine ⟨0x61, .inl rfl, ?_⟩
        show leBytes 4 r.txnHdr.magic.toNat = _
        rw [ha]
        decide
      · refine ⟨0x63, .inr rfl, ?_⟩
        show leBytes 4 r.txnHdr.magic.toNat = _
        rw [hc]
        decide
    obtain ⟨l, hl, hmagic⟩ := hmagic
    obtain ⟨hcheck, hletter⟩ := check_of_letter hmagic (by rcases hl with rfl | rfl <;> decide) hm.version
      hm.eflag
    have himg : (StoredRec.txn r).image = r.txnHdr.toRecHdr.bytes ++ (leBytes 8 r.txnHdr.xidsize.toNat ++
        (r.xidBytes ++ ([] ++ r.txnTail.bytes))) := by
      simp only [StoredRec.image, RhmStore.TxnRec.image, XidParts.image, RhmStore.TxnRec.parts,
        TxnHdr.bytes, List.append_assoc, List.nil_append]
    rw [himg] at hp
    obtain ⟨c, after, hc, hs⟩ := placed_split hp (by
      rw [length_recHdr_bytes, length_leBytes]
      decide)
    apply (loads_txn hm jrnlFileSize after).next hp.header hp.sizes rfl (length_recHdr_bytes _) hcheck
      (fun _ => rfl) _ hp.whole hc
    · rw [hs]
      simp only [List.append_assoc]
    · intro g hw hg
      obtain ⟨f', hok, hw', hr'⟩ := loadArgs_eq hw hg
      refine ⟨f', ?_, hw', hr'⟩
      rw [length_leBytes] at hok
      have hne : ¬(Hdr.ofStore r.txnHdr.toRecHdr).letter = 0x65 ∧
          ¬(Hdr.ofStore r.txnHdr.toRecHdr).letter = 0x64 := by
        rw [hletter]
        rcases hl with rfl | rfl <;> decide
      rw [unpack_recHdr, loadClass, if_neg hne.1, if_neg hne.2, hletter, if_pos hl, hok, except_ok_bind,
        ofNat_leNat]
      rfl

/-! ## What they write -/

theorem packS_some (s : Bytes) : packS s.length (some s) = .ok s := by
  rw [packS, Option.elim_some, Nat.sub_self, List.replicate_zero, List.append_nil, List.take_length]

theorem packS_xid {x : Bytes} {n : UInt64} (h : x.length = n.toNat) (h0 : n > 0) :
    packS n.toNat (if x = [] then none else some x) = .ok x := by
  have hne : x ≠ [] := by
    intro hnil
    rw [hnil, List.length_nil] at h
    exact absurd (UInt64.lt_iff_toNat_lt.mp h0) (by rw [← h]; exact Nat.lt_irrefl 0)
  rw [if_neg hne, ← h, packS_some]

theorem encodeTail_whole (x d : Bytes) (t : RhmStore.RecTail) (c : Bool) :
    (whole x d t.bytes c).encodeTail = .ok t.bytes := by
  show Except.ok (RecTail.unpack t.bytes).encode = _
  rw [unpack_recTail, RecTail.encode_ofStore]

theorem encode_deq {r : RhmStore.DeqRec} (h : r.Sound) :
    (ofStored (.deq r)).encode = .ok (StoredRec.deq r).image := by
  have hbuf : (Hdr.ofStore r.deqHdr.toRecHdr).encode ++
      (leBytes 8 r.deqHdr.deqRid.toNat ++ leBytes 8 r.deqHdr.xidsize.toNat) = r.deqHdr.bytes := by
    rw [Hdr.encode_ofStore, DeqHdr.bytes, List.append_assoc]
  by_cases hx : r.deqHdr.xidsize = 0
  · have hx' : r.xidsize = 0 := congrArg UInt64.toNat hx
    have hpos : ¬r.deqHdr.xidsize > 0 := by simp [hx]
    rw [ofStored, encode, DeqRec.encode, hbuf, if_neg hpos, StoredRec.image, RhmStore.DeqRec.image, if_pos hx']
    rfl
  · have hx' : r.xidsize ≠ 0 := fun h0 => hx (UInt64.toNat_inj.mp h0)
    have hpos : r.deqHdr.xidsize > 0 := UInt64.pos_iff_ne_zero.mpr hx
    rw [ofStored, if_neg hx, encode, DeqRec.encode, hbuf, if_pos hpos, encodeTail_whole, whole,
      packS_xid h.xid hpos, except_ok_bind, except_ok_bind, StoredRec.image, RhmStore.DeqRec.image, if_neg hx',
      XidParts.image, List.append_assoc]
    rfl

theorem encode_txn {r : RhmStore.TxnRec} (h : r.Sound) :
    (ofStored (.txn r)).encode = .ok (StoredRec.txn r).image := by
  have hbuf : (Hdr.ofStore r.txnHdr.toRecHdr).encode ++ leBytes 8 r.txnHdr.xidsize.toNat = r.txnHdr.bytes := rfl
  have hpos : r.txnHdr.xidsize > 0 := UInt64.lt_iff_toNat_lt.mpr h.nonempty
  rw [ofStored, encode, TxnRec.encode, hbuf, encodeTail_whole, whole, packS_xid h.xid hpos, except_ok_bind,
    except_ok_bind, StoredRec.image, RhmStore.TxnRec.image, XidParts.image, List.append_assoc]
  rfl

/-- An enqueue record is written as the store writes it, unless it is empty, or has external data. -/
theorem encode_enq_iff {r : RhmStore.EnqRec} (h : r.Made) :
    (ofStored (.enq r)).encode = .ok (StoredRec.enq r).image ↔
      ¬(r.xidsize = 0 ∧ r.dsize = 0) ∧ ¬(r.isExternal = true ∧ 0 < r.dsize) := by
  have hbuf : (Hdr.ofStore r.enqHdr.toRecHdr).encode ++
      (leBytes 8 r.enqHdr.xidsize.toNat ++ leBytes 8 r.enqHdr.dsize.toNat) = r.enqHdr.bytes := by
    rw [Hdr.encode_ofStore, EnqHdr.bytes, List.append_assoc]
  have himg : (StoredRec.enq r).image =
      r.enqHdr.bytes ++ (r.xidBytes ++ (r.storedData ++ r.enqTail.bytes)) := rfl
  have hxpos : r.enqHdr.xidsize > 0 ↔ 0 < r.xidsize := UInt64.lt_iff_toNat_lt
  have hdpos : r.enqHdr.dsize > 0 ↔ 0 < r.dsize := UInt64.lt_iff_toNat_lt
  have hx : addIf (r.enqHdr.xidsize > 0)
      (packS r.enqHdr.xidsize.toNat (if r.xidBytes = [] then none else some r.xidBytes)) = .ok r.xidBytes := by
    by_cases h0 : r.enqHdr.xidsize > 0
    · rw [addIf, if_pos h0, packS_xid h.stored.xid h0]
    · have hnil : r.xidBytes = [] := by
        rw [hxpos, Nat.not_lt, Nat.le_zero, ← h.stored.xid] at h0
        exact List.eq_nil_of_length_eq_zero h0
      rw [addIf, if_neg h0, hnil]
  have henc : (ofStored (.enq r)).encode = (addIf (r.enqHdr.dsize > 0)
      (packS r.enqHdr.dsize.toNat (if r.storedData = [] then none else some r.storedData)) >>= fun d =>
        addIf (r.enqHdr.xidsize > 0 ∨ r.enqHdr.dsize > 0) (.ok r.enqTail.bytes) >>= fun t =>
          .ok (r.enqHdr.bytes ++ r.xidBytes ++ d ++ t)) := by
    rw [ofStored, encode, EnqRec.encode, hbuf, encodeTail_whole, whole, hx, except_ok_bind]
    rfl
  rw [henc]
  by_cases hext : r.isExternal = true ∧ 0 < r.dsize
  · -- there is no data to pack
    have hnil : r.storedData = [] := if_pos hext.1
    rw [addIf, if_pos (hdpos.mpr hext.2), hnil, if_pos rfl]
    constructor
    · intro hf
      cases hf
    · intro hf
      exact absurd hext hf.2
  · have hd : addIf (r.enqHdr.dsize > 0)
        (packS r.enqHdr.dsize.toNat (if r.storedData = [] then none else some r.storedData)) =
          .ok r.storedData := by
      by_cases h0 : r.enqHdr.dsize > 0
      · have hin : r.isExternal = false := Bool.eq_false_iff.mpr fun he => hext ⟨he, hdpos.mp h0⟩
        have hlen : r.storedData.length = r.enqHdr.dsize.toNat := by
          rw [RhmStore.EnqRec.storedData, hin, if_neg Bool.false_ne_true]
          exact h.stored.data hin
        rw [addIf, if_pos h0, packS_xid hlen h0]
      · have hnil : r.storedData = [] := by
          unfold RhmStore.EnqRec.storedData
          cases he : r.isExternal with
          | true => exact if_pos rfl
          | false =>
            rw [if_neg Bool.false_ne_true]
            apply List.eq_nil_of_length_eq_zero
            rw [h.stored.data he]
            exact Nat.le_zero.mp (Nat.not_lt.mp (hdpos.not.mp h0))
        rw [addIf, if_neg h0, hnil]
    rw [hd, except_ok_bind, addIf]
    by_cases hempty : r.xidsize = 0 ∧ r.dsize = 0
    · -- the tail is left out
      have hno : ¬(r.enqHdr.xidsize > 0 ∨ r.enqHdr.dsize > 0) := by
        rw [hxpos, hdpos]
        omega
      rw [if_neg hno, himg]
      constructor
      · intro hf
        have hlen := congrArg List.length (Except.ok.inj hf)
        simp only [List.length_append, length_recTail_bytes, List.length_nil, recTailSize] at hlen
        omega
      · intro hf
        exact absurd hempty hf.1
    · have hyes : r.enqHdr.xidsize > 0 ∨ r.enqHdr.dsize > 0 := by
        rw [hxpos, hdpos]
        omega
      rw [if_pos hyes, except_ok_bind, himg]
      simp only [List.append_assoc, hempty, hext, not_false_eq_true, and_self]

end Rec

end Jrnl

end RhmStore
