import WuBuOS.Kernel.Inflate.Checked

/-!
# A stream that has been cut off

Behind the end of the source the bit reader makes up zero bits, and nothing notices: the word for the end of a
block is all zeros in the fixed codes, and can be in others.  So a stream is decoded after its last bytes have been
cut off, if there were only zero bits in them (`empty_truncated`).

To the decoder a source is the same as with zero bytes behind it (`Same`), but for stored blocks, which have
to be there.  So what is decoded is what is there and zeros, and a stored block at its end is all there
(`consumed_or_zeros`).
-/

namespace WuBuOS
namespace Inflate
namespace Checked

variable {α β α' β' : Type} {b c : Reader} {r : Reader × List UInt8} {src out : List UInt8} {cap m n k guard : Nat}

/-! ## Two decoders in step -/

/-- Both return, and what they return is related; or both stop, for the same reason. -/
inductive Agree (R : α → β → Prop) : Except Stop α → Except Stop β → Prop where
  | ok {a : α} {b : β} (h : R a b) : Agree R (.ok a) (.ok b)
  | error (e : Stop) : Agree R (.error e) (.error e)

section

variable {R : α → β → Prop} {R' : α' → β' → Prop} {x : Except Stop α} {y : Except Stop β}
  {F : α → Except Stop α'} {G : β → Except Stop β'}

theorem Agree.bind (h : Agree R x y) (hF : ∀ a b, R a b → Agree R' (F a) (G b)) : Agree R' (x >>= F) (y >>= G) := by
  cases h with
  | ok h => exact hF _ _ h
  | error e => exact .error e

/-- What does not depend on the reader. -/
theorem Agree.bind_same {z : Except Stop α} {G : α → Except Stop β'} (hF : ∀ a, Agree R' (F a) (G a)) :
    Agree R' (z >>= F) (z >>= G) := by
  cases z with
  | error e => exact .error e
  | ok a => exact hF a

theorem Agree.ite {p : Prop} [Decidable p] {x' : Except Stop α} {y' : Except Stop β} (h : p → Agree R x y)
    (h' : ¬p → Agree R x' y') : Agree R (if p then x else x') (if p then y else y') := by
  split
  · exact h ‹_›
  · exact h' ‹_›

theorem Agree.ok_left {a : α} (h : Agree R x y) (hx : x = .ok a) : ∃ b, y = .ok b ∧ R a b := by
  cases h with
  | error e => cases hx
  | ok h =>
    cases hx
    exact ⟨_, rfl, h⟩

end

/-- The reader of the source, and the reader of it with zero bytes behind it. -/
structure Same (src : List UInt8) (m : Nat) (b c : Reader) : Prop where
  data : b.data = src
  padded : c.data = src ++ List.replicate m 0
  bitbuf : b.bitbuf = c.bitbuf
  bitcnt : b.bitcnt = c.bitcnt
  taken : b.taken = c.taken
  pos : b.pos = min c.pos src.length

/-- What they have read is the same. -/
def SameRead (src : List UInt8) (m : Nat) (r r' : α × Reader) : Prop := r.1 = r'.1 ∧ Same src m r.2 r'.2

def SameBlock (src : List UInt8) (m : Nat) (r r' : Reader × List UInt8) : Prop :=
  Same src m r.1 r'.1 ∧ r.2 = r'.2

theorem getD_padded (src : List UInt8) (m i : Nat) :
    (src ++ List.replicate m 0).getD i 0 = if i < src.length then src.getD i 0 else 0 := by
  split
  · rw [List.getD_append _ _ _ _ ‹_›]
  · rw [List.getD_append_right _ _ _ _ (Nat.le_of_not_lt ‹_›), List.getD_eq_getElem?_getD, List.getElem?_replicate]
    split
    · rfl
    · rfl

/-! ## Reading bits -/

theorem Same.fetch (h : Same src m b c) : Same src m ⟨brFetch b.toBr, b.taken⟩ ⟨brFetch c.toBr, c.taken⟩ := by
  obtain ⟨hdata, hpadded, hbuf, hcnt, htaken, hpos⟩ := h
  rw [brFetch, brFetch, hdata, hpadded, getD_padded, List.length_append, List.length_replicate]
  by_cases hb : src.length ≤ b.pos
  · rw [if_pos hb]
    split
    · exact ⟨rfl, rfl, hbuf, congrArg (· + 8) hcnt, htaken, hpos⟩
    · rw [if_neg (by omega)]
      refine ⟨rfl, rfl, ?_, congrArg (· + 8) hcnt, htaken, ?_⟩
      · simpa using hbuf
      · dsimp only
        omega
  · have heq : b.pos = c.pos := by omega
    rw [if_neg hb, if_neg (by omega), if_pos (by omega), heq]
    refine ⟨rfl, rfl, ?_, congrArg (· + 8) hcnt, htaken, ?_⟩
    · rw [hbuf, hcnt]
    · dsimp only
      omega

theorem Same.fill (h : Same src m b c) : Same src m ⟨brFill n k b.toBr, b.taken⟩ ⟨brFill n k c.toBr, c.taken⟩ := by
  induction k generalizing b c with
  | zero => exact h
  | succ k ih =>
    rw [brFill, brFill, h.bitcnt]
    split
    · exact ih h.fetch
    · exact h

/-- **A field is read the same**, with as many zeros behind the end as are missing. -/
theorem Same.get (h : Same src m b c) (n : Nat) : (brGet b.toBr n).1 = (brGet c.toBr n).1 ∧
    Same src m ⟨(brGet b.toBr n).2, b.taken + n⟩ ⟨(brGet c.toBr n).2, c.taken + n⟩ := by
  have hfill := h.fill (n := n) (k := n)
  refine ⟨congrArg (· &&& (1 <<< n - 1)) hfill.bitbuf, hfill.data, hfill.padded, ?_, ?_, ?_, hfill.pos⟩
  · exact congrArg (· >>> n) hfill.bitbuf
  · exact congrArg (· - n) hfill.bitcnt
  · exact congrArg (· + n) h.taken

theorem get_agree (h : Same src m b c) (n : Nat) : Agree (SameRead src m) (get b n) (get c n) := by
  rw [get_eq, get_eq]
  exact .ok (h.get n)

theorem huffDecodeFrom_agree (t : Huff) (k len code first index : Nat) (h : Same src m b c) :
    Agree (SameRead src m) (huffDecodeFrom t k len code first index b) (huffDecodeFrom t k len code first index c) := by
  induction k generalizing len code first index b c with
  | zero => exact .error _
  | succ k ih =>
    rw [huffDecodeFrom, huffDecodeFrom]
    refine (get_agree h 1).bind ?_
    rintro ⟨bit, b'⟩ ⟨_, c'⟩ ⟨rfl, h'⟩
    exact .ite (fun _ => .ite (fun _ => .error _) fun _ => .ok ⟨rfl, h'⟩) fun _ => ih _ _ _ _ h'

theorem huffDecode_agree (t : Huff) (h : Same src m b c) : Agree (SameRead src m) (huffDecode b t) (huffDecode c t) :=
  huffDecodeFrom_agree t 15 1 0 0 0 h

/-! ## Compressed blocks -/

theorem blockDecode_agree (lit dist : Huff) (fuel : Nat) (h : Same src m b c) :
    Agree (SameBlock src m) (blockDecode lit dist cap fuel b out) (blockDecode lit dist cap fuel c out) := by
  induction fuel generalizing b c out with
  | zero => exact .error _
  | succ fuel ih =>
    rw [blockDecode, blockDecode]
    refine (huffDecode_agree lit h).bind ?_
    rintro ⟨sym, b1⟩ ⟨_, c1⟩ ⟨rfl, h1⟩
    refine .ite (fun _ => .ok ⟨h1, rfl⟩) fun _ => .ite (fun _ => .bind_same fun _ => ih h1) fun _ => ?_
    refine .ite (fun _ => .error _) fun _ => (get_agree h1 _).bind ?_
    rintro ⟨e, b2⟩ ⟨_, c2⟩ ⟨rfl, h2⟩
    refine (huffDecode_agree dist h2).bind ?_
    rintro ⟨ds, b3⟩ ⟨_, c3⟩ ⟨rfl, h3⟩
    refine .ite (fun _ => .error _) fun _ => (get_agree h3 _).bind ?_
    rintro ⟨e, b4⟩ ⟨_, c4⟩ ⟨rfl, h4⟩
    exact .ite (fun _ => .error _) fun _ => .bind_same fun _ => ih h4

theorem readOrder_agree (os cl : List Nat) (h : Same src m b c) :
    Agree (SameRead src m) (readOrder os b cl) (readOrder os c cl) := by
  induction os generalizing b c cl with
  | nil => exact .ok ⟨rfl, h⟩
  | cons o os ih =>
    rw [readOrder, readOrder]
    refine (get_agree h 3).bind ?_
    rintro ⟨v, b'⟩ ⟨_, c'⟩ ⟨rfl, h'⟩
    exact .ite (fun _ => .error _) fun _ => ih _ h'

theorem readLengths_agree (clh : Huff) (fuel : Nat) (ls : List Nat) (h : Same src m b c) :
    Agree (SameRead src m) (readLengths clh n fuel b ls) (readLengths clh n fuel c ls) := by
  induction fuel generalizing b c ls with
  | zero =>
    rw [readLengths, readLengths]
    exact .ite (fun _ => .error _) fun _ => .ok ⟨rfl, h⟩
  | succ fuel ih =>
    rw [readLengths, readLengths]
    refine .ite (fun _ => (huffDecode_agree clh h).bind ?_) fun _ => .ok ⟨rfl, h⟩
    rintro ⟨s, b1⟩ ⟨_, c1⟩ ⟨rfl, h1⟩
    -- a round that repeats a length
    have hrep : ∀ (k : Nat) (f : Nat → Except Stop (List Nat)), Agree (SameRead src m)
        (get b1 k >>= fun r => f r.1 >>= fun ls => readLengths clh n fuel r.2 ls)
        (get c1 k >>= fun r => f r.1 >>= fun ls => readLengths clh n fuel r.2 ls) := by
      intro k f
      refine (get_agree h1 k).bind ?_
      rintro ⟨e, b2⟩ ⟨_, c2⟩ ⟨rfl, h2⟩
      exact .bind_same fun _ => ih _ h2
    refine .ite (fun _ => .bind_same fun _ => ih _ h1) fun _ => .ite (fun _ => .ite (fun _ => .error _) fun _ => ?_) fun _ =>
      .ite (fun _ => ?_) fun _ => .ite (fun _ => ?_) fun _ => .error _
    · exact hrep 2 fun e => repeatLength n (ls.getD (ls.length - 1) 0) (e + 3) ls
    · exact hrep 3 fun e => repeatLength n 0 (e + 3) ls
    · exact hrep 7 fun e => repeatLength n 0 (e + 11) ls

theorem blockDynamic_agree (h : Same src m b c) :
    Agree (SameBlock src m) (blockDynamic cap b out) (blockDynamic cap c out) := by
  rw [blockDynamic, blockDynamic]
  refine (get_agree h 5).bind ?_
  rintro ⟨e1, b1⟩ ⟨_, c1⟩ ⟨rfl, h1⟩
  refine (get_agree h1 5).bind ?_
  rintro ⟨e2, b2⟩ ⟨_, c2⟩ ⟨rfl, h2⟩
  refine (get_agree h2 4).bind ?_
  rintro ⟨e3, b3⟩ ⟨_, c3⟩ ⟨rfl, h3⟩
  refine .ite (fun _ => .error _) fun _ => (readOrder_agree _ _ h3).bind ?_
  rintro ⟨cl, b4⟩ ⟨_, c4⟩ ⟨rfl, h4⟩
  refine .bind_same fun clh => (readLengths_agree clh _ [] h4).bind ?_
  rintro ⟨lengths, b5⟩ ⟨_, c5⟩ ⟨rfl, h5⟩
  exact .bind_same fun lit => .bind_same fun dist => blockDecode_agree lit dist _ h5

/-- **A compressed block is read the same**, though its end is missing. -/
theorem blockOf_agree {btype : Nat} (hne : btype ≠ 0) (h : Same src m b c) :
    Agree (SameBlock src m) (blockOf cap btype b out) (blockOf cap btype c out) := by
  rw [blockOf, blockOf, if_neg hne, if_neg hne]
  refine .ite (fun _ => ?_) fun _ => .ite (fun _ => blockDynamic_agree h) fun _ => .error _
  rw [blockFixed, blockFixed]
  exact .bind_same fun lit => .bind_same fun dist => blockDecode_agree lit dist _ h

/-! ## Stored blocks -/

theorem storedCopy_ok {p : Nat} (hp : p ≤ b.data.length) (h : storedCopy cap k (b.moveTo p) out = .ok r) :
    r.1 = b.moveTo (p + k) ∧ p + k ≤ b.data.length := by
  induction k generalizing p out with
  | zero =>
    cases h
    exact ⟨rfl, hp⟩
  | succ k ih =>
    rw [storedCopy] at h
    split at h
    · cases h
    · rename_i hlt
      cases hput : sinkPut cap out ((b.moveTo p).data.getD (b.moveTo p).pos 0) with
      | error e =>
        rw [hput] at h
        cases h
      | ok out' =>
        rw [hput, bind_ok] at h
        have hnext := ih (p := p + 1) (Nat.lt_of_not_le hlt) h
        rwa [show p + 1 + k = p + (k + 1) by omega] at hnext

/-- A stored block is all there. -/
theorem blockStored_ok (h : blockStored cap b out = .ok r) : b.pos + 1 < b.data.length ∧
    (b.pos + 4) % 2 ^ 32 + storedLength b.toBr ≤ b.data.length ∧
      r.1 = b.align.moveTo ((b.pos + 4) % 2 ^ 32 + storedLength b.toBr) := by
  simp only [blockStored] at h
  split at h
  · cases h
  · rename_i hle
    split at h
    · cases h
    · rename_i hlt
      obtain ⟨hr, hend⟩ := storedCopy_ok (Nat.le_of_not_lt hle) h
      exact ⟨Nat.lt_of_not_le hlt, hend, hr⟩

theorem Same.align (h : Same src m b c) : Same src m b.align c.align := ⟨h.data, h.padded, rfl, rfl, h.taken, h.pos⟩

theorem Same.moveTo {p : Nat} (h : Same src m b c) (hp : p ≤ src.length) : Same src m (b.moveTo p) (c.moveTo p) :=
  ⟨h.data, h.padded, h.bitbuf, h.bitcnt, rfl, (Nat.min_eq_left hp).symm⟩

theorem storedCopy_agree {p : Nat} (h : Same src m b c) (hp : p + k ≤ src.length) :
    Agree (SameBlock src m) (storedCopy cap k (b.moveTo p) out) (storedCopy cap k (c.moveTo p) out) := by
  induction k generalizing p out with
  | zero => exact .ok ⟨h.moveTo hp, rfl⟩
  | succ k ih =>
    have hbyte : (c.moveTo p).data.getD (c.moveTo p).pos 0 = (b.moveTo p).data.getD (b.moveTo p).pos 0 := by
      change c.data.getD p 0 = b.data.getD p 0
      rw [h.padded, getD_padded, if_pos (by omega), h.data]
    rw [storedCopy, storedCopy, if_neg, if_neg, hbyte]
    · exact .bind_same fun _ => ih (p := p + 1) (by omega)
    · change ¬c.data.length ≤ p
      rw [h.padded, List.length_append]
      omega
    · change ¬b.data.length ≤ p
      rw [h.data]
      omega

/-- A stored block that is all in the source is read the same. -/
theorem blockStored_agree (h : Same src m b c) (hlen : b.pos + 1 < src.length)
    (hin : (b.pos + 4) % 2 ^ 32 + storedLength b.toBr ≤ src.length) :
    Agree (SameBlock src m) (blockStored cap b out) (blockStored cap c out) := by
  have hpos : c.pos = b.pos := by
    have := h.pos
    omega
  have hlength : storedLength c.toBr = storedLength b.toBr := by
    rw [storedLength, storedLength, h.padded, hpos, getD_padded, getD_padded, if_pos (by omega), if_pos hlen, h.data]
  have hb : blockStored cap b out =
      storedCopy cap (storedLength b.toBr) (b.align.moveTo ((b.pos + 4) % 2 ^ 32)) out := by
    refine (if_neg (?_ : ¬b.data.length < (b.pos + 4) % 2 ^ 32)).trans (if_neg (?_ : ¬b.data.length ≤ b.pos + 1))
    · rw [h.data]
      omega
    · rw [h.data]
      omega
  have hc : blockStored cap c out =
      storedCopy cap (storedLength c.toBr) (c.align.moveTo ((c.pos + 4) % 2 ^ 32)) out := by
    refine (if_neg (?_ : ¬c.data.length < (c.pos + 4) % 2 ^ 32)).trans (if_neg (?_ : ¬c.data.length ≤ c.pos + 1))
    · rw [h.padded, List.length_append, hpos]
      omega
    · rw [h.padded, List.length_append, hpos]
      omega
  rw [hb, hc, hlength, hpos]
  exact storedCopy_agree h.align hin

/-! ## The stream -/

/-- The bits before a block are read the same. -/
theorem Same.header (h : Same src m b c) : (blockHeader b).1 = (blockHeader c).1 ∧
    (blockHeader b).2.1 = (blockHeader c).2.1 ∧ Same src m (blockHeader b).2.2 (blockHeader c).2.2 :=
  ⟨(h.get 1).1, (h.get 1).2.get 2⟩

/-- **With zeros behind it, what is decoded is decoded still.**  A stored block at the end is all there. -/
theorem inflateLoop_padded {r : Inflated} (h : Same src m b c) (hr : inflateLoop cap guard b out = .ok r) :
    (r.taken ≤ 8 * src.length ∨ r.lastType ≠ 0) ∧
      ∃ r', inflateLoop cap guard c out = .ok r' ∧ r'.out = r.out ∧ r'.taken = r.taken := by
  induction guard generalizing b c out with
  | zero => cases hr
  | succ guard ih =>
    rw [inflateLoop_succ] at hr ⊢
    obtain ⟨hfinal, htype, h'⟩ := h.header
    rw [← hfinal, ← htype]
    generalize blockHeader b = hd at hr h' ⊢
    generalize (blockHeader c).2.2 = c' at h' ⊢
    cases hblock : blockOf cap hd.2.1 hd.2.2 out with
    | error e =>
      rw [hblock] at hr
      cases hr
    | ok q =>
      have hq : ∃ q', blockOf cap hd.2.1 c' out = .ok q' ∧ SameBlock src m q q' ∧
          (q.1.taken ≤ 8 * src.length ∨ hd.2.1 ≠ 0) := by
        by_cases hstored : hd.2.1 = 0
        · rw [blockOf, if_pos hstored] at hblock ⊢
          obtain ⟨hlen, hin, hend⟩ := blockStored_ok hblock
          rw [h'.data] at hlen hin
          obtain ⟨q', hq', hsame⟩ := (blockStored_agree h' hlen hin).ok_left hblock
          refine ⟨q', hq', hsame, Or.inl ?_⟩
          rw [hend]
          exact Nat.mul_le_mul_left 8 hin
        · obtain ⟨q', hq', hsame⟩ := (blockOf_agree hstored h').ok_left hblock
          exact ⟨q', hq', hsame, Or.inr hstored⟩
      obtain ⟨q', hq', hsame, hreal⟩ := hq
      rw [hblock, bind_ok, afterBlock] at hr
      rw [hq', bind_ok, afterBlock, ← hsame.2]
      split at hr
      · rename_i hlast
        cases hr
        exact ⟨hreal, _, if_pos hlast, rfl, hsame.1.taken.symm⟩
      · rename_i hmore
        rw [if_neg hmore]
        exact ih hsame.1 hr

theorem same_start (src : List UInt8) (m : Nat) : Same src m (.start src) (.start (src ++ List.replicate m 0)) :=
  ⟨rfl, rfl, rfl, rfl, rfl, (Nat.zero_min _).symm⟩

/-- **The bits that are taken are those of the source, or zeros behind it.**  All of them are of the source if a stored
block is the last; and with zero bytes behind the source, as many as one likes, the same bits are taken and
the same bytes come out. -/
theorem consumed_or_zeros (src : List UInt8) (cap : Nat) (r : Inflated) (hr : inflateRaw src cap = .ok r) :
    (r.taken ≤ 8 * src.length ∨ r.lastType ≠ 0) ∧
      ∀ m, ∃ r', inflateRaw (src ++ List.replicate m 0) cap = .ok r' ∧ r'.out = r.out ∧ r'.taken = r.taken :=
  ⟨(inflateLoop_padded (same_start src 0) hr).1, fun m => (inflateLoop_padded (same_start src m) hr).2⟩

set_option maxRecDepth 20000 in
/-- The first byte of an empty stream of two, and the whole of it. -/
theorem consumed_or_zeros_cut : (10 ≤ 8 * 1 ∨ 1 ≠ 0) ∧
    ∃ r, inflateRaw ([3] ++ List.replicate 1 0) 0 = .ok r ∧ r.out = [] ∧ r.taken = 10 := by
  obtain ⟨hreal, hpadded⟩ := consumed_or_zeros [3] 0 ⟨[], 1, 10, 1⟩ rfl
  exact ⟨hreal, hpadded 1⟩

set_option maxRecDepth 20000 in
/-- The first byte of an empty stream of two is taken for all of it. -/
theorem empty_truncated : (inflateRaw [3, 0] 0).map (fun r => (r.out, r.taken)) = .ok ([], 10) ∧
      (inflateRaw [3] 0).map (fun r => (r.out, r.taken)) = .ok ([], 10) ∧
      ¬∀ r, inflateRaw [3] 0 = .ok r → r.taken ≤ 8 * [(3 : UInt8)].length := by
  have hcut : (inflateRaw [3] 0).map (fun r => (r.out, r.taken)) = .ok ([], 10) := by decide
  refine ⟨by decide, hcut, fun hreal => ?_⟩
  cases hrun : inflateRaw [3] 0 with
  | error e =>
    rw [hrun] at hcut
    cases hcut
  | ok r =>
    rw [hrun] at hcut
    have htaken : r.taken = 10 := congrArg Prod.snd (Except.ok.inj hcut)
    have hle : r.taken ≤ 8 := hreal r hrun
    omega

end Checked
end Inflate
end WuBuOS
