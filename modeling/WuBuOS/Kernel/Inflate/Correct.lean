import Mathlib.Data.List.GetD
import WuBuOS.Kernel.Inflate.Reader
import WuBuOS.Kernel.Inflate.Rfc1951

/-!
# The inflater decodes what the format says

Each loop of the decoder follows a relation of the format: `copyBack` what a copy adds,
`blockDecode` the symbols of a block, `readLengths` its code lengths, `inflateLoop` the blocks.

The decoder is stricter than the format in two places.  `huff_build` refuses a code with more than one
word of fifteen bits unused.  A distance code of a single one-bit word leaves half of them unused and
one without words all, so the two incomplete codes the format names are among those refused.  And the
guard against corrupt streams stops one with more than a million blocks, corrupt or not.  Otherwise it
decodes (`inflateRaw_eq`).
-/

namespace WuBuOS.Inflate

open Bits Canonical

variable {blk : Block} {blks : List Block}

variable {b : Br} {src out out' : List UInt8} {bits r rest : List Bool} {cap n : Nat}

/-- A step that succeeds hands its result on. -/
theorem ok_bind {α β : Type} (a : α) (f : α → Except Int β) : (Except.ok a >>= f) = f a := rfl

theorem error_bind {α β : Type} (e : Int) (f : α → Except Int β) :
    ((Except.error e : Except Int α) >>= f) = .error e := rfl

/-! ## Output -/

theorem sinkPut_ok (h : out.length < cap) (c : UInt8) : sinkPut cap out c = .ok (out ++ [c]) :=
  if_neg (by omega)

@[simp]
theorem length_copied (out : List UInt8) (k d : Nat) : (copied out k d).length = out.length + k := by
  simp [copied]

/-- The next byte of a copy is the one `d` back from where it goes. -/
theorem copied_getD {k d : Nat} (hd : 0 < d) (hle : d ≤ out.length) :
    (copied out k d).getD ((copied out k d).length - d) 0 = out.getD (out.length - d + k % d) 0 := by
  rw [length_copied]
  rcases Nat.lt_or_ge k d with hk | hk
  · rw [copied, Nat.mod_eq_of_lt hk, List.getD_append _ _ _ _ (by omega)]
    congr 1
    omega
  · have hpos : out.length + k - d - out.length = k - d := by omega
    have hin : k - d < ((List.range k).map fun k =>
        out.getD (out.length - d + k % d) 0).length := by simp; omega
    rw [copied, List.getD_append_right _ _ _ _ (by omega), hpos, List.getD_eq_getElem _ _ hin,
      List.getElem_map, List.getElem_range, Nat.mod_eq_sub_mod hk]

theorem copied_succ (out : List UInt8) (k d : Nat) :
    copied out (k + 1) d = copied out k d ++ [out.getD (out.length - d + k % d) 0] := by
  simp [copied, List.range_succ]

/-- The copying loop, in the middle of a copy. -/
private theorem copyBack_from {k d : Nat} (hd : 0 < d) (hle : d ≤ out.length) (hcap : out.length + (k + n) ≤ cap) :
    copyBack cap d n (copied out k d) = .ok (copied out (k + n) d) := by
  induction n generalizing k with
  | zero => rfl
  | succ n ih =>
    have hput := sinkPut_ok (show (copied out k d).length < cap by rw [length_copied]; omega)
      ((copied out k d).getD ((copied out k d).length - d) 0)
    rw [copied_getD hd hle, ← copied_succ] at hput
    rw [copyBack, copied_getD hd hle, hput, ok_bind, ih (by omega), Nat.add_right_comm, Nat.add_assoc]

/-- **The copying loop repeats what it copied.** -/
theorem copyBack_spec {d : Nat} (hd : 0 < d) (hle : d ≤ out.length) (hcap : out.length + n ≤ cap) :
    copyBack cap d n out = .ok (copied out n d) := by
  have hrun := copyBack_from (k := 0) hd hle (show out.length + (0 + n) ≤ cap by omega)
  have hnone : copied out 0 d = out := by simp [copied]
  rwa [Nat.zero_add, hnone] at hrun

/-! ## The symbols of a block -/

/-- The tables of the source are the format's. -/
theorem lenTables : ∀ i < 29, lenExtra.getD i 0 = lengthExtra (257 + i) ∧ lenBase.getD i 0 = lengthBase (257 + i) := by
  decide

theorem distTables : ∀ d < 30, distExtra.getD d 0 = distanceExtra d ∧ distBase.getD d 0 = distanceBase d := by
  decide

theorem lengthBase_pos : ∀ i < 29, 0 < lengthBase (257 + i) := by decide

theorem distanceBase_pos : ∀ d < 30, 0 < distanceBase d := by decide

theorem Symbols.length_le {lit dist : List Nat} (h : Symbols lit dist out' rest out bits) :
    out.length ≤ out'.length := by
  induction h with
  | done => exact Nat.le_refl _
  | literal _ _ _ ih => simp at ih; omega
  | copy _ _ _ _ _ _ _ _ ih => simp at ih; omega

/-- **A block's symbols are decoded.**  Each round adds a byte or more, so that the fuel lasts. -/
theorem blockDecode_spec {lit dist : List Nat} {fuel : Nat} (hlit : Fits 15 lit)
    (hdist : Fits 15 dist) (hs : Symbols lit dist out' rest out bits) (hb : Reads b src bits)
    (hcap : out'.length ≤ cap) (hfuel : out'.length < out.length + fuel) :
    ∃ b', blockDecode (table lit) (table dist) cap fuel b out = .ok (b', out') ∧ Reads b' src rest := by
  induction hs generalizing b fuel with
  | done h =>
    obtain ⟨fuel, rfl⟩ := Nat.exists_eq_succ_of_ne_zero (show fuel ≠ 0 by omega)
    obtain ⟨b', hrun, hreads⟩ := huffDecode_spec hlit h hb
    refine ⟨b', ?_, hreads⟩
    rw [blockDecode, hrun, ok_bind]
    rfl
  | @literal out bits r s hs h ht ih =>
    have hle := ht.length_le
    rw [List.length_append, List.length_singleton] at hle
    obtain ⟨fuel, rfl⟩ := Nat.exists_eq_succ_of_ne_zero (show fuel ≠ 0 by omega)
    obtain ⟨b1, hrun, hreads⟩ := huffDecode_spec hlit h hb
    obtain ⟨b', hrest, hreads'⟩ := ih hreads
      (show out'.length < (out ++ [UInt8.ofNat s]).length + fuel by simp; omega)
    refine ⟨b', ?_, hreads'⟩
    rw [blockDecode, hrun, ok_bind]
    dsimp only
    rw [if_neg (by omega), if_pos hs, sinkPut_ok (by omega), ok_bind, hrest]
  | @copy out bits r r' s d e f hs h he hd h' hf hback ht ih =>
    have hle := ht.length_le
    rw [length_copied] at hle
    obtain ⟨fuel, rfl⟩ := Nat.exists_eq_succ_of_ne_zero (show fuel ≠ 0 by omega)
    obtain ⟨i, rfl⟩ := Nat.exists_eq_add_of_le hs.1
    obtain ⟨hle1, hle2⟩ := lenTables i (by omega)
    obtain ⟨hde1, hde2⟩ := distTables d hd
    have hlpos := lengthBase_pos i (by omega)
    have hdpos := distanceBase_pos d hd
    obtain ⟨b1, hrun1, hr1⟩ := huffDecode_spec hlit h hb
    obtain ⟨b2, hrun2, hr2⟩ := brGet_ok hr1 he
    obtain ⟨b3, hrun3, hr3⟩ := huffDecode_spec hdist h' hr2
    obtain ⟨b4, hrun4, hr4⟩ := brGet_ok hr3 hf
    have hcopy := copyBack_spec (show 0 < distanceBase d + f by omega) hback
      (show out.length + (lengthBase (257 + i) + e) ≤ cap by omega)
    obtain ⟨b', hrest, hreads'⟩ := ih hr4 (show out'.length <
      (copied out (lengthBase (257 + i) + e) (distanceBase d + f)).length + fuel by simp; omega)
    refine ⟨b', ?_, hreads'⟩
    rw [blockDecode, hrun1, ok_bind]
    dsimp only
    rw [if_neg (by omega), if_neg (by omega), if_neg (by omega), Nat.add_sub_cancel_left, hle1, hrun2]
    rw [hrun3, ok_bind]
    rw [if_neg (by omega), hde1, hrun4]
    rw [hde2, hle2, if_neg (by omega), hcopy, ok_bind, hrest]

/-! ## Code lengths -/

theorem repeatLength_eq {v k : Nat} {ls : List Nat} (h : ls.length + k ≤ n) :
    repeatLength n v k ls = ls ++ List.replicate k v := by
  induction k generalizing ls with
  | zero => simp [repeatLength]
  | succ k ih =>
    rw [repeatLength, if_pos (by omega), ih (by simp; omega), List.replicate_succ]
    simp

/-- **The code lengths are read.** -/
theorem readLengths_spec {cl all acc : List Nat} {fuel : Nat} (hcl : Fits 15 cl)
    (hl : Lengths cl n all rest acc bits) (hb : Reads b src bits) (hfuel : n ≤ acc.length + fuel) :
    ∃ b', readLengths (table cl) n fuel b acc = .ok (all, b') ∧ Reads b' src rest := by
  induction hl generalizing b fuel with
  | done h =>
    refine ⟨b, ?_, hb⟩
    cases fuel with
    | zero => rfl
    | succ fuel => rw [readLengths, if_neg (by omega)]
  | @length acc bits r s hn hs h ht ih =>
    obtain ⟨fuel, rfl⟩ := Nat.exists_eq_succ_of_ne_zero (show fuel ≠ 0 by omega)
    obtain ⟨b1, hrun, hreads⟩ := huffDecode_spec hcl h hb
    obtain ⟨b', hrest, hreads'⟩ := ih hreads (show n ≤ (acc ++ [s]).length + fuel by simp; omega)
    refine ⟨b', ?_, hreads'⟩
    rw [readLengths, if_pos hn, hrun, ok_bind]
    dsimp only
    rw [if_pos hs, hrest]
  | @previous acc bits r v e hn he h ht ih =>
    obtain ⟨fuel, rfl⟩ := Nat.exists_eq_succ_of_ne_zero
      (show fuel ≠ 0 by rw [List.length_append, List.length_singleton] at hfuel; omega)
    obtain ⟨b1, hrun1, hr1⟩ := huffDecode_spec hcl h hb
    obtain ⟨b2, hrun2, hr2⟩ := brGet_ok hr1 he
    obtain ⟨b', hrest, hreads'⟩ := ih hr2
      (show n ≤ (acc ++ [v] ++ List.replicate (e + 3) v).length + fuel by simp at hfuel ⊢; omega)
    have hlast : (acc ++ [v]).getD ((acc ++ [v]).length - 1) 0 = v := by simp
    refine ⟨b', ?_, hreads'⟩
    rw [readLengths, if_pos (by simp; omega), hrun1, ok_bind]
    dsimp only
    rw [if_neg (by omega), if_pos rfl, if_neg (by simp), hrun2]
    rw [hlast, repeatLength_eq (by simp; omega), hrest]
  | @zeros acc bits r e hn he h ht ih =>
    obtain ⟨fuel, rfl⟩ := Nat.exists_eq_succ_of_ne_zero (show fuel ≠ 0 by omega)
    obtain ⟨b1, hrun1, hr1⟩ := huffDecode_spec hcl h hb
    obtain ⟨b2, hrun2, hr2⟩ := brGet_ok hr1 he
    obtain ⟨b', hrest, hreads'⟩ := ih hr2
      (show n ≤ (acc ++ List.replicate (e + 3) 0).length + fuel by simp; omega)
    refine ⟨b', ?_, hreads'⟩
    rw [readLengths, if_pos (by omega), hrun1, ok_bind]
    dsimp only
    rw [if_neg (by omega), if_neg (by omega), if_pos rfl, hrun2]
    rw [repeatLength_eq (by omega), hrest]
  | @manyZeros acc bits r e hn he h ht ih =>
    obtain ⟨fuel, rfl⟩ := Nat.exists_eq_succ_of_ne_zero (show fuel ≠ 0 by omega)
    obtain ⟨b1, hrun1, hr1⟩ := huffDecode_spec hcl h hb
    obtain ⟨b2, hrun2, hr2⟩ := brGet_ok hr1 he
    obtain ⟨b', hrest, hreads'⟩ := ih hr2
      (show n ≤ (acc ++ List.replicate (e + 11) 0).length + fuel by simp; omega)
    refine ⟨b', ?_, hreads'⟩
    rw [readLengths, if_pos (by omega), hrun1, ok_bind]
    dsimp only
    rw [if_neg (by omega), if_neg (by omega), if_neg (by omega), if_pos rfl, hrun2]
    rw [repeatLength_eq (by omega), hrest]

/-- The lengths go to the places named, and the other places keep theirs. -/
theorem readOrder_spec {os cs cl : List Nat} (hcs : cs.length = os.length) (hnodup : os.Nodup)
    (hos : ∀ o ∈ os, o < cl.length) (hlt : ∀ c ∈ cs, c < 2 ^ 3)
    (hb : Reads b src (cs.flatMap (lsb 3) ++ r)) :
    ∃ b' cl', readOrder os b cl = (cl', b') ∧ Reads b' src r ∧ cl'.length = cl.length ∧
      ∀ s, cl'.getD s 0 = if s ∈ os then cs.getD (os.idxOf s) 0 else cl.getD s 0 := by
  induction os generalizing cs cl b with
  | nil =>
    rw [List.length_eq_zero_iff.1 hcs] at hb
    exact ⟨b, cl, rfl, hb, rfl, fun s => by simp⟩
  | cons o os ih =>
    obtain ⟨c, cs, rfl⟩ := List.exists_cons_of_length_eq_add_one hcs
    rw [List.flatMap_cons, List.append_assoc] at hb
    obtain ⟨hval, hreads⟩ := brGet_spec hb (hlt c List.mem_cons_self)
    obtain ⟨hnot, hnodup'⟩ := List.nodup_cons.1 hnodup
    have hos' : ∀ o' ∈ os, o' < (cl.set o c).length := fun o' ho' => by
      simpa using hos o' (List.mem_cons_of_mem o ho')
    obtain ⟨b', cl', hrun, hr, hlen, hget⟩ := ih (Nat.succ.inj hcs) hnodup' hos'
      (fun c' hc' => hlt c' (List.mem_cons_of_mem c hc')) hreads
    refine ⟨b', cl', by rw [readOrder, hval, hrun], hr, by rw [hlen, List.length_set], fun s => ?_⟩
    rw [hget]
    by_cases hs : s = o
    · have ho := hos o List.mem_cons_self
      rw [hs, if_neg hnot, if_pos List.mem_cons_self, List.idxOf_cons_self]
      simp [ho]
    · rw [List.idxOf_cons_ne _ fun h => hs h.symm]
      simp [hs, Ne.symm hs]

/-- **The code for the code lengths is read.** -/
theorem readOrder_lengthCode {cs : List Nat} {k : Nat} (hcs : cs.length = k) (hk : k ≤ 19)
    (hlt : ∀ c ∈ cs, c < 2 ^ 3) (hb : Reads b src (cs.flatMap (lsb 3) ++ r)) :
    ∃ b', readOrder (order.take k) b (List.replicate 19 0) = (lengthCode cs, b') ∧ Reads b' src r := by
  have horder : order.length = 19 := rfl
  have hnodup : order.Nodup := by decide
  have hsmall : ∀ o ∈ order, o < 19 := by decide
  obtain ⟨b', cl', hrun, hr, hlen, hget⟩ := readOrder_spec
    (show cs.length = (order.take k).length by rw [List.length_take]; omega)
    (hnodup.sublist (List.take_sublist k order))
    (show ∀ o ∈ order.take k, o < (List.replicate 19 0).length from fun o ho => by
      rw [List.length_replicate]
      exact hsmall o (List.mem_of_mem_take ho)) hlt hb
  refine ⟨b', ?_, hr⟩
  rw [hrun]
  congr 1
  rw [List.length_replicate] at hlen
  refine List.ext_getElem (by simp [lengthCode, hlen]) fun s hs hs' => ?_
  have hs1 : s < 19 := hlen ▸ hs
  have hget := hget s
  rw [List.getD_eq_getElem _ _ hs] at hget
  have hcode : (lengthCode cs)[s] = cs.getD ((order.take k ++ order.drop k).idxOf s) 0 := by
    rw [List.take_append_drop]
    simp only [lengthCode, List.getElem_map, List.getElem_range]
    rfl
  refine hget.trans (Eq.trans ?_ hcode.symm)
  split
  · rename_i hmem
    rw [List.idxOf_append_of_mem hmem]
  · rename_i hmem
    -- a length that the stream leaves off
    rw [List.idxOf_append_of_notMem hmem, List.getD_eq_default cs]
    · rw [List.getD_eq_getElem _ _ (by simpa using hs1), List.getElem_replicate]
    · rw [List.length_take]
      omega

/-! ## Blocks -/

/-- The three codes of a block are ones that `huff_build` takes. -/
def Block.Taken : Block → Prop
  | stored => True
  | fixed => True
  | dynamic cl lit dist => Accepted cl ∧ Accepted lit ∧ Accepted dist

instance (blk : Block) : Decidable blk.Taken :=
  match blk with
  | .stored => isTrue trivial
  | .fixed => isTrue trivial
  | .dynamic cl lit dist => inferInstanceAs (Decidable (Accepted cl ∧ Accepted lit ∧ Accepted dist))

theorem fixedLitlen_eq : fixedLitlen = fixedLengths := by decide +kernel

theorem fixedDist_eq : fixedDist = fixedDistances := by decide

theorem fits_fixedLengths : Fits 15 fixedLengths := by decide +kernel

theorem fits_fixedDistances : Fits 15 fixedDistances := by decide

theorem BlockAt.length_le (h : BlockAt blk out bits out' rest) : out.length ≤ out'.length := by
  cases h with
  | stored => simp
  | fixed h => exact h.length_le
  | dynamic _ _ _ _ _ _ _ _ _ _ ht => exact ht.length_le

theorem blockFixed_spec (h : BlockAt .fixed out bits out' rest) (hb : Reads b src bits) (hcap : out'.length ≤ cap) :
    ∃ b', blockFixed cap b out = .ok (b', out') ∧ Reads b' src rest := by
  cases h with
  | fixed hs =>
    obtain ⟨b', hrun, hreads⟩ := blockDecode_spec fits_fixedLengths fits_fixedDistances hs hb hcap
      (show out'.length < out.length + (cap + 1) by omega)
    refine ⟨b', ?_, hreads⟩
    rw [blockFixed, fixedLitlen_eq, fixedDist_eq, huffBuild_spec fits_fixedLengths,
      huffBuild_spec fits_fixedDistances, if_pos (by decide +kernel), if_pos (by decide +kernel),
      ok_bind, ok_bind, hrun]

/-- **A block that brings its codes is decoded, when `huff_build` takes them.** -/
theorem blockDynamic_spec {cl lit dist : List Nat}
    (h : BlockAt (.dynamic cl lit dist) out bits out' rest) (hb : Reads b src bits)
    (hcap : out'.length ≤ cap) :
    ∃ b', blockDynamic cap b out =
        (if Accepted cl ∧ Accepted lit ∧ Accepted dist then .ok (b', out') else .error (-1)) ∧
      Reads b' src rest := by
  cases h with
  | @dynamic _ _ _ r r' _ hlit hdist hclen cs all hl hd hc hcs hcs' h hcl hall hlit' hdist' ht =>
    rw [h] at hb
    obtain ⟨b1, hrun1, hr1⟩ := brGet_ok hb (show hlit < 2 ^ 5 by omega)
    obtain ⟨b2, hrun2, hr2⟩ := brGet_ok hr1 hd
    obtain ⟨b3, hrun3, hr3⟩ := brGet_ok hr2 hc
    obtain ⟨b4, hrun4, hr4⟩ := readOrder_lengthCode hcs (by omega) hcs' hr3
    obtain ⟨b5, hrun5, hr5⟩ := readLengths_spec hcl hall hr4
      (show hlit + 257 + (hdist + 1) ≤ ([] : List Nat).length + (hlit + 257 + (hdist + 1)) by simp)
    obtain ⟨b', hrun, hreads⟩ := blockDecode_spec hlit' hdist' ht hr5 hcap
      (show out'.length < out.length + (cap + 1) by omega)
    refine ⟨b', ?_, hreads⟩
    simp only [blockDynamic, hrun1, hrun2, hrun3, hrun4, huffBuild_spec hcl]
    by_cases h1 : Accepted (lengthCode cs)
    · rw [if_pos h1, ok_bind, hrun5, ok_bind]
      rw [huffBuild_spec hlit', huffBuild_spec hdist']
      by_cases h2 : Accepted (all.take (hlit + 257))
      · by_cases h3 : Accepted (all.drop (hlit + 257))
        · rw [if_pos h2, ok_bind, if_pos h3, ok_bind, hrun, if_pos ⟨h1, h2, h3⟩]
        · rw [if_pos h2, ok_bind, if_neg h3, error_bind, if_neg fun h => h3 h.2.2]
      · rw [if_neg h2, error_bind, if_neg fun h => h2 h.2.1]
    · rw [if_neg h1, error_bind, if_neg fun h => h1 h.1]

/-- A byte of the source, and the bytes behind it. -/
theorem drop_cons {p : Nat} {c : UInt8} {t : List UInt8} (h : src.drop p = c :: t) :
    p < src.length ∧ src.getD p 0 = c ∧ src.drop (p + 1) = t := by
  have hp : p < src.length := by
    have hlen := congrArg List.length h
    rw [List.length_drop, List.length_cons] at hlen
    omega
  rw [List.drop_eq_getElem_cons hp] at h
  obtain ⟨hhead, htail⟩ := List.cons.inj h
  exact ⟨hp, by rw [List.getD_eq_getElem _ _ hp, hhead], htail⟩

theorem storedCopy_spec {p : Nat} {data t : List UInt8} (h : src.drop p = data ++ t)
    (hcap : out.length + data.length ≤ cap) :
    storedCopy cap data.length ⟨src, p, 0, 0⟩ out = .ok (⟨src, p + data.length, 0, 0⟩, out ++ data) := by
  induction data generalizing p out with
  | nil => simp [storedCopy]
  | cons c data ih =>
    obtain ⟨hp, hget, hrest⟩ := drop_cons h
    rw [List.length_cons] at hcap ⊢
    rw [storedCopy, if_neg (by dsimp only; omega)]
    rw [hget, sinkPut_ok (by omega), ok_bind, ih hrest (by simp; omega)]
    simp [Nat.add_assoc, Nat.add_comm 1]

/-- A reader put back on a byte. -/
theorem reads_aligned {p : Nat} {t : List UInt8} (hp : p ≤ src.length) (h : src.drop p = t) :
    Reads ⟨src, p, 0, 0⟩ src (ofBytes t) :=
  ⟨⟨rfl, hp, Nat.one_pos, by rw [h]; rfl⟩, Nat.succ_pos 7⟩

/-- The two bytes of a length. -/
theorem le_two (n : Nat) : Bytes.le 2 n = [UInt8.ofNat n, UInt8.ofNat (n / 256)] := by
  simp [Bytes.le, List.range_succ]

theorem blockStored_spec (h : BlockAt .stored out bits out' rest) (hb : Reads b src bits)
    (hsrc : src.length < 2 ^ 32) (hcap : out'.length ≤ cap) :
    ∃ b', blockStored cap b out = .ok (b', out') ∧ Reads b' src rest := by
  cases h with
  | @stored _ data _ _ hn h =>
    have hcnt : bits.length % 8 = b.bitcnt := by
      have hlen := hb.length
      have hlt := hb.cnt_lt
      omega
    rw [hcnt, hb.bits_eq, List.drop_left' (length_lsb _ _)] at h
    obtain ⟨t, hdrop, rfl⟩ := ofBytes_split h
    rw [le_two, le_two] at hdrop
    simp only [List.cons_append, List.nil_append] at hdrop
    obtain ⟨hp0, hget0, hdrop1⟩ := drop_cons hdrop
    obtain ⟨hp1, hget1, hdrop2⟩ := drop_cons hdrop1
    obtain ⟨hp2, -, hdrop3⟩ := drop_cons hdrop2
    obtain ⟨hp3, -, hdrop4⟩ := drop_cons hdrop3
    have hlen : (UInt8.ofNat data.length).toNat |||
        (UInt8.ofNat (data.length / 256)).toNat <<< 8 = data.length := by
      rw [UInt8.toNat_ofNat', UInt8.toNat_ofNat', Nat.or_comm,
        ← Nat.shiftLeft_add_eq_or_of_lt (Nat.mod_lt _ (by decide)), Nat.shiftLeft_eq]
      omega
    have hend : b.pos + 4 + data.length ≤ src.length ∧ src.drop (b.pos + 4 + data.length) = t := by
      constructor
      · have hlen := congrArg List.length hdrop4
        rw [List.length_drop, List.length_append] at hlen
        omega
      · rw [← List.drop_drop, show b.pos + 4 = b.pos + 1 + 1 + 1 + 1 from rfl, hdrop4, List.drop_left]
    rw [List.length_append] at hcap
    refine ⟨_, ?_, reads_aligned hend.1 hend.2⟩
    rw [blockStored, brAlign]
    dsimp only
    rw [show (b.pos + 4) % 2 ^ 32 = b.pos + 4 from Nat.mod_eq_of_lt (by omega)]
    rw [hb.data_eq, if_neg (by omega), hget0, hget1, hlen, storedCopy_spec hdrop4 hcap]

/-! ## The stream -/

/-- **A block is decoded, when its codes are taken.** -/
theorem blockOf_spec (h : BlockAt blk out bits out' rest) (hb : Reads b src bits)
    (hsrc : src.length < 2 ^ 32) (hcap : out'.length ≤ cap) :
    ∃ b', blockOf cap blk.type b out = (if blk.Taken then .ok (b', out') else .error (-1)) ∧ Reads b' src rest := by
  cases blk with
  | stored => exact blockStored_spec h hb hsrc hcap
  | fixed => exact blockFixed_spec h hb hcap
  | dynamic cl lit dist => exact blockDynamic_spec h hb hcap

theorem Stream.length_le (h : Stream out' rest blks out bits) : out.length ≤ out'.length := by
  induction h with
  | last h => exact h.length_le
  | more h _ ih => exact Nat.le_trans h.length_le ih

theorem Block.type_lt (blk : Block) : blk.type < 2 ^ 2 := by
  cases blk <;> simp [Block.type]

/-- The bits before a block: whether it is the last, and its kind. -/
theorem header {last : Bool} (hb : Reads b src (last :: (lsb 2 blk.type ++ r))) :
    ∃ b1 b', brGet b 1 = (last.toNat, b1) ∧ brGet b1 2 = (blk.type, b') ∧ Reads b' src r := by
  have hlast : last :: (lsb 2 blk.type ++ r) = lsb 1 last.toNat ++ (lsb 2 blk.type ++ r) := by
    cases last <;> rfl
  rw [hlast] at hb
  obtain ⟨b1, hrun1, hr1⟩ := brGet_ok hb (by cases last <;> decide)
  obtain ⟨b2, hrun2, hr2⟩ := brGet_ok hr1 blk.type_lt
  exact ⟨b1, b2, hrun1, hrun2, hr2⟩

/-- **The blocks of a stream are decoded**, when their codes are taken and the guard lets them
pass. -/
theorem inflateLoop_eq {guard : Nat} (h : Stream out' rest blks out bits)
    (hb : Reads b src bits) (hsrc : src.length < 2 ^ 32) (hcap : out'.length ≤ cap) :
    inflateLoop cap guard b out = if blks.length ≤ guard ∧ ∀ blk ∈ blks, blk.Taken
      then .ok (out', src.length - rest.length / 8) else .error (-1) := by
  induction h generalizing b guard with
  | @last out r blk h =>
    cases guard with
    | zero => rw [if_neg (by simp)]; rfl
    | succ guard =>
      obtain ⟨b1, b2, hrun1, hrun2, hr⟩ := header hb
      obtain ⟨b', hrun, hreads⟩ := blockOf_spec h hr hsrc hcap
      rw [inflateLoop, hrun1]
      dsimp only
      rw [hrun2]
      rw [hrun]
      by_cases htaken : blk.Taken
      · rw [if_pos htaken, ok_bind]
        rw [if_pos (by decide), if_pos (by simp [htaken]), hreads.pos_eq]
      · rw [if_neg htaken, error_bind, if_neg (by simp [htaken])]
  | @more out mid r r' blk blks h ht ih =>
    cases guard with
    | zero => rw [if_neg (by simp)]; rfl
    | succ guard =>
      obtain ⟨b1, b2, hrun1, hrun2, hr⟩ := header hb
      obtain ⟨b', hrun, hreads⟩ := blockOf_spec h hr hsrc (Nat.le_trans ht.length_le hcap)
      rw [inflateLoop, hrun1]
      dsimp only
      rw [hrun2]
      rw [hrun]
      by_cases htaken : blk.Taken
      · rw [if_pos htaken, ok_bind]
        rw [if_neg (by decide), ih hreads]
        simp [htaken]
      · rw [if_neg htaken, error_bind, if_neg (by simp [htaken])]

/-- **What the inflater makes of a stream of the format.** -/
theorem inflateRaw_eq (h : Stream out rest blks [] (ofBytes src))
    (hsrc : src.length < 2 ^ 32) (hcap : out.length ≤ cap) :
    inflateRaw src cap = if blks.length ≤ 1000000 ∧ ∀ blk ∈ blks, blk.Taken
      then .ok (out, src.length - rest.length / 8) else .error (-1) :=
  inflateLoop_eq h (reads_aligned (Nat.zero_le _) rfl) hsrc hcap

/-- **A stream of the format is decoded to its bytes exactly when** it has no more than a million
blocks, and in each block that brings its codes these leave unused at most one word of fifteen
bits. -/
theorem inflateRaw_iff {blks : List Block} (h : Stream out rest blks [] (ofBytes src))
    (hsrc : src.length < 2 ^ 32) (hcap : out.length ≤ cap) :
    (∃ used, inflateRaw src cap = .ok (out, used)) ↔ blks.length ≤ 1000000 ∧ ∀ blk ∈ blks, blk.Taken := by
  rw [inflateRaw_eq h hsrc hcap]
  split
  · rename_i htaken
    exact ⟨fun _ => htaken, fun _ => ⟨_, rfl⟩⟩
  · rename_i htaken
    refine ⟨?_, fun h => absurd h htaken⟩
    rintro ⟨used, hok⟩
    cases hok

/-- A stream with one literal, whose distance code has `d + 1` words of one bit. -/
def oneLiteral (d : Nat) : List UInt8 := [5, 192 + .ofNat d, 129, 0, 0, 0, 0, 0, 144, 54, 255, 83, .ofNat (8 * 2 ^ d)]

/-- The literals of it: `A` and the end of the block, with one bit each. -/
def oneLiteralLit : List Nat := List.replicate 65 0 ++ [1] ++ List.replicate 190 0 ++ [1]

/-- The lengths of the code for its code lengths, in their order. -/
def oneLiteralOrder : List Nat := [0, 0, 1, 0, 0, 0, 0, 0, 0, 0, 0, 0, 0, 0, 0, 0, 0, 1]

/-- What is left of it behind `k` bits. -/
def oneLiteralFrom (d k : Nat) : List Bool := (ofBytes (oneLiteral d)).drop k

/-- Its block. -/
def oneLiteralBlock (d : Nat) : Block :=
  .dynamic (lengthCode oneLiteralOrder) oneLiteralLit (List.replicate (d + 1) 1)

theorem oneLiteral_lengths (d : Fin 2) : Lengths (lengthCode oneLiteralOrder) (0 + 257 + (d + 1))
    (oneLiteralLit ++ List.replicate (d + 1) 1) (oneLiteralFrom d (98 + d)) [] (oneLiteralFrom d 71) := by
  refine .manyZeros (e := 54) (r := oneLiteralFrom d 79) (by revert d; decide) (by decide) (by revert d; decide) ?_
  refine .length (s := 1) (r := oneLiteralFrom d 80) (by revert d; decide) (by decide) (by revert d; decide) ?_
  refine .manyZeros (e := 127) (r := oneLiteralFrom d 88) (by revert d; decide) (by decide) (by revert d; decide) ?_
  refine .manyZeros (e := 41) (r := oneLiteralFrom d 96) (by revert d; decide +kernel) (by decide)
    (by revert d; decide) ?_
  refine .length (s := 1) (r := oneLiteralFrom d 97) (by revert d; decide +kernel) (by decide) (by revert d; decide) ?_
  refine .length (s := 1) (r := oneLiteralFrom d 98) (by revert d; decide +kernel) (by decide) (by revert d; decide) ?_
  have hend : ∀ {all acc rest n}, all = acc → all.length = n → Lengths (lengthCode oneLiteralOrder) n all rest acc rest := by
    rintro _ _ _ _ rfl h
    exact .done h
  obtain rfl | rfl : d = 0 ∨ d = 1 := by revert d; decide
  · exact hend (by decide +kernel) (by decide +kernel)
  · exact .length (s := 1) (r := oneLiteralFrom 1 99) (by decide +kernel) (by decide) (by decide)
      (hend (by decide +kernel) (by decide +kernel))

theorem oneLiteral_symbols (d : Fin 2) : Symbols oneLiteralLit (List.replicate (d + 1) 1) [65]
    (oneLiteralFrom d (100 + d)) [] (oneLiteralFrom d (98 + d)) := by
  refine .literal (s := 65) (r := oneLiteralFrom d (99 + d)) (by decide) (by revert d; decide +kernel) ?_
  exact .done (by revert d; decide +kernel)

/-- It is a stream of the format. -/
theorem oneLiteral_stream (d : Fin 2) :
    Stream [65] (oneLiteralFrom d (100 + d)) [oneLiteralBlock d] [] (ofBytes (oneLiteral d)) := by
  have hb := @BlockAt.dynamic [] [65] (oneLiteralFrom d 3) (oneLiteralFrom d 71) (oneLiteralFrom d (98 + d))
    (oneLiteralFrom d (100 + d)) 0 d 14 oneLiteralOrder (oneLiteralLit ++ List.replicate (d + 1) 1) (by decide)
    (by revert d; decide) (by decide) rfl (by decide) (by revert d; decide +kernel) (by decide +kernel)
    (oneLiteral_lengths d) (by revert d; decide +kernel) (by revert d; decide +kernel)
  obtain ⟨hlit, hdist, hbits⟩ : (oneLiteralLit ++ List.replicate (d + 1) 1).take (0 + 257) = oneLiteralLit ∧
      (oneLiteralLit ++ List.replicate (d + 1) 1).drop (0 + 257) = List.replicate (d + 1) 1 ∧
      ofBytes (oneLiteral d) = true :: (lsb 2 (oneLiteralBlock d).type ++ oneLiteralFrom d 3) := by
    clear hb
    revert d
    decide +kernel
  rw [hlit, hdist] at hb
  rw [hbits]
  exact .last (hb (oneLiteral_symbols d))

/-- With two words of one bit the code is complete. -/
theorem inflateRaw_iff_literal : ∃ used, inflateRaw (oneLiteral 1) 1 = .ok ([65], used) :=
  (inflateRaw_iff (oneLiteral_stream 1) (by decide) (Nat.le_refl 1)).2 (by decide +kernel)

/-- **A distance code of a single one-bit word is refused**, in a stream of the format. -/
theorem oneWord_refused : Stream [65] (oneLiteralFrom 0 100) [oneLiteralBlock 0] [] (ofBytes (oneLiteral 0)) ∧
    inflateRaw (oneLiteral 0) 1 = .error (-1) :=
  ⟨oneLiteral_stream 0,
    (inflateRaw_eq (oneLiteral_stream 0) (by decide) (Nat.le_refl 1)).trans (if_neg (by decide +kernel))⟩

end WuBuOS.Inflate
