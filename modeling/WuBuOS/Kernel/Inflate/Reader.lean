import WuBuOS.Kernel.Inflate.Decoder
import WuBuOS.Lib.Canonical

/-!
# Reading fields and code words

`Reads b src bits` says what a bit reader stands for: the bits that are still to come.  `brGet_spec`
is all that is needed of it afterwards: a field on the stream is read, and the rest is still there.

A code that fits is decoded as it was meant (`huffDecode_spec`).  The loop has read some bits of the
word; as long as these are not all, the number they make lies behind all the words of that length
(`Canonical.first_le`), and the loop goes on.  Every code that `huff_build` takes fits
(`fits_of_huffBuild`), so that decoding inverts it (`huffDecode_codeword`).
-/

namespace WuBuOS.Inflate

open Bits Canonical

variable {b : Br} {src : List UInt8} {bits r : List Bool} {n v : Nat}

/-! ## Fields -/

/-- The bits a reader has in store, then those of the bytes it did not fetch. -/
structure Fetched (b : Br) (src : List UInt8) (bits : List Bool) : Prop where
  data_eq : b.data = src
  pos_le : b.pos ≤ src.length
  buf_lt : b.bitbuf < 2 ^ b.bitcnt
  bits_eq : bits = lsb b.bitcnt b.bitbuf ++ ofBytes (src.drop b.pos)

/-- Between two fields, less than a byte is in store. -/
structure Reads (b : Br) (src : List UInt8) (bits : List Bool) : Prop extends Fetched b src bits where
  cnt_lt : b.bitcnt < 8

theorem Fetched.length (h : Fetched b src bits) : bits.length = b.bitcnt + 8 * (src.length - b.pos) := by
  rw [h.bits_eq, List.length_append, length_lsb, length_ofBytes, List.length_drop]

/-- The bits come from the source from here on. -/
theorem Reads.pos_eq (h : Reads b src bits) : b.pos = src.length - bits.length / 8 := by
  have hlen := h.length
  have hpos := h.pos_le
  have hcnt := h.cnt_lt
  omega

theorem brFetch_spec (h : Fetched b src bits) (hn : b.bitcnt < bits.length) :
    Fetched (brFetch b) src bits ∧ (brFetch b).bitcnt = b.bitcnt + 8 := by
  have hpos : b.pos < src.length := by
    have hlen := h.length
    omega
  have hbyte : src.getD b.pos 0 = src[b.pos] := by simp [hpos]
  have hor : b.bitbuf ||| src[b.pos].toNat <<< b.bitcnt = b.bitbuf + 2 ^ b.bitcnt * src[b.pos].toNat := by
    rw [Nat.or_comm, ← Nat.shiftLeft_add_eq_or_of_lt h.buf_lt, Nat.shiftLeft_eq, Nat.mul_comm, Nat.add_comm]
  have hdiv : (b.bitbuf + 2 ^ b.bitcnt * src[b.pos].toNat) / 2 ^ b.bitcnt = src[b.pos].toNat := by
    rw [Nat.add_mul_div_left _ _ (Nat.two_pow_pos _), Nat.div_eq_of_lt h.buf_lt, Nat.zero_add]
  have hfetch : brFetch b = ⟨src, b.pos + 1, b.bitbuf + 2 ^ b.bitcnt * src[b.pos].toNat, b.bitcnt + 8⟩ := by
    rw [brFetch, h.data_eq, if_neg (by omega), hbyte, hor]
  rw [hfetch]
  refine ⟨⟨rfl, hpos, ?_, ?_⟩, rfl⟩
  · have hlt := src[b.pos].toNat_lt
    have hbuf := h.buf_lt
    have hmul : 2 ^ b.bitcnt * src[b.pos].toNat + 2 ^ b.bitcnt ≤ 2 ^ b.bitcnt * 2 ^ 8 := by
      rw [← Nat.mul_succ]
      exact Nat.mul_le_mul_left _ hlt
    rw [Nat.pow_add]
    dsimp only
    omega
  · rw [h.bits_eq, lsb_add, lsb_add_mul, hdiv, List.drop_eq_getElem_cons hpos, ofBytes_cons, List.append_assoc]

theorem brFill_spec {k : Nat} (h : Fetched b src bits) (hn : n ≤ bits.length)
    (hk : n ≤ b.bitcnt + k) (hlt : b.bitcnt < n + 8) :
    Fetched (brFill n k b) src bits ∧ n ≤ (brFill n k b).bitcnt ∧ (brFill n k b).bitcnt < n + 8 := by
  induction k generalizing b with
  | zero => exact ⟨h, hk, hlt⟩
  | succ k ih =>
    rw [brFill]
    split
    · rename_i hless
      obtain ⟨hf, hcnt⟩ := brFetch_spec h (by omega)
      exact ih hf (by omega) (by omega)
    · exact ⟨h, by omega, hlt⟩

/-- **A field on the stream is read.** -/
theorem brGet_spec (h : Reads b src (lsb n v ++ r)) (hv : v < 2 ^ n) :
    (brGet b n).1 = v ∧ Reads (brGet b n).2 src r := by
  obtain ⟨hf, hle, hlt⟩ := brFill_spec (n := n) (k := n) h.toFetched (by simp) (by omega)
    (by have := h.cnt_lt; omega)
  simp only [brGet]
  revert hf hle hlt
  generalize brFill n n b = b'
  intro hf hle hlt
  obtain ⟨k, hk⟩ := Nat.exists_eq_add_of_le hle
  have hbits := hf.bits_eq
  rw [hk, lsb_add, List.append_assoc] at hbits
  obtain ⟨hval, hrest⟩ := lsb_append_inj hbits
  refine ⟨?_, ⟨hf.data_eq, hf.pos_le, ?_, ?_⟩, ?_⟩
  · rw [Nat.one_shiftLeft, Nat.and_two_pow_sub_one_eq_mod, ← hval, Nat.mod_eq_of_lt hv]
  · rw [Nat.shiftRight_eq_div_pow]
    have hbuf := hf.buf_lt
    rw [hk, Nat.pow_add] at hbuf
    simpa [hk] using Nat.div_lt_of_lt_mul hbuf
  · simpa [hk, Nat.shiftRight_eq_div_pow] using hrest
  · dsimp only
    omega

/-- The same, for a caller that takes the pair apart. -/
theorem brGet_ok (h : Reads b src (lsb n v ++ r)) (hv : v < 2 ^ n) : ∃ b', brGet b n = (v, b') ∧ Reads b' src r := by
  obtain ⟨hval, hreads⟩ := brGet_spec h hv
  exact ⟨(brGet b n).2, by rw [← hval], hreads⟩

/-! ## Tables -/

/-- The table that `huff_build` makes of the lengths. -/
def table (lengths : List Nat) : Huff :=
  ⟨huffCnt lengths, huffSort lengths 0 (huffOffs (huffCnt lengths)) fun _ => 0⟩

/-- **What `huff_build` takes**: of the words of fifteen bits at most one is unused. -/
def Accepted (lengths : List Nat) : Prop := 2 ^ 15 ≤ kraft 15 lengths + 1

instance (lengths : List Nat) : Decidable (Accepted lengths) := Nat.decLe _ _

variable {lens : List Nat} {s : Nat}

/-- The room left is what the words up to this length do not use up. -/
theorem huffLeft_spec (h : Fits 15 lens) {k l : Nat} (hl : l + k ≤ 15) :
    huffLeft (huffCnt lens) k (l + 1) (2 ^ l - (first lens l + count lens l)) =
      some (2 ^ (l + k) - (first lens (l + k) + count lens (l + k))) := by
  induction k generalizing l with
  | zero => rfl
  | succ k ih =>
    have hnext := first_add_count_le h (show l + 1 ≤ 15 by omega)
    have hleft : 2 * (2 ^ l - (first lens l + count lens l)) - huffCnt lens (l + 1) =
        2 ^ (l + 1) - (first lens (l + 1) + count lens (l + 1)) := by
      change 2 * (2 ^ l - (first lens l + count lens l)) - count lens (l + 1) = _
      rw [first, Nat.pow_succ]
      omega
    have hroom : ¬ 2 * (2 ^ l - (first lens l + count lens l)) < huffCnt lens (l + 1) := by
      change ¬ 2 * (2 ^ l - (first lens l + count lens l)) < count lens (l + 1)
      rw [first, Nat.pow_succ] at hnext
      omega
    rw [huffLeft, if_neg hroom, hleft, ih (by omega), Nat.add_right_comm, Nat.add_assoc]

/-- **`huff_build` on a code that fits.** -/
theorem huffBuild_spec (h : Fits 15 lens) :
    huffBuild lens = if Accepted lens then .ok (table lens) else .error (-1) := by
  have hleft : huffLeft (huffCnt lens) 15 1 1 = some (2 ^ 15 - kraft 15 lens) := by
    have hrun := huffLeft_spec h (show 0 + 15 ≤ 15 by omega)
    rwa [Nat.zero_add, first_add_count_eq h.le] at hrun
  have hempty : lens.length = 0 → kraft 15 lens = 0 := by
    intro hnil
    rw [List.length_eq_zero_iff.1 hnil]
    rfl
  simp only [huffBuild, hleft]
  by_cases hacc : Accepted lens
  · rw [if_pos hacc]
    rw [Accepted] at hacc
    rw [if_neg (by omega)]
    rfl
  · rw [if_neg hacc]
    rw [Accepted] at hacc
    rw [if_pos (by omega)]

/-- The places from `offs l` on, as many as there are symbols of length `l` to come. -/
private theorem huffSort_outside {ls : List Nat} {i p : Nat} {offs sym : Nat → Nat}
    (hp : ∀ l, l ≠ 0 → p < offs l ∨ offs l + ls.count l ≤ p) :
    huffSort ls i offs sym p = sym p := by
  induction ls generalizing i offs sym with
  | nil => rfl
  | cons len ls ih =>
    rw [huffSort]
    split
    · rename_i hlen
      refine ih fun l hl => ?_
      have hout := hp l hl
      rwa [List.count_cons_of_ne (by omega)] at hout
    · rename_i hlen
      have hself := hp len hlen
      rw [List.count_cons_self] at hself
      rw [ih fun l hl => ?_, store, if_neg (by omega)]
      rw [store]
      split
      · rename_i heq
        rw [heq]
        omega
      · rename_i hne
        have hout := hp l hl
        rwa [List.count_cons_of_ne fun heq => hne heq.symm] at hout

/-- **The symbols are sorted by length**, those of one length in their order. -/
theorem huffSort_spec {ls : List Nat} {i k : Nat} {offs sym : Nat → Nat}
    (hoffs : ∀ l l', l ≠ 0 → l < l' → offs l + ls.count l ≤ offs l') (hk : k < ls.length)
    (hl : ls.getD k 0 ≠ 0) :
    huffSort ls i offs sym (offs (ls.getD k 0) + (ls.take k).count (ls.getD k 0)) = i + k := by
  induction ls generalizing i k offs sym with
  | nil => exact absurd hk (Nat.not_lt_zero k)
  | cons len ls ih =>
    rw [huffSort]
    cases k with
    | zero =>
      have hlen : len ≠ 0 := hl
      rw [if_neg hlen]
      change huffSort ls (i + 1) _ _ (offs len) = i
      rw [huffSort_outside, store, if_pos rfl]
      intro l hl'
      rw [store]
      split
      · omega
      · rename_i hne
        rcases Nat.lt_or_gt_of_ne hne with hlt | hgt
        · have hbefore := hoffs l len hl' hlt
          rw [List.count_cons_of_ne fun heq => hne heq.symm] at hbefore
          omega
        · have hbehind := hoffs len l hlen hgt
          rw [List.count_cons_self] at hbehind
          omega
    | succ k =>
      have hget : (len :: ls).getD (k + 1) 0 = ls.getD k 0 := rfl
      rw [hget] at hl ⊢
      rw [List.take_succ_cons, Nat.add_comm k 1, ← Nat.add_assoc]
      have hk' : k < ls.length := Nat.lt_of_succ_lt_succ hk
      by_cases hlen : len = 0
      · rw [if_pos hlen, List.count_cons_of_ne (by omega)]
        refine ih (fun l l' hl hlt => ?_) hk' hl
        have hle := hoffs l l' hl hlt
        rwa [List.count_cons_of_ne (by omega)] at hle
      · -- the places of the length just used are one less, from the next on
        have hoffs' : ∀ l l', l ≠ 0 → l < l' →
            store offs len (offs len + 1) l + ls.count l ≤ store offs len (offs len + 1) l' := by
          intro l l' hl hlt
          have hle := hoffs l l' hl hlt
          rw [store, store]
          by_cases h1 : l = len
          · rw [if_pos h1, if_neg (by omega)]
            rw [h1, List.count_cons_self] at hle
            rw [h1]
            omega
          · rw [if_neg h1]
            rw [List.count_cons_of_ne fun heq => h1 heq.symm] at hle
            split
            · rename_i h2
              rw [h2] at hle
              omega
            · exact hle
        have hrun := @ih (i + 1) k _ (store sym (offs len) i) hoffs' hk' hl
        rw [if_neg hlen]
        by_cases heq : ls.getD k 0 = len
        · rw [store, if_pos heq] at hrun
          rw [heq] at hrun ⊢
          rw [List.count_cons_self, ← hrun]
          congr 1
          omega
        · rw [store, if_neg heq] at hrun
          rw [List.count_cons_of_ne fun h => heq h.symm]
          exact hrun

theorem huffOffs_mono (lens : List Nat) {l l' : Nat} (hl : l ≠ 0) (h : l < l') :
    huffOffs (huffCnt lens) l + lens.count l ≤ huffOffs (huffCnt lens) l' := by
  induction l' with
  | zero => omega
  | succ l' ih =>
    rw [huffOffs]
    rcases Nat.lt_or_eq_of_le (Nat.le_of_lt_succ h) with hlt | rfl
    · exact Nat.le_trans (ih hlt) (Nat.le_add_right _ _)
    · rw [huffCnt, if_neg hl]

/-- The table has a symbol where its word is looked up. -/
theorem table_sym (hs : s < lens.length) (hl : lens.getD s 0 ≠ 0) :
    (table lens).sym (huffOffs (huffCnt lens) (lens.getD s 0) + rank lens s) = s := by
  have hsort : (table lens).sym _ = 0 + s :=
    huffSort_spec (fun l l' hl hlt => huffOffs_mono lens hl hlt) hs hl
  rwa [Nat.zero_add] at hsort

/-! ## Code words -/

/-- The loop with `l` bits of the word read and `m + 1` to come. -/
theorem huffDecodeFrom_spec (hs : s < lens.length) (hl : lens.getD s 0 ≠ 0) {k l m : Nat}
    (hlen : lens.getD s 0 = l + (m + 1)) (hk : m < k) (hv : v = first lens (lens.getD s 0) + rank lens s)
    (h : Reads b src (msb (m + 1) v ++ r)) :
    ∃ b', huffDecodeFrom (table lens) k (l + 1) ((v / 2 ^ (m + 1)) <<< 1) (first lens (l + 1))
        (huffOffs (huffCnt lens) (l + 1)) b = .ok (s, b') ∧ Reads b' src r := by
  induction m generalizing k l b with
  | zero =>
    obtain ⟨k, rfl⟩ := Nat.exists_eq_add_of_lt hk
    rw [msb_succ, List.append_assoc] at h
    obtain ⟨hbit, hnext⟩ := brGet_spec h (Nat.mod_lt _ Nat.two_pos)
    have hcode : (v / 2 ^ (0 + 1)) <<< 1 ||| (brGet b 1).1 = v := by
      rw [hbit, ← Nat.shiftLeft_add_eq_or_of_lt (Nat.mod_lt _ Nat.two_pos), Nat.shiftLeft_eq]
      omega
    have hrank := rank_lt hs hl
    refine ⟨_, ?_, hnext⟩
    rw [Nat.zero_add] at hlen
    rw [hlen] at hv hrank
    have hcount : v - first lens (l + 1) < (table lens).cnt (l + 1) := by
      rw [hv, Nat.add_sub_cancel_left]
      exact hrank
    have hsym := table_sym hs hl
    rw [hlen] at hsym
    rw [huffDecodeFrom]
    simp only [hcode]
    rw [if_pos hcount, hv, Nat.add_sub_cancel_left, hsym]
  | succ m ih =>
    obtain ⟨k, rfl⟩ := Nat.exists_eq_add_of_lt hk
    rw [msb_succ, List.append_assoc] at h
    obtain ⟨hbit, hnext⟩ := brGet_spec h (Nat.mod_lt _ Nat.two_pos)
    have hcode : (v / 2 ^ (m + 1 + 1)) <<< 1 ||| (brGet b 1).1 = v / 2 ^ (m + 1) := by
      rw [hbit, ← Nat.shiftLeft_add_eq_or_of_lt (Nat.mod_lt _ Nat.two_pos), Nat.shiftLeft_eq,
        Nat.pow_succ, ← Nat.div_div_eq_div_mul]
      omega
    -- these bits are not a word yet
    have hbehind : first lens (l + 1) + count lens (l + 1) ≤ v / 2 ^ (m + 1) := by
      rw [Nat.le_div_iff_mul_le (Nat.two_pow_pos _), Nat.mul_comm]
      have hle := first_le lens (show l + 1 < lens.getD s 0 by omega)
      rw [show lens.getD s 0 - (l + 1) = m + 1 by omega] at hle
      omega
    have hmore : ¬ v / 2 ^ (m + 1) - first lens (l + 1) < (table lens).cnt (l + 1) := by
      change ¬ v / 2 ^ (m + 1) - first lens (l + 1) < count lens (l + 1)
      omega
    obtain ⟨b', hrun, hreads⟩ := ih (k := m + 1 + k) (l := l + 1) (by omega) (by omega) hnext
    refine ⟨b', ?_, hreads⟩
    rw [huffDecodeFrom]
    simp only [hcode]
    rw [if_neg hmore, ← hrun, Nat.shiftLeft_eq (first lens (l + 1) + _), Nat.mul_comm _ (2 ^ 1)]
    rfl

/-- **A code word is decoded**, and its bits are used up. -/
theorem huffDecode_spec (hf : Fits 15 lens) (hd : Decodes lens bits s r) (h : Reads b src bits) :
    ∃ b', huffDecode b (table lens) = .ok (s, b') ∧ Reads b' src r := by
  obtain ⟨hs, hl, rfl⟩ := hd
  have hle : lens.getD s 0 ≤ 15 := hf.le _ (by simp [hs])
  obtain ⟨m, hm⟩ := Nat.exists_eq_succ_of_ne_zero hl
  rw [codeword, hm] at h
  have hfit := first_add_count_le hf hle
  have hrank := rank_lt hs hl
  obtain ⟨b', hrun, hreads⟩ := huffDecodeFrom_spec hs hl (k := 15) (l := 0) (by omega) (by omega)
    (by rw [hm]) h
  refine ⟨b', ?_, hreads⟩
  rw [huffDecode, ← hrun]
  congr 1
  rw [Nat.div_eq_of_lt, Nat.zero_shiftLeft]
  rw [hm] at hfit hrank
  exact Nat.lt_of_lt_of_le (Nat.add_lt_add_left hrank _) hfit

/-! ## Codes that are taken -/

/-- What is left after the words of each length is the room behind them. -/
theorem huffLeft_some {k l left left' : Nat} (hleft : left + (first lens l + count lens l) = 2 ^ l)
    (h : huffLeft (huffCnt lens) k (l + 1) left = some left') :
    left' + (first lens (l + k) + count lens (l + k)) = 2 ^ (l + k) := by
  induction k generalizing l left with
  | zero =>
    obtain rfl : left = left' := Option.some.inj h
    exact hleft
  | succ k ih =>
    rw [huffLeft] at h
    split at h
    · cases h
    · rename_i hroom
      have hnext : 2 * left - huffCnt lens (l + 1) + (first lens (l + 1) + count lens (l + 1)) = 2 ^ (l + 1) := by
        have hcnt : huffCnt lens (l + 1) = count lens (l + 1) := rfl
        rw [first, Nat.pow_succ]
        omega
      have hlast := ih hnext h
      rwa [Nat.add_right_comm, Nat.add_assoc] at hlast

/-- **A code that is taken fits**, and the table is that of its lengths. -/
theorem fits_of_huffBuild {h : Huff} (hle : ∀ l ∈ lens, l ≤ 15) (hb : huffBuild lens = .ok h) :
    Fits 15 lens ∧ h = table lens := by
  have hfits : Fits 15 lens := by
    simp only [huffBuild] at hb
    split at hb
    · cases hb
    · rename_i left hleft
      have hzero : 1 + (first lens 0 + count lens 0) = 2 ^ 0 := rfl
      have hroom := huffLeft_some hzero hleft
      rw [Nat.zero_add, first_add_count_eq hle] at hroom
      exact ⟨hle, by omega⟩
  refine ⟨hfits, ?_⟩
  rw [huffBuild_spec hfits] at hb
  split at hb
  · exact (Except.ok.inj hb).symm
  · cases hb

/-- **Decoding inverts the canonical code** of every vector of lengths that is taken: the symbol is returned, and the
bits of its word are used up, whatever comes behind them. -/
theorem huffDecode_codeword {h : Huff} (hle : ∀ l ∈ lens, l ≤ 15) (hb : huffBuild lens = .ok h)
    (hs : s < lens.length) (hl : lens.getD s 0 ≠ 0) (hr : Reads b src (codeword lens s ++ r)) :
    ∃ b', huffDecode b h = .ok (s, b') ∧ Reads b' src r := by
  obtain ⟨hfits, rfl⟩ := fits_of_huffBuild hle hb
  exact huffDecode_spec hfits ⟨hs, hl, rfl⟩ hr

theorem huffDecode_codeword_two : ∃ b', huffDecode ⟨[0x05], 0, 0, 0⟩ (table [1, 2, 2]) = .ok (1, b') ∧
      Reads b' [0x05] [true, false, false, false, false, false] :=
  huffDecode_codeword (by decide : ∀ l ∈ [1, 2, 2], l ≤ 15) (by rfl) (by decide) (by decide)
    ⟨⟨rfl, by decide, by decide, by decide⟩, by decide⟩

end WuBuOS.Inflate
