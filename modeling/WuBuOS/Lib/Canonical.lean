import Mathlib.Data.Int.NatAbs
import Mathlib.Algebra.BigOperators.Group.List.Basic

/-!
# Canonical prefix codes

A canonical code is given by the lengths of its words alone: entry `s` of the list is the length of
the word of symbol `s`, zero when the symbol has none.  Words of one length are consecutive numbers
in the order of their symbols (`Canonical.rank`), and the first of each length is twice the number
behind the last of the length before (`Canonical.first`).  A word goes on a stream with its most
significant bit first (`Canonical.codeword`).

`Canonical.kraft m lens` measures how much of the words of `m` bits the code uses up.  A code with
`kraft m lens ≤ 2 ^ m` fits, and then the words of a length fit in that length
(`Canonical.first_add_count_le`).  What makes reading bit by bit work is `Canonical.first_le`: a word
of length `L` cut off after `l` bits lies behind all the words of length `l`.

A stream of bits is a list of booleans.  `Bits.lsb n v` are the `n` low bits of `v`, the least
significant first, the order in which a byte goes on a stream; `Bits.msb n v` are the same bits the
other way round, the order in which a code word does.  `Bits.lsb_add` splits a field in two;
`Bits.lsb_inj` says that a field determines its number, and `Bits.ofBytes_split` that whole bytes on a
stream determine the bytes.
-/

/-! ## Streams of bits -/

namespace Bits

/-- The `n` low bits of `v`, the least significant first. -/
def lsb : Nat → Nat → List Bool
  | 0, _ => []
  | n + 1, v => (v % 2 == 1) :: lsb n (v / 2)

/-- The `n` low bits of `v`, the most significant first. -/
def msb : Nat → Nat → List Bool
  | 0, _ => []
  | n + 1, v => (v / 2 ^ n % 2 == 1) :: msb n v

/-- The bits of a list of bytes, in the order of the bytes. -/
def ofBytes (l : List UInt8) : List Bool := l.flatMap fun c => lsb 8 c.toNat

variable {n v w : Nat}

@[simp]
theorem length_lsb (n v : Nat) : (lsb n v).length = n := by
  induction n generalizing v with
  | zero => rfl
  | succ n ih => rw [lsb, List.length_cons, ih]

@[simp]
theorem ofBytes_nil : ofBytes [] = [] := rfl

@[simp]
theorem ofBytes_cons (c : UInt8) (l : List UInt8) : ofBytes (c :: l) = lsb 8 c.toNat ++ ofBytes l :=
  rfl

@[simp]
theorem ofBytes_append (l l' : List UInt8) : ofBytes (l ++ l') = ofBytes l ++ ofBytes l' :=
  List.flatMap_append

@[simp]
theorem length_ofBytes (l : List UInt8) : (ofBytes l).length = 8 * l.length := by
  induction l with
  | nil => rfl
  | cons c l ih => rw [ofBytes_cons, List.length_append, length_lsb, ih, List.length_cons]; omega

/-- The bits of a word, one after the other. -/
theorem msb_succ (n v : Nat) : msb (n + 1) v = lsb 1 (v / 2 ^ n % 2) ++ msb n v := by
  simp [msb, lsb]

/-- **A field is its low part, then its high part.** -/
theorem lsb_add (m n v : Nat) : lsb (m + n) v = lsb m v ++ lsb n (v / 2 ^ m) := by
  induction m generalizing v with
  | zero => rw [Nat.zero_add, Nat.pow_zero, Nat.div_one]; rfl
  | succ m ih =>
    rw [Nat.succ_add, lsb, lsb, ih, Nat.div_div_eq_div_mul, ← Nat.pow_succ', List.cons_append]

/-- The bits above the field do not matter. -/
theorem lsb_add_mul (n v w : Nat) : lsb n (v + 2 ^ n * w) = lsb n v := by
  induction n generalizing v with
  | zero => rfl
  | succ n ih =>
    have hlow : (v + 2 ^ (n + 1) * w) % 2 = v % 2 := by
      rw [Nat.pow_succ', Nat.mul_assoc, Nat.add_mul_mod_self_left]
    have hhigh : (v + 2 ^ (n + 1) * w) / 2 = v / 2 + 2 ^ n * w := by
      rw [Nat.pow_succ', Nat.mul_assoc, Nat.add_mul_div_left _ _ Nat.two_pos]
    rw [lsb, lsb, hlow, hhigh, ih]

/-- **A field determines its number.** -/
theorem lsb_inj (h : lsb n v = lsb n w) : v % 2 ^ n = w % 2 ^ n := by
  induction n generalizing v w with
  | zero => rw [Nat.pow_zero, Nat.mod_one, Nat.mod_one]
  | succ n ih =>
    obtain ⟨hhead, htail⟩ := List.cons.inj h
    have hbit : v % 2 = w % 2 := by
      rcases Nat.mod_two_eq_zero_or_one v with hv | hv <;>
        rcases Nat.mod_two_eq_zero_or_one w with hw | hw <;>
        rw [hv, hw] at hhead ⊢ <;> exact absurd hhead (by decide)
    rw [Nat.pow_succ', Nat.mod_mul, Nat.mod_mul, hbit, ih htail]

/-- Two fields that begin the same stream. -/
theorem lsb_append_inj {r r' : List Bool} (h : lsb n v ++ r = lsb n w ++ r') : v % 2 ^ n = w % 2 ^ n ∧ r = r' := by
  obtain ⟨hfield, hrest⟩ := List.append_inj h (by rw [length_lsb, length_lsb])
  exact ⟨lsb_inj hfield, hrest⟩

/-- **Bytes on a stream of bytes are bytes of the stream.** -/
theorem ofBytes_split {l s : List UInt8} {r : List Bool} (h : ofBytes s = ofBytes l ++ r) :
    ∃ t, s = l ++ t ∧ r = ofBytes t := by
  induction l generalizing s with
  | nil => exact ⟨s, rfl, h.symm⟩
  | cons c l ih =>
    cases s with
    | nil =>
      have hlen := congrArg List.length h
      simp only [ofBytes_nil, ofBytes_cons, List.length_nil, List.length_append, length_lsb] at hlen
      omega
    | cons d s =>
      rw [ofBytes_cons, ofBytes_cons, List.append_assoc] at h
      obtain ⟨hbyte, hrest⟩ := lsb_append_inj h
      have heq : d = c := by
        rw [Nat.mod_eq_of_lt d.toNat_lt, Nat.mod_eq_of_lt c.toNat_lt] at hbyte
        exact UInt8.toNat_inj.1 hbyte
      obtain ⟨t, hs, hr⟩ := ih hrest
      exact ⟨t, by rw [heq, hs, List.cons_append], hr⟩

end Bits

/-! ## Codes -/

namespace Canonical

open Bits

variable {lens : List Nat} {m l s : Nat}

/-- The number of words of a length. -/
def count (lens : List Nat) (l : Nat) : Nat := if l = 0 then 0 else lens.count l

/-- The first word of a length. -/
def first (lens : List Nat) : Nat → Nat
  | 0 => 0
  | l + 1 => 2 * (first lens l + count lens l)

/-- The place of a symbol among those of the same length. -/
def rank (lens : List Nat) (s : Nat) : Nat := (lens.take s).count (lens.getD s 0)

/-- The word of a symbol, as it stands on a stream. -/
def codeword (lens : List Nat) (s : Nat) : List Bool :=
  msb (lens.getD s 0) (first lens (lens.getD s 0) + rank lens s)

/-- The stream begins with the word of symbol `s`. -/
def Decodes (lens : List Nat) (bits : List Bool) (s : Nat) (rest : List Bool) : Prop :=
  s < lens.length ∧ lens.getD s 0 ≠ 0 ∧ bits = codeword lens s ++ rest

/-- How many words of `m` bits begin with a word of this length. -/
def weight (m l : Nat) : Nat := if l = 0 then 0 else 2 ^ (m - l)

/-- How many words of `m` bits begin with a word of the code. -/
def kraft (m : Nat) (lens : List Nat) : Nat := (lens.map (weight m)).sum

/-- Words of no more than `m` bits, and no two for the same stream. -/
structure Fits (m : Nat) (lens : List Nat) : Prop where
  le : ∀ l ∈ lens, l ≤ m
  kraft : kraft m lens ≤ 2 ^ m

instance (m : Nat) (lens : List Nat) : Decidable (Fits m lens) :=
  decidable_of_iff ((∀ l ∈ lens, l ≤ m) ∧ kraft m lens ≤ 2 ^ m)
    ⟨fun h => ⟨h.1, h.2⟩, fun h => ⟨h.1, h.2⟩⟩

instance (lens : List Nat) (bits : List Bool) (s : Nat) (rest : List Bool) :
    Decidable (Decodes lens bits s rest) :=
  inferInstanceAs (Decidable (s < lens.length ∧ lens.getD s 0 ≠ 0 ∧ bits = codeword lens s ++ rest))

@[simp]
theorem count_zero (lens : List Nat) : count lens 0 = 0 := rfl

theorem count_pos (h : l ≠ 0) : count lens l = lens.count l := if_neg h

/-! ## The room a code takes -/

/-- The part of `kraft` that the words of up to `l` bits make up. -/
private def kraftTo (m l : Nat) (lens : List Nat) : Nat :=
  (lens.map fun x => if x ≤ l then weight m x else 0).sum

private theorem kraftTo_zero (m : Nat) (lens : List Nat) : kraftTo m 0 lens = 0 := by
  induction lens with
  | nil => rfl
  | cons x lens ih =>
    rw [kraftTo, List.map_cons, List.sum_cons]
    rw [kraftTo] at ih
    rw [ih]
    rcases Nat.eq_zero_or_pos x with rfl | hx
    · rfl
    · rw [if_neg (by omega)]

private theorem kraftTo_succ (m l : Nat) (lens : List Nat) :
    kraftTo m (l + 1) lens = kraftTo m l lens + 2 ^ (m - (l + 1)) * lens.count (l + 1) := by
  induction lens with
  | nil => rfl
  | cons x lens ih =>
    simp only [kraftTo] at ih ⊢
    rw [List.map_cons, List.map_cons, List.sum_cons, List.sum_cons, ih]
    rcases Nat.lt_trichotomy x (l + 1) with hx | rfl | hx
    · rw [if_pos (by omega), if_pos (by omega), List.count_cons_of_ne (by omega)]
      omega
    · rw [if_pos (Nat.le_refl _), if_neg (by omega), List.count_cons_self, weight,
        if_neg (Nat.succ_ne_zero l), Nat.mul_add, Nat.mul_one]
      omega
    · rw [if_neg (by omega), if_neg (by omega), List.count_cons_of_ne (by omega)]
      omega

private theorem kraftTo_le (m l : Nat) (lens : List Nat) : kraftTo m l lens ≤ kraft m lens := by
  induction lens with
  | nil => exact Nat.le_refl _
  | cons x lens ih =>
    rw [kraftTo, kraft, List.map_cons, List.map_cons, List.sum_cons, List.sum_cons]
    refine Nat.add_le_add ?_ ih
    split
    · exact Nat.le_refl _
    · exact Nat.zero_le _

private theorem kraftTo_self (h : ∀ x ∈ lens, x ≤ m) : kraftTo m m lens = kraft m lens := by
  rw [kraftTo, kraft, List.map_congr_left fun x hx => if_pos (h x hx)]

private theorem kraftTo_eq (lens : List Nat) (hl : l ≤ m) :
    2 ^ (m - l) * (first lens l + count lens l) = kraftTo m l lens := by
  induction l with
  | zero => rw [kraftTo_zero, first, count_zero, Nat.mul_zero]
  | succ l ih =>
    have hpow : 2 ^ (m - l) = 2 ^ (m - (l + 1)) * 2 := by
      rw [← Nat.pow_succ]
      congr 1
      omega
    rw [kraftTo_succ, ← ih (by omega), hpow, first, count_pos (Nat.succ_ne_zero l), Nat.mul_add, Nat.mul_assoc]

/-- **The words of a length fit in that length.** -/
theorem first_add_count_le (h : Fits m lens) (hl : l ≤ m) : first lens l + count lens l ≤ 2 ^ l := by
  have hroom : 2 ^ (m - l) * (first lens l + count lens l) ≤ 2 ^ (m - l) * 2 ^ l := by
    rw [kraftTo_eq lens hl, ← Nat.pow_add, Nat.sub_add_cancel hl]
    exact Nat.le_trans (kraftTo_le m l lens) h.kraft
  exact Nat.le_of_mul_le_mul_left hroom (Nat.two_pow_pos _)

/-- Behind the longest words stands what the code uses up. -/
theorem first_add_count_eq (h : ∀ x ∈ lens, x ≤ m) : first lens m + count lens m = kraft m lens := by
  have heq := kraftTo_eq lens (Nat.le_refl m)
  rwa [Nat.sub_self, Nat.pow_zero, Nat.one_mul, kraftTo_self h] at heq

/-- **A longer word, cut off, lies behind all the shorter ones.** -/
theorem first_le (lens : List Nat) {L : Nat} (h : l < L) :
    2 ^ (L - l) * (first lens l + count lens l) ≤ first lens L := by
  induction L with
  | zero => omega
  | succ L ih =>
    rw [first]
    rcases Nat.lt_or_eq_of_le (Nat.le_of_lt_succ h) with hlt | rfl
    · have hpow : 2 ^ (L + 1 - l) = 2 * 2 ^ (L - l) := by
        rw [← Nat.pow_succ', Nat.succ_sub (Nat.le_of_lt hlt)]
      rw [hpow, Nat.mul_assoc]
      exact Nat.mul_le_mul_left 2 (Nat.le_trans (ih hlt) (Nat.le_add_right _ _))
    · rw [Nat.add_sub_cancel_left, Nat.pow_one]

/-- The words of a symbol's length are as many as come before it, and itself. -/
theorem rank_lt (hs : s < lens.length) (hl : lens.getD s 0 ≠ 0) : rank lens s < count lens (lens.getD s 0) := by
  have hget : lens.getD s 0 = lens[s] := by
    rw [List.getD_eq_getElem?_getD, List.getElem?_eq_getElem hs, Option.getD_some]
  have hsplit : lens.count lens[s] = (lens.take s).count lens[s] + (lens.drop s).count lens[s] := by
    rw [← List.count_append, List.take_append_drop]
  have hone : 0 < (lens.drop s).count lens[s] := by
    rw [List.drop_eq_getElem_cons hs, List.count_cons_self]
    exact Nat.succ_pos _
  rw [count_pos hl, rank, hget]
  omega

end Canonical
