import Mathlib.Data.Nat.Prime.Basic
import WuBuOS.Jit.Encoder
import WuBuOS.Lib.Reciprocal

/-!
# Division by a constant

`mc_magic_sdiv` and `mc_emit_div_const` of `jit/jit_minic_expr.c`.  A division by a constant that is not a power of two
is a multiplication by a reciprocal, which is a fraction with a power of two below.  A loop doubles that power until the
reciprocal is good enough.

The loop ends, and within 63 rounds (`exists_firstStop`).  It is one for unsigned numbers, though, with the limit of
the one for signed numbers, and for some divisors it stops a round too early.  The quotients are right exactly for the
divisors for which it does not (`magic_sdiv_iff`).
-/

namespace WuBuOS.Jit

open Reciprocal
open Function (update)

/-! ## The reciprocal -/

/-- What `mc_magic_sdiv` counts with: quotients and remainders of `2 ^ p` by `anc` and by `ad`. -/
structure MagicState where
  q1 : BitVec 64
  r1 : BitVec 64
  q2 : BitVec 64
  r2 : BitVec 64
  p : Nat

/-- A quotient and a remainder by `n` are doubled. -/
def doubled (n q r : BitVec 64) : BitVec 64 × BitVec 64 :=
  if n ≤ 2 * r then (2 * q + 1, 2 * r - n) else (2 * q, 2 * r)

/-- The body of the loop. -/
def MagicState.step (ad anc : BitVec 64) (s : MagicState) : MagicState where
  q1 := (doubled anc s.q1 s.r1).1
  r1 := (doubled anc s.q1 s.r1).2
  q2 := (doubled ad s.q2 s.r2).1
  r2 := (doubled ad s.q2 s.r2).2
  p := s.p + 1

/-- The loop goes on. -/
def MagicState.again (ad : BitVec 64) (s : MagicState) : Bool :=
  let delta := ad - 1 - s.r2
  s.q1 < delta || (s.q1 == delta && s.r1 == 0)

/-- The loop; nothing if it has not ended after so many rounds. -/
def magicLoop (ad anc : BitVec 64) : Nat → MagicState → Option MagicState
  | 0, _ => none
  | n + 1, s =>
    let s := s.step ad anc
    if s.again ad then magicLoop ad anc n s else some s

/-- `(uint64_t)(d < 0 ? -d : d)`. -/
def magnitude (d : BitVec 64) : BitVec 64 := if d.slt 0 then -d else d

def two63 : BitVec 64 := 1#64 <<< 63

/-- `anc`. -/
def ancOf (ad : BitVec 64) : BitVec 64 := two63 - 1 - (two63 - 1) % ad

/-- `mc_magic_sdiv`: the multiplier and the shift, if it returns 0. -/
def mcMagicSdiv (fuel : Nat) (d : BitVec 64) : Option (Option (BitVec 64 × Int)) :=
  if d = 0 ∨ d = 1 ∨ d = -1 then some none
  else if d = .intMin 64 then some none
  else
    let ad := magnitude d
    if ad &&& (ad - 1) = 0 then some none
    else
      let anc := ancOf ad
      (magicLoop ad anc fuel ⟨two63 / anc, two63 % anc, two63 / ad, two63 % ad, 63⟩).map fun s =>
        let m := s.q2 + 1
        if m = 0 then none else some (m, (s.p : Int) - 64)

/-! ## The code -/

/-- The exponent of a power of two, `while (t > 1) { t >>= 1; k++; }`. -/
def exponentLoop : Nat → BitVec 64 → Nat → Nat
  | 0, _, k => k
  | n + 1, t, k => if 1 < t then exponentLoop n (t >>> 1) (k + 1) else k

/-- The branch for a divisor that is not a power of two, with a multiplier and a shift. -/
def emitMagic (r1 r2 : Wx86Reg) (m : BitVec 64) (s : Int) : List Wx86Call :=
  [.movRegImm64 r2 m, .imulRaxRm r2] ++ (if m.slt 0 then [.addRegReg .rdx r1] else []) ++
    (if 0 < s then [.sarRegImm8 .rdx (UInt8.ofNat s.toNat)] else []) ++
    [.movRegReg .rax .rdx, .sarRegImm8 r1 63, .subRegReg .rax r1]

/-- `mc_emit_div_const`; `regs` are the registers that `xra_alloc_evict` has returned, if it has. -/
def mcEmitDivConst (fuel : Nat) (regs : Option (Wx86Reg × Wx86Reg)) (src : Wx86Reg) (d : BitVec 64) :
    Option (List Wx86Call) :=
  let toRax : List Wx86Call := if src ≠ .rax then [.movRegReg .rax src] else []
  if d = 1 then some toRax
  else if d = -1 then some (toRax ++ [.negReg .rax])
  else
    match regs with
    | none => some [.movRegReg .rax src, .movRegReg .rcx src, .cqo, .idivReg .rcx]
    | some (r1, r2) =>
      let ad := magnitude d
      let neg : List Wx86Call := if d.slt 0 then [.negReg .rax] else []
      if ad &&& (ad - 1) = 0 then
        some ([.movRegReg .rax src, .movRegReg r1 src, .movRegReg r2 src, .sarRegImm8 r2 63,
          .andRegImm32 r2 ((ad - 1).truncate 32), .addRegReg .rax r2,
          .sarRegImm8 .rax (UInt8.ofNat (exponentLoop 64 ad 0))] ++ neg)
      else
        (mcMagicSdiv fuel d).map fun
          | some (m, s) => [.movRegReg .rax src, .movRegReg r1 src] ++ emitMagic r1 r2 m s ++ neg
          | none => [.movRegReg .rax src, .movRegReg r1 src, .movRegReg .rcx src, .cqo, .idivReg .rcx] ++ neg

/-- What a call's instruction does to the registers, for the calls of the branch with a multiplier. -/
def Wx86Call.apply (g : Wx86Reg → BitVec 64) : Wx86Call → Option (Wx86Reg → BitVec 64)
  | .movRegReg dst src => some (update g dst (g src))
  | .movRegImm64 dst imm => some (update g dst imm)
  | .addRegReg dst src => some (update g dst (g dst + g src))
  | .subRegReg dst src => some (update g dst (g dst - g src))
  | .negReg dst => some (update g dst (-g dst))
  | .sarRegImm8 dst n => some (update g dst ((g dst).sshiftRight (n.toNat % 64)))
  | .imulRaxRm rm =>
    let product := (g .rax).toInt * (g rm).toInt
    some (update (update g .rdx (.ofInt 64 (product / 2 ^ 64))) .rax (.ofInt 64 product))
  | _ => none

/-- One instruction after the other. -/
def applyAll : List Wx86Call → (Wx86Reg → BitVec 64) → Option (Wx86Reg → BitVec 64)
  | [], g => some g
  | c :: cs, g => (c.apply g).bind (applyAll cs)

/-- **The quotient that is computed**: the high half of the product, corrected if the multiplier is negative as a signed
number, shifted, with one added if `x` is negative, and negated if the divisor is. -/
def magicQuotient (d m : BitVec 64) (s : Int) (x : BitVec 64) : BitVec 64 :=
  let hi : BitVec 64 := .ofInt 64 (x.toInt * m.toInt / 2 ^ 64)
  let hi := if m.slt 0 then hi + x else hi
  let q := hi.sshiftRight s.toNat - x.sshiftRight 63
  if d.slt 0 then -q else q

theorem applyAll_append (c c' : List Wx86Call) (g : Wx86Reg → BitVec 64) :
    applyAll (c ++ c') g = (applyAll c g).bind (applyAll c') := by
  induction c generalizing g with
  | nil => rfl
  | cons i c ih =>
    rw [List.cons_append, applyAll, applyAll, Option.bind_assoc]
    exact congrArg (Option.bind _) (funext ih)

theorem applyAll_trans {c c' : List Wx86Call} {g g' g'' : Wx86Reg → BitVec 64} (h : applyAll c g = some g')
    (h' : applyAll c' g' = some g'') : applyAll (c ++ c') g = some g'' := by
  rw [applyAll_append, h, Option.bind_some, h']

/-- An instruction that is left out where it is not needed. -/
theorem applyAll_ite {p : Prop} [Decidable p] {c : Wx86Call} {g g' : Wx86Reg → BitVec 64} (h : c.apply g = some g') :
    applyAll (if p then [c] else []) g = some (if p then g' else g) := by
  split
  · rw [applyAll, h]
    rfl
  · rfl

section

variable {r1 r2 src : Wx86Reg} {d m : BitVec 64} {s : Int} {g : Wx86Reg → BitVec 64}

/-- The product is in RDX, and the dividend still in the first register. -/
theorem applyAll_product (src : Wx86Reg) (m : BitVec 64) (h12 : r1 ≠ r2) (h1a : r1 ≠ .rax) (h1d : r1 ≠ .rdx) (h2a : r2 ≠ .rax) :
    ∃ g', applyAll ([.movRegReg .rax src, .movRegReg r1 src] ++ [.movRegImm64 r2 m, .imulRaxRm r2]) g = some g' ∧
      g' .rdx = .ofInt 64 ((g src).toInt * m.toInt / 2 ^ 64) ∧ g' r1 = g src := by
  have hsrc : update g .rax (g src) src = g src := by
    rcases eq_or_ne src .rax with rfl | hne
    · rw [Function.update_self]
    · rw [Function.update_of_ne hne]
  refine ⟨_, rfl, ?_, ?_⟩ <;> simp [hsrc, h12, h1a, h1d, h1a.symm, h2a.symm]

/-- The high half is corrected, and shifted. -/
theorem applyAll_shifted (m : BitVec 64) (h0 : 0 ≤ s) (h63 : s ≤ 63) (h1d : r1 ≠ .rdx) (g : Wx86Reg → BitVec 64) :
    ∃ g', applyAll ((if m.slt 0 then [.addRegReg .rdx r1] else []) ++
        (if 0 < s then [.sarRegImm8 .rdx (UInt8.ofNat s.toNat)] else [])) g = some g' ∧
      g' .rdx = (if m.slt 0 then g .rdx + g r1 else g .rdx).sshiftRight s.toNat ∧ g' r1 = g r1 := by
  rw [applyAll_append, applyAll_ite rfl, Option.bind_some, applyAll_ite rfl]
  refine ⟨_, rfl, ?_, ?_⟩
  · have hamount : (UInt8.ofNat s.toNat).toNat % 64 = s.toNat := by
      rw [UInt8.toNat_ofNat']
      omega
    rw [hamount]
    rcases Int.lt_or_le 0 s with hpos | hzero
    · rw [if_pos hpos, Function.update_self]
      split <;> simp
    · obtain rfl : s = 0 := Int.le_antisymm hzero h0
      rw [if_neg (Int.lt_irrefl 0)]
      split <;> simp
  · split <;> split <;> simp [h1d]

/-- The sign of the dividend is taken off, and the sign of the divisor put on. -/
theorem applyAll_signed (d : BitVec 64) (h1a : r1 ≠ .rax) (g : Wx86Reg → BitVec 64) :
    ∃ g', applyAll ([.movRegReg .rax .rdx, .sarRegImm8 r1 63, .subRegReg .rax r1] ++
        (if d.slt 0 then [.negReg .rax] else [])) g = some g' ∧
      g' .rax = if d.slt 0 then -((g .rdx) - (g r1).sshiftRight 63) else (g .rdx) - (g r1).sshiftRight 63 := by
  rw [applyAll_append]
  refine ⟨_, (congrArg (Option.bind · _) rfl).trans (applyAll_ite rfl), ?_⟩
  split <;> simp [h1a, h1a.symm]

/-- The code of the branch leaves it in RAX, if neither of its two registers is one that a product is in. -/
theorem applyAll_emitMagic (h0 : 0 ≤ s) (h63 : s ≤ 63) (h12 : r1 ≠ r2) (h1a : r1 ≠ .rax) (h1d : r1 ≠ .rdx)
    (h2a : r2 ≠ .rax) (g : Wx86Reg → BitVec 64) :
    ∃ g', applyAll ([.movRegReg .rax src, .movRegReg r1 src] ++ emitMagic r1 r2 m s ++
        (if d.slt 0 then [.negReg .rax] else [])) g = some g' ∧ g' .rax = magicQuotient d m s (g src) := by
  obtain ⟨g1, hg1, hhi, hx⟩ := applyAll_product (g := g) src m h12 h1a h1d h2a
  obtain ⟨g2, hg2, hq, hx2⟩ := applyAll_shifted m h0 h63 h1d g1
  obtain ⟨g3, hg3, hres⟩ := applyAll_signed d h1a g2
  refine ⟨g3, ?_, ?_⟩
  · have hall := applyAll_trans hg1 (applyAll_trans hg2 hg3)
    simp only [emitMagic, List.append_assoc] at hall ⊢
    exact hall
  · rw [hres, hq, hx2, hhi, hx]
    rfl

/-- `mc_emit_div_const` emits this code if there is a multiplier. -/
theorem mcEmitDivConst_magic {fuel : Nat} (h : mcMagicSdiv fuel d = some (some (m, s))) :
    mcEmitDivConst fuel (some (r1, r2)) src d = some ([.movRegReg .rax src, .movRegReg r1 src] ++ emitMagic r1 r2 m s ++
      (if d.slt 0 then [.negReg .rax] else [])) := by
  have hcode := h
  rw [mcMagicSdiv] at h
  split at h
  · cases h
  split at h
  · cases h
  rename_i hunit hmin
  obtain ⟨-, hone, hneg⟩ := not_or.1 hunit |>.imp_right not_or.1
  by_cases hpow : magnitude d &&& (magnitude d - 1) = 0
  · rw [if_pos hpow] at h
    cases h
  · simp only [mcEmitDivConst, if_neg hone, if_neg hneg, if_neg hpow, hcode, Option.map_some]

theorem mcEmitDivConst_leaves {fuel : Nat} (h : mcMagicSdiv fuel d = some (some (m, s))) (h0 : 0 ≤ s) (h63 : s ≤ 63)
    (h12 : r1 ≠ r2) (h1a : r1 ≠ .rax) (h1d : r1 ≠ .rdx) (h2a : r2 ≠ .rax) (g : Wx86Reg → BitVec 64) :
    ∃ c g', mcEmitDivConst fuel (some (r1, r2)) src d = some c ∧ applyAll c g = some g' ∧
      g' .rax = magicQuotient d m s (g src) := by
  obtain ⟨g', hrun, hres⟩ := @applyAll_emitMagic r1 r2 src d m s h0 h63 h12 h1a h1d h2a g
  exact ⟨_, g', mcEmitDivConst_magic h, hrun, hres⟩

end

/-! ## The loop -/

/-- `anc`: the last multiple of the divisor below `2 ^ 63`. -/
def lastMultiple (a : Nat) : Nat := 2 ^ 63 - 1 - (2 ^ 63 - 1) % a

/-- What is missing of `2 ^ p` to the next multiple. -/
def shortfall (a p : Nat) : Nat := a - 2 ^ p % a

/-- The loop stops at this power. -/
def MagicStops (a p : Nat) : Prop := lastMultiple a * (shortfall a p - 1) < 2 ^ p

/-- It is the first at which it does. -/
structure FirstStop (a p : Nat) : Prop where
  le : 64 ≤ p
  stops : MagicStops a p
  before : ∀ q, 64 ≤ q → q < p → ¬ MagicStops a q

/-- **The divisors for which the loop does not stop too early.** -/
def MagicFits (a : Nat) : Prop := ∀ p, FirstStop a p → (lastMultiple a - 1) * shortfall a p < 2 ^ p

variable {a p P : Nat} {ad anc n q r : BitVec 64} {s : MagicState}

/-- The quotient and the remainder of a number that is doubled. -/
theorem double_div_mod {n : Nat} (hn : 0 < n) (k : Nat) : 2 * k / n = 2 * (k / n) + (if n ≤ 2 * (k % n) then 1 else 0) ∧
      2 * k % n = 2 * (k % n) - (if n ≤ 2 * (k % n) then n else 0) := by
  have hdiv := Nat.div_add_mod k n
  have hmod := Nat.mod_lt k hn
  have hsplit : 2 * k = 2 * (k % n) + n * (2 * (k / n)) := by
    have : n * (2 * (k / n)) = 2 * (n * (k / n)) := by ring
    omega
  rw [hsplit, Nat.add_mul_div_left _ _ hn, Nat.add_mul_mod_self_left]
  split
  · rename_i hle
    rw [Nat.div_eq_of_lt_le (show 1 * n ≤ _ by omega) (by omega), Nat.mod_eq_sub_mod hle, Nat.mod_eq_of_lt (by omega)]
    omega
  · rename_i hlt
    rw [Nat.div_eq_of_lt (by omega), Nat.mod_eq_of_lt (by omega)]
    omega

/-- Doubling a quotient and a remainder, as long as nothing wraps. -/
theorem doubled_eq {k : Nat} (hn : n.toNat < 2 ^ 63) (hpos : 0 < n.toNat) (hq : q.toNat = k / n.toNat)
    (hr : r.toNat = k % n.toNat) (hlt : k / n.toNat < 2 ^ 63) :
    (doubled n q r).1.toNat = 2 * k / n.toNat ∧ (doubled n q r).2.toNat = 2 * k % n.toNat := by
  obtain ⟨hdiv, hmod⟩ := double_div_mod hpos k
  have hrlt := Nat.mod_lt k hpos
  have h2q : (2 * q).toNat = 2 * (k / n.toNat) := by
    rw [BitVec.toNat_mul, hq]
    exact Nat.mod_eq_of_lt (by simp; omega)
  have h2r : (2 * r).toNat = 2 * (k % n.toNat) := by
    rw [BitVec.toNat_mul, hr]
    exact Nat.mod_eq_of_lt (by simp; omega)
  have hiff : n ≤ 2 * r ↔ n.toNat ≤ 2 * (k % n.toNat) := by rw [BitVec.le_def, h2r]
  rw [doubled, hdiv, hmod]
  by_cases hle : n ≤ 2 * r
  · rw [if_pos hle, if_pos (hiff.1 hle), if_pos (hiff.1 hle)]
    refine ⟨?_, ?_⟩
    · rw [BitVec.toNat_add, h2q]
      exact Nat.mod_eq_of_lt (by simp; omega)
    · rw [BitVec.toNat_sub_of_le hle, h2r]
  · rw [if_neg hle, if_neg (mt hiff.2 hle), if_neg (mt hiff.2 hle)]
    exact ⟨h2q, h2r⟩

/-- The quotients and remainders are those of this power. -/
structure MagicState.At (a p : Nat) (s : MagicState) : Prop where
  q1 : s.q1.toNat = 2 ^ p / lastMultiple a
  r1 : s.r1.toNat = 2 ^ p % lastMultiple a
  q2 : s.q2.toNat = 2 ^ p / a
  r2 : s.r2.toNat = 2 ^ p % a
  p : s.p = p

/-- A divisor that the loop is for: less than `2 ^ 63`, and not a power of two. -/
structure Divisor (a : Nat) : Prop where
  three : 3 ≤ a
  lt : a < 2 ^ 63
  notPow : ¬ a.isPowerOfTwo

theorem Divisor.lastMultiple (h : Divisor a) : LastMultiple a (2 ^ 63) (lastMultiple a) := by
  have hdiv := Nat.div_add_mod (2 ^ 63 - 1) a
  have hmod := Nat.mod_lt (2 ^ 63 - 1) (show 0 < a by have := h.three; omega)
  have heq : Jit.lastMultiple a = a * ((2 ^ 63 - 1) / a) := by
    rw [Jit.lastMultiple]
    omega
  have hlt := h.lt
  refine ⟨?_, ⟨_, heq⟩, ?_, ?_⟩
  · rw [Jit.lastMultiple]
    omega
  · rw [Jit.lastMultiple]
    omega
  · -- otherwise the next multiple would be the power of two itself
    rw [Jit.lastMultiple]
    rcases Nat.lt_or_ge (2 ^ 63) (2 ^ 63 - 1 - (2 ^ 63 - 1) % a + a) with hgood | hbad
    · exact hgood
    · have hdvd : a ∣ 2 ^ 63 := ⟨(2 ^ 63 - 1) / a + 1, by rw [Nat.mul_add]; omega⟩
      obtain ⟨k, -, hk⟩ := (Nat.dvd_prime_pow Nat.prime_two).1 hdvd
      exact absurd ⟨k, hk⟩ h.notPow

theorem lastMultiple_lt (a : Nat) : lastMultiple a < 2 ^ 63 := by
  rw [lastMultiple]
  omega

/-- As long as the loop has not stopped, nothing is about to wrap. -/
theorem lt_of_not_stops (h : Divisor a) (hnot : ¬ MagicStops a p) :
    2 ^ p / lastMultiple a < 2 ^ 63 ∧ 2 ^ p / a < lastMultiple a ∧ p < 126 := by
  have hN := h.lastMultiple
  have hNlt := lastMultiple_lt a
  have hlt := h.lt
  have hle : 2 ^ p ≤ Jit.lastMultiple a * (a - 1) := by
    refine Nat.le_trans (Nat.le_of_not_lt hnot) (Nat.mul_le_mul_left _ ?_)
    rw [shortfall]
    omega
  refine ⟨?_, ?_, ?_⟩
  · refine Nat.lt_of_le_of_lt (Nat.div_le_div_right hle) ?_
    rw [Nat.mul_div_cancel_left _ hN.pos]
    omega
  · have hthree := h.three
    refine (Nat.div_lt_iff_lt_mul (by omega)).2 (Nat.lt_of_le_of_lt hle ?_)
    exact Nat.mul_lt_mul_of_pos_left (by omega) hN.pos
  · refine (Nat.pow_lt_pow_iff_right (a := 2) (by decide)).1 (Nat.lt_of_le_of_lt hle ?_)
    rw [show 2 ^ 126 = 2 ^ 63 * 2 ^ 63 from rfl]
    exact Nat.mul_lt_mul_of_lt_of_le hNlt (by omega) (by decide)

/-- **The loop ends**, and not after more than 63 rounds. -/
theorem Divisor.exists_firstStop (h : Divisor a) : ∃ p, FirstStop a p ∧ p ≤ 126 := by
  classical
  have hex : ∃ p, 64 ≤ p ∧ MagicStops a p := ⟨126, by decide, by
    by_contra hnot
    have := (lt_of_not_stops h hnot).2.2
    omega⟩
  refine ⟨Nat.find hex, ⟨(Nat.find_spec hex).1, (Nat.find_spec hex).2, fun q hq hlt hs => Nat.find_min hex hlt ⟨hq, hs⟩⟩, ?_⟩
  by_contra hbig
  have hlast : ¬ MagicStops a 126 := fun hs => Nat.find_min hex (Nat.lt_of_not_le hbig) ⟨by decide, hs⟩
  have := (lt_of_not_stops h hlast).2.2
  omega

theorem FirstStop.unique {P' : Nat} (h : FirstStop a P) (h' : FirstStop a P') : P = P' := by
  rcases Nat.lt_trichotomy P P' with hlt | heq | hgt
  · exact absurd h.stops (h'.before P h.le hlt)
  · exact heq
  · exact absurd h'.stops (h.before P' h'.le hgt)

/-- Before the loop stops, the quotients are small. -/
theorem FirstStop.small (hP : FirstStop a P) (h : Divisor a) (h63 : 63 ≤ p) (hlt : p < P) :
    2 ^ p / lastMultiple a < 2 ^ 63 ∧ 2 ^ p / a < lastMultiple a := by
  rcases Nat.eq_or_lt_of_le h63 with rfl | h64
  · have hN := h.lastMultiple
    have hlast := hN.lt
    have hthree := h.three
    have hle := Nat.le_of_dvd hN.pos hN.dvd
    refine ⟨Nat.div_lt_self (by decide) (by omega), ?_⟩
    refine Nat.lt_of_le_of_lt (Nat.div_le_div_left hthree (by decide)) ?_
    omega
  · have := lt_of_not_stops h (hP.before p h64 hlt)
    exact ⟨this.1, this.2.1⟩

/-- One round. -/
theorem MagicState.At.step (h : Divisor a) (hs : s.At a p) (had : ad.toNat = a) (hanc : anc.toNat = lastMultiple a)
    (hq1 : 2 ^ p / lastMultiple a < 2 ^ 63) (hq2 : 2 ^ p / a < 2 ^ 63) : (s.step ad anc).At a (p + 1) := by
  have hlt := h.lt
  have hthree := h.three
  have hN := h.lastMultiple.pos
  have hNlt := lastMultiple_lt a
  have h1 := doubled_eq (n := anc) (q := s.q1) (r := s.r1) (k := 2 ^ p) (by omega) (by omega) (by rw [hanc, hs.q1]) (by rw [hanc, hs.r1])
    (by rwa [hanc])
  have h2 := doubled_eq (n := ad) (q := s.q2) (r := s.r2) (k := 2 ^ p) (by omega) (by omega) (by rw [had, hs.q2]) (by rw [had, hs.r2])
    (by rwa [had])
  rw [hanc, ← Nat.pow_succ'] at h1
  rw [had, ← Nat.pow_succ'] at h2
  exact ⟨h1.1, h1.2, h2.1, h2.2, congrArg Nat.succ hs.p⟩

/-- The condition of the loop. -/
theorem MagicState.At.again_iff (h : Divisor a) (hs : s.At a p) (had : ad.toNat = a) :
    s.again ad = true ↔ ¬ MagicStops a p := by
  have hthree := h.three
  have hN := h.lastMultiple.pos
  have hr2 := Nat.mod_lt (2 ^ p) (show 0 < a by omega)
  have hdelta : (ad - 1 - s.r2).toNat = shortfall a p - 1 := by
    have h1 : (ad - 1).toNat = a - 1 := by
      rw [BitVec.toNat_sub_of_le (by rw [BitVec.le_def, had]; simp; omega), had]
      rfl
    rw [BitVec.toNat_sub_of_le (by rw [BitVec.le_def, h1, hs.r2]; omega), h1, hs.r2, shortfall]
    omega
  have hdiv := Nat.div_add_mod (2 ^ p) (lastMultiple a)
  have hmod := Nat.mod_lt (2 ^ p) hN
  rw [MagicState.again, MagicStops]
  simp only [Bool.or_eq_true, Bool.and_eq_true, decide_eq_true_eq, beq_iff_eq, BitVec.lt_def, ← BitVec.toNat_inj, hdelta,
    hs.q1, hs.r1, not_lt]
  rw [show (0 : BitVec 64).toNat = 0 from rfl]
  constructor
  · rintro (hlt | ⟨heq, hzero⟩)
    · calc 2 ^ p ≤ lastMultiple a * (2 ^ p / lastMultiple a + 1) := by rw [Nat.mul_add]; omega
        _ ≤ lastMultiple a * (shortfall a p - 1) := Nat.mul_le_mul_left _ hlt
    · rw [← heq]
      omega
  · intro hle
    rcases Nat.lt_trichotomy (2 ^ p / lastMultiple a) (shortfall a p - 1) with hlt | heq | hgt
    · exact .inl hlt
    · rw [heq] at hdiv
      exact .inr ⟨heq, by omega⟩
    · have := Nat.mul_le_mul_left (lastMultiple a) (Nat.succ_le_of_lt hgt)
      rw [Nat.mul_succ] at this
      omega

/-- **Where the loop stops.** -/
theorem magicLoop_eq (h : Divisor a) (hP : FirstStop a P) (had : ad.toNat = a) (hanc : anc.toNat = lastMultiple a) :
    ∀ (n p : Nat) (s : MagicState), s.At a p → 63 ≤ p → p < P → P ≤ p + n →
      ∃ s', magicLoop ad anc n s = some s' ∧ s'.At a P
  | 0, p, s, _, _, hlt, hle => absurd hlt (by omega)
  | n + 1, p, s, hs, h63, hlt, hle => by
    have hsmall := hP.small h h63 hlt
    have hs' := hs.step h had hanc hsmall.1 (hsmall.2.trans (lastMultiple_lt a))
    rw [magicLoop]
    by_cases hstop : MagicStops a (p + 1)
    · have hPeq : P = p + 1 := by
        by_contra hne
        exact hP.before (p + 1) (by omega) (by omega) hstop
      have hagain : (s.step ad anc).again ad = false := by
        rw [← Bool.not_eq_true, hs'.again_iff h had, not_not]
        exact hstop
      refine ⟨s.step ad anc, ?_, hPeq ▸ hs'⟩
      rw [hagain]
      rfl
    · have hne : p + 1 ≠ P := fun heq => hstop (heq ▸ hP.stops)
      obtain ⟨s', hloop, hat⟩ := magicLoop_eq h hP had hanc n (p + 1) (s.step ad anc) hs' (by omega) (by omega) (by omega)
      refine ⟨s', ?_, hat⟩
      rw [(hs'.again_iff h had).2 hstop, if_pos rfl, hloop]

theorem toNat_magnitude (d : BitVec 64) : (magnitude d).toNat = d.toInt.natAbs := by
  have hcond := BitVec.toInt_eq_toNat_cond d
  rw [magnitude]
  split
  · rename_i hneg
    rw [BitVec.slt_iff_toInt_lt] at hneg
    have hzero : (0 : BitVec 64).toInt = 0 := rfl
    rw [BitVec.toNat_neg]
    split at hcond <;> omega
  · rename_i hpos
    rw [BitVec.slt_iff_toInt_lt] at hpos
    have hzero : (0 : BitVec 64).toInt = 0 := rfl
    split at hcond <;> omega

/-- The multiplier is not too large. -/
theorem FirstStop.multiplier_lt (hP : FirstStop a P) (h : Divisor a) : 2 ^ P / a + 1 < 2 ^ 64 := by
  have hle := hP.le
  have hsmall := (hP.small h (p := P - 1) (by omega) (by omega)).2
  have hlt := lastMultiple_lt a
  have hpow : 2 ^ P = 2 * 2 ^ (P - 1) := by
    rw [← Nat.pow_succ']
    congr 1
    omega
  have hdouble := (double_div_mod (show 0 < a by have := h.three; omega) (2 ^ (P - 1))).1
  rw [← hpow] at hdouble
  rw [hdouble]
  split <;> omega

/-- **What `mc_magic_sdiv` returns.** -/
theorem mcMagicSdiv_eq {d : BitVec 64} {fuel : Nat} (h : Divisor d.toInt.natAbs) (hP : FirstStop d.toInt.natAbs P)
    (h126 : P ≤ 126) (hfuel : 63 ≤ fuel) :
    mcMagicSdiv fuel d = some (some (.ofNat 64 (2 ^ P / d.toInt.natAbs + 1), (P : Int) - 64)) := by
  have hthree := h.three
  have hmag := toNat_magnitude d
  have hsub : (magnitude d - 1).toNat = d.toInt.natAbs - 1 := by
    rw [BitVec.toNat_sub_of_le (by rw [BitVec.le_def, hmag]; simp; omega), hmag]
    rfl
  have hspecial : ¬ (d = 0 ∨ d = 1 ∨ d = -1) := by
    rintro (rfl | rfl | rfl) <;> exact absurd hthree (by decide)
  have hmin : d ≠ .intMin 64 := by
    rintro rfl
    exact absurd h.lt (by decide)
  have hpow : ¬ magnitude d &&& (magnitude d - 1) = 0 := by
    intro hand
    have := congrArg BitVec.toNat hand
    rw [BitVec.toNat_and, hmag, hsub] at this
    exact h.notPow ((Nat.and_sub_one_eq_zero_iff_isPowerOfTwo (by omega)).1 this)
  have h63 : two63.toNat = 2 ^ 63 := rfl
  have hanc : (ancOf (magnitude d)).toNat = lastMultiple d.toInt.natAbs := by
    have h1 : (two63 - 1).toNat = 2 ^ 63 - 1 := rfl
    have hle := Nat.mod_le (2 ^ 63 - 1) d.toInt.natAbs
    rw [ancOf, BitVec.toNat_sub_of_le (by rw [BitVec.le_def, BitVec.toNat_umod, h1, hmag]; exact hle), BitVec.toNat_umod,
      h1, hmag, lastMultiple]
  obtain ⟨s', hloop, hat⟩ := magicLoop_eq h hP hmag hanc fuel 63
    ⟨two63 / ancOf (magnitude d), two63 % ancOf (magnitude d), two63 / magnitude d, two63 % magnitude d, 63⟩
    ⟨by rw [BitVec.toNat_udiv, hanc, h63], by rw [BitVec.toNat_umod, hanc, h63], by rw [BitVec.toNat_udiv, hmag, h63],
      by rw [BitVec.toNat_umod, hmag, h63], rfl⟩ (Nat.le_refl 63) hP.le (by omega)
  have hm : s'.q2 + 1 = .ofNat 64 (2 ^ P / d.toInt.natAbs + 1) := by
    rw [← BitVec.toNat_inj, BitVec.toNat_add, hat.q2, BitVec.toNat_ofNat]
    rfl
  have hne : (BitVec.ofNat 64 (2 ^ P / d.toInt.natAbs + 1)) ≠ 0 := by
    intro hzero
    have hlt := hP.multiplier_lt h
    have := congrArg BitVec.toNat hzero
    rw [BitVec.toNat_ofNat, Nat.mod_eq_of_lt hlt] at this
    exact absurd this (Nat.succ_ne_zero _)
  rw [mcMagicSdiv, if_neg hspecial, if_neg hmin]
  simp only [if_neg hpow]
  rw [hloop, Option.map_some, hm, if_neg hne, hat.p]

/-! ## The quotient -/

theorem toInt_ofInt_of_bounds {v : Int} (hlo : -2 ^ 63 ≤ v) (hhi : v < 2 ^ 63) : (BitVec.ofInt 64 v).toInt = v := by
  rw [BitVec.toInt_ofInt]
  exact Int.bmod_eq_of_le (by omega) (by omega)

/-- The high half of the product, corrected, is that of the product with the multiplier as an unsigned number. -/
theorem high_eq (m x : BitVec 64) :
    (if m.slt 0 then BitVec.ofInt 64 (x.toInt * m.toInt / 2 ^ 64) + x else .ofInt 64 (x.toInt * m.toInt / 2 ^ 64)) =
      .ofInt 64 (x.toInt * m.toNat / 2 ^ 64) := by
  have hcond := BitVec.toInt_eq_toNat_cond m
  have hzero : (0 : BitVec 64).toInt = 0 := rfl
  split
  · rename_i hneg
    rw [BitVec.slt_iff_toInt_lt] at hneg
    have hm : m.toInt = m.toNat - 2 ^ 64 := by
      split at hcond <;> omega
    have hprod : x.toInt * m.toInt / 2 ^ 64 = x.toInt * m.toNat / 2 ^ 64 - x.toInt := by
      rw [hm, Int.mul_sub, Int.sub_eq_add_neg, ← Int.neg_mul, Int.add_mul_ediv_right _ _ (by decide)]
      omega
    calc BitVec.ofInt 64 (x.toInt * m.toInt / 2 ^ 64) + x
        = .ofInt 64 (x.toInt * m.toNat / 2 ^ 64 - x.toInt) + .ofInt 64 x.toInt := by rw [hprod, BitVec.ofInt_toInt]
      _ = .ofInt 64 (x.toInt * m.toNat / 2 ^ 64) := by rw [← BitVec.ofInt_add, Int.sub_add_cancel]
  · rename_i hpos
    rw [BitVec.slt_iff_toInt_lt] at hpos
    have hm : m.toInt = m.toNat := by
      split at hcond <;> omega
    rw [hm]

/-- **What is computed**, as a number. -/
theorem toInt_magicQuotient (d m x : BitVec 64) (s : Int) : (magicQuotient d m s x).toInt =
      if d.toInt < 0 then -(x.toInt * m.toNat / (2 ^ (64 + s.toNat) : Nat) + if x.toInt < 0 then 1 else 0)
      else x.toInt * m.toNat / (2 ^ (64 + s.toNat) : Nat) + if x.toInt < 0 then 1 else 0 := by
  have hxlo : -2 ^ 63 ≤ x.toInt := BitVec.le_toInt x
  have hxhi : x.toInt < 2 ^ 63 := BitVec.toInt_lt
  have hM0 : (0 : Int) ≤ m.toNat := Int.natCast_nonneg _
  have hM : (m.toNat : Int) < 2 ^ 64 := by exact_mod_cast m.isLt
  have hlo : -2 ^ 63 ≤ x.toInt * m.toNat / 2 ^ 64 := by
    refine (Int.le_ediv_iff_mul_le (by decide)).2 ?_
    nlinarith
  have hhi : x.toInt * m.toNat / 2 ^ 64 < 2 ^ 63 := by
    refine Int.ediv_lt_of_lt_mul (by decide) ?_
    nlinarith
  -- shifting is division again
  have hshift : ((BitVec.ofInt 64 (x.toInt * m.toNat / 2 ^ 64)).sshiftRight s.toNat).toInt =
      x.toInt * m.toNat / (2 ^ (64 + s.toNat) : Nat) := by
    rw [BitVec.toInt_sshiftRight, toInt_ofInt_of_bounds hlo hhi, Int.shiftRight_eq_div_pow,
      Int.ediv_ediv_of_nonneg (by decide), Nat.pow_add, Int.natCast_mul, show ((2 ^ 64 : Nat) : Int) = 2 ^ 64 from rfl]
  have hnonneg : 0 ≤ x.toInt → 0 ≤ x.toInt * m.toNat / (2 ^ (64 + s.toNat) : Nat) := fun h =>
    Int.ediv_nonneg (Int.mul_nonneg h hM0) (Int.natCast_nonneg _)
  have hsign : x.toInt < 0 → x.toInt * m.toNat / (2 ^ (64 + s.toNat) : Nat) ≤ 0 := by
    intro hneg
    have hprod : x.toInt * m.toNat ≤ 0 := Int.mul_nonpos_of_nonpos_of_nonneg (Int.le_of_lt hneg) hM0
    have hpow : (0 : Int) < (2 ^ (64 + s.toNat) : Nat) := Int.natCast_pos.2 (Nat.two_pow_pos _)
    have := Int.ediv_le_ediv hpow hprod
    rwa [Int.zero_ediv] at this
  have hmask : (x.sshiftRight 63).toInt = if x.toInt < 0 then -1 else 0 := by
    rw [BitVec.toInt_sshiftRight, Int.shiftRight_eq_div_pow]
    split <;> omega
  have hqlo := BitVec.le_toInt ((BitVec.ofInt 64 (x.toInt * m.toNat / 2 ^ 64)).sshiftRight s.toNat)
  have hqhi := BitVec.toInt_lt (x := (BitVec.ofInt 64 (x.toInt * m.toNat / 2 ^ 64)).sshiftRight s.toNat)
  rw [hshift] at hqlo hqhi
  have hq : ((BitVec.ofInt 64 (x.toInt * m.toNat / 2 ^ 64)).sshiftRight s.toNat - x.sshiftRight 63).toInt =
      x.toInt * m.toNat / (2 ^ (64 + s.toNat) : Nat) + if x.toInt < 0 then 1 else 0 := by
    rw [BitVec.toInt_sub, hshift, hmask, Int.bmod_eq_of_le] <;> split <;> omega
  have hdneg : d.slt 0 = true ↔ d.toInt < 0 := BitVec.slt_iff_toInt_lt
  rw [magicQuotient, high_eq]
  by_cases hd : d.toInt < 0
  · rw [if_pos (hdneg.2 hd), if_pos hd, BitVec.toInt_neg, hq, Int.bmod_eq_of_le] <;> split <;> omega
  · rw [if_neg (mt hdneg.1 hd), if_neg hd, hq]

/-- The quotient by a multiplier and a power, whatever the sign of the divisor. -/
theorem magicQuotient_eq_tdiv_iff {d : BitVec 64} (h : Divisor d.toInt.natAbs) (hP : FirstStop d.toInt.natAbs P)
    (x : BitVec 64) :
    (magicQuotient d (.ofNat 64 (2 ^ P / d.toInt.natAbs + 1)) ((P : Int) - 64) x).toInt = x.toInt.tdiv d.toInt ↔
      x.toInt * (2 ^ P / d.toInt.natAbs + 1 : Nat) / (2 ^ P : Nat) + (if x.toInt < 0 then 1 else 0) =
        x.toInt.tdiv d.toInt.natAbs := by
  have hle := hP.le
  have hexp : 64 + ((P : Int) - 64).toNat = P := by omega
  rw [toInt_magicQuotient, BitVec.toNat_ofNat, Nat.mod_eq_of_lt (hP.multiplier_lt h), hexp]
  by_cases hd : d.toInt < 0
  · have habs : (d.toInt.natAbs : Int) = -d.toInt := by omega
    rw [if_pos hd, habs, Int.tdiv_neg]
    omega
  · have habs : (d.toInt.natAbs : Int) = d.toInt := by omega
    rw [if_neg hd, habs]

/-- The multiplier of the power that the loop stops at. -/
theorem FirstStop.trunc_iff (hP : FirstStop a P) (h : Divisor a) : (∀ x : Int, -2 ^ 63 ≤ x → x < 2 ^ 63 →
      x * (2 ^ P / a + 1 : Nat) / (2 ^ P : Nat) + (if x < 0 then 1 else 0) = x.tdiv a) ↔ MagicFits a := by
  have hle := hP.le
  have hpos : 0 < a := by
    have := h.three
    omega
  have hdiv := Nat.div_add_mod (2 ^ P) a
  have hmod := Nat.mod_lt (2 ^ P) hpos
  have hpow : 2 ^ P = 2 ^ 63 * 2 ^ (P - 63) := by
    rw [← Nat.pow_add]
    congr 1
    omega
  have hmul : (2 ^ P / a + 1) * a = 2 ^ P + shortfall a P := by
    rw [Nat.add_mul, Nat.mul_comm (2 ^ P / a), shortfall]
    omega
  have hshort : 0 < shortfall a P := Nat.sub_pos_of_lt hmod
  have hfits : MagicFits a ↔ (lastMultiple a - 1) * shortfall a P < 2 ^ P :=
    ⟨fun h => h P hP, fun h P' hP' => hP'.unique hP ▸ h⟩
  rw [hfits]
  exact Reciprocal.trunc_iff h.lastMultiple hpos hpow (Nat.two_pow_pos _) hmul hshort (Nat.sub_le _ _)

/-- **Dividing by a multiplication** is right, for all numbers, if and only if the loop does not stop too early. -/
theorem magic_sdiv_iff (d : BitVec 64) (h0 : d ≠ 0) (hpow : ∀ k, d.toInt.natAbs ≠ 2 ^ k) :
    (∃ m s, (∀ fuel, 63 ≤ fuel → mcMagicSdiv fuel d = some (some (m, s))) ∧ 0 ≤ s ∧ s ≤ 63 ∧
        ∀ x, (magicQuotient d m s x).toInt = x.toInt.tdiv d.toInt) ↔
      MagicFits d.toInt.natAbs := by
  have hdlo : -2 ^ 63 ≤ d.toInt := BitVec.le_toInt d
  have hdhi : d.toInt < 2 ^ 63 := BitVec.toInt_lt
  have hne : d.toInt ≠ 0 := fun h => h0 (BitVec.toInt_inj.1 h)
  have h : Divisor d.toInt.natAbs := by
    have h1 := hpow 0
    have h2 := hpow 1
    have h63 := hpow 63
    exact ⟨by omega, by omega, fun ⟨k, hk⟩ => hpow k hk⟩
  obtain ⟨P, hP, hP126⟩ := h.exists_firstStop
  have hle := hP.le
  have hall : (∀ x : BitVec 64, (magicQuotient d (.ofNat 64 (2 ^ P / d.toInt.natAbs + 1)) ((P : Int) - 64) x).toInt =
      x.toInt.tdiv d.toInt) ↔ MagicFits d.toInt.natAbs := by
    rw [← hP.trunc_iff h]
    constructor
    · intro hx v hlo hhi
      have hv : (BitVec.ofInt 64 v).toInt = v := toInt_ofInt_of_bounds hlo hhi
      have := (magicQuotient_eq_tdiv_iff h hP (.ofInt 64 v)).mp (hx _)
      rwa [hv] at this
    · intro hv x
      exact (magicQuotient_eq_tdiv_iff h hP x).2 (hv x.toInt (BitVec.le_toInt x) BitVec.toInt_lt)
  constructor
  · rintro ⟨m, s, hret, -, -, hx⟩
    have heq := (hret 63 (Nat.le_refl 63)).symm.trans (mcMagicSdiv_eq h hP hP126 (Nat.le_refl 63))
    cases Option.some.inj heq
    exact hall.1 hx
  · intro hgood
    exact ⟨_, _, fun fuel hfuel => mcMagicSdiv_eq h hP hP126 hfuel, by omega, by omega, hall.2 hgood⟩

/-- For the divisor 7 the loop stops at `2 ^ 65`. -/
theorem magic_sdiv_iff_seven : ∃ m s, (∀ fuel, 63 ≤ fuel → mcMagicSdiv fuel 7 = some (some (m, s))) ∧ 0 ≤ s ∧ s ≤ 63 ∧
    ∀ x, (magicQuotient 7 m s x).toInt = x.toInt.tdiv (7 : BitVec 64).toInt := by
  refine (magic_sdiv_iff 7 (by decide) fun k h => (by decide : ¬ Nat.isPowerOfTwo 7) ⟨k, h⟩).2 fun p (hp : FirstStop 7 p) => ?_
  have hle : p ≤ 65 := Nat.le_of_not_lt fun h => hp.before 65 (by decide) h (by rw [MagicStops]; decide)
  obtain rfl | rfl : p = 64 ∨ p = 65 := by
    have := hp.le
    omega
  · exact absurd hp.stops (by rw [MagicStops]; decide)
  · decide

/-- **A divisor for which the loop stops too early**, and a quotient that is too large by one. -/
theorem magic_sdiv_109 : (∀ k, (109 : BitVec 64).toInt.natAbs ≠ 2 ^ k) ∧
      mcMagicSdiv 63 109 = some (some (1353889473299783605, 3)) ∧
      (magicQuotient 109 1353889473299783605 3 9223372036854775774).toInt = 84618092081236475 ∧
      (9223372036854775774 : BitVec 64).toInt.tdiv (109 : BitVec 64).toInt = 84618092081236474 :=
  ⟨fun k h => (by decide : ¬ Nat.isPowerOfTwo 109) ⟨k, h⟩, by decide, by decide, by decide⟩

end WuBuOS.Jit
