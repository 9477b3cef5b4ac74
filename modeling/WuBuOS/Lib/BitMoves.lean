import Mathlib.Data.Int.NatAbs

/-!
# Moves by one bit

A machine may rotate or shift by `n` bits one bit at a time.  `BitMoves.rotateLeft_succ` and
`BitMoves.rotateRight_succ` are the last of these moves for the rotations; the shifts have theirs in the library of bit
vectors (`BitVec.shiftLeft_add` and so on).

A rotation through a carry is one of a word with one bit more, the carry in front; `BitMoves.cons_rotateLeft_succ` and
`BitMoves.cons_rotateRight_succ` take it apart again.
-/

namespace BitMoves

variable {w : Nat}

/-- A bit with zeros in front. -/
def lowBit (w : Nat) (b : Bool) : BitVec w := (BitVec.ofBool b).setWidth w

theorem getLsbD_lowBit (b : Bool) (i : Nat) : (lowBit w b).getLsbD i = (decide (i < w) && decide (i = 0) && b) := by
  rw [lowBit, BitVec.getLsbD_setWidth, BitVec.getLsbD_ofBool, Bool.and_assoc]

/-- A count goes up until the rotation has come round. -/
theorem succ_mod (n : Nat) (h : 0 < w) : (n + 1) % w = n % w + 1 ∧ n % w + 1 < w ∨ (n + 1) % w = 0 ∧ n % w + 1 = w := by
  have hdiv := Nat.div_add_mod n w
  rcases Nat.lt_or_eq_of_le (Nat.succ_le_of_lt (Nat.mod_lt n h)) with hless | heq
  · refine .inl ⟨?_, hless⟩
    rw [← hdiv, Nat.add_assoc, Nat.mul_add_mod, Nat.mod_eq_of_lt (by omega), Nat.mul_add_mod, Nat.mod_mod]
  · have heq : n % w + 1 = w := heq
    refine .inr ⟨?_, heq⟩
    rw [← hdiv, Nat.add_assoc, Nat.mul_add_mod, heq, Nat.mod_self]

/-! ## Rotations -/

/-- What goes in at the bottom. -/
theorem getLsbD_shiftIn (h : 0 < w) (x : BitVec w) (b : Bool) : (x <<< 1 ||| lowBit w b).getLsbD 0 = b := by
  rw [BitVec.getLsbD_or, BitVec.getLsbD_shiftLeft, getLsbD_lowBit]
  simp [h]

/-- What goes in at the top. -/
theorem msb_shiftIn (h : 0 < w) (x : BitVec w) (b : Bool) : (x >>> 1 ||| lowBit w b <<< (w - 1)).msb = b := by
  rw [BitVec.msb_eq_getLsbD_last, BitVec.getLsbD_or, BitVec.getLsbD_shiftLeft, getLsbD_lowBit, BitVec.getLsbD_ushiftRight,
    BitVec.getLsbD_of_ge x _ (by omega)]
  have hlast : w - 1 < w := by omega
  simp [hlast, h]

@[simp]
theorem rotateLeft_zero (x : BitVec w) : x.rotateLeft 0 = x :=
  BitVec.eq_of_getLsbD_eq fun i hi => by simp [hi]

@[simp]
theorem rotateRight_zero (x : BitVec w) : x.rotateRight 0 = x :=
  BitVec.eq_of_getLsbD_eq fun i hi => by simp [hi]

theorem rotateLeft_succ (x : BitVec w) (n : Nat) :
    x.rotateLeft (n + 1) = x.rotateLeft n <<< 1 ||| lowBit w (x.rotateLeft n).msb := by
  refine BitVec.eq_of_getLsbD_eq fun i hi => ?_
  have hw : 0 < w := by omega
  simp only [BitVec.getLsbD_or, getLsbD_lowBit, BitVec.getLsbD_shiftLeft, BitVec.getLsbD_rotateLeft,
    BitVec.msb_eq_getLsbD_last, hi, decide_true, Bool.true_and]
  rcases succ_mod n hw with ⟨hq, hlt'⟩ | ⟨hq, hlt'⟩ <;> rw [hq] <;> cases i <;> grind

theorem rotateRight_succ (x : BitVec w) (n : Nat) :
    x.rotateRight (n + 1) = x.rotateRight n >>> 1 ||| lowBit w ((x.rotateRight n).getLsbD 0) <<< (w - 1) := by
  refine BitVec.eq_of_getLsbD_eq fun i hi => ?_
  have hw : 0 < w := by omega
  simp only [BitVec.getLsbD_or, getLsbD_lowBit, BitVec.getLsbD_shiftLeft, BitVec.getLsbD_rotateRight,
    BitVec.getLsbD_ushiftRight, hi, decide_true, Bool.true_and]
  rcases succ_mod n hw with ⟨hq, hlt'⟩ | ⟨hq, hlt'⟩ <;> rw [hq] <;> by_cases hl : i = w - 1 <;> grind

/-! ## Rotations through a carry -/

/-- The bit in front goes in at the bottom, and the next one comes to the front. -/
theorem cons_rotateLeft_succ (h : 0 < w) (x : BitVec (w + 1)) (n : Nat) :
    (x.rotateLeft (n + 1)).setWidth w = (x.rotateLeft n).setWidth w <<< 1 ||| lowBit w (x.rotateLeft n).msb ∧
      (x.rotateLeft (n + 1)).msb = ((x.rotateLeft n).setWidth w).msb := by
  rw [rotateLeft_succ]
  generalize x.rotateLeft n = y
  constructor
  · refine BitVec.eq_of_getLsbD_eq fun i hi => ?_
    simp only [BitVec.getLsbD_setWidth, BitVec.getLsbD_or, getLsbD_lowBit, BitVec.getLsbD_shiftLeft]
    grind
  · simp only [BitVec.msb_eq_getLsbD_last, BitVec.getLsbD_or, getLsbD_lowBit, BitVec.getLsbD_shiftLeft,
      BitVec.getLsbD_setWidth]
    grind

/-- The bit in front goes in at the top, and the lowest one comes to the front. -/
theorem cons_rotateRight_succ (h : 0 < w) (x : BitVec (w + 1)) (n : Nat) : (x.rotateRight (n + 1)).setWidth w =
        (x.rotateRight n).setWidth w >>> 1 ||| lowBit w (x.rotateRight n).msb <<< (w - 1) ∧
      (x.rotateRight (n + 1)).msb = ((x.rotateRight n).setWidth w).getLsbD 0 := by
  rw [rotateRight_succ]
  generalize x.rotateRight n = y
  constructor
  · refine BitVec.eq_of_getLsbD_eq fun i hi => ?_
    simp only [BitVec.getLsbD_setWidth, BitVec.getLsbD_or, getLsbD_lowBit, BitVec.getLsbD_shiftLeft,
      BitVec.getLsbD_ushiftRight, BitVec.msb_eq_getLsbD_last]
    grind
  · simp only [BitVec.msb_eq_getLsbD_last, BitVec.getLsbD_or, getLsbD_lowBit, BitVec.getLsbD_shiftLeft,
      BitVec.getLsbD_setWidth, BitVec.getLsbD_ushiftRight]
    grind

end BitMoves
