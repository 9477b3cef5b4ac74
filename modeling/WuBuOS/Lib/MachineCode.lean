import Mathlib.Data.List.Basic
import WuBuOS.Lib.Bytes

/-!
# Machine code

A program in memory is a list of bytes (or of words).  `decode` takes the first instruction off the front
and `step` performs one; what a piece of straight-line code does to a machine, `MachineCode.exec`, is then
to take it apart and to perform one instruction after the other.  `none` is a fault: bytes that are no
instruction, or an instruction that traps.

A code generator appends the bytes of one instruction after the other.  `MachineCode.Encodes` says what
they are the bytes of, piece by piece, so that `MachineCode.Encodes.exec` replaces the execution of the
bytes by that of the instructions.

An instruction set whose instructions are little-endian words of four bytes is given by what a word means;
`WordCode.decode` takes one off the front.  An assembler puts a word together from fields, each shifted to its
place: `WordCode.or_shift` turns this into a sum, off which a field is read with `/` and `%`.
-/

namespace MachineCode

/-- Registers are numbered by `Fin 16` or `Fin 32`, and their literals rest on this. -/
instance neZero_sixteen : NeZero 16 := ⟨by decide⟩

instance neZero_thirtyTwo : NeZero 32 := ⟨by decide⟩

universe u v w

variable {β : Type u} {ι : Type v} {σ : Type w}

/-- Take off at most `n` instructions, until nothing is left. -/
def disassemble (decode : List β → Option (ι × List β)) : Nat → List β → Option (List ι)
  | _, [] => some []
  | 0, _ :: _ => none
  | n + 1, b :: c => (decode (b :: c)).bind fun x => (disassemble decode n x.2).map (x.1 :: ·)

/-- Perform the instructions one after the other. -/
def run (step : σ → ι → Option σ) : List ι → σ → Option σ
  | [], s => some s
  | i :: is, s => (step s i).bind (run step is)

/-- What the code does.  There are at most as many instructions as bytes. -/
def exec (decode : List β → Option (ι × List β)) (step : σ → ι → Option σ) (c : List β) (s : σ) : Option σ :=
  (disassemble decode c.length c).bind fun is => run step is s

/-- The code is that of the instructions: each is taken off rightly, whatever comes behind it. -/
inductive Encodes (decode : List β → Option (ι × List β)) : List β → List ι → Prop
  | nil : Encodes decode [] []
  | cons {b c : List β} {i : ι} {is : List ι} (hb : b ≠ [])
      (hi : ∀ rest, decode (b ++ rest) = some (i, rest)) (hc : Encodes decode c is) :
      Encodes decode (b ++ c) (i :: is)

variable {decode : List β → Option (ι × List β)} {step : σ → ι → Option σ} {b c : List β} {i : ι}
  {is is' : List ι} {s : σ}

@[simp]
theorem run_cons (i : ι) (is : List ι) (s : σ) : run step (i :: is) s = (step s i).bind (run step is) := rfl

theorem run_append : ∀ (is is' : List ι) (s : σ), run step (is ++ is') s = (run step is s).bind (run step is')
  | [], _, _ => rfl
  | i :: is, is', s => by
    rw [List.cons_append, run_cons, run_cons, Option.bind_assoc]
    exact congrArg _ (funext fun t => run_append is is' t)

/-- A single instruction. -/
theorem Encodes.one (hb : b ≠ []) (hi : ∀ rest, decode (b ++ rest) = some (i, rest)) : Encodes decode b [i] := by
  rw [← List.append_nil b]
  exact .cons hb hi .nil

theorem Encodes.append (h : Encodes decode b is) (h' : Encodes decode c is') : Encodes decode (b ++ c) (is ++ is') := by
  induction h with
  | nil => exact h'
  | cons hb hi _ ih =>
    rw [List.append_assoc]
    exact .cons hb hi ih

theorem Encodes.disassemble (h : Encodes decode c is) : ∀ n, c.length ≤ n → disassemble decode n c = some is := by
  induction h with
  | nil =>
    intro n _
    cases n <;> rfl
  | @cons b c i is hb hi _ ih =>
    intro n hn
    cases b with
    | nil => exact absurd rfl hb
    | cons x b =>
      rw [List.length_append, List.length_cons] at hn
      obtain ⟨n, rfl⟩ : ∃ m, n = m + 1 := Nat.exists_eq_succ_of_ne_zero (by omega)
      have hd : decode (x :: (b ++ c)) = some (i, c) := hi c
      show (decode (x :: (b ++ c))).bind _ = _
      rw [hd, Option.bind_some, ih n (by omega)]
      rfl

/-- **Code does what its instructions do.** -/
theorem Encodes.exec (h : Encodes decode c is) (s : σ) : exec decode step c s = run step is s := by
  rw [MachineCode.exec, h.disassemble c.length (Nat.le_refl _)]
  rfl

theorem Encodes.exec_one (h : Encodes decode c [i]) (s : σ) : MachineCode.exec decode step c s = step s i := by
  rw [h.exec, run_cons]
  exact Option.bind_fun_some _

/-- Code in two parts. -/
theorem Encodes.exec_append (h : Encodes decode b is) (h' : Encodes decode c is') (s : σ) :
    MachineCode.exec decode step (b ++ c) s =
      (MachineCode.exec decode step b s).bind (MachineCode.exec decode step c) := by
  rw [(h.append h').exec, h.exec, run_append, funext h'.exec]

end MachineCode

/-! ## Code of 32-bit words -/

namespace WordCode

universe u

variable {ι : Type u}

/-- Take a word off the front. -/
def decode (f : Nat → Option ι) (c : List UInt8) : Option (ι × List UInt8) :=
  if 4 ≤ c.length then (f (Bytes.number (c.take 4))).map (·, c.drop 4) else none

/-- **The bytes of a word are those of its instruction.** -/
theorem encodes {f : Nat → Option ι} {w : Nat} {i : ι} (hw : w < 2 ^ 32) (h : f w = some i) :
    MachineCode.Encodes (decode f) (Bytes.le 4 w) [i] := by
  have hlen := Bytes.length_le 4 w
  refine .one (fun he => ?_) fun rest => ?_
  · rw [he] at hlen
    cases hlen
  · have hnum : Bytes.number (Bytes.le 4 w) = w := (Bytes.number_le 4 w).trans (Nat.mod_eq_of_lt hw)
    rw [decode, if_pos (by rw [List.length_append, hlen]; omega), List.take_left' hlen, List.drop_left' hlen, hnum, h]
    rfl

/-! ## More instructions -/

section

variable {κ : Type u} {f : Nat → Option ι} {g : Nat → Option κ} {b : List UInt8} {is : List ι} {i : κ} {w : Nat}

/-- Words that mean nothing to `f` may be instructions of `g`. -/
def orElse (f : Nat → Option ι) (g : Nat → Option κ) (w : Nat) : Option (ι ⊕ κ) :=
  ((f w).map .inl).or ((g w).map .inr)

/-- **The code of the one set is code of both.** -/
theorem encodes_inl (h : MachineCode.Encodes (decode f) b is) :
    MachineCode.Encodes (decode (orElse f g)) b (is.map .inl) := by
  induction h with
  | nil => exact .nil
  | @cons b c i is hb hi _ ih =>
    refine .cons hb (fun rest => ?_) ih
    have hdec := hi rest
    unfold decode at hdec ⊢
    split at hdec
    · obtain ⟨j, hj, he⟩ := Option.map_eq_some_iff.1 hdec
      obtain ⟨rfl, hrest⟩ := Prod.mk.inj he
      rw [if_pos ‹_›, orElse, hj, hrest]
      rfl
    · cases hdec

theorem encodes_inr (hw : w < 2 ^ 32) (hf : f w = none) (hg : g w = some i) :
    MachineCode.Encodes (decode (orElse f g)) (Bytes.le 4 w) [.inr i] := by
  refine encodes hw ?_
  rw [orElse, hf, hg]
  rfl

end

/-! ## Fields -/

/-- The field of `n` bits from bit `k` on. -/
def field (w k n : Nat) : Nat := w / 2 ^ k % 2 ^ n

theorem field_lt (w k n : Nat) : field w k n < 2 ^ n := Nat.mod_lt _ (Nat.two_pow_pos n)

theorem field_five_lt (w k : Nat) : field w k 5 < 32 := field_lt w k 5

variable {w k n a : Nat}

/-- **A field is put where there are zeros.** -/
theorem or_shift (hw : w / 2 ^ k % 2 ^ n = 0) (ha : a < 2 ^ n) : w ||| a <<< k = w + a * 2 ^ k := by
  have hlo : w % 2 ^ k < 2 ^ k := Nat.mod_lt _ (Nat.two_pow_pos k)
  have hpow : 2 ^ (k + n) = 2 ^ k * 2 ^ n := Nat.pow_add 2 k n
  have hle : 2 ^ k ≤ 2 ^ (k + n) := Nat.pow_le_pow_right (by decide) (Nat.le_add_right k n)
  have hmid : a * 2 ^ k + w % 2 ^ k < 2 ^ (k + n) := by
    have hmul : (a + 1) * 2 ^ k ≤ 2 ^ n * 2 ^ k := Nat.mul_le_mul_right _ ha
    rw [Nat.add_mul, Nat.mul_comm (2 ^ n)] at hmul
    omega
  have hdiv : w / 2 ^ k = w / 2 ^ (k + n) * 2 ^ n := by
    have hsplit := Nat.div_add_mod (w / 2 ^ k) (2 ^ n)
    rw [hw, Nat.add_zero, Nat.div_div_eq_div_mul, ← hpow, Nat.mul_comm] at hsplit
    exact hsplit.symm
  have hsum : w = (w / 2 ^ (k + n)) <<< (k + n) + w % 2 ^ k := by
    have hsplit := Nat.div_add_mod w (2 ^ k)
    rw [hdiv] at hsplit
    generalize w / 2 ^ (k + n) = q at hsplit ⊢
    rw [Nat.shiftLeft_eq, hpow, Nat.mul_left_comm]
    exact hsplit.symm
  have hor : w = (w / 2 ^ (k + n)) <<< (k + n) ||| w % 2 ^ k := by
    rw [← Nat.shiftLeft_add_eq_or_of_lt (Nat.lt_of_lt_of_le hlo hle)]
    exact hsum
  calc w ||| a <<< k
      = (w / 2 ^ (k + n)) <<< (k + n) ||| (a <<< k ||| w % 2 ^ k) := by
        rw [Nat.or_comm (a <<< k), ← Nat.or_assoc, ← hor]
    _ = (w / 2 ^ (k + n)) <<< (k + n) ||| (a * 2 ^ k + w % 2 ^ k) := by
        rw [← Nat.shiftLeft_add_eq_or_of_lt hlo, Nat.shiftLeft_eq a]
    _ = (w / 2 ^ (k + n)) <<< (k + n) + (a * 2 ^ k + w % 2 ^ k) := (Nat.shiftLeft_add_eq_or_of_lt hmid _).symm
    _ = w + a * 2 ^ k := by omega

/-- A field in the lowest bits. -/
theorem or_low (hw : w % 2 ^ n = 0) (ha : a < 2 ^ n) : w ||| a = w + a := by
  have := or_shift (k := 0) (by rwa [Nat.pow_zero, Nat.div_one]) ha
  rwa [Nat.shiftLeft_zero, Nat.pow_zero, Nat.mul_one] at this

/-- A mask that a value fits in. -/
theorem mask (ha : a < 2 ^ n) : a &&& (2 ^ n - 1) = a := by
  rw [Nat.and_two_pow_sub_one_eq_mod, Nat.mod_eq_of_lt ha]

/-- The number of a register is a field of its own. -/
theorem maskReg (r : Fin 32) : r.val &&& 0x1F = r.val := mask (n := 5) r.isLt

end WordCode
