import WuBuOS.Jit.CgNested

/-!
# Strength reduction

Where the right operand of `*`, `/` or `%` is a literal power of two, `cg_compile_multiplicative` emits a shift or
a mask.  A shift to the left multiplies.  But a shift to the right and a mask round down, where C rounds towards
zero: they are right for the numbers that are not negative and for the multiples of the power.

There is a second restriction on the mask.  It is built in R9, and R9 may be the destination: of an expression that
is a statement, of an assignment to an unknown name, and of the third variable that is declared.
-/

namespace WuBuOS.Jit

open X86

variable {op : BinOp} {dst : CgReg} {t : CgToken} {a v x : BitVec 64} {n : Nat} {s : Regs}

/-! ## Rounding -/

theorem toInt_power_pos (h : isPowerOf2 v = true) : 0 < v.toInt := by
  rw [toInt_power h]
  exact Int.pow_pos (by decide)

theorem asr_eq_sdiv_iff (h : isPowerOf2 v = true) :
    a.sshiftRight v.toNat.log2 = a.sdiv v ↔ 0 ≤ a.toInt ∨ v.toInt ∣ a.toInt := by
  refine ⟨fun heq => ?_, div_power h⟩
  by_contra hne
  have hint := congrArg BitVec.toInt heq
  rw [toInt_asr h, toInt_sdiv_power h, Int.tdiv_eq_ediv, if_neg hne, Int.sign_eq_one_of_pos (toInt_power_pos h)] at hint
  omega

theorem mask_eq_srem_iff (h : isPowerOf2 v = true) : a &&& (v - 1) = a.srem v ↔ 0 ≤ a.toInt ∨ v.toInt ∣ a.toInt := by
  refine ⟨fun heq => ?_, mod_power h⟩
  by_contra hne
  have hv := toInt_power_pos h
  have hint := congrArg BitVec.toInt heq
  rw [toInt_mask h, BitVec.toInt_srem, Int.tmod_eq_emod, if_neg hne] at hint
  omega

/-- The mask itself is the remainder only of the numbers before a multiple. -/
theorem pred_eq_srem_iff (h : isPowerOf2 v = true) :
    v - 1 = a.srem v ↔ v = 1 ∨ 0 ≤ a.toInt ∧ v.toInt ∣ a.toInt + 1 := by
  have hv := toInt_power_pos h
  have hpred : (v - 1).toInt = v.toInt - 1 := by
    have hlt := v.toInt_lt
    rw [BitVec.toInt_sub, show (1 : BitVec 64).toInt = 1 from rfl]
    exact Int.bmod_eq_of_le (by omega) (by omega)
  have hone : v = 1 ↔ v.toInt = 1 := by rw [← BitVec.toInt_inj]; rfl
  rw [← BitVec.toInt_inj, hpred, BitVec.toInt_srem, hone]
  rcases lt_or_ge a.toInt 0 with hneg | hnonneg
  · have hle : a.toInt.tmod v.toInt ≤ 0 := by
      have := Int.tmod_nonneg v.toInt (show 0 ≤ -a.toInt by omega)
      rw [Int.neg_tmod] at this
      omega
    constructor
    · intro heq
      exact .inl (by omega)
    · rintro (h1 | ⟨h0, -⟩)
      · rw [h1, Int.tmod_one]
        rfl
      · omega
  · have hlt := Int.emod_lt_of_pos a.toInt hv
    have hge := Int.emod_nonneg a.toInt (Int.ne_of_gt hv)
    have hdvd : v.toInt ∣ a.toInt + 1 ↔ v.toInt ∣ a.toInt % v.toInt + 1 := by
      rw [Int.dvd_iff_emod_eq_zero, Int.dvd_iff_emod_eq_zero, Int.emod_add_emod]
    rw [Int.tmod_eq_emod_of_nonneg hnonneg, hdvd]
    constructor
    · intro heq
      exact .inr ⟨hnonneg, 1, by omega⟩
    · rintro (h1 | ⟨-, hd⟩)
      · omega
      · have := Int.le_of_dvd (by omega) hd
        omega

/-! ## The code -/

/-- The operators whose right operand may be a literal power of two. -/
def BinOp.Multiplicative (op : BinOp) : Prop := op = .star ∨ op = .slash ∨ op = .percent

/-- The value of a literal. -/
def CgToken.literal : CgToken → Option (BitVec 64)
  | .number v | .hex _ v => some v
  | _ => none

/-- The code of an operator whose right operand is a literal. -/
def literalCode (op : BinOp) (dst : CgReg) (v : BitVec 64) : List CgInstr :=
  .movImm .r15 v :: mulCode op dst (some v)

/-- The same with `cg_mul_reg`, `cg_div_reg` or `cg_mod_reg`. -/
def registerCode (op : BinOp) (dst : CgReg) (v : BitVec 64) : List CgInstr :=
  .movImm .r15 v :: mulCode op dst none

/-- Wherever the loop of `cg_compile_multiplicative` meets the operator with the literal, `c` is emitted for it. -/
def LoopEmits (op : BinOp) (dst : CgReg) (t : CgToken) (c : List CgInstr) : Prop :=
  ∀ (k m : Nat) (rest : List CgToken) (cc : CgCompiler),
    cgLoop cgMulOp (genBody (cgPrimary (k + 1)) dst 5) (m + 1) (op.cgToken :: t :: rest) cc =
      cgLoop cgMulOp (genBody (cgPrimary (k + 1)) dst 5) m rest (cc.emit c)

/-- Both pieces of code end, with the same value in the register. -/
def SameValue (c c' : List CgInstr) (dst : CgReg) (s : Regs) : Prop :=
  ∃ u u', cgRun c s = some u ∧ cgRun c' s = some u' ∧ u dst = u' dst

/-- What is emitted for `x op v` leaves what the operation on registers would. -/
def ReducesExactly (op : BinOp) (dst : CgReg) (t : CgToken) (v x : BitVec 64) : Prop :=
  ∃ c, LoopEmits op dst t c ∧ ∀ s : Regs, s dst = x → SameValue c (registerCode op dst v) dst s

/-- Where the shift and the mask are right. -/
def Reducible (op : BinOp) (dst : CgReg) (x : BitVec 64) (n : Nat) : Prop :=
  op = .star ∨ dst = .r15 ∨
    if op = .percent ∧ dst = .r9 then n = 0 ∨ 0 ≤ x.toInt ∧ 2 ^ n ∣ x.toInt + 1
    else 0 ≤ x.toInt ∨ 2 ^ n ∣ x.toInt

theorem emits_literalCode (hop : op.Multiplicative) (ht : t.literal = some v) :
    LoopEmits op dst t (literalCode op dst v) := by
  intro k m rest cc
  have hmul : cgMulOp (cgCur (op.cgToken :: t :: rest)) = some op := by
    rcases hop with rfl | rfl | rfl <;> rfl
  have hprim : cgPrimary (k + 1) .r15 (t :: rest) cc = some (rest, cc.emit [.movImm .r15 v], some v) := by
    cases t with
    | number w | hex _ w =>
      cases ht
      rfl
    | _ => cases ht
  rw [cgLoop, hmul]
  simp [genBody, hprim, literalCode, CgCompiler.emit]

theorem emits_unique {c c' : List CgInstr} (h : LoopEmits op dst t c) (h' : LoopEmits op dst t c') : c = c' := by
  have heq := (h 0 0 [] ⟨⟨[], 0⟩, []⟩).symm.trans (h' 0 0 [] ⟨⟨[], 0⟩, []⟩)
  simpa [cgLoop, CgCompiler.emit] using heq

theorem reducesExactly_iff (hop : op.Multiplicative) (ht : t.literal = some v) : ReducesExactly op dst t v x ↔
      ∀ s : Regs, s dst = x → SameValue (literalCode op dst v) (registerCode op dst v) dst s := by
  have hemit : LoopEmits op dst t (literalCode op dst v) := emits_literalCode hop ht
  constructor
  · rintro ⟨c, hc, hsame⟩
    exact emits_unique hemit hc ▸ hsame
  · exact fun hsame => ⟨_, hemit, hsame⟩

/-! ## What it leaves -/

/-- The value that the shift or the mask leaves, for the left operand `a`. -/
def reduced (op : BinOp) (dst : CgReg) (v a : BitVec 64) : BitVec 64 :=
  match op with
  | .star => a <<< v.toNat.log2
  | .slash => a.sshiftRight v.toNat.log2
  | _ => (if dst = .r9 then v - 1 else a) &&& (v - 1)

/-- The value that the operation on registers leaves. -/
def computed (op : BinOp) (v a : BitVec 64) : BitVec 64 :=
  match op with
  | .star => a * v
  | .slash => a.sdiv v
  | _ => a.srem v

theorem apply_power (hop : op.Multiplicative) (h : isPowerOf2 v = true) (a : BitVec 64) :
    op.apply a v = some (computed op v a) := by
  have hz : ¬(v = 0 ∨ a = BitVec.intMin 64 ∧ v = -1) := by
    rintro (rfl | ⟨-, rfl⟩) <;> revert h <;> decide
  rcases hop with rfl | rfl | rfl
  · rfl
  · exact if_neg hz
  · exact if_neg hz

/-- With `dst` R15 the literal takes the place of the left operand. -/
theorem run_literalCode (hop : op.Multiplicative) (h : isPowerOf2 v = true) (dst : CgReg) (s : Regs) :
    ∃ u, cgRun (literalCode op dst v) s = some u ∧ u dst = reduced op dst v (s.set .r15 v dst) := by
  have hpow : (some v).filter isPowerOf2 = some v := by simp [h]
  rcases hop with rfl | rfl | rfl
  · exact ⟨_, by simp only [literalCode, mulCode, hpow]; rfl, set_self _ _ _⟩
  · exact ⟨_, by simp only [literalCode, mulCode, hpow]; rfl, set_self _ _ _⟩
  · refine ⟨_, by simp only [literalCode, mulCode, hpow]; rfl, (set_self _ _ _).trans ?_⟩
    by_cases h9 : dst = .r9
    · simp [reduced, h9]
    · simp [reduced, h9, set_other]

theorem run_registerCode (hop : op.Multiplicative) (h : isPowerOf2 v = true) (dst : CgReg) (s : Regs) :
    ∃ u, cgRun (registerCode op dst v) s = some u ∧ u dst = computed op v (s.set .r15 v dst) := by
  have happly := apply_power hop h (s.set .r15 v dst)
  rcases hop with rfl | rfl | rfl
  · by_cases hd : dst = .r15
    · subst hd
      exact ⟨_, rfl, rfl⟩
    · exact ⟨_, by simp [registerCode, mulCode, hd, cgRun, CgInstr.step]; rfl, set_self _ _ _⟩
  · exact ⟨_, by simp [registerCode, mulCode, cgRun, CgInstr.step, happly]; rfl, set_self _ _ _⟩
  · exact ⟨_, by simp [registerCode, mulCode, cgRun, CgInstr.step, happly]; rfl, set_self _ _ _⟩

theorem sameValue_iff (hop : op.Multiplicative) (h : isPowerOf2 v = true) :
    SameValue (literalCode op dst v) (registerCode op dst v) dst s ↔
      reduced op dst v (s.set .r15 v dst) = computed op v (s.set .r15 v dst) := by
  obtain ⟨u, hu, hval⟩ := run_literalCode hop h dst s
  obtain ⟨u', hu', hval'⟩ := run_registerCode hop h dst s
  constructor
  · rintro ⟨w, w', hw, hw', heq⟩
    obtain rfl : u = w := Option.some.inj (hu.symm.trans hw)
    obtain rfl : u' = w' := Option.some.inj (hu'.symm.trans hw')
    exact hval.symm.trans (heq.trans hval')
  · exact fun heq => ⟨u, u', hu, hu', hval.trans (heq.trans hval'.symm)⟩

theorem reduced_eq_iff (hop : op.Multiplicative) (h : isPowerOf2 v = true) :
    reduced op dst v a = computed op v a ↔ op = .star ∨
      if op = .percent ∧ dst = .r9 then v = 1 ∨ 0 ≤ a.toInt ∧ v.toInt ∣ a.toInt + 1
      else 0 ≤ a.toInt ∨ v.toInt ∣ a.toInt := by
  rcases hop with rfl | rfl | rfl
  · simp [reduced, computed, mul_power h]
  · simpa [reduced, computed] using asr_eq_sdiv_iff h
  · by_cases h9 : dst = .r9
    · simpa [reduced, computed, h9] using pred_eq_srem_iff h
    · simpa [reduced, computed, h9] using mask_eq_srem_iff h

/-! ## The powers of two -/

theorem isPowerOf2_shift (hn : n ≤ 62) : isPowerOf2 (1#64 <<< n) = true ∧ (1#64 <<< n).toInt = 2 ^ n := by
  have hall : ∀ k : Fin 63, isPowerOf2 (1#64 <<< k.val) = true ∧ (1#64 <<< k.val).toInt = 2 ^ k.val := by decide
  exact hall ⟨n, by omega⟩

/-- The literal itself, in the place of the left operand, is not negative. -/
theorem reduced_self (hop : op.Multiplicative) (h : isPowerOf2 v = true) : reduced op .r15 v v = computed op v v := by
  refine (reduced_eq_iff hop h).2 (.inr ?_)
  rw [if_neg (by simp)]
  exact .inr (Int.dvd_refl _)

/-- **Strength reduction**: the operation on registers computes the operation of C, unless the literal has taken
the place of the left operand; and what is emitted leaves the same exactly where the shift and the mask are right. -/
theorem strength_reduction_iff (op : BinOp) (hop : op.Multiplicative) (n : Nat) (hn : n ≤ 62) (t : CgToken)
    (ht : t.literal = some (1#64 <<< n)) (dst : CgReg) (x : BitVec 64) :
    (dst ≠ .r15 → ∀ s : Regs, s dst = x → ∃ u, cgRun (registerCode op dst (1#64 <<< n)) s = some u ∧
      op.apply x (1#64 <<< n) = some (u dst)) ∧
    (ReducesExactly op dst t (1#64 <<< n) x ↔ Reducible op dst x n) := by
  obtain ⟨hpow, hint⟩ := isPowerOf2_shift hn
  constructor
  · rintro hne s rfl
    obtain ⟨u, hu, hval⟩ := run_registerCode hop hpow dst s
    refine ⟨u, hu, ?_⟩
    rw [hval, set_other _ _ hne]
    exact apply_power hop hpow (s dst)
  · rw [reducesExactly_iff hop ht]
    by_cases h15 : dst = .r15
    · subst h15
      refine iff_of_true (fun s _ => (sameValue_iff hop hpow).2 ?_) (.inr (.inl rfl))
      rw [set_self]
      exact reduced_self hop hpow
    · have hone : 1#64 <<< n = 1 ↔ n = 0 := by
        rw [← BitVec.toInt_inj, hint]
        constructor
        · exact fun h1 => (Nat.pow_eq_one.1 (Int.ofNat.inj h1)).resolve_left (by decide)
        · rintro rfl
          rfl
      have hval : ∀ s : Regs, s dst = x → (SameValue (literalCode op dst (1#64 <<< n))
          (registerCode op dst (1#64 <<< n)) dst s ↔ Reducible op dst x n) := by
        rintro s rfl
        rw [sameValue_iff hop hpow, set_other _ _ h15, reduced_eq_iff hop hpow, hint, hone]
        simp [Reducible, h15]
      exact ⟨fun h => (hval (fun _ => x) rfl).mp (h _ rfl), fun h s hs => (hval s hs).2 h⟩

theorem strength_reduction_iff_half : ReducesExactly .slash .r0 (.number 2) 2 7 :=
  (strength_reduction_iff .slash (.inr (.inl rfl)) 1 (by decide) (.number 2) rfl .r0 7).2.2
    (.inr (.inr (by decide)))

/-- `-1 / 2` is 0, and the shift leaves -1; `-1 % 2` is -1, and the mask leaves 1.  In R9, `5 % 4` becomes 3. -/
theorem shift_rounds_down : ¬ReducesExactly .slash .r0 (.number 2) 2 (-1) ∧
    ¬ReducesExactly .percent .r0 (.number 2) 2 (-1) ∧ ¬ReducesExactly .percent .r9 (.number 4) 4 5 := by
  refine ⟨fun h => ?_, fun h => ?_, fun h => ?_⟩
  · have hs := (reducesExactly_iff (.inr (.inl rfl)) rfl).1 h (fun _ => -1) rfl
    exact absurd ((sameValue_iff (.inr (.inl rfl)) (by decide)).1 hs) (by decide)
  · have hs := (reducesExactly_iff (.inr (.inr rfl)) rfl).1 h (fun _ => -1) rfl
    exact absurd ((sameValue_iff (.inr (.inr rfl)) (by decide)).1 hs) (by decide)
  · have hs := (reducesExactly_iff (.inr (.inr rfl)) rfl).1 h (fun _ => 5) rfl
    exact absurd ((sameValue_iff (.inr (.inr rfl)) (by decide)).1 hs) (by decide)

end WuBuOS.Jit
