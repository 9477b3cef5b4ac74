import WuBuOS.Jit.CgGen

/-!
# What the code of the portable generator computes

The right operand of every operator is compiled into R15, with the left one waiting in the destination.
So an operator whose own destination is R15 loses its left operand, and the same happens to a variable that
is read after its register has been written.  `Tidy` says that nothing of the kind happens, and `gen_value`
that the code then computes the value of the expression; `gen_writes` is about the registers it writes.

`nested_operands` puts it together for the arguments `a` to `f`, which get their registers in the order in
which they are used first.
-/

namespace WuBuOS.Jit

open X86

/-! ## Registers that are written -/

def CgInstr.target : CgInstr → Option CgReg
  | .movImm rd _ | .movReg rd _ | .addReg rd _ _ | .subReg rd _ _ | .mulReg rd _ _ | .divReg rd _ _
  | .modReg rd _ _ | .andReg rd _ _ | .orrReg rd _ _ | .eorReg rd _ _ | .lslImm rd _ _ | .asrImm rd _ _
  | .cmpRegCc rd _ _ => some rd
  | .drop => none

/-- The code has the register as a target. -/
def CgWrites (c : List CgInstr) (q : CgReg) : Prop := ∃ i ∈ c, i.target = some q

variable {c c' : List CgInstr} {i : CgInstr} {s s' s1 s2 t : Regs} {q dst : CgReg}

@[simp]
theorem cgWrites_nil : ¬CgWrites [] q := fun ⟨_, h, _⟩ => nomatch h

@[simp]
theorem cgWrites_cons : CgWrites (i :: c) q ↔ i.target = some q ∨ CgWrites c q := by
  simp [CgWrites]

@[simp]
theorem cgWrites_append : CgWrites (c ++ c') q ↔ CgWrites c q ∨ CgWrites c' q := by
  simp only [CgWrites, List.mem_append, or_and_right, exists_or]

theorem cgRun_append : ∀ (c c' : List CgInstr) (s : Regs), cgRun (c ++ c') s = (cgRun c s).bind (cgRun c')
  | [], _, _ => rfl
  | i :: c, c', s => by
    rw [List.cons_append, cgRun, cgRun, Option.bind_assoc]
    exact congrArg _ (funext fun t => cgRun_append c c' t)

theorem cgRun_append_of (h : cgRun c s = some t) : cgRun (c ++ c') s = cgRun c' t := by
  rw [cgRun_append, h]
  rfl

@[simp]
theorem set_self (s : Regs) (q : CgReg) (v : BitVec 64) : s.set q v q = v := if_pos rfl

@[simp]
theorem set_other (s : Regs) (v : BitVec 64) {q r : CgReg} (h : r ≠ q) : s.set q v r = s r := if_neg h

theorem step_other (h : i.step s = some s') (hq : i.target ≠ some q) : s' q = s q := by
  cases i <;> simp only [CgInstr.step, Option.some.injEq, Option.map_eq_some_iff] at h <;>
    simp only [CgInstr.target, ne_eq, Option.some.injEq] at hq
  case divReg | modReg =>
    obtain ⟨v, -, rfl⟩ := h
    exact set_other _ _ (Ne.symm hq)
  case drop => rw [h]
  all_goals
    subst h
    exact set_other _ _ (Ne.symm hq)

/-- A register that the code does not target keeps its value. -/
theorem cgRun_other : ∀ {c : List CgInstr} {s : Regs}, cgRun c s = some s' → ¬CgWrites c q → s' q = s q
  | [], s, h, _ => by rw [Option.some.inj h]
  | i :: c, s, h, hq => by
    obtain ⟨t, ht, h⟩ := Option.bind_eq_some_iff.1 h
    rw [cgWrites_cons, not_or] at hq
    exact (cgRun_other h hq.2).trans (step_other ht hq.1)

/-! ## Powers of two -/

/-- A power of two, as `is_power_of_2` finds it. -/
theorem isPowerOf2_spec {v : BitVec 64} (h : isPowerOf2 v = true) : v.toNat = 2 ^ v.toNat.log2 ∧ v.toNat.log2 ≤ 62 := by
  rw [isPowerOf2, Bool.and_eq_true] at h
  obtain ⟨hpos, hand⟩ := h
  have hpos : 0 < v.toInt := by
    have := BitVec.slt_iff_toInt_lt.1 hpos
    simpa using this
  have hmsb : v.toInt = v.toNat := by
    have := BitVec.toInt_eq_msb_cond v
    have hlt := v.isLt
    split at this <;> omega
  have hne : v.toNat ≠ 0 := by omega
  have hlt : v.toNat < 2 ^ 63 := by
    have := v.toInt_lt
    omega
  have hnat : v.toNat &&& (v.toNat - 1) = 0 := by
    have := congrArg BitVec.toNat (eq_of_beq hand)
    rw [BitVec.toNat_and, BitVec.toNat_sub_of_le (by rw [BitVec.le_def]; show 1 ≤ v.toNat; omega)] at this
    exact this
  obtain ⟨k, hk⟩ := (Nat.and_sub_one_eq_zero_iff_isPowerOfTwo hne).1 hnat
  have hlog : v.toNat.log2 = k := by rw [hk, Nat.log2_two_pow]
  refine ⟨by rw [hlog]; exact hk, ?_⟩
  rw [hlog]
  by_contra hgt
  have := Nat.pow_le_pow_right (show 0 < 2 by omega) (show 63 ≤ k by omega)
  omega

variable {a v w : BitVec 64}

theorem mul_power (h : isPowerOf2 v = true) : a <<< v.toNat.log2 = a * v := by
  obtain ⟨hv, hk⟩ := isPowerOf2_spec h
  rw [BitVec.shiftLeft_eq_mul_twoPow]
  congr 1
  refine BitVec.eq_of_toNat_eq ?_
  rw [BitVec.toNat_twoPow_of_lt (by omega), ← hv]

theorem toInt_power (h : isPowerOf2 v = true) : v.toInt = 2 ^ v.toNat.log2 := by
  obtain ⟨hv, hk⟩ := isPowerOf2_spec h
  have hlt : v.toNat < 2 ^ 63 := by
    have := Nat.pow_le_pow_right (show 0 < 2 by omega) hk
    omega
  rw [BitVec.toInt_eq_toNat_of_lt (by omega)]
  exact_mod_cast hv

/-- An arithmetic shift rounds down. -/
theorem toInt_asr (h : isPowerOf2 v = true) (a : BitVec 64) :
    (a.sshiftRight v.toNat.log2).toInt = a.toInt / v.toInt := by
  rw [BitVec.toInt_sshiftRight, Int.shiftRight_eq_div_pow, toInt_power h]
  exact congrArg (a.toInt / ·) (Int.natCast_pow 2 _)

/-- A mask leaves the remainder of a division that rounds down. -/
theorem toInt_mask (h : isPowerOf2 v = true) (a : BitVec 64) : (a &&& (v - 1)).toInt = a.toInt % v.toInt := by
  obtain ⟨hv, hk⟩ := isPowerOf2_spec h
  have hint := toInt_power h
  have hpow := Nat.pow_le_pow_right (show 0 < 2 by omega) hk
  have hpos : 0 < 2 ^ v.toNat.log2 := Nat.two_pow_pos _
  have hand : (a &&& (v - 1)).toNat = a.toNat % 2 ^ v.toNat.log2 := by
    rw [BitVec.toNat_and, BitVec.toNat_sub_of_le (by rw [BitVec.le_def]; show 1 ≤ v.toNat; omega), hv, Nat.log2_two_pow]
    exact Nat.and_two_pow_sub_one_eq_mod a.toNat _
  rw [BitVec.toInt_eq_toNat_of_lt (by omega), hand, Int.natCast_emod]
  have hcast : ((2 ^ v.toNat.log2 : Nat) : Int) = v.toInt := by rw [hint]; exact Int.natCast_pow 2 _
  obtain ⟨d, hd⟩ : v.toInt ∣ 2 ^ 64 := by
    refine ⟨(2 : Int) ^ (64 - v.toNat.log2), ?_⟩
    rw [hint, ← Int.pow_add, show v.toNat.log2 + (64 - v.toNat.log2) = 64 by omega]
  have htoInt : a.toInt = if a.msb then (a.toNat : Int) - (2 : Int) ^ 64 else (a.toNat : Int) :=
    BitVec.toInt_eq_msb_cond a
  rw [hcast, htoInt, hd]
  split
  case isTrue => exact (Int.sub_mul_emod_self_left _ _ _).symm
  case isFalse => rfl

theorem toInt_sdiv_power (h : isPowerOf2 v = true) (a : BitVec 64) : (a.sdiv v).toInt = a.toInt.tdiv v.toInt :=
  BitVec.toInt_sdiv_of_ne_or_ne _ _ (.inr fun hv => by subst hv; revert h; decide)

theorem div_power (h : isPowerOf2 v = true) (hr : 0 ≤ a.toInt ∨ v.toInt ∣ a.toInt) :
    a.sshiftRight v.toNat.log2 = a.sdiv v := by
  refine BitVec.toInt_inj.1 ?_
  rw [toInt_asr h, toInt_sdiv_power h]
  rcases hr with hr | hr
  · exact (Int.tdiv_eq_ediv_of_nonneg hr).symm
  · exact (Int.tdiv_eq_ediv_of_dvd hr).symm

theorem mod_power (h : isPowerOf2 v = true) (hr : 0 ≤ a.toInt ∨ v.toInt ∣ a.toInt) : a &&& (v - 1) = a.srem v := by
  refine BitVec.toInt_inj.1 ?_
  rw [toInt_mask h, BitVec.toInt_srem]
  rcases hr with hr | hr
  · exact (Int.tmod_eq_emod_of_nonneg hr).symm
  · rw [Int.tmod_eq_zero_of_dvd hr, Int.emod_eq_zero_of_dvd hr]

/-! ## Conditions -/

/-- The value, with the names standing for numbers. -/
def CgExpr.eval (env : String → BitVec 64) : CgExpr → Option (BitVec 64)
  | .num v | .hex _ v => some v
  | .name x => some (env x)
  | .paren e => e.eval env
  | .unary op e => (e.eval env).map op.apply
  | .bin op l r => (l.eval env).bind fun a => (r.eval env).bind fun b => op.apply a b
  | .cmp cc l r => (l.eval env).bind fun a => (r.eval env).map fun b => ofBool (cc.rel a b)

/-- Each name is in its register when it is used. -/
def Placed (ρ : String → CgReg) : CgExpr → CgScope → Prop
  | .num _, _ | .hex _ _, _ => True
  | .name x, sc => (sc.use x).findVar x = some (ρ x)
  | .paren e, sc | .unary _ e, sc => Placed ρ e sc
  | .bin _ l r, sc | .cmp _ l r, sc => Placed ρ l sc ∧ Placed ρ r (l.after sc)

/-- The code goes through R9: that of a sign, and of a remainder by a power of two. -/
def CgExpr.Scratch : CgExpr → Prop
  | .num _ | .hex _ _ | .name _ => False
  | .paren e => e.value = none ∧ e.Scratch
  | .unary _ _ => True
  | .bin op l r => l.Scratch ∨ ¬op.IsShift ∧ r.Scratch ∨ op = .percent ∧ ∃ v, r.const = some v ∧ isPowerOf2 v
  | .cmp _ l r => l.Scratch ∨ r.Scratch

/-- The code goes through R15: that of every operator, but for a shift. -/
def CgExpr.Compound : CgExpr → Prop
  | .num _ | .hex _ _ | .name _ | .unary _ _ => False
  | .paren e => e.value = none ∧ e.Compound
  | .bin op l _ => op.IsShift → l.Compound
  | .cmp _ _ _ => True

/-- Division by a power of two is a shift, which rounds down: the dividend must be a constant for which this
makes no difference. -/
def Rounds (l r : CgExpr) : Prop :=
  ∀ v, r.const = some v → isPowerOf2 v → ∃ a, l.value = some a ∧ (0 ≤ a.toInt ∨ v.toInt ∣ a.toInt)

/-- The expression is a name that is in the register already. -/
def CgExpr.InPlace (ρ : String → CgReg) (dst : CgReg) : CgExpr → Prop
  | .name x => ρ x = dst
  | .paren e => e.InPlace ρ dst
  | _ => False

/-- The left operand is still in the destination when the right one has been compiled, and the names of the
right one are still in their registers. -/
def Apart (ρ : String → CgReg) (dst : CgReg) (l r : CgExpr) : Prop :=
  dst ≠ .r15 ∧ (¬l.InPlace ρ dst → ∀ x ∈ r.names, ρ x ≠ dst) ∧ (r.Scratch → dst ≠ .r9)

/-- No operand is lost: an operator is not compiled into R15, and the names of a right operand are not in the
destination. -/
def Tidy (ρ : String → CgReg) (dst : CgReg) : CgExpr → Prop
  | .num _ | .hex _ _ | .name _ => True
  | .paren e => e.value = none → Tidy ρ dst e
  -- A sign before anything but a literal gives 0.
  | .unary _ e => e.const ≠ none ∧ dst ≠ .r9 ∧ Tidy ρ dst e
  | .bin op l r => Tidy ρ dst l ∧ (¬op.IsShift → Apart ρ dst l r ∧ Tidy ρ .r15 r) ∧
      (op = .slash ∨ op = .percent → Rounds l r) ∧
      (op = .percent → (∃ v, r.const = some v ∧ isPowerOf2 v) → dst ≠ .r9)
  | .cmp _ l r => Tidy ρ dst l ∧ Apart ρ dst l r ∧ Tidy ρ .r15 r

variable {e l r : CgExpr} {op : BinOp} {sc : CgScope} {ρ : String → CgReg} {env : String → BitVec 64}

/-- A constant expression has its value whatever the names stand for. -/
theorem eval_of_value (h : e.value = some v) : e.eval env = some v := by
  induction e generalizing v with
  | num | hex => exact h
  | name => cases h
  | paren e ih => exact ih h
  | unary op e ih =>
    obtain ⟨w, hw, rfl⟩ := Option.map_eq_some_iff.1 h
    rw [CgExpr.eval, ih hw]
    rfl
  | bin op l r ihl ihr =>
    obtain ⟨a, ha, h⟩ := Option.bind_eq_some_iff.1 h
    obtain ⟨b, hb, h⟩ := Option.bind_eq_some_iff.1 h
    rw [CgExpr.eval, ihl ha, ihr hb]
    exact h
  | cmp cc l r ihl ihr =>
    obtain ⟨a, ha, h⟩ := Option.bind_eq_some_iff.1 h
    obtain ⟨b, hb, h⟩ := Option.map_eq_some_iff.1 h
    rw [CgExpr.eval, ihl ha, ihr hb]
    exact congrArg some h

/-! ## What is written -/

/-- What the code of an operator writes besides the destination. -/
theorem opCode_writes (hdst : ¬op.IsShift → dst ≠ .r15) (h : CgWrites (opCode op dst r) q) :
    q = dst ∨ q = .r9 ∧ op = .percent ∧ ∃ v, r.const = some v ∧ isPowerOf2 v := by
  cases op with
  | star =>
    cases hp : r.const.filter isPowerOf2 <;> simp only [opCode, mulCode, hp] at h
    case some v =>
      simp only [cgWrites_cons, cgWrites_nil, CgInstr.target, Option.some.injEq, reduceCtorEq, or_false, false_or] at h
      exact .inl h.symm
    case none =>
      rw [if_neg (hdst id)] at h
      split at h <;>
        simp only [cgWrites_cons, cgWrites_nil, CgInstr.target, Option.some.injEq, reduceCtorEq, or_false,
          false_or] at h <;>
        exact .inl h.symm
  | slash =>
    cases hp : r.const.filter isPowerOf2 <;> simp only [opCode, mulCode, hp] at h <;>
      simp only [cgWrites_cons, cgWrites_nil, CgInstr.target, Option.some.injEq, reduceCtorEq, or_false,
        false_or] at h <;>
      exact .inl h.symm
  | percent =>
    cases hp : r.const.filter isPowerOf2 <;> simp only [opCode, mulCode, hp] at h <;>
      simp only [cgWrites_cons, cgWrites_nil, CgInstr.target, Option.some.injEq, reduceCtorEq, or_false, false_or] at h
    case some v =>
      rcases h with h | h
      · exact .inr ⟨h.symm, rfl, v, Option.filter_eq_some_iff.1 hp⟩
      · exact .inl h.symm
    case none => exact .inl h.symm
  | plus | minus | amp | caret | pipe =>
    simp only [opCode, binCode, cgWrites_cons, cgWrites_nil, CgInstr.target, Option.some.injEq, or_false] at h
    exact .inl h.symm
  | shl | shr =>
    cases hc : r.const <;>
      simp only [opCode, hc, Option.map_none, Option.map_some, Option.getD_none, Option.getD_some, shiftCode,
        if_true, reduceCtorEq, if_false, cgWrites_cons, cgWrites_nil, CgInstr.target, Option.some.injEq,
        or_false] at h
    exact .inl h.symm

theorem nameCode_writes {x : String} (h : CgWrites (nameCode sc dst x) q) : q = dst := by
  rw [nameCode] at h
  split at h
  · simpa [CgInstr.target, eq_comm] using h
  · split at h
    · simpa [CgInstr.target, eq_comm] using h
    · simp at h

/-- A literal with signs has no operator. -/
theorem not_compound_of_const (h : e.const ≠ none) : ¬e.Compound := by
  cases e with
  | num | hex | unary => exact id
  | _ => exact absurd rfl h

/-- **The code writes the destination, R15 under an operator, and R9 as scratch.** -/
theorem gen_writes : ∀ {dst : CgReg} {sc : CgScope}, Tidy ρ dst e → CgWrites (e.gen dst sc) q →
    q = dst ∨ q = .r15 ∧ e.Compound ∨ q = .r9 ∧ e.Scratch := by
  induction e with
  | num v | hex _ v =>
    intro dst sc _ h
    simp only [CgExpr.gen, cgWrites_cons, cgWrites_nil, CgInstr.target, Option.some.injEq, or_false] at h
    exact .inl h.symm
  | name x => exact fun _ h => .inl (nameCode_writes h)
  | paren e ih =>
    intro dst sc ht h
    rw [CgExpr.gen] at h
    split at h
    case h_1 =>
      simp only [cgWrites_cons, cgWrites_nil, CgInstr.target, Option.some.injEq, or_false] at h
      exact .inl h.symm
    case h_2 hv =>
      rcases ih (ht hv) h with h | h | h
      · exact .inl h
      · exact .inr (.inl ⟨h.1, hv, h.2⟩)
      · exact .inr (.inr ⟨h.1, hv, h.2⟩)
  | unary uop e ih =>
    intro dst sc ht h
    rcases cgWrites_append.1 h with h | h
    · rcases ih ht.2.2 h with h | h | h
      · exact .inl h
      · exact absurd h.2 (not_compound_of_const ht.1)
      · exact .inr (.inr ⟨h.1, trivial⟩)
    · have hsome := Option.isSome_iff_ne_none.2 ht.1
      cases uop <;>
        simp only [unaryCode, hsome, if_true, cgWrites_cons, cgWrites_nil, CgInstr.target,
          Option.some.injEq, or_false] at h <;>
        rcases h with h | h
      all_goals first
        | exact .inr (.inr ⟨h.symm, trivial⟩)
        | exact .inl h.symm
  | bin op l r ihl ihr =>
    intro dst sc ht h
    rw [CgExpr.gen, cgWrites_append, cgWrites_append] at h
    rcases h with (h | h) | h
    · rcases ihl ht.1 h with h | h | h
      · exact .inl h
      · exact .inr (.inl ⟨h.1, fun _ => h.2⟩)
      · exact .inr (.inr ⟨h.1, .inl h.2⟩)
    · by_cases hop : op.IsShift
      · rw [if_pos hop] at h
        exact absurd h cgWrites_nil
      · rw [if_neg hop] at h
        rcases ihr (ht.2.1 hop).2 h with h | h | h
        · exact .inr (.inl ⟨h, fun h => absurd h hop⟩)
        · exact .inr (.inl ⟨h.1, fun h => absurd h hop⟩)
        · exact .inr (.inr ⟨h.1, .inr (.inl ⟨hop, h.2⟩)⟩)
    · rcases opCode_writes (fun hop => (ht.2.1 hop).1.1) h with h | h
      · exact .inl h
      · exact .inr (.inr ⟨h.1, .inr (.inr h.2)⟩)
  | cmp cc l r ihl ihr =>
    intro dst sc ht h
    rw [CgExpr.gen, cgWrites_append, cgWrites_append] at h
    rcases h with (h | h) | h
    · rcases ihl ht.1 h with h | h | h
      · exact .inl h
      · exact .inr (.inl ⟨h.1, trivial⟩)
      · exact .inr (.inr ⟨h.1, .inl h.2⟩)
    · rcases ihr ht.2.2 h with h | h | h
      · exact .inr (.inl ⟨h, trivial⟩)
      · exact .inr (.inl ⟨h.1, trivial⟩)
      · exact .inr (.inr ⟨h.1, .inr h.2⟩)
    · simp only [cgWrites_cons, cgWrites_nil, CgInstr.target, Option.some.injEq, or_false] at h
      exact .inl h.symm

/-! ## What is computed -/

/-- The registers of the names are neither written by the code of an operand nor scratch. -/
def Safe (ρ : String → CgReg) (xs : List String) : Prop := ∀ x ∈ xs, ρ x ≠ .r9 ∧ ρ x ≠ .r15

/-- The code of an operator computes the operation of the destination and R15. -/
theorem run_opCode (hop : ¬op.IsShift) (hdst : dst ≠ .r15) (hc : ∀ k, r.const = some k → s .r15 = k)
    (hround : op = .slash ∨ op = .percent → ∀ k, r.const = some k → isPowerOf2 k →
      0 ≤ (s dst).toInt ∨ k.toInt ∣ (s dst).toInt)
    (h9 : op = .percent → (∃ v, r.const = some v ∧ isPowerOf2 v) → dst ≠ .r9)
    (hv : op.apply (s dst) (s .r15) = some w) : ∃ s', cgRun (opCode op dst r) s = some s' ∧ s' dst = w := by
  cases op with
  | star =>
    cases hp : r.const.filter isPowerOf2 with
    | some k =>
      obtain ⟨hk, hpow⟩ := Option.filter_eq_some_iff.1 hp
      refine ⟨s.set dst (s dst <<< k.toNat.log2), by simp only [opCode, mulCode, hp]; rfl, ?_⟩
      rw [set_self, mul_power hpow, ← hc k hk]
      exact Option.some.inj hv
    | none =>
      simp only [opCode, mulCode, hp]
      split
      case isTrue h0 =>
        refine ⟨s.set dst 0, rfl, ?_⟩
        rw [set_self, ← Option.some.inj hv, hc 0 h0]
        exact (BitVec.mul_zero).symm
      case isFalse =>
        exact ⟨s.set dst (s dst * s .r15), rfl, (set_self _ _ _).trans (Option.some.inj hv)⟩
  | slash =>
    cases hp : r.const.filter isPowerOf2 with
    | some k =>
      obtain ⟨hk, hpow⟩ := Option.filter_eq_some_iff.1 hp
      refine ⟨s.set dst ((s dst).sshiftRight k.toNat.log2), by simp only [opCode, mulCode, hp]; rfl, ?_⟩
      simp only [BinOp.apply, Option.ite_none_left_eq_some, Option.some.injEq] at hv
      rw [set_self, div_power hpow (hround (.inl rfl) k hk hpow), ← hc k hk]
      exact hv.2
    | none =>
      refine ⟨s.set dst w, ?_, set_self _ _ _⟩
      simp only [opCode, mulCode, hp, cgRun, CgInstr.step, hv, Option.map_some, Option.bind_some]
  | percent =>
    cases hp : r.const.filter isPowerOf2 with
    | some k =>
      obtain ⟨hk, hpow⟩ := Option.filter_eq_some_iff.1 hp
      have hne := h9 rfl ⟨k, hk, hpow⟩
      refine ⟨(s.set .r9 (k - 1)).set dst (s dst &&& (k - 1)), ?_, ?_⟩
      · simp only [opCode, mulCode, hp, cgRun, CgInstr.step, Option.bind_some, set_self, set_other _ _ hne]
      · simp only [BinOp.apply, Option.ite_none_left_eq_some, Option.some.injEq] at hv
        rw [set_self, mod_power hpow (hround (.inr rfl) k hk hpow), ← hc k hk]
        exact hv.2
    | none =>
      refine ⟨s.set dst w, ?_, set_self _ _ _⟩
      simp only [opCode, mulCode, hp, cgRun, CgInstr.step, hv, Option.map_some, Option.bind_some]
  | plus | minus | amp | caret | pipe => exact ⟨_, rfl, (set_self _ _ _).trans (Option.some.inj hv)⟩
  | shl | shr => exact absurd trivial hop

theorem run_unaryCode (uop : CgUnOp) {k : Option (BitVec 64)} (hk : k ≠ none) (hdst : dst ≠ .r9) (s : Regs) :
    ∃ s', cgRun (unaryCode uop dst k) s = some s' ∧ s' dst = uop.apply (s dst) := by
  have hsome := Option.isSome_iff_ne_none.2 hk
  cases uop with
  | minus =>
    refine ⟨(s.set .r9 0).set dst (0 - s dst), ?_, ?_⟩
    · simp only [unaryCode, hsome, if_true, cgRun, CgInstr.step, Option.bind_some, set_self, set_other _ _ hdst]
    · rw [set_self]
      exact BitVec.zero_sub _
  | tilde =>
    refine ⟨(s.set .r9 (-1)).set dst (s dst ^^^ -1), ?_, ?_⟩
    · simp only [unaryCode, hsome, if_true, cgRun, CgInstr.step, Option.bind_some, set_self, set_other _ _ hdst]
    · rw [set_self]
      exact BitVec.xor_allOnes

theorem value_inPlace (h : e.InPlace ρ dst) : e.value = none := by
  induction e with
  | name => rfl
  | paren e ih => exact ih h
  | _ => exact h.elim

/-- There is no code for what is in place. -/
theorem gen_inPlace (h : e.InPlace ρ dst) (hp : Placed ρ e sc) : e.gen dst sc = [] := by
  induction e with
  | name x =>
    have hx : (sc.use x).findVar x = some (ρ x) := hp
    have hd : ρ x = dst := h
    rw [CgExpr.gen, nameCode, hx, hd]
    exact if_neg (not_not.2 rfl)
  | paren e ih =>
    have he : e.InPlace ρ dst := h
    rw [CgExpr.gen, value_inPlace he]
    exact ih he hp
  | _ => exact h.elim

/-- The code of the left operand leaves the names of the right one alone. -/
theorem names_kept (hl : Tidy ρ dst l) (hp : Placed ρ l sc) (ha : Apart ρ dst l r) (hsafe : Safe ρ r.names)
    (h : cgRun (l.gen dst sc) s = some s') : ∀ x ∈ r.names, s' (ρ x) = s (ρ x) := by
  intro x hx
  by_cases hin : l.InPlace ρ dst
  · rw [gen_inPlace hin hp] at h
    rw [Option.some.inj h]
  · refine cgRun_other h fun hw => ?_
    rcases gen_writes hl hw with h | h | h
    · exact ha.2.1 hin x hx h
    · exact (hsafe x hx).2 h.1
    · exact (hsafe x hx).1 h.1

/-- The code of the right operand leaves the left one alone. -/
theorem left_kept (hr : Tidy ρ .r15 r) (ha : Apart ρ dst l r) (h : cgRun (r.gen .r15 sc) s = some s') :
    s' dst = s dst :=
  cgRun_other h fun hw => by
    rcases gen_writes hr hw with h | h | h
    · exact ha.1 h
    · exact ha.1 h.1
    · exact ha.2.2 h.2 h.1

/-- A shift, by a decimal number. -/
theorem run_shiftCode (hop : op.IsShift) {k : BitVec 64} (hv : op.apply (s dst) k = some w) :
    ∃ s', cgRun (opCode op dst (.num k)) s = some s' ∧ s' dst = w := by
  have hfold := fold_of_apply hv
  cases op with
  | shl | shr => exact ⟨s.set dst w, by rw [← Option.some.inj hfold]; rfl, set_self _ _ _⟩
  | _ => exact hop.elim

/-- **The code computes the value.** -/
theorem gen_value : ∀ {dst : CgReg} {sc : CgScope} {s : Regs} {v : BitVec 64}, e.Gen → Placed ρ e sc →
    Tidy ρ dst e → Safe ρ e.names → (∀ x ∈ e.names, s (ρ x) = env x) → e.eval env = some v →
    ∃ s', cgRun (e.gen dst sc) s = some s' ∧ s' dst = v := by
  induction e with
  | num w | hex _ w =>
    intro dst sc s v _ _ _ _ _ hv
    exact ⟨s.set dst w, rfl, (set_self _ _ _).trans (Option.some.inj hv)⟩
  | name x =>
    intro dst sc s v _ hp _ _ henv hv
    have hx := (henv x (List.mem_singleton_self x)).trans (Option.some.inj hv)
    have hp : (sc.use x).findVar x = some (ρ x) := hp
    simp only [CgExpr.gen, nameCode, hp]
    split
    · exact ⟨s.set dst (s (ρ x)), rfl, (set_self _ _ _).trans hx⟩
    case isFalse h =>
      rw [not_not] at h
      exact ⟨s, rfl, h ▸ hx⟩
  | paren e ih =>
    intro dst sc s v hg hp ht hsafe henv hv
    cases hval : e.value with
    | some w =>
      refine ⟨s.set dst w, by simp only [CgExpr.gen, hval]; rfl, ?_⟩
      rw [set_self]
      exact Option.some.inj ((eval_of_value hval).symm.trans hv)
    | none =>
      simp only [CgExpr.gen, hval]
      exact ih (hg.2.2 hval).2 hp (ht hval) hsafe henv hv
  | unary uop e ih =>
    intro dst sc s v hg hp ht hsafe henv hv
    obtain ⟨w, hw, rfl⟩ := Option.map_eq_some_iff.1 hv
    obtain ⟨s1, h1, rfl⟩ := ih hg.2 hp ht.2.2 hsafe henv hw
    obtain ⟨s2, h2, hv2⟩ := run_unaryCode uop ht.1 ht.2.1 s1
    exact ⟨s2, by rw [CgExpr.gen, cgRun_append_of h1, h2], hv2⟩
  | bin op l r ihl ihr =>
    intro dst sc s v hg hp ht hsafe henv hv
    obtain ⟨a, ha, hv⟩ := Option.bind_eq_some_iff.1 hv
    obtain ⟨b, hb, hv⟩ := Option.bind_eq_some_iff.1 hv
    obtain ⟨s1, h1, rfl⟩ := ihl hg.2.1 hp.1 ht.1 (fun x hx => hsafe x (List.mem_append_left _ hx))
      (fun x hx => henv x (List.mem_append_left _ hx)) ha
    have hgr := hg.2.2
    by_cases hop : op.IsShift
    · rw [if_pos hop] at hgr
      obtain ⟨k, rfl⟩ := hgr
      obtain rfl : k = b := Option.some.inj hb
      obtain ⟨s2, h2, hv2⟩ := run_shiftCode hop hv
      refine ⟨s2, ?_, hv2⟩
      rw [CgExpr.gen, if_pos hop, List.append_nil, cgRun_append_of h1, h2]
    · rw [if_neg hop] at hgr
      obtain ⟨hapart, htr⟩ := ht.2.1 hop
      have hsafer : Safe ρ r.names := fun x hx => hsafe x (List.mem_append_right _ hx)
      have hkept := names_kept ht.1 hp.1 hapart hsafer h1
      obtain ⟨s2, h2, rfl⟩ := ihr hgr.2 hp.2 htr hsafer
        (fun x hx => (hkept x hx).trans (henv x (List.mem_append_right _ hx))) hb
      have hleft : s2 dst = s1 dst := left_kept htr hapart h2
      obtain ⟨s3, h3, hv3⟩ := run_opCode (r := r) (s := s2) hop hapart.1
        (fun k hk => Option.some.inj (hb.symm.trans (eval_of_value (value_of_const hk))))
        (fun hdiv k hk hpow => by
          obtain ⟨a, hval, hround⟩ := ht.2.2.1 hdiv k hk hpow
          rw [hleft, Option.some.inj (ha.symm.trans (eval_of_value hval))]
          exact hround)
        ht.2.2.2 (by rw [hleft]; exact hv)
      refine ⟨s3, ?_, hv3⟩
      rw [CgExpr.gen, if_neg hop, List.append_assoc, cgRun_append_of h1, cgRun_append_of h2, h3]
  | cmp cc l r ihl ihr =>
    intro dst sc s v hg hp ht hsafe henv hv
    obtain ⟨a, ha, hv⟩ := Option.bind_eq_some_iff.1 hv
    obtain ⟨b, hb, rfl⟩ := Option.map_eq_some_iff.1 hv
    have hsafer : Safe ρ r.names := fun x hx => hsafe x (List.mem_append_right _ hx)
    obtain ⟨s1, h1, rfl⟩ := ihl hg.2.2.1 hp.1 ht.1 (fun x hx => hsafe x (List.mem_append_left _ hx))
      (fun x hx => henv x (List.mem_append_left _ hx)) ha
    have hkept := names_kept ht.1 hp.1 ht.2.1 hsafer h1
    obtain ⟨s2, h2, rfl⟩ := ihr hg.2.2.2 hp.2 ht.2.2 hsafer
      (fun x hx => (hkept x hx).trans (henv x (List.mem_append_right _ hx))) hb
    have hleft : s2 dst = s1 dst := left_kept ht.2.2 ht.2.1 h2
    refine ⟨s2.set dst (ofBool (cc.rel (s2 dst) (s2 .r15))), ?_, by rw [set_self, hleft]⟩
    rw [CgExpr.gen, List.append_assoc, cgRun_append_of h1, cgRun_append_of h2]
    rfl

/-! ## Arguments -/

/-- `a→RDI(1), b→RSI(2), c→RDX(3), etc.` -/
def cgArgReg : String → CgReg
  | "a" => .r1
  | "b" => .r2
  | "c" => .r3
  | "d" => .r4
  | "e" => .r5
  | "f" => .r6
  | _ => .r0

/-- The operators `+ - * & | ^`. -/
def BinOp.Plain (op : BinOp) : Prop := op ≠ .slash ∧ op ≠ .percent ∧ ¬op.IsShift

/-- The expression is built from arguments, literals, parentheses, plain operators and comparisons. -/
def CgExpr.OverArgs : CgExpr → Prop
  | .num _ | .hex _ _ => True
  | .name x => cgIsArg x
  | .paren e => e.OverArgs
  | .unary _ _ => False
  | .bin op l r => op.Plain ∧ l.OverArgs ∧ r.OverArgs
  | .cmp _ l r => l.OverArgs ∧ r.OverArgs

/-- No constant is compared with something that is none, at the beginning of what is in parentheses. -/
def CgExpr.HalfFree : CgExpr → Prop
  | .num _ | .hex _ _ | .name _ => True
  | .paren e => ¬e.Half ∧ e.HalfFree
  | .unary _ e => e.HalfFree
  | .bin _ l r | .cmp _ l r => l.HalfFree ∧ r.HalfFree

/-- The code leaves the value of the expression in the destination, with the arguments where
`jit_minic_compile_cg` puts them, and the registers of all other variables as they are. -/
def CgCorrect (e : CgExpr) (dst : CgReg) (cc : CgCompiler) : Prop :=
  ∀ rest, CgStopsExpr (cgCur rest) → ∃ sc c,
    cgCompileTokens cgCompileExpr dst (e.tokens ++ rest) cc = some (rest, ⟨sc, cc.code ++ c⟩) ∧
    ∀ s, ∃ s', cgRun c s = some s' ∧ e.eval (fun x => s (cgArgReg x)) = some (s' dst) ∧
      ∀ x ∈ sc.vars, x.reg ≠ dst → s' x.reg = s x.reg

/-- Nothing is lost that is still to be read. -/
structure Nests (e : CgExpr) (dst : CgReg) (sc : CgScope) : Prop where
  half : (CgExpr.paren e).HalfFree
  /-- The arguments are used first in the order `a`, `b`, `c`, …, if not in the scope already. -/
  placed : Placed cgArgReg e sc
  tidy : Tidy cgArgReg dst (.paren e)
  /-- No variable is in the register for right operands. -/
  spare : (CgExpr.paren e).Compound → ∀ x ∈ (e.after sc).vars, x.reg ≠ .r15

theorem apply_plain (h : op.Plain) (a b : BitVec 64) : op.apply a b ≠ none := by
  cases op with
  | slash => exact absurd rfl h.1
  | percent => exact absurd rfl h.2.1
  | shl | shr => exact absurd trivial h.2.2
  | _ => exact fun h => nomatch h

theorem eval_overArgs (he : e.OverArgs) (env : String → BitVec 64) : ∃ v, e.eval env = some v := by
  induction e with
  | num v | hex _ v => exact ⟨v, rfl⟩
  | name x => exact ⟨env x, rfl⟩
  | paren e ih => exact ih he
  | unary => exact he.elim
  | bin op l r ihl ihr =>
    obtain ⟨a, ha⟩ := ihl he.2.1
    obtain ⟨b, hb⟩ := ihr he.2.2
    obtain ⟨v, hv⟩ := Option.ne_none_iff_exists'.1 (apply_plain he.1 a b)
    exact ⟨v, by rw [CgExpr.eval, ha, hb]; exact hv⟩
  | cmp cc l r ihl ihr =>
    obtain ⟨a, ha⟩ := ihl he.1
    obtain ⟨b, hb⟩ := ihr he.2
    exact ⟨_, by rw [CgExpr.eval, ha, hb]; rfl⟩

theorem defined_overArgs (he : e.OverArgs) : e.Defined := by
  induction e with
  | num | hex | name => trivial
  | paren e ih => exact ih he
  | unary => exact he.elim
  | bin op l r ihl ihr =>
    exact ⟨ihl he.2.1, fun a _ => ⟨ihr he.2.2, fun b _ => apply_plain he.1 a b⟩⟩
  | cmp cc l r ihl ihr => exact ⟨ihl he.1, fun _ => ihr he.2⟩

theorem not_scratch_overArgs (he : e.OverArgs) : ¬e.Scratch := by
  induction e with
  | num | hex | name => exact id
  | paren e ih => exact fun h => ih he h.2
  | unary => exact he.elim
  | bin op l r ihl ihr =>
    rintro (h | h | h)
    · exact ihl he.2.1 h
    · exact ihr he.2.2 h.2
    · exact he.1.2.1 h.1
  | cmp cc l r ihl ihr =>
    rintro (h | h)
    · exact ihl he.1 h
    · exact ihr he.2 h

theorem safe_overArgs (xs : List String) : Safe cgArgReg xs := by
  intro x _
  unfold cgArgReg
  split <;> decide

/-- The generator has the bitwise operators one level higher, where the evaluator has the shifts. -/
theorem genPrec_plain (h : op.Plain) : evalPrec op ≠ 3 ∧ genPrec op = if evalPrec op = 2 then 3 else evalPrec op := by
  cases op with
  | shl | shr => exact absurd trivial h.2.2
  | _ => decide

theorem prec_overArgs (he : e.OverArgs) : e.prec evalPrec ≠ 3 ∧
    e.prec genPrec = if e.prec evalPrec = 2 then 3 else e.prec evalPrec := by
  cases e with
  | bin op l r => exact genPrec_plain he.1
  | _ => simp [CgExpr.prec]

/-- Without shifts, both group the expression in the same way. -/
theorem gen_overArgs (he : e.OverArgs) (hw : e.Wf evalPrec) (hh : e.HalfFree) : e.Gen := by
  induction e with
  | num | hex | name => trivial
  | paren e ih => exact ⟨hw, defined_overArgs he, fun _ => ⟨hh.1, ih he hw hh.2⟩⟩
  | unary => exact he.elim
  | bin op l r ihl ihr =>
    obtain ⟨hop, hpop⟩ := genPrec_plain he.1
    obtain ⟨hl, hpl⟩ := prec_overArgs he.2.1
    obtain ⟨hr, hpr⟩ := prec_overArgs he.2.2
    obtain ⟨hlo, hlt, hwl, hwr⟩ := hw
    refine ⟨?_, ihl he.2.1 hwl hh.1, ?_⟩
    · rw [hpop, hpl]
      split <;> split <;> omega
    · rw [if_neg he.1.2.2, hpop, hpr]
      refine ⟨?_, ihr he.2.2 hwr hh.2⟩
      split <;> split <;> omega
  | cmp cc l r ihl ihr =>
    have hpl := (prec_overArgs he.1).2
    have hpr := (prec_overArgs he.2).2
    obtain ⟨hl, hr, hwl, hwr⟩ := hw
    refine ⟨?_, ?_, ihl he.1 hwl hh.1, ihr he.2 hwr hh.2⟩
    · rw [hpl]
      split <;> omega
    · rw [hpr]
      split <;> omega

/-- **Nested operands.** -/
theorem nested_operands {cc : CgCompiler} (hw : e.Wf evalPrec) (he : e.OverArgs) (h : Nests e dst cc.scope) :
    CgCorrect e dst cc := by
  intro rest hs
  have hwhole : e.Whole := ⟨hw, defined_overArgs he, fun _ => ⟨h.half.1, gen_overArgs he hw h.half.2⟩⟩
  refine ⟨_, _, compiles_cg hwhole dst rest cc hs, fun s => ?_⟩
  obtain ⟨v, hv⟩ := eval_overArgs he fun x => s (cgArgReg x)
  obtain ⟨s', hrun, rfl⟩ := gen_value (e := .paren e) hwhole h.placed h.tidy (safe_overArgs _)
    (fun _ _ => rfl) hv
  refine ⟨s', hrun, hv, fun x hx hne => cgRun_other hrun fun hwr => ?_⟩
  rcases gen_writes h.tidy hwr with hq | hq | hq
  · exact hne hq
  · exact h.spare hq.2 x hx hq.1
  · exact not_scratch_overArgs he hq.2.2

/-- The expression `(a + b) * (2 * 3) == c`. -/
def nestedSample : CgExpr :=
  .cmp .e (.bin .star (.paren (.bin .plus (.name "a") (.name "b"))) (.paren (.bin .star (.num 2) (.num 3))))
    (.name "c")

theorem nested_operands_sample : CgCorrect nestedSample .r0 ⟨⟨[], 0⟩, []⟩ :=
  nested_operands (by simp [nestedSample, CgExpr.Wf, CgExpr.prec, evalPrec])
    (by simp [nestedSample, CgExpr.OverArgs, BinOp.Plain, BinOp.IsShift, cgIsArg])
    { half := by simp [nestedSample, CgExpr.HalfFree, CgExpr.Half, CgExpr.value]
      placed := by
        simp [nestedSample, Placed, CgExpr.after, CgExpr.names, CgScope.use, CgScope.findVar, CgScope.addArg,
          cgIsArg, cgArgRegs, cgArgReg]
      tidy := by
        simp [nestedSample, Tidy, Apart, CgExpr.InPlace, CgExpr.names, CgExpr.Scratch, CgExpr.value,
          BinOp.IsShift, cgArgReg, BinOp.apply]
      spare := by
        simp [nestedSample, CgExpr.after, CgExpr.names, CgScope.use, CgScope.findVar, CgScope.addArg, cgIsArg,
          cgArgRegs] }

/-- In `a + b * c` both operands of the product are in R15, and the second one is squared. -/
theorem nested_operands_fails : ¬∀ (e : CgExpr) (dst : CgReg) (cc : CgCompiler), e.Wf evalPrec → e.OverArgs →
    CgCorrect e dst cc := by
  intro h
  let e : CgExpr := .bin .plus (.name "a") (.bin .star (.name "b") (.name "c"))
  have hw : e.Wf evalPrec := by simp [e, CgExpr.Wf, CgExpr.prec, evalPrec]
  have he : e.OverArgs := by simp [e, CgExpr.OverArgs, BinOp.Plain, BinOp.IsShift, cgIsArg]
  have hwhole : e.Whole := ⟨hw, defined_overArgs he, fun _ => ⟨id, gen_overArgs he hw ⟨trivial, trivial, trivial⟩⟩⟩
  obtain ⟨sc, c, hc, hrun⟩ := h e .r0 ⟨⟨[], 0⟩, []⟩ hw he [] cgStops_eof
  rw [compiles_cg hwhole .r0 [] _ cgStops_eof] at hc
  have hcode : sc = e.after ⟨[], 0⟩ ∧ c = [.movReg .r0 .r1, .movReg .r15 .r2, .movReg .r15 .r3,
      .movReg .r14 .r15, .mulReg .r15 .r14 .r15, .addReg .r0 .r0 .r15] := by
    simpa [CgCompiler.done, e, CgExpr.gen, CgExpr.value, nameCode, opCode, mulCode, binCode, CgExpr.const,
      BinOp.IsShift, CgExpr.after, CgExpr.names, CgScope.use, CgScope.findVar, CgScope.addArg, cgIsArg,
      cgArgRegs, eq_comm] using hc
  -- The arguments are 1, 2 and 3.
  obtain ⟨s', hs', hv, -⟩ := hrun fun q => if q = .r1 then 1 else if q = .r2 then 2 else if q = .r3 then 3 else 0
  rw [hcode.2] at hs'
  rw [← Option.some.inj hs'] at hv
  exact absurd (Option.some.inj hv) (by decide)

end WuBuOS.Jit
