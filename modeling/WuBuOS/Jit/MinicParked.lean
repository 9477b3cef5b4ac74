import WuBuOS.Jit.MinicTrack

/-!
# Operands that wait in a register

Most operators push their left operand.  A shift leaves it in R11 while its right operand is compiled, and
`min` and `max` leave their first argument in RDI; `abs` goes through RDI as well.  So the operand that
waits is lost exactly when the other one has code of the same kind in it (`writes_gen`), however deep.

`operands_survive` says that the registers survive, and that shifts, `abs`, `min` and `max` compute what
they should of their operands, exactly when there is none.
-/

namespace WuBuOS.Jit

open X86

/-- The expression keeps an operand in the register. -/
def Expr.Parks (q : Reg) : Expr → Prop
  | .bin .shl _ _ | .bin .shr _ _ => q = .r11
  | .abs _ _ | .minmax _ _ _ => q = .rdi
  | _ => False

variable (sc : MinicScope) (ty : List MinicType)

/-- The operand that waits in a register is not overwritten by the code of the other operand, and the
expression computes its operation of the values that the code of its operands leaves. -/
def Survives : Expr → Prop
  | .bin op l r => op = .shl ∨ op = .shr → ¬Writes (r.gen sc ty) .r11 ∧
      ∀ s s', run ((Expr.bin op l r).gen sc ty) s = some s' → ∃ s1 s2, run (l.gen sc ty) s = some s1 ∧
        run (r.gen sc ty) (parked op s1) = some s2 ∧
        op.apply (s1.reg .rax) (s2.reg .rax) = some (s'.reg .rax)
  | .abs f e => ∀ s s', run ((Expr.abs f e).gen sc ty) s = some s' → ∃ s1, run (e.gen sc ty) s = some s1 ∧
      s'.reg .rax = (s1.reg .rax).abs
  | .minmax isMax a b => ¬Writes (b.gen sc ty) .rdi ∧
      ∀ s s', run ((Expr.minmax isMax a b).gen sc ty) s = some s' → ∃ s1 s2, run (a.gen sc ty) s = some s1 ∧
        run (b.gen sc ty) (s1.setReg .rdi (s1.reg .rax)) = some s2 ∧
        s'.reg .rax = pick isMax (s1.reg .rax) (s2.reg .rax)
  | _ => True

/-- There is no shift in the right operand of a shift, and no builtin in the second argument of `min` or
`max`. -/
def Unparked : Expr → Prop
  | .bin .shl _ r | .bin .shr _ r => ∀ u ∈ r.parts, ¬u.Parks .r11
  | .minmax _ _ b => ∀ u ∈ b.parts, ¬u.Parks .rdi
  | _ => True

variable {sc ty} {e l r : Expr} {s s' s1 s2 t : State} {op : BinOp} {q : Reg}

/-- The registers in which operands wait. -/
theorem not_writes_after (hq : q = .r11 ∨ q = .rdi) (op : BinOp) (c : Option (BitVec 64)) : ¬Writes (after op c) q := by
  rcases hq with rfl | rfl <;> cases op <;> simp only [after] <;> (repeat' split) <;>
    simp [Instr.targets]

theorem writes_before (hq : q = .r11 ∨ q = .rdi) (l r : Expr) : Writes (before op) q ↔ (Expr.bin op l r).Parks q := by
  rcases hq with rfl | rfl <;> cases op <;> simp [before, Instr.targets, Expr.Parks]

theorem not_writes_unary (hq : q = .r11 ∨ q = .rdi) (uop : UnOp) : ¬Writes uop.code q := by
  rcases hq with rfl | rfl <;> cases uop <;> simp [UnOp.code, Instr.targets]

theorem not_writes_cmp (hq : q = .r11 ∨ q = .rdi) (cc : Cc) (c : Option (BitVec 64)) :
    ¬Writes (cmpCode cc c ++ setCode cc) q := by
  rcases hq with rfl | rfl <;> simp only [cmpCode, setCode] <;> split <;> simp [Instr.targets]

theorem not_writes_var (hq : q = .r11 ∨ q = .rdi) (x : String) : ¬Writes (varCode sc x) q := by
  rintro ⟨i, hi, hm⟩
  obtain ⟨v, -, rfl⟩ := Option.map_eq_some_iff.1 (Option.mem_toList.1 hi)
  unfold loadVar at hm
  rcases hq with rfl | rfl <;> split at hm <;> simp [Instr.targets] at hm

theorem not_writes_member (hq : q = .r11 ∨ q = .rdi) (x m : String) : ¬Writes ((Expr.member x m).gen sc ty) q := by
  rw [Expr.gen, writes_append, not_or]
  refine ⟨not_writes_var hq x, ?_⟩
  rintro ⟨i, hi, hm⟩
  obtain ⟨mm, -, rfl⟩ := Option.map_eq_some_iff.1 (Option.mem_toList.1 hi)
  unfold loadMember at hm
  rcases hq with rfl | rfl <;> split at hm <;> simp [Instr.targets] at hm

/-- A part of an operation is the operation, or a part of an operand. -/
theorem exists_parts {p : Expr → Prop} {us vs : List Expr} :
    (∃ u ∈ e :: (us ++ vs), p u) ↔ p e ∨ (∃ u ∈ us, p u) ∨ ∃ u ∈ vs, p u := by
  simp [or_and_right, exists_or]

/-- **The code writes such a register exactly where a part of the expression keeps an operand in it.** -/
theorem writes_gen (hq : q = .r11 ∨ q = .rdi) (e : Expr) : Writes (e.gen sc ty) q ↔ ∃ u ∈ e.parts, u.Parks q := by
  induction e with
  | num | sizeof => rcases hq with rfl | rfl <;> simp [Expr.gen, Expr.parts, Expr.Parks, Instr.targets]
  | var x => simpa [Expr.gen, Expr.parts, Expr.Parks] using not_writes_var hq x
  | member x m => simpa [Expr.parts, Expr.Parks] using not_writes_member hq x m
  | paren e ih =>
    rw [Expr.gen, ih]
    simp [Expr.parts, Expr.Parks]
  | unary uop e ih =>
    rw [Expr.gen, writes_append, ih]
    simp [Expr.parts, Expr.Parks, not_writes_unary hq]
  | bin op l r ihl ihr =>
    rw [Expr.gen, writes_append, writes_append, writes_append, ihl, ihr, writes_before hq l r, Expr.parts, exists_parts]
    simp only [not_writes_after hq, or_false]
    rw [or_right_comm, or_comm, ← or_assoc, or_assoc]
  | cmp cc l r ihl ihr =>
    rw [Expr.gen, List.append_assoc _ (cmpCode _ _), writes_append, writes_append, writes_append, ihl, ihr,
      Expr.parts, exists_parts]
    simp [not_writes_cmp hq, Expr.Parks, Instr.targets]
  | abs f e ih =>
    rw [Expr.gen, writes_append, writes_append, ih]
    rcases hq with rfl | rfl <;> simp [emitAbsBranchless, Instr.targets, Expr.parts, Expr.Parks]
  | minmax isMax a b iha ihb =>
    rw [Expr.gen, writes_append, writes_append, writes_append, writes_append, iha, ihb, Expr.parts, exists_parts]
    rcases hq with rfl | rfl <;> simp [emitMinmaxCmov, Instr.targets, Expr.Parks]

/-! ## What becomes of the operand -/

/-- The code of a shift, with the left operand still in R11. -/
theorem shift_value (hop : op = .shl ∨ op = .shr) (hr : ¬Writes (r.gen sc ty) .r11)
    (h : run ((Expr.bin op l r).gen sc ty) s = some s') :
    ∃ s1 s2, run (l.gen sc ty) s = some s1 ∧ run (r.gen sc ty) (parked op s1) = some s2 ∧
      op.apply (s1.reg .rax) (s2.reg .rax) = some (s'.reg .rax) := by
  obtain ⟨s1, s2, t, h1, h2, h3, h4⟩ := run_operands h
  rw [run_before] at h2
  cases h2
  refine ⟨s1, t, h1, h3, ?_⟩
  have hr11 := run_reg h3 hr
  rcases hop with rfl | rfl
  all_goals
    cases h4
    simp [BinOp.apply, hr11, parked]

/-- `min` and `max`, with the first argument still in RDI. -/
theorem minmax_survives {isMax : Bool} (hr : ¬Writes (r.gen sc ty) .rdi)
    (h : run ((Expr.minmax isMax l r).gen sc ty) s = some s') :
    ∃ s1 s2, run (l.gen sc ty) s = some s1 ∧ run (r.gen sc ty) (s1.setReg .rdi (s1.reg .rax)) = some s2 ∧
      s'.reg .rax = pick isMax (s1.reg .rax) (s2.reg .rax) := by
  obtain ⟨s1, s2, h1, h2, hv⟩ := minmax_value h
  rw [run_reg h2 hr, setReg_reg, if_pos rfl] at hv
  exact ⟨s1, s2, h1, h2, hv⟩

/-- No operand is lost in an operation, exactly when there is nothing in its operands that parks one. -/
theorem survives_iff (e : Expr) : Survives sc ty e ↔ Unparked e := by
  have hnot (q : Reg) (hq : q = .r11 ∨ q = .rdi) (u : Expr) : ¬Writes (u.gen sc ty) q ↔ ∀ x ∈ u.parts, ¬x.Parks q := by
    rw [writes_gen hq, not_exists]
    exact forall_congr' fun _ => not_and
  cases e with
  | bin op l r =>
    cases op with
    | shl | shr =>
      rw [Unparked, ← hnot .r11 (.inl rfl)]
      exact ⟨fun h => (h (by simp)).1, fun h _ => ⟨h, fun s s' hrun => shift_value (by simp) h hrun⟩⟩
    | _ => simp [Survives, Unparked]
  | abs f e => exact ⟨fun _ => trivial, fun _ s s' h => abs_value h⟩
  | minmax isMax a b =>
    rw [Unparked, ← hnot .rdi (.inr rfl)]
    exact ⟨fun h => h.1, fun h => ⟨h, fun s s' hrun => minmax_survives h hrun⟩⟩
  | _ => simp [Survives, Unparked]

/-- The code of an expression is emitted. -/
def Emits (sc : MinicScope) (ty : List MinicType) (e : Expr) : Prop :=
  ∀ chain stop, ReadBy e chain stop → ∀ rest mc, Ready sc ty mc → stop (cur rest) →
    ∃ mc', compileTokens chain (e.tokens ++ rest) mc = some (rest, mc') ∧
      mc'.code = mc.code ++ e.gen sc ty

/-- **In the code of an expression no waiting operand is overwritten, and every shift, `abs`, `min` and
`max` computes its operation of its operands, exactly if there is no shift in the right operand of a shift
and no builtin in the second argument of `min` or `max`.** -/
theorem operands_survive (hw : e.Wf sc ty) :
    Emits sc ty e ∧ ((∀ u ∈ e.parts, Survives sc ty u) ↔ ∀ u ∈ e.parts, Unparked u) := by
  constructor
  · intro chain stop hb rest mc hr hs
    obtain ⟨mc', he, hcode, -⟩ := reads_by hw hb hr hs
    exact ⟨mc', he, hcode⟩
  · exact forall_congr' fun u => forall_congr' fun _ => survives_iff u

/-- `min(x << 2, 7)` -/
theorem operands_survive_sample : Emits xScope [] (.minmax false (.bin .shl (.var "x") (.num 2)) (.num 7)) ∧
      ∀ u ∈ (Expr.minmax false (.bin .shl (.var "x") (.num 2)) (.num 7)).parts, Survives xScope [] u := by
  have hw : (Expr.minmax false (.bin .shl (.var "x") (.num 2)) (.num 7)).Wf xScope [] := by
    simp [Expr.Wf, Expr.prec, BinOp.level, scopeFind, xScope]
  have h := operands_survive hw
  exact ⟨h.1, h.2.2 (by simp [Expr.parts, Unparked, Expr.Parks])⟩

/-- `1 << (2 << 1)` comes out as 32: the 1 has made way for the 2. -/
theorem operands_survive_fails : (Expr.bin .shl (.num 1) (.paren (.bin .shl (.num 2) (.num 1)))).Wf xScope [] ∧
      (∀ s, (run ((Expr.bin .shl (.num 1) (.paren (.bin .shl (.num 2) (.num 1)))).gen xScope []) s).map
        (·.reg .rax) = some 32) ∧
      ¬∀ u ∈ (Expr.bin .shl (.num 1) (.paren (.bin .shl (.num 2) (.num 1)))).parts, Survives xScope [] u := by
  refine ⟨by simp [Expr.Wf, Expr.prec, BinOp.level], fun s => rfl, fun h => ?_⟩
  have hs := h _ (self_mem_parts _)
  exact (hs (.inl rfl)).1 (by simp [Expr.gen, before, Instr.targets])

end WuBuOS.Jit
