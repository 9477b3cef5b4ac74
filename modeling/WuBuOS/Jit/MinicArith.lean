import WuBuOS.Jit.MinicTree

/-!
# The code of an expression, run

Whatever code is emitted for an expression, if it runs to its end it leaves the stack as it found it
(`frame_gen`): each operator that pushes its left operand pops it again, by whichever path.

For expressions of literals, variables in frame slots, parentheses, `-`, `~` and the operators that are
neither shifts nor comparisons, the code does run to its end whenever the expression has a value, and
leaves that value in RAX (`arith_run`).  The induction carries one more fact, that what the compiler
takes for a constant is the value (`value_of_track`), because the operators with a constant operand
throw away what they have computed.

`arith_correct` says the same of the tokens and the function `compile_bitwise_or`.
-/

namespace WuBuOS.Jit

open X86

/-! ## Values -/

/-- The operation of the source language, on 64-bit integers that wrap around: `none` is a division
that C does not define. -/
def BinOp.apply (op : BinOp) (a b : BitVec 64) : Option (BitVec 64) :=
  match op with
  | .star => some (a * b)
  | .slash => if b = 0 ∨ a = .intMin 64 ∧ b = -1 then none else some (a.sdiv b)
  | .percent => if b = 0 ∨ a = .intMin 64 ∧ b = -1 then none else some (a.srem b)
  | .plus => some (a + b)
  | .minus => some (a - b)
  | .shl => some (a <<< (b.toNat % 64))
  | .shr => some (a.sshiftRight (b.toNat % 64))
  | .amp => some (a &&& b)
  | .caret => some (a ^^^ b)
  | .pipe => some (a ||| b)

/-- The operators of the arithmetic fragment. -/
def BinOp.Arith : BinOp → Prop
  | .shl | .shr => False
  | _ => True

/-- Literals, variables, parentheses, `-`, `~` and the arithmetic and bitwise operators. -/
def Expr.Arith : Expr → Prop
  | .num _ | .var _ => True
  | .paren e => e.Arith
  | .unary op e => op ≠ .not ∧ e.Arith
  | .bin op l r => op.Arith ∧ l.Arith ∧ r.Arith
  | _ => False

/-- The value of an expression of the fragment, given the contents of the variables. -/
def Expr.value (env : String → BitVec 64) : Expr → Option (BitVec 64)
  | .num v => some v
  | .var x => some (env x)
  | .paren e => e.value env
  | .unary .minus e => (e.value env).map fun v => -v
  | .unary .tilde e => (e.value env).map fun v => ~~~v
  | .bin op l r => (l.value env).bind fun a => (r.value env).bind fun b => op.apply a b
  | _ => none

variable {sc : MinicScope} {ty : List MinicType} {env : String → BitVec 64} {e : Expr}
  {s s' s1 s2 t : State} {v w : BitVec 64} {op : BinOp}

/-- **A tracked constant is the value**, in the fragment. -/
theorem value_of_track (ha : e.Arith) (h : e.track ty = some v) : e.value env = some v := by
  induction e generalizing v with
  | num => exact h
  | paren e ih => exact ih ha h
  | unary op e ih =>
    cases op with
    | not => exact absurd rfl ha.1
    | minus | tilde =>
      obtain ⟨w, hw, rfl⟩ := Option.map_eq_some_iff.1 h
      rw [Expr.value, ih ha.2 hw]
      rfl
  | var | bin => cases h
  | member | sizeof | cmp | abs | minmax => exact ha.elim

/-! ## The stack -/

/-- The state when the right operand of `op` begins. -/
def parked (op : BinOp) (s : State) : State :=
  match op with
  | .shl | .shr => s.setReg .r11 (s.reg .rax)
  | _ => s.pushed (s.reg .rax)

theorem run_before (op : BinOp) (s : State) : run (before op) s = some (parked op s) := by
  cases op <;> rfl

theorem parked_arith (h : op.Arith) (s : State) : parked op s = s.pushed (s.reg .rax) := by
  cases op with
  | shl | shr => exact h.elim
  | _ => rfl

/-- The code of an operator leaves the stack as it was before the left operand was put away. -/
theorem frame_after {c : Option (BitVec 64)} (h : Frame (parked op s) t) (hr : run (after op c) t = some s') :
    Frame s s' := by
  cases op <;> simp only [after] at hr
  case shl | shr =>
    have hp : Frame s t := ⟨h.rsp, h.rbp, h.mem⟩
    exact hp.trans (frame_run hr (by simp [Instr.Quiet]))
  case star =>
    split at hr
    · exact frame_pop [] [_] (by simp) (by simp [Instr.Quiet]) h hr
    · split at hr
      · exact frame_pop [] [] (by simp) (by simp) h hr
      · exact frame_pop [_] [_] (by simp [Instr.Quiet]) (by simp [Instr.Quiet]) h hr
  case slash =>
    split at hr
    · exact frame_pop [] [] (by simp) (by simp) h hr
    · exact frame_pop [_] [_, _] (by simp [Instr.Quiet]) (by simp [Instr.Quiet]) h hr
  case percent => exact frame_pop [_] [_, _, _] (by simp [Instr.Quiet]) (by simp [Instr.Quiet]) h hr
  case plus | minus =>
    split at hr
    · exact frame_pop [] [] (by simp) (by simp) h hr
    · exact frame_pop [_] [_] (by simp [Instr.Quiet]) (by simp [Instr.Quiet]) h hr
  case amp | caret | pipe => exact frame_pop [_] [_] (by simp [Instr.Quiet]) (by simp [Instr.Quiet]) h hr

theorem quiet_var {x : String} : ∀ i ∈ varCode sc x, i.Quiet := by
  intro i hi
  obtain ⟨v, -, rfl⟩ := Option.map_eq_some_iff.1 (Option.mem_toList.1 hi)
  unfold loadVar
  split <;> trivial

theorem quiet_member (x m : String) : ∀ i ∈ (Expr.member x m).gen sc ty, i.Quiet := by
  intro i hi
  rcases List.mem_append.1 hi with hi | hi
  · exact quiet_var i hi
  · obtain ⟨mm, -, rfl⟩ := Option.map_eq_some_iff.1 (Option.mem_toList.1 hi)
    unfold loadMember
    split <;> trivial

/-- **Whatever is emitted for an expression leaves the stack as it was.** -/
theorem frame_gen (e : Expr) : ∀ {s s' : State}, run (e.gen sc ty) s = some s' → Frame s s' := by
  induction e with
  | num v | sizeof t => exact fun h => frame_run h (by simp [Expr.gen, Instr.Quiet])
  | var x => exact fun h => frame_run h quiet_var
  | member x m => exact fun h => frame_run h (quiet_member x m)
  | paren e ih => exact ih
  | unary op e ih =>
    intro s s' h
    obtain ⟨s1, h1, h2⟩ := run_append_inv h
    exact (ih h1).trans (frame_run h2 (by cases op <;> simp [UnOp.code, Instr.Quiet]))
  | bin op l r ihl ihr =>
    intro s s' h
    obtain ⟨s3, h, h4⟩ := run_append_inv h
    obtain ⟨s2, h, h3⟩ := run_append_inv h
    obtain ⟨s1, h1, h2⟩ := run_append_inv h
    rw [run_before] at h2
    cases h2
    exact (ihl h1).trans (frame_after (ihr h3) h4)
  | cmp cc l r ihl ihr =>
    intro s s' h
    obtain ⟨s4, h, h5⟩ := run_append_inv h
    obtain ⟨s3, h, h4⟩ := run_append_inv h
    obtain ⟨s2, h, h3⟩ := run_append_inv h
    obtain ⟨s1, h1, h2⟩ := run_append_inv h
    cases h2
    have hpop : Frame s1 s4 := frame_pop [_] [_] (by simp [Instr.Quiet]) (by
      simp only [List.mem_singleton, forall_eq]
      split <;> trivial) (ihr h3) h4
    exact ((ihl h1).trans hpop).trans (frame_run h5 (by simp [setCode, Instr.Quiet]))
  | abs f e ih =>
    intro s s' h
    obtain ⟨s2, h, h3⟩ := run_append_inv h
    obtain ⟨s1, h1, h2⟩ := run_append_inv h
    exact ((ih h1).trans (frame_run h2 (by simp [Instr.Quiet]))).trans
      (frame_run h3 (by simp [emitAbsBranchless, Instr.Quiet]))
  | minmax isMax a b iha ihb =>
    intro s s' h
    obtain ⟨s4, h, h5⟩ := run_append_inv h
    obtain ⟨s3, h, h4⟩ := run_append_inv h
    obtain ⟨s2, h, h3⟩ := run_append_inv h
    obtain ⟨s1, h1, h2⟩ := run_append_inv h
    have ha := (iha h1).trans (frame_run h2 (by simp [Instr.Quiet]))
    have hb := (ihb h3).trans (frame_run h4 (by simp [Instr.Quiet]))
    exact (ha.trans hb).trans (frame_run h5 (by simp [emitMinmaxCmov, Instr.Quiet]))

/-! ## The values -/

/-- The variables are in slots of the frame, at or above the stack pointer, and hold `env`. -/
def Slots (sc : MinicScope) (s : State) (env : String → BitVec 64) : Prop :=
  ∀ x v, scopeFind sc x = some v → v.isArg = false ∧ s.rsp ≤ s.rbp + v.slot ∧
    load s.mem (s.rbp + v.slot) = env x

theorem Slots.frame (h : Slots sc s env) (hf : Frame s s') : Slots sc s' env := fun x v hx => by
  obtain ⟨ha, hlo, hv⟩ := h x v hx
  rw [hf.rsp, hf.rbp]
  exact ⟨ha, hlo, (hf.load hlo).trans hv⟩

theorem Slots.parked (h : Slots sc s env) (op : BinOp) : Slots sc (parked op s) env := fun x v hx => by
  obtain ⟨ha, hlo, hv⟩ := h x v hx
  have hpush : (s.pushed (s.reg .rax)).rsp ≤ s.rbp + v.slot := by
    show s.rsp - 8 ≤ _
    omega
  cases op with
  | shl | shr => exact ⟨ha, hlo, hv⟩
  | _ => exact ⟨ha, hpush, (load_pushed s _ hlo).trans hv⟩

/-- What the operator pops is its left operand. -/
theorem run_pop (h : Frame (s.pushed v) t) (x : Reg) (c : List Instr) :
    run (.movRegReg x .rax :: .pop .rax :: c) t = run c ((t.setReg x (t.reg .rax)).popped .rax v) := by
  rw [run_cons, step, Option.bind_some, run_cons, (step_pop (h.setReg x (t.reg .rax)) .rax).1, Option.bind_some]

/-- The division, if C defines it. -/
theorem run_div (h : Frame (s.pushed v) t) (hd : ¬(t.reg .rax = 0 ∨ v = .intMin 64 ∧ t.reg .rax = -1)) :
    ∃ s', run [.cqo, .idivReg .rcx] ((t.setReg .rcx (t.reg .rax)).popped .rax v) = some s' ∧
      Frame s s' ∧ s'.reg .rax = v.sdiv (t.reg .rax) ∧ s'.reg .rdx = v.srem (t.reg .rax) := by
  have hf := (step_pop (h.setReg .rcx (t.reg .rax)) .rax).2
  have hrcx : ((t.setReg .rcx (t.reg .rax)).popped .rax v).reg .rcx = t.reg .rax := by simp
  have hrax : ((t.setReg .rcx (t.reg .rax)).popped .rax v).reg .rax = v := by simp
  rw [not_or, not_and_or] at hd
  obtain ⟨s', hs, hf', hq, hm⟩ := run_cqo_idiv (r := .rcx) (by decide) (hrcx.symm ▸ hd.1)
    (by rw [hrcx, hrax]; exact hd.2)
  rw [hrax, hrcx] at hq hm
  exact ⟨s', hs, hf.trans hf', hq, hm⟩

/-- **The code of an operator computes the operation**, if the constant that it is given is the value of
its right operand. -/
theorem run_after {c : Option (BitVec 64)} (h : Frame (s.pushed v) t) (hop : op.Arith)
    (hc : ∀ k, c = some k → k = t.reg .rax) (hv : op.apply v (t.reg .rax) = some w) :
    ∃ s', run (after op c) t = some s' ∧ s'.reg .rax = w := by
  have hp := (step_pop h .rax).1
  cases op <;> simp only [BinOp.apply, Option.some.injEq, Option.ite_none_left_eq_some] at hv <;>
    simp only [after]
  case shl | shr => exact hop.elim
  case star =>
    subst hv
    split
    case isTrue h0 =>
      refine ⟨_, by rw [run_cons, hp]; rfl, ?_⟩
      simp [← hc 0 h0]
    case isFalse =>
      split
      case isTrue h1 =>
        refine ⟨_, by rw [run_cons, hp]; rfl, ?_⟩
        simp [← hc 1 h1]
      case isFalse =>
        refine ⟨_, by rw [run_pop h]; rfl, ?_⟩
        simp
  case slash =>
    obtain ⟨hd, rfl⟩ := hv
    split
    case isTrue h1 =>
      refine ⟨_, by rw [run_cons, hp]; rfl, ?_⟩
      simp [← hc 1 h1]
    case isFalse =>
      obtain ⟨s', hs, -, hq, -⟩ := run_div h hd
      exact ⟨s', by rw [run_pop h, hs], hq⟩
  case percent =>
    obtain ⟨hd, rfl⟩ := hv
    obtain ⟨s', hs, -, -, hm⟩ := run_div h hd
    refine ⟨s'.setReg .rax (s'.reg .rdx), ?_, ?_⟩
    · rw [run_pop h]
      exact run_append_of hs
    · simp [hm]
  case plus | minus =>
    subst hv
    split
    case isTrue h0 =>
      refine ⟨_, by rw [run_cons, hp]; rfl, ?_⟩
      simp [← hc 0 h0]
    case isFalse =>
      refine ⟨_, by rw [run_pop h]; rfl, ?_⟩
      simp
  case amp | caret | pipe =>
    subst hv
    refine ⟨_, by rw [run_pop h]; rfl, ?_⟩
    simp

/-- The code of an expression of the fragment runs to its end, and leaves the value in RAX. -/
theorem arith_run (ha : e.Arith) (hw : e.Wf sc ty) : ∀ {s : State} {v : BitVec 64}, Slots sc s env →
    e.value env = some v → ∃ s', run (e.gen sc ty) s = some s' ∧ s'.reg .rax = v := by
  induction e with
  | num v =>
    intro s w _ hv
    cases hv
    exact ⟨_, rfl, by simp⟩
  | var x =>
    intro s w hs hv
    cases hv
    obtain ⟨v, hx⟩ := Option.isSome_iff_exists.1 hw
    obtain ⟨harg, -, hload⟩ := hs x v hx
    have hgen : Expr.gen sc ty (.var x) = [.movRegMem .rax .rbp v.slot] := by
      rw [Expr.gen, varCode, hx]
      simp [loadVar, harg]
    exact ⟨s.setReg .rax (load s.mem (s.rbp + v.slot)), by rw [hgen]; rfl, by simp [hload]⟩
  | paren e ih => exact fun hs hv => ih ha hw hs hv
  | unary uop e ih =>
    intro s w hs hv
    cases uop with
    | not => exact absurd rfl ha.1
    | minus | tilde =>
      obtain ⟨u, hu, rfl⟩ := Option.map_eq_some_iff.1 hv
      obtain ⟨s1, h1, rfl⟩ := ih ha.2 hw.2 hs hu
      refine ⟨_, by rw [Expr.gen, run_append_of h1]; rfl, ?_⟩
      simp
  | bin op l r ihl ihr =>
    intro s w hs hv
    obtain ⟨a, hl, hv⟩ := Option.bind_eq_some_iff.1 hv
    obtain ⟨b, hr, hv⟩ := Option.bind_eq_some_iff.1 hv
    obtain ⟨s1, h1, rfl⟩ := ihl ha.2.1 hw.2.2.1 hs hl
    have hs1 := (hs.frame (frame_gen l h1)).parked op
    obtain ⟨s2, h2, rfl⟩ := ihr ha.2.2 hw.2.2.2 hs1 hr
    have hf : Frame (s1.pushed (s1.reg .rax)) s2 := by
      rw [← parked_arith ha.1]
      exact frame_gen r h2
    have hc : ∀ k, r.track ty = some k → k = s2.reg .rax := fun k hk =>
      Option.some.inj ((value_of_track ha.2.2 hk).symm.trans hr)
    obtain ⟨s', h', hw⟩ := run_after hf ha.1 hc hv
    refine ⟨s', ?_, hw⟩
    rw [Expr.gen, run_append, run_append, run_append_of h1, run_before, Option.bind_some, h2, Option.bind_some, h']
  | member | sizeof | cmp | abs | minmax => exact ha.elim

/-! ## From the tokens -/

/-- Expressions of the fragment are what `compile_bitwise_or` reads. -/
theorem prec_of_arith (h : e.Arith) : 1 ≤ e.prec := by
  cases e with
  | bin op => exact (level_pos op).1
  | cmp => exact h.elim
  | _ =>
    show 1 ≤ 7
    decide

/-- **The compiled expression computes its value**: `compile_bitwise_or`, on the tokens of an expression of
the fragment with anything behind it, stops behind the expression, and the code that it emits leaves the
value in RAX, the stack pointer, the frame pointer and the memory from the stack pointer up as they
were. -/
theorem arith_correct {mc : MinicCompiler} {rest : List Token} (hr : Ready sc ty mc) (hw : e.Wf sc ty)
    (ha : e.Arith) (hstop : Stops 1 (cur rest)) :
    ∃ mc' code, compileTokens compileBitwiseOr (e.tokens ++ rest) mc = some (rest, mc') ∧
      mc'.error = false ∧ mc'.code = mc.code ++ code ∧
      ∀ env s v, Slots sc s env → e.value env = some v → ∃ s', run code s = some s' ∧
        s'.reg .rax = v ∧ s'.rsp = s.rsp ∧ s'.rbp = s.rbp ∧ ∀ a, s.rsp ≤ a → s'.mem a = s.mem a := by
  have hc := compiles e hw ((e.tokens ++ rest).length + 1) (by simp; omega)
  obtain ⟨mc', he, hm⟩ := hc.reads 1 (Nat.le_refl 1) (prec_of_arith ha) rest mc hr hstop
  refine ⟨mc', e.gen sc ty, he, hm.ready.error, hm.code, fun env s v hs hv => ?_⟩
  obtain ⟨s', h', hval⟩ := arith_run ha hw hs hv
  have hf := frame_gen e h'
  exact ⟨s', h', hval, hf.rsp, hf.rbp, hf.mem⟩

/-- A scope with the variable `x`. -/
def xScope : MinicScope where
  vars := [⟨"x", -8, false, 0⟩]
  stackOffset := -8

/-- A compiler that is ready to begin. -/
def MinicCompiler.start (sc : MinicScope) (ty : List MinicType) : MinicCompiler where
  scope := sc
  types := ty
  code := []
  error := false
  raxIsConst := false
  raxConstVal := 0
  lastWasCompare := false
  lastCompareCc := .e
  cmpAfterPos := 0

/-- `(x + 3) % 5;` -/
theorem arith_correct_sample : ∃ mc' code, compileTokens compileBitwiseOr
        [.lparen, .ident "x", .plus, .number 3, .rparen, .percent, .number 5, .semi] (.start xScope []) =
          some ([.semi], mc') ∧
      mc'.error = false ∧ mc'.code = (MinicCompiler.start xScope []).code ++ code ∧
      ∀ env s v, Slots xScope s env →
        Expr.value env (.bin .percent (.paren (.bin .plus (.var "x") (.num 3))) (.num 5)) = some v →
        ∃ s', run code s = some s' ∧ s'.reg .rax = v ∧ s'.rsp = s.rsp ∧ s'.rbp = s.rbp ∧
          ∀ a, s.rsp ≤ a → s'.mem a = s.mem a := by
  have hready : Ready xScope [] (.start xScope []) := ⟨rfl, rfl, rfl⟩
  have hw : (Expr.bin .percent (.paren (.bin .plus (.var "x") (.num 3))) (.num 5)).Wf xScope [] := by
    simp [Expr.Wf, Expr.prec, BinOp.level, scopeFind, xScope]
  have ha : (Expr.bin .percent (.paren (.bin .plus (.var "x") (.num 3))) (.num 5)).Arith := by
    simp [Expr.Arith, BinOp.Arith]
  have hstop : Stops 1 (cur [.semi]) := ⟨by decide, by decide, fun _ h => by cases h⟩
  have htok : (Expr.bin .percent (.paren (.bin .plus (.var "x") (.num 3))) (.num 5)).tokens ++ [.semi] =
      [.lparen, .ident "x", .plus, .number 3, .rparen, .percent, .number 5, .semi] := rfl
  rw [← htok]
  exact arith_correct hready hw ha hstop

end WuBuOS.Jit
