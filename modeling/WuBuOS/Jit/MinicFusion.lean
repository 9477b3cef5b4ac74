import WuBuOS.Jit.MinicParked

/-!
# Branching on the flags of a comparison

`compile_if_stmt` and `compile_while_stmt` of `jit/jit_minic.c` compile a condition with `compile_expr`.
If the compiler has noted a comparison by then, they take back what stands behind it in the code, and
branch on its flags; otherwise they test RAX (`condition`).

The note does not say where in the condition the comparison stands.  What is taken back may be more than
the code that makes a 0 or 1 of the flags: all that is still to be done with the result.  And what has
been pushed before the comparison is not popped any more.  `fusion_faithful` says that the branch is right
exactly where neither matters.
-/

namespace WuBuOS.Jit

open X86

/-! ## The condition of a statement -/

/-- The condition on which the body is skipped, for a comparison that has been fused. -/
def branchCc : Cc → Cc
  | .e => .ne
  | .ne => .e
  | .l => .ge
  | .g => .le
  | .le => .g
  | .ge => .l

/-- What `compile_if_stmt` and `compile_while_stmt` do from the parenthesis to the `jcc`: the code in front
of the jump, and the condition on which it leads past the body. -/
def condition (ts : List Token) (mc : MinicCompiler) : Option (List Token × MinicCompiler × Cc) := do
  let (ts, mc) ← compileTokens compileExpr (expect .lparen ts) mc
  let ts := expect .rparen ts
  if mc.lastWasCompare then
    some (ts, { mc with code := mc.code.take mc.cmpAfterPos }, branchCc mc.lastCompareCc)
  else some (ts, mc.emit [.testRegReg .rax .rax], .e)

variable (sc : MinicScope) (ty : List MinicType)

/-- The body is entered exactly if the code for the condition, run as an expression, would have left
something other than 0, and the stack pointer is where it was at the start of the condition. -/
def Faithful (c : Expr) : Prop :=
  ∀ rest mc, Ready sc ty mc → ∃ mc' code cc,
    condition (.lparen :: (c.tokens ++ .rparen :: rest)) mc = some (rest, mc', cc) ∧
      mc'.code = mc.code ++ code ∧
      ∀ s s', run (c.gen sc ty) s = some s' → ∃ t f, run code s = some t ∧ t.flags = some f ∧
        (cc.holds f = false ↔ s'.reg .rax ≠ 0) ∧ t.rsp = s.rsp

/-- The outcome of a comparison, which may be made by a `test`. -/
def compared (cc : Cc) (c : Option (BitVec 64)) (a b : BitVec 64) : Bool :=
  cc.holds (if c = some 0 ∧ (cc = .e ∨ cc = .ne) then testFlags a a else cmpFlags a b)

/-- The outcome of the comparison that is compiled last. -/
def Expr.last : Expr → State → Option Bool
  | .paren e, s | .unary _ e, s | .abs _ e, s => e.last s
  | .bin op l r, s =>
    match r.mark sc ty with
    | some _ => (run (l.gen sc ty) s).bind fun s1 => r.last (parked op s1)
    | none => l.last s
  | .cmp cc l r, s => (run (l.gen sc ty) s).bind fun s1 =>
      (run (r.gen sc ty) (s1.pushed (s1.reg .rax))).map fun s2 =>
        compared cc (r.track ty) (s1.reg .rax) (s2.reg .rax)
  | .minmax _ a b, s => (run (a.gen sc ty) s).bind fun s1 => b.last (s1.setReg .rdi (s1.reg .rax))
  | _, _ => none

/-- How many operands `before` puts on the stack. -/
def BinOp.pushes : BinOp → Nat
  | .shl | .shr => 0
  | _ => 1

/-- How many operands are on the stack behind this comparison. -/
def Expr.pending : Expr → Nat
  | .paren e | .unary _ e | .abs _ e => e.pending
  | .bin op l r =>
    match r.mark sc ty with
    | some _ => r.pending + op.pushes
    | none => l.pending
  | .minmax _ _ b => b.pending
  | _ => 0

/-- If there is a comparison to branch on, then wherever the condition has a value, nothing is on the
stack behind this comparison, and it holds exactly if the value is not 0. -/
def Agrees (c : Expr) : Prop :=
  (c.mark sc ty).join ≠ none → ∀ s s', run (c.gen sc ty) s = some s' →
    c.pending sc ty = 0 ∧ (c.last sc ty s = some true ↔ s'.reg .rax ≠ 0)

variable {sc ty} {c e l r : Expr} {s s' s1 s2 t : State} {op : BinOp}

theorem holds_branchCc (cc : Cc) (f : Flags) : (branchCc cc).holds f = !cc.holds f := by
  cases cc <;> simp [branchCc, Cc.holds, bne]

/-! ## The code up to the comparison -/

/-- Where a `test` may stand for the comparison is no matter of the flags' being set. -/
theorem run_cmpCode (cc : Cc) (k : Option (BitVec 64)) {v : BitVec 64} (h : Frame (s.pushed v) t) :
    ∃ t' f, run (cmpCode cc k) t = some t' ∧ t'.flags = some f ∧
      cc.holds f = compared cc k v (t.reg .rax) ∧ t'.rsp = s.rsp := by
  have hpop := run_pop h .rcx
  have hrsp := (step_pop (h.setReg .rcx (t.reg .rax)) .rax).2.rsp
  rw [cmpCode, compared]
  split
  case isTrue =>
    exact ⟨{ (t.setReg .rcx (t.reg .rax)).popped .rax v with flags := some (testFlags v v) }, _, hpop _, rfl, rfl, hrsp⟩
  case isFalse =>
    exact ⟨{ (t.setReg .rcx (t.reg .rax)).popped .rax v with flags := some (cmpFlags v (t.reg .rax)) }, _,
      hpop _, rfl, rfl, hrsp⟩

/-- The code `d` up to a position, run from `s`, ends in a comparison with the outcome `b`, with `n`
operands on the stack. -/
def Cut (d : List Instr) (s : State) (cc : Cc) (k : Nat) (b : Option Bool) (n : Nat) : Prop :=
  ∃ p q t f, d = p ++ q ∧ p.length = k ∧ run p s = some t ∧ t.flags = some f ∧ b = some (cc.holds f) ∧
    t.rsp = s.rsp - 8 * n

variable {d d' : List Instr} {cc : Cc} {k n : Nat} {b : Option Bool}

theorem Cut.append (h : Cut d s cc k b n) (d' : List Instr) : Cut (d ++ d') s cc k b n := by
  obtain ⟨p, q, t, f, rfl, hk, hrun, hf, hb, hn⟩ := h
  exact ⟨p, q ++ d', t, f, List.append_assoc .., hk, hrun, hf, hb, hn⟩

theorem Cut.prepend {m : Nat} (h : Cut d s1 cc k b n) (hrun : run d' s = some s1)
    (hrsp : s1.rsp = s.rsp - 8 * m) : Cut (d' ++ d) s cc (k + d'.length) b (n + m) := by
  obtain ⟨p, q, t, f, rfl, hk, hp, hf, hb, hn⟩ := h
  refine ⟨d' ++ p, q, t, f, (List.append_assoc ..).symm, ?_, by rw [run_append_of hrun, hp], hf, hb, ?_⟩
  · rw [List.length_append, hk, Nat.add_comm]
  · rw [hn, hrsp]
    omega

theorem rsp_parked (op : BinOp) (s : State) : (parked op s).rsp = s.rsp - 8 * op.pushes := by
  cases op with
  | shl | shr => exact (Int.sub_zero _).symm
  | _ => rfl

/-- **The code up to the position that is noted ends in the comparison that is compiled last.** -/
theorem cut_gen (hm : e.mark sc ty = some (some (cc, k))) : ∀ {s s' : State}, run (e.gen sc ty) s = some s' →
    Cut (e.gen sc ty) s cc k (e.last sc ty s) (e.pending sc ty) := by
  induction e generalizing cc k with
  | num | var | member | sizeof => cases hm
  | paren e ih => exact ih (Option.join_eq_some_iff.1 (Option.some.inj hm))
  | unary uop e ih =>
    intro s s' h
    obtain ⟨s1, h1, -⟩ := run_append_inv h
    exact (ih hm h1).append _
  | bin op l r ihl ihr =>
    intro s s' h
    obtain ⟨s1, s2, t, h1, h2, h3, -⟩ := run_operands h
    rw [run_before] at h2
    cases h2
    rw [Expr.mark] at hm
    split at hm
    case h_1 m hr =>
      obtain ⟨⟨cc', k'⟩, rfl, hk⟩ := Option.map_eq_some_iff.1 (Option.some.inj hm)
      obtain ⟨rfl, rfl⟩ := Prod.mk.inj hk
      have hbefore : run (l.gen sc ty ++ before op) s = some (parked op s1) := by
        rw [run_append_of h1, run_before]
      have hrsp := rsp_parked op s1
      rw [(frame_gen l h1).rsp] at hrsp
      have hcut := ((ihr hr h3).prepend hbefore hrsp).append (after op (r.track ty))
      have hlast : Expr.last sc ty (.bin op l r) s = r.last sc ty (parked op s1) := by
        simp only [Expr.last, hr, h1, Option.bind_some]
      have hpend : Expr.pending sc ty (.bin op l r) = r.pending sc ty + op.pushes := by
        simp only [Expr.pending, hr]
      rw [hlast, hpend]
      exact hcut
    case h_2 hr =>
      have hlast : Expr.last sc ty (.bin op l r) s = l.last sc ty s := by simp only [Expr.last, hr]
      have hpend : Expr.pending sc ty (.bin op l r) = l.pending sc ty := by simp only [Expr.pending, hr]
      rw [hlast, hpend]
      exact (((ihl hm h1).append _).append _).append _
  | cmp cc' l r _ _ =>
    intro s s' h
    cases Option.some.inj hm
    rw [Expr.gen, List.append_assoc _ (cmpCode _ _)] at h
    obtain ⟨s1, s2, t, h1, h2, h3, -⟩ := run_operands h
    cases h2
    obtain ⟨t', f, hrun, hf, hb, hrsp⟩ := run_cmpCode cc' (r.track ty) (frame_gen r h3)
    refine ⟨_, _, t', f, rfl, rfl, ?_, hf, ?_, ?_⟩
    · rw [run_append, run_append, run_append_of h1]
      exact (congrArg (Option.bind · _) h3).trans hrun
    · rw [Expr.last, h1, hb]
      exact congrArg (Option.map _) h3
    · rw [hrsp, (frame_gen l h1).rsp]
      exact (Int.sub_zero _).symm
  | abs f e ih =>
    intro s s' h
    rw [Expr.gen, List.append_assoc] at h ⊢
    obtain ⟨s1, h1, -⟩ := run_append_inv h
    exact (ih (Option.join_eq_some_iff.1 (Option.some.inj hm)) h1).append _
  | minmax isMax a b iha ihb =>
    intro s s' h
    obtain ⟨⟨cc', k'⟩, hb, hk⟩ := Option.map_eq_some_iff.1 (Option.some.inj hm)
    obtain ⟨rfl, rfl⟩ := Prod.mk.inj hk
    rw [Expr.gen, List.append_assoc] at h ⊢
    obtain ⟨s1, s2, t, h1, h2, h3, -⟩ := run_operands h
    cases h2
    have hbefore : run (a.gen sc ty ++ [.movRegReg .rdi .rax]) s = some (s1.setReg .rdi (s1.reg .rax)) := by
      rw [run_append_of h1]
      rfl
    have hrsp : (s1.setReg .rdi (s1.reg .rax)).rsp = s.rsp - 8 * (0 : Nat) :=
      (frame_gen a h1).rsp.trans (Int.sub_zero _).symm
    have hlast : Expr.last sc ty (.minmax isMax a b) s = b.last sc ty (s1.setReg .rdi (s1.reg .rax)) := by
      rw [Expr.last, h1]
      rfl
    rw [hlast]
    exact ((ihb (Option.join_eq_some_iff.1 hb) h3).prepend hbefore hrsp).append _

/-! ## The branch -/

/-- The code in front of the jump, and the condition on which it is taken. -/
def branch (sc : MinicScope) (ty : List MinicType) (c : Expr) : List Instr × Cc :=
  match (c.mark sc ty).join with
  | some (cc, k) => ((c.gen sc ty).take k, branchCc cc)
  | none => (c.gen sc ty ++ [.testRegReg .rax .rax], .e)

/-- What the statement does with the tokens of a condition. -/
theorem condition_eq (hw : c.Wf sc ty) (rest : List Token) {mc : MinicCompiler} (hr : Ready sc ty mc) :
    ∃ mc', condition (.lparen :: (c.tokens ++ .rparen :: rest)) mc =
      some (rest, mc', (branch sc ty c).2) ∧ mc'.code = mc.code ++ (branch sc ty c).1 := by
  have hc := compiles c hw ((c.tokens ++ .rparen :: rest).length + 1) (by simp; omega)
  obtain ⟨mc', he, hm⟩ := hc.expr (.rparen :: rest) mc hr stops_rparen
  have he : compileTokens compileExpr (c.tokens ++ .rparen :: rest) mc = some (.rparen :: rest, mc') := he
  have hmark := hm.mark
  rw [condition, expect_cons, he]
  simp only [Option.bind_eq_bind, Option.bind_some, expect_cons]
  cases hj : (c.mark sc ty).join with
  | some p =>
    rw [hj] at hmark
    obtain ⟨hwas, hcc, hpos⟩ := hmark
    rw [branch, hj, if_pos hwas, hcc]
    refine ⟨_, rfl, ?_⟩
    rw [hpos, hm.code, List.take_length_add_append]
  | none =>
    rw [hj] at hmark
    have hwas : mc'.lastWasCompare = false := hmark
    rw [branch, hj, hwas]
    refine ⟨_, rfl, ?_⟩
    rw [hm.ready.emit, hm.code, List.append_assoc]

/-- The code in front of the jump does what it should. -/
def BranchOk (sc : MinicScope) (ty : List MinicType) (c : Expr) : Prop :=
  ∀ s s', run (c.gen sc ty) s = some s' → ∃ t f, run (branch sc ty c).1 s = some t ∧ t.flags = some f ∧
    ((branch sc ty c).2.holds f = false ↔ s'.reg .rax ≠ 0) ∧ t.rsp = s.rsp

theorem faithful_iff (hw : c.Wf sc ty) : Faithful sc ty c ↔ BranchOk sc ty c := by
  constructor
  · intro h s s' hrun
    have hready : Ready sc ty (.start sc ty) := ⟨rfl, rfl, rfl⟩
    obtain ⟨mc', code, cc, he, hcode, hall⟩ := h [] _ hready
    obtain ⟨mc'', he', hcode'⟩ := condition_eq hw [] hready
    obtain ⟨rfl, hcc⟩ := Prod.mk.inj (Prod.mk.inj (Option.some.inj (he.symm.trans he'))).2
    obtain rfl : code = (branch sc ty c).1 := List.append_cancel_left (hcode.symm.trans hcode')
    rw [← hcc]
    exact hall s s' hrun
  · intro h rest mc hr
    obtain ⟨mc', he, hcode⟩ := condition_eq hw rest hr
    exact ⟨mc', _, _, he, hcode, h⟩

/-- **The branch is right, exactly where the comparison says of the condition what its value says, and
nothing is on the stack behind it.** -/
theorem fusion_faithful (hw : c.Wf sc ty) : Faithful sc ty c ↔ Agrees sc ty c := by
  rw [faithful_iff hw]
  cases hj : (c.mark sc ty).join with
  | none =>
    have hb : branch sc ty c = (c.gen sc ty ++ [.testRegReg .rax .rax], .e) := by rw [branch, hj]
    refine ⟨fun _ hne => absurd hj hne, fun _ s s' h => ?_⟩
    rw [hb]
    refine ⟨{ s' with flags := some (testFlags (s'.reg .rax) (s'.reg .rax)) }, _, ?_, rfl, ?_, (frame_gen c h).rsp⟩
    · rw [run_append_of h]
      rfl
    · rw [Cc.holds_testFlags (.inl rfl)]
      exact beq_eq_false_iff_ne
  | some p =>
    obtain ⟨cc, k⟩ := p
    have hb : branch sc ty c = ((c.gen sc ty).take k, branchCc cc) := by rw [branch, hj]
    have hall : ∀ s s', run (c.gen sc ty) s = some s' → ((∃ t f, run (branch sc ty c).1 s = some t ∧ t.flags = some f ∧
          ((branch sc ty c).2.holds f = false ↔ s'.reg .rax ≠ 0) ∧ t.rsp = s.rsp) ↔
        c.pending sc ty = 0 ∧ (c.last sc ty s = some true ↔ s'.reg .rax ≠ 0)) := fun s s' h => by
      obtain ⟨q, q', t, f, hgen, hk, hrun, hf, hlast, hrsp⟩ := cut_gen (Option.join_eq_some_iff.1 hj) h
      have htake : (c.gen sc ty).take k = q := by rw [hgen, ← hk, List.take_left]
      rw [hb, htake, hlast, Option.some.injEq]
      constructor
      · rintro ⟨t', f', hrun', hf', hiff, hsame⟩
        obtain rfl : t = t' := Option.some.inj (hrun.symm.trans hrun')
        obtain rfl : f = f' := Option.some.inj (hf.symm.trans hf')
        rw [holds_branchCc, Bool.not_eq_false'] at hiff
        exact ⟨by omega, hiff⟩
      · rintro ⟨hpend, hiff⟩
        refine ⟨t, f, hrun, hf, ?_, by omega⟩
        rw [holds_branchCc, Bool.not_eq_false']
        exact hiff
    refine ⟨fun h _ s s' hrun => (hall s s' hrun).mp (h s s' hrun),
      fun h s s' hrun => (hall s s' hrun).2 (h (hj ▸ Option.some_ne_none _) s s' hrun)⟩

/-- A comparison, in parentheses or not. -/
def Expr.Bare : Expr → Prop
  | .paren e => e.Bare
  | .cmp _ _ _ => True
  | _ => False

/-- A comparison that is the whole condition. -/
theorem agrees_of_bare (h : c.Bare) : Agrees sc ty c := by
  induction c with
  | paren e ih => exact ih h
  | cmp cc l r _ _ =>
    intro _ s s' hrun
    refine ⟨rfl, ?_⟩
    rw [Expr.gen, List.append_assoc _ (cmpCode _ _)] at hrun
    obtain ⟨s1, s2, t, h1, h2, h3, h4⟩ := run_operands hrun
    cases h2
    obtain ⟨t', f, hcmp, hf, hb, -⟩ := run_cmpCode cc (r.track ty) (frame_gen r h3)
    obtain ⟨t'', hset, hv⟩ := run_setcc cc hf
    rw [run_append_of hcmp, setCode, hset] at h4
    cases h4
    have hlast : Expr.last sc ty (.cmp cc l r) s = some (compared cc (r.track ty) (s1.reg .rax) (t.reg .rax)) := by
      rw [Expr.last, h1]
      exact congrArg (Option.map _) h3
    rw [hlast, hv, hb, Option.some.injEq]
    cases compared cc (r.track ty) (s1.reg .rax) (t.reg .rax) <;> simp [ofBool]
  | _ => exact h.elim

/-- `if ((x < 10))` -/
theorem fusion_faithful_sample : Faithful xScope [] (.paren (.cmp .l (.var "x") (.num 10))) := by
  have hw : (Expr.paren (.cmp .l (.var "x") (.num 10))).Wf xScope [] := by
    simp [Expr.Wf, Expr.prec, scopeFind, xScope]
  exact (fusion_faithful hw).2 (agrees_of_bare trivial)

/-- `if (!(x == 0))`, with 0 for `x`: the condition is 0, and the body is entered. -/
theorem fusion_fails : (Expr.unary .not (.paren (.cmp .e (.var "x") (.num 0)))).Wf xScope [] ∧
      ¬Faithful xScope [] (.unary .not (.paren (.cmp .e (.var "x") (.num 0)))) := by
  have hw : (Expr.unary .not (.paren (.cmp .e (.var "x") (.num 0)))).Wf xScope [] := by
    simp [Expr.Wf, Expr.prec, scopeFind, xScope]
  refine ⟨hw, fun h => ?_⟩
  let s : State := ⟨fun _ => 0, 0, 0, fun _ => 0, none⟩
  have hval : (run (Expr.gen xScope [] (.unary .not (.paren (.cmp .e (.var "x") (.num 0))))) s).map
      (·.reg .rax) = some 0 := by decide
  obtain ⟨s', hs', hrax⟩ := Option.map_eq_some_iff.1 hval
  obtain ⟨t, f, hrun, hf, hiff, -⟩ := (faithful_iff hw).1 h s s' hs'
  have hjump : (run (branch xScope [] (.unary .not (.paren (.cmp .e (.var "x") (.num 0))))).1 s).map
      (fun t => t.flags.map Flags.zf) = some (some true) := by decide
  rw [hrun, Option.map_some, hf, Option.map_some, Option.some.injEq, Option.some.injEq] at hjump
  exact hiff.1 (show Cc.holds .ne f = false by rw [Cc.holds, hjump]; rfl) hrax

end WuBuOS.Jit
