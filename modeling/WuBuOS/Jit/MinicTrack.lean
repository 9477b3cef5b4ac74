import WuBuOS.Jit.MinicArith

/-!
# The constant that RAX is believed to hold

The compiler notes after each piece of code whether RAX holds a known constant, and the operators look at
the note of their right operand: `x + 0`, `x - 0`, `x * 0`, `x * 1` and `x / 1` throw away what the operand
has computed, and a comparison with 0 becomes a `test`.

The note is one field, and `!`, the comparisons and the builtins do not touch it: what it says after them
is what their last operand has left.  `Fit` says of an expression that this happens to be right wherever
it happens, and `tracking_sound` that it is exactly then that the note is right about every part of the
expression and no fold changes a value.
-/

namespace WuBuOS.Jit

open X86

/-! ## What the pieces compute -/

def UnOp.apply (op : UnOp) (v : BitVec 64) : BitVec 64 :=
  match op with
  | .minus => -v
  | .tilde => ~~~v
  | .not => ofBool (v == 0)

/-- The smaller or the larger number. -/
def pick (isMax : Bool) (a b : BitVec 64) : BitVec 64 :=
  if isMax then if a.slt b then b else a else if b.slt a then b else a

variable {sc : MinicScope} {ty : List MinicType} {e l r u : Expr} {s s' s1 s2 t : State}
  {v w k : BitVec 64} {c : Option (BitVec 64)} {op : BinOp}

theorem run_unary (uop : UnOp) (s : State) : ∃ s', run uop.code s = some s' ∧ s'.reg .rax = uop.apply (s.reg .rax) := by
  cases uop with
  | minus | tilde => exact ⟨_, rfl, by simp [UnOp.apply]⟩
  | not =>
    obtain ⟨s', hs, hv⟩ := run_setcc (s := { s with flags := some (cmpFlags (s.reg .rax) 0) }) .e rfl
    refine ⟨s', hs, hv.trans ?_⟩
    rw [Cc.holds_cmpFlags]
    rfl

/-- A comparison computes 0 or 1, if the constant that it is given is the value of its right operand. -/
theorem run_cmp (cc : Cc) (c : Option (BitVec 64)) (h : Frame (s.pushed v) t) (hc : ∀ k, c = some k → k = t.reg .rax) :
    ∃ s', run (cmpCode cc c ++ setCode cc) t = some s' ∧ s'.reg .rax = ofBool (cc.rel v (t.reg .rax)) := by
  have hpop := run_pop h .rcx
  rw [cmpCode]
  split
  case isTrue h0 =>
    have hz : t.reg .rax = 0 := (hc 0 h0.1).symm
    obtain ⟨s', hs, hv⟩ := run_setcc (s := { (t.setReg .rcx (t.reg .rax)).popped .rax v with
      flags := some (testFlags v v) }) cc rfl
    refine ⟨s', (hpop _).trans (Eq.trans ?_ hs), ?_⟩
    · rfl
    · rw [hv, Cc.holds_testFlags h0.2, hz]
  case isFalse =>
    obtain ⟨s', hs, hv⟩ := run_setcc (s := { (t.setReg .rcx (t.reg .rax)).popped .rax v with
      flags := some (cmpFlags v (t.reg .rax)) }) cc rfl
    refine ⟨s', (hpop _).trans (Eq.trans ?_ hs), ?_⟩
    · rfl
    · rw [hv, Cc.holds_cmpFlags]

/-- The sign, spread over a word, turns a number into its absolute value. -/
theorem xor_sub_sign (v : BitVec 64) : (v ^^^ v.sshiftRight 63) - v.sshiftRight 63 = v.abs := by
  have hs : v.sshiftRight 63 = if v.msb then -1 else 0 := by
    have hlo := v.le_toInt
    have hhi := v.toInt_lt
    refine BitVec.toInt_inj.1 ?_
    rw [BitVec.toInt_sshiftRight, Int.shiftRight_eq_div_pow, BitVec.msb_eq_toInt]
    split
    case isTrue h =>
      rw [show (-1 : BitVec 64).toInt = -1 by decide]
      have := of_decide_eq_true h
      omega
    case isFalse h =>
      rw [show (0 : BitVec 64).toInt = 0 by decide]
      have : ¬v.toInt < 0 := fun hn => h (decide_eq_true hn)
      omega
  rw [hs, BitVec.abs_eq]
  cases v.msb with
  | true =>
    have hx : v ^^^ -1 = ~~~v := BitVec.xor_allOnes
    have hneg : -v = ~~~v + 1 := BitVec.neg_eq_not_add v
    have hone : -(-1 : BitVec 64) = 1 := by decide
    rw [if_pos rfl, if_pos rfl, hx, hneg, BitVec.sub_eq_add_neg, hone]
  | false => simp

theorem run_abs (s : State) : ∃ s', run ([.movRegReg .rdi .rax] ++ .movRegReg .rax .rdi :: emitAbsBranchless) s =
    some s' ∧ s'.reg .rax = (s.reg .rax).abs := by
  refine ⟨_, rfl, ?_⟩
  simp [xor_sub_sign]

theorem run_minmax (isMax : Bool) (s : State) :
    ∃ s', run ([.movRegReg .rsi .rax] ++ .movRegReg .rax .rdi :: emitMinmaxCmov .rsi isMax) s = some s' ∧
      s'.reg .rax = pick isMax (s.reg .rdi) (s.reg .rax) := by
  refine ⟨_, rfl, ?_⟩
  cases isMax <;> simp [pick, Cc.holds_cmpFlags, Cc.rel]

/-! ## The note and the folds -/

/-- The expression and all its parts. -/
def Expr.parts : Expr → List Expr
  | .num v => [.num v]
  | .var x => [.var x]
  | .member x m => [.member x m]
  | .sizeof t => [.sizeof t]
  | .paren e => .paren e :: e.parts
  | .unary op e => .unary op e :: e.parts
  | .bin op l r => .bin op l r :: (l.parts ++ r.parts)
  | .cmp cc l r => .cmp cc l r :: (l.parts ++ r.parts)
  | .abs f e => .abs f e :: e.parts
  | .minmax isMax a b => .minmax isMax a b :: (a.parts ++ b.parts)

/-- The functions of the chain that read the expression as a whole, and where they stop. -/
inductive ReadBy (e : Expr) : (Compile → Compile) → (Token → Prop) → Prop
  | level {n : Nat} (hlo : 1 ≤ n) (hhi : n ≤ 7) (hp : n ≤ e.prec) :
    ReadBy e (fun prim => chainAt prim n) (Stops n)
  | expr : ReadBy e compileExpr StopsExpr

variable (sc ty)

/-- Whichever function reads the expression, if it returns with a constant noted, the code that it has
emitted leaves this constant in RAX. -/
def Tracks (e : Expr) : Prop :=
  ∀ chain stop, ReadBy e chain stop → ∀ rest mc, Ready sc ty mc → stop (cur rest) →
    ∃ mc' code, compileTokens chain (e.tokens ++ rest) mc = some (rest, mc') ∧ mc'.code = mc.code ++ code ∧
      ∀ k, mc'.const = some k → ∀ s s', run code s = some s' → s'.reg .rax = k

/-- The code that follows the right operand leaves in RAX what it would leave if no constant were
noted. -/
def Folds : Expr → Prop
  | .bin op l r => ∀ s s1 s2, run (l.gen sc ty) s = some s1 → run (r.gen sc ty) (parked op s1) = some s2 →
      (run (after op (r.track ty)) s2).map (·.reg .rax) = (run (after op none) s2).map (·.reg .rax)
  | .cmp cc l r => ∀ s s1 s2, run (l.gen sc ty) s = some s1 →
      run (r.gen sc ty) (s1.pushed (s1.reg .rax)) = some s2 →
      (run (cmpCode cc (r.track ty) ++ setCode cc) s2).map (·.reg .rax) =
        (run (cmpCode cc none ++ setCode cc) s2).map (·.reg .rax)
  | _ => True

/-- What is noted under `!`, a comparison or a builtin is right behind it too.

* `!` never leaves its operand: the operand must be one for which nothing is noted, or whose code never
  runs to its end.
* A comparison whose right operand is the constant `k` must come out as `k`, whatever its left operand
  leaves.
* The absolute value of a constant must be the constant.
* The second argument of `min` and `max`, if it is a constant, must be the one that is chosen. -/
def Fit : Expr → Prop
  | .num _ | .var _ | .member _ _ | .sizeof _ => True
  | .paren e => Fit e
  | .unary op e => Fit e ∧ (op = .not → ∀ k, e.track ty = some k → ∀ s, run (e.gen sc ty) s = none)
  | .bin _ l r => Fit l ∧ Fit r
  | .cmp cc l r => Fit l ∧ Fit r ∧ ∀ k, r.track ty = some k → ∀ s s1 s2, run (l.gen sc ty) s = some s1 →
      run (r.gen sc ty) (s1.pushed (s1.reg .rax)) = some s2 → ofBool (cc.rel (s1.reg .rax) k) = k
  | .abs _ e => Fit e ∧ ∀ k, e.track ty = some k → ∀ s s', run (e.gen sc ty) s = some s' → k.abs = k
  | .minmax isMax a b => Fit a ∧ Fit b ∧ ∀ k, b.track ty = some k → ∀ s s1 s2,
      run (a.gen sc ty) s = some s1 → run (b.gen sc ty) (s1.setReg .rdi (s1.reg .rax)) = some s2 →
      pick isMax (s2.reg .rdi) k = k

variable {sc ty}

theorem self_mem_parts (e : Expr) : e ∈ e.parts := by
  cases e <;> simp [Expr.parts]

/-- The expressions right under one. -/
def Expr.subs : Expr → List Expr
  | .num _ | .var _ | .member _ _ | .sizeof _ => []
  | .paren e | .unary _ e | .abs _ e => [e]
  | .bin _ l r | .cmp _ l r | .minmax _ l r => [l, r]

/-- What goes down one step goes down to all parts. -/
theorem down_parts {P : Expr → Prop} (hsub : ∀ e, P e → ∀ u ∈ e.subs, P u) {e : Expr} : P e → ∀ u ∈ e.parts, P u := by
  induction e with
  | num | var | member | sizeof =>
    intro h u hu
    rwa [List.mem_singleton.1 hu]
  | paren e ih | unary _ e ih | abs _ e ih =>
    intro h u hu
    rcases List.mem_cons.1 hu with rfl | hu
    · exact h
    · exact ih (hsub _ h e List.mem_cons_self) u hu
  | bin _ l r ihl ihr | cmp _ l r ihl ihr | minmax _ l r ihl ihr =>
    intro h u hu
    rcases List.mem_cons.1 hu with rfl | hu
    · exact h
    · exact (List.mem_append.1 hu).elim (ihl (hsub _ h l (by simp [Expr.subs])) u) (ihr (hsub _ h r (by simp [Expr.subs])) u)

theorem wf_parts : e.Wf sc ty → ∀ u ∈ e.parts, u.Wf sc ty :=
  down_parts fun e h => by cases e <;> simp_all [Expr.subs, Expr.Wf]

/-- The note is right about the code of the tree. -/
def TrackOk (sc : MinicScope) (ty : List MinicType) (e : Expr) : Prop :=
  ∀ k, e.track ty = some k → ∀ s s', run (e.gen sc ty) s = some s' → s'.reg .rax = k

/-- What a function of the chain does with the tokens of a tree. -/
theorem reads_by {chain : Compile → Compile} {stop : Token → Prop} (hw : e.Wf sc ty) (hb : ReadBy e chain stop)
    {rest : List Token} {mc : MinicCompiler} (hr : Ready sc ty mc) (hs : stop (cur rest)) :
    ∃ mc', compileTokens chain (e.tokens ++ rest) mc = some (rest, mc') ∧
      mc'.code = mc.code ++ e.gen sc ty ∧ mc'.const = e.track ty := by
  have hc := compiles e hw ((e.tokens ++ rest).length + 1) (by simp; omega)
  cases hb with
  | level hlo hhi hp =>
    obtain ⟨mc', he, hm⟩ := hc.reads _ hlo hp rest mc hr hs
    exact ⟨mc', he, hm.code, hm.const⟩
  | expr =>
    obtain ⟨mc', he, hm⟩ := hc.expr rest mc hr hs
    exact ⟨mc', he, hm.code, hm.const⟩

theorem stops_nil : StopsExpr (cur []) := ⟨⟨by decide, by decide, fun _ h => nomatch h⟩, rfl⟩

/-- The functions of the chain and the tree say the same of the note. -/
theorem tracks_iff (hw : e.Wf sc ty) : Tracks sc ty e ↔ TrackOk sc ty e := by
  constructor
  · intro h k hk s s' hrun
    have hready : Ready sc ty (.start sc ty) := ⟨rfl, rfl, rfl⟩
    obtain ⟨mc', code, he, hcode, hall⟩ := h _ _ .expr [] _ hready stops_nil
    obtain ⟨mc'', he', hcode', hconst⟩ := reads_by hw .expr hready stops_nil
    obtain rfl : mc' = mc'' := (Prod.mk.inj (Option.some.inj (he.symm.trans he'))).2
    obtain rfl : code = e.gen sc ty := List.append_cancel_left (hcode.symm.trans hcode')
    exact hall k (hconst.trans hk) s s' hrun
  · intro h chain stop hb rest mc hr hs
    obtain ⟨mc', he, hcode, hconst⟩ := reads_by hw hb hr hs
    exact ⟨mc', e.gen sc ty, he, hcode, fun k hk => h k (hconst.symm.trans hk)⟩

/-! ## Where the note is right -/

/-- A run of the code of an operator's operands. -/
theorem run_operands {d d' : List Instr} (h : run (l.gen sc ty ++ d ++ r.gen sc ty ++ d') s = some s') :
    ∃ s1 s2 t, run (l.gen sc ty) s = some s1 ∧ run d s1 = some s2 ∧ run (r.gen sc ty) s2 = some t ∧
      run d' t = some s' := by
  obtain ⟨t, h, h4⟩ := run_append_inv h
  obtain ⟨s2, h, h3⟩ := run_append_inv h
  obtain ⟨s1, h1, h2⟩ := run_append_inv h
  exact ⟨s1, s2, t, h1, h2, h3, h4⟩

theorem trackOk_unary {uop : UnOp} (he : TrackOk sc ty e)
    (hn : uop = .not → ∀ k, e.track ty = some k → ∀ s, run (e.gen sc ty) s = none) :
    TrackOk sc ty (.unary uop e) := fun k hk s s' h => by
  obtain ⟨s1, h1, h2⟩ := run_append_inv h
  obtain ⟨s2, hs, hv⟩ := run_unary uop s1
  cases hs.symm.trans h2
  cases uop with
  | minus | tilde =>
    obtain ⟨w, hw, rfl⟩ := Option.map_eq_some_iff.1 hk
    rw [hv, he w hw s s1 h1]
    rfl
  | not =>
    rw [hn rfl k hk s] at h1
    cases h1

/-- What a comparison leaves, where the note about its right operand is right. -/
theorem cmp_value {cc : Cc} (hr : TrackOk sc ty r) (h : run ((Expr.cmp cc l r).gen sc ty) s = some s') :
    ∃ s1 s2, run (l.gen sc ty) s = some s1 ∧ run (r.gen sc ty) (s1.pushed (s1.reg .rax)) = some s2 ∧
      s'.reg .rax = ofBool (cc.rel (s1.reg .rax) (s2.reg .rax)) := by
  rw [Expr.gen, List.append_assoc _ (cmpCode _ _)] at h
  obtain ⟨s1, s2, t, h1, h2, h3, h4⟩ := run_operands h
  cases h2
  obtain ⟨s4, hs, hv⟩ := run_cmp cc _ (frame_gen r h3) fun k hk => (hr k hk _ _ h3).symm
  cases hs.symm.trans h4
  exact ⟨s1, t, h1, h3, hv⟩

theorem abs_value {f : Bool} (h : run ((Expr.abs f e).gen sc ty) s = some s') :
    ∃ s1, run (e.gen sc ty) s = some s1 ∧ s'.reg .rax = (s1.reg .rax).abs := by
  rw [Expr.gen, List.append_assoc] at h
  obtain ⟨s1, h1, h2⟩ := run_append_inv h
  obtain ⟨s2, hs, hv⟩ := run_abs s1
  cases hs.symm.trans h2
  exact ⟨s1, h1, hv⟩

theorem minmax_value {isMax : Bool} (h : run ((Expr.minmax isMax l r).gen sc ty) s = some s') :
    ∃ s1 s2, run (l.gen sc ty) s = some s1 ∧ run (r.gen sc ty) (s1.setReg .rdi (s1.reg .rax)) = some s2 ∧
      s'.reg .rax = pick isMax (s2.reg .rdi) (s2.reg .rax) := by
  rw [Expr.gen, List.append_assoc] at h
  obtain ⟨s1, s2, t, h1, h2, h3, h4⟩ := run_operands h
  cases h2
  obtain ⟨s4, hs, hv⟩ := run_minmax isMax t
  cases hs.symm.trans h4
  exact ⟨s1, t, h1, h3, hv⟩

/-- **Where the notes fit, they are right.** -/
theorem trackOk_of_fit : Fit sc ty e → TrackOk sc ty e := by
  induction e with
  | num v | sizeof t =>
    intro _ k hk s s' h
    cases hk
    cases h
    simp
  | var | member | bin => exact fun _ k hk => nomatch hk
  | paren e ih => exact ih
  | unary op e ih => exact fun h => trackOk_unary (ih h.1) h.2
  | cmp cc l r _ ihr =>
    intro h k hk s s' hrun
    obtain ⟨s1, s2, h1, h2, hv⟩ := cmp_value (ihr h.2.1) hrun
    rw [hv, ihr h.2.1 k hk _ _ h2]
    exact h.2.2 k hk s s1 s2 h1 h2
  | abs f e ih =>
    intro h k hk s s' hrun
    obtain ⟨s1, h1, hv⟩ := abs_value hrun
    rw [hv, ih h.1 k hk _ _ h1]
    exact h.2 k hk s s1 h1
  | minmax isMax a b _ ihb =>
    intro h k hk s s' hrun
    obtain ⟨s1, s2, h1, h2, hv⟩ := minmax_value hrun
    rw [hv, ihb h.2.1 k hk _ _ h2]
    exact h.2.2 k hk s s1 s2 h1 h2

/-- A fold leaves what the operation computes. -/
theorem run_fold (h : Frame (parked op s) t) (hc : ∀ k, c = some k → k = t.reg .rax) :
    (run (after op c) t).map (·.reg .rax) = (run (after op none) t).map (·.reg .rax) := by
  cases c with
  | none => rfl
  | some k =>
    have hboth (hop : op.Arith) (w : BitVec 64) (hw : op.apply (s.reg .rax) (t.reg .rax) = some w) :
        (run (after op (some k)) t).map (·.reg .rax) = (run (after op none) t).map (·.reg .rax) := by
      rw [parked_arith hop] at h
      obtain ⟨s1, h1, hw1⟩ := run_after h hop hc hw
      obtain ⟨s2, h2, hw2⟩ := run_after (c := none) h hop (fun _ hk => nomatch hk) hw
      rw [h1, h2, Option.map_some, Option.map_some, hw1, hw2]
    cases op with
    | star | plus | minus => exact hboth trivial _ rfl
    | slash =>
      by_cases hk : k = 1
      · refine hboth trivial ((s.reg .rax).sdiv (t.reg .rax)) ?_
        rw [← hc k rfl, hk]
        exact if_neg (by simp)
      · have heq : after .slash (some k) = after .slash none := by
          simp only [after, Option.some.injEq, hk, if_false, reduceCtorEq]
        rw [heq]
    | percent | shl | shr | amp | caret | pipe => rfl

theorem folds_of_trackOk (h : ∀ u ∈ e.parts, TrackOk sc ty u) : Folds sc ty e := by
  cases e with
  | bin op l r =>
    intro s s1 s2 _ h2
    have hr := h r (List.mem_cons_of_mem _ (List.mem_append_right _ (self_mem_parts r)))
    exact run_fold (frame_gen r h2) fun k hk => (hr k hk _ _ h2).symm
  | cmp cc l r =>
    intro s s1 s2 _ h2
    have hr := h r (List.mem_cons_of_mem _ (List.mem_append_right _ (self_mem_parts r)))
    obtain ⟨t1, ht1, hv1⟩ := run_cmp cc _ (frame_gen r h2) fun k hk => (hr k hk _ _ h2).symm
    obtain ⟨t2, ht2, hv2⟩ := run_cmp cc none (frame_gen r h2) fun _ hk => nomatch hk
    rw [ht1, ht2, Option.map_some, Option.map_some, hv1, hv2]
  | _ => trivial

theorem fit_parts : Fit sc ty e → ∀ u ∈ e.parts, Fit sc ty u :=
  down_parts fun e h => by cases e <;> simp_all [Expr.subs, Fit]

/-- `!` changes every number. -/
theorem apply_not_ne (v : BitVec 64) : UnOp.apply .not v ≠ v := by
  by_cases hv : v = 0
  · subst hv
    decide
  · have : (v == 0) = false := beq_false_of_ne hv
    rw [UnOp.apply, this]
    exact Ne.symm hv

/-- **Where the notes are right, they fit.** -/
theorem fit_of_trackOk (h : ∀ u ∈ e.parts, TrackOk sc ty u) : Fit sc ty e := by
  have hself := h e (self_mem_parts e)
  induction e with
  | num | var | member | sizeof => trivial
  | paren e ih =>
    have he : ∀ u ∈ e.parts, TrackOk sc ty u := fun u hu => h u (List.mem_cons_of_mem _ hu)
    exact ih he (he e (self_mem_parts e))
  | unary uop e ih =>
    have he : ∀ u ∈ e.parts, TrackOk sc ty u := fun u hu => h u (List.mem_cons_of_mem _ hu)
    refine ⟨ih he (he e (self_mem_parts e)), fun hn k hk s => ?_⟩
    subst hn
    cases hrun : run (e.gen sc ty) s with
    | none => rfl
    | some s1 =>
      obtain ⟨s2, hs, hv⟩ := run_unary .not s1
      have hk' := hself k hk s s2 (by rw [Expr.gen, run_append_of hrun, hs])
      rw [hv, he e (self_mem_parts e) k hk s s1 hrun] at hk'
      exact absurd hk' (apply_not_ne k)
  | bin op l r ihl ihr =>
    have hl : ∀ u ∈ l.parts, TrackOk sc ty u :=
      fun u hu => h u (List.mem_cons_of_mem _ (List.mem_append_left _ hu))
    have hr : ∀ u ∈ r.parts, TrackOk sc ty u :=
      fun u hu => h u (List.mem_cons_of_mem _ (List.mem_append_right _ hu))
    exact ⟨ihl hl (hl l (self_mem_parts l)), ihr hr (hr r (self_mem_parts r))⟩
  | cmp cc l r ihl ihr =>
    have hl : ∀ u ∈ l.parts, TrackOk sc ty u :=
      fun u hu => h u (List.mem_cons_of_mem _ (List.mem_append_left _ hu))
    have hr : ∀ u ∈ r.parts, TrackOk sc ty u :=
      fun u hu => h u (List.mem_cons_of_mem _ (List.mem_append_right _ hu))
    have hrself := hr r (self_mem_parts r)
    refine ⟨ihl hl (hl l (self_mem_parts l)), ihr hr hrself, fun k hk s s1 s2 h1 h2 => ?_⟩
    obtain ⟨s', hs, hv⟩ := run_cmp cc _ (frame_gen r h2) fun k hk => (hrself k hk _ _ h2).symm
    have hrun : run ((Expr.cmp cc l r).gen sc ty) s = some s' := by
      rw [Expr.gen, List.append_assoc _ (cmpCode _ _), run_append, run_append, run_append_of h1]
      exact (congrArg (Option.bind · _) h2).trans hs
    rw [hrself k hk _ _ h2] at hv
    exact hv.symm.trans (hself k hk s s' hrun)
  | abs f e ih =>
    have he : ∀ u ∈ e.parts, TrackOk sc ty u := fun u hu => h u (List.mem_cons_of_mem _ hu)
    refine ⟨ih he (he e (self_mem_parts e)), fun k hk s s1 h1 => ?_⟩
    obtain ⟨s', hs, hv⟩ := run_abs s1
    have hrun : run ((Expr.abs f e).gen sc ty) s = some s' := by
      rw [Expr.gen, List.append_assoc, run_append_of h1, hs]
    rw [he e (self_mem_parts e) k hk s s1 h1] at hv
    exact hv.symm.trans (hself k hk s s' hrun)
  | minmax isMax a b iha ihb =>
    have ha : ∀ u ∈ a.parts, TrackOk sc ty u :=
      fun u hu => h u (List.mem_cons_of_mem _ (List.mem_append_left _ hu))
    have hb : ∀ u ∈ b.parts, TrackOk sc ty u :=
      fun u hu => h u (List.mem_cons_of_mem _ (List.mem_append_right _ hu))
    have hbself := hb b (self_mem_parts b)
    refine ⟨iha ha (ha a (self_mem_parts a)), ihb hb hbself, fun k hk s s1 s2 h1 h2 => ?_⟩
    obtain ⟨s', hs, hv⟩ := run_minmax isMax s2
    have hrun : run ((Expr.minmax isMax a b).gen sc ty) s = some s' := by
      rw [Expr.gen, List.append_assoc, run_append, run_append, run_append_of h1]
      exact (congrArg (Option.bind · _) h2).trans hs
    rw [hbself k hk _ _ h2] at hv
    exact hv.symm.trans (hself k hk s s' hrun)

/-- **The note about RAX is right about every part of an expression, and no fold changes a value, exactly
where the notes behind `!`, comparisons and builtins fit.** -/
theorem tracking_sound (hw : e.Wf sc ty) : (∀ u ∈ e.parts, Tracks sc ty u ∧ Folds sc ty u) ↔ Fit sc ty e := by
  constructor
  · intro h
    exact fit_of_trackOk fun u hu => (tracks_iff (wf_parts hw u hu)).mp (h u hu).1
  · intro h u hu
    have hparts : ∀ x ∈ u.parts, TrackOk sc ty x :=
      fun x hx => trackOk_of_fit (fit_parts (fit_parts h u hu) x hx)
    exact ⟨(tracks_iff (wf_parts hw u hu)).2 (hparts u (self_mem_parts u)), folds_of_trackOk hparts⟩

/-- `x + !x` -/
theorem tracking_sound_sample : (Expr.bin .plus (.var "x") (.unary .not (.var "x"))).Wf xScope [] ∧
      ∀ u ∈ (Expr.bin .plus (.var "x") (.unary .not (.var "x"))).parts, Tracks xScope [] u ∧ Folds xScope [] u := by
  have hw : (Expr.bin .plus (.var "x") (.unary .not (.var "x"))).Wf xScope [] := by
    simp [Expr.Wf, Expr.prec, BinOp.level, scopeFind, xScope]
  exact ⟨hw, (tracking_sound hw).2 ⟨trivial, trivial, fun _ k hk => by cases hk⟩⟩

/-- `x + !0` is compiled as `x`: 0 is what is noted for `!0`, and is not added. -/
theorem tracking_fails : (Expr.bin .plus (.var "x") (.unary .not (.num 0))).Wf xScope [] ∧
      ¬∀ u ∈ (Expr.bin .plus (.var "x") (.unary .not (.num 0))).parts, Tracks xScope [] u ∧ Folds xScope [] u := by
  have hw : (Expr.bin .plus (.var "x") (.unary .not (.num 0))).Wf xScope [] := by
    simp [Expr.Wf, Expr.prec, BinOp.level, scopeFind, xScope]
  refine ⟨hw, fun h => ?_⟩
  have hfit : Fit xScope [] (.bin .plus (.var "x") (.unary .not (.num 0))) :=
    fit_of_trackOk fun u hu => (tracks_iff (wf_parts hw u hu)).mp (h u hu).1
  have hnone := hfit.2.2 rfl 0 rfl ⟨fun _ => 0, 0, 0, fun _ => 0, none⟩
  exact Option.some_ne_none _ hnone

end WuBuOS.Jit
