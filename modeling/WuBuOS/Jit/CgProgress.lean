import WuBuOS.Jit.CgStmt
import Mathlib.Logic.Relation

/-!
# Whether the portable code generator comes to an end

The statements are compiled in loops that end at the end of the source, or of the block.  A round consumes a token
unless the statement begins with one of six: `)`, `{`, `}`, `,`, `=` and `else` start no expression, and nothing else
takes them.  There the same round is done for ever, and each time an instruction is emitted.

`CgTask` is a statement, a body or a loop that is compiled, and `Begins` leads from one to those it is made of.  So the
source is compiled exactly where no loop that is reached stands in front of such a token (`compiles_iff`).  It depends
on where the expressions end: `a;` is compiled, `a);` is not, and neither is `(1 << b);`, as a shift takes only a number
and leaves the `b` for the next statement.
-/

namespace WuBuOS.Jit

open X86

variable {ts ts' : List CgToken} {t : CgToken} {n k : Nat} {v : BitVec 64}

/-! ## Tokens -/

theorem tail_lt (h : cgCur ts ≠ .eof) : ts.tail.length < ts.length := by
  cases ts with
  | nil => exact absurd rfl h
  | cons _ _ => exact Nat.lt_succ_self _

theorem cgConsume_some (h : cgConsume t ts = some ts') : cgCur ts = t ∧ ts' = ts.tail := by
  rw [cgConsume, Option.ite_none_right_eq_some] at h
  exact ⟨h.1, (Option.some.inj h.2).symm⟩

theorem cgSkip_le (t : CgToken) (ts : List CgToken) : (cgSkip t ts).length ≤ ts.length := by
  rw [cgSkip, cgConsume]
  split
  · simp
  · exact Nat.le_refl _

theorem cgSkip_of_eq (h : cgCur ts = t) : cgSkip t ts = ts.tail := by
  rw [cgSkip, cgConsume, if_pos h]
  rfl

theorem cgSkip_of_ne (h : cgCur ts ≠ t) : cgSkip t ts = ts := by
  rw [cgSkip, cgConsume, if_neg h]
  rfl

/-- The tokens that a constant can begin with. -/
def CgToken.startsConst : CgToken → Bool
  | .lparen | .number _ | .hex _ _ | .minus | .tilde => true
  | _ => false

def CgToken.startsPrimary : CgToken → Bool
  | .ident _ => true
  | t => t.startsConst

/-! ## The evaluator -/

/-- With a value tokens have been consumed, and without one it may be that some have. -/
structure EvalMoves (f : Eval) : Prop where
  value : ∀ {ts v ts'}, f ts = (some v, ts') → ts'.length < ts.length ∧ (cgCur ts).startsConst
  fails : ∀ {ts ts'}, f ts = (none, ts') → ts' = ts ∨ ts'.length < ts.length ∧ (cgCur ts).startsConst

variable {op : CgToken → Option BinOp} {starts : CgToken → Bool} {ts1 : List CgToken}

theorem evalLoop_le {next : Eval} (h : EvalMoves next) (k : Nat) :
    ∀ (a : BitVec 64) (ts : List CgToken), (evalLoop op next k a ts).2.length ≤ ts.length := by
  induction k with
  | zero => exact fun _ _ => Nat.le_refl _
  | succ k ih =>
    intro a ts
    rw [evalLoop]
    split
    case h_1 => exact Nat.le_refl _
    case h_2 o ho =>
      split
      case h_1 => exact Nat.le_refl _
      case h_2 b rest hnext =>
        have hlt := (h.value hnext).1
        have htail : ts.tail.length ≤ ts.length := by simp
        split
        case h_1 => show rest.length ≤ ts.length; omega
        case h_2 w _ => exact Nat.le_trans (ih w rest) (by omega)

theorem EvalMoves.level {next : Eval} (h : EvalMoves next) : EvalMoves (evalLevel op next) := by
  have hloop : ∀ {ts a ts'}, next ts = (some a, ts') →
      (evalLoop op next ts'.length a ts').2.length < ts.length ∧ (cgCur ts).startsConst := by
    intro ts a ts' hnext
    obtain ⟨hlt, hc⟩ := h.value hnext
    exact ⟨Nat.lt_of_le_of_lt (evalLoop_le h _ _ _) hlt, hc⟩
  constructor
  · intro ts v ts' heq
    rw [evalLevel] at heq
    split at heq
    case h_1 => cases heq
    case h_2 a rest hnext => simpa [heq] using @hloop ts a rest hnext
  · intro ts ts' heq
    rw [evalLevel] at heq
    split at heq
    case h_1 => exact .inl (congrArg Prod.snd heq).symm
    case h_2 a rest hnext => exact .inr (by simpa [heq] using @hloop ts a rest hnext)

theorem EvalMoves.compare {prim : Eval} (h : EvalMoves prim) : EvalMoves (constEvalCompare prim) := by
  have hbit : EvalMoves (constEvalBitwise prim) := h.level.level.level.level
  constructor
  · intro ts v ts' heq
    rw [constEvalCompare] at heq
    split at heq
    case h_1 => cases heq
    case h_2 a rest hl =>
      obtain ⟨hlt, hc⟩ := hbit.value hl
      split at heq
      case h_1 =>
        obtain ⟨-, rfl⟩ := Prod.mk.inj heq
        exact ⟨hlt, hc⟩
      case h_2 cc hcc =>
        split at heq
        case h_1 => cases heq
        case h_2 b rest' hr =>
          obtain ⟨-, rfl⟩ := Prod.mk.inj heq
          have := (hbit.value hr).1
          simp only [List.length_tail] at this
          exact ⟨by omega, hc⟩
  · intro ts ts' heq
    rw [constEvalCompare] at heq
    split at heq
    case h_1 => exact .inl (congrArg Prod.snd heq).symm
    case h_2 a rest hl =>
      obtain ⟨hlt, hc⟩ := hbit.value hl
      split at heq
      case h_1 => cases heq
      case h_2 cc hcc =>
        split at heq
        case h_1 =>
          obtain ⟨-, rfl⟩ := Prod.mk.inj heq
          exact .inr ⟨hlt, hc⟩
        case h_2 => cases heq

/-- The argument of a unary operator; `g` is what becomes of the value. -/
theorem EvalMoves.unary {prim : Eval} (hp : EvalMoves prim) (g : BitVec 64 → BitVec 64) (h : cgCur ts ≠ .eof) :
    (∀ v ts', (match prim ts.tail with | (some v, ts') => (some (g v), ts') | (none, _) => (none, ts)) =
      (some v, ts') → ts'.length < ts.length) ∧
    ∀ ts', (match prim ts.tail with | (some v, ts') => (some (g v), ts') | (none, _) => (none, ts)) =
      (none, ts') → ts' = ts := by
  constructor
  · intro v ts' heq
    split at heq
    case h_1 w rest hev =>
      obtain ⟨-, rfl⟩ := Prod.mk.inj heq
      exact Nat.lt_trans (hp.value hev).1 (tail_lt h)
    case h_2 => cases heq
  · intro ts' heq
    split at heq
    case h_1 => cases heq
    case h_2 => exact (congrArg Prod.snd heq).symm

theorem EvalMoves.primary {eval prim : Eval} (he : EvalMoves eval) (hp : EvalMoves prim) :
    EvalMoves (constEvalPrimary eval prim) := by
  constructor
  · intro ts v ts' heq
    cases hcur : cgCur ts with
    | lparen =>
      simp only [constEvalPrimary, hcur] at heq
      split at heq
      case h_1 w rest hev =>
        split at heq
        case h_1 rest' hcons =>
          obtain ⟨-, rfl⟩ := Prod.mk.inj heq
          have hrest := (he.value hev).1
          have htail : rest'.length ≤ rest.length := by rw [(cgConsume_some hcons).2]; simp
          have : ts.tail.length < ts.length := tail_lt (by rw [hcur]; nofun)
          exact ⟨by omega, rfl⟩
        case h_2 => cases heq
      case h_2 => cases heq
    | number w | hex _ w =>
      simp only [constEvalPrimary, hcur] at heq
      obtain ⟨-, rfl⟩ := Prod.mk.inj heq
      exact ⟨tail_lt (by rw [hcur]; nofun), rfl⟩
    | minus | tilde =>
      simp only [constEvalPrimary, hcur] at heq
      exact ⟨(hp.unary _ (by rw [hcur]; nofun)).1 v ts' heq, rfl⟩
    | _ => simp [constEvalPrimary, hcur] at heq
  · intro ts ts' heq
    refine .inl ?_
    cases hcur : cgCur ts with
    | lparen =>
      simp only [constEvalPrimary, hcur] at heq
      split at heq
      case h_1 =>
        split at heq
        case h_1 => cases heq
        case h_2 => exact (congrArg Prod.snd heq).symm
      case h_2 => exact (congrArg Prod.snd heq).symm
    | number w | hex _ w => simp [constEvalPrimary, hcur] at heq
    | minus | tilde =>
      simp only [constEvalPrimary, hcur] at heq
      exact (hp.unary _ (by rw [hcur]; nofun)).2 ts' heq
    | _ =>
      simp only [constEvalPrimary, hcur] at heq
      exact (congrArg Prod.snd heq).symm

theorem evalPrimary_moves : ∀ n, EvalMoves (evalPrimary n)
  | 0 => ⟨fun h => (nomatch congrArg Prod.fst h), fun h => .inl (congrArg Prod.snd h).symm⟩
  | n + 1 => (evalPrimary_moves n).compare.primary (evalPrimary_moves n)

theorem constEval_moves : EvalMoves constEval where
  value h := (evalPrimary_moves _).compare.value h
  fails h := (evalPrimary_moves _).compare.fails h

/-! ## The generator -/

/-- Tokens are consumed exactly where the first one is of the kind. -/
def Advance (starts : CgToken → Bool) (ts ts' : List CgToken) : Prop :=
  if starts (cgCur ts) then ts'.length < ts.length else ts' = ts

theorem Advance.le (h : Advance starts ts ts') : ts'.length ≤ ts.length := by
  rw [Advance] at h
  split at h
  · exact Nat.le_of_lt h
  · exact h ▸ Nat.le_refl _

theorem Advance.or {P Q : CgToken → Bool} {ts1 ts2 : List CgToken} (h : Advance P ts ts1) (h' : Advance Q ts1 ts2) :
    Advance (fun t => P t || Q t) ts ts2 := by
  have hle := h'.le
  rw [Advance] at h ⊢
  cases hP : P (cgCur ts) with
  | true =>
    rw [hP, if_pos rfl] at h
    rw [Bool.true_or, if_pos rfl]
    omega
  | false =>
    obtain rfl : ts1 = ts := by simpa [hP] using h
    rw [Bool.false_or]
    exact h'

/-- The function comes back, with no more tokens and no fewer variables than before. -/
def Returns (n : Nat) (f : CgCompile) : Prop := ∀ ts cc, ts.length < n → ∃ ts' cc', f ts cc = some (ts', cc') ∧
  ts'.length ≤ ts.length ∧ cc.scope.vars.length ≤ cc'.scope.vars.length

/-- It comes back, and has consumed tokens exactly where the first one is of the kind. -/
def Moves (n : Nat) (starts : CgToken → Bool) (f : CgCompile) : Prop := ∀ ts cc, ts.length < n →
  ∃ ts' cc', f ts cc = some (ts', cc') ∧ Advance starts ts ts' ∧ cc.scope.vars.length ≤ cc'.scope.vars.length

theorem cgLoop_moves {body : BinOp → CgCompile} (hbody : ∀ o, Returns n (body o))
    (heof : op .eof = none) : ∀ (k : Nat) (ts : List CgToken) (cc : CgCompiler), ts.length < n → ts.length ≤ k →
      ∃ ts' cc', cgLoop op body k ts cc = some (ts', cc') ∧ Advance (fun t => (op t).isSome) ts ts' ∧
        cc.scope.vars.length ≤ cc'.scope.vars.length := by
  intro k
  induction k with
  | zero =>
    intro ts cc _ hk
    obtain rfl : ts = [] := List.length_eq_zero_iff.1 (Nat.le_zero.1 hk)
    exact ⟨[], cc, rfl, by simp [Advance, cgCur, heof], Nat.le_refl _⟩
  | succ k ih =>
    intro ts cc hn hk
    cases ho : op (cgCur ts) with
    | none => exact ⟨ts, cc, by rw [cgLoop, ho], by simp [Advance, ho], Nat.le_refl _⟩
    | some o =>
      have htail : ts.tail.length < ts.length := tail_lt fun h => by rw [h, heof] at ho; cases ho
      obtain ⟨ts1, cc1, h1, hle1, hv1⟩ := hbody o ts.tail cc (by omega)
      obtain ⟨ts2, cc2, h2, ha2, hv2⟩ := ih ts1 cc1 (by omega) (by omega)
      have hle2 := ha2.le
      refine ⟨ts2, cc2, by simp [cgLoop, ho, h1, h2], ?_, Nat.le_trans hv1 hv2⟩
      simp only [Advance, ho, Option.isSome_some, if_true]
      omega

theorem Moves.level {first : CgCompile} {body : BinOp → CgCompile} (hfirst : Moves n starts first) (hbody : ∀ o, Returns n (body o))
    (heof : op .eof = none) : Moves n (fun t => starts t || (op t).isSome) (cgLevel op first body) := by
  intro ts cc hn
  obtain ⟨ts1, cc1, h1, ha1, hv1⟩ := hfirst ts cc hn
  have hle1 := ha1.le
  obtain ⟨ts2, cc2, h2, ha2, hv2⟩ := cgLoop_moves hbody heof ts1.length ts1 cc1 (by omega) (Nat.le_refl _)
  exact ⟨ts2, cc2, by simp [cgLevel, h1, h2], ha1.or ha2, Nat.le_trans hv1 hv2⟩

/-- The same for primary expressions. -/
def PrimMoves (n : Nat) (prim : CgReg → CgPrimary) : Prop := ∀ dst ts cc, ts.length < n →
  ∃ ts' cc' c, prim dst ts cc = some (ts', cc', c) ∧ Advance CgToken.startsPrimary ts ts' ∧
    cc.scope.vars.length ≤ cc'.scope.vars.length

variable {prim : CgReg → CgPrimary}

theorem PrimMoves.operand (h : PrimMoves n prim) (dst : CgReg) :
    Moves n CgToken.startsPrimary (cgOperand prim dst) := by
  intro ts cc hn
  obtain ⟨ts', cc', c, heq, ha, hv⟩ := h dst ts cc hn
  exact ⟨ts', cc', by rw [cgOperand, heq]; rfl, ha, hv⟩

def CgToken.startsMul (t : CgToken) : Bool := t.startsPrimary || (cgMulOp t).isSome
def CgToken.startsAdd (t : CgToken) : Bool := t.startsMul || (cgAddOp t).isSome
def CgToken.startsBit (t : CgToken) : Bool := t.startsAdd || (cgBitOp t).isSome
def CgToken.startsShift (t : CgToken) : Bool := t.startsBit || (cgShiftOp t).isSome
def CgToken.startsExpr (t : CgToken) : Bool := t.startsShift || (cgCmpOp t).isSome

theorem PrimMoves.multiplicative (h : PrimMoves n prim) (dst : CgReg) :
    Moves n CgToken.startsMul (cgCompileMultiplicative prim dst) := by
  refine (h.operand dst).level (fun o ts cc hn => ?_) rfl
  obtain ⟨ts', cc', c, heq, ha, hv⟩ := h .r15 ts cc hn
  exact ⟨ts', cc'.emit (mulCode o dst c), by simp [heq], ha.le, hv⟩

theorem PrimMoves.additive (h : PrimMoves n prim) (dst : CgReg) :
    Moves n CgToken.startsAdd (cgCompileAdditive prim dst) := by
  refine (h.multiplicative dst).level (fun o ts cc hn => ?_) rfl
  obtain ⟨ts', cc', heq, ha, hv⟩ := h.multiplicative .r15 ts cc hn
  exact ⟨ts', cc'.emit (binCode o dst), by simp [heq], ha.le, hv⟩

theorem PrimMoves.bitwise (h : PrimMoves n prim) (dst : CgReg) :
    Moves n CgToken.startsBit (cgCompileBitwise prim dst) := by
  refine (h.additive dst).level (fun o ts cc hn => ?_) rfl
  obtain ⟨ts', cc', heq, ha, hv⟩ := h.additive .r15 ts cc hn
  exact ⟨ts', cc'.emit (binCode o dst), by simp [heq], ha.le, hv⟩

theorem PrimMoves.shift (h : PrimMoves n prim) (dst : CgReg) :
    Moves n CgToken.startsShift (cgCompileShift prim dst) := by
  refine (h.bitwise dst).level (fun o ts cc hn => ?_) rfl
  cases hcur : cgCur ts with
  | number v => exact ⟨ts.tail, cc.emit (shiftCode o dst v), by simp, by simp, Nat.le_refl _⟩
  | _ => exact ⟨ts, cc, by simp, Nat.le_refl _, Nat.le_refl _⟩

theorem PrimMoves.compare (h : PrimMoves n prim) (dst : CgReg) :
    Moves n CgToken.startsExpr (cgCompileCompare prim dst) := by
  intro ts cc hn
  obtain ⟨ts1, cc1, h1, ha1, hv1⟩ := h.shift dst ts cc hn
  have hle1 := ha1.le
  cases ho : cgCmpOp (cgCur ts1) with
  | none => exact ⟨ts1, cc1, by simp [cgCompileCompare, h1, ho], ha1.or (by simp [Advance, ho]), hv1⟩
  | some c =>
    have htail : ts1.tail.length < ts1.length := tail_lt fun h => by rw [h] at ho; cases ho
    obtain ⟨ts2, cc2, h2, ha2, hv2⟩ := h.shift .r15 ts1.tail cc1 (by omega)
    have hlt : ts2.length < ts1.length := Nat.lt_of_le_of_lt ha2.le htail
    exact ⟨ts2, cc2.emit [.cmpRegCc dst .r15 c], by simp [cgCompileCompare, h1, ho, h2],
      ha1.or (by simpa [Advance, ho] using hlt), Nat.le_trans hv1 hv2⟩

theorem startsExpr_of_const (h : t.startsConst = true) : t.startsExpr = true := by
  cases t <;> first | rfl | cases h

theorem PrimMoves.expr (h : PrimMoves n prim) (dst : CgReg) : Moves n CgToken.startsExpr (cgCompileExpr prim dst) := by
  intro ts cc hn
  cases hev : constEval ts with
  | mk c ts1 =>
    cases c with
    | some v =>
      obtain ⟨hlt, hc⟩ := constEval_moves.value hev
      refine ⟨ts1, cc.emit [.movImm dst v], by simp [cgCompileExpr, hev], ?_, Nat.le_refl _⟩
      rw [Advance, if_pos (startsExpr_of_const hc)]
      exact hlt
    | none =>
      rcases constEval_moves.fails hev with rfl | ⟨hlt, hc⟩
      · obtain ⟨ts2, cc2, h2, ha2, hv2⟩ := h.compare dst ts1 cc hn
        exact ⟨ts2, cc2, by simp [cgCompileExpr, hev, h2], ha2, hv2⟩
      · obtain ⟨ts2, cc2, h2, ha2, hv2⟩ := h.compare dst ts1 cc (by omega)
        have hle := ha2.le
        refine ⟨ts2, cc2, by simp [cgCompileExpr, hev, h2], ?_, hv2⟩
        rw [Advance, if_pos (startsExpr_of_const hc)]
        omega

/-- A new name adds a variable, and nothing takes one away. -/
theorem vars_use (sc : CgScope) (name : String) : sc.vars.length ≤ (sc.use name).vars.length := by
  rw [CgScope.use]
  split
  · simp [CgScope.addArg]
  · exact Nat.le_refl _

theorem Advance.of_lt (hs : starts (cgCur ts) = true) (h : ts'.length < ts.length) : Advance starts ts ts' := by
  rwa [Advance, if_pos hs]

theorem Advance.refl (hs : starts (cgCur ts) = false) : Advance starts ts ts := by
  rw [Advance, hs, if_neg Bool.false_ne_true]

theorem startsPrimary_ne_eof (h : t.startsPrimary = true) : t ≠ .eof := by
  rintro rfl
  cases h

/-- A unary operator, with the code `c` and what becomes of the constant. -/
theorem PrimMoves.unary (h : PrimMoves n prim) {dst : CgReg} {cc : CgCompiler} (c : List CgInstr)
    (g : BitVec 64 → BitVec 64) (hs : (cgCur ts).startsPrimary = true) (hn : ts.length < n + 1) :
    ∃ ts' cc' k, (do
      let (ts, cc, k) ← prim dst ts.tail cc
      match k with
      | some v => some (ts, cc.emit c, some (g v))
      | none => some (ts, cc.emit [.movImm dst 0], none)) = some (ts', cc', k) ∧
      Advance CgToken.startsPrimary ts ts' ∧ cc.scope.vars.length ≤ cc'.scope.vars.length := by
  have htail : ts.tail.length < ts.length := tail_lt (startsPrimary_ne_eof hs)
  obtain ⟨ts1, cc1, k, h1, ha1, hv1⟩ := h dst ts.tail cc (by omega)
  have hle := ha1.le
  cases k with
  | none => exact ⟨ts1, cc1.emit [.movImm dst 0], none, by simp [h1], .of_lt hs (by omega), hv1⟩
  | some v => exact ⟨ts1, cc1.emit c, some (g v), by simp [h1], .of_lt hs (by omega), hv1⟩

theorem cgPrimary_moves : ∀ n, PrimMoves n (cgPrimary n)
  | 0 => fun _ _ _ h => absurd h (Nat.not_lt_zero _)
  | n + 1 => by
    have ih := cgPrimary_moves n
    intro dst ts cc hn
    rw [cgPrimary, cgCompilePrimary]
    cases hcur : cgCur ts with
    | lparen =>
      have htail : ts.tail.length < ts.length := tail_lt (by rw [hcur]; nofun)
      obtain ⟨ts1, cc1, h1, ha1, hv1⟩ := ih.expr dst ts.tail cc (by omega)
      have hle := ha1.le
      have hskip : ((cgConsume .rparen ts1).getD ts1).length ≤ ts1.length := cgSkip_le .rparen ts1
      exact ⟨(cgConsume .rparen ts1).getD ts1, cc1, none, by simp [h1], .of_lt (by rw [hcur]; rfl) (by omega), hv1⟩
    | number v | hex _ v =>
      exact ⟨ts.tail, cc.emit [.movImm dst v], some v, rfl, .of_lt (by rw [hcur]; rfl)
        (tail_lt (by rw [hcur]; nofun)), Nat.le_refl _⟩
    | minus | tilde =>
      exact ih.unary _ _ (by rw [hcur]; rfl) hn
    | ident text =>
      exact ⟨ts.tail, _, none, rfl, .of_lt (by rw [hcur]; rfl) (tail_lt (by rw [hcur]; nofun)),
        vars_use cc.scope _⟩
    | _ =>
      exact ⟨ts, cc.emit [.movImm dst 0], none, rfl, .refl (by rw [hcur]; rfl), Nat.le_refl _⟩

/-- `cg_compile_expr` always comes back. -/
theorem cgExprStep_moves (dst : CgReg) (ts : List CgToken) (u : CgUnit) : ∃ ts' u',
    cgExprStep dst ts u = some (ts', u') ∧ Advance CgToken.startsExpr ts ts' ∧
      u.scope.vars.length ≤ u'.scope.vars.length := by
  obtain ⟨ts', cc', heq, ha, hv⟩ := (cgPrimary_moves (ts.length + 1)).expr dst ts ⟨u.scope, []⟩ (Nat.lt_succ_self _)
  exact ⟨ts', _, by rw [cgExprStep, cgCompileTokens, heq]; rfl, ha, hv⟩

/-! ## A statement -/

/-- The tokens that a statement does not consume when it begins with them. -/
def CgToken.stuck : CgToken → Bool
  | .rparen | .lbrace | .rbrace | .comma | .assign | .elseKw => true
  | _ => false

def CgToken.startsStmt (t : CgToken) : Bool := !t.stuck && t ≠ .eof

variable {wasm : Bool} {u u' : CgUnit} {stmt body f : CgStep} {ends : CgToken → Bool}

/-- Where the function comes back, there are no more tokens and no fewer variables. -/
def Shrinks (f : CgStep) : Prop := ∀ ⦃ts u ts' u'⦄, f ts u = some (ts', u') →
  ts'.length ≤ ts.length ∧ u.scope.vars.length ≤ u'.scope.vars.length

theorem shrinks_expr (dst : CgReg) : Shrinks (cgExprStep dst) := by
  intro ts u ts' u' h
  obtain ⟨ts1, u1, heq, ha, hv⟩ := cgExprStep_moves dst ts u
  cases heq.symm.trans h
  exact ⟨ha.le, hv⟩

theorem shrinks_stmts (hs : Shrinks stmt) : ∀ k, Shrinks (cgStmts ends stmt k)
  | 0 => fun _ _ _ _ h => nomatch h
  | k + 1 => by
    intro ts u ts' u' h
    rw [cgStmts] at h
    split at h
    case isTrue =>
      cases h
      exact ⟨Nat.le_refl _, Nat.le_refl _⟩
    case isFalse =>
      obtain ⟨⟨ts1, u1⟩, h1, h2⟩ := Option.bind_eq_some_iff.1 h
      obtain ⟨hle1, hv1⟩ := hs h1
      obtain ⟨hle2, hv2⟩ := shrinks_stmts hs k h2
      exact ⟨Nat.le_trans hle2 hle1, Nat.le_trans hv1 hv2⟩

theorem shrinks_body (hs : Shrinks stmt) (k : Nat) : Shrinks (cgBody stmt k) := by
  intro ts u ts' u' h
  rw [cgBody] at h
  split at h
  case isTrue =>
    obtain ⟨⟨ts1, u1⟩, h1, h2⟩ := Option.bind_eq_some_iff.1 h
    cases h2
    obtain ⟨hle, hv⟩ := shrinks_stmts hs k h1
    exact ⟨Nat.le_trans (cgSkip_le _ _) (Nat.le_trans hle (cgSkip_le _ _)), hv⟩
  case isFalse => exact hs h

theorem return_shrinks (hcur : cgCur ts = .returnKw) (h : cgCompileReturnStmt wasm ts u = some (ts', u')) :
    ts'.length < ts.length ∧ u.scope.vars.length ≤ u'.scope.vars.length := by
  obtain ⟨⟨ts1, u1⟩, h1, h2⟩ := Option.bind_eq_some_iff.1 h
  cases h2
  rw [cgSkip_of_eq hcur] at h1
  obtain ⟨hle, hv⟩ := shrinks_expr _ h1
  refine ⟨Nat.lt_of_le_of_lt hle (tail_lt (by rw [hcur]; nofun)), ?_⟩
  cases wasm <;> exact hv

theorem decl_shrinks (hcur : cgCur ts = .longKw) (h : cgCompileDeclStmt ts u = some (ts', u')) :
    ts'.length < ts.length ∧ u.scope.vars.length ≤ u'.scope.vars.length := by
  have hdrop : (ts.dropWhile (· = .longKw)).length < ts.length := by
    cases ts with
    | nil => cases hcur
    | cons t rest =>
      obtain rfl : t = .longKw := hcur
      rw [List.dropWhile_cons_of_pos (by simp)]
      exact Nat.lt_succ_of_le (List.dropWhile_suffix _).length_le
  simp only [cgCompileDeclStmt] at h
  split at h
  case h_1 text _ =>
    have hadd : u.scope.vars.length ≤ (u.addVar text).scope.vars.length := by simp [CgUnit.addVar]
    split at h
    case h_1 ts1 hcons =>
      obtain ⟨hle, hv⟩ := shrinks_expr _ h
      have := (cgConsume_some hcons).2
      simp only [this, List.length_tail] at hle
      exact ⟨by omega, Nat.le_trans hadd hv⟩
    case h_2 =>
      cases h
      exact ⟨by simp only [List.length_tail]; omega, hadd⟩
  case h_2 =>
    cases h
    exact ⟨hdrop, Nat.le_refl _⟩

theorem assign_shrinks {text : String} (hcur : cgCur ts = .ident text) (h : cgCompileAssignStmt ts u = some (ts', u')) :
    ts'.length < ts.length ∧ u.scope.vars.length ≤ u'.scope.vars.length := by
  simp only [cgCompileAssignStmt, hcur] at h
  obtain ⟨hle, hv⟩ := shrinks_expr _ h
  have hskip := cgSkip_le .assign ts.tail
  exact ⟨Nat.lt_of_le_of_lt (Nat.le_trans hle hskip) (tail_lt (by rw [hcur]; nofun)), hv⟩

/-- The condition of `if` and `while`, up to the statement behind it. -/
theorem cond_shrinks {kw : CgToken} {u1 : CgUnit} (hkw : cgCur ts = kw) (hne : kw ≠ .eof)
    (h : cgExprStep .r0 (cgSkip .lparen (cgSkip kw ts)) u = some (ts1, u1)) :
    (cgSkip .rparen ts1).length < ts.length ∧ u.scope.vars.length ≤ u1.scope.vars.length := by
  obtain ⟨hle, hv⟩ := shrinks_expr _ h
  have h1 := cgSkip_le .rparen ts1
  have h2 := cgSkip_le .lparen (cgSkip kw ts)
  have h3 : (cgSkip kw ts).length < ts.length := by
    rw [cgSkip_of_eq hkw]
    exact tail_lt (hkw ▸ hne)
  exact ⟨by omega, hv⟩

theorem if_shrinks (hb : Shrinks body) (hcur : cgCur ts = .ifKw) (h : cgCompileIfStmt wasm body ts u = some (ts', u')) :
    ts'.length < ts.length ∧ u.scope.vars.length ≤ u'.scope.vars.length := by
  obtain ⟨⟨ts1, u1⟩, h1, h⟩ := Option.bind_eq_some_iff.1 h
  obtain ⟨⟨ts2, u2⟩, h2, h⟩ := Option.bind_eq_some_iff.1 h
  obtain ⟨hlt1, hv1⟩ := cond_shrinks hcur (by nofun) h1
  obtain ⟨hle2, hv2⟩ := hb h2
  have hv2 : u1.scope.vars.length ≤ u2.scope.vars.length := hv2
  dsimp only at h hle2
  split at h
  case h_1 ts3 hcons =>
    obtain ⟨⟨ts4, u4⟩, h4, h⟩ := Option.bind_eq_some_iff.1 h
    cases h
    obtain ⟨hle4, hv4⟩ := hb h4
    have htail := (cgConsume_some hcons).2
    simp only [htail, List.length_tail] at hle4
    exact ⟨show ts4.length < _ by omega, Nat.le_trans hv1 (Nat.le_trans hv2 hv4)⟩
  case h_2 =>
    cases h
    exact ⟨by omega, Nat.le_trans hv1 hv2⟩

theorem while_shrinks (hb : Shrinks body) (hcur : cgCur ts = .whileKw)
    (h : cgCompileWhileStmt wasm body ts u = some (ts', u')) :
    ts'.length < ts.length ∧ u.scope.vars.length ≤ u'.scope.vars.length := by
  obtain ⟨⟨ts1, u1⟩, h1, h⟩ := Option.bind_eq_some_iff.1 h
  obtain ⟨⟨ts2, u2⟩, h2, h⟩ := Option.bind_eq_some_iff.1 h
  cases h
  obtain ⟨hlt1, hv1⟩ := cond_shrinks hcur (by nofun) h1
  obtain ⟨hle2, hv2⟩ := hb h2
  exact ⟨Nat.lt_of_le_of_lt hle2 hlt1, Nat.le_trans hv1 hv2⟩

/-- The end of a simple statement. -/
theorem skip_semi_lt (h : ts1.length < ts.length) : (cgSkip .semi ts1).length < ts.length :=
  Nat.lt_of_le_of_lt (cgSkip_le _ _) h

/-- An expression as a statement. -/
theorem exprStmt_advance (hcur : (cgCur ts).startsStmt = ((cgCur ts).startsExpr || cgCur ts = .semi)) (h : cgExprStep .r9 ts u = some (ts1, u')) :
    Advance CgToken.startsStmt ts (cgSkip .semi ts1) ∧ u.scope.vars.length ≤ u'.scope.vars.length := by
  obtain ⟨ts2, u2, heq, ha, hv⟩ := cgExprStep_moves .r9 ts u
  obtain ⟨rfl, rfl⟩ := Prod.mk.inj (Option.some.inj (heq.symm.trans h))
  refine ⟨?_, hv⟩
  rw [Advance] at ha ⊢
  rw [hcur]
  cases hs : (cgCur ts).startsExpr with
  | true =>
    rw [hs, if_pos rfl] at ha
    rw [Bool.true_or, if_pos rfl]
    exact skip_semi_lt ha
  | false =>
    obtain rfl : ts2 = ts := by simpa [hs] using ha
    rw [Bool.false_or]
    by_cases hsemi : cgCur ts2 = .semi
    · rw [hsemi, decide_eq_true rfl, if_pos rfl, cgSkip_of_eq hsemi]
      exact tail_lt (by rw [hsemi]; nofun)
    · rw [decide_eq_false hsemi, if_neg Bool.false_ne_true]
      exact cgSkip_of_ne hsemi

/-- **A statement** that has been compiled has consumed tokens, unless it began with one of the six. -/
theorem stmtWith_advance (hb : Shrinks body) (h : cgStmtWith wasm body ts u = some (ts', u')) :
    Advance CgToken.startsStmt ts ts' ∧ u.scope.vars.length ≤ u'.scope.vars.length := by
  cases hcur : cgCur ts with
  | returnKw =>
    simp only [cgStmtWith, hcur] at h
    obtain ⟨⟨ts1, u1⟩, h1, h2⟩ := Option.bind_eq_some_iff.1 h
    cases h2
    obtain ⟨hlt, hv⟩ := return_shrinks hcur h1
    exact ⟨.of_lt (by rw [hcur]; rfl) (skip_semi_lt hlt), hv⟩
  | ifKw =>
    simp only [cgStmtWith, hcur] at h
    obtain ⟨hlt, hv⟩ := if_shrinks hb hcur h
    exact ⟨.of_lt (by rw [hcur]; rfl) hlt, hv⟩
  | whileKw =>
    simp only [cgStmtWith, hcur] at h
    obtain ⟨hlt, hv⟩ := while_shrinks hb hcur h
    exact ⟨.of_lt (by rw [hcur]; rfl) hlt, hv⟩
  | longKw =>
    simp only [cgStmtWith, hcur] at h
    obtain ⟨⟨ts1, u1⟩, h1, h2⟩ := Option.bind_eq_some_iff.1 h
    cases h2
    obtain ⟨hlt, hv⟩ := decl_shrinks hcur h1
    exact ⟨.of_lt (by rw [hcur]; rfl) (skip_semi_lt hlt), hv⟩
  | ident text =>
    simp only [cgStmtWith, hcur] at h
    split at h
    case isTrue =>
      obtain ⟨⟨ts1, u1⟩, h1, h2⟩ := Option.bind_eq_some_iff.1 h
      cases h2
      obtain ⟨hlt, hv⟩ := assign_shrinks hcur h1
      exact ⟨.of_lt (by rw [hcur]; rfl) (skip_semi_lt hlt), hv⟩
    case isFalse =>
      obtain ⟨⟨ts1, u1⟩, h1, h2⟩ := Option.bind_eq_some_iff.1 h
      cases h2
      exact exprStmt_advance (by rw [hcur]; rfl) h1
  | _ =>
    simp only [cgStmtWith, hcur] at h
    obtain ⟨⟨ts1, u1⟩, h1, h2⟩ := Option.bind_eq_some_iff.1 h
    cases h2
    exact exprStmt_advance (by rw [hcur]; rfl) h1

theorem shrinks_stmt : ∀ n, Shrinks (cgCompileStmt wasm n)
  | 0 => fun _ _ _ _ h => nomatch h
  | n + 1 => fun _ _ _ _ h => by
    obtain ⟨ha, hv⟩ := stmtWith_advance (shrinks_body (shrinks_stmt n) n) h
    exact ⟨ha.le, hv⟩

theorem stmt_advance (h : cgCompileStmt wasm n ts u = some (ts', u')) : Advance CgToken.startsStmt ts ts' := by
  cases n with
  | zero => cases h
  | succ n => exact (stmtWith_advance (shrinks_body (shrinks_stmt n) n) h).1

end WuBuOS.Jit
