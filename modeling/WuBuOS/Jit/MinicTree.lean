import WuBuOS.Jit.MinicExpr

/-!
# Mini-C expressions as trees

`Expr` are the expressions of Mini-C, with the parentheses that are written; `Expr.tokens` is how one is
written, and `Expr.Wf` says that the operands of an operator bind as tightly as the operator's precedence
asks, so that what is written has no other reading.

`Expr.gen` is the code for a tree, `Expr.track` the constant that the compiler believes to be in RAX after
it, and `Expr.mark` what it has noted about the last comparison.  The main theorem, `compiles`, says that
the functions of the chain, run on the tokens of a tree with anything behind them that does not go on
with the expression, stop behind the tree, and have emitted its code.  What the compiler does is
from then on a matter of trees.
-/

namespace WuBuOS.Jit

open X86

/-! ## Trees -/

inductive UnOp where
  | minus | tilde | not
  deriving DecidableEq

/-- What `sizeof` is asked about. -/
inductive SizeofArg where
  | int | long | i64 | u8
  | struct (name : String)

inductive Expr where
  | num (v : BitVec 64)
  | var (x : String)
  | member (x m : String)
  | sizeof (t : SizeofArg)
  | paren (e : Expr)
  | unary (op : UnOp) (e : Expr)
  | bin (op : BinOp) (l r : Expr)
  | cmp (cc : Cc) (l r : Expr)
  /-- `abs`, or `fabs`. -/
  | abs (f : Bool) (e : Expr)
  | minmax (isMax : Bool) (a b : Expr)

def UnOp.token : UnOp → Token
  | .minus => .minus
  | .tilde => .tilde
  | .not => .not

def BinOp.token : BinOp → Token
  | .star => .star
  | .slash => .slash
  | .percent => .percent
  | .plus => .plus
  | .minus => .minus
  | .shl => .shl
  | .shr => .shr
  | .amp => .amp
  | .caret => .caret
  | .pipe => .pipe

def cmpToken : Cc → Token
  | .e => .eq
  | .ne => .neq
  | .l => .lt
  | .g => .gt
  | .le => .leq
  | .ge => .geq

def SizeofArg.tokens : SizeofArg → List Token
  | .int => [.int]
  | .long => [.long]
  | .i64 => [.i64]
  | .u8 => [.u8]
  | .struct name => [.structKw, .ident name]

/-- How the expression is written. -/
def Expr.tokens : Expr → List Token
  | .num v => [.number v]
  | .var x => [.ident x]
  | .member x m => [.ident x, .arrow, .ident m]
  | .sizeof t => .sizeofKw :: .lparen :: (t.tokens ++ [.rparen])
  | .paren e => .lparen :: (e.tokens ++ [.rparen])
  | .unary op e => op.token :: e.tokens
  | .bin op l r => l.tokens ++ op.token :: r.tokens
  | .cmp cc l r => l.tokens ++ cmpToken cc :: r.tokens
  | .abs f e => .ident (if f then "fabs" else "abs") :: .lparen :: (e.tokens ++ [.rparen])
  | .minmax isMax a b =>
    .ident (if isMax then "max" else "min") :: .lparen :: (a.tokens ++ .comma :: (b.tokens ++ [.rparen]))

/-- The level of an operator in the chain. -/
def BinOp.level : BinOp → Nat
  | .star | .slash | .percent => 6
  | .plus | .minus => 5
  | .shl | .shr => 4
  | .amp => 3
  | .caret => 2
  | .pipe => 1

/-- How tightly an expression binds. -/
def Expr.prec : Expr → Nat
  | .bin op _ _ => op.level
  | .cmp _ _ _ => 0
  | _ => 7

variable (sc : MinicScope) (ty : List MinicType)

/-- The expression is what the grammar derives, its variables are declared and its members exist. -/
def Expr.Wf : Expr → Prop
  | .num _ => True
  | .var x => (scopeFind sc x).isSome = true
  | .member x m => ∃ v, scopeFind sc x = some v ∧ 0 < v.mty ∧
      ∃ mm, typeMember ty v.mty m = some mm ∧ 0 ≤ mm.offset
  | .sizeof _ => True
  | .paren e => e.Wf
  | .unary _ e => e.prec = 7 ∧ e.Wf
  | .bin op l r => op.level ≤ l.prec ∧ op.level < r.prec ∧ l.Wf ∧ r.Wf
  | .cmp _ l r => 0 < l.prec ∧ 0 < r.prec ∧ l.Wf ∧ r.Wf
  | .abs _ e => e.Wf
  | .minmax _ a b => a.Wf ∧ b.Wf

def SizeofArg.size : SizeofArg → BitVec 64
  | .struct name => ((typeFind ty name).map (·.size)).getD 0
  | .u8 => 1
  | _ => 8

/-- The constant that the compiler believes to be in RAX after the expression. -/
def Expr.track : Expr → Option (BitVec 64)
  | .num v => some v
  | .sizeof t => some (t.size ty)
  | .paren e => e.track
  | .unary .minus e => e.track.map fun v => -v
  | .unary .tilde e => e.track.map fun v => ~~~v
  -- `!`, a comparison and a builtin leave what their last operand has set.
  | .unary .not e => e.track
  | .cmp _ _ r => r.track
  | .abs _ e => e.track
  | .minmax _ _ b => b.track
  | .var _ | .member _ _ | .bin _ _ _ => none

def UnOp.code : UnOp → List Instr
  | .minus => [.negReg .rax]
  | .tilde => [.notReg .rax]
  | .not => [.cmpRegImm32 .rax 0, .setccR8 .e .rax, .movzxEaxAl]

/-- The code of a variable. -/
def varCode (x : String) : List Instr := ((scopeFind sc x).map loadVar).toList

/-- The code for the expression. -/
def Expr.gen : Expr → List Instr
  | .num v => [.movRegImm64 .rax v]
  | .var x => varCode sc x
  | .member x m => varCode sc x ++
      (((scopeFind sc x).bind fun v => typeMember ty v.mty m).map loadMember).toList
  | .sizeof t => [.movRegImm64 .rax (t.size ty)]
  | .paren e => e.gen
  | .unary op e => e.gen ++ op.code
  | .bin op l r => l.gen ++ before op ++ r.gen ++ after op (r.track ty)
  | .cmp cc l r => l.gen ++ [.push .rax] ++ r.gen ++ cmpCode cc (r.track ty) ++ setCode cc
  | .abs _ e => e.gen ++ [.movRegReg .rdi .rax] ++ .movRegReg .rax .rdi :: emitAbsBranchless
  | .minmax isMax a b => a.gen ++ [.movRegReg .rdi .rax] ++ b.gen ++ [.movRegReg .rsi .rax] ++
      .movRegReg .rax .rdi :: emitMinmaxCmov .rsi isMax

/-- A mark further on in the code. -/
def shift (k : Nat) (m : Option (Cc × Nat)) : Option (Cc × Nat) := m.map fun p => (p.1, p.2 + k)

/-- What the compiler has noted of the last comparison: `none` if it is still what it was before, and
otherwise whether there is one, its condition, and the position in the code behind it. -/
def Expr.mark : Expr → Option (Option (Cc × Nat))
  | .num _ | .var _ | .member _ _ | .sizeof _ => none
  -- Parentheses and arguments begin with `compile_expr`, which forgets the last comparison.
  | .paren e => some e.mark.join
  | .unary _ e => e.mark
  | .bin op l r =>
    match r.mark with
    | some m => some (shift (l.gen sc ty ++ before op).length m)
    | none => l.mark
  | .cmp cc l r => some (some (cc,
      (l.gen sc ty ++ [Instr.push .rax] ++ r.gen sc ty ++ cmpCode cc (r.track ty)).length))
  | .abs _ e => some e.mark.join
  | .minmax _ a b => some (shift (a.gen sc ty ++ [Instr.movRegReg .rdi .rax]).length b.mark.join)

/-! ## What a function of the chain has done -/

/-- The compiler is at work on an expression of the scope. -/
structure Ready (mc : MinicCompiler) : Prop where
  scope : mc.scope = sc
  types : mc.types = ty
  error : mc.error = false

/-- The compiler has noted of the last comparison what the mark says, from position `n` on. -/
def Marked (mc mc' : MinicCompiler) (n : Nat) : Option (Option (Cc × Nat)) → Prop
  | none => mc'.lastWasCompare = mc.lastWasCompare ∧ mc'.lastCompareCc = mc.lastCompareCc ∧
      mc'.cmpAfterPos = mc.cmpAfterPos
  | some none => mc'.lastWasCompare = false
  | some (some (cc, k)) => mc'.lastWasCompare = true ∧ mc'.lastCompareCc = cc ∧ mc'.cmpAfterPos = n + k

/-- From `mc` to `mc'`, the code has been emitted, RAX is believed to hold what `track` says, and the
last comparison is noted. -/
structure Emitted (mc mc' : MinicCompiler) (code : List Instr) (track : Option (BitVec 64))
    (mark : Option (Option (Cc × Nat))) : Prop where
  ready : Ready sc ty mc'
  code : mc'.code = mc.code ++ code
  const : mc'.const = track
  mark : Marked mc mc' mc.code.length mark

/-- The function reads the expression and emits its code, whatever follows, as long as it does not go on
with the expression: the first token behind it meets `stop`. -/
def Reads (f : Compile) (stop : Token → Prop) (e : Expr) (mark : Option (Option (Cc × Nat))) : Prop :=
  ∀ rest mc, Ready sc ty mc → stop (cur rest) → ∃ mc', f (e.tokens ++ rest) mc = some (rest, mc') ∧
    Emitted sc ty mc mc' (e.gen sc ty) (e.track ty) mark

/-- All operators. -/
def binOp (t : Token) : Option BinOp :=
  (mulOp t).or ((addOp t).or ((shiftOp t).or ((andOp t).or ((xorOp t).or (orOp t)))))

/-- The token does not go on with an expression of the level: it is no operator of this level or a
tighter one, and no parenthesis or arrow. -/
def Stops (k : Nat) (t : Token) : Prop :=
  t ≠ .lparen ∧ t ≠ .arrow ∧ ∀ op, binOp t = some op → op.level < k

/-- The token does not go on with any expression. -/
def StopsExpr (t : Token) : Prop := Stops 0 t ∧ cmpOp t = none

/-- The operators of a level. -/
def opAt : Nat → Token → Option BinOp
  | 6 => mulOp
  | 5 => addOp
  | 4 => shiftOp
  | 3 => andOp
  | 2 => xorOp
  | 1 => orOp
  | _ => fun _ => none

/-- The function of the chain for a level. -/
def chainAt (prim : Compile) : Nat → Compile
  | 6 => compileMultiplicative prim
  | 5 => compileAdditive prim
  | 4 => compileShift prim
  | 3 => compileBitwiseAnd prim
  | 2 => compileBitwiseXor prim
  | 1 => compileBitwiseOr prim
  | _ => prim

variable {sc ty} {mc mc' mc'' : MinicCompiler} {e l r : Expr} {k n : Nat} {op : BinOp}

theorem chainAt_eq (prim : Compile) (hlo : 1 ≤ k) (hhi : k ≤ 6) :
    chainAt prim k = level (opAt k) (chainAt prim (k + 1)) := by
  match k, hlo, hhi with
  | 1, _, _ => rfl
  | 2, _, _ => rfl
  | 3, _, _ => rfl
  | 4, _, _ => rfl
  | 5, _, _ => rfl
  | 6, _, _ => rfl

theorem opAt_token (op : BinOp) : opAt op.level op.token = some op := by
  cases op <;> rfl

theorem binOp_token (op : BinOp) : binOp op.token = some op := by
  cases op <;> rfl

theorem level_pos (op : BinOp) : 1 ≤ op.level ∧ op.level ≤ 6 := by
  cases op <;> decide

theorem stops_token (h : op.level < k) : Stops k op.token := by
  refine ⟨by cases op <;> decide, by cases op <;> decide, fun o ho => ?_⟩
  rw [binOp_token] at ho
  rwa [← Option.some.inj ho]

/-- A token on which the level stops is not one of its operators. -/
theorem opAt_none {t : Token} (h : Stops k t) : opAt k t = none := by
  by_contra hne
  obtain ⟨op, hop⟩ := Option.ne_none_iff_exists'.1 hne
  have hb : binOp t = some op ∧ op.level = k := by
    match k with
    | 0 => cases hop
    | 1 | 2 | 3 | 4 | 5 | 6 =>
      simp only [opAt] at hop
      revert hop
      cases t <;> simp only [mulOp, addOp, shiftOp, andOp, xorOp, orOp, binOp, reduceCtorEq,
        Option.some.injEq, Option.or_none, Option.or_some, false_imp_iff] <;>
        rintro rfl <;> exact ⟨rfl, rfl⟩
    | _ + 7 => cases hop
  have := h.2.2 op hb.1
  omega

theorem Stops.mono {t : Token} (h : Stops k t) (hn : k ≤ n) : Stops n t :=
  ⟨h.1, h.2.1, fun op ho => Nat.lt_of_lt_of_le (h.2.2 op ho) hn⟩

/-! ## What the pieces emit -/

theorem Ready.emit (h : Ready sc ty mc) (c : List Instr) : mc.emit c = { mc with code := mc.code ++ c } := by
  rw [MinicCompiler.emit, h.error]
  rfl

theorem Ready.emitted (h : Ready sc ty mc) (c : List Instr) : Ready sc ty (mc.emit c) := by
  rw [h.emit]
  exact ⟨h.scope, h.types, h.error⟩

theorem Ready.clear (h : Ready sc ty mc) : Ready sc ty mc.clearConst := ⟨h.scope, h.types, h.error⟩

theorem Ready.reset (h : Ready sc ty mc) : Ready sc ty { mc with lastWasCompare := false } :=
  ⟨h.scope, h.types, h.error⟩

variable {c c' : List Instr} {t t' : Option (BitVec 64)} {m m' : Option (Option (Cc × Nat))}

/-- More code behind, that says nothing of comparisons. -/
theorem Emitted.emit (h : Emitted sc ty mc mc' c t m) (d : List Instr) :
    Emitted sc ty mc (mc'.emit d) (c ++ d) t m := by
  refine ⟨h.ready.emitted d, ?_, ?_, ?_⟩
  · rw [h.ready.emit, h.code, List.append_assoc]
  · rw [h.ready.emit, ← h.const]
    rfl
  · rw [h.ready.emit]
    exact h.mark

theorem Emitted.clear (h : Emitted sc ty mc mc' c t m) : Emitted sc ty mc mc'.clearConst c none m :=
  ⟨h.ready.clear, h.code, rfl, h.mark⟩

theorem Emitted.mapConst (h : Emitted sc ty mc mc' c t m) (f : BitVec 64 → BitVec 64) :
    Emitted sc ty mc (mc'.mapConst f) c (t.map f) m := by
  have hc := h.const
  rw [MinicCompiler.const] at hc
  rw [MinicCompiler.mapConst]
  split
  case isTrue hk =>
    rw [if_pos hk] at hc
    refine ⟨⟨h.ready.scope, h.ready.types, h.ready.error⟩, h.code, ?_, h.mark⟩
    rw [← hc, MinicCompiler.const, if_pos hk]
    rfl
  case isFalse hk =>
    rw [if_neg hk] at hc
    subst hc
    exact ⟨h.ready, h.code, by rw [MinicCompiler.const, if_neg hk]; rfl, h.mark⟩

/-- The mark of two pieces of code: that of the second, if it has one. -/
def later (n : Nat) (m m' : Option (Option (Cc × Nat))) : Option (Option (Cc × Nat)) :=
  match m' with
  | some m' => some (shift n m')
  | none => m

/-- **One piece after the other.** -/
theorem Emitted.trans (h : Emitted sc ty mc mc' c t m) (h' : Emitted sc ty mc' mc'' c' t' m') :
    Emitted sc ty mc mc'' (c ++ c') t' (later c.length m m') := by
  refine ⟨h'.ready, by rw [h'.code, h.code, List.append_assoc], h'.const, ?_⟩
  have hm := h.mark
  have hm' := h'.mark
  rw [h.code, List.length_append] at hm'
  match m', m with
  | none, none => exact ⟨hm'.1.trans hm.1, hm'.2.1.trans hm.2.1, hm'.2.2.trans hm.2.2⟩
  | none, some none => exact hm'.1.trans hm
  | none, some (some _) => exact ⟨hm'.1.trans hm.1, hm'.2.1.trans hm.2.1, hm'.2.2.trans hm.2.2⟩
  | some none, _ => exact hm'
  | some (some p), _ =>
    refine ⟨hm'.1, hm'.2.1, hm'.2.2.trans ?_⟩
    omega

/-- `compile_expr` forgets the last comparison first. -/
theorem Emitted.expr (h : Emitted sc ty { mc with lastWasCompare := false } mc' c t m) :
    Emitted sc ty mc mc' c t (some m.join) := by
  refine ⟨h.ready, h.code, h.const, ?_⟩
  have hm := h.mark
  match m with
  | none => exact hm.1
  | some none => exact hm
  | some (some _) => exact hm

/-- Code that is emitted as a whole. -/
theorem emitted_emit (h : Ready sc ty mc) (d : List Instr) : Emitted sc ty mc (mc.emit d) d mc.const none := by
  rw [h.emit]
  exact ⟨⟨h.scope, h.types, h.error⟩, rfl, rfl, rfl, rfl, rfl⟩

/-- `mc->rax_is_const = false` before the code of a name. -/
theorem Emitted.of_clear (h : Emitted sc ty mc.clearConst mc' c t m) : Emitted sc ty mc mc' c t m :=
  ⟨h.ready, h.code, h.const, h.mark⟩

/-! ## A level of the chain -/

/-- A chain of levels, from `lo` to `hi` and an operand behind: what a level reads, the loops of the looser
levels start from, and where a loop stops, the level has read.  So what is read at one level is read at all
the looser ones. -/
theorem levels_below {R L : Nat → Prop} {lo hi K : Nat} (hnext : ∀ k, lo ≤ k → k ≤ hi → R (k + 1) → L k)
    (hstop : ∀ k, lo ≤ k → k ≤ hi → L k → R k) (hK : K ≤ hi + 1) (htop : K ≤ hi → L K) (h : R K) :
    ∀ k, lo ≤ k → k ≤ K → R k ∧ (k ≤ hi → L k) := by
  have hall : ∀ d k, k + d = K → lo ≤ k → R k ∧ (k ≤ hi → L k) := fun d => by
    induction d with
    | zero =>
      rintro k rfl _
      exact ⟨h, htop⟩
    | succ d ih =>
      intro k hk hlo
      have hL := hnext k hlo (by omega) (ih (k + 1) (by omega) (by omega)).1
      exact ⟨hstop k hlo (by omega) hL, fun _ => hL⟩
  exact fun k hlo hk => hall (K - k) k (by omega) hlo

/-- The level reads an operand, and goes into its loop. -/
def Loops (sc : MinicScope) (ty : List MinicType) (op : Token → Option BinOp) (next : Compile)
    (stop : Token → Prop) (e : Expr) : Prop :=
  ∀ rest mc, Ready sc ty mc → stop (cur rest) → ∃ mc' f, rest.length ≤ f ∧
    level op next (e.tokens ++ rest) mc = opLoop op next f rest mc' ∧
    Emitted sc ty mc mc' (e.gen sc ty) (e.track ty) (e.mark sc ty)

variable {ops : Token → Option BinOp} {next : Compile} {stop : Token → Prop}

/-- An operand that binds tighter is what the loop starts from. -/
theorem loops_of_reads (h : Reads sc ty next stop e (e.mark sc ty)) :
    Loops sc ty ops next stop e := fun rest mc hr hs => by
  obtain ⟨mc', he, hm⟩ := h rest mc hr hs
  refine ⟨mc', rest.length, Nat.le_refl _, ?_, hm⟩
  rw [level, he]
  rfl

/-- The loop stops. -/
theorem reads_of_loops {stop' : Token → Prop} (h : Loops sc ty ops next stop e)
    (hstop : ∀ t, stop' t → stop t ∧ ops t = none) :
    Reads sc ty (level ops next) stop' e (e.mark sc ty) := fun rest mc hr hs => by
  obtain ⟨hs, hn⟩ := hstop _ hs
  obtain ⟨mc', f, -, he, hm⟩ := h rest mc hr hs
  refine ⟨mc', ?_, hm⟩
  rw [he]
  cases f with
  | zero => rfl
  | succ f => rw [opLoop, hn]

/-- **One round of the loop**: the right operand is read, and the loop goes on behind it. -/
theorem loops_bin (hl : Loops sc ty ops next stop l)
    (hr : Reads sc ty next stop r (r.mark sc ty)) (ho : ops op.token = some op) (hs : stop op.token) :
    Loops sc ty ops next stop (.bin op l r) := fun rest mc hready hstop => by
  obtain ⟨m1, f, hf, he, h1⟩ := hl (op.token :: (r.tokens ++ rest)) mc hready hs
  obtain ⟨m2, he2, h2⟩ := hr rest (m1.emit (before op)) (h1.ready.emitted _) hstop
  obtain ⟨f, rfl⟩ := Nat.exists_eq_add_of_le' (Nat.zero_lt_of_lt hf)
  rw [List.length_cons, List.length_append] at hf
  refine ⟨(m2.emit (after op (r.track ty))).clearConst, f, by omega, ?_, ?_⟩
  · have ht : Expr.tokens (.bin op l r) ++ rest = l.tokens ++ op.token :: (r.tokens ++ rest) := by
      simp [Expr.tokens]
    rw [ht, he, opLoop, show cur (op.token :: (r.tokens ++ rest)) = op.token from rfl, ho]
    simp only [binBody, List.tail_cons, he2, Option.bind_eq_bind, Option.bind_some, h2.const]
  · have := (((h1.emit (before op)).trans h2).emit (after op (r.track ty))).clear
    exact this

/-! ## The chain -/

variable (sc ty) in
/-- What is proved of every tree: each function of the chain that may see the tree reads it. -/
structure Compiled (n : Nat) (e : Expr) : Prop where
  reads : ∀ k, 1 ≤ k → k ≤ e.prec →
    Reads sc ty (chainAt (primary n) k) (Stops k) e (e.mark sc ty)
  loops : ∀ k, 1 ≤ k → k ≤ 6 → k ≤ e.prec →
    Loops sc ty (opAt k) (chainAt (primary n) (k + 1)) (Stops (k + 1)) e
  expr : Reads sc ty (compileExpr (primary n)) StopsExpr e (some (e.mark sc ty).join)

theorem reads_level (hlo : 1 ≤ k) (hhi : k ≤ 6)
    (h : Loops sc ty (opAt k) (chainAt (primary n) (k + 1)) (Stops (k + 1)) e) :
    Reads sc ty (chainAt (primary n) k) (Stops k) e (e.mark sc ty) := by
  rw [chainAt_eq _ hlo hhi]
  exact reads_of_loops h fun _ ht => ⟨ht.mono (Nat.le_succ k), opAt_none ht⟩

theorem cmpOp_token (cc : Cc) : cmpOp (cmpToken cc) = some cc := by
  cases cc <;> rfl

theorem stops_cmpToken (cc : Cc) : Stops 1 (cmpToken cc) := by
  refine ⟨by cases cc <;> decide, by cases cc <;> decide, fun op ho => ?_⟩
  cases cc <;> cases ho

/-- An expression without a comparison outside of parentheses. -/
theorem reads_expr (h : Reads sc ty (chainAt (primary n) 1) (Stops 1) e (e.mark sc ty)) :
    Reads sc ty (compileExpr (primary n)) StopsExpr e (some (e.mark sc ty).join) :=
  fun rest mc hr hs => by
    obtain ⟨mc', he, hm⟩ := h rest _ hr.reset (hs.1.mono (Nat.zero_le 1))
    refine ⟨mc', ?_, hm.expr⟩
    have he : compileBitwiseOr (primary n) (e.tokens ++ rest) { mc with lastWasCompare := false } =
      some (rest, mc') := he
    simp only [compileExpr, compileCompare, he, Option.bind_eq_bind, Option.bind_some, hs.2]

theorem compiled_of_reads {K : Nat} (hK : K = e.prec) (hlo : 1 ≤ K) (hhi : K ≤ 7)
    (htop : K ≤ 6 → Loops sc ty (opAt K) (chainAt (primary n) (K + 1)) (Stops (K + 1)) e)
    (h : Reads sc ty (chainAt (primary n) K) (Stops K) e (e.mark sc ty)) : Compiled sc ty n e := by
  subst hK
  have hb := levels_below (fun _ _ _ => loops_of_reads) (fun _ hlo hhi => reads_level hlo hhi) hhi htop h
  exact ⟨fun k hk hp => (hb k hk hp).1, fun k hk hk6 hp => (hb k hk hp).2 hk6, reads_expr (hb 1 (Nat.le_refl 1) hlo).1⟩

/-- A primary expression. -/
theorem compiled_prim (hp : e.prec = 7) (h : Reads sc ty (primary n) (Stops 7) e (e.mark sc ty)) : Compiled sc ty n e :=
  compiled_of_reads hp.symm (by omega) (Nat.le_refl 7) (fun h => absurd h (by omega)) h

/-- A binary operator. -/
theorem compiled_bin (hl : Compiled sc ty n l) (hr : Compiled sc ty n r) (hlp : op.level ≤ l.prec)
    (hrp : op.level < r.prec) : Compiled sc ty n (.bin op l r) := by
  obtain ⟨hlo, hhi⟩ := level_pos op
  have hloop : Loops sc ty (opAt op.level) (chainAt (primary n) (op.level + 1))
      (Stops (op.level + 1)) (.bin op l r) :=
    loops_bin (hl.loops _ hlo hhi hlp) (hr.reads _ (by omega) hrp) (opAt_token op)
      (stops_token (Nat.lt_succ_self _))
  exact compiled_of_reads (K := op.level) rfl hlo (by omega) (fun _ => hloop) (reads_level hlo hhi hloop)

/-- A comparison. -/
theorem compiled_cmp {cc : Cc} (hl : Compiled sc ty n l) (hr : Compiled sc ty n r) (hlp : 0 < l.prec)
    (hrp : 0 < r.prec) : Compiled sc ty n (.cmp cc l r) := by
  refine ⟨fun k hk hp => absurd hp (by simp only [Expr.prec]; omega),
    fun k hk _ hp => absurd hp (by simp only [Expr.prec]; omega), fun rest mc hready hs => ?_⟩
  obtain ⟨m1, he1, h1⟩ := hl.reads 1 (Nat.le_refl 1) hlp (cmpToken cc :: (r.tokens ++ rest)) _ hready.reset
    (stops_cmpToken cc)
  obtain ⟨m2, he2, h2⟩ := hr.reads 1 (Nat.le_refl 1) hrp rest (m1.emit [.push .rax]) (h1.ready.emitted _)
    (hs.1.mono (Nat.zero_le 1))
  have h3 := ((h1.expr.emit [.push .rax]).trans h2).emit (cmpCode cc (r.track ty))
  have hready3 := h3.ready
  have he1 : compileBitwiseOr (primary n) (l.tokens ++ cmpToken cc :: (r.tokens ++ rest))
    { mc with lastWasCompare := false } = some (cmpToken cc :: (r.tokens ++ rest), m1) := he1
  have he2 : compileBitwiseOr (primary n) (r.tokens ++ rest) (m1.emit [.push .rax]) = some (rest, m2) := he2
  have ht : Expr.tokens (.cmp cc l r) ++ rest = l.tokens ++ cmpToken cc :: (r.tokens ++ rest) := by
    simp [Expr.tokens]
  refine ⟨((m2.emit (cmpCode cc (r.track ty))).recordCompare cc).emit (setCode cc), ?_, ?_⟩
  · simp only [compileExpr, compileCompare, ht, he1, Option.bind_eq_bind, Option.bind_some,
      show cur (cmpToken cc :: (r.tokens ++ rest)) = cmpToken cc from rfl, cmpOp_token, List.tail_cons,
      he2, h2.const]
  · have hrec : Ready sc ty ((m2.emit (cmpCode cc (r.track ty))).recordCompare cc) :=
      ⟨hready3.scope, hready3.types, hready3.error⟩
    rw [hrec.emit]
    refine ⟨⟨hready3.scope, hready3.types, hready3.error⟩, ?_, h3.const, rfl, rfl, ?_⟩
    · show (m2.emit (cmpCode cc (r.track ty))).code ++ setCode cc = _
      rw [h3.code, List.append_assoc]
      rfl
    · show (m2.emit (cmpCode cc (r.track ty))).code.length = _
      rw [h3.code, List.length_append]

/-! ## Primary expressions -/

section Primary

variable {rest : List Token} {x y : String}

theorem cur_cons (t : Token) (ts : List Token) : cur (t :: ts) = t := rfl

theorem expect_cons (t : Token) (ts : List Token) : expect t (t :: ts) = ts := if_pos rfl

theorem reads_num (n : Nat) (v : BitVec 64) : Reads sc ty (primary (n + 1)) (Stops 7) (.num v) none :=
  fun rest mc hr _ => by
    refine ⟨(mc.emit [.movRegImm64 .rax v]).setConst v, rfl, ?_⟩
    rw [hr.emit]
    exact ⟨⟨hr.scope, hr.types, hr.error⟩, rfl, rfl, rfl, rfl, rfl⟩

theorem reads_var (n : Nat) (hx : (scopeFind sc x).isSome = true) :
    Reads sc ty (primary (n + 1)) (Stops 7) (.var x) none := fun rest mc hr hs => by
  obtain ⟨v, hv⟩ := Option.isSome_iff_exists.1 hx
  refine ⟨mc.clearConst.emit [loadVar v], ?_, ?_⟩
  · show compilePrimary _ _ (.ident x :: rest) mc = _
    simp only [compilePrimary, cur_cons, List.tail_cons, hs.1, if_false, compileVar,
      hr.clear.scope, hv, hs.2.1, and_false]
  · have hg : Expr.gen sc ty (.var x) = [loadVar v] := by
      rw [Expr.gen, varCode, hv]
      rfl
    rw [hg]
    exact (emitted_emit hr.clear [loadVar v]).of_clear

theorem reads_member (n : Nat) {v : MinicVar} {mm : MinicMember} (hv : scopeFind sc x = some v)
    (hty : 0 < v.mty) (hm : typeMember ty v.mty y = some mm) (ho : 0 ≤ mm.offset) :
    Reads sc ty (primary (n + 1)) (Stops 7) (.member x y) none := fun rest mc hr hs => by
  have hr' := hr.clear.emitted [loadVar v]
  refine ⟨(mc.clearConst.emit [loadVar v]).emit [loadMember mm], ?_, ?_⟩
  · show compilePrimary _ _ (.ident x :: .arrow :: .ident y :: rest) mc = _
    simp only [compilePrimary, cur_cons, List.tail_cons, reduceCtorEq, if_false, compileVar,
      hr.clear.scope, hv, hty, and_true, if_true, hr'.types, hm, ho]
  · have hg : Expr.gen sc ty (.member x y) = [loadVar v] ++ [loadMember mm] := by
      rw [Expr.gen, varCode, hv, Option.bind_some, hm]
      rfl
    rw [hg]
    exact ((emitted_emit hr.clear [loadVar v]).emit [loadMember mm]).of_clear

theorem sizeofArg_tokens (t : SizeofArg) (ts : List Token) : sizeofArg ty (t.tokens ++ ts) = (t.size ty, ts) := by
  cases t <;> rfl

theorem reads_sizeof (n : Nat) (t : SizeofArg) :
    Reads sc ty (primary (n + 1)) (Stops 7) (.sizeof t) none := fun rest mc hr _ => by
  refine ⟨(mc.emit [.movRegImm64 .rax (t.size ty)]).setConst (t.size ty), ?_, ?_⟩
  · have ht : Expr.tokens (.sizeof t) ++ rest = .sizeofKw :: .lparen :: (t.tokens ++ .rparen :: rest) := by
      simp [Expr.tokens]
    rw [ht]
    show compilePrimary _ _ _ mc = _
    simp only [compilePrimary, cur_cons, List.tail_cons, expect_cons, hr.types, sizeofArg_tokens]
  · rw [hr.emit]
    exact ⟨⟨hr.scope, hr.types, hr.error⟩, rfl, rfl, rfl, rfl, rfl⟩

/-- A parenthesis or a comma ends an expression. -/
theorem stops_rparen : StopsExpr .rparen :=
  ⟨⟨by decide, by decide, fun _ ho => nomatch ho⟩, rfl⟩

theorem stops_comma : StopsExpr .comma :=
  ⟨⟨by decide, by decide, fun _ ho => nomatch ho⟩, rfl⟩

theorem reads_paren (he : Compiled sc ty n e) :
    Reads sc ty (primary (n + 1)) (Stops 7) (.paren e) (some (e.mark sc ty).join) := fun rest mc hr _ => by
  obtain ⟨mc', he, hm⟩ := he.expr (.rparen :: rest) mc hr stops_rparen
  refine ⟨mc', ?_, hm⟩
  have ht : Expr.tokens (.paren e) ++ rest = .lparen :: (e.tokens ++ .rparen :: rest) := by
    simp [Expr.tokens]
  rw [ht]
  show compilePrimary _ _ _ mc = _
  simp only [compilePrimary, cur_cons, List.tail_cons, he, Option.bind_eq_bind, Option.bind_some, expect_cons]

theorem reads_unary (uop : UnOp) (hp : e.prec = 7) (he : Compiled sc ty n e) :
    Reads sc ty (primary (n + 1)) (Stops 7) (.unary uop e) (e.mark sc ty) := fun rest mc hr hs => by
  obtain ⟨mc', he, hm⟩ := he.reads 7 (by omega) (by omega) rest mc hr hs
  have he : primary n (e.tokens ++ rest) mc = some (rest, mc') := he
  cases uop with
  | minus =>
    refine ⟨(mc'.emit [.negReg .rax]).mapConst fun v => -v, ?_, (hm.emit [.negReg .rax]).mapConst _⟩
    show compilePrimary _ _ (.minus :: (e.tokens ++ rest)) mc = _
    simp only [compilePrimary, cur_cons, List.tail_cons, he, Option.bind_eq_bind, Option.bind_some]
  | tilde =>
    refine ⟨(mc'.emit [.notReg .rax]).mapConst fun v => ~~~v, ?_, (hm.emit [.notReg .rax]).mapConst _⟩
    show compilePrimary _ _ (.tilde :: (e.tokens ++ rest)) mc = _
    simp only [compilePrimary, cur_cons, List.tail_cons, he, Option.bind_eq_bind, Option.bind_some]
  | not =>
    refine ⟨mc'.emit (UnOp.code .not), ?_, hm.emit _⟩
    show compilePrimary _ _ (.not :: (e.tokens ++ rest)) mc = _
    simp only [compilePrimary, cur_cons, List.tail_cons, he, Option.bind_eq_bind, Option.bind_some, UnOp.code]

/-- What is written does not begin with a closing parenthesis. -/
theorem cur_tokens_ne (e : Expr) (ts : List Token) : cur (e.tokens ++ ts) ≠ .rparen := by
  induction e generalizing ts with
  | num | var | member | sizeof | paren | abs | minmax => exact (by simp [Expr.tokens, cur])
  | unary op e => cases op <;> simp [Expr.tokens, cur, UnOp.token]
  | bin op l r ih _ =>
    rw [Expr.tokens, List.append_assoc]
    exact ih _
  | cmp cc l r ih _ =>
    rw [Expr.tokens, List.append_assoc]
    exact ih _

theorem reads_abs (f : Bool) (he : Compiled sc ty n e) :
    Reads sc ty (primary (n + 1)) (Stops 7) (.abs f e) (some (e.mark sc ty).join) := fun rest mc hr _ => by
  obtain ⟨mc', he, hm⟩ := he.expr (.rparen :: rest) mc.clearConst hr.clear stops_rparen
  refine ⟨(mc'.emit [.movRegReg .rdi .rax]).emit (.movRegReg .rax .rdi :: emitAbsBranchless), ?_, ?_⟩
  · have ht : Expr.tokens (.abs f e) ++ rest =
        .ident (if f then "fabs" else "abs") :: .lparen :: (e.tokens ++ .rparen :: rest) := by
      simp [Expr.tokens]
    have hname : (if f = true then "fabs" else "abs") = "abs" ∨ (if f = true then "fabs" else "abs") = "fabs" := by
      cases f <;> simp
    rw [ht]
    show compilePrimary _ _ _ mc = _
    simp only [compilePrimary, cur_cons, List.tail_cons, if_true, compileCall, hname, tryAbs,
      cur_tokens_ne, ne_eq, not_false_eq_true, he, Option.bind_eq_bind, Option.bind_some, expect_cons]
  · exact ((hm.emit [.movRegReg .rdi .rax]).emit (.movRegReg .rax .rdi :: emitAbsBranchless)).of_clear

theorem reads_minmax (isMax : Bool) {a b : Expr} (ha : Compiled sc ty n a) (hb : Compiled sc ty n b) :
    Reads sc ty (primary (n + 1)) (Stops 7) (.minmax isMax a b) (Expr.mark sc ty (.minmax isMax a b)) :=
  fun rest mc hr _ => by
    obtain ⟨m1, he1, h1⟩ := ha.expr (.comma :: (b.tokens ++ .rparen :: rest)) mc.clearConst hr.clear
      stops_comma
    have h1 := h1.emit [.movRegReg .rdi .rax]
    obtain ⟨m2, he2, h2⟩ := hb.expr (.rparen :: rest) _ h1.ready stops_rparen
    refine ⟨(m2.emit [.movRegReg .rsi .rax]).emit (.movRegReg .rax .rdi :: emitMinmaxCmov .rsi isMax), ?_, ?_⟩
    · have ht : Expr.tokens (.minmax isMax a b) ++ rest = .ident (if isMax then "max" else "min") ::
          .lparen :: (a.tokens ++ .comma :: (b.tokens ++ .rparen :: rest)) := by
        simp [Expr.tokens]
      have hno : ¬((if isMax = true then "max" else "min") = "abs" ∨
          (if isMax = true then "max" else "min") = "fabs") := by
        cases isMax <;> decide
      have hyes : (if isMax = true then "max" else "min") = "min" ∨
          (if isMax = true then "max" else "min") = "max" := by
        cases isMax <;> simp
      have hmax : decide ((if isMax = true then "max" else "min") = "max") = isMax := by
        cases isMax <;> decide
      rw [ht]
      show compilePrimary _ _ _ mc = _
      simp only [compilePrimary, cur_cons, List.tail_cons, if_true, compileCall, hno, if_false, hyes, hmax,
        tryMinmax, cur_tokens_ne, ne_eq, not_false_eq_true, he1, Option.bind_eq_bind, Option.bind_some,
        he2, expect_cons]
    · have := ((h1.trans h2).emit [.movRegReg .rsi .rax]).emit
        (.movRegReg .rax .rdi :: emitMinmaxCmov .rsi isMax)
      exact this.of_clear

end Primary

/-- **The chain compiles every expression.** -/
theorem compiles (e : Expr) (hw : e.Wf sc ty) : ∀ n, e.tokens.length ≤ n → Compiled sc ty n e := by
  induction e with
  | num v =>
    rintro (_ | n) hn
    · simp [Expr.tokens] at hn
    · exact compiled_prim rfl (reads_num n v)
  | var x =>
    rintro (_ | n) hn
    · simp [Expr.tokens] at hn
    · exact compiled_prim rfl (reads_var n hw)
  | member x m =>
    obtain ⟨v, hv, hty, mm, hm, ho⟩ := hw
    rintro (_ | n) hn
    · simp [Expr.tokens] at hn
    · exact compiled_prim rfl (reads_member n hv hty hm ho)
  | sizeof t =>
    rintro (_ | n) hn
    · simp [Expr.tokens] at hn
    · exact compiled_prim rfl (reads_sizeof n t)
  | paren e ih =>
    rintro (_ | n) hn
    · simp [Expr.tokens] at hn
    · simp only [Expr.tokens, List.length_cons, List.length_append] at hn
      exact compiled_prim rfl (reads_paren (ih hw n (by omega)))
  | unary op e ih =>
    rintro (_ | n) hn
    · simp [Expr.tokens] at hn
    · simp only [Expr.tokens, List.length_cons] at hn
      exact compiled_prim rfl (reads_unary op hw.1 (ih hw.2 n (by omega)))
  | bin op l r ihl ihr =>
    intro n hn
    simp only [Expr.tokens, List.length_cons, List.length_append] at hn
    exact compiled_bin (ihl hw.2.2.1 n (by omega)) (ihr hw.2.2.2 n (by omega)) hw.1 hw.2.1
  | cmp cc l r ihl ihr =>
    intro n hn
    simp only [Expr.tokens, List.length_cons, List.length_append] at hn
    exact compiled_cmp (ihl hw.2.2.1 n (by omega)) (ihr hw.2.2.2 n (by omega)) hw.1 hw.2.1
  | abs f e ih =>
    rintro (_ | n) hn
    · simp [Expr.tokens] at hn
    · simp only [Expr.tokens, List.length_cons, List.length_append] at hn
      exact compiled_prim rfl (reads_abs f (ih hw n (by omega)))
  | minmax isMax a b iha ihb =>
    rintro (_ | n) hn
    · simp [Expr.tokens] at hn
    · simp only [Expr.tokens, List.length_cons, List.length_append] at hn
      exact compiled_prim rfl
        (reads_minmax isMax (iha hw.1 n (by omega)) (ihb hw.2 n (by omega)))

end WuBuOS.Jit
