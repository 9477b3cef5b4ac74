import WuBuOS.Jit.MinicArith

/-!
# The expressions of the portable code generator

`jit/jit_minic_cg.c`.  An expression is compiled into a register, in two ways.  `cgConstEval` evaluates it,
as far as it is made of literals, by a chain of functions of its own; where that fails, the chain
`cgCompileCompare` emits instructions for an abstract machine with sixteen registers.

The tokens still to be read are a list, the current token first, and past its end there is `TOK_EOF`; so
saving and restoring `cur_tok` and `lex` is keeping the list.  The right operand of every operator goes to
`CG_REG_15`.

An instruction is what its function of the code generator is documented to do with the registers; the
two-address form that a backend makes of it is not part of the model.  The recursion from an operand in
parentheses back to the whole is by fuel; each round uses up a token.
-/

namespace WuBuOS.Jit

open X86

/-! ## Tokens -/

/-- `CGTokType`, with the text or the value of those that have one. -/
inductive CgToken where
  | eof
  | ident (text : String) | number (ival : BitVec 64) | hex (text : String) (ival : BitVec 64)
  | plus | minus | star | slash | percent
  | amp | pipe | caret | tilde
  | shl | shr
  | lparen | rparen | lbrace | rbrace
  | semi | comma
  | assign | eq | ne | lt | gt | le | ge
  | returnKw | ifKw | elseKw | whileKw | longKw
  deriving DecidableEq

def cgCur (ts : List CgToken) : CgToken := ts.headD .eof

def cgConsume (t : CgToken) (ts : List CgToken) : Option (List CgToken) :=
  if cgCur ts = t then some ts.tail else none

/-- `cur_tok.text`, where reading the token writes it. -/
def CgToken.text : CgToken → Option String
  | .ident text | .hex text _ => some text
  | .returnKw => some "return"
  | .ifKw => some "if"
  | .elseKw => some "else"
  | .whileKw => some "while"
  | .longKw => some "long"
  | _ => none

/-! ## Constant folding -/

/-- What a function of the evaluator gives back: the value if it has one, and the tokens where it
stands. -/
abbrev Eval := List CgToken → Option (BitVec 64) × List CgToken

/-- The operators, as the evaluator computes them: `none` is a division by 0.  The smallest number divided by
-1, which C leaves open, wraps around. -/
def BinOp.fold (op : BinOp) (a b : BitVec 64) : Option (BitVec 64) :=
  match op with
  | .star => some (a * b)
  | .slash => if b = 0 then none else some (a.sdiv b)
  | .percent => if b = 0 then none else some (a.srem b)
  | .plus => some (a + b)
  | .minus => some (a - b)
  | .shl => some (a <<< (b &&& 63).toNat)
  | .shr => some (a.sshiftRight (b &&& 63).toNat)
  | .amp => some (a &&& b)
  | .caret => some (a ^^^ b)
  | .pipe => some (a ||| b)

/-- The loop of a level of the evaluator. -/
def evalLoop (op : CgToken → Option BinOp) (next : Eval) : Nat → BitVec 64 → Eval
  | 0, lhs, ts => (some lhs, ts)
  | n + 1, lhs, ts =>
    match op (cgCur ts) with
    | none => (some lhs, ts)
    | some o =>
      match next ts.tail with
      | (none, _) => (none, ts)
      | (some rhs, ts') =>
        match o.fold lhs rhs with
        -- `if (rhs == 0) { *out = 0; return 1; }`
        | none => (some 0, ts')
        | some v => evalLoop op next n v ts'

/-- A level of the evaluator. -/
def evalLevel (op : CgToken → Option BinOp) (next : Eval) : Eval := fun ts =>
  match next ts with
  | (none, _) => (none, ts)
  | (some lhs, ts') => evalLoop op next ts'.length lhs ts'

def cgMulOp : CgToken → Option BinOp
  | .star => some .star
  | .slash => some .slash
  | .percent => some .percent
  | _ => none

def cgAddOp : CgToken → Option BinOp
  | .plus => some .plus
  | .minus => some .minus
  | _ => none

def cgShiftOp : CgToken → Option BinOp
  | .shl => some .shl
  | .shr => some .shr
  | _ => none

def cgBitOp : CgToken → Option BinOp
  | .amp => some .amp
  | .caret => some .caret
  | .pipe => some .pipe
  | _ => none

def cgCmpOp : CgToken → Option Cc
  | .eq => some .e
  | .ne => some .ne
  | .lt => some .l
  | .gt => some .g
  | .le => some .le
  | .ge => some .ge
  | _ => none

/-- `cg_const_eval_primary`; `eval` and `prim` are `cg_const_eval` and itself. -/
def constEvalPrimary (eval prim : Eval) : Eval := fun ts =>
  match cgCur ts with
  | .lparen =>
    match eval ts.tail with
    | (some v, ts') =>
      match cgConsume .rparen ts' with
      | some ts'' => (some v, ts'')
      | none => (none, ts)
    | (none, _) => (none, ts)
  | .number v | .hex _ v => (some v, ts.tail)
  | .minus =>
    match prim ts.tail with
    | (some v, ts') => (some (-v), ts')
    | (none, _) => (none, ts)
  | .tilde =>
    match prim ts.tail with
    | (some v, ts') => (some (~~~v), ts')
    | (none, _) => (none, ts)
  | _ => (none, ts)

def constEvalMultiplicative (prim : Eval) : Eval := evalLevel cgMulOp prim

def constEvalAdditive (prim : Eval) : Eval := evalLevel cgAddOp (constEvalMultiplicative prim)

def constEvalShift (prim : Eval) : Eval := evalLevel cgShiftOp (constEvalAdditive prim)

def constEvalBitwise (prim : Eval) : Eval := evalLevel cgBitOp (constEvalShift prim)

/-- `cg_const_eval_compare`: where the right operand fails, the left one has been consumed. -/
def constEvalCompare (prim : Eval) : Eval := fun ts =>
  match constEvalBitwise prim ts with
  | (none, _) => (none, ts)
  | (some lhs, ts') =>
    match cgCmpOp (cgCur ts') with
    | none => (some lhs, ts')
    | some cc =>
      match constEvalBitwise prim ts'.tail with
      | (none, _) => (none, ts')
      | (some rhs, ts'') => (some (ofBool (cc.rel lhs rhs)), ts'')

/-- `cg_const_eval_primary` with fuel for the nesting. -/
def evalPrimary : Nat → Eval
  | 0, ts => (none, ts)
  | n + 1, ts => constEvalPrimary (constEvalCompare (evalPrimary n)) (evalPrimary n) ts

/-- `cg_const_eval`. -/
def constEval : Eval := fun ts => constEvalCompare (evalPrimary (ts.length + 1)) ts

/-! ## The abstract machine -/

/-- `CGReg`, without the aliases. -/
inductive CgReg where
  | r0 | r1 | r2 | r3 | r4 | r5 | r6 | r7 | r8 | r9 | r10 | r11 | r12 | r13 | r14 | r15
  deriving DecidableEq

/-- The functions of `CodeGenVTable` that expressions use. -/
inductive CgInstr where
  | movImm (rd : CgReg) (imm : BitVec 64)
  | movReg (rd rn : CgReg)
  | addReg (rd rn rm : CgReg)
  | subReg (rd rn rm : CgReg)
  | mulReg (rd rn rm : CgReg)
  | divReg (rd rn rm : CgReg)
  | modReg (rd rn rm : CgReg)
  | andReg (rd rn rm : CgReg)
  | orrReg (rd rn rm : CgReg)
  | eorReg (rd rn rm : CgReg)
  | lslImm (rd rn : CgReg) (shift : Nat)
  | asrImm (rd rn : CgReg) (shift : Nat)
  /-- `rn` becomes 1 or 0. -/
  | cmpRegCc (rn rm : CgReg) (cc : Cc)
  /-- Nothing, where values are in registers. -/
  | drop
  deriving DecidableEq

abbrev Regs := CgReg → BitVec 64

def Regs.set (s : Regs) (rd : CgReg) (v : BitVec 64) : Regs := fun r => if r = rd then v else s r

def CgInstr.step (s : Regs) : CgInstr → Option Regs
  | .movImm rd v => some (s.set rd v)
  | .movReg rd rn => some (s.set rd (s rn))
  | .addReg rd rn rm => some (s.set rd (s rn + s rm))
  | .subReg rd rn rm => some (s.set rd (s rn - s rm))
  | .mulReg rd rn rm => some (s.set rd (s rn * s rm))
  -- No backend is asked to divide by 0, or to divide the smallest number by -1.
  | .divReg rd rn rm => (BinOp.slash.apply (s rn) (s rm)).map (s.set rd)
  | .modReg rd rn rm => (BinOp.percent.apply (s rn) (s rm)).map (s.set rd)
  | .andReg rd rn rm => some (s.set rd (s rn &&& s rm))
  | .orrReg rd rn rm => some (s.set rd (s rn ||| s rm))
  | .eorReg rd rn rm => some (s.set rd (s rn ^^^ s rm))
  | .lslImm rd rn n => some (s.set rd (s rn <<< n))
  | .asrImm rd rn n => some (s.set rd ((s rn).sshiftRight n))
  | .cmpRegCc rn rm cc => some (s.set rn (ofBool (cc.rel (s rn) (s rm))))
  | .drop => some s

def cgRun : List CgInstr → Regs → Option Regs
  | [], s => some s
  | i :: c, s => (i.step s).bind (cgRun c)

/-! ## The generator -/

structure CgVar where
  name : String
  reg : CgReg

/-- The variables of `CGCompiler`. -/
structure CgScope where
  vars : List CgVar
  nArgs : Nat

/-- `cc.arg_regs`: a → 1, b → 2, c → 3, etc. -/
def cgArgRegs : List CgReg := [.r1, .r2, .r3, .r4, .r5, .r6]

def CgScope.findVar (sc : CgScope) (name : String) : Option CgReg :=
  (sc.vars.find? fun v => v.name = name).map (·.reg)

/-- `cg_add_var(cc, name, 1)`. -/
def CgScope.addArg (sc : CgScope) (name : String) : CgScope :=
  { vars := sc.vars ++ [⟨name, cgArgRegs.getD sc.nArgs .r0⟩], nArgs := sc.nArgs + 1 }

/-- The single letters a-f. -/
def cgIsArg (name : String) : Bool := name ∈ ["a", "b", "c", "d", "e", "f"]

/-- The scope when a name has been used. -/
def CgScope.use (sc : CgScope) (name : String) : CgScope :=
  if (sc.findVar name).isNone ∧ cgIsArg name then sc.addArg name else sc

/-- `CGCompiler`, but for the lexer. -/
structure CgCompiler where
  scope : CgScope
  code : List CgInstr

def CgCompiler.emit (cc : CgCompiler) (c : List CgInstr) : CgCompiler := { cc with code := cc.code ++ c }

/-- A function of the generator that may run out of fuel. -/
abbrev CgCompile := List CgToken → CgCompiler → Option (List CgToken × CgCompiler)

/-- `cg_compile_primary` also says whether it has read a constant, and which. -/
abbrev CgPrimary := List CgToken → CgCompiler → Option (List CgToken × CgCompiler × Option (BitVec 64))

/-- The code for a name. -/
def nameCode (sc : CgScope) (dst : CgReg) (name : String) : List CgInstr :=
  match (sc.use name).findVar name with
  | none => [.movImm dst 0]
  | some r => if r ≠ dst then [.movReg dst r] else []

def cgCompilePrimary (expr : CgReg → CgCompile) (prim : CgReg → CgPrimary) (dst : CgReg) : CgPrimary :=
  fun ts cc =>
  match cgCur ts with
  | .lparen => do
    let (ts, cc) ← expr dst ts.tail cc
    some ((cgConsume .rparen ts).getD ts, cc, none)
  | .number v | .hex _ v => some (ts.tail, cc.emit [.movImm dst v], some v)
  | .minus => do
    let (ts, cc, c) ← prim dst ts.tail cc
    match c with
    | some v => some (ts, cc.emit [.movImm .r9 0, .subReg dst .r9 dst], some (-v))
    | none => some (ts, cc.emit [.movImm dst 0], none)
  | .tilde => do
    let (ts, cc, c) ← prim dst ts.tail cc
    match c with
    | some v => some (ts, cc.emit [.movImm .r9 (-1), .eorReg dst dst .r9], some (~~~v))
    | none => some (ts, cc.emit [.movImm dst 0], none)
  | .ident text =>
    -- `name` points into `cur_tok`, where the next token may have left its own text.
    let name := (cgCur ts.tail).text.getD text
    some (ts.tail, { scope := cc.scope.use name, code := cc.code ++ nameCode cc.scope dst name }, none)
  | _ => some (ts, cc.emit [.movImm dst 0], none)

def isPowerOf2 (v : BitVec 64) : Bool := (0#64).slt v && v &&& (v - 1) == 0

/-- What follows the right operand of a multiplicative operator, which may be a constant. -/
def mulCode (op : BinOp) (dst : CgReg) (c : Option (BitVec 64)) : List CgInstr :=
  let pow := c.filter isPowerOf2
  match op, pow with
  | .star, some v => [.drop, .lslImm dst dst v.toNat.log2]
  | .star, none =>
    if c = some 0 then [.drop, .movImm dst 0]
    else if dst = .r15 then [.movReg .r14 dst, .mulReg dst .r14 .r15]
    else [.mulReg dst dst .r15]
  | .slash, some v => [.drop, .asrImm dst dst v.toNat.log2]
  | .slash, none => [.divReg dst dst .r15]
  | _, some v => [.drop, .movImm .r9 (v - 1), .andReg dst dst .r9]
  | _, none => [.modReg dst dst .r15]

/-- The instruction of an additive or bitwise operator. -/
def binCode (op : BinOp) (dst : CgReg) : List CgInstr :=
  match op with
  | .plus => [.addReg dst dst .r15]
  | .minus => [.subReg dst dst .r15]
  | .amp => [.andReg dst dst .r15]
  | .caret => [.eorReg dst dst .r15]
  | .pipe => [.orrReg dst dst .r15]
  | _ => []

/-- `for (;;) { if (cg_consume(op)) …; else break; }` -/
def cgLoop (op : CgToken → Option BinOp) (body : BinOp → CgCompile) : Nat → CgCompile
  | 0, ts, cc => some (ts, cc)
  | n + 1, ts, cc =>
    match op (cgCur ts) with
    | some o => do
      let (ts, cc) ← body o ts.tail cc
      cgLoop op body n ts cc
    | none => some (ts, cc)

/-- An operand, and the loop. -/
def cgLevel (op : CgToken → Option BinOp) (first : CgCompile) (body : BinOp → CgCompile) : CgCompile :=
  fun ts cc => do
    let (ts, cc) ← first ts cc
    cgLoop op body ts.length ts cc

/-- A primary expression, whether it is a constant or not. -/
def cgOperand (prim : CgReg → CgPrimary) (dst : CgReg) : CgCompile := fun ts cc =>
  (prim dst ts cc).map fun p => (p.1, p.2.1)

def cgCompileMultiplicative (prim : CgReg → CgPrimary) (dst : CgReg) : CgCompile :=
  cgLevel cgMulOp (cgOperand prim dst) fun op ts cc => do
    let (ts, cc, c) ← prim .r15 ts cc
    some (ts, cc.emit (mulCode op dst c))

def cgCompileAdditive (prim : CgReg → CgPrimary) (dst : CgReg) : CgCompile :=
  cgLevel cgAddOp (cgCompileMultiplicative prim dst) fun op ts cc => do
    let (ts, cc) ← cgCompileMultiplicative prim .r15 ts cc
    some (ts, cc.emit (binCode op dst))

def cgCompileBitwise (prim : CgReg → CgPrimary) (dst : CgReg) : CgCompile :=
  cgLevel cgBitOp (cgCompileAdditive prim dst) fun op ts cc => do
    let (ts, cc) ← cgCompileAdditive prim .r15 ts cc
    some (ts, cc.emit (binCode op dst))

/-- The instruction of a shift by a constant. -/
def shiftCode (op : BinOp) (dst : CgReg) (v : BitVec 64) : List CgInstr :=
  if op = .shl then [.lslImm dst dst (v &&& 63).toNat] else [.asrImm dst dst (v &&& 63).toNat]

/-- `cg_compile_shift`: only by a decimal number. -/
def cgCompileShift (prim : CgReg → CgPrimary) (dst : CgReg) : CgCompile :=
  cgLevel cgShiftOp (cgCompileBitwise prim dst) fun op ts cc =>
    match cgCur ts with
    | .number v => some (ts.tail, cc.emit (shiftCode op dst v))
    | _ => some (ts, cc)

def cgCompileCompare (prim : CgReg → CgPrimary) (dst : CgReg) : CgCompile := fun ts cc => do
  let (ts, cc) ← cgCompileShift prim dst ts cc
  match cgCmpOp (cgCur ts) with
  | some c => do
    let (ts, cc) ← cgCompileShift prim .r15 ts.tail cc
    some (ts, cc.emit [.cmpRegCc dst .r15 c])
  | none => some (ts, cc)

def cgCompileExpr (prim : CgReg → CgPrimary) (dst : CgReg) : CgCompile := fun ts cc =>
  match constEval ts with
  | (some v, ts) => some (ts, cc.emit [.movImm dst v])
  | (none, ts) => cgCompileCompare prim dst ts cc

/-- `cg_compile_primary` with fuel for the nesting. -/
def cgPrimary : Nat → CgReg → CgPrimary
  | 0, _, _, _ => none
  | n + 1, dst, ts, cc => cgCompilePrimary (cgCompileExpr (cgPrimary n)) (cgPrimary n) dst ts cc

/-- A function of the chain, with fuel enough for the tokens. -/
def cgCompileTokens (chain : (CgReg → CgPrimary) → CgReg → CgCompile) (dst : CgReg) : CgCompile := fun ts cc =>
  chain (cgPrimary (ts.length + 1)) dst ts cc

end WuBuOS.Jit
