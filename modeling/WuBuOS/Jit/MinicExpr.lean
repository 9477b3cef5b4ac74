import WuBuOS.Lib.X86

/-!
# The expression compiler of Mini-C

`jit/jit_minic_expr.c`.  A chain of functions, one for each level of precedence, reads tokens and emits
code that leaves the value of what it has read in RAX:

  `compilePrimary`, `compileMultiplicative`, `compileAdditive`, `compileShift`, `compileBitwiseAnd`,
  `compileBitwiseXor`, `compileBitwiseOr`, `compileCompare`, `compileExpr`.

The model is of the path that is shipped, `use_xra = 0` (`compile_func` sets it for every function).  The
tokens still to be read are a list; past its end there is `TOK_EOF`.  What is emitted is a list of
instructions: a byte that the source emits by hand is the instruction it encodes, the four bytes that
`compile_shift` takes back and replaces are the instruction that stands there in the end, and a position in
the code is a number of instructions.  Once an error is set nothing is emitted any more.

The recursion of the source, from an operand in parentheses back to `compile_expr`, is by fuel; each
round uses up a token (`compileTokens` gives one more than there are).  A loop goes on for at most as many
rounds as there are tokens.
-/

namespace WuBuOS
namespace Jit

open X86

/-! ## Tokens -/

/-- `MinicTokType`, with the text of an identifier and the value of a number. -/
inductive Token where
  | eof
  | int | long | i64 | u8 | void | structKw | sizeofKw
  | returnKw | ifKw | elseKw | whileKw
  | ident (text : String) | number (ival : BitVec 64)
  | plus | minus | star | slash
  | eq | neq | lt | gt | leq | geq
  | assign | not
  | lparen | rparen
  | lbrace | rbrace
  | arrow | amp
  | semi | comma
  | percent | pipe | caret | tilde
  | shl | shr
  /-- A token that no function of the compiler asks for. -/
  | other
  deriving DecidableEq

/-- `minic_cur`. -/
def cur (ts : List Token) : Token := ts.headD .eof

/-- `minic_expect`, whose result nobody looks at. -/
def expect (t : Token) (ts : List Token) : List Token := if cur ts = t then ts.tail else ts

/-! ## The state of the compiler -/

structure MinicVar where
  name : String
  slot : Int
  isArg : Bool
  mty : Nat

structure MinicScope where
  vars : List MinicVar
  stackOffset : Int

structure MinicMember where
  name : String
  offset : Int
  size : Int

structure MinicType where
  isStruct : Bool
  name : String
  size : BitVec 64
  members : List MinicMember

/-- The fields of `struct MinicCompiler` that the expression compiler uses, but for the lexer. -/
structure MinicCompiler where
  scope : MinicScope
  types : List MinicType
  /-- `enc`. -/
  code : List Instr
  error : Bool
  raxIsConst : Bool
  raxConstVal : BitVec 64
  lastWasCompare : Bool
  lastCompareCc : Cc
  cmpAfterPos : Nat

def scopeFind (s : MinicScope) (name : String) : Option MinicVar :=
  s.vars.find? fun v => v.name = name

def argReg (idx : Int) : Reg :=
  if idx = 0 then .rdi else if idx = 1 then .rsi else if idx = 2 then .rdx else if idx = 3 then .rcx
  else if idx = 4 then .r8 else if idx = 5 then .r9 else .rax

/-- `minic_type_find`. -/
def typeFind (types : List MinicType) (name : String) : Option MinicType :=
  types.find? fun t => t.name ≠ "" ∧ t.name = name

/-- The member of a struct, for `minic_type_member_offset` and `minic_type_member_size`. -/
def typeMember (types : List MinicType) (idx : Nat) (member : String) : Option MinicMember :=
  (types[idx]?).bind fun t => if t.isStruct then t.members.find? fun m => m.name = member else none

namespace MinicCompiler

/-- `mc_error`. -/
def fail (mc : MinicCompiler) : MinicCompiler := { mc with error := true }

/-- `MC_EMIT`. -/
def emit (mc : MinicCompiler) (c : List Instr) : MinicCompiler :=
  if mc.error then mc else { mc with code := mc.code ++ c }

/-- RAX holds a known constant. -/
def setConst (mc : MinicCompiler) (v : BitVec 64) : MinicCompiler :=
  { mc with raxIsConst := true, raxConstVal := v }

def clearConst (mc : MinicCompiler) : MinicCompiler := { mc with raxIsConst := false }

/-- The constant that RAX is believed to hold. -/
def const (mc : MinicCompiler) : Option (BitVec 64) := if mc.raxIsConst then some mc.raxConstVal else none

/-- `if (mc->rax_is_const) mc->rax_const_val = f(mc->rax_const_val)`. -/
def mapConst (mc : MinicCompiler) (f : BitVec 64 → BitVec 64) : MinicCompiler :=
  if mc.raxIsConst then { mc with raxConstVal := f mc.raxConstVal } else mc

end MinicCompiler

/-- A function of the compiler: it may run out of fuel. -/
abbrev Compile := List Token → MinicCompiler → Option (List Token × MinicCompiler)

/-! ## Primary expressions -/

def aregs : List Reg := [.rdi, .rsi, .rdx, .rcx, .r8, .r9]

/-- `mc_emit_abs_branchless`. -/
def emitAbsBranchless : List Instr :=
  [.movRegReg .rdx .rax, .sarRegImm8 .rdx 63, .xorRegReg .rax .rdx, .subRegReg .rax .rdx]

/-- `mc_emit_minmax_cmov`. -/
def emitMinmaxCmov (src : Reg) (isMax : Bool) : List Instr :=
  [.cmpRegReg .rax src, .cmovcc (if isMax then .l else .g) .rax src]

/-- `mc_try_builtin`, for `abs` and `fabs`. -/
def tryAbs (expr : Compile) : Compile := fun ts mc => do
  let (ts, mc) ← if cur ts ≠ .rparen then do
      let (ts, mc) ← expr ts mc
      some (ts, mc.emit [.movRegReg .rdi .rax])
    else some (ts, mc)
  some (expect .rparen ts, mc.emit (.movRegReg .rax .rdi :: emitAbsBranchless))

/-- `mc_try_builtin`, for `min` and `max`. -/
def tryMinmax (expr : Compile) (isMax : Bool) : Compile := fun ts mc => do
  let (ts, mc) ← if cur ts ≠ .rparen then do
      let (ts, mc) ← expr ts mc
      let mc := mc.emit [.movRegReg .rdi .rax]
      if cur ts = .comma then do
        let (ts, mc) ← expr ts.tail mc
        some (ts, mc.emit [.movRegReg .rsi .rax])
      else some (ts, mc)
    else some (ts, mc)
  some (expect .rparen ts, mc.emit (.movRegReg .rax .rdi :: emitMinmaxCmov .rsi isMax))

/-- The further arguments of a call. -/
def callArgs (expr : Compile) : List Reg → Compile
  | [], ts, mc => some (ts, mc)
  | r :: rs, ts, mc =>
    if cur ts = .comma then do
      let (ts, mc) ← expr ts.tail mc
      callArgs expr rs ts (mc.emit [.movRegReg r .rax])
    else some (ts, mc)

/-- A call: of a builtin, or of the placeholder. -/
def compileCall (expr : Compile) (name : String) : Compile := fun ts mc =>
  if name = "abs" ∨ name = "fabs" then tryAbs expr ts mc
  else if name = "min" ∨ name = "max" then tryMinmax expr (name = "max") ts mc
  else do
    let (ts, mc) ← if cur ts ≠ .rparen then do
        let (ts, mc) ← expr ts mc
        callArgs expr aregs.tail ts (mc.emit [.movRegReg .rdi .rax])
      else some (ts, mc)
    some (expect .rparen ts, mc.emit [.zeroReg .rax, .callReg .rax])

/-- The load of a variable. -/
def loadVar (v : MinicVar) : Instr :=
  if v.isArg then .movRegReg .rax (argReg v.slot) else .movRegMem .rax .rbp v.slot

/-- The load of a member, `->`, through the pointer in RAX. -/
def loadMember (m : MinicMember) : Instr :=
  if m.size = 1 then .movzxByteRegMem .rax (.reg .rax) m.offset else .movRegMem .rax (.reg .rax) m.offset

/-- A variable, and what `->` does to it. -/
def compileVar (name : String) : Compile := fun ts mc =>
  match scopeFind mc.scope name with
  | none => some (ts, mc.fail)
  | some v =>
    let mc := mc.emit [loadVar v]
    if 0 < v.mty ∧ cur ts = .arrow then
      match cur ts.tail with
      | .ident member =>
        match typeMember mc.types v.mty member with
        | some m => some (ts.tail.tail, if 0 ≤ m.offset then mc.emit [loadMember m] else mc.fail)
        | none => some (ts.tail.tail, mc.fail)
      | _ => some (ts.tail, mc)
    else some (ts, mc)

/-- The argument of `sizeof`: its size and what is left. -/
def sizeofArg (types : List MinicType) (ts : List Token) : BitVec 64 × List Token :=
  match cur ts with
  | .structKw =>
    match cur ts.tail with
    | .ident name => (((typeFind types name).map (·.size)).getD 0, ts.tail.tail)
    | _ => (0, ts.tail)
  | .long | .int | .i64 => (8, ts.tail)
  | .u8 => (1, ts.tail)
  | _ => (0, ts)

def compilePrimary (expr prim : Compile) : Compile := fun ts mc =>
  match cur ts with
  | .number v => some (ts.tail, (mc.emit [.movRegImm64 .rax v]).setConst v)
  | .ident name =>
    let mc := mc.clearConst
    if cur ts.tail = .lparen then compileCall expr name ts.tail.tail mc
    else compileVar name ts.tail mc
  | .sizeofKw =>
    let (sz, ts) := sizeofArg mc.types (expect .lparen ts.tail)
    some (expect .rparen ts, (mc.emit [.movRegImm64 .rax sz]).setConst sz)
  | .lparen => do
    let (ts, mc) ← expr ts.tail mc
    some (expect .rparen ts, mc)
  | .minus => do
    let (ts, mc) ← prim ts.tail mc
    some (ts, (mc.emit [.negReg .rax]).mapConst fun v => -v)
  | .tilde => do
    let (ts, mc) ← prim ts.tail mc
    some (ts, (mc.emit [.notReg .rax]).mapConst fun v => ~~~v)
  | .not => do
    let (ts, mc) ← prim ts.tail mc
    some (ts, mc.emit [.cmpRegImm32 .rax 0, .setccR8 .e .rax, .movzxEaxAl])
  | _ => some (ts.tail, mc.fail)

/-! ## Binary operators -/

inductive BinOp where
  | star | slash | percent
  | plus | minus
  | shl | shr
  | amp | caret | pipe
  deriving DecidableEq

/-- What is done with the left operand while the right one is compiled: it is pushed, and in a shift
it waits in R11. -/
def before : BinOp → List Instr
  | .shl | .shr => [.movRegReg .r11 .rax]
  | _ => [.push .rax]

/-- The code after the right operand, which may be known to be a constant. -/
def after (op : BinOp) (const : Option (BitVec 64)) : List Instr :=
  match op with
  | .star =>
    if const = some 0 then [.pop .rax, .zeroReg .rax]
    else if const = some 1 then [.pop .rax]
    else [.movRegReg .rcx .rax, .pop .rax, .imulRegReg .rax .rcx]
  | .slash =>
    if const = some 1 then [.pop .rax]
    else [.movRegReg .rcx .rax, .pop .rax, .cqo, .idivReg .rcx]
  | .percent => [.movRegReg .rcx .rax, .pop .rax, .cqo, .idivReg .rcx, .movRegReg .rax .rdx]
  | .plus =>
    if const = some 0 then [.pop .rax]
    else [.movRegReg .rcx .rax, .pop .rax, .addRegReg .rax .rcx]
  | .minus =>
    if const = some 0 then [.pop .rax]
    else [.movRegReg .rcx .rax, .pop .rax, .subRegReg .rax .rcx]
  | .shl => [.movRegReg .rcx .rax, .movRegReg .rax .r11, .shlRaxCl]
  | .shr => [.movRegReg .rcx .rax, .movRegReg .rax .r11, .sarRaxCl]
  | .amp => [.movRegReg .r10 .rax, .pop .rax, .andRegReg .rax .r10]
  | .caret => [.movRegReg .r10 .rax, .pop .rax, .xorRegReg .rax .r10]
  | .pipe => [.movRegReg .r10 .rax, .pop .rax, .orRegReg .rax .r10]

/-- The body of the loop of a level: the operator has been read. -/
def binBody (next : Compile) (op : BinOp) : Compile := fun ts mc => do
  let (ts, mc) ← next ts (mc.emit (before op))
  some (ts, (mc.emit (after op mc.const)).clearConst)

/-- `while (the current token is an operator of the level) { advance; … }`. -/
def opLoop (op : Token → Option BinOp) (next : Compile) : Nat → Compile
  | 0, ts, mc => some (ts, mc)
  | n + 1, ts, mc =>
    match op (cur ts) with
    | some o => do
      let (ts, mc) ← binBody next o ts.tail mc
      opLoop op next n ts mc
    | none => some (ts, mc)

/-- A level: an operand, and the loop over the operators. -/
def level (op : Token → Option BinOp) (next : Compile) : Compile := fun ts mc => do
  let (ts, mc) ← next ts mc
  opLoop op next ts.length ts mc

def mulOp : Token → Option BinOp
  | .star => some .star
  | .slash => some .slash
  | .percent => some .percent
  | _ => none

def compileMultiplicative (prim : Compile) : Compile := level mulOp prim

def addOp : Token → Option BinOp
  | .plus => some .plus
  | .minus => some .minus
  | _ => none

def compileAdditive (prim : Compile) : Compile := level addOp (compileMultiplicative prim)

def shiftOp : Token → Option BinOp
  | .shl => some .shl
  | .shr => some .shr
  | _ => none

def compileShift (prim : Compile) : Compile := level shiftOp (compileAdditive prim)

def andOp : Token → Option BinOp
  | .amp => some .amp
  | _ => none

def compileBitwiseAnd (prim : Compile) : Compile := level andOp (compileShift prim)

def xorOp : Token → Option BinOp
  | .caret => some .caret
  | _ => none

def compileBitwiseXor (prim : Compile) : Compile := level xorOp (compileBitwiseAnd prim)

def orOp : Token → Option BinOp
  | .pipe => some .pipe
  | _ => none

def compileBitwiseOr (prim : Compile) : Compile := level orOp (compileBitwiseXor prim)

/-! ## Comparisons -/

def cmpOp : Token → Option Cc
  | .eq => some .e
  | .neq => some .ne
  | .lt => some .l
  | .gt => some .g
  | .leq => some .le
  | .geq => some .ge
  | _ => none

/-- The comparison itself. -/
def cmpCode (cc : Cc) (const : Option (BitVec 64)) : List Instr :=
  [.movRegReg .rcx .rax, .pop .rax,
    if const = some 0 ∧ (cc = .e ∨ cc = .ne) then .testRegReg .rax .rax else .cmpRegReg .rax .rcx]

/-- What makes a 0 or 1 of the flags. -/
def setCode (cc : Cc) : List Instr := [.setccR8 cc .rax, .movzxEaxAl]

/-- The compare is recorded for `if` and `while`, which may branch on its flags. -/
def MinicCompiler.recordCompare (mc : MinicCompiler) (cc : Cc) : MinicCompiler :=
  { mc with lastWasCompare := true, lastCompareCc := cc, cmpAfterPos := mc.code.length }

def compileCompare (prim : Compile) : Compile := fun ts mc => do
  let (ts, mc) ← compileBitwiseOr prim ts mc
  match cmpOp (cur ts) with
  | some cc => do
    let (ts, mc) ← compileBitwiseOr prim ts.tail (mc.emit [.push .rax])
    some (ts, ((mc.emit (cmpCode cc mc.const)).recordCompare cc).emit (setCode cc))
  | none => some (ts, mc)

def compileExpr (prim : Compile) : Compile := fun ts mc =>
  compileCompare prim ts { mc with lastWasCompare := false }

/-- `compile_primary` with fuel for the nesting. -/
def primary : Nat → Compile
  | 0, _, _ => none
  | n + 1, ts, mc => compilePrimary (compileExpr (primary n)) (primary n) ts mc

/-- A function of the chain, with fuel enough for the tokens. -/
def compileTokens (chain : Compile → Compile) : Compile := fun ts mc =>
  chain (primary (ts.length + 1)) ts mc

end Jit
end WuBuOS
