import WuBuOS.Jit.CgExpr

/-!
# The statements of the portable code generator

`jit/jit_minic_cg.c`: the tokens of a source, and the statements up to `jit_minic_compile_cg`.

The source is a list of characters, up to the NUL.  A character that starts no token is `TOK_EOF`, and `TOK_EOF` is
never consumed, so what stands behind it is never read.

What is emitted is the list of the calls of the code generator.  A place in the code is the number of the calls that
have been made before it.  The table of variables may grow over `CG_MAX_VARS` here.

A statement in a statement, and a round of a loop, use up fuel; without fuel nothing comes back.
-/

namespace WuBuOS.Jit

open X86

/-! ## The lexer -/

def cgSkipWs (s : List Char) : List Char :=
  s.dropWhile fun c => c = ' ' ∨ c = '\t' ∨ c = '\n' ∨ c = '\r'

def cgIsXdigit (c : Char) : Bool := c.isDigit || ('a' ≤ c && c ≤ 'f') || ('A' ≤ c && c ≤ 'F')

/-- The value of a digit, of either kind. -/
def cgDigit (c : Char) : Nat :=
  if c.isDigit then c.toNat - 48 else if 'a' ≤ c then c.toNat - 87 else c.toNat - 55

def cgWord (text : String) : CgToken :=
  if text = "return" then .returnKw
  else if text = "if" then .ifKw
  else if text = "else" then .elseKw
  else if text = "while" then .whileKw
  else if text = "long" then .longKw
  else .ident text

/-- An identifier or a keyword, of at most 63 characters. -/
def cgLexWord (s : List Char) : CgToken × List Char :=
  let text := (s.takeWhile fun c => c.isAlphanum || c = '_').take 63
  (cgWord (String.ofList text), s.drop text.length)

/-- `strtoull` stops at the largest number, and the decimal digits wrap around. -/
def cgLexNumber (c : Char) (s : List Char) : CgToken × List Char :=
  match s with
  | x :: rest =>
    if c = '0' ∧ (x = 'x' ∨ x = 'X') then
      let digits := (rest.takeWhile cgIsXdigit).take 60
      let val := digits.foldl (fun v d => v * 16 + cgDigit d) 0
      (.hex (String.ofList (c :: x :: digits)) (BitVec.ofNat 64 (min val (2 ^ 64 - 1))), rest.drop digits.length)
    else
      let digits := (c :: s).takeWhile Char.isDigit
      (.number (BitVec.ofNat 64 (digits.foldl (fun v d => v * 10 + cgDigit d) 0)), (c :: s).drop digits.length)
  | [] => (.number (BitVec.ofNat 64 (cgDigit c)), [])

def cgLexOperator (c : Char) (s : List Char) : CgToken × List Char :=
  match c, s with
  | '+', s => (.plus, s)
  | '-', s => (.minus, s)
  | '*', s => (.star, s)
  | '/', s => (.slash, s)
  | '%', s => (.percent, s)
  | '&', '&' :: s => (.amp, s)
  | '&', s => (.amp, s)
  | '|', s => (.pipe, s)
  | '^', s => (.caret, s)
  | '~', s => (.tilde, s)
  | '<', '<' :: s => (.shl, s)
  | '<', '=' :: s => (.le, s)
  | '<', s => (.lt, s)
  | '>', '>' :: s => (.shr, s)
  | '>', '=' :: s => (.ge, s)
  | '>', s => (.gt, s)
  | '(', s => (.lparen, s)
  | ')', s => (.rparen, s)
  | '{', s => (.lbrace, s)
  | '}', s => (.rbrace, s)
  | ';', s => (.semi, s)
  | ',', s => (.comma, s)
  | '=', '=' :: s => (.eq, s)
  | '=', s => (.assign, s)
  | '!', '=' :: s => (.ne, s)
  | _, s => (.eof, s)

def cgNextToken (s : List Char) : CgToken × List Char :=
  match cgSkipWs s with
  | [] => (.eof, [])
  | c :: rest =>
    if c.isAlpha ∨ c = '_' then cgLexWord (c :: rest)
    else if c.isDigit then cgLexNumber c rest
    else cgLexOperator c rest

def cgTokensUpTo : Nat → List Char → List CgToken
  | 0, _ => []
  | n + 1, s =>
    match cgNextToken s with
    | (.eof, _) => []
    | (t, s') => t :: cgTokensUpTo n s'

/-- The tokens before the first `TOK_EOF`. -/
def cgTokens (s : List Char) : List CgToken := cgTokensUpTo (s.length + 1) s

theorem cgSkipWs_length (s : List Char) : (cgSkipWs s).length ≤ s.length :=
  (List.dropWhile_suffix _).length_le

theorem takeWhile_take_length_pos {p : Char → Bool} {c : Char} {s : List Char} {n : Nat} (hp : p c = true)
    (hn : 0 < n) : 0 < (((c :: s).takeWhile p).take n).length := by
  simp [hp]
  omega

theorem cgLexWord_length {c : Char} {s : List Char} (h : c.isAlpha = true ∨ c = '_') :
    (cgLexWord (c :: s)).2.length ≤ s.length := by
  have hc : (c.isAlphanum || c = '_') = true := by
    rcases h with h | rfl
    · simp [Char.isAlphanum, h]
    · rfl
  have hpos := @takeWhile_take_length_pos (fun c => c.isAlphanum || c = '_') c s 63 hc (by decide)
  simp only [cgLexWord, List.length_drop, List.length_cons]
  omega

theorem cgLexNumber_length {c : Char} {s : List Char} (h : c.isDigit = true) :
    (cgLexNumber c s).2.length ≤ s.length := by
  cases s with
  | nil => exact Nat.le_refl 0
  | cons x rest =>
    rw [cgLexNumber]
    split
    case isTrue =>
      simp only [List.length_drop, List.length_cons]
      omega
    case isFalse =>
      simp only [List.takeWhile_cons, h, List.length_drop, List.length_cons]
      simp

theorem cgLexOperator_length (c : Char) (s : List Char) : (cgLexOperator c s).2.length ≤ s.length := by
  unfold cgLexOperator
  split <;> simp

/-- A token that is none of the end uses up a character. -/
theorem cgNextToken_length {s : List Char} (h : (cgNextToken s).1 ≠ .eof) : (cgNextToken s).2.length < s.length := by
  have hws := cgSkipWs_length s
  unfold cgNextToken at h ⊢
  cases hs : cgSkipWs s with
  | nil => exact absurd (by rw [hs]) h
  | cons c rest =>
    rw [hs, List.length_cons] at hws
    dsimp only
    split_ifs with halpha hdigit
    · have := cgLexWord_length (s := rest) halpha
      omega
    · have := cgLexNumber_length (s := rest) hdigit
      omega
    · have := cgLexOperator_length c rest
      omega

theorem cgTokensUpTo_eq : ∀ (n m : Nat) (s : List Char), s.length < n → s.length < m →
    cgTokensUpTo n s = cgTokensUpTo m s
  | 0, _, _, hn, _ => absurd hn (Nat.not_lt_zero _)
  | _, 0, _, _, hm => absurd hm (Nat.not_lt_zero _)
  | n + 1, m + 1, s, hn, hm => by
    rw [cgTokensUpTo, cgTokensUpTo]
    split
    case h_1 => rfl
    case h_2 t s' hne heq =>
      have hlt := cgNextToken_length (s := s) (by rw [heq]; exact hne)
      have hlt : s'.length < s.length := by rwa [heq] at hlt
      rw [cgTokensUpTo_eq n m s' (by omega) (by omega)]

/-- One token after the other. -/
theorem cgTokens_eq (s : List Char) : cgTokens s =
    if (cgNextToken s).1 = .eof then [] else (cgNextToken s).1 :: cgTokens (cgNextToken s).2 := by
  rw [cgTokens, cgTokensUpTo]
  split
  case h_1 s' heq => rw [heq, if_pos rfl]
  case h_2 t s' hne heq =>
    have hlt := cgNextToken_length (s := s) (by rw [heq]; exact hne)
    rw [heq] at hlt ⊢
    rw [if_neg hne, cgTokens, cgTokensUpTo_eq _ _ s' hlt (Nat.lt_succ_self _)]

example : cgTokens ("long x1 = 0x1F; // y".toList) = [.longKw, .ident "x1", .assign, .hex "0x1F" 31, .semi, .slash,
    .slash, .ident "y"] := by decide

/-! ## What is emitted -/

/-- The functions of `CodeGenVTable` that statements use, and the instructions of expressions. -/
inductive CgCall where
  | instr (i : CgInstr)
  | prologue (nArgs stackSlots : Nat)
  | epilogue (stackSlots : Nat)
  | ret
  | cmpImm (rn : CgReg) (imm : Nat)
  | bCond (cc : Cc)
  | bUncond
  /-- `patch_branch`: of the call at `branch`, to `target`. -/
  | patchBranch (branch target : Nat)
  /-- `wasm_local_get` of a local behind the parameters. -/
  | localGet (index : Nat)
  | emitByte (b : UInt8)
  | doIf | doElse | doEnd
  | loop | block
  | brIf (label : Nat)
  | br (label : Nat)
  deriving DecidableEq

/-- `CGCompiler`, where statements are compiled. -/
structure CgUnit where
  scope : CgScope
  stackSlots : Nat
  calls : List CgCall

def CgUnit.emit (u : CgUnit) (c : List CgCall) : CgUnit := { u with calls := u.calls ++ c }

/-- The register of a local variable. -/
def cgLocalReg (slots : Nat) : CgReg := [.r7, .r8, .r9, .r10, .r11, .r12, .r13, .r14, .r15].getD slots .r15

/-- `strncpy` of 31 characters. -/
def cgName (text : String) : String := String.ofList (text.toList.take 31)

/-- `cg_add_var(cc, name, 0)`. -/
def CgUnit.addVar (u : CgUnit) (text : String) : CgUnit where
  scope := { u.scope with vars := u.scope.vars ++ [⟨cgName text, cgLocalReg u.stackSlots⟩] }
  stackSlots := u.stackSlots + 1
  calls := u.calls

/-! ## Statements -/

abbrev CgStep := List CgToken → CgUnit → Option (List CgToken × CgUnit)

/-- `cg_consume`, where it does not matter whether it did. -/
def cgSkip (t : CgToken) (ts : List CgToken) : List CgToken := (cgConsume t ts).getD ts

/-- `cg_compile_expr`. -/
def cgExprStep (dst : CgReg) : CgStep := fun ts u => do
  let (ts, cc) ← cgCompileTokens cgCompileExpr dst ts ⟨u.scope, []⟩
  some (ts, { u with scope := cc.scope, calls := u.calls ++ cc.code.map .instr })

/-- `cg_compile_return_stmt`; `wasm` is `backend == 3`. -/
def cgCompileReturnStmt (wasm : Bool) : CgStep := fun ts u => do
  let (ts, u) ← cgExprStep .r0 (cgSkip .returnKw ts) u
  some (ts, if wasm then u.emit [.ret] else u)

def cgCompileDeclStmt : CgStep := fun ts u =>
  let ts := ts.dropWhile (· = .longKw)
  match cgCur ts with
  | .ident text =>
    match cgConsume .assign ts.tail with
    | some ts => cgExprStep (cgLocalReg u.stackSlots) ts (u.addVar text)
    | none => some (ts.tail, u.addVar text)
  | _ => some (ts, u)

/-- `cg_compile_assign_stmt`: an unknown variable is R9. -/
def cgCompileAssignStmt : CgStep := fun ts u =>
  match cgCur ts with
  | .ident text => cgExprStep ((u.scope.findVar (cgName text)).getD .r9) (cgSkip .assign ts.tail) u
  | _ => some (ts, u)

/-- The code between the condition and the statement. -/
def condCode (wasm : Bool) : List CgCall :=
  if wasm then [.localGet 10, .emitByte 0xa7, .doIf] else [.cmpImm .r0 0, .bCond .e]

/-- `else`, where the branch of the condition is `branch` and the code has got to `pos`. -/
def elseCode (wasm : Bool) (branch pos : Nat) : List CgCall :=
  if wasm then [.doElse] else [.bUncond, .patchBranch branch (pos + 1)]

/-- The end of `if`, where `branch` leads. -/
def endCode (wasm : Bool) (branch pos : Nat) : List CgCall :=
  if wasm then [.doEnd] else [.patchBranch branch pos]

/-- `cg_compile_if_stmt`; `body` is a block or a statement. -/
def cgCompileIfStmt (wasm : Bool) (body : CgStep) : CgStep := fun ts u => do
  let (ts, u) ← cgExprStep .r0 (cgSkip .lparen (cgSkip .ifKw ts)) u
  let elsePatch := u.calls.length + 1
  let (ts, u) ← body (cgSkip .rparen ts) (u.emit (condCode wasm))
  match cgConsume .elseKw ts with
  | some ts => do
    let endPatch := u.calls.length
    let (ts, u) ← body ts (u.emit (elseCode wasm elsePatch u.calls.length))
    some (ts, u.emit (endCode wasm endPatch u.calls.length))
  | none => some (ts, u.emit (endCode wasm elsePatch u.calls.length))

/-- The code before the condition of a loop. -/
def loopCode (wasm : Bool) : List CgCall := if wasm then [.loop, .block] else []

def exitCode (wasm : Bool) : List CgCall :=
  if wasm then [.cmpImm .r0 0, .brIf 1] else [.cmpImm .r0 0, .bCond .e]

/-- The way back to `top`, where the branch out of the loop is `branch` and the code has got to `pos`. -/
def backCode (wasm : Bool) (top branch pos : Nat) : List CgCall :=
  if wasm then [.br 0, .doEnd, .doEnd] else [.bUncond, .patchBranch pos top, .patchBranch branch (pos + 2)]

def cgCompileWhileStmt (wasm : Bool) (body : CgStep) : CgStep := fun ts u => do
  let u := u.emit (loopCode wasm)
  let loopTop := u.calls.length
  let (ts, u) ← cgExprStep .r0 (cgSkip .lparen (cgSkip .whileKw ts)) u
  let exitPatch := u.calls.length + 1
  let (ts, u) ← body (cgSkip .rparen ts) (u.emit (exitCode wasm))
  some (ts, u.emit (backCode wasm loopTop exitPatch u.calls.length))

/-- The loops over statements, up to a token where they end. -/
def cgStmts (ends : CgToken → Bool) (stmt : CgStep) : Nat → CgStep
  | 0, _, _ => none
  | n + 1, ts, u =>
    if ends (cgCur ts) then some (ts, u)
    else do
      let (ts, u) ← stmt ts u
      cgStmts ends stmt n ts u

/-- Where a block ends. -/
def endsBlock (t : CgToken) : Bool := t = .rbrace || t = .eof

/-- Where a source ends. -/
def endsSource (t : CgToken) : Bool := t = .eof

def cgCompileBlock (stmt : CgStep) (n : Nat) : CgStep := fun ts u => do
  let (ts, u) ← cgStmts endsBlock stmt n (cgSkip .lbrace ts) u
  some (cgSkip .rbrace ts, u)

/-- `if (cg_cur(TOK_LBRACE)) cg_compile_block(cc); else cg_compile_stmt(cc);` -/
def cgBody (stmt : CgStep) (n : Nat) : CgStep := fun ts u =>
  if cgCur ts = .lbrace then cgCompileBlock stmt n ts u else stmt ts u

/-- `cg_compile_stmt`; `body` is for the statements in it. -/
def cgStmtWith (wasm : Bool) (body : CgStep) : CgStep := fun ts u =>
  match cgCur ts with
  | .returnKw => do
    let (ts, u) ← cgCompileReturnStmt wasm ts u
    some (cgSkip .semi ts, u)
  | .ifKw => cgCompileIfStmt wasm body ts u
  | .whileKw => cgCompileWhileStmt wasm body ts u
  | .longKw => do
    let (ts, u) ← cgCompileDeclStmt ts u
    some (cgSkip .semi ts, u)
  | .ident _ => do
    let (ts, u) ← if cgCur ts.tail = .assign then cgCompileAssignStmt ts u else cgExprStep .r9 ts u
    some (cgSkip .semi ts, u)
  | _ => do
    let (ts, u) ← cgExprStep .r9 ts u
    some (cgSkip .semi ts, u)

/-- `cg_compile_stmt`, with fuel. -/
def cgCompileStmt (wasm : Bool) : Nat → CgStep
  | 0, _, _ => none
  | n + 1, ts, u => cgStmtWith wasm (cgBody (cgCompileStmt wasm n) n) ts u

/-- The state before the first statement. -/
def cgStart : CgUnit where
  scope := ⟨[], 0⟩
  stackSlots := 0
  calls := [.prologue 0 8]

/-- `jit_minic_compile_cg`; it returns `cc.error`, which nothing sets. -/
def jitMinicCompileCg (wasm : Bool) (n : Nat) (src : List Char) : Option CgUnit := do
  let (_, u) ← cgStmts endsSource (cgCompileStmt wasm n) n (cgTokens src) cgStart
  some (u.emit [.epilogue 8])

end WuBuOS.Jit
