import WuBuOS.Jit.CgTree

/-!
# The code of the portable generator

`CgExpr.gen` is the code for a tree in a register, and `compiles_cg` says that the functions of the
generator, run on the tokens of a tree that is grouped as they group it (`CgExpr.Gen`), emit this code and
stop behind the tree.

What is read behind the tree must have no text: the name of a variable is looked up when the next token has
been read into the same place.
-/

namespace WuBuOS.Jit

open X86

/-! ## The code of a tree -/

/-- The names, from left to right. -/
def CgExpr.names : CgExpr → List String
  | .num _ | .hex _ _ => []
  | .name x => [x]
  | .paren e | .unary _ e => e.names
  | .bin _ l r | .cmp _ l r => l.names ++ r.names

/-- The scope behind the expression. -/
def CgExpr.after (e : CgExpr) (sc : CgScope) : CgScope := e.names.foldl CgScope.use sc

/-- The constant that `cg_compile_primary` reports. -/
def CgExpr.const : CgExpr → Option (BitVec 64)
  | .num v | .hex _ v => some v
  | .unary op e => e.const.map op.apply
  | _ => none

/-- What follows the operand of a sign, whether it is a constant or not. -/
def unaryCode (op : CgUnOp) (dst : CgReg) (c : Option (BitVec 64)) : List CgInstr :=
  if c.isSome then
    match op with
    | .minus => [.movImm .r9 0, .subReg dst .r9 dst]
    | .tilde => [.movImm .r9 (-1), .eorReg dst dst .r9]
  else [.movImm dst 0]

/-- What follows the right operand, or stands for it in a shift. -/
def opCode (op : BinOp) (dst : CgReg) (r : CgExpr) : List CgInstr :=
  match op with
  | .star | .slash | .percent => mulCode op dst r.const
  | .shl | .shr => (r.const.map (shiftCode op dst)).getD []
  | _ => binCode op dst

def BinOp.IsShift : BinOp → Prop
  | .shl | .shr => True
  | _ => False

instance (op : BinOp) : Decidable op.IsShift := by
  unfold BinOp.IsShift
  split <;> infer_instance

/-- The code that leaves the expression in a register. -/
def CgExpr.gen : CgExpr → CgReg → CgScope → List CgInstr
  | .num v, dst, _ | .hex _ v, dst, _ => [.movImm dst v]
  | .name x, dst, sc => nameCode sc dst x
  | .paren e, dst, sc =>
    match e.value with
    | some v => [.movImm dst v]
    | none => e.gen dst sc
  | .unary op e, dst, sc => e.gen dst sc ++ unaryCode op dst e.const
  | .bin op l r, dst, sc =>
    l.gen dst sc ++ (if op.IsShift then [] else r.gen .r15 (l.after sc)) ++ opCode op dst r
  | .cmp cc l r, dst, sc => l.gen dst sc ++ r.gen .r15 (l.after sc) ++ [.cmpRegCc dst .r15 cc]

/-- The generator groups the expression as the tree says: the right operand of a shift is a decimal
number. -/
def CgExpr.Gen : CgExpr → Prop
  | .num _ | .hex _ _ | .name _ => True
  | .paren e => e.Wf evalPrec ∧ e.Defined ∧ (e.value = none → ¬e.Half ∧ e.Gen)
  | .unary _ e => e.prec genPrec = 6 ∧ e.Gen
  | .bin op l r => genPrec op ≤ l.prec genPrec ∧ l.Gen ∧
      if op.IsShift then ∃ v, r = .num v else genPrec op < r.prec genPrec ∧ r.Gen
  | .cmp _ l r => 1 < l.prec genPrec ∧ 1 < r.prec genPrec ∧ l.Gen ∧ r.Gen

/-- `cg_compile_expr` either finds a constant, or begins again where it has begun. -/
def CgExpr.Whole (e : CgExpr) : Prop := e.Wf evalPrec ∧ e.Defined ∧ (e.value = none → ¬e.Half ∧ e.Gen)

variable {e l r : CgExpr} {op : BinOp} {k n : Nat} {v w : BitVec 64} {dst : CgReg} {sc : CgScope}
  {cc : CgCompiler}

theorem after_append (xs ys : List String) (sc : CgScope) :
    (xs ++ ys).foldl CgScope.use sc = ys.foldl CgScope.use (xs.foldl CgScope.use sc) :=
  List.foldl_append

/-- A constant expression has no names. -/
theorem names_of_value (h : e.value = some v) : e.names = [] := by
  induction e generalizing v with
  | num | hex => rfl
  | name => cases h
  | paren e ih => exact ih h
  | unary op e ih =>
    obtain ⟨w, hw, -⟩ := Option.map_eq_some_iff.1 h
    exact ih hw
  | bin op l r ihl ihr =>
    obtain ⟨a, ha, h⟩ := Option.bind_eq_some_iff.1 h
    obtain ⟨b, hb, -⟩ := Option.bind_eq_some_iff.1 h
    rw [CgExpr.names, ihl ha, ihr hb]
    rfl
  | cmp cc l r ihl ihr =>
    obtain ⟨a, ha, h⟩ := Option.bind_eq_some_iff.1 h
    obtain ⟨b, hb, -⟩ := Option.map_eq_some_iff.1 h
    rw [CgExpr.names, ihl ha, ihr hb]
    rfl

/-- A literal with signs has the value that is reported. -/
theorem value_of_const (h : e.const = some v) : e.value = some v := by
  induction e generalizing v with
  | num | hex => exact h
  | unary op e ih =>
    obtain ⟨w, hw, rfl⟩ := Option.map_eq_some_iff.1 h
    rw [CgExpr.value, ih hw]
    rfl
  | _ => cases h

/-! ## What the generator emits -/

/-- The compiler with the code of the expression emitted. -/
def CgCompiler.done (cc : CgCompiler) (e : CgExpr) (dst : CgReg) : CgCompiler where
  scope := e.after cc.scope
  code := cc.code ++ e.gen dst cc.scope

/-- The operators of a level of the generator. -/
def genOpAt : Nat → CgToken → Option BinOp
  | 5 => cgMulOp
  | 4 => cgAddOp
  | 3 => cgBitOp
  | 2 => cgShiftOp
  | _ => fun _ => none

/-- The function of the generator for a level. -/
def genAt (prim : CgReg → CgPrimary) (dst : CgReg) : Nat → CgCompile
  | 5 => cgCompileMultiplicative prim dst
  | 4 => cgCompileAdditive prim dst
  | 3 => cgCompileBitwise prim dst
  | 2 => cgCompileShift prim dst
  | _ => cgOperand prim dst

/-- What is done in a round of the loop of a level. -/
def genBody (prim : CgReg → CgPrimary) (dst : CgReg) : Nat → BinOp → CgCompile
  | 5, op, ts, cc => do
    let (ts, cc, c) ← prim .r15 ts cc
    some (ts, cc.emit (mulCode op dst c))
  | 4, op, ts, cc => do
    let (ts, cc) ← cgCompileMultiplicative prim .r15 ts cc
    some (ts, cc.emit (binCode op dst))
  | 3, op, ts, cc => do
    let (ts, cc) ← cgCompileAdditive prim .r15 ts cc
    some (ts, cc.emit (binCode op dst))
  | _, op, ts, cc =>
    match cgCur ts with
    | .number v => some (ts.tail, cc.emit (shiftCode op dst v))
    | _ => some (ts, cc)

theorem genAt_eq (prim : CgReg → CgPrimary) (dst : CgReg) (hlo : 2 ≤ k) (hhi : k ≤ 5) :
    genAt prim dst k = cgLevel (genOpAt k) (genAt prim dst (k + 1)) (genBody prim dst k) := by
  match k, hlo, hhi with
  | 2, _, _ => rfl
  | 3, _, _ => rfl
  | 4, _, _ => rfl
  | 5, _, _ => rfl

theorem genOpAt_token (op : BinOp) : genOpAt (genPrec op) op.cgToken = some op := by
  cases op <;> rfl

theorem genPrec_bounds (op : BinOp) : 2 ≤ genPrec op ∧ genPrec op ≤ 5 := by
  cases op <;> decide

/-- The token does not go on with an expression of the level, and has no text. -/
def GenStops (k : Nat) (t : CgToken) : Prop := CgStops genPrec k t ∧ t.text = none

theorem genStops_token (h : genPrec op < k) : GenStops k op.cgToken :=
  ⟨cgStops_token h, by cases op <;> rfl⟩

theorem GenStops.mono {t : CgToken} (h : GenStops k t) (hn : k ≤ n) : GenStops n t := ⟨h.1.mono hn, h.2⟩

theorem CgStopsExpr.gen {t : CgToken} (h : CgStopsExpr t) (k : Nat) : GenStops k t := ⟨h.stops _ _, h.2.2⟩

theorem genOpAt_none {t : CgToken} (h : GenStops k t) : genOpAt k t = none := by
  by_contra hne
  obtain ⟨op, hop⟩ := Option.ne_none_iff_exists'.1 hne
  have hb : cgBinOp t = some op ∧ genPrec op = k := by
    match k with
    | 0 | 1 => cases hop
    | 2 | 3 | 4 | 5 =>
      simp only [genOpAt] at hop
      revert hop
      cases t <;> simp only [cgMulOp, cgAddOp, cgShiftOp, cgBitOp, cgBinOp, reduceCtorEq,
        Option.some.injEq, Option.or_none, Option.or_some, false_imp_iff] <;>
        rintro rfl <;> exact ⟨rfl, rfl⟩
    | _ + 6 => cases hop
  have := h.1 op hb.1
  omega

/-- The function reads the expression into the register. -/
def GenReads (f : CgCompile) (dst : CgReg) (stop : CgToken → Prop) (e : CgExpr) : Prop :=
  ∀ rest cc, stop (cgCur rest) → f (e.tokens ++ rest) cc = some (rest, cc.done e dst)

/-- The level reads an operand, and goes into its loop. -/
def GenLoops (op : CgToken → Option BinOp) (first : CgCompile) (body : BinOp → CgCompile) (dst : CgReg)
    (stop : CgToken → Prop) (e : CgExpr) : Prop :=
  ∀ rest cc, stop (cgCur rest) → ∃ f, rest.length ≤ f ∧
    cgLevel op first body (e.tokens ++ rest) cc = cgLoop op body f rest (cc.done e dst)

variable {ops : CgToken → Option BinOp} {first : CgCompile} {body : BinOp → CgCompile} {stop : CgToken → Prop}

theorem genLoops_of_reads (ops : CgToken → Option BinOp) (body : BinOp → CgCompile)
    (h : GenReads first dst stop e) : GenLoops ops first body dst stop e :=
  fun rest cc hs => ⟨rest.length, Nat.le_refl _, by rw [cgLevel, h rest cc hs]; rfl⟩

theorem genReads_of_loops {stop' : CgToken → Prop} (h : GenLoops ops first body dst stop e)
    (hstop : ∀ t, stop' t → stop t ∧ ops t = none) : GenReads (cgLevel ops first body) dst stop' e :=
  fun rest cc hs => by
    obtain ⟨hs, hn⟩ := hstop _ hs
    obtain ⟨f, -, he⟩ := h rest cc hs
    rw [he]
    cases f with
    | zero => rfl
    | succ f => rw [cgLoop, hn]

/-- **One round of the loop.** -/
theorem genLoops_bin (hl : GenLoops ops first body dst stop l) (ho : ops op.cgToken = some op) (hs : stop op.cgToken)
    (hbody : ∀ rest (cc : CgCompiler), stop (cgCur rest) → body op (r.tokens ++ rest) (cc.done l dst) =
      some (rest, cc.done (.bin op l r) dst)) : GenLoops ops first body dst stop (.bin op l r) :=
  fun rest cc hstop => by
    obtain ⟨f, hf, he⟩ := hl (op.cgToken :: (r.tokens ++ rest)) cc hs
    obtain ⟨f, rfl⟩ := Nat.exists_eq_add_of_le' (Nat.zero_lt_of_lt hf)
    rw [List.length_cons, List.length_append] at hf
    refine ⟨f, by omega, ?_⟩
    rw [tokens_bin, he, cgLoop, cgCur_cons, ho]
    simp only [List.tail_cons, hbody rest cc hstop, Option.bind_eq_bind, Option.bind_some]

/-- What is proved of every tree for the generator. -/
structure Gens (n : Nat) (e : CgExpr) : Prop where
  prim : e.prec genPrec = 6 → ∀ dst rest cc, GenStops 6 (cgCur rest) →
    cgPrimary n dst (e.tokens ++ rest) cc = some (rest, cc.done e dst, e.const)
  reads : ∀ dst k, 2 ≤ k → k ≤ e.prec genPrec → GenReads (genAt (cgPrimary n) dst k) dst (GenStops k) e
  loops : ∀ dst k, 2 ≤ k → k ≤ 5 → k ≤ e.prec genPrec →
    GenLoops (genOpAt k) (genAt (cgPrimary n) dst (k + 1)) (genBody (cgPrimary n) dst k) dst
      (GenStops (k + 1)) e
  compare : ∀ dst, GenReads (cgCompileCompare (cgPrimary n) dst) dst CgStopsExpr e

theorem genReads_level (hlo : 2 ≤ k) (hhi : k ≤ 5)
    (h : GenLoops (genOpAt k) (genAt (cgPrimary n) dst (k + 1)) (genBody (cgPrimary n) dst k) dst
      (GenStops (k + 1)) e) : GenReads (genAt (cgPrimary n) dst k) dst (GenStops k) e := by
  rw [genAt_eq _ _ hlo hhi]
  exact genReads_of_loops h fun _ ht => ⟨ht.mono (Nat.le_succ k), genOpAt_none ht⟩

/-- An expression without a comparison outside of parentheses. -/
theorem gens_of_reads {K : Nat} (hK : K = e.prec genPrec) (hlo : 2 ≤ K) (hhi : K ≤ 6)
    (hprim : K = 6 → ∀ dst rest cc, GenStops 6 (cgCur rest) →
      cgPrimary n dst (e.tokens ++ rest) cc = some (rest, cc.done e dst, e.const))
    (htop : ∀ dst, K ≤ 5 → GenLoops (genOpAt K) (genAt (cgPrimary n) dst (K + 1))
      (genBody (cgPrimary n) dst K) dst (GenStops (K + 1)) e)
    (h : ∀ dst, GenReads (genAt (cgPrimary n) dst K) dst (GenStops K) e) : Gens n e := by
  subst hK
  have hb (dst : CgReg) := levels_below
    (fun k _ _ => genLoops_of_reads (genOpAt k) (genBody (cgPrimary n) dst k)) (fun _ hlo hhi => genReads_level hlo hhi) hhi (htop dst) (h dst)
  refine ⟨fun hp => hprim hp, fun dst k hk hp => (hb dst k hk hp).1, fun dst k hk hk5 hp => (hb dst k hk hp).2 hk5,
    fun dst rest cc hs => ?_⟩
  have h2 : GenReads (cgCompileShift (cgPrimary n) dst) dst (GenStops 2) e := (hb dst 2 (Nat.le_refl 2) hlo).1
  rw [cgCompileCompare]
  simp only [h2 rest cc (hs.gen 2), Option.bind_eq_bind, Option.bind_some, hs.2.1]

theorem gens_prim (hp : e.prec genPrec = 6) (h : ∀ dst rest cc, GenStops 6 (cgCur rest) →
    cgPrimary n dst (e.tokens ++ rest) cc = some (rest, cc.done e dst, e.const)) : Gens n e :=
  gens_of_reads hp.symm (by omega) (Nat.le_refl 6) (fun _ => h) (fun _ h => absurd h (by omega))
    fun dst rest cc hs => by
      show cgOperand _ _ _ _ = _
      rw [cgOperand, h dst rest cc hs]
      rfl

theorem done_bin (hop : ¬op.IsShift) (cc : CgCompiler) (l r : CgExpr) (dst : CgReg) :
    cc.done (.bin op l r) dst = ((cc.done l dst).done r .r15).emit (opCode op dst r) := by
  simp only [CgCompiler.done, CgCompiler.emit, CgExpr.after, CgExpr.names, CgExpr.gen, hop, if_false,
    after_append, List.append_assoc]

theorem done_shift (hop : op.IsShift) (cc : CgCompiler) (l : CgExpr) (v : BitVec 64) (dst : CgReg) :
    cc.done (.bin op l (.num v)) dst = (cc.done l dst).emit (shiftCode op dst v) := by
  have hcode : opCode op dst (.num v) = shiftCode op dst v := by
    cases op with
    | shl | shr => rfl
    | _ => exact hop.elim
  simp only [CgCompiler.done, CgCompiler.emit, CgExpr.after, CgExpr.names, CgExpr.gen, hop, if_true,
    List.append_nil, List.append_assoc, hcode]

/-- What a round of the loop does with the right operand. -/
theorem genBody_bin (hr : if op.IsShift then ∃ v, r = .num v else genPrec op < r.prec genPrec ∧ Gens n r)
    {rest : List CgToken} (cc : CgCompiler) (hs : GenStops (genPrec op + 1) (cgCur rest)) :
    genBody (cgPrimary n) dst (genPrec op) op (r.tokens ++ rest) (cc.done l dst) =
      some (rest, cc.done (.bin op l r) dst) := by
  cases op with
  | star | slash | percent =>
    have hp : r.prec genPrec = 6 := by
      have hlt : 5 < r.prec genPrec := hr.1
      have hle : r.prec genPrec ≤ 6 := by
        cases r with
        | bin o => exact Nat.le_succ_of_le (genPrec_bounds o).2
        | cmp => simp [CgExpr.prec]
        | _ => exact Nat.le_refl 6
      omega
    rw [done_bin id]
    simp only [genPrec, genBody, hr.2.prim hp .r15 rest _ hs, Option.bind_eq_bind, Option.bind_some, opCode]
  | plus | minus =>
    have h5 : cgCompileMultiplicative (cgPrimary n) .r15 (r.tokens ++ rest) (cc.done l dst) =
      some (rest, (cc.done l dst).done r .r15) := hr.2.reads .r15 5 (by omega) hr.1 rest _ hs
    rw [done_bin id]
    simp only [genPrec, genBody, h5, Option.bind_eq_bind, Option.bind_some, opCode]
  | amp | caret | pipe =>
    have h4 : cgCompileAdditive (cgPrimary n) .r15 (r.tokens ++ rest) (cc.done l dst) =
      some (rest, (cc.done l dst).done r .r15) := hr.2.reads .r15 4 (by omega) hr.1 rest _ hs
    rw [done_bin id]
    simp only [genPrec, genBody, h4, Option.bind_eq_bind, Option.bind_some, opCode]
  | shl | shr =>
    obtain ⟨v, rfl⟩ := hr
    refine congrArg (fun cc => some (rest, cc)) (Eq.symm (done_shift ?_ cc l v dst))
    trivial

theorem gens_bin (hl : Gens n l) (hlp : genPrec op ≤ l.prec genPrec)
    (hr : if op.IsShift then ∃ v, r = .num v else genPrec op < r.prec genPrec ∧ Gens n r) :
    Gens n (.bin op l r) := by
  obtain ⟨hlo, hhi⟩ := genPrec_bounds op
  have hloop (dst : CgReg) : GenLoops (genOpAt (genPrec op)) (genAt (cgPrimary n) dst (genPrec op + 1))
      (genBody (cgPrimary n) dst (genPrec op)) dst (GenStops (genPrec op + 1)) (.bin op l r) :=
    genLoops_bin (hl.loops dst _ hlo hhi hlp) (genOpAt_token op) (genStops_token (Nat.lt_succ_self _))
      fun _ cc hs => genBody_bin hr cc hs
  exact gens_of_reads (K := genPrec op) rfl hlo (by omega) (fun h => absurd h (by omega)) (fun dst _ => hloop dst)
    fun dst => genReads_level hlo hhi (hloop dst)

theorem gens_cmp {c : Cc} (hl : Gens n l) (hr : Gens n r) (hlp : 1 < l.prec genPrec)
    (hrp : 1 < r.prec genPrec) : Gens n (.cmp c l r) := by
  have hbad {k : Nat} (hk : 2 ≤ k) (hp : k ≤ (CgExpr.cmp c l r).prec genPrec) : False := by
    simp only [CgExpr.prec] at hp
    omega
  refine ⟨fun hp => (hbad (k := 6) (by omega) (hp ▸ Nat.le_refl _)).elim, fun _ k hk hp => (hbad hk hp).elim,
    fun _ k hk _ hp => (hbad hk hp).elim, fun dst rest cc hs => ?_⟩
  have hl2 : cgCompileShift (cgPrimary n) dst (l.tokens ++ cgCmpToken c :: (r.tokens ++ rest)) cc =
      some (cgCmpToken c :: (r.tokens ++ rest), cc.done l dst) :=
    hl.reads dst 2 (Nat.le_refl 2) hlp _ cc ⟨cgStops_cmpToken _ c 2, by cases c <;> rfl⟩
  have hr2 : cgCompileShift (cgPrimary n) .r15 (r.tokens ++ rest) (cc.done l dst) =
      some (rest, (cc.done l dst).done r .r15) :=
    hr.reads .r15 2 (Nat.le_refl 2) hrp rest _ (hs.gen 2)
  rw [tokens_cmp, cgCompileCompare]
  simp only [hl2, Option.bind_eq_bind, Option.bind_some, cgCur_cons, cgCmpOp_token, List.tail_cons, hr2]
  simp only [CgCompiler.done, CgCompiler.emit, CgExpr.after, CgExpr.names, CgExpr.gen, after_append, List.append_assoc]

/-- The whole of an expression: a constant, or what the chain makes of it. -/
theorem genReads_expr (hw : e.Wf evalPrec) (hd : e.Defined) (hg : e.value = none → ¬e.Half ∧ Gens n e)
    (dst : CgReg) (rest : List CgToken) (cc : CgCompiler) (hs : CgStopsExpr (cgCur rest)) :
    cgCompileExpr (cgPrimary n) dst (e.tokens ++ rest) cc = some (rest, cc.done (.paren e) dst) := by
  obtain ⟨hok, hfail⟩ := constEval_tokens hw hd rest
  cases hv : e.value with
  | some v =>
    rw [cgCompileExpr, hok v hv hs]
    simp only [CgCompiler.done, CgCompiler.emit, CgExpr.after, CgExpr.names, CgExpr.gen, hv,
      names_of_value hv, List.foldl_nil]
  | none =>
    obtain ⟨ts, hts, hsame⟩ := hfail hv
    obtain ⟨hhalf, hgens⟩ := hg hv
    rw [cgCompileExpr, hts, hsame.2 hhalf]
    simp only [hgens.compare dst rest cc hs]
    simp only [CgCompiler.done, CgExpr.after, CgExpr.names, CgExpr.gen, hv]

theorem gens_paren (hw : e.Wf evalPrec) (hd : e.Defined) (hg : e.value = none → ¬e.Half ∧ Gens n e) :
    Gens (n + 1) (.paren e) :=
  gens_prim rfl fun dst rest cc _ => by
    rw [tokens_paren]
    show cgCompilePrimary _ _ _ _ _ = _
    simp only [cgCompilePrimary, cgCur_cons, List.tail_cons,
      genReads_expr hw hd hg dst (.rparen :: rest) cc cgStops_rparen, Option.bind_eq_bind, Option.bind_some,
      cgConsume, if_true, Option.getD_some, CgExpr.const]

theorem gens_unary (uop : CgUnOp) (hp : e.prec genPrec = 6) (he : Gens n e) : Gens (n + 1) (.unary uop e) :=
  gens_prim rfl fun dst rest cc hs => by
    have h6 := he.prim hp dst rest cc hs
    show cgCompilePrimary _ _ _ (uop.token :: (e.tokens ++ rest)) _ = _
    cases uop <;> cases hc : e.const <;>
      simp only [cgCompilePrimary, cgCur_cons, CgUnOp.token, List.tail_cons, h6, hc, Option.bind_eq_bind,
        Option.bind_some, CgCompiler.done, CgCompiler.emit, CgExpr.after, CgExpr.names, CgExpr.gen, unaryCode,
        Option.isSome_none, Option.isSome_some, if_true, List.append_assoc, CgExpr.const, Option.map_none,
        Option.map_some, CgUnOp.apply] <;> rfl

/-- **The generator, on every tree that is grouped its way.** -/
theorem gens (e : CgExpr) (hg : e.Gen) : ∀ n, e.tokens.length ≤ n → Gens n e := by
  induction e with
  | num v | hex _ v =>
    rintro (_ | n) hn
    · simp [CgExpr.tokens] at hn
    · exact gens_prim rfl fun dst rest cc _ => rfl
  | name x =>
    rintro (_ | n) hn
    · simp [CgExpr.tokens] at hn
    · refine gens_prim rfl fun dst rest cc hs => ?_
      show cgCompilePrimary _ _ _ (.ident x :: rest) _ = _
      simp only [cgCompilePrimary, cgCur_cons, List.tail_cons, hs.2, Option.getD_none]
      rfl
  | paren e ih =>
    rintro (_ | n) hn
    · simp [CgExpr.tokens] at hn
    · simp only [CgExpr.tokens, List.length_cons, List.length_append] at hn
      exact gens_paren hg.1 hg.2.1 fun hv => ⟨(hg.2.2 hv).1, ih (hg.2.2 hv).2 n (by omega)⟩
  | unary op e ih =>
    rintro (_ | n) hn
    · simp [CgExpr.tokens] at hn
    · simp only [CgExpr.tokens, List.length_cons] at hn
      exact gens_unary op hg.1 (ih hg.2 n (by omega))
  | bin op l r ihl ihr =>
    intro n hn
    simp only [CgExpr.tokens, List.length_cons, List.length_append] at hn
    refine gens_bin (ihl hg.2.1 n (by omega)) hg.1 ?_
    have hr := hg.2.2
    split
    case isTrue hop => rwa [if_pos hop] at hr
    case isFalse hop =>
      rw [if_neg hop] at hr
      exact ⟨hr.1, ihr hr.2 n (by omega)⟩
  | cmp cc l r ihl ihr =>
    intro n hn
    simp only [CgExpr.tokens, List.length_cons, List.length_append] at hn
    exact gens_cmp (ihl hg.2.2.1 n (by omega)) (ihr hg.2.2.2 n (by omega)) hg.1 hg.2.1

/-- `cg_compile_compare`, on the tokens of a tree. -/
theorem compiles_compare (hg : e.Gen) (dst : CgReg) (rest : List CgToken) (cc : CgCompiler)
    (hs : CgStopsExpr (cgCur rest)) :
    cgCompileTokens cgCompileCompare dst (e.tokens ++ rest) cc = some (rest, cc.done e dst) :=
  (gens e hg ((e.tokens ++ rest).length + 1) (by simp; omega)).compare dst rest cc hs

/-- **`cg_compile_expr`, on the tokens of a tree.** -/
theorem compiles_cg (hw : e.Whole) (dst : CgReg) (rest : List CgToken) (cc : CgCompiler)
    (hs : CgStopsExpr (cgCur rest)) :
    cgCompileTokens cgCompileExpr dst (e.tokens ++ rest) cc = some (rest, cc.done (.paren e) dst) :=
  genReads_expr hw.1 hw.2.1
    (fun hv => ⟨(hw.2.2 hv).1, gens e (hw.2.2 hv).2 ((e.tokens ++ rest).length + 1) (by simp; omega)⟩) dst rest cc hs

end WuBuOS.Jit
