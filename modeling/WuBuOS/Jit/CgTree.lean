import WuBuOS.Jit.CgExpr

/-!
# Expressions of the portable code generator as trees

The evaluator and the generator group an expression differently: for the evaluator a shift binds tighter than
`&`, `^` and `|`, for the generator it is the other way round.  So a tree is well formed for one or for the
other, by the levels that it gives the operators (`CgExpr.Wf`); `evalPrec` and `genPrec` are the two.

`constEval_tokens` says what the evaluator makes of the tokens of a tree: its value, or no value where
there is a name in it.
-/

namespace WuBuOS.Jit

open X86

/-! ## Trees -/

inductive CgUnOp where
  | minus | tilde
  deriving DecidableEq

inductive CgExpr where
  | num (v : BitVec 64)
  | hex (text : String) (v : BitVec 64)
  | name (x : String)
  | paren (e : CgExpr)
  | unary (op : CgUnOp) (e : CgExpr)
  | bin (op : BinOp) (l r : CgExpr)
  | cmp (cc : Cc) (l r : CgExpr)

def CgUnOp.token : CgUnOp → CgToken
  | .minus => .minus
  | .tilde => .tilde

def CgUnOp.apply : CgUnOp → BitVec 64 → BitVec 64
  | .minus, v => -v
  | .tilde, v => ~~~v

def BinOp.cgToken : BinOp → CgToken
  | .star => .star
  | .slash => .slash
  | .percent => .percent
  | .plus => .plus
  | .minus => .minus
  | .shl => .shl
  | .shr => .shr
  | .amp => .amp
  | .caret => .caret
  | .pipe => .pipe

def cgCmpToken : Cc → CgToken
  | .e => .eq
  | .ne => .ne
  | .l => .lt
  | .g => .gt
  | .le => .le
  | .ge => .ge

/-- How the expression is written. -/
def CgExpr.tokens : CgExpr → List CgToken
  | .num v => [.number v]
  | .hex text v => [.hex text v]
  | .name x => [.ident x]
  | .paren e => .lparen :: (e.tokens ++ [.rparen])
  | .unary op e => op.token :: e.tokens
  | .bin op l r => l.tokens ++ op.cgToken :: r.tokens
  | .cmp cc l r => l.tokens ++ cgCmpToken cc :: r.tokens

/-- The levels of the evaluator. -/
def evalPrec : BinOp → Nat
  | .star | .slash | .percent => 5
  | .plus | .minus => 4
  | .shl | .shr => 3
  | .amp | .caret | .pipe => 2

/-- The levels of the generator. -/
def genPrec : BinOp → Nat
  | .star | .slash | .percent => 5
  | .plus | .minus => 4
  | .amp | .caret | .pipe => 3
  | .shl | .shr => 2

/-- How tightly the expression binds. -/
def CgExpr.prec (lv : BinOp → Nat) : CgExpr → Nat
  | .bin op _ _ => lv op
  | .cmp _ _ _ => 1
  | _ => 6

/-- The expression is grouped as the levels say. -/
def CgExpr.Wf (lv : BinOp → Nat) : CgExpr → Prop
  | .num _ | .hex _ _ | .name _ => True
  | .paren e => e.Wf lv
  | .unary _ e => e.prec lv = 6 ∧ e.Wf lv
  | .bin op l r => lv op ≤ l.prec lv ∧ lv op < r.prec lv ∧ l.Wf lv ∧ r.Wf lv
  | .cmp _ l r => 1 < l.prec lv ∧ 1 < r.prec lv ∧ l.Wf lv ∧ r.Wf lv

/-- The value of an expression of literals; `none` where there is a name in it, or a division that C does
not define. -/
def CgExpr.value : CgExpr → Option (BitVec 64)
  | .num v | .hex _ v => some v
  | .name _ => none
  | .paren e => e.value
  | .unary op e => e.value.map op.apply
  | .bin op l r => l.value.bind fun a => r.value.bind fun b => op.apply a b
  | .cmp cc l r => l.value.bind fun a => r.value.map fun b => ofBool (cc.rel a b)

/-- Every division that the evaluator comes to is defined: it goes from left to right, up to the first
name. -/
def CgExpr.Defined : CgExpr → Prop
  | .num _ | .hex _ _ | .name _ => True
  | .paren e | .unary _ e => e.Defined
  | .bin op l r => l.Defined ∧ ∀ a, l.value = some a → r.Defined ∧
      ∀ b, r.value = some b → op.apply a b ≠ none
  | .cmp _ l r => l.Defined ∧ (l.value ≠ none → r.Defined)

/-- A comparison of a constant with something that is none. -/
def CgExpr.Half : CgExpr → Prop
  | .cmp _ l r => l.value ≠ none ∧ r.value = none
  | _ => False

variable {e l r : CgExpr} {op : BinOp} {k n : Nat} {v w : BitVec 64}

/-! ## The evaluator -/

/-- All operators. -/
def cgBinOp (t : CgToken) : Option BinOp :=
  (cgMulOp t).or ((cgAddOp t).or ((cgShiftOp t).or (cgBitOp t)))

/-- The token does not go on with an expression of the level. -/
def CgStops (lv : BinOp → Nat) (k : Nat) (t : CgToken) : Prop := ∀ op, cgBinOp t = some op → lv op < k

/-- The operators of a level of the evaluator. -/
def evalOpAt : Nat → CgToken → Option BinOp
  | 5 => cgMulOp
  | 4 => cgAddOp
  | 3 => cgShiftOp
  | 2 => cgBitOp
  | _ => fun _ => none

/-- The function of the evaluator for a level. -/
def evalAt (prim : Eval) : Nat → Eval
  | 5 => constEvalMultiplicative prim
  | 4 => constEvalAdditive prim
  | 3 => constEvalShift prim
  | 2 => constEvalBitwise prim
  | _ => prim

theorem evalAt_eq (prim : Eval) (hlo : 2 ≤ k) (hhi : k ≤ 5) :
    evalAt prim k = evalLevel (evalOpAt k) (evalAt prim (k + 1)) := by
  match k, hlo, hhi with
  | 2, _, _ => rfl
  | 3, _, _ => rfl
  | 4, _, _ => rfl
  | 5, _, _ => rfl

theorem cgBinOp_token (op : BinOp) : cgBinOp op.cgToken = some op := by
  cases op <;> rfl

theorem evalOpAt_token (op : BinOp) : evalOpAt (evalPrec op) op.cgToken = some op := by
  cases op <;> rfl

theorem evalPrec_bounds (op : BinOp) : 2 ≤ evalPrec op ∧ evalPrec op ≤ 5 := by
  cases op <;> decide

theorem cgStops_token {lv : BinOp → Nat} (h : lv op < k) : CgStops lv k op.cgToken := by
  intro o ho
  rw [cgBinOp_token] at ho
  rwa [← Option.some.inj ho]

theorem CgStops.mono {lv : BinOp → Nat} {t : CgToken} (h : CgStops lv k t) (hn : k ≤ n) : CgStops lv n t :=
  fun op ho => Nat.lt_of_lt_of_le (h op ho) hn

theorem evalOpAt_none {t : CgToken} (h : CgStops evalPrec k t) : evalOpAt k t = none := by
  by_contra hne
  obtain ⟨op, hop⟩ := Option.ne_none_iff_exists'.1 hne
  have hb : cgBinOp t = some op ∧ evalPrec op = k := by
    match k with
    | 0 | 1 => cases hop
    | 2 | 3 | 4 | 5 =>
      simp only [evalOpAt] at hop
      revert hop
      cases t <;> simp only [cgMulOp, cgAddOp, cgShiftOp, cgBitOp, cgBinOp, reduceCtorEq,
        Option.some.injEq, Option.or_none, Option.or_some, false_imp_iff] <;>
        rintro rfl <;> exact ⟨rfl, rfl⟩
    | _ + 6 => cases hop
  have := h op hb.1
  omega

/-- What is computed where C defines it. -/
theorem fold_of_apply {a b : BitVec 64} (h : op.apply a b = some v) : op.fold a b = some v := by
  have hmod : (b &&& 63).toNat = b.toNat % 64 := by
    rw [BitVec.toNat_and]
    exact Nat.and_two_pow_sub_one_eq_mod b.toNat 6
  cases op with
  | slash | percent =>
    simp only [BinOp.apply, Option.ite_none_left_eq_some, not_or] at h
    rw [BinOp.fold, if_neg h.1.1, h.2]
  | shl | shr =>
    rw [BinOp.fold, hmod]
    exact h
  | _ => exact h

/-- The evaluator at a level, on the tokens of a tree: it has a value and goes into its loop with it, or it
fails somewhere. -/
structure Evaluated (op : CgToken → Option BinOp) (next : Eval) (stop : CgToken → Prop) (e : CgExpr) : Prop where
  ok : ∀ v, e.value = some v → ∀ rest, stop (cgCur rest) → ∃ f, rest.length ≤ f ∧
    evalLevel op next (e.tokens ++ rest) = evalLoop op next f v rest
  fail : e.value = none → ∀ rest, (evalLevel op next (e.tokens ++ rest)).1 = none

/-- The evaluator reads the tree as a whole. -/
structure EvalReads (f : Eval) (stop : CgToken → Prop) (e : CgExpr) : Prop where
  ok : ∀ v, e.value = some v → ∀ rest, stop (cgCur rest) → f (e.tokens ++ rest) = (some v, rest)
  fail : e.value = none → ∀ rest, (f (e.tokens ++ rest)).1 = none

variable {ops : CgToken → Option BinOp} {next : Eval} {stop : CgToken → Prop}

/-- An operand that binds tighter is what the loop starts from. -/
theorem evaluated_of_reads (h : EvalReads next stop e) : Evaluated ops next stop e where
  ok v hv rest hs := ⟨rest.length, Nat.le_refl _, by rw [evalLevel, h.ok v hv rest hs]⟩
  fail hv rest := by
    have hf := h.fail hv rest
    rw [evalLevel]
    split
    · rfl
    case h_2 heq =>
      rw [heq] at hf
      cases hf

/-- The loop stops. -/
theorem reads_of_evaluated {stop' : CgToken → Prop} (h : Evaluated ops next stop e)
    (hstop : ∀ t, stop' t → stop t ∧ ops t = none) : EvalReads (evalLevel ops next) stop' e where
  ok v hv rest hs := by
    obtain ⟨hs, hn⟩ := hstop _ hs
    obtain ⟨f, -, he⟩ := h.ok v hv rest hs
    rw [he]
    cases f with
    | zero => rfl
    | succ f => rw [evalLoop, hn]
  fail hv rest := h.fail hv rest

theorem tokens_bin (op : BinOp) (l r : CgExpr) (rest : List CgToken) :
    (CgExpr.bin op l r).tokens ++ rest = l.tokens ++ op.cgToken :: (r.tokens ++ rest) := by
  simp [CgExpr.tokens]

/-- **One round of the loop**, unless an operand has no value. -/
theorem evaluated_bin (hl : Evaluated ops next stop l) (hr : ∀ a, l.value = some a → EvalReads next stop r)
    (ho : ops op.cgToken = some op) (hs : stop op.cgToken)
    (hdef : ∀ a b, l.value = some a → r.value = some b → op.apply a b ≠ none) :
    Evaluated ops next stop (.bin op l r) where
  ok v hv rest hstop := by
    obtain ⟨a, ha, hv⟩ := Option.bind_eq_some_iff.1 hv
    obtain ⟨b, hb, hv⟩ := Option.bind_eq_some_iff.1 hv
    obtain ⟨f, hf, he⟩ := hl.ok a ha (op.cgToken :: (r.tokens ++ rest)) hs
    obtain ⟨f, rfl⟩ := Nat.exists_eq_add_of_le' (Nat.zero_lt_of_lt hf)
    rw [List.length_cons, List.length_append] at hf
    refine ⟨f, by omega, ?_⟩
    rw [tokens_bin, he, evalLoop, show cgCur (op.cgToken :: (r.tokens ++ rest)) = op.cgToken from rfl, ho]
    simp only [List.tail_cons, (hr a ha).ok b hb rest hstop, fold_of_apply hv]
  fail hv rest := by
    rw [tokens_bin]
    cases ha : l.value with
    | none => exact hl.fail ha _
    | some a =>
      obtain ⟨f, hf, he⟩ := hl.ok a ha (op.cgToken :: (r.tokens ++ rest)) hs
      obtain ⟨f, rfl⟩ := Nat.exists_eq_add_of_le' (Nat.zero_lt_of_lt hf)
      have hb : r.value = none := by
        cases hb : r.value with
        | none => rfl
        | some b =>
          rw [CgExpr.value, ha, hb] at hv
          exact absurd hv (hdef a b ha hb)
      have hfail := (hr a ha).fail hb rest
      rw [he, evalLoop, show cgCur (op.cgToken :: (r.tokens ++ rest)) = op.cgToken from rfl, ho]
      simp only [List.tail_cons]
      split
      · rfl
      case h_2 heq =>
        rw [heq] at hfail
        cases hfail

/-- The token does not go on with any expression, and has no text. -/
def CgStopsExpr (t : CgToken) : Prop := cgBinOp t = none ∧ cgCmpOp t = none ∧ t.text = none

theorem CgStopsExpr.stops {t : CgToken} (h : CgStopsExpr t) (lv : BinOp → Nat) (k : Nat) : CgStops lv k t :=
  fun _ ho => nomatch h.1.symm.trans ho

/-- What is proved of every tree for the evaluator. -/
structure Evals (n : Nat) (e : CgExpr) : Prop where
  reads : ∀ k, 2 ≤ k → k ≤ e.prec evalPrec → EvalReads (evalAt (evalPrimary n) k) (CgStops evalPrec k) e
  loops : ∀ k, 2 ≤ k → k ≤ 5 → k ≤ e.prec evalPrec →
    Evaluated (evalOpAt k) (evalAt (evalPrimary n) (k + 1)) (CgStops evalPrec (k + 1)) e
  ok : ∀ v, e.value = some v → ∀ rest, CgStopsExpr (cgCur rest) →
    constEvalCompare (evalPrimary n) (e.tokens ++ rest) = (some v, rest)
  fail : e.value = none → ∀ rest, ∃ ts, constEvalCompare (evalPrimary n) (e.tokens ++ rest) = (none, ts) ∧
    (ts = e.tokens ++ rest ↔ ¬e.Half)

theorem reads_evalLevel (hlo : 2 ≤ k) (hhi : k ≤ 5)
    (h : Evaluated (evalOpAt k) (evalAt (evalPrimary n) (k + 1)) (CgStops evalPrec (k + 1)) e) :
    EvalReads (evalAt (evalPrimary n) k) (CgStops evalPrec k) e := by
  rw [evalAt_eq _ hlo hhi]
  exact reads_of_evaluated h fun _ ht => ⟨ht.mono (Nat.le_succ k), evalOpAt_none ht⟩

/-- An expression without a comparison outside of parentheses. -/
theorem evals_of_reads {K : Nat} (hK : K = e.prec evalPrec) (hlo : 2 ≤ K) (hhi : K ≤ 6)
    (htop : K ≤ 5 → Evaluated (evalOpAt K) (evalAt (evalPrimary n) (K + 1)) (CgStops evalPrec (K + 1)) e)
    (h : EvalReads (evalAt (evalPrimary n) K) (CgStops evalPrec K) e) : Evals n e := by
  subst hK
  have hb := levels_below (fun _ _ _ => evaluated_of_reads) (fun _ hlo hhi => reads_evalLevel hlo hhi) hhi htop h
  have h2 : EvalReads (constEvalBitwise (evalPrimary n)) (CgStops evalPrec 2) e := (hb 2 (Nat.le_refl 2) hlo).1
  refine ⟨fun k hk hp => (hb k hk hp).1, fun k hk hk5 hp => (hb k hk hp).2 hk5, fun v hv rest hs => ?_, fun hv rest => ?_⟩
  · rw [constEvalCompare, h2.ok v hv rest (hs.stops _ _)]
    simp only [hs.2.1]
  · have hnot : ¬e.Half := by
      cases e with
      | cmp => simp only [CgExpr.prec] at hlo; omega
      | _ => exact id
    refine ⟨e.tokens ++ rest, ?_, by simp [hnot]⟩
    have hf := h2.fail hv rest
    rw [constEvalCompare]
    split
    · rfl
    case h_2 heq =>
      rw [heq] at hf
      cases hf

theorem evals_prim (hp : e.prec evalPrec = 6) (h : EvalReads (evalPrimary n) (CgStops evalPrec 6) e) : Evals n e :=
  evals_of_reads hp.symm (by omega) (Nat.le_refl 6) (fun h => absurd h (by omega)) h

theorem evals_bin (hl : Evals n l) (hr : ∀ a, l.value = some a → Evals n r) (hlp : evalPrec op ≤ l.prec evalPrec)
    (hrp : evalPrec op < r.prec evalPrec)
    (hdef : ∀ a b, l.value = some a → r.value = some b → op.apply a b ≠ none) : Evals n (.bin op l r) := by
  obtain ⟨hlo, hhi⟩ := evalPrec_bounds op
  have hloop : Evaluated (evalOpAt (evalPrec op)) (evalAt (evalPrimary n) (evalPrec op + 1))
      (CgStops evalPrec (evalPrec op + 1)) (.bin op l r) :=
    evaluated_bin (hl.loops _ hlo hhi hlp) (fun a ha => (hr a ha).reads _ (by omega) hrp) (evalOpAt_token op)
      (cgStops_token (Nat.lt_succ_self _)) hdef
  exact evals_of_reads (K := evalPrec op) rfl hlo (by omega) (fun _ => hloop) (reads_evalLevel hlo hhi hloop)

theorem cgCmpOp_token (cc : Cc) : cgCmpOp (cgCmpToken cc) = some cc := by
  cases cc <;> rfl

theorem cgStops_cmpToken (lv : BinOp → Nat) (cc : Cc) (k : Nat) : CgStops lv k (cgCmpToken cc) := by
  intro op ho
  cases cc <;> cases ho

theorem tokens_cmp (cc : Cc) (l r : CgExpr) (rest : List CgToken) :
    (CgExpr.cmp cc l r).tokens ++ rest = l.tokens ++ cgCmpToken cc :: (r.tokens ++ rest) := by
  simp [CgExpr.tokens]

theorem tokens_paren (e : CgExpr) (rest : List CgToken) :
    (CgExpr.paren e).tokens ++ rest = .lparen :: (e.tokens ++ .rparen :: rest) := by
  simp [CgExpr.tokens]

theorem cgCur_cons (t : CgToken) (ts : List CgToken) : cgCur (t :: ts) = t := rfl

/-- **A comparison forgets its left operand where its right one has no value.** -/
theorem evals_cmp {cc : Cc} (hl : Evals n l) (hr : l.value ≠ none → Evals n r) (hlp : 1 < l.prec evalPrec)
    (hrp : 1 < r.prec evalPrec) : Evals n (.cmp cc l r) := by
  have hbad {k : Nat} (hk : 2 ≤ k) (hp : k ≤ (CgExpr.cmp cc l r).prec evalPrec) : False := by
    simp only [CgExpr.prec] at hp
    omega
  refine ⟨fun k hk hp => (hbad hk hp).elim, fun k hk _ hp => (hbad hk hp).elim, fun v hv rest hs => ?_, fun hv rest => ?_⟩
  · obtain ⟨a, ha, hv⟩ := Option.bind_eq_some_iff.1 hv
    obtain ⟨b, hb, rfl⟩ := Option.map_eq_some_iff.1 hv
    have hl2 : EvalReads (constEvalBitwise (evalPrimary n)) _ l := hl.reads 2 (Nat.le_refl 2) hlp
    have hr2 : EvalReads (constEvalBitwise (evalPrimary n)) _ r :=
      (hr (ha ▸ Option.some_ne_none a)).reads 2 (Nat.le_refl 2) hrp
    rw [constEvalCompare, tokens_cmp, hl2.ok a ha _ (cgStops_cmpToken _ cc 2)]
    simp only [cgCur_cons, cgCmpOp_token, List.tail_cons, hr2.ok b hb rest (hs.stops _ _)]
  · have hl2 : EvalReads (constEvalBitwise (evalPrimary n)) _ l := hl.reads 2 (Nat.le_refl 2) hlp
    rw [tokens_cmp]
    cases ha : l.value with
    | none =>
      have hf := hl2.fail ha (cgCmpToken cc :: (r.tokens ++ rest))
      refine ⟨_, ?_, iff_of_true rfl fun h => h.1 ha⟩
      rw [constEvalCompare]
      split
      · rfl
      case h_2 heq =>
        rw [heq] at hf
        cases hf
    | some a =>
      have hb : r.value = none := by
        cases hb : r.value with
        | none => rfl
        | some b =>
          rw [CgExpr.value, ha, hb] at hv
          cases hv
      have hr2 : EvalReads (constEvalBitwise (evalPrimary n)) _ r :=
        (hr (ha ▸ Option.some_ne_none a)).reads 2 (Nat.le_refl 2) hrp
      have hf := hr2.fail hb rest
      refine ⟨cgCmpToken cc :: (r.tokens ++ rest), ?_, iff_of_false (fun h => ?_) fun h => ?_⟩
      · rw [constEvalCompare, hl2.ok a ha _ (cgStops_cmpToken _ cc 2)]
        simp only [cgCur_cons, cgCmpOp_token, List.tail_cons]
        split
        · rfl
        case h_2 heq =>
          rw [heq] at hf
          cases hf
      · have hlen := congrArg List.length h
        have hpos : l.tokens ≠ [] := by cases l <;> simp [CgExpr.tokens]
        have := List.length_pos_iff.2 hpos
        simp only [List.length_append, List.length_cons] at hlen
        omega
      · exact h ⟨ha ▸ Option.some_ne_none a, hb⟩

theorem cgStops_rparen : CgStopsExpr .rparen := ⟨rfl, rfl, rfl⟩

theorem cgStops_eof : CgStopsExpr .eof := ⟨rfl, rfl, rfl⟩

theorem evalReads_paren (he : Evals n e) : EvalReads (evalPrimary (n + 1)) stop (.paren e) where
  ok v hv rest _ := by
    rw [tokens_paren]
    show constEvalPrimary _ _ _ = _
    simp only [constEvalPrimary, cgCur_cons, List.tail_cons, he.ok v hv (.rparen :: rest) cgStops_rparen,
      cgConsume, if_true]
  fail hv rest := by
    obtain ⟨ts, hts, -⟩ := he.fail hv (.rparen :: rest)
    rw [tokens_paren]
    show (constEvalPrimary _ _ _).1 = _
    simp only [constEvalPrimary, cgCur_cons, List.tail_cons, hts]

theorem evalReads_unary (uop : CgUnOp) (hp : e.prec evalPrec = 6) (he : Evals n e) :
    EvalReads (evalPrimary (n + 1)) (CgStops evalPrec 6) (.unary uop e) := by
  have h6 : EvalReads (evalPrimary n) (CgStops evalPrec 6) e := he.reads 6 (by omega) (by omega)
  refine ⟨fun v hv rest hs => ?_, fun hv rest => ?_⟩
  · obtain ⟨w, hw, rfl⟩ := Option.map_eq_some_iff.1 hv
    have := h6.ok w hw rest hs
    show constEvalPrimary _ _ (uop.token :: (e.tokens ++ rest)) = _
    cases uop <;> simp only [constEvalPrimary, cgCur_cons, CgUnOp.token, List.tail_cons, this, CgUnOp.apply]
  · have hf := h6.fail (Option.map_eq_none_iff.1 hv) rest
    obtain ⟨ts, hts⟩ : ∃ ts, evalPrimary n (e.tokens ++ rest) = (none, ts) := ⟨_, Prod.ext hf rfl⟩
    show (constEvalPrimary _ _ (uop.token :: (e.tokens ++ rest))).1 = _
    cases uop <;> simp only [constEvalPrimary, cgCur_cons, CgUnOp.token, List.tail_cons, hts]

/-- **The evaluator, on every tree.** -/
theorem evals (e : CgExpr) (hw : e.Wf evalPrec) (hd : e.Defined) : ∀ n, e.tokens.length ≤ n → Evals n e := by
  induction e with
  | num v | hex _ v =>
    rintro (_ | n) hn
    · simp [CgExpr.tokens] at hn
    · exact evals_prim rfl ⟨fun w hw rest _ => by rw [← hw]; rfl, fun h => nomatch h⟩
  | name x =>
    rintro (_ | n) hn
    · simp [CgExpr.tokens] at hn
    · exact evals_prim rfl ⟨fun w hw => (nomatch hw), fun _ _ => rfl⟩
  | paren e ih =>
    rintro (_ | n) hn
    · simp [CgExpr.tokens] at hn
    · simp only [CgExpr.tokens, List.length_cons, List.length_append] at hn
      exact evals_prim rfl (evalReads_paren (ih hw hd n (by omega)))
  | unary op e ih =>
    rintro (_ | n) hn
    · simp [CgExpr.tokens] at hn
    · simp only [CgExpr.tokens, List.length_cons] at hn
      exact evals_prim rfl (evalReads_unary op hw.1 (ih hw.2 hd n (by omega)))
  | bin op l r ihl ihr =>
    intro n hn
    simp only [CgExpr.tokens, List.length_cons, List.length_append] at hn
    exact evals_bin (ihl hw.2.2.1 hd.1 n (by omega))
      (fun a ha => ihr hw.2.2.2 (hd.2 a ha).1 n (by omega)) hw.1 hw.2.1 fun a b ha hb => (hd.2 a ha).2 b hb
  | cmp cc l r ihl ihr =>
    intro n hn
    simp only [CgExpr.tokens, List.length_cons, List.length_append] at hn
    exact evals_cmp (ihl hw.2.2.1 hd.1 n (by omega)) (fun hl => ihr hw.2.2.2 (hd.2 hl) n (by omega)) hw.1 hw.2.1

/-- **The evaluator gives the value of a constant expression, with its tokens consumed; where there is none,
it stands at the start again, unless a constant is compared with something that is none.** -/
theorem constEval_tokens (hw : e.Wf evalPrec) (hd : e.Defined) (rest : List CgToken) :
    (∀ v, e.value = some v → CgStopsExpr (cgCur rest) → constEval (e.tokens ++ rest) = (some v, rest)) ∧
      (e.value = none → ∃ ts, constEval (e.tokens ++ rest) = (none, ts) ∧ (ts = e.tokens ++ rest ↔ ¬e.Half)) := by
  have h := evals e hw hd ((e.tokens ++ rest).length + 1) (by simp; omega)
  exact ⟨fun v hv hs => h.ok v hv rest hs, fun hv => h.fail hv rest⟩

end WuBuOS.Jit
