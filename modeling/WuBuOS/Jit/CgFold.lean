import WuBuOS.Jit.CgNested

/-!
# Folding against generating

An expression that the evaluator can compute is not compiled at all, so the value has to be the one that the
code would have computed; and an expression that it cannot compute is compiled from where the evaluator has
left the tokens.

`folding_agrees` says when this is so.  The evaluator loses its place exactly where a constant is compared
with something that is none.  A value is the same on both ways where the generator groups the operators like
the evaluator (`CgExpr.Gen`), and no operand is lost in its code (`Tidy`).
-/

namespace WuBuOS.Jit

open X86

variable {e : CgExpr} {v : BitVec 64} {dst : CgReg} {ρ : String → CgReg} {sc : CgScope}

/-- Where the evaluator succeeds, it has consumed what the generator consumes, and its value is what the code
computes; where it fails, it is back at its start. -/
def FoldAgrees (e : CgExpr) (dst : CgReg) : Prop :=
  ∀ rest, CgStopsExpr (cgCur rest) → ∀ cc : CgCompiler,
    (∀ v ts, constEval (e.tokens ++ rest) = (some v, ts) → ∃ sc c,
      cgCompileTokens cgCompileCompare dst (e.tokens ++ rest) cc = some (ts, ⟨sc, cc.code ++ c⟩) ∧
      ∀ s, ∃ s', cgRun c s = some s' ∧ s' dst = v) ∧
    ∀ ts, constEval (e.tokens ++ rest) = (none, ts) → ts = e.tokens ++ rest

/-- Where there is no name, none is to be placed. -/
theorem placed_of_names (h : e.names = []) : Placed ρ e sc := by
  induction e generalizing sc <;> simp_all [Placed, CgExpr.names]

/-- The code of a constant expression, in any state. -/
theorem gen_constant (hg : e.Gen) (ht : Tidy ρ dst e) (hv : e.value = some v) (s : Regs) :
    ∃ s', cgRun (e.gen dst sc) s = some s' ∧ s' dst = v := by
  have hnames := names_of_value hv
  refine gen_value hg (placed_of_names hnames) ht ?_ ?_ (eval_of_value hv : e.eval (fun x => s (ρ x)) = some v)
  · rw [hnames]
    exact fun x hx => nomatch hx
  · exact fun _ _ => rfl

theorem foldAgrees_of_value (hw : e.Wf evalPrec) (hd : e.Defined) (hv : e.value = some v) (hg : e.Gen)
    (ht : Tidy ρ dst e) : FoldAgrees e dst := by
  intro rest hs cc
  rw [(constEval_tokens hw hd rest).1 v hv hs]
  refine ⟨fun w ts h => ?_, fun ts h => nomatch congrArg Prod.fst h⟩
  obtain ⟨rfl, rfl⟩ : v = w ∧ rest = ts := by simpa using h
  exact ⟨_, _, compiles_compare hg dst rest cc hs, gen_constant hg ht hv⟩

theorem foldAgrees_iff (hw : e.Wf evalPrec) (hd : e.Defined) (hv : e.value = none) : FoldAgrees e dst ↔ ¬e.Half := by
  constructor
  · intro h
    obtain ⟨ts, hts, hsame⟩ := (constEval_tokens hw hd []).2 hv
    exact hsame.1 ((h [] cgStops_eof ⟨⟨[], 0⟩, []⟩).2 ts hts)
  · intro hhalf rest _ cc
    obtain ⟨ts, hts, hsame⟩ := (constEval_tokens hw hd rest).2 hv
    rw [hts]
    refine ⟨fun w _ h => (nomatch congrArg Prod.fst h), fun ts' h => ?_⟩
    exact (congrArg Prod.snd h).symm.trans (hsame.2 hhalf)

/-- **Folding agrees with generating**: without a value, exactly where the evaluator keeps its place; with a
value, where both group the operators in the same way and the code loses no operand. -/
theorem folding_agrees (hw : e.Wf evalPrec) (hd : e.Defined) (dst : CgReg) :
    (e.value = none → (FoldAgrees e dst ↔ ¬e.Half)) ∧
      (e.value ≠ none → e.Gen → Tidy cgArgReg dst e → FoldAgrees e dst) := by
  refine ⟨foldAgrees_iff hw hd, fun hv hg ht => ?_⟩
  obtain ⟨v, hv⟩ := Option.ne_none_iff_exists'.1 hv
  exact foldAgrees_of_value hw hd hv hg ht

/-- The expression `(7 - 3) * 4 << 2`. -/
def foldSample : CgExpr :=
  .bin .shl (.bin .star (.paren (.bin .minus (.num 7) (.num 3))) (.num 4)) (.num 2)

theorem folding_agrees_sample : FoldAgrees foldSample .r0 := by
  have hw : foldSample.Wf evalPrec := by simp [foldSample, CgExpr.Wf, CgExpr.prec, evalPrec]
  have hd : foldSample.Defined := by simp [foldSample, CgExpr.Defined, BinOp.apply]
  refine (folding_agrees hw hd .r0).2 (by simp [foldSample, CgExpr.value, BinOp.apply]) ?_ ?_
  · simp [foldSample, CgExpr.Gen, CgExpr.Wf, CgExpr.Defined, CgExpr.value, CgExpr.prec, evalPrec, genPrec,
      BinOp.IsShift, BinOp.apply]
  · simp [foldSample, Tidy, Apart, CgExpr.InPlace, CgExpr.names, CgExpr.Scratch, CgExpr.value,
      BinOp.IsShift, BinOp.apply]

/-- In `1 == a` the evaluator stays behind the 1; the value of `2 + 3 * 5` is 17, but its code computes
`2 + 5 * 5`. -/
theorem folding_fails : ¬FoldAgrees (.cmp .e (.num 1) (.name "a")) .r0 ∧
    ¬FoldAgrees (.bin .plus (.num 2) (.bin .star (.num 3) (.num 5))) .r0 := by
  constructor
  · intro h
    have hiff : FoldAgrees (.cmp .e (.num 1) (.name "a")) .r0 ↔ _ := foldAgrees_iff
      (by simp [CgExpr.Wf, CgExpr.prec]) (by simp [CgExpr.Defined]) rfl
    exact hiff.1 h ⟨by simp [CgExpr.value], rfl⟩
  · intro h
    let e : CgExpr := .bin .plus (.num 2) (.bin .star (.num 3) (.num 5))
    have hw : e.Wf evalPrec := by simp [e, CgExpr.Wf, CgExpr.prec, evalPrec]
    have hd : e.Defined := by simp [e, CgExpr.Defined, BinOp.apply]
    have hg : e.Gen := by simp [e, CgExpr.Gen, CgExpr.prec, genPrec, BinOp.IsShift]
    obtain ⟨sc, c, hc, hrun⟩ := (h [] cgStops_eof ⟨⟨[], 0⟩, []⟩).1 17 []
      ((constEval_tokens hw hd []).1 17 (by simp [e, CgExpr.value, BinOp.apply]) cgStops_eof)
    obtain rfl : e.gen .r0 ⟨[], 0⟩ = c := by
      have hc := (compiles_compare hg .r0 [] ⟨⟨[], 0⟩, []⟩ cgStops_eof).symm.trans hc
      simpa [CgCompiler.done] using congrArg (Option.map (·.2.code)) hc
    obtain ⟨s', hs', hv⟩ := hrun fun _ => 0
    have hcode : cgRun (e.gen .r0 ⟨[], 0⟩) (fun _ => 0) = some s' := hs'
    have h27 : (cgRun (e.gen .r0 ⟨[], 0⟩) fun _ => 0).map (· .r0) = some 27 := by decide
    rw [hcode, Option.map_some, hv] at h27
    exact absurd h27 (by decide)

end WuBuOS.Jit
