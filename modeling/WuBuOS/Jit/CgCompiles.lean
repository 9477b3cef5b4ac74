import WuBuOS.Jit.CgProgress

/-!
# The sources that the portable code generator compiles

A statement, the body of an `if` or a `while`, or a loop over statements is a task, and `Begins` leads from a task to
the ones it is made of.  A source is compiled exactly where every loop that is begun, or goes on, stands in front of a
token that a statement can begin with, or of its end (`compiles_iff`).

The table of variables has `CG_MAX_VARS` entries, and nothing looks whether there is room.
-/

namespace WuBuOS.Jit

open Option (bind_eq_some_iff)

variable {wasm : Bool} {n m k : Nat} {ts ts' : List CgToken} {u u' : CgUnit} {stmt stmt' body body' : CgStep}
  {ends : CgToken → Bool}

/-! ## Fuel -/

/-- What the one function gives back, the other one does too. -/
def Below (f g : CgStep) : Prop := ∀ ⦃ts u r⦄, f ts u = some r → g ts u = some r

theorem below_stmts (h : Below stmt stmt') : ∀ {k k' : Nat}, k ≤ k' → Below (cgStmts ends stmt k) (cgStmts ends stmt' k')
  | 0, _, _ => fun _ _ _ heq => nomatch heq
  | k + 1, 0, hk => absurd hk (Nat.not_succ_le_zero k)
  | k + 1, k' + 1, hk => by
    intro ts u r heq
    rw [cgStmts] at heq ⊢
    split at heq
    case isTrue he => rwa [if_pos he]
    case isFalse he =>
      obtain ⟨c, hc, hr⟩ := bind_eq_some_iff.1 heq
      rw [if_neg he]
      exact bind_eq_some_iff.2 ⟨c, h hc, below_stmts h (Nat.le_of_succ_le_succ hk) hr⟩

theorem below_body (h : Below stmt stmt') (hk : k ≤ m) : Below (cgBody stmt k) (cgBody stmt' m) := by
  intro ts u r heq
  rw [cgBody] at heq ⊢
  split at heq
  case isTrue he =>
    rw [if_pos he]
    obtain ⟨c, hc, hr⟩ := bind_eq_some_iff.1 heq
    exact bind_eq_some_iff.2 ⟨c, below_stmts h hk hc, hr⟩
  case isFalse he => rw [if_neg he]; exact h heq

theorem below_if (h : Below body body') : Below (cgCompileIfStmt wasm body) (cgCompileIfStmt wasm body') := by
  intro ts u r heq
  obtain ⟨c1, h1, heq⟩ := bind_eq_some_iff.1 heq
  obtain ⟨c2, h2, heq⟩ := bind_eq_some_iff.1 heq
  refine bind_eq_some_iff.2 ⟨c1, h1, bind_eq_some_iff.2 ⟨c2, h h2, ?_⟩⟩
  dsimp only at heq ⊢
  split at heq
  case h_1 =>
    obtain ⟨c3, h3, heq⟩ := bind_eq_some_iff.1 heq
    exact bind_eq_some_iff.2 ⟨c3, h h3, heq⟩
  case h_2 => exact heq

theorem below_while (h : Below body body') : Below (cgCompileWhileStmt wasm body) (cgCompileWhileStmt wasm body') := by
  intro ts u r heq
  obtain ⟨c1, h1, heq⟩ := bind_eq_some_iff.1 heq
  obtain ⟨c2, h2, heq⟩ := bind_eq_some_iff.1 heq
  exact bind_eq_some_iff.2 ⟨c1, h1, bind_eq_some_iff.2 ⟨c2, h h2, heq⟩⟩

theorem below_with (h : Below body body') : Below (cgStmtWith wasm body) (cgStmtWith wasm body') := by
  intro ts u r heq
  unfold cgStmtWith at heq ⊢
  split at heq
  case h_2 => exact below_if h heq
  case h_3 => exact below_while h heq
  all_goals exact heq

theorem below_succ : ∀ n, Below (cgCompileStmt wasm n) (cgCompileStmt wasm (n + 1))
  | 0 => fun _ _ _ h => nomatch h
  | n + 1 => below_with (below_body (below_succ n) (Nat.le_succ n))

/-- With more fuel nothing changes. -/
theorem below_stmt (h : n ≤ m) : Below (cgCompileStmt wasm n) (cgCompileStmt wasm m) := by
  induction h with
  | refl => exact fun _ _ _ h => h
  | step _ ih => exact fun _ _ _ h => below_succ _ (ih h)

/-! ## Tasks -/

abbrev CgConf := List CgToken × CgUnit

inductive CgTask where
  | stmt (c : CgConf)
  | body (c : CgConf)
  | stmts (ends : CgToken → Bool) (c : CgConf)

def CgTask.run (wasm : Bool) (n : Nat) : CgTask → Option CgConf
  | .stmt c => cgCompileStmt wasm n c.1 c.2
  | .body c => cgBody (cgCompileStmt wasm n) n c.1 c.2
  | .stmts ends c => cgStmts ends (cgCompileStmt wasm n) n c.1 c.2

/-- Where the task starts. -/
def CgTask.conf : CgTask → CgConf
  | .stmt c | .body c | .stmts _ c => c

/-- The number of variables. -/
def CgConf.vars (c : CgConf) : Nat := c.2.scope.vars.length

theorem shrinks_run : ∀ {T : CgTask} {c : CgConf}, T.run wasm n = some c →
    c.1.length ≤ T.conf.1.length ∧ T.conf.vars ≤ c.vars
  | .stmt _, _, h => shrinks_stmt n h
  | .body _, _, h => shrinks_body (shrinks_stmt n) n h
  | .stmts _ _, _, h => shrinks_stmts (shrinks_stmt n) n h

theorem run_mono (h : n ≤ m) : ∀ {T : CgTask} {c : CgConf}, T.run wasm n = some c → T.run wasm m = some c
  | .stmt _, _, heq => below_stmt h heq
  | .body _, _, heq => below_body (below_stmt h) h heq
  | .stmts _ _, _, heq => below_stmts (below_stmt h) h heq

variable {c c' : CgConf}

theorem run_unique {T : CgTask} (h : T.run wasm n = some c) (h' : T.run wasm m = some c') : c = c' :=
  Option.some.inj ((run_mono (Nat.le_max_left n m) h).symm.trans (run_mono (Nat.le_max_right n m) h'))

/-- The condition of an `if`, compiled. -/
def IfCond (c c' : CgConf) : Prop :=
  cgCur c.1 = .ifKw ∧ cgExprStep .r0 (cgSkip .lparen (cgSkip .ifKw c.1)) c.2 = some c'

/-- The condition of a `while`, compiled. -/
def WhileCond (wasm : Bool) (c c' : CgConf) : Prop :=
  cgCur c.1 = .whileKw ∧
    cgExprStep .r0 (cgSkip .lparen (cgSkip .whileKw c.1)) (c.2.emit (loopCode wasm)) = some c'

/-- The statement of an `if`, behind its condition. -/
def CgConf.thenPart (wasm : Bool) (c : CgConf) : CgConf := (cgSkip .rparen c.1, c.2.emit (condCode wasm))

/-- What one task leads to. -/
inductive Begins (wasm : Bool) : CgTask → CgTask → Prop
  | round {ends : CgToken → Bool} {c : CgConf} (h : ends (cgCur c.1) = false) : Begins wasm (.stmts ends c) (.stmt c)
  | next {ends : CgToken → Bool} {n : Nat} {c c' : CgConf} (h : ends (cgCur c.1) = false)
      (hrun : (CgTask.stmt c).run wasm n = some c') : Begins wasm (.stmts ends c) (.stmts ends c')
  | block {c : CgConf} (h : cgCur c.1 = .lbrace) :
      Begins wasm (.body c) (.stmts endsBlock (cgSkip .lbrace c.1, c.2))
  | single {c : CgConf} (h : cgCur c.1 ≠ .lbrace) : Begins wasm (.body c) (.stmt c)
  | thenBody {c c₁ : CgConf} (h : IfCond c c₁) : Begins wasm (.stmt c) (.body (c₁.thenPart wasm))
  | elseBody {n : Nat} {c c₁ c₂ : CgConf} {ts : List CgToken} (h : IfCond c c₁)
      (hrun : (CgTask.body (c₁.thenPart wasm)).run wasm n = some c₂) (helse : cgConsume .elseKw c₂.1 = some ts) :
      Begins wasm (.stmt c) (.body (ts, c₂.2.emit (elseCode wasm (c₁.2.calls.length + 1) c₂.2.calls.length)))
  | whileBody {c c₁ : CgConf} (h : WhileCond wasm c c₁) :
      Begins wasm (.stmt c) (.body (cgSkip .rparen c₁.1, c₁.2.emit (exitCode wasm)))

def cgMaxVars : Nat := 32

/-- A loop stands in front of its end or of a statement, and the variables fit into their table. -/
def Advances (ends : CgToken → Bool) (c : CgConf) : Prop :=
  (ends (cgCur c.1) = true ∨ (cgCur c.1).startsStmt = true) ∧ c.vars ≤ cgMaxVars

/-- The task comes to an end, with the variables in their table. -/
def Finishes (wasm : Bool) (T : CgTask) : Prop :=
  ∃ n c, T.run wasm n = some c ∧ c.vars ≤ cgMaxVars

/-! ## What has come to an end -/

theorem run_stmts (he : ends (cgCur c.1) = false) (h : (CgTask.stmts ends c).run wasm n = some c') :
    ∃ c1, (CgTask.stmt c).run wasm n = some c1 ∧ (CgTask.stmts ends c1).run wasm n = some c' := by
  cases n with
  | zero => cases h
  | succ k =>
    rw [CgTask.run, cgStmts, he, if_neg Bool.false_ne_true] at h
    obtain ⟨c1, h1, h2⟩ := bind_eq_some_iff.1 h
    exact ⟨c1, h1, below_stmts (fun _ _ _ h => h) (Nat.le_succ k) h2⟩

theorem run_block (hcur : cgCur c.1 = .lbrace) (h : (CgTask.body c).run wasm n = some c') :
    ∃ c1, (CgTask.stmts endsBlock (cgSkip .lbrace c.1, c.2)).run wasm n = some c1 ∧ c1.vars = c'.vars := by
  rw [CgTask.run, cgBody, if_pos hcur] at h
  obtain ⟨c1, h1, h2⟩ := bind_eq_some_iff.1 h
  cases h2
  exact ⟨c1, h1, rfl⟩

theorem run_if {c c1 c' : CgConf} (hc : IfCond c c1) (h : (CgTask.stmt c).run wasm n = some c') :
    ∃ c2, (CgTask.body (c1.thenPart wasm)).run wasm n = some c2 ∧ c2.vars ≤ c'.vars ∧
      ∀ ts, cgConsume .elseKw c2.1 = some ts → ∃ c3, (CgTask.body (ts, c2.2.emit
        (elseCode wasm (c1.2.calls.length + 1) c2.2.calls.length))).run wasm n = some c3 ∧ c3.vars ≤ c'.vars := by
  cases n with
  | zero => cases h
  | succ k =>
    have hmono : ∀ {T : CgTask} {d : CgConf}, T.run wasm k = some d → T.run wasm (k + 1) = some d :=
      run_mono (Nat.le_succ k)
    rw [CgTask.run, cgCompileStmt, cgStmtWith, hc.1] at h
    obtain ⟨c1', h1, h⟩ := bind_eq_some_iff.1 h
    obtain rfl : c1 = c1' := Option.some.inj (hc.2.symm.trans h1)
    obtain ⟨c2, h2, h⟩ := bind_eq_some_iff.1 h
    dsimp only at h
    split at h
    case h_1 ts3 hcons =>
      obtain ⟨c3, h3, h⟩ := bind_eq_some_iff.1 h
      cases h
      have hv : CgConf.vars c2 ≤ CgConf.vars c3 := (shrinks_body (shrinks_stmt k) k h3).2
      refine ⟨c2, hmono h2, hv, fun ts hts => ?_⟩
      obtain rfl : ts3 = ts := Option.some.inj (hcons.symm.trans hts)
      exact ⟨c3, hmono h3, Nat.le_refl _⟩
    case h_2 hcons =>
      cases h
      exact ⟨c2, hmono h2, Nat.le_refl _, fun ts hts => absurd (hts.symm.trans hcons) (Option.some_ne_none _)⟩

theorem run_while {c c1 c' : CgConf} (hc : WhileCond wasm c c1) (h : (CgTask.stmt c).run wasm n = some c') :
    ∃ c2, (CgTask.body (cgSkip .rparen c1.1, c1.2.emit (exitCode wasm))).run wasm n = some c2 ∧ c2.vars ≤ c'.vars := by
  cases n with
  | zero => cases h
  | succ k =>
    rw [CgTask.run, cgCompileStmt, cgStmtWith, hc.1] at h
    obtain ⟨c1', h1, h⟩ := bind_eq_some_iff.1 h
    obtain rfl : c1 = c1' := Option.some.inj (hc.2.symm.trans h1)
    obtain ⟨c2, h2, h⟩ := bind_eq_some_iff.1 h
    cases h
    exact ⟨c2, below_body (below_succ k) (Nat.le_succ k) h2, Nat.le_refl _⟩

/-- What a task leads to, comes to an end before it. -/
theorem Finishes.begins {T T' : CgTask} (h : Finishes wasm T) (hb : Begins wasm T T') : Finishes wasm T' := by
  obtain ⟨n, c', hrun, hv⟩ := h
  cases hb with
  | round he =>
    obtain ⟨c1, h1, h2⟩ := run_stmts he hrun
    exact ⟨n, c1, h1, Nat.le_trans (shrinks_run h2).2 hv⟩
  | next he hm =>
    obtain ⟨c1, h1, h2⟩ := run_stmts he hrun
    obtain rfl := run_unique h1 hm
    exact ⟨n, c', h2, hv⟩
  | block hcur =>
    obtain ⟨c1, h1, hv1⟩ := run_block hcur hrun
    exact ⟨n, c1, h1, hv1 ▸ hv⟩
  | single hcur =>
    rw [CgTask.run, cgBody, if_neg hcur] at hrun
    exact ⟨n, c', hrun, hv⟩
  | thenBody hc =>
    obtain ⟨c2, h2, hv2, -⟩ := run_if hc hrun
    exact ⟨n, c2, h2, Nat.le_trans hv2 hv⟩
  | elseBody hc hm helse =>
    obtain ⟨c2, h2, -, hthen⟩ := run_if hc hrun
    obtain rfl := run_unique h2 hm
    obtain ⟨c3, h3, hv3⟩ := hthen _ helse
    exact ⟨n, c3, h3, Nat.le_trans hv3 hv⟩
  | whileBody hc =>
    obtain ⟨c2, h2, hv2⟩ := run_while hc hrun
    exact ⟨n, c2, h2, Nat.le_trans hv2 hv⟩

/-- A loop that is stuck does the same again. -/
theorem stuck_runs (k : Nat) : ∀ (ts : List CgToken) (u : CgUnit), ends (cgCur ts) = false →
    (cgCur ts).startsStmt = false → cgStmts ends (cgCompileStmt wasm n) k ts u = none := by
  induction k with
  | zero => exact fun _ _ _ _ => rfl
  | succ k ih =>
    intro ts u he hs
    rw [cgStmts, he, if_neg Bool.false_ne_true, Option.bind_eq_bind, Option.bind_eq_none_iff]
    rintro ⟨ts', u'⟩ h1
    have ha := stmt_advance h1
    rw [Advance, hs, if_neg Bool.false_ne_true] at ha
    subst ha
    exact ih ts' u' he hs

theorem Finishes.advances (h : Finishes wasm (.stmts ends c)) : Advances ends c := by
  obtain ⟨n, c', hrun, hv⟩ := h
  refine ⟨?_, Nat.le_trans (shrinks_run hrun).2 hv⟩
  by_contra hne
  rw [not_or, Bool.not_eq_true, Bool.not_eq_true] at hne
  have hnone : cgStmts ends (cgCompileStmt wasm n) n c.1 c.2 = none := stuck_runs n c.1 c.2 hne.1 hne.2
  cases hrun.symm.trans hnone

/-! ## What comes to an end -/

theorem expr_runs (dst : CgReg) (ts : List CgToken) (u : CgUnit) : ∃ c, cgExprStep dst ts u = some c := by
  obtain ⟨ts', u', h, -⟩ := cgExprStep_moves dst ts u
  exact ⟨(ts', u'), h⟩

theorem decl_runs (ts : List CgToken) (u : CgUnit) : ∃ c, cgCompileDeclStmt ts u = some c := by
  simp only [cgCompileDeclStmt]
  split
  · split
    · exact expr_runs _ _ _
    · exact ⟨_, rfl⟩
  · exact ⟨_, rfl⟩

theorem assign_runs (ts : List CgToken) (u : CgUnit) : ∃ c, cgCompileAssignStmt ts u = some c := by
  rw [cgCompileAssignStmt]
  split
  · exact expr_runs _ _ _
  · exact ⟨_, rfl⟩

/-- Every statement without a condition is compiled. -/
theorem simple_runs (hi : cgCur ts ≠ .ifKw) (hw : cgCur ts ≠ .whileKw) (body : CgStep) :
    ∃ c, cgStmtWith wasm body ts u = some c := by
  unfold cgStmtWith
  split
  case h_1 =>
    obtain ⟨c, hc⟩ := expr_runs .r0 (cgSkip .returnKw ts) u
    simp [cgCompileReturnStmt, hc]
  case h_2 hcur => exact absurd hcur hi
  case h_3 hcur => exact absurd hcur hw
  case h_4 =>
    obtain ⟨c, hc⟩ := decl_runs ts u
    simp [hc]
  case h_5 =>
    obtain ⟨c, hc⟩ := assign_runs ts u
    obtain ⟨d, hd⟩ := expr_runs .r9 ts u
    split
    · simp [hc]
    · simp [hd]
  case h_6 =>
    obtain ⟨d, hd⟩ := expr_runs .r9 ts u
    simp [hd]

theorem if_runs {c c1 c2 : CgConf} (hc : IfCond c c1) (h2 : (CgTask.body (c1.thenPart wasm)).run wasm n = some c2)
    (helse : ∀ ts, cgConsume .elseKw c2.1 = some ts → ∃ m c3, (CgTask.body (ts, c2.2.emit
      (elseCode wasm (c1.2.calls.length + 1) c2.2.calls.length))).run wasm m = some c3) :
    ∃ n c', (CgTask.stmt c).run wasm n = some c' := by
  cases hcons : cgConsume .elseKw c2.1 with
  | none =>
    refine ⟨n + 1, (c2.1, c2.2.emit (endCode wasm (c1.2.calls.length + 1) c2.2.calls.length)), ?_⟩
    rw [CgTask.run, cgCompileStmt, cgStmtWith, hc.1]
    exact bind_eq_some_iff.2 ⟨c1, hc.2, bind_eq_some_iff.2 ⟨c2, h2, by simp only [hcons]⟩⟩
  | some ts =>
    obtain ⟨m, c3, h3⟩ := helse ts hcons
    refine ⟨max n m + 1, (c3.1, c3.2.emit (endCode wasm c2.2.calls.length c3.2.calls.length)), ?_⟩
    rw [CgTask.run, cgCompileStmt, cgStmtWith, hc.1]
    refine bind_eq_some_iff.2 ⟨c1, hc.2, bind_eq_some_iff.2
      ⟨c2, run_mono (Nat.le_max_left n m) h2, ?_⟩⟩
    simp only [hcons]
    exact bind_eq_some_iff.2 ⟨c3, run_mono (Nat.le_max_right n m) h3, rfl⟩

theorem while_runs {c c1 c2 : CgConf} (hc : WhileCond wasm c c1)
    (h2 : (CgTask.body (cgSkip .rparen c1.1, c1.2.emit (exitCode wasm))).run wasm n = some c2) :
    ∃ n c', (CgTask.stmt c).run wasm n = some c' := by
  refine ⟨n + 1, (c2.1, c2.2.emit (backCode wasm (c.2.emit (loopCode wasm)).calls.length
    (c1.2.calls.length + 1) c2.2.calls.length)), ?_⟩
  rw [CgTask.run, cgCompileStmt, cgStmtWith, hc.1]
  exact bind_eq_some_iff.2 ⟨c1, hc.2, bind_eq_some_iff.2 ⟨c2, h2, rfl⟩⟩

/-- A body is more than a loop, and a loop is more than a statement. -/
def CgTask.size : CgTask → Nat
  | .stmt c => 3 * c.1.length
  | .stmts _ c => 3 * c.1.length + 1
  | .body c => 3 * c.1.length + 2

/-- Where no loop gets stuck, everything comes to an end. -/
theorem runs_of_advances : ∀ (m : Nat) (T : CgTask), T.size < m →
    (∀ ends c, Relation.ReflTransGen (Begins wasm) T (.stmts ends c) → Advances ends c) →
    ∃ n c, T.run wasm n = some c := by
  intro m
  induction m with
  | zero => exact fun _ h => absurd h (Nat.not_lt_zero _)
  | succ m ih =>
    intro T hsize hall
    have hsub : ∀ T', Begins wasm T T' → T'.size < T.size → ∃ n c, T'.run wasm n = some c :=
      fun T' hb hlt => ih T' (by omega) fun ends c h => hall ends c (.head hb h)
    cases T with
    | stmts ends c =>
      cases he : ends (cgCur c.1) with
      | true => exact ⟨1, c, by rw [CgTask.run, cgStmts, he, if_pos rfl]⟩
      | false =>
        obtain ⟨n1, c1, h1⟩ := hsub (.stmt c) (.round he) (Nat.lt_succ_self _)
        have hs : (cgCur c.1).startsStmt = true :=
          (hall ends c .refl).1.resolve_left (by rw [he]; exact Bool.false_ne_true)
        have hlt : c1.1.length < c.1.length := by
          have ha := stmt_advance h1
          rwa [Advance, if_pos hs] at ha
        obtain ⟨n2, c2, h2⟩ := hsub (.stmts ends c1) (.next he h1) (by simp only [CgTask.size]; omega)
        refine ⟨max n1 n2 + 1, c2, ?_⟩
        rw [CgTask.run, cgStmts, he, if_neg Bool.false_ne_true]
        exact bind_eq_some_iff.2 ⟨c1, below_stmt (by omega) h1,
          below_stmts (below_stmt (by omega)) (by omega) h2⟩
    | body c =>
      by_cases hcur : cgCur c.1 = .lbrace
      · have hlt : (cgSkip .lbrace c.1).length < c.1.length := by
          rw [cgSkip_of_eq hcur]
          exact tail_lt (by rw [hcur]; rintro ⟨⟩)
        obtain ⟨n, c1, h1⟩ := hsub _ (.block hcur) (by simp only [CgTask.size]; omega)
        refine ⟨n, (cgSkip .rbrace c1.1, c1.2), ?_⟩
        rw [CgTask.run, cgBody, if_pos hcur]
        exact bind_eq_some_iff.2 ⟨c1, h1, rfl⟩
      · obtain ⟨n, c1, h1⟩ := hsub _ (.single hcur) (by simp only [CgTask.size]; omega)
        exact ⟨n, c1, by rw [CgTask.run, cgBody, if_neg hcur]; exact h1⟩
    | stmt c =>
      by_cases hi : cgCur c.1 = .ifKw
      · obtain ⟨c1, hc1⟩ := expr_runs .r0 (cgSkip .lparen (cgSkip .ifKw c.1)) c.2
        obtain ⟨hlt, -⟩ := cond_shrinks hi (by rintro ⟨⟩) hc1
        obtain ⟨n, c2, h2⟩ := hsub _ (.thenBody ⟨hi, hc1⟩) (by simp only [CgTask.size, CgConf.thenPart]; omega)
        refine if_runs ⟨hi, hc1⟩ h2 fun ts hts => hsub _ (.elseBody ⟨hi, hc1⟩ h2 hts) ?_
        have hle : c2.1.length ≤ (cgSkip .rparen c1.1).length := (shrinks_run h2).1
        have htail : ts.length ≤ c2.1.length := by rw [(cgConsume_some hts).2]; simp
        simp only [CgTask.size]
        omega
      · by_cases hw : cgCur c.1 = .whileKw
        · obtain ⟨c1, hc1⟩ := expr_runs .r0 (cgSkip .lparen (cgSkip .whileKw c.1)) (c.2.emit (loopCode wasm))
          obtain ⟨hlt, -⟩ := cond_shrinks hw (by rintro ⟨⟩) hc1
          obtain ⟨n, c2, h2⟩ := hsub _ (.whileBody ⟨hw, hc1⟩) (by simp only [CgTask.size]; omega)
          exact while_runs ⟨hw, hc1⟩ h2
        · exact ⟨1, simple_runs hi hw (cgBody (cgCompileStmt wasm 0) 0)⟩

/-- Where a loop ends, it has been on the way. -/
theorem stmts_reach (k : Nat) : ∀ {c c' : CgConf}, cgStmts ends (cgCompileStmt wasm n) k c.1 c.2 = some c' →
    Relation.ReflTransGen (Begins wasm) (.stmts ends c) (.stmts ends c') := by
  induction k with
  | zero => exact fun h => nomatch h
  | succ k ih =>
    intro c c' h
    rw [cgStmts] at h
    split at h
    case isTrue =>
      cases h
      exact .refl
    case isFalse he =>
      obtain ⟨c1, h1, h2⟩ := bind_eq_some_iff.1 h
      exact .head (.next (Bool.eq_false_iff.2 he) h1) (ih h2)

/-- The loop of `jit_minic_compile_cg`, where it starts. -/
def cgWhole (src : List Char) : CgTask := .stmts endsSource (cgTokens src, cgStart)

/-- `jit_minic_compile_cg` comes back, with the variables in their table. -/
def Compiles (wasm : Bool) (src : List Char) : Prop :=
  ∃ n u, jitMinicCompileCg wasm n src = some u ∧ u.scope.vars.length ≤ cgMaxVars

theorem compiles_finishes {src : List Char} : Compiles wasm src ↔ Finishes wasm (cgWhole src) := by
  constructor
  · rintro ⟨n, u, h, hv⟩
    obtain ⟨c, hc, h⟩ := bind_eq_some_iff.1 h
    cases h
    exact ⟨n, c, hc, hv⟩
  · rintro ⟨n, c, hc, hv⟩
    exact ⟨n, c.2.emit [.epilogue 8], bind_eq_some_iff.2 ⟨c, hc, rfl⟩, hv⟩

/-- **What is compiled**: a round of a loop that comes to its end has consumed a token unless the statement begins with
one of the six, and the whole comes to its end exactly where no loop stands in front of such a token. -/
theorem compiles_iff (wasm : Bool) (src : List Char) :
    (∀ n ts u ts' u', cgCompileStmt wasm n ts u = some (ts', u') → cgCur ts ≠ .eof →
      (ts'.length < ts.length ↔ (cgCur ts).stuck = false)) ∧
    (Compiles wasm src ↔ ∀ ends c, Relation.ReflTransGen (Begins wasm) (cgWhole src) (.stmts ends c) →
      Advances ends c) := by
  constructor
  · intro n ts u ts' u' h hne
    have ha := stmt_advance h
    have hs : (cgCur ts).startsStmt = !(cgCur ts).stuck := by simp [CgToken.startsStmt, hne]
    rw [Advance, hs] at ha
    cases hstuck : (cgCur ts).stuck with
    | true =>
      obtain rfl : ts' = ts := by simpa [hstuck] using ha
      simp
    | false => simpa [hstuck] using ha
  · rw [compiles_finishes]
    constructor
    · intro h ends c hr
      have hf : Finishes wasm (.stmts ends c) := by
        generalize hT : CgTask.stmts ends c = T at hr
        clear hT
        induction hr with
        | refl => exact h
        | tail _ hb ih => exact ih.begins hb
      exact hf.advances
    · intro hall
      obtain ⟨n, c, hrun⟩ := runs_of_advances _ (cgWhole src) (Nat.lt_succ_self _) hall
      exact ⟨n, c, hrun, (hall endsSource c (stmts_reach n hrun)).2⟩

/-- With one parenthesis too many, the loop does not end. -/
theorem paren_hangs : ¬Compiles false "a);".toList ∧ ¬Compiles true ")".toList := by
  constructor
  · intro h
    have hnext : ∃ u, (CgTask.stmt (cgTokens "a);".toList, cgStart)).run false 1 = some ([.rparen, .semi], u) :=
      ⟨_, rfl⟩
    obtain ⟨u, hu⟩ := hnext
    have hbegins : Begins false (cgWhole "a);".toList) (.stmts endsSource ([.rparen, .semi], u)) :=
      .next (by decide) hu
    exact absurd ((compiles_finishes.1 h).begins hbegins).advances.1
      (show ¬(endsSource .rparen = true ∨ CgToken.rparen.startsStmt = true) by decide)
  · exact fun h => absurd (compiles_finishes.1 h).advances.1 (by decide)

end WuBuOS.Jit
