import Mathlib.Data.Int.NatAbs
import Mathlib.Data.List.Basic

/-!
# Runs of a labelled step relation

A component with operations is, for the purposes of a proof, a relation `step s a t`: operation
`a`, performed in state `s`, may lead to state `t`.  A *run* is a list of operations performed one
after the other, and what is worth proving about a component is nearly always of the form "after
every run, …".  This file packages the one induction such a proof needs.

* `Runs.Run step s ops t` says that performing `ops` in order leads from `s` to `t`.
* `Runs.guarded step ok` restricts a step relation to the steps that meet a condition on the
  state they start from and on their operation.  A run of the guarded relation is a run all of
  whose steps meet the condition.
* `Runs.Run.invariant` is the induction: what the start has and every step keeps, the end has.
* `Runs.replay` performs a run with a step function that may fail, and `Runs.run_of_replay` turns
  the outcome into a run.
* `Runs.Each` says of a component given by a step *function* that every step of a run meets a
  condition, and `Runs.Each.invariant` is the same induction for it.
-/

namespace Runs

universe u v

variable {σ : Type u} {ω : Type v}

/-- Performing the operations `ops` in order leads from the first state to the last. -/
inductive Run (step : σ → ω → σ → Prop) : σ → List ω → σ → Prop
  /-- The empty run stays where it is. -/
  | nil (s : σ) : Run step s [] s
  /-- One operation, and then the rest. -/
  | cons {s t u : σ} {a : ω} {ops : List ω} (h : step s a t) (hr : Run step t ops u) :
      Run step s (a :: ops) u

/-- The steps of `step` whose operation, in the state it starts from, meets the condition `ok`. -/
def guarded (ok : σ → ω → Prop) (step : σ → ω → σ → Prop) (s : σ) (a : ω) (t : σ) : Prop :=
  ok s a ∧ step s a t

variable {step : σ → ω → σ → Prop} {s t u : σ} {ops : List ω}

/-- **The invariant rule**: what holds at the start and survives every step holds at the end. -/
theorem Run.invariant (I : σ → Prop) (hstep : ∀ s a t, step s a t → I s → I t)
    (h : Run step s ops t) (hs : I s) : I t := by
  induction h with
  | nil => exact hs
  | cons h _ ih => exact ih (hstep _ _ _ h hs)

/-- Weakening the step relation keeps the runs. -/
theorem Run.mono {step' : σ → ω → σ → Prop} (hstep : ∀ s a t, step s a t → step' s a t)
    (h : Run step s ops t) : Run step' s ops t := by
  induction h with
  | nil s => exact .nil s
  | cons h _ ih => exact .cons (hstep _ _ _ h) ih

/-- Two conditions that agree on the steps that can be taken allow the same runs. -/
theorem run_guarded_congr {ok ok' : σ → ω → Prop} (h : ∀ s a t, step s a t → (ok s a ↔ ok' s a)) :
    Run (guarded ok step) s ops t ↔ Run (guarded ok' step) s ops t :=
  ⟨Run.mono fun s a t hg => ⟨(h s a t hg.2).1 hg.1, hg.2⟩, Run.mono fun s a t hg => ⟨(h s a t hg.2).2 hg.1, hg.2⟩⟩

theorem Run.append {ops' : List ω} (h : Run step s ops t) (h' : Run step t ops' u) : Run step s (ops ++ ops') u := by
  induction h with
  | nil => exact h'
  | cons h _ ih => exact .cons h (ih h')

theorem Run.single {a : ω} (h : step s a t) : Run step s [a] t := .cons h (.nil t)

/-- Perform the operations with a step function that may fail, checking each first. -/
def replay (ok : σ → ω → Prop) [∀ s a, Decidable (ok s a)] (f : σ → ω → Option σ) :
    σ → List ω → Option σ
  | s, [] => some s
  | s, a :: ops => if ok s a then (f s a).bind fun t => replay ok f t ops else none

/-- What has been replayed is a run. -/
theorem run_of_replay {ok : σ → ω → Prop} [∀ s a, Decidable (ok s a)] {f : σ → ω → Option σ} :
    ∀ {ops : List ω} {s t : σ}, replay ok f s ops = some t → Run (guarded ok fun s a t => f s a = some t) s ops t
  | [], s, t, h => Option.some.inj h ▸ .nil s
  | a :: ops, s, t, h => by
    rw [replay] at h
    split at h
    · obtain ⟨u, hu, h⟩ := Option.bind_eq_some_iff.1 h
      exact .cons ⟨‹_›, hu⟩ (run_of_replay h)
    · cases h

/-- Every operation of the run of `ops` from `s` under the step function `f` has the property `P`
in the state it is performed in. -/
def Each (f : σ → ω → σ) (P : σ → ω → Prop) : σ → List ω → Prop
  | _, [] => True
  | s, a :: ops => P s a ∧ Each f P (f s a) ops

/-- A property that can be checked of a step can be checked of a run. -/
instance Each.decidable (f : σ → ω → σ) (P : σ → ω → Prop) [∀ s a, Decidable (P s a)] :
    ∀ (s : σ) (ops : List ω), Decidable (Each f P s ops)
  | _, [] => inferInstanceAs (Decidable True)
  | s, a :: ops =>
    have := Each.decidable f P (f s a) ops
    inferInstanceAs (Decidable (P s a ∧ Each f P (f s a) ops))

variable {f : σ → ω → σ} {P Q : σ → ω → Prop}

/-- Two properties that agree on every single step, given an invariant that the steps with the first keep,
agree on runs. -/
theorem each_iff (I : σ → Prop) (hI : ∀ s a, I s → P s a → I (f s a)) (h : ∀ s a, I s → (P s a ↔ Q s a)) :
    ∀ (s : σ) (ops : List ω), I s → (Each f P s ops ↔ Each f Q s ops)
  | _, [], _ => Iff.rfl
  | s, a :: ops, hs => by
    have hstep := h s a hs
    exact ⟨fun he => ⟨hstep.1 he.1, (each_iff I hI h _ ops (hI s a hs he.1)).1 he.2⟩,
      fun he => ⟨hstep.2 he.1, (each_iff I hI h _ ops (hI s a hs (hstep.2 he.1))).2 he.2⟩⟩

/-- The invariant rule for a step function, under a condition on every step. -/
theorem Each.invariant (I : σ → Prop) (hI : ∀ s a, I s → P s a → I (f s a)) :
    ∀ (s : σ) (ops : List ω), I s → Each f P s ops → I (ops.foldl f s)
  | _, [], hs, _ => hs
  | s, a :: ops, hs, he => Each.invariant I hI (f s a) ops (hI s a hs he.1) he.2

/-- The same induction, for a property of the steps. -/
theorem Each.steps (I : σ → Prop) (hI : ∀ s a, I s → P s a → I (f s a)) (hQ : ∀ s a, I s → P s a → Q s a) :
    ∀ (s : σ) (ops : List ω), I s → Each f P s ops → Each f Q s ops
  | _, [], _, _ => trivial
  | s, a :: ops, hs, he => ⟨hQ s a hs he.1, Each.steps I hI hQ (f s a) ops (hI s a hs he.1) he.2⟩

theorem each_and : ∀ {s : σ} {ops : List ω}, Each f (fun s a => P s a ∧ Q s a) s ops ↔ Each f P s ops ∧ Each f Q s ops
  | _, [] => ⟨fun _ => ⟨trivial, trivial⟩, fun _ => trivial⟩
  | _, _ :: _ => (and_congr_right fun _ => each_and).trans and_and_and_comm

/-- Performing the operations one after the other is a run. -/
theorem run_foldl (f : σ → ω → σ) : ∀ (s : σ) (ops : List ω), Run (fun s a t => f s a = t) s ops (ops.foldl f s)
  | s, [] => .nil s
  | s, a :: ops => .cons rfl (run_foldl f (f s a) ops)

/-- It is a guarded run if every operation has the property. -/
theorem Each.run : ∀ {s : σ} {ops : List ω}, Each f P s ops →
    Run (guarded P fun s a t => f s a = t) s ops (ops.foldl f s)
  | s, [], _ => .nil s
  | _, _ :: _, h => .cons ⟨h.1, rfl⟩ h.2.run

end Runs
