import Mathlib.Data.Int.NatAbs
import Mathlib.Algebra.Order.BigOperators.Group.Finset
import Mathlib.Data.Nat.Dist

/-!
# Serving the least first

A family of numbers, and a rule: at each step one that is least among them goes up by some amount.
This is what a deadline scheduler, a virtual-clock queue and a merge of sorted streams have in
common, and two facts about it carry all of them.

* `dist_serve_le`: the distance between any two of the numbers never exceeds the larger of what it
  was and the amount of the step.  Serving the least one can overshoot, but only by the step.
* `waiting_serve_lt`: with steps of at least one, the total by which the others are behind a given
  number goes down each time it is not the one served, so it is served before long.
-/

namespace LeastFirst

universe u

variable {ι : Type u} [DecidableEq ι]

/-- `i` is one of `s` and no member of `s` has a smaller value. -/
def Least (s : Finset ι) (d : ι → ℕ) (i : ι) : Prop := i ∈ s ∧ ∀ j ∈ s, d i ≤ d j

/-- Raise the value of `i` by `δ`. -/
def serve (d : ι → ℕ) (i : ι) (δ : ℕ) : ι → ℕ := Function.update d i (d i + δ)

/-- **The gap rule**: a step keeps two values within what they were apart, or within the step. -/
theorem dist_serve_le {s : Finset ι} {d : ι → ℕ} {i : ι} {δ : ℕ} (h : Least s d i) {a b : ι} (ha : a ∈ s) (hb : b ∈ s) :
    Nat.dist (serve d i δ a) (serve d i δ b) ≤ max (Nat.dist (d a) (d b)) δ := by
  have hia := h.2 a ha
  have hib := h.2 b hb
  simp only [serve, Function.update_apply, Nat.dist]
  split <;> split <;> subst_vars <;> omega

/-- By how much the members of `s` are behind `j` in all, each counted one extra if it is not
ahead of `j`. -/
def waiting (s : Finset ι) (d : ι → ℕ) (j : ι) : ℕ := ∑ i ∈ s, (d j + 1 - d i)

/-- **The progress rule**: a step that does not serve `j` brings its turn nearer. -/
theorem waiting_serve_lt {s : Finset ι} {d : ι → ℕ} {i j : ι} {δ : ℕ} (h : Least s d i)
    (hj : j ∈ s) (hij : i ≠ j) (hδ : 1 ≤ δ) : waiting s (serve d i δ) j < waiting s d j := by
  have hle := h.2 j hj
  have hdj : serve d i δ j = d j := Function.update_of_ne (Ne.symm hij) _ _
  refine Finset.sum_lt_sum (fun k _ => ?_) ⟨i, h.1, ?_⟩
  · rw [hdj]
    by_cases hk : k = i
    · subst hk; simp only [serve, Function.update_self]; omega
    · simp only [serve, Function.update_of_ne hk]; omega
  · rw [hdj]
    simp only [serve, Function.update_self]
    omega

end LeastFirst
