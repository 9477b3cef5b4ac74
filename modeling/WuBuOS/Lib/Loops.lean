import Mathlib.Data.Int.NatAbs
import Mathlib.Order.Basic

/-!
# Counting the rounds of a loop

`Rounds c f n v` says that `while c do f` does exactly `n` rounds from `v`.  Where a distance gets smaller by the same
amount in every round and the loop goes on as long as it is positive, the number of rounds is the distance divided by
the amount, rounded up (`rounds_of_distance`).
-/

namespace Loops

variable {σ : Type*} {c : σ → Prop} {f : σ → σ} {v : σ} {n : Nat}

/-- From `v`, the loop does `n` rounds. -/
inductive Rounds (c : σ → Prop) (f : σ → σ) : Nat → σ → Prop
  | done {v : σ} (h : ¬c v) : Rounds c f 0 v
  | round {v : σ} {n : Nat} (h : c v) (hr : Rounds c f n (f v)) : Rounds c f (n + 1) v

/-- The loop does not end. -/
def Endless (c : σ → Prop) (f : σ → σ) (v : σ) : Prop := ∀ n, ¬Rounds c f n v

theorem rounds_zero : Rounds c f 0 v ↔ ¬c v := ⟨fun | .done h => h, .done⟩

theorem rounds_succ : Rounds c f (n + 1) v ↔ c v ∧ Rounds c f n (f v) :=
  ⟨fun | .round h hr => ⟨h, hr⟩, fun h => .round h.1 h.2⟩

/-- What holds before every round and lets the loop go on makes it endless. -/
theorem endless_of_invariant {I : σ → Prop} (hc : ∀ v, I v → c v) (hf : ∀ v, I v → I (f v)) (hv : I v) :
    Endless c f v := by
  intro n
  induction n generalizing v with
  | zero => exact fun h => rounds_zero.1 h (hc v hv)
  | succ n ih => exact fun h => ih (hf v hv) (rounds_succ.1 h).2

/-- Where a round does not change the condition for the worse, the loop does no round or does not end. -/
theorem rounds_iff_of_away (hf : ∀ v, c v → c (f v)) : Rounds c f n v ↔ n = 0 ∧ ¬c v := by
  constructor
  · intro h
    have hnot : ¬c v := fun hc => endless_of_invariant (fun _ h => h) hf hc n h
    cases h with
    | done => exact ⟨rfl, hnot⟩
    | round hc => exact absurd hc hnot
  · rintro ⟨rfl, h⟩
    exact .done h

theorem rounds_of_distance {d : σ → Int} {m : Int} (hm : 0 < m) (hc : ∀ v, c v ↔ 0 < d v)
    (hd : ∀ v, d (f v) = d v - m) : ∀ (n : Nat) (v : σ), (n : Int) = (if d v ≤ 0 then 0 else (d v + m - 1) / m) →
      Rounds c f n v := by
  intro n
  induction n with
  | zero =>
    intro v hn
    refine .done fun hcv => ?_
    have hpos := (hc v).1 hcv
    rw [if_neg (by omega)] at hn
    have : 1 ≤ (d v + m - 1) / m := (Int.le_ediv_iff_mul_le hm).2 (by omega)
    omega
  | succ n ih =>
    intro v hn
    have hpos : 0 < d v := by
      by_contra hle
      rw [if_pos (by omega)] at hn
      omega
    rw [if_neg (by omega)] at hn
    refine .round ((hc v).2 hpos) (ih (f v) ?_)
    have hdiv : (d v + m - 1) / m = (d v - 1) / m + 1 := by
      rw [show d v + m - 1 = d v - 1 + 1 * m by omega, Int.add_mul_ediv_right _ _ (by omega)]
    rw [hd]
    split
    case isTrue hle =>
      have : (d v - 1) / m = 0 := Int.ediv_eq_zero_of_lt (by omega) (by omega)
      omega
    case isFalse => rw [show d v - m + m - 1 = d v - 1 by omega]; omega

end Loops
