import Mathlib.Data.Int.NatAbs
import Mathlib.Order.Basic

/-!
# Looking for a number of hits in a row

A scan goes through the places 0, 1, 2, … and counts how many of the last ones were hits; a miss sets
the count back to 0.  `Streak p k j f` is its state with `j` places behind it and a count of `f`, as long
as it has not yet found `k` hits in a row.  When it does, they are the first ones: `Streak.found`.
-/

namespace Rows

variable {p : Nat → Prop} {k j f : Nat}

/-- There are `k` hits in a row from `j` on. -/
def Row (p : Nat → Prop) (k j : Nat) : Prop := ∀ i < k, p (j + i)

/-- The first ones. -/
def FirstRow (p : Nat → Prop) (k j : Nat) : Prop := Row p k j ∧ ∀ i < j, ¬Row p k i

/-- The last `f` of `j` places were hits, but not the one before, and there have not been `k` of them in a
row. -/
structure Streak (p : Nat → Prop) (k j f : Nat) : Prop where
  short : f < k
  le : f ≤ j
  hits : Row p f (j - f)
  before : f = j ∨ ¬p (j - f - 1)
  none : ∀ i, i + k ≤ j → ¬Row p k i

theorem Streak.start (hk : 0 < k) : Streak p k 0 0 where
  short := hk
  le := Nat.le_refl 0
  hits := fun i hi => absurd hi (Nat.not_lt_zero i)
  before := Or.inl rfl
  none := fun i hi => by omega

theorem Streak.miss (h : Streak p k j f) (hp : ¬p j) : Streak p k (j + 1) 0 where
  short := Nat.zero_lt_of_lt h.short
  le := Nat.zero_le _
  hits := fun i hi => absurd hi (Nat.not_lt_zero i)
  before := Or.inr hp
  none := fun i hi hrow => by
    rcases Nat.lt_or_eq_of_le hi with hlt | heq
    · exact h.none i (Nat.le_of_lt_succ hlt) hrow
    · have hshort := h.short
      have hlast := hrow (k - 1) (by omega)
      rw [show i + (k - 1) = j by omega] at hlast
      exact hp hlast

theorem Streak.hits_succ (h : Streak p k j f) (hp : p j) : Row p (f + 1) (j - f) := fun i hi => by
  have hle := h.le
  rcases Nat.lt_or_eq_of_le (Nat.le_of_lt_succ hi) with hlt | rfl
  · exact h.hits i hlt
  · rwa [Nat.sub_add_cancel hle]

theorem Streak.hit (h : Streak p k j f) (hp : p j) (hk : f + 1 < k) : Streak p k (j + 1) (f + 1) where
  short := hk
  le := Nat.succ_le_succ h.le
  hits := by
    rw [Nat.add_sub_add_right]
    exact h.hits_succ hp
  before := by
    rw [Nat.add_sub_add_right]
    exact h.before.imp_left (congrArg Nat.succ)
  none := fun i hi hrow => by
    rcases Nat.lt_or_eq_of_le hi with hlt | heq
    · exact h.none i (Nat.le_of_lt_succ hlt) hrow
    · -- the row would reach back to the miss
      rcases h.before with hall | hmiss
      · omega
      · have hle := h.le
        have hback := hrow (j - f - 1 - i) (by omega)
        rw [show i + (j - f - 1 - i) = j - f - 1 by omega] at hback
        exact hmiss hback

/-- **What is found is the first row.** -/
theorem Streak.found (h : Streak p k j f) (hp : p j) (hk : k ≤ f + 1) : FirstRow p k (j - f) := by
  have hshort := h.short
  obtain rfl : k = f + 1 := by omega
  exact ⟨h.hits_succ hp, fun i hi => h.none i (by omega)⟩

end Rows
