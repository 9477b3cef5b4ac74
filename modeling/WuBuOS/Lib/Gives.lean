import Mathlib.Data.Int.NatAbs
import Mathlib.Data.Option.Basic

/-!
# What a computation returns

A call whose behaviour is not always defined, or that need not come back, is a computation in `Option`.
`Gives x Q` says of it that whatever it returns has the property `Q`; if it returns nothing, that says nothing.
There is a rule for each way of putting such computations together, so that a proof can follow the code.
-/

namespace Option

variable {α β : Type} {x y : Option α} {f : α → Option β} {P Q : α → Prop} {R : β → Prop} {a : α}

/-- Whatever `x` returns has the property. -/
def Gives (x : Option α) (Q : α → Prop) : Prop := ∀ ⦃a⦄, x = some a → Q a

theorem Gives.pure (h : Q a) : Gives (some a) Q := fun _ ha => Option.some.inj ha ▸ h

theorem Gives.none : Gives none Q := fun _ ha => nomatch ha

/-- One after the other; the second relies on what the first returns. -/
theorem Gives.bind (h : Gives x P) (hf : ∀ a, P a → Gives (f a) R) : Gives (x >>= f) R := by
  intro b hb
  obtain ⟨a, ha, hb⟩ := Option.bind_eq_some_iff.1 hb
  exact hf a (h ha) hb

/-- One after the other, whatever the first returns. -/
theorem Gives.next (hf : ∀ a, Gives (f a) R) : Gives (x >>= f) R :=
  Gives.bind (P := fun _ => True) (fun _ _ => trivial) fun a _ => hf a

theorem Gives.ite {c : Prop} [Decidable c] (h : c → Gives x Q) (h' : ¬c → Gives y Q) : Gives (if c then x else y) Q := by
  split
  · exact h ‹_›
  · exact h' ‹_›

theorem Gives.mono (h : Gives x P) (hPQ : ∀ a, P a → Q a) : Gives x Q := fun a ha => hPQ a (h ha)

end Option
