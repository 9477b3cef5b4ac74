import Mathlib.Data.Int.NatAbs
import Mathlib.Data.List.Basic

/-!
# Subtrees of a name space

A subtree is named by the path of its root, and there is more than one way to say which paths are inside of
it.  They may be compared as they are written, component by component (`Reading.written`), or first be taken
to where they lead.  All that is used of one (`Reading`) is that of two subtrees with a path in common, one
is inside the other (`comparable`), and that what is put behind a path stays inside of it, for some of what
there is to put there (`inside_append`).

Two subtrees of which neither is inside the other have therefore nothing in common (`Reading.disjoint`).
-/

namespace Subtree

universe u

variable {α : Type u} {sep : α} {s t p : List α}

/-- There is nothing, or another component. -/
def GoesOn (sep : α) (t : List α) : Prop := t = [] ∨ t.head? = some sep

instance [DecidableEq α] (t : List α) : Decidable (GoesOn sep t) := inferInstanceAs (Decidable (_ ∨ _))

/-- What goes on can be cut anywhere, and its first part goes on as well. -/
theorem GoesOn.of_append {a b : List α} (h : GoesOn sep (a ++ b)) : GoesOn sep a := by
  cases a with
  | nil => exact .inl rfl
  | cons x a => exact .inr (h.resolve_left (List.cons_ne_nil x _))

/-- A way to say which paths are inside a subtree. -/
structure Reading (sep : α) where
  inside : List α → List α → Bool
  keeps : List α → Prop
  comparable : ∀ {s t p : List α}, inside s p → inside t p → inside s t ∨ inside t s
  inside_append : ∀ {s t : List α}, s ≠ [] → GoesOn sep t → keeps t → inside s (s ++ t)

theorem Reading.disjoint (R : Reading sep) (hst : R.inside s t = false) (hts : R.inside t s = false)
    (h : R.inside t p) : R.inside s p = false := by
  refine Bool.eq_false_iff.2 fun hs => ?_
  obtain h | h := R.comparable hs h
  · exact Bool.eq_false_iff.1 hst h
  · exact Bool.eq_false_iff.1 hts h

section

variable [DecidableEq α]

/-- The path is that of the subtree, or goes on from there with another component. -/
def under (sep : α) (s p : List α) : Bool := s.isPrefixOf p && decide (GoesOn sep (p.drop s.length))

theorem under_iff : under sep s p ↔ ∃ t, p = s ++ t ∧ GoesOn sep t := by
  rw [under, Bool.and_eq_true, decide_eq_true_iff, List.isPrefixOf_iff_prefix]
  constructor
  · rintro ⟨⟨t, rfl⟩, h⟩
    exact ⟨t, rfl, by rwa [List.drop_left] at h⟩
  · rintro ⟨t, rfl, h⟩
    exact ⟨⟨t, rfl⟩, by rwa [List.drop_left]⟩

theorem under_append (s : List α) (ht : GoesOn sep t) : under sep s (s ++ t) := under_iff.2 ⟨t, rfl, ht⟩

theorem under_comparable (hs : under sep s p) (ht : under sep t p) : under sep s t ∨ under sep t s := by
  obtain ⟨a, rfl, ha⟩ := under_iff.1 hs
  obtain ⟨b, hb, hgb⟩ := under_iff.1 ht
  obtain ⟨c, rfl, rfl⟩ | ⟨c, rfl, rfl⟩ := List.append_eq_append_iff.1 hb
  · exact .inl (under_append s ha.of_append)
  · exact .inr (under_append t hgb.of_append)

/-- **Paths as they are written**, component by component. -/
def Reading.written : Reading sep where
  inside := under sep
  keeps _ := True
  comparable := under_comparable
  inside_append _ h _ := under_append _ h

end

end Subtree
