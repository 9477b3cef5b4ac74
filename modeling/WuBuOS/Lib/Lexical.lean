import Mathlib.Data.Int.NatAbs
import Mathlib.Data.List.Basic

/-!
# Paths, as they are written

A path is a list of components.  One of them, `up`, takes the component before it away, and nothing else is
known of any of them: no directory is looked at.  `resolve up abs cs` is what a path comes to, the last
component first.  At the root of an absolute path, `up` does nothing; a relative path may begin with some.

A path that never has more `up`s than components before them stays below where it begins
(`suffix_resolve_append`).

How a string is taken apart is here as well: at a separator, and without the components that mean nothing.
-/

namespace Lexical

universe u

/-! ## Components -/

section

variable {α : Type u} [BEq α] {sep : α} {skip : List α → Bool}

/-- The components of a string, without those that mean nothing. -/
def parts (sep : α) (skip : List α → Bool) (s : List α) : List (List α) :=
  (s.splitOn sep).filter fun c => !skip c

theorem parts_append_cons [ReflBEq α] (s t : List α) :
    parts sep skip (s ++ sep :: t) = parts sep skip s ++ parts sep skip t := by
  rw [parts, List.splitOn_append_cons_self, List.filter_append]
  rfl

theorem parts_nil (hskip : skip [] = true) : parts sep skip [] = [] := by
  rw [parts, List.splitOn_nil, List.filter_cons, hskip]
  rfl

theorem parts_cons [ReflBEq α] (hskip : skip [] = true) (t : List α) : parts sep skip (sep :: t) = parts sep skip t := by
  rw [← List.nil_append (sep :: t), parts_append_cons, parts_nil hskip, List.nil_append]

/-- **Two strings that are put together** have the components of both, if there is a separator between them. -/
theorem parts_append [ReflBEq α] (hskip : skip [] = true) {s t : List α}
    (h : t = [] ∨ t.head? = some sep ∨ s.getLast? = some sep) :
    parts sep skip (s ++ t) = parts sep skip s ++ parts sep skip t := by
  obtain rfl | hhead | hlast := h
  · rw [List.append_nil, parts_nil hskip, List.append_nil]
  · obtain ⟨t', rfl⟩ := List.head?_eq_some_iff.1 hhead
    rw [parts_append_cons, parts_cons hskip]
  · obtain ⟨s', rfl⟩ := List.getLast?_eq_some_iff.1 hlast
    rw [List.append_assoc, List.singleton_append, parts_append_cons, parts_append_cons, parts_nil hskip,
      List.append_nil]

end

/-! ## Resolution -/

variable {β : Type u} [DecidableEq β] {up : β} {abs : Bool} {bs cs st t : List β}

/-- One component more; what there is before it begins with the last one. -/
def push (up : β) (abs : Bool) (st : List β) (c : β) : List β :=
  if c = up then
    match st with
    | [] => if abs then [] else [up]
    | b :: st => if b = up then up :: b :: st else st
  else c :: st

/-- **What a path comes to**, the last component first. -/
def resolve (up : β) (abs : Bool) (cs : List β) : List β := cs.foldl (push up abs) []

/-- There are never more `up`s than components before them, of which there are so many already. -/
def stays (up : β) : Nat → List β → Bool
  | _, [] => true
  | 0, c :: cs => c != up && stays up 1 cs
  | d + 1, c :: cs => if c = up then stays up d cs else stays up (d + 2) cs

theorem push_of_ne {c : β} (h : c ≠ up) : push up abs st c = c :: st := by
  rw [push.eq_def, if_neg h]

theorem push_up {b : β} (h : b ≠ up) : push up abs (b :: st) up = st := by
  simp [push, h]

theorem foldl_push_append (h : stays up t.length cs = true) (ht : up ∉ t) :
    ∃ t', up ∉ t' ∧ cs.foldl (push up abs) (t ++ st) = t' ++ st := by
  induction cs generalizing t with
  | nil => exact ⟨t, ht, rfl⟩
  | cons c cs ih =>
    rw [List.foldl_cons]
    cases t with
    | nil =>
      rw [List.length_nil, stays, Bool.and_eq_true, bne_iff_ne] at h
      rw [push_of_ne h.1]
      exact ih (t := [c]) h.2 (by simpa using h.1.symm)
    | cons b t =>
      rw [List.length_cons, stays] at h
      have hb : b ≠ up := fun hb => ht (hb ▸ List.mem_cons_self)
      have ht' : up ∉ t := fun hmem => ht (List.mem_cons_of_mem _ hmem)
      by_cases hc : c = up
      · rw [if_pos hc] at h
        rw [hc, List.cons_append, push_up hb]
        exact ih h ht'
      · rw [if_neg hc] at h
        rw [push_of_ne hc]
        exact ih (t := c :: b :: t) h (by simp [Ne.symm hc, Ne.symm hb, ht'])

/-- **A path that stays below** where it begins. -/
theorem suffix_resolve_append (h : stays up 0 cs = true) : resolve up abs bs <:+ resolve up abs (bs ++ cs) := by
  obtain ⟨t', -, ht⟩ : ∃ t', up ∉ t' ∧ cs.foldl (push up abs) ([] ++ resolve up abs bs) = t' ++ resolve up abs bs :=
    foldl_push_append h List.not_mem_nil
  exact ⟨t', by rw [← ht, List.nil_append, resolve, resolve, List.foldl_append]⟩

end Lexical
