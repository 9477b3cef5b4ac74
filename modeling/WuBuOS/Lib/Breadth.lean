import Mathlib.Data.Int.NatAbs
import Mathlib.Data.List.Basic

/-!
# Breadth-first listings

`walk kids n q` is what a breadth-first walk comes by in `n` steps if it starts with the queue `q` and
puts the children of every node at the end of the queue.  Nodes are not marked: where the children lead
back to a node, it is listed again.

A walk in `n` steps does not come to what is behind the first `n` nodes of its queue, so a queue with room
for `n` nodes is enough for it (`walk_take`).
-/

namespace Breadth

universe u

variable {α : Type u} {kids : α → List α} {n m : Nat} {q : List α}

/-- The first `n` nodes of a breadth-first walk from a queue. -/
def walk (kids : α → List α) : Nat → List α → List α
  | 0, _ => []
  | _ + 1, [] => []
  | n + 1, x :: q => x :: walk kids n (q ++ kids x)

/-- **A queue with room for `n` nodes is enough** for `n` steps. -/
theorem walk_take (h : n ≤ m) : walk kids n (q.take m) = walk kids n q := by
  induction n generalizing q m with
  | zero => rfl
  | succ n ih =>
    obtain ⟨m, rfl⟩ : ∃ k, m = k + 1 := ⟨m - 1, by omega⟩
    cases q with
    | nil => rfl
    | cons x q =>
      rw [List.take_succ_cons, walk, walk]
      congr 1
      rcases Nat.lt_or_ge m q.length with hlt | hge
      · -- what is behind the first `m` nodes is not come to, whatever it is
        have hcut : (q.take m ++ kids x).take m = (q ++ kids x).take m := by
          rw [List.take_append_of_le_length (by rw [List.length_take]; omega),
            List.take_append_of_le_length (Nat.le_of_lt hlt), List.take_take, Nat.min_self]
        rw [← ih (Nat.le_of_succ_le_succ h), hcut, ih (Nat.le_of_succ_le_succ h)]
      · rw [List.take_of_length_le hge]

end Breadth
