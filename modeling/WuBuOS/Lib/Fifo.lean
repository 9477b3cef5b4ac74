import Mathlib.Data.Int.NatAbs
import Mathlib.Data.Int.ModEq
import Mathlib.Data.List.Range

/-!
# First in, first out, in a circular array

A queue kept in `N` cells: index `i` lives in cell `i % N`, and the queue is what stands from a read
index on (`Fifo.window`).  Elements are written behind the last one (`Fifo.write`).  As long as there
are not more than `N` of them, what is written comes behind what is there
(`Fifo.window_write`), and what is read first is what is in front (`Fifo.window_add`).

The indices may run freely: nothing depends on more than their remainders modulo `N`
(`Fifo.window_congr`, `Fifo.write_congr`).
-/

namespace Fifo

universe u

variable {α : Type u} {N : Nat} {cell : Nat → α} {r r' w w' n k : Nat}

/-- The contents of `n` cells, from index `r` on. -/
def window (N : Nat) (cell : Nat → α) (r n : Nat) : List α :=
  (List.range n).map fun i => cell ((r + i) % N)

/-- The cells after the list has been written, from index `w` on. -/
def write (N : Nat) : (Nat → α) → Nat → List α → Nat → α
  | cell, _, [] => cell
  | cell, w, x :: l => write N (fun a => if a = w % N then x else cell a) (w + 1) l

@[simp]
theorem length_window (N : Nat) (cell : Nat → α) (r n : Nat) : (window N cell r n).length = n := by
  simp [window]

/-- The window in two parts. -/
theorem window_add (N : Nat) (cell : Nat → α) (r n k : Nat) :
    window N cell r (n + k) = window N cell r n ++ window N cell (r + n) k := by
  simp [window, List.range_add, Nat.add_assoc]

/-- The part in front. -/
theorem take_window (h : k ≤ n) : (window N cell r n).take k = window N cell r k := by
  obtain ⟨d, rfl⟩ := Nat.exists_eq_add_of_le h
  rw [window_add]
  exact List.take_left' (length_window ..)

/-- The part behind. -/
theorem drop_window (h : k ≤ n) : (window N cell r n).drop k = window N cell (r + k) (n - k) := by
  obtain ⟨d, rfl⟩ := Nat.exists_eq_add_of_le h
  rw [window_add, Nat.add_sub_cancel_left]
  exact List.drop_left' (length_window ..)

theorem window_congr (h : r % N = r' % N) : window N cell r n = window N cell r' n := by
  refine List.map_congr_left fun i _ => ?_
  rw [Nat.add_mod, h, ← Nat.add_mod]

theorem write_congr (h : w % N = w' % N) (l : List α) : write N cell w l = write N cell w' l := by
  induction l generalizing cell w w' with
  | nil => rfl
  | cons x l ih =>
    rw [write, write, h]
    exact ih (by rw [Nat.add_mod, h, ← Nat.add_mod])

/-- Two indices less than `N` apart have different cells. -/
theorem mod_ne_mod (h : r < w) (hlt : w < r + N) : r % N ≠ w % N := fun he => by
  have hdvd : N ∣ w - r := (Nat.modEq_iff_dvd' (Nat.le_of_lt h)).1 he
  have := Nat.eq_zero_of_dvd_of_lt hdvd (by omega)
  omega

/-- One element behind a queue that is not full. -/
theorem window_update (x : α) (h : n < N) :
    window N (fun a => if a = (r + n) % N then x else cell a) r (n + 1) = window N cell r n ++ [x] := by
  have hlast : window N (fun a => if a = (r + n) % N then x else cell a) (r + n) 1 = [x] := by
    simp [window]
  have hfront : window N (fun a => if a = (r + n) % N then x else cell a) r n = window N cell r n := by
    refine List.map_congr_left fun i hi => if_neg ?_
    have hi := List.mem_range.1 hi
    exact mod_ne_mod (by omega) (by omega)
  rw [window_add, hlast, hfront]

/-- **What is written comes behind what is there**, if there is room for it. -/
theorem window_write (l : List α) (h : n + l.length ≤ N) :
    window N (write N cell (r + n) l) r (n + l.length) = window N cell r n ++ l := by
  induction l generalizing cell n with
  | nil => simp [write]
  | cons x l ih =>
    rw [List.length_cons] at h ⊢
    let cell' := fun a => if a = (r + n) % N then x else cell a
    have hih : window N (write N cell' (r + (n + 1)) l) r (n + 1 + l.length) = window N cell' r (n + 1) ++ l :=
      ih (by omega)
    rw [write, show n + (l.length + 1) = n + 1 + l.length by omega, Nat.add_assoc r n 1, hih,
      window_update x (by omega), List.append_assoc]
    rfl

end Fifo
