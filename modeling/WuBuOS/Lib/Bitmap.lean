import Mathlib.Data.Int.NatAbs
import Mathlib.Data.List.Nodup
import Mathlib.Data.List.Range

/-!
# Bitmaps, and operations that work on one cell

A bitmap is an array of bytes, here a function, of which bit `i` is bit `i % 8` of byte `i / 8`.
`Bitmap.set` and `Bitmap.clear` are the two masks, `Bitmap.zeros m n` is the number of clear bits
below `n`, and `Bitmap.firstFit` is the scan for a number of clear bits in a row.

`Bitmap.look_foldl` is about any state with numbered cells: an operation that reads and writes one
cell, performed on distinct cells one after the other, has on each of them the effect it would have
alone.
-/

namespace Bitmap

/-- Bit `i`. -/
def test (m : Nat → BitVec 8) (i : Nat) : Bool := (m (i / 8)).getLsbD (i % 8)

/-- `m[i >> 3] |= 1 << (i & 7)`. -/
def set (m : Nat → BitVec 8) (i : Nat) : Nat → BitVec 8 :=
  fun a => if a = i / 8 then m a ||| (1#8 <<< (i % 8)) else m a

/-- `m[i >> 3] &= ~(1 << (i & 7))`. -/
def clear (m : Nat → BitVec 8) (i : Nat) : Nat → BitVec 8 :=
  fun a => if a = i / 8 then m a &&& ~~~(1#8 <<< (i % 8)) else m a

/-- The number of clear bits below `n`. -/
def zeros (m : Nat → BitVec 8) (n : Nat) : Nat := (List.range n).countP fun i => !test m i

variable {m : Nat → BitVec 8} {i j n : Nat}

theorem getLsbD_mask {a b : Nat} (ha : a < 8) (hb : b < 8) : (1#8 <<< a).getLsbD b = decide (b = a) := by
  rw [BitVec.getLsbD_shiftLeft, BitVec.getLsbD_one]
  by_cases h : b = a
  · subst h
    simp [hb]
  · by_cases hlt : b < a
    · simp [hlt, h]
    · have : b - a ≠ 0 := by omega
      simp [this, h]

@[simp]
theorem test_set (m : Nat → BitVec 8) (i j : Nat) : test (set m i) j = (decide (j = i) || test m j) := by
  rw [test, set]
  by_cases hd : j / 8 = i / 8
  · rw [if_pos hd, BitVec.getLsbD_or, getLsbD_mask (by omega) (by omega), Bool.or_comm, test]
    have : j % 8 = i % 8 ↔ j = i := by omega
    simp [this]
  · have : j ≠ i := fun h => hd (by rw [h])
    rw [if_neg hd, test]
    simp [this]

@[simp]
theorem test_clear (m : Nat → BitVec 8) (i j : Nat) : test (clear m i) j = (decide (j ≠ i) && test m j) := by
  rw [test, clear]
  by_cases hd : j / 8 = i / 8
  · have hlt : j % 8 < 8 := by omega
    rw [if_pos hd, BitVec.getLsbD_and, BitVec.getLsbD_not, getLsbD_mask (by omega) hlt, Bool.and_comm, test]
    have : j % 8 = i % 8 ↔ j = i := by omega
    simp [this, hlt]
  · have : j ≠ i := fun h => hd (by rw [h])
    rw [if_neg hd, test]
    simp [this]

theorem zeros_succ (m : Nat → BitVec 8) (n : Nat) : zeros m (n + 1) = zeros m n + if test m n then 0 else 1 := by
  rw [zeros, zeros, List.range_succ, List.countP_append]
  cases h : test m n <;> simp [h]

theorem zeros_congr {m' : Nat → BitVec 8} (h : ∀ i < n, test m i = test m' i) : zeros m n = zeros m' n := by
  induction n with
  | zero => rfl
  | succ n ih => rw [zeros_succ, zeros_succ, ih fun i hi => h i (by omega), h n (by omega)]

/-- **Setting a clear bit takes one from the clear bits.** -/
theorem zeros_set (hi : i < n) (h : test m i = false) : zeros (set m i) n + 1 = zeros m n := by
  induction n with
  | zero => omega
  | succ n ih =>
    rw [zeros_succ, zeros_succ]
    rcases Nat.lt_or_ge i n with hlt | hge
    · have hne : n ≠ i := by omega
      have := ih hlt
      simp only [test_set, hne, decide_false, Bool.false_or]
      omega
    · obtain rfl : i = n := by omega
      have : zeros (set m i) i = zeros m i := zeros_congr fun j hj => by simp [show j ≠ i by omega]
      simp [this, h]

/-- **Clearing a set bit adds one to them.** -/
theorem zeros_clear (hi : i < n) (h : test m i = true) : zeros (clear m i) n = zeros m n + 1 := by
  have hc : test (clear m i) i = false := by simp
  have hs : zeros (set (clear m i) i) n = zeros m n := zeros_congr fun j _ => by
    by_cases hj : j = i
    · simp [hj, h]
    · simp [hj]
  rw [← hs, zeros_set hi hc]

theorem zeros_le (m : Nat → BitVec 8) (n : Nat) : zeros m n ≤ n :=
  List.countP_le_length.trans_eq List.length_range

/-- All bits clear. -/
theorem zeros_blank (n : Nat) : zeros (fun _ => 0) n = n := by
  induction n with
  | zero => rfl
  | succ n ih => rw [zeros_succ, ih]; simp [test]

/-! ## The first-fit scan -/

/-- The scan for `n` clear bits in a row: `k` bits are left, bit `i` is next, and the last `run`
bits before it, from `start` on, were clear. -/
def firstFit (m : Nat → BitVec 8) (n : Nat) : Nat → Nat → Nat → Nat → Option Nat
  | 0, _, _, _ => none
  | k + 1, i, run, start =>
    if test m i = false then
      let start := if run = 0 then i else start
      if run + 1 = n then some start else firstFit m n k (i + 1) (run + 1) start
    else firstFit m n k (i + 1) 0 start

theorem firstFit_from : ∀ {k i run start st : Nat}, firstFit m n k i run start = some st →
    (run = 0 ∨ start + run = i ∧ ∀ j, start ≤ j → j < i → test m j = false) →
    st + n ≤ i + k ∧ ∀ j, st ≤ j → j < st + n → test m j = false
  | 0, _, _, _, _, h, _ => by cases h
  | k + 1, i, run, start, st, h, hr => by
    rw [firstFit] at h
    split at h
    case isFalse => 
      obtain ⟨hle, hc⟩ := firstFit_from h (.inl rfl)
      exact ⟨by omega, hc⟩
    case isTrue ht =>
      -- The row that ends with bit `i`.
      have hrow : (if run = 0 then i else start) + (run + 1) = i + 1 ∧
          ∀ j, (if run = 0 then i else start) ≤ j → j < i + 1 → test m j = false := by
        split
        case isTrue h0 =>
          refine ⟨by omega, fun j hj hlt => ?_⟩
          obtain rfl : j = i := by omega
          exact ht
        case isFalse h0 =>
          obtain ⟨hs, hc⟩ := hr.resolve_left h0
          refine ⟨by omega, fun j hj hlt => ?_⟩
          rcases Nat.lt_or_ge j i with hji | hji
          · exact hc j hj hji
          · obtain rfl : j = i := by omega
            exact ht
      dsimp only at h
      split at h
      case isTrue hn =>
        cases h
        exact ⟨by omega, fun j hj hlt => hrow.2 j hj (by omega)⟩
      case isFalse hn =>
        obtain ⟨hle, hc⟩ := firstFit_from h (.inr hrow)
        exact ⟨by omega, hc⟩

/-- **What the scan finds is a row of clear bits below the end.** -/
theorem firstFit_clear {k st : Nat} (h : firstFit m n k 0 0 0 = some st) :
    st + n ≤ k ∧ ∀ j, st ≤ j → j < st + n → test m j = false := by
  obtain ⟨hle, hc⟩ := firstFit_from h (.inl rfl)
  exact ⟨by omega, hc⟩

/-! ## Operations on one cell -/

section Cells

universe u v w

variable {σ : Type u} {ι : Type v} {β : Type w}

/-- `f` reads and writes the cell it is given, and no other. -/
structure Local (look : σ → ι → β) (f : σ → ι → σ) : Prop where
  off : ∀ s {i j}, j ≠ i → look (f s i) j = look s j
  on : ∀ {s s' i}, look s i = look s' i → look (f s i) i = look (f s' i) i

/-- **Distinct cells, one after the other**: on each the operation does what it would do alone. -/
theorem look_foldl [DecidableEq ι] {look : σ → ι → β} {f : σ → ι → σ} (hf : Local look f) :
    ∀ {l : List ι} (s : σ) (j : ι), l.Nodup → look (l.foldl f s) j = if j ∈ l then look (f s j) j else look s j
  | [], s, j, _ => by simp
  | i :: l, s, j, hl => by
    obtain ⟨hi, hl⟩ := List.nodup_cons.1 hl
    rw [List.foldl_cons, look_foldl hf (f s i) j hl]
    by_cases hj : j = i
    · subst hj
      rw [if_neg hi, if_pos List.mem_cons_self]
    · have ho := hf.off s hj
      rw [ho, hf.on ho]
      simp [hj]

end Cells

end Bitmap
