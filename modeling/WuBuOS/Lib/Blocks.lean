import WuBuOS.Lib.Bytes
import Mathlib.Data.List.GetD
import Mathlib.Data.List.Nodup

/-!
# Bytes kept in blocks

A file is kept in blocks of equal size, and a list says which blocks, in which order.
`Blocks.flat size d null l` is what the blocks of `l` hold, one after the other: a memory of bytes like
any other.  A write within a block is a write to it (`Blocks.flat_write`), and what is in the blocks
that were there before does not depend on those that are added (`Blocks.flat_of_prefix`).
-/

namespace Blocks

open Bytes

universe u

variable {ι : Type u} {size n x : Nat} {d d' : ι → Nat → UInt8} {null : ι} {l l' : List ι}

/-- The bytes of the blocks, one block after the other; behind the last one it goes on with `null`. -/
def flat (size : Nat) (d : ι → Nat → UInt8) (null : ι) (l : List ι) : Nat → UInt8 :=
  fun x => d (l.getD (x / size) null) (x % size)

/-- Further on in the same block. -/
theorem div_mod_add {k : Nat} (h : x % size + k < size) :
    (x + k) / size = x / size ∧ (x + k) % size = x % size + k := by
  have hx := Nat.div_add_mod' x size
  have he : x + k = x % size + k + x / size * size := by omega
  rw [he, Nat.add_mul_mod_self_right, Nat.mod_eq_of_lt h,
    Nat.add_mul_div_right _ _ (Nat.zero_lt_of_lt h), Nat.div_eq_of_lt h, Nat.zero_add]
  exact ⟨rfl, rfl⟩

/-- At the end of the block. -/
theorem div_mod_full {k : Nat} (hsize : 0 < size) (h : x % size + k = size) :
    (x + k) / size = x / size + 1 ∧ (x + k) % size = 0 := by
  have hx := Nat.div_add_mod' x size
  have he : x + k = (x / size + 1) * size := by
    rw [Nat.succ_mul]
    omega
  rw [he, Nat.mul_div_cancel _ hsize, Nat.mul_mod_left]
  exact ⟨rfl, rfl⟩

theorem flat_add {k : Nat} (h : x % size + k < size) :
    flat size d null l (x + k) = d (l.getD (x / size) null) (x % size + k) := by
  rw [flat, (div_mod_add h).1, (div_mod_add h).2]

/-- In the first block. -/
theorem flat_cons_lt {c : ι} (h : x < size) : flat size d null (c :: l) x = d c x := by
  rw [flat, Nat.div_eq_of_lt h, Nat.mod_eq_of_lt h, List.getD_cons_zero]

/-- Behind the first block. -/
theorem flat_cons_add {c : ι} (hsize : 0 < size) : flat size d null (c :: l) (size + x) = flat size d null l x := by
  rw [flat, flat, Nat.add_div_left _ hsize, Nat.add_mod_left, List.getD_cons_succ]

theorem flat_of_prefix (h : l <+: l') (hx : x < l.length * size) : flat size d null l' x = flat size d null l x := by
  obtain ⟨k, rfl⟩ := h
  have hlt : x / size < l.length := Nat.div_lt_of_lt_mul (by rwa [Nat.mul_comm] at hx)
  rw [flat, flat, List.getD_append _ _ _ _ hlt]

theorem flat_congr (h : ∀ c ∈ l, d' c = d c) (hx : x < l.length * size) :
    flat size d' null l x = flat size d null l x := by
  have hlt : x / size < l.length := Nat.div_lt_of_lt_mul (by rwa [Nat.mul_comm] at hx)
  rw [flat, flat, List.getD_eq_getElem _ _ hlt, h _ (List.getElem_mem hlt)]

/-- **A write within the block of a position.** -/
theorem flat_write [DecidableEq ι] {q : Nat} (hnd : l.Nodup) (hnull : null ∉ l)
    (hq : q < l.length * size) (hn : q % size + n ≤ size) (f : Nat → UInt8) :
    flat size (Function.update d (l.getD (q / size) null)
        (write (d (l.getD (q / size) null)) (q % size) n f)) null l =
      write (flat size d null l) q n f := by
  have hsize : 0 < size := Nat.pos_of_ne_zero fun h => by simp [h] at hq
  have hj : q / size < l.length := Nat.div_lt_of_lt_mul (by rwa [Nat.mul_comm] at hq)
  have hqq := Nat.div_add_mod' q size
  funext x
  have hx := Nat.div_add_mod' x size
  have hmod := Nat.mod_lt x hsize
  rw [flat]
  rcases eq_or_ne (x / size) (q / size) with he | hne
  · rw [he, Function.update_self, write, write, flat]
    rw [he] at hx
    by_cases hin : q % size ≤ x % size ∧ x % size < q % size + n
    · rw [if_pos hin, if_pos (by omega)]
      congr 1
      omega
    · rw [if_neg hin, if_neg (by omega), he]
  · have hother : l.getD (x / size) null ≠ l.getD (q / size) null := by
      rw [List.getD_eq_getElem _ _ hj]
      rcases Nat.lt_or_ge (x / size) l.length with hlt | hge
      · rw [List.getD_eq_getElem _ _ hlt]
        exact fun he => hne ((List.Nodup.getElem_inj_iff hnd).1 he)
      · rw [List.getD_eq_default _ _ hge]
        rintro he
        exact hnull (he ▸ List.getElem_mem hj)
    rw [Function.update_of_ne hother, write_outside, flat]
    rcases Nat.lt_or_gt_of_ne hne with hlt | hgt
    · have := Nat.mul_le_mul_right size (Nat.succ_le_of_lt hlt)
      rw [Nat.succ_mul] at this
      omega
    · have := Nat.mul_le_mul_right size (Nat.succ_le_of_lt hgt)
      rw [Nat.succ_mul] at this
      omega

end Blocks
