import Mathlib.Data.Int.NatAbs

/-!
# A memory of bytes

Memory is a function from addresses to bytes.  Everything that changes it, an integer stored, a range
filled or copied, writes a range of addresses and leaves the rest alone, so there is one operation,
`Bytes.write`, and one fact about what it leaves alone, `Bytes.write_outside`.

`Bytes.get m a n` is the little-endian number in the `n` bytes from `a`.  It depends on these bytes
only (`Bytes.get_congr`), and reads back what `Bytes.put` stored, as far as `n` bytes can hold it
(`Bytes.get_put`).

A message is a list of bytes, built by appending its fields.  `Bytes.At m a l` says that it is in memory
from `a` on; it splits along the fields (`Bytes.at_append`), and each can then be read (`Bytes.At.get`,
`Bytes.At.slice`).
-/

namespace Bytes

variable {m m' : Nat → UInt8} {a n v x : Nat}

/-- Overwrite the `n` bytes from `a` with `f 0`, `f 1`, …. -/
def write (m : Nat → UInt8) (a n : Nat) (f : Nat → UInt8) : Nat → UInt8 :=
  fun x => if a ≤ x ∧ x < a + n then f (x - a) else m x

/-- Store `v` in the `n` bytes from `a`, the least significant first. -/
def put (m : Nat → UInt8) (a n v : Nat) : Nat → UInt8 :=
  write m a n fun i => UInt8.ofNat (v / 256 ^ i)

/-- `memset`. -/
def fill (m : Nat → UInt8) (a n : Nat) (b : UInt8) : Nat → UInt8 := write m a n fun _ => b

/-- `memcpy`. -/
def copy (m : Nat → UInt8) (dst src n : Nat) : Nat → UInt8 := write m dst n fun i => m (src + i)

/-- The number in the `n` bytes from `a`. -/
def get (m : Nat → UInt8) (a : Nat) : Nat → Nat
  | 0 => 0
  | n + 1 => (m a).toNat + 256 * get m (a + 1) n

theorem write_outside {f : Nat → UInt8} (h : x < a ∨ a + n ≤ x) : write m a n f x = m x :=
  if_neg (by omega)

theorem write_inside {f : Nat → UInt8} {i : Nat} (h : i < n) : write m a n f (a + i) = f i := by
  rw [write, if_pos ⟨Nat.le_add_right a i, Nat.add_lt_add_left h a⟩, Nat.add_sub_cancel_left]

/-- A number read depends on its own bytes only. -/
theorem get_congr (h : ∀ x, a ≤ x → x < a + n → m' x = m x) : get m' a n = get m a n := by
  induction n generalizing a with
  | zero => rfl
  | succ n ih =>
    rw [get, get, h a (Nat.le_refl a) (by omega), ih fun x h1 h2 => h x (by omega) (by omega)]

/-- The same bytes in another place are the same number. -/
theorem get_shift {b : Nat} (h : ∀ i < n, m' (b + i) = m (a + i)) : get m' b n = get m a n := by
  induction n generalizing a b with
  | zero => rfl
  | succ n ih =>
    have hrest : ∀ i < n, m' (b + 1 + i) = m (a + 1 + i) := by
      intro i hi
      rw [Nat.add_assoc, Nat.add_assoc, Nat.add_comm 1 i]
      exact h (i + 1) (by omega)
    have hfirst := h 0 (Nat.succ_pos n)
    rw [Nat.add_zero, Nat.add_zero] at hfirst
    rw [get, get, hfirst, ih hrest]

theorem get_lt (m : Nat → UInt8) (a n : Nat) : get m a n < 256 ^ n := by
  induction n generalizing a with
  | zero => exact Nat.one_pos
  | succ n ih =>
    have h1 := (m a).toNat_lt
    have h2 := ih (a + 1)
    rw [get, Nat.pow_succ]
    omega

/-- Reading a number off its bytes. -/
theorem get_of_bytes (h : ∀ i < n, m (a + i) = UInt8.ofNat (v / 256 ^ i)) : get m a n = v % 256 ^ n := by
  induction n generalizing a v with
  | zero => rw [get, Nat.pow_zero, Nat.mod_one]
  | succ n ih =>
    have hrest : ∀ i < n, m (a + 1 + i) = UInt8.ofNat (v / 256 / 256 ^ i) := by
      intro i hi
      rw [Nat.div_div_eq_div_mul, ← Nat.pow_succ', Nat.add_assoc, Nat.add_comm 1 i]
      exact h (i + 1) (by omega)
    have hfirst : (m a).toNat = v % 256 := by
      have h0 := h 0 (Nat.succ_pos n)
      rw [Nat.add_zero, Nat.pow_zero, Nat.div_one] at h0
      rw [h0]
      exact UInt8.toNat_ofNat'
    rw [get, hfirst, ih hrest, Nat.pow_succ', Nat.mod_mul]

/-- What was stored is read back, as far as there is room for it. -/
theorem get_put (m : Nat → UInt8) (a n v : Nat) : get (put m a n v) a n = v % 256 ^ n :=
  get_of_bytes fun _ hi => write_inside hi

/-- A number elsewhere is not disturbed by a write. -/
theorem get_write_outside {f : Nat → UInt8} {b k : Nat} (h : b + k ≤ a ∨ a + n ≤ b) :
    get (write m a n f) b k = get m b k :=
  get_congr fun _ _ _ => write_outside (by omega)

theorem get_put_outside {b k : Nat} (h : b + k ≤ a ∨ a + n ≤ b) : get (put m a n v) b k = get m b k :=
  get_write_outside h

/-! ## Lists of bytes -/

/-- The little-endian bytes of a number. -/
def le (n v : Nat) : List UInt8 := (List.range n).map fun i => UInt8.ofNat (v / 256 ^ i)

/-- The number with these bytes, the least significant first. -/
def number : List UInt8 → Nat
  | [] => 0
  | b :: l => b.toNat + 256 * number l

/-- The `n` bytes from `a` on. -/
def slice (m : Nat → UInt8) (a n : Nat) : List UInt8 := (List.range n).map fun i => m (a + i)

/-- The bytes from `a` on are those of the list. -/
def At (m : Nat → UInt8) : Nat → List UInt8 → Prop
  | _, [] => True
  | a, b :: l => m a = b ∧ At m (a + 1) l

variable {l l' : List UInt8}

@[simp]
theorem length_le (n v : Nat) : (le n v).length = n := by
  rw [le, List.length_map, List.length_range]

@[simp]
theorem length_slice (m : Nat → UInt8) (a n : Nat) : (slice m a n).length = n := by
  rw [slice, List.length_map, List.length_range]

theorem slice_congr (h : ∀ i < n, m' (a + i) = m (a + i)) : slice m' a n = slice m a n :=
  List.map_congr_left fun i hi => h i (List.mem_range.1 hi)

theorem at_append : At m a (l ++ l') ↔ At m a l ∧ At m (a + l.length) l' := by
  induction l generalizing a with
  | nil => exact ⟨fun h => ⟨trivial, h⟩, fun h => h.2⟩
  | cons b l ih =>
    rw [List.cons_append, At, ih, At, List.length_cons, and_assoc, Nat.add_right_comm, Nat.add_assoc]

theorem at_iff : At m a l ↔ ∀ i (h : i < l.length), m (a + i) = l[i] := by
  induction l generalizing a with
  | nil => exact ⟨fun _ i h => absurd h (Nat.not_lt_zero i), fun _ => trivial⟩
  | cons b l ih =>
    rw [At, ih]
    constructor
    · rintro ⟨hb, hl⟩ i hi
      cases i with
      | zero => exact hb
      | succ i =>
        have := hl i (Nat.lt_of_succ_lt_succ hi)
        rwa [Nat.add_assoc, Nat.add_comm 1 i] at this
    · intro h
      refine ⟨h 0 (Nat.succ_pos _), fun i hi => ?_⟩
      rw [Nat.add_assoc, Nat.add_comm 1 i]
      exact h (i + 1) (Nat.succ_lt_succ hi)

/-- A list in a memory of its own. -/
theorem at_getD (l : List UInt8) : At (fun i => l.getD i 0) 0 l := by
  rw [at_iff]
  intro i hi
  rw [Nat.zero_add, List.getD_eq_getElem?_getD, List.getElem?_eq_getElem hi, Option.getD_some]

/-- A number is read where its bytes are. -/
theorem At.get (h : At m a (le n v)) : get m a n = v % 256 ^ n := by
  refine get_of_bytes fun i hi => ?_
  rw [at_iff.1 h i (by rwa [length_le])]
  simp only [le, List.getElem_map, List.getElem_range]

/-- A list is read where it is. -/
theorem At.slice (h : At m a l) : slice m a l.length = l := by
  refine List.ext_getElem (length_slice ..) fun i h1 h2 => ?_
  rw [← at_iff.1 h i h2]
  simp only [Bytes.slice, List.getElem_map, List.getElem_range]

theorem le_succ (n v : Nat) : le (n + 1) v = UInt8.ofNat v :: le n (v / 256) := by
  rw [le, List.range_succ_eq_map, List.map_cons, List.map_map, Nat.pow_zero, Nat.div_one]
  refine congrArg _ (List.map_congr_left fun i _ => ?_)
  rw [Function.comp_apply, Nat.div_div_eq_div_mul, ← Nat.pow_succ']

theorem number_le (n v : Nat) : number (le n v) = v % 256 ^ n := by
  induction n generalizing v with
  | zero => exact (Nat.mod_one v).symm
  | succ n ih =>
    have hb : (UInt8.ofNat v).toNat = v % 256 := UInt8.toNat_ofNat'
    rw [le_succ, number, ih, hb, Nat.pow_succ', Nat.mod_mul]

end Bytes
