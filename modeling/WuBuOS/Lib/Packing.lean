import Mathlib.Data.Int.NatAbs
import Mathlib.Algebra.Order.BigOperators.Group.List

/-!
# Packing items into a row

Items with a size and an alignment are placed one after the other, each at the next multiple of its alignment.  They do
not overlap, and they take at least the sum of their sizes.  Where every alignment divides those before it, and every
size is a multiple of its alignment, nothing is left free between them (`extent_of_dvd`), so no other order takes
less (`extent_le_of_perm`).
-/

namespace Packing

/-! ## Rounding up -/

variable {a x y : Nat}

/-- The next multiple of `a`. -/
def alignUp (x a : Nat) : Nat := (x + a - 1) / a * a

theorem dvd_alignUp (x a : Nat) : a ∣ alignUp x a := Nat.dvd_mul_left a _

theorem le_alignUp (x : Nat) (ha : 0 < a) : x ≤ alignUp x a := by
  have h := Nat.lt_div_mul_add (a := x + a - 1) ha
  rw [alignUp]
  omega

theorem alignUp_of_dvd (ha : 0 < a) (h : a ∣ x) : alignUp x a = x := by
  obtain ⟨k, rfl⟩ := h
  rw [alignUp, show a * k + a - 1 = a - 1 + a * k by omega, Nat.add_mul_div_left _ _ ha,
    Nat.div_eq_of_lt (by omega), Nat.zero_add, Nat.mul_comm]

theorem alignUp_mono (h : x ≤ y) (a : Nat) : alignUp x a ≤ alignUp y a :=
  Nat.mul_le_mul_right a (Nat.div_le_div_right (by omega))

/-! ## Placing -/

variable {α : Type*} {size align : α → Nat}

/-- The items with their places, from `x` on. -/
def placed (size align : α → Nat) : List α → Nat → List (α × Nat)
  | [], _ => []
  | i :: l, x => (i, alignUp x (align i)) :: placed size align l (alignUp x (align i) + size i)

/-- Where they end. -/
def extent (size align : α → Nat) : List α → Nat → Nat
  | [], x => x
  | i :: l, x => extent size align l (alignUp x (align i) + size i)

def total (size : α → Nat) (l : List α) : Nat := (l.map size).sum

@[simp]
theorem total_cons (i : α) (l : List α) : total size (i :: l) = size i + total size l := List.sum_cons

theorem map_placed (l : List α) (x : Nat) : (placed size align l x).map Prod.fst = l := by
  induction l generalizing x with
  | nil => rfl
  | cons i l ih => rw [placed, List.map_cons, ih]

theorem placed_append (l l' : List α) (x : Nat) :
    placed size align (l ++ l') x = placed size align l x ++ placed size align l' (extent size align l x) := by
  induction l generalizing x with
  | nil => rfl
  | cons i l ih => rw [List.cons_append, placed, placed, extent, ih, List.cons_append]

theorem add_total_le_extent {l : List α} (hpos : ∀ i ∈ l, 0 < align i) (x : Nat) :
    x + total size l ≤ extent size align l x := by
  induction l generalizing x with
  | nil => exact Nat.le_refl x
  | cons i l ih =>
    obtain ⟨hi, hpos⟩ := List.forall_mem_cons.1 hpos
    have hle := le_alignUp x hi
    have := ih hpos (alignUp x (align i) + size i)
    rw [total_cons, extent]
    omega

/-- A place is a multiple of the alignment, and the item lies in the row. -/
theorem placed_spec {l : List α} (hpos : ∀ i ∈ l, 0 < align i) {p : α × Nat} {x : Nat} (h : p ∈ placed size align l x) :
    align p.1 ∣ p.2 ∧ x ≤ p.2 ∧ p.2 + size p.1 ≤ extent size align l x := by
  induction l generalizing x with
  | nil => exact absurd h List.not_mem_nil
  | cons i l ih =>
    obtain ⟨hi, hpos⟩ := List.forall_mem_cons.1 hpos
    have hle := le_alignUp x hi
    rcases List.mem_cons.1 h with rfl | h
    · have hend : alignUp x (align i) + size i + total size l ≤ _ := add_total_le_extent hpos _
      exact ⟨dvd_alignUp x _, hle, Nat.le_trans (Nat.le_add_right _ _) hend⟩
    · obtain ⟨hd, hx, he⟩ := ih hpos h
      exact ⟨hd, by omega, he⟩

theorem placed_pairwise {l : List α} (hpos : ∀ i ∈ l, 0 < align i) (x : Nat) :
    (placed size align l x).Pairwise fun p q => p.2 + size p.1 ≤ q.2 := by
  induction l generalizing x with
  | nil => exact List.Pairwise.nil
  | cons i l ih =>
    obtain ⟨-, hpos⟩ := List.forall_mem_cons.1 hpos
    exact List.Pairwise.cons (fun q hq => (placed_spec hpos hq).2.1) (ih hpos _)

/-- With nothing left free, the items end where their sizes do. -/
theorem extent_of_dvd {l : List α} (hpos : ∀ i ∈ l, 0 < align i) (hl : l.Pairwise fun i j => align j ∣ align i)
    (hs : ∀ i ∈ l, align i ∣ size i) {x : Nat} (hx : ∀ i ∈ l, align i ∣ x) :
    extent size align l x = x + total size l := by
  induction l generalizing x with
  | nil => rfl
  | cons i l ih =>
    obtain ⟨hi, hpos⟩ := List.forall_mem_cons.1 hpos
    obtain ⟨hdvd, hl⟩ := List.pairwise_cons.1 hl
    obtain ⟨hsi, hs⟩ := List.forall_mem_cons.1 hs
    obtain ⟨hxi, hx⟩ := List.forall_mem_cons.1 hx
    rw [extent, alignUp_of_dvd hi hxi, ih hpos hl hs, total_cons, Nat.add_assoc]
    exact fun j hj => Nat.dvd_add (hx j hj) ((hdvd j hj).trans hsi)

/-- With nothing left free, the place of an item is what the ones before it take. -/
theorem mem_placed_of_dvd {l : List α} (hpos : ∀ i ∈ l, 0 < align i) (hl : l.Pairwise fun i j => align j ∣ align i)
    (hs : ∀ i ∈ l, align i ∣ size i) {p : α × Nat} {x : Nat} (hx : ∀ i ∈ l, align i ∣ x) :
    p ∈ placed size align l x ↔ ∃ pre post, l = pre ++ p.1 :: post ∧ p.2 = x + total size pre := by
  induction l generalizing x with
  | nil => simp [placed]
  | cons i l ih =>
    obtain ⟨hi, hpos⟩ := List.forall_mem_cons.1 hpos
    obtain ⟨hdvd, hl⟩ := List.pairwise_cons.1 hl
    obtain ⟨hsi, hs⟩ := List.forall_mem_cons.1 hs
    obtain ⟨hxi, hx⟩ := List.forall_mem_cons.1 hx
    have hnext : ∀ j ∈ l, align j ∣ x + size i := fun j hj => Nat.dvd_add (hx j hj) ((hdvd j hj).trans hsi)
    rw [placed, alignUp_of_dvd hi hxi, List.mem_cons, ih hpos hl hs hnext]
    constructor
    · rintro (rfl | ⟨pre, post, rfl, hp⟩)
      · exact ⟨[], l, rfl, rfl⟩
      · exact ⟨i :: pre, post, rfl, by rw [hp, total_cons, Nat.add_assoc]⟩
    · rintro ⟨pre, post, hsplit, hp⟩
      cases pre with
      | nil =>
        obtain ⟨rfl, rfl⟩ := List.cons.inj hsplit
        exact .inl (Prod.ext rfl hp)
      | cons j pre =>
        obtain ⟨rfl, rfl⟩ := List.cons.inj hsplit
        exact .inr ⟨pre, post, rfl, by rw [hp, total_cons, Nat.add_assoc]⟩

/-- **No other order takes less.** -/
theorem extent_le_of_perm {l l' : List α} (hpos : ∀ i ∈ l, 0 < align i)
    (hl : l.Pairwise fun i j => align j ∣ align i) (hs : ∀ i ∈ l, align i ∣ size i) (h : l'.Perm l) :
    extent size align l 0 ≤ extent size align l' 0 := by
  rw [extent_of_dvd hpos hl hs fun _ _ => Nat.dvd_zero _]
  calc 0 + total size l = 0 + total size l' := by rw [total, total, (h.map size).sum_eq]
    _ ≤ extent size align l' 0 := add_total_le_extent (fun i hi => hpos i (h.mem_iff.1 hi)) 0

/-- With nothing left free, every place up to the end is taken. -/
theorem exists_placed_of_lt {l : List α} (hpos : ∀ i ∈ l, 0 < align i) {x y : Nat}
    (hext : extent size align l x = x + total size l) (hle : x ≤ y) (hlt : y < extent size align l x) :
    ∃ p ∈ placed size align l x, p.2 ≤ y ∧ y < p.2 + size p.1 := by
  induction l generalizing x with
  | nil => exact absurd hlt (Nat.not_lt.2 hle)
  | cons i l ih =>
    obtain ⟨hi, hpos⟩ := List.forall_mem_cons.1 hpos
    have hge := le_alignUp x hi
    have hend : alignUp x (align i) + size i + total size l ≤ extent size align (i :: l) x :=
      add_total_le_extent hpos _
    rw [total_cons] at hext
    have hix : alignUp x (align i) = x := by omega
    by_cases hy : y < x + size i
    · exact ⟨(i, alignUp x (align i)), List.mem_cons_self, by rw [hix]; exact ⟨hle, hy⟩⟩
    · rw [extent, hix] at hext hlt
      obtain ⟨p, hp, h⟩ := ih hpos (by omega) (by omega) hlt
      exact ⟨p, List.mem_cons_of_mem _ (by rw [hix]; exact hp), h⟩

end Packing
