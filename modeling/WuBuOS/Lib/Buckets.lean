import Mathlib.Data.Int.NatAbs
import Mathlib.Data.List.Perm.Basic

/-!
# Tables of buckets

A hash table, a timer wheel and a scheduler's priority array all keep a family of lists and do two
things to it: push an element on the front of one list, and take one list away whole and hand its
elements out again, each to the bucket it now belongs to.  `Buckets.push` and `Buckets.distribute`
are those two operations, and `distribute_apply` says in closed form what the second leaves in
every bucket, so that no caller has to reason about the loop that does it.

`occ_distribute` specialises it to the occurrences of *one* element, the form in which "exactly
once" is proved.  `contents` is all that a list of buckets holds, and `contents_redistribute` says that
handing out again loses nothing.
-/

namespace Buckets

universe u v

variable {ι : Type u} {α : Type v} [DecidableEq ι]

/-- Put `a` on the front of bucket `i`. -/
def push (t : ι → List α) (i : ι) (a : α) : ι → List α :=
  fun j => if j = i then a :: t i else t j

/-- Empty bucket `i`. -/
def clear (t : ι → List α) (i : ι) : ι → List α := fun j => if j = i then [] else t j

/-- Hand out the elements of `l`, first to last, each to the bucket `dest` names for it. -/
def distribute (dest : α → ι) (l : List α) (t : ι → List α) : ι → List α :=
  l.foldl (fun t a => push t (dest a) a) t

/-- **What `distribute` leaves in a bucket**: the elements sent there, in reverse, in front of what
was there before. -/
theorem distribute_apply (dest : α → ι) (l : List α) (t : ι → List α) (i : ι) :
    distribute dest l t i = (l.filter fun a => decide (dest a = i)).reverse ++ t i := by
  induction l generalizing t with
  | nil => rfl
  | cons a l ih =>
    rw [distribute, List.foldl_cons, ← distribute, ih]
    by_cases h : dest a = i
    · simp [push, h]
    · simp [push, h, Ne.symm h]

/-- The elements of bucket `i` that have the property `p`. -/
def occ (p : α → Bool) (t : ι → List α) (i : ι) : List α := (t i).filter p

@[simp] theorem occ_push (p : α → Bool) (t : ι → List α) (i j : ι) (a : α) :
    occ p (push t i a) j = if j = i ∧ p a then a :: occ p t j else occ p t j := by
  by_cases h : j = i
  · subst h; by_cases hp : p a <;> simp [occ, push, hp]
  · simp [occ, push, h]

@[simp] theorem occ_clear (p : α → Bool) (t : ι → List α) (i j : ι) :
    occ p (clear t i) j = if j = i then [] else occ p t j := by
  by_cases h : j = i <;> simp [occ, clear, h]

theorem occ_distribute (p : α → Bool) (dest : α → ι) (l : List α) (t : ι → List α) (i : ι) :
    occ p (distribute dest l t) i
      = ((l.filter p).filter fun a => decide (dest a = i)).reverse ++ occ p t i := by
  rw [occ, distribute_apply, List.filter_append, List.filter_reverse, List.filter_filter, List.filter_filter, occ]
  simp only [Bool.and_comm]

/-- `a` is the only element with property `p` in the whole table, and it sits in bucket `i`. -/
def OnlyAt (p : α → Bool) (t : ι → List α) (a : α) (i : ι) : Prop :=
  ∀ j, occ p t j = if j = i then [a] else []

theorem onlyAt_push {p : α → Bool} {t : ι → List α} {a : α} (i : ι) (hp : p a = true)
    (h : ∀ j, occ p t j = []) : OnlyAt p (push t i a) a i := by
  intro j
  by_cases hj : j = i <;> simp [hj, hp, h]

theorem OnlyAt.push_of_not {p : α → Bool} {t : ι → List α} {a b : α} {i j : ι}
    (h : OnlyAt p t a i) (hb : p b = false) : OnlyAt p (push t j b) a i := by
  intro k
  rw [occ_push, if_neg (by simp [hb])]
  exact h k

/-- Take bucket `j` away and hand its elements out again. -/
def redistribute (dest : α → ι) (t : ι → List α) (j : ι) : ι → List α :=
  distribute dest (t j) (clear t j)

/-- **Redistribution of one element**: it moves if it was in the bucket taken away, and stays where
it was otherwise. -/
theorem OnlyAt.redistribute {p : α → Bool} {t : ι → List α} {a : α} {i : ι}
    (h : OnlyAt p t a i) (dest : α → ι) (j : ι) :
    OnlyAt p (redistribute dest t j) a (if i = j then dest a else i) := by
  have hl : (t j).filter p = if j = i then [a] else [] := h j
  intro k
  rw [Buckets.redistribute, occ_distribute, hl, occ_clear, h k]
  by_cases hij : i = j
  · subst hij
    by_cases hk : dest a = k
    · subst hk; by_cases hi : dest a = i <;> simp [hi]
    · have hs : [a].filter (fun b => decide (dest b = k)) = [] := by simp [hk]
      simp only [if_true, hs, if_neg (Ne.symm hk)]
      by_cases hi : k = i <;> simp [hi]
  · have hji : j ≠ i := Ne.symm hij
    by_cases hk : k = j
    · subst hk; simp [hij, hji]
    · simp [hij, hji, hk]

/-! ## Everything there is -/

/-- All that the buckets hold. -/
def contents (is : List ι) (t : ι → List α) : List α := is.flatMap t

variable {is : List ι} {t : ι → List α} {i : ι} {a : α}

omit [DecidableEq ι] in
theorem mem_contents : a ∈ contents is t ↔ ∃ i ∈ is, a ∈ t i := List.mem_flatMap

theorem contents_push_of_notMem (h : i ∉ is) : contents is (push t i a) = contents is t := by
  refine List.flatMap_congr fun j hj => ?_
  rw [push, if_neg]
  rintro rfl
  exact h hj

/-- One bucket in front of the others. -/
theorem contents_erase (hi : i ∈ is) (t : ι → List α) : (contents is t).Perm (t i ++ contents (is.erase i) t) :=
  (List.perm_cons_erase hi).flatMap_right t

theorem contents_push (hnd : is.Nodup) (hi : i ∈ is) : (contents is (push t i a)).Perm (a :: contents is t) := by
  have h := contents_erase hi (push t i a)
  rw [contents_push_of_notMem hnd.not_mem_erase, push, if_pos rfl, List.cons_append] at h
  exact h.trans ((contents_erase hi t).symm.cons a)

theorem contents_clear (hnd : is.Nodup) (hi : i ∈ is) : (contents is t).Perm (t i ++ contents is (clear t i)) := by
  have hrest : contents (is.erase i) (clear t i) = contents (is.erase i) t := by
    refine List.flatMap_congr fun j hj => ?_
    rw [clear, if_neg]
    rintro rfl
    exact hnd.not_mem_erase hj
  have h := contents_erase hi (clear t i)
  rw [hrest, clear, if_pos rfl, List.nil_append] at h
  exact (contents_erase hi t).trans (h.symm.append_left (t i))

theorem contents_distribute (hnd : is.Nodup) {dest : α → ι} {l : List α} (hl : ∀ a ∈ l, dest a ∈ is) :
    (contents is (distribute dest l t)).Perm (l ++ contents is t) := by
  induction l generalizing t with
  | nil => exact List.Perm.refl _
  | cons a l ih =>
    rw [distribute, List.foldl_cons, ← distribute]
    refine (ih fun b hb => hl b (List.mem_cons_of_mem a hb)).trans ?_
    exact ((contents_push hnd (hl a List.mem_cons_self)).append_left l).trans List.perm_middle

/-- **Handing out again loses nothing.** -/
theorem contents_redistribute (hnd : is.Nodup) {dest : α → ι} (hi : i ∈ is) (hl : ∀ a ∈ t i, dest a ∈ is) :
    (contents is (redistribute dest t i)).Perm (contents is t) :=
  (contents_distribute hnd hl).trans (contents_clear hnd hi).symm

end Buckets
