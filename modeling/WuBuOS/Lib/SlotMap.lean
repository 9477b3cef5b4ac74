import Mathlib.Data.Int.NatAbs
import Mathlib.Data.List.FinRange

/-!
# A table of slots as a map

A table has `n` slots.  A slot in use has a key, a free one has none (`key`), and no two slots have the
same key (`Unique`).  Such a table stands for a map (`view`): what is stored under a key is what the slot
with this key says.  Storing, replacing and deleting all write one slot, and `Unique.view_update` says what
that does to the map.

The keys are enumerated in the order of the slots (`slotsFrom`); after a slot come the ones behind it
(`slotsFrom_next`).
-/

namespace SlotMap

open Function (update_of_ne update_self)

universe u v w

variable {n : Nat} {σ : Type u} {κ : Type v} {ν : Type w}

/-- The first slot with the key. -/
def find [DecidableEq κ] (key : σ → Option κ) (t : Fin n → σ) (k : κ) : Option (Fin n) :=
  (List.finRange n).find? fun i => key (t i) = some k

/-- No two slots have the same key. -/
def Unique (key : σ → Option κ) (t : Fin n → σ) : Prop :=
  ∀ i j k, key (t i) = some k → key (t j) = some k → i = j

/-- The map that the table stands for. -/
def view [DecidableEq κ] (key : σ → Option κ) (val : σ → ν) (t : Fin n → σ) (k : κ) : Option ν :=
  (find key t k).map fun i => val (t i)

variable {key : σ → Option κ} {val : σ → ν} {t : Fin n → σ} {i j : Fin n} {k : κ} {s : σ}

/-- The key of the new contents is in no other slot. -/
theorem Unique.update (h : Unique key t) (hs : ∀ k, key s = some k → ∀ j, j ≠ i → key (t j) ≠ some k) :
    Unique key (Function.update t i s) := by
  intro a b k ha hb
  by_cases hai : a = i <;> by_cases hbi : b = i
  · exact hai.trans hbi.symm
  · subst hai
    rw [update_self] at ha
    rw [update_of_ne hbi] at hb
    exact absurd hb (hs k ha b hbi)
  · subst hbi
    rw [update_self] at hb
    rw [update_of_ne hai] at ha
    exact absurd ha (hs k hb a hai)
  · rw [update_of_ne hai] at ha
    rw [update_of_ne hbi] at hb
    exact h a b k ha hb

variable [DecidableEq κ]

theorem key_of_find (h : find key t k = some i) : key (t i) = some k := by
  have hi := List.find?_some h
  exact of_decide_eq_true hi

theorem find_eq_none_iff : find key t k = none ↔ ∀ i, key (t i) ≠ some k := by
  rw [find, List.find?_eq_none]
  exact ⟨fun h i hi => h i (List.mem_finRange i) (decide_eq_true hi), fun h i _ hi => h i (of_decide_eq_true hi)⟩

omit [DecidableEq κ] in
/-- The search for something that is in one slot only. -/
theorem find_of_unique {p : Fin n → Bool} (hi : p i = true) (h : ∀ j, p j = true → j = i) :
    (List.finRange n).find? p = some i := by
  cases hf : (List.finRange n).find? p with
  | none => exact absurd hi (List.find?_eq_none.1 hf i (List.mem_finRange i))
  | some j => rw [h j (List.find?_some hf)]

theorem Unique.find_eq_some_iff (h : Unique key t) : find key t k = some i ↔ key (t i) = some k := by
  refine ⟨key_of_find, fun hi => ?_⟩
  cases hf : find key t k with
  | none => exact absurd hi (find_eq_none_iff.1 hf i)
  | some j => rw [h i j k hi (key_of_find hf)]

theorem Unique.view_of_key (h : Unique key t) (hi : key (t i) = some k) : view key val t k = some (val (t i)) := by
  rw [view, h.find_eq_some_iff.2 hi]
  rfl

theorem view_eq_none_iff : view key val t k = none ↔ ∀ i, key (t i) ≠ some k :=
  Option.map_eq_none_iff.trans find_eq_none_iff

/-! ## Writing a slot -/

/-- **What a write does to the map**: the new key has the new value, the old one has none. -/
theorem Unique.view_update (h : Unique key t) (hs : ∀ k, key s = some k → ∀ j, j ≠ i → key (t j) ≠ some k) :
    view key val (Function.update t i s) k =
      if key s = some k then some (val s) else if key (t i) = some k then none else view key val t k := by
  have hu := h.update hs
  split
  · rename_i hk
    have hi : key (Function.update t i s i) = some k := by rw [update_self, hk]
    rw [hu.view_of_key hi, update_self]
  rename_i hnew
  split
  · rename_i hold
    refine view_eq_none_iff.2 fun j hj => ?_
    by_cases hji : j = i
    · subst hji
      rw [update_self] at hj
      exact hnew hj
    · rw [update_of_ne hji] at hj
      exact hji (h j i k hj hold)
  · rename_i hold
    cases hv : find key t k with
    | none =>
      rw [view_eq_none_iff.2 (find_eq_none_iff.1 hv)]
      refine view_eq_none_iff.2 fun j hj => ?_
      by_cases hji : j = i
      · subst hji
        rw [update_self] at hj
        exact hnew hj
      · rw [update_of_ne hji] at hj
        exact find_eq_none_iff.1 hv j hj
    | some j =>
      have hj := key_of_find hv
      have hji : j ≠ i := fun he => hold (he ▸ hj)
      have hj' : key (Function.update t i s j) = some k := by rw [update_of_ne hji, hj]
      rw [hu.view_of_key hj', h.view_of_key hj, update_of_ne hji]

/-! ## Enumeration -/

/-- The slots in use from a slot on. -/
def slotsFrom (used : Fin n → Bool) (start : Nat) : List (Fin n) := ((List.finRange n).drop start).filter used

variable {used : Fin n → Bool} {start : Nat}

theorem slotsFrom_none (h : ((List.finRange n).drop start).find? used = none) : slotsFrom used start = [] :=
  List.filter_eq_nil_iff.2 (List.find?_eq_none.1 h)

/-- **Behind the first slot in use come those after it.** -/
theorem slotsFrom_next (h : ((List.finRange n).drop start).find? used = some j) :
    slotsFrom used start = j :: slotsFrom used (j + 1) := by
  obtain ⟨hj, pre, post, hsplit, hpre⟩ := List.find?_eq_some_iff_append.1 h
  obtain ⟨front, hall⟩ : ∃ front, List.finRange n = (front ++ pre) ++ j :: post :=
    ⟨(List.finRange n).take start, by rw [List.append_assoc, ← hsplit, List.take_append_drop]⟩
  -- The slot at an index is the index itself.
  have hindex : (front ++ pre).length = j := by
    have hget : (List.finRange n)[(front ++ pre).length]? = some j := by
      rw [hall, List.getElem?_append_right (Nat.le_refl _), Nat.sub_self]
      rfl
    obtain ⟨hlt, hget⟩ := List.getElem?_eq_some_iff.1 hget
    rw [List.getElem_finRange] at hget
    exact congrArg Fin.val hget
  have hpost : (List.finRange n).drop (j + 1) = post := by
    rw [hall, List.append_cons, ← hindex]
    exact List.drop_left' (by rw [List.length_append]; rfl)
  unfold slotsFrom
  rw [hsplit, List.filter_append, List.filter_cons_of_pos hj, hpost,
    List.filter_eq_nil_iff.2 fun a ha => by simpa using hpre a ha]
  rfl

end SlotMap
