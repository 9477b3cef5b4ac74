import Mathlib.Data.Int.NatAbs
import Mathlib.Data.Finset.Card
import Mathlib.Data.Nat.Find

/-!
# Following links as long as they lead somewhere

A walk goes from place to place by a function `next` and stops at the first place that is not `live`.
`Path next live a l e` says that from `a` it goes through exactly the places of `l`, all of them live,
to `e`; it may come by a place twice, and need not stop at `e`.

Where there are only so many live places, a walk that is cut off when it comes to a place again, or to one that
fails a test, is a path without repetition (`exists_path`); and a walk that ends does so after no more steps
than there are live places (`exists_iterate_le_card`).
-/

namespace Trail

universe u

variable {α : Type u} {next next' : α → α} {live p : α → Prop} {a b e : α} {l : List α}

/-- The places that a walk goes through, and where it comes to. -/
def Path (next : α → α) (live : α → Prop) : α → List α → α → Prop
  | a, [], e => a = e
  | a, x :: l, e => a = x ∧ live x ∧ Path next live (next x) l e

/-- The walk comes to a live place. -/
def Reaches (next : α → α) (live : α → Prop) (a b : α) : Prop :=
  ∃ k, (∀ i ≤ k, live (next^[i] a)) ∧ next^[k] a = b

theorem Path.congr (h : Path next live a l e) (hn : ∀ x ∈ l, next' x = next x) : Path next' live a l e := by
  induction l generalizing a with
  | nil => exact h
  | cons x l ih =>
    obtain ⟨rfl, hx, hl⟩ := h
    refine ⟨rfl, hx, ?_⟩
    rw [hn a List.mem_cons_self]
    exact ih hl fun y hy => hn y (List.mem_cons_of_mem a hy)

theorem Path.live_of_mem (h : Path next live a l e) {x : α} (hx : x ∈ l) : live x := by
  induction l generalizing a with
  | nil => exact absurd hx List.not_mem_nil
  | cons y l ih =>
    rcases List.mem_cons.1 hx with rfl | hx
    · exact h.2.1
    · exact ih h.2.2 hx

theorem Path.head_getD (h : Path next live a l e) : a = l.getD 0 e := by
  cases l with
  | nil => exact h
  | cons x l => exact h.1

theorem Path.next_getD (h : Path next live a l e) {i : Nat} (hi : i < l.length) : next (l.getD i e) = l.getD (i + 1) e := by
  induction l generalizing a i with
  | nil => exact absurd hi (Nat.not_lt_zero _)
  | cons x l ih =>
    obtain ⟨rfl, -, hl⟩ := h
    cases i with
    | zero => exact hl.head_getD
    | succ i => exact ih hl (Nat.lt_of_succ_lt_succ hi)

/-- One place further. -/
theorem Path.snoc (h : Path next live a l e) (he : live e) : Path next live a (l ++ [e]) (next e) := by
  induction l generalizing a with
  | nil => exact ⟨h, he, rfl⟩
  | cons x l ih => exact ⟨h.1, h.2.1, ih h.2.2⟩

theorem Reaches.head (h : Reaches next live a b) : live a := h.choose_spec.1 0 (Nat.zero_le _)

/-- It is where the walk begins, or it is reached from the next place. -/
theorem Reaches.cases_head (h : Reaches next live a b) : a = b ∨ Reaches next live (next a) b := by
  obtain ⟨k, hlive, rfl⟩ := h
  cases k with
  | zero => exact Or.inl rfl
  | succ k =>
    refine Or.inr ⟨k, fun i hi => ?_, ?_⟩
    · rw [← Function.iterate_succ_apply]
      exact hlive (i + 1) (Nat.succ_le_succ hi)
    · exact Function.iterate_succ_apply ..

theorem Reaches.refl (ha : live a) : Reaches next live a a :=
  ⟨0, fun i hi => by rw [Nat.le_zero.1 hi]; exact ha, rfl⟩

theorem Reaches.cons (ha : live a) (h : Reaches next live (next a) b) : Reaches next live a b := by
  obtain ⟨k, hlive, rfl⟩ := h
  refine ⟨k + 1, fun i hi => ?_, Function.iterate_succ_apply ..⟩
  cases i with
  | zero => exact ha
  | succ i =>
    rw [Function.iterate_succ_apply]
    exact hlive i (Nat.le_of_succ_le_succ hi)

/-- What is reached is on the path, or behind it. -/
theorem Path.cases_reaches (h : Path next live a l e) (hr : Reaches next live a b) : b ∈ l ∨ Reaches next live e b := by
  induction l generalizing a with
  | nil =>
    obtain rfl : a = e := h
    exact Or.inr hr
  | cons x l ih =>
    obtain ⟨rfl, -, hl⟩ := h
    rcases hr.cases_head with rfl | hr
    · exact Or.inl List.mem_cons_self
    · exact (ih hl hr).imp_left (List.mem_cons_of_mem a)

theorem Path.reaches_of_mem (h : Path next live a l e) (hb : b ∈ l) : Reaches next live a b := by
  induction l generalizing a with
  | nil => exact absurd hb List.not_mem_nil
  | cons x l ih =>
    obtain ⟨rfl, ha, hl⟩ := h
    rcases List.mem_cons.1 hb with rfl | hb
    · exact .refl ha
    · exact .cons ha (ih hl hb)

/-- A path that stops goes through what is reached, and nothing else. -/
theorem Path.reaches_iff (h : Path next live a l e) (he : ¬live e) : Reaches next live a b ↔ b ∈ l :=
  ⟨fun hr => (h.cases_reaches hr).resolve_right fun hr' => he hr'.head, h.reaches_of_mem⟩

/-- From a place of the path, the walk goes on through it. -/
theorem Path.next_mem (h : Path next live a l e) (hb : b ∈ l) : next b ∈ l ∨ next b = e := by
  induction l generalizing a with
  | nil => exact absurd hb List.not_mem_nil
  | cons x l ih =>
    obtain ⟨rfl, -, hl⟩ := h
    rcases List.mem_cons.1 hb with rfl | hb
    · cases l with
      | nil => exact Or.inr hl
      | cons y l => exact Or.inl (List.mem_cons.2 (Or.inr (hl.1 ▸ List.mem_cons_self)))
    · exact (ih hl hb).imp_left (List.mem_cons_of_mem a)

/-- A path that comes to one of its places goes through all that is reached. -/
theorem Path.mem_of_cycle (h : Path next live a l e) (he : e ∈ l) (hr : Reaches next live a b) : b ∈ l := by
  have hstay : ∀ x ∈ l, next x ∈ l := fun x hx => (h.next_mem hx).elim id fun hn => hn ▸ he
  have hiter : ∀ k, ∀ x ∈ l, next^[k] x ∈ l := by
    intro k
    induction k with
    | zero => exact fun x hx => hx
    | succ k ih =>
      intro x hx
      rw [Function.iterate_succ_apply]
      exact ih _ (hstay x hx)
  rcases h.cases_reaches hr with hb | ⟨k, -, rfl⟩
  · exact hb
  · exact hiter k e he

/-- **Every walk begins with a path without repetition** through places that pass a test, up to one that
is not live, or has been passed before, or fails the test. -/
theorem exists_path [DecidableEq α] (next : α → α) (live p : α → Prop) {s : Finset α} (hs : ∀ x, live x → x ∈ s)
    (a : α) : ∃ l e, Path next live a l e ∧ l.Nodup ∧ (∀ x ∈ l, p x) ∧ (¬live e ∨ e ∈ l ∨ ¬p e) := by
  suffices h : ∀ n l e, s.card ≤ l.length + n → Path next live a l e → l.Nodup → (∀ x ∈ l, p x) →
      ∃ l e, Path next live a l e ∧ l.Nodup ∧ (∀ x ∈ l, p x) ∧ (¬live e ∨ e ∈ l ∨ ¬p e) from
    h s.card [] a (Nat.le_add_left ..) rfl List.nodup_nil fun x hx => absurd hx List.not_mem_nil
  intro n
  induction n with
  | zero =>
    intro l e hcard hpath hnd hp
    refine ⟨l, e, hpath, hnd, hp, or_iff_not_imp_left.2 fun he => Or.inl ?_⟩
    -- all live places are on the path
    have hsub : l.toFinset ⊆ s := fun x hx => hs x (hpath.live_of_mem (List.mem_toFinset.1 hx))
    have hall : l.toFinset = s := Finset.eq_of_subset_of_card_le hsub (by
      rw [List.toFinset_card_of_nodup hnd]
      exact hcard)
    exact List.mem_toFinset.mp (hall ▸ hs e (not_not.1 he))
  | succ n ih =>
    intro l e hcard hpath hnd hp
    by_cases hend : ¬live e ∨ e ∈ l ∨ ¬p e
    · exact ⟨l, e, hpath, hnd, hp, hend⟩
    · obtain ⟨he, hnot⟩ := not_or.1 hend
      obtain ⟨hmem, hpe⟩ := not_or.1 hnot
      refine ih (l ++ [e]) (next e) ?_ (hpath.snoc (not_not.1 he)) ?_ ?_
      · rw [List.length_append, List.length_singleton]
        omega
      · exact List.nodup_append.2 ⟨hnd, List.nodup_singleton e, fun x hx y hy hxy =>
          hmem (List.mem_singleton.1 hy ▸ hxy ▸ hx)⟩
      · intro x hx
        rcases List.mem_append.1 hx with hx | hx
        · exact hp x hx
        · rw [List.mem_singleton.1 hx]
          exact not_not.1 hpe

/-- **A walk that ends comes to its end within as many steps as there are live places.** -/
theorem exists_iterate_le_card [DecidableEq α] [DecidablePred live] {s : Finset α} (hs : ∀ x, live x → x ∈ s)
    (h : ∃ k, ¬live (next^[k] a)) : ∃ k ≤ s.card, ¬live (next^[k] a) := by
  refine ⟨Nat.find h, ?_, Nat.find_spec h⟩
  have hlive : ∀ j < Nat.find h, live (next^[j] a) := fun j hj => not_not.1 (Nat.find_min h hj)
  have hinj : Set.InjOn (fun j => next^[j] a) (Finset.range (Nat.find h)) := by
    intro i hi j hj hij
    wlog hlt : i < j generalizing i j
    · rcases Nat.lt_trichotomy i j with hlt' | heq | hgt
      · exact absurd hlt' hlt
      · exact heq
      · exact (this hj hi hij.symm hgt).symm
    -- from the place that is met again the walk would come to its end sooner
    have hj' := Finset.mem_range.1 hj
    refine absurd (hlive (Nat.find h - j + i) (by omega)) ?_
    rw [Function.iterate_add_apply, show next^[i] a = next^[j] a from hij, ← Function.iterate_add_apply,
      Nat.sub_add_cancel hj'.le]
    exact Nat.find_spec h
  rw [← Finset.card_range (Nat.find h), ← Finset.card_image_of_injOn hinj]
  exact Finset.card_le_card (Finset.image_subset_iff.2 fun j hj => hs _ (hlive j (Finset.mem_range.1 hj)))

end Trail
