import Mathlib.Data.Int.NatAbs
import Mathlib.Data.List.Basic
import Mathlib.Data.List.Pairwise

/-!
# Going through a collection that changes

A cursor goes through the items of a collection in order: it begins at the first one, and from an item
it goes on to the first one above it.  `above lt l x` is what is above `x` in the list `l`, which is in
order.

While the cursor is at an item, the item may be taken out of the collection.  What is above it is not
affected by that (`above_without`), so `sweep_spec` says that the cursor visits exactly the items that
were there at the beginning, and that what is left at the end are those which have not been taken out.
-/

namespace Cursor

universe u v

variable {α : Type u} {σ : Type v} {lt : α → α → Prop} [DecidableRel lt] {l t : List α} {x y : α}

/-- The items above `x`. -/
def above (lt : α → α → Prop) [DecidableRel lt] (l : List α) (x : α) : List α := l.filter fun y => lt x y

/-- Above the first item is the rest. -/
theorem above_head (hp : (y :: t).Pairwise lt) (hirr : ¬ lt y y) : above lt (y :: t) y = t := by
  rw [above, List.filter_cons_of_neg (by simpa using hirr), List.filter_eq_self]
  intro z hz
  exact decide_eq_true ((List.pairwise_cons.1 hp).1 z hz)

/-- What is above an item in the middle. -/
theorem above_append (hirr : ∀ a, ¬ lt a a) (htrans : ∀ a b c, lt a b → lt b c → lt a c)
    (hp : (l ++ x :: t).Pairwise lt) : above lt (l ++ x :: t) x = t := by
  obtain ⟨-, hpt, hlt⟩ := List.pairwise_append.1 hp
  have hl : above lt l x = [] := by
    rw [above, List.filter_eq_nil_iff]
    intro y hy h
    exact hirr x (htrans x y x (of_decide_eq_true h) (hlt y hy x List.mem_cons_self))
  rw [above, List.filter_append, show l.filter _ = [] from hl, List.nil_append]
  exact above_head hpt (hirr x)

/-- Without an item, what is above it is the same. -/
theorem above_without [DecidableEq α] (hirr : ∀ a, ¬ lt a a) : above lt (l.filter (· ≠ x)) x = above lt l x := by
  rw [above, above, List.filter_filter]
  refine List.filter_congr fun z _ => ?_
  by_cases hz : z = x
  · subst hz
    simp [hirr z]
  · simp [hz]

/-! ## Searching -/

/-- Go through a collection from the item in hand until one passes the test; `none` if it took too many
steps. -/
def seek (next : α → Option α) (hit : α → Bool) : Nat → Option α → Option (Option α)
  | 0, _ => none
  | _ + 1, none => some none
  | fuel + 1, some x => if hit x then some (some x) else seek next hit fuel (next x)

/-- **A search finds the first item** that passes the test. -/
theorem seek_spec {next : α → Option α} {hit : α → Bool} (hirr : ∀ a, ¬ lt a a)
    (htrans : ∀ a b c, lt a b → lt b c → lt a c) (hp : l.Pairwise lt)
    (hnext : ∀ x, next x = (above lt l x).head?) : ∀ (fuel : Nat) (l1 t : List α), l = l1 ++ t →
      t.length < fuel → seek next hit fuel t.head? = some (t.find? hit)
  | 0, _, _, _, hf => absurd hf (Nat.not_lt_zero _)
  | _ + 1, _, [], _, _ => rfl
  | fuel + 1, l1, x :: t, hl, hf => by
    rw [List.head?_cons, seek, List.find?_cons]
    cases hit x with
    | true => rfl
    | false =>
      have habove : above lt l x = t := by
        rw [hl] at hp ⊢
        exact above_append hirr htrans hp
      rw [if_neg Bool.false_ne_true, hnext x, habove]
      exact seek_spec hirr htrans hp hnext fuel (l1 ++ [x]) t (by rw [hl, List.append_assoc]; rfl)
        (Nat.lt_of_succ_lt_succ hf)

/-! ## Sweeping -/

/-- Go through a collection from the item in hand; the `n`-th item visited is taken out if `d n`.  The
result is what has been visited, and the collection then; `none` if it took too many steps. -/
def sweep (next : σ → α → Option α) (drop : σ → α → σ) (d : Nat → Bool) :
    Nat → Nat → σ → Option α → Option (List α × σ)
  | 0, _, _, _ => none
  | _ + 1, _, s, none => some ([], s)
  | fuel + 1, n, s, some x =>
    let s := if d n then drop s x else s
    (sweep next drop d fuel (n + 1) s (next s x)).map fun r => (x :: r.1, r.2)

/-- The items of a list that are not taken out. -/
def kept (d : Nat → Bool) : Nat → List α → List α
  | _, [] => []
  | n, x :: l => if d n then kept d (n + 1) l else x :: kept d (n + 1) l

variable [DecidableEq α] {next : σ → α → Option α} {drop : σ → α → σ} {items : σ → List α}

/-- From an item on, with what comes before it. -/
theorem sweep_above (hirr : ∀ a, ¬ lt a a) (htrans : ∀ a b c, lt a b → lt b c → lt a c)
    (I : σ → Prop) (hsorted : ∀ s, I s → (items s).Pairwise lt)
    (hnext : ∀ s x, I s → next s x = (above lt (items s) x).head?)
    (hdrop : ∀ s x, I s → x ∈ items s → I (drop s x) ∧ items (drop s x) = (items s).filter (· ≠ x))
    (d : Nat → Bool) : ∀ (fuel n : Nat) (s : σ) (l t : List α), I s → items s = l ++ t →
      t.length < fuel → ∃ s', sweep next drop d fuel n s t.head? = some (t, s') ∧ I s' ∧ items s' = l ++ kept d n t
  | 0, _, _, _, _, _, _, hf => absurd hf (Nat.not_lt_zero _)
  | fuel + 1, n, s, l, [], hI, hs, _ => ⟨s, rfl, hI, hs⟩
  | fuel + 1, n, s, l, x :: t, hI, hs, hf => by
    have hp := hs ▸ hsorted s hI
    obtain ⟨hpl, hpt, hlt⟩ := List.pairwise_append.1 hp
    -- only `x` itself is not related to `x`
    have hnl : ∀ y ∈ l, y ≠ x := fun y hy h => hirr x (h ▸ hlt y hy x List.mem_cons_self)
    have hnt : ∀ y ∈ t, y ≠ x := fun y hy h => hirr x (h ▸ (List.pairwise_cons.1 hpt).1 y hy)
    have hwithout : (items s).filter (· ≠ x) = l ++ t := by
      rw [hs, List.filter_append, List.filter_cons_of_neg (by simp),
        List.filter_eq_self.2 fun y hy => decide_eq_true (hnl y hy),
        List.filter_eq_self.2 fun y hy => decide_eq_true (hnt y hy)]
    have habove : above lt (items s) x = t := by
      rw [hs]
      exact above_append hirr htrans hp
    have hf' := Nat.lt_of_succ_lt_succ hf
    rw [List.head?_cons, sweep, kept]
    by_cases hd : d n = true
    · rw [if_pos hd, if_pos hd]
      obtain ⟨hI', hitems⟩ := hdrop s x hI (hs ▸ by simp)
      rw [hnext _ _ hI', hitems, above_without hirr, habove]
      obtain ⟨s', hsweep, hs'⟩ := sweep_above hirr htrans I hsorted hnext hdrop d fuel (n + 1)
        (drop s x) l t hI' (hitems.trans hwithout) hf'
      exact ⟨s', by rw [hsweep]; rfl, hs'⟩
    · rw [if_neg hd, if_neg hd, hnext s x hI, habove]
      obtain ⟨s', hsweep, hI', hs'⟩ := sweep_above hirr htrans I hsorted hnext hdrop d fuel (n + 1) s
        (l ++ [x]) t hI (by rw [hs, List.append_assoc]; rfl) hf'
      refine ⟨s', by rw [hsweep]; rfl, hI', ?_⟩
      rw [hs', List.append_assoc]
      rfl

/-- **A sweep visits every item once**, and leaves those that it does not take out. -/
theorem sweep_spec (hirr : ∀ a, ¬ lt a a) (htrans : ∀ a b c, lt a b → lt b c → lt a c)
    (I : σ → Prop) (hsorted : ∀ s, I s → (items s).Pairwise lt)
    (hnext : ∀ s x, I s → next s x = (above lt (items s) x).head?)
    (hdrop : ∀ s x, I s → x ∈ items s → I (drop s x) ∧ items (drop s x) = (items s).filter (· ≠ x))
    (d : Nat → Bool) {fuel : Nat} {s : σ} (hI : I s) (hf : (items s).length < fuel) :
    ∃ s', sweep next drop d fuel 0 s (items s).head? = some (items s, s') ∧ I s' ∧ items s' = kept d 0 (items s) := by
  obtain ⟨s', h⟩ := sweep_above hirr htrans I hsorted hnext hdrop d fuel 0 s [] (items s) hI rfl hf
  exact ⟨s', h⟩

end Cursor
