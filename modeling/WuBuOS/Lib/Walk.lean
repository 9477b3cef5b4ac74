import Mathlib.Data.Int.NatAbs
import Mathlib.Data.List.Forall2

/-!
# Walking a stream of items

A stream is written by appending the code of one item after the other, without a separator: where an item
ends is known by reading it.  `walk one len` reads items from the front of what is left of the stream, and
reports each with the place where it begins.

One item read wrongly is enough to lose the places of all that follow.  So the walk is right
(`Walk.Follows`) exactly if every single item is read rightly whatever comes behind it
(`Walk.follows_iff`).
-/

namespace Walk

universe u v w

variable {α : Type u} {β : Type v} {γ : Type w}

/-- Read items until there is none, for at most `n` items. -/
def walk (one : List β → Option α) (len : α → Nat) : Nat → Nat → List β → List (Nat × α)
  | 0, _, _ => []
  | n + 1, offset, s =>
    match one s with
    | none => []
    | some x => (offset, x) :: walk one len n (offset + len x) (s.drop (len x))

/-- The code of a sequence of items. -/
def stream (enc : γ → List β) (cs : List γ) : List β := cs.flatMap enc

/-- The items with the places where they begin. -/
def places (enc : γ → List β) : Nat → List γ → List (Nat × γ)
  | _, [] => []
  | offset, c :: cs => (offset, c) :: places enc (offset + (enc c).length) cs

/-- The walk stops where the items begin, and says of each what it is. -/
def Follows (rep : γ → α → Prop) (found : List (Nat × α)) (items : List (Nat × γ)) : Prop :=
  List.Forall₂ (fun f i => f.1 = i.1 ∧ rep i.2 f.2) found items

variable {one : List β → Option α} {len : α → Nat} {enc : γ → List β} {rep : γ → α → Prop}
  {good : γ → Prop}

/-- A good item is read as it is, whatever comes behind it. -/
def Reads (one : List β → Option α) (len : α → Nat) (enc : γ → List β) (rep : γ → α → Prop) (c : γ) : Prop :=
  ∀ rest, ∃ x, one (enc c ++ rest) = some x ∧ len x = (enc c).length ∧ rep c x

theorem walk_cons {c : γ} {x : α} {rest : List β} (hone : one (enc c ++ rest) = some x)
    (hlen : len x = (enc c).length) (n offset : Nat) :
    walk one len (n + 1) offset (enc c ++ rest) = (offset, x) :: walk one len n (offset + (enc c).length) rest := by
  rw [walk, hone]
  simp only [hlen, List.drop_left]

theorem stream_cons (c : γ) (cs : List γ) : stream enc (c :: cs) = enc c ++ stream enc cs := List.flatMap_cons

/-- **The walk follows the items exactly if it can read each of them.** -/
theorem follows_iff (hend : one [] = none) (hne : ∀ c, enc c ≠ []) (hgood : ∀ c, good c → Reads one len enc rep c)
    (hbad : ∀ c, ¬good c → ∀ rest x, one (enc c ++ rest) = some x → ¬rep c x) :
    ∀ (cs : List γ) (n offset : Nat), (stream enc cs).length ≤ n →
      (Follows rep (walk one len n offset (stream enc cs)) (places enc offset cs) ↔ ∀ c ∈ cs, good c) := by
  intro cs
  induction cs with
  | nil =>
    intro n offset _
    have hnil : walk one len n offset (stream enc ([] : List γ)) = [] := by
      cases n with
      | zero => rfl
      | succ n =>
        show walk one len (n + 1) offset [] = []
        rw [walk, hend]
    rw [hnil]
    exact ⟨fun _ _ h => (nomatch h), fun _ => List.Forall₂.nil⟩
  | cons c cs ih =>
    intro n offset hn
    have hpos := List.length_pos_iff.2 (hne c)
    rw [stream_cons, List.length_append] at hn
    obtain ⟨n, rfl⟩ : ∃ m, n = m + 1 := Nat.exists_eq_succ_of_ne_zero (by omega)
    rw [stream_cons, places, List.forall_mem_cons]
    by_cases hc : good c
    · obtain ⟨x, hone, hlen, hrep⟩ := hgood c hc (stream enc cs)
      rw [walk_cons hone hlen, Follows, List.forall₂_cons]
      exact ⟨fun h => ⟨hc, (ih n _ (by omega)).1 h.2⟩, fun h => ⟨⟨rfl, hrep⟩, (ih n _ (by omega)).2 h.2⟩⟩
    · refine ⟨fun h => ?_, fun h => absurd h.1 hc⟩
      rw [walk] at h
      cases hone : one (enc c ++ stream enc cs) with
      | none =>
        rw [hone] at h
        cases h
      | some x =>
        rw [hone] at h
        exact absurd (List.forall₂_cons.1 h).1.2 (hbad c hc _ x hone)

end Walk
