import Mathlib.Data.Int.NatAbs
import Mathlib.Data.List.Basic

/-!
# Tilings

A list of tiles, each with a first place, an end and a label, tiles a stretch of numbers when every tile
starts where the one before it ends (`Tiles`).  A place of the stretch then has the label of the one tile
that it lies in (`labelAt`).

Two changes keep a tiling: each tile may be cut into tiles of its own (`Tiles.flatMap`), and two tiles
next to each other may be joined (`Tiles.join`).  What becomes of the labels is `labelAt_flatMap` and
`labelAt_join`.
-/

namespace Tiling

universe u v

variable {ρ : Type u} {α : Type v} (lo hi : ρ → Nat) (label : ρ → α)

/-- The tiles lie end to end from the first number to the second. -/
def Tiles : Nat → List ρ → Nat → Prop
  | a, [], b => a = b
  | a, r :: rs, b => lo r = a ∧ a < hi r ∧ Tiles (hi r) rs b

/-- The label of the first tile that the place lies in. -/
def labelAt (l : List ρ) (x : Nat) : Option α := (l.find? fun r => lo r ≤ x ∧ x < hi r).map label

variable {lo hi label} {a b m x : Nat} {r r' s : ρ} {l l' : List ρ}

theorem Tiles.le : ∀ {a b : Nat} {l : List ρ}, Tiles lo hi a l b → a ≤ b
  | _, _, [], h => Nat.le_of_eq h
  | _, _, _ :: _, h => Nat.le_trans (Nat.le_of_lt h.2.1) h.2.2.le

theorem tiles_append : ∀ {a b : Nat} {l l' : List ρ},
    Tiles lo hi a (l ++ l') b ↔ ∃ m, Tiles lo hi a l m ∧ Tiles lo hi m l' b
  | a, b, [], l' => ⟨fun h => ⟨a, rfl, h⟩, fun ⟨_, he, h⟩ => he ▸ h⟩
  | a, b, r :: l, l' => by
    show (_ ∧ _ ∧ Tiles lo hi (hi r) (l ++ l') b) ↔ _
    rw [tiles_append]
    exact ⟨fun ⟨h, h', m, hl, hr⟩ => ⟨m, ⟨h, h', hl⟩, hr⟩, fun ⟨m, ⟨h, h', hl⟩, hr⟩ => ⟨h, h', m, hl, hr⟩⟩

theorem Tiles.bounds : ∀ {a b : Nat} {l : List ρ}, Tiles lo hi a l b → ∀ r ∈ l, a ≤ lo r ∧ lo r < hi r ∧ hi r ≤ b
  | a, b, r :: l, ⟨hlo, hlt, h⟩, s, hs => by
    rcases List.mem_cons.1 hs with rfl | hs
    · exact ⟨Nat.le_of_eq hlo.symm, hlo ▸ hlt, h.le⟩
    · obtain ⟨hle, hlt', hle'⟩ := h.bounds s hs
      exact ⟨Nat.le_trans (Nat.le_of_lt hlt) hle, hlt', hle'⟩

/-- A tile ends before those behind it start. -/
theorem Tiles.pairwise : ∀ {a b : Nat} {l : List ρ}, Tiles lo hi a l b → l.Pairwise fun r s => hi r ≤ lo s
  | _, _, [], _ => .nil
  | _, _, _ :: _, ⟨_, _, h⟩ => .cons (fun s hs => (h.bounds s hs).1) h.pairwise

/-- Every place of the stretch lies in a tile. -/
theorem Tiles.exists_iff : ∀ {a b : Nat} {l : List ρ}, Tiles lo hi a l b →
    ((∃ r ∈ l, lo r ≤ x ∧ x < hi r) ↔ a ≤ x ∧ x < b)
  | a, b, [], h => by
    have hab : a = b := h
    exact ⟨fun ⟨_, hr, _⟩ => absurd hr List.not_mem_nil, fun _ => by omega⟩
  | a, b, r :: l, ⟨hlo, hlt, h⟩ => by
    have hle := h.le
    simp only [List.mem_cons, or_and_right, exists_or, exists_eq_left, h.exists_iff]
    omega

theorem labelAt_cons : labelAt lo hi label (r :: l) x =
    if lo r ≤ x ∧ x < hi r then some (label r) else labelAt lo hi label l x := by
  unfold labelAt
  rw [List.find?_cons]
  by_cases hx : lo r ≤ x ∧ x < hi r
  · rw [if_pos hx, decide_eq_true hx]
    rfl
  · rw [if_neg hx, decide_eq_false hx]

theorem labelAt_append : labelAt lo hi label (l ++ l') x = (labelAt lo hi label l x).or (labelAt lo hi label l' x) := by
  unfold labelAt
  rw [List.find?_append]
  cases l.find? fun r => decide (lo r ≤ x ∧ x < hi r) <;> rfl

/-- Outside of its tiles a list has no label. -/
theorem labelAt_eq_none : labelAt lo hi label l x = none ↔ ∀ r ∈ l, ¬(lo r ≤ x ∧ x < hi r) := by
  unfold labelAt
  rw [Option.map_eq_none_iff, List.find?_eq_none]
  simp only [decide_eq_true_eq]

theorem Tiles.labelAt_eq_none (h : Tiles lo hi a l b) : labelAt lo hi label l x = none ↔ ¬(a ≤ x ∧ x < b) := by
  rw [Tiling.labelAt_eq_none, ← h.exists_iff]
  exact ⟨fun hn ⟨r, hr, hx⟩ => hn r hr hx, fun hn r hr hx => hn ⟨r, hr, hx⟩⟩

/-- **The label of a place is that of its tile.** -/
theorem Tiles.labelAt_eq : ∀ {a b : Nat} {l : List ρ}, Tiles lo hi a l b → r ∈ l → lo r ≤ x → x < hi r →
    labelAt lo hi label l x = some (label r)
  | a, b, s :: l, ⟨hlo, hlt, h⟩, hr, hx, hx' => by
    rw [labelAt_cons]
    rcases List.mem_cons.1 hr with rfl | hr
    · rw [if_pos ⟨hx, hx'⟩]
    · have hle := (h.bounds r hr).1
      rw [if_neg (by omega), h.labelAt_eq hr hx hx']

/-! ## Cutting every tile -/

variable {f : ρ → List ρ}

theorem Tiles.flatMap : ∀ {a b : Nat} {l : List ρ}, Tiles lo hi a l b →
    (∀ r ∈ l, Tiles lo hi (lo r) (f r) (hi r)) → Tiles lo hi a (l.flatMap f) b
  | _, _, [], h, _ => h
  | a, b, r :: l, ⟨hlo, _, h⟩, hf => by
    rw [List.flatMap_cons, tiles_append]
    exact ⟨hi r, hlo ▸ hf r List.mem_cons_self, h.flatMap fun s hs => hf s (List.mem_cons_of_mem r hs)⟩

/-- **What each tile does to the labels of its places, all do to those of the stretch.** -/
theorem Tiles.labelAt_flatMap {g : Nat → α → α} : ∀ {a b : Nat} {l : List ρ}, Tiles lo hi a l b →
    (∀ r ∈ l, Tiles lo hi (lo r) (f r) (hi r)) →
    (∀ r ∈ l, ∀ x, lo r ≤ x → x < hi r → labelAt lo hi label (f r) x = some (g x (label r))) →
    labelAt lo hi label (l.flatMap f) x = (labelAt lo hi label l x).map (g x)
  | _, _, [], _, _, _ => rfl
  | a, b, r :: l, ⟨hlo, hlt, h⟩, hf, hg => by
    rw [List.flatMap_cons, labelAt_append, labelAt_cons]
    by_cases hx : lo r ≤ x ∧ x < hi r
    · rw [if_pos hx, hg r List.mem_cons_self x hx.1 hx.2]
      rfl
    · rw [if_neg hx, (hf r List.mem_cons_self).labelAt_eq_none.2 hx, Option.none_or,
        h.labelAt_flatMap (fun s hs => hf s (List.mem_cons_of_mem r hs))
          (fun s hs => hg s (List.mem_cons_of_mem r hs))]

/-! ## Joining two tiles -/

theorem Tiles.join (h : Tiles lo hi a (r :: r' :: l) b) (hlo : lo s = lo r) (hhi : hi s = hi r') :
    Tiles lo hi a (s :: l) b := by
  obtain ⟨ha, hlt, hmid, hlt', hl⟩ := h
  exact ⟨hlo.trans ha, by omega, hhi ▸ hl⟩

theorem Tiles.labelAt_join (h : Tiles lo hi a (r :: r' :: l) b) (hlo : lo s = lo r) (hhi : hi s = hi r')
    (hs : label s = label r) (heq : label r = label r') :
    labelAt lo hi label (s :: l) x = labelAt lo hi label (r :: r' :: l) x := by
  obtain ⟨ha, hlt, hmid, hlt', -⟩ := h
  simp only [labelAt_cons, hlo, hhi, hs, ← heq, ← ite_or]
  exact if_congr (by omega) rfl rfl

end Tiling
