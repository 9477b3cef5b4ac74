import Mathlib.Order.CompletePartialOrder
import Mathlib.Data.Int.NatAbs

/-!
# Disjoint extents

A set of addresses, each with an extent, divides up a stretch of memory: the block at `a` is the
range from `a` to `a + span a`.  `Apart span s` says that no two of them meet.  An allocator changes
such a division in four ways, and each keeps the blocks apart: a block goes (`Apart.mono`), a block
is added beyond all others (`Apart.insert`), a block is split in two (`Apart.split`), and two that
meet end to end become one (`Apart.merge`).
-/

namespace Extents

variable {span span' : Nat → Nat} {s t : Set Nat} {a b w : Nat}

/-- No two blocks of the set meet. -/
def Apart (span : Nat → Nat) (s : Set Nat) : Prop :=
  ∀ a ∈ s, ∀ b ∈ s, a ≠ b → a + span a ≤ b ∨ b + span b ≤ a

theorem Apart.mono (h : Apart span s) (hts : t ⊆ s) (he : ∀ a ∈ t, span' a = span a) : Apart span' t := by
  intro a ha b hb hab
  rw [he a ha, he b hb]
  exact h a (hts ha) b (hts hb) hab

/-- A block beyond all others. -/
theorem Apart.insert (h : Apart span s) (hw : ∀ a ∈ s, a + span a ≤ w) (he : ∀ a ∈ s, span' a = span a)
    (hts : t ⊆ s ∪ {w}) : Apart span' t := by
  intro a ha b hb hab
  rcases hts ha with ha | rfl <;> rcases hts hb with hb | rfl
  · rw [he a ha, he b hb]
    exact h a ha b hb hab
  · rw [he a ha]
    exact Or.inl (hw a ha)
  · rw [he b hb]
    exact Or.inr (hw b hb)
  · exact absurd rfl hab

/-- **A block split in two**, at `w` from its start. -/
theorem Apart.split (h : Apart span s) (ha : a ∈ s) (hts : t ⊆ s ∪ {a + w})
    (hsum : span' a = w ∧ w + span' (a + w) ≤ span a) (hw : 0 < w)
    (he : ∀ b ∈ s, b ≠ a → span' b = span b) : Apart span' t := by
  -- the two halves lie where the block was, so they are apart from every other block
  have hrange : ∀ c ∈ t, (∃ c' ∈ s, c' ≠ a ∧ c = c' ∧ span' c = span c') ∨
      (c = a ∧ span' c = w) ∨ (c = a + w ∧ c + span' c ≤ a + span a) := by
    intro c hc
    rcases hts hc with hc | rfl
    · rcases eq_or_ne c a with rfl | hca
      · exact Or.inr (Or.inl ⟨rfl, hsum.1⟩)
      · exact Or.inl ⟨c, hc, hca, rfl, he c hc hca⟩
    · exact Or.inr (Or.inr ⟨rfl, by omega⟩)
  intro c hc d hd hcd
  rcases hrange c hc with ⟨c', hc', hca, rfl, hec⟩ | ⟨rfl, hec⟩ | ⟨hc', hec⟩ <;>
    rcases hrange d hd with ⟨d', hd', hda, rfl, hed⟩ | ⟨rfl, hed⟩ | ⟨hd', hed⟩
  · rw [hec, hed]
    exact h c hc' d hd' hcd
  · have := h c hc' d ha hca
    omega
  · have := h c hc' a ha hca
    omega
  · have := h d hd' c ha hda
    omega
  · exact absurd rfl hcd
  · omega
  · have := h d hd' a ha hda
    omega
  · omega
  · exact absurd (hc'.trans hd'.symm) hcd

/-- **Two blocks that meet end to end become one.** -/
theorem Apart.merge (h : Apart span s) (ha : a ∈ s) (hb : a + span a ∈ s) (hpos : 0 < span a)
    (hts : ∀ c ∈ t, c ∈ s ∧ c ≠ a + span a) (hea : span' a = span a + span (a + span a))
    (he : ∀ c ∈ s, c ≠ a → span' c = span c) : Apart span' t := by
  intro c hc d hd hcd
  obtain ⟨hcs, hcb⟩ := hts c hc
  obtain ⟨hds, hdb⟩ := hts d hd
  rcases eq_or_ne c a with rfl | hca
  · rw [hea, he d hds hcd.symm]
    have h1 := h c ha d hds hcd
    have h2 := h (c + span c) hb d hds hdb.symm
    omega
  · rcases eq_or_ne d a with rfl | hda
    · rw [hea, he c hcs hca]
      have h1 := h c hcs d ha hca
      have h2 := h c hcs (d + span d) hb hcb
      omega
    · rw [he c hcs hca, he d hds hda]
      exact h c hcs d hds hcd

end Extents
