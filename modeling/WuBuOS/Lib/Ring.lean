import Mathlib.Data.Int.NatAbs
import Mathlib.Data.List.Chain
import Mathlib.Data.List.Nodup

/-!
# Circular doubly linked lists

A ring is given by two functions, `next` and `prev`, and read off by a list: `IsRing next prev l`
says that the elements of `l` are distinct, that each is linked to the one behind it in both
directions, and that the last is linked to the first.  Where a ring is entered does not matter
(`isRing_rotate`), so an element to be taken out can be assumed to come first.

The two operations are stated by what the new links are, not by how they were written:

* `IsRing.insert`: a new element between the last and the first;
* `IsRing.erase`: the first element taken out.

`IsRing.iterate_next` is what a walk sees: `next`, followed from the first element, runs through the
list and comes back.
-/

namespace Ring

universe u

variable {α : Type u} {next prev next' prev' : α → α} {a b x h : α} {l l1 l2 : List α}

/-- `b` comes after `a`, and both know. -/
def Linked (next prev : α → α) (a b : α) : Prop := next a = b ∧ prev b = a

/-- The elements of the list, in order, form a ring. -/
def IsRing (next prev : α → α) (l : List α) : Prop :=
  l.Nodup ∧ (l ++ l.take 1).IsChain (Linked next prev)

theorem isRing_nil : IsRing next prev [] := ⟨List.nodup_nil, List.isChain_nil⟩

theorem isRing_singleton : IsRing next prev [a] ↔ Linked next prev a a := by
  simp [IsRing]

/-- A ring, cut open behind its last element. -/
theorem isRing_concat_iff : IsRing next prev (l ++ [x]) ↔ (l ++ [x]).Nodup ∧ (l ++ [x]).IsChain (Linked next prev) ∧
    ∀ y ∈ (l ++ [x]).head?, Linked next prev x y := by
  rw [IsRing, List.isChain_append, List.getLast?_concat]
  cases l with
  | nil => simp
  | cons y l => simp

/-- A ring may be entered one element later. -/
theorem IsRing.rotate_one (hr : IsRing next prev (a :: l)) : IsRing next prev (l ++ [a]) := by
  rw [isRing_concat_iff]
  obtain ⟨hnd, hc⟩ := hr
  refine ⟨(List.perm_append_singleton a l).nodup_iff.2 hnd, ?_, ?_⟩
  · have hc' : (a :: (l ++ [a])).IsChain (Linked next prev) := hc
    exact List.isChain_of_isChain_cons hc'
  · cases l with
    | nil => simpa [IsRing] using hc
    | cons b l =>
      rintro y hy
      obtain rfl : b = y := by simpa using hy
      exact List.rel_of_isChain_cons_cons hc

theorem IsRing.rotate (hr : IsRing next prev (l1 ++ l2)) : IsRing next prev (l2 ++ l1) := by
  induction l1 generalizing l2 with
  | nil => simpa using hr
  | cons a l1 ih =>
    have hone : IsRing next prev (l1 ++ (l2 ++ [a])) := by
      rw [← List.append_assoc]
      exact hr.rotate_one
    simpa using ih hone

/-- A ring can be entered at any of its elements. -/
theorem IsRing.enter (hr : IsRing next prev l) (ha : a ∈ l) :
    ∃ l1 l2, l = l1 ++ a :: l2 ∧ IsRing next prev (a :: (l2 ++ l1)) := by
  obtain ⟨l1, l2, rfl⟩ := List.append_of_mem ha
  exact ⟨l1, l2, rfl, hr.rotate⟩

/-! ## What the links of a ring are -/

/-- The links at the entry of a ring of at least two. -/
theorem IsRing.ends (hr : IsRing next prev (a :: (l ++ [x]))) :
    next x = a ∧ prev a = x ∧ (∀ y ∈ (l ++ [x]).head?, next a = y ∧ prev y = a) := by
  rw [← List.cons_append, isRing_concat_iff] at hr
  obtain ⟨-, hc, hlast⟩ := hr
  obtain ⟨h1, h2⟩ := hlast a rfl
  exact ⟨h1, h2, fun y hy => hc.rel_head? hy⟩

/-- The link out of the entry of a ring. -/
theorem IsRing.out (hr : IsRing next prev (a :: l)) : ∃ y ∈ a :: l, Linked next prev a y := by
  have hc : (a :: (l ++ [a])).IsChain (Linked next prev) := hr.2
  cases l with
  | nil => exact ⟨a, List.mem_singleton_self a, List.rel_of_isChain_cons_cons hc⟩
  | cons b l => exact ⟨b, by simp, List.rel_of_isChain_cons_cons hc⟩

theorem IsRing.prev_next (hr : IsRing next prev l) (ha : a ∈ l) : prev (next a) = a := by
  obtain ⟨l1, l2, -, hr⟩ := hr.enter ha
  obtain ⟨y, -, hn, hp⟩ := hr.out
  rw [hn, hp]

theorem IsRing.next_mem (hr : IsRing next prev l) (ha : a ∈ l) : next a ∈ l := by
  obtain ⟨l1, l2, rfl, hr'⟩ := hr.enter ha
  obtain ⟨y, hy, hn, -⟩ := hr'.out
  rw [hn]
  simp only [List.mem_cons, List.mem_append] at hy ⊢
  tauto

theorem IsRing.next_prev (hr : IsRing next prev l) (ha : a ∈ l) : next (prev a) = a := by
  obtain ⟨l1, l2, -, hr⟩ := hr.enter ha
  rcases List.eq_nil_or_concat (l2 ++ l1) with h0 | ⟨m, x, hm⟩
  · rw [h0] at hr
    obtain ⟨hn, hp⟩ := isRing_singleton.1 hr
    rw [hp, hn]
  · rw [hm, List.concat_eq_append] at hr
    obtain ⟨hn, hp, -⟩ := hr.ends
    rw [hp, hn]

theorem IsRing.prev_mem (hr : IsRing next prev l) (ha : a ∈ l) : prev a ∈ l := by
  obtain ⟨l1, l2, rfl, hr'⟩ := hr.enter ha
  rcases List.eq_nil_or_concat (l2 ++ l1) with h0 | ⟨m, x, hm⟩
  · rw [h0] at hr'
    rw [(isRing_singleton.1 hr').2]
    exact ha
  · have hx : x ∈ l2 ++ l1 := by simp [hm]
    rw [hm, List.concat_eq_append] at hr'
    rw [hr'.ends.2.1]
    simp only [List.mem_append, List.mem_cons] at hx ⊢
    tauto

/-- In a ring of at least two, no element is linked to itself. -/
theorem IsRing.links_mem (hr : IsRing next prev (a :: l)) (hl : l ≠ []) : next a ∈ l ∧ prev a ∈ l := by
  obtain ⟨m, z, rfl⟩ : ∃ m z, l = m ++ [z] := ⟨_, _, (List.dropLast_append_getLast hl).symm⟩
  obtain ⟨-, hp, hfirst⟩ := hr.ends
  refine ⟨?_, by simp [hp]⟩
  cases hh : (m ++ [z]).head? with
  | none => simp at hh
  | some y =>
    rw [(hfirst y hh).1]
    exact List.mem_of_mem_head? hh

/-- What a walk along `next` sees. -/
theorem IsRing.iterate_next (hr : IsRing next prev (h :: l)) :
    (∀ i, (hi : i < (h :: l).length) → next^[i] h = (h :: l)[i]) ∧ next^[(h :: l).length] h = h := by
  obtain ⟨-, hc⟩ := hr
  have hwalk : ∀ i, (hi : i < (h :: l ++ [h]).length) → next^[i] h = (h :: l ++ [h])[i] := by
    intro i
    induction i with
    | zero => intro _; rfl
    | succ i ih =>
      intro hi
      rw [Function.iterate_succ_apply', ih (by omega)]
      exact (List.isChain_iff_getElem.1 hc i hi).1
  constructor
  · intro i hi
    rw [hwalk i (by rw [List.length_append]; omega), List.getElem_append_left hi]
  · rw [hwalk _ (by simp), List.getElem_append_right (Nat.le_refl _)]
    simp

/-! ## Changing a ring -/

theorem IsRing.congr (hr : IsRing next prev l) (hn : ∀ a ∈ l, next' a = next a)
    (hp : ∀ a ∈ l, prev' a = prev a) : IsRing next' prev' l := by
  obtain ⟨hnd, hc⟩ := hr
  refine ⟨hnd, hc.imp_of_mem_imp fun a b ha hb hab => ?_⟩
  have hmem : ∀ c ∈ l ++ l.take 1, c ∈ l := by
    intro c hc
    rcases List.mem_append.1 hc with hc | hc
    · exact hc
    · exact List.mem_of_mem_take hc
  exact ⟨(hn a (hmem a ha)).trans hab.1, (hp b (hmem b hb)).trans hab.2⟩

/-- Inside a chain of distinct elements, links that differ at the two ends only are the same. -/
theorem isChain_inner (hnd : l.Nodup) (hc : l.IsChain (Linked next prev))
    (hn : ∀ a ∈ l, a ∉ l.getLast? → next' a = next a)
    (hp : ∀ a ∈ l, a ∉ l.head? → prev' a = prev a) : l.IsChain (Linked next' prev') := by
  rw [List.isChain_iff_forall_rel_of_append_cons_cons] at hc ⊢
  rintro a b l1 l2 rfl
  obtain ⟨h1, h2⟩ := hc rfl
  have ha : a ∉ (l1 ++ a :: b :: l2).getLast? := by
    rintro hlast
    have hmem : a ∈ b :: l2 := List.mem_of_mem_getLast? (by simpa using hlast)
    exact (List.nodup_cons.1 (List.nodup_append.1 hnd).2.1).1 hmem
  have hb : b ∉ (l1 ++ a :: b :: l2).head? := by
    rintro hhead
    have hmem : b ∈ l1 ++ [a] := by
      refine List.mem_of_mem_head? ?_
      cases l1 with
      | nil | cons => simpa using hhead
    have hnd' : ((l1 ++ [a]) ++ b :: l2).Nodup := by simpa using hnd
    exact (List.disjoint_of_nodup_append hnd') hmem List.mem_cons_self
  exact ⟨(hn a (by simp) ha).trans h1, (hp b (by simp) hb).trans h2⟩

/-- **A new element, between the last and the first.** -/
theorem IsRing.insert (hr : IsRing next prev (h :: l)) (hx : x ∉ h :: l) (hnx : next' x = h) (hnl : next' (prev h) = x)
    (hn : ∀ a ∈ h :: l, a ≠ prev h → next' a = next a)
    (hpx : prev' x = prev h) (hph : prev' h = x) (hp : ∀ a ∈ h :: l, a ≠ h → prev' a = prev a) :
    IsRing next' prev' (h :: l ++ [x]) := by
  obtain ⟨m, z, hz⟩ : ∃ m z, h :: l = m ++ [z] :=
    ⟨_, _, (List.dropLast_append_getLast (List.cons_ne_nil h l)).symm⟩
  have hhead : (m ++ [z]).head? = some h := by rw [← hz]; rfl
  rw [hz] at hr hx hn hp ⊢
  obtain ⟨hnd, hc, hlast⟩ := isRing_concat_iff.1 hr
  obtain ⟨-, hprev⟩ := hlast h hhead
  rw [hprev] at hnl hn hpx
  have hnd' : ((m ++ [z]) ++ [x]).Nodup := by
    rw [List.nodup_append_comm, List.singleton_append, List.nodup_cons]
    exact ⟨hx, hnd⟩
  refine isRing_concat_iff.2 ⟨hnd', ?_, ?_⟩
  · refine List.isChain_append.2 ⟨isChain_inner hnd hc ?_ ?_, List.isChain_singleton x, ?_⟩
    · intro a ha hnot
      exact hn a ha fun h => hnot (by rw [h]; simp)
    · intro a ha hnot
      exact hp a ha fun h' => hnot (by rw [h', hhead]; rfl)
    · rintro y hy w hw
      obtain rfl : z = y := by simpa using hy
      obtain rfl : x = w := by simpa using hw
      exact ⟨hnl, hpx⟩
  · rintro y hy
    rw [List.head?_append, hhead] at hy
    obtain rfl : h = y := by simpa using hy
    exact ⟨hnx, hph⟩

/-- **The first element taken out** of a ring of at least two. -/
theorem IsRing.erase (hr : IsRing next prev (x :: l)) (hl : l ≠ [])
    (hnp : next' (prev x) = next x) (hn : ∀ a ∈ l, a ≠ prev x → next' a = next a)
    (hpn : prev' (next x) = prev x) (hp : ∀ a ∈ l, a ≠ next x → prev' a = prev a) :
    IsRing next' prev' l := by
  obtain ⟨m, z, rfl⟩ : ∃ m z, l = m ++ [z] := ⟨_, _, (List.dropLast_append_getLast hl).symm⟩
  obtain ⟨-, hprev, hfirst⟩ := hr.ends
  obtain ⟨hnd, hc⟩ := hr
  have hnd' := (List.nodup_cons.1 hnd).2
  rw [hprev] at hnp hn hpn
  have hchain : (m ++ [z]).IsChain (Linked next prev) := by
    have hc' := List.isChain_of_isChain_cons hc
    exact List.IsChain.left_of_append hc'
  refine isRing_concat_iff.2 ⟨hnd', isChain_inner hnd' hchain ?_ ?_, ?_⟩
  · intro a ha hnot
    exact hn a ha fun h => hnot (by rw [h]; simp)
  · intro a ha hnot
    refine hp a ha fun h => hnot ?_
    cases hh : (m ++ [z]).head? with
    | none => simp at hh
    | some y => rw [h, (hfirst y hh).1]; rfl
  · rintro y hy
    obtain ⟨hny, -⟩ := hfirst y hy
    rw [hny] at hnp hpn
    exact ⟨hnp, hpn⟩

end Ring
