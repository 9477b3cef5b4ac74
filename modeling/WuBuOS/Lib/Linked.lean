import Mathlib.Data.Int.NatAbs
import Mathlib.Data.List.Nodup

/-!
# Singly linked lists

A list of nodes is entered at a head and followed by `next` until it meets `null`.
`IsList next null a l` says that from `a` it runs through exactly the nodes of `l`.

`search` is the loop that list code keeps writing: walk down from the head, with the node before at
hand, until a node passes a test.  `search_spec` says what it finds, `search_ne_none` that it ends, and `IsList.unlink` that
redirecting the link to a node past it takes it off the list.  `IsList.push` puts one on the front.
-/

namespace Linked

universe u

variable {α : Type u} {next next' : α → α} {null a x : α} {l l1 l2 : List α}

/-- The nodes met from `a` on are those of the list. -/
def IsList (next : α → α) (null : α) : α → List α → Prop
  | a, [] => a = null
  | a, b :: l => a = b ∧ b ≠ null ∧ IsList next null (next b) l

theorem IsList.congr (h : IsList next null a l) (hn : ∀ b ∈ l, next' b = next b) : IsList next' null a l := by
  induction l generalizing a with
  | nil => exact h
  | cons b l ih =>
    obtain ⟨rfl, hb, hl⟩ := h
    refine ⟨rfl, hb, ?_⟩
    rw [hn a List.mem_cons_self]
    exact ih hl fun c hc => hn c (List.mem_cons_of_mem a hc)

theorem IsList.ne_null (h : IsList next null a l) : null ∉ l := by
  induction l generalizing a with
  | nil => exact List.not_mem_nil
  | cons b l ih =>
    obtain ⟨-, hb, hl⟩ := h
    rw [List.mem_cons, not_or]
    exact ⟨hb.symm, ih hl⟩

/-- A list can be read in one way. -/
theorem IsList.unique (h : IsList next null a l1) (h' : IsList next null a l2) : l1 = l2 := by
  induction l1 generalizing a l2 with
  | nil =>
    cases l2 with
    | nil => rfl
    | cons c l2 => exact absurd (h'.1.symm.trans h) h'.2.1
  | cons b l1 ih =>
    obtain ⟨rfl, hb, hl⟩ := h
    cases l2 with
    | nil => exact absurd h' hb
    | cons c l2 =>
      obtain ⟨rfl, -, hl'⟩ := h'
      rw [ih hl hl']

theorem IsList.append_tail (h : IsList next null a (l1 ++ l2)) : ∃ b, IsList next null b l2 := by
  induction l1 generalizing a with
  | nil => exact ⟨a, h⟩
  | cons b l1 ih => exact ih h.2.2

/-- A list that ends does not come by a node twice. -/
theorem IsList.nodup (h : IsList next null a l) : l.Nodup := by
  induction l generalizing a with
  | nil => exact List.nodup_nil
  | cons b l ih =>
    refine List.nodup_cons.2 ⟨fun hb => ?_, ih h.2.2⟩
    -- from its second occurrence on, the list would be as long as from the first
    obtain ⟨l1, l2, rfl⟩ := List.append_of_mem hb
    obtain ⟨c, hc⟩ := h.2.2.append_tail
    obtain rfl : c = b := hc.1
    have hlen := congrArg List.length (hc.2.2.unique h.2.2)
    simp only [List.length_append, List.length_cons] at hlen
    omega

/-- A new node on the front. -/
theorem IsList.push (h : IsList next null a l) (hx : x ≠ null) (hnx : next' x = a)
    (hn : ∀ b ∈ l, next' b = next b) : IsList next' null x (x :: l) := by
  refine ⟨rfl, hx, ?_⟩
  rw [hnx]
  exact h.congr hn

/-- A new node at the end. -/
theorem IsList.snoc (h : IsList next null a l) (hl : l ≠ []) (hx : x ≠ null)
    (hlast : next' (l.getLast hl) = x) (hnx : next' x = null)
    (hn : ∀ b ∈ l, b ≠ l.getLast hl → next' b = next b) : IsList next' null a (l ++ [x]) := by
  induction l generalizing a with
  | nil => exact absurd rfl hl
  | cons b l ih =>
    have hnot : b ∉ l := (List.nodup_cons.1 h.nodup).1
    obtain ⟨rfl, hb, hl'⟩ := h
    refine ⟨rfl, hb, ?_⟩
    cases l with
    | nil =>
      rw [show next' a = x from hlast]
      exact ⟨rfl, hx, hnx⟩
    | cons c l =>
      have hcl := List.cons_ne_nil c l
      rw [List.getLast_cons hcl] at hlast hn
      have hne : a ≠ (c :: l).getLast hcl := fun h => hnot (h ▸ List.getLast_mem hcl)
      rw [hn a List.mem_cons_self hne]
      exact ih hl' hcl hlast fun d hd => hn d (List.mem_cons_of_mem a hd)

/-- The link of a node leads to the one after it. -/
theorem IsList.next_getD (h : IsList next null a l) {i : Nat} (hi : i < l.length) :
    next (l.getD i null) = l.getD (i + 1) null := by
  induction l generalizing a i with
  | nil => exact absurd hi (Nat.not_lt_zero i)
  | cons b l ih =>
    cases i with
    | zero =>
      cases l with
      | nil => exact h.2.2
      | cons c l => exact h.2.2.1
    | succ i => exact ih h.2.2 (Nat.lt_of_succ_lt_succ hi)

/-- Off the front, the head moves on. -/
theorem IsList.unlink_head (h : IsList next null a (x :: l)) : IsList next null (next x) l := h.2.2

/-- Behind another node, that node's link moves on. -/
theorem IsList.unlink (h : IsList next null a (l1 ++ x :: l2)) (hl1 : l1 ≠ []) (hp : next' (l1.getLast hl1) = next x)
    (hn : ∀ b ∈ l1 ++ l2, b ≠ l1.getLast hl1 → next' b = next b)
    (hnd : (l1 ++ x :: l2).Nodup) : IsList next' null a (l1 ++ l2) := by
  induction l1 generalizing a with
  | nil => exact absurd rfl hl1
  | cons b l1 ih =>
    obtain ⟨rfl, hb, hl⟩ := h
    have hnd' : (l1 ++ x :: l2).Nodup := (List.nodup_cons.1 hnd).2
    have hnot : a ∉ l1 ++ x :: l2 := (List.nodup_cons.1 hnd).1
    refine ⟨rfl, hb, ?_⟩
    cases l1 with
    | nil =>
      -- the node before is the first one
      rw [show next' a = next x from hp]
      refine hl.unlink_head.congr fun c hc => hn c (by simp [hc]) ?_
      rintro rfl
      exact hnot (by simp [hc])
    | cons c l1 =>
      have hlast : (a :: c :: l1).getLast hl1 = (c :: l1).getLast (List.cons_ne_nil c l1) :=
        List.getLast_cons (List.cons_ne_nil c l1)
      rw [hlast] at hp hn
      have hne : a ≠ (c :: l1).getLast (List.cons_ne_nil c l1) := by
        intro h
        exact hnot (List.mem_append_left _ (h ▸ List.getLast_mem _))
      rw [hn a (by simp) hne]
      exact ih hl (List.cons_ne_nil c l1) hp (fun d hd => hn d (List.mem_cons_of_mem a hd)) hnd'

/-! ## Searching -/

variable [DecidableEq α]

/-- Walk down a list until a node passes the test: `some (some (p, c))` is the node and the one
before it, `some none` the end of the list.  `none` means that the walk did not end in so many
steps. -/
def search (next : α → α) (null : α) (hit : α → Bool) : Nat → α → α → Option (Option (α × α))
  | 0, _, _ => none
  | fuel + 1, prev, cur =>
    if cur = null then some none
    else if hit cur then some (some (prev, cur))
    else search next null hit fuel cur (next cur)

/-- **What a search finds.** -/
theorem search_spec {hit : α → Bool} {fuel : Nat} {prev : α} {r : Option (α × α)}
    (h : IsList next null a l) (hs : search next null hit fuel prev a = some r) :
    (r = none ∧ ∀ b ∈ l, hit b = false) ∨
      ∃ l1 x l2, l = l1 ++ x :: l2 ∧ hit x = true ∧ r = some (l1.getLastD prev, x) := by
  induction fuel generalizing a l prev with
  | zero => cases hs
  | succ fuel ih =>
    rw [search] at hs
    cases l with
    | nil =>
      rw [if_pos (show a = null from h)] at hs
      exact Or.inl ⟨(Option.some.inj hs).symm, fun _ hb => absurd hb List.not_mem_nil⟩
    | cons b l =>
      obtain ⟨rfl, hb, hl⟩ := h
      rw [if_neg hb] at hs
      split at hs
      · rename_i hhit
        exact Or.inr ⟨[], a, l, rfl, hhit, (Option.some.inj hs).symm⟩
      · rename_i hhit
        rcases ih hl hs with ⟨hr, hno⟩ | ⟨l1, x, l2, rfl, hx, hr⟩
        · refine Or.inl ⟨hr, fun c hc => ?_⟩
          rcases List.mem_cons.1 hc with rfl | hc
          · simpa using hhit
          · exact hno c hc
        · refine Or.inr ⟨a :: l1, x, l2, rfl, hx, hr.trans ?_⟩
          rw [List.getLastD_cons]

/-- A search down a list ends if there are more steps than nodes. -/
theorem search_ne_none {hit : α → Bool} {fuel : Nat} {prev : α} (h : IsList next null a l)
    (hf : l.length < fuel) : search next null hit fuel prev a ≠ none := by
  induction fuel generalizing a l prev with
  | zero => exact absurd hf (Nat.not_lt_zero _)
  | succ fuel ih =>
    rw [search]
    cases l with
    | nil =>
      rw [if_pos (show a = null from h)]
      exact Option.some_ne_none _
    | cons b l =>
      obtain ⟨rfl, hb, hl⟩ := h
      rw [if_neg hb]
      split
      · exact Option.some_ne_none _
      · exact ih hl (Nat.lt_of_succ_lt_succ hf)

end Linked
