import Mathlib.Data.Int.NatAbs
import Mathlib.Data.List.Chain

/-!
# Chains of digests

Records that carry the digest of what they contain, and the digest of the record before.  `commit` is what
such a chain is for: two chains of one length that end in the same digest are the same, or else two different
inputs with the same digest are among those that have been hashed.
-/

namespace HashChain

universe u v w

variable {ρ : Type u} {ι : Type v} {δ : Type w}

/-- What is hashed of a record, how, and where a record keeps the digest before its own, and its own. -/
structure Scheme (ρ : Type u) (ι : Type v) (δ : Type w) where
  input : ρ → ι
  digest : ι → δ
  prev : ρ → δ
  mark : ρ → δ
  /-- Nothing is left out. -/
  covers : ∀ r r', input r = input r' → mark r = mark r' → r = r'

variable {S : Scheme ρ ι δ} {l l' : List ρ} {r : ρ}

/-- **The records are a chain.** -/
structure Scheme.Linked (S : Scheme ρ ι δ) (l : List ρ) : Prop where
  marks : ∀ r ∈ l, S.mark r = S.digest (S.input r)
  links : l.IsChain fun p r => S.prev r = S.mark p

/-- Two different inputs have the same digest. -/
def Scheme.Collides (S : Scheme ρ ι δ) (inputs : List ι) : Prop :=
  ∃ x ∈ inputs, ∃ y ∈ inputs, x ≠ y ∧ S.digest x = S.digest y

theorem Scheme.Collides.mono {inputs inputs' : List ι} (h : S.Collides inputs)
    (hsub : ∀ x ∈ inputs, x ∈ inputs') : S.Collides inputs' := by
  obtain ⟨x, hx, y, hy, hne, heq⟩ := h
  exact ⟨x, hsub x hx, y, hsub y hy, hne, heq⟩

theorem Scheme.Linked.init (h : S.Linked (l ++ [r])) : S.Linked l ∧ ∀ p ∈ l.getLast?, S.prev r = S.mark p := by
  obtain ⟨hl, -, hlast⟩ := List.isChain_append.1 h.links
  exact ⟨⟨fun q hq => h.marks q (List.mem_append_left _ hq), hl⟩, fun p hp => hlast p hp r rfl⟩

/-- **The last digest commits to the chain.** -/
theorem Scheme.commit (hl : S.Linked l) (hl' : S.Linked l') (hlen : l.length = l'.length)
    (hlast : l.getLast?.map S.mark = l'.getLast?.map S.mark) :
    l = l' ∨ S.Collides (l.map S.input ++ l'.map S.input) := by
  induction l using List.reverseRecOn generalizing l' with
  | nil => exact .inl (List.eq_nil_of_length_eq_zero hlen.symm).symm
  | append_singleton l r ih =>
    obtain rfl | ⟨l', r', rfl⟩ := l'.eq_nil_or_concat'
    · rw [List.length_append] at hlen
      cases hlen
    simp only [List.getLast?_concat, Option.map_some, Option.some.injEq] at hlast
    obtain ⟨hinit, hprev⟩ := hl.init
    obtain ⟨hinit', hprev'⟩ := hl'.init
    have hdigest : S.digest (S.input r) = S.digest (S.input r') := by
      rw [← hl.marks r (by simp), ← hl'.marks r' (by simp), hlast]
    by_cases hinput : S.input r = S.input r'
    · obtain rfl := S.covers r r' hinput hlast
      simp only [List.length_append, List.length_singleton, Nat.add_right_cancel_iff] at hlen
      have hbefore : l.getLast?.map S.mark = l'.getLast?.map S.mark := by
        cases hp : l.getLast? with
        | none =>
          rw [List.getLast?_eq_none_iff.1 hp] at hlen
          rw [List.eq_nil_of_length_eq_zero hlen.symm]
          rfl
        | some p =>
          cases hp' : l'.getLast? with
          | none =>
            rw [List.getLast?_eq_none_iff.1 hp'] at hlen
            rw [List.eq_nil_of_length_eq_zero hlen] at hp
            cases hp
          | some p' => rw [Option.map_some, Option.map_some, ← hprev p hp, ← hprev' p' hp']
      rcases ih hinit hinit' hlen hbefore with rfl | hc
      · exact .inl rfl
      · refine .inr (hc.mono fun x hx => ?_)
        simp only [List.map_append, List.mem_append] at hx ⊢
        tauto
    · refine .inr ⟨S.input r, ?_, S.input r', ?_, hinput, hdigest⟩ <;> simp

end HashChain
