import Mathlib.Data.Int.NatAbs
import Mathlib.Data.List.Nodup
import Mathlib.Data.List.Perm.Subperm

/-!
# The latest entry for each key

A table that is overwritten key by key holds, for each key, the latest of the entries that were written.  With the
entries in a list, the newest first, this is `Latest.latest`.  Which of the newest entries the table still holds is a
question of how their keys repeat: if those of the first `m` are distinct it holds them all (`latest_of_nodup`), and if
there are no more than `m` keys, it holds nothing else (`perm_take`).
-/

namespace Latest

universe u v

variable {ε : Type u} {κ : Type v} [DecidableEq κ] {key : ε → κ} {l l1 l2 : List ε} {e : ε} {k : κ}

/-- The latest entry for a key; the newest entry comes first. -/
def latest (key : ε → κ) (l : List ε) (k : κ) : Option ε := l.find? fun e => key e = k

theorem latest_cons_self : latest key (e :: l) (key e) = some e := by
  simp [latest]

theorem latest_cons_of_ne (h : k ≠ key e) : latest key (e :: l) k = latest key l k := by
  simp [latest, h.symm]

/-- The latest entry is an entry, and its key is right. -/
theorem latest_spec (h : latest key l k = some e) : e ∈ l ∧ key e = k := by
  rw [latest] at h
  exact ⟨List.mem_of_find?_eq_some h, by simpa using List.find?_some h⟩

/-- If there is an entry for a key among the newer ones, the latest is one of these. -/
theorem latest_append (he : e ∈ l1) : ∃ e' ∈ l1, key e' = key e ∧ latest key (l1 ++ l2) (key e) = some e' := by
  have hsome : (latest key l1 (key e)).isSome := by
    rw [latest, List.find?_isSome]
    exact ⟨e, he, decide_eq_true rfl⟩
  obtain ⟨e', he'⟩ := Option.isSome_iff_exists.1 hsome
  obtain ⟨hmem, hkey⟩ := latest_spec he'
  refine ⟨e', hmem, hkey, ?_⟩
  rw [latest, List.find?_append, show l1.find? (fun e' => key e' = key e) = some e' from he']
  rfl

/-- **Entries whose keys are distinct are the latest ones.** -/
theorem latest_of_nodup (hnd : (l1.map key).Nodup) (he : e ∈ l1) : latest key (l1 ++ l2) (key e) = some e := by
  obtain ⟨e', he', hkey, hlatest⟩ : ∃ e' ∈ l1, key e' = key e ∧ latest key (l1 ++ l2) (key e) = some e' :=
    latest_append he
  rw [hlatest, List.inj_on_of_nodup_map hnd he' he hkey]

/-- **The table holds the newest entries and nothing else**, if their keys are distinct and there are no others. -/
theorem perm_take {keys : List κ} (hkeys : keys.Nodup) (hmem : ∀ e ∈ l, key e ∈ keys)
    (hnd : ((l.take keys.length).map key).Nodup) :
    (keys.filterMap (latest key l)).Perm (l.take keys.length) := by
  have hlatest : ∀ e ∈ l.take keys.length, latest key l (key e) = some e := by
    intro e he
    have hlatest : latest key (l.take keys.length ++ l.drop keys.length) (key e) = some e := latest_of_nodup hnd he
    rwa [List.take_append_drop] at hlatest
  have hcovers : ∀ e ∈ l, key e ∈ (l.take keys.length).map key := by
    intro e he
    rcases Nat.lt_or_ge keys.length l.length with hlen | hlen
    · -- all keys are among those of the newest entries
      have hsub : ((l.take keys.length).map key).Subperm keys :=
        hnd.subperm fun k hk => by
          obtain ⟨e', he', rfl⟩ := List.mem_map.1 hk
          exact hmem e' (List.mem_of_mem_take he')
      have hperm := hsub.perm_of_length_le (by rw [List.length_map, List.length_take]; omega)
      exact hperm.mem_iff.2 (hmem e he)
    · rw [List.take_of_length_le hlen]
      exact List.mem_map_of_mem he
  refine (List.perm_ext_iff_of_nodup (hkeys.filterMap ?_) hnd.of_map).2 fun e => ⟨fun he => ?_, fun he => ?_⟩
  · intro k k' e hk hk'
    exact (latest_spec hk).2.symm.trans (latest_spec hk').2
  · obtain ⟨k, -, hk⟩ := List.mem_filterMap.1 he
    obtain ⟨hel, rfl⟩ := latest_spec hk
    obtain ⟨e', he', hkey⟩ := List.mem_map.mp (hcovers e hel)
    rw [← hkey, hlatest e' he'] at hk
    rwa [← Option.some.inj hk]
  · exact List.mem_filterMap.2 ⟨key e, hmem e (List.mem_of_mem_take he), hlatest e he⟩

end Latest
