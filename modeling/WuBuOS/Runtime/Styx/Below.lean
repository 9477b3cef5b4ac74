import WuBuOS.Lib.Lexical
import WuBuOS.Runtime.Styx.Fs

/-!
# Where paths lie

Whether a path lies below a directory is a matter of how they are written (`Within`).  A path of the host is
below the source of the mount that it comes from, and a path of the name space is below what has been
attached, if what is behind it never has more `".."`s than components before them.
-/

namespace WuBuOS.Styx

/-! ## Lexical resolution -/

/-- The component that takes the one before it away. -/
def dotdot : CStr := text ".."

/-- The components of a path. -/
def components (s : CStr) : List CStr := Lexical.parts slash (fun c => c == [] || c == text ".") s

/-- The path begins with a slash. -/
def isAbsolute (s : CStr) : Bool := s.head? == some slash

/-- What a path comes to if nobody looks at the host, the last component first. -/
def lexical (s : CStr) : List CStr := Lexical.resolve dotdot (isAbsolute s) (components s)

/-- **A path lies below a directory**, as it is written. -/
def Within (dir s : CStr) : Prop := isAbsolute s = isAbsolute dir ∧ lexical dir <:+ lexical s

/-- The path never has more `".."`s than components before them. -/
def Stays (s : CStr) : Prop := Lexical.stays dotdot 0 (components s) = true

instance (s : CStr) : Decidable (Stays s) := inferInstanceAs (Decidable (_ = true))

variable {dir t A p cur name : CStr} {m : Mount} {mounts : List Mount}

/-- What goes on from a directory with a component of its own. -/
def GoesOn (dir t : CStr) : Prop := t = [] ∨ t.head? = some slash ∨ dir.getLast? = some slash

theorem within_append (hdir : dir ≠ []) (ht : GoesOn dir t) (hs : Stays t) : Within dir (dir ++ t) := by
  have habs : isAbsolute (dir ++ t) = isAbsolute dir := by
    rw [isAbsolute, isAbsolute, List.head?_append_of_ne_nil dir hdir]
  refine ⟨habs, ?_⟩
  rw [lexical, lexical, habs, components, components, Lexical.parts_append rfl ht]
  exact Lexical.suffix_resolve_append hs

/-! ## Paths of the host -/

theorem bestMount_mem (h : bestMount mounts p = some m) : m ∈ mounts := by
  have hfold : ∀ (l : List Mount) (best : Option Mount), l.foldl (betterMount p) best = some m →
      best = some m ∨ m ∈ l := by
    intro l
    induction l with
    | nil => exact fun best h => Or.inl h
    | cons m' l ih =>
      intro best h
      obtain hbest | hmem := ih _ h
      · rw [betterMount] at hbest
        split at hbest
        · exact Or.inr (Option.some.inj hbest ▸ List.mem_cons_self)
        · exact Or.inl hbest
      · exact Or.inr (List.mem_cons_of_mem _ hmem)
  exact (hfold mounts none h).resolve_left nofun

/-- What is behind a source in a buffer for a path. -/
def cut (m : Mount) (t : CStr) : CStr := t.take (maxPath - 1 - m.source.length)

theorem snprintf_source (m : Mount) (t : CStr) : snprintf (m.source ++ t) = m.source ++ cut m t := by
  have := m.fits
  rw [snprintf, List.take_append, List.take_of_length_le (by omega), cut]

/-- What is behind the source of a mount in a path of the host. -/
def hostTail (m : Mount) (p : CStr) : CStr :=
  cut m (if restOf m p = [] then [] else slash :: restOf m p)

theorem pathToHost_eq (h : bestMount mounts p = some m) : pathToHost mounts p = m.source ++ hostTail m p := by
  rw [pathToHost, h, hostTail, ← snprintf_source]
  dsimp only
  split
  · rw [List.append_nil]
  · rfl

theorem cut_cons (m : Mount) (t : CStr) : cut m (slash :: t) = [] ∨ (cut m (slash :: t)).head? = some slash := by
  rw [cut]
  cases maxPath - 1 - m.source.length with
  | zero => exact Or.inl rfl
  | succ n => exact Or.inr rfl

theorem goesOn_hostTail (dir : CStr) (m : Mount) (p : CStr) : GoesOn dir (hostTail m p) := by
  rw [hostTail]
  split
  · exact Or.inl (List.take_nil)
  · exact (cut_cons m (restOf m p)).imp_right Or.inl

/-- What is behind the source if a name is put behind the path. -/
def childTail (m : Mount) (p name : CStr) : CStr := cut m (hostTail m p ++ slash :: name)

theorem goesOn_childTail (dir : CStr) (m : Mount) (p name : CStr) : GoesOn dir (childTail m p name) := by
  have hhead : ∃ t, hostTail m p ++ slash :: name = slash :: t := by
    obtain hnil | hhead | hlast := goesOn_hostTail [] m p
    · exact ⟨name, by rw [hnil, List.nil_append]⟩
    · obtain ⟨t, ht⟩ := List.head?_eq_some_iff.1 hhead
      exact ⟨t ++ slash :: name, by rw [ht, List.cons_append]⟩
    · cases hlast
  obtain ⟨t, ht⟩ := hhead
  rw [childTail, ht]
  exact (cut_cons m t).imp_right Or.inl

theorem snprintf_child (h : bestMount mounts p = some m) :
    snprintf (pathToHost mounts p ++ slash :: name) = m.source ++ childTail m p name := by
  rw [pathToHost_eq h, List.append_assoc, snprintf_source, childTail]

/-- **A path is covered** by a mount, and does not climb out of it. -/
def Covered (mounts : List Mount) (p : CStr) : Prop :=
  ∃ m, bestMount mounts p = some m ∧ m.source ≠ [] ∧ Stays (hostTail m p)

theorem Covered.within (h : Covered mounts p) : ∃ m ∈ mounts, Within m.source (pathToHost mounts p) := by
  obtain ⟨m, hm, hne, hs⟩ := h
  refine ⟨m, bestMount_mem hm, ?_⟩
  rw [pathToHost_eq hm]
  exact within_append hne (goesOn_hostTail _ m p) hs

/-- A name in a directory that is covered is as well, and does not climb out. -/
def ChildCovered (mounts : List Mount) (p name : CStr) : Prop :=
  ∃ m, bestMount mounts p = some m ∧ m.source ≠ [] ∧ Stays (childTail m p name)

theorem ChildCovered.within (h : ChildCovered mounts p name) :
    ∃ m ∈ mounts, Within m.source (snprintf (pathToHost mounts p ++ slash :: name)) := by
  obtain ⟨m, hm, hne, hs⟩ := h
  refine ⟨m, bestMount_mem hm, ?_⟩
  rw [snprintf_child hm]
  exact within_append hne (goesOn_childTail _ m p name) hs

/-! ## What has been attached -/

/-- A path goes on from what has been attached. -/
def Below (A p : CStr) : Prop := ∃ t, p = A ++ t ∧ GoesOn A t

/-- It does not climb out of it. -/
def StaysBelow (A p : CStr) : Prop := Stays (p.drop A.length)

theorem Below.within (hA : A ≠ []) (h : Below A p) (hs : StaysBelow A p) : Within A p := by
  obtain ⟨t, rfl, ht⟩ := h
  rw [StaysBelow, List.drop_left] at hs
  exact within_append hA ht hs

theorem below_self (A : CStr) : Below A A := ⟨[], (List.append_nil A).symm, Or.inl rfl⟩

theorem goesOn_append (h : GoesOn A t) : GoesOn A (t ++ slash :: name) := by
  obtain rfl | hhead | hlast := h
  · exact Or.inr (Or.inl rfl)
  · obtain ⟨t', rfl⟩ := List.head?_eq_some_iff.1 hhead
    exact Or.inr (Or.inl rfl)
  · exact Or.inr (Or.inr hlast)

theorem goesOn_take (n : Nat) (h : GoesOn A t) : GoesOn A (t.take n) := by
  obtain rfl | hhead | hlast := h
  · exact Or.inl List.take_nil
  · obtain ⟨t', rfl⟩ := List.head?_eq_some_iff.1 hhead
    cases n with
    | zero => exact Or.inl rfl
    | succ n => exact Or.inr (Or.inl rfl)
  · exact Or.inr (Or.inr hlast)

/-- What is cut off is behind what has been attached. -/
theorem below_snprintf (hA : A.length < maxPath) (ht : GoesOn A t) : Below A (snprintf (A ++ t)) := by
  refine ⟨t.take (maxPath - 1 - A.length), ?_, goesOn_take _ ht⟩
  rw [snprintf, List.take_append, List.take_of_length_le (by omega)]

/-- **A walk** goes on from what has been attached. -/
theorem below_buildPath (hA : A.length < maxPath) (h : Below A cur) (name : CStr) : Below A (buildPath cur name) := by
  obtain ⟨t, rfl, ht⟩ := h
  rw [buildPath]
  split
  · rename_i hroot
    -- the slash at the root is not put in twice
    obtain ⟨rfl, rfl⟩ | ⟨rfl, rfl⟩ := List.append_eq_singleton_iff.1 hroot
    · exact below_snprintf hA (Or.inr (Or.inl rfl))
    · exact below_snprintf hA (Or.inr (Or.inr rfl))
  · rw [List.append_assoc]
    exact below_snprintf hA (goesOn_append ht)

/-- **A create** goes on from what has been attached. -/
theorem below_childPath (hA : A.length < maxPath) (h : Below A p) (name : CStr) : Below A (childPath p name) := by
  obtain ⟨t, rfl, ht⟩ := h
  rw [childPath]
  split
  · rename_i hlast
    rw [List.append_nil, List.append_assoc]
    refine below_snprintf hA ?_
    obtain rfl | hhead | hslash := ht
    · rw [List.append_nil] at hlast
      exact Or.inr (Or.inr hlast)
    · obtain ⟨t', rfl⟩ := List.head?_eq_some_iff.1 hhead
      exact Or.inr (Or.inl rfl)
    · exact Or.inr (Or.inr hslash)
  · rw [List.append_assoc, List.append_assoc]
    exact below_snprintf hA (goesOn_append ht)

end WuBuOS.Styx
