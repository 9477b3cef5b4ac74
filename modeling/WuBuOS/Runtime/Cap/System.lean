import WuBuOS.Runtime.Cap.Handle

/-!
# System capabilities

`runtime/wubu_cap/wubu_cap_system.c`, and `wubu_cap_handle_resolve_kind` of `wubu_cap_handle.c`.  All system
capabilities are derived from one that is made when the system starts, and put into the handle tables of the processes
that they are for.  Whether a process has one is found out by a search of its table.

The search ends at the first handle that is for a live object of the kind, and what that object grants is the answer.
What comes behind it is not looked at, so the answer depends on the order of the handles (`resolve_kind_exact_iff`).
A handle can be inserted for any index but the mark of an unused entry; one that is no slot of the registry makes the
search read outside of it.
-/

namespace WuBuOS.Cap

/-! ## The calls -/

/-- `WUBU_CAP_KIND_SYSTEM`. -/
def kindSystem : Nat := 9

/-- The loop of `wubu_cap_handle_resolve_kind`, with so many slots still to be looked at; `none` is a read outside
of the registry. -/
def resolveKindLoop (t : HandleTable) (pid : Int) (kind : Nat) (required : UInt64) (r : Registry) :
    Nat → Nat → Option (Except CapError Unit)
  | 0, _ => some (.error .eperm)
  | n + 1, slot =>
    let e := t.entries slot
    if e.objectIdx = idxNone then resolveKindLoop t pid kind required r n (slot + 1)
    else if objectCapacity ≤ e.objectIdx then none
    else
      match r.ptrs e.objectIdx with
      | none => resolveKindLoop t pid kind required r n (slot + 1)
      | some obj =>
        if obj.deleted = true ∨ obj.kind ≠ kind then resolveKindLoop t pid kind required r n (slot + 1)
        else
          match wubuCapResolve pid (tokenPack obj.generation e.objectIdx e.tokenFlags) required r with
          | some _ => some (.ok ())
          | none => some (.error .eperm)

def wubuCapHandleResolveKind (t : HandleTable) (pid : Int) (kind : Nat) (required : UInt64) (r : Registry) :
    Option (Except CapError Unit) :=
  resolveKindLoop t pid kind required r (t.capacity - 1) 1

def wubuCapSystemResolve (t : HandleTable) (pid : Int) (required : UInt64) (r : Registry) :
    Option (Except CapError Unit) :=
  wubuCapHandleResolveKind t pid kindSystem required r

/-- `wubu_cap_system_init`; what becomes of `g_bootcap_idx` is returned. -/
def wubuCapSystemInit (bootcapIdx : Nat) (r : Registry) : Nat × Registry :=
  if bootcapIdx ≠ idxNone then (bootcapIdx, r)
  else
    match wubuCapCreate kindSystem rightsAll (some [pidNone]) (flagPublic ||| flagEagerRevoke) 0 pidNone idxNone r with
    | (.error _, r) => (bootcapIdx, r)
    | (.ok (slot, _), r) => (slot, r)

def wubuCapSystemInstallToPid (bootcapIdx : Nat) (t : HandleTable) (pid : Int) (rightsSubset : UInt64)
    (r : Registry) : (Except CapError Unit × HandleTable) × Registry :=
  if bootcapIdx = idxNone then ((.error .einval, t), r)
  else
    match r.ptrs bootcapIdx with
    | none => ((.error .erevoked, t), r)
    | some root =>
      if root.deleted then ((.error .erevoked, t), r)
      else if rightsSubset &&& ~~~root.rights ≠ 0 then ((.error .eperm, t), r)
      else
        match wubuCapDerive (tokenPack root.generation bootcapIdx 0) pidNone rightsSubset
            (some (pid :: List.replicate (audienceMax - 1) pidNone)) 0 r with
        | (.error _, r) => ((.error .eperm, t), r)
        | (.ok (slot, _), r) =>
          match wubuCapHandleInsert t slot 0 r with
          | ((tok, t), r) => ((if tok.isNull then .error .enomem else .ok (), t), r)

/-! ## What the gate is to ask -/

/-- The slot is in use, and the object that it is for is a live one of the kind. -/
structure OfKind (t : HandleTable) (r : Registry) (kind slot : Nat) : Prop where
  pos : 1 ≤ slot
  bound : slot < t.capacity
  inside : (t.entries slot).objectIdx < objectCapacity
  object : ∃ o, r.ptrs (t.entries slot).objectIdx = some o ∧ o.deleted = false ∧ o.kind = kind

/-- `wubu_cap_resolve` grants what a slot is for, with the generation that it has now. -/
def grants (t : HandleTable) (r : Registry) (pid : Int) (required : UInt64) (slot : Nat) : Bool :=
  match r.ptrs (t.entries slot).objectIdx with
  | none => false
  | some o =>
    (wubuCapResolve pid (tokenPack o.generation (t.entries slot).objectIdx (t.entries slot).tokenFlags) required
      r).isSome

/-- The first slot for a live object of the kind. -/
structure FirstOfKind (t : HandleTable) (r : Registry) (kind slot : Nat) : Prop where
  ofKind : OfKind t r kind slot
  before : ∀ i < slot, ¬ OfKind t r kind i

/-- **The first handle of the kind decides**: if any of them is granted, then it is. -/
def FirstDecides (t : HandleTable) (r : Registry) (pid : Int) (kind : Nat) (required : UInt64) : Prop :=
  ∀ first, FirstOfKind t r kind first →
    ∀ slot, OfKind t r kind slot → grants t r pid required slot = true → grants t r pid required first = true

/-- A handle for what is no slot of the registry. -/
structure Stray (t : HandleTable) (slot : Nat) : Prop where
  pos : 1 ≤ slot
  bound : slot < t.capacity
  used : (t.entries slot).objectIdx ≠ idxNone
  outside : objectCapacity ≤ (t.entries slot).objectIdx

/-- Every such handle stands behind one of the kind. -/
def StraysBehind (t : HandleTable) (r : Registry) (kind : Nat) : Prop :=
  ∀ slot, Stray t slot → ∃ first < slot, OfKind t r kind first

/-! ## The search -/

variable {t : HandleTable} {r : Registry} {pid : Int} {kind slot n : Nat} {required : UInt64}

theorem OfKind.used (h : OfKind t r kind slot) : (t.entries slot).objectIdx ≠ idxNone :=
  Nat.ne_of_lt (h.inside.trans (by decide))

/-- What the loop does at a slot that is for a live object of the kind. -/
theorem resolveKindLoop_ofKind (h : OfKind t r kind slot) : resolveKindLoop t pid kind required r (n + 1) slot =
    some (if grants t r pid required slot then .ok () else .error .eperm) := by
  obtain ⟨o, ho, hdel, hkind⟩ := h.object
  rw [resolveKindLoop, grants]
  simp only [h.used, Nat.not_le_of_lt h.inside, ho, hdel, hkind]
  cases wubuCapResolve pid (tokenPack o.generation (t.entries slot).objectIdx (t.entries slot).tokenFlags) required r with
  | none => simp
  | some i => simp

theorem resolveKindLoop_stray (h : Stray t slot) : resolveKindLoop t pid kind required r (n + 1) slot = none := by
  rw [resolveKindLoop, if_neg h.used, if_pos h.outside]

/-- Any other slot is passed over. -/
theorem resolveKindLoop_other (hpos : 1 ≤ slot) (hlt : slot < t.capacity) (h : ¬ OfKind t r kind slot)
    (hstray : ¬ Stray t slot) :
    resolveKindLoop t pid kind required r (n + 1) slot = resolveKindLoop t pid kind required r n (slot + 1) := by
  rw [resolveKindLoop]
  split
  · rfl
  rename_i hused
  split
  · rename_i hout
    exact absurd ⟨hpos, hlt, hused, hout⟩ hstray
  rename_i hin
  split
  · rfl
  rename_i o ho
  split
  · rfl
  rename_i hskip
  rw [not_or, not_not, Bool.not_eq_true] at hskip
  exact absurd ⟨hpos, hlt, Nat.lt_of_not_le hin, o, ho, hskip.1, hskip.2⟩ h

theorem OfKind.not_stray (h : OfKind t r kind slot) : ¬ Stray t slot := fun hs => Nat.not_le_of_lt h.inside hs.outside

/-- **What the search comes to**: it finds nothing, or what the first handle of the kind is granted, or it leaves the
registry at a handle that is no slot of it. -/
theorem resolveKindLoop_cases (n slot : Nat) (hpos : 1 ≤ slot) (hn : slot + n = t.capacity) :
    (resolveKindLoop t pid kind required r n slot = some (.error .eperm) ∧
        ∀ i, slot ≤ i → ¬ OfKind t r kind i ∧ ¬ Stray t i) ∨
      ∃ k, (∀ i, slot ≤ i → i < k → ¬ OfKind t r kind i ∧ ¬ Stray t i) ∧
        (OfKind t r kind k ∧ resolveKindLoop t pid kind required r n slot =
            some (if grants t r pid required k then .ok () else .error .eperm) ∨
          Stray t k ∧ resolveKindLoop t pid kind required r n slot = none) := by
  induction n generalizing slot with
  | zero =>
    refine Or.inl ⟨rfl, fun i hi => ⟨fun h => ?_, fun h => ?_⟩⟩
    · have := h.bound
      omega
    · have := h.bound
      omega
  | succ n ih =>
    have hnothing : ∀ i, slot ≤ i → i < slot → ¬ OfKind t r kind i ∧ ¬ Stray t i :=
      fun i hi hlt => absurd hlt (Nat.not_lt.2 hi)
    by_cases hkind : OfKind t r kind slot
    · exact Or.inr ⟨slot, hnothing, Or.inl ⟨hkind, resolveKindLoop_ofKind hkind⟩⟩
    by_cases hs : Stray t slot
    · exact Or.inr ⟨slot, hnothing, Or.inr ⟨hs, resolveKindLoop_stray hs⟩⟩
    have hstep : ∀ i, slot ≤ i → slot + 1 ≤ i ∨ ¬ OfKind t r kind i ∧ ¬ Stray t i := by
      intro i hi
      rcases Nat.eq_or_lt_of_le hi with rfl | hi
      · exact Or.inr ⟨hkind, hs⟩
      · exact Or.inl hi
    rw [resolveKindLoop_other hpos (by omega) hkind hs]
    obtain ⟨heq, hno⟩ | ⟨k, hno, hk⟩ := ih (slot + 1) (by omega) (by omega)
    · exact Or.inl ⟨heq, fun i hi => (hstep i hi).elim (hno i) id⟩
    · exact Or.inr ⟨k, fun i hi hlt => (hstep i hi).elim (hno i · hlt) id, hk⟩

/-- The search of a whole table. -/
theorem resolveKind_cases (t : HandleTable) (r : Registry) (pid : Int) (kind : Nat) (required : UInt64) :
    (wubuCapHandleResolveKind t pid kind required r = some (.error .eperm) ∧
        ∀ i, ¬ OfKind t r kind i ∧ ¬ Stray t i) ∨
      ∃ k, (∀ i < k, ¬ OfKind t r kind i ∧ ¬ Stray t i) ∧
        (OfKind t r kind k ∧ wubuCapHandleResolveKind t pid kind required r =
            some (if grants t r pid required k then .ok () else .error .eperm) ∨
          Stray t k ∧ wubuCapHandleResolveKind t pid kind required r = none) := by
  have hfrom : ∀ i, 1 ≤ i ∧ i < t.capacity ∨ ¬ OfKind t r kind i ∧ ¬ Stray t i := by
    intro i
    by_cases hi : 1 ≤ i ∧ i < t.capacity
    · exact Or.inl hi
    · exact Or.inr ⟨fun h => hi ⟨h.pos, h.bound⟩, fun h => hi ⟨h.pos, h.bound⟩⟩
  rcases Nat.eq_zero_or_pos t.capacity with hzero | hpos
  · rw [wubuCapHandleResolveKind, hzero]
    refine Or.inl ⟨rfl, fun i => (hfrom i).resolve_left ?_⟩
    omega
  · obtain ⟨heq, hno⟩ | ⟨k, hno, hk⟩ := @resolveKindLoop_cases t r pid kind required
      (t.capacity - 1) 1 (Nat.le_refl 1) (by omega)
    · exact Or.inl ⟨heq, fun i => (hfrom i).elim (fun h => hno i h.1) id⟩
    · exact Or.inr ⟨k, fun i hi => (hfrom i).elim (fun h => hno i h.1 hi) id, hk⟩

/-- **The gate is exact** if and only if the first handle of the kind decides, and every handle for what is no slot
of the registry stands behind one of the kind. -/
theorem resolve_kind_exact_iff (t : HandleTable) (r : Registry) (pid : Int) (kind : Nat) (required : UInt64) :
    (∃ res, wubuCapHandleResolveKind t pid kind required r = some res ∧
        (res = .ok () ↔ ∃ slot, OfKind t r kind slot ∧ grants t r pid required slot = true)) ↔
      StraysBehind t r kind ∧ FirstDecides t r pid kind required := by
  obtain ⟨heq, hno⟩ | ⟨k, hno, ⟨hk, heq⟩ | ⟨hk, heq⟩⟩ := resolveKind_cases t r pid kind required
  · refine iff_of_true ⟨_, heq, ⟨by rintro ⟨⟩, ?_⟩⟩
      ⟨fun i hi => absurd hi (hno i).2, fun first hfirst => absurd hfirst.ofKind (hno first).1⟩
    rintro ⟨slot, hslot, -⟩
    exact absurd hslot (hno slot).1
  · have hbehind : StraysBehind t r kind := by
      intro i hi
      refine ⟨k, Nat.lt_of_not_le fun hle => ?_, hk⟩
      rcases Nat.eq_or_lt_of_le hle with rfl | hlt
      · exact hk.not_stray hi
      · exact (hno i hlt).2 hi
    constructor
    · rintro ⟨res, hres, hiff⟩
      refine ⟨hbehind, fun first hfirst slot hslot hgrants => ?_⟩
      have hle : k ≤ first := Nat.le_of_not_lt fun hlt => (hno first hlt).1 hfirst.ofKind
      obtain rfl := hle.eq_of_not_lt fun hlt => hfirst.before k hlt hk
      obtain rfl := hiff.2 ⟨slot, hslot, hgrants⟩
      by_contra hnot
      rw [hres, if_neg hnot] at heq
      cases heq
    · rintro ⟨-, hdecides⟩
      refine ⟨_, heq, fun hok => ⟨k, hk, ?_⟩, ?_⟩
      · by_contra hnot
        rw [if_neg hnot] at hok
        cases hok
      · rintro ⟨slot, hslot, hgrants⟩
        exact if_pos (hdecides k ⟨hk, fun i hi => (hno i hi).1⟩ slot hslot hgrants)
  · refine iff_of_false ?_ ?_
    · rintro ⟨res, hres, -⟩
      cases heq.symm.trans hres
    · rintro ⟨hbehind, -⟩
      obtain ⟨j, hj, hkind⟩ := hbehind k hk
      exact (hno j hj).1 hkind

/-- A process is given a system capability with the right to read, and another one with the right to write. -/
def installTwice : Option (HandleTable × Registry) :=
  match wubuCapHandleTableCreate (Registry.empty fun _ => true) with
  | (none, _) => none
  | (some t, r) =>
    match wubuCapSystemInit idxNone r with
    | (boot, r) =>
      match wubuCapSystemInstallToPid boot t 7 rightRead r with
      | ((.error _, _), _) => none
      | ((.ok (), t), r) =>
        match wubuCapSystemInstallToPid boot t 7 rightWrite r with
        | ((.error _, _), _) => none
        | ((.ok (), t), r) => some (t, r)

/-- **The second capability is not found**: the process may write, and is told that it may not. -/
theorem system_resolve_blind : ∃ t r, installTwice = some (t, r) ∧ OfKind t r kindSystem 2 ∧
    grants t r 7 rightWrite 2 = true ∧ wubuCapSystemResolve t 7 rightWrite r = some (.error .eperm) := by
  refine ⟨_, _, rfl, ⟨by decide, by decide, by decide, _, rfl, rfl, rfl⟩, ?_, ?_⟩
  · decide
  · decide

end WuBuOS.Cap
