import WuBuOS.Lib.Breadth
import WuBuOS.Runtime.Cap.World

/-!
# Eager revocation

`wubu_cap_revoke_cascade` walks the descendants of an object breadth first, with a queue of 1024 places, and
revokes each that is not immortal.  What it comes by is a listing that depends only on the lists of
children (`listing`): a list ends where there is nothing in a slot, and the children of an immortal object
are not looked at.  The cascade revokes what is listed and nothing else (`wubuCapRevoke_deleted`).

What descends from an object is another matter, of which object was made from which.  A list of children
can lose them, when a younger sibling has been destroyed, and its slot perhaps been used again, so the two
can differ (`destroyed_sibling`).
-/

namespace WuBuOS.Cap

open Breadth Runs

variable {r r' : Registry} {o root : Object} {i : Nat} {ptrs ptrs' : Nat → Option Object} {w : World}

/-! ## The listing -/

/-- The children of an object as the cascade sees them. -/
def children (ptrs : Nat → Option Object) (i : Nat) : List Nat :=
  match ptrs i with
  | none => []
  | some o => if o.has flagImmortal then [] else (siblings ptrs revokeCascadeMax o.firstChildIdx).1

/-- **The first 1024 descendants of a slot**, as they are linked, breadth first. -/
def listing (r : Registry) (i : Nat) : List Nat :=
  walk (children r.ptrs) revokeCascadeMax (children r.ptrs i)

/-- The part of an object that the walk depends on. -/
def Object.tree (o : Object) : Bool × Nat × Nat :=
  (o.has flagImmortal, o.firstChildIdx, o.nextSiblingIdx)

theorem siblings_take (ptrs : Nat → Option Object) {k m : Nat} (h : k ≤ m) (cur : Nat) :
    (siblings ptrs k cur).1 = (siblings ptrs m cur).1.take k := by
  induction k generalizing m cur with
  | zero =>
    rw [siblings]
    split <;> rfl
  | succ k ih =>
    obtain ⟨m, rfl⟩ : ∃ n, m = n + 1 := ⟨m - 1, by omega⟩
    rw [siblings, siblings]
    split
    · rfl
    · dsimp only
      cases ptrs cur with
      | none => simp
      | some c =>
        dsimp only
        rw [List.take_succ_cons, ih (Nat.le_of_succ_le_succ h)]

theorem siblings_congr (h : ∀ i, (ptrs' i).map Object.nextSiblingIdx = (ptrs i).map Object.nextSiblingIdx)
    (room cur : Nat) : siblings ptrs' room cur = siblings ptrs room cur := by
  induction room generalizing cur with
  | zero => rw [siblings, siblings]
  | succ room ih =>
    rw [siblings, siblings]
    split
    · rfl
    · have hcur := h cur
      cases hp : ptrs cur with
      | none =>
        rw [hp, Option.map_none, Option.map_eq_none_iff] at hcur
        rw [hcur]
      | some c =>
        rw [hp, Option.map_some, Option.map_eq_some_iff] at hcur
        obtain ⟨c', hc', hnext⟩ := hcur
        rw [hc']
        dsimp only
        rw [hnext, ih]

/-- The lists of children are the same if the links are. -/
theorem children_congr (h : r'.view Object.tree = r.view Object.tree) : children r'.ptrs = children r.ptrs := by
  have hnext : ∀ i, (r'.ptrs i).map Object.nextSiblingIdx = (r.ptrs i).map Object.nextSiblingIdx := by
    intro i
    have hi := congrArg (Option.map fun t : Bool × Nat × Nat => t.2.2) (congrFun h i)
    rwa [Registry.view, Registry.view, Option.map_map, Option.map_map] at hi
  funext i
  have hi := congrFun h i
  rw [Registry.view, Registry.view] at hi
  rw [children, children]
  cases hp : r.ptrs i with
  | none =>
    rw [hp, Option.map_none, Option.map_eq_none_iff] at hi
    rw [hi]
  | some o =>
    rw [hp, Option.map_some, Option.map_eq_some_iff] at hi
    obtain ⟨o', ho', htree⟩ := hi
    rw [ho']
    dsimp only
    rw [show o'.has flagImmortal = o.has flagImmortal from congrArg Prod.fst htree,
      show o'.firstChildIdx = o.firstChildIdx from congrArg (fun t => t.2.1) htree,
      siblings_congr hnext]

/-! ## What the cascade does -/

/-- What the cascade does to an object that it comes by. -/
def Object.cut (o : Object) : Object := if o.has flagImmortal || o.deleted then o else o.revoked

theorem cut_tree (o : Object) : o.cut.tree = o.tree := by
  rw [Object.cut]
  split <;> rfl

theorem cut_cut (o : Object) : o.cut.cut = o.cut := by
  by_cases h : (o.has flagImmortal || o.deleted) = true
  · rw [show o.cut = o from if_pos h, show o.cut = o from if_pos h]
  · rw [show o.cut = o.revoked from if_neg h]
    exact if_pos (Bool.or_true _)

/-- **The loop comes by the listing of its queue**, and cuts everything that is in it. -/
theorem cascadeLoop_spec {fuel tail count : Nat} {queue : List Nat} {truncated : Bool}
    (hroom : tail + fuel = revokeCascadeMax + queue.length) (hqueue : queue.length ≤ fuel) (i : Nat) :
    (cascadeLoop fuel queue tail truncated count r).2.ptrs i =
      if i ∈ walk (children r.ptrs) fuel queue then (r.ptrs i).map Object.cut else r.ptrs i := by
  induction fuel generalizing queue tail truncated count r with
  | zero => rw [cascadeLoop, walk, if_neg List.not_mem_nil]
  | succ fuel ih =>
    cases queue with
    | nil => rw [cascadeLoop, walk, if_neg List.not_mem_nil]
    | cons idx queue =>
      rw [List.length_cons] at hroom hqueue
      rw [cascadeLoop, walk]
      -- what is done to the object in this slot, and what it adds to the queue
      have hskip : children r.ptrs idx = [] → (r.ptrs idx).map Object.cut = r.ptrs idx →
          (cascadeLoop fuel queue tail truncated count r).2.ptrs i =
            if i ∈ idx :: walk (children r.ptrs) fuel (queue ++ children r.ptrs idx) then
              (r.ptrs i).map Object.cut else r.ptrs i := by
        intro hkids hcut
        rw [ih (by omega) (by omega), hkids, List.append_nil]
        rcases eq_or_ne i idx with rfl | hne
        · rw [hcut, ite_self, ite_self]
        · simp only [List.mem_cons, hne, false_or]
      cases hobj : r.ptrs idx with
      | none =>
        rw [hobj] at hskip
        exact hskip (by rw [children, hobj]) rfl
      | some obj =>
        dsimp only
        by_cases himm : obj.has flagImmortal = true
        · rw [if_pos himm]
          refine hskip (by rw [children, hobj]; exact if_pos himm) ?_
          rw [hobj, Option.map_some, Object.cut, himm, Bool.true_or, if_pos rfl]
        · rw [if_neg himm]
          generalize hr' : (if obj.deleted then r else r.set idx (some obj.revoked)) = r'
          have hptrs : ∀ j, r'.ptrs j = if j = idx then some obj.cut else r.ptrs j := by
            intro j
            rw [← hr', Object.cut, Bool.not_eq_true _ |>.mp himm, Bool.false_or]
            split
            · split
              · rename_i hj
                rw [hj, hobj]
              · rfl
            · exact Function.update_apply ..
          have htree : r'.view Object.tree = r.view Object.tree := by
            funext j
            rw [Registry.view, hptrs]
            split
            · rename_i hj
              rw [hj, Registry.view, hobj, Option.map_some, Option.map_some, cut_tree]
            · rfl
          have hkids : children r.ptrs idx = (siblings r.ptrs revokeCascadeMax obj.firstChildIdx).1 := by
            rw [children, hobj]
            exact if_neg himm
          have hsib : (siblings r'.ptrs (revokeCascadeMax - tail) obj.firstChildIdx).1 =
              (children r.ptrs idx).take (fuel - queue.length) := by
            rw [hkids, siblings_take r'.ptrs (Nat.sub_le revokeCascadeMax tail),
              show revokeCascadeMax - tail = fuel - queue.length by omega, siblings_congr]
            intro j
            have hj := congrArg (Option.map fun t : Bool × Nat × Nat => t.2.2) (congrFun htree j)
            rwa [Registry.view, Registry.view, Option.map_map, Option.map_map] at hj
          have hlen : ((children r.ptrs idx).take (fuel - queue.length)).length ≤ fuel - queue.length :=
            List.length_take_le ..
          rw [hsib, ih (by rw [List.length_append]; omega) (by rw [List.length_append]; omega), children_congr htree]
          have hwalk : walk (children r.ptrs) fuel
              (queue ++ (children r.ptrs idx).take (fuel - queue.length)) =
              walk (children r.ptrs) fuel (queue ++ children r.ptrs idx) := by
            rw [← walk_take (q := queue ++ children r.ptrs idx) (Nat.le_refl fuel),
              List.take_append, List.take_of_length_le (show queue.length ≤ fuel by omega)]
          rw [hwalk, hptrs]
          rcases eq_or_ne i idx with rfl | hne
          · rw [if_pos rfl, if_pos List.mem_cons_self, hobj, Option.map_some, Option.map_some, cut_cut, ite_self]
          · simp only [List.mem_cons, hne, false_or, if_false]

theorem siblings_length_le (ptrs : Nat → Option Object) (room cur : Nat) :
    (siblings ptrs room cur).1.length ≤ room := by
  rw [siblings_take ptrs (Nat.le_refl room)]
  exact List.length_take_le ..

/-- **What `wubu_cap_revoke` does to an object with eager revocation**: it and what is listed below it,
but for what is immortal, are marked as deleted. -/
theorem wubuCapRevoke_deleted {tok : Token} {n : Nat} (h : wubuCapRevoke tok r = (.ok n, r'))
    (hroot : r.ptrs tok.idx = some root) (heager : root.has flagEagerRevoke = true)
    (ho : r.ptrs i = some o) :
    ∃ o', r'.ptrs i = some o' ∧ o'.essence = o.essence ∧ (o'.deleted = true ↔ o.deleted = true ∨
      i = tok.idx ∨ (o.has flagImmortal = false ∧ i ∈ listing r tok.idx)) := by
  have hess : r'.view Object.essence = r.view Object.essence := by
    rw [← wubuCapRevoke_essence tok r, h]
  obtain ⟨o', ho', hoo'⟩ := Registry.view_eq_some
    (show r'.view Object.essence i = some o.essence by rw [hess, Registry.view_some ho])
  refine ⟨o', ho', hoo', ?_⟩
  rw [wubuCapRevoke] at h
  split at h
  · cases h
  rename_i hidx
  rw [hroot] at h
  dsimp only at h
  split at h
  · cases h
  rename_i himm
  split at h
  · cases h
  rw [wubuCapRevokeCascade, if_neg hidx] at h
  have hset : (r.set tok.idx (some root.revoked)).ptrs tok.idx = some root.revoked :=
    Function.update_self ..
  rw [hset] at h
  dsimp only at h
  generalize hr1 : r.set tok.idx (some root.revoked) = r1 at h hset
  have hother : ∀ j ≠ tok.idx, r1.ptrs j = r.ptrs j := fun j hj => by
    rw [← hr1]
    exact Function.update_of_ne hj ..
  have htree : r1.view Object.tree = r.view Object.tree := by
    rw [← hr1]
    exact r.view_set_same hroot rfl
  have hkids : (siblings r1.ptrs revokeCascadeMax root.revoked.firstChildIdx).1 = children r1.ptrs tok.idx := by
    rw [children, hset]
    exact (if_neg himm).symm
  have hspec := @cascadeLoop_spec r1 revokeCascadeMax
    (siblings r1.ptrs revokeCascadeMax root.revoked.firstChildIdx).1.length 0
    (siblings r1.ptrs revokeCascadeMax root.revoked.firstChildIdx).1
    ((siblings r1.ptrs revokeCascadeMax root.revoked.firstChildIdx).2 != .done) (Nat.add_comm ..)
    (siblings_length_le ..) i
  generalize cascadeLoop _ _ _ _ _ r1 = l at h hspec
  obtain ⟨⟨truncated, count⟩, r2⟩ := l
  rw [hkids, children_congr htree, ← listing] at hspec
  -- the mark of a truncated cascade does not matter
  have hdel : ∀ o2, r2.ptrs i = some o2 → o'.deleted = o2.deleted := by
    intro o2 ho2
    have hview : r'.view Object.deleted = r2.view Object.deleted := by
      rw [← (Prod.mk.inj h).2]
      split
      · rw [Registry.view_set, Option.map_map,
          show Object.deleted ∘ (fun o => { o with flags := o.flags ||| flagCascadeTruncated }) =
            Object.deleted from rfl]
        exact Function.update_eq_self tok.idx (r2.view Object.deleted)
      · rfl
    have hi := congrFun hview i
    rw [Registry.view_some ho', Registry.view_some ho2] at hi
    exact Option.some.inj hi
  have hcut : ∀ o1 : Object, o1.cut.deleted = (o1.deleted || !o1.has flagImmortal) := by
    intro o1
    rw [Object.cut]
    cases hi : o1.has flagImmortal <;> cases hd : o1.deleted <;> simp [hd, Object.revoked]
  rcases eq_or_ne i tok.idx with rfl | hne
  · rw [hset, Option.map_some] at hspec
    refine iff_of_true ?_ (Or.inr (Or.inl rfl))
    split at hspec
    · rw [hdel _ hspec, hcut]
      rfl
    · exact hdel _ hspec
  · rw [hother i hne, ho, Option.map_some] at hspec
    split at hspec
    · rw [hdel _ hspec, hcut]
      simp [*]
    · rw [hdel _ hspec]
      simp [*]

/-! ## Whether eager revocation is complete -/

/-- There is someone who can resolve the object, while it is not revoked. -/
def Object.Usable (o : Object) : Prop := ∃ pid, validateAudience o pid = true

theorem usable_congr {o' : Object} (h : o'.essence = o.essence) : o'.Usable ↔ o.Usable := by
  refine exists_congr fun pid => ?_
  rw [← validateAudience_essence o', h, validateAudience_essence]

theorem immortal_congr {o' : Object} (h : o'.essence = o.essence) : o'.has flagImmortal = o.has flagImmortal := by
  rw [← has_essence o' (by decide), h, has_essence o (by decide)]

/-- **An object can be resolved by someone** if it is not revoked and is meant for someone. -/
theorem resolves_iff (ho : r.ptrs i = some o) (h0 : i ≠ 0) (hlt : i < objectCapacity) :
    (∃ pid tok required, wubuCapResolve pid tok required r = some i) ↔ o.deleted = false ∧ o.Usable := by
  constructor
  · rintro ⟨pid, tok, required, h⟩
    obtain ⟨-, -, -, o', ho', hdel, -, haud, -⟩ := wubuCapResolve_iff.1 h
    obtain rfl : o = o' := Option.some.inj (ho.symm.trans ho')
    exact ⟨hdel, pid, haud⟩
  · rintro ⟨hdel, pid, haud⟩
    exact ⟨pid, ⟨o.generation, i, o.flags⟩, 0,
      wubuCapResolve_iff.2 ⟨rfl, h0, hlt, o, ho, hdel, rfl, haud, UInt64.and_zero⟩⟩

/-- **Eager revocation is complete** if and only if what descends from the root, and could be used, is
listed below it. -/
theorem eager_iff_listed {mem : Nat → Bool} {calls : List CapCall} {tok : Token} {n : Nat}
    (h : Run worldStep (World.empty mem) calls w) (hroot : w.reg.ptrs tok.idx = some root)
    (heager : root.has flagEagerRevoke = true) (hrev : wubuCapRevoke tok w.reg = (.ok n, r')) :
    (∀ i o, r'.ptrs i = some o → o.has flagImmortal = false → w.Descends (w.name tok.idx) (w.name i) →
      ∀ pid tok' required, wubuCapResolve pid tok' required r' ≠ some i) ↔
    ∀ i o, w.reg.ptrs i = some o → o.has flagImmortal = false →
      w.Descends (w.name tok.idx) (w.name i) → o.deleted = false → o.Usable →
      i ∈ listing w.reg tok.idx := by
  have hsound := World.sound_run h
  have hess : r'.view Object.essence = w.reg.view Object.essence := by
    rw [← wubuCapRevoke_essence tok w.reg, hrev]
  have hbound : ∀ i o, w.reg.ptrs i = some o → o.has flagImmortal = false → i ≠ 0 ∧ i < objectCapacity := by
    intro i o ho himm
    refine ⟨?_, hsound.bound i _ (Registry.view_some ho _)⟩
    rintro rfl
    have h0 := hsound.immortal _ (Registry.view_some ho _)
    rw [has_essence o (by decide), himm] at h0
    cases h0
  constructor
  · intro hall i o ho himm hd hdel huse
    obtain ⟨h0, hlt⟩ := hbound i o ho himm
    obtain ⟨o', ho', hoo', hdel'⟩ := wubuCapRevoke_deleted hrev hroot heager ho
    have hno : ¬(o'.deleted = false ∧ o'.Usable) := by
      rw [← resolves_iff ho' h0 hlt]
      rintro ⟨pid, tok', required, hres⟩
      exact hall i o' ho' ((immortal_congr hoo').trans himm) hd pid tok' required hres
    have hcut : o'.deleted = true := by
      by_contra hne
      exact hno ⟨Bool.eq_false_of_not_eq_true hne, (usable_congr hoo').2 huse⟩
    obtain h1 | rfl | ⟨-, hlist⟩ := hdel'.1 hcut
    · rw [hdel] at h1
      cases h1
    · exact absurd (hsound.descends_lt hd) (Nat.lt_irrefl _)
    · exact hlist
  · intro hall i o' ho' himm hd pid tok' required hres
    obtain ⟨o, ho, hoo⟩ := Registry.view_eq_some
      (show w.reg.view Object.essence i = some o'.essence by rw [← hess, Registry.view_some ho'])
    have himm' := (immortal_congr hoo).trans himm
    obtain ⟨h0, hlt⟩ := hbound i o ho himm'
    obtain ⟨o₂, ho₂, hoo', hdel'⟩ := wubuCapRevoke_deleted hrev hroot heager ho
    obtain rfl : o' = o₂ := Option.some.inj (ho'.symm.trans ho₂)
    obtain ⟨hdel, huse⟩ := (resolves_iff ho' h0 hlt).1 ⟨pid, tok', required, hres⟩
    rw [hdel, eq_comm, iff_false_left (Bool.noConfusion ·)] at hdel'
    have hold : o.deleted = false := by
      by_contra hne
      exact hdel' (Or.inl (Bool.eq_true_of_not_eq_false hne))
    exact hdel' (Or.inr (Or.inr ⟨himm', hall i o ho himm' hd hold ((usable_congr hoo').1 huse)⟩))

/-- A root with eager revocation, and two objects derived from it. -/
def family : List CapCall :=
  [.create 1 0x0B (some [100, 200]) flagEagerRevoke 0 100 idxNone, .derive ⟨1, 1, 2⟩ 100 0x01 (some [200]) 0,
    .derive ⟨1, 1, 2⟩ 100 0x01 (some [200]) 0]

theorem family_ptrs (i : Nat) : (World.after family).reg.ptrs (i + 4) = none := rfl

/-- Here both of them are revoked. -/
theorem eager_iff_listed_family : ∃ root n r', (World.after family).reg.ptrs 1 = some root ∧
    wubuCapRevoke ⟨1, 1, 2⟩ (World.after family).reg = (.ok n, r') ∧
    ∀ i o, r'.ptrs i = some o → o.has flagImmortal = false →
      (World.after family).Descends 0 ((World.after family).name i) →
      ∀ pid tok required, wubuCapResolve pid tok required r' ≠ some i := by
  have hroot : ((World.after family).reg.ptrs 1).map (Object.has · flagEagerRevoke) = some true := by
    decide
  obtain ⟨root, hroot, heager⟩ := Option.map_eq_some_iff.1 hroot
  have hrev : (wubuCapRevoke ⟨1, 1, 2⟩ (World.after family).reg).1 = .ok 3 := by decide
  refine ⟨root, 3, _, hroot, Prod.ext hrev rfl, ?_⟩
  have hres : wubuCapRevoke ⟨1, 1, 2⟩ (World.after family).reg =
      (.ok 3, (wubuCapRevoke ⟨1, 1, 2⟩ (World.after family).reg).2) := Prod.ext hrev rfl
  refine (eager_iff_listed (World.run_after family) hroot heager hres).2 fun i o ho _ hd _ _ => ?_
  have hlt := (World.sound_run (World.run_after family)).descends_lt hd
  match i with
  | 0 => exact absurd hlt (by decide)
  | 1 => exact absurd hlt (by decide)
  | 2 => decide
  | 3 => decide
  | i + 4 => cases (family_ptrs i).symm.trans ho

/-- **A destroyed sibling** hides the objects that were derived before it: the list of children ends at its
slot, and the older one keeps its token. -/
theorem destroyed_sibling : let w := World.after (family ++ [.destroy 3])
    let rev := wubuCapRevoke ⟨1, 1, 2⟩ w.reg
    ((w.reg.ptrs 1).map (Object.has · flagEagerRevoke) = some true ∧ rev.1 = .ok 1) ∧
      w.Descends (w.name 1) (w.name 2) ∧ (rev.2.ptrs 2).map (Object.has · flagImmortal) = some false ∧
      wubuCapResolve 200 ⟨1, 2, 0⟩ rightRead rev.2 = some 2 := by
  intro w rev
  have hparent : w.parent (w.name 2) = some (w.name 1) := by decide
  exact ⟨by decide, .single hparent, by decide, by decide⟩

end WuBuOS.Cap
