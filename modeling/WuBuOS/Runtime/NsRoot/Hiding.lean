import WuBuOS.Lib.Runs
import WuBuOS.Runtime.NsRoot.View

/-!
# What containers do not see

The control plane of the host is granted to views of the host, with a flag.  A container passes over grants
with the flag, but grants without it may lead to the same place: one for a subtree that has the control
plane inside of it, and one that was adopted, since a handle says nothing of flags.

* `authority_contained`: if flagged grants are made to views of the host only, the rights of a view are those that
  it had, was granted, or inherited or adopted from a view that had them.
* `control_plane_hidden` adds that no container is led into the control plane, of a family of views to whose
  containers neither of these two kinds of grants was ever given.
-/

namespace WuBuOS.NsRoot

open Runs Subtree
open Styx (CStr slash text)

variable {rights : BitVec 64}

/-! ## Where paths lead -/

theorem within_comparable {s t p : CStr} (hs : Styx.Within s p) (ht : Styx.Within t p) :
    Styx.Within s t ∨ Styx.Within t s := by
  obtain ⟨ha, hs⟩ := hs
  obtain ⟨hb, ht⟩ := ht
  obtain h | h := List.suffix_or_suffix_of_suffix hs ht
  · exact .inl ⟨hb.symm.trans ha, h⟩
  · exact .inr ⟨ha.symm.trans hb, h⟩

instance (s p : CStr) : Decidable (Styx.Within s p) := inferInstanceAs (Decidable (_ ∧ _))

/-- **Paths as what they come to** once every `".."` has taken a component away. -/
def resolved : Reading slash where
  inside s p := decide (Styx.Within s p)
  keeps := Styx.Stays
  comparable hs ht := by
    simp only [decide_eq_true_iff] at hs ht ⊢
    exact within_comparable hs ht
  inside_append hs ht hk := by
    rw [decide_eq_true_iff]
    exact Styx.within_append hs (ht.imp_right .inl) hk

/-! ## Families of views -/

/-- A call about a view; the handle that is adopted is one that was minted. -/
inductive Call
  | grant (src mount : CStr) (rights : BitVec 64) (flags : BitVec 32)
  | revoke (mount : CStr)
  | fork (mem : Bool)
  | exec
  | rebase (base : CStr)
  | share (mount : CStr) (mem : Bool)
  | adopt (h : Nat) (mount : CStr)

/-- What can be done: there may be another view, or something is called for one. -/
inductive Op
  | create (name : CStr) (rootClass : Int) (mem : Bool)
  | call (k : Nat) (c : Call)

/-- A handle, and the view that minted it as it was then. -/
structure Minted where
  share : Share
  issuer : View

/-- The views, the handles, and the sources that have been granted as control plane. -/
structure World where
  views : List View
  shares : List Minted
  controlPlane : List CStr

/-- There is nothing. -/
def World.empty : World := ⟨[], [], []⟩

/-- A view has become another. -/
def World.put (w : World) (k : Nat) (r : View) : World := { w with views := w.views.set k r }

/-- There may be another view. -/
def World.join (w : World) (r : Option View) : World := { w with views := w.views ++ r.toList }

/-- What a call does, for a view that there is. -/
def World.act (w : World) (k : Nat) (r : View) : Call → World
  | .grant src mount rights flags =>
    let (rc, r') := r.grant src mount rights flags
    { w.put k r' with
      controlPlane := if rc = 0 ∧ flags &&& hostCp ≠ 0 then src :: w.controlPlane else w.controlPlane }
  | .revoke mount => w.put k (r.revoke mount).2
  | .fork mem => w.join (r.fork mem)
  | .exec => w.put k r.exec.2
  | .rebase base => w.put k (r.rebase base).2
  | .share mount mem => { w with shares := w.shares ++ ((r.share mount mem).map (Minted.mk · r)).toList }
  | .adopt h mount =>
    match w.shares[h]? with
    | none => w
    | some m => w.put k (r.adopt m.share mount).2

/-- What is done. -/
def World.next (w : World) : Op → World
  | .create name rootClass mem => w.join (create name rootClass mem)
  | .call k c =>
    match w.views[k]? with
    | none => w
    | some r => w.act k r c

/-- The world after all of it. -/
def run (ops : List Op) : World := ops.foldl World.next .empty

/-! ## What is promised -/

/-- **A flagged grant goes to a view of the host, and no other names what is inside the control plane.** -/
def PromisedCall (R : Reading slash) (cp : List CStr) (r : View) : Call → Prop
  | .grant src mount rights flags => (r.grant src mount rights flags).1 = 0 →
    if flags &&& hostCp ≠ 0 then r.rootClass = host else ∀ s ∈ cp, R.inside s src = false
  | _ => True

/-- **A container is not given what has the control plane inside of it, and adopts nothing that has to do with
it.** -/
def ApartCall (R : Reading slash) (cp : List CStr) (w : World) (r : View) : Call → Prop
  | .grant src mount rights flags => r.rootClass = container → (r.grant src mount rights flags).1 = 0 →
    flags &&& hostCp = 0 → ∀ s ∈ cp, R.inside src s = false
  | .adopt h mount => r.rootClass = container → ∀ m ∈ w.shares[h]?, (r.adopt m.share mount).1 = 0 →
    ∀ s ∈ cp, R.inside s m.share.src = false ∧ R.inside m.share.src s = false
  | _ => True

/-- A condition on what is called for a view. -/
def Calls (P : World → View → Call → Prop) (w : World) : Op → Prop
  | .create .. => True
  | .call k c => ∀ r ∈ w.views[k]?, P w r c

/-- What is promised of what is done. -/
def Promised (R : Reading slash) (cp : List CStr) : World → Op → Prop := Calls fun _ => PromisedCall R cp

/-- What is kept apart from the containers. -/
def Apart (R : Reading slash) (cp : List CStr) : World → Op → Prop := Calls (ApartCall R cp)

/-- **No container is led into the control plane**, by a path that does not leave the subtree it is led to. -/
def Hidden (R : Reading slash) (cp : List CStr) (w : World) : Prop :=
  ∀ r ∈ w.views, r.rootClass = container → ∀ path g rights p, r.best path = some g →
    r.lookup path true = some (rights, some p) → R.keeps (g.rest path) → ∀ s ∈ cp, R.inside s p = false

/-- The view has the right on the source. -/
def HasRight (R : Reading slash) (r : View) (x : CStr) (i : Nat) : Prop :=
  ∃ g ∈ r.grants, r.hides g = false ∧ R.inside g.src x ∧ g.rights.getLsbD i

/-- The right on the source comes to view `j` with what is done: it is granted, or it is inherited or adopted from
a view that has it, or had it when it was shared. -/
def Comes (R : Reading slash) (w : World) (j : Nat) (x : CStr) (i : Nat) : Op → Prop
  | .call k (.grant src _ rights _) => j = k ∧ R.inside src x ∧ rights.getLsbD i
  | .call k (.fork _) => j = w.views.length ∧ ∃ r ∈ w.views[k]?, HasRight R r x i
  | .call k (.adopt h _) => j = k ∧ ∃ m ∈ w.shares[h]?, HasRight R m.issuer x i
  | _ => False

/-- **Authority does not grow**: the rights of every view are those that it had, and those that come to it. -/
def Contained (R : Reading slash) (w : World) (op : Op) : Prop :=
  ∀ j, ∀ r ∈ (w.next op).views[j]?, ∀ x i, HasRight R r x i →
    (∃ r₀ ∈ w.views[j]?, HasRight R r₀ x i) ∨ Comes R w j x i op

/-! ## Single views -/

variable {R : Reading slash} {cp : List CStr} {w : World} {r r' : View} {k i j : Nat} {x path : CStr} {g : Grant}

/-- The view is no container, or the control plane is out of its reach. -/
def Clear (R : Reading slash) (cp : List CStr) (r : View) : Prop :=
  r.rootClass = container → ∀ g ∈ r.grants, g.flags &&& hostCp = 0 ∧
    ∀ s ∈ cp, R.inside s g.src = false ∧ R.inside g.src s = false

theorem Clear.of_from (h : r'.From r) (hr : Clear R cp r) : Clear R cp r' := by
  intro hc g' hg'
  obtain ⟨g, hg, hsrc, -, hflags⟩ := h.2 g' hg'
  rw [hsrc, hflags]
  exact hr (h.1 ▸ hc) g hg

theorem Clear.append (hclass : r'.rootClass = r.rootClass) (hgrants : r'.grants = r.grants ++ [g])
    (hg : r.rootClass = container → g.flags &&& hostCp = 0 ∧
      ∀ s ∈ cp, R.inside s g.src = false ∧ R.inside g.src s = false)
    (hr : Clear R cp r) : Clear R cp r' := by
  intro hc g' hg'
  rw [hclass] at hc
  rw [hgrants] at hg'
  obtain hg' | hg' := List.mem_append.1 hg'
  · exact hr hc g' hg'
  · obtain rfl := List.mem_singleton.1 hg'
    exact hg hc

/-- **The lookups of a container** end outside the control plane. -/
theorem Clear.lookup (hr : Clear R cp r) (hc : r.rootClass = container) {p : CStr}
    (hbest : r.best path = some g) (hlook : r.lookup path true = some (rights, some p)) (hk : R.keeps (g.rest path)) :
    ∀ s ∈ cp, R.inside s p = false := by
  intro s hs
  obtain ⟨g', hbest', -, rfl⟩ := lookup_spec hlook
  obtain rfl : g = g' := Option.some.inj (hbest.symm.trans hbest')
  obtain ⟨hg, -, hgo⟩ := best_spec hbest
  obtain ⟨hin, hout⟩ := (hr hc g hg).2 s hs
  exact R.disjoint hin hout (R.inside_append g.src_ne hgo hk)

/-- The view can use all of its grants. -/
def Usable (r : View) : Prop := ∀ g ∈ r.grants, r.hides g = false

theorem Usable.of_from (h : r'.From r) (hr : Usable r) : Usable r' := by
  intro g' hg'
  obtain ⟨g, hg, -, -, hflags⟩ := h.2 g' hg'
  rw [View.hides, h.1, hflags]
  exact hr g hg

theorem Usable.append (hclass : r'.rootClass = r.rootClass) (hgrants : r'.grants = r.grants ++ [g])
    (hg : r.hides g = false) (hr : Usable r) : Usable r' := by
  intro g' hg'
  rw [hgrants] at hg'
  rw [View.hides, hclass]
  obtain hg' | hg' := List.mem_append.1 hg'
  · exact hr g' hg'
  · obtain rfl := List.mem_singleton.1 hg'
    exact hg

theorem hides_unflagged (r : View) (h : g.flags &&& hostCp = 0) : r.hides g = false := by
  rw [View.hides, h]
  exact Bool.and_false _

theorem HasRight.of_from (h : r'.From r) (hr : HasRight R r' x i) : HasRight R r x i := by
  obtain ⟨g', hg', hsee, hin, hi⟩ := hr
  obtain ⟨g, hg, hsrc, hrights, hflags⟩ := h.2 g' hg'
  refine ⟨g, hg, ?_, hsrc ▸ hin, hrights ▸ hi⟩
  rw [← hsee, View.hides, View.hides, h.1, hflags]

theorem HasRight.append (hclass : r'.rootClass = r.rootClass) (hgrants : r'.grants = r.grants ++ [g])
    (hr : HasRight R r' x i) : HasRight R r x i ∨ R.inside g.src x ∧ g.rights.getLsbD i := by
  obtain ⟨g', hg', hsee, hin, hi⟩ := hr
  rw [hgrants] at hg'
  obtain hg' | hg' := List.mem_append.1 hg'
  · refine .inl ⟨g', hg', ?_, hin, hi⟩
    rw [← hsee, View.hides, View.hides, hclass]
  · obtain rfl := List.mem_singleton.1 hg'
    exact .inr ⟨hin, hi⟩

/-! ## Steps -/

/-- The control plane is out of reach of the containers. -/
def Sealed (R : Reading slash) (cp : List CStr) (w : World) : Prop := ∀ r ∈ w.views, Clear R cp r

theorem Sealed.hidden (hs : Sealed R cp w) : Hidden R cp w :=
  fun r hr hc _ _ _ _ hbest hlook hk => (hs r hr).lookup hc hbest hlook hk

/-- A view has changed, or there is another: what holds of all views still does if it holds of that one. -/
theorem forall_put {P : View → Prop} (hs : ∀ r ∈ w.views, P r) (k : Nat) (hr : P r) : ∀ r' ∈ (w.put k r).views, P r' :=
  fun r' hr' => (List.mem_or_eq_of_mem_set hr').elim (hs r') fun h => h ▸ hr

theorem forall_join {P : View → Prop} (hs : ∀ r ∈ w.views, P r) {o : Option View} (ho : ∀ r ∈ o, P r) :
    ∀ r ∈ (w.join o).views, P r :=
  fun r hr => (List.mem_append.1 hr).elim (hs r) fun h => ho r (Option.mem_toList.1 h)

/-- **What a call keeps.** -/
theorem Sealed.act (hs : Sealed R cp w) (hr : Clear R cp r) (k : Nat) {c : Call} (hp : PromisedCall R cp r c)
    (ha : ApartCall R cp w r c) : Sealed R cp (w.act k r c) := by
  cases c with
  | grant src mount rights flags =>
    suffices Clear R cp (r.grant src mount rights flags).2 from forall_put hs k this
    obtain heq | ⟨hok, g, ⟨hsrc, -, hflags⟩, -, hclass, hgrants⟩ := grant_spec r src mount rights flags
    · rwa [heq]
    · refine .append hclass hgrants (fun hc => ?_) hr
      have hplain : flags &&& hostCp = 0 := by
        by_contra hf
        have := hp hok
        rw [if_pos hf, hc] at this
        exact absurd this (by decide)
      have hin := hp hok
      rw [if_neg (not_not.2 hplain)] at hin
      rw [hsrc, hflags]
      exact ⟨hplain, fun s hs' => ⟨hin s hs', ha hc hok hplain s hs'⟩⟩
  | revoke mount => exact forall_put hs k (hr.of_from (revoke_from r mount))
  | fork mem => exact forall_join hs fun c hc => hr.of_from (fork_from hc)
  | exec => exact forall_put hs k (hr.of_from (exec_from r))
  | rebase base => exact forall_put hs k (hr.of_from (rebase_from r base))
  | share mount mem => exact hs
  | adopt h mount =>
    unfold World.act
    dsimp only
    split
    · exact hs
    · rename_i m hm
      obtain heq | ⟨hok, g, ⟨hsrc, -, hflags⟩, -, hclass, hgrants⟩ := adopt_spec r m.share mount
      · exact forall_put hs k (heq.symm ▸ hr)
      · refine forall_put hs k (.append hclass hgrants (fun hc => ?_) hr)
        rw [hsrc, hflags]
        exact ⟨rfl, ha hc m hm hok⟩

theorem Sealed.next (hs : Sealed R cp w) {op : Op} (hp : Promised R cp w op) (ha : Apart R cp w op) :
    Sealed R cp (w.next op) := by
  cases op with
  | create name rootClass mem =>
    refine forall_join hs fun r hr _ g hg => ?_
    rw [(create_spec hr).2] at hg
    cases hg
  | call k c =>
    unfold World.next
    dsimp only
    split
    · exact hs
    · rename_i r hr
      exact hs.act (hs r (List.mem_of_getElem? hr)) k (hp r hr) (ha r hr)

/-- Every view can use all of its grants, and every handle is for a grant that its issuer could use. -/
structure Used (w : World) : Prop where
  views : ∀ r ∈ w.views, Usable r
  minted : ∀ m ∈ w.shares, ∃ g ∈ m.issuer.grants, m.issuer.hides g = false ∧ g.src = m.share.src ∧
    g.rights = m.share.rights

/-- A flagged grant goes to a view of the host, which can use it. -/
theorem Used.act (hu : Used w) (hr : Usable r) (k : Nat) {c : Call} (hp : PromisedCall R cp r c) :
    Used (w.act k r c) := by
  cases c with
  | grant src mount rights flags =>
    suffices Usable (r.grant src mount rights flags).2 from ⟨forall_put hu.views k this, hu.minted⟩
    obtain heq | ⟨hok, g, ⟨-, -, hflags⟩, -, hclass, hgrants⟩ := grant_spec r src mount rights flags
    · rwa [heq]
    · refine .append hclass hgrants ?_ hr
      by_cases hf : flags &&& hostCp = 0
      · exact hides_unflagged r (hflags ▸ hf)
      · have hhost := hp hok
        rw [if_pos hf] at hhost
        rw [View.hides, hhost]
        rfl
  | revoke mount => exact ⟨forall_put hu.views k (hr.of_from (revoke_from r mount)), hu.minted⟩
  | fork mem => exact ⟨forall_join hu.views fun c hc => hr.of_from (fork_from hc), hu.minted⟩
  | exec => exact ⟨forall_put hu.views k (hr.of_from (exec_from r)), hu.minted⟩
  | rebase base => exact ⟨forall_put hu.views k (hr.of_from (rebase_from r base)), hu.minted⟩
  | share mount mem =>
    refine ⟨hu.views, fun m hm => ?_⟩
    obtain hm | hm := List.mem_append.1 hm
    · exact hu.minted m hm
    · obtain ⟨sh, hsh, rfl⟩ := Option.map_eq_some_iff.1 (Option.mem_toList.1 hm)
      obtain ⟨g, hg, hsrc, hrights⟩ := share_spec hsh
      exact ⟨g, hg, hr g hg, hsrc, hrights⟩
  | adopt h mount =>
    unfold World.act
    dsimp only
    split
    · exact hu
    · rename_i m hm
      refine ⟨forall_put hu.views k ?_, hu.minted⟩
      obtain heq | ⟨-, g, ⟨-, -, hflags⟩, -, hclass, hgrants⟩ := adopt_spec r m.share mount
      · exact heq.symm ▸ hr
      · exact .append hclass hgrants (hides_unflagged r (by rw [hflags]; rfl)) hr

theorem Used.next (hu : Used w) {op : Op} (hp : Promised R cp w op) : Used (w.next op) := by
  cases op with
  | create name rootClass mem =>
    refine ⟨forall_join hu.views fun r hr g hg => ?_, hu.minted⟩
    rw [(create_spec hr).2] at hg
    cases hg
  | call k c =>
    unfold World.next
    dsimp only
    split
    · exact hu
    · rename_i r hr
      exact hu.act (hu.views r (List.mem_of_getElem? hr)) k (hp r hr)

/-! ## Where rights come from -/

/-- Only the view that a call is for has changed, and what it has it had, or it comes with the call. -/
theorem rights_put (hk : w.views[k]? = some r) {C : Prop} (h : HasRight R r' x i → HasRight R r x i ∨ C)
    {r1 : View} (hr1 : r1 ∈ (w.put k r').views[j]?) (hx : HasRight R r1 x i) :
    (∃ r0 ∈ w.views[j]?, HasRight R r0 x i) ∨ j = k ∧ C := by
  by_cases hj : k = j
  · subst hj
    obtain rfl : r' = r1 := by
      rw [World.put, List.getElem?_set_self (List.getElem?_eq_some_iff.1 hk).1] at hr1
      exact Option.some.inj hr1
    exact (h hx).imp (fun h => ⟨r, hk, h⟩) fun h => ⟨rfl, h⟩
  · rw [World.put, List.getElem?_set_ne hj] at hr1
    exact .inl ⟨r1, hr1, hx⟩

theorem rights_from (hk : w.views[k]? = some r) (h : r'.From r) {r1 : View} (hr1 : r1 ∈ (w.put k r').views[j]?)
    (hx : HasRight R r1 x i) : (∃ r0 ∈ w.views[j]?, HasRight R r0 x i) ∨ False :=
  (rights_put hk (fun h' => .inl (h'.of_from h)) hr1 hx).imp_right And.right

theorem rights_join {o : Option View} {r1 : View} (hr1 : r1 ∈ (w.join o).views[j]?) (hx : HasRight R r1 x i) :
    (∃ r0 ∈ w.views[j]?, HasRight R r0 x i) ∨ j = w.views.length ∧ r1 ∈ o := by
  obtain hj | hj := Nat.lt_or_ge j w.views.length
  · rw [World.join, List.getElem?_append_left hj] at hr1
    exact .inl ⟨r1, hr1, hx⟩
  · rw [World.join, List.getElem?_append_right hj] at hr1
    cases o with
    | none => cases hr1
    | some r2 =>
      obtain ⟨hlt, heq⟩ := List.getElem?_eq_some_iff.1 hr1
      have hlt' : j - w.views.length < 1 := hlt
      obtain rfl : r2 = r1 := by simpa using heq
      exact .inr ⟨by omega, rfl⟩

/-- **Where the rights of the views come from.** -/
theorem Used.contained (hu : Used w) (op : Op) : Contained R w op := by
  intro j r1 hr1 x i hx
  cases op with
  | create name rootClass mem =>
    refine (rights_join hr1 hx).imp_right fun ⟨_, hc⟩ => ?_
    obtain ⟨g, hg, -⟩ := hx
    rw [(create_spec hc).2] at hg
    cases hg
  | call k c =>
    unfold World.next at hr1
    dsimp only at hr1
    split at hr1
    · exact .inl ⟨r1, hr1, hx⟩
    · rename_i r hk
      cases c with
      | grant src mount rights flags =>
        have hr1 : r1 ∈ (w.put k (r.grant src mount rights flags).2).views[j]? := hr1
        refine rights_put hk (fun h => ?_) hr1 hx
        obtain heq | ⟨-, g, ⟨hsrc, hrights, -⟩, -, hclass, hgrants⟩ := grant_spec r src mount rights flags
        · exact .inl (heq ▸ h)
        · rw [← hsrc, ← hrights]
          exact h.append hclass hgrants
      | revoke mount => exact rights_from hk (revoke_from r mount) hr1 hx
      | fork mem =>
        refine (rights_join hr1 hx).imp_right fun ⟨hj, hc⟩ => ⟨hj, r, hk, ?_⟩
        exact hx.of_from (fork_from hc)
      | exec => exact rights_from hk (exec_from r) hr1 hx
      | rebase base => exact rights_from hk (rebase_from r base) hr1 hx
      | share mount mem => exact .inl ⟨r1, hr1, hx⟩
      | adopt h mount =>
        unfold World.act at hr1
        dsimp only at hr1
        split at hr1
        · exact .inl ⟨r1, hr1, hx⟩
        · rename_i m hm
          refine rights_put hk (fun h' => ?_) hr1 hx
          obtain heq | ⟨-, g, ⟨hsrc, hrights, -⟩, -, hclass, hgrants⟩ := adopt_spec r m.share mount
          · exact .inl (heq ▸ h')
          · refine (h'.append hclass hgrants).imp_right fun ⟨hin, hi⟩ => ⟨m, hm, ?_⟩
            obtain ⟨g0, hg0, hsee, hsrc0, hrights0⟩ := hu.minted m (List.mem_of_getElem? hm)
            exact ⟨g0, hg0, hsee, by rwa [hsrc0, ← hsrc], by rwa [hrights0, ← hrights]⟩

/-! ## Runs -/

/-- **No authority grows**, if flagged grants are made to views of the host only. -/
theorem authority_contained (R : Reading slash) (cp : List CStr) (ops : List Op)
    (h : Each World.next (Promised R cp) .empty ops) : Each World.next (Contained R) .empty ops := by
  have hempty : Used .empty := ⟨fun _ h => absurd h List.not_mem_nil, fun _ h => absurd h List.not_mem_nil⟩
  exact h.steps _ (fun _ _ hu hp => hu.next hp) (fun _ op hu _ => hu.contained op) _ _ hempty

/-- **No authority grows, and no container is ever led into the control plane**, the latter if no container is
given what has it inside, or adopts what has to do with it. -/
theorem control_plane_hidden (R : Reading slash) (ops : List Op)
    (h : Each World.next (Promised R (run ops).controlPlane) .empty ops) :
    Each World.next (Contained R) .empty ops ∧
      (Each World.next (Apart R (run ops).controlPlane) .empty ops →
        Each World.next (fun w _ => Hidden R (run ops).controlPlane w) .empty ops ∧
          Hidden R (run ops).controlPlane (run ops)) := by
  refine ⟨authority_contained R _ ops h, fun hapart => ?_⟩
  have hboth := each_and.2 ⟨h, hapart⟩
  have hempty : Sealed R (run ops).controlPlane .empty := fun _ h => absurd h List.not_mem_nil
  have hstep : ∀ (w : World) (op : Op), Sealed R (run ops).controlPlane w →
      Promised R (run ops).controlPlane w op ∧ Apart R (run ops).controlPlane w op →
      Sealed R (run ops).controlPlane (w.next op) := fun _ _ hs hpa => hs.next hpa.1 hpa.2
  exact ⟨hboth.steps _ hstep (fun _ _ hs _ => hs.hidden) _ _ hempty,
    (hboth.invariant _ hstep _ _ hempty).hidden⟩

instance (R : Reading slash) (cp : List CStr) (r : View) : DecidablePred (PromisedCall R cp r)
  | .grant src mount rights flags => inferInstanceAs (Decidable ((r.grant src mount rights flags).1 = 0 →
      if flags &&& hostCp ≠ 0 then r.rootClass = host else ∀ s ∈ cp, R.inside s src = false))
  | .revoke .. | .fork .. | .exec | .rebase .. | .share .. | .adopt .. => isTrue trivial

instance (R : Reading slash) (cp : List CStr) (w : World) (r : View) : DecidablePred (ApartCall R cp w r)
  | .grant .. => inferInstanceAs (Decidable (_ → _ → _ → ∀ s ∈ cp, _))
  | .adopt .. => inferInstanceAs (Decidable (_ → ∀ m ∈ _, _ → ∀ s ∈ cp, _ ∧ _))
  | .revoke .. | .fork .. | .exec | .rebase .. | .share .. => isTrue trivial

instance (P : World → View → Call → Prop) [∀ w r, DecidablePred (P w r)] (w : World) : DecidablePred (Calls P w)
  | .create .. => isTrue trivial
  | .call k c => inferInstanceAs (Decidable (∀ r ∈ w.views[k]?, P w r c))

instance (R : Reading slash) (cp : List CStr) (w : World) : DecidablePred (Promised R cp w) :=
  inferInstanceAs (DecidablePred (Calls _ w))

instance (R : Reading slash) (cp : List CStr) (w : World) : DecidablePred (Apart R cp w) :=
  inferInstanceAs (DecidablePred (Calls _ w))

/-- A host with its control plane, and a container. -/
def hostAndBox : List Op :=
  [.create (text "host") host true, .create (text "box") container true,
    .call 0 (.grant (text "/host/control") (text "/n/hostctl") 3 hostCp)]

/-- The container adopts a store that the host shares with it, and is forked. -/
def sharedStore : List Op :=
  hostAndBox ++ [.call 0 (.grant (text "/store") (text "/n/store") 3 ephemeral),
    .call 0 (.share (text "/n/store") true), .call 1 (.adopt 0 (text "/dev")), .call 1 (.rebase (text "/n")),
    .call 1 (.fork true), .call 0 .exec]

theorem control_plane_hidden_sharedStore : Each World.next (Contained .written) .empty sharedStore ∧
    Each World.next (fun w _ => Hidden .written (run sharedStore).controlPlane w) .empty sharedStore ∧
      Hidden .written (run sharedStore).controlPlane (run sharedStore) :=
  have h := control_plane_hidden .written sharedStore (by decide)
  ⟨h.1, h.2 (by decide)⟩

/-- A container is led into the control plane. -/
def shows (R : Reading slash) (cp : List CStr) (path : CStr) (r : View) : Bool :=
  r.rootClass == container &&
    match r.lookup path true with
    | some (_, some p) => cp.any fun s => R.inside s p
    | _ => false

/-- The container is given what has the control plane inside of it. -/
def givenAbove : List Op := hostAndBox ++ [.call 1 (.grant (text "/host") (text "/n/host") 1 0)]

/-- The container adopts the control plane. -/
def adopted : List Op := hostAndBox ++ [.call 0 (.share (text "/n/hostctl") true), .call 1 (.adopt 0 (text "/n/ctl"))]

/-- The container is given a store, next to which there is the control plane. -/
def givenNext : List Op := hostAndBox ++ [.call 1 (.grant (text "/store") (text "/n/store") 1 0)]

/-- **What was promised is not enough**: the control plane is inside of what the container is given, or it is
adopted, or it is where a path with `".."` leads. -/
theorem control_plane_shown : (Each World.next (Promised .written (run givenAbove).controlPlane) .empty givenAbove ∧
      (run givenAbove).views.any (shows .written (run givenAbove).controlPlane (text "/n/host/control"))) ∧
    (Each World.next (Promised .written (run adopted).controlPlane) .empty adopted ∧
      (run adopted).views.any (shows .written (run adopted).controlPlane (text "/n/ctl"))) ∧
    Each World.next (Promised resolved (run givenNext).controlPlane) .empty givenNext ∧
      (run givenNext).views.any (shows resolved (run givenNext).controlPlane (text "/n/store/../host/control")) := by
  decide

end WuBuOS.NsRoot
