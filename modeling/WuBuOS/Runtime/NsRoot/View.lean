import WuBuOS.Lib.Subtree
import WuBuOS.Runtime.Styx.Below

/-!
# What a process sees of the name space

`runtime/wubu_ns_root.c`.  A view is a table of grants, and each of them puts the subtree below a source at a
path of `/n`.  Where a path leads is decided by the grant at the longest prefix of it.  A view of the class
of containers passes over the grants of the control plane of the host.

For each call there is one lemma that says all it can do to the table (`grant_spec`, `fork_from`, `adopt_spec`), and
`lookup_spec` says where a path leads: to the source of a grant that the view can see, with its rights, and on from
there along the rest of the path.
-/

namespace WuBuOS.NsRoot

open Styx (CStr slash)

/-! ## Views -/

/-- `WUBU_NS_ROOT_MAX_GRANTS`. -/
abbrev maxGrants : Nat := 32

/-- `WUBU_NS_ROOT_MAX_PATH`. -/
abbrev maxPath : Nat := 512

/-- `WUBU_NS_ROOT_MAX_NAME`. -/
abbrev maxName : Nat := 64

/-- `WUBU_NS_ROOT_HOST`. -/
def host : Int := 0

/-- `WUBU_NS_ROOT_CONTAINER`. -/
def container : Int := 1

/-- `WUBU_NS_GRANT_HOST_CP`. -/
def hostCp : BitVec 32 := 1

/-- `WUBU_NS_GRANT_EPHEMERAL`. -/
def ephemeral : BitVec 32 := 2

/-- `struct ns_grant`, if it is used. -/
structure Grant where
  src : CStr
  mount : CStr
  rights : BitVec 64
  flags : BitVec 32
  src_ne : src ≠ []
  mount_ne : mount ≠ []
  src_lt : src.length < maxPath
  mount_lt : mount.length < maxPath
  deriving DecidableEq

/-- `wubu_ns_root_t`: the grants that are used are those at the front of the table. -/
structure View where
  name : CStr
  rootClass : Int
  grants : List Grant
  name_lt : name.length < maxName
  class_nonneg : 0 ≤ rootClass
  grants_le : grants.length ≤ maxGrants
  deriving DecidableEq

/-- `WUBU_NS_SHARE_MAGIC`. -/
def shareMagic : BitVec 64 := 0x5348415245313231

/-- `wubu_ns_share_t`.  Who minted it is written down as well, and never read. -/
structure Share where
  src : CStr
  rights : BitVec 64
  magic : BitVec 64
  deriving DecidableEq

/-- `wubu_ns_root_create`; `mem` says whether there is memory for a view. -/
def create (name : CStr) (rootClass : Int) (mem : Bool) : Option View :=
  if h : 0 ≤ rootClass then
    if mem then
      some ⟨name.take (maxName - 1), rootClass, [], (List.length_take_le _ _).trans_lt (by decide), h, by decide⟩
    else none
  else none

/-! ## The table of grants -/

/-- Something is put at the path already. -/
def View.taken (r : View) (mount : CStr) : Bool := r.grants.any (·.mount == mount)

/-- `wubu_ns_root_grant`. -/
def View.grant (r : View) (src mount : CStr) (rights : BitVec 64) (flags : BitVec 32) : Int × View :=
  if h : src ≠ [] ∧ mount ≠ [] then
    if r.taken mount then (-2, r)
    else if hn : r.grants.length < maxGrants then
      if hs : src.length < maxPath then
        if hm : mount.length < maxPath then
          let g : Grant := ⟨src, mount, rights, flags, h.1, h.2, hs, hm⟩
          (0, { r with grants := r.grants ++ [g], grants_le := by simpa using Nat.succ_le_of_lt hn })
        else (-1, r)
      else (-1, r)
    else (-3, r)
  else (-1, r)

/-- The view with some of its grants. -/
def View.withGrants (r : View) (l : List Grant) (h : l.length ≤ r.grants.length) : View :=
  { r with grants := l, grants_le := h.trans r.grants_le }

/-- `wubu_ns_root_revoke`. -/
def View.revoke (r : View) (mount : CStr) : Int × View :=
  if r.taken mount then
    (0, r.withGrants (r.grants.eraseP (·.mount == mount)) (List.eraseP_sublist.length_le))
  else (-1, r)

/-- `wubu_ns_root_exec`: how many were dropped. -/
def View.exec (r : View) : Int × View :=
  let kept := r.grants.filter fun g => g.flags &&& ephemeral == 0
  (r.grants.length - kept.length, r.withGrants kept (List.length_filter_le _ _))

/-- The loop of `wubu_ns_root_rebase`, which stops at the first path that becomes too long. -/
def rebaseGrants (base : CStr) : List Grant → Bool × List Grant
  | [] => (true, [])
  | g :: l =>
    if h : base.length + g.mount.length < maxPath then
      let g' : Grant := { g with
        mount := base ++ g.mount
        mount_ne := List.append_ne_nil_of_right_ne_nil base g.mount_ne
        mount_lt := by simpa using h }
      ((rebaseGrants base l).1, g' :: (rebaseGrants base l).2)
    else (false, g :: l)

theorem length_rebaseGrants (base : CStr) (l : List Grant) : (rebaseGrants base l).2.length = l.length := by
  induction l with
  | nil => rfl
  | cons g l ih =>
    rw [rebaseGrants]
    split
    · rw [List.length_cons, List.length_cons, ih]
    · rfl

/-- `wubu_ns_root_rebase`. -/
def View.rebase (r : View) (base : CStr) : Int × View :=
  if base = [] then (-1, r)
  else
    (if (rebaseGrants base r.grants).1 then 0 else -1,
      r.withGrants (rebaseGrants base r.grants).2 (length_rebaseGrants base _).le)

/-! ## From one view to another -/

/-- The loop of `wubu_ns_root_fork`. -/
def forkGrants (c : View) : List Grant → Option View
  | [] => some c
  | g :: l =>
    let (rc, c) := c.grant g.src g.mount g.rights g.flags
    if rc = 0 then forkGrants c l else none

/-- `wubu_ns_root_fork`. -/
def View.fork (parent : View) (mem : Bool) : Option View :=
  let n := if parent.name.length + 2 ≥ maxName then maxName - 3 else parent.name.length
  (create (parent.name.take n ++ Styx.text "~f") parent.rootClass mem).bind fun c => forkGrants c parent.grants

/-- `wubu_ns_root_share`; `mem` says whether there is memory for a handle. -/
def View.share (r : View) (mount : CStr) (mem : Bool) : Option Share :=
  match r.grants.find? (·.mount == mount) with
  | some g => if mem then some ⟨g.src, g.rights, shareMagic⟩ else none
  | none => none

/-- `wubu_ns_root_adopt`. -/
def View.adopt (r : View) (sh : Share) (mount : CStr) : Int × View :=
  if sh.magic ≠ shareMagic ∨ sh.src = [] then (-2, r)
  else r.grant sh.src mount sh.rights 0

/-! ## Looking a path up -/

def prefixMatch (mount path : CStr) : Nat :=
  if mount.isPrefixOf path then
    match path.drop mount.length with
    | [] => mount.length
    | c :: _ => if c = slash then mount.length else 0
  else 0

/-- A container does not see the control plane. -/
def View.hides (r : View) (g : Grant) : Bool := r.rootClass == container && g.flags &&& hostCp != 0

/-- One turn of the loop of `wubu_ns_root_lookup`: the best grant so far, and how much of the path it matches. -/
def View.better (r : View) (path : CStr) (best : Option Grant × Nat) (g : Grant) : Option Grant × Nat :=
  if r.hides g then best
  else
    let m := prefixMatch g.mount path
    if m > best.2 then (some g, m) else best

/-- The grant that decides about the path. -/
def View.best (r : View) (path : CStr) : Option Grant := (r.grants.foldl (r.better path) (none, 0)).1

/-- What there is of the path behind where the grant is. -/
def Grant.rest (g : Grant) (path : CStr) : CStr := path.drop g.mount.length

/-- `wubu_ns_root_lookup`: the rights, and the path of the source if there is a buffer for it. -/
def View.lookup (r : View) (path : CStr) (srcOut : Bool) : Option (BitVec 64 × Option CStr) :=
  match r.best path with
  | none => none
  | some g =>
    if srcOut then
      if g.src.length + (g.rest path).length ≥ maxPath then none
      else some (g.rights, some (g.src ++ g.rest path))
    else some (g.rights, none)

/-! ## What the calls do -/

variable {r r' : View} {src mount path base : CStr} {rights : BitVec 64} {flags : BitVec 32} {g : Grant} {sh : Share}
  {mem : Bool}

/-- What a grant carries. -/
def Grant.Carries (g : Grant) (src : CStr) (rights : BitVec 64) (flags : BitVec 32) : Prop :=
  g.src = src ∧ g.rights = rights ∧ g.flags = flags

/-- **`wubu_ns_root_grant`** adds what it was told to, or does nothing. -/
theorem grant_spec (r : View) (src mount : CStr) (rights : BitVec 64) (flags : BitVec 32) :
    (r.grant src mount rights flags).2 = r ∨
      (r.grant src mount rights flags).1 = 0 ∧ ∃ g : Grant, g.Carries src rights flags ∧ g.mount = mount ∧
        (r.grant src mount rights flags).2.rootClass = r.rootClass ∧
        (r.grant src mount rights flags).2.grants = r.grants ++ [g] := by
  unfold View.grant
  split_ifs with h ht hn hs hm
  · exact .inl rfl
  · exact .inr ⟨rfl, ⟨src, mount, rights, flags, h.1, h.2, hs, hm⟩, ⟨rfl, rfl, rfl⟩, rfl, rfl, rfl⟩
  all_goals exact .inl rfl

/-- Every grant of the view carries what one of the other does. -/
def View.From (r' r : View) : Prop :=
  r'.rootClass = r.rootClass ∧ ∀ g' ∈ r'.grants, ∃ g ∈ r.grants, g'.Carries g.src g.rights g.flags

theorem View.From.refl (r : View) : r.From r := ⟨rfl, fun g hg => ⟨g, hg, rfl, rfl, rfl⟩⟩

theorem View.From.of_subset (hclass : r'.rootClass = r.rootClass) (h : r'.grants ⊆ r.grants) : r'.From r :=
  ⟨hclass, fun g hg => ⟨g, h hg, rfl, rfl, rfl⟩⟩

theorem revoke_from (r : View) (mount : CStr) : (r.revoke mount).2.From r := by
  unfold View.revoke
  split
  · exact .of_subset rfl List.eraseP_subset
  · exact .refl r

theorem exec_from (r : View) : r.exec.2.From r := .of_subset rfl (List.filter_subset_self _)

theorem carries_rebaseGrants (base : CStr) {l : List Grant} {g' : Grant} (h : g' ∈ (rebaseGrants base l).2) :
    ∃ g ∈ l, g'.Carries g.src g.rights g.flags := by
  induction l with
  | nil => cases h
  | cons g l ih =>
    rw [rebaseGrants] at h
    split at h
    · obtain rfl | h := List.mem_cons.1 h
      · exact ⟨g, List.mem_cons_self, rfl, rfl, rfl⟩
      · obtain ⟨g0, hg0, hc⟩ := ih h
        exact ⟨g0, List.mem_cons_of_mem g hg0, hc⟩
    · exact ⟨g', h, rfl, rfl, rfl⟩

theorem rebase_from (r : View) (base : CStr) : (r.rebase base).2.From r := by
  unfold View.rebase
  split
  · exact .refl r
  · exact ⟨rfl, fun _ => carries_rebaseGrants base⟩

theorem forkGrants_spec {l : List Grant} {c c' : View} (h : forkGrants c l = some c') : c'.rootClass = c.rootClass ∧
      ∀ g' ∈ c'.grants, g' ∈ c.grants ∨ ∃ g ∈ l, g'.Carries g.src g.rights g.flags := by
  induction l generalizing c with
  | nil =>
    obtain rfl : c = c' := Option.some.inj h
    exact ⟨rfl, fun _ => .inl⟩
  | cons g l ih =>
    rw [forkGrants] at h
    dsimp only at h
    split at h
    · obtain ⟨hclass, hall⟩ := ih h
      obtain heq | ⟨-, g0, hc, -, hclass0, hgrants⟩ := grant_spec c g.src g.mount g.rights g.flags
      · rw [heq] at hclass hall
        exact ⟨hclass, fun g' hg' => (hall g' hg').imp_right fun ⟨g1, hg1, h1⟩ =>
          ⟨g1, List.mem_cons_of_mem g hg1, h1⟩⟩
      · refine ⟨hclass.trans hclass0, fun g' hg' => ?_⟩
        obtain hg' | ⟨g1, hg1, h1⟩ := hall g' hg'
        · rw [hgrants] at hg'
          obtain hg' | hg' := List.mem_append.1 hg'
          · exact .inl hg'
          · obtain rfl := List.mem_singleton.1 hg'
            exact .inr ⟨g, List.mem_cons_self, hc⟩
        · exact .inr ⟨g1, List.mem_cons_of_mem g hg1, h1⟩
    · cases h

theorem create_spec {name : CStr} {rootClass : Int} (h : create name rootClass mem = some r) :
    r.rootClass = rootClass ∧ r.grants = [] := by
  unfold create at h
  split_ifs at h
  cases h
  exact ⟨rfl, rfl⟩

/-- **`wubu_ns_root_fork`** copies, and adds nothing. -/
theorem fork_from (h : r.fork mem = some r') : r'.From r := by
  obtain ⟨c, hc, h⟩ := Option.bind_eq_some_iff.1 h
  obtain ⟨hclass, hnone⟩ := create_spec hc
  obtain ⟨hclass', hall⟩ := forkGrants_spec h
  refine ⟨hclass'.trans hclass, fun g' hg' => (hall g' hg').resolve_left fun hmem => ?_⟩
  rw [hnone] at hmem
  cases hmem

theorem share_spec (h : r.share mount mem = some sh) : ∃ g ∈ r.grants, g.src = sh.src ∧ g.rights = sh.rights := by
  unfold View.share at h
  split at h
  · rename_i g hg
    split at h
    · cases h
      exact ⟨g, List.mem_of_find?_eq_some hg, rfl, rfl⟩
    · cases h
  · cases h

/-- **`wubu_ns_root_adopt`** grants what the handle says, without a flag, or does nothing. -/
theorem adopt_spec (r : View) (sh : Share) (mount : CStr) : (r.adopt sh mount).2 = r ∨
      (r.adopt sh mount).1 = 0 ∧ ∃ g : Grant, g.Carries sh.src sh.rights 0 ∧ g.mount = mount ∧
        (r.adopt sh mount).2.rootClass = r.rootClass ∧ (r.adopt sh mount).2.grants = r.grants ++ [g] := by
  unfold View.adopt
  split
  · exact .inl rfl
  · exact grant_spec r sh.src mount sh.rights 0

/-! ## What a lookup finds -/

theorem goesOn_of_prefixMatch (h : 0 < prefixMatch mount path) : Subtree.GoesOn slash (path.drop mount.length) := by
  unfold prefixMatch at h
  split at h
  · split at h
    · rename_i hrest
      exact .inl hrest
    · rename_i c rest hrest
      split at h
      · rename_i hc
        exact .inr (by rw [hrest, List.head?_cons, hc])
      · exact absurd h (Nat.lt_irrefl 0)
  · exact absurd h (Nat.lt_irrefl 0)

theorem best_spec (h : r.best path = some g) :
    g ∈ r.grants ∧ r.hides g = false ∧ Subtree.GoesOn slash (g.rest path) := by
  have hfold : ∀ (l : List Grant) (b : Option Grant × Nat), (l.foldl (r.better path) b).1 = some g →
      b.1 = some g ∨ g ∈ l ∧ r.hides g = false ∧ Subtree.GoesOn slash (g.rest path) := by
    intro l
    induction l with
    | nil => exact fun b h => .inl h
    | cons g0 l ih =>
      intro b h
      obtain hb | ⟨hmem, hg⟩ := ih _ h
      · unfold View.better at hb
        split_ifs at hb with hhide
        · exact .inl hb
        · dsimp only at hb
          split at hb
          · rename_i hm
            obtain rfl : g0 = g := Option.some.inj hb
            exact .inr ⟨List.mem_cons_self, Bool.eq_false_iff.2 hhide, goesOn_of_prefixMatch (Nat.zero_lt_of_lt hm)⟩
          · exact .inl hb
      · exact .inr ⟨List.mem_cons_of_mem g0 hmem, hg⟩
  exact (hfold r.grants (none, 0) h).resolve_left nofun

/-- **`wubu_ns_root_lookup`** goes on from the source of a grant that the view can see. -/
theorem lookup_spec {p : CStr} (h : r.lookup path true = some (rights, some p)) :
    ∃ g, r.best path = some g ∧ g.rights = rights ∧ p = g.src ++ g.rest path := by
  unfold View.lookup at h
  split at h
  · cases h
  · rename_i g hg
    rw [if_pos rfl] at h
    split at h
    · cases h
    · cases h
      exact ⟨g, hg, rfl, rfl⟩

end WuBuOS.NsRoot
