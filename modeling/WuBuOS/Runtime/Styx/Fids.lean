import WuBuOS.Runtime.Styx.Answer
import WuBuOS.Runtime.Styx.Fs
import WuBuOS.Runtime.Styx.Sizes

/-!
# Fids

A slot of the table is in use for a fid, or for none (`tags`).  A message can take one slot, or give one
back, and does nothing else to the table, with the callbacks of the file system or without any.  A walk
without names asks whether the new fid is in use already.  An attach, and a walk that has names, do not, so
a client can have a fid in the table twice, and it is still there when it has been clunked
(`attached_twice`).  As long as no client does that, there is one slot for a fid at most (`fids_unique`).
-/

namespace WuBuOS.Styx

open Bytes Cap Runs
open Function (update update_of_ne update_self)

universe u

variable {W : Type u} {H : Type} {host : Host H} {srv srv' : FsServer H} {i j fid newfid : Nat}

/-! ## The table -/

/-- The fid that a slot is in use for. -/
def Server.tags (srv : Server W) (i : Nat) : Option Nat :=
  if (srv.fids i).inUse then some (srv.fids i).fid else none

/-- **No fid has two slots.** -/
def Server.Unique (srv : Server W) : Prop :=
  ∀ i j fid, i < maxFids → j < maxFids → srv.tags i = some fid → srv.tags j = some fid → i = j

theorem fidLookup_eq_some {s : Server W} (h : fidLookup s fid = some i) : i < maxFids ∧ s.tags i = some fid := by
  have hmem := List.mem_of_find?_eq_some h
  have hp := List.find?_some h
  rw [Bool.and_eq_true, beq_iff_eq] at hp
  refine ⟨List.mem_range.1 hmem, ?_⟩
  rw [Server.tags, if_pos hp.1, hp.2]

theorem fidLookup_eq_none {s : Server W} : fidLookup s fid = none ↔ ∀ i < maxFids, s.tags i ≠ some fid := by
  rw [fidLookup, List.find?_eq_none]
  refine forall_congr' fun i => ?_
  rw [List.mem_range, Server.tags]
  refine imp_congr_right fun _ => ?_
  cases (s.fids i).inUse with
  | false => simp
  | true => simp

theorem fidLookup_congr {s s' : Server W} (h : s'.tags = s.tags) : fidLookup s' fid = fidLookup s fid := by
  have hslot : ∀ i, ((s'.fids i).inUse && (s'.fids i).fid == fid) = ((s.fids i).inUse && (s.fids i).fid == fid) := by
    intro i
    have hi := congrFun h i
    rw [Server.tags, Server.tags] at hi
    cases h1 : (s.fids i).inUse <;> cases h2 : (s'.fids i).inUse <;> simp [h1, h2] at hi ⊢
    rw [hi]
  rw [fidLookup, fidLookup, funext hslot]

theorem tags_setFid (s : Server W) (i : Nat) (f : Fid) :
    (setFid s i f).tags = update s.tags i (if f.inUse then some f.fid else none) := by
  funext j
  show (if (update s.fids i f j).inUse then some (update s.fids i f j).fid else none) = _
  rcases eq_or_ne j i with rfl | hj
  · rw [update_self, update_self]
  · rw [update_of_ne hj, update_of_ne hj]
    rfl

/-- A slot that stays in use for its fid. -/
theorem tags_setFid_same (s : Server W) {f : Fid} (huse : f.inUse = (s.fids i).inUse)
    (hfid : f.fid = (s.fids i).fid) : (setFid s i f).tags = s.tags := by
  rw [tags_setFid, huse, hfid]
  exact Function.update_eq_self i s.tags

theorem fidAlloc_eq_some {s s' : Server W} (h : fidAlloc s fid = some (i, s')) :
    i < maxFids ∧ s.tags i = none ∧ s' = setFid s i ⟨true, fid, 0, 0, 0, ⟨0, 0, 0⟩, 0⟩ ∧
      s'.tags = update s.tags i (some fid) := by
  obtain ⟨k, hk, hres⟩ := Option.map_eq_some_iff.1 h
  cases hres
  have hmem := List.mem_of_find?_eq_some hk
  have hp := List.find?_some hk
  refine ⟨List.mem_range.1 hmem, ?_, rfl, tags_setFid ..⟩
  rw [Server.tags, if_neg]
  simpa using hp

theorem tags_fidFree (s : Server W) (fid : Nat) : (fidLookup s fid = none ∧ (fidFree s fid).tags = s.tags) ∨
      ∃ i, fidLookup s fid = some i ∧ (fidFree s fid).tags = update s.tags i none := by
  rw [fidFree]
  split
  · rename_i hnone
    exact Or.inl ⟨hnone, rfl⟩
  · rename_i i hi
    exact Or.inr ⟨i, hi, tags_setFid ..⟩

/-- **What is kept beside the slots**, when some have been taken. -/
def slotsAfter {α : Type} (s s' : Server W) (new : α) (kept : Nat → α) (i : Nat) : α :=
  if (s.tags i).isNone && (s'.tags i).isSome then new else kept i

theorem slotsAfter_of_isSome {α : Type} {s s' : Server W} {new : α} {kept : Nat → α}
    (h : (s.tags i).isSome) : slotsAfter s s' new kept i = kept i := by
  obtain ⟨fid, hfid⟩ := Option.isSome_iff_exists.1 h
  rw [slotsAfter, hfid]
  rfl

theorem slotsAfter_of_none {α : Type} {s s' : Server W} {new : α} {kept : Nat → α} (h : s.tags i = none)
    (h' : (s'.tags i).isSome) : slotsAfter s s' new kept i = new := by
  rw [slotsAfter, h, h']
  rfl

/-! ## What the callbacks do -/

/-- The server without what the calls of the host change. -/
def Server.core (srv : FsServer H) : FsServer Unit :=
  { srv with world := { srv.world with nextQidPath := 0, errno := 0, host := (), log := [] } }

/-- A part of the server that such a call leaves alone. -/
theorem tags_of_core (h : srv'.core = srv.core) : srv'.tags = srv.tags := by
  funext i
  have hi : srv'.fids = srv.fids := congrArg (fun s : FsServer Unit => s.fids) h
  rw [Server.tags, Server.tags, hi]

@[simp]
theorem core_hostCall (host : Host H) (call : HostCall) (srv : FsServer H) : (hostCall host call srv).2.core = srv.core := rfl

@[simp]
theorem core_nextQidPath (srv : FsServer H) : (nextQidPath srv).2.core = srv.core := rfl

@[simp]
theorem core_reachable (host : Host H) (next : CStr) (srv : FsServer H) : (reachable host next srv).2.core = srv.core := by
  rw [reachable]
  split <;> rfl

@[simp]
theorem core_isDirectory (host : Host H) (next : CStr) (srv : FsServer H) :
    (isDirectory host next srv).2.core = srv.core := by
  rw [isDirectory]
  split <;> rfl

@[simp]
theorem core_walkLoop (host : Host H) (names : List CStr) (cur : CStr) (srv : FsServer H) :
    (walkLoop host names cur srv).2.core = srv.core := by
  induction names generalizing cur srv with
  | nil => rfl
  | cons name names ih =>
    rw [walkLoop]
    have h1 := core_reachable host (buildPath cur name) srv
    generalize reachable host (buildPath cur name) srv = r at h1
    obtain ⟨_ | _, srv1⟩ := r
    · exact h1
    · dsimp only at h1 ⊢
      rw [ih, core_nextQidPath, core_isDirectory, h1]

@[simp]
theorem core_dirPage (offset : Nat) (es : List (CStr × Bool)) (n start room : Nat) (srv : FsServer H) :
    (dirPage host offset es n start room srv).2.core = srv.core := by
  induction es generalizing n start room srv with
  | nil => rfl
  | cons e es ih =>
    rw [dirPage]
    have h1 := core_hostCall host .time srv
    generalize hostCall host .time srv = r at h1
    dsimp only at h1 ⊢
    split
    · exact h1
    split
    · rw [ih, h1]
    split
    · exact h1
    · rw [ih, h1]

/-- **A read** changes nothing but the host. -/
theorem core_styxfsReadCb (fid offset count : Nat) (srv : FsServer H) :
    (styxfsReadCb host fid offset count srv).2.core = srv.core := by
  rw [styxfsReadCb]
  split
  · rfl
  dsimp only
  split
  · rw [core_dirPage, core_hostCall]
  split
  · rfl
  · rfl

theorem core_styxfsWriteCb (fid offset count : Nat) (data : List UInt8) (srv : FsServer H) :
    (styxfsWriteCb host fid offset count data srv).2.core = srv.core := by
  rw [styxfsWriteCb]
  split
  · rfl
  split
  · rfl
  dsimp only
  split
  · rfl
  split <;> rfl

theorem core_styxfsStatCb (fid : Nat) (srv : FsServer H) : (styxfsStatCb host fid srv).2.core = srv.core := by
  rw [styxfsStatCb]
  split <;> rfl

theorem core_chmodHost (host : Host H) (path : CStr) (mode : Nat) (srv : FsServer H) :
    (chmodHost host path mode srv).2.core = srv.core := by
  rw [chmodHost]
  split <;> rfl

theorem core_styxfsWstatCb (fid : Nat) (dir : Dir) (srv : FsServer H) :
    (styxfsWstatCb host fid dir srv).2.core = srv.core := by
  rw [styxfsWstatCb]
  split
  · rfl
  split
  · rfl
  rename_i i _
  dsimp only
  have hchmod := core_chmodHost host (fidHost srv i) dir.mode srv
  generalize chmodHost host (fidHost srv i) dir.mode srv = r at hchmod
  obtain ⟨_ | _, srv1⟩ := r
  · exact hchmod
  · dsimp only
    split
    · exact hchmod
    · exact hchmod

theorem core_createHost (host : Host H) (path : CStr) (perm mode : Nat) (srv : FsServer H) :
    (createHost host path perm mode srv).2.core = srv.core := by
  rw [createHost]
  dsimp only
  split
  · split
    · rfl
    split
    · rfl
    split <;> rfl
  · rfl

@[simp]
theorem fids_strdup (s : CStr) (srv : FsServer H) : (strdup s srv).2.fids = srv.fids := by
  rw [strdup]
  split <;> rfl

@[simp]
theorem fids_capGrant (fid : Nat) (srv : FsServer H) : (capGrant fid srv).fids = srv.fids := by
  rw [capGrant]
  split <;> rfl

@[simp]
theorem fids_capRevokeFid (fid : Nat) (srv : FsServer H) : (capRevokeFid fid srv).fids = srv.fids := by
  rw [capRevokeFid]
  split <;> rfl

@[simp]
theorem fids_capDeriveFid (fid newfid : Nat) (srv : FsServer H) : (capDeriveFid fid newfid srv).fids = srv.fids := by
  rw [capDeriveFid]
  split
  · exact fids_capGrant ..
  split
  · rw [fids_capGrant]
    rfl
  · rfl

theorem tags_of_fids {s s' : Server W} (h : s'.fids = s.fids) : s'.tags = s.tags := by
  funext i
  rw [Server.tags, Server.tags, h]

theorem tags_fidFreePath (i : Nat) (srv : FsServer H) : (fidFreePath i srv).tags = srv.tags := by
  rw [fidFreePath]
  split
  · rfl
  · exact tags_setFid_same (freePath (srv.fids i).fileState srv) rfl rfl

theorem tags_styxfsCapCloneCb (fid newfid : Nat) (srv : FsServer H) :
    (styxfsCapCloneCb fid newfid srv).tags = srv.tags := by
  rw [styxfsCapCloneCb]
  split
  · exact tags_of_fids (fids_capDeriveFid fid newfid srv)
  · rfl

theorem tags_styxfsOpenCb (fid mode : Nat) (srv : FsServer H) : (styxfsOpenCb fid mode srv).2.tags = srv.tags := by
  rw [styxfsOpenCb]
  split
  · rfl
  split
  · rfl
  · exact tags_setFid_same srv rfl rfl

theorem tags_styxfsCreateCb (fid : Nat) (name : CStr) (perm mode : Nat) (srv : FsServer H) :
    (styxfsCreateCb host fid name perm mode srv).2.tags = srv.tags := by
  rw [styxfsCreateCb]
  split
  · rfl
  split
  · rfl
  split
  · rfl
  rename_i i _
  have hcreate := tags_of_core (core_createHost host (childHost srv i name) perm mode srv)
  generalize createHost host (childHost srv i name) perm mode srv = r at hcreate
  obtain ⟨_ | e, srv1⟩ := r
  · dsimp only at hcreate ⊢
    refine (tags_setFid_same _ (by rfl) (by rfl)).trans ?_
    rw [tags_of_fids (fids_strdup ..), ← hcreate]
    split <;> rfl
  · exact hcreate

theorem tags_styxfsClunkCb (fid : Nat) (srv : FsServer H) : (styxfsClunkCb fid srv).tags = srv.tags := by
  have hrevoke := tags_of_fids (fids_capRevokeFid fid srv)
  rw [styxfsClunkCb]
  split
  · exact hrevoke
  · rw [tags_fidFreePath, hrevoke]

theorem tags_styxfsRemoveCb (fid : Nat) (srv : FsServer H) : (styxfsRemoveCb host fid srv).tags = srv.tags := by
  rw [styxfsRemoveCb]
  split
  · rfl
  split
  · rfl
  rw [tags_fidFreePath]
  split <;> rfl

/-- The callbacks that are installed: those of the file system, or none. -/
inductive FileSystem (H : Type)
  | bare
  | styxfs (host : Host H) (creates : Bool)

/-- Its callbacks. -/
def FileSystem.callbacks : FileSystem H → Callbacks (FsWorld H)
  | .bare => ⟨none, none, none, none, none, none, none, none, none, none, none, none, none⟩
  | .styxfs host creates => styxfsCallbacks host creates

/-- A call that leaves the fids to the server. -/
def Invocation.Quiet : Invocation → Prop
  | .attach .. => False
  | .walk .. => False
  | _ => True

/-- **The file system** leaves the fids to the server, but for an attach and a walk. -/
theorem tags_effect (fs : FileSystem H) {c : Invocation} (hc : c.Quiet) (srv : FsServer H) :
    (fs.callbacks.effect c srv).tags = srv.tags := by
  cases fs with
  | bare => cases c <;> rfl
  | styxfs host creates =>
    cases c with
    | clone fid newfid => exact tags_styxfsCapCloneCb fid newfid srv
    | attach | walk => exact hc.elim
    | «open» fid mode => exact tags_styxfsOpenCb fid mode srv
    | read fid offset count => exact tags_of_core (core_styxfsReadCb fid offset count srv)
    | write fid offset count data => exact tags_of_core (core_styxfsWriteCb fid offset count data srv)
    | clunk fid => exact tags_styxfsClunkCb fid srv
    | remove fid => exact tags_styxfsRemoveCb fid srv
    | stat fid => exact tags_of_core (core_styxfsStatCb fid srv)
    | wstat fid dir => exact tags_of_core (core_styxfsWstatCb fid dir srv)
    | auth afid uname aname => rfl
    | create fid name perm mode =>
      cases creates with
      | false => rfl
      | true => exact tags_styxfsCreateCb fid name perm mode srv
    | flush oldtag => rfl

/-! ## Attaching and walking -/

/-- One more slot is in use, for this fid. -/
def Gains (s s' : Server W) (fid : Nat) : Prop :=
  ∃ i < maxFids, s.tags i = none ∧ s'.tags = update s.tags i (some fid)

/-- There is memory for a path. -/
def HasMemory (srv : FsServer H) : Prop := (strdup root srv).1 ≠ 0

theorem strdup_fst {s s' : CStr} (h : srv'.world = srv.world) : (strdup s srv').1 = (strdup s' srv).1 := by
  rw [strdup, strdup, h]
  split <;> rfl

/-- A slot is free. -/
def HasFree (s : Server W) : Prop := ∃ i < maxFids, s.tags i = none

theorem hasFree_of_gains {s s' : Server W} (h : Gains s s' fid) : HasFree s :=
  h.imp fun _ hi => ⟨hi.1, hi.2.1⟩

theorem fidAlloc_eq_none {s : Server W} : fidAlloc s fid = none ↔ ¬HasFree s := by
  rw [fidAlloc, Option.map_eq_none_iff, List.find?_eq_none, HasFree]
  push Not
  refine forall_congr' fun i => ?_
  rw [List.mem_range, Server.tags]
  refine imp_congr_right fun _ => ?_
  cases (s.fids i).inUse with
  | false => simp
  | true => simp

/-- A slot is taken for a fid, and the first slot that it has is given back. -/
def Swaps (s s' : Server W) (fid : Nat) : Prop :=
  ∃ i, ∃ k < maxFids, s.tags i = none ∧ update s.tags i (some fid) k = some fid ∧
    s'.tags = update (update s.tags i (some fid)) k none

/-- **An attach** takes a slot, if it is for an absolute path and there is memory. -/
theorem styxfsAttachCb_tags (fid : Nat) (aname : CStr) (srv : FsServer H) :
    ((attachName aname).head? = some slash ∧ HasMemory srv ∧ Gains srv (styxfsAttachCb fid aname srv).2 fid) ∨
      (¬((attachName aname).head? = some slash ∧ HasMemory srv ∧ HasFree srv) ∧
        ((styxfsAttachCb fid aname srv).2.tags = srv.tags ∨ Swaps srv (styxfsAttachCb fid aname srv).2 fid)) := by
  rw [styxfsAttachCb]
  split
  · rename_i hname
    exact Or.inr ⟨fun h => hname h.1, Or.inl rfl⟩
  rename_i hname
  split
  · rename_i hfull
    exact Or.inr ⟨fun h => fidAlloc_eq_none.1 hfull h.2.2, Or.inl rfl⟩
  rename_i i srv1 halloc
  obtain ⟨hi, hfree, rfl, htags⟩ := fidAlloc_eq_some halloc
  dsimp only
  have hmem : (strdup (trimSlashes (attachName aname)) (setFid srv i ⟨true, fid, 0, 0, 0, ⟨0, 0, 0⟩, 0⟩)).1 =
      (strdup root srv).1 := strdup_fst rfl
  have hdup := tags_of_fids (fids_strdup (trimSlashes (attachName aname))
    (setFid srv i ⟨true, fid, 0, 0, 0, ⟨0, 0, 0⟩, 0⟩))
  generalize strdup (trimSlashes (attachName aname)) (setFid srv i ⟨true, fid, 0, 0, 0, ⟨0, 0, 0⟩, 0⟩) = r
    at hmem hdup
  obtain ⟨p, srv2⟩ := r
  cases p with
  | zero =>
    refine Or.inr ⟨fun h => h.2.1 hmem.symm, Or.inr ?_⟩
    obtain ⟨hnone, -⟩ | ⟨k, hk, hfreed⟩ := tags_fidFree srv2 fid
    · refine absurd ?_ (fidLookup_eq_none.1 hnone i hi)
      rw [hdup, htags, update_self]
    · obtain ⟨hlt, hkt⟩ := fidLookup_eq_some hk
      refine ⟨i, k, hlt, hfree, ?_, hfreed.trans ?_⟩
      · rw [← htags, ← hdup, hkt]
      · rw [hdup, htags]
  | succ p =>
    refine Or.inl ⟨not_not.1 hname, fun h => absurd (hmem.trans h) (by simp), i, hi, hfree, ?_⟩
    refine (tags_of_fids (fids_capGrant ..)).trans ((tags_setFid_same _ (by rfl) (by rfl)).trans ?_)
    rw [hdup, htags]

theorem walkLoop_ne_nil {name : CStr} {names : List CStr} {cur : CStr} {srv : FsServer H} :
    (walkLoop host (name :: names) cur srv).1.2 ≠ [] ↔ (reachable host (buildPath cur name) srv).1 = true := by
  rw [walkLoop]
  generalize reachable host (buildPath cur name) srv = r
  obtain ⟨_ | _, srv1⟩ := r
  · simp
  · simp

theorem tags_walkTo (fid newfid j : Nat) (qid : Qid) (cur : CStr) (srv : FsServer H) :
    (walkTo fid newfid j qid cur srv).tags = srv.tags := by
  rw [walkTo]
  dsimp only
  have hset : ∀ p, (setFid (strdup cur srv).2 j
      { (strdup cur srv).2.fids j with qid := qid, fileState := p }).tags = srv.tags := by
    intro p
    rw [tags_setFid_same _ (by rfl) (by rfl), tags_of_fids (fids_strdup ..)]
  split
  · rw [tags_of_fids (fids_capDeriveFid ..), hset]
  · exact hset _

/-- A walk comes somewhere: its first component is there. -/
def Starts (host : Host H) (srv : FsServer H) (i : Nat) (wname : List CStr) : Prop :=
  ∃ name names, wname = name :: names ∧
    (reachable host (buildPath (snprintf (fidPath srv.world (srv.fids i))) name) srv).1 = true

theorem starts_iff (host : Host H) (srv : FsServer H) (i : Nat) (wname : List CStr) : Starts host srv i wname ↔
    (walkLoop host (wname.take 16) (snprintf (fidPath srv.world (srv.fids i))) srv).1.2 ≠ [] := by
  cases wname with
  | nil => exact iff_of_false (fun ⟨_, _, h, _⟩ => nomatch h) (fun h => h rfl)
  | cons name names =>
    rw [List.take_succ_cons, walkLoop_ne_nil]
    constructor
    · rintro ⟨_, _, h, hreach⟩
      cases h
      exact hreach
    · exact fun hreach => ⟨name, names, rfl, hreach⟩

/-- **A walk** takes a slot, if it comes somewhere. -/
theorem styxfsWalkCb_tags (host : Host H) (newfid : Nat) (wname : List CStr) {srv : FsServer H}
    (hi : fidLookup srv fid = some i) :
    (Starts host srv i wname ∧ Gains srv (styxfsWalkCb host fid newfid wname srv).2 newfid) ∨
      (¬(Starts host srv i wname ∧ HasFree srv) ∧ (styxfsWalkCb host fid newfid wname srv).2.tags = srv.tags) := by
  have hstarts := starts_iff host srv i wname
  have hcore := tags_of_core (core_walkLoop host (wname.take 16)
    (snprintf (fidPath srv.world (srv.fids i))) srv)
  rw [styxfsWalkCb, hi]
  dsimp only
  generalize walkLoop host (wname.take 16) (snprintf (fidPath srv.world (srv.fids i))) srv = r at hstarts hcore
  obtain ⟨⟨cur, _ | ⟨q, qids⟩⟩, srv1⟩ := r
  · exact Or.inr ⟨fun h => hstarts.1 h.1 rfl, hcore⟩
  dsimp only at hstarts hcore ⊢
  have hstart : Starts host srv i wname := hstarts.2 (List.cons_ne_nil q qids)
  split
  · rename_i hfull
    refine Or.inr ⟨fun h => fidAlloc_eq_none.1 hfull ?_, hcore⟩
    obtain ⟨k, hk, hfree⟩ := h.2
    exact ⟨k, hk, hcore ▸ hfree⟩
  · rename_i j srv2 halloc
    obtain ⟨hj, hfree, -, htags⟩ := fidAlloc_eq_some halloc
    refine Or.inl ⟨hstart, j, hj, hcore ▸ hfree, ?_⟩
    rw [tags_walkTo, htags, hcore]

/-! ## What a message does -/

/-- A fid that a message puts into the table, if it is not refused. -/
def Introduces (buf : Buf) (fid : Nat) : Prop :=
  (msgType buf = some .tattach ∧ get buf 7 4 = fid) ∨ (msgType buf = some .twalk ∧ get buf 11 4 = fid)

/-- An attach is not refused for its name, or for want of memory. -/
def FileSystem.Attaches (fs : FileSystem H) (srv : FsServer H) (aname : CStr) : Prop :=
  match fs with
  | .bare => True
  | .styxfs _ _ => (attachName aname).head? = some slash ∧ HasMemory srv

/-- A walk is not refused for its names. -/
def FileSystem.Walks (fs : FileSystem H) (srv : FsServer H) (i : Nat) (wname : List CStr) : Prop :=
  match fs with
  | .bare => False
  | .styxfs host _ => Starts host srv i wname

/-- A slot is taken for a fid, and nobody asks whether it has one. -/
def Takes (fs : FileSystem H) (srv : FsServer H) (buf : Buf) (size fid : Nat) : TType → Prop
  | .tattach => 15 ≤ size ∧ fs.Attaches srv (stringAt buf 15 maxFname size) ∧ get buf 7 4 = fid
  | .twalk => ∃ i wname, fidLookup srv (get buf 7 4) = some i ∧ get buf 15 2 ≠ 0 ∧
      walkNames buf size 17 (min (get buf 15 2) 16) = some wname ∧ fs.Walks srv i wname ∧ get buf 11 4 = fid
  | _ => False

variable {fs : FileSystem H} {buf : Buf} {size tag : Nat} {served : Served (FsWorld H)}

/-- What is asked for leaves the fids to the server, unless it is an attach or a walk. -/
theorem quiet_of_asks {type : TType} {c : Invocation} {s : Server W} (h : Asks s buf size type c)
    (hattach : type ≠ .tattach) (hwalk : type ≠ .twalk) : c.Quiet := by
  cases type with
  | tversion => exact h.elim
  | tattach => exact absurd rfl hattach
  | twalk => exact absurd rfl hwalk
  | tauth | tflush | tremove => exact h ▸ trivial
  | tcreate =>
    obtain ⟨-, -, -, -, rfl⟩ := h
    exact trivial
  | twrite => exact h.2.2 ▸ trivial
  | twstat =>
    obtain ⟨-, -, rfl⟩ := h
    exact trivial
  | topen | tread | tclunk | tstat => exact h.2 ▸ trivial

/-- The clone of a walk without names takes a slot, and has asked. -/
theorem gains_of_cloned (fs : FileSystem H) {s : FsServer H} (h : Cloned fs.callbacks srv fid newfid s) :
    fidLookup srv newfid = none ∧ Gains srv s newfid := by
  obtain ⟨i, j, s', hi, hnew, halloc, rfl⟩ := h
  obtain ⟨hj, hfree, rfl, htags⟩ := fidAlloc_eq_some halloc
  refine ⟨hnew, j, hj, hfree, ?_⟩
  have huse : (srv.fids i).inUse = true := by
    have := (fidLookup_eq_some hi).2
    rw [Server.tags] at this
    split at this
    · assumption
    · cases this
  have hij : i ≠ j := by
    rintro rfl
    cases hfree.symm.trans (fidLookup_eq_some hi).2
  rw [tags_effect fs (by trivial), tags_setFid, htags, Function.update_idem]
  congr 1
  show (if (update srv.fids j _ i).inUse then some newfid else none) = some newfid
  rw [update_of_ne hij, huse, if_pos rfl]

theorem serveAttach_srv (host : Host H) (creates : Bool) (srv : FsServer H) (fid : Nat) (aname : CStr) :
    (serveAttach (styxfsCallbacks host creates) srv tag fid aname).srv = (styxfsAttachCb fid aname srv).2 := by
  rw [serveAttach]
  dsimp only [styxfsCallbacks]
  split
  · rename_i hres
    rw [hres]
  · rename_i hres
    rw [hres]

/-- **An attach** takes a slot if it can, and does not ask. -/
theorem attach_tags (fs : FileSystem H) (h : serveType fs.callbacks srv tag buf size .tattach = some served) :
    (Takes fs srv buf size (get buf 7 4) .tattach ∧ Gains srv served.srv (get buf 7 4)) ∨
      (¬(Takes fs srv buf size (get buf 7 4) .tattach ∧ HasFree srv) ∧
        (served.srv.tags = srv.tags ∨ Swaps srv served.srv (get buf 7 4))) := by
  rw [serveType] at h
  split at h
  · rename_i hsize
    cases h
    exact Or.inr ⟨fun ht => absurd ht.1.1 (by omega), Or.inl rfl⟩
  rename_i hsize
  cases h
  cases fs with
  | bare =>
    rw [serveAttach]
    dsimp only [FileSystem.callbacks]
    split
    · rename_i hfull
      exact Or.inr ⟨fun ht => fidAlloc_eq_none.1 hfull ht.2, Or.inl rfl⟩
    · rename_i i s halloc
      obtain ⟨hi, hfree, -, htags⟩ := fidAlloc_eq_some halloc
      refine Or.inl ⟨⟨by omega, trivial, rfl⟩, i, hi, hfree, ?_⟩
      rw [tags_setFid_same s (by rfl) (by rfl), htags]
  | styxfs host creates =>
    rw [FileSystem.callbacks, serveAttach_srv]
    obtain ⟨hname, hmem, hg⟩ | ⟨hno, hcases⟩ :=
      styxfsAttachCb_tags (get buf 7 4) (stringAt buf 15 maxFname size) srv
    · exact Or.inl ⟨⟨by omega, ⟨hname, hmem⟩, rfl⟩, hg⟩
    · exact Or.inr ⟨fun ht => hno ⟨ht.1.2.1.1, ht.1.2.1.2, ht.2⟩, hcases⟩

/-- **A walk** with names takes a slot if it can, and does not ask; one without has asked. -/
theorem walk_tags (h : serveType fs.callbacks srv tag buf size .twalk = some served) :
    (Takes fs srv buf size (get buf 11 4) .twalk ∧ Gains srv served.srv (get buf 11 4)) ∨
      (¬(Takes fs srv buf size (get buf 11 4) .twalk ∧ HasFree srv) ∧ (served.srv.tags = srv.tags ∨
          (fidLookup srv (get buf 11 4) = none ∧ Gains srv served.srv (get buf 11 4)))) := by
  by_cases ht : Takes fs srv buf size (get buf 11 4) .twalk ∧ HasFree srv
  · refine Or.inl ⟨ht.1, ?_⟩
    obtain ⟨⟨i, wname, hi, hzero, hwname, hwalks, -⟩, hfree⟩ := ht
    cases fs with
    | bare => exact hwalks.elim
    | styxfs host creates =>
      rw [serveType, hwname] at h
      rw [serveWalk_names hi hzero rfl h]
      obtain ⟨-, hg⟩ | ⟨hno, -⟩ := styxfsWalkCb_tags host (get buf 11 4) wname hi
      · exact hg
      · exact absurd ⟨hwalks, hfree⟩ hno
  refine Or.inr ⟨ht, ?_⟩
  obtain hsame | ⟨-, hclone⟩ | ⟨wname, hzero, hfid, hwname, hsrv⟩ := serveWalk_srv h
  · exact Or.inl (by rw [hsame])
  · exact Or.inr (gains_of_cloned fs hclone)
  · obtain ⟨i, hi⟩ := Option.isSome_iff_exists.1 hfid
    rw [hsrv]
    cases fs with
    | bare => exact Or.inl rfl
    | styxfs host creates =>
      obtain ⟨hstarts, hg⟩ | ⟨-, hsame⟩ := styxfsWalkCb_tags host (get buf 11 4) wname hi
      · exact absurd ⟨⟨i, wname, hi, hzero, hwname, hstarts, rfl⟩, hasFree_of_gains hg⟩ ht
      · exact Or.inl hsame

/-- **Any other message** gives a slot back at most. -/
theorem other_tags (fs : FileSystem H) {type : TType} (hattach : type ≠ .tattach) (hwalk : type ≠ .twalk)
    (h : serveType fs.callbacks srv tag buf size type = some served) :
    served.srv.tags = srv.tags ∨ ∃ i, fidLookup srv (get buf 7 4) = some i ∧
      served.srv.tags = update srv.tags i none := by
  obtain ⟨s, hcall, hset⟩ := serveType_srv hwalk h
  have htags : s.tags = srv.tags := by
    obtain ⟨-, rfl⟩ | ⟨c, hasks, -, rfl⟩ := hcall
    · rfl
    · exact tags_effect fs (quiet_of_asks hasks hattach hwalk) srv
  have hfree : (fidFree s (get buf 7 4)).tags = srv.tags ∨ ∃ i, fidLookup srv (get buf 7 4) = some i ∧
      (fidFree s (get buf 7 4)).tags = update srv.tags i none := by
    rw [← htags, ← fidLookup_congr htags]
    exact (tags_fidFree s (get buf 7 4)).imp_left And.right
  generalize served.srv = t at hset
  cases hset with
  | same => exact Or.inl htags
  | slot i openFid openMode offset => exact Or.inl ((tags_setFid_same s (by rfl) (by rfl)).trans htags)
  | session => exact Or.inl htags
  | attach => exact absurd rfl hattach
  | clunk => exact hfree
  | remove => exact hfree

/-- **A clunk** gives back the slot of a fid that is in use. -/
theorem clunk_tags (h : serveType fs.callbacks srv tag buf size .tclunk = some served) :
    (fidLookup srv (get buf 7 4) = none ∧ served.srv.tags = srv.tags) ∨
      ∃ i, fidLookup srv (get buf 7 4) = some i ∧ served.srv.tags = update srv.tags i none := by
  rw [serveType] at h
  cases h
  rw [serveClunk]
  split
  · rename_i hnone
    exact Or.inl ⟨hnone, rfl⟩
  split
  · exact tags_fidFree srv (get buf 7 4)
  · rename_i clunk hclunk
    have htags : (clunk (get buf 7 4) srv).tags = srv.tags := by
      have := tags_effect fs (c := .clunk (get buf 7 4)) trivial srv
      rwa [Callbacks.effect, hclunk] at this
    rw [← htags, ← fidLookup_congr htags]
    exact tags_fidFree (clunk (get buf 7 4) srv) (get buf 7 4)

/-! ## What a slot taken twice does -/

/-- What a slot is in use for when one has been given back. -/
theorem tags_of_freed {s s' : Server W} {k : Nat} (h : s'.tags = update s.tags k none)
    (hi : s'.tags i = some fid) : i ≠ k ∧ s.tags i = some fid := by
  have hik : i ≠ k := by
    rintro rfl
    rw [h, update_self] at hi
    cases hi
  rw [h, update_of_ne hik] at hi
  exact ⟨hik, hi⟩

/-- What a slot is in use for when one has been taken. -/
theorem tags_of_gains {s s' : Server W} {fid' : Nat} (h : Gains s s' fid) (hi : s'.tags i = some fid') :
    fid' = fid ∨ s.tags i = some fid' := by
  obtain ⟨k, -, -, htags⟩ := h
  rw [htags] at hi
  by_cases hik : i = k
  · subst hik
    rw [update_self] at hi
    exact Or.inl (Option.some.inj hi).symm
  · rw [update_of_ne hik] at hi
    exact Or.inr hi

theorem tags_of_swaps {s s' : Server W} {fid' : Nat} (h : Swaps s s' fid) (hi : s'.tags i = some fid') :
    fid' = fid ∨ s.tags i = some fid' := by
  obtain ⟨j, k, -, -, -, htags⟩ := h
  rw [htags] at hi
  by_cases hik : i = k
  · subst hik
    rw [update_self] at hi
    cases hi
  rw [update_of_ne hik] at hi
  by_cases hij : i = j
  · subst hij
    rw [update_self] at hi
    exact Or.inl (Option.some.inj hi).symm
  · rw [update_of_ne hij] at hi
    exact Or.inr hi

theorem unique_of_tags {s s' : Server W} (hu : s.Unique) (h : ∀ i fid, s'.tags i = some fid → s.tags i = some fid) :
    s'.Unique := fun i j fid hi hj hti htj => hu i j fid hi hj (h i fid hti) (h j fid htj)

theorem unique_of_gains {s s' : Server W} (hu : s.Unique) (hnew : fidLookup s fid = none)
    (h : Gains s s' fid) : s'.Unique := by
  obtain ⟨k, -, -, htags⟩ := h
  have hother : ∀ i < maxFids, s'.tags i = some fid → i = k := by
    intro i hi hti
    by_contra hik
    rw [htags, update_of_ne hik] at hti
    exact fidLookup_eq_none.1 hnew i hi hti
  intro i j fid' hi hj hti htj
  by_cases hfid : fid' = fid
  · subst hfid
    rw [hother i hi hti, hother j hj htj]
  · have hne : ∀ m, s'.tags m = some fid' → m ≠ k := by
      rintro m hm rfl
      rw [htags, update_self] at hm
      exact hfid (Option.some.inj hm).symm
    have hi' := hne i hti
    have hj' := hne j htj
    rw [htags, update_of_ne hi'] at hti
    rw [htags, update_of_ne hj'] at htj
    exact hu i j fid' hi hj hti htj

theorem not_unique_of_gains {s s' : Server W} (hold : (fidLookup s fid).isSome) (h : Gains s s' fid) : ¬s'.Unique := by
  obtain ⟨k, hk, hfree, htags⟩ := h
  obtain ⟨i, hi⟩ := Option.isSome_iff_exists.1 hold
  obtain ⟨hlt, hti⟩ := fidLookup_eq_some hi
  have hik : i ≠ k := by
    rintro rfl
    cases hfree.symm.trans hti
  intro hu
  refine hik (hu i k fid hlt hk ?_ ?_)
  · rw [htags, update_of_ne hik, hti]
  · rw [htags, update_self]

theorem unique_of_swaps {s s' : Server W} (hu : s.Unique) (h : Swaps s s' fid) : s'.Unique := by
  obtain ⟨i, k, hk, hfree, hkt, htags⟩ := h
  -- what a slot is in use for now, but for the one that has been taken
  have hold : ∀ m, m ≠ i → ∀ fid', s'.tags m = some fid' → m ≠ k ∧ s.tags m = some fid' := by
    intro m hmi fid' hm
    have hmk : m ≠ k := by
      rintro rfl
      rw [htags, update_self] at hm
      cases hm
    rw [htags, update_of_ne hmk, update_of_ne hmi] at hm
    exact ⟨hmk, hm⟩
  have hnew : ∀ fid', s'.tags i = some fid' → fid' = fid ∧ s.tags k = some fid := by
    intro fid' hi
    have hik : i ≠ k := by
      rintro rfl
      rw [htags, update_self] at hi
      cases hi
    rw [htags, update_of_ne hik, update_self] at hi
    rw [update_of_ne hik.symm] at hkt
    exact ⟨(Option.some.inj hi).symm, hkt⟩
  intro m n fid' hm hn htm htn
  by_cases hmi : m = i
  · subst hmi
    obtain ⟨rfl, hk'⟩ := hnew fid' htm
    by_contra hmn
    obtain ⟨hnk, hn'⟩ := hold n (Ne.symm hmn) fid' htn
    exact hnk (hu n k fid' hn hk hn' hk')
  obtain ⟨hmk, hm'⟩ := hold m hmi fid' htm
  by_cases hni : n = i
  · subst hni
    obtain ⟨rfl, hk'⟩ := hnew fid' htn
    exact absurd (hu m k fid' hm hk hm' hk') hmk
  · exact hu m n fid' hm hn hm' (hold n hni fid' htn).2

/-! ## Runs -/

/-- The server when a message has been served. -/
def serveNext (cb : Callbacks W) (srv : Server W) (f : Frame) : Option (Server W) :=
  (styxServe cb srv f.buf f.inlen).map Served.srv

/-- A message is served, and there is a reply. -/
def serveStep (cb : Callbacks W) (srv : Server W) (f : Frame) (srv' : Server W) : Prop :=
  serveNext cb srv f = some srv'

/-- **A step** changes nothing, or is one of the dispatch. -/
theorem serveStep_cases {cb : Callbacks W} {s s' : Server W} {f : Frame} (h : serveStep cb s f s') :
    (s' = s ∧ ∀ type, Dispatched s f.buf f.inlen → msgType f.buf ≠ some type) ∨
      ∃ type served, Dispatched s f.buf f.inlen ∧ msgType f.buf = some type ∧
        serveType cb s (msgTag f.buf) f.buf (msgSize f.buf) type = some served ∧ served.srv = s' := by
  obtain ⟨served, hs, hsrv⟩ := Option.map_eq_some_iff.1 h
  by_cases hd : ∃ type, Dispatched s f.buf f.inlen ∧ msgType f.buf = some type
  · obtain ⟨type, hd, ht⟩ := hd
    exact Or.inr ⟨type, served, hd, ht, (styxServe_of_dispatched hd ht).symm.trans hs, hsrv⟩
  obtain ⟨msg, -, hr⟩ | ⟨type, hd', ht, -⟩ := styxServe_cases cb s f.buf f.inlen
  · cases hs.symm.trans hr
    exact Or.inl ⟨hsrv.symm, fun type hd' ht => hd ⟨type, hd', ht⟩⟩
  · exact absurd ⟨type, hd', ht⟩ hd

/-- **A fid gets another slot**: one is taken for it, without asking, while it has one. -/
def Doubles (fs : FileSystem H) (srv : FsServer H) (f : Frame) : Prop :=
  Dispatched srv f.buf f.inlen ∧ ∃ type fid, msgType f.buf = some type ∧
    Takes fs srv f.buf (msgSize f.buf) fid type ∧ (fidLookup srv fid).isSome ∧ HasFree srv

variable {f : Frame}

/-- **A message leaves one slot for a fid** if and only if it does not take another. -/
theorem unique_step_iff (hu : srv.Unique) (hs : serveStep fs.callbacks srv f srv') :
    srv'.Unique ↔ ¬Doubles fs srv f := by
  obtain ⟨rfl, hno⟩ | ⟨type, served, hd, ht, h, rfl⟩ := serveStep_cases hs
  · exact iff_of_true hu fun ⟨hd, type, _, ht, _⟩ => hno type hd ht
  have hdoubles : Doubles fs srv f ↔ ∃ fid, Takes fs srv f.buf (msgSize f.buf) fid type ∧
      (fidLookup srv fid).isSome ∧ HasFree srv := by
    constructor
    · rintro ⟨-, type', fid, ht', h⟩
      cases ht.symm.trans ht'
      exact ⟨fid, h⟩
    · exact fun ⟨fid, h⟩ => ⟨hd, type, fid, ht, h⟩
  rw [hdoubles]
  -- a slot that is taken without asking is the first one for its fid, or the second
  have htaken : ∀ fid, Takes fs srv f.buf (msgSize f.buf) fid type →
      (∀ fid', Takes fs srv f.buf (msgSize f.buf) fid' type → fid' = fid) → Gains srv served.srv fid →
      (served.srv.Unique ↔ ¬∃ fid, Takes fs srv f.buf (msgSize f.buf) fid type ∧
        (fidLookup srv fid).isSome ∧ HasFree srv) := by
    intro fid htakes honly hg
    cases hold : fidLookup srv fid with
    | none =>
      refine iff_of_true (unique_of_gains hu hold hg) ?_
      rintro ⟨fid', htakes', hin, -⟩
      rw [honly fid' htakes', hold] at hin
      cases hin
    | some i =>
      have hin := Option.isSome_of_eq_some hold
      exact iff_of_false (not_unique_of_gains hin hg)
        (not_not.2 ⟨fid, htakes, hin, hasFree_of_gains hg⟩)
  by_cases hattach : type = .tattach
  · subst hattach
    have honly : ∀ fid', Takes fs srv f.buf (msgSize f.buf) fid' .tattach → fid' = get f.buf 7 4 :=
      fun _ h => h.2.2.symm
    obtain ⟨htakes, hg⟩ | ⟨hno, hsame | hswaps⟩ := attach_tags fs h
    · exact htaken _ htakes honly hg
    · refine iff_of_true (unique_of_tags hu fun i fid hi => hsame ▸ hi) ?_
      rintro ⟨fid, htakes, -, hfree⟩
      exact hno ⟨honly fid htakes ▸ htakes, hfree⟩
    · refine iff_of_true (unique_of_swaps hu hswaps) ?_
      rintro ⟨fid, htakes, -, hfree⟩
      exact hno ⟨honly fid htakes ▸ htakes, hfree⟩
  by_cases hwalk : type = .twalk
  · subst hwalk
    have honly : ∀ fid', Takes fs srv f.buf (msgSize f.buf) fid' .twalk → fid' = get f.buf 11 4 :=
      fun _ ⟨_, _, _, _, _, _, h⟩ => h.symm
    obtain ⟨htakes, hg⟩ | ⟨hno, hsame | ⟨hasked, hg⟩⟩ := walk_tags h
    · exact htaken _ htakes honly hg
    · refine iff_of_true (unique_of_tags hu fun i fid hi => hsame ▸ hi) ?_
      rintro ⟨fid, htakes, -, hfree⟩
      exact hno ⟨honly fid htakes ▸ htakes, hfree⟩
    · refine iff_of_true (unique_of_gains hu hasked hg) ?_
      rintro ⟨fid, htakes, -, hfree⟩
      exact hno ⟨honly fid htakes ▸ htakes, hfree⟩
  have hno : ¬∃ fid, Takes fs srv f.buf (msgSize f.buf) fid type ∧ (fidLookup srv fid).isSome ∧ HasFree srv := by
    rintro ⟨fid, htakes, -⟩
    cases type <;> first | exact absurd rfl hattach | exact absurd rfl hwalk | exact htakes
  refine iff_of_true ?_ hno
  obtain hsame | ⟨k, -, hfreed⟩ := other_tags fs hattach hwalk h
  · exact unique_of_tags hu fun i fid hi => hsame ▸ hi
  · exact unique_of_tags hu fun i fid hi => (tags_of_freed hfreed hi).2

/-- **A fid that is not in use** is not, until it is introduced. -/
theorem unknown_step (hno : fidLookup srv fid = none) (hs : serveStep fs.callbacks srv f srv')
    (hintro : ¬Introduces f.buf fid) : fidLookup srv' fid = none := by
  obtain ⟨rfl, -⟩ | ⟨type, served, hd, ht, h, rfl⟩ := serveStep_cases hs
  · exact hno
  refine fidLookup_eq_none.2 fun i hi hti => fidLookup_eq_none.1 hno i hi ?_
  by_cases hattach : type = .tattach
  · subst hattach
    have hne : fid ≠ get f.buf 7 4 := fun he => hintro (Or.inl ⟨ht, he.symm⟩)
    obtain ⟨-, hg⟩ | ⟨-, hsame | hswaps⟩ := attach_tags fs h
    · exact (tags_of_gains hg hti).resolve_left hne
    · exact hsame ▸ hti
    · exact (tags_of_swaps hswaps hti).resolve_left hne
  by_cases hwalk : type = .twalk
  · subst hwalk
    have hne : fid ≠ get f.buf 11 4 := fun he => hintro (Or.inr ⟨ht, he.symm⟩)
    obtain ⟨-, hg⟩ | ⟨-, hsame | ⟨-, hg⟩⟩ := walk_tags h
    · exact (tags_of_gains hg hti).resolve_left hne
    · exact hsame ▸ hti
    · exact (tags_of_gains hg hti).resolve_left hne
  obtain hsame | ⟨k, -, hfreed⟩ := other_tags fs hattach hwalk h
  · exact hsame ▸ hti
  · exact (tags_of_freed hfreed hti).2

/-- The message is a `Tclunk` of this fid. -/
def Clunks (srv : Server W) (f : Frame) (fid : Nat) : Prop :=
  Dispatched srv f.buf f.inlen ∧ msgType f.buf = some .tclunk ∧ get f.buf 7 4 = fid

/-- **A clunk** leaves no slot for a fid that has one at most. -/
theorem unknown_of_clunks (hu : srv.Unique) (hs : serveStep fs.callbacks srv f srv')
    (hclunk : Clunks srv f fid) : fidLookup srv' fid = none := by
  obtain ⟨hd, ht, rfl⟩ := hclunk
  obtain ⟨rfl, hno⟩ | ⟨type, served, -, ht', h, rfl⟩ := serveStep_cases hs
  · exact absurd ht (hno _ hd)
  cases ht.symm.trans ht'
  obtain ⟨hnone, hsame⟩ | ⟨k, hk, hfreed⟩ := clunk_tags h
  · rw [fidLookup_congr hsame, hnone]
  · refine fidLookup_eq_none.2 fun i hi hti => ?_
    obtain ⟨hik, hti'⟩ := tags_of_freed hfreed hti
    obtain ⟨hlt, htk⟩ := fidLookup_eq_some hk
    exact hik (hu i k _ hi hlt hti' htk)

variable {srv0 : FsServer H} {frames : List Frame}

/-- **As long as no fid gets another slot**, there is one for a fid at most, and a fid that has been clunked is
not in use until it is introduced again. -/
theorem fids_unique (h₀ : ∀ i < maxFids, (srv0.fids i).inUse = false)
    (h : Run (guarded (fun srv f => ¬Doubles fs srv f) (serveStep fs.callbacks)) srv0 frames srv) :
    srv.Unique ∧ (∀ f srv', serveStep fs.callbacks srv f srv' → (srv'.Unique ↔ ¬Doubles fs srv f)) ∧
      ∀ fid f srv' frames' srv'', serveStep fs.callbacks srv f srv' → Clunks srv f fid →
        Run (guarded (fun _ f => ¬Introduces f.buf fid) (serveStep fs.callbacks)) srv' frames' srv'' →
        fidLookup srv'' fid = none := by
  have hstart : srv0.Unique := by
    intro i j fid hi hj hti
    rw [Server.tags, h₀ i hi] at hti
    cases hti
  have hu : srv.Unique := h.invariant _ (fun s f t hstep hu => (unique_step_iff hu hstep.2).2 hstep.1) hstart
  refine ⟨hu, fun f srv' => unique_step_iff hu, fun fid f srv' frames' srv'' hs hclunk hr => ?_⟩
  exact hr.invariant (fun s => fidLookup s fid = none)
    (fun s f t hstep hno => unknown_step hno hstep.2 hstep.1) (unknown_of_clunks hu hs hclunk)

/-- Requests are served one after the other, as long as there is a reply. -/
def serveAll (cb : Callbacks W) (srv : Server W) (reqs : List Request) : Option (Server W) :=
  replay (fun _ _ => True) (serveNext cb) srv (reqs.map Request.frame)

theorem run_serveAll {cb : Callbacks W} {reqs : List Request} {s s' : Server W}
    (h : serveAll cb s reqs = some s') : Run (serveStep cb) s (reqs.map Request.frame) s' :=
  (run_of_replay h).mono fun _ _ _ hstep => hstep.2

/-- A host that has nothing. -/
def noHost : Host Unit := fun _ h => (⟨false, 2, false, 0, 0, [], [], 0⟩, h)

/-- A file system that has nothing mounted. -/
def unmounted : FsServer Unit := styxfsInit [] 0 (Registry.empty fun _ => true) [] ()

/-- A fid is attached, and nothing else is done. -/
theorem fids_unique_attach : ∃ srv, srv.Unique ∧
    ∀ srv', serveStep (styxfsCallbacks noHost false) srv (Request.clunk 2 1).frame srv' → fidLookup srv' 1 = none := by
  have hattach : (serveAll (styxfsCallbacks noHost false) unmounted [Request.attach 1 1 0 root]).map
      (fun s => s.msize) = some 0 := by decide
  obtain ⟨srv, hsrv, hmsize⟩ := Option.map_eq_some_iff.1 hattach
  obtain ⟨t, hstep, hr⟩ : ∃ t, serveStep (styxfsCallbacks noHost false) unmounted
      (Request.attach 1 1 0 root).frame t ∧ t = srv := by
    cases run_serveAll hsrv with
    | cons hstep hr =>
      cases hr
      exact ⟨_, hstep, rfl⟩
  subst hr
  have hfirst : ¬Doubles (.styxfs noHost false) unmounted (Request.attach 1 1 0 root).frame := by
    rintro ⟨-, -, fid, -, -, hin, -⟩
    have hnone : fidLookup unmounted fid = none := fidLookup_eq_none.2 fun i _ => nofun
    rw [hnone] at hin
    cases hin
  have hfids : ∀ i < maxFids, (unmounted.fids i).inUse = false := fun _ _ => rfl
  have hrun : Run (guarded (fun srv f => ¬Doubles (.styxfs noHost false) srv f)
      (serveStep (FileSystem.styxfs noHost false).callbacks)) unmounted [(Request.attach 1 1 0 root).frame] t :=
    .single ⟨hfirst, hstep⟩
  obtain ⟨hu, -, hclunk⟩ := fids_unique hfids hrun
  refine ⟨t, hu, fun srv' hs => hclunk 1 _ srv' [] srv' hs ⟨?_, ?_, ?_⟩ (.nil _)⟩
  · exact ⟨by decide, by decide, Or.inl hmsize⟩
  · decide
  · decide

/-- **A fid that is attached twice** has two slots, and has one of them still when it has been clunked. -/
theorem attached_twice : ∃ srv srv', Run (serveStep (styxfsCallbacks noHost false)) unmounted
      ([Request.attach 1 1 0 root, .attach 2 1 0 root].map Request.frame) srv ∧ ¬srv.Unique ∧
    serveStep (styxfsCallbacks noHost false) srv (Request.clunk 3 1).frame srv' ∧
    (fidLookup srv' 1).isSome := by
  have htwice : (serveAll (styxfsCallbacks noHost false) unmounted
      [Request.attach 1 1 0 root, .attach 2 1 0 root]).map (fun s => (s.tags 0, s.tags 1)) = some (some 1, some 1) := by decide
  have hclunk : ((serveAll (styxfsCallbacks noHost false) unmounted
      [Request.attach 1 1 0 root, .attach 2 1 0 root]).bind fun s =>
        serveAll (styxfsCallbacks noHost false) s [Request.clunk 3 1]).map
        (fun s => (fidLookup s 1).isSome) = some true := by decide
  obtain ⟨srv, hsrv, htags⟩ := Option.map_eq_some_iff.1 htwice
  rw [hsrv] at hclunk
  obtain ⟨srv', hsrv', hknown⟩ := Option.map_eq_some_iff.1 hclunk
  refine ⟨srv, srv', run_serveAll hsrv, fun hu => ?_, ?_, hknown⟩
  · have h01 := hu 0 1 1 (by decide) (by decide) (congrArg Prod.fst htags) (congrArg Prod.snd htags)
    cases h01
  · cases run_serveAll hsrv' with
    | cons hstep hr =>
      cases hr
      exact hstep

end WuBuOS.Styx
