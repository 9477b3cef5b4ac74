import WuBuOS.Runtime.Styx.Fids

/-!
# What the host is asked

The log of the host's calls only grows, and every callback adds to it what it asks for the path of its fid,
or, for a walk, for the paths that it comes by.  Nothing is changed on the host but by a create, a write, a
remove and a wstat.

* `Logs`: what has been asked between two states is of some kind.  It composes, so a callback is taken apart along
  its code, and there is one lemma for each.
* `logs_walkLoop`: a walk asks for the paths that it passes, where nothing is mounted.
* `log_styxfsWstatCb_same`: a wstat with nothing to change asks for nothing.
-/

namespace WuBuOS.Styx

open Bytes Cap

variable {H : Type} {host : Host H} {srv srv' srv'' : FsServer H} {P Q : HostCall × Bool → Prop} {fid : Nat}

/-! ## The log -/

/-- The path that a call of the host is about. -/
def HostCall.path : HostCall → Option CStr
  | .stat path => some path
  | .opendir path => some path
  | .openRead path => some path
  | .pread path _ _ => some path
  | .openWrite path _ => some path
  | .pwrite path _ _ => some path
  | .openCreate path _ => some path
  | .mkdir path => some path
  | .unlink path => some path
  | .rmdir path => some path
  | .chmod path _ => some path
  | .utimensat path _ _ => some path
  | .time => none

/-- A call that changes something on the host, if the host does it. -/
def HostCall.modifies : HostCall → Bool
  | .openWrite .. => true
  | .pwrite .. => true
  | .openCreate .. => true
  | .mkdir .. => true
  | .unlink .. => true
  | .rmdir .. => true
  | .chmod .. => true
  | .utimensat .. => true
  | _ => false

/-- **What has been asked** in between is of this kind. -/
def Logs (P : HostCall × Bool → Prop) (srv srv' : FsServer H) : Prop :=
  ∃ calls, srv'.world.log = calls ++ srv.world.log ∧ ∀ e ∈ calls, P e

theorem Logs.of_eq (h : srv'.world.log = srv.world.log) : Logs P srv srv' := ⟨[], h, nofun⟩

theorem Logs.trans (h : Logs P srv srv') (h' : Logs P srv' srv'') : Logs P srv srv'' := by
  obtain ⟨calls, hlog, hP⟩ := h
  obtain ⟨calls', hlog', hP'⟩ := h'
  refine ⟨calls' ++ calls, by rw [hlog', hlog, List.append_assoc], fun e he => ?_⟩
  exact (List.mem_append.1 he).elim (hP' e) (hP e)

theorem Logs.mono (h : Logs P srv srv') (hPQ : ∀ e, P e → Q e) : Logs Q srv srv' :=
  h.imp fun _ hc => ⟨hc.1, fun e he => hPQ e (hc.2 e he)⟩

/-- A call of the host. -/
theorem Logs.call {call : HostCall} (h : P (call, (host call srv.world.host).1.ok)) :
    Logs P srv (hostCall host call srv).2 :=
  ⟨[(call, (host call srv.world.host).1.ok)], rfl, fun _ he => List.mem_singleton.1 he ▸ h⟩

@[simp]
theorem log_strdup (s : CStr) (srv : FsServer H) : (strdup s srv).2.world.log = srv.world.log := by
  rw [strdup]
  split <;> rfl

@[simp]
theorem log_capGrant (fid : Nat) (srv : FsServer H) : (capGrant fid srv).world.log = srv.world.log := by
  rw [capGrant]
  split <;> rfl

@[simp]
theorem log_capRevokeFid (fid : Nat) (srv : FsServer H) : (capRevokeFid fid srv).world.log = srv.world.log := by
  rw [capRevokeFid]
  split <;> rfl

@[simp]
theorem log_capDeriveFid (fid newfid : Nat) (srv : FsServer H) :
    (capDeriveFid fid newfid srv).world.log = srv.world.log := by
  rw [capDeriveFid]
  split
  · exact log_capGrant ..
  split
  · rw [log_capGrant]
    rfl
  · rfl

/-! ## What is not asked -/

theorem world_fidFree (s : FsServer H) (fid : Nat) : (fidFree s fid).world = s.world := by
  rw [fidFree]
  split <;> rfl

/-- What an arm does to the server itself does not concern the file system. -/
theorem world_settled {cb : Callbacks (FsWorld H)} {buf : Buf} {type : TType} {s s' : FsServer H}
    (h : Settled cb buf type s s') : s'.world = s.world := by
  cases h with
  | same => rfl
  | slot => rfl
  | session => rfl
  | attach hcb h =>
    obtain ⟨-, -, rfl, -⟩ := fidAlloc_eq_some h
    rfl
  | clunk => exact world_fidFree ..
  | remove => exact world_fidFree ..

theorem log_styxfsAttachCb (fid : Nat) (aname : CStr) (srv : FsServer H) :
    (styxfsAttachCb fid aname srv).2.world.log = srv.world.log := by
  rw [styxfsAttachCb]
  split
  · rfl
  split
  · rfl
  rename_i i srv1 halloc
  obtain ⟨-, -, rfl, -⟩ := fidAlloc_eq_some halloc
  dsimp only
  have hdup := log_strdup (trimSlashes (attachName aname)) (setFid srv i ⟨true, fid, 0, 0, 0, ⟨0, 0, 0⟩, 0⟩)
  generalize strdup (trimSlashes (attachName aname)) (setFid srv i ⟨true, fid, 0, 0, 0, ⟨0, 0, 0⟩, 0⟩) = r at hdup
  obtain ⟨p, srv2⟩ := r
  cases p with
  | zero => exact (congrArg FsWorld.log (world_fidFree srv2 fid)).trans hdup
  | succ p => exact (log_capGrant ..).trans hdup

theorem log_styxfsOpenCb (fid mode : Nat) (srv : FsServer H) :
    (styxfsOpenCb fid mode srv).2.world.log = srv.world.log := by
  rw [styxfsOpenCb]
  split
  · rfl
  split <;> rfl

theorem log_styxfsCapCloneCb (fid newfid : Nat) (srv : FsServer H) :
    (styxfsCapCloneCb fid newfid srv).world.log = srv.world.log := by
  rw [styxfsCapCloneCb]
  split
  · exact log_capDeriveFid fid newfid srv
  · rfl

theorem log_fidFreePath (i : Nat) (srv : FsServer H) : (fidFreePath i srv).world.log = srv.world.log := by
  rw [fidFreePath]
  split <;> rfl

theorem log_styxfsClunkCb (fid : Nat) (srv : FsServer H) : (styxfsClunkCb fid srv).world.log = srv.world.log := by
  rw [styxfsClunkCb]
  split
  · exact log_capRevokeFid fid srv
  · exact (log_fidFreePath ..).trans (log_capRevokeFid fid srv)

/-! ## What the callbacks ask -/

/-- **Nothing is changed** by a call, and its path is one of these. -/
def Looks (Q : CStr → Prop) (e : HostCall × Bool) : Prop :=
  e.1.modifies = false ∧ ∀ h, e.1.path = some h → Q h

/-- What a fid is on the host. -/
def IsFidHost (srv : FsServer H) (fid : Nat) (h : CStr) : Prop :=
  ∃ i, fidLookup srv fid = some i ∧ h = fidHost srv i

theorem looks_time (Q : CStr → Prop) (ok : Bool) : Looks Q (.time, ok) := ⟨rfl, nofun⟩

theorem logs_dirPage (Q : CStr → Prop) (offset : Nat) (es : List (CStr × Bool)) (n start room : Nat)
    (srv : FsServer H) : Logs (Looks Q) srv (dirPage host offset es n start room srv).2 := by
  induction es generalizing n start room srv with
  | nil => exact .of_eq rfl
  | cons e es ih =>
    rw [dirPage]
    have htime : Logs (Looks Q) srv (hostCall host .time srv).2 := .call (looks_time Q _)
    generalize hostCall host .time srv = r at htime
    dsimp only at htime ⊢
    split
    · exact htime
    split
    · exact htime.trans (ih ..)
    split
    · exact htime
    · exact htime.trans (ih ..)

theorem logs_styxfsReadCb (fid offset count : Nat) (srv : FsServer H) :
    Logs (Looks (IsFidHost srv fid)) srv (styxfsReadCb host fid offset count srv).2 := by
  rw [styxfsReadCb]
  split
  · exact .of_eq rfl
  rename_i i hi
  dsimp only
  have hlooks : ∀ call ok, call.modifies = false → call.path = some (fidHost srv i) →
      Looks (IsFidHost srv fid) (call, ok) :=
    fun call ok hmod hpath => ⟨hmod, fun h hh => ⟨i, hi, (Option.some.inj (hpath.symm.trans hh)).symm⟩⟩
  split
  · exact (Logs.call (hlooks _ _ rfl rfl)).trans (logs_dirPage ..)
  have hopen : Logs (Looks (IsFidHost srv fid)) srv (hostCall host (.openRead (fidHost srv i)) srv).2 :=
    .call (hlooks _ _ rfl rfl)
  split
  · exact hopen
  · exact hopen.trans (.call (hlooks _ _ rfl rfl))

theorem logs_styxfsStatCb (fid : Nat) (srv : FsServer H) :
    Logs (Looks (IsFidHost srv fid)) srv (styxfsStatCb host fid srv).2 := by
  rw [styxfsStatCb]
  split
  · exact .of_eq rfl
  rename_i i hi
  refine (Logs.call ⟨rfl, fun h hh => ⟨i, hi, (Option.some.inj hh).symm⟩⟩).trans (.call (looks_time _ _))

/-! ### A walk -/

/-- **The paths that a walk comes by**, and the one that it cannot come to, are of this kind. -/
def Passes (host : Host H) (Q : CStr → Prop) : List CStr → CStr → FsServer H → Prop
  | [], _, _ => True
  | name :: names, cur, srv =>
    Q (buildPath cur name) ∧
      ((reachable host (buildPath cur name) srv).1 = true →
        Passes host Q names (buildPath cur name)
          (nextQidPath (isDirectory host (buildPath cur name) (reachable host (buildPath cur name) srv).2).2).2)

/-- The path of the name space stands for a path of the host. -/
def OnHost (mounts : List Mount) (Q : CStr → Prop) (h : CStr) : Prop := ∃ p, Q p ∧ h = pathToHost mounts p

theorem mounts_of_core {srv1 srv2 : FsServer H} (h : srv1.core = srv2.core) :
    srv1.world.mounts = srv2.world.mounts := congrArg (fun s : FsServer Unit => s.world.mounts) h

/-- Something is mounted at the path: a walk does not ask the host for it. -/
def IsMount (mounts : List Mount) (p : CStr) : Prop := mounts.any (·.path == p) = true

theorem reachable_of_isMount {p : CStr} (h : IsMount srv.world.mounts p) : reachable host p srv = (true, srv) := by
  obtain ⟨m, hm, hpath⟩ := List.any_eq_true.1 h
  obtain rfl := eq_of_beq hpath
  refine if_pos (or_iff_not_imp_left.2 fun hroot => List.any_eq_true.2 ⟨m, hm, ?_⟩)
  rw [if_neg hroot, Mount.covers, List.drop_length]
  simp

theorem logs_reachable (host : Host H) {Q : CStr → Prop} {p : CStr} {srv : FsServer H}
    (hp : IsMount srv.world.mounts p ∨ Q p) :
    Logs (Looks (OnHost srv.world.mounts Q)) srv (reachable host p srv).2 := by
  obtain hmount | hq := hp
  · rw [reachable_of_isMount hmount]
    exact .of_eq rfl
  rw [reachable]
  split
  · exact .of_eq rfl
  · exact .call ⟨rfl, fun h hh => ⟨p, hq, (Option.some.inj hh).symm⟩⟩

theorem logs_isDirectory (host : Host H) {Q : CStr → Prop} {p : CStr} {srv : FsServer H}
    (hp : IsMount srv.world.mounts p ∨ Q p) :
    Logs (Looks (OnHost srv.world.mounts Q)) srv (isDirectory host p srv).2 := by
  rw [isDirectory]
  split
  · exact .of_eq rfl
  · rename_i hmount
    exact .call ⟨rfl, fun h hh => ⟨p, hp.resolve_left hmount, (Option.some.inj hh).symm⟩⟩

/-- **A walk** asks for the paths that it comes by, but for those at which something is mounted. -/
theorem logs_walkLoop {Q : CStr → Prop} {mounts : List Mount} {names : List CStr} {cur : CStr} {srv : FsServer H}
    (hm : srv.world.mounts = mounts) (h : Passes host (fun p => IsMount mounts p ∨ Q p) names cur srv) :
    Logs (Looks (OnHost mounts Q)) srv (walkLoop host names cur srv).2 := by
  induction names generalizing cur srv with
  | nil => exact .of_eq rfl
  | cons name names ih =>
    obtain ⟨hq, hrest⟩ := h
    have hreach : Logs (Looks (OnHost srv.world.mounts Q)) srv (reachable host (buildPath cur name) srv).2 :=
      logs_reachable host (by rw [hm]; exact hq)
    have hmounts := (mounts_of_core (core_reachable host (buildPath cur name) srv)).trans hm
    rw [hm] at hreach
    rw [walkLoop]
    generalize reachable host (buildPath cur name) srv = r at hreach hmounts hrest
    obtain ⟨_ | _, srv1⟩ := r
    · exact hreach
    dsimp only at hreach hmounts hrest ⊢
    have hdir : Logs (Looks (OnHost srv1.world.mounts Q)) srv1 (isDirectory host (buildPath cur name) srv1).2 :=
      logs_isDirectory host (by rw [hmounts]; exact hq)
    have hmounts' := (mounts_of_core (core_isDirectory host (buildPath cur name) srv1)).trans hmounts
    rw [hmounts] at hdir
    generalize isDirectory host (buildPath cur name) srv1 = r at hdir hmounts' hrest
    obtain ⟨dir, srv2⟩ := r
    have hstep : Logs (Looks (OnHost mounts Q)) srv (nextQidPath srv2).2 := (hreach.trans hdir).trans (.of_eq rfl)
    exact hstep.trans (ih hmounts' (hrest rfl))

@[simp]
theorem log_walkTo (fid newfid j : Nat) (qid : Qid) (cur : CStr) (srv : FsServer H) :
    (walkTo fid newfid j qid cur srv).world.log = srv.world.log := by
  rw [walkTo]
  dsimp only
  split
  · exact (log_capDeriveFid ..).trans (log_strdup ..)
  · exact log_strdup ..

theorem logs_styxfsWalkCb {Q : CStr → Prop} (newfid : Nat) (wname : List CStr) (h : ∀ i, fidLookup srv fid = some i →
      Passes host (fun p => IsMount srv.world.mounts p ∨ Q p) (wname.take 16)
        (snprintf (fidPath srv.world (srv.fids i))) srv) :
    Logs (Looks (OnHost srv.world.mounts Q)) srv (styxfsWalkCb host fid newfid wname srv).2 := by
  rw [styxfsWalkCb]
  split
  · exact .of_eq rfl
  rename_i i hi
  have hlog := logs_walkLoop rfl (h i hi)
  generalize walkLoop host (wname.take 16) (snprintf (fidPath srv.world (srv.fids i))) srv = r at hlog
  obtain ⟨⟨cur, _ | ⟨q, qids⟩⟩, srv1⟩ := r
  · exact hlog
  dsimp only at hlog ⊢
  split
  · exact hlog
  · rename_i j srv2 halloc
    obtain ⟨-, -, rfl, -⟩ := fidAlloc_eq_some halloc
    exact hlog.trans (.of_eq (log_walkTo ..))

theorem Passes.mono {Q R : CStr → Prop} (hQ : ∀ p, Q p → R p) {names : List CStr} {cur : CStr} {srv : FsServer H}
    (h : Passes host Q names cur srv) : Passes host R names cur srv := by
  induction names generalizing cur srv with
  | nil => exact trivial
  | cons name names ih => exact ⟨hQ _ h.1, fun hreach => ih (h.2 hreach)⟩

theorem passes_all {Q : CStr → Prop} (hQ : ∀ p, Q p) (names : List CStr) (cur : CStr) (srv : FsServer H) :
    Passes host Q names cur srv := by
  induction names generalizing cur srv with
  | nil => exact trivial
  | cons name names ih => exact ⟨hQ _, fun _ => ih ..⟩

/-! ### What changes something -/

/-- A call for a fid's path on the host. -/
def About (Q : CStr → Prop) (e : HostCall × Bool) : Prop := ∀ h, e.1.path = some h → Q h

theorem Looks.about {Q : CStr → Prop} {e : HostCall × Bool} (h : Looks Q e) : About Q e := h.2

theorem logs_styxfsWriteCb (fid offset count : Nat) (data : List UInt8) (srv : FsServer H) :
    Logs (About (IsFidHost srv fid)) srv (styxfsWriteCb host fid offset count data srv).2 := by
  rw [styxfsWriteCb]
  split
  · exact .of_eq rfl
  split
  · exact .of_eq rfl
  rename_i i hi
  dsimp only
  have hopen : ∀ append, Logs (About (IsFidHost srv fid)) srv
      (hostCall host (.openWrite (fidHost srv i) append) srv).2 :=
    fun append => .call fun h hh => ⟨i, hi, (Option.some.inj hh).symm⟩
  split
  · exact hopen _
  split
  · exact hopen _
  · exact (hopen _).trans (.call fun h hh => ⟨i, hi, (Option.some.inj hh).symm⟩)

theorem logs_styxfsRemoveCb (fid : Nat) (srv : FsServer H) :
    Logs (About (IsFidHost srv fid)) srv (styxfsRemoveCb host fid srv) := by
  rw [styxfsRemoveCb]
  split
  · exact .of_eq rfl
  rename_i i hi
  split
  · exact .of_eq rfl
  have hunlink : Logs (About (IsFidHost srv fid)) srv (hostCall host (.unlink (fidHost srv i)) srv).2 :=
    .call fun h hh => ⟨i, hi, (Option.some.inj hh).symm⟩
  refine Logs.trans ?_ (.of_eq (log_fidFreePath ..))
  split
  · exact hunlink.trans (.call fun h hh => ⟨i, hi, (Option.some.inj hh).symm⟩)
  · exact hunlink

theorem logs_styxfsWstatCb (fid : Nat) (dir : Dir) (srv : FsServer H) :
    Logs (About (IsFidHost srv fid)) srv (styxfsWstatCb host fid dir srv).2 := by
  rw [styxfsWstatCb]
  split
  · exact .of_eq rfl
  split
  · exact .of_eq rfl
  rename_i i hi
  dsimp only
  have hchmod : Logs (About (IsFidHost srv fid)) srv (chmodHost host (fidHost srv i) dir.mode srv).2 := by
    rw [chmodHost]
    split
    · exact .of_eq rfl
    · exact .call fun h hh => ⟨i, hi, (Option.some.inj hh).symm⟩
  generalize chmodHost host (fidHost srv i) dir.mode srv = r at hchmod
  obtain ⟨_ | _, srv1⟩ := r
  · exact hchmod
  dsimp only at hchmod ⊢
  split
  · exact hchmod
  · exact hchmod.trans (.call fun h hh => ⟨i, hi, (Option.some.inj hh).symm⟩)

/-- A directory entry by which nothing is to be changed. -/
def Dir.Same (dir : Dir) : Prop := dir.mode = 0xFFFFFFFF ∧ dir.mtime = 0xFFFFFFFF ∧ dir.atime = 0xFFFFFFFF

theorem log_styxfsWstatCb_same (fid : Nat) {dir : Dir} (h : dir.Same) (srv : FsServer H) :
    (styxfsWstatCb host fid dir srv).2.world.log = srv.world.log := by
  rw [styxfsWstatCb]
  split
  · rfl
  split
  · rfl
  dsimp only
  rw [chmodHost, if_pos h.1]
  dsimp only
  rw [if_pos h.2]

/-- What is at a name in a fid's directory. -/
def IsChildHost (srv : FsServer H) (fid : Nat) (name : CStr) (h : CStr) : Prop :=
  ∃ i, fidLookup srv fid = some i ∧ h = childHost srv i name

theorem logs_createHost (host : Host H) (path : CStr) (perm mode : Nat) (srv : FsServer H) :
    Logs (About (· = path)) srv (createHost host path perm mode srv).2 := by
  rw [createHost]
  dsimp only
  have hstat : Logs (About (· = path)) srv (hostCall host (.stat path) srv).2 :=
    .call fun h hh => (Option.some.inj hh).symm
  split
  · split
    · exact hstat
    split
    · exact hstat
    split
    · exact hstat
    · exact hstat
  · refine hstat.trans (.call fun h hh => ?_)
    rw [creating] at hh
    split at hh <;> exact (Option.some.inj hh).symm

theorem logs_styxfsCreateCb (fid : Nat) (name : CStr) (perm mode : Nat) (srv : FsServer H) :
    Logs (About (IsChildHost srv fid name)) srv (styxfsCreateCb host fid name perm mode srv).2 := by
  rw [styxfsCreateCb]
  split
  · exact .of_eq rfl
  split
  · exact .of_eq rfl
  split
  · exact .of_eq rfl
  rename_i i hi
  have hcreate := (logs_createHost host (childHost srv i name) perm mode srv).mono
    (Q := About (IsChildHost srv fid name)) fun e he h hh => ⟨i, hi, he h hh⟩
  generalize createHost host (childHost srv i name) perm mode srv = r at hcreate
  obtain ⟨_ | e, srv1⟩ := r
  · have hfirst : Logs (About (IsChildHost srv fid name)) srv srv1 := hcreate
    refine hfirst.trans (.of_eq ?_)
    refine (log_strdup ..).trans ?_
    split <;> rfl
  · exact hcreate

end WuBuOS.Styx
