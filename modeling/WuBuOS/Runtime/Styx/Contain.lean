import WuBuOS.Runtime.Styx.Below
import WuBuOS.Runtime.Styx.Modes

/-!
# Containment

A path of the name space is put together from what clients send, and nobody looks at it: a component may be
`".."`, or may have slashes in it, and where nothing is mounted a path is one of the host.  So what the host
is asked for is below the source of a mount, and below what has been attached, as long as every path that the
host is asked for is covered by a mount and does not climb out of it (`stays_contained`), and not otherwise
(`climbed_out`).

What has been attached is kept beside the server, for every slot (`Rooted`).  That a path goes on from it is an
invariant (`Good`), so that only what is behind it has to be looked at.

A clone shares the path of its origin, and either of them gives it back.  Memory that has been given back is not
got again here, so what comes of a run that gives it back twice, or uses it afterwards, is not said; such a run
does not stay inside.
-/

namespace WuBuOS.Styx

open Bytes Cap Runs
open Function (update update_of_ne update_self update_idem update_eq_self)

variable {H : Type} {host : Host H} {creates : Bool} {srv srv' : FsServer H} {buf : Buf} {size tag fid i j : Nat}
  {served : Served (FsWorld H)} {A p : CStr} {roots : Nat → CStr}

/-! ## The files of the fids -/

/-- The path that a slot points to, if it is in use. -/
def Server.file (srv : FsServer H) (i : Nat) : Option Nat :=
  if (srv.fids i).inUse then some (srv.fids i).fileState else none

/-- What the paths of the fids are made of. -/
structure Files where
  heap : Nat → Option CStr
  brk : Nat
  file : Nat → Option Nat

/-- What a server has of it. -/
def Server.files (srv : FsServer H) : Files := ⟨srv.world.heap, srv.world.brk, srv.file⟩

/-- What has been attached is an absolute path, and a short one. -/
structure RootOk (A : CStr) : Prop where
  ne : A ≠ []
  fits : A.length < maxPath

/-- **The paths of the fids go on from what has been attached**, and there is room for more. -/
structure Good (F : Files) (roots : Nat → CStr) : Prop where
  brk : 0 < F.brk
  fresh : ∀ i q, F.file i = some q → q < F.brk
  root : ∀ i q, F.file i = some q → RootOk (roots i)
  path : ∀ i q p, F.file i = some q → q ≠ 0 → F.heap q = some p → Below (roots i) p

/-! ### What the callbacks do to them -/

theorem files_of_core {srv1 srv2 : FsServer H} (h : srv1.core = srv2.core) : srv1.files = srv2.files := by
  have hfids : srv1.fids = srv2.fids := congrArg (fun s : FsServer Unit => s.fids) h
  have hheap : srv1.world.heap = srv2.world.heap := congrArg (fun s : FsServer Unit => s.world.heap) h
  have hbrk : srv1.world.brk = srv2.world.brk := congrArg (fun s : FsServer Unit => s.world.brk) h
  have hfile : srv1.file = srv2.file := by
    funext i
    rw [Server.file, Server.file, hfids]
  rw [Server.files, Server.files, hheap, hbrk, hfile]

theorem files_capGrant (fid : Nat) (srv : FsServer H) : (capGrant fid srv).files = srv.files := by
  rw [capGrant]
  split <;> rfl

theorem files_capRevokeFid (fid : Nat) (srv : FsServer H) : (capRevokeFid fid srv).files = srv.files := by
  rw [capRevokeFid]
  split <;> rfl

theorem files_capDeriveFid (fid newfid : Nat) (srv : FsServer H) : (capDeriveFid fid newfid srv).files = srv.files := by
  rw [capDeriveFid]
  split
  · exact files_capGrant ..
  split
  · rw [files_capGrant]
    rfl
  · rfl

theorem file_setFid (srv : FsServer H) (i : Nat) (f : Fid) :
    (setFid srv i f).file = update srv.file i (if f.inUse then some f.fileState else none) := by
  funext j
  show (if (update srv.fids i f j).inUse then some (update srv.fids i f j).fileState else none) = _
  rcases eq_or_ne j i with rfl | hj
  · rw [update_self, update_self]
  · rw [update_of_ne hj, update_of_ne hj]
    rfl

/-- A slot that points where it did. -/
theorem files_setFid_same (srv : FsServer H) {f : Fid} (huse : f.inUse = (srv.fids i).inUse)
    (hfile : f.fileState = (srv.fids i).fileState) : (setFid srv i f).files = srv.files := by
  have h : (setFid srv i f).file = srv.file := by
    rw [file_setFid, huse, hfile]
    exact update_eq_self i srv.file
  rw [Server.files, h]
  rfl

/-! ### What keeps them so -/

/-- A slot that is not in use. -/
theorem Good.unset {F : Files} (h : Good F roots) (k : Nat) :
    Good { F with file := update F.file k none } roots := by
  have hold : ∀ i q, update F.file k none i = some q → F.file i = some q := by
    intro i q hi
    by_cases hik : i = k
    · rw [hik, update_self] at hi
      cases hi
    · rwa [update_of_ne hik] at hi
  exact ⟨h.brk, fun i q hi => h.fresh i q (hold i q hi), fun i q hi => h.root i q (hold i q hi),
    fun i q p hi => h.path i q p (hold i q hi)⟩

/-- A slot that points to such a path. -/
theorem Good.set {F : Files} (h : Good F roots) {k q : Nat} (hq : q < F.brk) (hA : RootOk A)
    (hpath : q ≠ 0 → ∀ p, F.heap q = some p → Below A p) :
    Good { F with file := update F.file k (some q) } (update roots k A) := by
  have hcases : ∀ i q', update F.file k (some q) i = some q' →
      (i = k ∧ q' = q) ∨ (i ≠ k ∧ F.file i = some q') := by
    intro i q' hi
    by_cases hik : i = k
    · rw [hik, update_self] at hi
      exact Or.inl ⟨hik, (Option.some.inj hi).symm⟩
    · rw [update_of_ne hik] at hi
      exact Or.inr ⟨hik, hi⟩
  refine ⟨h.brk, fun i q' hi => ?_, fun i q' hi => ?_, fun i q' p hi hq' hp => ?_⟩
  · obtain ⟨rfl, rfl⟩ | ⟨-, hold⟩ := hcases i q' hi
    · exact hq
    · exact h.fresh i q' hold
  · obtain ⟨rfl, rfl⟩ | ⟨hik, hold⟩ := hcases i q' hi
    · rwa [update_self]
    · rw [update_of_ne hik]
      exact h.root i q' hold
  · obtain ⟨rfl, rfl⟩ | ⟨hik, hold⟩ := hcases i q' hi
    · rw [update_self]
      exact hpath hq' p hp
    · rw [update_of_ne hik]
      exact h.path i q' p hold hq' hp

/-- A slot that points nowhere. -/
theorem Good.set_zero {F : Files} (h : Good F roots) (k : Nat) (hA : RootOk A) :
    Good { F with file := update F.file k (some 0) } (update roots k A) :=
  h.set h.brk hA fun hne => absurd rfl hne

/-- Memory that is given back. -/
theorem Good.free {F : Files} (h : Good F roots) (q : Nat) :
    Good { F with heap := update F.heap q none } roots := by
  refine ⟨h.brk, h.fresh, h.root, fun i q' p hi hq' hp => ?_⟩
  by_cases hqq : q' = q
  · rw [hqq] at hp
    dsimp only at hp
    rw [update_self] at hp
    cases hp
  · dsimp only at hp
    rw [update_of_ne hqq] at hp
    exact h.path i q' p hi hq' hp

/-- Memory that has been got, and that nothing points to yet. -/
theorem Good.store {F : Files} (h : Good F roots) (p : CStr) :
    Good { F with heap := update F.heap F.brk (some p), brk := F.brk + 1 } roots := by
  refine ⟨Nat.succ_pos _, fun i q hi => Nat.lt_succ_of_lt (h.fresh i q hi), h.root, fun i q' p' hi hq' hp => ?_⟩
  have hne : q' ≠ F.brk := (h.fresh i q' hi).ne
  dsimp only at hp
  rw [update_of_ne hne] at hp
  exact h.path i q' p' hi hq' hp

theorem good_strdup (h : Good srv.files roots) (p : CStr) : Good (strdup p srv).2.files roots := by
  rw [strdup]
  split
  · exact h
  · exact h.store p

/-- **A path is put into a slot**, if there is memory for it. -/
theorem Good.strdup (h : Good srv.files roots) {k : Nat} (hA : RootOk A)
    (hp : Below A p) {f : Fid} (huse : f.inUse = true) (hfile : f.fileState = (Styx.strdup p srv).1) :
    Good (setFid (Styx.strdup p srv).2 k f).files (update roots k A) := by
  have hset : (setFid (Styx.strdup p srv).2 k f).files = { (Styx.strdup p srv).2.files with
        file := update (Styx.strdup p srv).2.file k (some (Styx.strdup p srv).1) } := by
    rw [Server.files, file_setFid, huse, if_pos rfl, hfile]
    rfl
  rw [hset]
  rw [Styx.strdup]
  split
  · exact h.set_zero k hA
  · refine (h.store p).set (Nat.lt_succ_self _) hA fun _ p' hp' => ?_
    have : (update srv.world.heap srv.world.brk (some p)) srv.world.brk = some p' := hp'
    rw [update_self] at this
    exact Option.some.inj this ▸ hp

theorem file_of_inUse (h : (srv.fids i).inUse = true) : srv.file i = some (srv.fids i).fileState := by
  rw [Server.file, if_pos h]

theorem good_fidFreePath (h : Good srv.files roots) (i : Nat) : Good (fidFreePath i srv).files roots := by
  rw [fidFreePath]
  split
  · exact h
  · have hset : (setFid (freePath (srv.fids i).fileState srv) i { srv.fids i with fileState := 0 }).files =
        { srv.files with
          heap := update srv.world.heap (srv.fids i).fileState none
          file := update srv.file i (if (srv.fids i).inUse then some 0 else none) } := by
      rw [Server.files, file_setFid]
      rfl
    rw [hset]
    cases huse : (srv.fids i).inUse with
    | false => exact (h.free (srv.fids i).fileState).unset i
    | true =>
      have := (h.free (srv.fids i).fileState).set_zero i (h.root i _ (file_of_inUse huse))
      rwa [update_eq_self] at this

theorem good_fidFree (h : Good srv.files roots) (fid : Nat) : Good (fidFree srv fid).files roots := by
  rw [fidFree]
  split
  · exact h
  · rename_i i _
    have hset : (setFid srv i { srv.fids i with inUse := false }).files =
        { srv.files with file := update srv.file i none } := by
      rw [Server.files, file_setFid]
      rfl
    rw [hset]
    exact h.unset i

theorem good_styxfsClunkCb (h : Good srv.files roots) (fid : Nat) : Good (styxfsClunkCb fid srv).files roots := by
  rw [← files_capRevokeFid fid srv] at h
  rw [styxfsClunkCb]
  split
  · exact h
  · exact good_fidFreePath h _

theorem good_styxfsRemoveCb (h : Good srv.files roots) (fid : Nat) :
    Good (styxfsRemoveCb host fid srv).files roots := by
  rw [styxfsRemoveCb]
  split
  · exact h
  split
  · exact h
  refine good_fidFreePath ?_ _
  split <;> exact h

/-- The path of a slot is there: it has one, and it has not been given back. -/
def Stored (srv : FsServer H) (i : Nat) : Prop :=
  (srv.fids i).fileState ≠ 0 ∧ (srv.world.heap (srv.fids i).fileState).isSome

/-- A slot has a path, or stands for the root for want of memory, which then is below what has been attached. -/
def Held (srv : FsServer H) (roots : Nat → CStr) (i : Nat) : Prop :=
  Stored srv i ∨ ((srv.fids i).fileState = 0 ∧ Below (roots i) root)

/-- **The path of a slot can be asked for**: it is there, is covered, and does not climb out. -/
def Usable (srv : FsServer H) (roots : Nat → CStr) (i : Nat) : Prop :=
  Held srv roots i ∧ Covered srv.world.mounts (fidPath srv.world (srv.fids i)) ∧
    StaysBelow (roots i) (fidPath srv.world (srv.fids i))

theorem inUse_of_fidLookup (hi : fidLookup srv fid = some i) : (srv.fids i).inUse = true := by
  have htag := (fidLookup_eq_some hi).2
  rw [Server.tags] at htag
  split at htag
  · assumption
  · cases htag

theorem Good.rootOk (h : Good srv.files roots) (hi : fidLookup srv fid = some i) : RootOk (roots i) :=
  h.root i _ (file_of_inUse (inUse_of_fidLookup hi))

/-- **The path of a fid goes on** from what has been attached. -/
theorem Good.below (h : Good srv.files roots) (hi : fidLookup srv fid = some i) (hs : Held srv roots i) :
    Below (roots i) (fidPath srv.world (srv.fids i)) := by
  obtain ⟨hne, hsome⟩ | ⟨hzero, hroot⟩ := hs
  rotate_left
  · rwa [fidPath, if_pos hzero]
  obtain ⟨p, hp⟩ := Option.isSome_iff_exists.1 hsome
  rw [fidPath, if_neg hne, hp]
  exact h.path i _ p (file_of_inUse (inUse_of_fidLookup hi)) hne hp

/-! ### Slots that are taken -/

theorem tags_isSome_of_file {q : Nat} (h : srv.file i = some q) : (srv.tags i).isSome := by
  rw [Server.file] at h
  split at h
  · rename_i huse
    rw [Server.tags, if_pos huse]
    rfl
  · cases h

theorem Good.congr {F : Files} {roots' : Nat → CStr} (h : Good F roots)
    (heq : ∀ i q, F.file i = some q → roots' i = roots i) : Good F roots' :=
  ⟨h.brk, h.fresh, fun i q hi => heq i q hi ▸ h.root i q hi, fun i q p hi => heq i q hi ▸ h.path i q p hi⟩

/-- No slot has been taken. -/
theorem Good.kept (h : Good srv'.files roots) (hold : ∀ k, (srv'.tags k).isSome → (srv.tags k).isSome) :
    Good srv'.files (slotsAfter srv srv' A roots) := by
  refine h.congr fun i q hi => ?_
  rw [slotsAfter_of_isSome (hold i (tags_isSome_of_file hi))]

/-- One slot has been taken. -/
theorem Good.taken (h : Good srv'.files (update roots j A)) (hfree : srv.tags j = none)
    (hold : ∀ k ≠ j, (srv'.tags k).isSome → (srv.tags k).isSome) :
    Good srv'.files (slotsAfter srv srv' A roots) := by
  refine h.congr fun i q hi => ?_
  have hin := tags_isSome_of_file hi
  by_cases hij : i = j
  · rw [hij] at hin ⊢
    rw [slotsAfter_of_none hfree hin, update_self]
  · rw [slotsAfter_of_isSome (hold i hij hin), update_of_ne hij]

/-- **A clone** has the path of the slot that it has been made from. -/
theorem good_cloned (h : Good srv.files roots) {newfid : Nat} {s : FsServer H}
    (hc : Cloned (styxfsCallbacks host creates) srv fid newfid s) (hi : fidLookup srv fid = some i) :
    Good s.files (slotsAfter srv s (roots i) roots) := by
  obtain ⟨i', j, s', hi', -, halloc, rfl⟩ := hc
  cases hi.symm.trans hi'
  obtain ⟨-, hfree, rfl, htags⟩ := fidAlloc_eq_some halloc
  have hij : i ≠ j := by
    rintro rfl
    cases hfree.symm.trans (fidLookup_eq_some hi).2
  have hfid : (setFid srv j ⟨true, newfid, 0, 0, 0, ⟨0, 0, 0⟩, 0⟩).fids i = srv.fids i := update_of_ne hij ..
  have huse := inUse_of_fidLookup hi
  rw [hfid]
  show Good (styxfsCapCloneCb fid newfid _).files (slotsAfter srv (styxfsCapCloneCb fid newfid _) _ _)
  have hset : (setFid (setFid srv j ⟨true, newfid, 0, 0, 0, ⟨0, 0, 0⟩, 0⟩) j
      { srv.fids i with fid := newfid }).files =
      { srv.files with file := update srv.file j (some (srv.fids i).fileState) } := by
    rw [Server.files, file_setFid, file_setFid, update_idem, huse, if_pos rfl]
    rfl
  have hfile := file_of_inUse huse
  have hgood := h.set (k := j) (h.fresh i _ hfile) (h.root i _ hfile) fun hq p hp => h.path i _ p hfile hq hp
  have hclone : ∀ s1 : FsServer H, (styxfsCapCloneCb fid newfid s1).files = s1.files := by
    intro s1
    rw [styxfsCapCloneCb]
    split
    · exact files_capDeriveFid ..
    · rfl
  refine Good.taken (j := j) (by rw [hclone, hset]; exact hgood) hfree fun k hk hin => ?_
  rw [tags_styxfsCapCloneCb, tags_setFid, htags, update_of_ne hk, update_of_ne hk] at hin
  exact hin

/-- A slot that has just been taken points nowhere. -/
theorem good_fidAlloc (h : Good srv.files roots) (hA : RootOk A) {s : FsServer H}
    (halloc : fidAlloc srv fid = some (j, s)) :
    Good s.files (update roots j A) ∧ s.world = srv.world ∧ (s.fids j).inUse = true := by
  obtain ⟨-, -, rfl, -⟩ := fidAlloc_eq_some halloc
  have hset : (setFid srv j ⟨true, fid, 0, 0, 0, ⟨0, 0, 0⟩, 0⟩).files =
      { srv.files with file := update srv.file j (some 0) } := by
    rw [Server.files, file_setFid]
    rfl
  refine ⟨hset ▸ h.set_zero j hA, rfl, ?_⟩
  show (update srv.fids j _ j).inUse = true
  rw [update_self]

/-- **A path is put into a slot** that has just been taken. -/
theorem good_taken (h : Good srv.files roots) (hA : RootOk A) {s : FsServer H} (halloc : fidAlloc srv fid = some (j, s))
    (hp : Below A p) (f : Fid) (huse : f.inUse = ((strdup p s).2.fids j).inUse)
    (hfile : f.fileState = (strdup p s).1) :
    Good (setFid (strdup p s).2 j f).files (update roots j A) := by
  obtain ⟨hgood, -, hin⟩ := good_fidAlloc h hA halloc
  rw [fids_strdup, hin] at huse
  have := hgood.strdup (k := j) hA hp huse hfile
  rwa [update_idem] at this

/-- **What has been attached** is put into a slot. -/
theorem good_styxfsAttachCb (h : Good srv.files roots) {aname : CStr}
    (hA : (attachName aname).head? = some slash → RootOk (trimSlashes (attachName aname))) :
    Good (styxfsAttachCb fid aname srv).2.files
      (slotsAfter srv (styxfsAttachCb fid aname srv).2 (trimSlashes (attachName aname)) roots) := by
  rw [styxfsAttachCb]
  split
  · exact h.kept fun _ => id
  rename_i hname
  rw [not_not] at hname
  split
  · exact h.kept fun _ => id
  rename_i j s halloc
  obtain ⟨-, hfree, -, htags⟩ := fidAlloc_eq_some halloc
  obtain ⟨hgood, -, -⟩ := good_fidAlloc h (hA hname) halloc
  have hstored := good_taken h (hA hname) halloc (below_self _)
  have hdup := good_strdup hgood (trimSlashes (attachName aname))
  have htags' : ∀ k ≠ j, (strdup (trimSlashes (attachName aname)) s).2.tags k = srv.tags k := by
    intro k hk
    rw [tags_of_fids (fids_strdup ..), htags, update_of_ne hk]
  dsimp only
  generalize strdup (trimSlashes (attachName aname)) s = r at hstored hdup htags'
  obtain ⟨q, s'⟩ := r
  cases q with
  | zero =>
    refine (good_fidFree hdup fid).taken hfree fun k hk hin => ?_
    rw [← htags' k hk]
    obtain ⟨-, hsame⟩ | ⟨k', -, hfreed⟩ := tags_fidFree s' fid
    · exact hsame ▸ hin
    · obtain ⟨fid', hfid'⟩ := Option.isSome_iff_exists.1 hin
      rw [(tags_of_freed hfreed hfid').2]
      rfl
  | succ q =>
    have := hstored { s'.fids j with
      qid := ⟨0x80, 1, 1 + ((trimSlashes (attachName aname)).getLastD 0).toNat⟩, fileState := q + 1 } rfl rfl
    rw [← files_capGrant fid] at this
    refine this.taken hfree fun k hk hin => ?_
    rw [tags_of_fids (fids_capGrant ..), tags_setFid_same _ (by rfl) (by rfl)] at hin
    rw [← htags' k hk]
    exact hin

theorem good_of_core (h : Good srv.files roots) (hcore : srv'.core = srv.core) : Good srv'.files roots := by
  rwa [files_of_core hcore]

/-- A walk goes on from where it begins. -/
theorem below_walkLoop (hA : A.length < maxPath) {names : List CStr} {cur : CStr} {srv : FsServer H}
    (h : Below A cur) : Below A (walkLoop host names cur srv).1.1 := by
  induction names generalizing cur srv with
  | nil => exact h
  | cons name names ih =>
    rw [walkLoop]
    generalize reachable host (buildPath cur name) srv = r
    obtain ⟨_ | _, srv1⟩ := r
    · exact h
    dsimp only
    exact ih (below_buildPath hA h name)

/-- The path that a walk begins with. -/
theorem Good.walkStart (h : Good srv.files roots) (hi : fidLookup srv fid = some i) (hs : Held srv roots i) :
    Below (roots i) (snprintf (fidPath srv.world (srv.fids i))) := by
  obtain ⟨t, ht, hgoes⟩ := h.below hi hs
  rw [ht]
  exact below_snprintf (h.rootOk hi).fits hgoes

/-- **What a walk has come to** is put into a slot. -/
theorem good_styxfsWalkCb (h : Good srv.files roots) (hi : fidLookup srv fid = some i) (hs : Held srv roots i)
    {newfid : Nat} {wname : List CStr} :
    Good (styxfsWalkCb host fid newfid wname srv).2.files
      (slotsAfter srv (styxfsWalkCb host fid newfid wname srv).2 (roots i) roots) := by
  have hcore := core_walkLoop host (wname.take 16) (snprintf (fidPath srv.world (srv.fids i))) srv
  have hend : Below (roots i) (walkLoop host (wname.take 16) (snprintf (fidPath srv.world (srv.fids i))) srv).1.1 :=
    below_walkLoop (h.rootOk hi).fits (h.walkStart hi hs)
  rw [styxfsWalkCb, hi]
  dsimp only
  generalize walkLoop host (wname.take 16) (snprintf (fidPath srv.world (srv.fids i))) srv = r at hcore hend
  obtain ⟨⟨cur, _ | ⟨q, qids⟩⟩, s⟩ := r
  · exact (good_of_core h hcore).kept fun k hin => tags_of_core hcore ▸ hin
  dsimp only at hcore hend ⊢
  have hs := good_of_core h hcore
  split
  · exact hs.kept fun k hin => tags_of_core hcore ▸ hin
  · rename_i j s' halloc
    obtain ⟨-, hfree, -, htags⟩ := fidAlloc_eq_some halloc
    refine Good.taken (j := j) ?_ (tags_of_core hcore ▸ hfree) fun k hk hin => ?_
    rotate_left
    · rw [tags_walkTo, htags, update_of_ne hk, tags_of_core hcore] at hin
      exact hin
    have hstored := good_taken hs (h.rootOk hi) halloc (p := cur) hend
      { (strdup cur s').2.fids j with qid := (q :: qids).getLastD q, fileState := (strdup cur s').1 } rfl rfl
    rw [walkTo]
    dsimp only
    split
    · rw [files_capDeriveFid]
      exact hstored
    · exact hstored

/-- **What has been created** is put into its slot. -/
theorem good_styxfsCreateCb (h : Good srv.files roots) {name : CStr} {perm mode : Nat}
    (hs : srv.world.readonly = false → name ≠ [] → ∀ i, fidLookup srv fid = some i → Held srv roots i) :
    Good (styxfsCreateCb host fid name perm mode srv).2.files roots := by
  rw [styxfsCreateCb]
  split
  · exact h
  rename_i hro
  split
  · exact h
  rename_i hname
  split
  · exact h
  rename_i i hi
  have hpath := below_childPath (h.rootOk hi).fits (h.below hi (hs ((Bool.not_eq_true _).mp hro) hname i hi)) name
  have hcore := core_createHost host (childHost srv i name) perm mode srv
  generalize createHost host (childHost srv i name) perm mode srv = r at hcore
  obtain ⟨_ | e, s⟩ := r
  · have hs := good_of_core h hcore
    have hfids : s.fids = srv.fids := congrArg (fun t : FsServer Unit => t.fids) hcore
    dsimp only
    have hfree : ∀ s1 : FsServer H, s1 = (if (s.fids i).fileState = 0 then s else freePath (s.fids i).fileState s) →
        Good s1.files roots ∧ s1.fids = s.fids := by
      rintro s1 rfl
      split
      · exact ⟨hs, rfl⟩
      · exact ⟨hs.free _, rfl⟩
    obtain ⟨hs1, hfids1⟩ := hfree _ rfl
    generalize (if (s.fids i).fileState = 0 then s else freePath (s.fids i).fileState s) = s1 at hs1 hfids1
    have huse : ((strdup (childPath (fidPath srv.world (srv.fids i)) name) s1).2.fids i).inUse = true := by
      rw [fids_strdup, hfids1, hfids]
      exact inUse_of_fidLookup hi
    have hstored : ∀ f : Fid, f.inUse = true →
        f.fileState = (strdup (childPath (fidPath srv.world (srv.fids i)) name) s1).1 →
        Good (setFid (strdup (childPath (fidPath srv.world (srv.fids i)) name) s1).2 i f).files roots := by
      intro f hf hfile
      have := hs1.strdup (k := i) (h.rootOk hi) hpath hf hfile
      rwa [update_eq_self] at this
    exact hstored _ huse rfl
  · exact good_of_core h hcore

/-! ## What is asked for -/

/-- **A path of the host is contained**: it lies below the source of a mount, and it is that of a path which
lies below what has been attached, or of a name in a directory for which that is so. -/
def Contained (mounts : List Mount) (A h : CStr) : Prop :=
  (∃ m ∈ mounts, Within m.source h) ∧
    ((∃ p, h = pathToHost mounts p ∧ Within A p) ∨
      ∃ p name, h = snprintf (pathToHost mounts p ++ slash :: name) ∧ Within A (childPath p name))

theorem contained_of_below {mounts : List Mount} (hA : RootOk A) (hbelow : Below A p) (hp : Covered mounts p)
    (hs : StaysBelow A p) : Contained mounts A (pathToHost mounts p) :=
  ⟨hp.within, Or.inl ⟨p, rfl, hbelow.within hA.ne hs⟩⟩

/-- What the fid of a message has been attached to. -/
def rootOf (srv : FsServer H) (roots : Nat → CStr) (buf : Buf) : CStr :=
  roots ((fidLookup srv (get buf 7 4)).getD 0)

/-- **A call stays inside**: the paths that the host is asked for are covered and do not climb out, and no fid is
used, or given back, whose path has been given back. -/
def Inside (host : Host H) (creates : Bool) (srv : FsServer H) (roots : Nat → CStr) : Invocation → Prop
  | .walk fid _ wname => ∀ i, fidLookup srv fid = some i → Held srv roots i ∧
      Passes host (fun p => IsMount srv.world.mounts p ∨ (Covered srv.world.mounts p ∧ StaysBelow (roots i) p))
        (wname.take 16) (snprintf (fidPath srv.world (srv.fids i))) srv
  | .create fid name _ _ => creates = true → srv.world.readonly = false → name ≠ [] → ∀ i,
      fidLookup srv fid = some i → Held srv roots i ∧
        ChildCovered srv.world.mounts (fidPath srv.world (srv.fids i)) name ∧
        StaysBelow (roots i) (childPath (fidPath srv.world (srv.fids i)) name)
  | .read fid _ _ => ∀ i, fidLookup srv fid = some i → Usable srv roots i
  | .stat fid => ∀ i, fidLookup srv fid = some i → Usable srv roots i
  | .write fid _ _ _ => srv.world.readonly = false → ∀ i, fidLookup srv fid = some i → Usable srv roots i
  | .remove fid => srv.world.readonly = false → ∀ i, fidLookup srv fid = some i → Usable srv roots i
  | .wstat fid dir => srv.world.readonly = false → ¬dir.Same → ∀ i, fidLookup srv fid = some i → Usable srv roots i
  | .clunk fid => ∀ i, fidLookup srv fid = some i → (srv.fids i).fileState = 0 ∨ Stored srv i
  | _ => True

theorem rootOf_eq (hi : fidLookup srv (get buf 7 4) = some i) : rootOf srv roots buf = roots i := by
  rw [rootOf, hi, Option.getD_some]

theorem Good.fidHost (h : Good srv.files roots) (hi : fidLookup srv fid = some i) (hs : Usable srv roots i) :
    Contained srv.world.mounts (roots i) (fidHost srv i) :=
  contained_of_below (h.rootOk hi) (h.below hi hs.1) hs.2.1 hs.2.2

/-- A fid's path on the host is contained. -/
theorem about_contained (h : Good srv.files roots)
    (hs : ∀ i, fidLookup srv (get buf 7 4) = some i → Usable srv roots i) {e : HostCall × Bool}
    (he : About (IsFidHost srv (get buf 7 4)) e) :
    About (Contained srv.world.mounts (rootOf srv roots buf)) e := by
  intro path hpath
  obtain ⟨i, hi, rfl⟩ := he path hpath
  rw [rootOf_eq hi]
  exact h.fidHost hi (hs i hi)

/-- The paths of a walk go on from what has been attached. -/
theorem passes_below {Q : CStr → Prop} (hA : A.length < maxPath) {names : List CStr} {cur : CStr}
    {srv : FsServer H} (h : Passes host Q names cur srv) (hcur : Below A cur) :
    Passes host (fun p => Q p ∧ Below A p) names cur srv := by
  induction names generalizing cur srv with
  | nil => exact trivial
  | cons name names ih =>
    have hnext := below_buildPath hA hcur name
    exact ⟨⟨h.1, hnext⟩, fun hreach => ih (h.2 hreach) hnext⟩

/-- **What the host is asked for** is contained. -/
theorem logs_effect (h : Good srv.files roots) {type : TType} {c : Invocation} (hin : Inside host creates srv roots c)
    (hasks : Asks srv buf size type c) :
    Logs (About (Contained srv.world.mounts (rootOf srv roots buf))) srv
      ((styxfsCallbacks host creates).effect c srv) := by
  cases type with
  | tversion => exact hasks.elim
  | tauth | tflush =>
    obtain rfl := hasks
    exact .of_eq rfl
  | tattach =>
    obtain rfl := hasks
    exact .of_eq (log_styxfsAttachCb ..)
  | twalk =>
    obtain ⟨hfid, ⟨-, rfl⟩ | ⟨hzero, wname, hwname, rfl⟩⟩ := hasks
    · exact .of_eq (log_styxfsCapCloneCb ..)
    · obtain ⟨i, hi⟩ := Option.isSome_iff_exists.1 hfid
      obtain ⟨hs, hpasses⟩ := hin i hi
      have hlog := logs_styxfsWalkCb (get buf 11 4) wname fun i' hi' => by
        cases hi.symm.trans hi'
        have hboth := passes_below (h.rootOk hi).fits hpasses (h.walkStart hi hs)
        simp only [or_and_right] at hboth
        exact hboth.mono fun p hp => hp.imp_left And.left
      refine hlog.mono fun e he path hpath => ?_
      obtain ⟨p, ⟨⟨hp, hs⟩, hbelow⟩, rfl⟩ := he.2 path hpath
      rw [rootOf_eq hi]
      exact contained_of_below (h.rootOk hi) hbelow hp hs
  | topen =>
    obtain ⟨-, rfl⟩ := hasks
    exact .of_eq (log_styxfsOpenCb ..)
  | tcreate =>
    obtain ⟨name, p, -, -, rfl⟩ := hasks
    cases creates with
    | false => exact .of_eq rfl
    | true =>
      show Logs _ srv (styxfsCreateCb host _ name _ _ srv).2
      cases hro : srv.world.readonly with
      | true =>
        refine .of_eq ?_
        rw [styxfsCreateCb, if_pos hro]
        rfl
      | false =>
        by_cases hempty : name = []
        · refine .of_eq ?_
          rw [styxfsCreateCb, if_neg (by rw [hro]; exact Bool.false_ne_true), if_pos hempty]
          rfl
        refine (logs_styxfsCreateCb ..).mono fun e he path hpath => ?_
        obtain ⟨i, hi, rfl⟩ := he path hpath
        obtain ⟨hs, hchild, hstays⟩ := hin rfl hro hempty i hi
        have hbelow := below_childPath (h.rootOk hi).fits (h.below hi hs) name
        rw [rootOf_eq hi]
        exact ⟨hchild.within, Or.inr ⟨_, name, rfl, hbelow.within (h.rootOk hi).ne hstays⟩⟩
  | tread =>
    obtain ⟨-, rfl⟩ := hasks
    exact (logs_styxfsReadCb ..).mono fun e he => about_contained h hin he.about
  | twrite =>
    obtain ⟨-, -, rfl⟩ := hasks
    cases hro : srv.world.readonly with
    | true =>
      refine .of_eq ?_
      show (styxfsWriteCb host _ _ _ _ srv).2.world.log = _
      rw [styxfsWriteCb, if_pos hro]
    | false => exact (logs_styxfsWriteCb ..).mono fun e => about_contained h (hin hro)
  | tclunk =>
    obtain ⟨-, rfl⟩ := hasks
    exact .of_eq (log_styxfsClunkCb ..)
  | tremove =>
    obtain rfl := hasks
    cases hro : srv.world.readonly with
    | true =>
      refine .of_eq ?_
      show (styxfsRemoveCb host _ srv).world.log = _
      rw [styxfsRemoveCb]
      split
      · rfl
      · rw [if_pos hro]
    | false => exact (logs_styxfsRemoveCb ..).mono fun e => about_contained h (hin hro)
  | tstat =>
    obtain ⟨-, rfl⟩ := hasks
    exact (logs_styxfsStatCb ..).mono fun e he => about_contained h hin he.about
  | twstat =>
    obtain ⟨dir, -, rfl⟩ := hasks
    cases hro : srv.world.readonly with
    | true =>
      refine .of_eq ?_
      show (styxfsWstatCb host _ _ srv).2.world.log = _
      rw [styxfsWstatCb, if_pos hro]
    | false =>
      by_cases hsame : dir.Same
      · exact .of_eq (log_styxfsWstatCb_same _ hsame srv)
      · exact (logs_styxfsWstatCb ..).mono fun e => about_contained h (hin hro hsame)

/-! ## What a message leaves -/

/-- What is attached by a message, or what its fid has been attached to. -/
def newRoot (srv : FsServer H) (roots : Nat → CStr) (buf : Buf) : CStr :=
  if msgType buf = some .tattach then
    trimSlashes (attachName (stringAt buf 15 maxFname (msgSize buf)))
  else rootOf srv roots buf

theorem length_stringAt_lt (buf : Buf) (pos size : Nat) : (stringAt buf pos maxFname size).length < maxFname := by
  rw [stringAt, getstr]
  split
  · decide
  · have hlen := (List.takeWhile_sublist (fun c : UInt8 => decide (c ≠ 0))
      (l := slice buf (pos + 2) (min (min (get buf pos 2) (maxFname - 1)) (size - pos - 2)))).length_le
    rw [length_slice] at hlen
    have : 0 < maxFname := by decide
    simp only [Option.map_some, Option.getD_some]
    omega

theorem rootOk_attach {aname : CStr} (hlen : aname.length < maxFname)
    (hhead : (attachName aname).head? = some slash) : RootOk (trimSlashes (attachName aname)) := by
  have hname : (attachName aname).length < maxPath := by
    rw [attachName]
    split
    · decide
    · exact hlen.trans (by decide)
  obtain ⟨t, ht⟩ := List.head?_eq_some_iff.1 hhead
  rw [ht] at hname ⊢
  rw [trimSlashes]
  refine ⟨List.cons_ne_nil _ _, ?_⟩
  have := (List.dropWhile_sublist (fun c : UInt8 => c == slash) (l := t.reverse)).length_le
  rw [List.length_reverse] at this
  rw [List.length_cons, List.length_reverse]
  rw [List.length_cons] at hname
  omega

/-- **A call** leaves the paths so. -/
theorem good_effect (h : Good srv.files roots) {type : TType} (hattach : type ≠ .tattach) (hwalk : type ≠ .twalk)
    {c : Invocation} (hin : Inside host creates srv roots c) (hasks : Asks srv buf size type c) :
    Good ((styxfsCallbacks host creates).effect c srv).files roots := by
  cases type with
  | tversion => exact hasks.elim
  | tauth | tflush =>
    obtain rfl := hasks
    exact h
  | tattach => exact absurd rfl hattach
  | twalk => exact absurd rfl hwalk
  | topen =>
    obtain ⟨-, rfl⟩ := hasks
    show Good (styxfsOpenCb _ _ srv).2.files roots
    rw [styxfsOpenCb]
    split
    · exact h
    split
    · exact h
    · rwa [files_setFid_same srv (by rfl) (by rfl)]
  | tcreate =>
    obtain ⟨name, p, -, -, rfl⟩ := hasks
    cases creates with
    | false => exact h
    | true => exact good_styxfsCreateCb h fun hro hne i hi => (hin rfl hro hne i hi).1
  | tread =>
    obtain ⟨-, rfl⟩ := hasks
    exact good_of_core h (core_styxfsReadCb ..)
  | twrite =>
    obtain ⟨-, -, rfl⟩ := hasks
    exact good_of_core h (core_styxfsWriteCb ..)
  | tclunk =>
    obtain ⟨-, rfl⟩ := hasks
    exact good_styxfsClunkCb h _
  | tremove =>
    obtain rfl := hasks
    exact good_styxfsRemoveCb h _
  | tstat =>
    obtain ⟨-, rfl⟩ := hasks
    exact good_of_core h (core_styxfsStatCb ..)
  | twstat =>
    obtain ⟨dir, -, rfl⟩ := hasks
    exact good_of_core h (core_styxfsWstatCb ..)

/-- **What an arm does** leaves them so. -/
theorem good_settled (h : Good srv.files roots) {type : TType}
    (hset : Settled (styxfsCallbacks host creates) buf type srv srv') : Good srv'.files roots := by
  cases hset with
  | same => exact h
  | slot => rwa [files_setFid_same srv (by rfl) (by rfl)]
  | session => exact h
  | attach hcb => cases hcb
  | clunk => exact good_fidFree h _
  | remove => exact good_fidFree h _

/-! ## Messages -/

/-- **What the host is asked for** by a message is contained. -/
theorem logs_serveType (h : Good srv.files roots) {type : TType}
    (hin : ∀ c, Asks srv buf size type c → Inside host creates srv roots c) (hs : serveType (styxfsCallbacks host creates) srv tag buf size type = some served) :
    Logs (About (Contained srv.world.mounts (rootOf srv roots buf))) srv served.srv := by
  by_cases hwalk : type = .twalk
  · subst hwalk
    obtain hsame | ⟨-, i, j, s, hi, hnew, halloc, hsrv⟩ | ⟨wname, hzero, hfid, hwname, hsrv⟩ := serveWalk_srv hs
    · exact .of_eq (by rw [hsame])
    · obtain ⟨-, -, rfl, -⟩ := fidAlloc_eq_some halloc
      rw [hsrv]
      exact .of_eq (log_styxfsCapCloneCb ..)
    · rw [hsrv]
      have hasks : Asks srv buf size .twalk (.walk (get buf 7 4) (get buf 11 4) wname) :=
        ⟨hfid, Or.inr ⟨hzero, wname, hwname, rfl⟩⟩
      exact logs_effect h (hin _ hasks) hasks
  obtain ⟨s, hcall, hset⟩ := serveType_srv hwalk hs
  have hlog : Logs (About (Contained srv.world.mounts (rootOf srv roots buf))) srv s := by
    obtain ⟨-, rfl⟩ | ⟨c, hasks, -, rfl⟩ := hcall
    · exact .of_eq rfl
    · exact logs_effect h (hin c hasks) hasks
  exact hlog.trans (.of_eq (congrArg FsWorld.log (world_settled hset)))

/-- **A message** leaves the paths so. -/
theorem good_serveType (h : Good srv.files roots) {type : TType} (ht : msgType buf = some type)
    (hin : ∀ c, Asks srv buf (msgSize buf) type c → Inside host creates srv roots c)
    (hs : serveType (styxfsCallbacks host creates) srv tag buf (msgSize buf) type = some served) :
    Good served.srv.files (slotsAfter srv served.srv (newRoot srv roots buf) roots) := by
  by_cases hattach : type = .tattach
  · subst hattach
    rw [newRoot, if_pos ht]
    rw [serveType] at hs
    split at hs
    · cases hs
      exact h.kept fun _ => id
    cases hs
    rw [serveAttach_srv]
    exact good_styxfsAttachCb h (rootOk_attach (length_stringAt_lt ..))
  have hroot : newRoot srv roots buf = rootOf srv roots buf := by
    refine if_neg fun ht' => hattach ?_
    exact Option.some.inj (ht.symm.trans ht')
  rw [hroot]
  by_cases hwalk : type = .twalk
  · subst hwalk
    obtain hsame | ⟨-, hclone⟩ | ⟨wname, hzero, hfid, hwname, hsrv⟩ := serveWalk_srv hs
    · rw [hsame]
      exact h.kept fun _ => id
    · obtain ⟨i, j, s, hi, hrest⟩ := id hclone
      rw [rootOf_eq hi]
      exact good_cloned h hclone hi
    · obtain ⟨i, hi⟩ := Option.isSome_iff_exists.1 hfid
      rw [rootOf_eq hi, hsrv]
      exact good_styxfsWalkCb h hi (hin _ ⟨hfid, Or.inr ⟨hzero, wname, hwname, rfl⟩⟩ i hi).1
  obtain ⟨s, hcall, hset⟩ := serveType_srv hwalk hs
  have hgood : Good s.files roots := by
    obtain ⟨-, rfl⟩ | ⟨c, hasks, -, rfl⟩ := hcall
    · exact h
    · exact good_effect h hattach hwalk (hin c hasks) hasks
  refine (good_settled hgood hset).kept fun k hk => ?_
  obtain hsame | ⟨i, -, hfreed⟩ := other_tags (.styxfs host creates) hattach hwalk hs
  · exact hsame ▸ hk
  · obtain ⟨fid, hfid⟩ := Option.isSome_iff_exists.1 hk
    rw [(tags_of_freed hfreed hfid).2]
    rfl

/-! ## Runs -/

/-- A server, and what its slots have been attached to. -/
structure Rooted (H : Type) where
  srv : FsServer H
  roots : Nat → CStr

/-- The server when a message has been served, and what its slots have been attached to then. -/
def rootedNext (host : Host H) (creates : Bool) (r : Rooted H) (f : Frame) : Option (Rooted H) :=
  (serveNext (styxfsCallbacks host creates) r.srv f).map fun srv =>
    ⟨srv, slotsAfter r.srv srv (newRoot r.srv r.roots f.buf) r.roots⟩

/-- A message is served, and there is a reply. -/
def rootedStep (host : Host H) (creates : Bool) (r : Rooted H) (f : Frame) (r' : Rooted H) : Prop :=
  rootedNext host creates r f = some r'

/-- **The client stays inside** with a message: the call that it asks for does. -/
def StaysInside (host : Host H) (creates : Bool) (r : Rooted H) (f : Frame) : Prop :=
  ∀ type c, Dispatched r.srv f.buf f.inlen → msgType f.buf = some type → Asks r.srv f.buf (msgSize f.buf) type c →
    Inside host creates r.srv r.roots c

variable {r0 r r' : Rooted H} {f : Frame} {frames : List Frame}

theorem good_step (h : Good r.srv.files r.roots) (hin : StaysInside host creates r f)
    (hstep : rootedStep host creates r f r') : Good r'.srv.files r'.roots := by
  obtain ⟨srv', hs, rfl⟩ := Option.map_eq_some_iff.1 hstep
  obtain ⟨rfl, -⟩ | ⟨type, served, hd, ht, hserve, rfl⟩ := serveStep_cases hs
  · exact h.kept fun _ => id
  · exact good_serveType h ht (fun c => hin type c hd ht) hserve

theorem logs_step (h : Good r.srv.files r.roots) (hin : StaysInside host creates r f)
    (hstep : rootedStep host creates r f r') :
    Logs (About (Contained r.srv.world.mounts (rootOf r.srv r.roots f.buf))) r.srv r'.srv := by
  obtain ⟨srv', hs, rfl⟩ := Option.map_eq_some_iff.1 hstep
  obtain ⟨rfl, -⟩ | ⟨type, served, hd, ht, hserve, rfl⟩ := serveStep_cases hs
  · exact .of_eq rfl
  · exact logs_serveType h (fun c => hin type c hd ht) hserve

/-- **As long as the client stays inside**, every path that the host is asked for is below the source of a
mount, and below what has been attached. -/
theorem stays_contained (hfids : ∀ i, (r0.srv.fids i).inUse = false) (hbrk : 0 < r0.srv.world.brk)
    (hrun : Run (guarded (StaysInside host creates) (rootedStep host creates)) r0 frames r)
    (hin : StaysInside host creates r f) (hstep : rootedStep host creates r f r') :
    Logs (About (Contained r.srv.world.mounts (rootOf r.srv r.roots f.buf))) r.srv r'.srv := by
  have hfile : ∀ i q, r0.srv.file i ≠ some q := by
    intro i q hi
    rw [Server.file, hfids i] at hi
    cases hi
  have hstart : Good r0.srv.files r0.roots :=
    ⟨hbrk, fun i q hi => absurd hi (hfile i q), fun i q hi => absurd hi (hfile i q), fun i q p hi => absurd hi (hfile i q)⟩
  have hgood : Good r.srv.files r.roots :=
    hrun.invariant (fun r => Good r.srv.files r.roots) (fun _ _ _ hs h => good_step h hs.1 hs.2) hstart
  exact logs_step hgood hin hstep

/-- The root is attached, and a file in it is walked to. -/
theorem contained_walk : ∃ r r' : Rooted Unit, rootedStep willing false r (Request.walk 2 1 2 [text "f"]).frame r' ∧
      Logs (About (Contained r.srv.world.mounts (rootOf r.srv r.roots (Request.walk 2 1 2 [text "f"]).frame.buf)))
        r.srv r'.srv := by
  have hattach : (rootedNext willing false ⟨exported, fun _ => []⟩ (Request.attach 1 1 0 root).frame).map
      (fun r => (fidLookup r.srv 1, r.srv.world.mounts, r.roots 0,
        (rootedNext willing false r (Request.walk 2 1 2 [text "f"]).frame).isSome)) =
      some (some 0, exported.world.mounts, root, true) := by decide
  have hstored : (rootedNext willing false ⟨exported, fun _ => []⟩ (Request.attach 1 1 0 root).frame).map
      (fun r => (fidPath r.srv.world (r.srv.fids 0), (r.srv.fids 0).fileState, (r.srv.world.heap 1).isSome)) =
      some (root, 1, true) := by decide
  obtain ⟨r, hr, hres⟩ := Option.map_eq_some_iff.1 hattach
  rw [hr] at hstored
  have hres' := Option.some.inj hstored
  simp only [Prod.mk.injEq] at hres hres'
  obtain ⟨hfid, hmounts, hroot, hnext⟩ := hres
  obtain ⟨hpath, hfile, hheap⟩ := hres'
  obtain ⟨r', hr'⟩ := Option.isSome_iff_exists.1 hnext
  have hfirst : StaysInside willing false ⟨exported, fun _ => []⟩ (Request.attach 1 1 0 root).frame := by
    rintro type c - ht hasks
    obtain rfl : TType.tattach = type := Option.some.inj ht
    obtain rfl := hasks
    exact trivial
  have hsecond : StaysInside willing false r (Request.walk 2 1 2 [text "f"]).frame := by
    rintro type c - ht hasks
    obtain rfl : TType.twalk = type := Option.some.inj ht
    obtain ⟨-, ⟨hzero, -⟩ | ⟨-, wname, hwname, rfl⟩⟩ := hasks
    · exact absurd hzero (by decide)
    intro i hi
    have h1 : get (Request.walk 2 1 2 [text "f"]).frame.buf 7 4 = 1 := by decide
    have hnames : walkNames (Request.walk 2 1 2 [text "f"]).frame.buf
        (msgSize (Request.walk 2 1 2 [text "f"]).frame.buf) 17
        (min (get (Request.walk 2 1 2 [text "f"]).frame.buf 15 2) 16) = some [text "f"] := by decide
    rw [h1, hfid] at hi
    cases hi
    cases hnames.symm.trans hwname
    rw [Held, Stored, hfile, hpath, hmounts, hroot]
    have hcovered : Covered exported.world.mounts (buildPath (snprintf root) (text "f")) :=
      ⟨{ path := root, source := text "/srv" }, by decide, by decide, by decide⟩
    have hstays : Stays ((buildPath (snprintf root) (text "f")).drop root.length) := by decide
    exact ⟨Or.inl ⟨Nat.one_ne_zero, hheap⟩, Or.inr ⟨hcovered, hstays⟩, fun _ => trivial⟩
  exact ⟨r, r', hr', stays_contained (fun _ => rfl) Nat.one_pos (.single ⟨hfirst, hr⟩) hsecond hr'⟩

/-- **A client climbs out**: the root is attached, and what is above the source of its mount is asked for. -/
theorem climbed_out : ∃ srv srv',
    serveStep (styxfsCallbacks willing false) exported (Request.attach 1 1 0 root).frame srv ∧
    serveStep (styxfsCallbacks willing false) srv (Request.walk 2 1 2 [text ".."]).frame srv' ∧
    ∃ e ∈ srv'.world.log, ∃ h, e.1.path = some h ∧ ∀ m ∈ srv.world.mounts, ¬Within m.source h := by
  have hrun : ((serveNext (styxfsCallbacks willing false) exported (Request.attach 1 1 0 root).frame).bind fun srv =>
      (serveNext (styxfsCallbacks willing false) srv (Request.walk 2 1 2 [text ".."]).frame).map fun srv' =>
        (srv.world.mounts, srv'.world.log.map fun e => e.1.path)) =
      some (exported.world.mounts, [some (text "/srv/..")]) := by decide
  obtain ⟨srv, hsrv, hres⟩ := Option.bind_eq_some_iff.1 hrun
  obtain ⟨srv', hsrv', hlog⟩ := Option.map_eq_some_iff.1 hres
  simp only [Prod.mk.injEq] at hlog
  obtain ⟨hmounts, hlog⟩ := hlog
  obtain ⟨e, he, hpath⟩ := List.mem_map.mp (hlog ▸ List.mem_cons_self)
  refine ⟨srv, srv', hsrv, hsrv', e, he, _, hpath, fun m hm hw => ?_⟩
  rw [hmounts] at hm
  obtain rfl := List.mem_singleton.1 hm
  have : lexical (text "/srv/..") = [] := by decide
  obtain ⟨-, hsuffix⟩ := hw
  rw [this] at hsuffix
  have : lexical (text "/srv") ≠ [] := by decide
  exact this (List.suffix_nil.1 hsuffix)

end WuBuOS.Styx
