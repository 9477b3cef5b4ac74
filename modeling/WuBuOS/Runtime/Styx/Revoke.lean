import WuBuOS.Runtime.Cap.Effects
import WuBuOS.Runtime.Styx.Modes

/-!
# Revocation

A fid's capability is kept in a place that it shares with every other fid of the same remainder.  The rights
that a capability is granted with do not allow anything to be derived from it, so a walk or a clone gets a
capability of its own, which knows nothing of the fid that it has been obtained from.  A client that revokes
a fid, and clones it then, can open what it has revoked (`minted_again`).

As long as no fid is put into a place that is taken, none is obtained from one that has been revoked, and
none is revoked while there are others with a capability that have been obtained from it, what has been
revoked stays so, and nothing else is touched (`revoked_for_good`).
-/

namespace WuBuOS.Styx

open Bytes Cap Runs
open Function (update update_of_ne update_self)

variable {tok : Token} {r r' : Registry} {audience : Option (List Int)}

variable {H : Type} {host : Host H} {creates : Bool} {srv srv' : FsServer H} {w w' w'' : FsWorld H} {buf : Buf}
  {size tag fid newfid i j n : Nat} {served : Served (FsWorld H)}

/-! ## Capabilities of their own -/

/-- The object is revoked together with what has been derived from it. -/
def eager (o : Object) : Bool := o.has flagEagerRevoke

theorem eager_ignoresLinks : IgnoresLinks eager := fun _ _ _ => rfl

/-- **Every capability is one of its own**: it is there, and not in two places. -/
structure Sole (w : FsWorld H) : Prop where
  there : ∀ k, (w.fidCaps k).isNull = false → w.reg.view eager (w.fidCaps k).idx = some false
  apart : ∀ k l, (w.fidCaps k).isNull = false → (w.fidCaps l).isNull = false →
    (w.fidCaps k).idx = (w.fidCaps l).idx → k = l

theorem idx_ne_zero (h : tok.isNull = false) : tok.idx ≠ 0 := by
  rintro h0
  rw [Token.isNull, h0] at h
  cases h

/-- The capabilities are as they were. -/
structure SameCaps (w w' : FsWorld H) : Prop where
  caps : w'.fidCaps = w.fidCaps
  view : ∀ i, i ≠ 0 → w'.reg.view eager i = w.reg.view eager i

/-- **One place is changed** at most. -/
structure Keeps (n : Nat) (w w' : FsWorld H) : Prop where
  sole : Sole w → Sole w'
  others : ∀ k, k ≠ n → w'.fidCaps k = w.fidCaps k

/-- **No capability is added.** -/
structure Shrinks (w w' : FsWorld H) : Prop where
  sole : Sole w → Sole w'
  caps : ∀ k, w'.fidCaps k = w.fidCaps k ∨ (w'.fidCaps k).isNull = true

theorem SameCaps.refl (w : FsWorld H) : SameCaps w w := ⟨rfl, fun _ _ => rfl⟩

theorem SameCaps.trans (h : SameCaps w w') (h' : SameCaps w' w'') : SameCaps w w'' :=
  ⟨h'.caps.trans h.caps, fun i hi => (h'.view i hi).trans (h.view i hi)⟩

theorem SameCaps.sole (h : SameCaps w w') (hs : Sole w) : Sole w' := by
  refine ⟨fun k hk => ?_, fun k l => ?_⟩
  · rw [h.caps] at hk ⊢
    rw [h.view _ (idx_ne_zero hk), hs.there k hk]
  · rw [h.caps]
    exact hs.apart k l

theorem SameCaps.keeps (h : SameCaps w w') (n : Nat) : Keeps n w w' :=
  ⟨h.sole, fun k _ => congrFun h.caps k⟩

theorem SameCaps.shrinks (h : SameCaps w w') : Shrinks w w' := ⟨h.sole, fun k => Or.inl (congrFun h.caps k)⟩

theorem Keeps.trans (h : Keeps n w w') (h' : Keeps n w' w'') : Keeps n w w'' :=
  ⟨h'.sole ∘ h.sole, fun k hk => (h'.others k hk).trans (h.others k hk)⟩

theorem sameCaps_of_eq (hcaps : w'.fidCaps = w.fidCaps) (hreg : w'.reg.ptrs = w.reg.ptrs) : SameCaps w w' :=
  ⟨hcaps, fun i _ => by rw [Registry.view, hreg, Registry.view]⟩

/-! ### Granting -/

theorem not_eager_newObject (kind : Nat) (rights : UInt64) (audience : Option (List Int)) (kindData : Nat)
    (ownerPid : Int) (parentIdx : Nat) :
    eager (newObject kind rights audience 0 kindData ownerPid parentIdx) = false := by
  rw [eager, Object.has, newObject]
  dsimp only
  split <;> decide

/-- **A capability that is created** is one of its own, wherever it is kept. -/
theorem keeps_create {kind kindData parentIdx slot : Nat} {rights : UInt64}
    {ownerPid : Int} (hr : ∀ i, i ≠ 0 → r.view eager i = w.reg.view eager i)
    (hcreate : wubuCapCreate kind rights audience 0 kindData ownerPid parentIdx r = (.ok (slot, tok), r'))
    (hcaps : w'.fidCaps = update w.fidCaps n tok) (hreg : w'.reg = r') : Keeps n w w' := by
  obtain ⟨res, r'', hres, ⟨rfl, -⟩ | ⟨slot', h0, hlt, hfree, rfl, hview⟩⟩ :=
    wubuCapCreate_cases eager_ignoresLinks kind rights audience 0 kindData ownerPid parentIdx r
  · cases hcreate.symm.trans hres
  cases hcreate.symm.trans hres
  have hidx : (tokenPack 1 slot (newObject kind rights audience 0 kindData ownerPid parentIdx).flags).idx = slot := by
    rw [tokenPack]
    exact Nat.mod_eq_of_lt (hlt.trans (by decide))
  -- nothing that is kept was in the slot
  have hfresh : ∀ k, Sole w → (w.fidCaps k).isNull = false → (w.fidCaps k).idx ≠ slot := by
    rintro k hs hk rfl
    have hthere := hs.there k hk
    rw [← hr _ h0, Registry.view_eq_none.2 hfree] at hthere
    cases hthere
  have hother : ∀ i, i ≠ 0 → i ≠ slot → w'.reg.view eager i = w.reg.view eager i := by
    intro i hi hne
    rw [hreg, hview, update_of_ne hne, wubuCapInit_view hi, hr i hi]
  refine ⟨fun hs => ⟨fun k hk => ?_, fun k l hk hl hkl => ?_⟩, fun k hk => ?_⟩
  · rw [hcaps] at hk ⊢
    by_cases hkn : k = n
    · rw [hkn, update_self, hidx, hreg, hview, update_self, not_eager_newObject]
    · rw [update_of_ne hkn] at hk ⊢
      rw [hother _ (idx_ne_zero hk) (hfresh k hs hk), hs.there k hk]
  · rw [hcaps] at hk hl hkl
    by_cases hkn : k = n <;> by_cases hln : l = n
    · rw [hkn, hln]
    · rw [hkn, update_self, update_of_ne hln, hidx] at hkl
      rw [update_of_ne hln] at hl
      exact absurd hkl.symm (hfresh l hs hl)
    · rw [hln, update_self, update_of_ne hkn, hidx] at hkl
      rw [update_of_ne hkn] at hk
      exact absurd hkl (hfresh k hs hk)
    · rw [update_of_ne hkn] at hk hkl
      rw [update_of_ne hln] at hl hkl
      exact hs.apart k l hk hl hkl
  · rw [hcaps, update_of_ne hk]

/-- What is not created changes nothing. -/
theorem sameCaps_create {kind kindData parentIdx : Nat} {rights : UInt64}
    {ownerPid : Int} {flags : UInt8} {e : CapError}
    (hr : ∀ i, i ≠ 0 → r.view eager i = w.reg.view eager i)
    (hcreate : wubuCapCreate kind rights audience flags kindData ownerPid parentIdx r = (.error e, r'))
    (hcaps : w'.fidCaps = w.fidCaps) (hreg : w'.reg = r') : SameCaps w w' := by
  obtain ⟨res, r'', hres, ⟨-, hview⟩ | ⟨slot', -, -, -, rfl, -⟩⟩ :=
    wubuCapCreate_cases eager_ignoresLinks kind rights audience flags kindData ownerPid parentIdx r
  · cases hcreate.symm.trans hres
    refine ⟨hcaps, fun i hi => ?_⟩
    rw [hreg, hview, wubuCapInit_view hi, hr i hi]
  · cases hcreate.symm.trans hres

/-- **A grant** changes the place of its fid. -/
theorem keeps_capGrant (fid : Nat) (srv : FsServer H) : Keeps (fid % maxFids) srv.world (capGrant fid srv).world := by
  have hinit : ∀ i, i ≠ 0 → (wubuCapInit srv.world.reg).view eager i = srv.world.reg.view eager i :=
    fun i hi => wubuCapInit_view hi
  rw [capGrant]
  split
  · rename_i hcreate
    exact (sameCaps_create hinit hcreate (by rfl) (by rfl)).keeps _
  · rename_i hcreate
    exact keeps_create hinit hcreate (by rfl) (by rfl)

/-- What is derived is kept in the place of the new fid, and so is what is granted instead. -/
theorem keeps_capDeriveFid (fid newfid : Nat) (srv : FsServer H) :
    Keeps (newfid % maxFids) srv.world (capDeriveFid fid newfid srv).world := by
  rw [capDeriveFid]
  split
  · exact keeps_capGrant newfid srv
  obtain ⟨e, herr⟩ | ⟨p, -, -, -, -, -, -, -, -, -, hderive⟩ :=
    wubuCapDerive_cases (srv.world.fidCaps (fid % maxFids)) srv.world.capSessionPid nodeRights
      (some (sessionAudience srv.world.capSessionPid)) 0 srv.world.reg
  · rw [herr]
    exact keeps_capGrant newfid srv
  · rw [hderive]
    split
    · rename_i hcreate
      refine Keeps.trans ?_ (keeps_capGrant newfid _)
      exact (sameCaps_create (fun _ _ => rfl) hcreate (by rfl) (by rfl)).keeps _
    · rename_i hcreate
      exact keeps_create (fun _ _ => rfl) hcreate (by rfl) (by rfl)

/-! ### Revoking -/

theorem view_eager_of_essence (h : r'.view Object.essence = r.view Object.essence) : r'.view eager = r.view eager := by
  have hview : ∀ r : Registry, r.view eager = fun i => (r.view Object.essence i).map eager := by
    intro r
    funext i
    rw [Registry.view, Registry.view, Option.map_map]
    congr 1
    funext o
    exact (has_essence o (by decide)).symm
  rw [hview, hview, h]

/-- **A revoke** does nothing, or revokes what is in the place of its fid, and empties that. -/
theorem capRevokeFid_world (fid : Nat) (srv : FsServer H) :
    ((srv.world.fidCaps (fid % maxFids)).isNull = true ∧ capRevokeFid fid srv = srv) ∨
      ((srv.world.fidCaps (fid % maxFids)).isNull = false ∧ (capRevokeFid fid srv).world = { srv.world with
          reg := (wubuCapRevoke (srv.world.fidCaps (fid % maxFids)) srv.world.reg).2
          fidCaps := update srv.world.fidCaps (fid % maxFids) tokenNull }) := by
  rw [capRevokeFid]
  split
  · rename_i hnull
    exact Or.inl ⟨hnull, rfl⟩
  · rename_i hnull
    exact Or.inr ⟨(Bool.not_eq_true _).mp hnull, rfl⟩

theorem isNull_capRevokeFid (fid : Nat) (srv : FsServer H) :
    ((capRevokeFid fid srv).world.fidCaps (fid % maxFids)).isNull = true := by
  obtain ⟨hnull, hsame⟩ | ⟨-, hworld⟩ := capRevokeFid_world fid srv
  · rw [hsame, hnull]
  · rw [hworld]
    dsimp only
    rw [update_self]
    rfl

/-- Nothing is kept in another place. -/
theorem Sole.empty (h : Sole w) (n : Nat) {reg : Registry} (hview : reg.view eager = w.reg.view eager) :
    Sole { w with reg := reg, fidCaps := update w.fidCaps n tokenNull } := by
  have hne : ∀ k, (update w.fidCaps n tokenNull k).isNull = false → k ≠ n := by
    rintro k hk rfl
    rw [update_self] at hk
    cases hk
  refine ⟨fun k hk => ?_, fun k l hk hl hkl => ?_⟩
  · have hkn := hne k hk
    dsimp only at hk ⊢
    rw [update_of_ne hkn] at hk ⊢
    rw [hview, h.there k hk]
  · have hkn := hne k hk
    have hln := hne l hl
    dsimp only at hk hl hkl
    rw [update_of_ne hkn] at hk hkl
    rw [update_of_ne hln] at hl hkl
    exact h.apart k l hk hl hkl

theorem keeps_capRevokeFid (fid : Nat) (srv : FsServer H) :
    Keeps (fid % maxFids) srv.world (capRevokeFid fid srv).world := by
  obtain ⟨-, hsame⟩ | ⟨-, hworld⟩ := capRevokeFid_world fid srv
  · rw [hsame]
    exact (SameCaps.refl _).keeps _
  · rw [hworld]
    have hview := view_eager_of_essence
      (wubuCapRevoke_essence (srv.world.fidCaps (fid % maxFids)) srv.world.reg)
    exact ⟨fun h => h.empty _ hview, fun k hk => update_of_ne hk ..⟩

theorem shrinks_capRevokeFid (fid : Nat) (srv : FsServer H) : Shrinks srv.world (capRevokeFid fid srv).world := by
  have hkeeps := keeps_capRevokeFid fid srv
  refine ⟨hkeeps.sole, fun k => ?_⟩
  by_cases hk : k = fid % maxFids
  · exact Or.inr (hk ▸ isNull_capRevokeFid fid srv)
  · exact Or.inl (hkeeps.others k hk)

/-- Revoking an object that is not eager leaves every other object as it is. -/
theorem wubuCapRevoke_ptrs (h : r.view eager tok.idx = some false)
    (hi : i ≠ tok.idx) : (wubuCapRevoke tok r).2.ptrs i = r.ptrs i := by
  obtain ⟨o, ho, heager⟩ := Registry.view_eq_some h
  rw [eager] at heager
  rw [wubuCapRevoke, ho]
  dsimp only
  split
  · rfl
  split
  · rfl
  split
  · rfl
  rw [heager]
  exact update_of_ne hi ..

theorem wubuCapResolve_congr {pid : Int} {required : UInt64}
    (h : r'.ptrs tok.idx = r.ptrs tok.idx) : wubuCapResolve pid tok required r' = wubuCapResolve pid tok required r := by
  rw [wubuCapResolve, wubuCapResolve, h]

/-- **A revoke is local**: a fid that has another place can be opened as before. -/
theorem capCheckOpen_capRevokeFid (hs : Sole srv.world) {g : Nat} (hne : g % maxFids ≠ fid % maxFids) (mode : Nat) :
    capCheckOpen g mode (capRevokeFid fid srv).world = capCheckOpen g mode srv.world := by
  obtain ⟨-, hsame⟩ | ⟨hf, hworld⟩ := capRevokeFid_world fid srv
  · rw [hsame]
  rw [hworld]
  have hcap : update srv.world.fidCaps (fid % maxFids) tokenNull (g % maxFids) =
      srv.world.fidCaps (g % maxFids) := update_of_ne hne ..
  simp only [capCheckOpen, hcap]
  cases hg : (srv.world.fidCaps (g % maxFids)).isNull with
  | true => rfl
  | false =>
    have hidx : (srv.world.fidCaps (g % maxFids)).idx ≠ (srv.world.fidCaps (fid % maxFids)).idx :=
      fun h => hne (hs.apart _ _ hg hf h)
    rw [wubuCapResolve_congr (wubuCapRevoke_ptrs (hs.there _ hf) hidx)]

/-- A fid without a capability cannot be opened. -/
theorem capCheckOpen_of_isNull {g : Nat} (henforce : w.capEnforce = true) (h : (w.fidCaps (g % maxFids)).isNull = true)
    (mode : Nat) : capCheckOpen g mode w = false := by
  simp [capCheckOpen, henforce, h]

/-! ## What the callbacks do -/

theorem sameCaps_of_core (h : srv'.core = srv.core) : SameCaps srv.world srv'.world := by
  have hcaps : srv'.world.fidCaps = srv.world.fidCaps := congrArg (fun s : FsServer Unit => s.world.fidCaps) h
  have hreg : srv'.world.reg = srv.world.reg := congrArg (fun s : FsServer Unit => s.world.reg) h
  exact sameCaps_of_eq hcaps (by rw [hreg])

theorem sameCaps_strdup (s : CStr) (srv : FsServer H) : SameCaps srv.world (strdup s srv).2.world := by
  rw [strdup, malloc]
  split
  · rename_i hres
    exact sameCaps_of_eq rfl (congrArg (fun r : Bool × Registry => r.2.ptrs) hres).symm
  · rename_i hres
    exact sameCaps_of_eq rfl (congrArg (fun r : Bool × Registry => r.2.ptrs) hres).symm

theorem sameCaps_fidFreePath (i : Nat) (srv : FsServer H) : SameCaps srv.world (fidFreePath i srv).world := by
  rw [fidFreePath]
  split
  · exact .refl _
  · exact sameCaps_of_eq rfl rfl

theorem sameCaps_styxfsOpenCb (fid mode : Nat) (srv : FsServer H) :
    SameCaps srv.world (styxfsOpenCb fid mode srv).2.world := by
  rw [styxfsOpenCb]
  split
  · exact sameCaps_of_eq rfl rfl
  split
  · exact .refl _
  · exact .refl _

theorem sameCaps_styxfsRemoveCb (fid : Nat) (srv : FsServer H) :
    SameCaps srv.world (styxfsRemoveCb host fid srv).world := by
  rw [styxfsRemoveCb]
  split
  · exact .refl _
  split
  · exact .refl _
  refine SameCaps.trans ?_ (sameCaps_fidFreePath ..)
  split
  · exact sameCaps_of_core rfl
  · exact sameCaps_of_core rfl

theorem sameCaps_styxfsCreateCb (fid : Nat) (name : CStr) (perm mode : Nat) (srv : FsServer H) :
    SameCaps srv.world (styxfsCreateCb host fid name perm mode srv).2.world := by
  rw [styxfsCreateCb]
  split
  · exact sameCaps_of_core rfl
  split
  · exact sameCaps_of_core rfl
  split
  · exact .refl _
  rename_i i _
  have hcreate := sameCaps_of_core (core_createHost host (childHost srv i name) perm mode srv)
  generalize createHost host (childHost srv i name) perm mode srv = r at hcreate
  obtain ⟨_ | e, s⟩ := r
  · refine hcreate.trans (SameCaps.trans ?_ (sameCaps_strdup _ _))
    split
    · exact .refl _
    · exact sameCaps_of_eq rfl rfl
  · exact hcreate

theorem shrinks_styxfsClunkCb (fid : Nat) (srv : FsServer H) : Shrinks srv.world (styxfsClunkCb fid srv).world := by
  have hrevoke := shrinks_capRevokeFid fid srv
  rw [styxfsClunkCb]
  split
  · exact hrevoke
  · rename_i i _
    have hfree := sameCaps_fidFreePath i (capRevokeFid fid srv)
    refine ⟨fun h => hfree.sole (hrevoke.sole h), fun k => ?_⟩
    rw [hfree.caps]
    exact hrevoke.caps k

/-- **An attach** grants a capability, if it is not refused. -/
theorem caps_styxfsAttachCb (fid : Nat) (aname : CStr) (srv : FsServer H) :
    Keeps (fid % maxFids) srv.world (styxfsAttachCb fid aname srv).2.world ∧
      (¬((attachName aname).head? = some slash ∧ HasMemory srv ∧ HasFree srv) →
        SameCaps srv.world (styxfsAttachCb fid aname srv).2.world) := by
  -- what is refused grants nothing
  have hboth : ∀ {w w' : FsWorld H} {P : Prop}, SameCaps w w' → Keeps (fid % maxFids) w w' ∧ (P → SameCaps w w') :=
    fun h => ⟨h.keeps _, fun _ => h⟩
  rw [styxfsAttachCb]
  split
  · exact hboth (sameCaps_of_core rfl)
  rename_i hname
  split
  · exact hboth (.refl _)
  rename_i i s halloc
  obtain ⟨hi, hfree, rfl, -⟩ := fidAlloc_eq_some halloc
  dsimp only
  have hmem : (strdup (trimSlashes (attachName aname)) (setFid srv i ⟨true, fid, 0, 0, 0, ⟨0, 0, 0⟩, 0⟩)).1 =
      (strdup root srv).1 := strdup_fst rfl
  have hdup := sameCaps_strdup (trimSlashes (attachName aname)) (setFid srv i ⟨true, fid, 0, 0, 0, ⟨0, 0, 0⟩, 0⟩)
  generalize strdup (trimSlashes (attachName aname)) (setFid srv i ⟨true, fid, 0, 0, 0, ⟨0, 0, 0⟩, 0⟩) = r
    at hmem hdup
  obtain ⟨p, s⟩ := r
  cases p with
  | zero =>
    have hfree := congrArg (SameCaps srv.world) (world_fidFree s fid)
    exact hboth (hfree.mpr hdup)
  | succ p =>
    have hgrant := keeps_capGrant fid (setFid s i { s.fids i with
      qid := ⟨0x80, 1, 1 + ((trimSlashes (attachName aname)).getLastD 0).toNat⟩, fileState := p + 1 })
    refine ⟨(hdup.keeps _).trans hgrant, fun hno => absurd ⟨not_not.1 hname, ?_, i, hi, hfree⟩ hno⟩
    exact fun h => absurd (hmem.trans h) (by simp)

theorem keeps_walkTo (fid newfid j : Nat) (qid : Qid) (cur : CStr) (srv : FsServer H) :
    Keeps (newfid % maxFids) srv.world (walkTo fid newfid j qid cur srv).world := by
  have hdup := sameCaps_strdup cur srv
  rw [walkTo]
  generalize strdup cur srv = r at hdup
  obtain ⟨p, s⟩ := r
  dsimp only
  generalize hset : setFid s j { s.fids j with qid := qid, fileState := p } = s'
  have hworld : s'.world = s.world := by
    rw [← hset]
    rfl
  rw [← hworld] at hdup
  split
  · exact (hdup.keeps _).trans (keeps_capDeriveFid ..)
  · exact hdup.keeps _

/-- **A walk** gets a capability, if it comes somewhere. -/
theorem caps_styxfsWalkCb (host : Host H) (newfid : Nat) (wname : List CStr) (hi : fidLookup srv fid = some i) :
    Keeps (newfid % maxFids) srv.world (styxfsWalkCb host fid newfid wname srv).2.world ∧
      (¬(Starts host srv i wname ∧ HasFree srv) →
        SameCaps srv.world (styxfsWalkCb host fid newfid wname srv).2.world) := by
  have hboth : ∀ {w w' : FsWorld H} {P : Prop}, SameCaps w w' →
      Keeps (newfid % maxFids) w w' ∧ (P → SameCaps w w') := fun h => ⟨h.keeps _, fun _ => h⟩
  have hstarts := starts_iff host srv i wname
  have hcore := core_walkLoop host (wname.take 16) (snprintf (fidPath srv.world (srv.fids i))) srv
  rw [styxfsWalkCb, hi]
  dsimp only
  generalize walkLoop host (wname.take 16) (snprintf (fidPath srv.world (srv.fids i))) srv = r at hstarts hcore
  obtain ⟨⟨cur, _ | ⟨q, qids⟩⟩, s⟩ := r
  · exact hboth (sameCaps_of_core hcore)
  have hwalk := sameCaps_of_core hcore
  dsimp only at hstarts hcore hwalk ⊢
  split
  · exact hboth hwalk
  rename_i j s' halloc
  obtain ⟨hj, hfree, rfl, -⟩ := fidAlloc_eq_some halloc
  exact ⟨(hwalk.keeps _).trans (keeps_walkTo fid newfid j _ cur (setFid s j ⟨true, newfid, 0, 0, 0, ⟨0, 0, 0⟩, 0⟩)),
    fun hno => absurd ⟨hstarts.2 (List.cons_ne_nil q qids), j, hj, tags_of_core hcore ▸ hfree⟩ hno⟩

theorem keeps_styxfsCapCloneCb (fid newfid : Nat) (srv : FsServer H) :
    Keeps (newfid % maxFids) srv.world (styxfsCapCloneCb fid newfid srv).world := by
  rw [styxfsCapCloneCb]
  split
  · exact keeps_capDeriveFid ..
  · exact (SameCaps.refl _).keeps _

theorem keeps_cloned {s : FsServer H} (h : Cloned (styxfsCallbacks host creates) srv fid newfid s) :
    Keeps (newfid % maxFids) srv.world s.world := by
  obtain ⟨i, j, s', hi, hnew, halloc, rfl⟩ := h
  obtain ⟨-, -, rfl, -⟩ := fidAlloc_eq_some halloc
  exact keeps_styxfsCapCloneCb fid newfid (setFid (setFid srv j ⟨true, newfid, 0, 0, 0, ⟨0, 0, 0⟩, 0⟩) j _)

/-- **Any other call** adds no capability. -/
theorem shrinks_effect {c : Invocation} (hc : c.Quiet) (hclone : ∀ fid newfid, c ≠ .clone fid newfid)
    (srv : FsServer H) : Shrinks srv.world ((styxfsCallbacks host creates).effect c srv).world := by
  cases c with
  | clone fid newfid => exact absurd rfl (hclone fid newfid)
  | attach | walk => exact hc.elim
  | «open» fid mode => exact (sameCaps_styxfsOpenCb fid mode srv).shrinks
  | read fid offset count => exact (sameCaps_of_core (core_styxfsReadCb fid offset count srv)).shrinks
  | write fid offset count data => exact (sameCaps_of_core (core_styxfsWriteCb fid offset count data srv)).shrinks
  | clunk fid => exact shrinks_styxfsClunkCb fid srv
  | remove fid => exact (sameCaps_styxfsRemoveCb fid srv).shrinks
  | stat fid => exact (sameCaps_of_core (core_styxfsStatCb fid srv)).shrinks
  | wstat fid dir => exact (sameCaps_of_core (core_styxfsWstatCb fid dir srv)).shrinks
  | auth | flush => exact (SameCaps.refl _).shrinks
  | create fid name perm mode =>
    cases creates with
    | false => exact (SameCaps.refl _).shrinks
    | true => exact (sameCaps_styxfsCreateCb fid name perm mode srv).shrinks

/-! ## Messages -/

/-- **A slot is taken** by a message, for this fid. -/
def Enters (fs : FileSystem H) (srv : FsServer H) (buf : Buf) (size fid : Nat) (type : TType) : Prop :=
  HasFree srv ∧ (Takes fs srv buf size fid type ∨ (type = .twalk ∧ get buf 15 2 = 0 ∧
    (fidLookup srv (get buf 7 4)).isSome ∧ fidLookup srv fid = none ∧ get buf 11 4 = fid))

theorem not_clone_of_asks {type : TType} {c : Invocation} (hwalk : type ≠ .twalk) (h : Asks srv buf size type c)
    (fid newfid : Nat) : c ≠ .clone fid newfid := by
  rintro rfl
  cases type <;> first | exact hwalk rfl | simp [Asks] at h

/-- **A message** takes a slot and gets a capability for it, or adds no capability. -/
theorem caps_serveType {type : TType}
    (h : serveType (styxfsCallbacks host creates) srv tag buf size type = some served) :
    (∃ fid, Enters (.styxfs host creates) srv buf size fid type ∧ Gains srv served.srv fid ∧
        Keeps (fid % maxFids) srv.world served.srv.world) ∨
      (Shrinks srv.world served.srv.world ∧ ((∀ i g, served.srv.tags i = some g → srv.tags i = some g) ∨
          (type = .tattach ∧ Swaps srv served.srv (get buf 7 4)))) := by
  by_cases hattach : type = .tattach
  · subst hattach
    have htags := attach_tags (.styxfs host creates) h
    rw [serveType] at h
    split at h
    · cases h
      exact Or.inr ⟨(SameCaps.refl _).shrinks, Or.inl fun _ _ => id⟩
    rename_i hsize
    cases h
    rw [serveAttach_srv] at htags ⊢
    obtain ⟨hkeeps, hsame⟩ := caps_styxfsAttachCb (get buf 7 4) (stringAt buf 15 maxFname size) srv
    obtain ⟨htakes, hg⟩ | ⟨hno, hcases⟩ := htags
    · exact Or.inl ⟨_, ⟨hasFree_of_gains hg, Or.inl htakes⟩, hg, hkeeps⟩
    · have hcaps := hsame fun hall => hno ⟨⟨by omega, ⟨hall.1, hall.2.1⟩, rfl⟩, hall.2.2⟩
      refine Or.inr ⟨hcaps.shrinks, ?_⟩
      obtain hsame | hswaps := hcases
      · exact Or.inl fun i g hi => hsame ▸ hi
      · exact Or.inr ⟨rfl, hswaps⟩
  by_cases hwalk : type = .twalk
  · subst hwalk
    obtain hsame | ⟨hzero, hclone⟩ | ⟨wname, hzero, hfid, hwname, hsrv⟩ := serveWalk_srv h
    · rw [hsame]
      exact Or.inr ⟨(SameCaps.refl _).shrinks, Or.inl fun _ _ => id⟩
    · obtain ⟨hnew, hg⟩ := gains_of_cloned (.styxfs host creates) hclone
      have hfid : (fidLookup srv (get buf 7 4)).isSome := by
        obtain ⟨i, -, -, hi, -⟩ := hclone
        rw [hi]
        rfl
      exact Or.inl ⟨_, ⟨hasFree_of_gains hg, Or.inr ⟨rfl, hzero, hfid, hnew, rfl⟩⟩, hg, keeps_cloned hclone⟩
    · obtain ⟨i, hi⟩ := Option.isSome_iff_exists.1 hfid
      rw [hsrv]
      obtain ⟨hkeeps, hsame⟩ := caps_styxfsWalkCb host (get buf 11 4) wname hi
      obtain ⟨hstarts, hg⟩ | ⟨hno, htags⟩ := styxfsWalkCb_tags host (get buf 11 4) wname hi
      · have htakes : Takes (.styxfs host creates) srv buf size (get buf 11 4) .twalk :=
          ⟨i, wname, hi, hzero, hwname, hstarts, rfl⟩
        exact Or.inl ⟨_, ⟨hasFree_of_gains hg, Or.inl htakes⟩, hg, hkeeps⟩
      · exact Or.inr ⟨(hsame hno).shrinks, Or.inl fun i g hg => htags ▸ hg⟩
  obtain ⟨s, hcall, hset⟩ := serveType_srv hwalk h
  refine Or.inr ⟨?_, Or.inl fun i g hi => ?_⟩
  · rw [world_settled hset]
    obtain ⟨-, rfl⟩ | ⟨c, hasks, -, rfl⟩ := hcall
    · exact (SameCaps.refl _).shrinks
    · exact shrinks_effect (quiet_of_asks hasks hattach hwalk) (not_clone_of_asks hwalk hasks) srv
  · obtain hsame | ⟨k, -, hfreed⟩ := other_tags (.styxfs host creates) hattach hwalk h
    · exact hsame ▸ hi
    · exact (tags_of_freed hfreed hi).2

/-- **A clunk** revokes, if its fid is in use, and does nothing else to what is checked. -/
theorem capCheckOpen_clunk (h : serveType (styxfsCallbacks host creates) srv tag buf size .tclunk = some served)
    (g mode : Nat) : served.srv = srv ∨ ((fidLookup srv (get buf 7 4)).isSome ∧
      capCheckOpen g mode served.srv.world = capCheckOpen g mode (capRevokeFid (get buf 7 4) srv).world) := by
  rw [serveType] at h
  cases h
  rw [serveClunk]
  split
  · exact Or.inl rfl
  rename_i i hi
  refine Or.inr ⟨by rw [hi]; rfl, ?_⟩
  show capCheckOpen g mode (fidFree (styxfsClunkCb (get buf 7 4) srv) (get buf 7 4)).world = _
  rw [world_fidFree, styxfsClunkCb]
  split
  · rfl
  rename_i k _
  rw [fidFreePath]
  split <;> rfl

/-! ## Where fids come from -/

/-- A server, and for every slot where its fid comes from: the introduction of the fid, that of the one that it
has been obtained from, and so on.  What has been revoked is kept as well. -/
structure Descent (H : Type) where
  srv : FsServer H
  line : Nat → List Nat
  born : Nat
  revoked : List Nat

/-- A message, or a call of `styxfs_cap_revoke_fid`. -/
inductive Action
  | serve (f : Frame)
  | revoke (fid : Nat)

/-- What the fid of a message comes from, if it is obtained from another. -/
def Descent.parents (l : Descent H) (buf : Buf) : List Nat :=
  if msgType buf = some .twalk then ((fidLookup l.srv (get buf 7 4)).map l.line).getD [] else []

/-- The introduction of a fid that is in use. -/
def Descent.own (l : Descent H) (fid : Nat) : List Nat :=
  ((fidLookup l.srv fid).map fun i => (l.line i).take 1).getD []

/-- The server after an action, and where its fids come from then. -/
def descentNext (host : Host H) (creates : Bool) (l : Descent H) : Action → Option (Descent H)
  | .serve f => (serveNext (styxfsCallbacks host creates) l.srv f).map fun srv =>
      { l with
        srv := srv
        line := slotsAfter l.srv srv (l.born :: l.parents f.buf) l.line
        born := l.born + 1 }
  | .revoke fid => some { l with srv := capRevokeFid fid l.srv, revoked := l.own fid ++ l.revoked }

/-- An action is taken. -/
def descentStep (host : Host H) (creates : Bool) (l : Descent H) (a : Action) (l' : Descent H) : Prop :=
  descentNext host creates l a = some l'

/-- At first no fid comes from anywhere. -/
def Descent.start (srv : FsServer H) : Descent H := ⟨srv, fun _ => [], 0, []⟩

/-- **A fid has been revoked**, or one that it has been obtained from. -/
def Descent.Tainted (l : Descent H) (i : Nat) : Prop := ∃ a ∈ l.line i, a ∈ l.revoked

/-- **Nothing is minted again, and nothing is shared.** -/
def Careful (host : Host H) (creates : Bool) (l : Descent H) : Action → Prop
  | .serve f => ∀ type fid, Dispatched l.srv f.buf f.inlen → msgType f.buf = some type →
      Enters (.styxfs host creates) l.srv f.buf (msgSize f.buf) fid type →
      (∀ i < maxFids, ∀ g, l.srv.tags i = some g → g % maxFids ≠ fid % maxFids) ∧
        (type = .twalk → ∀ i, fidLookup l.srv (get f.buf 7 4) = some i → ¬l.Tainted i)
  | .revoke fid => ∀ i < maxFids, ∀ g, l.srv.tags i = some g → g ≠ fid →
      g % maxFids ≠ fid % maxFids ∧
        ((∃ a ∈ l.own fid, a ∈ l.line i) → (l.srv.world.fidCaps (g % maxFids)).isNull = true)

/-- No two fids that are in use have one place. -/
def Server.Apart (srv : FsServer H) : Prop :=
  ∀ i j g g', i < maxFids → j < maxFids → srv.tags i = some g → srv.tags j = some g' →
    g % maxFids = g' % maxFids → i = j

/-- **What the actions keep.** -/
structure Descent.Sound (l : Descent H) : Prop where
  sole : Sole l.srv.world
  places : l.srv.Apart
  dry : ∀ i g, i < maxFids → l.srv.tags i = some g → l.Tainted i →
    (l.srv.world.fidCaps (g % maxFids)).isNull = true
  young : ∀ i g, l.srv.tags i = some g → ∀ a ∈ l.line i, a < l.born
  marked : ∀ a ∈ l.revoked, a < l.born

variable {l l' : Descent H} {a : Action} {f : Frame}

theorem Descent.mem_own (h : n ∈ l.own fid) : ∃ i, fidLookup l.srv fid = some i ∧ n ∈ l.line i := by
  rw [Descent.own] at h
  cases hi : fidLookup l.srv fid with
  | none =>
    rw [hi] at h
    cases h
  | some i =>
    rw [hi] at h
    exact ⟨i, rfl, List.mem_of_mem_take h⟩

theorem Descent.mem_parents (h : n ∈ l.parents buf) :
    msgType buf = some .twalk ∧ ∃ i, fidLookup l.srv (get buf 7 4) = some i ∧ n ∈ l.line i := by
  rw [Descent.parents] at h
  split at h
  · rename_i ht
    cases hi : fidLookup l.srv (get buf 7 4) with
    | none =>
      rw [hi] at h
      cases h
    | some i =>
      rw [hi] at h
      exact ⟨ht, i, rfl, h⟩
  · cases h

theorem Descent.sound_start {srv : FsServer H} (hfids : ∀ i, (srv.fids i).inUse = false)
    (hcaps : ∀ k, (srv.world.fidCaps k).isNull = true) : (Descent.start srv).Sound := by
  have htags : ∀ i g, srv.tags i ≠ some g := by
    intro i g hi
    rw [Server.tags, hfids i] at hi
    cases hi
  have hnull : ∀ k, (srv.world.fidCaps k).isNull ≠ false := fun k hk => by
    rw [hcaps k] at hk
    cases hk
  exact ⟨⟨fun k hk => absurd hk (hnull k), fun k _ hk => absurd hk (hnull k)⟩, fun i _ g _ _ _ hi => absurd hi (htags i g),
    fun i g _ hi => absurd hi (htags i g), fun i g hi => absurd hi (htags i g),
    by rintro _ ⟨⟩⟩

/-- **A revoke** leaves the fid without a capability, and every other as it is. -/
theorem Descent.Sound.revoke (h : l.Sound) (hcareful : Careful host creates l (.revoke fid)) :
    Descent.Sound { l with srv := capRevokeFid fid l.srv, revoked := l.own fid ++ l.revoked } := by
  have htags : (capRevokeFid fid l.srv).tags = l.srv.tags := tags_of_fids (fids_capRevokeFid ..)
  have hkeeps := keeps_capRevokeFid fid l.srv
  refine ⟨hkeeps.sole h.sole, ?_, fun i g hi hti => ?_, ?_, fun a ha => ?_⟩
  · rw [Server.Apart, htags]
    exact h.places
  · rintro ⟨a, hline, hrev⟩
    rw [htags] at hti
    by_cases hg : g = fid
    · exact hg ▸ isNull_capRevokeFid fid l.srv
    obtain ⟨hplace, hcap⟩ := hcareful i hi g hti hg
    rw [hkeeps.others _ hplace]
    obtain hown | hrev := List.mem_append.1 hrev
    · exact hcap ⟨a, hown, hline⟩
    · exact h.dry i g hi hti ⟨a, hline, hrev⟩
  · rw [htags]
    exact h.young
  · obtain hown | hrev := List.mem_append.1 ha
    · obtain ⟨i, hi, hline⟩ := mem_own hown
      exact h.young i fid (fidLookup_eq_some hi).2 a hline
    · exact h.marked a hrev

/-- **A message** leaves the fids that are in use without a capability if they are, and gives a new one a line of
its own. -/
theorem Descent.Sound.next (h : l.Sound) {srv' : FsServer H} {new : List Nat}
    (hsole : Sole srv'.world) (hplaces : srv'.Apart)
    (hold : ∀ i g, i < maxFids → srv'.tags i = some g → l.srv.tags i = some g →
      (l.srv.world.fidCaps (g % maxFids)).isNull = true → (srv'.world.fidCaps (g % maxFids)).isNull = true)
    (htags : ∀ i g, srv'.tags i = some g →
      (l.srv.tags i = none ∧ ∀ a ∈ new, a < l.born + 1 ∧ a ∉ l.revoked) ∨ l.srv.tags i = some g) :
    Descent.Sound { l with srv := srv', line := slotsAfter l.srv srv' new l.line, born := l.born + 1 } := by
  have hline : ∀ i g, srv'.tags i = some g →
      (slotsAfter l.srv srv' new l.line i = new ∧ ∀ a ∈ new, a < l.born + 1 ∧ a ∉ l.revoked) ∨
        (l.srv.tags i = some g ∧ slotsAfter l.srv srv' new l.line i = l.line i) := by
    intro i g hti
    obtain ⟨hnone, hnew⟩ | hsome := htags i g hti
    · exact Or.inl ⟨slotsAfter_of_none hnone (by rw [hti]; rfl), hnew⟩
    · exact Or.inr ⟨hsome, slotsAfter_of_isSome (by rw [hsome]; rfl)⟩
  refine ⟨hsole, hplaces, fun i g hi hti ⟨a, ha, hrev⟩ => ?_, fun i g hti a ha => ?_,
    fun a ha => Nat.lt_succ_of_lt (h.marked a ha)⟩
  · dsimp only at ha hrev hti
    obtain ⟨heq, hnew⟩ | ⟨hsome, heq⟩ := hline i g hti
    · exact absurd hrev (hnew a (heq ▸ ha)).2
    · exact hold i g hi hti hsome (h.dry i g hi hsome ⟨a, heq ▸ ha, hrev⟩)
  · dsimp only at ha hti
    obtain ⟨heq, hnew⟩ | ⟨hsome, heq⟩ := hline i g hti
    · exact (hnew a (heq ▸ ha)).1
    · exact Nat.lt_succ_of_lt (h.young i g hsome a (heq ▸ ha))

/-- A slot is taken. -/
theorem apart_of_gains (h : srv.Apart) (hg : Gains srv srv' fid)
    (hfree : ∀ i < maxFids, ∀ g, srv.tags i = some g → g % maxFids ≠ fid % maxFids) : srv'.Apart := by
  obtain ⟨k, -, -, htags⟩ := hg
  have hcases : ∀ i g, srv'.tags i = some g → (i = k ∧ g = fid) ∨ srv.tags i = some g := by
    intro i g hti
    rw [htags] at hti
    by_cases hik : i = k
    · rw [hik, update_self] at hti
      exact Or.inl ⟨hik, (Option.some.inj hti).symm⟩
    · rw [update_of_ne hik] at hti
      exact Or.inr hti
  intro i j g g' hi hj hti htj hmod
  obtain ⟨rfl, rfl⟩ | hoi := hcases i g hti <;> obtain ⟨rfl, rfl⟩ | hoj := hcases j g' htj
  · rfl
  · exact absurd hmod.symm (hfree j hj g' hoj)
  · exact absurd hmod (hfree i hi g hoi)
  · exact h i j g g' hi hj hoi hoj hmod

/-- A slot is taken for a fid that has one, and that is given back. -/
theorem apart_of_swaps (h : srv.Apart) (hs : Swaps srv srv' fid) : srv'.Apart := by
  obtain ⟨k, m, hm, -, hmt, htags⟩ := hs
  -- the fid of the slot that has been taken was in the other
  have hcases : ∀ i g, srv'.tags i = some g →
      (i = k ∧ g = fid ∧ srv.tags m = some fid) ∨ (i ≠ m ∧ srv.tags i = some g) := by
    intro i g hti
    rw [htags] at hti
    have him : i ≠ m := by
      rintro rfl
      rw [update_self] at hti
      cases hti
    rw [update_of_ne him] at hti
    by_cases hik : i = k
    · rw [hik, update_self] at hti
      rw [update_of_ne (hik ▸ him).symm] at hmt
      exact Or.inl ⟨hik, (Option.some.inj hti).symm, hmt⟩
    · rw [update_of_ne hik] at hti
      exact Or.inr ⟨him, hti⟩
  intro i j g g' hi hj hti htj hmod
  obtain ⟨rfl, rfl, hmt⟩ | ⟨him, hoi⟩ := hcases i g hti <;> obtain ⟨rfl, rfl, hmt'⟩ | ⟨hjm, hoj⟩ := hcases j g' htj
  · rfl
  · exact absurd (h m j g g' hm hj hmt hoj hmod).symm hjm
  · exact absurd (h i m g g' hi hm hoi hmt' hmod) him
  · exact h i j g g' hi hj hoi hoj hmod

/-- What is not added is not there. -/
theorem isNull_of_shrinks (h : Shrinks w w') {k : Nat} (hnull : (w.fidCaps k).isNull = true) :
    (w'.fidCaps k).isNull = true := by
  obtain hsame | hempty := h.caps k
  · rw [hsame, hnull]
  · exact hempty

/-- **A message** keeps all this. -/
theorem Descent.Sound.serve (h : l.Sound) (hcareful : Careful host creates l (.serve f))
    (hs : serveStep (styxfsCallbacks host creates) l.srv f srv') :
    Descent.Sound
      { l with
        srv := srv'
        line := slotsAfter l.srv srv' (l.born :: l.parents f.buf) l.line
        born := l.born + 1 } := by
  have hborn : l.born < l.born + 1 ∧ l.born ∉ l.revoked :=
    ⟨Nat.lt_succ_self _, fun hrev => lt_irrefl _ (h.marked _ hrev)⟩
  obtain ⟨rfl, -⟩ | ⟨type, served, hd, ht, hserve, rfl⟩ := serveStep_cases hs
  · exact h.next h.sole h.places (fun _ _ _ _ _ => id) fun _ _ hti => Or.inr hti
  obtain ⟨fid, hent, hg, hkeeps⟩ | ⟨hshrinks, hold | ⟨rfl, hswaps⟩⟩ := caps_serveType hserve
  · obtain ⟨hfree, hparent⟩ := hcareful type fid hd ht hent
    refine h.next (hkeeps.sole h.sole) (apart_of_gains h.places hg hfree) (fun i g hi _ hold hnull => ?_)
      fun i g hti => ?_
    · rw [hkeeps.others _ (hfree i hi g hold), hnull]
    obtain ⟨k, -, hnone, htags⟩ := hg
    by_cases hik : i = k
    · refine Or.inl ⟨hik ▸ hnone, fun a ha => ?_⟩
      obtain rfl | ha := List.mem_cons.1 ha
      · exact hborn
      obtain ⟨htwalk, m, hm, hline⟩ := mem_parents ha
      have hclean := hparent (Option.some.inj (ht.symm.trans htwalk)) m hm
      exact ⟨Nat.lt_succ_of_lt (h.young m _ (fidLookup_eq_some hm).2 a hline), fun hrev => hclean ⟨a, hline, hrev⟩⟩
    · rw [htags, update_of_ne hik] at hti
      exact Or.inr hti
  · refine h.next (hshrinks.sole h.sole) ?_ (fun _ _ _ _ _ => isNull_of_shrinks hshrinks) fun i g hti => Or.inr (hold i g hti)
    exact fun i j g g' hi hj hti htj => h.places i j g g' hi hj (hold i g hti) (hold j g' htj)
  · refine h.next (hshrinks.sole h.sole) (apart_of_swaps h.places hswaps)
      (fun _ _ _ _ _ => isNull_of_shrinks hshrinks) fun i g hti => ?_
    obtain ⟨k, m, -, hnone, -, htags⟩ := hswaps
    by_cases hik : i = k
    · refine Or.inl ⟨hik ▸ hnone, fun a ha => ?_⟩
      obtain rfl | ha := List.mem_cons.1 ha
      · exact hborn
      · cases ht.symm.trans (mem_parents ha).1
    · rw [htags] at hti
      have him : i ≠ m := by
        rintro rfl
        rw [update_self] at hti
        cases hti
      rw [update_of_ne him, update_of_ne hik] at hti
      exact Or.inr hti

/-! ## Runs -/

/-- The fid is revoked by an action, or clunked. -/
def Action.Ends (srv : FsServer H) (fid : Nat) : Action → Prop
  | .serve f => Clunks srv f fid
  | .revoke fid' => fid' = fid

theorem Descent.Sound.step (h : l.Sound) (hcareful : Careful host creates l a)
    (hstep : descentStep host creates l a l') : l'.Sound := by
  cases a with
  | serve f =>
    obtain ⟨srv', hs, rfl⟩ := Option.map_eq_some_iff.1 hstep
    exact h.serve hcareful hs
  | revoke fid =>
    cases hstep
    exact h.revoke hcareful

/-- **What ends a fid is local.** -/
theorem capCheckOpen_ends (h : l.Sound) (hcareful : Careful host creates l a)
    (hstep : descentStep host creates l a l') (hends : a.Ends l.srv fid) {g : Nat} (hg : g ≠ fid)
    (hin : (fidLookup l.srv g).isSome) (mode : Nat) :
    capCheckOpen g mode l'.srv.world = capCheckOpen g mode l.srv.world := by
  obtain ⟨i, hi⟩ := Option.isSome_iff_exists.1 hin
  obtain ⟨hlt, hti⟩ := fidLookup_eq_some hi
  cases a with
  | revoke fid' =>
    obtain rfl := hends
    cases hstep
    exact capCheckOpen_capRevokeFid h.sole (hcareful i hlt g hti hg).1 mode
  | serve f =>
    obtain ⟨hd, ht, rfl⟩ := hends
    obtain ⟨srv', hs, rfl⟩ := Option.map_eq_some_iff.1 hstep
    obtain ⟨rfl, -⟩ | ⟨type, served, -, ht', hserve, rfl⟩ := serveStep_cases hs
    · rfl
    cases ht.symm.trans ht'
    obtain hsame | ⟨hfid, hcheck⟩ := capCheckOpen_clunk hserve g mode
    · rw [hsame]
    · rw [hcheck]
      obtain ⟨k, hk⟩ := Option.isSome_iff_exists.1 hfid
      obtain ⟨hk', htk⟩ := fidLookup_eq_some hk
      refine capCheckOpen_capRevokeFid h.sole (fun hmod => hg ?_) mode
      obtain rfl := h.places i k g _ hlt hk' hti htk hmod
      exact Option.some.inj (hti.symm.trans htk)

variable {srv0 : FsServer H} {actions : List Action}

/-- **As long as nothing is minted again, and nothing is shared**, no fid that has been revoked, or obtained from
one, can be opened, and what is revoked or clunked changes nothing for any other. -/
theorem revoked_for_good (hfids : ∀ i, (srv0.fids i).inUse = false) (hcaps : ∀ k, (srv0.world.fidCaps k).isNull = true)
    (hrun : Run (guarded (Careful host creates) (descentStep host creates)) (.start srv0) actions l) :
    (l.srv.world.capEnforce = true → ∀ g i, fidLookup l.srv g = some i → l.Tainted i →
      ∀ mode, capCheckOpen g mode l.srv.world = false) ∧
    ∀ a l' fid, Careful host creates l a → descentStep host creates l a l' → a.Ends l.srv fid →
      ∀ g, g ≠ fid → (fidLookup l.srv g).isSome →
        ∀ mode, capCheckOpen g mode l'.srv.world = capCheckOpen g mode l.srv.world := by
  have h : l.Sound := hrun.invariant _ (fun _ _ _ hs h => h.step hs.1 hs.2) (Descent.sound_start hfids hcaps)
  refine ⟨fun henforce g i hi ht mode => ?_, fun a l' fid hcareful hstep hends g hg hin => ?_⟩
  · obtain ⟨hlt, hti⟩ := fidLookup_eq_some hi
    exact capCheckOpen_of_isNull henforce (h.dry i g hlt hti ht) mode
  · exact capCheckOpen_ends h hcareful hstep hends hg hin

/-- The fids that are in use, and where they come from. -/
def Descent.lines (l : Descent Unit) : List (Nat × List Nat) :=
  (List.range maxFids).filterMap fun i => (l.srv.tags i).map fun g => (g, l.line i)

theorem Descent.mem_lines {l : Descent Unit} {i g : Nat} (hi : i < maxFids) (hti : l.srv.tags i = some g) :
    (g, l.line i) ∈ l.lines :=
  List.mem_filterMap.2 ⟨i, List.mem_range.2 hi, by rw [hti, Option.map_some]⟩

/-- `Careful`, for the lines as they are listed. -/
def Descent.cautious (l : Descent Unit) : Action → Bool
  | .serve f => l.lines.all (fun p => p.1 % maxFids ≠ get f.buf 7 4 % maxFids ∨ msgType f.buf = some .twalk) &&
      l.lines.all (fun p => p.1 % maxFids ≠ get f.buf 11 4 % maxFids ∨ msgType f.buf ≠ some .twalk) && l.revoked.isEmpty
  | .revoke fid => l.lines.all fun p => p.1 = fid ∨ p.1 % maxFids ≠ fid % maxFids ∧
      ((∃ a ∈ l.own fid, a ∈ p.2) → (l.srv.world.fidCaps (p.1 % maxFids)).isNull = true)

theorem Descent.careful {l : Descent Unit} {a : Action} (h : l.cautious a = true) : Careful willing false l a := by
  cases a with
  | serve f =>
    simp only [cautious, Bool.and_eq_true, List.all_eq_true, decide_eq_true_eq, List.isEmpty_iff] at h
    obtain ⟨⟨hattach, hwalk⟩, hrevoked⟩ := h
    rintro type fid _ ht ⟨-, hent⟩
    refine ⟨fun i hi g hti => ?_, fun _ i _ => ?_⟩
    · have hmem := mem_lines hi hti
      obtain htakes | ⟨rfl, -, -, -, rfl⟩ := hent
      · cases type with
        | tattach => exact htakes.2.2 ▸ (hattach _ hmem).resolve_right fun hw => by cases ht.symm.trans hw
        | twalk =>
          obtain ⟨_, _, -, -, -, -, rfl⟩ := htakes
          exact (hwalk _ hmem).resolve_right fun hw => hw ht
        | _ => exact htakes.elim
      · exact (hwalk _ hmem).resolve_right fun hw => hw ht
    · rintro ⟨a, -, ha⟩
      rw [hrevoked] at ha
      exact absurd ha List.not_mem_nil
  | revoke fid =>
    simp only [cautious, List.all_eq_true, decide_eq_true_eq] at h
    exact fun i hi g hti hg => (h _ (mem_lines hi hti)).resolve_left hg

/-- A fid is attached, another is obtained from it, and that one is revoked. -/
theorem revoked_for_good_attached : ∃ l l', descentStep willing false l (.revoke 2) l' ∧ l.line 1 = [1, 0] ∧
    capCheckOpen 2 0 l.srv.world = true ∧ capCheckOpen 2 0 l'.srv.world = false ∧ capCheckOpen 1 0 l'.srv.world = true := by
  have hall : (replay (fun l a => Descent.cautious l a = true) (descentNext willing false) (.start exported)
      [.serve (Request.attach 1 1 0 root).frame, .serve (Request.walk 2 1 2 []).frame]).any (fun l =>
        l.cautious (.revoke 2) && l.line 1 == [1, 0] && l.own 2 == [1] && (fidLookup l.srv 1).isSome &&
          capCheckOpen 1 0 l.srv.world && capCheckOpen 2 0 l.srv.world &&
          (capRevokeFid 2 l.srv).world.capEnforce && fidLookup (capRevokeFid 2 l.srv) 2 == some 1) := by decide
  obtain ⟨l, hl, hres⟩ := (Option.any_eq_true _ _).1 hall
  simp only [Bool.and_eq_true, beq_iff_eq] at hres
  obtain ⟨⟨⟨⟨⟨⟨⟨hcautious, hline⟩, hown⟩, hin⟩, hopen₁⟩, hopen₂⟩, henforce⟩, hfid⟩ := hres
  have hrun : Run (guarded (Careful willing false) (descentStep willing false)) _ _ l :=
    (run_of_replay hl).mono fun _ _ _ h => ⟨Descent.careful h.1, h.2⟩
  have hcareful := Descent.careful hcautious
  have hlocal := (revoked_for_good (fun _ => rfl) (fun _ => rfl) hrun).2 _ _ 2 hcareful rfl rfl 1 (by decide) hin 0
  have hfinal := (revoked_for_good (fun _ => rfl) (fun _ => rfl) (hrun.append (.single ⟨hcareful, rfl⟩))).1 henforce 2 1
    hfid ⟨1, by rw [hline]; decide, by rw [hown]; exact List.mem_cons_self⟩ 0
  exact ⟨l, _, rfl, hline, hopen₂, hfinal, hlocal.trans hopen₁⟩

/-- Actions are taken one after the other. -/
def actAll (l : Descent Unit) (actions : List Action) : Option (Descent Unit) :=
  replay (fun _ _ => True) (descentNext willing false) l actions

theorem run_actAll {l l' : Descent Unit} {actions : List Action} (h : actAll l actions = some l') :
    Run (descentStep willing false) l actions l' := (run_of_replay h).mono fun _ _ _ hstep => hstep.2

/-- **A fid that has been revoked is opened all the same**, when it has been cloned; and a fid that is clunked
takes the capability of another with it. -/
theorem minted_again : (∃ l, Run (descentStep willing false) (.start exported)
        [.serve (Request.attach 1 1 0 root).frame, .revoke 1, .serve (Request.walk 2 1 2 []).frame] l ∧
      l.srv.world.capEnforce = true ∧ fidLookup l.srv 2 = some 1 ∧ l.Tainted 1 ∧
      capCheckOpen 2 0 l.srv.world = true) ∧
    ∃ l l', Run (descentStep willing false) (.start exported)
        [.serve (Request.attach 1 1 0 root).frame, .serve (Request.attach 2 129 0 root).frame] l ∧
      descentStep willing false l (.serve (Request.clunk 3 129).frame) l' ∧
      (fidLookup l'.srv 1).isSome ∧ capCheckOpen 1 0 l.srv.world = true ∧ capCheckOpen 1 0 l'.srv.world = false := by
  constructor
  · have hrun : (actAll (.start exported)
        [.serve (Request.attach 1 1 0 root).frame, .revoke 1, .serve (Request.walk 2 1 2 []).frame]).map
        (fun l => (l.srv.world.capEnforce, fidLookup l.srv 2, l.line 1, l.revoked, capCheckOpen 2 0 l.srv.world)) =
        some (true, some 1, [1, 0], [0], true) := by decide
    obtain ⟨l, hl, hres⟩ := Option.map_eq_some_iff.1 hrun
    simp only [Prod.mk.injEq] at hres
    obtain ⟨henforce, hfid, hline, hrevoked, hopen⟩ := hres
    refine ⟨l, run_actAll hl, henforce, hfid, ⟨0, ?_, ?_⟩, hopen⟩
    · rw [hline]
      decide
    · rw [hrevoked]
      decide
  · have hrun : (actAll (.start exported)
        [.serve (Request.attach 1 1 0 root).frame, .serve (Request.attach 2 129 0 root).frame]).bind
        (fun l => (descentNext willing false l (.serve (Request.clunk 3 129).frame)).map fun l' =>
          ((fidLookup l'.srv 1).isSome, capCheckOpen 1 0 l.srv.world, capCheckOpen 1 0 l'.srv.world)) =
        some (true, true, false) := by decide
    obtain ⟨l, hl, hres⟩ := Option.bind_eq_some_iff.1 hrun
    obtain ⟨l', hl', hres⟩ := Option.map_eq_some_iff.1 hres
    simp only [Prod.mk.injEq] at hres
    exact ⟨l, l', run_actAll hl, hl', hres⟩

end WuBuOS.Styx
