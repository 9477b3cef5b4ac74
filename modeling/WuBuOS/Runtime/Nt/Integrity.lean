import WuBuOS.Runtime.Nt.Bridge
import WuBuOS.Runtime.Nt.SdCheck

/-!
# Mandatory integrity

The reference monitor of `runtime/vsl/vsl_nt_cap.c`: the subject that a token handle stands for, and
`vsl_nt_cap_se_check`.  The monitor writes the label that holds by default to the view before it has the
descriptor read, and reading starts from a view of zeros, so that a descriptor that can be read takes the
label away (`sdRead_unlabelled`).

`integrity_iff` is when a subject below the label is refused a right to write.
-/

namespace WuBuOS.Nt

open Cap

/-! ## The subject -/

/-- `nt_token_entry_t`; of a group there are the SID and the attributes. -/
structure TokenEntry where
  luidLow : BitVec 64
  group : List (BitVec 32 × BitVec 32)
  impLevel : BitVec 32

/-- `g_nt_ctx`, the token entries in memory, and `g_vsl.current_pid`. -/
structure Globals where
  ntCtx : Option Bridge
  tokenAt : BitVec 64 → TokenEntry
  vslPid : BitVec 32

/-- `NT_PRIV_ATTR_ENABLED`. -/
abbrev privAttrEnabled : BitVec 32 := 0x00000002

abbrev lowMic : BitVec 32 := 0x1000

/-- `MEDIUM_MANDATORY_LEVEL`. -/
abbrev mediumMic : BitVec 32 := 0x2000
abbrev highMic : BitVec 32 := 0x3000

/-- `vsl_nt_handle_to_data`. -/
def handleToData (ctx : Option Bridge) (ntHandle : BitVec 32) : Option (BitVec 64) :=
  ctx.bind fun b => (capIndexOf b ntHandle).map fun i => (b.handleTable i).data

/-- `vsl_nt_token_from_handle`. -/
def tokenFromHandle (g : Globals) (h : BitVec 32) : Option TokenEntry :=
  ((handleToData g.ntCtx h).filter (· ≠ 0)).map g.tokenAt

/-- The entry that `vsl_nt_cap_token_sidset` finds for a handle. -/
def tokenOf (g : Globals) (b : Bridge) (tokenHandle : BitVec 32) : Option TokenEntry :=
  match capIndexOf b tokenHandle with
  | none => none
  | some i => if (b.handleTable i).type = .token then tokenFromHandle g tokenHandle else none

/-- A group of the token, if it is enabled. -/
def addGroup (out : Sidset) (entry : BitVec 32 × BitVec 32) : Sidset :=
  if entry.2 &&& privAttrEnabled ≠ 0 then out.add entry.1 else out

/-- `vsl_nt_cap_token_sidset`. -/
def capTokenSidset (g : Globals) (b : Bridge) (tokenHandle : BitVec 32) : Sidset :=
  let out : Sidset := match tokenOf g b tokenHandle with
    | some t =>
      let mic := if t.impLevel ≤ 0 then highMic else if 3 ≤ t.impLevel then lowMic else mediumMic
      t.group.foldl addGroup ⟨t.luidLow.setWidth 32, mic, []⟩
    | none => ⟨b.currentPid, mediumMic, []⟩
  let ownerSid := if out.ownerSid = 0 then g.vslPid else out.ownerSid
  { out with ownerSid := ownerSid ||| 1 }

/-! ## The monitor -/

def seHandleIsValid (b : Bridge) (tokenHandle : BitVec 32) : Bool :=
  tokenHandle != 0 && (capIndexOf b tokenHandle).isSome

def capHandleIsBound (b : Bridge) (ntHandle : BitVec 32) : Bool :=
  match capIndexOf b ntHandle with
  | none => false
  | some i => (b.handleTable i).capBacked

def capGrantedMask (b : Bridge) (ntHandle : BitVec 32) : Mask :=
  if ¬capHandleIsBound b ntHandle then 0xFFFFFFFF
  else
    match capIndexOf b ntHandle with
    | none => 0
    | some i =>
      let object := b.capHt.bind fun t => wubuCapHandleResolveBySlot t b.pid (b.handleTable i).capSlot 0 b.reg
      if object.isNone then 0 else (b.handleTable i).capRights

/-- The view that `vsl_nt_cap_se_check` starts with. -/
def defaultView : SdView := { zeroView with daclPresent := false, noWriteUp := true, labelMic := mediumMic }

/-- What it goes by; `none` where the descriptor cannot be read. -/
def viewOf (sd : Option (Nat → UInt8)) : Option SdView :=
  match sd with
  | none => some defaultView
  | some _ => sdRead sd

/-- `vsl_nt_cap_se_check`; the status, and what is stored as granted. -/
def capSeCheck (g : Globals) (b : Bridge) (tokenHandle : BitVec 32) (sd : Option (Nat → UInt8))
    (type : ObjectType) (desired : Mask) : BitVec 32 × Mask :=
  if ¬seHandleIsValid b tokenHandle then (statusInvalidHandle, 0)
  else
    let subj := capTokenSidset g b tokenHandle
    match viewOf sd with
    | none => (statusInvalidParameter, 0)
    | some view =>
      let r := accessCheck (some view) (some subj) type desired
      if r.status ≠ statusSuccess then (statusAccessDenied, 0)
      else if capHandleIsBound b tokenHandle then
        let granted := r.granted &&& capGrantedMask b tokenHandle
        if granted &&& desired ≠ desired then (statusAccessDenied, 0) else (statusSuccess, granted)
      else (statusSuccess, r.granted)

/-! ## What stops a request -/

variable {g : Globals} {b : Bridge} {tokenHandle : BitVec 32} {sd : Option (Nat → UInt8)} {type : ObjectType}
  {desired want : Mask} {view : SdView} {subject : Sidset} {mem : Nat → UInt8}

/-- The list of the descriptor refuses the rights. -/
def ListRefuses (mem : Nat → UInt8) (subject : Sidset) (want : Mask) : Prop :=
  ∃ view, sdRead (some mem) = some view ∧ (daclAllows (some view.daclView) subject want).1 = false

/-- What the handle was granted does not cover the request. -/
def CeilingRefuses (b : Bridge) (tokenHandle : BitVec 32) (want desired : Mask) : Prop :=
  capHandleIsBound b tokenHandle = true ∧ want &&& capGrantedMask b tokenHandle &&& desired ≠ desired

/-- No descriptor is read, its list refuses the rights, or the handle does. -/
def Stopped (g : Globals) (b : Bridge) (tokenHandle : BitVec 32) (sd : Option (Nat → UInt8))
    (type : ObjectType) (desired : Mask) : Prop :=
  (∀ mem, sd = some mem → sdRead (some mem) = none ∨
    ListRefuses mem (capTokenSidset g b tokenHandle) (expandGeneric type desired)) ∨
  CeilingRefuses b tokenHandle (expandGeneric type desired) desired

theorem denied_ne_success : statusAccessDenied ≠ statusSuccess := by decide

/-- **A descriptor that can be read has no label.** -/
theorem sdRead_unlabelled (h : sdRead (some mem) = some view) : view.noWriteUp = false := by
  unfold sdRead at h
  dsimp only at h
  split at h
  · cases h
  split at h
  · cases h; rfl
  split at h
  · cases h; rfl
  split at h
  · cases h
  · cases h; rfl

/-- What a list allows is granted in full. -/
theorem daclAllows_granted {dacl : Option DaclView} (h : (daclAllows dacl subject want).1 = true) :
    (daclAllows dacl subject want).2 = want := by
  unfold daclAllows at h ⊢
  cases dacl with
  | none => rfl
  | some dacl =>
    dsimp only at h ⊢
    split at h
    · rw [if_pos ‹_›]
    · rw [if_neg ‹_›]
      generalize dacl.aces.foldl (evalAce subject want) (false, 0) = st at h ⊢
      split at h
      · cases h
      · rw [if_neg ‹_›]
        exact of_decide_eq_true h

theorem accessCheck_granted (h : (accessCheck (some view) (some subject) type desired).status = statusSuccess) :
    (accessCheck (some view) (some subject) type desired).granted = expandGeneric type desired := by
  unfold accessCheck at h ⊢
  dsimp only at h ⊢
  split at h
  · cases h
  · rename_i hok
    split at h
    · cases h
    · rw [if_neg hok, if_neg ‹_›]
      exact daclAllows_granted (not_not.1 hok)

/-- The label that holds by default refuses a write from below. -/
theorem default_refuses (hm : subject.mic < mediumMic) (hw : expandGeneric type desired &&& rightWriteAny ≠ 0) :
    (accessCheck (some defaultView) (some subject) type desired).status ≠ statusSuccess := by
  have hmic : ¬micAllowsWrite subject.mic defaultView.labelMic defaultView.noWriteUp = true := by
    have hlt : subject.mic.toNat < mediumMic.toNat := hm
    have hno : decide (mediumMic ≤ subject.mic) = false := decide_eq_false fun hle => by
      have hle : mediumMic.toNat ≤ subject.mic.toNat := hle
      omega
    exact fun h => Bool.false_ne_true (hno.symm.trans h)
  have hok : (daclAllows (some defaultView.daclView) subject (expandGeneric type desired)).1 = true := rfl
  unfold accessCheck
  dsimp only
  rw [if_neg (not_not.2 hok), if_pos ⟨hw, hmic⟩]
  exact denied_ne_success

/-- What the monitor does once it has a view. -/
theorem seCheck_success_iff (hv : seHandleIsValid b tokenHandle = true) (hview : viewOf sd = some view) :
    (capSeCheck g b tokenHandle sd type desired).1 = statusSuccess ↔
      (accessCheck (some view) (some (capTokenSidset g b tokenHandle)) type desired).status = statusSuccess ∧
        ¬CeilingRefuses b tokenHandle (expandGeneric type desired) desired := by
  unfold capSeCheck CeilingRefuses
  rw [if_neg (not_not.2 hv), hview]
  dsimp only
  by_cases hs : (accessCheck (some view) (some (capTokenSidset g b tokenHandle)) type desired).status = statusSuccess
  · rw [if_neg (not_not.2 hs), accessCheck_granted hs]
    by_cases hb : capHandleIsBound b tokenHandle = true
    · rw [if_pos hb]
      split
      · rename_i hno
        exact ⟨fun he => absurd he denied_ne_success, fun h => absurd ⟨hb, hno⟩ h.2⟩
      · rename_i hyes
        exact ⟨fun _ => ⟨hs, fun h => hyes h.2⟩, fun _ => rfl⟩
    · rw [if_neg hb]
      exact ⟨fun _ => ⟨hs, fun h => hb h.1⟩, fun _ => rfl⟩
  · rw [if_pos hs]
    exact ⟨fun he => absurd he denied_ne_success, fun h => absurd h.1 hs⟩

/-- **When a subject below the label is refused a right to write**: if no descriptor takes the label away,
or something else refuses. -/
theorem integrity_iff (hv : seHandleIsValid b tokenHandle = true)
    (hm : (capTokenSidset g b tokenHandle).mic < mediumMic)
    (hw : expandGeneric type desired &&& rightWriteAny ≠ 0) :
    (capSeCheck g b tokenHandle sd type desired).1 ≠ statusSuccess ↔ Stopped g b tokenHandle sd type desired := by
  unfold Stopped
  cases sd with
  | none =>
    have hno : (capSeCheck g b tokenHandle none type desired).1 ≠ statusSuccess := fun h =>
      default_refuses hm hw ((seCheck_success_iff hv rfl).1 h).1
    exact iff_of_true hno (.inl nofun)
  | some mem =>
    simp only [Option.some.injEq, forall_eq']
    cases hread : sdRead (some mem) with
    | none =>
      refine iff_of_true ?_ (.inl (.inl rfl))
      unfold capSeCheck
      rw [if_neg (not_not.2 hv), viewOf, hread]
      exact show statusInvalidParameter ≠ statusSuccess by decide
    | some view =>
      have hlist : ListRefuses mem (capTokenSidset g b tokenHandle) (expandGeneric type desired) ↔
          (accessCheck (some view) (some (capTokenSidset g b tokenHandle)) type desired).status ≠ statusSuccess := by
        rw [Ne, accessCheck_success_iff (sdRead_unlabelled hread), Bool.not_eq_true, ListRefuses, hread]
        exact ⟨fun ⟨_, he, h⟩ => Option.some.inj he ▸ h, fun h => ⟨view, rfl, h⟩⟩
      have hview : viewOf (some mem) = some view := hread
      rw [Ne, seCheck_success_iff hv hview, not_and_or, not_not, hlist, or_iff_right (a := some view = none) nofun]

/-- A bridge with one handle, for a token. -/
def tokenBridge : Bridge where
  handleTable := fun i =>
    if i = 0 then { zeroRecord with ntHandle := 0x1000, data := 1, type := .token, valid := true } else zeroRecord
  currentPid := 7
  capHt := none
  reg := .empty fun _ => true

/-- The token is of the lowest level. -/
def lowToken : Globals := ⟨some tokenBridge, fun _ => ⟨5, [], 3⟩, 7⟩

/-- Without a descriptor, nothing takes the label away. -/
theorem integrity_iff_sample : (capSeCheck lowToken tokenBridge 0x1000 none .file 2).1 ≠ statusSuccess :=
  (integrity_iff (by decide +kernel) (by decide +kernel) (by decide +kernel)).2 (.inl nofun)

/-- **A descriptor without a list lets the subject write.** -/
theorem unlabelled_writes : ¬∀ (g : Globals) (b : Bridge) (tokenHandle : BitVec 32) (sd : Option (Nat → UInt8))
    (type : ObjectType) (desired : Mask), seHandleIsValid b tokenHandle = true →
      (capTokenSidset g b tokenHandle).mic < mediumMic → expandGeneric type desired &&& rightWriteAny ≠ 0 →
        (capSeCheck g b tokenHandle sd type desired).1 ≠ statusSuccess := fun h =>
  h lowToken tokenBridge 0x1000 (some (bytes [1, 0, 0x00, 0x08])) .file 2 (by decide +kernel) (by decide +kernel)
    (by decide +kernel) (by decide +kernel)

end WuBuOS.Nt
