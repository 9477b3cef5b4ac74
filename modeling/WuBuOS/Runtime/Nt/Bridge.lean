import WuBuOS.Runtime.Cap.Slots
import WuBuOS.Runtime.Nt.Sd

/-!
# The handles of the NT bridge

`runtime/vsl/vsl_nt_cap.c`, and the handle table of `vsl_syscall_nt.c`.  A handle is `0x1000` and the index
of a record.  A record is bound to an entry of the capability handle table, which is for an object of the
registry, and beside it has a ceiling of its own, the rights that were granted.

What `vsl_nt_cap_acquire` writes to the block that it allocates for an object is not read again, and is left
out, as is the address of the block.
-/

namespace WuBuOS.Nt

open Cap

/-! ## Constants -/

abbrev statusInvalidParameter : BitVec 32 := 0xC000000D
abbrev statusInvalidHandle : BitVec 32 := 0xC0000008
abbrev statusUnsuccessful : BitVec 32 := 0xC0000001

/-- The length of `handle_table`. -/
abbrev handleTableSize : Nat := 4096

/-- The first handle. -/
abbrev handleBase : Nat := 0x1000

abbrev kindProc : Nat := 2
abbrev kindChannel : Nat := 3
abbrev kindVmo : Nat := 4
abbrev kindStream : Nat := 7
abbrev kindTransaction : Nat := 8
abbrev kindSystem : Nat := 9
abbrev kindStyxNode : Nat := 12

def kindToCap : ObjectType → Nat
  | .file | .directory | .symbolicLink | .key => kindStyxNode
  | .process | .thread => kindProc
  | .sectionObject | .debugObject => kindVmo
  | .event | .mutant | .semaphore | .timer | .keyedEvent | .eventPair | .ioCompletion => kindStream
  | .job | .transaction | .transactionManager | .resourceManager | .enlistment | .tm | .workItem | .profile =>
    kindTransaction
  | .port | .waitablePort => kindChannel
  | .token => kindSystem
  | _ => kindStyxNode

/-- The rights for a bit of the access mask, in the order of the source. -/
def accessRights : List (Mask × UInt64) :=
  [(0x80000000, rightRead ||| rightInspect ||| rightRecv),
    (0x40000000, rightWrite ||| rightSend),
    (0x20000000, rightExec ||| rightInvoke),
    (0x10000000, rightsAll),
    (0x00010000, rightDelete),
    (0x00020000, rightRead ||| rightInspect),
    (0x00040000, rightWrite ||| rightGrant),
    (0x00080000, rightWrite ||| rightGrant),
    (0x00100000, rightRecv),
    (0x00000001, rightRead),
    (0x00000002, rightWrite),
    (0x00000004, rightWrite ||| rightDerive),
    (0x00000008, rightDerive),
    (0x00000010, rightInspect),
    (0x00000020, rightRecv),
    (0x00000001, rightRead),
    (0x00000002, rightWrite),
    (0x00000010, rightRecv),
    (0x00000080, rightInspect),
    (0x00000010, rightWrite),
    (0x00000200, rightRead),
    (0x00000200, rightRead),
    (0x00020010, rightRead ||| rightInspect),
    (0x00020007, rightWrite ||| rightDerive)]

def desiredAccessToCap (a : Mask) : UInt64 :=
  accessRights.foldl (fun r entry => if a &&& entry.1 ≠ 0 then r ||| entry.2 else r) 0

/-- `WUBU_STD_RIGHTS_REQUIRED` and `WUBU_SYNCHRONIZE`. -/
abbrev stdRightsRequired : Mask := 0x000F0000
abbrev synchronize : Mask := 0x00100000

def defaultAccessForType : ObjectType → Mask
  | .file | .directory | .symbolicLink => stdRightsRequired ||| synchronize ||| 0x000001FF
  | .key => stdRightsRequired ||| synchronize ||| 0x000003FF
  | .event | .semaphore => stdRightsRequired ||| synchronize ||| 0x00000003
  | .mutant | .keyedEvent | .eventPair => stdRightsRequired ||| synchronize ||| 0x00000001
  | .timer => stdRightsRequired ||| synchronize ||| 0x0000001F
  | .waitablePort => stdRightsRequired ||| synchronize ||| 0x0000000F
  | .ioCompletion => stdRightsRequired ||| 0x00000007
  | .sectionObject | .debugObject => stdRightsRequired ||| synchronize ||| 0x0000000F
  | .token => stdRightsRequired ||| 0x000003FF
  | .process => 0x001F0FFF
  | .thread => 0x001F03FF
  | .port => stdRightsRequired ||| synchronize ||| 0x0000000F
  | .profile => stdRightsRequired ||| 0x00000002
  | .job | .transaction | .transactionManager | .resourceManager | .enlistment | .tm | .workItem =>
    stdRightsRequired ||| 0x00000007
  | _ => stdRightsRequired ||| synchronize

/-! ## The state -/

/-- An entry of `handle_table`. -/
structure HandleRecord where
  ntHandle : BitVec 32
  vslFd : BitVec 32
  styxFid : BitVec 64
  data : BitVec 64
  type : ObjectType
  valid : Bool
  capSlot : Nat
  capToken : Token
  capBacked : Bool
  capRights : Mask

/-- A record of zeros. -/
def zeroRecord : HandleRecord := ⟨0, 0, 0, 0, .unknown, false, 0, tokenNull, false, 0⟩

/-- `vsl_nt_bridge_ctx_t`, and the registry of the capability objects. -/
structure Bridge where
  handleTable : Nat → HandleRecord
  currentPid : BitVec 32
  capHt : Option HandleTable
  reg : Registry

/-- A process id, as the capability calls take it. -/
def Bridge.pid (b : Bridge) : Int := b.currentPid.toInt

/-- A record is written to. -/
def Bridge.set (b : Bridge) (i : Nat) (entry : HandleRecord) : Bridge :=
  { b with handleTable := Function.update b.handleTable i entry }

/-- `vsl_nt_bridge_init`. -/
def bridgeInit (pid : BitVec 32) (r : Registry) : Bridge :=
  match wubuCapHandleTableCreate (wubuCapInit r) with
  | (t, r) => ⟨fun _ => zeroRecord, pid, t, r⟩

/-! ## Objects for handles -/

/-- `vsl_nt_cap_index_of`. -/
def capIndexOf (b : Bridge) (ntHandle : BitVec 32) : Option Nat :=
  (List.range handleTableSize).find? fun i => (b.handleTable i).valid && (b.handleTable i).ntHandle == ntHandle

/-- The audience with one process in it. -/
def audienceOnly (pid : Int) : List Int := pid :: List.replicate (audienceMax - 1) pidNone

/-- `vsl_nt_cap_acquire`; the entry of the handle table, and the token of the object. -/
def capAcquire (b : Bridge) (type : ObjectType) (desired : Mask) : Option (Nat × Token) × Bridge :=
  match b.capHt with
  | none => (none, b)
  | some t =>
    let rights := desiredAccessToCap desired
    if rights = 0 then (none, b)
    else
      match malloc b.reg with
      | (false, r) => (none, { b with reg := r })
      | (true, r) =>
        match wubuCapCreate (kindToCap type) rights (some (audienceOnly b.pid)) 0 0 b.pid idxNone r with
        | (.error _, r) => (none, { b with reg := r })
        | (.ok (_, objtok), r) =>
          if objtok.isNull then (none, { b with reg := r })
          else
            match wubuCapHandleInsert t objtok.idx 0 r with
            | ((htok, t), r) =>
              if htok.isNull then (none, { b with capHt := some t, reg := (wubuCapRevoke objtok r).2 })
              else (some (htok.idx, objtok), { b with capHt := some t, reg := r })

/-- `vsl_nt_cap_make_handle`. -/
def capMakeHandle (b : Bridge) (objToken : Token) : Option Nat × Bridge :=
  match b.capHt with
  | none => (none, b)
  | some t =>
    if objToken.isNull then (none, b)
    else
      match wubuCapHandleInsert t objToken.idx 0 b.reg with
      | ((htok, t), r) =>
        (if htok.isNull then none else some htok.idx, { b with capHt := some t, reg := r })

/-- `vsl_nt_cap_bind`; whether it returns 0. -/
def capBind (b : Bridge) (ntHandle : BitVec 32) (type : ObjectType) (desired : Mask) : Bool × Bridge :=
  if b.capHt.isNone ∨ ntHandle = 0 then (false, b)
  else
    match capIndexOf b ntHandle with
    | none => (false, b)
    | some idx =>
      if (b.handleTable idx).capBacked then (true, b)
      else
        let desired := if desiredAccessToCap desired = 0 then desired ||| genericRead else desired
        match capAcquire b type desired with
        | (none, b) => (false, b)
        | (some (slot, tok), b) =>
          (true, b.set idx { b.handleTable idx with
            capSlot := slot
            capToken := tok
            capBacked := true
            capRights := expandGeneric type desired })

/-- `vsl_nt_cap_authorize`. -/
def capAuthorize (b : Bridge) (ntHandle : BitVec 32) (desired : Mask) : BitVec 32 :=
  match capIndexOf b ntHandle with
  | none => statusInvalidHandle
  | some idx =>
    let entry := b.handleTable idx
    if ¬entry.capBacked then statusSuccess
    else
      let req := desiredAccessToCap desired
      let req := if req = 0 then rightInspect else req
      let object := b.capHt.bind fun t => wubuCapHandleResolveBySlot t b.pid entry.capSlot req b.reg
      if object.isNone then statusAccessDenied
      else
        let wantNt := expandGeneric entry.type desired
        if wantNt = 0 then statusSuccess
        else if entry.capRights &&& wantNt ≠ wantNt then statusAccessDenied
        else statusSuccess

/-- `vsl_nt_cap_unbind`; whether it returns 0. -/
def capUnbind (b : Bridge) (ntHandle : BitVec 32) : Bool × Bridge :=
  match b.capHt with
  | none => (false, b)
  | some t =>
    match capIndexOf b ntHandle with
    | none => (false, b)
    | some idx =>
      if ¬(b.handleTable idx).capBacked then (false, b)
      else
        let (rc, t) := wubuCapHandleCloseSlot t (b.handleTable idx).capSlot
        (rc.isOk, { b with capHt := some t }.set idx
          { b.handleTable idx with capBacked := false, capSlot := 0, capToken := tokenNull })

/-- `vsl_nt_cap_alias`; whether it returns 0. -/
def capAlias (b : Bridge) (srcHandle dstHandle : BitVec 32) : Bool × Bridge :=
  if b.capHt.isNone then (false, b)
  else
    match capIndexOf b srcHandle, capIndexOf b dstHandle with
    | some si, some di =>
      let src := b.handleTable si
      if ¬src.capBacked then (false, b)
      else if src.capToken.isNull then (false, b)
      else
        match capMakeHandle b src.capToken with
        | (none, b) => (false, b)
        | (some newSlot, b) =>
          (true, b.set di { b.handleTable di with
            capSlot := newSlot
            capToken := src.capToken
            capBacked := true
            capRights := src.capRights })
    | _, _ => (false, b)

/-- `vsl_nt_cap_alias_reduced`; whether it returns 0. -/
def capAliasReduced (b : Bridge) (srcHandle dstHandle : BitVec 32) (desired : Mask) : Bool × Bridge :=
  match capAlias b srcHandle dstHandle with
  | (false, b) => (false, b)
  | (true, b) =>
    match capIndexOf b dstHandle with
    | none => (false, b)
    | some di =>
      let dst := b.handleTable di
      if desired ≠ 0 then
        (true, b.set di { dst with capRights := dst.capRights &&& expandGeneric dst.type desired })
      else (true, b)

/-- `vsl_nt_cap_slot_of_any`. -/
def capSlotOfAny (b : Bridge) (handle : BitVec 32) : Option Nat :=
  match b.capHt with
  | none => none
  | some t =>
    match (capIndexOf b handle).filter fun idx => (b.handleTable idx).capBacked with
    | some idx => some (b.handleTable idx).capSlot
    | none => if wubuCapHandleSlotLive t handle.toNat then some handle.toNat else none

/-- `vsl_nt_cap_revoke_handle`; the status, 0 if it succeeds. -/
def capRevokeHandle (b : Bridge) (ntHandle : BitVec 32) : BitVec 32 × Bridge :=
  match b.capHt, capSlotOfAny b ntHandle with
  | some t, some slot =>
    let del := desiredAccessToCap 0x00010000
    let del := if del = 0 then rightDelete else del
    if (wubuCapHandleResolveBySlot t b.pid slot del b.reg).isNone then (statusAccessDenied, b)
    else
      match wubuCapHandleRevokeBySlot t slot b.reg with
      | (.ok _, r) => (statusSuccess, { b with reg := r })
      | (.error .erevoked, r) => (statusAccessDenied, { b with reg := r })
      | (.error _, r) => (statusInvalidHandle, { b with reg := r })
  | _, _ => (statusInvalidHandle, b)

/-- `vsl_nt_cap_revoke_nt`; whether it returns 0. -/
def capRevokeNt (b : Bridge) (ntHandle : BitVec 32) : Bool × Bridge :=
  if b.capHt.isNone then (false, b)
  else
    match capIndexOf b ntHandle with
    | none => (false, b)
    | some idx =>
      if ¬(b.handleTable idx).capBacked then (false, b)
      else
        let (status, b) := capRevokeHandle b (.ofNat 32 (b.handleTable idx).capSlot)
        (status = 0, b)

/-! ## Handles -/

/-- The record that `vsl_nt_allocate_handle` takes. -/
def freeRecord (b : Bridge) : Option Nat := (List.range handleTableSize).find? fun i => !(b.handleTable i).valid

/-- `vsl_nt_allocate_handle`; 0 if there is no free record. -/
def allocateHandle (b : Bridge) (vslFd : BitVec 32) (styxFid : BitVec 64) (type : ObjectType) :
    BitVec 32 × Bridge :=
  match freeRecord b with
  | none => (0, b)
  | some i =>
    let h := BitVec.ofNat 32 (handleBase + i)
    let b := b.set i { b.handleTable i with
      ntHandle := h, vslFd := vslFd, styxFid := styxFid, type := type, valid := true }
    (h, (capBind b h type (defaultAccessForType type)).2)

/-- `vsl_nt_free_handle`; whether it returns 0. -/
def freeHandle (b : Bridge) (ntHandle : BitVec 32) : Bool × Bridge :=
  match capIndexOf b ntHandle with
  | none => (false, b)
  | some i =>
    let b := (capUnbind b ntHandle).2
    (true, b.set i { b.handleTable i with valid := false })

/-- `vsl_nt_duplicate_object`; the status, and what is stored as the new handle. -/
def duplicateObject (b : Bridge) (srcHandle newHandle e : BitVec 64) :
    (BitVec 32 × Option (BitVec 32)) × Bridge :=
  if newHandle = 0 then ((statusInvalidParameter, none), b)
  else
    let wantAccess := e.setWidth 32
    match capIndexOf b (srcHandle.setWidth 32) with
    | none => ((statusInvalidHandle, none), b)
    | some i =>
      let src := b.handleTable i
      let (h, b) := allocateHandle b src.vslFd src.data src.type
      if h = 0 then ((statusUnsuccessful, none), b)
      else ((statusSuccess, some h), (capAliasReduced b (srcHandle.setWidth 32) h wantAccess).2)

end WuBuOS.Nt
