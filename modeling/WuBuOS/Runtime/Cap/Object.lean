import Mathlib.Data.Int.NatAbs
import Mathlib.Data.UInt

/-!
# Capability objects

`runtime/wubu_cap/wubu_cap_object.c`, and `wubu_cap_revoke.c`.  An object has rights, an audience and
flags.  It stays in a slot of the registry until it is destroyed; a token for it names the slot and the
object's generation.  An object that is derived from another is put on the front of that one's list of
children, which is linked through the slots.

The registry answers every call of `malloc` from a list of its own.  What is recorded of refused
resolutions for the audit is left out, as is `g_wubu_cap_count`, which nothing reads.
-/

namespace WuBuOS.Cap

/-! ## Constants -/

/-- `WUBU_CAP_OBJECT_CAPACITY`. -/
def objectCapacity : Nat := 65536

/-- `WUBU_CAP_AUDIENCE_MAX`. -/
def audienceMax : Nat := 8

/-- `WUBU_CAP_IDX_NONE`. -/
def idxNone : Nat := 0xFFFFFFFF

/-- `WUBU_RIGHT_READ`. -/
def rightRead : UInt64 := 0x01

/-- `WUBU_RIGHT_WRITE`. -/
def rightWrite : UInt64 := 0x02

/-- `WUBU_RIGHT_EXEC`. -/
def rightExec : UInt64 := 0x04

/-- `WUBU_RIGHT_DERIVE`. -/
def rightDerive : UInt64 := 0x08

/-- `WUBU_RIGHT_INSPECT`. -/
def rightInspect : UInt64 := 0x20

/-- `WUBU_RIGHT_GRANT`. -/
def rightGrant : UInt64 := 0x40

/-- `WUBU_RIGHT_SEND`. -/
def rightSend : UInt64 := 0x80

/-- `WUBU_RIGHT_RECV`. -/
def rightRecv : UInt64 := 0x100

/-- `WUBU_RIGHT_DELETE`. -/
def rightDelete : UInt64 := 0x400

/-- `WUBU_RIGHT_INVOKE`. -/
def rightInvoke : UInt64 := 0x4000

/-- `WUBU_RIGHTS_ALL`. -/
def rightsAll : UInt64 := 0xFFFFFFFFFFFFFFFF

/-- `WUBU_CAP_FLAG_PUBLIC`. -/
def flagPublic : UInt8 := 0x01

/-- `WUBU_CAP_FLAG_EAGER_REVOKE`. -/
def flagEagerRevoke : UInt8 := 0x02

/-- `WUBU_CAP_FLAG_IMMORTAL`. -/
def flagImmortal : UInt8 := 0x08

/-- `WUBU_CAP_FLAG_CASCADE_TRUNCATED`. -/
def flagCascadeTruncated : UInt8 := 0x20

/-- `WUBU_PID_PUBLIC`. -/
def pidPublic : Int := 0xFFFF

/-- `WUBU_PID_NONE`, and `WUBU_PID_KERNEL`. -/
def pidNone : Int := -1

/-- The error codes. -/
inductive CapError
  | eperm
  | erevoked
  | enomem
  | einval
  deriving DecidableEq, Repr

/-! ## The registry -/

/-- `wubu_cap_token_t`, taken apart; the index has 24 bits. -/
structure Token where
  gen : UInt32
  idx : Nat
  flags : UInt8
  deriving DecidableEq, Repr

/-- `wubu_cap_token_pack`. -/
def tokenPack (gen : UInt32) (idx : Nat) (flags : UInt8) : Token := ⟨gen, idx % 2 ^ 24, flags⟩

/-- `WUBU_CAP_TOKEN_NULL`. -/
def tokenNull : Token := ⟨0, 0, 0⟩

/-- `wubu_cap_token_is_null`. -/
def Token.isNull (tok : Token) : Bool := tok.idx == 0

/-- `struct wubu_cap_object`; of the audience there are the entries that count. -/
structure Object where
  kind : Nat
  deleted : Bool
  generation : UInt32
  rights : UInt64
  kindData : Nat
  audience : List Int
  flags : UInt8
  parentIdx : Nat
  ownerPid : Int
  firstChildIdx : Nat
  nextSiblingIdx : Nat
  deriving DecidableEq, Repr

/-- A flag is set. -/
def Object.has (o : Object) (flag : UInt8) : Bool := o.flags &&& flag != 0

/-- `g_wubu_cap_ptrs`, and what `malloc` is going to answer. -/
structure Registry where
  ptrs : Nat → Option Object
  mem : Nat → Bool

/-- A registry in which nothing has been created. -/
def Registry.empty (mem : Nat → Bool) : Registry := ⟨fun _ => none, mem⟩

/-- `malloc`; whether there is memory. -/
def malloc (r : Registry) : Bool × Registry := (r.mem 0, { r with mem := fun n => r.mem (n + 1) })

/-- A slot is written to. -/
def Registry.set (r : Registry) (i : Nat) (o : Option Object) : Registry :=
  { r with ptrs := Function.update r.ptrs i o }

/-! ## Audiences -/

/-- An audience as it is passed: the entries before the first `WUBU_PID_NONE`. -/
def audienceOf (src : List Int) : List Int := (src.take audienceMax).takeWhile (· ≠ pidNone)

def capCopyAudience (src : Option (List Int)) (fallback : Int) : List Int :=
  match src with
  | none => [fallback]
  | some src => audienceOf src

def audienceIsSubset (parent : Object) (subset : Option (List Int)) : Bool :=
  parent.has flagPublic ||
    match subset with
    | none => true
    | some subset => (audienceOf subset).all fun p => p != pidPublic && parent.audience.contains p

/-- `wubu_cap_validate_audience`. -/
def validateAudience (o : Object) (pid : Int) : Bool := o.has flagPublic || o.audience.contains pid

/-! ## Resolving -/

/-- `wubu_cap_resolve`; the object is given by its slot. -/
def wubuCapResolve (pid : Int) (tok : Token) (required : UInt64) (r : Registry) : Option Nat :=
  if tok.idx = 0 ∨ objectCapacity ≤ tok.idx then none
  else
    match r.ptrs tok.idx with
    | none => none
    | some o =>
      if o.deleted then none
      else if o.generation ≠ tok.gen then none
      else if !validateAudience o pid then none
      else if o.rights &&& required ≠ required then none
      else some tok.idx

/-! ## Creating -/

/-- The object in slot 0. -/
def sentinel : Object where
  kind := 0
  deleted := false
  generation := 1
  rights := rightsAll
  kindData := 0
  audience := [pidPublic]
  flags := flagImmortal ||| flagPublic
  parentIdx := idxNone
  ownerPid := pidNone
  firstChildIdx := idxNone
  nextSiblingIdx := idxNone

def wubuCapInit (r : Registry) : Registry :=
  if (r.ptrs 0).isSome then r
  else
    match malloc r with
    | (false, r) => r
    | (true, r) => r.set 0 (some sentinel)

/-- The loop of `cap_find_free_slot_locked`, with so many slots still to be looked at. -/
def findFree (r : Registry) : Nat → Nat → Option Nat
  | 0, _ => none
  | n + 1, i => if (r.ptrs i).isNone then some i else findFree r n (i + 1)

/-- `cap_find_free_slot_locked`. -/
def capFindFreeSlot (r : Registry) : Option Nat := findFree r (objectCapacity - 1) 1

def wubuCapLinkChild (parentIdx childIdx : Nat) (r : Registry) : Registry :=
  if objectCapacity ≤ parentIdx ∨ childIdx = 0 ∨ objectCapacity ≤ childIdx then r
  else
    match r.ptrs parentIdx, r.ptrs childIdx with
    | some parent, some child =>
      let r := r.set childIdx (some { child with nextSiblingIdx := parent.firstChildIdx })
      r.set parentIdx ((r.ptrs parentIdx).map fun parent => { parent with firstChildIdx := childIdx })
    | _, _ => r

/-- The object that `wubu_cap_create` makes. -/
def newObject (kind : Nat) (rights : UInt64) (audience : Option (List Int)) (flags : UInt8)
    (kindData : Nat) (ownerPid : Int) (parentIdx : Nat) : Object where
  kind := kind
  deleted := false
  generation := 1
  rights := rights
  kindData := kindData
  audience := capCopyAudience audience ownerPid
  flags := if (capCopyAudience audience ownerPid).contains pidPublic then flags ||| flagPublic else flags
  parentIdx := parentIdx
  ownerPid := ownerPid
  firstChildIdx := idxNone
  nextSiblingIdx := idxNone

/-- `wubu_cap_create`; the slot, and the token. -/
def wubuCapCreate (kind : Nat) (rights : UInt64) (audience : Option (List Int)) (flags : UInt8)
    (kindData : Nat) (ownerPid : Int) (parentIdx : Nat) (r : Registry) :
    Except CapError (Nat × Token) × Registry :=
  match malloc (wubuCapInit r) with
  | (false, r) => (.error .enomem, r)
  | (true, r) =>
    let obj := newObject kind rights audience flags kindData ownerPid parentIdx
    match capFindFreeSlot r with
    | none => (.error .enomem, r)
    | some slot =>
      (.ok (slot, tokenPack 1 slot obj.flags),
        wubuCapLinkChild parentIdx slot (r.set slot (some obj)))

def capDeriveInner (parentTok : Token) (callerPid : Int) (rightsSubset : UInt64)
    (audienceSubset : Option (List Int)) (flagsSubset : UInt8) (allowAudienceExpand : Bool)
    (r : Registry) : Except CapError (Nat × Token) × Registry :=
  if parentTok.idx = 0 ∨ objectCapacity ≤ parentTok.idx then (.error .einval, r)
  else
    match r.ptrs parentTok.idx with
    | none => (.error .einval, r)
    | some parent =>
      if parent.deleted then (.error .erevoked, r)
      else if !validateAudience parent callerPid then (.error .eperm, r)
      else if parent.rights &&& rightDerive = 0 then (.error .eperm, r)
      else if parent.rights &&& rightsSubset ≠ rightsSubset then (.error .eperm, r)
      else
        let privSub := flagsSubset &&& (flagPublic ||| flagImmortal)
        if parent.flags &&& privSub ≠ privSub then (.error .eperm, r)
        else if !allowAudienceExpand && !audienceIsSubset parent audienceSubset then (.error .eperm, r)
        else
          let aud := audienceSubset.getD (callerPid :: List.replicate (audienceMax - 1) pidNone)
          wubuCapCreate parent.kind rightsSubset (some aud) flagsSubset parent.kindData callerPid
            parentTok.idx r

def wubuCapDerive (parent : Token) (callerPid : Int) (rightsSubset : UInt64)
    (audienceSubset : Option (List Int)) (flagsSubset : UInt8) (r : Registry) :
    Except CapError (Nat × Token) × Registry :=
  capDeriveInner parent callerPid rightsSubset audienceSubset flagsSubset false r

/-! ## Revoking -/

/-- `WUBU_CAP_REVOKE_CASCADE_MAX`. -/
def revokeCascadeMax : Nat := 1024

/-- The object is revoked: no token has its generation any more. -/
def Object.revoked (o : Object) : Object := { o with deleted := true, generation := o.generation + 1 }

/-- Why a list of children has not been followed any further. -/
inductive Stop
  /-- It ends. -/
  | done
  /-- There is nothing in the last slot. -/
  | missing
  /-- There is no room in the queue. -/
  | full
  deriving DecidableEq, Repr

/-- The slots of a list of children, as far as it can be followed and there is room in the queue. -/
def siblings (ptrs : Nat → Option Object) : Nat → Nat → List Nat × Stop
  | room, cur =>
    if cur = idxNone then ([], .done)
    else
      match room with
      | 0 => ([], .full)
      | room + 1 =>
        match ptrs cur with
        | none => ([cur], .missing)
        | some c =>
          let rest := siblings ptrs room c.nextSiblingIdx
          (cur :: rest.1, rest.2)

/-- The loop of `wubu_cap_revoke_cascade`: the queue, how many places of it have been used, whether it has
been truncated, and the count. -/
def cascadeLoop : Nat → List Nat → Nat → Bool → Nat → Registry → (Bool × Nat) × Registry
  | 0, _, _, truncated, count, r => ((truncated, count), r)
  | _ + 1, [], _, truncated, count, r => ((truncated, count), r)
  | fuel + 1, idx :: queue, tail, truncated, count, r =>
    match r.ptrs idx with
    | none => cascadeLoop fuel queue tail truncated count r
    | some obj =>
      if obj.has flagImmortal then cascadeLoop fuel queue tail truncated count r
      else
        let r' := if obj.deleted then r else r.set idx (some obj.revoked)
        let s := siblings r'.ptrs (revokeCascadeMax - tail) obj.firstChildIdx
        cascadeLoop fuel (queue ++ s.1) (tail + s.1.length) (truncated || s.2 == .full)
          (if obj.deleted then count else count + 1) r'

def wubuCapRevokeCascade (rootIdx : Nat) (r : Registry) : Nat × Registry :=
  if rootIdx = 0 ∨ objectCapacity ≤ rootIdx then (0, r)
  else
    match r.ptrs rootIdx with
    | none => (0, r)
    | some root =>
      let s := siblings r.ptrs revokeCascadeMax root.firstChildIdx
      match cascadeLoop revokeCascadeMax s.1 s.1.length (s.2 != .done) 0 r with
      | ((truncated, count), r) =>
        (count,
          if truncated then
            r.set rootIdx ((r.ptrs rootIdx).map fun o =>
              { o with flags := o.flags ||| flagCascadeTruncated })
          else r)

/-- `wubu_cap_revoke`; how many objects have been revoked. -/
def wubuCapRevoke (tok : Token) (r : Registry) : Except CapError Nat × Registry :=
  if tok.idx = 0 ∨ objectCapacity ≤ tok.idx then (.error .einval, r)
  else
    match r.ptrs tok.idx with
    | none => (.error .einval, r)
    | some obj =>
      if obj.has flagImmortal then (.error .eperm, r)
      else if obj.deleted then (.error .erevoked, r)
      else
        let r := r.set tok.idx (some obj.revoked)
        if obj.has flagEagerRevoke then
          match wubuCapRevokeCascade tok.idx r with
          | (c, r) => (.ok (1 + c), r)
        else (.ok 1, r)

def wubuCapDestroy (idx : Nat) (r : Registry) : Registry :=
  if idx = 0 ∨ objectCapacity ≤ idx then r else r.set idx none

end WuBuOS.Cap
