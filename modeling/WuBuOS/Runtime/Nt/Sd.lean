import Mathlib.Data.List.Basic
import WuBuOS.Lib.Bytes

/-!
# Security descriptors

`runtime/wubu_nt_sd.c`: reading a security descriptor, decoding its access control list, and the access
check.  A pointer to bytes is the memory from it on, and `NULL` is `none`; masks, rights and SIDs are
`BitVec 32`.
-/

namespace WuBuOS.Nt

/-! ## Constants -/

abbrev Mask := BitVec 32

/-- `nt_object_type_t`. -/
inductive ObjectType where
  | unknown | process | thread | file | directory | symbolicLink | event | mutant | semaphore | timer | key
  | keyedEvent | sectionObject | job | token | port | waitablePort | debugObject | profile | transaction
  | transactionManager | resourceManager | enlistment | tm | ioCompletion | eventPair | workItem
  deriving DecidableEq

/-- `WUBU_SE_DACL_PRESENT` and `WUBU_SE_SELF_RELATIVE`. -/
abbrev seDaclPresent : BitVec 16 := 0x0004
abbrev seSelfRelative : BitVec 16 := 0x0800

abbrev genericRead : Mask := 0x80000000
abbrev genericWrite : Mask := 0x40000000
abbrev genericExecute : Mask := 0x20000000
abbrev genericAll : Mask := 0x10000000

/-- `WUBU_NT_GENERIC_ALL_MASK`. -/
abbrev genericAllMask : Mask := 0xF0000000

/-- `WUBU_NT_RIGHT_WRITE_ANY`. -/
abbrev rightWriteAny : Mask :=
  0x00000002 ||| 0x00000004 ||| 0x00000010 ||| 0x00000020 ||| 0x00000040 ||| 0x00000100 ||| 0x00010000 |||
    0x00040000 ||| 0x00080000 ||| 0x00200000

/-- `WUBU_NT_STATUS_SUCCESS` and `WUBU_NT_STATUS_ACCESS_DENIED`. -/
abbrev statusSuccess : BitVec 32 := 0x00000000
abbrev statusAccessDenied : BitVec 32 := 0xC0000022

/-- `WUBU_NT_SD_MAX_BYTES`, `WUBU_NT_SIDSET_MAX` and `WUBU_NT_ACE_MAX`. -/
abbrev sdMaxBytes : Nat := 4096
abbrev sidsetMax : Nat := 64
abbrev aceMax : Nat := 32

/-! ## The data -/

/-- `wubu_nt_sidset_t`; the group SIDs are a list. -/
structure Sidset where
  ownerSid : BitVec 32
  mic : BitVec 32
  sids : List (BitVec 32)
  deriving DecidableEq

def Sidset.has (s : Sidset) (sid : BitVec 32) : Bool := s.sids.contains sid

/-- `wubu_nt_sidset_add`, whose result nobody looks at. -/
def Sidset.add (s : Sidset) (sid : BitVec 32) : Sidset :=
  if sidsetMax ≤ s.sids.length then s else { s with sids := s.sids ++ [sid] }

inductive AceKind where
  | allowOwner | allowGroup | denyOwner | denyGroup
  deriving DecidableEq

/-- `wubu_nt_ace_t`. -/
structure Ace where
  kind : AceKind
  sid : BitVec 32
  rights : Mask
  deriving DecidableEq

/-- `wubu_nt_dacl_view_t`. -/
structure DaclView where
  present : Bool
  aces : List Ace

/-- `wubu_nt_sd_view_t`. -/
structure SdView where
  control : BitVec 16
  dacl : Option (Nat → UInt8)
  daclPresent : Bool
  labelMic : BitVec 32
  noWriteUp : Bool
  daclView : DaclView

/-- A view of zeros. -/
def zeroView : SdView := ⟨0, none, false, 0, false, ⟨false, []⟩⟩

/-! ## Reading -/

def read32 (p : Nat → UInt8) (a : Nat) : BitVec 32 := .ofNat 32 (Bytes.get p a 4)

def aclRevision (acl : Nat → UInt8) : UInt8 := acl 0

def aclSize (acl : Nat → UInt8) : Nat := Bytes.get acl 2 2

def aceCount (acl : Nat → UInt8) : Nat := Bytes.get acl 4 2

def aceSize (acl : Nat → UInt8) (cur : Nat) : Nat := Bytes.get acl (cur + 2) 2

/-- The kind for an ACE type of the wire. -/
def aceKind (type : UInt8) : AceKind :=
  if type = 0x00 then .allowOwner
  else if type = 0x01 then .denyOwner
  else if type = 0x02 then .allowOwner
  else if type = 0x09 then .allowOwner
  else if type = 0x11 then .allowGroup
  else if type = 0x10 then .denyGroup
  else .allowGroup

def aceAt (acl : Nat → UInt8) (cur : Nat) : Ace :=
  ⟨aceKind (acl cur), read32 acl (cur + 4), read32 acl (cur + 8)⟩

/-- The loop of `wubu_nt_dacl_decode`, with the ACEs that are left to read, and the number read. -/
def decodeLoop (acl : Nat → UInt8) : Nat → Nat → Nat → List Ace
  | 0, _, _ => []
  | left + 1, cur, count =>
    if aceMax ≤ count then []
    else if aclSize acl < cur + 8 then []
    else if aceSize acl cur < 12 then []
    else if aclSize acl < cur + aceSize acl cur then []
    else aceAt acl cur :: decodeLoop acl left (cur + aceSize acl cur) (count + 1)

def daclDecode (acl : Option (Nat → UInt8)) : DaclView :=
  match acl with
  | none => ⟨false, []⟩
  | some acl =>
    if aclRevision acl ≠ 2 ∧ aclRevision acl ≠ 3 ∧ aclRevision acl ≠ 4 then ⟨false, []⟩
    else if sdMaxBytes < aclSize acl then ⟨false, []⟩
    else ⟨true, decodeLoop acl (aceCount acl) 8 0⟩

def sdControl (p : Nat → UInt8) : BitVec 16 := .ofNat 16 (Bytes.get p 2 2)

def daclOffset (p : Nat → UInt8) : Nat := Bytes.get p 8 4

/-- The memory from an offset on. -/
def memFrom (p : Nat → UInt8) (off : Nat) : Nat → UInt8 := fun a => p (off + a)

/-- `none` where the function returns false. -/
def sdRead (sd : Option (Nat → UInt8)) : Option SdView :=
  match sd with
  | none => none
  | some p =>
    if p 0 ≠ 1 then none
    else
      let control := sdControl p
      if control &&& seSelfRelative ≠ 0 ∧ control &&& seDaclPresent = 0 then
        some { zeroView with control := control, dacl := none, daclPresent := false }
      else if control &&& seDaclPresent = 0 ∨ daclOffset p = 0 then
        some { zeroView with control := control, dacl := none, daclPresent := false }
      else if sdMaxBytes < daclOffset p then none
      else
        let dacl := memFrom p (daclOffset p)
        some { zeroView with
          control := control, dacl := some dacl, daclPresent := true, daclView := daclDecode (some dacl) }

/-! ## Generic rights -/

/-- What `wubu_nt_generic_mapping` stores. -/
structure Mapping where
  read : Mask
  write : Mask
  exec : Mask
  all : Mask

def genericMapping : ObjectType → Mapping
  | .file | .directory | .symbolicLink => ⟨0x00120089, 0x00120116, 0x001200A0, 0x001F01FF⟩
  | .key => ⟨0x00020019, 0x00020006, 0x00020020, 0x000F003F⟩
  | .event | .semaphore | .keyedEvent | .eventPair => ⟨0x00100000, 0x00000002, 0, 0x001F0003⟩
  | .mutant => ⟨0x00100000, 0x00000001, 0, 0x001F0001⟩
  | .timer => ⟨0x00100000, 0x00000002, 0, 0x001F001F⟩
  | .sectionObject => ⟨0x00100000, 0x00000002 ||| 0x00000004 ||| 0x00000008, 0x00000001, 0x001F000F⟩
  | .process => ⟨0x1200F0, 0x1200B8, 0x0008, 0x001F0FFF⟩
  | .thread => ⟨0x12008A, 0x1200B2, 0x0008, 0x001F03FF⟩
  | .token => ⟨0x00020009, 0x0002000E, 0, 0x000F003F⟩
  | .port | .waitablePort | .ioCompletion => ⟨0x00100000, 0x00000002, 0, 0x001F000F⟩
  | _ => ⟨0x00120089, 0x00120116, 0x001200A0, 0x001F01FF⟩

def expandGeneric (type : ObjectType) (desired : Mask) : Mask :=
  let m := genericMapping type
  let out := desired &&& ~~~genericAllMask
  let out := if desired &&& genericRead ≠ 0 then out ||| m.read else out
  let out := if desired &&& genericWrite ≠ 0 then out ||| m.write else out
  let out := if desired &&& genericExecute ≠ 0 then out ||| m.exec else out
  if desired &&& genericAll ≠ 0 then out ||| m.all else out

/-! ## The decision -/

/-- The loop of `wubu_nt_dacl_allows`: whether something has been denied, and what has been allowed. -/
def evalAce (subject : Sidset) (desired : Mask) (st : Bool × Mask) (ace : Ace) : Bool × Mask :=
  if ace.kind = .allowOwner ∧ subject.ownerSid = ace.sid then (st.1, st.2 ||| ace.rights)
  else if ace.kind = .allowGroup ∧ subject.has ace.sid then (st.1, st.2 ||| ace.rights)
  else if ace.kind = .denyOwner ∧ subject.ownerSid = ace.sid ∧ ace.rights &&& desired ≠ 0 then (true, st.2)
  else if ace.kind = .denyGroup ∧ subject.has ace.sid ∧ ace.rights &&& desired ≠ 0 then (true, st.2)
  else st

/-- What is stored through `granted_out` comes second. -/
def daclAllows (dacl : Option DaclView) (subject : Sidset) (desired : Mask) : Bool × Mask :=
  match dacl with
  | none => (true, desired)
  | some dacl =>
    if ¬dacl.present then (true, desired)
    else
      let (denied, acc) := dacl.aces.foldl (evalAce subject desired) (false, 0)
      if denied then (false, 0) else (acc &&& desired = desired, acc &&& desired)

def micAllowsWrite (subjectMic labelMic : BitVec 32) (noWriteUp : Bool) : Bool :=
  if ¬noWriteUp then true else labelMic ≤ subjectMic

/-- `wubu_nt_access_result_t`. -/
structure AccessResult where
  status : BitVec 32
  granted : Mask
  missing : Mask
  deniedAce : Bool
  micFailed : Bool
  deriving DecidableEq

def accessCheck (sd : Option SdView) (subject : Option Sidset) (type : ObjectType) (desired : Mask) :
    AccessResult :=
  match sd, subject with
  | some sd, some subject =>
    let want := expandGeneric type desired
    let (ok, granted) := daclAllows (some sd.daclView) subject want
    if ¬ok then ⟨statusAccessDenied, granted, want &&& ~~~granted, true, false⟩
    else if want &&& rightWriteAny ≠ 0 ∧ ¬micAllowsWrite subject.mic sd.labelMic sd.noWriteUp then
      ⟨statusAccessDenied, granted, want &&& ~~~granted, false, true⟩
    else ⟨statusSuccess, granted, want &&& ~~~granted, false, false⟩
  | _, _ => ⟨statusAccessDenied, 0, desired, false, false⟩

end WuBuOS.Nt
