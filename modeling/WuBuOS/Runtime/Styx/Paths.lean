import WuBuOS.Runtime.Styx.Wire

/-!
# Paths of the name space

`runtime/styxfs_path.c`, and `styxfs_path_to_host` of `runtime/styxfs_host.c`.  A path is put together from
its components, and becomes a path of the host by what is mounted at the longest prefix of it.  All of
this is done on strings, in buffers of 4096 bytes; what does not fit is cut off.
-/

namespace WuBuOS.Styx

/-- `STYXFS_MAX_PATH`. -/
def maxPath : Nat := 4096

/-- The character that separates the components of a path. -/
def slash : UInt8 := 47

/-- `"/"`. -/
def root : CStr := [slash]

/-- What `snprintf` leaves of a string in a buffer for a path. -/
def snprintf (s : CStr) : CStr := s.take (maxPath - 1)

/-- `styxfs_mount_t`; the source is in a buffer of its own. -/
structure Mount where
  path : CStr
  source : CStr
  fits : source.length < maxPath := by decide
  deriving DecidableEq, Repr

def buildPath (base name : CStr) : CStr :=
  snprintf (if base = root then slash :: name else base ++ slash :: name)

/-- The path is that of the mount, or goes on from there with another component. -/
def Mount.covers (m : Mount) (path : CStr) : Bool :=
  m.path.isPrefixOf path &&
    ((path.drop m.path.length).head? == none || (path.drop m.path.length).head? == some slash)

def pathIsMounted (mounts : List Mount) (path : CStr) : Bool :=
  mounts.any fun m => if m.path = root then path.head? == some slash else m.covers path

/-- One step of the search for a mount: the longer one is better, and of two the first. -/
def betterMount (path : CStr) (best : Option Mount) (m : Mount) : Option Mount :=
  if ((m.path = root ∧ path.head? = some slash) ∨ m.covers path = true) ∧
      (best.map fun b => b.path.length).getD 0 < m.path.length then
    some m
  else best

/-- The mount that `styxfs_path_to_host` settles for. -/
def bestMount (mounts : List Mount) (path : CStr) : Option Mount := mounts.foldl (betterMount path) none

/-- What is behind the path of a mount. -/
def restOf (m : Mount) (path : CStr) : CStr :=
  let rest := path.drop m.path.length
  if rest.head? = some slash then rest.tail else rest

/-- `styxfs_path_to_host`. -/
def pathToHost (mounts : List Mount) (path : CStr) : CStr :=
  match bestMount mounts path with
  | none => snprintf path
  | some m =>
    snprintf (if restOf m path = [] then m.source else m.source ++ slash :: restOf m path)

end WuBuOS.Styx
