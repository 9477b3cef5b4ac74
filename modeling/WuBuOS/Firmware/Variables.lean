import WuBuOS.Lib.SlotMap

/-!
# The variables of the firmware

The variable services of `firmware/fw_rt.c`.  A string of `CHAR16` is a list, and behind it there are
zeros; a buffer with data is a function of the index.  A pointer that may be `NULL` is an option, and what
a call stores through its pointers is in its result.

The slots stand for a map from names and GUIDs to attributes and bytes.  What it holds is said by the
history of the calls (`lastSet`), and `store_refines` is that the services show this map: reading, and
the enumeration, which finds its place again by looking up the key that it returned last.
-/

namespace WuBuOS.Firmware

open SlotMap
open Function (update)

/-! ## The services -/

/-- `MAX_VARS`, `VAR_NAME_MAX` and `VAR_DATA_MAX`. -/
abbrev maxVars : Nat := 64
abbrev varNameMax : Nat := 64
abbrev varDataMax : Nat := 1024

abbrev Char16 := UInt16

/-- `EFI_GUID`. -/
structure Guid where
  data1 : BitVec 32
  data2 : BitVec 16
  data3 : BitVec 16
  data4 : Vector (BitVec 8) 8
  deriving DecidableEq

inductive EfiStatus where
  | success | invalidParameter | notFound | bufferTooSmall | outOfResources
  deriving DecidableEq

/-- `fw_var`. -/
structure Var where
  used : Bool
  name : List Char16
  guid : Guid
  attr : BitVec 32
  size : Nat
  data : Nat → BitVec 8

/-- A variable of zeros. -/
def zeroVar : Var := ⟨false, .replicate varNameMax 0, ⟨0, 0, 0, .replicate 8 0⟩, 0, 0, fun _ => 0⟩

/-- `g_vars`. -/
abbrev Vars := Fin maxVars → Var

def Vars.init : Vars := fun _ => zeroVar

/-- The characters in front of the first zero. -/
def chars (s : List Char16) : List Char16 := s.takeWhile (· ≠ 0)

def fwStrlen16 (s : List Char16) : Nat := (chars s).length

def nameEq16 : List Char16 → List Char16 → Bool
  | [], b => b.headD 0 = 0
  | x :: a, b => if x ≠ 0 ∧ x = b.headD 0 then nameEq16 a b.tail else x = 0 ∧ b.headD 0 = 0

def varFind (st : Vars) (name : List Char16) (guid : Guid) : Option (Fin maxVars) :=
  (List.finRange maxVars).find? fun i => (st i).used && nameEq16 (st i).name name && (st i).guid = guid

/-- What `fw_rt_get_variable` stores through `attr`, `size` and `data`. -/
structure Got where
  status : EfiStatus
  attr : Option (BitVec 32)
  size : Option Nat
  data : List (BitVec 8)
  deriving DecidableEq

/-- `data` says whether there is a buffer. -/
def fwRtGetVariable (st : Vars) (name : Option (List Char16)) (guid : Option Guid) (size : Option Nat)
    (data : Bool) : Got :=
  match name, guid, size with
  | some name, some guid, some size =>
    match varFind st name guid with
    | none => ⟨.notFound, none, none, []⟩
    | some i =>
      if size < (st i).size ∨ ¬data then ⟨.bufferTooSmall, some (st i).attr, some (st i).size, []⟩
      else ⟨.success, some (st i).attr, some (st i).size, (List.range (st i).size).map (st i).data⟩
  | _, _, _ => ⟨.invalidParameter, none, none, []⟩

/-- What `fw_rt_get_next_variable` stores through `nsz`, and through `name` and `guid`. -/
structure GotNext where
  status : EfiStatus
  nsz : Option Nat
  key : Option (List Char16 × Guid)
  deriving DecidableEq

def fwRtGetNextVariable (st : Vars) (nsz : Option Nat) (name : Option (List Char16)) (guid : Option Guid) :
    GotNext :=
  match nsz, name, guid with
  | some nsz, some name, some guid =>
    let start := if name.headD 0 ≠ 0 then (varFind st name guid).map fun i => i.val + 1 else some 0
    match start with
    | none => ⟨.invalidParameter, none, none⟩
    | some start =>
      match ((List.finRange maxVars).drop start).find? fun i => (st i).used with
      | none => ⟨.notFound, none, none⟩
      | some i =>
        let need := (fwStrlen16 (st i).name + 1) * 2
        if nsz < need then ⟨.bufferTooSmall, some need, none⟩
        else ⟨.success, some need, some ((st i).name.take (fwStrlen16 (st i).name + 1), (st i).guid)⟩
  | _, _, _ => ⟨.invalidParameter, none, none⟩

/-- The last lines of `fw_rt_set_variable`. -/
def Var.store (v : Var) (attr : BitVec 32) (size : Nat) (data : Nat → BitVec 8) : Var :=
  { v with attr := attr, size := size, data := fun a => if a < size then data a else v.data a }

/-- A slot that is taken: its name is padded with the zeros of `fw_memset`. -/
def newVar (name : List Char16) (guid : Guid) : Var :=
  { zeroVar with
    used := true
    name := chars name ++ .replicate (varNameMax - fwStrlen16 name) 0
    guid := guid }

def fwRtSetVariable (st : Vars) (name : Option (List Char16)) (guid : Option Guid) (attr : BitVec 32)
    (size : Nat) (data : Option (Nat → BitVec 8)) : Vars × EfiStatus :=
  match name, guid with
  | some name, some guid =>
    if name.headD 0 = 0 then (st, .invalidParameter)
    else if varDataMax < size then (st, .outOfResources)
    else if varNameMax ≤ fwStrlen16 name then (st, .outOfResources)
    else
      match if size = 0 then none else data with
      | none =>
        match varFind st name guid with
        | none => (st, .notFound)
        | some i => (update st i { st i with used := false }, .success)
      | some data =>
        match varFind st name guid with
        | some i => (update st i ((st i).store attr size data), .success)
        | none =>
          match (List.finRange maxVars).find? fun i => !(st i).used with
          | none => (st, .outOfResources)
          | some i => (update st i ((newVar name guid).store attr size data), .success)
  | _, _ => (st, .invalidParameter)

/-! ## What is promised -/

/-- A name, up to its zero, and a GUID. -/
abbrev Key := List Char16 × Guid

/-- Attributes, and the bytes. -/
abbrev Value := BitVec 32 × List (BitVec 8)

structure SetCall where
  name : Option (List Char16)
  guid : Option Guid
  attr : BitVec 32
  size : Nat
  data : Option (Nat → BitVec 8)

def SetCall.exec (st : Vars) (c : SetCall) : Vars × EfiStatus := fwRtSetVariable st c.name c.guid c.attr c.size c.data

def SetCall.key (c : SetCall) : Option Key := c.name.bind fun name => c.guid.map fun guid => (chars name, guid)

/-- What the call stores, nothing if it deletes. -/
def SetCall.value (c : SetCall) : Option Value :=
  (if c.size = 0 then none else c.data).map fun data => (c.attr, (List.range c.size).map data)

/-- The calls so far with what they returned, the last one first. -/
abbrev History := List (SetCall × EfiStatus)

/-- What the last successful call for the key has stored. -/
def lastSet (k : Key) : History → Option Value
  | [] => none
  | (c, status) :: rest => if status = .success ∧ c.key = some k then c.value else lastSet k rest

structure Log where
  vars : Vars
  history : History

def Log.next (g : Log) (c : SetCall) : Log := ⟨(c.exec g.vars).1, (c, (c.exec g.vars).2) :: g.history⟩

/-- The log after the calls. -/
def Log.run (calls : List SetCall) : Log := calls.foldl Log.next ⟨Vars.init, []⟩

/-- Asking for one variable after the other, with room for the names, until there are no more. -/
inductive Enumerates (st : Vars) (nsz : Nat) : List Char16 → Guid → List Key → Prop
  | done {name : List Char16} {guid : Guid}
      (h : (fwRtGetNextVariable st (some nsz) (some name) (some guid)).status = .notFound) :
      Enumerates st nsz name guid []
  | step {name name' : List Char16} {guid guid' : Guid} {need : Nat} {keys : List Key}
      (h : fwRtGetNextVariable st (some nsz) (some name) (some guid) = ⟨.success, need, some (name', guid')⟩)
      (hrest : Enumerates st nsz name' guid' keys) : Enumerates st nsz name guid ((chars name', guid') :: keys)

/-- The services show what the history says. -/
structure Shows (st : Vars) (map : Key → Option Value) : Prop where
  found : ∀ name guid attr bytes size, map (chars name, guid) = some (attr, bytes) → bytes.length ≤ size →
    fwRtGetVariable st (some name) (some guid) (some size) true =
      ⟨.success, some attr, some bytes.length, bytes⟩
  absent : ∀ name guid size data, map (chars name, guid) = none →
    (fwRtGetVariable st (some name) (some guid) (some size) data).status = .notFound
  enumerated : ∀ nsz guid, (∀ k, map k ≠ none → (k.1.length + 1) * 2 ≤ nsz) →
    ∃ keys, Enumerates st nsz [] guid keys ∧ keys.Nodup ∧ ∀ k, k ∈ keys ↔ map k ≠ none
  refused : ∀ c : SetCall, (c.exec st).2 ≠ .success → (c.exec st).1 = st

/-! ## Names -/

@[simp] theorem chars_nil : chars [] = [] := rfl

@[simp] theorem chars_zero (s : List Char16) : chars (0 :: s) = [] := rfl

@[simp] theorem chars_cons {x : Char16} (hx : x ≠ 0) (s : List Char16) : chars (x :: s) = x :: chars s :=
  List.takeWhile_cons_of_pos (decide_eq_true hx)

theorem chars_eq_nil_iff : ∀ s : List Char16, chars s = [] ↔ s.headD 0 = 0
  | [] => by simp
  | x :: s => by
    by_cases hx : x = 0
    · subst hx
      simp
    · simp [hx]

theorem nameEq16_iff : ∀ a b : List Char16, nameEq16 a b = true ↔ chars a = chars b
  | [], b => by
    rw [nameEq16, decide_eq_true_iff, chars_nil, eq_comm (a := []), chars_eq_nil_iff]
  | x :: a, b => by
    by_cases hx : x = 0
    · subst hx
      rw [nameEq16, if_neg (fun h => h.1 rfl), decide_eq_true_iff, chars_zero, eq_comm (a := []), chars_eq_nil_iff]
      exact and_iff_right rfl
    rw [nameEq16, chars_cons hx]
    cases b with
    | nil =>
      rw [if_neg (fun h => hx h.2)]
      simp [hx]
    | cons y b =>
      by_cases hxy : x = y
      · subst hxy
        rw [if_pos ⟨hx, rfl⟩, chars_cons hx, List.cons.injEq]
        exact (nameEq16_iff a b).trans (and_iff_right rfl).symm
      · rw [if_neg (fun h => hxy h.2)]
        by_cases hy : y = 0
        · subst hy
          simp [hx]
        · simp [hx, hy, hxy]

/-- The key of a slot in use. -/
def keyOf (v : Var) : Option Key := if v.used then some (chars v.name, v.guid) else none

def valueOf (v : Var) : Value := (v.attr, (List.range v.size).map v.data)

variable {st : Vars} {name : List Char16} {guid : Guid} {i : Fin maxVars} {k : Key} {v : Var}

theorem keyOf_eq_some_iff : keyOf v = some k ↔ v.used = true ∧ chars v.name = k.1 ∧ v.guid = k.2 := by
  unfold keyOf
  split
  · rename_i hu
    rw [Option.some.injEq, Prod.ext_iff]
    exact ⟨fun h => ⟨hu, h⟩, fun h => h.2⟩
  · rename_i hu
    exact ⟨nofun, fun h => absurd h.1 hu⟩

theorem varFind_eq (st : Vars) (name : List Char16) (guid : Guid) :
    varFind st name guid = find keyOf st (chars name, guid) := by
  unfold varFind find
  congr 1
  funext i
  rw [Bool.eq_iff_iff, Bool.and_eq_true, Bool.and_eq_true, nameEq16_iff, decide_eq_true_iff, decide_eq_true_iff,
    keyOf_eq_some_iff, and_assoc]

/-! ## The invariant -/

/-- The variables and what the history says: keys are unique, names fit, and the map is the history's. -/
structure Stands (st : Vars) (map : Key → Option Value) : Prop where
  unique : Unique keyOf st
  names : ∀ i, (st i).used = true → (st i).name.headD 0 ≠ 0
  view : ∀ k, view keyOf valueOf st k = map k

variable {map : Key → Option Value}

/-- The map under a key of the store. -/
theorem Stands.eq_some_iff (h : Stands st map) {value : Value} :
    map k = some value ↔ ∃ i, keyOf (st i) = some k ∧ valueOf (st i) = value := by
  rw [← h.view, SlotMap.view, Option.map_eq_some_iff]
  exact exists_congr fun i => and_congr_left' h.unique.find_eq_some_iff

theorem Stands.eq_none_iff (h : Stands st map) : map k = none ↔ find keyOf st k = none := by
  rw [← h.view, SlotMap.view, Option.map_eq_none_iff]

theorem stands_init : Stands Vars.init (fun _ => none) :=
  ⟨fun _ _ _ hi => absurd hi nofun, fun _ hu => absurd hu nofun, fun _ => view_eq_none_iff.2 fun _ hi => absurd hi nofun⟩

/-! ## Setting -/

theorem valueOf_store (v : Var) (attr : BitVec 32) (size : Nat) (data : Nat → BitVec 8) :
    valueOf (v.store attr size data) = (attr, (List.range size).map data) := by
  refine congrArg (Prod.mk attr) (List.map_congr_left fun a ha => ?_)
  exact if_pos (List.mem_range.1 ha)

theorem chars_append_zero : ∀ (s : List Char16) (n : Nat), chars (chars s ++ .replicate n 0) = chars s
  | [], 0 => rfl
  | [], n + 1 => rfl
  | x :: s, n => by
    by_cases hx : x = 0
    · subst hx
      cases n <;> rfl
    · rw [chars_cons hx, List.cons_append, chars_cons hx, chars_append_zero s n]

theorem keyOf_newVar (name : List Char16) (guid : Guid) : keyOf (newVar name guid) = some (chars name, guid) := by
  rw [keyOf_eq_some_iff]
  exact ⟨rfl, chars_append_zero name _, rfl⟩

/-- **What a call to `fw_rt_set_variable` does**: nothing if it fails, and otherwise it writes a slot that
is free or has the key, with the key and what is stored, or frees the slot with the key. -/
theorem exec_cases (st : Vars) (c : SetCall) : ((c.exec st).2 ≠ .success ∧ (c.exec st).1 = st) ∨
    ((c.exec st).2 = .success ∧ ∃ name guid i v, c.name = some name ∧ c.guid = some guid ∧ name.headD 0 ≠ 0 ∧
      (c.exec st).1 = update st i v ∧
      ((c.value = none ∧ varFind st name guid = some i ∧ keyOf v = none) ∨
        (∃ value, c.value = some value ∧ keyOf v = some (chars name, guid) ∧ valueOf v = value ∧
          (varFind st name guid = some i ∨ varFind st name guid = none ∧ (st i).used = false)))) := by
  obtain ⟨name, guid, attr, size, data⟩ := c
  unfold SetCall.exec fwRtSetVariable SetCall.value
  cases name with
  | none => exact .inl ⟨nofun, rfl⟩
  | some name =>
  cases guid with
  | none => exact .inl ⟨nofun, rfl⟩
  | some guid =>
  dsimp only
  split
  · exact .inl ⟨nofun, rfl⟩
  rename_i hname
  split
  · exact .inl ⟨nofun, rfl⟩
  split
  · exact .inl ⟨nofun, rfl⟩
  cases if size = 0 then none else data with
  | none =>
    cases hfind : varFind st name guid with
    | none => exact .inl ⟨nofun, rfl⟩
    | some i => exact .inr ⟨rfl, name, guid, i, _, rfl, rfl, hname, rfl, .inl ⟨rfl, hfind, rfl⟩⟩
  | some data =>
    cases hfind : varFind st name guid with
    | some i =>
      have hkey : keyOf (st i) = some (chars name, guid) := key_of_find ((varFind_eq ..).symm.trans hfind)
      exact .inr ⟨rfl, name, guid, i, _, rfl, rfl, hname, rfl, .inr ⟨_, rfl, hkey, valueOf_store .., .inl hfind⟩⟩
    | none =>
      cases hfree : (List.finRange maxVars).find? fun i => !(st i).used with
      | none => exact .inl ⟨nofun, rfl⟩
      | some i =>
        have hunused := List.find?_some hfree
        rw [Bool.not_eq_true'] at hunused
        exact .inr ⟨rfl, name, guid, i, _, rfl, rfl, hname, rfl,
          .inr ⟨_, rfl, keyOf_newVar name guid, valueOf_store .., .inr ⟨hfind, hunused⟩⟩⟩

theorem lastSet_cons {c : SetCall} {rest : History} (hn : c.name = some name) (hg : c.guid = some guid) :
    lastSet k ((c, .success) :: rest) = if (chars name, guid) = k then c.value else lastSet k rest := by
  rw [lastSet, SetCall.key, hn, hg]
  refine if_congr ?_ rfl rfl
  rw [Option.bind_some, Option.map_some, Option.some.injEq]
  exact and_iff_right rfl

/-- The log is in order: the variables stand for what the history says. -/
def Log.Ok (g : Log) : Prop := Stands g.vars fun k => lastSet k g.history

theorem Log.Ok.next {g : Log} (h : g.Ok) (c : SetCall) : (g.next c).Ok := by
  unfold Log.Ok Log.next
  rcases exec_cases g.vars c with ⟨hne, hst⟩ | ⟨hs, name, guid, i, v, hn, hg, hname, hst, hcase⟩
  · dsimp only
    simp only [hst, lastSet, hne, false_and, if_false]
    exact h
  simp only [hst, hs, lastSet_cons hn hg]
  -- The slot had this key or none, and the new contents have it or none.
  have hkeys : (c.value = none ∧ keyOf v = none ∧ keyOf (g.vars i) = some (chars name, guid)) ∨
      (c.value = some (valueOf v) ∧ keyOf v = some (chars name, guid) ∧ (keyOf (g.vars i) = some (chars name, guid) ∨
          keyOf (g.vars i) = none ∧ ∀ j, keyOf (g.vars j) ≠ some (chars name, guid))) := by
    rcases hcase with ⟨hc, hfind, hv⟩ | ⟨value, hc, hv, hval, hfind | ⟨hfind, hfree⟩⟩
    · exact .inl ⟨hc, hv, key_of_find ((varFind_eq ..).symm.trans hfind)⟩
    · exact .inr ⟨hval ▸ hc, hv, .inl (key_of_find ((varFind_eq ..).symm.trans hfind))⟩
    · refine .inr ⟨hval ▸ hc, hv, .inr ⟨?_, find_eq_none_iff.1 ((varFind_eq ..).symm.trans hfind)⟩⟩
      rw [keyOf, hfree]
      rfl
  have hother : ∀ k, keyOf v = some k → ∀ j, j ≠ i → keyOf (g.vars j) ≠ some k := by
    rintro k hk j hji hj
    rcases hkeys with ⟨-, hv, -⟩ | ⟨-, hv, hold | ⟨-, hnone⟩⟩
    · exact absurd (hv.symm.trans hk) nofun
    · exact hji (h.unique j i k hj (hold.trans (hv.symm.trans hk)))
    · exact hnone j (hj.trans (hk.symm.trans hv))
  refine ⟨h.unique.update hother, fun j hj => ?_, fun k => ?_⟩
  · by_cases hji : j = i
    · subst hji
      rw [Function.update_self] at hj ⊢
      rcases hkeys with ⟨-, hv, -⟩ | ⟨-, hv, -⟩
      · rw [keyOf, hj] at hv
        cases hv
      · rw [Ne, ← chars_eq_nil_iff, (keyOf_eq_some_iff.1 hv).2.1, chars_eq_nil_iff]
        exact hname
    · rw [Function.update_of_ne hji] at hj ⊢
      exact h.names j hj
  · rw [h.unique.view_update hother, h.view]
    by_cases hk : (chars name, guid) = k
    · rw [if_pos hk]
      rcases hkeys with ⟨hc, hv, hold⟩ | ⟨hc, hv, -⟩
      · rw [hc, hv, if_neg nofun, if_pos (hold.trans (congrArg some hk))]
      · rw [hc, if_pos (hv.trans (congrArg some hk))]
    · have hne : ∀ o : Option Key, o = some (chars name, guid) → o ≠ some k := fun o ho he =>
        hk (Option.some.inj (ho.symm.trans he))
      rw [if_neg hk]
      rcases hkeys with ⟨-, hv, hold⟩ | ⟨-, hv, hold | ⟨hold, -⟩⟩
      · rw [hv, if_neg nofun, if_neg (hne _ hold)]
      · rw [if_neg (hne _ hv), if_neg (hne _ hold)]
      · rw [if_neg (hne _ hv), hold, if_neg nofun]

theorem Log.ok_run (calls : List SetCall) : (Log.run calls).Ok := by
  have hall : ∀ (l : List SetCall) (g : Log), g.Ok → (l.foldl Log.next g).Ok := fun l => by
    induction l with
    | nil => exact fun g h => h
    | cons c l ih => exact fun g h => ih _ (h.next c)
  exact hall calls ⟨Vars.init, []⟩ stands_init

/-! ## Reading -/

theorem Stands.found (h : Stands st map) {attr : BitVec 32} {bytes : List (BitVec 8)} {size : Nat}
    (hmap : map (chars name, guid) = some (attr, bytes)) (hsize : bytes.length ≤ size) :
    fwRtGetVariable st (some name) (some guid) (some size) true = ⟨.success, some attr, some bytes.length, bytes⟩ := by
  obtain ⟨i, hi, hv⟩ := h.eq_some_iff.1 hmap
  have hfind : varFind st name guid = some i := (varFind_eq ..).trans (h.unique.find_eq_some_iff.2 hi)
  obtain ⟨rfl, rfl⟩ := Prod.mk.inj hv
  rw [List.length_map, List.length_range] at hsize ⊢
  unfold fwRtGetVariable
  dsimp only
  rw [hfind]
  dsimp only
  rw [if_neg (by simpa using hsize)]

theorem Stands.absent (h : Stands st map) (size : Nat) (data : Bool) (hmap : map (chars name, guid) = none) :
    (fwRtGetVariable st (some name) (some guid) (some size) data).status = .notFound := by
  have hfind : varFind st name guid = none := (varFind_eq ..).trans (h.eq_none_iff.1 hmap)
  unfold fwRtGetVariable
  dsimp only
  rw [hfind]

/-! ## Enumeration -/

theorem chars_take : ∀ s : List Char16, chars (s.take (fwStrlen16 s + 1)) = chars s
  | [] => rfl
  | x :: s => by
    by_cases hx : x = 0
    · subst hx
      rfl
    · have hlen : fwStrlen16 (x :: s) = fwStrlen16 s + 1 := by
        rw [fwStrlen16, chars_cons hx]
        rfl
      rw [hlen, List.take_succ_cons, chars_cons hx, chars_cons hx, chars_take s]

/-- The keys of the slots in use from a slot on. -/
def keysFrom (st : Vars) (start : Nat) : List Key :=
  (slotsFrom (fun i => (st i).used) start).map fun i => (chars (st i).name, (st i).guid)

/-- Where the search for the next variable starts. -/
def StartsAt (st : Vars) (name : List Char16) (guid : Guid) (start : Nat) : Prop :=
  (if name.headD 0 ≠ 0 then (varFind st name guid).map fun i => i.val + 1 else some 0) = some start

theorem getNext_eq (nsz : Nat) {start : Nat} (hstart : StartsAt st name guid start) :
    fwRtGetNextVariable st (some nsz) (some name) (some guid) =
      match ((List.finRange maxVars).drop start).find? fun i => (st i).used with
      | none => ⟨.notFound, none, none⟩
      | some i =>
        if nsz < (fwStrlen16 (st i).name + 1) * 2 then ⟨.bufferTooSmall, some ((fwStrlen16 (st i).name + 1) * 2), none⟩
        else ⟨.success, some ((fwStrlen16 (st i).name + 1) * 2),
          some ((st i).name.take (fwStrlen16 (st i).name + 1), (st i).guid)⟩ := by
  unfold StartsAt at hstart
  unfold fwRtGetNextVariable
  dsimp only
  rewrite [hstart]
  rfl

/-- Behind the variable in a slot the search goes on with the next slot. -/
theorem Stands.startsAt (h : Stands st map) (hu : (st i).used = true) :
    StartsAt st ((st i).name.take (fwStrlen16 (st i).name + 1)) (st i).guid (i + 1) := by
  have hname : ((st i).name.take (fwStrlen16 (st i).name + 1)).headD 0 ≠ 0 := by
    rw [Ne, ← chars_eq_nil_iff, chars_take, chars_eq_nil_iff]
    exact h.names i hu
  have hfind : varFind st ((st i).name.take (fwStrlen16 (st i).name + 1)) (st i).guid = some i := by
    rw [varFind_eq, chars_take, h.unique.find_eq_some_iff, keyOf, if_pos hu]
  rw [StartsAt, if_pos hname, hfind]
  rfl

/-- **From a slot on, the variables come in the order of their slots.**  The induction is on the slots in
use that are left. -/
theorem Stands.enumerates (h : Stands st map) {nsz : Nat}
    (hroom : ∀ i, (st i).used = true → (fwStrlen16 (st i).name + 1) * 2 ≤ nsz) (name : List Char16) (guid : Guid)
    (start : Nat) (hstart : StartsAt st name guid start) : Enumerates st nsz name guid (keysFrom st start) := by
  unfold keysFrom
  generalize hl : slotsFrom (fun i => (st i).used) start = l
  have hnext := getNext_eq nsz hstart
  induction l generalizing name guid start with
  | nil =>
    cases hf : ((List.finRange maxVars).drop start).find? fun i => (st i).used with
    | none =>
      rw [hf] at hnext
      exact .done (congrArg GotNext.status hnext)
    | some j => exact absurd ((slotsFrom_next hf).symm.trans hl) nofun
  | cons j l ih =>
    cases hf : ((List.finRange maxVars).drop start).find? fun i => (st i).used with
    | none => exact absurd ((slotsFrom_none hf).symm.trans hl) nofun
    | some j' =>
      obtain ⟨rfl, hrest⟩ := List.cons.inj ((slotsFrom_next hf).symm.trans hl)
      have hu := List.find?_some hf
      rw [hf] at hnext
      dsimp only at hnext
      rw [if_neg (Nat.not_lt_of_le (hroom j' hu))] at hnext
      have hkey : chars ((st j').name.take (fwStrlen16 (st j').name + 1)) = chars (st j').name := chars_take _
      rw [List.map_cons, ← hkey]
      exact .step hnext (ih _ _ _ (h.startsAt hu) hrest (getNext_eq nsz (h.startsAt hu)))

theorem mem_slotsFrom_zero (used : Fin maxVars → Bool) : i ∈ slotsFrom used 0 ↔ used i = true := by
  rw [slotsFrom, List.drop_zero, List.mem_filter]
  exact and_iff_right (List.mem_finRange i)

theorem Stands.mem_keys (h : Stands st map) : k ∈ keysFrom st 0 ↔ map k ≠ none := by
  have hmem : k ∈ keysFrom st 0 ↔ ∃ i, keyOf (st i) = some k := by
    rw [keysFrom, List.mem_map]
    refine exists_congr fun i => ?_
    rw [mem_slotsFrom_zero, keyOf_eq_some_iff, Prod.ext_iff]
  rw [hmem, Option.ne_none_iff_exists']
  exact ⟨fun ⟨i, hi⟩ => ⟨valueOf (st i), h.eq_some_iff.2 ⟨i, hi, rfl⟩⟩,
    fun ⟨value, hv⟩ => (h.eq_some_iff.1 hv).imp fun _ hi => hi.1⟩

theorem Stands.nodup_keys (h : Stands st map) : (keysFrom st 0).Nodup := by
  refine List.Nodup.map_on (fun i hi j hj he => ?_) ((List.nodup_finRange _).filter _)
  have hi : (st i).used = true := (mem_slotsFrom_zero fun i => (st i).used).1 hi
  have hj : (st j).used = true := (mem_slotsFrom_zero fun i => (st i).used).1 hj
  refine h.unique i j _ (if_pos hi) ?_
  rw [he]
  exact if_pos hj

/-! ## All calls -/

theorem Stands.shows (h : Stands st map) : Shows st map where
  found _ _ _ _ _ := h.found
  absent _ _ size data := h.absent size data
  enumerated nsz guid hroom := by
    refine ⟨keysFrom st 0, h.enumerates (fun i hu => ?_) [] guid 0 rfl, h.nodup_keys, fun k => h.mem_keys⟩
    have hk : keyOf (st i) = some (chars (st i).name, (st i).guid) := if_pos hu
    exact hroom _ (Option.ne_none_iff_exists'.2 ⟨_, h.eq_some_iff.2 ⟨i, hk, rfl⟩⟩)
  refused c hne := by
    rcases exec_cases st c with ⟨-, hst⟩ | ⟨hs, -⟩
    · exact hst
    · exact absurd hs hne

/-- **The variable store is a map**: after any calls of `fw_rt_set_variable` the services show what the last
successful call for each key has stored. -/
theorem store_refines (calls : List SetCall) :
    Shows (Log.run calls).vars fun k => lastSet k (Log.run calls).history := (Log.ok_run calls).shows

/-- Two variables, the first of them set twice. -/
def threeSets : List SetCall :=
  [⟨some [65], some zeroVar.guid, 3, 2, some fun _ => 7⟩, ⟨some [66], some zeroVar.guid, 7, 1, some fun _ => 9⟩,
    ⟨some [65], some zeroVar.guid, 1, 1, some fun _ => 8⟩]

example :
    let st := (Log.run threeSets).vars
    let next := fun name => fwRtGetNextVariable st (some 4) (some name) (some zeroVar.guid)
    fwRtGetVariable st (some [65]) (some zeroVar.guid) (some 4) true = ⟨.success, some 1, some 1, [8]⟩ ∧
      next [] = ⟨.success, some 4, some ([65, 0], zeroVar.guid)⟩ ∧
      next [65, 0] = ⟨.success, some 4, some ([66, 0], zeroVar.guid)⟩ ∧ (next [66, 0]).status = .notFound := by
  decide

end WuBuOS.Firmware
