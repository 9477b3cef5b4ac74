import Mathlib
import WuBuOS.Lib.Runs

/-!
# The service supervisor

`runtime/wubu_archd_svc_super.c`.  A unit is a service of a root; its entry remembers the process that runs it,
whether the service has said that it is ready, and until when it is to be left alone after it has died.  Of a
process the supervisor sees what the environment says: what `fork` returned (`Spawn`) and which processes are
alive.

`trace` is not in the program.  It records, the latest first, what a caller could have seen: processes that
were created, services that said they were ready, and starts that nobody asked for.
-/

namespace WuBuOS.Svc

/-! ## The model -/

/-- `WUBU_ARCHD_MAX_SERVICES`, `WUBU_ARCHD_MAX_ROOT_NAME` and `WUBU_ARCHD_MAX_PACKAGE_NAME`. -/
def supMax : Nat := 256

def maxRootName : Nat := 64

def maxPackageName : Nat := 128

/-- `RESTART_BACKOFF_BASE` and `RESTART_BACKOFF_MAX`. -/
def restartBackoffBase : Nat := 1

def restartBackoffMax : Nat := 60

/-- `WubuArchServiceState`. -/
inductive ServiceState where
  | disabled
  | enabled
  | running
  | failed
  | restarting
  deriving DecidableEq

/-- `wubu_svc_type_t`. -/
inductive SvcType where
  | simple
  | forking
  | notify
  deriving DecidableEq

/-- A name, as bytes. -/
abbrev Name := List UInt8

/-- `sup_entry_t`; there is no process where `pid` is 0. -/
structure SupEntry where
  root : Name
  svc : Name
  pid : Option Nat
  state : ServiceState
  lastStart : Nat
  lastStop : Nat
  restartCount : Nat
  autoRestart : Bool
  backoffUntil : Nat
  type : SvcType
  notifyReady : Bool
  deriving DecidableEq

/-- What a caller could have seen. -/
inductive Event where
  /-- A process was created for the unit, be it one that is gone when it is looked at. -/
  | spawned (i : Nat)
  /-- `wubu_svc_supervisor_notify_ready` was called for the unit. -/
  | notified (i : Nat)
  /-- The unit was started because it had died, and the window that this opened. -/
  | autoStart (i at_ until_ : Nat)
  deriving DecidableEq

/-- `wubu_svc_supervisor_t`, the processes that are alive, and what has happened. -/
structure Supervisor where
  entries : List SupEntry
  alive : Nat → Bool
  trace : List Event

/-- What becomes of a `fork`. -/
inductive Spawn where
  /-- It returns -1. -/
  | fails
  /-- The child is gone before it is looked at. -/
  | exits
  /-- The child runs. -/
  | runs (pid : Nat)

variable (s : Supervisor)

def findEntry (root svc : Name) : Option Nat := s.entries.findIdx? fun e => e.root = root ∧ e.svc = svc

/-- `pid_alive` of the process of an entry. -/
def pidAlive (e : SupEntry) : Bool := e.pid.any s.alive

def entryReady (e : SupEntry) : Bool := pidAlive s e && (if e.type = .notify then e.notifyReady else true)

/-- Write an entry. -/
def Supervisor.put (i : Nat) (e : SupEntry) : Supervisor := { s with entries := s.entries.set i e }

/-- Record an event. -/
def Supervisor.note (ev : Event) : Supervisor := { s with trace := ev :: s.trace }

/-- `wubu_svc_supervisor_start` from `fork` on. -/
def spawn (i : Nat) (e : SupEntry) (now : Nat) : Spawn → Supervisor × Int
  | .fails => (s, -1)
  | .exits => ((s.put i { e with pid := none, state := .failed, lastStop := now }).note (.spawned i), -1)
  | .runs pid =>
    let e := { e with pid := some pid, lastStart := now, state := if e.type = .notify then .restarting else .running }
    ({ s.put i e with alive := Function.update s.alive pid true, trace := .spawned i :: s.trace }, 0)

/-- `wubu_svc_supervisor_start`. -/
def start (root svc : Name) (now : Nat) (fork : Spawn) : Supervisor × Int :=
  match findEntry s root svc with
  | none => (s, -1)
  | some i =>
    match s.entries[i]? with
    | none => (s, -1)
    | some e => if entryReady s e then (s, 0) else spawn s i e now fork

/-- `wubu_svc_supervisor_stop`: the process is killed and waited for. -/
def stop (root svc : Name) (now : Nat) : Supervisor :=
  match findEntry s root svc with
  | none => s
  | some i =>
    match s.entries[i]? with
    | none => s
    | some e =>
      { s.put i { e with pid := none, state := .disabled, lastStop := now } with
        alive := match e.pid with
          | some pid => Function.update s.alive pid false
          | none => s.alive }

/-- `wubu_svc_supervisor_restart`. -/
def restart (root svc : Name) (now : Nat) (fork : Spawn) : Supervisor × Int := start (stop s root svc now) root svc now fork

/-- The doubling loop, with the rounds it has left. -/
def delayLoop : Nat → Nat → Nat
  | 0, delay => delay
  | n + 1, delay => if delay < restartBackoffMax then delayLoop n (delay * 2) else delay

/-- The backoff after so many restarts. -/
def backoff (restartCount : Nat) : Nat := min (delayLoop (restartCount - 1) restartBackoffBase) restartBackoffMax

/-- The entry of a unit that has died is started again, and the next window opens. -/
def autoStart (i : Nat) (e : SupEntry) (now : Nat) (fork : Spawn) : Supervisor :=
  let e := { e with
    restartCount := e.restartCount + 1
    backoffUntil := now + backoff (e.restartCount + 1) }
  (start ((s.put i e).note (.autoStart i now e.backoffUntil)) e.root e.svc now fork).1

/-- One turn of the loop of `wubu_svc_supervisor_reap`, and whether it counts. -/
def reapOne (now : Nat) (forks : Nat → Spawn) (i : Nat) : Supervisor × Bool :=
  match s.entries[i]? with
  | none => (s, false)
  | some e =>
    if e.pid.isSome && !pidAlive s e then
      let e := { e with pid := none, state := .failed, lastStop := now }
      if e.autoRestart = true ∧ e.backoffUntil ≤ now then (autoStart s i e now (forks i), true)
      else (s.put i e, true)
    else (s, false)

/-- One turn of the loop of `wubu_svc_supervisor_poll`, and whether it counts as an unexpected death. -/
def pollOne (now : Nat) (forks : Nat → Spawn) (i : Nat) : Supervisor × Bool :=
  match s.entries[i]? with
  | none => (s, false)
  | some e =>
    if e.pid.isSome && !pidAlive s e then
      let e := { e with pid := none, lastStop := now }
      if e.autoRestart = true ∧ e.backoffUntil ≤ now then (autoStart s i e now (forks i), false)
      else (s.put i { e with state := .failed }, true)
    else (s, false)

/-- A loop over the entries, and how many of its turns count. -/
def sweep (turn : Supervisor → Nat → Supervisor × Bool) : Supervisor × Nat :=
  (List.range s.entries.length).foldl
    (fun r i => ((turn r.1 i).1, if (turn r.1 i).2 then r.2 + 1 else r.2)) (s, 0)

/-- `wubu_svc_supervisor_reap`. -/
def reap (now : Nat) (forks : Nat → Spawn) : Supervisor × Nat := sweep s fun s i => reapOne s now forks i

/-- `wubu_svc_supervisor_poll`. -/
def poll (now : Nat) (forks : Nat → Spawn) : Supervisor × Nat := sweep s fun s i => pollOne s now forks i

/-- `wubu_svc_supervisor_notify_ready`. -/
def notifyReady (root svc : Name) : Supervisor × Int :=
  match findEntry s root svc with
  | none => (s, -1)
  | some i =>
    match s.entries[i]? with
    | none => (s, -1)
    | some e =>
      ((s.put i { e with notifyReady := true, state := if pidAlive s e then .running else e.state }).note (.notified i),
        0)

/-- `WubuArchService`, as far as `wubu_svc_supervisor_status` fills it in. -/
structure Status where
  name : Name
  rootName : Name
  pid : Option Nat
  state : ServiceState
  lastStart : Nat
  lastStop : Nat
  restartCount : Nat
  autoRestart : Bool
  deriving DecidableEq

/-- `wubu_svc_supervisor_status`. -/
def status (root svc : Name) : Option Status := do
  let i ← findEntry s root svc
  let e ← s.entries[i]?
  return {
    name := e.svc
    rootName := e.root
    pid := if pidAlive s e then e.pid else none
    state :=
      if pidAlive s e then if entryReady s e then .running else .restarting
      else if e.state = .failed then .failed
      else if e.state = .restarting then .restarting
      else .disabled
    lastStart := e.lastStart
    lastStop := e.lastStop
    restartCount := e.restartCount
    autoRestart := e.autoRestart }

/-! ## Setting up -/

/-- A unit as it is added and configured.  Names that do not fit their buffers are cut off; these fit. -/
structure UnitSpec where
  root : Name
  svc : Name
  type : SvcType
  autoRestart : Bool
  root_fits : root.length < maxRootName
  svc_fits : svc.length < maxPackageName

/-- `wubu_svc_supervisor_add`, and then `set_type` and `set_restart`. -/
def add (u : UnitSpec) : Supervisor :=
  if u.root = [] ∨ u.svc = [] ∨ supMax ≤ s.entries.length ∨ (findEntry s u.root u.svc).isSome then s
  else { s with
    entries := s.entries ++ [{
      root := u.root, svc := u.svc, pid := none, state := .disabled, lastStart := 0, lastStop := 0, restartCount := 0,
      autoRestart := u.autoRestart, backoffUntil := 0, type := u.type, notifyReady := false }] }

/-- A supervisor with its units, and whatever processes there are. -/
def setUp (alive : Nat → Bool) (units : List UnitSpec) : Supervisor := units.foldl add ⟨[], alive, []⟩

/-! ## Histories -/

/-- The calls, and what happens to the processes in between. -/
inductive Op where
  | start (root svc : Name) (now : Nat) (fork : Spawn)
  | restart (root svc : Name) (now : Nat) (fork : Spawn)
  | notifyReady (root svc : Name)
  | reap (now : Nat) (forks : Nat → Spawn)
  | poll (now : Nat) (forks : Nat → Spawn)
  | processes (alive : Nat → Bool)

def step : Op → Supervisor
  | .start root svc now fork => (start s root svc now fork).1
  | .restart root svc now fork => (restart s root svc now fork).1
  | .notifyReady root svc => (notifyReady s root svc).1
  | .reap now forks => (reap s now forks).1
  | .poll now forks => (poll s now forks).1
  | .processes alive => { s with alive := alive }

/-! ## What is promised -/

/-- The service of the unit has said that it is ready since the last process was created for it. -/
def toldSince (i : Nat) : List Event → Bool
  | [] => false
  | .spawned j :: trace => if j = i then false else toldSince i trace
  | .notified j :: trace => if j = i then true else toldSince i trace
  | .autoStart .. :: trace => toldSince i trace

/-- A unit that notifies is reported running only if it has said that it is ready. -/
def Truthful : Prop :=
  ∀ root svc i e st, findEntry s root svc = some i → s.entries[i]? = some e → e.type = .notify →
    status s root svc = some st → st.state = .running → toldSince i s.trace = true

/-- No unit is started again, unasked, before the window that the last such start opened has passed. -/
def OncePerWindow : List Event → Prop
  | [] => True
  | .autoStart i at_ _ :: trace => (∀ a u, .autoStart i a u ∈ trace → u ≤ at_) ∧ OncePerWindow trace
  | .spawned _ :: trace => OncePerWindow trace
  | .notified _ :: trace => OncePerWindow trace

/-- The unit is to be started again: a process was created for it before, none is alive, and its window has
passed. -/
def Due (now i : Nat) : Prop :=
  ∃ e, s.entries[i]? = some e ∧ e.autoRestart = true ∧ .spawned i ∈ s.trace ∧ pidAlive s e = false ∧ e.backoffUntil ≤ now

/-- One turn of the loop of a poll starts the unit if it is due. -/
def Retries (now : Nat) (forks : Nat → Spawn) (i : Nat) : Prop :=
  Due s now i → ∃ u new, (pollOne s now forks i).1.trace = new ++ s.trace ∧ .autoStart i now u ∈ new

end WuBuOS.Svc
