import WuBuOS.Kernel.TimerWheel

/-!
# Tasks and the scheduler

`kernel/tasking.c`, in its bare-metal build.  A task is a `CTask` on the kernel heap; the tasks form
a circular doubly linked list that `g_head` points into, and `g_current` is the one that runs.
Everything below is about that graph, so pointers are kept: a task is known by its address, `next`
and `prev` hold addresses, and `NULL` is `0`.

* The heap maps an address to the task that lives there, if one does.  A function that follows a
  pointer to memory that holds no task has no defined outcome, and its model returns `none`; so do
  the places where the code halts the machine on purpose (the watchdog, the stack canary) and a walk
  of the ring that never comes back.
* A walk of the ring is a recursion on fuel.  There are never more tasks than ids handed out, so a
  walk that has taken `g_next_id` steps without meeting its start is going round something else.
* `mem_alloc` is another component.  What a call of `task_create` needs to know of it is whether
  each of its three allocations succeeded and where the task went: that is a `TaskAlloc`, given with
  the call.
* What a context switch does to the registers is not modelled, so `context`, `user_data` and the
  stacks are left out, the one word of a stack excepted that the canary test reads.
-/

namespace WuBuOS.Tasking

open TimerWheel
open Function (update)

/-! ## The data -/

/-- The address of a task; `0` is `NULL`. -/
abbrev Addr := Nat

inductive TaskState
  | unused | running | ready | blocked | sleeping | dying
  deriving DecidableEq, Repr

inductive TaskPriority
  | idle | low | normal | high | realtime
  deriving DecidableEq, Repr

/-- The value of the enumeration constant. -/
def TaskPriority.toInt : TaskPriority → UInt32
  | idle => 0
  | low => 1
  | normal => 2
  | high => 3
  | realtime => 4

structure CTask where
  state : TaskState
  priority : TaskPriority
  /-- `int task_id`, which is never negative. -/
  taskId : Nat
  /-- The bytes of `name` up to its terminator. -/
  name : List UInt8
  /-- The word at the low end of the stack. -/
  canary : UInt64
  stackSize : UInt64
  wakeTick : UInt64
  totalTicks : UInt64
  vruntime : UInt64
  deadline : UInt64
  weight : UInt32
  slice : UInt32
  /-- The capabilities the task holds. -/
  caps : UInt64
  /-- The most it may ever hold. -/
  ceiling : UInt64
  stallTicks : UInt64
  next : Addr
  prev : Addr
  entry : Addr
  entryArg : Addr
  deriving DecidableEq, Repr

/-- The globals of `tasking.c`, and the heap its tasks live on. -/
structure Kernel where
  heap : Addr → Option CTask
  gCurrent : Addr
  gHead : Addr
  gNextId : Nat
  gTick : UInt64
  gMinVruntime : UInt64
  gSleepWheel : Tw
  gInitialized : Bool

/-- The globals as the loader leaves them. -/
def boot : Kernel where
  heap := fun _ => none
  gCurrent := 0
  gHead := 0
  gNextId := 1
  gTick := 0
  gMinVruntime := 0
  gSleepWheel := twInit
  gInitialized := false

/-- Assign to fields of the task at `a`: undefined if there is none. -/
def Kernel.write (k : Kernel) (a : Addr) (f : CTask → CTask) : Option Kernel :=
  (k.heap a).map fun t => { k with heap := update k.heap a (some (f t)) }

/-- `mem_free` of a task. -/
def Kernel.free (k : Kernel) (a : Addr) : Kernel :=
  { k with heap := update k.heap a none }

/-- `t->state = st`. -/
def CTask.withState (st : TaskState) (t : CTask) : CTask := { t with state := st }

def watchdogStallLimit : UInt64 := 5000

/-- The stack canary. -/
def canaryVal : UInt64 := 0xCAFEBABECAFEBABE

/-! ## The ring -/

/-- `task_insert`: link `t` in behind the head. -/
def taskInsert (k : Kernel) (t : Addr) : Option Kernel :=
  if k.gHead = 0 then
    { k with gHead := t }.write t fun c => { c with next := t, prev := t }
  else do
    let h ← k.heap k.gHead
    let k₁ ← k.write t fun c => { c with next := k.gHead, prev := h.prev }
    let k₂ ← k₁.write h.prev fun c => { c with next := t }
    k₂.write k.gHead fun c => { c with prev := t }

/-- The branch of `task_remove`: take `t`, whose fields are `c`, out of the ring. -/
def unlink (k : Kernel) (t : Addr) (c : CTask) : Option Kernel :=
  if c.next = t then some { k with gHead := 0 }
  else do
    let k₁ ← k.write c.prev fun p => { p with next := c.next }
    let k₂ ← k₁.write c.next fun n => { n with prev := c.prev }
    some { k₂ with gHead := if k.gHead = t then c.next else k.gHead }

def taskRemove (k : Kernel) (t : Addr) : Option Kernel := do
  let c ← k.heap t
  let k₁ ← unlink k t c
  k₁.write t fun c => { c with next := 0, prev := 0 }

/-! ## Creating and destroying tasks -/

/-- How the allocations of one call of `task_create` turn out. -/
structure TaskAlloc where
  /-- Where the `CTask` is put; `0` if there is no room. -/
  task : Addr
  /-- The stack could be allocated. -/
  stack : Bool
  /-- The jump buffer could be allocated. -/
  userData : Bool
  deriving DecidableEq, Repr

/-- What an allocator promises: memory that is not in use. -/
def TaskAlloc.Fresh (al : TaskAlloc) (k : Kernel) : Prop := al.task = 0 ∨ k.heap al.task = none

instance (al : TaskAlloc) (k : Kernel) : Decidable (al.Fresh k) :=
  inferInstanceAs (Decidable (al.task = 0 ∨ k.heap al.task = none))

/-- A name as it fits a `char[32]`. -/
def nameField (name : List UInt8) : List UInt8 := name.take 31

/-- `t->weight = 128u << prio`. -/
def weightOf (prio : TaskPriority) : UInt32 := 128 <<< prio.toInt

/-- The arguments of `task_create`. -/
structure TaskSpec where
  /-- `none` is a null `name`. -/
  name : Option (List UInt8)
  entry : Addr
  entryArg : Addr
  /-- `0` asks for the default. -/
  stackSz : UInt64
  prio : TaskPriority
  deriving DecidableEq, Repr

/-- The `CTask` that `task_create` fills in, before it is linked into the ring. -/
def newTask (k : Kernel) (a : TaskSpec) : CTask where
  state := .ready
  priority := a.prio
  taskId := k.gNextId
  name := nameField (a.name.getD [97, 110, 111, 110])
  canary := canaryVal
  stackSize := if a.stackSz = 0 then 65536 else a.stackSz
  wakeTick := 0
  totalTicks := 0
  vruntime := k.gMinVruntime
  deadline := k.gMinVruntime + (4 * 1024 / weightOf a.prio).toUInt64
  weight := weightOf a.prio
  slice := 4 * 1024 / weightOf a.prio
  caps := 0
  ceiling := 0
  stallTicks := 0
  next := 0
  prev := 0
  entry := a.entry
  entryArg := a.entryArg

/-- `task_create`.  The id is taken before the last allocation, so a call that fails there uses one
up; ids are `int`s, and there is no defined behaviour once they run out. -/
def taskCreate (k : Kernel) (a : TaskSpec) (al : TaskAlloc) : Option (Kernel × Addr) :=
  if al.task = 0 ∨ al.stack = false then some (k, 0)
  else if 2 ^ 31 ≤ k.gNextId + 1 then none
  else
    let k₁ := { k with gNextId := k.gNextId + 1 }
    if al.userData = false then some (k₁, 0)
    else do
      let k₂ ← taskInsert
        { k₁ with heap := update k.heap al.task (some (newTask k a)) } al.task
      some (k₂, al.task)

def taskDestroy (k : Kernel) (t : Addr) : Option Kernel :=
  if t = 0 then some k
  else do
    let k₁ ← k.write t (.withState .dying)
    let k₂ ← taskRemove k₁ t
    some (k₂.free t)

/-- The loop of `task_kill`. -/
def killLoop (pid : Int) (k : Kernel) : Nat → Addr → Option Kernel
  | 0, _ => none
  | fuel + 1, t => do
    let c ← k.heap t
    if (c.taskId : Int) = pid then taskDestroy k t
    else if c.next = k.gHead then some k
    else killLoop pid k fuel c.next

def taskKill (k : Kernel) (pid : Int) : Option Kernel :=
  if pid ≤ 0 then some k
  else if k.gHead = 0 then some k
  else killLoop pid k k.gNextId k.gHead

def taskTerminate (k : Kernel) (t : Addr) : Option Kernel :=
  if t = 0 then some k else k.write t (.withState .dying)

/-! ## Authority -/

def taskSetAuthority (k : Kernel) (t : Addr) (caps ceiling : UInt64) : Option Kernel :=
  if t = 0 then some k
  else k.write t fun c => { c with ceiling := ceiling, caps := caps &&& ceiling }

def taskForkAuthority (k : Kernel) (parent child : Addr) : Option (Kernel × Int) :=
  if parent = 0 ∨ child = 0 then some (k, -1)
  else do
    let p ← k.heap parent
    let k₁ ← k.write child fun c => { c with ceiling := p.ceiling, caps := p.caps &&& p.ceiling }
    some (k₁, 0)

def taskExecAuthority (k : Kernel) (t : Addr) (imageCaps : UInt64) : Option (Kernel × Int) :=
  if t = 0 then some (k, -1)
  else do
    let k₁ ← k.write t fun c => { c with caps := imageCaps &&& c.ceiling }
    some (k₁, 0)

def taskClone (k : Kernel) (parent : Addr) (name : Option (List UInt8)) (al : TaskAlloc) :
    Option (Kernel × Addr) :=
  if parent = 0 then some (k, 0)
  else do
    let p ← k.heap parent
    let (k₁, child) ← taskCreate k ⟨name, p.entry, p.entryArg, p.stackSize, p.priority⟩ al
    if child = 0 then some (k₁, 0)
    else do
      let (k₂, _) ← taskForkAuthority k₁ parent child
      some (k₂, child)

def taskExecve (k : Kernel) (t : Addr) (name : Option (List UInt8)) (entry arg : Addr)
    (imageCaps : UInt64) : Option (Kernel × Int) :=
  if t = 0 ∨ entry = 0 then some (k, -1)
  else do
    let k₁ ← k.write t fun c =>
      { c with
        name := (name.map nameField).getD c.name
        entry := entry
        entryArg := arg }
    let (k₂, _) ← taskExecAuthority k₁ t imageCaps
    some (k₂, 0)

/-! ## The scheduler -/

def taskAccountTick (k : Kernel) (t : Addr) : Option Kernel :=
  if t = 0 then some k
  else do
    let c ← k.heap t
    let w : UInt32 := if c.weight = 0 then 1024 else c.weight
    let v := c.vruntime + (1024 / w).toUInt64
    let k₁ ← k.write t fun c => { c with vruntime := v, deadline := v + c.slice.toUInt64 }
    some { k₁ with gMinVruntime := if k.gMinVruntime < v then v else k.gMinVruntime }

/-- The three candidates of `task_schedule_next`.  A candidate is a pointer; it is kept with the
task it points at, none of whose compared fields the loop writes. -/
structure Picks where
  best : Option (Addr × CTask)
  rtBest : Option (Addr × CTask)
  idleBest : Option (Addr × CTask)

/-- `t` replaces the candidate if there is none yet, or if it beats it. -/
def challenge (beats : CTask → CTask → Bool) (t : Addr × CTask) :
    Option (Addr × CTask) → Option (Addr × CTask)
  | none => some t
  | some b => if beats t.2 b.2 then some t else some b

/-- Among real-time tasks: the smaller vruntime, then the fewer ticks. -/
def rtBeats (t b : CTask) : Bool :=
  t.vruntime < b.vruntime || t.vruntime == b.vruntime && t.totalTicks < b.totalTicks

/-- Among idle tasks, and in the fallback: the smaller vruntime. -/
def behind (t b : CTask) : Bool := t.vruntime < b.vruntime

/-- Among the others: the earlier deadline, then as for the real-time tasks. -/
def fairBeats (t b : CTask) : Bool :=
  t.deadline < b.deadline || t.deadline == b.deadline && rtBeats t b

/-- `t->state == TASK_READY || t->state == TASK_RUNNING`. -/
def CTask.runnable (t : CTask) : Bool := t.state == .ready || t.state == .running

/-- A sleeper whose time has come is made ready. -/
def CTask.roused (tick : UInt64) (t : CTask) : CTask :=
  if t.state = .sleeping ∧ t.wakeTick ≤ tick then t.withState .ready else t

/-- What the loop of `task_schedule_next` does with one task. -/
def Picks.consider (min : UInt64) (p : Picks) (t : Addr × CTask) : Picks :=
  if t.2.runnable && t.2.vruntime ≤ min then
    match t.2.priority with
    | .realtime => { p with rtBest := challenge rtBeats t p.rtBest }
    | .idle => { p with idleBest := challenge behind t p.idleBest }
    | _ => { p with best := challenge fairBeats t p.best }
  else p

/-- The loop of `task_schedule_next`, from the task `t` until it is back at `start`. -/
def scanLoop (start : Addr) : Nat → Kernel → Addr → Picks → Option (Kernel × Picks)
  | 0, _, _, _ => none
  | fuel + 1, k, t, p => do
    let c ← k.heap t
    let k₁ ← k.write t (.roused k.gTick)
    let p₁ := p.consider k.gMinVruntime (t, c.roused k.gTick)
    if c.next = start then some (k₁, p₁) else scanLoop start fuel k₁ c.next p₁

/-- The second loop, for when nothing is eligible: the runnable task furthest behind. -/
def fallbackLoop (k : Kernel) :
    Nat → Addr → Option (Addr × CTask) → Option (Option (Addr × CTask))
  | 0, _, _ => none
  | fuel + 1, t, best => do
    let c ← k.heap t
    let best₁ := if c.runnable then challenge behind (t, c) best else best
    if c.next = k.gHead then some best₁ else fallbackLoop k fuel c.next best₁

/-- Where the loop starts: behind the running task, so that equals take turns. -/
def scanStart (k : Kernel) : Option Addr :=
  if k.gCurrent = 0 then some k.gHead else (k.heap k.gCurrent).map CTask.next

/-- `task_schedule_next`: the task it returns, or `0`, and the kernel with the sleepers it roused. -/
def taskScheduleNext (k : Kernel) : Option (Kernel × Addr) :=
  if k.gHead = 0 then some (k, 0)
  else do
    let start ← scanStart k
    let (k₁, p) ← scanLoop start k.gNextId k start ⟨none, none, none⟩
    match p.rtBest.or (p.best.or p.idleBest) with
    | some b => some (k₁, b.1)
    | none => do
      let best ← fallbackLoop k₁ k₁.gNextId k₁.gHead none
      some (k₁, (best.map Prod.fst).getD 0)

/-- The inner loop of `task_reap`: the task whose `next` is `t`. -/
def findPrev (k : Kernel) (t : Addr) : Nat → Addr → Option Addr
  | 0, _ => none
  | fuel + 1, p => do
    let c ← k.heap p
    if c.next = t then some p else findPrev k t fuel c.next

/-- What `task_reap` does with a dying task: unlink it with the predecessor's `next`, and free it. -/
def reapOne (k : Kernel) (t next : Addr) : Option Kernel := do
  let prev ← findPrev k t k.gNextId t
  let k₁ ← k.write prev fun p => { p with next := next }
  let head := if k.gHead = t then (if next = t then 0 else next) else k.gHead
  some ({ k₁ with gHead := head }.free t)

/-- What the loop of `task_reap` does with one task: the running one is never reaped. -/
def reapVisit (k : Kernel) (t : Addr) (c : CTask) : Option Kernel :=
  if c.state = .dying ∧ t ≠ k.gCurrent then reapOne k t c.next else some k

/-- The loop of `task_reap`. -/
def reapLoop : Nat → Kernel → Addr → Option Kernel
  | 0, _, _ => none
  | fuel + 1, k, t => do
    let c ← k.heap t
    let k₁ ← reapVisit k t c
    if c.next ≠ k₁.gHead ∧ k₁.gHead ≠ 0 then reapLoop fuel k₁ c.next else some k₁

def taskReap (k : Kernel) : Option Kernel :=
  if k.gHead = 0 ∨ k.gInitialized = false then some k else reapLoop k.gNextId k k.gHead

/-! ## Yielding, blocking, sleeping and waking -/

/-- The watchdog reset of `task_yield`: the kernel in which it calls the scheduler. -/
def resetStall (k : Kernel) : Option Kernel :=
  k.write k.gCurrent fun c => { c with stallTicks := 0 }

/-- `task_yield`.  Both stacks must still carry their canary, or the machine halts. -/
def taskYield (k : Kernel) : Option Kernel :=
  if k.gCurrent = 0 ∨ k.gInitialized = false then some k
  else do
    let k₀ ← resetStall k
    let (k₁, next) ← taskScheduleNext k₀
    if next = 0 ∨ next = k.gCurrent then some k₁
    else do
      let o ← k₁.heap k.gCurrent
      let n ← k₁.heap next
      if o.canary ≠ canaryVal ∨ n.canary ≠ canaryVal then none
      else do
        let k₂ ← k₁.write k.gCurrent (.withState .ready)
        let k₃ ← k₂.write next (.withState .running)
        some { k₃ with gCurrent := next }

/-- The first line of `task_block`. -/
def markBlocked (k : Kernel) : Option Kernel :=
  if k.gCurrent = 0 then some k else k.write k.gCurrent (.withState .blocked)

def taskBlock (k : Kernel) : Option Kernel := (markBlocked k).bind taskYield

def taskUnblock (k : Kernel) (t : Addr) : Option Kernel :=
  if t = 0 then some k
  else k.write t fun c => if c.state = .blocked then c.withState .ready else c

/-- `task_arm_sleep`.  Whether the wheel had room for the timer is not looked at. -/
def taskArmSleep (k : Kernel) (t : Addr) (ticks : UInt64) : Option Kernel :=
  if t = 0 then some k
  else do
    let c ← k.heap t
    let wake := k.gTick + ticks
    let k₁ ← k.write t fun c => { c with state := .sleeping, wakeTick := wake }
    some { k₁ with
      gSleepWheel := (twAdd k.gSleepWheel (UInt64.ofNat c.taskId) wake).getD k.gSleepWheel }

def taskSleep (k : Kernel) (ticks : UInt64) : Option Kernel :=
  if k.gCurrent = 0 then some k else (taskArmSleep k k.gCurrent ticks).bind taskYield

/-- The inner loop of `task_wake_expired`: make ready the first sleeper with this id. -/
def wakeLoop (id : Nat) (k : Kernel) : Nat → Addr → Option Kernel
  | 0, _ => none
  | fuel + 1, t => do
    let c ← k.heap t
    if c.taskId = id ∧ c.state = .sleeping then k.write t (.withState .ready)
    else if c.next = k.gHead then some k
    else wakeLoop id k fuel c.next

/-- `(int)due[i]`, for the ids a task can have. -/
def dueId (e : TwEntry) : Nat := e.id.toNat % 2 ^ 32

/-- The outer loop of `task_wake_expired`, over the timers the wheel reported. -/
def wakeAll (k : Kernel) : List TwEntry → Option Kernel
  | [] => some k
  | e :: due =>
    if k.gHead = 0 then some k
    else do
      let k₁ ← wakeLoop (dueId e) k k.gNextId k.gHead
      wakeAll k₁ due

/-- The length of the array `task_wake_expired` hands to `tw_advance`. -/
def dueMax : Nat := 16

def taskWakeExpired (k : Kernel) : Option Kernel :=
  let r := twAdvance k.gSleepWheel dueMax
  wakeAll { k with gSleepWheel := r.1 } r.2

/-- `task_timer_tick`.  The watchdog halts the machine. -/
def taskTimerTick (k : Kernel) : Option Kernel :=
  let k₀ := { k with gTick := k.gTick + 1 }
  if k.gInitialized = false ∨ k.gCurrent = 0 then some k₀
  else do
    let k₁ ← k₀.write k.gCurrent fun c => { c with totalTicks := c.totalTicks + 1 }
    let k₂ ← taskAccountTick k₁ k.gCurrent
    let c ← k₂.heap k.gCurrent
    if watchdogStallLimit < c.stallTicks then none
    else do
      let k₃ ← k₂.write k.gCurrent fun c => { c with stallTicks := c.stallTicks + 1 }
      taskWakeExpired k₃

def taskWake (k : Kernel) (t : Addr) : Option Kernel :=
  if t = 0 then some k
  else k.write t fun c =>
    if c.state = .sleeping ∨ c.state = .blocked then { c with state := .ready, wakeTick := 0 }
    else c

/-- `tasking_init`, with the address of `task_idle` as the entry of the idle task. -/
def taskingInit (k : Kernel) (taskIdle : Addr) (al : TaskAlloc) : Option (Kernel × Int) :=
  let k₀ := { k with gSleepWheel := twInit }
  if k.gInitialized then some (k₀, 0)
  else do
    let (k₁, idle) ← taskCreate k₀ ⟨some [105, 100, 108, 101], taskIdle, 0, 16384, .idle⟩ al
    if idle = 0 then some (k₁, -1)
    else do
      let k₂ ← k₁.write idle (.withState .running)
      some ({ k₂ with gCurrent := idle, gInitialized := true }, 0)

/-! ## The operations as one step function -/

/-- A call of one of the functions above. -/
inductive TaskOp
  | init (taskIdle : Addr) (al : TaskAlloc)
  | create (a : TaskSpec) (al : TaskAlloc)
  | clone (parent : Addr) (name : Option (List UInt8)) (al : TaskAlloc)
  | execve (t : Addr) (name : Option (List UInt8)) (entry arg : Addr) (imageCaps : UInt64)
  | setAuthority (t : Addr) (caps ceiling : UInt64)
  | destroy (t : Addr)
  | kill (pid : Int)
  | terminate (t : Addr)
  | reap
  | yield
  | block
  | unblock (t : Addr)
  | sleep (ticks : UInt64)
  | wake (t : Addr)
  | timerTick
  deriving DecidableEq, Repr

/-- The kernel after a call, if the call has a defined outcome and returns. -/
def taskStep (k : Kernel) : TaskOp → Option Kernel
  | .init i al => (taskingInit k i al).map Prod.fst
  | .create a al => (taskCreate k a al).map Prod.fst
  | .clone p name al => (taskClone k p name al).map Prod.fst
  | .execve t name entry arg caps => (taskExecve k t name entry arg caps).map Prod.fst
  | .setAuthority t caps ceiling => taskSetAuthority k t caps ceiling
  | .destroy t => taskDestroy k t
  | .kill pid => taskKill k pid
  | .terminate t => taskTerminate k t
  | .reap => taskReap k
  | .yield => taskYield k
  | .block => taskBlock k
  | .unblock t => taskUnblock k t
  | .sleep n => taskSleep k n
  | .wake t => taskWake k t
  | .timerTick => taskTimerTick k

/-- How the allocations of a call turn out, if it makes any. -/
def TaskOp.alloc : TaskOp → Option TaskAlloc
  | .init _ al | .create _ al | .clone _ _ al => some al
  | _ => none

/-- The allocator does its part in the call. -/
def TaskOp.FreshAlloc (k : Kernel) (op : TaskOp) : Prop := ∀ al ∈ op.alloc, al.Fresh k

instance (k : Kernel) (op : TaskOp) : Decidable (op.FreshAlloc k) :=
  inferInstanceAs (Decidable (∀ al ∈ op.alloc, al.Fresh k))

/-- The call finds an allocator that does its part, has a defined outcome, and returns. -/
def TaskStep (k : Kernel) (op : TaskOp) (k' : Kernel) : Prop :=
  op.FreshAlloc k ∧ taskStep k op = some k'

end WuBuOS.Tasking
