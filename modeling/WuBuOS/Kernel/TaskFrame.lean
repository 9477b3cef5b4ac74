import WuBuOS.Kernel.Tasking
import WuBuOS.Lib.Gives

/-!
# What the operations on tasks leave alone

Three kinds of assignment make up `tasking.c`: to the fields the scheduler keeps its books in, to
the links of the ring, and to a task's authority.  A theorem about one of them should not have to
look at the functions that do the others, so this file says once what each function leaves alone.

A *projection* `p : CTask → β` picks the fields a theorem is about, and `Kernel.view p` is the heap
seen through it.

* `Still p` says that the view is the same and that the globals are, but the head of the ring and the wheel; with the
  head it is `Settled p`.  Most of what the scheduler does to a task settles if `p` ignores the
  task's state (`IgnoresState`).
* If `p` ignores all of the scheduler's fields (`IgnoresSched`), the calls that only schedule leave the view
  and the ring as they were: `taskStep_quiet`.
* If `p` ignores the links (`IgnoresLinks`), creating a task adds the new task to the view and
  changes nothing else (`taskCreate_view`), and the calls that end tasks only take from it
  (`Shrinks`).
-/

namespace WuBuOS.Tasking

open TimerWheel
open Function (update)
open Option (Gives bind_eq_some_iff bind_eq_bind)

variable {β : Type} {p : CTask → β} {k k' k1 : Kernel} {a t : Addr} {f : CTask → CTask}

/-- What is to be seen of the task at `a` through the projection `p`. -/
def Kernel.view (p : CTask → β) (k : Kernel) (a : Addr) : Option β := (k.heap a).map p

theorem write_eq_some : k.write a f = some k' ↔
    ∃ t, k.heap a = some t ∧ { k with heap := update k.heap a (some (f t)) } = k' := by
  simp [Kernel.write]

/-- An assignment changes the view at one address. -/
theorem view_write (p : CTask → β) (h : k.write t f = some k') : ∃ c, k.heap t = some c ∧
    k'.view p = update (k.view p) t (some (p (f c))) := by
  obtain ⟨c, hc, rfl⟩ := write_eq_some.1 h
  refine ⟨c, hc, funext fun a => ?_⟩
  rcases eq_or_ne a t with rfl | ha
  · simp [Kernel.view]
  · simp [Kernel.view, ha]

theorem view_of_heap {c : CTask} (h : k.heap a = some c) : k.view p a = some (p c) := by
  rw [Kernel.view, h]
  rfl

/-! ## Assignments -/

/-- The same to be seen of each task through `p`, at the same time, with the same task running. -/
structure Still (p : CTask → β) (k k' : Kernel) : Prop where
  view : k'.view p = k.view p
  tick : k'.gTick = k.gTick
  min : k'.gMinVruntime = k.gMinVruntime
  current : k'.gCurrent = k.gCurrent
  nextId : k'.gNextId = k.gNextId

theorem Still.refl (k : Kernel) : Still p k k := ⟨rfl, rfl, rfl, rfl, rfl⟩

theorem Still.trans (h : Still p k k1) (h' : Still p k1 k') : Still p k k' :=
  ⟨h'.view.trans h.view, h'.tick.trans h.tick, h'.min.trans h.min, h'.current.trans h.current,
    h'.nextId.trans h.nextId⟩

/-- The same tasks on the ring, and the same to be seen of each through `p`. -/
structure Quiet (p : CTask → β) (k k' : Kernel) : Prop where
  view : k'.view p = k.view p
  head : k'.gHead = k.gHead
  nextId : k'.gNextId = k.gNextId

theorem Quiet.refl (k : Kernel) : Quiet p k k := ⟨rfl, rfl, rfl⟩

theorem Quiet.trans (h : Quiet p k k1) (h' : Quiet p k1 k') : Quiet p k k' :=
  ⟨h'.view.trans h.view, h'.head.trans h.head, h'.nextId.trans h.nextId⟩

/-- Both; only the wheel may be another. -/
structure Settled (p : CTask → β) (k k' : Kernel) : Prop extends Still p k k', Quiet p k k'

theorem Settled.refl (k : Kernel) : Settled p k k := ⟨.refl k, rfl⟩

theorem Settled.trans (h : Settled p k k1) (h' : Settled p k1 k') : Settled p k k' :=
  ⟨h.toStill.trans h'.toStill, h'.head.trans h.head⟩

theorem write_settled (hp : ∀ t, p (f t) = p t) : Gives (k.write a f) (Settled p k) := by
  intro k' h
  obtain ⟨t, ht, hview⟩ := view_write p h
  obtain ⟨c, -, hk⟩ := write_eq_some.1 h
  refine ⟨⟨?_, by rw [← hk], by rw [← hk], by rw [← hk], by rw [← hk]⟩, by rw [← hk]⟩
  rw [hview, hp, ← view_of_heap ht, Function.update_eq_self]

theorem write_tick (h : k.write t f = some k') : k'.gTick = k.gTick ∧ k'.gCurrent = k.gCurrent := by
  obtain ⟨c, -, rfl⟩ := write_eq_some.1 h
  exact ⟨rfl, rfl⟩

/-! ## What the bookkeeping of the scheduler leaves alone -/

/-- The projection does not look at what a task waits for. -/
def IgnoresState (p : CTask → β) : Prop := ∀ t st wake, p { t with state := st, wakeTick := wake } = p t

theorem IgnoresState.withState (hp : IgnoresState p) (st : TaskState) (t : CTask) : p (t.withState st) = p t := hp t st _

theorem IgnoresState.roused (hp : IgnoresState p) (tick : UInt64) (t : CTask) : p (t.roused tick) = p t := by
  rw [CTask.roused]
  split
  · exact hp.withState _ t
  · rfl

variable {al : TaskAlloc} {fuel : Nat} {r : Kernel × Addr} {name : Option (List UInt8)}

theorem scanLoop_settled (hp : IgnoresState p) {start : Addr} {q : Picks} :
    Gives (scanLoop start fuel k t q) fun r => Settled p k r.1 := by
  induction fuel generalizing k t q with
  | zero => exact .none
  | succ fuel ih =>
    refine .next fun c => (write_settled (hp.roused k.gTick)).bind fun k1 h1 => ?_
    exact .ite (fun _ => .pure h1) fun _ => ih.mono fun r h => h1.trans h

theorem taskScheduleNext_settled (hp : IgnoresState p) : Gives (taskScheduleNext k) fun r => Settled p k r.1 := by
  refine .ite (fun _ => .pure (.refl k)) fun _ => .next fun start => ?_
  refine (scanLoop_settled hp).bind fun r hr => ?_
  dsimp only
  split
  · exact .pure hr
  · exact .next fun best => .pure hr

theorem markBlocked_settled (hp : IgnoresState p) : Gives (markBlocked k) (Settled p k) :=
  .ite (fun _ => .pure (.refl k)) fun _ => write_settled (hp.withState _)

theorem taskArmSleep_settled (hp : IgnoresState p) {n : UInt64} : Gives (taskArmSleep k t n) (Settled p k) := by
  refine .ite (fun _ => .pure (.refl k)) fun _ => .next fun c => ?_
  exact (write_settled fun t => hp t _ _).bind fun k1 h => .pure ⟨⟨h.view, h.tick, h.min, h.current, h.nextId⟩, h.head⟩

theorem wakeLoop_settled (hp : IgnoresState p) {id fuel : Nat} : Gives (wakeLoop id k fuel t) (Settled p k) := by
  induction fuel generalizing t with
  | zero => exact .none
  | succ fuel ih =>
    refine .next fun c => .ite (fun _ => write_settled (hp.withState _)) fun _ => ?_
    exact .ite (fun _ => .pure (.refl k)) fun _ => ih

theorem wakeAll_settled (hp : IgnoresState p) (due : List TwEntry) : Gives (wakeAll k due) (Settled p k) := by
  induction due generalizing k with
  | nil => exact .pure (.refl k)
  | cons e due ih =>
    refine .ite (fun _ => .pure (.refl k)) fun _ => ?_
    exact (wakeLoop_settled hp).bind fun k1 h1 => ih.mono fun k' h => h1.trans h

theorem taskWakeExpired_settled (hp : IgnoresState p) : Gives (taskWakeExpired k) (Settled p k) :=
  (wakeAll_settled hp _).mono fun _ h => ⟨⟨h.view, h.tick, h.min, h.current, h.nextId⟩, h.head⟩

theorem taskUnblock_settled (hp : IgnoresState p) : Gives (taskUnblock k t) (Settled p k) := by
  refine .ite (fun _ => .pure (.refl k)) fun _ => write_settled fun c => ?_
  split
  · exact hp.withState _ c
  · rfl

theorem taskWake_settled (hp : IgnoresState p) : Gives (taskWake k t) (Settled p k) := by
  refine .ite (fun _ => .pure (.refl k)) fun _ => write_settled fun c => ?_
  split
  · exact hp c _ _
  · rfl

theorem taskTerminate_settled (hp : IgnoresState p) : Gives (taskTerminate k t) (Settled p k) :=
  .ite (fun _ => .pure (.refl k)) fun _ => write_settled (hp.withState _)

/-- The projection does not look at the fields the scheduler keeps its books in. -/
def IgnoresSched (p : CTask → β) : Prop :=
  ∀ t st wake total v d stall, p { t with
    state := st, wakeTick := wake, totalTicks := total, vruntime := v, deadline := d,
    stallTicks := stall } = p t

theorem IgnoresSched.ignoresState (hp : IgnoresSched p) : IgnoresState p := fun t _ _ => hp t _ _ _ _ _ _

theorem IgnoresSched.withState (hp : IgnoresSched p) (st : TaskState) (t : CTask) : p (t.withState st) = p t :=
  hp.ignoresState.withState st t

theorem taskYield_quiet (hp : IgnoresSched p) : Gives (taskYield k) (Quiet p k) := by
  refine .ite (fun _ => .pure (.refl k)) fun _ => (write_settled fun t => hp t _ _ _ _ _ _).bind fun k0 h0 => ?_
  refine (taskScheduleNext_settled hp.ignoresState).bind fun r hr => ?_
  refine .ite (fun _ => .pure (h0.trans hr).toQuiet) fun _ => .next fun o => .next fun n => .ite (fun _ => .none) fun _ => ?_
  refine (write_settled (hp.withState _)).bind fun k2 h2 => (write_settled (hp.withState _)).bind fun k3 h3 => ?_
  have h := (h0.trans hr).trans (h2.trans h3)
  exact .pure ⟨h.view, h.head, h.nextId⟩

theorem taskAccountTick_quiet (hp : IgnoresSched p) : Gives (taskAccountTick k t) (Quiet p k) := by
  refine .ite (fun _ => .pure (.refl k)) fun _ => .next fun c => ?_
  exact (write_settled fun t => hp t _ _ _ _ _ _).bind fun k1 h => .pure ⟨h.view, h.head, h.nextId⟩

theorem taskTimerTick_quiet (hp : IgnoresSched p) : Gives (taskTimerTick k) (Quiet p k) := by
  refine .ite (fun _ => .pure ⟨rfl, rfl, rfl⟩) fun _ => (write_settled fun t => hp t _ _ _ _ _ _).bind fun k1 h1 => ?_
  refine (taskAccountTick_quiet hp).bind fun k2 h2 => .next fun c => .ite (fun _ => .none) fun _ => ?_
  refine (write_settled fun t => hp t _ _ _ _ _ _).bind fun k3 h3 => ?_
  refine (taskWakeExpired_settled hp.ignoresState).mono fun k' h' => ?_
  have h := (h1.toQuiet.trans h2).trans (h3.trans h').toQuiet
  exact ⟨h.view, h.head, h.nextId⟩

/-- The calls that only schedule. -/
def TaskOp.schedules : TaskOp → Bool
  | .terminate _ | .yield | .block | .unblock _ | .sleep _ | .wake _ | .timerTick => true
  | _ => false

/-- **The scheduler keeps to its own fields.** -/
theorem taskStep_quiet (hp : IgnoresSched p) : ∀ {op : TaskOp}, op.schedules = true →
    taskStep k op = some k' → Quiet p k k'
  | .terminate _, _, h => (taskTerminate_settled hp.ignoresState h).toQuiet
  | .yield, _, h => taskYield_quiet hp h
  | .block, _, h => by
    obtain ⟨k1, h1, h⟩ := bind_eq_some_iff.1 h
    exact (markBlocked_settled hp.ignoresState h1).toQuiet.trans (taskYield_quiet hp h)
  | .unblock _, _, h => (taskUnblock_settled hp.ignoresState h).toQuiet
  | .sleep n, _, h => by
    rw [taskStep, taskSleep] at h
    split at h
    · cases h
      exact .refl k
    · obtain ⟨k1, h1, h⟩ := bind_eq_some_iff.1 h
      exact (taskArmSleep_settled hp.ignoresState h1).toQuiet.trans (taskYield_quiet hp h)
  | .wake _, _, h => (taskWake_settled hp.ignoresState h).toQuiet
  | .timerTick, _, h => taskTimerTick_quiet hp h

/-! ## What linking and unlinking leave alone -/

/-- The projection does not look at the links of the ring. -/
def IgnoresLinks (p : CTask → β) : Prop := ∀ t n m, p { t with next := n, prev := m } = p t

theorem link_settled (hp : IgnoresLinks p) {n m : CTask → Addr} :
    Gives (k.write a fun c => { c with next := n c, prev := m c }) (Settled p k) :=
  write_settled fun c => hp c _ _

theorem taskInsert_still (hp : IgnoresLinks p) : Gives (taskInsert k t) (Still p k) := by
  refine .ite (fun _ => (link_settled hp).mono fun _ h => ⟨h.view, h.tick, h.min, h.current, h.nextId⟩) fun _ => .next fun c => ?_
  refine (link_settled hp).bind fun k1 h1 => (link_settled hp).bind fun k2 h2 => (link_settled hp).mono fun k' h => ?_
  exact ((h1.trans h2).trans h).toStill

theorem taskRemove_still (hp : IgnoresLinks p) : Gives (taskRemove k t) (Still p k) := by
  have hunlink : ∀ c, Gives (unlink k t c) (Still p k) := fun c => by
    refine .ite (fun _ => .pure ⟨rfl, rfl, rfl, rfl, rfl⟩) fun _ => (link_settled hp).bind fun k1 h1 => (link_settled hp).bind fun k2 h2 => ?_
    have h := (h1.trans h2).toStill
    exact .pure ⟨h.view, h.tick, h.min, h.current, h.nextId⟩
  refine .next fun c => (hunlink c).bind fun k1 h1 => (link_settled hp).mono fun k' h => h1.trans h.toStill

/-- **A new task, and nothing else.**  Either no task was created, or the view has gained the one
that was. -/
theorem taskCreate_view (hp : IgnoresLinks p) {s : TaskSpec} (h : taskCreate k s al = some r) :
    (r.2 = 0 ∧ r.1.heap = k.heap) ∨ (r.2 ≠ 0 ∧ r.2 = al.task ∧
      r.1.view p = update (k.view p) al.task (some (p (newTask k s)))) := by
  suffices hgives : Gives (taskCreate k s al) fun r => (r.2 = 0 ∧ r.1.heap = k.heap) ∨ (r.2 ≠ 0 ∧ r.2 = al.task ∧
      r.1.view p = update (k.view p) al.task (some (p (newTask k s)))) from hgives h
  refine .ite (fun _ => .pure (Or.inl ⟨rfl, rfl⟩)) fun hal => .ite (fun _ => .none) fun _ => ?_
  refine .ite (fun _ => .pure (Or.inl ⟨rfl, rfl⟩)) fun _ => (taskInsert_still hp).bind fun k2 h2 => .pure ?_
  refine Or.inr ⟨fun h0 => hal (Or.inl h0), rfl, h2.view.trans ?_⟩
  funext a
  rcases eq_or_ne a al.task with rfl | ha
  · simp [Kernel.view]
  · simp [Kernel.view, ha]

/-- What creating a task does not do to the globals. -/
theorem taskCreate_globals {s : TaskSpec} : Gives (taskCreate k s al) fun r =>
    r.1.gTick = k.gTick ∧ r.1.gMinVruntime = k.gMinVruntime ∧ r.1.gCurrent = k.gCurrent := by
  refine .ite (fun _ => .pure ⟨rfl, rfl, rfl⟩) fun _ => .ite (fun _ => .none) fun _ => .ite (fun _ => .pure ⟨rfl, rfl, rfl⟩) fun _ => ?_
  exact (taskInsert_still (p := fun _ => ()) fun _ _ _ => rfl).bind fun k2 h2 => .pure ⟨h2.tick, h2.min, h2.current⟩

/-- Setting up creates the idle task, which becomes the running one. -/
theorem taskingInit_view (hp : IgnoresLinks p) {i : Addr} {r : Kernel × Int}
    (h : taskingInit k i al = some r) : r.1.view p = k.view p ∨ ∃ s, r.1.view p =
        update (k.view p) al.task (some (p ((newTask k s).withState .running))) := by
  rw [taskingInit] at h
  split at h
  · cases h
    exact Or.inl rfl
  · simp only [bind_eq_bind, bind_eq_some_iff] at h
    obtain ⟨⟨k1, idle⟩, hcreate, h⟩ := h
    rcases taskCreate_view hp hcreate with ⟨h0, hheap⟩ | ⟨h0, hidle, hview⟩
    · rw [if_pos h0] at h
      cases h
      exact Or.inl (funext fun a => congrArg (Option.map p) (congrFun hheap a))
    · rw [if_neg h0] at h
      simp only [bind_eq_some_iff] at h
      obtain ⟨k2, hw, h⟩ := h
      cases h
      obtain ⟨c, hc, hview2⟩ := view_write p hw
      -- seen as a running task, the idle task is the one that was filled in
      obtain ⟨h0', -⟩ | ⟨-, -, hrun⟩ :=
        taskCreate_view (p := fun c => p (c.withState .running)) (fun c => hp (c.withState _)) hcreate
      · exact absurd h0' h0
      · have hc' := (view_of_heap hc).symm.trans (congrFun hrun idle)
        simp only at hidle
        rw [hidle, Function.update_self] at hc'
        refine Or.inr ⟨⟨some [105, 100, 108, 101], i, 0, 16384, .idle⟩, hview2.trans ?_⟩
        rw [hview, hidle, Function.update_idem, Option.some.inj hc']
        rfl

theorem taskingInit_tick {i : Addr} : Gives (taskingInit k i al) fun r => r.1.gTick = k.gTick := by
  refine .ite (fun _ => .pure rfl) fun _ => taskCreate_globals.bind fun r hr => .ite (fun _ => .pure hr.1) fun _ => ?_
  exact (write_settled (p := fun _ => ()) fun _ => rfl).bind fun k2 h2 => .pure (h2.tick.trans hr.1)

/-- Tasks may have gone, and of the rest the same is to be seen. -/
def Shrinks (p : CTask → β) (k k' : Kernel) : Prop := ∀ a x, k'.view p a = some x → k.view p a = some x

theorem shrinks_of_view_eq (h : k'.view p = k.view p) : Shrinks p k k' := fun a x hx => by rw [← h, hx]

/-- So it is, at the same time. -/
structure Ended (p : CTask → β) (k k' : Kernel) : Prop where
  seen : Shrinks p k k'
  tick : k'.gTick = k.gTick

theorem Ended.refl (k : Kernel) : Ended p k k := ⟨fun _ _ hx => hx, rfl⟩

theorem Ended.trans (h : Ended p k k1) (h' : Ended p k1 k') : Ended p k k' :=
  ⟨fun a x hx => h.seen a x (h'.seen a x hx), h'.tick.trans h.tick⟩

theorem free_ended (k : Kernel) (t : Addr) : Ended p k (k.free t) := by
  refine ⟨fun a x hx => ?_, rfl⟩
  rcases eq_or_ne a t with rfl | ha
  · simp [Kernel.view, Kernel.free] at hx
  · simpa [Kernel.view, Kernel.free, ha] using hx

theorem taskDestroy_ended (hp : IgnoresLinks p) : Gives (taskDestroy k t) (Ended p k) := by
  refine .ite (fun _ => .pure (.refl k)) fun _ => ?_
  refine Gives.bind (P := fun k1 => k.write t (.withState .dying) = some k1) (fun _ h => h) fun k1 h1 => ?_
  refine (taskRemove_still hp).bind fun k2 h2 => .pure ⟨fun a x hx => ?_, h2.tick.trans (write_tick h1).1⟩
  obtain ⟨c, hc, rfl⟩ := write_eq_some.1 h1
  -- the state is only assigned to in the task that goes
  rcases eq_or_ne a t with rfl | ha
  · simp [Kernel.view, Kernel.free] at hx
  · have hx2 := (free_ended k2 t).seen a x hx
    rw [h2.view] at hx2
    simpa [Kernel.view, ha] using hx2

theorem killLoop_ended (hp : IgnoresLinks p) {pid : Int} : Gives (killLoop pid k fuel t) (Ended p k) := by
  induction fuel generalizing t with
  | zero => exact .none
  | succ fuel ih =>
    refine .next fun c => .ite (fun _ => taskDestroy_ended hp) fun _ => ?_
    exact .ite (fun _ => .pure (.refl k)) fun _ => ih

theorem taskKill_ended (hp : IgnoresLinks p) {pid : Int} : Gives (taskKill k pid) (Ended p k) :=
  .ite (fun _ => .pure (.refl k)) fun _ => .ite (fun _ => .pure (.refl k)) fun _ => killLoop_ended hp

theorem reapVisit_ended (hp : IgnoresLinks p) {c : CTask} : Gives (reapVisit k t c) (Ended p k) := by
  refine .ite (fun _ => .next fun prev => ?_) fun _ => .pure (.refl k)
  refine (link_settled hp).bind fun k1 h1 => .pure (Ended.trans ?_ (free_ended _ t))
  exact ⟨shrinks_of_view_eq h1.view, h1.tick⟩

theorem reapLoop_ended (hp : IgnoresLinks p) : Gives (reapLoop fuel k t) (Ended p k) := by
  induction fuel generalizing k t with
  | zero => exact .none
  | succ fuel ih =>
    refine .next fun c => (reapVisit_ended hp).bind fun k1 h1 => ?_
    exact .ite (fun _ => ih.mono fun k' h => h1.trans h) fun _ => .pure h1

theorem taskReap_ended (hp : IgnoresLinks p) : Gives (taskReap k) (Ended p k) :=
  .ite (fun _ => .pure (.refl k)) fun _ => reapLoop_ended hp

/-- The calls that end tasks. -/
def TaskOp.ends : TaskOp → Bool
  | .destroy _ | .kill _ | .reap => true
  | _ => false

/-- **Ending a task changes nothing about the others** but their links. -/
theorem taskStep_ended (hp : IgnoresLinks p) : ∀ {op : TaskOp}, op.ends = true →
    taskStep k op = some k' → Ended p k k'
  | .destroy _, _, h => taskDestroy_ended hp h
  | .kill _, _, h => taskKill_ended hp h
  | .reap, _, h => taskReap_ended hp h

/-! ## What cloning and executing leave alone -/

/-- The projection does not look at a task's image and authority. -/
def IgnoresImage (p : CTask → β) : Prop :=
  ∀ c name entry arg caps ceiling, p { c with
    name := name, entry := entry, entryArg := arg, caps := caps, ceiling := ceiling } = p c

theorem taskSetAuthority_settled (hp : IgnoresImage p) {caps ceiling : UInt64} :
    Gives (taskSetAuthority k t caps ceiling) (Settled p k) :=
  .ite (fun _ => .pure (.refl k)) fun _ => write_settled fun c => hp c _ _ _ _ _

theorem taskForkAuthority_settled (hp : IgnoresImage p) {parent child : Addr} :
    Gives (taskForkAuthority k parent child) fun r => Settled p k r.1 := by
  refine .ite (fun _ => .pure (.refl k)) fun _ => .next fun c => ?_
  exact (write_settled fun c => hp c _ _ _ _ _).bind fun _ h => .pure h

theorem taskExecAuthority_settled (hp : IgnoresImage p) {img : UInt64} :
    Gives (taskExecAuthority k t img) fun r => Settled p k r.1 :=
  .ite (fun _ => .pure (.refl k)) fun _ => (write_settled fun c => hp c _ _ _ _ _).bind fun _ h => .pure h

theorem taskExecve_settled (hp : IgnoresImage p) {entry arg : Addr} {img : UInt64} :
    Gives (taskExecve k t name entry arg img) fun r => Settled p k r.1 := by
  refine .ite (fun _ => .pure (.refl k)) fun _ => (write_settled fun c => hp c _ _ _ _ _).bind fun k1 h1 => ?_
  exact (taskExecAuthority_settled hp).bind fun r hr => .pure (h1.trans hr)

/-- To clone is to create a task and hand it the authority. -/
theorem taskClone_cases {parent : Addr} (h : taskClone k parent name al = some r) :
    r.1 = k ∨ ∃ s r1, taskCreate k s al = some r1 ∧
      ∀ {β : Type} {p : CTask → β}, IgnoresImage p → Settled p r1.1 r.1 := by
  rw [taskClone] at h
  split at h
  · exact Or.inl (Option.some.inj h ▸ rfl)
  · simp only [bind_eq_bind, bind_eq_some_iff] at h
    obtain ⟨c, -, r1, hcreate, h⟩ := h
    refine Or.inr ⟨_, r1, hcreate, fun hp => ?_⟩
    split at h
    · exact Option.some.inj h ▸ .refl _
    · simp only [bind_eq_some_iff] at h
      obtain ⟨r2, hfork, h⟩ := h
      exact Option.some.inj h ▸ taskForkAuthority_settled hp hfork

end WuBuOS.Tasking
