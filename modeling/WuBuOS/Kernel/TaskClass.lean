import WuBuOS.Kernel.TaskDuty
import WuBuOS.Kernel.TaskRing

/-!
# The classes of the scheduler

`task_schedule_next` keeps a candidate for each of three classes, real-time tasks, idle tasks and
the rest, and prefers them in the order real-time, rest, idle.  But a task becomes a candidate only
if it is *eligible*, if its `vruntime` has not run ahead of `g_min_vruntime`; if no one is, a second
loop takes the runnable task furthest behind, whatever its class.  So the order of the classes is a
matter of who is eligible.

Everyone is.  `g_min_vruntime`, for all its name, is raised to the largest `vruntime` there has been
(`Seated.level`).  The second loop finds something to run only where the first has found it, and the
order of the classes is kept after every run that takes no task off the ring:
`scheduleNext_class_order`.
-/

namespace WuBuOS.Tasking

open Ring Runs TimerWheel
open Option (bind_eq_some_iff bind_eq_bind bind_some)
open Function (update_of_ne update_self)

variable {k k' k1 : Kernel} {a t : Addr} {l : List Addr}

/-! ## The operations -/

/-- A call that takes no task off the ring: one of `TaskOp`, or one of the functions that they are
made of and that can be called on their own. -/
inductive ClassOp
  | call (op : TaskOp)
  | accountTick (t : Addr)
  | armSleep (t : Addr) (ticks : UInt64)
  | wakeExpired
  | scheduleNext
  deriving DecidableEq, Repr

/-- The kernel after a call, if the call has a defined outcome and returns. -/
def classStep (k : Kernel) : ClassOp → Option Kernel
  | .call op => taskStep k op
  | .accountTick t => taskAccountTick k t
  | .armSleep t n => taskArmSleep k t n
  | .wakeExpired => taskWakeExpired k
  | .scheduleNext => (taskScheduleNext k).map Prod.fst

/-- The call ends no task, and finds an allocator that does its part. -/
def ClassOp.Stays (k : Kernel) : ClassOp → Prop
  | .call op => op.ends = false ∧ op.FreshAlloc k
  | _ => True

instance (k : Kernel) : ∀ op : ClassOp, Decidable (op.Stays k)
  | .call op => inferInstanceAs (Decidable (op.ends = false ∧ op.FreshAlloc k))
  | .accountTick _ | .armSleep _ _ | .wakeExpired | .scheduleNext => inferInstanceAs (Decidable True)

/-- A call that ends no task, has a defined outcome, and returns. -/
def ClassStep (k : Kernel) (op : ClassOp) (k' : Kernel) : Prop :=
  op.Stays k ∧ classStep k op = some k'

@[simp] theorem roused_vruntime (tick : UInt64) (c : CTask) : (c.roused tick).vruntime = c.vruntime :=
  IgnoresState.roused (fun _ _ _ => rfl) tick c

variable {r : Kernel × Addr} {al : TaskAlloc} {name : Option (List UInt8)}

/-! ## The invariant -/

/-- The ring can be walked, the running task is on it, and no task has run ahead of
`g_min_vruntime`. -/
structure Seated (k : Kernel) : Prop where
  ring : ∃ l, OnRing k l ∧ l.length < k.gNextId
  current : k.gCurrent = 0 ∨ k.gCurrent ∈ k.tasks
  level : ∀ a v, k.view CTask.vruntime a = some v → v ≤ k.gMinVruntime

theorem seated_boot : Seated boot where
  ring := ⟨[], onRing_boot, Nat.one_pos⟩
  current := Or.inl rfl
  level := fun _ _ h => nomatch h

theorem mem_tasks_of_quiet (h : Quiet links k k') : a ∈ k'.tasks ↔ a ∈ k.tasks := by
  rw [mem_tasks_iff, mem_tasks_iff, h.view]

theorem Seated.move (hk : Seated k) (hq : Quiet links k k') (hp : Still CTask.vruntime k k') : Seated k' := by
  obtain ⟨l, hl, hlen⟩ := hk.ring
  refine ⟨⟨l, hl.quiet hq, by rw [hq.nextId]; exact hlen⟩, ?_, fun a v hv => ?_⟩
  · rw [hp.current, mem_tasks_of_quiet hq]
    exact hk.current
  · rw [hp.min]
    exact hk.level a v (by rw [← hp.view, hv])

theorem Seated.settle (hk : Seated k) (hl : Settled links k k') (hv : Settled CTask.vruntime k k') : Seated k' :=
  hk.move hl.toQuiet hv.toStill

/-- A call that only says what tasks wait for. -/
theorem Seated.settles (hk : Seated k) (h : ∀ {β : Type} {p : CTask → β}, IgnoresState p → Settled p k k') : Seated k' :=
  hk.settle (h ignoresSched_links.ignoresState) (h fun _ _ _ => rfl)

/-- What `g_min_vruntime` is raised to is no less than it was, and no less than the `vruntime`. -/
theorem le_raised (m v : UInt64) : m ≤ (if m < v then v else m) ∧ v ≤ (if m < v then v else m) := by
  split
  · rename_i hlt
    exact ⟨UInt64.le_of_lt hlt, UInt64.le_refl v⟩
  · rename_i hlt
    exact ⟨UInt64.le_refl m, UInt64.not_lt.1 hlt⟩

/-- **A tick of `vruntime`** raises `g_min_vruntime` with it, to the larger of the two. -/
theorem Seated.accountTick (hk : Seated k) (h : taskAccountTick k t = some k') : Seated k' := by
  have hq := taskAccountTick_quiet ignoresSched_links h
  rw [taskAccountTick] at h
  split at h
  · cases h
    exact hk
  · simp only [bind_eq_bind, bind_eq_some_iff] at h
    obtain ⟨c, hc, k1, hw, h⟩ := h
    obtain ⟨l, hl, hlen⟩ := hk.ring
    obtain ⟨c', hc', hview⟩ := view_write CTask.vruntime hw
    have hcur : k'.gCurrent = k.gCurrent := by
      cases h
      exact (write_tick hw).2
    refine ⟨⟨l, hl.quiet hq, by rw [hq.nextId]; exact hlen⟩, ?_, fun a v hv => ?_⟩
    · rw [hcur, mem_tasks_of_quiet hq]
      exact hk.current
    · cases h
      replace hv : k1.view CTask.vruntime a = some v := hv
      rw [hview] at hv
      rcases eq_or_ne a t with rfl | ha
      · rw [update_self] at hv
        cases hv
        exact (le_raised ..).2
      · rw [update_of_ne ha] at hv
        exact UInt64.le_trans (hk.level a v hv) (le_raised ..).1

/-- A new task starts at `g_min_vruntime`. -/
theorem Seated.create (hk : Seated k) {s : TaskSpec}
    (hal : al.Fresh k) (h : taskCreate k s al = some r) : Seated r.1 := by
  obtain ⟨l, hl, hlen⟩ := hk.ring
  obtain ⟨l', hl', hgrow⟩ := hl.create hal h
  obtain ⟨-, hmin, hcur⟩ := taskCreate_globals h
  rcases taskCreate_view (p := CTask.vruntime) (fun _ _ _ => rfl) h with ⟨-, hheap⟩ | ⟨-, -, hview⟩
  · have hview : r.1.view CTask.vruntime = k.view CTask.vruntime := by
      funext a
      rw [Kernel.view, Kernel.view, hheap]
    refine ⟨⟨l', hl', by omega⟩, ?_, fun a v hv => ?_⟩
    · rw [hcur]
      exact hk.current.imp_right fun hm => show r.1.heap _ ≠ none by rw [hheap]; exact hm
    · rw [hmin]
      exact hk.level a v (by rw [← hview, hv])
  · refine ⟨⟨l', hl', by omega⟩, ?_, fun a v hv => ?_⟩
    · rw [hcur]
      refine hk.current.imp_right fun hm hnone => ?_
      have hv := congrFun hview k.gCurrent
      rw [Kernel.view, hnone, Option.map_none] at hv
      rcases eq_or_ne k.gCurrent al.task with he | hne
      · rw [he, update_self] at hv
        cases hv
      · rw [update_of_ne hne] at hv
        exact hm (Option.map_eq_none_iff.1 hv.symm)
    · rw [hmin]
      rw [hview] at hv
      rcases eq_or_ne a al.task with rfl | ha
      · rw [update_self] at hv
        cases hv
        exact UInt64.le_refl _
      · rw [update_of_ne ha] at hv
        exact hk.level a v hv

theorem Seated.init (hk : Seated k) {i : Addr} {r : Kernel × Int}
    (hal : al.Fresh k) (h : taskingInit k i al = some r) : Seated r.1 := by
  rw [taskingInit] at h
  have hk0 : Seated { k with gSleepWheel := twInit } :=
    hk.move ⟨rfl, rfl, rfl⟩ ⟨rfl, rfl, rfl, rfl, rfl⟩
  split at h
  · cases h
    exact hk0
  · simp only [bind_eq_bind, bind_eq_some_iff] at h
    obtain ⟨⟨k1, idle⟩, hcreate, h⟩ := h
    have hk1 : Seated k1 := hk0.create hal hcreate
    split at h
    · cases h
      exact hk1
    · simp only [bind_eq_some_iff] at h
      obtain ⟨k2, hw, h⟩ := h
      cases h
      have hk2 := hk1.settles fun hp => write_settled (hp.withState _) hw
      obtain ⟨l2, hl2, hlen2⟩ := hk2.ring
      refine ⟨⟨l2, hl2.of_eq rfl rfl, hlen2⟩, Or.inr ?_, hk2.level⟩
      obtain ⟨c, -, rfl⟩ := write_eq_some.1 hw
      simp [Kernel.tasks]

theorem Seated.clone (hk : Seated k) {parent : Addr} (hal : al.Fresh k)
    (h : taskClone k parent name al = some r) : Seated r.1 := by
  rcases taskClone_cases h with heq | ⟨s, r1, hcreate, hq⟩
  · rw [heq]
    exact hk
  · exact (hk.create hal hcreate).settle (hq ignoresImage_links) (hq fun _ _ _ _ _ _ => rfl)

theorem Seated.yield (hk : Seated k) (h : taskYield k = some k') : Seated k' := by
  have hq := taskYield_quiet ignoresSched_links h
  rw [taskYield] at h
  split at h
  · cases h
    exact hk
  · simp only [bind_eq_bind, bind_eq_some_iff] at h
    obtain ⟨k0, h0, ⟨k1, next⟩, hsched, h⟩ := h
    have hp := (write_settled (p := CTask.vruntime) (fun _ => by rfl) h0).trans
      (taskScheduleNext_settled (fun _ _ _ => rfl) hsched)
    split at h
    · cases h
      exact hk.move hq hp.toStill
    · simp only [bind_eq_some_iff] at h
      obtain ⟨o, -, n, hn, h⟩ := h
      split at h
      · cases h
      · simp only [bind_eq_some_iff] at h
        obtain ⟨k2, h2, k3, h3, h⟩ := h
        cases h
        have hp3 := (hp.trans (write_settled (fun _ => by rfl) h2)).trans (write_settled (fun _ => by rfl) h3)
        -- the task switched to is on the ring, like the one switched from
        have hk3 : Seated k3 := hk.move ⟨hq.view, hq.head, hq.nextId⟩ hp3.toStill
        obtain ⟨l, hl, hlen⟩ := hk3.ring
        refine ⟨⟨l, hl.of_eq rfl rfl, hlen⟩, Or.inr ?_, hk3.level⟩
        obtain ⟨c, -, rfl⟩ := write_eq_some.1 h3
        simp [Kernel.tasks]

theorem Seated.timerTick (hk : Seated k) (h : taskTimerTick k = some k') : Seated k' := by
  rw [taskTimerTick] at h
  obtain ⟨l, hl, hlen⟩ := hk.ring
  have hk0 : Seated { k with gTick := k.gTick + 1 } := ⟨⟨l, hl.of_eq rfl rfl, hlen⟩, hk.current, hk.level⟩
  split at h
  · cases h
    exact hk0
  · simp only [bind_eq_bind, bind_eq_some_iff] at h
    obtain ⟨k1, h1, k2, h2, c, -, h⟩ := h
    have hk1 := hk0.settle (write_settled (fun _ => by rfl) h1) (write_settled (fun _ => by rfl) h1)
    have hk2 := hk1.accountTick h2
    split at h
    · cases h
    · simp only [bind_eq_some_iff] at h
      obtain ⟨k3, h3, h⟩ := h
      have hk3 := hk2.settle (write_settled (fun _ => by rfl) h3) (write_settled (fun _ => by rfl) h3)
      exact hk3.settles fun hp => taskWakeExpired_settled hp h

theorem Seated.call {op : TaskOp} (hk : Seated k) (hop : op.ends = false)
    (hal : op.FreshAlloc k) (h : taskStep k op = some k') : Seated k' := by
  cases op with
  | init i al =>
    obtain ⟨r, hr, rfl⟩ := Option.map_eq_some_iff.1 h
    exact hk.init (hal al rfl) hr
  | create s al =>
    obtain ⟨r, hr, rfl⟩ := Option.map_eq_some_iff.1 h
    exact hk.create (hal al rfl) hr
  | clone parent name al =>
    obtain ⟨r, hr, rfl⟩ := Option.map_eq_some_iff.1 h
    exact hk.clone (hal al rfl) hr
  | execve t name entry arg img =>
    obtain ⟨r, hr, rfl⟩ := Option.map_eq_some_iff.1 h
    exact hk.settle (taskExecve_settled ignoresImage_links hr) (taskExecve_settled (fun _ _ _ _ _ _ => rfl) hr)
  | setAuthority t caps ceiling =>
    exact hk.settle (taskSetAuthority_settled ignoresImage_links h) (taskSetAuthority_settled (fun _ _ _ _ _ _ => rfl) h)
  | destroy _ | kill _ | reap => exact absurd hop Bool.noConfusion
  | terminate t => exact hk.settles fun hp => taskTerminate_settled hp h
  | yield => exact hk.yield h
  | block =>
    obtain ⟨k1, h1, h⟩ := bind_eq_some_iff.1 h
    exact (hk.settles fun hp => markBlocked_settled hp h1).yield h
  | unblock t => exact hk.settles fun hp => taskUnblock_settled hp h
  | sleep n =>
    rw [taskStep, taskSleep] at h
    split at h
    · cases h
      exact hk
    · obtain ⟨k1, h1, h⟩ := bind_eq_some_iff.1 h
      exact (hk.settles fun hp => taskArmSleep_settled hp h1).yield h
  | wake t => exact hk.settles fun hp => taskWake_settled hp h
  | timerTick => exact hk.timerTick h

/-- **Every call keeps the invariant.** -/
theorem Seated.step {op : ClassOp} (hk : Seated k) (h : ClassStep k op k') : Seated k' := by
  obtain ⟨hop, h⟩ := h
  cases op with
  | call op => exact hk.call hop.1 hop.2 h
  | accountTick t => exact hk.accountTick h
  | armSleep t n => exact hk.settles fun hp => taskArmSleep_settled hp h
  | wakeExpired => exact hk.settles fun hp => taskWakeExpired_settled hp h
  | scheduleNext =>
    obtain ⟨r, hr, rfl⟩ := Option.map_eq_some_iff.1 h
    exact hk.settles fun hp => taskScheduleNext_settled hp hr

/-! ## What a scan finds -/

/-- The task can be run, and its priority is one of a class. -/
def Kernel.Offers (k : Kernel) (P : TaskPriority → Prop) (b : Addr × CTask) : Prop :=
  k.heap b.1 = some b.2 ∧ b.2.runnable = true ∧ P b.2.priority

/-- The candidate for a class, when the tasks of the list have been looked at. -/
def Covers (k : Kernel) (P : TaskPriority → Prop) (seen : List Addr)
    (o : Option (Addr × CTask)) : Prop :=
  (∀ b ∈ o, k.Offers P b) ∧ (o = none → ∀ a ∈ seen, ∀ c, ¬ k.Offers P (a, c))

theorem Covers.start (k : Kernel) (P : TaskPriority → Prop) : Covers k P [] none :=
  ⟨fun _ hb => (nomatch hb), fun _ _ ha => (nomatch ha)⟩

section

variable {P : TaskPriority → Prop} {seen : List Addr} {o : Option (Addr × CTask)} {b : Addr × CTask}

/-- A task of the class has been looked at: there is a candidate now. -/
theorem Covers.challenge (h : Covers k P seen o) (hb : k.Offers P b)
    (beats : CTask → CTask → Bool) : Covers k P (b.1 :: seen) (challenge beats b o) := by
  cases o with
  | none => exact ⟨fun d hd => Option.some.inj hd ▸ hb, fun hn => nomatch hn⟩
  | some d =>
    refine ⟨fun e he => ?_, fun hn => ?_⟩
    · rw [Tasking.challenge] at he
      split at he
      · exact Option.some.inj he ▸ hb
      · exact h.1 e he
    · rw [Tasking.challenge] at hn
      split at hn <;> cases hn

/-- A task that is not of the class has been looked at. -/
theorem Covers.skip (h : Covers k P seen o) (hb : k.heap b.1 = some b.2) (hn : ¬ k.Offers P b) :
    Covers k P (b.1 :: seen) o := by
  refine ⟨h.1, fun ho a ha c hc => ?_⟩
  rcases List.mem_cons.1 ha with rfl | ha
  · cases hb.symm.trans hc.1
    exact hn hc
  · exact h.2 ho a ha c hc

end

/-- The classes between the two others. -/
def Fair (p : TaskPriority) : Prop := p ≠ .realtime ∧ p ≠ .idle

/-- The three candidates, when the tasks of the list have been looked at. -/
structure Scanned (k : Kernel) (seen : List Addr) (p : Picks) : Prop where
  rt : Covers k (· = .realtime) seen p.rtBest
  fair : Covers k Fair seen p.best
  idle : Covers k (· = .idle) seen p.idleBest

theorem Scanned.start (k : Kernel) : Scanned k [] ⟨none, none, none⟩ :=
  ⟨.start k _, .start k _, .start k _⟩

/-- **One task is looked at.**  It is eligible, so it is a candidate of its class if it can run. -/
theorem Scanned.consider {seen : List Addr} {p : Picks} {b : Addr × CTask}
    (h : Scanned k seen p) (hb : k.heap b.1 = some b.2) (hle : b.2.vruntime ≤ k.gMinVruntime) :
    Scanned k (b.1 :: seen) (p.consider k.gMinVruntime b) := by
  rw [Picks.consider]
  by_cases hrun : b.2.runnable = true
  · rw [if_pos (by simp [hrun, hle])]
    have hoffers : ∀ {P : TaskPriority → Prop}, P b.2.priority → k.Offers P b :=
      fun hp => ⟨hb, hrun, hp⟩
    have hskip : ∀ {P : TaskPriority → Prop} {o : Option (Addr × CTask)}, Covers k P seen o →
        ¬ P b.2.priority → Covers k P (b.1 :: seen) o := fun hc hp => hc.skip hb fun ho => hp ho.2.2
    cases hprio : b.2.priority with
    | realtime =>
      exact ⟨h.rt.challenge (hoffers hprio) _, hskip h.fair (by simp [hprio, Fair]), hskip h.idle (by simp [hprio])⟩
    | idle =>
      exact ⟨hskip h.rt (by simp [hprio]), hskip h.fair (by simp [hprio, Fair]), h.idle.challenge (hoffers hprio) _⟩
    | low | normal | high =>
      exact ⟨hskip h.rt (by simp [hprio]), h.fair.challenge (hoffers (by simp [hprio, Fair])) _,
        hskip h.idle (by simp [hprio])⟩
  · rw [if_neg (by simp [hrun])]
    have hskip : ∀ {P : TaskPriority → Prop} {o : Option (Addr × CTask)}, Covers k P seen o →
        Covers k P (b.1 :: seen) o := fun hc => hc.skip hb fun ho => hrun ho.2.1
    exact ⟨hskip h.rt, hskip h.fair, hskip h.idle⟩

/-! ## Once round the ring -/

/-- The kernel with all sleepers roused whose time has come. -/
def Kernel.awake (k : Kernel) : Kernel :=
  { k with heap := fun a => (k.heap a).map (.roused k.gTick) }

/-- The kernel with those of the list roused. -/
def Kernel.awakeOn (k : Kernel) (seen : List Addr) : Kernel :=
  { k with heap := fun a => if a ∈ seen then (k.heap a).map (.roused k.gTick) else k.heap a }

theorem awakeOn_nil (k : Kernel) : k.awakeOn [] = k := by
  simp [Kernel.awakeOn]

theorem awakeOn_all {seen : List Addr} (h : ∀ a, k.heap a ≠ none → a ∈ seen) : k.awakeOn seen = k.awake := by
  unfold Kernel.awakeOn Kernel.awake
  congr 1
  funext a
  by_cases ha : a ∈ seen
  · rw [if_pos ha]
  · rw [if_neg ha, not_not.1 (mt (h a) ha), Option.map_none]

theorem awakeOn_write {seen : List Addr} {c : CTask} (hc : k.heap t = some c) (ht : t ∉ seen) :
    (k.awakeOn seen).write t (.roused k.gTick) = some (k.awakeOn (t :: seen)) := by
  refine write_eq_some.2 ⟨c, by simp [Kernel.awakeOn, ht, hc], ?_⟩
  unfold Kernel.awakeOn
  congr 1
  funext a
  rcases eq_or_ne a t with rfl | ha
  · simp [hc]
  · simp [ha]

theorem awake_quiet (k : Kernel) : Quiet links k k.awake := by
  refine ⟨funext fun a => ?_, rfl, rfl⟩
  simp only [Kernel.view, Kernel.awake, Option.map_map]
  exact congrFun (congrArg _ (funext fun c => ignoresSched_links.ignoresState.roused k.gTick c)) _

/-- Each task's `next` is the one behind it in the list. -/
def Walks (k : Kernel) (l : List Addr) : Prop := l.IsChain fun a b => k.next a = b

theorem Walks.head (h : Walks k (t :: a :: l)) {c : CTask} (hc : k.heap t = some c) : c.next = a :=
  (next_of_heap hc).symm.trans (List.rel_of_isChain_cons_cons (R := fun a b => k.next a = b) h)

/-- **The loop of `task_schedule_next`**, from a task to the one it started at.  The tasks that have
been looked at are awake; the candidates are those that are found in the kernel in which all are. -/
theorem scanLoop_awake (hlevel : ∀ a v, k.view CTask.vruntime a = some v → v ≤ k.gMinVruntime)
    {start : Addr} : ∀ {l seen : List Addr} {t : Addr} {fuel : Nat} {p : Picks},
    Walks k (t :: l ++ [start]) → (t :: l).Nodup → start ∉ l → (∀ a ∈ t :: l, a ∈ k.tasks) →
    (∀ a ∈ t :: l, a ∉ seen) → (∀ a, k.heap a ≠ none → a ∈ seen ∨ a ∈ t :: l) →
    l.length < fuel → Scanned k.awake seen p →
    ∃ seen' p', scanLoop start fuel (k.awakeOn seen) t p = some (k.awake, p') ∧
      (∀ a, k.heap a ≠ none → a ∈ seen') ∧ Scanned k.awake seen' p' := by
  intro l
  induction l with
  | nil =>
    intro seen t fuel p hw _ _ htasks hout hall hfuel hp
    obtain ⟨fuel, rfl⟩ : ∃ m, fuel = m + 1 := ⟨fuel - 1, by omega⟩
    obtain ⟨c, hc⟩ := Option.ne_none_iff_exists'.mp (htasks t (List.mem_singleton_self t))
    have ht := hout t (List.mem_singleton_self t)
    have hheap : (k.awakeOn seen).heap t = some c := by simp [Kernel.awakeOn, ht, hc]
    have hseen : ∀ a, k.heap a ≠ none → a ∈ t :: seen := by
      intro a ha
      have := hall a ha
      simp only [List.mem_cons] at this ⊢
      tauto
    refine ⟨t :: seen, _, ?_, hseen, hp.consider (b := (t, c.roused k.gTick)) ?_ ?_⟩
    · rw [scanLoop, hheap]
      simp only [bind_eq_bind, bind_some]
      rw [show (k.awakeOn seen).gTick = k.gTick from rfl, awakeOn_write hc ht, bind_some,
        if_pos (hw.head hc), awakeOn_all hseen]
      rfl
    · show (k.heap t).map _ = _
      rw [hc, Option.map_some]
    · show (c.roused k.gTick).vruntime ≤ _
      rw [roused_vruntime]
      exact hlevel t _ (view_of_heap hc)
  | cons u l ih =>
    intro seen t fuel p hw hnd hstart htasks hout hall hfuel hp
    obtain ⟨fuel, rfl⟩ : ∃ m, fuel = m + 1 := ⟨fuel - 1, by omega⟩
    obtain ⟨c, hc⟩ := Option.ne_none_iff_exists'.mp (htasks t List.mem_cons_self)
    have ht := hout t List.mem_cons_self
    have hheap : (k.awakeOn seen).heap t = some c := by simp [Kernel.awakeOn, ht, hc]
    have hnd' := List.nodup_cons.1 hnd
    have hnext : c.next = u := hw.head hc
    have hus : u ≠ start := fun h => hstart (by simp [h])
    have hp1 : Scanned k.awake (t :: seen)
        (p.consider k.awake.gMinVruntime (t, c.roused k.gTick)) := by
      refine hp.consider (b := (t, c.roused k.gTick)) ?_ ?_
      · show (k.heap t).map _ = _
        rw [hc, Option.map_some]
      · show (c.roused k.gTick).vruntime ≤ _
        rw [roused_vruntime]
        exact hlevel t _ (view_of_heap hc)
    have hout1 : ∀ a ∈ u :: l, a ∉ t :: seen := by
      intro a ha hs
      rcases List.mem_cons.1 hs with rfl | hs
      · exact hnd'.1 ha
      · exact hout a (List.mem_cons_of_mem t ha) hs
    have hall1 : ∀ a, k.heap a ≠ none → a ∈ t :: seen ∨ a ∈ u :: l := by
      intro a ha
      have := hall a ha
      simp only [List.mem_cons] at this ⊢
      tauto
    obtain ⟨seen', p', hscan, hrest⟩ := ih (List.isChain_of_isChain_cons hw) hnd'.2
      (fun h => hstart (List.mem_cons_of_mem u h)) (fun a ha => htasks a (List.mem_cons_of_mem t ha))
      hout1 hall1 (show l.length < fuel by simpa using hfuel) hp1
    refine ⟨seen', p', ?_, hrest⟩
    rw [scanLoop, hheap]
    simp only [bind_eq_bind, bind_some]
    rw [show (k.awakeOn seen).gTick = k.gTick from rfl, awakeOn_write hc ht, bind_some, hnext, if_neg hus]
    exact hscan

/-- The second loop finds nothing where nothing can run. -/
theorem fallbackLoop_none (hnone : ∀ a c, k.heap a = some c → c.runnable = false) :
    ∀ {l : List Addr} {t : Addr} {fuel : Nat}, Walks k (t :: l ++ [k.gHead]) → k.gHead ∉ l →
    (∀ a ∈ t :: l, a ∈ k.tasks) → l.length < fuel → fallbackLoop k fuel t none = some none := by
  intro l
  induction l with
  | nil =>
    intro t fuel hw _ htasks hfuel
    obtain ⟨fuel, rfl⟩ : ∃ m, fuel = m + 1 := ⟨fuel - 1, by omega⟩
    obtain ⟨c, hc⟩ := Option.ne_none_iff_exists'.mp (htasks t (List.mem_singleton_self t))
    rw [fallbackLoop, hc]
    simp [hnone t c hc, hw.head hc]
  | cons u l ih =>
    intro t fuel hw hhead htasks hfuel
    obtain ⟨fuel, rfl⟩ : ∃ m, fuel = m + 1 := ⟨fuel - 1, by omega⟩
    obtain ⟨c, hc⟩ := Option.ne_none_iff_exists'.mp (htasks t List.mem_cons_self)
    have huh : u ≠ k.gHead := fun h => hhead (by simp [h])
    have hrest := ih (List.isChain_of_isChain_cons hw) (fun h => hhead (List.mem_cons_of_mem u h))
      (fun a ha => htasks a (List.mem_cons_of_mem t ha)) (show l.length < fuel by simpa using hfuel)
    rw [fallbackLoop, hc]
    simpa [hnone t c hc, hw.head hc, huh] using hrest

/-! ## The order of the classes -/

/-- The task is picked by its class: a real-time task if one can be run, an idle task only if nothing
else can, and none only if nothing can be run at all. -/
structure ClassOrder (k : Kernel) (t : Addr) : Prop where
  null : t = 0 ↔ ∀ b, ¬ k.Offers (fun _ => True) b
  picked : t ≠ 0 → ∃ c, k.Offers (fun _ => True) (t, c)
  realtime : (∃ b, k.Offers (· = .realtime) b) → ∃ c, k.Offers (· = .realtime) (t, c)
  busy : (∃ b, k.Offers (· ≠ .idle) b) → ∃ c, k.Offers (· ≠ .idle) (t, c)

theorem Kernel.Offers.imp {P Q : TaskPriority → Prop} {b : Addr × CTask} (h : k.Offers P b)
    (himp : ∀ p, P p → Q p) : k.Offers Q b :=
  ⟨h.1, h.2.1, himp _ h.2.2⟩

/-- The candidate of the first class that has one. -/
theorem Scanned.classOrder {seen : List Addr} {p : Picks} {b : Addr × CTask}
    (h : Scanned k seen p) (hall : ∀ a, k.heap a ≠ none → a ∈ seen) (h0 : k.heap 0 = none)
    (hb : p.rtBest.or (p.best.or p.idleBest) = some b) : ClassOrder k b.1 := by
  have hseen : ∀ {P : TaskPriority → Prop} {d : Addr × CTask}, k.Offers P d → d.1 ∈ seen :=
    fun ho => hall _ (by rw [ho.1]; exact Option.some_ne_none _)
  have hoffer : k.Offers (fun _ => True) b := by
    rcases Option.or_eq_some_iff.1 hb with hb | ⟨-, hb⟩
    · exact (h.rt.1 b hb).imp fun _ _ => trivial
    · rcases Option.or_eq_some_iff.1 hb with hb | ⟨-, hb⟩
      · exact (h.fair.1 b hb).imp fun _ _ => trivial
      · exact (h.idle.1 b hb).imp fun _ _ => trivial
  have hne : b.1 ≠ 0 := by
    intro hz
    have hheap := hoffer.1
    rw [hz, h0] at hheap
    cases hheap
  refine ⟨⟨fun hz => absurd hz hne, fun hn => absurd hoffer (hn b)⟩, fun _ => ⟨b.2, hoffer⟩, ?_, ?_⟩
  · rintro ⟨d, hd⟩
    rcases Option.or_eq_some_iff.1 hb with hb | ⟨hnone, -⟩
    · exact ⟨b.2, h.rt.1 b hb⟩
    · exact absurd hd (h.rt.2 hnone d.1 (hseen hd) d.2)
  · rintro ⟨d, hd⟩
    rcases Option.or_eq_some_iff.1 hb with hb | ⟨hrt, hb⟩
    · exact ⟨b.2, (h.rt.1 b hb).imp (by rintro _ rfl; decide)⟩
    · rcases Option.or_eq_some_iff.1 hb with hb | ⟨hfair, -⟩
      · exact ⟨b.2, (h.fair.1 b hb).imp fun _ hp => hp.2⟩
      · by_cases hprio : d.2.priority = .realtime
        · exact absurd ⟨hd.1, hd.2.1, hprio⟩ (h.rt.2 hrt d.1 (hseen hd) d.2)
        · exact absurd ⟨hd.1, hd.2.1, hprio, hd.2.2⟩ (h.fair.2 hfair d.1 (hseen hd) d.2)

/-- No candidate: there is nothing that can run. -/
theorem Scanned.none_offered {seen : List Addr} {p : Picks} (h : Scanned k seen p)
    (hall : ∀ a, k.heap a ≠ none → a ∈ seen)
    (hb : p.rtBest.or (p.best.or p.idleBest) = none) (b : Addr × CTask) :
    ¬ k.Offers (fun _ => True) b := by
  rintro ⟨hheap, hrun, -⟩
  simp only [Option.or_eq_none_iff] at hb
  obtain ⟨hrt, hfair, hidle⟩ := hb
  have hseen : b.1 ∈ seen := hall _ (by rw [hheap]; exact Option.some_ne_none _)
  by_cases h1 : b.2.priority = .realtime
  · exact h.rt.2 hrt b.1 hseen b.2 ⟨hheap, hrun, h1⟩
  · by_cases h2 : b.2.priority = .idle
    · exact h.idle.2 hidle b.1 hseen b.2 ⟨hheap, hrun, h2⟩
    · exact h.fair.2 hfair b.1 hseen b.2 ⟨hheap, hrun, h1, h2⟩

theorem ClassOrder.of_none (h : ∀ b, ¬ k.Offers (fun _ => True) b) : ClassOrder k 0 where
  null := ⟨fun _ => h, fun _ => rfl⟩
  picked := fun h0 => absurd rfl h0
  realtime := fun ⟨b, hb⟩ => absurd (hb.imp fun _ _ => trivial) (h b)
  busy := fun ⟨b, hb⟩ => absurd (hb.imp fun _ _ => trivial) (h b)

/-- The ring, walked from any of its tasks. -/
theorem OnRing.walks (hk : OnRing k l) (ht : t ∈ l) : ∃ m, Walks k (t :: m ++ [t]) ∧
    (t :: m).Nodup ∧ (∀ a, a ∈ t :: m ↔ a ∈ k.tasks) ∧ (t :: m).length = l.length := by
  obtain ⟨l1, l2, rfl, hring⟩ := hk.ring.enter ht
  refine ⟨l2 ++ l1, hring.2.imp fun a b h => h.1, hring.1, fun a => ?_, ?_⟩
  · rw [← hk.tasks]
    simp only [List.mem_cons, List.mem_append]
    tauto
  · simp only [List.length_cons, List.length_append]
    omega

theorem Seated.start (hk : Seated k) (h0 : k.gHead ≠ 0) : ∃ start, scanStart k = some start ∧ start ∈ k.tasks := by
  obtain ⟨l, hl, -⟩ := hk.ring
  rw [scanStart]
  split
  · refine ⟨k.gHead, rfl, (hl.tasks _).1 ?_⟩
    cases l with
    | nil => exact absurd hl.head h0
    | cons a l => rw [hl.head]; exact List.mem_cons_self
  · rename_i hcur
    have hm := hk.current.resolve_left hcur
    obtain ⟨c, hc⟩ := Option.ne_none_iff_exists'.1 hm
    refine ⟨c.next, by rw [hc, Option.map_some], ?_⟩
    rw [← next_of_heap hc]
    exact (hl.tasks _).mp (hl.ring.next_mem ((hl.tasks _).2 hm))

/-- **What `task_schedule_next` does** to a kernel that keeps the invariant: it rouses every sleeper
whose time has come, and then picks by class. -/
theorem Seated.scheduleNext (hk : Seated k) : ∃ t, taskScheduleNext k = some (k.awake, t) ∧ ClassOrder k.awake t := by
  obtain ⟨l, hl, hlen⟩ := hk.ring
  have hempty : k.heap 0 = none := not_not.1 fun h => hl.null ((hl.tasks 0).2 h)
  rw [taskScheduleNext]
  by_cases h0 : k.gHead = 0
  · rw [if_pos h0]
    have hnil : l = [] := by
      cases l with
      | nil => rfl
      | cons a l => exact absurd h0 (hl.head_ne_zero).2
    have hheap : ∀ a, k.heap a = none := fun a =>
      not_not.1 fun h => List.not_mem_nil (hnil ▸ (hl.tasks a).2 h)
    have hawake : k.awake = k := by
      have hall : k.awakeOn [] = k.awake := awakeOn_all fun a ha => absurd (hheap a) ha
      rw [← hall, awakeOn_nil]
    refine ⟨0, by rw [hawake], .of_none fun b hb => ?_⟩
    rw [hawake] at hb
    exact absurd (hb.1.symm.trans (hheap _)) (Option.some_ne_none _)
  · rw [if_neg h0]
    obtain ⟨start, hstart, hm⟩ := hk.start h0
    obtain ⟨m, hw, hnd, htasks, hlm⟩ := hl.walks ((hl.tasks _).2 hm)
    obtain ⟨seen, p, hscan, hall, hp⟩ := @scanLoop_awake k hk.level start m [] start k.gNextId _ hw
      hnd (List.nodup_cons.1 hnd).1 (fun a ha => (htasks a).1 ha) (fun _ _ h => by cases h)
      (fun a ha => Or.inr ((htasks a).2 ha)) (by rw [List.length_cons] at hlm; omega)
      (.start k.awake)
    rw [awakeOn_nil] at hscan
    have hall' : ∀ a, k.awake.heap a ≠ none → a ∈ seen := fun a ha =>
      hall a fun hnone => ha (by show (k.heap a).map _ = none; rw [hnone, Option.map_none])
    have hempty' : k.awake.heap 0 = none := by
      show (k.heap 0).map _ = none
      rw [hempty, Option.map_none]
    simp only [hstart, hscan, bind_eq_bind, bind_some]
    cases hb : p.rtBest.or (p.best.or p.idleBest) with
    | some b => exact ⟨b.1, rfl, hp.classOrder hall' hempty' hb⟩
    | none =>
      -- everything that can run is eligible, so the second loop finds nothing either
      have hnone := hp.none_offered hall' hb
      have hl' := hl.quiet (awake_quiet k)
      have hhead : k.gHead ∈ l := by
        cases l with
        | nil => exact absurd hl.head h0
        | cons a l => rw [hl.head]; exact List.mem_cons_self
      obtain ⟨m', hw', hnd', htasks', hlm'⟩ := hl'.walks hhead
      have hfall := @fallbackLoop_none k.awake
        (fun a c hc => by simpa using fun hrun => hnone (a, c) ⟨hc, hrun, trivial⟩) m' _ k.awake.gNextId hw'
        (List.nodup_cons.1 hnd').1 (fun a ha => (htasks' a).1 ha)
        (show _ < k.gNextId by rw [List.length_cons] at hlm'; omega)
      refine ⟨0, ?_, .of_none hnone⟩
      rw [show k.awake.gHead = k.gHead from rfl, hfall]
      rfl

/-- **The scheduler keeps to the classes**, after every run that takes no task off the ring. -/
theorem scheduleNext_class_order (ops : List ClassOp) (k : Kernel) (h : Run ClassStep boot ops k) :
    ∃ t, taskScheduleNext k = some (k.awake, t) ∧ ClassOrder k.awake t :=
  (h.invariant Seated (fun _ _ _ hs hk => hk.step hs) seated_boot).scheduleNext

/-- The idle task, a task, and a real-time task that has run for a tick and sleeps until it is due. -/
def classRun : List ClassOp :=
  [.call (.init 1 ⟨8, true, true⟩), .call (.create ⟨none, 2, 0, 0, .normal⟩ ⟨16, true, true⟩),
    .call (.create ⟨none, 2, 0, 0, .realtime⟩ ⟨24, true, true⟩), .accountTick 24, .armSleep 24 0]

theorem scheduleNext_class_order_sleeper : ∃ k, Run ClassStep boot classRun k ∧
    ∃ t, taskScheduleNext k = some (k.awake, t) ∧ ClassOrder k.awake t := by
  obtain ⟨k, hrun⟩ := Option.isSome_iff_exists.1
    (show (replay ClassOp.Stays classStep boot classRun).isSome by decide)
  have hr : Run ClassStep boot classRun k := run_of_replay hrun
  exact ⟨k, hr, scheduleNext_class_order classRun k hr⟩

example : ((replay ClassOp.Stays classStep boot classRun).bind taskScheduleNext).map Prod.snd = some 24 := by decide

end WuBuOS.Tasking
