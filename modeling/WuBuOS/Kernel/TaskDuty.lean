import WuBuOS.Kernel.TaskFrame

/-!
# Who must stay off the CPU

A task that has called `task_block`, or `task_sleep`, or has been terminated, has been *decided* off
the CPU: until it is unblocked or woken, until its time comes, or for ever.  What has been decided is
recorded here next to the kernel, as a `Duty` for each task, by looking at the calls only
(`dutyAfter`); the kernel itself records it in the one field `state`.  The question is whether
`task_schedule_next` can return a task that has a duty.

It can, because `state` is written by everyone.  `task_yield` makes the task it switches away from
ready, whatever it was, so `task_block` undoes itself if there is another task to run:
`blocked_task_scheduled`.  Calls made by a task that is already off the CPU overwrite one decision
with another, and a timer left on the wheel by an earlier sleep ends a later one.  `KeepsDecisions`
is the condition on a call that it does none of these, and in every run of calls that meet it
`task_schedule_next` returns no task that has a duty: `scheduleNext_respects_duty`.
-/

namespace WuBuOS.Tasking

open Runs TimerWheel
open Option (bind_eq_some_iff bind_eq_bind map_eq_some_iff)
open Function (update_of_ne update_self)

variable {k k' k1 : Kernel} {a t : Addr}

/-! ## Duties -/

/-- What a task has been decided to stay off the CPU for. -/
structure Duty where
  /-- It has blocked, and has not been unblocked or woken. -/
  blocked : Bool
  /-- It sleeps until this tick, which has not been reached. -/
  asleep : Option UInt64
  /-- It has been terminated. -/
  dying : Bool
  deriving DecidableEq, Repr

/-- No reason to stay off the CPU. -/
def Duty.free : Duty := ⟨false, none, false⟩

/-- What is still owed when the tick counter reads `tick`: a sleep that has been reached is over. -/
def Duty.owedAt (tick : UInt64) (d : Duty) : Duty :=
  { d with asleep := d.asleep.filter fun w => tick < w }

theorem Duty.asleep_owedAt {tick w : UInt64} {d : Duty} :
    (d.owedAt tick).asleep = some w ↔ d.asleep = some w ∧ tick < w := by
  simp [Duty.owedAt, Option.filter_eq_some_iff]

/-- Change what is owed by the task at `t`, unless that is a null pointer. -/
def revise (d : Addr → Duty) (t : Addr) (f : Duty → Duty) : Addr → Duty :=
  if t = 0 then d else Function.update d t (f (d t))

/-- The duties after a call in the kernel `k`. -/
def dutyAfter (k : Kernel) (d : Addr → Duty) : TaskOp → Addr → Duty
  | .init _ al | .create _ al | .clone _ _ al => Function.update d al.task .free
  | .block => revise d k.gCurrent fun y => { y with blocked := true }
  | .sleep n => revise d k.gCurrent fun y =>
      Duty.owedAt k.gTick { y with asleep := some (k.gTick + n) }
  | .unblock t => revise d t fun y => { y with blocked := false }
  | .wake t => revise d t fun y => { y with blocked := false, asleep := none }
  | .terminate t => revise d t fun y => { y with dying := true }
  | .timerTick => fun a => (d a).owedAt (k.gTick + 1)
  | _ => d

section

variable (k : Kernel) (d : Addr → Duty) (t : Addr)

theorem dutyAfter_sleep (n : UInt64) : dutyAfter k d (.sleep n) =
    revise d k.gCurrent fun y => Duty.owedAt k.gTick { y with asleep := some (k.gTick + n) } := rfl

end

/-! ## What the kernel records -/

/-- The fields the decisions are recorded in. -/
def status (c : CTask) : TaskState × UInt64 := (c.state, c.wakeTick)

theorem ignoresLinks_status : IgnoresLinks status := fun _ _ _ => rfl

theorem ignoresImage_status : IgnoresImage status := fun _ _ _ _ _ _ => rfl

/-- The status records the duty. -/
structure Records (tick : UInt64) (d : Duty) (x : TaskState × UInt64) : Prop where
  dying : d.dying = true → x.1 = .dying
  blocked : d.blocked = true → x.1 = .blocked ∨ x.1 = .dying
  asleep : ∀ w, d.asleep = some w → tick < w ∧ (x.1 = .dying ∨ x = (.sleeping, w))

theorem records_free (tick : UInt64) (x : TaskState × UInt64) : Records tick .free x :=
  ⟨fun h => absurd h Bool.false_ne_true, fun h => absurd h Bool.false_ne_true, fun _ h => nomatch h⟩

/-- The task would be found runnable by the scheduler. -/
def canRun (tick : UInt64) (x : TaskState × UInt64) : Prop :=
  x.1 = .ready ∨ x.1 = .running ∨ x.1 = .sleeping ∧ x.2 ≤ tick

variable {f : CTask → CTask} {fuel : Nat} {x : TaskState × UInt64}

/-- A task the scheduler would find runnable has no duty. -/
theorem Records.eq_free {tick : UInt64} {d : Duty} (h : Records tick d x) (hr : canRun tick x) : d = .free := by
  obtain ⟨b, s, y⟩ := d
  obtain ⟨st, w⟩ := x
  have hy : y = false := by
    by_contra hy
    have := h.dying (by simpa using hy)
    rcases hr with hr | hr | ⟨hr, -⟩ <;> simp_all
  have hb : b = false := by
    by_contra hb
    have := h.blocked (by simpa using hb)
    rcases hr with hr | hr | ⟨hr, -⟩ <;> simp_all
  have hs : s = none := by
    cases s with
    | none => rfl
    | some v =>
      obtain ⟨hlt, hrec⟩ := h.asleep v rfl
      rcases hr with hr | hr | ⟨hr, hle⟩
      · simp_all
      · simp_all
      · have hv : w = v := by simp_all
        exact absurd hlt (by rw [← hv]; exact UInt64.not_lt.2 hle)
  rw [hy, hb, hs]
  rfl

/-- Every task's status records its duty. -/
def AllRecorded (k : Kernel) (d : Addr → Duty) : Prop :=
  ∀ a x, k.view status a = some x → Records k.gTick (d a) x

variable {d : Addr → Duty}

theorem AllRecorded.of_view (h : AllRecorded k d) (hview : k'.view status = k.view status)
    (htick : k'.gTick = k.gTick) : AllRecorded k' d := by
  intro a x hx
  rw [htick]
  exact h a x (by rw [← hview, hx])

/-- A change at one address, of the status and of the duty. -/
theorem AllRecorded.update (h : AllRecorded k d) {y : Duty}
    (hview : k'.view status = Function.update (k.view status) t (some x))
    (htick : k'.gTick = k.gTick) (hx : Records k.gTick y x) :
    AllRecorded k' (Function.update d t y) := by
  intro a z hz
  rw [htick]
  rw [hview] at hz
  rcases eq_or_ne a t with rfl | ha
  · rw [update_self] at hz ⊢
    exact Option.some.inj hz ▸ hx
  · rw [update_of_ne ha] at hz ⊢
    exact h a z hz

/-- An assignment to the task at `t`, and what is owed by it after. -/
theorem AllRecorded.write (h : AllRecorded k d) {y : Duty} (hw : k.write t f = some k')
    (hy : ∀ c, k.heap t = some c → Records k.gTick y (status (f c))) :
    AllRecorded k' (Function.update d t y) := by
  obtain ⟨c, hc, hview⟩ := view_write status hw
  exact h.update hview (write_tick hw).1 (hy c hc)

/-! ## The scheduler -/

theorem canRun_iff (tick : UInt64) (c : CTask) : (c.roused tick).runnable = true ↔ canRun tick (status c) := by
  rw [CTask.roused, canRun]
  split
  · rename_i h
    simp [CTask.withState, CTask.runnable, status, h.1, h.2]
  · rename_i h
    rw [not_and] at h
    simp only [CTask.runnable, status, Bool.or_eq_true, beq_iff_eq]
    tauto

theorem roused_roused (tick : UInt64) (c : CTask) : (c.roused tick).roused tick = c.roused tick := by
  rw [CTask.roused]
  refine if_neg fun h => ?_
  rw [CTask.roused] at h
  split at h
  · cases h.1
  · exact absurd h ‹_›

theorem runnable_roused {tick : UInt64} {c : CTask} (h : c.runnable = true) : (c.roused tick).runnable = true := by
  rw [canRun_iff, canRun]
  simp only [CTask.runnable, Bool.or_eq_true, beq_iff_eq] at h
  exact h.imp id Or.inl

/-- The kernel after some sleepers whose time has come have been made ready. -/
structure Rouses (k k' : Kernel) : Prop where
  tick : k'.gTick = k.gTick
  current : k'.gCurrent = k.gCurrent
  heap : ∀ a, k'.heap a = k.heap a ∨ k'.heap a = (k.heap a).map (CTask.roused k.gTick)

theorem Rouses.refl (k : Kernel) : Rouses k k := ⟨rfl, rfl, fun _ => Or.inl rfl⟩

theorem Rouses.trans (h : Rouses k k1) (h' : Rouses k1 k') : Rouses k k' := by
  refine ⟨h'.tick.trans h.tick, h'.current.trans h.current, fun a => ?_⟩
  have hr := h'.heap a
  rw [h.tick] at hr
  rcases h.heap a with h1 | h1
  · rwa [h1] at hr
  · rw [h1, Option.map_map] at hr
    have hidem : CTask.roused k.gTick ∘ CTask.roused k.gTick = CTask.roused k.gTick :=
      funext fun c => roused_roused k.gTick c
    rw [hidem] at hr
    exact Or.inr (hr.elim id id)

theorem write_rouses (h : k.write t (.roused k.gTick) = some k') : Rouses k k' := by
  obtain ⟨c, hc, rfl⟩ := write_eq_some.1 h
  refine ⟨rfl, rfl, fun a => ?_⟩
  rcases eq_or_ne a t with rfl | ha
  · exact Or.inr (by simp [hc])
  · exact Or.inl (by simp [ha])

/-- A task the scheduler may pick. -/
def Runnable (k : Kernel) (a : Addr) : Prop := ∃ c, k.heap a = some c ∧ c.runnable = true

theorem Runnable.rouses (h : Runnable k a) (hr : Rouses k k') : Runnable k' a := by
  obtain ⟨c, hc, hrun⟩ := h
  rcases hr.heap a with h' | h'
  · exact ⟨c, h'.trans hc, hrun⟩
  · exact ⟨_, h'.trans (by rw [hc]; rfl), runnable_roused hrun⟩

/-- What was runnable after some have been roused could be found so before. -/
theorem Rouses.canRun (hr : Rouses k k') (h : Runnable k' a) : ∃ x, k.view status a = some x ∧ canRun k.gTick x := by
  obtain ⟨c, hc, hrun⟩ := h
  rcases hr.heap a with h' | h'
  · exact ⟨status c, view_of_heap (h'.symm.trans hc), (canRun_iff _ c).1 (runnable_roused hrun)⟩
  · rw [hc] at h'
    obtain ⟨c0, hc0, rfl⟩ := map_eq_some_iff.1 h'.symm
    exact ⟨status c0, view_of_heap hc0, (canRun_iff _ c0).1 hrun⟩

/-- Every candidate has the property. -/
def Picks.All (P : Addr → Prop) (p : Picks) : Prop :=
  (∀ b ∈ p.best, P b.1) ∧ (∀ b ∈ p.rtBest, P b.1) ∧ (∀ b ∈ p.idleBest, P b.1)

theorem Picks.all_none (P : Addr → Prop) : Picks.All P ⟨none, none, none⟩ := by
  simp [Picks.All]

theorem Picks.All.imp {P Q : Addr → Prop} {p : Picks} (h : p.All P) (himp : ∀ a, P a → Q a) : p.All Q :=
  ⟨fun b hb => himp _ (h.1 b hb), fun b hb => himp _ (h.2.1 b hb), fun b hb => himp _ (h.2.2 b hb)⟩

theorem challenge_mem {beats : CTask → CTask → Bool} {t : Addr × CTask}
    {o : Option (Addr × CTask)} {P : Addr → Prop} (ht : P t.1) (ho : ∀ b ∈ o, P b.1) :
    ∀ b ∈ challenge beats t o, P b.1 := by
  rintro b hb
  cases o with
  | none =>
    cases hb
    exact ht
  | some c =>
    rw [challenge] at hb
    split at hb
    · cases hb
      exact ht
    · exact ho b hb

theorem Picks.All.consider {P : Addr → Prop} {p : Picks} {min : UInt64} {t : Addr × CTask}
    (h : p.All P) (ht : t.2.runnable = true → P t.1) : (p.consider min t).All P := by
  rw [Picks.consider]
  split
  · rename_i hc
    have hP : P t.1 := ht (by simp only [Bool.and_eq_true] at hc; exact hc.1)
    split
    · exact ⟨h.1, challenge_mem hP h.2.1, h.2.2⟩
    · exact ⟨h.1, h.2.1, challenge_mem hP h.2.2⟩
    · exact ⟨challenge_mem hP h.1, h.2⟩
  · exact h

theorem scanLoop_spec {start : Addr} {p : Picks} {r : Kernel × Picks}
    (h : scanLoop start fuel k t p = some r) (hp : p.All (Runnable k)) :
    Rouses k r.1 ∧ r.2.All (Runnable r.1) := by
  induction fuel generalizing k t p with
  | zero => cases h
  | succ fuel ih =>
    simp only [scanLoop, bind_eq_bind, bind_eq_some_iff] at h
    obtain ⟨c, hc, k1, hw, h⟩ := h
    have hr := write_rouses hw
    have hp1 : (p.consider k.gMinVruntime (t, c.roused k.gTick)).All (Runnable k1) := by
      refine (hp.imp fun a ha => ha.rouses hr).consider fun hrun => ?_
      obtain ⟨c', hc', rfl⟩ := write_eq_some.1 hw
      cases hc.symm.trans hc'
      exact ⟨_, update_self .., hrun⟩
    split at h
    · cases h
      exact ⟨hr, hp1⟩
    · obtain ⟨hr', hp'⟩ := ih h hp1
      exact ⟨hr.trans hr', hp'⟩

theorem fallbackLoop_spec {best r : Option (Addr × CTask)}
    (h : fallbackLoop k fuel t best = some r) (hb : ∀ b ∈ best, Runnable k b.1) :
    ∀ b ∈ r, Runnable k b.1 := by
  induction fuel generalizing t best with
  | zero => cases h
  | succ fuel ih =>
    simp only [fallbackLoop, bind_eq_bind, bind_eq_some_iff] at h
    obtain ⟨c, hc, h⟩ := h
    have hb1 : ∀ b ∈ (if c.runnable then challenge behind (t, c) best else best), Runnable k b.1 := by
      split
      · rename_i hrun
        exact challenge_mem (P := Runnable k) ⟨c, hc, hrun⟩ hb
      · exact hb
    split at h
    · cases h
      exact hb1
    · exact ih h hb1

/-- **The scheduler returns a runnable task**, and on the way rouses sleepers whose time has come. -/
theorem taskScheduleNext_spec {r : Kernel × Addr} (h : taskScheduleNext k = some r) :
    Rouses k r.1 ∧ (r.2 ≠ 0 → Runnable r.1 r.2) := by
  rw [taskScheduleNext] at h
  split at h
  · cases h
    exact ⟨.refl k, fun h0 => absurd rfl h0⟩
  · simp only [bind_eq_bind, bind_eq_some_iff] at h
    obtain ⟨start, -, ⟨k1, p⟩, hscan, h⟩ := h
    obtain ⟨hr, hbest, hrt, hidle⟩ := scanLoop_spec hscan (Picks.all_none _)
    split at h
    · rename_i b hb
      cases h
      refine ⟨hr, fun _ => ?_⟩
      rcases Option.or_eq_some_iff.1 hb with hb | ⟨-, hb⟩
      · exact hrt b hb
      · rcases Option.or_eq_some_iff.1 hb with hb | ⟨-, hb⟩
        · exact hbest b hb
        · exact hidle b hb
    · simp only [bind_eq_some_iff] at h
      obtain ⟨best, hfall, h⟩ := h
      cases h
      refine ⟨hr, fun h0 => ?_⟩
      cases best with
      | none => exact absurd rfl h0
      | some b => exact fallbackLoop_spec hfall (fun _ hb => by cases hb) b rfl

theorem AllRecorded.rouses (h : AllRecorded k d) (hr : Rouses k k') : AllRecorded k' d := by
  intro a x hx
  rw [hr.tick]
  rcases hr.heap a with h' | h'
  · exact h a x (by rw [← hx, Kernel.view, Kernel.view, h'])
  · rw [Kernel.view, h'] at hx
    obtain ⟨c', hc', rfl⟩ := map_eq_some_iff.1 hx
    obtain ⟨c, hc, rfl⟩ := map_eq_some_iff.1 hc'
    have hrec := h a (status c) (view_of_heap hc)
    rw [CTask.roused]
    split
    · rename_i hdue
      rw [hrec.eq_free (Or.inr (Or.inr hdue))]
      exact records_free _ _
    · exact hrec

/-- **Off the CPU.**  If the statuses record the duties, the scheduler returns no one who has one. -/
theorem AllRecorded.scheduleNext (h : AllRecorded k d) {k' : Kernel} {a : Addr}
    (hs : taskScheduleNext k = some (k', a)) (h0 : a ≠ 0) : d a = .free := by
  obtain ⟨hr, hrun⟩ := taskScheduleNext_spec hs
  obtain ⟨x, hx, hcan⟩ := hr.canRun (hrun h0)
  exact (h a x hx).eq_free hcan

/-! ## The condition on a call -/

/-- No task but the running one could be picked. -/
def NoOther (k : Kernel) : Prop :=
  ∀ a x, a ≠ k.gCurrent → k.view status a = some x → ¬ canRun k.gTick x

/-- The id of a task, which its timers carry, and its status. -/
def tag (c : CTask) : Nat × TaskState × UInt64 := (c.taskId, status c)

/-- No timer of the list is one of a task that sleeps past `tick`. -/
def NoEarlyWake (k : Kernel) (tick : UInt64) (due : List TwEntry) : Prop :=
  ∀ e ∈ due, ∀ a w, k.view tag a = some (dueId e, .sleeping, w) → w ≤ tick

/-- The call does not write over what has been decided about a task.

* A task that yields must be able to run, or be the only one that is.
* A task that blocks must not be dying or asleep already, and must be the only one that can run:
  otherwise the yield inside `task_block` makes it ready again.
* A task that goes to sleep must not be dying or blocked already, and must be the only one that can
  run, unless its time has come at once.
* At a tick, the wheel must not report a timer of a task that sleeps past it. -/
def KeepsDecisions (k : Kernel) : TaskOp → Prop
  | .yield => ∀ x, k.view status k.gCurrent = some x → canRun k.gTick x ∨ NoOther k
  | .block => ∀ x, k.view status k.gCurrent = some x →
      x.1 ≠ .dying ∧ (x.1 = .sleeping → x.2 ≤ k.gTick) ∧ NoOther k
  | .sleep n => ∀ x, k.view status k.gCurrent = some x →
      x.1 ≠ .dying ∧ x.1 ≠ .blocked ∧ (k.gTick + n ≤ k.gTick ∨ NoOther k)
  | .timerTick => k.gInitialized = true → k.gCurrent ≠ 0 →
      NoEarlyWake k (k.gTick + 1) (twAdvance k.gSleepWheel dueMax).2
  | _ => True

/-! ## Yielding, blocking and sleeping -/

theorem resetStall_view (h : resetStall k = some k') :
    k'.view status = k.view status ∧ k'.gTick = k.gTick ∧ k'.gCurrent = k.gCurrent :=
  ⟨(write_settled (fun _ => by rfl) h).view, write_tick h⟩

theorem AllRecorded.resetStall (h : AllRecorded k d) (hw : resetStall k = some k') : AllRecorded k' d :=
  h.of_view (resetStall_view hw).1 (resetStall_view hw).2.1

/-- A task without a duty may be given any status. -/
theorem AllRecorded.write_free (h : AllRecorded k d)
    (hw : k.write t f = some k') (ht : d t = .free) : AllRecorded k' d := by
  have h' := h.write (y := d t) hw fun c _ => by rw [ht]; exact records_free _ _
  rwa [Function.update_eq_self] at h'

theorem AllRecorded.yield (h : AllRecorded k d)
    (hok : KeepsDecisions k .yield) (hy : taskYield k = some k') : AllRecorded k' d := by
  rw [taskYield] at hy
  split at hy
  · cases hy
    exact h
  · simp only [bind_eq_bind, bind_eq_some_iff] at hy
    obtain ⟨k0, h0, ⟨k1, next⟩, hsched, hy⟩ := hy
    have hrec0 := h.resetStall h0
    obtain ⟨hview, htick, hcur⟩ := resetStall_view h0
    obtain ⟨hr, hrun⟩ := taskScheduleNext_spec hsched
    have hrec1 := hrec0.rouses hr
    split at hy
    · cases hy
      exact hrec1
    · rename_i hnext
      rw [not_or] at hnext
      simp only [bind_eq_some_iff] at hy
      obtain ⟨o, ho, n, -, hy⟩ := hy
      split at hy
      · cases hy
      · simp only [bind_eq_some_iff] at hy
        obtain ⟨k2, h2, k3, h3, hy⟩ := hy
        cases hy
        -- another task is picked, so the one that yields must be able to run
        obtain ⟨y, hy, hcan⟩ := hr.canRun (hrun hnext.1)
        rw [hview] at hy
        rw [htick] at hcan
        have hold : ∃ x, k.view status k.gCurrent = some x := by
          obtain ⟨c, hc, -⟩ := write_eq_some.1 h0
          exact ⟨status c, view_of_heap hc⟩
        obtain ⟨x, hx⟩ := hold
        have hfree : d k.gCurrent = .free :=
          (hok x hx).elim (h _ x hx).eq_free fun hno => absurd hcan (hno next y hnext.2 hy)
        have hrec3 := (hrec1.write_free h2 hfree).write_free h3
          (hrec0.scheduleNext hsched hnext.1)
        exact hrec3.of_view rfl rfl

theorem NoOther.of_write (h : NoOther k) (hw : k.write k.gCurrent f = some k') : NoOther k' := by
  obtain ⟨c, -, hview⟩ := view_write status hw
  obtain ⟨htick, hcur⟩ := write_tick hw
  intro a x ha hx
  rw [hcur] at ha
  rw [hview, update_of_ne ha] at hx
  rw [htick]
  exact h a x ha hx

/-- The duties and the statuses once a task has marked itself blocked. -/
theorem AllRecorded.markBlocked (h : AllRecorded k d) (hok : KeepsDecisions k .block) (hm : markBlocked k = some k') :
    AllRecorded k' (dutyAfter k d .block) ∧ KeepsDecisions k' .yield := by
  rw [Tasking.markBlocked] at hm
  change AllRecorded k' (revise d k.gCurrent fun y => { y with blocked := true }) ∧ KeepsDecisions k' .yield
  rw [revise]
  split at hm
  · rename_i h0
    cases hm
    rw [if_pos h0]
    exact ⟨h, fun x hx => Or.inr (hok x hx).2.2⟩
  · rename_i h0
    rw [if_neg h0]
    obtain ⟨c, hc, -⟩ := write_eq_some.1 hm
    obtain ⟨hdying, hasleep, hno⟩ := hok (status c) (view_of_heap hc)
    have hrec := h _ _ (view_of_heap hc)
    refine ⟨h.write hm fun c' hc' => ?_, fun x _ => Or.inr (hno.of_write hm)⟩
    cases hc.symm.trans hc'
    refine ⟨fun hd => absurd (hrec.dying hd) hdying, fun _ => Or.inl rfl, fun w hw => ?_⟩
    obtain ⟨hlt, hst⟩ := hrec.asleep w hw
    rcases hst with hst | hst
    · exact absurd hst hdying
    · have hle : w ≤ k.gTick := by
        have := hasleep (congrArg Prod.fst hst)
        rwa [hst] at this
      exact absurd hlt (UInt64.not_lt.2 hle)

/-- The duties and the statuses once a task has put itself to sleep. -/
theorem AllRecorded.armSleep (h : AllRecorded k d) {n : UInt64} (h0 : k.gCurrent ≠ 0)
    (hok : KeepsDecisions k (.sleep n)) (hm : taskArmSleep k k.gCurrent n = some k') :
    AllRecorded k' (dutyAfter k d (.sleep n)) ∧ KeepsDecisions k' .yield := by
  rw [taskArmSleep, if_neg h0] at hm
  simp only [bind_eq_bind, bind_eq_some_iff] at hm
  obtain ⟨c, hc, k1, hw, hm⟩ := hm
  cases hm
  rw [dutyAfter_sleep, revise, if_neg h0]
  obtain ⟨hdying, hblocked, hno⟩ := hok (status c) (view_of_heap hc)
  have hrec := h _ _ (view_of_heap hc)
  constructor
  · refine (h.write hw fun c' hc' => ?_).of_view rfl rfl
    cases hc.symm.trans hc'
    refine ⟨fun hd => absurd (hrec.dying hd) hdying, fun hb => ?_, fun w hw => ?_⟩
    · exact absurd (hrec.blocked hb) (not_or.2 ⟨hblocked, hdying⟩)
    · obtain ⟨hw, hlt⟩ := Duty.asleep_owedAt.1 hw
      cases hw
      exact ⟨hlt, Or.inr rfl⟩
  · obtain ⟨c', -, hview⟩ := view_write status hw
    obtain ⟨htick, hcur⟩ := write_tick hw
    intro x hx
    have hx' : k1.view status k1.gCurrent = some x := hx
    rw [hcur, hview, update_self] at hx'
    cases hx'
    rcases hno with hle | hno
    · refine Or.inl (Or.inr (Or.inr ⟨rfl, ?_⟩))
      rw [htick]
      exact hle
    · have hno1 : NoOther k1 := hno.of_write hw
      exact Or.inr hno1

/-! ## The tick -/

/-- One timer: the sleeper it wakes is one whose time has come. -/
theorem wakeLoop_recorded {e : TwEntry} {due : List TwEntry}
    (h : AllRecorded k d) (hdue : NoEarlyWake k k.gTick (e :: due))
    (hw : wakeLoop (dueId e) k fuel t = some k') :
    AllRecorded k' d ∧ NoEarlyWake k' k'.gTick due := by
  have hrest : NoEarlyWake k k.gTick due :=
    fun e' he' => hdue e' (List.mem_cons_of_mem e he')
  induction fuel generalizing t with
  | zero => cases hw
  | succ fuel ih =>
    simp only [wakeLoop, bind_eq_bind, bind_eq_some_iff] at hw
    obtain ⟨c, hc, hw⟩ := hw
    split at hw
    · rename_i hid
      have hle : c.wakeTick ≤ k.gTick := by
        refine hdue e List.mem_cons_self t c.wakeTick ?_
        rw [view_of_heap hc, tag, status, hid.1, hid.2]
      have hfree := (h t _ (view_of_heap hc)).eq_free (Or.inr (Or.inr ⟨hid.2, hle⟩))
      refine ⟨h.write_free hw hfree, ?_⟩
      obtain ⟨c', -, hview⟩ := view_write tag hw
      rw [(write_tick hw).1]
      intro e' he' a w hwake
      rw [hview] at hwake
      rcases eq_or_ne a t with rfl | ha
      · -- this one is ready now
        rw [update_self] at hwake
        cases congrArg (fun x => x.2.1) (Option.some.inj hwake)
      · rw [update_of_ne ha] at hwake
        exact hrest e' he' a w hwake
    · split at hw
      · cases hw
        exact ⟨h, hrest⟩
      · exact ih hw

theorem wakeAll_recorded : ∀ {due : List TwEntry} {k : Kernel}, AllRecorded k d →
    NoEarlyWake k k.gTick due → wakeAll k due = some k' → AllRecorded k' d
  | [], k, h, _, hw => Option.some.inj hw ▸ h
  | e :: due, k, h, hdue, hw => by
    rw [wakeAll] at hw
    split at hw
    · exact Option.some.inj hw ▸ h
    · simp only [bind_eq_bind, bind_eq_some_iff] at hw
      obtain ⟨k1, h1, hw⟩ := hw
      obtain ⟨hrec, hrest⟩ := wakeLoop_recorded h hdue h1
      exact wakeAll_recorded hrec hrest hw

/-- Bookkeeping: nothing is decided, and the wheel is not touched. -/
structure Books (k k' : Kernel) : Prop where
  view : k'.view tag = k.view tag
  tick : k'.gTick = k.gTick
  wheel : k'.gSleepWheel = k.gSleepWheel

theorem Books.trans (h : Books k k1) (h' : Books k1 k') : Books k k' :=
  ⟨h'.view.trans h.view, h'.tick.trans h.tick, h'.wheel.trans h.wheel⟩

theorem write_books (hf : ∀ c, tag (f c) = tag c) (h : k.write t f = some k') : Books k k' := by
  refine ⟨(write_settled hf h).view, (write_tick h).1, ?_⟩
  obtain ⟨c, -, rfl⟩ := write_eq_some.1 h
  rfl

theorem taskAccountTick_books (h : taskAccountTick k t = some k') : Books k k' := by
  rw [taskAccountTick] at h
  split at h
  · cases h
    exact ⟨rfl, rfl, rfl⟩
  · simp only [bind_eq_bind, bind_eq_some_iff] at h
    obtain ⟨c, -, k1, hw, h⟩ := h
    cases h
    have hb := write_books (fun c => by rfl) hw
    exact ⟨hb.view, hb.tick, hb.wheel⟩

theorem Books.status (h : Books k k') : k'.view status = k.view status := by
  funext a
  have hv := congrArg (Option.map Prod.snd) (congrFun h.view a)
  simp only [Kernel.view, Option.map_map] at hv
  exact hv

/-- When the counter moves, sleeps that it reaches are over. -/
theorem AllRecorded.tick (h : AllRecorded k d) (tick : UInt64) :
    AllRecorded { k with gTick := tick } fun a => (d a).owedAt tick := by
  intro a x hx
  obtain ⟨hd, hb, hs⟩ := h a x hx
  refine ⟨hd, hb, fun w hw => ?_⟩
  obtain ⟨hw, hlt⟩ := Duty.asleep_owedAt.1 hw
  exact ⟨hlt, (hs w hw).2⟩

theorem AllRecorded.timerTick (h : AllRecorded k d) (hok : KeepsDecisions k .timerTick)
    (ht : taskTimerTick k = some k') : AllRecorded k' (dutyAfter k d .timerTick) := by
  have hrec0 := h.tick (k.gTick + 1)
  rw [taskTimerTick] at ht
  split at ht
  · cases ht
    exact hrec0
  · rename_i hinit
    rw [not_or] at hinit
    simp only [bind_eq_bind, bind_eq_some_iff] at ht
    obtain ⟨k1, h1, k2, h2, c, -, ht⟩ := ht
    split at ht
    · cases ht
    · simp only [bind_eq_some_iff] at ht
      obtain ⟨k3, h3, ht⟩ := ht
      have hb := ((write_books (fun c => by rfl) h1).trans (taskAccountTick_books h2)).trans
        (write_books (fun c => by rfl) h3)
      have hdue := hok (by simpa using hinit.1) hinit.2
      have hrec3 := hrec0.of_view hb.status hb.tick
      rw [taskWakeExpired, hb.wheel] at ht
      refine wakeAll_recorded ?_ ?_ ht
      · exact hrec3.of_view rfl rfl
      · rintro e he a w hw
        have htick : k3.gTick = k.gTick + 1 := hb.tick
        have hview : k3.view tag = k.view tag := hb.view
        rw [htick]
        refine hdue e he a w ?_
        rw [← hview, ← hw]
        rfl

/-! ## The other calls -/

/-- A call that assigns to the task `t`, if there is one, where what is owed goes with it. -/
theorem AllRecorded.revised {g : Duty → Duty} (h : AllRecorded k d)
    (hu : (if t = 0 then some k else k.write t f) = some k')
    (hg : ∀ c, Records k.gTick (d t) (status c) → Records k.gTick (g (d t)) (status (f c))) :
    AllRecorded k' (revise d t g) := by
  rw [revise]
  split at hu
  · rename_i h0
    rw [if_pos h0]
    exact Option.some.inj hu ▸ h
  · rename_i h0
    rw [if_neg h0]
    exact h.write hu fun c hc => hg c (h t _ (view_of_heap hc))

theorem AllRecorded.unblock (h : AllRecorded k d) (hu : taskUnblock k t = some k') :
    AllRecorded k' (dutyAfter k d (.unblock t)) := by
  refine h.revised (g := fun y => { y with blocked := false }) hu fun c hrec => ?_
  split
  · rename_i hb
    -- a blocked task has no other duty
    refine ⟨fun hd => ?_, fun hb => absurd hb Bool.false_ne_true, fun w hw => ?_⟩
    · have := hrec.dying hd
      rw [status, hb] at this
      cases this
    · rcases (hrec.asleep w hw).2 with hst | hst
      · rw [status, hb] at hst
        cases hst
      · rw [status, hb] at hst
        cases congrArg Prod.fst hst
  · exact ⟨hrec.dying, fun hb => absurd hb Bool.false_ne_true, hrec.asleep⟩

theorem AllRecorded.wake (h : AllRecorded k d) (hu : taskWake k t = some k') :
    AllRecorded k' (dutyAfter k d (.wake t)) := by
  refine h.revised (g := fun y => { y with blocked := false, asleep := none }) hu fun c hrec => ?_
  refine ⟨fun hd => ?_, fun hb => absurd hb Bool.false_ne_true, fun w hw => by cases hw⟩
  have hdying : c.state = .dying := hrec.dying hd
  rw [if_neg (by rw [hdying]; simp)]
  exact hdying

theorem AllRecorded.terminate (h : AllRecorded k d) (hu : taskTerminate k t = some k') :
    AllRecorded k' (dutyAfter k d (.terminate t)) :=
  h.revised (g := fun y => { y with dying := true }) hu fun _ hrec =>
    ⟨fun _ => rfl, fun _ => Or.inr rfl, fun w hw => ⟨(hrec.asleep w hw).1, Or.inl rfl⟩⟩

theorem AllRecorded.shrinks (h : AllRecorded k d) (hs : Shrinks status k k')
    (htick : k'.gTick = k.gTick) : AllRecorded k' d := by
  intro a x hx
  rw [htick]
  exact h a x (hs a x hx)

/-- A task at `t` that may be new has no duty. -/
theorem AllRecorded.forget (h : AllRecorded k d)
    (hview : ∀ a, a ≠ t → k'.view status a = k.view status a) (htick : k'.gTick = k.gTick) :
    AllRecorded k' (Function.update d t .free) := by
  intro a y hy
  rw [htick]
  rcases eq_or_ne a t with rfl | ha
  · rw [update_self]
    exact records_free _ _
  · rw [update_of_ne ha]
    exact h a y (by rw [← hview a ha, hy])

/-- Creating a task leaves the statuses of the others alone. -/
theorem taskCreate_status {s : TaskSpec} {al : TaskAlloc} {r : Kernel × Addr}
    (h : taskCreate k s al = some r) (a : Addr) (ha : a ≠ al.task) :
    r.1.view status a = k.view status a := by
  rcases taskCreate_view ignoresLinks_status h with ⟨-, hheap⟩ | ⟨-, -, hview⟩
  · rw [Kernel.view, hheap]
    rfl
  · rw [hview, update_of_ne ha]

/-! ## Runs -/

/-- A call, and what it decides. -/
def DutyStep (s : Kernel × (Addr → Duty)) (op : TaskOp) (s' : Kernel × (Addr → Duty)) : Prop :=
  TaskStep s.1 op s'.1 ∧ s'.2 = dutyAfter s.1 s.2 op

/-- **A call that keeps the decisions keeps them recorded.** -/
theorem AllRecorded.step {op : TaskOp} (h : AllRecorded k d) (hok : KeepsDecisions k op)
    (hs : TaskStep k op k') : AllRecorded k' (dutyAfter k d op) := by
  obtain ⟨-, hstep⟩ := hs
  cases op with
  | init i al =>
    obtain ⟨r, hr, rfl⟩ := map_eq_some_iff.1 hstep
    refine h.forget (fun a ha => ?_) (taskingInit_tick hr)
    rcases taskingInit_view ignoresLinks_status hr with hview | ⟨s, hview⟩
    · rw [hview]
    · rw [hview, update_of_ne ha]
  | create s al =>
    obtain ⟨r, hr, rfl⟩ := map_eq_some_iff.1 hstep
    exact h.forget (taskCreate_status hr) (taskCreate_globals hr).1
  | clone parent name al =>
    obtain ⟨r, hr, rfl⟩ := map_eq_some_iff.1 hstep
    rcases taskClone_cases hr with heq | ⟨s, r1, hcreate, hq⟩
    · exact h.forget (fun a _ => by rw [heq]) (by rw [heq])
    · have hq := hq ignoresImage_status
      exact h.forget (fun a ha => by rw [hq.view, taskCreate_status hcreate a ha])
        (hq.tick.trans (taskCreate_globals hcreate).1)
  | execve t name entry arg img =>
    obtain ⟨r, hr, rfl⟩ := map_eq_some_iff.1 hstep
    have hs := taskExecve_settled ignoresImage_status hr
    exact h.of_view hs.view hs.tick
  | setAuthority t caps ceiling =>
    have hs := taskSetAuthority_settled ignoresImage_status hstep
    exact h.of_view hs.view hs.tick
  | destroy _ | kill _ | reap =>
    have he := taskStep_ended ignoresLinks_status rfl hstep
    exact h.shrinks he.seen he.tick
  | terminate t => exact h.terminate hstep
  | yield => exact h.yield hok hstep
  | block =>
    obtain ⟨k1, h1, h2⟩ := bind_eq_some_iff.1 hstep
    obtain ⟨hrec, hy⟩ := h.markBlocked hok h1
    exact hrec.yield hy h2
  | unblock t => exact h.unblock hstep
  | sleep n =>
    rw [taskStep, taskSleep] at hstep
    split at hstep
    · rename_i h0
      rw [dutyAfter_sleep, revise, if_pos h0]
      exact Option.some.inj hstep ▸ h
    · rename_i h0
      obtain ⟨k1, h1, h2⟩ := bind_eq_some_iff.1 hstep
      obtain ⟨hrec, hy⟩ := h.armSleep h0 hok h1
      exact hrec.yield hy h2
  | wake t => exact h.wake hstep
  | timerTick => exact h.timerTick hok hstep

/-- The kernel in which a call calls `task_schedule_next`, if it does. -/
def schedulerSees (k : Kernel) : TaskOp → Option Kernel
  | .yield => resetStall k
  | .block => (markBlocked k).bind resetStall
  | .sleep n => if k.gCurrent = 0 then none else (taskArmSleep k k.gCurrent n).bind resetStall
  | _ => none

/-- The kernel at boot, when no task has a duty. -/
def dutyBoot : Kernel × (Addr → Duty) := (boot, fun _ => .free)

theorem allRecorded_run {ops : List TaskOp} {s : Kernel × (Addr → Duty)}
    (h : Run (guarded (fun s op => KeepsDecisions s.1 op) DutyStep) dutyBoot ops s) :
    AllRecorded s.1 s.2 := by
  refine h.invariant (fun s => AllRecorded s.1 s.2) ?_ fun a x _ => records_free _ _
  rintro s op s' ⟨hok, hstep, hd⟩ hs
  rw [hd]
  exact hs.step hok hstep

/-- **`task_schedule_next` returns no task that has a duty**, in any run of calls that keep the
decisions: not when it is called after the run, and not when it is called by the next call of the
run, once that call has made its own decision. -/
theorem scheduleNext_respects_duty (ops : List TaskOp) (k : Kernel) (d : Addr → Duty)
    (h : Run (guarded (fun s op => KeepsDecisions s.1 op) DutyStep) dutyBoot ops (k, d)) :
    (∀ k' a, taskScheduleNext k = some (k', a) → a ≠ 0 → d a = .free) ∧
    ∀ op k₀, KeepsDecisions k op → schedulerSees k op = some k₀ →
      ∀ k' a, taskScheduleNext k₀ = some (k', a) → a ≠ 0 → dutyAfter k d op a = .free := by
  have hrec : AllRecorded k d := allRecorded_run h
  refine ⟨fun k' a hs h0 => hrec.scheduleNext hs h0, ?_⟩
  intro op k₀ hok hsees k' a hs h0
  refine AllRecorded.scheduleNext ?_ hs h0
  cases op with
  | yield => exact hrec.resetStall hsees
  | block =>
    obtain ⟨k1, h₁, h₂⟩ := bind_eq_some_iff.1 hsees
    exact (hrec.markBlocked hok h₁).1.resetStall h₂
  | sleep n =>
    rw [schedulerSees] at hsees
    split at hsees
    · cases hsees
    · rename_i hcur
      obtain ⟨k1, h₁, h₂⟩ := bind_eq_some_iff.1 hsees
      exact (hrec.armSleep hcur hok h₁).1.resetStall h₂
  | _ => cases hsees

/-- A normal task is created and runs, and then blocks. -/
def blockingRun : List TaskOp :=
  [.init 1 ⟨8, true, true⟩, .create ⟨none, 2, 0, 0, .normal⟩ ⟨16, true, true⟩, .yield, .block]

/-- The calls of a run one after the other, each with what it decides. -/
def dutyStep (s : Kernel × (Addr → Duty)) (op : TaskOp) : Option (Kernel × (Addr → Duty)) :=
  (taskStep s.1 op).map fun k => (k, dutyAfter s.1 s.2 op)

theorem run_of_dutyReplay {ops : List TaskOp} {s t : Kernel × (Addr → Duty)}
    (h : replay (fun s op => op.FreshAlloc s.1) dutyStep s ops = some t) :
    Run DutyStep s ops t := by
  refine (run_of_replay h).mono ?_
  rintro s op t ⟨hal, hstep⟩
  obtain ⟨k, hk, rfl⟩ := map_eq_some_iff.1 hstep
  exact ⟨⟨hal, hk⟩, rfl⟩

/-- After the first call there is the idle task, and no other. -/
theorem keepsDecisions_idle {k : Kernel} (h : taskStep boot (.init 1 ⟨8, true, true⟩) = some k) :
    KeepsDecisions k .block := by
  have hk : ((taskStep boot (.init 1 ⟨8, true, true⟩)).map fun k =>
      (k.gCurrent, k.view status 8)) = some (8, some (.running, 0)) := by decide
  rw [h] at hk
  obtain ⟨hcur, hstatus⟩ := Prod.mk.inj (Option.some.inj hk)
  intro x hx
  rw [hcur, hstatus] at hx
  cases hx
  refine ⟨by decide, fun hs => TaskState.noConfusion hs, ?_⟩
  intro a y ha hy
  rw [hcur] at ha
  rw [taskStep] at h
  obtain ⟨r, hr, rfl⟩ := map_eq_some_iff.1 h
  rcases taskingInit_view ignoresLinks_status hr with hview | ⟨s, hview⟩
  · rw [hview] at hy
    cases hy
  · rw [hview, update_of_ne ha] at hy
    cases hy

/-- The idle task blocks while there is no other, and the scheduler does not return it. -/
theorem scheduleNext_respects_idle : ∃ k d,
    Run DutyStep dutyBoot [.init 1 ⟨8, true, true⟩, .block] (k, d) ∧ (d 8).blocked = true ∧
      ∀ k' a, taskScheduleNext k = some (k', a) → a ≠ 8 := by
  obtain ⟨⟨k, d⟩, hrun, hd⟩ := map_eq_some_iff.1
    (show ((replay (fun s op => op.FreshAlloc s.1) dutyStep dutyBoot
      [.init 1 ⟨8, true, true⟩, .block]).map fun s => (s.2 8).blocked) = some true by decide)
  have hd : (d 8).blocked = true := hd
  have hr := run_of_dutyReplay hrun
  have hguarded : Run (guarded (fun s op => KeepsDecisions s.1 op) DutyStep) dutyBoot
      [.init 1 ⟨8, true, true⟩, .block] (k, d) := by
    cases hr with
    | cons h₁ hr =>
      cases hr with
      | cons h₂ hr =>
        cases hr
        exact .cons ⟨trivial, h₁⟩ (.single ⟨keepsDecisions_idle h₁.1.2, h₂⟩)
  refine ⟨k, d, hr, hd, ?_⟩
  rintro k' a hs rfl
  have hfree := (scheduleNext_respects_duty _ k d hguarded).1 k' 8 hs (by decide)
  rw [hfree] at hd
  cases hd

/-- What the scheduler returns after the run, and the duty of the task at 16. -/
theorem blockingRun_picks : ((replay (fun s op => op.FreshAlloc s.1) dutyStep dutyBoot blockingRun).bind fun s =>
      (taskScheduleNext s.1).map fun r => (r.2, s.2 16)) = some (16, ⟨true, none, false⟩) := by
  decide

/-- **A blocked task is scheduled.**  The task at 16 has called `task_block`; the yield inside that
call, to the idle task, has made it ready again, and the scheduler returns it. -/
theorem blocked_task_scheduled : ∃ k d k', Run DutyStep dutyBoot blockingRun (k, d) ∧
    (d 16).blocked = true ∧ taskScheduleNext k = some (k', 16) := by
  obtain ⟨⟨k, d⟩, hrun, h⟩ := bind_eq_some_iff.1 blockingRun_picks
  obtain ⟨⟨k', a⟩, hs, hr⟩ := map_eq_some_iff.1 h
  obtain ⟨rfl, hd⟩ := Prod.mk.inj hr
  have hd16 : d 16 = ⟨true, none, false⟩ := hd
  exact ⟨k, d, k', run_of_dutyReplay hrun, by rw [hd16], hs⟩

end WuBuOS.Tasking
