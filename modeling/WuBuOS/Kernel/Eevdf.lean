import WuBuOS.Lib.LeastFirst
import WuBuOS.Lib.Runs

/-!
# The EEVDF runqueue

`kernel/sched_eevdf.c` is the scheduling policy on its own: up to sixteen tasks, each with a weight,
a virtual runtime and a virtual deadline.  `eevdf_pick` scans for the earliest deadline among the
eligible tasks, and `eevdf_charge` advances the picked task's virtual time by `ticks * 1024 /
weight` and sets its deadline one slice beyond it.

Two things about the code shape what follows.  `min_vruntime` is a running *maximum* of the virtual
runtimes, so as long as nothing wraps every task is always eligible (`Wf`), and the policy is the
plain rule "advance a task of least deadline", which is what `Lib/LeastFirst` is about.  And all of
the virtual times are 64-bit counters that are compared as plain numbers, so the rule is lost once
one of them wraps.  `Fits` is the condition that a step stays below a limit; `deadline_gap_bounded` and
`picked_again` hold of every run whose steps meet it, and `deadline_gap_wraps` is a run that does
not.

Starvation has a second and much nearer cause: the charge is an integer division, and a task of
weight above 1024 that is charged one tick at a time is charged nothing (`heavy_task_starves`).
-/

namespace WuBuOS.Eevdf

open LeastFirst

/-! ## The model -/

def eevdfMaxTasks : Nat := 16

def eevdfNice0 : Nat := 1024

def eevdfBaseSlice : Nat := 4

/-- `eevdf_task_t`. -/
structure EevdfTask where
  /-- The caller's name for the task. -/
  id : Int
  /-- Its weight, never zero. -/
  weight : Nat
  /-- Its slice, in virtual time. -/
  slice : Nat
  /-- Its virtual runtime, a 64-bit counter. -/
  vruntime : Nat
  /-- Its virtual deadline, a 64-bit counter. -/
  deadline : Nat
  /-- The real ticks it has been charged. -/
  ran : Nat
  /-- Whether `eevdf_pick` may choose it. -/
  eligible : Bool
  deriving DecidableEq, Repr

/-- `eevdf_rq_t`; `count` is the length of `tasks`. -/
structure EevdfRq where
  /-- The tasks, in the order they joined. -/
  tasks : List EevdfTask
  /-- The sum of all charges, a 64-bit counter. -/
  vclock : Nat
  /-- The largest virtual runtime seen, a 64-bit counter. -/
  minVruntime : Nat
  deriving DecidableEq, Repr

def eevdfInit : EevdfRq := { tasks := [], vclock := 0, minVruntime := 0 }

/-- The slice `eevdf_add` gives to a task of the given weight. -/
def sliceFor (weight : Nat) : Nat :=
  let slice := eevdfBaseSlice * eevdfNice0 / weight
  if slice < 1 then 1 else slice

/-- The task `eevdf_add` appends: it joins at the clock, and eligible. -/
def newTask (rq : EevdfRq) (id : Int) (weight : UInt32) : EevdfTask where
  id := id
  weight := weight.toNat
  slice := sliceFor weight.toNat
  vruntime := rq.minVruntime
  deadline := (rq.minVruntime + sliceFor weight.toNat) % 2 ^ 64
  ran := 0
  eligible := true

/-- `eevdf_add`: `none` is the return value `-1`, which leaves the runqueue alone. -/
def eevdfAdd (rq : EevdfRq) (id : Int) (weight : UInt32) : Option EevdfRq :=
  if eevdfMaxTasks ≤ rq.tasks.length ∨ weight = 0 then none
  else some { rq with tasks := rq.tasks ++ [newTask rq id weight] }

/-- Does `t` beat the best task found so far?  The tie on the deadline is broken by the smaller
virtual runtime, and only once there is a best task. -/
def beats (tasks : List EevdfTask) (t : EevdfTask) (best : Option Nat) (bestDl : Nat) : Bool :=
  decide (t.deadline < bestDl) ||
    (decide (t.deadline = bestDl) &&
      ((best.bind fun b => tasks[b]?).any fun u => decide (t.vruntime < u.vruntime)))

/-- The scan of `eevdf_pick`: the tasks still to look at, the index of the next one, and the best
so far with its deadline. -/
def pickLoop (tasks : List EevdfTask) : List EevdfTask → Nat → Option Nat → Nat → Option Nat
  | [], _, best, _ => best
  | t :: ts, i, best, bestDl =>
    if t.eligible && beats tasks t best bestDl then pickLoop tasks ts (i + 1) (some i) t.deadline
    else pickLoop tasks ts (i + 1) best bestDl

/-- `eevdf_pick`: the index of the task to run, `none` for `-1`.  The scan starts from the deadline
`~0ull`. -/
def eevdfPick (rq : EevdfRq) : Option Nat := pickLoop rq.tasks rq.tasks 0 none (2 ^ 64 - 1)

/-- The virtual time a charge of `ticks` is worth to a task. -/
def chargeOf (t : EevdfTask) (ticks : Nat) : Nat := ticks * eevdfNice0 / t.weight

/-- The task after a charge, before eligibility is looked at. -/
def charged (t : EevdfTask) (ticks : Nat) : EevdfTask :=
  let v := (t.vruntime + chargeOf t ticks) % 2 ^ 64
  { t with vruntime := v, ran := (t.ran + ticks) % 2 ^ 64, deadline := (v + t.slice) % 2 ^ 64 }

theorem charged_vruntime (t : EevdfTask) (ticks : Nat) :
    (charged t ticks).vruntime = (t.vruntime + chargeOf t ticks) % 2 ^ 64 := rfl

theorem charged_deadline (t : EevdfTask) (ticks : Nat) :
    (charged t ticks).deadline = ((charged t ticks).vruntime + t.slice) % 2 ^ 64 := rfl

@[simp] theorem charged_weight (t : EevdfTask) (ticks : Nat) : (charged t ticks).weight = t.weight := rfl

@[simp] theorem charged_slice (t : EevdfTask) (ticks : Nat) : (charged t ticks).slice = t.slice := rfl

@[simp] theorem charged_eligible (t : EevdfTask) (ticks : Nat) : (charged t ticks).eligible = t.eligible := rfl

/-- The eligibility loop of `eevdf_charge`, for one task. -/
def refresh (minVruntime : Nat) (u : EevdfTask) : EevdfTask :=
  let e := decide (u.vruntime ≤ minVruntime)
  { u with
    eligible := e
    deadline := if !e && decide (u.deadline < minVruntime) then minVruntime else u.deadline }

def eevdfCharge (rq : EevdfRq) (index : Nat) (ticks : UInt32) : EevdfRq :=
  match rq.tasks[index]? with
  | none => rq
  | some t =>
    let t' := charged t ticks.toNat
    let m := if rq.minVruntime < t'.vruntime then t'.vruntime else rq.minVruntime
    { tasks := (rq.tasks.set index t').map (refresh m)
      vclock := (rq.vclock + chargeOf t ticks.toNat) % 2 ^ 64
      minVruntime := m }

/-! ## What the scan returns -/

/-- What the scan knows after looking at `pre`: nothing eligible there is earlier than `bestDl`,
and `bestDl` is the best task's deadline, or still the initial one. -/
def Scanned (tasks pre : List EevdfTask) (best : Option Nat) (bestDl : Nat) : Prop :=
  (∀ t ∈ pre, t.eligible = true → bestDl ≤ t.deadline) ∧
    match best with
    | none => bestDl = 2 ^ 64 - 1
    | some b => ∃ t, tasks[b]? = some t ∧ t.eligible = true ∧ t.deadline = bestDl

theorem pickLoop_scanned {tasks : List EevdfTask} : ∀ (ts pre : List EevdfTask) (best : Option Nat)
    (bestDl : Nat), tasks = pre ++ ts → Scanned tasks pre best bestDl →
    ∃ dl, Scanned tasks tasks (pickLoop tasks ts pre.length best bestDl) dl
  | [], pre, best, bestDl, htasks, h => by
    rw [List.append_nil] at htasks
    exact ⟨bestDl, htasks ▸ h⟩
  | t :: ts, pre, best, bestDl, htasks, h => by
    have hlen : (pre ++ [t]).length = pre.length + 1 := by simp
    have happ : tasks = (pre ++ [t]) ++ ts := by rw [htasks]; simp
    have hget : tasks[pre.length]? = some t := by rw [htasks]; simp
    rw [pickLoop]
    split
    · rename_i hb
      rw [Bool.and_eq_true] at hb
      have hle : t.deadline ≤ bestDl := by
        have hb2 := hb.2
        simp only [beats, Bool.or_eq_true, Bool.and_eq_true, decide_eq_true_eq] at hb2
        omega
      rw [← hlen]
      refine pickLoop_scanned ts (pre ++ [t]) _ _ happ ⟨fun u hu he => ?_, t, hget, hb.1, rfl⟩
      rcases List.mem_append.1 hu with hu | hu
      · exact hle.trans (h.1 u hu he)
      · rw [List.mem_singleton.1 hu]
    · rename_i hb
      rw [← hlen]
      refine pickLoop_scanned ts (pre ++ [t]) _ _ happ ⟨fun u hu he => ?_, h.2⟩
      rcases List.mem_append.1 hu with hu | hu
      · exact h.1 u hu he
      · obtain rfl := List.mem_singleton.1 hu
        by_contra hlt
        exact hb (by simp [he, beats]; omega)

theorem eevdfPick_scanned (rq : EevdfRq) : ∃ dl, Scanned rq.tasks rq.tasks (eevdfPick rq) dl :=
  pickLoop_scanned rq.tasks [] none _ rfl ⟨by simp, rfl⟩

variable {rq : EevdfRq} {t : EevdfTask} {lim i v : Nat}

/-- The task `eevdf_pick` returns is eligible, and of earliest deadline among the eligible. -/
theorem eevdfPick_some (h : eevdfPick rq = some i) : ∃ t, rq.tasks[i]? = some t ∧ t.eligible = true ∧
      ∀ u ∈ rq.tasks, u.eligible = true → t.deadline ≤ u.deadline := by
  obtain ⟨dl, hall, hb⟩ := eevdfPick_scanned rq
  rw [h] at hb
  obtain ⟨t, ht, he, rfl⟩ := hb
  exact ⟨t, ht, he, hall⟩

/-- `eevdf_pick` finds a task as soon as there is an eligible one whose deadline is below the value
the scan starts from. -/
theorem eevdfPick_isSome {u : EevdfTask} (hu : u ∈ rq.tasks)
    (he : u.eligible = true) (hd : u.deadline < 2 ^ 64 - 1) : ∃ i, eevdfPick rq = some i := by
  obtain ⟨dl, hall, hb⟩ := eevdfPick_scanned rq
  cases hp : eevdfPick rq with
  | some i => exact ⟨i, rfl⟩
  | none =>
    rw [hp] at hb
    have := hall u hu he
    simp only at hb
    omega

/-! ## Runqueues below the limit

`lim` is the value the deadlines have stayed below.  Below `2 ^ 64` nothing has wrapped. -/

/-- What is true of a task of a runqueue in which no counter has reached `lim`. -/
structure TaskWf (lim m : Nat) (t : EevdfTask) : Prop where
  /-- Its weight is positive. -/
  weight_pos : 0 < t.weight
  /-- It can be picked. -/
  eligible : t.eligible = true
  /-- It is not ahead of the largest virtual runtime. -/
  vruntime_le : t.vruntime ≤ m
  /-- Its deadline is one slice beyond its virtual runtime. -/
  deadline_eq : t.deadline = t.vruntime + t.slice
  /-- Its deadline is below the limit. -/
  deadline_lt : t.deadline < lim

/-- A runqueue in which no counter has reached `lim`. -/
def Wf (lim : Nat) (rq : EevdfRq) : Prop := ∀ t ∈ rq.tasks, TaskWf lim rq.minVruntime t

/-- A call on the runqueue. -/
inductive EevdfOp where
  /-- `eevdf_add(rq, id, weight)`. -/
  | add (id : Int) (weight : UInt32)
  /-- `eevdf_charge(rq, eevdf_pick(rq), ticks)`. -/
  | run (ticks : UInt32)
  deriving DecidableEq, Repr

/-- The runqueue after one call. -/
def eevdfStep (rq : EevdfRq) : EevdfOp → EevdfRq
  | .add id weight => (eevdfAdd rq id weight).getD rq
  | .run ticks =>
    match eevdfPick rq with
    | some i => eevdfCharge rq i ticks
    | none => rq

/-- The runqueue after a sequence of calls. -/
def eevdfAfter (rq : EevdfRq) (ops : List EevdfOp) : EevdfRq := ops.foldl eevdfStep rq

/-- The task `eevdf_pick` returns the index of. -/
def picked (rq : EevdfRq) : Option EevdfTask := (eevdfPick rq).bind fun i => rq.tasks[i]?

theorem picked_eq (hp : eevdfPick rq = some i)
    (ht : rq.tasks[i]? = some t) : picked rq = some t := by simp [picked, hp, ht]

/-- The call leaves the deadline it computes below `lim`: for a charge, that of the picked task. -/
def Fits (lim : Nat) (rq : EevdfRq) : EevdfOp → Prop
  | .add _ weight => rq.minVruntime + sliceFor weight.toNat < lim
  | .run ticks => ∀ t ∈ picked rq, t.vruntime + chargeOf t ticks.toNat + t.slice < lim

instance (lim : Nat) (rq : EevdfRq) : ∀ op, Decidable (Fits lim rq op)
  | .add _ weight => inferInstanceAs (Decidable (rq.minVruntime + sliceFor weight.toNat < lim))
  | .run ticks => inferInstanceAs (Decidable (∀ t ∈ picked rq,
      t.vruntime + chargeOf t ticks.toNat + t.slice < lim))

/-- The virtual time that one call charges. -/
def chargeBy (rq : EevdfRq) : EevdfOp → Nat
  | .add _ _ => 0
  | .run ticks => (picked rq).elim 0 fun t => chargeOf t ticks.toNat

/-- The largest single virtual-time charge of a sequence of calls. -/
def largestCharge : EevdfRq → List EevdfOp → Nat
  | _, [] => 0
  | rq, op :: ops => max (chargeBy rq op) (largestCharge (eevdfStep rq op) ops)

/-- The virtual deadline of the task at an index. -/
def deadlineAt (rq : EevdfRq) (i : Nat) : Nat := (rq.tasks[i]?).elim 0 EevdfTask.deadline

theorem refresh_of_le {m : Nat} (h : t.vruntime ≤ m) : refresh m t = { t with eligible := true } := by
  simp [refresh, h]

/-- What a charge does to a runqueue below the limit: the task moves up by the charge, and nothing
else changes that a later pick could see. -/
theorem eevdfCharge_tasks (ticks : UInt32) (hlim : lim ≤ 2 ^ 64) (hwf : Wf lim rq) (ht : rq.tasks[i]? = some t)
    (hfits : t.vruntime + chargeOf t ticks.toNat + t.slice < lim) :
    (eevdfCharge rq i ticks).tasks = rq.tasks.set i (charged t ticks.toNat) ∧ (eevdfCharge rq i ticks).minVruntime
        = max rq.minVruntime (t.vruntime + chargeOf t ticks.toNat) := by
  have hv : (charged t ticks.toNat).vruntime = t.vruntime + chargeOf t ticks.toNat :=
    Nat.mod_eq_of_lt (by omega)
  have hm : (if rq.minVruntime < (charged t ticks.toNat).vruntime
      then (charged t ticks.toNat).vruntime else rq.minVruntime)
      = max rq.minVruntime (t.vruntime + chargeOf t ticks.toNat) := by
    rw [hv]; split <;> omega
  have hel : (charged t ticks.toNat).eligible = true :=
    (hwf t (List.mem_of_getElem? ht)).eligible
  simp only [eevdfCharge, ht, hm, and_true]
  refine (List.map_congr_left fun u hu => ?_).trans (List.map_id _)
  rcases List.mem_or_eq_of_mem_set hu with hu | rfl
  · have hw := hwf u hu
    rw [refresh_of_le (hw.vruntime_le.trans (le_max_left _ _)), id, ← hw.eligible]
  · rw [refresh_of_le (hv ▸ le_max_right _ _), id, ← hel]

theorem charged_wf {lim m : Nat} {ticks : Nat} (hlim : lim ≤ 2 ^ 64)
    (h : TaskWf lim m t) (hfits : t.vruntime + chargeOf t ticks + t.slice < lim) :
    TaskWf lim (max m (t.vruntime + chargeOf t ticks)) (charged t ticks) := by
  have hv : (charged t ticks).vruntime = t.vruntime + chargeOf t ticks :=
    Nat.mod_eq_of_lt (by omega)
  have hd : (charged t ticks).deadline = t.vruntime + chargeOf t ticks + t.slice := by
    rw [charged_deadline, hv, Nat.mod_eq_of_lt (by omega)]
  exact ⟨h.weight_pos, h.eligible, hv ▸ le_max_right _ _, by rw [hd, hv]; rfl, hd ▸ hfits⟩

theorem TaskWf.mono {lim m m' : Nat} (h : TaskWf lim m t) (hm : m ≤ m') : TaskWf lim m' t :=
  ⟨h.weight_pos, h.eligible, h.vruntime_le.trans hm, h.deadline_eq, h.deadline_lt⟩

theorem eevdfAdd_some {rq rq' : EevdfRq} {id : Int} {weight : UInt32} (h : eevdfAdd rq id weight = some rq') :
    weight ≠ 0 ∧ rq' = { rq with tasks := rq.tasks ++ [newTask rq id weight] } := by
  rw [eevdfAdd] at h
  split at h
  · exact absurd h (by simp)
  · rename_i hc
    exact ⟨fun hw => hc (Or.inr hw), (Option.some_inj.1 h).symm⟩

/-- **One call keeps a runqueue below the limit.** -/
theorem Wf.step (hlim : lim ≤ 2 ^ 64) (h : Wf lim rq) (op : EevdfOp)
    (hfits : Fits lim rq op) : Wf lim (eevdfStep rq op) := by
  cases op with
  | add id weight =>
    rw [eevdfStep]
    cases hadd : eevdfAdd rq id weight with
    | none => exact h
    | some rq' =>
      obtain ⟨hw, rfl⟩ := eevdfAdd_some hadd
      intro t ht
      rcases List.mem_append.1 ht with ht | ht
      · exact h t ht
      · obtain rfl := List.mem_singleton.1 ht
        have hd : (newTask rq id weight).deadline = rq.minVruntime + sliceFor weight.toNat :=
          Nat.mod_eq_of_lt (lt_of_lt_of_le hfits hlim)
        have hpos : 0 < weight.toNat := by
          refine Nat.pos_of_ne_zero fun h0 => hw ?_
          exact UInt32.toNat_inj.1 h0
        exact ⟨hpos, rfl, Nat.le_refl _, hd, hd ▸ hfits⟩
  | run ticks =>
    rw [eevdfStep]
    cases hp : eevdfPick rq with
    | none => exact h
    | some i =>
      obtain ⟨t, ht, -, -⟩ := eevdfPick_some hp
      obtain ⟨htasks, hmin⟩ := eevdfCharge_tasks _ hlim h ht (hfits t (picked_eq hp ht))
      intro u hu
      simp only at hu
      rw [htasks] at hu
      simp only [hmin]
      rcases List.mem_or_eq_of_mem_set hu with hu | rfl
      · exact (h u hu).mono (le_max_left _ _)
      · exact charged_wf hlim (h t (List.mem_of_getElem? ht)) (hfits t (picked_eq hp ht))

theorem Wf.after (hlim : lim ≤ 2 ^ 64) {ops : List EevdfOp}
    (h : Wf lim rq) (hf : Runs.Each eevdfStep (Fits lim) rq ops) : Wf lim (eevdfAfter rq ops) :=
  Runs.Each.invariant (Wf lim) (fun _ op hwf hfits => hwf.step hlim op hfits) rq ops h hf

theorem wf_init (lim : Nat) : Wf lim eevdfInit := fun _ ht => absurd ht (by simp [eevdfInit])

/-! ## Every charge serves a task of least deadline -/

/-- Below the limit, picking and charging is the rule of `Lib/LeastFirst`, on the deadlines. -/
theorem charge_serve {ticks : UInt32} (hlim : lim ≤ 2 ^ 64) (hwf : Wf lim rq) (hp : eevdfPick rq = some i)
    (ht : rq.tasks[i]? = some t) (hfits : t.vruntime + chargeOf t ticks.toNat + t.slice < lim) :
    Least (Finset.range rq.tasks.length) (deadlineAt rq) i ∧ deadlineAt (eevdfCharge rq i ticks)
        = serve (deadlineAt rq) i (chargeOf t ticks.toNat) := by
  have hi : i < rq.tasks.length := (List.getElem?_eq_some_iff.1 ht).1
  have hdi : deadlineAt rq i = t.deadline := by simp [deadlineAt, ht]
  refine ⟨⟨Finset.mem_range.2 hi, fun j hj => ?_⟩, funext fun k => ?_⟩
  · obtain ⟨t', ht', -, hleast⟩ := eevdfPick_some hp
    obtain rfl : t = t' := Option.some_inj.mp (ht.symm.trans ht')
    have hj' := Finset.mem_range.1 hj
    rw [hdi, deadlineAt, List.getElem?_eq_getElem hj']
    exact hleast _ (List.getElem_mem hj') (hwf _ (List.getElem_mem hj')).eligible
  · rw [deadlineAt, (eevdfCharge_tasks _ hlim hwf ht hfits).1, serve, Function.update_apply]
    by_cases hk : k = i
    · subst hk
      have hd : (charged t ticks.toNat).deadline = t.deadline + chargeOf t ticks.toNat := by
        have hw := charged_wf hlim (hwf t (List.mem_of_getElem? ht)) hfits
        have hv : (charged t ticks.toNat).vruntime = t.vruntime + chargeOf t ticks.toNat :=
          Nat.mod_eq_of_lt (by omega)
        rw [hw.deadline_eq, hv, (hwf t (List.mem_of_getElem? ht)).deadline_eq]
        exact Nat.add_right_comm _ _ _
      rw [if_pos rfl, List.getElem?_set_self hi, hdi]
      exact hd
    · rw [if_neg hk, List.getElem?_set_ne (Ne.symm hk)]
      rfl

/-- One call keeps two deadlines within what they were apart, or within the charge. -/
theorem dist_step_le (hlim : lim ≤ 2 ^ 64) (hwf : Wf lim rq)
    (op : EevdfOp) (hfits : Fits lim rq op) {i j : Nat} (hi : i < rq.tasks.length)
    (hj : j < rq.tasks.length) :
    Nat.dist (deadlineAt (eevdfStep rq op) i) (deadlineAt (eevdfStep rq op) j)
      ≤ max (Nat.dist (deadlineAt rq i) (deadlineAt rq j)) (chargeBy rq op) := by
  cases op with
  | add id weight =>
    rw [eevdfStep]
    cases hadd : eevdfAdd rq id weight with
    | none => exact le_max_left _ _
    | some rq' =>
      obtain ⟨-, rfl⟩ := eevdfAdd_some hadd
      simp [deadlineAt, List.getElem?_append_left, hi, hj]
  | run ticks =>
    rw [eevdfStep]
    cases hp : eevdfPick rq with
    | none => exact le_max_left _ _
    | some k =>
      obtain ⟨t, ht, -, -⟩ := eevdfPick_some hp
      obtain ⟨hleast, hserve⟩ := charge_serve hlim hwf hp ht (hfits t (picked_eq hp ht))
      have hby : chargeBy rq (.run ticks) = chargeOf t ticks.toNat := by
        simp [chargeBy, picked_eq hp ht]
      simp only
      rw [hserve, hby]
      exact dist_serve_le hleast (Finset.mem_range.2 hi) (Finset.mem_range.2 hj)

theorem length_step (rq : EevdfRq) (op : EevdfOp) : rq.tasks.length ≤ (eevdfStep rq op).tasks.length := by
  cases op with
  | add id weight =>
    rw [eevdfStep]
    cases hadd : eevdfAdd rq id weight with
    | none => exact Nat.le_refl _
    | some rq' => obtain ⟨-, rfl⟩ := eevdfAdd_some hadd; simp
  | run ticks =>
    rw [eevdfStep]
    cases hp : eevdfPick rq with
    | none => exact Nat.le_refl _
    | some i => simp only [eevdfCharge]; split <;> simp

/-- The run lemma behind `deadline_gap_bounded`. -/
theorem dist_after_le (hlim : lim ≤ 2 ^ 64) {i j : Nat} : ∀ (ops : List EevdfOp)
    (rq : EevdfRq), Wf lim rq → Runs.Each eevdfStep (Fits lim) rq ops →
    i < rq.tasks.length → j < rq.tasks.length →
    Nat.dist (deadlineAt (eevdfAfter rq ops) i) (deadlineAt (eevdfAfter rq ops) j)
      ≤ max (Nat.dist (deadlineAt rq i) (deadlineAt rq j)) (largestCharge rq ops)
  | [], _, _, _, _, _ => le_max_left _ _
  | op :: ops, rq, hwf, hf, hi, hj => by
    have hstep := dist_step_le hlim hwf op hf.1 hi hj
    have hrest := dist_after_le hlim ops (eevdfStep rq op) (hwf.step hlim op hf.1) hf.2
      (hi.trans_le (length_step rq op)) (hj.trans_le (length_step rq op))
    rw [largestCharge]
    refine hrest.trans (max_le (hstep.trans ?_) ?_)
    · exact max_le_max (Nat.le_refl _) (le_max_left _ _)
    · exact (le_max_right _ _).trans (le_max_right _ _)

/-- **The service bound.**  Build a runqueue by any calls, and run it by any further ones; as long
as no call carries a deadline to `2 ^ 64`, the deadlines of two tasks are never further apart than
they were when the run began, or than the largest charge of the run. -/
theorem deadline_gap_bounded (build ops : List EevdfOp) (hbuild : Runs.Each eevdfStep (Fits (2 ^ 64)) eevdfInit build)
    (hops : Runs.Each eevdfStep (Fits (2 ^ 64))
      (eevdfAfter eevdfInit build) ops)
    (i j : Nat) (hi : i < (eevdfAfter eevdfInit build).tasks.length)
    (hj : j < (eevdfAfter eevdfInit build).tasks.length) :
    Nat.dist (deadlineAt (eevdfAfter (eevdfAfter eevdfInit build) ops) i)
        (deadlineAt (eevdfAfter (eevdfAfter eevdfInit build) ops) j)
      ≤ max (Nat.dist (deadlineAt (eevdfAfter eevdfInit build) i)
          (deadlineAt (eevdfAfter eevdfInit build) j))
        (largestCharge (eevdfAfter eevdfInit build) ops) :=
  dist_after_le (Nat.le_refl _) ops _ ((wf_init _).after (Nat.le_refl _) hbuild) hops hi hj

/-- Two tasks of weights 2:1 after two charges of one tick. -/
theorem deadline_gap_bounded_two : Nat.dist (deadlineAt (eevdfAfter (eevdfAfter eevdfInit [.add 1 1024, .add 2 512])
        [.run 1, .run 3]) 0)
      (deadlineAt (eevdfAfter (eevdfAfter eevdfInit [.add 1 1024, .add 2 512])
        [.run 1, .run 3]) 1) ≤ max 4 3 :=
  deadline_gap_bounded [.add 1 1024, .add 2 512] [.run 1, .run 3]
    (by decide) (by decide) 0 1 (by decide) (by decide)

/-! ## The counters wrap

Two tasks of weight 1, charged the most a call can charge, `M = (2 ^ 32 - 1) * 1024` at a time, take
turns: after `n` turns each both stand at virtual runtime `n * M`.  After 4194304 turns one more
charge carries the first task past `2 ^ 64`, and its deadline starts again near zero. -/

/-- A task of weight 1 that stands at virtual runtime `v`. -/
def Twin (v : Nat) (t : EevdfTask) : Prop :=
  t.weight = 1 ∧ t.slice = 4096 ∧ t.vruntime = v ∧ t.deadline = v + 4096 ∧ t.eligible = true

/-- A runqueue of two such tasks, the first at `v` and not behind the second, at `w`. -/
def Twins (v w : Nat) (rq : EevdfRq) : Prop :=
  ∃ a b, rq.tasks = [a, b] ∧ rq.minVruntime = v ∧ w ≤ v ∧ Twin v a ∧ Twin w b

/-- The largest charge there is, in ticks, and what it is worth at weight 1. -/
def fullTicks : UInt32 := 4294967295

theorem Twin.chargeOf (h : Twin v t) : chargeOf t fullTicks.toNat = 4398046510080 := by rw [Eevdf.chargeOf, h.1]; rfl

theorem Twin.wf {v m : Nat} (h : Twin v t) (hm : v ≤ m) (hv : v + 4096 < 2 ^ 64) : TaskWf (2 ^ 64) m t := by
  obtain ⟨hw, hs, hvr, hd, he⟩ := h
  exact ⟨by omega, he, by omega, by omega, by omega⟩

theorem Twins.wf {v w : Nat} (h : Twins v w rq) (hv : v + 4096 < 2 ^ 64) : Wf (2 ^ 64) rq := by
  obtain ⟨a, b, htasks, hmin, hwv, ha, hb⟩ := h
  intro t ht
  rw [htasks, List.mem_cons, List.mem_singleton] at ht
  rcases ht with rfl | rfl
  · exact ha.wf (by omega) hv
  · exact hb.wf (by omega) (by omega)

theorem Twin.charged (h : Twin v t) (hv : v + 4398046510080 + 4096 < 2 ^ 64) :
    Twin (v + 4398046510080) (charged t fullTicks.toNat) := by
  have hc := h.chargeOf
  obtain ⟨hw, hs, hvr, hd, he⟩ := h
  have hmod : (v + 4398046510080) % 2 ^ 64 = v + 4398046510080 := Nat.mod_eq_of_lt (by omega)
  have hv' : (Eevdf.charged t fullTicks.toNat).vruntime = v + 4398046510080 := by
    rw [charged_vruntime, hc, hvr, hmod]
  simp only [Twin, charged_weight, charged_slice, charged_eligible, charged_deadline, hv', hw, hs,
    he, true_and, and_true]
  exact Nat.mod_eq_of_lt hv

/-- Of two level tasks the first is picked. -/
theorem Twins.pick_level (h : Twins v v rq) (hv : v + 4096 < 2 ^ 64 - 1) : eevdfPick rq = some 0 := by
  obtain ⟨a, b, htasks, -, -, ⟨-, -, hva, hda, hea⟩, ⟨-, -, hvb, hdb, heb⟩⟩ := h
  have hlt : v + 4096 < 18446744073709551615 := hv
  simp [eevdfPick, htasks, pickLoop, beats, hea, heb, hda, hdb, hva, hvb, hlt]

/-- Of two tasks that are not level the second is picked. -/
theorem Twins.pick_behind {v w : Nat} (h : Twins v w rq) (hwv : w < v)
    (hv : v + 4096 < 2 ^ 64 - 1) : eevdfPick rq = some 1 := by
  obtain ⟨a, b, htasks, -, -, ⟨-, -, hva, hda, hea⟩, ⟨-, -, hvb, hdb, heb⟩⟩ := h
  have hlt : v + 4096 < 18446744073709551615 := hv
  simp [eevdfPick, htasks, pickLoop, beats, hea, heb, hda, hdb, hva, hvb, hlt, hwv]

/-- A full charge of each of two level tasks leaves them level. -/
theorem Twins.turn (h : Twins v v rq) (hv : v + 4398046510080 + 4096 < 2 ^ 64 - 1) :
    Twins (v + 4398046510080) (v + 4398046510080)
      (eevdfStep (eevdfStep rq (.run fullTicks)) (.run fullTicks)) := by
  have hfirst : Twins (v + 4398046510080) v (eevdfStep rq (.run fullTicks)) := by
    have hp := h.pick_level (by omega)
    have hwf := h.wf (by omega)
    obtain ⟨a, b, htasks, hmin, -, ha, hb⟩ := h
    have hget : rq.tasks[0]? = some a := by rw [htasks]; rfl
    obtain ⟨ht, hm⟩ := eevdfCharge_tasks fullTicks (Nat.le_refl _) hwf hget
      (by rw [ha.chargeOf, ha.2.1, ha.2.2.1]; omega)
    rw [eevdfStep, hp]
    refine ⟨_, b, ht.trans (by rw [htasks]; rfl), ?_, by omega, ha.charged (by omega), hb⟩
    rw [hm, hmin, ha.chargeOf, ha.2.2.1]
    omega
  have hp := hfirst.pick_behind (by omega) (by omega)
  have hwf := hfirst.wf (by omega)
  obtain ⟨a, b, htasks, hmin, -, ha, hb⟩ := hfirst
  have hget : (eevdfStep rq (.run fullTicks)).tasks[1]? = some b := by rw [htasks]; rfl
  obtain ⟨ht, hm⟩ := eevdfCharge_tasks fullTicks (Nat.le_refl _) hwf hget
    (by rw [hb.chargeOf, hb.2.1, hb.2.2.1]; omega)
  rw [eevdfStep, hp]
  refine ⟨a, _, ht.trans (by rw [htasks]; rfl), ?_, Nat.le_refl _, ha, hb.charged (by omega)⟩
  rw [hm, hmin, hb.chargeOf, hb.2.2.1]
  omega

theorem Twins.turns : ∀ (n v : Nat) (rq : EevdfRq), Twins v v rq → v + n * 4398046510080 + 4096 < 2 ^ 64 - 1 →
    Twins (v + n * 4398046510080) (v + n * 4398046510080)
      (eevdfAfter rq (List.replicate (2 * n) (.run fullTicks)))
  | 0, v, rq, h, _ => by simpa [eevdfAfter] using h
  | n + 1, v, rq, h, hv => by
    have hrest := Twins.turns n (v + 4398046510080) _ (h.turn (by omega)) (by omega)
    have hsum : v + 4398046510080 + n * 4398046510080 = v + (n + 1) * 4398046510080 := by omega
    rw [hsum] at hrest
    exact hrest

/-- No charge of a sequence is worth more than its ticks at weight 1. -/
theorem largestCharge_replicate (ticks : UInt32) : ∀ (n : Nat) (rq : EevdfRq),
    largestCharge rq (List.replicate n (.run ticks)) ≤ ticks.toNat * eevdfNice0
  | 0, _ => Nat.zero_le _
  | n + 1, rq => by
    rw [List.replicate_succ, largestCharge]
    refine max_le ?_ (largestCharge_replicate ticks n _)
    rw [chargeBy]
    cases picked rq with
    | none => exact Nat.zero_le _
    | some t => exact Nat.div_le_self _ _

/-- The two level tasks. -/
def twins : EevdfRq := eevdfAfter eevdfInit [.add 1 1, .add 2 1]

theorem twins_level : Twins 0 0 twins :=
  ⟨_, _, rfl, rfl, Nat.le_refl _, by unfold Twin; decide, by unfold Twin; decide⟩

/-- 4194304 turns of each of the two, and one more charge of the first. -/
def wrappingRun : List EevdfOp :=
  List.replicate (2 * 4194304) (.run fullTicks) ++ [.run fullTicks]

/-- The charge that wraps: of two level tasks near the end of the counter, the first one's deadline
falls back to the beginning. -/
theorem Twins.wrap (h : Twins 18446744069414584320 18446744069414584320 rq) :
    deadlineAt (eevdfStep rq (.run fullTicks)) 0 = 4393751546880 ∧
      deadlineAt (eevdfStep rq (.run fullTicks)) 1 = 18446744069414588416 := by
  have hp := h.pick_level (by decide)
  obtain ⟨a, b, htasks, hmin, -, ha, hb⟩ := h
  have hva : (charged a fullTicks.toNat).vruntime = 4393751542784 := by
    rw [charged_vruntime, ha.chargeOf, ha.2.2.1]; decide
  have hda : (charged a fullTicks.toNat).deadline = 4393751546880 := by
    rw [charged_deadline, hva, ha.2.1]; decide
  have hget : rq.tasks[0]? = some a := by rw [htasks]; rfl
  have hm : (if rq.minVruntime < (charged a fullTicks.toNat).vruntime
      then (charged a fullTicks.toNat).vruntime else rq.minVruntime) = 18446744069414584320 := by
    rw [hva, hmin, if_neg (by decide)]
  have htk : (eevdfStep rq (.run fullTicks)).tasks = [refresh 18446744069414584320 (charged a fullTicks.toNat),
        refresh 18446744069414584320 b] := by
    rw [eevdfStep, hp]
    simp only [eevdfCharge, hget, hm]
    rw [htasks, List.set_cons_zero, List.map_cons, List.map_cons, List.map_nil]
  rw [refresh_of_le (by rw [hva]; decide), refresh_of_le (Nat.le_of_eq hb.2.2.1)] at htk
  rw [deadlineAt, deadlineAt, htk]
  exact ⟨hda, hb.2.2.2.1⟩

theorem wrappingRun_eq (rq : EevdfRq) : eevdfAfter rq wrappingRun
    = eevdfStep (eevdfAfter rq (List.replicate (2 * 4194304) (.run fullTicks)))
      (.run fullTicks) := by
  rw [wrappingRun, eevdfAfter, List.foldl_append, List.foldl_cons, List.foldl_nil, eevdfAfter]

theorem wrappingRun_replicate : wrappingRun = List.replicate (2 * 4194304 + 1) (.run fullTicks) := by
  rw [wrappingRun, List.replicate_add, List.replicate_one]

/-- **The service bound fails once a counter wraps.**  The two tasks start level and no charge is
worth more than `2 ^ 42`, yet after `wrappingRun` their deadlines are more than `2 ^ 63` apart. -/
theorem deadline_gap_wraps : ¬ Nat.dist (deadlineAt (eevdfAfter twins wrappingRun) 0)
        (deadlineAt (eevdfAfter twins wrappingRun) 1)
      ≤ max (Nat.dist (deadlineAt twins 0) (deadlineAt twins 1))
        (largestCharge twins wrappingRun) := by
  have hlevel := Twins.turns 4194304 0 twins twins_level (by decide)
  rw [Nat.zero_add, show 4194304 * 4398046510080 = 18446744069414584320 from rfl] at hlevel
  obtain ⟨h0, h1⟩ := hlevel.wrap
  have hmax : largestCharge twins wrappingRun ≤ 4398046510080 := by
    rw [wrappingRun_replicate]
    exact largestCharge_replicate fullTicks _ twins
  have hstart : Nat.dist (deadlineAt twins 0) (deadlineAt twins 1) = 0 := by decide
  rw [wrappingRun_eq, h0, h1, hstart, Nat.dist]
  omega

/-! ## Starvation -/

/-- The runqueue after `n` rounds of picking a task and charging it `ticks k` in round `k`. -/
def eevdfRounds (rq : EevdfRq) (ticks : Nat → UInt32) : Nat → EevdfRq
  | 0 => rq
  | n + 1 => eevdfStep (eevdfRounds rq ticks n) (.run (ticks n))

/-- The charge of the picked task moves its virtual time: the ticks, at 1024 apiece, reach the
task's weight. -/
def Moves (rq : EevdfRq) (ticks : UInt32) : Prop :=
  ∀ t ∈ picked rq, t.weight ≤ ticks.toNat * eevdfNice0

instance (rq : EevdfRq) (ticks : UInt32) : Decidable (Moves rq ticks) :=
  inferInstanceAs (Decidable (∀ t ∈ picked rq, t.weight ≤ ticks.toNat * eevdfNice0))

theorem eevdfRounds_succ (rq : EevdfRq) (ticks : Nat → UInt32) : ∀ n : Nat, eevdfRounds rq ticks (n + 1)
      = eevdfRounds (eevdfStep rq (.run (ticks 0))) (fun k => ticks (k + 1)) n
  | 0 => rfl
  | n + 1 => by rw [eevdfRounds, eevdfRounds_succ rq ticks n]; rfl

/-- **A task's turn comes within `waiting` rounds.**  The induction is on that number: a round that
picks another task serves one of least deadline by at least one, which brings the turn nearer. -/
theorem picked_within : ∀ (n : Nat) (rq : EevdfRq) (ticks : Nat → UInt32) (j : Nat),
    Wf (2 ^ 64 - 1) rq → j < rq.tasks.length →
    waiting (Finset.range rq.tasks.length) (deadlineAt rq) j < n →
    (∀ k < n, Moves (eevdfRounds rq ticks k) (ticks k) ∧ Fits (2 ^ 64 - 1) (eevdfRounds rq ticks k) (.run (ticks k))) →
    ∃ k < n, eevdfPick (eevdfRounds rq ticks k) = some j
  | 0, _, _, _, _, _, hw, _ => absurd hw (Nat.not_lt_zero _)
  | n + 1, rq, ticks, j, hwf, hj, hw, hok => by
    have hmem := List.getElem_mem hj
    obtain ⟨i, hp⟩ := eevdfPick_isSome hmem (hwf _ hmem).eligible (hwf _ hmem).deadline_lt
    by_cases hij : i = j
    · exact ⟨0, Nat.succ_pos n, hij ▸ hp⟩
    obtain ⟨t, ht, -, -⟩ := eevdfPick_some hp
    obtain ⟨hmoves, hfits⟩ := hok 0 (Nat.succ_pos n)
    have hδ : 1 ≤ chargeOf t (ticks 0).toNat := by
      have hpos := (hwf t (List.mem_of_getElem? ht)).weight_pos
      exact (Nat.one_le_div_iff hpos).2 (hmoves t (picked_eq hp ht))
    obtain ⟨hleast, hserve⟩ := charge_serve (by decide) hwf hp ht (hfits t (picked_eq hp ht))
    have hstep : eevdfStep rq (.run (ticks 0)) = eevdfCharge rq i (ticks 0) := by
      rw [eevdfStep, hp]
    have hlen : (eevdfStep rq (.run (ticks 0))).tasks.length = rq.tasks.length := by
      rw [hstep, (eevdfCharge_tasks _ (by decide) hwf ht (hfits t (picked_eq hp ht))).1, List.length_set]
    have hlt := waiting_serve_lt hleast (Finset.mem_range.2 hj) hij hδ
    obtain ⟨k, hk, hpick⟩ := picked_within n (eevdfStep rq (.run (ticks 0)))
      (fun k => ticks (k + 1)) j (hwf.step (by decide) _ hfits) (by omega)
      (by rw [hlen, hstep, hserve]; omega)
      (fun k hk => by rw [← eevdfRounds_succ]; exact hok (k + 1) (by omega))
    exact ⟨k + 1, by omega, by rw [eevdfRounds_succ]; exact hpick⟩

/-- A number of rounds within which the turn of task `j` comes: one more than the total by which
the other deadlines are behind its own. -/
def roundsFor (rq : EevdfRq) (j : Nat) : Nat :=
  waiting (Finset.range rq.tasks.length) (deadlineAt rq) j + 1

/-- **No task starves**, as long as the charges move virtual time and no counter reaches the end of
its range.  From every runqueue that calls within the range lead to, every task of it is picked
within `roundsFor` rounds, whatever the picked tasks are charged. -/
theorem picked_again (build : List EevdfOp) (hbuild : Runs.Each eevdfStep (Fits (2 ^ 64 - 1)) eevdfInit build)
    (j : Nat) (hj : j < (eevdfAfter eevdfInit build).tasks.length) (ticks : Nat → UInt32)
    (hok : ∀ k < roundsFor (eevdfAfter eevdfInit build) j,
      Moves (eevdfRounds (eevdfAfter eevdfInit build) ticks k) (ticks k) ∧
        Fits (2 ^ 64 - 1) (eevdfRounds (eevdfAfter eevdfInit build) ticks k) (.run (ticks k))) :
    ∃ k < roundsFor (eevdfAfter eevdfInit build) j,
      eevdfPick (eevdfRounds (eevdfAfter eevdfInit build) ticks k) = some j :=
  picked_within _ _ ticks j ((wf_init _).after (by decide) hbuild) hj (Nat.lt_succ_self _) hok

/-- Two tasks of equal weight, charged a tick at a time: the second is picked within three
rounds. -/
theorem picked_again_two : ∃ k < 3,
    eevdfPick (eevdfRounds (eevdfAfter eevdfInit [.add 1 1024, .add 2 1024]) (fun _ => 1) k)
      = some 1 :=
  picked_again [.add 1 1024, .add 2 1024] (by decide) 1 (by decide) (fun _ => 1) (by decide)

/-- A task of weight 2048 next to one of weight 1024. -/
def heavyAndLight : EevdfRq := eevdfAfter eevdfInit [.add 1 2048, .add 2 1024]

/-- A charge of one tick is worth `1024 / 2048 = 0` to the heavy task, so its deadline stays the
earliest and it is picked for ever. -/
theorem heavyAndLight_pick (n : Nat) : eevdfPick (eevdfRounds heavyAndLight (fun _ => 1) n) = some 0 := by
  -- the only fields a round changes are the ones that count real ticks
  have hsame : ∀ n, (eevdfRounds heavyAndLight (fun _ => 1) n).minVruntime = 0 ∧
      ∃ ran, (eevdfRounds heavyAndLight (fun _ => 1) n).tasks =
        [{ id := 1, weight := 2048, slice := 2, vruntime := 0, deadline := 2, ran := ran, eligible := true },
         { id := 2, weight := 1024, slice := 4, vruntime := 0, deadline := 4, ran := 0, eligible := true }] := by
    intro n
    induction n with
    | zero => exact ⟨rfl, 0, rfl⟩
    | succ n ih =>
      obtain ⟨hmin, ran, htasks⟩ := ih
      have hp : eevdfPick (eevdfRounds heavyAndLight (fun _ => 1) n) = some 0 := by
        simp [eevdfPick, htasks, pickLoop, beats]
      rw [eevdfRounds, eevdfStep, hp]
      simp [eevdfCharge, htasks, hmin, charged, chargeOf, refresh, eevdfNice0]
  obtain ⟨-, ran, htasks⟩ := hsame n
  simp [eevdfPick, htasks, pickLoop, beats]

/-- **A heavy task starves a light one**: there is no round in which the light one is picked. -/
theorem heavy_task_starves : ¬ ∃ n, eevdfPick (eevdfRounds heavyAndLight (fun _ => 1) n) = some 1 := by
  rintro ⟨n, hn⟩
  rw [heavyAndLight_pick] at hn
  cases hn

end WuBuOS.Eevdf
