import WuBuOS.Kernel.Eevdf

/-!
# The eligibility filter never filters

"A task that has run past its fair share waits until the clock catches up": `eevdf_charge` sets a task
aside when its virtual runtime is ahead of `min_vruntime`, and `eevdf_pick` passes over it.  But
`min_vruntime` is raised to the runtime of every task that is charged.  It is the *largest* runtime there
has been, no task is ever ahead of it (`AllEligible`), and the task that has run the most is as eligible
as the others: `ahead_never_waits`.  Nothing here depends on the counters not wrapping.
-/

namespace WuBuOS.Eevdf

variable {rq : EevdfRq}

/-- A call on the runqueue that may charge any task, not only the one picked. -/
inductive EevdfCall where
  /-- `eevdf_add(rq, id, weight)`. -/
  | add (id : Int) (weight : UInt32)
  /-- `eevdf_charge(rq, index, ticks)`. -/
  | charge (index : Int) (ticks : UInt32)

/-- The runqueue after the call. -/
def callStep (rq : EevdfRq) : EevdfCall → EevdfRq
  | .add id weight => (eevdfAdd rq id weight).getD rq
  | .charge (.ofNat index) ticks => eevdfCharge rq index ticks
  | .charge (.negSucc _) _ => rq

/-- The runqueue after the calls. -/
def callsAfter (calls : List EevdfCall) : EevdfRq := calls.foldl callStep eevdfInit

/-- No task is ahead of `minVruntime`, and all can be picked. -/
def AllEligible (rq : EevdfRq) : Prop :=
  ∀ t ∈ rq.tasks, t.vruntime ≤ rq.minVruntime ∧ t.eligible = true

theorem AllEligible.add (h : AllEligible rq) (id : Int) (weight : UInt32) :
    AllEligible ((eevdfAdd rq id weight).getD rq) := by
  rw [eevdfAdd]
  split
  · exact h
  · intro t ht
    rcases List.mem_append.1 ht with ht | ht
    · exact h t ht
    · rw [List.mem_singleton.1 ht]
      exact ⟨Nat.le_refl _, rfl⟩

theorem refresh_eligible {m : Nat} {t : EevdfTask} (h : t.vruntime ≤ m) :
    (refresh m t).vruntime ≤ m ∧ (refresh m t).eligible = true :=
  ⟨h, decide_eq_true h⟩

/-- The charge raises `minVruntime` to the charged task before it looks at any task. -/
theorem AllEligible.charge (h : AllEligible rq) (index : Nat) (ticks : UInt32) :
    AllEligible (eevdfCharge rq index ticks) := by
  rw [eevdfCharge]
  split
  · exact h
  · rename_i t ht
    intro u hu
    obtain ⟨v, hv, rfl⟩ := List.mem_map.1 hu
    refine refresh_eligible ?_
    rcases List.mem_or_eq_of_mem_set hv with hv | rfl
    · have hle := (h v hv).1
      split <;> omega
    · split <;> omega

theorem AllEligible.step (h : AllEligible rq) : ∀ call : EevdfCall, AllEligible (callStep rq call)
  | .add id weight => h.add id weight
  | .charge (.ofNat index) ticks => h.charge index ticks
  | .charge (.negSucc _) _ => h

/-- **In every runqueue that is reached**, every task is eligible. -/
theorem allEligible_after (calls : List EevdfCall) : AllEligible (callsAfter calls) :=
  List.foldlRecOn (motive := AllEligible) calls callStep (fun _ ht => absurd ht List.not_mem_nil)
    fun _ h call _ => h.step call

/-- Task `i` has run more than every other task. -/
def FarAhead (rq : EevdfRq) (i : Nat) : Prop :=
  ∃ t, rq.tasks[i]? = some t ∧ ∀ j u, j ≠ i → rq.tasks[j]? = some u → u.vruntime < t.vruntime

/-- Task `i` waits: it is not eligible, and is not picked while there is another task. -/
def Waits (rq : EevdfRq) (i : Nat) : Prop :=
  (∀ t, rq.tasks[i]? = some t → t.eligible = false) ∧ (1 < rq.tasks.length → eevdfPick rq ≠ some i)

/-- **The task that has run the most never waits.** -/
theorem ahead_never_waits (calls : List EevdfCall) (i : Nat) (h : FarAhead (callsAfter calls) i) :
    ¬ Waits (callsAfter calls) i := by
  obtain ⟨t, ht, -⟩ := h
  intro hwaits
  have helig := (allEligible_after calls t (List.mem_of_getElem? ht)).2
  rw [hwaits.1 t ht] at helig
  cases helig

/-- Two tasks of weights 1024 and 4096, and the heavy one is charged four ticks. -/
def heavyCharged : List EevdfCall := [.add 1 1024, .add 2 4096, .charge 1 4]

theorem heavyCharged_ahead : FarAhead (callsAfter heavyCharged) 1 := by
  refine ⟨_, rfl, fun j u hj hu => ?_⟩
  match j with
  | 0 => obtain rfl := Option.some.inj hu; decide
  | 1 => exact absurd rfl hj
  | _ + 2 => cases hu

theorem ahead_never_waits_heavy : ¬ Waits (callsAfter heavyCharged) 1 :=
  ahead_never_waits heavyCharged 1 heavyCharged_ahead

/-- It has run the most, and is picked all the same. -/
theorem heavy_picked_ahead : FarAhead (callsAfter heavyCharged) 1 ∧ 1 < (callsAfter heavyCharged).tasks.length ∧
    eevdfPick (callsAfter heavyCharged) = some 1 :=
  ⟨heavyCharged_ahead, by decide, by decide⟩

end WuBuOS.Eevdf
