import Mathlib.Data.List.Nodup
import Mathlib.Data.List.ProdSigma
import WuBuOS.Kernel.TimerWheel

/-!
# What the timer wheel loses

`tw_advance` takes every timer that is due off the wheel and stores as many ids as its caller has room for.
A timer that finds no room is gone: it is neither on the wheel nor reported, and `pending` does not count
it any more.  So the wheel keeps its promise exactly in those runs in which there is always room
(`timers_kept_iff`); how much room a tick needs can be read off the wheel before it (`dueNext`).

A timer that is due at once is not lost, but it is late.  It goes to the slot that has just fired, and that
slot comes round 64 ticks later: `Parked`, and `immediate_not_next`.
-/

namespace WuBuOS.TimerWheel

open Buckets Runs

variable {w w' : Tw} {e : TwEntry} {l s max : Nat} {id expiry : UInt64}

/-! ## All that is on the wheel -/

/-- The slots of the wheel. -/
def twPlaces : List (Nat × Nat) := List.range twLevels ×ˢ List.range twSlots

/-- The entries on the wheel. -/
def onWheel (w : Tw) : List TwEntry := contents twPlaces w.slots

theorem twPlaces_nodup : twPlaces.Nodup := List.nodup_range.product List.nodup_range

theorem mem_twPlaces : (l, s) ∈ twPlaces ↔ l < twLevels ∧ s < twSlots := by
  rw [twPlaces, List.mem_product, List.mem_range, List.mem_range]

theorem slotFor_lt (x l : Nat) : slotFor x l < twSlots := by
  rw [slotFor_eq]
  exact Nat.mod_lt _ (by decide)

theorem dest_mem (now : Nat) (e : TwEntry) : dest now e ∈ twPlaces :=
  mem_twPlaces.2 ⟨(levelFor_spec _).1, slotFor_lt _ _⟩

theorem onWheel_add (h : twAdd w id expiry = some w') :
    (onWheel w').Perm (⟨w.poolUsed, id, expiry.toNat⟩ :: onWheel w) := by
  rw [twAdd_some h]
  exact contents_push twPlaces_nodup (dest_mem _ _)

theorem onWheel_cascadeLevel (hl : l < twLevels) : (onWheel (cascadeLevel w l)).Perm (onWheel w) := by
  rw [cascadeLevel]
  split
  · exact contents_redistribute twPlaces_nodup (mem_twPlaces.2 ⟨hl, slotFor_lt _ _⟩)
      fun a _ => dest_mem _ a
  · exact List.Perm.refl _

theorem onWheel_stepClock (w : Tw) : (onWheel (twStepClock w)).Perm (onWheel w) := by
  have hfold : ∀ (ls : List Nat) (w : Tw), (∀ l ∈ ls, l < twLevels) →
      (onWheel (ls.foldl cascadeLevel w)).Perm (onWheel w) := by
    intro ls
    induction ls with
    | nil => exact fun w _ => List.Perm.refl _
    | cons l ls ih =>
      intro w hls
      exact (ih _ fun k hk => hls k (List.mem_cons_of_mem l hk)).trans
        (onWheel_cascadeLevel (hls l List.mem_cons_self))
  refine hfold _ _ fun l hl => ?_
  rw [List.mem_range'_1] at hl
  simp only [twLevels] at hl ⊢
  omega

/-- **A tick divides the entries** into those that are due and those that stay. -/
theorem onWheel_advance (w : Tw) (max : Nat) : (onWheel w).Perm (twDue w ++ onWheel (twAdvance w max).1) := by
  have hslot : (0, slotFor (twStepClock w).now 0) ∈ twPlaces :=
    mem_twPlaces.2 ⟨by decide, slotFor_lt _ _⟩
  have hsplit := contents_clear (t := (twStepClock w).slots) twPlaces_nodup hslot
  have hfire := @contents_distribute _ _ _ _ (clear (twStepClock w).slots (0, slotFor (twStepClock w).now 0))
    twPlaces_nodup (dest (twStepClock w).now)
    (((twStepClock w).slots (0, slotFor (twStepClock w).now 0)).filter
      fun e => !decide (e.expiry ≤ (twStepClock w).now)) fun a _ => dest_mem _ a
  refine (onWheel_stepClock w).symm.trans (hsplit.trans ?_)
  rw [onWheel, twAdvance, (fire_spec max _ _).2.2.1, twDue, slot_zero]
  refine List.Perm.trans ?_ (hfire.symm.append_left _)
  rw [← List.append_assoc]
  exact (List.filter_append_perm _ _).symm.append_right _

theorem fire_pending (max : Nat) (es : List TwEntry) : ∀ acc : Tw × List TwEntry,
    (es.foldl (fireOne max) acc).1.pending =
      acc.1.pending - (es.filter fun e => decide (e.expiry ≤ acc.1.now)).length := by
  induction es with
  | nil => exact fun _ => rfl
  | cons e es ih =>
    intro acc
    rw [List.foldl_cons, ih]
    by_cases hdue : e.expiry ≤ acc.1.now
    · simp [fireOne, hdue, Nat.sub_sub, Nat.add_comm]
    · simp [fireOne, hdue]

theorem twStepClock_pending (w : Tw) : (twStepClock w).pending = w.pending := by
  have h : ∀ (ls : List Nat) (w : Tw), (ls.foldl cascadeLevel w).pending = w.pending := by
    intro ls
    induction ls with
    | nil => exact fun _ => rfl
    | cons l ls ih =>
      intro w
      rw [List.foldl_cons, ih, cascadeLevel]
      split <;> rfl
  exact h _ _

theorem twAdvance_pending (w : Tw) (max : Nat) : (twAdvance w max).1.pending = w.pending - (twDue w).length := by
  rw [twAdvance, fire_pending, ← twStepClock_pending w, twDue]

/-! ## Timers that are late -/

/-- The entry is on the lowest level, in the slot of its expiry, and only there. -/
def Parked (w : Tw) (e : TwEntry) : Prop := OnlyAt (same e) w.slots e (0, slotFor e.expiry 0)

theorem Parked.add (h : Parked w e) (hpool : e.pool < w.poolUsed) (hadd : twAdd w id expiry = some w') :
    Parked w' e := by
  obtain rfl := twAdd_some hadd
  exact h.push_of_not (by simp [same]; omega)

/-- **Adding a timer that is due at once** parks it. -/
theorem parked_of_add (hfresh : PoolFresh w) (hadd : twAdd w id expiry = some w')
    (hnow : expiry.toNat = w.now) : Parked w' ⟨w.poolUsed, id, expiry.toNat⟩ := by
  obtain rfl := twAdd_some hadd
  have hdest : dest w.now ⟨w.poolUsed, id, expiry.toNat⟩ = (0, slotFor expiry.toNat 0) := by
    rw [dest, if_neg (by dsimp only; omega)]
    rfl
  rw [Parked, ← hdest]
  exact onlyAt_push _ (same_self _) (hfresh _ (Nat.le_refl _))

theorem Parked.stepClock (h : Parked w e) : Parked (twStepClock w) e := by
  have hfold : ∀ (ls : List Nat) (w : Tw), (∀ l ∈ ls, 1 ≤ l) → Parked w e → Parked (ls.foldl cascadeLevel w) e := by
    intro ls
    induction ls with
    | nil => exact fun w _ h => h
    | cons l ls ih =>
      intro w hls h
      refine ih _ (fun k hk => hls k (List.mem_cons_of_mem l hk)) ?_
      rw [cascadeLevel]
      split
      · have hstay := OnlyAt.redistribute h (dest w.now) (l, slotFor w.now l)
        rw [if_neg] at hstay
        · exact hstay
        · intro heq
          have h1 := hls l List.mem_cons_self
          rw [← (Prod.mk.inj heq).1] at h1
          exact absurd h1 (by decide)
      · exact h
  exact hfold _ _ (fun l hl => (List.mem_range'_1.1 hl).1) h

/-- **A tick that does not come to its slot** leaves the entry where it is. -/
theorem Parked.stays (h : Parked w e) (hs : slotFor e.expiry 0 ≠ slotFor (twStepClock w).now 0) (max : Nat) :
    (twDue w).filter (same e) = [] ∧ Parked (twAdvance w max).1 e := by
  have hnone : occ (same e) (twStepClock w).slots (0, slotFor (twStepClock w).now 0) = [] := by
    rw [h.stepClock, if_neg fun heq => hs (Prod.mk.inj heq).2.symm]
  refine ⟨by rw [filter_twDue, hnone]; rfl, fun j => ?_⟩
  rw [occ_twAdvance, hnone, h.stepClock j]
  by_cases hj : j = (0, slotFor (twStepClock w).now 0)
  · rw [if_pos hj, if_neg]
    · rfl
    · rintro rfl
      exact hs (Prod.mk.inj hj).2
  · rw [if_neg hj]
    rfl

/-- **The tick that comes to its slot** reports it, or files it anew: after the clock has wrapped round. -/
theorem Parked.comes (h : Parked w e) (hs : slotFor e.expiry 0 = slotFor (twStepClock w).now 0) (max : Nat) :
    (e.expiry ≤ (twStepClock w).now ∧ (twDue w).filter (same e) = [e] ∧ Gone (twAdvance w max).1 e) ∨
      ((twStepClock w).now < e.expiry ∧ (twDue w).filter (same e) = [] ∧ Armed (twAdvance w max).1 e) := by
  have hone : occ (same e) (twStepClock w).slots (0, slotFor (twStepClock w).now 0) = [e] := by
    rw [h.stepClock, if_pos (by rw [hs])]
  rcases Nat.lt_or_ge (twStepClock w).now e.expiry with hlt | hle
  · refine Or.inr ⟨hlt, ?_, levelFor (e.expiry - (twStepClock w).now), (levelFor_spec _).1, fun j => ?_, ?_⟩
    · rw [filter_twDue, hone]
      simp [hlt]
    · rw [occ_twAdvance, hone, h.stepClock j, ← hs, ← dest_of_lt hlt]
      by_cases hj : j = (0, slotFor e.expiry 0)
      · simp [hj, Nat.not_le.2 hlt, eq_comm]
        split <;> simp_all
      · by_cases hd : dest (twStepClock w).now e = j
        · simp [hj, hd, Nat.not_le.2 hlt]
        · simp [hj, hd, Ne.symm hd]
    · rw [twAdvance_now]
      exact ahead_levelFor hlt
  · refine Or.inl ⟨hle, ?_, fun j => ?_⟩
    · rw [filter_twDue, hone]
      simp [hle]
    · rw [occ_twAdvance, hone, h.stepClock j, ← hs]
      by_cases hj : j = (0, slotFor e.expiry 0) <;> simp [hj, hle]

/-! ## Every entry on the wheel -/

/-- Every entry that is on the wheel came from the pool and is either ahead of the clock or parked. -/
def Held (w : Tw) : Prop :=
  PoolFresh w ∧ ∀ e ∈ onWheel w, e.pool < w.poolUsed ∧ e.expiry < 2 ^ 64 ∧ (Armed w e ∨ Parked w e)

theorem held_init : Held twInit :=
  ⟨poolFresh_init, fun e he => by
    obtain ⟨i, -, hi⟩ := mem_contents.1 he
    exact absurd hi List.not_mem_nil⟩

theorem Held.add (h : Held w) (hadd : twAdd w id expiry = some w') : Held w' := by
  have hfresh := h.1.step (.add id expiry)
  rw [twStep, hadd, Option.getD_some] at hfresh
  have hused : w'.poolUsed = w.poolUsed + 1 := by rw [twAdd_some hadd]
  refine ⟨hfresh, fun e he => ?_⟩
  rcases List.mem_cons.1 ((onWheel_add hadd).mem_iff.1 he) with rfl | he
  · refine ⟨by rw [hused]; exact Nat.lt_succ_self _, expiry.toNat_lt, ?_⟩
    have hge : w.now ≤ expiry.toNat := by
      by_contra hlt
      rw [twAdd, if_pos (Nat.lt_of_not_le hlt)] at hadd
      cases hadd
    rcases Nat.eq_or_lt_of_le hge with heq | hlt
    · exact Or.inr (parked_of_add h.1 hadd heq.symm)
    · exact Or.inl (armed_of_add h.1 hadd hlt)
  · obtain ⟨hpool, hx, hwhere⟩ := h.2 e he
    exact ⟨by omega, hx, hwhere.imp (fun ha => ha.add hpool hadd) fun hp => hp.add hpool hadd⟩

/-- What a tick does with an entry on the wheel, and that it is the entry's expiry that decides. -/
theorem Held.tick (h : Held w) (he : e ∈ onWheel w) (max : Nat) :
    (e.expiry ≤ (twStepClock w).now ∧ slotFor e.expiry 0 = slotFor (twStepClock w).now 0 ∧
        (twDue w).filter (same e) = [e] ∧ Gone (twAdvance w max).1 e) ∨
      (¬(e.expiry ≤ (twStepClock w).now ∧ slotFor e.expiry 0 = slotFor (twStepClock w).now 0) ∧
        (twDue w).filter (same e) = [] ∧ (Armed (twAdvance w max).1 e ∨ Parked (twAdvance w max).1 e)) := by
  obtain ⟨-, hx, ha | hp⟩ := h.2 e he
  · have hlt : w.now < e.expiry := by obtain ⟨l, -, -, hah⟩ := ha; exact hah.lt
    have hclock : (twStepClock w).now = w.now + 1 := by
      rw [twStepClock_now, Nat.mod_eq_of_lt (by omega)]
    by_cases hnow : w.now + 1 = e.expiry
    · exact Or.inl ⟨by omega, by rw [hclock, hnow], armed_due hx ha hnow max⟩
    · obtain ⟨hnone, harm⟩ := armed_not_due hx ha hnow max
      exact Or.inr ⟨fun hdue => by omega, hnone, Or.inl harm⟩
  · by_cases hs : slotFor e.expiry 0 = slotFor (twStepClock w).now 0
    · rcases hp.comes hs max with ⟨hle, hone, hgone⟩ | ⟨hlt, hnone, harm⟩
      · exact Or.inl ⟨hle, hs, hone, hgone⟩
      · exact Or.inr ⟨fun hdue => by omega, hnone, Or.inl harm⟩
    · obtain ⟨hnone, hstay⟩ := hp.stays hs max
      exact Or.inr ⟨fun hdue => hs hdue.2, hnone, Or.inr hstay⟩

theorem Gone.notMem (h : Gone w e) : e ∉ onWheel w := by
  intro he
  obtain ⟨i, -, hi⟩ := mem_contents.1 he
  have hmem : e ∈ occ (same e) w.slots i := List.mem_filter.2 ⟨hi, same_self e⟩
  rw [h i] at hmem
  exact List.not_mem_nil hmem

theorem Held.advance (h : Held w) (max : Nat) : Held (twAdvance w max).1 := by
  refine ⟨h.1.step (.advance max), fun e he => ?_⟩
  have hbefore : e ∈ onWheel w :=
    (onWheel_advance w max).mem_iff.2 (List.mem_append_right _ he)
  obtain ⟨hpool, hx, -⟩ := h.2 e hbefore
  refine ⟨by rw [twAdvance_poolUsed]; exact hpool, hx, ?_⟩
  rcases h.tick hbefore max with ⟨-, -, -, hgone⟩ | ⟨-, -, hstay⟩
  · exact absurd he hgone.notMem
  · exact hstay

theorem Held.step (h : Held w) (op : TwOp) : Held (twStep w op) := by
  cases op with
  | advance max => exact h.advance max
  | add id expiry =>
    rw [twStep]
    cases hadd : twAdd w id expiry with
    | none => exact h
    | some w' => exact h.add hadd

theorem held_after (ops : List TwOp) : ∀ w : Tw, Held w → Held (twAfter w ops) := by
  induction ops with
  | nil => exact fun _ h => h
  | cons op ops ih => exact fun w h => ih _ (h.step op)

/-! ## How much room a tick needs -/

/-- The entries that the next tick will find due: their expiry is reached, and it is their slot's turn. -/
def dueNext (w : Tw) : List TwEntry :=
  (onWheel w).filter fun e =>
    decide (e.expiry ≤ (w.now + 1) % 2 ^ 64) && decide (e.expiry % twSlots = (w.now + 1) % twSlots)

/-- `dueNext` is read off the wheel before the tick; `twDue` is what the tick takes. -/
theorem Held.due (h : Held w) : (dueNext w).Perm (twDue w) := by
  have hslot : ∀ e : TwEntry, slotFor e.expiry 0 = slotFor (twStepClock w).now 0 ↔
      e.expiry % twSlots = (w.now + 1) % twSlots := by
    intro e
    rw [slotFor_zero, slotFor_zero, twStepClock_now, twSlots]
    omega
  have hdue : ∀ e ∈ twDue w, (decide (e.expiry ≤ (w.now + 1) % 2 ^ 64) &&
      decide (e.expiry % twSlots = (w.now + 1) % twSlots)) = true := by
    intro e he
    have hon : e ∈ onWheel w := (onWheel_advance w 0).mem_iff.2 (List.mem_append_left _ he)
    rcases h.tick hon 0 with ⟨hle, hs, -, -⟩ | ⟨-, hnone, -⟩
    · rw [twStepClock_now] at hle
      rw [Bool.and_eq_true, decide_eq_true_eq, decide_eq_true_eq]
      exact ⟨hle, (hslot e).1 hs⟩
    · have hmem : e ∈ (twDue w).filter (same e) := List.mem_filter.2 ⟨he, same_self e⟩
      rw [hnone] at hmem
      cases hmem
  have hstay : ∀ e ∈ onWheel (twAdvance w 0).1, ¬(decide (e.expiry ≤ (w.now + 1) % 2 ^ 64) &&
      decide (e.expiry % twSlots = (w.now + 1) % twSlots)) = true := by
    intro e he hd
    have hon : e ∈ onWheel w := (onWheel_advance w 0).mem_iff.2 (List.mem_append_right _ he)
    rcases h.tick hon 0 with ⟨-, -, -, hgone⟩ | ⟨hnot, -, -⟩
    · exact hgone.notMem he
    · rw [Bool.and_eq_true, decide_eq_true_eq, decide_eq_true_eq, ← twStepClock_now] at hd
      exact hnot ⟨hd.1, (hslot e).2 hd.2⟩
  have hsplit := (onWheel_advance w 0).filter fun e => decide (e.expiry ≤ (w.now + 1) % 2 ^ 64) &&
    decide (e.expiry % twSlots = (w.now + 1) % twSlots)
  rw [List.filter_append, List.filter_eq_self.2 hdue, List.filter_eq_nil_iff.2 hstay, List.append_nil] at hsplit
  exact hsplit

/-- The call has room for every id it has to report. -/
def HasRoom (w : Tw) : TwOp → Prop
  | .add _ _ => True
  | .advance max => (dueNext w).length ≤ max

theorem Held.roomFor : ∀ (ops : List TwOp) (w : Tw), Held w → (Each twStep HasRoom w ops ↔ RoomFor w ops)
  | [], _, _ => Iff.rfl
  | .add id expiry :: ops, w, h => by
    rw [RoomFor, ← Held.roomFor ops _ (h.step (.add id expiry))]
    exact ⟨And.right, And.intro trivial⟩
  | .advance max :: ops, w, h => by
    rw [RoomFor, ← h.due.length_eq, ← Held.roomFor ops _ (h.advance max)]
    exact Iff.rfl

/-! ## What is accepted, reported and lost -/

/-- The timers that the calls added. -/
def twAccepted : Tw → List TwOp → List TwEntry
  | _, [] => []
  | w, .add id expiry :: ops =>
    ((twAdd w id expiry).toList.map fun _ => ⟨w.poolUsed, id, expiry.toNat⟩) ++
      twAccepted (twStep w (.add id expiry)) ops
  | w, .advance max :: ops => twAccepted (twStep w (.advance max)) ops

/-- The timers that the calls reported. -/
def twReported (w : Tw) (ops : List TwOp) : List TwEntry := (twCalls w ops).flatMap TwCall.reported

/-- The timers that were due in a call and found no room in its array. -/
def twLost : Tw → List TwOp → List TwEntry
  | _, [] => []
  | w, .add id expiry :: ops => twLost (twStep w (.add id expiry)) ops
  | w, .advance max :: ops => (twDue w).drop max ++ twLost (twAdvance w max).1 ops

theorem twReported_advance (w : Tw) (max : Nat) (ops : List TwOp) :
    twReported w (.advance max :: ops) = (twDue w).take max ++ twReported (twAdvance w max).1 ops := by
  rw [twReported, twCalls, List.flatMap_cons, twAdvance_reported, twReported]

/-- **Every timer is accounted for**: it is reported, lost or still on the wheel. -/
theorem accounts : ∀ (ops : List TwOp) (w : Tw), (twAccepted w ops ++ onWheel w).Perm
    (twReported w ops ++ twLost w ops ++ onWheel (twAfter w ops))
  | [], _ => List.Perm.refl _
  | .add id expiry :: ops, w => by
    have hrest := accounts ops (twStep w (.add id expiry))
    refine List.Perm.trans ?_ hrest
    rw [twAccepted, List.append_assoc]
    cases hadd : twAdd w id expiry with
    | none => simp [twStep, hadd]
    | some w' =>
      simp only [twStep, hadd, Option.getD_some, Option.toList_some, List.map_cons, List.map_nil]
      refine (@List.perm_middle _ _ (twAccepted w' ops) (onWheel w)).symm.trans ?_
      exact (onWheel_add hadd).symm.append_left _
  | .advance max :: ops, w => by
    have hrest := accounts ops (twAdvance w max).1
    rw [twReported_advance, twLost, twAccepted]
    refine ((onWheel_advance w max).append_left _).trans ?_
    rw [← List.append_assoc]
    refine (List.perm_append_comm.append_right _).trans ?_
    rw [List.append_assoc]
    refine (hrest.append_left _).trans ?_
    conv_lhs => rw [← List.take_append_drop max (twDue w)]
    simp only [List.append_assoc]
    refine List.Perm.append_left _ ?_
    rw [← List.append_assoc, ← List.append_assoc (twReported _ _)]
    exact List.perm_append_comm.append_right _

theorem lost_eq_nil : ∀ (ops : List TwOp) (w : Tw), twLost w ops = [] ↔ RoomFor w ops
  | [], _ => by simp [twLost, RoomFor]
  | .add id expiry :: ops, w => by rw [twLost, RoomFor, lost_eq_nil ops]
  | .advance max :: ops, w => by
    rw [twLost, RoomFor, List.append_eq_nil_iff, List.drop_eq_nil_iff, lost_eq_nil ops]

theorem pending_step (h : w.pending = (onWheel w).length) (op : TwOp) :
    (twStep w op).pending = (onWheel (twStep w op)).length := by
  cases op with
  | advance max =>
    have hlen := (onWheel_advance w max).length_eq
    rw [List.length_append] at hlen
    rw [twStep, twAdvance_pending, h]
    omega
  | add id expiry =>
    rw [twStep]
    cases hadd : twAdd w id expiry with
    | none => exact h
    | some w' =>
      rw [Option.getD_some, (onWheel_add hadd).length_eq, List.length_cons, ← h, twAdd_some hadd]

theorem pending_after (ops : List TwOp) : ∀ w : Tw, w.pending = (onWheel w).length →
    (twAfter w ops).pending = (onWheel (twAfter w ops)).length := by
  induction ops with
  | nil => exact fun _ h => h
  | cons op ops ih => exact fun w h => ih _ (pending_step h op)

/-! ## In the end -/

theorem mem_reported_of_call {ops : List TwOp} {c : TwCall} {n : Nat} (hc : (twCalls w ops)[n]? = some c)
    (h : c.reported.filter (same e) = [e]) : e ∈ twReported w ops := by
  have he : e ∈ c.reported.filter (same e) := by rw [h]; exact List.mem_singleton_self e
  exact List.mem_flatMap.2 ⟨c, List.mem_of_getElem? hc, (List.mem_filter.1 he).1⟩

/-- An armed timer is reported by the tick that reaches its expiry, if there are that many ticks. -/
theorem Armed.reported {ops : List TwOp} (h : Armed w e) (hx : e.expiry < 2 ^ 64) (hp : e.pool < w.poolUsed)
    (hroom : RoomFor w ops) (hn : e.expiry - w.now ≤ (twCalls w ops).length) : e ∈ twReported w ops := by
  have hlt : w.now < e.expiry := by obtain ⟨l, -, -, hah⟩ := h; exact hah.lt
  have hlen : e.expiry - w.now - 1 < (twCalls w ops).length := by omega
  refine mem_reported_of_call (List.getElem?_eq_getElem hlen) ?_
  rw [calls_armed hx ops w h hp hroom _ _ (List.getElem?_eq_getElem hlen), if_pos (by omega)]

/-- A parked timer is reported within one turn of the lowest level, or armed. -/
theorem Parked.reported (hx : e.expiry < 2 ^ 64) : ∀ (ops : List TwOp) (k : Nat) (w : Tw), Parked w e →
    e.pool < w.poolUsed → RoomFor w ops → (w.now + 1 + k) % 64 = e.expiry % 64 →
    k + 1 + 2 ^ 64 ≤ (twCalls w ops).length → e ∈ twReported w ops
  | [], k, _, _, _, _, _, hn => by simp [twCalls] at hn
  | .add id expiry :: ops, k, w, h, hp, hr, hk, hn => by
    have h' : Parked (twStep w (.add id expiry)) e := by
      rw [twStep]
      cases hadd : twAdd w id expiry with
      | none => exact h
      | some w' => exact h.add hp hadd
    refine Parked.reported hx ops k _ h' (lt_of_lt_of_le hp (twStep_add_poolUsed w id expiry)) hr ?_ hn
    rw [twStep_add_now, hk]
  | .advance max :: ops, k, w, h, hp, hr, hk, hn => by
    rw [twCalls, List.length_cons] at hn
    have hp' : e.pool < (twAdvance w max).1.poolUsed := by rw [twAdvance_poolUsed]; exact hp
    rw [twReported_advance, List.take_of_length_le hr.1]
    by_cases hs : slotFor e.expiry 0 = slotFor (twStepClock w).now 0
    · rcases h.comes hs max with ⟨-, hone, -⟩ | ⟨-, -, harm⟩
      · have he : e ∈ (twDue w).filter (same e) := by rw [hone]; exact List.mem_singleton_self e
        exact List.mem_append_left _ (List.mem_filter.1 he).1
      · exact List.mem_append_right _ (harm.reported hx hp' hr.2 (by omega))
    · refine List.mem_append_right _ ?_
      rw [slotFor_zero, slotFor_zero, twStepClock_now] at hs
      have hclock : (twAdvance w max).1.now = (w.now + 1) % 2 ^ 64 := by rw [twAdvance_now, twStepClock_now]
      cases k with
      | zero => omega
      | succ k =>
        refine Parked.reported hx ops k _ (h.stays ?_ max).2 hp' hr.2 (by omega) (by omega)
        rw [slotFor_zero, slotFor_zero, twStepClock_now]
        exact hs

/-- **Every timer on the wheel is reported in the end**, if there is always room. -/
theorem Held.reported (h : Held w) (he : e ∈ onWheel w) {ops : List TwOp} (hroom : RoomFor w ops)
    (hn : 64 + 2 ^ 64 ≤ (twCalls w ops).length) : e ∈ twReported w ops := by
  obtain ⟨hpool, hx, ha | hp⟩ := h.2 e he
  · exact ha.reported hx hpool hroom (by omega)
  · refine hp.reported hx ops ((e.expiry % 64 + 63 - w.now % 64) % 64) w hpool hroom ?_ ?_ <;> omega

theorem twReported_append (ops post : List TwOp) : ∀ w : Tw,
    twReported w (ops ++ post) = twReported w ops ++ twReported (twAfter w ops) post := by
  induction ops with
  | nil => exact fun _ => rfl
  | cons op ops ih =>
    intro w
    cases op with
    | add id expiry => exact ih _
    | advance max =>
      rw [List.cons_append, twReported_advance, twReported_advance, ih, List.append_assoc]
      rfl

/-- **No timer is lost exactly if there is always room.**  The ticks of a run were all given arrays with
room for what was due if and only if `pending` counts the timers accepted and not yet reported; and then
every accepted timer is reported once enough further ticks with room are advanced. -/
theorem timers_kept_iff (ops : List TwOp) : Each twStep HasRoom twInit ops ↔
      (twAfter twInit ops).pending + (twReported twInit ops).length = (twAccepted twInit ops).length ∧
        ∀ e ∈ twAccepted twInit ops, ∃ n, ∀ post, Each twStep HasRoom (twAfter twInit ops) post →
          n ≤ (twCalls (twAfter twInit ops) post).length → e ∈ twReported twInit (ops ++ post) := by
  have hheld := held_after ops twInit held_init
  have hempty : onWheel twInit = [] := List.flatMap_eq_nil_iff.2 fun _ _ => rfl
  have hperm := accounts ops twInit
  have hlen := hperm.length_eq
  have hpend := pending_after ops twInit (by rw [hempty]; rfl)
  rw [hempty, List.append_nil] at hperm
  simp only [hempty, List.length_append, List.length_nil] at hlen
  rw [Held.roomFor ops twInit held_init, ← lost_eq_nil]
  constructor
  · intro hlost
    rw [hlost, List.length_nil] at hlen
    refine ⟨by omega, fun e he => ⟨64 + 2 ^ 64, fun post hpost hn => ?_⟩⟩
    rw [twReported_append]
    rw [hlost, List.append_nil] at hperm
    rcases List.mem_append.mp (hperm.mem_iff.1 he) with hrep | hon
    · exact List.mem_append_left _ hrep
    · exact List.mem_append_right _
        (hheld.reported hon ((Held.roomFor post _ hheld).1 hpost) hn)
  · rintro ⟨hcount, -⟩
    exact List.length_eq_zero_iff.1 (by omega)

/-- Two timers that are due on the same tick, and an array with room for one: the other is gone. -/
theorem second_timer_lost : ∃ ops : List TwOp, (∀ max, TwOp.advance max ∈ ops → 1 ≤ max) ∧
      (twAfter twInit ops).pending + (twReported twInit ops).length ≠ (twAccepted twInit ops).length ∧
      ∃ e ∈ twAccepted twInit ops, ∀ post, e ∉ twReported twInit (ops ++ post) := by
  refine ⟨[.add 7 1, .add 8 1, .advance 1], by simp, by decide, ⟨0, 7, 1⟩, by decide, fun post hmem => ?_⟩
  have hheld := held_after [.add 7 1, .add 8 1] twInit held_init
  rcases hheld.tick (e := ⟨0, 7, 1⟩) (by decide) 1 with ⟨-, -, -, hgone⟩ | ⟨hnot, -, -⟩
  · rw [twReported_append, List.mem_append] at hmem
    rcases hmem with hmem | hmem
    · exact absurd hmem (by decide)
    · obtain ⟨c, hc, he⟩ := List.mem_flatMap.1 hmem
      have hnone := calls_gone post _ hgone (by decide) c hc
      exact List.filter_eq_nil_iff.1 hnone _ he (same_self _)
  · exact hnot (by decide)

/-! ## Due at once -/

theorem slot_next (now : Nat) : slotFor now 0 ≠ slotFor ((now + 1) % 2 ^ 64) 0 := by
  rw [slotFor_zero, slotFor_zero]
  omega

/-- **A timer that is due at once is never reported by the next tick**, whatever the wheel: the slot it is
put in is the one that has just been swept. -/
theorem immediate_not_next (ops : List TwOp) (id expiry : UInt64) (max : Nat) (w' : Tw)
    (hadd : twAdd (twAfter twInit ops) id expiry = some w') (hnow : expiry.toNat = (twAfter twInit ops).now) :
    ⟨(twAfter twInit ops).poolUsed, id, expiry.toNat⟩ ∉ (twAdvance w' max).2 := by
  have hpark := parked_of_add (poolFresh_after ops twInit poolFresh_init) hadd hnow
  have hclock : (twStepClock w').now = (expiry.toNat + 1) % 2 ^ 64 := by
    rw [twStepClock_now, twAdd_some hadd, hnow]
  obtain ⟨hnone, -⟩ := hpark.stays (by rw [hclock]; exact slot_next _) max
  intro hmem
  rw [twAdvance_reported] at hmem
  exact List.filter_eq_nil_iff.1 hnone _ (List.mem_of_mem_take hmem) (same_self _)

/-- On a wheel that has ticked once. -/
theorem immediate_not_next_one : ∃ w', twAdd (twAfter twInit [.advance 4]) 7 1 = some w' ∧
    ⟨0, 7, 1⟩ ∉ (twAdvance w' 4).2 :=
  ⟨_, rfl, immediate_not_next [.advance 4] 7 1 4 _ rfl rfl⟩

/-- A timer added to the fresh wheel for the tick it stands on: the next tick reports nothing. -/
theorem immediate_waits : ∃ w', twAdd twInit 7 0 = some w' ∧ (0 : UInt64).toNat = twInit.now ∧
    (twAdvance w' 4).2.map TwEntry.id = [] ∧ (twAdvance w' 4).1.pending = 1 :=
  ⟨_, rfl, rfl, by decide, by decide⟩

end WuBuOS.TimerWheel
