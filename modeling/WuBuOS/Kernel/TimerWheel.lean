import WuBuOS.Lib.Buckets
import WuBuOS.Lib.Runs
import Mathlib.Tactic.IntervalCases

/-!
# The hierarchical timer wheel

`kernel/timer_wheel.c` keeps pending timers in six levels of sixty-four slots.  A timer `64^l` or
more ticks away is filed at level `l`, in the slot named by six bits of its absolute expiry, and
each time the clock reaches a multiple of `64^l` one slot of level `l` is *cascaded*: emptied, and
each of its entries filed again from the clock's present position.  Level 0 is the one that fires.

The slots are intrusive singly linked lists of entries of a pool that is handed out once and never
recycled; the code only ever pushes an entry on the front of a slot or takes a slot away whole, so
a slot is modelled as the list of its entries.  An entry keeps its position in the pool, which is
what a `tw_entry_t *` identifies it by: two timers may well carry the same `id`.

What the wheel is for is that a timer is reported once, by the tick that reaches its expiry:
`advance_reports_exactly_once`.  The invariant is `Armed`, and the one thing to see in it is `Ahead`: at
its level, an entry's slot number counts strictly ahead of the clock's, and by at most one turn of
the wheel — except on the top level, where it may be any number of turns ahead and is simply filed
in the same slot again each time round.
-/

namespace WuBuOS.TimerWheel

open Buckets

/-! ## The model -/

def twLevels : Nat := 6

def twSlots : Nat := 64

def twMaxEntries : Nat := 256

/-- `tw_entry_t`, without its `next`: the list a slot is holds the entries in order. -/
structure TwEntry where
  /-- The entry's index in the pool. -/
  pool : Nat
  /-- The caller's name for the timer. -/
  id : UInt64
  /-- The tick at which it is due. -/
  expiry : Nat
  deriving DecidableEq, Repr

/-- `tw_t`. -/
structure Tw where
  /-- The clock, a 64-bit counter. -/
  now : Nat
  /-- How many entries are on the wheel. -/
  pending : Nat
  /-- How many entries have been refiled so far. -/
  cascades : Nat
  /-- The slots, by level and position. -/
  slots : Nat × Nat → List TwEntry
  /-- How many pool entries have been handed out. -/
  poolUsed : Nat

def twInit : Tw := { now := 0, pending := 0, cascades := 0, slots := fun _ => [], poolUsed := 0 }

/-- The loop of `level_for`, with the levels it has left as fuel. -/
def levelLoop (delta : Nat) : Nat → Nat → Nat → Nat
  | 0, level, _ => level
  | fuel + 1, level, span =>
    if level + 1 < twLevels ∧ span ≤ delta then levelLoop delta fuel (level + 1) (span * twSlots)
    else level

/-- `level_for`: the level that files a timer `delta` ticks away. -/
def levelFor (delta : Nat) : Nat := levelLoop delta twLevels 0 twSlots

/-- The slot of `level` that holds a timer due at `expiry`: six bits of the absolute expiry. -/
def slotFor (expiry level : Nat) : Nat := (expiry >>> (6 * level)) &&& (twSlots - 1)

/-- Where an entry is filed when the clock reads `now`.  An entry that is already due counts as
zero ticks away, which is how `cascade` computes it. -/
def dest (now : Nat) (e : TwEntry) : Nat × Nat :=
  let level := levelFor (if now < e.expiry then e.expiry - now else 0)
  (level, slotFor e.expiry level)

/-- `tw_add`: `none` is the return value `-1`, which leaves the wheel alone. -/
def twAdd (w : Tw) (id expiry : UInt64) : Option Tw :=
  if expiry.toNat < w.now then none
  else if twMaxEntries ≤ w.poolUsed then none
  else
    let e : TwEntry := ⟨w.poolUsed, id, expiry.toNat⟩
    some { w with
      slots := push w.slots (dest w.now e) e
      poolUsed := w.poolUsed + 1
      pending := w.pending + 1 }

/-- `cascade`: take one slot away and file its entries again. -/
def cascade (w : Tw) (level slot : Nat) : Tw :=
  { w with
    slots := redistribute (dest w.now) w.slots (level, slot)
    cascades := w.cascades + (w.slots (level, slot)).length }

/-- One round of the level loop of `tw_advance`: cascade `l` if the clock is on its boundary. -/
def cascadeLevel (w : Tw) (l : Nat) : Tw :=
  if w.now &&& (1 <<< (6 * l) - 1) = 0 then cascade w l (slotFor w.now l) else w

/-- `tw_advance` up to the firing of level 0: step the clock, then cascade from level 1 up. -/
def twStepClock (w : Tw) : Tw :=
  (List.range' 1 (twLevels - 1)).foldl cascadeLevel { w with now := (w.now + 1) % 2 ^ 64 }

/-- One round of the firing loop: report `e` if it is due and there is room in the caller's array,
file it again if it is not due.  An entry that is due and finds no room is dropped. -/
def fireOne (max : Nat) (acc : Tw × List TwEntry) (e : TwEntry) : Tw × List TwEntry :=
  if e.expiry ≤ acc.1.now then
    ({ acc.1 with pending := acc.1.pending - 1 },
      if acc.2.length < max then acc.2 ++ [e] else acc.2)
  else ({ acc.1 with slots := push acc.1.slots (dest acc.1.now e) e }, acc.2)

/-- `tw_advance`: the wheel after one tick, and the entries whose ids it stored in the caller's
array of size `max`. -/
def twAdvance (w : Tw) (max : Nat) : Tw × List TwEntry :=
  let w := twStepClock w
  let slot0 := w.now &&& (twSlots - 1)
  (w.slots (0, slot0)).foldl (fireOne max) ({ w with slots := clear w.slots (0, slot0) }, [])

/-- The entries a tick takes off the wheel as due, whether or not the caller's array has room. -/
def twDue (w : Tw) : List TwEntry :=
  let w := twStepClock w
  (w.slots (0, w.now &&& (twSlots - 1))).filter fun e => decide (e.expiry ≤ w.now)

/-! ## Levels and slots in arithmetic -/

theorem slotFor_eq (x l : Nat) : slotFor x l = x / 64 ^ l % 64 := by
  have h : (2 : Nat) ^ (6 * l) = 64 ^ l := by rw [Nat.pow_mul]
  rw [slotFor, Nat.shiftRight_eq_div_pow, h]
  exact Nat.and_two_pow_sub_one_eq_mod _ 6

theorem slotFor_zero (x : Nat) : slotFor x 0 = x % 64 := by simp [slotFor_eq]

/-- What the loop of `level_for` ends in, from any level it may be at: the distance reaches the
level's span and, below the top, falls short of the next. -/
theorem levelLoop_spec (d : Nat) : ∀ (fuel level : Nat), level < twLevels →
    twLevels ≤ level + fuel → (level = 0 ∨ 64 ^ level ≤ d) →
    levelLoop d fuel level (64 ^ (level + 1)) < twLevels ∧ (levelLoop d fuel level (64 ^ (level + 1)) = 0 ∨
        64 ^ levelLoop d fuel level (64 ^ (level + 1)) ≤ d) ∧
      (levelLoop d fuel level (64 ^ (level + 1)) + 1 < twLevels →
        d < 64 ^ (levelLoop d fuel level (64 ^ (level + 1)) + 1))
  | 0, level, hlt, hfuel, _ => by omega
  | fuel + 1, level, hlt, hfuel, h => by
    rw [levelLoop]
    split
    · rename_i hc
      exact levelLoop_spec d fuel (level + 1) hc.1 (by omega) (Or.inr hc.2)
    · rename_i hc
      exact ⟨hlt, h, fun h' => Nat.lt_of_not_le fun hd => hc ⟨h', hd⟩⟩

theorem levelFor_spec (d : Nat) : levelFor d < twLevels ∧ (levelFor d = 0 ∨ 64 ^ levelFor d ≤ d) ∧
    (levelFor d + 1 < twLevels → d < 64 ^ (levelFor d + 1)) :=
  levelLoop_spec d twLevels 0 (by decide) (by decide) (Or.inl rfl)

variable {e : TwEntry} {w w' : Tw} {id expiry : UInt64} {l now x : Nat}

theorem dest_of_lt (h : now < e.expiry) :
    dest now e = (levelFor (e.expiry - now), slotFor e.expiry (levelFor (e.expiry - now))) := by
  simp [dest, h]

/-- The clock is on the boundary of a level. -/
theorem boundary_iff (now l : Nat) : now &&& (1 <<< (6 * l) - 1) = 0 ↔ now % 64 ^ l = 0 := by
  have h : (2 : Nat) ^ (6 * l) = 64 ^ l := by rw [Nat.pow_mul]
  rw [Nat.one_shiftLeft, Nat.and_two_pow_sub_one_eq_mod, h]

/-! ## How far ahead of the clock an entry sits -/

/-- At level `l`, the slot count of `x` is ahead of the clock's, and below the top level by at most
one turn of the wheel. -/
def Ahead (l now x : Nat) : Prop :=
  now / 64 ^ l < x / 64 ^ l ∧ (l + 1 < twLevels → x / 64 ^ l ≤ now / 64 ^ l + 64)

theorem Ahead.lt (h : Ahead l now x) : now < x := by
  by_contra hx
  exact absurd h.1 (Nat.not_lt.2 (Nat.div_le_div_right (Nat.not_lt.1 hx)))

/-- Filing puts an entry ahead of the clock. -/
theorem ahead_levelFor (h : now < x) : Ahead (levelFor (x - now)) now x := by
  obtain ⟨hl, h0, h1⟩ := levelFor_spec (x - now)
  generalize levelFor (x - now) = l at hl h0 h1
  simp only [twLevels] at hl h1
  simp only [Ahead, twLevels]
  interval_cases l <;> omega

/-- A tick that does not cascade the slot of `x` leaves it ahead of the clock. -/
theorem Ahead.tick (hl : l < twLevels) (h : Ahead l now x)
    (hs : (now + 1) % 64 ^ l = 0 → slotFor (now + 1) l ≠ slotFor x l) : Ahead l (now + 1) x := by
  rw [slotFor_eq, slotFor_eq] at hs
  simp only [Ahead, twLevels] at *
  interval_cases l <;> omega

/-- A tick on the boundary of a level that finds `x` in the slot it cascades: below the top level
`x` is in the span that begins now, and on the top level it is there or whole turns away. -/
theorem Ahead.cascaded (hl : l < twLevels) (h : Ahead l now x)
    (hb : (now + 1) % 64 ^ l = 0) (hs : slotFor (now + 1) l = slotFor x l) :
    now + 1 ≤ x ∧ (x < now + 1 + 64 ^ l ∨ (l + 1 = twLevels ∧ now + 1 + 64 ^ twLevels ≤ x)) := by
  rw [slotFor_eq, slotFor_eq] at hs
  simp only [Ahead, twLevels] at *
  interval_cases l <;> omega

/-- Filing an entry again on a boundary, due now or later, leaves it ahead: of the new clock on the
levels above 0, and of the old one on level 0, which has yet to fire. -/
theorem ahead_refile (h : now + 1 ≤ x) : Ahead (levelFor (x - (now + 1)))
      (if 1 ≤ levelFor (x - (now + 1)) then now + 1 else now) x := by
  obtain ⟨hl, h0, h1⟩ := levelFor_spec (x - (now + 1))
  generalize levelFor (x - (now + 1)) = l at hl h0 h1
  simp only [twLevels] at hl h1
  simp only [Ahead, twLevels]
  split <;> interval_cases l <;> omega

theorem levelFor_lt_of_lt {d l : Nat} (h : d < 64 ^ l) : levelFor d < l ∨ levelFor d = 0 := by
  rcases (levelFor_spec d).2.1 with h0 | hle
  · exact Or.inr h0
  · exact Or.inl ((Nat.pow_lt_pow_iff_right (by decide)).mp (hle.trans_lt h))

theorem dest_of_le (h : now ≤ e.expiry) :
    dest now e = (levelFor (e.expiry - now), slotFor e.expiry (levelFor (e.expiry - now))) := by
  rcases Nat.eq_or_lt_of_le h with he | hlt
  · simp [dest, he]
  · exact dest_of_lt hlt

/-! ## The invariant of one entry -/

/-- The test that picks out the entry `e`: its place in the pool. -/
def same (e : TwEntry) : TwEntry → Bool := fun a => a.pool == e.pool

@[simp] theorem same_self (e : TwEntry) : same e e = true := by simp [same]

/-- The entry is on the wheel, in one slot and once, and ahead of the clock there. -/
def Armed (w : Tw) (e : TwEntry) : Prop :=
  ∃ l, l < twLevels ∧ OnlyAt (same e) w.slots e (l, slotFor e.expiry l) ∧ Ahead l w.now e.expiry

/-- The entry is not on the wheel. -/
def Gone (w : Tw) (e : TwEntry) : Prop := ∀ j, occ (same e) w.slots j = []

/-- The invariant inside a tick, when the levels from 1 up to `L` have been dealt with.  The clock
already reads `now + 1`; the levels still to come, and level 0, are ahead of the old clock. -/
def Midway (now L : Nat) (w : Tw) (e : TwEntry) : Prop :=
  w.now = now + 1 ∧ now + 1 ≤ e.expiry ∧ ∃ l, l < twLevels ∧
    OnlyAt (same e) w.slots e (l, slotFor e.expiry l) ∧
    Ahead l (if 1 ≤ l ∧ l < L then now + 1 else now) e.expiry

theorem cascade_slots (w : Tw) (l s : Nat) : (cascade w l s).slots = redistribute (dest w.now) w.slots (l, s) := rfl

theorem cascadeLevel_now (w : Tw) (l : Nat) : (cascadeLevel w l).now = w.now := by
  rw [cascadeLevel]; split <;> rfl

theorem cascadeLevel_poolUsed (w : Tw) (l : Nat) : (cascadeLevel w l).poolUsed = w.poolUsed := by
  rw [cascadeLevel]; split <;> rfl

/-- **One level of a tick keeps the invariant.** -/
theorem cascadeLevel_midway {now L : Nat} (h1 : 1 ≤ L) (hL : L < twLevels)
    (h : Midway now L w e) : Midway now (L + 1) (cascadeLevel w L) e := by
  obtain ⟨hnow, hle, l, hl, honly, hah⟩ := h
  refine ⟨by rw [cascadeLevel_now, hnow], hle, ?_⟩
  -- the entry is refiled exactly when its own level is on a boundary and its slot comes up
  by_cases hmove : l = L ∧ (now + 1) % 64 ^ L = 0 ∧ slotFor (now + 1) L = slotFor e.expiry L
  · obtain ⟨rfl, hb, hs⟩ := hmove
    rw [if_neg (by omega)] at hah
    obtain ⟨-, hspan⟩ := hah.cascaded hl hb hs
    have hmoved := honly.redistribute (dest (now + 1)) (l, slotFor (now + 1) l)
    rw [if_pos (by rw [hs]), dest_of_le hle] at hmoved
    refine ⟨levelFor (e.expiry - (now + 1)), (levelFor_spec _).1, ?_, ?_⟩
    · rw [cascadeLevel, hnow, if_pos ((boundary_iff _ _).2 hb), cascade_slots, hnow]
      exact hmoved
    · have hlow : 1 ≤ levelFor (e.expiry - (now + 1)) → levelFor (e.expiry - (now + 1)) < l + 1 := by
        intro hpos
        rcases hspan with hlt | ⟨htop, -⟩
        · rcases levelFor_lt_of_lt (d := e.expiry - (now + 1)) (l := l) (by omega) with h | h
          · omega
          · omega
        · have := (levelFor_spec (e.expiry - (now + 1))).1
          omega
      have hre := ahead_refile hle
      by_cases hpos : 1 ≤ levelFor (e.expiry - (now + 1))
      · rw [if_pos hpos] at hre
        rw [if_pos ⟨hpos, hlow hpos⟩]
        exact hre
      · rw [if_neg hpos] at hre
        rw [if_neg fun h => hpos h.1]
        exact hre
  · refine ⟨l, hl, ?_, ?_⟩
    · rw [cascadeLevel, hnow]
      split
      · rename_i hb
        have hstay := honly.redistribute (dest (now + 1)) (L, slotFor (now + 1) L)
        rw [if_neg fun hp => hmove ⟨(Prod.mk.inj hp).1, (boundary_iff _ _).1 hb, by
          rw [(Prod.mk.inj hp).1] at hp; exact (Prod.mk.inj hp).2.symm⟩] at hstay
        rw [cascade_slots, hnow]
        exact hstay
      · exact honly
    · by_cases hlL : l = L
      · subst hlL
        rw [if_neg (by omega)] at hah
        rw [if_pos (by omega)]
        exact hah.tick hl fun hb hs => hmove ⟨rfl, hb, hs⟩
      · have hiff : (1 ≤ l ∧ l < L + 1) ↔ (1 ≤ l ∧ l < L) := by omega
        simpa only [hiff] using hah

/-- The clock step and all the cascades of a tick. -/
theorem twStepClock_midway (hx : e.expiry < 2 ^ 64) (h : Armed w e) : Midway w.now twLevels (twStepClock w) e := by
  obtain ⟨l, hl, honly, hah⟩ := h
  have hlt : w.now < e.expiry := hah.lt
  have hmod : (w.now + 1) % 2 ^ 64 = w.now + 1 := Nat.mod_eq_of_lt (by omega)
  have hstart : Midway w.now 1 { w with now := (w.now + 1) % 2 ^ 64 } e :=
    ⟨hmod, hlt, l, hl, honly, by rw [if_neg (by omega)]; exact hah⟩
  have hfold : ∀ k, k ≤ twLevels - 1 → Midway w.now (1 + k)
      ((List.range' 1 k).foldl cascadeLevel { w with now := (w.now + 1) % 2 ^ 64 }) e := by
    intro k
    induction k with
    | zero => intro _; exact hstart
    | succ k ih =>
      intro hk
      rw [List.range'_1_concat, List.foldl_append]
      have hk' : 1 + k < twLevels := by simp only [twLevels] at hk ⊢; omega
      exact cascadeLevel_midway (L := 1 + k) (by omega) hk' (ih (by omega))
  exact hfold (twLevels - 1) (Nat.le_refl _)

/-! ## Firing -/

/-- The firing loop, in closed form: what it reports, and what it leaves on the wheel. -/
theorem fire_spec (max : Nat) (es : List TwEntry) : ∀ acc : Tw × List TwEntry,
    (es.foldl (fireOne max) acc).1.now = acc.1.now ∧
    (es.foldl (fireOne max) acc).1.poolUsed = acc.1.poolUsed ∧
    (es.foldl (fireOne max) acc).1.slots = distribute (dest acc.1.now)
      (es.filter fun e => !decide (e.expiry ≤ acc.1.now)) acc.1.slots ∧
    (es.foldl (fireOne max) acc).2 = acc.2 ++
      (es.filter fun e => decide (e.expiry ≤ acc.1.now)).take (max - acc.2.length) := by
  induction es with
  | nil => intro acc; simp [distribute]
  | cons e es ih =>
    intro acc
    rw [List.foldl_cons]
    by_cases hdue : e.expiry ≤ acc.1.now
    · obtain ⟨h1, h2, h3, h4⟩ := ih (fireOne max acc e)
      by_cases hroom : acc.2.length < max
      · rw [h1, h2, h3, h4]
        obtain ⟨m, rfl⟩ : ∃ m, max = acc.2.length + 1 + m := ⟨max - (acc.2.length + 1), by omega⟩
        have ht : acc.2.length + 1 + m - acc.2.length = m + 1 := by omega
        simp [fireOne, hdue, hroom, ht]
      · rw [h1, h2, h3, h4]
        have ht : max - acc.2.length = 0 := by omega
        simp [fireOne, hdue, hroom, ht]
    · obtain ⟨h1, h2, h3, h4⟩ := ih (fireOne max acc e)
      rw [h1, h2, h3, h4]
      simp [fireOne, hdue, distribute]

/-- What a tick reports: the due entries, as far as the caller's array has room. -/
theorem twAdvance_reported (w : Tw) (max : Nat) : (twAdvance w max).2 = (twDue w).take max := by
  rw [twAdvance, (fire_spec max _ _).2.2.2]
  simp [twDue]

theorem twAdvance_now (w : Tw) (max : Nat) : (twAdvance w max).1.now = (twStepClock w).now := by
  rw [twAdvance, (fire_spec max _ _).1]

theorem twStepClock_now (w : Tw) : (twStepClock w).now = (w.now + 1) % 2 ^ 64 := by
  have h : ∀ (ls : List Nat) (w : Tw), (ls.foldl cascadeLevel w).now = w.now := by
    intro ls
    induction ls with
    | nil => intro w; rfl
    | cons l ls ih => intro w; rw [List.foldl_cons, ih, cascadeLevel_now]
  exact h _ _

/-! ## One tick, as one entry sees it -/

/-- The slot that fires, in the words of `slotFor`. -/
theorem slot_zero (x : Nat) : x &&& (twSlots - 1) = slotFor x 0 := by simp [slotFor]

/-- Where the occurrences of an entry are after a tick: those of the slot that fired are handed out
again if they are not due, and the others have not moved. -/
theorem occ_twAdvance (p : TwEntry → Bool) (w : Tw) (max : Nat) (j : Nat × Nat) : occ p (twAdvance w max).1.slots j =
      (((occ p (twStepClock w).slots (0, slotFor (twStepClock w).now 0)).filter
          fun e => !decide (e.expiry ≤ (twStepClock w).now)).filter
            fun e => decide (dest (twStepClock w).now e = j)).reverse ++
        if j = (0, slotFor (twStepClock w).now 0) then [] else occ p (twStepClock w).slots j := by
  rw [twAdvance, (fire_spec max _ _).2.2.1, slot_zero, occ_distribute, occ_clear, List.filter_comm p]
  rfl

/-- The occurrences of an entry among those a tick takes off as due. -/
theorem filter_twDue (p : TwEntry → Bool) (w : Tw) : (twDue w).filter p =
    (occ p (twStepClock w).slots (0, slotFor (twStepClock w).now 0)).filter
      fun e => decide (e.expiry ≤ (twStepClock w).now) := by
  rw [twDue, slot_zero, occ, List.filter_comm]

/-- **The tick that reaches an entry's expiry** takes it off the wheel as due, once. -/
theorem armed_due (hx : e.expiry < 2 ^ 64) (h : Armed w e) (hnow : w.now + 1 = e.expiry) (max : Nat) :
    (twDue w).filter (same e) = [e] ∧ Gone (twAdvance w max).1 e := by
  obtain ⟨hclock, -, l, hl, honly, hah⟩ := twStepClock_midway hx h
  -- above level 0 the entry would have to be later than the clock
  have hl0 : l = 0 := by
    by_contra hne
    rw [if_pos ⟨by omega, hl⟩] at hah
    exact absurd hah.lt (by omega)
  subst hl0
  have hslot : slotFor (twStepClock w).now 0 = slotFor e.expiry 0 := by rw [hclock, hnow]
  have hdue : e.expiry ≤ (twStepClock w).now := by omega
  constructor
  · rw [filter_twDue, hslot, honly, if_pos rfl]
    simp [hdue]
  · intro j
    rw [occ_twAdvance, hslot, honly, honly, if_pos rfl]
    by_cases hj : j = (0, slotFor e.expiry 0) <;> simp [hj, hdue]

/-- **Every earlier tick** does not report the entry and keeps it armed. -/
theorem armed_not_due (hx : e.expiry < 2 ^ 64) (h : Armed w e) (hnow : w.now + 1 ≠ e.expiry) (max : Nat) :
    (twDue w).filter (same e) = [] ∧ Armed (twAdvance w max).1 e := by
  obtain ⟨hclock, hle, l, hl, honly, hah⟩ := twStepClock_midway hx h
  -- on level 0, being at most one turn ahead, the entry's slot is not the one that fires
  have hother : (l, slotFor e.expiry l) ≠ (0, slotFor (twStepClock w).now 0) := by
    intro hp
    obtain ⟨rfl, hs⟩ := Prod.mk.inj hp
    rw [if_neg (by omega)] at hah
    simp only [Ahead, twLevels, Nat.pow_zero, Nat.div_one] at hah
    rw [slotFor_zero, slotFor_zero, hclock] at hs
    omega
  have hnone : occ (same e) (twStepClock w).slots (0, slotFor (twStepClock w).now 0) = [] := by
    rw [honly, if_neg (Ne.symm hother)]
  refine ⟨by rw [filter_twDue, hnone]; rfl, l, hl, ?_, ?_⟩
  · intro j
    rw [occ_twAdvance, hnone, honly j]
    by_cases hj : j = (0, slotFor (twStepClock w).now 0)
    · simp [hj, Ne.symm hother]
    · simp [hj]
  · rw [twAdvance_now, hclock]
    by_cases hpos : 1 ≤ l
    · rwa [if_pos ⟨hpos, hl⟩] at hah
    · obtain rfl : l = 0 := by omega
      rw [if_neg (by omega)] at hah
      refine hah.tick hl fun _ hs => hother ?_
      rw [hclock, hs]

/-! ## What an entry that is not on the wheel sees -/

theorem Gone.cascadeLevel (h : Gone w e) (l : Nat) : Gone (cascadeLevel w l) e := by
  rw [TimerWheel.cascadeLevel]
  split
  · intro j
    have hl : (w.slots (l, slotFor w.now l)).filter (same e) = [] := h _
    rw [cascade_slots, redistribute, occ_distribute, hl, occ_clear, h j]
    simp
  · exact h

theorem Gone.stepClock (h : Gone w e) : Gone (twStepClock w) e := by
  have hfold : ∀ (ls : List Nat) (w : Tw), Gone w e → Gone (ls.foldl TimerWheel.cascadeLevel w) e := by
    intro ls
    induction ls with
    | nil => intro w h; exact h
    | cons l ls ih => intro w h; exact ih _ (h.cascadeLevel l)
  exact hfold _ _ h

/-- An entry that is not on the wheel is not reported, and does not come back. -/
theorem Gone.advance (h : Gone w e) (max : Nat) : (twDue w).filter (same e) = [] ∧ Gone (twAdvance w max).1 e := by
  constructor
  · rw [filter_twDue, h.stepClock]; rfl
  · intro j
    rw [occ_twAdvance, h.stepClock, h.stepClock]
    simp

/-! ## Adding -/

theorem twAdd_some (h : twAdd w id expiry = some w') : w' = { w with
      slots := push w.slots (dest w.now ⟨w.poolUsed, id, expiry.toNat⟩)
        ⟨w.poolUsed, id, expiry.toNat⟩
      poolUsed := w.poolUsed + 1
      pending := w.pending + 1 } := by
  rw [twAdd] at h
  split at h
  · exact absurd h (by simp)
  · split at h
    · exact absurd h (by simp)
    · exact (Option.some_inj.1 h).symm

/-- The pool entries not handed out yet are not on the wheel. -/
def PoolFresh (w : Tw) : Prop := ∀ e : TwEntry, w.poolUsed ≤ e.pool → Gone w e

theorem Armed.add (h : Armed w e) (hpool : e.pool < w.poolUsed) (hadd : twAdd w id expiry = some w') : Armed w' e := by
  obtain ⟨l, hl, honly, hah⟩ := h
  obtain rfl := twAdd_some hadd
  exact ⟨l, hl, honly.push_of_not (by simp [same]; omega), hah⟩

theorem Gone.add (h : Gone w e) (hpool : e.pool ≠ w.poolUsed) (hadd : twAdd w id expiry = some w') : Gone w' e := by
  obtain rfl := twAdd_some hadd
  intro j
  have hne : same e ⟨w.poolUsed, id, expiry.toNat⟩ = false := by simpa [same] using Ne.symm hpool
  rw [occ_push, hne, h j]
  simp

/-- **Adding a timer that lies in the future arms it.** -/
theorem armed_of_add (hfresh : PoolFresh w) (hadd : twAdd w id expiry = some w') (hlt : w.now < expiry.toNat) :
    Armed w' ⟨w.poolUsed, id, expiry.toNat⟩ := by
  obtain rfl := twAdd_some hadd
  refine ⟨levelFor (expiry.toNat - w.now), (levelFor_spec _).1, ?_, ahead_levelFor hlt⟩
  rw [← dest_of_lt (e := ⟨w.poolUsed, id, expiry.toNat⟩) hlt]
  exact onlyAt_push _ (same_self _) (hfresh _ (Nat.le_refl _))

/-! ## Runs -/

/-- A call on the wheel. -/
inductive TwOp where
  /-- `tw_add(w, id, expiry)`. -/
  | add (id expiry : UInt64)
  /-- `tw_advance(w, out, max)`. -/
  | advance (max : Nat)

/-- The wheel after one call. -/
def twStep (w : Tw) : TwOp → Tw
  | .add id expiry => (twAdd w id expiry).getD w
  | .advance max => (twAdvance w max).1

/-- The wheel after a sequence of calls. -/
def twAfter (w : Tw) (ops : List TwOp) : Tw := ops.foldl twStep w

/-- What one `tw_advance` call shows its caller. -/
structure TwCall where
  /-- The clock after the call. -/
  now : Nat
  /-- The entries whose ids the call stored, in order. -/
  reported : List TwEntry

/-- The `tw_advance` calls of a sequence of calls, in order. -/
def twCalls : Tw → List TwOp → List TwCall
  | _, [] => []
  | w, .add id expiry :: ops => twCalls (twStep w (.add id expiry)) ops
  | w, .advance max :: ops =>
    ⟨(twAdvance w max).1.now, (twAdvance w max).2⟩ :: twCalls (twAdvance w max).1 ops

/-- Every `tw_advance` of the sequence is given an array with room for all that is due. -/
def RoomFor : Tw → List TwOp → Prop
  | _, [] => True
  | w, .add id expiry :: ops => RoomFor (twStep w (.add id expiry)) ops
  | w, .advance max :: ops => (twDue w).length ≤ max ∧ RoomFor (twAdvance w max).1 ops

theorem cascades_poolUsed (ls : List Nat) (w : Tw) : (ls.foldl cascadeLevel w).poolUsed = w.poolUsed := by
  induction ls generalizing w with
  | nil => rfl
  | cons l ls ih => rw [List.foldl_cons, ih, cascadeLevel_poolUsed]

theorem twAdvance_poolUsed (w : Tw) (max : Nat) : (twAdvance w max).1.poolUsed = w.poolUsed := by
  rw [twAdvance, (fire_spec max _ _).2.1]
  exact cascades_poolUsed _ _

theorem PoolFresh.step (h : PoolFresh w) (op : TwOp) : PoolFresh (twStep w op) := by
  intro e he
  cases op with
  | advance max =>
    rw [twStep, twAdvance_poolUsed] at he
    exact ((h e he).advance max).2
  | add id expiry =>
    cases hadd : twAdd w id expiry with
    | none =>
      simp only [twStep, hadd, Option.getD_none] at he ⊢
      exact h e he
    | some w' =>
      simp only [twStep, hadd, Option.getD_some] at he ⊢
      have hp : w'.poolUsed = w.poolUsed + 1 := by rw [twAdd_some hadd]
      exact (h e (by omega)).add (by omega) hadd

theorem poolFresh_after (ops : List TwOp) (w : Tw) (h : PoolFresh w) : PoolFresh (twAfter w ops) := by
  induction ops generalizing w with
  | nil => exact h
  | cons op ops ih => exact ih _ (h.step op)

theorem poolFresh_init : PoolFresh twInit := fun _ _ _ => rfl

theorem twStep_add_now (w : Tw) (id expiry : UInt64) : (twStep w (.add id expiry)).now = w.now := by
  rw [twStep]
  cases hadd : twAdd w id expiry with
  | none => rfl
  | some w' => rw [Option.getD_some, twAdd_some hadd]

theorem twStep_add_poolUsed (w : Tw) (id expiry : UInt64) : w.poolUsed ≤ (twStep w (.add id expiry)).poolUsed := by
  rw [twStep]
  cases hadd : twAdd w id expiry with
  | none => exact Nat.le_refl _
  | some w' => rw [Option.getD_some, twAdd_some hadd]; exact Nat.le_succ _

/-- An entry that is off the wheel is in no later report. -/
theorem calls_gone : ∀ (ops : List TwOp) (w : Tw), Gone w e → e.pool < w.poolUsed →
    ∀ c ∈ twCalls w ops, c.reported.filter (same e) = []
  | [], _, _, _, c, hc => by simp [twCalls] at hc
  | .add id expiry :: ops, w, hg, hp, c, hc => by
    refine calls_gone ops _ ?_ (lt_of_lt_of_le hp (twStep_add_poolUsed w id expiry)) c hc
    cases hadd : twAdd w id expiry with
    | none => simpa only [twStep, hadd, Option.getD_none] using hg
    | some w' => simpa only [twStep, hadd, Option.getD_some] using hg.add (by omega) hadd
  | .advance max :: ops, w, hg, hp, c, hc => by
    rcases List.mem_cons.1 hc with rfl | hc
    · have hsub : ((twAdvance w max).2.filter (same e)).Sublist ((twDue w).filter (same e)) := by
        rw [twAdvance_reported]
        exact (List.take_sublist _ _).filter _
      rw [(hg.advance max).1, List.sublist_nil] at hsub
      exact hsub
    · exact calls_gone ops _ (hg.advance max).2 (by rw [twAdvance_poolUsed]; exact hp) c hc

/-- The run lemma: from a state in which the entry is armed, the `n`-th tick reports it exactly if
it is the tick that reaches the expiry. -/
theorem calls_armed (hx : e.expiry < 2 ^ 64) : ∀ (ops : List TwOp) (w : Tw),
    Armed w e → e.pool < w.poolUsed → RoomFor w ops → ∀ (n : Nat) (c : TwCall),
    (twCalls w ops)[n]? = some c →
    c.reported.filter (same e) = if w.now + n + 1 = e.expiry then [e] else []
  | [], _, _, _, _, n, c, hc => by simp [twCalls] at hc
  | .add id expiry :: ops, w, ha, hp, hr, n, c, hc => by
    have ha' : Armed (twStep w (.add id expiry)) e := by
      cases hadd : twAdd w id expiry with
      | none => simpa only [twStep, hadd, Option.getD_none] using ha
      | some w' => simpa only [twStep, hadd, Option.getD_some] using ha.add hp hadd
    have hp' := lt_of_lt_of_le hp (twStep_add_poolUsed w id expiry)
    rw [calls_armed hx ops _ ha' hp' hr n c hc, twStep_add_now]
  | .advance max :: ops, w, ha, hp, hr, n, c, hc => by
    have hlt : w.now < e.expiry := by obtain ⟨l, -, -, hah⟩ := ha; exact hah.lt
    have hall : (twAdvance w max).2 = twDue w := by
      rw [twAdvance_reported, List.take_of_length_le hr.1]
    have hp' : e.pool < (twAdvance w max).1.poolUsed := by rw [twAdvance_poolUsed]; exact hp
    have hclock : (twAdvance w max).1.now = w.now + 1 := by
      rw [twAdvance_now, twStepClock_now, Nat.mod_eq_of_lt (by omega)]
    by_cases hnow : w.now + 1 = e.expiry
    · obtain ⟨hdue, hgone⟩ := armed_due hx ha hnow max
      cases n with
      | zero =>
        rw [twCalls, List.getElem?_cons_zero, Option.some_inj] at hc
        subst hc
        simp only [hall, hdue]
        rw [if_pos (by omega)]
      | succ n =>
        rw [twCalls, List.getElem?_cons_succ] at hc
        rw [calls_gone ops _ hgone hp' c (List.mem_of_getElem? hc), if_neg (by omega)]
    · obtain ⟨hdue, harm⟩ := armed_not_due hx ha hnow max
      cases n with
      | zero =>
        rw [twCalls, List.getElem?_cons_zero, Option.some_inj] at hc
        subst hc
        simp only [hall, hdue]
        rw [if_neg (by omega)]
      | succ n =>
        rw [twCalls, List.getElem?_cons_succ] at hc
        rw [calls_armed hx ops _ harm hp' hr.2 n c hc, hclock]
        congr 1
        rw [eq_iff_iff]
        omega

/-- The clock after the `n`-th tick. -/
theorem calls_now : ∀ (ops : List TwOp) (w : Tw) (n : Nat) (c : TwCall),
    (twCalls w ops)[n]? = some c → c.now = (w.now + n + 1) % 2 ^ 64
  | [], _, n, c, hc => by simp [twCalls] at hc
  | .add id expiry :: ops, w, n, c, hc => by
    rw [calls_now ops _ n c hc, twStep_add_now]
  | .advance max :: ops, w, 0, c, hc => by
    rw [twCalls, List.getElem?_cons_zero, Option.some_inj] at hc
    subst hc
    rw [Nat.add_zero]
    exact (twAdvance_now w max).trans (twStepClock_now w)
  | .advance max :: ops, w, n + 1, c, hc => by
    rw [twCalls, List.getElem?_cons_succ] at hc
    rw [calls_now ops _ n c hc, twAdvance_now, twStepClock_now]
    omega

/-- **Timer wheel exactness.**  Take any history `pre` of a wheel, a timer that `tw_add` accepts
with an expiry later than the clock, and any further calls `post`, each tick of which is given an
array with room for what is due.  The `n`-th tick of `post` reports the timer once if it is the
one that brings the clock to the expiry, and not at all otherwise — however far away the expiry
was, and even when the 64-bit clock has wrapped round to it again. -/
theorem advance_reports_exactly_once (pre post : List TwOp) (id expiry : UInt64) (w : Tw)
    (hadd : twAdd (twAfter twInit pre) id expiry = some w)
    (hlt : (twAfter twInit pre).now < expiry.toNat) (hroom : RoomFor w post)
    (n : Nat) (c : TwCall) (hc : (twCalls w post)[n]? = some c) :
    c.now = ((twAfter twInit pre).now + n + 1) % 2 ^ 64 ∧
      c.reported.filter (same ⟨(twAfter twInit pre).poolUsed, id, expiry.toNat⟩) =
        if (twAfter twInit pre).now + n + 1 = expiry.toNat then
          [⟨(twAfter twInit pre).poolUsed, id, expiry.toNat⟩]
        else [] := by
  have hnow : w.now = (twAfter twInit pre).now := by rw [twAdd_some hadd]
  have hpool : w.poolUsed = (twAfter twInit pre).poolUsed + 1 := by rw [twAdd_some hadd]
  have harm := armed_of_add (poolFresh_after pre twInit poolFresh_init) hadd hlt
  refine ⟨by rw [calls_now post w n c hc, hnow], ?_⟩
  rw [calls_armed expiry.toNat_lt post w harm (by simp only [hpool]; omega) hroom n c hc, hnow]

/-- A timer two ticks away is reported by the second tick. -/
theorem advance_reports_second_tick : ∃ w c, twAdd twInit 7 2 = some w ∧
    (twCalls w [.advance 4, .advance 4])[1]? = some c ∧ c.now = 2 ∧
    c.reported.filter (same ⟨0, 7, 2⟩) = [⟨0, 7, 2⟩] := by
  have h := advance_reports_exactly_once [] [.advance 4, .advance 4] 7 2 _ rfl (by decide)
    ⟨by decide, by decide, trivial⟩ 1 _ rfl
  exact ⟨_, _, rfl, rfl, h⟩

end WuBuOS.TimerWheel
