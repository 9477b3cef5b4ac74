import Mathlib.Data.List.Perm.Subperm
import Mathlib.Data.List.Rotate
import WuBuOS.Kernel.TaskRing

/-!
# The reaper

`task_reap` walks the ring from `g_head`, takes the dying tasks out of it, and frees them; the running one
is left.  The reaper follows `next` only, and the `prev` links it leaves behind are stale, so the rings of
this file are rings of `next` links: `TaskRing`.

Taking a task out is `reapOne_ring`.  As long as the head stays where it is, the walk takes out everything
it is to take out (`reapLoop_ring`); but once the head itself has been taken out, `g_head` is the task that
the walk goes on to, and the walk is over (`reapLoop_head`).
-/

namespace WuBuOS.Tasking

open Ring Runs
open Function (update)

variable {k k' k1 : Kernel} {a t p : Addr} {l pre post s : List Addr}

/-! ## Rings of `next` links -/

/-- The task is one that the reaper is to take: it is dying, and not the one that runs. -/
def Kernel.reaps (k : Kernel) (a : Addr) : Bool :=
  k.view CTask.state a == some .dying && a != k.gCurrent

/-- The tasks of the list, in this order, are on a ring that is entered at `g_head`.  Their ids have been
handed out, each once. -/
structure TaskRing (k : Kernel) (l : List Addr) : Prop where
  ring : ∃ prev, IsRing k.next prev l
  head : k.gHead = l.headD 0
  tasks : ∀ a ∈ l, a ∈ k.tasks
  null : 0 ∉ l
  ids : ∀ a ∈ l, ∀ c, k.heap a = some c → c.taskId < k.gNextId
  distinct : (l.map (k.view CTask.taskId)).Nodup

theorem TaskRing.nodup (hk : TaskRing k l) : l.Nodup := by
  obtain ⟨prev, hr⟩ := hk.ring
  exact hr.1

/-- There are no more tasks on the ring than ids that have been handed out. -/
theorem TaskRing.length_le (hk : TaskRing k l) : l.length ≤ k.gNextId := by
  have hsub : l.map (k.view CTask.taskId) ⊆ (List.range k.gNextId).map some := by
    intro x hx
    obtain ⟨a, ha, rfl⟩ := List.mem_map.1 hx
    obtain ⟨c, hc⟩ := Option.ne_none_iff_exists'.mp (hk.tasks a ha)
    rw [view_of_heap hc]
    exact List.mem_map_of_mem (List.mem_range.2 (hk.ids a ha c hc))
  simpa using (List.Nodup.subperm hk.distinct hsub).length_le

/-- The tasks in the heap. -/
theorem TaskRing.heap (hk : TaskRing k l) (ha : a ∈ l) : ∃ c, k.heap a = some c ∧ k.next a = c.next := by
  obtain ⟨c, hc⟩ := Option.ne_none_iff_exists'.mp (hk.tasks a ha)
  exact ⟨c, hc, next_of_heap hc⟩

/-! ## Taking a task out -/

/-- **The predecessor is found**: the walk from `p` along the links comes to `t`. -/
theorem findPrev_eq {prev : Addr → Addr} : ∀ {fuel : Nat} {s : List Addr} {p : Addr},
    (p :: s ++ [t]).IsChain (Linked k.next prev) → t ∉ s → (∀ a ∈ p :: s, a ∈ k.tasks) →
    s.length < fuel → findPrev k t fuel p = some ((p :: s).getLast (List.cons_ne_nil p s))
  | fuel + 1, [], p, hc, _, hmem, _ => by
    obtain ⟨c, hp⟩ := Option.ne_none_iff_exists'.mp (hmem p (List.mem_singleton_self p))
    have hnext : c.next = t := (next_of_heap hp).symm.trans (List.rel_of_isChain_cons_cons hc).1
    simp [findPrev, hp, hnext]
  | fuel + 1, b :: s, p, hc, ht, hmem, hfuel => by
    obtain ⟨c, hp⟩ := Option.ne_none_iff_exists'.mp (hmem p List.mem_cons_self)
    have hnext : c.next = b := (next_of_heap hp).symm.trans (List.rel_of_isChain_cons_cons hc).1
    have hbt : b ≠ t := fun h => ht (h ▸ List.mem_cons_self)
    have hshort : s.length < fuel := by
      rw [List.length_cons] at hfuel
      omega
    have ih := findPrev_eq (List.isChain_of_isChain_cons hc) (fun h => ht (List.mem_cons_of_mem b h))
      (fun a ha => hmem a (List.mem_cons_of_mem p ha)) hshort
    simp only [findPrev, hp, Option.bind_eq_bind, Option.bind_some, hnext, if_neg hbt, ih,
      List.getLast_cons (List.cons_ne_nil b s)]

/-- What the reaper leaves alone. -/
structure Spared (k k' : Kernel) (gone : Addr → Prop) : Prop where
  state : ∀ a, ¬gone a → k'.view CTask.state a = k.view CTask.state a
  current : k'.gCurrent = k.gCurrent

theorem Spared.reaps {gone : Addr → Prop} (h : Spared k k' gone) (ha : ¬gone a) : k'.reaps a = k.reaps a := by
  rw [Kernel.reaps, Kernel.reaps, h.state a ha, h.current]

/-- The task has been taken out behind its predecessor, and freed. -/
structure Unlinked (k k' : Kernel) (t z : Addr) : Prop extends Spared k k' (· = t) where
  next : ∀ a, a ≠ t → k'.next a = update k.next z (k.next t) a
  tasks : ∀ a, a ∈ k'.tasks ↔ a ∈ k.tasks ∧ a ≠ t
  head : k'.gHead = if k.gHead = t then (if k.next t = t then 0 else k.next t) else k.gHead
  taskId : ∀ a, a ≠ t → k'.view CTask.taskId a = k.view CTask.taskId a
  nextId : k'.gNextId = k.gNextId

theorem reapOne_unlinked {z : Addr} (hfind : findPrev k t k.gNextId t = some z) (hz : z ∈ k.tasks) :
    ∃ k', reapOne k t (k.next t) = some k' ∧ Unlinked k k' t z := by
  obtain ⟨c, hc⟩ := Option.ne_none_iff_exists'.1 hz
  obtain ⟨k1, hw⟩ : ∃ k1, k.write z (fun p => { p with next := k.next t }) = some k1 := by
    rw [Kernel.write, hc]
    exact ⟨_, rfl⟩
  obtain ⟨hn, -, htk, -⟩ := write_next hw
  have hview : ∀ {β : Type} (f : CTask → β) (hf : ∀ c, f { c with next := k.next t } = f c) {a : Addr}
      (head : Addr), a ≠ t → ({ k1 with gHead := head }.free t).view f a = k.view f a := by
    intro β f hf a head ha
    rw [← (write_settled (p := f) hf hw).view]
    simp [Kernel.view, Kernel.free, ha]
  refine ⟨{ k1 with
    gHead := if k.gHead = t then (if k.next t = t then 0 else k.next t) else k.gHead }.free t, ?_,
    ⟨fun a ha => hview _ (fun _ => rfl) _ ha, ?_⟩, fun a ha => ?_, fun a => ?_, rfl,
    fun a ha => hview _ (fun _ => rfl) _ ha, ?_⟩
  · rw [reapOne, hfind, Option.bind_eq_bind, Option.bind_some, hw]
    rfl
  · obtain ⟨_, -, rfl⟩ := write_eq_some.1 hw
    rfl
  · rw [((free_links _ t).1 a ha).1, ← hn]
    rfl
  · rw [(free_links _ t).2.1, ← htk]
    rfl
  · obtain ⟨_, -, rfl⟩ := write_eq_some.1 hw
    rfl

/-- A ring with one task taken out. -/
theorem TaskRing.unlinked (hk : TaskRing k (pre ++ t :: post)) {prev : Addr → Addr}
    (hrot : IsRing k.next prev (t :: (post ++ pre)))
    (hu : Unlinked k k' t ((t :: (post ++ pre)).getLast (List.cons_ne_nil t (post ++ pre)))) :
    TaskRing k' (pre ++ post) := by
  have ht : t ∉ post ++ pre := (List.nodup_cons.1 hrot.1).1
  have hne : ∀ a ∈ pre ++ post, a ≠ t := by
    rintro a ha rfl
    refine ht ?_
    rw [List.mem_append] at ha ⊢
    exact ha.symm
  have hold : ∀ a ∈ pre ++ post, a ∈ pre ++ t :: post := fun a ha => by
    simp only [List.mem_append, List.mem_cons] at ha ⊢
    tauto
  refine ⟨?_, ?_, fun a ha => (hu.tasks a).2 ⟨hk.tasks a (hold a ha), hne a ha⟩,
    fun h0 => hk.null (hold 0 h0), fun a ha c hca => ?_, ?_⟩
  · -- the ring is closed behind the task, unless that was the only one
    rcases List.eq_nil_or_concat (post ++ pre) with hnil | ⟨m, z, hm⟩
    · obtain ⟨rfl, rfl⟩ := List.append_eq_nil_iff.1 hnil
      exact ⟨prev, isRing_nil⟩
    · rw [List.concat_eq_append] at hm
      simp only [hm, List.getLast_cons, List.getLast_append_singleton, ne_eq, List.append_eq_nil_iff,
        List.cons_ne_self, and_false, not_false_eq_true] at hu
      rw [hm] at hrot ht
      have hprev : prev t = z := hrot.ends.2.1
      have hothers : ∀ a ∈ m ++ [z], k'.next a = update k.next z (k.next t) a :=
        fun a ha => hu.next a fun h => ht (h ▸ ha)
      refine ⟨update prev (k.next t) (prev t), @IsRing.rotate _ _ _ post _ ?_⟩
      rw [hm]
      refine hrot.erase (by simp) ?_ (fun a ha haz => ?_) ?_ fun a _ han => Function.update_of_ne han ..
      · rw [hprev, hothers z (by simp), Function.update_self]
      · rw [hprev] at haz
        rw [hothers a ha, Function.update_of_ne haz]
      · rw [Function.update_self]
  · have hkh := hk.head
    rw [hu.head]
    cases pre with
    | cons b pre =>
      have hb : k.gHead = b := hkh
      rw [if_neg (by rw [hb]; exact hne b List.mem_cons_self), hb]
      rfl
    | nil =>
      rw [if_pos (show k.gHead = t from hkh)]
      rw [List.append_nil] at hrot
      cases post with
      | nil =>
        rw [if_pos (isRing_singleton.1 hrot).1]
        rfl
      | cons b post =>
        have hb : k.next t = b := (List.rel_of_isChain_cons_cons hrot.2).1
        rw [if_neg (by rw [hb]; exact hne b List.mem_cons_self), hb]
        rfl
  · have hid := hu.taskId a (hne a ha)
    obtain ⟨c', hc', -⟩ := hk.heap (hold a ha)
    rw [view_of_heap hca, view_of_heap hc', Option.some_inj] at hid
    rw [hid, hu.nextId]
    exact hk.ids a (hold a ha) c' hc'
  · have hmap : (pre ++ post).map (k'.view CTask.taskId) = (pre ++ post).map (k.view CTask.taskId) :=
      List.map_congr_left fun a ha => hu.taskId a (hne a ha)
    rw [hmap]
    exact hk.distinct.sublist ((List.Sublist.append_left (List.sublist_cons_self t post) pre).map _)

/-- **A task is taken out of the ring.** -/
theorem reapOne_ring (hk : TaskRing k (pre ++ t :: post)) :
    ∃ k', reapOne k t (k.next t) = some k' ∧ TaskRing k' (pre ++ post) ∧ Spared k k' (· = t) := by
  obtain ⟨prev, hring⟩ := hk.ring
  have hrot : IsRing k.next prev (t :: (post ++ pre)) := hring.rotate
  have hmem : ∀ a ∈ t :: (post ++ pre), a ∈ k.tasks := by
    refine fun a ha => hk.tasks a ?_
    simp only [List.mem_cons, List.mem_append] at ha ⊢
    tauto
  have hlen := hk.length_le
  have hshort : (post ++ pre).length < k.gNextId := by
    simp only [List.length_append, List.length_cons] at hlen ⊢
    omega
  have hfind := findPrev_eq hrot.2 (List.nodup_cons.1 hrot.1).1 hmem hshort
  obtain ⟨k', hone, hu⟩ := reapOne_unlinked hfind (hmem _ (List.getLast_mem _))
  exact ⟨k', hone, hk.unlinked hrot hu, hu.toSpared⟩

/-! ## The walk -/

theorem reapVisit_spared {c : CTask} (hc : k.heap t = some c) (ht : k.reaps t = false) : reapVisit k t c = some k := by
  rw [reapVisit, if_neg]
  rintro ⟨hst, hcur⟩
  rw [Kernel.reaps, view_of_heap hc, hst] at ht
  simp [hcur] at ht

theorem reapVisit_taken {c : CTask} (hc : k.heap t = some c) (ht : k.reaps t = true) :
    reapVisit k t c = reapOne k t (k.next t) := by
  rw [Kernel.reaps, view_of_heap hc, Bool.and_eq_true, beq_iff_eq, bne_iff_ne, Option.some_inj] at ht
  rw [reapVisit, if_pos ht, next_of_heap hc]

/-- The link out of a task that is not the last one of the list, and of the last one. -/
theorem TaskRing.next_eq (hk : TaskRing k (pre ++ t :: post)) : k.next t = (post ++ pre ++ [t]).headD 0 := by
  obtain ⟨prev, hring⟩ := hk.ring
  have hrot : IsRing k.next prev (t :: (post ++ pre)) := hring.rotate
  have hc : (t :: (post ++ pre ++ [t])).IsChain (Linked k.next prev) := hrot.2
  cases h : post ++ pre ++ [t] with
  | nil => simp at h
  | cons b m =>
    rw [h] at hc
    exact (List.rel_of_isChain_cons_cons hc).1

/-- **The walk behind the head** takes out what it is to take out, and nothing else. -/
theorem reapLoop_ring : ∀ {fuel : Nat} {k : Kernel} {pre : List Addr} {t : Addr} {post : List Addr},
    TaskRing k (pre ++ t :: post) → (pre = [] → k.reaps t = false) → post.length < fuel →
    ∃ k', reapLoop fuel k t = some k' ∧ TaskRing k' (pre ++ (t :: post).filter fun a => !k.reaps a) := by
  intro fuel
  induction fuel with
  | zero => exact fun _ _ h => absurd h (Nat.not_lt_zero _)
  | succ fuel ih =>
    intro k pre t post hk hpre hfuel
    obtain ⟨c, hc, hnext⟩ := hk.heap (List.mem_append_right pre List.mem_cons_self)
    have hlink := hk.next_eq
    have hnd := hk.nodup
    cases ht : k.reaps t with
    | false =>
      have hvisit := reapVisit_spared hc ht
      have hhead : k.gHead = (pre ++ [t]).headD 0 := by
        rw [hk.head]
        cases pre <;> rfl
      have hk' : TaskRing k ((pre ++ [t]) ++ post) := by rwa [List.append_assoc, List.singleton_append]
      rw [List.filter_cons_of_pos (by simp [ht])]
      cases post with
      | nil =>
        refine ⟨k, ?_, by simpa using hk⟩
        rw [List.nil_append, ← hhead, hnext] at hlink
        simp [reapLoop, hc, hvisit, hlink]
      | cons b post =>
        have hshort : post.length < fuel := by
          rw [List.length_cons] at hfuel
          omega
        obtain ⟨k', hrun, hring⟩ := ih hk' (fun h => absurd h (by simp)) hshort
        refine ⟨k', ?_, by simpa [List.append_assoc] using hring⟩
        have hb : c.next = b := by rw [← hnext, hlink]; rfl
        have hbh : b ≠ k.gHead := by
          rw [hhead]
          intro h
          have hmem : b ∈ pre ++ [t] := by
            rw [h]
            cases pre <;> simp
          rw [← List.singleton_append, ← List.append_assoc] at hnd
          exact List.disjoint_of_nodup_append hnd hmem List.mem_cons_self
        have hh0 : k.gHead ≠ 0 := by
          intro h0
          refine hk.null ?_
          rw [← h0, hk.head]
          cases pre <;> simp
        simp [reapLoop, hc, hvisit, hb, hbh, hh0, hrun]
    | true =>
      obtain ⟨h, pre, rfl⟩ := List.exists_cons_of_ne_nil fun h0 => by
        rw [hpre h0] at ht
        cases ht
      obtain ⟨k1, hone, hk1, hsp⟩ := reapOne_ring hk
      have hvisit := (reapVisit_taken hc ht).trans hone
      have hhead : k1.gHead = h := hk1.head
      have hh0 : h ≠ 0 := fun h0 => hk.null (h0 ▸ List.mem_cons_self)
      rw [List.filter_cons_of_neg (by simp [ht])]
      cases post with
      | nil =>
        refine ⟨k1, ?_, by simpa using hk1⟩
        have hb : c.next = h := by rw [← hnext, hlink]; rfl
        simp [reapLoop, hc, hvisit, hb, hhead]
      | cons b post =>
        have hsame : (b :: post).filter (fun a => !k1.reaps a) = (b :: post).filter fun a => !k.reaps a := by
          refine List.filter_congr fun a ha => ?_
          rw [hsp.reaps]
          rintro rfl
          exact (List.nodup_cons.1 (List.nodup_append.1 hnd).2.1).1 ha
        have hshort : post.length < fuel := by
          rw [List.length_cons] at hfuel
          omega
        obtain ⟨k', hrun, hring⟩ := ih hk1 (by rintro ⟨⟩) hshort
        refine ⟨k', ?_, by rwa [hsame] at hring⟩
        have hb : c.next = b := by rw [← hnext, hlink]; rfl
        have hbh : b ≠ h := by
          rintro rfl
          exact List.disjoint_of_nodup_append hnd List.mem_cons_self
            (List.mem_cons_of_mem t List.mem_cons_self)
        simp [reapLoop, hc, hvisit, hb, hhead, hbh, hh0, hrun]

/-- **The head is taken out, and the walk is over.** -/
theorem reapLoop_head {fuel : Nat} (hk : TaskRing k (t :: post)) (ht : k.reaps t = true) :
    ∃ k', reapLoop (fuel + 1) k t = some k' ∧ TaskRing k' post ∧ Spared k k' (· = t) := by
  obtain ⟨c, hc, hnext⟩ := hk.heap List.mem_cons_self
  obtain ⟨k1, hone, hk1, hsp⟩ := @reapOne_ring k t [] post hk
  have hvisit := (reapVisit_taken hc ht).trans hone
  have hlink := @TaskRing.next_eq k t [] post hk
  have hhead : k1.gHead = post.headD 0 := hk1.head
  refine ⟨k1, ?_, hk1, hsp⟩
  cases post with
  | nil => simp [reapLoop, hc, hvisit, show k1.gHead = 0 from hhead]
  | cons b post =>
    have hb : c.next = b := by rw [← hnext, hlink]; rfl
    simp [reapLoop, hc, hvisit, hb, show k1.gHead = b from hhead]

/-! ## The call -/

/-- **One call takes exactly the tasks it is to take**, and leaves the others in their order. -/
def ReapsAll (k : Kernel) (l : List Addr) : Prop :=
  ∃ k' l', taskReap k = some k' ∧ TaskRing k' l' ∧ l'.IsRotated (l.filter fun a => !k.reaps a)

/-- The head is not to be taken while another task is; and if tasking is not initialised, then none is. -/
def HeadStays (k : Kernel) (l : List Addr) : Prop :=
  (k.gInitialized = false → ∀ a ∈ l, k.reaps a = false) ∧
    (k.reaps k.gHead = true → ∀ a ∈ l.tail, k.reaps a = false)

theorem filter_spared (h : ∀ a ∈ l, k.reaps a = false) : (l.filter fun a => !k.reaps a) = l :=
  List.filter_eq_self.2 fun a ha => by rw [h a ha]; rfl

/-- A ring that has kept a task that was to be taken. -/
theorem not_isRotated_filter {l' : List Addr} (ha : a ∈ l') (ht : k.reaps a = true) :
    ¬l'.IsRotated (l.filter fun a => !k.reaps a) := by
  intro h
  have hmem := List.of_mem_filter (h.mem_iff.1 ha)
  rw [ht] at hmem
  cases hmem

/-- A ring is entered at one place only, so its list is known. -/
theorem TaskRing.unique {l' : List Addr} (hk : TaskRing k l) (hk' : TaskRing k l') : l = l' := by
  cases l with
  | nil =>
    cases l' with
    | nil => rfl
    | cons b l' =>
      have hb : b = 0 := hk'.head.symm.trans hk.head
      exact absurd (hb ▸ List.mem_cons_self) hk'.null
  | cons a l =>
    have ha : k.gHead = a := hk.head
    cases l' with
    | nil => exact absurd (ha.symm.trans hk'.head ▸ List.mem_cons_self) hk.null
    | cons b l' =>
      obtain rfl : a = b := ha.symm.trans hk'.head
      obtain ⟨prev, hr⟩ := hk.ring
      obtain ⟨prev', hr'⟩ := hk'.ring
      obtain ⟨hwalk, hback⟩ := hr.iterate_next
      obtain ⟨hwalk', hback'⟩ := hr'.iterate_next
      -- whichever is longer would come back to its entry before its end
      have hlen : (a :: l).length = (a :: l').length := by
        by_contra hne
        rcases Nat.lt_or_gt_of_ne hne with hlt | hlt
        · have h := (hwalk' _ hlt).symm.trans hback
          exact absurd ((@List.Nodup.getElem_inj_iff _ _ hr'.1 _ (by assumption) 0 (by simp)).mp
            (h.trans (List.getElem_cons_zero ..).symm)) (by simp)
        · have h := (hwalk _ hlt).symm.trans hback'
          exact absurd ((@List.Nodup.getElem_inj_iff _ _ hr.1 _ (by assumption) 0 (by simp)).mp
            (h.trans (List.getElem_cons_zero ..).symm)) (by simp)
      exact List.ext_getElem hlen fun i hi hi' => (hwalk i hi).symm.trans (hwalk' i hi')

theorem reapsAll_of_headStays (hk : TaskRing k l) (h : HeadStays k l) : ReapsAll k l := by
  obtain ⟨hinit, hhead⟩ := h
  by_cases hidle : k.gHead = 0 ∨ k.gInitialized = false
  · refine ⟨k, l, by rw [taskReap, if_pos hidle], hk, ?_⟩
    rw [filter_spared]
    rcases hidle with h0 | hi
    · rw [hk.head] at h0
      cases l with
      | nil => exact fun _ h => absurd h List.not_mem_nil
      | cons a l => exact absurd (h0 ▸ List.mem_cons_self) hk.null
    · exact hinit hi
  · cases l with
    | nil => exact absurd (Or.inl hk.head) hidle
    | cons t post =>
      have ht : k.gHead = t := hk.head
      obtain ⟨fuel, hfuel⟩ := Nat.exists_eq_add_of_lt (Nat.lt_of_lt_of_le (Nat.succ_pos post.length) hk.length_le)
      rw [Nat.zero_add] at hfuel
      have hlen := hk.length_le
      rw [List.length_cons] at hlen
      cases hreap : k.reaps t with
      | false =>
        obtain ⟨k', hrun, hring⟩ := @reapLoop_ring k.gNextId k [] t post hk (fun _ => hreap) (by omega)
        exact ⟨k', _, by rw [taskReap, if_neg hidle, ht, hrun], hring, List.IsRotated.refl _⟩
      | true =>
        obtain ⟨k', hrun, hring, -⟩ := @reapLoop_head k t post fuel hk hreap
        refine ⟨k', post, by rw [taskReap, if_neg hidle, ht, hfuel, hrun], hring, ?_⟩
        rw [List.filter_cons_of_neg (by simp [hreap]), filter_spared (l := post) (hhead (ht ▸ hreap))]

theorem not_reapsAll_of_head (hk : TaskRing k l) (hinit : k.gInitialized = true) (ht : k.reaps k.gHead = true)
    (ha : a ∈ l.tail) (hreap : k.reaps a = true) : ¬ReapsAll k l := by
  rintro ⟨k', l', hrun, hring, hrot⟩
  cases l with
  | nil => exact absurd ha List.not_mem_nil
  | cons t post =>
    have hh : k.gHead = t := hk.head
    obtain ⟨fuel, hfuel⟩ := Nat.exists_eq_add_of_lt (Nat.lt_of_lt_of_le (Nat.succ_pos post.length) hk.length_le)
    rw [Nat.zero_add] at hfuel
    obtain ⟨k1, hrun1, hring1, -⟩ := @reapLoop_head k t post fuel hk (hh ▸ ht)
    have h0 : t ≠ 0 := fun h0 => hk.null (h0 ▸ List.mem_cons_self)
    rw [taskReap, hh, if_neg (by simp [h0, hinit]), hfuel, hrun1] at hrun
    cases hrun
    obtain rfl := hring.unique hring1
    exact not_isRotated_filter ha hreap hrot

/-- **The reaper is complete** exactly if the head stays, or is the only one that goes. -/
theorem reaper_complete_iff (hk : TaskRing k l) : ReapsAll k l ↔ HeadStays k l := by
  refine ⟨fun h => ⟨fun hinit a ha => ?_, fun ht a ha => ?_⟩, reapsAll_of_headStays hk⟩
  · obtain ⟨k', l', hrun, hring, hrot⟩ := h
    rw [taskReap, if_pos (Or.inr hinit)] at hrun
    cases hrun
    obtain rfl := hring.unique hk
    by_contra hreap
    exact not_isRotated_filter ha (Bool.eq_true_of_not_eq_false hreap) hrot
  · by_contra hreap
    have hreap := Bool.eq_true_of_not_eq_false hreap
    cases hinit : k.gInitialized with
    | true => exact not_reapsAll_of_head hk hinit ht ha hreap h
    | false =>
      obtain ⟨k', l', hrun, hring, hrot⟩ := h
      rw [taskReap, if_pos (Or.inr hinit)] at hrun
      cases hrun
      obtain rfl := hring.unique hk
      exact not_isRotated_filter (List.mem_of_mem_tail ha) hreap hrot

/-! ## Runs -/

/-- The idle task and two more; the processor goes to the second. -/
def threeRun : List TaskOp :=
  [.init 1 ⟨8, true, true⟩, .create ⟨none, 2, 0, 0, .normal⟩ ⟨16, true, true⟩,
    .create ⟨none, 3, 0, 0, .normal⟩ ⟨24, true, true⟩, .yield]

/-- What `TaskRing` says of a kernel, in a form that can be checked. -/
def RingChecks (k : Kernel) (l : List Addr) : Prop :=
  (l.Nodup ∧ (l ++ l.take 1).IsChain (fun a b => k.next a = b ∧ k.prev b = a)) ∧ k.gHead = l.headD 0 ∧
    0 ∉ l ∧ (∀ a ∈ l, (k.view CTask.taskId a).any (fun id => decide (id < k.gNextId)) = true) ∧
    (l.map (k.view CTask.taskId)).Nodup

instance (k : Kernel) (l : List Addr) : Decidable (RingChecks k l) :=
  inferInstanceAs (Decidable ((l.Nodup ∧ (l ++ l.take 1).IsChain (fun a b => k.next a = b ∧ k.prev b = a)) ∧
    k.gHead = l.headD 0 ∧ 0 ∉ l ∧
    (∀ a ∈ l, (k.view CTask.taskId a).any (fun id => decide (id < k.gNextId)) = true) ∧
    (l.map (k.view CTask.taskId)).Nodup))

theorem RingChecks.taskRing (h : RingChecks k l) : TaskRing k l := by
  obtain ⟨hring, hhead, hnull, hids, hdistinct⟩ := h
  refine ⟨⟨k.prev, hring⟩, hhead, fun a ha h0 => ?_, hnull, fun a ha c hca => ?_, hdistinct⟩
  · have hid := hids a ha
    rw [Kernel.view, h0] at hid
    cases hid
  · have hid := hids a ha
    rw [view_of_heap hca] at hid
    exact of_decide_eq_true hid

theorem reaper_complete_three : ∃ k, Run TaskStep boot (threeRun ++ [.terminate 24]) k ∧
    k.reaps 24 = true ∧ ReapsAll k [8, 16, 24] := by
  obtain ⟨k, hrun, hk⟩ := Option.map_eq_some_iff.1
    (show (replay (fun k op => op.FreshAlloc k) taskStep boot (threeRun ++ [.terminate 24])).map (fun k =>
        (decide (RingChecks k [8, 16, 24]), k.gInitialized, k.gHead, [8, 16, 24].map k.reaps)) =
      some (true, true, 8, [false, false, true]) by decide)
  simp only [Prod.mk.injEq, List.map_cons, List.cons.injEq] at hk
  obtain ⟨hring, hinit, hhead, h8, -, h24, -⟩ := hk
  refine ⟨k, run_of_replay hrun, h24, (reaper_complete_iff (of_decide_eq_true hring).taskRing).2 ⟨?_, ?_⟩⟩
  · rw [hinit]
    exact fun h => nomatch h
  · rw [hhead, h8]
    exact fun h => nomatch h

/-- **The reaper stops behind the head**: of two dying tasks, one of them the head, it takes the head. -/
theorem reaper_stops : ∃ k l, Run TaskStep boot (threeRun ++ [.terminate 8, .terminate 24]) k ∧
    TaskRing k l ∧ k.gInitialized = true ∧ ¬ReapsAll k l := by
  obtain ⟨k, hrun, hk⟩ := Option.map_eq_some_iff.1
    (show (replay (fun k op => op.FreshAlloc k) taskStep boot
        (threeRun ++ [.terminate 8, .terminate 24])).map (fun k =>
        (decide (RingChecks k [8, 16, 24]), k.gInitialized, k.gHead, [8, 16, 24].map k.reaps)) =
      some (true, true, 8, [true, false, true]) by decide)
  simp only [Prod.mk.injEq, List.map_cons, List.cons.injEq] at hk
  obtain ⟨hring, hinit, hhead, h8, -, h24, -⟩ := hk
  have hk := (of_decide_eq_true hring).taskRing
  exact ⟨k, _, run_of_replay hrun, hk, hinit, not_reapsAll_of_head hk hinit (hhead ▸ h8) (by simp) h24⟩

end WuBuOS.Tasking
