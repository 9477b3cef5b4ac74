import WuBuOS.Kernel.TaskFrame
import WuBuOS.Lib.Ring

/-!
# The ring of tasks

Every task that exists is on one circular doubly linked list, and `g_head` is where it is entered.
Three pieces of code rewrite its links: `task_insert`, `task_remove`, and the reaper, which has its
own.  The first two keep the ring well formed (`OnRing.insert`, `OnRing.remove`).  The reaper
assigns to the predecessor's `next` and not to the successor's `prev`, which is left pointing at
memory that has been freed: `reap_leaves_stale_prev`.

So the ring is well formed after every run in which the reaper finds nothing to reap,
`ring_wellFormed`.  The invariant is `OnRing`, and it is a statement about the two functions
`Kernel.next` and `Kernel.prev` that `WuBuOS.Lib.Ring` is about.
-/

namespace WuBuOS.Tasking

open Ring Runs
open Option (bind_eq_some_iff bind_eq_bind)
open Function (update update_of_ne update_self update_eq_self)

variable {k k' k1 : Kernel} {a t : Addr} {l : List Addr}

/-! ## The links of a kernel -/

/-- The links of a task. -/
def links (c : CTask) : Addr × Addr := (c.next, c.prev)

theorem ignoresSched_links : IgnoresSched links := fun _ _ _ _ _ _ _ => rfl

theorem ignoresImage_links : IgnoresImage links := fun _ _ _ _ _ _ => rfl

/-- `a->next`, and `0` where there is no task. -/
def Kernel.next (k : Kernel) (a : Addr) : Addr := ((k.view links a).getD (0, 0)).1

/-- `a->prev`, and `0` where there is no task. -/
def Kernel.prev (k : Kernel) (a : Addr) : Addr := ((k.view links a).getD (0, 0)).2

/-- The tasks that exist. -/
def Kernel.tasks (k : Kernel) : Set Addr := { a | k.heap a ≠ none }

theorem mem_tasks_iff : a ∈ k.tasks ↔ k.view links a ≠ none := by
  simp [Kernel.tasks, Kernel.view]

variable {c : CTask} {al : TaskAlloc}

theorem next_of_heap (h : k.heap a = some c) : k.next a = c.next := by
  rw [Kernel.next, view_of_heap h]
  rfl

theorem prev_of_heap (h : k.heap a = some c) : k.prev a = c.prev := by
  rw [Kernel.prev, view_of_heap h]
  rfl

theorem mem_tasks_of_heap (h : k.heap a = some c) : a ∈ k.tasks := by
  show k.heap a ≠ none
  rw [h]
  exact Option.some_ne_none c

/-- Assigning to the links of `t`. -/
theorem write_links {f : CTask → CTask} {n p : Addr} (h : k.write t f = some k')
    (hn : ∀ c, k.heap t = some c → (f c).next = n) (hp : ∀ c, k.heap t = some c → (f c).prev = p) :
    k'.next = update k.next t n ∧ k'.prev = update k.prev t p ∧
      k'.tasks = k.tasks ∧ k'.gHead = k.gHead := by
  obtain ⟨c, hc, hview⟩ := view_write links h
  obtain ⟨c', -, hk⟩ := write_eq_some.1 h
  refine ⟨funext fun a => ?_, funext fun a => ?_, Set.ext fun a => ?_, by rw [← hk]⟩
  · rcases eq_or_ne a t with rfl | ha
    · simp [Kernel.next, hview, links, hn c hc]
    · simp [Kernel.next, hview, ha]
  · rcases eq_or_ne a t with rfl | ha
    · simp [Kernel.prev, hview, links, hp c hc]
    · simp [Kernel.prev, hview, ha]
  · rw [mem_tasks_iff, mem_tasks_iff, hview]
    rcases eq_or_ne a t with rfl | ha
    · simp [view_of_heap hc]
    · simp [ha]

theorem write_next {n : Addr} (h : (k.write t fun c => { c with next := n }) = some k') :
    k'.next = update k.next t n ∧ k'.prev = k.prev ∧ k'.tasks = k.tasks ∧ k'.gHead = k.gHead := by
  obtain ⟨hn, hp, hrest⟩ := write_links (n := n) (p := k.prev t) h (fun _ _ => rfl)
    fun c hc => (prev_of_heap hc).symm
  rw [update_eq_self] at hp
  exact ⟨hn, hp, hrest⟩

theorem write_prev {p : Addr} (h : (k.write t fun c => { c with prev := p }) = some k') :
    k'.next = k.next ∧ k'.prev = update k.prev t p ∧ k'.tasks = k.tasks ∧ k'.gHead = k.gHead := by
  obtain ⟨hn, hp, hrest⟩ := write_links (n := k.next t) (p := p) h
    (fun c hc => (next_of_heap hc).symm) fun _ _ => rfl
  rw [update_eq_self] at hn
  exact ⟨hn, hp, hrest⟩

theorem free_links (k : Kernel) (t : Addr) :
    (∀ a, a ≠ t → (k.free t).next a = k.next a ∧ (k.free t).prev a = k.prev a) ∧
      (k.free t).tasks = k.tasks \ {t} ∧ (k.free t).gHead = k.gHead := by
  refine ⟨fun a ha => ?_, Set.ext fun a => ?_, rfl⟩
  · simp [Kernel.next, Kernel.prev, Kernel.view, Kernel.free, ha]
  · rcases eq_or_ne a t with rfl | ha
    · simp [Kernel.tasks, Kernel.free]
    · simp [Kernel.tasks, Kernel.free, ha]

/-! ## The invariant -/

/-- The tasks of `l`, in this order, are on the ring that is entered at `g_head`, and they are all
the tasks there are. -/
structure OnRing (k : Kernel) (l : List Addr) : Prop where
  ring : IsRing k.next k.prev l
  head : k.gHead = l.headD 0
  tasks : ∀ a, a ∈ l ↔ a ∈ k.tasks
  null : 0 ∉ l

theorem onRing_boot : OnRing boot [] where
  ring := isRing_nil
  head := rfl
  tasks := fun a => by simp [Kernel.tasks, boot]
  null := List.not_mem_nil

theorem OnRing.quiet (hk : OnRing k l) (h : Quiet links k k') : OnRing k' l := by
  have hn : k'.next = k.next := by
    funext a
    rw [Kernel.next, Kernel.next, h.view]
  have hp : k'.prev = k.prev := by
    funext a
    rw [Kernel.prev, Kernel.prev, h.view]
  refine ⟨?_, h.head.trans hk.head, fun a => ?_, hk.null⟩
  · rw [hn, hp]
    exact hk.ring
  · rw [hk.tasks, mem_tasks_iff, mem_tasks_iff, h.view]

/-- The head of a list that is not empty is on it, so it is not null. -/
theorem OnRing.head_ne_zero {h : Addr} (hk : OnRing k (h :: l)) : k.gHead = h ∧ k.gHead ≠ 0 := by
  have hh : k.gHead = h := hk.head
  refine ⟨hh, fun h0 => hk.null ?_⟩
  rw [← h0, hh]
  exact List.mem_cons_self

/-! ## Linking a task in -/

/-- `task_insert`, in a kernel that holds one task more than are on its ring. -/
theorem taskInsert_onRing (hring : IsRing k.next k.prev l) (hhead : k.gHead = l.headD 0)
    (htasks : ∀ a, a ∈ l ++ [t] ↔ a ∈ k.tasks) (hnull : 0 ∉ l ++ [t]) (ht : t ∉ l)
    (h : taskInsert k t = some k') : OnRing k' (l ++ [t]) := by
  rw [taskInsert] at h
  cases l with
  | nil =>
    rw [if_pos (show k.gHead = 0 from hhead)] at h
    obtain ⟨hn, hp, htk, hh⟩ := write_links (n := t) (p := t) h (fun _ _ => rfl) fun _ _ => rfl
    refine ⟨isRing_singleton.2 ?_, hh, fun a => ?_, hnull⟩
    · rw [hn, hp]
      exact ⟨update_self .., update_self ..⟩
    · rw [htasks, htk]
      rfl
  | cons h₀ l =>
    have hh₀ : k.gHead = h₀ := hhead
    have h0 : h₀ ≠ 0 := fun h => hnull (by simp [h])
    rw [hh₀, if_neg h0] at h
    simp only [bind_eq_bind, bind_eq_some_iff] at h
    obtain ⟨c, hc, k1, h₁, k₂, h₂, h₃⟩ := h
    obtain ⟨hn₁, hp₁, htk₁, hh₁⟩ :=
      write_links (n := h₀) (p := c.prev) h₁ (fun _ _ => rfl) fun _ _ => rfl
    obtain ⟨hn₂, hp₂, htk₂, hh₂⟩ := write_next h₂
    obtain ⟨hn₃, hp₃, htk₃, hh₃⟩ := write_prev h₃
    have hlast : k.prev h₀ = c.prev := prev_of_heap hc
    have hne : h₀ ≠ t := fun h => ht (by simp [h])
    have hmem : ∀ a ∈ h₀ :: l, a ≠ t := fun a ha hat => ht (hat ▸ ha)
    -- the predecessor of the head is on the ring too
    have hprev : c.prev ∈ h₀ :: l := by
      have := hring.prev_mem (List.mem_cons_self (a := h₀) (l := l))
      rwa [hlast] at this
    refine ⟨hring.insert ht ?_ ?_ ?_ ?_ ?_ ?_, ?_, fun a => ?_, hnull⟩
    · rw [hn₃, hn₂, update_of_ne (hmem _ hprev).symm, hn₁, update_self]
    · rw [hn₃, hn₂, hlast, update_self]
    · intro a ha hap
      rw [hlast] at hap
      rw [hn₃, hn₂, update_of_ne hap, hn₁, update_of_ne (hmem a ha)]
    · rw [hp₃, update_of_ne hne.symm, hp₂, hp₁, update_self, hlast]
    · rw [hp₃, update_self]
    · intro a ha hah
      rw [hp₃, update_of_ne hah, hp₂, hp₁, update_of_ne (hmem a ha)]
    · rw [hh₃, hh₂, hh₁]
      exact hhead
    · rw [htasks, htk₃, htk₂, htk₁]

/-- **`task_insert` puts a new task at the end of the ring.** -/
theorem OnRing.insert (hk : OnRing k l) (ht : t ∉ k.tasks) (ht0 : t ≠ 0) {id : Nat} (h : taskInsert
      { k with gNextId := id, heap := update k.heap t (some c) } t = some k') :
    OnRing k' (l ++ [t]) := by
  have htl : t ∉ l := fun hm => ht ((hk.tasks t).1 hm)
  have hothers : ∀ a ∈ l, a ≠ t := fun a ha hat => htl (hat ▸ ha)
  let k1 : Kernel := { k with gNextId := id, heap := update k.heap t (some c) }
  have hring : IsRing k1.next k1.prev l := by
    refine hk.ring.congr (fun a ha => ?_) fun a ha => ?_
    · simp [k1, Kernel.next, Kernel.view, hothers a ha]
    · simp [k1, Kernel.prev, Kernel.view, hothers a ha]
  refine taskInsert_onRing hring hk.head (fun a => ?_) ?_ htl h
  · rw [List.mem_append, List.mem_singleton, hk.tasks]
    rcases eq_or_ne a t with rfl | ha
    · simp [k1, Kernel.tasks]
    · simp [k1, Kernel.tasks, ha]
  · simp only [List.mem_append, List.mem_singleton, not_or]
    exact ⟨hk.null, ht0.symm⟩

/-! ## Taking a task out -/

/-- **`task_remove` closes the ring behind a task.** -/
theorem taskRemove_ring (hk : OnRing k l) (ht : t ∈ l) (h : taskRemove k t = some k') :
    IsRing k'.next k'.prev (l.erase t) ∧ k'.gHead = (l.erase t).headD 0 ∧ k'.tasks = k.tasks := by
  obtain ⟨l1, l2, rfl, hring⟩ := hk.ring.enter ht
  have hnd := hk.ring.1
  have ht1 : t ∉ l1 := fun h => List.disjoint_of_nodup_append hnd h List.mem_cons_self
  have hnot : t ∉ l2 ++ l1 := (List.nodup_cons.1 hring.1).1
  have herase : (l1 ++ t :: l2).erase t = l1 ++ l2 := by
    rw [List.erase_append_right _ ht1, List.erase_cons_head]
  rw [herase]
  simp only [taskRemove, bind_eq_bind, bind_eq_some_iff] at h
  obtain ⟨c, hc, k1, hun, h⟩ := h
  obtain ⟨hn, hp, htk, hh⟩ := write_links (n := 0) (p := 0) h (fun _ _ => rfl) fun _ _ => rfl
  have hcn : k.next t = c.next := next_of_heap hc
  have hcp : k.prev t = c.prev := prev_of_heap hc
  rw [unlink] at hun
  rcases List.eq_nil_or_concat (l2 ++ l1) with hnil | ⟨m, z, hm⟩
  · -- the only task
    obtain ⟨rfl, rfl⟩ := List.append_eq_nil_iff.1 hnil
    rw [if_pos (hcn.symm.trans (isRing_singleton.1 hring).1)] at hun
    cases hun
    exact ⟨isRing_nil, hh, htk⟩
  · have hne : l2 ++ l1 ≠ [] := by simp [hm]
    obtain ⟨hnext, hprev⟩ := hring.links_mem hne
    rw [hcn] at hnext
    rw [hcp] at hprev
    have hself : c.next ≠ t := fun h => hnot (h ▸ hnext)
    rw [if_neg hself] at hun
    simp only [bind_eq_bind, bind_eq_some_iff] at hun
    obtain ⟨k2, h2, k3, h3, hun⟩ := hun
    cases hun
    obtain ⟨hn2, hp2, htk2, -⟩ := write_next h2
    obtain ⟨hn3, hp3, htk3, -⟩ := write_prev h3
    have hothers : ∀ a ∈ l2 ++ l1, a ≠ t := fun a ha hat => hnot (hat ▸ ha)
    have hring' : IsRing k'.next k'.prev (l2 ++ l1) := by
      refine hring.erase hne ?_ (fun a ha hap => ?_) ?_ (fun a ha han => ?_)
      · rw [hcp, hcn, hn, update_of_ne (hothers _ hprev)]
        show k3.next c.prev = c.next
        rw [hn3, hn2, update_self]
      · rw [hcp] at hap
        rw [hn, update_of_ne (hothers a ha)]
        show k3.next a = k.next a
        rw [hn3, hn2, update_of_ne hap]
      · rw [hcp, hcn, hp, update_of_ne (hothers _ hnext)]
        show k3.prev c.next = c.prev
        rw [hp3, update_self]
      · rw [hcn] at han
        rw [hp, update_of_ne (hothers a ha)]
        show k3.prev a = k.prev a
        rw [hp3, update_of_ne han, hp2]
    refine ⟨hring'.rotate, ?_, htk.trans (htk3.trans htk2)⟩
    -- the head moves on if it is the task taken out
    rw [hh]
    have hhead := hk.head
    cases l1 with
    | nil =>
      rw [if_pos (show k.gHead = t from hhead)]
      rw [List.append_nil] at hring hne
      cases l2 with
      | nil => exact absurd rfl hne
      | cons b l2 => exact hcn.symm.trans (List.rel_of_isChain_cons_cons hring.2).1
    | cons b l1 =>
      have hb : k.gHead = b := hhead
      rw [if_neg (hb ▸ hothers b (by simp))]
      exact hb

/-- **`task_destroy` takes a task off the ring.** -/
theorem OnRing.destroy (hk : OnRing k l) (h : taskDestroy k t = some k') : ∃ l', OnRing k' l' := by
  rw [taskDestroy] at h
  split at h
  · cases h
    exact ⟨l, hk⟩
  · simp only [bind_eq_bind, bind_eq_some_iff] at h
    obtain ⟨k1, h1, k2, h2, h⟩ := h
    cases h
    obtain ⟨c, hc, -⟩ := write_eq_some.1 h1
    have ht : t ∈ l := (hk.tasks t).2 (mem_tasks_of_heap hc)
    have hk1 := hk.quiet (write_settled (ignoresSched_links.withState _) h1).toQuiet
    obtain ⟨hring, hhead, htasks⟩ := taskRemove_ring hk1 ht h2
    obtain ⟨hlinks, hfree, -⟩ := free_links k2 t
    have hothers : ∀ a ∈ l.erase t, a ≠ t := fun a ha => (hk.ring.1.mem_erase_iff.1 ha).1
    refine ⟨l.erase t, hring.congr (fun a ha => (hlinks a (hothers a ha)).1) (fun a ha =>
      (hlinks a (hothers a ha)).2), hhead, fun a => ?_, fun h0 => hk.null (List.mem_of_mem_erase h0)⟩
    rw [hfree, htasks, hk.ring.1.mem_erase_iff, hk1.tasks, and_comm]
    rfl

theorem OnRing.kill (hk : OnRing k l) {pid : Int} (h : taskKill k pid = some k') : ∃ l', OnRing k' l' := by
  have hloop : ∀ {fuel : Nat} {t : Addr}, killLoop pid k fuel t = some k' → ∃ l', OnRing k' l' := by
    intro fuel
    induction fuel with
    | zero => intro t h; cases h
    | succ fuel ih =>
      intro t h
      simp only [killLoop, bind_eq_bind, bind_eq_some_iff] at h
      obtain ⟨c, -, h⟩ := h
      split at h
      · exact hk.destroy h
      · split at h
        · cases h
          exact ⟨l, hk⟩
        · exact ih h
  rw [taskKill] at h
  split at h
  · cases h
    exact ⟨l, hk⟩
  · split at h
    · cases h
      exact ⟨l, hk⟩
    · exact hloop h

/-! ## Creating tasks -/

/-- A kernel that differs in what is not on the ring. -/
theorem OnRing.of_eq (hk : OnRing k l) (hheap : k'.heap = k.heap) (hhead : k'.gHead = k.gHead) : OnRing k' l := by
  have hview : k'.view links = k.view links :=
    funext fun a => congrArg (Option.map links) (congrFun hheap a)
  have hn : k'.next = k.next := funext fun a => by rw [Kernel.next, Kernel.next, hview]
  have hp : k'.prev = k.prev := funext fun a => by rw [Kernel.prev, Kernel.prev, hview]
  refine ⟨?_, hhead.trans hk.head, fun a => ?_, hk.null⟩
  · rw [hn, hp]
    exact hk.ring
  · rw [hk.tasks, mem_tasks_iff, mem_tasks_iff, hview]

/-- A new task is on the ring, which grows by no more than the ids do. -/
theorem OnRing.create (hk : OnRing k l) {s : TaskSpec} {r : Kernel × Addr}
    (hal : al.Fresh k) (h : taskCreate k s al = some r) :
    ∃ l', OnRing r.1 l' ∧ l'.length + k.gNextId ≤ l.length + r.1.gNextId := by
  rw [taskCreate] at h
  split at h
  · cases h
    exact ⟨l, hk, Nat.le_refl _⟩
  · rename_i hok
    have h0 : al.task ≠ 0 := fun h => hok (Or.inl h)
    split at h
    · cases h
    · dsimp only at h
      split at h
      · cases h
        exact ⟨l, hk.of_eq rfl rfl, by dsimp only; omega⟩
      · simp only [bind_eq_bind, bind_eq_some_iff] at h
        obtain ⟨k2, hins, h⟩ := h
        cases h
        have hid : k2.gNextId = k.gNextId + 1 := (taskInsert_still (p := fun _ => ()) (fun _ _ _ => rfl) hins).nextId
        refine ⟨_, hk.insert (fun ht => ht (hal.resolve_left h0)) h0 hins, ?_⟩
        rw [List.length_append, hid]
        exact Nat.le_of_eq (by simp only [List.length_singleton]; omega)

theorem OnRing.init (hk : OnRing k l) {i : Addr} {r : Kernel × Int}
    (hal : al.Fresh k) (h : taskingInit k i al = some r) :
    ∃ l', OnRing r.1 l' ∧ l'.length + k.gNextId ≤ l.length + r.1.gNextId := by
  rw [taskingInit] at h
  have hk0 : OnRing { k with gSleepWheel := TimerWheel.twInit } l := hk.of_eq rfl rfl
  split at h
  · cases h
    exact ⟨l, hk0, Nat.le_refl _⟩
  · simp only [bind_eq_bind, bind_eq_some_iff] at h
    obtain ⟨⟨k1, idle⟩, hcreate, h⟩ := h
    obtain ⟨l', hk1, hlen⟩ := hk0.create hal hcreate
    split at h
    · cases h
      exact ⟨l', hk1, hlen⟩
    · simp only [bind_eq_some_iff] at h
      obtain ⟨k2, hw, h⟩ := h
      cases h
      have hq := (write_settled (ignoresSched_links.withState _) hw).toQuiet
      exact ⟨l', (hk1.quiet hq).of_eq rfl rfl, by rw [← hq.nextId] at hlen; exact hlen⟩

theorem OnRing.clone (hk : OnRing k l) {parent : Addr} {name : Option (List UInt8)} {r : Kernel × Addr} (hal : al.Fresh k)
    (h : taskClone k parent name al = some r) :
    ∃ l', OnRing r.1 l' ∧ l'.length + k.gNextId ≤ l.length + r.1.gNextId := by
  rcases taskClone_cases h with hr | ⟨s, r1, hcreate, hq⟩
  · exact ⟨l, hr ▸ hk, Nat.le_of_eq (by rw [hr])⟩
  · obtain ⟨l', hk1, hlen⟩ := hk.create hal hcreate
    have hq := (hq ignoresImage_links).toQuiet
    exact ⟨l', hk1.quiet hq, by rw [hq.nextId]; exact hlen⟩

/-! ## The reaper -/

/-- If the call is to the reaper, no task but the running one is dying. -/
def NothingToReap (k : Kernel) (op : TaskOp) : Prop :=
  op = .reap → k.gInitialized = true →
    ∀ a c, k.heap a = some c → c.state = .dying → a = k.gCurrent

/-- A reaper with nothing to reap goes round the ring and leaves it alone. -/
theorem taskReap_eq (hn : NothingToReap k .reap) (h : taskReap k = some k') : k' = k := by
  have hloop : ∀ {fuel : Nat} {t : Addr}, k.gInitialized = true → reapLoop fuel k t = some k' → k' = k := by
    intro fuel
    induction fuel with
    | zero => intro t _ h; cases h
    | succ fuel ih =>
      intro t hinit h
      simp only [reapLoop, bind_eq_bind, bind_eq_some_iff] at h
      obtain ⟨c, hc, k1, hvisit, h⟩ := h
      rw [reapVisit, if_neg fun hd => hd.2 (hn rfl hinit t c hc hd.1)] at hvisit
      cases hvisit
      split at h
      · exact ih hinit h
      · exact (Option.some.inj h).symm
  rw [taskReap] at h
  split at h
  · exact (Option.some.inj h).symm
  · rename_i hcond
    rw [not_or] at hcond
    exact hloop (by simpa using hcond.2) h

/-! ## Runs -/

theorem OnRing.step {op : TaskOp} (hk : OnRing k l) (h : guarded NothingToReap TaskStep k op k') :
    ∃ l', OnRing k' l' := by
  obtain ⟨hn, hal, hstep⟩ := h
  cases op with
  | init i al =>
    obtain ⟨r, hr, rfl⟩ := Option.map_eq_some_iff.1 hstep
    obtain ⟨l', hk', -⟩ := hk.init (hal al rfl) hr
    exact ⟨l', hk'⟩
  | create s al =>
    obtain ⟨r, hr, rfl⟩ := Option.map_eq_some_iff.1 hstep
    obtain ⟨l', hk', -⟩ := hk.create (hal al rfl) hr
    exact ⟨l', hk'⟩
  | clone parent name al =>
    obtain ⟨r, hr, rfl⟩ := Option.map_eq_some_iff.1 hstep
    obtain ⟨l', hk', -⟩ := hk.clone (hal al rfl) hr
    exact ⟨l', hk'⟩
  | execve t name entry arg img =>
    obtain ⟨r, hr, rfl⟩ := Option.map_eq_some_iff.1 hstep
    exact ⟨l, hk.quiet (taskExecve_settled ignoresImage_links hr).toQuiet⟩
  | setAuthority t caps ceiling =>
    exact ⟨l, hk.quiet (taskSetAuthority_settled ignoresImage_links hstep).toQuiet⟩
  | destroy t => exact hk.destroy hstep
  | kill pid => exact hk.kill hstep
  | reap =>
    obtain rfl := taskReap_eq hn hstep
    exact ⟨l, hk⟩
  | terminate _ | yield | block | unblock _ | sleep _ | wake _ | timerTick =>
    exact ⟨l, hk.quiet (taskStep_quiet ignoresSched_links rfl hstep)⟩

/-- The ring as it is walked: either there is no task and no head, or following `next` from the head
meets every task once and comes back, and the two links of every task undo each other. -/
def RingWellFormed (k : Kernel) : Prop :=
  (k.gHead = 0 ∧ k.tasks = ∅) ∨
  (k.gHead ≠ 0 ∧ ∃ n, (∀ a, a ∈ k.tasks ↔ ∃! i, i < n ∧ k.next^[i] k.gHead = a) ∧
    k.next^[n] k.gHead = k.gHead ∧
    ∀ t ∈ k.tasks, k.prev (k.next t) = t ∧ k.next (k.prev t) = t)

theorem OnRing.wellFormed (hk : OnRing k l) : RingWellFormed k := by
  cases l with
  | nil =>
    refine Or.inl ⟨hk.head, Set.eq_empty_of_forall_notMem fun a ha => ?_⟩
    exact List.not_mem_nil ((hk.tasks a).2 ha)
  | cons h l =>
    obtain ⟨hh, h0⟩ := hk.head_ne_zero
    obtain ⟨hwalk, hback⟩ := hk.ring.iterate_next
    rw [← hh] at hwalk hback
    refine Or.inr ⟨h0, (k.gHead :: l).length, fun a => ?_, hback, fun t ht => ?_⟩
    · rw [← hk.tasks, ← hh, List.mem_iff_getElem]
      constructor
      · rintro ⟨i, hi, rfl⟩
        refine ⟨i, ⟨hi, hwalk i hi⟩, ?_⟩
        rintro j ⟨hj, heq⟩
        rw [hwalk j hj] at heq
        exact (List.Nodup.getElem_inj_iff (hh ▸ hk.ring.1)).1 heq
      · rintro ⟨i, ⟨hi, rfl⟩, -⟩
        exact ⟨i, hi, (hwalk i hi).symm⟩
    · have htl := (hk.tasks t).2 ht
      exact ⟨hk.ring.prev_next htl, hk.ring.next_prev htl⟩

/-- **The ring is well formed after every run** in which the reaper is called only when no task but
the running one is dying. -/
theorem ring_wellFormed (ops : List TaskOp) (k : Kernel)
    (h : Run (guarded NothingToReap TaskStep) boot ops k) : RingWellFormed k := by
  obtain ⟨l, hl⟩ := h.invariant (fun k => ∃ l, OnRing k l)
    (fun _ _ _ hs ⟨_, hk⟩ => hk.step hs) ⟨[], onRing_boot⟩
  exact hl.wellFormed

/-- The idle task and one more, which is destroyed again. -/
def destroyRun : List TaskOp :=
  [.init 1 ⟨8, true, true⟩, .create ⟨none, 2, 0, 0, .normal⟩ ⟨16, true, true⟩, .destroy 16]

theorem ring_wellFormed_destroy : ∃ k, Run TaskStep boot destroyRun k ∧ RingWellFormed k := by
  obtain ⟨k, hrun⟩ := Option.isSome_iff_exists.1
    (show (replay (fun k op => op.FreshAlloc k ∧ op ≠ .reap) taskStep boot destroyRun).isSome
      by decide)
  have hr := run_of_replay hrun
  refine ⟨k, hr.mono fun s a t h => ⟨h.1.1, h.2⟩, ring_wellFormed destroyRun k (hr.mono ?_)⟩
  exact fun s a t h => ⟨fun hreap => absurd hreap h.1.2, h.1.1, h.2⟩

/-- The idle task and one more, which is terminated and reaped. -/
def reapRun : List TaskOp :=
  [.init 1 ⟨8, true, true⟩, .create ⟨none, 2, 0, 0, .normal⟩ ⟨16, true, true⟩, .terminate 16, .reap]

theorem reapRun_links : ((replay (fun k op => op.FreshAlloc k) taskStep boot reapRun).map fun k =>
      (k.gHead, k.gCurrent, k.view links 8, k.view links 16)) = some (8, 8, some (8, 16), none) := by
  decide

/-- **The reaper leaves a stale link.**  Only the idle task is left, it is the running one, and its
`prev` still points at the task that was reaped. -/
theorem reap_leaves_stale_prev : ∃ k, Run TaskStep boot reapRun k ∧ k.gCurrent = 8 ∧
    8 ∈ k.tasks ∧ k.prev 8 = 16 ∧ ¬ RingWellFormed k := by
  obtain ⟨k, hrun, hk⟩ := Option.map_eq_some_iff.1 reapRun_links
  obtain ⟨hhead, hcur, h8, h16⟩ : k.gHead = 8 ∧ k.gCurrent = 8 ∧
      k.view links 8 = some (8, 16) ∧ k.view links 16 = none := by simpa using hk
  have ht : 8 ∈ k.tasks := by
    rw [mem_tasks_iff, h8]
    exact Option.some_ne_none _
  have hprev : k.prev 8 = 16 := by rw [Kernel.prev, h8]; rfl
  have hnext : k.next 16 = 0 := by rw [Kernel.next, h16]; rfl
  refine ⟨k, run_of_replay hrun, hcur, ht, hprev, ?_⟩
  rintro (⟨h0, -⟩ | ⟨-, n, -, -, hinv⟩)
  · rw [hhead] at h0
    cases h0
  · have h := (hinv 8 ht).2
    rw [hprev, hnext] at h
    cases h

end WuBuOS.Tasking
