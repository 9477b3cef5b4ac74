import WuBuOS.Lib.Runs
import WuBuOS.Runtime.Styx.Paths

/-!
# Nested transactions, and their scope

`runtime/wubu_txn/wubu_txn.c`: the scope that a transaction begins with, and the stack of transactions that each caller
has.  A stack is four pointers without a depth; it ends where there is none.  `wubu_txn_push` and `wubu_txn_pop` look
for its end, and `wubu_txn_current` for its beginning, so that of several transactions it returns the one that has been
pushed first (`nesting_and_scope`).

The scope is an array that ends with -1.  It is copied into one of 256 pids, and all of these are in scope then, also
the zeros behind the copy.
-/

namespace WuBuOS.Transaction

open Runs Styx
open Function (update_of_ne update_self)

/-! ## Transactions -/

/-- `WUBU_TXN_MAX_CALLERS`. -/
def maxCallers : Nat := 1024

/-- `WUBU_TXN_MAX_NESTING`. -/
def maxNesting : Nat := 4

/-- `WUBU_TXN_MAX_SCOPE_PIDS`. -/
def maxScopePids : Nat := 256

/-- `WUBU_TXN_NAME_MAX`. -/
def nameMax : Nat := 31

/-- `WUBU_TXN_DEFAULT_BUFFER`. -/
def defaultBuffer : Nat := 4096

/-- `WubuTxnState`. -/
inductive TxnState
  | invalid
  | active
  | committing
  | committed
  | committingFailed
  | aborting
  | aborted
  deriving DecidableEq, Repr

/-- `struct WubuTxn`, without the messages in its ring. -/
structure WubuTxn where
  id : UInt64
  flags : UInt32
  creatorPid : Int32
  state : TxnState
  name : CStr
  liveDir : CStr
  checkpointDir : CStr
  checkpointValid : Bool
  scopePids : Nat → Int32
  scopeCount : Nat
  ringCap : Nat
  ringHead : Nat
  ringCount : Nat
  nestingDepth : Nat

def wubuTxnIsExternalPeer (t : WubuTxn) (pid : Int32) : Bool :=
  if t.scopeCount = 0 then true else (List.range t.scopeCount).all fun i => t.scopePids i != pid

/-- The loop that copies a scope, with so many places left. -/
def copyScope (src : Nat → Int32) : Nat → Nat → (Nat → Int32) → Nat → Int32
  | 0, _, dst => dst
  | n + 1, i, dst => if src i = -1 then dst else copyScope src n (i + 1) (Function.update dst i (src i))

/-- Where the snapshot of a directory goes: beside it. -/
def snapshotDir (dir : CStr) (id : UInt64) : CStr :=
  let path := snprintf dir
  let parent := if path.contains slash then (path.reverse.dropWhile (· != slash)).tail.reverse else text "."
  snprintf (parent ++ text "/.wubu_txn_" ++ text (toString id.toNat))

/-- `wubu_txn_begin`; `mem` says whether there is memory for the transaction and for its ring, and `checkpoint` what
`wubu_txn_checkpoint_create` does.  What becomes of `g_wubu_txn_next_id` is returned. -/
def wubuTxnBegin (mem : Bool × Bool) (checkpoint : CStr → CStr → Bool) (flags : UInt32) (name : Option CStr)
    (scopePids : Option (Nat → Int32)) (dir : Option CStr) (nextId : UInt64) : Option WubuTxn × UInt64 :=
  if !mem.1 then (none, nextId)
  else if !mem.2 then (none, nextId + 1)
  else
    let liveDir := (dir.map snprintf).getD []
    let valid := match dir with
      | none => false
      | some dir => checkpoint liveDir (snapshotDir dir nextId)
    (some
      { id := nextId
        flags := flags
        creatorPid := 0
        state := .active
        name := (name.getD (text "txn")).take nameMax
        liveDir := liveDir
        checkpointDir := if valid then (dir.map (snapshotDir · nextId)).getD [] else []
        checkpointValid := valid
        scopePids := match scopePids with
          | none => fun _ => 0
          | some src => copyScope src maxScopePids 0 fun _ => 0
        scopeCount := match scopePids with
          | none => 0
          | some src => if src 0 = -1 then 0 else maxScopePids
        ringCap := defaultBuffer
        ringHead := 0
        ringCount := 0
        nestingDepth := 0 }, nextId + 1)

/-! ## The stacks -/

/-- `g_caller_stack`, and the transactions that its pointers point to. -/
structure Callers where
  stack : Nat → Nat → Option Nat
  txns : Nat → WubuTxn

/-- `caller_pid` is in range; the stack that it has. -/
def callerOf (pid : Int32) : Option Nat := if pid < 0 ∨ (maxCallers : Int) ≤ pid.toInt then none else some pid.toInt.toNat

def wubuTxnCurrent (s : Callers) (pid : Int32) : Option Nat :=
  match callerOf pid with
  | none => none
  | some c => s.stack c 0

/-- How deep a stack is, from a depth on. -/
def depthFrom (stack : Nat → Option Nat) : Nat → Nat → Nat
  | 0, depth => depth
  | n + 1, depth => if (stack depth).isSome then depthFrom stack n (depth + 1) else depth

/-- What is returned. -/
inductive TxnResult
  | ok
  | einval
  | enested
  deriving DecidableEq, Repr

def wubuTxnPush (pid : Int32) (t : Option Nat) (s : Callers) : TxnResult × Callers :=
  match callerOf pid, t with
  | some c, some t =>
    let depth := depthFrom (s.stack c) maxNesting 0
    if maxNesting ≤ depth then (.enested, s)
    else
      (.ok,
        { stack := Function.update s.stack c (Function.update (s.stack c) depth (some t))
          txns := Function.update s.txns t { s.txns t with nestingDepth := depth } })
  | _, _ => (.einval, s)

def wubuTxnPop (pid : Int32) (s : Callers) : TxnResult × Callers :=
  match callerOf pid with
  | none => (.einval, s)
  | some c =>
    let depth := depthFrom (fun d => s.stack c (d + 1)) (maxNesting - 1) 0
    (.ok, { s with stack := Function.update s.stack c (Function.update (s.stack c) depth none) })

/-! ## Runs of the stacks -/

/-- A call. -/
inductive StackCall
  | push (pid : Int32) (t : Option Nat)
  | pop (pid : Int32)
  deriving DecidableEq

/-- The stacks, and the transactions that each caller has pushed and not popped, the last one first. -/
structure Session where
  callers : Callers
  opened : Int32 → List Nat

/-- A call is made. -/
def Session.step (s : Session) : StackCall → Session
  | .push pid t =>
    let res := wubuTxnPush pid t s.callers
    { callers := res.2
      opened := if res.1 = .ok then Function.update s.opened pid (t.toList ++ s.opened pid) else s.opened }
  | .pop pid =>
    { callers := (wubuTxnPop pid s.callers).2
      opened := Function.update s.opened pid (s.opened pid).tail }

/-- `wubu_txn_init`. -/
def Session.init (txns : Nat → WubuTxn) : Session := ⟨⟨fun _ _ => none, txns⟩, fun _ => []⟩

/-- **The current transaction** of each caller is the one that has been pushed last. -/
def Session.MostRecent (s : Session) : Prop := ∀ pid, wubuTxnCurrent s.callers pid = (s.opened pid).head?

/-- A transaction is pushed only if its caller has none, or has pushed this one before, or has no room for it. -/
def Session.Allows (s : Session) : StackCall → Prop
  | .push pid t => ∀ c x b, callerOf pid = some c → t = some x → s.callers.stack c (maxNesting - 1) = none →
      s.callers.stack c 0 = some b → b = x
  | .pop _ => True

/-- A stack has these transactions, the last one first, and no others. -/
structure IsStack (stack : Nat → Option Nat) (l : List Nat) : Prop where
  entries : ∀ d, stack d = l.reverse[d]?
  depth : l.length ≤ maxNesting

/-- **What holds** as long as no caller pushes one transaction on another. -/
structure Session.Ok (s : Session) : Prop where
  stack : ∀ pid c, callerOf pid = some c → IsStack (s.callers.stack c) (s.opened pid)
  outside : ∀ pid, callerOf pid = none → s.opened pid = []
  same : ∀ pid, ∀ x ∈ s.opened pid, ∀ y ∈ s.opened pid, x = y

variable {stack : Nat → Option Nat} {l : List Nat} {x c : Nat} {pid : Int32} {s : Session}

/-- The search for the end of a stack finds it, or runs out of places. -/
theorem depthFrom_eq (h : ∀ d, stack d = l[d]?) (n k : Nat) (hk : k ≤ l.length) :
    depthFrom stack n k = min (k + n) l.length := by
  induction n generalizing k with
  | zero => simp [depthFrom, hk]
  | succ n ih =>
    rw [depthFrom, h]
    rcases Nat.lt_or_ge k l.length with hlt | hge
    · rw [List.getElem?_eq_getElem hlt, if_pos Option.isSome_some, ih (k + 1) hlt]
      omega
    · rw [List.getElem?_eq_none hge, if_neg nofun]
      omega

theorem IsStack.depth_eq (h : IsStack stack l) : depthFrom stack maxNesting 0 = l.length := by
  rw [depthFrom_eq h.entries _ _ (Nat.zero_le _), List.length_reverse, Nat.zero_add]
  exact Nat.min_eq_right h.depth

/-- The stack with one more. -/
theorem IsStack.push (h : IsStack stack l) (hroom : l.length < maxNesting) (x : Nat) :
    IsStack (Function.update stack l.length (some x)) (x :: l) := by
  refine ⟨fun d => ?_, hroom⟩
  rw [List.reverse_cons]
  rcases Nat.lt_trichotomy d l.length with hlt | rfl | hgt
  · rw [update_of_ne (by omega), h.entries, List.getElem?_append_left (by simpa using hlt)]
  · rw [update_self, List.getElem?_append_right (by simp)]
    simp
  · rw [update_of_ne (by omega), h.entries, List.getElem?_eq_none (by simp; omega),
      List.getElem?_eq_none (by simp; omega)]

/-- The stack without the last one. -/
theorem IsStack.pop (h : IsStack stack l) :
    IsStack (Function.update stack (depthFrom (fun d => stack (d + 1)) (maxNesting - 1) 0) none) l.tail := by
  have hdepth : depthFrom (fun d => stack (d + 1)) (maxNesting - 1) 0 = l.length - 1 := by
    have htail : ∀ d, stack (d + 1) = l.reverse.tail[d]? := fun d => by rw [h.entries, List.getElem?_tail]
    have hmax := h.depth
    rw [depthFrom_eq htail _ _ (Nat.zero_le _), List.length_tail, List.length_reverse]
    omega
  rw [hdepth]
  refine ⟨fun d => ?_, ?_⟩
  · rcases Nat.lt_trichotomy d (l.length - 1) with hlt | rfl | hgt
    · rw [update_of_ne (by omega), h.entries, ← List.dropLast_reverse, List.getElem?_dropLast, if_pos (by simpa using hlt)]
    · rw [update_self, List.getElem?_eq_none (by simp)]
    · rw [update_of_ne (by omega), h.entries, List.getElem?_eq_none (by simp; omega),
        List.getElem?_eq_none (by simp; omega)]
  · rw [List.length_tail]
    exact Nat.le_trans (Nat.sub_le _ _) h.depth

theorem callerOf_inj {pid' : Int32} (h : callerOf pid = some c) (h' : callerOf pid' = some c) : pid = pid' := by
  rw [callerOf] at h h'
  split at h
  · cases h
  split at h'
  · cases h'
  rename_i hin hin'
  have heq : pid.toInt.toNat = pid'.toInt.toNat := Option.some.inj (h.trans h'.symm)
  rw [not_or, Int32.lt_iff_toInt_lt] at hin hin'
  have hzero : (0 : Int32).toInt = 0 := rfl
  exact Int32.toInt_inj.1 (by omega)

theorem Session.Ok.mostRecent (h : s.Ok) : s.MostRecent := by
  intro pid
  rw [wubuTxnCurrent]
  cases hc : callerOf pid with
  | none => rw [h.outside pid hc, List.head?_nil]
  | some c =>
    dsimp only
    rw [(h.stack pid c hc).entries, ← List.head?_eq_getElem?, List.head?_reverse]
    cases hl : s.opened pid with
    | nil => rfl
    | cons x l =>
      have hlast : (x :: l).getLast? = some ((x :: l).getLast (List.cons_ne_nil x l)) :=
        List.getLast?_eq_some_getLast _
      rw [hlast, List.head?_cons, Option.some_inj]
      have hsame := h.same pid
      rw [hl] at hsame
      exact hsame _ (List.getLast_mem _) _ (.head _)

theorem Session.init_ok (txns : Nat → WubuTxn) : (Session.init txns).Ok :=
  ⟨fun _ _ _ => ⟨fun _ => rfl, Nat.zero_le _⟩, fun _ _ => rfl, fun _ => nofun⟩

/-- The stacks of the other callers are left alone. -/
theorem Session.Ok.update {stack' : Nat → Option Nat} {txns' : Nat → WubuTxn} (h : s.Ok) (hc : callerOf pid = some c)
    (hstack : IsStack stack' l) (hsame : ∀ x ∈ l, ∀ y ∈ l, x = y) :
    Session.Ok ⟨⟨Function.update s.callers.stack c stack', txns'⟩, Function.update s.opened pid l⟩ := by
  refine ⟨fun pid' c' hc' => ?_, fun pid' hnone => ?_, fun pid' => ?_⟩
  · dsimp only
    rcases eq_or_ne pid' pid with rfl | hne
    · obtain rfl : c' = c := Option.some.inj (hc'.symm.trans hc)
      rwa [update_self, update_self]
    · have hne' : c' ≠ c := fun heq => hne (callerOf_inj (heq ▸ hc') hc)
      rw [update_of_ne hne, update_of_ne hne']
      exact h.stack pid' c' hc'
  · have hne : pid' ≠ pid := by
      rintro rfl
      rw [hc] at hnone
      cases hnone
    exact (update_of_ne hne ..).trans (h.outside pid' hnone)
  · dsimp only
    rcases eq_or_ne pid' pid with rfl | hne
    · rwa [update_self]
    · rw [update_of_ne hne]
      exact h.same pid'

/-- **A pop** takes the last one off. -/
theorem Session.Ok.step_pop (h : s.Ok) (pid : Int32) : (s.step (.pop pid)).Ok := by
  simp only [Session.step, wubuTxnPop]
  cases hc : callerOf pid with
  | none =>
    rw [h.outside pid hc, List.tail_nil, ← h.outside pid hc, Function.update_eq_self]
    exact h
  | some c =>
    refine h.update hc (h.stack pid c hc).pop fun x hx y hy => ?_
    exact h.same pid x (List.mem_of_mem_tail hx) y (List.mem_of_mem_tail hy)

/-- **What a push does**: nothing, or it puts the transaction on the stack. -/
theorem Session.Ok.push_cases (h : s.Ok) (pid : Int32) (t : Option Nat) :
    ((wubuTxnPush pid t s.callers).1 ≠ .ok ∧ (wubuTxnPush pid t s.callers).2 = s.callers ∧
        ∀ c x, callerOf pid = some c → t = some x → (s.callers.stack c (maxNesting - 1)).isSome) ∨
      ∃ c x, callerOf pid = some c ∧ t = some x ∧ (s.opened pid).length < maxNesting ∧
        (wubuTxnPush pid t s.callers).1 = .ok ∧
        ∃ txns', (wubuTxnPush pid t s.callers).2 = ⟨Function.update s.callers.stack c
            (Function.update (s.callers.stack c) (s.opened pid).length (some x)), txns'⟩ := by
  cases hc : callerOf pid with
  | none =>
    simp only [wubuTxnPush, hc]
    exact .inl ⟨by rintro ⟨⟩, trivial, by rintro _ _ ⟨⟩⟩
  | some c =>
    cases t with
    | none =>
      simp only [wubuTxnPush, hc]
      exact .inl ⟨by rintro ⟨⟩, trivial, by rintro _ _ _ ⟨⟩⟩
    | some x =>
      have hstack := h.stack pid c hc
      simp only [wubuTxnPush, hc, hstack.depth_eq]
      split
      · rename_i hfull
        refine .inl ⟨by rintro ⟨⟩, rfl, fun c' x' hc' _ => ?_⟩
        cases hc'
        rw [hstack.entries, List.getElem?_eq_getElem (by rw [List.length_reverse]; exact hfull), Option.isSome_some]
      · rename_i hroom
        exact .inr ⟨c, x, rfl, rfl, Nat.lt_of_not_le hroom, rfl, _, rfl⟩

theorem Session.Ok.step_push (h : s.Ok) {t : Option Nat} (hallows : s.Allows (.push pid t)) :
    (s.step (.push pid t)).Ok := by
  rw [Session.step]
  obtain ⟨hfails, hsame, -⟩ | ⟨c, x, hc, ht, hroom, hdone, txns', heq⟩ := h.push_cases pid t
  · rw [if_neg hfails, hsame]
    exact h
  · subst ht
    rw [if_pos hdone, heq]
    have hstack := h.stack pid c hc
    refine h.update hc (hstack.push hroom x) fun y hy z hz => ?_
    -- all of them are the one at the beginning, and that is the one that is pushed
    have hall : ∀ y ∈ s.opened pid, y = x := by
      intro y hy
      have hne : s.opened pid ≠ [] := List.ne_nil_of_mem hy
      rw [h.same pid y hy _ (List.getLast_mem hne)]
      refine hallows c x _ hc rfl ?_ ?_
      · rw [hstack.entries, List.getElem?_eq_none]
        rw [List.length_reverse]
        omega
      · rw [hstack.entries, ← List.head?_eq_getElem?, List.head?_reverse, List.getLast?_eq_some_getLast hne]
    have hall' : ∀ y ∈ x :: s.opened pid, y = x := fun y hy => (List.mem_cons.1 hy).elim id (hall y)
    rw [hall' y hy, hall' z hz]

/-- **A push on another transaction is noticed.** -/
theorem Session.Ok.allows_push (h : s.Ok) {t : Option Nat} (hrecent : (s.step (.push pid t)).MostRecent) :
    s.Allows (.push pid t) := by
  intro c x b hc ht hroom hb
  obtain ⟨-, -, hfull⟩ | ⟨c', x', hc', ht', hlt, hdone, txns', heq⟩ := h.push_cases pid t
  · have := hfull c x hc ht
    rw [hroom] at this
    cases this
  · obtain rfl : c' = c := Option.some.inj (hc'.symm.trans hc)
    obtain rfl : x' = x := Option.some.inj (ht'.symm.trans ht)
    subst ht
    have hcur := hrecent pid
    have hzero : (s.opened pid).length ≠ 0 := by
      intro hzero
      rw [(h.stack pid c' hc).entries, List.getElem?_eq_none (by rw [List.length_reverse, hzero])] at hb
      cases hb
    simp only [Session.step, hdone, heq, if_pos, update_self] at hcur
    simp only [wubuTxnCurrent, hc, update_self] at hcur
    rw [update_of_ne hzero.symm, hb] at hcur
    exact Option.some.inj hcur

/-- The stacks are right in every state of a run exactly if no caller pushes one transaction on another. -/
theorem nesting_iff (txns : Nat → WubuTxn) (calls : List StackCall) :
    Each Session.step (fun s c => (s.step c).MostRecent) (Session.init txns) calls ↔
      Each Session.step Session.Allows (Session.init txns) calls := by
  refine each_iff Session.Ok (fun s c hs hrecent => ?_) (fun s c hs => ?_) _ calls (Session.init_ok txns)
  · cases c with
    | push pid t => exact hs.step_push (hs.allows_push hrecent)
    | pop pid => exact hs.step_pop pid
  · cases c with
    | push pid t => exact ⟨hs.allows_push, fun h => (hs.step_push h).mostRecent⟩
    | pop pid => exact ⟨fun _ => trivial, fun _ => (hs.step_pop pid).mostRecent⟩

/-! ## Scope -/

/-- The pid is in the list that begins here, and ends with -1. -/
def Listed (src : Nat → Int32) (pid : Int32) : Prop := ∃ i, src i = pid ∧ ∀ j ≤ i, src j ≠ -1

/-- **What fits**: the first 256 places have all of the pids, and if there is one and the list ends there, then 0 is
one of them. -/
structure ScopeFits (src : Nat → Int32) : Prop where
  room : ∀ pid, Listed src pid → ∃ i < maxScopePids, src i = pid ∧ ∀ j ≤ i, src j ≠ -1
  zero : src 0 ≠ -1 → (∃ i < maxScopePids, src i = -1) → Listed src 0

variable {src dst : Nat → Int32} {i : Nat}

/-- What is copied. -/
theorem copyScope_eq (src : Nat → Int32) (n k : Nat) (dst : Nat → Int32) (i : Nat) :
    copyScope src n k dst i = if k ≤ i ∧ i < k + n ∧ ∀ j, k ≤ j → j ≤ i → src j ≠ -1 then src i else dst i := by
  induction n generalizing k dst with
  | zero => rw [copyScope, if_neg (by omega)]
  | succ n ih =>
    rw [copyScope]
    by_cases hend : src k = -1
    · rw [if_pos hend, if_neg]
      rintro ⟨hle, -, hall⟩
      exact hall k (Nat.le_refl k) hle hend
    · rw [if_neg hend, ih]
      rcases Nat.lt_trichotomy i k with hlt | rfl | hgt
      · rw [if_neg (by omega), if_neg (by omega), update_of_ne (by omega)]
      · rw [if_neg (by omega), if_pos, update_self]
        refine ⟨Nat.le_refl i, by omega, fun j hle hge => ?_⟩
        rwa [Nat.le_antisymm hge hle]
      · rw [update_of_ne (by omega)]
        refine if_congr ?_ rfl rfl
        constructor
        · rintro ⟨-, hlt, hall⟩
          refine ⟨by omega, by omega, fun j hle hge => ?_⟩
          rcases Nat.eq_or_lt_of_le hle with rfl | hlt'
          · exact hend
          · exact hall j hlt' hge
        · rintro ⟨-, hlt, hall⟩
          exact ⟨hgt, by omega, fun j hle hge => hall j (by omega) hge⟩

/-- Which pids are not external: those that are somewhere in the array, if the scope is not empty. -/
theorem isExternalPeer_eq_false (t : WubuTxn) (pid : Int32) :
    wubuTxnIsExternalPeer t pid = false ↔ ∃ i < t.scopeCount, t.scopePids i = pid := by
  rw [wubuTxnIsExternalPeer]
  split
  · rename_i hzero
    simp [hzero]
  · simp [List.all_eq_false]

/-- The scope that a transaction begins with. -/
theorem wubuTxnBegin_scope {mem : Bool × Bool} {checkpoint : CStr → CStr → Bool} {flags : UInt32} {name dir : Option CStr}
    {nextId nextId' : UInt64} {t : WubuTxn}
    (h : wubuTxnBegin mem checkpoint flags name (some src) dir nextId = (some t, nextId')) :
    t.scopePids = copyScope src maxScopePids 0 (fun _ => 0) ∧ t.scopeCount = if src 0 = -1 then 0 else maxScopePids := by
  rw [wubuTxnBegin] at h
  split at h
  · cases h
  split at h
  · cases h
  cases congrArg Prod.fst h
  exact ⟨rfl, rfl⟩

/-- **A scope is right** exactly if it fits. -/
theorem scope_iff {t : WubuTxn} (hpids : t.scopePids = copyScope src maxScopePids 0 (fun _ => 0))
    (hcount : t.scopeCount = if src 0 = -1 then 0 else maxScopePids) :
    (∀ pid, wubuTxnIsExternalPeer t pid = false ↔ Listed src pid) ↔ ScopeFits src := by
  by_cases hempty : src 0 = -1
  · have hnot : ∀ pid, ¬ Listed src pid := by
      rintro pid ⟨i, -, hall⟩
      exact hall 0 (Nat.zero_le i) hempty
    refine ⟨fun _ => ⟨fun pid h => absurd h (hnot pid), fun h => absurd hempty h⟩, fun _ pid => ?_⟩
    rw [isExternalPeer_eq_false, hcount, if_pos hempty]
    exact ⟨fun ⟨_, hlt, _⟩ => absurd hlt (Nat.not_lt_zero _), fun h => absurd h (hnot pid)⟩
  -- the pids before the end of the list are copied, and behind it there are zeros
  have hentry : ∀ i < maxScopePids, t.scopePids i = if ∀ j ≤ i, src j ≠ -1 then src i else 0 := by
    intro i hi
    rw [hpids, copyScope_eq]
    refine if_congr ?_ rfl rfl
    exact ⟨fun h j hj => h.2.2 j (Nat.zero_le j) hj, fun h => ⟨Nat.zero_le i, by omega, fun j _ hj => h j hj⟩⟩
  rw [if_neg hempty] at hcount
  have hin : ∀ pid, wubuTxnIsExternalPeer t pid = false ↔
      (∃ i < maxScopePids, src i = pid ∧ ∀ j ≤ i, src j ≠ -1) ∨ pid = 0 ∧ ∃ i < maxScopePids, src i = -1 := by
    intro pid
    rw [isExternalPeer_eq_false, hcount]
    constructor
    · rintro ⟨i, hi, heq⟩
      rw [hentry i hi] at heq
      split at heq
      · rename_i hall
        exact .inl ⟨i, hi, heq, hall⟩
      · rename_i hend
        rw [not_forall] at hend
        obtain ⟨j, hj⟩ := hend
        rw [Classical.not_imp, not_not] at hj
        exact .inr ⟨heq.symm, j, Nat.lt_of_le_of_lt hj.1 hi, hj.2⟩
    · rintro (⟨i, hi, heq, hall⟩ | ⟨rfl, i, hi, hend⟩)
      · exact ⟨i, hi, by rw [hentry i hi, if_pos hall, heq]⟩
      · exact ⟨i, hi, by rw [hentry i hi, if_neg fun hall => hall i (Nat.le_refl i) hend]⟩
  constructor
  · intro h
    refine ⟨fun pid hpid => ?_, fun _ hend => (h 0).1 ((hin 0).2 (.inr ⟨rfl, hend⟩))⟩
    rcases (hin pid).1 ((h pid).2 hpid) with hfits | ⟨rfl, hend⟩
    · exact hfits
    · -- the list ends within the first 256 places, and so the pid is there
      obtain ⟨i, heq, hall⟩ := hpid
      obtain ⟨k, hk, hend⟩ := hend
      have hlt : i < k := Nat.lt_of_not_le fun hle => hall k hle hend
      exact ⟨i, Nat.lt_trans hlt hk, heq, hall⟩
  · intro h pid
    rw [hin]
    constructor
    · rintro (⟨i, -, heq, hall⟩ | ⟨rfl, hend⟩)
      · exact ⟨i, heq, hall⟩
      · exact h.zero hempty hend
    · exact fun hpid => .inl (h.room pid hpid)

/-- **Nesting and scope.**  The current transaction is right in every state of a run exactly if no caller pushes one
transaction on another; and a scope is right exactly if it fits. -/
theorem nesting_and_scope (txns : Nat → WubuTxn) (calls : List StackCall) :
    (Each Session.step (fun s c => (s.step c).MostRecent) (Session.init txns) calls ↔
        Each Session.step Session.Allows (Session.init txns) calls) ∧
      ∀ (mem : Bool × Bool) (checkpoint : CStr → CStr → Bool) (flags : UInt32) (name dir : Option CStr)
        (src : Nat → Int32) (nextId nextId' : UInt64) (t : WubuTxn),
        wubuTxnBegin mem checkpoint flags name (some src) dir nextId = (some t, nextId') →
          ((∀ pid, wubuTxnIsExternalPeer t pid = false ↔ Listed src pid) ↔ ScopeFits src) := by
  refine ⟨nesting_iff txns calls, fun mem checkpoint flags name dir src nextId nextId' t h => ?_⟩
  obtain ⟨hpids, hcount⟩ := wubuTxnBegin_scope h
  exact scope_iff hpids hcount

/-- A transaction of which nothing is set. -/
def blankTxn : WubuTxn where
  id := 0
  flags := 0
  creatorPid := 0
  state := .invalid
  name := []
  liveDir := []
  checkpointDir := []
  checkpointValid := false
  scopePids := fun _ => 0
  scopeCount := 0
  ringCap := 0
  ringHead := 0
  ringCount := 0
  nestingDepth := 0

/-- A scope with one pid. -/
def scopeOf (pid : Int32) (i : Nat) : Int32 := if i = 0 then pid else -1

/-- One transaction is pushed, and one begins with a scope. -/
theorem nesting_and_scope_single : ∃ t,
    Each Session.step (fun s c => (s.step c).MostRecent) (Session.init fun _ => blankTxn) [.push 7 (some 1)] ∧
      ∀ pid, wubuTxnIsExternalPeer t pid = false ↔ Listed (scopeOf 0) pid := by
  refine ⟨_, (nesting_and_scope (fun _ => blankTxn) [.push 7 (some 1)]).1.2 ⟨fun _ _ _ _ _ _ h => ?_, trivial⟩,
    ((nesting_and_scope (fun _ => blankTxn) []).2 (true, true) (fun _ _ => true) 1 none none (scopeOf 0) 1 2 _ rfl).2
      ⟨?_, fun _ _ => ⟨0, rfl, by decide⟩⟩⟩
  · cases h
  · rintro pid ⟨i, hi, hne⟩
    exact ⟨i, Nat.lt_of_not_le fun h => hne 1 (by rw [maxScopePids] at h; omega) rfl, hi, hne⟩

/-- **The first of two transactions is the current one**, and pid 0 is in a scope of pid 1 alone. -/
theorem first_is_current : wubuTxnCurrent ([StackCall.push 7 (some 1), .push 7 (some 2)].foldl Session.step
        (Session.init fun _ => blankTxn)).callers 7 = some 1 ∧
      ([StackCall.push 7 (some 1), .push 7 (some 2)].foldl Session.step (Session.init fun _ => blankTxn)).opened 7 =
        [2, 1] ∧
      ∃ t, (wubuTxnBegin (true, true) (fun _ _ => true) 1 none (some (scopeOf 1)) none 1).1 = some t ∧
        wubuTxnIsExternalPeer t 0 = false ∧ ¬ Listed (scopeOf 1) 0 := by
  refine ⟨by decide, by decide, _, rfl, by decide, ?_⟩
  rintro ⟨i, heq, hall⟩
  rw [scopeOf] at heq
  split at heq
  · exact absurd heq (by decide)
  · exact absurd heq (by decide)

end WuBuOS.Transaction
