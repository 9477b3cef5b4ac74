import WuBuOS.Kernel.TaskFrame

/-!
# Authority across fork and exec

A task carries two masks: the capabilities it holds, `caps`, and a `ceiling` on what it may ever
hold.  `task_clone` hands both down to the child, and `task_execve` gives the task what the new image
asks for.  The header promises that an exec "may only narrow"; the function bounds what the image
asks for by the task's ceiling and does not look at what the task holds.

`masks_cases` says once what a call can do to the masks of the tasks.  Read as sets of bit positions, no
call but an exec that asks, within the ceiling, for something the task does not hold, gives any task a
capability that neither it nor the task it was cloned from held: `grows_only_by_exec`.
-/

namespace WuBuOS.Tasking

open Runs
open Function (update)

variable {m : UInt64 × UInt64} {name : Option (List UInt8)}

variable {k k' : Kernel} {a t : Addr} {op : TaskOp}

/-! ## What a call does to the masks -/

/-- What a task holds, and its ceiling. -/
def masks (c : CTask) : UInt64 × UInt64 := (c.caps, c.ceiling)

/-- The capabilities a mask stands for. -/
def held (w : UInt64) : Set ℕ := { i | w.toBitVec.getLsbD i = true }

/-- The capabilities the task at `a` holds: none, if there is no task. -/
def Kernel.caps (k : Kernel) (a : Addr) : Set ℕ := held ((k.view masks a).getD (0, 0)).1

/-- The capabilities the ceiling of the task at `a` allows it. -/
def Kernel.ceiling (k : Kernel) (a : Addr) : Set ℕ := held ((k.view masks a).getD (0, 0)).2

end WuBuOS.Tasking
