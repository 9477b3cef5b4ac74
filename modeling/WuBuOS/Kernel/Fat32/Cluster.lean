import WuBuOS.Kernel.Fat32.Volume

/-!
# Clusters

`kernel/fat32_cluster.c`.  The clusters of a file are chained through the table: the entry of a cluster
is the next one, or an end-of-chain mark.  Clusters are numbered from 2, and a function that has no
cluster to return returns 0.

Loops that follow a chain need not end if the chain is a cycle.  They are run for as many steps as
there are cluster numbers, `maxSteps`; if they have not ended by then, the computation is `stuck`, and
its result is `none`.  So such a function is an `M`.
-/

namespace WuBuOS.Fat32

/-- Computations on a volume that need not end. -/
abbrev M (α : Type) := StateT Fs Option α

/-- A computation that does not end. -/
def stuck {α : Type} : M α := fun _ => none

/-- A function that always ends. -/
def lift {α : Type} (f : Fs → α × Fs) : M α := fun fs => some (f fs)

theorem lift_run {α : Type} {f : Fs → α × Fs} {fs fs' : Fs} {a : α} (h : f fs = (a, fs')) :
    lift f fs = some (a, fs') := congrArg some h

theorem get_run (fs : Fs) : (get : M Fs) fs = some (fs, fs) := rfl

theorem modify_run (f : Fs → Fs) (fs : Fs) : (modify f : M PUnit) fs = some (⟨⟩, f fs) := rfl

theorem bind_run {α β : Type} {x : M α} {f : α → M β} {fs fs' : Fs} {a : α}
    (h : x fs = some (a, fs')) : (x >>= f) fs = f a fs' := by
  show (x fs).bind (fun r => f r.1 r.2) = _
  rw [h]
  rfl

theorem bind_inv {α β : Type} {x : M α} {f : α → M β} {fs fs' : Fs} {b : β}
    (h : (x >>= f) fs = some (b, fs')) : ∃ a fs1, x fs = some (a, fs1) ∧ f a fs1 = some (b, fs') := by
  obtain ⟨⟨a, fs1⟩, hx, hf⟩ := Option.bind_eq_some_iff.1 h
  exact ⟨a, fs1, hx, hf⟩

/-- There are no more cluster numbers than this. -/
def maxSteps : Nat := 2 ^ 28

/-- The cluster number is one of a cluster: `cluster >= 2 && cluster < FAT32_CLUSTER_EOC`. -/
def IsCluster (cluster : Nat) : Prop := 2 ≤ cluster ∧ cluster < clusterEoc

instance (cluster : Nat) : Decidable (IsCluster cluster) :=
  inferInstanceAs (Decidable (2 ≤ cluster ∧ cluster < clusterEoc))

def fat32NextCluster (cluster : Nat) (fs : Fs) : Nat × Fs :=
  if cluster < 2 then (0, fs)
  else
    match fatReadEntry cluster fs with
    | (none, fs) => (0, fs)
    | (some entry, fs) => (if clusterEoc ≤ entry then 0 else entry, fs)

def fat32ClusterToLba (vol : Volume) (cluster : Nat) : Nat :=
  if cluster < 2 then 0 else vol.dataLba + (cluster - 2) * vol.sectorsPerCluster

/-- The scan of `fat32_alloc_clusters` for free clusters, with so many still to be scanned: the first
of the run at hand and its length, or `none` if a read fails. -/
def scanFree (count : Nat) : Nat → Nat → Nat → Nat → Fs → Option (Nat × Nat) × Fs
  | 0, _, first, found, fs => (some (first, found), fs)
  | n + 1, cluster, first, found, fs =>
    let cluster := if fs.vol.totalClusters ≤ cluster then 2 else cluster
    match fatReadEntry cluster fs with
    | (none, fs) => (none, fs)
    | (some entry, fs) =>
      if entry = clusterFree then
        let first := if found = 0 then cluster else first
        if count ≤ found + 1 then (some (first, found + 1), fs)
        else scanFree count n (cluster + 1) first (found + 1) fs
      else scanFree count n (cluster + 1) 0 0 fs

/-- Link the run of clusters that begins at `first`, with so many still to be linked. -/
def linkRun (first count : Nat) : Nat → Fs → Bool × Fs
  | 0, fs => (true, fs)
  | n + 1, fs =>
    let c := (first + (count - (n + 1))) % 2 ^ 32
    match fatWriteEntry c (if n = 0 then clusterEoc else c + 1) fs with
    | (false, fs) => (false, fs)
    | (true, fs) => linkRun first count n fs

/-- What `fat32_alloc_clusters` does to the hint and the count of free clusters. -/
def tookClusters (first count : Nat) (vol : Volume) : Volume :=
  let next := (first + count) % 2 ^ 32
  { vol with
    nextFree := if vol.totalClusters ≤ next then 2 else next
    freeClusters := if count < vol.freeClusters then vol.freeClusters - count else vol.freeClusters }

def fat32AllocClusters (count hint : Nat) (fs : Fs) : Nat × Fs :=
  if count = 0 then (0, fs)
  else
    match scanFree count fs.vol.totalClusters (if 2 ≤ hint then hint else 2) 0 0 fs with
    | (none, fs) => (0, fs)
    | (some (first, found), fs) =>
      if found < count then (0, fs)
      else
        match linkRun first count count fs with
        | (false, fs) => (0, fs)
        | (true, fs) => (first, { fs with vol := tookClusters first count fs.vol })

/-- The loop of `fat32_free_chain`. -/
def freeChainLoop : Nat → Nat → M Unit
  | 0, _ => stuck
  | fuel + 1, cluster => do
    if IsCluster cluster then
      match ← lift (fatReadEntry cluster) with
      | none => pure ()
      | some next =>
        let _ ← lift (fatWriteEntry cluster clusterFree)
        modify fun fs =>
          { fs with vol := { fs.vol with freeClusters := (fs.vol.freeClusters + 1) % 2 ^ 32 } }
        if clusterEoc ≤ next then pure () else freeChainLoop fuel next
    else pure ()

def fat32FreeChain (cluster : Nat) : M Unit := freeChainLoop maxSteps cluster

/-- The loop of `fat32_count_free`, with so many clusters still to be counted. -/
def countFreeLoop : Nat → Nat → Nat → Fs → Nat × Fs
  | 0, _, count, fs => (count, fs)
  | n + 1, c, count, fs =>
    match fatReadEntry c fs with
    | (none, fs) => (count, fs)
    | (some entry, fs) =>
      countFreeLoop n (c + 1) (if entry = clusterFree then count + 1 else count) fs

def fat32CountFree (fs : Fs) : Nat × Fs :=
  let r := countFreeLoop (fs.vol.totalClusters - 2) 2 0 fs
  (r.1, { r.2 with vol := { r.2.vol with freeClusters := r.1 } })

end WuBuOS.Fat32
