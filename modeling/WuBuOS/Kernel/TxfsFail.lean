import WuBuOS.Kernel.Txfs

/-!
# A commit that fails

`txfs_commit` writes the operations of a transaction to the journal one by one, and gives up at the
first that does not fit.  It does not take back those that did: the count of entries stays raised, and
the room they take is lost to every later transaction.
-/

namespace WuBuOS.Journal

variable {tx tx' : Txfs} {txnId i : Nat} {ops : List Buf}

/-- There is room in the journal for the `i`-th entry that comes next. -/
def Fits (tx : Txfs) (i : Nat) : Prop :=
  entryOffset ((tx.header.entryCount + i) % 2 ^ 32) + entrySize ≤ tx.journalSize

/-- What the journal holds is as it was. -/
structure SameEntries (tx tx' : Txfs) : Prop where
  entryCount : tx'.header.entryCount = tx.header.entryCount
  committedCount : tx'.header.committedCount = tx.header.committedCount
  journal : tx'.journal = tx.journal

/-- A transaction with these operations is active. -/
def Txfs.during (tx : Txfs) (txnId : Nat) (ops : List Buf) : Txfs :=
  { tx with activeTxn := ⟨txnId, .open, ops⟩, txnActive := true }

/-- **A failed commit costs nothing**: the journal is as it was, and a transaction that could have been
committed before can be committed afterwards. -/
def FailsClean (tx : Txfs) : Prop :=
  ∀ tx', txfsCommit tx = (false, tx') → SameEntries tx tx' ∧
    ∀ txnId ops, (txfsCommit (tx.during txnId ops)).1 = true → (txfsCommit (tx'.during txnId ops)).1 = true

theorem FailsClean.later (h : FailsClean tx) (hfail : (txfsCommit tx).1 = false)
    (hbefore : (txfsCommit (tx.during txnId ops)).1 = true) :
    (txfsCommit ((txfsCommit tx).2.during txnId ops)).1 = true :=
  (h _ (Prod.ext hfail rfl)).2 txnId ops hbefore

/-- No operation of the transaction is written, or all of them are. -/
def NoneOrAll (tx : Txfs) : Prop :=
  tx.txnActive = false ∨ tx.journal = none ∨ ¬Fits tx 0 ∨ ∀ i < tx.activeTxn.ops.length, Fits tx i

/-! ## Writing the operations -/

theorem journalWriteEntry_of_fits {entry journal : Buf} (hcount : tx.header.entryCount < 2 ^ 32)
    (hj : tx.journal = some journal) (h : Fits tx 0) :
    ∃ tx1, journalWriteEntry entry tx = (true, tx1) ∧ tx1.journal.isSome ∧ tx1.journalSize = tx.journalSize ∧
      tx1.header.entryCount = (tx.header.entryCount + 1) % 2 ^ 32 := by
  rw [Fits, Nat.add_zero, Nat.mod_eq_of_lt hcount] at h
  rw [journalWriteEntry, hj]
  dsimp only
  rw [if_neg (Nat.not_lt.2 h)]
  exact ⟨_, rfl, rfl, rfl, rfl⟩

theorem journalWriteEntry_of_not_fits {entry : Buf} (hcount : tx.header.entryCount < 2 ^ 32)
    (h : tx.journal = none ∨ ¬Fits tx 0) : journalWriteEntry entry tx = (false, tx) := by
  rw [journalWriteEntry]
  split
  · rfl
  · rename_i journal hj
    have h := h.resolve_left fun h => by rw [h] at hj; cases hj
    rw [Fits, Nat.add_zero, Nat.mod_eq_of_lt hcount, Nat.not_le] at h
    exact if_pos h

theorem fits_succ (hsize : tx'.journalSize = tx.journalSize)
    (hcount : tx'.header.entryCount = (tx.header.entryCount + 1) % 2 ^ 32) :
    Fits tx' i ↔ Fits tx (i + 1) := by
  rw [Fits, Fits, hsize, hcount, Nat.mod_add_mod, Nat.add_assoc, Nat.add_comm 1]

/-- **How far the operations are written**: up to the first that does not fit. -/
theorem writeOps_until (txnId : Nat) (ops : List Buf) (i : Nat) (tx : Txfs)
    (hcount : tx.header.entryCount < 2 ^ 32) (hj : tx.journal.isSome) :
    ∃ n ≤ ops.length, (∀ k < n, Fits tx k) ∧
      (writeOps txnId i ops tx).2.header.entryCount = (tx.header.entryCount + n) % 2 ^ 32 ∧
      ((writeOps txnId i ops tx).1 = true ∧ n = ops.length ∨
        (writeOps txnId i ops tx).1 = false ∧ n < ops.length ∧ ¬Fits tx n) := by
  induction ops generalizing tx i with
  | nil => exact ⟨0, Nat.le_refl 0, fun k hk => absurd hk (Nat.not_lt_zero k),
      (Nat.mod_eq_of_lt hcount).symm, Or.inl ⟨rfl, rfl⟩⟩
  | cons op ops ih =>
    rw [writeOps]
    by_cases hfits : Fits tx 0
    · obtain ⟨journal, hj⟩ := Option.isSome_iff_exists.1 hj
      obtain ⟨tx1, hw, hj1, hsize, hcount1⟩ :=
        @journalWriteEntry_of_fits tx (sealOp txnId i op) journal hcount hj hfits
      obtain ⟨n, hn, hall, hend, hres⟩ := ih (i + 1) tx1 (by rw [hcount1]; exact Nat.mod_lt _ (by decide)) hj1
      rw [hw]
      refine ⟨n + 1, Nat.succ_le_succ hn, fun k hk => ?_, ?_, ?_⟩
      · cases k with
        | zero => exact hfits
        | succ k => exact (fits_succ hsize hcount1).mp (hall k (Nat.lt_of_succ_lt_succ hk))
      · rw [hend, hcount1, Nat.mod_add_mod, Nat.add_assoc, Nat.add_comm 1]
      · rw [List.length_cons, ← fits_succ hsize hcount1]
        exact hres.imp (fun h => ⟨h.1, congrArg (· + 1) h.2⟩) fun h => ⟨h.1, Nat.succ_lt_succ h.2.1, h.2.2⟩
    · rw [journalWriteEntry_of_not_fits hcount (Or.inr hfits)]
      exact ⟨0, Nat.zero_le _, fun k hk => absurd hk (Nat.not_lt_zero k), (Nat.mod_eq_of_lt hcount).symm,
        Or.inr ⟨rfl, Nat.succ_pos _, hfits⟩⟩

/-! ## Committing -/

/-- The operations of the active transaction are written. -/
def written (tx : Txfs) : Bool × Txfs :=
  writeOps tx.activeTxn.txnId 0 tx.activeTxn.ops (setState tx .committing)

/-- A commit does what writing the operations does. -/
theorem commit_written (hactive : tx.txnActive = true) (hops : tx.activeTxn.ops ≠ []) :
    (txfsCommit tx).1 = (written tx).1 ∧ ((written tx).1 = false →
        (txfsCommit tx).2.header = (written tx).2.header ∧ (txfsCommit tx).2.journal = (written tx).2.journal ∧
          (txfsCommit tx).2.journalSize = (written tx).2.journalSize) := by
  rw [txfsCommit, if_neg (by simp [hactive]), if_neg hops, written]
  cases writeOps tx.activeTxn.txnId 0 tx.activeTxn.ops (setState tx .committing) with
  | mk ok tx1 =>
    cases ok with
    | false => exact ⟨rfl, fun _ => ⟨rfl, rfl, rfl⟩⟩
    | true => exact ⟨rfl, fun h => absurd h.symm Bool.false_ne_true⟩

/-- Nothing is written, and the operations are not. -/
theorem written_none (hcount : tx.header.entryCount < 2 ^ 32) (hops : tx.activeTxn.ops ≠ [])
    (h : tx.journal = none ∨ ¬Fits tx 0) : written tx = (false, setState tx .committing) := by
  obtain ⟨op, ops, hcons⟩ := List.exists_cons_of_ne_nil hops
  rw [written, hcons, writeOps,
    @journalWriteEntry_of_not_fits (setState tx .committing) (sealOp tx.activeTxn.txnId 0 op) hcount h]

/-- **When a commit succeeds.** -/
theorem commit_fst (hcount : tx.header.entryCount < 2 ^ 32) : (txfsCommit tx).1 = true ↔ tx.txnActive = true ∧
      (tx.activeTxn.ops = [] ∨ tx.journal.isSome ∧ ∀ i < tx.activeTxn.ops.length, Fits tx i) := by
  cases hactive : tx.txnActive with
  | false =>
    rw [txfsCommit, if_pos hactive]
    simp
  | true =>
    rw [and_iff_right rfl]
    by_cases hops : tx.activeTxn.ops = []
    · rw [txfsCommit, if_neg (by simp [hactive]), if_pos hops]
      exact iff_of_true rfl (Or.inl hops)
    · rw [(commit_written hactive hops).1, or_iff_right hops]
      by_cases hj : tx.journal.isSome
      · obtain ⟨n, -, hall, -, ⟨hok, hn⟩ | ⟨hfail, hn, hnot⟩⟩ :=
          writeOps_until tx.activeTxn.txnId tx.activeTxn.ops 0 (setState tx .committing) hcount hj
        · rw [hn] at hall
          exact iff_of_true hok ⟨hj, hall⟩
        · exact iff_of_false (fun hok => by rw [written, hfail] at hok; cases hok) fun h => hnot (h.2 n hn)
      · have hnone : tx.journal = none := by simpa using hj
        rw [written_none hcount hops (Or.inl hnone)]
        exact iff_of_false Bool.false_ne_true fun h => hj h.1

/-- The journal is all that a later commit depends on. -/
theorem commit_during (hcount : tx.header.entryCount < 2 ^ 32) (hheader : tx'.header = tx.header)
    (hj : tx'.journal = tx.journal) (hsize : tx'.journalSize = tx.journalSize)
    (h : (txfsCommit (tx.during txnId ops)).1 = true) : (txfsCommit (tx'.during txnId ops)).1 = true := by
  rw [commit_fst (show (tx.during txnId ops).header.entryCount < 2 ^ 32 from hcount)] at h
  rw [commit_fst (show (tx'.during txnId ops).header.entryCount < 2 ^ 32 from hheader ▸ hcount)]
  have hfits : ∀ i, Fits (tx'.during txnId ops) i ↔ Fits (tx.during txnId ops) i := by
    intro i
    simp only [Fits, Txfs.during, hheader, hsize]
  simp only [hfits]
  simp only [Txfs.during, hj] at h ⊢
  exact h

/-- If no operation is written, a commit that fails leaves the journal alone. -/
theorem NoneOrAll.keeps (h : NoneOrAll tx) (hcount : tx.header.entryCount < 2 ^ 32)
    (hfail : (txfsCommit tx).1 = false) :
    (txfsCommit tx).2.header = tx.header ∧ (txfsCommit tx).2.journal = tx.journal ∧
      (txfsCommit tx).2.journalSize = tx.journalSize := by
  cases hactive : tx.txnActive with
  | false =>
    rw [txfsCommit, if_pos hactive]
    exact ⟨rfl, rfl, rfl⟩
  | true =>
    have hnot := mt (commit_fst hcount).2 (by simp [hfail])
    rw [hactive, and_iff_right rfl, not_or] at hnot
    have hnone : tx.journal = none ∨ ¬Fits tx 0 := by
      rcases h with h | h | h | h
      · rw [h] at hactive
        cases hactive
      · exact Or.inl h
      · exact Or.inr h
      · refine Or.inl ?_
        by_contra hj
        exact hnot.2 ⟨Option.isSome_iff_ne_none.2 hj, h⟩
    have hw := written_none hcount hnot.1 hnone
    have hsame := (commit_written hactive hnot.1).2 (congrArg Prod.fst hw)
    rwa [hw] at hsame

/-- Otherwise the count of entries is raised. -/
theorem commit_raises (hcount : tx.header.entryCount < 2 ^ 32) (hops : tx.activeTxn.ops.length ≤ maxTxnOps)
    (hnot : ¬NoneOrAll tx) :
    (txfsCommit tx).1 = false ∧ (txfsCommit tx).2.header.entryCount ≠ tx.header.entryCount := by
  rw [NoneOrAll, not_or, not_or, not_or, not_not, Bool.not_eq_false] at hnot
  obtain ⟨hactive, hj, hfits, hall⟩ := hnot
  have hne : tx.activeTxn.ops ≠ [] := by
    intro hnil
    rw [hnil] at hall
    exact hall fun i hi => absurd hi (Nat.not_lt_zero i)
  obtain ⟨n, -, hpre, hend, ⟨-, hn⟩ | ⟨hfail, hn, hstop⟩⟩ := writeOps_until tx.activeTxn.txnId
    tx.activeTxn.ops 0 (setState tx .committing) hcount (Option.isSome_iff_ne_none.2 hj)
  · rw [hn] at hpre
    exact absurd hpre hall
  -- at least one operation has been written, and fewer than there are
  have hn0 : n ≠ 0 := by
    rintro rfl
    exact hstop hfits
  obtain ⟨hok, hsame⟩ := commit_written hactive hne
  refine ⟨hok.trans hfail, fun hkept => ?_⟩
  rw [(hsame hfail).1] at hkept
  have hraised : (tx.header.entryCount + n) % 2 ^ 32 = tx.header.entryCount := hend.symm.trans hkept
  rw [maxTxnOps] at hops
  omega

/-- **When a failed commit costs nothing.** -/
theorem failsClean_iff (hcount : tx.header.entryCount < 2 ^ 32)
    (hops : tx.activeTxn.ops.length ≤ maxTxnOps) : FailsClean tx ↔ NoneOrAll tx := by
  constructor
  · intro hclean
    by_contra hnot
    obtain ⟨hfail, hraised⟩ := commit_raises hcount hops hnot
    exact hraised (hclean _ (Prod.ext hfail rfl)).1.entryCount
  · rintro h tx' hcommit
    have htx' : (txfsCommit tx).2 = tx' := congrArg Prod.snd hcommit
    obtain ⟨hh, hj, hs⟩ := h.keeps hcount (congrArg Prod.fst hcommit)
    rw [htx'] at hh hj hs
    exact ⟨⟨congrArg _ hh, congrArg _ hh, hj⟩, fun _ _ => commit_during hcount hh hj hs⟩

/-- A fresh journal, and a transaction of so many operations. -/
def creating (n : Nat) : Txfs :=
  ((Call.begin :: List.replicate n (.create none)).foldl Session.step ⟨txfsInit, []⟩).tx

theorem failsClean_iff_one : FailsClean (creating 1) ↔ NoneOrAll (creating 1) :=
  failsClean_iff (by decide) (by decide)

set_option maxRecDepth 4000 in
/-- **There is room for 61 entries**, and a transaction of 62 operations takes it all: it is not committed,
and after it a transaction of one operation is not either, though it would have been before. -/
theorem commit_sixtyTwo : (txfsCommit (creating 62)).1 = false ∧ (creating 62).header.entryCount = 0 ∧
      (txfsCommit (creating 62)).2.header.entryCount = 61 ∧
      (∃ txnId ops, (txfsCommit ((creating 62).during txnId ops)).1 = true ∧
        (txfsCommit ((txfsCommit (creating 62)).2.during txnId ops)).1 = false) ∧
      ¬FailsClean (creating 62) := by
  have hfail : (txfsCommit (creating 62)).1 = false := by decide
  have hcount : (txfsCommit (creating 62)).2.header.entryCount = 61 := by decide
  have hbefore : (txfsCommit ((creating 62).during 2 [fun _ => 0])).1 = true := by decide
  have hafter : (txfsCommit ((txfsCommit (creating 62)).2.during 2 [fun _ => 0])).1 = false := by decide
  exact ⟨hfail, by decide, hcount, ⟨2, [fun _ => 0], hbefore, hafter⟩, fun hclean =>
    Bool.false_ne_true (hafter.symm.trans (hclean.later hfail hbefore))⟩

end WuBuOS.Journal
