import WuBuOS.Kernel.TxfsPayload

/-!
# The log of what was asked for

The committed entries of the journal, held against the calls that were made.  A `Ledger` is kept beside the
journal: it sees the arguments of each call and whether the call succeeded, and nothing of what the journal
module keeps for itself.  From these it knows which transaction is open, what has been asked for in it, and,
when a commit succeeds, what the log has to be.

* `EntryOf` says which bytes of an entry stand for an operation: the layout of `txfs_journal_entry_t`.
* `Tracks` relates the journal to the ledger; `Tracks.step` keeps it over every call.
* `committed_log`: the committed entries are those of the ledger, field by field, after any sequence of calls.
-/

namespace WuBuOS.Journal

open Bytes

/-! ## What is asked for -/

/-- The arguments of a call for an operation. -/
structure Asked where
  type : OpType
  path : Option (List UInt8)
  offset : Nat
  data : Option Buf
  size : Nat
  path2 : Option (List UInt8)

/-- The operation that a call asks for. -/
def Call.asks : Call → Option Asked
  | .write path offset data size => some ⟨.write, path, offset, data, size, none⟩
  | .truncate path size => some ⟨.truncate, path, size, none, 0, none⟩
  | .create path => some ⟨.create, path, 0, none, 0, none⟩
  | .delete path => some ⟨.delete, path, 0, none, 0, none⟩
  | .mkdir path => some ⟨.mkdir, path, 0, none, 0, none⟩
  | .rename oldPath newPath => some ⟨.rename, oldPath, 0, none, 0, newPath⟩
  | _ => none

/-- The call is made; whether it succeeds. -/
def Call.run : Call → Txfs → Bool × Txfs
  | .begin => txfsBegin
  | .write path offset data size => txfsWrite path offset data size
  | .truncate path size => txfsTruncate path size
  | .create path => txfsCreate path
  | .delete path => txfsDelete path
  | .mkdir path => txfsMkdir path
  | .rename oldPath newPath => txfsRename oldPath newPath
  | .commit => txfsCommit
  | .abort => txfsAbort
  | .recover => fun tx => (true, (txfsRecover tx).2)

/-- An operation of a committed transaction, with its number in it. -/
structure Logged where
  txnId : Nat
  index : Nat
  asked : Asked

/-- **What the calls have asked for**: the operations since the last `txfs_begin` that succeeded, and those of
the committed transactions, in the order of the commits.  Transactions are numbered from 1 on. -/
structure Ledger where
  nextId : Nat
  txnId : Nat
  ops : List Asked
  log : List Logged

def Ledger.empty : Ledger := ⟨1, 0, [], []⟩

/-- The operations of a transaction, from number `i` on. -/
def logged (txnId : Nat) : Nat → List Asked → List Logged
  | _, [] => []
  | i, a :: as => ⟨txnId, i, a⟩ :: logged txnId (i + 1) as

/-- What a call that succeeds adds. -/
def Ledger.note (l : Ledger) : Call → Ledger
  | .begin => { l with nextId := (l.nextId + 1) % 2 ^ 32, txnId := l.nextId, ops := [] }
  | .commit => { l with log := l.log ++ logged l.txnId 0 l.ops }
  | .abort => l
  | .recover => l
  | call => { l with ops := l.ops ++ call.asks.toList }

/-- A call is made, and noted if it succeeds. -/
def Ledger.step (s : Txfs × Ledger) (call : Call) : Txfs × Ledger :=
  ((call.run s.1).2, if (call.run s.1).1 then s.2.note call else s.2)

/-! ## The entry of an operation -/

/-- A byte of a path in a field of zeros, as `strncpy` leaves it. -/
def pathByte (path : Option (List UInt8)) (k : Nat) : UInt8 :=
  if k < maxPath - 1 then (path.getD []).getD k 0 else 0

/-- **The entry stands for the operation**: what each field of `txfs_journal_entry_t` holds. -/
structure EntryOf (entry : Buf) (l : Logged) : Prop where
  type : get entry 0 4 = l.asked.type.code
  txnId : get entry 4 4 = l.txnId
  index : get entry 8 4 = l.index
  offset : get entry 12 8 = l.asked.offset % 2 ^ 64
  size : get entry 20 4 = min l.asked.size inlineData
  path : ∀ k < maxPath, entry (24 + k) = pathByte l.asked.path k
  path2 : ∀ k < maxPath, entry (280 + k) = pathByte l.asked.path2 k
  data : ∀ k < min l.asked.size inlineData, entry (536 + k) = (l.asked.data.getD fun _ => 0) k
  crc : get entry 1048 4 = dataCrc entry 0

variable {l : Logged} {s : Txfs × Ledger}

/-- The operation as `add_op` builds it. -/
def Asked.op (a : Asked) : Buf := buildOp a.type a.path a.offset a.data a.size a.path2

/-- The entry that a commit writes for it. -/
def Logged.entry (l : Logged) : Buf := sealOp l.txnId l.index l.asked.op

theorem putPath_inside {op : Buf} {b k : Nat} (path : Option (List UInt8)) (h0 : op (b + k) = 0) :
    putPath op b path (b + k) = pathByte path k := by
  rw [pathByte]
  cases path with
  | none =>
    rw [putPath, h0]
    exact (ite_self 0).symm
  | some p =>
    rw [putPath]
    split
    · rename_i hlt
      exact write_inside hlt
    · rename_i hge
      rw [write_outside (Or.inr (Nat.add_le_add_left (Nat.not_lt.1 hge) b)), h0]

/-- The numbers of an operation lie in front of its paths and its data. -/
theorem head_zero (type : OpType) (offset size : Nat) {b : Nat} (hb : 24 ≤ b) :
    put (put (put (fun _ => 0) 0 4 type.code) 12 8 offset) 20 4 (min size inlineData) b = 0 := by
  rw [put, write_outside (by omega), put, write_outside (by omega), put, write_outside (by omega)]

/-- An operation in front of its data. -/
theorem Asked.op_byte (a : Asked) {b : Nat} (hb : b < 536) :
    a.op b = putPath (putPath (put (put (put (fun _ => 0) 0 4 a.type.code) 12 8 a.offset) 20 4
      (min a.size inlineData)) 24 a.path) 280 a.path2 b := by
  rw [Asked.op]
  cases a.data with
  | none => rfl
  | some data => exact write_outside (Or.inl hb)

theorem Asked.op_path (a : Asked) {k : Nat} (hk : k < maxPath) : a.op (24 + k) = pathByte a.path k := by
  have hk' := hk
  rw [maxPath] at hk'
  rw [a.op_byte (by omega), putPath_byte a.path2 (Or.inl (by omega))]
  exact putPath_inside a.path (head_zero _ _ _ (Nat.le_add_right ..))

theorem Asked.op_path2 (a : Asked) {k : Nat} (hk : k < maxPath) : a.op (280 + k) = pathByte a.path2 k := by
  have hk' := hk
  rw [maxPath] at hk'
  rw [a.op_byte (by omega)]
  refine putPath_inside a.path2 ?_
  rw [putPath_byte a.path (Or.inr (by rw [maxPath]; omega))]
  exact head_zero _ _ _ (by omega)

theorem Asked.op_data (a : Asked) {k : Nat} (hk : k < min a.size inlineData) :
    a.op (536 + k) = (a.data.getD fun _ => 0) k := by
  rw [Asked.op]
  cases a.data with
  | none =>
    refine (putPath_byte a.path2 (Or.inr (by rw [maxPath]; omega))).trans
      ((putPath_byte a.path (Or.inr (by rw [maxPath]; omega))).trans (head_zero _ _ _ (by omega)))
  | some data => exact write_inside hk

theorem Asked.op_size (a : Asked) : get a.op 20 4 = min a.size inlineData := by
  rw [Asked.op, buildOp_get _ _ _ _ _ _ (by decide), get_put]
  exact Nat.mod_eq_of_lt (lt_of_le_of_lt (min_le_right ..) (by decide))

theorem OpType.code_lt (type : OpType) : type.code < 256 ^ 4 := by cases type <;> decide

/-- **What a commit writes** stands for the operation. -/
theorem Logged.entryOf (htxn : l.txnId < 2 ^ 32) (hindex : l.index < 2 ^ 32) : EntryOf l.entry l where
  type := by
    rw [Logged.entry, sealOp_get _ _ _ (by decide), Asked.op, buildOp_get _ _ _ _ _ _ (by decide),
      get_put_outside (by decide), get_put_outside (by decide), get_put]
    exact Nat.mod_eq_of_lt (OpType.code_lt _)
  txnId := by
    rw [Logged.entry, sealOp, get_put_outside (by decide), get_put_outside (by decide), get_put]
    exact Nat.mod_eq_of_lt htxn
  index := by
    rw [Logged.entry, sealOp, get_put_outside (by decide), get_put]
    exact Nat.mod_eq_of_lt hindex
  offset := by
    rw [Logged.entry, sealOp_get _ _ _ (by decide), Asked.op, buildOp_get _ _ _ _ _ _ (by decide),
      get_put_outside (by decide), get_put]
    rfl
  size := by
    rw [Logged.entry, sealOp_get _ _ _ (by decide)]
    exact l.asked.op_size
  path := by
    intro k hk
    have hk' := hk
    rw [maxPath] at hk'
    rw [Logged.entry, sealOp_byte _ _ _ (by omega)]
    exact l.asked.op_path hk
  path2 := by
    intro k hk
    have hk' := hk
    rw [maxPath] at hk'
    rw [Logged.entry, sealOp_byte _ _ _ (by omega)]
    exact l.asked.op_path2 hk
  data := by
    intro k hk
    have hlt := Nat.lt_min.1 hk
    rw [inlineData] at hlt
    rw [Logged.entry, sealOp_byte _ _ _ (by omega)]
    exact l.asked.op_data hk
  crc := by
    have hcrc : dataCrc l.entry 0 = dataCrc (put (put l.asked.op 4 4 l.txnId) 8 4 l.index) 0 := by
      refine dataCrc_congr ?_ fun k hk => ?_
      · rw [get_put_outside (by decide), get_put_outside (by decide), l.asked.op_size]
        exact min_le_right ..
      · rw [Logged.entry, sealOp, put, write_outside (by omega)]
    rw [hcrc, Logged.entry, sealOp, get_put]
    exact Nat.mod_eq_of_lt (UInt32.toNat_lt _)

/-- It depends on the bytes of the entry only. -/
theorem EntryOf.congr {entry entry' : Buf} (h : EntryOf entry l) (heq : ∀ k < entrySize, entry' k = entry k) :
    EntryOf entry' l := by
  have hget : ∀ a n, a + n ≤ entrySize → get entry' a n = get entry a n := fun a n hn =>
    get_congr fun x _ hx => heq x (lt_of_lt_of_le hx hn)
  have hsize : get entry 20 4 ≤ inlineData := by
    rw [h.size]
    exact min_le_right ..
  have hcrc : dataCrc entry' 0 = dataCrc entry 0 := dataCrc_congr hsize fun k hk => by
    rw [Nat.zero_add]
    exact heq k (lt_trans hk (by decide))
  exact {
    type := (hget 0 4 (by decide)).trans h.type
    txnId := (hget 4 4 (by decide)).trans h.txnId
    index := (hget 8 4 (by decide)).trans h.index
    offset := (hget 12 8 (by decide)).trans h.offset
    size := (hget 20 4 (by decide)).trans h.size
    path := fun k hk => (heq _ (lt_trans (Nat.add_lt_add_left hk 24) (by decide))).trans (h.path k hk)
    path2 := fun k hk => (heq _ (lt_trans (Nat.add_lt_add_left hk 280) (by decide))).trans (h.path2 k hk)
    data := fun k hk => (heq _ (lt_trans (Nat.add_lt_add_left (Nat.lt_min.1 hk).2 536) (by decide))).trans (h.data k hk)
    crc := ((hget 1048 4 (by decide)).trans h.crc).trans hcrc.symm }

/-! ## The journal and the ledger -/

theorem Call.run_asks {call : Call} {a : Asked} (h : call.asks = some a) (tx : Txfs) :
    call.run tx = addOp a.type a.path a.offset a.data a.size a.path2 tx := by
  cases call with
  | begin | commit | abort | recover => cases h
  | _ =>
    cases h
    rfl

theorem Ledger.note_asks {call : Call} {a : Asked} (h : call.asks = some a) (l : Ledger) :
    l.note call = { l with ops := l.ops ++ [a] } := by
  cases call with
  | begin | commit | abort | recover => cases h
  | _ =>
    cases h
    rfl

theorem sealOps_logged (txnId i : Nat) (ops : List Asked) :
    sealOps txnId i (ops.map Asked.op) = (logged txnId i ops).map Logged.entry := by
  induction ops generalizing i with
  | nil => rfl
  | cons a ops ih =>
    rw [List.map_cons, sealOps, ih]
    rfl

theorem mem_logged {txnId i : Nat} {ops : List Asked} (h : l ∈ logged txnId i ops) :
    l.txnId = txnId ∧ l.index < i + ops.length := by
  induction ops generalizing i with
  | nil => cases h
  | cons a ops ih =>
    rw [List.length_cons]
    rcases List.mem_cons.1 h with rfl | h
    · exact ⟨rfl, Nat.lt_add_of_pos_right (Nat.succ_pos _)⟩
    · have := ih h
      exact ⟨this.1, by omega⟩

/-- Writing entries leaves the counter of the transactions alone. -/
theorem writeOps_txnIdCounter (txnId : Nat) (ops : List Buf) (i : Nat) (tx : Txfs) :
    (writeOps txnId i ops tx).2.header.txnIdCounter = tx.header.txnIdCounter := by
  induction ops generalizing i tx with
  | nil => rfl
  | cons op ops ih =>
    have hwrite : (journalWriteEntry (sealOp txnId i op) tx).2.header.txnIdCounter = tx.header.txnIdCounter := by
      rw [journalWriteEntry]
      cases tx.journal with
      | none => rfl
      | some journal =>
        dsimp only
        split
        · rfl
        · rfl
    rw [writeOps]
    obtain ⟨ok, tx', hw⟩ : ∃ ok tx', journalWriteEntry (sealOp txnId i op) tx = (ok, tx') := ⟨_, _, rfl⟩
    rw [hw] at hwrite ⊢
    cases ok with
    | false => exact hwrite
    | true => exact (ih (i + 1) tx').trans hwrite

/-- A commit, whatever becomes of it, ends the transaction. -/
theorem commit_ends (tx : Txfs) : (txfsCommit tx).2.txnActive = false ∧
    (txfsCommit tx).2.header.txnIdCounter = tx.header.txnIdCounter := by
  rw [txfsCommit]
  split
  · rename_i h
    exact ⟨h, rfl⟩
  · split
    · exact ⟨rfl, rfl⟩
    · have hcount := writeOps_txnIdCounter tx.activeTxn.txnId tx.activeTxn.ops 0 (setState tx .committing)
      obtain ⟨ok, tx', hw⟩ : ∃ ok tx', writeOps tx.activeTxn.txnId 0 tx.activeTxn.ops
        (setState tx .committing) = (ok, tx') := ⟨_, _, rfl⟩
      rw [hw] at hcount ⊢
      cases ok with
      | false | true => exact ⟨rfl, hcount⟩

theorem commit_active {tx : Txfs} (h : (txfsCommit tx).1 = true) : tx.txnActive = true := by
  by_contra hn
  rw [txfsCommit, if_pos (Bool.eq_false_iff.2 hn)] at h
  exact Bool.false_ne_true h

/-- **The journal is what the ledger asks for**: the committed entries, and the operations of the transaction
that is active.  Numbers fit their fields. -/
structure Tracks (s : Txfs × Ledger) : Prop where
  inOrder : ∃ journal, InOrder ⟨s.1, s.2.log.map Logged.entry⟩ journal
  nextId : s.1.header.txnIdCounter = s.2.nextId
  nextId_lt : s.2.nextId < 2 ^ 32
  txnId : s.1.txnActive = true → s.1.activeTxn.txnId = s.2.txnId
  txnId_lt : s.2.txnId < 2 ^ 32
  ops : s.1.txnActive = true → s.1.activeTxn.ops = s.2.ops.map Asked.op
  small : s.1.txnActive = true → s.2.ops.length ≤ maxTxnOps
  logged : ∀ l ∈ s.2.log, l.txnId < 2 ^ 32 ∧ l.index < 2 ^ 32

theorem tracks_init : Tracks (txfsInit, Ledger.empty) where
  inOrder := ⟨_, inOrder_init⟩
  nextId := rfl
  nextId_lt := by decide
  txnId := fun h => absurd h Bool.false_ne_true
  txnId_lt := by decide
  ops := fun h => absurd h Bool.false_ne_true
  small := fun h => absurd h Bool.false_ne_true
  logged := fun l h => absurd h List.not_mem_nil

theorem Tracks.begin (h : Tracks s) : Tracks (Ledger.step s .begin) := by
  obtain ⟨journal, hin⟩ := h.inOrder
  have hin' := hin.begin
  rw [Ledger.step, Call.run]
  by_cases hactive : s.1.txnActive = true
  · rw [txfsBegin, if_pos hactive, if_neg Bool.false_ne_true]
    exact h
  · rw [txfsBegin, if_neg hactive] at hin' ⊢
    rw [if_pos rfl]
    exact {
      inOrder := ⟨journal, hin'⟩
      nextId := by rw [Ledger.note, ← h.nextId]
      nextId_lt := Nat.mod_lt _ (by decide)
      txnId := fun _ => h.nextId
      txnId_lt := h.nextId_lt
      ops := fun _ => rfl
      small := fun _ => Nat.zero_le _
      logged := h.logged }

/-- A call for an operation: it is noted exactly if it joins the transaction. -/
theorem Tracks.add (h : Tracks s) {call : Call} {a : Asked} (ha : call.asks = some a) :
    Tracks (Ledger.step s call) := by
  obtain ⟨journal, hin⟩ := h.inOrder
  have hin' := hin.addOp a.type a.path a.offset a.data a.size a.path2
  rw [Ledger.step, Call.run_asks ha, Ledger.note_asks ha]
  by_cases hactive : s.1.txnActive = false
  · rw [addOp, if_pos hactive, if_neg Bool.false_ne_true]
    exact h
  rw [addOp, if_neg hactive] at hin' ⊢
  rw [Bool.not_eq_false] at hactive
  by_cases hfull : maxTxnOps ≤ s.1.activeTxn.ops.length
  · rw [if_pos hfull, if_neg Bool.false_ne_true]
    exact h
  rw [if_neg hfull] at hin' ⊢
  rw [if_pos rfl]
  have hlen : s.1.activeTxn.ops.length = s.2.ops.length := by rw [h.ops hactive, List.length_map]
  exact {
    inOrder := ⟨journal, hin'⟩
    nextId := h.nextId
    nextId_lt := h.nextId_lt
    txnId := fun _ => h.txnId hactive
    txnId_lt := h.txnId_lt
    ops := fun _ => by
      rw [h.ops hactive, List.map_append]
      rfl
    small := fun _ => by
      rw [List.length_append, ← hlen]
      exact Nat.not_le.1 hfull
    logged := h.logged }

/-- When the transaction is over, what is left to show is about the log. -/
theorem Tracks.ends (h : Tracks s) {tx : Txfs} {ledger : Ledger}
    (hends : tx.txnActive = false ∧ tx.header.txnIdCounter = s.1.header.txnIdCounter)
    (hnext : ledger.nextId = s.2.nextId) (hid : ledger.txnId = s.2.txnId)
    (hj : ∃ j, InOrder ⟨tx, ledger.log.map Logged.entry⟩ j)
    (hlog : ∀ l ∈ ledger.log, l.txnId < 2 ^ 32 ∧ l.index < 2 ^ 32) : Tracks (tx, ledger) where
  inOrder := hj
  nextId := by rw [hends.2, h.nextId, hnext]
  nextId_lt := by rw [hnext]; exact h.nextId_lt
  txnId := fun ha => absurd (hends.1.symm.trans ha) Bool.false_ne_true
  txnId_lt := by rw [hid]; exact h.txnId_lt
  ops := fun ha => absurd (hends.1.symm.trans ha) Bool.false_ne_true
  small := fun ha => absurd (hends.1.symm.trans ha) Bool.false_ne_true
  logged := hlog

theorem Tracks.commit (h : Tracks s) : Tracks (Ledger.step s .commit) := by
  obtain ⟨journal, hin⟩ := h.inOrder
  obtain ⟨journal', hin'⟩ := hin.commit
  rw [Session.step] at hin'
  rw [Ledger.step, Call.run]
  by_cases hok : (txfsCommit s.1).1 = true
  · have hactive := commit_active hok
    rw [if_pos hok] at hin' ⊢
    refine h.ends (commit_ends s.1) rfl rfl ⟨journal', ?_⟩ fun l hl => ?_
    · rw [Ledger.note, List.map_append, ← sealOps_logged, ← h.ops hactive, ← h.txnId hactive]
      exact hin'
    · rcases List.mem_append.1 hl with hl | hl
      · exact h.logged l hl
      · obtain ⟨hid, hindex⟩ := mem_logged hl
        rw [Nat.zero_add] at hindex
        exact ⟨hid ▸ h.txnId_lt,
          Nat.lt_trans hindex (Nat.lt_of_le_of_lt (h.small hactive) (by decide))⟩
  · rw [if_neg hok] at hin' ⊢
    exact h.ends (commit_ends s.1) rfl rfl ⟨journal', hin'⟩ h.logged

theorem Tracks.abort (h : Tracks s) : Tracks (Ledger.step s .abort) := by
  obtain ⟨journal, hin⟩ := h.inOrder
  have hin' := hin.abort
  rw [Ledger.step, Call.run]
  by_cases hactive : s.1.txnActive = false
  · rw [txfsAbort, if_pos hactive, if_neg Bool.false_ne_true]
    exact h
  · rw [txfsAbort, if_neg hactive] at hin' ⊢
    rw [if_pos rfl, Ledger.note]
    exact h.ends ⟨rfl, rfl⟩ rfl rfl ⟨journal, hin'⟩ h.logged

/-- There is never anything to recover while the machine runs. -/
theorem Tracks.recover (h : Tracks s) : Tracks (Ledger.step s .recover) := by
  obtain ⟨journal, hin⟩ := h.inOrder
  have hsame : (txfsRecover s.1).2 = s.1 := by rw [txfsRecover, if_pos hin.applied.symm]
  have hrun : Call.recover.run s.1 = (true, s.1) := congrArg (Prod.mk true) hsame
  rw [Ledger.step, hrun, if_pos rfl, Ledger.note]
  exact h

theorem Tracks.step (h : Tracks s) (call : Call) : Tracks (Ledger.step s call) := by
  cases call with
  | begin => exact h.begin
  | commit => exact h.commit
  | abort => exact h.abort
  | recover => exact h.recover
  | _ => exact h.add rfl

theorem tracks_run (calls : List Call) : ∀ s, Tracks s → Tracks (calls.foldl Ledger.step s) := by
  induction calls with
  | nil => exact fun _ h => h
  | cons call calls ih => exact fun _ h => ih _ (h.step call)

/-- **The committed entries** are those of the operations that the calls have asked for: transaction by
transaction, in the order in which the commits succeeded, and nothing else; whatever the calls have been. -/
theorem committed_log (calls : List Call) :
    let s := calls.foldl Ledger.step (txfsInit, Ledger.empty)
    s.1.header.committedCount = s.2.log.length ∧
      (∃ journal, s.1.journal = some journal ∧
        ∀ i l, s.2.log[i]? = some l → EntryOf (entryIn journal i) l) ∧
      s.1.header.appliedCount ≤ s.1.header.committedCount ∧
      s.1.header.committedCount ≤ s.1.header.entryCount := by
  intro s
  have h : Tracks s := tracks_run calls _ tracks_init
  obtain ⟨journal, hin⟩ := h.inOrder
  refine ⟨by rw [hin.committed, List.length_map], ⟨journal, hin.buffer, fun i l hl => ?_⟩,
    Nat.le_of_eq hin.applied, hin.count⟩
  have hentry : (s.2.log.map Logged.entry)[i]? = some l.entry := by rw [List.getElem?_map, hl]; rfl
  have hstored := hin.log.get hentry
  obtain ⟨hid, hindex⟩ := h.logged l (List.mem_of_getElem? hl)
  rw [Nat.zero_add] at hstored
  exact (Logged.entryOf hid hindex).congr hstored

end WuBuOS.Journal
