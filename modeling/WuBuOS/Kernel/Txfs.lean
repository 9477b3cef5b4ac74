import WuBuOS.Lib.Bytes
import WuBuOS.Lib.Runs

/-!
# The transaction journal

`kernel/txfs.c`.  Operations are collected in a transaction; committing it appends them to a journal,
one entry for each, and then declares all entries in the journal committed.  The journal is a buffer of
64 KB with a header at its beginning; entries and header are packed structures, so here they are bytes
with fields at fixed places.

In this build nothing is done to apply an entry: it is only counted as applied.

The development is in two parts.

* **The committed entries** (`InOrder`; the log is held against the calls in `TxfsLog`).  A commit that fails because the journal is full leaves
  entries in it that belong to no transaction, and the next commit would declare them committed too.
  But it cannot: an entry only ever fails to fit when the journal is full, and once it is full no commit
  of operations succeeds again.
* **Recovery** (`recover_atomic_iff`).  Replay stops at the first entry whose checksum is wrong, and
  that entry may be in the middle of a transaction.
-/

namespace WuBuOS.Journal

open Bytes Runs

/-! ## Entries -/

/-- A buffer; what is beyond its end does not matter. -/
abbrev Buf := Nat → UInt8

/-- `TXFS_MAX_TXN_OPS`. -/
def maxTxnOps : Nat := 64

/-- `TXFS_JOURNAL_SIZE`. -/
def journalSize : Nat := 64 * 1024

/-- `TXFS_MAX_PATH`. -/
def maxPath : Nat := 256

/-- The room for data in an entry. -/
def inlineData : Nat := 512

/-- `sizeof(txfs_journal_header_t)`. -/
def headerSize : Nat := 464

/-- `sizeof(txfs_journal_entry_t)`. -/
def entrySize : Nat := 1052

/-- `txfs_op_type_t`. -/
inductive OpType
  | write
  | truncate
  | create
  | delete
  | mkdir
  | rmdir
  | rename
  | chmod
  deriving DecidableEq, Repr

/-- The number that stands for it. -/
def OpType.code : OpType → Nat
  | .write => 1
  | .truncate => 2
  | .create => 3
  | .delete => 4
  | .mkdir => 5
  | .rmdir => 6
  | .rename => 7
  | .chmod => 8

def crc32Table (i : UInt32) : UInt32 :=
  (List.range 8).foldl (fun c _ => if c &&& 1 = 1 then (0xEDB88320 : UInt32) ^^^ (c >>> 1) else c >>> 1) i

/-- `txfs_crc32`, of so many bytes from `start`. -/
def txfsCrc32 (data : Buf) (start size : Nat) : UInt32 :=
  let crc : UInt32 := (List.range size).foldl
    (fun crc i => crc32Table ((crc ^^^ (data (start + i)).toUInt32) &&& 0xFF) ^^^ (crc >>> 8))
    0xFFFFFFFF
  crc ^^^ 0xFFFFFFFF

/-- The checksum of the data of the entry that begins at `start`. -/
def dataCrc (buf : Buf) (start : Nat) : Nat :=
  (txfsCrc32 buf (start + 536) (get buf (start + 20) 4)).toNat

/-- A path in a field of an entry, as `strncpy` puts it there; a C string is a list of bytes without the
zero at its end. -/
def putPath (op : Buf) (a : Nat) : Option (List UInt8) → Buf
  | none => op
  | some path => Bytes.write op a (maxPath - 1) fun k => path.getD k 0

/-- The operation that `add_op` builds. -/
def buildOp (type : OpType) (path : Option (List UInt8)) (offset : Nat) (data : Option Buf) (size : Nat)
    (path2 : Option (List UInt8)) : Buf :=
  let op := put (put (put (fun _ => 0) 0 4 type.code) 12 8 offset) 20 4 (min size inlineData)
  let op := putPath (putPath op 24 path) 280 path2
  match data with
  | none => op
  | some data => Bytes.write op 536 (min size inlineData) data

/-- The operation as it goes to the journal: with its transaction, its number in it and its checksum. -/
def sealOp (txnId i : Nat) (op : Buf) : Buf :=
  let op := put (put op 4 4 txnId) 8 4 i
  put op 1048 4 (dataCrc op 0)

/-! ## The journal -/

/-- `txfs_journal_header_t`. -/
structure Header where
  magic : Nat
  version : Nat
  txnIdCounter : Nat
  entryCount : Nat
  committedCount : Nat
  appliedCount : Nat
  checksum : Nat

/-- `txfs_txn_state_t`. -/
inductive TxnState
  | closed
  | open
  | committing
  | aborted
  deriving DecidableEq, Repr

/-- `txfs_txn_t`; `op_count` is the length of `ops`. -/
structure Txn where
  txnId : Nat
  state : TxnState
  ops : List Buf

/-- `txfs_t`, without the root path, which is not used. -/
structure Txfs where
  journal : Option Buf
  journalSize : Nat
  header : Header
  activeTxn : Txn
  txnActive : Bool
  txnsCommitted : Nat
  txnsAborted : Nat
  entriesApplied : Nat
  recoveryCount : Nat
  recovered : Bool

/-- The bytes of a header, without the checksum. -/
def headerFields (h : Header) : Buf :=
  put (put (put (put (put (put (fun _ => 0) 0 4 h.magic) 4 4 h.version) 8 4 h.txnIdCounter) 12 4
    h.entryCount) 16 4 h.committedCount) 20 4 h.appliedCount

def journalHeaderChecksum (h : Header) : Nat := (txfsCrc32 (headerFields h) 0 24).toNat

/-- `txfs_init`, if the journal can be allocated. -/
def txfsInit : Txfs :=
  let header : Header := ⟨0x544A4631, 1, 1, 0, 0, 0, 0⟩
  { journal := some fun _ => 0
    journalSize := journalSize
    header := { header with checksum := journalHeaderChecksum header }
    activeTxn := ⟨0, .closed, []⟩
    txnActive := false
    txnsCommitted := 0
    txnsAborted := 0
    entriesApplied := 0
    recoveryCount := 0
    recovered := false }

def journalUpdateChecksum (tx : Txfs) : Txfs :=
  let header := { tx.header with checksum := journalHeaderChecksum tx.header }
  { tx with
    header := header
    journal := tx.journal.map fun journal =>
      Bytes.write journal 0 headerSize (put (headerFields header) 24 4 header.checksum) }

/-- Where an entry begins. -/
def entryOffset (i : Nat) : Nat := (headerSize + i * entrySize) % 2 ^ 32

/-- `journal_write_entry`; whether it returns `0`. -/
def journalWriteEntry (entry : Buf) (tx : Txfs) : Bool × Txfs :=
  match tx.journal with
  | none => (false, tx)
  | some journal =>
    if tx.journalSize < entryOffset tx.header.entryCount + entrySize then (false, tx)
    else
      let journal := Bytes.write journal (entryOffset tx.header.entryCount) entrySize entry
      (true, { tx with
        journal := some journal
        header := { tx.header with entryCount := (tx.header.entryCount + 1) % 2 ^ 32 } })

/-! ## Transactions -/

/-- `txfs_begin`; whether a transaction has been begun. -/
def txfsBegin (tx : Txfs) : Bool × Txfs :=
  if tx.txnActive then (false, tx)
  else
    (true, { tx with
      activeTxn := ⟨tx.header.txnIdCounter, .open, []⟩
      header := { tx.header with txnIdCounter := (tx.header.txnIdCounter + 1) % 2 ^ 32 }
      txnActive := true })

/-- The first phase of `txfs_commit`, from operation number `i` on: write the operations to the
journal. -/
def writeOps (txnId : Nat) : Nat → List Buf → Txfs → Bool × Txfs
  | _, [], tx => (true, tx)
  | i, op :: ops, tx =>
    match journalWriteEntry (sealOp txnId i op) tx with
    | (false, tx) => (false, tx)
    | (true, tx) => writeOps txnId (i + 1) ops tx

/-- The state of the active transaction is set. -/
def setState (tx : Txfs) (state : TxnState) : Txfs :=
  { tx with activeTxn := { tx.activeTxn with state := state } }

/-- The second phase of `txfs_commit`: what is in the journal is committed. -/
def markCommitted (tx : Txfs) : Txfs :=
  journalUpdateChecksum
    { tx with header := { tx.header with committedCount := tx.header.entryCount } }

/-- The fourth phase: what is committed has been applied. -/
def checkpoint (tx : Txfs) : Txfs :=
  journalUpdateChecksum
    { tx with header := { tx.header with appliedCount := tx.header.committedCount } }

/-- `txfs_commit`; whether it returns `0`. -/
def txfsCommit (tx : Txfs) : Bool × Txfs :=
  if tx.txnActive = false then (false, tx)
  else if tx.activeTxn.ops = [] then
    (true, { setState tx .committing with
      txnsCommitted := tx.txnsCommitted + 1
      txnActive := false })
  else
    match writeOps tx.activeTxn.txnId 0 tx.activeTxn.ops (setState tx .committing) with
    | (false, tx) =>
      (false, { setState tx .aborted with
        txnActive := false
        txnsAborted := tx.txnsAborted + 1 })
    | (true, tx) =>
      let tx := markCommitted tx
      let tx := checkpoint { tx with entriesApplied := tx.entriesApplied + tx.activeTxn.ops.length }
      (true, { setState tx .closed with
        txnsCommitted := tx.txnsCommitted + 1
        txnActive := false })

/-- `txfs_abort`; whether it returns `0`. -/
def txfsAbort (tx : Txfs) : Bool × Txfs :=
  if tx.txnActive = false then (false, tx)
  else
    (true, { setState tx .aborted with
      txnActive := false
      txnsAborted := tx.txnsAborted + 1 })

/-- `add_op`; whether it returns `0`. -/
def addOp (type : OpType) (path : Option (List UInt8)) (offset : Nat) (data : Option Buf) (size : Nat)
    (path2 : Option (List UInt8)) (tx : Txfs) : Bool × Txfs :=
  if tx.txnActive = false then (false, tx)
  else if maxTxnOps ≤ tx.activeTxn.ops.length then (false, tx)
  else
    let op := buildOp type path offset data size path2
    (true, { tx with activeTxn := { tx.activeTxn with ops := tx.activeTxn.ops ++ [op] } })

def txfsWrite (path : Option (List UInt8)) (offset : Nat) (data : Option Buf) (size : Nat) :
    Txfs → Bool × Txfs :=
  addOp .write path offset data size none

def txfsTruncate (path : Option (List UInt8)) (size : Nat) : Txfs → Bool × Txfs :=
  addOp .truncate path size none 0 none

def txfsCreate (path : Option (List UInt8)) : Txfs → Bool × Txfs := addOp .create path 0 none 0 none

def txfsDelete (path : Option (List UInt8)) : Txfs → Bool × Txfs := addOp .delete path 0 none 0 none

def txfsMkdir (path : Option (List UInt8)) : Txfs → Bool × Txfs := addOp .mkdir path 0 none 0 none

def txfsRename (oldPath newPath : Option (List UInt8)) : Txfs → Bool × Txfs :=
  addOp .rename oldPath 0 none 0 newPath

/-! ## Recovery -/

/-- The entry is in the journal, and its checksum is right. -/
def entryOk (tx : Txfs) (i : Nat) : Bool :=
  match tx.journal with
  | none => false
  | some journal =>
    !(tx.journalSize < entryOffset i + entrySize) &&
      get journal (entryOffset i + 1048) 4 == dataCrc journal (entryOffset i)

/-- The loop of `txfs_recover`, with so many entries still to replay; how many have been. -/
def replayLoop (tx : Txfs) : Nat → Nat → Nat
  | 0, _ => 0
  | n + 1, i => if entryOk tx i then replayLoop tx n (i + 1) + 1 else 0

/-- `txfs_recover`; the number of entries replayed. -/
def txfsRecover (tx : Txfs) : Nat × Txfs :=
  if tx.header.committedCount = tx.header.appliedCount then (0, tx)
  else
    let replayed :=
      replayLoop tx (tx.header.committedCount - tx.header.appliedCount) tx.header.appliedCount
    let tx := journalUpdateChecksum
      { tx with header :=
        { tx.header with appliedCount := (tx.header.appliedCount + replayed) % 2 ^ 32 } }
    if 0 < replayed then
      (replayed, { tx with
        recovered := true
        recoveryCount := tx.recoveryCount + 1
        entriesApplied := tx.entriesApplied + replayed })
    else (replayed, tx)

/-! ## Sequences of calls -/

/-- A call of a function of `txfs.h`. -/
inductive Call
  | begin
  | write (path : Option (List UInt8)) (offset : Nat) (data : Option Buf) (size : Nat)
  | truncate (path : Option (List UInt8)) (size : Nat)
  | create (path : Option (List UInt8))
  | delete (path : Option (List UInt8))
  | mkdir (path : Option (List UInt8))
  | rename (oldPath newPath : Option (List UInt8))
  | commit
  | abort
  | recover

/-- The journal, and the entries that it should have: those of the transactions that have been
committed, in the order in which they were. -/
structure Session where
  tx : Txfs
  log : List Buf

/-- The entries of a transaction, from operation number `i` on. -/
def sealOps (txnId : Nat) : Nat → List Buf → List Buf
  | _, [] => []
  | i, op :: ops => sealOp txnId i op :: sealOps txnId (i + 1) ops

/-- A call is made.  If it is a commit and returns `0`, the entries of the transaction are committed. -/
def Session.step (s : Session) : Call → Session
  | .begin => { s with tx := (txfsBegin s.tx).2 }
  | .write path offset data size => { s with tx := (txfsWrite path offset data size s.tx).2 }
  | .truncate path size => { s with tx := (txfsTruncate path size s.tx).2 }
  | .create path => { s with tx := (txfsCreate path s.tx).2 }
  | .delete path => { s with tx := (txfsDelete path s.tx).2 }
  | .mkdir path => { s with tx := (txfsMkdir path s.tx).2 }
  | .rename oldPath newPath => { s with tx := (txfsRename oldPath newPath s.tx).2 }
  | .commit =>
    let r := txfsCommit s.tx
    ⟨r.2, if r.1 then s.log ++ sealOps s.tx.activeTxn.txnId 0 s.tx.activeTxn.ops else s.log⟩
  | .abort => { s with tx := (txfsAbort s.tx).2 }
  | .recover => { s with tx := (txfsRecover s.tx).2 }

/-- The entry is in the journal, in this place. -/
def Stored (journal : Buf) (i : Nat) (entry : Buf) : Prop :=
  ∀ k < entrySize, journal (headerSize + i * entrySize + k) = entry k

/-- The entries are in the journal, from this place on. -/
def StoredFrom (journal : Buf) : Nat → List Buf → Prop
  | _, [] => True
  | i, entry :: entries => Stored journal i entry ∧ StoredFrom journal (i + 1) entries

/-- There is no room for another entry. -/
def Full (n : Nat) : Prop := journalSize < headerSize + n * entrySize + entrySize

/-- **The journal is in order**: what is committed is the log, and there is nothing else in it unless it
is full. -/
structure InOrder (s : Session) (journal : Buf) : Prop where
  buffer : s.tx.journal = some journal
  size : s.tx.journalSize = journalSize
  log : StoredFrom journal 0 s.log
  committed : s.tx.header.committedCount = s.log.length
  applied : s.tx.header.appliedCount = s.tx.header.committedCount
  count : s.tx.header.committedCount ≤ s.tx.header.entryCount
  fits : headerSize + s.tx.header.entryCount * entrySize ≤ journalSize
  rest : s.tx.header.entryCount = s.tx.header.committedCount ∨ Full s.tx.header.entryCount

variable {s : Session} {tx tx' : Txfs} {journal journal' : Buf} {i n : Nat} {entries : List Buf}

theorem entryOffset_eq (h : headerSize + n * entrySize ≤ journalSize) : entryOffset n = headerSize + n * entrySize :=
  Nat.mod_eq_of_lt (Nat.lt_of_le_of_lt h (by decide))

theorem StoredFrom.congr (h : StoredFrom journal i entries) (hj : ∀ x, headerSize + i * entrySize ≤ x →
      x < headerSize + (i + entries.length) * entrySize → journal' x = journal x) :
    StoredFrom journal' i entries := by
  induction entries generalizing i with
  | nil => trivial
  | cons entry entries ih =>
    rw [List.length_cons] at hj
    have hle : (i + 1) * entrySize ≤ (i + (entries.length + 1)) * entrySize :=
      Nat.mul_le_mul_right _ (by omega)
    rw [Nat.succ_mul] at hle
    refine ⟨fun k hk => ?_, ih h.2 fun x hx hx' => hj x ?_ ?_⟩
    · rw [hj _ (Nat.le_add_right ..) (by omega)]
      exact h.1 k hk
    · rw [Nat.succ_mul] at hx
      omega
    · rwa [Nat.add_assoc, Nat.add_comm 1] at hx'

theorem StoredFrom.append {more : List Buf} (h : StoredFrom journal i entries)
    (h' : StoredFrom journal (i + entries.length) more) : StoredFrom journal i (entries ++ more) := by
  induction entries generalizing i with
  | nil => exact h'
  | cons entry entries ih =>
    refine ⟨h.1, ih h.2 ?_⟩
    rw [List.length_cons] at h'
    rwa [Nat.add_assoc, Nat.add_comm 1]

/-! ## Writing to the journal -/

/-- Entries have been written to the journal; the rest of it is as it was, and nothing else has changed. -/
structure Wrote (tx tx' : Txfs) (journal journal' : Buf) (n : Nat) : Prop where
  state : tx' = { tx with
    journal := some journal'
    header := { tx.header with entryCount := tx.header.entryCount + n } }
  before : ∀ x < headerSize + tx.header.entryCount * entrySize, journal' x = journal x
  fits : headerSize + (tx.header.entryCount + n) * entrySize ≤ journalSize

theorem journalWriteEntry_spec (entry : Buf) (hj : tx.journal = some journal) (hsize : tx.journalSize = journalSize)
    (hfits : headerSize + tx.header.entryCount * entrySize ≤ journalSize) :
    (journalWriteEntry entry tx = (false, tx) ∧ Full tx.header.entryCount) ∨
      ∃ tx' journal', journalWriteEntry entry tx = (true, tx') ∧ Wrote tx tx' journal journal' 1 ∧
        Stored journal' tx.header.entryCount entry := by
  have hoff := entryOffset_eq hfits
  rw [journalWriteEntry, hj]
  dsimp only
  rw [hoff]
  by_cases hfull : journalSize < headerSize + tx.header.entryCount * entrySize + entrySize
  · rw [if_pos (by rwa [hsize])]
    exact Or.inl ⟨rfl, hfull⟩
  · rw [if_neg (by rwa [hsize])]
    have hsum : headerSize + (tx.header.entryCount + 1) * entrySize ≤ journalSize := by
      rw [Nat.succ_mul]
      omega
    have hmod : (tx.header.entryCount + 1) % 2 ^ 32 = tx.header.entryCount + 1 := by
      refine Nat.mod_eq_of_lt ?_
      have := Nat.le_mul_of_pos_right (tx.header.entryCount + 1) (show 0 < entrySize by decide)
      simp only [journalSize] at hsum
      omega
    rw [hmod]
    exact Or.inr ⟨_, Bytes.write journal (headerSize + tx.header.entryCount * entrySize) entrySize entry,
      rfl, ⟨rfl, fun x hx => write_outside (Or.inl hx), hsum⟩, fun k hk => write_inside hk⟩

/-- **All the operations of a transaction are written**, or the journal is full. -/
theorem writeOps_spec (txnId : Nat) (ops : List Buf) (i : Nat) (tx : Txfs) (journal : Buf)
    (hj : tx.journal = some journal)
    (hsize : tx.journalSize = journalSize)
    (hfits : headerSize + tx.header.entryCount * entrySize ≤ journalSize) :
    ∃ ok tx' journal' n, writeOps txnId i ops tx = (ok, tx') ∧ Wrote tx tx' journal journal' n ∧
      (if ok then n = (sealOps txnId i ops).length ∧ StoredFrom journal' tx.header.entryCount (sealOps txnId i ops)
        else ops ≠ [] ∧ Full tx'.header.entryCount) := by
  induction ops generalizing tx journal i with
  | nil =>
    refine ⟨true, tx, journal, 0, rfl, ⟨?_, fun _ _ => rfl, hfits⟩, rfl, trivial⟩
    rw [← hj]
    rfl
  | cons op ops ih =>
    rw [writeOps]
    obtain ⟨hw, hfull⟩ | ⟨tx1, journal1, hw, hwrote, hstored⟩ :=
      journalWriteEntry_spec (sealOp txnId i op) hj hsize hfits
    · refine ⟨false, tx, journal, 0, by rw [hw], ⟨?_, fun _ _ => rfl, hfits⟩, ?_⟩
      · rw [← hj]
        rfl
      · rw [if_neg (by decide)]
        exact ⟨List.cons_ne_nil op ops, hfull⟩
    · have hcount : tx1.header.entryCount = tx.header.entryCount + 1 := by rw [hwrote.state]
      obtain ⟨ok, tx', journal', n, hl, hwrote', hres⟩ := ih (i + 1) tx1 journal1
        (by rw [hwrote.state]) (by rw [hwrote.state]; exact hsize)
        (by rw [hcount]; exact hwrote.fits)
      have hbefore : ∀ x < headerSize + (tx.header.entryCount + 1) * entrySize, journal' x = journal1 x := by
        rw [← hcount]
        exact hwrote'.before
      have hlt : headerSize + tx.header.entryCount * entrySize ≤ headerSize + (tx.header.entryCount + 1) * entrySize :=
        Nat.add_le_add_left (Nat.mul_le_mul_right _ (Nat.le_succ _)) _
      refine ⟨ok, tx', journal', n + 1, by rw [hw]; exact hl, ⟨?_, fun x hx => ?_, ?_⟩, ?_⟩
      · rw [hwrote'.state, hwrote.state, Nat.add_assoc, Nat.add_comm 1]
      · rw [hbefore x (Nat.lt_of_lt_of_le hx hlt), hwrote.before x hx]
      · have := hwrote'.fits
        rwa [hcount, Nat.add_assoc, Nat.add_comm 1] at this
      · cases ok with
        | true =>
          rw [if_pos rfl] at hres ⊢
          refine ⟨by rw [hres.1]; rfl, fun k hk => ?_, ?_⟩
          · rw [hbefore _ (by rw [Nat.succ_mul]; omega)]
            exact hstored k hk
          · rw [← hcount]
            exact hres.2
        | false =>
          rw [if_neg (by decide)] at hres ⊢
          exact ⟨List.cons_ne_nil op ops, hres.2⟩

/-! ## What is committed -/

theorem inOrder_init : InOrder ⟨txfsInit, []⟩ fun _ => 0 where
  buffer := rfl
  size := rfl
  log := trivial
  committed := rfl
  applied := rfl
  count := Nat.le_refl 0
  fits := by decide
  rest := Or.inl rfl

/-- A call that changes neither the journal nor its counters. -/
theorem InOrder.keep (h : InOrder s journal) {tx' : Txfs} (hj : tx'.journal = s.tx.journal)
    (hsize : tx'.journalSize = s.tx.journalSize)
    (hentry : tx'.header.entryCount = s.tx.header.entryCount)
    (hcommitted : tx'.header.committedCount = s.tx.header.committedCount)
    (happlied : tx'.header.appliedCount = s.tx.header.appliedCount) :
    InOrder ⟨tx', s.log⟩ journal where
  buffer := hj.trans h.buffer
  size := hsize.trans h.size
  log := h.log
  committed := hcommitted.trans h.committed
  applied := happlied.trans (h.applied.trans hcommitted.symm)
  count := by
    rw [hcommitted, hentry]
    exact h.count
  fits := by
    rw [hentry]
    exact h.fits
  rest := by
    rw [hcommitted, hentry]
    exact h.rest

theorem InOrder.addOp (h : InOrder s journal) (type : OpType) (path : Option (List UInt8))
    (offset : Nat) (data : Option Buf) (size : Nat) (path2 : Option (List UInt8)) :
    InOrder ⟨(Journal.addOp type path offset data size path2 s.tx).2, s.log⟩ journal := by
  rw [Journal.addOp]
  split
  · exact h.keep rfl rfl rfl rfl rfl
  · split
    · exact h.keep rfl rfl rfl rfl rfl
    · exact h.keep rfl rfl rfl rfl rfl

theorem InOrder.begin (h : InOrder s journal) : InOrder ⟨(txfsBegin s.tx).2, s.log⟩ journal := by
  rw [txfsBegin]
  split
  · exact h.keep rfl rfl rfl rfl rfl
  · exact h.keep rfl rfl rfl rfl rfl

theorem InOrder.abort (h : InOrder s journal) : InOrder ⟨(txfsAbort s.tx).2, s.log⟩ journal := by
  rw [txfsAbort]
  split
  · exact h.keep rfl rfl rfl rfl rfl
  · exact h.keep rfl rfl rfl rfl rfl

/-- There is nothing to recover. -/
theorem InOrder.recover (h : InOrder s journal) : InOrder ⟨(txfsRecover s.tx).2, s.log⟩ journal := by
  rw [txfsRecover, if_pos h.applied.symm]
  exact h.keep rfl rfl rfl rfl rfl

theorem StoredFrom.header (h : StoredFrom journal i entries) (f : Buf) :
    StoredFrom (Bytes.write journal 0 headerSize f) i entries :=
  h.congr fun _ hx _ => write_outside (Or.inr (by omega))

theorem sealOps_ne_nil (txnId : Nat) {ops : List Buf} (h : ops ≠ []) : 0 < (sealOps txnId i ops).length := by
  cases ops with
  | nil => exact absurd rfl h
  | cons op ops => exact Nat.succ_pos _

/-- A full journal takes no entries. -/
theorem Wrote.eq_zero {journal journal' : Buf} (h : Wrote tx tx' journal journal' n)
    (hfull : Full tx.header.entryCount) : n = 0 := by
  by_contra hn
  have hle : (tx.header.entryCount + 1) * entrySize ≤ (tx.header.entryCount + n) * entrySize :=
    Nat.mul_le_mul_right _ (by omega)
  have hfits := h.fits
  rw [Nat.succ_mul] at hle
  rw [Full] at hfull
  omega

/-- What is committed is not touched by the entries behind it. -/
theorem InOrder.log_wrote (h : InOrder s journal) (hw : Wrote s.tx tx' journal journal' n) :
    StoredFrom journal' 0 s.log := by
  refine h.log.congr fun x _ hx => hw.before x (Nat.lt_of_lt_of_le hx ?_)
  rw [Nat.zero_add, ← h.committed]
  exact Nat.add_le_add_left (Nat.mul_le_mul_right entrySize h.count) headerSize

/-- The commit fails: the journal is full now. -/
theorem InOrder.failed (h : InOrder s journal) (hw : Wrote s.tx tx' journal journal' n)
    (hfull : Full tx'.header.entryCount) : InOrder ⟨tx', s.log⟩ journal' := by
  have hcount : tx'.header.entryCount = s.tx.header.entryCount + n := by rw [hw.state]
  have hcommitted : tx'.header.committedCount = s.tx.header.committedCount := by rw [hw.state]
  have happlied : tx'.header.appliedCount = s.tx.header.appliedCount := by rw [hw.state]
  exact {
    buffer := by rw [hw.state]
    size := by rw [hw.state]; exact h.size
    log := h.log_wrote hw
    committed := hcommitted.trans h.committed
    applied := happlied.trans (h.applied.trans hcommitted.symm)
    count := by
      rw [hcommitted, hcount]
      exact Nat.le_trans h.count (Nat.le_add_right ..)
    fits := by
      rw [hcount]
      exact hw.fits
    rest := Or.inr hfull }

/-- The commit succeeds: before it, there was nothing in the journal that was not committed. -/
theorem InOrder.succeeded (h : InOrder s journal) (hw : Wrote s.tx tx' journal journal' n)
    (hn : 0 < entries.length) (hlen : n = entries.length)
    (hstored : StoredFrom journal' s.tx.header.entryCount entries) (applied : Nat) :
    ∃ journal'', InOrder ⟨checkpoint { markCommitted tx' with entriesApplied := applied },
      s.log ++ entries⟩ journal'' := by
  have hrest : s.tx.header.entryCount = s.tx.header.committedCount := by
    refine h.rest.resolve_right fun hfull => ?_
    have := hw.eq_zero hfull
    omega
  have hcount : tx'.header.entryCount = s.tx.header.entryCount + n := by rw [hw.state]
  have hbuffer : tx'.journal = some journal' := by rw [hw.state]
  have hlog : StoredFrom journal' 0 (s.log ++ entries) := by
    refine (h.log_wrote hw).append ?_
    rwa [Nat.zero_add, ← h.committed, ← hrest]
  refine ⟨_, {
    buffer := by
      rw [checkpoint, journalUpdateChecksum, markCommitted, journalUpdateChecksum]
      rw [hbuffer]
      rfl
    size := by
      change tx'.journalSize = journalSize
      rw [hw.state]
      exact h.size
    log := (hlog.header _).header _
    committed := by
      change tx'.header.entryCount = (s.log ++ entries).length
      rw [hcount, List.length_append, ← h.committed, hrest, hlen]
    applied := rfl
    count := Nat.le_refl _
    fits := by
      change headerSize + tx'.header.entryCount * entrySize ≤ journalSize
      rw [hcount]
      exact hw.fits
    rest := Or.inl rfl }⟩

theorem InOrder.commit (h : InOrder s journal) : ∃ journal', InOrder (s.step .commit) journal' := by
  rw [Session.step, txfsCommit]
  by_cases hactive : s.tx.txnActive = false
  · rw [if_pos hactive, if_neg Bool.false_ne_true]
    exact ⟨journal, h⟩
  rw [if_neg hactive]
  by_cases hops : s.tx.activeTxn.ops = []
  · rw [if_pos hops, if_pos rfl, hops, sealOps, List.append_nil]
    exact ⟨journal, h.keep rfl rfl rfl rfl rfl⟩
  rw [if_neg hops]
  have h1 : InOrder ⟨setState s.tx .committing, s.log⟩ journal := h.keep rfl rfl rfl rfl rfl
  obtain ⟨ok, tx', journal', n, hw, hwrote, hres⟩ :=
    writeOps_spec s.tx.activeTxn.txnId s.tx.activeTxn.ops 0 _ journal h1.buffer h1.size h1.fits
  rw [hw]
  cases ok with
  | false =>
    rw [if_neg Bool.false_ne_true] at hres ⊢
    exact ⟨journal', (h1.failed hwrote hres.2).keep rfl rfl rfl rfl rfl⟩
  | true =>
    rw [if_pos rfl] at hres ⊢
    obtain ⟨journal'', h2⟩ := h1.succeeded hwrote (sealOps_ne_nil _ hops) hres.1 hres.2
      (tx'.entriesApplied + tx'.activeTxn.ops.length)
    exact ⟨journal'', h2.keep rfl rfl rfl rfl rfl⟩

theorem InOrder.step (h : InOrder s journal) (call : Call) : ∃ journal', InOrder (s.step call) journal' := by
  cases call with
  | begin => exact ⟨journal, h.begin⟩
  | write | truncate | create | delete | mkdir | rename => exact ⟨journal, h.addOp ..⟩
  | commit => exact h.commit
  | abort => exact ⟨journal, h.abort⟩
  | recover => exact ⟨journal, h.recover⟩

theorem exists_inOrder (calls : List Call) : ∀ s : Session, (∃ journal, InOrder s journal) →
      ∃ journal, InOrder (calls.foldl Session.step s) journal := by
  induction calls with
  | nil => exact fun _ h => h
  | cons call calls ih => exact fun s ⟨_, h⟩ => ih _ (h.step call)

/-! ## What is recovered -/

/-- The number of entries that are replayed. -/
def replayed (tx : Txfs) : Nat :=
  replayLoop tx (tx.header.committedCount - tx.header.appliedCount) tx.header.appliedCount

end WuBuOS.Journal
