import WuBuOS.Kernel.Sha256
import WuBuOS.Lib.Bytes
import WuBuOS.Lib.Fifo
import WuBuOS.Lib.HashChain

/-!
# The audit log

`kernel/wubu_audit.c`: a ring of records, each with the digest of the record before and of itself.  The
digest of the newest is kept beside the ring as the head of the chain.  Verifying goes through the records
that are retained, and compares each digest with what the record says; with the head it compares nothing.

`recHash_eq` says what is hashed of a record, in one piece, and `recBytes_covers` that it is all there is.
-/

namespace WuBuOS.Audit

open Sha256 HashChain

/-! ## The log -/

/-- `WUBU_AUDIT_CAP`. -/
abbrev auditCap : Nat := 128

/-- `WUBU_AUDIT_MSG_SZ`. -/
abbrev auditMsgSz : Nat := 128

/-- `wubu_audit_rec_t`. -/
structure Rec where
  seq : BitVec 64
  ts : BitVec 64
  event : BitVec 32
  pid : BitVec 32
  msg : List.Vector UInt8 auditMsgSz
  prevHash : Digest
  hash : Digest
  deriving DecidableEq

def zeroDigest : Digest := .replicate 32 0

/-- A record of zeros. -/
def zeroRec : Rec := ⟨0, 0, 0, 0, .replicate auditMsgSz 0, zeroDigest, zeroDigest⟩

/-- The log: `g_audit`, `g_audit_n`, `g_audit_next`, `g_audit_seq` and `g_audit_chain`. -/
structure Log where
  ring : Nat → Rec
  n : Nat
  next : Nat
  seq : BitVec 64
  chain : Digest

def recHash (r : Rec) : Digest :=
  let ctx := Sha256.init
  let ctx := update ctx r.prevHash.toList
  let ctx := update ctx (Bytes.le 8 r.seq.toNat)
  let ctx := update ctx (Bytes.le 8 r.ts.toNat)
  let ctx := update ctx (Bytes.le 4 r.event.toNat)
  let ctx := update ctx (Bytes.le 4 r.pid.toNat)
  let ctx := update ctx r.msg.toList
  final ctx

/-- `wubu_audit_reset`. -/
def reset : Log := ⟨fun _ => zeroRec, 0, 0, 0, zeroDigest⟩

/-- The characters of a message that there is room for. -/
def msgChars (msg : List UInt8) : List UInt8 := (msg.takeWhile (· ≠ 0)).take (auditMsgSz - 1)

theorem length_msgChars (msg : List UInt8) : (msgChars msg).length ≤ auditMsgSz :=
  Nat.le_trans (List.length_take_le ..) (Nat.sub_le ..)

/-- The message of a record, with zeros behind it. -/
def copyMsg (msg : List UInt8) : List.Vector UInt8 auditMsgSz :=
  ⟨msgChars msg ++ List.replicate (auditMsgSz - (msgChars msg).length) 0, by
    rw [List.length_append, List.length_replicate, Nat.add_sub_cancel' (length_msgChars msg)]⟩

/-- The arguments of `wubu_audit_record`, the message not `NULL`. -/
structure Event where
  event : BitVec 32
  pid : BitVec 32
  ts : BitVec 64
  msg : List UInt8

/-- The record of an event, behind a record with the given digest. -/
def newRec (seq : BitVec 64) (chain : Digest) (e : Event) : Rec :=
  let r : Rec := ⟨seq, e.ts, e.event, e.pid, copyMsg e.msg, chain, zeroDigest⟩
  { r with hash := recHash r }

/-- `wubu_audit_record`. -/
def record (a : Log) (e : Event) : Log :=
  let r := newRec (a.seq + 1) a.chain e
  { ring := fun i => if i = a.next then r else a.ring i
    n := if a.n < auditCap then a.n + 1 else a.n
    next := (a.next + 1) % auditCap
    seq := a.seq + 1
    chain := r.hash }

/-- `wubu_audit_count`. -/
def count (a : Log) : Nat := a.n

/-- The slot of the oldest record. -/
def first (a : Log) : Nat := if a.n = auditCap then a.next else 0

/-- `wubu_audit_at`. -/
def auditAt (a : Log) (i : Nat) : Option Rec :=
  if a.n ≤ i then none else some (a.ring ((first a + i) % auditCap))

/-- The loop of `wubu_audit_verify`, with so many records to go. -/
def verifyLoop (a : Log) : Nat → Nat → Option Rec → Int
  | 0, _, _ => 0
  | left + 1, i, prev =>
    let r := a.ring ((first a + i) % auditCap)
    if recHash r ≠ r.hash then -1
    else
      match prev with
      | none => verifyLoop a left (i + 1) (some r)
      | some p =>
        if r.prevHash ≠ p.hash then -1
        else if r.seq ≤ p.seq then -1
        else verifyLoop a left (i + 1) (some r)

/-- `wubu_audit_verify`. -/
def verify (a : Log) : Int := verifyLoop a a.n 0 none

/-- The log after some events. -/
def logOf (events : List Event) : Log := events.foldl record reset

/-! ## What is hashed -/

/-- The bytes that `rec_hash` hashes. -/
def recBytes (r : Rec) : List UInt8 :=
  r.prevHash.toList ++ Bytes.le 8 r.seq.toNat ++ Bytes.le 8 r.ts.toNat ++ Bytes.le 4 r.event.toNat ++
    Bytes.le 4 r.pid.toNat ++ r.msg.toList

theorem recHash_eq (r : Rec) : recHash r = sha256 (recBytes r) := by
  have h1 := update_ok init_ok r.prevHash.toList
  have h2 := update_ok h1 (Bytes.le 8 r.seq.toNat)
  have h3 := update_ok h2 (Bytes.le 8 r.ts.toNat)
  have h4 := update_ok h3 (Bytes.le 4 r.event.toNat)
  rw [recHash, sha256, recBytes, update_append h4, update_append h3, update_append h2, update_append h1, update_append init_ok]
  simp only [List.append_assoc]

/-- The digest of a record is not hashed. -/
theorem recHash_hash (r : Rec) (hash : Digest) : recHash { r with hash := hash } = recHash r := by
  rw [recHash_eq, recHash_eq, recBytes, recBytes]

theorem newRec_hash (seq : BitVec 64) (chain : Digest) (e : Event) :
    (newRec seq chain e).hash = recHash (newRec seq chain e) := by
  rw [newRec, recHash_hash]

theorem le_inj {n v v' : Nat} (hv : v < 256 ^ n) (hv' : v' < 256 ^ n) (h : Bytes.le n v = Bytes.le n v') : v = v' := by
  have hn := congrArg Bytes.number h
  rwa [Bytes.number_le, Bytes.number_le, Nat.mod_eq_of_lt hv, Nat.mod_eq_of_lt hv'] at hn

/-- The bytes of a number of fixed width. -/
theorem le_toNat_inj {n : Nat} {v v' : BitVec (8 * n)} (h : Bytes.le n v.toNat = Bytes.le n v'.toNat) : v = v' := by
  have hpow : 2 ^ (8 * n) = 256 ^ n := Nat.pow_mul 2 8 n
  exact BitVec.eq_of_toNat_eq (le_inj (hpow ▸ v.isLt) (hpow ▸ v'.isLt) h)

/-- **A record is what is hashed of it**, and its digest. -/
theorem recBytes_covers (r r' : Rec) (h : recBytes r = recBytes r') (hh : r.hash = r'.hash) : r = r' := by
  obtain ⟨seq, ts, event, pid, msg, prevHash, hash⟩ := r
  unfold recBytes at h
  dsimp only at h hh
  have hfixed : ∀ {n : Nat} (v w : List.Vector UInt8 n), v.toList.length = w.toList.length := fun v w => by
    rw [v.toList_length, w.toList_length]
  obtain ⟨h, hmsg⟩ := List.append_inj' h (hfixed _ _)
  obtain ⟨h, hpid⟩ := List.append_inj' h (by simp)
  obtain ⟨h, hevent⟩ := List.append_inj' h (by simp)
  obtain ⟨h, hts⟩ := List.append_inj' h (by simp)
  obtain ⟨hprev, hseq⟩ := List.append_inj' h (by simp)
  obtain rfl := List.Vector.toList_injective hmsg
  obtain rfl := List.Vector.toList_injective hprev
  obtain rfl := le_toNat_inj (n := 4) hpid
  obtain rfl := le_toNat_inj (n := 4) hevent
  obtain rfl := le_toNat_inj (n := 8) hts
  obtain rfl := le_toNat_inj (n := 8) hseq
  rw [hh]

/-- The records as a chain of digests. -/
def scheme : Scheme Rec (List UInt8) Digest := ⟨recBytes, sha256, Rec.prevHash, Rec.hash, recBytes_covers⟩

end WuBuOS.Audit
