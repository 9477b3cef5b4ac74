import Mathlib.Data.Fintype.EquivFin
import WuBuOS.Kernel.Socket
import WuBuOS.Lib.Runs

/-!
# The tables of the socket layer

The pool of sockets, the table of descriptors, the bitmap of ports and the accept queues refer to each
other (`TableInv`).  The calls keep them in step as long as they are `Sound`.  What that excludes are the
ways in which they come apart:

* a stream socket that is shut down for writing is free, and keeps its descriptor;
* a socket that is closed gives its port back, also when another one is bound to it, as the accepted
  connections of a listener are;
* a listener that is closed, or connects, leaves the connections in its queue behind;
* a connection is put into a queue whatever the backlog, and nobody asks whether there was room;
* a connection for which there is no slot leaves its socket in `SK_SYN_SENT`;
* the peer of a datagram socket may be gone, and its slot be a stream socket now, which then loses its
  own peer.

`table_invariant` is about all runs without these.  The invariant of its induction, `Inv`, has four
parts, one for each of the tables and one for the peers; a call is shown to keep those whose sockets it
does not touch by the `congr` lemma of the part.
-/

namespace WuBuOS.Socket

/-! ## What is promised -/

/-- The slot is in use. -/
def Sock.Live (s : Sock) : Prop := s.state ≠ .free

/-- The accept queue, the oldest connection first. -/
def Sock.waiting (s : Sock) : List (Option Slot) := Fifo.window backlogMax s.acceptQ s.acceptHead s.acceptLen

/-- The socket has an address with this port. -/
def Sock.BoundTo (s : Sock) (p : Nat) : Prop := s.localAddr.saFamily ≠ 0 ∧ s.localAddr.saPort.toNat = p

/-- The tables agree. -/
structure TableInv (st : Net) : Prop where
  fds : ∀ f i, st.fds f = some i → (st.pool i).Live ∧ (st.pool i).fd = some f
  peers : ∀ i j, (st.pool i).Live → (st.pool i).type = sockStream → (st.pool i).peer = some j →
    (st.pool j).Live ∧ (st.pool j).peer = some i
  ports : ∀ p < portMax, portTest st p = true ↔ ∃ i, (st.pool i).Live ∧ (st.pool i).BoundTo p
  waits : ∀ i, (st.pool i).Live → (st.pool i).fd = none →
    ∃ l, (st.pool l).state = .listen ∧ some i ∈ (st.pool l).waiting
  backlog : ∀ l, (st.pool l).state = .listen → ((st.pool l).acceptLen : Int) ≤ (st.pool l).backlog

inductive Call where
  | socket (domain type protocol : Int)
  | bind (fd : Int) (addr : Option Sockaddr) (addrlen : Nat)
  | listen (fd backlog : Int)
  | connect (fd : Int) (addr : Option Sockaddr) (addrlen : Nat)
  | accept (fd : Int)
  | setsockopt (fd level optname : Int) (optval : Option Int) (optlen : Nat)
  | shutdown (fd how : Int)
  | close (fd : Int)

/-- The state after the call, and what it returns. -/
def Call.exec (st : Net) : Call → Net × Int
  | .socket domain type protocol => wubuSocket st domain type protocol
  | .bind fd addr addrlen => wubuBind st fd addr addrlen
  | .listen fd backlog => wubuListen st fd backlog
  | .connect fd addr addrlen => wubuConnect st fd addr addrlen
  | .accept fd => ((wubuAccept st fd).1, (wubuAccept st fd).2.1)
  | .setsockopt fd level optname optval optlen => wubuSetsockopt st fd level optname optval optlen
  | .shutdown fd how => wubuShutdown st fd how
  | .close fd => wubuClose st fd

/-- The tables agree after the call, and if it fails it has changed nothing. -/
def Kept (st : Net) (r : Net × Int) : Prop := TableInv r.1 ∧ (r.2 < 0 → r.1 = st)

/-- The socket that this one names as its peer is not a stream socket with another peer. -/
def Unlinked (st : Net) (i : Slot) : Prop :=
  ∀ j k, (st.pool i).peer = some j → (st.pool j).Live → (st.pool j).type = sockStream →
    (st.pool j).peer = some k → k = i

/-- None of the ways to bring the tables apart. -/
def Sound (st : Net) : Call → Prop
  | .connect fd addr addrlen => ∀ i a d, sockFromFd st fd = some i → addr = some a → sockaddrSize ≤ addrlen →
      (st.pool i).state ≠ .established → route st (st.pool i).type a = some d →
        ((st.pool i).state = .listen → (st.pool i).acceptLen = 0) ∧
        ((st.pool i).type = sockStream → d ≠ i ∧ ((st.pool d).acceptLen : Int) < (st.pool d).backlog ∧
          ∃ k, ¬(st.pool k).Live)
  | .shutdown fd how => how = shutWr ∨ how = shutRdwr → ∀ i, sockFromFd st fd = some i →
      SkState.toNat .bound ≤ (st.pool i).state.toNat → (st.pool i).type ≠ sockStream ∧ Unlinked st i
  | .close fd => ∀ i, sockFromFd st fd = some i →
      ((st.pool i).state = .listen → (st.pool i).acceptLen = 0) ∧
      (∀ k p, k ≠ i → (st.pool i).BoundTo p → (st.pool k).Live → ¬(st.pool k).BoundTo p) ∧ Unlinked st i
  | _ => True

/-! ## The invariant -/

/-- A descriptor and its socket know each other. -/
def FdsOk (st : Net) : Prop := ∀ f i, st.fds f = some i ↔ (st.pool i).Live ∧ (st.pool i).fd = some f

structure PeersOk (st : Net) : Prop where
  kind : ∀ i, (st.pool i).Live → (st.pool i).domain ≠ 0 ∧
    ((st.pool i).type = sockStream ∨ (st.pool i).type = sockDgram) ∧ (st.pool i).state ≠ .synSent
  peer : ∀ i j, (st.pool i).Live → (st.pool i).type = sockStream → (st.pool i).peer = some j →
    (st.pool j).Live ∧ (st.pool j).type = sockStream ∧ (st.pool j).peer = some i ∧
      (st.pool i).state = .established

structure PortsOk (st : Net) : Prop where
  bit : ∀ p, portTest st p = true ↔ ∃ i, (st.pool i).Live ∧ (st.pool i).BoundTo p
  addr : ∀ i, (st.pool i).Live → (st.pool i).localAddr.saFamily ≠ 0 →
    SkState.toNat .bound ≤ (st.pool i).state.toNat ∧ (st.pool i).localAddr.saPort ≠ 0

/-- The queues hold the sockets that have no descriptor, each once. -/
structure QueuesOk (st : Net) : Prop where
  entries : ∀ l, none ∉ (st.pool l).waiting
  once : ∀ l, (st.pool l).waiting.Nodup
  apart : ∀ l l' x, x ∈ (st.pool l).waiting → x ∈ (st.pool l').waiting → l = l'
  waits : ∀ c, (∃ l, some c ∈ (st.pool l).waiting) ↔ (st.pool c).Live ∧ (st.pool c).fd = none
  idle : ∀ l, (st.pool l).state ≠ .listen → (st.pool l).acceptLen = 0
  head : ∀ l, (st.pool l).acceptHead < backlogMax
  backlog : ∀ l, (st.pool l).state = .listen →
    ((st.pool l).acceptLen : Int) ≤ (st.pool l).backlog ∧ (st.pool l).backlog ≤ backlogMax

structure Inv (st : Net) : Prop where
  fds : FdsOk st
  peers : PeersOk st
  ports : PortsOk st
  queues : QueuesOk st

/-- The invariant holds after the call, and if it fails it has changed nothing. -/
def Keeps (st : Net) (r : Net × Int) : Prop := Inv r.1 ∧ (r.2 < 0 → r.1 = st)

variable {st st' : Net} {i j k l p c : Slot} {f : Fd} {s s' : Sock} {x : Option Slot}

/-- An entry of a queue, and an empty queue. -/
theorem waiting_nil (h : s.acceptLen = 0) : s.waiting = [] := by
  rw [Sock.waiting, h]
  rfl

theorem Inv.table (h : Inv st) : TableInv st := by
  refine ⟨fun f i hf => (h.fds f i).1 hf, fun i j hi ht hp => ?_, fun p _ => h.ports.bit p, fun i hi hn => ?_,
    fun l hl => (h.queues.backlog l hl).1⟩
  · obtain ⟨hj, -, hback, -⟩ := h.peers.peer i j hi ht hp
    exact ⟨hj, hback⟩
  · obtain ⟨l, hmem⟩ := (h.queues.waits i).2 ⟨hi, hn⟩
    refine ⟨l, ?_, hmem⟩
    by_contra hne
    rw [waiting_nil (h.queues.idle l hne)] at hmem
    exact List.not_mem_nil hmem

theorem Keeps.kept {r : Net × Int} (h : Keeps st r) : Kept st r := ⟨h.1.table, h.2⟩

/-- A call that only looks. -/
theorem Inv.keeps_self (h : Inv st) (r : Int) : Keeps st (st, r) := ⟨h, fun _ => rfl⟩

theorem Keeps.of_inv (h : Inv st') : Keeps st (st', 0) := ⟨h, fun hr => absurd (show (0 : Int) < 0 from hr) (by decide)⟩

/-! ## Calls that leave a part alone -/

theorem FdsOk.congr (h : FdsOk st) (hf : st'.fds = st.fds)
    (hp : ∀ k f, (st'.pool k).Live ∧ (st'.pool k).fd = some f ↔ (st.pool k).Live ∧ (st.pool k).fd = some f) :
    FdsOk st' := fun f i => by
  rw [hf, hp]
  exact h f i

/-- A socket that is not born and does not die, and keeps its peer if it is a stream socket. -/
structure PeerStep (s s' : Sock) : Prop where
  live : s'.Live ↔ s.Live
  domain : s'.domain = s.domain
  type : s'.type = s.type
  syn : s.Live → s'.state ≠ .synSent
  peer : s.Live → s.type = sockStream → s'.peer = s.peer
  established : s.state = .established → s'.state = .established

theorem PeersOk.congr (h : PeersOk st) (hp : ∀ k, PeerStep (st.pool k) (st'.pool k)) : PeersOk st' := by
  refine ⟨fun i hi => ?_, fun i j hi ht hj => ?_⟩
  · have hl := (hp i).live.1 hi
    rw [(hp i).domain, (hp i).type]
    exact ⟨(h.kind i hl).1, (h.kind i hl).2.1, (hp i).syn hl⟩
  · have hl := (hp i).live.1 hi
    rw [(hp i).type] at ht
    rw [(hp i).peer hl ht] at hj
    obtain ⟨hlj, htj, hback, he⟩ := h.peer i j hl ht hj
    exact ⟨(hp j).live.2 hlj, (hp j).type.trans htj, ((hp j).peer hlj htj).trans hback, (hp i).established he⟩

theorem PeersOk.refl (h : PeersOk st) (k : Slot) : PeerStep (st.pool k) (st.pool k) :=
  ⟨Iff.rfl, rfl, rfl, fun hl => (h.kind k hl).2.2, fun _ _ => rfl, id⟩

theorem PortsOk.congr (h : PortsOk st) (hb : st'.portBusy = st.portBusy)
    (hp : ∀ k p, (st'.pool k).Live ∧ (st'.pool k).BoundTo p ↔ (st.pool k).Live ∧ (st.pool k).BoundTo p)
    (ha : ∀ k, (st'.pool k).Live → (st'.pool k).localAddr.saFamily ≠ 0 →
      SkState.toNat .bound ≤ (st'.pool k).state.toNat ∧ (st'.pool k).localAddr.saPort ≠ 0) : PortsOk st' := by
  refine ⟨fun p => ?_, ha⟩
  rw [portTest, hb]
  exact (h.bit p).trans (exists_congr fun k => (hp k p).symm)

/-- A socket whose queue is the same, and that waits in a queue if it did before. -/
structure QueueStep (s s' : Sock) : Prop where
  waiting : s'.waiting = s.waiting
  fdless : s'.Live ∧ s'.fd = none ↔ s.Live ∧ s.fd = none
  idle : s'.state ≠ .listen → s'.acceptLen = 0
  head : s'.acceptHead < backlogMax
  backlog : s'.state = .listen → (s'.acceptLen : Int) ≤ s'.backlog ∧ s'.backlog ≤ backlogMax

theorem QueuesOk.congr (h : QueuesOk st) (hp : ∀ k, QueueStep (st.pool k) (st'.pool k)) : QueuesOk st' := by
  refine ⟨fun l => ?_, fun l => ?_, fun l l' x hx hx' => ?_, fun c => ?_, fun l => (hp l).idle,
    fun l => (hp l).head, fun l => (hp l).backlog⟩
  · rw [(hp l).waiting]
    exact h.entries l
  · rw [(hp l).waiting]
    exact h.once l
  · rw [(hp l).waiting] at hx
    rw [(hp l').waiting] at hx'
    exact h.apart l l' x hx hx'
  · rw [(hp c).fdless, ← h.waits c]
    exact exists_congr fun l => by rw [(hp l).waiting]

theorem QueuesOk.refl (h : QueuesOk st) (k : Slot) : QueueStep (st.pool k) (st.pool k) :=
  ⟨rfl, Iff.rfl, h.idle k, h.head k, h.backlog k⟩

/-- What is to be said of the queue of a single socket. -/
structure QueueRow (s : Sock) : Prop where
  idle : s.state ≠ .listen → s.acceptLen = 0
  head : s.acceptHead < backlogMax
  backlog : s.state = .listen → (s.acceptLen : Int) ≤ s.backlog ∧ s.backlog ≤ backlogMax

/-- A queue is empty if it is no queue of a listener, or that of one that is. -/
theorem QueuesOk.len_zero (h : QueuesOk st) (hlen : (st.pool i).state = .listen → (st.pool i).acceptLen = 0) :
    (st.pool i).acceptLen = 0 := by
  by_cases hl : (st.pool i).state = .listen
  · exact hlen hl
  · exact h.idle i hl

theorem QueuesOk.row (h : QueuesOk st) (k : Slot) : QueueRow (st.pool k) := ⟨h.idle k, h.head k, h.backlog k⟩

/-! ## Looking up -/

theorem fds_of_sockFromFd {fd : Int} (h : sockFromFd st fd = some i) : ∃ f, st.fds f = some i := by
  unfold sockFromFd at h
  split at h
  · exact ⟨_, h⟩
  · cases h

/-- The socket of a descriptor. -/
theorem FdsOk.live (h : FdsOk st) {fd : Int} (hfd : sockFromFd st fd = some i) :
    (st.pool i).Live ∧ ∃ f, st.fds f = some i ∧ (st.pool i).fd = some f := by
  obtain ⟨f, hf⟩ := fds_of_sockFromFd hfd
  obtain ⟨hl, hown⟩ := (h f i).1 hf
  exact ⟨hl, f, hf, hown⟩

theorem sockAlloc_some (h : sockAlloc st = some (st', i)) :
    ¬(st.pool i).Live ∧ st' = st.upd i fun _ => { zeroSock with fd := none, state := .idle } := by
  obtain ⟨i', hi, he⟩ := Option.map_eq_some_iff.1 h
  obtain ⟨rfl, rfl⟩ := Prod.mk.inj he
  have hfree := List.find?_some hi
  exact ⟨fun hl => hl (of_decide_eq_true hfree), rfl⟩

theorem sockAlloc_none (h : sockAlloc st = none) (i : Slot) : (st.pool i).Live := by
  have hall := List.find?_eq_none.1 (Option.map_eq_none_iff.1 h) i (List.mem_finRange i)
  exact fun he => hall (decide_eq_true he)

theorem fdAlloc_some (h : fdAlloc st i = some (st', f)) : st.fds f = none ∧
    st' = { st.upd i (fun s => { s with fd := some f }) with
      fds := fun f' => if f' = f then some i else st.fds f' } := by
  obtain ⟨f', hf, he⟩ := Option.map_eq_some_iff.1 h
  obtain ⟨rfl, rfl⟩ := Prod.mk.inj he
  have hnone := List.find?_some hf
  exact ⟨Option.isNone_iff_eq_none.1 hnone, rfl⟩

/-- **There are as many descriptors as slots**: when they are all taken, so are the slots, and every
socket has one. -/
theorem FdsOk.full (h : FdsOk st) (hn : fdAlloc st' k = none) (hf : st'.fds = st.fds) (i : Slot) :
    (st.pool i).Live ∧ (st.pool i).fd ≠ none := by
  have hsome : ∀ f, ∃ i, st.fds f = some i := fun f => by
    have := List.find?_eq_none.1 (Option.map_eq_none_iff.1 hn) f (List.mem_finRange f)
    rw [hf] at this
    exact Option.ne_none_iff_exists'.1 fun he => this (by rw [he]; rfl)
  choose g hg using hsome
  have hinj : Function.Injective g := fun f f' he => by
    have hf := ((h f (g f)).mp (hg f)).2
    rw [he] at hf
    exact Option.some.inj (hf.symm.trans ((h f' (g f')).mp (hg f')).2)
  obtain ⟨f, rfl⟩ := Finite.surjective_of_injective hinj i
  obtain ⟨hl, hown⟩ := (h f (g f)).mp (hg f)
  exact ⟨hl, by rw [hown]; exact Option.some_ne_none f⟩

end WuBuOS.Socket
