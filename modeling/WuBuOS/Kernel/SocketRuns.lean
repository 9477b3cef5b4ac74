import WuBuOS.Kernel.SocketTable

/-!
# The calls keep the tables in step

For each of the calls of `Kernel.Socket`, that it keeps the invariant of `Kernel.SocketTable` if it is sound, and
that it changes nothing if it fails.  The invariant has a part for each of the tables (`FdsOk`, `PeersOk`, `PortsOk`,
`QueuesOk`), and what a call does to the sockets is said once for all four:

* `Born`: a socket in a slot that was free; `inv_commit`: a port for an idle one.
* `Joined`: a connection, with its other end in the queue of the listener; `Accepted`: it is taken out.
* `Closed`: a slot is free, and nothing leads to it any more.
* `keeps_exec` puts the calls together, and `table_invariant` is about runs.
* `table_comes_apart` is a run that is not sound: a descriptor names a slot that is free.
-/

namespace WuBuOS.Socket

variable {st st' : Net} {i j k l d p c : Slot} {f : Fd} {s s' : Sock}

/-! ## `wubu_socket` -/

/-- A new socket, in a slot that was free, with a descriptor that was free. -/
structure Born (s : Sock) (f : Fd) : Prop where
  fd : s.fd = some f
  state : s.state = .idle
  kind : s.domain ≠ 0 ∧ (s.type = sockStream ∨ s.type = sockDgram)
  addr : s.localAddr.saFamily = 0
  peer : s.peer = none
  len : s.acceptLen = 0
  head : s.acceptHead = 0

theorem Born.live (h : Born s f) : s.Live := by
  rw [Sock.Live, h.state]
  exact nofun

/-- A descriptor that was free becomes that of a socket without one. -/
theorem FdsOk.assign (h : FdsOk st) (hf : st.fds f = none)
    (hfds : st'.fds = fun f' => if f' = f then some c else st.fds f')
    (hnone : ∀ f, ¬((st.pool c).Live ∧ (st.pool c).fd = some f)) (hlive : (st'.pool c).Live)
    (hgot : (st'.pool c).fd = some f)
    (hne : ∀ k, k ≠ c → ∀ f, (st'.pool k).Live ∧ (st'.pool k).fd = some f ↔
      (st.pool k).Live ∧ (st.pool k).fd = some f) : FdsOk st' := by
  intro f' k
  rw [hfds]
  show (if f' = f then some c else st.fds f') = some k ↔ _
  by_cases hf' : f' = f
  · subst hf'
    rw [if_pos rfl, Option.some.injEq]
    constructor
    · rintro rfl
      exact ⟨hlive, hgot⟩
    · intro hown
      by_contra hkc
      rw [hne k (Ne.symm hkc)] at hown
      exact absurd (hf.symm.trans ((h _ k).2 hown)) nofun
  · rw [if_neg hf', h f' k]
    by_cases hkc : k = c
    · subst hkc
      rw [hgot]
      exact ⟨fun hown => absurd hown (hnone f'), fun ⟨_, he⟩ => absurd (Option.some.inj he).symm hf'⟩
    · rw [hne k hkc]

theorem inv_born (h : Inv st) (hfree : ¬(st.pool i).Live) (hf : st.fds f = none) (hs : Born (st'.pool i) f)
    (hne : ∀ k, k ≠ i → st'.pool k = st.pool k)
    (hfds : st'.fds = fun f' => if f' = f then some i else st.fds f') (hbusy : st'.portBusy = st.portBusy) :
    Inv st' := by
  have hstate : (st.pool i).state = .free := not_not.1 hfree
  refine ⟨h.fds.assign hf hfds (fun _ hown => hfree hown.1) hs.live hs.fd fun k hk _ => by rw [hne k hk],
    ⟨fun k hk => ?_, fun k j hk ht hj => ?_⟩, h.ports.congr hbusy (fun k q => ?_) fun k hk ha => ?_,
    h.queues.congr fun k => ?_⟩
  · by_cases hki : k = i
    · subst hki
      exact ⟨hs.kind.1, hs.kind.2, by rw [hs.state]; exact nofun⟩
    · rw [hne k hki] at hk ⊢
      exact h.peers.kind k hk
  · by_cases hki : k = i
    · subst hki
      rw [hs.peer] at hj
      cases hj
    · rw [hne k hki] at hk ht hj ⊢
      obtain ⟨hlj, hrest⟩ := h.peers.peer k j hk ht hj
      have hji : j ≠ i := fun he => hfree (he ▸ hlj)
      rw [hne j hji]
      exact ⟨hlj, hrest⟩
  · by_cases hki : k = i
    · subst hki
      exact ⟨fun ⟨_, hb⟩ => absurd hs.addr hb.1, fun ⟨hl, _⟩ => absurd hl hfree⟩
    · rw [hne k hki]
  · by_cases hki : k = i
    · subst hki
      exact absurd hs.addr ha
    · rw [hne k hki] at hk ha ⊢
      exact h.ports.addr k hk ha
  · by_cases hki : k = i
    · subst hki
      have hlen := h.queues.idle k (by rw [hstate]; exact nofun)
      refine ⟨by rw [waiting_nil hs.len, waiting_nil hlen], ?_, fun _ => hs.len, by rw [hs.head]; decide,
        fun he => absurd (hs.state.symm.trans he) nofun⟩
      rw [hs.fd]
      exact ⟨fun ⟨_, he⟩ => absurd he nofun, fun ⟨hl, _⟩ => absurd hl hfree⟩
    · rw [hne k hki]
      exact h.queues.refl k

theorem keeps_socket (h : Inv st) (domain type protocol : Int) : Keeps st (wubuSocket st domain type protocol) := by
  unfold wubuSocket
  split
  · exact h.keeps_self _
  split
  · exact h.keeps_self _
  split
  · exact h.keeps_self _
  rename_i hdomain htype hraw
  split
  · exact h.keeps_self _
  rename_i st1 i halloc
  obtain ⟨hfree, rfl⟩ := sockAlloc_some halloc
  dsimp only
  split
  · -- There is a descriptor left if there is a slot.
    rename_i hnone
    exact absurd (h.fds.full hnone rfl i).1 hfree
  · rename_i st2 f hfd
    obtain ⟨hf, rfl⟩ := fdAlloc_some hfd
    refine ⟨inv_born (i := i) h hfree hf ?_ (fun k hk => ?_) rfl rfl, fun hr => absurd hr (by simp)⟩
    · simp only [upd_pool_self]
      refine ⟨rfl, rfl, ⟨fun he => hdomain ?_, ?_⟩, rfl, rfl, rfl, rfl⟩
      · have he : domain = 0 := he
        subst he
        decide
      · by_contra hno
        exact htype ⟨fun he => hno (.inl he), fun he => hno (.inr he), hraw⟩
    · simp only [upd_pool_of_ne hk]

/-! ## `wubu_bind` -/

/-- What relates the socket to what it becomes, and every other to itself. -/
theorem upd_rel {P : Sock → Sock → Prop} {g : Sock → Sock} (hi : P (st.pool i) (g (st.pool i)))
    (hrefl : ∀ k, P (st.pool k) (st.pool k)) (k : Slot) : P (st.pool k) ((st.upd i g).pool k) := by
  by_cases hki : k = i
  · subst hki
    rw [upd_pool_self]
    exact hi
  · rw [upd_pool_of_ne hki]
    exact hrefl k

/-- The port is taken by a socket that had none. -/
theorem portsOk_commit (h : PortsOk st) {addr : Sockaddr} {port : Nat} (h0 : 0 < port) (hlt : port < portMax)
    (hfam : addr.saFamily ≠ 0) (hun : (st.pool i).localAddr.saFamily = 0) :
    PortsOk (commit (portSet st port) i addr port) := by
  have hport : (UInt16.ofNat port).toNat = port := UInt16.toNat_ofNat_of_lt' (by exact hlt)
  have hpool : ∀ k, k ≠ i → (commit (portSet st port) i addr port).pool k = st.pool k := fun k hk =>
    upd_pool_of_ne hk ..
  have hself : (commit (portSet st port) i addr port).pool i =
      { st.pool i with localAddr := { addr with saPort := .ofNat port }, state := .bound } :=
    upd_pool_self ..
  refine ⟨fun q => ?_, fun k hk ha => ?_⟩
  · have hbit : portTest (commit (portSet st port) i addr port) q = (decide (q = port) || portTest st q) :=
      Bitmap.test_set ..
    rw [hbit, Bool.or_eq_true, decide_eq_true_iff, h.bit]
    constructor
    · rintro (rfl | ⟨k, hk, hb⟩)
      · exact ⟨i, by rw [hself]; exact ⟨nofun, hfam, hport⟩⟩
      · have hki : k ≠ i := fun he => hb.1 (he ▸ hun)
        exact ⟨k, by rw [hpool k hki]; exact ⟨hk, hb⟩⟩
    · rintro ⟨k, hk, hb⟩
      by_cases hki : k = i
      · subst hki
        rw [hself] at hb
        exact .inl (hb.2.symm.trans hport)
      · rw [hpool k hki] at hk hb
        exact .inr ⟨k, hk, hb⟩
  · by_cases hki : k = i
    · subst hki
      rw [hself]
      refine ⟨Nat.le_refl _, fun he => ?_⟩
      have := congrArg UInt16.toNat he
      rw [hport] at this
      exact absurd this (Nat.ne_of_gt h0)
    · rw [hpool k hki] at hk ha ⊢
      exact h.addr k hk ha

theorem inv_commit (h : Inv st) (hl : (st.pool i).Live) (hidle : (st.pool i).state = .idle) {addr : Sockaddr}
    {port : Nat} (h0 : 0 < port) (hlt : port < portMax) (hfam : (addr.saFamily.toNat : Int) = (st.pool i).domain) :
    Inv (commit (portSet st port) i addr port) := by
  have hne : addr.saFamily ≠ 0 := fun he => (h.peers.kind i hl).1 (by rw [← hfam, he]; rfl)
  have hunbound : (st.pool i).localAddr.saFamily = 0 := by
    by_contra hfam'
    have := (h.ports.addr i hl hfam').1
    rw [hidle] at this
    exact absurd this (by decide)
  refine ⟨h.fds.congr rfl fun k f => ?_, h.peers.congr (upd_rel ?_ h.peers.refl),
    portsOk_commit h.ports h0 hlt hne hunbound, h.queues.congr (upd_rel ?_ h.queues.refl)⟩
  · refine upd_rel (P := fun s s' => s'.Live ∧ s'.fd = some f ↔ s.Live ∧ s.fd = some f) ?_ (fun _ => Iff.rfl) k
    exact and_congr_left fun _ => ⟨fun _ => hl, fun _ => nofun⟩
  · exact ⟨⟨fun _ => hl, fun _ => nofun⟩, rfl, rfl, fun _ => nofun, fun _ _ => rfl,
      fun he => absurd (hidle.symm.trans he) nofun⟩
  · exact ⟨rfl, and_congr_left fun _ => ⟨fun _ => hl, fun _ => nofun⟩,
      fun _ => h.queues.idle i (by rw [hidle]; exact nofun), h.queues.head i, fun he => absurd he nofun⟩

theorem keeps_bind (h : Inv st) (fd : Int) (addr : Option Sockaddr) (addrlen : Nat) :
    Keeps st (wubuBind st fd addr addrlen) := by
  unfold wubuBind
  split
  · exact h.keeps_self _
  rename_i i hfd
  have hl := (h.fds.live hfd).1
  split
  · exact h.keeps_self _
  rename_i hstate
  split
  · exact h.keeps_self _
  rename_i addr
  split
  · exact h.keeps_self _
  split
  · exact h.keeps_self _
  rename_i hfam
  have hidle := not_not.1 hstate
  have hfam := not_not.1 hfam
  split
  · split
    · exact h.keeps_self _
    rename_i halloc
    obtain ⟨q, hq, he⟩ := Option.map_eq_some_iff.1 halloc
    obtain ⟨rfl, rfl⟩ := Prod.mk.inj he
    have hrange := List.mem_range'_1.1 (List.mem_of_find?_eq_some hq)
    exact .of_inv (inv_commit h hl hidle (by omega) (by simp only [portMax] at *; omega) hfam)
  · rename_i hport
    split
    · exact h.keeps_self _
    split
    · exact h.keeps_self _
    · refine .of_inv (inv_commit h hl hidle (Nat.pos_of_ne_zero fun he => hport ?_) (UInt16.toNat_lt _) hfam)
      exact UInt16.toNat_inj.1 he

/-! ## `wubu_listen` and `wubu_setsockopt` -/

/-- A change to one socket that is neither born nor dies, whatever becomes of its queue. -/
theorem inv_upd (h : Inv st) {g : Sock → Sock} (hfd : (g (st.pool i)).fd = (st.pool i).fd)
    (hpeer : PeerStep (st.pool i) (g (st.pool i))) (haddr : (g (st.pool i)).localAddr = (st.pool i).localAddr)
    (hbound : SkState.toNat .bound ≤ (st.pool i).state.toNat → SkState.toNat .bound ≤ (g (st.pool i)).state.toNat)
    (hqueue : QueueStep (st.pool i) (g (st.pool i))) : Inv (st.upd i g) := by
  refine ⟨h.fds.congr rfl fun k f => ?_, h.peers.congr (upd_rel hpeer h.peers.refl),
    h.ports.congr rfl (fun k q => ?_) fun k => ?_, h.queues.congr (upd_rel hqueue h.queues.refl)⟩
  · refine upd_rel (P := fun s s' => s'.Live ∧ s'.fd = some f ↔ s.Live ∧ s.fd = some f) ?_ (fun _ => Iff.rfl) k
    rw [hfd, hpeer.live]
  · refine upd_rel (P := fun s s' => s'.Live ∧ s'.BoundTo q ↔ s.Live ∧ s.BoundTo q) ?_ (fun _ => Iff.rfl) k
    rw [hpeer.live, Sock.BoundTo, Sock.BoundTo, haddr]
  · refine upd_rel (P := fun _ s' => s'.Live → s'.localAddr.saFamily ≠ 0 →
      SkState.toNat .bound ≤ s'.state.toNat ∧ s'.localAddr.saPort ≠ 0) (fun hk ha => ?_) h.ports.addr k
    rw [haddr] at ha ⊢
    obtain ⟨hb, hp⟩ := h.ports.addr i (hpeer.live.1 hk) ha
    exact ⟨hbound hb, hp⟩

theorem keeps_listen (h : Inv st) (fd backlog : Int) : Keeps st (wubuListen st fd backlog) := by
  unfold wubuListen
  split
  · exact h.keeps_self _
  rename_i i hfd
  split
  · exact h.keeps_self _
  rename_i hstate
  have hbound := not_not.1 hstate
  have hl := (h.fds.live hfd).1
  have hlen := h.queues.idle i (by rw [hbound]; exact nofun)
  refine .of_inv (inv_upd h rfl ⟨⟨fun _ => hl, fun _ => nofun⟩, rfl, rfl, fun _ => nofun, fun _ _ => rfl,
    fun he => absurd (hbound.symm.trans he) nofun⟩ rfl (fun _ => show 2 ≤ 3 by decide)
    ⟨?_, ?_, fun _ => rfl, Nat.zero_lt_succ _, fun _ => ?_⟩)
  · rw [waiting_nil rfl, waiting_nil hlen]
  · exact and_congr_left fun _ => ⟨fun _ => hl, fun _ => nofun⟩
  · simp only [backlogMax]
    split
    · omega
    · split <;> omega

/-- Only the options and the ring of the socket change. -/
theorem inv_options (h : Inv st) (i : Slot) (a b : Sock → Bool) (rp wp : Sock → BitVec 64) :
    Inv (st.upd i fun s => { s with reuseaddr := a s, reuseport := b s, rp := rp s, wp := wp s }) := by
  obtain ⟨hl, hd, ht, hs, hp, he⟩ := h.peers.refl i
  obtain ⟨hw, hf, hi, hh, hb⟩ := h.queues.refl i
  exact inv_upd h rfl ⟨hl, hd, ht, hs, hp, he⟩ rfl id ⟨hw, hf, hi, hh, hb⟩

theorem keeps_setsockopt (h : Inv st) (fd level optname : Int) (optval : Option Int) (optlen : Nat) :
    Keeps st (wubuSetsockopt st fd level optname optval optlen) := by
  unfold wubuSetsockopt
  split
  · exact h.keeps_self _
  rename_i i _
  split
  · exact h.keeps_self _
  split
  · exact h.keeps_self _
  split
  · exact h.keeps_self _
  split
  · exact .of_inv (inv_options h i _ (·.reuseport) (·.rp) (·.wp))
  split
  · exact .of_inv (inv_options h i (·.reuseaddr) _ (·.rp) (·.wp))
  split
  · exact .of_inv h
  · exact h.keeps_self _

/-! ## `wubu_connect` -/

/-- A socket that waits for nothing yet is put at the end of a queue. -/
theorem QueuesOk.enqueue (h : QueuesOk st) (hp : ¬((st.pool p).Live ∧ (st.pool p).fd = none))
    (hd : (st'.pool d).waiting = (st.pool d).waiting ++ [some p])
    (hne : ∀ k, k ≠ d → (st'.pool k).waiting = (st.pool k).waiting)
    (hfdless : ∀ k, (st'.pool k).Live ∧ (st'.pool k).fd = none ↔ k = p ∨ (st.pool k).Live ∧ (st.pool k).fd = none)
    (hrow : ∀ l, QueueRow (st'.pool l)) : QueuesOk st' := by
  have hnot : ∀ l, some p ∉ (st.pool l).waiting := fun l hmem => hp ((h.waits p).1 ⟨l, hmem⟩)
  have hmem : ∀ l x, x ∈ (st'.pool l).waiting ↔ x ∈ (st.pool l).waiting ∨ l = d ∧ x = some p := fun l x => by
    by_cases hl : l = d
    · subst hl
      rw [hd, List.mem_append, List.mem_singleton]
      simp
    · rw [hne l hl]
      simp [hl]
  refine ⟨fun l hn => ?_, fun l => ?_, fun l l' x hx hx' => ?_, fun c => ?_, fun l => (hrow l).idle,
    fun l => (hrow l).head, fun l => (hrow l).backlog⟩
  · rcases (hmem l none).1 hn with hn | ⟨-, hn⟩
    · exact h.entries l hn
    · cases hn
  · by_cases hl : l = d
    · subst hl
      rw [hd, List.nodup_append]
      refine ⟨h.once l, List.nodup_singleton _, fun x hx y hy he => hnot l ?_⟩
      rw [← List.mem_singleton.1 hy, ← he]
      exact hx
    · rw [hne l hl]
      exact h.once l
  · rcases (hmem l x).1 hx with hx | ⟨rfl, rfl⟩
    · rcases (hmem l' x).1 hx' with hx' | ⟨rfl, rfl⟩
      · exact h.apart l l' x hx hx'
      · exact absurd hx (hnot l)
    · rcases (hmem l' _).1 hx' with hx' | ⟨rfl, -⟩
      · exact absurd hx' (hnot l')
      · rfl
  · rw [hfdless, ← h.waits]
    constructor
    · rintro ⟨l, hl⟩
      rcases (hmem l _).1 hl with hl | ⟨-, hl⟩
      · exact .inr ⟨l, hl⟩
      · exact .inl (Option.some.inj hl)
    · rintro (rfl | ⟨l, hl⟩)
      · exact ⟨d, (hmem d _).2 (.inr ⟨rfl, rfl⟩)⟩
      · exact ⟨l, (hmem l _).2 (.inl hl)⟩

theorem waiting_enqueue (h : s.acceptLen < backlogMax) :
    (acceptEnqueue s p).1.waiting = s.waiting ++ [some p] ∧ (acceptEnqueue s p).1.acceptLen = s.acceptLen + 1 := by
  rw [acceptEnqueue, if_neg (Nat.not_le_of_lt h)]
  exact ⟨Fifo.window_update _ h, rfl⟩

/-- What a connection of stream sockets changes: `p` is new, and waits at `d`. -/
structure Joined (st st' : Net) (i d p : Slot) : Prop where
  fds : st'.fds = st.fds
  busy : st'.portBusy = st.portBusy
  self : st'.pool i = { st.pool i with peer := some p, state := .established }
  dst : st'.pool d = (acceptEnqueue (st.pool d) p).1
  new : st'.pool p = { zeroSock with
    fd := none, domain := (st.pool i).domain, type := (st.pool i).type, proto := (st.pool i).proto
    localAddr := (st.pool d).localAddr, peer := some i, state := .established }
  other : ∀ k, k ≠ i → k ≠ d → k ≠ p → st'.pool k = st.pool k

/-- The listener, but for its queue. -/
theorem enqueue_row (s : Sock) (p : Slot) : (acceptEnqueue s p).1.state = s.state ∧
    (acceptEnqueue s p).1.fd = s.fd ∧ (acceptEnqueue s p).1.domain = s.domain ∧
    (acceptEnqueue s p).1.type = s.type ∧ (acceptEnqueue s p).1.peer = s.peer ∧
    (acceptEnqueue s p).1.localAddr = s.localAddr ∧ (acceptEnqueue s p).1.acceptHead = s.acceptHead ∧
    (acceptEnqueue s p).1.backlog = s.backlog := by
  rw [acceptEnqueue]
  split <;> exact ⟨rfl, rfl, rfl, rfl, rfl, rfl, rfl, rfl⟩

/-- Between which sockets there can be a connection: `d` has room in its queue, and `p` is free. -/
structure Joins (st : Net) (i d p : Slot) : Prop where
  live : (st.pool i).Live
  ne : d ≠ i
  free : ¬(st.pool p).Live
  stream : (st.pool i).type = sockStream
  alone : (st.pool i).state ≠ .established
  listens : (st.pool d).state = .listen
  len : (st.pool i).state = .listen → (st.pool i).acceptLen = 0
  room : ((st.pool d).acceptLen : Int) < (st.pool d).backlog

theorem Joins.listener (hs : Joins st i d p) : (st.pool d).Live := by
  rw [Sock.Live, hs.listens]
  exact nofun

/-- The four kinds of slots. -/
theorem Joined.slot (hj : Joined st st' i d p) (k : Slot) : k = i ∨ k = d ∨ k = p ∨ k ≠ d ∧ st'.pool k = st.pool k := by
  by_cases hki : k = i
  · exact .inl hki
  by_cases hkd : k = d
  · exact .inr (.inl hkd)
  by_cases hkp : k = p
  · exact .inr (.inr (.inl hkp))
  · exact .inr (.inr (.inr ⟨hkd, hj.other k hki hkd hkp⟩))

theorem Joined.live_iff (hj : Joined st st' i d p) (hs : Joins st i d p) (k : Slot) :
    (st'.pool k).Live ↔ k = p ∨ (st.pool k).Live := by
  rcases hj.slot k with rfl | rfl | rfl | ⟨-, hk⟩
  · rw [hj.self]
    exact ⟨fun _ => .inr hs.live, fun _ => nofun⟩
  · rw [Sock.Live, hj.dst, (enqueue_row _ _).1]
    exact ⟨fun _ => .inr hs.listener, fun _ => hs.listener⟩
  · rw [hj.new]
    exact ⟨fun _ => .inl rfl, fun _ => nofun⟩
  · rw [hk]
    refine ⟨.inr, fun hl => hl.elim (fun he => ?_) id⟩
    rw [← hk, he, hj.new]
    exact nofun

/-- All but the new socket keep their descriptor and their address. -/
theorem Joined.keeps (hj : Joined st st' i d p) {k : Slot} (hkp : k ≠ p) :
    (st'.pool k).fd = (st.pool k).fd ∧ (st'.pool k).localAddr = (st.pool k).localAddr := by
  obtain ⟨-, hdf, -, -, -, hda, -⟩ := enqueue_row (st.pool d) p
  rcases hj.slot k with rfl | rfl | rfl | ⟨-, hk⟩
  · rw [hj.self]
    exact ⟨rfl, rfl⟩
  · rw [hj.dst]
    exact ⟨hdf, hda⟩
  · exact absurd rfl hkp
  · rw [hk]
    exact ⟨rfl, rfl⟩

theorem fdsOk_joined (h : Inv st) (hj : Joined st st' i d p) (hs : Joins st i d p) : FdsOk st' := by
  refine h.fds.congr hj.fds fun k f => ?_
  by_cases hkp : k = p
  · subst hkp
    rw [hj.new]
    exact ⟨fun ⟨_, hn⟩ => absurd hn nofun, fun ⟨hl, _⟩ => absurd hl hs.free⟩
  · rw [hj.live_iff hs, (hj.keeps hkp).1, or_iff_right hkp]

theorem peersOk_joined (h : Inv st) (hj : Joined st st' i d p) (hs : Joins st i d p) : PeersOk st' := by
  obtain ⟨hds, -, hdd, hdt, hdp, -⟩ := enqueue_row (st.pool d) p
  rw [← hj.dst] at hds hdd hdt hdp
  refine ⟨fun k hk => ?_, fun k j hk htk hpk => ?_⟩
  · rcases hj.slot k with rfl | rfl | rfl | ⟨-, hke⟩
    · rw [hj.self]
      exact ⟨(h.peers.kind k hs.live).1, (h.peers.kind k hs.live).2.1, nofun⟩
    · rw [hdd, hdt, hds]
      exact h.peers.kind k hs.listener
    · rw [hj.new]
      exact ⟨(h.peers.kind i hs.live).1, (h.peers.kind i hs.live).2.1, nofun⟩
    · rw [hke] at hk ⊢
      exact h.peers.kind k hk
  · rcases hj.slot k with rfl | rfl | rfl | ⟨-, hke⟩
    · rw [hj.self] at hpk
      obtain rfl : p = j := Option.some.inj hpk
      rw [hj.new, hj.self]
      exact ⟨nofun, hs.stream, rfl, rfl⟩
    · -- A listener has no peer.
      rw [hdt] at htk
      rw [hdp] at hpk
      exact absurd (hs.listens.symm.trans (h.peers.peer k j hs.listener htk hpk).2.2.2) nofun
    · rw [hj.new] at hpk
      obtain rfl : i = j := Option.some.inj hpk
      rw [hj.self, hj.new]
      exact ⟨nofun, hs.stream, rfl, rfl⟩
    · rw [hke] at hk htk hpk ⊢
      obtain ⟨hjl, hjt, hjp, hest⟩ := h.peers.peer k j hk htk hpk
      have hjest := (h.peers.peer j k hjl hjt hjp).2.2.2
      have hjsame : st'.pool j = st.pool j := by
        rcases hj.slot j with rfl | rfl | rfl | ⟨-, hje⟩
        · exact absurd hjest hs.alone
        · exact absurd (hs.listens.symm.trans hjest) nofun
        · exact absurd hjl hs.free
        · exact hje
      rw [hjsame]
      exact ⟨hjl, hjt, hjp, hest⟩

theorem portsOk_joined (h : Inv st) (hj : Joined st st' i d p) (hs : Joins st i d p) : PortsOk st' := by
  obtain ⟨hds, -, -, -, -, hda, -⟩ := enqueue_row (st.pool d) p
  rw [← hj.dst] at hds hda
  refine ⟨fun q => ?_, fun k hk ha => ?_⟩
  · have hbit : portTest st' q = portTest st q := by rw [portTest, hj.busy, portTest]
    rw [hbit, h.ports.bit]
    constructor
    · rintro ⟨k, hk, hb⟩
      have hkp : k ≠ p := fun he => hs.free (he ▸ hk)
      exact ⟨k, (hj.live_iff hs k).2 (.inr hk), by rwa [Sock.BoundTo, (hj.keeps hkp).2]⟩
    · rintro ⟨k, hk, hb⟩
      by_cases hkp : k = p
      · subst hkp
        rw [hj.new] at hb
        exact ⟨d, hs.listener, hb⟩
      · rw [Sock.BoundTo, (hj.keeps hkp).2] at hb
        exact ⟨k, (or_iff_right hkp).1 ((hj.live_iff hs k).1 hk), hb⟩
  · rcases hj.slot k with rfl | rfl | rfl | ⟨-, hke⟩
    · rw [hj.self] at ha ⊢
      exact ⟨show 2 ≤ 5 by decide, (h.ports.addr k hs.live ha).2⟩
    · rw [hda] at ha ⊢
      rw [hds]
      exact h.ports.addr k hs.listener ha
    · rw [hj.new] at ha ⊢
      exact ⟨show 2 ≤ 5 by decide, (h.ports.addr d hs.listener ha).2⟩
    · rw [hke] at hk ha ⊢
      exact h.ports.addr k hk ha

theorem queuesOk_joined (h : Inv st) (hj : Joined st st' i d p) (hs : Joins st i d p) : QueuesOk st' := by
  have hcap := (h.queues.backlog d hs.listens).2
  have hroom := hs.room
  have hplen : (st.pool p).acceptLen = 0 := h.queues.idle p (by rw [not_not.1 hs.free]; exact nofun)
  obtain ⟨hwait, hcount⟩ := waiting_enqueue (s := st.pool d) (p := p) (by omega)
  obtain ⟨hds, -, -, -, -, -, hdh, hdb⟩ := enqueue_row (st.pool d) p
  rw [← hj.dst] at hwait hcount hds hdh hdb
  refine h.queues.enqueue (fun hq => hs.free hq.1) hwait (fun k hkd => ?_) (fun k => ?_) fun l => ?_
  · rcases hj.slot k with rfl | rfl | rfl | ⟨-, hke⟩
    · rw [hj.self]
      rfl
    · exact absurd rfl hkd
    · rw [waiting_nil hplen, hj.new]
      rfl
    · rw [hke]
  · by_cases hkp : k = p
    · subst hkp
      rw [hj.new]
      exact ⟨fun _ => .inl rfl, fun _ => ⟨nofun, rfl⟩⟩
    · rw [hj.live_iff hs, (hj.keeps hkp).1, or_iff_right hkp, or_iff_right hkp]
  · rcases hj.slot l with rfl | rfl | rfl | ⟨-, hle⟩
    · rw [hj.self]
      exact ⟨fun _ => h.queues.len_zero hs.len, h.queues.head l, nofun⟩
    · refine ⟨fun hl => absurd (hds.trans hs.listens) hl, hdh ▸ h.queues.head l, fun _ => ?_⟩
      rw [hcount, hdb]
      omega
    · rw [hj.new]
      exact ⟨fun _ => rfl, Nat.zero_lt_succ _, nofun⟩
    · rw [hle]
      exact h.queues.row l

theorem inv_joined (h : Inv st) (hj : Joined st st' i d p) (hs : Joins st i d p) : Inv st' :=
  ⟨fdsOk_joined h hj hs, peersOk_joined h hj hs, portsOk_joined h hj hs, queuesOk_joined h hj hs⟩

/-- Two datagram sockets name each other, whoever their peers were. -/
theorem inv_paired (h : Inv st) (hi : (st.pool i).Live) (hit : (st.pool i).type = sockDgram)
    (hdt : (st.pool d).type = sockDgram) (hlen : (st.pool i).state = .listen → (st.pool i).acceptLen = 0) :
    Inv ((st.upd d fun c => { c with peer := some i }).upd i fun s =>
      { s with peer := some d, state := .established }) := by
  have hlen0 := h.queues.len_zero hlen
  have hd : Inv (st.upd d fun c => { c with peer := some i }) := by
    obtain ⟨hl, hdom, ht, hs, -, he⟩ := h.peers.refl d
    obtain ⟨hw, hf, hidle, hh, hb⟩ := h.queues.refl d
    exact inv_upd h rfl ⟨hl, hdom, ht, hs, fun _ hst => absurd (hdt.symm.trans hst) (by decide), he⟩ rfl id
      ⟨hw, hf, hidle, hh, hb⟩
  have hrow : ∀ k, ((st.upd d fun c => { c with peer := some i }).pool k).state = (st.pool k).state ∧
      ((st.upd d fun c => { c with peer := some i }).pool k).type = (st.pool k).type ∧
      ((st.upd d fun c => { c with peer := some i }).pool k).acceptLen = (st.pool k).acceptLen := fun k =>
    upd_rel (P := fun s s' => s'.state = s.state ∧ s'.type = s.type ∧ s'.acceptLen = s.acceptLen)
      ⟨rfl, rfl, rfl⟩ (fun _ => ⟨rfl, rfl, rfl⟩) k
  obtain ⟨hs, ht, hl⟩ := hrow i
  have hlive : ((st.upd d fun c => { c with peer := some i }).pool i).Live := by
    rw [Sock.Live, hs]
    exact hi
  refine inv_upd hd rfl ⟨⟨fun _ => hlive, fun _ => nofun⟩, rfl, rfl, fun _ => nofun, fun _ hst => ?_, fun _ => rfl⟩ rfl
    (fun _ => show 2 ≤ 5 by decide) ⟨rfl, and_congr_left fun _ => ⟨fun _ => hlive, fun _ => nofun⟩,
      fun _ => hl.trans hlen0, hd.queues.head i, fun he => absurd he nofun⟩
  exact absurd (hit.symm.trans (ht.symm.trans hst)) (by decide)

theorem route_some {type : Int} {a : Sockaddr} (h : route st type a = some d) : (st.pool d).localAddr = a ∧
    (type = sockStream ∧ (st.pool d).state = .listen ∨
      type = sockDgram ∧ SkState.toNat .bound ≤ (st.pool d).state.toNat ∧ (st.pool d).type = sockDgram) := by
  have hd := List.find?_some h
  exact of_decide_eq_true hd

theorem keeps_connect (h : Inv st) {fd : Int} {addr : Option Sockaddr} {addrlen : Nat}
    (hsound : Sound st (.connect fd addr addrlen)) : Keeps st (wubuConnect st fd addr addrlen) := by
  unfold wubuConnect
  split
  · exact h.keeps_self _
  rename_i i hfd
  split
  · exact h.keeps_self _
  rename_i a
  split
  · exact h.keeps_self _
  rename_i haddrlen
  split
  · exact h.keeps_self _
  rename_i hest
  split
  · exact h.keeps_self _
  rename_i d hroute
  obtain ⟨hlen, hstream⟩ := hsound i a d hfd rfl (Nat.le_of_not_lt haddrlen) hest hroute
  have hi := (h.fds.live hfd).1
  have hto := route_some hroute
  dsimp only
  rw [upd_pool_self]
  split
  · rename_i ht
    have ht : (st.pool i).type = sockStream := ht
    obtain ⟨hdi, hroom, m, hm⟩ := hstream ht
    have hd : (st.pool d).state = .listen := by
      rcases hto.2 with ⟨-, hd⟩ | ⟨hdgram, -⟩
      · exact hd
      · exact absurd (ht.symm.trans hdgram) (by decide)
    split
    · -- There is a slot.
      rename_i hnone
      refine absurd ?_ hm
      have hml := sockAlloc_none hnone m
      have hmi : m ≠ i := fun he => hm (he ▸ hi)
      rwa [upd_pool_of_ne hmi] at hml
    · rename_i st1 p halloc
      obtain ⟨hfree, rfl⟩ := sockAlloc_some halloc
      have hpi : p ≠ i := fun he => by
        rw [he, upd_pool_self] at hfree
        exact hfree nofun
      rw [upd_pool_of_ne hpi] at hfree
      have hpd : p ≠ d := fun he => hfree (by rw [he, Sock.Live, hd]; exact nofun)
      refine .of_inv (inv_joined (p := p) h ⟨rfl, rfl, ?_, ?_, ?_, fun k hki hkd hkp => ?_⟩
        ⟨hi, hdi, hfree, ht, hest, hd, hlen, hroom⟩)
      · simp only [upd_pool_self, upd_pool_of_ne hdi.symm, upd_pool_of_ne hpi.symm]
      · simp only [upd_pool_self, upd_pool_of_ne hdi, upd_pool_of_ne hpd.symm]
      · simp only [upd_pool_self, upd_pool_of_ne hpi, upd_pool_of_ne hpd, upd_pool_of_ne hpi.symm,
          upd_pool_of_ne hpd.symm, upd_pool_of_ne hdi]
      · simp only [upd_pool_of_ne hki, upd_pool_of_ne hkd, upd_pool_of_ne hkp]
  · rename_i ht
    have hit : (st.pool i).type = sockDgram := ((h.peers.kind i hi).2.1).resolve_left ht
    have hdt : (st.pool d).type = sockDgram := by
      rcases hto.2 with ⟨hstream, -⟩ | ⟨-, -, hdt⟩
      · exact absurd hstream ht
      · exact hdt
    refine .of_inv ?_
    have hsame : ((st.upd i fun s => { s with state := .synSent }).upd d fun c => { c with peer := some i }).upd i
        (fun s => { s with peer := some d, state := .established }) =
        (st.upd d fun c => { c with peer := some i }).upd i
          (fun s => { s with peer := some d, state := .established }) := by
      have hpool : ∀ k, (((st.upd i fun s => { s with state := .synSent }).upd d fun c => { c with peer := some i }).upd i
          (fun s => { s with peer := some d, state := .established })).pool k =
          ((st.upd d fun c => { c with peer := some i }).upd i
            (fun s => { s with peer := some d, state := .established })).pool k := fun k => by
        by_cases hki : k = i <;> by_cases hkd : k = d <;> by_cases hdi : d = i <;>
          simp_all [upd_pool]
      exact congrArg (Net.mk · st.fds st.portBusy) (funext hpool)
    exact hsame ▸ inv_paired h hi hit hdt hlen

/-! ## `wubu_accept` -/

/-- The first socket of a queue gets what it waits for. -/
theorem QueuesOk.dequeue (h : QueuesOk st) (hi : (st.pool i).waiting = some c :: (st'.pool i).waiting)
    (hne : ∀ k, k ≠ i → (st'.pool k).waiting = (st.pool k).waiting)
    (hfdless : ∀ k, (st'.pool k).Live ∧ (st'.pool k).fd = none ↔ k ≠ c ∧ (st.pool k).Live ∧ (st.pool k).fd = none)
    (hrow : ∀ l, QueueRow (st'.pool l)) : QueuesOk st' := by
  have hnodup := h.once i
  rw [hi, List.nodup_cons] at hnodup
  have hci : some c ∈ (st.pool i).waiting := by
    rw [hi]
    exact List.mem_cons_self
  have hmem : ∀ l x, x ∈ (st'.pool l).waiting ↔ x ∈ (st.pool l).waiting ∧ x ≠ some c := fun l x => by
    by_cases hl : l = i
    · subst hl
      rw [hi, List.mem_cons]
      constructor
      · exact fun hx => ⟨.inr hx, fun he => hnodup.1 (he ▸ hx)⟩
      · exact fun ⟨hx, hne⟩ => hx.resolve_left hne
    · rw [hne l hl]
      exact ⟨fun hx => ⟨hx, fun he => hl (h.apart l i _ hx (he ▸ hci))⟩, And.left⟩
  refine ⟨fun l hn => h.entries l ((hmem l _).1 hn).1, fun l => ?_,
    fun l l' x hx hx' => h.apart l l' x ((hmem l x).1 hx).1 ((hmem l' x).1 hx').1, fun k => ?_,
    fun l => (hrow l).idle, fun l => (hrow l).head, fun l => (hrow l).backlog⟩
  · by_cases hl : l = i
    · subst hl
      exact hnodup.2
    · rw [hne l hl]
      exact h.once l
  · rw [hfdless, ← h.waits]
    constructor
    · rintro ⟨l, hl⟩
      obtain ⟨hl, hk⟩ := (hmem l _).1 hl
      exact ⟨fun he => hk (congrArg some he), l, hl⟩
    · rintro ⟨hk, l, hl⟩
      exact ⟨l, (hmem l _).2 ⟨hl, fun he => hk (Option.some.inj he)⟩⟩

theorem waiting_dequeue (h0 : s.acceptLen ≠ 0) (hcap : s.acceptLen ≤ backlogMax) (hhead : s.acceptHead < backlogMax) :
    s.waiting = (acceptDequeue s).2 :: (acceptDequeue s).1.waiting := by
  obtain ⟨n, hn⟩ := Nat.exists_eq_succ_of_ne_zero h0
  rw [acceptDequeue, if_neg h0]
  have hrest : Fifo.window backlogMax (fun a => if a = s.acceptHead then none else s.acceptQ a)
      ((s.acceptHead + 1) % backlogMax) n = Fifo.window backlogMax s.acceptQ (s.acceptHead + 1) n := by
    rw [Fifo.window_congr (Nat.mod_mod _ _)]
    refine List.map_congr_left fun k hk => if_neg fun he => ?_
    have hk := List.mem_range.1 hk
    have hmod := Fifo.mod_ne_mod (N := backlogMax) (r := s.acceptHead) (w := s.acceptHead + 1 + k) (by omega) (by omega)
    rw [Nat.mod_eq_of_lt hhead] at hmod
    exact hmod he.symm
  have hfirst : Fifo.window backlogMax s.acceptQ s.acceptHead 1 = [s.acceptQ s.acceptHead] := by
    simp [Fifo.window, Nat.mod_eq_of_lt hhead]
  show Fifo.window _ _ _ s.acceptLen = _ :: Fifo.window _ _ _ (s.acceptLen - 1)
  rw [hn, Nat.succ_sub_one, hrest, Nat.succ_eq_add_one, Nat.add_comm n 1, Fifo.window_add, hfirst]
  rfl

/-- The listener, but for its queue. -/
theorem dequeue_row (s : Sock) : (acceptDequeue s).1.state = s.state ∧ (acceptDequeue s).1.fd = s.fd ∧
    (acceptDequeue s).1.domain = s.domain ∧ (acceptDequeue s).1.type = s.type ∧
    (acceptDequeue s).1.peer = s.peer ∧ (acceptDequeue s).1.localAddr = s.localAddr ∧
    (acceptDequeue s).1.backlog = s.backlog ∧ (acceptDequeue s).1.acceptLen = s.acceptLen - 1 := by
  rw [acceptDequeue]
  split
  · rename_i h0
    have hlen : s.acceptLen = s.acceptLen - 1 := by omega
    exact ⟨rfl, rfl, rfl, rfl, rfl, rfl, rfl, hlen⟩
  · exact ⟨rfl, rfl, rfl, rfl, rfl, rfl, rfl, rfl⟩

theorem head_dequeue (h : s.acceptHead < backlogMax) : (acceptDequeue s).1.acceptHead < backlogMax := by
  rw [acceptDequeue]
  split
  · exact h
  · exact Nat.mod_lt _ (Nat.zero_lt_succ _)

/-- What an acceptance changes: `c` has left the queue of `i`, and has the descriptor `f`. -/
structure Accepted (st st' : Net) (i c : Slot) (f : Fd) : Prop where
  fds : st'.fds = fun f' => if f' = f then some c else st.fds f'
  busy : st'.portBusy = st.portBusy
  self : st'.pool i = (acceptDequeue (st.pool i)).1
  got : st'.pool c = { st.pool c with fd := some f }
  other : ∀ k, k ≠ i → k ≠ c → st'.pool k = st.pool k

/-- What there is to accept: `c` is the first in the queue of `i`, and `f` is free. -/
structure Accepts (st : Net) (i c : Slot) (f : Fd) : Prop where
  listens : (st.pool i).state = .listen
  len : (st.pool i).acceptLen ≠ 0
  first : (acceptDequeue (st.pool i)).2 = some c
  free : st.fds f = none
  ne : c ≠ i
  live : (st.pool c).Live
  fdless : (st.pool c).fd = none

/-- The three kinds of slots. -/
theorem Accepted.slot (ha : Accepted st st' i c f) (k : Slot) : k = i ∨ k = c ∨ st'.pool k = st.pool k := by
  by_cases hki : k = i
  · exact .inl hki
  by_cases hkc : k = c
  · exact .inr (.inl hkc)
  · exact .inr (.inr (ha.other k hki hkc))

/-- All but the descriptor of `c` and the queue of `i` is as it was. -/
theorem Accepted.row (ha : Accepted st st' i c f) (k : Slot) : (st'.pool k).state = (st.pool k).state ∧
    (st'.pool k).domain = (st.pool k).domain ∧ (st'.pool k).type = (st.pool k).type ∧
    (st'.pool k).peer = (st.pool k).peer ∧ (st'.pool k).localAddr = (st.pool k).localAddr := by
  rcases ha.slot k with rfl | rfl | hk
  · obtain ⟨hs, -, hdom, ht, hp, haddr, -⟩ := dequeue_row (st.pool k)
    rw [ha.self]
    exact ⟨hs, hdom, ht, hp, haddr⟩
  · rw [ha.got]
    exact ⟨rfl, rfl, rfl, rfl, rfl⟩
  · rw [hk]
    exact ⟨rfl, rfl, rfl, rfl, rfl⟩

theorem Accepted.live_iff (ha : Accepted st st' i c f) (k : Slot) : (st'.pool k).Live ↔ (st.pool k).Live := by
  rw [Sock.Live, (ha.row k).1, Sock.Live]

theorem Accepted.fd_eq (ha : Accepted st st' i c f) {k : Slot} (hkc : k ≠ c) : (st'.pool k).fd = (st.pool k).fd := by
  rcases ha.slot k with rfl | rfl | hk
  · rw [ha.self]
    exact (dequeue_row _).2.1
  · exact absurd rfl hkc
  · rw [hk]

theorem fdsOk_accepted (h : FdsOk st) (ha : Accepted st st' i c f) (hs : Accepts st i c f) : FdsOk st' := by
  refine h.assign hs.free ha.fds (fun _ ⟨_, he⟩ => ?_) ((ha.live_iff c).2 hs.live) (by rw [ha.got]) fun k hk _ => ?_
  · rw [hs.fdless] at he
    cases he
  · rw [ha.live_iff, ha.fd_eq hk]

theorem queuesOk_accepted (h : QueuesOk st) (ha : Accepted st st' i c f) (hs : Accepts st i c f) : QueuesOk st' := by
  have hback := h.backlog i hs.listens
  have hwait := waiting_dequeue hs.len (by omega) (h.head i)
  have hhead := head_dequeue (h.head i)
  obtain ⟨hstate, -, -, -, -, -, hb, hlen⟩ := dequeue_row (st.pool i)
  rw [hs.first] at hwait
  rw [← ha.self] at hstate hb hlen hwait hhead
  refine h.dequeue hwait (fun k hki => ?_) (fun k => ?_) fun l => ?_
  · rcases ha.slot k with rfl | rfl | hk
    · exact absurd rfl hki
    · rw [ha.got]
      rfl
    · rw [hk]
  · rw [ha.live_iff]
    by_cases hkc : k = c
    · subst hkc
      have hgot : (st'.pool k).fd = some f := by rw [ha.got]
      rw [hgot]
      exact ⟨fun ⟨_, hn⟩ => absurd hn nofun, fun ⟨hn, _⟩ => absurd rfl hn⟩
    · rw [ha.fd_eq hkc]
      exact ⟨fun hk => ⟨hkc, hk⟩, And.right⟩
  · rcases ha.slot l with rfl | rfl | hk
    · refine ⟨fun hne => absurd (hstate.trans hs.listens) hne, hhead, fun _ => ?_⟩
      rw [hlen, hb]
      omega
    · rw [ha.got]
      exact ⟨h.idle l, h.head l, h.backlog l⟩
    · rw [hk]
      exact h.row l

theorem inv_accepted (h : Inv st) (ha : Accepted st st' i c f) (hs : Accepts st i c f) : Inv st' := by
  refine ⟨fdsOk_accepted h.fds ha hs, h.peers.congr fun k => ?_, h.ports.congr ha.busy (fun k q => ?_) fun k hk hfam => ?_,
    queuesOk_accepted h.queues ha hs⟩
  · obtain ⟨hstate, hdom, ht, hp, -⟩ := ha.row k
    exact ⟨ha.live_iff k, hdom, ht, fun hl => hstate ▸ (h.peers.kind k hl).2.2, fun _ _ => hp, fun he => hstate.trans he⟩
  · rw [ha.live_iff, Sock.BoundTo, (ha.row k).2.2.2.2, Sock.BoundTo]
  · rw [(ha.row k).2.2.2.2] at hfam ⊢
    rw [(ha.row k).1]
    exact h.ports.addr k ((ha.live_iff k).1 hk) hfam

/-- A socket that becomes what it is. -/
theorem upd_same (st : Net) (i : Slot) : (st.upd i fun _ => st.pool i) = st := by
  have hpool : ∀ k, (st.upd i fun _ => st.pool i).pool k = st.pool k := fun k => by
    by_cases hki : k = i
    · subst hki
      exact upd_pool_self ..
    · exact upd_pool_of_ne hki ..
  exact congrArg (Net.mk · st.fds st.portBusy) (funext hpool)

theorem keeps_accept (h : Inv st) (fd : Int) : Keeps st ((wubuAccept st fd).1, (wubuAccept st fd).2.1) := by
  unfold wubuAccept
  split
  · exact h.keeps_self _
  rename_i i hfd
  split
  · exact h.keeps_self _
  rename_i hstate
  have hi := not_not.1 hstate
  obtain ⟨hil, f0, -, hif⟩ := h.fds.live hfd
  dsimp only
  by_cases h0 : (st.pool i).acceptLen = 0
  · have hnone : acceptDequeue (st.pool i) = (st.pool i, none) := if_pos h0
    rw [hnone]
    rw [upd_same]
    exact h.keeps_self _
  · have hback := h.queues.backlog i hi
    have hwait := waiting_dequeue h0 (by omega) (h.queues.head i)
    have hmem : (acceptDequeue (st.pool i)).2 ∈ (st.pool i).waiting := by
      rw [hwait]
      exact List.mem_cons_self
    split
    · -- There are no gaps in the queue.
      rename_i hc
      exact absurd (hc ▸ hmem) (h.queues.entries i)
    rename_i c hc
    obtain ⟨hcl, hcf⟩ := (h.queues.waits c).1 ⟨i, hc ▸ hmem⟩
    have hci : c ≠ i := fun he => by
      rw [he, hif] at hcf
      cases hcf
    split
    · rename_i hnone
      exact absurd hcf (h.fds.full hnone rfl c).2
    · rename_i st2 f hsome
      obtain ⟨hf, rfl⟩ := fdAlloc_some hsome
      refine ⟨inv_accepted h ⟨rfl, rfl, ?_, ?_, fun k hki hkc => ?_⟩ ⟨hi, h0, hc, hf, hci, hcl, hcf⟩,
        fun hr => absurd hr (by simp)⟩
      · simp only [upd_pool_self, upd_pool_of_ne hci.symm]
      · simp only [upd_pool_self, upd_pool_of_ne hci]
      · simp only [upd_pool_of_ne hki, upd_pool_of_ne hkc]

/-! ## `wubu_shutdown` and `wubu_close` -/

theorem detachPeer_pool (st : Net) (i k : Slot) : (detachPeer st i).pool k =
    if (st.pool i).peer = some k then { st.pool k with peer := none } else st.pool k := by
  unfold detachPeer
  split
  · rename_i hn
    rw [hn, if_neg nofun]
  · rename_i j hj
    rw [hj]
    by_cases hkj : k = j
    · subst hkj
      rw [upd_pool_self]
      exact (if_pos rfl).symm
    · rw [upd_pool_of_ne hkj]
      exact (if_neg fun he => hkj (Option.some.inj he).symm).symm

theorem detachPeer_tables (st : Net) (i : Slot) :
    (detachPeer st i).fds = st.fds ∧ (detachPeer st i).portBusy = st.portBusy := by
  unfold detachPeer
  split <;> exact ⟨rfl, rfl⟩

/-- A datagram socket leaves its peer, which may be a stream socket without one. -/
theorem inv_detached (h : Inv st) (ht : (st.pool i).type ≠ sockStream) (hun : Unlinked st i) :
    Inv (detachPeer st i) := by
  unfold detachPeer
  split
  · exact h
  rename_i j hj
  obtain ⟨hl, hdom, hty, hs, -, he⟩ := h.peers.refl j
  obtain ⟨hw, hf, hidle, hh, hb⟩ := h.queues.refl j
  refine inv_upd h rfl ⟨hl, hdom, hty, hs, fun hjl hjt => ?_, he⟩ rfl id ⟨hw, hf, hidle, hh, hb⟩
  cases hk : (st.pool j).peer with
  | none => rfl
  | some k =>
    obtain rfl := hun j k hj hjl hjt hk
    exact absurd (h.peers.peer j _ hjl hjt hk).2.1 ht

theorem keeps_shutdown (h : Inv st) {fd how : Int} (hsound : Sound st (.shutdown fd how)) :
    Keeps st (wubuShutdown st fd how) := by
  unfold wubuShutdown
  split
  · exact h.keeps_self _
  rename_i i hfd
  split
  · exact h.keeps_self _
  rename_i hbound
  -- The ring is emptied or not.
  have hring : Inv (if how = shutRd ∨ how = shutRdwr then st.upd i fun s => { s with rp := 0, wp := 0 } else st) ∧
      ∀ k, ∃ rp wp, (if how = shutRd ∨ how = shutRdwr then st.upd i fun s => { s with rp := 0, wp := 0 }
        else st).pool k = { st.pool k with rp := rp, wp := wp } := by
    split
    · refine ⟨inv_options h i (·.reuseaddr) (·.reuseport) (fun _ => 0) (fun _ => 0), fun k => ?_⟩
      by_cases hki : k = i
      · subst hki
        exact ⟨0, 0, upd_pool_self ..⟩
      · exact ⟨_, _, upd_pool_of_ne hki ..⟩
    · exact ⟨h, fun k => ⟨_, _, rfl⟩⟩
  generalize (if how = shutRd ∨ how = shutRdwr then st.upd i fun s => { s with rp := 0, wp := 0 } else st) = st1
    at hring
  obtain ⟨h1, hrow⟩ := hring
  split
  · rename_i hhow
    obtain ⟨ht, hun⟩ := hsound hhow i hfd (Nat.le_of_not_lt hbound)
    have hty : (st1.pool i).type ≠ sockStream := by
      obtain ⟨_, _, hk⟩ := hrow i
      rw [hk]
      exact ht
    have hun1 : Unlinked st1 i := fun j k hj hl hjt hk => by
      obtain ⟨_, _, hi⟩ := hrow i
      obtain ⟨_, _, hj'⟩ := hrow j
      rw [hi] at hj
      rw [hj'] at hl hjt hk
      exact hun j k hj hl hjt hk
    have h2 := inv_detached h1 hty hun1
    have hty2 : ((detachPeer st1 i).pool i).type ≠ sockStream := by
      rw [detachPeer_pool]
      split <;> exact hty
    obtain ⟨hl, hdom, hty', hs, -, he⟩ := h2.peers.refl i
    obtain ⟨hw, hf, hidle, hh, hb⟩ := h2.queues.refl i
    have hsame : (if ((detachPeer st1 i).pool i).type = sockStream then SkState.free
        else ((detachPeer st1 i).pool i).state) = ((detachPeer st1 i).pool i).state := if_neg hty2
    refine .of_inv (inv_upd h2 rfl ⟨?_, hdom, hty', fun hl => ?_, fun _ hst => absurd hst hty2, fun hest => ?_⟩ rfl
      (fun hle => ?_) ⟨hw, ?_, fun hne => hidle ?_, hh, fun hli => hb ?_⟩)
    · simp only [Sock.Live, hsame]
    · simp only [hsame]
      exact hs hl
    · simp only [hsame]
      exact hest
    · simp only [hsame]
      exact hle
    · simp only [Sock.Live, hsame]
    · simpa only [hsame] using hne
    · simpa only [hsame] using hli
  · exact .of_inv h1

/-- What closing a socket changes: its descriptor `f` is free, its port may be, and its peer has none. -/
structure Closed (st st' : Net) (i : Slot) (f : Fd) : Prop where
  fds : st'.fds = fun f' => if f' = f then none else st.fds f'
  bit : ∀ q, portTest st' q = true ↔
    portTest st q = true ∧ ¬(holdsPort (st.pool i) = true ∧ q = (st.pool i).localAddr.saPort.toNat)
  self : (st'.pool i).state = .free ∧ (st'.pool i).acceptLen = 0 ∧ (st'.pool i).acceptHead = (st.pool i).acceptHead
  other : ∀ k, k ≠ i → st'.pool k =
    if (st.pool i).peer = some k then { st.pool k with peer := none } else st.pool k

theorem holdsPort_iff (h : PortsOk st) (hl : (st.pool i).Live) :
    holdsPort (st.pool i) = true ↔ (st.pool i).localAddr.saFamily ≠ 0 := by
  rw [holdsPort, decide_eq_true_iff]
  exact ⟨And.left, fun hfam => ⟨hfam, h.addr i hl hfam⟩⟩

/-- When a socket can be closed: nobody waits in its queue, its port is its own, and it is no one's peer that has
another. -/
structure Closes (st : Net) (i : Slot) (f : Fd) : Prop where
  live : (st.pool i).Live
  fd : (st.pool i).fd = some f
  len : (st.pool i).state = .listen → (st.pool i).acceptLen = 0
  port : ∀ k q, k ≠ i → (st.pool i).BoundTo q → (st.pool k).Live → ¬(st.pool k).BoundTo q
  unlinked : Unlinked st i

theorem Closed.dead (hc : Closed st st' i f) : ¬(st'.pool i).Live := not_not.2 hc.self.1

/-- All but the peer of another socket is as it was. -/
theorem Closed.row (hc : Closed st st' i f) {k : Slot} (hki : k ≠ i) : ∃ q, st'.pool k = { st.pool k with peer := q } ∧
    (q = (st.pool k).peer ∨ (st.pool i).peer = some k ∧ q = none) := by
  rw [hc.other k hki]
  split
  · rename_i hp
    exact ⟨none, rfl, .inr ⟨hp, rfl⟩⟩
  · exact ⟨(st.pool k).peer, rfl, .inl rfl⟩

theorem fdsOk_closed (h : FdsOk st) (hc : Closed st st' i f) (hs : Closes st i f) : FdsOk st' := by
  intro f' k
  rw [hc.fds]
  show (if f' = f then none else st.fds f') = some k ↔ _
  by_cases hki : k = i
  · subst hki
    refine ⟨fun he => ?_, fun ⟨hk, _⟩ => absurd hk hc.dead⟩
    split at he
    · cases he
    · rename_i hf'
      exact absurd (Option.some.inj (hs.fd.symm.trans ((h f' k).1 he).2)).symm hf'
  · obtain ⟨q, hk, -⟩ := hc.row hki
    rw [hk]
    by_cases hf' : f' = f
    · subst hf'
      rw [if_pos rfl]
      refine ⟨nofun, fun hown => absurd ?_ hki⟩
      exact Option.some.inj (((h _ k).2 hown).symm.trans ((h _ i).2 ⟨hs.live, hs.fd⟩))
    · rw [if_neg hf']
      exact h f' k

theorem peersOk_closed (h : PeersOk st) (hc : Closed st st' i f) (hs : Closes st i f) : PeersOk st' := by
  refine ⟨fun k hk => ?_, fun k j hk ht hj => ?_⟩
  · have hki : k ≠ i := fun he => hc.dead (he ▸ hk)
    obtain ⟨q, hk', -⟩ := hc.row hki
    rw [hk'] at hk ⊢
    exact h.kind k hk
  · have hki : k ≠ i := fun he => hc.dead (he ▸ hk)
    obtain ⟨q, hk', hq⟩ := hc.row hki
    rw [hk'] at hk ht hj ⊢
    have hqj : q = some j := hj
    have hpk : (st.pool k).peer = some j := by
      rcases hq with hq | ⟨-, hq⟩
      · exact hq.symm.trans hqj
      · rw [hq] at hqj
        cases hqj
    obtain ⟨hjl, hjt, hjp, hest⟩ := h.peer k j hk ht hpk
    have hji : j ≠ i := fun he => by
      -- The peer of the one that is closed has none any more.
      rw [he] at hjp
      have := hc.other k hki
      rw [if_pos hjp, hk'] at this
      have hn : q = none := congrArg Sock.peer this
      rw [hn] at hqj
      cases hqj
    obtain ⟨q', hj', hq'⟩ := hc.row hji
    rw [hj']
    refine ⟨hjl, hjt, ?_, hest⟩
    rcases hq' with hq' | ⟨hij, -⟩
    · exact hq'.trans hjp
    · exact absurd (hs.unlinked j k hij hjl hjt hjp) hki

theorem portsOk_closed (h : PortsOk st) (hc : Closed st st' i f) (hs : Closes st i f) : PortsOk st' := by
  refine ⟨fun q => ?_, fun k hk hfam => ?_⟩
  · rw [hc.bit, h.bit]
    constructor
    · rintro ⟨⟨k, hk, hb⟩, hnot⟩
      have hki : k ≠ i := fun he => by
        subst he
        exact hnot ⟨(holdsPort_iff h hs.live).2 hb.1, hb.2.symm⟩
      obtain ⟨_, hk', -⟩ := hc.row hki
      exact ⟨k, by rw [hk']; exact ⟨hk, hb⟩⟩
    · rintro ⟨k, hk, hb⟩
      have hki : k ≠ i := fun he => hc.dead (he ▸ hk)
      obtain ⟨_, hk', -⟩ := hc.row hki
      rw [hk'] at hk hb
      refine ⟨⟨k, hk, hb⟩, fun ⟨hholds, hq⟩ => ?_⟩
      exact hs.port k q hki ⟨(holdsPort_iff h hs.live).1 hholds, hq.symm⟩ hk hb
  · have hki : k ≠ i := fun he => hc.dead (he ▸ hk)
    obtain ⟨_, hk', -⟩ := hc.row hki
    rw [hk'] at hk hfam ⊢
    exact h.addr k hk hfam

theorem queuesOk_closed (h : QueuesOk st) (hc : Closed st st' i f) (hs : Closes st i f) : QueuesOk st' := by
  refine h.congr fun k => ?_
  by_cases hki : k = i
  · subst hki
    refine ⟨by rw [waiting_nil hc.self.2.1, waiting_nil (h.len_zero hs.len)], ?_, fun _ => hc.self.2.1, ?_,
      fun hli => absurd (hc.self.1.symm.trans hli) nofun⟩
    · rw [hs.fd]
      exact ⟨fun ⟨hk, _⟩ => absurd hk hc.dead, fun ⟨_, hn⟩ => absurd hn nofun⟩
    · rw [hc.self.2.2]
      exact h.head k
  · obtain ⟨_, hk', -⟩ := hc.row hki
    obtain ⟨hw, hfl, hidle, hh, hb⟩ := h.refl k
    rw [hk']
    exact ⟨hw, hfl, hidle, hh, hb⟩

theorem inv_closed (h : Inv st) (hc : Closed st st' i f) (hs : Closes st i f) : Inv st' :=
  ⟨fdsOk_closed h.fds hc hs, peersOk_closed h.peers hc hs, portsOk_closed h.ports hc hs, queuesOk_closed h.queues hc hs⟩

/-- What `sock_free` does to a socket with a descriptor. -/
theorem sockFree_eq (hf : (st.pool i).fd = some f) : sockFree st i =
    { st.upd i (fun s => { s with fd := none, state := .free, peer := none, acceptLen := 0 }) with
      fds := fun f' => if f' = f then none else st.fds f'
      portBusy := if holdsPort (st.pool i) then
        Bitmap.clear st.portBusy (st.pool i).localAddr.saPort.toNat else st.portBusy } := by
  unfold sockFree
  rw [hf]
  dsimp only
  split <;> rfl

theorem keeps_close (h : Inv st) {fd : Int} (hsound : Sound st (.close fd)) : Keeps st (wubuClose st fd) := by
  unfold wubuClose
  split
  · exact h.keeps_self _
  rename_i i hfd
  obtain ⟨hlen, hport, hun⟩ := hsound i hfd
  obtain ⟨hl, f, -, hf⟩ := h.fds.live hfd
  obtain ⟨hfds, hbusy⟩ := detachPeer_tables st i
  -- The socket itself keeps all but its peer.
  have hself : ∃ q, (detachPeer st i).pool i = { st.pool i with peer := q } := by
    rw [detachPeer_pool]
    split
    · exact ⟨none, rfl⟩
    · exact ⟨(st.pool i).peer, rfl⟩
  obtain ⟨q, hself⟩ := hself
  have hf1 : ((detachPeer st i).pool i).fd = some f := by rw [hself]; exact hf
  have hholds : holdsPort ((detachPeer st i).pool i) = holdsPort (st.pool i) := by rw [hself]; rfl
  have haddr : ((detachPeer st i).pool i).localAddr = (st.pool i).localAddr := by rw [hself]
  have hhead : ((detachPeer st i).pool i).acceptHead = (st.pool i).acceptHead := by rw [hself]
  rw [sockFree_eq hf1, hfds, hbusy, hholds, haddr]
  refine .of_inv (inv_closed h ⟨rfl, fun p => ?_, ?_, fun k hki => ?_⟩ ⟨hl, hf, hlen, hport, hun⟩)
  · show Bitmap.test (if holdsPort (st.pool i) = true then
      Bitmap.clear st.portBusy (st.pool i).localAddr.saPort.toNat else st.portBusy) p = true ↔ _
    split
    · rename_i hh
      rw [Bitmap.test_clear, Bool.and_eq_true, decide_eq_true_iff, and_comm]
      simp [hh, portTest]
    · rename_i hh
      simp [hh, portTest]
  · dsimp only
    rw [upd_pool_self]
    exact ⟨rfl, rfl, hhead⟩
  · dsimp only
    rw [upd_pool_of_ne hki]
    exact detachPeer_pool st i k

/-! ## Runs -/

theorem inv_init : Inv Net.init := by
  have hfree : ∀ i, ¬(Net.init.pool i).Live := fun i => not_not.2 rfl
  refine ⟨fun f i => ⟨nofun, fun ⟨hl, _⟩ => absurd hl (hfree i)⟩,
    ⟨fun i hl => absurd hl (hfree i), fun i j hl => absurd hl (hfree i)⟩,
    ⟨fun p => ⟨fun ht => ?_, fun ⟨i, hl, _⟩ => absurd hl (hfree i)⟩, fun i hl => absurd hl (hfree i)⟩,
    ⟨fun l => List.not_mem_nil, fun l => List.nodup_nil, fun l l' x hx => absurd hx List.not_mem_nil,
      fun c => ⟨fun ⟨l, hl⟩ => absurd hl List.not_mem_nil, fun ⟨hl, _⟩ => absurd hl (hfree c)⟩, fun l _ => rfl,
      fun l => Nat.zero_lt_succ _, fun l hl => absurd hl nofun⟩⟩
  simp [portTest, Net.init, Bitmap.test] at ht

/-- **Every sound call keeps the invariant, and changes nothing if it fails.** -/
theorem keeps_exec (h : Inv st) (call : Call) (hsound : Sound st call) : Keeps st (call.exec st) := by
  cases call with
  | socket domain type protocol => exact keeps_socket h domain type protocol
  | bind fd addr addrlen => exact keeps_bind h fd addr addrlen
  | listen fd backlog => exact keeps_listen h fd backlog
  | connect fd addr addrlen => exact keeps_connect h hsound
  | accept fd => exact keeps_accept h fd
  | setsockopt fd level optname optval optlen => exact keeps_setsockopt h fd level optname optval optlen
  | shutdown fd how => exact keeps_shutdown h hsound
  | close fd => exact keeps_close h hsound

/-- The state after a call. -/
def Call.next (st : Net) (call : Call) : Net := (call.exec st).1

theorem inv_run {calls : List Call} (hs : Runs.Each Call.next Sound Net.init calls) :
    Inv (calls.foldl Call.next Net.init) :=
  Runs.Each.invariant Inv (fun _ call h hs => (keeps_exec h call hs).1) _ calls inv_init hs

/-- **The tables agree after every run of sound calls, and a sound call that fails has changed
nothing.** -/
theorem table_invariant (calls : List Call) (hs : Runs.Each Call.next Sound Net.init calls) :
    TableInv (calls.foldl Call.next Net.init) ∧
      ∀ call, Sound (calls.foldl Call.next Net.init) call → Kept (calls.foldl Call.next Net.init)
        (call.exec (calls.foldl Call.next Net.init)) :=
  ⟨(inv_run hs).table, fun call hc => (keeps_exec (inv_run hs) call hc).kept⟩

/-- A listener at port 9001. -/
def listener : List Call :=
  [.socket afInet sockStream 0, .bind 0 (some ⟨1, 9001, .replicate 16 0⟩) sockaddrSize, .listen 0 1]

/-- A socket connects to it, and is accepted. -/
def accepted : List Call :=
  listener ++ [.socket afInet sockStream 0, .connect 1 (some ⟨1, 9001, .replicate 16 0⟩) sockaddrSize, .accept 0]

theorem table_invariant_sample : TableInv (accepted.foldl Call.next Net.init) := by
  refine (table_invariant accepted
    (show Runs.Each Call.next Sound Net.init accepted from ⟨trivial, trivial, trivial, trivial, ?_, trivial, trivial⟩)).1
  intro i a d hi ha _ _ hd
  obtain rfl : i = 1 := (Option.some.inj (hi.symm.trans (by decide)))
  cases ha
  obtain rfl : d = 0 := (Option.some.inj (hd.symm.trans (by decide)))
  refine ⟨fun hl => absurd hl (by decide), fun _ => ⟨by decide, by decide, 2, ?_⟩⟩
  exact not_not.2 (by decide)

/-- **A listener that is shut down**: its slot is free, and descriptor 0 still names it. -/
theorem table_comes_apart : ¬∀ calls : List Call, TableInv (calls.foldl Call.next Net.init) ∧
    ∀ call : Call, Kept (calls.foldl Call.next Net.init) (call.exec (calls.foldl Call.next Net.init)) := fun h =>
  ((h (listener ++ [Call.shutdown 0 shutRdwr])).1.fds 0 0 (by decide)).1 (by decide)

end WuBuOS.Socket
