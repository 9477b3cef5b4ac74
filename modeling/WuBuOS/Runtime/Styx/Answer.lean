import WuBuOS.Runtime.Styx.Serve

/-!
# What an arm of `styx_serve` comes to

A message is answered with an error, or with the message whose number is one more, and `Accepts` says when
that is, and what is in it.  An arm calls one function of the file system at most, with what it has read from
the message (`Asks`), and what it then does to the server itself is little (`Settled`).  Every arm is gone
through once for both (`Serves`), but for a walk, which may take a slot before it calls anything
(`serveWalk_srv`).

## Main results

* `serveType_reply`: every reply is an error, or the answer to the message.
* `serveType_srv`: a message other than a walk makes the call that it asks for, and settles the server.
* `serveWalk_srv`: a walk takes a slot and makes its call, or does what its function does.
* `styxServe_reply`: the same of what the server receives.
-/

namespace WuBuOS.Styx

open Bytes

variable {msg : String} {type : TType}

universe u

variable {W : Type u} {cb : Callbacks W} {srv : Server W} {buf : Buf} {size tag : Nat} {served : Served W}

/-! ## The shape of a reply -/

/-- The reply is an error with a text that the server knows. -/
def Errs (tag : Nat) (reply : List UInt8) : Prop := ∃ msg : CStr, msg.length ≤ 32 ∧ reply = styxError tag msg

/-- **When a message is answered with what its sender hopes for**, and what is in the answer. -/
def Accepts (cb : Callbacks W) (srv : Server W) (buf : Buf) (size : Nat) (body : List UInt8) :
    TType → Prop
  | .tversion => ∃ msize, body = le 4 msize ++ putstr (text "9P2000")
  | .tauth => ∃ aqid : Qid, body = aqid.bytes
  | .tattach => ∃ qid : Qid, body = qid.bytes
  | .tflush => body = []
  | .twalk => (fidLookup srv (get buf 7 4)).isSome ∧
      ((get buf 15 2 = 0 ∧ ∃ qid : Qid, body = le 2 1 ++ qid.bytes) ∨
        (get buf 15 2 ≠ 0 ∧ ∃ walk wname, cb.walk = some walk ∧
          walkNames buf size 17 (min (get buf 15 2) 16) = some wname ∧
          ∃ ok qids srv', walk (get buf 7 4) (get buf 11 4) wname srv = ((ok, qids), srv') ∧
            (ok = true ∨ qids ≠ []) ∧ body = le 2 qids.length ++ qids.flatMap Qid.bytes))
  | .topen => (fidLookup srv (get buf 7 4)).isSome ∧
      (∀ op, cb.open = some op → (op (get buf 7 4) (get buf 11 1) srv).1.isOk = true) ∧
      ∃ qid : Qid, body = qid.bytes ++ le 4 maxData
  | .tcreate => ∃ create name p, cb.create = some create ∧
      getstr buf 11 maxFname (size - 11) = some (name, p) ∧
      ∃ qid srv', create (get buf 7 4) name (get buf p 4) (get buf (p + 4) 1) srv = (.ok qid, srv') ∧
        body = qid.bytes ++ le 4 0
  | .tread => (fidLookup srv (get buf 7 4)).isSome ∧
      ((cb.read = none ∧ body = le 4 0) ∨ ∃ read nread data srv', cb.read = some read ∧
        read (get buf 7 4) (get buf 11 8) (min (get buf 19 4) (readCap srv)) srv =
          (.ok (nread, data), srv') ∧
        body = le 4 (min nread maxData) ++ slice data 0 (min nread maxData))
  | .twrite => (fidLookup srv (get buf 7 4)).isSome ∧ ∃ write nwritten srv', cb.write = some write ∧
      write (get buf 7 4) (get buf 11 8) (min (get buf 19 4) maxWrite)
        ((slice buf 23 (get buf 19 4)).take (min (get buf 19 4) maxWrite)) srv = (.ok nwritten, srv') ∧
      body = le 4 nwritten
  | .tclunk => (fidLookup srv (get buf 7 4)).isSome ∧ body = []
  | .tremove => body = []
  | .tstat => ∃ i, fidLookup srv (get buf 7 4) = some i ∧ ∃ dir : Dir,
      body = le 2 dir.bytes.length ++ dir.bytes ∧
      ((cb.stat = none ∧ dir = defaultDir (srv.fids i).qid) ∨
        ∃ stat srv', cb.stat = some stat ∧ stat (get buf 7 4) srv = (some dir, srv'))
  | .twstat => body = [] ∧ ∃ wstat dir srv', cb.wstat = some wstat ∧ wstatDir buf size = some dir ∧
      wstat (get buf 7 4) dir srv = (.ok (), srv')

/-! ## Calls -/

/-- What a call does to the server; nothing, if the function is not installed. -/
def Callbacks.effect (cb : Callbacks W) : Invocation → Server W → Server W
  | .clone fid newfid, s => (cb.clone.map fun f => f fid newfid s).getD s
  | .attach fid aname, s => (cb.attach.map fun f => (f fid aname s).2).getD s
  | .walk fid newfid wname, s => (cb.walk.map fun f => (f fid newfid wname s).2).getD s
  | .open fid mode, s => (cb.open.map fun f => (f fid mode s).2).getD s
  | .read fid offset count, s => (cb.read.map fun f => (f fid offset count s).2).getD s
  | .write fid offset count data, s => (cb.write.map fun f => (f fid offset count data s).2).getD s
  | .clunk fid, s => (cb.clunk.map fun f => f fid s).getD s
  | .remove fid, s => (cb.remove.map fun f => f fid s).getD s
  | .stat fid, s => (cb.stat.map fun f => (f fid s).2).getD s
  | .wstat fid dir, s => (cb.wstat.map fun f => (f fid dir s).2).getD s
  | .auth afid uname aname, s => (cb.auth.map fun f => (f afid uname aname s).2).getD s
  | .create fid name perm mode, s => (cb.create.map fun f => (f fid name perm mode s).2).getD s
  | .flush oldtag, s => (cb.flush.map fun f => f oldtag s).getD s

/-- **What a message asks for**: the call that its arm makes. -/
def Asks (srv : Server W) (buf : Buf) (size : Nat) : TType → Invocation → Prop
  | .tversion, _ => False
  | .tauth, c => c = .auth (get buf 7 4) (authNames buf size).1 (authNames buf size).2
  | .tattach, c => c = .attach (get buf 7 4) (stringAt buf 15 maxFname size)
  | .tflush, c => c = .flush (get buf 7 2)
  | .twalk, c => (fidLookup srv (get buf 7 4)).isSome ∧
      ((get buf 15 2 = 0 ∧ c = .clone (get buf 7 4) (get buf 11 4)) ∨
        (get buf 15 2 ≠ 0 ∧ ∃ wname, walkNames buf size 17 (min (get buf 15 2) 16) = some wname ∧
          c = .walk (get buf 7 4) (get buf 11 4) wname))
  | .topen, c => (fidLookup srv (get buf 7 4)).isSome ∧ c = .open (get buf 7 4) (get buf 11 1)
  | .tcreate, c => ∃ name p, getstr buf 11 maxFname (size - 11) = some (name, p) ∧ p + 5 ≤ size ∧
      c = .create (get buf 7 4) name (get buf p 4) (get buf (p + 4) 1)
  | .tread, c => (fidLookup srv (get buf 7 4)).isSome ∧
      c = .read (get buf 7 4) (get buf 11 8) (min (get buf 19 4) (readCap srv))
  | .twrite, c => (fidLookup srv (get buf 7 4)).isSome ∧ 23 + get buf 19 4 ≤ size ∧
      c = .write (get buf 7 4) (get buf 11 8) (min (get buf 19 4) maxWrite)
        ((slice buf 23 (get buf 19 4)).take (min (get buf 19 4) maxWrite))
  | .tclunk, c => (fidLookup srv (get buf 7 4)).isSome ∧ c = .clunk (get buf 7 4)
  | .tremove, c => c = .remove (get buf 7 4)
  | .tstat, c => (fidLookup srv (get buf 7 4)).isSome ∧ c = .stat (get buf 7 4)
  | .twstat, c => ∃ dir, wstatDir buf size = some dir ∧ c = .wstat (get buf 7 4) dir

/-- The call is made, if one is, and the function is installed. -/
def Called (cb : Callbacks W) (srv : Server W) (buf : Buf) (size : Nat) (type : TType) (calls : List Invocation)
    (s : Server W) : Prop :=
  (calls = [] ∧ s = srv) ∨ ∃ c, Asks srv buf size type c ∧ calls = [c] ∧ s = cb.effect c srv

/-- **What an arm does** to the server itself. -/
inductive Settled (cb : Callbacks W) (buf : Buf) : TType → Server W → Server W → Prop
  | same {type : TType} (s : Server W) : Settled cb buf type s s
  | slot {type : TType} (s : Server W) (i openFid openMode offset : Nat) : Settled cb buf type s
      (setFid s i { s.fids i with openFid := openFid, openMode := openMode, offset := offset })
  | session (s : Server W) (msize : Nat) (version : CStr) : Settled cb buf .tversion s
      { s with msize := msize, version := version, connected := true }
  | attach {s s' : Server W} {i : Nat} (hcb : cb.attach = none) (h : fidAlloc s (get buf 7 4) = some (i, s')) :
      Settled cb buf .tattach s (setFid s' i { s'.fids i with qid := ⟨0x80, 1, 1⟩ })
  | clunk (s : Server W) : Settled cb buf .tclunk s (fidFree s (get buf 7 4))
  | remove (s : Server W) : Settled cb buf .tremove s (fidFree s (get buf 7 4))

theorem called_nil : Called cb srv buf size type [] srv := Or.inl ⟨rfl, rfl⟩

/-- A call at most, and what the arm does besides. -/
def Moves (cb : Callbacks W) (srv : Server W) (buf : Buf) (size : Nat) (type : TType) (served : Served W) : Prop :=
  ∃ s, Called cb srv buf size type served.calls s ∧ Settled cb buf type s served.srv

/-! ## The arms -/

theorem errs_refuse (h : msg.length ≤ 32) : Errs tag (refuse srv tag msg).reply := by
  refine ⟨text msg, ?_, rfl⟩
  rw [text, List.length_map]
  exact h

theorem length_errnoEname (e : Nat) : (errnoEname e).length ≤ 32 := by
  unfold errnoEname
  split <;> decide +kernel

theorem errs_failure (e : Nat) (h : msg.length ≤ 32) : Errs tag (styxError tag (failure e msg)) := by
  refine ⟨failure e msg, ?_, rfl⟩
  rw [failure]
  split
  · exact length_errnoEname e
  · rw [text, List.length_map]
    exact h

/-- The reply is an error, or the answer to the message. -/
def Answers (cb : Callbacks W) (srv : Server W) (tag : Nat) (buf : Buf) (size : Nat) (type : TType)
    (served : Served W) : Prop :=
  Errs tag served.reply ∨
    ∃ body, served.reply = message (type.code + 1) tag body ∧ Accepts cb srv buf size body type

/-- **What an arm comes to**: its reply, and what it does to the server. -/
def Serves (cb : Callbacks W) (srv : Server W) (tag : Nat) (buf : Buf) (size : Nat) (type : TType)
    (served : Served W) : Prop :=
  Answers cb srv tag buf size type served ∧ Moves cb srv buf size type served

/-- A refusal calls nothing, and leaves the server as it is. -/
theorem serves_refuse (h : msg.length ≤ 32) : Serves cb srv tag buf size type (refuse srv tag msg) :=
  ⟨.inl (errs_refuse h), srv, called_nil, .same _⟩

/-- A message that is too short is refused. -/
theorem Serves.sized {n : Nat} {s : Served W} (hmsg : msg.length ≤ 32)
    (h : (if size < n then some (refuse srv tag msg) else some s) = some served)
    (hs : Serves cb srv tag buf size type s) : Serves cb srv tag buf size type served := by
  split at h
  · cases h
    exact serves_refuse hmsg
  · cases h
    exact hs

theorem serves_tversion (h : serveType cb srv tag buf size .tversion = some served) :
    Serves cb srv tag buf size .tversion served := by
  refine .sized (by decide) h ?_
  rw [serveVersion]
  split
  · exact serves_refuse (by decide)
  split
  · exact serves_refuse (by decide)
  · exact ⟨Or.inr ⟨_, rfl, _, rfl⟩, srv, called_nil, .session ..⟩

theorem serves_tauth (h : serveType cb srv tag buf size .tauth = some served) :
    Serves cb srv tag buf size .tauth served := by
  refine .sized (by decide) h ?_
  rw [serveAuth]
  split
  · exact serves_refuse (by decide)
  rename_i auth hauth
  split
  · rename_i s hres
    exact ⟨Or.inl ⟨_, by decide, rfl⟩, s, Or.inr ⟨_, rfl, rfl, by simp [Callbacks.effect, hauth, hres]⟩, .same _⟩
  · rename_i aqid s hres
    exact ⟨Or.inr ⟨_, rfl, _, rfl⟩, s, Or.inr ⟨_, rfl, rfl, by simp [Callbacks.effect, hauth, hres]⟩, .same _⟩

theorem serves_tattach (h : serveType cb srv tag buf size .tattach = some served) :
    Serves cb srv tag buf size .tattach served := by
  refine .sized (by decide) h ?_
  rw [serveAttach]
  split
  · rename_i hcb
    split
    · exact serves_refuse (by decide)
    · rename_i i s hres
      exact ⟨Or.inr ⟨_, rfl, _, rfl⟩, srv, called_nil, .attach hcb hres⟩
  rename_i attach hattach
  split
  · rename_i s hres
    exact ⟨Or.inl ⟨_, by decide, rfl⟩, s, Or.inr ⟨_, rfl, rfl, by simp [Callbacks.effect, hattach, hres]⟩, .same _⟩
  · rename_i s hres
    exact ⟨Or.inr ⟨_, rfl, _, rfl⟩, s, Or.inr ⟨_, rfl, rfl, by simp [Callbacks.effect, hattach, hres]⟩, .same _⟩

theorem serves_tflush (h : serveType cb srv tag buf size .tflush = some served) :
    Serves cb srv tag buf size .tflush served := by
  refine .sized (by decide) h ?_
  rw [serveFlush]
  split
  · exact ⟨Or.inr ⟨_, rfl, rfl⟩, srv, called_nil, .same _⟩
  · rename_i flush hflush
    exact ⟨Or.inr ⟨_, rfl, rfl⟩, _, Or.inr ⟨_, rfl, rfl, by simp [Callbacks.effect, hflush]⟩, .same _⟩

theorem serves_topen (h : serveType cb srv tag buf size .topen = some served) :
    Serves cb srv tag buf size .topen served := by
  rw [serveType] at h
  cases h
  rw [serveOpen]
  split
  · exact serves_refuse (by decide)
  rename_i i hi
  have hfid := Option.isSome_of_eq_some hi
  split
  · rename_i hnone
    refine ⟨Or.inr ⟨_, rfl, hfid, fun op hop => ?_, _, rfl⟩, srv, called_nil, .slot ..⟩
    cases hnone.symm.trans hop
  rename_i op hop
  split
  · rename_i e s hres
    exact ⟨Or.inl (errs_failure _ (by decide)), s,
      Or.inr ⟨_, ⟨hfid, rfl⟩, rfl, by simp [Callbacks.effect, hop, hres]⟩, .same _⟩
  · rename_i qid s hres
    refine ⟨Or.inr ⟨_, rfl, hfid, fun op' hop' => ?_, _, rfl⟩, s,
      Or.inr ⟨_, ⟨hfid, rfl⟩, rfl, by simp [Callbacks.effect, hop, hres]⟩, .slot ..⟩
    obtain rfl : op = op' := Option.some.inj (hop.symm.trans hop')
    rw [hres]
    rfl

theorem serves_tcreate (h : serveType cb srv tag buf size .tcreate = some served) :
    Serves cb srv tag buf size .tcreate served := by
  rw [serveType] at h
  split at h
  · cases h
    exact serves_refuse (by decide)
  split at h
  · cases h
  rename_i name p hname
  split at h
  · cases h
    exact serves_refuse (by decide)
  rename_i hroom
  cases h
  rw [serveCreate]
  split
  · exact serves_refuse (by decide)
  rename_i create hcreate
  have hasks : Asks srv buf size .tcreate (.create (get buf 7 4) name (get buf p 4) (get buf (p + 4) 1)) :=
    ⟨name, p, hname, Nat.le_of_not_lt hroom, rfl⟩
  split
  · rename_i e s hres
    exact ⟨Or.inl (errs_failure _ (by decide)), s,
      Or.inr ⟨_, hasks, rfl, by simp [Callbacks.effect, hcreate, hres]⟩, .same _⟩
  · rename_i qid s hres
    exact ⟨Or.inr ⟨_, rfl, create, name, p, hcreate, hname, qid, s, hres, rfl⟩, s,
      Or.inr ⟨_, hasks, rfl, by simp [Callbacks.effect, hcreate, hres]⟩, .same _⟩

theorem serves_tread (h : serveType cb srv tag buf size .tread = some served) :
    Serves cb srv tag buf size .tread served := by
  rw [serveType] at h
  cases h
  rw [serveRead]
  split
  · exact serves_refuse (by decide)
  rename_i i hi
  have hfid := Option.isSome_of_eq_some hi
  dsimp only
  split
  · rename_i hnone
    exact ⟨Or.inr ⟨_, rfl, hfid, Or.inl ⟨hnone, rfl⟩⟩, srv, called_nil, .same _⟩
  rename_i read hread
  split
  · rename_i e s hres
    exact ⟨Or.inl (errs_failure _ (by decide)), s,
      Or.inr ⟨_, ⟨hfid, rfl⟩, rfl, by simp [Callbacks.effect, hread, hres]⟩, .same _⟩
  · rename_i nread data s hres
    refine ⟨Or.inr ⟨_, rfl, hfid, Or.inr ⟨read, nread, data, s, hread, hres, ?_⟩⟩, s,
      Or.inr ⟨_, ⟨hfid, rfl⟩, rfl, by simp [Callbacks.effect, hread, hres]⟩, .slot ..⟩
    rw [Nat.min_eq_left (Nat.le_trans (Nat.min_le_right nread maxData) (by decide))]

theorem serves_twrite (h : serveType cb srv tag buf size .twrite = some served) :
    Serves cb srv tag buf size .twrite served := by
  rw [serveType] at h
  split at h
  · cases h
    exact serves_refuse (by decide)
  rename_i hsize
  cases h
  rw [serveWrite]
  split
  · exact serves_refuse (by decide)
  rename_i i hi
  have hfid := Option.isSome_of_eq_some hi
  dsimp only
  split
  · exact serves_refuse (by decide)
  rename_i write hwrite
  split
  · rename_i e s hres
    exact ⟨Or.inl (errs_failure _ (by decide)), s,
      Or.inr ⟨_, ⟨hfid, by omega, rfl⟩, rfl, by simp [Callbacks.effect, hwrite, hres]⟩, .same _⟩
  · rename_i nwritten s hres
    exact ⟨Or.inr ⟨_, rfl, hfid, write, nwritten, s, hwrite, hres, rfl⟩, s,
      Or.inr ⟨_, ⟨hfid, by omega, rfl⟩, rfl, by simp [Callbacks.effect, hwrite, hres]⟩, .slot ..⟩

theorem serves_tclunk (h : serveType cb srv tag buf size .tclunk = some served) :
    Serves cb srv tag buf size .tclunk served := by
  rw [serveType] at h
  cases h
  rw [serveClunk]
  split
  · exact serves_refuse (by decide)
  rename_i i hi
  have hfid := Option.isSome_of_eq_some hi
  refine ⟨by split <;> exact Or.inr ⟨_, rfl, hfid, rfl⟩, ?_⟩
  split
  · exact ⟨srv, called_nil, .clunk _⟩
  · rename_i clunk hclunk
    exact ⟨_, Or.inr ⟨_, ⟨hfid, rfl⟩, rfl, by simp [Callbacks.effect, hclunk]⟩, .clunk _⟩

theorem serves_tremove (h : serveType cb srv tag buf size .tremove = some served) :
    Serves cb srv tag buf size .tremove served := by
  rw [serveType] at h
  cases h
  rw [serveRemove]
  refine ⟨by split <;> exact Or.inr ⟨_, rfl, rfl⟩, ?_⟩
  split
  · exact ⟨srv, called_nil, .remove _⟩
  · rename_i remove hremove
    exact ⟨_, Or.inr ⟨_, rfl, rfl, by simp [Callbacks.effect, hremove]⟩, .remove _⟩

theorem serves_tstat (h : serveType cb srv tag buf size .tstat = some served) :
    Serves cb srv tag buf size .tstat served := by
  rw [serveType] at h
  cases h
  rw [serveStat]
  split
  · exact serves_refuse (by decide)
  rename_i i hi
  have hfid := Option.isSome_of_eq_some hi
  split
  · rename_i hnone
    exact ⟨Or.inr ⟨_, rfl, i, hi, _, rfl, Or.inl ⟨hnone, rfl⟩⟩, srv, called_nil, .same _⟩
  rename_i stat hstat
  split
  · rename_i s hres
    exact ⟨Or.inl ⟨_, by decide, rfl⟩, s,
      Or.inr ⟨_, ⟨hfid, rfl⟩, rfl, by simp [Callbacks.effect, hstat, hres]⟩, .same _⟩
  · rename_i dir s hres
    exact ⟨Or.inr ⟨_, rfl, i, hi, dir, rfl, Or.inr ⟨stat, s, hstat, hres⟩⟩, s,
      Or.inr ⟨_, ⟨hfid, rfl⟩, rfl, by simp [Callbacks.effect, hstat, hres]⟩, .same _⟩

theorem serves_twstat (h : serveType cb srv tag buf size .twstat = some served) :
    Serves cb srv tag buf size .twstat served := by
  rw [serveType, serveWstat] at h
  split at h
  · cases h
    exact serves_refuse (by decide)
  rename_i wstat hwstat
  obtain ⟨dir, hdir, hres⟩ := Option.map_eq_some_iff.1 h
  subst hres
  split
  · rename_i e s hres
    exact ⟨Or.inl (errs_failure _ (by decide)), s,
      Or.inr ⟨_, ⟨dir, hdir, rfl⟩, rfl, by simp [Callbacks.effect, hwstat, hres]⟩, .same _⟩
  · rename_i s hres
    exact ⟨Or.inr ⟨_, rfl, rfl, wstat, dir, s, hwstat, hdir, hres⟩, s,
      Or.inr ⟨_, ⟨dir, hdir, rfl⟩, rfl, by simp [Callbacks.effect, hwstat, hres]⟩, .same _⟩

theorem serveType_serves (hwalk : type ≠ .twalk) (h : serveType cb srv tag buf size type = some served) :
    Serves cb srv tag buf size type served := by
  cases type with
  | tversion => exact serves_tversion h
  | tauth => exact serves_tauth h
  | tattach => exact serves_tattach h
  | tflush => exact serves_tflush h
  | twalk => exact absurd rfl hwalk
  | topen => exact serves_topen h
  | tcreate => exact serves_tcreate h
  | tread => exact serves_tread h
  | twrite => exact serves_twrite h
  | tclunk => exact serves_tclunk h
  | tremove => exact serves_tremove h
  | tstat => exact serves_tstat h
  | twstat => exact serves_twstat h

/-- **What a message does to the server.** -/
theorem serveType_srv (hwalk : type ≠ .twalk) (h : serveType cb srv tag buf size type = some served) :
    Moves cb srv buf size type served :=
  (serveType_serves hwalk h).2

theorem answers_twalk (h : serveType cb srv tag buf size .twalk = some served) :
    Answers cb srv tag buf size .twalk served := by
  rw [serveType, serveWalk] at h
  split at h
  · cases h
    exact Or.inl (errs_refuse (by decide))
  rename_i i hi
  have hfid := Option.isSome_of_eq_some hi
  split at h
  · rename_i hzero
    cases h
    rw [serveClone]
    split
    · exact Or.inl (errs_refuse (by decide))
    split
    · exact Or.inl (errs_refuse (by decide))
    · split <;> exact Or.inr ⟨_, rfl, hfid, Or.inl ⟨hzero, _, rfl⟩⟩
  rename_i hzero
  split at h
  · cases h
    exact Or.inl (errs_refuse (by decide))
  rename_i walk hwalk
  obtain ⟨wname, hwname, hres⟩ := Option.map_eq_some_iff.1 h
  subst hres
  split
  · exact Or.inl ⟨_, by decide, rfl⟩
  · rename_i ok qids srv' hne hres
    refine Or.inr ⟨_, rfl, hfid, Or.inr ⟨hzero, walk, wname, hwalk, hwname, ok, qids, srv', hres, ?_, rfl⟩⟩
    cases ok with
    | true => exact Or.inl rfl
    | false => exact Or.inr (hne rfl)

/-- **Every reply** is an error, or the answer to the message. -/
theorem serveType_reply (h : serveType cb srv tag buf size type = some served) :
    Answers cb srv tag buf size type served := by
  by_cases hwalk : type = .twalk
  · subst hwalk
    exact answers_twalk h
  · exact (serveType_serves hwalk h).1

/-! ### A walk -/

/-- **A walk without names** takes a slot for the new fid, and then makes its call. -/
def Cloned (cb : Callbacks W) (srv : Server W) (fid newfid : Nat) (s : Server W) : Prop :=
  ∃ i j s', fidLookup srv fid = some i ∧ fidLookup srv newfid = none ∧ fidAlloc srv newfid = some (j, s') ∧
    s = cb.effect (.clone fid newfid) (setFid s' j { s'.fids i with fid := newfid })

/-- A walk with names does what its function does. -/
theorem serveWalk_names {fid newfid nwname i : Nat} {wname : List CStr}
    {walk : Nat → Nat → List CStr → Server W → (Bool × List Qid) × Server W}
    (hfid : fidLookup srv fid = some i) (hzero : nwname ≠ 0) (hwalk : cb.walk = some walk)
    (h : serveWalk cb srv tag fid newfid nwname (some wname) = some served) :
    served.srv = (walk fid newfid wname srv).2 := by
  rw [serveWalk, hfid, hwalk] at h
  dsimp only at h
  rw [if_neg hzero] at h
  cases h
  dsimp only
  split
  · rename_i hres
    rw [hres]
  · rename_i hres
    rw [hres]

/-- **What a walk does to the server.** -/
theorem serveWalk_srv (h : serveType cb srv tag buf size .twalk = some served) :
    served.srv = srv ∨ (get buf 15 2 = 0 ∧ Cloned cb srv (get buf 7 4) (get buf 11 4) served.srv) ∨
      ∃ wname, get buf 15 2 ≠ 0 ∧ (fidLookup srv (get buf 7 4)).isSome ∧
        walkNames buf size 17 (min (get buf 15 2) 16) = some wname ∧
        served.srv = cb.effect (.walk (get buf 7 4) (get buf 11 4) wname) srv := by
  rw [serveType, serveWalk] at h
  split at h
  · cases h
    exact Or.inl rfl
  rename_i i hi
  split at h
  · rename_i hzero
    cases h
    rw [serveClone]
    split
    · exact Or.inl rfl
    rename_i hnew
    split
    · exact Or.inl rfl
    rename_i j s' halloc
    refine Or.inr (Or.inl ⟨hzero, i, j, s', hi, by simpa using hnew, halloc, ?_⟩)
    split
    · rename_i hclone
      simp [Callbacks.effect, hclone]
    · rename_i clone hclone
      simp [Callbacks.effect, hclone]
  rename_i hzero
  split at h
  · cases h
    exact Or.inl rfl
  rename_i walk hwalk
  obtain ⟨wname, hwname, hres⟩ := Option.map_eq_some_iff.1 h
  subst hres
  refine Or.inr (Or.inr ⟨wname, hzero, by rw [hi]; rfl, hwname, ?_⟩)
  split
  · rename_i s hres
    simp [Callbacks.effect, hwalk, hres]
  · rename_i s _ hres
    simp [Callbacks.effect, hwalk, hres]

/-! ## The dispatch -/

/-- The message gets as far as the `switch`. -/
def Dispatched (srv : Server W) (buf : Buf) (inlen : Nat) : Prop :=
  msgSize buf ≤ inlen ∧ msgSize buf ≤ maxMsg ∧ (srv.msize = 0 ∨ msgSize buf ≤ srv.msize)

theorem styxServe_of_dispatched {inlen : Nat} (h : Dispatched srv buf inlen) (ht : msgType buf = some type) :
    styxServe cb srv buf inlen = serveType cb srv (msgTag buf) buf (msgSize buf) type := by
  obtain ⟨hlen, hmax, hmsize⟩ := h
  rw [styxServe, if_neg (by omega), if_neg (by omega), ht]

/-- **What is dispatched** is what is not refused at once. -/
theorem styxServe_cases (cb : Callbacks W) (srv : Server W) (buf : Buf) (inlen : Nat) :
    (∃ msg : String, msg.length ≤ 32 ∧ styxServe cb srv buf inlen = some (refuse srv (msgTag buf) msg)) ∨
      ∃ type, Dispatched srv buf inlen ∧ msgType buf = some type ∧
        styxServe cb srv buf inlen = serveType cb srv (msgTag buf) buf (msgSize buf) type := by
  by_cases hsize : inlen < msgSize buf ∨ maxMsg < msgSize buf
  · rw [styxServe, if_pos hsize]
    exact Or.inl ⟨_, by decide, rfl⟩
  by_cases hmsize : srv.msize ≠ 0 ∧ srv.msize < msgSize buf
  · rw [styxServe, if_neg hsize, if_pos hmsize]
    exact Or.inl ⟨_, by decide, rfl⟩
  cases ht : msgType buf with
  | none =>
    rw [styxServe, if_neg hsize, if_neg hmsize, ht]
    exact Or.inl ⟨_, by decide, rfl⟩
  | some type =>
    have hd : Dispatched srv buf inlen := ⟨by omega, by omega, by omega⟩
    exact Or.inr ⟨type, hd, rfl, styxServe_of_dispatched hd ht⟩

/-- **Every reply of the server** is an error, or the answer to the message. -/
theorem styxServe_reply {inlen : Nat} (h : styxServe cb srv buf inlen = some served) :
    Errs (msgTag buf) served.reply ∨ ∃ type body, Dispatched srv buf inlen ∧ msgType buf = some type ∧
      served.reply = message (type.code + 1) (msgTag buf) body ∧
      Accepts cb srv buf (msgSize buf) body type := by
  obtain ⟨msg, hmsg, hs⟩ | ⟨type, hd, ht, hs⟩ := styxServe_cases cb srv buf inlen
  · cases h.symm.trans hs
    exact Or.inl (errs_refuse hmsg)
  · obtain herr | ⟨body, hbody, hacc⟩ := serveType_reply (hs.symm.trans h)
    · exact Or.inl herr
    · exact Or.inr ⟨type, body, hd, ht, hbody, hacc⟩

end WuBuOS.Styx
