import WuBuOS.Runtime.Styx.Calls

/-!
# Open modes

A fid is opened with a mode, which is kept in its slot, and checked against its capability.  That is all that
becomes of it: a read and a write do not ask whether the fid is open, and what it has been opened for.  So
the modes govern what can be read and written if the client keeps to them (`modes_govern_iff`), and not
otherwise (`written_through`).

What a fid has been opened for is read off the messages and their replies (`Session`), not off the slots.
-/

namespace WuBuOS.Styx

open Bytes Cap Runs
open Function (update)

variable {H : Type} {host : Host H} {creates : Bool} {srv srv' : FsServer H} {buf : Buf} {size tag fid i : Nat}
  {served : Served (FsWorld H)}

/-! ## What is changed on the host -/

/-- **Something has been changed on the host** in between. -/
def Modifies (srv srv' : FsServer H) : Prop :=
  ∃ calls, srv'.world.log = calls ++ srv.world.log ∧ ∃ e ∈ calls, e.1.modifies = true ∧ e.2 = true

theorem modifies_iff (calls : List (HostCall × Bool)) (h : srv'.world.log = calls ++ srv.world.log) :
    Modifies srv srv' ↔ ∃ e ∈ calls, e.1.modifies = true ∧ e.2 = true := by
  constructor
  · rintro ⟨calls', h', hex⟩
    rwa [List.append_cancel_right (h.symm.trans h')]
  · exact fun hex => ⟨calls, h, hex⟩

theorem modifies_congr {srv1 srv2 : FsServer H} (h : srv1.world.log = srv2.world.log) :
    Modifies srv srv1 ↔ Modifies srv srv2 := by
  rw [Modifies, Modifies, h]

theorem not_modifies_of_looks {Q : CStr → Prop} (h : Logs (Looks Q) srv srv') : ¬Modifies srv srv' := by
  obtain ⟨calls, hlog, hlooks⟩ := h
  rw [modifies_iff _ hlog]
  rintro ⟨e, he, hmod, -⟩
  cases (hlooks e he).1.symm.trans hmod

theorem not_modifies_of_log (h : srv'.world.log = srv.world.log) : ¬Modifies srv srv' :=
  not_modifies_of_looks (Logs.of_eq (P := Looks fun _ => True) h)

/-- What is done with a fid that is in use, if the server is not read-only. -/
theorem modifies_iff_possible {P : Nat → Prop} (hnone : fidLookup srv fid = none → ¬Modifies srv srv')
    (hreadonly : srv.world.readonly = true → ¬Modifies srv srv')
    (hsome : ∀ i, fidLookup srv fid = some i → srv.world.readonly = false → (Modifies srv srv' ↔ P i)) :
    Modifies srv srv' ↔ srv.world.readonly = false ∧ ∃ i, fidLookup srv fid = some i ∧ P i := by
  cases hro : srv.world.readonly with
  | true => exact iff_of_false (hreadonly hro) (by simp)
  | false =>
    cases hi : fidLookup srv fid with
    | none => exact iff_of_false (hnone hi) (by simp)
    | some i => simpa using hsome i hi hro

theorem isOk_ite {ε α : Type} (b : Bool) (a : α) (e : ε) :
    (if b = true then Except.ok a else Except.error e : Except ε α).isOk = b := by
  cases b <;> rfl

/-- What the host says if a fid's file is opened for writing. -/
def openedWrite (host : Host H) (srv : FsServer H) (i : Nat) : HostReply × H :=
  host (.openWrite (fidHost srv i) ((srv.fids i).qid.type / 0x40 % 2 == 1)) srv.world.host

/-- The host lets a fid's file be written. -/
def writes (host : Host H) (srv : FsServer H) (i offset count : Nat) (data : List UInt8) : Bool :=
  (openedWrite host srv i).1.ok &&
    (min count maxData == 0 ||
      (host (.pwrite (fidHost srv i) (if (srv.fids i).qid.type / 0x40 % 2 == 1 then 0 else offset)
        (data.take (min count maxData))) (openedWrite host srv i).2).1.ok)

/-- **A write** changes something if the file can be opened, and has succeeded if it can be written. -/
theorem styxfsWriteCb_spec (host : Host H) (hi : fidLookup srv fid = some i) (hro : srv.world.readonly = false)
    (offset count : Nat) (data : List UInt8) :
    (styxfsWriteCb host fid offset count data srv).1.isOk = writes host srv i offset count data ∧
      (Modifies srv (styxfsWriteCb host fid offset count data srv).2 ↔ (openedWrite host srv i).1.ok = true) := by
  rw [styxfsWriteCb, hro, if_neg Bool.false_ne_true, hi]
  dsimp only
  split
  · rename_i hno
    have ho : (openedWrite host srv i).1.ok = false := (Bool.not_eq_true' _).mp hno
    refine ⟨by rw [writes, ho]; rfl, ?_⟩
    rw [modifies_iff [(_, (openedWrite host srv i).1.ok)] rfl, ho]
    simp
  rename_i hyes
  have ho : (openedWrite host srv i).1.ok = true := by
    rwa [Bool.not_eq_true', Bool.not_eq_false] at hyes
  split
  · rename_i hzero
    refine ⟨by rw [writes, ho, hzero]; rfl, ?_⟩
    rw [modifies_iff [(_, (openedWrite host srv i).1.ok)] rfl, ho]
    simp [HostCall.modifies]
  · rename_i hzero
    have hn : (min count maxData == 0) = false := by rw [beq_eq_false_iff_ne]; exact hzero
    constructor
    · rw [writes, ho, hn, Bool.true_and, Bool.false_or]
      exact isOk_ite ..
    · rw [modifies_iff [_, (_, (openedWrite host srv i).1.ok)] rfl, ho]
      simp [HostCall.modifies]

theorem modifies_styxfsWriteCb (fid offset count : Nat) (data : List UInt8) :
    Modifies srv (styxfsWriteCb host fid offset count data srv).2 ↔
      srv.world.readonly = false ∧ ∃ i, fidLookup srv fid = some i ∧ (openedWrite host srv i).1.ok = true := by
  refine modifies_iff_possible (fun hi => ?_) (fun hro => ?_)
    fun i hi hro => (styxfsWriteCb_spec host hi hro offset count data).2
  · rw [styxfsWriteCb, hi]
    split <;> exact not_modifies_of_log rfl
  · rw [styxfsWriteCb, hro]
    exact not_modifies_of_log rfl

/-- What the host says if a fid's file is unlinked. -/
def unlinked (host : Host H) (srv : FsServer H) (i : Nat) : HostReply × H :=
  host (.unlink (fidHost srv i)) srv.world.host

/-- The host lets a fid's file be removed, or its directory. -/
def removes (host : Host H) (srv : FsServer H) (i : Nat) : Bool :=
  (unlinked host srv i).1.ok ||
    ((unlinked host srv i).1.errno == 21 && (host (.rmdir (fidHost srv i)) (unlinked host srv i).2).1.ok)

/-- **A remove** changes something if it is possible. -/
theorem modifies_styxfsRemoveCb (fid : Nat) : Modifies srv (styxfsRemoveCb host fid srv) ↔
      srv.world.readonly = false ∧ ∃ i, fidLookup srv fid = some i ∧ removes host srv i = true := by
  refine modifies_iff_possible (fun hi => ?_) (fun hro => ?_) fun i hi hro => ?_
  · rw [styxfsRemoveCb, hi]
    exact not_modifies_of_log rfl
  · rw [styxfsRemoveCb]
    split
    · exact not_modifies_of_log rfl
    · rw [if_pos hro]
      exact not_modifies_of_log rfl
  rw [styxfsRemoveCb, hi]
  dsimp only
  rw [hro, if_neg Bool.false_ne_true, removes]
  have hlog : ∀ s : FsServer H, (fidFreePath i s).world.log = s.world.log := log_fidFreePath i
  split
  · rename_i hretry
    have hno : (unlinked host srv i).1.ok = false ∧ (unlinked host srv i).1.errno == 21 := by
      rwa [Bool.and_eq_true, Bool.not_eq_true'] at hretry
    rw [modifies_iff [(.rmdir _, (host (.rmdir (fidHost srv i)) (unlinked host srv i).2).1.ok),
      (.unlink _, (unlinked host srv i).1.ok)] (hlog _), hno.1, hno.2]
    simp [HostCall.modifies]
  · rename_i hretry
    have hdone : (!(unlinked host srv i).1.ok && (unlinked host srv i).1.errno == 21) = false :=
      (Bool.not_eq_true _).mp hretry
    rw [modifies_iff [(.unlink _, (unlinked host srv i).1.ok)] (hlog _)]
    cases hok : (unlinked host srv i).1.ok with
    | true => simp [HostCall.modifies]
    | false =>
      rw [hok, Bool.not_false, Bool.true_and] at hdone
      simp [hdone]

/-- A time is given in a directory entry. -/
def Dir.hasTime (dir : Dir) : Bool := !(dir.mtime == 0xFFFFFFFF && dir.atime == 0xFFFFFFFF)

/-- The host lets the mode of a fid's file be changed, or its times. -/
def changes (host : Host H) (srv : FsServer H) (i : Nat) (dir : Dir) : Bool :=
  (chmodHost host (fidHost srv i) dir.mode srv).1 &&
    (dir.mode != 0xFFFFFFFF ||
      (dir.hasTime &&
        (host (.utimensat (fidHost srv i) (if dir.atime = 0xFFFFFFFF then 0 else dir.atime)
          (if dir.mtime = 0xFFFFFFFF then 0 else dir.mtime))
          (chmodHost host (fidHost srv i) dir.mode srv).2.world.host).1.ok))

/-- **A wstat** changes something if it is possible. -/
theorem modifies_styxfsWstatCb (fid : Nat) (dir : Dir) : Modifies srv (styxfsWstatCb host fid dir srv).2 ↔
      srv.world.readonly = false ∧ ∃ i, fidLookup srv fid = some i ∧ changes host srv i dir = true := by
  refine modifies_iff_possible (fun hi => ?_) (fun hro => ?_) fun i hi hro => ?_
  · rw [styxfsWstatCb, hi]
    split <;> exact not_modifies_of_log rfl
  · rw [styxfsWstatCb, hro]
    exact not_modifies_of_log rfl
  rw [styxfsWstatCb, hro, if_neg Bool.false_ne_true, hi, changes]
  dsimp only
  have hchmod : (chmodHost host (fidHost srv i) dir.mode srv).2.world.log = (if dir.mode = 0xFFFFFFFF then []
        else [(HostCall.chmod (fidHost srv i) (dir.mode % 512),
          (chmodHost host (fidHost srv i) dir.mode srv).1)]) ++ srv.world.log := by
    rw [chmodHost]
    split <;> rfl
  have hgiven : dir.mode = 0xFFFFFFFF → (chmodHost host (fidHost srv i) dir.mode srv).1 = true := by
    intro h
    rw [chmodHost, if_pos h]
  generalize chmodHost host (fidHost srv i) dir.mode srv = r at hchmod hgiven
  obtain ⟨ok, srv1⟩ := r
  dsimp only at hchmod hgiven
  by_cases hmode : dir.mode = 0xFFFFFFFF
  · rw [if_pos hmode, List.nil_append] at hchmod
    rw [hgiven hmode, bne_eq_false_iff_eq.2 hmode, Bool.true_and, Bool.false_or]
    dsimp only
    split
    · rename_i htime
      have hno : dir.hasTime = false := by simp [Dir.hasTime, htime.1, htime.2]
      rw [modifies_iff [] hchmod, hno]
      simp
    · rename_i htime
      have hyes : dir.hasTime = true := by
        by_contra hno
        exact htime (by simpa [Dir.hasTime] using hno)
      rw [hyes, Bool.true_and]
      have hlog : ∀ call, (hostCall host call srv1).2.world.log =
          [(call, (host call srv1.world.host).1.ok)] ++ srv.world.log := by
        intro call
        rw [← hchmod]
        rfl
      rw [modifies_iff _ (hlog _)]
      simp [HostCall.modifies]
  · rw [if_neg hmode] at hchmod
    cases ok with
    | false =>
      rw [modifies_iff _ hchmod]
      simp
    | true =>
      refine iff_of_true ?_ (by rw [bne_iff_ne.2 hmode]; rfl)
      dsimp only
      split
      · exact (modifies_iff _ hchmod).2 ⟨_, List.mem_cons_self, rfl, rfl⟩
      · have hlog : ∀ call, (hostCall host call srv1).2.world.log =
            [(call, (host call srv1.world.host).1.ok), (HostCall.chmod (fidHost srv i) (dir.mode % 512), true)] ++
              srv.world.log := by
          intro call
          rw [List.cons_append, ← hchmod]
          rfl
        exact (modifies_iff _ (hlog _)).2 ⟨_, List.mem_cons_of_mem _ List.mem_cons_self, rfl, rfl⟩

/-- There is nothing of this name on the host, and it lets it be created. -/
def makes (host : Host H) (srv : FsServer H) (i : Nat) (name : CStr) (perm : Nat) : Bool :=
  !(host (.stat (childHost srv i name)) srv.world.host).1.ok &&
    (host (creating (childHost srv i name) perm) (host (.stat (childHost srv i name)) srv.world.host).2).1.ok

theorem modifies_creating (path : CStr) (perm : Nat) : (creating path perm).modifies = true := by
  rw [creating]
  split <;> rfl

theorem modifies_createHost (name : CStr) (perm mode : Nat) (srv : FsServer H) :
    Modifies srv (createHost host (childHost srv i name) perm mode srv).2 ↔ makes host srv i name perm = true := by
  rw [createHost, makes]
  dsimp only
  have hstat : ¬Modifies srv (hostCall host (.stat (childHost srv i name)) srv).2 :=
    not_modifies_of_looks (Q := fun _ => True) (.call ⟨rfl, fun _ _ => trivial⟩)
  split
  · rename_i hok
    have hthere : (host (.stat (childHost srv i name)) srv.world.host).1.ok = true := hok
    refine iff_of_false ?_ (by simp [hthere])
    split
    · exact hstat
    split
    · exact hstat
    split
    · exact hstat
    · exact hstat
  · rename_i hok
    have hthere : (host (.stat (childHost srv i name)) srv.world.host).1.ok = false := (Bool.not_eq_true _).mp hok
    rw [hthere, Bool.not_false, Bool.true_and,
      modifies_iff [(creating (childHost srv i name) perm, _), (.stat (childHost srv i name), _)] rfl]
    have hlook : (HostCall.stat (childHost srv i name)).modifies = false := rfl
    simp [modifies_creating, hlook]
    rfl

/-- **A create** changes something if it makes something. -/
theorem modifies_styxfsCreateCb (fid : Nat) {name : CStr} (hname : name ≠ []) (perm mode : Nat) :
    Modifies srv (styxfsCreateCb host fid name perm mode srv).2 ↔
      srv.world.readonly = false ∧ ∃ i, fidLookup srv fid = some i ∧ makes host srv i name perm = true := by
  refine modifies_iff_possible (fun hi => ?_) (fun hro => ?_) fun i hi hro => ?_
  · rw [styxfsCreateCb, if_neg hname, hi]
    split <;> exact not_modifies_of_log rfl
  · rw [styxfsCreateCb, hro]
    exact not_modifies_of_log rfl
  refine Iff.trans ?_ (modifies_createHost name perm mode srv)
  rw [styxfsCreateCb, hro, if_neg Bool.false_ne_true, if_neg hname, hi]
  dsimp only
  generalize createHost host (childHost srv i name) perm mode srv = r
  obtain ⟨_ | e, srv1⟩ := r
  · dsimp only
    refine modifies_congr ((log_strdup ..).trans ?_)
    split <;> rfl
  · rfl

/-! ## What a message changes -/

/-- **When a message changes something on the host.** -/
def Changes (host : Host H) (creates : Bool) (srv : FsServer H) (buf : Buf) (size : Nat) : TType → Prop
  | .twrite => 23 + get buf 19 4 ≤ size ∧ srv.world.readonly = false ∧
      ∃ i, fidLookup srv (get buf 7 4) = some i ∧ (openedWrite host srv i).1.ok = true
  | .tremove => srv.world.readonly = false ∧
      ∃ i, fidLookup srv (get buf 7 4) = some i ∧ removes host srv i = true
  | .tcreate => creates = true ∧ srv.world.readonly = false ∧ 13 ≤ size ∧
      ∃ name p, getstr buf 11 maxFname (size - 11) = some (name, p) ∧ p + 5 ≤ size ∧ name ≠ [] ∧
        ∃ i, fidLookup srv (get buf 7 4) = some i ∧ makes host srv i name (get buf p 4) = true
  | .twstat => srv.world.readonly = false ∧ ∃ dir, wstatDir buf size = some dir ∧
      ∃ i, fidLookup srv (get buf 7 4) = some i ∧ changes host srv i dir = true
  | _ => False

/-- A call that changes nothing on the host. -/
def Invocation.Harmless : Invocation → Prop
  | .write .. => False
  | .create .. => False
  | .remove .. => False
  | .wstat .. => False
  | _ => True

/-- **A harmless call** changes nothing on the host. -/
theorem not_modifies_effect {c : Invocation} (hc : c.Harmless) (srv : FsServer H) :
    ¬Modifies srv ((styxfsCallbacks host creates).effect c srv) := by
  cases c with
  | clone fid newfid => exact not_modifies_of_log (log_styxfsCapCloneCb fid newfid srv)
  | attach fid aname => exact not_modifies_of_log (log_styxfsAttachCb fid aname srv)
  | walk fid newfid wname =>
    exact not_modifies_of_looks (logs_styxfsWalkCb (Q := fun _ => True) newfid wname fun _ _ =>
      passes_all (fun _ => Or.inr trivial) ..)
  | «open» fid mode => exact not_modifies_of_log (log_styxfsOpenCb fid mode srv)
  | read fid offset count => exact not_modifies_of_looks (logs_styxfsReadCb fid offset count srv)
  | write | remove | wstat | create => exact hc.elim
  | clunk fid => exact not_modifies_of_log (log_styxfsClunkCb fid srv)
  | stat fid => exact not_modifies_of_looks (logs_styxfsStatCb fid srv)
  | auth | flush => exact not_modifies_of_log rfl

/-- What a message does to the host is what the call does that it asks for. -/
theorem harmless_of_asks {type : TType} {c : Invocation} (h : Asks srv buf size type c)
    (hwrite : type ≠ .twrite) (hcreate : type ≠ .tcreate) (hremove : type ≠ .tremove)
    (hwstat : type ≠ .twstat) : c.Harmless := by
  cases type with
  | tversion => exact h.elim
  | tauth | tattach | tflush => exact h ▸ trivial
  | twalk =>
    obtain ⟨-, ⟨-, rfl⟩ | ⟨-, wname, -, rfl⟩⟩ := h
    · exact trivial
    · exact trivial
  | topen | tread | tclunk | tstat => exact h.2 ▸ trivial
  | tcreate => exact absurd rfl hcreate
  | twrite => exact absurd rfl hwrite
  | tremove => exact absurd rfl hremove
  | twstat => exact absurd rfl hwstat

theorem log_serveWrite (hi : fidLookup srv fid = some i) (offset count : Nat) (data : List UInt8) :
    (serveWrite (styxfsCallbacks host creates) srv tag fid offset count data).srv.world.log =
      (styxfsWriteCb host fid offset (min count maxWrite) (data.take (min count maxWrite)) srv).2.world.log := by
  rw [serveWrite, hi]
  dsimp only [styxfsCallbacks]
  split
  · rename_i hres
    rw [hres]
  · rename_i hres
    rw [hres]
    rfl

theorem modifies_twrite (h : serveType (styxfsCallbacks host creates) srv tag buf size .twrite = some served) :
    Modifies srv served.srv ↔ Changes host creates srv buf size .twrite := by
  rw [serveType] at h
  split at h
  · rename_i hsize
    cases h
    exact iff_of_false (not_modifies_of_log rfl) fun hc => absurd hc.1 (by omega)
  rename_i hsize
  cases h
  rw [Changes, and_iff_right (by omega)]
  cases hi : fidLookup srv (get buf 7 4) with
  | none =>
    rw [serveWrite, hi]
    exact iff_of_false (not_modifies_of_log rfl) (by simp)
  | some i =>
    rw [modifies_congr (log_serveWrite hi ..), modifies_styxfsWriteCb, hi]

theorem modifies_tremove (h : serveType (styxfsCallbacks host creates) srv tag buf size .tremove = some served) :
    Modifies srv served.srv ↔ Changes host creates srv buf size .tremove := by
  rw [serveType] at h
  cases h
  have hlog : (serveRemove (styxfsCallbacks host creates) srv tag (get buf 7 4)).srv.world.log =
      (styxfsRemoveCb host (get buf 7 4) srv).world.log := congrArg FsWorld.log (world_fidFree ..)
  rw [modifies_congr hlog, modifies_styxfsRemoveCb]
  rfl

theorem modifies_twstat (h : serveType (styxfsCallbacks host creates) srv tag buf size .twstat = some served) :
    Modifies srv served.srv ↔ Changes host creates srv buf size .twstat := by
  rw [serveType, serveWstat] at h
  obtain ⟨dir, hdir, hres⟩ := Option.map_eq_some_iff.1 h
  subst hres
  refine Iff.trans (b := Modifies srv (styxfsWstatCb host (get buf 7 4) dir srv).2) (modifies_congr ?_) ?_
  · split
    · rename_i hres
      rw [hres]
    · rename_i hres
      rw [hres]
  · rw [modifies_styxfsWstatCb, Changes, hdir]
    simp

theorem modifies_tcreate (h : serveType (styxfsCallbacks host creates) srv tag buf size .tcreate = some served) :
    Modifies srv served.srv ↔ Changes host creates srv buf size .tcreate := by
  rw [serveType] at h
  split at h
  · rename_i hsize
    cases h
    exact iff_of_false (not_modifies_of_log rfl) fun hc => absurd hc.2.2.1 (by omega)
  rename_i hsize
  split at h
  · cases h
  rename_i name p hname
  rw [Changes, hname]
  split at h
  · rename_i hp
    cases h
    refine iff_of_false (not_modifies_of_log rfl) ?_
    rintro ⟨-, -, -, _, _, hname', hp', -⟩
    cases hname'
    omega
  rename_i hp
  cases h
  cases creates with
  | false => exact iff_of_false (not_modifies_of_log rfl) (by simp)
  | true =>
    refine Iff.trans
      (b := Modifies srv (styxfsCreateCb host (get buf 7 4) name (get buf p 4) (get buf (p + 4) 1) srv).2)
      (modifies_congr ?_) ?_
    · rw [serveCreate, show (styxfsCallbacks host true).create = some (styxfsCreateCb host) from rfl]
      dsimp only
      split
      · rename_i hres
        rw [hres]
      · rename_i hres
        rw [hres]
    by_cases hempty : name = []
    · refine iff_of_false ?_ ?_
      · rw [styxfsCreateCb, if_pos hempty]
        split <;> exact not_modifies_of_log rfl
      · rintro ⟨-, -, -, _, _, hname', -, hne, -⟩
        cases hname'
        exact hne hempty
    · rw [modifies_styxfsCreateCb _ hempty]
      constructor
      · rintro ⟨hro, i, hi, hmakes⟩
        exact ⟨rfl, hro, by omega, name, p, rfl, by omega, hempty, i, hi, hmakes⟩
      · rintro ⟨-, hro, -, _, _, hname', -, -, i, hi, hmakes⟩
        cases hname'
        exact ⟨hro, i, hi, hmakes⟩

/-- **A message changes something** if and only if it is possible. -/
theorem modifies_serveType_iff {type : TType}
    (h : serveType (styxfsCallbacks host creates) srv tag buf size type = some served) :
    Modifies srv served.srv ↔ Changes host creates srv buf size type := by
  by_cases hwrite : type = .twrite
  · subst hwrite
    exact modifies_twrite h
  by_cases hcreate : type = .tcreate
  · subst hcreate
    exact modifies_tcreate h
  by_cases hremove : type = .tremove
  · subst hremove
    exact modifies_tremove h
  by_cases hwstat : type = .twstat
  · subst hwstat
    exact modifies_twstat h
  refine iff_of_false ?_ (by cases type <;> first | exact id | contradiction)
  by_cases hwalk : type = .twalk
  · subst hwalk
    obtain hsame | ⟨-, i, j, s, hi, hnew, halloc, hsrv⟩ | ⟨wname, -, -, -, hsrv⟩ := serveWalk_srv h
    · exact not_modifies_of_log (by rw [hsame])
    · obtain ⟨-, -, rfl, -⟩ := fidAlloc_eq_some halloc
      rw [hsrv]
      exact not_modifies_of_log (log_styxfsCapCloneCb ..)
    · rw [hsrv]
      exact not_modifies_effect (c := .walk ..) trivial srv
  obtain ⟨s, hcall, hset⟩ := serveType_srv hwalk h
  rw [modifies_congr (congrArg FsWorld.log (world_settled hset))]
  obtain ⟨-, rfl⟩ | ⟨c, hasks, -, rfl⟩ := hcall
  · exact not_modifies_of_log rfl
  · exact not_modifies_effect (harmless_of_asks hasks hwrite hcreate hremove hwstat) srv

/-! ## What a message is answered with -/

theorem field_styxError (htag : tag < 2 ^ 16) (msg : CStr) : field (styxError tag msg) 4 1 = rerror :=
  (message_fields (by decide) htag _).2.1

/-- **A write has succeeded** if and only if it is possible. -/
theorem rwrite_iff (htag : tag < 2 ^ 16)
    (h : serveType (styxfsCallbacks host creates) srv tag buf size .twrite = some served) :
    field served.reply 4 1 = 119 ↔ 23 + get buf 19 4 ≤ size ∧ srv.world.readonly = false ∧
      ∃ i, fidLookup srv (get buf 7 4) = some i ∧ writes host srv i (get buf 11 8) (min (get buf 19 4) maxWrite)
          ((slice buf 23 (get buf 19 4)).take (min (get buf 19 4) maxWrite)) = true := by
  have herr : ∀ msg : CStr, field (styxError tag msg) 4 1 ≠ 119 := by
    intro msg
    rw [field_styxError htag]
    decide
  rw [serveType] at h
  split at h
  · rename_i hsize
    cases h
    exact iff_of_false (herr _) fun hc => absurd hc.1 (by omega)
  rename_i hsize
  cases h
  rw [and_iff_right (by omega), serveWrite]
  cases hi : fidLookup srv (get buf 7 4) with
  | none => exact iff_of_false (herr _) (by simp)
  | some i =>
    dsimp only [styxfsCallbacks]
    have hspec := fun hro => (styxfsWriteCb_spec host hi hro (get buf 11 8)
      (min (get buf 19 4) maxWrite) ((slice buf 23 (get buf 19 4)).take (min (get buf 19 4) maxWrite))).1
    have hreadonly : srv.world.readonly = true → (styxfsWriteCb host (get buf 7 4) (get buf 11 8)
        (min (get buf 19 4) maxWrite) ((slice buf 23 (get buf 19 4)).take (min (get buf 19 4) maxWrite))
        srv).1.isOk = false := by
      intro hro
      rw [styxfsWriteCb, if_pos hro]
      rfl
    generalize styxfsWriteCb host (get buf 7 4) (get buf 11 8) (min (get buf 19 4) maxWrite)
      ((slice buf 23 (get buf 19 4)).take (min (get buf 19 4) maxWrite)) srv = r at hspec hreadonly
    obtain ⟨e | nwritten, s⟩ := r
    · refine iff_of_false (herr _) ?_
      rintro ⟨hro, _, hi', hw⟩
      cases hi'
      cases (hspec hro).trans hw
    · refine iff_of_true (message_fields (by decide) htag _).2.1 ?_
      cases hro : srv.world.readonly with
      | true => cases hreadonly hro
      | false => exact ⟨rfl, i, rfl, (hspec hro).symm⟩

/-- A read of a fid that is in use succeeds. -/
theorem isOk_styxfsReadCb (host : Host H) (hi : fidLookup srv fid = some i) (offset count : Nat) :
    (styxfsReadCb host fid offset count srv).1.isOk = true := by
  rw [styxfsReadCb, hi]
  dsimp only
  split
  · rfl
  split <;> rfl

/-- **A read has succeeded** if and only if the fid is in use. -/
theorem rread_iff (htag : tag < 2 ^ 16)
    (h : serveType (styxfsCallbacks host creates) srv tag buf size .tread = some served) :
    field served.reply 4 1 = 117 ↔ (fidLookup srv (get buf 7 4)).isSome := by
  rw [serveType] at h
  cases h
  rw [serveRead]
  cases hi : fidLookup srv (get buf 7 4) with
  | none =>
    refine iff_of_false ?_ (by simp)
    show field (styxError tag _) 4 1 ≠ 117
    rw [field_styxError htag]
    decide
  | some i =>
    refine iff_of_true ?_ rfl
    dsimp only [styxfsCallbacks]
    have hok := isOk_styxfsReadCb host hi (get buf 11 8) (min (get buf 19 4) (readCap srv))
    generalize styxfsReadCb host (get buf 7 4) (get buf 11 8) (min (get buf 19 4) (readCap srv)) srv = r at hok
    obtain ⟨e | ⟨nread, data⟩, s⟩ := r
    · cases hok
    · exact (message_fields (by decide) htag _).2.1

/-! ## What the fids are open for -/

/-- A server, and what its fids have been opened for. -/
structure Usage (H : Type) where
  srv : FsServer H
  opened : Nat → Option Nat

/-- **What the fids are open for** when a message has been answered: one that is new, or clunked, or removed,
is not open. -/
def openedAfter (opened : Nat → Option Nat) (buf : Buf) (reply : List UInt8) : Nat → Option Nat :=
  match msgType buf with
  | none => opened
  | some type =>
    if field reply 4 1 ≠ type.code + 1 then opened
    else
      match type with
      | .tattach => update opened (get buf 7 4) none
      | .twalk => if field reply 7 2 = 0 then opened else update opened (get buf 11 4) none
      | .topen => update opened (get buf 7 4) (some (get buf 11 1))
      | .tcreate =>
        match getstr buf 11 maxFname (msgSize buf - 11) with
        | none => opened
        | some (_, p) => update opened (get buf 7 4) (some (get buf (p + 4) 1))
      | .tclunk => update opened (get buf 7 4) none
      | .tremove => update opened (get buf 7 4) none
      | _ => opened

/-- The server when a message has been served, and what its fids are open for then. -/
def usageNext (host : Host H) (creates : Bool) (u : Usage H) (f : Frame) : Option (Usage H) :=
  (styxServe (styxfsCallbacks host creates) u.srv f.buf f.inlen).map fun served =>
    ⟨served.srv, openedAfter u.opened f.buf served.reply⟩

/-- A message is served, and there is a reply. -/
def usageStep (host : Host H) (creates : Bool) (u : Usage H) (f : Frame) (u' : Usage H) : Prop :=
  usageNext host creates u f = some u'

/-- It is open, with `OWRITE` or `ORDWR`. -/
def ForWriting (opened : Option Nat) : Prop := ∃ mode, opened = some mode ∧ (mode % 4 = 1 ∨ mode % 4 = 2)

/-- It is open, and not with `OWRITE`. -/
def ForReading (opened : Option Nat) : Prop := ∃ mode, opened = some mode ∧ mode % 4 ≠ 1

/-- It is open with `OREAD`. -/
def OnlyForReading (opened : Option Nat) : Prop := ∃ mode, opened = some mode ∧ mode % 4 = 0

/-- **The mode governs what a message does**: nothing is written to a fid that is not open for it, nothing is
read from one that is not, and nothing is changed through one that is open for reading only. -/
def Governed (host : Host H) (creates : Bool) (u : Usage H) (f : Frame) : Prop :=
  ∀ served type, styxServe (styxfsCallbacks host creates) u.srv f.buf f.inlen = some served →
    msgType f.buf = some type →
    (type = .twrite → field served.reply 4 1 = 119 → ForWriting (u.opened (get f.buf 7 4))) ∧
      (type = .tread → field served.reply 4 1 = 117 → ForReading (u.opened (get f.buf 7 4))) ∧
      (OnlyForReading (u.opened (get f.buf 7 4)) → ¬Modifies u.srv served.srv)

/-- **The client keeps to the modes**, where the server and the host would let it do otherwise. -/
def Minds (host : Host H) (creates : Bool) (u : Usage H) (f : Frame) : Prop :=
  ∀ type, Dispatched u.srv f.buf f.inlen → msgType f.buf = some type →
    (type = .twrite → 23 + get f.buf 19 4 ≤ msgSize f.buf → u.srv.world.readonly = false →
      ∀ i, fidLookup u.srv (get f.buf 7 4) = some i →
        writes host u.srv i (get f.buf 11 8) (min (get f.buf 19 4) maxWrite)
          ((slice f.buf 23 (get f.buf 19 4)).take (min (get f.buf 19 4) maxWrite)) = true →
        ForWriting (u.opened (get f.buf 7 4))) ∧
      (type = .tread → (fidLookup u.srv (get f.buf 7 4)).isSome → ForReading (u.opened (get f.buf 7 4))) ∧
      (OnlyForReading (u.opened (get f.buf 7 4)) →
        ¬Changes host creates u.srv f.buf (msgSize f.buf) type)

variable {u0 u u' : Usage H} {f : Frame} {frames : List Frame}

theorem governed_iff_minds (hstep : usageStep host creates u f u') :
    Governed host creates u f ↔ Minds host creates u f := by
  obtain ⟨served, hs, -⟩ := Option.map_eq_some_iff.1 hstep
  have htag : msgTag f.buf < 2 ^ 16 := get_lt f.buf 5 2
  constructor
  · intro hg type hd ht
    have h := (styxServe_of_dispatched hd ht).symm.trans hs
    obtain ⟨hw, hr, hm⟩ := hg served type hs ht
    refine ⟨?_, ?_, fun ho => mt (modifies_serveType_iff h).2 (hm ho)⟩
    · rintro rfl hsize hro i hi hwrites
      exact hw rfl ((rwrite_iff htag h).2 ⟨hsize, hro, i, hi, hwrites⟩)
    · rintro rfl hin
      exact hr rfl ((rread_iff htag h).2 hin)
  · intro hm served' type hs' ht
    cases hs.symm.trans hs'
    obtain ⟨msg, -, hr⟩ | ⟨type', hd, ht', h⟩ :=
      styxServe_cases (styxfsCallbacks host creates) u.srv f.buf f.inlen
    · -- what is refused at once is answered with an error
      cases hs.symm.trans hr
      have herr : field (refuse u.srv (msgTag f.buf) msg).reply 4 1 = rerror := field_styxError htag _
      refine ⟨fun _ he => ?_, fun _ he => ?_, fun _ => not_modifies_of_log rfl⟩
      · cases herr.symm.trans he
      · cases herr.symm.trans he
    · cases ht.symm.trans ht'
      have h := h.symm.trans hs
      obtain ⟨hw, hr, hc⟩ := hm type hd ht
      refine ⟨?_, ?_, fun ho => mt (modifies_serveType_iff h).mp (hc ho)⟩
      · rintro rfl hreply
        obtain ⟨hsize, hro, i, hi, hwrites⟩ := (rwrite_iff htag h).1 hreply
        exact hw rfl hsize hro i hi hwrites
      · rintro rfl hreply
        exact hr rfl ((rread_iff htag h).1 hreply)

/-- **The modes govern a run** if and only if the client keeps to them. -/
theorem modes_govern_iff : Run (guarded (Governed host creates) (usageStep host creates)) u0 frames u ↔
      Run (guarded (Minds host creates) (usageStep host creates)) u0 frames u :=
  run_guarded_congr fun _ _ _ => governed_iff_minds

/-- A host that does whatever it is asked. -/
def willing : Host Unit := fun _ h => (⟨true, 0, false, 0, 0, [], [], 1⟩, h)

/-- A file system with a directory of the host at its root. -/
def exported : FsServer Unit :=
  styxfsInit [{ path := root, source := text "/srv" }] 0 (Registry.empty fun _ => true) [] ()

/-- A file is walked to, and opened with `OREAD`. -/
def openToRead : List Request := [.attach 1 1 0 root, .walk 2 1 2 [text "f"], .open 3 2 0]

/-- **A fid that is open for reading only is written to**, and its file is changed. -/
theorem written_through : ∃ u, Run (usageStep willing false) ⟨exported, fun _ => none⟩
      (openToRead.map Request.frame) u ∧ u.opened 2 = some 0 ∧
    ∃ served, styxServe (styxfsCallbacks willing false) u.srv (Request.write 4 2 0 [120]).frame.buf
        (Request.write 4 2 0 [120]).frame.inlen = some served ∧
      field served.reply 4 1 = 119 ∧ Modifies u.srv served.srv := by
  have hrun : (replay (fun _ _ => True) (usageNext willing false) ⟨exported, fun _ => none⟩
      (openToRead.map Request.frame)).map (fun u =>
        (u.opened 2, u.srv.world.readonly, fidLookup u.srv 2, (styxServe (styxfsCallbacks willing false) u.srv
          (Request.write 4 2 0 [120]).frame.buf (Request.write 4 2 0 [120]).frame.inlen).map
            fun served => field served.reply 4 1)) = some (some 0, false, some 1, some 119) := by decide
  obtain ⟨u, hu, hres⟩ := Option.map_eq_some_iff.1 hrun
  rw [Prod.mk.injEq, Prod.mk.injEq, Prod.mk.injEq] at hres
  obtain ⟨hopened, hro, hi, hreply⟩ := hres
  obtain ⟨served, hs, hfield⟩ := Option.map_eq_some_iff.1 hreply
  refine ⟨u, (run_of_replay hu).mono fun _ _ _ hstep => hstep.2, hopened, served, hs, hfield, ?_⟩
  obtain ⟨msg, -, hr⟩ | ⟨type, hd, ht, h⟩ := styxServe_cases (styxfsCallbacks willing false) u.srv
    (Request.write 4 2 0 [120]).frame.buf (Request.write 4 2 0 [120]).frame.inlen
  · cases hs.symm.trans hr
    cases (field_styxError (get_lt ..) _).symm.trans hfield
  · obtain rfl : TType.twrite = type := Option.some.inj ht
    have hfid : get (Request.write 4 2 0 [120]).frame.buf 7 4 = 2 := by decide
    refine (modifies_serveType_iff (h.symm.trans hs)).2 ⟨by decide, hro, 1, ?_, rfl⟩
    rw [hfid, hi]

end WuBuOS.Styx
