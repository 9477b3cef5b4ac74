import WuBuOS.Runtime.Svc.Supervisor

/-!
# When the supervisor keeps its promises

Two things go wrong.  `notify_ready` is set when the service says so and never taken back: a process that is
created while it is set is reported running before it has said anything (`Stale`).  And a poll looks at the
units whose process it finds dead, not at those that it knows to be dead: the death that was seen inside a
backoff window, or after which the start failed, is seen once, and the unit is not started again when the window
has passed.  `supervised_iff` says that nothing else goes wrong.
-/

namespace WuBuOS.Svc

open Runs

variable {s s' t : Supervisor} {i j now : Nat} {e e' : SupEntry} {root svc : Name} {fork : Spawn} {forks : Nat → Spawn}

/-! ## What a call leaves alone -/

/-- The name of an entry. -/
def SupEntry.key (e : SupEntry) : Name × Name := (e.root, e.svc)

/-- The names are the same, the other units are as they were, and no process has died. -/
structure Frame (i : Nat) (s s' : Supervisor) : Prop where
  names : s'.entries.map SupEntry.key = s.entries.map SupEntry.key
  other : ∀ j, j ≠ i → s'.entries[j]? = s.entries[j]?
  alive : ∀ pid, s.alive pid = true → s'.alive pid = true
  told : ∀ j, j ≠ i → toldSince j s'.trace = toldSince j s.trace

theorem Frame.refl (i : Nat) (s : Supervisor) : Frame i s s := ⟨rfl, fun _ _ => rfl, fun _ h => h, fun _ _ => rfl⟩

theorem Frame.trans (h : Frame i s s') (h' : Frame i s' t) : Frame i s t :=
  ⟨h'.names.trans h.names, fun j hj => (h'.other j hj).trans (h.other j hj), fun p hp => h'.alive p (h.alive p hp),
    fun j hj => (h'.told j hj).trans (h.told j hj)⟩

theorem put_frame (hi : s.entries[i]? = some e) (hkey : e'.key = e.key) : Frame i s (s.put i e') := by
  refine ⟨?_, fun j hj => List.getElem?_set_ne (Ne.symm hj), fun _ h => h, fun _ _ => rfl⟩
  refine List.ext_getElem? fun j => ?_
  simp only [Supervisor.put, List.getElem?_map]
  by_cases hj : j = i
  · subst hj
    rw [List.getElem?_set_self (List.getElem?_eq_some_iff.1 hi).1, hi, Option.map_some, Option.map_some, hkey]
  · rw [List.getElem?_set_ne (Ne.symm hj)]

theorem put_self (hi : s.entries[i]? = some e) : (s.put i e').entries[i]? = some e' :=
  List.getElem?_set_self (List.getElem?_eq_some_iff.1 hi).1

/-- The event is about the unit. -/
def Event.unit : Event → Nat
  | .spawned i => i
  | .notified i => i
  | .autoStart i _ _ => i

theorem toldSince_cons {ev : Event} (h : ev.unit ≠ j) (trace : List Event) :
    toldSince j (ev :: trace) = toldSince j trace := by
  cases ev with
  | spawned i => exact if_neg h
  | notified i => exact if_neg h
  | autoStart i a u => rfl

theorem note_frame (s : Supervisor) (ev : Event) : Frame ev.unit s (s.note ev) :=
  ⟨rfl, fun _ _ => rfl, fun _ h => h, fun _ hj => toldSince_cons (Ne.symm hj) _⟩

theorem spawn_frame (hi : s.entries[i]? = some e) (now : Nat) (fork : Spawn) : Frame i s (spawn s i e now fork).1 := by
  cases fork with
  | fails => exact Frame.refl i s
  | exits =>
    have hput : Frame i s (s.put i { e with pid := none, state := .failed, lastStop := now }) := put_frame hi rfl
    exact hput.trans (note_frame _ (.spawned i))
  | runs pid =>
    have hput : Frame i s (s.put i { e with
      pid := some pid, lastStart := now, state := if e.type = .notify then .restarting else .running }) :=
        put_frame hi rfl
    refine ⟨hput.names, hput.other, fun p hp => ?_, fun j hj => if_neg (Ne.symm hj)⟩
    change Function.update s.alive pid true p = true
    by_cases hp' : p = pid
    · rw [hp', Function.update_self]
    · rw [Function.update_of_ne hp']
      exact hp

/-! ## Names -/

/-- No two units have one name. -/
def Distinct (s : Supervisor) : Prop := (s.entries.map SupEntry.key).Nodup

theorem Frame.distinct (h : Frame i s s') (hd : Distinct s) : Distinct s' := by
  rw [Distinct, h.names]
  exact hd

theorem findEntry_some (h : findEntry s root svc = some i) :
    ∃ e, s.entries[i]? = some e ∧ e.root = root ∧ e.svc = svc := by
  obtain ⟨hlt, hp, -⟩ := List.findIdx?_eq_some_iff_getElem.1 h
  rw [decide_eq_true_eq] at hp
  exact ⟨_, List.getElem?_eq_getElem hlt, hp⟩

/-- A unit is found under its name. -/
theorem Distinct.find (hd : Distinct s) (hi : s.entries[i]? = some e) : findEntry s e.root e.svc = some i := by
  obtain ⟨hlt, he⟩ := List.getElem?_eq_some_iff.1 hi
  refine List.findIdx?_eq_some_iff_getElem.2 ⟨hlt, by rw [he]; exact decide_eq_true ⟨rfl, rfl⟩, fun j hj => ?_⟩
  intro heq
  rw [decide_eq_true_eq] at heq
  have hlt' : j < s.entries.length := Nat.lt_trans hj hlt
  have hkeys : (s.entries.map SupEntry.key)[j]? = (s.entries.map SupEntry.key)[i]? := by
    rw [List.getElem?_map, List.getElem?_map, hi, List.getElem?_eq_getElem hlt', Option.map_some, Option.map_some]
    exact congrArg some (Prod.ext heq.1 heq.2)
  exact absurd ((List.getElem?_inj (by rwa [List.length_map]) hd).1 hkeys) (Nat.ne_of_lt hj)

/-! ## The invariant -/

/-- What holds as long as no process that stays is created for a service that counts as ready already. -/
structure Ok (s : Supervisor) : Prop where
  distinct : Distinct s
  told : ∀ i e, s.entries[i]? = some e → e.type = .notify → e.notifyReady = true → e.pid ≠ none →
    toldSince i s.trace = true
  window : ∀ i e a u, s.entries[i]? = some e → .autoStart i a u ∈ s.trace → u ≤ e.backoffUntil
  once : OncePerWindow s.trace

/-- The unit counts as ready although its process has not said so. -/
def Stale (s : Supervisor) (i : Nat) : Prop :=
  ∃ e, s.entries[i]? = some e ∧ e.type = .notify ∧ e.notifyReady = true ∧ pidAlive s e = true ∧
    toldSince i s.trace = false

/-- No process is created that stays, or not for a service that notifies and counts as ready. -/
def StaleFree (e : SupEntry) (fork : Spawn) : Prop :=
  e.type = .notify → e.notifyReady = true → ∀ pid, fork ≠ .runs pid

theorem Ok.put (h : Ok s) (hi : s.entries[i]? = some e) (hkey : e'.key = e.key)
    (htold : e'.type = .notify → e'.notifyReady = true → e'.pid ≠ none → toldSince i s.trace = true)
    (hwindow : e.backoffUntil ≤ e'.backoffUntil) : Ok (s.put i e') where
  distinct := (put_frame hi hkey).distinct h.distinct
  told j f hf := by
    by_cases hj : j = i
    · subst hj
      cases (put_self hi).symm.trans hf
      exact htold
    · rw [(put_frame hi hkey).other j hj] at hf
      exact h.told j f hf
  window j f a u hf hu := by
    by_cases hj : j = i
    · subst hj
      cases (put_self hi).symm.trans hf
      exact Nat.le_trans (h.window j e a u hi hu) hwindow
    · rw [(put_frame hi hkey).other j hj] at hf
      exact h.window j f a u hf hu
  once := h.once

/-- A process has been created for a unit that does not count as ready, or has none any more. -/
theorem Ok.created (h : Ok s)
    (hnot : ∀ e, s.entries[i]? = some e → e.type = .notify → e.notifyReady = true → e.pid ≠ none → False) :
    Ok (s.note (.spawned i)) := by
  refine ⟨h.distinct, fun j e he htype hready hpid => ?_, fun j e a u he hu => ?_, h.once⟩
  · by_cases hj : j = i
    · subst hj
      exact absurd hpid (hnot e he htype hready)
    · exact (toldSince_cons (Ne.symm hj) _).trans (h.told j e he htype hready hpid)
  · rcases List.mem_cons.1 hu with hev | hu
    · cases hev
    · exact h.window j e a u he hu

/-- **A process is created** for a service that does not count as ready yet. -/
theorem Ok.spawn (h : Ok s) (hi : s.entries[i]? = some e) (now : Nat) (hfree : StaleFree e fork) :
    Ok (spawn s i e now fork).1 := by
  cases fork with
  | fails => exact h
  | exits =>
    have hput : Ok (s.put i { e with pid := none, state := .failed, lastStop := now }) :=
      h.put hi rfl (fun _ _ hpid => absurd rfl hpid) (Nat.le_refl _)
    refine hput.created fun f hf _ _ hpid => ?_
    cases (put_self hi).symm.trans hf
    exact hpid rfl
  | runs pid =>
    have hput : Ok (s.put i { e with
      pid := some pid, lastStart := now, state := if e.type = .notify then .restarting else .running }) :=
        h.put hi rfl (fun htype hready _ => absurd rfl (hfree htype hready pid)) (Nat.le_refl _)
    have hnew := hput.created (i := i) fun f hf htype hready _ => by
      cases (put_self hi).symm.trans hf
      exact hfree htype hready pid rfl
    exact ⟨hnew.distinct, hnew.told, hnew.window, hnew.once⟩

/-- Otherwise it counts as ready at once. -/
theorem spawn_stale (hi : s.entries[i]? = some e) (now : Nat) (hbad : ¬ StaleFree e fork) :
    Stale (Svc.spawn s i e now fork).1 i := by
  rw [StaleFree] at hbad
  push Not at hbad
  obtain ⟨htype, hready, pid, rfl⟩ := hbad
  refine ⟨_, put_self hi, htype, hready, ?_, if_pos rfl⟩
  exact Function.update_self ..

/-- What `wubu_svc_supervisor_start` does, for a unit that is there. -/
theorem start_eq (hd : Distinct s) (hi : s.entries[i]? = some e) (now : Nat) (fork : Spawn) :
    start s e.root e.svc now fork = if entryReady s e then (s, 0) else Svc.spawn s i e now fork := by
  rw [start, hd.find hi]
  simp only [hi]

/-- What `wubu_svc_supervisor_stop` leaves: the entry without its process. -/
theorem Ok.stop (h : Ok s) (root svc : Name) (now : Nat) : Ok (stop s root svc now) := by
  rw [Svc.stop]
  split
  · exact h
  · split
    · exact h
    · rename_i i _ _ e hi
      have hput : Ok (s.put i { e with pid := none, state := .disabled, lastStop := now }) :=
        h.put hi rfl (fun _ _ hpid => absurd rfl hpid) (Nat.le_refl _)
      exact ⟨hput.distinct, hput.told, hput.window, hput.once⟩

/-! ## One turn of a loop -/

/-- The entry has a process, and it is not alive. -/
def Dead (s : Supervisor) (e : SupEntry) : Prop := e.pid.isSome = true ∧ pidAlive s e = false

/-- The unit is to be restarted, and not in its window. -/
def Again (now : Nat) (e : SupEntry) : Prop := e.autoRestart = true ∧ e.backoffUntil ≤ now

/-- The entry has lost its process. -/
structure Cleared (e e' : SupEntry) : Prop where
  key : e'.key = e.key
  pid : e'.pid = none
  type : e'.type = e.type
  notifyReady : e'.notifyReady = e.notifyReady
  backoffUntil : e'.backoffUntil = e.backoffUntil

/-- What a turn for unit `i` can do, of `reap` and of `poll`. -/
def Turn (now : Nat) (fork : Spawn) (i : Nat) (s s' : Supervisor) : Prop :=
  (s' = s ∧ ∀ e, s.entries[i]? = some e → ¬ Dead s e) ∨
    ∃ e e', s.entries[i]? = some e ∧ Dead s e ∧ Cleared e e' ∧
      ((Again now e ∧ s' = autoStart s i e' now fork) ∨ (¬ Again now e ∧ s' = s.put i e'))

theorem not_dead (hi : s.entries[i]? = some e) (h : ¬(e.pid.isSome && !pidAlive s e) = true) :
    ∀ f, s.entries[i]? = some f → ¬Dead s f := by
  rintro f hf hdead
  cases hi.symm.trans hf
  exact h (by simpa [Dead] using hdead)

theorem reapOne_turn (s : Supervisor) (now : Nat) (forks : Nat → Spawn) (i : Nat) :
    Turn now (forks i) i s (reapOne s now forks i).1 := by
  rw [reapOne]
  cases hi : s.entries[i]? with
  | none => exact Or.inl ⟨rfl, fun e he => by cases hi.symm.trans he⟩
  | some e =>
    by_cases hdead : (e.pid.isSome && !pidAlive s e) = true
    · have hdead' : Dead s e := by simpa [Dead] using hdead
      refine Or.inr ⟨e, { e with pid := none, state := .failed, lastStop := now }, hi, hdead', ⟨rfl, rfl, rfl, rfl, rfl⟩, ?_⟩
      by_cases hagain : e.autoRestart = true ∧ e.backoffUntil ≤ now
      · exact Or.inl ⟨hagain, by simp only [hdead, hagain, if_true, and_self]⟩
      · exact Or.inr ⟨hagain, by simp only [hdead, hagain, if_true, if_false]⟩
    · exact Or.inl ⟨by simp only [hdead, if_false, Bool.false_eq_true], not_dead hi hdead⟩

theorem pollOne_turn (s : Supervisor) (now : Nat) (forks : Nat → Spawn) (i : Nat) :
    Turn now (forks i) i s (pollOne s now forks i).1 := by
  rw [pollOne]
  cases hi : s.entries[i]? with
  | none => exact Or.inl ⟨rfl, fun e he => by cases hi.symm.trans he⟩
  | some e =>
    by_cases hdead : (e.pid.isSome && !pidAlive s e) = true
    · have hdead' : Dead s e := by simpa [Dead] using hdead
      by_cases hagain : e.autoRestart = true ∧ e.backoffUntil ≤ now
      · refine Or.inr ⟨e, { e with pid := none, lastStop := now }, hi, hdead', ⟨rfl, rfl, rfl, rfl, rfl⟩, Or.inl ⟨hagain, ?_⟩⟩
        simp only [hdead, hagain, if_true, and_self]
      · refine Or.inr ⟨e, { e with pid := none, lastStop := now, state := .failed }, hi, hdead', ⟨rfl, rfl, rfl, rfl, rfl⟩,
          Or.inr ⟨hagain, ?_⟩⟩
        simp only [hdead, hagain, if_true, if_false]
    · exact Or.inl ⟨by simp only [hdead, if_false, Bool.false_eq_true], not_dead hi hdead⟩

/-- The entry of a unit that is started again. -/
def reopened (e : SupEntry) (now : Nat) : SupEntry :=
  { e with restartCount := e.restartCount + 1, backoffUntil := now + backoff (e.restartCount + 1) }

/-- The supervisor as it starts the unit again. -/
def reopen (s : Supervisor) (i : Nat) (e : SupEntry) (now : Nat) : Supervisor :=
  (s.put i (reopened e now)).note (.autoStart i now (reopened e now).backoffUntil)

theorem reopen_self (hi : s.entries[i]? = some e) : (reopen s i e' now).entries[i]? = some (reopened e' now) :=
  put_self hi

theorem reopen_frame (hi : s.entries[i]? = some e) (hc : Cleared e e') : Frame i s (reopen s i e' now) := by
  have hput : Frame i s (s.put i (reopened e' now)) := put_frame hi hc.key
  exact hput.trans (note_frame _ (.autoStart i now (reopened e' now).backoffUntil))

/-- A unit that has lost its process is not ready, so that `start` creates one. -/
theorem autoStart_eq (hd : Distinct s) (hi : s.entries[i]? = some e) (hc : Cleared e e') (now : Nat) (fork : Spawn) :
    autoStart s i e' now fork = (Svc.spawn (reopen s i e' now) i (reopened e' now) now fork).1 := by
  have hstart := start_eq ((reopen_frame hi hc).distinct hd) (@reopen_self s i now e e' hi) now fork
  rw [if_neg (by simp [entryReady, pidAlive, reopened, hc.pid])] at hstart
  exact congrArg Prod.fst hstart

theorem Ok.autoStart (h : Ok s) (hi : s.entries[i]? = some e) (hc : Cleared e e') (hagain : Again now e)
    (hfree : StaleFree e fork) : Ok (autoStart s i e' now fork) := by
  have hle : e.backoffUntil ≤ (reopened e' now).backoffUntil := Nat.le_trans hagain.2 (Nat.le_add_right _ _)
  have hput : Ok (s.put i (reopened e' now)) := by
    exact h.put hi hc.key (fun _ _ hpid => absurd hc.pid hpid) hle
  have hnote : Ok (reopen s i e' now) := by
    refine ⟨hput.distinct, hput.told, fun j f a u hf hu => ?_, fun a u hu => ?_, hput.once⟩
    · rcases List.mem_cons.1 hu with hev | hu
      · obtain ⟨rfl, -, rfl⟩ := Event.autoStart.inj hev
        cases (reopen_self hi).symm.trans hf
        exact Nat.le_refl _
      · exact hput.window j f a u hf hu
    · exact Nat.le_trans (h.window i e a u hi hu) hagain.2
  rw [autoStart_eq h.distinct hi hc]
  refine hnote.spawn (reopen_self hi) now fun htype hready => hfree ?_ ?_
  · exact hc.type.symm.trans htype
  · exact hc.notifyReady.symm.trans hready

theorem autoStart_frame (hd : Distinct s) (hi : s.entries[i]? = some e) (hc : Cleared e e') (now : Nat) (fork : Spawn) :
    Frame i s (Svc.autoStart s i e' now fork) := by
  rw [autoStart_eq hd hi hc]
  exact (reopen_frame hi hc).trans (spawn_frame (reopen_self hi) now fork)

variable {now : Nat}

theorem Turn.frame (h : Turn now fork i s s') (hd : Distinct s) : Frame i s s' := by
  rcases h with ⟨rfl, -⟩ | ⟨e, e', hi, -, hc, ⟨-, rfl⟩ | ⟨-, rfl⟩⟩
  · exact Frame.refl i _
  · exact autoStart_frame hd hi hc now fork
  · exact put_frame hi hc.key

/-- The turn creates no process for a service that counts as ready. -/
def PlainTurn (now : Nat) (forks : Nat → Spawn) (s : Supervisor) (i : Nat) : Prop :=
  ∀ e, s.entries[i]? = some e → Dead s e → Again now e → StaleFree e (forks i)

theorem Turn.ok (h : Turn now (forks i) i s s') (hok : Ok s) (hplain : PlainTurn now forks s i) : Ok s' := by
  rcases h with ⟨rfl, -⟩ | ⟨e, e', hi, hdead, hc, ⟨hagain, rfl⟩ | ⟨-, rfl⟩⟩
  · exact hok
  · exact hok.autoStart hi hc hagain (hplain e hi hdead hagain)
  · exact hok.put hi hc.key (fun _ _ hpid => absurd hc.pid hpid) (Nat.le_of_eq hc.backoffUntil.symm)

theorem Turn.stale (h : Turn now (forks i) i s s') (hd : Distinct s) (hbad : ¬ PlainTurn now forks s i) : Stale s' i := by
  rw [PlainTurn] at hbad
  push Not at hbad
  obtain ⟨f, hf, hfdead, hfagain, hfree⟩ := hbad
  rcases h with ⟨-, hnot⟩ | ⟨e, e', hi, -, hc, ⟨-, rfl⟩ | ⟨hnot, -⟩⟩
  · exact absurd hfdead (hnot f hf)
  · cases hf.symm.trans hi
    rw [autoStart_eq hd hi hc]
    refine spawn_stale (reopen_self hi) now fun hall => hfree fun htype hready => hall ?_ ?_
    · exact hc.type.trans htype
    · exact hc.notifyReady.trans hready
  · cases hf.symm.trans hi
    exact absurd hfagain hnot

/-! ## What the invariant says of a report -/

theorem status_running {i : Nat} {st : Status} (hfind : findEntry s root svc = some i) (hi : s.entries[i]? = some e)
    (hst : status s root svc = some st) : st.state = .running ↔ entryReady s e = true := by
  simp only [status, hfind, hi, Option.bind_eq_bind, Option.bind_some, Option.pure_def, Option.some.injEq] at hst
  subst hst
  by_cases halive : pidAlive s e = true
  · by_cases hready : entryReady s e = true <;> simp [halive, hready]
  · have hnot : entryReady s e = false := by simp [entryReady, halive]
    rw [hnot]
    simp only [halive, if_false, Bool.false_eq_true, iff_false]
    split
    · simp
    · split <;> simp

theorem Ok.truthful (h : Ok s) : Truthful s := by
  intro root svc i e st hfind hi htype hst hrun
  have hready := (status_running hfind hi hst).1 hrun
  rw [entryReady, if_pos htype, Bool.and_eq_true] at hready
  refine h.told i e hi htype hready.2 fun hpid => ?_
  rw [pidAlive, hpid] at hready
  exact Bool.false_ne_true hready.1

theorem Stale.not_truthful {i : Nat} (hd : Distinct s) (h : Stale s i) : ¬ Truthful s := by
  obtain ⟨e, hi, htype, hready, halive, htold⟩ := h
  intro hall
  have hfind := hd.find hi
  obtain ⟨st, hst⟩ : ∃ st, status s e.root e.svc = some st := by
    simp only [status, hfind, hi, Option.bind_eq_bind, Option.bind_some]
    exact ⟨_, rfl⟩
  have hrun := (status_running hfind hi hst).2 (by rw [entryReady, if_pos htype, halive, hready]; rfl)
  rw [hall _ _ i e st hfind hi htype hst hrun] at htold
  cases htold

/-- It stays so while other units are attended to. -/
theorem Stale.frame {i j : Nat} (h : Stale s j) (hf : Frame i s s') (hne : j ≠ i) : Stale s' j := by
  obtain ⟨e, hj, htype, hready, halive, htold⟩ := h
  refine ⟨e, (hf.other j hne).trans hj, htype, hready, ?_, (hf.told j hne).trans htold⟩
  rw [pidAlive] at halive ⊢
  cases hpid : e.pid with
  | none => rw [hpid] at halive; cases halive
  | some pid =>
    rw [hpid] at halive
    exact hf.alive pid halive

/-! ## Loops -/

theorem sweep_fst (s : Supervisor) (turn : Supervisor → Nat → Supervisor × Bool) :
    (sweep s turn).1 = (List.range s.entries.length).foldl (fun s i => (turn s i).1) s := by
  have h : ∀ (l : List Nat) (r : Supervisor × Nat),
      (l.foldl (fun r i => ((turn r.1 i).1, if (turn r.1 i).2 then r.2 + 1 else r.2)) r).1 =
        l.foldl (fun s i => (turn s i).1) r.1 := by
    intro l
    induction l with
    | nil => exact fun _ => rfl
    | cons i l ih => exact fun r => ih _
  exact h _ _

variable {f : Supervisor → Nat → Supervisor}

/-- A unit whose turn is over is as it was left. -/
theorem stale_foldl (hf : ∀ s i, Turn now (forks i) i s (f s i)) {j : Nat} : ∀ (l : List Nat) (s : Supervisor),
    j ∉ l → Distinct s → Stale s j → Stale (l.foldl f s) j ∧ Distinct (l.foldl f s)
  | [], _, _, hd, h => ⟨h, hd⟩
  | i :: l, s, hj, hd, h => by
    have hframe := (hf s i).frame hd
    exact stale_foldl hf l _ (fun hl => hj (List.mem_cons_of_mem i hl)) (hframe.distinct hd)
      (h.frame hframe fun heq => hj (heq ▸ List.mem_cons_self))

/-- If what the loop leaves is truthful, then no turn created a process it should not have. -/
theorem plain_of_truthful (hf : ∀ s i, Turn now (forks i) i s (f s i)) : ∀ (l : List Nat) (s : Supervisor), l.Nodup →
    Ok s → Truthful (l.foldl f s) → Each f (PlainTurn now forks) s l
  | [], _, _, _, _ => trivial
  | i :: l, s, hnd, hok, htrue => by
    obtain ⟨hi, hnd⟩ := List.nodup_cons.1 hnd
    have hplain : PlainTurn now forks s i := by
      by_contra hbad
      have hframe := (hf s i).frame hok.distinct
      obtain ⟨hstale, hd⟩ := stale_foldl hf l _ hi (hframe.distinct hok.distinct) ((hf s i).stale hok.distinct hbad)
      exact hstale.not_truthful hd htrue
    exact ⟨hplain, plain_of_truthful hf l _ hnd ((hf s i).ok hok hplain) htrue⟩

theorem Ok.foldl (hok : Ok s) (hf : ∀ s i, Turn now (forks i) i s (f s i)) (l : List Nat)
    (hplain : Each f (PlainTurn now forks) s l) : Ok (l.foldl f s) :=
  Each.invariant Ok (fun s i hok hplain => (hf s i).ok hok hplain) s l hok hplain

/-- If the unit has run before and its window has passed, then its death has not been seen yet. -/
def Known (now : Nat) (s : Supervisor) (i : Nat) : Prop :=
  ∀ e, s.entries[i]? = some e → e.autoRestart = true → .spawned i ∈ s.trace → e.backoffUntil ≤ now → e.pid ≠ none

theorem spawn_trace (s : Supervisor) (i : Nat) (e : SupEntry) (now : Nat) (fork : Spawn) :
    ∃ new, (Svc.spawn s i e now fork).1.trace = new ++ s.trace := by
  cases fork with
  | fails => exact ⟨[], rfl⟩
  | exits | runs => exact ⟨[.spawned i], rfl⟩

/-- **A poll starts the units whose death it is the first to see**, and no others. -/
theorem retries_iff (hd : Distinct s) (now : Nat) (forks : Nat → Spawn) (i : Nat) :
    Retries s now forks i ↔ Known now s i := by
  have hturn := pollOne_turn s now forks i
  constructor
  · intro hretries e hi hauto hran hwindow hnone
    obtain ⟨u, new, htrace, hmem⟩ := hretries ⟨e, hi, hauto, hran, by rw [pidAlive, hnone]; rfl, hwindow⟩
    rcases hturn with ⟨heq, -⟩ | ⟨f, -, hf, hdead, -⟩
    · rw [heq] at htrace
      rw [List.self_eq_append_left.1 htrace] at hmem
      exact List.not_mem_nil hmem
    · cases hi.symm.trans hf
      have hsome := hdead.1
      rw [hnone] at hsome
      cases hsome
  · rintro hknown ⟨e, hi, hauto, hran, hdead, hwindow⟩
    have hpid : Dead s e := ⟨Option.isSome_iff_ne_none.2 (hknown e hi hauto hran hwindow), hdead⟩
    rcases hturn with ⟨-, hnot⟩ | ⟨f, f', hf, -, hc, ⟨-, heq⟩ | ⟨hnot, -⟩⟩
    · exact absurd hpid (hnot e hi)
    · rw [heq, autoStart_eq hd hf hc]
      obtain ⟨new, hnew⟩ := spawn_trace (reopen s i f' now) i (reopened f' now) now (forks i)
      refine ⟨(reopened f' now).backoffUntil, new ++ [.autoStart i now (reopened f' now).backoffUntil], ?_, by simp⟩
      rw [hnew, List.append_assoc]
      rfl
    · cases hi.symm.trans hf
      exact absurd ⟨hauto, hwindow⟩ hnot

/-! ## Histories -/

/-- A process that stays is created only while its service does not count as ready, and a poll finds no unit that it is to
start again with its death already seen. -/
def Plain (s : Supervisor) : Op → Prop
  | .start root svc _ fork => ∀ i e, findEntry s root svc = some i → s.entries[i]? = some e → entryReady s e = false →
      StaleFree e fork
  | .restart root svc _ fork => ∀ i e, findEntry s root svc = some i → s.entries[i]? = some e → StaleFree e fork
  | .notifyReady _ _ => True
  | .reap now forks =>
      Each (fun s i => (reapOne s now forks i).1) (PlainTurn now forks) s (List.range s.entries.length)
  | .poll now forks => Each (fun s i => (pollOne s now forks i).1)
      (fun s i => PlainTurn now forks s i ∧ Known now s i) s (List.range s.entries.length)
  | .processes _ => True

/-- What is promised of one call: what is reported after it is true, no window has seen two starts, and if it is a
poll, it starts every unit that is due when the loop comes to it. -/
structure Kept (s : Supervisor) (op : Op) : Prop where
  truthful : Truthful (step s op)
  once : OncePerWindow (step s op).trace
  retries : ∀ now forks, op = .poll now forks → Each (fun s i => (pollOne s now forks i).1)
    (fun s i => Retries s now forks i) s (List.range s.entries.length)

theorem Ok.start (h : Ok s) (hplain : Plain s (.start root svc now fork)) : Ok (Svc.start s root svc now fork).1 := by
  rw [Svc.start]
  split
  · exact h
  · split
    · exact h
    · rename_i i hfind _ e hi
      split
      · exact h
      · rename_i hready
        exact h.spawn hi now (hplain i e hfind hi (Bool.not_eq_true _ ▸ hready))

theorem start_stale (hd : Distinct s) (hbad : ¬ Plain s (.start root svc now fork)) :
    ∃ i, Stale (Svc.start s root svc now fork).1 i ∧ Distinct (Svc.start s root svc now fork).1 := by
  rw [Plain] at hbad
  push Not at hbad
  obtain ⟨i, e, hfind, hi, hready, hfree⟩ := hbad
  refine ⟨i, ?_⟩
  rw [Svc.start]
  simp only [hfind, hi, hready, Bool.false_eq_true, if_false]
  exact ⟨spawn_stale hi now hfree, (spawn_frame hi now fork).distinct hd⟩

/-- After a stop the unit has no process, and is otherwise the same. -/
theorem stop_entry (hd : Distinct s) (hfind : findEntry s root svc = some i) (hi : s.entries[i]? = some e) (now : Nat) :
    Distinct (stop s root svc now) ∧ findEntry (stop s root svc now) root svc = some i ∧
      ∃ e', (stop s root svc now).entries[i]? = some e' ∧ Cleared e e' := by
  obtain ⟨f, hf, rfl, rfl⟩ := findEntry_some hfind
  cases hi.symm.trans hf
  have hentries : (stop s e.root e.svc now).entries =
      (s.put i { e with pid := none, state := .disabled, lastStop := now }).entries := by
    rw [stop, hfind]
    simp only [hi]
  have hput : Frame i s (s.put i { e with pid := none, state := .disabled, lastStop := now }) := put_frame hi rfl
  have hdist : Distinct (stop s e.root e.svc now) := by
    rw [Distinct, hentries]
    exact hput.distinct hd
  have hself : (stop s e.root e.svc now).entries[i]? =
      some { e with pid := none, state := .disabled, lastStop := now } := by
    rw [hentries]
    exact put_self hi
  have hfound := hdist.find hself
  exact ⟨hdist, hfound, _, hself, ⟨rfl, rfl, rfl, rfl, rfl⟩⟩

theorem Cleared.staleFree (h : Cleared e e') : StaleFree e' fork ↔ StaleFree e fork := by
  rw [StaleFree, StaleFree, h.type, h.notifyReady]

theorem restart_plain (hd : Distinct s) :
    Plain s (.restart root svc now fork) ↔ Plain (stop s root svc now) (.start root svc now fork) := by
  cases hfind : findEntry s root svc with
  | none =>
    have hsame : stop s root svc now = s := by rw [stop, hfind]
    rw [hsame]
    exact ⟨fun _ i e hi => (by cases hfind.symm.trans hi), fun _ i e hi => (by cases hfind.symm.trans hi)⟩
  | some i =>
    obtain ⟨e, hi, -, -⟩ := findEntry_some hfind
    obtain ⟨-, hfind', e', hi', hc⟩ := stop_entry hd hfind hi now
    constructor
    · intro h j f hj hf _
      cases hfind'.symm.trans hj
      cases hi'.symm.trans hf
      exact hc.staleFree.2 (h i e hfind hi)
    · intro h j f hj hf
      cases hfind.symm.trans hj
      cases hi.symm.trans hf
      exact hc.staleFree.mp (h i e' hfind' hi' (by simp [entryReady, pidAlive, hc.pid]))

theorem Ok.notifyReady (h : Ok s) (root svc : Name) : Ok (Svc.notifyReady s root svc).1 := by
  rw [Svc.notifyReady]
  split
  · exact h
  · split
    · exact h
    · rename_i i _ _ e hi
      have hput : Frame i s (s.put i { e with
        notifyReady := true, state := if pidAlive s e then .running else e.state }) := put_frame hi rfl
      refine ⟨hput.distinct h.distinct, fun j f hf htype hready hpid => ?_, fun j f a u hf hu => ?_, h.once⟩
      · by_cases hj : j = i
        · exact if_pos hj.symm
        · refine (if_neg (Ne.symm hj)).trans (h.told j f ((hput.other j hj).symm.trans hf) htype hready hpid)
      · rcases List.mem_cons.1 hu with hev | hu
        · cases hev
        · by_cases hj : j = i
          · subst hj
            cases (put_self hi).symm.trans hf
            exact h.window j e a u hi hu
          · exact h.window j f a u ((hput.other j hj).symm.trans hf) hu

/-- **A plain call keeps the invariant.** -/
theorem Ok.step (h : Ok s) {op : Op} (hplain : Plain s op) : Ok (step s op) := by
  cases op with
  | start root svc now fork => exact h.start hplain
  | restart root svc now fork => exact (h.stop root svc now).start ((restart_plain h.distinct).1 hplain)
  | notifyReady root svc => exact h.notifyReady root svc
  | processes alive => exact ⟨h.distinct, h.told, h.window, h.once⟩
  | reap now forks =>
    rw [Svc.step, reap, sweep_fst]
    exact h.foldl (fun s i => reapOne_turn s now forks i) _ hplain
  | poll now forks =>
    rw [Svc.step, poll, sweep_fst]
    exact h.foldl (fun s i => pollOne_turn s now forks i) _ (each_and.1 hplain).1

/-- **Plain calls are the ones after which the promises are kept.** -/
theorem Ok.plain_iff (h : Ok s) (op : Op) : Plain s op ↔ Kept s op := by
  constructor
  · intro hplain
    have hok := h.step hplain
    refine ⟨hok.truthful, hok.once, fun now forks hop => ?_⟩
    subst hop
    refine Each.steps (P := fun s i => PlainTurn now forks s i ∧ Known now s i) Ok
      (fun s i hs hp => (pollOne_turn s now forks i).ok hs hp.1)
      (fun s i hs hp => (retries_iff hs.distinct now forks i).2 hp.2) _ _ h hplain
  · rintro ⟨htrue, -, hretries⟩
    cases op with
    | notifyReady root svc => trivial
    | processes alive => trivial
    | start root svc now fork =>
      by_contra hbad
      obtain ⟨i, hstale, hd⟩ := start_stale h.distinct hbad
      exact hstale.not_truthful hd htrue
    | restart root svc now fork =>
      rw [restart_plain h.distinct]
      by_contra hbad
      obtain ⟨i, hstale, hd⟩ := start_stale (h.stop root svc now).distinct hbad
      exact hstale.not_truthful hd htrue
    | reap now forks =>
      rw [Svc.step, reap, sweep_fst] at htrue
      exact plain_of_truthful (fun s i => reapOne_turn s now forks i) _ _ List.nodup_range h htrue
    | poll now forks =>
      rw [Svc.step, poll, sweep_fst] at htrue
      have hplain := plain_of_truthful (fun s i => pollOne_turn s now forks i) _ _ List.nodup_range h htrue
      refine each_and.2 ⟨hplain, ?_⟩
      have hboth := each_and.2 ⟨hplain, hretries now forks rfl⟩
      exact Each.steps (P := fun s i => PlainTurn now forks s i ∧ Retries s now forks i) Ok
        (fun s i hs hp => (pollOne_turn s now forks i).ok hs hp.1)
        (fun s i hs hp => (retries_iff hs.distinct now forks i).1 hp.2) _ _ h hboth

/-! ## From the start -/

theorem add_ok (h : Ok s ∧ s.trace = []) (u : UnitSpec) : Ok (add s u) ∧ (add s u).trace = [] := by
  rw [add]
  split
  · exact h
  · rename_i hnew
    push Not at hnew
    have hnone : findEntry s u.root u.svc = none := by simpa using hnew.2.2.2
    refine ⟨⟨?_, fun i e hi htype hready hpid => ?_, fun i e a w _ hw => ?_, h.1.once⟩, h.2⟩
    · rw [Distinct, List.map_append, List.map_singleton]
      refine List.nodup_append.2 ⟨h.1.distinct, List.nodup_singleton _, fun k hk k' hk' heq => ?_⟩
      obtain ⟨e, he, rfl⟩ := List.mem_map.1 hk
      rw [List.mem_singleton.1 hk'] at heq
      have hno := List.findIdx?_eq_none_iff.1 hnone e he
      rw [decide_eq_false_iff_not] at hno
      exact hno ⟨congrArg Prod.fst heq, congrArg Prod.snd heq⟩
    · rcases List.mem_append.1 (List.mem_of_getElem? hi) with hold | hnewest
      · obtain ⟨j, hj⟩ := List.mem_iff_getElem?.1 hold
        have htold := h.1.told j e hj htype hready hpid
        rw [h.2] at htold
        cases htold
      · rw [List.mem_singleton.1 hnewest] at hready
        cases hready
    · rw [h.2] at hw
      cases hw

theorem setUp_ok (alive : Nat → Bool) (units : List UnitSpec) : Ok (setUp alive units) := by
  have hstart : Ok ⟨[], alive, []⟩ ∧ (⟨[], alive, []⟩ : Supervisor).trace = [] :=
    ⟨⟨List.nodup_nil, fun _ _ hi => (by cases hi), fun _ _ _ _ hi => (by cases hi), trivial⟩, rfl⟩
  exact (List.foldlRecOn (motive := fun s => Ok s ∧ s.trace = []) units add hstart fun s hs u _ => add_ok hs u).1

/-- **The supervisor keeps its promises in exactly the histories of plain calls.**  Whatever units are set up and
whatever becomes of their processes: every report is true, no window sees two starts and every poll starts what
is due, after every call of the history, if and only if every process that stays is created for a service that does
not count as ready, and no poll comes to a unit that is due and whose death has been seen before. -/
theorem supervised_iff (alive : Nat → Bool) (units : List UnitSpec) (ops : List Op) :
    Each step Plain (setUp alive units) ops ↔ Each step Kept (setUp alive units) ops :=
  each_iff Ok (fun _ _ h hplain => h.step hplain) (fun _ op h => h.plain_iff op) _ ops (setUp_ok alive units)

/-! ## Two failures -/

/-- One unit, `web` in the root `/`, that notifies and is to be restarted. -/
def webUnit : UnitSpec := ⟨[47], [119, 101, 98], .notify, true, by decide, by decide⟩

/-- It runs, says that it is ready, dies, and is started again by a poll. -/
def readyTwice : List Op :=
  [.start [47] [119, 101, 98] 0 (.runs 100), .notifyReady [47] [119, 101, 98], .processes fun _ => false,
    .poll 5 fun _ => .runs 101]

/-- It dies again within its window, which a poll sees, and is polled once more when the window has passed. -/
def forgotten : List Op := readyTwice ++ [.processes fun _ => false, .poll 5 fun _ => .runs 102, .poll 60 fun _ => .runs 103]

/-- The supervisor after the calls. -/
def webAfter (ops : List Op) : Supervisor := ops.foldl step (setUp (fun _ => false) [webUnit])

/-- **The second process is reported running** before it has said anything; and once its death has been seen
inside the window, a poll long after the window starts nothing. -/
theorem web_fails : (status (webAfter readyTwice) [47] [119, 101, 98]).map Status.state = some .running ∧
      toldSince 0 (webAfter readyTwice).trace = false ∧
      (webAfter forgotten).entries.map SupEntry.backoffUntil = [6] ∧
      (webAfter forgotten).entries.map SupEntry.pid = [none] ∧
      .spawned 0 ∈ (webAfter forgotten).trace ∧ (webAfter forgotten).trace = (webAfter readyTwice).trace := by
  decide

end WuBuOS.Svc
