import WuBuOS.Lib.Loops

/-!
# The trip counts of loops

`jit/jit_minic_loop.c`, and what `compile_while_stmt` of `jit/jit_minic.c` makes of it.

A body is the list of the assignments that have been captured, and its first induction variable is the first one that
is written and, anywhere in the body, incremented or decremented by a constant.  The number of rounds is computed in
closed form.  It is right where the stride leads towards the bound (`trip_count_exact_iff`).  Where it leads away, the
code still divides the distance; but then the loop does no round at all, or it does not end.

The numbers are C's: an intermediate value that leaves the 64 bits is undefined, and the result is `none`.  So is the
33rd variable, for which `vi_get` returns a null pointer that `loop_analyze` writes through.
-/

namespace WuBuOS.Jit

open Loops
open Option (bind_eq_some_iff)

/-! ## The analysis -/

inductive LoopStmtKind where
  | assign | expr
  deriving DecidableEq

/-- `LoopStmt`: `var = a op b`, or with the constant `imm` for `b`. -/
structure LoopStmt where
  kind : LoopStmtKind
  var : String
  a : String
  b : String
  op : Char
  imm : Int

structure VarInfo where
  name : String
  isIv : Bool
  stride : Int
  written : Bool

def loopMaxVars : Nat := 32

/-- A 64-bit number, where it is one. -/
def int64 (v : Int) : Option Int := if -2 ^ 63 ≤ v ∧ v < 2 ^ 63 then some v else none

/-- The table with the entry of the name changed, which may be a new one. -/
def viModify (name : String) (f : VarInfo → VarInfo) : List VarInfo → List VarInfo
  | [] => [f ⟨name, false, 0, false⟩]
  | v :: vs => if v.name = name then f v :: vs else v :: viModify name f vs

/-- What is done with `vi_get(name)`. -/
def viGet (name : String) (f : VarInfo → VarInfo) (vs : List VarInfo) : Option (List VarInfo) :=
  let vs' := viModify name f vs
  if vs'.length ≤ loopMaxVars then some vs' else none

/-- `var = var + imm` or `var = var - imm`. -/
def LoopStmt.isIncrement (s : LoopStmt) : Bool :=
  s.kind = .assign && s.a ≠ "" && s.a = s.var && s.b = "" && (s.op = '+' || s.op = '-')

def LoopStmt.stride (s : LoopStmt) : Int := if s.op = '+' then s.imm else -s.imm

/-- A round of the first loop of `loop_analyze`. -/
def loopWrite (vs : List VarInfo) (s : LoopStmt) : Option (List VarInfo) :=
  viGet s.var (fun v => { v with written := true }) vs

/-- A round of the second. -/
def loopDetect (vs : List VarInfo) (s : LoopStmt) : Option (List VarInfo) :=
  if s.isIncrement then do
    let stride ← int64 s.stride
    viGet s.var (fun v => { v with isIv := true, stride := stride }) vs
  else some vs

def loopAnalyze (lb : List LoopStmt) : Option (List VarInfo) := do
  let vs ← lb.foldlM loopWrite []
  lb.foldlM loopDetect vs

/-- `(d + m - 1) / m`. -/
def ceilDiv (d m : Int) : Option Int := do
  let x ← int64 (d + m)
  let y ← int64 (x - 1)
  some (y.tdiv m)

/-- `loop_trip_count`; `N` is `<=`. -/
def loopTripCount (iv : VarInfo) (op : Char) (bound init : Int) : Option Int :=
  let s := iv.stride
  if ¬iv.isIv ∨ s = 0 then some (-1)
  else if op = '<' then
    if 0 < s then do
      let d ← int64 (bound - init)
      if d ≤ 0 then some 0 else ceilDiv d s
    else do
      let d ← int64 (init - bound)
      if d < 0 then some 0 else (int64 (-s)).bind (ceilDiv d)
  else if op = 'N' then
    if 0 < s then do
      let d ← (int64 (bound - init)).bind fun d => int64 (d + 1)
      if d ≤ 0 then some 0 else ceilDiv d s
    else do
      let d ← (int64 (init - bound)).bind fun d => int64 (d + 1)
      if d < 0 then some 0 else (int64 (-s)).bind (ceilDiv d)
  else if op = '>' then
    if s < 0 then do
      let d ← int64 (init - bound)
      if d ≤ 0 then some 0 else (int64 (-s)).bind (ceilDiv d)
    else do
      let d ← int64 (bound - init)
      if d < 0 then some 0 else ceilDiv d s
  else some (-1)

/-- What `minic_loop_analyze` reports: the first induction variable with its stride, where there is one. -/
structure LoopReport where
  iv : Option (String × Int)
  tripCount : Int
  deriving DecidableEq

def minicLoopAnalyze (lb : List LoopStmt) (init : Int) (op : Char) (bound : Int) : Option LoopReport := do
  let vs ← loopAnalyze lb
  match vs.find? (·.isIv) with
  | none => some ⟨none, -1⟩
  | some v => do
    let n ← loopTripCount v op bound init
    -- `return n >= 0 ? n : -1`
    some ⟨some (v.name, v.stride), if 0 ≤ n then n else -1⟩

/-! ## The first induction variable -/

/-- The first variable that is written and incremented somewhere. -/
def firstIv (lb : List LoopStmt) : Option String :=
  (lb.map (·.var)).find? fun name => lb.any fun s => s.isIncrement && s.var = name

/-- The variable is written once, and `stride` is added to it. -/
def UpdatesOnce (lb : List LoopStmt) (name : String) (stride : Int) : Prop :=
  ∃ s, lb.filter (fun t => t.var = name) = [s] ∧ s.isIncrement = true ∧ s.stride = stride

variable {lb : List LoopStmt} {name : String} {f : VarInfo → VarInfo} {g : String → VarInfo}

theorem viModify_map (hg : ∀ n, (g n).name = n) : ∀ {names : List String}, name ∈ names → names.Nodup →
      viModify name f (names.map g) = names.map fun n => if n = name then f (g n) else g n
  | [], h, _ => absurd h List.not_mem_nil
  | x :: names, h, hnd => by
    obtain ⟨hx, hnd⟩ := List.nodup_cons.1 hnd
    rw [List.map_cons, viModify, hg, List.map_cons]
    by_cases hxn : x = name
    · subst hxn
      rw [if_pos rfl, if_pos rfl]
      congr 1
      refine List.map_congr_left fun n hn => (if_neg ?_).symm
      rintro rfl
      exact hx hn
    · rw [if_neg hxn, if_neg hxn, viModify_map hg ((List.mem_cons.1 h).resolve_left (Ne.symm hxn)) hnd]

theorem viModify_map_new (hg : ∀ n, (g n).name = n) : ∀ {names : List String}, name ∉ names →
      viModify name f (names.map g) = names.map g ++ [f ⟨name, false, 0, false⟩]
  | [], _ => rfl
  | x :: names, h => by
    rw [List.mem_cons, not_or] at h
    rw [List.map_cons, viModify, hg, if_neg (Ne.symm h.1), viModify_map_new hg h.2]
    rfl

/-- The variables, in the order in which they are written first. -/
def writtenFirst (names : List String) (lb : List LoopStmt) : List String :=
  lb.foldl (fun names s => if s.var ∈ names then names else names ++ [s.var]) names

theorem writtenFirst_cons (names : List String) (s : LoopStmt) (lb : List LoopStmt) : writtenFirst names (s :: lb) =
    writtenFirst (if s.var ∈ names then names else names ++ [s.var]) lb := rfl

theorem nodup_insert {names : List String} (h : names.Nodup) (name : String) :
    (if name ∈ names then names else names ++ [name]).Nodup := by
  split
  case isTrue => exact h
  case isFalse hn =>
    refine List.nodup_append.2 ⟨h, by simp, fun a ha b hb => ?_⟩
    rintro rfl
    exact hn (List.mem_singleton.1 hb ▸ ha)

theorem nodup_writtenFirst : ∀ {lb : List LoopStmt} {names : List String}, names.Nodup → (writtenFirst names lb).Nodup
  | [], _, h => h
  | s :: lb, _, h => @nodup_writtenFirst lb _ (nodup_insert h s.var)

/-- What is found first does not depend on the repetitions. -/
theorem find_writtenFirst (P : String → Bool) : ∀ (lb : List LoopStmt) (names : List String),
    (writtenFirst names lb).find? P = (names ++ lb.map (·.var)).find? P
  | [], names => by rw [List.map_nil, List.append_nil]; rfl
  | s :: lb, names => by
    rw [writtenFirst_cons, find_writtenFirst P lb]
    split
    case isTrue hs =>
      rw [List.map_cons, List.find?_append, List.find?_append, List.find?_cons]
      cases hP : P s.var with
      | false => rfl
      | true =>
        have hfound : (names.find? P).isSome := List.find?_isSome.2 ⟨s.var, hs, hP⟩
        rw [Option.or_of_isSome hfound, Option.or_of_isSome hfound]
    case isFalse => rw [List.append_assoc]; rfl

theorem subset_writtenFirst : ∀ (lb : List LoopStmt) {names : List String} {name : String}, name ∈ names →
    name ∈ writtenFirst names lb
  | [], _, _, h => h
  | s :: lb, names, name, h => by
    rw [writtenFirst_cons]
    refine subset_writtenFirst lb ?_
    split
    · exact h
    · exact List.mem_append_left _ h

theorem mem_writtenFirst : ∀ {lb : List LoopStmt} {names : List String}, ∀ s ∈ lb, s.var ∈ writtenFirst names lb
  | t :: lb, names, s, h => by
    rw [writtenFirst_cons]
    rcases List.mem_cons.1 h with rfl | h
    · refine subset_writtenFirst lb ?_
      split
      case isTrue hs => exact hs
      case isFalse => simp
    · exact mem_writtenFirst s h

/-- An entry after the first loop. -/
def writtenVar (name : String) : VarInfo := ⟨name, false, 0, true⟩

theorem loopWrite_all : ∀ {lb : List LoopStmt} {names : List String} {vs : List VarInfo}, names.Nodup →
    lb.foldlM loopWrite (names.map writtenVar) = some vs → vs = (writtenFirst names lb).map writtenVar
  | [], _, _, _, h => (Option.some.inj h).symm
  | s :: lb, names, vs, hnd, h => by
    rw [List.foldlM_cons] at h
    obtain ⟨vs1, h1, h2⟩ := bind_eq_some_iff.1 h
    rw [loopWrite, viGet, Option.ite_none_right_eq_some] at h1
    have hvs : vs1 = (if s.var ∈ names then names else names ++ [s.var]).map writtenVar := by
      rw [← Option.some.inj h1.2]
      split
      case isTrue hs =>
        rw [viModify_map (fun _ => rfl) hs hnd]
        exact List.map_congr_left fun n _ => ite_self _
      case isFalse hs =>
        rw [viModify_map_new (fun _ => rfl) hs, List.map_append]
        rfl
    rw [hvs] at h2
    exact @loopWrite_all lb _ vs (nodup_insert hnd s.var) h2

/-- An entry after the second loop. -/
def detectedVar (lb : List LoopStmt) (name : String) : VarInfo where
  name := name
  isIv := lb.any fun s => s.isIncrement && s.var = name
  stride := lb.foldl (fun stride s => if s.isIncrement && s.var = name then s.stride else stride) 0
  written := true

theorem detectedVar_concat (lb : List LoopStmt) (s : LoopStmt) (name : String) : detectedVar (lb ++ [s]) name =
    if s.isIncrement && s.var = name then { detectedVar lb name with isIv := true, stride := s.stride }
    else detectedVar lb name := by
  cases h : s.isIncrement && s.var = name <;>
    simp only [detectedVar, List.any_append, List.any_cons, List.any_nil, List.foldl_append, List.foldl_cons,
      List.foldl_nil, h, Bool.or_false, Bool.or_true, if_true, Bool.false_eq_true, if_false]

theorem loopDetect_all {names : List String} (hnd : names.Nodup) : ∀ {lb done : List LoopStmt} {vs : List VarInfo},
    (∀ s ∈ lb, s.var ∈ names) → lb.foldlM loopDetect (names.map (detectedVar done)) = some vs →
      vs = names.map (detectedVar (done ++ lb))
  | [], done, _, _, h => by rw [List.append_nil]; exact (Option.some.inj h).symm
  | s :: lb, done, vs, hmem, h => by
    rw [List.foldlM_cons] at h
    obtain ⟨vs1, h1, h2⟩ := bind_eq_some_iff.1 h
    have hvs : vs1 = names.map (detectedVar (done ++ [s])) := by
      rw [loopDetect] at h1
      cases hi : s.isIncrement with
      | false =>
        rw [hi, if_neg Bool.false_ne_true] at h1
        rw [← Option.some.inj h1]
        exact List.map_congr_left fun n _ => by rw [detectedVar_concat, hi]; rfl
      | true =>
        rw [hi, if_pos rfl] at h1
        obtain ⟨stride, hstride, h1⟩ := bind_eq_some_iff.1 h1
        rw [int64, Option.ite_none_right_eq_some] at hstride
        cases hstride.2
        rw [viGet, Option.ite_none_right_eq_some] at h1
        rw [← Option.some.inj h1.2, viModify_map (fun _ => rfl) (hmem s List.mem_cons_self) hnd]
        refine List.map_congr_left fun n _ => ?_
        rw [detectedVar_concat, hi, Bool.true_and]
        by_cases hn : n = s.var
        · rw [if_pos hn, if_pos (decide_eq_true hn.symm)]
        · rw [if_neg hn, if_neg (by simpa using Ne.symm hn)]
    rw [hvs] at h2
    have := loopDetect_all hnd (fun t ht => hmem t (List.mem_cons_of_mem s ht)) h2
    rwa [List.append_assoc] at this

/-- What the analysis has found. -/
theorem loopAnalyze_eq {vs : List VarInfo} (h : loopAnalyze lb = some vs) :
    vs = (writtenFirst [] lb).map (detectedVar lb) := by
  obtain ⟨vs1, h1, h2⟩ := bind_eq_some_iff.1 h
  have hvs := @loopWrite_all lb [] vs1 List.nodup_nil h1
  rw [hvs] at h2
  exact @loopDetect_all _ (nodup_writtenFirst List.nodup_nil) lb [] vs mem_writtenFirst h2

theorem find_isIv {vs : List VarInfo} (h : loopAnalyze lb = some vs) :
    vs.find? (·.isIv) = (firstIv lb).map (detectedVar lb) := by
  rw [loopAnalyze_eq h, List.find?_map, firstIv, ← List.nil_append (lb.map _), ← find_writtenFirst]
  rfl

/-- With one update, its stride is the one that is reported. -/
theorem UpdatesOnce.stride_eq {stride : Int} (h : UpdatesOnce lb name stride) :
    (detectedVar lb name).stride = stride := by
  obtain ⟨s, hs, hi, rfl⟩ := h
  have hfold : (detectedVar lb name).stride =
      (lb.filter fun t => t.var = name).foldl (fun stride t => if t.isIncrement then t.stride else stride) 0 := by
    rw [List.foldl_filter]
    simp only [detectedVar]
    congr 1
    funext stride t
    cases t.isIncrement <;> by_cases ht : t.var = name <;> simp [ht]
  rw [hfold, hs, List.foldl_cons, List.foldl_nil, if_pos hi]

/-! ## The closed form -/

/-- `iv op bound`. -/
def Continues (op : Char) (bound iv : Int) : Prop :=
  if op = '<' then iv < bound else if op = 'N' then iv ≤ bound else bound < iv

/-- What is reported for `while (iv op bound) iv += stride`: a number is that of the rounds, and a loop that does not
end has none. -/
def TripExact (op : Char) (bound stride init tripCount : Int) : Prop :=
  (0 ≤ tripCount → Rounds (Continues op bound) (· + stride) tripCount.toNat init) ∧
    (Endless (Continues op bound) (· + stride) init → tripCount = -1)

theorem tripExact_iff {op : Char} {bound stride init t : Int} (ht : 0 ≤ t) :
    TripExact op bound stride init t ↔ Rounds (Continues op bound) (· + stride) t.toNat init := by
  constructor
  · exact fun h => h.1 ht
  · exact fun h => ⟨fun _ => h, fun hend => absurd h (hend _)⟩

/-- The stride leads towards the bound. -/
def Toward (op : Char) (stride : Int) : Prop := if op = '>' then stride < 0 else 0 < stride

theorem ceilDiv_some {d m n : Int} (hd : 0 ≤ d) (hm : 0 < m) (h : ceilDiv d m = some n) : n = (d + m - 1) / m := by
  obtain ⟨x, hx, h⟩ := bind_eq_some_iff.1 h
  obtain ⟨y, hy, h⟩ := bind_eq_some_iff.1 h
  rw [int64, Option.ite_none_right_eq_some] at hx hy
  cases hx.2
  cases hy.2
  rw [← Option.some.inj h]
  exact Int.tdiv_eq_ediv_of_nonneg (by omega)

theorem int64_some {v w : Int} (h : int64 v = some w) : w = v := by
  rw [int64, Option.ite_none_right_eq_some] at h
  exact (Option.some.inj h.2).symm

/-- `-s` does not change where it is a number. -/
theorem of_negated {p : Prop} [Decidable p] {d m n : Int}
    (h : (if p then some 0 else (int64 m).bind (ceilDiv d)) = some n) : (if p then some 0 else ceilDiv d m) = some n := by
  split at h
  case isTrue hp => rwa [if_pos hp]
  case isFalse hp =>
    obtain ⟨w, hw, h⟩ := bind_eq_some_iff.1 h
    rw [if_neg hp, ← int64_some hw]
    exact h

/-- Where the branches with the stride towards the bound compute the distance, they count the rounds. -/
theorem rounds_of_closed {c : Int → Prop} {f d : Int → Int} {m n v : Int} (hm : 0 < m) (hc : ∀ v, c v ↔ 0 < d v)
    (hd : ∀ v, d (f v) = d v - m) (h : (if d v ≤ 0 then some 0 else ceilDiv (d v) m) = some n) :
    0 ≤ n ∧ Rounds c f n.toNat v := by
  have hn : n = if d v ≤ 0 then 0 else (d v + m - 1) / m := by
    split at h
    case isTrue hle => rw [if_pos hle, ← Option.some.inj h]
    case isFalse hle => rw [if_neg hle, ceilDiv_some (by omega) hm h]
  have hnonneg : 0 ≤ n := by
    rw [hn]
    split
    · exact Int.le_refl 0
    · exact Int.ediv_nonneg (by omega) (by omega)
  exact ⟨hnonneg, rounds_of_distance hm hc hd _ _ (by rw [Int.toNat_of_nonneg hnonneg]; exact hn)⟩

/-- The other branches divide the distance the other way, which gives 0 only up to the distance 0. -/
theorem away_zero_iff {d m n : Int} (hm : 0 < m) (h : (if d < 0 then some 0 else ceilDiv d m) = some n) :
    0 ≤ n ∧ (n = 0 ↔ d ≤ 0) := by
  split at h
  case isTrue hd =>
    cases h
    exact ⟨Int.le_refl 0, by omega⟩
  case isFalse hd =>
    rw [ceilDiv_some (by omega) hm h]
    rcases Int.lt_or_eq_of_le (Int.not_lt.1 hd) with hpos | rfl
    · have : 1 ≤ (d + m - 1) / m := (Int.le_ediv_iff_mul_le hm).2 (by omega)
      omega
    · have : (0 + m - 1) / m = 0 := Int.ediv_eq_zero_of_lt (by omega) (by omega)
      omega

variable {iv : VarInfo} {op : Char} {bound init n : Int}

/-- The number of rounds, where the stride leads towards the bound. -/
theorem trips_toward (hiv : iv.isIv = true) (hs : iv.stride ≠ 0) (hop : op = '<' ∨ op = '>' ∨ op = 'N')
    (ht : Toward op iv.stride) (h : loopTripCount iv op bound init = some n) :
    0 ≤ n ∧ Rounds (Continues op bound) (· + iv.stride) n.toNat init := by
  have hnot : ¬(¬iv.isIv = true ∨ iv.stride = 0) := by simp [hiv, hs]
  rcases hop with rfl | rfl | rfl
  · have hpos : 0 < iv.stride := ht
    rw [loopTripCount, if_neg hnot, if_pos rfl, if_pos hpos] at h
    obtain ⟨d, hd, h⟩ := bind_eq_some_iff.1 h
    obtain rfl := int64_some hd
    refine rounds_of_closed (d := fun v => bound - v) hpos (fun v => ?_) (fun v => ?_) h
    · show v < bound ↔ 0 < bound - v
      omega
    · omega
  · have hneg : iv.stride < 0 := ht
    rw [loopTripCount, if_neg hnot, if_neg (by decide), if_neg (by decide), if_pos rfl, if_pos hneg] at h
    obtain ⟨d, hd, h⟩ := bind_eq_some_iff.1 h
    obtain rfl := int64_some hd
    refine rounds_of_closed (d := fun v => v - bound) (m := -iv.stride) (by omega) (fun v => ?_) (fun v => ?_)
      (of_negated h)
    · show bound < v ↔ 0 < v - bound
      omega
    · omega
  · have hpos : 0 < iv.stride := ht
    rw [loopTripCount, if_neg hnot, if_neg (by decide), if_pos rfl, if_pos hpos] at h
    obtain ⟨d, hd, h⟩ := bind_eq_some_iff.1 h
    obtain ⟨e, he, hd⟩ := bind_eq_some_iff.1 hd
    obtain rfl := int64_some he
    obtain rfl := int64_some hd
    refine rounds_of_closed (d := fun v => bound - v + 1) hpos (fun v => ?_) (fun v => ?_) h
    · show v ≤ bound ↔ 0 < bound - v + 1
      omega
    · omega

/-- Where it leads away, there is no round or no end; what is reported is right only at the bound of a strict
comparison. -/
theorem trips_away (hiv : iv.isIv = true) (hs : iv.stride ≠ 0) (hop : op = '<' ∨ op = '>' ∨ op = 'N')
    (ht : ¬Toward op iv.stride) (h : loopTripCount iv op bound init = some n) :
    0 ≤ n ∧ (Rounds (Continues op bound) (· + iv.stride) n.toNat init ↔ op ≠ 'N' ∧ init = bound) := by
  have hnot : ¬(¬iv.isIv = true ∨ iv.stride = 0) := by simp [hiv, hs]
  rcases hop with rfl | rfl | rfl
  · have hneg : ¬0 < iv.stride := ht
    rw [loopTripCount, if_neg hnot, if_pos rfl, if_neg hneg] at h
    obtain ⟨d, hd, h⟩ := bind_eq_some_iff.1 h
    obtain rfl := int64_some hd
    obtain ⟨hnonneg, hzero⟩ := away_zero_iff (by omega) (of_negated h)
    have haway : ∀ v, Continues '<' bound v → Continues '<' bound (v + iv.stride) := by
      show ∀ v, v < bound → v + iv.stride < bound
      omega
    have hcont : Continues '<' bound init ↔ init < bound := Iff.rfl
    rw [rounds_iff_of_away haway, hcont]
    simp
    omega
  · have hpos : ¬iv.stride < 0 := ht
    rw [loopTripCount, if_neg hnot, if_neg (by decide), if_neg (by decide), if_pos rfl, if_neg hpos] at h
    obtain ⟨d, hd, h⟩ := bind_eq_some_iff.1 h
    obtain rfl := int64_some hd
    obtain ⟨hnonneg, hzero⟩ := away_zero_iff (by omega) h
    have haway : ∀ v, Continues '>' bound v → Continues '>' bound (v + iv.stride) := by
      show ∀ v, bound < v → bound < v + iv.stride
      omega
    have hcont : Continues '>' bound init ↔ bound < init := Iff.rfl
    rw [rounds_iff_of_away haway, hcont]
    simp
    omega
  · have hneg : ¬0 < iv.stride := ht
    rw [loopTripCount, if_neg hnot, if_neg (by decide), if_pos rfl, if_neg hneg] at h
    obtain ⟨d, hd, h⟩ := bind_eq_some_iff.1 h
    obtain ⟨e, he, hd⟩ := bind_eq_some_iff.1 hd
    obtain rfl := int64_some he
    obtain rfl := int64_some hd
    obtain ⟨hnonneg, hzero⟩ := away_zero_iff (by omega) (of_negated h)
    have haway : ∀ v, Continues 'N' bound v → Continues 'N' bound (v + iv.stride) := by
      show ∀ v, v ≤ bound → v + iv.stride ≤ bound
      omega
    have hcont : Continues 'N' bound init ↔ init ≤ bound := Iff.rfl
    rw [rounds_iff_of_away haway, hcont]
    simp
    omega

/-- **Trip counts**: for a body that updates its first induction variable once, what is reported is exact just where
the stride leads towards the bound, and at the bound of a strict comparison. -/
theorem trip_count_exact_iff (lb : List LoopStmt) (op : Char) (hop : op = '<' ∨ op = '>' ∨ op = 'N')
    (init bound : Int) (name : String) (stride : Int) (hfirst : firstIv lb = some name)
    (honce : UpdatesOnce lb name stride) (hs : stride ≠ 0) (r : LoopReport)
    (h : minicLoopAnalyze lb init op bound = some r) :
    r.iv = some (name, stride) ∧
      (TripExact op bound stride init r.tripCount ↔ Toward op stride ∨ op ≠ 'N' ∧ init = bound) := by
  obtain ⟨vs, hvs, h⟩ := bind_eq_some_iff.1 h
  rw [find_isIv hvs, hfirst, Option.map_some] at h
  obtain ⟨n, hn, h⟩ := bind_eq_some_iff.1 h
  have hstride := honce.stride_eq
  have hiv : (detectedVar lb name).isIv = true :=
    List.find?_some (p := fun name => lb.any fun s => s.isIncrement && s.var = name) hfirst
  have hne : (detectedVar lb name).stride ≠ 0 := by rwa [hstride]
  cases h
  refine ⟨by rw [hstride]; rfl, ?_⟩
  by_cases ht : Toward op stride
  · obtain ⟨hnonneg, hrounds⟩ := trips_toward hiv hne hop (by rwa [hstride]) hn
    rw [hstride] at hrounds
    rw [if_pos hnonneg, tripExact_iff hnonneg]
    exact iff_of_true hrounds (.inl ht)
  · obtain ⟨hnonneg, hrounds⟩ := trips_away hiv hne hop (by rwa [hstride]) hn
    rw [hstride] at hrounds
    rw [if_pos hnonneg, tripExact_iff hnonneg, hrounds]
    simp [ht]

/-- `i = i + 1`. -/
def countUp : LoopStmt := ⟨.assign, "i", "i", "", '+', 1⟩

theorem trip_count_exact_iff_ten :
    minicLoopAnalyze [countUp] 0 '<' 10 = some ⟨some ("i", 1), 10⟩ ∧ TripExact '<' 10 1 0 10 :=
  ⟨by decide, (trip_count_exact_iff [countUp] '<' (.inl rfl) 0 10 "i" 1 (by decide) ⟨countUp, rfl, rfl, rfl⟩
    (by decide) ⟨some ("i", 1), 10⟩ (by decide)).2.2 (.inl Int.one_pos)⟩

/-- `i = i - 1`. -/
def countDown : LoopStmt := ⟨.assign, "i", "i", "", '-', 1⟩

/-- Downwards, `while (i < 10)` from 0 does not end and is reported with 0 rounds; `while (i < 0)` from 10 does no round
and is reported with 10. -/
theorem trips_away_wrong : minicLoopAnalyze [countDown] 0 '<' 10 = some ⟨some ("i", -1), 0⟩ ∧
    ¬TripExact '<' 10 (-1) 0 0 ∧
    minicLoopAnalyze [countDown] 10 '<' 0 = some ⟨some ("i", -1), 10⟩ ∧ ¬TripExact '<' 0 (-1) 10 10 := by
  refine ⟨by decide, fun h => ?_, by decide, fun h => ?_⟩
  · exact rounds_zero.mp (h.1 (Int.le_refl 0)) (show (0 : Int) < 10 by decide)
  · exact absurd (rounds_succ.mp (h.1 (by decide))).1 (show ¬(10 : Int) < 0 by decide)

end WuBuOS.Jit
