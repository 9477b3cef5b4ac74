import WuBuOS.Runtime.Styx.Fids

/-!
# Listing a directory

A client lists a directory by reading it: at first from its beginning, and then always from where the last reply has
ended, until there is nothing more.  The children of a directory are what is mounted below it and what the host has
there.  `styxfs_read_cb` puts both into one list, encodes an entry after the other, and passes over those that end at
the offset or before.

The replies fit together, whatever the list is (`exists_listing`); so what a client gets is the list.  It is that of
the children unless one of their names has 64 bytes or more, or two mounts are below the same child
(`listing_exact_iff`): a name that is too long is left out or cut off, and only the entries of the host are compared
with those that are in the list already.
-/

namespace WuBuOS.Styx

open Bytes Cap

variable {H : Type}

/-! ## Children -/

/-- The names that are no children. -/
def IsDots (name : CStr) : Prop := name = text "." ∨ name = text ".."

instance (name : CStr) : Decidable (IsDots name) := inferInstanceAs (Decidable (_ ∨ _))

/-- What the path of everything below a directory begins with, and a slash behind it. -/
def basePath (path : CStr) : CStr := if path = root then [] else path

/-- The child that something is mounted at or below. -/
def mountChild (path : CStr) (m : Mount) : Option CStr :=
  if (basePath path ++ root).isPrefixOf m.path then
    let name := (m.path.drop ((basePath path).length + 1)).takeWhile (· != slash)
    if name = [] then none else some name
  else none

/-- The children that the host has. -/
def hostNames (entries : List (CStr × Bool)) : List CStr := (entries.map Prod.fst).filter fun name => ¬ IsDots name

/-- **The children of a directory**, some of them more than once. -/
def children (mounts : List Mount) (path : CStr) (entries : List (CStr × Bool)) : List CStr :=
  mounts.filterMap (mountChild path) ++ hostNames entries

/-- How long the record of a name is. -/
def recordLength (name : CStr) : Nat := 61 + name.length

/-- Complete records, one behind the other, with these names. -/
inductive Records : List UInt8 → List CStr → Prop
  | nil : Records [] []
  | cons {name : CStr} {bytes : List UInt8} {names : List CStr} (now : Nat) (dir : Bool) (qidpath : Nat)
      (hname : name.length ≤ 255) (h : Records bytes names) :
      Records (dirEncode 512 now name dir qidpath ++ bytes) (name :: names)

/-- **A listing**: the replies to reads of `count` bytes, each from where the last one has ended, until one is
empty. -/
inductive Listing (host : Host H) (fid count : Nat) : Nat → FsServer H → List UInt8 → Prop
  | done {offset : Nat} {srv srv' : FsServer H} {buf : Buf}
      (h : styxfsReadCb host fid offset count srv = (.ok (0, buf), srv')) : Listing host fid count offset srv []
  | page {offset n : Nat} {srv srv' : FsServer H} {buf : Buf} {bytes : List UInt8}
      (h : styxfsReadCb host fid offset count srv = (.ok (n, buf), srv')) (hn : 0 < n)
      (rest : Listing host fid count (offset + n) srv' bytes) :
      Listing host fid count offset srv (slice buf 0 n ++ bytes)

/-- What reads of a directory do to the host: its entries and the time are asked for. -/
inductive Asked (host : Host H) (path : CStr) : FsServer H → FsServer H → Prop
  | refl (srv : FsServer H) : Asked host path srv srv
  | time {srv srv' : FsServer H} (h : Asked host path (hostCall host .time srv).2 srv') : Asked host path srv srv'
  | opendir {srv srv' : FsServer H} (h : Asked host path (hostCall host (.opendir path) srv).2 srv') :
      Asked host path srv srv'

/-- The entries of a directory of the host; there are none if it cannot be opened. -/
def hostEntries (host : Host H) (path : CStr) (srv : FsServer H) : List (CStr × Bool) :=
  let d := (hostCall host (.opendir path) srv).1
  if d.ok then d.entries else []

/-- **The directory is not changed** while it is listed. -/
def Unchanged (host : Host H) (path : CStr) (entries : List (CStr × Bool)) (srv : FsServer H) : Prop :=
  ∀ srv', Asked host path srv srv' → hostEntries host path srv' = entries

/-- A listing has one complete record for each of the children, and nothing else. -/
def ListsExactly (host : Host H) (fid count : Nat) (srv : FsServer H) (kids : List CStr) : Prop :=
  ∃ bytes names, Listing host fid count 0 srv bytes ∧ Records bytes names ∧
    names.Nodup ∧ ∀ name, name ∈ names ↔ name ∈ kids

/-- **When it does.**  Names are shorter than 64 bytes, and what is mounted is below different children; in a directory
with a path of one character that is not a slash, the host has all of them. -/
structure Listable (mounts : List Mount) (path : CStr) (entries : List (CStr × Bool)) : Prop where
  short : ∀ name ∈ children mounts path entries, name.length < 64
  once : path.length ≠ 1 ∨ path = root → ((mounts.filterMap (mountChild path)).take 256).Nodup
  found : path.length = 1 → path ≠ root → ∀ name ∈ mounts.filterMap (mountChild path), name ∈ hostNames entries

/-! ## Records -/

/-- What is in a record in front of the name. -/
def recordHead (now n : Nat) (dir : Bool) (qidpath : Nat) : List UInt8 :=
  le 2 (59 + n) ++ le 2 0 ++ le 4 0 ++ le 1 (if dir then 0x80 else 0) ++ le 4 1 ++ le 8 qidpath ++
    le 4 (if dir then 0o40755 else 0o100644) ++ le 4 now ++ le 4 now ++ le 8 0

@[simp]
theorem length_recordHead (now n : Nat) (dir : Bool) (qidpath : Nat) : (recordHead now n dir qidpath).length = 41 := by
  simp [recordHead, length_le]

variable {name : CStr} {names names' : List CStr} {bytes bytes' : List UInt8}

theorem dirEncode_eq (h : name.length ≤ 255) (now : Nat) (dir : Bool) (qidpath : Nat) :
    dirEncode 512 now name dir qidpath = recordHead now name.length dir qidpath ++
        (putstr name ++ (putstr (text "wubu") ++ putstr (text "wubu") ++ putstr (text "wubu"))) := by
  have hsize : 41 + 2 + name.length + 3 * (2 + 4) - 2 = 59 + name.length := by omega
  rw [dirEncode, if_neg (by omega), hsize]
  simp only [recordHead, List.append_assoc]

theorem length_dirEncode (h : name.length ≤ 255) (now : Nat) (dir : Bool) (qidpath : Nat) :
    (dirEncode 512 now name dir qidpath).length = recordLength name := by
  have hput : (putstr name).length = 2 + name.length := by
    simp only [putstr, List.length_append, length_le, List.length_take, maxFname]
    omega
  have hwubu : (putstr (text "wubu")).length = 6 := by decide
  rw [dirEncode_eq h]
  simp only [List.length_append, length_recordHead, hput, hwubu, recordLength]
  omega

/-- The size in front of a record is that of its name. -/
theorem take_dirEncode (h : name.length ≤ 255) (now : Nat) (dir : Bool) (qidpath : Nat) (bytes : List UInt8) :
    (dirEncode 512 now name dir qidpath ++ bytes).take 2 = le 2 (59 + name.length) := by
  have hle : (le 2 (59 + name.length)).length = 2 := length_le _ _
  rw [dirEncode_eq h, recordHead]
  simp only [List.append_assoc]
  exact List.take_left' hle

theorem putstr_inj {s s' : CStr} (h : s.length ≤ 255) (hlen : s.length = s'.length) (heq : putstr s = putstr s') :
    s = s' := by
  have hn : min (s.length % 2 ^ 16) (maxFname - 1) = s.length := by
    rw [maxFname]
    omega
  simp only [putstr, ← hlen, hn] at heq
  have htake := (List.append_inj heq rfl).2
  rwa [List.take_length, hlen, List.take_length] at htake

/-- **Records are told apart**: a name and where the next record begins are known from the bytes. -/
theorem Records.unique (h : Records bytes names) (h' : Records bytes names') : names = names' := by
  induction h generalizing names' with
  | nil =>
    generalize hb : ([] : List UInt8) = bytes at h'
    cases h' with
    | nil => rfl
    | cons now dir qidpath hname _ =>
      have := congrArg List.length hb
      rw [List.length_append, length_dirEncode hname, recordLength, List.length_nil] at this
      omega
  | @cons name bytes names now dir qidpath hname _ ih =>
    generalize hb : dirEncode 512 now name dir qidpath ++ bytes = whole at h'
    cases h' with
    | nil =>
      have := congrArg List.length hb
      rw [List.length_append, length_dirEncode hname, recordLength, List.length_nil] at this
      omega
    | @cons name' bytes' names' now' dir' qidpath' hname' h' =>
      have htake := congrArg (List.take 2) hb
      rw [take_dirEncode hname, take_dirEncode hname'] at htake
      have hnum := congrArg number htake
      rw [number_le, number_le, Nat.mod_eq_of_lt (by omega), Nat.mod_eq_of_lt (by omega)] at hnum
      have hlen : name.length = name'.length := by omega
      obtain ⟨hrec, hrest⟩ := List.append_inj hb (by
        rw [length_dirEncode hname, length_dirEncode hname', recordLength, recordLength, hlen])
      rw [dirEncode_eq hname, dirEncode_eq hname'] at hrec
      have hput := (List.append_inj hrec (by rw [length_recordHead, length_recordHead])).2
      have hput := (List.append_inj hput (by simp only [putstr, List.length_append, length_le, List.length_take, hlen])).1
      rw [putstr_inj hname hlen hput, ih (hrest ▸ h')]

theorem Records.append (h : Records bytes names)
    (h' : Records bytes' names') : Records (bytes ++ bytes') (names ++ names') := by
  induction h with
  | nil => exact h'
  | cons now dir qidpath hname _ ih =>
    rw [List.append_assoc]
    exact .cons now dir qidpath hname ih

/-! ## One reply -/

theorem Asked.trans {host : Host H} {path : CStr} {srv srv' srv'' : FsServer H} (h : Asked host path srv srv')
    (h' : Asked host path srv' srv'') : Asked host path srv srv'' := by
  induction h with
  | refl => exact h'
  | time _ ih => exact .time (ih h')
  | opendir _ ih => exact .opendir (ih h')

/-- Nothing changes that a fid is found by, or its path. -/
theorem Asked.core {host : Host H} {path : CStr} {srv srv' : FsServer H} (h : Asked host path srv srv') :
    srv'.fids = srv.fids ∧ srv'.world.mounts = srv.world.mounts ∧ srv'.world.heap = srv.world.heap ∧
      srv'.world.junk = srv.world.junk := by
  induction h with
  | refl => exact ⟨rfl, rfl, rfl, rfl⟩
  | time _ ih => exact ih
  | opendir _ ih => exact ih

theorem Unchanged.asked {host : Host H} {path : CStr} {entries : List (CStr × Bool)} {srv srv' : FsServer H}
    (h : Unchanged host path entries srv) (hasked : Asked host path srv srv') : Unchanged host path entries srv' :=
  fun srv'' h' => h srv'' (hasked.trans h')

/-- How long the records of entries are. -/
def totalLength (es : List (CStr × Bool)) : Nat := (es.map fun e => recordLength e.1).sum

@[simp]
theorem totalLength_nil : totalLength [] = 0 := rfl

@[simp]
theorem totalLength_cons (e : CStr × Bool) (es : List (CStr × Bool)) :
    totalLength (e :: es) = recordLength e.1 + totalLength es := rfl

@[simp]
theorem totalLength_append (es es' : List (CStr × Bool)) :
    totalLength (es ++ es') = totalLength es + totalLength es' := by
  simp [totalLength]

/-- The entries that end at the offset or before are passed over. -/
theorem dirPage_skip (host : Host H) (path : CStr) (offset room : Nat) (es' : List (CStr × Bool)) :
    ∀ (es : List (CStr × Bool)) (n start : Nat) (srv : FsServer H), (∀ e ∈ es, e.1.length ≤ 255) →
      start + totalLength es ≤ offset →
      ∃ srv', Asked host path srv srv' ∧ dirPage host offset (es ++ es') n start room srv =
          dirPage host offset es' (n + es.length) (start + totalLength es) room srv'
  | [], n, start, srv, _, _ => ⟨srv, .refl srv, rfl⟩
  | e :: es, n, start, srv, hshort, hle => by
    rw [totalLength_cons] at hle
    obtain ⟨srv', hasked, heq⟩ := dirPage_skip host path offset room es' es (n + 1) (start + recordLength e.1)
      (hostCall host .time srv).2 (fun e he => hshort e (.tail _ he)) (by omega)
    refine ⟨srv', .time hasked, ?_⟩
    have hlen := length_dirEncode (hshort e (.head _)) (hostCall host .time srv).1.count e.2 (n + 100)
    rw [List.cons_append, dirPage]
    simp only [hlen]
    rw [if_neg (fun hnil => by rw [hnil, recordLength, List.length_nil] at hlen; omega), if_pos (by omega), heq,
      List.length_cons, totalLength_cons, Nat.add_assoc start, Nat.add_right_comm n, Nat.add_assoc n]

/-- From the offset on, entries are taken as long as there is room. -/
theorem dirPage_take (host : Host H) (path : CStr) (offset : Nat) :
    ∀ (es : List (CStr × Bool)) (n start room : Nat) (srv : FsServer H), (∀ e ∈ es, e.1.length ≤ 255) → offset ≤ start →
      ∃ k bytes srv', dirPage host offset es n start room srv = (bytes, srv') ∧ Asked host path srv srv' ∧
        Records bytes ((es.take k).map Prod.fst) ∧ bytes.length = totalLength (es.take k) ∧
        (∀ e ∈ es.head?, recordLength e.1 ≤ room → 0 < k)
  | [], n, start, room, srv, _, _ => ⟨0, [], srv, rfl, .refl srv, .nil, rfl, nofun⟩
  | e :: es, n, start, room, srv, hshort, hle => by
    have hlen := length_dirEncode (hshort e (.head _)) (hostCall host .time srv).1.count e.2 (n + 100)
    have hne : dirEncode 512 (hostCall host .time srv).1.count e.1 e.2 (n + 100) ≠ [] := fun hnil => by
      rw [hnil, recordLength, List.length_nil] at hlen
      omega
    have hpass : ¬ start + recordLength e.1 ≤ offset := by
      rw [recordLength]
      omega
    by_cases hroom : room < recordLength e.1
    · refine ⟨0, [], (hostCall host .time srv).2, ?_, .time (.refl _), .nil, rfl, ?_⟩
      · rw [dirPage]
        simp only [hlen]
        rw [if_neg hne, if_neg hpass, if_pos hroom]
      · intro e' he' hfits
        rw [List.head?_cons, Option.mem_some] at he'
        rw [← he'] at hfits
        omega
    · obtain ⟨k, bytes, srv', heq, hasked, hrec, hbytes, -⟩ := dirPage_take host path offset es (n + 1)
        (start + recordLength e.1) (room - recordLength e.1) (hostCall host .time srv).2
        (fun e he => hshort e (.tail _ he)) (by omega)
      refine ⟨k + 1, dirEncode 512 (hostCall host .time srv).1.count e.1 e.2 (n + 100) ++ bytes, srv', ?_,
        .time hasked, ?_, ?_, fun _ _ _ => Nat.succ_pos k⟩
      · rw [dirPage]
        simp only [hlen]
        rw [if_neg hne, if_neg hpass, if_neg hroom, heq]
      · exact .cons _ e.2 _ (hshort e (.head _)) hrec
      · rw [List.length_append, hlen, hbytes, List.take_succ_cons, totalLength_cons]

/-! ## The replies of a listing -/

/-- A fid is a directory of the file system, and what its children are taken from. -/
structure OnDirectory (host : Host H) (fid : Nat) (mounts : List Mount) (path hostPath : CStr)
    (entries : List (CStr × Bool)) (srv : FsServer H) : Prop where
  mounts : srv.world.mounts = mounts
  fid : ∃ i, fidLookup srv fid = some i ∧ (srv.fids i).qid.type = 0x80 ∧ fidPath srv.world (srv.fids i) = path ∧
    fidHost srv i = hostPath
  unchanged : Unchanged host hostPath entries srv

section
variable {host : Host H} {fid count : Nat} {mounts : List Mount} {path hostPath : CStr}
  {entries : List (CStr × Bool)} {srv srv' : FsServer H}

theorem OnDirectory.asked (h : OnDirectory host fid mounts path hostPath entries srv)
    (hasked : Asked host hostPath srv srv') : OnDirectory host fid mounts path hostPath entries srv' := by
  obtain ⟨hfids, hmounts, hheap, hjunk⟩ := hasked.core
  obtain ⟨i, hlook, htype, hpath, hhost⟩ := h.fid
  have hpath' : fidPath srv'.world (srv'.fids i) = path := by rw [← hpath, fidPath, fidPath, hfids, hheap, hjunk]
  refine ⟨hmounts.trans h.mounts, ⟨i, ?_, ?_, hpath', ?_⟩, h.unchanged.asked hasked⟩
  · rw [← hlook, fidLookup, fidLookup, hfids]
  · rw [hfids, htype]
  · rw [← hhost, fidHost, fidHost, hpath', hpath, hmounts]

/-- A read of a directory is a page of its entries. -/
theorem OnDirectory.read (h : OnDirectory host fid mounts path hostPath entries srv) (offset count : Nat) :
    ∃ srv', Asked host hostPath srv srv' ∧ styxfsReadCb host fid offset count srv =
        (readBuf (dirPage host offset (dirEntries mounts path entries) 0 0 count srv').1,
          (dirPage host offset (dirEntries mounts path entries) 0 0 count srv').2) := by
  obtain ⟨i, hlook, htype, hpath, hhost⟩ := h.fid
  have hentries : (if (hostCall host (.opendir hostPath) srv).1.ok then (hostCall host (.opendir hostPath) srv).1.entries
      else []) = entries := h.unchanged srv (.refl srv)
  refine ⟨(hostCall host (.opendir hostPath) srv).2, .opendir (.refl _), ?_⟩
  have hmounts : (hostCall host (.opendir hostPath) srv).2.world.mounts = mounts := h.mounts
  simp only [styxfsReadCb, hlook, htype, if_pos, hhost, hpath, hmounts, hentries]

/-- **The replies fit together**: from the end of a record on, a client gets the records of all entries that come
after it. -/
theorem exists_listing (rest : List (CStr × Bool)) :
    ∀ (passed : List (CStr × Bool)) (srv : FsServer H), OnDirectory host fid mounts path hostPath entries srv →
      dirEntries mounts path entries = passed ++ rest → (∀ e ∈ passed ++ rest, e.1.length ≤ 255) →
      (∀ e ∈ rest, recordLength e.1 ≤ count) →
      ∃ bytes, Listing host fid count (totalLength passed) srv bytes ∧ Records bytes (rest.map Prod.fst) := by
  induction hn : rest.length using Nat.strong_induction_on generalizing rest with
  | _ n ih =>
    intro passed srv hdir heq hshort hfits
    obtain ⟨srv1, hasked1, hread⟩ := hdir.read (totalLength passed) count
    obtain ⟨srv2, hasked2, hskip⟩ := dirPage_skip host hostPath (totalLength passed) count rest passed 0 0 srv1
      (fun e he => hshort e (List.mem_append_left _ he)) (Nat.le_of_eq (Nat.zero_add _))
    obtain ⟨k, page, srv3, htake, hasked3, hrec, hlen, hprogress⟩ := dirPage_take host hostPath (totalLength passed)
      rest (0 + passed.length) (0 + totalLength passed) count srv2
      (fun e he => hshort e (List.mem_append_right _ he)) (Nat.le_of_eq (Nat.zero_add _).symm)
    rw [heq, hskip, htake] at hread
    cases rest with
    | nil =>
      rw [List.take_nil, totalLength_nil] at hlen
      rw [readBuf, hlen] at hread
      exact ⟨[], .done hread, .nil⟩
    | cons e rest =>
      have hk : 0 < k := hprogress e rfl (hfits e (.head _))
      have hpos : 0 < page.length := by
        obtain ⟨k, rfl⟩ : ∃ l, k = l + 1 := ⟨k - 1, by omega⟩
        rw [hlen, List.take_succ_cons, totalLength_cons, recordLength]
        omega
      have hslice : slice (fun i => page.getD i 0) 0 page.length = page := (at_getD page).slice
      have hsplit : passed ++ (e :: rest).take k ++ (e :: rest).drop k = passed ++ e :: rest := by
        rw [List.append_assoc, List.take_append_drop]
      obtain ⟨bytes, hlisting, hrecords⟩ := ih ((e :: rest).drop k).length
        (by rw [← hn, List.length_drop, List.length_cons]; omega) ((e :: rest).drop k) rfl
        (passed ++ (e :: rest).take k) srv3 (hdir.asked ((hasked1.trans hasked2).trans hasked3))
        (by rw [heq, hsplit]) (by rwa [hsplit]) (fun e' he' => hfits e' (List.mem_of_mem_drop he'))
      refine ⟨page ++ bytes, ?_, ?_⟩
      · rw [totalLength_append, ← hlen] at hlisting
        have := Listing.page hread hpos hlisting
        rwa [hslice] at this
      · have := hrec.append hrecords
        rwa [← List.map_append, List.take_append_drop] at this

/-- A client gets one listing. -/
theorem Listing.unique {offset : Nat} (h : Listing host fid count offset srv bytes)
    (h' : Listing host fid count offset srv bytes') : bytes = bytes' := by
  induction h generalizing bytes' with
  | done h =>
    cases h' with
    | done => rfl
    | page h' hn _ =>
      rw [h] at h'
      injection h' with h' _
      injection h' with h'
      injection h' with h' _
      omega
  | page h hn _ ih =>
    cases h' with
    | done h' =>
      rw [h] at h'
      injection h' with h' _
      injection h' with h'
      injection h' with h' _
      omega
    | page h' _ hrest =>
      rw [h] at h'
      injection h' with h' hsrv
      injection h' with h'
      injection h' with hn hbuf
      subst hn hbuf hsrv
      rw [ih hrest]

end

/-! ## The list of entries -/

/-- The host has an entry that is not in the list yet. -/
def addEntry (l : List (CStr × Bool)) (e : CStr × Bool) : List (CStr × Bool) :=
  if 256 ≤ l.length then l
  else if e.1 = text "." ∨ e.1 = text ".." ∨ l.any (·.1 == e.1) then l
  else l ++ [(e.1.take 63, e.2)]

theorem dirEntries_eq (mounts : List Mount) (path : CStr) (entries : List (CStr × Bool)) :
    dirEntries mounts path entries =
      entries.foldl addEntry (((mounts.filterMap (mountEntry path)).take 256).map fun name => (name, true)) := rfl

section
variable {l : List (CStr × Bool)} {e : CStr × Bool} {entries : List (CStr × Bool)} {mounts : List Mount} {path : CStr}

/-- What an entry of the host does to the list: nothing, as the list is full, or has the name, or as it is no name; or it
is added. -/
theorem addEntry_cases (l : List (CStr × Bool)) (e : CStr × Bool) : (256 ≤ l.length ∧ addEntry l e = l) ∨
      (l.length < 256 ∧ (IsDots e.1 ∨ e.1 ∈ l.map Prod.fst) ∧ addEntry l e = l) ∨
        (l.length < 256 ∧ ¬ IsDots e.1 ∧ e.1 ∉ l.map Prod.fst ∧ addEntry l e = l ++ [(e.1.take 63, e.2)]) := by
  have hany : l.any (·.1 == e.1) = true ↔ e.1 ∈ l.map Prod.fst := by
    simp only [List.any_eq_true, beq_iff_eq, List.mem_map]
  by_cases hfull : 256 ≤ l.length
  · exact .inl ⟨hfull, if_pos hfull⟩
  · rw [addEntry, if_neg hfull]
    by_cases hskip : e.1 = text "." ∨ e.1 = text ".." ∨ l.any (·.1 == e.1)
    · refine .inr (.inl ⟨Nat.lt_of_not_le hfull, ?_, if_pos hskip⟩)
      rw [hany, ← or_assoc] at hskip
      exact hskip
    · refine .inr (.inr ⟨Nat.lt_of_not_le hfull, ?_, ?_, if_neg hskip⟩)
      · exact fun h => hskip (h.elim .inl fun h => .inr (.inl h))
      · exact fun h => hskip (.inr (.inr (hany.2 h)))

/-- The list only grows. -/
theorem prefix_foldl_addEntry (entries : List (CStr × Bool)) :
    ∀ l : List (CStr × Bool), l <+: entries.foldl addEntry l := by
  induction entries with
  | nil => exact List.prefix_refl
  | cons e entries ih =>
    intro l
    refine List.IsPrefix.trans ?_ (ih _)
    obtain ⟨-, h⟩ | ⟨-, -, h⟩ | ⟨-, -, -, h⟩ := addEntry_cases l e
    · rw [h]
    · rw [h]
    · rw [h]
      exact List.prefix_append _ _

theorem mem_hostNames_cons (e : CStr × Bool) (h : name ∈ hostNames entries) : name ∈ hostNames (e :: entries) := by
  simp only [hostNames, List.map_cons, List.filter_cons]
  split
  · exact .tail _ h
  · exact h

/-- Each of the names has been there, or is what there is room for of the name of an entry. -/
theorem mem_foldl_addEntry (entries : List (CStr × Bool)) :
    ∀ l : List (CStr × Bool), name ∈ (entries.foldl addEntry l).map Prod.fst →
      name ∈ l.map Prod.fst ∨ ∃ full ∈ hostNames entries, name = full.take 63 := by
  induction entries with
  | nil => exact fun _ h => .inl h
  | cons e entries ih =>
    intro l hmem
    rcases ih _ hmem with hl | ⟨full, hfull, rfl⟩
    · obtain ⟨-, h⟩ | ⟨-, -, h⟩ | ⟨-, hdots, -, h⟩ := addEntry_cases l e
      · exact .inl (h ▸ hl)
      · exact .inl (h ▸ hl)
      · rw [h, List.map_append, List.mem_append] at hl
        refine hl.imp id fun he => ⟨e.1, ?_, List.mem_singleton.1 he⟩
        simp [hostNames, hdots]
    · exact .inr ⟨full, mem_hostNames_cons e hfull, rfl⟩

/-- No name is there twice, as none is cut off. -/
theorem nodup_foldl_addEntry (entries : List (CStr × Bool)) :
    ∀ l : List (CStr × Bool), (∀ name ∈ hostNames entries, name.length < 64) → (l.map Prod.fst).Nodup →
      ((entries.foldl addEntry l).map Prod.fst).Nodup := by
  induction entries with
  | nil => exact fun _ _ h => h
  | cons e entries ih =>
    intro l hshort hl
    refine ih _ (fun name hname => hshort name (mem_hostNames_cons e hname)) ?_
    obtain ⟨-, h⟩ | ⟨-, -, h⟩ | ⟨-, hdots, hnew, h⟩ := addEntry_cases l e
    · rwa [h]
    · rwa [h]
    · have hlen : e.1.length < 64 := hshort e.1 (by simp [hostNames, hdots])
      rw [h, List.map_append, List.map_singleton, List.take_of_length_le (by omega), List.nodup_append]
      refine ⟨hl, List.nodup_singleton _, fun a ha b hb => ?_⟩
      rw [List.mem_singleton.1 hb]
      exact fun heq => hnew (heq ▸ ha)

/-- Every entry of the host gets into the list, unless that gets full. -/
theorem covers_foldl_addEntry (entries : List (CStr × Bool)) :
    ∀ l : List (CStr × Bool), (∀ name ∈ hostNames entries, name.length < 64) → name ∈ hostNames entries →
      name ∈ (entries.foldl addEntry l).map Prod.fst ∨ 256 ≤ (entries.foldl addEntry l).length := by
  induction entries with
  | nil => exact fun _ _ h => absurd h List.not_mem_nil
  | cons e entries ih =>
    intro l hshort hname
    have hstays : ∀ x ∈ (addEntry l e).map Prod.fst, x ∈ ((e :: entries).foldl addEntry l).map Prod.fst := fun x hx =>
      ((prefix_foldl_addEntry entries (addEntry l e)).map Prod.fst).subset hx
    by_cases hin : name ∈ hostNames entries
    · exact ih _ (fun name hname => hshort name (mem_hostNames_cons e hname)) hin
    · obtain ⟨rfl, hdots⟩ : name = e.1 ∧ ¬ IsDots e.1 := by
        simp only [hostNames, List.mem_filter, List.map_cons, List.mem_cons, decide_eq_true_eq] at hname hin
        obtain ⟨heq | hmem, hdots⟩ := hname
        · exact ⟨heq, heq ▸ hdots⟩
        · exact absurd ⟨hmem, hdots⟩ hin
      obtain ⟨hfull, h⟩ | ⟨-, hskip, h⟩ | ⟨-, -, -, h⟩ := addEntry_cases l e
      · refine .inr (hfull.trans ?_)
        rw [List.foldl_cons, h]
        exact (prefix_foldl_addEntry entries l).length_le
      · refine .inl (hstays _ ?_)
        rw [h]
        exact hskip.resolve_left hdots
      · have hlen := hshort e.1 hname
        refine .inl (hstays _ ?_)
        rw [h, List.map_append, List.map_singleton, List.take_of_length_le (by omega)]
        exact List.mem_append_right _ (.head _)

/-! ## What is mounted below a directory -/

/-- The entry of a mount is the child that it is below, unless the name of that is too long. -/
theorem mountEntry_eq (hpath : path.length ≠ 1 ∨ path = root) (m : Mount) :
    mountEntry path m = (mountChild path m).filter fun name => name.length < 64 := by
  by_cases hroot : path = root
  · subst hroot
    rw [mountEntry, mountChild, basePath, if_pos rfl, List.nil_append]
    by_cases hpre : root.isPrefixOf m.path = true
    · rw [if_neg (by simp [hpre]), if_neg (fun h => h.1 rfl), if_pos hpre]
      simp only [show root.length = 1 from rfl, List.length_nil, if_pos, Nat.zero_add]
      grind
    · rw [if_pos (by rw [Bool.eq_false_of_not_eq_true hpre]; rfl), if_neg hpre]
      rfl
  · have hlen : path.length ≠ 1 := hpath.resolve_right hroot
    rw [mountEntry, mountChild, basePath, if_neg hroot]
    simp only [if_neg hlen, ne_eq, hroot, not_false_eq_true, true_and]
    have hiff : (path ++ root).isPrefixOf m.path = true ↔
        path.isPrefixOf m.path = true ∧ (m.path.drop path.length).head? = some slash := by
      rw [List.isPrefixOf_iff_prefix, List.isPrefixOf_iff_prefix]
      constructor
      · rintro ⟨rest, hrest⟩
        rw [← hrest, List.append_assoc]
        exact ⟨List.prefix_append _ _, by simp [root]⟩
      · rintro ⟨⟨rest, hrest⟩, hhead⟩
        rw [← hrest, List.drop_left] at hhead
        obtain ⟨rest, rfl⟩ : ∃ r, rest = slash :: r := by
          cases rest with
          | nil => cases hhead
          | cons c r => exact ⟨r, by rw [List.head?_cons, Option.some_inj] at hhead; rw [hhead]⟩
        exact ⟨rest, by rw [← hrest, List.append_assoc]; rfl⟩
    by_cases hpre : path.isPrefixOf m.path = true
    · by_cases hhead : (m.path.drop path.length).head? = some slash
      · rw [if_neg (by simp [hpre]), if_neg (fun h => h hhead), if_pos (hiff.2 ⟨hpre, hhead⟩)]
        grind
      · rw [if_neg (by simp [hpre]), if_pos hhead, if_neg (fun h => hhead (hiff.1 h).2)]
        rfl
    · rw [if_pos (by rw [Bool.eq_false_of_not_eq_true hpre]; rfl), if_neg (fun h => hpre (hiff.1 h).1)]
      rfl

/-- Below a path of one character that is not a slash nothing is found. -/
theorem mountEntry_eq_none (hlen : path.length = 1) (hroot : path ≠ root) (m : Mount) : mountEntry path m = none := by
  rw [mountEntry]
  by_cases hpre : path.isPrefixOf m.path = true
  · by_cases hhead : (m.path.drop path.length).head? = some slash
    · obtain ⟨rest, hrest⟩ := List.isPrefixOf_iff_prefix.1 hpre
      have hname : (m.path.drop 1).takeWhile (· != slash) = [] := by
        rw [← hrest, List.drop_left] at hhead
        rw [← hrest, ← hlen, List.drop_left]
        cases rest with
        | nil => rfl
        | cons c r =>
          rw [List.head?_cons, Option.some_inj] at hhead
          simp [hhead]
      rw [if_neg (by simp [hpre]), if_neg (fun h => h.2 hhead), if_pos hlen, hname]
      simp
    · rw [if_neg (by simp [hpre]), if_pos ⟨hroot, hhead⟩]
  · rw [if_pos (by rw [Bool.eq_false_of_not_eq_true hpre]; rfl)]

theorem mem_mountEntry (h : name ∈ mounts.filterMap (mountEntry path)) :
    name ∈ mounts.filterMap (mountChild path) ∧ name.length < 64 := by
  obtain ⟨m, hm, hsome⟩ := List.mem_filterMap.1 h
  by_cases hpath : path.length ≠ 1 ∨ path = root
  · rw [mountEntry_eq hpath, Option.filter_eq_some_iff] at hsome
    exact ⟨List.mem_filterMap.2 ⟨m, hm, hsome.1⟩, of_decide_eq_true hsome.2⟩
  · rw [not_or, not_not] at hpath
    rw [mountEntry_eq_none hpath.1 hpath.2] at hsome
    cases hsome

/-- If no name is too long, then all mounts are found. -/
theorem filterMap_mountEntry (hpath : path.length ≠ 1 ∨ path = root)
    (hshort : ∀ name ∈ mounts.filterMap (mountChild path), name.length < 64) :
    mounts.filterMap (mountEntry path) = mounts.filterMap (mountChild path) := by
  refine List.filterMap_congr fun m hm => ?_
  rw [mountEntry_eq hpath]
  cases hchild : mountChild path m with
  | none => rfl
  | some name =>
    have := hshort name (List.mem_filterMap.2 ⟨m, hm, hchild⟩)
    simp [this]

/-! ## Children in the list -/

/-- The names in the list are those of children, or what there is room for of them. -/
theorem mem_dirEntries (h : name ∈ (dirEntries mounts path entries).map Prod.fst) :
    name.length < 64 ∧ ∃ full ∈ children mounts path entries, name = full.take 63 := by
  rw [dirEntries_eq] at h
  rcases mem_foldl_addEntry entries _ h with h | ⟨full, hfull, rfl⟩
  · simp only [List.map_map, Function.comp_def, List.map_id'] at h
    obtain ⟨hchild, hlen⟩ := mem_mountEntry (List.mem_of_mem_take h)
    exact ⟨hlen, name, List.mem_append_left _ hchild, (List.take_of_length_le (by omega)).symm⟩
  · exact ⟨by rw [List.length_take]; omega, full, List.mem_append_right _ hfull, rfl⟩

/-- The mounts come first. -/
theorem mounted_starts :
    (mounts.filterMap (mountEntry path)).take 256 <+: (dirEntries mounts path entries).map Prod.fst := by
  have hpre := (prefix_foldl_addEntry entries
    (((mounts.filterMap (mountEntry path)).take 256).map fun name => (name, true))).map Prod.fst
  rw [← dirEntries_eq] at hpre
  simpa only [List.map_map, Function.comp_def, List.map_id'] using hpre

/-- A list with exactly the children, each of them once. -/
theorem listable_of_names (hnodup : ((dirEntries mounts path entries).map Prod.fst).Nodup)
    (hmem : ∀ name, name ∈ (dirEntries mounts path entries).map Prod.fst ↔ name ∈ children mounts path entries) :
    Listable mounts path entries := by
  have hshort : ∀ name ∈ children mounts path entries, name.length < 64 := fun name hname =>
    (mem_dirEntries ((hmem name).2 hname)).1
  refine ⟨hshort, fun hpath => ?_, fun hlen hroot name hname => ?_⟩
  · rw [← filterMap_mountEntry hpath fun name hname => hshort name (List.mem_append_left _ hname)]
    exact hnodup.sublist mounted_starts.sublist
  · have hin := (hmem name).2 (List.mem_append_left _ hname)
    rw [dirEntries_eq] at hin
    rcases mem_foldl_addEntry entries _ hin with h | ⟨full, hfull, rfl⟩
    · simp only [List.map_map, Function.comp_def, List.map_id'] at h
      obtain ⟨m, -, hsome⟩ := List.mem_filterMap.1 (List.mem_of_mem_take h)
      rw [mountEntry_eq_none hlen hroot] at hsome
      cases hsome
    · have := hshort full (List.mem_append_right _ hfull)
      rwa [List.take_of_length_le (by omega)]

theorem Listable.nodup (h : Listable mounts path entries) : ((dirEntries mounts path entries).map Prod.fst).Nodup := by
  rw [dirEntries_eq]
  refine nodup_foldl_addEntry entries _ (fun name hname => h.short name (List.mem_append_right _ hname)) ?_
  simp only [List.map_map, Function.comp_def, List.map_id']
  by_cases hpath : path.length ≠ 1 ∨ path = root
  · rw [filterMap_mountEntry hpath fun name hname => h.short name (List.mem_append_left _ hname)]
    exact h.once hpath
  · rw [not_or, not_not] at hpath
    rw [List.filterMap_eq_nil_iff.2 fun m _ => mountEntry_eq_none hpath.1 hpath.2 m]
    exact List.nodup_nil

theorem Listable.mem_children (h : Listable mounts path entries)
    (hname : name ∈ (dirEntries mounts path entries).map Prod.fst) : name ∈ children mounts path entries := by
  obtain ⟨-, full, hfull, rfl⟩ := mem_dirEntries hname
  have := h.short full hfull
  rwa [List.take_of_length_le (by omega)]

/-- A child is in the list, if the list is not full. -/
theorem Listable.covers (h : Listable mounts path entries) (hname : name ∈ children mounts path entries) :
    name ∈ (dirEntries mounts path entries).map Prod.fst ∨ 256 ≤ (dirEntries mounts path entries).length := by
  by_cases hin : name ∈ hostNames entries
  · exact covers_foldl_addEntry entries _ (fun name hname => h.short name (List.mem_append_right _ hname)) hin
  have hchild := (List.mem_append.1 hname).resolve_right hin
  by_cases hpath : path.length ≠ 1 ∨ path = root
  · have heq := filterMap_mountEntry hpath fun name hname => h.short name (List.mem_append_left _ hname)
    have hpre := @mounted_starts entries mounts path
    by_cases hlen : (mounts.filterMap (mountEntry path)).length ≤ 256
    · rw [List.take_of_length_le hlen, heq] at hpre
      exact .inl (hpre.subset hchild)
    · have := hpre.length_le
      rw [List.length_take, List.length_map] at this
      exact .inr (by omega)
  · rw [not_or, not_not] at hpath
    exact absurd (h.found hpath.1 hpath.2 name hchild) hin

/-- **The list is that of the children** under the condition only. -/
theorem names_iff (hmany : (children mounts path entries).dedup.length ≤ 256) :
    ((dirEntries mounts path entries).map Prod.fst).Nodup ∧
        (∀ name, name ∈ (dirEntries mounts path entries).map Prod.fst ↔ name ∈ children mounts path entries) ↔
      Listable mounts path entries := by
  refine ⟨fun ⟨hnodup, hmem⟩ => listable_of_names hnodup hmem, fun h => ⟨h.nodup, fun name => ⟨h.mem_children, fun hname => ?_⟩⟩⟩
  refine (h.covers hname).elim id fun hfull => ?_
  -- the list is full, and there are no more children than it has room for
  have hsubperm : List.Subperm ((dirEntries mounts path entries).map Prod.fst) (children mounts path entries).dedup :=
    h.nodup.subperm fun name hname => List.mem_dedup.2 (h.mem_children hname)
  have hperm := hsubperm.perm_of_length_le (by rw [List.length_map]; omega)
  exact hperm.mem_iff.2 (List.mem_dedup.2 hname)

end

/-! ## Listings -/

section
variable {host : Host H} {fid count i : Nat} {srv : FsServer H} {entries : List (CStr × Bool)}

/-- What a client gets is the list of entries. -/
theorem listsExactly_iff (hfid : fidLookup srv fid = some i) (hdir : (srv.fids i).qid.type = 0x80)
    (hunchanged : Unchanged host (fidHost srv i) entries srv)
    (hcount : ∀ name ∈ children srv.world.mounts (fidPath srv.world (srv.fids i)) entries,
      recordLength name ≤ count) (kids : List CStr) :
    ListsExactly host fid count srv kids ↔
      ((dirEntries srv.world.mounts (fidPath srv.world (srv.fids i)) entries).map Prod.fst).Nodup ∧
        ∀ name, name ∈ (dirEntries srv.world.mounts (fidPath srv.world (srv.fids i)) entries).map Prod.fst ↔
          name ∈ kids := by
  have hon : OnDirectory host fid srv.world.mounts (fidPath srv.world (srv.fids i)) (fidHost srv i) entries srv :=
    ⟨rfl, ⟨i, hfid, hdir, rfl, rfl⟩, hunchanged⟩
  have hlisted : ∀ e ∈ dirEntries srv.world.mounts (fidPath srv.world (srv.fids i)) entries,
      e.1.length < 64 ∧ recordLength e.1 ≤ count := by
    intro e he
    obtain ⟨hlen, full, hfull, heq⟩ := mem_dirEntries (List.mem_map_of_mem he)
    refine ⟨hlen, Nat.le_trans ?_ (hcount full hfull)⟩
    rw [heq, recordLength, recordLength, List.length_take]
    omega
  obtain ⟨bytes, hlisting, hrecords⟩ := exists_listing
    (dirEntries srv.world.mounts (fidPath srv.world (srv.fids i)) entries) [] srv hon rfl
    (fun e he => (hlisted e he).1.le.trans (by decide)) (fun e he => (hlisted e he).2)
  constructor
  · rintro ⟨bytes', names, hlisting', hrecords', hexact⟩
    obtain rfl := hlisting'.unique hlisting
    rwa [hrecords'.unique hrecords] at hexact
  · exact fun hexact => ⟨bytes, _, hlisting, hrecords, hexact⟩

end

/-- **A client gets every child once** exactly if none of the names is too long and no two mounts are below the same
child. -/
theorem listing_exact_iff (host : Host H) (fid count i : Nat) (srv : FsServer H) (entries : List (CStr × Bool))
    (hfid : fidLookup srv fid = some i) (hdir : (srv.fids i).qid.type = 0x80)
    (hunchanged : Unchanged host (fidHost srv i) entries srv)
    (hmany : (children srv.world.mounts (fidPath srv.world (srv.fids i)) entries).dedup.length ≤ 256)
    (hcount : ∀ name ∈ children srv.world.mounts (fidPath srv.world (srv.fids i)) entries, recordLength name ≤ count) :
    ListsExactly host fid count srv (children srv.world.mounts (fidPath srv.world (srv.fids i)) entries) ↔
      Listable srv.world.mounts (fidPath srv.world (srv.fids i)) entries :=
  (listsExactly_iff hfid hdir hunchanged hcount _).trans (names_iff hmany)

/-- A file system that something is mounted in at these paths, with the root attached as fid 5. -/
def mountedAt (paths : List CStr) : FsServer Unit :=
  (styxfsAttachCb 5 []
    (styxfsInit (paths.map fun path => { path := path, source := root }) 0 (Registry.empty fun _ => true) [] ())).2

/-- A directory that nothing else is in is not changed. -/
theorem unchanged_noHost (path : CStr) (srv : FsServer Unit) : Unchanged noHost path [] srv := fun _ _ => rfl

set_option maxRecDepth 8000 in
theorem listing_exact_iff_mounts :
    ListsExactly noHost 5 8192 (mountedAt [text "/a/b", text "/c"]) [text "a", text "c"] :=
  (listing_exact_iff noHost 5 8192 0 (mountedAt [text "/a/b", text "/c"]) [] (by decide) (by decide)
    (unchanged_noHost _ _) (by decide) (by decide)).2 ⟨by decide, fun _ => by decide, fun _ h => absurd rfl h⟩

set_option maxRecDepth 8000 in
/-- **Two mounts below the same child** give two records of it. -/
theorem listing_twice : fidLookup (mountedAt [text "/a/b", text "/a/c"]) 5 = some 0 ∧
      ((mountedAt [text "/a/b", text "/a/c"]).fids 0).qid.type = 0x80 ∧
      Unchanged noHost (fidHost (mountedAt [text "/a/b", text "/a/c"]) 0) [] (mountedAt [text "/a/b", text "/a/c"]) ∧
      children (mountedAt [text "/a/b", text "/a/c"]).world.mounts
        (fidPath (mountedAt [text "/a/b", text "/a/c"]).world ((mountedAt [text "/a/b", text "/a/c"]).fids 0)) [] =
          [text "a", text "a"] ∧
      ¬ ListsExactly noHost 5 8192 (mountedAt [text "/a/b", text "/a/c"]) [text "a", text "a"] := by
  have hfid : fidLookup (mountedAt [text "/a/b", text "/a/c"]) 5 = some 0 := by decide
  have hdir : ((mountedAt [text "/a/b", text "/a/c"]).fids 0).qid.type = 0x80 := by decide
  refine ⟨hfid, hdir, unchanged_noHost _ _, by decide, ?_⟩
  rw [listsExactly_iff hfid hdir (unchanged_noHost _ _) (by decide)]
  exact fun h => absurd h.1 (by decide)

end WuBuOS.Styx
