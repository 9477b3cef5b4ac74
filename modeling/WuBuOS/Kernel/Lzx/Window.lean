import WuBuOS.Kernel.Lzx.Decoder

/-!
# The window

`lzx_decompress` writes what it decodes into the window: bytes, copies of bytes that are there already, and the
bytes of uncompressed blocks.  At the end it takes what it has produced out of the window.

Its variables are in a `Local`, and get into the state when the call succeeds; if it fails, the state is left as it
is at that place.
-/

namespace WuBuOS.Lzx

/-- `struct lzx_state`. -/
structure State where
  window : Nat → UInt8
  windowSize : Nat
  windowPosn : Nat
  r0 : Nat
  r1 : Nat
  r2 : Nat
  mainElements : Nat
  headerRead : Bool
  blockType : Nat
  blockLength : Nat
  blockRemaining : Nat
  framesRead : Nat
  intelFilesize : Int
  intelCurpos : Int
  intelStarted : Bool
  debugFail : Nat
  pretree : Code
  maintree : Code
  length : Code
  aligned : Code

/-- The variables of a call: the reader, the position in the window and the last three offsets. -/
structure Local where
  br : Br
  posn : Nat
  r0 : Nat
  r1 : Nat
  r2 : Nat

/-- Where a run stands when it is about to use the window in a way that the code does not check. -/
inductive Point where
  /-- In the loop of a compressed block, with what reads the offset for a position slot in it. -/
  | element (inp : Input) (slotOffset : Nat → Br → Option (Nat × Br)) (s : State) (l : Local)
  /-- At the end of a call, with the position in the window and the length of the output. -/
  | emit (posn outlen : Nat)

/-- Why a call stops. -/
inductive Stop where
  /-- It returns this, and the state is left so. -/
  | refused (code : Nat) (s : State)
  /-- An index into the window is not less than its size. -/
  | wild
  /-- It has not ended yet. -/
  | running

/-- The points that a run comes to, and what has come of it. -/
structure Run (α : Type) where
  trace : List Point
  result : Except Stop α

variable {α β : Type}

def Run.bind (m : Run α) (f : α → Run β) : Run β :=
  match m.result with
  | .ok a => ⟨m.trace ++ (f a).trace, (f a).result⟩
  | .error e => ⟨m.trace, .error e⟩

instance : Monad Run where
  pure a := ⟨[], .ok a⟩
  bind := Run.bind

/-- Return early. -/
def stop (e : Stop) : Run α := ⟨[], .error e⟩

/-- The run stands here. -/
def stand (p : Point) : Run Unit := ⟨[p], .ok ()⟩

/-- An access to the window. -/
def access (r : Except Stop α) : Run α := ⟨[], r⟩

def illegaldata : Nat := 2

def dataformat : Nat := 1

/-- Return an error, with the number of the place. -/
def illegal (s : State) (site : Nat) : Run α := stop (.refused illegaldata { s with debugFail := site })

/-- No index was out of range. -/
def Run.safe (m : Run α) : Bool :=
  match m.result with
  | .error .wild => false
  | _ => true

/-! ## Copies -/

/-- Write a byte of the window. -/
def put (size : Nat) (w : Nat → UInt8) (i : Nat) (c : UInt8) : Except Stop (Nat → UInt8) :=
  if i < size then .ok (Bytes.write w i 1 fun _ => c) else .error .wild

/-- `while (n-- > 0) *rundest++ = *runsrc++`. -/
def copyBytes (size : Nat) : Nat → Nat → Nat → (Nat → UInt8) → Except Stop (Nat → UInt8)
  | 0, _, _, w => .ok w
  | n + 1, dest, src, w =>
    if src < size then do
      let w ← put size w dest (w src)
      copyBytes size n (dest + 1) (src + 1) w
    else .error .wild

/-- A word as a signed number. -/
def toInt32 (v : Nat) : Int := if v < 2 ^ 31 then v else (v : Int) - 2 ^ 32

/-- The copy of a match, in two halves if its source goes past the end of the window. -/
def copyMatch (size posn length offset : Nat) (w : Nat → UInt8) : Except Stop (Nat → UInt8) :=
  if offset ≤ posn then copyBytes size length posn (posn - offset) w
  else
    let src := posn + (size + 2 ^ 32 - offset) % 2 ^ 32
    let copyLength := toInt32 (offset - posn)
    if copyLength < length then do
      let w ← copyBytes size copyLength.toNat posn src w
      copyBytes size (length - copyLength).toNat (posn + copyLength.toNat) 0 w
    else copyBytes size length posn src w

/-! ## Matches -/

def extraBits : List Nat :=
  [0, 0, 0, 0, 1, 1, 2, 2, 3, 3, 4, 4, 5, 5, 6, 6, 7, 7, 8, 8, 9, 9, 10, 10, 11, 11, 12, 12, 13, 13, 14, 14,
    15, 15, 16, 16, 17, 17, 17, 17, 17, 17, 17, 17, 17, 17, 17, 17, 17, 17, 17]

def positionBase : List Nat :=
  [0, 1, 2, 3, 4, 6, 8, 12, 16, 24, 32, 48, 64, 96, 128, 192, 256, 384, 512, 768, 1024, 1536, 2048, 3072, 4096, 6144,
    8192, 12288, 16384, 24576, 32768, 49152, 65536, 98304, 131072, 196608, 262144, 393216, 524288, 655360, 786432,
    917504, 1048576, 1179648, 1310720, 1441792, 1572864, 1703936, 1835008, 1966080, 2097152]

/-- The offset for a position slot, in a verbatim block. -/
def verbatimOffset (inp : Input) (_ : Code) (slot : Nat) (br : Br) : Option (Nat × Br) :=
  if slot ≠ 3 then
    let (verbatimBits, br) := lzxReadBits inp br (extraBits.getD slot 0)
    some (positionBase.getD slot 0 - 2 + verbatimBits, br)
  else some (1, br)

def alignedMaxsymbols : Nat := 8

def alignedTablebits : Nat := 7

/-- The same, in an aligned block. -/
def alignedOffset (inp : Input) (aligned : Code) (slot : Nat) (br : Br) : Option (Nat × Br) :=
  let extra := extraBits.getD slot 0
  let offset := positionBase.getD slot 0 - 2
  if 3 < extra then
    let (verbatimBits, br) := lzxReadBits inp br (extra - 3)
    (lzxHuffDecode inp aligned alignedMaxsymbols alignedTablebits br).map fun (alignedBits, br) =>
      (offset + verbatimBits <<< 3 + alignedBits, br)
  else if extra = 3 then
    (lzxHuffDecode inp aligned alignedMaxsymbols alignedTablebits br).map fun (alignedBits, br) =>
      (offset + alignedBits, br)
  else if extra = 1 ∨ extra = 2 then
    let (verbatimBits, br) := lzxReadBits inp br extra
    some (offset + verbatimBits, br)
  else some (1, br)

def numChars : Nat := 256

def maintreeTablebits : Nat := 12

def lengthMaxsymbols : Nat := 250

def lengthTablebits : Nat := 12

def minMatch : Nat := 2

/-- The length of a match. -/
def matchLength (inp : Input) (length : Code) (element : Nat) (br : Br) : Option (Nat × Br) :=
  if element &&& 7 = 7 then
    (lzxHuffDecode inp length lengthMaxsymbols lengthTablebits br).map fun (footer, br) => (7 + footer + minMatch, br)
  else some ((element &&& 7) + minMatch, br)

/-- The offset of a match, and whether it is a repeated one. -/
def matchOffset (slotOffset : Nat → Br → Option (Nat × Br)) (slot : Nat) (l : Local) : Option (Nat × Bool × Local) :=
  if 2 < slot then
    (slotOffset slot l.br).map fun (offset, br) => (offset, false, ⟨br, l.posn, offset, l.r0, l.r1⟩)
  else if slot = 0 then some (l.r0, true, l)
  else if slot = 1 then some (l.r1, true, { l with r0 := l.r1, r1 := l.r0 })
  else some (l.r2, true, { l with r0 := l.r2, r2 := l.r0 })

/-- The loop of a compressed block, for the rest of a run.  A match may be longer than that. -/
def elements (inp : Input) (slotOffset : Nat → Br → Option (Nat × Br)) :
    Nat → Nat → State → Local → Run (State × Local)
  | 0, _, s, l => pure (s, l)
  | fuel + 1, thisRun, s, l =>
    if thisRun = 0 then pure (s, l)
    else do
      stand (.element inp slotOffset s l)
      match lzxHuffDecode inp s.maintree s.mainElements maintreeTablebits l.br with
      | none => illegal s 8
      | some (element, br) =>
        if element < numChars then do
          let w ← access (put s.windowSize s.window l.posn (UInt8.ofNat element))
          elements inp slotOffset fuel (thisRun - 1) { s with window := w } { l with br := br, posn := l.posn + 1 }
        else
          match matchLength inp s.length (element - numChars) br with
          | none => stop (.refused illegaldata s)
          | some (length, br) =>
            match matchOffset slotOffset ((element - numChars) >>> 3) { l with br := br } with
            | none => stop (.refused illegaldata s)
            | some (offset, _, l) => do
              let w ← access (copyMatch s.windowSize l.posn length offset s.window)
              elements inp slotOffset fuel (thisRun - length) { s with window := w }
                { l with posn := (l.posn + length) % 2 ^ 32 }

/-! ## Blocks -/

def blocktypeVerbatim : Nat := 1

def blocktypeAligned : Nat := 2

def blocktypeUncompressed : Nat := 3

/-- A call. -/
structure Call where
  inp : Input
  inlen : Nat
  outlen : Nat

/-- One run of a block. -/
def block (c : Call) (thisRun : Nat) (s : State) (l : Local) : Run (State × Local) :=
  if s.blockType = blocktypeVerbatim then elements c.inp (verbatimOffset c.inp s.aligned) thisRun thisRun s l
  else if s.blockType = blocktypeAligned then elements c.inp (alignedOffset c.inp s.aligned) thisRun thisRun s l
  else if s.blockType = blocktypeUncompressed then
    if c.inlen < (l.br.ip + thisRun) % 2 ^ 32 then stop (.refused illegaldata s)
    else do
      let w ← access
        (if l.posn + thisRun ≤ s.windowSize then .ok (Bytes.write s.window l.posn thisRun fun i => c.inp (l.br.ip + i))
        else .error .wild)
      pure ({ s with window := w },
        { l with br := { l.br with ip := l.br.ip + thisRun }, posn := l.posn + thisRun })
  else pure (s, l)

/-- Read lengths of the main tree. -/
def readMaintree (c : Call) (first last site : Nat) (s : State) (br : Br) : Run (State × Br) :=
  let r := lzxReadLens c.inp s.pretree s.maintree.len first last br
  let s := { s with pretree := r.pretree, maintree := ⟨s.maintree.table, r.lens⟩ }
  if r.done then pure (s, r.br) else illegal s site

def numSecondaryLengths : Nat := 249

/-- Read the lengths of the length tree. -/
def readLength (c : Call) (site : Nat) (s : State) (br : Br) : Run (State × Br) :=
  let r := lzxReadLens c.inp s.pretree s.length.len 0 numSecondaryLengths br
  let s := { s with pretree := r.pretree, length := ⟨s.length.table, r.lens⟩ }
  if r.done then pure (s, r.br) else illegal s site

/-- The codes of a compressed block. -/
def compressedHeader (c : Call) (s : State) (br : Br) : Run (State × Br) := do
  let (s, br) ← readMaintree c 0 256 1 s br
  let (s, br) ← readMaintree c 256 s.mainElements 2 s br
  let (made, maintree) := lzxMakeDecodeTable s.mainElements maintreeTablebits s.maintree
  let s := { s with maintree := maintree }
  if made then do
    let s := if s.maintree.len 0xe8 ≠ 0 then { s with intelStarted := true } else s
    let (s, br) ← readLength c 4 s br
    let (made, length) := lzxMakeDecodeTable lengthMaxsymbols lengthTablebits s.length
    let s := { s with length := length }
    if made then pure (s, br) else illegal s 5
  else illegal s 3

/-- The lengths of the aligned tree, three bits each. -/
def readAligned (inp : Input) : Nat → Nat → (Nat → Nat) → Br → (Nat → Nat) × Br
  | 0, _, lens, br => (lens, br)
  | k + 1, i, lens, br =>
    let (y, br) := lzxReadBits inp (lzxEnsure inp 3 br) 3
    readAligned inp k (i + 1) (fill lens i 1 y) br

/-- The code of an aligned block, and then those of any compressed one. -/
def alignedHeader (c : Call) (s : State) (br : Br) : Run (State × Br) :=
  let (lens, br) := readAligned c.inp 8 0 s.aligned.len br
  let (made, aligned) := lzxMakeDecodeTable alignedMaxsymbols alignedTablebits ⟨s.aligned.table, lens⟩
  let s := { s with aligned := aligned }
  if made then compressedHeader c s br else illegal s 9

/-- The three offsets before an uncompressed block. -/
def uncompressedHeader (c : Call) (s : State) (l : Local) : Run (State × Local) :=
  let s := { s with intelStarted := true }
  let br := lzxEnsure c.inp 16 l.br
  let ip := if 16 < br.bitsleft then br.ip - 2 else br.ip
  if c.inlen < (ip + 12) % 2 ^ 32 then stop (.refused illegaldata s)
  else
    pure (s, ⟨⟨ip + 12, br.bitbuf, br.bitsleft⟩, l.posn, Bytes.get c.inp ip 4, Bytes.get c.inp (ip + 4) 4,
      Bytes.get c.inp (ip + 8) 4⟩)

/-- The header of a block.  After an uncompressed one the reader starts again at a word. -/
def blockHeader (c : Call) (s : State) (l : Local) : Run (State × Local) :=
  let br : Br :=
    if s.blockType = blocktypeUncompressed then ⟨l.br.ip + s.blockLength % 2, 0, 0⟩ else l.br
  let (t, br) := lzxReadBits c.inp br 3
  let (i, br) := lzxReadBits c.inp br 16
  let (j, br) := lzxReadBits c.inp br 8
  let s := { s with blockType := t &&& 3, blockLength := i <<< 8 ||| j, blockRemaining := i <<< 8 ||| j }
  if s.blockType = 0 ∨ 3 < s.blockType then
    illegal { s with intelCurpos := toInt32 ((s.blockType <<< 24 ||| (i <<< 8 ||| j)) % 2 ^ 32) } 6
  else if s.blockType = blocktypeAligned then do
    let (s, br) ← alignedHeader c s br
    pure (s, { l with br := br })
  else if s.blockType = blocktypeVerbatim then do
    let (s, br) ← compressedHeader c s br
    pure (s, { l with br := br })
  else uncompressedHeader c s { l with br := br }

/-- The next block, if the last one is used up. -/
def nextBlock (c : Call) (s : State) (l : Local) : Run (State × Local) :=
  if s.blockRemaining = 0 then blockHeader c s l else pure (s, l)

/-- As much of a block as there is, or as is still to be produced.  The loop of the source ends after one round. -/
def nextRun (c : Call) (togo : Nat) (s : State) (l : Local) : Run (Nat × State × Local) :=
  if s.blockRemaining = 0 ∨ togo = 0 then pure (togo, s, l)
  else
    let thisRun := min s.blockRemaining togo
    let s := { s with blockRemaining := s.blockRemaining - thisRun }
    let l := { l with posn := l.posn &&& (s.windowSize - 1) }
    if s.windowSize < l.posn + thisRun then stop (.refused dataformat s)
    else do
      let (s, l) ← block c thisRun s l
      pure (togo - thisRun, s, l)

/-- The loop of `lzx_decompress`, so many rounds of it. -/
def blocks (c : Call) : Nat → Nat → State → Local → Run (State × Local)
  | 0, _, _, _ => stop .running
  | fuel + 1, togo, s, l =>
    if togo = 0 then pure (s, l)
    else do
      let (s, l) ← nextBlock c s l
      if c.inlen + 2 < l.br.ip then illegal s 7
      else do
        let (togo, s, l) ← nextRun c togo s l
        blocks c fuel togo s l

/-! ## Calls -/

/-- What is read before the first block. -/
def intelHeader (c : Call) (s : State) : State × Br :=
  let br : Br := ⟨0, 0, 0⟩
  if s.headerRead then (s, br)
  else
    let (k, br) := lzxReadBits c.inp br 1
    if k ≠ 0 then
      let (i, br) := lzxReadBits c.inp br 16
      let (j, br) := lzxReadBits c.inp br 16
      ({ s with intelFilesize := toInt32 (i <<< 16 ||| j), headerRead := true }, br)
    else ({ s with intelFilesize := 0, headerRead := true }, br)

/-- An addition of signed numbers. -/
def wrap (v : Int) : Int := toInt32 (v % 2 ^ 32).toNat

/-- The loop that turns absolute call offsets into relative ones, up to `dataend`. -/
def intelCalls (dataend : Nat) (filesize : Int) : Nat → Nat → Int → (Nat → UInt8) → (Nat → UInt8)
  | 0, _, _, out => out
  | fuel + 1, data, curpos, out =>
    if data < dataend then
      if out data ≠ 0xe8 then intelCalls dataend filesize fuel (data + 1) (wrap (curpos + 1)) out
      else
        let absOff := toInt32 (Bytes.get out (data + 1) 4)
        let relOff := if 0 ≤ absOff then absOff - curpos else absOff + filesize
        let out := if -curpos ≤ absOff ∧ absOff < filesize then Bytes.put out (data + 1) 4 (relOff % 2 ^ 32).toNat else out
        intelCalls dataend filesize fuel (data + 5) (wrap (curpos + 5)) out
    else out

/-- What is done to the output at the end. -/
def intelTransform (s : State) (out : Nat → UInt8) (outlen : Nat) : State × (Nat → UInt8) :=
  let frames := s.framesRead
  let s := { s with framesRead := (frames + 1) % 2 ^ 32 }
  if frames < 32768 ∧ s.intelFilesize ≠ 0 then
    let t := { s with intelCurpos := wrap (s.intelCurpos + outlen) }
    if outlen ≤ 6 ∨ ¬s.intelStarted then (t, out)
    else (t, intelCalls (outlen - 10) s.intelFilesize outlen 0 s.intelCurpos out)
  else (s, out)

/-- `lzx_decompress`, with so many rounds of its loop: the state and the output. -/
def lzxDecompress (fuel : Nat) (c : Call) (s : State) : Run (State × (Nat → UInt8)) :=
  let (s, br) := intelHeader c s
  if 2 ^ 31 ≤ c.outlen then stop (.refused illegaldata s)
  else do
    let (s, l) ← blocks c fuel c.outlen s ⟨br, s.windowPosn, s.r0, s.r1, s.r2⟩
    let copyFrom := ((if l.posn ≠ 0 then l.posn else s.windowSize) + 2 ^ 32 - c.outlen) % 2 ^ 32
    stand (.emit l.posn c.outlen)
    let out ← access
      (if c.outlen = 0 ∨ copyFrom + c.outlen ≤ s.windowSize then .ok fun i => s.window (copyFrom + i) else .error .wild)
    pure (intelTransform { s with windowPosn := l.posn, r0 := l.r0, r1 := l.r1, r2 := l.r2 } out c.outlen)

/-- The position slots of a window; the loop may not run past the end of the table. -/
def posnSlots (window : Int) : List Nat → Int → Nat → Option Nat
  | [], i, n => if i < window then none else some n
  | e :: es, i, n => if i < window then posnSlots window es (i + 2 ^ e) (n + 1) else some n

/-- `lzx_init`, if there is the memory for it. -/
def lzxInit (heap : Nat → UInt8) (windowBytes : Nat) : Option State :=
  (posnSlots (toInt32 windowBytes) extraBits 0 0).map fun slots =>
    { window := heap, windowSize := windowBytes, windowPosn := 0, r0 := 1, r1 := 1, r2 := 1
      mainElements := (numChars + slots <<< 3) % 2 ^ 16, headerRead := false, blockType := 0, blockLength := 0
      blockRemaining := 0, framesRead := 0, intelFilesize := 0, intelCurpos := 0, intelStarted := false, debugFail := 0
      pretree := ⟨fun _ => 0, fun _ => 0⟩, maintree := ⟨fun _ => 0, fun _ => 0⟩, length := ⟨fun _ => 0, fun _ => 0⟩
      aligned := ⟨fun _ => 0, fun _ => 0⟩ }

/-- Calls one after another, those that follow a failed one included. -/
def calls (fuel : Nat) : List Call → State → Run State
  | [], s => pure s
  | c :: cs, s =>
    let m := lzxDecompress fuel c s
    match m.result with
    | .ok (s, _) => ⟨m.trace ++ (calls fuel cs s).trace, (calls fuel cs s).result⟩
    | .error (.refused _ s) => ⟨m.trace ++ (calls fuel cs s).trace, (calls fuel cs s).result⟩
    | .error e => ⟨m.trace, .error e⟩

end WuBuOS.Lzx
