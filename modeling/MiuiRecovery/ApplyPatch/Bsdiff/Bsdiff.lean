import MiuiRecovery.ApplyPatch.Bsdiff.Search
import MiuiRecovery.ApplyPatch.Bsdiff.Bspatch

/-!
# bsdiff

`bsdiff` (`bsdiff.c`): a greedy scan of `new` for matches in `old`. Between two matches the last one is
extended forwards and the next one backwards; what neither covers is extra data. An access out of bounds,
or a loop that does not end, is `none`.
-/

namespace Miui.Bsdiff

/-- `bs[i]` -/
def byteOf (bs : Bytes) (i : Int) : Option UInt8 := if 0 ≤ i then bs[i.toNat]? else none

/-- `old[i] == new[j]` -/
def sameByte (old new : Bytes) (i j : Int) : Option Bool := do
  let a ← byteOf old i
  let b ← byteOf new j
  some (a == b)

/-- `(i + lastoffset < oldsize) && (old[i + lastoffset] == new[i])` -/
def sameAt (old new : Bytes) (lastoffset i : Int) : Option Bool :=
  if i + lastoffset < old.length then sameByte old new (i + lastoffset) i else some false

/-! ## The scan -/

/-- The variables of the loop over `scan`; `found` is its `break`. -/
structure Scan where
  scan : Int
  scsc : Int
  oldscore : Int
  len : Int
  pos : Int
  found : Bool

/-- `for (; scsc < scan + len; scsc++)`: the score of the last match on what the new one covers. -/
def score (old new : Bytes) (lastoffset stop : Int) (st : Int × Int) : Option (Int × Int) :=
  forTo (fun _ (st : Int × Int) => do
    let hit ← sameAt old new lastoffset st.1
    some (st.1 + 1, if hit then st.2 + 1 else st.2)) (stop - st.1).toNat st

/-- A round of the loop over `scan`. -/
def scanStep (I : Arr) (old new : Bytes) (lastoffset : Int) (c : Scan) : Option Scan := do
  let rest ← suffixAt new c.scan
  let (len, pos) ← search I old rest 0 old.length
  let (scsc, oldscore) ← score old new lastoffset (c.scan + len) (c.scsc, c.oldscore)
  if (len = oldscore ∧ len ≠ 0) ∨ len > oldscore + 8 then
    some ⟨c.scan, scsc, oldscore, len, pos, true⟩
  else
    let hit ← sameAt old new lastoffset c.scan
    some ⟨c.scan + 1, scsc, if hit then oldscore - 1 else oldscore, len, pos, false⟩

/-! ## The extension of two matches -/

/-- The best length up to `n`, where `hit` says what the bytes at each step are worth. -/
def extend (hit : Nat → Option Bool) (n : Nat) : Option Int := do
  let (_, _, len) ← forTo (fun k (st : Int × Int × Int) => do
    let (s, S, len) := st
    let b ← hit k
    let s := if b then s + 1 else s
    let i : Int := k + 1
    some (if s * 2 - i > S * 2 - len then (s, s, i) else (s, S, len))) n (0, 0, 0)
  some len

/-- `lenf`, the last match extended forwards -/
def extendForward (old new : Bytes) (lastscan lastpos scan : Int) : Option Int :=
  extend (fun i => sameByte old new (lastpos + i) (lastscan + i))
    (min (scan - lastscan) (old.length - lastpos)).toNat

/-- `lenb`, the next match extended backwards -/
def extendBack (old new : Bytes) (lastscan scan pos : Int) : Option Int :=
  if scan < new.length then
    extend (fun i => sameByte old new (pos - (i + 1)) (scan - (i + 1))) (min (scan - lastscan) pos).toNat
  else some 0

/-- Where both extensions overlap, the cut that keeps most bytes. -/
def cutOverlap (old new : Bytes) (lastscan lastpos scan pos lenf lenb : Int) : Option (Int × Int) :=
  if lastscan + lenf > scan - lenb then do
    let overlap := (lastscan + lenf) - (scan - lenb)
    let (_, _, lens) ← forTo (fun i (st : Int × Int × Int) => do
      let (s, Ss, lens) := st
      let hit ← sameByte old new (lastpos + lenf - overlap + i) (lastscan + lenf - overlap + i)
      let hit' ← sameByte old new (pos - lenb + i) (scan - lenb + i)
      let s := if hit then s + 1 else s
      let s := if hit' then s - 1 else s
      some (if s > Ss then (s, s, (i : Int) + 1) else (s, Ss, lens))) overlap.toNat (0, 0, 0)
    some (lenf + (lens - overlap), lenb - lens)
  else some (lenf, lenb)

/-! ## The output -/

/-- The variables of the outer loop. The control triples go to the patch file, `db` and `eb` are buffers
of `newsize + 1` bytes. -/
structure Encoder where
  scan : Int
  len : Int
  pos : Int
  lastscan : Int
  lastpos : Int
  lastoffset : Int
  ctrl : Bytes
  db : Bytes
  eb : Bytes

/-- A byte put behind the others in a buffer. -/
def push (size : Nat) (buf : Bytes) (b : UInt8) : Option Bytes :=
  if buf.length < size then some (buf ++ [b]) else none

def pushDiff (old new : Bytes) (lastscan lastpos lenf : Int) (db : Bytes) : Option Bytes :=
  forTo (fun i db => do
    let a ← byteOf new (lastscan + i)
    let b ← byteOf old (lastpos + i)
    push (new.length + 1) db (a - b)) lenf.toNat db

def pushExtra (new : Bytes) (start len : Int) (eb : Bytes) : Option Bytes :=
  forTo (fun i eb => do
    let a ← byteOf new (start + i)
    push (new.length + 1) eb a) len.toNat eb

/-- The diff, the extra data and the control triple up to a match. -/
def emit (old new : Bytes) (e : Encoder) (scan len pos : Int) : Option Encoder := do
  let lenf ← extendForward old new e.lastscan e.lastpos scan
  let lenb ← extendBack old new e.lastscan scan pos
  let (lenf, lenb) ← cutOverlap old new e.lastscan e.lastpos scan pos lenf lenb
  let extra := (scan - lenb) - (e.lastscan + lenf)
  let db ← pushDiff old new e.lastscan e.lastpos lenf e.db
  let eb ← pushExtra new (e.lastscan + lenf) extra e.eb
  let ctrl := offtout lenf ++ offtout extra ++ offtout ((pos - lenb) - (e.lastpos + lenf))
  some ⟨scan, len, pos, scan - lenb, pos - lenb, pos - scan, e.ctrl ++ ctrl, db, eb⟩

/-- A round of the outer loop. -/
def encodeStep (I : Arr) (old new : Bytes) (e : Encoder) : Option Encoder := do
  let start := e.scan + e.len
  let c ← loopWhile (fun c : Scan => !c.found && decide (c.scan < new.length)) (scanStep I old new e.lastoffset)
    (new.length + 1) ⟨start, start, 0, e.len, e.pos, false⟩
  if c.len ≠ c.oldscore ∨ c.scan = new.length then emit old new e c.scan c.len c.pos
  else some { e with scan := c.scan, len := c.len, pos := c.pos }

/-- `while (scan < newsize)` -/
def encode (I : Arr) (old new : Bytes) : Option Encoder :=
  loopWhile (fun e : Encoder => e.scan < new.length) (encodeStep I old new) (new.length + 1)
    ⟨0, 0, 0, 0, 0, 0, [], [], []⟩

/-- A string in memory. bzlib and `FillBuffer` take its length as an `int`. -/
structure Buffer where
  data : Bytes
  length_lt : data.length < 2 ^ 31

/-- What a call of `bsdiff` ends with. -/
inductive Outcome
  /-- `err` or `errx` -/
  | exit
  /-- 0, with the patch file and `*IP` -/
  | wrote (patch : Bytes) (I : Arr)

/-- The file behind the last `BZ2_bzWriteClose`; its offsets are `off_t`. -/
def patchFile (bz : Bzlib) (newsize : Nat) (e : Encoder) : Option Bytes :=
  let ctrl := bz.compress e.ctrl
  let db := bz.compress e.db
  let eb := bz.compress e.eb
  let file := Bytes.ascii "BSDIFF40" ++ offtout ctrl.length ++ offtout db.length ++ offtout newsize ++
    ctrl ++ db ++ eb
  if file.length < 2 ^ 31 then some file else none

/-- `bsdiff`; `memI` and `memV` are what the memory of the arrays held before. -/
def bsdiff (bz : Bzlib) (memI memV : Nat → Int) (old : Buffer) (IP : Option Arr) (new : Buffer) :
    Option Outcome := do
  let I ← match IP with
    | some I => some I
    | none => qsufsort old.data ⟨old.data.length + 1, memI⟩ ⟨old.data.length + 1, memV⟩
  let e ← encode I old.data new.data
  match patchFile bz new.data.length e with
  | some file => some (.wrote file I)
  | none => some .exit

end Miui.Bsdiff
