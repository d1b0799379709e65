import MiuiRecovery.Lib.Bytes
import MiuiRecovery.Lib.Loop

/-!
# qsufsort

`split` and `qsufsort` (`bsdiff.c`): the suffixes of `old` are sorted by doubling. `I` lists them group
by group, or holds minus the length of a stretch that is sorted; `V` has the rank of each suffix, which
is the last index of its group. Every access is checked, and a loop that does not end is `none`.
-/

namespace Miui.Bsdiff

/-! ## split -/

/-- `V[I[p] + h]` -/
def key (I V : Arr) (h p : Nat) : Option Int := do
  let s ← I.read p
  V.read (s + h)

/-- A round of the loop over `i` in a small group: `j` entries have the smallest key `x` so far. -/
def gatherStep (V : Arr) (h k i : Nat) (st : Nat × Int × Arr) : Option (Nat × Int × Arr) := do
  let (j, x, I) := st
  let y ← key I V h (k + i)
  let (j, x) := if y < x then (0, y) else (j, x)
  if y = x then
    let I ← I.swap ((k + j : Nat) : Int) ((k + i : Nat) : Int)
    some (j + 1, x, I)
  else some (j, x, I)

/-- The entries from `k` to `stop` with the smallest key, moved to the front, and their number. -/
def gather (V : Arr) (h k stop : Nat) (I : Arr) : Option (Nat × Arr) := do
  let x ← key I V h k
  let (j, _, I) ← forTo (fun i => gatherStep V h k (i + 1)) (stop - k - 1) (1, x, I)
  some (j, I)

/-- `for (i = 0; i < count; i++) V[I[p + i]] = v` -/
def setRanks (I : Arr) (p count : Nat) (v : Int) (V : Arr) : Option Arr :=
  forTo (fun i V => do
    let s ← I.read ((p + i : Nat) : Int)
    V.write s v) count V

/-- `if (count == 1) I[p] = -1` -/
def markSingle (p count : Nat) (I : Arr) : Option Arr := if count = 1 then I.write p (-1) else some I

/-- A round of the loop over `k` in a small group. -/
def sortSmallStep (h stop : Nat) (st : Nat × Arr × Arr) : Option (Nat × Arr × Arr) := do
  let (k, I, V) := st
  let (j, I) ← gather V h k stop I
  let V ← setRanks I k j ((k + j : Nat) - 1) V
  let I ← markSingle k j I
  some (k + j, I, V)

/-- The numbers of keys below and equal to `x`. -/
def countKeys (I V : Arr) (h start len : Nat) (x : Int) : Option (Nat × Nat) :=
  forTo (fun i (st : Nat × Nat) => do
    let y ← key I V h (start + i)
    some (if y < x then st.1 + 1 else st.1, if y = x then st.2 + 1 else st.2)) len (0, 0)

/-- The two `while` loops: `i`, `j` and `k` with the array. -/
structure Cursors where
  i : Nat
  j : Nat
  k : Nat
  I : Arr

/-- The first `while` loop brings the keys below `x` to the front. -/
def splitLessStep (V : Arr) (h : Nat) (x : Int) (jj kk : Nat) (c : Cursors) : Option Cursors := do
  let y ← key c.I V h c.i
  if y < x then some { c with i := c.i + 1 }
  else if y = x then
    let I ← c.I.swap c.i ((jj + c.j : Nat) : Int)
    some { c with I := I, j := c.j + 1 }
  else
    let I ← c.I.swap c.i ((kk + c.k : Nat) : Int)
    some { c with I := I, k := c.k + 1 }

/-- The second `while` loop brings those above `x` to the end. -/
def splitEqualStep (V : Arr) (h : Nat) (x : Int) (jj kk : Nat) (c : Cursors) : Option Cursors := do
  let y ← key c.I V h (jj + c.j)
  if y = x then some { c with j := c.j + 1 }
  else
    let I ← c.I.swap ((jj + c.j : Nat) : Int) ((kk + c.k : Nat) : Int)
    some { c with I := I, k := c.k + 1 }

/-- Order a large group by its keys: below, equal to and above that in the middle. -/
def splitKeys (I V : Arr) (start len h : Nat) : Option (Nat × Nat × Arr) := do
  let x ← key I V h (start + len / 2)
  let (less, equal) ← countKeys I V h start len x
  let jj := start + less
  let kk := jj + equal
  let c ← loopWhile (fun c => c.i < jj) (splitLessStep V h x jj kk) len ⟨start, 0, 0, I⟩
  let c ← loopWhile (fun c => jj + c.j < kk) (splitEqualStep V h x jj kk) len c
  some (jj, kk, c.I)

/-- `if (a < b) split(I, V, a, b - a, h)` -/
def splitPart (split : Arr → Arr → Nat → Nat → Nat → Option (Arr × Arr)) (I V : Arr) (a b h : Nat) :
    Option (Arr × Arr) :=
  if a < b then split I V a (b - a) h else some (I, V)

/-- A large group, with its two recursive calls. -/
def splitLarge (split : Arr → Arr → Nat → Nat → Nat → Option (Arr × Arr)) (I V : Arr)
    (start len h : Nat) : Option (Arr × Arr) := do
  let (jj, kk, I) ← splitKeys I V start len h
  let (I, V) ← splitPart split I V start jj h
  let V ← setRanks I jj (kk - jj) ((kk : Int) - 1) V
  let I ← markSingle jj (kk - jj) I
  splitPart split I V kk (start + len) h

/-- A small group. -/
def splitSmall (I V : Arr) (start len h : Nat) : Option (Arr × Arr) := do
  let (_, I, V) ← loopWhile (fun st => st.1 < start + len) (sortSmallStep h (start + len)) len
    (start, I, V)
  some (I, V)

/-- `split`, with fuel for the depth of its recursion. -/
def split : Nat → Arr → Arr → Nat → Nat → Nat → Option (Arr × Arr)
  | 0, _, _, _, _, _ => none
  | fuel + 1, I, V, start, len, h =>
    if len < 16 then splitSmall I V start len h else splitLarge (split fuel) I V start len h

/-! ## qsufsort -/

/-- `if (len) I[i - len] = -len` -/
def closeRun (i len : Nat) (I : Arr) : Option Arr :=
  if len = 0 then some I else I.write ((i : Int) - len) (-len)

/-- A pass: the index, the length of the sorted stretch before it and the arrays. -/
structure Pass where
  i : Nat
  len : Nat
  I : Arr
  V : Arr

/-- A round of the loop over `i`. -/
def passStep (h : Nat) (p : Pass) : Option Pass := do
  let x ← p.I.read p.i
  if x < 0 then some { p with i := p.i + (-x).toNat, len := p.len + (-x).toNat }
  else
    let I ← closeRun p.i p.len p.I
    let s ← I.read p.i
    let v ← p.V.read s
    let len := v + 1 - p.i
    let (I, V) ← split len.toNat I p.V p.i len.toNat h
    some ⟨p.i + len.toNat, 0, I, V⟩

/-- A round of the loop over `h`. -/
def doubleStep (oldsize : Nat) (st : Nat × Arr × Arr) : Option (Nat × Arr × Arr) := do
  let (h, I, V) := st
  let p ← loopWhile (fun p => p.i < oldsize + 1) (passStep h) (oldsize + 1) ⟨0, 0, I, V⟩
  let I ← closeRun p.i p.len p.I
  some (h + h, I, p.V)

/-- `A[i] += d` -/
def addTo (A : Arr) (i d : Int) : Option Arr := do
  let v ← A.read i
  A.write i (v + d)

variable (old : Bytes)

/-- `old[i]`, as an index of the buckets -/
def oldAt (i : Nat) : Option Int := (old[i]?).map fun c => (c.toNat : Int)

/-- The buckets: for each byte the number of smaller ones. -/
def fillBuckets : Option Arr := do
  let buckets ← forTo (fun i b => do addTo b (← oldAt old i) 1) old.length ⟨256, fun _ => 0⟩
  let buckets ← forTo (fun i b => do addTo b (i + 1) (← b.read i)) 255 buckets
  let buckets ← forTo (fun i b => do b.write (255 - i) (← b.read (254 - i))) 255 buckets
  buckets.write 0 0

/-- `for (i = 0; i < oldsize; i++) I[++buckets[old[i]]] = i` -/
def placeSuffixes (buckets I : Arr) : Option (Arr × Arr) :=
  forTo (fun i (st : Arr × Arr) => do
    let c ← oldAt old i
    let buckets ← addTo st.1 c 1
    let I ← st.2.write (← buckets.read c) i
    some (buckets, I)) old.length (buckets, I)

/-- The first ranks, by the first byte. -/
def firstRanks (buckets V : Arr) : Option Arr := do
  let V ← forTo (fun i V => do V.write i (← buckets.read (← oldAt old i))) old.length V
  V.write old.length 0

/-- The buckets of one suffix, but that of the byte 0, are sorted. -/
def markBuckets (buckets I : Arr) : Option Arr := do
  let I ← forTo (fun i I => do
    let b ← buckets.read (i + 1)
    let b' ← buckets.read i
    if b = b' + 1 then I.write b (-1) else some I) 255 I
  I.write 0 (-1)

/-- `for (i = 0; i < oldsize + 1; i++) I[V[i]] = i` -/
def invertRanks (I V : Arr) : Option Arr :=
  forTo (fun i I => do I.write (← V.read i) i) (old.length + 1) I

/-- `qsufsort` on two arrays of `oldsize + 1` entries. -/
def qsufsort (I V : Arr) : Option Arr := do
  let buckets ← fillBuckets old
  let (buckets, I) ← placeSuffixes old buckets I
  let I ← I.write 0 old.length
  let V ← firstRanks old buckets V
  let I ← markBuckets buckets I
  let (_, I, V) ← loopWhile (fun st => st.2.1.get 0 ≠ -((old.length : Int) + 1))
    (doubleStep old.length) (old.length + 2) (1, I, V)
  invertRanks old I V

/-- The arrays as `malloc` leaves them hold anything. -/
def mallocArr (size : Nat) : Arr := ⟨size, fun _ => 0⟩

end Miui.Bsdiff
