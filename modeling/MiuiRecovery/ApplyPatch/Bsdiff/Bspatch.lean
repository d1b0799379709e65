import MiuiRecovery.Lib.Bytes
import MiuiRecovery.Lib.Loop
import Mathlib.Data.Vector.Basic

/-!
# ApplyBSDiffPatchMem

`offtout` (`bsdiff.c`), `offtin`, `FillBuffer` and `ApplyBSDiffPatchMem` (`bspatch.c`). bzlib is a
parameter: what it compresses a string to, and the stream that some input decodes to.

* `offtin_offtout`: the sign and magnitude of a number survive its eight bytes.
* `fillBuffer_spec`: a stream that has the bytes fills the buffer.
* `patchStep_spec`: one control triple.
-/

namespace Miui.Bsdiff

/-! ## Numbers -/

/-- The low `n` bytes of a number. -/
def leBytes : Nat → Nat → Bytes
  | 0, _ => []
  | n + 1, y => (y % 256).toUInt8 :: leBytes n (y / 256)

/-- The magnitude, and the sign in the top bit. -/
def offtout (x : Int) : Bytes :=
  let y := x.natAbs
  let buf7 := (y / 256 ^ 7 % 256).toUInt8
  leBytes 7 y ++ [if x < 0 then buf7 ||| 0x80 else buf7]

def offtin (buf : Bytes) : Int :=
  let buf7 := buf.getD 7 0
  let y : Int := Bytes.ofLE (buf.take 7 ++ [buf7 &&& 0x7F])
  if buf7 &&& 0x80 ≠ 0 then -y else y

theorem leBytes_length (n y : Nat) : (leBytes n y).length = n := by
  induction n generalizing y with
  | zero => rfl
  | succ n ih => rw [leBytes, List.length_cons, ih]

theorem ofLE_leBytes (n y : Nat) (bs : Bytes) :
    Bytes.ofLE (leBytes n y ++ bs) = y % 256 ^ n + 256 ^ n * Bytes.ofLE bs := by
  induction n generalizing y with
  | zero => simp [leBytes, Nat.mod_one]
  | succ n ih =>
    have hbyte : (y % 256).toUInt8.toNat = y % 256 := by
      rw [Nat.toUInt8_eq, UInt8.toNat_ofNat']
      omega
    rw [leBytes, List.cons_append, Bytes.ofLE, ih, hbyte, Nat.pow_succ, Nat.mul_comm (256 ^ n) 256,
      Nat.mod_mul, Nat.mul_add, Nat.mul_assoc, Nat.add_assoc]

theorem offtout_length (x : Int) : (offtout x).length = 8 := by
  simp [offtout, leBytes_length]

/-- The top bit of a magnitude below `2 ^ 63` is free for the sign. -/
theorem signBit (t : Nat) (ht : t < 128) :
    t.toUInt8 &&& 0x80 = 0 ∧ t.toUInt8 &&& 0x7F = t.toUInt8 ∧ (t.toUInt8 ||| 0x80) &&& 0x80 ≠ 0 ∧
      (t.toUInt8 ||| 0x80) &&& 0x7F = t.toUInt8 ∧ t.toUInt8.toNat = t := by
  revert t
  decide

theorem offtin_offtout {x : Int} (hx : x.natAbs < 2 ^ 63) : offtin (offtout x) = x := by
  obtain ⟨hpos, hlow, hneg, hlow', htop⟩ := signBit (x.natAbs / 256 ^ 7) (by omega)
  have hbyte : x.natAbs / 256 ^ 7 % 256 = x.natAbs / 256 ^ 7 := by omega
  have hlen := leBytes_length 7 x.natAbs
  have hval : Bytes.ofLE (leBytes 7 x.natAbs ++ [(x.natAbs / 256 ^ 7).toUInt8]) = x.natAbs := by
    rw [ofLE_leBytes, Bytes.ofLE, Bytes.ofLE, htop]
    omega
  have hget : ∀ b, (leBytes 7 x.natAbs ++ [b]).getD 7 0 = b := by
    intro b
    rw [List.getD_eq_getElem?_getD, List.getElem?_append_right (by omega), hlen]
    rfl
  have htake : ∀ b, (leBytes 7 x.natAbs ++ [b]).take 7 = leBytes 7 x.natAbs := by
    intro b
    exact List.take_left' hlen
  simp only [offtin, offtout, hbyte, hget, htake]
  by_cases hsign : x < 0
  · simp only [if_pos hsign, hlow', hval]
    rw [if_pos hneg]
    omega
  · simp only [if_neg hsign, hlow, hval, hpos]
    rw [if_neg (by simp)]
    omega

/-! ## bzlib -/

/-- What comes behind the bytes that a stream still decodes to. -/
inductive BzTail
  /-- the end of the stream -/
  | streamEnd
  /-- nothing, `BZ_STREAM_END` has been returned -/
  | done
  /-- the rest of the stream is missing -/
  | noInput
  /-- the rest of the stream, which lies outside the patch -/
  | outside
  | corrupt
deriving DecidableEq

inductive BzStatus
  | ok
  | streamEnd
  | error
  /-- it does not return: it reads outside the patch -/
  | outside
deriving DecidableEq

structure BzStream where
  out : Bytes
  tail : BzTail

/-- `BZ2_bzDecompress` with room for `avail_out` bytes. -/
def BzStream.decompress (s : BzStream) (avail_out : Nat) : BzStatus × Bytes × BzStream :=
  if avail_out ≤ s.out.length then (.ok, s.out.take avail_out, { s with out := s.out.drop avail_out })
  else match s.tail with
    | .streamEnd => (.streamEnd, s.out, ⟨[], .done⟩)
    | .done => (.error, [], s)
    | .noInput => (.ok, s.out, ⟨[], .noInput⟩)
    | .outside => (.outside, s.out, ⟨[], .outside⟩)
    | .corrupt => (.error, s.out, ⟨[], .corrupt⟩)

structure Bzlib where
  compress : Bytes → Bytes
  /-- the stream that some input decodes to -/
  stream : Bytes → BzStream

/-- Streams end by themselves and lose nothing. -/
def Bzlib.Lossless (bz : Bzlib) : Prop :=
  ∀ data rest, bz.stream (bz.compress data ++ rest) = ⟨data, .streamEnd⟩

/-! ## ApplyBSDiffPatchMem -/

/-- Why a call gives no new data. -/
inductive Stop
  /-- it returns an error -/
  | error
  | outOfBounds
  | endless
deriving DecidableEq

/-- An access that must be in bounds. -/
def access {α : Type} : Option α → Except Stop α
  | some a => .ok a
  | none => .error .outOfBounds

/-- Bytes put into a buffer from `p` on. -/
def store (buf : Bytes) (p : Int) (bs : Bytes) : Option Bytes :=
  if bs = [] then some buf
  else if 0 ≤ p ∧ p + bs.length ≤ buf.length then
    some (buf.take p.toNat ++ bs ++ buf.drop (p.toNat + bs.length))
  else none

/-- The `while` loop of `FillBuffer`, with fuel for its rounds. -/
def fillLoop : Nat → Bytes → Int → Nat → BzStream → Except Stop (Bytes × BzStream)
  | _, buffer, _, 0, s => .ok (buffer, s)
  | 0, _, _, _ + 1, _ => .error .endless
  | fuel + 1, buffer, next_out, avail_out + 1, s => do
    let (bzerr, out, s) := s.decompress (avail_out + 1)
    let buffer ← access (store buffer next_out out)
    if bzerr = .outside then .error .outOfBounds
    else if bzerr = .error then .error .error
    else fillLoop fuel buffer (next_out + out.length) (avail_out + 1 - out.length) s

/-- `FillBuffer`; `avail_out` is unsigned. -/
def fillBuffer (buffer : Bytes) (p size : Int) (s : BzStream) : Except Stop (Bytes × BzStream) :=
  let avail_out := (size % 2 ^ 32).toNat
  fillLoop (avail_out + 2) buffer p avail_out s

/-- `new_data[p] += b` -/
def addByte (new_data : Bytes) (p : Int) (b : UInt8) : Option Bytes :=
  if 0 ≤ p ∧ p < new_data.length then
    some (new_data.set p.toNat (new_data.getD p.toNat 0 + b))
  else none

/-- Add `n` bytes of the old data to the diff string. -/
def addOld (old : Bytes) (oldpos newpos : Int) (n : Nat) (new_data : Bytes) : Option Bytes :=
  forTo (fun i new_data =>
    if 0 ≤ oldpos + i ∧ oldpos + i < old.length then
      addByte new_data (newpos + i) (old.getD (oldpos + i).toNat 0)
    else some new_data) n new_data

/-- The loop over the diff string. Its `int i` overflows on its way to a length that is no `int`. -/
def addLoop (old : Bytes) (oldpos newpos ctrl0 : Int) (new_data : Bytes) : Option Bytes :=
  if ctrl0.toNat < 2 ^ 31 then addOld old oldpos newpos ctrl0.toNat new_data else none

/-- The variables of the control loop. -/
structure Patching where
  newpos : Int
  oldpos : Int
  new_data : Bytes
  cstream : BzStream
  dstream : BzStream
  estream : BzStream

/-- A sum of two `off_t`, which wraps around. -/
@[irreducible] def offT (x : Int) : Int := (x + 2 ^ 63) % 2 ^ 64 - 2 ^ 63

/-- A round of the control loop. -/
def patchStep (old : Bytes) (new_size : Int) (p : Patching) : Except Stop Patching := do
  let (buf, cstream) ← fillBuffer (List.replicate 24 0) 0 24 p.cstream
  let ctrl0 := offtin (buf.take 8)
  let ctrl1 := offtin ((buf.drop 8).take 8)
  let ctrl2 := offtin ((buf.drop 16).take 8)
  if offT (p.newpos + ctrl0) > new_size then throw .error
  let (new_data, dstream) ← fillBuffer p.new_data p.newpos ctrl0 p.dstream
  let new_data ← access (addLoop old p.oldpos p.newpos ctrl0 new_data)
  let newpos := offT (p.newpos + ctrl0)
  let oldpos := offT (p.oldpos + ctrl0)
  if offT (newpos + ctrl1) > new_size then throw .error
  let (new_data, estream) ← fillBuffer new_data newpos ctrl1 p.estream
  return ⟨offT (newpos + ctrl1), offT (oldpos + ctrl2), new_data, cstream, dstream, estream⟩

/-- `while (newpos < *new_size)`: each round takes bytes from the control stream. -/
def patchLoop (old : Bytes) (new_size : Int) : Nat → Patching → Except Stop Bytes
  | fuel, p =>
    if p.newpos < new_size then
      match fuel with
      | 0 => .error .endless
      | fuel + 1 => do patchLoop old new_size fuel (← patchStep old new_size p)
    else .ok p.new_data

/-- `ApplyBSDiffPatchMem`; `malloc` gives the bytes of fresh memory. -/
def applyBSDiffPatchMem (bz : Bzlib) (malloc : Nat → Bytes) (old patch : Bytes) (patch_offset : Nat) :
    Except Stop Bytes := do
  if (← access (patch.slice patch_offset 8)) ≠ Bytes.ascii "BSDIFF40" then throw .error
  let ctrl_len := offtin (← access (patch.slice (patch_offset + 8) 8))
  let data_len := offtin (← access (patch.slice (patch_offset + 16) 8))
  let new_size := offtin (← access (patch.slice (patch_offset + 24) 8))
  if ctrl_len < 0 ∨ data_len < 0 ∨ new_size < 0 then throw .error
  let dpos := patch_offset + 32 + ctrl_len.toNat
  let epos := dpos + data_len.toNat
  let cdata ← access (patch.slice (patch_offset + 32) ctrl_len.toNat)
  let ddata ← access (patch.slice dpos data_len.toNat)
  let edata ← access (patch.slice epos (patch.length - epos))
  let cstream := bz.stream cdata
  patchLoop old new_size (cstream.out.length + 1)
    ⟨0, 0, malloc new_size.toNat, cstream, bz.stream ddata, bz.stream edata⟩

/-! ## ApplyBSDiffPatchMem with any patch -/

/-- `len` bytes at an offset that may be negative. -/
def sliceAt (bs : Bytes) (off : Int) (len : Nat) : Option Bytes :=
  if 0 ≤ off then bs.slice off.toNat len else none

structure PatchHeader where
  ctrl_len : Int
  data_len : Int
  new_size : Int

def patchHeader (patch : Bytes) (patch_offset : Int) : Except Stop PatchHeader := do
  if (← access (sliceAt patch patch_offset 8)) ≠ Bytes.ascii "BSDIFF40" then throw .error
  let ctrl_len := offtin (← access (sliceAt patch (patch_offset + 8) 8))
  let data_len := offtin (← access (sliceAt patch (patch_offset + 16) 8))
  let new_size := offtin (← access (sliceAt patch (patch_offset + 24) 8))
  if ctrl_len < 0 ∨ data_len < 0 ∨ new_size < 0 then throw .error
  return ⟨ctrl_len, data_len, new_size⟩

/-- The stream that starts at `next_in`. Of its `avail_in` bytes bzlib reads what it needs, so it reads
outside the patch once those inside are used up. `avail_in` is unsigned. -/
def Bzlib.streamAt (bz : Bzlib) (patch : Bytes) (next_in avail_in : Int) : BzStream :=
  let avail_in := (avail_in % 2 ^ 32).toNat
  let data := if 0 ≤ next_in then (patch.drop next_in.toNat).take avail_in else []
  let s := bz.stream data
  if s.tail = .noInput ∧ data.length < avail_in then { s with tail := .outside } else s

/-- The three streams of a patch, and the new file in fresh memory. -/
def openPatch (bz : Bzlib) (patch : Bytes) (patch_offset : Int) (h : PatchHeader) (new_data : Bytes) :
    Patching :=
  let dpos := offT (patch_offset + 32 + h.ctrl_len)
  let epos := offT (dpos + h.data_len)
  { newpos := 0, oldpos := 0, new_data
    cstream := bz.streamAt patch (patch_offset + 32) h.ctrl_len
    dstream := bz.streamAt patch dpos h.data_len
    estream := bz.streamAt patch epos (patch.length - epos) }

/-- `ApplyBSDiffPatchMem` where `malloc` can fail, the offset can be negative and the blocks can lie
outside the patch. -/
def applyBSDiffPatchMemAt (bz : Bzlib) (malloc : (n : Nat) → Option (List.Vector UInt8 n))
    (old patch : Bytes) (patch_offset : Int) : Except Stop Bytes := do
  let h ← patchHeader patch patch_offset
  let some new_data := malloc h.new_size.toNat | throw .error
  let p := openPatch bz patch patch_offset h new_data.toList
  patchLoop old h.new_size (p.cstream.out.length + 1) p

/-! ## A round that succeeds -/

/-- A string with a part of it replaced. -/
def splice (buf : Bytes) (p : Nat) (bs : Bytes) : Bytes := buf.take p ++ bs ++ buf.drop (p + bs.length)

theorem splice_nil (buf : Bytes) (p : Nat) : splice buf p [] = buf := by
  rw [splice, List.append_nil, List.length_nil, Nat.add_zero, List.take_append_drop]

theorem splice_length (buf bs : Bytes) (p : Nat) (h : p + bs.length ≤ buf.length) :
    (splice buf p bs).length = buf.length := by
  simp only [splice, List.length_append, List.length_take, List.length_drop]
  omega

theorem splice_splice (buf as bs : Bytes) (p : Nat) (h : p + as.length ≤ buf.length) :
    splice (splice buf p as) (p + as.length) bs = splice buf p (as ++ bs) := by
  have hpre : (buf.take p ++ as).length = p + as.length := by
    rw [List.length_append, List.length_take]
    omega
  unfold splice
  rw [List.take_left' hpre, ← List.drop_drop, List.drop_left' hpre, List.drop_drop, List.length_append]
  simp only [List.append_assoc, Nat.add_assoc]

theorem offT_eq {x : Int} (hlow : -2 ^ 63 ≤ x) (hhigh : x < 2 ^ 63) : offT x = x := by
  unfold offT
  omega

theorem offT_add_nat {m n : Nat} (h : m + n < 2 ^ 31) : offT ((m : Int) + n) = (m : Int) + n :=
  offT_eq (by omega) (by omega)

/-- Wrapping between two sums does not change the second one. -/
theorem offT_add (x z : Int) : offT (offT x + z) = offT (x + z) := by
  have hsum : offT x + z + 2 ^ 63 = (x + 2 ^ 63) % 2 ^ 64 + z := by
    unfold offT
    omega
  have hmod : ((x + 2 ^ 63) % 2 ^ 64 + z) % 2 ^ 64 = (x + z + 2 ^ 63) % 2 ^ 64 := by
    rw [Int.emod_add_emod]
    congr 1
    omega
  unfold offT at hsum ⊢
  rw [hsum, hmod]

variable {old bs rest buffer : Bytes} {s : BzStream} {p : Nat}

theorem store_eq (h : p + bs.length ≤ buffer.length) : store buffer p bs = some (splice buffer p bs) := by
  unfold store
  split
  · rename_i hnil
    rw [hnil, splice_nil]
  · rw [if_pos (by omega)]
    rfl

/-- One call of `BZ2_bzDecompress` is enough where the stream has the bytes. -/
theorem fillBuffer_spec (buffer : Bytes) (p : Nat) (bs rest : Bytes) (hout : s.out = bs ++ rest)
    (hp : p + bs.length ≤ buffer.length) (hint : bs.length < 2 ^ 32) :
    fillBuffer buffer p bs.length s = .ok (splice buffer p bs, { s with out := rest }) := by
  have havail : ((bs.length : Int) % 2 ^ 32).toNat = bs.length := by omega
  unfold fillBuffer
  rw [havail]
  cases hlen : bs.length with
  | zero =>
    rw [List.length_eq_zero_iff.mp hlen] at hout ⊢
    rw [splice_nil, fillLoop]
    obtain ⟨out, tail⟩ := s
    rw [show out = rest from hout]
  | succ n =>
    have hcall : s.decompress (n + 1) = (.ok, bs, { s with out := rest }) := by
      unfold BzStream.decompress
      rw [hout, ← hlen, if_pos (by rw [List.length_append]; omega), List.take_left, List.drop_left]
    rw [fillLoop, hcall]
    dsimp only
    rw [store_eq hp, access, hlen, Nat.sub_self]
    rfl

theorem set_middle (as cs : Bytes) (a b : UInt8) : (as ++ a :: cs).set as.length b = as ++ b :: cs := by
  simp

theorem take_succ_getD {bs : Bytes} {i : Nat} (hi : i < bs.length) :
    bs.take (i + 1) = bs.take i ++ [bs.getD i 0] := by
  rw [List.take_add_one, List.getD_eq_getElem?_getD, List.getElem?_eq_getElem hi]
  rfl

theorem drop_getD_cons {bs : Bytes} {i : Nat} (hi : i < bs.length) :
    bs.drop i = bs.getD i 0 :: bs.drop (i + 1) := by
  rw [List.drop_eq_getElem_cons hi, List.getD_eq_getElem?_getD, List.getElem?_eq_getElem hi]
  rfl

/-- The diff string with the old data added to it. -/
theorem addOld_spec (pre post : Bytes) {diff chunk : Bytes} {o n : Nat} (hdiff : diff.length = n)
    (hchunk : chunk.length = n) (hold : o + n ≤ old.length)
    (hadd : ∀ i, i < n → diff.getD i 0 + old.getD (o + i) 0 = chunk.getD i 0) :
    addOld old o pre.length n (pre ++ diff ++ post) = some (pre ++ chunk ++ post) := by
  have hrun := forTo_spec (f := fun (i : Nat) new_data =>
      if (0 : Int) ≤ o + i ∧ (o : Int) + i < old.length then
        addByte new_data (pre.length + i) (old.getD ((o : Int) + i).toNat 0)
      else some new_data)
    (n := n) (s := pre ++ diff ++ post) (fun i m => m = pre ++ chunk.take i ++ diff.drop i ++ post)
    (by simp)
    (by
      rintro i m hi rfl
      refine ⟨_, ?_, rfl⟩
      have hlen : (pre ++ chunk.take i).length = pre.length + i := by
        rw [List.length_append, List.length_take]
        omega
      have hcons : pre ++ chunk.take i ++ diff.drop i ++ post =
          pre ++ chunk.take i ++ diff.getD i 0 :: (diff.drop (i + 1) ++ post) := by
        rw [drop_getD_cons (by omega)]
        simp
      have hnat : ((pre.length : Int) + i).toNat = (pre ++ chunk.take i).length := by omega
      have hget : (pre ++ chunk.take i ++ diff.getD i 0 :: (diff.drop (i + 1) ++ post)).getD
          (pre ++ chunk.take i).length 0 = diff.getD i 0 := by
        rw [List.getD_eq_getElem?_getD, List.getElem?_append_right (Nat.le_refl _), Nat.sub_self]
        rfl
      rw [if_pos (by omega), hcons, addByte, if_pos (by simp; omega), hnat, hget, set_middle,
        show ((o : Int) + i).toNat = o + i by omega, hadd i hi, take_succ_getD (by omega)]
      simp)
  obtain ⟨m, hloop, rfl⟩ := hrun
  rw [List.take_of_length_le (by omega), List.drop_of_length_le (by omega), List.append_nil] at hloop
  exact hloop

variable {diff chunk : Bytes} {a o : Nat} {z : Int} {new_size : Nat}

/-- A control triple with its diff and extra string. -/
theorem patchStep_spec (m : Bytes) (ct dt et : BzTail) (cs ds es extra : Bytes)
    (hdiff : diff.length = chunk.length) (hold : o + chunk.length ≤ old.length)
    (hadd : ∀ i, i < chunk.length → diff.getD i 0 + old.getD (o + i) 0 = chunk.getD i 0)
    (hm : m.length = new_size) (hfit : a + chunk.length + extra.length ≤ new_size)
    (hsize : new_size < 2 ^ 31) (hz : z.natAbs < 2 ^ 63)
    (hnext : offT ((o : Int) + chunk.length + z) = (o : Int) + chunk.length + z) :
    patchStep old new_size ⟨a, o, m,
        ⟨offtout chunk.length ++ (offtout extra.length ++ (offtout z ++ cs)), ct⟩,
        ⟨diff ++ ds, dt⟩, ⟨extra ++ es, et⟩⟩ =
      .ok ⟨(a + chunk.length + extra.length : Nat), (o : Int) + chunk.length + z,
        splice m a (chunk ++ extra), ⟨cs, ct⟩, ⟨ds, dt⟩, ⟨es, et⟩⟩ := by
  have hmidlt : a + chunk.length < 2 ^ 31 := by omega
  have hendlt : a + chunk.length + extra.length < 2 ^ 31 := by omega
  have hint : chunk.length < 2 ^ 31 := by omega
  have hmidfit : ¬ (a : Int) + chunk.length > new_size := by omega
  have hendfit : ¬ (a : Int) + chunk.length + extra.length > new_size := by omega
  have hx := offtout_length chunk.length
  have hy := offtout_length extra.length
  have hz' := offtout_length z
  have hbuf : fillBuffer (List.replicate 24 0) 0 24
      ⟨offtout chunk.length ++ (offtout extra.length ++ (offtout z ++ cs)), ct⟩ =
      .ok (offtout chunk.length ++ (offtout extra.length ++ offtout z), ⟨cs, ct⟩) := by
    have hlen : (offtout chunk.length ++ (offtout extra.length ++ offtout z)).length = 24 := by
      simp only [List.length_append]
      omega
    have := fillBuffer_spec (List.replicate 24 0) 0
      (offtout chunk.length ++ (offtout extra.length ++ offtout z)) cs
      (s := ⟨offtout chunk.length ++ (offtout extra.length ++ (offtout z ++ cs)), ct⟩) (by simp)
      (by rw [hlen, List.length_replicate]) (by omega)
    rw [splice, hlen, List.take_zero, List.nil_append, List.drop_of_length_le (by simp),
      List.append_nil] at this
    exact this
  have hdstep := fillBuffer_spec m a diff ds (s := ⟨diff ++ ds, dt⟩) rfl
    (by omega) (by omega)
  have hastep := addOld_spec (m.take a) (m.drop (a + diff.length)) hdiff rfl hold hadd
  rw [List.length_take_of_le (by omega)] at hastep
  have hmid : m.take a ++ chunk ++ m.drop (a + diff.length) = splice m a chunk := by rw [hdiff, splice]
  rw [hmid] at hastep
  have hmlen := splice_length m chunk a (by omega)
  have hestep := fillBuffer_spec (splice m a chunk) (a + chunk.length) extra es
    (s := ⟨extra ++ es, et⟩) rfl (by omega) (by omega)
  rw [splice_splice _ _ _ _ (by omega)] at hestep
  rw [hdiff] at hdstep
  rw [Int.natCast_add] at hestep
  unfold patchStep
  simp only [hbuf, bind, Except.bind]
  rw [List.take_left' hx, List.drop_left' hx, List.take_left' hy]
  rw [show (16 : Nat) = 8 + 8 from rfl, ← List.drop_drop, List.drop_left' hx, List.drop_left' hy,
    List.take_of_length_le (by omega), offtin_offtout (by omega), offtin_offtout (by omega),
    offtin_offtout hz]
  have hendpos := offT_add_nat hendlt
  rw [Int.natCast_add] at hendpos
  rw [offT_add_nat hmidlt, hendpos, offT_add, hnext, if_neg hmidfit]
  have hloop : addLoop old o a chunk.length (splice m a diff) = some (splice m a chunk) := by
    rw [addLoop, Int.toNat_natCast, if_pos hint]
    exact hastep
  simp only [pure, Except.pure, hdstep, hloop, access]
  rw [if_neg hendfit, hestep, Int.natCast_add, Int.natCast_add]

end Miui.Bsdiff
