import MiuiRecovery.Lib.Bytes
import Mathlib.Data.List.Count
import Mathlib.Logic.Function.Basic

/-!
# The partition table of the eMMC

`mmc_scan_partitions` (`mmcutils.c`): the master boot record of the device, and behind its fourth entry a chain of
extended boot records (EBRs). Sector numbers are 32 bits wide, and so is the `long` that `fseek` takes.

* `setEntry_spec`: an entry is stored in the next slot, under its name.
* `readChain_spec`: the loop stores what `follow` reads.
* `follow_iff`: when `follow` reads the chain of the device.
* `mmcScan_iff`: the table is that of the device exactly if its chain can be `Followed`.
-/

namespace Miui

namespace Mmc

open Bytes

/-! ## mmcutils.c -/

structure MmcPartition where
  deviceIndex : Option String
  filesystem : Option String
  name : Option String
  dstatus : Nat
  dtype : Nat
  dfirstsec : Nat
  dsize : Nat
deriving DecidableEq

/-- `MAX_PARTITIONS` slots. -/
abbrev Table := Fin 64 → MmcPartition

/-- `g_mmc_state` and the two counters; `partitions_allocd` is 64 exactly if there is a table. -/
structure MmcState where
  partitions : Option Table
  partitionCount : Int
  ext3Count : Nat
  vfatCount : Nat

/-- What `mmc_read_mbr` works on; `count` is its `mmc_partition_count`. -/
structure Scan where
  mbr : Table
  count : Nat
  ext3Count : Nat
  vfatCount : Nat

def ext3Partitions : List String := ["system", "userdata", "cache", "NONE"]

def vfatPartitions : List String := ["modem", "NONE"]

/-- The name at the counter, which stays at the last one. -/
def nextName (names : List String) (count : Nat) : Option (Option String × Nat) := do
  let name ← names[count]?
  if name = "NONE" then some (none, count) else some (some name, count + 1)

def mmcPartitionName (mbr : MmcPartition) (type : Nat) (s : Scan) : Option (MmcPartition × Scan) :=
  if type = 0x48 then some ({ mbr with name := some "boot" }, s)
  else if type = 0x71 then some ({ mbr with name := some "recovery" }, s)
  else if type = 0x83 then do
    let (name, count) ← nextName ext3Partitions s.ext3Count
    some ({ mbr with name := name.or mbr.name, filesystem := some "ext3" }, { s with ext3Count := count })
  else if type = 0xC then do
    let (name, count) ← nextName vfatPartitions s.vfatCount
    some ({ mbr with name := name.or mbr.name, filesystem := some "vfat" }, { s with vfatCount := count })
  else some (mbr, s)

/-- A byte of a sector; every index below is that of one of its 512 bytes. -/
def byteAt (buffer : Bytes) (i : Nat) : Nat := (buffer.getD i 0).toNat

/-- `GET_LWORD_FROM_BYTE` -/
def lword (buffer : Bytes) (i : Nat) : Nat := ofLE ((buffer.drop i).take 4)

/-- `TABLE_SIGNATURE` -/
def signed (buffer : Bytes) : Bool := byteAt buffer 0x1FE == 0x55 && byteAt buffer 0x1FF == 0xAA

/-- The slot at `mmc_partition_count` is filled from the entry at `idx`, whose sectors count from `base` on: `none` where
there is no such slot. -/
def setEntry (device : String) (buffer : Bytes) (idx base : Nat) (s : Scan) : Option Scan :=
  if h : s.count < 64 then do
    let p := { s.mbr ⟨s.count, h⟩ with
      dstatus := byteAt buffer idx
      dtype := byteAt buffer (idx + 4)
      dfirstsec := (lword buffer (idx + 8) + base) % 2 ^ 32
      dsize := lword buffer (idx + 12) }
    let (p, s') ← mmcPartitionName p p.dtype s
    let p := { p with deviceIndex := some (device ++ "p" ++ toString (s.count + 1)) }
    some { s' with mbr := Function.update s.mbr ⟨s.count, h⟩ p, count := s.count + 1 }
  else none

/-- The loop over the `k` primary entries from `i` on; `true` where the table is full. -/
def primaryLoop (device : String) (buffer : Bytes) : Nat → Nat → Scan → Option (Scan × Bool)
  | 0, _, s => some (s, false)
  | k + 1, i, s => do
    let s ← setEntry device buffer (0x1BE + i * 16) 0 s
    if s.count = 64 then some (s, true) else primaryLoop device buffer k (i + 1) s

/-- The open device; `reads` are the sectors that were meant, with the offsets that were read. -/
structure File where
  pos : Nat
  reads : List (Nat × Nat)

/-- `fseek` with an unsigned offset: as a `long` of 32 bits it may be negative, and then nothing happens. -/
def File.seek (fd : File) (off : Nat) : File :=
  if off % 2 ^ 32 < 2 ^ 31 then { fd with pos := off % 2 ^ 32 } else fd

/-- `fread` of 512 bytes, which are to be those of a sector. -/
def File.read (fd : File) (disk : Bytes) (sector : Nat) : Option Bytes × File :=
  (slice disk fd.pos 512, ⟨fd.pos + 512, fd.reads ++ [(sector, fd.pos)]⟩)

/-- The loop over the chain, for at most `fuel` EBRs; the result is that of `mmc_read_mbr`. -/
def ebrLoop (device : String) (disk : Bytes) (EBR_first_sec : Nat) :
    Nat → Nat → Bytes → File → Scan → Option (Int × Scan × File)
  | 0, _, _, _, _ => none
  | fuel + 1, EBR_current_sec, buffer, fd, s =>
    if !signed buffer then some (s.count, s, fd)
    else do
      let s ← setEntry device buffer 0x1BE EBR_current_sec s
      if s.count = 64 then some (s.count, s, fd)
      else
        let dfirstsec := lword buffer (0x1CE + 8)
        if dfirstsec = 0 then some (s.count, s, fd)
        else
          match (fd.seek ((EBR_first_sec + dfirstsec) * 512)).read disk (EBR_first_sec + dfirstsec) with
          | (none, fd) => some (-1, s, fd)
          | (some buffer, fd) =>
            ebrLoop device disk EBR_first_sec fuel ((EBR_first_sec + dfirstsec) % 2 ^ 32) buffer fd s

/-- `mmc_read_mbr`; `disk` is `none` where the device cannot be opened. -/
def mmcReadMbr (device : String) (disk : Option Bytes) (s : Scan) : Option (Int × Scan × File) :=
  match disk with
  | none => some (-1, s, ⟨0, []⟩)
  | some disk =>
    match (⟨0, []⟩ : File).read disk 0 with
    | (none, fd) => some (-1, s, fd)
    | (some buffer, fd) =>
      if !signed buffer then some (-1, s, fd)
      else do
        let (s, full) ← primaryLoop device buffer 4 0 s
        if full then some (s.count, s, fd)
        -- `dtype` and `dfirstsec` are those of the last entry
        else if byteAt buffer (0x1EE + 4) ≠ 0x05 then some (s.count, s, fd)
        else
          let dfirstsec := lword buffer (0x1EE + 8)
          match (fd.seek (dfirstsec * 512)).read disk dfirstsec with
          | (none, fd) => some (-1, s, fd)
          | (some buffer, fd) => ebrLoop device disk dfirstsec 64 dfirstsec buffer fd s

/-- The strings of a slot are freed. -/
def MmcPartition.clear (p : MmcPartition) : MmcPartition := { p with deviceIndex := none, filesystem := none, name := none }

/-- `mmc_scan_partitions`; `malloc` tells whether there is memory for a table. The result is `none` where a slot or a name
outside of its table is accessed. -/
def mmcScanPartitions (malloc : Bool) (disk : Option Bytes) (g : MmcState) : Option (MmcState × Int × List (Nat × Nat)) :=
  match if malloc then some (g.partitions.getD fun _ => ⟨none, none, none, 0, 0, 0, 0⟩) else g.partitions with
  | none => some (g, -1, [])
  | some table => do
    let (ret, s, fd) ← mmcReadMbr "/dev/block/mmcblk0" disk ⟨fun i => (table i).clear, 0, 0, 0⟩
    some (⟨some s.mbr, ret, s.ext3Count, s.vfatCount⟩, ret, fd.reads)

/-! ## The entries of a table -/

/-- An entry of a table; `first` is the number of its first sector. -/
structure Entry where
  status : Nat
  type : Nat
  first : Nat
  size : Nat
deriving DecidableEq

/-- The entry at `idx`, whose sectors count from `base` on. -/
def entryAt (buffer : Bytes) (idx base : Nat) : Entry :=
  ⟨byteAt buffer idx, byteAt buffer (idx + 4), lword buffer (idx + 8) + base, lword buffer (idx + 12)⟩

/-- Sector numbers of 32 bits. -/
def Entry.wrapped (e : Entry) : Entry := { e with first := e.first % 2 ^ 32 }

/-- The number of entries of a type. -/
def rank (before : List Entry) (type : Nat) : Nat := before.countP (·.type == type)

/-- The name of the entry that has `r` of its type before it. -/
def nameOf (type r : Nat) : Option String :=
  if type = 0x48 then some "boot"
  else if type = 0x71 then some "recovery"
  else if type = 0x83 then ["system", "userdata", "cache"][r]?
  else if type = 0xC then ["modem"][r]?
  else none

def filesystemOf (type : Nat) : Option String :=
  if type = 0x83 then some "ext3" else if type = 0xC then some "vfat" else none

/-- The slot of an entry behind the others. -/
def slotOf (device : String) (before : List Entry) (e : Entry) : MmcPartition where
  deviceIndex := some (device ++ "p" ++ toString (before.length + 1))
  filesystem := filesystemOf e.type
  name := nameOf e.type (rank before e.type)
  dstatus := e.status
  dtype := e.type
  dfirstsec := e.first
  dsize := e.size

/-- The entries `es` are stored, and no others. -/
structure Loaded (device : String) (s : Scan) (es : List Entry) : Prop where
  count : s.count = es.length
  ext3 : s.ext3Count = min 3 (rank es 0x83)
  vfat : s.vfatCount = min 1 (rank es 0xC)
  slots : ∀ (i : Fin 64) (e : Entry), es[i.1]? = some e → s.mbr i = slotOf device (es.take i) e
  clear : ∀ i : Fin 64, es.length ≤ i → (s.mbr i).clear = s.mbr i

variable {device : String} {s : Scan} {es : List Entry} {buffer disk : Bytes}

theorem rank_concat (es : List Entry) (e : Entry) (type : Nat) :
    rank (es ++ [e]) type = rank es type + if e.type = type then 1 else 0 := by
  rw [rank, List.countP_append, ← rank, List.countP_singleton]
  simp

/-- The names of a table are given out in their order, and then no more. -/
theorem nextName_eq (names : List String) (hnames : "NONE" ∉ names) (r : Nat) :
    nextName (names ++ ["NONE"]) (min names.length r) = some (names[r]?, min names.length (r + 1)) := by
  rcases Nat.lt_or_ge r names.length with hr | hr
  · have hname : (names ++ ["NONE"])[min names.length r]? = some names[r] := by
      rw [Nat.min_eq_right (Nat.le_of_lt hr), List.getElem?_append_left hr, List.getElem?_eq_getElem hr]
    have hne : names[r] ≠ "NONE" := fun h => hnames (h ▸ List.getElem_mem hr)
    rw [nextName, hname, List.getElem?_eq_getElem hr]
    simp only [Option.bind_eq_bind, Option.bind_some, hne, ↓reduceIte, Nat.min_eq_right (Nat.le_of_lt hr),
      Nat.min_eq_right (Nat.succ_le_of_lt hr)]
  · have hname : (names ++ ["NONE"])[min names.length r]? = some "NONE" := by
      rw [Nat.min_eq_left hr, List.getElem?_append_right (Nat.le_refl _), Nat.sub_self]
      rfl
    rw [nextName, hname, List.getElem?_eq_none hr, Nat.min_eq_left hr, Nat.min_eq_left (Nat.le_succ_of_le hr)]
    rfl

/-- A cleared slot gets the name of its entry. -/
theorem mmcPartitionName_spec {p : MmcPartition} (hp : p.clear = p) (h3 : s.ext3Count = min 3 (rank es 0x83))
    (h1 : s.vfatCount = min 1 (rank es 0xC)) (e : Entry) (he : p.dtype = e.type) :
    ∃ s', mmcPartitionName p p.dtype s =
        some ({ p with name := nameOf e.type (rank es e.type), filesystem := filesystemOf e.type }, s') ∧
      s'.mbr = s.mbr ∧ s'.count = s.count ∧ s'.ext3Count = min 3 (rank (es ++ [e]) 0x83) ∧
      s'.vfatCount = min 1 (rank (es ++ [e]) 0xC) := by
  obtain ⟨device, filesystem, name, status, type, first, size⟩ := p
  obtain rfl : none = device := congrArg MmcPartition.deviceIndex hp
  obtain rfl : none = filesystem := congrArg MmcPartition.filesystem hp
  obtain rfl : none = name := congrArg MmcPartition.name hp
  obtain rfl : type = e.type := he
  have hext3 : nextName ext3Partitions s.ext3Count =
      some (["system", "userdata", "cache"][rank es 0x83]?, min 3 (rank es 0x83 + 1)) := by
    rw [h3]
    exact nextName_eq ["system", "userdata", "cache"] (by decide) _
  have hvfat : nextName vfatPartitions s.vfatCount = some (["modem"][rank es 0xC]?, min 1 (rank es 0xC + 1)) := by
    rw [h1]
    exact nextName_eq ["modem"] (by decide) _
  rw [mmcPartitionName, rank_concat, rank_concat]
  by_cases h48 : e.type = 0x48
  · exact ⟨s, by simp [h48, nameOf, filesystemOf], rfl, rfl, by simp [h48, h3], by simp [h48, h1]⟩
  by_cases h71 : e.type = 0x71
  · exact ⟨s, by simp [h71, nameOf, filesystemOf], rfl, rfl, by simp [h71, h3], by simp [h71, h1]⟩
  by_cases h83 : e.type = 0x83
  · refine ⟨{ s with ext3Count := min 3 (rank es 0x83 + 1) }, ?_, rfl, rfl, by simp [h83], by simp [h83, h1]⟩
    simp [h83, nameOf, filesystemOf, hext3]
  by_cases hC : e.type = 0xC
  · refine ⟨{ s with vfatCount := min 1 (rank es 0xC + 1) }, ?_, rfl, rfl, by simp [hC, h3], by simp [hC]⟩
    simp [hC, nameOf, filesystemOf, hvfat]
  · exact ⟨s, by simp [h48, h71, h83, hC, nameOf, filesystemOf], rfl, rfl, by simp [h83, h3], by simp [hC, h1]⟩

/-- An entry is stored in the next slot. -/
theorem setEntry_spec (buffer : Bytes) (idx base : Nat) (h : Loaded device s es) (hlt : es.length < 64) :
    ∃ s', setEntry device buffer idx base s = some s' ∧
      Loaded device s' (es ++ [(entryAt buffer idx base).wrapped]) := by
  have hcount : s.count < 64 := h.count ▸ hlt
  let e := (entryAt buffer idx base).wrapped
  let p : MmcPartition := { s.mbr ⟨s.count, hcount⟩ with
    dstatus := byteAt buffer idx
    dtype := byteAt buffer (idx + 4)
    dfirstsec := (lword buffer (idx + 8) + base) % 2 ^ 32
    dsize := lword buffer (idx + 12) }
  have hclear : (s.mbr ⟨s.count, hcount⟩).clear = s.mbr ⟨s.count, hcount⟩ := h.clear _ (Nat.le_of_eq h.count.symm)
  have hp : p.clear = p := by
    have hdevice := congrArg MmcPartition.deviceIndex hclear
    have hfilesystem := congrArg MmcPartition.filesystem hclear
    have hname := congrArg MmcPartition.name hclear
    simp only [MmcPartition.clear] at hdevice hfilesystem hname
    simp only [p, MmcPartition.clear, ← hdevice, ← hfilesystem, ← hname]
  obtain ⟨s', hs', hmbr, hcount', h3, h1⟩ := mmcPartitionName_spec hp h.ext3 h.vfat e rfl
  have hset : setEntry device buffer idx base s = some { s' with
      mbr := Function.update s.mbr ⟨s.count, hcount⟩ (slotOf device es e), count := s.count + 1 } := by
    rw [setEntry, dif_pos hcount]
    change (mmcPartitionName p p.dtype s).bind _ = _
    rw [hs', Option.bind_some, slotOf, ← h.count]
    rfl
  refine ⟨_, hset, ?_, h3, h1, fun i e' hi => ?_, fun i hi => ?_⟩
  · rw [List.length_append, List.length_singleton, ← h.count]
  · show Function.update s.mbr ⟨s.count, hcount⟩ (slotOf device es e) i = _
    by_cases hlast : i.1 = es.length
    · have hi' : i = ⟨s.count, hcount⟩ := Fin.ext (hlast.trans h.count.symm)
      rw [hlast, List.getElem?_concat_length] at hi
      rw [hi', Function.update_self, ← hi', hlast, List.take_left, ← Option.some.inj hi]
    · have hlen := (List.getElem?_eq_some_iff.mp hi).1
      rw [List.length_append, List.length_singleton] at hlen
      have hlt : i.1 < es.length := by omega
      have hne : i ≠ ⟨s.count, hcount⟩ := fun h' => hlast ((congrArg Fin.val h').trans h.count)
      rw [List.getElem?_append_left hlt] at hi
      rw [Function.update_of_ne hne, h.slots i e' hi, List.take_append_of_le_length (Nat.le_of_lt hlt)]
  · rw [List.length_append, List.length_singleton] at hi
    have hne : i ≠ ⟨s.count, hcount⟩ := fun h' => by
      have := (congrArg Fin.val h').trans h.count
      omega
    show (Function.update s.mbr _ _ i).clear = Function.update s.mbr _ _ i
    rw [Function.update_of_ne hne]
    exact h.clear i (by omega)

/-! ## Reading the chain -/

/-- The entries that the loop reads from the chain at `rel` on, and whether all reads work; `n` slots are left. -/
def follow (disk : Bytes) (ext : Nat) : Nat → Nat → File → Bool × List Entry × File
  | 0, _, fd => (true, [], fd)
  | n + 1, rel, fd =>
    match (fd.seek ((ext + rel) * 512)).read disk (ext + rel) with
    | (none, fd) => (false, [], fd)
    | (some buffer, fd) =>
      if !signed buffer then (true, [], fd)
      else
        let e := (entryAt buffer 0x1BE (ext + rel)).wrapped
        let dfirstsec := lword buffer (0x1CE + 8)
        if dfirstsec = 0 then (true, [e], fd)
        else ((follow disk ext n dfirstsec fd).1, e :: (follow disk ext n dfirstsec fd).2.1,
          (follow disk ext n dfirstsec fd).2.2)

theorem entryAt_wrapped (buffer : Bytes) (idx S : Nat) :
    (entryAt buffer idx (S % 2 ^ 32)).wrapped = (entryAt buffer idx S).wrapped := by
  simp only [entryAt, Entry.wrapped, Nat.add_mod_mod]

/-- The EBR at `rel` is read, and the loop goes on from it. -/
def chainFrom (device : String) (disk : Bytes) (ext fuel rel : Nat) (fd : File) (s : Scan) : Option (Int × Scan × File) :=
  match (fd.seek ((ext + rel) * 512)).read disk (ext + rel) with
  | (none, fd) => some (-1, s, fd)
  | (some buffer, fd) => ebrLoop device disk ext fuel ((ext + rel) % 2 ^ 32) buffer fd s

/-- A round of the loop, for an EBR. -/
theorem ebrLoop_step (disk : Bytes) (ext fuel rel : Nat) (fd : File) (h : Loaded device s es) (hlt : es.length < 64)
    (hsigned : signed buffer = true) :
    ∃ s', Loaded device s' (es ++ [(entryAt buffer 0x1BE (ext + rel)).wrapped]) ∧
      ebrLoop device disk ext (fuel + 1) ((ext + rel) % 2 ^ 32) buffer fd s =
        if es.length + 1 = 64 ∨ lword buffer (0x1CE + 8) = 0 then some (((es.length + 1 : Nat) : Int), s', fd)
        else chainFrom device disk ext fuel (lword buffer (0x1CE + 8)) fd s' := by
  obtain ⟨s', hset, hloaded⟩ := setEntry_spec buffer 0x1BE ((ext + rel) % 2 ^ 32) h hlt
  rw [entryAt_wrapped] at hloaded
  have hcount : s'.count = es.length + 1 := by rw [hloaded.count, List.length_append, List.length_singleton]
  refine ⟨s', hloaded, ?_⟩
  rw [ebrLoop, hsigned, hset]
  simp only [Bool.not_true, Bool.false_eq_true, ↓reduceIte, Option.bind_eq_bind, Option.bind_some, hcount]
  by_cases hfull : es.length + 1 = 64
  · simp [hfull]
  · by_cases hnext : lword buffer (0x1CE + 8) = 0
    · simp [hfull, hnext]
    · rw [if_neg hfull, if_neg hnext, if_neg (by simp [hfull, hnext])]
      rfl

/-- The loop stores what is read. -/
theorem chainFrom_spec (disk : Bytes) (ext n fuel rel : Nat) (fd : File) (h : Loaded device s es) (hn : es.length + n = 64)
    (hpos : 0 < n) (hfuel : n ≤ fuel) :
    ∃ s', chainFrom device disk ext fuel rel fd s =
        some (if (follow disk ext n rel fd).1 then ((es ++ (follow disk ext n rel fd).2.1).length : Int) else -1,
          s', (follow disk ext n rel fd).2.2) ∧
      Loaded device s' (es ++ (follow disk ext n rel fd).2.1) ∧ (es ++ (follow disk ext n rel fd).2.1).length ≤ 64 := by
  induction n generalizing es s rel fd fuel with
  | zero => exact absurd hpos (Nat.lt_irrefl 0)
  | succ n ih =>
    obtain ⟨fuel, rfl⟩ := Nat.exists_eq_succ_of_ne_zero (show fuel ≠ 0 by omega)
    rw [chainFrom, follow]
    obtain ⟨block, fd'⟩ := (fd.seek ((ext + rel) * 512)).read disk (ext + rel)
    cases block with
    | none => exact ⟨s, rfl, by simpa using h, by simp; omega⟩
    | some buffer =>
      by_cases hsigned : signed buffer = true
      · obtain ⟨s', hloaded, hloop⟩ := ebrLoop_step disk ext fuel rel fd' h (by omega) hsigned
        simp only [hsigned, Bool.not_true, Bool.false_eq_true, ↓reduceIte, hloop]
        by_cases hnext : lword buffer (0x1CE + 8) = 0
        · rw [if_pos (.inr hnext), if_pos hnext]
          exact ⟨s', by simp, hloaded, by simp; omega⟩
        · rw [if_neg hnext]
          cases n with
          | zero =>
            rw [if_pos (.inl (by omega)), follow]
            exact ⟨s', by simp, hloaded, by simp; omega⟩
          | succ n =>
            rw [if_neg (by simp only [hnext, or_false]; omega)]
            obtain ⟨s'', hchain, hloaded', hle⟩ := ih fuel (lword buffer (0x1CE + 8)) fd' hloaded
              (by rw [List.length_append, List.length_singleton]; omega) (Nat.succ_pos n) (by omega)
            rw [List.append_assoc, List.singleton_append] at hchain hloaded' hle
            exact ⟨s'', hchain, hloaded', hle⟩
      · refine ⟨s, ?_, by simpa [hsigned] using h, by simp [hsigned]; omega⟩
        simp only [hsigned, Bool.not_false, ↓reduceIte, List.append_nil]
        rw [ebrLoop.eq_def]
        simp [hsigned, h.count]

/-! ## The chain of the device -/

/-- The logical partitions of the chain at `rel`, at most `n`: their sectors count from their own EBR on. -/
def ebrs (disk : Bytes) (ext : Nat) : Nat → Nat → List Entry
  | 0, _ => []
  | n + 1, rel =>
    match slice disk (512 * (ext + rel)) 512 with
    | none => []
    | some buffer =>
      if !signed buffer then []
      else
        entryAt buffer 0x1BE (ext + rel) ::
          if lword buffer (0x1CE + 8) = 0 then [] else ebrs disk ext n (lword buffer (0x1CE + 8))

/-- The chain can be followed from `rel` on, behind the sector `prev`: the offset of every EBR is a `long` (or `fseek`
fails and the EBR is next in the file), every EBR is on the device, and sector numbers do not wrap. -/
def Followed (disk : Bytes) (ext : Nat) : Nat → Nat → Nat → Prop
  | 0, _, _ => True
  | n + 1, prev, rel =>
    (ext + rel < 2 ^ 22 ∨ ext + rel = prev + 1 ∧ 2 ^ 31 ≤ 512 * (ext + rel) % 2 ^ 32) ∧
      ∃ buffer, slice disk (512 * (ext + rel)) 512 = some buffer ∧
        (signed buffer = true →
          lword buffer (0x1BE + 8) + (ext + rel) < 2 ^ 32 ∧
            (lword buffer (0x1CE + 8) ≠ 0 → Followed disk ext n (ext + rel) (lword buffer (0x1CE + 8))))

/-- Every sector is read at its own offset. -/
def File.Right (fd : File) : Prop := ∀ r ∈ fd.reads, r.2 = 512 * r.1

theorem seek_reads (fd : File) (off : Nat) : (fd.seek off).reads = fd.reads := by
  rw [File.seek]
  split <;> rfl

/-- What is read at the offset `pos`, and what is left to be read. -/
theorem follow_at {ext rel n pos : Nat} {fd : File} (hpos : (fd.seek ((ext + rel) * 512)).pos = pos) :
    follow disk ext (n + 1) rel fd =
      match slice disk pos 512 with
      | none => (false, [], ⟨pos + 512, fd.reads ++ [(ext + rel, pos)]⟩)
      | some buffer =>
        if signed buffer = false then (true, [], ⟨pos + 512, fd.reads ++ [(ext + rel, pos)]⟩)
        else if lword buffer (0x1CE + 8) = 0 then
          (true, [(entryAt buffer 0x1BE (ext + rel)).wrapped], ⟨pos + 512, fd.reads ++ [(ext + rel, pos)]⟩)
        else
          let rest := follow disk ext n (lword buffer (0x1CE + 8)) ⟨pos + 512, fd.reads ++ [(ext + rel, pos)]⟩
          (rest.1, (entryAt buffer 0x1BE (ext + rel)).wrapped :: rest.2.1, rest.2.2) := by
  rw [follow, File.read, hpos, seek_reads]
  cases slice disk pos 512 with
  | none => rfl
  | some buffer => simp only [Bool.not_eq_true']

/-- The first read stays recorded if those behind it are only added. -/
theorem follow_first {disk : Bytes} {ext n : Nat}
    (hrest : ∀ rel fd, fd.reads <+: (follow disk ext n rel fd).2.2.reads) (rel : Nat) (fd : File) :
    fd.reads ++ [(ext + rel, (fd.seek ((ext + rel) * 512)).pos)] <+: (follow disk ext (n + 1) rel fd).2.2.reads := by
  rw [follow_at rfl]
  split
  · exact List.prefix_refl _
  · next buffer _ =>
    split
    · exact List.prefix_refl _
    · split
      · exact List.prefix_refl _
      · exact hrest (lword buffer (0x1CE + 8))
          ⟨(fd.seek ((ext + rel) * 512)).pos + 512, fd.reads ++ [(ext + rel, (fd.seek ((ext + rel) * 512)).pos)]⟩

theorem follow_reads (disk : Bytes) (ext n rel : Nat) (fd : File) : fd.reads <+: (follow disk ext n rel fd).2.2.reads := by
  induction n generalizing rel fd with
  | zero => exact List.prefix_refl _
  | succ n ih => exact (List.prefix_append _ _).trans (follow_first ih rel fd)

/-- An offset is right exactly if it is a `long`, or if the sector is the next one anyway. -/
theorem seek_pos {fd : File} {prev : Nat} (hpos : fd.pos = 512 * (prev + 1)) (sector : Nat) :
    (fd.seek (sector * 512)).pos = 512 * sector ↔
      (sector < 2 ^ 22 ∨ sector = prev + 1 ∧ 2 ^ 31 ≤ 512 * sector % 2 ^ 32) := by
  rw [File.seek]
  split
  · next hlong =>
    simp only
    omega
  · next hlong =>
    rw [hpos]
    omega

/-- The chain is read as it is exactly if it can be followed. -/
theorem follow_iff (disk : Bytes) (ext n prev rel : Nat) (fd : File) (hpos : fd.pos = 512 * (prev + 1)) (hright : fd.Right) :
    ((follow disk ext n rel fd).1 = true ∧ (follow disk ext n rel fd).2.1 = ebrs disk ext n rel ∧
        (follow disk ext n rel fd).2.2.Right) ↔ Followed disk ext n prev rel := by
  induction n generalizing rel fd prev with
  | zero => exact iff_of_true ⟨rfl, rfl, hright⟩ trivial
  | succ n ih =>
    rw [Followed, ← seek_pos hpos]
    by_cases hoff : (fd.seek ((ext + rel) * 512)).pos = 512 * (ext + rel)
    · rw [follow_at hoff, ebrs]
      have hright' : File.Right ⟨512 * (ext + rel) + 512, fd.reads ++ [(ext + rel, 512 * (ext + rel))]⟩ := by
        intro r hr
        rcases List.mem_append.mp hr with hr | hr
        · exact hright r hr
        · rw [List.mem_singleton.mp hr]
      simp only [hoff, true_and]
      cases slice disk (512 * (ext + rel)) 512 with
      | none => simp
      | some buffer =>
        simp only [Option.some.injEq, exists_eq_left']
        by_cases hsigned : signed buffer = true
        · have hwrapped : (entryAt buffer 0x1BE (ext + rel)).wrapped = entryAt buffer 0x1BE (ext + rel) ↔
              lword buffer (0x1BE + 8) + (ext + rel) < 2 ^ 32 := by
            simp only [Entry.wrapped, entryAt, Entry.mk.injEq, true_and, and_true]
            exact Nat.mod_eq_iff_lt (by decide)
          simp only [hsigned, Bool.true_eq_false, Bool.not_true, Bool.false_eq_true, ↓reduceIte, forall_true_left]
          by_cases hnext : lword buffer (0x1CE + 8) = 0
          · simp only [hnext, ↓reduceIte, ne_eq, not_true_eq_false, false_implies, and_true, List.cons.injEq, hwrapped,
              hright', true_and]
          · simp only [hnext, ↓reduceIte, ne_eq, not_false_eq_true, forall_true_left, List.cons.injEq, hwrapped]
            rw [← ih (ext + rel) (lword buffer (0x1CE + 8)) _ (by simp; omega) hright']
            tauto
        · simp [hsigned, hright']
    · refine iff_of_false (fun h => hoff ?_) fun h => hoff h.1
      exact h.2.2 _ ((follow_first (follow_reads disk ext n) rel fd).subset (List.mem_append_right _ List.mem_cons_self))

/-! ## The scan -/

/-- The four primary entries. -/
def primaries (buffer : Bytes) : List Entry := (List.range 4).map fun i => entryAt buffer (0x1BE + i * 16) 0

/-- A master boot record: it is signed, and at most one of its entries is an extended partition. -/
structure ValidMbr (disk mbr : Bytes) : Prop where
  read : slice disk 0 512 = some mbr
  signed : signed mbr = true
  extended : (primaries mbr).countP (·.type == 0x05) ≤ 1

/-- The partitions of a device: the primary entries and behind them those of the extended partition, as far as there are
slots. -/
def listing (disk mbr : Bytes) : List Entry :=
  primaries mbr ++ match (primaries mbr).find? (·.type == 0x05) with
    | none => []
    | some e => ebrs disk e.first 60 0

/-- A scan lists the partitions of the device, with their names, and reads every EBR at the offset of its sector. -/
def Lists (disk mbr : Bytes) (g : MmcState) : Prop :=
  ∃ table g' reads, mmcScanPartitions true (some disk) g = some (g', ((listing disk mbr).length : Int), reads) ∧
    (listing disk mbr).length ≤ 64 ∧ g'.partitionCount = (listing disk mbr).length ∧ g'.partitions = some table ∧
    (∀ (i : Fin 64) (e : Entry), (listing disk mbr)[i.1]? = some e →
      table i = slotOf "/dev/block/mmcblk0" ((listing disk mbr).take i) e) ∧
    ∀ r ∈ reads, r.2 = 512 * r.1

/-- The extended partition, if there is one, is the fourth entry and its chain can be followed; or its first sector is
no EBR at all. -/
def Plain (disk mbr : Bytes) : Prop :=
  ∀ e, (primaries mbr).find? (·.type == 0x05) = some e →
    if byteAt mbr (0x1EE + 4) = 0x05 then Followed disk e.first 60 0 0
    else ∀ ebr, slice disk (512 * e.first) 512 = some ebr → signed ebr = false

theorem lword_lt (buffer : Bytes) (i : Nat) : lword buffer i < 2 ^ 32 := by
  have hlen : ((buffer.drop i).take 4).length ≤ 4 := List.length_take_le _ _
  have hpow : 256 ^ ((buffer.drop i).take 4).length ≤ 256 ^ 4 := Nat.pow_le_pow_right (by decide) hlen
  exact Nat.lt_of_lt_of_le (ofLE_lt _) hpow

/-- The primary entries are stored. -/
theorem primaryLoop_spec (buffer : Bytes) (k i : Nat) (h : Loaded device s es) (hk : es.length + k < 64) :
    ∃ s', primaryLoop device buffer k i s = some (s', false) ∧
      Loaded device s' (es ++ (List.range' i k).map fun i => entryAt buffer (0x1BE + i * 16) 0) := by
  induction k generalizing es s i with
  | zero => exact ⟨s, rfl, by simpa using h⟩
  | succ k ih =>
    obtain ⟨s', hset, hloaded⟩ := setEntry_spec buffer (0x1BE + i * 16) 0 h (by omega)
    have hwrapped : (entryAt buffer (0x1BE + i * 16) 0).wrapped = entryAt buffer (0x1BE + i * 16) 0 := by
      simp only [Entry.wrapped, entryAt, Nat.add_zero, Nat.mod_eq_of_lt (lword_lt buffer _)]
    rw [hwrapped] at hloaded
    have hcount : s'.count ≠ 64 := by
      rw [hloaded.count, List.length_append, List.length_singleton]
      omega
    obtain ⟨s'', hloop, hloaded'⟩ := ih (i + 1) hloaded (by rw [List.length_append, List.length_singleton]; omega)
    refine ⟨s'', ?_, ?_⟩
    · rw [primaryLoop, hset]
      simp only [Option.bind_eq_bind, Option.bind_some, hcount, ↓reduceIte, hloop]
    · rw [List.append_assoc, List.singleton_append] at hloaded'
      exact hloaded'

/-- What is read behind the master boot record. -/
def readEntries (disk mbr : Bytes) : Bool × List Entry × File :=
  if byteAt mbr (0x1EE + 4) = 0x05 then follow disk (lword mbr (0x1EE + 8)) 60 0 ⟨512, [(0, 0)]⟩
  else (true, [], ⟨512, [(0, 0)]⟩)

/-- A signed table is stored as it is read. -/
theorem mmcReadMbr_spec {mbr : Bytes} (h : Loaded device s []) (hread : slice disk 0 512 = some mbr)
    (hsigned : signed mbr = true) :
    ∃ s', mmcReadMbr device (some disk) s =
        some (if (readEntries disk mbr).1 then ((primaries mbr ++ (readEntries disk mbr).2.1).length : Int) else -1, s',
          (readEntries disk mbr).2.2) ∧
      Loaded device s' (primaries mbr ++ (readEntries disk mbr).2.1) ∧
      (primaries mbr ++ (readEntries disk mbr).2.1).length ≤ 64 := by
  obtain ⟨s', hloop, hloaded⟩ := primaryLoop_spec mbr 4 0 h (by decide)
  have hfour : (primaries mbr).length = 4 := rfl
  change Loaded device s' (primaries mbr) at hloaded
  rw [mmcReadMbr, File.read, hread]
  simp only [hsigned, Bool.not_true, Bool.false_eq_true, ↓reduceIte, hloop, Option.bind_eq_bind, Option.bind_some]
  rw [readEntries]
  by_cases htype : byteAt mbr (0x1EE + 4) = 0x05
  · rw [if_neg (not_not.mpr htype), if_pos htype]
    obtain ⟨s'', hchain, hrest⟩ := chainFrom_spec disk (lword mbr (0x1EE + 8)) 60 64 0 ⟨512, [(0, 0)]⟩ hloaded rfl
      (by decide) (by decide)
    refine ⟨s'', ?_, hrest⟩
    have hmod : (lword mbr (0x1EE + 8) + 0) % 2 ^ 32 = lword mbr (0x1EE + 8) := Nat.mod_eq_of_lt (lword_lt mbr _)
    rw [← hchain, chainFrom, hmod]
    rfl
  · rw [if_pos htype, if_neg htype]
    refine ⟨s', ?_, by simpa using hloaded, by simp [hfour]⟩
    simp only [hloaded.count, List.append_nil, ↓reduceIte]
    rfl

theorem loaded_clear (device : String) (table : Table) : Loaded device ⟨fun i => (table i).clear, 0, 0, 0⟩ [] :=
  ⟨rfl, rfl, rfl, fun _ _ h => (nomatch h), fun _ _ => rfl⟩

/-- Every scan ends, within the tables, and finds at most 64 partitions. -/
theorem mmcScan_bound (malloc : Bool) (disk : Option Bytes) (g : MmcState) :
    ∃ g' ret reads, mmcScanPartitions malloc disk g = some (g', ret, reads) ∧ ret ≤ 64 := by
  have hread : ∀ s, Loaded "/dev/block/mmcblk0" s [] →
      ∃ ret s' fd, mmcReadMbr "/dev/block/mmcblk0" disk s = some (ret, s', fd) ∧ ret ≤ 64 := by
    intro s hs
    cases disk with
    | none => exact ⟨_, _, _, rfl, by decide⟩
    | some disk =>
      cases hmbr : slice disk 0 512 with
      | none =>
        refine ⟨-1, s, ⟨512, [(0, 0)]⟩, ?_, by decide⟩
        rw [mmcReadMbr, File.read, hmbr]
        rfl
      | some mbr =>
        by_cases hsigned : signed mbr = true
        · obtain ⟨s', heq, -, hle⟩ := mmcReadMbr_spec hs hmbr hsigned
          refine ⟨_, _, _, heq, ?_⟩
          split
          · exact_mod_cast hle
          · decide
        · refine ⟨-1, s, ⟨512, [(0, 0)]⟩, ?_, by decide⟩
          rw [mmcReadMbr, File.read, hmbr]
          simp [hsigned]
  rw [mmcScanPartitions]
  split
  · exact ⟨_, _, _, rfl, by decide⟩
  · next table _ =>
    obtain ⟨ret, s', fd, heq, hle⟩ := hread _ (loaded_clear _ table)
    exact ⟨⟨some s'.mbr, ret, s'.ext3Count, s'.vfatCount⟩, ret, fd.reads, by rw [heq]; rfl, hle⟩

theorem slotOf_inj {before before' : List Entry} {e e' : Entry} (h : slotOf device before e = slotOf device before' e') :
    e = e' := by
  have hstatus := congrArg MmcPartition.dstatus h
  have htype := congrArg MmcPartition.dtype h
  have hfirst := congrArg MmcPartition.dfirstsec h
  have hsize := congrArg MmcPartition.dsize h
  cases e
  cases e'
  simp only [slotOf] at hstatus htype hfirst hsize
  rw [hstatus, htype, hfirst, hsize]

/-- The listing is right exactly if the entries that are read are those of the device. -/
theorem lists_iff_read {mbr : Bytes} (hvalid : ValidMbr disk mbr) (g : MmcState) :
    Lists disk mbr g ↔ (readEntries disk mbr).1 = true ∧
      primaries mbr ++ (readEntries disk mbr).2.1 = listing disk mbr ∧ (readEntries disk mbr).2.2.Right := by
  obtain ⟨s', heq, hloaded, hle⟩ := mmcReadMbr_spec (loaded_clear "/dev/block/mmcblk0"
    (g.partitions.getD fun _ => ⟨none, none, none, 0, 0, 0, 0⟩)) hvalid.read hvalid.signed
  have hscan : mmcScanPartitions true (some disk) g =
      some (⟨some s'.mbr, if (readEntries disk mbr).1 then ((primaries mbr ++ (readEntries disk mbr).2.1).length : Int)
          else -1, s'.ext3Count, s'.vfatCount⟩,
        if (readEntries disk mbr).1 then ((primaries mbr ++ (readEntries disk mbr).2.1).length : Int) else -1,
        (readEntries disk mbr).2.2.reads) := by
    rw [mmcScanPartitions]
    simp only [↓reduceIte, heq, Option.bind_eq_bind, Option.bind_some]
  constructor
  · rintro ⟨table, g', reads, hg', hle', -, hpartitions, hslots, hright⟩
    rw [hscan] at hg'
    obtain ⟨rfl, hret, rfl⟩ : _ ∧ _ ∧ _ := by
      obtain ⟨hg, hrest⟩ := Prod.mk.inj (Option.some.inj hg')
      obtain ⟨hret, hreads⟩ := Prod.mk.inj hrest
      exact ⟨hg, hret, hreads⟩
    obtain rfl : s'.mbr = table := Option.some.inj hpartitions
    have hok : (readEntries disk mbr).1 = true := by
      by_contra hfail
      rw [if_neg hfail] at hret
      omega
    rw [if_pos hok] at hret
    refine ⟨hok, List.ext_getElem? fun i => ?_, hright⟩
    have hlen : (primaries mbr ++ (readEntries disk mbr).2.1).length = (listing disk mbr).length := by exact_mod_cast hret
    rcases Nat.lt_or_ge i (listing disk mbr).length with hi | hi
    · have hlisted := List.getElem?_eq_getElem hi
      have hloadedi := List.getElem?_eq_getElem (l := primaries mbr ++ (readEntries disk mbr).2.1) (hlen ▸ hi)
      have hslot := hslots ⟨i, by omega⟩ _ hlisted
      rw [hloaded.slots ⟨i, by omega⟩ _ hloadedi] at hslot
      rw [hlisted, hloadedi, slotOf_inj hslot]
    · rw [List.getElem?_eq_none hi, List.getElem?_eq_none (hlen ▸ hi)]
  · rintro ⟨hok, hes, hright⟩
    rw [if_pos hok, hes] at hscan
    rw [hes] at hloaded hle
    exact ⟨s'.mbr, _, _, hscan, hle, rfl, rfl, hloaded.slots, hright⟩

/-- Where the fourth entry is an extended partition, it is the only one. -/
theorem find_extended {mbr : Bytes} (hvalid : ValidMbr disk mbr) (htype : byteAt mbr (0x1EE + 4) = 0x05) :
    (primaries mbr).find? (·.type == 0x05) = some (entryAt mbr 0x1EE 0) := by
  have hprimaries : primaries mbr =
      [entryAt mbr 0x1BE 0, entryAt mbr 0x1CE 0, entryAt mbr 0x1DE 0, entryAt mbr 0x1EE 0] := rfl
  have hlast : ((entryAt mbr 0x1EE 0).type == 0x05) = true := beq_iff_eq.mpr htype
  have hcount := hvalid.extended
  rw [hprimaries] at hcount ⊢
  simp only [List.countP_cons, List.countP_nil, hlast, ↓reduceIte] at hcount
  have hother : ∀ b : Bool, (if b = true then 1 else 0) = 0 → ¬ b = true := by decide
  rw [List.find?_cons_of_neg (hother _ (by omega)), List.find?_cons_of_neg (hother _ (by omega)),
    List.find?_cons_of_neg (hother _ (by omega))]
  exact List.find?_cons_of_pos hlast

theorem ebrs_nil {ext n : Nat} : ebrs disk ext (n + 1) 0 = [] ↔
    ∀ ebr, slice disk (512 * ext) 512 = some ebr → signed ebr = false := by
  rw [ebrs, Nat.add_zero]
  cases slice disk (512 * ext) 512 with
  | none => simp
  | some buffer => cases hsigned : signed buffer <;> simp [hsigned]

/-- Every scan ends, within the tables, with at most 64 partitions; and it lists the partitions of a device exactly if the
device is plain. -/
theorem mmcScan_iff {mbr : Bytes} (hvalid : ValidMbr disk mbr) :
    (∀ malloc device g, ∃ g' ret reads, mmcScanPartitions malloc device g = some (g', ret, reads) ∧ ret ≤ 64) ∧
      ∀ g, Lists disk mbr g ↔ Plain disk mbr := by
  refine ⟨mmcScan_bound, fun g => ?_⟩
  rw [lists_iff_read hvalid, Plain, listing, readEntries, List.append_cancel_left_eq]
  have hright : File.Right ⟨512, [(0, 0)]⟩ := by
    intro r hr
    obtain rfl := List.mem_singleton.mp hr
    rfl
  by_cases htype : byteAt mbr (0x1EE + 4) = 0x05
  · simp only [htype, ↓reduceIte, find_extended hvalid htype, Option.some.injEq, forall_eq']
    exact follow_iff disk _ 60 0 0 ⟨512, [(0, 0)]⟩ rfl hright
  · simp only [htype, ↓reduceIte, true_and, hright, and_true]
    cases (primaries mbr).find? (·.type == 0x05) with
    | none => simp
    | some e =>
      simp only [Option.some.injEq, forall_eq']
      rw [← ebrs_nil (n := 59), eq_comm]

/-- A device of two sectors: the fourth entry is an extended partition at `first`, and sector 1 is an EBR. -/
def chained (first : Bytes) : Bytes :=
  List.replicate 494 0 ++ [0, 0, 0, 0, 5, 0, 0, 0] ++ first ++ [1, 0, 0, 0, 0x55, 0xAA] ++
    List.replicate 446 0 ++ [0, 0, 0, 0, 0x83, 0, 0, 0, 1, 0, 0, 0, 1, 0, 0, 0] ++ List.replicate 48 0 ++ [0x55, 0xAA]

theorem chained_valid : ValidMbr (chained [1, 0, 0, 0]) ((chained [1, 0, 0, 0]).take 512) :=
  ⟨by decide +kernel, by decide +kernel, by decide +kernel⟩

/-- A chain of one EBR in sector 1 is listed. -/
theorem chained_lists : Lists (chained [1, 0, 0, 0]) ((chained [1, 0, 0, 0]).take 512) ⟨none, -1, 0, 0⟩ := by
  refine ((mmcScan_iff chained_valid).2 _).mpr fun e he => ?_
  have hfind : (primaries ((chained [1, 0, 0, 0]).take 512)).find? (·.type == 0x05) = some ⟨0, 5, 1, 1⟩ := by
    decide +kernel
  obtain rfl := Option.some.inj (hfind.symm.trans he)
  rw [if_pos (by decide +kernel)]
  refine ⟨.inl (by decide), (chained [1, 0, 0, 0]).drop 512, by decide +kernel, fun _ => ⟨by decide +kernel, fun h => ?_⟩⟩
  exact absurd (by decide +kernel) h

/-- The extended partition is at sector 2^23 + 1: the EBR is read from offset 512. -/
theorem wrapped_not_lists : ValidMbr (chained [1, 0, 128, 0]) ((chained [1, 0, 128, 0]).take 512) ∧
    ¬ Lists (chained [1, 0, 128, 0]) ((chained [1, 0, 128, 0]).take 512) ⟨none, -1, 0, 0⟩ := by
  have hvalid : ValidMbr (chained [1, 0, 128, 0]) ((chained [1, 0, 128, 0]).take 512) :=
    ⟨by decide +kernel, by decide +kernel, by decide +kernel⟩
  refine ⟨hvalid, fun h => ?_⟩
  have hright := ((lists_iff_read hvalid _).mp h).2.2
  have hread : (8388609, 512) ∈ (readEntries (chained [1, 0, 128, 0]) ((chained [1, 0, 128, 0]).take 512)).2.2.reads := by
    decide +kernel
  exact absurd (hright _ hread) (by decide)

end Mmc

end Miui
