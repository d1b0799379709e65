import MiuiRecovery.Mtd.RoundTrip

/-!
# The bootloader message on an MTD partition

`get_bootloader_message_mtd` and `set_bootloader_message_mtd` of `bootloader.cpp` read the first
`MISC_PAGES` pages of `/misc` into an array of that size and copy the message out of it, or into it,
at page `MISC_COMMAND_PAGE`. The message is longer than a page of 512 bytes, so the copy leaves the
array where the two pages from there on are too small for it.

* `readMiscPages_eq`: without read faults the array holds the first bytes of the good blocks.
* `setBootloaderMessageMtd_kept`: a message that fits and that the blocks take is read back, and the
  other bytes of the pages stay.
* `setBootloaderMessageMtd_iff`: where the pages can be read, the message has to fit.
-/

namespace Miui

variable {p : MtdPartition}

def MISC_PAGES : Nat := 3
def MISC_COMMAND_PAGE : Nat := 1

/-- `sizeof(struct bootloader_message)`: command, status and recovery. -/
def messageSize : Nat := 32 + 32 + 1024

/-- The bytes of a `struct bootloader_message`, terminated or not. -/
abbrev MessageBytes : Type := { bs : Bytes // bs.length = messageSize }

/-- What a call meets: the volume, the flash geometry and the driver. -/
structure MiscAnswers (p : MtdPartition) where
  /-- `mtd_find_partition_by_name` knows the device of the volume. -/
  found : Bool
  /-- `mtd_partition_info`: `writesize`, a `__u32`. -/
  write_size : Option UInt32
  read_opens : Bool
  reader : Chip p
  write_opens : Bool
  writer : Chip p

/-- A copy leaves `data[size]`, or `size` is negative: the behaviour is undefined. -/
inductive Overrun
  | overrun
  deriving DecidableEq, Repr

/-- `ssize_t size = write_size * MISC_PAGES` -/
def miscSize (write_size : UInt32) : Int := asInt (write_size.toNat * MISC_PAGES)

/-- The first half of both functions: `write_size` and `data`, `none` for `return -1`. -/
def readMiscPages (a : MiscAnswers p) (fl : Flash p) : Except Overrun (Option (UInt32 × Bytes)) :=
  match a.found, a.write_size with
  | true, some write_size =>
    if a.read_opens = false then .ok none
    else if miscSize write_size < 0 then .error .overrun
    else
      match mtdReadData a.reader fl (miscSize write_size).toNat (mtdReadPartition p) with
      | none => .ok none
      | some (data, _) =>
        if (data.length : Int) ≠ miscSize write_size then .ok none else .ok (some (write_size, data))
  | _, _ => .ok none

/-- `memcpy(out, &data[write_size * MISC_COMMAND_PAGE], sizeof(*out))` -/
def messageAt (write_size : UInt32) (data : Bytes) : Option Bytes :=
  data.slice (write_size.toNat * MISC_COMMAND_PAGE) messageSize

/-- `memcpy(&data[write_size * MISC_COMMAND_PAGE], in, sizeof(*in))` -/
def withMessage (write_size : UInt32) (data : Bytes) (m : MessageBytes) : Option Bytes :=
  if write_size.toNat * MISC_COMMAND_PAGE + messageSize ≤ data.length then
    some (data.take (write_size.toNat * MISC_COMMAND_PAGE) ++ m.val ++
      data.drop (write_size.toNat * MISC_COMMAND_PAGE + messageSize))
  else none

def getBootloaderMessageMtd (a : MiscAnswers p) (fl : Flash p) : Except Overrun (Option Bytes) :=
  match readMiscPages a fl with
  | .error e => .error e
  | .ok none => .ok none
  | .ok (some (write_size, data)) =>
    match messageAt write_size data with
    | none => .error .overrun
    | some out => .ok (some out)

/-- `true` for `return 0`, with the flash that the call leaves. -/
def setBootloaderMessageMtd (a : MiscAnswers p) (fl : Flash p) (m : MessageBytes) :
    Except Overrun (Bool × Flash p) :=
  match readMiscPages a fl with
  | .error e => .error e
  | .ok none => .ok (false, fl)
  | .ok (some (write_size, data)) =>
    match withMessage write_size data m with
    | none => .error .overrun
    | some data =>
      if a.write_opens = false then .ok (false, fl)
      else
        match mtdWriteData a.writer data ⟨mtdWritePartition p, fl⟩ with
        | (false, s) => .ok (false, (mtdWriteClose a.writer s).2.flash)
        | (true, s) =>
          let (closed, s) := mtdWriteClose a.writer s
          .ok (closed, s.flash)

/-! ## The copies -/

/-- The message lies in the array: `write_size` is at least half its size, and `size` an `int`. -/
def MessageFits (write_size : UInt32) : Prop :=
  messageSize ≤ (MISC_PAGES - MISC_COMMAND_PAGE) * write_size.toNat ∧ write_size.toNat * MISC_PAGES < 2 ^ 31

instance (write_size : UInt32) : Decidable (MessageFits write_size) := inferInstanceAs (Decidable (_ ∧ _))

/-- A size that wraps around leaves no room for the message either. -/
theorem messageFits_iff (write_size : UInt32) :
    MessageFits write_size ↔
      ((write_size.toNat * MISC_COMMAND_PAGE + messageSize : Nat) : Int) ≤ miscSize write_size := by
  have hlt := write_size.toNat_lt
  have hwraps : write_size.toNat * 3 / 2 ^ 32 = 0 ∨ write_size.toNat * 3 / 2 ^ 32 = 1 ∨
      write_size.toNat * 3 / 2 ^ 32 = 2 := by omega
  unfold MessageFits miscSize asInt messageSize MISC_PAGES MISC_COMMAND_PAGE
  rcases hwraps with hwraps | hwraps | hwraps <;> split <;> omega

theorem MessageFits.size {write_size : UInt32} (h : MessageFits write_size) :
    miscSize write_size = (write_size.toNat * MISC_PAGES : Nat) := asInt_of_lt h.2

variable {write_size : UInt32} {data data' : Bytes} {m : MessageBytes}

theorem withMessage_isSome :
    (withMessage write_size data m).isSome ↔
      write_size.toNat * MISC_COMMAND_PAGE + messageSize ≤ data.length := by
  unfold withMessage
  split <;> simp [*]

/-- The message is found where it was put. -/
theorem messageAt_withMessage (h : withMessage write_size data m = some data') :
    messageAt write_size data' = some m.val := by
  unfold withMessage at h
  split at h
  · rename_i hle
    cases h
    have hm := m.2
    refine Bytes.slice_eq_some.mpr ⟨?_, ?_⟩
    · simp only [List.length_append, List.length_take, List.length_drop]
      omega
    · have htake : (data.take (write_size.toNat * MISC_COMMAND_PAGE)).length =
          write_size.toNat * MISC_COMMAND_PAGE := by rw [List.length_take]; omega
      rw [List.append_assoc, List.drop_left' htake, List.take_left' hm]
  · cases h

theorem withMessage_length (h : withMessage write_size data m = some data') :
    data'.length = data.length := by
  unfold withMessage at h
  split at h
  · cases h
    have hm := m.2
    simp only [List.length_append, List.length_take, List.length_drop]
    omega
  · cases h

/-- The bytes outside the message stay. -/
theorem withMessage_frame (h : withMessage write_size data m = some data') {i : Nat}
    (hi : i < write_size.toNat * MISC_COMMAND_PAGE ∨
      write_size.toNat * MISC_COMMAND_PAGE + messageSize ≤ i) : data'[i]? = data[i]? := by
  unfold withMessage at h
  split at h
  · rename_i hle
    cases h
    have hm := m.2
    rw [List.append_assoc]
    rcases hi with hi | hi
    · rw [List.getElem?_append_left (by simp; omega), List.getElem?_take_of_lt hi]
    · rw [List.getElem?_append_right (by simp; omega), List.getElem?_append_right (by simp; omega),
        List.getElem?_drop]
      congr 1
      simp
      omega
  · cases h

/-! ## The pages -/

/-- The device of `/misc` is there and opens, and its good blocks hold the pages asked for. -/
def MiscAnswers.Readable (a : MiscAnswers p) (fl : Flash p) (write_size : UInt32) : Prop :=
  a.found = true ∧ a.write_size = some write_size ∧ a.read_opens = true ∧
    miscSize write_size ≤ (stream a.reader fl 0).length

variable {a a' : MiscAnswers p} {fl fl' : Flash p}

/-- The array holds the first bytes of the good blocks. -/
theorem readMiscPages_eq (h : a.Readable fl write_size) (hr : a.reader.NoReadFaults)
    (hsize : 0 ≤ miscSize write_size) :
    readMiscPages a fl =
      .ok (some (write_size, (stream a.reader fl 0).take (miscSize write_size).toNat)) := by
  obtain ⟨hfound, hws, hopens, hlen⟩ := h
  have hlt : miscSize write_size < 2 ^ 31 := asInt_lt _
  obtain ⟨ctx, hread⟩ := @mtdReadData_fresh _ _ hr fl (miscSize write_size).toNat
    (by omega) (by omega)
  have htake : (((stream a.reader fl 0).take (miscSize write_size).toNat).length : Int) =
      miscSize write_size := by rw [List.length_take]; omega
  simp only [readMiscPages, hfound, hws, hopens, hread, Int.not_lt.mpr hsize, htake, ne_eq, if_false,
    not_true_eq_false, Bool.true_eq_false]

/-- The array is filled only if the pages are there. -/
theorem readable_of_readMiscPages (hr : a.reader.NoReadFaults)
    (h : readMiscPages a fl = .ok (some (write_size, data))) :
    a.Readable fl write_size ∧ 0 ≤ miscSize write_size := by
  unfold readMiscPages at h
  split at h
  · rename_i ws hfound hws
    split at h
    · cases h
    · rename_i hopens
      split at h
      · cases h
      · rename_i hsize
        split at h
        · cases h
        · rename_i bs ctx hread
          split at h
          · cases h
          · cases h
            have hlt : miscSize write_size < 2 ^ 31 := asInt_lt _
            have hle := mtdReadData_le hr (by omega) hread
            exact ⟨⟨hfound, hws, by simpa using hopens, by omega⟩, by omega⟩
  · cases h

/-! ## The message after a call that returns 0 -/

/-- The answers to a later call on the same device: nothing fails, and the marks are those that the
writer saw. -/
structure Follows (a a' : MiscAnswers p) : Prop where
  found : a'.found = true
  write_size : a'.write_size = a.write_size
  read_opens : a'.read_opens = true
  noFaults : a'.reader.NoReadFaults
  marks : ∀ pos, a'.reader.getBadBlock pos = a.writer.getBadBlock pos

/-- The message reads back, and the other bytes of the pages are those of before. -/
structure MessageKept (a a' : MiscAnswers p) (fl fl' : Flash p) (m : MessageBytes) : Prop where
  message : getBootloaderMessageMtd a' fl' = .ok (some m.val)
  others : ∀ write_size ∈ a.write_size, ∀ i < write_size.toNat * MISC_PAGES,
    i < write_size.toNat * MISC_COMMAND_PAGE ∨ write_size.toNat * MISC_COMMAND_PAGE + messageSize ≤ i →
    (stream a'.reader fl' 0)[i]? = (stream a.reader fl 0)[i]?

/-- The call stays in its array, and where it returns 0 the message is kept. -/
def SetKeeps (a a' : MiscAnswers p) (fl : Flash p) (m : MessageBytes) : Prop :=
  ∃ ok fl', setBootloaderMessageMtd a fl m = .ok (ok, fl') ∧ (ok = true → MessageKept a a' fl fl' m)

/-- The blocks of the writer take the pages with the message in them. -/
def TakesMessage (a : MiscAnswers p) (fl : Flash p) (m : MessageBytes) : Prop :=
  ∀ write_size ∈ a.write_size, ∀ data,
    withMessage write_size ((stream a.reader fl 0).take (miscSize write_size).toNat) m = some data →
    a.writer.TakesData data

theorem getBootloaderMessageMtd_eq (hread : readMiscPages a fl = .ok (some (write_size, data)))
    {out : Bytes} (hout : messageAt write_size data = some out) :
    getBootloaderMessageMtd a fl = .ok (some out) := by
  simp only [getBootloaderMessageMtd, hread, hout]

/-- Data that is written and closed is what the later call finds in its array. -/
theorem readMiscPages_written {s s' : WriteState p}
    (hws : a.write_size = some write_size) (hf : Follows a a') (htakes : a.writer.TakesData data)
    (hlen : (data.length : Int) = miscSize write_size)
    (hw : mtdWriteData a.writer data ⟨mtdWritePartition p, fl⟩ = (true, s))
    (hcl : mtdWriteClose a.writer s = (true, s')) :
    readMiscPages a' s'.flash = .ok (some (write_size, data)) ∧ data <+: stream a'.reader s'.flash 0 := by
  have hall : mtdWriteAll a.writer [data] ⟨mtdWritePartition p, fl⟩ = (true, s) := by
    simp only [mtdWriteAll, hw]
  have hpre := mtdWriteAll_stream hall hcl hf.marks (by simpa using htakes)
  rw [List.flatten_cons, List.flatten_nil, List.append_nil] at hpre
  have hle := hpre.length_le
  have hread : a'.Readable s'.flash write_size :=
    ⟨hf.found, hf.write_size.trans hws, hf.read_opens, by omega⟩
  refine ⟨?_, hpre⟩
  rw [readMiscPages_eq hread hf.noFaults (by omega), ← hlen, Int.toNat_natCast,
    ← List.prefix_iff_eq_take.mp hpre]

/-- A message that fits, on blocks that take it, is kept. -/
theorem setBootloaderMessageMtd_kept (hfits : MessageFits write_size) (hread : a.Readable fl write_size)
    (hr : a.reader.NoReadFaults) (hf : Follows a a') (htakes : TakesMessage a fl m) :
    SetKeeps a a' fl m := by
  have hsize := hfits.size
  have hws := hread.2.1
  have hlen := hread.2.2.2
  have hle := (messageFits_iff write_size).mp hfits
  have hpages := readMiscPages_eq hread hr (by omega)
  generalize hdata : (stream a.reader fl 0).take (miscSize write_size).toNat = data at hpages
  have hdlen : (data.length : Int) = miscSize write_size := by
    rw [← hdata, List.length_take]
    omega
  obtain ⟨data', hput⟩ := Option.isSome_iff_exists.mp
    ((@withMessage_isSome write_size data m).mpr (by omega))
  have htakes' : a.writer.TakesData data' := htakes write_size hws data' (by rw [hdata, hput])
  have hdlen' : (data'.length : Int) = miscSize write_size := by rw [withMessage_length hput, hdlen]
  unfold SetKeeps setBootloaderMessageMtd
  simp only [hpages, hput]
  by_cases hopens : a.write_opens = false
  · exact ⟨false, fl, if_pos hopens, by simp⟩
  · rw [if_neg hopens]
    split
    · exact ⟨false, _, rfl, by simp⟩
    · rename_i s hw
      refine ⟨_, _, rfl, fun hcl => ?_⟩
      have hclose : mtdWriteClose a.writer s = (true, (mtdWriteClose a.writer s).2) := Prod.ext hcl rfl
      obtain ⟨hback, hpre⟩ := readMiscPages_written hws hf htakes' hdlen' hw hclose
      refine ⟨getBootloaderMessageMtd_eq hback (messageAt_withMessage hput), ?_⟩
      intro ws hws' i hi hout
      cases hws.symm.trans hws'
      -- Both streams start with the pages, and these differ in the message only.
      have hstream : (stream a'.reader (mtdWriteClose a.writer s).2.flash 0)[i]? = data'[i]? := by
        obtain ⟨rest, hrest⟩ := hpre
        rw [← hrest, List.getElem?_append_left (by omega)]
      rw [hstream, withMessage_frame hput hout, ← hdata, List.getElem?_take_of_lt (by omega)]

/-- Where the pages can be read, a message that does not fit leaves the array. -/
theorem setBootloaderMessageMtd_overrun (hfits : ¬ MessageFits write_size)
    (hread : a.Readable fl write_size) (hr : a.reader.NoReadFaults) (m : MessageBytes) :
    setBootloaderMessageMtd a fl m = .error .overrun := by
  obtain ⟨hfound, hws, hopens, hlen⟩ := hread
  have hfits' := mt (messageFits_iff write_size).mpr hfits
  unfold setBootloaderMessageMtd
  by_cases hsize : 0 ≤ miscSize write_size
  · rw [readMiscPages_eq ⟨hfound, hws, hopens, hlen⟩ hr hsize]
    have hnone : withMessage write_size ((stream a.reader fl 0).take (miscSize write_size).toNat) m =
        none := by
      rw [← Option.not_isSome_iff_eq_none, withMessage_isSome, List.length_take]
      omega
    simp only [hnone]
  · simp [readMiscPages, hfound, hws, hopens, Int.not_le.mp hsize]

/-- Where they cannot, the call fails and changes nothing. -/
theorem setBootloaderMessageMtd_unreadable (hread : ∀ write_size, ¬ a.Readable fl write_size)
    (hr : a.reader.NoReadFaults) (m : MessageBytes) :
    setBootloaderMessageMtd a fl m = .ok (false, fl) := by
  have hpages : readMiscPages a fl = .ok none := by
    match h : readMiscPages a fl with
    | .ok none => rfl
    | .ok (some (write_size, data)) => exact absurd (readable_of_readMiscPages hr h).1 (hread write_size)
    | .error e =>
      unfold readMiscPages at h
      split at h
      · rename_i ws hfound hws
        split at h
        · cases h
        · rename_i hopens
          split at h
          · rename_i hsize
            exact absurd ⟨hfound, hws, by simpa using hopens, by omega⟩ (hread ws)
          · split at h
            · cases h
            · split at h <;> cases h
      · cases h
  unfold setBootloaderMessageMtd
  simp only [hpages]

/-- On blocks that take the message, the call keeps its promise exactly if the message fits in the
pages that it can read. -/
theorem setBootloaderMessageMtd_iff (a a' : MiscAnswers p) (fl : Flash p) (m : MessageBytes)
    (hr : a.reader.NoReadFaults) (hf : Follows a a') (htakes : TakesMessage a fl m) :
    SetKeeps a a' fl m ↔ ∀ write_size, a.Readable fl write_size → MessageFits write_size := by
  constructor
  · rintro ⟨ok, fl', hset, -⟩ write_size hread
    by_contra hfits
    rw [setBootloaderMessageMtd_overrun hfits hread hr m] at hset
    cases hset
  · intro hfits
    by_cases hread : ∃ write_size, a.Readable fl write_size
    · obtain ⟨write_size, hread⟩ := hread
      exact setBootloaderMessageMtd_kept (hfits write_size hread) hread hr hf htakes
    · exact ⟨false, fl, setBootloaderMessageMtd_unreadable (not_exists.mp hread) hr m, fun h => nomatch h⟩

/-- A small-page chip: blocks of 16 KiB. -/
def smallPages : MtdPartition := { size := 65536, erase_size := 16384, erase_size_pos := by decide }

/-- The quiet driver, with pages of `write_size` bytes. -/
def MiscAnswers.quiet (p : MtdPartition) (write_size : UInt32) : MiscAnswers p where
  found := true
  write_size := some write_size
  read_opens := true
  reader := Chip.quiet p
  write_opens := true
  writer := Chip.quiet p

theorem MiscAnswers.quiet_follows (p : MtdPartition) (write_size : UInt32) :
    Follows (quiet p write_size) (quiet p write_size) :=
  ⟨rfl, rfl, rfl, Chip.quiet_noReadFaults p, fun _ => rfl⟩

theorem quiet_takesMessage (p : MtdPartition) (write_size : UInt32) (fl : Flash p) (m : MessageBytes) :
    TakesMessage (.quiet p write_size) fl m := by
  intro _ _ data _ gb _
  have haccepts : (Chip.quiet p).accepts gb.1 gb.2 = true := by simp [Chip.accepts, Chip.quiet, Attempt.verified]
  exact ⟨rfl, haccepts⟩

def MessageBytes.zero : MessageBytes := ⟨List.replicate messageSize 0, List.length_replicate⟩

/-- A message on pages of 2048 bytes. -/
theorem setBootloaderMessageMtd_2048 :
    SetKeeps (.quiet smallPages 2048) (.quiet smallPages 2048) default .zero := by
  refine (setBootloaderMessageMtd_iff _ _ _ _ (Chip.quiet_noReadFaults _) (MiscAnswers.quiet_follows _ _)
    (quiet_takesMessage _ _ _ _)).mpr fun write_size hread => ?_
  cases hread.2.1
  decide

/-- On pages of 512 bytes the copy writes 64 bytes behind its array. -/
theorem setBootloaderMessageMtd_512 :
    ¬ ∀ (p : MtdPartition) (a a' : MiscAnswers p) (fl : Flash p) (m : MessageBytes),
      a.reader.NoReadFaults → Follows a a' → TakesMessage a fl m → SetKeeps a a' fl m := by
  intro h
  obtain ⟨ok, fl', hset, -⟩ := h smallPages (.quiet _ 512) (.quiet _ 512) default .zero
    (Chip.quiet_noReadFaults _) (MiscAnswers.quiet_follows _ _) (quiet_takesMessage _ _ _ _)
  have hgood : goodBlocks (Chip.quiet smallPages) 0 = [0, 16384, 32768, 49152] := by decide +kernel
  have hlen : 1536 ≤ (stream (Chip.quiet smallPages) default 0).length := by
    have hblock := ((default : Flash smallPages) 0).2
    rw [stream, hgood, List.flatMap_cons, List.length_append, hblock]
    exact Nat.le_trans (by decide) (Nat.le_add_right _ _)
  have hread : (MiscAnswers.quiet smallPages 512).Readable default 512 :=
    ⟨rfl, rfl, rfl, Int.ofNat_le.mpr hlen⟩
  rw [setBootloaderMessageMtd_overrun (by decide) hread (Chip.quiet_noReadFaults _)] at hset
  cases hset

end Miui
