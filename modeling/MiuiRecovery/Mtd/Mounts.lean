import MiuiRecovery.Lib.CString
import Mathlib.Data.List.Nodup
import Mathlib.Data.List.Perm.Subperm

/-!
# The table of mounted volumes

`scan_mounted_volumes` and `find_mounted_volume_by_mount_point` (`mounts.c`): the first 2047 bytes of
`/proc/mounts` are parsed line by line into a table of 32 slots.

* `parse_eq`: what a scan stores, and when it leaves the table.
* `entries_cut`: what the lines of a cut file give.
* `scans_iff`: which files are found again line by line.
-/

namespace Miui

namespace Mounts

open CString

/-! ## mounts.c -/

/-- The strings of a slot, where `none` is a null pointer. -/
structure MountedVolume where
  device : Option Bytes
  mountPoint : Option Bytes
  filesystem : Option Bytes
  flags : Option Bytes
deriving DecidableEq

/-- A slot after `memset`. -/
def MountedVolume.zero : MountedVolume := ⟨none, none, none, none⟩

structure MountsState where
  volumes : Option (List MountedVolume)
  volumesAllocd : Nat
  volumeCount : Nat

def initial : MountsState := ⟨none, 0, 0⟩

/-- The buffers on the stack. -/
structure Buffers where
  device : Buf 64
  mountPoint : Buf 64
  filesystem : Buf 64
  flags : Buf 128

/-- `sscanf(bufp, "%63s %63s %63s %127s", …)`, where it matches four times. -/
def sscanf (s : Bytes) : Option Buffers := do
  let (device, s) ← scanWord 63 s
  let (mountPoint, s) ← scanWord 63 s
  let (filesystem, s) ← scanWord 63 s
  let (flags, _) ← scanWord 127 s
  some ⟨device, mountPoint, filesystem, flags⟩

/-- `strdup` of the four strings. -/
def Buffers.volume (b : Buffers) : MountedVolume :=
  ⟨some b.device.1, some b.mountPoint.1, some b.filesystem.1, some b.flags.1⟩

/-- `volumes[volume_count++] = v`: `none` where there is no such slot. -/
def MountsState.add (g : MountsState) (v : MountedVolume) : Option MountsState := do
  let volumes ← g.volumes
  if g.volumeCount < volumes.length then
    some { g with volumes := some (volumes.set g.volumeCount v), volumeCount := g.volumeCount + 1 }
  else none

/-- Eat the line. -/
def eatLine (s : Bytes) : Bytes := (s.dropWhile (· != 10)).drop 1

theorem eatLine_lt {s : Bytes} (h : s ≠ []) : (eatLine s).length < s.length := by
  have hle := (List.dropWhile_sublist (l := s) (· != 10)).length_le
  have hpos := List.length_pos_iff.mpr h
  rw [eatLine, List.length_drop]
  omega

/-- The loop over the lines; `buf` ends behind them with a null byte. -/
def parse (s : Bytes) (g : MountsState) : Option MountsState :=
  if h : s = [] then some g
  else do
    let g ← match sscanf (cstr s) with
      | some b => g.add b.volume
      | none => some g
    parse (eatLine s) g
termination_by s.length
decreasing_by exact eatLine_lt h

/-- The table, allocated or with the old volumes freed. -/
def emptyTable (malloc : Bool) (g : MountsState) : Option MountsState :=
  match g.volumes with
  | none => if malloc then some ⟨some (List.replicate 32 .zero), 32, 0⟩ else none
  | some volumes =>
    some ⟨some (List.replicate g.volumeCount .zero ++ volumes.drop g.volumeCount), g.volumesAllocd, 0⟩

/-- `scan_mounted_volumes`; `file` is `none` where `/proc/mounts` cannot be opened or read, and the result is
`none` where a slot beyond the table is written. -/
def scanMountedVolumes (malloc : Bool) (file : Option Bytes) (g : MountsState) : Option (MountsState × Int) :=
  match emptyTable malloc g with
  | none => some (g, -1)
  | some g =>
    match file with
    | none => some ({ g with volumeCount := 0 }, -1)
    | some bytes => (parse (bytes.take 2047) g).map (·, 0)

def findMountedVolumeByMountPoint (g : MountsState) (mountPoint : Bytes) : Option MountedVolume :=
  match g.volumes with
  | none => none
  | some volumes => (volumes.take g.volumeCount).find? fun v => v.mountPoint = some mountPoint

/-- `unmount_mounted_volume` of a slot; `umount` tells whether the call works. -/
def unmountMountedVolume (umount : Bool) (slot : Nat) (g : MountsState) : MountsState :=
  if umount then { g with volumes := g.volumes.map (·.set slot .zero) } else g

/-! ## Runs -/

/-- What the programs do with the table. -/
inductive Call where
  | scan (malloc : Bool) (file : Option Bytes)
  | unmount (umount : Bool) (slot : Nat)

def Call.run (g : MountsState) : Call → Option MountsState
  | scan malloc file => (scanMountedVolumes malloc file g).map (·.1)
  | unmount umount slot => some (unmountMountedVolume umount slot g)

/-- The state behind a run. -/
def run (calls : List Call) : Option MountsState := calls.foldlM Call.run initial

/-- The table has its 32 slots, and those that are not in use are empty. -/
structure Valid (g : MountsState) : Prop where
  unscanned : g.volumes = none → g.volumeCount = 0
  slots : ∀ volumes, g.volumes = some volumes → ∃ used : List MountedVolume, used.length = g.volumeCount ∧
    used.length ≤ 32 ∧ volumes = used ++ List.replicate (32 - used.length) .zero

/-- The table with these volumes. -/
def table (allocd : Nat) (vs : List MountedVolume) : MountsState :=
  ⟨some (vs ++ List.replicate (32 - vs.length) .zero), allocd, vs.length⟩

variable {g g' : MountsState} {vs : List MountedVolume} {allocd : Nat} {malloc : Bool}

theorem valid_table (h : vs.length ≤ 32) : Valid (table allocd vs) where
  unscanned h := by cases h
  slots volumes hv := ⟨vs, rfl, h, (Option.some.inj hv).symm⟩

theorem add_table (v : MountedVolume) : (table allocd vs).add v =
    if vs.length < 32 then some (table allocd (vs ++ [v])) else none := by
  by_cases h : vs.length < 32
  · have hrep : List.replicate (32 - vs.length) MountedVolume.zero =
        .zero :: List.replicate (32 - (vs.length + 1)) .zero := by
      rw [show 32 - vs.length = 32 - (vs.length + 1) + 1 by omega, List.replicate_succ]
    simp [MountsState.add, table, h, hrep, List.set_append_right]
  · have hlength : (vs ++ List.replicate (32 - vs.length) MountedVolume.zero).length = vs.length := by
      rw [List.length_append, List.length_replicate]
      omega
    rw [if_neg h]
    simp only [MountsState.add, table, Option.bind_eq_bind, Option.bind_some, hlength]
    exact if_neg (Nat.lt_irrefl _)

/-! ## The entries of a text -/

/-- The volumes that the lines of a text give. -/
def entries (s : Bytes) : List MountedVolume :=
  if s = [] then [] else ((sscanf (cstr s)).map Buffers.volume).toList ++ entries (eatLine s)
termination_by s.length
decreasing_by exact eatLine_lt ‹_›

@[simp] theorem entries_nil : entries [] = [] := by rw [entries, if_pos rfl]

theorem mem_entries {s : Bytes} {v : MountedVolume} (h : v ∈ entries s) : ∃ b, v = Buffers.volume b := by
  induction s using entries.induct with
  | case1 => simp at h
  | case2 s hs ih =>
    rw [entries, if_neg hs, List.mem_append] at h
    rcases h with h | h
    · obtain ⟨b, -, hb⟩ := Option.map_eq_some_iff.mp (Option.mem_toList.mp h)
      exact ⟨b, hb.symm⟩
    · exact ih h

/-- A scan stores them one after the other, and leaves the table at the 33rd. -/
theorem parse_table (allocd : Nat) {vs : List MountedVolume} (hvs : vs.length ≤ 32) (s : Bytes) :
    parse s (table allocd vs) =
    if (vs ++ entries s).length ≤ 32 then some (table allocd (vs ++ entries s)) else none := by
  induction s using entries.induct generalizing vs with
  | case1 => simp [parse, hvs]
  | case2 s h ih =>
    rw [parse, dif_neg h, entries, if_neg h]
    cases hs : sscanf (cstr s) with
    | none => simpa using ih hvs
    | some b =>
      simp only [Option.map_some, Option.toList_some, add_table]
      by_cases hlt : vs.length < 32
      · have hvs' : (vs ++ [b.volume]).length ≤ 32 := by simpa using Nat.succ_le_of_lt hlt
        simpa [hlt] using ih hvs'
      · simp [hlt]
        omega

theorem empty_eq (hg : Valid g) (hmem : g.volumes = none → malloc = true) :
    ∃ allocd, emptyTable malloc g = some (table allocd []) := by
  unfold emptyTable
  cases hv : g.volumes with
  | none => simp [hmem hv, table]
  | some volumes =>
    obtain ⟨used, hlen, hle, rfl⟩ := hg.slots volumes hv
    refine ⟨g.volumesAllocd, ?_⟩
    simp [table, ← hlen, Nat.add_sub_cancel' hle]

/-- A scan of a valid table. -/
theorem scan_eq (hg : Valid g) (hmem : g.volumes = none → malloc = true) (bytes : Bytes) :
    ∃ allocd, scanMountedVolumes malloc (some bytes) g =
      if (entries (bytes.take 2047)).length ≤ 32 then some (table allocd (entries (bytes.take 2047)), 0)
      else none := by
  obtain ⟨allocd, hempty⟩ := empty_eq hg hmem
  refine ⟨allocd, ?_⟩
  rw [scanMountedVolumes, hempty]
  have hnil : ([] : List MountedVolume).length ≤ 32 := Nat.zero_le 32
  simp only [parse_table allocd hnil, List.nil_append]
  split <;> rfl

/-- Without the file, the table is empty. -/
theorem scan_failed (malloc : Bool) (hg : Valid g) : ∃ g', scanMountedVolumes malloc none g = some (g', -1) ∧ Valid g' ∧
    ∀ m, findMountedVolumeByMountPoint g' m = none := by
  by_cases hmem : g.volumes = none → malloc = true
  · obtain ⟨allocd, hempty⟩ := empty_eq hg hmem
    refine ⟨table allocd [], ?_, valid_table (Nat.zero_le 32), fun m => rfl⟩
    rw [scanMountedVolumes, hempty]
    rfl
  · obtain ⟨hv, hmalloc⟩ := Classical.not_imp.mp hmem
    refine ⟨g, ?_, hg, fun m => ?_⟩
    · simp [scanMountedVolumes, emptyTable, hv, hmalloc]
    · simp [findMountedVolumeByMountPoint, hv]

theorem valid_step {c : Call} (hg : Valid g) (h : c.run g = some g') : Valid g' := by
  cases c with
  | scan malloc file =>
    obtain ⟨⟨g₁, result⟩, hscan, rfl⟩ := Option.map_eq_some_iff.mp h
    cases file with
    | none =>
      obtain ⟨g₂, hscan', hvalid, -⟩ := scan_failed malloc hg
      obtain ⟨rfl, -⟩ := Prod.mk.inj (Option.some.inj (hscan'.symm.trans hscan))
      exact hvalid
    | some bytes =>
      by_cases hmem : g.volumes = none → malloc = true
      · obtain ⟨allocd, heq⟩ := scan_eq hg hmem bytes
        rw [heq] at hscan
        split at hscan
        · next hle =>
          obtain ⟨rfl, -⟩ := Prod.mk.inj (Option.some.inj hscan)
          exact valid_table hle
        · cases hscan
      · obtain ⟨hv, hmalloc⟩ := Classical.not_imp.mp hmem
        simp only [scanMountedVolumes, emptyTable, hv, hmalloc] at hscan
        obtain ⟨rfl, -⟩ := Prod.mk.inj (Option.some.inj hscan)
        exact hg
  | unmount umount slot =>
    obtain rfl := Option.some.inj h
    unfold unmountMountedVolume
    split
    · refine ⟨fun hv => hg.unscanned (by simpa using hv), fun volumes hv => ?_⟩
      obtain ⟨old, hold, rfl⟩ := Option.map_eq_some_iff.mp hv
      obtain ⟨used, hlen, hle, rfl⟩ := hg.slots old hold
      refine ⟨used.set slot .zero, by simpa using hlen, by simpa using hle, ?_⟩
      rw [List.set_append, List.length_set]
      split
      · rfl
      · next hge => rw [List.set_replicate_self, List.set_eq_of_length_le (Nat.le_of_not_lt hge)]
    · exact hg

/-- Every state that a run reaches is valid. -/
theorem valid_run {calls : List Call} (h : run calls = some g) : Valid g := by
  have hrun : ∀ (calls : List Call) (g₀ : MountsState), Valid g₀ → calls.foldlM Call.run g₀ = some g → Valid g := by
    intro calls
    induction calls with
    | nil =>
      rintro g₀ hg₀ h
      exact Option.some.inj h ▸ hg₀
    | cons c calls ih =>
      intro g₀ hg₀ h
      obtain ⟨g₁, hstep, hrest⟩ := Option.bind_eq_some_iff.mp h
      exact ih g₁ (valid_step hg₀ hstep) hrest
  exact hrun calls initial ⟨fun _ => rfl, fun volumes h => by cases h⟩ h

/-! ## The file -/

/-- A mounted volume of the kernel, which writes no space, tab or newline in a field. -/
structure Mount where
  device : Bytes
  mountPoint : Bytes
  filesystem : Bytes
  flags : Bytes
  escaped : ∀ field ∈ [device, mountPoint, filesystem, flags], ∀ c ∈ field, c ∉ ([0, 9, 10, 32] : List UInt8)

namespace Mount

variable (m : Mount)

/-- The four fields with the spaces between them. -/
def fields : Bytes := m.device ++ 32 :: (m.mountPoint ++ 32 :: (m.filesystem ++ 32 :: m.flags))

/-- The line, with its two zeroes. -/
def line : Bytes := m.fields ++ [32, 48, 32, 48, 10]

def volume : MountedVolume := ⟨some m.device, some m.mountPoint, some m.filesystem, some m.flags⟩

/-- `sscanf` takes every field whole. -/
structure Fits : Prop where
  device : IsWord 63 m.device
  mountPoint : IsWord 63 m.mountPoint
  filesystem : IsWord 63 m.filesystem
  flags : IsWord 127 m.flags

end Mount

/-- `/proc/mounts` -/
def text (ms : List Mount) : Bytes := ms.flatMap Mount.line

variable {m l : Mount} {ms : List Mount} {s rest : Bytes}

theorem fields_chars : ∀ c ∈ m.fields, c ≠ 0 ∧ c ≠ 10 := by
  intro c hc
  have hfield : ∀ field ∈ [m.device, m.mountPoint, m.filesystem, m.flags], c ∈ field → c ≠ 0 ∧ c ≠ 10 := by
    intro field hf hc
    have := m.escaped field hf c hc
    simp only [List.mem_cons, List.not_mem_nil, or_false, not_or] at this
    exact ⟨this.1, this.2.2.1⟩
  simp only [Mount.fields, List.mem_append, List.mem_cons] at hc
  rcases hc with h | rfl | h | rfl | h | rfl | h
  · exact hfield m.device (by simp) h
  · decide
  · exact hfield m.mountPoint (by simp) h
  · decide
  · exact hfield m.filesystem (by simp) h
  · decide
  · exact hfield m.flags (by simp) h

/-- The newline of a line is at its end, and no byte of it is a null byte. -/
theorem line_eq : ∃ body : Bytes, m.line = body ++ [10] ∧ (10 : UInt8) ∉ body ∧ (0 : UInt8) ∉ body := by
  refine ⟨m.fields ++ [32, 48, 32, 48], by simp [Mount.line], ?_, ?_⟩
  · simpa using fun h => (fields_chars 10 h).2 rfl
  · simpa using fun h => (fields_chars 0 h).1 rfl

theorem line_ne_nil : m.line ≠ [] := by simp [Mount.line]

theorem cstr_line (rest : Bytes) : cstr (m.line ++ rest) = m.line ++ cstr rest := by
  obtain ⟨body, hline, -, hnul⟩ := line_eq (m := m)
  refine List.takeWhile_append_of_pos fun c hc => ?_
  rw [hline, List.mem_append, List.mem_singleton] at hc
  rcases hc with hc | rfl
  · exact bne_iff_ne.mpr fun h => hnul (h ▸ hc)
  · decide

theorem eatLine_line (rest : Bytes) : eatLine (m.line ++ rest) = rest := by
  obtain ⟨body, hline, hnl, -⟩ := line_eq (m := m)
  have hbody : ∀ c ∈ body, (c != 10) = true := fun c hc => bne_iff_ne.mpr fun h => hnl (h ▸ hc)
  rw [eatLine, hline, List.append_assoc, List.dropWhile_append_of_pos hbody]
  rfl

theorem entries_line (rest : Bytes) : entries (m.line ++ rest) =
    ((sscanf (m.line ++ cstr rest)).map Buffers.volume).toList ++ entries rest := by
  rw [entries, if_neg (by simp [line_ne_nil]), cstr_line, eatLine_line]

/-- A line that is cut off. -/
theorem entries_cut {k : Nat} (h0 : 0 < k) (hk : k < m.line.length) :
    entries (m.line.take k) = ((sscanf (m.line.take k)).map Buffers.volume).toList := by
  obtain ⟨body, hline, hnl, hnul⟩ := line_eq (m := m)
  have hbody : k ≤ body.length := by simp [hline] at hk; omega
  rw [hline, List.take_append_of_le_length hbody]
  have hnil : body.take k ≠ [] := by
    rw [← List.length_pos_iff, List.length_take]
    omega
  have heat : eatLine (body.take k) = [] := by
    rw [eatLine, List.dropWhile_eq_nil_iff.mpr fun c hc => ?_, List.drop_nil]
    exact bne_iff_ne.mpr fun h => hnl (h ▸ List.mem_of_mem_take hc)
  rw [entries, if_neg hnil, cstr_eq_self fun h => hnul (List.mem_of_mem_take h), heat, entries, if_pos rfl,
    List.append_nil]

theorem sscanf_fields (hm : m.Fits) (hrest : ∀ c s, rest = c :: s → isSpace c = true) :
    (sscanf (m.fields ++ rest)).map Buffers.volume = some m.volume := by
  have hspace : ∀ (s s' : Bytes) (c : UInt8), 32 :: s = c :: s' → isSpace c = true := by
    rintro s s' c h
    rw [← (List.cons.inj h).1]
    rfl
  simp only [Mount.fields, List.append_assoc, List.cons_append, sscanf, Option.bind_eq_bind]
  rw [scanWord_word hm.device fun c s' => hspace _ s' c, Option.bind_some, scanWord_space rfl,
    scanWord_word hm.mountPoint fun c s' => hspace _ s' c, Option.bind_some, scanWord_space rfl,
    scanWord_word hm.filesystem fun c s' => hspace _ s' c, Option.bind_some, scanWord_space rfl,
    scanWord_word hm.flags hrest]
  rfl

/-- What `sscanf` takes are words, in the text. -/
theorem sscanf_some {b : Buffers} (h : sscanf s = some b) :
    (IsWord 63 b.device.1 ∧ IsWord 63 b.mountPoint.1 ∧ IsWord 63 b.filesystem.1 ∧ IsWord 127 b.flags.1) ∧
      b.device.1.length + b.mountPoint.1.length + b.filesystem.1.length + b.flags.1.length ≤ inked s := by
  simp only [sscanf, Option.bind_eq_bind] at h
  obtain ⟨⟨device, s₁⟩, h₁, h⟩ := Option.bind_eq_some_iff.mp h
  obtain ⟨⟨mountPoint, s₂⟩, h₂, h⟩ := Option.bind_eq_some_iff.mp h
  obtain ⟨⟨filesystem, s₃⟩, h₃, h⟩ := Option.bind_eq_some_iff.mp h
  obtain ⟨⟨flags, s₄⟩, h₄, h⟩ := Option.bind_eq_some_iff.mp h
  obtain rfl := Option.some.inj h
  have i₁ := inked_scanWord h₁
  have i₂ := inked_scanWord h₂
  have i₃ := inked_scanWord h₃
  have i₄ := inked_scanWord h₄
  simp only at i₂ i₃ i₄
  exact ⟨⟨(scanWord_some h₁).1, (scanWord_some h₂).1, (scanWord_some h₃).1, (scanWord_some h₄).1⟩,
    by simp only; omega⟩

theorem fits_of_sscanf (h : (sscanf s).map Buffers.volume = some m.volume) : m.Fits ∧
    m.device.length + m.mountPoint.length + m.filesystem.length + m.flags.length ≤ inked s := by
  obtain ⟨b, hb, hv⟩ := Option.map_eq_some_iff.mp h
  obtain ⟨⟨hd, hp, hf, hl⟩, hink⟩ := sscanf_some hb
  simp only [Buffers.volume, Mount.volume, MountedVolume.mk.injEq, Option.some.injEq] at hv
  obtain ⟨h₁, h₂, h₃, h₄⟩ := hv
  exact ⟨⟨h₁ ▸ hd, h₂ ▸ hp, h₃ ▸ hf, h₄ ▸ hl⟩, by rw [← h₁, ← h₂, ← h₃, ← h₄]; exact hink⟩

theorem fits_of_mem_entries (h : m.volume ∈ entries s) : m.Fits := by
  induction s using entries.induct with
  | case1 => simp at h
  | case2 s hs ih =>
    rw [entries, if_neg hs, List.mem_append] at h
    rcases h with h | h
    · exact (fits_of_sscanf (Option.mem_toList.mp h)).1
    · exact ih h

theorem sscanf_line (hm : m.Fits) (rest : Bytes) :
    (sscanf (m.line ++ rest)).map Buffers.volume = some m.volume := by
  rw [Mount.line, List.append_assoc]
  refine sscanf_fields hm fun c s h => ?_
  rw [← (List.cons.inj h).1]
  rfl

theorem text_cons : text (m :: ms) = m.line ++ text ms := rfl

theorem text_singleton : text [m] = m.line := List.append_nil _

theorem text_concat : text (ms ++ [m]) = text ms ++ m.line := by simp [text]

/-- Each line gives at most one volume, and its own if it fits. -/
theorem entries_text (ms : List Mount) (rest : Bytes) : ∃ vs, entries (text ms ++ rest) = vs ++ entries rest ∧
    vs.length ≤ ms.length ∧
      (vs.length = ms.length → List.Forall₂ (fun m v => m.Fits → v = Mount.volume m) ms vs) := by
  induction ms with
  | nil => exact ⟨[], rfl, le_rfl, fun _ => .nil⟩
  | cons m ms ih =>
    obtain ⟨vs, heq, hle, hall⟩ := ih
    rw [text_cons, List.append_assoc, entries_line, heq, ← List.append_assoc]
    refine ⟨_, rfl, ?_, fun hlen => ?_⟩
    · cases sscanf (m.line ++ cstr (text ms ++ rest)) <;> simp <;> omega
    · cases hs : sscanf (m.line ++ cstr (text ms ++ rest)) with
      | none => simp [hs] at hlen; omega
      | some b =>
        refine .cons (fun hm => ?_) (hall (by simpa [hs] using hlen))
        exact Option.some.inj ((congrArg (Option.map _) hs).symm.trans (sscanf_line hm _))

theorem entries_fits (h : ∀ m ∈ ms, m.Fits) (rest : Bytes) :
    entries (text ms ++ rest) = ms.map Mount.volume ++ entries rest := by
  induction ms with
  | nil => rfl
  | cons m ms ih =>
    rw [text_cons, List.append_assoc, entries_line, sscanf_line (h m List.mem_cons_self),
      ih fun m' hm' => h m' (List.mem_cons_of_mem _ hm')]
    rfl

/-- However the file is cut. -/
theorem entries_take_le (k : Nat) (ms : List Mount) : (entries ((text ms).take k)).length ≤ ms.length := by
  induction ms generalizing k with
  | nil => simp [text]
  | cons m ms ih =>
    rw [text_cons]
    by_cases hk : m.line.length ≤ k
    · rw [List.take_append, List.take_of_length_le hk, entries_line]
      have := ih (k - m.line.length)
      cases sscanf (m.line ++ cstr ((text ms).take (k - m.line.length))) <;> simp <;> omega
    · rw [List.take_append_of_le_length (by omega)]
      rcases Nat.eq_zero_or_pos k with rfl | hpos
      · simp
      · rw [entries_cut hpos (by omega)]
        cases sscanf (m.line.take k) <;> simp

/-! ## Exactly which files are found again -/

/-- There is a slot for every line, `sscanf` takes every field whole, and the fields of the last line end
within the bytes that are read. -/
structure Scannable (ms : List Mount) : Prop where
  slots : ms.length ≤ 32
  fits : ∀ m ∈ ms, m.Fits
  read : ∀ before m, ms = before ++ [m] → (text before).length + m.fields.length ≤ 2047

/-- A scan of the file stays in the table; behind it, exactly the mount points of the file are found, each with
a line of its own, and every other slot is empty. -/
def Scans (ms : List Mount) (g : MountsState) : Prop :=
  ∃ g', scanMountedVolumes true (some (text ms)) g = some (g', 0) ∧
    (∀ p, (findMountedVolumeByMountPoint g' p).isSome ↔ ∃ m ∈ ms, m.mountPoint = p) ∧
    (∀ p v, findMountedVolumeByMountPoint g' p = some v → ∃ m ∈ ms, m.mountPoint = p ∧ v = m.volume) ∧
    ∀ volumes, g'.volumes = some volumes → ∀ v ∈ volumes.drop g'.volumeCount, v = .zero

/-- What the scan reads of the file. -/
def scanned (ms : List Mount) : List MountedVolume := entries ((text ms).take 2047)

theorem find_table (p : Bytes) :
    findMountedVolumeByMountPoint (table allocd vs) p = vs.find? fun v => v.mountPoint = some p := by
  simp [findMountedVolumeByMountPoint, table]

theorem scans_iff_scanned (hg : Valid g) : Scans ms g ↔ (scanned ms).length ≤ 32 ∧
    (∀ p, ((scanned ms).find? fun v => v.mountPoint = some p).isSome ↔ ∃ m ∈ ms, m.mountPoint = p) ∧
    ∀ p v, (scanned ms).find? (fun v => v.mountPoint = some p) = some v →
      ∃ m ∈ ms, m.mountPoint = p ∧ v = m.volume := by
  obtain ⟨allocd, heq⟩ := scan_eq hg (fun _ => rfl) (text ms)
  rw [← scanned] at heq
  constructor
  · rintro ⟨g', hscan, hfound, hfields, -⟩
    rw [heq] at hscan
    split at hscan
    · next hle =>
      obtain ⟨rfl, -⟩ := Prod.mk.inj (Option.some.inj hscan)
      simp only [find_table] at hfound hfields
      exact ⟨hle, hfound, hfields⟩
    · cases hscan
  · rintro ⟨hle, hfound, hfields⟩
    refine ⟨table allocd (scanned ms), by rw [heq, if_pos hle], ?_, ?_, ?_⟩
    · simpa only [find_table] using hfound
    · simpa only [find_table] using hfields
    · intro volumes hv v hmem
      obtain rfl := Option.some.inj hv
      simp only [table, List.drop_left] at hmem
      exact List.eq_of_mem_replicate hmem

theorem scanned_eq (h : Scannable ms) : scanned ms = ms.map Mount.volume := by
  rcases List.eq_nil_or_concat' ms with rfl | ⟨before, m, rfl⟩
  · simp [scanned, text]
  · have hread := h.read before m rfl
    have hlast : entries (m.line.take (2047 - (text before).length)) = [m.volume] := by
      have hfields : m.line.length = m.fields.length + 5 := by simp [Mount.line]
      have hm := h.fits m (by simp)
      rcases Nat.lt_or_ge (2047 - (text before).length) m.line.length with hcut | hfull
      · have hpos : 0 < m.fields.length := by
          rw [Mount.fields, List.length_append, List.length_cons]
          omega
        rw [entries_cut (by omega) hcut, Mount.line, List.take_append,
          List.take_of_length_le (by omega : m.fields.length ≤ _), sscanf_fields hm fun c s hc => ?_]
        · rfl
        · generalize 2047 - (text before).length - m.fields.length = k at hc
          cases k with
          | zero => cases hc
          | succ k => exact (List.cons.inj hc).1 ▸ rfl
      · rw [List.take_of_length_le hfull]
        have hall : ∀ m' ∈ [m], m'.Fits := by simpa using hm
        simpa [text_singleton] using entries_fits hall []
    rw [scanned, text_concat, List.take_append, List.take_of_length_le (by omega), entries_fits, hlast, List.map_append]
    · rfl
    · exact fun m' hm' => h.fits m' (List.mem_append_left _ hm')

/-- Files that fit are found again. -/
theorem scans_of_scannable (hg : Valid g) (h : Scannable ms) : Scans ms g := by
  rw [scans_iff_scanned hg, scanned_eq h]
  refine ⟨by simpa using h.slots, fun p => ?_, fun p v hv => ?_⟩
  · simp [List.find?_isSome, Mount.volume]
  · obtain ⟨m, hm, rfl⟩ := List.mem_map.mp (List.mem_of_find?_eq_some hv)
    have hp := List.find?_some hv
    exact ⟨m, hm, by simpa [Mount.volume] using hp, rfl⟩

/-- The mount points that are found are those of the file, so each line gives one volume. -/
theorem scanned_length (hnodup : (ms.map Mount.mountPoint).Nodup)
    (hfound : ∀ p, ((scanned ms).find? fun v => v.mountPoint = some p).isSome ↔ ∃ m ∈ ms, m.mountPoint = p) :
    (scanned ms).length = ms.length ∧ ((scanned ms).map (·.mountPoint)).Nodup := by
  have hsub : (ms.map fun m => some m.mountPoint) ⊆ (scanned ms).map (·.mountPoint) := by
    intro p hp
    obtain ⟨m, hm, rfl⟩ := List.mem_map.mp hp
    obtain ⟨v, hv, hvp⟩ := List.find?_isSome.mp ((hfound m.mountPoint).mpr ⟨m, hm, rfl⟩)
    exact List.mem_map.mpr ⟨v, hv, by simpa using hvp⟩
  have hnodup' : (ms.map fun m => some m.mountPoint).Nodup := by
    have := hnodup.map (f := some) fun _ _ => Option.some.inj
    rwa [List.map_map] at this
  have hperm := hnodup'.subperm hsub
  have hlen : (scanned ms).length = ms.length := by
    have hle := hperm.length_le
    have hge := entries_take_le 2047 ms
    simp only [List.length_map] at hle
    rw [scanned] at *
    omega
  exact ⟨hlen, (hperm.perm_of_length_le (by simp [hlen])).nodup_iff.mp hnodup'⟩

/-- Where the file is found again, each volume is one of a line that fits. -/
theorem scanned_mem (hnodup : ((scanned ms).map (·.mountPoint)).Nodup)
    (hfields : ∀ p v, (scanned ms).find? (fun v => v.mountPoint = some p) = some v →
      ∃ m ∈ ms, m.mountPoint = p ∧ v = m.volume)
    {v : MountedVolume} (hv : v ∈ scanned ms) : ∃ m ∈ ms, v = m.volume ∧ m.Fits := by
  obtain ⟨b, rfl⟩ := mem_entries hv
  have hsome : ((scanned ms).find? fun v => v.mountPoint = some b.mountPoint.1).isSome :=
    List.find?_isSome.mpr ⟨_, hv, by simp [Buffers.volume]⟩
  obtain ⟨w, hw⟩ := Option.isSome_iff_exists.mp hsome
  obtain rfl : w = b.volume := List.inj_on_of_nodup_map hnodup (List.mem_of_find?_eq_some hw) hv
    (by simpa [Buffers.volume] using List.find?_some hw)
  obtain ⟨m, hm, -, heq⟩ := hfields _ _ hw
  exact ⟨m, hm, heq, fits_of_mem_entries (heq ▸ hv)⟩

/-- A cut through the fields of a line loses a character of them. -/
theorem inked_take_lt {k : Nat} (hm : m.Fits) (hk : k < m.fields.length) : inked (m.line.take k) <
    m.device.length + m.mountPoint.length + m.filesystem.length + m.flags.length := by
  have hfields : inked m.fields =
      m.device.length + m.mountPoint.length + m.filesystem.length + m.flags.length := by
    rw [← inked_word hm.device, ← inked_word hm.mountPoint, ← inked_word hm.filesystem, ← inked_word hm.flags]
    have hspace : isSpace 32 = true := rfl
    simp only [Mount.fields, inked, List.countP_append, List.countP_cons, hspace]
    simp
    omega
  obtain ⟨flags, c, hflags⟩ := (List.eq_nil_or_concat' m.flags).resolve_left hm.flags.ne_nil
  have hc : isSpace c = false := hm.flags.no_space c (by simp [hflags])
  obtain ⟨body, hbody⟩ : ∃ body, m.fields = body ++ [c] :=
    ⟨m.device ++ 32 :: (m.mountPoint ++ 32 :: (m.filesystem ++ 32 :: flags)), by simp [Mount.fields, hflags]⟩
  have hbody_le : k ≤ body.length := by simp [hbody] at hk; omega
  rw [← hfields, hbody, Mount.line, List.take_append_of_le_length hk.le, hbody,
    List.take_append_of_le_length hbody_le]
  have hle : inked (body.take k) ≤ inked body := (List.take_sublist k body).countP_le
  have hlast : inked (body ++ [c]) = inked body + 1 := by simp [inked, hc]
  omega

/-- Files with different mount points that are found again fit. -/
theorem scannable_of_scans (hg : Valid g) (hnodup : (ms.map Mount.mountPoint).Nodup) (h : Scans ms g) :
    Scannable ms := by
  rw [scans_iff_scanned hg] at h
  obtain ⟨hle, hfound, hfields⟩ := h
  obtain ⟨hlen, hnodup'⟩ := scanned_length hnodup hfound
  have hmem := fun v => scanned_mem (v := v) hnodup' hfields
  rcases List.eq_nil_or_concat' ms with rfl | ⟨before, last, rfl⟩
  · exact ⟨Nat.zero_le _, fun m hm => (nomatch hm), fun before m h => (by simp at h)⟩
  -- the last line was begun
  have hbegun : (text before).length < 2047 := by
    by_contra hge
    have hcut := entries_take_le 2047 before
    rw [scanned, text_concat, List.take_append_of_le_length (by omega)] at hlen
    rw [List.length_append, List.length_singleton] at hlen
    omega
  have hscanned : scanned (before ++ [last]) =
      entries (text before ++ last.line.take (2047 - (text before).length)) := by
    rw [scanned, text_concat, List.take_append, List.take_of_length_le (by omega)]
  obtain ⟨vs, hvs, hvslen, hall⟩ := entries_text before (last.line.take (2047 - (text before).length))
  rw [hvs] at hscanned
  generalize htail : entries (last.line.take (2047 - (text before).length)) = tail at hscanned
  have htail_le : tail.length ≤ 1 := by
    have h := entries_take_le (2047 - (text before).length) [last]
    rwa [text_singleton, htail] at h
  rw [hscanned, List.length_append, List.length_append, List.length_singleton] at hlen
  obtain ⟨v, rfl⟩ := List.length_eq_one_iff.mp (by omega : tail.length = 1)
  rw [List.length_singleton] at hlen
  obtain ⟨-, hline⟩ := List.forall₂_iff_get.mp (hall (by omega))
  simp only [List.get_eq_getElem] at hline
  rw [hscanned, List.map_append, List.nodup_append] at hnodup'
  obtain ⟨hnodupvs, -, hdisjoint⟩ := hnodup'
  rw [hscanned] at hmem
  have hother : v ∉ vs := fun hv =>
    hdisjoint v.mountPoint (List.mem_map_of_mem hv) v.mountPoint (by simp) rfl
  -- the last entry is that of the last line: another line that fits has its own
  obtain ⟨m, hm, rfl, hlast⟩ := hmem v (by simp)
  obtain rfl : m = last := by
    rcases List.mem_append.mp hm with hm | hm
    · obtain ⟨i, hi, rfl⟩ := List.mem_iff_getElem.mp hm
      refine absurd ?_ hother
      rw [← hline i hi (by omega) hlast]
      exact List.getElem_mem _
    · exact List.mem_singleton.mp hm
  -- so is every other entry that of its line
  have hbefore : ∀ m ∈ before, m.Fits := by
    intro m' hm'
    obtain ⟨i, hi, rfl⟩ := List.mem_iff_getElem.mp hm'
    have hi' : i < vs.length := by omega
    obtain ⟨l, hl, hvl, hfit⟩ := hmem vs[i] (by simp)
    rcases List.mem_append.mp hl with hl | hl
    · obtain ⟨j, hj, rfl⟩ := List.mem_iff_getElem.mp hl
      have hj' : j < vs.length := by omega
      have hij : vs[i] = vs[j] := hvl.trans (hline j hj hj' hfit).symm
      obtain rfl := (hnodupvs.of_map _).getElem_inj_iff.mp hij
      exact hfit
    · obtain rfl := List.mem_singleton.mp hl
      exact absurd (hvl ▸ List.getElem_mem hi') hother
  refine ⟨?_, ?_, ?_⟩
  · rw [hscanned, List.length_append, List.length_singleton] at hle
    rw [List.length_append, List.length_singleton]
    omega
  · intro m' hm'
    rcases List.mem_append.mp hm' with hm' | hm'
    · exact hbefore m' hm'
    · exact List.mem_singleton.mp hm' ▸ hlast
  · intro before' m' heq
    obtain ⟨rfl, hm⟩ := List.append_inj' heq rfl
    obtain rfl := List.singleton_inj.mp hm
    by_contra hcut
    have hlen : m.line.length = m.fields.length + 5 := by simp [Mount.line]
    rw [entries_cut (by omega) (by omega)] at htail
    have hown : (sscanf (m.line.take (2047 - (text before).length))).map Buffers.volume = some m.volume :=
      Option.toList_eq_singleton_iff.mp htail
    have hink := (fits_of_sscanf hown).2
    have hlt := inked_take_lt hlast (by omega : 2047 - (text before).length < m.fields.length)
    omega

/-- In every state that a run reaches, a scan of a file that fits finds it again; one of different mount points
that is found again fits; and without the file nothing is found. -/
theorem scans_iff {calls : List Call} {g : MountsState} (h : run calls = some g) (ms : List Mount) :
    (Scannable ms → Scans ms g) ∧ ((ms.map Mount.mountPoint).Nodup → Scans ms g → Scannable ms) ∧
      ∀ malloc, ∃ g', scanMountedVolumes malloc none g = some (g', -1) ∧
        ∀ p, findMountedVolumeByMountPoint g' p = none := by
  have hg := valid_run h
  refine ⟨scans_of_scannable hg, scannable_of_scans hg, fun malloc => ?_⟩
  obtain ⟨g', hscan, -, hnone⟩ := scan_failed malloc hg
  exact ⟨g', hscan, hnone⟩

/-- The line `d /a t rw 0 0`. -/
def short : Mount := ⟨[100], [47, 97], [116], [114, 119], by decide +kernel⟩

theorem short_fits : short.Fits where
  device := ⟨by decide, by decide, by decide +kernel⟩
  mountPoint := ⟨by decide, by decide, by decide +kernel⟩
  filesystem := ⟨by decide, by decide, by decide +kernel⟩
  flags := ⟨by decide, by decide, by decide +kernel⟩

/-- A second scan, after one of a file with a single line. -/
theorem short_scans : ∃ g, run [.scan true (some (text [short]))] = some g ∧ Scans [short] g := by
  have hfits : Scannable [short] := by
    refine ⟨by decide, fun m hm => List.mem_singleton.mp hm ▸ short_fits, fun before m h => ?_⟩
    obtain ⟨rfl, hm⟩ := List.append_inj' (h.symm.trans (List.nil_append [short]).symm) rfl
    obtain rfl := List.singleton_inj.mp hm
    decide
  have hinitial : Valid initial := ⟨fun _ => rfl, fun volumes h => by cases h⟩
  obtain ⟨g, hscan, -⟩ := scans_of_scannable hinitial hfits
  have hrun : run [.scan true (some (text [short]))] = some g := by
    simp [run, Call.run, hscan]
  exact ⟨g, hrun, (scans_iff hrun [short]).1 hfits⟩

/-- The line 33 times: the last one has no slot. -/
theorem many_not_scans : ¬ Scans (List.replicate 33 short) initial := by
  have hinitial : Valid initial := ⟨fun _ => rfl, fun volumes h => by cases h⟩
  have hall : ∀ m ∈ List.replicate 33 short, m.Fits := fun m hm => List.eq_of_mem_replicate hm ▸ short_fits
  have hentries : entries (text (List.replicate 33 short)) = (List.replicate 33 short).map Mount.volume := by
    simpa using entries_fits hall []
  have htake : (text (List.replicate 33 short)).take 2047 = text (List.replicate 33 short) :=
    List.take_of_length_le (by decide +kernel)
  intro h
  obtain ⟨hle, -⟩ := (scans_iff_scanned hinitial).mp h
  rw [scanned, htake, hentries] at hle
  exact absurd hle (by decide)

end Mounts

end Miui
