import MiuiRecovery.Lib.Scan
import Mathlib.Data.List.Perm.Subperm

/-!
# The table of MTD partitions

`mtd_scan_partitions` and `mtd_find_partition_by_name` (`mtdutils.c`): the first 2047 bytes of `/proc/mtd` are parsed
line by line, and the number of the device is the index of its slot.

* `parse_eq`: a scan stores the `records` of the text, one after the other.
* `records_line`, `records_cut`: what a line of the kernel gives, whole or cut off.
* `mtdScans_iff`: which files are found again line by line.
-/

namespace Miui

namespace Partitions

open CString Numeral Scan

/-! ## mtdutils.c -/

structure MtdPartition where
  deviceIndex : Int
  size : Nat
  eraseSize : Nat
  name : Option Bytes
deriving DecidableEq

/-- `partitions`, once it is allocated; it has 32 slots. -/
abbrev Table := Fin 32 → MtdPartition

/-- `g_mtd_state`; `partitions_allocd` is 32 exactly if there is a table. -/
structure MtdState where
  partitions : Option Table
  partitionCount : Int

def initial : MtdState := ⟨none, -1⟩

/-- The format `mtd%d: %x %x `. -/
def sizesFormat : List Directive := lit [109, 116, 100] ++ [.int 10, .byte 58, .space, .int 16, .space, .int 16, .space]

/-- The format `mtd%d: %x %x "%63[^"]`. -/
def format : List Directive := sizesFormat ++ .byte 34 :: [.upTo 63 34]

/-- The line matches: `mtdnum` is an `int`, and the sizes are stored as `unsigned int`. -/
def sscanf (s : Bytes) : Option MtdPartition :=
  match (scanf format s).1 with
  | [.int mtdnum, .int mtdsize, .int mtderasesize, .str mtdname] =>
    some ⟨mtdnum.bmod (2 ^ 32), (mtdsize % 2 ^ 32).toNat, (mtderasesize % 2 ^ 32).toNat, some mtdname⟩
  | _ => none

/-- The slot of the device is written: `none` where there is no such slot. -/
def store (table : Table) (p : MtdPartition) : Option Table :=
  if h : 0 ≤ p.deviceIndex ∧ p.deviceIndex < 32 then
    some (Function.update table ⟨p.deviceIndex.toNat, by omega⟩ p)
  else none

/-- The loop over the lines; `buf` ends behind them with a null byte. -/
def parse (s : Bytes) (table : Table) (count : Int) : Option (Table × Int) :=
  if h : s = [] then some (table, count)
  else
    match sscanf (cstr s) with
    | some p => do parse (nextLine s) (← store table p) (count + 1)
    | none => parse (nextLine s) table count
termination_by s.length
decreasing_by all_goals exact nextLine_lt h

/-- A slot that is not in use. -/
def MtdPartition.clear (p : MtdPartition) : MtdPartition := { p with name := none, deviceIndex := -1 }

/-- `mtd_scan_partitions`; `malloc` tells whether there is memory for a table, and `file` is `none` where `/proc/mtd`
cannot be opened or read. The result is `none` where a slot outside of the table is written. -/
def mtdScanPartitions (malloc : Bool) (file : Option Bytes) (g : MtdState) : Option (MtdState × Int) :=
  match if malloc then some (g.partitions.getD fun _ => ⟨0, 0, 0, none⟩) else g.partitions with
  | none => some (g, -1)
  | some table =>
    let table : Table := fun i => (table i).clear
    match file with
    | none => some (⟨some table, -1⟩, -1)
    | some bytes => (parse (bytes.take 2047) table 0).map fun r => (⟨some r.1, r.2⟩, r.2)

/-- `device_index >= 0 && name != NULL && strcmp(name, …) == 0` -/
def MtdPartition.isNamed (name : Bytes) (p : MtdPartition) : Bool := 0 ≤ p.deviceIndex && p.name == some name

def mtdFindPartitionByName (g : MtdState) (name : Bytes) : Option MtdPartition := do
  let table ← g.partitions
  ((List.finRange 32).map table).find? (MtdPartition.isNamed name)

/-! ## The records of a text -/

/-- The partitions that the lines of a text give. -/
def records (s : Bytes) : List MtdPartition :=
  if s = [] then [] else (sscanf (cstr s)).toList ++ records (nextLine s)
termination_by s.length
decreasing_by exact nextLine_lt ‹_›

variable {table : Table} {p q : MtdPartition} {ps : List MtdPartition} {s rest : Bytes} {name : Bytes}

@[simp] theorem records_nil : records [] = [] := by rw [records, if_pos rfl]

/-- A scan stores them one after the other. -/
theorem parse_eq (s : Bytes) (table : Table) (count : Int) :
    parse s table count = ((records s).foldlM store table).map (·, count + (records s).length) := by
  induction s using records.induct generalizing table count with
  | case1 => simp [parse]
  | case2 s hs ih =>
    rw [parse, dif_neg hs, records, if_neg hs]
    cases sscanf (cstr s) with
    | none => simpa using ih table count
    | some p =>
      simp only [Option.toList_some, List.singleton_append, List.foldlM_cons, List.length_cons]
      cases store table p with
      | none => rfl
      | some table' =>
        have hcount : count + 1 + (records (nextLine s)).length = count + ((records (nextLine s)).length + 1 : Nat) := by
          push_cast
          omega
        simp only [Option.bind_eq_bind, Option.bind_some]
        rw [ih table' (count + 1), hcount]

/-! ## The file -/

/-- A partition of the kernel: its device number, its sizes and its name. -/
structure MtdInfo where
  num : Nat
  size : Nat
  eraseSize : Nat
  name : Bytes
  printed : (0 : UInt8) ∉ name ∧ (10 : UInt8) ∉ name

namespace MtdInfo

variable (m : MtdInfo)

/-- The line up to its first quote. -/
def head : Bytes :=
  [109, 116, 100] ++ (numeral 10 m.num ++ 58 :: 32 :: (hex8 m.size ++ 32 :: (hex8 m.eraseSize ++ [32])))

/-- `mtd%d: %8.8llx %8.8x "%s"` -/
def line : Bytes := m.head ++ 34 :: (m.name ++ [34, 10])

/-- What is stored of the line, with this name. -/
def stored (name : Bytes) : MtdPartition :=
  ⟨(m.num : Int).bmod (2 ^ 32), ((m.size : Int) % 2 ^ 32).toNat, ((m.eraseSize : Int) % 2 ^ 32).toNat, some name⟩

/-- The slot of the device can take the line whole. -/
structure Fits : Prop where
  num : m.num < 32
  size : m.size < 2 ^ 32
  eraseSize : m.eraseSize < 2 ^ 32
  name : m.name ≠ [] ∧ m.name.length ≤ 63 ∧ (34 : UInt8) ∉ m.name

end MtdInfo

/-- `dev:    size   erasesize  name` -/
def header : Bytes :=
  [100, 101, 118, 58, 32, 32, 32, 32, 115, 105, 122, 101, 32, 32, 32, 101, 114, 97, 115, 101, 115, 105, 122, 101, 32, 32,
    110, 97, 109, 101, 10]

def lines (ms : List MtdInfo) : Bytes := ms.flatMap MtdInfo.line

/-- `/proc/mtd` -/
def text (ms : List MtdInfo) : Bytes := header ++ lines ms

variable {m : MtdInfo} {ms before : List MtdInfo}

/-- What the conversion takes of a text in quotes. -/
def quoted (s : Bytes) : Bytes := (s.takeWhile (· != 34)).take 63

theorem sscanf_head (rest : Bytes) :
    sscanf (m.head ++ 34 :: rest) = if quoted rest = [] then none else some (m.stored (quoted rest)) := by
  have hnum : ∀ u, scanInt 10 (numeral 10 m.num ++ 58 :: u) = some ((m.num : Int), 58 :: u) := fun u =>
    scanInt_numeral _ (by simp [isDigit, digitVal])
  have hhex : ∀ (n : Nat) (u : Bytes), scanInt 16 (32 :: (hex8 n ++ 32 :: u)) = some ((n : Int), 32 :: u) := fun n u =>
    (scanInt_space rfl).trans (scanInt_hex _ (by simp [isDigit, digitVal]))
  have hfront : scanf format (m.head ++ 34 :: rest) =
      ([.int m.num, .int m.size, .int m.eraseSize] ++ (scanf [.upTo 63 34] rest).1, (scanf [.upTo 63 34] rest).2) := by
    rw [format, sizesFormat, MtdInfo.head, List.append_assoc, List.append_assoc, scanf_lit]
    simp only [List.append_assoc, List.cons_append, List.nil_append]
    rw [scanf_int (hnum _), scanf_byte, scanf_space_int, scanf_int (hhex _ _), scanf_space_int,
      scanf_int (hhex _ _), scanf_space, List.dropWhile_cons_of_pos rfl, List.dropWhile_cons_of_neg (by decide), scanf_byte]
  have hname : (scanf [.upTo 63 34] rest).1 = if quoted rest = [] then [] else [.str (quoted rest)] :=
    scanf_upTo 63 34 rest
  rw [sscanf, hfront, hname]
  by_cases hquoted : quoted rest = []
  · rw [if_pos hquoted, if_pos hquoted]
    rfl
  · rw [if_neg hquoted, if_neg hquoted]
    rfl

/-- A line without a quote does not match. -/
theorem sscanf_quote (h : (34 : UInt8) ∉ s) : sscanf s = none := by
  unfold sscanf
  split
  · next mtdnum mtdsize mtderasesize mtdname hscan =>
    refine absurd (scanf_mem sizesFormat 34 [.upTo 63 34] ?_) h
    show 3 < (scanf format s).1.length
    rw [hscan]
    exact Nat.lt_succ_self 3
  · rfl

/-- No byte in front of the name is a quote, a newline or a null byte. -/
theorem head_chars {c : UInt8} (h : c ∈ m.head) : c ≠ 34 ∧ c ≠ 10 ∧ c ≠ 0 := by
  have hdigit : isDigit 16 c = true → c ≠ 34 ∧ c ≠ 10 ∧ c ≠ 0 := by
    intro hc
    refine ⟨?_, ?_, ?_⟩ <;>
    · rintro rfl
      exact absurd hc (by decide)
  simp only [MtdInfo.head, List.mem_append, List.mem_cons, List.not_mem_nil, or_false] at h
  rcases h with (rfl | rfl | rfl) | h | rfl | rfl | h | rfl | h | rfl
  all_goals first
    | exact hdigit (hex8_digit h)
    | exact hdigit (digit_mono (by decide) (numeral_digit h))
    | decide

/-- The newline of a line is at its end, and no byte of it is a null byte. -/
theorem line_eq : ∃ body : Bytes, m.line = body ++ [10] ∧ (10 : UInt8) ∉ body ∧ (0 : UInt8) ∉ body := by
  refine ⟨m.head ++ 34 :: (m.name ++ [34]), by simp [MtdInfo.line], ?_, ?_⟩
  · simpa using ⟨fun h => (head_chars h).2.1 rfl, m.printed.2⟩
  · simpa using ⟨fun h => (head_chars h).2.2 rfl, m.printed.1⟩

theorem line_length : m.line.length = m.head.length + m.name.length + 3 := by
  simp only [MtdInfo.line, List.length_append, List.length_cons, List.length_nil]
  omega

theorem cstr_append {s : Bytes} (h : (0 : UInt8) ∉ s) (rest : Bytes) : cstr (s ++ rest) = s ++ cstr rest :=
  List.takeWhile_append_of_pos fun _ hc => bne_iff_ne.mpr fun h0 => h (h0 ▸ hc)

/-- A whole line. -/
theorem records_body {body : Bytes} (h10 : (10 : UInt8) ∉ body) (h0 : (0 : UInt8) ∉ body) (rest : Bytes) :
    records (body ++ 10 :: rest) = (sscanf (body ++ 10 :: cstr rest)).toList ++ records rest := by
  have h0' : (0 : UInt8) ∉ body ++ [10] := by simpa using h0
  have hcstr := cstr_append h0' rest
  simp only [List.append_assoc, List.singleton_append] at hcstr
  rw [records, if_neg (by simp), nextLine_line h10, hcstr]

/-- A line that is cut off. -/
theorem records_last (h10 : (10 : UInt8) ∉ s) (h0 : (0 : UInt8) ∉ s) : records s = (sscanf s).toList := by
  rw [records]
  split
  · next h => rw [h]; rfl
  · rw [nextLine_none h10, cstr_eq_self h0, records_nil, List.append_nil]

theorem quoted_name (rest : Bytes) : quoted (m.name ++ 34 :: rest) = quoted m.name := by
  rw [quoted, List.takeWhile_append]
  split
  · next h => rw [List.takeWhile_cons_of_neg (by decide), List.append_nil, quoted, (List.takeWhile_prefix _).eq_of_length h]
  · rfl

/-- What the line gives. -/
def MtdInfo.found (m : MtdInfo) : List MtdPartition := if quoted m.name = [] then [] else [m.stored (quoted m.name)]

theorem records_line (rest : Bytes) : records (m.line ++ rest) = m.found ++ records rest := by
  obtain ⟨body, hline, h10, h0⟩ := line_eq (m := m)
  rw [hline, List.append_assoc, List.singleton_append, records_body h10 h0]
  have hsplit : body ++ 10 :: cstr rest = m.head ++ 34 :: (m.name ++ 34 :: 10 :: cstr rest) := by
    have := congrArg (· ++ cstr rest) hline
    simpa [MtdInfo.line] using this.symm
  rw [hsplit, sscanf_head, quoted_name, MtdInfo.found]
  split <;> rfl

theorem records_lines (ms : List MtdInfo) (rest : Bytes) :
    records (lines ms ++ rest) = ms.flatMap MtdInfo.found ++ records rest := by
  induction ms with
  | nil => rfl
  | cons m ms ih =>
    rw [lines, List.flatMap_cons, List.append_assoc, records_line, List.flatMap_cons, List.append_assoc, ← ih]
    rfl

/-- A line that is cut off gives what is left of the name. -/
theorem records_cut {k : Nat} (hk : k < m.line.length) :
    records (m.line.take k) =
      if quoted (m.name.take (k - m.head.length - 1)) = [] then []
      else [m.stored (quoted (m.name.take (k - m.head.length - 1)))] := by
  obtain ⟨body, hline, h10, h0⟩ := line_eq (m := m)
  have hbody : m.line.take k = body.take k := by
    rw [hline, List.length_append, List.length_singleton] at hk
    rw [hline, List.take_append_of_le_length (by omega)]
  rw [hbody, records_last (fun h => h10 (List.mem_of_mem_take h)) fun h => h0 (List.mem_of_mem_take h), ← hbody,
    MtdInfo.line]
  by_cases hhead : k ≤ m.head.length
  · rw [List.take_append_of_le_length hhead, sscanf_quote fun h => (head_chars (List.mem_of_mem_take h)).1 rfl,
      show k - m.head.length - 1 = 0 by omega]
    rfl
  · obtain ⟨j, hj⟩ : ∃ j, k = m.head.length + (j + 1) := ⟨k - m.head.length - 1, by omega⟩
    rw [hj, List.take_length_add_append, List.take_succ_cons, sscanf_head, Nat.add_sub_cancel_left, Nat.add_sub_cancel]
    have hquoted : quoted ((m.name ++ [34, 10]).take j) = quoted (m.name.take j) := by
      rcases Nat.le_total j m.name.length with hle | hge
      · rw [List.take_append_of_le_length hle]
      · obtain ⟨i, rfl⟩ := Nat.exists_eq_add_of_le hge
        rw [List.take_length_add_append, List.take_of_length_le (Nat.le_add_right _ _)]
        cases i with
        | zero => rw [List.take_zero, List.append_nil]
        | succ i => exact quoted_name _
    rw [hquoted]
    split <;> rfl

/-- The column headers give nothing. -/
theorem records_header (rest : Bytes) : records (header ++ rest) = records rest := by
  have hsplit : header = header.dropLast ++ [10] := by decide
  have hscan : sscanf (header.dropLast ++ 10 :: cstr rest) = none := rfl
  rw [hsplit, List.append_assoc, List.singleton_append, records_body (by decide) (by decide), hscan]
  rfl

/-- The records of a scan. -/
def scanned (ms : List MtdInfo) : List MtdPartition := records ((text ms).take 2047)

theorem scanned_eq (ms : List MtdInfo) : scanned ms = records ((lines ms).take 2016) := by
  rw [scanned, text, List.take_append, List.take_of_length_le (by decide), records_header]
  rfl

theorem lines_concat (before : List MtdInfo) (m : MtdInfo) : lines (before ++ [m]) = lines before ++ m.line := by
  rw [lines, List.flatMap_append, List.flatMap_singleton]
  rfl

theorem scanned_concat (h : (lines before).length ≤ 2016) :
    scanned (before ++ [m]) =
      before.flatMap MtdInfo.found ++ records (m.line.take (2016 - (lines before).length)) := by
  rw [scanned_eq, lines_concat, List.take_append, List.take_of_length_le h, records_lines]

/-- What a line gives, whole or cut off: at most one record, of the front of its name. -/
def Gives (m : MtdInfo) (ps : List MtdPartition) : Prop :=
  ps = [] ∨ ∃ w : Bytes, w <+: m.name ∧ w ≠ [] ∧ w.length ≤ 63 ∧ (34 : UInt8) ∉ w ∧ ps = [m.stored w]

theorem gives_quoted {s : Bytes} (h : s <+: m.name) :
    Gives m (if quoted s = [] then [] else [m.stored (quoted s)]) := by
  split
  · exact .inl rfl
  · next hne =>
    refine .inr ⟨quoted s, ((List.take_prefix _ _).trans (List.takeWhile_prefix _)).trans h, hne, List.length_take_le _ _,
      fun h34 => ?_, rfl⟩
    simpa using List.mem_takeWhile_imp (List.mem_of_mem_take h34)

theorem gives_found : Gives m m.found := gives_quoted (List.prefix_refl _)

theorem gives_cut (m : MtdInfo) (k : Nat) : Gives m (records (m.line.take k)) := by
  rcases Nat.lt_or_ge k m.line.length with hk | hk
  · rw [records_cut hk]
    exact gives_quoted (List.take_prefix _ _)
  · have hline := records_line (m := m) []
    rw [List.append_nil, records_nil, List.append_nil] at hline
    rw [List.take_of_length_le hk, hline]
    exact gives_found

/-- What the lines give, one by one. -/
theorem gives_take (ms : List MtdInfo) (k : Nat) :
    ∃ pss, records ((lines ms).take k) = pss.flatten ∧ List.Forall₂ Gives ms pss := by
  induction ms generalizing k with
  | nil => exact ⟨[], by simp [lines], .nil⟩
  | cons m ms ih =>
    obtain ⟨pss, hpss, hgives⟩ := ih (k - m.line.length)
    have htake : (lines (m :: ms)).take k = m.line.take k ++ (lines ms).take (k - m.line.length) := List.take_append
    rw [htake]
    rcases Nat.lt_or_ge k m.line.length with hk | hk
    · refine ⟨records (m.line.take k) :: pss, ?_, .cons (gives_cut m k) hgives⟩
      rw [List.flatten_cons, ← hpss, show k - m.line.length = 0 by omega]
      simp
    · refine ⟨m.found :: pss, ?_, .cons gives_found hgives⟩
      rw [List.take_of_length_le hk, records_line, hpss, List.flatten_cons]

/-- The names that are stored. -/
def nameLength (ps : List MtdPartition) : Nat := (ps.map fun p => (p.name.getD []).length).sum

@[simp] theorem nameLength_stored (m : MtdInfo) (w : Bytes) : nameLength [m.stored w] = w.length :=
  Nat.add_zero w.length

theorem gives_le {ps : List MtdPartition} (h : Gives m ps) : ps.length ≤ 1 ∧ nameLength ps ≤ m.name.length := by
  rcases h with rfl | ⟨w, hw, -, -, -, rfl⟩
  · exact ⟨Nat.zero_le _, Nat.zero_le _⟩
  · exact ⟨Nat.le_refl _, nameLength_stored m w ▸ hw.length_le⟩

theorem nameLength_append (ps qs : List MtdPartition) : nameLength (ps ++ qs) = nameLength ps + nameLength qs := by
  rw [nameLength, List.map_append, List.sum_append]
  rfl

theorem gives_flatten_le {pss : List (List MtdPartition)} (h : List.Forall₂ Gives ms pss) :
    pss.flatten.length ≤ ms.length ∧ nameLength pss.flatten ≤ (ms.map fun m => m.name.length).sum := by
  induction h with
  | nil => exact ⟨Nat.le_refl _, Nat.le_refl _⟩
  | cons hgives _ ih =>
    obtain ⟨hlen, hname⟩ := gives_le hgives
    rw [List.flatten_cons, nameLength_append, List.length_append, List.length_cons, List.map_cons, List.sum_cons]
    omega

/-- The name is one that is stored whole. -/
def MtdInfo.Named (m : MtdInfo) : Prop := m.name ≠ [] ∧ m.name.length ≤ 63 ∧ (34 : UInt8) ∉ m.name

/-- Where nothing is lost, each line gives its record. -/
theorem gives_whole {pss : List (List MtdPartition)} (h : List.Forall₂ Gives ms pss)
    (hlen : ms.length ≤ pss.flatten.length) (hname : (ms.map fun m => m.name.length).sum ≤ nameLength pss.flatten) :
    pss.flatten = ms.map (fun m => m.stored m.name) ∧ ∀ m ∈ ms, m.Named := by
  induction h with
  | nil => exact ⟨rfl, fun m hm => nomatch hm⟩
  | @cons m ps ms pss hgives hrest ih =>
    obtain ⟨hlen', hname'⟩ := gives_le hgives
    obtain ⟨hlens, hnames⟩ := gives_flatten_le hrest
    rw [List.flatten_cons, nameLength_append, List.map_cons, List.sum_cons] at hname
    rw [List.flatten_cons, List.length_append, List.length_cons] at hlen
    obtain ⟨heq, hall⟩ := ih (by omega) (by omega)
    rcases hgives with rfl | ⟨w, hw, hne, h63, h34, rfl⟩
    · rw [List.length_nil] at hlen
      omega
    · rw [nameLength_stored] at hname
      obtain rfl : w = m.name := hw.eq_of_length_le (by omega)
      exact ⟨by rw [List.flatten_cons, heq]; rfl, List.forall_mem_cons.mpr ⟨⟨hne, h63, h34⟩, hall⟩⟩

theorem quoted_named (h : m.Named) : quoted m.name = m.name := by
  have hall : ∀ c ∈ m.name, (c != 34) = true := fun c hc => bne_iff_ne.mpr fun h34 => h.2.2 (h34 ▸ hc)
  rw [quoted, List.takeWhile_eq_self_iff.mpr hall, List.take_of_length_le h.2.1]

/-- Each line of the file gives its record. -/
theorem scanned_whole (hnamed : ∀ m ∈ ms, m.Named)
    (hread : ∀ before m, ms = before ++ [m] → (lines before).length + m.head.length + m.name.length < 2016) :
    scanned ms = ms.map fun m => m.stored m.name := by
  have hfound : ∀ m : MtdInfo, m.Named → m.found = [m.stored m.name] := by
    intro m hm
    rw [MtdInfo.found, quoted_named hm, if_neg hm.1]
  rcases List.eq_nil_or_concat' ms with rfl | ⟨before, m, rfl⟩
  · rw [scanned_eq]
    simp [lines]
  · have hlen := hread before m rfl
    have hm : m.Named := hnamed m (by simp)
    have hbefore : before.flatMap MtdInfo.found = before.map fun m => m.stored m.name := by
      rw [← List.flatMap_pure_eq_map]
      exact List.flatMap_congr fun m' hm' => hfound m' (hnamed m' (by simp [hm']))
    have hlast : records (m.line.take (2016 - (lines before).length)) = [m.stored m.name] := by
      rcases Nat.lt_or_ge (2016 - (lines before).length) m.line.length with hk | hk
      · rw [records_cut hk, List.take_of_length_le (by omega), quoted_named hm, if_neg hm.1]
      · have hline := records_line (m := m) []
        rw [List.append_nil, records_nil, List.append_nil] at hline
        rw [List.take_of_length_le hk, hline, hfound m hm]
    rw [scanned_concat (by omega), hbefore, hlast, List.map_append]
    rfl

/-- Where each line gives its record, the last name is read whole. -/
theorem read_of_scanned (h : scanned ms = ms.map fun m => m.stored m.name) (hnamed : ∀ m ∈ ms, m.Named) :
    ∀ before m, ms = before ++ [m] → (lines before).length + m.head.length + m.name.length < 2016 := by
  rintro before m rfl
  have hm : m.Named := hnamed m (by simp)
  have hlen := congrArg List.length h
  rw [List.length_map, List.length_append, List.length_singleton] at hlen
  have hbegun : (lines before).length ≤ 2016 := by
    by_contra hge
    obtain ⟨pss, hpss, hgives⟩ := gives_take before 2016
    have hle := (gives_flatten_le hgives).1
    rw [scanned_eq, lines_concat, List.take_append_of_le_length (by omega), hpss] at hlen
    omega
  obtain ⟨pss, hpss, hgives⟩ := gives_take before (lines before).length
  have hle := (gives_flatten_le hgives).1
  have hbefore := records_lines before []
  rw [List.append_nil, records_nil, List.append_nil] at hbefore
  rw [List.take_length, hbefore] at hpss
  rw [← hpss] at hle
  rw [scanned_concat hbegun] at h hlen
  have hone := (gives_le (gives_cut m (2016 - (lines before).length))).1
  rw [List.length_append] at hlen
  rw [List.map_append] at h
  obtain ⟨-, hlast⟩ := List.append_inj' h (by simp; omega)
  by_contra hcut
  rw [records_cut (by rw [line_length]; omega)] at hlast
  split at hlast
  · cases hlast
  · have hname : quoted (m.name.take (2016 - (lines before).length - m.head.length - 1)) = m.name :=
      Option.some.inj (congrArg MtdPartition.name (List.singleton_inj.mp hlast))
    have hlen' := congrArg List.length hname
    have htake : (quoted (m.name.take (2016 - (lines before).length - m.head.length - 1))).length ≤
        2016 - (lines before).length - m.head.length - 1 :=
      ((List.take_prefix _ _).trans (List.takeWhile_prefix _)).length_le.trans (List.length_take_le _ _)
    have hpos := List.length_pos_iff.mpr hm.1
    omega

/-! ## The table -/

variable {table' : Table} {count : Int}

theorem store_some (h : store table p = some table') :
    ∃ i : Fin 32, (i : Int) = p.deviceIndex ∧ table' = Function.update table i p := by
  rw [store] at h
  split at h
  · next hindex => exact ⟨⟨p.deviceIndex.toNat, by omega⟩, Int.toNat_of_nonneg hindex.1, (Option.some.inj h).symm⟩
  · cases h

/-- A slot is as before, or holds a record of its device. -/
theorem foldlM_slot (h : ps.foldlM store table = some table') (i : Fin 32) :
    table' i = table i ∨ table' i ∈ ps ∧ (table' i).deviceIndex = i := by
  induction ps generalizing table with
  | nil =>
    obtain rfl := Option.some.inj h
    exact .inl rfl
  | cons p ps ih =>
    obtain ⟨table₁, hstore, hrest⟩ := Option.bind_eq_some_iff.mp h
    obtain ⟨j, hj, rfl⟩ := store_some hstore
    rcases ih hrest with heq | ⟨hmem, hindex⟩
    · by_cases hij : i = j
      · subst hij
        rw [Function.update_self] at heq
        exact .inr ⟨heq ▸ List.mem_cons_self, heq ▸ hj.symm⟩
      · rw [Function.update_of_ne hij] at heq
        exact .inl heq
    · exact .inr ⟨List.mem_cons_of_mem p hmem, hindex⟩

/-- The slot of a record's device holds a record of that device. -/
theorem foldlM_stored (h : ps.foldlM store table = some table') (hp : p ∈ ps) :
    ∃ i : Fin 32, (i : Int) = p.deviceIndex ∧ table' i ∈ ps ∧ (table' i).deviceIndex = i := by
  induction ps generalizing table with
  | nil => exact absurd hp List.not_mem_nil
  | cons q ps ih =>
    obtain ⟨table₁, hstore, hrest⟩ := Option.bind_eq_some_iff.mp h
    rcases List.mem_cons.mp hp with rfl | hp
    · obtain ⟨i, hi, rfl⟩ := store_some hstore
      refine ⟨i, hi, ?_⟩
      rcases foldlM_slot hrest i with heq | ⟨hmem, hindex⟩
      · rw [Function.update_self] at heq
        exact ⟨heq ▸ List.mem_cons_self, heq ▸ hi.symm⟩
      · exact ⟨List.mem_cons_of_mem p hmem, hindex⟩
    · obtain ⟨i, hi, hmem, hindex⟩ := ih hrest hp
      exact ⟨i, hi, List.mem_cons_of_mem q hmem, hindex⟩

theorem foldlM_exists (h : ∀ p ∈ ps, 0 ≤ p.deviceIndex ∧ p.deviceIndex < 32) (table : Table) :
    ∃ table', ps.foldlM store table = some table' := by
  induction ps generalizing table with
  | nil => exact ⟨table, rfl⟩
  | cons p ps ih =>
    obtain ⟨hp, hps⟩ := List.forall_mem_cons.mp h
    obtain ⟨table', htable⟩ := ih hps (Function.update table ⟨p.deviceIndex.toNat, by omega⟩ p)
    exact ⟨table', by rw [List.foldlM_cons, store, dif_pos hp]; exact htable⟩

theorem find_isSome : (mtdFindPartitionByName ⟨some table, count⟩ name).isSome ↔ ∃ i, (table i).isNamed name := by
  simp [mtdFindPartitionByName, List.find?_isSome]

theorem find_some (h : mtdFindPartitionByName ⟨some table, count⟩ name = some p) :
    (∃ i, table i = p) ∧ p.isNamed name := by
  have hfind : ((List.finRange 32).map table).find? (MtdPartition.isNamed name) = some p := h
  obtain ⟨i, -, hi⟩ := List.mem_map.mp (List.mem_of_find?_eq_some hfind)
  exact ⟨⟨i, hi⟩, List.find?_some hfind⟩

theorem isNamed_clear (p : MtdPartition) (name : Bytes) : p.clear.isNamed name = false := rfl

/-! ## Scans -/

/-- The scan of a file finds each partition under its name, as its line says, and no other. -/
def Scans (ms : List MtdInfo) (g : MtdState) : Prop :=
  ∃ g' n, mtdScanPartitions true (some (text ms)) g = some (g', n) ∧
    (∀ name, (mtdFindPartitionByName g' name).isSome ↔ ∃ m ∈ ms, m.name = name) ∧
    ∀ name p, mtdFindPartitionByName g' name = some p →
      ∃ m ∈ ms, m.name = name ∧ p.deviceIndex = m.num ∧ p.size = m.size ∧ p.eraseSize = m.eraseSize

/-- The slots can take the lines; no two have the same device; and the last name ends within the first 2047 bytes. -/
structure Scannable (ms : List MtdInfo) : Prop where
  fits : ∀ m ∈ ms, m.Fits
  nums : (ms.map MtdInfo.num).Nodup
  read : ∀ before m, ms = before ++ [m] → (lines before).length + m.head.length + m.name.length < 2016

/-- The slots in front of a scan. -/
def cleared (g : MtdState) : Table := fun i => ((g.partitions.getD fun _ => ⟨0, 0, 0, none⟩) i).clear

theorem scans_def (ms : List MtdInfo) (g : MtdState) : Scans ms g ↔
    ∃ table count, (scanned ms).foldlM store (cleared g) = some table ∧
      (∀ name, (mtdFindPartitionByName ⟨some table, count⟩ name).isSome ↔ ∃ m ∈ ms, m.name = name) ∧
      ∀ name p, mtdFindPartitionByName ⟨some table, count⟩ name = some p →
        ∃ m ∈ ms, m.name = name ∧ p.deviceIndex = m.num ∧ p.size = m.size ∧ p.eraseSize = m.eraseSize := by
  have hscan : mtdScanPartitions true (some (text ms)) g =
      ((scanned ms).foldlM store (cleared g)).map fun table =>
        ((⟨some table, 0 + (scanned ms).length⟩ : MtdState), 0 + ((scanned ms).length : Int)) := by
    rw [mtdScanPartitions]
    simp only [↓reduceIte, parse_eq, Option.map_map]
    rfl
  constructor
  · rintro ⟨g', n, hg', hfound, hfields⟩
    rw [hscan] at hg'
    obtain ⟨table, htable, heq⟩ := Option.map_eq_some_iff.mp hg'
    obtain ⟨rfl, -⟩ := Prod.mk.inj heq
    exact ⟨table, _, htable, hfound, hfields⟩
  · rintro ⟨table, count, htable, hfound, hfields⟩
    rw [htable] at hscan
    exact ⟨⟨some table, _⟩, _, hscan, hfound, hfields⟩

theorem bmod_small {n : Nat} (h : n < 32) : (n : Int).bmod (2 ^ 32) = n := by
  rw [Int.bmod_def]
  split <;> omega

theorem mod_small {n : Nat} (h : n < 2 ^ 32) : ((n : Int) % 2 ^ 32).toNat = n := by
  rw [Int.emod_eq_of_lt (Int.natCast_nonneg n) (by exact_mod_cast h), Int.toNat_natCast]

theorem lt_of_mod {n : Nat} (h : ((n : Int) % 2 ^ 32).toNat = n) : n < 2 ^ 32 := by
  have hlt := Int.emod_lt_of_pos (n : Int) (show (0 : Int) < 2 ^ 32 by decide)
  have hnonneg := Int.toNat_of_nonneg (Int.emod_nonneg (n : Int) (show (2 ^ 32 : Int) ≠ 0 by decide))
  rw [h] at hnonneg
  rw [← hnonneg] at hlt
  exact_mod_cast hlt

theorem stored_fits (h : m.Fits) : m.stored m.name = ⟨m.num, m.size, m.eraseSize, some m.name⟩ := by
  have hnum := bmod_small h.num
  have hsize := mod_small h.size
  have herase := mod_small h.eraseSize
  unfold MtdInfo.stored
  rw [hnum, hsize, herase]

/-- Files that fit are found again. -/
theorem scans_of_scannable (g : MtdState) (h : Scannable ms) : Scans ms g := by
  have hwhole := scanned_whole (fun m hm => (h.fits m hm).name) h.read
  have hmem : ∀ p ∈ scanned ms, ∃ m ∈ ms, p = ⟨m.num, m.size, m.eraseSize, some m.name⟩ := by
    intro p hp
    rw [hwhole] at hp
    obtain ⟨m, hm, rfl⟩ := List.mem_map.mp hp
    exact ⟨m, hm, stored_fits (h.fits m hm)⟩
  have hindex : ∀ p ∈ scanned ms, 0 ≤ p.deviceIndex ∧ p.deviceIndex < 32 := by
    intro p hp
    obtain ⟨m, hm, rfl⟩ := hmem p hp
    exact ⟨Int.natCast_nonneg _, Int.ofNat_lt.mpr (h.fits m hm).num⟩
  obtain ⟨table, htable⟩ := foldlM_exists hindex (cleared g)
  -- every slot that has a name holds a line
  have hslot : ∀ i name, (table i).isNamed name → ∃ m ∈ ms, m.name = name ∧ table i = ⟨m.num, m.size, m.eraseSize, some m.name⟩ := by
    intro i name hname
    rcases foldlM_slot htable i with heq | ⟨hp, -⟩
    · rw [heq, cleared, isNamed_clear] at hname
      exact absurd hname Bool.false_ne_true
    · obtain ⟨m, hm, heq⟩ := hmem _ hp
      rw [heq] at hname
      exact ⟨m, hm, by simpa [MtdPartition.isNamed] using hname, heq⟩
  refine (scans_def ms g).mpr ⟨table, 0, htable, fun name => ?_, fun name p hp => ?_⟩
  · rw [find_isSome]
    constructor
    · rintro ⟨i, hi⟩
      obtain ⟨m, hm, hname, -⟩ := hslot i name hi
      exact ⟨m, hm, hname⟩
    · rintro ⟨m, hm, rfl⟩
      have hp : m.stored m.name ∈ scanned ms := by
        rw [hwhole]
        exact List.mem_map_of_mem hm
      obtain ⟨i, hi, hp', hindex⟩ := foldlM_stored htable hp
      obtain ⟨m', hm', heq⟩ := hmem _ hp'
      have hnum : m'.num = m.num := by
        rw [heq] at hindex
        rw [stored_fits (h.fits m hm)] at hi
        have : (m'.num : Int) = m.num := hindex.trans hi
        exact_mod_cast this
      obtain rfl := List.inj_on_of_nodup_map h.nums hm' hm hnum
      exact ⟨i, by rw [heq]; simp [MtdPartition.isNamed]⟩
  · obtain ⟨⟨i, rfl⟩, hname⟩ := find_some hp
    obtain ⟨m, hm, hmname, heq⟩ := hslot i name hname
    exact ⟨m, hm, hmname, by rw [heq], by rw [heq], by rw [heq]⟩

/-- Files with different names that are found again fit. -/
theorem scannable_of_scans {g : MtdState} (hnodup : (ms.map MtdInfo.name).Nodup) (h : Scans ms g) : Scannable ms := by
  obtain ⟨table, count, htable, hfound, hfields⟩ := (scans_def ms g).mp h
  obtain ⟨pss, hpss, hgives⟩ := gives_take ms 2016
  rw [← scanned_eq] at hpss
  -- every name is stored
  have hsub : (ms.map fun m => some m.name) ⊆ (scanned ms).map MtdPartition.name := by
    intro name hname
    obtain ⟨m, hm, rfl⟩ := List.mem_map.mp hname
    obtain ⟨i, hi⟩ := find_isSome.mp ((hfound m.name).mpr ⟨m, hm, rfl⟩)
    rcases foldlM_slot htable i with heq | ⟨hp, -⟩
    · rw [heq, cleared, isNamed_clear] at hi
      exact absurd hi Bool.false_ne_true
    · exact List.mem_map.mpr ⟨_, hp, by simpa [MtdPartition.isNamed] using (Bool.and_eq_true_iff.mp hi).2⟩
  have hnodup' : (ms.map fun m => some m.name).Nodup := by
    have := hnodup.map (f := some) fun _ _ => Option.some.inj
    rwa [List.map_map] at this
  have hperm : ms.map (fun m => some m.name) |>.Perm ((scanned ms).map MtdPartition.name) := by
    refine (hnodup'.subperm hsub).perm_of_length_le ?_
    rw [List.length_map, List.length_map, hpss]
    exact (gives_flatten_le hgives).1
  -- so each line gives its record
  have hlen : ms.length ≤ pss.flatten.length := by
    have := hperm.length_eq
    rw [List.length_map, List.length_map, hpss] at this
    omega
  have hlengths : (ms.map fun m => m.name.length).sum ≤ nameLength pss.flatten := by
    have := (hperm.map fun name => (name.getD []).length).sum_eq
    rw [List.map_map, List.map_map] at this
    rw [nameLength, ← hpss]
    exact this.le
  obtain ⟨hwhole, hnamed⟩ := gives_whole hgives hlen hlengths
  rw [← hpss] at hwhole
  -- and the slot of a name holds the record of its line
  have hstored : ∀ m ∈ ms, ∃ i, table i = m.stored m.name ∧ (table i).deviceIndex = i ∧
      mtdFindPartitionByName ⟨some table, count⟩ m.name = some (m.stored m.name) := by
    intro m hm
    obtain ⟨p, hp⟩ := Option.isSome_iff_exists.mp ((hfound m.name).mpr ⟨m, hm, rfl⟩)
    obtain ⟨⟨i, rfl⟩, hname⟩ := find_some hp
    have hname' : (table i).name = some m.name := by
      simpa [MtdPartition.isNamed] using (Bool.and_eq_true_iff.mp hname).2
    rcases foldlM_slot htable i with heq | ⟨hmem, hindex⟩
    · rw [heq, cleared, isNamed_clear] at hname
      exact absurd hname Bool.false_ne_true
    · rw [hwhole] at hmem
      obtain ⟨m', hm', heq⟩ := List.mem_map.mp hmem
      rw [← heq] at hname'
      obtain rfl := List.inj_on_of_nodup_map hnodup hm' hm (Option.some.inj hname')
      exact ⟨i, heq.symm, hindex, by rw [hp, heq]⟩
  refine ⟨fun m hm => ?_, ?_, read_of_scanned hwhole hnamed⟩
  · obtain ⟨i, hi, hindex, hfind⟩ := hstored m hm
    obtain ⟨m', hm', hname, hnum, hsize, herase⟩ := hfields m.name _ hfind
    obtain rfl := List.inj_on_of_nodup_map hnodup hm' hm hname
    rw [hi, hnum] at hindex
    have hi32 := i.isLt
    exact ⟨by omega, lt_of_mod hsize, lt_of_mod herase, hnamed _ hm⟩
  · refine hnodup.of_map.map_on fun m hm m' hm' hnum => ?_
    obtain ⟨i, hi, hindex, -⟩ := hstored m hm
    obtain ⟨j, hj, hindex', -⟩ := hstored m' hm'
    have hij : i = j := by
      rw [hi] at hindex
      rw [hj] at hindex'
      have hsame : (m.stored m.name).deviceIndex = (m'.stored m'.name).deviceIndex := by
        unfold MtdInfo.stored
        rw [hnum]
      exact Fin.ext (Int.ofNat.inj (hindex.symm.trans (hsame.trans hindex')))
    rw [← hij, hi] at hj
    exact List.inj_on_of_nodup_map hnodup hm hm' (Option.some.inj (congrArg MtdPartition.name hj))

/-- Without the file nothing is found. -/
theorem scan_failed (malloc : Bool) (g : MtdState) : ∃ g', mtdScanPartitions malloc none g = some (g', -1) ∧
    ∀ name, mtdFindPartitionByName g' name = none := by
  rw [mtdScanPartitions]
  split
  · next hnone =>
    refine ⟨g, rfl, fun name => ?_⟩
    have hg : g.partitions = none := by
      by_cases hmalloc : malloc = true
      · simp [hmalloc] at hnone
      · simpa [hmalloc] using hnone
    rw [mtdFindPartitionByName, hg]
    rfl
  · next table =>
    refine ⟨_, rfl, fun name => ?_⟩
    rw [← Option.not_isSome_iff_eq_none, find_isSome]
    rintro ⟨i, hi⟩
    exact Bool.false_ne_true hi

/-- Whatever was scanned before, a scan of a file that fits finds it again; one of different names that is found again
fits; and without the file nothing is found. -/
theorem mtdScans_iff (g : MtdState) (ms : List MtdInfo) :
    (Scannable ms → Scans ms g) ∧ ((ms.map MtdInfo.name).Nodup → Scans ms g → Scannable ms) ∧
      ∀ malloc, ∃ g', mtdScanPartitions malloc none g = some (g', -1) ∧ ∀ name, mtdFindPartitionByName g' name = none :=
  ⟨scans_of_scannable g, scannable_of_scans, fun malloc => scan_failed malloc g⟩

/-- `mtd32: 00020000 00020000 "a"`: there is no slot 32. -/
theorem device_not_scans :
    ¬ Scans [⟨32, 0x20000, 0x20000, [97], by decide⟩] initial := by
  intro h
  exact absurd ((scannable_of_scans (by decide) h).fits _ List.mem_cons_self).num (by decide)

end Partitions

end Miui
