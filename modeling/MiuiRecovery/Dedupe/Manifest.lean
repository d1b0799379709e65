import MiuiRecovery.Lib.Loop
import MiuiRecovery.Lib.Numeral
import MiuiRecovery.ApplyPatch.Storage

/-!
# Dedupe manifests

`dedupe/dedupe.c`: the text that `dedupe c` writes and that `dedupe x` and `dedupe gc` read. A line is a
list of fields, each ended by a tab.

* `tokenizeAll`: the fields of a line, each read into a buffer of its own.
* `Line.text`: a line as `print_stat` and the functions behind it write it.
* `Manifest`: what a manifest of a supported version says.
* `tokenizeAll_fields`: fields without tabs are read back.
* `openManifest_text`: the version and the lines of a manifest are.
-/

namespace Miui
namespace Dedupe

open CString Numeral

def PATH_MAX : Nat := 4096

def DEDUPE_VERSION : Int := 2

/-- What can go wrong in C. -/
inductive Trouble
  /-- a dereference of `NULL` -/
  | crash
  /-- a write behind the end of a buffer, a read of what was never written, or an `int` that overflows -/
  | undefined
deriving DecidableEq

/-! ## Reading -/

/-- `tokenize(out, line, '\t')` into an `out` of `cap` bytes: the token and what is behind it. Without a
tab, all of the line is copied and `NULL` is returned. -/
def tokenize (cap : Nat) : Option Bytes → Except Trouble (Bytes × Option Bytes)
  | none => .error .crash
  | some line =>
    let out := line.takeWhile (· != 9)
    if 9 ∈ line then
      if out.length < cap then .ok (out, some (line.drop (out.length + 1))) else .error .undefined
    else if line.length ≤ cap then .ok (line, none)
    else .error .undefined

/-- One `tokenize` after the other, into buffers of these sizes. -/
def tokenizeAll : List Nat → Option Bytes → Except Trouble (List Bytes × Option Bytes)
  | [], token => .ok ([], token)
  | cap :: caps, token => do
    let (out, token) ← tokenize cap token
    let (outs, token) ← tokenizeAll caps token
    pure (out :: outs, token)

/-- The sizes of `type`, `mode`, `uid`, `gid`, the times and `filename`. -/
def fieldCaps (version : Int) : List Nat :=
  [4, 8, 32, 32] ++ (if version ≥ 2 then [32, 32, 32] else []) ++ [PATH_MAX]

def isSpace (c : UInt8) : Bool := c = 32 ∨ 9 ≤ c ∧ c ≤ 13

def isDigit (c : UInt8) : Bool := 48 ≤ c ∧ c ≤ 57

/-- `sscanf(line, "dedupe\t%d", &version)`; the tab matches any white space. -/
def scanVersion (line : Bytes) : Except Trouble (Option Int) :=
  if (Bytes.ascii "dedupe").isPrefixOf line then
    let r : Bool × Bytes := match (line.drop 6).dropWhile isSpace with
      | 45 :: s => (true, s)
      | 43 :: s => (false, s)
      | s => (false, s)
    let num := r.2.takeWhile isDigit
    let version : Int := if r.1 then -(value 10 num : Int) else value 10 num
    if num = [] then .ok none
    else if -2 ^ 31 ≤ version ∧ version < 2 ^ 31 then .ok (some version)
    else .error .undefined
  else .ok none

/-- The version of a manifest and the lines behind it. An empty file leaves `line` unwritten; without a
version, `fseek` goes back to the first line. -/
def openManifest (file : Bytes) : Except Trouble (Int × List Bytes) :=
  match fgetsAll PATH_MAX (by decide) 10 file with
  | [] => .error .undefined
  | line :: lines =>
    match scanVersion (cstr line) with
    | .error t => .error t
    | .ok (some version) => .ok (version, lines)
    | .ok none => .ok (1, line :: lines)

/-- The loop of `dec_to_oct`. -/
def decToOctLoop (dec ret mult : Int) : Int :=
  if dec = 0 then ret else decToOctLoop (dec.tdiv 10) (ret + dec.tmod 10 * mult) (mult * 8)
termination_by dec.natAbs
decreasing_by
  rw [Int.natAbs_tdiv]
  exact Nat.div_lt_self (by omega) (by decide)

def decToOct (dec : Int) : Int := decToOctLoop dec 0 1

/-! ## Writing -/

/-- What a line says besides the status. -/
inductive Item
  | file (key : Bytes) (size : Int)
  | link (target : Bytes)
  | dir
deriving DecidableEq

def Item.type : Item → UInt8
  | .file _ _ => 102
  | .link _ => 108
  | .dir => 100

def Item.fields : Item → List Bytes
  | .file key size => [key, signed size]
  | .link target => [target]
  | .dir => []

structure Line where
  mode : Nat
  uid : Int
  gid : Int
  atime : Nat
  mtime : Nat
  ctime : Nat
  filename : Bytes
  item : Item
deriving DecidableEq

/-- The fields that `print_stat` writes; version 1 has no times. -/
def Line.stat (version : Int) (l : Line) : List Bytes :=
  [[l.item.type], numeral 8 l.mode, signed l.uid, signed l.gid] ++
    (if version ≥ 2 then [numeral 10 l.atime, numeral 10 l.mtime, numeral 10 l.ctime] else []) ++ [l.filename]

def Line.fields (version : Int) (l : Line) : List Bytes := l.stat version ++ l.item.fields

/-- Fields that are each ended by a tab. -/
def tabbed (fields : List Bytes) : Bytes := fields.flatMap (· ++ [9])

/-- A line without its newline. -/
def Line.text (version : Int) (l : Line) : Bytes := tabbed (l.fields version)

/-- A text that a field can hold. -/
def Plain (s : Bytes) : Prop := (0 : UInt8) ∉ s ∧ (9 : UInt8) ∉ s ∧ (10 : UInt8) ∉ s

instance (s : Bytes) : Decidable (Plain s) := inferInstanceAs (Decidable (_ ∧ _))

/-- The name, the key and the target are plain. -/
def Line.Plain (l : Line) : Prop := Dedupe.Plain l.filename ∧ ∀ s ∈ l.item.fields, Dedupe.Plain s

/-- What a manifest of a supported version says; a manifest of version 1 may do without a version line. -/
structure Manifest where
  header : Option Nat
  lines : List Line
  supported : ∀ v ∈ header, (v : Int) ≤ DEDUPE_VERSION
  plain : ∀ l ∈ lines, l.Plain

def Manifest.version (m : Manifest) : Int := (m.header.getD 1 : Nat)

def versionLine (v : Nat) : Bytes := Bytes.ascii "dedupe\t" ++ numeral 10 v

def Manifest.text (m : Manifest) : Bytes :=
  unlines 10 (m.header.toList.map versionLine ++ m.lines.map (Line.text m.version))

/-! ## Reading back fields -/

variable {cap : Nat} {caps : List Nat} {fields : List Bytes} {t rest : Bytes}

theorem takeWhile_tab (ht : (9 : UInt8) ∉ t) : (t ++ 9 :: rest).takeWhile (· != 9) = t := by
  have hall : ∀ c ∈ t, (c != 9) = true := by
    intro c hc
    have hne : c ≠ 9 := fun h => ht (h ▸ hc)
    simpa using hne
  rw [List.takeWhile_append_of_pos hall]
  simp

/-- A field and its tab. -/
theorem tokenize_field (ht : (9 : UInt8) ∉ t) :
    tokenize cap (some (t ++ 9 :: rest)) = if t.length < cap then .ok (t, some rest) else .error .undefined := by
  have hmem : (9 : UInt8) ∈ t ++ 9 :: rest := by simp
  have hdrop : (t ++ 9 :: rest).drop (t.length + 1) = rest := by
    rw [← List.drop_drop, List.drop_left]
    rfl
  simp only [tokenize, takeWhile_tab ht, if_pos hmem, hdrop]

/-- Fields without tabs are read back, where they fit. -/
theorem tokenizeAll_fields (hlen : fields.length = caps.length) (htab : ∀ f ∈ fields, (9 : UInt8) ∉ f) :
    tokenizeAll caps (some (tabbed fields ++ rest)) =
      if List.Forall₂ (fun f cap => f.length < cap) fields caps then .ok (fields, some rest)
      else .error .undefined := by
  induction caps generalizing fields with
  | nil =>
    obtain rfl := List.length_eq_zero_iff.mp hlen
    simp [tokenizeAll, tabbed]
  | cons cap caps ih =>
    obtain ⟨f, fs, rfl⟩ := List.exists_cons_of_length_eq_add_one hlen
    have hsplit : tabbed (f :: fs) ++ rest = f ++ 9 :: (tabbed fs ++ rest) := by simp [tabbed]
    have hih := ih (by simpa using hlen) fun g hg => htab g (List.mem_cons_of_mem f hg)
    rw [hsplit, tokenizeAll, tokenize_field (htab f List.mem_cons_self)]
    simp only [List.forall₂_cons]
    by_cases hf : f.length < cap
    · rw [if_pos hf, Except.ok_bind, hih]
      by_cases hfs : List.Forall₂ (fun f cap => f.length < cap) fs caps
      · rw [if_pos hfs, if_pos ⟨hf, hfs⟩]
        rfl
      · rw [if_neg hfs, if_neg fun h => hfs h.2]
        rfl
    · rw [if_neg hf, if_neg fun h => hf h.1]
      rfl

theorem tokenize_count {line : Bytes} {token : Option Bytes} (h : tokenize cap (some line) = .ok (t, token)) :
    token = none ∨ ∃ r, token = some r ∧ r.count 9 + 1 = line.count 9 := by
  by_cases hmem : (9 : UInt8) ∈ line
  · obtain ⟨pre, post, rfl, hpre⟩ := List.eq_append_cons_of_mem hmem
    rw [tokenize_field hpre] at h
    split at h
    · simp only [Except.ok.injEq, Prod.mk.injEq] at h
      refine .inr ⟨post, h.2.symm, ?_⟩
      rw [List.count_append, List.count_eq_zero.mpr hpre, List.count_cons_self, Nat.zero_add]
    · cases h
  · simp only [tokenize, if_neg hmem] at h
    split at h
    · simp only [Except.ok.injEq, Prod.mk.injEq] at h
      exact .inl h.2.symm
    · cases h

/-- A line with too few tabs is not read to its end. -/
theorem tokenizeAll_count {line : Bytes} {r : List Bytes × Option Bytes}
    (h : tokenizeAll caps (some line) = .ok r) : caps.length ≤ line.count 9 + 1 := by
  induction caps generalizing line r with
  | nil => exact Nat.zero_le _
  | cons cap caps ih =>
    obtain ⟨⟨out, token⟩, hout, hrest⟩ := Except.bind_eq_ok.mp h
    obtain ⟨⟨outs, token'⟩, houts, -⟩ := Except.bind_eq_ok.mp hrest
    rcases tokenize_count hout with rfl | ⟨s, rfl, hs⟩
    · cases caps with
      | nil => simp
      | cons cap' caps => cases houts
    · have := ih houts
      rw [List.length_cons]
      omega

/-! ## Lines -/

variable {version : Int} {l : Line}

theorem plain_numeral {b : Nat} (hb : 1 < b) (hb10 : b ≤ 10) (n : Nat) : Plain (numeral b n) := by
  have hdigit : ∀ c : UInt8, c < 48 → c ∉ numeral b n := by
    intro c hc hmem
    exact absurd (numeral_digits hb hb10 hmem).1 (not_le.mpr hc)
  exact ⟨hdigit 0 (by decide), hdigit 9 (by decide), hdigit 10 (by decide)⟩

theorem plain_signed (n : Int) : Plain (signed n) := by
  have hchar : ∀ c : UInt8, c < 45 → c ∉ signed n := by
    intro c hc hmem
    rcases signed_chars hmem with rfl | ⟨hle, -⟩
    · exact lt_irrefl _ hc
    · exact absurd (hle.trans_lt hc) (by decide)
  exact ⟨hchar 0 (by decide), hchar 9 (by decide), hchar 10 (by decide)⟩

theorem plain_fields (hl : l.Plain) : ∀ f ∈ l.fields version, Plain f := by
  intro f hf
  have htype : Plain [l.item.type] := by cases l.item <;> simp [Dedupe.Plain, Item.type]
  have hnum : ∀ n, Plain (numeral 10 n) := plain_numeral (by decide) (by decide)
  simp only [Line.fields, Line.stat, List.mem_append, List.mem_cons, List.not_mem_nil, or_false] at hf
  rcases hf with ((((rfl | rfl | rfl | rfl) | htimes) | rfl) | hitem)
  · exact htype
  · exact plain_numeral (by decide) (by decide) _
  · exact plain_signed _
  · exact plain_signed _
  · split at htimes
    · simp only [List.mem_cons, List.not_mem_nil, or_false] at htimes
      rcases htimes with rfl | rfl | rfl
      · exact hnum _
      · exact hnum _
      · exact hnum _
    · cases htimes
  · exact hl.1
  · exact hl.2 f hitem

theorem mem_tabbed {c : UInt8} : c ∈ tabbed fields ↔ (∃ f ∈ fields, c ∈ f) ∨ c = 9 ∧ fields ≠ [] := by
  simp only [tabbed, List.mem_flatMap, List.mem_append, List.mem_singleton]
  constructor
  · rintro ⟨f, hf, hc | rfl⟩
    · exact .inl ⟨f, hf, hc⟩
    · exact .inr ⟨rfl, List.ne_nil_of_mem hf⟩
  · rintro (⟨f, hf, hc⟩ | ⟨rfl, hne⟩)
    · exact ⟨f, hf, .inl hc⟩
    · obtain ⟨f, fs, rfl⟩ := List.exists_cons_of_ne_nil hne
      exact ⟨f, List.mem_cons_self, .inr rfl⟩

theorem Line.nul_not_mem (hl : l.Plain) : (0 : UInt8) ∉ l.text version := by
  intro h
  rcases mem_tabbed.mp h with ⟨f, hf, hc⟩ | ⟨h9, -⟩
  · exact (plain_fields hl f hf).1 hc
  · cases h9

theorem Line.newline_not_mem (hl : l.Plain) : (10 : UInt8) ∉ l.text version := by
  intro h
  rcases mem_tabbed.mp h with ⟨f, hf, hc⟩ | ⟨h9, -⟩
  · exact (plain_fields hl f hf).2.2 hc
  · cases h9

theorem count_tabbed (htab : ∀ f ∈ fields, (9 : UInt8) ∉ f) : (tabbed fields).count 9 = fields.length := by
  induction fields with
  | nil => rfl
  | cons f fs ih =>
    have hcons : tabbed (f :: fs) = f ++ 9 :: tabbed fs := by simp [tabbed]
    rw [hcons, List.count_append, List.count_cons_self, ih fun g hg => htab g (List.mem_cons_of_mem f hg),
      List.count_eq_zero.mpr (htab f List.mem_cons_self), List.length_cons, Nat.zero_add]

theorem length_stat (version : Int) (l : Line) : (l.stat version).length = (fieldCaps version).length := by
  unfold Line.stat fieldCaps
  split <;> rfl

theorem length_fieldCaps (version : Int) : 5 ≤ (fieldCaps version).length := by
  unfold fieldCaps
  split <;> decide

theorem length_item (i : Item) : i.fields.length ≤ 2 := by cases i <;> simp [Item.fields]

/-! ## Manifests -/

theorem versionLine_newline (v : Nat) : (10 : UInt8) ∉ versionLine v := by
  have hnum := (plain_numeral (b := 10) (by decide) (by decide) v).2.2
  simp only [versionLine, List.mem_append, not_or]
  exact ⟨by decide, hnum⟩

theorem scanVersion_line {v : Nat} (hv : (v : Int) ≤ DEDUPE_VERSION) :
    scanVersion (cstr (versionLine v ++ [10])) = .ok (some v) := by
  have hcases : v = 0 ∨ v = 1 ∨ v = 2 := by
    unfold DEDUPE_VERSION at hv
    omega
  rcases hcases with rfl | rfl | rfl <;> decide +kernel

/-- A line of a manifest is no version. -/
theorem scanVersion_text (t : UInt8) (s : Bytes) : scanVersion (cstr (t :: 9 :: s)) = .ok none := by
  have hascii : Bytes.ascii "dedupe" = [100, 101, 100, 117, 112, 101] := by decide
  have hprefix : (Bytes.ascii "dedupe").isPrefixOf (cstr (t :: 9 :: s)) = false := by
    rw [hascii, cstr, List.takeWhile_cons]
    split
    · simp [List.isPrefixOf]
    · rfl
  rw [scanVersion, hprefix]
  rfl

theorem Line.text_eq (version : Int) (l : Line) : ∃ s, l.text version = l.item.type :: 9 :: s :=
  ⟨_, rfl⟩

/-- The first piece of a line starts as the line does. -/
theorem fgetsAll_head (l : Line) (version : Int) (rest : Bytes) : ∃ s cs,
    fgetsAll PATH_MAX (by decide) 10 (l.text version ++ rest) = (l.item.type :: 9 :: s) :: cs := by
  obtain ⟨s, hs⟩ := l.text_eq version
  have htype : l.item.type ≠ 10 := by cases l.item <;> simp [Item.type]
  rw [hs, fgetsAll, dif_neg (by simp), List.cons_append, List.cons_append, fgetsLine,
    if_neg (by decide), if_neg htype, fgetsLine, if_neg (by decide), if_neg (by decide)]
  exact ⟨_, _, rfl⟩

/-- Reading back a manifest that is not empty. -/
theorem openManifest_text (m : Manifest) (hne : m.text ≠ []) : openManifest m.text =
    .ok (m.version, fgetsAll PATH_MAX (by decide) 10 (unlines 10 (m.lines.map (Line.text m.version)))) := by
  cases hheader : m.header with
  | some v =>
    have hv := m.supported v (by simp [hheader])
    have htext : m.text = versionLine v ++ 10 :: unlines 10 (m.lines.map (Line.text m.version)) := by
      simp [Manifest.text, hheader, unlines]
    have hlen : (versionLine v).length + 1 < PATH_MAX := by
      have hnum : (numeral 10 v).length ≤ 1 :=
        numeral_length_le (by decide) (by decide) (by unfold DEDUPE_VERSION at hv; omega)
      have hascii : (Bytes.ascii "dedupe\t").length = 7 := by decide
      rw [versionLine, List.length_append, hascii]
      unfold PATH_MAX
      omega
    rw [htext, openManifest, fgetsAll_line _ hlen (versionLine_newline v)]
    dsimp only
    rw [scanVersion_line hv]
    simp [Manifest.version, hheader]
  | none =>
    have htext : m.text = unlines 10 (m.lines.map (Line.text m.version)) := by simp [Manifest.text, hheader]
    have hversion : m.version = 1 := by simp [Manifest.version, hheader]
    cases hlines : m.lines with
    | nil => exact absurd (by rw [htext, hlines]; rfl) hne
    | cons l ls =>
      have hcons : unlines 10 ((l :: ls).map (Line.text m.version)) =
          l.text m.version ++ 10 :: unlines 10 (ls.map (Line.text m.version)) := by simp [unlines]
      obtain ⟨s, cs, hhead⟩ := fgetsAll_head l m.version (10 :: unlines 10 (ls.map (Line.text m.version)))
      rw [htext, hlines, openManifest, hcons, hhead]
      dsimp only
      rw [scanVersion_text, hversion]

end Dedupe
end Miui
