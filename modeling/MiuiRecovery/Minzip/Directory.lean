import MiuiRecovery.Minzip.Archive
import Mathlib.Data.List.Sort

/-!
# The central directory

What the records of a central directory say, without the order in which `parseZipArchive` reads them, and the
loop over the records in these terms.

* `directory`: the entries of the records, in their order, or how the loop ends before it has them all.
* `parseEntries_eq`: the loop computes it, and its array is the sorted directory.
-/

namespace Miui.Zip

variable {m : MemMapping}

/-! ## Reads -/

namespace MemMapping

/-- The `n` bytes at `p`, as far as they are in the map. -/
def text (m : MemMapping) (n p : Nat) : Bytes := (m.bytes.drop (p - m.addr)).take n

def half (m : MemMapping) (p : Nat) : Nat := Bytes.ofLE (m.text 2 p)

def word (m : MemMapping) (p : Nat) : Nat := Bytes.ofLE (m.text 4 p)

theorem load_inside {n p : Nat} (hlow : m.addr ≤ p) (hhigh : p + n ≤ m.limit) : m.load n p = .ok (m.text n p) :=
  if_pos ⟨hlow, hhigh⟩

theorem get2LE_inside {p : Nat} (hlow : m.addr ≤ p) (hhigh : p + 2 ≤ m.limit) : m.get2LE p = .ok (m.half p) := by
  unfold get2LE
  rw [load_inside hlow hhigh]
  rfl

theorem get4LE_inside {p : Nat} (hlow : m.addr ≤ p) (hhigh : p + 4 ≤ m.limit) : m.get4LE p = .ok (m.word p) := by
  unfold get4LE
  rw [load_inside hlow hhigh]
  rfl

theorem get4LE_beyond {p : Nat} (hhigh : m.limit < p + 4) : m.get4LE p = .error .outside := by
  unfold get4LE load
  rw [if_neg (by omega)]
  rfl

theorem get_inside {p : Nat} (hlow : m.addr ≤ p) (hhigh : p < m.limit) : m.get p = .ok ((m.text 1 p).headD 0) := by
  unfold get
  rw [load_inside hlow hhigh]
  rfl

theorem text_length {n p : Nat} (hlow : m.addr ≤ p) (hhigh : p + n ≤ m.limit) : (m.text n p).length = n := by
  unfold text limit length at *
  rw [List.length_take, List.length_drop]
  omega

theorem text_succ {n p : Nat} (hlow : m.addr ≤ p) (hhigh : p < m.limit) :
    m.text (n + 1) p = (m.text 1 p).headD 0 :: m.text n (p + 1) := by
  unfold text limit length at *
  have hlt : p - m.addr < m.bytes.length := by omega
  rw [List.drop_eq_getElem_cons hlt, show p + 1 - m.addr = p - m.addr + 1 by omega]
  rfl

theorem half_lt (m : MemMapping) (p : Nat) : m.half p < 2 ^ 16 :=
  Nat.lt_of_lt_of_le (Bytes.ofLE_lt _)
    (Nat.pow_le_pow_right (n := 256) (by decide) (List.length_take_le 2 _))

theorem word_lt (m : MemMapping) (p : Nat) : m.word p < 2 ^ 32 :=
  Nat.lt_of_lt_of_le (Bytes.ofLE_lt _)
    (Nat.pow_le_pow_right (n := 256) (by decide) (List.length_take_le 4 _))

end MemMapping

open MemMapping

/-! ## Names -/

def Printable (s : Bytes) : Prop := ∀ c ∈ s, 32 ≤ c ∧ c < 127

instance (s : Bytes) : Decidable (Printable s) := inferInstanceAs (Decidable (∀ c ∈ s, _))

theorem Printable.no_nul {s : Bytes} (h : Printable s) : (0 : UInt8) ∉ s := fun h0 => absurd (h 0 h0).1 (by decide)

theorem validChars_eq {n p : Nat} (hlow : m.addr ≤ p) (hhigh : p + n ≤ m.limit) :
    validChars m n p = .ok (decide (Printable (m.text n p))) := by
  induction n generalizing p with
  | zero => simp [validChars, text, Printable]
  | succ n ih =>
    have htext : m.text (n + 1) p = _ := text_succ hlow (by omega)
    rw [validChars, get_inside hlow (by omega), Except.ok_bind, htext]
    generalize (m.text 1 p).headD 0 = c
    by_cases hc : c < 32 ∨ c ≥ 127
    · rw [if_pos hc]
      have hbad : ¬ Printable (c :: m.text n (p + 1)) := fun h => by
        have hin := h c List.mem_cons_self
        rcases hc with hc | hc
        · exact absurd hc (not_lt_of_ge hin.1)
        · exact absurd hin.2 (not_lt_of_ge hc)
      rw [decide_eq_false hbad]
    · rw [if_neg hc, ih (by omega) (by omega)]
      have hin : 32 ≤ c ∧ c < 127 := ⟨not_lt.mp fun h => hc (.inl h), not_le.mp fun h => hc (.inr h)⟩
      congr 1
      refine decide_eq_decide.mpr ?_
      unfold Printable
      rw [List.forall_mem_cons]
      exact (and_iff_right hin).symm

theorem validFilename_eq {n p : Nat} (hlow : m.addr ≤ p) (hhigh : p + n ≤ m.limit) :
    validFilename m p n = .ok (decide (n < PATH_MAX ∧ Printable (m.text n p))) := by
  unfold validFilename
  rw [validChars_eq hlow hhigh]
  split
  · rw [decide_eq_false fun h => by omega]
  · rename_i h
    congr 1
    exact decide_eq_decide.mpr ⟨fun hp => ⟨by omega, hp⟩, And.right⟩

/-! ## A record -/

section Record

variable (m : MemMapping) (p : Nat)

def nameLen : Nat := m.half (p + CENNAM)

def localHdrOffset : Nat := m.word (p + CENOFF)

/-- What `checkName` asks of the record at `p`. -/
structure Named : Prop where
  inside : p + CENHDR ≤ m.limit
  sig : m.word p = CENSIG
  name_inside : p + CENHDR + nameLen m p ≤ m.limit
  short : nameLen m p < PATH_MAX
  printable : Printable (m.text (nameLen m p) (p + CENHDR))

/-- The `version made by` is one that the code knows. -/
def Compatible : Prop :=
  m.half (p + CENVEM) &&& 0xff00 = 0 ∨ m.half (p + CENVEM) &&& 0xff00 = CENVEM_UNIX

/-- The local header starts in the last bytes of the address space, and the sum that is compared with the limit
of the map wraps. -/
def Strays : Prop :=
  m.addr + localHdrOffset m p < 2 ^ 32 ∧ 2 ^ 32 ≤ m.addr + localHdrOffset m p + LOCHDR

/-- The entry of the record. -/
def entryAt : ZipEntry where
  fileNameLen := nameLen m p
  fileName := p + CENHDR
  offset := asInt (localHdrOffset m p + LOCHDR + m.half (m.addr + localHdrOffset m p + LOCNAM) +
    m.half (m.addr + localHdrOffset m p + LOCEXT))
  compLen := asInt (m.word (p + CENSIZ))
  uncompLen := asInt (m.word (p + CENLEN))
  compression := m.half (p + CENHOW)
  modTime := asInt (m.word (p + CENTIM))
  crc32 := asInt (m.word (p + CENCRC))
  versionMadeBy := m.half (p + CENVEM)
  externalFileAttributes := asInt (m.word (p + CENATX))

/-- The local header and the data of the record are accepted. -/
structure Located : Prop where
  inside : m.addr + localHdrOffset m p + LOCHDR ≤ m.limit
  sig : m.word (m.addr + localHdrOffset m p) = LOCSIG
  no_overflow : safe_add (entryAt m p).offset (entryAt m p).compLen = true
  data_inside : ((entryAt m p).offset + (entryAt m p).compLen) % 2 ^ 32 ≤ m.length

/-- The address behind the record. -/
def next : Nat := p + CENHDR + nameLen m p + m.half (p + CENEXT) + m.half (p + CENCOM)

end Record

variable {p : Nat}

theorem bailIf_pos {c : Prop} [Decidable c] {α : Type} {f : Unit → Except Stop α} (h : c) :
    (bailIf c >>= f) = .error .bail := by
  unfold bailIf
  rw [if_pos h, Except.error_bind]

theorem bailIf_neg {c : Prop} [Decidable c] {α : Type} {f : Unit → Except Stop α} (h : ¬ c) :
    (bailIf c >>= f) = f () := by
  unfold bailIf
  rw [if_neg h, Except.ok_bind]

/-- A record that is not `Named` ends the loop. -/
theorem checkName_bail (hp : m.addr ≤ p) (h : ¬ Named m p) : checkName m p = .error .bail := by
  unfold checkName
  by_cases hin : p + CENHDR > m.limit
  · rw [bailIf_pos hin]
  rw [bailIf_neg hin, get4LE_inside hp (by unfold CENHDR at hin; omega), Except.ok_bind]
  by_cases hsig : m.word p ≠ CENSIG
  · rw [bailIf_pos hsig]
  rw [bailIf_neg hsig, get2LE_inside (by omega) (by unfold CENHDR CENNAM at *; omega), Except.ok_bind]
  by_cases hname : p + CENHDR + m.half (p + CENNAM) > m.limit
  · rw [bailIf_pos hname]
  rw [bailIf_neg hname, validFilename_eq (by omega) (by omega), Except.ok_bind]
  refine bailIf_pos fun hvalid => h ?_
  have hvalid := of_decide_eq_true hvalid
  exact ⟨not_lt.mp hin, not_not.mp hsig, not_lt.mp hname, hvalid.1, hvalid.2⟩

theorem checkName_eq (hp : m.addr ≤ p) (h : Named m p) : checkName m p = .ok (nameLen m p) := by
  have hin := h.inside
  have hname := h.name_inside
  unfold nameLen at hname
  unfold checkName
  rw [bailIf_neg (not_lt.mpr hin), get4LE_inside hp (by unfold CENHDR at hin; omega), Except.ok_bind,
    bailIf_neg (not_not.mpr h.sig), get2LE_inside (by omega) (by unfold CENHDR CENNAM at *; omega), Except.ok_bind,
    bailIf_neg (not_lt.mpr hname), validFilename_eq (by omega) hname, Except.ok_bind]
  exact bailIf_neg (not_not.mpr (decide_eq_true ⟨h.short, h.printable⟩))

/-- `fillEntry` with the fields of the record read. -/
theorem fillEntry_fields (hp : m.addr ≤ p) (hin : p + CENHDR ≤ m.limit) :
    fillEntry m p (nameLen m p) = (do
      bailIf (m.half (p + CENVEM) &&& 0xff00 ≠ 0 ∧ m.half (p + CENVEM) &&& 0xff00 ≠ CENVEM_UNIX)
      bailIf (m.addr + localHdrOffset m p ≥ 2 ^ 32)
      bailIf ((m.addr + localHdrOffset m p + LOCHDR) % 2 ^ 32 > m.limit)
      let sig ← m.get4LE (m.addr + localHdrOffset m p)
      bailIf (sig ≠ LOCSIG)
      let nam ← m.get2LE (m.addr + localHdrOffset m p + LOCNAM)
      let ext ← m.get2LE (m.addr + localHdrOffset m p + LOCEXT)
      let offset := asInt (localHdrOffset m p + LOCHDR + nam + ext)
      bailIf (¬ safe_add offset (entryAt m p).compLen)
      bailIf ((offset + (entryAt m p).compLen) % 2 ^ 32 > m.length)
      .ok { entryAt m p with offset }) := by
  unfold CENHDR at hin
  have h4 (k : Nat) (hk : k + 4 ≤ 46) : m.get4LE (p + k) = .ok (m.word (p + k)) :=
    get4LE_inside (by omega) (by omega)
  have h2 (k : Nat) (hk : k + 2 ≤ 46) : m.get2LE (p + k) = .ok (m.half (p + k)) :=
    get2LE_inside (by omega) (by omega)
  unfold fillEntry
  rw [h4 CENSIZ (by decide), h4 CENLEN (by decide), h2 CENHOW (by decide), h4 CENTIM (by decide),
    h4 CENCRC (by decide), h2 CENVEM (by decide), h4 CENATX (by decide), h4 CENOFF (by decide)]
  simp only [Except.map_ok, Except.ok_bind]
  rfl

theorem fillEntry_incompatible (hp : m.addr ≤ p) (hin : p + CENHDR ≤ m.limit) (h : ¬ Compatible m p) :
    fillEntry m p (nameLen m p) = .error .bail := by
  rw [fillEntry_fields hp hin]
  exact bailIf_pos (not_or.mp h)

theorem Compatible.known (h : Compatible m p) :
    ¬ (m.half (p + CENVEM) &&& 0xff00 ≠ 0 ∧ m.half (p + CENVEM) &&& 0xff00 ≠ CENVEM_UNIX) :=
  fun ⟨h0, h1⟩ => h.elim h0 h1

/-- The sum wraps to an address below the limit, and the signature is read outside the map. -/
theorem fillEntry_strays (hp : m.addr ≤ p) (hin : p + CENHDR ≤ m.limit) (h : Compatible m p) (hs : Strays m p) :
    fillEntry m p (nameLen m p) = .error .outside := by
  obtain ⟨hlow, hhigh⟩ := hs
  have haddr := m.addr_low
  have hlimit := m.addr_high
  unfold LOCHDR at hhigh
  rw [fillEntry_fields hp hin, bailIf_neg h.known, bailIf_neg (by omega),
    bailIf_neg (by unfold LOCHDR limit; omega), get4LE_beyond (by unfold limit length; omega), Except.error_bind]

theorem fillEntry_located (hp : m.addr ≤ p) (hin : p + CENHDR ≤ m.limit) (h : Compatible m p) (hl : Located m p) :
    fillEntry m p (nameLen m p) = .ok (entryAt m p) := by
  have hinside := hl.inside
  have hlimit := m.addr_high
  have hlt : m.limit < 2 ^ 32 := by unfold limit length; omega
  have hlocal : m.addr ≤ m.addr + localHdrOffset m p := Nat.le_add_right _ _
  unfold LOCHDR at hinside
  rw [fillEntry_fields hp hin, bailIf_neg h.known, bailIf_neg (by omega),
    bailIf_neg (by unfold LOCHDR; omega), get4LE_inside hlocal (by omega), Except.ok_bind,
    bailIf_neg (not_not.mpr hl.sig), get2LE_inside (by omega) (by unfold LOCNAM; omega), Except.ok_bind,
    get2LE_inside (by omega) (by unfold LOCEXT; omega), Except.ok_bind]
  exact (bailIf_neg (not_not.mpr hl.no_overflow)).trans (bailIf_neg (not_lt.mpr hl.data_inside))

/-- Any other local header ends the loop. -/
theorem fillEntry_bail (hp : m.addr ≤ p) (hin : p + CENHDR ≤ m.limit) (h : Compatible m p) (hs : ¬ Strays m p)
    (hl : ¬ Located m p) : fillEntry m p (nameLen m p) = .error .bail := by
  have hlimit := m.addr_high
  have hlocal : m.addr ≤ m.addr + localHdrOffset m p := Nat.le_add_right _ _
  rw [fillEntry_fields hp hin, bailIf_neg h.known]
  by_cases hover : m.addr + localHdrOffset m p ≥ 2 ^ 32
  · rw [bailIf_pos hover]
  have hnowrap : m.addr + localHdrOffset m p + LOCHDR < 2 ^ 32 := not_le.mp fun hle => hs ⟨not_le.mp hover, hle⟩
  rw [bailIf_neg hover, Nat.mod_eq_of_lt hnowrap]
  by_cases hout : m.addr + localHdrOffset m p + LOCHDR > m.limit
  · rw [bailIf_pos hout]
  rw [bailIf_neg hout, get4LE_inside hlocal (by unfold LOCHDR at hout; omega), Except.ok_bind]
  by_cases hsig : m.word (m.addr + localHdrOffset m p) ≠ LOCSIG
  · rw [bailIf_pos hsig]
  rw [bailIf_neg hsig, get2LE_inside (by omega) (by unfold LOCHDR LOCNAM at *; omega), Except.ok_bind,
    get2LE_inside (by omega) (by unfold LOCHDR LOCEXT at *; omega), Except.ok_bind]
  by_cases hsum : safe_add (entryAt m p).offset (entryAt m p).compLen = true
  · refine (bailIf_neg (not_not.mpr hsum)).trans (bailIf_pos (not_le.mp fun hdata => hl ?_))
    exact ⟨not_lt.mp hout, not_not.mp hsig, hsum, hdata⟩
  · exact bailIf_pos hsum

/-! ## The order of the names -/

/-- The bytes of the name of an entry are in the map, and none of them is NUL. -/
structure Held (m : MemMapping) (e : ZipEntry) : Prop where
  low : m.addr ≤ e.fileName
  high : e.fileName + e.fileNameLen ≤ m.limit
  printable : Printable (e.name m)

theorem Held.length {e : ZipEntry} (h : Held m e) : (e.name m).length = e.fileNameLen := text_length h.low h.high

theorem Named.held (hp : m.addr ≤ p) (h : Named m p) : Held m (entryAt m p) where
  low := Nat.le_add_right_of_le hp
  high := h.name_inside
  printable := h.printable

/-- The sign of `nameDiff`: bytes first, then lengths. -/
def nameOrder (a b : Bytes) : Int := if memcmp a b = 0 then (a.length : Int) - b.length else memcmp a b

theorem nameOrder_cons (x y : UInt8) (a b : Bytes) :
    nameOrder (x :: a) (y :: b) = if x ≠ y then (x.toNat : Int) - y.toNat else nameOrder a b := by
  unfold nameOrder
  rw [memcmp]
  by_cases hxy : x = y
  · have hlen : (((x :: a).length : Nat) : Int) - ((y :: b).length : Nat) = a.length - b.length := by
      rw [List.length_cons, List.length_cons]
      omega
    rw [hlen, hxy, if_neg (not_not.mpr rfl), if_neg (not_not.mpr rfl)]
  · have hne : (x.toNat : Int) - y.toNat ≠ 0 := fun h => hxy (UInt8.toNat_inj.mp (by omega))
    simp only [ne_eq, hxy, not_false_eq_true, if_true, if_neg hne]

theorem nameOrder_cases : ∀ a b : Bytes,
    nameOrder a b < 0 ∧ a < b ∨ nameOrder a b = 0 ∧ a = b ∨ 0 < nameOrder a b ∧ b < a
  | [], [] => .inr (.inl ⟨rfl, rfl⟩)
  | [], y :: b => by
    have hcmp : memcmp [] (y :: b) = 0 := by simp [memcmp]
    refine .inl ⟨?_, List.Lex.nil⟩
    rw [nameOrder, hcmp, if_pos rfl, List.length_nil, List.length_cons]
    omega
  | x :: a, [] => by
    have hcmp : memcmp (x :: a) [] = 0 := by simp [memcmp]
    refine .inr (.inr ⟨?_, List.Lex.nil⟩)
    rw [nameOrder, hcmp, if_pos rfl, List.length_nil, List.length_cons]
    omega
  | x :: a, y :: b => by
    rw [nameOrder_cons]
    rcases lt_trichotomy x y with hlt | rfl | hgt
    · rw [if_pos hlt.ne]
      have := UInt8.lt_iff_toNat_lt.mp hlt
      exact .inl ⟨by omega, .rel hlt⟩
    · rw [if_neg (not_not.mpr rfl)]
      rcases nameOrder_cases a b with ⟨hd, hlt⟩ | ⟨hd, rfl⟩ | ⟨hd, hgt⟩
      · exact .inl ⟨hd, .cons hlt⟩
      · exact .inr (.inl ⟨hd, rfl⟩)
      · exact .inr (.inr ⟨hd, .cons hgt⟩)
    · rw [if_pos hgt.ne']
      have := UInt8.lt_iff_toNat_lt.mp hgt
      exact .inr (.inr ⟨by omega, .rel hgt⟩)

theorem memcmp_take : ∀ a b : Bytes, memcmp (a.take (min a.length b.length)) (b.take (min a.length b.length)) = memcmp a b
  | [], b => by simp [memcmp]
  | x :: a, [] => by simp [memcmp]
  | x :: a, y :: b => by
    rw [List.length_cons, List.length_cons, Nat.succ_min_succ, List.take_succ_cons, List.take_succ_cons, memcmp,
      memcmp, memcmp_take a b]

theorem strncmp_eq {n q : Nat} (hp : m.addr ≤ p) (hpn : p + n ≤ m.limit) (hq : m.addr ≤ q) (hqn : q + n ≤ m.limit)
    (hnul : (0 : UInt8) ∉ m.text n p) : strncmp m n p q = .ok (memcmp (m.text n p) (m.text n q)) := by
  induction n generalizing p q with
  | zero => rfl
  | succ n ih =>
    have htext : m.text (n + 1) p = _ := text_succ hp (by omega)
    have htext' : m.text (n + 1) q = _ := text_succ hq (by omega)
    rw [htext] at hnul
    rw [strncmp, get_inside hp (by omega), Except.ok_bind, get_inside hq (by omega), Except.ok_bind, htext, htext',
      memcmp, ih (by omega) (by omega) (by omega) (by omega) fun h => hnul (List.mem_cons_of_mem _ h)]
    have hx : (m.text 1 p).headD 0 ≠ 0 := fun h => hnul (List.mem_cons.mpr (.inl h.symm))
    by_cases hxy : (m.text 1 p).headD 0 ≠ (m.text 1 q).headD 0
    · rw [if_pos hxy, if_pos hxy]
    · rw [if_neg hxy, if_neg hxy, if_neg hx]

theorem nameDiff_eq {e : ZipEntry} {n q : Nat} (he : Held m e) (hq : m.addr ≤ q) (hqn : q + n ≤ m.limit) :
    nameDiff m e q n = .ok (nameOrder (e.name m) (m.text n q)) := by
  have hlow := he.low
  have hhigh := he.high
  have hlen : (m.text n q).length = n := text_length hq hqn
  have htake {k len p : Nat} (hk : k ≤ len) : m.text k p = (m.text len p).take k := by
    unfold text
    rw [List.take_take, Nat.min_eq_left hk]
  have hcmp : strncmp m (min e.fileNameLen n) e.fileName q = .ok (memcmp (e.name m) (m.text n q)) := by
    rw [strncmp_eq hlow (by omega) hq (by omega), htake (Nat.min_le_left _ n), htake (Nat.min_le_right e.fileNameLen n)]
    · have h := memcmp_take (e.name m) (m.text n q)
      rw [he.length, hlen] at h
      exact congrArg _ h
    · rw [htake (Nat.min_le_left _ n)]
      exact fun h => he.printable.no_nul (List.mem_of_mem_take h)
  unfold nameDiff
  rw [hcmp, Except.ok_bind, nameOrder, he.length, hlen]
  split <;> rfl

/-! ## The place of an entry -/

open Insertion

theorem locate_spec {pEntries : List ZipEntry} {q n fuel : Nat} {low high : Int}
    (hheld : ∀ e ∈ pEntries, Held m e) (hs : Sorted (ZipEntry.name m) pEntries) (hq : m.addr ≤ q)
    (hqn : q + n ≤ m.limit) (h : Narrowed (ZipEntry.name m) pEntries (m.text n q) low high)
    (hfuel : high + 1 - low ≤ fuel) :
    ∃ high', locate m pEntries q n fuel low high = .ok high' ∧
      Place (ZipEntry.name m) pEntries (m.text n q) (high' + 1).toNat := by
  have hend {low high : Int} (h : Narrowed (ZipEntry.name m) pEntries (m.text n q) low high) (hlow : ¬ low ≤ high) :
      Place (ZipEntry.name m) pEntries (m.text n q) (high + 1).toNat := by
    have hle := h.low_le
    rw [show high + 1 = low by omega]
    exact h.place (not_le.mp hlow)
  induction fuel generalizing low high with
  | zero =>
    have hlow : ¬ low ≤ high := by omega
    exact ⟨high, if_neg hlow, hend h hlow⟩
  | succ fuel ih =>
    by_cases hlow : low ≤ high
    · rw [locate, if_pos hlow]
      have hnonneg := h.low_nonneg
      have hlt := h.high_lt
      obtain ⟨mid, hmid⟩ := Int.eq_ofNat_of_zero_le (show 0 ≤ low + (high - low) / 2 by omega)
      have hget : pEntries[mid]? = some pEntries[mid] := List.getElem?_eq_getElem (by omega)
      simp only [hmid, Int.toNat_natCast, hget]
      rw [nameDiff_eq (hheld _ (List.getElem_mem _)) hq hqn, Except.ok_bind]
      rcases nameOrder_cases (pEntries[mid].name m) (m.text n q) with ⟨hd, hless⟩ | ⟨hd, heq⟩ | ⟨hd, hgreater⟩
      · rw [if_pos hd]
        exact ih (h.up hs hget (by omega) hless) (by omega)
      · rw [if_neg (by omega), if_neg (by omega)]
        exact ⟨mid, rfl, Place.behind_equal hs hget heq⟩
      · rw [if_neg (by omega), if_pos hd]
        exact ih (h.down hs hget (by omega) (by omega) hgreater) (by omega)
    · rw [locate, if_neg hlow]
      exact ⟨high, rfl, hend h hlow⟩

theorem findTarget_spec {pEntries : List ZipEntry} {q n : Nat} (hheld : ∀ e ∈ pEntries, Held m e)
    (hs : Sorted (ZipEntry.name m) pEntries) (hq : m.addr ≤ q) (hqn : q + n ≤ m.limit) :
    ∃ target, findTarget m pEntries q n = .ok target ∧ Place (ZipEntry.name m) pEntries (m.text n q) target := by
  unfold findTarget
  by_cases hpos : pEntries.length > 0
  · obtain ⟨high, hrun, hplace⟩ := @locate_spec m _ q n pEntries.length _ _ hheld hs hq hqn
      (Narrowed.start _ pEntries _) (by omega)
    rw [if_pos hpos, hrun, Except.ok_bind]
    exact ⟨_, if_pos hplace.le_length, hplace⟩
  · rw [if_neg hpos]
    obtain rfl : pEntries = [] := List.length_eq_zero_iff.mp (by omega)
    exact ⟨0, rfl, Nat.le_refl 0, by simp, by simp, by simp⟩

/-! ## The loop -/

/-- Everything that `parseEntry` asks of the record at `p`. -/
structure Admitted (m : MemMapping) (p : Nat) : Prop where
  named : Named m p
  compatible : Compatible m p
  located : Located m p

theorem next_ge (m : MemMapping) (p : Nat) : p ≤ next m p := by
  unfold next
  omega

theorem Located.not_strays (h : Located m p) : ¬ Strays m p := fun hs => by
  have hinside := h.inside
  have hhigh := m.addr_high
  have := hs.2
  unfold limit length at hinside
  omega

section Parse

variable {pEntries : List ZipEntry}

/-- A round up to `fillEntry`. -/
theorem parseEntry_named (hp : m.addr ≤ p) (h : Named m p) (hheld : ∀ e ∈ pEntries, Held m e)
    (hs : Sorted (ZipEntry.name m) pEntries) :
    ∃ target, Place (ZipEntry.name m) pEntries ((entryAt m p).name m) target ∧
      parseEntry m pEntries p = fillEntry m p (nameLen m p) >>= fun pEntry =>
        .ok (insertAt pEntries target pEntry, next m p) := by
  have hin := h.inside
  unfold CENHDR at hin
  obtain ⟨target, hrun, hplace⟩ := findTarget_spec hheld hs (q := p + CENHDR) (by omega) h.name_inside
  refine ⟨target, hplace, ?_⟩
  unfold parseEntry
  rw [checkName_eq hp h, Except.ok_bind, get2LE_inside (by omega) (by unfold CENEXT; omega), Except.ok_bind,
    get2LE_inside (by omega) (by unfold CENCOM; omega), Except.ok_bind, hrun, Except.ok_bind]
  rfl

theorem parseEntry_unnamed (hp : m.addr ≤ p) (h : ¬ Named m p) : parseEntry m pEntries p = .error .bail := by
  unfold parseEntry
  rw [checkName_bail hp h, Except.error_bind]

/-- The entries of `n` records from the one at `p`, in their order, or how the loop ends before. -/
inductive Directory (m : MemMapping) : Nat → Nat → Except Stop (List ZipEntry) → Prop
  | done (p : Nat) : Directory m 0 p (.ok [])
  | refused {n p : Nat} (named : Named m p → Compatible m p → ¬ Strays m p) (h : ¬ Admitted m p) :
      Directory m (n + 1) p (.error .bail)
  | strays {n p : Nat} (named : Named m p) (compatible : Compatible m p) (h : Strays m p) :
      Directory m (n + 1) p (.error .outside)
  | stopped {n p : Nat} {stop : Stop} (h : Admitted m p) (rest : Directory m n (next m p) (.error stop)) :
      Directory m (n + 1) p (.error stop)
  | entry {n p : Nat} {es : List ZipEntry} (h : Admitted m p) (rest : Directory m n (next m p) (.ok es)) :
      Directory m (n + 1) p (.ok (entryAt m p :: es))

/-- The array `pEntries'` is `pEntries` with the entries of `es` inserted: sorted, and the first entry of each name is
the first one that came. -/
structure Arranged (m : MemMapping) (pEntries es pEntries' : List ZipEntry) : Prop where
  held : ∀ e ∈ pEntries', Held m e
  sorted : Sorted (ZipEntry.name m) pEntries'
  perm : pEntries'.Perm (pEntries ++ es)
  find : ∀ s, pEntries'.find? (·.name m = s) = (pEntries ++ es).find? (·.name m = s)

theorem Arranged.insert {es pEntries' : List ZipEntry} {e : ZipEntry} {target : Nat}
    (hplace : Place (ZipEntry.name m) pEntries (e.name m) target)
    (h : Arranged m (insertAt pEntries target e) es pEntries') : Arranged m pEntries (e :: es) pEntries' where
  held := h.held
  sorted := h.sorted
  perm := by
    refine h.perm.trans (List.Perm.trans ?_ List.perm_middle.symm)
    exact (insertAt_perm pEntries target e).append_right es
  find s := by
    rw [h.find, List.find?_append, hplace.insert_find fun a => decide_eq_true_iff, ← List.find?_append,
      List.append_assoc]
    rfl

/-- The loop ends as the directory does. -/
theorem parseEntries_spec {n : Nat} (hp : m.addr ≤ p) (hheld : ∀ e ∈ pEntries, Held m e)
    (hs : Sorted (ZipEntry.name m) pEntries) :
    (∃ stop, Directory m n p (.error stop) ∧ parseEntries m n pEntries p = .error stop) ∨
      ∃ es pEntries', Directory m n p (.ok es) ∧ parseEntries m n pEntries p = .ok pEntries' ∧
        Arranged m pEntries es pEntries' := by
  induction n generalizing p pEntries with
  | zero =>
    refine .inr ⟨[], pEntries, .done p, rfl, hheld, hs, ?_, fun s => ?_⟩
    · rw [List.append_nil]
    · rw [List.append_nil]
  | succ n ih =>
    rw [parseEntries]
    by_cases hnamed : Named m p
    · obtain ⟨target, hplace, hrun⟩ := parseEntry_named hp hnamed hheld hs
      rw [hrun]
      by_cases hcompatible : Compatible m p
      · by_cases hstrays : Strays m p
        · rw [fillEntry_strays hp hnamed.inside hcompatible hstrays]
          exact .inl ⟨_, .strays hnamed hcompatible hstrays, rfl⟩
        by_cases hlocated : Located m p
        · rw [fillEntry_located hp hnamed.inside hcompatible hlocated]
          have hadmitted : Admitted m p := ⟨hnamed, hcompatible, hlocated⟩
          have hheld' : ∀ e ∈ insertAt pEntries target (entryAt m p), Held m e := fun e he => by
            rcases List.mem_cons.mp ((insertAt_perm ..).mem_iff.mp he) with rfl | he
            · exact hnamed.held hp
            · exact hheld e he
          rcases ih (hp.trans (next_ge m p)) hheld' (hplace.insert_sorted hs) with
            ⟨stop, hdir, hrun'⟩ | ⟨es, pEntries', hdir, hrun', harranged⟩
          · exact .inl ⟨stop, .stopped hadmitted hdir, hrun'⟩
          · exact .inr ⟨_, pEntries', .entry hadmitted hdir, hrun', harranged.insert hplace⟩
        · rw [fillEntry_bail hp hnamed.inside hcompatible hstrays hlocated]
          exact .inl ⟨_, .refused (fun _ _ => hstrays) fun h => hlocated h.located, rfl⟩
      · rw [fillEntry_incompatible hp hnamed.inside hcompatible]
        exact .inl ⟨_, .refused (fun _ h => absurd h hcompatible) fun h => hcompatible h.compatible, rfl⟩
    · rw [parseEntry_unnamed hp hnamed]
      exact .inl ⟨_, .refused (fun h => absurd h hnamed) fun h => hnamed h.named, rfl⟩

end Parse

/-! ## The records by their numbers -/

/-- Record number `i` of the directory that starts at `p`. -/
def record (m : MemMapping) (p i : Nat) : Nat := (next m)^[i] p

/-- Record number `i` is reached. -/
def Reached (m : MemMapping) (p i : Nat) : Prop := ∀ j < i, Admitted m (record m p j)

theorem reached_succ {i : Nat} : Reached m p (i + 1) ↔ Admitted m p ∧ Reached m (next m p) i := by
  constructor
  · exact fun h => ⟨h 0 (Nat.succ_pos i), fun j hj => h (j + 1) (Nat.succ_lt_succ hj)⟩
  · rintro ⟨h0, h⟩ j hj
    cases j with
    | zero => exact h0
    | succ j => exact h j (Nat.lt_of_succ_lt_succ hj)

theorem Directory.error {n : Nat} {stop : Stop} (h : Directory m n p (.error stop)) : stop = .bail ∨ stop = .outside := by
  generalize hr : (Except.error stop : Except Stop (List ZipEntry)) = r at h
  induction h with
  | done => cases hr
  | refused => exact .inl (Except.error.inj hr)
  | strays => exact .inr (Except.error.inj hr)
  | stopped _ _ ih => exact ih hr
  | entry => cases hr

/-- A local header that is read outside the map belongs to a record that is reached. -/
theorem Directory.outside_iff {n : Nat} {r : Except Stop (List ZipEntry)} (h : Directory m n p r) :
    r = .error .outside ↔ ∃ i < n, Reached m p i ∧ Named m (record m p i) ∧ Compatible m (record m p i) ∧
      Strays m (record m p i) := by
  have hstep {n p : Nat} (h : Admitted m p) :
      (∃ i < n + 1, Reached m p i ∧ Named m (record m p i) ∧ Compatible m (record m p i) ∧ Strays m (record m p i)) ↔
      ∃ i < n, Reached m (next m p) i ∧ Named m (record m (next m p) i) ∧ Compatible m (record m (next m p) i) ∧
        Strays m (record m (next m p) i) := by
    constructor
    · rintro ⟨i, hi, hreached, hrecord⟩
      cases i with
      | zero => exact absurd hrecord.2.2 h.located.not_strays
      | succ i => exact ⟨i, Nat.lt_of_succ_lt_succ hi, (reached_succ.mp hreached).2, hrecord⟩
    · rintro ⟨i, hi, hreached, hrecord⟩
      exact ⟨i + 1, Nat.succ_lt_succ hi, reached_succ.mpr ⟨h, hreached⟩, hrecord⟩
  induction h with
  | done => exact iff_of_false (fun h => nomatch h) fun ⟨_, hi, _⟩ => absurd hi (Nat.not_lt_zero _)
  | refused hnamed hnot =>
    refine iff_of_false (fun h => nomatch h) ?_
    rintro ⟨i, -, hreached, hn, hc, hs⟩
    cases i with
    | zero => exact hnamed hn hc hs
    | succ i => exact hnot (reached_succ.mp hreached).1
  | strays hnamed hcompatible hs =>
    exact iff_of_true rfl ⟨0, Nat.succ_pos _, fun _ hj => absurd hj (Nat.not_lt_zero _), hnamed, hcompatible, hs⟩
  | stopped h _ ih => exact ih.trans (hstep h).symm
  | entry h _ ih => exact Iff.trans ⟨(fun h => nomatch h), fun h => nomatch h⟩ (ih.trans (hstep h).symm)

/-- All the entries are read when all the records are admitted. -/
theorem Directory.ok_iff {n : Nat} {r : Except Stop (List ZipEntry)} (h : Directory m n p r) (es : List ZipEntry) :
    r = .ok es ↔ Reached m p n ∧ es = (List.range n).map fun i => entryAt m (record m p i) := by
  induction h generalizing es with
  | done =>
    refine ⟨fun h => ?_, fun h => ?_⟩
    · cases h
      exact ⟨fun _ hj => absurd hj (Nat.not_lt_zero _), rfl⟩
    · rw [h.2]
      rfl
  | refused _ hnot => exact iff_of_false (fun h => nomatch h) fun h => hnot (reached_succ.mp h.1).1
  | strays _ _ hs =>
    exact iff_of_false (fun h => nomatch h) fun h => (reached_succ.mp h.1).1.located.not_strays hs
  | stopped _ _ ih =>
    refine iff_of_false (fun h => nomatch h) fun h => ?_
    exact nomatch (ih _).mpr ⟨(reached_succ.mp h.1).2, rfl⟩
  | @entry n p es' hadmitted _ ih =>
    have hmap : ((List.range (n + 1)).map fun i => entryAt m (record m p i)) =
        entryAt m p :: (List.range n).map fun i => entryAt m (record m (next m p) i) := by
      rw [List.range_succ_eq_map, List.map_cons, List.map_map]
      rfl
    rw [hmap, reached_succ, and_iff_right hadmitted]
    have hrest := (ih es').mp rfl
    constructor
    · intro h
      cases h
      exact ⟨hrest.1, congrArg _ hrest.2⟩
    · rintro ⟨-, rfl⟩
      rw [hrest.2]

end Miui.Zip
