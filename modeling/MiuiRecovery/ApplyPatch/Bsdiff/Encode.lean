import MiuiRecovery.ApplyPatch.Bsdiff.Bsdiff

/-!
# What bsdiff emits

The steps of the encoder stay in bounds, whatever the search finds, and the strings they emit give back
the part of `new` they stand for.

* `scan_spec`: the scan ends, at a match or at the end of `new`, and moves on.
* `cutOverlap_spec`: behind the cut the extensions lie side by side.
* `emit_spec`: the strings of one control triple.
-/

namespace Miui.Bsdiff

variable {old new : Bytes} {I : Arr} {i j o : Int}

theorem byteOf_eq {bs : Bytes} (h0 : 0 ≤ i) (h : i < bs.length) :
    byteOf bs i = some (bs.getD i.toNat 0) := by
  have hlt : i.toNat < bs.length := by omega
  unfold byteOf
  rw [if_pos h0, List.getD_eq_getElem?_getD, List.getElem?_eq_getElem hlt]
  rfl

theorem sameByte_some (old new : Bytes) (i j : Int) (hi : 0 ≤ i ∧ i < old.length) (hj : 0 ≤ j ∧ j < new.length) :
    ∃ b, sameByte old new i j = some b := by
  unfold sameByte
  rw [byteOf_eq hi.1 hi.2, byteOf_eq hj.1 hj.2]
  exact ⟨_, rfl⟩

theorem sameAt_some (old new : Bytes) (o i : Int) (hi : 0 ≤ i ∧ i < new.length) (ho : 0 ≤ i + o) : ∃ b, sameAt old new o i = some b := by
  unfold sameAt
  split
  · exact sameByte_some old new _ _ ⟨ho, by omega⟩ hi
  · exact ⟨false, rfl⟩

/-! ## The scan -/

variable {lastoffset : Int}

theorem score_spec (old new : Bytes) (lastoffset stop scsc oldscore : Int)
    (hscsc : 0 ≤ scsc ∧ 0 ≤ scsc + lastoffset)
    (hstop : stop ≤ new.length) :
    ∃ scsc' oldscore', score old new lastoffset stop (scsc, oldscore) = some (scsc', oldscore') ∧
      scsc ≤ scsc' ∧ oldscore ≤ oldscore' := by
  obtain ⟨⟨scsc', oldscore'⟩, hrun, hend, hle⟩ := forTo_spec (n := (stop - scsc).toNat)
    (s := (scsc, oldscore))
    (f := fun _ (st : Int × Int) => do
      let hit ← sameAt old new lastoffset st.1
      some (st.1 + 1, if hit then st.2 + 1 else st.2))
    (fun i st => st.1 = scsc + i ∧ oldscore ≤ st.2) ⟨by simp, Int.le_refl _⟩
    (by
      rintro i ⟨x, y⟩ hi ⟨hx, hy⟩
      simp only at hx hy
      obtain ⟨b, hb⟩ := sameAt_some old new lastoffset x (by omega) (by omega)
      refine ⟨_, by rw [hb]; rfl, by simp only; omega, ?_⟩
      simp only
      split <;> omega)
  simp only at hend hle
  exact ⟨scsc', oldscore', hrun, by omega, hle⟩

/-- What the scan keeps: it has moved on, or the score is still that of a first match. -/
structure Scanning (old new : Bytes) (lastoffset start : Int) (c : Scan) : Prop where
  start_le : 0 ≤ start ∧ start ≤ c.scan
  scan_le : c.scan ≤ new.length
  offset : 0 ≤ c.scan + lastoffset
  scsc_le : start ≤ c.scsc
  fresh : c.scan = start → c.found = false → 0 ≤ c.oldscore
  pos : 0 ≤ c.pos ∧ c.pos ≤ old.length
  found : c.found = true → 0 ≤ c.len ∧ c.scan + c.len ≤ new.length ∧ start < c.scan + c.len ∧
    c.scan < new.length

theorem scanStep_spec (hI : Places old I) {start : Int} {c : Scan}
    (hstart : 0 ≤ start + lastoffset) (hc : Scanning old new lastoffset start c) (hfound : c.found = false)
    (hlt : c.scan < new.length) :
    ∃ c', scanStep I old new lastoffset c = some c' ∧ Scanning old new lastoffset start c' ∧
      (c'.found = true ∧ c'.scan = c.scan ∨ c'.found = false ∧ c'.scan = c.scan + 1) := by
  obtain ⟨⟨h0, hstart'⟩, hle, hoff, hscsc, hfresh, hpos, -⟩ := hc
  obtain ⟨scan, scsc, oldscore, len, pos, found⟩ := c
  simp only at *
  have hsuffix : suffixAt new scan = some (new.drop scan.toNat) := if_pos (by omega)
  obtain ⟨-, s, -, -, hs, -, hsearch⟩ := search_spec hI (new.drop scan.toNat) 0 old.length (Nat.zero_le _)
    (Nat.le_refl _)
  have hlen := matchlen_le (old.drop s) (new.drop scan.toNat)
  rw [List.length_drop] at hlen
  generalize matchlen (old.drop s) (new.drop scan.toNat) = m at hsearch hlen
  obtain ⟨scsc', oldscore', hscore, hmono, hmono'⟩ := score_spec old new lastoffset
    (scan + m) scsc oldscore ⟨by omega, by omega⟩ (by omega)
  obtain ⟨b, hb⟩ := sameAt_some old new lastoffset scan ⟨by omega, hlt⟩ hoff
  unfold scanStep
  simp only [hsuffix, hsearch, hscore, hb, Option.bind_eq_bind, Option.bind_some]
  split
  · rename_i hbreak
    refine ⟨_, rfl, ⟨⟨h0, hstart'⟩, hle, hoff, by simp only; omega, by simp, by simp only; omega, fun _ => ?_⟩,
      .inl ⟨rfl, rfl⟩⟩
    -- without a step the score counts matches only, so the match is not empty
    have : 0 < (m : Int) ∨ start < scan := by
      by_cases hstep : scan = start
      · have := hfresh hstep hfound
        omega
      · omega
    simp only
    omega
  · exact ⟨_, rfl, ⟨⟨h0, by simp only; omega⟩, by simp only; omega, by simp only; omega,
      by simp only; omega, fun h => by simp only at h; omega, by simp only; omega, by simp⟩, .inr ⟨rfl, rfl⟩⟩

/-- The scan ends, at a match or at the end. -/
theorem scan_spec (new : Bytes) (lastoffset start len : Int) {pos : Int} (hI : Places old I)
    (hstart : 0 ≤ start ∧ start ≤ new.length ∧ 0 ≤ start + lastoffset) (hpos : 0 ≤ pos ∧ pos ≤ old.length) :
    ∃ c, loopWhile (fun c : Scan => !c.found && decide (c.scan < new.length))
        (scanStep I old new lastoffset) (new.length + 1) ⟨start, start, 0, len, pos, false⟩ = some c ∧
      Scanning old new lastoffset start c ∧ (c.found = true ∨ c.scan = new.length) := by
  obtain ⟨c, hrun, hc, hend⟩ := loopWhile_spec
    (c := fun c : Scan => !c.found && decide (c.scan < new.length)) (f := scanStep I old new lastoffset)
    (Scanning old new lastoffset start)
    (fun c => ((new.length : Int) - c.scan).toNat + if c.found then 0 else 1)
    (by
      intro c hc hcond
      rw [Bool.and_eq_true, Bool.not_eq_true', decide_eq_true_eq] at hcond
      obtain ⟨c', hstep, hc', hnext⟩ := scanStep_spec hI hstart.2.2 hc hcond.1 hcond.2
      refine ⟨c', hstep, hc', ?_⟩
      have hle := hc'.scan_le
      have hle' := hc'.start_le.2
      rw [hcond.1]
      obtain ⟨hfound, hscan⟩ | ⟨hfound, hscan⟩ := hnext
      · rw [hfound]
        simp only [Bool.false_eq_true, if_false, if_true]
        omega
      · rw [hfound]
        simp only [Bool.false_eq_true, if_false]
        omega)
    (new.length + 1) ⟨start, start, 0, len, pos, false⟩
    ⟨⟨hstart.1, Int.le_refl _⟩, hstart.2.1, hstart.2.2, Int.le_refl _, fun _ _ => Int.le_refl _, hpos,
      by simp⟩
    (by simp only [Bool.false_eq_true, if_false]; omega)
  refine ⟨c, hrun, hc, ?_⟩
  rw [Bool.and_eq_false_iff, Bool.not_eq_false', decide_eq_false_iff_not] at hend
  have := hc.scan_le
  obtain hfound | hend := hend
  · exact .inl hfound
  · exact .inr (by omega)

/-! ## The extensions -/

theorem extend_spec (hit : Nat → Option Bool) (n : Nat) (hhit : ∀ k, k < n → ∃ b, hit k = some b) :
    ∃ len, extend hit n = some len ∧ 0 ≤ len ∧ len ≤ n := by
  obtain ⟨⟨s, S, len⟩, hrun, h0, hle⟩ := forTo_spec (n := n) (s := ((0, 0, 0) : Int × Int × Int))
    (f := fun k (st : Int × Int × Int) => do
      let b ← hit k
      let s := if b then st.1 + 1 else st.1
      let i : Int := k + 1
      some (if s * 2 - i > st.2.1 * 2 - st.2.2 then (s, s, i) else (s, st.2.1, st.2.2)))
    (fun i st => 0 ≤ st.2.2 ∧ st.2.2 ≤ i) ⟨Int.le_refl _, Int.le_refl _⟩
    (by
      rintro k ⟨s, S, len⟩ hk ⟨h0, hle⟩
      obtain ⟨b, hb⟩ := hhit k hk
      refine ⟨_, by rw [hb]; rfl, ?_⟩
      simp only at h0 hle ⊢
      generalize (if b = true then s + 1 else s) = s'
      split
      · simp only
        omega
      · simp only
        omega)
  exact ⟨len, Option.bind_eq_some_iff.mpr ⟨_, hrun, rfl⟩, h0, hle⟩

variable {lastscan lastpos scan pos lenf lenb : Int}

theorem extendForward_spec (old new : Bytes) (lastscan lastpos scan : Int)
    (hscan : 0 ≤ lastscan ∧ lastscan ≤ scan ∧ scan ≤ new.length)
    (hpos : 0 ≤ lastpos ∧ lastpos ≤ old.length) :
    ∃ lenf, extendForward old new lastscan lastpos scan = some lenf ∧ 0 ≤ lenf ∧
      lastscan + lenf ≤ scan ∧ lastpos + lenf ≤ old.length := by
  obtain ⟨len, hrun, h0, hle⟩ := extend_spec
    (fun i => sameByte old new (lastpos + i) (lastscan + i))
    (min (scan - lastscan) (old.length - lastpos)).toNat
    (fun k hk => sameByte_some _ _ _ _ ⟨by omega, by omega⟩ ⟨by omega, by omega⟩)
  exact ⟨len, hrun, h0, by omega, by omega⟩

theorem extendBack_spec (old new : Bytes) (lastscan scan pos : Int)
    (hscan : 0 ≤ lastscan ∧ lastscan ≤ scan ∧ scan ≤ new.length)
    (hpos : 0 ≤ pos ∧ pos ≤ old.length) :
    ∃ lenb, extendBack old new lastscan scan pos = some lenb ∧ 0 ≤ lenb ∧ lastscan + lenb ≤ scan ∧
      lenb ≤ pos ∧ (scan = new.length → lenb = 0) := by
  unfold extendBack
  split
  · obtain ⟨len, hrun, h0, hle⟩ := extend_spec
      (fun i => sameByte old new (pos - (i + 1)) (scan - (i + 1)))
      (min (scan - lastscan) pos).toNat
      (fun k hk => sameByte_some _ _ _ _ ⟨by omega, by omega⟩ ⟨by omega, by omega⟩)
    exact ⟨len, hrun, h0, by omega, by omega, by omega⟩
  · exact ⟨0, rfl, Int.le_refl _, by omega, hpos.1, fun _ => rfl⟩

/-- The extensions of two matches, which may overlap. -/
structure Extended (old new : Bytes) (lastscan lastpos scan pos lenf lenb : Int) : Prop where
  scan_le : 0 ≤ lastscan ∧ scan ≤ new.length
  forward : 0 ≤ lenf ∧ lastscan + lenf ≤ scan
  back : 0 ≤ lenb ∧ lastscan + lenb ≤ scan
  forward_pos : 0 ≤ lastpos ∧ lastpos + lenf ≤ old.length
  back_pos : lenb ≤ pos ∧ pos ≤ old.length

/-- Behind the cut they do not. -/
theorem cutOverlap_spec (he : Extended old new lastscan lastpos scan pos lenf lenb) :
    ∃ lenf' lenb', cutOverlap old new lastscan lastpos scan pos lenf lenb = some (lenf', lenb') ∧
      0 ≤ lenf' ∧ lenf' ≤ lenf ∧ 0 ≤ lenb' ∧ lenb' ≤ lenb ∧ lastscan + lenf' ≤ scan - lenb' := by
  obtain ⟨⟨h0, hscan⟩, ⟨hf, hfle⟩, ⟨hb, hble⟩, ⟨hp, hple⟩, hp', hple'⟩ := he
  unfold cutOverlap
  split
  · rename_i hover
    obtain ⟨⟨s, Ss, lens⟩, hrun, hlens⟩ := forTo_spec
      (n := ((lastscan + lenf) - (scan - lenb)).toNat) (s := ((0, 0, 0) : Int × Int × Int))
      (f := fun i (st : Int × Int × Int) => do
        let hit ← sameByte old new (lastpos + lenf - ((lastscan + lenf) - (scan - lenb)) + i)
          (lastscan + lenf - ((lastscan + lenf) - (scan - lenb)) + i)
        let hit' ← sameByte old new (pos - lenb + i) (scan - lenb + i)
        let s := if hit then st.1 + 1 else st.1
        let s := if hit' then s - 1 else s
        some (if s > st.2.1 then (s, s, (i : Int) + 1) else (s, st.2.1, st.2.2)))
      (fun i st => 0 ≤ st.2.2 ∧ st.2.2 ≤ i) ⟨Int.le_refl _, Int.le_refl _⟩
      (by
        rintro i ⟨s, Ss, lens⟩ hi ⟨h1, h2⟩
        obtain ⟨b, hb⟩ := sameByte_some old new
          (lastpos + lenf - ((lastscan + lenf) - (scan - lenb)) + i)
          (lastscan + lenf - ((lastscan + lenf) - (scan - lenb)) + i)
          ⟨by omega, by omega⟩ ⟨by omega, by omega⟩
        obtain ⟨b', hb'⟩ := sameByte_some old new (pos - lenb + i) (scan - lenb + i)
          ⟨by omega, by omega⟩ ⟨by omega, by omega⟩
        refine ⟨_, by simp only [hb, hb', Option.bind_eq_bind, Option.bind_some]; rfl, ?_⟩
        simp only at h1 h2 ⊢
        generalize (if b' = true then (if b = true then s + 1 else s) - 1
          else if b = true then s + 1 else s) = s'
        split
        · simp only
          omega
        · simp only
          omega)
    simp only at hlens
    exact ⟨lenf + (lens - ((lastscan + lenf) - (scan - lenb))), lenb - lens,
      Option.bind_eq_some_iff.mpr ⟨_, hrun, rfl⟩, by omega, by omega, by omega, by omega,
      by omega⟩
  · exact ⟨lenf, lenb, rfl, hf, Int.le_refl _, hb, Int.le_refl _, by omega⟩

/-! ## The strings of a triple -/

/-- `len` bytes from `a` on -/
def part (bs : Bytes) (a len : Nat) : Bytes := (bs.drop a).take len

theorem part_length {bs : Bytes} {a len : Nat} (h : a + len ≤ bs.length) : (part bs a len).length = len := by
  rw [part, List.length_take, List.length_drop]
  omega

theorem part_getD (bs : Bytes) (a : Nat) {len k : Nat} (hk : k < len) : (part bs a len).getD k 0 = bs.getD (a + k) 0 := by
  rw [part, List.getD_eq_getElem?_getD, List.getElem?_take_of_lt hk, List.getElem?_drop,
    ← List.getD_eq_getElem?_getD]

theorem part_succ {bs : Bytes} {a len : Nat} (h : a + len < bs.length) :
    part bs a (len + 1) = part bs a len ++ [bs.getD (a + len) 0] := by
  have hlen : len < (bs.drop a).length := by
    rw [List.length_drop]
    omega
  rw [part, part, take_succ_getD hlen, List.getD_eq_getElem?_getD, List.getElem?_drop,
    ← List.getD_eq_getElem?_getD]

theorem part_append (bs : Bytes) (a m n : Nat) : part bs a m ++ part bs (a + m) n = part bs a (m + n) := by
  rw [part, part, part, List.take_add, List.drop_drop]

variable {a o m n : Nat}

/-- The differences to `old`. -/
def diffs (old new : Bytes) (a o m : Nat) : Bytes :=
  List.zipWith (· - ·) (part new a m) (part old o m)

theorem diffs_length (ha : a + m ≤ new.length) (ho : o + m ≤ old.length) : (diffs old new a o m).length = m := by
  rw [diffs, List.length_zipWith, part_length ha, part_length ho, Nat.min_self]

theorem zipWith_getD {k : Nat} {as bs : Bytes} (ha : k < as.length) (hb : k < bs.length) :
    (List.zipWith (· - ·) as bs).getD k 0 = as.getD k 0 - bs.getD k 0 := by
  simp only [List.getD_eq_getElem?_getD, List.getElem?_zipWith, List.getElem?_eq_getElem ha,
    List.getElem?_eq_getElem hb, Option.getD_some]

/-- Adding the old bytes gives the new ones. -/
theorem diffs_add (ha : a + m ≤ new.length) (ho : o + m ≤ old.length) {k : Nat} (hk : k < m) :
    (diffs old new a o m).getD k 0 + old.getD (o + k) 0 = (part new a m).getD k 0 := by
  rw [diffs, zipWith_getD (by rw [part_length ha]; exact hk) (by rw [part_length ho]; exact hk),
    part_getD old o hk, UInt8.sub_add_cancel]

theorem pushDiff_spec (old new db : Bytes) (ha : a + m ≤ new.length) (ho : o + m ≤ old.length) (hdb : db.length ≤ a) :
    pushDiff old new a o m db = some (db ++ diffs old new a o m) := by
  obtain ⟨db', hrun, rfl⟩ := forTo_spec (n := m) (s := db)
    (f := fun (i : Nat) db => do
      let x ← byteOf new ((a : Int) + i)
      let y ← byteOf old ((o : Int) + i)
      push (new.length + 1) db (x - y))
    (fun i db' => db' = db ++ diffs old new a o i) (by simp [diffs, part])
    (by
      rintro i db' hi rfl
      have hx : byteOf new ((a : Int) + i) = some (new.getD (a + i) 0) := byteOf_eq (by omega) (by omega)
      have hy : byteOf old ((o : Int) + i) = some (old.getD (o + i) 0) := byteOf_eq (by omega) (by omega)
      refine ⟨_, ?_, rfl⟩
      simp only [hx, hy, Option.bind_eq_bind, Option.bind_some]
      rw [push, if_pos (by
        rw [List.length_append, diffs_length (by omega) (by omega)]
        omega)]
      rw [diffs, diffs, part_succ (by omega), part_succ (by omega),
        List.zipWith_append (by rw [part_length (by omega), part_length (by omega)]), List.append_assoc]
      rfl)
  unfold pushDiff
  rw [Int.toNat_natCast, hrun]

theorem pushExtra_spec (new eb : Bytes) (ha : a + n ≤ new.length) (heb : eb.length ≤ a) :
    pushExtra new a n eb = some (eb ++ part new a n) := by
  obtain ⟨eb', hrun, rfl⟩ := forTo_spec (n := n) (s := eb)
    (f := fun (i : Nat) eb => do
      let x ← byteOf new ((a : Int) + i)
      push (new.length + 1) eb x)
    (fun i eb' => eb' = eb ++ part new a i) (by simp [part])
    (by
      rintro i eb' hi rfl
      have hx : byteOf new ((a : Int) + i) = some (new.getD (a + i) 0) := byteOf_eq (by omega) (by omega)
      refine ⟨_, ?_, rfl⟩
      simp only [hx, Option.bind_eq_bind, Option.bind_some]
      rw [push, if_pos (by
        rw [List.length_append, part_length (by omega)]
        omega), part_succ (by omega), List.append_assoc])
  unfold pushExtra
  rw [Int.toNat_natCast, hrun]

/-! ## A round of the outer loop -/

/-- Where the encoder stands, with places of `new` and `old` as numbers. -/
structure At (e : Encoder) (a o : Nat) : Prop where
  lastscan : e.lastscan = a
  lastpos : e.lastpos = o

/-- One triple: `m` bytes of `old` with differences, `n` bytes of extra data, and a seek. -/
theorem emit_spec (old new : Bytes) (scan pos len : Int) {e : Encoder} (he : At e a o) (hscan : e.lastscan ≤ scan ∧ scan ≤ new.length)
    (ho : o ≤ old.length) (hpos : 0 ≤ pos ∧ pos ≤ old.length) (hroom : e.db.length + e.eb.length = a) :
    ∃ m n o' : Nat, a + m + n ≤ new.length ∧ o + m ≤ old.length ∧ o' ≤ old.length ∧
      (scan = new.length → a + m + n = new.length) ∧
      emit old new e scan len pos = some ⟨scan, len, pos, (a + m + n : Nat), o', pos - scan,
        e.ctrl ++ (offtout m ++ offtout n ++ offtout ((o' : Int) - (o + m))),
        e.db ++ diffs old new a o m, e.eb ++ part new (a + m) n⟩ ∧ (a + m + n : Nat) ≤ scan := by
  obtain ⟨hlastscan, hlastpos⟩ := he
  obtain ⟨lenf, hf, hf0, hfle, hfold⟩ := extendForward_spec old new e.lastscan
    e.lastpos scan ⟨by omega, by omega, hscan.2⟩
    ⟨by omega, by omega⟩
  obtain ⟨lenb, hb, hb0, hble, hbpos, hbend⟩ := extendBack_spec old new e.lastscan scan pos
    ⟨by omega, by omega, hscan.2⟩ hpos
  obtain ⟨lenf', lenb', hcut, hf0', hfle', hb0', hble', hside⟩ := cutOverlap_spec
    (show Extended old new e.lastscan e.lastpos scan pos lenf lenb from
      ⟨⟨by omega, hscan.2⟩, ⟨hf0, hfle⟩, ⟨hb0, hble⟩, ⟨by omega, hfold⟩, hbpos, hpos.2⟩)
  obtain ⟨m, rfl⟩ := Int.eq_ofNat_of_zero_le hf0'
  obtain ⟨n, hn⟩ := Int.eq_ofNat_of_zero_le (show 0 ≤ (scan - lenb') - (e.lastscan + m) by omega)
  obtain ⟨o', ho'⟩ := Int.eq_ofNat_of_zero_le (show 0 ≤ pos - lenb' by omega)
  have hdb := pushDiff_spec old new (a := a) (o := o) (m := m) e.db (by omega) (by omega)
    (by omega)
  have heb := pushExtra_spec new (a := a + m) (n := n) e.eb (by omega) (by omega)
  have hlast : scan - lenb' = (a + m + n : Nat) := by omega
  refine ⟨m, n, o', by omega, by omega, by omega, by omega, ?_, by omega⟩
  unfold emit
  simp only [hf, hb, hcut, hn, Option.bind_eq_bind, Option.bind_some]
  rw [hlastscan, hlastpos, hdb, Option.bind_some, ← Int.natCast_add, heb, Option.bind_some, ho', hlast]

end Miui.Bsdiff
