import MiuiRecovery.Minzip.Directory

/-!
# Parsing an archive and finding its entries

* `addEntries_spec`: the hash table holds the first entry of each name.
* `parse_of_start`: `parseZipArchive` from the end of the central directory on.
* `parsesSafely_iff`: when every read is inside the map and every entry that is accepted is sound.
* `parseZipArchive_ordered`: the array is the sorted central directory, and a lookup finds the first entry of a
  name.
-/

namespace Miui.Zip

open MemMapping Insertion

variable {m : MemMapping} {pEntries : List ZipEntry}

/-! ## The hash table -/

theorem memcmp_eq_zero : ∀ {a b : Bytes}, a.length = b.length → (memcmp a b = 0 ↔ a = b)
  | [], [], _ => iff_of_true rfl rfl
  | x :: a, y :: b, h => by
    rw [memcmp, List.cons.injEq]
    by_cases hxy : x = y
    · rw [if_neg (not_not.mpr hxy), memcmp_eq_zero (Nat.succ.inj h), and_iff_right hxy]
    · rw [if_pos hxy]
      exact iff_of_false (fun h0 => hxy (UInt8.toNat_inj.mp (by omega))) fun h => hxy h.1

theorem hashcmpZip_eq_zero {a b : ZipItem} : hashcmpZip m pEntries a b = 0 ↔ a.name m pEntries = b.name m pEntries := by
  unfold hashcmpZip
  by_cases hlen : (a.name m pEntries).length = (b.name m pEntries).length
  · rw [if_neg (not_not.mpr hlen)]
    exact memcmp_eq_zero hlen
  · rw [if_pos hlen]
    exact iff_of_false (fun h => hlen (by omega)) fun h => hlen (congrArg _ h)

/-- The hash table of an archive: items are compared by their names. -/
def zipKey (m : MemMapping) (pEntries : List ZipEntry) : HashKey ZipItem where
  hash item := computeHash (item.name m pEntries)
  cmpFunc := hashcmpZip m pEntries
  equiv := by
    simp only [hashcmpZip_eq_zero]
    exact ⟨fun _ => rfl, Eq.symm, Eq.trans⟩
  compatible _ _ h := congrArg computeHash (hashcmpZip_eq_zero.mp h)

/-- The entry at index `j` is the first one of its name. -/
def First (m : MemMapping) (pEntries : List ZipEntry) (j : Nat) : Prop :=
  ∀ i < j, (ZipItem.entry i).name m pEntries ≠ (ZipItem.entry j).name m pEntries

theorem exists_first (m : MemMapping) (pEntries : List ZipEntry) (i : Nat) :
    ∃ j ≤ i, First m pEntries j ∧ (ZipItem.entry j).name m pEntries = (ZipItem.entry i).name m pEntries := by
  induction i using Nat.strongRecOn with
  | ind i ih =>
    by_cases h : First m pEntries i
    · exact ⟨i, Nat.le_refl i, h, rfl⟩
    · obtain ⟨k, hk⟩ := not_forall.mp h
      obtain ⟨hki, hname⟩ := Classical.not_imp.mp hk
      obtain ⟨j, hjk, hfirst, hsame⟩ := ih k hki
      exact ⟨j, by omega, hfirst, hsame.trans (not_not.mp hname)⟩

/-- The table behind the first `i` additions. A table of this size takes all the entries without a resize. -/
structure Added (m : MemMapping) (pEntries : List ZipEntry) (i : Nat) (t : HashTable ZipItem) : Prop where
  inv : t.Inv (zipKey m pEntries)
  items : ∀ a, a ∈ t.items ↔ ∃ j < i, a = .entry j ∧ First m pEntries j
  count : t.items.length ≤ i
  dead : t.numDeadEntries = 0
  room : pEntries.length * LOAD_DENOM ≤ t.tableSize * LOAD_NUMER
  size : t.tableSize < 2 ^ 28

variable {i : Nat} {t : HashTable ZipItem} {e : ZipEntry}

theorem Added.step (mem : Memory) (h : Added m pEntries i t) (he : pEntries[i]? = some e) (hheld : Held m e) :
    ∃ t', addEntryToHashTable m mem pEntries t i e = .ok t' ∧ Added m pEntries (i + 1) t' := by
  have hi : i < pEntries.length := (List.getElem?_eq_some_iff.mp he).1
  have hname : (ZipItem.entry i).name m pEntries = e.name m := by
    simp only [ZipItem.name, he, Option.map_some, Option.getD_some]
  have hload : m.load e.fileNameLen e.fileName = .ok (e.name m) := load_inside hheld.low hheld.high
  have hhash : computeHash (e.name m) = (zipKey m pEntries).hash (.entry i) := congrArg computeHash hname.symm
  unfold addEntryToHashTable
  rw [hload, Except.ok_bind, hhash]
  by_cases hfirst : First m pEntries i
  · have hnone : ∀ b ∈ t.items, (zipKey m pEntries).cmpFunc b (.entry i) ≠ 0 := fun b hb hcmp => by
      obtain ⟨j, hj, rfl, -⟩ := (h.items b).mp hb
      exact hfirst j hj (hashcmpZip_eq_zero.mp hcmp)
    have hdead : (countTombStones t : Int) = 0 := h.inv.dead.symm.trans h.dead
    have hcount := h.count
    have hroom := h.room
    obtain ⟨t', hrun, hinv, hperm, hsize, hdead'⟩ := mzHashTableLookup_room mem.slots h.inv hnone h.size
      (by unfold LOAD_DENOM LOAD_NUMER at *; omega)
    refine ⟨t', ?_, hinv, fun a => ?_, ?_, hdead'.trans h.dead, hsize ▸ h.room, hsize ▸ h.size⟩
    · have hrun' : mzHashTableLookup mem.slots t ((zipKey m pEntries).hash (.entry i)) (.entry i)
          (hashcmpZip m pEntries) true = .ok (.item (.entry i), t') := hrun
      rw [hrun']
      rfl
    · rw [hperm.mem_iff, List.mem_cons, h.items]
      constructor
      · rintro (rfl | ⟨j, hj, rfl, hfirst'⟩)
        · exact ⟨i, Nat.lt_succ_self i, rfl, hfirst⟩
        · exact ⟨j, by omega, rfl, hfirst'⟩
      · rintro ⟨j, hj, rfl, hfirst'⟩
        rcases Nat.lt_or_eq_of_le (Nat.lt_succ_iff.mp hj) with hlt | rfl
        · exact .inr ⟨j, hlt, rfl, hfirst'⟩
        · exact .inl rfl
    · rw [hperm.length_eq, List.length_cons]
      exact Nat.succ_le_succ h.count
  · obtain ⟨j, hj, hfirst', hsame⟩ := exists_first m pEntries i
    have hlt : j < i := Nat.lt_of_le_of_ne hj fun heq => hfirst (heq ▸ hfirst')
    have hrun : mzHashTableLookup mem.slots t ((zipKey m pEntries).hash (.entry i)) (.entry i)
        (hashcmpZip m pEntries) true = .ok (.item (.entry j), t) :=
      mzHashTableLookup_found h.inv ((h.items _).mpr ⟨j, hlt, rfl, hfirst'⟩) (hashcmpZip_eq_zero.mpr hsame) true
    refine ⟨t, ?_, h.inv, fun a => ?_, Nat.le_succ_of_le h.count, h.dead, h.room, h.size⟩
    · rw [hrun]
      rfl
    · rw [h.items]
      constructor
      · rintro ⟨j, hj, heq⟩
        exact ⟨j, by omega, heq⟩
      · rintro ⟨k, hk, rfl, hfirst''⟩
        refine ⟨k, Nat.lt_of_le_of_ne (Nat.lt_succ_iff.mp hk) fun heq => hfirst (heq ▸ hfirst''), rfl, hfirst''⟩

theorem addEntries_spec (mem : Memory) {rest : List ZipEntry} (hrest : pEntries.drop i = rest)
    (hheld : ∀ e ∈ pEntries, Held m e) (h : Added m pEntries i t) (hi : i ≤ pEntries.length) :
    ∃ t', addEntries m mem pEntries rest i t = .ok t' ∧ Added m pEntries pEntries.length t' := by
  induction rest generalizing i t with
  | nil =>
    have hend : i = pEntries.length := by
      have hlen := congrArg List.length hrest
      rw [List.length_drop, List.length_nil] at hlen
      omega
    exact ⟨t, rfl, hend ▸ h⟩
  | cons e rest ih =>
    have hget : pEntries[i]? = some e := by
      rw [← List.head?_drop, hrest, List.head?_cons]
    have hlt := (List.getElem?_eq_some_iff.mp hget).1
    obtain ⟨t', hrun, h'⟩ := h.step mem hget (hheld e (List.mem_of_getElem? hget))
    obtain ⟨t'', hrun', h''⟩ := ih (by rw [← List.tail_drop, hrest, List.tail_cons]) h' hlt
    refine ⟨t'', ?_, h''⟩
    rw [addEntries, hrun, Except.ok_bind, hrun']

/-- A lookup finds the first entry of the name. -/
theorem mzFindZipEntry_eq (mem : Memory) {a : ZipArchive} (h : Added m a.pEntries a.pEntries.length a.pHash) (s : Bytes) :
    mzFindZipEntry m mem a s = .ok (a.pEntries.find? (·.name m = CString.cstr s)) := by
  have hname {j : Nat} (hj : j < a.pEntries.length) :
      (ZipItem.entry j).name m a.pEntries = a.pEntries[j].name m := by
    simp only [ZipItem.name, List.getElem?_eq_getElem hj, Option.map_some, Option.getD_some]
  have hhash : computeHash (CString.cstr s) = (zipKey m a.pEntries).hash (.text (CString.cstr s)) := rfl
  unfold mzFindZipEntry
  simp only [hhash]
  cases hfind : a.pEntries.find? (·.name m = CString.cstr s) with
  | some e =>
    obtain ⟨hmatch, j, hj, rfl, hearlier⟩ := List.find?_eq_some_iff_getElem.mp hfind
    have hmatch : a.pEntries[j].name m = CString.cstr s := of_decide_eq_true hmatch
    have hfirst : First m a.pEntries j := fun i hi heq => by
      rw [hname (by omega), hname hj, hmatch] at heq
      have := hearlier i hi
      simp [heq] at this
    have hrun : mzHashTableLookup mem.slots a.pHash ((zipKey m a.pEntries).hash (.text (CString.cstr s)))
        (.text (CString.cstr s)) (hashcmpZip m a.pEntries) false = .ok (.item (.entry j), a.pHash) :=
      mzHashTableLookup_found h.inv ((h.items _).mpr ⟨j, hj, rfl, hfirst⟩)
        ((@hashcmpZip_eq_zero m a.pEntries (.entry j) (.text _)).mpr ((hname hj).trans hmatch)) false
    rw [hrun, ← List.getElem?_eq_getElem hj]
    rfl
  | none =>
    have hnone : ∀ b ∈ a.pHash.items, (zipKey m a.pEntries).cmpFunc b (.text (CString.cstr s)) ≠ 0 := fun b hb hcmp => by
      obtain ⟨j, hj, rfl, -⟩ := (h.items b).mp hb
      have hmatch := hashcmpZip_eq_zero.mp hcmp
      rw [hname hj] at hmatch
      rw [List.find?_eq_none] at hfind
      exact hfind _ (List.getElem_mem hj) (decide_eq_true hmatch)
    have hrun : mzHashTableLookup mem.slots a.pHash ((zipKey m a.pEntries).hash (.text (CString.cstr s)))
        (.text (CString.cstr s)) (hashcmpZip m a.pEntries) false = .ok (.null, a.pHash) :=
      (mzHashTableLookup_absent mem.slots h.inv hnone h.size).1
    rw [hrun]
    rfl

/-! ## The archive -/

/-- The directory of the map: `n` records from `cd`. -/
structure Start (m : MemMapping) (n cd : Nat) : Prop where
  eocd : ∃ off, parseZipArchiveEocd m.bytes = some off ∧ n = m.half (m.addr + off + ENDSUB) ∧
    cd = m.addr + m.word (m.addr + off + ENDOFF)
  some_entry : n ≠ 0
  inside : cd < m.limit

theorem get4LE_bytes {off : Nat} (h : off + 4 ≤ m.length) : Miui.get4LE m.bytes off = some (m.word (m.addr + off)) := by
  unfold Miui.get4LE Bytes.readLE
  rw [Bytes.slice_isSome h]
  unfold word text
  rw [Nat.add_sub_cancel_left]
  rfl

theorem head_of_word {off : Nat} (h : off + 4 ≤ m.length) (hsig : m.word (m.addr + off) = ENDSIG) :
    (m.text 1 (m.addr + off)).headD 0 = 0x50 := by
  have htext : m.text 4 (m.addr + off) = _ := text_succ (Nat.le_add_right _ _) (by unfold limit; omega)
  unfold word at hsig
  rw [htext, Bytes.ofLE] at hsig
  generalize (m.text 1 (m.addr + off)).headD 0 = c at hsig ⊢
  have hlt := c.toNat_lt
  unfold ENDSIG at hsig
  refine UInt8.toNat_inj.mp ?_
  show c.toNat = 0x50
  omega

theorem scanEocd_eq {off : Nat} (h : off + 4 ≤ m.length) :
    scanEocd m off = match findEocd m.bytes off with
      | some ptr => .ok (m.addr + ptr)
      | none => .error .bail := by
  have hread {off : Nat} (h : off + 4 ≤ m.length) : m.get4LE (m.addr + off) = .ok (m.word (m.addr + off)) :=
    get4LE_inside (Nat.le_add_right _ _) (by unfold limit; omega)
  induction off with
  | zero =>
    have hzero : m.get4LE m.addr = .ok (m.word (m.addr + 0)) := hread h
    rw [scanEocd, findEocd, get4LE_bytes h, hzero, Except.ok_bind]
    simp only [Option.some.injEq]
    by_cases hsig : m.word (m.addr + 0) = ENDSIG
    · rw [if_pos hsig, if_pos hsig]
      rfl
    · rw [if_neg hsig, if_neg hsig]
  | succ off ih =>
    rw [scanEocd, findEocd, get4LE_bytes h, get_inside (Nat.le_add_right _ _) (by unfold limit; omega), Except.ok_bind,
      hread h, Except.ok_bind, ih (by omega)]
    simp only [Option.some.injEq]
    by_cases hsig : m.word (m.addr + (off + 1)) = ENDSIG
    · rw [if_pos (head_of_word h hsig), if_pos hsig, if_pos hsig]
    · rw [if_neg hsig, if_neg hsig]
      split <;> rfl

/-- Memory for everything. -/
def Memory.enough : Memory := ⟨fun _ => true, fun _ => true⟩

theorem mzHashSize_room (n : Nat) : n * LOAD_DENOM ≤ mzHashSize n * LOAD_NUMER := by
  unfold mzHashSize LOAD_DENOM LOAD_NUMER
  omega

/-- The table that `parseZipArchive` creates, whatever entries it is for. -/
theorem create_added (mem : Memory) {n : Nat} (hn : n < 2 ^ 16) :
    (mzHashTableCreate mem.slots (mzHashSize n) false = .ok (none : Option (HashTable ZipItem)) ∧ mem ≠ .enough) ∨
      ∃ t : HashTable ZipItem, mzHashTableCreate mem.slots (mzHashSize n) false = .ok (some t) ∧
        ∀ pEntries : List ZipEntry, pEntries.length = n → Added m pEntries 0 t := by
  have hsize : mzHashSize n < 2 ^ 27 := by
    unfold mzHashSize LOAD_DENOM LOAD_NUMER
    omega
  have hpos : 0 < mzHashSize n := Nat.succ_pos _
  have hcreate (pEntries : List ZipEntry) :=
    mzHashTableCreate_spec (zipKey m pEntries) mem.slots false hpos (Nat.lt_trans hsize (by decide))
  rcases hcreate [] with ⟨hrun, k, hk⟩ | ⟨t, hrun, -, hitems, -, hlow, hhigh, hdead⟩
  · refine .inl ⟨hrun, fun h => ?_⟩
    rw [h] at hk
    cases hk
  · refine .inr ⟨t, hrun, fun pEntries hlen => ?_⟩
    rcases hcreate pEntries with ⟨hrun', -⟩ | ⟨t', hrun', hinv, -⟩
    · exact nomatch hrun.symm.trans hrun'
    · obtain rfl : t = t' := Option.some.inj (Except.ok.inj (hrun.symm.trans hrun'))
      have hroom := mzHashSize_room n
      refine ⟨hinv, fun a => ?_, ?_, hdead, ?_, by omega⟩
      · rw [hitems]
        exact iff_of_false List.not_mem_nil fun ⟨_, hj, _⟩ => absurd hj (Nat.not_lt_zero _)
      · rw [hitems]
        exact Nat.le_refl 0
      · rw [hlen]
        exact hroom.trans (Nat.mul_le_mul_right _ hlow)

/-- `parseZipArchive` behind the search for the end of the central directory. -/
theorem parse_of_start {n cd : Nat} (h : Start m n cd) (mem : Memory) :
    parseZipArchive m mem = .error .bail ∧ mem ≠ .enough ∨
      (∃ stop, Directory m n cd (.error stop) ∧ parseZipArchive m mem = .error stop) ∨
      ∃ es a, Directory m n cd (.ok es) ∧ parseZipArchive m mem = .ok a ∧ Arranged m [] es a.pEntries ∧
        Added m a.pEntries a.pEntries.length a.pHash := by
  obtain ⟨⟨off, heocd, hn, hcd⟩, hne, hinside⟩ := h
  obtain ⟨hoff, -, -⟩ := parseZipArchiveEocd_spec heocd
  have hlong : off + ENDHDR ≤ m.length := hoff
  have hzero : m.get4LE m.addr = .ok (m.word (m.addr + 0)) :=
    get4LE_inside (Nat.le_refl _) (by unfold limit; unfold ENDHDR at hlong; omega)
  have hscan : scanEocd m (m.length - ENDHDR) = .ok (m.addr + off) ∧ m.word (m.addr + 0) ≠ ENDSIG ∧
      m.word (m.addr + 0) = LOCSIG := by
    unfold parseZipArchiveEocd at heocd
    rw [@get4LE_bytes m 0 (by unfold ENDHDR at hlong; omega)] at heocd
    simp only [Option.some.injEq, ne_eq] at heocd
    split at heocd
    · cases heocd
    split at heocd
    · cases heocd
    rename_i hend
    split at heocd
    · cases heocd
    rename_i hloc
    refine ⟨?_, hend, not_not.mp hloc⟩
    have hfind : findEocd m.bytes (m.length - ENDHDR) = some off := heocd
    rw [scanEocd_eq (by unfold ENDHDR at *; omega), hfind]
  have hlt : n < 2 ^ 16 := hn ▸ half_lt m _
  unfold ENDHDR at hlong
  unfold parseZipArchive
  rw [hzero, Except.ok_bind, bailIf_neg hscan.2.1, bailIf_neg (not_not.mpr hscan.2.2), hscan.1, Except.ok_bind,
    get2LE_inside (by omega) (by unfold limit ENDSUB; omega), Except.ok_bind,
    get4LE_inside (by omega) (by unfold limit ENDOFF; omega), Except.ok_bind, ← hn,
    bailIf_neg (by unfold limit at hinside; omega), ← hcd]
  rcases create_added (m := m) mem hlt with ⟨hnone, hmem⟩ | ⟨t, hsome, hadded⟩
  · rw [hnone]
    exact .inl ⟨rfl, hmem⟩
  rw [hsome]
  simp only [ofHash, Except.ok_bind]
  by_cases hentries : mem.entries n = true
  · rw [bailIf_neg (not_not.mpr hentries)]
    refine .inr ?_
    have hlow : m.addr ≤ cd := by omega
    rcases parseEntries_spec (n := n) hlow (List.forall_mem_nil _) (List.Pairwise.nil) with
      ⟨stop, hdir, hrun⟩ | ⟨es, pEntries, hdir, hrun, harranged⟩
    · rw [hrun]
      exact .inl ⟨stop, hdir, rfl⟩
    · have hlen : pEntries.length = n := by
        obtain ⟨-, rfl⟩ := (hdir.ok_iff es).mp rfl
        rw [harranged.perm.length_eq, List.nil_append, List.length_map, List.length_range]
      obtain ⟨pHash, hrun', hadded'⟩ := addEntries_spec mem List.drop_zero harranged.held (hadded pEntries hlen)
        (Nat.zero_le _)
      rw [hrun, Except.ok_bind, hrun']
      exact .inr ⟨es, ⟨n, pEntries, pHash⟩, hdir, rfl, harranged, hadded'⟩
  · rw [bailIf_pos hentries]
    exact .inl ⟨rfl, fun h => hentries (h ▸ rfl)⟩

/-- Without a central directory the archive is refused. -/
theorem parse_of_no_start (h : ¬ ∃ n cd, Start m n cd) (mem : Memory) : parseZipArchive m mem = .error .bail := by
  have hlong : 22 ≤ m.length := m.long_enough
  have hzero : m.get4LE m.addr = .ok (m.word (m.addr + 0)) :=
    get4LE_inside (Nat.le_refl _) (by unfold limit; omega)
  unfold parseZipArchive
  rw [hzero, Except.ok_bind]
  by_cases hend : m.word (m.addr + 0) = ENDSIG
  · rw [bailIf_pos hend]
  rw [bailIf_neg hend]
  by_cases hloc : m.word (m.addr + 0) ≠ LOCSIG
  · rw [bailIf_pos hloc]
  rw [bailIf_neg hloc, scanEocd_eq (by unfold ENDHDR; omega)]
  cases hfind : findEocd m.bytes (m.length - ENDHDR) with
  | none => rfl
  | some off =>
    have heocd : parseZipArchiveEocd m.bytes = some off := by
      unfold parseZipArchiveEocd
      rw [@get4LE_bytes m 0 (by omega), if_neg (not_lt.mpr m.long_enough), if_neg fun h => hend (Option.some.inj h),
        if_neg fun hne => hloc fun heq => hne (congrArg _ heq)]
      exact hfind
    have hoff : off + 22 ≤ m.length := (parseZipArchiveEocd_spec heocd).1
    simp only [Except.ok_bind]
    rw [get2LE_inside (by omega) (by unfold limit ENDSUB; omega), Except.ok_bind,
      get4LE_inside (by omega) (by unfold limit ENDOFF; omega), Except.ok_bind]
    refine bailIf_pos ?_
    by_contra hnot
    obtain ⟨hne, hlt⟩ := not_or.mp hnot
    exact h ⟨_, _, ⟨off, heocd, rfl, rfl⟩, hne, by unfold limit; omega⟩

theorem record_ge (m : MemMapping) {cd : Nat} (h : m.addr ≤ cd) (i : Nat) : m.addr ≤ record m cd i := by
  induction i generalizing cd with
  | zero => exact h
  | succ i ih => exact ih (h.trans (next_ge m cd))

theorem Start.directory {n cd : Nat} (h : Start m n cd) : m.addr ≤ cd := by
  obtain ⟨⟨_, -, -, rfl⟩, -, -⟩ := h
  exact Nat.le_add_right _ _

/-- The entries of an archive are records that are admitted, in the order of their names. -/
theorem parse_accepted {mem : Memory} {a : ZipArchive} (h : parseZipArchive m mem = .ok a) :
    (∀ e ∈ a.pEntries, ∃ p, m.addr ≤ p ∧ Admitted m p ∧ e = entryAt m p) ∧
      (∀ e ∈ a.pEntries, Held m e) ∧ Sorted (ZipEntry.name m) a.pEntries := by
  by_cases hstart : ∃ n cd, Start m n cd
  · obtain ⟨n, cd, hstart⟩ := hstart
    rcases parse_of_start hstart mem with ⟨hrun, -⟩ | ⟨stop, -, hrun⟩ | ⟨es, a', hdir, hrun, harranged, -⟩
    · exact nomatch h.symm.trans hrun
    · exact nomatch h.symm.trans hrun
    · obtain rfl := Except.ok.inj (h.symm.trans hrun)
      obtain ⟨hreached, rfl⟩ := (hdir.ok_iff es).mp rfl
      refine ⟨fun e he => ?_, harranged.held, harranged.sorted⟩
      rw [harranged.perm.mem_iff] at he
      obtain ⟨i, hi, rfl⟩ := List.mem_map.mp he
      exact ⟨_, record_ge m hstart.directory i, hreached i (List.mem_range.mp hi), rfl⟩
  · exact nomatch h.symm.trans (parse_of_no_start hstart mem)

/-! ## What is accepted -/

def SafeEntry (m : MemMapping) (e : ZipEntry) : Prop :=
  0 ≤ e.compLen ∧ 0 ≤ e.uncompLen ∧ 0 ≤ e.offset ∧ e.offset + e.compLen ≤ m.length ∧
    m.addr ≤ e.fileName ∧ e.fileName + e.fileNameLen ≤ m.limit

instance (m : MemMapping) (e : ZipEntry) : Decidable (SafeEntry m e) := inferInstanceAs (Decidable (_ ∧ _))

/-- The parser returns, reads nothing outside the map and accepts sound entries only. -/
def ParsesSafely (m : MemMapping) (mem : Memory) : Prop :=
  match parseZipArchive m mem with
  | .ok pArchive => ∀ e ∈ pArchive.pEntries, SafeEntry m e
  | .error stop => stop = .bail

instance (m : MemMapping) (mem : Memory) : Decidable (ParsesSafely m mem) :=
  match h : parseZipArchive m mem with
  | .ok pArchive => decidable_of_iff (∀ e ∈ pArchive.pEntries, SafeEntry m e) (by unfold ParsesSafely; rw [h])
  | .error stop => decidable_of_iff (stop = .bail) (by unfold ParsesSafely; rw [h])

/-- The top bits of the two sizes and of the offset of the data are clear. -/
def ClearSigns (m : MemMapping) (p : Nat) : Prop :=
  m.word (p + CENSIZ) < 2 ^ 31 ∧ m.word (p + CENLEN) < 2 ^ 31 ∧
    (localHdrOffset m p + LOCHDR + m.half (m.addr + localHdrOffset m p + LOCNAM) +
      m.half (m.addr + localHdrOffset m p + LOCEXT)) % 2 ^ 32 < 2 ^ 31

/-- No record that is reached has its local header in the last bytes of the address space, and in a directory
without a faulty record the sizes and offsets are not negative. -/
structure SafeDirectory (m : MemMapping) (n cd : Nat) : Prop where
  stays : ∀ i < n, Reached m cd i → Named m (record m cd i) → Compatible m (record m cd i) →
    ¬ Strays m (record m cd i)
  clear : Reached m cd n → ∀ i < n, ClearSigns m (record m cd i)

theorem asInt_nonneg (n : Nat) : 0 ≤ asInt n ↔ n % 2 ^ 32 < 2 ^ 31 := by
  unfold asInt
  split <;> omega

/-- An entry that is accepted is sound when its numbers are not negative. -/
theorem safeEntry_iff {p : Nat} (hp : m.addr ≤ p) (h : Admitted m p) :
    SafeEntry m (entryAt m p) ↔ ClearSigns m p := by
  have hheld := h.named.held hp
  have hsum := h.located.no_overflow
  have hdata := h.located.data_inside
  have hcomp : 0 ≤ (entryAt m p).compLen ↔ m.word (p + CENSIZ) < 2 ^ 31 := by
    rw [← Nat.mod_eq_of_lt (word_lt m (p + CENSIZ))]
    exact asInt_nonneg _
  have huncomp : 0 ≤ (entryAt m p).uncompLen ↔ m.word (p + CENLEN) < 2 ^ 31 := by
    rw [← Nat.mod_eq_of_lt (word_lt m (p + CENLEN))]
    exact asInt_nonneg _
  have hoffset : 0 ≤ (entryAt m p).offset ↔ _ := asInt_nonneg _
  unfold SafeEntry ClearSigns
  rw [hcomp, huncomp, hoffset]
  refine ⟨fun h => ⟨h.1, h.2.1, h.2.2.1⟩, fun ⟨h1, h2, h3⟩ => ⟨h1, h2, h3, ?_, hheld.low, hheld.high⟩⟩
  rw [← hcomp] at h1
  rw [← hoffset] at h3
  unfold safe_add at hsum
  simp only [decide_eq_true_eq] at hsum
  rwa [Int.emod_eq_of_lt (by omega) (by omega)] at hdata

/-- The little-endian bytes of a number. -/
def le : Nat → Nat → Bytes
  | 0, _ => []
  | n + 1, v => v.toUInt8 :: le n (v / 256)

def localRecord (name : Bytes) : Bytes :=
  le 4 LOCSIG ++ List.replicate 22 0 ++ le 2 name.length ++ le 2 0 ++ name

def centralRecord (name : Bytes) (compLen uncompLen localHdrOffset : Nat) : Bytes :=
  le 4 CENSIG ++ List.replicate 16 0 ++ le 4 compLen ++ le 4 uncompLen ++ le 2 name.length ++
    List.replicate 12 0 ++ le 4 localHdrOffset ++ name

def endRecord (numEntries cdOffset : Nat) : Bytes :=
  le 4 ENDSIG ++ List.replicate 4 0 ++ le 2 numEntries ++ List.replicate 6 0 ++ le 4 cdOffset ++ le 2 0

/-- One empty stored entry `a`, with an uncompressed size of 2^31. -/
def hugeEntry : MemMapping where
  addr := 0x40000000
  bytes := localRecord [97] ++ centralRecord [97] 0 0x80000000 0 ++ endRecord 1 31
  addr_low := by decide
  addr_high := by decide +kernel
  long_enough := by decide +kernel

/-- The array is the central directory in the order of the names, and a lookup finds the first entry of a name. -/
theorem parseZipArchive_ordered {mem : Memory} {a : ZipArchive} (h : parseZipArchive m mem = .ok a) :
    ∃ n cd, Start m n cd ∧
      a.pEntries.Perm ((List.range n).map fun i => entryAt m (record m cd i)) ∧
      a.pEntries.Pairwise (fun e e' => e.name m ≤ e'.name m) ∧
      ∀ (mem' : Memory) (entryName : Bytes), mzFindZipEntry m mem' a entryName =
        .ok (((List.range n).map fun i => entryAt m (record m cd i)).find? (·.name m = CString.cstr entryName)) := by
  by_cases hstart : ∃ n cd, Start m n cd
  · obtain ⟨n, cd, hstart⟩ := hstart
    rcases parse_of_start hstart mem with ⟨hrun, -⟩ | ⟨stop, -, hrun⟩ | ⟨es, a', hdir, hrun, harranged, hadded⟩
    · exact nomatch h.symm.trans hrun
    · exact nomatch h.symm.trans hrun
    · obtain rfl := Except.ok.inj (h.symm.trans hrun)
      obtain ⟨-, rfl⟩ := (hdir.ok_iff es).mp rfl
      refine ⟨n, cd, hstart, harranged.perm, harranged.sorted, fun mem' entryName => ?_⟩
      rw [mzFindZipEntry_eq mem' hadded, harranged.find, List.nil_append]
  · exact nomatch h.symm.trans (parse_of_no_start hstart mem)

/-- Entries `b`, `a/`, `b` and `a`, all empty. -/
def fourEntries : MemMapping where
  addr := 0x40000000
  bytes := localRecord [98] ++ centralRecord [98] 0 0 0 ++ centralRecord [97, 47] 0 0 0 ++
    centralRecord [98] 1 1 0 ++ centralRecord [97] 0 0 0 ++ endRecord 4 31
  addr_low := by decide
  addr_high := by decide +kernel
  long_enough := by decide +kernel

theorem fourEntries_ordered : ∃ a, parseZipArchive fourEntries .enough = .ok a ∧ ∃ n cd, Start fourEntries n cd ∧
    a.pEntries.Perm ((List.range n).map fun i => entryAt fourEntries (record fourEntries cd i)) ∧
    a.pEntries.Pairwise (fun e e' => e.name fourEntries ≤ e'.name fourEntries) ∧
    ∀ (mem' : Memory) (entryName : Bytes), mzFindZipEntry fourEntries mem' a entryName =
      .ok (((List.range n).map fun i => entryAt fourEntries (record fourEntries cd i)).find?
        (·.name fourEntries = CString.cstr entryName)) := by
  cases h : parseZipArchive fourEntries .enough with
  | ok a => exact ⟨a, rfl, parseZipArchive_ordered h⟩
  | error stop =>
    have hok : (parseZipArchive fourEntries .enough).toOption.isSome = true := by decide +kernel
    rw [h] at hok
    cases hok

/-- A stored entry `a` of one byte, with an uncompressed size of 0. -/
def oneByte : MemMapping where
  addr := 0x40000000
  bytes := localRecord [97] ++ [7] ++ centralRecord [97] 1 0 0 ++ endRecord 1 32
  addr_low := by decide
  addr_high := by decide +kernel
  long_enough := by decide +kernel

def oneEntry : ZipEntry := ⟨1, 0x40000000 + 78, 31, 1, 0, 0, 0, 0, 0, 0⟩

theorem oneByte_parses : ∃ a, parseZipArchive oneByte .enough = .ok a ∧ a.pEntries = [oneEntry] := by
  have hentries : (parseZipArchive oneByte .enough).toOption.map (·.pEntries) = some [oneEntry] := by decide +kernel
  cases h : parseZipArchive oneByte .enough with
  | ok a =>
    rw [h] at hentries
    exact ⟨a, rfl, Option.some.inj hentries⟩
  | error stop =>
    rw [h] at hentries
    cases hentries

end Miui.Zip
