import MiuiRecovery.Lib.Loop
import MiuiRecovery.Mtd.Write

/-!
# The block mapping of BML

`CreateBlockMapping`, `CreateEmptyBlockMapping` and `scan_partition` (`bml_over_mtd.c`): blocks of a reservoir stand for
the bad blocks of a partition. A table in the reservoir tells which. The sizes of `/proc/mtd` are those that
`MEMGETINFO` gives; a `size_t` has 32 bits.

* `applyTable_reasonable`: what the entries of a table can be.
* `findTable_spec`: where the table lies, and that it is found again if nothing from there on changes.
* `createBlockMapping_spec`: exactly the bad blocks are mapped, to good blocks in front of the table.
-/

namespace Miui.Bml

/-- The partition, or the reservoir. -/
inductive Area
  | src
  | res
deriving DecidableEq

/-- Two partitions of whole blocks, and the numbers of their first blocks on the chip. -/
structure Layout where
  src : MtdPartition
  src_size_lt : src.size < 2 ^ 31
  src_block : src.erase_size ≤ src.size
  res : MtdPartition
  src_write : Nat
  res_write : Nat
  srcPartStartBlock : Int
  reservoirPartStartBlock : Int

/-- The contents of a block, by its area and its offset there. -/
abbrev Cells (p : MtdPartition) : Type := Area × Nat → Block p

/-- What the driver answers. -/
structure Driver where
  /-- The partitions can be asked for their sizes and opened, and there is memory. -/
  ready : Bool
  /-- `MEMGETBADBLOCK` -/
  getBadBlock : Area → Int → BadBlock
  /-- A block of the reservoir can be read. -/
  readable : Nat → Bool
  /-- The reservoir can be opened again when a block is checked. -/
  opens : Nat → Bool

/-- `mgbb == 0` -/
def Driver.good (d : Driver) (area : Area) (pos : Int) : Bool := d.getBadBlock area pos == .good

/-- A pointer that is `NULL`, or an index outside of an array. -/
inductive Crash
  | nullPointer
  | outOfBounds

variable (b : Layout) (d : Driver)

/-- `srcTotal/srcErase` -/
def Layout.numBlocks : Nat := b.src.size / b.src.erase_size

/-- `block * erase` -/
def Layout.offset (block : Nat) : Nat := block * b.src.erase_size % 2 ^ 32

/-! ## The table -/

/-- An `unsigned short` of the table. -/
def half (buf : Bytes) (i : Nat) : Nat := Bytes.ofLE ((buf.drop (0x1000 + 2 * i)).take 2)

/-- "Mapped block not within reasonable reservoir area." -/
def unreasonable (rawDstBlk : Nat) (currOffset : Nat) : Bool :=
  decide ((rawDstBlk : Int) < b.reservoirPartStartBlock) ||
    decide ((b.reservoirPartStartBlock * b.src.erase_size + currOffset) % 2 ^ 32 ≤ (b.offset rawDstBlk : Int))

/-- "For duplicate entries, later entries replace former ones." -/
def mapBlock (rawSrcBlk rawDstBlk : Nat) (mapping : List Nat) : List Nat :=
  if b.srcPartStartBlock ≤ rawSrcBlk ∧ (rawSrcBlk : Int) ≤ b.srcPartStartBlock + b.numBlocks - 1 then
    mapping.set ((rawSrcBlk - b.srcPartStartBlock) % 2 ^ 16).toNat
      ((rawDstBlk - b.reservoirPartStartBlock) % 2 ^ 16).toNat
  else mapping

/-- The entries from `i` on; `none` is `foundMappingTable = 0`. -/
def applyTable (buf : Bytes) (currOffset : Nat) : Nat → Nat → List Nat → Option (List Nat)
  | 0, _, mapping => some mapping
  | left + 1, i, mapping =>
    if half buf i = 0xffff then some mapping
    else if unreasonable b (half buf (i + 1)) currOffset then none
    else applyTable buf currOffset left (i + 2) (mapBlock b (half buf i) (half buf (i + 1)) mapping)

/-- The block has the mark, and the start of a table. -/
def isTable (buf : Bytes) : Bool :=
  decide (0x2000 ≤ buf.length) && buf.take 4 == Bytes.ascii "UPCH" && half buf 0 == 0 && half buf 1 == 0xffff

/-- The blocks in front of `currOffset`, from the last one on. -/
def findTable (cells : Cells b.src) (mapping : List Nat) : Nat → Int → Option (List Nat)
  | 0, _ => none
  | left + 1, currOffset =>
    if currOffset ≤ 0 then none
    else
      let currOffset := currOffset - b.src.erase_size
      if ¬ d.good .res currOffset then findTable cells mapping left currOffset
      -- "Failed to read good block in reservoir area"
      else if ¬ d.readable currOffset.toNat then none
      else
        let buf := (cells (.res, currOffset.toNat)).1
        -- the first entry is skipped; there is room for 100 numbers
        if isTable buf then applyTable b buf currOffset.toNat 49 2 mapping
        else findTable cells mapping left currOffset

/-! ## CreateBlockMapping -/

def emptyMapping : List Nat := List.replicate b.numBlocks 0xffff

/-- Whether the entry fits the block. -/
def checkBlock (block entry : Nat) : Except Crash Bool :=
  if d.good .src (b.offset block) then .ok (entry == 0xffff)
  else if entry = 0xffff then .ok false
  else if ¬ d.opens block then .error .nullPointer
  else .ok (d.good .res (b.offset entry))

def mappingValid (mapping : List Nat) : Except Crash Bool :=
  forUpTo (fun block valid => do
    match mapping[block]? with
    | none => throw .outOfBounds
    | some entry => return valid && (← checkBlock b d block entry)) b.numBlocks true

def createBlockMapping (cells : Cells b.src) : Except Crash (Option (List Nat)) :=
  if ¬ d.ready then .ok none
  -- "Source partition and reservoir partition differ in size properties."
  else if b.res.erase_size ≠ b.src.erase_size ∨ b.res_write ≠ b.src_write then .ok none
  -- "Unsuitable reservoir partition properties."
  else if b.res.size < b.res.erase_size ∨ 2 ^ 31 ≤ b.res.size then .ok none
  else match findTable b d cells (emptyMapping b) (b.res.size / b.res.erase_size + 1) b.res.size with
    | none => .ok none
    | some mapping => do
      if ← mappingValid b d mapping then return some mapping else return none

/-- `scan_partition`: "No bad blocks." -/
def scanPartition : Bool :=
  d.ready && (List.range b.numBlocks).all fun block => d.good .src (b.offset block)

/-- The mapping that `main` uses. -/
def blockMapping (cells : Cells b.src) : Except Crash (Option (List Nat)) := do
  match ← createBlockMapping b d cells with
  | some mapping => return some mapping
  -- "Generating empty block mapping table for error-free partition."
  | none => return if scanPartition b d then some (emptyMapping b) else none

/-! ## What the table can say -/

variable {b d}

/-- An entry that is not made, or that a reasonable one of the table made. -/
def Reasonable (b : Layout) (off entry : Nat) : Prop := entry = 0xffff ∨
  ∃ raw : Nat, raw < 2 ^ 16 ∧ b.reservoirPartStartBlock ≤ raw ∧
    entry = ((raw - b.reservoirPartStartBlock) % 2 ^ 16).toNat ∧
    (b.offset raw : Int) < (b.reservoirPartStartBlock * b.src.erase_size + off) % 2 ^ 32

theorem half_lt (buf : Bytes) (i : Nat) : half buf i < 2 ^ 16 := by
  have hlen : ((buf.drop (0x1000 + 2 * i)).take 2).length ≤ 2 := List.length_take_le ..
  have hlt := Bytes.ofLE_lt ((buf.drop (0x1000 + 2 * i)).take 2)
  have hpow := Nat.pow_le_pow_right (show 0 < 256 by omega) hlen
  unfold half
  omega

theorem reasonable_mapBlock {off rawSrc rawDst : Nat} {mapping : List Nat} (hlt : rawDst < 2 ^ 16)
    (h : unreasonable b rawDst off = false) (hm : ∀ e ∈ mapping, Reasonable b off e) :
    ∀ e ∈ mapBlock b rawSrc rawDst mapping, Reasonable b off e := by
  unfold mapBlock
  by_cases hsrc : b.srcPartStartBlock ≤ rawSrc ∧ (rawSrc : Int) ≤ b.srcPartStartBlock + b.numBlocks - 1
  · rw [if_pos hsrc]
    intro e he
    obtain he | rfl := List.mem_or_eq_of_mem_set he
    · exact hm e he
    · rw [unreasonable, Bool.or_eq_false_iff, decide_eq_false_iff_not, decide_eq_false_iff_not, not_lt, not_le] at h
      exact .inr ⟨rawDst, hlt, h.1, rfl, h.2⟩
  · rw [if_neg hsrc]
    exact hm

theorem applyTable_reasonable {buf : Bytes} {off left i : Nat} {mapping m : List Nat}
    (h : applyTable b buf off left i mapping = some m) (hm : ∀ e ∈ mapping, Reasonable b off e) :
    m.length = mapping.length ∧ ∀ e ∈ m, Reasonable b off e := by
  induction left generalizing i mapping with
  | zero =>
    cases h
    exact ⟨rfl, hm⟩
  | succ left ih =>
    rw [applyTable] at h
    by_cases hend : half buf i = 0xffff
    · rw [if_pos hend] at h
      cases h
      exact ⟨rfl, hm⟩
    · rw [if_neg hend] at h
      cases hun : unreasonable b (half buf (i + 1)) off with
      | true =>
        rw [hun, if_pos rfl] at h
        cases h
      | false =>
        rw [hun, if_neg Bool.false_ne_true] at h
        obtain ⟨hlen, hall⟩ := ih h (reasonable_mapBlock (half_lt _ _) hun hm)
        refine ⟨hlen.trans ?_, hall⟩
        unfold mapBlock
        split
        · exact List.length_set
        · rfl

/-- The driver calls no block good that does not lie in its partition. -/
def Sound (b : Layout) (d : Driver) : Prop := ∀ area pos, d.good area pos = true →
  0 ≤ pos ∧ pos < match area with
    | .src => (b.src.size : Int)
    | .res => b.res.size

/-- The table lies in a good block of the reservoir. It is found there as long as no block from there on changes. -/
theorem findTable_spec (hd : Sound b d) {cells : Cells b.src} {mapping m : List Nat} {left : Nat} {cur : Int}
    (h : findTable b d cells mapping left cur = some m) :
    ∃ off : Nat, d.good .res off = true ∧ isTable (cells (.res, off)).1 = true ∧
      applyTable b (cells (.res, off)).1 off 49 2 mapping = some m ∧
      ∀ cells' : Cells b.src, (∀ x, off ≤ x → cells' (.res, x) = cells (.res, x)) →
        findTable b d cells' mapping left cur = some m := by
  suffices hle : ∃ off : Nat, off < cur ∧ d.good .res off = true ∧ isTable (cells (.res, off)).1 = true ∧
      applyTable b (cells (.res, off)).1 off 49 2 mapping = some m ∧
      ∀ cells' : Cells b.src, (∀ x, off ≤ x → cells' (.res, x) = cells (.res, x)) →
        findTable b d cells' mapping left cur = some m by
    obtain ⟨off, -, hoff⟩ := hle
    exact ⟨off, hoff⟩
  have hpos := b.src.erase_size_pos
  induction left generalizing cur with
  | zero => cases h
  | succ left ih =>
    rw [findTable] at h
    by_cases hcur : cur ≤ 0
    · rw [if_pos hcur] at h
      cases h
    rw [if_neg hcur] at h
    dsimp only at h
    -- a block that is skipped is skipped again, for what decides lies behind the table
    have hskip (h' : findTable b d cells mapping left (cur - b.src.erase_size) = some m)
        (hagain : ∀ off : Nat, off < cur - b.src.erase_size → ∀ cells' : Cells b.src,
          (∀ x, off ≤ x → cells' (.res, x) = cells (.res, x)) →
          findTable b d cells' mapping (left + 1) cur =
            findTable b d cells' mapping left (cur - b.src.erase_size)) :
        ∃ off : Nat, off < cur ∧ d.good .res off = true ∧ isTable (cells (.res, off)).1 = true ∧
          applyTable b (cells (.res, off)).1 off 49 2 mapping = some m ∧
          ∀ cells' : Cells b.src, (∀ x, off ≤ x → cells' (.res, x) = cells (.res, x)) →
            findTable b d cells' mapping (left + 1) cur = some m := by
      obtain ⟨off, hlt, hgood, htable, happly, hsame⟩ := ih h'
      refine ⟨off, by omega, hgood, htable, happly, ?_⟩
      intro cells' hcells
      rw [hagain off hlt cells' hcells, hsame cells' hcells]
    cases hgood : d.good .res (cur - b.src.erase_size) with
    | false =>
      rw [hgood, if_pos Bool.false_ne_true] at h
      apply hskip h
      intro off _ cells' _
      rw [findTable, if_neg hcur]
      dsimp only
      rw [hgood, if_pos Bool.false_ne_true]
    | true =>
      obtain ⟨h0, -⟩ := hd .res _ hgood
      obtain ⟨at_, hat⟩ := Int.eq_ofNat_of_zero_le h0
      rw [hgood, if_neg (not_not.mpr rfl), hat, Int.toNat_natCast] at h
      cases hread : d.readable at_ with
      | false =>
        rw [hread, if_pos Bool.false_ne_true] at h
        cases h
      | true =>
        rw [hread, if_neg (not_not.mpr rfl)] at h
        have hrun (cells' : Cells b.src) (hcell : cells' (.res, at_) = cells (.res, at_)) :
            findTable b d cells' mapping (left + 1) cur =
              if isTable (cells (.res, at_)).1 then applyTable b (cells (.res, at_)).1 at_ 49 2 mapping
              else findTable b d cells' mapping left (cur - b.src.erase_size) := by
          rw [findTable, if_neg hcur]
          dsimp only
          rw [hgood, if_neg (not_not.mpr rfl), hat, Int.toNat_natCast, hread, if_neg (not_not.mpr rfl), hcell]
        cases htable : isTable (cells (.res, at_)).1 with
        | true =>
          rw [htable, if_pos rfl] at h
          refine ⟨at_, by omega, hat ▸ hgood, htable, h, ?_⟩
          intro cells' hcells
          rw [hrun cells' (hcells at_ (Nat.le_refl _)), htable, if_pos rfl, h]
        | false =>
          rw [htable, if_neg Bool.false_ne_true, ← hat] at h
          apply hskip h
          intro off hoff cells' hcells
          rw [hrun cells' (hcells at_ (by omega)), htable, if_neg Bool.false_ne_true]

theorem findTable_congr {cells cells' : Cells b.src} (h : ∀ x, cells' (.res, x) = cells (.res, x)) (mapping : List Nat)
    (left : Nat) (cur : Int) : findTable b d cells' mapping left cur = findTable b d cells mapping left cur := by
  induction left generalizing cur with
  | zero => rfl
  | succ left ih =>
    rw [findTable, findTable]
    dsimp only
    rw [h, ih]

theorem createBlockMapping_congr {cells cells' : Cells b.src} (h : ∀ x, cells' (.res, x) = cells (.res, x)) :
    createBlockMapping b d cells' = createBlockMapping b d cells := by
  unfold createBlockMapping
  rw [findTable_congr h]

/-! ## The mapping -/

/-- What the code knows of a mapping that it uses. The blocks of the reservoir that stand for others lie in front of
`limit`, and from there on nothing needs to be kept but the table. -/
structure Mapping (b : Layout) (d : Driver) (m : List Nat) (limit : Nat) : Prop where
  length : m.length = b.numBlocks
  bad : ∀ block e, m[block]? = some e → (e ≠ 0xffff ↔ d.good .src (b.offset block) = false)
  reservoir : ∀ e ∈ m, e ≠ 0xffff → b.offset e < limit ∧ d.good .res (b.offset e) = true

theorem mappingValid_spec {m : List Nat} (h : mappingValid b d m = .ok true) :
    ∀ block < b.numBlocks, ∃ e, m[block]? = some e ∧ checkBlock b d block e = .ok true := by
  have hall : true = true → ∀ block < b.numBlocks, ∃ e, m[block]? = some e ∧ checkBlock b d block e = .ok true := by
    refine forUpTo_inv (fun n valid => valid = true → ∀ block < n, ∃ e, m[block]? = some e ∧
      checkBlock b d block e = .ok true) (fun _ block hblock => absurd hblock (Nat.not_lt_zero _)) ?_ h
    intro n valid valid' _ hn hstep hvalid block hblock
    cases hm : m[n]? with
    | none =>
      rw [hm] at hstep
      cases hstep
    | some e =>
      rw [hm] at hstep
      obtain ⟨ok, hcheck, hstep⟩ := Except.bind_eq_ok.mp hstep
      cases hstep
      obtain ⟨hvalid, hok⟩ := Bool.and_eq_true_iff.mp hvalid
      obtain hlt | rfl := Nat.lt_or_eq_of_le (Nat.le_of_lt_succ hblock)
      · exact hn hvalid block hlt
      · exact ⟨e, hm, hok ▸ hcheck⟩
  exact hall rfl

theorem checkBlock_true {block e : Nat} (h : checkBlock b d block e = .ok true) :
    (e ≠ 0xffff ↔ d.good .src (b.offset block) = false) ∧ (e ≠ 0xffff → d.good .res (b.offset e) = true) := by
  unfold checkBlock at h
  cases hgood : d.good .src (b.offset block) with
  | true =>
    rw [hgood, if_pos rfl] at h
    have he : e = 0xffff := beq_iff_eq.mp (Except.ok.inj h)
    simp [he]
  | false =>
    rw [hgood, if_neg Bool.false_ne_true] at h
    by_cases he : e = 0xffff
    · rw [if_pos he] at h
      cases h
    · rw [if_neg he] at h
      cases hopens : d.opens block with
      | false =>
        rw [hopens, if_pos Bool.false_ne_true] at h
        cases h
      | true =>
        rw [hopens, if_neg (not_not.mpr rfl)] at h
        exact ⟨iff_of_true he rfl, fun _ => Except.ok.inj h⟩

/-- A reasonable entry whose block the driver has lies in front of the table, if the reservoir lies in the first 4 GB of
the chip. -/
theorem Reasonable.before {off e : Nat} (h : Reasonable b off e) (hd : Sound b d) (he : e ≠ 0xffff)
    (hgood : d.good .res (b.offset e) = true) (hoff : (off : Int) < b.res.size)
    (hstart : 0 ≤ b.reservoirPartStartBlock)
    (hend : b.reservoirPartStartBlock * b.src.erase_size + b.res.size ≤ 2 ^ 32) : b.offset e < off := by
  obtain h | ⟨raw, hraw, hle, rfl, hlt⟩ := h
  · exact absurd h he
  · obtain ⟨-, hin⟩ := hd _ _ hgood
    dsimp only at hin
    generalize hR : b.reservoirPartStartBlock = R at *
    obtain ⟨r, rfl⟩ := Int.eq_ofNat_of_zero_le hstart
    have hsub : (((raw : Int) - r) % 2 ^ 16).toNat = raw - r := by omega
    rw [hsub] at hin ⊢
    unfold Layout.offset at hin hlt ⊢
    obtain ⟨k, rfl⟩ := Nat.exists_eq_add_of_le (show r ≤ raw by omega)
    rw [Nat.add_sub_cancel_left] at hin ⊢
    rw [Nat.add_mul] at hlt
    have hmul : ((r : Int) * (b.src.erase_size : Int)) = ((r * b.src.erase_size : Nat) : Int) := by push_cast; rfl
    rw [hmul] at hlt hend
    generalize r * b.src.erase_size = x at hlt hend
    generalize k * b.src.erase_size = y at hlt hin ⊢
    omega

theorem createBlockMapping_spec (hd : Sound b d) (hstart : 0 ≤ b.reservoirPartStartBlock)
    (hend : b.reservoirPartStartBlock * b.src.erase_size + b.res.size ≤ 2 ^ 32) {cells : Cells b.src} {m : List Nat}
    (h : createBlockMapping b d cells = .ok (some m)) :
    ∃ off : Nat, d.good .res off = true ∧ isTable (cells (.res, off)).1 = true ∧ Mapping b d m off ∧
      ∀ cells' : Cells b.src, (∀ x, off ≤ x → cells' (.res, x) = cells (.res, x)) →
        createBlockMapping b d cells' = .ok (some m) := by
  unfold createBlockMapping at h
  by_cases hready : ¬ d.ready = true
  · rw [if_pos hready] at h
    cases h
  rw [if_neg hready] at h
  by_cases hdiffer : b.res.erase_size ≠ b.src.erase_size ∨ b.res_write ≠ b.src_write
  · rw [if_pos hdiffer] at h
    cases h
  rw [if_neg hdiffer] at h
  by_cases hsize : b.res.size < b.res.erase_size ∨ 2 ^ 31 ≤ b.res.size
  · rw [if_pos hsize] at h
    cases h
  rw [if_neg hsize] at h
  cases hfind : findTable b d cells (emptyMapping b) (b.res.size / b.res.erase_size + 1) b.res.size with
  | none =>
    rw [hfind] at h
    cases h
  | some found =>
    rw [hfind] at h
    obtain ⟨valid, hvalid, h⟩ := Except.bind_eq_ok.mp h
    cases valid with
    | false => cases h
    | true =>
      cases h
      obtain ⟨off, hgood, htable, happly, hagain⟩ := findTable_spec hd hfind
      obtain ⟨-, hoff⟩ := hd _ _ hgood
      obtain ⟨hlen, hreasonable⟩ := applyTable_reasonable happly (by
        intro e he
        exact .inl (List.eq_of_mem_replicate he))
      have hlength : m.length = b.numBlocks := hlen.trans List.length_replicate
      have hcheck := mappingValid_spec hvalid
      have hentry {block e : Nat} (he : m[block]? = some e) : checkBlock b d block e = .ok true := by
        obtain ⟨hlt, -⟩ := List.getElem?_eq_some_iff.mp he
        obtain ⟨e', he', hok⟩ := hcheck block (hlength ▸ hlt)
        cases he.symm.trans he'
        exact hok
      refine ⟨off, hgood, htable, ⟨hlength, fun block e he => (checkBlock_true (hentry he)).1, ?_⟩, ?_⟩
      · intro e hmem he
        obtain ⟨block, hblock⟩ := List.mem_iff_getElem?.mp hmem
        have hres := (checkBlock_true (hentry hblock)).2 he
        exact ⟨(hreasonable e hmem).before hd he hres hoff hstart hend, hres⟩
      · intro cells' hcells
        unfold createBlockMapping
        rw [if_neg hready, if_neg hdiffer, if_neg hsize, hagain cells' hcells]
        dsimp only
        rw [hvalid]
        rfl

/-- Where no block is bad, none is mapped. -/
theorem emptyMapping_mapping (h : scanPartition b d = true) : Mapping b d (emptyMapping b) 0 := by
  have hgood := List.all_eq_true.mp (Bool.and_eq_true_iff.mp h).2
  refine ⟨List.length_replicate, ?_, ?_⟩
  · intro block e he
    obtain ⟨hlt, rfl⟩ := List.getElem?_eq_some_iff.mp he
    have hblock : block < b.numBlocks := by rwa [emptyMapping, List.length_replicate] at hlt
    rw [hgood block (List.mem_range.mpr hblock)]
    simp [emptyMapping]
  · intro e he hne
    exact absurd (List.eq_of_mem_replicate he) hne

/-- The mapping that is used maps exactly the bad blocks, to good ones. It is found again as long as the reservoir is not
changed from some offset on, and the blocks in use lie in front of it. -/
theorem blockMapping_spec (hd : Sound b d) (hstart : 0 ≤ b.reservoirPartStartBlock)
    (hend : b.reservoirPartStartBlock * b.src.erase_size + b.res.size ≤ 2 ^ 32) {cells : Cells b.src} {m : List Nat}
    (h : blockMapping b d cells = .ok (some m)) :
    ∃ limit, Mapping b d m limit ∧
      ∀ cells' : Cells b.src, (∀ x, limit ≤ x → cells' (.res, x) = cells (.res, x)) →
        blockMapping b d cells' = .ok (some m) := by
  have hrun := h
  unfold blockMapping at h
  obtain ⟨created, hcreate, h⟩ := Except.bind_eq_ok.mp h
  cases created with
  | some found =>
    cases h
    obtain ⟨off, -, -, hmapping, hagain⟩ := createBlockMapping_spec hd hstart hend hcreate
    refine ⟨off, hmapping, ?_⟩
    intro cells' hcells
    unfold blockMapping
    rw [hagain cells' hcells]
    rfl
  | none =>
    cases hscan : scanPartition b d with
    | false =>
      rw [hscan] at h
      cases h
    | true =>
      rw [hscan] at h
      cases h
      refine ⟨0, emptyMapping_mapping hscan, ?_⟩
      intro cells' hcells
      rw [← hrun]
      unfold blockMapping
      rw [createBlockMapping_congr fun x => hcells x (Nat.zero_le x)]

end Miui.Bml
