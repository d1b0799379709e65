import MiuiRecovery.ApplyPatch.Storage

/-!
# Loading a partition

`LoadPartitionContents` (`applypatch.c`) as it reads: in the order of the sizes, each time as many bytes as are missing,
with one running SHA-1 context that is copied and finished at every size.

* `Sha`: the hash functions. `Qsort`: the order of the indices.
* `PartitionName`: a well-formed name.
* `loadLoop_spec`: the loop finds the first pair that matches.
* `loadPartition_spec`: so does the function, and the pair has the smallest size.
-/

namespace Miui.Load

open CString

/-! ## The library -/

/-- `SHA_init`, `SHA_update`, `SHA_final` and `SHA`: a context that was fed in pieces has the hash of the whole. -/
structure Sha where
  Ctx : Type
  init : Ctx
  update : Ctx → Bytes → Ctx
  final : Ctx → Digest
  hash : Bytes → Digest
  final_updates : ∀ chunks : List Bytes, final (chunks.foldl update init) = hash chunks.flatten

def compareSizeIndices (size_array : List Nat) (aa bb : Nat) : Int :=
  if size_array.getD aa 0 < size_array.getD bb 0 then -1
  else if size_array.getD aa 0 > size_array.getD bb 0 then 1
  else 0

/-- `qsort`, which may leave equal sizes in any order. -/
structure Qsort where
  index : List Nat → List Nat
  perm : ∀ size_array, (index size_array).Perm (List.range size_array.length)
  sorted : ∀ size_array, (index size_array).Pairwise fun aa bb => compareSizeIndices size_array aa bb ≤ 0

/-- A partition from which `readable` bytes can be read. -/
structure Device where
  content : Bytes
  readable : Nat

/-- What `mtd_read_data` and `fread` put into the buffer. -/
def Device.read (d : Device) (pos count : Nat) : Bytes := ((d.content.take d.readable).drop pos).take count

/-! ## The function -/

/-- The result; `fault` is the use of a null pointer or of memory outside an array. -/
inductive Result
  | error
  | fault
  | loaded (data : Bytes) (size : Nat) (sha1 : Digest)
  deriving DecidableEq

/-- The loop that takes the (size, sha1) pairs from `strtok`. -/
def readPairs : Nat → List Bytes → Except Result (List (Nat × Option Bytes))
  | 0, _ => .ok []
  | _ + 1, [] => .error .fault
  | pairs + 1, size_str :: ts =>
    if sizeT (strtol size_str) = 0 then .error .error
    else do
      let rest ← readPairs pairs ts.tail
      .ok ((sizeT (strtol size_str), ts.head?) :: rest)

/-- The variables of the loop over the pairs; `p` is an index into `data`. -/
structure Loading (C : Type) where
  sha_ctx : C
  p : Nat
  data : Bytes
  size : Nat

variable (S : Sha)

/-- The context, the buffer and `file->size` behind a read. -/
def Loading.add (s : Loading S.Ctx) (read : Bytes) : Loading S.Ctx :=
  { s with
    sha_ctx := S.update s.sha_ctx read
    data := s.data.take s.p ++ read ++ s.data.drop (s.p + read.length)
    size := s.size + read.length }

/-- The loop over the pairs in the order of their sizes; `capacity` is what was allocated. -/
def loadLoop (d : Device) (pairs : List (Nat × Option Bytes)) (capacity : Nat) : List Nat → Loading S.Ctx → Result
  | [], _ => .error
  | i :: index, s =>
    match pairs[i]? with
    | none => .fault
    | some (size, sha1sum) =>
      let next := sizeT (size - s.size)
      let read := d.read s.size next
      if s.p + read.length > capacity then .fault
      -- "short read"
      else if next ≠ read.length then .error
      else
        let s : Loading S.Ctx := if next > 0 then s.add S read else s
        let sha_so_far := S.final s.sha_ctx
        match sha1sum with
        | none => .fault
        | some sha1sum =>
          match parseSha1 sha1sum with
          | none => .error
          | some parsed_sha =>
            if sha_so_far = parsed_sha then .loaded (s.data.take s.size) s.size (S.final s.sha_ctx)
            else loadLoop d pairs capacity index { s with p := s.p + read.length }

def partitionTypeOf (magic : Bytes) : Option PartitionType :=
  if magic = Bytes.ascii "MTD" then some .MTD
  else if magic = Bytes.ascii "EMMC" then some .EMMC
  else none

/-- `LoadPartitionContents`; `partitions` are those that can be found and opened. -/
def loadPartition (Q : Qsort) (partitions : PartitionType → Bytes → Option Device) (filename : Bytes) : Result :=
  match tokens (· == 58) filename with
  | [] => .fault
  | magic :: ts =>
    match partitionTypeOf magic with
    | none => .error
    | some type =>
      match readPairs ((filename.count 58 - 1) / 2) ts.tail with
      | .error r => r
      | .ok pairs =>
        let index := Q.index (pairs.map Prod.fst)
        match ts.head? with
        | none => .fault
        | some partition =>
          match partitions type partition with
          | none => .error
          | some d =>
            match index.getLast? with
            | none => .fault
            | some last => loadLoop S d pairs ((pairs.map Prod.fst).getD last 0) index ⟨S.init, 0, [], 0⟩

/-! ## Well-formed names -/

/-- A pair: a size of at least 1 that a `long` holds, and 40 hexadecimal digits. -/
structure SizePair where
  sizeText : Bytes
  digits : ∀ c ∈ sizeText, 48 ≤ c ∧ c ≤ 57
  size_pos : 0 < Miui.digits sizeText
  size_long : Miui.digits sizeText < 2 ^ 31
  sha1Text : Bytes
  sha1 : Digest
  parses : parseSha1 sha1Text = some sha1

def SizePair.size (q : SizePair) : Nat := Miui.digits q.sizeText

/-- The name of a partition with the sizes and hashes that it may have. -/
structure PartitionName where
  type : PartitionType
  partition : Bytes
  nonempty : partition ≠ []
  no_colon : 58 ∉ partition
  pairs : List SizePair
  some_pair : pairs ≠ []

def typeText : PartitionType → Bytes
  | .MTD => Bytes.ascii "MTD"
  | .EMMC => Bytes.ascii "EMMC"

/-- The tokens behind the type. -/
def PartitionName.fields (n : PartitionName) : List Bytes :=
  n.partition :: n.pairs.flatMap fun q => [q.sizeText, q.sha1Text]

def PartitionName.text (n : PartitionName) : Bytes := typeText n.type ++ n.fields.flatMap (58 :: ·)

theorem SizePair.strtol_size (q : SizePair) : sizeT (strtol q.sizeText) = q.size := by
  have hlong := q.size_long
  rw [strtol_digits q.digits, ← digits_eq_value q.digits]
  unfold sizeT SizePair.size
  omega

theorem hexDigit_ne_colon {c v : UInt8} (h : hexDigit c = some v) : c ≠ 58 := by
  rintro rfl
  exact nomatch (show none = some v from h)

theorem parseHex_no_colon : ∀ {n : Nat} {s digest : Bytes}, parseHex n s = some digest → 58 ∉ s
  | 0, [], _, _ => List.not_mem_nil
  | n + 1, hi :: lo :: ps, _, h => by
    unfold parseHex at h
    split at h
    · rename_i hhi hlo hps
      simp only [List.mem_cons, not_or]
      exact ⟨(hexDigit_ne_colon hhi).symm, (hexDigit_ne_colon hlo).symm, parseHex_no_colon hps⟩
    · cases h

theorem SizePair.tokens (q : SizePair) : ∀ t ∈ [q.sizeText, q.sha1Text], t ≠ [] ∧ 58 ∉ t := by
  intro t ht
  rcases List.mem_cons.mp ht with rfl | ht
  · refine ⟨fun h => ?_, fun h => absurd (q.digits 58 h).2 (by decide)⟩
    have hpos := q.size_pos
    rw [h] at hpos
    exact absurd hpos (by decide)
  · obtain rfl := List.mem_singleton.mp ht
    refine ⟨fun h => ?_, parseHex_no_colon q.parses⟩
    have hparses := q.parses
    rw [h] at hparses
    cases hparses

variable {S} {d : Device}

theorem readPairs_eq (ps : List SizePair) (rest : List Bytes) :
    readPairs ps.length (ps.flatMap (fun q => [q.sizeText, q.sha1Text]) ++ rest) =
      .ok (ps.map fun q => (q.size, some q.sha1Text)) := by
  induction ps with
  | nil => rfl
  | cons q ps ih =>
    have hpos : q.size ≠ 0 := q.size_pos.ne'
    simp only [List.flatMap_cons, List.cons_append, List.nil_append, List.length_cons, readPairs, q.strtol_size,
      if_neg hpos, List.tail_cons, List.head?_cons, ih, List.map_cons]
    rfl

/-! ## The loop -/

/-- The start of the partition has the size and the hash of the pair. -/
def SizePair.Matches (S : Sha) (d : Device) (q : SizePair) : Prop :=
  q.size ≤ (d.content.take d.readable).length ∧ S.hash (d.content.take q.size) = q.sha1

/-- `size` bytes have been read, and the context was fed with them. -/
structure Read (S : Sha) (d : Device) (s : Loading S.Ctx) : Prop where
  p : s.p = s.size
  data : s.data = d.content.take s.size
  inside : s.size ≤ (d.content.take d.readable).length
  ctx : ∃ chunks : List Bytes, s.sha_ctx = chunks.foldl S.update S.init ∧ chunks.flatten = d.content.take s.size

theorem Read.final {s : Loading S.Ctx} (h : Read S d s) : S.final s.sha_ctx = S.hash (d.content.take s.size) := by
  obtain ⟨chunks, hctx, hflat⟩ := h.ctx
  rw [hctx, S.final_updates, hflat]

/-- Bytes that are there are read. -/
theorem Device.read_eq (d : Device) {pos count : Nat} (h : pos + count ≤ (d.content.take d.readable).length) :
    d.content.take pos ++ d.read pos count = d.content.take (pos + count) ∧ (d.read pos count).length = count := by
  rw [List.length_take] at h
  unfold Device.read
  constructor
  · rw [List.take_add]
    congr 1
    rw [List.drop_take, List.take_take, min_eq_left (by omega)]
  · rw [List.length_take, List.length_drop, List.length_take]
    omega

theorem Device.read_short (d : Device) {pos count : Nat} (h : (d.content.take d.readable).length < pos + count)
    (hcount : count ≠ 0) : (d.read pos count).length ≠ count := by
  unfold Device.read
  rw [List.length_take, List.length_drop]
  omega

/-- The bytes that are missing are added. -/
theorem Read.more {s : Loading S.Ctx} (h : Read S d s) {size : Nat} (hle : s.size ≤ size)
    (hin : size ≤ (d.content.take d.readable).length) :
    let read := d.read s.size (size - s.size)
    let s' := if size - s.size > 0 then s.add S read else s
    s'.size = size ∧ s'.p + read.length = size ∧ Read S d { s' with p := s'.p + read.length } := by
  intro read s'
  obtain ⟨hread, hlen⟩ := d.read_eq (show s.size + (size - s.size) ≤ _ by omega)
  have hlen : read.length = size - s.size := hlen
  rw [Nat.add_sub_cancel' hle] at hread
  have hp := h.p
  by_cases hmore : size - s.size > 0
  · have hs' : s' = s.add S read := if_pos hmore
    have hdata : s.data.take s.p ++ read ++ s.data.drop (s.p + read.length) = d.content.take size := by
      rw [h.data, hp, List.take_take, min_self, hread, List.drop_of_length_le, List.append_nil]
      rw [List.length_take]
      omega
    obtain ⟨chunks, hctx, hflat⟩ := h.ctx
    have hctx' : S.update s.sha_ctx read = (chunks ++ [read]).foldl S.update S.init := by
      rw [hctx, List.foldl_append]
      rfl
    have hflat' : (chunks ++ [read]).flatten = d.content.take size := by
      rw [List.flatten_append, hflat, List.flatten_singleton, hread]
    have hsize : (s.add S read).size = size := by
      show s.size + read.length = size
      omega
    have hpos : (s.add S read).p + read.length = size := by
      show s.p + read.length = size
      omega
    rw [hs']
    refine ⟨hsize, hpos, ⟨hpos.trans hsize.symm, ?_, ?_, chunks ++ [read], hctx', ?_⟩⟩
    · show s.data.take s.p ++ read ++ s.data.drop (s.p + read.length) = d.content.take (s.add S read).size
      rw [hsize, hdata]
    · show (s.add S read).size ≤ _
      rw [hsize]
      exact hin
    · show _ = d.content.take (s.add S read).size
      rw [hsize, hflat']
  · have hs' : s' = s := if_neg hmore
    have hzero : read.length = 0 := by omega
    rw [hs', hzero, Nat.add_zero]
    exact ⟨by omega, by omega, h⟩

theorem loadLoop_spec {ps : List (Nat × Option Bytes)} {capacity : Nat} {index : List Nat} {sel : List SizePair}
    (hsel : index.map (ps[·]?) = sel.map fun q => some (q.size, some q.sha1Text))
    (hsorted : sel.Pairwise (·.size ≤ ·.size)) {s : Loading S.Ctx}
    (hle : ∀ q ∈ sel, s.size ≤ q.size ∧ q.size ≤ capacity) (hread : Read S d s) :
    (∀ q ∈ sel, ¬ q.Matches S d) ∧ loadLoop S d ps capacity index s = .error ∨
      ∃ q ∈ sel, q.Matches S d ∧ (∀ q' ∈ sel, q'.Matches S d → q.size ≤ q'.size) ∧
        loadLoop S d ps capacity index s = .loaded (d.content.take q.size) q.size q.sha1 := by
  induction index generalizing sel s with
  | nil =>
    obtain rfl : sel = [] := List.map_eq_nil_iff.mp hsel.symm
    exact .inl ⟨(fun q h => nomatch h), rfl⟩
  | cons i index ih =>
    cases sel with
    | nil => cases hsel
    | cons q sel =>
      obtain ⟨hi, hsel⟩ := List.cons.inj hsel
      have hi : ps[i]? = some (q.size, some q.sha1Text) := hi
      obtain ⟨hlow, hcap⟩ := hle q List.mem_cons_self
      have hsmallest (q' : SizePair) (hq' : q' ∈ _) : q.size ≤ q'.size :=
        List.rel_of_pairwise_cons hsorted hq'
      have hlong : q.size < 2 ^ 31 := q.size_long
      have hnext : sizeT (q.size - s.size) = q.size - s.size := by
        unfold sizeT
        omega
      rw [loadLoop, hi]
      simp only [hnext]
      by_cases hin : q.size ≤ (d.content.take d.readable).length
      · obtain ⟨hsize, hp, hread'⟩ := hread.more hlow hin
        have hlen := (d.read_eq (show s.size + (q.size - s.size) ≤ _ by omega)).2
        rw [if_neg (by rw [hlen, hread.p]; omega), if_neg (not_not.mpr hlen.symm)]
        simp only [q.parses]
        have hfinal := hread'.final
        simp only [hsize] at hfinal
        rw [hfinal]
        by_cases hmatch : S.hash (d.content.take q.size) = q.sha1
        · rw [if_pos hmatch]
          refine .inr ⟨q, List.mem_cons_self, ⟨hin, hmatch⟩, fun q' hq' _ => ?_, ?_⟩
          · rcases List.mem_cons.mp hq' with rfl | hq'
            · exact Nat.le_refl _
            · exact hsmallest q' hq'
          · have hdata := hread'.data
            simp only [hsize] at hdata
            rw [hsize, hdata, List.take_take, min_self, hmatch]
        · rw [if_neg hmatch]
          have hnot : ¬ q.Matches S d := fun h => hmatch h.2
          have hrest := ih hsel (List.Pairwise.of_cons hsorted) (by
            intro q' hq'
            exact ⟨hsize.le.trans (hsmallest q' hq'), (hle q' (List.mem_cons_of_mem _ hq')).2⟩) hread'
          rcases hrest with ⟨hnone, hrun⟩ | ⟨q', hq', hmatches, hmin, hrun⟩
          · exact .inl ⟨List.forall_mem_cons.mpr ⟨hnot, hnone⟩, hrun⟩
          · refine .inr ⟨q', List.mem_cons_of_mem _ hq', hmatches, fun r hr hmr => ?_, hrun⟩
            rcases List.mem_cons.mp hr with rfl | hr
            · exact absurd hmr hnot
            · exact hmin r hr hmr
      · have hshort := d.read_short (show _ < s.size + (q.size - s.size) by omega)
          (by have := hread.inside; omega)
        have hless : (d.read s.size (q.size - s.size)).length ≤ q.size - s.size := List.length_take_le _ _
        rw [if_neg (by rw [hread.p]; omega), if_pos hshort.symm]
        refine .inl ⟨fun q' hq' hmatches => ?_, rfl⟩
        have hle' : q.size ≤ q'.size := by
          rcases List.mem_cons.mp hq' with rfl | hq'
          · exact Nat.le_refl _
          · exact hsmallest q' hq'
        exact hin (hle'.trans hmatches.1)

/-! ## The order of the pairs -/

section Order

variable {ps : List SizePair} {index : List Nat}

/-- The pairs that the indices stand for. -/
def select (ps : List SizePair) (index : List Nat) : List SizePair := index.filterMap (ps[·]?)

theorem map_select (hin : ∀ i ∈ index, i < ps.length) :
    index.map ((ps.map fun q => (q.size, some q.sha1Text))[·]?) =
      (select ps index).map fun q => some (q.size, some q.sha1Text) := by
  induction index with
  | nil => rfl
  | cons i index ih =>
    have hlt := hin i List.mem_cons_self
    have hi := List.getElem?_eq_getElem hlt
    have hselect : select ps (i :: index) = ps[i] :: select ps index := List.filterMap_cons_some hi
    rw [List.map_cons, ih fun j hj => hin j (List.mem_cons_of_mem _ hj), List.getElem?_map, hi, hselect]
    rfl

theorem mem_select (hperm : index.Perm (List.range ps.length)) {q : SizePair} : q ∈ select ps index ↔ q ∈ ps := by
  rw [select, List.mem_filterMap, List.mem_iff_getElem?]
  refine exists_congr fun i => and_iff_right_of_imp fun hq => ?_
  rw [hperm.mem_iff, List.mem_range]
  exact (List.getElem?_eq_some_iff.mp hq).1

theorem compareSizeIndices_le {i j : Nat} {q r : SizePair} (h : compareSizeIndices (ps.map SizePair.size) i j ≤ 0)
    (hq : ps[i]? = some q) (hr : ps[j]? = some r) : q.size ≤ r.size := by
  have hi : (ps.map SizePair.size).getD i 0 = q.size := by simp [List.getD, hq]
  have hj : (ps.map SizePair.size).getD j 0 = r.size := by simp [List.getD, hr]
  unfold compareSizeIndices at h
  rw [hi, hj] at h
  split at h
  · omega
  · split at h
    · omega
    · omega

theorem select_sorted (hsorted : index.Pairwise fun i j => compareSizeIndices (ps.map SizePair.size) i j ≤ 0) :
    (select ps index).Pairwise (·.size ≤ ·.size) := by
  rw [select, List.pairwise_filterMap]
  exact hsorted.imp fun h q hq r hr => compareSizeIndices_le h hq hr

/-- The size at the last index is the largest. -/
theorem select_le (hin : ∀ i ∈ index, i < ps.length) {last : Nat} (hlast : index.getLast? = some last)
    (hsorted : index.Pairwise fun i j => compareSizeIndices (ps.map SizePair.size) i j ≤ 0) {q : SizePair}
    (hq : q ∈ select ps index) : q.size ≤ (ps.map SizePair.size).getD last 0 := by
  obtain ⟨front, rfl⟩ := List.getLast?_eq_some_iff.mp hlast
  have hlt := hin last (List.mem_append_right _ (List.mem_singleton_self _))
  have hlast := List.getElem?_eq_getElem hlt
  have hcapacity : (ps.map SizePair.size).getD last 0 = ps[last].size := by simp [List.getD, hlast]
  rw [hcapacity]
  obtain ⟨i, hi, hiq⟩ := List.mem_filterMap.mp hq
  rcases List.mem_append.mp hi with hi | hi
  · exact compareSizeIndices_le ((List.pairwise_append.mp hsorted).2.2 i hi last (List.mem_singleton_self _)) hiq hlast
  · obtain rfl := List.mem_singleton.mp hi
    obtain rfl := Option.some.inj (hiq.symm.trans hlast)
    exact Nat.le_refl _

end Order

/-! ## The function -/

theorem count_flatMap {ts : List Bytes} (h : ∀ t ∈ ts, 58 ∉ t) : (ts.flatMap (58 :: ·)).count 58 = ts.length := by
  induction ts with
  | nil => rfl
  | cons t ts ih =>
    rw [List.flatMap_cons, List.count_append, List.count_cons_self, List.count_eq_zero_of_not_mem (h t List.mem_cons_self),
      ih fun u hu => h u (List.mem_cons_of_mem _ hu), List.length_cons]
    omega

theorem PartitionName.fields_tokens (n : PartitionName) : ∀ t ∈ n.fields, t ≠ [] ∧ 58 ∉ t := by
  intro t ht
  rcases List.mem_cons.mp ht with rfl | ht
  · exact ⟨n.nonempty, n.no_colon⟩
  · obtain ⟨q, -, ht⟩ := List.mem_flatMap.mp ht
    exact q.tokens t ht

theorem PartitionName.count_text (n : PartitionName) : (n.text.count 58 - 1) / 2 = n.pairs.length := by
  have htype : (typeText n.type).count 58 = 0 := by cases n.type <;> decide
  have hfields : n.fields.length = 2 * n.pairs.length + 1 := by
    simp [fields, List.length_flatMap]
    omega
  rw [text, List.count_append, htype, count_flatMap fun t ht => (n.fields_tokens t ht).2, hfields]
  omega

theorem PartitionName.tokens_text (n : PartitionName) : tokens (· == 58) n.text = typeText n.type :: n.fields := by
  have htype : typeText n.type ≠ [] ∧ 58 ∉ typeText n.type := by cases n.type <;> decide
  exact tokens_append_flatMap htype.1 htype.2 n.fields_tokens

theorem partitionTypeOf_typeText (type : PartitionType) : partitionTypeOf (typeText type) = some type := by
  cases type <;> decide

/-- The function loads the shortest start of the partition that a pair of the name describes, and fails when there is
none among the bytes that can be read. -/
theorem loadPartition_spec (S : Sha) (Q : Qsort) (partitions : PartitionType → Bytes → Option Device) (n : PartitionName)
    {d : Device} (hd : partitions n.type n.partition = some d) :
    (∀ q ∈ n.pairs, ¬ q.Matches S d) ∧ loadPartition S Q partitions n.text = .error ∨
      ∃ q ∈ n.pairs, q.Matches S d ∧ (∀ q' ∈ n.pairs, q'.Matches S d → q.size ≤ q'.size) ∧
        loadPartition S Q partitions n.text = .loaded (d.content.take q.size) q.size q.sha1 := by
  have hperm := Q.perm (n.pairs.map SizePair.size)
  rw [List.length_map] at hperm
  have hsorted := Q.sorted (n.pairs.map SizePair.size)
  have hin : ∀ i ∈ Q.index (n.pairs.map SizePair.size), i < n.pairs.length := fun i hi =>
    List.mem_range.mp (hperm.mem_iff.mp hi)
  have hsizes : (n.pairs.map fun q => (q.size, some q.sha1Text)).map Prod.fst = n.pairs.map SizePair.size := by
    rw [List.map_map]
    rfl
  have hread := readPairs_eq n.pairs []
  rw [List.append_nil] at hread
  have hstart : Read S d ⟨S.init, 0, [], 0⟩ := ⟨rfl, rfl, Nat.zero_le _, [], rfl, rfl⟩
  obtain ⟨last, hlast⟩ : ∃ last, (Q.index (n.pairs.map SizePair.size)).getLast? = some last := by
    rw [← Option.isSome_iff_exists, List.getLast?_isSome]
    rintro hnil
    have hlen := hperm.length_eq
    rw [hnil, List.length_nil, List.length_range] at hlen
    exact n.some_pair (List.length_eq_zero_iff.mp hlen.symm)
  have hrun := loadLoop_spec (map_select hin) (select_sorted hsorted)
    (fun q hq => ⟨Nat.zero_le _, select_le hin hlast hsorted hq⟩) hstart
  have hload : loadPartition S Q partitions n.text =
      loadLoop S d (n.pairs.map fun q => (q.size, some q.sha1Text)) ((n.pairs.map SizePair.size).getD last 0)
        (Q.index (n.pairs.map SizePair.size)) ⟨S.init, 0, [], 0⟩ := by
    unfold loadPartition
    rw [n.tokens_text]
    simp only [partitionTypeOf_typeText, n.count_text, PartitionName.fields, List.tail_cons, List.head?_cons, hread, hd,
      hsizes, hlast]
  simp only [mem_select hperm] at hrun
  rw [hload]
  exact hrun

/-- A stable `qsort`. -/
def insertionQsort : Qsort where
  index size_array := (List.range size_array.length).insertionSort fun i j => size_array.getD i 0 ≤ size_array.getD j 0
  perm size_array := List.perm_insertionSort _ _
  sorted size_array := by
    refine (List.pairwise_insertionSort _ _).imp fun h => ?_
    unfold compareSizeIndices
    split
    · decide
    · rw [if_neg (not_lt.mpr h)]

/-- The SHA-1 of `a`. -/
def sha1OfA : Digest := [0x86, 0xf7, 0xe4, 0x37, 0xfa, 0xa5, 0xa7, 0xfc, 0xe1, 0x5d, 0x1d, 0xdc, 0xb9, 0xea, 0xea, 0xea,
  0x37, 0x76, 0x67, 0xb8]

/-- A hash that is the one of SHA-1 for `a`. -/
def shaOfA : Sha where
  Ctx := Bytes
  init := []
  update := (· ++ ·)
  final b := if b = [97] then sha1OfA else []
  hash b := if b = [97] then sha1OfA else []
  final_updates chunks := by
    have hfold (b : Bytes) : chunks.foldl (· ++ ·) b = b ++ chunks.flatten := by
      induction chunks generalizing b with
      | nil => simp
      | cons c cs ih => rw [List.foldl_cons, ih, List.flatten_cons, List.append_assoc]
    rw [hfold, List.nil_append]

/-- `EMMC:p:1:86f7e437faa5a7fce15d1ddcb9eaeaea377667b8` -/
def nameOfA : PartitionName where
  type := .EMMC
  partition := Bytes.ascii "p"
  nonempty := by decide
  no_colon := by decide
  pairs := [{
    sizeText := Bytes.ascii "1"
    digits := by decide +kernel
    size_pos := by decide
    size_long := by decide
    sha1Text := Bytes.ascii "86f7e437faa5a7fce15d1ddcb9eaeaea377667b8"
    sha1 := sha1OfA
    parses := by decide }]
  some_pair := by decide

theorem loadPartition_a :
    (∀ q ∈ nameOfA.pairs, ¬ q.Matches shaOfA ⟨[97], 1⟩) ∧
        loadPartition shaOfA insertionQsort (fun _ _ => some ⟨[97], 1⟩) nameOfA.text = .error ∨
      ∃ q ∈ nameOfA.pairs, q.Matches shaOfA ⟨[97], 1⟩ ∧
        (∀ q' ∈ nameOfA.pairs, q'.Matches shaOfA ⟨[97], 1⟩ → q.size ≤ q'.size) ∧
        loadPartition shaOfA insertionQsort (fun _ _ => some ⟨[97], 1⟩) nameOfA.text =
          .loaded (([97] : Bytes).take q.size) q.size q.sha1 :=
  loadPartition_spec shaOfA insertionQsort (fun _ _ => some ⟨[97], 1⟩) nameOfA rfl

end Miui.Load
