import MiuiRecovery.Lib.Bytes
import Mathlib.Data.Char
import Mathlib.Data.List.AList
import Mathlib.Data.List.Lex
import Mathlib.Data.List.Sort

/-!
# A directory of regular files, and a glob over it

The files of a directory with their contents, the names that a pattern `prefix*` expands to (in sorted
order) and what `cat prefix*` writes.

* `catGlob_eq_iff`: `cat prefix*` is the concatenation of some of the files, given in order, exactly if
  every other file that the pattern matches is empty.
* `splitPieces_flatten`: cutting a stream into pieces loses nothing.
-/

abbrev FileName := List Char

/-- The regular files of a directory. -/
abbrev Directory := AList fun _ : FileName => Bytes

namespace Directory

variable {d : Directory} {pre : FileName} {names : List FileName}

/-- What `cat` writes for one name. -/
def content (d : Directory) (n : FileName) : Bytes := (d.lookup n).getD []

/-- The names that `pre*` expands to. -/
def glob (d : Directory) (pre : FileName) : List FileName :=
  (d.keys.filter fun n => pre.isPrefixOf n).insertionSort (· ≤ ·)

/-- The output of `cat pre*`. -/
def catGlob (d : Directory) (pre : FileName) : Bytes := (d.glob pre).flatMap d.content

theorem mem_glob {n : FileName} : n ∈ d.glob pre ↔ n ∈ d ∧ pre <+: n := by
  unfold glob
  rw [List.mem_insertionSort, List.mem_filter, List.isPrefixOf_iff_prefix]
  rfl

theorem nodup_glob : (d.glob pre).Nodup :=
  (List.perm_insertionSort _ _).nodup_iff.mpr (d.keys_nodup.filter _)

theorem sorted_glob : (d.glob pre).Pairwise (· ≤ ·) := List.pairwise_insertionSort _ _

/-- Some of the matched names, in their order. -/
theorem filter_glob (hs : names.Pairwise (· < ·)) (hmem : ∀ n ∈ names, n ∈ d.glob pre) :
    (d.glob pre).filter (· ∈ names) = names := by
  apply List.Perm.eq_of_pairwise' (r := (· ≤ ·))
  · exact sorted_glob.filter _
  · exact hs.imp fun h => h.le
  · rw [List.perm_ext_iff_of_nodup (nodup_glob.filter _) (hs.imp fun h => h.ne)]
    intro n
    rw [List.mem_filter, decide_eq_true_eq]
    exact ⟨fun h => h.2, fun h => ⟨hmem n h, h⟩⟩

theorem length_flatMap_filter_le {α : Type} (f : α → Bytes) (p : α → Bool) (l : List α) :
    ((l.filter p).flatMap f).length ≤ (l.flatMap f).length := by
  induction l with
  | nil => exact Nat.le_refl _
  | cons a l ih =>
    rw [List.filter_cons]
    split
    · rw [List.flatMap_cons, List.flatMap_cons, List.length_append, List.length_append]
      omega
    · rw [List.flatMap_cons, List.length_append]
      omega

/-- What is left of a concatenation when a part of it is empty. -/
theorem flatMap_eq_filter_iff {α : Type} (f : α → Bytes) (p : α → Bool) (l : List α) :
    l.flatMap f = (l.filter p).flatMap f ↔ ∀ a ∈ l, p a = false → f a = [] := by
  induction l with
  | nil => simp
  | cons a l ih =>
    have hle := length_flatMap_filter_le f p l
    cases hp : p a with
    | true =>
      rw [List.filter_cons_of_pos hp, List.flatMap_cons, List.flatMap_cons,
        List.append_cancel_left_eq, ih]
      simp [hp]
    | false =>
      rw [List.filter_cons_of_neg (by simp [hp]), List.flatMap_cons]
      constructor
      · intro h
        have hlen := congrArg List.length h
        rw [List.length_append] at hlen
        have ha : f a = [] := List.length_eq_zero_iff.mp (by omega)
        rw [ha, List.nil_append] at h
        intro b hb hpb
        rcases List.mem_cons.mp hb with rfl | hb
        · exact ha
        · exact ih.mp h b hb hpb
      · intro h
        rw [h a List.mem_cons_self hp, List.nil_append]
        exact ih.mpr fun b hb => h b (List.mem_cons_of_mem _ hb)

/-- `cat pre*` is the concatenation of some of the files exactly if every other file that the pattern
matches is empty. -/
theorem catGlob_eq_iff (hs : names.Pairwise (· < ·)) (hmem : ∀ n ∈ names, n ∈ d ∧ pre <+: n) :
    d.catGlob pre = names.flatMap d.content ↔
      ∀ n ∈ d, pre <+: n → n ∉ names → d.content n = [] := by
  have hfilter := filter_glob hs fun n hn => mem_glob.mpr (hmem n hn)
  have h := flatMap_eq_filter_iff d.content (· ∈ names) (d.glob pre)
  rw [hfilter] at h
  unfold catGlob
  rw [h]
  constructor
  · intro h n hn hp hout
    exact h n (mem_glob.mpr ⟨hn, hp⟩) (by simpa using hout)
  · intro h n hn hout
    obtain ⟨hd, hp⟩ := mem_glob.mp hn
    exact h n hd hp (by simpa using hout)

/-! ## Files written one after the other -/

/-- Write the files in turn. -/
def writeAll (d : Directory) (files : List (FileName × Bytes)) : Directory :=
  files.foldl (fun d f => d.insert f.1 f.2) d

theorem content_insert (d : Directory) (n : FileName) (c : Bytes) : content (d.insert n c) n = c := by
  unfold content
  rw [AList.lookup_insert]
  rfl

theorem content_insert_ne (d : Directory) {n m : FileName} (c : Bytes) (h : m ≠ n) :
    content (d.insert n c) m = content d m := by
  unfold content
  rw [AList.lookup_insert_ne h]

theorem mem_writeAll {files : List (FileName × Bytes)} {n : FileName} :
    n ∈ writeAll d files ↔ n ∈ files.map Prod.fst ∨ n ∈ d := by
  induction files generalizing d with
  | nil => simp [writeAll]
  | cons f files ih =>
    have := ih (d := d.insert f.1 f.2)
    unfold writeAll at this ⊢
    rw [List.foldl_cons, this, AList.mem_insert, List.map_cons, List.mem_cons]
    tauto

theorem content_writeAll_of_notMem {files : List (FileName × Bytes)} {n : FileName}
    (h : n ∉ files.map Prod.fst) : content (writeAll d files) n = content d n := by
  induction files generalizing d with
  | nil => rfl
  | cons f files ih =>
    rw [List.map_cons, List.mem_cons, not_or] at h
    have := ih (d := d.insert f.1 f.2) h.2
    unfold writeAll at this ⊢
    rw [List.foldl_cons, this, content_insert_ne _ _ h.1]

/-- A file that is written holds one of the contents written to it. -/
theorem content_writeAll_of_mem {files : List (FileName × Bytes)} {n : FileName}
    (h : n ∈ files.map Prod.fst) : ∃ c, (n, c) ∈ files ∧ content (writeAll d files) n = c := by
  induction files generalizing d with
  | nil => exact absurd h List.not_mem_nil
  | cons f files ih =>
    by_cases hrest : n ∈ files.map Prod.fst
    · obtain ⟨c, hc, hcontent⟩ := ih (d := d.insert f.1 f.2) hrest
      exact ⟨c, List.mem_cons_of_mem _ hc, hcontent⟩
    · rw [List.map_cons] at h
      have hn : n = f.1 := (List.mem_cons.mp h).resolve_right hrest
      refine ⟨f.2, hn ▸ List.mem_cons_self, ?_⟩
      have := content_writeAll_of_notMem (d := d.insert f.1 f.2) hrest
      unfold writeAll at this ⊢
      rw [List.foldl_cons, this, hn, content_insert]

/-- Files of different names hold what was written last. -/
theorem flatMap_content_writeAll {files : List (FileName × Bytes)}
    (hn : (files.map Prod.fst).Nodup) :
    (files.map Prod.fst).flatMap (content (writeAll d files)) = (files.map Prod.snd).flatten := by
  induction files generalizing d with
  | nil => rfl
  | cons f files ih =>
    rw [List.map_cons, List.nodup_cons] at hn
    have hrest := ih (d := d.insert f.1 f.2) hn.2
    have hf := content_writeAll_of_notMem (d := d.insert f.1 f.2) hn.1
    unfold writeAll at hrest hf ⊢
    rw [List.map_cons, List.map_cons, List.flatMap_cons, List.flatten_cons, List.foldl_cons, hrest, hf,
      content_insert]

/-! ## Cutting a stream -/

/-- Pieces of `n` bytes, the last one shorter. -/
def splitPieces (n : Nat) (hn : 0 < n) (s : Bytes) : List Bytes :=
  if _h : s = [] then [] else s.take n :: splitPieces n hn (s.drop n)
termination_by s.length
decreasing_by
  have := List.length_pos_iff.mpr _h
  rw [List.length_drop]; omega

theorem splitPieces_flatten (n : Nat) (hn : 0 < n) (s : Bytes) : (splitPieces n hn s).flatten = s := by
  fun_induction splitPieces n hn s with
  | case1 => rfl
  | case2 s h ih => rw [List.flatten_cons, ih, List.take_append_drop]

/-- There are at most `k` pieces exactly if the stream is not longer than `k` of them. -/
theorem splitPieces_length_le (n : Nat) (hn : 0 < n) (s : Bytes) (k : Nat) :
    (splitPieces n hn s).length ≤ k ↔ s.length ≤ k * n := by
  fun_induction splitPieces n hn s generalizing k with
  | case1 => simp
  | case2 s h ih =>
    have hpos := List.length_pos_iff.mpr h
    cases k with
    | zero => simp [h]
    | succ k =>
      rw [List.length_cons, Nat.add_le_add_iff_right, ih, List.length_drop, Nat.succ_mul]
      omega

/-- The pieces before the `i`th hold less than the stream exactly if there is an `i`th. -/
theorem lt_splitPieces_length (n : Nat) (hn : 0 < n) (s : Bytes) (i : Nat) :
    i < (splitPieces n hn s).length ↔ i * n < s.length := by
  have := splitPieces_length_le n hn s i
  omega

end Directory
