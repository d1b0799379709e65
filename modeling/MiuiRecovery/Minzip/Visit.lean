import MiuiRecovery.Minzip.Extract

/-!
# The entries that an extraction visits

The names are sorted, so the entries below a directory stand together, and the loop of `mzExtractRecursive` can stop
behind them. Their paths are built in one buffer.

* `Ready`: what the buffer holds between two entries.
* `targetEntryPath_spec`: a path is built in the buffer, or there is no memory.
* `extractWith_eq`: the loop is a walk over the matching entries.
-/

namespace Miui.Zip

open Insertion (Sorted)

/-! ## The buffer of the paths -/

/-- What every path starts with. -/
def base (targetDir : Bytes) : Bytes :=
  if targetDir = [] ∨ targetDir.getLast? ≠ some 47 then targetDir ++ [47] else targetDir

/-- The path of an entry: the directory, a slash unless it ends with one, and the rest of the name. -/
def targetPath (m : MemMapping) (targetDir zpath : Bytes) (e : ZipEntry) : Bytes :=
  base targetDir ++ (e.name m).drop zpath.length

variable {buf pre targetDir zpath : Bytes} {helper : MzPathHelper}

theorem base_length (targetDir : Bytes) : (base targetDir).length ≤ targetDir.length + 1 := by
  unfold base
  split <;> simp

theorem memcpy_spec (data : Bytes) (hpre : pre <+: buf) (hroom : pre.length + data.length ≤ buf.length) :
    ∃ buf', memcpy buf pre.length data = some buf' ∧ pre ++ data <+: buf' ∧ buf'.length = buf.length := by
  refine ⟨_, if_pos hroom, ?_, ?_⟩
  · rw [← List.prefix_iff_eq_take.mp hpre]
    exact List.prefix_append _ _
  · simp only [List.length_append, List.length_take, List.length_drop]
    omega

/-- The start of a path is written where there is room for it. -/
theorem startPath_spec (targetDir buf : Bytes) :
    if (base targetDir).length ≤ buf.length then
      ∃ buf', startPath targetDir buf = some (buf', (base targetDir).length) ∧ base targetDir <+: buf' ∧
        buf'.length = buf.length
    else startPath targetDir buf = none := by
  unfold startPath base
  by_cases hdir : targetDir.length ≤ buf.length
  · obtain ⟨buf₁, hcopy, hpre, hlen⟩ := memcpy_spec targetDir (List.nil_prefix (l := buf)) (by simpa using hdir)
    rw [List.nil_append] at hpre
    have hcopy : memcpy buf 0 targetDir = some buf₁ := hcopy
    by_cases hslash : targetDir = [] ∨ targetDir.getLast? ≠ some 47
    · simp only [hcopy, Option.bind_eq_bind, Option.bind_some, if_pos hslash, List.length_append, List.length_singleton]
      split
      · rename_i hroom
        obtain ⟨buf₂, hcopy₂, hpre₂, hlen₂⟩ := memcpy_spec [47] hpre (by simp; omega)
        exact ⟨buf₂, by rw [hcopy₂]; rfl, hpre₂, by omega⟩
      · rename_i hroom
        rw [show memcpy buf₁ targetDir.length [47] = none from if_neg (by simp; omega)]
        rfl
    · simp only [hcopy, Option.bind_eq_bind, Option.bind_some, if_neg hslash, if_pos hdir]
      exact ⟨buf₁, rfl, hpre, hlen⟩
  · have hcopy : memcpy buf 0 targetDir = none := if_neg (by simpa using hdir)
    rw [if_neg (by split <;> simp <;> omega), hcopy]
    rfl

/-- What stood in the buffer stays as far as it reaches. A length that is a positive `int` is enough of it. -/
theorem growPath_spec (mem : PathMemory) (needLen : Int) (hbuf : helper.bufLen ≤ (helper.buf.getD []).length) :
    growPath mem helper needLen = none ∧ (∃ n, mem.realloc n = none) ∨
      ∃ buf bufLen, growPath mem helper needLen = some ⟨helper.targetDirLen, buf, bufLen⟩ ∧
        bufLen ≤ (buf.getD []).length ∧ (0 < needLen → needLen < 2 ^ 31 → buf ≠ none ∧ needLen ≤ (buf.getD []).length) ∧
        ∀ pre, pre <+: helper.buf.getD [] → pre.length ≤ (buf.getD []).length → pre <+: buf.getD [] := by
  unfold growPath
  by_cases hgrow : needLen > helper.bufLen
  · rw [if_pos hgrow]
    cases hnew : mem.realloc (asSize (needLen * 2)) with
    | none => exact .inl ⟨rfl, _, hnew⟩
    | some newBuf =>
      have hlength : ((helper.buf.getD []).take newBuf.toList.length ++
          newBuf.toList.drop (helper.buf.getD []).length).length = asSize (needLen * 2) := by
        simp only [List.length_append, List.length_take, List.length_drop, newBuf.toList_length]
        omega
      refine .inr ⟨_, _, rfl, ?_, fun hpos hint => ⟨Option.some_ne_none _, ?_⟩, fun pre hpre hle => ?_⟩
      · rw [Option.getD_some, hlength]
        unfold asInt asSize
        split <;> omega
      · rw [Option.getD_some, hlength]
        unfold asSize
        omega
      · rw [Option.getD_some] at hle ⊢
        refine List.IsPrefix.trans ?_ (List.prefix_append _ _)
        rw [List.prefix_take_iff, newBuf.toList_length, ← hlength]
        exact ⟨hpre, hle⟩
  · rw [if_neg hgrow]
    refine .inr ⟨helper.buf, helper.bufLen, rfl, hbuf, fun hpos _ => ⟨fun hnone => ?_, by omega⟩, fun pre hpre _ => hpre⟩
    rw [hnone] at hbuf
    simp only [Option.getD_none, List.length_nil] at hbuf
    omega

/-- The helper between two entries: fresh, or with the start of the paths in its buffer. -/
structure Ready (targetDir : Bytes) (helper : MzPathHelper) : Prop where
  bufLen : helper.bufLen ≤ (helper.buf.getD []).length
  fresh : helper.buf = none → helper.targetDirLen = targetDir.length
  started : ∀ buf, helper.buf = some buf → helper.targetDirLen = (base targetDir).length ∧ base targetDir <+: buf

theorem cstr_of_prefix {s : Bytes} (hs : (0 : UInt8) ∉ s) (h : s ++ [0] <+: buf) : CString.cstr buf = s := by
  obtain ⟨rest, rfl⟩ := h
  rw [List.append_assoc]
  unfold CString.cstr
  have hall : ∀ c ∈ s, (c != 0) = true := fun c hc => bne_iff_ne.mpr (ne_of_mem_of_not_mem hc hs)
  rw [List.takeWhile_append_of_pos hall]
  simp

theorem base_no_nul (h : (0 : UInt8) ∉ targetDir) : (0 : UInt8) ∉ base targetDir := by
  unfold base
  split
  · simpa using h
  · exact h

variable {m : MemMapping} {e : ZipEntry}

theorem targetPath_no_nul (hdir : (0 : UInt8) ∉ targetDir) (hheld : Held m e) :
    (0 : UInt8) ∉ targetPath m targetDir zpath e := fun h =>
  (List.mem_append.mp h).elim (base_no_nul hdir) fun h => hheld.printable.no_nul (List.mem_of_mem_drop h)

/-- The lengths of the paths below `targetDir` are values of the type `int`. -/
def Short (targetDir : Bytes) : Prop := targetDir.length + 2 + PATH_MAX < 2 ^ 31

/-- The path is built inside the buffer, unless there is no memory for it or its length is no `int`. -/
theorem targetEntryPath_spec (mem : PathMemory) (hready : Ready targetDir helper) (hdir : (0 : UInt8) ∉ targetDir)
    (hheld : Held m e) (hname : e.fileNameLen < PATH_MAX) (hzpath : zpath.length ≤ e.fileNameLen) :
    targetEntryPath m mem targetDir zpath helper e = .null ∧ (∃ n, mem.realloc n = none) ∨
      targetEntryPath m mem targetDir zpath helper e = .outOfBounds ∧ ¬ Short targetDir ∨
        ∃ helper', targetEntryPath m mem targetDir zpath helper e = .path (targetPath m targetDir zpath e) helper' ∧
          Ready targetDir helper' := by
  have hbase := base_length targetDir
  unfold targetEntryPath
  simp only []
  rcases growPath_spec mem (asInt (helper.targetDirLen + 1 + (e.fileNameLen - zpath.length) + 1)) hready.bufLen with
    ⟨hnull, hmem⟩ | ⟨grown, bufLen, hgrown, hbuf, hroom, hkept⟩
  · rw [hnull]
    exact .inl ⟨rfl, hmem⟩
  rw [hgrown]
  -- With a short directory there is room for the whole path.
  have hneed (hshort : Short targetDir) : grown ≠ none ∧
      helper.targetDirLen + 1 + (e.fileNameLen - zpath.length) + 1 ≤ (grown.getD []).length := by
    have hlen : helper.targetDirLen ≤ targetDir.length + 1 := by
      cases hb : helper.buf with
      | none => rw [hready.fresh hb]; omega
      | some buf => rw [(hready.started buf hb).1]; exact hbase
    unfold Short at hshort
    rw [asInt_of_lt (by omega)] at hroom
    have hroom := hroom (by omega) (by omega)
    exact ⟨hroom.1, by omega⟩
  have hfull (hshort : Short targetDir) :
      (base targetDir).length + (e.fileNameLen - zpath.length) + 1 ≤ (grown.getD []).length := by
    have hneed := (hneed hshort).2
    cases hb : helper.buf with
    | none => rw [hready.fresh hb] at hneed; omega
    | some buf => rw [(hready.started buf hb).1] at hneed; omega
  refine .inr ?_
  simp only []
  cases grown with
  | none => exact .inl ⟨rfl, fun hshort => (hneed hshort).1 rfl⟩
  | some buf =>
    simp only [Option.getD_some] at hbuf hkept hfull
    have hstart : (if helper.buf.isNone then startPath targetDir buf else some (buf, helper.targetDirLen)) = none ∧
        ¬ Short targetDir ∨ ∃ buf', (if helper.buf.isNone then startPath targetDir buf
          else some (buf, helper.targetDirLen)) = some (buf', (base targetDir).length) ∧
            ((base targetDir).length ≤ buf'.length → base targetDir <+: buf') ∧ buf'.length = buf.length := by
      cases hb : helper.buf with
      | none =>
        have hspec := startPath_spec targetDir buf
        rw [if_pos Option.isNone_none]
        split at hspec
        · obtain ⟨buf', hstart, hpre, hlen⟩ := hspec
          exact .inr ⟨buf', hstart, fun _ => hpre, hlen⟩
        · exact .inl ⟨hspec, fun hshort => by have := hfull hshort; omega⟩
      | some old =>
        obtain ⟨htarget, hpre⟩ := hready.started old hb
        rw [if_neg (by simp), htarget]
        exact .inr ⟨buf, rfl, hkept _ (by rw [hb]; exact hpre), rfl⟩
    simp only []
    rcases hstart with ⟨hstart, hlong⟩ | ⟨buf', hstart, hpre, hlen'⟩
    · rw [hstart]
      exact .inl ⟨rfl, hlong⟩
    rw [hstart]
    simp only []
    have hrest : ((e.name m).drop zpath.length ++ [0]).length = e.fileNameLen - zpath.length + 1 := by
      rw [List.length_append, List.length_drop, hheld.length, List.length_singleton]
    by_cases hcopy : (base targetDir).length + ((e.name m).drop zpath.length ++ [0]).length ≤ buf'.length
    · obtain ⟨buf'', hcopy, hpre', hlen''⟩ := memcpy_spec _ (hpre (by omega)) hcopy
      rw [hcopy]
      rw [← List.append_assoc] at hpre'
      have hpath : CString.cstr buf'' = targetPath m targetDir zpath e :=
        cstr_of_prefix (targetPath_no_nul hdir hheld) hpre'
      simp only [hpath]
      refine .inr ⟨_, rfl, ?_, (fun h => nomatch h), fun b hb => ?_⟩
      · show bufLen ≤ buf''.length
        omega
      · obtain rfl := Option.some.inj hb
        refine ⟨rfl, List.IsPrefix.trans ?_ hpre'⟩
        rw [List.append_assoc]
        exact List.prefix_append _ _
    · rw [show memcpy buf' _ _ = none from if_neg hcopy]
      exact .inl ⟨rfl, fun hshort => by have := hfull hshort; omega⟩

/-! ## The loop -/

/-- The loop body for each of the entries with its path, and `stop` behind them. -/
def visitAll (body : ZipEntry → Bytes → Prog ZipOp Next) (stop : Prog ZipOp Bool) :
    List (ZipEntry × Bytes) → Prog ZipOp Bool
  | [] => stop
  | (pEntry, targetFile) :: rest => do
    match ← body pEntry targetFile with
    | .leave ok => pure ok
    | .next => visitAll body stop rest

/-- What comes behind the entries that are visited: nothing, when these are all, or else there is no memory for the next
path, or its length is no `int`. -/
inductive Ending (mem : PathMemory) (targetDir : Bytes) (all : Prop) : Prog ZipOp Bool → Prop
  | all (h : all) : Ending mem targetDir all (pure true)
  | noMemory {n : Nat} (h : mem.realloc n = none) : Ending mem targetDir all (pure false)
  | outOfBounds {k : Empty → Prog ZipOp Bool} (h : ¬ Short targetDir) : Ending mem targetDir all (.op .endless k)

theorem Ending.imp {mem : PathMemory} {p q : Prop} {stop : Prog ZipOp Bool} (h : Ending mem targetDir p stop)
    (hpq : p → q) : Ending mem targetDir q stop := by
  cases h with
  | all h => exact .all (hpq h)
  | noMemory h => exact .noMemory h
  | outOfBounds h => exact .outOfBounds h

/-- The entries below a directory of the archive. -/
def below (m : MemMapping) (pEntries : List ZipEntry) (zpath : Bytes) : List ZipEntry :=
  pEntries.filter fun e => zpath <+: e.name m

theorem below_cons_pos {es : List ZipEntry} (h : zpath <+: e.name m) : below m (e :: es) zpath = e :: below m es zpath :=
  List.filter_cons_of_pos (decide_eq_true h)

theorem below_cons_neg {es : List ZipEntry} (h : ¬ zpath <+: e.name m) : below m (e :: es) zpath = below m es zpath :=
  List.filter_cons_of_neg (by simpa using h)

/-- Behind a name with the prefix and one without there is none with it. -/
theorem below_nil {es : List ZipEntry} {s : Bytes} (hsorted : Sorted (ZipEntry.name m) (e :: es)) (hs : zpath <+: s)
    (hle : s ≤ e.name m) (h : ¬ zpath <+: e.name m) : below m es zpath = [] := by
  rw [below, List.filter_eq_nil_iff]
  intro e' he' hmatch
  exact h (Insertion.prefix_of_between hs (of_decide_eq_true hmatch) hle (List.rel_of_pairwise_cons hsorted he'))

/-- The two tests of the loop. -/
theorem matches_iff (hheld : Held m e) (zpath : Bytes) :
    zpath <+: e.name m ↔ ¬ e.fileNameLen < zpath.length ∧ memcmp ((e.name m).take zpath.length) zpath = 0 := by
  rw [List.prefix_iff_eq_take]
  constructor
  · intro h
    have hlen := congrArg List.length h
    rw [List.length_take, hheld.length] at hlen
    refine ⟨by omega, ?_⟩
    rw [← h, memcmp_eq_zero rfl]
  · rintro ⟨hlen, h⟩
    exact ((memcmp_eq_zero (by rw [List.length_take, hheld.length]; omega)).mp h).symm

variable {body : ZipEntry → Bytes → Prog ZipOp Next}

theorem extractLoop_eq (mem : PathMemory) (hdir : (0 : UInt8) ∉ targetDir) {es : List ZipEntry}
    (hsorted : Sorted (ZipEntry.name m) es) (hheld : ∀ e ∈ es, Held m e) (hname : ∀ e ∈ es, e.fileNameLen < PATH_MAX)
    {seenMatch : Bool} (hseen : seenMatch = true → ∃ s, zpath <+: s ∧ ∀ e ∈ es, s ≤ e.name m)
    (hready : Ready targetDir helper) :
    ∃ n ≤ (below m es zpath).length, ∃ stop, Ending mem targetDir (n = (below m es zpath).length) stop ∧
      extractLoop m mem targetDir zpath body es seenMatch helper =
        visitAll body stop (((below m es zpath).take n).map fun e => (e, targetPath m targetDir zpath e)) := by
  induction es generalizing seenMatch helper with
  | nil => exact ⟨0, Nat.le_refl _, _, .all rfl, rfl⟩
  | cons e es ih =>
    have hheld' : ∀ e ∈ es, Held m e := fun e he => hheld e (List.mem_cons_of_mem _ he)
    have hname' : ∀ e ∈ es, e.fileNameLen < PATH_MAX := fun e he => hname e (List.mem_cons_of_mem _ he)
    have htail := List.Pairwise.of_cons hsorted
    have htest := matches_iff (hheld e List.mem_cons_self) zpath
    by_cases hmatch : zpath <+: e.name m
    · obtain ⟨hlen, hcmp⟩ := htest.mp hmatch
      rw [below_cons_pos hmatch, extractLoop, if_neg hlen, if_neg (not_not.mpr hcmp)]
      rcases targetEntryPath_spec mem hready hdir (hheld e List.mem_cons_self) (hname e List.mem_cons_self)
        (not_lt.mp hlen) with ⟨hnull, k, hk⟩ | ⟨hout, hlong⟩ | ⟨helper', hpath, hready'⟩
      · rw [hnull]
        exact ⟨0, Nat.zero_le _, _, .noMemory hk, rfl⟩
      · rw [hout]
        exact ⟨0, Nat.zero_le _, _, .outOfBounds hlong, rfl⟩
      · rw [hpath]
        have hseen' : true = true → ∃ s, zpath <+: s ∧ ∀ e' ∈ es, s ≤ e'.name m :=
          fun _ => ⟨e.name m, hmatch, fun e' he' => List.rel_of_pairwise_cons hsorted he'⟩
        obtain ⟨n, hn, stop, hending, hrun⟩ := ih htail hheld' hname' hseen' hready'
        refine ⟨n + 1, Nat.succ_le_succ hn, stop, hending.imp fun h => congrArg (· + 1) h, ?_⟩
        rw [List.take_succ_cons, List.map_cons, visitAll]
        refine congrArg (body e _ >>= ·) (funext fun r => ?_)
        cases r with
        | leave ok => rfl
        | next => exact hrun
    · rw [below_cons_neg hmatch]
      have hskip : extractLoop m mem targetDir zpath body (e :: es) seenMatch helper =
          if seenMatch then pure true else extractLoop m mem targetDir zpath body es seenMatch helper := by
        rw [extractLoop]
        by_cases hlen : e.fileNameLen < zpath.length
        · rw [if_pos hlen]
        · rw [if_neg hlen, if_pos fun hcmp => hmatch (htest.mpr ⟨hlen, hcmp⟩)]
      rw [hskip]
      cases seenMatch with
      | true =>
        obtain ⟨s, hs, hle⟩ := hseen rfl
        rw [below_nil hsorted hs (hle e List.mem_cons_self) hmatch]
        exact ⟨0, Nat.le_refl _, _, .all rfl, rfl⟩
      | false => exact ih htail hheld' hname' (fun h => nomatch h) hready

/-- The loop over an archive that is accepted, from its start. -/
theorem extractLoop_start {mem : Memory} {a : ZipArchive} (h : parseZipArchive m mem = .ok a) (paths : PathMemory)
    (targetDir zpath : Bytes) (body : ZipEntry → Bytes → Prog ZipOp Next) :
    ∃ n ≤ (below m a.pEntries zpath).length, ∃ stop,
      Ending paths (CString.cstr targetDir) (n = (below m a.pEntries zpath).length) stop ∧
        extractLoop m paths (CString.cstr targetDir) zpath body a.pEntries false
          ⟨(CString.cstr targetDir).length, none, 0⟩ =
          visitAll body stop
            (((below m a.pEntries zpath).take n).map fun e => (e, targetPath m (CString.cstr targetDir) zpath e)) := by
  obtain ⟨hadmitted, hheld, hsorted⟩ := parse_accepted h
  have hname : ∀ e ∈ a.pEntries, e.fileNameLen < PATH_MAX := fun e he => by
    obtain ⟨p, -, hp, rfl⟩ := hadmitted e he
    exact hp.named.short
  exact extractLoop_eq paths (CString.not_mem_cstr _) hsorted hheld hname (fun h => nomatch h)
    ⟨Int.le_refl _, fun _ => rfl, fun _ h => nomatch h⟩

def PathMemory.enough : PathMemory := ⟨true, fun n => some (List.Vector.replicate n 0)⟩

/-- No `int` holds the length of the paths. -/
theorem targetEntryPath_overlong (mem : PathMemory) (hlow : 2 ^ 31 ≤ targetDir.length + 2 + e.fileNameLen)
    (hhigh : targetDir.length + 2 + e.fileNameLen < 2 ^ 32) :
    targetEntryPath m mem targetDir [] ⟨targetDir.length, none, 0⟩ e = .outOfBounds := by
  have hneg : ¬ asInt (targetDir.length + 1 + (e.fileNameLen - ([] : Bytes).length) + 1) > 0 := by
    rw [List.length_nil]
    unfold asInt
    split <;> omega
  unfold targetEntryPath growPath
  simp only [if_neg hneg]

end Miui.Zip
