import MiuiRecovery.Lib.Directory
import Mathlib.Data.List.Infix

/-!
# Split archives

The tar handlers of `nandroid.cpp`: a backup cuts the archive into `<image>.tar.a`, `<image>.tar.b`, …
and a restore reads back `<image>.tar*`. `Make_MD5` writes a `.md5` file next to every file of the same
directory.

* `run_unchanged`, `run_md5`: what the steps after a backup do to the files of its pattern.
* `tarReassembled_iff`: the archive comes back, and a failed producer is reported, exactly if no digest
  is written next to it, nothing older is left under the pattern and the producers succeeded.
* `tarReassembled_md5`: a digest becomes part of the archive.
-/

namespace Miui

open Directory

/-! ## Commands -/

/-- `touch` -/
def touch (d : Directory) (n : FileName) : Directory := if n ∈ d then d else d.insert n []

/-- The argument of `split -b`. -/
def SPLIT_BYTES : Nat := 1000000000

/-- The one-letter suffixes of `split -a 1`. -/
def SPLIT_SUFFIXES : Nat := 26

/-- `<file>.a`, `<file>.b`, … -/
def pieceName (file : FileName) (i : Nat) : FileName := file ++ ['.', Char.ofNat ('a'.toNat + i)]

/-- The pieces of a stream under their names. -/
def pieces (file : FileName) (stream : Bytes) : List (FileName × Bytes) :=
  ((splitPieces SPLIT_BYTES (by decide) stream).take SPLIT_SUFFIXES).mapIdx fun i c =>
    (pieceName file i, c)

/-- `split -a 1 -b 1000000000 /proc/self/fd/0 <file>.` with `room` bytes left on the volume. It fails at
the first write that does, and when the letters are used up. -/
def split (room : Nat) (stream : Bytes) (file : FileName) (d : Directory) : Directory × Int :=
  (writeAll d (pieces file (stream.take room)),
    if stream.length ≤ room ∧ stream.length ≤ SPLIT_SUFFIXES * SPLIT_BYTES then 0 else 1)

/-- The exit status of a pipeline. -/
def pipeStatus (statuses : List Int) : Int := statuses.getLast?.getD 0

/-! ## Backup -/

/-- A backup of one partition: `<name>.<filesystem>`, the bytes that reach `split`, the bytes that the
volume takes, the exit status of the commands before `split` and whether the shell could be started. -/
structure TarBackup where
  backup_file_image : FileName
  stream : Bytes
  room : Nat
  tar_status : Int
  pigz_status : Int
  popen : Bool

variable (t : TarBackup)

/-- `do_tar_compress`: the wait status of the shell. -/
def doTarCompress (command : Directory → Directory × Int) (d : Directory) : Directory × Int :=
  if t.popen then ((command d).1, (command d).2 * 256) else (d, -1)

/-- `touch <file> ; (<producers> | split …) ; exit $?` -/
def tarCommand (file : FileName) (producers : List Int) (d : Directory) : Directory × Int :=
  let cut := split t.room t.stream file (touch d file)
  (cut.1, pipeStatus (producers ++ [cut.2]))

def TAR : FileName := ['.', 't', 'a', 'r']

def TAR_GZ : FileName := ['.', 't', 'a', 'r', '.', 'g', 'z']

def tarCompressWrapper (d : Directory) : Directory × Int :=
  doTarCompress t (tarCommand t (t.backup_file_image ++ TAR) [t.tar_status]) d

def tarGzipCompressWrapper (d : Directory) : Directory × Int :=
  doTarCompress t (tarCommand t (t.backup_file_image ++ TAR_GZ) [t.tar_status, t.pigz_status]) d

/-! ## Restore -/

/-- What `cat <file>*` feeds to `tar xv`. -/
def tarExtractWrapper (backup_file_image : FileName) (d : Directory) : Bytes :=
  d.catGlob backup_file_image

/-- What `cat <file>*` feeds to `pigz -d -c | tar xv`. -/
def tarGzipExtractWrapper (backup_file_image : FileName) (d : Directory) : Bytes :=
  d.catGlob backup_file_image

/-! ## Digests -/

def MD5_SUFFIX : FileName := ['.', 'm', 'd', '5']

/-- `get_files` -/
def getFiles (d : Directory) : List FileName :=
  d.keys.filter fun n => ¬ MD5_SUFFIX <:+: n ∧ 4 ≤ n.length

/-- The text that `write_md5digest` writes. -/
def md5digest (md5 : Bytes → List Char) (d : Directory) (n : FileName) : Bytes :=
  (md5 (d.content n) ++ [' '] ++ n ++ ['\n']).map fun c => c.toNat.toUInt8

/-- `Make_MD5` with the hexadecimal digest `md5`. -/
def makeMD5 (md5 : Bytes → List Char) (d : Directory) : Directory :=
  writeAll d ((getFiles d).map fun n => (n ++ MD5_SUFFIX, md5digest md5 d n))

/-- A step between the backup of `file` and its restore. -/
inductive Step (file : FileName)
  /-- The backup of another partition. -/
  | backup (files : List (FileName × Bytes)) (other : ∀ f ∈ files, ¬ file <+: f.1)
  | makeMD5

def Step.run {file : FileName} (md5 : Bytes → List Char) (d : Directory) : Step file → Directory
  | .backup files _ => writeAll d files
  | .makeMD5 => Miui.makeMD5 md5 d

def runSteps {file : FileName} (md5 : Bytes → List Char) (d : Directory) (steps : List (Step file)) :
    Directory :=
  steps.foldl (Step.run md5) d

/-! ## The two formats -/

inductive ArchiveFormat
  | tar
  | tar_gz
deriving DecidableEq

/-- The name that the backup touches and the restore finds. -/
def TarBackup.file : ArchiveFormat → FileName
  | .tar => t.backup_file_image ++ TAR
  | .tar_gz => t.backup_file_image ++ TAR_GZ

def TarBackup.compress : ArchiveFormat → Directory → Directory × Int
  | .tar => tarCompressWrapper t
  | .tar_gz => tarGzipCompressWrapper t

def ArchiveFormat.extract : ArchiveFormat → FileName → Directory → Bytes
  | .tar => tarExtractWrapper
  | .tar_gz => tarGzipExtractWrapper

def TarBackup.producers : ArchiveFormat → List Int
  | .tar => [t.tar_status]
  | .tar_gz => [t.tar_status, t.pigz_status]

/-- A backup that returned 0 is restored exactly, and one whose tar or pigz failed does not return 0. -/
structure TarReassembled (md5 : Bytes → List Char) (format : ArchiveFormat) (earlier : Directory)
    (steps : List (Step (t.file format))) : Prop where
  exact : (t.compress format earlier).2 = 0 →
    format.extract (t.file format) (runSteps md5 (t.compress format earlier).1 steps) = t.stream
  reported : (∃ s ∈ t.producers format, s ≠ 0) → (t.compress format earlier).2 ≠ 0

/-- `split` starts, has room and letters for all of the stream. -/
def TarBackup.splits : Prop :=
  t.popen = true ∧ t.stream.length ≤ t.room ∧ t.stream.length ≤ SPLIT_SUFFIXES * SPLIT_BYTES

/-- The producers succeed, no digest is written next to the archive and every older file under the
pattern that is not a piece of the new archive is empty. -/
structure TarFits (format : ArchiveFormat) (earlier : Directory)
    (steps : List (Step (t.file format))) : Prop where
  produced : ∀ s ∈ t.producers format, s = 0
  noDigest : Step.makeMD5 ∈ steps → MD5_SUFFIX <:+: t.file format
  noStale : ∀ n ∈ earlier, t.file format <+: n →
    (∀ i, i * SPLIT_BYTES < t.stream.length → n ≠ pieceName (t.file format) i) →
    earlier.content n = []

/-! ## Names -/

theorem pieceName_lt {file : FileName} {i j : Nat} (hij : i < j) (hj : j < SPLIT_SUFFIXES) :
    pieceName file i < pieceName file j := by
  unfold pieceName
  apply List.append_left_lt
  have : ∀ j < SPLIT_SUFFIXES, ∀ i < j,
      (['.', Char.ofNat ('a'.toNat + i)] : FileName) < ['.', Char.ofNat ('a'.toNat + j)] := by decide
  exact this j hj i hij

theorem prefix_pieceName (file : FileName) (i : Nat) : file <+: pieceName file i :=
  List.prefix_append _ _

theorem pieceName_ne (file : FileName) (i : Nat) : pieceName file i ≠ file := by
  intro h
  have := congrArg List.length h
  unfold pieceName at this
  simp at this

/-- A digest's name ends in a digit, a piece's name in a letter. -/
theorem not_md5_pieceName {file : FileName} {i : Nat} (hi : i < SPLIT_SUFFIXES) :
    ¬ MD5_SUFFIX <:+ pieceName file i := by
  rintro ⟨pre, h⟩
  have h := congrArg List.getLast? h
  unfold pieceName MD5_SUFFIX at h
  rw [List.getLast?_append, List.getLast?_append] at h
  have : ∀ i < SPLIT_SUFFIXES, '5' ≠ Char.ofNat ('a'.toNat + i) := by decide
  exact this i hi (by simpa using h)

/-- The name of an archive ends in `r` or `z`. -/
theorem file_ne_concat {format : ArchiveFormat} {n : FileName} {c : Char} (hr : c ≠ 'r')
    (hz : c ≠ 'z') : t.file format ≠ n ++ [c] := by
  intro h
  have h := congrArg List.getLast? h
  cases format
  · have : some 'r' = some c := by simpa [TarBackup.file, TAR] using h
    exact hr (Option.some.inj this).symm
  · have : some 'z' = some c := by simpa [TarBackup.file, TAR_GZ] using h
    exact hz (Option.some.inj this).symm

/-- No part of `.md5` completes the name of an archive. -/
theorem prefix_of_prefix_md5 {format : ArchiveFormat} {n : FileName}
    (h : t.file format <+: n ++ MD5_SUFFIX) : t.file format <+: n := by
  have hdrop : ∀ {m : FileName} {c : Char}, c ≠ 'r' → c ≠ 'z' →
      t.file format <+: m ++ [c] → t.file format <+: m := by
    intro m c hr hz h
    exact (List.prefix_concat_iff.mp h).resolve_left (file_ne_concat t hr hz)
  have hsplit : n ++ MD5_SUFFIX = n ++ ['.'] ++ ['m'] ++ ['d'] ++ ['5'] := by simp [MD5_SUFFIX]
  rw [hsplit] at h
  have h := hdrop (by decide) (by decide) h
  have h := hdrop (by decide) (by decide) h
  have h := hdrop (by decide) (by decide) h
  exact hdrop (by decide) (by decide) h

theorem four_le_length_file (format : ArchiveFormat) : 4 ≤ (t.file format).length := by
  cases format <;> simp [TarBackup.file, TAR, TAR_GZ]

/-! ## The directory after a backup -/

section Backup

variable {d : Directory} (file : FileName) {n : FileName}

theorem mem_touch {file : FileName} : n ∈ touch d file ↔ n = file ∨ n ∈ d := by
  unfold touch
  split
  · rename_i h
    constructor
    · exact Or.inr
    · rintro (rfl | h')
      · exact h
      · exact h'
  · exact AList.mem_insert _

theorem content_touch {file : FileName} : content (touch d file) n = content d n := by
  unfold touch
  split
  · rfl
  · rename_i h
    by_cases hn : n = file
    · subst hn
      rw [content_insert]
      unfold content
      rw [AList.lookup_eq_none.mpr h]
      rfl
    · rw [content_insert_ne _ _ hn]

theorem pieces_map_snd (stream : Bytes) (h : stream.length ≤ SPLIT_SUFFIXES * SPLIT_BYTES) :
    ((pieces file stream).map Prod.snd).flatten = stream := by
  have hlen := (splitPieces_length_le SPLIT_BYTES (by decide) stream SPLIT_SUFFIXES).mpr h
  have hsnd : (pieces file stream).map Prod.snd = splitPieces SPLIT_BYTES (by decide) stream := by
    unfold pieces
    rw [List.take_of_length_le hlen]
    apply List.ext_getElem
    · simp
    · simp
  rw [hsnd, splitPieces_flatten]

theorem pieces_map_fst (stream : Bytes) (h : stream.length ≤ SPLIT_SUFFIXES * SPLIT_BYTES) :
    (pieces file stream).map Prod.fst =
      (List.range (splitPieces SPLIT_BYTES (by decide) stream).length).map (pieceName file) := by
  have hlen := (splitPieces_length_le SPLIT_BYTES (by decide) stream SPLIT_SUFFIXES).mpr h
  unfold pieces
  rw [List.take_of_length_le hlen]
  apply List.ext_getElem
  · simp
  · simp

theorem pieces_sorted (stream : Bytes) (h : stream.length ≤ SPLIT_SUFFIXES * SPLIT_BYTES) :
    ((pieces file stream).map Prod.fst).Pairwise (· < ·) := by
  have hlen := (splitPieces_length_le SPLIT_BYTES (by decide) stream SPLIT_SUFFIXES).mpr h
  rw [pieces_map_fst file stream h, List.pairwise_map]
  apply List.Pairwise.imp_of_mem _ List.pairwise_lt_range
  intro i j _ hj hij
  exact pieceName_lt hij (Nat.lt_of_lt_of_le (List.mem_range.mp hj) hlen)

theorem mem_pieces_iff (stream : Bytes) (h : stream.length ≤ SPLIT_SUFFIXES * SPLIT_BYTES) :
    n ∈ (pieces file stream).map Prod.fst ↔
      ∃ i, i * SPLIT_BYTES < stream.length ∧ n = pieceName file i := by
  rw [pieces_map_fst file stream h, List.mem_map]
  constructor
  · rintro ⟨i, hi, rfl⟩
    exact ⟨i, (lt_splitPieces_length _ _ _ _).mp (List.mem_range.mp hi), rfl⟩
  · rintro ⟨i, hi, rfl⟩
    exact ⟨i, List.mem_range.mpr ((lt_splitPieces_length _ _ _ _).mpr hi), rfl⟩

end Backup

/-! ## The steps after a backup -/

section Steps

variable {t : TarBackup} (md5 : Bytes → List Char) {format : ArchiveFormat} {d : Directory}
  {n : FileName}

/-- The digests are those of files of the archive, and only if its name is not passed over. -/
theorem mem_digests (h : n ∈ ((getFiles d).map fun m => (m ++ MD5_SUFFIX, md5digest md5 d m)).map
    Prod.fst) (hn : t.file format <+: n) :
    MD5_SUFFIX <:+ n ∧ ¬ MD5_SUFFIX <:+: t.file format := by
  rw [List.map_map, List.mem_map] at h
  obtain ⟨m, hm, rfl⟩ := h
  obtain ⟨-, hm⟩ := List.mem_filter.mp hm
  obtain ⟨hm, -⟩ := of_decide_eq_true hm
  have hpre := prefix_of_prefix_md5 t hn
  exact ⟨List.suffix_append _ _, fun hin => hm (hin.trans hpre.isInfix)⟩

/-- A step leaves a file under the pattern as it is, except that `Make_MD5` writes the digests. -/
theorem step_unchanged (s : Step (t.file format)) (hn : t.file format <+: n)
    (h : s = .makeMD5 → ¬ (MD5_SUFFIX <:+ n ∧ ¬ MD5_SUFFIX <:+: t.file format)) :
    (n ∈ s.run md5 d ↔ n ∈ d) ∧ content (s.run md5 d) n = content d n := by
  cases s with
  | backup files other =>
    have hout : n ∉ files.map Prod.fst := by
      intro hmem
      obtain ⟨f, hf, rfl⟩ := List.mem_map.mp hmem
      exact other f hf hn
    exact ⟨by simp only [Step.run, mem_writeAll, hout, false_or], content_writeAll_of_notMem hout⟩
  | makeMD5 =>
    have hout : n ∉ ((getFiles d).map fun m => (m ++ MD5_SUFFIX, md5digest md5 d m)).map Prod.fst :=
      fun hmem => h rfl (mem_digests md5 hmem hn)
    exact ⟨by simp only [Step.run, makeMD5, mem_writeAll, hout, false_or],
      content_writeAll_of_notMem hout⟩

theorem run_unchanged (steps : List (Step (t.file format))) (hn : t.file format <+: n)
    (h : .makeMD5 ∈ steps → ¬ (MD5_SUFFIX <:+ n ∧ ¬ MD5_SUFFIX <:+: t.file format)) :
    (n ∈ runSteps md5 d steps ↔ n ∈ d) ∧ content (runSteps md5 d steps) n = content d n := by
  induction steps generalizing d with
  | nil => exact ⟨Iff.rfl, rfl⟩
  | cons s steps ih =>
    have hs := step_unchanged md5 (d := d) s hn fun hs => h (hs ▸ List.mem_cons_self)
    have hrest := ih (d := s.run md5 d) fun hmem => h (List.mem_cons_of_mem _ hmem)
    exact ⟨hrest.1.trans hs.1, hrest.2.trans hs.2⟩

/-- There is a digest of the file `n`. -/
def HasDigest (d : Directory) (n : FileName) : Prop :=
  n ++ MD5_SUFFIX ∈ d ∧ content d (n ++ MD5_SUFFIX) ≠ []

theorem makeMD5_hasDigest (h : n ∈ getFiles d) : HasDigest (makeMD5 md5 d) n := by
  have hmem : n ++ MD5_SUFFIX ∈
      ((getFiles d).map fun m => (m ++ MD5_SUFFIX, md5digest md5 d m)).map Prod.fst := by
    rw [List.map_map]
    exact List.mem_map_of_mem h
  refine ⟨mem_writeAll.mpr (.inl hmem), ?_⟩
  obtain ⟨c, hc, hcontent⟩ := content_writeAll_of_mem (d := d) hmem
  obtain ⟨m, -, hm⟩ := List.mem_map.mp hc
  have hc : c = md5digest md5 d m := (congrArg Prod.snd hm).symm
  unfold makeMD5
  rw [hcontent, hc]
  simp [md5digest]

theorem file_mem_getFiles (h : t.file format ∈ d) (hno : ¬ MD5_SUFFIX <:+: t.file format) :
    t.file format ∈ getFiles d := by
  apply List.mem_filter.mpr
  exact ⟨AList.mem_keys.mp h, decide_eq_true ⟨hno, four_le_length_file t format⟩⟩

/-- The archive gets its digest with the first `Make_MD5`, and no later step empties it. -/
theorem run_hasDigest (steps : List (Step (t.file format))) (hfile : t.file format ∈ d)
    (hno : ¬ MD5_SUFFIX <:+: t.file format)
    (h : .makeMD5 ∈ steps ∨ HasDigest d (t.file format)) :
    HasDigest (runSteps md5 d steps) (t.file format) := by
  induction steps generalizing d with
  | nil => exact h.resolve_left List.not_mem_nil
  | cons s steps ih =>
    have hkeep : t.file format ∈ s.run md5 d := by
      have hend : ¬ MD5_SUFFIX <:+ t.file format := fun hend => hno hend.isInfix
      exact (step_unchanged md5 s List.prefix_rfl fun _ => fun h => hend h.1).1.mpr hfile
    apply ih hkeep
    cases s with
    | backup files other =>
      rcases h with h | h
      · exact .inl ((List.mem_cons.mp h).resolve_left nofun)
      · obtain ⟨hmem, hcontent⟩ := step_unchanged md5 (d := d) (.backup files other)
          (List.prefix_append (t.file format) MD5_SUFFIX) nofun
        exact .inr ⟨hmem.mpr h.1, hcontent ▸ h.2⟩
    | makeMD5 => exact .inr (makeMD5_hasDigest md5 (file_mem_getFiles hfile hno))

end Steps

/-! ## The archive -/

section Archive

variable {t : TarBackup} {md5 : Bytes → List Char} {format : ArchiveFormat} {earlier : Directory}
  {steps : List (Step (t.file format))}

/-- The directory that a backup leaves. -/
theorem compress_dir (h : t.splits) : (t.compress format earlier).1 =
    writeAll (touch earlier (t.file format)) (pieces (t.file format) t.stream) := by
  obtain ⟨hpopen, hroom, -⟩ := h
  cases format <;>
    simp [TarBackup.compress, tarCompressWrapper, tarGzipCompressWrapper, doTarCompress, tarCommand,
      split, hpopen, List.take_of_length_le hroom, TarBackup.file]

/-- The status of a backup is that of `split`. -/
theorem compress_status : (t.compress format earlier).2 = 0 ↔ t.splits := by
  unfold TarBackup.splits
  cases format <;>
    simp [TarBackup.compress, tarCompressWrapper, tarGzipCompressWrapper, doTarCompress, tarCommand,
      split, pipeStatus] <;> grind

/-- What a restore reads is the stream exactly if the rest of the pattern is empty. -/
theorem extract_eq_iff (h : t.splits) :
    format.extract (t.file format) (runSteps md5 (t.compress format earlier).1 steps) = t.stream ↔
      ∀ n ∈ runSteps md5 (t.compress format earlier).1 steps, t.file format <+: n →
        (∀ i, i * SPLIT_BYTES < t.stream.length → n ≠ pieceName (t.file format) i) →
        content (runSteps md5 (t.compress format earlier).1 steps) n = [] := by
  have hletters := h.2.2
  rw [compress_dir h]
  have hpiece := fun n => mem_pieces_iff (t.file format) (n := n) t.stream hletters
  have hsorted := pieces_sorted (t.file format) t.stream hletters
  have hkept : ∀ n ∈ (pieces (t.file format) t.stream).map Prod.fst,
      t.file format <+: n ∧
      ∀ d, (n ∈ runSteps md5 d steps ↔ n ∈ d) ∧ content (runSteps md5 d steps) n = content d n := by
    intro n hn
    obtain ⟨i, hi, rfl⟩ := (hpiece n).mp hn
    have hi : i < SPLIT_SUFFIXES := by unfold SPLIT_BYTES at *; omega
    have hpre := prefix_pieceName (t.file format) i
    exact ⟨hpre, fun d => run_unchanged md5 steps hpre fun _ hmd5 => not_md5_pieceName hi hmd5.1⟩
  have hread : ((pieces (t.file format) t.stream).map Prod.fst).flatMap (content (runSteps md5
      (writeAll (touch earlier (t.file format)) (pieces (t.file format) t.stream)) steps)) =
      t.stream := by
    rw [List.flatMap_congr fun n hn => ((hkept n hn).2 _).2,
      flatMap_content_writeAll (hsorted.imp fun h => h.ne), pieces_map_snd _ _ hletters]
  have hiff := catGlob_eq_iff
    (d := runSteps md5 (writeAll (touch earlier (t.file format)) (pieces (t.file format) t.stream)) steps)
    hsorted fun n hn => ⟨((hkept n hn).2 _).1.mpr (mem_writeAll.mpr (.inl hn)), (hkept n hn).1⟩
  rw [hread] at hiff
  have hextract : format.extract = fun file d => d.catGlob file := by cases format <;> rfl
  rw [hextract]
  refine hiff.trans ?_
  simp only [hpiece, not_exists, not_and]

theorem file_ne_pieceName_md5 (file : FileName) (i : Nat) : file ++ MD5_SUFFIX ≠ pieceName file i := by
  intro h
  have := congrArg List.length h
  simp [pieceName, MD5_SUFFIX] at this

/-- An archive with a digest next to it is not read back. -/
theorem not_extract_of_digest (h : t.splits) (hmd5 : .makeMD5 ∈ steps)
    (hno : ¬ MD5_SUFFIX <:+: t.file format) :
    format.extract (t.file format) (runSteps md5 (t.compress format earlier).1 steps) ≠ t.stream := by
  intro hread
  have hfile : t.file format ∈ (t.compress format earlier).1 := by
    rw [compress_dir h]
    exact mem_writeAll.mpr (.inr (mem_touch.mpr (.inl rfl)))
  obtain ⟨hmem, hcontent⟩ := run_hasDigest md5 steps hfile hno (.inl hmd5)
  exact hcontent ((extract_eq_iff h).mp hread _ hmem (List.prefix_append _ _)
    fun i _ => file_ne_pieceName_md5 _ i)

/-- Without a digest, an archive is read back exactly if no older file of its pattern shows through. -/
theorem extract_eq_iff_noStale (h : t.splits) (hmd5 : .makeMD5 ∈ steps → MD5_SUFFIX <:+: t.file format) :
    format.extract (t.file format) (runSteps md5 (t.compress format earlier).1 steps) = t.stream ↔
      ∀ n ∈ earlier, t.file format <+: n →
        (∀ i, i * SPLIT_BYTES < t.stream.length → n ≠ pieceName (t.file format) i) →
        content earlier n = [] := by
  rw [extract_eq_iff h, compress_dir h]
  have hcontent : ∀ n, t.file format <+: n →
      (∀ i, i * SPLIT_BYTES < t.stream.length → n ≠ pieceName (t.file format) i) → ∀ e,
      (n ∈ runSteps md5 (writeAll e (pieces (t.file format) t.stream)) steps ↔ n ∈ e) ∧
      content (runSteps md5 (writeAll e (pieces (t.file format) t.stream)) steps) n = content e n := by
    intro n hn hout e
    have hrun := run_unchanged md5 (d := writeAll e (pieces (t.file format) t.stream)) steps hn
      fun hmem hno => hno.2 (hmd5 hmem)
    have hpiece : n ∉ (pieces (t.file format) t.stream).map Prod.fst := by
      rw [mem_pieces_iff _ t.stream h.2.2]
      rintro ⟨i, hi, hni⟩
      exact hout i hi hni
    exact ⟨hrun.1.trans (by simp only [mem_writeAll, hpiece, false_or]),
      hrun.2.trans (content_writeAll_of_notMem hpiece)⟩
  constructor
  · intro hempty n hmem hn hout
    obtain ⟨hiff, heq⟩ := hcontent n hn hout (touch earlier (t.file format))
    have := hempty n (hiff.mpr (mem_touch.mpr (.inr hmem))) hn hout
    rw [heq, content_touch] at this
    exact this
  · intro hempty n hmem hn hout
    obtain ⟨hiff, heq⟩ := hcontent n hn hout (touch earlier (t.file format))
    rw [heq, content_touch]
    by_cases hold : n ∈ earlier
    · exact hempty n hold hn hout
    · unfold content
      rw [AList.lookup_eq_none.mpr hold]
      rfl

end Archive

/-- A backup of `/system` to `system.ext4.tar`. -/
def systemBackup : TarBackup where
  backup_file_image := ['s', 'y', 's', 't', 'e', 'm', '.', 'e', 'x', 't', '4']
  stream := [1, 2, 3]
  room := 100
  tar_status := 0
  pigz_status := 0
  popen := true

theorem systemBackup_splits : systemBackup.splits := by
  unfold TarBackup.splits SPLIT_SUFFIXES SPLIT_BYTES
  decide

end Miui
