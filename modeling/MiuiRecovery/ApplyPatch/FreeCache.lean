import Mathlib.Data.List.ReduceOption
import MiuiRecovery.ApplyPatch.Applypatch

/-!
# Freeing space on /cache

`EliminateOpenFiles`, `FindExpendableFiles` and `MakeFreeSpaceOnCache` (`freecache.c`) over what
`readdir`, `stat`, `/proc` and `statfs` tell of `/cache`.

* `Settles`: what the caller may rely on. Nothing but unopened regular files goes, none while there
  is enough space, and only a run that has nothing left to delete fails.
* `makeFreeSpaceOnCache_spec`: the files that are deleted are the shortest start of the list of
  survivors after which `FreeSpaceForFile` sees enough space, or all of it.
* `settles_iff`: when this is what the caller may rely on. `stat` follows symbolic links, and open
  files are recognized by the text of `/proc/N/fd` alone.
* `makeFreeSpaceOnCache_returns`: it is a run of the program that `applypatch` calls.
-/

namespace Miui

namespace Cache

/-! ## The file system -/

/-- What `stat` tells of a file. -/
structure Stat where
  /-- `S_ISREG(st_mode)` -/
  regular : Bool
  ino : Nat

/-- An entry of a directory. -/
inductive Node
  /-- a file of any kind but a symbolic link -/
  | file (st : Stat)
  /-- a symbolic link and the file it leads to, if any -/
  | symlink (target : Option Stat)

/-- `stat`, which follows a symbolic link. -/
def Node.stat : Node → Option Stat
  | file st => some st
  | symlink target => target

/-- `stat(path, &st) == 0 && S_ISREG(st.st_mode)` -/
def Node.statsRegular (n : Node) : Bool := n.stat.any (·.regular)

/-- What `readdir` finds in a directory. -/
structure Folder where
  entries : List (Bytes × Node)
  nodup : (entries.map Prod.fst).Nodup
  noSlash : ∀ e ∈ entries, 47 ∉ e.1

/-- An open file of a process: the text that `readlink` gives for its entry in `/proc/N/fd`, and the file
itself. -/
structure Fd where
  link : Option Bytes
  ino : Option Nat

/-- An entry of `/proc`, with what its `fd` holds; `readable` where this can be opened. -/
structure Proc where
  name : Bytes
  readable : Bool
  fds : List Fd

/-- All that a run looks at. `statfs` is what it reports of `/cache`, `f_bsize` and `f_bfree`, once the files
of a list have been deleted in this order. -/
structure World where
  /-- `none` where `opendir` fails -/
  cache : Option Folder
  otatest : Option Folder
  procs : List Proc
  statfs : List Bytes → Nat × Nat

variable (w : World)

/-- The number of bytes that are free on `/cache` once `deleted` are gone. -/
def World.free (deleted : List Bytes) : Nat := (w.statfs deleted).1 * (w.statfs deleted).2

/-- `FreeSpaceForFile("/cache")`, a `size_t`. -/
def World.freeSpaceForFile (deleted : List Bytes) : Nat :=
  sizeT ((w.statfs deleted).1 * (w.statfs deleted).2)

/-! ## freecache.c -/

/-- The `isdigit` loop. -/
def Proc.numeric (p : Proc) : Bool := p.name.all fun c => 48 ≤ c && c ≤ 57

/-- The loop over `files`: those with the path `link` are freed and set to `NULL`. -/
def eliminate (link : Bytes) (files : List (Option Bytes)) : List (Option Bytes) :=
  files.map fun file => if file = some link then none else file

/-- One entry of `/proc/N/fd`. -/
def eliminateFd (files : List (Option Bytes)) (fd : Fd) : List (Option Bytes) :=
  match fd.link with
  | some link => if (Bytes.ascii "/cache/").isPrefixOf link then eliminate link files else files
  | none => files

/-- One entry of `/proc`. -/
def eliminateProc (files : List (Option Bytes)) (p : Proc) : List (Option Bytes) :=
  if p.numeric then
    if p.readable then p.fds.foldl eliminateFd files else files
  else files

/-- `EliminateOpenFiles`, where `/proc` can be opened. -/
def eliminateOpenFiles (procs : List Proc) (files : List (Option Bytes)) : List (Option Bytes) :=
  procs.foldl eliminateProc files

/-- `dirs` -/
def World.dirs : List (Bytes × Option Folder) :=
  [(Bytes.ascii "/cache", w.cache), (Bytes.ascii "/cache/recovery/otatest", w.otatest)]

/-- The path of an entry. -/
def pathIn (dir name : Bytes) : Bytes := dir ++ 47 :: name

/-- The entries of a directory that go into `names`, with their paths. -/
def expendableIn (dir : Bytes) (folder : Folder) : List (Bytes × Node) :=
  (folder.entries.map fun e => (pathIn dir e.1, e.2)).filter fun e =>
    if e.1 = CACHE_TEMP_SOURCE then false else e.2.statsRegular

/-- The loop over `dirs`. -/
def World.listed : List (Bytes × Node) :=
  w.dirs.flatMap fun d => match d.2 with
    | some folder => expendableIn d.1 folder
    | none => []

/-- `FindExpendableFiles`: `names`. -/
def World.findExpendableFiles : List (Option Bytes) :=
  eliminateOpenFiles w.procs (w.listed.map fun e => some e.1)

/-- What a run has deleted, in order, and what it returned. -/
structure Freed where
  result : Int
  deleted : List Bytes

/-- The loop of `MakeFreeSpaceOnCache`: what it has deleted and `free_now`. -/
def deleteLoop (bytes_needed : Nat) :
    List (Option Bytes) → List Bytes → Nat → List Bytes × Nat
  | [], deleted, free_now => (deleted, free_now)
  | name :: names, deleted, free_now =>
    if free_now < bytes_needed then
      match name with
      | some name =>
        deleteLoop bytes_needed names (deleted ++ [name]) (w.freeSpaceForFile (deleted ++ [name]))
      | none => deleteLoop bytes_needed names deleted free_now
    else (deleted, free_now)

/-- `MakeFreeSpaceOnCache` -/
def World.makeFreeSpaceOnCache (bytes_needed : Nat) : Freed :=
  let free_now := w.freeSpaceForFile []
  if bytes_needed ≤ free_now then ⟨0, []⟩
  else
    let names := w.findExpendableFiles
    if names.length = 0 then ⟨-1, []⟩
    else
      let (deleted, free_now) := deleteLoop w bytes_needed names [] free_now
      ⟨if bytes_needed ≤ free_now then 0 else -1, deleted⟩

/-! ## What the caller may rely on -/

/-- A process has the file open, under whatever path. -/
def World.Held (ino : Nat) : Prop := ∃ p ∈ w.procs, p.numeric = true ∧ ∃ fd ∈ p.fds, fd.ino = some ino

/-- A regular file directly in one of the directories. -/
def World.IsFile (path : Bytes) (ino : Nat) : Prop :=
  ∃ d ∈ w.dirs, ∃ folder name, d.2 = some folder ∧ (name, Node.file ⟨true, ino⟩) ∈ folder.entries ∧
    path = pathIn d.1 name

/-- "We're allowed to delete unopened regular files in any of these directories", but not
`CACHE_TEMP_SOURCE`. -/
def World.Deletable (path : Bytes) : Prop :=
  (∃ ino, w.IsFile path ino ∧ ¬ w.Held ino) ∧ path ≠ CACHE_TEMP_SOURCE

/-- `MakeFreeSpaceOnCache` is exact and restrained. -/
structure World.Settles (bytes_needed : Nat) (r : Freed) : Prop where
  exact : r.result = 0 ↔ bytes_needed ≤ w.free r.deleted
  allowed : ∀ path ∈ r.deleted, w.Deletable path
  onlyWhenShort : ∀ pre path post, r.deleted = pre ++ path :: post → w.free pre < bytes_needed
  lastResort : r.result ≠ 0 → ∀ path, w.Deletable path → path ∈ r.deleted

/-! ## The files that no descriptor names -/

/-- `files` without those that `test` finds. -/
def hide (test : Bytes → Bool) (file : Option Bytes) : Option Bytes := file.filter (!test ·)

theorem hide_never {test : Bytes → Bool} (h : ∀ path, test path = false) : hide test = id := by
  funext file
  cases file <;> simp [hide, h]

/-- Two passes over `files` are one pass. -/
theorem hide_hide (s t : Bytes → Bool) : hide s ∘ hide t = hide fun path => t path || s path := by
  funext file
  cases file with
  | none => rfl
  | some path => cases t path <;> simp [hide]

theorem foldl_hide {α : Type} {step : List (Option Bytes) → α → List (Option Bytes)} {test : α → Bytes → Bool}
    (hstep : ∀ files a, step files a = files.map (hide (test a))) (as : List α)
    (files : List (Option Bytes)) :
    as.foldl step files = files.map (hide fun path => as.any (test · path)) := by
  induction as generalizing files with
  | nil => simp [hide_never]
  | cons a as ih => simp [hstep, ih, hide_hide]

/-- The descriptor is taken for the file. -/
def Fd.shows (fd : Fd) (path : Bytes) : Bool :=
  (Bytes.ascii "/cache/").isPrefixOf path && fd.link == some path

def Proc.shows (p : Proc) (path : Bytes) : Bool := p.numeric && p.readable && p.fds.any (·.shows path)

/-- Some process is taken to have the file open. -/
def World.shown (path : Bytes) : Bool := w.procs.any (·.shows path)

theorem eliminateFd_eq (files : List (Option Bytes)) (fd : Fd) :
    eliminateFd files fd = files.map (hide fd.shows) := by
  rcases fd with ⟨_ | link, ino⟩
  · rw [hide_never fun path => by simp [Fd.shows], List.map_id]
    rfl
  · cases hcache : (Bytes.ascii "/cache/").isPrefixOf link with
    | false =>
      have hnever (path : Bytes) : Fd.shows ⟨some link, ino⟩ path = false := by
        by_cases hpath : link = path
        · simp [Fd.shows, ← hpath, hcache]
        · simp [Fd.shows, hpath]
      rw [hide_never hnever, List.map_id]
      exact if_neg (by simp [hcache])
    | true =>
      have hlink : hide (Fd.shows ⟨some link, ino⟩) = fun file =>
          if file = some link then none else file := by
        funext file
        cases file with
        | none => rfl
        | some path =>
          by_cases hpath : path = link
          · simpa [hide, Fd.shows, hpath] using hcache
          · simp [hide, Fd.shows, hpath, Ne.symm hpath]
      rw [hlink]
      exact if_pos hcache

theorem eliminateProc_eq (files : List (Option Bytes)) (p : Proc) :
    eliminateProc files p = files.map (hide p.shows) := by
  unfold eliminateProc
  split
  · split
    · rename_i hnumeric hreadable
      have hshows : p.shows = fun path => p.fds.any (·.shows path) := by
        funext path
        simp [Proc.shows, hnumeric, hreadable]
      rw [foldl_hide eliminateFd_eq, hshows]
    · rw [hide_never fun path => by simp [Proc.shows, *], List.map_id]
  · rw [hide_never fun path => by simp [Proc.shows, *], List.map_id]

theorem eliminateOpenFiles_eq (files : List (Option Bytes)) :
    eliminateOpenFiles w.procs files = files.map (hide w.shown) :=
  foldl_hide eliminateProc_eq w.procs files

/-- The files of `names` that are not set to `NULL`. -/
def World.survivors : List (Bytes × Node) := w.listed.filter fun e => !w.shown e.1

theorem findExpendableFiles_survivors :
    w.findExpendableFiles.reduceOption = w.survivors.map Prod.fst := by
  rw [World.findExpendableFiles, eliminateOpenFiles_eq, World.survivors]
  induction w.listed with
  | nil => rfl
  | cons e es ih =>
    cases h : w.shown e.1 with
    | true => simpa [hide, Option.filter, h, List.reduceOption_cons_of_none] using ih
    | false => simpa [hide, Option.filter, h, List.reduceOption_cons_of_some] using ih

/-! ## The loop -/

/-- The space was measured too small before each of the files was deleted. -/
def World.Comes (bytes_needed : Nat) (deleted : List Bytes) : Prop :=
  ∀ pre, pre <+: deleted → pre ≠ deleted → w.freeSpaceForFile pre < bytes_needed

variable {w} {bytes_needed : Nat}

theorem World.Comes.concat {deleted : List Bytes} {path : Bytes} (h : w.Comes bytes_needed deleted)
    (hshort : w.freeSpaceForFile deleted < bytes_needed) :
    w.Comes bytes_needed (deleted ++ [path]) := by
  intro pre hpre hne
  rcases List.prefix_concat_iff.mp hpre with rfl | hpre
  · exact absurd rfl hne
  · by_cases heq : pre = deleted
    · exact heq ▸ hshort
    · exact h pre hpre heq

/-- With enough space nothing more is deleted. -/
theorem deleteLoop_enough {names : List (Option Bytes)} {deleted : List Bytes} {free_now : Nat}
    (h : ¬ free_now < bytes_needed) :
    deleteLoop w bytes_needed names deleted free_now = (deleted, free_now) := by
  rcases names with _ | ⟨_ | name, names⟩
  · rfl
  · rw [deleteLoop, if_neg h]
  · rw [deleteLoop, if_neg h]

/-- The loop deletes the files that are not `NULL` in order, until it sees enough space. -/
theorem deleteLoop_spec (names : List (Option Bytes)) {deleted : List Bytes}
    (hcomes : w.Comes bytes_needed deleted) :
    ∃ more, deleteLoop w bytes_needed names deleted (w.freeSpaceForFile deleted) =
        (deleted ++ more, w.freeSpaceForFile (deleted ++ more)) ∧
      more <+: names.reduceOption ∧ w.Comes bytes_needed (deleted ++ more) ∧
      (bytes_needed ≤ w.freeSpaceForFile (deleted ++ more) ∨ more = names.reduceOption) := by
  induction names generalizing deleted with
  | nil => exact ⟨[], by simp [deleteLoop], List.prefix_refl _, by simpa using hcomes, .inr rfl⟩
  | cons name names ih =>
    by_cases hshort : w.freeSpaceForFile deleted < bytes_needed
    · cases name with
      | none =>
        rw [deleteLoop, if_pos hshort]
        exact ih hcomes
      | some name =>
        rw [deleteLoop, if_pos hshort]
        obtain ⟨more, hrun, hpre, hcomes', hend⟩ := ih (hcomes.concat hshort)
        refine ⟨name :: more, ?_, ?_, ?_, ?_⟩
        · simpa using hrun
        · simpa [List.reduceOption_cons_of_some] using hpre
        · simpa using hcomes'
        · simpa [List.reduceOption_cons_of_some] using hend
    · exact ⟨[], by simpa using deleteLoop_enough hshort, List.nil_prefix, by simpa using hcomes,
        .inl (by simpa using hshort)⟩

/-- The files that are deleted are a start of the survivors, each deleted while the space was measured too
small; the space is enough after it, or nothing is left. -/
theorem makeFreeSpaceOnCache_spec (w : World) (bytes_needed : Nat) :
    (w.makeFreeSpaceOnCache bytes_needed).deleted <+: w.survivors.map Prod.fst ∧
      w.Comes bytes_needed (w.makeFreeSpaceOnCache bytes_needed).deleted ∧
      ((w.makeFreeSpaceOnCache bytes_needed).result = 0 ↔
        bytes_needed ≤ w.freeSpaceForFile (w.makeFreeSpaceOnCache bytes_needed).deleted) ∧
      ((w.makeFreeSpaceOnCache bytes_needed).result ≠ 0 →
        (w.makeFreeSpaceOnCache bytes_needed).deleted = w.survivors.map Prod.fst) := by
  have hnil : w.Comes bytes_needed [] := fun pre hpre hne => absurd (List.prefix_nil.mp hpre) hne
  rw [World.makeFreeSpaceOnCache]
  split
  · rename_i henough
    exact ⟨List.nil_prefix, hnil, by simp [henough], fun h => absurd rfl h⟩
  · rename_i hshort
    simp only [List.length_eq_zero_iff]
    split
    · rename_i hnames
      have hsurv : w.survivors.map Prod.fst = [] := by
        rw [← findExpendableFiles_survivors, hnames]
        rfl
      exact ⟨List.nil_prefix, hnil, by simp [hshort], fun _ => hsurv.symm⟩
    · obtain ⟨more, hrun, hpre, hcomes, hend⟩ := deleteLoop_spec w.findExpendableFiles hnil
      rw [findExpendableFiles_survivors] at hpre hend
      rw [hrun]
      simp only [List.nil_append] at hcomes hend ⊢
      refine ⟨hpre, hcomes, by split <;> simp [*], fun h => ?_⟩
      exact hend.resolve_left fun henough => h (if_pos henough)

/-! ## When it is exact and restrained -/

theorem survivors_listed {e : Bytes × Node} :
    e ∈ w.survivors ↔ e ∈ w.listed ∧ w.shown e.1 = false := by
  simp [World.survivors, List.mem_filter]

theorem mem_listed {path : Bytes} {n : Node} :
    (path, n) ∈ w.listed ↔ ∃ d ∈ w.dirs, ∃ folder name, d.2 = some folder ∧
      (name, n) ∈ folder.entries ∧ path = pathIn d.1 name ∧ path ≠ CACHE_TEMP_SOURCE ∧
        n.statsRegular = true := by
  rw [World.listed, List.mem_flatMap]
  refine exists_congr fun d => and_congr_right fun _ => ?_
  cases d.2 with
  | none => simp
  | some folder =>
    simp only [expendableIn, List.mem_filter, List.mem_map, Prod.mk.injEq, Option.some.injEq]
    constructor
    · rintro ⟨⟨⟨name, n'⟩, he, rfl, rfl⟩, hkept⟩
      by_cases htemp : pathIn d.1 name = CACHE_TEMP_SOURCE
      · simp [htemp] at hkept
      · exact ⟨folder, name, rfl, he, rfl, htemp, by simpa [htemp] using hkept⟩
    · rintro ⟨_, name, rfl, he, rfl, htemp, hregular⟩
      exact ⟨⟨(name, n), he, rfl, rfl⟩, by simpa [htemp] using hregular⟩

/-- The last slash separates the directory from the name. -/
theorem pathIn_inj {dir dir' name name' : Bytes} (hname : 47 ∉ name) (hname' : 47 ∉ name')
    (h : pathIn dir name = pathIn dir' name') : dir = dir' ∧ name = name' := by
  have hlast {dir name : Bytes} (hname : 47 ∉ name) :
      (pathIn dir name).reverse.takeWhile (· != 47) = name.reverse := by
    have hpos : ∀ c ∈ name.reverse, (c != 47) = true := by
      intro c hc
      have hne : c ≠ 47 := fun h => hname (h ▸ List.mem_reverse.mp hc)
      simpa using hne
    rw [pathIn, List.reverse_append, List.reverse_cons, List.append_assoc,
      List.takeWhile_append_of_pos hpos]
    simp
  have hnames : name = name' := by
    rw [← List.reverse_inj, ← hlast hname, h, hlast hname']
  subst hnames
  exact ⟨List.append_cancel_right h, rfl⟩

/-- A path belongs to one entry only. -/
theorem entry_unique {d d' : Bytes × Option Folder} {folder folder' : Folder} {name name' : Bytes}
    {n n' : Node} (hd : d ∈ w.dirs) (hd' : d' ∈ w.dirs) (hf : d.2 = some folder)
    (hf' : d'.2 = some folder') (hn : (name, n) ∈ folder.entries) (hn' : (name', n') ∈ folder'.entries)
    (hpath : pathIn d.1 name = pathIn d'.1 name') : n = n' := by
  obtain ⟨hdir, rfl⟩ := pathIn_inj (folder.noSlash _ hn) (folder'.noSlash _ hn') hpath
  have hnodup : (w.dirs.map Prod.fst).Nodup := by
    show [Bytes.ascii "/cache", Bytes.ascii "/cache/recovery/otatest"].Nodup
    decide
  obtain rfl : d = d' := List.inj_on_of_nodup_map hnodup hd hd' hdir
  obtain rfl : folder = folder' := Option.some.inj (hf.symm.trans hf')
  exact congrArg Prod.snd (List.inj_on_of_nodup_map folder.nodup hn hn' rfl)

/-- The condition under which `MakeFreeSpaceOnCache` is exact and restrained: as long as the space is
measured too small,
* the measured number of bytes is not cut below `bytes_needed` by the 32 bits of `size_t`;
* the next file of `names` is no symbolic link to a regular file, and a process that has it open has a
  descriptor for it with its path, in a directory that can be opened;

and where all files of `names` are not enough, a regular file that a descriptor seems to name is open. -/
structure World.Clear (w : World) (bytes_needed : Nat) : Prop where
  measured : ∀ deleted, deleted <+: w.survivors.map Prod.fst → w.Comes bytes_needed deleted →
    bytes_needed ≤ w.free deleted → bytes_needed ≤ w.freeSpaceForFile deleted
  plain : ∀ before path n, (path, n) ∈ w.survivors → before ++ [path] <+: w.survivors.map Prod.fst →
    w.Comes bytes_needed (before ++ [path]) →
      ∃ ino, n = .file ⟨true, ino⟩ ∧ (w.Held ino → w.shown path = true)
  named : w.Comes bytes_needed (w.survivors.map Prod.fst) →
    w.freeSpaceForFile (w.survivors.map Prod.fst) < bytes_needed →
      ∀ path ino, (path, Node.file ⟨true, ino⟩) ∈ w.listed → w.shown path = true → w.Held ino

/-- The measured number of free bytes is never too large. -/
theorem freeSpaceForFile_le (w : World) (deleted : List Bytes) :
    w.freeSpaceForFile deleted ≤ w.free deleted := by
  have hmod : (w.freeSpaceForFile deleted : Int) = (w.free deleted : Int) % 2 ^ 32 := by
    unfold World.freeSpaceForFile World.free sizeT
    push_cast
    omega
  omega

theorem World.Comes.mono {deleted pre : List Bytes} (h : w.Comes bytes_needed deleted)
    (hpre : pre <+: deleted) : w.Comes bytes_needed pre := by
  intro q hq hne
  refine h q (hq.trans hpre) fun heq => hne ?_
  exact hq.eq_of_length_le (heq ▸ hpre.length_le)

/-- `MakeFreeSpaceOnCache` is exact and restrained in exactly the `Clear` worlds. -/
theorem settles_iff (w : World) (bytes_needed : Nat) :
    w.Settles bytes_needed (w.makeFreeSpaceOnCache bytes_needed) ↔ w.Clear bytes_needed := by
  obtain ⟨hstart, hcomes, hresult, hlast⟩ := makeFreeSpaceOnCache_spec w bytes_needed
  generalize w.makeFreeSpaceOnCache bytes_needed = r at *
  -- whatever the loop gets to is deleted
  have hreach (deleted : List Bytes) (hpre : deleted <+: w.survivors.map Prod.fst)
      (h : w.Comes bytes_needed deleted) : deleted <+: r.deleted := by
    rcases List.prefix_or_prefix_of_prefix hpre hstart with hle | hle
    · exact hle
    · by_cases heq : r.deleted = deleted
      · exact heq ▸ List.prefix_refl _
      · have hfail : r.result ≠ 0 := fun h0 => by
          have := h _ hle heq
          have := hresult.mp h0
          omega
        exact hlast hfail ▸ hpre
  constructor
  · intro hs
    refine ⟨fun deleted hpre h henough => ?_, fun before path n hn hpre h => ?_, fun h hshort path ino hn hshown => ?_⟩
    · obtain ⟨rest, hrest⟩ := hreach deleted hpre h
      cases rest with
      | nil =>
        rw [List.append_nil] at hrest
        exact hrest ▸ hresult.mp (hs.exact.mpr (hrest ▸ henough))
      | cons path rest =>
        have := hs.onlyWhenShort deleted path rest hrest.symm
        omega
    · have hmem : path ∈ r.deleted := (hreach _ hpre h).subset (by simp)
      obtain ⟨⟨ino, ⟨d, hd, folder, name, hf, hfile, hpath⟩, hheld⟩, -⟩ := hs.allowed path hmem
      obtain ⟨d', hd', folder', name', hf', hn', hpath', -⟩ := mem_listed.mp (survivors_listed.mp hn).1
      exact ⟨ino, entry_unique hd' hd hf' hf hn' hfile (hpath'.symm.trans hpath), fun h => absurd h hheld⟩
    · by_contra hheld
      have hall : r.deleted = w.survivors.map Prod.fst := by
        exact hstart.eq_of_length_le (hreach _ (List.prefix_refl _) h).length_le
      have hfail : r.result ≠ 0 := fun h0 => by
        have := hresult.mp h0
        rw [hall] at this
        omega
      obtain ⟨d, hd, folder, name, hf, hfile, hpath, htemp, -⟩ := mem_listed.mp hn
      have hmem := hs.lastResort hfail path ⟨⟨ino, ⟨d, hd, folder, name, hf, hfile, hpath⟩, hheld⟩, htemp⟩
      rw [hall] at hmem
      obtain ⟨e, he, rfl⟩ := List.mem_map.mp hmem
      rw [(survivors_listed.mp he).2] at hshown
      cases hshown
  · intro hc
    have hclear (pre : List Bytes) (hpre : pre <+: r.deleted) (h : bytes_needed ≤ w.free pre) :
        bytes_needed ≤ w.freeSpaceForFile pre :=
      hc.measured pre (hpre.trans hstart) (hcomes.mono hpre) h
    refine ⟨⟨fun h => (hresult.mp h).trans (freeSpaceForFile_le w _), fun h => ?_⟩, fun path hmem => ?_,
      fun pre path post hsplit => ?_, fun hfail path hdel => ?_⟩
    · exact hresult.mpr (hclear _ (List.prefix_refl _) h)
    · obtain ⟨before, after, hsplit⟩ := List.append_of_mem hmem
      have hpre : before ++ [path] <+: r.deleted := ⟨after, by simp [hsplit]⟩
      obtain ⟨⟨_, n⟩, hn, rfl⟩ := List.mem_map.mp (hstart.subset hmem)
      obtain ⟨hn', hshown⟩ := survivors_listed.mp hn
      obtain ⟨ino, rfl, hheld⟩ := hc.plain before _ n hn (hpre.trans hstart) (hcomes.mono hpre)
      obtain ⟨d, hd, folder, name, hf, hfile, hpath, htemp, -⟩ := mem_listed.mp hn'
      refine ⟨⟨ino, ⟨d, hd, folder, name, hf, hfile, hpath⟩, fun h => ?_⟩, htemp⟩
      rw [hheld h] at hshown
      cases hshown
    · have hpre : pre <+: r.deleted := ⟨path :: post, hsplit.symm⟩
      have hne : pre ≠ r.deleted := fun h => by simp [← h] at hsplit
      by_contra henough
      have := hcomes pre hpre hne
      have := hclear pre hpre (Nat.le_of_not_lt henough)
      omega
    · have hall := hlast hfail
      obtain ⟨⟨ino, ⟨d, hd, folder, name, hf, hfile, hpath⟩, hheld⟩, htemp⟩ := hdel
      have hlisted : (path, Node.file ⟨true, ino⟩) ∈ w.listed :=
        mem_listed.mpr ⟨d, hd, folder, name, hf, hfile, hpath, htemp, rfl⟩
      have hshort : w.freeSpaceForFile r.deleted < bytes_needed :=
        Nat.lt_of_not_le fun h => hfail (hresult.mpr h)
      cases hshown : w.shown path with
      | true => exact absurd (hc.named (hall ▸ hcomes) (hall ▸ hshort) path ino hlisted hshown) hheld
      | false =>
        rw [hall]
        exact List.mem_map.mpr ⟨_, survivors_listed.mpr ⟨hlisted, hshown⟩, rfl⟩

/-- `/cache` is full and holds a symbolic link `/cache/link` to a regular file elsewhere. -/
def symlinked : World where
  cache := some ⟨[(Bytes.ascii "link", .symlink (some ⟨true, 7⟩))], by simp, by decide⟩
  otatest := none
  procs := []
  statfs _ := (4096, 0)

/-- The symbolic link is deleted. -/
theorem symlinked_not_settles :
    ¬ symlinked.Settles 1 (symlinked.makeFreeSpaceOnCache 1) := by
  intro h
  have hmem : Bytes.ascii "/cache/link" ∈ (symlinked.makeFreeSpaceOnCache 1).deleted := by decide
  obtain ⟨⟨ino, ⟨d, hd, folder, name, hf, hfile, -⟩, -⟩, -⟩ := h.allowed _ hmem
  rcases List.mem_pair.mp hd with rfl | rfl
  · cases hf
    simp at hfile
  · cases hf

/-- Every world in which the names tell the files apart is `Clear`: no symbolic link leads to a regular
file, the descriptors of each file in the directories name it, and no number of free bytes exceeds a
`size_t`. -/
theorem World.clear_of_names (w : World) (bytes_needed : Nat)
    (hlinks : ∀ path n, (path, n) ∈ w.listed → ∃ ino, n = .file ⟨true, ino⟩)
    (hopen : ∀ path ino, (path, Node.file ⟨true, ino⟩) ∈ w.listed → (w.Held ino ↔ w.shown path = true))
    (hfits : ∀ deleted, w.free deleted < 2 ^ 32) : w.Clear bytes_needed := by
  refine ⟨fun deleted _ _ henough => ?_, fun _ path n hn _ _ => ?_, fun _ _ path ino hn => (hopen path ino hn).mpr⟩
  · have hfree : w.freeSpaceForFile deleted = w.free deleted := by
      have := hfits deleted
      unfold World.freeSpaceForFile World.free sizeT at *
      push_cast
      omega
    exact hfree ▸ henough
  · have hlisted := (survivors_listed.mp hn).1
    obtain ⟨ino, rfl⟩ := hlinks path n hlisted
    exact ⟨ino, rfl, (hopen path ino hlisted).mp⟩

/-! ## The runs of `makeFreeSpaceOnCache`

`applypatch` knows `MakeFreeSpaceOnCache` as a program over the calls that list, measure and delete files.
-/

/-- The entries of both directories that `stat` calls regular files, with their paths. -/
def World.regularEntries (w : World) : List (Bytes × Node) :=
  w.dirs.flatMap fun d => match d.2 with
    | some folder => (folder.entries.map fun e => (pathIn d.1 e.1, e.2)).filter (·.2.statsRegular)
    | none => []

/-- The texts of the descriptors that name a path below `/cache/`. -/
def World.openFiles (w : World) : List Bytes :=
  ((w.procs.filter fun p => p.numeric && p.readable).flatMap fun p => p.fds.filterMap (·.link)).filter
    (Bytes.ascii "/cache/").isPrefixOf

/-- What the calls of `makeFreeSpaceOnCache` answer; the state is the list of the files that are gone. -/
def cacheSem (w : World) : Prog.Sem PatchOp (List Bytes)
  | _, .freeSpaceForFile _, deleted, r, deleted' => deleted' = deleted ∧ r = w.freeSpaceForFile deleted
  | _, .regularFiles, deleted, r, deleted' => deleted' = deleted ∧ r = w.regularEntries.map Prod.fst
  | _, .openFiles, deleted, r, deleted' => deleted' = deleted ∧ r = some w.openFiles
  | _, .unlink path, deleted, _, deleted' => deleted' = deleted ++ [path]
  | _, _, _, _, _ => False

theorem mem_openFiles {path : Bytes} : path ∈ w.openFiles ↔ w.shown path = true := by
  simp only [World.openFiles, World.shown, Proc.shows, Fd.shows, List.mem_filter, List.mem_flatMap,
    List.mem_filterMap, List.any_eq_true, Bool.and_eq_true, beq_iff_eq]
  constructor
  · rintro ⟨⟨p, ⟨hp, hnumeric, hreadable⟩, fd, hfd, hlink⟩, hcache⟩
    exact ⟨p, hp, ⟨hnumeric, hreadable⟩, fd, hfd, hcache, hlink⟩
  · rintro ⟨p, hp, ⟨hnumeric, hreadable⟩, fd, hfd, hcache, hlink⟩
    exact ⟨⟨p, ⟨hp, hnumeric, hreadable⟩, fd, hfd, hlink⟩, hcache⟩

theorem listed_eq (w : World) :
    w.listed = w.regularEntries.filter fun e => e.1 ≠ CACHE_TEMP_SOURCE := by
  rw [World.listed, World.regularEntries, List.filter_flatMap]
  congr 1
  funext d
  cases d.2 with
  | none => rfl
  | some folder =>
    simp only [expendableIn, List.filter_filter]
    congr 1
    funext e
    by_cases htemp : e.1 = CACHE_TEMP_SOURCE <;> simp [htemp]

theorem survivors_eq (w : World) : w.survivors.map Prod.fst =
    ((w.regularEntries.map Prod.fst).filter fun path => path ≠ CACHE_TEMP_SOURCE).filter
      fun path => path ∉ w.openFiles := by
  have hshown : (fun path : Bytes => decide (path ∉ w.openFiles)) = fun path => !w.shown path := by
    funext path
    cases h : w.shown path <;> simp [mem_openFiles, h]
  rw [hshown, List.filter_map, List.filter_map, World.survivors, listed_eq]
  rfl

theorem deleteFiles_returns (names deleted : List Bytes) :
    Prog.Returns (cacheSem w) (deleteFiles bytes_needed names (w.freeSpaceForFile deleted)) deleted
      (deleteLoop w bytes_needed (names.map some) deleted (w.freeSpaceForFile deleted)).2
      (deleteLoop w bytes_needed (names.map some) deleted (w.freeSpaceForFile deleted)).1 := by
  induction names generalizing deleted with
  | nil => exact .ret
  | cons name names ih =>
    rw [deleteFiles, List.map_cons, deleteLoop]
    split
    · exact .step (r := ()) rfl (.step ⟨rfl, rfl⟩ (ih _))
    · exact .ret

theorem deleteLoop_reduceOption {names : List (Option Bytes)} {deleted : List Bytes} {free_now : Nat} :
    deleteLoop w bytes_needed (names.reduceOption.map some) deleted free_now =
      deleteLoop w bytes_needed names deleted free_now := by
  induction names generalizing deleted free_now with
  | nil => rfl
  | cons name names ih =>
    by_cases hshort : free_now < bytes_needed
    · cases name with
      | none => rw [List.reduceOption_cons_of_none, ih, deleteLoop, if_pos hshort]
      | some name =>
        rw [List.reduceOption_cons_of_some, List.map_cons, deleteLoop, deleteLoop, if_pos hshort,
          if_pos hshort, ih]
    · rw [deleteLoop_enough hshort, deleteLoop_enough hshort]

theorem findExpendableFiles_returns (w : World) (deleted : List Bytes) :
    Prog.Returns (cacheSem w) Miui.findExpendableFiles deleted (some (w.survivors.map Prod.fst)) deleted := by
  rw [survivors_eq]
  exact .step ⟨rfl, rfl⟩ (.step ⟨rfl, rfl⟩ .ret)

/-- The run over the world is a run of the program. -/
theorem makeFreeSpaceOnCache_returns (w : World) (bytes_needed : Nat) :
    Prog.Returns (cacheSem w) (Miui.makeFreeSpaceOnCache bytes_needed) []
      (decide ((w.makeFreeSpaceOnCache bytes_needed).result = 0))
      (w.makeFreeSpaceOnCache bytes_needed).deleted := by
  refine .step (r := w.freeSpaceForFile []) ⟨rfl, rfl⟩ ?_
  by_cases henough : bytes_needed ≤ w.freeSpaceForFile []
  · have hrun : w.makeFreeSpaceOnCache bytes_needed = ⟨0, []⟩ := if_pos henough
    simp only [Prog.bind, if_pos henough, hrun]
    exact .ret
  · have hrun : w.makeFreeSpaceOnCache bytes_needed =
        let run := deleteLoop w bytes_needed w.findExpendableFiles [] (w.freeSpaceForFile [])
        ⟨if bytes_needed ≤ run.2 then 0 else -1, run.1⟩ := by
      rw [World.makeFreeSpaceOnCache, if_neg henough]
      by_cases hnone : w.findExpendableFiles = []
      · simp [hnone, deleteLoop, henough]
      · simp [hnone]
    rw [← deleteLoop_reduceOption, findExpendableFiles_survivors] at hrun
    simp only [Prog.bind, if_neg henough]
    refine (findExpendableFiles_returns w []).bind ((deleteFiles_returns _ _).bind ?_)
    rw [hrun]
    by_cases h : bytes_needed ≤ (deleteLoop w bytes_needed ((w.survivors.map Prod.fst).map some) []
      (w.freeSpaceForFile [])).2
    · simp only [h, if_true, decide_true]
      exact .ret
    · simp only [h, if_false]
      exact .ret

end Cache

end Miui
