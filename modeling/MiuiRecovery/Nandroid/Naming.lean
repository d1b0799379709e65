import MiuiRecovery.Nandroid.Backup

/-!
# The names of images

A backup names an image after the partition, its file system and the handler; a restore looks for it under
a list of file systems and suffixes (`nandroid.cpp`).

* `findImage_eq_some`: the image that a restore takes is the first of the list that is there.
* `restore_selected`: a restore writes what it selected, by the handler that it selected.
* `selects_image_iff`, `selects_raw_iff`: when it selects what the backup made.
* `agrees_iff`: backup and restore agree exactly if the file system is on the list and no file of an
  earlier entry is left in the directory; a raw image needs a root in the root directory.
-/

namespace Miui

open Directory
open Prog (Reaches Returns)

/-! ## The list -/

section Find

variable {α β : Type} {l : List α} {q : α → Bool} {a : α}

theorem findSome?_ite (l : List α) (q : α → Bool) (f : α → β) :
    (l.findSome? fun a => if q a then some (f a) else none) = (l.find? q).map f := by
  induction l with
  | nil => rfl
  | cons a l ih =>
    rw [List.findSome?_cons, List.find?_cons]
    cases hq : q a with
    | true => rfl
    | false => exact ih

/-- An element is found if it has the property and nothing before it has. -/
theorem find?_eq_some_iff_takeWhile [DecidableEq α] :
    l.find? q = some a ↔ a ∈ l ∧ q a = true ∧ ∀ b ∈ l.takeWhile (· ≠ a), q b = false := by
  induction l with
  | nil => simp
  | cons b l ih =>
    rw [List.find?_cons, List.takeWhile_cons]
    by_cases hba : b = a
    · subst hba
      cases hq : q b with
      | true => simp
      | false =>
        have hne : l.find? q ≠ some b := fun h => by
          rw [List.find?_some h] at hq
          cases hq
        simp [hne]
    · have hab : ¬ a = b := fun h => hba h.symm
      cases hq : q b with
      | true => simp [hq, hba]
      | false => simp [hq, hba, hab, ih]

end Find

/-- The names under which a restore looks for an image, each with its handler. -/
def probes : List (String × String × RestoreHandler) :=
  filesystems.flatMap fun filesystem => handlers.map fun h => (filesystem, h.1, h.2)

/-- The name of a probe. -/
def probeName (name : String) (probe : String × String × RestoreHandler) : String :=
  name ++ "." ++ probe.1 ++ probe.2.1

/-- The probe that finds what a handler writes. -/
def BackupHandler.probe (filesystem : String) (h : BackupHandler) : String × String × RestoreHandler :=
  (filesystem, h.suffix, h.inverse)

theorem findImage_eq (b : Backup) (name : String) : b.findImage name =
    (probes.find? fun probe => b.files (b.backup_path ++ "/" ++ probeName name probe)).map fun probe =>
      ⟨b.backup_path ++ "/" ++ probeName name probe, probe.1, probe.2.2⟩ := by
  have hname : ∀ filesystem : String, ∀ h : String × RestoreHandler,
      b.backup_path ++ "/" ++ name ++ "." ++ filesystem ++ h.1 =
        b.backup_path ++ "/" ++ probeName name (filesystem, h.1, h.2) := by
    intro filesystem h
    simp only [probeName, String.append_assoc]
  rw [Backup.findImage, probes, List.find?_flatMap, List.map_findSome?]
  refine congrArg (fun f => filesystems.findSome? f) (funext fun filesystem => ?_)
  dsimp only
  simp only [hname]
  rw [findSome?_ite handlers (fun h => b.files (b.backup_path ++ "/" ++ probeName name (filesystem, h.1, h.2)))]
  simp only [Function.comp_apply, List.find?_map, Option.map_map]
  rfl

theorem mem_probes {filesystem : String} {h : BackupHandler} :
    h.probe filesystem ∈ probes ↔ filesystem ∈ filesystems := by
  have hmem : ∀ h : BackupHandler, (h.suffix, h.inverse) ∈ handlers := by
    intro h
    cases h <;> decide
  simp only [probes, List.mem_flatMap, List.mem_map, BackupHandler.probe, Prod.mk.injEq]
  constructor
  · rintro ⟨_, hfs, _, -, rfl, -⟩
    exact hfs
  · intro hfs
    exact ⟨filesystem, hfs, _, hmem h, rfl, rfl, rfl⟩

/-- A probe is the one of its handler. -/
theorem eq_probe {probe : String × String × RestoreHandler} (hmem : probe ∈ probes) {h : BackupHandler}
    (hh : probe.2.2 = h.inverse) : probe = h.probe probe.1 := by
  have hsuffix : ∀ probe ∈ probes, ∀ h : BackupHandler, probe.2.2 = h.inverse → probe.2.1 = h.suffix := by
    intro probe hmem h
    revert probe
    cases h <;> decide
  rw [BackupHandler.probe, ← hsuffix probe hmem h hh, ← hh]

/-- Probes of one partition have different names. -/
theorem probeName_inj {name : String} {probe probe' : String × String × RestoreHandler} (hmem : probe ∈ probes)
    (hmem' : probe' ∈ probes) (h : probeName name probe = probeName name probe') : probe = probe' := by
  have hnodup : (probes.map fun probe => probe.1 ++ probe.2.1).Nodup := by decide +kernel
  refine List.inj_on_of_nodup_map hnodup hmem hmem' ?_
  simp only [probeName, String.append_assoc] at h
  exact String.append_right_inj _ |>.mp (String.append_right_inj _ |>.mp h)

/-! ## What a restore selects -/

/-- The image that a restore takes, and its handler (`none` if the volume decides). -/
inductive Selected
  | nothing
  | raw (file : String)
  | image (file : String) (handler : Option RestoreHandler)

def Backup.selectExtended (b : Backup) (mount_point : String) : Selected :=
  if b.files (b.defaultImage (basename mount_point)) then .image (b.defaultImage (basename mount_point)) none
  else
    match b.findImage (basename mount_point) with
    | none => .nothing
    | some found => .image found.file (some found.handler)

def Way.select (b : Backup) (mount_point : String) : Way → Selected
  | .extended => b.selectExtended mount_point
  | .partition =>
    match volumeForPath b.volumes mount_point with
    | none => .nothing
    | some v =>
      if isFlashType v.fs_type then .raw (b.backup_path ++ mount_point ++ ".img")
      else b.selectExtended mount_point

def Way.restore (b : Backup) (mount_point : String) (umount : Bool) : Way → Prog RootsOp Int
  | .partition => nandroidRestorePartition b mount_point
  | .extended => nandroidRestorePartitionExtended b mount_point umount

/-- The call writes what was selected, by the handler that was selected. -/
def Selected.Writes (b : Backup) (mount_point : String) (t : Touch) : Selected → Prop
  | .nothing => False
  | .raw file => ∃ v, volumeForPath b.volumes mount_point = some v ∧ t = .flash v.device file
  | .image file handler => ∃ h, (∀ h' ∈ handler, h = h') ∧ t = .extract h file mount_point

/-- The call writes an image. -/
def Touch.IsWrite : Touch → Prop
  | .flash _ _ | .extract _ _ _ => True
  | _ => False

section Restore

variable {b : Backup} {mount_point : String}

/-- Nothing is written but what was selected, and that is written if the restore returns 0. -/
def Restores (b : Backup) (mount_point : String) (selected : Selected) : Prog RootsOp Int → Prop :=
  Spec (fun t => t.IsWrite → selected.Writes b mount_point t) fun ret new => ret = 0 → Ok new ∧
    (selected = .nothing ∨ ∃ e ∈ new, selected.Writes b mount_point e.touch)

theorem restoreImage_selected {device file : String} {backup_filesystem : Option String}
    {handler : Option RestoreHandler} (umount : Bool) : Restores b mount_point (.image file handler)
      (restoreImage b.volumes device mount_point backup_filesystem handler file umount) := by
  have hclear : ∀ {selected : Selected}, (Touch.clear mount_point).IsWrite →
      selected.Writes b mount_point (.clear mount_point) := fun h => absurd h id
  refine (restoreImage_spec ?_ fun h hchosen _ => ⟨h, hchosen, rfl⟩).mono (fun _ h => h) ?_
  · cases backup_filesystem with
    | none => exact formatVolume_spec hclear fun _ _ _ _ _ h => absurd h id
    | some filesystem => exact formatDevice_spec hclear fun _ _ _ _ _ _ h => absurd h id
  · intro ret new hq h0
    obtain ⟨hok, e, he, h, hchosen, ht⟩ := hq h0
    exact ⟨hok, .inr ⟨e, he, h, hchosen, ht⟩⟩

theorem extended_selected (umount : Bool) : Restores b mount_point (b.selectExtended mount_point)
    (nandroidRestorePartitionExtended b mount_point umount) := by
  rw [nandroidRestorePartitionExtended, Backup.selectExtended]
  dsimp only
  split
  · exact restoreImage_selected umount
  · cases b.findImage (basename mount_point) with
    | none => exact .pure fun _ => ⟨.nil, .inl rfl⟩
    | some found => exact restoreImage_selected umount

variable (b mount_point) in
theorem restore_selected (way : Way) (umount : Bool) :
    Restores b mount_point (way.select b mount_point) (way.restore b mount_point umount) := by
  cases way with
  | extended => exact extended_selected umount
  | partition =>
    rw [Way.restore, Way.select, nandroidRestorePartition]
    cases hv : volumeForPath b.volumes mount_point with
    | none => exact .pure fun _ => ⟨.nil, .inl rfl⟩
    | some v =>
      dsimp only
      by_cases hflash : isFlashType v.fs_type = true
      · rw [if_pos hflash, if_pos hflash]
        refine (formatFlash_spec (b := b) id (fun _ hr => hr) (fun h => absurd h id) (fun _ _ _ _ h => absurd h id)
          fun _ => ⟨v, hv, rfl⟩).mono (fun _ h => h) fun ret new hq h0 => ?_
        obtain ⟨hok, e, he, ht⟩ := hq h0
        exact ⟨hok, .inr ⟨e, he, v, hv, ht⟩⟩
      · rw [if_neg hflash, if_neg hflash]
        exact extended_selected true

end Restore

/-! ## Backup and restore -/

/-- What a restore sees of the backup directory. -/
def Phone.backup (p : Phone) (d : Directory) : Backup where
  volumes := p.volumes
  backup_path := p.backup_path
  serialno := p.serialno
  files path :=
    if (p.backup_path ++ "/").toList <+: path.toList then
      decide (path.toList.drop (p.backup_path ++ "/").toList.length ∈ d)
    else p.files path

/-- What a restore should select after a backup. -/
def Product.selected (b : Backup) (mount_point : String) : Product → Selected
  | .raw => .raw (b.backup_path ++ "/" ++ Product.file mount_point .raw)
  | .image h filesystem =>
    .image (b.backup_path ++ "/" ++ Product.file mount_point (.image h filesystem)) (some h.inverse)

/-- The restore takes the image that the backup made, by the inverse handler; in no run does it write
another one, or by another handler, and it returns 0 only if it was written. -/
structure Agrees (b : Backup) (mount_point : String) (way : Way) (q : Product) : Prop where
  selects : way.select b mount_point = q.selected b mount_point
  only : ∀ umount s s', Reaches rootsSem (way.restore b mount_point umount) s s' → ∃ new,
    s'.log = s.log ++ new ∧ ∀ e ∈ new, e.touch.IsWrite → (q.selected b mount_point).Writes b mount_point e.touch
  restores : ∀ umount s s', Returns rootsSem (way.restore b mount_point umount) s 0 s' → ∃ new,
    s'.log = s.log ++ new ∧ ∃ e ∈ new, e.ret = 0 ∧ (q.selected b mount_point).Writes b mount_point e.touch

/-- The name of the image is one that the restore looks for first. -/
def NamesFit (p : Phone) (d : Directory) (mount_point : String) (way : Way) : Product → Prop
  | .raw => way = .partition ∧ mount_point = "/" ++ basename mount_point
  | .image h filesystem =>
    (way = .partition → ∀ v, volumeForPath p.volumes mount_point = some v → isFlashType v.fs_type = false) ∧
      filesystem ∈ filesystems ∧ (basename mount_point ++ ".img").toList ∉ d ∧
      ∀ probe ∈ probes.takeWhile (· ≠ h.probe filesystem), (probeName (basename mount_point) probe).toList ∉ d

section Agree

variable {p : Phone} {d d' : Directory} {mount_point : String} {way : Way} {digests : Prop}

theorem agrees_of_selects {b : Backup} {q : Product} (h : way.select b mount_point = q.selected b mount_point) :
    Agrees b mount_point way q where
  selects := h
  only umount s s' hr := by
    have hspec := restore_selected b mount_point way umount
    rw [h] at hspec
    obtain ⟨new, hl, ht⟩ := Prog.wp_reaches (hspec s) hr
    exact ⟨new, hl, ht.touches⟩
  restores umount s s' hr := by
    have hspec := restore_selected b mount_point way umount
    rw [h] at hspec
    obtain ⟨new, hl, -, hq⟩ := Prog.wp_returns (hspec s) hr
    obtain ⟨hok, hw⟩ := hq rfl
    obtain ⟨e, he, hw⟩ := hw.resolve_left (by cases q <;> nofun)
    exact ⟨new, hl, e, he, hok e he, hw⟩

theorem files_image (p : Phone) (d : Directory) (n : String) :
    (p.backup d).files (p.backup_path ++ "/" ++ n) = decide (n.toList ∈ d) := by
  have hlist : (p.backup_path ++ "/" ++ n).toList = (p.backup_path ++ "/").toList ++ n.toList := String.toList_append
  rw [Phone.backup]
  dsimp only
  rw [hlist, if_pos (List.prefix_append _ _), List.drop_left]

/-- The suffixes of images, in the old and the new format. -/
def imageSuffixes : List String := [".img", ".tar", ".tar.gz", ".dup"]

/-- What ends like an image is neither a piece of an archive nor a digest. -/
theorem Stores.mem_image {file : FileName} (h : Stores digests file d d') {pre : List Char} {suffix : String}
    (hsuffix : suffix ∈ imageSuffixes) (hne : pre ++ suffix.toList ≠ file) :
    pre ++ suffix.toList ∈ d' ↔ pre ++ suffix.toList ∈ d := by
  refine ⟨fun hmem => ?_, h.kept _⟩
  have hends : ∀ suffix ∈ imageSuffixes, suffix.toList ≠ [] ∧ suffix.toList.dropLast ≠ [] ∧
      suffix.toList.dropLast.getLast? ≠ some '.' ∧ suffix.toList.getLast? ≠ some '5' := by decide
  obtain ⟨hnil, hnil', hdot, hfive⟩ := hends suffix hsuffix
  rcases h.new _ hmem with hd | heq | ⟨i, -, heq⟩ | ⟨⟨n, heq⟩, -⟩
  · exact hd
  · exact absurd heq hne
  · refine absurd ?_ hdot
    have hpiece : (pieceName file i).dropLast.getLast? = some '.' := by
      rw [pieceName, List.dropLast_append_of_ne_nil (by simp)]
      simp
    rw [← hpiece, ← heq, List.dropLast_append_of_ne_nil hnil, List.getLast?_append_of_ne_nil _ hnil']
  · refine absurd ?_ hfive
    have hlast := congrArg List.getLast? heq
    rw [List.getLast?_append_of_ne_nil _ hnil, List.getLast?_append_of_ne_nil _ (by decide)] at hlast
    exact hlast.symm

/-- The default name is not that of an image of the new format. -/
theorem default_ne_file (h : BackupHandler) (filesystem : String) :
    (basename mount_point).toList ++ ".img".toList ≠
      (Product.file mount_point (.image h filesystem)).toList := by
  intro heq
  have hlen := congrArg List.length heq
  have hsuffix : 4 ≤ h.suffix.toList.length := by cases h <;> decide
  simp only [Product.file, String.toList_append, List.length_append] at hlen
  have hdot : ".".toList.length = 1 := by decide
  have himg : ".img".toList.length = 4 := by decide
  omega

theorem backup_path_eq (p : Phone) (d : Directory) : (p.backup d).backup_path = p.backup_path := rfl

theorem suffix_mem {probe : String × String × RestoreHandler} (h : probe ∈ probes) : probe.2.1 ∈ imageSuffixes := by
  revert probe
  decide

/-- An image of the new format leaves the default name as it was. -/
theorem files_default {h : BackupHandler} {filesystem : String}
    (hstores : Stores digests (Product.file mount_point (.image h filesystem)).toList d d') :
    (p.backup d').files ((p.backup d').defaultImage (basename mount_point)) =
      decide ((basename mount_point ++ ".img").toList ∈ d) := by
  have hpath : (p.backup d').defaultImage (basename mount_point) =
      p.backup_path ++ "/" ++ (basename mount_point ++ ".img") := by
    rw [Backup.defaultImage, backup_path_eq, String.append_assoc]
  rw [hpath, files_image, String.toList_append]
  exact decide_eq_decide.mpr (hstores.mem_image (by decide) (default_ne_file h filesystem))

/-- The selection takes the product of a handler exactly if its probe is the first that finds a file. -/
theorem selected_probe {b : Backup} {h : BackupHandler} {filesystem : String}
    (hdefault : b.files (b.defaultImage (basename mount_point)) = false) :
    b.selectExtended mount_point = Product.selected b mount_point (.image h filesystem) ↔
      (probes.find? fun probe => b.files (b.backup_path ++ "/" ++ probeName (basename mount_point) probe)) =
        some (h.probe filesystem) := by
  rw [Backup.selectExtended, hdefault, if_neg Bool.false_ne_true, findImage_eq]
  constructor
  · intro heq
    cases hfind : probes.find? fun probe => b.files (b.backup_path ++ "/" ++ probeName (basename mount_point) probe) with
    | none =>
      rw [hfind] at heq
      cases heq
    | some probe =>
      rw [hfind] at heq
      obtain ⟨hfile, hhandler⟩ := Selected.image.inj heq
      have hprobe := eq_probe (List.mem_of_find?_eq_some hfind) (Option.some.inj hhandler)
      have hname : probeName (basename mount_point) probe = probeName (basename mount_point) (h.probe filesystem) :=
        (String.append_right_inj _).mp hfile
      rw [hprobe] at hname ⊢
      have hfs : probe.1 = filesystem := by
        simpa [probeName, BackupHandler.probe, String.append_assoc] using hname
      rw [hfs]
  · intro hfind
    rw [hfind]
    rfl

theorem selectExtended_image {h : BackupHandler} {filesystem : String}
    (hstores : Stores digests (Product.file mount_point (.image h filesystem)).toList d d') :
    (p.backup d').selectExtended mount_point = Product.selected (p.backup d') mount_point (.image h filesystem) ↔
      filesystem ∈ filesystems ∧ (basename mount_point ++ ".img").toList ∉ d ∧
      ∀ probe ∈ probes.takeWhile (· ≠ h.probe filesystem), (probeName (basename mount_point) probe).toList ∉ d := by
  have hdefault := files_default (p := p) hstores
  by_cases hold : (basename mount_point ++ ".img").toList ∈ d
  · refine iff_of_false (fun heq => ?_) fun hcond => hcond.2.1 hold
    rw [Backup.selectExtended, hdefault, if_pos (decide_eq_true hold)] at heq
    cases (Selected.image.inj heq).2
  · rw [selected_probe (hdefault.trans (decide_eq_false hold)), find?_eq_some_iff_takeWhile, mem_probes]
    refine and_congr_right fun hfs => ?_
    simp only [backup_path_eq, files_image, decide_eq_true_eq, decide_eq_false_iff_not]
    have hmem : (probeName (basename mount_point) (h.probe filesystem)).toList ∈ d' := hstores.mem
    have hbefore : ∀ probe ∈ probes.takeWhile (· ≠ h.probe filesystem),
        ((probeName (basename mount_point) probe).toList ∉ d' ↔ (probeName (basename mount_point) probe).toList ∉ d) := by
      intro probe hprobe
      have hmemp := List.takeWhile_subset _ hprobe
      have hne : probe ≠ h.probe filesystem := by simpa using List.mem_takeWhile_imp hprobe
      rw [probeName, String.toList_append]
      refine not_congr (hstores.mem_image (suffix_mem hmemp) fun hfile => hne ?_)
      exact probeName_inj hmemp (mem_probes.mpr hfs) (String.toList_inj.mp (String.toList_append.trans hfile))
    exact ⟨fun hq => ⟨hold, fun probe hprobe => (hbefore probe hprobe).mp (hq.2 probe hprobe)⟩,
      fun hq => ⟨hmem, fun probe hprobe => (hbefore probe hprobe).mpr (hq.2 probe hprobe)⟩⟩

/-- A name with the suffix of an image determines it. -/
theorem suffix_inj {s s' t t' : String} (ht : t ∈ imageSuffixes) (ht' : t' ∈ imageSuffixes)
    (h : s ++ t = s' ++ t') : s = s' ∧ t = t' := by
  have hlong : ∀ t ∈ imageSuffixes, 4 ≤ t.toList.reverse.length := by decide
  have hinj : ∀ t ∈ imageSuffixes, ∀ t' ∈ imageSuffixes, t.toList.reverse.take 4 = t'.toList.reverse.take 4 → t = t' := by
    decide
  have hend := congrArg (fun s : String => s.toList.reverse.take 4) h
  simp only [String.toList_append, List.reverse_append] at hend
  rw [List.take_append_of_le_length (hlong t ht), List.take_append_of_le_length (hlong t' ht')] at hend
  obtain rfl := hinj t ht t' ht' hend
  exact ⟨(String.append_left_inj _).mp h, rfl⟩

/-- An image of a file system that is not on the list is passed over in silence. -/
theorem restore_skips {h : BackupHandler} {filesystem : String} (hfs : filesystem ∉ filesystems)
    (hstores : Stores digests (Product.file mount_point (.image h filesystem)).toList d d')
    (hdefault : (basename mount_point ++ ".img").toList ∉ d)
    (hprobes : ∀ probe ∈ probes, (probeName (basename mount_point) probe).toList ∉ d) (umount : Bool) :
    nandroidRestorePartitionExtended (p.backup d') mount_point umount = pure 0 := by
  have hold : (p.backup d').files ((p.backup d').defaultImage (basename mount_point)) = false :=
    (files_default hstores).trans (decide_eq_false hdefault)
  have hnone : (p.backup d').findImage (basename mount_point) = none := by
    rw [findImage_eq, Option.map_eq_none_iff, List.find?_eq_none]
    intro probe hprobe
    have hfilesystem : ∀ probe ∈ probes, probe.1 ∈ filesystems := by decide
    have hsuffix' : h.suffix ∈ imageSuffixes := by cases h <;> decide
    rw [backup_path_eq, files_image, decide_eq_true_eq, probeName, String.toList_append]
    refine mt (hstores.mem_image (suffix_mem hprobe) fun hfile => hfs ?_).mp ?_
    · have hname := String.toList_inj.mp (String.toList_append.trans hfile)
      have hbase := (suffix_inj (suffix_mem hprobe) hsuffix' hname).1
      rw [← (String.append_right_inj _).mp hbase]
      exact hfilesystem probe hprobe
    · rw [← String.toList_append]
      exact hprobes probe hprobe
  rw [nandroidRestorePartitionExtended]
  dsimp only
  rw [hold, if_neg Bool.false_ne_true, hnone]

theorem extendedProduct_image {a : Answers} {q : Product} (hq : extendedProduct p a mount_point = some q) :
    (∃ h filesystem, q = .image h filesystem) ∧ ∃ v, volumeForPath p.volumes mount_point = some v := by
  rw [extendedProduct] at hq
  split at hq
  · rename_i h hh
    refine ⟨⟨h, _, (Option.some.inj hq).symm⟩, Option.isSome_iff_exists.mp ?_⟩
    cases hv : volumeForPath p.volumes mount_point with
    | none =>
      rw [getBackupHandler, hv] at hh
      cases hh
    | some v => rfl
  · cases hq

/-- Only a raw partition has a raw image. -/
theorem product_cases {a : Answers} {way : Way} {q : Product} (hq : product p a mount_point way = some q) :
    ∃ v, volumeForPath p.volumes mount_point = some v ∧
      ((q = .raw ∧ isFlashType v.fs_type = true) ∨ ∃ h filesystem, q = .image h filesystem) := by
  cases way with
  | extended =>
    obtain ⟨himage, v, hv⟩ := extendedProduct_image hq
    exact ⟨v, hv, .inr himage⟩
  | partition =>
    rw [product] at hq
    cases hv : volumeForPath p.volumes mount_point with
    | none =>
      rw [hv] at hq
      cases hq
    | some v =>
      rw [hv] at hq
      dsimp only at hq
      refine ⟨v, rfl, ?_⟩
      split at hq
      · rename_i hflash
        exact .inl ⟨(Option.some.inj hq).symm, hflash⟩
      · exact .inr (extendedProduct_image hq).1

theorem selects_raw_iff {v : Volume} (hv : volumeForPath p.volumes mount_point = some v)
    (hflash : isFlashType v.fs_type = true) :
    way.select (p.backup d') mount_point = Product.selected (p.backup d') mount_point .raw ↔
      NamesFit p d mount_point way .raw := by
  cases way with
  | partition =>
    have hselect : Way.partition.select (p.backup d') mount_point = .raw (p.backup_path ++ mount_point ++ ".img") := by
      rw [Way.select, show volumeForPath (p.backup d').volumes mount_point = some v from hv]
      exact if_pos hflash
    rw [hselect, Product.selected, backup_path_eq, Product.file, Selected.raw.injEq, NamesFit]
    simp only [String.append_assoc, String.append_right_inj, true_and]
    rw [← String.append_assoc, String.append_left_inj]
  | extended =>
    refine iff_of_false (fun heq => ?_) fun hfit => by cases hfit.1
    rw [Way.select, Backup.selectExtended] at heq
    split at heq
    · cases heq
    · split at heq
      · cases heq
      · cases heq

theorem selects_image_iff {v : Volume} (hv : volumeForPath p.volumes mount_point = some v) {h : BackupHandler}
    {filesystem : String} (hstores : Stores digests (Product.file mount_point (.image h filesystem)).toList d d') :
    way.select (p.backup d') mount_point = Product.selected (p.backup d') mount_point (.image h filesystem) ↔
      NamesFit p d mount_point way (.image h filesystem) := by
  have hextended := selectExtended_image (p := p) hstores
  cases way with
  | extended =>
    rw [NamesFit, ← hextended]
    exact ⟨fun h => ⟨fun hway => absurd hway (by decide), h⟩, And.right⟩
  | partition =>
    rw [NamesFit, ← hextended]
    have hselect : Way.partition.select (p.backup d') mount_point = if isFlashType v.fs_type then
        .raw (p.backup_path ++ mount_point ++ ".img") else (p.backup d').selectExtended mount_point := by
      rw [Way.select, show volumeForPath (p.backup d').volumes mount_point = some v from hv]
      rfl
    rw [hselect]
    cases hflash : isFlashType v.fs_type with
    | true =>
      refine iff_of_false (fun heq => ?_) fun hfit => ?_
      · cases heq
      · rw [hfit.1 rfl v hv] at hflash
        cases hflash
    | false =>
      refine ⟨fun h => ⟨fun _ v' hv' => ?_, h⟩, And.right⟩
      rw [← Option.some.inj (hv.symm.trans hv'), hflash]

end Agree

/-- The restore of a partition agrees with its backup exactly if the name of the image fits. -/
theorem agrees_iff (md5 : Bytes → List Char) (p : Phone) (a : Answers) (mount_point : String) (d d' : Directory)
    (backupWay restoreWay : Way) (q : Product) (hq : product p a mount_point backupWay = some q)
    (h : backupWay.backup md5 p a mount_point d = .ok (d', 0)) :
    (q.file mount_point).toList ∈ d' ∧
      (Agrees (p.backup d') mount_point restoreWay q ↔ NamesFit p d mount_point restoreWay q) := by
  obtain ⟨v, hv, hcases⟩ := product_cases hq
  have hstores : Stores (q ≠ .raw ∧ Digests p a) (q.file mount_point).toList d d' := by
    obtain ⟨q', hq', hstores⟩ | ⟨-, -, hnone, -⟩ := backup_ok h
    · rwa [Option.some.inj (hq'.symm.trans hq)] at hstores
    · cases hv.symm.trans hnone
  have hselects : restoreWay.select (p.backup d') mount_point = q.selected (p.backup d') mount_point ↔
      NamesFit p d mount_point restoreWay q := by
    rcases hcases with ⟨rfl, hflash⟩ | ⟨handler, filesystem, rfl⟩
    · exact selects_raw_iff hv hflash
    · exact selects_image_iff hv hstores
  exact ⟨hstores.mem, fun hagree => hselects.mp hagree.selects, fun hfit => agrees_of_selects (hselects.mpr hfit)⟩

/-! ## A partition `/data` -/

/-- `/data` and `/sdcard`, and a backup directory. -/
def dataPhone (backup_path : String) : Phone where
  volumes := [⟨"/data", "auto", "/dev/block/mmcblk0p3", data_ne⟩,
    ⟨"/sdcard", "vfat", "/dev/block/mmcblk1p1", by decide⟩]
  backup_path := backup_path
  serialno := "0"
  files := fun _ => false

def sdcardPhone : Phone := dataPhone "/sdcard/backup/1"

/-- Everything works, and the partition holds this file system. -/
def mountedAs (filesystem : String) : Answers where
  mount := 0
  dircount := true
  mounted := some (some filesystem)
  forced_backup_format := []
  format_file := none
  fmt := []
  prefer_dedupe := "true"
  output := ⟨true, [1, 2, 3], 100, 0, 0, 0, some [], fun _ => rfl⟩
  md5sum_enabled := true
  digests := ⟨fun _ => true, fun n => some (n.length + 34)⟩

theorem mountedAs_mkyaffs2image (image : FileName) (d : Directory) (filesystem : String) :
    (BackupHandler.mkyaffs2image.run (mountedAs filesystem).output image d).2 = 0 := rfl

theorem mountedAs_run (image : FileName) (d : Directory) (filesystem : String) :
    (BackupHandler.tar_compress.run (mountedAs filesystem).output image d).2 = 0 := by
  have hstatus := @compress_status ⟨image, [1, 2, 3], 100, 0, 0, true⟩ .tar d
  refine hstatus.mpr ⟨rfl, ?_, ?_⟩
  · show 3 ≤ 100
    decide
  · show 3 ≤ 26 * 1000000000
    decide

theorem agrees_ext4 : ∃ d', Way.extended.backup (fun _ => []) sdcardPhone (mountedAs "ext4") "/data" ∅ =
      .ok (d', 0) ∧
    Agrees (sdcardPhone.backup d') "/data" .extended (.image .tar_compress "ext4") := by
  obtain ⟨d', h⟩ := extended_returns (fun _ => []) sdcardPhone (mountedAs "ext4") "/data" ∅ .tar_compress rfl rfl
    (by decide +kernel) (by decide +kernel) (by decide +kernel) (mountedAs_run _ _ _)
  have hq : product sdcardPhone (mountedAs "ext4") "/data" .extended =
      some (.image .tar_compress "ext4") := by decide +kernel
  refine ⟨d', h, (agrees_iff _ _ _ _ _ _ .extended .extended _ hq h).2.mpr ⟨nofun, by decide, ?_, ?_⟩⟩
  · exact AList.notMem_empty _
  · intro probe _
    exact AList.notMem_empty _

/-- The backup of an f2fs file system returns 0, and so does the restore that finds no image of it. -/
theorem not_agrees_f2fs : ∃ d', Way.extended.backup (fun _ => []) sdcardPhone (mountedAs "f2fs") "/data" ∅ =
      .ok (d', 0) ∧
    product sdcardPhone (mountedAs "f2fs") "/data" .extended = some (.image .tar_compress "f2fs") ∧
    (∀ s, Returns rootsSem (Way.extended.restore (sdcardPhone.backup d') "/data" true) s 0 s) ∧
    ¬ Agrees (sdcardPhone.backup d') "/data" .extended (.image .tar_compress "f2fs") := by
  obtain ⟨d', h⟩ := extended_returns (fun _ => []) sdcardPhone (mountedAs "f2fs") "/data" ∅ .tar_compress rfl rfl
    (by decide +kernel) (by decide +kernel) (by decide +kernel) (mountedAs_run _ _ _)
  have hq : product sdcardPhone (mountedAs "f2fs") "/data" .extended =
      some (.image .tar_compress "f2fs") := by decide +kernel
  have hreturns : ∀ s, Returns rootsSem
      (Way.extended.restore (sdcardPhone.backup d') "/data" true) s 0 s := by
    intro s
    obtain ⟨q, hq', hstores, -⟩ := extended_ok h
    obtain rfl := Option.some.inj (hq'.symm.trans hq)
    rw [Way.restore, restore_skips (by decide) hstores (AList.notMem_empty _) fun _ _ => AList.notMem_empty _]
    exact .ret
  refine ⟨d', h, hq, hreturns, fun hagree => ?_⟩
  obtain ⟨new, hl, e, he, -⟩ := hagree.restores true ⟨[], []⟩ _ (hreturns _)
  rw [List.nil_append] at hl
  rw [← hl] at he
  exact List.not_mem_nil he

end Miui
