import MiuiRecovery.Nandroid.Naming

/-!
# Digests of a backup

`utils_func.cpp` and `miui_func.cpp`: `Make_MD5` writes a `.md5` file next to every file of the backup
directory, and `Check_MD5` compares them before a restore (`nandroid.cpp`).

* `makeMD5With_digested`: behind `Make_MD5` every file has its digest.
* `checkMD5_digested`, `checkMD5_detects`: the check passes then, and not with a file changed.
* `md5_agrees`: in every run of backups that ends with `Make_MD5` the check passes, and finds a change of an
  image that is read alone.
* `checkMD5_undigested`: behind an advanced backup without `Make_MD5` the check fails.
-/

namespace Miui

open Directory
open CString (isSpace)

/-! ## The check -/

/-- A character of `%02x`. -/
def hexChar (d : UInt8) : Char := if d < 10 then Char.ofNat (48 + d.toNat) else Char.ofNat (87 + d.toNat)

def hexString (sum : Bytes) : List Char := List.flatMap (fun b : UInt8 => [hexChar (b >>> 4), hexChar (b &&& 15)]) sum

/-- The bytes of a text. -/
def textBytes (s : List Char) : Bytes := s.map fun c => c.toNat.toUInt8

/-- `MD5Final` -/
abbrev Md5 := Bytes → { sum : Bytes // sum.length = 16 }

/-- The text of a digest. -/
def Md5.hex (md5 : Md5) (content : Bytes) : List Char := hexString (md5 content).1

/-- `>>` of a word. -/
def firstWord (s : Bytes) : Option Bytes :=
  let rest := s.dropWhile isSpace
  if rest = [] then none else some (rest.takeWhile fun c => !isSpace c)

/-- The fields of `miui_func` that stay from one file to the next. -/
structure MiuiFunc where
  line : Bytes
  md5sum : Bytes

/-- `verify_md5digest`; without a word in the `.md5` file, `line` is the one of the file before. -/
def verifyMd5digest (md5 : Md5) (opens : FileName → Bool) (d : Directory) (n : FileName) (m : MiuiFunc) :
    Except Fault (MiuiFunc × Int) :=
  if opens (n ++ MD5_SUFFIX) = false then .ok (m, -1)
  else
    let line := (firstWord (content d (n ++ MD5_SUFFIX))).getD m.line
    -- `computeMD5()`, whose result is not looked at
    let md5sum := if opens n then (md5 (content d n)).1 else m.md5sum
    match firstWord line with
    | none => .error .crash
    | some token => .ok (⟨line, md5sum⟩, if token ≠ textBytes (hexString md5sum) then -2 else 0)

/-- The loop of `Check_MD5`. -/
def checkFiles (md5 : Md5) (opens : FileName → Bool) (d : Directory) : List FileName → MiuiFunc → Except Fault Bool
  | [], _ => .ok true
  | n :: ns, m =>
    if n ++ MD5_SUFFIX ∉ d then .ok false
    else
      match verifyMd5digest md5 opens d n m with
      | .error fault => .error fault
      | .ok (m, ret) => if ret ≠ 0 then .ok false else checkFiles md5 opens d ns m

/-- `Check_MD5`; `md5sum` is what the buffer holds before the first file. -/
def checkMD5 (md5 : Md5) (opens : FileName → Bool) (md5sum : Bytes) (d : Directory) : Except Fault Bool :=
  if getFiles d = [] then .ok false else checkFiles md5 opens d (getFiles d) ⟨[], md5sum⟩

/-! ## Digests -/

section Hex

/-- The value of a character of `%02x`. -/
def hexValue (c : Char) : Nat := if c.toNat < 58 then c.toNat - 48 else c.toNat - 87

theorem hexValue_hexChar (b : UInt8) : 16 * hexValue (hexChar (b >>> 4)) + hexValue (hexChar (b &&& 15)) = b.toNat := by
  have h : ∀ k : Fin 256, 16 * hexValue (hexChar (UInt8.ofNat k >>> 4)) + hexValue (hexChar (UInt8.ofNat k &&& 15)) =
      (UInt8.ofNat k).toNat := by decide +kernel
  simpa using h ⟨b.toNat, b.toNat_lt⟩

theorem hexChar_inj {b b' : UInt8} (hhigh : hexChar (b >>> 4) = hexChar (b' >>> 4))
    (hlow : hexChar (b &&& 15) = hexChar (b' &&& 15)) : b = b' := by
  rw [← UInt8.toNat_inj, ← hexValue_hexChar, ← hexValue_hexChar, hhigh, hlow]

theorem hexChar_lt (b : UInt8) : ∀ c ∈ [hexChar (b >>> 4), hexChar (b &&& 15)], 48 ≤ c.toNat ∧ c.toNat < 128 := by
  have h : ∀ k : Fin 256,
      (48 ≤ (hexChar (UInt8.ofNat k >>> 4)).toNat ∧ (hexChar (UInt8.ofNat k >>> 4)).toNat < 128) ∧
        48 ≤ (hexChar (UInt8.ofNat k &&& 15)).toNat ∧ (hexChar (UInt8.ofNat k &&& 15)).toNat < 128 := by
    decide +kernel
  simpa using h ⟨b.toNat, b.toNat_lt⟩

theorem mem_hexString {s : Bytes} {c : Char} (h : c ∈ hexString s) : 48 ≤ c.toNat ∧ c.toNat < 128 := by
  obtain ⟨b, -, hc⟩ := List.mem_flatMap.mp h
  exact hexChar_lt b c hc

theorem hexString_inj {s s' : Bytes} (h : hexString s = hexString s') : s = s' := by
  induction s generalizing s' with
  | nil =>
    cases s' with
    | nil => rfl
    | cons b' s' => cases h
  | cons b s ih =>
    cases s' with
    | nil => cases h
    | cons b' s' =>
      rw [hexString, hexString, List.flatMap_cons, List.flatMap_cons, List.cons_append, List.cons_append,
        List.cons_append, List.cons_append, List.cons.injEq, List.cons.injEq] at h
      obtain ⟨hhigh, hlow, htail⟩ := h
      rw [hexChar_inj hhigh hlow, ih htail]

theorem textBytes_inj {s s' : List Char} (hs : ∀ c ∈ s, c.toNat < 128) (hs' : ∀ c ∈ s', c.toNat < 128)
    (h : textBytes s = textBytes s') : s = s' := by
  induction s generalizing s' with
  | nil =>
    cases s' with
    | nil => rfl
    | cons c' s' => cases h
  | cons c s ih =>
    cases s' with
    | nil => cases h
    | cons c' s' =>
      obtain ⟨hc, htail⟩ := List.cons.inj h
      have hlt := hs c List.mem_cons_self
      have hlt' := hs' c' List.mem_cons_self
      have hnat : c.toNat = c'.toNat := by
        have := congrArg UInt8.toNat hc
        simp only [Nat.toUInt8, UInt8.toNat_ofNat'] at this
        omega
      rw [Char.toNat_inj.mp hnat, ih (fun c hc => hs c (List.mem_cons_of_mem _ hc))
        (fun c hc => hs' c (List.mem_cons_of_mem _ hc)) htail]

/-- The texts of different digests differ. -/
theorem hex_inj {md5 : Md5} {c c' : Bytes} (h : textBytes (md5.hex c) = textBytes (md5.hex c')) : md5 c = md5 c' :=
  Subtype.ext (hexString_inj (textBytes_inj (fun _ hc => (mem_hexString hc).2) (fun _ hc => (mem_hexString hc).2) h))

theorem length_hex (md5 : Md5) (c : Bytes) : (md5.hex c).length = 32 := by
  have hlen : ∀ s : Bytes, (hexString s).length = 2 * s.length := by
    intro s
    induction s with
    | nil => rfl
    | cons b s ih =>
      rw [hexString, List.flatMap_cons, List.length_append, List.length_cons, List.length_cons, List.length_nil,
        List.length_cons, ← hexString, ih]
      omega
  rw [Md5.hex, hlen, (md5 c).2]

theorem firstWord_append {w rest : Bytes} {space : UInt8} (hne : w ≠ []) (hw : ∀ c ∈ w, isSpace c = false)
    (hspace : isSpace space = true) : firstWord (w ++ space :: rest) = some w := by
  have hdrop : (w ++ space :: rest).dropWhile isSpace = w ++ space :: rest := by
    obtain ⟨c, w', rfl⟩ := List.exists_cons_of_ne_nil hne
    rw [List.cons_append, List.dropWhile_cons_of_neg (by simp [hw c List.mem_cons_self])]
  rw [firstWord, hdrop]
  have hcons : w ++ space :: rest ≠ [] := by simp
  rw [if_neg hcons, List.takeWhile_append_of_pos (by simpa using hw), List.takeWhile_cons_of_neg (by simp [hspace]),
    List.append_nil]

/-- A word is its own first word. -/
theorem firstWord_self {w : Bytes} (hne : w ≠ []) (hw : ∀ c ∈ w, isSpace c = false) : firstWord w = some w := by
  have hdrop : w.dropWhile isSpace = w := by
    obtain ⟨c, w', rfl⟩ := List.exists_cons_of_ne_nil hne
    rw [List.dropWhile_cons_of_neg (by simp [hw c List.mem_cons_self])]
  rw [firstWord, hdrop, if_neg hne, List.takeWhile_eq_self_iff.mpr (by simpa using hw)]

theorem firstWord_idem {s w : Bytes} (h : firstWord s = some w) : firstWord w = some w := by
  rw [firstWord] at h
  split at h
  · cases h
  · rename_i hrest
    obtain rfl := Option.some.inj h
    refine firstWord_self (fun hnil => ?_) fun c hc => ?_
    · rw [List.takeWhile_eq_nil_iff] at hnil
      have hspace := hnil (List.length_pos_iff.mpr hrest)
      have hhead := List.head_dropWhile_not isSpace hrest
      rw [List.head_eq_getElem] at hhead
      simp [hhead] at hspace
    · simpa using List.mem_takeWhile_imp hc

theorem isSpace_hex (md5 : Md5) (content : Bytes) : ∀ c ∈ textBytes (md5.hex content), isSpace c = false := by
  intro c hc
  obtain ⟨x, hx, rfl⟩ := List.mem_map.mp hc
  obtain ⟨hlow, hhigh⟩ := mem_hexString hx
  have h : ∀ k : Fin 128, 48 ≤ k.val → isSpace k.val.toUInt8 = false := by decide +kernel
  exact h ⟨x.toNat, hhigh⟩ hlow

/-- The first word of a `.md5` file is the digest. -/
theorem firstWord_digest (md5 : Md5) (d : Directory) (n : FileName) {k : Nat} (hk : n.length + 34 ≤ k) :
    firstWord ((md5digest md5.hex d n).take k) = some (textBytes (md5.hex (content d n))) := by
  have hlen := length_hex md5 (content d n)
  have htext : md5digest md5.hex d n = textBytes (md5.hex (content d n)) ++ 32 :: (textBytes n ++ [10]) := by
    simp only [md5digest, textBytes, List.map_append, List.append_assoc]
    rfl
  rw [List.take_of_length_le, htext]
  · refine firstWord_append ?_ (isSpace_hex md5 _) (by decide)
    intro hnil
    have := congrArg List.length hnil
    simp only [textBytes, List.length_map, hlen, List.length_nil] at this
    omega
  · rw [htext]
    simp only [textBytes, List.length_append, List.length_map, List.length_cons, List.length_nil, hlen]
    omega

end Hex

/-! ## Make and check -/

/-- Every file can be opened, and every digest written. -/
def DigestIo.Works (io : DigestIo) : Prop := ∀ n, io.opens n = true ∧ ∃ k, io.room n = some k ∧ n.length + 34 ≤ k

/-- The digest of a file is in the directory. -/
def HasCurrentDigest (md5 : Md5) (d : Directory) (n : FileName) : Prop :=
  n ++ MD5_SUFFIX ∈ d ∧ firstWord (content d (n ++ MD5_SUFFIX)) = some (textBytes (md5.hex (content d n)))

def Digested (md5 : Md5) (d : Directory) : Prop := ∀ n ∈ getFiles d, HasCurrentDigest md5 d n

section Check

variable {md5 : Md5} {opens : FileName → Bool} {md5sum : Bytes} {d : Directory} {n : FileName} {io : DigestIo}

theorem mem_getFiles : n ∈ getFiles d ↔ n ∈ d ∧ ¬ MD5_SUFFIX <:+: n ∧ 4 ≤ n.length := by
  rw [getFiles, List.mem_filter, decide_eq_true_eq]
  rfl

/-- The files behind `Make_MD5`: those with a digest are what they were. -/
theorem makeMD5With_files (md5 : Bytes → List Char) (io : DigestIo) (hn : ¬ MD5_SUFFIX <:+: n) :
    (n ∈ makeMD5With md5 io d ↔ n ∈ d) ∧ content (makeMD5With md5 io d) n = content d n := by
  have hout : n ∉ ((getFiles d).filterMap fun m =>
      if io.opens m then (io.room m).map fun k => (m ++ MD5_SUFFIX, (md5digest md5 d m).take k) else none).map Prod.fst := by
    intro hmem
    obtain ⟨f, hf, rfl⟩ := List.mem_map.mp hmem
    obtain ⟨m, -, hm⟩ := List.mem_filterMap.mp hf
    split at hm
    · obtain ⟨k, -, rfl⟩ := Option.map_eq_some_iff.mp hm
      exact hn (List.suffix_append m MD5_SUFFIX).isInfix
    · cases hm
  exact ⟨by simp only [makeMD5With, mem_writeAll, hout, false_or], content_writeAll_of_notMem hout⟩

/-- Behind `Make_MD5` every file has its digest. -/
theorem makeMD5With_digested (hio : io.Works) : Digested md5 (makeMD5With md5.hex io d) := by
  intro n hn
  obtain ⟨hmem, hmd5, hlen⟩ := mem_getFiles.mp hn
  obtain ⟨hmem', hcontent⟩ := makeMD5With_files md5.hex io (d := d) hmd5
  have hfile : n ∈ getFiles d := mem_getFiles.mpr ⟨hmem'.mp hmem, hmd5, hlen⟩
  obtain ⟨hopens, k, hroom, hk⟩ := hio n
  have hin : n ++ MD5_SUFFIX ∈ ((getFiles d).filterMap fun m => if io.opens m then
      (io.room m).map fun k => (m ++ MD5_SUFFIX, (md5digest md5.hex d m).take k) else none).map Prod.fst :=
    List.mem_map.mpr ⟨_, List.mem_filterMap.mpr ⟨n, hfile, by rw [if_pos hopens, hroom]; rfl⟩, rfl⟩
  obtain ⟨c, hc, hdigest⟩ := content_writeAll_of_mem (d := d) hin
  obtain ⟨m, -, hm⟩ := List.mem_filterMap.mp hc
  split at hm
  · obtain ⟨k', hk', hpair⟩ := Option.map_eq_some_iff.mp hm
    obtain ⟨hname, rfl⟩ := Prod.mk.inj hpair
    obtain rfl := List.append_cancel_right hname
    obtain rfl := Option.some.inj (hk'.symm.trans hroom)
    refine ⟨mem_writeAll.mpr (.inl hin), ?_⟩
    rw [hcontent, makeMD5With, hdigest, firstWord_digest md5 d m hk]
  · cases hm

/-- A `.md5` file with a word is compared. -/
theorem verifyMd5digest_word {w : Bytes} (hw : firstWord (content d (n ++ MD5_SUFFIX)) = some w) (m : MiuiFunc) :
    verifyMd5digest md5 (fun _ => true) d n m = .ok (⟨w, (md5 (content d n)).1⟩,
      if w ≠ textBytes (md5.hex (content d n)) then -2 else 0) := by
  rw [verifyMd5digest, if_neg (by simp), hw, Option.getD_some]
  simp only [firstWord_idem hw, if_true]
  rfl

theorem checkFiles_digested {ns : List FileName} (h : ∀ n ∈ ns, HasCurrentDigest md5 d n) (m : MiuiFunc) :
    checkFiles md5 (fun _ => true) d ns m = .ok true := by
  induction ns generalizing m with
  | nil => rfl
  | cons n ns ih =>
    obtain ⟨hmem, hword⟩ := h n List.mem_cons_self
    rw [checkFiles, if_neg (not_not.mpr hmem), verifyMd5digest_word hword, if_neg (not_not.mpr rfl)]
    exact ih (fun n hn => h n (List.mem_cons_of_mem _ hn)) _

/-- The check passes if every file has its digest. -/
theorem checkMD5_digested (h : Digested md5 d) (hne : n ∈ getFiles d) :
    checkMD5 md5 (fun _ => true) md5sum d = .ok true := by
  rw [checkMD5, if_neg (List.ne_nil_of_mem hne)]
  exact checkFiles_digested h _

theorem checkFiles_passes {ns : List FileName} {m : MiuiFunc} (h : checkFiles md5 (fun _ => true) d ns m = .ok true) :
    ∀ n ∈ ns, n ++ MD5_SUFFIX ∈ d ∧
      ∀ w ∈ firstWord (content d (n ++ MD5_SUFFIX)), w = textBytes (md5.hex (content d n)) := by
  induction ns generalizing m with
  | nil => nofun
  | cons n ns ih =>
    rw [checkFiles] at h
    split at h
    · cases h
    · rename_i hmem
      split at h
      · cases h
      · rename_i m' ret hverify
        split at h
        · cases h
        · rename_i hret
          intro n' hn'
          rcases List.mem_cons.mp hn' with rfl | hn'
          · refine ⟨not_not.mp hmem, fun w hw => ?_⟩
            obtain ⟨-, rfl⟩ := Prod.mk.inj (Except.ok.inj ((verifyMd5digest_word hw m).symm.trans hverify))
            by_contra hne
            rw [if_pos hne] at hret
            exact hret (by decide)
          · exact ih h n' hn'

/-- What the check has seen when it passes. -/
theorem checkMD5_passes (h : checkMD5 md5 (fun _ => true) md5sum d = .ok true) (hn : n ∈ getFiles d) :
    n ++ MD5_SUFFIX ∈ d ∧ ∀ w ∈ firstWord (content d (n ++ MD5_SUFFIX)), w = textBytes (md5.hex (content d n)) := by
  rw [checkMD5] at h
  split at h
  · cases h
  · exact checkFiles_passes h n hn

theorem mem_getFiles_insert {m : FileName} (c : Bytes) (hm : m ∈ d) : n ∈ getFiles (d.insert m c) ↔ n ∈ getFiles d := by
  rw [mem_getFiles, mem_getFiles, AList.mem_insert]
  constructor
  · rintro ⟨rfl | hn, h⟩
    · exact ⟨hm, h⟩
    · exact ⟨hn, h⟩
  · rintro ⟨hn, h⟩
    exact ⟨.inr hn, h⟩

theorem append_md5_ne (n : FileName) : n ++ MD5_SUFFIX ≠ n := fun h => by
  have := congrArg List.length h
  simp [MD5_SUFFIX] at this

/-- The check does not pass with a file changed. -/
theorem checkMD5_detects (h : Digested md5 d) (hn : n ∈ getFiles d) {c : Bytes} (hc : md5 c ≠ md5 (content d n)) :
    checkMD5 md5 (fun _ => true) md5sum (d.insert n c) ≠ .ok true := by
  intro hcheck
  obtain ⟨-, hword⟩ := h n hn
  obtain ⟨-, hseen⟩ := checkMD5_passes hcheck ((mem_getFiles_insert c (mem_getFiles.mp hn).1).mpr hn)
  rw [content_insert, content_insert_ne _ _ (append_md5_ne n)] at hseen
  exact hc (hex_inj (hseen _ hword)).symm

/-- The check does not see what is behind the first word of a `.md5` file. -/
theorem checkMD5_tail (h : Digested md5 d) (hn : n ∈ getFiles d) {c : Bytes}
    (hc : firstWord c = firstWord (content d (n ++ MD5_SUFFIX))) :
    checkMD5 md5 (fun _ => true) md5sum (d.insert (n ++ MD5_SUFFIX) c) = .ok true := by
  have hmem := (h n hn).1
  refine checkMD5_digested (n := n) (fun m hm => ?_) ((mem_getFiles_insert c hmem).mpr hn)
  have hm := (mem_getFiles_insert c hmem).mp hm
  obtain ⟨hmem', hword⟩ := h m hm
  have hne : m ≠ n ++ MD5_SUFFIX := fun heq =>
    (mem_getFiles.mp hm).2.1 (heq ▸ (List.suffix_append n MD5_SUFFIX).isInfix)
  refine ⟨(AList.mem_insert _).mpr (.inr hmem'), ?_⟩
  rw [content_insert_ne _ _ hne]
  by_cases hmn : m = n
  · subst hmn
    rw [content_insert, hc, hword]
  · rw [content_insert_ne _ _ fun heq => hmn (List.append_cancel_right heq), hword]

end Check

/-! ## Runs of backups -/

inductive BackupRun
  | full (f : BackupAnswers)
  | advanced (c : PathAnswers) (root : String) (a : Answers)

def BackupRun.run (md5 : Md5) (p : Phone) (d : Directory) : BackupRun → Except Fault (Directory × Int)
  | .full f => nandroidBackup md5.hex p f d
  | .advanced c root a => nandroidAdvancedBackup md5.hex p a c root d

/-- The backups, one after the other, return 0. -/
def Runs (md5 : Md5) (p : Phone) : List BackupRun → Directory → Directory → Prop
  | [], d, d' => d' = d
  | r :: rs, d, d' => ∃ d₁, r.run md5 p d = .ok (d₁, 0) ∧ Runs md5 p rs d₁ d'

/-- The image of a partition in a full backup. -/
def partImage (p : Phone) (f : BackupAnswers) (part : BackupPart) : Option (String × Product) :=
  match partStep p f part with
  | .skip => none
  | .wimax => some (wimaxImage p, .raw)
  | .backup way => (product p (f.parts part) part.root way).map fun q => (q.file part.root, q)

/-- The images of a backup. -/
def BackupRun.images (p : Phone) : BackupRun → List (String × Product)
  | .full f => backupOrder.filterMap (partImage p f)
  | .advanced _ root a => ((product p a root .partition).map fun q => (q.file root, q)).toList

/-- A restore reads the file; one by `dedupe` also reads blobs, which are not in the directory. -/
def Product.Reads (d : Directory) (file : String) (n : FileName) : Product → Prop
  | .image .tar_compress _ | .image .tar_gzip_compress _ => n ∈ d ∧ file.toList <+: n
  | _ => n = file.toList

/-- The check passes, and fails with a file changed that a restore of one of the images reads, unless that is
itself a digest. -/
structure Md5Agrees (md5 : Md5) (d : Directory) (images : List (String × Product)) : Prop where
  passes : ∀ md5sum, checkMD5 md5 (fun _ => true) md5sum d = .ok true
  detects : ∀ image ∈ images, ∀ n, image.2.Reads d image.1 n → ¬ MD5_SUFFIX <:+: n → ∀ c md5sum,
    md5 c ≠ md5 (content d n) → checkMD5 md5 (fun _ => true) md5sum (d.insert n c) ≠ .ok true

/-- The backup ends with `Make_MD5`, and that works. -/
def Covers (p : Phone) : BackupRun → Prop
  | .full f => f.md5sum_enabled = true ∧ f.digests.Works
  | .advanced _ root a => Digests p a ∧ a.digests.Works ∧
      ∃ v, volumeForPath p.volumes root = some v ∧ isFlashType v.fs_type = false

section Runs

variable {md5 : Md5} {p : Phone} {f : BackupAnswers} {d d' : Directory}

/-- What one backup does to the directory. -/
structure Adds (images : List (String × Product)) (d d' : Directory) : Prop where
  kept : ∀ n ∈ d, n ∈ d'
  stored : ∀ image ∈ images, image.1.toList ∈ d'

theorem Adds.trans {images images' : List (String × Product)} {d₁ : Directory} (h : Adds images d d₁)
    (h' : Adds images' d₁ d') : Adds (images ++ images') d d' where
  kept n hn := h'.kept n (h.kept n hn)
  stored image hi := (List.mem_append.mp hi).elim (fun hi => h'.kept _ (h.stored image hi)) (h'.stored image)

theorem Adds.makeMD5With {images : List (String × Product)} (h : Adds images d d') (md5 : Bytes → List Char)
    (io : DigestIo) : Adds images d (makeMD5With md5 io d') where
  kept n hn := mem_writeAll.mpr (.inr (h.kept n hn))
  stored image hi := mem_writeAll.mpr (.inr (h.stored image hi))

theorem backup_adds {a : Answers} {way : Way} {mount_point : String}
    (h : way.backup md5.hex p a mount_point d = .ok (d', 0)) :
    Adds ((product p a mount_point way).map fun q => (q.file mount_point, q)).toList d d' := by
  obtain ⟨q, hq, hstores⟩ | ⟨hnone, -, -, rfl⟩ := backup_ok h
  · rw [hq]
    refine ⟨hstores.kept, fun image hi => ?_⟩
    rw [List.mem_singleton.mp hi]
    exact hstores.mem
  · rw [hnone]
    exact ⟨fun _ hn => hn, nofun⟩

theorem backupPart_adds {part : BackupPart} (h : backupPart md5.hex p f part d = .ok (d', 0)) :
    Adds (partImage p f part).toList d d' := by
  rw [backupPart] at h
  rw [partImage]
  cases hstep : partStep p f part with
  | skip =>
    rw [hstep] at h
    cases h
    exact ⟨fun _ hn => hn, nofun⟩
  | wimax =>
    rw [hstep] at h
    cases hleave : (f.parts part).output.leave (wimaxImage p).toList d with
    | mk d₁ ret =>
      rw [hleave] at h
      obtain ⟨rfl, hret⟩ := Prod.mk.inj (Except.ok.inj h)
      have hret : ret = 0 := by
        by_contra hne
        rw [if_pos hne] at hret
        cases hret
      subst hret
      have hstores := leave_stores hleave
      exact ⟨hstores.kept, fun image hi => by rw [List.mem_singleton.mp hi]; exact hstores.mem⟩
  | backup way =>
    rw [hstep] at h
    exact backup_adds h

/-- The chain of partitions stores all of their images. -/
theorem backupParts_adds {parts : List BackupPart} (h : backupParts md5.hex p f parts d = .ok (d', 0)) :
    Adds (parts.filterMap (partImage p f)) d d' ∧
      ∀ part ∈ parts, ∃ d₁ d₂, backupPart md5.hex p f part d₁ = .ok (d₂, 0) := by
  induction parts generalizing d with
  | nil =>
    cases h
    exact ⟨⟨fun _ hn => hn, nofun⟩, nofun⟩
  | cons part parts ih =>
    rw [backupParts] at h
    split at h
    · cases h
    · rename_i d₁ ret hpart
      split at h
      · rename_i hret
        exact absurd (congrArg Prod.snd (Except.ok.inj h)) hret
      · rename_i hret
        rw [not_not.mp hret] at hpart
        obtain ⟨hadds, hall⟩ := ih h
        constructor
        · have hlist : (part :: parts).filterMap (partImage p f) =
              (partImage p f part).toList ++ parts.filterMap (partImage p f) := by
            rw [List.filterMap_cons]
            cases partImage p f part <;> rfl
          rw [hlist]
          exact (backupPart_adds hpart).trans hadds
        · intro part' hpart'
          rcases List.mem_cons.mp hpart' with rfl | hpart'
          · exact ⟨d, d₁, hpart⟩
          · exact hall part' hpart'

/-- A full backup that returns 0: its directory before the digests. -/
theorem nandroidBackup_ok (h : nandroidBackup md5.hex p f d = .ok (d', 0)) : ∃ d₁,
    backupParts md5.hex p f backupOrder d = .ok (d₁, 0) ∧
      d' = if f.md5sum_enabled then makeMD5With md5.hex f.digests d₁ else d₁ := by
  rw [nandroidBackup] at h
  split at h
  · cases h
  · split at h
    · cases h
    · rename_i d₁ ret hparts
      split at h
      · rename_i hret
        exact absurd (congrArg Prod.snd (Except.ok.inj h)) hret
      · rename_i hret
        rw [not_not.mp hret] at hparts
        refine ⟨d₁, hparts, ?_⟩
        split at h
        · rename_i henabled
          cases h
          rw [if_pos henabled]
        · rename_i henabled
          cases h
          rw [if_neg henabled]

theorem run_adds {r : BackupRun} (h : r.run md5 p d = .ok (d', 0)) : Adds (r.images p) d d' := by
  cases r with
  | full f =>
    obtain ⟨d₁, hparts, rfl⟩ := nandroidBackup_ok h
    have hadds := (backupParts_adds hparts).1
    split
    · exact hadds.makeMD5With _ _
    · exact hadds
  | advanced c root a =>
    rw [BackupRun.run, nandroidAdvancedBackup] at h
    split at h
    · cases h
    · have h' : Way.partition.backup md5.hex p a root d = .ok (d', 0) := h
      exact backup_adds h'

theorem advanced_ok {c : PathAnswers} {root : String} {a : Answers} {v : Volume}
    (hv : volumeForPath p.volumes root = some v) (hflash : isFlashType v.fs_type = false)
    (h : nandroidAdvancedBackup md5.hex p a c root d = .ok (d', 0)) :
    nandroidBackupPartitionExtended md5.hex p a root d = .ok (d', 0) := by
  rw [nandroidAdvancedBackup] at h
  split at h
  · cases h
  · rw [nandroidBackupPartition, hv] at h
    dsimp only at h
    rwa [hflash, if_neg Bool.false_ne_true] at h

theorem advanced_returns {c : PathAnswers} {root : String} {a : Answers} {v : Volume}
    (hpath : checkBackupPath p c = 0) (hv : volumeForPath p.volumes root = some v)
    (hflash : isFlashType v.fs_type = false)
    (h : nandroidBackupPartitionExtended md5.hex p a root d = .ok (d', 0)) :
    (BackupRun.advanced c root a).run md5 p d = .ok (d', 0) := by
  rw [BackupRun.run, nandroidAdvancedBackup, if_neg (not_not.mpr hpath), nandroidBackupPartition, hv]
  dsimp only
  rwa [hflash, if_neg Bool.false_ne_true]

/-- Behind a backup that ends with `Make_MD5` every file has its digest. -/
theorem run_digested {r : BackupRun} (h : r.run md5 p d = .ok (d', 0)) (hcovers : Covers p r) : Digested md5 d' := by
  cases r with
  | full f =>
    obtain ⟨henabled, hworks⟩ := hcovers
    obtain ⟨d₁, -, rfl⟩ := nandroidBackup_ok h
    rw [if_pos henabled]
    exact makeMD5With_digested hworks
  | advanced c root a =>
    obtain ⟨hdigests, hworks, v, hv, hflash⟩ := hcovers
    obtain ⟨q, -, -, hmade⟩ := extended_ok (advanced_ok hv hflash h)
    obtain ⟨d₁, rfl⟩ := hmade hdigests
    exact makeMD5With_digested hworks

/-- A full backup has an image of `/cache`. -/
theorem exists_cacheImage (h : backupParts md5.hex p f backupOrder d = .ok (d', 0)) :
    ∃ image, image ∈ backupOrder.filterMap (partImage p f) := by
  have hcache : BackupPart.part .cache ∈ backupOrder := by decide
  obtain ⟨d₁, d₂, hback⟩ := (backupParts_adds h).2 _ hcache
  obtain ⟨q, hq, -⟩ := extended_ok (show nandroidBackupPartitionExtended md5.hex p (f.parts (.part .cache))
    (BackupPart.part .cache).root d₁ = .ok (d₂, 0) from hback)
  have himage : partImage p f (.part .cache) = some (q.file (BackupPart.part .cache).root, q) := by
    show (extendedProduct p (f.parts (.part .cache)) (BackupPart.part .cache).root).map _ = _
    rw [hq]
    rfl
  exact ⟨_, List.mem_filterMap.mpr ⟨_, hcache, himage⟩⟩

/-- A backup that ends with `Make_MD5` has an image. -/
theorem exists_image {r : BackupRun} (h : r.run md5 p d = .ok (d', 0)) (hcovers : Covers p r) :
    ∃ image, image ∈ r.images p := by
  cases r with
  | full f =>
    obtain ⟨d₁, hparts, -⟩ := nandroidBackup_ok h
    exact exists_cacheImage hparts
  | advanced c root a =>
    obtain ⟨-, -, v, hv, hflash⟩ := hcovers
    obtain ⟨q, hq, -⟩ := extended_ok (advanced_ok hv hflash h)
    have hproduct : product p a root .partition = some q := by
      rw [product, hv]
      dsimp only
      rw [hflash, if_neg Bool.false_ne_true, hq]
    refine ⟨(q.file root, q), ?_⟩
    rw [BackupRun.images, hproduct]
    exact List.mem_singleton_self _

theorem four_le_length_image (q : Product) (mount_point : String) : 4 ≤ (q.file mount_point).toList.length := by
  have hsuffix : ∀ h : BackupHandler, 4 ≤ h.suffix.toList.length := by
    intro h
    cases h <;> decide
  cases q with
  | raw =>
    have himg : ".img".toList.length = 4 := by decide
    rw [Product.file, String.toList_append, List.length_append]
    omega
  | image h filesystem =>
    have := hsuffix h
    rw [Product.file, String.toList_append, List.length_append]
    omega

theorem four_le_length_images {r : BackupRun} {image : String × Product} (h : image ∈ r.images p) :
    4 ≤ image.1.toList.length := by
  cases r with
  | full f =>
    obtain ⟨part, -, hpart⟩ := List.mem_filterMap.mp h
    rw [partImage] at hpart
    split at hpart
    · cases hpart
    · obtain rfl := Option.some.inj hpart
      have hwimax : "wimax.".toList.length = 6 := by decide
      show 4 ≤ (wimaxImage p).toList.length
      simp only [wimaxImage, String.toList_append, List.length_append]
      omega
    · obtain ⟨q, -, rfl⟩ := Option.map_eq_some_iff.mp hpart
      exact four_le_length_image q _
  | advanced c root a =>
    obtain ⟨q, -, rfl⟩ := Option.map_eq_some_iff.mp (Option.mem_toList.mp h)
    exact four_le_length_image q _

theorem runs_adds {runs : List BackupRun} (h : Runs md5 p runs d d') : Adds (runs.flatMap (·.images p)) d d' := by
  induction runs generalizing d with
  | nil =>
    cases h
    exact ⟨fun _ hn => hn, nofun⟩
  | cons r rs ih =>
    obtain ⟨d₁, hr, hrs⟩ := h
    exact (run_adds hr).trans (ih hrs)

/-- A backup without an image leaves the directory as it is. -/
theorem run_idle {r : BackupRun} (h : r.run md5 p d = .ok (d', 0)) (hidle : r.images p = []) : d' = d := by
  cases r with
  | full f =>
    obtain ⟨d₁, hparts, -⟩ := nandroidBackup_ok h
    obtain ⟨q, hq⟩ := exists_cacheImage hparts
    exact absurd hidle (List.ne_nil_of_mem hq)
  | advanced c root a =>
    rw [BackupRun.run, nandroidAdvancedBackup] at h
    split at h
    · cases h
    · obtain ⟨q, hq, -⟩ | ⟨-, -, -, hd⟩ := backup_ok (show Way.partition.backup md5.hex p a root d = .ok (d', 0) from h)
      · rw [BackupRun.images, hq] at hidle
        cases hidle
      · exact hd

theorem runs_idle {runs : List BackupRun} (h : Runs md5 p runs d d') (hidle : ∀ r ∈ runs, r.images p = []) : d' = d := by
  induction runs generalizing d with
  | nil => exact h
  | cons r rs ih =>
    obtain ⟨d₁, hr, hrs⟩ := h
    rw [ih hrs fun r hr => hidle r (List.mem_cons_of_mem _ hr), run_idle hr (hidle r List.mem_cons_self)]

theorem runs_append {runs runs' : List BackupRun} (h : Runs md5 p (runs ++ runs') d d') :
    ∃ d₁, Runs md5 p runs d d₁ ∧ Runs md5 p runs' d₁ d' := by
  induction runs generalizing d with
  | nil => exact ⟨d, rfl, h⟩
  | cons r rs ih =>
    obtain ⟨d₁, hr, hrs⟩ := h
    obtain ⟨d₂, hrs, hrs'⟩ := ih hrs
    exact ⟨d₂, ⟨d₁, hr, hrs⟩, hrs'⟩

end Runs

/-- In every run of backups in which the last image is followed by `Make_MD5`, the check agrees with the digests. -/
theorem md5_agrees (md5 : Md5) (p : Phone) (before after : List BackupRun) (last : BackupRun) (d d' : Directory)
    (hruns : Runs md5 p (before ++ last :: after) d d') (hcovers : Covers p last)
    (hidle : ∀ r ∈ after, r.images p = [])
    (hnames : ∀ r ∈ before ++ last :: after, ∀ image ∈ r.images p, ¬ MD5_SUFFIX <:+: image.1.toList) :
    Md5Agrees md5 d' ((before ++ last :: after).flatMap (·.images p)) := by
  have hstored := (runs_adds hruns).stored
  obtain ⟨d₁, -, d₂, hrun, hafter⟩ := runs_append hruns
  obtain rfl := runs_idle hafter hidle
  have hdigested := run_digested hrun hcovers
  have himage : ∀ image ∈ (before ++ last :: after).flatMap (·.images p), image.1.toList ∈ getFiles d' := by
    intro image hi
    obtain ⟨r, hr, hri⟩ := List.mem_flatMap.mp hi
    exact mem_getFiles.mpr ⟨hstored image hi, hnames r hr image hri, four_le_length_images hri⟩
  constructor
  · intro md5sum
    obtain ⟨image, hi⟩ := exists_image hrun hcovers
    have hi : image ∈ (before ++ last :: after).flatMap (·.images p) :=
      List.mem_flatMap.mpr ⟨last, List.mem_append_right _ List.mem_cons_self, hi⟩
    exact checkMD5_digested hdigested (himage image hi)
  · intro image hi n hreads hmd5 c md5sum hc
    refine checkMD5_detects hdigested ?_ hc
    obtain ⟨file, q⟩ := image
    have hfile := himage _ hi
    cases q with
    | raw => exact hreads ▸ hfile
    | image handler filesystem =>
      cases handler with
      | mkyaffs2image => exact hreads ▸ hfile
      | dedupe_compress => exact hreads ▸ hfile
      | tar_compress | tar_gzip_compress =>
        obtain ⟨hn, hprefix⟩ := hreads
        exact mem_getFiles.mpr ⟨hn, hmd5, (mem_getFiles.mp hfile).2.2.trans hprefix.length_le⟩

/-- A digest for the examples: the first bytes of the content. -/
def exampleMd5 : Md5 := fun content => ⟨(content ++ List.replicate 16 0).take 16, by simp⟩

/-- A yaffs2 image of `/data` in a directory whose path goes through `data`. -/
theorem md5_agrees_yaffs2 : ∃ d', Runs exampleMd5 (dataPhone "/sdcard/data/1")
      [.advanced ⟨0, 0⟩ "/data" (mountedAs "yaffs2")] ∅ d' ∧
    Md5Agrees exampleMd5 d' [("data.yaffs2.img", .image .mkyaffs2image "yaffs2")] := by
  have hv : volumeForPath (dataPhone "/sdcard/data/1").volumes "/data" =
      some ⟨"/data", "auto", "/dev/block/mmcblk0p3", by decide⟩ := by decide +kernel
  have himages : (BackupRun.advanced ⟨0, 0⟩ "/data" (mountedAs "yaffs2")).images (dataPhone "/sdcard/data/1") =
      [("data.yaffs2.img", .image .mkyaffs2image "yaffs2")] := by decide +kernel
  obtain ⟨d', h⟩ := extended_returns exampleMd5.hex (dataPhone "/sdcard/data/1") (mountedAs "yaffs2") "/data" ∅
    .mkyaffs2image rfl rfl (by decide +kernel) (by decide +kernel) (by decide +kernel) (mountedAs_mkyaffs2image _ _ _)
  have hruns : Runs exampleMd5 (dataPhone "/sdcard/data/1")
      ([] ++ .advanced ⟨0, 0⟩ "/data" (mountedAs "yaffs2") :: []) ∅ d' :=
    ⟨d', advanced_returns (by decide +kernel) hv (by decide) h, rfl⟩
  have hagrees := md5_agrees exampleMd5 (dataPhone "/sdcard/data/1") [] []
    (.advanced ⟨0, 0⟩ "/data" (mountedAs "yaffs2")) ∅ d' hruns
    ⟨⟨by decide +kernel, rfl⟩, fun n => ⟨rfl, _, rfl, Nat.le_refl _⟩, _, hv, by decide⟩
    (fun _ hr => absurd hr List.not_mem_nil) ?_
  · rw [List.nil_append, List.flatMap_cons, List.flatMap_nil, List.append_nil, himages] at hagrees
    exact ⟨d', hruns, hagrees⟩
  · intro r hr image hi
    rw [List.mem_singleton.mp hr, himages, List.mem_singleton] at hi
    rw [hi]
    decide +kernel

/-- Behind an advanced backup that makes no digests, the check fails on a new image. -/
theorem checkMD5_undigested (md5 : Md5) (p : Phone) (c : PathAnswers) (root : String) (a : Answers) (d d' : Directory)
    (md5sum : Bytes) (q : Product) (h : (BackupRun.advanced c root a).run md5 p d = .ok (d', 0))
    (hq : product p a root .partition = some q) (hno : q = .raw ∨ ¬ Digests p a)
    (hmd5 : ¬ MD5_SUFFIX <:+: (q.file root).toList) (hold : (q.file root).toList ++ MD5_SUFFIX ∉ d) :
    checkMD5 md5 (fun _ => true) md5sum d' ≠ .ok true := by
  rw [BackupRun.run, nandroidAdvancedBackup] at h
  split at h
  · cases h
  obtain ⟨q', hq', hstores⟩ | ⟨hnone, -⟩ := backup_ok (show Way.partition.backup md5.hex p a root d = .ok (d', 0) from h)
  · obtain rfl := Option.some.inj (hq'.symm.trans hq)
    intro hcheck
    have hfile := mem_getFiles.mpr ⟨hstores.mem, hmd5, four_le_length_image q' root⟩
    rcases hstores.new _ (checkMD5_passes hcheck hfile).1 with hd | heq | ⟨i, -, heq⟩ | ⟨-, hraw, hdigests⟩
    · exact hold hd
    · exact append_md5_ne _ heq
    · exact file_ne_pieceName_md5 _ i heq
    · exact hno.elim hraw fun hno => hno hdigests
  · cases hnone.symm.trans hq

/-- An advanced backup of `/data` into `/sdcard/backup/1` makes no digests, and the check fails. -/
theorem not_md5_agrees : ∃ d', Runs exampleMd5 sdcardPhone [.advanced ⟨0, 0⟩ "/data" (mountedAs "ext4")] ∅ d' ∧
    (mountedAs "ext4").md5sum_enabled = true ∧
    ¬ Md5Agrees exampleMd5 d' [("data.ext4.tar", .image .tar_compress "ext4")] := by
  have hv : volumeForPath sdcardPhone.volumes "/data" =
      some ⟨"/data", "auto", "/dev/block/mmcblk0p3", by decide⟩ := by decide +kernel
  have hq : product sdcardPhone (mountedAs "ext4") "/data" .partition = some (.image .tar_compress "ext4") := by
    decide +kernel
  obtain ⟨d', h⟩ := extended_returns exampleMd5.hex sdcardPhone (mountedAs "ext4") "/data" ∅ .tar_compress rfl rfl
    (by decide +kernel) (by decide +kernel) (by decide +kernel) (mountedAs_run _ _ _)
  have hrun := advanced_returns (c := ⟨0, 0⟩) (by decide +kernel) hv (by decide) h
  refine ⟨d', ⟨d', hrun, rfl⟩, rfl, fun hagrees => ?_⟩
  have hno : ¬ Digests sdcardPhone (mountedAs "ext4") := fun hdigests => by
    have hmakes : makesDigests sdcardPhone.backup_path = false := by decide +kernel
    cases hmakes.symm.trans hdigests.1
  exact checkMD5_undigested exampleMd5 sdcardPhone ⟨0, 0⟩ "/data" (mountedAs "ext4") ∅ d' [] _ hrun hq (.inr hno)
    (by decide +kernel) (AList.notMem_empty _) (hagrees.passes [])

end Miui
