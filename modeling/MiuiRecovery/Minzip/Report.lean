import MiuiRecovery.Minzip.Process
import MiuiRecovery.Minzip.Visit

/-!
# What an extraction reports

`mzExtractRecursive` returns `ok`, and the branch of the regular file has an `ok` of its own. What fails while the data
of a regular file are written, or when its time is set, ends the loop with the outer `ok` still true.

* `Hidden`: these failures. `openSem`: the runs without them.
* `Extracted`: what the flags ask for an entry is done.
* `extracts_all`: without a hidden failure the result `true` is right.
-/

namespace Miui.Zip

open Prog (Sem Returns call wp wp_bind wp_ret wp_op wp_mono wp_and wp_crash wp_iff)

/-- The result of a call is a failure that the inner `ok` hides. -/
def Hidden {β : Type} : ZipOp β → World → β → Prop
  | .read _ _, w, r => w.isOpen = true ∧ r = none
  | .inflateInit2, w, r => w.isOpen = true ∧ r = false
  | .inflate _ _ _, w, r => w.isOpen = true ∧ r.zerr = .failed
  | .write data, _, r => r.1 ≤ 0 ∧ r.2 = false ∨ r.1 > data.length
  | .utime path, w, r => r = false ∧ ∃ content, w.effects.getLast? = some (.file path content)
  | _, _, _ => False

/-- The calls without hidden failures. -/
def openSem (archive : Bytes) (Z : Deflate) : Sem ZipOp World :=
  fun _ o w r w' => zipSem archive Z _ o w r w' ∧ ¬ Hidden o w r

variable {archive : Bytes} {Z : Deflate} {m : MemMapping} {args : ExtractArgs} {e : ZipEntry} {path : Bytes} {w : World}

/-- The entry is extracted as a link. -/
def asLink (args : ExtractArgs) (e : ZipEntry) : Prop := ¬ args.filesOnly ∧ mzIsZipEntrySymlink e

/-- What the flags ask for an entry is done. The root directory is there. -/
structure Extracted (m : MemMapping) (Z : Deflate) (args : ExtractArgs) (e : ZipEntry) (path : Bytes)
    (effects : List Effect) : Prop where
  dir : isDirectory m e → ¬ args.filesOnly → trimSlashes path = [] ∨ .dir (trimSlashes path) ∈ effects
  link : ¬ isDirectory m e → asLink args e →
    ∃ content, Content m.bytes Z e content ∧ .link path (CString.cstr content) ∈ effects
  file : ¬ isDirectory m e → ¬ asLink args e → ∃ content, Content m.bytes Z e content ∧ .file path content ∈ effects

/-- An entry that can be extracted as what it is. -/
structure Extractable (m : MemMapping) (Z : Deflate) (args : ExtractArgs) (e : ZipEntry) : Prop where
  link : ¬ isDirectory m e → asLink args e → 0 ≤ e.uncompLen ∧ (e.compression = STORED → e.compLen = e.uncompLen)
  file : ¬ isDirectory m e → ¬ asLink args e → ¬ Faulty m.bytes Z e

/-! ## Nothing is undone -/

theorem zipSem_effects {β : Type} {o : ZipOp β} {w w' : World} {r : β} (h : zipSem archive Z β o w r w') :
    w.effects <+: w'.effects := by
  cases o with
  | malloc => obtain rfl := h; exact List.prefix_refl _
  | read => obtain ⟨rfl, -⟩ := h; exact List.prefix_refl _
  | inflateInit2 => obtain rfl := h; exact List.prefix_refl _
  | inflate => obtain ⟨rfl, -⟩ := h; exact List.prefix_refl _
  | stale => obtain rfl := h; exact List.prefix_refl _
  | memmove => obtain rfl := h; exact List.prefix_refl _
  | getPathDirStatus =>
    obtain rfl := h
    split
    · exact List.prefix_append _ _
    · exact List.prefix_refl _
  | mkdir =>
    obtain rfl := h
    split
    · exact List.prefix_append _ _
    · exact List.prefix_refl _
  | utime =>
    obtain rfl := h
    split
    · exact List.prefix_append _ _
    · exact List.prefix_refl _
  | symlink =>
    obtain rfl := h
    split
    · exact List.prefix_append _ _
    · exact List.prefix_refl _
  | creat =>
    obtain rfl := h
    split <;> exact List.prefix_refl _
  | write => obtain rfl := h; exact List.prefix_refl _
  | close => obtain rfl := h; exact List.prefix_append _ _
  | callback => obtain rfl := h; exact List.prefix_append _ _
  | endless => exact h.elim

theorem wp_effects {α : Type} (p : Prog ZipOp α) (w : World) :
    wp (openSem archive Z) (fun _ => True) (fun _ w' => w.effects <+: w'.effects) p w := by
  induction p generalizing w with
  | ret => exact ⟨trivial, List.prefix_refl _⟩
  | op o k ih =>
    exact ⟨trivial, fun r w' hs => wp_mono (fun _ h => h) (fun _ _ _ h => (zipSem_effects hs.1).trans h) (ih r w')⟩

/-- What is in the effects before a program is in them behind it. -/
theorem wp_kept {α : Type} {eff : Effect} (h : eff ∈ w.effects) (p : Prog ZipOp α) :
    wp (openSem archive Z) (fun _ => True) (fun _ w' => eff ∈ w'.effects) p w :=
  wp_mono (fun _ h => h) (fun _ _ _ hpre => hpre.subset h) (wp_effects p w)

/-! ## Directories -/

theorem trimSlashes_append {s : Bytes} (h : ∀ c ∈ s, c = 47) (path : Bytes) : trimSlashes (path ++ s) = trimSlashes path := by
  unfold trimSlashes
  rw [List.reverse_append, List.dropWhile_append_of_pos]
  simpa using h

theorem slashes_of_dropWhile {s : Bytes} (h : s.dropWhile (· == 47) = []) : ∀ c ∈ s, c = 47 := by
  simpa using h

theorem makeLevels_spec (timestamp : Bool) {fuel : Nat} {done rest : Bytes} (hfuel : rest.length ≤ fuel) :
    wp (openSem archive Z) (fun _ => True) (fun ok w' => ok = true →
      rest.dropWhile (· == 47) = [] ∨ .dir (trimSlashes (done ++ rest)) ∈ w'.effects) (makeLevels timestamp fuel done rest) w := by
  induction fuel generalizing done rest w with
  | zero =>
    obtain rfl := List.length_eq_zero_iff.mp (Nat.le_zero.mp hfuel)
    exact ⟨trivial, fun _ => .inl rfl⟩
  | succ fuel ih =>
    rw [makeLevels]
    simp only []
    by_cases hstart : rest.dropWhile (· == 47) = []
    · rw [if_pos hstart]
      exact ⟨trivial, fun _ => .inl hstart⟩
    rw [if_neg hstart]
    obtain ⟨c, start, hcons⟩ := List.exists_cons_of_ne_nil hstart
    have hc : (c != 47) = true := by
      have hhead := List.head?_dropWhile_not (· == 47) rest
      rw [hcons] at hhead
      simpa using hhead
    -- The rest is shorter, and with the level in front of it it is the same path.
    have hsplit : done ++ rest.takeWhile (· == 47) ++ (rest.dropWhile (· == 47)).takeWhile (· != 47) ++
        (rest.dropWhile (· == 47)).dropWhile (· != 47) = done ++ rest := by
      rw [List.append_assoc, List.takeWhile_append_dropWhile, List.append_assoc, List.takeWhile_append_dropWhile]
    have hshort : ((rest.dropWhile (· == 47)).dropWhile (· != 47)).length ≤ fuel := by
      have hle : (rest.dropWhile (· == 47)).length ≤ rest.length := (List.dropWhile_suffix _).length_le
      have hle' : (start.dropWhile (· != 47)).length ≤ start.length := (List.dropWhile_suffix _).length_le
      rw [hcons, List.length_cons] at hle
      simp only [hcons, List.dropWhile_cons, hc, if_true]
      omega
    generalize hlevel : done ++ rest.takeWhile (· == 47) ++ (rest.dropWhile (· == 47)).takeWhile (· != 47) = level at *
    have hnext {w : World} (hmade : .dir (trimSlashes level) ∈ w.effects) :
        wp (openSem archive Z) (fun _ => True) (fun ok w' => ok = true →
          rest.dropWhile (· == 47) = [] ∨ .dir (trimSlashes (done ++ rest)) ∈ w'.effects)
          (makeLevels timestamp fuel level ((rest.dropWhile (· == 47)).dropWhile (· != 47))) w := by
      refine wp_mono (fun _ h => h) (fun ok w' _ h hok => .inr ?_) (wp_and (ih hshort) (wp_kept hmade _))
      rcases h.1 hok with hslashes | hdir
      · rw [← hsplit, trimSlashes_append (slashes_of_dropWhile hslashes)]
        exact h.2
      · rwa [hsplit] at hdir
    have hmem (path : Bytes) : .dir (trimSlashes path) ∈ (w.did (.dir (trimSlashes path))).effects :=
      List.mem_append_right _ (List.mem_singleton_self _)
    simp only [Prog.call_bind, wp_op]
    refine ⟨trivial, fun status w' hstatus => ?_⟩
    obtain rfl : w' = _ := hstatus.1
    cases status with
    | illegal => exact ⟨trivial, by simp⟩
    | dir => exact hnext (hmem level)
    | missing =>
      simp only [reduceCtorEq, if_false, wp_op]
      refine ⟨trivial, fun made w' hmade => ?_⟩
      obtain rfl : w' = _ := hmade.1
      cases made with
      | false => exact ⟨trivial, by simp⟩
      | true =>
        rw [if_pos rfl, if_pos rfl]
        split
        · refine ⟨trivial, fun touched w' htouched => ?_⟩
          have hkept := (zipSem_effects htouched.1).subset (hmem level)
          cases touched with
          | false => exact ⟨trivial, by simp⟩
          | true => exact hnext hkept
        · exact hnext (hmem level)

/-- The directory is there behind a result of 0. -/
theorem dirCreateHierarchy_spec (path : Bytes) (timestamp : Bool) :
    wp (openSem archive Z) (fun _ => True) (fun ok w' => ok = true →
      trimSlashes path = [] ∨ .dir (trimSlashes path) ∈ w'.effects) (dirCreateHierarchy path timestamp false) w := by
  have hslash : trimSlashes (path ++ [47]) = trimSlashes path :=
    trimSlashes_append (fun c hc => List.mem_singleton.mp hc) path
  unfold dirCreateHierarchy
  by_cases hempty : path = []
  · rw [if_pos hempty]
    exact ⟨trivial, fun h => nomatch h⟩
  rw [if_neg hempty]
  simp only [Prog.call_bind, wp_op, Bool.false_eq_true, if_false]
  refine ⟨trivial, fun r w' hmalloc => ?_⟩
  obtain rfl : w' = w := hmalloc.1
  cases r with
  | false => exact ⟨trivial, fun h => nomatch h⟩
  | true =>
    simp only [if_true, wp_op]
    refine ⟨trivial, fun status w' hstatus => ?_⟩
    obtain rfl : w' = _ := hstatus.1
    cases status with
    | illegal => exact ⟨trivial, fun h => nomatch h⟩
    | dir =>
      refine ⟨trivial, fun _ => .inr ?_⟩
      rw [if_pos rfl, hslash]
      exact List.mem_append_right _ (List.mem_singleton_self _)
    | missing =>
      refine wp_mono (fun _ h => h) (fun ok w' _ h hok => ?_) (makeLevels_spec timestamp (Nat.le_refl _))
      rw [List.nil_append, hslash] at h
      rcases h hok with hslashes | hdir
      · left
        have hall := slashes_of_dropWhile hslashes
        have htrim := trimSlashes_append hall []
        rw [List.nil_append, hslash] at htrim
        exact htrim
      · exact .inr hdir

/-! ## Regular files -/

/-- The file is open, and holds what was `given`. -/
structure Writing (path : Bytes) (effects : List Effect) (given : Bytes) (w : World) : Prop where
  isOpen : w.isOpen = true
  file : w.file = (path, given)
  effects : w.effects = effects

variable {effects : List Effect} {given : Bytes}

/-- All of the data are written. -/
theorem writeProcessFunction_spec {fuel : Nat} {data : Bytes} (h : Writing path effects given w) :
    wp (openSem archive Z) (fun _ => True) (fun r w' => r.1 = true ∧ Writing path effects (given ++ data) w')
      (writeProcessFunction fuel data ()) w := by
  induction fuel generalizing data given w with
  | zero => exact ⟨trivial, fun r => nomatch r⟩
  | succ fuel ih =>
    unfold writeProcessFunction
    simp only [Prog.call_bind, wp_op]
    refine ⟨trivial, fun r w' hr => ?_⟩
    obtain ⟨rfl, hhidden⟩ := hr
    have hwritten : Writing path effects (given ++ data.take r.1.toNat)
        { w with file := (w.file.1, w.file.2 ++ data.take r.1.toNat) } :=
      ⟨h.isOpen, by rw [h.file], h.effects⟩
    obtain ⟨n, eintr⟩ := r
    by_cases hn : n ≤ 0
    · have heintr : eintr = true := by
        by_contra hfalse
        exact hhidden (.inl ⟨hn, Bool.eq_false_iff.mpr hfalse⟩)
      rw [Int.toNat_eq_zero.mpr hn, List.take_zero, List.append_nil] at hwritten
      simp only [if_pos hn, heintr, if_true]
      rw [Int.toNat_eq_zero.mpr hn, List.take_zero]
      exact ih hwritten
    · have hle : ¬ n > data.length := fun hgt => hhidden (.inr hgt)
      simp only [if_neg hn]
      by_cases hall : n = data.length
      · rw [if_pos hall]
        rw [List.take_of_length_le (by omega)] at hwritten ⊢
        exact ⟨trivial, rfl, hwritten⟩
      · rw [if_neg hall, if_neg hle]
        have hrest : wp (openSem archive Z) _ _ (writeProcessFunction fuel (data.drop n.toNat) ()) _ := ih hwritten
        rw [List.append_assoc, List.take_append_drop] at hrest
        exact hrest

theorem writeProcessFunction_contract (archive : Bytes) (Z : Deflate) (fuel : Nat) (path : Bytes)
    (effects : List Effect) :
    Contract (openSem archive Z) archive Z (fun _ => True) (writeProcessFunction fuel) (fun _ => True)
      (fun given _ w => Writing path effects given w) (fun _ _ => False) where
  sub _ _ _ _ h := h.1
  step _ _ _ _ _ _ hI :=
    wp_mono (fun _ h => h) (fun _ _ _ h => ⟨fun _ => h.2, fun hfalse => nomatch h.1.symm.trans hfalse⟩)
      (writeProcessFunction_spec hI)
  crash _ _ _ _ := trivial
  read _ _ _ _ _ _ hI h := h.2 ⟨hI.isOpen, rfl⟩
  init _ _ _ _ hI h := h.2 ⟨hI.isOpen, rfl⟩
  inflate _ _ _ _ _ _ _ _ hI h hfailed := h.2 ⟨hI.isOpen, hfailed⟩

/-- The content of a regular file is written when nothing fails. -/
theorem mzExtractZipEntryToFile_spec (hfaulty : ¬ Faulty archive Z e) (fuel : Nat) (h : Writing path effects [] w) :
    wp (openSem archive Z) (fun _ => True) (fun ok w' => ok = true ∧
      ∃ content, Content archive Z e content ∧ Writing path effects content w') (mzExtractZipEntryToFile fuel e) w := by
  unfold mzExtractZipEntryToFile
  refine wp_bind.mpr (wp_mono (fun _ h => h) (fun r w' _ hr => ?_) (mzProcessZipEntryContents_spec
    (writeProcessFunction_contract archive Z fuel path effects) (fun _ _ _ _ _ => trivial) (fun _ _ _ _ _ _ => trivial)
    fuel h))
  refine ⟨trivial, ?_⟩
  cases hret : r.1 with
  | false => exact ((hr.2 hret).resolve_left id |> hfaulty).elim
  | true =>
    refine ⟨rfl, ?_⟩
    rcases hr.1 hret with hcontent | ⟨hd, -, hfalse | ⟨hneg, -⟩⟩
    · exact hcontent
    · exact hfalse.elim
    · exact absurd ⟨(fun hs => nomatch hs.symm.trans hd), fun _ => .inl hneg⟩ hfaulty

/-- How an entry ends without a hidden failure: with the failure reported, or with `done`. -/
def Ends (P : List Effect → Prop) (r : Next) (w : World) : Prop := r = .leave false ∨ r = .next ∧ P w.effects

theorem finishEntry_spec {P : List Effect → Prop} (hP : ∀ l l', l <+: l' → P l → P l') (h : P w.effects) (path : Bytes) :
    wp (openSem archive Z) (fun _ => True) (Ends P) (finishEntry args path) w := by
  unfold finishEntry
  split
  · simp only [Prog.call_bind, wp_op]
    refine ⟨trivial, fun r w' hr => ?_⟩
    exact ⟨trivial, .inr ⟨rfl, hP _ _ (zipSem_effects hr.1) h⟩⟩
  · exact ⟨trivial, .inr ⟨rfl, h⟩⟩

theorem extractFile_spec (hfaulty : ¬ Faulty archive Z e) (fuel : Nat) :
    wp (openSem archive Z) (fun _ => True)
      (Ends fun effects => ∃ content, Content archive Z e content ∧ .file path content ∈ effects)
      (extractFile args fuel e path) w := by
  have hkeep (l l' : List Effect) (hpre : l <+: l') :
      (∃ content, Content archive Z e content ∧ .file path content ∈ l) →
        ∃ content, Content archive Z e content ∧ .file path content ∈ l' :=
    fun ⟨content, hcontent, hmem⟩ => ⟨content, hcontent, hpre.subset hmem⟩
  unfold extractFile
  simp only [Prog.call_bind, wp_op]
  refine ⟨trivial, fun created w' hcreat => ?_⟩
  obtain rfl : w' = _ := hcreat.1
  cases created with
  | false => exact ⟨trivial, .inl rfl⟩
  | true =>
    simp only [if_true, wp_bind]
    have hopen : Writing path w.effects [] { w with isOpen := true, file := (path, []) } := ⟨rfl, rfl, rfl⟩
    refine wp_mono (fun _ h => h) (fun ok w' _ hok => ?_) (mzExtractZipEntryToFile_spec hfaulty fuel hopen)
    obtain ⟨rfl, content, hcontent, hwriting⟩ := hok
    simp only [wp_op, if_true]
    refine ⟨trivial, fun _ w'' hclose => ?_⟩
    have heffects : w''.effects = w.effects ++ [.file path content] := by
      rw [hclose.1]
      show w'.effects ++ [.file w'.file.1 w'.file.2] = _
      rw [hwriting.file, hwriting.effects]
    have hdone : ∃ content, Content archive Z e content ∧ .file path content ∈ w''.effects :=
      ⟨content, hcontent, by rw [heffects]; exact List.mem_append_right _ (List.mem_singleton_self _)⟩
    split
    · refine ⟨trivial, fun touched v htouched => ?_⟩
      cases touched with
      | false =>
        refine absurd ⟨rfl, content, ?_⟩ htouched.2
        rw [heffects, List.getLast?_append, List.getLast?_singleton]
        rfl
      | true => exact finishEntry_spec hkeep (hkeep _ _ (zipSem_effects htouched.1) hdone) path
    · exact finishEntry_spec hkeep hdone path

/-! ## Links -/

/-- The text of the link so far is `given`, and there is room for the rest. -/
structure Copying (e : ZipEntry) (given : Bytes) (copied : Bytes × Int) : Prop where
  text : copied.1 = given
  left : copied.2 = e.uncompLen - given.length
  room : 0 ≤ copied.2

theorem copyProcessFunction_contract (archive : Bytes) (Z : Deflate) (e : ZipEntry) :
    Contract (openSem archive Z) archive Z (fun _ => True) copyProcessFunction (fun _ => True)
      (fun given copied _ => Copying e given copied) (fun _ _ => True) where
  sub _ _ _ _ h := h.1
  step := by
    intro given data copied w _ _ hI
    unfold copyProcessFunction
    split
    · rename_i hroom
      refine ⟨trivial, fun _ => ⟨?_, ?_, ?_⟩, fun _ => trivial⟩
      · show copied.1 ++ data = given ++ data
        rw [hI.text]
      · show copied.2 - data.length = _
        rw [hI.left, List.length_append]
        push_cast
        omega
      · show 0 ≤ copied.2 - data.length
        omega
    · exact ⟨trivial, (fun h => nomatch h), fun _ => trivial⟩
  crash _ _ _ _ := trivial
  read _ _ _ _ _ _ _ _ := trivial
  init _ _ _ _ _ _ := trivial
  inflate _ _ _ _ _ _ _ _ _ _ _ := trivial

/-- A content that has room in the text of a link is as long as the text. -/
theorem Content.length_eq {content : Bytes} (h : Content archive Z e content) (hle : content.length ≤ e.uncompLen)
    (hint : e.compLen < 2 ^ 31) (hstored : e.compression = STORED → e.compLen = e.uncompLen) :
    (content.length : Int) = e.uncompLen := by
  cases h with
  | stored hs hin =>
    have hpos : 0 ≤ e.compLen := by
      rw [hstored hs]
      omega
    have hsize : (asSize e.compLen : Int) = e.compLen := by
      unfold asSize
      omega
    by_cases hzero : asSize e.compLen = 0
    · have hnil : piece archive e.offset.toNat (asSize e.compLen) = [] := by
        rw [hzero]
        exact List.take_zero
      rw [hnil, ← hstored hs, ← hsize, hzero]
      rfl
    · rw [piece_length (hin hzero), hsize, hstored hs]
  | @deflated taken hd hfeeds hended hsize =>
    have hlow : asInt (Z.output taken).length ≤ (Z.output taken).length := by
      unfold asInt
      split <;> omega
    omega

theorem extractLink_spec (hlen : 0 ≤ e.uncompLen) (hint : e.compLen < 2 ^ 31)
    (hstored : e.compression = STORED → e.compLen = e.uncompLen) (fuel : Nat) :
    wp (openSem archive Z) (fun _ => True)
      (Ends fun effects => ∃ content, Content archive Z e content ∧ .link path (CString.cstr content) ∈ effects)
      (extractLink args fuel e path) w := by
  have hkeep (l l' : List Effect) (hpre : l <+: l') :
      (∃ content, Content archive Z e content ∧ .link path (CString.cstr content) ∈ l) →
        ∃ content, Content archive Z e content ∧ .link path (CString.cstr content) ∈ l' :=
    fun ⟨content, hcontent, hmem⟩ => ⟨content, hcontent, hpre.subset hmem⟩
  unfold extractLink
  by_cases hzero : e.uncompLen = 0
  · rw [if_pos hzero]
    exact ⟨trivial, .inl rfl⟩
  rw [if_neg hzero]
  simp only [Prog.call_bind, wp_op]
  refine ⟨trivial, fun r w' hmalloc => ?_⟩
  obtain rfl : w' = w := hmalloc.1
  cases r with
  | false => exact ⟨trivial, .inl rfl⟩
  | true =>
    simp only [if_true, wp_bind]
    have hstart : Copying e [] ([], e.uncompLen) := ⟨rfl, by simp, hlen⟩
    unfold mzReadZipEntry
    refine wp_bind.mpr (wp_mono (fun _ h => h) (fun r w' _ hr => ⟨trivial, ?_⟩) (mzProcessZipEntryContents_spec
      (copyProcessFunction_contract archive Z e) (fun _ _ _ _ _ => trivial) (fun _ _ _ _ _ _ => trivial)
      fuel hstart))
    cases hret : r.1 with
    | false => exact ⟨trivial, .inl rfl⟩
    | true =>
      obtain ⟨content, hcontent, hcopied⟩ := (hr.1 hret).resolve_right fun h => by omega
      have hroom := hcopied.room
      rw [hcopied.left] at hroom
      have hall := hcontent.length_eq (by omega) hint hstored
      simp only [if_true, wp_op]
      refine ⟨trivial, fun rest w'' hstale => ?_⟩
      have htarget : (r.2.1 ++ rest).take e.uncompLen.toNat = content := by
        rw [hcopied.text, List.take_append_of_le_length (by omega), List.take_of_length_le (by omega)]
      simp only [if_neg (not_lt.mpr hlen), htarget]
      refine ⟨trivial, fun linked v hsymlink => ?_⟩
      cases linked with
      | false => exact ⟨trivial, .inl rfl⟩
      | true =>
        refine finishEntry_spec hkeep ⟨content, hcontent, ?_⟩ path
        rw [hsymlink.1, if_pos rfl]
        exact List.mem_append_right _ (List.mem_singleton_self _)

/-! ## All entries -/

theorem Extracted.mono {l l' : List Effect} (hpre : l <+: l') (h : Extracted m Z args e path l) :
    Extracted m Z args e path l' where
  dir hdir hall := (h.dir hdir hall).imp_right fun hmem => hpre.subset hmem
  link hdir hlink :=
    let ⟨content, hcontent, hmem⟩ := h.link hdir hlink
    ⟨content, hcontent, hpre.subset hmem⟩
  file hdir hlink :=
    let ⟨content, hcontent, hmem⟩ := h.file hdir hlink
    ⟨content, hcontent, hpre.subset hmem⟩

theorem extractEntry_spec (hdry : ¬ args.dryRun) (hint : e.compLen < 2 ^ 31) (h : Extractable m Z args e) (fuel : Nat) :
    wp (openSem m.bytes Z) (fun _ => True) (Ends (Extracted m Z args e path)) (extractEntry m args fuel e path) w := by
  unfold extractEntry
  rw [if_neg hdry]
  by_cases hdir : isDirectory m e
  · have hdone {effects : List Effect} (h : ¬ args.filesOnly → trimSlashes path = [] ∨ .dir (trimSlashes path) ∈ effects) :
        Extracted m Z args e path effects := ⟨fun _ => h, fun h => absurd hdir h, fun h => absurd hdir h⟩
    rw [if_pos hdir]
    split
    · rename_i hfiles
      exact finishEntry_spec (fun _ _ => Extracted.mono) (hdone fun h => absurd hfiles h) path
    · refine wp_bind.mpr (wp_mono (fun _ h => h) (fun ok w' _ hok => ?_) (dirCreateHierarchy_spec path args.timestamp))
      cases ok with
      | false => exact ⟨trivial, .inl rfl⟩
      | true => exact finishEntry_spec (fun _ _ => Extracted.mono) (hdone fun _ => hok rfl) path
  rw [if_neg hdir]
  refine wp_bind.mpr (wp_mono (fun _ h => h) (fun ok w' _ _ => ?_) (wp_effects _ w))
  cases ok with
  | false => exact ⟨trivial, .inl rfl⟩
  | true =>
    rw [if_pos rfl]
    have hends {P : List Effect → Prop} (hP : ∀ effects, P effects → Extracted m Z args e path effects) (r : Next)
        (w : World) (h : Ends P r w) : Ends (Extracted m Z args e path) r w := h.imp_right (And.imp_right (hP _))
    by_cases hlink : asLink args e
    · obtain ⟨hlen, hstored⟩ := h.link hdir hlink
      have hdone (effects : List Effect) (h : ∃ content, Content m.bytes Z e content ∧
          .link path (CString.cstr content) ∈ effects) : Extracted m Z args e path effects :=
        ⟨fun h => absurd h hdir, fun _ _ => h, fun _ h => absurd hlink h⟩
      rw [if_pos (show ¬ args.filesOnly ∧ mzIsZipEntrySymlink e from hlink)]
      exact wp_mono (fun _ h => h) (fun r w _ hr => hends hdone r w hr) (extractLink_spec hlen hint hstored fuel)
    · have hdone (effects : List Effect) (h : ∃ content, Content m.bytes Z e content ∧ .file path content ∈ effects) :
          Extracted m Z args e path effects := ⟨fun h => absurd h hdir, fun _ h => absurd h hlink, fun _ _ => h⟩
      rw [if_neg (show ¬ (¬ args.filesOnly ∧ mzIsZipEntrySymlink e) from hlink)]
      exact wp_mono (fun _ h => h) (fun r w _ hr => hends hdone r w hr) (extractFile_spec (h.file hdir hlink) fuel)

/-- Behind the result `true` every entry of the walk has been visited, and what comes behind them has that result. -/
theorem visitAll_spec {body : ZipEntry → Bytes → Prog ZipOp Next} {stop : Prog ZipOp Bool} {R : Prop}
    {P : ZipEntry → Bytes → List Effect → Prop} (hP : ∀ e path l l', l <+: l' → P e path l → P e path l')
    (hstop : ∀ w, wp (openSem archive Z) (fun _ => True) (fun ok _ => ok = true → R) stop w)
    {l : List (ZipEntry × Bytes)}
    (hbody : ∀ x ∈ l, ∀ w, wp (openSem archive Z) (fun _ => True) (Ends (P x.1 x.2)) (body x.1 x.2) w) :
    wp (openSem archive Z) (fun _ => True) (fun ok w' => ok = true → R ∧ ∀ x ∈ l, P x.1 x.2 w'.effects)
      (visitAll body stop l) w := by
  induction l generalizing w with
  | nil => exact wp_mono (fun _ h => h) (fun _ _ _ h hok => ⟨h hok, fun _ => by simp⟩) (hstop w)
  | cons x l ih =>
    obtain ⟨e, path⟩ := x
    rw [visitAll]
    refine wp_bind.mpr (wp_mono (fun _ h => h) (fun r w' _ hr => ?_) (hbody _ List.mem_cons_self w))
    rcases hr with rfl | ⟨rfl, hdone⟩
    · exact ⟨trivial, by simp⟩
    · refine wp_mono (fun _ h => h) (fun ok w'' _ hok hret => ?_)
        (wp_and (ih fun x hx => hbody x (List.mem_cons_of_mem _ hx)) (wp_effects (visitAll body stop l) w'))
      obtain ⟨hR, hall⟩ := hok.1 hret
      exact ⟨hR, List.forall_mem_cons.mpr ⟨hP _ _ _ _ hok.2 hdone, hall⟩⟩

theorem Ending.reported {paths : PathMemory} {targetDir : Bytes} {all : Prop} {stop : Prog ZipOp Bool}
    (h : Ending paths targetDir all stop) (w : World) :
    wp (openSem archive Z) (fun _ => True) (fun ok _ => ok = true → all) stop w := by
  cases h with
  | all h => exact ⟨trivial, fun _ => h⟩
  | noMemory => exact ⟨trivial, fun h => nomatch h⟩
  | outOfBounds => exact ⟨trivial, fun r => nomatch r⟩

/-- The result `true` is right in every run without a hidden failure, for entries that can be extracted. -/
theorem extracts_all {mem : Memory} {a : ZipArchive} (h : parseZipArchive m mem = .ok a) (paths : PathMemory)
    (zipDir targetDir : Bytes) (hdry : ¬ args.dryRun)
    (hentries : ∀ e ∈ below m a.pEntries (canonicalize (CString.cstr zipDir)), Extractable m Z args e) {fuel : Nat}
    {w w' : World} (hrun : Returns (openSem m.bytes Z) (mzExtractRecursive m args fuel paths a zipDir targetDir) w true w') :
    ∀ e ∈ below m a.pEntries (canonicalize (CString.cstr zipDir)), Extracted m Z args e
      (targetPath m (CString.cstr targetDir) (canonicalize (CString.cstr zipDir)) e) w'.effects := by
  obtain ⟨n, -, stop, hending, hloop⟩ := extractLoop_start h paths targetDir (canonicalize (CString.cstr zipDir))
    (extractEntry m args fuel)
  have hbody : ∀ x ∈ ((below m a.pEntries (canonicalize (CString.cstr zipDir))).take n).map (fun e =>
      (e, targetPath m (CString.cstr targetDir) (canonicalize (CString.cstr zipDir)) e)), ∀ w,
      wp (openSem m.bytes Z) (fun _ => True) (Ends (Extracted m Z args x.1 x.2)) (extractEntry m args fuel x.1 x.2) w := by
    intro x hx w
    obtain ⟨e, he, rfl⟩ := List.mem_map.mp hx
    have he := List.mem_of_mem_take he
    obtain ⟨p, -, -, hentry⟩ := (parse_accepted h).1 e (List.mem_of_mem_filter he)
    have hint : e.compLen < 2 ^ 31 := by
      rw [hentry]
      exact asInt_lt _
    exact extractEntry_spec hdry hint (hentries e he) fuel
  unfold mzExtractRecursive extractWith at hrun
  simp only [hloop] at hrun
  have hfalse : ¬ Returns (openSem m.bytes Z) (pure false) w true w' := fun h => nomatch h
  split at hrun
  · exact absurd hrun hfalse
  split at hrun
  · exact absurd hrun hfalse
  split at hrun
  · obtain ⟨hn, hdone⟩ := (wp_iff.mp (visitAll_spec (P := Extracted m Z args) (fun _ _ _ _ => Extracted.mono)
      hending.reported hbody)).2 true w' hrun rfl
    rw [hn, List.take_length] at hdone
    exact fun e he => hdone _ (List.mem_map_of_mem he)
  · exact absurd hrun hfalse

/-- The answers of a run over files and directories; `reads` is whether the reads succeed. -/
def answers (archive : Bytes) (reads : Bool) : ∀ β : Type, ZipOp β → World → Option (β × World)
  | _, .malloc _, w => some (true, w)
  | _, .read pos count, w =>
    if reads then if pos + count ≤ archive.length then some (some (piece archive pos count), w) else none
    else some (none, w)
  | _, .getPathDirStatus path, w => some (.dir, w.did (.dir (trimSlashes path)))
  | _, .creat targetFile, w => some (true, { w with isOpen := true, file := (targetFile, []) })
  | _, .write data, w =>
    if data ≠ [] then some ((data.length, false), { w with file := (w.file.1, w.file.2 ++ data) }) else none
  | _, .close, w => some ((), { w.did (.file w.file.1 w.file.2) with isOpen := false })
  | _, _, _ => none

theorem answers_sound {reads : Bool} {β : Type} {o : ZipOp β} {w w' : World} {r : β}
    (h : answers archive reads β o w = some (r, w')) : zipSem archive Z β o w r w' ∧ (reads = true → ¬ Hidden o w r) := by
  cases o with
  | malloc =>
    obtain ⟨rfl, rfl⟩ := Prod.mk.inj (Option.some.inj h)
    exact ⟨rfl, fun _ => id⟩
  | read pos count =>
    cases reads with
    | false =>
      obtain ⟨rfl, rfl⟩ := Prod.mk.inj (Option.some.inj h)
      exact ⟨⟨rfl, fun _ h => nomatch h⟩, fun h => nomatch h⟩
    | true =>
      have h : (if pos + count ≤ archive.length then some (some (piece archive pos count), w) else none) =
        some (r, w') := h
      split at h
      · rename_i hin
        obtain ⟨rfl, rfl⟩ := Prod.mk.inj (Option.some.inj h)
        exact ⟨⟨rfl, fun _ h => ⟨.inr hin, (Option.some.inj h).symm⟩⟩, fun _ h => nomatch h.2⟩
      · cases h
  | getPathDirStatus path =>
    obtain ⟨rfl, rfl⟩ := Prod.mk.inj (Option.some.inj h)
    exact ⟨(if_pos rfl).symm, fun _ => id⟩
  | creat targetFile =>
    obtain ⟨rfl, rfl⟩ := Prod.mk.inj (Option.some.inj h)
    exact ⟨(if_pos rfl).symm, fun _ => id⟩
  | write data =>
    have h : (if data ≠ [] then some (((data.length : Int), false),
      ({ w with file := (w.file.1, w.file.2 ++ data) } : World)) else none) = some (r, w') := h
    split at h
    · rename_i hne
      obtain ⟨rfl, rfl⟩ := Prod.mk.inj (Option.some.inj h)
      have hpos := List.length_pos_of_ne_nil hne
      refine ⟨?_, fun _ hhidden => ?_⟩
      · show _ = { w with file := (w.file.1, w.file.2 ++ data.take (data.length : Int).toNat) }
        rw [Int.toNat_natCast, List.take_length]
      · rcases hhidden with ⟨hle, -⟩ | hgt
        · exact absurd hle (by simpa using hne)
        · exact absurd hgt (lt_irrefl _)
    · cases h
  | close =>
    obtain ⟨rfl, rfl⟩ := Prod.mk.inj (Option.some.inj h)
    exact ⟨rfl, fun _ => id⟩
  | inflateInit2 => cases h
  | inflate => cases h
  | stale => cases h
  | memmove => cases h
  | mkdir => cases h
  | utime => cases h
  | symlink => cases h
  | callback => cases h
  | endless => cases h

/-- The file is made, the read fails, and the result is `true`. -/
theorem oneByte_unreported : ∃ a, parseZipArchive oneByte .enough = .ok a ∧ ∃ e ∈ below oneByte a.pEntries [], ∃ w',
    Returns (zipSem oneByte.bytes .none) (mzExtractRecursive oneByte ⟨0, false, false⟩ 9 .enough a [] [47, 116]) .fresh
      true w' ∧ ¬ Extracted oneByte .none ⟨0, false, false⟩ e (targetPath oneByte [47, 116] [] e) w'.effects := by
  obtain ⟨a, h, hlist⟩ := oneByte_parses
  have hrun : ((mzExtractRecursive oneByte ⟨0, false, false⟩ 9 .enough a [] [47, 116]).exec?
      (answers oneByte.bytes false) .fresh).map (fun r => (r.1, r.2.effects)) =
        some (true, [.dir [47, 116], .file [47, 116, 47, 97] []]) := by
    unfold mzExtractRecursive extractWith
    rw [hlist]
    decide +kernel
  obtain ⟨⟨ok, w'⟩, hexec, hresult⟩ := Option.map_eq_some_iff.mp hrun
  obtain ⟨rfl, heffects⟩ := Prod.mk.inj hresult
  refine ⟨a, h, oneEntry, ?_, w', Prog.exec?_returns (fun h => (answers_sound h).1) hexec, fun hdone => ?_⟩
  · rw [hlist, below_cons_pos List.nil_prefix]
    exact List.mem_cons_self
  · obtain ⟨content, hcontent, hmem⟩ := hdone.file (by decide +kernel) fun h => absurd h.2 (by decide)
    cases hcontent with
    | stored =>
      rw [heffects] at hmem
      revert hmem
      decide +kernel
    | deflated hd => exact absurd hd (by decide)

theorem oneByte_extracted : ∃ a, parseZipArchive oneByte .enough = .ok a ∧ ∃ w' : World,
    ∀ e ∈ below oneByte a.pEntries (canonicalize (CString.cstr [])), Extracted oneByte .none ⟨0, false, false⟩ e
      (targetPath oneByte (CString.cstr [47, 116]) (canonicalize (CString.cstr [])) e) w'.effects := by
  obtain ⟨a, h, hlist⟩ := oneByte_parses
  have hrun : ((mzExtractRecursive oneByte ⟨0, false, false⟩ 9 .enough a [] [47, 116]).exec?
      (answers oneByte.bytes true) .fresh).map Prod.fst = some true := by
    unfold mzExtractRecursive extractWith
    rw [hlist]
    decide +kernel
  obtain ⟨⟨ok, w'⟩, hexec, rfl⟩ := Option.map_eq_some_iff.mp hrun
  have hentries : ∀ e ∈ below oneByte a.pEntries (canonicalize (CString.cstr [])),
      Extractable oneByte .none ⟨0, false, false⟩ e := by
    intro e he
    have he := List.mem_of_mem_filter he
    rw [hlist] at he
    obtain rfl := List.mem_singleton.mp he
    exact ⟨fun _ hlink => absurd hlink.2 (by decide), fun _ _ hfaulty => hfaulty.1 rfl⟩
  have hsound {β : Type} {o : ZipOp β} {s : World} {r : β} {s' : World}
      (h : answers oneByte.bytes true β o s = some (r, s')) : openSem oneByte.bytes .none β o s r s' :=
    ⟨(answers_sound h).1, (answers_sound (Z := .none) h).2 rfl⟩
  exact ⟨a, h, w', extracts_all h .enough [] [47, 116] (by decide) hentries (Prog.exec?_returns hsound hexec)⟩

end Miui.Zip
