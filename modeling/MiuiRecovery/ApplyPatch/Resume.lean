import MiuiRecovery.ApplyPatch.Modifies

/-!
# Interrupted updates

A run of `applypatch` that is cut off anywhere leaves a storage from which a run with the same arguments
can go on, wherever the names, the masking and the digests of the arguments keep to `Sound` and no run
writes a partition from the copy in the cache.

* `generateLoop_spec`: the rounds keep the source or its copy.
* `applypatch_resumable`: the invariant, over any number of interrupted runs.
* `applypatch_truncates`, `applypatch_boot_lost`: a run on a partition truncates the copy, also where
  that is its only source.
-/

namespace Miui

open Prog (Sem Reaches Returns call)

variable (e : Env)

/-! ## What can be resumed -/

/-- There is a patch for the data. -/
def PatchArgs.Matches (a : PatchArgs) (data : Bytes) : Prop :=
  ∃ p ∈ a.patches, parseSha1 p.1 = some (e.SHA data)

/-- The target has its digest. -/
def PatchArgs.TargetDone (a : PatchArgs) (s : Storage) : Prop :=
  ∃ data, loadFileContents e s a.target = some data ∧ parseSha1 a.target_sha1_str = some (e.SHA data)

/-- There is a patch for the source. -/
def PatchArgs.SourceOk (a : PatchArgs) (s : Storage) : Prop :=
  ∃ data, loadFileContents e s a.source_filename = some data ∧ a.Matches e data

/-- There is a patch for the copy in the cache. -/
def PatchArgs.CopyOk (a : PatchArgs) (s : Storage) : Prop :=
  ∃ data, loadFileContents e s CACHE_TEMP_SOURCE = some data ∧ a.Matches e data

/-- A run can go on. -/
def PatchArgs.Resumable (a : PatchArgs) (s : Storage) : Prop :=
  a.TargetDone e s ∨ a.SourceOk e s ∨ a.CopyOk e s

variable {e} (g : GenerateArgs) {X : Bytes → Prop} {s s₁ : Storage} {β : Type}

/-! ## The rounds with the source -/

section Source

/-- The copy in the cache holds `data`. -/
def CopyIs (data : Bytes) (s : Storage) : Prop := s.files CACHE_TEMP_SOURCE = some data

/-- What is left of the source when a round is cut off: itself, or its copy if both ends are files. -/
def Backed (A : Storage → Prop) (data : Bytes) (s : Storage) : Prop :=
  A s ∨ isPartition g.target_filename = false ∧ isPartition g.source_filename = false ∧ CopyIs data s

/-- The source and its copy, with the flag of the copy. -/
structure Kept (A : Storage → Prop) (data : Bytes) (made_copy : Bool) (s : Storage) : Prop where
  backed : made_copy = true → CopyIs data s
  source : made_copy = false ∨ isPartition g.target_filename = true → A s
  plain : made_copy = true → isPartition g.target_filename = false →
    isPartition g.source_filename = false
  copied : isPartition g.target_filename = true → made_copy = true
  found : made_copy = true → g.source_patch_value.isSome = true

variable {g} {A : Storage → Prop} {data : Bytes} {made_copy : Bool}

theorem Kept.toBacked (h : Kept g A data made_copy s) : Backed g A data s := by
  cases made_copy with
  | false => exact .inl (h.source (.inl rfl))
  | true =>
    by_cases hp : isPartition g.target_filename = true
    · exact .inl (h.source (.inr hp))
    · have hp : isPartition g.target_filename = false := by simpa using hp
      exact .inr ⟨hp, h.plain rfl hp, h.backed rfl⟩

theorem outname_ne_copy (target : Bytes) : outname target ≠ CACHE_TEMP_SOURCE := by
  intro h
  have h := congrArg List.getLast? h
  unfold outname at h
  rw [List.getLast?_append,
    show (Bytes.ascii ".patch").getLast? = some 104 by decide,
    show CACHE_TEMP_SOURCE.getLast? = some 101 by decide] at h
  exact absurd h (by simp)

theorem CopyIs.output (h : Only (IsOutput g) s s₁) (hcopy : CopyIs data s) : CopyIs data s₁ :=
  (h.files _ fun hout => outname_ne_copy _ hout.2.symm).trans hcopy

/-- What a run needs of the source: no backup and no output touches it. -/
structure Source (e : Env) (g : GenerateArgs) (A : Storage → Prop) (data : Bytes) : Prop where
  loaded : g.source_file.data = some data
  found : g.source_patch_value.isSome = true
  cache : ∀ s s', Only (inCacheDir · = true) s s' → A s → A s'
  output : ∀ s s', Only (IsOutput g) s s' → A s → A s'
  apart : isPartition g.source_filename = false → g.source_filename ≠ CACHE_TEMP_SOURCE

theorem enoughSpace_looks (retry : Nat) : Looks e (enoughSpace g retry) := by
  unfold enoughSpace
  split
  · exact (freeSpace_looks _).bind fun _ => .pure _
  · exact .pure false

/-- The first half of a round keeps the source or its copy. -/
def RoomSpec (e : Env) (g : GenerateArgs) (A : Storage → Prop) (data : Bytes)
    (p : Prog PatchOp (Option (Nat × Bool))) : Prop :=
  ∀ s, A s → Prog.wp (storageSem e) (Backed g A data)
    (fun r s' => ∀ retry' made_copy, r = some (retry', made_copy) →
      Kept g A data made_copy s' ∧ (retry' ≠ 0 → A s')) p s

/-- The source is backed up, then removed. -/
theorem moveSource_spec (hsource : Source e g A data) (ht : isPartition g.target_filename = false)
    (hp : isPartition g.source_filename = false) : RoomSpec e g A data (moveSource g) := by
  intro s h
  unfold moveSource
  rw [Prog.wp_bind]
  refine (backUpSource_modifies g).wp (fun s' hs => .inl (hsource.cache _ _ hs h)) fun r s₁ hs hr => ?_
  have hA := hsource.cache _ _ hs h
  cases r with
  | false => exact ⟨.inl hA, nofun⟩
  | true =>
    have hcopy : CopyIs data s₁ := hr rfl _ hsource.loaded
    refine ⟨.inl hA, fun _ s₂ h₂ => ?_⟩
    have hcopy₂ : CopyIs data s₂ := by
      obtain rfl | rfl := h₂
      · exact hcopy
      · exact (s₁.setFile_files_ne none (hsource.apart hp).symm).trans hcopy
    have hbacked : Backed g A data s₂ := .inr ⟨ht, hp, hcopy₂⟩
    refine ⟨hbacked, fun _ s₃ h₃ => ?_⟩
    cases (show s₃ = s₂ from h₃)
    refine ⟨hbacked, fun retry' made_copy hr' => ?_⟩
    cases hr'
    refine ⟨⟨fun _ => hcopy₂, fun hor => ?_, fun _ _ => hp, fun ht' => ?_, fun _ => hsource.found⟩,
      fun hne => absurd rfl hne⟩
    · exact absurd (hor.resolve_left nofun) (by rw [ht]; nofun)
    · exact absurd ht' (by rw [ht]; nofun)

theorem Kept.unsaved (ht : isPartition g.target_filename = false) (h : A s) :
    Kept g A data false s :=
  ⟨nofun, fun _ => h, nofun, fun hp => absurd hp (by rw [ht]; nofun), nofun⟩

theorem makeRoom_source (hsource : Source e g A data) (retry : Nat) :
    RoomSpec e g A data (makeRoom g retry) := by
  intro s h
  unfold makeRoom
  split
  · rename_i hp
    rw [Prog.wp_bind]
    refine (backUpSource_modifies g).wp (fun s' hs => .inl (hsource.cache _ _ hs h)) fun r s' hs hr => ?_
    have hA := hsource.cache _ _ hs h
    cases r with
    | false => exact ⟨.inl hA, nofun⟩
    | true =>
      refine ⟨.inl hA, fun retry' made_copy hr' => ?_⟩
      cases hr'
      exact ⟨⟨fun _ => hr rfl _ hsource.loaded, fun _ => hA,
        fun _ hplain => absurd hplain (by rw [hp]; nofun), fun _ => rfl, fun _ => hsource.found⟩,
        fun hne => absurd rfl hne⟩
  · rename_i ht
    have ht : isPartition g.target_filename = false := by simpa using ht
    rw [Prog.wp_bind]
    refine (enoughSpace_looks retry).wp (.inl h) fun enough => ?_
    split
    · refine ⟨.inl h, fun retry' made_copy hr' => ?_⟩
      cases hr'
      exact ⟨.unsaved ht h, fun _ => h⟩
    · split
      · rename_i hnone
        have hfound := hsource.found
        rw [← Option.not_isSome, hfound] at hnone
        cases hnone
      · split
        · exact ⟨.inl h, nofun⟩
        · rename_i hp
          exact moveSource_spec hsource ht (by simpa using hp) s h

/-- The first half of a round with the copy changes nothing. -/
theorem makeRoom_copy (ht : isPartition g.target_filename = false)
    (hnone : g.source_patch_value = none) (retry : Nat) : RoomSpec e g A data (makeRoom g retry) := by
  intro s h
  unfold makeRoom
  rw [if_neg (by rw [ht]; nofun), Prog.wp_bind]
  refine (enoughSpace_looks retry).wp (.inl h) fun enough => ?_
  rw [hnone]
  have hkept : ∀ retry₀ : Nat, ∀ retry' made_copy, some (retry₀, false) = some (retry', made_copy) →
      Kept g A data made_copy s ∧ (retry' ≠ 0 → A s) := by
    intro retry₀ retry' made_copy hr
    cases hr
    exact ⟨.unsaved ht h, fun _ => h⟩
  cases enough with
  | false => exact ⟨.inl h, hkept 0⟩
  | true => exact ⟨.inl h, hkept retry⟩

/-- What holds behind a round. -/
def RoundKeeps (g : GenerateArgs) (A : Storage → Prop) (data : Bytes) (r : Round) (s : Storage) : Prop :=
  match r with
  | .returns _ => True
  | .patched output made_copy => Kept g A data made_copy s ∧ HasOutput g (.patched output made_copy) s
  | .failed => A s

/-- What the rounds need: each first half keeps the source or its copy, and no output touches it. -/
structure Rounds (e : Env) (g : GenerateArgs) (A : Storage → Prop) (data : Bytes) : Prop where
  room : ∀ retry, RoomSpec e g A data (makeRoom g retry)
  output : ∀ s s', Only (IsOutput g) s s' → A s → A s'

theorem Kept.output (hrounds : Rounds e g A data) (hs : Only (IsOutput g) s s₁)
    (h : Kept g A data made_copy s) : Kept g A data made_copy s₁ :=
  ⟨fun hm => (h.backed hm).output hs, fun hor => hrounds.output _ _ hs (h.source hor), h.plain, h.copied,
    h.found⟩

theorem generateRound_spec (hrounds : Rounds e g A data) (retry : Nat) (h : A s) :
    Prog.wp (storageSem e) (Backed g A data) (RoundKeeps g A data) (generateRound e g retry) s := by
  unfold generateRound
  rw [Prog.wp_bind]
  refine Prog.wp_mono (fun _ hC => hC) (fun r s₁ hC hr => ?_) (hrounds.room retry s h)
  cases r with
  | none => exact ⟨hC, trivial⟩
  | some room =>
    obtain ⟨retry', made_copy⟩ := room
    obtain ⟨hkept, hA⟩ := hr retry' made_copy rfl
    refine (patchTarget_modifies g retry' made_copy).wp
      (fun s₂ hs => (hkept.output hrounds hs).toBacked) fun r s₂ hs hr => ?_
    obtain ⟨hends, hout⟩ := hr
    cases r with
    | returns => trivial
    | patched output made =>
      cases (show made = made_copy from hends)
      exact ⟨hkept.output hrounds hs, hout⟩
    | failed => exact hrounds.output _ _ hs (hA hends)

theorem generateLoop_spec (hrounds : Rounds e g A data) (retry : Nat) (h : A s) :
    Prog.wp (storageSem e) (Backed g A data) (RoundKeeps g A data) (generateLoop e g retry) s := by
  induction retry generalizing s with
  | zero => exact generateRound_spec hrounds 0 h
  | succ retry ih =>
    unfold generateLoop
    rw [Prog.wp_bind]
    refine Prog.wp_mono (fun _ hC => hC) (fun r s₁ hC hr => ?_)
      (generateRound_spec hrounds (retry + 1) h)
    cases r with
    | failed => exact ih hr
    | returns _ | patched _ _ => exact ⟨hC, hr⟩

end Source

/-! ## The condition -/

/-- A run can overwrite or remove the data it patches. -/
def PatchArgs.ConsumesSource (a : PatchArgs) : Prop :=
  isPartition a.target = false ∧ isPartition a.source_filename = false ∨
  isPartition a.target = true ∧ partitionOf a.source_filename = partitionOf a.target

/-- The target holds the output. -/
def PatchArgs.Placed (a : PatchArgs) (output : Bytes) (s : Storage) : Prop :=
  isPartition a.target = false ∧ s.files a.target = some output ∨
  isPartition a.target = true ∧ ∃ type partition content, partitionOf a.target = some (type, partition) ∧
    s.partitions type partition = some content ∧ output <+: content

/-- The names keep apart what a run reads and what it writes; masking leaves a source one that has a
patch, and a placed output is recognised. -/
structure PatchArgs.Sound (e : Env) (a : PatchArgs) : Prop where
  source_cache : isPartition a.source_filename = false → inCacheDir a.source_filename = false
  source_output : isPartition a.source_filename = false → a.source_filename ≠ outname a.target
  target_copy : a.ConsumesSource → a.target ≠ CACHE_TEMP_SOURCE
  masked : a.ConsumesSource → ∀ data, a.Matches e data →
    ∃ data', e.retouchMaskData data = some data' ∧ a.Matches e data'
  recognised : a.ConsumesSource ∨ a.target = CACHE_TEMP_SOURCE → ∀ s output,
    parseSha1 a.target_sha1_str = some (e.SHA output) → a.Placed output s →
    a.TargetDone e s ∨ a.SourceOk e s

/-- A partition is written from its source, never from the copy in the cache. -/
def PatchArgs.Ready (e : Env) (a : PatchArgs) (s : Storage) : Prop :=
  isPartition a.target = false ∨ a.TargetDone e s ∨ a.SourceOk e s

/-! ## The output -/

section Install

variable {a : PatchArgs} {target_sha1 : Digest} {source_file copy_file : FileContents}
  {source_patch copy_patch : Option Value} {data output : Bytes} {made_copy : Bool}

theorem SourceOk.frame (hs : Only X s s₁) (hX : isPartition a.source_filename = false → ¬ X a.source_filename)
    (h : a.SourceOk e s) : a.SourceOk e s₁ := by
  obtain ⟨data, hload, hmatch⟩ := h
  exact ⟨data, (hs.load hX).trans hload, hmatch⟩

theorem CopyIs.copyOk (hmasked : ∃ data', e.retouchMaskData data = some data' ∧ a.Matches e data')
    (h : CopyIs data s) : a.CopyOk e s := by
  obtain ⟨data', hmask, hmatch⟩ := hmasked
  refine ⟨data', ?_, hmatch⟩
  rw [loadFileContents_plain (by decide), show s.files CACHE_TEMP_SOURCE = some data from h]
  exact hmask

theorem CopyOk.exists_data (h : a.CopyOk e s) :
    ∃ data data', e.retouchMaskData data = some data' ∧ a.Matches e data' := by
  obtain ⟨data', hload, hmatch⟩ := h
  rw [loadFileContents_plain (by decide)] at hload
  obtain ⟨data, -, hmask⟩ := Option.bind_eq_some_iff.mp hload
  exact ⟨data, data', hmask, hmatch⟩

/-- What is left while a partition is written. -/
structure Safe (e : Env) (a : PatchArgs) (data : Bytes) (s : Storage) : Prop where
  copy : a.ConsumesSource → CopyIs data s
  source : ¬ a.ConsumesSource → a.SourceOk e s

theorem Safe.resumable (hsound : a.Sound e) (hmatch : a.Matches e data) (h : Safe e a data s) :
    a.Resumable e s := by
  by_cases hc : a.ConsumesSource
  · exact .inr (.inr ((h.copy hc).copyOk (hsound.masked hc data hmatch)))
  · exact .inr (.inl (h.source hc))

theorem Safe.setPartition {type : PartitionType} {partition : Bytes} (content : Bytes)
    (hp : isPartition a.target = true) (hname : partitionOf a.target = some (type, partition))
    (h : Safe e a data s) : Safe e a data (s.setPartition type partition content) := by
  refine ⟨h.copy, fun hc => ?_⟩
  obtain ⟨source, hload, hmatch⟩ := h.source hc
  refine ⟨source, ?_, hmatch⟩
  rw [← hload]
  refine loadFileContents_congr (fun _ => rfl) fun type' partition' hname' => if_neg ?_
  rintro ⟨rfl, rfl⟩
  exact hc (.inr ⟨hp, hname'.trans hname.symm⟩)

/-- The copy can be removed. -/
def Settled (e : Env) (a : PatchArgs) (made_copy : Bool) (s : Storage) : Prop :=
  a.Resumable e s ∧ (made_copy = true → a.Resumable e (s.setFile CACHE_TEMP_SOURCE none))

theorem dropCopy_spec {ret : Int} (h : Settled e a made_copy s) :
    Prog.wp (storageSem e) (a.Resumable e) (fun _ _ => True)
      (do dropCopy made_copy; pure ret) s := by
  unfold dropCopy
  cases made_copy with
  | false => exact ⟨h.1, trivial⟩
  | true =>
    refine ⟨h.1, fun _ s' hs => ?_⟩
    obtain rfl | rfl := hs
    · exact ⟨h.1, trivial⟩
    · exact ⟨h.2 rfl, trivial⟩

theorem Sound.placed (hsound : a.Sound e) (hc : a.ConsumesSource ∨ a.target = CACHE_TEMP_SOURCE)
    (hsha : parseSha1 a.target_sha1_str = some (e.SHA output)) (h : a.Placed output s) :
    a.Resumable e s :=
  (hsound.recognised hc s output hsha h).imp_right .inl

theorem Placed.unlinkCopy (hne : a.target ≠ CACHE_TEMP_SOURCE) (h : a.Placed output s) :
    a.Placed output (s.setFile CACHE_TEMP_SOURCE none) := by
  obtain ⟨hp, hfile⟩ | hpart := h
  · exact .inl ⟨hp, (s.setFile_files_ne none hne).trans hfile⟩
  · exact .inr hpart

/-- Behind a complete write of a partition. -/
theorem settled_partition (hsound : a.Sound e)
    (hsha : parseSha1 a.target_sha1_str = some (e.SHA output)) (hsafe : Safe e a data s)
    (hplaced : a.Placed output s) : Settled e a made_copy s := by
  by_cases hc : a.ConsumesSource
  · have hne := hsound.target_copy hc
    exact ⟨Sound.placed hsound (.inl hc) hsha hplaced,
      fun _ => Sound.placed hsound (.inl hc) hsha (Placed.unlinkCopy hne hplaced)⟩
  · have hsource := hsafe.source hc
    refine ⟨.inr (.inl hsource), fun _ => .inr (.inl ?_)⟩
    refine SourceOk.frame (X := (· = CACHE_TEMP_SOURCE)) (.setFile none rfl) (fun hplain hx => ?_) hsource
    have hcache := hsound.source_cache hplain
    rw [hx] at hcache
    exact absurd hcache (by decide)

theorem writeToPartition_spec (hsound : a.Sound e) (hmatch : a.Matches e data)
    (hp : isPartition a.target = true) (hsha : parseSha1 a.target_sha1_str = some (e.SHA output))
    (hsafe : Safe e a data s) :
    Prog.wp (storageSem e) (a.Resumable e) (fun r s' => r = true → Settled e a made_copy s')
      (writeToPartition output a.target) s := by
  have hres := hsafe.resumable hsound hmatch
  unfold writeToPartition
  split
  · exact ⟨hres, nofun⟩
  · rename_i type partition hname
    refine ⟨hres, fun opened s₁ h₁ => ?_⟩
    cases opened with
    | false =>
      cases (show s₁ = s from h₁)
      exact ⟨hres, nofun⟩
    | true =>
      obtain ⟨old, torn, -, -, rfl⟩ := h₁
      have hsafe₁ := hsafe.setPartition torn hp hname
      refine ⟨hsafe₁.resumable hsound hmatch, fun done s₂ h₂ => ?_⟩
      obtain ⟨old', new, -, -, rfl, hnew⟩ := h₂
      have hsafe₂ := hsafe₁.setPartition new hp hname
      refine ⟨hsafe₂.resumable hsound hmatch, fun hdone => ?_⟩
      refine settled_partition hsound hsha hsafe₂ (.inr ⟨hp, type, partition, new, hname, ?_, hnew hdone⟩)
      exact if_pos ⟨rfl, rfl⟩

/-- A rename that works leaves the output in the place of the target. -/
theorem renameOutput_spec {g : GenerateArgs} {C : Storage → Prop} (hplain : isPartition g.target_filename = false)
    (hout : s.files (outname g.target_filename) = some output) (hC : C s)
    (hrename : ∀ s', s' = (s.setFile g.target_filename (some output)).setFile (outname g.target_filename) none →
      C s') :
    Prog.wp (storageSem e) C (fun r s' => r = true →
      s' = (s.setFile g.target_filename (some output)).setFile (outname g.target_filename) none)
      (placeOutput g output) s := by
  unfold placeOutput renameOutput
  rw [if_neg (by rw [hplain]; nofun), Prog.wp_bind]
  refine (setMode_looks _).wp hC fun r => ?_
  cases r with
  | false => exact ⟨hC, nofun⟩
  | true =>
    refine ⟨hC, fun renamed s' h => ?_⟩
    cases renamed with
    | false =>
      cases (show s' = s from h)
      exact ⟨hC, nofun⟩
    | true =>
      obtain ⟨data, hdata, rfl⟩ := h
      rw [hout] at hdata
      cases hdata
      exact ⟨hrename _ rfl, fun _ => rfl⟩

theorem target_ne_outname (target : Bytes) : target ≠ outname target := by
  intro h
  have h := congrArg List.length h
  unfold outname at h
  rw [List.length_append, show (Bytes.ascii ".patch").length = 6 from rfl] at h
  omega

theorem placed_rename (hplain : isPartition a.target = false) :
    a.Placed output ((s.setFile a.target (some output)).setFile (outname a.target) none) := by
  refine .inl ⟨hplain, ?_⟩
  rw [Storage.setFile_files_ne _ _ (target_ne_outname _), Storage.setFile_files]

/-- Behind a rename onto the target. -/
theorem settled_rename (hsound : a.Sound e) (hplain : isPartition a.target = false)
    (hsha : parseSha1 a.target_sha1_str = some (e.SHA output))
    (hsource : isPartition a.source_filename = true → made_copy = false ∧ a.SourceOk e s) :
    Settled e a made_copy ((s.setFile a.target (some output)).setFile (outname a.target) none) := by
  have hplaced : a.Placed output ((s.setFile a.target (some output)).setFile (outname a.target) none) :=
    placed_rename hplain
  by_cases hp : isPartition a.source_filename = true
  · obtain ⟨rfl, hok⟩ := hsource hp
    refine ⟨.inr (.inl ?_), nofun⟩
    have hnot : isPartition a.source_filename = false → ¬ True := fun h => absurd hp (by rw [h]; nofun)
    exact SourceOk.frame (X := fun _ => True)
      ((Only.setFile _ trivial).trans (.setFile _ trivial)) hnot hok
  · have hc : a.ConsumesSource := .inl ⟨hplain, by simpa using hp⟩
    exact ⟨Sound.placed hsound (.inl hc) hsha hplaced,
      fun _ => Sound.placed hsound (.inl hc) hsha (Placed.unlinkCopy (hsound.target_copy hc) hplaced)⟩

theorem Backed.resumable (hsound : a.Sound e) (hmatch : a.Matches e data)
    (h : Backed (a.generate target_sha1 source_file source_patch copy_file copy_patch) (a.SourceOk e) data s) :
    a.Resumable e s := by
  obtain h | ⟨ht, hp, hcopy⟩ := h
  · exact .inr (.inl h)
  · exact .inr (.inr (hcopy.copyOk (hsound.masked (.inl ⟨ht, hp⟩) data hmatch)))

/-- Install the output and drop the copy. -/
theorem installOutput_spec {g : GenerateArgs} (hres : a.Resumable e s)
    (hplace : e.SHA output = g.target_sha1 → Prog.wp (storageSem e) (a.Resumable e)
      (fun r s' => r = true → Settled e a made_copy s') (placeOutput g output) s) :
    Prog.wp (storageSem e) (a.Resumable e) (fun _ _ => True) (installOutput e g output made_copy) s := by
  unfold installOutput
  split
  · exact ⟨hres, trivial⟩
  · rename_i hsha
    rw [Prog.wp_bind]
    refine Prog.wp_mono (fun _ hC => hC) (fun r s₁ hC hr => ?_) (hplace (by simpa using hsha))
    cases r with
    | false => exact ⟨hC, trivial⟩
    | true => exact dropCopy_spec (hr rfl)

theorem placeOutput_source (hsound : a.Sound e) (hmatch : a.Matches e data)
    (hsha : parseSha1 a.target_sha1_str = some (e.SHA output))
    (h : RoundKeeps (a.generate target_sha1 source_file source_patch copy_file copy_patch) (a.SourceOk e)
      data (.patched output made_copy) s) :
    Prog.wp (storageSem e) (a.Resumable e) (fun r s' => r = true → Settled e a made_copy s')
      (placeOutput (a.generate target_sha1 source_file source_patch copy_file copy_patch) output) s := by
  obtain ⟨hkept, hout⟩ := h
  have hres := Backed.resumable hsound hmatch hkept.toBacked
  by_cases hp : isPartition a.target = true
  · have hsafe : Safe e a data s := ⟨fun _ => hkept.backed (hkept.copied hp), fun _ => hkept.source (.inr hp)⟩
    unfold placeOutput
    rw [if_pos (show isPartition (a.generate _ _ _ _ _).target_filename = true from hp)]
    exact writeToPartition_spec hsound hmatch hp hsha hsafe
  · have hplain : isPartition a.target = false := by simpa using hp
    have hsettled : Settled e a made_copy
        ((s.setFile a.target (some output)).setFile (outname a.target) none) := by
      refine settled_rename hsound hplain hsha fun hsource => ?_
      have hmade : made_copy = false := by
        cases made_copy with
        | false => rfl
        | true =>
          have hsf : isPartition a.source_filename = false := hkept.plain rfl hplain
          rw [hsource] at hsf
          cases hsf
      exact ⟨hmade, hkept.source (.inl hmade)⟩
    refine Prog.wp_mono (fun _ hC => hC) (fun r s' _ hr hrt => ?_)
      (renameOutput_spec hplain (hout hplain) hres fun s' hs' => ?_)
    · rw [hr hrt]
      exact hsettled
    · rw [hs']
      exact hsettled.1

/-- The rounds, then the output. -/
theorem generateTarget_spec {g : GenerateArgs} {A : Storage → Prop} (hrounds : Rounds e g A data)
    (h : A s) (hres : ∀ s, Backed g A data s → a.Resumable e s)
    (hplace : ∀ s output made_copy, RoundKeeps g A data (.patched output made_copy) s →
      e.SHA output = g.target_sha1 → Prog.wp (storageSem e) (a.Resumable e)
        (fun r s' => r = true → Settled e a made_copy s') (placeOutput g output) s) :
    Prog.wp (storageSem e) (a.Resumable e) (fun _ _ => True) (generateTarget e g) s := by
  unfold generateTarget
  rw [Prog.wp_bind]
  refine Prog.wp_mono hres (fun r s₁ hC hr => ?_) (generateLoop_spec hrounds 1 h)
  cases r with
  | returns ret => exact ⟨hres _ hC, trivial⟩
  | failed => exact ⟨hres _ hC, trivial⟩
  | patched output made_copy => exact installOutput_spec (hres _ hC) (hplace _ _ _ hr)

theorem generateTarget_source (hsound : a.Sound e) (hmatch : a.Matches e data)
    (hsha : parseSha1 a.target_sha1_str = some target_sha1) (hdata : source_file.data = some data)
    (hpatch : source_patch.isSome = true) (h : a.SourceOk e s) :
    Prog.wp (storageSem e) (a.Resumable e) (fun _ _ => True)
      (generateTarget e (a.generate target_sha1 source_file source_patch copy_file copy_patch)) s := by
  have hcache := hsound.source_cache
  have hsource : Source e (a.generate target_sha1 source_file source_patch copy_file copy_patch)
      (a.SourceOk e) data :=
    { loaded := hdata
      found := hpatch
      cache := fun s s' hs h => SourceOk.frame hs (fun hp hX => by rw [hcache hp] at hX; cases hX) h
      output := fun s s' hs h => SourceOk.frame hs (fun hp hX => hsound.source_output hp hX.2) h
      apart := fun hp hX => by
        have := hcache hp
        rw [show a.source_filename = CACHE_TEMP_SOURCE from hX] at this
        exact absurd this (by decide) }
  refine generateTarget_spec ⟨makeRoom_source hsource, hsource.output⟩ h
    (fun s hs => Backed.resumable hsound hmatch hs) fun s output made_copy hr heq => ?_
  exact placeOutput_source hsound hmatch (by rw [hsha, heq]; rfl) hr

/-- A plain target from the copy in the cache, which stays. -/
theorem placeOutput_copy (hsound : a.Sound e) (hplain : isPartition a.target = false)
    (hsha : parseSha1 a.target_sha1_str = some (e.SHA output))
    (h : RoundKeeps (a.generate target_sha1 source_file none copy_file copy_patch) (a.CopyOk e)
      data (.patched output made_copy) s) :
    Prog.wp (storageSem e) (a.Resumable e) (fun r s' => r = true → Settled e a made_copy s')
      (placeOutput (a.generate target_sha1 source_file none copy_file copy_patch) output) s := by
  obtain ⟨hkept, hout⟩ := h
  have hmade : made_copy = false := by
    cases made_copy with
    | false => rfl
    | true => exact absurd (hkept.found rfl) nofun
  have hcopy : a.CopyOk e s := hkept.source (.inl hmade)
  have hres : a.Resumable e ((s.setFile a.target (some output)).setFile (outname a.target) none) := by
    by_cases hne : a.target = CACHE_TEMP_SOURCE
    · exact Sound.placed hsound (.inr hne) hsha (placed_rename hplain)
    · obtain ⟨data, hload, hmatch⟩ := hcopy
      refine .inr (.inr ⟨data, ?_, hmatch⟩)
      rw [← hload]
      refine Only.load (X := fun f => f = a.target ∨ f = outname a.target)
        ((Only.setFile _ (.inl rfl)).trans (.setFile _ (.inr rfl))) fun _ hX => ?_
      exact hX.elim (fun h => hne h.symm) fun h => outname_ne_copy _ h.symm
  refine Prog.wp_mono (fun _ hC => hC) (fun r s' hC hr hrt => ⟨hC, fun hm => ?_⟩)
    (renameOutput_spec hplain (hout hplain) (.inr (.inr hcopy)) fun s' hs' => hs' ▸ hres)
  rw [hmade] at hm
  cases hm

theorem generateTarget_copy (hsound : a.Sound e) (hplain : isPartition a.target = false)
    (hsha : parseSha1 a.target_sha1_str = some target_sha1) (h : a.CopyOk e s) :
    Prog.wp (storageSem e) (a.Resumable e) (fun _ _ => True)
      (generateTarget e (a.generate target_sha1 source_file none copy_file copy_patch)) s := by
  have hout : ∀ s s', Only (IsOutput (a.generate target_sha1 source_file none copy_file copy_patch)) s s' →
      a.CopyOk e s → a.CopyOk e s' := by
    rintro s s' hs ⟨data, hload, hmatch⟩
    exact ⟨data, (hs.load fun _ hX => outname_ne_copy _ hX.2.symm).trans hload, hmatch⟩
  obtain ⟨data, hmasked⟩ := CopyOk.exists_data h
  have hres : ∀ s, Backed (a.generate target_sha1 source_file none copy_file copy_patch) (a.CopyOk e)
      data s → a.Resumable e s := by
    rintro s (hs | ⟨-, -, hs⟩)
    · exact .inr (.inr hs)
    · exact .inr (.inr (hs.copyOk hmasked))
  refine generateTarget_spec ⟨makeRoom_copy hplain rfl, hout⟩ h hres fun s output made_copy hr heq => ?_
  exact placeOutput_copy hsound hplain (by rw [hsha, heq]; rfl) hr

end Install

/-! ## The run -/

variable (e) in
theorem loadFileContents_call (filename : Bytes) {C : Storage → Prop} {Q : β → Storage → Prop}
    {f : FileContents → Prog PatchOp β} (h : C s)
    (hk : ∀ r : FileContents, r.data = loadFileContents e s filename →
      Prog.wp (storageSem e) C Q (f r) s) :
    Prog.wp (storageSem e) C Q (call (.loadFileContents filename) >>= f) s := by
  refine ⟨h, fun r s' hs => ?_⟩
  obtain ⟨rfl, hr, -⟩ := hs
  exact hk r hr

theorem patchFor_isSome {a : PatchArgs} {data : Bytes} :
    (a.patchFor e data).isSome = true ↔ a.Matches e data := findMatchingPatch_isSome

variable (e) in
theorem loadSource_spec {a : PatchArgs} {target_file : FileContents} {C : Storage → Prop}
    {Q : β → Storage → Prop} {f : FileContents → Prog PatchOp β}
    (htarget : target_file.data = loadFileContents e s a.target) (h : C s)
    (hk : ∀ r : FileContents, r.data = loadFileContents e s a.source_filename →
      Prog.wp (storageSem e) C Q (f r) s) :
    Prog.wp (storageSem e) C Q (loadSource a target_file >>= f) s := by
  unfold loadSource
  split
  · exact loadFileContents_call e a.source_filename h hk
  · rename_i hsame
    obtain ⟨-, hsame⟩ := not_or.mp hsame
    exact hk target_file (by rw [htarget, not_not.mp hsame])

theorem bind_patchFor {a : PatchArgs} {r : Option Bytes} {patch : Value}
    (h : r.bind (a.patchFor e) = some patch) : ∃ data, r = some data ∧ a.Matches e data := by
  obtain ⟨data, hdata, hpatch⟩ := Option.bind_eq_some_iff.mp h
  exact ⟨data, hdata, patchFor_isSome.mp (by rw [hpatch]; rfl)⟩

/-- A run with a bad source and a plain target. -/
theorem patchFromCopy_spec {a : PatchArgs} {target_sha1 : Digest} (hsound : a.Sound e)
    (hplain : isPartition a.target = false) (hsha : parseSha1 a.target_sha1_str = some target_sha1)
    (size : Nat) (h : a.Resumable e s) :
    Prog.wp (storageSem e) (a.Resumable e) (fun _ _ => True) (patchFromCopy e a target_sha1 size) s := by
  unfold patchFromCopy
  refine loadFileContents_call e CACHE_TEMP_SOURCE h fun copy_file hcopy => ?_
  split
  · exact ⟨h, trivial⟩
  · rename_i patch hpatch
    obtain ⟨data, hdata, hmatch⟩ := bind_patchFor hpatch
    exact generateTarget_copy hsound hplain hsha ⟨data, hcopy.symm.trans hdata, hmatch⟩

/-- One run, cut off anywhere. -/
theorem applypatch_spec {a : PatchArgs} (hsound : a.Sound e) (hready : a.Ready e s)
    (h : a.Resumable e s) :
    Prog.wp (storageSem e) (a.Resumable e) (fun _ _ => True) (applypatch e a) s := by
  unfold applypatch
  split
  · exact ⟨h, trivial⟩
  · rename_i target_sha1 hsha
    refine loadFileContents_call e a.target h fun target_file htarget => ?_
    split
    · exact ⟨h, trivial⟩
    · rename_i hnot
      have hnotdone : ¬ a.TargetDone e s := by
        rintro ⟨data, hload, hdone⟩
        rw [hsha] at hdone
        rw [htarget, hload] at hnot
        exact hnot hdone.symm
      refine loadSource_spec e htarget h fun source_file hsource => ?_
      split
      · rename_i patch hpatch
        obtain ⟨data, hdata, hmatch⟩ := bind_patchFor hpatch
        exact generateTarget_source hsound hmatch hsha hdata rfl ⟨data, hsource.symm.trans hdata, hmatch⟩
      · rename_i hnone
        have hbad : ¬ a.SourceOk e s := by
          rintro ⟨data, hload, hmatch⟩
          rw [hsource, hload] at hnone
          have := patchFor_isSome.mpr hmatch
          rw [show a.patchFor e data = none from hnone] at this
          cases this
        have hplain := hready.resolve_right (not_or.mpr ⟨hnotdone, hbad⟩)
        exact patchFromCopy_spec hsound hplain hsha _ h

/-! ## The copy is truncated -/

/-- A partition target: the copy in the cache is opened and truncated, whatever it is wanted for. -/
theorem generateTarget_truncates (g : GenerateArgs) (hp : isPartition g.target_filename = true)
    (s : Storage) : Reaches (storageSem e) (generateTarget e g) s (s.setFile CACHE_TEMP_SOURCE (some [])) := by
  have hfree : Returns (storageSem e) (makeFreeSpaceOnCache g.source_file.size) s true s := by
    unfold makeFreeSpaceOnCache
    rw [Prog.call_bind]
    refine .step (r := g.source_file.size) rfl ?_
    rw [if_pos (Nat.le_refl _)]
    exact .ret
  have hsave : Reaches (storageSem e) (saveFileContents CACHE_TEMP_SOURCE g.source_file) s
      (s.setFile CACHE_TEMP_SOURCE (some [])) := .step (r := true) rfl .here
  have hback : Reaches (storageSem e) (backUpSource g) s (s.setFile CACHE_TEMP_SOURCE (some [])) :=
    hfree.reaches_bind hsave
  have hroom : ∀ retry, Reaches (storageSem e) (makeRoom g retry) s
      (s.setFile CACHE_TEMP_SOURCE (some [])) := by
    intro retry
    unfold makeRoom
    rw [if_pos hp]
    exact hback.bind _
  have hloop : Reaches (storageSem e) (generateLoop e g 1) s (s.setFile CACHE_TEMP_SOURCE (some [])) := by
    unfold generateLoop
    exact ((hroom 1).bind _).bind _
  exact hloop.bind _

theorem load_returns (filename : Bytes) (s : Storage) : ∃ r : FileContents,
    r.data = loadFileContents e s filename ∧
      storageSem e _ (.loadFileContents filename) s r s := by
  refine ⟨⟨loadFileContents e s filename, ((loadFileContents e s filename).getD []).length⟩, rfl, rfl, rfl, ?_⟩
  intro data h
  rw [show loadFileContents e s filename = some data from h]
  rfl

theorem loadSource_returns {a : PatchArgs} {target_file : FileContents}
    (htarget : target_file.data = loadFileContents e s a.target) : ∃ r : FileContents,
    r.data = loadFileContents e s a.source_filename ∧
      Returns (storageSem e) (loadSource a target_file) s r s := by
  unfold loadSource
  split
  · obtain ⟨r, hr, hsem⟩ := load_returns (e := e) a.source_filename s
    exact ⟨r, hr, .step hsem .ret⟩
  · rename_i hsame
    obtain ⟨-, hsame⟩ := not_or.mp hsame
    exact ⟨target_file, by rw [htarget, not_not.mp hsame], .ret⟩

theorem bind_patchFor_isSome {a : PatchArgs} {filename : Bytes} {r : Option Bytes}
    (hr : r = loadFileContents e s filename)
    (h : ∃ data, loadFileContents e s filename = some data ∧ a.Matches e data) :
    ∃ patch, r.bind (a.patchFor e) = some patch := by
  obtain ⟨data, hload, hmatch⟩ := h
  rw [hr, hload]
  exact Option.isSome_iff_exists.mp (patchFor_isSome.mpr hmatch)

/-- A run that has work to do on a partition truncates the copy, also where the copy is its source. -/
theorem applypatch_truncates {a : PatchArgs} {target_sha1 : Digest} (hp : isPartition a.target = true)
    (hsha : parseSha1 a.target_sha1_str = some target_sha1) (hdone : ¬ a.TargetDone e s)
    (h : a.SourceOk e s ∨ a.CopyOk e s) :
    Reaches (storageSem e) (applypatch e a) s (s.setFile CACHE_TEMP_SOURCE (some [])) := by
  obtain ⟨target_file, htarget, hload⟩ := load_returns (e := e) a.target s
  obtain ⟨source_file, hsource, hreturns⟩ := loadSource_returns htarget
  have hnot : ¬ target_file.data.map e.SHA = some target_sha1 := by
    intro heq
    obtain ⟨data, hdata, hd⟩ := Option.map_eq_some_iff.mp heq
    exact hdone ⟨data, htarget.symm.trans hdata, by rw [hsha, hd]⟩
  unfold applypatch
  rw [hsha]
  dsimp only
  rw [Prog.call_bind]
  refine .step hload ?_
  rw [if_neg hnot]
  refine hreturns.reaches_bind ?_
  split
  · exact generateTarget_truncates _ hp s
  · rename_i hnone
    have hcopy : a.CopyOk e s := by
      refine h.resolve_left fun hok => ?_
      obtain ⟨patch, hpatch⟩ := bind_patchFor_isSome hsource hok
      rw [hnone] at hpatch
      cases hpatch
    obtain ⟨copy_file, hfile, hload⟩ := load_returns (e := e) CACHE_TEMP_SOURCE s
    obtain ⟨patch, hpatch⟩ := bind_patchFor_isSome hfile hcopy
    unfold patchFromCopy
    rw [Prog.call_bind]
    refine .step hload ?_
    rw [hpatch]
    exact generateTarget_truncates _ hp s

/-! ## Interrupted runs -/

/-- In any number of runs, each cut off anywhere, something to go on with is left. -/
theorem applypatch_resumable (e : Env) (a : PatchArgs) (hsound : a.Sound e) {s s' : Storage}
    (hruns : Prog.Restarts (storageSem e) (applypatch e a) (a.Ready e) s s')
    (hs : a.Resumable e s) : a.Resumable e s' :=
  hruns.invariant (fun _ hready h => applypatch_spec hsound hready h) hs

/-- The digests of the contents below. -/
def bootDigests : List (Bytes × Bytes) :=
  [(Bytes.ascii "new1", Bytes.ascii "e67a40509ebbff2dda3af742d2bf838fb49e5c61"),
    (Bytes.ascii "old", Bytes.ascii "c00dbbc9dadfbe1e232e93a729dd4752fade0abf"),
    ([], Bytes.ascii "da39a3ee5e6b4b0d3255bfef95601890afd80709"),
    (Bytes.ascii "new", Bytes.ascii "c2a6b03f190dfb2b4aa91f8af8d477a9bc3401dc"),
    (Bytes.ascii "nel", Bytes.ascii "658261fe08011c227cd9e7d253177fd088c86734"),
    (Bytes.ascii "nelx", Bytes.ascii "243208c0835d232ecfc5997c3b36090baf9e22de")]

def bootEnv : Env where
  SHA data := ((bootDigests.lookup data).bind parseSha1).getD []
  retouchMaskData := some
  applyBSDiffPatch _ _ := ([Bytes.ascii "new1"], 0)
  applyImagePatch _ _ _ := ([], 1)

/-- The boot image, on a partition that is patched in place. -/
def bootPatch : PatchArgs where
  source_filename := Bytes.ascii ("EMMC:/dev/block/boot:3:c00dbbc9dadfbe1e232e93a729dd4752fade0abf" ++
    ":4:e67a40509ebbff2dda3af742d2bf838fb49e5c61")
  target_filename := Bytes.ascii "-"
  target_sha1_str := Bytes.ascii "e67a40509ebbff2dda3af742d2bf838fb49e5c61"
  target_size := 4
  patches := [(Bytes.ascii "c00dbbc9dadfbe1e232e93a729dd4752fade0abf", ⟨.VAL_BLOB, Bytes.ascii "BSDIFF40"⟩)]
  bonus_data := none

/-- A boot partition, and the copy in the cache. -/
def bootStorage (content : Bytes) (copy : Option Bytes) : Storage where
  files f := if f = CACHE_TEMP_SOURCE then copy else none
  partitions type partition :=
    if type = .EMMC ∧ partition = Bytes.ascii "/dev/block/boot" then some content else none

/-- The name of the partition, which is both source and target. -/
theorem bootPatch_target : isPartition bootPatch.target = true ∧
    partitionOf bootPatch.target = some (.EMMC, Bytes.ascii "/dev/block/boot") ∧
    sortedPairs bootPatch.target = some [(3, Bytes.ascii "c00dbbc9dadfbe1e232e93a729dd4752fade0abf"),
      (4, Bytes.ascii "e67a40509ebbff2dda3af742d2bf838fb49e5c61")] := by
  decide +kernel

theorem bootPatch_source : bootPatch.source_filename = bootPatch.target := (if_pos rfl).symm

/-- The digests in the table, and what they make of the contents. -/
theorem bootEnv_digests :
    (∀ p ∈ bootDigests, (parseSha1 p.2).isSome = true ∧
      (parseSha1 bootPatch.target_sha1_str = parseSha1 p.2 → p.1 = Bytes.ascii "new1")) ∧
    parseSha1 bootPatch.target_sha1_str = some (bootEnv.SHA (Bytes.ascii "new1")) ∧
    parseSha1 (Bytes.ascii "c00dbbc9dadfbe1e232e93a729dd4752fade0abf") = some (bootEnv.SHA (Bytes.ascii "old")) ∧
    bootEnv.SHA (Bytes.ascii "new1") ≠ [] ∧ bootEnv.SHA (Bytes.ascii "new") ≠ bootEnv.SHA (Bytes.ascii "old") ∧
    bootEnv.SHA [] ≠ bootEnv.SHA (Bytes.ascii "old") ∧ bootEnv.SHA (Bytes.ascii "nel") ≠ bootEnv.SHA (Bytes.ascii "old") ∧
    bootEnv.SHA (Bytes.ascii "nelx") ≠ bootEnv.SHA (Bytes.ascii "new1") := by
  decide +kernel

/-- The image that is found on the partition, by its first three and its first four bytes. -/
theorem bootEnv_pairs {content : Bytes} (hlen : 4 ≤ content.length) :
    loadPairs bootEnv content [(3, Bytes.ascii "c00dbbc9dadfbe1e232e93a729dd4752fade0abf"),
      (4, Bytes.ascii "e67a40509ebbff2dda3af742d2bf838fb49e5c61")] =
    if bootEnv.SHA (content.take 3) = bootEnv.SHA (Bytes.ascii "old") then some (content.take 3)
    else if bootEnv.SHA (content.take 4) = bootEnv.SHA (Bytes.ascii "new1") then some (content.take 4)
    else none := by
  obtain ⟨-, hnew, hold, -⟩ := bootEnv_digests
  have hnew : parseSha1 (Bytes.ascii "e67a40509ebbff2dda3af742d2bf838fb49e5c61") =
    some (bootEnv.SHA (Bytes.ascii "new1")) := hnew
  unfold loadPairs loadPairs
  rw [if_neg (by omega), if_neg (by omega), hold, hnew]
  rfl

theorem bootPatch_load {s : Storage} {content : Bytes}
    (h : s.partitions .EMMC (Bytes.ascii "/dev/block/boot") = some content) :
    loadFileContents bootEnv s bootPatch.target =
      loadPairs bootEnv content [(3, Bytes.ascii "c00dbbc9dadfbe1e232e93a729dd4752fade0abf"),
        (4, Bytes.ascii "e67a40509ebbff2dda3af742d2bf838fb49e5c61")] := by
  obtain ⟨hp, hpartition, hpairs⟩ := bootPatch_target
  unfold loadFileContents loadPartitionContents
  rw [if_pos hp, hpartition, hpairs]
  dsimp only
  rw [h]

theorem bootEnv_new {output : Bytes} (h : parseSha1 bootPatch.target_sha1_str = some (bootEnv.SHA output)) :
    output = Bytes.ascii "new1" := by
  obtain ⟨htable, htarget, -, hne, -⟩ := bootEnv_digests
  cases hlookup : bootDigests.lookup output with
  | none =>
    rw [show bootEnv.SHA output = ((bootDigests.lookup output).bind parseSha1).getD [] from rfl, hlookup, htarget] at h
    exact absurd (Option.some.inj h) hne
  | some hex =>
    rw [show bootEnv.SHA output = ((bootDigests.lookup output).bind parseSha1).getD [] from rfl, hlookup] at h
    obtain ⟨before, after, hsplit, -⟩ := List.lookup_eq_some_iff.mp hlookup
    have hmem : (output, hex) ∈ bootDigests := by rw [hsplit]; simp
    obtain ⟨digest, hdigest⟩ := Option.isSome_iff_exists.mp (htable _ hmem).1
    refine (htable _ hmem).2 (h.trans ?_)
    rw [show (some hex).bind parseSha1 = some digest from hdigest, hdigest]
    rfl

theorem bootPatch_sound : bootPatch.Sound bootEnv where
  source_cache h := by
    rw [bootPatch_source, bootPatch_target.1] at h
    cases h
  source_output h := by
    rw [bootPatch_source, bootPatch_target.1] at h
    cases h
  target_copy _ := ne_of_apply_ne isPartition (by rw [bootPatch_target.1]; decide)
  masked _ data h := ⟨data, rfl, h⟩
  recognised _ s output hsha hplaced := by
    cases bootEnv_new hsha
    obtain ⟨hplain, -⟩ | ⟨hp, type, partition, content, hname, hcontent, rest, rfl⟩ := hplaced
    · rw [bootPatch_target.1] at hplain
      cases hplain
    · rw [bootPatch_target.2.1] at hname
      cases hname
      refine .inl ⟨Bytes.ascii "new1", ?_, hsha⟩
      rw [bootPatch_load hcontent]
      have h₃ : (Bytes.ascii "new1" ++ rest).take 3 = Bytes.ascii "new" := by
        rw [List.take_append_of_le_length (by decide)]
        decide
      have h₄ : (Bytes.ascii "new1" ++ rest).take 4 = Bytes.ascii "new1" := List.take_left' rfl
      have hlen : (Bytes.ascii "new1" ++ rest).length = 4 + rest.length := List.length_append
      obtain ⟨-, -, -, -, hne, -⟩ := bootEnv_digests
      rw [bootEnv_pairs (by omega), h₃, h₄, if_neg hne, if_pos rfl]

/-- The boot partition is written from its source, and cut off when the copy is opened. -/
theorem applypatch_resumable_boot : bootPatch.Resumable bootEnv
    ((bootStorage (Bytes.ascii "old!") none).setFile CACHE_TEMP_SOURCE (some [])) := by
  obtain ⟨-, htarget, hold, -⟩ := bootEnv_digests
  have hload : loadFileContents bootEnv (bootStorage (Bytes.ascii "old!") none) bootPatch.target =
      some (Bytes.ascii "old") := by
    rw [bootPatch_load rfl, bootEnv_pairs (by decide)]
    exact if_pos rfl
  have hsource : bootPatch.SourceOk bootEnv (bootStorage (Bytes.ascii "old!") none) :=
    ⟨Bytes.ascii "old", by rw [bootPatch_source, hload], _, List.mem_cons_self, hold⟩
  have hdone : ¬ bootPatch.TargetDone bootEnv (bootStorage (Bytes.ascii "old!") none) := by
    rintro ⟨data, hdata, hsha⟩
    rw [hload, bootEnv_new hsha] at hdata
    exact absurd hdata (by decide)
  have hrun := applypatch_truncates bootPatch_target.1 htarget hdone (.inl hsource)
  exact applypatch_resumable bootEnv bootPatch bootPatch_sound
    (.single ⟨.inr (.inr hsource), hrun⟩) (.inr (.inl hsource))

/-- The boot partition was being written when the run was cut off, and holds neither image. The next run
truncates the copy in the cache, which was all that was left. -/
theorem applypatch_boot_lost : ¬ ∀ (e : Env) (a : PatchArgs) (s s' : Storage),
    Prog.Restarts (storageSem e) (applypatch e a) (fun _ => True) s s' →
    a.Resumable e s → a.Resumable e s' := by
  intro h
  obtain ⟨-, htarget, hold, -, -, hempty, hnel, hnelx⟩ := bootEnv_digests
  have hload : ∀ copy, loadFileContents bootEnv (bootStorage (Bytes.ascii "nelx") copy) bootPatch.target = none := by
    intro copy
    rw [bootPatch_load rfl, bootEnv_pairs (by decide)]
    exact (if_neg hnel).trans (if_neg hnelx)
  have hcopy : bootPatch.CopyOk bootEnv (bootStorage (Bytes.ascii "nelx") (some (Bytes.ascii "old"))) :=
    ⟨Bytes.ascii "old", loadFileContents_plain (by decide), _, List.mem_cons_self, hold⟩
  have hdone : ¬ bootPatch.TargetDone bootEnv (bootStorage (Bytes.ascii "nelx") (some (Bytes.ascii "old"))) := by
    rintro ⟨data, hdata, -⟩
    rw [hload] at hdata
    cases hdata
  have hrun := applypatch_truncates bootPatch_target.1 htarget hdone (.inr hcopy)
  have hs : (bootStorage (Bytes.ascii "nelx") (some (Bytes.ascii "old"))).setFile CACHE_TEMP_SOURCE
      (some []) = bootStorage (Bytes.ascii "nelx") (some []) := by
    unfold Storage.setFile bootStorage
    congr 1
    funext f
    by_cases hf : f = CACHE_TEMP_SOURCE
    · rw [if_pos hf, if_pos hf]
    · rw [if_neg hf, if_neg hf]
      exact if_neg hf
  rw [hs] at hrun
  obtain ⟨data, hdata, -⟩ | ⟨data, hdata, -⟩ | ⟨data, hdata, p, hp, hmatch⟩ :=
    h bootEnv bootPatch _ _ (.single ⟨trivial, hrun⟩) (.inr (.inr hcopy))
  · rw [hload] at hdata
    cases hdata
  · rw [bootPatch_source, hload] at hdata
    cases hdata
  · rw [loadFileContents_plain (by decide)] at hdata
    cases (show [] = data from Option.some.inj hdata)
    cases List.mem_singleton.mp hp
    exact hempty (Option.some.inj (hmatch.symm.trans hold))

end Miui
