import MiuiRecovery.Roots
import Mathlib.Data.List.Nodup
import Mathlib.Data.List.Flatten

/-!
# The switch between two systems

`roots.cpp`: `set_active_system` replaces the device nodes of the pairs of partitions that a device
with two systems has. Each unmount, `unlink` and `mknod` of a call can fail.

* `handleVolumeRequest_ok`: a pair whose steps all succeed is switched, and nothing else changes.
* `setActiveSystem_run`: what a run of switches leaves, if none of their steps on a pair fails.
* `setActiveSystem_busy`: a switch that fails is reported as a success.
-/

namespace Miui

/-! ## The state -/

def DUALBOOT_ITEM_INTERCHANGED : Int := -2
def DUALBOOT_ITEM_BOTH : Int := 0
def DUALBOOT_ITEM_SYSTEM0 : Int := 1
def DUALBOOT_ITEM_SYSTEM1 : Int := 2

/-- What `mknod` takes from a `struct stat`. -/
structure DeviceNode where
  st_mode : Nat
  st_rdev : Nat
deriving DecidableEq

inductive Inode
  | node (n : DeviceNode)
  | link (target : String)
deriving DecidableEq

/-- The volumes, and what `load_volume_table` has found at their devices. -/
structure VolumeTable where
  volumes : List Volume
  stat : String → DeviceNode

/-- The files by their paths, and the mode recorded. -/
structure DualState where
  files : String → Option Inode
  selected_dualsystem_mode : Int

/-- A step that can fail. -/
inductive SwitchStep
  | unmount (mount_point : String)
  | unlink (path : String)
  | mknod (path : String)
deriving DecidableEq

/-- A call of `set_active_system`: the mode, and which of its steps succeed. -/
structure Switch where
  num : Int
  ok : SwitchStep → Bool

/-- The path that `readlink` gives for a device, or the device itself. -/
def DualState.resolved (s : DualState) (device : String) : String :=
  match s.files device with
  | some (.link target) => target
  | _ => device

def DualState.put (s : DualState) (path : String) (inode : Option Inode) : DualState :=
  { s with files := fun p => if p = path then inode else s.files p }

/-- The node that a volume stands for. -/
def DualState.nodeAt (s : DualState) (v : Volume) : Option Inode := s.files (s.resolved v.device)

/-! ## The calls -/

/-- The answers to the calls that `ensure_path_unmounted` can make. -/
def unmountAnswer (ok : SwitchStep → Bool) : ∀ β : Type, RootsOp β → Unit → β × Unit
  | _, .unmountVolume mount_point, _ => (if ok (.unmount mount_point) then 0 else -1, ())
  | _, .ensurePathMounted _, _ => (0, ())
  | _, .statDevice _, _ => (0, ())
  | _, .act _, _ => (0, ())
  | _, .mtdFindPartition _, _ => (true, ())
  | _, .checkMd5 _, _ => (true, ())
  | _, .remove _, _ => ((), ())
  | _, .mountedFilesystem _, _ => (none, ())
  | _, .preferDedupe, _ => ("", ())

/-- The status of `ensure_path_unmounted(path)`. -/
def unmountStatus (t : VolumeTable) (ok : SwitchStep → Bool) (path : String) : Int :=
  (Prog.exec (unmountAnswer ok) (ensurePathUnmounted t.volumes path) ()).1

def replaceDeviceNode (t : VolumeTable) (ok : SwitchStep → Bool) (vol : Volume) (stat : DeviceNode)
    (s : DualState) : Int × DualState :=
  let resolved_path := s.resolved vol.device
  if unmountStatus t ok vol.mount_point ≠ 0 then (-1, s)
  else if ok (.unlink resolved_path) = false then (-1, s)
  else if ok (.mknod resolved_path) = false then (-1, s.put resolved_path none)
  else (0, s.put resolved_path (some (.node stat)))

/-- The volumes whose devices the nodes of a pair are to stand for, `v0` and `v1` of
`handle_volume_request`. -/
def requested (num : Int) (vol0 vol1 : Volume) : Option (Volume × Volume) :=
  if num = DUALBOOT_ITEM_SYSTEM0 then some (vol0, vol0)
  else if num = DUALBOOT_ITEM_SYSTEM1 then some (vol1, vol1)
  else if num = DUALBOOT_ITEM_BOTH then some (vol0, vol1)
  else if num = DUALBOOT_ITEM_INTERCHANGED then some (vol1, vol0)
  else none

def handleVolumeRequest (t : VolumeTable) (c : Switch) (vol0 vol1 : Option Volume) (s : DualState) :
    Int × DualState :=
  match vol0, vol1 with
  | some vol0, some vol1 =>
    match requested c.num vol0 vol1 with
    | none => (-1, s)
    | some (v0, v1) =>
      let r0 := replaceDeviceNode t c.ok vol0 (t.stat v0.device) s
      if r0.1 ≠ 0 then (-1, r0.2)
      else
        let r1 := replaceDeviceNode t c.ok vol1 (t.stat v1.device) r0.2
        if r1.1 ≠ 0 then (-1, r1.2) else (0, r1.2)
  | _, _ => (-1, s)

def setActiveSystem (t : VolumeTable) (c : Switch) (s : DualState) : Int × DualState :=
  let system0 := volumeForPath t.volumes "/system"
  let system1 := volumeForPath t.volumes "/system1"
  let boot0 := volumeForPath t.volumes "/boot"
  let boot1 := volumeForPath t.volumes "/boot1"
  let radio0 := volumeForPath t.volumes "/radio"
  let radio1 := volumeForPath t.volumes "/radio1"
  -- The status of none of the three is looked at.
  let s := (handleVolumeRequest t c system0 system1 s).2
  let s := (handleVolumeRequest t c boot0 boot1 s).2
  let s := (handleVolumeRequest t c radio0 radio1 s).2
  if unmountStatus t c.ok "/data" ≠ 0 then (-1, s)
  else (0, { s with selected_dualsystem_mode := c.num })

/-! ## The pairs -/

def pairPaths : List (String × String) :=
  [("/system", "/system1"), ("/boot", "/boot1"), ("/radio", "/radio1")]

/-- The volumes of a pair, where both are there. -/
def pairAt (t : VolumeTable) (p : String × String) : Option (Volume × Volume) :=
  match volumeForPath t.volumes p.1, volumeForPath t.volumes p.2 with
  | some vol0, some vol1 => some (vol0, vol1)
  | _, _ => none

def VolumeTable.pairs (t : VolumeTable) : List (Volume × Volume) := pairPaths.filterMap (pairAt t)

/-- The volumes that belong to a pair. -/
def VolumeTable.paired (t : VolumeTable) : List Volume := t.pairs.flatMap fun p => [p.1, p.2]

/-- Both nodes of a pair are those of the devices that the mode demands. -/
def Mapped (t : VolumeTable) (num : Int) (p : Volume × Volume) (s : DualState) : Prop :=
  ∃ v0 v1, requested num p.1 p.2 = some (v0, v1) ∧
    s.nodeAt p.1 = some (.node (t.stat v0.device)) ∧ s.nodeAt p.2 = some (.node (t.stat v1.device))

/-- No two volumes of the pairs share a node, and none is the link that leads to the node of another. -/
def OwnNodes (t : VolumeTable) (s : DualState) : Prop :=
  ∀ v ∈ t.paired, ∀ w ∈ t.paired, v ≠ w →
    s.resolved v.device ≠ s.resolved w.device ∧ s.resolved v.device ≠ w.device

/-- No step on a pair fails. The unmount of `/data` behind them may. -/
structure Succeeds (t : VolumeTable) (s : DualState) (c : Switch) : Prop where
  mode : ∀ p ∈ t.pairs, (requested c.num p.1 p.2).isSome
  unmount : ∀ v ∈ t.paired, unmountStatus t c.ok v.mount_point = 0
  unlink : ∀ v ∈ t.paired, c.ok (.unlink (s.resolved v.device)) = true
  mknod : ∀ v ∈ t.paired, c.ok (.mknod (s.resolved v.device)) = true

variable {t : VolumeTable} {s s' : DualState} {c : Switch} {p : Volume × Volume} {v w : Volume}

theorem mem_paired : v ∈ t.paired ↔ ∃ p ∈ t.pairs, v = p.1 ∨ v = p.2 := by
  simp [VolumeTable.paired, List.mem_flatMap]

/-- The mount points of the pairs are their paths. -/
theorem pairAt_mount_point {q : String × String} (hq : q ∈ pairPaths) (h : pairAt t q = some p) :
    (p.1.mount_point, p.2.mount_point) = q := by
  unfold pairAt at h
  split at h
  · rename_i vol0 vol1 h0 h1
    cases h
    have hslash : ∀ q ∈ pairPaths, '/' ∉ q.1.toList.tail ∧ '/' ∉ q.2.toList.tail := by decide
    have hslash := hslash q hq
    rw [volumeForPath_mount_point h0 hslash.1, volumeForPath_mount_point h1 hslash.2]
  · cases h

theorem pairs_mount_points : (t.pairs.map fun p => (p.1.mount_point, p.2.mount_point)).Sublist pairPaths := by
  unfold VolumeTable.pairs
  have hall : ∀ qs : List (String × String), (∀ q ∈ qs, q ∈ pairPaths) →
      ((qs.filterMap (pairAt t)).map fun p => (p.1.mount_point, p.2.mount_point)).Sublist qs := by
    intro qs hqs
    induction qs with
    | nil => exact List.Sublist.refl _
    | cons q qs ih =>
      have ih := ih fun q hq => hqs q (List.mem_cons_of_mem _ hq)
      cases h : pairAt t q with
      | none =>
        rw [List.filterMap_cons_none h]
        exact ih.cons q
      | some p =>
        rw [List.filterMap_cons_some h, List.map_cons,
          pairAt_mount_point (hqs q List.mem_cons_self) h]
        exact ih.cons_cons q
  exact hall pairPaths fun _ h => h

/-- The volumes of the pairs are all different. -/
theorem paired_nodup : t.paired.Nodup := by
  have hsub : (t.paired.map Volume.mount_point).Sublist (pairPaths.flatMap fun q => [q.1, q.2]) := by
    have hmap : t.paired.map Volume.mount_point =
        (t.pairs.map fun p => (p.1.mount_point, p.2.mount_point)).flatMap fun q => [q.1, q.2] := by
      simp [VolumeTable.paired, List.map_flatMap, List.flatMap_map]
    rw [hmap]
    exact pairs_mount_points.flatMap _
  exact List.Nodup.of_map _ (hsub.nodup (by decide))

/-! ## One call -/

@[simp] theorem files_put (path q : String) (inode : Option Inode) :
    (s.put path inode).files q = if q = path then inode else s.files q := rfl

/-- A path that has become a node leads to itself. -/
theorem resolved_put_path (path device : String) (n : DeviceNode) :
    (s.put path (some (.node n))).resolved device = if device = path then path else s.resolved device := by
  by_cases h : device = path
  · simp [DualState.resolved, h]
  · simp only [DualState.resolved, files_put, if_neg h]

theorem nodeAt_put_self (v : Volume) (n : DeviceNode) :
    (s.put (s.resolved v.device) (some (.node n))).nodeAt v = some (.node n) := by
  unfold DualState.nodeAt
  rw [resolved_put_path, ite_self, files_put, if_pos rfl]

/-- A new node leaves the paths to the other nodes alone. -/
theorem resolved_put (own : OwnNodes t s) (hv : v ∈ t.paired) (hw : w ∈ t.paired) (n : DeviceNode) :
    (s.put (s.resolved v.device) (some (.node n))).resolved w.device = s.resolved w.device := by
  rw [resolved_put_path]
  split
  · rename_i hdev
    obtain rfl : v = w := by
      by_contra hne
      exact (own v hv w hw hne).2 hdev.symm
    rfl
  · rfl

theorem nodeAt_put (own : OwnNodes t s) (hv : v ∈ t.paired) (hw : w ∈ t.paired) (hne : w ≠ v)
    (n : DeviceNode) : (s.put (s.resolved v.device) (some (.node n))).nodeAt w = s.nodeAt w := by
  unfold DualState.nodeAt
  rw [resolved_put own hv hw]
  simp only [DualState.put, if_neg (own w hw v hv hne).1]

/-- `s'` has the same paths to the nodes as `s`. -/
def SamePaths (t : VolumeTable) (s s' : DualState) : Prop :=
  ∀ v ∈ t.paired, s'.resolved v.device = s.resolved v.device

theorem SamePaths.trans {s₁ s₂ s₃ : DualState} (h : SamePaths t s₁ s₂) (h' : SamePaths t s₂ s₃) :
    SamePaths t s₁ s₃ := fun v hv => (h' v hv).trans (h v hv)

theorem SamePaths.own (h : SamePaths t s s') (own : OwnNodes t s) : OwnNodes t s' := by
  intro v hv w hw hne
  rw [h v hv, h w hw]
  exact own v hv w hw hne

theorem SamePaths.succeeds (h : SamePaths t s s') (hc : Succeeds t s c) : Succeeds t s' c where
  mode := hc.mode
  unmount := hc.unmount
  unlink v hv := by rw [h v hv]; exact hc.unlink v hv
  mknod v hv := by rw [h v hv]; exact hc.mknod v hv

theorem replaceDeviceNode_ok (hc : Succeeds t s c) (hv : v ∈ t.paired) (stat : DeviceNode) :
    replaceDeviceNode t c.ok v stat s = (0, s.put (s.resolved v.device) (some (.node stat))) := by
  simp [replaceDeviceNode, hc.unmount v hv, hc.unlink v hv, hc.mknod v hv]

/-- A pair whose steps succeed is switched, and no other node changes. -/
theorem handleVolumeRequest_ok (own : OwnNodes t s) (hc : Succeeds t s c) (hp : p ∈ t.pairs) :
    ∃ s', handleVolumeRequest t c (some p.1) (some p.2) s = (0, s') ∧
      s'.selected_dualsystem_mode = s.selected_dualsystem_mode ∧ SamePaths t s s' ∧
      Mapped t c.num p s' ∧ ∀ w ∈ t.paired, w ≠ p.1 → w ≠ p.2 → s'.nodeAt w = s.nodeAt w := by
  have hp1 : p.1 ∈ t.paired := mem_paired.mpr ⟨p, hp, .inl rfl⟩
  have hp2 : p.2 ∈ t.paired := mem_paired.mpr ⟨p, hp, .inr rfl⟩
  have hne : p.1 ≠ p.2 := by
    have hnodup : (t.pairs.flatMap fun p => [p.1, p.2]).Nodup := paired_nodup
    have := (List.nodup_flatMap.mp hnodup).1 p hp
    simpa using this
  obtain ⟨⟨v0, v1⟩, hreq⟩ := Option.isSome_iff_exists.mp (hc.mode p hp)
  have hsame0 : SamePaths t s (s.put (s.resolved p.1.device) (some (.node (t.stat v0.device)))) :=
    fun w hw => resolved_put own hp1 hw _
  set s₁ := s.put (s.resolved p.1.device) (some (.node (t.stat v0.device))) with hs₁
  have hsame1 : SamePaths t s₁ (s₁.put (s₁.resolved p.2.device) (some (.node (t.stat v1.device)))) :=
    fun w hw => resolved_put (hsame0.own own) hp2 hw _
  refine ⟨s₁.put (s₁.resolved p.2.device) (some (.node (t.stat v1.device))), ?_, rfl,
    hsame0.trans hsame1, ⟨v0, v1, hreq, ?_, nodeAt_put_self _ _⟩, fun w hw hw1 hw2 => ?_⟩
  · simp only [handleVolumeRequest, hreq, replaceDeviceNode_ok hc hp1,
      replaceDeviceNode_ok (hsame0.succeeds hc) hp2, ← hs₁]
    simp
  · rw [nodeAt_put (hsame0.own own) hp2 hp1 hne]
    exact nodeAt_put_self _ _
  · rw [nodeAt_put (hsame0.own own) hp2 hw hw2, nodeAt_put own hp1 hw hw1]

/-! ## All pairs -/

/-- What `set_active_system` does for the pair of two paths. -/
def switchPair (t : VolumeTable) (c : Switch) (s : DualState) (q : String × String) : DualState :=
  (handleVolumeRequest t c (volumeForPath t.volumes q.1) (volumeForPath t.volumes q.2) s).2

theorem setActiveSystem_eq : setActiveSystem t c s =
    if unmountStatus t c.ok "/data" ≠ 0 then (-1, pairPaths.foldl (switchPair t c) s)
    else (0, { pairPaths.foldl (switchPair t c) s with selected_dualsystem_mode := c.num }) := rfl

theorem switchPair_none {q : String × String} (h : pairAt t q = none) : switchPair t c s q = s := by
  unfold pairAt at h
  unfold switchPair handleVolumeRequest
  split at h
  · cases h
  · rfl

theorem switchPair_some {q : String × String} (h : pairAt t q = some p) :
    switchPair t c s q = (handleVolumeRequest t c (some p.1) (some p.2) s).2 := by
  unfold pairAt at h
  unfold switchPair
  split at h
  · rename_i h0 h1
    cases h
    rw [h0, h1]
  · cases h

theorem pairAt_mem {q : String × String} (hq : q ∈ pairPaths) (h : pairAt t q = some p) : p ∈ t.pairs :=
  List.mem_filterMap.mpr ⟨q, hq, h⟩

/-- Two pairs have no volume in common. -/
theorem pairAt_disjoint {q q' : String × String} {p' : Volume × Volume} (hq : q ∈ pairPaths)
    (hq' : q' ∈ pairPaths) (hne : q ≠ q') (h : pairAt t q = some p) (h' : pairAt t q' = some p') :
    (p.1 ≠ p'.1 ∧ p.1 ≠ p'.2) ∧ p.2 ≠ p'.1 ∧ p.2 ≠ p'.2 := by
  have hpaths : ∀ q ∈ pairPaths, ∀ q' ∈ pairPaths, q ≠ q' →
      (q.1 ≠ q'.1 ∧ q.1 ≠ q'.2) ∧ q.2 ≠ q'.1 ∧ q.2 ≠ q'.2 := by decide
  have hpaths := hpaths q hq q' hq' hne
  rw [← pairAt_mount_point hq h, ← pairAt_mount_point hq' h'] at hpaths
  obtain ⟨⟨h11, h12⟩, h21, h22⟩ := hpaths
  exact ⟨⟨fun h => h11 (h ▸ rfl), fun h => h12 (h ▸ rfl)⟩, fun h => h21 (h ▸ rfl), fun h => h22 (h ▸ rfl)⟩

/-- Switching some of the pairs: these are mapped, the others are as they were. -/
structure PairsSwitched (t : VolumeTable) (num : Int) (qs : List (String × String))
    (s s' : DualState) : Prop where
  mode : s'.selected_dualsystem_mode = s.selected_dualsystem_mode
  paths : SamePaths t s s'
  mapped : ∀ q ∈ qs, ∀ p, pairAt t q = some p → Mapped t num p s'
  others : ∀ q ∈ pairPaths, q ∉ qs → ∀ p, pairAt t q = some p →
    s'.nodeAt p.1 = s.nodeAt p.1 ∧ s'.nodeAt p.2 = s.nodeAt p.2

theorem Mapped.congr {num : Int} (h : Mapped t num p s)
    (hsame : s'.nodeAt p.1 = s.nodeAt p.1 ∧ s'.nodeAt p.2 = s.nodeAt p.2) : Mapped t num p s' := by
  obtain ⟨v0, v1, hreq, h0, h1⟩ := h
  exact ⟨v0, v1, hreq, hsame.1.trans h0, hsame.2.trans h1⟩

theorem switchPair_switched (own : OwnNodes t s) (hc : Succeeds t s c) {q : String × String}
    (hq : q ∈ pairPaths) : PairsSwitched t c.num [q] s (switchPair t c s q) := by
  cases hpair : pairAt t q with
  | none =>
    rw [switchPair_none hpair]
    refine ⟨rfl, fun _ _ => rfl, fun q' hq' p hp => ?_, fun _ _ _ _ _ => ⟨rfl, rfl⟩⟩
    rw [List.mem_singleton.mp hq', hpair] at hp
    cases hp
  | some p =>
    obtain ⟨s', heq, hmode, hpaths, hmapped, hothers⟩ :=
      handleVolumeRequest_ok own hc (pairAt_mem hq hpair)
    rw [switchPair_some hpair, heq]
    refine ⟨hmode, hpaths, fun q' hq' p' hp' => ?_, fun q' hq' hne p' hp' => ?_⟩
    · rw [List.mem_singleton.mp hq', hpair] at hp'
      cases hp'
      exact hmapped
    · have hdisj := pairAt_disjoint hq' hq (fun h => hne (h ▸ List.mem_singleton_self _)) hp' hpair
      have hmem := pairAt_mem hq' hp'
      exact ⟨hothers _ (mem_paired.mpr ⟨p', hmem, .inl rfl⟩) hdisj.1.1 hdisj.1.2,
        hothers _ (mem_paired.mpr ⟨p', hmem, .inr rfl⟩) hdisj.2.1 hdisj.2.2⟩

theorem foldl_switchPair (qs : List (String × String)) (hqs : ∀ q ∈ qs, q ∈ pairPaths)
    (hnodup : qs.Nodup) (own : OwnNodes t s) (hc : Succeeds t s c) :
    PairsSwitched t c.num qs s (qs.foldl (switchPair t c) s) := by
  induction qs generalizing s with
  | nil => exact ⟨rfl, fun _ _ => rfl, fun _ h => absurd h List.not_mem_nil, fun _ _ _ _ _ => ⟨rfl, rfl⟩⟩
  | cons q qs ih =>
    have hq := hqs q List.mem_cons_self
    have hfresh := List.nodup_cons.mp hnodup
    have first := switchPair_switched own hc hq
    have rest := ih (fun q hq => hqs q (List.mem_cons_of_mem _ hq)) hfresh.2 (first.paths.own own)
      (first.paths.succeeds hc)
    refine ⟨rest.mode.trans first.mode, first.paths.trans rest.paths, fun q' hq' p hp => ?_,
      fun q' hq' hnot p hp => ?_⟩
    · rcases List.mem_cons.mp hq' with rfl | hq'
      · exact (first.mapped q' (List.mem_singleton_self _) p hp).congr (rest.others q' hq hfresh.1 p hp)
      · exact rest.mapped q' hq' p hp
    · rw [List.mem_cons, not_or] at hnot
      have h1 := first.others q' hq' (by simpa using hnot.1) p hp
      have h2 := rest.others q' hq' hnot.2 p hp
      exact ⟨h2.1.trans h1.1, h2.2.trans h1.2⟩

/-! ## Runs -/

/-- What is demanded of a call of `set_active_system`: success is recorded and means that every pair is
as the mode demands, and after a failure no pair is half switched. -/
def AllOrReported (t : VolumeTable) (c : Switch) (s : DualState) : Prop :=
  let r := setActiveSystem t c s
  (r.1 = 0 → r.2.selected_dualsystem_mode = c.num ∧ ∀ p ∈ t.pairs, Mapped t c.num p r.2) ∧
  (r.1 ≠ 0 → ∀ p ∈ t.pairs, Mapped t c.num p r.2 ∨
    r.2.nodeAt p.1 = s.nodeAt p.1 ∧ r.2.nodeAt p.2 = s.nodeAt p.2)

/-- The state after some calls. -/
def afterSwitches (t : VolumeTable) (calls : List Switch) (s : DualState) : DualState :=
  calls.foldl (fun s c => (setActiveSystem t c s).2) s

theorem setActiveSystem_ok (own : OwnNodes t s) (hc : Succeeds t s c) :
    SamePaths t s (setActiveSystem t c s).2 ∧
      (∀ p ∈ t.pairs, Mapped t c.num p (setActiveSystem t c s).2) ∧ AllOrReported t c s := by
  have h := foldl_switchPair pairPaths (fun _ h => h) (by decide) own hc
  have hmapped : ∀ p ∈ t.pairs, Mapped t c.num p (pairPaths.foldl (switchPair t c) s) := by
    intro p hp
    obtain ⟨q, hq, hpair⟩ := List.mem_filterMap.mp hp
    exact h.mapped q hq p hpair
  unfold AllOrReported
  rw [setActiveSystem_eq]
  split
  · exact ⟨h.paths, hmapped, fun h0 => absurd (show (-1 : Int) = 0 from h0) (by decide),
      fun _ p hp => .inl (hmapped p hp)⟩
  · exact ⟨h.paths, hmapped, fun _ => ⟨rfl, hmapped⟩, fun h0 => absurd rfl h0⟩

theorem afterSwitches_paths (own : OwnNodes t s) {calls : List Switch}
    (hc : ∀ c ∈ calls, Succeeds t s c) : SamePaths t s (afterSwitches t calls s) := by
  induction calls generalizing s with
  | nil => exact fun _ _ => rfl
  | cons c calls ih =>
    have hfirst := (setActiveSystem_ok own (hc c List.mem_cons_self)).1
    exact hfirst.trans (ih (hfirst.own own) fun c' hc' =>
      hfirst.succeeds (hc c' (List.mem_cons_of_mem _ hc')))

theorem Mapped.unique {num : Int} {s₁ s₂ : DualState} (h₁ : Mapped t num p s₁) (h₂ : Mapped t num p s₂) :
    s₁.nodeAt p.1 = s₂.nodeAt p.1 ∧ s₁.nodeAt p.2 = s₂.nodeAt p.2 := by
  obtain ⟨v0, v1, hreq, h0, h1⟩ := h₁
  obtain ⟨w0, w1, hreq', h0', h1'⟩ := h₂
  rw [hreq] at hreq'
  cases hreq'
  exact ⟨h0.trans h0'.symm, h1.trans h1'.symm⟩

theorem afterSwitches_mapped (own : OwnNodes t s) {calls : List Switch}
    (hc : ∀ c' ∈ calls ++ [c], Succeeds t s c') :
    ∀ p ∈ t.pairs, Mapped t c.num p (afterSwitches t (calls ++ [c]) s) := by
  have hpaths := afterSwitches_paths own fun c' hc' => hc c' (List.mem_append_left _ hc')
  have hlast := hpaths.succeeds (hc c (by simp))
  rw [afterSwitches, List.foldl_append]
  exact (setActiveSystem_ok (hpaths.own own) hlast).2.1

/-- In a run of switches none of whose steps on a pair fails, every call is all or reported, and the
nodes that the run leaves are those of any other such run with the same last mode. -/
theorem setActiveSystem_run (own : OwnNodes t s) (calls : List Switch)
    (hc : ∀ c ∈ calls, Succeeds t s c) :
    (∀ done c, done ++ [c] <+: calls → AllOrReported t c (afterSwitches t done s)) ∧
    ∀ s₂ calls₂, OwnNodes t s₂ → (∀ c ∈ calls₂, Succeeds t s₂ c) →
      ∀ c c₂, calls.getLast? = some c → calls₂.getLast? = some c₂ → c.num = c₂.num →
        ∀ v ∈ t.paired, (afterSwitches t calls s).nodeAt v = (afterSwitches t calls₂ s₂).nodeAt v := by
  constructor
  · intro done c hdone
    have hmem : ∀ c' ∈ done ++ [c], Succeeds t s c' := fun c' h => hc c' (hdone.subset h)
    have hpaths := afterSwitches_paths own fun c' h => hmem c' (List.mem_append_left _ h)
    exact (setActiveSystem_ok (hpaths.own own) (hpaths.succeeds (hmem c (by simp)))).2.2
  · intro s₂ calls₂ own₂ hc₂ c c₂ hlast hlast₂ hnum v hv
    obtain ⟨init, rfl⟩ := List.getLast?_eq_some_iff.mp hlast
    obtain ⟨init₂, rfl⟩ := List.getLast?_eq_some_iff.mp hlast₂
    obtain ⟨p, hp, hpv⟩ := mem_paired.mp hv
    have h₁ := afterSwitches_mapped own hc p hp
    have h₂ := afterSwitches_mapped own₂ hc₂ p hp
    rw [← hnum] at h₂
    rcases hpv with rfl | rfl
    · exact (h₁.unique h₂).1
    · exact (h₁.unique h₂).2

/-- Two systems and `/data`, each on a block device of its own. -/
def twoSystems : VolumeTable where
  volumes := [⟨"/system", "ext4", "/dev/block/mmcblk0p12", by decide⟩,
    ⟨"/system1", "ext4", "/dev/block/mmcblk0p13", by decide⟩,
    ⟨"/data", "ext4", "/dev/block/mmcblk0p14", by decide⟩]
  stat device := ⟨24960, if device = "/dev/block/mmcblk0p12" then 12 else 13⟩

/-- The nodes that the devices have at first. -/
def twoNodes : DualState where
  files p := if p ∈ ["/dev/block/mmcblk0p12", "/dev/block/mmcblk0p13"] then
    some (.node (twoSystems.stat p)) else none
  selected_dualsystem_mode := -1

/-- `/system` is busy: the second system is reported as active, and `/system` is still the first. -/
theorem setActiveSystem_busy :
    let c : Switch := ⟨DUALBOOT_ITEM_SYSTEM1, fun step => step ≠ .unmount "/system"⟩
    let r := setActiveSystem twoSystems c twoNodes
    r.1 = 0 ∧ r.2.selected_dualsystem_mode = DUALBOOT_ITEM_SYSTEM1 ∧
      r.2.files "/dev/block/mmcblk0p12" = some (.node ⟨24960, 12⟩) ∧
      ¬ AllOrReported twoSystems c twoNodes := by
  refine ⟨by decide +kernel, by decide +kernel, by decide +kernel, fun h => ?_⟩
  have hmem : (⟨"/system", "ext4", "/dev/block/mmcblk0p12", by decide⟩,
      ⟨"/system1", "ext4", "/dev/block/mmcblk0p13", by decide⟩) ∈ twoSystems.pairs := by decide +kernel
  obtain ⟨v0, v1, hreq, h0, -⟩ := (h.1 (by decide +kernel)).2 _ hmem
  cases hreq
  revert h0
  decide +kernel

theorem setActiveSystem_both :
    AllOrReported twoSystems ⟨DUALBOOT_ITEM_BOTH, fun _ => true⟩
      (afterSwitches twoSystems [⟨DUALBOOT_ITEM_SYSTEM1, fun _ => true⟩] twoNodes) :=
  (setActiveSystem_run (t := twoSystems) (s := twoNodes) (by unfold OwnNodes; decide +kernel)
    [⟨DUALBOOT_ITEM_SYSTEM1, fun _ => true⟩, ⟨DUALBOOT_ITEM_BOTH, fun _ => true⟩] (by
      intro c hc
      rcases List.mem_pair.mp hc with rfl | rfl
      · exact ⟨by decide +kernel, by decide +kernel, by decide +kernel, by decide +kernel⟩
      · exact ⟨by decide +kernel, by decide +kernel, by decide +kernel, by decide +kernel⟩)).1
    [⟨DUALBOOT_ITEM_SYSTEM1, fun _ => true⟩] _ List.prefix_rfl

end Miui
