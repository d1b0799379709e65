import MiuiRecovery.ApplyPatch.Applypatch

/-!
# What the parts of a run touch

A calculus for the programs of `applypatch`: which files a program touches, at whatever point it is cut
off, and what it has done when it returns.

* `Modifies.bind`, `Looks.bind`: the rules for one program after the other.
* `backUpSource_modifies`: a backup stays in the cache directories and leaves the source in the copy.
* `patchTarget_modifies`: a round writes the `.patch` file only, and a patched round has all of the
  output in it.
-/

namespace Miui

open Prog (Sem Reaches Returns call)

variable {e : Env}

/-! ## The files a program touches -/

/-- Nothing but the files of `X` has changed. -/
structure Only (X : Bytes → Prop) (s s' : Storage) : Prop where
  files : ∀ f, ¬ X f → s'.files f = s.files f
  partitions : s'.partitions = s.partitions

variable {X Y : Bytes → Prop} {s s₁ s₂ : Storage}

theorem Only.refl : Only X s s := ⟨fun _ _ => rfl, rfl⟩

theorem Only.trans (h : Only X s s₁) (h' : Only X s₁ s₂) : Only X s s₂ :=
  ⟨fun f hf => (h'.files f hf).trans (h.files f hf), h'.partitions.trans h.partitions⟩

theorem Only.mono (hXY : ∀ f, X f → Y f) (h : Only X s s₁) : Only Y s s₁ :=
  ⟨fun f hf => h.files f fun hX => hf (hXY f hX), h.partitions⟩

theorem Only.setFile {f : Bytes} (data : Option Bytes) (h : X f) : Only X s (s.setFile f data) := by
  refine ⟨fun f' hf' => s.setFile_files_ne data ?_, rfl⟩
  rintro rfl
  exact hf' h

/-- A plain file outside of `X` and a partition are loaded as before. -/
theorem Only.load {filename : Bytes} (h : Only X s s₁)
    (hX : isPartition filename = false → ¬ X filename) :
    loadFileContents e s₁ filename = loadFileContents e s filename :=
  loadFileContents_congr (fun hp => h.files _ (hX hp)) fun _ _ _ => by rw [h.partitions]

variable {α β : Type} {p : Prog PatchOp α} {f : α → Prog PatchOp β}
  {Q Q' : α → Storage → Storage → Prop} {R : β → Storage → Storage → Prop}

variable (e) in
/-- A program that touches the files of `X` only and does `Q`. -/
def Modifies (X : Bytes → Prop) (Q : α → Storage → Storage → Prop) (p : Prog PatchOp α) : Prop :=
  ∀ s, Prog.wp (storageSem e) (Only X s) (fun r s' => Only X s s' ∧ Q r s s') p s

theorem Modifies.pure {a : α} (h : ∀ s, Q a s s) : Modifies e X Q (Pure.pure a) :=
  fun s => ⟨.refl, .refl, h s⟩

theorem Modifies.call {o : PatchOp α}
    (h : ∀ s r s', storageSem e _ o s r s' → Only X s s' ∧ Q r s s') : Modifies e X Q (call o) :=
  fun s => ⟨.refl, fun r s' hs => ⟨(h s r s' hs).1, h s r s' hs⟩⟩

theorem Modifies.bind {P : α → β → Storage → Storage → Prop} (hp : Modifies e X Q p)
    (hf : ∀ r, Modifies e X (P r) (f r))
    (h : ∀ r b s s₁ s₂, Q r s s₁ → P r b s₁ s₂ → Only X s₁ s₂ → R b s s₂) :
    Modifies e X R (p >>= f) := by
  intro s
  rw [Prog.wp_bind]
  refine Prog.wp_mono (fun _ hC => hC) (fun r s₁ _ hr => ?_) (hp s)
  refine Prog.wp_mono (fun _ hC => hr.1.trans hC) (fun b s₂ _ hb => ?_) (hf r s₁)
  exact ⟨hr.1.trans hb.1, h r b s s₁ s₂ hr.2 hb.2 hb.1⟩

theorem Modifies.mono (h : Modifies e X Q p) (hXY : ∀ f, X f → Y f)
    (hQ : ∀ r s s', Q r s s' → Q' r s s') : Modifies e Y Q' p :=
  fun s => Prog.wp_mono (fun _ hC => hC.mono hXY) (fun _ _ _ hr => ⟨hr.1.mono hXY, hQ _ _ _ hr.2⟩) (h s)

/-- What a program that keeps to `X` leaves of a property. -/
theorem Modifies.wp {C : Storage → Prop} {Q' : α → Storage → Prop} (h : Modifies e X Q p)
    (hC : ∀ s', Only X s s' → C s') (hQ : ∀ r s', Only X s s' → Q r s s' → Q' r s') :
    Prog.wp (storageSem e) C Q' p s :=
  Prog.wp_mono hC (fun r s' _ hr => hQ r s' hr.1 hr.2) (h s)

variable (e) in
/-- A program that changes nothing. -/
def Looks (p : Prog PatchOp α) : Prop :=
  ∀ s, Prog.wp (storageSem e) (· = s) (fun _ s' => s' = s) p s

theorem Looks.wp {C : Storage → Prop} {Q : α → Storage → Prop} (h : Looks e p) (hC : C s)
    (hQ : ∀ r, Q r s) : Prog.wp (storageSem e) C Q p s :=
  Prog.wp_mono (fun s' (hs : s' = s) => hs ▸ hC) (fun r s' _ (hs : s' = s) => hs ▸ hQ r) (h s)

theorem Looks.pure (a : α) : Looks e (Pure.pure a) := fun _ => ⟨rfl, rfl⟩

theorem Looks.call {o : PatchOp α} (h : ∀ s r s', storageSem e _ o s r s' → s' = s) :
    Looks e (Prog.call o) :=
  fun s => ⟨rfl, fun r s' hs => ⟨h s r s' hs, h s r s' hs⟩⟩

theorem Looks.bind (hp : Looks e p) (hf : ∀ r, Looks e (f r)) : Looks e (p >>= f) := by
  intro s
  rw [Prog.wp_bind]
  exact hp.wp rfl fun r => hf r s

theorem Looks.modifies (h : Looks e p) : Modifies e X (fun _ s s' => s' = s) p :=
  fun _ => h.wp .refl fun _ => ⟨.refl, rfl⟩

theorem freeSpace_looks (filename : Bytes) : Looks e (Prog.call (.freeSpaceForFile filename)) :=
  .call fun _ _ _ h => h

theorem openFiles_looks : Looks e (Prog.call .openFiles) := .call fun _ _ _ h => h

/-! ## Backing up -/

section Backup

variable (filename : Bytes)

/-- `FileSink` appends the data. -/
def Appends (data : Bytes) (r : Bool) (s s' : Storage) : Prop :=
  r = true → ∀ old, s.files filename = some old → s'.files filename = some (old ++ data)

theorem fileSink_modifies (data : Bytes) :
    Modifies e (· = filename) (Appends filename data) (fileSink filename data) := by
  fun_induction fileSink filename data with
  | case1 => exact .pure fun s _ old h => by rw [List.append_nil]; exact h
  | case2 data hne ih =>
    refine Modifies.bind (p := call (.write filename data))
      (f := fun wrote =>
        if 0 < wrote then fileSink filename (data.drop wrote.toNat) else pure false)
      (Q := fun wrote s s' => 0 < wrote →
        s'.files filename = (s.files filename).map fun old => old ++ data.take wrote.toNat)
      (P := fun wrote r s s' => Appends filename (data.drop wrote.toNat) r s s' ∧
        (r = true → 0 < wrote))
      (.call ?_) ?_ ?_
    · intro s wrote s' hs
      dsimp only [storageSem] at hs
      split at hs
      · obtain ⟨-, rfl⟩ := hs
        exact ⟨.setFile _ rfl, fun _ => s.setFile_files _ _⟩
      · rename_i hwrote
        subst hs
        exact ⟨.refl, fun h => absurd h hwrote⟩
    · intro wrote
      split
      · rename_i hwrote
        exact (ih wrote hwrote).mono (fun _ h => h) fun r s s' h => ⟨h, fun _ => hwrote⟩
      · exact .pure fun s => ⟨nofun, nofun⟩
    · rintro wrote r s s₁ s₂ hwrite ⟨happ, hpos⟩ - hr old hold
      have hmid := hwrite (hpos hr)
      rw [hold] at hmid
      rw [happ hr _ hmid, List.append_assoc, List.take_append_drop]

theorem openTrunc_modifies : Modifies e (· = filename)
    (fun r _ s' => r = true → s'.files filename = some []) (call (.openTrunc filename)) := by
  refine .call fun s r s' hs => ?_
  dsimp only [storageSem] at hs
  split at hs
  · subst hs
    exact ⟨.setFile _ rfl, fun _ => s.setFile_files _ _⟩
  · rename_i hr
    subst hs
    exact ⟨.refl, fun h => absurd h hr⟩

theorem setMode_looks : Looks e (setMode filename) := by
  refine Looks.bind (.call fun _ _ _ h => h) fun r => ?_
  cases r
  · exact .pure false
  · exact .call fun _ _ _ h => h

theorem sinkContents_modifies (file : FileContents) :
    Modifies e (· = filename) (fun r s s' => r = true → ∀ data, file.data = some data →
      s.files filename = some [] → s'.files filename = some data) (sinkContents filename file) := by
  unfold sinkContents
  split
  · rename_i data hdata
    refine (fileSink_modifies filename data).mono (fun _ h => h) fun r s s' h hr data' hdata' hold => ?_
    rw [hdata] at hdata'
    cases hdata'
    exact h hr [] hold
  · rename_i hnone
    exact .pure fun s _ data hdata => absurd hdata (by rw [hnone]; nofun)

theorem saveFileContents_modifies (file : FileContents) :
    Modifies e (· = filename)
      (fun r _ s' => r = true → ∀ data, file.data = some data → s'.files filename = some data)
      (saveFileContents filename file) := by
  refine Modifies.bind (openTrunc_modifies filename)
    (P := fun opened r s s' => r = true → opened = true ∧
      ∀ data, file.data = some data → s.files filename = some [] → s'.files filename = some data)
    (fun opened => ?_) ?_
  · cases opened
    · exact .pure fun _ => nofun
    · refine Modifies.bind (sinkContents_modifies filename file)
        (P := fun written r s s' => r = true → written = true ∧ s' = s) (fun written => ?_) ?_
      · cases written
        · exact .pure fun _ => nofun
        · exact (setMode_looks filename).modifies.mono (fun _ h => h) fun _ _ _ h _ => ⟨rfl, h⟩
      · rintro written r s s₁ s₂ hdata hmode - hr
        obtain ⟨hwritten, rfl⟩ := hmode hr
        exact ⟨rfl, hdata hwritten⟩
  · rintro opened r s s₁ s₂ hopen hsave - hr data hdata
    obtain ⟨hopened, hsaved⟩ := hsave hr
    exact hsaved data hdata (hopen hopened)

theorem deleteFiles_modifies (bytes_needed : Nat) (names : List Bytes) (free_now : Nat) :
    Modifies e (· ∈ names) (fun _ _ _ => True) (deleteFiles bytes_needed names free_now) := by
  induction names generalizing free_now with
  | nil => exact .pure fun _ => trivial
  | cons name names ih =>
    unfold deleteFiles
    split
    · refine Modifies.bind (Q := fun _ _ _ => True) (P := fun _ _ _ _ => True) (.call ?_) (fun _ => ?_)
        fun _ _ _ _ _ _ _ _ => trivial
      · rintro s ⟨⟩ s' (rfl | rfl)
        · exact ⟨.refl, trivial⟩
        · exact ⟨.setFile _ List.mem_cons_self, trivial⟩
      · refine Modifies.bind (freeSpace_looks _).modifies (P := fun _ _ _ _ => True) (fun free => ?_)
          fun _ _ _ _ _ _ _ _ => trivial
        exact (ih free).mono (fun _ h => List.mem_cons_of_mem _ h) fun _ _ _ h => h
    · exact .pure fun _ => trivial

end Backup

/-- The files that are deleted to make room lie directly in the cache directories. -/
def Expendable (f : Bytes) : Prop := inCacheDir f = true ∧ f ≠ CACHE_TEMP_SOURCE

theorem findExpendableFiles_modifies : Modifies e X
    (fun r _ _ => ∀ names, r = some names → ∀ f ∈ names, Expendable f) findExpendableFiles := by
  refine Modifies.bind (Q := fun files _ _ => ∀ f ∈ files, inCacheDir f = true)
    (P := fun files r _ _ => ∀ names, r = some names → ∀ f ∈ names, f ∈ files ∧ f ≠ CACHE_TEMP_SOURCE)
    (.call ?_) (fun files => ?_) ?_
  · rintro s files s' ⟨rfl, hfiles⟩
    exact ⟨.refl, hfiles⟩
  · refine Modifies.bind openFiles_looks.modifies (P := fun _ r _ _ => ∀ names, r = some names →
      ∀ f ∈ names, f ∈ files ∧ f ≠ CACHE_TEMP_SOURCE) (fun links => ?_) fun _ _ _ _ _ _ h _ => h
    cases links with
    | none => exact .pure fun _ => nofun
    | some links =>
      refine .pure fun _ names hnames f hf => ?_
      cases hnames
      have hf := (List.mem_filter.mp hf).1
      obtain ⟨hmem, hne⟩ := List.mem_filter.mp hf
      exact ⟨hmem, of_decide_eq_true hne⟩
  · intro files r s s₁ s₂ hfiles hr _ names hnames f hf
    obtain ⟨hmem, hne⟩ := hr names hnames f hf
    exact ⟨hfiles f hmem, hne⟩

theorem makeFreeSpaceOnCache_modifies (bytes_needed : Nat) :
    Modifies e Expendable (fun _ _ _ => True) (makeFreeSpaceOnCache bytes_needed) := by
  refine Modifies.bind (freeSpace_looks _).modifies (P := fun _ _ _ _ => True) (fun free_now => ?_)
    fun _ _ _ _ _ _ _ _ => trivial
  split
  · exact .pure fun _ => trivial
  · intro s
    rw [Prog.wp_bind]
    refine findExpendableFiles_modifies.wp (fun _ h => h) fun names s₁ honly hnames => ?_
    cases names with
    | none => exact ⟨honly, honly, trivial⟩
    | some names =>
      refine (Modifies.bind (deleteFiles_modifies bytes_needed names free_now)
        (P := fun _ _ _ _ => True) (fun _ => .pure fun _ => trivial)
        (R := fun _ _ _ => True) fun _ _ _ _ _ _ _ _ => trivial).wp ?_ ?_
      · exact fun s₂ h => honly.trans (h.mono (hnames names rfl))
      · exact fun _ s₂ h _ => ⟨honly.trans (h.mono (hnames names rfl)), trivial⟩

variable (g : GenerateArgs)

/-- A backup touches the cache directories only, and leaves the source in the copy. -/
theorem backUpSource_modifies : Modifies e (inCacheDir · = true)
    (fun r _ s' => r = true → ∀ data, g.source_file.data = some data →
      s'.files CACHE_TEMP_SOURCE = some data) (backUpSource g) := by
  have hcopy : ∀ f, f = CACHE_TEMP_SOURCE → inCacheDir f = true := by
    rintro f rfl
    decide
  refine Modifies.bind ((makeFreeSpaceOnCache_modifies _).mono (fun _ h => h.1) fun _ _ _ h => h)
    (P := fun _ r _ s' => r = true → ∀ data, g.source_file.data = some data →
      s'.files CACHE_TEMP_SOURCE = some data) (fun free => ?_) fun _ _ _ _ _ _ h _ => h
  cases free
  · exact .pure fun _ => nofun
  · exact (saveFileContents_modifies CACHE_TEMP_SOURCE g.source_file).mono hcopy fun _ _ _ h => h

/-! ## Patching -/

theorem sinkChunks_modifies (filename : Bytes) (chunks : List Bytes) :
    Modifies e (· = filename) (Appends filename chunks.flatten) (sinkChunks filename chunks) := by
  induction chunks with
  | nil => exact .pure fun s _ old h => by rw [List.flatten_nil, List.append_nil]; exact h
  | cons chunk chunks ih =>
    refine Modifies.bind (fileSink_modifies filename chunk)
      (P := fun taken r s s' => r = true → taken = true ∧ Appends filename chunks.flatten true s s')
      (fun taken => ?_) ?_
    · cases taken
      · exact .pure fun _ => nofun
      · exact ih.mono (fun _ h => h) fun r s s' h hr => ⟨rfl, fun _ => h hr⟩
    · rintro taken r s s₁ s₂ hchunk hrest - hr old hold
      obtain ⟨htaken, hrest⟩ := hrest hr
      rw [hrest rfl _ (hchunk htaken old hold), List.flatten_cons, List.append_assoc]

/-- The output of a plain target. -/
def IsOutput (f : Bytes) : Prop := isPartition g.target_filename = false ∧ f = outname g.target_filename

/-- A patched round has its output in the file next to a plain target. -/
def HasOutput : Round → Storage → Prop
  | .patched output _, s =>
    isPartition g.target_filename = false → s.files (outname g.target_filename) = some output
  | _, _ => True

/-- What `retry` and `made_copy` say about the end of a round. -/
def Round.Ends (retry : Nat) (made_copy : Bool) : Round → Prop
  | .returns _ => True
  | .patched _ made => made = made_copy
  | .failed => retry ≠ 0

theorem openOutput_modifies : Modifies e (IsOutput g)
    (fun r _ s' => r = true → isPartition g.target_filename = false →
      s'.files (outname g.target_filename) = some []) (openOutput g) := by
  unfold openOutput
  split
  · rename_i h
    exact .pure fun s _ hplain => absurd h (by rw [hplain]; nofun)
  · rename_i h
    have hplain : isPartition g.target_filename = false := by simpa using h
    exact (openTrunc_modifies _).mono (fun f hf => ⟨hplain, hf⟩) fun _ _ _ h hr _ => h hr

theorem sinkOutput_modifies (chunks : List Bytes) : Modifies e (IsOutput g)
    (fun r s s' => r = true → isPartition g.target_filename = false →
      s.files (outname g.target_filename) = some [] →
      s'.files (outname g.target_filename) = some chunks.flatten) (sinkOutput g chunks) := by
  unfold sinkOutput
  split
  · rename_i h
    exact .pure fun s _ hplain => absurd h (by rw [hplain]; nofun)
  · rename_i h
    have hplain : isPartition g.target_filename = false := by simpa using h
    exact (sinkChunks_modifies _ _).mono (fun f hf => ⟨hplain, hf⟩) fun _ _ _ h hr _ hold => h hr [] hold

theorem runPatcher_modifies (retry : Nat) (made_copy : Bool) (chunks : List Bytes) (status : Int) :
    Modifies e (IsOutput g) (fun r s s' => r.Ends retry made_copy ∧
      (isPartition g.target_filename = false → s.files (outname g.target_filename) = some [] →
        HasOutput g r s')) (runPatcher g retry made_copy chunks status) := by
  refine Modifies.bind (sinkOutput_modifies g chunks)
    (P := fun taken r s s' => r.Ends retry made_copy ∧ (∀ output made, r = .patched output made →
      taken = true ∧ output = chunks.flatten ∧ s' = s)) (fun taken => ?_) ?_
  · split
    · rename_i h
      refine .pure fun s => ⟨rfl, fun output made hr => ?_⟩
      cases hr
      exact ⟨h.1, rfl, rfl⟩
    · split
      · exact .pure fun s => ⟨trivial, nofun⟩
      · rename_i hretry
        refine Modifies.bind (Q := fun _ _ _ => True)
          (P := fun _ r _ _ => r = .failed) ?_ (fun _ => .pure fun _ => rfl) ?_
        · unfold unlinkOutput
          split
          · exact .pure fun _ => trivial
          · rename_i h
            refine .call fun s r s' hs => ?_
            obtain rfl | rfl := hs
            · exact ⟨.refl, trivial⟩
            · exact ⟨.setFile _ ⟨by simpa using h, rfl⟩, trivial⟩
        · rintro _ r s s₁ s₂ - rfl -
          exact ⟨hretry, nofun⟩
  · rintro taken r s s₁ s₂ hsink ⟨hends, hpatched⟩ -
    refine ⟨hends, fun hplain hold => ?_⟩
    cases r with
    | patched output made =>
      obtain ⟨htaken, rfl, rfl⟩ := hpatched output made rfl
      exact fun _ => hsink htaken hplain hold
    | returns _ | failed => trivial

theorem patchTarget_modifies (retry : Nat) (made_copy : Bool) :
    Modifies e (IsOutput g) (fun r _ s' => r.Ends retry made_copy ∧ HasOutput g r s')
      (patchTarget e g retry made_copy) := by
  unfold patchTarget
  split
  · exact .pure fun _ => ⟨trivial, trivial⟩
  · split
    · exact .pure fun _ => ⟨trivial, trivial⟩
    · refine Modifies.bind (openOutput_modifies g)
        (P := fun opened r s s' => r.Ends retry made_copy ∧ ((opened = true →
          isPartition g.target_filename = false → s.files (outname g.target_filename) = some []) →
          HasOutput g r s')) (fun opened => ?_) ?_
      · cases opened
        · exact .pure fun _ => ⟨trivial, fun _ => trivial⟩
        · rw [if_pos rfl]
          split
          · exact .pure fun _ => ⟨trivial, fun _ => trivial⟩
          · rename_i chunks status _
            refine (runPatcher_modifies g retry made_copy chunks status).mono (fun _ h => h) ?_
            rintro r s s' ⟨hends, hout⟩
            refine ⟨hends, fun hopen => ?_⟩
            by_cases hplain : isPartition g.target_filename = false
            · exact hout hplain (hopen rfl hplain)
            · cases r with
              | patched output made => exact fun h => absurd h hplain
              | returns _ | failed => trivial
      · rintro opened r s s₁ s₂ hopen ⟨hends, hout⟩ -
        exact ⟨hends, hout hopen⟩

end Miui
