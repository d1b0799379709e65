import MiuiRecovery.Minzip.Hierarchy
import Mathlib.Data.List.Induction

/-!
# Permissions of a tree of files

`minzip/DirUtil.c`, `dirSetHierarchyPermissions`.

* `steps`: the calls that the recursion makes as long as none fails.
* `dirSetHierarchyPermissions_spec`: a run makes these calls up to the first that fails.
* `foldl_attrs`: what a list of calls leaves of the owner and the mode of a file.
-/

namespace Miui
namespace Hierarchy

open FileTree

/-! ## Owners and modes -/

/-- What a `chown` leaves of the mode of a file: 04000 goes, and with 00010 also 02000. -/
def clearIds (mode : Nat) : Nat :=
  let mode := if mode / 2048 % 2 = 1 then mode - 2048 else mode
  if mode / 1024 % 2 = 1 ∧ mode / 8 % 2 = 1 then mode - 1024 else mode

/-- An argument of `chown`: -1 asks for no change. -/
def owner (id : Int) (old : Nat) : Nat := if id % 2 ^ 32 = 2 ^ 32 - 1 then old else (id % 2 ^ 32).toNat

def Attr.chown (uid gid : Int) (dir : Bool) (a : Attr) : Attr :=
  ⟨owner uid a.uid, owner gid a.gid, if dir then a.mode else clearIds a.mode⟩

def Attr.chmod (mode : Int) (a : Attr) : Attr := { a with mode := (mode % 4096).toNat }

namespace Kernel

variable (k : Kernel)

def chown (path : Bytes) (uid gid : Int) (w : World) : Option Unit × World :=
  k.call w <| match k.resolve w.tree true path with
    | none => .error 2
    | some loc =>
      let attr := (w.attrs loc).chown uid gid (w.tree.kind loc = some .dir)
      .ok ((), { w with attrs := Function.update w.attrs loc attr })

def chmod (path : Bytes) (mode : Int) (w : World) : Option Unit × World :=
  k.call w <| match k.resolve w.tree true path with
    | none => .error 2
    | some loc => .ok ((), { w with attrs := Function.update w.attrs loc ((w.attrs loc).chmod mode) })

end Kernel

/-! ## `dirSetHierarchyPermissions` -/

/-- The arguments behind the path. -/
structure Request where
  uid : Int
  gid : Int
  dirMode : Int
  fileMode : Int

def Request.mode (req : Request) (dir : Bool) : Int := if dir then req.dirMode else req.fileMode

/-- `while (errno == 0 && (de = readdir(dir)) != NULL)` -/
def permissionsLoop (k : Kernel) (again : Bytes → World → Int × World) (path : Bytes) : List Bytes → World → World
  | [], w => if w.errno ≠ 0 then w else (k.readdir w).2
  | name :: names, w =>
    if w.errno ≠ 0 then w
    else match k.readdir w with
      | (none, w) => w
      | (some _, w) =>
        if name = [46, 46] ∨ name = [46] then permissionsLoop k again path names w
        else
          let (ret, w) := again (join path name) w
          permissionsLoop k again path names <|
            if ret = 0 then { w with errno := 0 } else if w.errno = 0 then { w with errno := -1 } else w

/-- The recursion over the components of a directory. -/
def permissionsDir (k : Kernel) (fds : Nat) (again : Bytes → World → Int × World) (path : Bytes) (w : World) :
    Int × World :=
  match k.opendir fds path w with
  | (none, w) => (-1, w)
  | (some names, w) =>
    let w := permissionsLoop k again path names { w with errno := 0 }
    -- `closedir` keeps `errno`
    if w.errno ≠ 0 then (-1, w)
    else match k.closedir w with
      | (none, w) => (-1, w)
      | (some _, w) => (0, w)

/-- What is done with a file that is no link. -/
def permissionsFile (k : Kernel) (req : Request) (fds : Nat) (again : Bytes → World → Int × World) (path : Bytes)
    (kind : Kind) (w : World) : Int × World :=
  match k.chown path req.uid req.gid w with
  | (none, w) => (-1, w)
  | (some _, w) =>
    match k.chmod path (req.mode (kind = .dir)) w with
    | (none, w) => (-1, w)
    | (some _, w) => if kind = .dir then permissionsDir k fds again path w else (0, w)

def permissionsBody (k : Kernel) (req : Request) (fds : Nat) (again : Bytes → World → Int × World) (path : Bytes)
    (w : World) : Int × World :=
  match k.lstat path w with
  | (none, w) => (-1, w)
  | (some (.symlink _), w) => (0, w)
  | (some kind, w) => permissionsFile k req fds again path kind w

/-- `dirSetHierarchyPermissions` with `fds` descriptors left; without one, `opendir` fails. -/
def dirSetHierarchyPermissions (k : Kernel) (req : Request) : Nat → Bytes → World → Int × World
  | 0 => permissionsBody k req 0 fun _ w => (-1, w)
  | fds + 1 => permissionsBody k req (fds + 1) (dirSetHierarchyPermissions k req fds)

/-! ## The calls of a run -/

/-- A call that changes nothing, one that changes a file, or one that fails. -/
inductive Step
  | ask
  | chown (loc : Loc)
  | chmod (loc : Loc)
  | stop
deriving DecidableEq

def stepsDir (t : Tree) (fds : Nat) (again : Bytes → List Step) (path : Bytes) (loc : Loc) : List Step :=
  if fds = 0 then [.stop]
  else [.ask] ++ (([46] :: [46, 46] :: t.names loc).flatMap (fun name =>
    .ask :: if name = [46, 46] ∨ name = [46] then [] else again (join path name)) ++ [.ask] ++ [.ask])

def stepsFile (t : Tree) (fds : Nat) (again : Bytes → List Step) (path : Bytes) (loc : Loc) (kind : Kind) : List Step :=
  [.chown loc] ++ ([.chmod loc] ++ if kind = .dir then stepsDir t fds again path loc else [])

def stepsBody (k : Kernel) (t : Tree) (fds : Nat) (again : Bytes → List Step) (path : Bytes) : List Step :=
  match k.resolve t false path with
  | none => [.stop]
  | some loc => match t.kind loc with
    | none => [.stop]
    | some (.symlink _) => [.ask]
    | some kind => [.ask] ++ stepsFile t fds again path loc kind

/-- The calls that the recursion makes in a tree if none fails but for a reason in the tree. -/
def steps (k : Kernel) (t : Tree) : Nat → Bytes → List Step
  | 0 => stepsBody k t 0 fun _ => [.stop]
  | fds + 1 => stepsBody k t (fds + 1) (steps k t fds)

/-- What a call does. -/
def Step.attrs (req : Request) (t : Tree) (attrs : Loc → Attr) : Step → Loc → Attr
  | .chown loc => Function.update attrs loc ((attrs loc).chown req.uid req.gid (t.kind loc = some .dir))
  | .chmod loc => Function.update attrs loc ((attrs loc).chmod (req.mode (t.kind loc = some .dir)))
  | _ => attrs

/-- The calls before the first that fails, from the `i`-th call on. -/
def done (fails : Nat → Nat) : Nat → List Step → List Step
  | _, [] => []
  | i, s :: ss => if s = .stop ∨ fails i ≠ 0 then [] else s :: done fails (i + 1) ss

/-- The number of the call behind them. -/
def next (fails : Nat → Nat) (i : Nat) (ss : List Step) : Nat :=
  i + (done fails i ss).length + if done fails i ss = ss then 0 else 1

variable {fails : Nat → Nat} {k : Kernel} {req : Request} {t : Tree} {path name : Bytes} {w w' : World} {loc l : Loc}

/-- The calls are made one after the other, as long as they succeed: the state behind them, and whether all do. -/
def play (fails : Nat → Nat) (req : Request) (t : Tree) : List Step → (Loc → Attr) → Nat → Bool × (Loc → Attr) × Nat
  | [], attrs, i => (true, attrs, i)
  | s :: ss, attrs, i =>
    if s = .stop ∨ fails i ≠ 0 then (false, attrs, i + 1) else play fails req t ss (s.attrs req t attrs) (i + 1)

theorem play_eq (ss : List Step) (attrs : Loc → Attr) (i : Nat) :
    play fails req t ss attrs i =
      (decide (done fails i ss = ss), (done fails i ss).foldl (Step.attrs req t) attrs, next fails i ss) := by
  induction ss generalizing attrs i with
  | nil => simp [play, done, next]
  | cons s ss ih =>
    rw [play, next, done]
    split
    · simp
    · rw [ih, next]
      simp only [List.cons.injEq, true_and, List.foldl_cons, List.length_cons]
      congr 2
      omega

theorem play_append (ss ss' : List Step) (attrs : Loc → Attr) (i : Nat) :
    play fails req t (ss ++ ss') attrs i =
      if (play fails req t ss attrs i).1 then
        play fails req t ss' (play fails req t ss attrs i).2.1 (play fails req t ss attrs i).2.2
      else play fails req t ss attrs i := by
  induction ss generalizing attrs i with
  | nil => rfl
  | cons s ss ih =>
    rw [List.cons_append, play, play]
    split
    · rfl
    · exact ih _ _

/-- A function makes these calls up to the first that fails, and says whether one did. -/
structure Follows (fails : Nat → Nat) (req : Request) (ss : List Step) (w : World) (ok : Bool) (w' : World) : Prop where
  tree : w'.tree = w.tree
  play : Hierarchy.play fails req w.tree ss w.attrs w.calls = (ok, w'.attrs, w'.calls)

theorem Follows.append {ss ss' : List Step} {ok : Bool} {w'' : World} (h : Follows fails req ss w true w')
    (h' : Follows fails req ss' w' ok w'') : Follows fails req (ss ++ ss') w ok w'' := by
  refine ⟨h'.tree.trans h.tree, ?_⟩
  have hplay := h'.play
  rw [h.tree] at hplay
  rw [play_append, h.play, if_pos rfl, hplay]

theorem Follows.stop {ss : List Step} (h : Follows fails req ss w false w') (ss' : List Step) :
    Follows fails req (ss ++ ss') w false w' := by
  refine ⟨h.tree, ?_⟩
  rw [play_append, h.play, if_neg (by simp)]

theorem follows_nil : Follows fails req [] w true w := ⟨rfl, rfl⟩

/-- A call that has its effect unless it fails. -/
theorem call_ok {α : Type} (k : Kernel) (req : Request) (w : World) (a : α) {s : Step} (hs : s ≠ .stop) :
    (∃ w', k.call w (.ok (a, { w with attrs := s.attrs req w.tree w.attrs })) = (none, w') ∧
      Follows k.fails req [s] w false w' ∧ w'.errno ≠ 0) ∨
    ∃ w', k.call w (.ok (a, { w with attrs := s.attrs req w.tree w.attrs })) = (some a, w') ∧
      Follows k.fails req [s] w true w' ∧ w'.errno = w.errno := by
  unfold Kernel.call
  by_cases hfails : k.fails w.calls ≠ 0
  · rw [if_pos hfails]
    exact .inl ⟨_, rfl, ⟨rfl, by rw [play, if_pos (.inr hfails)]⟩, Int.natCast_ne_zero.mpr hfails⟩
  · rw [if_neg hfails]
    exact .inr ⟨_, rfl, ⟨rfl, by rw [play, if_neg (not_or.mpr ⟨hs, hfails⟩)]; rfl⟩, rfl⟩

/-- A call that fails in any case. -/
theorem call_error (α : Type) (k : Kernel) (req : Request) (w : World) {e : Nat} (he : e ≠ 0) :
    ∃ w', k.call w (.error e : Except Nat (α × World)) = (none, w') ∧ Follows k.fails req [.stop] w false w' ∧
      w'.errno ≠ 0 := by
  unfold Kernel.call
  by_cases hfails : k.fails w.calls ≠ 0
  · rw [if_pos hfails]
    exact ⟨_, rfl, ⟨rfl, by rw [play, if_pos (.inl rfl)]⟩, Int.natCast_ne_zero.mpr hfails⟩
  · rw [if_neg hfails]
    exact ⟨_, rfl, ⟨rfl, by rw [play, if_pos (.inl rfl)]⟩, Int.natCast_ne_zero.mpr he⟩

/-- A call that only asks. -/
theorem call_ask {α : Type} (k : Kernel) (req : Request) (w : World) (a : α) :
    (∃ w', k.call w (.ok (a, w)) = (none, w') ∧ Follows k.fails req [.ask] w false w' ∧ w'.errno ≠ 0) ∨
    ∃ w', k.call w (.ok (a, w)) = (some a, w') ∧ Follows k.fails req [.ask] w true w' ∧ w'.errno = w.errno :=
  call_ok k req w a (by simp : Step.ask ≠ .stop)

/-- The result of a function that makes the calls `ss`: `errno` is set where one fails. -/
structure Sets (k : Kernel) (req : Request) (ss : List Step) (w : World) (r : Int × World) : Prop where
  follows : Follows k.fails req ss w (decide (r.1 = 0)) r.2
  ret : r.1 = 0 ∨ r.1 = -1
  errno : r.1 ≠ 0 → r.2.errno ≠ 0

theorem Sets.failed {ss : List Step} (h : Follows k.fails req ss w false w') (herrno : w'.errno ≠ 0) (ss' : List Step) :
    Sets k req (ss ++ ss') w (-1, w') := ⟨h.stop ss', .inr rfl, fun _ => herrno⟩

theorem Sets.ok {ss : List Step} (h : Follows k.fails req ss w true w') : Sets k req ss w (0, w') :=
  ⟨h, .inl rfl, fun hne => absurd rfl hne⟩

theorem permissionsLoop_spec {again : Bytes → World → Int × World} {ss : Bytes → List Step}
    (hagain : ∀ path w, w.tree = t → Sets k req (ss path) w (again path w)) (path : Bytes) (names : List Bytes)
    (w : World) (htree : w.tree = t) (herrno : w.errno = 0) :
    Follows k.fails req (names.flatMap (fun name =>
        .ask :: if name = [46, 46] ∨ name = [46] then [] else ss (join path name)) ++ [.ask]) w
      (decide ((permissionsLoop k again path names w).errno = 0)) (permissionsLoop k again path names w) := by
  induction names generalizing w with
  | nil =>
    rw [permissionsLoop, if_neg (not_not.mpr herrno)]
    rcases call_ask k req w () with ⟨w', hcall, h, hne⟩ | ⟨w', hcall, h, heq⟩
    · rw [Kernel.readdir, hcall]
      simpa [hne] using h
    · rw [Kernel.readdir, hcall]
      simpa [heq, herrno] using h
  | cons name names ih =>
    rw [permissionsLoop, if_neg (not_not.mpr herrno), List.flatMap_cons, List.append_assoc, ← List.singleton_append,
      List.append_assoc, Kernel.readdir]
    rcases call_ask k req w () with ⟨w₁, hcall, h, hne⟩ | ⟨w₁, hcall, h, heq⟩
    · rw [hcall]
      dsimp only
      rw [decide_eq_false hne]
      exact h.stop _
    · rw [hcall]
      dsimp only
      have htree₁ := h.tree.trans htree
      refine h.append ?_
      split
      · exact ih w₁ htree₁ (heq.trans herrno)
      · have hset := hagain (join path name) w₁ htree₁
        rcases hret : again (join path name) w₁ with ⟨ret, w₂⟩
        rw [hret] at hset
        dsimp only
        have htree₂ := hset.follows.tree.trans htree₁
        by_cases h0 : ret = 0
        · rw [if_pos h0]
          have hfollows := hset.follows
          rw [decide_eq_true h0] at hfollows
          have hrest := ih { w₂ with errno := 0 } htree₂ rfl
          exact hfollows.append ⟨hrest.tree, hrest.play⟩
        · have hne := hset.errno h0
          have hfollows := hset.follows
          rw [decide_eq_false h0] at hfollows
          have hstop : permissionsLoop k again path names w₂ = w₂ := by
            cases names with
            | nil => rw [permissionsLoop, if_pos hne]
            | cons n names => rw [permissionsLoop, if_pos hne]
          rw [if_neg h0, if_neg hne, hstop, decide_eq_false hne]
          exact hfollows.stop _

/-- A path that is not that of a link is followed to the same place. -/
theorem resolve_follow (hres : k.resolve w.tree false path = some loc)
    (hlink : ∀ target, w.tree.kind loc ≠ some (.symlink target)) : k.resolve w.tree true path = some loc := by
  obtain ⟨hlen, hres⟩ := resolve_eq_some.mp hres
  exact resolve_eq_some.mpr ⟨hlen, Tree.resolve_follow hres hlink⟩

theorem chown_eq (req : Request) (hres : k.resolve w.tree true path = some loc) :
    k.chown path req.uid req.gid w =
      k.call w (.ok ((), { w with attrs := (Step.chown loc).attrs req w.tree w.attrs })) := by
  rw [Kernel.chown, hres]
  rfl

theorem chmod_eq (req : Request) (hres : k.resolve w.tree true path = some loc) {kind : Kind}
    (hkind : w.tree.kind loc = some kind) :
    k.chmod path (req.mode (kind = .dir)) w =
      k.call w (.ok ((), { w with attrs := (Step.chmod loc).attrs req w.tree w.attrs })) := by
  rw [Kernel.chmod, hres]
  simp only [Step.attrs, hkind, Option.some.injEq]

theorem Sets.after {ss ss' : List Step} {r : Int × World} (h : Follows k.fails req ss w true w')
    (h' : Sets k req ss' w' r) : Sets k req (ss ++ ss') w r := ⟨h.append h'.follows, h'.ret, h'.errno⟩

theorem permissionsDir_spec {again : Bytes → World → Int × World} {ss : Bytes → List Step} {fds : Nat} (htree : w.tree = t)
    (hagain : fds ≠ 0 → ∀ path w, w.tree = t → Sets k req (ss path) w (again path w))
    (hres : k.resolve t true path = some loc) (hdir : t.kind loc = some .dir) :
    Sets k req (stepsDir t fds ss path loc) w (permissionsDir k fds again path w) := by
  rw [permissionsDir, stepsDir, Kernel.opendir, htree, hres]
  simp only [hdir, ne_eq, not_true_eq_false, ↓reduceIte]
  by_cases hfds : fds = 0
  · rw [if_pos hfds, if_pos hfds]
    obtain ⟨w', hcall, h, hne⟩ := call_error (List Bytes) k req w (by decide : 24 ≠ 0)
    rw [hcall]
    exact .failed h hne []
  · rw [if_neg hfds, if_neg hfds]
    rcases call_ask k req w ([46] :: [46, 46] :: t.names loc) with ⟨w₁, hcall, h, hne⟩ | ⟨w₁, hcall, h, -⟩
    · rw [hcall]
      exact .failed h hne _
    · rw [hcall]
      refine .after h ?_
      dsimp only
      have hloop := permissionsLoop_spec (hagain hfds) path ([46] :: [46, 46] :: t.names loc) { w₁ with errno := 0 }
        (h.tree.trans htree) rfl
      obtain ⟨w₂, hw₂⟩ : ∃ w₂, permissionsLoop k again path ([46] :: [46, 46] :: t.names loc) { w₁ with errno := 0 } = w₂ :=
        ⟨_, rfl⟩
      rw [hw₂] at hloop ⊢
      have hfollows : Follows k.fails req _ w₁ _ w₂ := ⟨hloop.tree, hloop.play⟩
      by_cases herrno : w₂.errno = 0
      · rw [decide_eq_true herrno] at hfollows
        simp only [herrno, not_true_eq_false, ↓reduceIte]
        refine .after hfollows ?_
        rw [Kernel.closedir]
        rcases call_ask k req w₂ () with ⟨w₃, hcall, h, hne⟩ | ⟨w₃, hcall, h, -⟩
        · rw [hcall]
          exact .failed h hne []
        · rw [hcall]
          exact .ok h
      · rw [decide_eq_false herrno] at hfollows
        simp only [herrno, not_false_eq_true, ↓reduceIte]
        exact .failed hfollows herrno _

theorem permissionsFile_spec {again : Bytes → World → Int × World} {ss : Bytes → List Step} {fds : Nat} {kind : Kind}
    (htree : w.tree = t) (hagain : fds ≠ 0 → ∀ path w, w.tree = t → Sets k req (ss path) w (again path w))
    (hres : k.resolve t false path = some loc) (hkind : t.kind loc = some kind) (hlink : ∀ target, kind ≠ .symlink target) :
    Sets k req (stepsFile t fds ss path loc kind) w (permissionsFile k req fds again path kind w) := by
  have hfollow : ∀ w' : World, w'.tree = t → k.resolve w'.tree true path = some loc := by
    rintro w' rfl
    exact resolve_follow hres fun target h => hlink target (Option.some.inj (hkind.symm.trans h))
  rw [permissionsFile, stepsFile, chown_eq req (hfollow w htree)]
  rcases call_ok k req w () (by simp : Step.chown loc ≠ .stop) with
    ⟨w₁, hcall, h, hne⟩ | ⟨w₁, hcall, h, -⟩
  · rw [hcall]
    exact .failed h hne _
  rw [hcall]
  refine .after h ?_
  have htree₁ := h.tree.trans htree
  dsimp only
  rw [chmod_eq req (hfollow w₁ htree₁) (htree₁ ▸ hkind)]
  rcases call_ok k req w₁ () (by simp : Step.chmod loc ≠ .stop) with
    ⟨w₂, hcall, h, hne⟩ | ⟨w₂, hcall, h, -⟩
  · rw [hcall]
    exact .failed h hne _
  rw [hcall]
  refine .after h ?_
  have htree₂ := h.tree.trans htree₁
  dsimp only
  by_cases hdir : kind = .dir
  · rw [if_pos hdir, if_pos hdir]
    exact permissionsDir_spec htree₂ hagain (htree₂ ▸ hfollow w₂ htree₂) (hdir ▸ hkind)
  · rw [if_neg hdir, if_neg hdir]
    exact .ok follows_nil

theorem permissionsBody_spec {again : Bytes → World → Int × World} {ss : Bytes → List Step} {fds : Nat} (htree : w.tree = t)
    (hagain : fds ≠ 0 → ∀ path w, w.tree = t → Sets k req (ss path) w (again path w)) (path : Bytes) :
    Sets k req (stepsBody k t fds ss path) w (permissionsBody k req fds again path w) := by
  rw [permissionsBody, stepsBody, Kernel.lstat, htree]
  cases hres : k.resolve t false path with
  | none =>
    obtain ⟨w', hcall, h, hne⟩ := call_error Kind k req w (by decide : 2 ≠ 0)
    rw [Option.bind_none, hcall]
    exact .failed h hne []
  | some loc =>
    rw [Option.bind_some]
    dsimp only
    cases hkind : t.kind loc with
    | none => exact absurd hkind (Tree.resolve_kind (resolve_eq_some.mp hres).2)
    | some kind =>
      dsimp only
      rcases call_ask k req w kind with ⟨w₁, hcall, h, hne⟩ | ⟨w₁, hcall, h, -⟩
      · rw [hcall]
        cases kind with
        | symlink target => exact .failed h hne []
        | file => exact .failed h hne _
        | dir => exact .failed h hne _
      · rw [hcall]
        have htree₁ := h.tree.trans htree
        cases kind with
        | symlink target => exact .ok h
        | file => exact .after h (permissionsFile_spec htree₁ hagain hres hkind fun _ => nofun)
        | dir => exact .after h (permissionsFile_spec htree₁ hagain hres hkind fun _ => nofun)

/-- A run makes the calls of `steps`, up to the first that fails. -/
theorem dirSetHierarchyPermissions_spec (k : Kernel) (req : Request) (fds : Nat) (path : Bytes) (w : World) :
    Sets k req (steps k w.tree fds path) w (dirSetHierarchyPermissions k req fds path w) := by
  have hrun : ∀ t w, w.tree = t → Sets k req (steps k t fds path) w (dirSetHierarchyPermissions k req fds path w) := by
    intro t
    induction fds generalizing path with
    | zero => exact fun w htree => permissionsBody_spec htree (fun hne => absurd rfl hne) path
    | succ fds ih => exact fun w htree => permissionsBody_spec htree (fun _ => ih) path
  exact hrun w.tree w rfl

/-! ## What the calls leave -/

theorem clearIds_idem (mode : Nat) : clearIds (clearIds mode) = clearIds mode := by
  unfold clearIds
  dsimp only
  split_ifs <;> omega

theorem owner_idem (id : Int) (old : Nat) : owner id (owner id old) = owner id old := by
  unfold owner
  split_ifs <;> rfl

/-- The last of the calls on a file. -/
def lastOn (l : Loc) (ss : List Step) : Option Step := ss.reverse.find? fun s => s = .chown l ∨ s = .chmod l

theorem lastOn_append (l : Loc) (ss : List Step) (s : Step) :
    lastOn l (ss ++ [s]) = if s = .chown l ∨ s = .chmod l then some s else lastOn l ss := by
  rw [lastOn, List.reverse_append, List.reverse_singleton, List.singleton_append, List.find?_cons]
  split <;> simp_all [lastOn]

/-- The mode of a file behind some calls: that of the last `chmod` or the one before, without the bits that a `chown` behind
it clears. -/
def modeAfter (req : Request) (t : Tree) (attrs : Loc → Attr) (ss : List Step) (l : Loc) : Nat :=
  let mode := if .chmod l ∈ ss then ((attrs l).chmod (req.mode (t.kind l = some .dir))).mode else (attrs l).mode
  if lastOn l ss = some (.chown l) ∧ t.kind l ≠ some .dir then clearIds mode else mode

/-- What the calls leave of the owner and the mode of a file. -/
theorem foldl_attrs (ss : List Step) (attrs : Loc → Attr) (l : Loc) :
    ss.foldl (Step.attrs req t) attrs l =
      ⟨if .chown l ∈ ss then owner req.uid (attrs l).uid else (attrs l).uid,
        if .chown l ∈ ss then owner req.gid (attrs l).gid else (attrs l).gid, modeAfter req t attrs ss l⟩ := by
  induction ss using List.reverseRecOn with
  | nil => simp [modeAfter, lastOn]
  | append_singleton ss s ih =>
    rw [List.foldl_append, List.foldl_cons, List.foldl_nil, modeAfter, lastOn_append]
    cases s with
    | ask => simpa [Step.attrs, modeAfter] using ih
    | stop => simpa [Step.attrs, modeAfter] using ih
    | chmod l' =>
      by_cases hl : l' = l
      · subst hl
        rw [Step.attrs, Function.update_self, ih]
        simp [Attr.chmod]
      · rw [Step.attrs, Function.update_of_ne (Ne.symm hl), ih]
        simp [modeAfter, hl, Ne.symm hl]
    | chown l' =>
      by_cases hl : l' = l
      · subst hl
        rw [Step.attrs, Function.update_self, ih, Attr.chown, modeAfter]
        by_cases hdir : t.kind l' = some .dir
        · by_cases hmem : .chown l' ∈ ss <;> simp [hdir, hmem, owner_idem]
        · by_cases hmem : .chown l' ∈ ss <;> simp [hdir, hmem, owner_idem] <;> split_ifs <;> simp [clearIds_idem]
      · rw [Step.attrs, Function.update_of_ne (Ne.symm hl), ih]
        simp [modeAfter, hl, Ne.symm hl]

/-- Links are not changed. -/
theorem steps_kind {fds : Nat} {s : Step} (h : s ∈ steps k t fds path) (hs : s = .chown l ∨ s = .chmod l)
    (target : Bytes) : t.kind l ≠ some (.symlink target) := by
  have hask : s ≠ .ask := by rcases hs with rfl | rfl <;> simp
  have hstop : s ≠ .stop := by rcases hs with rfl | rfl <;> simp
  have hbody : ∀ fds again path, (∀ path, s ∈ again path → t.kind l ≠ some (.symlink target)) →
      s ∈ stepsBody k t fds again path → t.kind l ≠ some (.symlink target) := by
    intro fds again path hagain h
    have hdir : ∀ loc, s ∈ stepsDir t fds again path loc → t.kind l ≠ some (.symlink target) := by
      intro loc h
      rw [stepsDir] at h
      split at h
      · exact absurd (List.mem_singleton.mp h) hstop
      · simp only [List.mem_append, List.mem_flatMap, List.mem_singleton, hask, false_or, or_false] at h
        obtain ⟨name, -, h⟩ := h
        rcases List.mem_cons.mp h with rfl | h
        · exact absurd rfl hask
        · split at h
          · cases h
          · exact hagain _ h
    rw [stepsBody] at h
    split at h
    · exact absurd (List.mem_singleton.mp h) hstop
    · next loc hloc =>
      split at h
      · exact absurd (List.mem_singleton.mp h) hstop
      · exact absurd (List.mem_singleton.mp h) hask
      · next kind hlink hkind =>
        have hhere : t.kind loc ≠ some (.symlink target) := fun hlink' =>
          hlink target (Option.some.inj (hkind.symm.trans hlink'))
        rw [stepsFile] at h
        simp only [List.mem_append, List.mem_singleton, hask, false_or] at h
        rcases h with rfl | rfl | h
        · simp only [Step.chown.injEq, reduceCtorEq, or_false] at hs
          exact hs ▸ hhere
        · simp only [Step.chmod.injEq, reduceCtorEq, false_or] at hs
          exact hs ▸ hhere
        · split at h
          · exact hdir loc h
          · cases h
  induction fds generalizing path with
  | zero => exact hbody 0 _ path (fun _ h => absurd (List.mem_singleton.mp h) hstop) h
  | succ fds ih => exact hbody (fds + 1) _ path (fun _ h => ih h) h

/-- The owner that is asked for, and the mode for a directory or a file. -/
structure Attr.Has (req : Request) (dir : Bool) (a : Attr) : Prop where
  uid : owner req.uid a.uid = a.uid
  gid : owner req.gid a.gid = a.gid
  mode : (a.chmod (req.mode dir)).mode = a.mode

/-- Each of owner and mode is set by the calls, or was right before. -/
structure Settled (req : Request) (t : Tree) (attrs : Loc → Attr) (ss : List Step) (l : Loc) : Prop where
  owner : .chown l ∈ ss ∨ owner req.uid (attrs l).uid = (attrs l).uid ∧ owner req.gid (attrs l).gid = (attrs l).gid
  mode : modeAfter req t attrs ss l = ((attrs l).chmod (req.mode (t.kind l = some .dir))).mode

/-- The calls change nothing. -/
structure Unaltered (req : Request) (t : Tree) (attrs : Loc → Attr) (ss : List Step) (l : Loc) : Prop where
  owner : .chown l ∈ ss → owner req.uid (attrs l).uid = (attrs l).uid ∧ owner req.gid (attrs l).gid = (attrs l).gid
  mode : modeAfter req t attrs ss l = (attrs l).mode

theorem has_iff (ss : List Step) (attrs : Loc → Attr) (l : Loc) :
    (ss.foldl (Step.attrs req t) attrs l).Has req (t.kind l = some .dir) ↔ Settled req t attrs ss l := by
  rw [foldl_attrs]
  constructor
  · rintro ⟨huid, hgid, hmode⟩
    refine ⟨?_, hmode.symm⟩
    by_cases hmem : .chown l ∈ ss
    · exact .inl hmem
    · simp only [if_neg hmem] at huid hgid
      exact .inr ⟨huid, hgid⟩
  · rintro ⟨howner, hmode⟩
    by_cases hmem : .chown l ∈ ss
    · exact ⟨by simp [hmem, owner_idem], by simp [hmem, owner_idem], hmode.symm⟩
    · obtain ⟨huid, hgid⟩ := howner.resolve_left hmem
      exact ⟨by simpa [hmem] using huid, by simpa [hmem] using hgid, hmode.symm⟩

theorem unaltered_iff (ss : List Step) (attrs : Loc → Attr) (l : Loc) :
    ss.foldl (Step.attrs req t) attrs l = attrs l ↔ Unaltered req t attrs ss l := by
  rw [foldl_attrs]
  obtain ⟨a, ha⟩ : ∃ a, attrs l = a := ⟨_, rfl⟩
  constructor
  · intro h
    have huid := congrArg Attr.uid h
    have hgid := congrArg Attr.gid h
    refine ⟨fun hmem => ?_, congrArg Attr.mode h⟩
    simp only [if_pos hmem] at huid hgid
    exact ⟨huid, hgid⟩
  · rintro ⟨howner, hmode⟩
    rw [hmode]
    by_cases hmem : .chown l ∈ ss
    · rw [if_pos hmem, if_pos hmem, (howner hmem).1, (howner hmem).2]
    · rw [if_neg hmem, if_neg hmem]

end Hierarchy
end Miui
