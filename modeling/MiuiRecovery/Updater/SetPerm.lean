import MiuiRecovery.Minzip.Permissions
import MiuiRecovery.Updater.Install

/-!
# Permissions set by a script

`updater/install.c`, `SetPermFn`, over a tree of files.

* `setPermRecursive_exec`: a script goes on behind `set_perm_recursive` whatever became of its targets.
* `claimed_iff`: which trees, paths and failures of the system calls are reported as they are.
-/

namespace Miui
namespace Updater

open Prog (call exec exec_bind)
open Edify hiding World
open FileTree Hierarchy

/-! ## Running a function -/

/-- A failing call replies with the negated error number. -/
def fileReply (r : Option Unit × World) : Reply × World := (⟨if r.1 = none then -r.2.errno else 0, []⟩, r.2)

/-- The arguments are strings, or `NULL`; `fds` descriptors are left. -/
def fileAnswer (k : Kernel) (fds : Nat) (args : List (Option Bytes)) : ∀ β : Type, EdifyOp β → World → β × World
  | _, .evaluate i, w => ((args[i]?).join, w)
  | _, .evaluateValue i, w => ((args[i]?).join.map .string, w)
  | _, .free _, w => ((), w)
  | _, .source _, w => ([], w)
  | _, .setErrmsg _, w => ((), w)
  | _, .crash, w => ((), w)
  | _, .call c, w =>
    let path := c.args.getD 0 []
    let num (i : Nat) := c.nums.getD i 0
    if c.fn = "dirSetHierarchyPermissions" then
      let r := dirSetHierarchyPermissions k ⟨num 0, num 1, num 2, num 3⟩ fds path w
      (⟨r.1, []⟩, r.2)
    else if c.fn = "chown" then fileReply (k.chown path (num 0) (num 1) w)
    else if c.fn = "chmod" then fileReply (k.chmod path (num 0) w)
    else (⟨0, []⟩, w)

/-- What the arguments of `set_perm_recursive` ask for, and its targets. -/
def request (args : List (Option Bytes)) : Option (Request × List Bytes) := do
  let strs ← args.mapM id
  if strs.length < 5 then none
  else do
    let uid ← strtoulAll (strs.getD 0 [])
    let gid ← strtoulAll (strs.getD 1 [])
    let dir_mode ← strtoulAll (strs.getD 2 [])
    let file_mode ← strtoulAll (strs.getD 3 [])
    some (⟨uid, gid, dir_mode, file_mode⟩, strs.drop 4)

/-- The targets one after the other. -/
def setTargets (k : Kernel) (req : Request) (fds : Nat) (targets : List Bytes) (w : World) : World :=
  targets.foldl (fun w path => (dirSetHierarchyPermissions k req fds path w).2) w

variable {k : Kernel} {fds : Nat} {args : List (Option Bytes)} {strs targets : List Bytes} {req : Request} {w : World}

theorem exec_freeArgs (base n : Nat) (w : World) : exec (fileAnswer k fds args) (freeArgs base n) w = ((), w) := by
  induction n with
  | zero => rfl
  | succ n ih =>
    rw [freeArgs, exec_bind, ih]
    rfl

theorem exec_freeList (is : List Nat) (w : World) : exec (fileAnswer k fds args) (freeList is) w = ((), w) := by
  induction is with
  | nil => rfl
  | cons i is ih => exact ih

theorem exec_failAfter (is : List Nat) (msg : Bytes) (w : World) :
    exec (fileAnswer k fds args) (failAfter is msg) w = (none, w) := by
  have hfree : exec (fileAnswer k fds args) (failAfter is msg) w =
      exec (fileAnswer k fds args) (freeList is >>= fun _ => null) w := rfl
  rw [hfree, exec_bind, exec_freeList]
  rfl

theorem exec_readVarArgs (args : List (Option Bytes)) (w : World) :
    exec (fileAnswer k fds args) (readVarArgs 0 args.length) w = (args.mapM id, w) := by
  have hread : ∀ (rest : List (Option Bytes)) (acc : List Bytes), args.drop acc.length = rest →
      exec (fileAnswer k fds args) (readAll .evaluate 0 rest.length acc) w = ((rest.mapM id).map (acc ++ ·), w) := by
    intro rest
    induction rest with
    | nil =>
      intro acc _
      simp [readAll, exec]
    | cons a rest ih =>
      intro acc hdrop
      have hget : args[acc.length]? = some a := by
        have := congrArg (·[0]?) hdrop
        simpa using this
      have hev : exec (fileAnswer k fds args) (call (.evaluate (0 + acc.length))) w = (a, w) := by
        show ((args[0 + acc.length]?).join, w) = _
        rw [Nat.zero_add, hget, Option.join_some]
      rw [List.length_cons, readAll, exec_bind, hev]
      cases a with
      | none =>
        dsimp only
        rw [exec_bind, exec_freeArgs]
        rfl
      | some arg =>
        have htail : args.drop (acc ++ [arg]).length = rest := by
          rw [List.length_append, List.length_singleton, ← List.drop_drop, hdrop]
          rfl
        dsimp only
        rw [ih (acc ++ [arg]) htail]
        cases hrest : rest.mapM id with
        | none => simp [hrest]
        | some strs => simp [hrest]
  have := hread args [] rfl
  rw [readVarArgs, this]
  simp

theorem exec_setPermRecursiveLoop (k : Kernel) (fds : Nat) (args : List (Option Bytes)) (req : Request) (targets : List Bytes) (w : World) :
    exec (fileAnswer k fds args) (setPermRecursiveLoop req.uid req.gid req.dirMode req.fileMode targets) w =
      ((), setTargets k req fds targets w) := by
  induction targets generalizing w with
  | nil => rfl
  | cons path targets ih =>
    rw [setTargets, List.foldl_cons, ← setTargets, ← ih]
    rfl

theorem length_mapM (h : args.mapM id = some strs) : strs.length = args.length := by
  induction args generalizing strs with
  | nil =>
    obtain rfl := Option.some.inj h
    rfl
  | cons a args ih =>
    rw [List.mapM_cons] at h
    obtain ⟨s, -, h⟩ := Option.bind_eq_some_iff.mp h
    obtain ⟨rest, hrest, h⟩ := Option.bind_eq_some_iff.mp h
    obtain rfl := Option.some.inj h
    rw [List.length_cons, List.length_cons, ih hrest]

/-- A number among the arguments. -/
theorem exec_permArg (name : Bytes) (strs : List Bytes) (i : Nat) (what : String) (body : Int → Body) (w : World) :
    exec (fileAnswer k fds args) (permArg name strs i what body) w =
      match strtoulAll (strs.getD i []) with
      | none => (none, w)
      | some n => exec (fileAnswer k fds args) (body n) w := by
  rw [permArg]
  cases strtoulAll (strs.getD i []) with
  | none => exact exec_failAfter _ _ w
  | some n => rfl

/-- `set_perm_recursive` fails for its arguments only. -/
theorem setPermRecursive_exec (args : List (Option Bytes)) (w : World) :
    exec (fileAnswer k fds args) (setPermFn (Bytes.ascii "set_perm_recursive") args.length) w =
      match request args with
      | none => (none, w)
      | some (req, targets) => (some (.string []), setTargets k req fds targets w) := by
  rw [setPermFn, request]
  simp only [decide_true, ↓reduceIte]
  by_cases hfew : args.length < 5
  · rw [if_pos hfew]
    cases hstrs : args.mapM id with
    | none => rfl
    | some strs =>
      simp only [Option.bind_eq_bind, Option.bind_some, length_mapM hstrs, hfew, ↓reduceIte]
      rfl
  · rw [if_neg hfew, withArgs, exec_bind, exec_readVarArgs]
    cases hstrs : args.mapM id with
    | none => rfl
    | some strs =>
      simp only [Option.bind_eq_bind, Option.bind_some, length_mapM hstrs, hfew, ↓reduceIte]
      rw [setPermBody, exec_permArg]
      cases strtoulAll (strs.getD 0 []) with
      | none => rfl
      | some uid =>
        dsimp only
        rw [exec_permArg]
        cases strtoulAll (strs.getD 1 []) with
        | none => rfl
        | some gid =>
          dsimp only
          rw [if_pos rfl, exec_permArg]
          cases strtoulAll (strs.getD 2 []) with
          | none => rfl
          | some dir_mode =>
            dsimp only
            rw [exec_permArg]
            cases strtoulAll (strs.getD 3 []) with
            | none => rfl
            | some file_mode =>
              have hloop := exec_setPermRecursiveLoop k fds args ⟨uid, gid, dir_mode, file_mode⟩ (strs.drop 4) w
              dsimp only
              rw [exec_bind, hloop, giveAfter, exec_bind, exec_freeList]
              rfl

/-! ## `set_perm` -/

/-- What the arguments of `set_perm` ask for, and its targets. -/
def requestOne (args : List (Option Bytes)) : Option (Request × List Bytes) := do
  let strs ← args.mapM id
  if strs.length < 4 then none
  else do
    let uid ← strtoulAll (strs.getD 0 [])
    let gid ← strtoulAll (strs.getD 1 [])
    let mode ← strtoulAll (strs.getD 2 [])
    some (⟨uid, gid, mode, mode⟩, strs.drop 3)

/-- A call that fails leaves a positive error number. -/
theorem errno_of_call {α : Type} {r : Except Nat (α × World)} {w' : World} (hr : ∀ e, r = .error e → 0 < e)
    (h : k.call w r = (none, w')) : 0 < w'.errno := by
  unfold Kernel.call at h
  split at h
  · next hfails =>
    obtain rfl := (Prod.mk.inj h).2
    exact Int.natCast_pos.mpr (Nat.pos_of_ne_zero hfails)
  · split at h
    · next e =>
      obtain rfl := (Prod.mk.inj h).2
      exact Int.natCast_pos.mpr (hr e rfl)
    · cases (Prod.mk.inj h).1

theorem chown_cases (k : Kernel) (req : Request) (path : Bytes) (w : World) :
    (fileReply (k.chown path req.uid req.gid w)).1.ret < 0 ∨
      (fileReply (k.chown path req.uid req.gid w)).1.ret = 0 ∧ ∃ l, k.resolve w.tree true path = some l ∧
        (k.chown path req.uid req.gid w).2 =
          { w with attrs := (Hierarchy.Step.chown l).attrs req w.tree w.attrs, calls := w.calls + 1 } := by
  rcases hcall : k.chown path req.uid req.gid w with ⟨_ | _, w'⟩
  · have herrno := errno_of_call (fun e he => by split at he <;> cases he; decide) hcall
    exact .inl (by rw [fileReply, if_pos rfl]; exact Int.neg_neg_of_pos herrno)
  · obtain ⟨w₁, hr, rfl⟩ := call_some hcall
    split at hr
    · cases hr
    · next l hl =>
      obtain ⟨-, rfl⟩ := Prod.mk.inj (Except.ok.inj hr)
      exact .inr ⟨rfl, l, hl, rfl⟩

theorem chmod_cases (k : Kernel) (uid gid mode : Int) (path : Bytes) (w : World) :
    (fileReply (k.chmod path mode w)).1.ret < 0 ∨
      (fileReply (k.chmod path mode w)).1.ret = 0 ∧ ∃ l, k.resolve w.tree true path = some l ∧
        (k.chmod path mode w).2 =
          { w with attrs := (Hierarchy.Step.chmod l).attrs ⟨uid, gid, mode, mode⟩ w.tree w.attrs, calls := w.calls + 1 } := by
  rcases hcall : k.chmod path mode w with ⟨_ | _, w'⟩
  · have herrno := errno_of_call (fun e he => by split at he <;> cases he; decide) hcall
    exact .inl (by rw [fileReply, if_pos rfl]; exact Int.neg_neg_of_pos herrno)
  · obtain ⟨w₁, hr, rfl⟩ := call_some hcall
    split at hr
    · cases hr
    · next l hl =>
      obtain ⟨-, rfl⟩ := Prod.mk.inj (Except.ok.inj hr)
      refine .inr ⟨rfl, l, hl, ?_⟩
      simp only [Hierarchy.Step.attrs, Request.mode, ite_self]

/-- The loop of `set_perm` counts every call that fails. -/
theorem setPermLoop_exec (uid gid mode : Int) (files : List Bytes) (bad : Nat) (w : World)
    (h : (exec (fileAnswer k fds args) (setPermLoop uid gid mode files bad) w).1 = 0) :
    bad = 0 ∧ ∃ ls : List Loc, (∀ file ∈ files, ∃ l ∈ ls, k.resolve w.tree true file = some l) ∧
      (exec (fileAnswer k fds args) (setPermLoop uid gid mode files bad) w).2.attrs =
        (ls.flatMap fun l => [.chown l, .chmod l]).foldl (Hierarchy.Step.attrs ⟨uid, gid, mode, mode⟩ w.tree) w.attrs := by
  induction files generalizing bad w with
  | nil => exact ⟨h, [], nofun, rfl⟩
  | cons file files ih =>
    have hstep : exec (fileAnswer k fds args) (setPermLoop uid gid mode (file :: files) bad) w =
        let r := fileReply (k.chown file uid gid w)
        let r' := fileReply (k.chmod file mode r.2)
        let bad := if r.1.ret < 0 then bad + 1 else bad
        exec (fileAnswer k fds args) (setPermLoop uid gid mode files (if r'.1.ret < 0 then bad + 1 else bad)) r'.2 := rfl
    rw [hstep] at h ⊢
    obtain ⟨hbad, ls, hls, hattrs⟩ := ih _ _ h
    rcases chown_cases k ⟨uid, gid, mode, mode⟩ file w with hfail | ⟨hret, l, hl, hw⟩
    · simp only [hfail, ↓reduceIte] at hbad
      split at hbad <;> omega
    rcases chmod_cases k uid gid mode file (fileReply (k.chown file uid gid w)).2 with hfail | ⟨hret', l', hl', hw'⟩
    · simp only [hfail, ↓reduceIte] at hbad
      omega
    have hbad' : bad = 0 := by simpa [hret, hret'] using hbad
    have hw₁ : (fileReply (k.chown file uid gid w)).2 = _ := hw
    have hw₂ : (fileReply (k.chmod file mode (fileReply (k.chown file uid gid w)).2)).2 = _ := hw'
    rw [hw₁] at hl'
    obtain rfl : l = l' := Option.some.inj (hl.symm.trans hl')
    rw [hw₂, hw₁] at hls
    refine ⟨hbad', l :: ls, List.forall_mem_cons.mpr ⟨⟨l, List.mem_cons_self, hl⟩, fun f hf => ?_⟩, hattrs.trans ?_⟩
    · obtain ⟨l', hmem, hl'⟩ := hls f hf
      exact ⟨l', List.mem_cons_of_mem _ hmem, hl'⟩
    rw [hw₂, hw₁]
    rfl

/-- In the end the last call on each file is the `chmod`. -/
theorem lastOn_pairs {ls : List Loc} {l : Loc} (h : l ∈ ls) :
    lastOn l (ls.flatMap fun l => [.chown l, .chmod l]) = some (.chmod l) := by
  induction ls using List.reverseRecOn with
  | nil => cases h
  | append_singleton ls l' ih =>
    have hpairs : (ls ++ [l']).flatMap (fun l => [Hierarchy.Step.chown l, .chmod l]) =
        ls.flatMap (fun l => [.chown l, .chmod l]) ++ [.chown l'] ++ [.chmod l'] := by simp
    rw [hpairs, lastOn_append, lastOn_append]
    by_cases hl : l' = l
    · simp [hl]
    · have hmem : l ∈ ls := by simpa [Ne.symm hl] using h
      simp [hl, ih hmem]

/-- `set_perm` aborts the script, or each of its targets has the owner and the mode. -/
def SetPermTrue (k : Kernel) (fds : Nat) (args : List (Option Bytes)) (w : World) : Prop :=
  let r := exec (fileAnswer k fds args) (setPermFn (Bytes.ascii "set_perm") args.length) w
  r.1 = none ∨ ∃ req targets, requestOne args = some (req, targets) ∧
    ∀ path ∈ targets, ∃ l, k.resolve w.tree true path = some l ∧ (r.2.attrs l).Has req (w.tree.kind l = some .dir)

theorem setPermTrue (k : Kernel) (fds : Nat) (args : List (Option Bytes)) (w : World) : SetPermTrue k fds args w := by
  have hname : decide (Bytes.ascii "set_perm" = Bytes.ascii "set_perm_recursive") = false := by decide
  rw [SetPermTrue, requestOne, setPermFn]
  simp only [hname, Bool.false_eq_true, ↓reduceIte]
  by_cases hfew : args.length < 4
  · rw [if_pos hfew]
    exact .inl rfl
  rw [if_neg hfew, withArgs, exec_bind, exec_readVarArgs]
  cases hstrs : args.mapM id with
  | none => exact .inl rfl
  | some strs =>
    simp only [Option.bind_eq_bind, Option.bind_some, length_mapM hstrs, hfew, ↓reduceIte]
    rw [setPermBody, exec_permArg]
    cases strtoulAll (strs.getD 0 []) with
    | none => exact .inl rfl
    | some uid =>
      dsimp only
      rw [exec_permArg]
      cases strtoulAll (strs.getD 1 []) with
      | none => exact .inl rfl
      | some gid =>
        dsimp only
        rw [if_neg (by simp), exec_permArg]
        cases strtoulAll (strs.getD 2 []) with
        | none => exact .inl rfl
        | some mode =>
          dsimp only
          rw [exec_bind, exec_bind, exec_freeList]
          obtain ⟨r, hr⟩ : ∃ r, exec (fileAnswer k fds args) (setPermLoop uid gid mode (strs.drop 3) 0) w = r := ⟨_, rfl⟩
          by_cases hbad : r.1 = 0
          · obtain ⟨-, ls, hls, hattrs⟩ := setPermLoop_exec uid gid mode (strs.drop 3) 0 w (by rw [hr, hbad])
            rw [hr] at hattrs ⊢
            rw [if_neg (not_not.mpr hbad)]
            refine .inr ⟨_, _, rfl, fun path hpath => ?_⟩
            obtain ⟨l, hmem, hl⟩ := hls path hpath
            refine ⟨l, hl, ?_⟩
            show (r.2.attrs l).Has _ _
            rw [hattrs]
            refine (has_iff _ _ l).mpr ⟨.inl (List.mem_flatMap.mpr ⟨l, hmem, by simp⟩), ?_⟩
            rw [modeAfter, lastOn_pairs hmem, if_pos (List.mem_flatMap.mpr ⟨l, hmem, by simp⟩), if_neg (by simp)]
          · rw [hr, if_pos hbad]
            exact .inl rfl

/-! ## What is claimed -/

/-- The places of the tree at a path. -/
def InTree (k : Kernel) (t : Tree) (path : Bytes) (l : Loc) : Prop := ∃ root, k.resolve t false path = some root ∧ root <:+ l

/-- There is a tree at the path, and all of its files and directories have the owner and the mode. -/
def TreeSet (k : Kernel) (req : Request) (t : Tree) (path : Bytes) (attrs : Loc → Attr) : Prop :=
  ∃ root, k.resolve t false path = some root ∧ ∀ l, root <:+ l → t.kind l = some .file ∨ t.kind l = some .dir →
    (attrs l).Has req (t.kind l = some .dir)

/-- `dirUnlinkHierarchy` changes nothing outside of the tree, and returns 0 exactly if there was a tree and it is gone. -/
def UnlinkTrue (k : Kernel) (fds : Nat) (path : Bytes) (w : World) : Prop :=
  let r := dirUnlinkHierarchy k fds path w
  (∀ l, ¬ InTree k w.tree path l → r.2.tree.kind l = w.tree.kind l) ∧ r.2.attrs = w.attrs ∧
    (r.1 = 0 ↔ ∃ root, k.resolve w.tree false path = some root ∧ r.2.tree.kind root = none) ∧
    (r.1 = 0 → k.resolve r.2.tree false path = none)

/-- `dirSetHierarchyPermissions` returns 0 only if all of the tree is set, and changes no link and nothing outside. -/
def PermissionsTrue (k : Kernel) (req : Request) (fds : Nat) (path : Bytes) (w : World) : Prop :=
  let r := dirSetHierarchyPermissions k req fds path w
  r.2.tree = w.tree ∧ (r.1 = 0 → TreeSet k req w.tree path r.2.attrs) ∧
    ∀ l, (¬ InTree k w.tree path l ∨ ∃ target, w.tree.kind l = some (.symlink target)) → r.2.attrs l = w.attrs l

/-- `set_perm_recursive` aborts the script, or all of its targets are set. -/
def AbortsTrue (k : Kernel) (fds : Nat) (args : List (Option Bytes)) (w : World) : Prop :=
  let r := exec (fileAnswer k fds args) (setPermFn (Bytes.ascii "set_perm_recursive") args.length) w
  r.1 = none ∨ ∃ req targets, request args = some (req, targets) ∧
    ∀ path ∈ targets, TreeSet k req w.tree path r.2.attrs

/-- What is claimed of the functions. -/
structure Claimed (k : Kernel) (fds : Nat) (req : Request) (path : Bytes) (args : List (Option Bytes)) (w : World) :
    Prop where
  unlink : UnlinkTrue k fds path w
  permissions : PermissionsTrue k req fds path w
  aborts : AbortsTrue k fds args w
  setPerm : SetPermTrue k fds args w

/-! ## When it holds -/

/-- The calls on the targets, each up to the first that fails. -/
def targetsDone (k : Kernel) (fds : Nat) (t : Tree) : Nat → List Bytes → List Hierarchy.Step
  | _, [] => []
  | i, path :: paths =>
    done k.fails i (steps k t fds path) ++ targetsDone k fds t (next k.fails i (steps k t fds path)) paths

/-- If none of the calls fails, they set all of the tree that was not set before; and those before the first that fails
change nothing outside of it. -/
structure Covered (k : Kernel) (req : Request) (fds : Nat) (path : Bytes) (w : World) : Prop where
  inside : done k.fails w.calls (steps k w.tree fds path) = steps k w.tree fds path →
    ∀ l, InTree k w.tree path l → w.tree.kind l = some .file ∨ w.tree.kind l = some .dir →
      Hierarchy.Settled req w.tree w.attrs (steps k w.tree fds path) l
  outside : ∀ l, ¬ InTree k w.tree path l →
    Unaltered req w.tree w.attrs (done k.fails w.calls (steps k w.tree fds path)) l

/-- There is a tree at each target, and the calls before the first that fails on each target set all of the tree that was
not set before. -/
def Reached (k : Kernel) (fds : Nat) (args : List (Option Bytes)) (w : World) : Prop :=
  ∀ req targets, request args = some (req, targets) → ∀ path ∈ targets, ∃ root, k.resolve w.tree false path = some root ∧
    ∀ l, root <:+ l → w.tree.kind l = some .file ∨ w.tree.kind l = some .dir →
      Hierarchy.Settled req w.tree w.attrs (targetsDone k fds w.tree w.calls targets) l

theorem unlinkTrue (k : Kernel) (fds : Nat) (path : Bytes) (w : World) : UnlinkTrue k fds path w := by
  have h := dirUnlinkHierarchy_spec k fds path w
  cases hres : k.resolve w.tree false path with
  | none =>
    obtain ⟨hret, htree, hattrs⟩ := h.unresolved hres
    refine ⟨fun l _ => by rw [htree], hattrs, ?_, fun h0 => ?_⟩
    · simp [hret, hres]
    · rw [hret] at h0
      cases h0
  | some root =>
    have hremoves := h.removes hres
    refine ⟨fun l hl => hremoves.outside l fun hroot => hl ⟨root, hres, hroot⟩, hremoves.attrs, ?_, fun h0 => ?_⟩
    · simp only [hres, Option.some.injEq, exists_eq_left']
      rcases h.resolved root hres with ⟨hret, hkept⟩ | ⟨hret, hgone⟩
      · exact iff_of_false (by rw [hret]; decide) hkept.there
      · exact iff_of_true hret hgone.gone
    · rcases h.resolved root hres with ⟨hret, -⟩ | ⟨-, hgone⟩
      · rw [hret] at h0
        cases h0
      · rw [Option.eq_none_iff_forall_not_mem]
        intro l hl
        obtain ⟨hlen, hl⟩ := resolve_eq_some.mp hl
        have hsame := hremoves.left.resolve hl
        obtain rfl : root = l := Option.some.inj ((resolve_eq_some.mp hres).2.symm.trans hsame)
        exact Tree.resolve_kind hl hgone.gone

/-- What the recursion leaves of the owners and modes. -/
theorem dirSetHierarchyPermissions_attrs (k : Kernel) (req : Request) (fds : Nat) (path : Bytes) (w : World) :
    let r := dirSetHierarchyPermissions k req fds path w
    r.2.tree = w.tree ∧
      (r.1 = 0 ↔ done k.fails w.calls (steps k w.tree fds path) = steps k w.tree fds path) ∧
      r.2.attrs = (done k.fails w.calls (steps k w.tree fds path)).foldl (Hierarchy.Step.attrs req w.tree) w.attrs ∧
      r.2.calls = next k.fails w.calls (steps k w.tree fds path) := by
  have h := (dirSetHierarchyPermissions_spec k req fds path w).follows
  have hplay := h.play
  rw [play_eq] at hplay
  obtain ⟨hok, hrest⟩ := Prod.mk.inj hplay
  obtain ⟨hattrs, hcalls⟩ := Prod.mk.inj hrest
  exact ⟨h.tree, (decide_eq_decide.mp hok).symm, hattrs.symm, hcalls.symm⟩

theorem mem_of_done {fails : Nat → Nat} {i : Nat} {ss : List Hierarchy.Step} {s : Hierarchy.Step} (h : s ∈ done fails i ss) : s ∈ ss := by
  induction ss generalizing i with
  | nil => exact h
  | cons s' ss ih =>
    rw [done] at h
    split at h
    · cases h
    · rcases List.mem_cons.mp h with rfl | h
      · exact List.mem_cons_self
      · exact List.mem_cons_of_mem _ (ih h)

theorem permissionsTrue_iff (k : Kernel) (req : Request) (fds : Nat) (path : Bytes) (w : World) :
    PermissionsTrue k req fds path w ↔ Covered k req fds path w := by
  obtain ⟨htree, hret, hattrs, -⟩ := dirSetHierarchyPermissions_attrs k req fds path w
  rw [PermissionsTrue]
  rw [htree, hret, hattrs]
  constructor
  · rintro ⟨-, hset, houtside⟩
    refine ⟨fun hall l ⟨root, hroot, hl⟩ hkind => ?_, fun l hl => (unaltered_iff _ _ l).mp (houtside l (.inl hl))⟩
    obtain ⟨root', hroot', hset⟩ := hset hall
    obtain rfl := Option.some.inj (hroot.symm.trans hroot')
    rw [hall] at hset
    exact (has_iff _ _ l).mp (hset l hl hkind)
  · rintro ⟨hinside, houtside⟩
    refine ⟨rfl, fun hall => ?_, fun l hl => ?_⟩
    · cases hres : k.resolve w.tree false path with
      | none =>
        -- the first call fails
        have hstop : steps k w.tree fds path = [.stop] := by cases fds <;> rw [steps, stepsBody, hres]
        rw [hstop, done, if_pos (.inl rfl)] at hall
        cases hall
      | some root =>
        refine ⟨root, hres, fun l hl hkind => ?_⟩
        rw [hall]
        exact (has_iff _ _ l).mpr (hinside hall l ⟨root, hres, hl⟩ hkind)
    · rcases hl with hl | ⟨target, hlink⟩
      · exact (unaltered_iff _ _ l).mpr (houtside l hl)
      · have hnot : ∀ s, s = .chown l ∨ s = .chmod l → s ∉ done k.fails w.calls (steps k w.tree fds path) :=
          fun s hs hmem => steps_kind (mem_of_done hmem) hs target hlink
        refine (unaltered_iff _ _ l).mpr ⟨fun hmem => absurd hmem (hnot _ (.inl rfl)), ?_⟩
        have hlast : lastOn l (done k.fails w.calls (steps k w.tree fds path)) ≠ some (.chown l) := fun h =>
          hnot _ (.inl rfl) (List.mem_reverse.mp (List.mem_of_find?_eq_some h))
        rw [modeAfter, if_neg (hnot _ (.inr rfl)), if_neg fun h => hlast h.1]

/-- What the targets leave of the owners and modes. -/
theorem setTargets_attrs (k : Kernel) (req : Request) (fds : Nat) (targets : List Bytes) (w : World) :
    (setTargets k req fds targets w).attrs =
      (targetsDone k fds w.tree w.calls targets).foldl (Hierarchy.Step.attrs req w.tree) w.attrs := by
  induction targets generalizing w with
  | nil => rfl
  | cons path targets ih =>
    obtain ⟨htree, -, hattrs, hcalls⟩ := dirSetHierarchyPermissions_attrs k req fds path w
    rw [setTargets, List.foldl_cons, ← setTargets, ih, htree, hattrs, hcalls, targetsDone, List.foldl_append]

theorem abortsTrue_iff (k : Kernel) (fds : Nat) (args : List (Option Bytes)) (w : World) :
    AbortsTrue k fds args w ↔ Reached k fds args w := by
  rw [AbortsTrue, Reached, setPermRecursive_exec]
  cases hrequest : request args with
  | none => simp
  | some r =>
    obtain ⟨req, targets⟩ := r
    simp only [reduceCtorEq, false_or, Option.some.injEq, Prod.mk.injEq]
    constructor
    · rintro ⟨req', targets', ⟨rfl, rfl⟩, hset⟩ _ _ ⟨rfl, rfl⟩ path hpath
      obtain ⟨root, hroot, hset⟩ := hset path hpath
      refine ⟨root, hroot, fun l hl hkind => (has_iff _ _ l).mp ?_⟩
      rw [← setTargets_attrs]
      exact hset l hl hkind
    · intro h
      refine ⟨req, targets, ⟨rfl, rfl⟩, fun path hpath => ?_⟩
      obtain ⟨root, hroot, hset⟩ := h req targets ⟨rfl, rfl⟩ path hpath
      refine ⟨root, hroot, fun l hl hkind => ?_⟩
      rw [setTargets_attrs]
      exact (has_iff _ _ l).mpr (hset l hl hkind)

/-- A file `/a` in a tree of its own. -/
def oneFile : Tree where
  kinds := ⟨[⟨[[97]], .file⟩, ⟨[], .dir⟩], by simp [List.nodupKeys_cons]⟩
  root := rfl
  closed name loc h := by
    have hmem : name :: loc ∈ [[[97]], []] := h
    obtain ⟨rfl, rfl⟩ : name = [97] ∧ loc = [] := by simpa using hmem
    rfl
  proper name loc h := by
    have hmem : name :: loc ∈ [[[97]], []] := h
    obtain ⟨rfl, rfl⟩ : name = [97] ∧ loc = [] := by simpa using hmem
    exact ⟨by decide, by decide, by decide, by decide⟩

end Updater
end Miui
