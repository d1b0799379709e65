import MiuiRecovery.Lib.FileTree

/-!
# Recursive functions on directories

`minzip/DirUtil.c`: `dirUnlinkHierarchy` and `dirSetHierarchyPermissions` over a tree of files. Any system
call can fail. A directory is read as it was when it was opened, and every open directory takes a
descriptor. A `closedir` behind a failure is left out, as nothing looks at it.

* `dirUnlinkHierarchy_spec`: nothing outside the tree is removed, and the result tells whether the tree is gone.
* `dirSetHierarchyPermissions_spec`: the calls of a run are those of `steps` before the first that fails.
-/

namespace Miui
namespace Hierarchy

open FileTree

def PATH_MAX : Nat := 4096

/-! ## System calls -/

structure Attr where
  uid : Nat
  gid : Nat
  mode : Nat
deriving DecidableEq

/-- `fails n` is the error that the `n`-th call fails with, or 0; `links` is how many links are followed one in the
other. -/
structure Kernel where
  fails : Nat → Nat
  links : Nat
  cwd : Loc

structure World where
  tree : Tree
  attrs : Loc → Attr
  errno : Int
  calls : Nat

namespace Kernel

variable (k : Kernel)

/-- A call that does `r` if it does not fail for another reason. -/
def call {α : Type} (w : World) (r : Except Nat (α × World)) : Option α × World :=
  if k.fails w.calls ≠ 0 then (none, { w with errno := k.fails w.calls, calls := w.calls + 1 })
  else match r with
    | .error e => (none, { w with errno := e, calls := w.calls + 1 })
    | .ok (a, w') => (some a, { w' with calls := w.calls + 1 })

def resolve (t : Tree) (follow : Bool) (path : Bytes) : Option Loc :=
  if path.length < PATH_MAX then t.resolve k.links follow k.cwd path else none

def lstat (path : Bytes) (w : World) : Option Kind × World :=
  k.call w <| match (k.resolve w.tree false path).bind w.tree.kind with
    | none => .error 2
    | some kind => .ok (kind, w)

def unlink (path : Bytes) (w : World) : Option Unit × World :=
  k.call w <| match k.resolve w.tree false path with
    | none => .error 2
    | some loc =>
      if w.tree.kind loc = some .dir then .error 21
      else match w.tree.remove loc with
        | none => .error 16
        | some tree => .ok ((), { w with tree })

def rmdir (path : Bytes) (w : World) : Option Unit × World :=
  k.call w <|
    if path = [] then .error 2
    else if PATH_MAX ≤ path.length then .error 36
    else if (Tree.components path).getLast? = some [46] then .error 22
    else if (Tree.components path).getLast? = some [46, 46] then .error 39
    else match w.tree.locate k.links k.cwd path with
      | none => .error 2
      | some loc =>
        if w.tree.kind loc ≠ some .dir then .error 20
        else match w.tree.remove loc with
          | none => .error 39
          | some tree => .ok ((), { w with tree })

/-- The entries of a directory; `fds` descriptors are left. -/
def opendir (fds : Nat) (path : Bytes) (w : World) : Option (List Bytes) × World :=
  k.call w <| match k.resolve w.tree true path with
    | none => .error 2
    | some loc =>
      if w.tree.kind loc ≠ some .dir then .error 20
      else if fds = 0 then .error 24
      else .ok ([46] :: [46, 46] :: w.tree.names loc, w)

/-- Whether there is a next entry; the entries are in the list that `opendir` returns. -/
def readdir (w : World) : Option Unit × World := k.call w (.ok ((), w))

def closedir (w : World) : Option Unit × World := k.call w (.ok ((), w))

end Kernel

/-- The result of a call as an `int`. -/
def status (r : Option Unit × World) : Int × World := (if r.1 = none then -1 else 0, r.2)

/-- `snprintf(dn, sizeof(dn), "%s/%s", path, de->d_name)` -/
def join (path name : Bytes) : Bytes := (path ++ 47 :: name).take (PATH_MAX - 1)

/-! ## `dirUnlinkHierarchy` -/

/-- The loop over the entries, and whether it fails. -/
def unlinkLoop (k : Kernel) (again : Bytes → World → Int × World) (path : Bytes) : List Bytes → World → Bool × World
  | [], w => (false, (k.readdir w).2)
  | name :: names, w =>
    match k.readdir w with
    | (none, w) => (false, w)
    | (some _, w) =>
      if name = [46, 46] ∨ name = [46] then unlinkLoop k again path names w
      else
        let (ret, w) := again (join path name) w
        if ret < 0 then (true, w) else unlinkLoop k again path names { w with errno := 0 }

def unlinkBody (k : Kernel) (fds : Nat) (again : Bytes → World → Int × World) (path : Bytes) (w : World) : Int × World :=
  match k.lstat path w with
  | (none, w) => (-1, w)
  | (some kind, w) =>
    if kind ≠ .dir then status (k.unlink path w)
    else match k.opendir fds path w with
      | (none, w) => (-1, w)
      | (some names, w) =>
        let (fail, w) := unlinkLoop k again path names { w with errno := 0 }
        if fail ∨ w.errno < 0 then (-1, w)
        else match k.closedir w with
          | (none, w) => (-1, w)
          | (some _, w) => status (k.rmdir path w)

/-- `dirUnlinkHierarchy` with `fds` descriptors left; without one, `opendir` fails. -/
def dirUnlinkHierarchy (k : Kernel) : Nat → Bytes → World → Int × World
  | 0 => unlinkBody k 0 fun _ w => (-1, w)
  | fds + 1 => unlinkBody k (fds + 1) (dirUnlinkHierarchy k fds)

variable {k : Kernel} {path name : Bytes} {w w' : World} {loc l : Loc} {t : Tree}

theorem resolve_eq_some {follow : Bool} : k.resolve t follow path = some l ↔
    path.length < PATH_MAX ∧ t.resolve k.links follow k.cwd path = some l := by
  rw [Kernel.resolve]
  split <;> simp [*]

/-- A path of an entry that fits is that of the entry, or of another entry whose name is cut; a path that does not fit can
also be that of the directory or its parent. -/
theorem resolve_join (h : k.resolve t false path = some loc) (hdir : t.kind loc = some .dir) (hname : Proper name)
    (hl : k.resolve t false (join path name) = some l) :
    (∃ n, l = n :: loc ∧ path.length + n.length + 1 < PATH_MAX) ∨
      (join path name).length = PATH_MAX - 1 ∧ PATH_MAX ≤ path.length + name.length + 1 ∧ (l = loc ∨ l = loc.tail) := by
  obtain ⟨hlen, hres⟩ := resolve_eq_some.mp h
  obtain ⟨-, hl⟩ := resolve_eq_some.mp hl
  have hchild : ∀ n, n ≠ [] → 47 ∉ n → t.resolve k.links false k.cwd (path ++ 47 :: n) = some l →
      l = n :: loc ∨ (n = [46] ∨ n = [46, 46]) ∧ (l = loc ∨ l = loc.tail) := by
    intro n hne hslash hn
    rw [Tree.resolve_join hres hdir hne hslash, Tree.child] at hn
    split at hn
    · next hdot => exact .inr ⟨.inl hdot, .inl (Option.some.inj hn).symm⟩
    · split at hn
      · next hdotdot => exact .inr ⟨.inr hdotdot, .inr (Option.some.inj hn).symm⟩
      · split at hn
        · cases hn
        · exact .inl (Option.some.inj hn).symm
  by_cases hfit : path.length + name.length + 1 < PATH_MAX
  · have hwhole : join path name = path ++ 47 :: name :=
      List.take_of_length_le (by rw [List.length_append, List.length_cons]; omega)
    rw [hwhole] at hl
    rcases hchild name hname.ne_nil hname.slash hl with rfl | ⟨hdot | hdot, -⟩
    · exact .inl ⟨name, rfl, hfit⟩
    · exact absurd hdot hname.dot
    · exact absurd hdot hname.dotdot
  · have hcut : (join path name).length = PATH_MAX - 1 := by
      rw [join, List.length_take, List.length_append, List.length_cons]
      omega
    rw [join, List.take_append] at hl
    obtain ⟨d, hd⟩ : ∃ d, PATH_MAX - 1 - path.length = d := ⟨_, rfl⟩
    rw [List.take_of_length_le (by omega), hd] at hl
    rcases d with _ | _ | d
    · rw [List.take_zero, List.append_nil] at hl
      exact .inr ⟨hcut, by omega, .inl (Option.some.inj (hl.symm.trans hres))⟩
    · have hslash : t.resolve k.links false k.cwd (path ++ [47]) = some loc := Tree.resolve_slash hres hdir
      exact .inr ⟨hcut, by omega, .inl (Option.some.inj (hl.symm.trans hslash))⟩
    · have hlen' : (name.take (d + 1)).length = d + 1 := List.length_take_of_le (by omega)
      have hne : name.take (d + 1) ≠ [] := fun hnil => by rw [hnil] at hlen'; cases hlen'
      rcases hchild _ hne (fun hmem => hname.slash (List.mem_of_mem_take hmem)) hl with rfl | ⟨-, hup⟩
      · exact .inl ⟨_, rfl, by omega⟩
      · exact .inr ⟨hcut, by omega, hup⟩

/-- No file is changed. -/
structure Same (w w' : World) : Prop where
  tree : w'.tree = w.tree
  attrs : w'.attrs = w.attrs

/-- Nothing is changed but that parts of the tree at `loc` are removed. -/
structure Removes (loc : Loc) (w w' : World) : Prop where
  attrs : w'.attrs = w.attrs
  left : w'.tree.Left w.tree
  outside : ∀ l, ¬ loc <:+ l → w'.tree.kind l = w.tree.kind l

theorem Same.trans {w'' : World} (h : Same w w') (h' : Same w' w'') : Same w w'' :=
  ⟨h'.tree.trans h.tree, h'.attrs.trans h.attrs⟩

theorem Same.removes (h : Same w w') : Removes loc w w' :=
  ⟨h.attrs, h.tree ▸ Tree.Left.refl _, fun l _ => by rw [h.tree]⟩

theorem Removes.trans {w'' : World} (h : Removes loc w w') (h' : Removes loc w' w'') : Removes loc w w'' :=
  ⟨h'.attrs.trans h.attrs, h'.left.trans h.left, fun l hl => (h'.outside l hl).trans (h.outside l hl)⟩

theorem Removes.up {n : Bytes} (h : Removes (n :: loc) w w') : Removes loc w w' :=
  ⟨h.attrs, h.left, fun l hl => h.outside l fun hn => hl ((List.suffix_cons n loc).trans hn)⟩

theorem call_none {α : Type} {r : Except Nat (α × World)} (h : k.call w r = (none, w')) : Same w w' := by
  unfold Kernel.call at h
  split at h
  · obtain rfl := (Prod.mk.inj h).2
    exact ⟨rfl, rfl⟩
  · split at h
    · obtain rfl := (Prod.mk.inj h).2
      exact ⟨rfl, rfl⟩
    · cases (Prod.mk.inj h).1

theorem call_some {α : Type} {r : Except Nat (α × World)} {a : α} (h : k.call w r = (some a, w')) :
    ∃ w₁, r = .ok (a, w₁) ∧ w' = { w₁ with calls := w.calls + 1 } := by
  unfold Kernel.call at h
  split at h
  · cases (Prod.mk.inj h).1
  · split at h
    · cases (Prod.mk.inj h).1
    · obtain ⟨ha, hw⟩ := Prod.mk.inj h
      exact ⟨_, by rw [Option.some.inj ha], hw.symm⟩

/-- A call that asks for nothing but an answer. -/
theorem call_same {α : Type} {r : Except Nat (α × World)} (hr : ∀ a w₁, r = .ok (a, w₁) → Same w w₁) :
    Same w (k.call w r).2 := by
  rcases hcall : k.call w r with ⟨_ | a, w'⟩
  · exact call_none hcall
  · obtain ⟨w₁, hr', rfl⟩ := call_some hcall
    exact ⟨(hr a w₁ hr').tree, (hr a w₁ hr').attrs⟩

/-- What is at `loc` is still there. In a directory whose path is as long as a path can be, no entry is removed. -/
structure Kept (path : Bytes) (loc : Loc) (w w' : World) : Prop where
  removes : Removes loc w w'
  there : w'.tree.kind loc ≠ none
  full : path.length = PATH_MAX - 1 → w.tree.names loc ≠ [] → Same w w'

/-- The tree at `loc` is gone. -/
structure Gone (path : Bytes) (loc : Loc) (w w' : World) : Prop where
  removes : Removes loc w w'
  gone : w'.tree.kind loc = none
  full : path.length = PATH_MAX - 1 → w.tree.names loc = []

/-- The function removes the tree at a path, or fails. -/
structure Unlinks (k : Kernel) (f : Bytes → World → Int × World) (path : Bytes) (w : World) : Prop where
  unresolved : k.resolve w.tree false path = none → (f path w).1 = -1 ∧ Same w (f path w).2
  resolved : ∀ loc, k.resolve w.tree false path = some loc →
    (f path w).1 = -1 ∧ Kept path loc w (f path w).2 ∨ (f path w).1 = 0 ∧ Gone path loc w (f path w).2

theorem Unlinks.removes {f : Bytes → World → Int × World} (h : Unlinks k f path w)
    (hres : k.resolve w.tree false path = some loc) : Removes loc w (f path w).2 :=
  (h.resolved loc hres).elim (fun h => h.2.removes) fun h => h.2.removes

theorem Unlinks.full {f : Bytes → World → Int × World} (h : Unlinks k f path w)
    (hres : k.resolve w.tree false path = some loc) (hlen : path.length = PATH_MAX - 1) (hne : w.tree.names loc ≠ []) :
    Same w (f path w).2 :=
  (h.resolved loc hres).elim (fun h => h.2.full hlen hne) fun h => absurd (h.2.full hlen) hne

/-- What the call for one entry of a directory does. -/
structure Visits (path : Bytes) (loc : Loc) (w w' : World) : Prop where
  removes : Removes loc w w'
  dir : w'.tree.kind loc = some .dir
  long : ∀ n, PATH_MAX ≤ path.length + n.length + 1 → n ∈ w.tree.names loc → n ∈ w'.tree.names loc
  full : path.length = PATH_MAX - 1 → Same w w'

theorem Visits.same (hdir : w.tree.kind loc = some .dir) (h : Same w w') : Visits path loc w w' where
  removes := h.removes
  dir := by rw [h.tree, hdir]
  long n _ hn := by rwa [h.tree]
  full _ := h

theorem Visits.trans {w'' : World} (h : Visits path loc w w') (h' : Visits path loc w' w'') : Visits path loc w w'' where
  removes := h.removes.trans h'.removes
  dir := h'.dir
  long n hlen hn := h'.long n hlen (h.long n hlen hn)
  full hlen := (h.full hlen).trans (h'.full hlen)

theorem visits_again {again : Bytes → World → Int × World} (hagain : ∀ path w, Unlinks k again path w)
    (hres : k.resolve t false path = some loc) (hleft : w.tree.Left t) (hdir : w.tree.kind loc = some .dir)
    (hname : Proper name) (hlong : PATH_MAX ≤ path.length + name.length + 1 → name ∈ w.tree.names loc) :
    Visits path loc w (again (join path name) w).2 := by
  have h := hagain (join path name) w
  cases hl : k.resolve w.tree false (join path name) with
  | none => exact .same hdir (h.unresolved hl).2
  | some l =>
    obtain ⟨hlen, hl'⟩ := resolve_eq_some.mp hl
    rcases resolve_join hres (hleft _ _ hdir) hname (resolve_eq_some.mpr ⟨hlen, hleft.resolve hl'⟩) with
      ⟨n, rfl, hfit⟩ | ⟨hcut, hover, hup⟩
    · have hremoves := h.removes hl
      have hkeep : ∀ l, ¬ n :: loc <:+ l → (again (join path name) w).2.tree.kind l = w.tree.kind l := hremoves.outside
      refine ⟨hremoves.up, ?_, fun m hm hmem => ?_, fun hfull => by omega⟩
      · rw [hkeep loc fun hsuffix => Nat.not_succ_le_self _ hsuffix.length_le, hdir]
      · have hne : ¬ n :: loc <:+ m :: loc := fun hsuffix => by
          have heq := List.IsSuffix.eq_of_length hsuffix (by simp)
          obtain ⟨rfl, -⟩ := List.cons.inj heq
          omega
        rw [Tree.mem_names, hkeep _ hne]
        exact Tree.mem_names.mp hmem
    · -- a directory that has an entry
      have hmem := hlong hover
      have hnames : w.tree.names l ≠ [] := by
        rcases hup with rfl | rfl
        · exact List.ne_nil_of_mem hmem
        · cases loc with
          | nil => exact List.ne_nil_of_mem hmem
          | cons n loc => exact List.ne_nil_of_mem (Tree.mem_names.mpr (by rw [hdir]; simp) : n ∈ w.tree.names loc)
      exact .same hdir (h.full hl hcut hnames)

theorem unlinkLoop_spec {again : Bytes → World → Int × World} (hagain : ∀ path w, Unlinks k again path w)
    (hres : k.resolve t false path = some loc) (hleft : w.tree.Left t) (hdir : w.tree.kind loc = some .dir)
    {names : List Bytes} (hnames : ∀ n ∈ names, n = [46] ∨ n = [46, 46] ∨ Proper n)
    (hlong : ∀ n ∈ names, Proper n → PATH_MAX ≤ path.length + n.length + 1 → n ∈ w.tree.names loc) :
    Visits path loc w (unlinkLoop k again path names w).2 := by
  induction names generalizing w with
  | nil =>
    exact .same hdir (call_same fun a w₁ h => by obtain ⟨-, rfl⟩ := Prod.mk.inj (Except.ok.inj h); exact ⟨rfl, rfl⟩)
  | cons name names ih =>
    have hread : Visits path loc w (k.readdir w).2 :=
      .same hdir (call_same fun a w₁ h => by obtain ⟨-, rfl⟩ := Prod.mk.inj (Except.ok.inj h); exact ⟨rfl, rfl⟩)
    have hrest : ∀ w₁, Visits path loc w w₁ → Visits path loc w (unlinkLoop k again path names w₁).2 := by
      intro w₁ h₁
      refine h₁.trans (ih (h₁.removes.left.trans hleft) h₁.dir (fun n hn => hnames n (List.mem_cons_of_mem _ hn)) ?_)
      exact fun n hn hproper hlen => h₁.long n hlen (hlong n (List.mem_cons_of_mem _ hn) hproper hlen)
    rw [unlinkLoop]
    rcases hr : k.readdir w with ⟨_ | _, w₁⟩
    · rw [hr] at hread
      exact hread
    · rw [hr] at hread
      dsimp only
      split
      · exact hrest w₁ hread
      · next hdots =>
        have hproper : Proper name := by
          rcases hnames name List.mem_cons_self with h | h | h
          · exact absurd (.inr h) hdots
          · exact absurd (.inl h) hdots
          · exact h
        have hvisit := hread.trans (visits_again hagain hres (hread.removes.left.trans hleft) hread.dir hproper
          fun hlen => hread.long name hlen (hlong name List.mem_cons_self hproper hlen))
        split
        · exact hvisit
        · exact hrest _ ⟨⟨hvisit.removes.attrs, hvisit.removes.left, hvisit.removes.outside⟩, hvisit.dir, hvisit.long,
            fun hfull => ⟨(hvisit.full hfull).tree, (hvisit.full hfull).attrs⟩⟩

/-- A file or a link is removed, or nothing is. -/
theorem unlink_spec (hres : k.resolve w.tree false path = some loc) :
    (k.unlink path w).1 = none ∧ Same w (k.unlink path w).2 ∨
      (k.unlink path w).1 ≠ none ∧ Removes loc w (k.unlink path w).2 ∧ (k.unlink path w).2.tree.kind loc = none ∧
        w.tree.names loc = [] := by
  rcases hcall : k.unlink path w with ⟨_ | a, w₂⟩
  · exact .inl ⟨rfl, call_none hcall⟩
  · obtain ⟨w₁, hr, rfl⟩ := call_some hcall
    rw [hres] at hr
    dsimp only at hr
    split at hr
    · cases hr
    · next hdir =>
      split at hr
      · cases hr
      · next t' ht =>
        obtain ⟨-, rfl⟩ := Prod.mk.inj (Except.ok.inj hr)
        obtain ⟨hnone, hsame⟩ := Tree.kind_remove ht
        refine .inr ⟨by simp, ⟨rfl, Tree.left_remove ht, fun l hl => hsame l ?_⟩, hnone, Tree.names_eq_nil hdir⟩
        rintro rfl
        exact hl List.suffix_rfl

/-- An empty directory is removed, or nothing is. -/
theorem rmdir_spec (hres : ∀ l, k.resolve w.tree false path = some l → l = loc) :
    (k.rmdir path w).1 = none ∧ Same w (k.rmdir path w).2 ∨
      (k.rmdir path w).1 ≠ none ∧ Removes loc w (k.rmdir path w).2 ∧ (k.rmdir path w).2.tree.kind loc = none ∧
        w.tree.names loc = [] := by
  rcases hcall : k.rmdir path w with ⟨_ | a, w₂⟩
  · exact .inl ⟨rfl, call_none hcall⟩
  · obtain ⟨w₁, hr, rfl⟩ := call_some hcall
    split at hr
    · cases hr
    · next hne =>
      split at hr
      · cases hr
      · next hlen =>
        split at hr
        · cases hr
        · split at hr
          · cases hr
          · split at hr
            · cases hr
            · next l hl =>
              split at hr
              · cases hr
              · next hdir =>
                split at hr
                · cases hr
                · next t' ht =>
                  obtain ⟨-, rfl⟩ := Prod.mk.inj (Except.ok.inj hr)
                  obtain rfl := hres l (resolve_eq_some.mpr
                    ⟨Nat.lt_of_not_le hlen, Tree.locate_dir hl (not_not.mp hdir) hne⟩)
                  obtain ⟨hnone, hsame⟩ := Tree.kind_remove ht
                  have hempty : w.tree.names l = [] := by
                    rw [Tree.remove] at ht
                    split at ht
                    · next h => exact h.2
                    · cases ht
                  refine .inr ⟨by simp, ⟨rfl, Tree.left_remove ht, fun l' hl' => hsame l' ?_⟩, hnone, hempty⟩
                  rintro rfl
                  exact hl' List.suffix_rfl

theorem lstat_some {kind : Kind} (h : k.lstat path w = (some kind, w')) :
    ∃ loc, k.resolve w.tree false path = some loc ∧ w.tree.kind loc = some kind ∧ Same w w' := by
  obtain ⟨w₁, hr, rfl⟩ := call_some h
  split at hr
  · cases hr
  · next kind' hkind =>
    obtain ⟨rfl, rfl⟩ := Prod.mk.inj (Except.ok.inj hr)
    obtain ⟨loc, hloc, hkind⟩ := Option.bind_eq_some_iff.mp hkind
    exact ⟨loc, hloc, hkind, ⟨rfl, rfl⟩⟩

theorem opendir_some {fds : Nat} {names : List Bytes} (h : k.opendir fds path w = (some names, w')) :
    ∃ loc, k.resolve w.tree true path = some loc ∧ w.tree.kind loc = some .dir ∧ 0 < fds ∧
      names = [46] :: [46, 46] :: w.tree.names loc ∧ Same w w' := by
  obtain ⟨w₁, hr, rfl⟩ := call_some h
  split at hr
  · cases hr
  · next loc hloc =>
    split at hr
    · cases hr
    · next hdir =>
      split at hr
      · cases hr
      · next hfds =>
        obtain ⟨rfl, rfl⟩ := Prod.mk.inj (Except.ok.inj hr)
        exact ⟨loc, hloc, not_not.mp hdir, Nat.pos_of_ne_zero hfds, rfl, ⟨rfl, rfl⟩⟩

theorem Kept.same (hres : k.resolve w.tree false path = some loc) (h : Same w w') : Kept path loc w w' where
  removes := h.removes
  there := h.tree ▸ Tree.resolve_kind (resolve_eq_some.mp hres).2
  full _ _ := h

/-- One more level of directories. -/
theorem unlinkBody_spec {again : Bytes → World → Int × World} (hagain : ∀ path w, Unlinks k again path w) (fds : Nat)
    (path : Bytes) (w : World) : Unlinks k (unlinkBody k fds again) path w := by
  have hfailed : ∀ w', Same w w' → ∀ loc, k.resolve w.tree false path = some loc → Kept path loc w w' :=
    fun w' h loc hres => .same hres h
  rcases hstat : k.lstat path w with ⟨_ | kind, w₁⟩
  · have hbody : unlinkBody k fds again path w = (-1, w₁) := by rw [unlinkBody, hstat]
    have hsame : Same w w₁ := call_none hstat
    exact ⟨fun _ => by rw [hbody]; exact ⟨rfl, hsame⟩, fun loc hres => .inl (by rw [hbody]; exact ⟨rfl, hfailed _ hsame loc hres⟩)⟩
  obtain ⟨loc, hres, hkind, hsame⟩ := lstat_some hstat
  refine ⟨fun hnone => (by rw [hres] at hnone; cases hnone), fun loc' hres' => ?_⟩
  obtain rfl : loc = loc' := Option.some.inj (hres.symm.trans hres')
  have hres₁ : k.resolve w₁.tree false path = some loc := by rw [hsame.tree, hres]
  rw [unlinkBody, hstat]
  dsimp only
  split
  · next hfile =>
    have hdir : w.tree.kind loc ≠ some .dir := by rw [hkind]; simpa using hfile
    rcases unlink_spec hres₁ with ⟨hnone, hsame'⟩ | ⟨hsome, hremoves, hgone, -⟩
    · exact .inl ⟨by rw [status, hnone]; rfl, .same hres (hsame.trans hsame')⟩
    · exact .inr ⟨by rw [status, if_neg hsome], hsame.removes.trans hremoves, hgone, fun _ => Tree.names_eq_nil hdir⟩
  · next hdir =>
    obtain rfl := not_not.mp hdir
    rcases hopen : k.opendir fds path w₁ with ⟨_ | names, w₂⟩
    · exact .inl ⟨rfl, .same hres (hsame.trans (call_none hopen))⟩
    obtain ⟨loc', htrue, -, -, rfl, hsame'⟩ := opendir_some hopen
    have hfollow := Tree.resolve_follow (resolve_eq_some.mp hres).2 fun target hlink => by rw [hkind] at hlink; cases hlink
    obtain rfl : loc = loc' := by
      have := (resolve_eq_some.mp htrue).2
      rw [hsame.tree] at this
      exact Option.some.inj (hfollow.symm.trans this)
    have hsame₂ := hsame.trans hsame'
    have hnames : ∀ n ∈ [46] :: [46, 46] :: w₁.tree.names loc, n = [46] ∨ n = [46, 46] ∨ Proper n := by
      intro n hn
      rcases List.mem_cons.mp hn with rfl | hn
      · exact .inl rfl
      · rcases List.mem_cons.mp hn with rfl | hn
        · exact .inr (.inl rfl)
        · exact .inr (.inr (Tree.proper_name (Tree.mem_names.mp hn)))
    have hmem : ∀ n ∈ [46] :: [46, 46] :: w₁.tree.names loc, Proper n → PATH_MAX ≤ path.length + n.length + 1 →
        n ∈ w₂.tree.names loc := by
      intro n hn hproper _
      rw [hsame'.tree]
      exact (List.mem_cons.mp ((List.mem_cons.mp hn).resolve_left hproper.dot)).resolve_left hproper.dotdot
    have hvisits := unlinkLoop_spec (w := { w₂ with errno := 0 }) hagain hres (by rw [hsame₂.tree]; exact Tree.Left.refl _)
      (by rw [hsame₂.tree]; exact hkind) hnames hmem
    have hkept : ∀ w₃, Visits path loc { w₂ with errno := 0 } w₃ → Kept path loc w w₃ := by
      intro w₃ h
      refine ⟨?_, by rw [h.dir]; simp, fun hlen _ => ?_⟩
      · exact hsame₂.removes.trans ⟨h.removes.attrs, h.removes.left, h.removes.outside⟩
      · exact hsame₂.trans ⟨(h.full hlen).tree, (h.full hlen).attrs⟩
    dsimp only
    rcases hloop : unlinkLoop k again path _ { w₂ with errno := 0 } with ⟨fail, w₃⟩
    rw [hloop] at hvisits
    dsimp only
    split
    · exact .inl ⟨rfl, hkept _ hvisits⟩
    · rcases hclose : k.closedir w₃ with ⟨_ | _, w₄⟩
      · exact .inl ⟨rfl, hkept _ (hvisits.trans (.same hvisits.dir (call_none hclose)))⟩
      · have hclosed : Same w₃ w₄ := by
          obtain ⟨w', hr, rfl⟩ := call_some hclose
          obtain ⟨-, rfl⟩ := Prod.mk.inj (Except.ok.inj hr)
          exact ⟨rfl, rfl⟩
        have hvisits' := hvisits.trans (.same hvisits.dir hclosed)
        have hkept' := hkept _ hvisits'
        have honly : ∀ l, k.resolve w₄.tree false path = some l → l = loc := by
          intro l hl
          obtain ⟨hlen, hl⟩ := resolve_eq_some.mp hl
          have := hkept'.removes.left.resolve hl
          exact Option.some.inj (this.symm.trans (resolve_eq_some.mp hres).2)
        dsimp only
        rcases rmdir_spec honly with ⟨hnone, hsame'⟩ | ⟨hsome, hremoves, hgone, hempty⟩
        · exact .inl ⟨by rw [status, hnone]; rfl, hkept _ (hvisits'.trans (.same hvisits'.dir hsame'))⟩
        · refine .inr ⟨by rw [status, if_neg hsome], hkept'.removes.trans hremoves, hgone, fun hlen => ?_⟩
          rw [(hvisits'.full hlen).tree] at hempty
          rwa [← hsame₂.tree]

/-- For every tree, path and failure of the calls: nothing outside of the tree is removed, and 0 is returned exactly if
the tree is gone. -/
theorem dirUnlinkHierarchy_spec (k : Kernel) (fds : Nat) (path : Bytes) (w : World) :
    Unlinks k (dirUnlinkHierarchy k fds) path w := by
  induction fds generalizing path w with
  | zero =>
    exact unlinkBody_spec (fun path w => ⟨fun _ => ⟨rfl, rfl, rfl⟩, fun loc hres => .inl ⟨rfl, .same hres ⟨rfl, rfl⟩⟩⟩) 0 path w
  | succ fds ih => exact unlinkBody_spec ih (fds + 1) path w

end Hierarchy
end Miui
