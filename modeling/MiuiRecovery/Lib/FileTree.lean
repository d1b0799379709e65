import MiuiRecovery.Lib.CString
import Mathlib.Data.List.AList

/-!
# A tree of files, and the paths in it

Files, directories and symbolic links by their place in the tree. A path is resolved name by name from a
directory; links on the way are followed, up to a number of links one in the other.

* `Tree.Left`: what is left of a tree when parts of it are removed.
* `Tree.Left.resolve`: what a path names in what is left, it named before.
* `resolve_join`: a name behind a path is looked up in the directory that the path names.
-/

namespace FileTree

/-- The names from the root, the last one first. -/
abbrev Loc := List Bytes

inductive Kind
  | file
  | symlink (target : Bytes)
  | dir
deriving DecidableEq

/-- A name that a directory can have an entry for. -/
structure Proper (name : Bytes) : Prop where
  ne_nil : name ≠ []
  slash : 47 ∉ name
  dot : name ≠ [46]
  dotdot : name ≠ [46, 46]

/-- A tree of files: what has a name is in a directory. -/
structure Tree where
  kinds : AList fun _ : Loc => Kind
  root : kinds.lookup [] = some .dir
  closed : ∀ name loc, name :: loc ∈ kinds → kinds.lookup loc = some .dir
  proper : ∀ name loc, name :: loc ∈ kinds → Proper name

namespace Tree

variable {t t' : Tree} {loc l : Loc} {name path : Bytes}

def kind (t : Tree) (loc : Loc) : Option Kind := t.kinds.lookup loc

/-- The entries of a directory, in their order. -/
def names (t : Tree) (loc : Loc) : List Bytes :=
  t.kinds.keys.filterMap fun
    | [] => none
    | name :: l => if l = loc then some name else none

theorem mem_names : name ∈ t.names loc ↔ t.kind (name :: loc) ≠ none := by
  have hmem : t.kind (name :: loc) ≠ none ↔ name :: loc ∈ t.kinds := by
    rw [kind, ne_eq, AList.lookup_eq_none, not_not]
  rw [hmem, names, List.mem_filterMap]
  constructor
  · rintro ⟨a, ha, h⟩
    cases a with
    | nil => cases h
    | cons n l =>
      simp only [Option.ite_none_right_eq_some, Option.some.injEq] at h
      obtain ⟨rfl, rfl⟩ := h
      exact ha
  · exact fun h => ⟨name :: loc, h, if_pos rfl⟩

theorem mem_kinds (h : t.kind loc ≠ none) : loc ∈ t.kinds := by
  by_contra hnot
  exact h (AList.lookup_eq_none.mpr hnot)

theorem parent (h : t.kind (name :: loc) ≠ none) : t.kind loc = some .dir := t.closed name loc (mem_kinds h)

theorem proper_name (h : t.kind (name :: loc) ≠ none) : Proper name := t.proper name loc (mem_kinds h)

/-- What is not a directory has no entries. -/
theorem names_eq_nil (h : t.kind loc ≠ some .dir) : t.names loc = [] := by
  rw [List.eq_nil_iff_forall_not_mem]
  exact fun name hname => h (parent (mem_names.mp hname))

/-- The tree without a file, a link or an empty directory. -/
def remove (t : Tree) (loc : Loc) : Option Tree :=
  if h : loc ≠ [] ∧ t.names loc = [] then
    some
      { kinds := t.kinds.erase loc
        root := by rw [AList.lookup_erase_ne h.1.symm, t.root]
        closed := fun name l hl => by
          obtain ⟨hne, hmem⟩ := AList.mem_erase.mp hl
          have hdir := t.closed name l hmem
          have hl : l ≠ loc := by
            rintro rfl
            have hin : name ∈ t.names l := mem_names.mpr fun hnone => AList.lookup_eq_none.mp hnone hmem
            rw [h.2] at hin
            cases hin
          rw [AList.lookup_erase_ne hl, hdir]
        proper := fun name l hl => t.proper name l (AList.mem_erase.mp hl).2 }
  else none

/-- What is left of a tree without what is at `loc`. -/
theorem kind_remove (h : t.remove loc = some t') :
    t'.kind loc = none ∧ ∀ l, l ≠ loc → t'.kind l = t.kind l := by
  rw [remove] at h
  split at h
  · obtain rfl := Option.some.inj h
    exact ⟨AList.lookup_erase loc _, fun l hl => AList.lookup_erase_ne hl⟩
  · cases h

/-- `t'` is what is left of `t`. -/
def Left (t' t : Tree) : Prop := ∀ l k, t'.kind l = some k → t.kind l = some k

theorem Left.refl (t : Tree) : Left t t := fun _ _ h => h

theorem Left.trans {t'' : Tree} (h : Left t'' t') (h' : Left t' t) : Left t'' t := fun l k hk => h' l k (h l k hk)

theorem left_remove (h : t.remove loc = some t') : Left t' t := by
  obtain ⟨hnone, hsame⟩ := kind_remove h
  intro l k hk
  by_cases hl : l = loc
  · rw [hl, hnone] at hk
    cases hk
  · rwa [← hsame l hl]

/-! ## Paths -/

/-- The place of `name` in the directory at `loc`; `again` resolves the target of a link. -/
def enter (t : Tree) (again : Loc → Bytes → Option Loc) (follow : Bool) (loc : Loc) (name : Bytes) : Option Loc :=
  if t.kind loc ≠ some .dir then none
  else if name = [46] then some loc
  else if name = [46, 46] then some loc.tail
  else match t.kind (name :: loc) with
    | none => none
    | some (.symlink target) => if follow then again loc target else some (name :: loc)
    | some _ => some (name :: loc)

/-- Name by name from `loc`; a link at the end is followed if `follow` says so. -/
def walk (t : Tree) (again : Loc → Bytes → Option Loc) (follow : Bool) : Loc → List Bytes → Option Loc
  | loc, [] => some loc
  | loc, [name] => enter t again follow loc name
  | loc, name :: name' :: names => (enter t again true loc name).bind fun loc => walk t again follow loc (name' :: names)

def components (path : Bytes) : List Bytes := CString.tokens (· == 47) path

/-- Where a path starts in a process whose working directory is `cwd`. -/
def start (cwd : Loc) (path : Bytes) : Loc := if path.head? = some 47 then [] else cwd

/-- The place that a path names. A slash at its end asks for a directory. -/
def resolveWith (t : Tree) (again : Loc → Bytes → Option Loc) (follow : Bool) (cwd : Loc) (path : Bytes) : Option Loc :=
  if path = [] then none
  else
    (walk t again (follow || path.getLast? = some 47) (start cwd path) (components path)).filter fun loc =>
      path.getLast? = some 47 → t.kind loc = some .dir

/-- The same where `links` links can be followed one in the other. -/
def resolve (t : Tree) : Nat → Bool → Loc → Bytes → Option Loc
  | 0, follow, cwd, path => resolveWith t (fun _ _ => none) follow cwd path
  | links + 1, follow, cwd, path => resolveWith t (resolve t links true) follow cwd path

/-- The place of the directory entry that a path names: a link at its end is not followed, whether or not there is a
slash behind it. -/
def locate (t : Tree) : Nat → Loc → Bytes → Option Loc
  | 0, cwd, path => walk t (fun _ _ => none) false (start cwd path) (components path)
  | links + 1, cwd, path => walk t (resolve t links true) false (start cwd path) (components path)

variable {again again' : Loc → Bytes → Option Loc} {follow : Bool} {links : Nat} {cwd : Loc}

/-- Links are followed by a resolution of their targets, up to the limit. -/
theorem resolve_eq (t : Tree) (links : Nat) : ∃ again,
    (∀ follow cwd path, t.resolve links follow cwd path = resolveWith t again follow cwd path) ∧
    (∀ cwd path, t.locate links cwd path = walk t again false (start cwd path) (components path)) ∧
    ∀ loc target l, again loc target = some l → ∃ links', t.resolve links' true loc target = some l := by
  cases links with
  | zero => exact ⟨_, fun _ _ _ => rfl, fun _ _ => rfl, fun _ _ _ h => (nomatch h)⟩
  | succ links => exact ⟨_, fun _ _ _ => rfl, fun _ _ => rfl, fun _ _ _ h => ⟨links, h⟩⟩

theorem resolveWith_iff : resolveWith t again follow cwd path = some l ↔
    path ≠ [] ∧ walk t again (follow || path.getLast? = some 47) (start cwd path) (components path) = some l ∧
      (path.getLast? = some 47 → t.kind l = some .dir) := by
  rw [resolveWith]
  split
  · simp [*]
  · rw [Option.filter_eq_some_iff, decide_eq_true_iff]
    simp [*]

theorem walk_append (name : Bytes) (names : List Bytes) (loc : Loc) :
    walk t again follow loc (names ++ [name]) = (walk t again true loc names).bind (enter t again follow · name) := by
  induction names generalizing loc with
  | nil => rfl
  | cons n names ih =>
    cases names with
    | nil => rfl
    | cons n' names =>
      rw [List.cons_append, List.cons_append, walk, walk, Option.bind_assoc, ← List.cons_append]
      simp only [ih]

/-! ## What a path names -/

/-- What there can be at a name in a directory. -/
inductive Enters (t : Tree) (again : Loc → Bytes → Option Loc) (follow : Bool) (loc : Loc) (name : Bytes) : Loc → Prop
  | dot (hdot : name = [46]) : Enters t again follow loc name loc
  | dotdot (hdot : name ≠ [46]) (hdotdot : name = [46, 46]) : Enters t again follow loc name loc.tail
  | link {target : Bytes} {l : Loc} (hdot : name ≠ [46]) (hdotdot : name ≠ [46, 46])
      (hkind : t.kind (name :: loc) = some (.symlink target)) (hfollow : follow = true)
      (hagain : again loc target = some l) : Enters t again follow loc name l
  | entry {k : Kind} (hdot : name ≠ [46]) (hdotdot : name ≠ [46, 46]) (hkind : t.kind (name :: loc) = some k)
      (hlink : follow = true → ∀ target, k ≠ .symlink target) : Enters t again follow loc name (name :: loc)

theorem enter_iff : enter t again follow loc name = some l ↔
    t.kind loc = some .dir ∧ Enters t again follow loc name l := by
  rw [enter]
  constructor
  · intro h
    split at h
    · cases h
    · next hdir =>
      refine ⟨not_not.mp hdir, ?_⟩
      split at h
      · next hdot => exact Option.some.inj h ▸ .dot hdot
      · next hdot =>
        split at h
        · next hdotdot => exact Option.some.inj h ▸ .dotdot hdot hdotdot
        · next hdotdot =>
          cases hk : t.kind (name :: loc) with
          | none =>
            rw [hk] at h
            cases h
          | some k =>
            rw [hk] at h
            cases k with
            | symlink target =>
              cases follow with
              | true => exact .link hdot hdotdot hk rfl h
              | false => exact Option.some.inj h ▸ .entry hdot hdotdot hk nofun
            | file => exact Option.some.inj h ▸ .entry hdot hdotdot hk fun _ _ => nofun
            | dir => exact Option.some.inj h ▸ .entry hdot hdotdot hk fun _ _ => nofun
  · rintro ⟨hdir, h⟩
    rw [if_neg (not_not.mpr hdir)]
    cases h with
    | dot hdot => rw [if_pos hdot]
    | dotdot hdot hdotdot => rw [if_neg hdot, if_pos hdotdot]
    | link hdot hdotdot hk hfollow hagain =>
      rw [if_neg hdot, if_neg hdotdot, hk, hfollow]
      exact hagain
    | @entry k hdot hdotdot hk hlink =>
      rw [if_neg hdot, if_neg hdotdot, hk]
      cases k with
      | symlink target =>
        cases follow with
        | true => exact absurd rfl (hlink rfl target)
        | false => rfl
      | file => rfl
      | dir => rfl

theorem enter_kind (hagain : ∀ loc target l, again loc target = some l → t.kind l ≠ none)
    (h : enter t again follow loc name = some l) : t.kind l ≠ none := by
  obtain ⟨hdir, h⟩ := enter_iff.mp h
  have hloc : t.kind loc ≠ none := by rw [hdir]; simp
  cases h with
  | dot => exact hloc
  | dotdot =>
    cases loc with
    | nil => exact hloc
    | cons n loc => rw [List.tail_cons, parent hloc]; simp
  | link _ _ _ _ h => exact hagain _ _ _ h
  | entry _ _ hkind => rw [hkind]; simp

theorem walk_kind (hagain : ∀ loc target l, again loc target = some l → t.kind l ≠ none) {names : List Bytes}
    (hne : names ≠ [] ∨ t.kind loc ≠ none) (h : walk t again follow loc names = some l) : t.kind l ≠ none := by
  rcases List.eq_nil_or_concat names with rfl | ⟨names, name, rfl⟩
  · obtain rfl := Option.some.inj h
    exact hne.resolve_left fun h => h rfl
  · rw [List.concat_eq_append, walk_append] at h
    obtain ⟨l', -, hl⟩ := Option.bind_eq_some_iff.mp h
    exact enter_kind hagain hl

/-- A path names something that is there. -/
theorem resolve_kind (h : t.resolve links follow cwd path = some l) : t.kind l ≠ none := by
  have hwith : ∀ again follow cwd path l, (∀ loc target l, again loc target = some l → t.kind l ≠ none) →
      resolveWith t again follow cwd path = some l → t.kind l ≠ none := by
    intro again follow cwd path l hagain h
    obtain ⟨hne, hwalk, -⟩ := resolveWith_iff.mp h
    refine walk_kind hagain ?_ hwalk
    by_cases hnil : components path = []
    · obtain ⟨c, rest, rfl⟩ := List.exists_cons_of_ne_nil hne
      have hc : c = 47 := by simpa using CString.tokens_eq_nil hnil c List.mem_cons_self
      have hroot : t.kind [] ≠ none := by rw [kind, t.root]; simp
      exact .inr (by rwa [start, hc, List.head?_cons, if_pos rfl])
    · exact .inl hnil
  induction links generalizing follow cwd path l with
  | zero => exact hwith _ _ _ _ _ (fun _ _ _ h => absurd h (by simp)) h
  | succ links ih => exact hwith _ _ _ _ _ (fun _ _ _ h => ih h) h

/-! ## What is left of a tree -/

theorem Left.enter (hleft : Left t' t) (hagain : ∀ loc target l, again' loc target = some l → again loc target = some l)
    (h : Tree.enter t' again' follow loc name = some l) : Tree.enter t again follow loc name = some l := by
  obtain ⟨hdir, h⟩ := enter_iff.mp h
  refine enter_iff.mpr ⟨hleft _ _ hdir, ?_⟩
  cases h with
  | dot hdot => exact .dot hdot
  | dotdot hdot hdotdot => exact .dotdot hdot hdotdot
  | link hdot hdotdot hk hfollow h => exact .link hdot hdotdot (hleft _ _ hk) hfollow (hagain _ _ _ h)
  | entry hdot hdotdot hk hlink => exact .entry hdot hdotdot (hleft _ _ hk) hlink

theorem Left.walk (hleft : Left t' t) (hagain : ∀ loc target l, again' loc target = some l → again loc target = some l)
    {names : List Bytes} (h : Tree.walk t' again' follow loc names = some l) :
    Tree.walk t again follow loc names = some l := by
  induction names generalizing loc with
  | nil => exact h
  | cons name names ih =>
    cases names with
    | nil => exact hleft.enter hagain h
    | cons name' names =>
      rw [Tree.walk] at h ⊢
      obtain ⟨l', hl', hrest⟩ := Option.bind_eq_some_iff.mp h
      exact Option.bind_eq_some_iff.mpr ⟨l', hleft.enter hagain hl', ih hrest⟩

/-- What a path names in what is left of a tree, it named in the tree. -/
theorem Left.resolve (hleft : Left t' t) (h : t'.resolve links follow cwd path = some l) :
    t.resolve links follow cwd path = some l := by
  have hwith : ∀ again again' follow cwd path l, (∀ loc target l, again' loc target = some l → again loc target = some l) →
      resolveWith t' again' follow cwd path = some l → resolveWith t again follow cwd path = some l := by
    intro again again' follow cwd path l hagain h
    obtain ⟨hne, hwalk, hslash⟩ := resolveWith_iff.mp h
    exact resolveWith_iff.mpr ⟨hne, hleft.walk hagain hwalk, fun h => hleft _ _ (hslash h)⟩
  induction links generalizing follow cwd path l with
  | zero => exact hwith _ _ _ _ _ _ (fun _ _ _ h => h) h
  | succ links ih => exact hwith _ _ _ _ _ _ (fun _ _ _ h => ih h) h

/-! ## Names behind a path -/

/-- Where there is no link at the end of a path, it need not be followed. -/
theorem walk_follow {names : List Bytes} (h : walk t again false loc names = some l)
    (hlink : ∀ target, t.kind l ≠ some (.symlink target)) : walk t again true loc names = some l := by
  rcases List.eq_nil_or_concat names with rfl | ⟨names, name, rfl⟩
  · exact h
  · rw [List.concat_eq_append, walk_append] at h ⊢
    obtain ⟨l', hl', hname⟩ := Option.bind_eq_some_iff.mp h
    refine Option.bind_eq_some_iff.mpr ⟨l', hl', ?_⟩
    obtain ⟨hdir, hname⟩ := enter_iff.mp hname
    refine enter_iff.mpr ⟨hdir, ?_⟩
    cases hname with
    | dot hdot => exact .dot hdot
    | dotdot hdot hdotdot => exact .dotdot hdot hdotdot
    | link _ _ _ hfollow => cases hfollow
    | entry hdot hdotdot hk =>
      exact .entry hdot hdotdot hk fun _ target htarget => hlink target (by rw [hk, htarget])

theorem resolve_follow (h : t.resolve links false cwd path = some l)
    (hlink : ∀ target, t.kind l ≠ some (.symlink target)) : t.resolve links true cwd path = some l := by
  obtain ⟨again, heq, -⟩ := resolve_eq t links
  rw [heq, resolveWith_iff] at h ⊢
  obtain ⟨hne, hwalk, hslash⟩ := h
  refine ⟨hne, ?_, hslash⟩
  rw [Bool.true_or]
  cases hlast : decide (path.getLast? = some 47) with
  | true => rwa [hlast] at hwalk
  | false => exact walk_follow (by rwa [hlast] at hwalk) hlink

/-- A directory that is an entry is what its path names. -/
theorem locate_dir (h : t.locate links cwd path = some l) (hdir : t.kind l = some .dir) (hne : path ≠ []) :
    t.resolve links false cwd path = some l := by
  obtain ⟨again, heq, hlocate, -⟩ := resolve_eq t links
  rw [hlocate] at h
  rw [heq, resolveWith_iff]
  refine ⟨hne, ?_, fun _ => hdir⟩
  cases hlast : decide (path.getLast? = some 47) with
  | false => exact h
  | true => exact walk_follow h fun target hlink => by rw [hdir] at hlink; cases hlink

/-- A name in a directory, where links at the end of a path are not followed. -/
def child (t : Tree) (loc : Loc) (name : Bytes) : Option Loc :=
  if name = [46] then some loc
  else if name = [46, 46] then some loc.tail
  else if t.kind (name :: loc) = none then none
  else some (name :: loc)

theorem enter_child (hdir : t.kind loc = some .dir) : enter t again false loc name = t.child loc name := by
  rw [enter, if_neg (not_not.mpr hdir), child]
  split
  · rfl
  · split
    · rfl
    · cases hk : t.kind (name :: loc) with
      | none => simp
      | some k => cases k <;> simp

/-- The directory that a path names, without a slash behind it. -/
theorem walk_dir (h : t.resolve links false cwd path = some loc) (hdir : t.kind loc = some .dir) :
    ∃ again, (∀ follow cwd path, t.resolve links follow cwd path = resolveWith t again follow cwd path) ∧ path ≠ [] ∧
      walk t again true (start cwd path) (components path) = some loc := by
  have hfollow := resolve_follow h fun target hlink => by rw [hdir] at hlink; cases hlink
  obtain ⟨again, heq, -⟩ := resolve_eq t links
  rw [heq, resolveWith_iff, Bool.true_or] at hfollow
  exact ⟨again, heq, hfollow.1, hfollow.2.1⟩

theorem start_append (hne : path ≠ []) (rest : Bytes) : start cwd (path ++ rest) = start cwd path := by
  obtain ⟨c, p, rfl⟩ := List.exists_cons_of_ne_nil hne
  rfl

/-- A name behind the path of a directory is looked up in the directory. -/
theorem resolve_join (h : t.resolve links false cwd path = some loc) (hdir : t.kind loc = some .dir)
    (hne : name ≠ []) (hslash : 47 ∉ name) :
    t.resolve links false cwd (path ++ 47 :: name) = t.child loc name := by
  obtain ⟨again, heq, hpath, hwalk⟩ := walk_dir h hdir
  have hcomponents : components (path ++ 47 :: name) = components path ++ [name] := by
    have hall : ∀ c ∈ name, (c == 47) = false := fun c hc => beq_false_of_ne (ne_of_mem_of_not_mem hc hslash)
    have hname : CString.tokens (· == 47) name = [name] := by
      have htokens : CString.tokens (· == 47) (name ++ []) = name :: CString.tokens (· == 47) [] :=
        CString.tokens_cons hne hall (by simp)
      rwa [List.append_nil, CString.tokens_nil] at htokens
    rw [components, CString.tokens_append_sep (by rfl), hname]
    rfl
  have hlast : (path ++ 47 :: name).getLast? ≠ some 47 := by
    intro hlast
    rw [List.getLast?_append_of_ne_nil _ (List.cons_ne_nil _ _), List.getLast?_cons_of_ne_nil hne] at hlast
    exact hslash (List.mem_of_getLast? hlast)
  ext l
  rw [heq, resolveWith_iff, start_append hpath, hcomponents, decide_eq_false hlast, Bool.or_false, walk_append, hwalk,
    Option.bind_some, enter_child hdir]
  exact ⟨fun h => h.2.1, fun h => ⟨by simp, h, fun hslash => absurd hslash hlast⟩⟩

/-- A slash behind the path of a directory. -/
theorem resolve_slash (h : t.resolve links false cwd path = some loc) (hdir : t.kind loc = some .dir) :
    t.resolve links false cwd (path ++ [47]) = some loc := by
  obtain ⟨again, heq, hpath, hwalk⟩ := walk_dir h hdir
  have hcomponents : components (path ++ [47]) = components path := by
    rw [components, CString.tokens_append_sep (by rfl), CString.tokens_nil, List.append_nil, components]
  have hlast : (path ++ [47]).getLast? = some 47 := by simp
  rw [heq, resolveWith_iff, start_append hpath, hcomponents, decide_eq_true hlast, Bool.or_true, hwalk]
  exact ⟨by simp, rfl, fun _ => hdir⟩

end Tree
end FileTree
