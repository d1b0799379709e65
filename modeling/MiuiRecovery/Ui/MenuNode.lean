import Mathlib.Data.List.Nodup
import Mathlib.Logic.Function.Basic
import Mathlib.Tactic.Common
import MiuiRecovery.Lib.Loop

/-!
# Menu trees

`menuNode_add` and `menuNode_delete` (`menu_node.c`) over an explicit heap. The children of a unit are the
list that starts at `child` and goes on along `nextSilbing`.

* `menuNodeClear_spec`: `_menuNode_clear` frees a forest, and nothing else.
* `menuNodeDelete_first`, `menuNodeDelete_absent`, `menuNodeDelete_later`: the first child is removed, a node
  that is no child changes nothing, and any later child makes `menuNode_delete` free the sibling before it
  and use it again.
* `deletes_iff`: the children that are removed as they should.
-/

namespace Miui

namespace Menu

/-! ## menu_node.c -/

abbrev Addr := Nat

/-- The pointers of a `menuUnit`. -/
structure MenuUnit where
  child : Option Addr
  nextSilbing : Option Addr
  parent : Option Addr

/-- The units that are allocated. -/
abbrev Heap := Addr → Option MenuUnit

inductive Fault
  /-- a pointer to no unit, or to one that was freed, is used -/
  | badPointer
  | outOfFuel

inductive Status
  | ok
  | fail
  deriving DecidableEq

/-- `*p` -/
def load (h : Heap) (p : Addr) : Except Fault MenuUnit :=
  match h p with
  | some u => .ok u
  | none => .error .badPointer

/-- `*p = u` -/
def store (h : Heap) (p : Addr) (u : MenuUnit) : Except Fault Heap := do
  let _ ← load h p
  return Function.update h p (some u)

def free (h : Heap) (p : Addr) : Except Fault Heap := do
  let _ ← load h p
  return Function.update h p none

/-- `_menuNode_clear` -/
def menuNodeClear : Nat → Heap → Option Addr → Except Fault Heap
  | _, h, none => .ok h
  | 0, _, some _ => .error .outOfFuel
  | fuel + 1, h, some p => do
    let h ← menuNodeClear fuel h (← load h p).child
    let h ← menuNodeClear fuel h (← load h p).nextSilbing
    free h p

/-- The loop of `menuNode_delete`. The `RET_OK;` at the end of the first branch is an expression: the loop
goes on with the same `pb` and `p`. -/
def deleteLoop : Nat → Heap → Addr → Addr → Option Addr → Except Fault (Heap × Status)
  | _, h, _, _, none => .ok (h, .fail)
  | 0, _, _, _, some _ => .error .outOfFuel
  | fuel + 1, h, child, pb, some p =>
    if p = child then do
      let h ← menuNodeClear fuel h (← load h pb).child
      let next := (← load h p).nextSilbing
      let h ← store h pb { (← load h pb) with nextSilbing := next }
      let h ← free h pb
      deleteLoop fuel h child pb (some p)
    else do
      deleteLoop fuel h child p (← load h p).nextSilbing

def menuNodeDelete (fuel : Nat) (h : Heap) (parent child : Option Addr) : Except Fault (Heap × Status) :=
  match parent, child with
  | some parent, some child => do
    match (← load h parent).child with
    | none => return (h, .fail)
    | some pb =>
      if pb = child then do
        let h ← menuNodeClear fuel h (← load h pb).child
        let next := (← load h pb).nextSilbing
        let h ← store h parent { (← load h parent) with child := next }
        let h ← free h pb
        return (h, .ok)
      else deleteLoop fuel h child pb (← load h pb).nextSilbing
  | _, _ => return (h, .fail)

def ITEM_COUNT : Nat := 256

/-- `_common_get_silbing_count` of a unit, plus one. -/
def silbingCount : Nat → Heap → Option Addr → Except Fault Nat
  | _, _, none => .ok 0
  | 0, _, some _ => .error .outOfFuel
  | fuel + 1, h, some p => do
    let n ← silbingCount fuel h (← load h p).nextSilbing
    return n + 1

/-- `common_get_child_count` -/
def commonGetChildCount (fuel : Nat) (h : Heap) (p : Addr) : Except Fault Nat := do
  silbingCount fuel h (← load h p).child

/-- The last unit of the list. -/
def lastSilbing : Nat → Heap → Addr → Except Fault Addr
  | 0, _, _ => .error .outOfFuel
  | fuel + 1, h, temp => do
    match (← load h temp).nextSilbing with
    | none => return temp
    | some next => lastSilbing fuel h next

def menuNodeAdd (fuel : Nat) (h : Heap) (parent child : Option Addr) : Except Fault (Heap × Status) :=
  match parent, child with
  | some parent, some child => do
    if (← commonGetChildCount fuel h parent) < ITEM_COUNT then do
      match (← load h parent).child with
      | none => do
        let h ← store h parent { (← load h parent) with child := some child }
        let h ← store h child { (← load h child) with parent := some parent }
        return (h, .ok)
      | some first => do
        let temp ← lastSilbing fuel h first
        let h ← store h temp { (← load h temp) with nextSilbing := some child }
        let h ← store h child { (← load h child) with parent := some parent }
        return (h, .ok)
    else return (h, .fail)
  | _, _ => return (h, .fail)

/-! ## Trees -/

/-- A unit with its children, and its later siblings. -/
inductive Forest
  | nil
  | cons (p : Addr) (children later : Forest)

namespace Forest

/-- The units of a forest. -/
def addrs : Forest → List Addr
  | nil => []
  | cons p children later => p :: (children.addrs ++ later.addrs)

/-- The units at its top. -/
def siblings : Forest → List Addr
  | nil => []
  | cons p _ later => p :: later.siblings

/-- The units of the subtree of a sibling. -/
def subtree (q : Addr) : Forest → List Addr
  | nil => []
  | cons p children later => if p = q then p :: children.addrs else later.subtree q

/-- The forest without the subtree of a sibling. -/
def remove (q : Addr) : Forest → Forest
  | nil => nil
  | cons p children later => if p = q then later else cons p children (later.remove q)

/-- One forest behind the other. -/
def append : Forest → Forest → Forest
  | nil, g => g
  | cons p children later, g => cons p children (later.append g)

def size : Forest → Nat
  | nil => 0
  | cons _ children later => children.size + later.size + 1

end Forest

/-- The pointer is the first of the forest in the heap. -/
def Links (h : Heap) : Option Addr → Forest → Prop
  | q, .nil => q = none
  | q, .cons p children later =>
    q = some p ∧ ∃ u, h p = some u ∧ Links h u.child children ∧ Links h u.nextSilbing later

/-- The heap without the units of a list. -/
def freeAll (h : Heap) (l : List Addr) : Heap := fun a => if a ∈ l then none else h a

variable {h h' : Heap} {p q : Addr} {u : MenuUnit} {f g : Forest} {fuel : Nat}

@[simp] theorem load_eq (hp : h p = some u) : load h p = .ok u := by rw [load, hp]

@[simp] theorem load_freed (hp : h p = none) : load h p = .error .badPointer := by rw [load, hp]

theorem store_eq {v : MenuUnit} (hp : h p = some u) : store h p v = .ok (Function.update h p (some v)) := by
  rw [store, load_eq hp]
  rfl

theorem free_eq (hp : h p = some u) : free h p = .ok (Function.update h p none) := by
  rw [free, load_eq hp]
  rfl

/-- A forest that is not touched stays linked. -/
theorem Links.congr {l : Option Addr} (hl : Links h l f) (heq : ∀ a ∈ f.addrs, h' a = h a) : Links h' l f := by
  induction f generalizing l with
  | nil => exact hl
  | cons p children later ihc ihl =>
    obtain ⟨rfl, u, hu, hc, hn⟩ := hl
    simp only [Forest.addrs, List.forall_mem_cons, List.forall_mem_append] at heq
    exact ⟨rfl, u, heq.1.trans hu, ihc hc heq.2.1, ihl hn heq.2.2⟩

theorem freeAll_freeAll (h : Heap) (l l' : List Addr) : freeAll (freeAll h l) l' = freeAll h (l ++ l') := by
  funext a
  by_cases hl : a ∈ l <;> by_cases hl' : a ∈ l' <;> simp [freeAll, hl, hl']

/-- `_menuNode_clear` frees a forest. -/
theorem menuNodeClear_spec {l : Option Addr} (hl : Links h l f) (hnodup : f.addrs.Nodup)
    (hfuel : f.size ≤ fuel) : menuNodeClear fuel h l = .ok (freeAll h f.addrs) := by
  induction f generalizing h l fuel with
  | nil =>
    obtain rfl : l = none := hl
    rw [menuNodeClear]
    exact congrArg Except.ok (funext fun a => by simp [freeAll, Forest.addrs])
  | cons p children later ihc ihl =>
    obtain ⟨rfl, u, hu, hc, hn⟩ := hl
    simp only [Forest.addrs, List.nodup_cons, List.nodup_append, List.mem_append, not_or] at hnodup
    obtain ⟨⟨hpc, hpn⟩, hndc, hndn, hdisj⟩ := hnodup
    simp only [Forest.size] at hfuel
    obtain ⟨fuel, rfl⟩ : ∃ k, fuel = k + 1 := ⟨fuel - 1, by omega⟩
    have hu' : freeAll h children.addrs p = some u := (if_neg hpc).trans hu
    have hn' : Links (freeAll h children.addrs) u.nextSilbing later :=
      hn.congr fun a ha => if_neg fun hac => hdisj a hac a ha rfl
    have hu'' : freeAll (freeAll h children.addrs) later.addrs p = some u := (if_neg hpn).trans hu'
    have hclear := ihc hc hndc (by omega : children.size ≤ fuel)
    have hclear' := ihl hn' hndn (by omega : later.size ≤ fuel)
    simp only [menuNodeClear, load_eq hu, bind, Except.bind, hclear, load_eq hu', hclear', free_eq hu'']
    congr 1
    funext a
    rw [freeAll_freeAll]
    by_cases hap : a = p
    · simp [hap, freeAll, Forest.addrs]
    · simp [freeAll, Forest.addrs, hap]

/-! ## menuNode_delete -/

/-- The children of `parent` in the heap. -/
structure Tree (h : Heap) (parent : Addr) (u : MenuUnit) (f : Forest) : Prop where
  unit : h parent = some u
  links : Links h u.child f
  nodup : (parent :: f.addrs).Nodup

/-- The subtree of `child` is freed, and the rest is linked as before. -/
structure Removed (h : Heap) (parent : Addr) (f : Forest) (child : Addr) (h' : Heap) : Prop where
  frees : ∀ a, h' a = none ↔ h a = none ∨ a ∈ f.subtree child
  links : ∃ u', h' parent = some u' ∧ Links h' u'.child (f.remove child)
  frame : ∀ a, a ∉ parent :: f.addrs → h' a = h a

/-- A child is deleted with its subtree; deleting another node fails and changes nothing. -/
def Deletes (h : Heap) (parent : Addr) (f : Forest) (child : Addr) : Prop :=
  if child ∈ f.siblings then
    ∃ n, ∀ fuel ≥ n, ∃ h', menuNodeDelete fuel h (some parent) (some child) = .ok (h', .ok) ∧
      Removed h parent f child h'
  else ∃ n, ∀ fuel ≥ n, menuNodeDelete fuel h (some parent) (some child) = .ok (h, .fail)

variable {parent child pb : Addr}

theorem siblings_subset (f : Forest) : f.siblings ⊆ f.addrs := by
  induction f with
  | nil => exact fun _ h => h
  | cons p children later _ ih =>
    intro a ha
    rcases List.mem_cons.mp ha with rfl | ha
    · exact List.mem_cons_self
    · exact List.mem_cons_of_mem _ (List.mem_append_right _ (ih ha))

/-- The first child is deleted. -/
theorem menuNodeDelete_first {children later : Forest} (ht : Tree h parent u (.cons p children later))
    (hfuel : children.size ≤ fuel) :
    ∃ h', menuNodeDelete fuel h (some parent) (some p) = .ok (h', .ok) ∧
      Removed h parent (.cons p children later) p h' := by
  obtain ⟨hp, v, hv, hc, hn⟩ := ht.links
  have hnodup := ht.nodup
  simp only [Forest.addrs, List.nodup_cons, List.nodup_append, List.mem_cons, List.mem_append, not_or] at hnodup
  obtain ⟨⟨hpp, hparc, hparn⟩, ⟨hpc, hpn⟩, hndc, hndn, hdisj⟩ := hnodup
  have hv' : freeAll h children.addrs p = some v := (if_neg hpc).trans hv
  have hu' : freeAll h children.addrs parent = some u := (if_neg hparc).trans ht.unit
  have hv'' : Function.update (freeAll h children.addrs) parent (some { u with child := v.nextSilbing }) p =
      some v := by
    rw [Function.update_of_ne (Ne.symm hpp), hv']
  refine ⟨Function.update (Function.update (freeAll h children.addrs) parent
      (some { u with child := v.nextSilbing })) p none, ?_,
    ⟨fun a => ?_, ⟨{ u with child := v.nextSilbing }, ?_, ?_⟩, fun a ha => ?_⟩⟩
  · simp only [menuNodeDelete, load_eq ht.unit, hp, load_eq hv, menuNodeClear_spec hc hndc hfuel, load_eq hv',
      load_eq hu', store_eq hu', free_eq hv'', bind, Except.bind, if_true]
    rfl
  · by_cases hap : a = p
    · simp [hap, Forest.subtree]
    · by_cases hapar : a = parent
      · subst hapar
        simp [Forest.subtree, hap, hparc, ht.unit]
      · simp only [Function.update_of_ne hap, Function.update_of_ne hapar, Forest.subtree, if_true,
          List.mem_cons, hap, false_or, freeAll]
        by_cases hac : a ∈ children.addrs <;> simp [hac]
  · rw [Function.update_of_ne hpp, Function.update_self]
  · rw [Forest.remove, if_pos rfl]
    refine hn.congr fun a ha => ?_
    have hap : a ≠ p := fun h => hpn (h ▸ ha)
    have hapar : a ≠ parent := fun h => hparn (h ▸ ha)
    rw [Function.update_of_ne hap, Function.update_of_ne hapar]
    exact if_neg fun hac => hdisj a hac a ha rfl
  · simp only [Forest.addrs, List.mem_cons, List.mem_append, not_or] at ha
    rw [Function.update_of_ne ha.2.1, Function.update_of_ne ha.1]
    exact if_neg ha.2.2.1

/-- A node that is no child is not found. -/
theorem deleteLoop_absent {l : Option Addr} (hl : Links h l f) (habsent : child ∉ f.siblings)
    (hfuel : f.size ≤ fuel) : deleteLoop fuel h child pb l = .ok (h, .fail) := by
  induction f generalizing l pb fuel with
  | nil =>
    obtain rfl : l = none := hl
    rw [deleteLoop]
  | cons p children later _ ih =>
    obtain ⟨rfl, u, hu, -, hn⟩ := hl
    simp only [Forest.siblings, List.mem_cons, not_or] at habsent
    simp only [Forest.size] at hfuel
    obtain ⟨fuel, rfl⟩ : ∃ k, fuel = k + 1 := ⟨fuel - 1, by omega⟩
    rw [deleteLoop, if_neg (Ne.symm habsent.1), load_eq hu]
    exact ih hn habsent.2 (by omega)

/-- Once its sibling is freed, the loop uses it again. -/
theorem deleteLoop_freed (hpb : h pb = none) (r : Heap × Status) :
    deleteLoop fuel h child pb (some child) ≠ .ok r := by
  intro hrun
  cases fuel with
  | zero => cases hrun
  | succ fuel =>
    rw [deleteLoop, if_pos rfl, load_freed hpb] at hrun
    cases hrun

theorem free_ok (hrun : free h p = .ok h') : h' p = none := by
  obtain ⟨_, -, hfree⟩ := Except.bind_eq_ok.mp hrun
  cases hfree
  exact Function.update_self ..

/-- The loop does not come back from a child that it finds. -/
theorem deleteLoop_found (r : Heap × Status) : deleteLoop fuel h child pb (some child) ≠ .ok r := by
  intro hrun
  cases fuel with
  | zero => cases hrun
  | succ fuel =>
    rw [deleteLoop, if_pos rfl] at hrun
    obtain ⟨_, -, hrun⟩ := Except.bind_eq_ok.mp hrun
    obtain ⟨_, -, hrun⟩ := Except.bind_eq_ok.mp hrun
    obtain ⟨_, -, hrun⟩ := Except.bind_eq_ok.mp hrun
    obtain ⟨_, -, hrun⟩ := Except.bind_eq_ok.mp hrun
    obtain ⟨_, -, hrun⟩ := Except.bind_eq_ok.mp hrun
    obtain ⟨_, hfree, hrun⟩ := Except.bind_eq_ok.mp hrun
    exact deleteLoop_freed (free_ok hfree) r hrun

/-- So it does not come back from any child behind the first. -/
theorem deleteLoop_later {l : Option Addr} (hl : Links h l f) (hchild : child ∈ f.siblings)
    (r : Heap × Status) : deleteLoop fuel h child pb l ≠ .ok r := by
  induction f generalizing l pb fuel with
  | nil => cases hchild
  | cons p children later _ ih =>
    obtain ⟨rfl, u, hu, -, hn⟩ := hl
    by_cases hp : p = child
    · subst hp
      exact deleteLoop_found r
    · cases fuel with
      | zero => exact fun hrun => by cases hrun
      | succ fuel =>
        rw [deleteLoop, if_neg hp, load_eq hu]
        exact ih hn ((List.mem_cons.mp hchild).resolve_left (Ne.symm hp))

/-- Deleting a node that is no child fails and changes nothing. -/
theorem menuNodeDelete_absent (ht : Tree h parent u f) (habsent : child ∉ f.siblings)
    (hfuel : f.size ≤ fuel) : menuNodeDelete fuel h (some parent) (some child) = .ok (h, .fail) := by
  have hl := ht.links
  cases f with
  | nil =>
    have hnone : u.child = none := hl
    simp only [menuNodeDelete, load_eq ht.unit, hnone, bind, Except.bind]
    rfl
  | cons p children later =>
    obtain ⟨hp, v, hv, -, hn⟩ := hl
    simp only [Forest.siblings, List.mem_cons, not_or] at habsent
    simp only [Forest.size] at hfuel
    simp only [menuNodeDelete, load_eq ht.unit, hp, load_eq hv, bind, Except.bind, if_neg (Ne.symm habsent.1)]
    exact deleteLoop_absent hn habsent.2 (by omega)

/-- A child behind the first one is not deleted: its sibling is freed and used again. -/
theorem menuNodeDelete_later {children later : Forest} (ht : Tree h parent u (.cons p children later))
    (hchild : child ∈ later.siblings) (r : Heap × Status) :
    menuNodeDelete fuel h (some parent) (some child) ≠ .ok r := by
  obtain ⟨hp, v, hv, -, hn⟩ := ht.links
  have hne : p ≠ child := by
    rintro rfl
    have hnodup := ht.nodup
    simp only [Forest.addrs, List.nodup_cons, List.mem_append, not_or] at hnodup
    exact hnodup.2.1.2 (siblings_subset later hchild)
  simp only [menuNodeDelete, load_eq ht.unit, hp, load_eq hv, bind, Except.bind, if_neg hne]
  exact deleteLoop_later hn hchild r

/-- A node is deleted as it should exactly where it is the first child, or none. -/
theorem deletes_iff_notLater (ht : Tree h parent u f) : Deletes h parent f child ↔ child ∉ f.siblings.tail := by
  unfold Deletes
  cases f with
  | nil =>
    refine iff_of_true ?_ (by simp [Forest.siblings])
    rw [if_neg (by simp [Forest.siblings])]
    exact ⟨0, fun fuel _ => menuNodeDelete_absent ht (by simp [Forest.siblings]) (Nat.zero_le _)⟩
  | cons p children later =>
    rw [Forest.siblings, List.tail_cons]
    by_cases hlater : child ∈ later.siblings
    · rw [if_pos (List.mem_cons_of_mem _ hlater)]
      refine iff_of_false ?_ (not_not.mpr hlater)
      rintro ⟨n, hall⟩
      obtain ⟨h', hrun, -⟩ := hall n (Nat.le_refl _)
      exact menuNodeDelete_later ht hlater _ hrun
    · refine iff_of_true ?_ hlater
      by_cases hfirst : child = p
      · subst hfirst
        rw [if_pos List.mem_cons_self]
        exact ⟨children.size, fun fuel hfuel => menuNodeDelete_first ht hfuel⟩
      · have habsent : child ∉ p :: later.siblings := by simp [hfirst, hlater]
        rw [if_neg habsent]
        exact ⟨_, fun fuel hfuel => menuNodeDelete_absent ht habsent hfuel⟩

/-! ## menuNode_add -/

/-- A unit outside the tree with its own children, and no sibling. -/
structure Fresh (h : Heap) (parent : Addr) (f : Forest) (child : Addr) (g : Forest) : Prop where
  unit : ∃ v, h child = some v ∧ v.nextSilbing = none ∧ Links h v.child g
  nodup : (parent :: (f.addrs ++ child :: g.addrs)).Nodup

/-- Adding the unit succeeds, and deleting it again leaves the tree that was there, without the unit. -/
def Restores (h : Heap) (parent : Addr) (f : Forest) (child : Addr) (g : Forest) : Prop :=
  ∃ n, ∀ fuel ≥ n, ∃ h₁ h₂, menuNodeAdd fuel h (some parent) (some child) = .ok (h₁, .ok) ∧
    menuNodeDelete fuel h₁ (some parent) (some child) = .ok (h₂, .ok) ∧
    (∃ u', h₂ parent = some u' ∧ Links h₂ u'.child f) ∧
    ∀ a, h₂ a = none ↔ h a = none ∨ a ∈ child :: g.addrs

theorem silbingCount_spec {l : Option Addr} (hl : Links h l f) (hfuel : f.size ≤ fuel) :
    silbingCount fuel h l = .ok f.siblings.length := by
  induction f generalizing l fuel with
  | nil =>
    obtain rfl : l = none := hl
    rw [silbingCount]
    rfl
  | cons p children later _ ih =>
    obtain ⟨rfl, u, hu, -, hn⟩ := hl
    simp only [Forest.size] at hfuel
    obtain ⟨fuel, rfl⟩ : ∃ k, fuel = k + 1 := ⟨fuel - 1, by omega⟩
    simp only [silbingCount, load_eq hu, bind, Except.bind, ih hn (by omega : later.size ≤ fuel)]
    rfl

/-- The loop of `menuNode_add` ends at the last sibling; a unit that is put behind it is behind the whole
forest. -/
theorem lastSilbing_spec {first : Addr} (hl : Links h (some first) f) (hnodup : f.addrs.Nodup)
    (hfuel : f.size ≤ fuel) :
    ∃ temp v, lastSilbing fuel h first = .ok temp ∧ temp ∈ f.addrs ∧ h temp = some v ∧
      ∀ h' next g, h' temp = some { v with nextSilbing := next } → (∀ a ∈ f.addrs, a ≠ temp → h' a = h a) →
        Links h' next g → Links h' (some first) (f.append g) := by
  induction f generalizing first fuel with
  | nil => cases hl
  | cons p children later _ ih =>
    obtain ⟨hp, u, hu, hc, hn⟩ := hl
    obtain rfl : first = p := Option.some.inj hp
    simp only [Forest.size] at hfuel
    obtain ⟨fuel, rfl⟩ : ∃ k, fuel = k + 1 := ⟨fuel - 1, by omega⟩
    simp only [Forest.addrs, List.nodup_cons, List.nodup_append, List.mem_append, not_or] at hnodup
    obtain ⟨⟨hpc, hpn⟩, -, hndn, hdisj⟩ := hnodup
    cases later with
    | nil =>
      have hnone : u.nextSilbing = none := hn
      refine ⟨first, u, ?_, by simp [Forest.addrs], hu, fun h' next g hset hsame hg => ?_⟩
      · simp only [lastSilbing, load_eq hu, bind, Except.bind, hnone]
        rfl
      · refine ⟨rfl, _, hset, hc.congr fun a ha => hsame a ?_ fun h => hpc (h ▸ ha), hg⟩
        simp [Forest.addrs, ha]
    | cons q children' later' =>
      have hnext : u.nextSilbing = some q := hn.1
      rw [hnext] at hn
      have hsize : (Forest.cons q children' later').size ≤ fuel := by omega
      obtain ⟨temp, v, hrun, hmem, htemp, hput⟩ := ih hn hndn hsize
      refine ⟨temp, v, ?_, ?_, htemp, fun h' next g hset hsame hg => ?_⟩
      · simp only [lastSilbing, load_eq hu, bind, Except.bind, hnext, hrun]
      · exact List.mem_cons_of_mem _ (List.mem_append_right _ hmem)
      · have hne : first ≠ temp := fun h => hpn (h ▸ hmem)
        refine ⟨rfl, u, (hsame first (by simp [Forest.addrs]) hne).trans hu, ?_, ?_⟩
        · refine hc.congr fun a ha => hsame a (by simp [Forest.addrs, ha]) ?_
          exact fun h => hdisj a ha temp hmem h
        · rw [hnext]
          exact hput h' next g hset (fun a ha => hsame a (List.mem_cons_of_mem _ (List.mem_append_right _ ha))) hg

theorem addrs_append (f g : Forest) : (f.append g).addrs = f.addrs ++ g.addrs := by
  induction f with
  | nil => rfl
  | cons p children later _ ih => simp [Forest.append, Forest.addrs, ih]

theorem siblings_append (f g : Forest) : (f.append g).siblings = f.siblings ++ g.siblings := by
  induction f with
  | nil => rfl
  | cons p children later _ ih => simp [Forest.append, Forest.siblings, ih]

/-- A unit is added behind all children. -/
theorem menuNodeAdd_spec (ht : Tree h parent u f) {v : MenuUnit} (hv : h child = some v)
    (hnext : v.nextSilbing = none) (hg : Links h v.child g)
    (hnodup : (parent :: (f.addrs ++ child :: g.addrs)).Nodup)
    (hcount : f.siblings.length < ITEM_COUNT) (hfuel : f.size ≤ fuel) :
    ∃ h' u', menuNodeAdd fuel h (some parent) (some child) = .ok (h', .ok) ∧
      Tree h' parent u' (f.append (.cons child g .nil)) ∧ ∀ a, h' a = none ↔ h a = none := by
  have hnodup' : (parent :: (f.append (.cons child g .nil)).addrs).Nodup := by
    simpa [addrs_append, Forest.addrs] using hnodup
  simp only [List.nodup_cons, List.nodup_append, List.mem_append, List.mem_cons, not_or] at hnodup
  obtain ⟨⟨hparf, hparc, hparg⟩, hndf, ⟨hcg, -⟩, hdisj⟩ := hnodup
  have hsib := silbingCount_spec ht.links hfuel
  have hput (h₁ : Heap) (hchild : h₁ child = some v) (hsame : ∀ a ∈ g.addrs, h₁ a = h a) :
      Links (Function.update h₁ child (some { v with parent := some parent })) (some child)
        (.cons child g .nil) := by
    refine ⟨rfl, _, Function.update_self .., hg.congr fun a ha => ?_, hnext⟩
    rw [Function.update_of_ne fun heq : a = child => hcg (heq ▸ ha), hsame a ha]
  have hkept (h₁ : Heap) (hsame : ∀ a, h₁ a = none ↔ h a = none) (a : Addr) :
      Function.update h₁ child (some { v with parent := some parent }) a = none ↔ h a = none := by
    by_cases hac : a = child
    · simp [hac, hv]
    · rw [Function.update_of_ne hac, hsame]
  cases f with
  | nil =>
    have hnone : u.child = none := ht.links
    rw [hnone] at hsib
    have hv' : Function.update h parent (some { u with child := some child }) child = some v := by
      rw [Function.update_of_ne (Ne.symm hparc), hv]
    refine ⟨_, { u with child := some child }, ?_, ⟨?_, hput _ hv' fun a ha => ?_, hnodup'⟩,
      hkept _ fun a => ?_⟩
    · simp only [menuNodeAdd, commonGetChildCount, load_eq ht.unit, hsib, bind, Except.bind, if_pos hcount,
        hnone, store_eq ht.unit, load_eq hv', store_eq hv']
      rfl
    · rw [Function.update_of_ne hparc, Function.update_self]
    · exact Function.update_of_ne (fun heq : a = parent => hparg (heq ▸ ha)) ..
    · by_cases hap : a = parent
      · simp [hap, ht.unit]
      · rw [Function.update_of_ne hap]
  | cons p children later =>
    have hp : u.child = some p := ht.links.1
    have hl := ht.links
    rw [hp] at hl hsib
    obtain ⟨temp, w, hrun, hmem, hw, hlast⟩ := lastSilbing_spec hl hndf hfuel
    have htc : child ≠ temp := fun h => hdisj temp hmem child (.inl rfl) h.symm
    have htp : parent ≠ temp := fun h => hparf (h ▸ hmem)
    have hv' : Function.update h temp (some { w with nextSilbing := some child }) child = some v := by
      rw [Function.update_of_ne htc, hv]
    refine ⟨_, u, ?_, ⟨?_, ?_, hnodup'⟩,
      hkept (Function.update h temp (some { w with nextSilbing := some child })) fun a => ?_⟩
    · simp only [menuNodeAdd, commonGetChildCount, load_eq ht.unit, hsib, bind, Except.bind, if_pos hcount,
        hp, hrun, load_eq hw, store_eq hw, load_eq hv', store_eq hv']
      rfl
    · rw [Function.update_of_ne hparc, Function.update_of_ne htp, ht.unit]
    · rw [hp]
      refine hlast _ (some child) _ ?_ (fun a ha hat => ?_) (hput _ hv' fun a ha => ?_)
      · rw [Function.update_of_ne (Ne.symm htc), Function.update_self]
      · rw [Function.update_of_ne fun heq : a = child => hdisj a ha child (.inl rfl) heq,
          Function.update_of_ne hat]
      · exact Function.update_of_ne (fun heq : a = temp => hdisj temp hmem a (.inr ha) heq.symm) ..
    · by_cases hat : a = temp
      · simp [hat, hw]
      · rw [Function.update_of_ne hat]

/-- A unit that was added is deleted again exactly where it is the only child. -/
theorem restores_iff (ht : Tree h parent u f) (hf : Fresh h parent f child g)
    (hcount : f.siblings.length < ITEM_COUNT) : Restores h parent f child g ↔ f = .nil := by
  obtain ⟨⟨v, hv, hnext, hg⟩, hnodup⟩ := hf
  constructor
  · rintro ⟨n, hall⟩
    obtain ⟨h₁, h₂, hadd, hdel, -⟩ := hall (max n f.size) (Nat.le_max_left ..)
    obtain ⟨h', u', hadd', ht', -⟩ :=
      menuNodeAdd_spec ht hv hnext hg hnodup hcount (Nat.le_max_right n f.size)
    rw [hadd'] at hadd
    cases hadd
    cases f with
    | nil => rfl
    | cons p children later =>
      refine absurd hdel (menuNodeDelete_later ht' ?_ _)
      simp [siblings_append, Forest.siblings]
  · rintro rfl
    refine ⟨g.size, fun fuel hfuel => ?_⟩
    obtain ⟨h', u', hadd, ht', hkept⟩ :=
      menuNodeAdd_spec ht hv hnext hg hnodup hcount (Nat.zero_le fuel)
    obtain ⟨h₂, hdel, hremoved⟩ := menuNodeDelete_first ht' hfuel
    refine ⟨h', h₂, hadd, hdel, ?_, fun a => ?_⟩
    · simpa [Forest.remove] using hremoved.links
    · rw [hremoved.frees, hkept]
      simp [Forest.subtree]

/-- `menuNode_delete` removes exactly one subtree, and undoes `menuNode_add`, exactly for the first child. -/
theorem deletes_iff (ht : Tree h parent u f) :
    (∀ child, Deletes h parent f child ↔ child ∉ f.siblings.tail) ∧
      ∀ child g, Fresh h parent f child g → f.siblings.length < ITEM_COUNT →
        (Restores h parent f child g ↔ f.siblings = []) := by
  refine ⟨fun child => deletes_iff_notLater ht, fun child g hf hcount => (restores_iff ht hf hcount).trans ?_⟩
  cases f <;> simp [Forest.siblings]

/-- A unit at 0 with two children. -/
def twoChildren : Heap := fun a =>
  if a = 0 then some ⟨some 1, none, none⟩
  else if a = 1 then some ⟨none, some 2, some 0⟩
  else if a = 2 then some ⟨none, none, some 0⟩
  else none

theorem twoChildren_tree :
    Tree twoChildren 0 ⟨some 1, none, none⟩ (.cons 1 .nil (.cons 2 .nil .nil)) :=
  ⟨rfl, ⟨rfl, _, rfl, rfl, rfl, _, rfl, rfl, rfl⟩, by decide⟩

/-- The first of them is deleted. -/
theorem twoChildren_first : Deletes twoChildren 0 (.cons 1 .nil (.cons 2 .nil .nil)) 1 :=
  ((deletes_iff twoChildren_tree).1 1).mpr (by decide)

/-- The second is not. -/
theorem twoChildren_second : ¬ Deletes twoChildren 0 (.cons 1 .nil (.cons 2 .nil .nil)) 2 := by
  unfold Deletes
  rw [if_pos (by decide)]
  rintro ⟨n, hall⟩
  obtain ⟨h', hrun, -⟩ := hall n (Nat.le_refl _)
  exact menuNodeDelete_later twoChildren_tree (by decide) _ hrun

end Menu

end Miui
