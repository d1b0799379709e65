import Mathlib.Order.Interval.Finset.Nat
import MiuiRecovery.Updater.Install

/-!
# Arguments that evaluate to `NULL`

A function of a script is run with arguments that each evaluate to a string, to a blob or to `NULL`. The
log says what it does: the arguments it evaluates and frees, its calls, and a dereference of `NULL`.

* `Propagates`: what `edify/expr.c` demands of every function where an argument is `NULL`.
* `Ledger`: which of the evaluated arguments are not yet freed.
* `propagates_withArgs`: a function that reads all of its arguments first does what is demanded.
* `registeredFunctions_null`: exactly when each of the registered functions does.
-/

namespace Miui
namespace Updater

open Prog (call wp)
open Edify

/-! ## The log -/

inductive Event
  | evaluated (i : Nat)
  | null (i : Nat)
  | freed (i : Nat)
  | called (c : Call)
  | crashed
deriving DecidableEq

/-- What the arguments evaluate to. -/
abbrev Outcomes := List (Option Edify.Value)

/-- The runs of a body on arguments with these outcomes. `Evaluate` frees a value that is no string, and
returns `NULL` for it. A call may be answered in any way, and so may a read beyond `argv`. -/
def argSem (args : Outcomes) : Prog.Sem EdifyOp (List Event)
  | _, .evaluate i, log, r, log' =>
    match args[i]? with
    | none => log' = log ++ [.crashed]
    | some none => r = none ∧ log' = log ++ [.null i]
    | some (some (.string data)) => r = some data ∧ log' = log ++ [.evaluated i]
    | some (some (.blob _ _)) => r = none ∧ log' = log ++ [.evaluated i, .freed i, .null i]
  | _, .evaluateValue i, log, r, log' =>
    match args[i]? with
    | none => log' = log ++ [.crashed]
    | some none => r = none ∧ log' = log ++ [.null i]
    | some (some v) => r = some v ∧ log' = log ++ [.evaluated i]
  | _, .free i, log, _, log' => log' = log ++ [.freed i]
  | _, .source _, log, _, log' => log' = log
  | _, .setErrmsg _, log, _, log' => log' = log
  | _, .call c, log, _, log' => log' = log ++ [.called c]
  | _, .crash, log, _, log' => log' = log ++ [.crashed]

/-- Nothing was called, no `NULL` was dereferenced, and every evaluated argument was freed once. -/
structure NullHandled (r : Option Edify.Value) (log : List Event) : Prop where
  result : r = none
  effect : ∀ c, Event.called c ∉ log
  deref : Event.crashed ∉ log
  freed : ∀ i, Event.evaluated i ∈ log → log.count (.freed i) = 1

/-- No argument evaluated to `NULL`. -/
def Fresh (log : List Event) : Prop := ∀ i, Event.null i ∉ log

/-- The function returns `NULL` without an effect, if one of the arguments it evaluates is `NULL`. -/
def Done (r : Option Edify.Value) (log : List Event) : Prop := ¬ Fresh log → NullHandled r log

/-- In every run, the body does what is demanded. A run always ends: the loop of `deleteFn` that only the
overflow of its counter ends is one that crashes. -/
def Propagates (body : Body) (args : Outcomes) : Prop :=
  ∀ r log, Prog.Returns (argSem args) body [] r log → Done r log

variable {args : Outcomes} {α β : Type} {log : List Event}

/-- What a body does in every run. -/
abbrev Runs (args : Outcomes) (Q : α → List Event → Prop) (p : Prog EdifyOp α) (log : List Event) : Prop :=
  wp (argSem args) (fun _ => True) Q p log

theorem propagates_of_runs {body : Body} (h : Runs args Done body []) : Propagates body args :=
  fun _ _ hrun => Prog.wp_returns h hrun

/-- Every body has a run. -/
theorem exists_run (args : Outcomes) (body : Body) : ∃ r log, Prog.Returns (argSem args) body [] r log := by
  refine Prog.exists_returns (fun o log => ?_) body []
  cases o with
  | evaluate i =>
    simp only [argSem]
    split
    · exact ⟨none, _, rfl⟩
    · exact ⟨none, _, rfl, rfl⟩
    · exact ⟨_, _, rfl, rfl⟩
    · exact ⟨none, _, rfl, rfl⟩
  | evaluateValue i =>
    simp only [argSem]
    split
    · exact ⟨none, _, rfl⟩
    · exact ⟨none, _, rfl, rfl⟩
    · exact ⟨_, _, rfl, rfl⟩
  | free i => exact ⟨(), _, rfl⟩
  | source i => exact ⟨[], _, rfl⟩
  | setErrmsg msg => exact ⟨(), _, rfl⟩
  | call c => exact ⟨⟨0, []⟩, _, rfl⟩
  | crash => exact ⟨(), _, rfl⟩

theorem not_propagates_of_runs {body : Body} (h : Runs args (fun r log => ¬ Done r log) body []) :
    ¬ Propagates body args := by
  intro hprop
  obtain ⟨r, log, hrun⟩ := exists_run args body
  exact Prog.wp_returns h hrun (hprop r log hrun)

theorem Fresh.nil : Fresh [] := fun _ => List.not_mem_nil

theorem Fresh.done {r : Option Edify.Value} (h : Fresh log) : Done r log := fun hnot => absurd h hnot

theorem Fresh.append {new : List Event} (h : Fresh log) (hnew : Fresh new) : Fresh (log ++ new) := by
  intro i hi
  rcases List.mem_append.mp hi with hi | hi
  · exact h i hi
  · exact hnew i hi

/-! ## Bodies behind the evaluation -/

/-- The operation evaluates one of the first `n` arguments. -/
def evaluates (n : Nat) : EdifyOp β → Bool
  | .evaluate i => i < n
  | .evaluateValue i => i < n
  | _ => false

/-- The program evaluates none of the first `n` arguments. -/
def NoEval (n : Nat) : Prog EdifyOp α → Prop
  | .ret _ => True
  | .op o k => evaluates n o = false ∧ ∀ r, NoEval n (k r)

variable {n : Nat}

@[simp] theorem evaluates_free (i : Nat) : evaluates n (.free i) = false := rfl

@[simp] theorem evaluates_setErrmsg (msg : Bytes) : evaluates n (.setErrmsg msg) = false := rfl

@[simp] theorem noEval_ret (a : α) : NoEval n (Prog.ret a) := trivial

@[simp] theorem noEval_pure (a : α) : NoEval n (pure a : Prog EdifyOp α) := trivial

@[simp] theorem noEval_op {o : EdifyOp β} {k : β → Prog EdifyOp α} :
    NoEval n (Prog.op o k) ↔ evaluates n o = false ∧ ∀ r, NoEval n (k r) := Iff.rfl

theorem noEval_bind {p : Prog EdifyOp β} {f : β → Prog EdifyOp α} (hp : NoEval n p)
    (hf : ∀ a, NoEval n (f a)) : NoEval n (p >>= f) := by
  induction p with
  | ret a => exact hf a
  | op o k ih => exact ⟨hp.1, fun r => ih r (hp.2 r)⟩

@[simp] theorem noEval_ite {c : Prop} [Decidable c] {p q : Prog EdifyOp α} :
    NoEval n (if c then p else q) ↔ (c → NoEval n p) ∧ (¬ c → NoEval n q) := by
  split <;> simp [*]

@[simp] theorem noEval_null : NoEval n null := trivial

@[simp] theorem noEval_stringValue (str : Bytes) : NoEval n (stringValue str) := trivial

@[simp] theorem noEval_errorAbort (msg : Bytes) : NoEval n (errorAbort msg) := ⟨rfl, fun _ => trivial⟩

@[simp] theorem noEval_failWith (msg : Bytes) : NoEval n (failWith msg) := ⟨rfl, fun _ => trivial⟩

@[simp] theorem noEval_sys_bind {fn : String} {as : List Bytes} {nums : List Int}
    {k : Reply → Prog EdifyOp α} : NoEval n (sys fn as nums >>= k) ↔ ∀ r, NoEval n (k r) := by
  simp [sys, evaluates]

@[simp] theorem noEval_free_bind {i : Nat} {k : Unit → Prog EdifyOp α} :
    NoEval n (call (.free i) >>= k) ↔ NoEval n (k ()) :=
  ⟨fun h => h.2 (), fun h => ⟨rfl, fun _ => h⟩⟩

theorem noEval_freeArgs (base m : Nat) : NoEval n (freeArgs base m) := by
  induction m with
  | zero => trivial
  | succ m ih => exact noEval_bind ih fun _ => ⟨rfl, fun _ => trivial⟩

theorem noEval_freeList (is : List Nat) : NoEval n (freeList is) := by
  induction is with
  | nil => trivial
  | cons i is ih => exact ⟨rfl, fun _ => ih⟩

@[simp] theorem noEval_freeArgs_bind {base m : Nat} {k : Unit → Prog EdifyOp α} (hk : NoEval n (k ())) :
    NoEval n (freeArgs base m >>= k) := noEval_bind (noEval_freeArgs base m) fun _ => hk

@[simp] theorem noEval_freeList_bind {is : List Nat} {k : Unit → Prog EdifyOp α} (hk : NoEval n (k ())) :
    NoEval n (freeList is >>= k) := noEval_bind (noEval_freeList is) fun _ => hk

@[simp] theorem noEval_failAfter (frees : List Nat) (msg : Bytes) : NoEval n (failAfter frees msg) :=
  ⟨rfl, fun _ => noEval_freeList_bind (k := fun _ => null) trivial⟩

@[simp] theorem noEval_giveAfter (frees : List Nat) (result : Bytes) : NoEval n (giveAfter frees result) :=
  noEval_freeList_bind trivial

@[simp] theorem noEval_cantBeEmpty (frees : List Nat) (what : String) (name : Bytes) :
    NoEval n (cantBeEmpty frees what name) := noEval_failAfter _ _

@[simp] theorem noEval_expects (name : Bytes) (what : String) (argc : Nat) :
    NoEval n (expects name what argc) := noEval_errorAbort _

/-- A step that evaluates nothing leaves no `NULL` in the log. -/
theorem fresh_step {o : EdifyOp β} {r : β} {log' : List Event} (ho : evaluates args.length o = false)
    (hlog : Fresh log) (hstep : argSem args β o log r log') : Fresh log' := by
  cases o with
  | evaluate i =>
    have hi : args[i]? = none := List.getElem?_eq_none (by simpa [evaluates] using ho)
    simp only [argSem, hi] at hstep
    exact hstep ▸ hlog.append fun j hj => by simp at hj
  | evaluateValue i =>
    have hi : args[i]? = none := List.getElem?_eq_none (by simpa [evaluates] using ho)
    simp only [argSem, hi] at hstep
    exact hstep ▸ hlog.append fun j hj => by simp at hj
  | free i =>
    cases hstep
    exact hlog.append fun j hj => by simp at hj
  | source i =>
    cases hstep
    exact hlog
  | setErrmsg msg =>
    cases hstep
    exact hlog
  | call c =>
    cases hstep
    exact hlog.append fun j hj => by simp at hj
  | crash =>
    cases hstep
    exact hlog.append fun j hj => by simp at hj

/-- A program that evaluates no argument, though it may read beyond them, keeps the log free of `NULL`. -/
theorem NoEval.fresh {p : Prog EdifyOp α} (h : NoEval args.length p) (hlog : Fresh log) :
    Runs args (fun _ log' => Fresh log') p log := by
  induction p generalizing log with
  | ret a => exact ⟨trivial, hlog⟩
  | op o k ih => exact ⟨trivial, fun r log' hstep => ih r (h.2 r) (fresh_step h.1 hlog hstep)⟩

/-- A step only adds to the log. -/
theorem argSem_prefix {o : EdifyOp β} {r : β} {log' : List Event} (hstep : argSem args β o log r log') :
    log <+: log' := by
  cases o with
  | evaluate i =>
    simp only [argSem] at hstep
    split at hstep
    · exact hstep ▸ List.prefix_append _ _
    all_goals exact hstep.2 ▸ List.prefix_append _ _
  | evaluateValue i =>
    simp only [argSem] at hstep
    split at hstep
    · exact hstep ▸ List.prefix_append _ _
    all_goals exact hstep.2 ▸ List.prefix_append _ _
  | source i => exact hstep ▸ List.prefix_rfl
  | setErrmsg msg => exact hstep ▸ List.prefix_rfl
  | free i => exact hstep ▸ List.prefix_append _ _
  | call c => exact hstep ▸ List.prefix_append _ _
  | crash => exact hstep ▸ List.prefix_append _ _

theorem NoEval.done {body : Body} (h : NoEval args.length body) (hlog : Fresh log) : Runs args Done body log :=
  Prog.wp_mono (fun _ h => h) (fun _ _ _ hfresh => hfresh.done) (h.fresh hlog)

/-! ## The ledger -/

/-- The arguments `seen` have been evaluated, and `pending` of them are not yet freed. -/
structure Ledger (seen pending : Finset Nat) (log : List Event) : Prop where
  calls : ∀ c, Event.called c ∉ log
  alive : Event.crashed ∉ log
  seen_iff : ∀ i, Event.evaluated i ∈ log ↔ i ∈ seen
  freed_seen : ∀ i, Event.freed i ∈ log → i ∈ seen
  count : ∀ i ∈ seen, log.count (.freed i) = if i ∈ pending then 0 else 1
  sub : pending ⊆ seen

variable {seen pending : Finset Nat} {i : Nat}

theorem Ledger.nil : Ledger ∅ ∅ [] := by
  constructor <;> simp

theorem Ledger.handled (h : Ledger seen ∅ log) : NullHandled none log where
  result := rfl
  effect := h.calls
  deref := h.alive
  freed i hi := by
    rw [h.count i ((h.seen_iff i).mp hi)]
    simp

theorem Ledger.done (h : Ledger seen ∅ log) : Done none log := fun _ => h.handled

theorem Ledger.evaluated (h : Ledger seen pending log) (hi : i ∉ seen) :
    Ledger (insert i seen) (insert i pending) (log ++ [.evaluated i]) where
  calls c := by simp [h.calls c]
  alive := by simp [h.alive]
  seen_iff j := by
    rw [List.mem_append, h.seen_iff, List.mem_singleton, Finset.mem_insert, Event.evaluated.injEq]
    exact or_comm
  freed_seen j hj := by
    have hmem : Event.freed j ∈ log := by simpa using hj
    exact Finset.mem_insert_of_mem (h.freed_seen j hmem)
  count j hj := by
    rw [List.count_append, List.count_singleton]
    rcases Finset.mem_insert.mp hj with rfl | hj
    · have hnone : log.count (.freed j) = 0 := List.count_eq_zero.mpr fun hmem => hi (h.freed_seen j hmem)
      simp [hnone]
    · have hne : j ≠ i := fun heq => hi (heq ▸ hj)
      rw [h.count j hj]
      simp [hne]
  sub := Finset.insert_subset_insert i h.sub

theorem Ledger.freed (h : Ledger seen pending log) (hi : i ∈ pending) :
    Ledger seen (pending.erase i) (log ++ [.freed i]) where
  calls c := by simp [h.calls c]
  alive := by simp [h.alive]
  seen_iff j := by simp [h.seen_iff j]
  freed_seen j hj := by
    rcases List.mem_append.mp hj with hj | hj
    · exact h.freed_seen j hj
    · simp only [List.mem_singleton, Event.freed.injEq] at hj
      exact hj ▸ h.sub hi
  count j hj := by
    rw [List.count_append, List.count_singleton, h.count j hj]
    by_cases hij : i = j
    · subst hij
      simp [hi]
    · have hne : j ≠ i := fun heq => hij heq.symm
      simp [hij, hne]
  sub := (Finset.erase_subset i pending).trans h.sub

theorem Ledger.null (h : Ledger seen pending log) : Ledger seen pending (log ++ [.null i]) where
  calls c := by simp [h.calls c]
  alive := by simp [h.alive]
  seen_iff j := by simp [h.seen_iff j]
  freed_seen j hj := by
    have hmem : Event.freed j ∈ log := by simpa using hj
    exact h.freed_seen j hmem
  count j hj := by
    rw [List.count_append, List.count_singleton, h.count j hj]
    simp
  sub := h.sub

/-- A value that is no string is freed by `Evaluate` itself. -/
theorem Ledger.rejected (h : Ledger seen pending log) (hi : i ∉ seen) :
    Ledger (insert i seen) pending (log ++ [.evaluated i, .freed i, .null i]) := by
  have hfreed := ((h.evaluated hi).freed (Finset.mem_insert_self i pending)).null (i := i)
  have hpending : i ∉ pending := fun hmem => hi (h.sub hmem)
  rw [Finset.erase_insert hpending] at hfreed
  simpa using hfreed

/-! ## Evaluating and freeing -/

/-- The value of an argument where a string is expected. -/
def asStringArg : Option Edify.Value → Option Bytes
  | some (.string data) => some data
  | _ => none

/-- The operation `ev` evaluates an argument to what `get` makes of its outcome. -/
structure Reads (ev : Nat → EdifyOp (Option β)) (get : Option Edify.Value → Option β) : Prop where
  evaluates_eq : ∀ n i, evaluates n (ev i) = decide (i < n)
  outside : ∀ (args : Outcomes) (i : Nat) (log log' : List Event) (r : Option β),
    args[i]? = none → argSem args _ (ev i) log r log' → log' = log ++ [.crashed]
  inside : ∀ (args : Outcomes) (i : Nat) (out : Option Edify.Value) (log log' : List Event) (r : Option β),
    args[i]? = some out → argSem args _ (ev i) log r log' → r = get out ∧
      (log' = log ++ [.evaluated i] ∧ r ≠ none ∨ log' = log ++ [.null i] ∧ r = none ∨
        log' = log ++ [.evaluated i, .freed i, .null i] ∧ r = none)

theorem reads_evaluate : Reads .evaluate asStringArg where
  evaluates_eq _ _ := rfl
  outside args i log log' r hout hstep := by
    simp only [argSem, hout] at hstep
    exact hstep
  inside args i out log log' r hout hstep := by
    rcases out with _ | ⟨data⟩ | ⟨size, data⟩
    · simp only [argSem, hout] at hstep
      exact ⟨hstep.1, .inr (.inl ⟨hstep.2, hstep.1⟩)⟩
    · simp only [argSem, hout] at hstep
      exact ⟨hstep.1, .inl ⟨hstep.2, by simp [hstep.1]⟩⟩
    · simp only [argSem, hout] at hstep
      exact ⟨hstep.1, .inr (.inr ⟨hstep.2, hstep.1⟩)⟩

theorem reads_evaluateValue : Reads .evaluateValue id where
  evaluates_eq _ _ := rfl
  outside args i log log' r hout hstep := by
    simp only [argSem, hout] at hstep
    exact hstep
  inside args i out log log' r hout hstep := by
    rcases out with _ | v
    · simp only [argSem, hout] at hstep
      exact ⟨hstep.1, .inr (.inl ⟨hstep.2, hstep.1⟩)⟩
    · simp only [argSem, hout] at hstep
      exact ⟨hstep.1, .inl ⟨hstep.2, by simp [hstep.1]⟩⟩

section

variable {ev : Nat → EdifyOp (Option β)} {get : Option Edify.Value → Option β} {Q : α → List Event → Prop}

/-- An evaluation with a ledger: the value is pending, or it was `NULL`. -/
theorem runs_read (hev : Reads ev get) (h : Ledger seen pending log) (hfresh : Fresh log) (hi : i ∉ seen)
    {k : Option β → Prog EdifyOp α}
    (hout : args.length ≤ i → ∀ r log', Fresh log' → Runs args Q (k r) log')
    (hnone : ∀ seen' log', Ledger seen' pending log' → Runs args Q (k none) log')
    (hsome : ∀ a log', Ledger (insert i seen) (insert i pending) log' → Fresh log' →
      Runs args Q (k (some a)) log') : Runs args Q (.op (ev i) k) log := by
  refine ⟨trivial, fun r log' hstep => ?_⟩
  rcases hget : args[i]? with _ | out
  · have hcrash := hev.outside args i log log' r hget hstep
    exact hout (List.getElem?_eq_none_iff.mp hget) r log'
      (hcrash ▸ hfresh.append fun j hj => by simp at hj)
  · obtain ⟨-, ⟨rfl, hne⟩ | ⟨rfl, rfl⟩ | ⟨rfl, rfl⟩⟩ := hev.inside args i out log log' r hget hstep
    · obtain ⟨a, rfl⟩ := Option.ne_none_iff_exists'.mp hne
      exact hsome a _ (h.evaluated hi) (hfresh.append fun j hj => by simp at hj)
    · exact hnone seen _ h.null
    · exact hnone _ _ (h.rejected hi)

theorem runs_free (h : Ledger seen pending log) (hi : i ∈ pending) {k : Unit → Prog EdifyOp α}
    (hk : ∀ log', Ledger seen (pending.erase i) log' → Runs args Q (k ()) log') :
    Runs args Q (.op (.free i) k) log := by
  refine ⟨trivial, fun r log' hstep => ?_⟩
  cases hstep
  exact hk _ (h.freed hi)

theorem runs_freeArgs (base n : Nat) (h : Ledger seen pending log) (hsub : Finset.Ico base (base + n) ⊆ pending) :
    Runs args (fun _ log' => Ledger seen (pending \ Finset.Ico base (base + n)) log') (freeArgs base n) log := by
  induction n with
  | zero =>
    refine ⟨trivial, ?_⟩
    simpa using h
  | succ n ih =>
    have hico : Finset.Ico base (base + (n + 1)) = insert (base + n) (Finset.Ico base (base + n)) := by
      ext j
      simp only [Finset.mem_Ico, Finset.mem_insert]
      omega
    rw [hico] at hsub ⊢
    rw [Finset.insert_subset_iff] at hsub
    refine Prog.wp_bind.mpr (Prog.wp_mono (fun _ h => h) (fun _ log' _ hlog' => ?_) (ih hsub.2))
    refine runs_free hlog' (by simp [hsub.1]) fun log'' hlog'' => ⟨trivial, ?_⟩
    rw [Finset.sdiff_insert]
    exact hlog''

theorem noEval_readAll (hev : Reads ev get) {base m : Nat} {acc : List β} (h : n ≤ base + acc.length) :
    NoEval n (readAll ev base m acc) := by
  induction m generalizing acc with
  | zero => trivial
  | succ m ih =>
    refine ⟨by simp [hev.evaluates_eq, h], fun r => ?_⟩
    cases r with
    | none => exact noEval_freeArgs_bind (k := fun _ => pure none) trivial
    | some a =>
      refine ih ?_
      rw [List.length_append]
      omega

variable (args) in
/-- The reading of all arguments: it gives the values where none is `NULL`, and else leaves pending what
was pending before. -/
theorem runs_readAll (hev : Reads ev get) (base n : Nat) (acc : List β) (h : Ledger seen pending log)
    (hfresh : Fresh log) (hseen : ∀ i ∈ seen, i < base + acc.length)
    (hacc : Finset.Ico base (base + acc.length) ⊆ pending) :
    Runs args (fun r log' => Fresh log' ∨
      r = none ∧ ∃ seen', Ledger seen' (pending \ Finset.Ico base (base + acc.length)) log')
      (readAll ev base n acc) log := by
  induction n generalizing acc seen pending log with
  | zero => exact ⟨trivial, .inl hfresh⟩
  | succ n ih =>
    have hi : base + acc.length ∉ seen := fun hmem => absurd (hseen _ hmem) (Nat.lt_irrefl _)
    refine runs_read hev h hfresh hi ?_ ?_ ?_
    · intro hlen r log' hfresh'
      have hrest : NoEval args.length (readAll ev base (n + 1) acc) := noEval_readAll hev hlen
      exact Prog.wp_mono (fun _ h => h) (fun _ _ _ h => .inl h) ((hrest.2 r).fresh hfresh')
    · intro seen' log' hlog'
      show Runs args _ (freeArgs base acc.length >>= fun _ => pure none) log'
      refine Prog.wp_bind.mpr (Prog.wp_mono (fun _ h => h) ?_ (runs_freeArgs base acc.length hlog' hacc))
      exact fun _ log'' _ hlog'' => ⟨trivial, .inr ⟨rfl, seen', hlog''⟩⟩
    · intro a log' hlog' hfresh'
      have hlen : base + (acc ++ [a]).length = base + acc.length + 1 := by
        rw [List.length_append]
        rfl
      have hico : Finset.Ico base (base + (acc ++ [a]).length) =
          insert (base + acc.length) (Finset.Ico base (base + acc.length)) := by
        ext j
        simp only [Finset.mem_Ico, Finset.mem_insert, hlen]
        omega
      have hrest := ih (acc ++ [a]) hlog' hfresh'
        (by
          intro j hj
          rw [hlen]
          rcases Finset.mem_insert.mp hj with rfl | hj
          · exact Nat.lt_succ_self _
          · exact Nat.lt_succ_of_lt (hseen j hj))
        (by
          rw [hico]
          exact Finset.insert_subset_insert _ hacc)
      have hpending : insert (base + acc.length) pending \ Finset.Ico base (base + (acc ++ [a]).length) =
          pending \ Finset.Ico base (base + acc.length) := by
        have hnot : base + acc.length ∉ pending := fun hmem => hi (h.sub hmem)
        rw [hico, Finset.insert_sdiff_insert, Finset.sdiff_insert, Finset.erase_eq_of_notMem]
        exact fun hmem => hnot (Finset.sdiff_subset hmem)
      rw [hpending] at hrest
      exact hrest

/-- Where nothing was read before, a body that needs all of its arguments does what is demanded. -/
theorem runs_readAll_done (hev : Reads ev get) (m : Nat) {k : List β → Body}
    (hk : ∀ vs, NoEval args.length (k vs)) : Runs args Done (withArgs (readAll ev 0 m []) k) [] := by
  have hread := runs_readAll args hev 0 m [] Ledger.nil Fresh.nil (by simp) (by simp)
  refine Prog.wp_bind.mpr (Prog.wp_mono (fun _ h => h) ?_ hread)
  intro r log _ hlog
  rcases hlog with hfresh | ⟨rfl, seen', hlog⟩
  · cases r with
    | none => exact ⟨trivial, hfresh.done⟩
    | some vs => exact (hk vs).done hfresh
  · have hledger : Ledger seen' ∅ log := by simpa using hlog
    exact ⟨trivial, hledger.done⟩

end

theorem propagates_readArgs (m : Nat) {k : List Bytes → Body} (hk : ∀ vs, NoEval args.length (k vs)) :
    Propagates (withArgs (readArgs m) k) args :=
  propagates_of_runs (runs_readAll_done reads_evaluate m hk)

theorem propagates_readVarArgs (m : Nat) {k : List Bytes → Body} (hk : ∀ vs, NoEval args.length (k vs)) :
    Propagates (withArgs (readVarArgs 0 m) k) args :=
  propagates_of_runs (runs_readAll_done reads_evaluate m hk)

theorem propagates_readValueArgs (m : Nat) {k : List Edify.Value → Body}
    (hk : ∀ vs, NoEval args.length (k vs)) : Propagates (withArgs (readValueArgs m) k) args :=
  propagates_of_runs (runs_readAll_done reads_evaluateValue m hk)

theorem propagates_readValueVarArgs (m : Nat) {k : List Edify.Value → Body}
    (hk : ∀ vs, NoEval args.length (k vs)) : Propagates (withArgs (readValueVarArgs 0 m) k) args :=
  propagates_of_runs (runs_readAll_done reads_evaluateValue m hk)

theorem propagates_noEval {body : Body} (h : NoEval args.length body) : Propagates body args :=
  propagates_of_runs (h.done Fresh.nil)

theorem propagates_ite {c : Prop} [Decidable c] {p q : Body} (hp : c → Propagates p args)
    (hq : ¬ c → Propagates q args) : Propagates (if c then p else q) args := by
  split
  · exact hp ‹_›
  · exact hq ‹_›

/-! ## The functions that read all of their arguments first -/

theorem mountFn_propagates (name : Bytes) (argc : Nat) : Propagates (mountFn name argc) args := by
  refine propagates_ite (fun _ => propagates_noEval (by simp)) fun _ => propagates_readArgs 4 fun vs => ?_
  simp [mountBody]

theorem isMountedFn_propagates (name : Bytes) (argc : Nat) : Propagates (isMountedFn name argc) args := by
  refine propagates_ite (fun _ => propagates_noEval (by simp)) fun _ => propagates_readArgs 1 fun vs => ?_
  simp [isMountedBody]

theorem unmountFn_propagates (name : Bytes) (argc : Nat) : Propagates (unmountFn name argc) args := by
  refine propagates_ite (fun _ => propagates_noEval (by simp)) fun _ => propagates_readArgs 1 fun vs => ?_
  simp [unmountBody]

theorem formatFn_propagates (name : Bytes) (argc : Nat) : Propagates (formatFn name argc) args := by
  refine propagates_ite (fun _ => propagates_noEval (by simp)) fun _ => propagates_readArgs 5 fun vs => ?_
  simp [formatBody, formatMtd]

theorem packageExtractDirFn_propagates (name : Bytes) (argc : Nat) :
    Propagates (packageExtractDirFn name argc) args := by
  refine propagates_ite (fun _ => propagates_noEval (by simp)) fun _ => propagates_readArgs 2 fun vs => ?_
  simp

theorem packageExtractFileFn_propagates (name : Bytes) (argc : Nat) :
    Propagates (packageExtractFileFn name argc) args := by
  refine propagates_ite (fun _ => propagates_noEval (by simp)) fun _ =>
    propagates_ite (fun _ => propagates_readArgs 2 fun vs => ?_) fun _ => propagates_readArgs 1 fun vs => ?_
  · simp [extractToFile]
  · simp [extractToBlob]

theorem noEval_setPermLoop (uid gid mode : Int) (files : List Bytes) (bad : Nat) :
    NoEval n (setPermLoop uid gid mode files bad) := by
  induction files generalizing bad with
  | nil => trivial
  | cons file files ih => exact ⟨rfl, fun _ => ⟨rfl, fun _ => ih _⟩⟩

theorem noEval_setPermRecursiveLoop (uid gid dir_mode file_mode : Int) (dirs : List Bytes) :
    NoEval n (setPermRecursiveLoop uid gid dir_mode file_mode dirs) := by
  induction dirs with
  | nil => trivial
  | cons dir dirs ih => exact ⟨rfl, fun _ => ih⟩

theorem noEval_permArg {name : Bytes} {vs : List Bytes} {i : Nat} {what : String} {k : Int → Body}
    (hk : ∀ m, NoEval n (k m)) : NoEval n (permArg name vs i what k) := by
  unfold permArg
  split
  · exact noEval_failAfter _ _
  · exact hk _

theorem noEval_setPermBody (name : Bytes) (recursive : Bool) (vs : List Bytes) :
    NoEval n (setPermBody name recursive vs) := by
  refine noEval_permArg fun uid => noEval_permArg fun gid => ?_
  rw [noEval_ite]
  constructor
  · refine fun _ => noEval_permArg fun dir_mode => noEval_permArg fun file_mode => ?_
    exact noEval_bind (noEval_setPermRecursiveLoop _ _ _ _ _) fun _ => noEval_giveAfter _ _
  · refine fun _ => noEval_permArg fun mode => noEval_bind (noEval_setPermLoop _ _ _ _ _) fun bad => ?_
    exact noEval_freeList_bind (by simp)

theorem setPermFn_propagates (name : Bytes) (argc : Nat) : Propagates (setPermFn name argc) args :=
  propagates_ite (fun _ => propagates_noEval (by simp)) fun _ =>
    propagates_readVarArgs argc fun vs => noEval_setPermBody name _ vs

theorem fileGetPropFn_propagates (name : Bytes) : Propagates (fileGetPropFn name) args := by
  refine propagates_readArgs 2 fun vs => ?_
  simp [fileGetPropBody]

theorem writeRawImageFn_propagates (name : Bytes) : Propagates (writeRawImageFn name) args := by
  refine propagates_readValueArgs 2 fun vs => ?_
  simp [writeRawImageBody]

theorem applyPatchSpaceFn_propagates (name : Bytes) : Propagates (applyPatchSpaceFn name) args := by
  refine propagates_readArgs 1 fun vs => ?_
  simp

theorem showProgressFn_propagates (name : Bytes) (argc : Nat) : Propagates (showProgressFn name argc) args := by
  refine propagates_ite (fun _ => propagates_noEval (by simp)) fun _ => propagates_readArgs 2 fun vs => ?_
  simp

theorem setProgressFn_propagates (name : Bytes) (argc : Nat) : Propagates (setProgressFn name argc) args := by
  refine propagates_ite (fun _ => propagates_noEval (by simp)) fun _ => propagates_readArgs 1 fun vs => ?_
  simp

theorem noEval_printLines (lines : List Bytes) : NoEval n (printLines lines) := by
  induction lines with
  | nil => trivial
  | cons line lines ih => exact ⟨rfl, fun _ => ih⟩

theorem uiPrintFn_propagates (argc : Nat) : Propagates (uiPrintFn argc) args :=
  propagates_readVarArgs argc fun _ =>
    noEval_freeArgs_bind (noEval_bind (noEval_printLines _) fun _ => trivial)

theorem wipeCacheFn_propagates (name : Bytes) (argc : Nat) : Propagates (wipeCacheFn name argc) args :=
  propagates_noEval (by simp [wipeCacheFn])

theorem runProgramFn_propagates (name : Bytes) (argc : Nat) : Propagates (runProgramFn name argc) args := by
  refine propagates_ite (fun _ => propagates_noEval (by simp)) fun _ => propagates_readVarArgs argc fun vs => ?_
  simp

theorem noEval_sha1CheckLoop (digest : Bytes) (i : Nat) (vs : List Edify.Value) :
    NoEval n (sha1CheckLoop digest i vs) := by
  induction vs generalizing i with
  | nil => trivial
  | cons v vs ih =>
    rw [sha1CheckLoop, noEval_ite]
    exact ⟨fun _ => noEval_freeList_bind trivial, fun _ => noEval_free_bind.mpr (ih (i + 1))⟩

theorem sha1CheckFn_propagates (name : Bytes) (argc : Nat) : Propagates (sha1CheckFn name argc) args := by
  refine propagates_ite (fun _ => propagates_noEval (by simp)) fun _ =>
    propagates_readValueVarArgs argc fun vs => ?_
  cases vs with
  | nil => trivial
  | cons v vs => simp [sha1CheckBody, noEval_sha1CheckLoop]

theorem readFileFn_propagates (name : Bytes) (argc : Nat) : Propagates (readFileFn name argc) args := by
  refine propagates_ite (fun _ => propagates_noEval (by simp)) fun _ => propagates_readArgs 1 fun vs => ?_
  simp

theorem concatFn_eq (argc : Nat) : concatFn argc = if argc = 0 then stringValue [] else
    withArgs (readVarArgs 0 argc) fun strings => freeArgs 0 argc >>= fun _ => stringValue strings.flatten := by
  unfold concatFn withArgs
  congr 2
  funext r
  cases r <;> rfl

theorem concatFn_propagates (argc : Nat) : Propagates (concatFn argc) args := by
  rw [concatFn_eq]
  refine propagates_ite (fun _ => propagates_noEval trivial) fun _ => ?_
  exact propagates_readVarArgs argc fun vs => noEval_freeArgs_bind trivial

theorem lessThanIntBody_eq : lessThanIntBody = withArgs (readArgs 2) fun vs => freeArgs 0 2 >>= fun _ =>
    stringValue (boolString (lessThanInt (vs.getD 0 []) (vs.getD 1 []))) := by
  unfold lessThanIntBody withArgs
  congr 1
  funext r
  cases r <;> rfl

theorem lessThanIntFn_propagates (argc : Nat) : Propagates (lessThanIntFn argc) args := by
  unfold lessThanIntFn
  rw [lessThanIntBody_eq]
  refine propagates_ite (fun _ => propagates_noEval (by simp)) fun _ => ?_
  exact propagates_readArgs 2 fun vs => noEval_freeArgs_bind trivial

/-! ## The functions that evaluate one argument after the other -/

/-- The body of a function of one argument, behind the evaluation. -/
theorem propagates_first {k : Option Bytes → Body}
    (hnone : ∀ seen log, Ledger seen ∅ log → Runs args Done (k none) log)
    (hout : args = [] → ∀ r, NoEval args.length (k r))
    (hsome : ∀ str log, Ledger {0} {0} log → Fresh log → Runs args Done (k (some str)) log) :
    Propagates (call (.evaluate 0) >>= k) args := by
  refine propagates_of_runs (runs_read reads_evaluate Ledger.nil Fresh.nil (by simp) ?_ hnone hsome)
  intro hlen r log hfresh
  have hnil : args = [] := List.eq_nil_of_length_eq_zero (Nat.le_zero.mp hlen)
  exact (hout hnil r).done hfresh

theorem runs_null (h : Ledger seen ∅ log) : Runs args Done null log := ⟨trivial, h.done⟩

theorem sleepFn_propagates : Propagates sleepFn args := by
  refine propagates_first (fun _ _ h => runs_null h) (fun _ r => ?_) fun str log _ hfresh => ?_
  · cases r <;> simp
  · exact NoEval.done (by simp) hfresh

theorem getPropFn_propagates (name : Bytes) (argc : Nat) : Propagates (getPropFn name argc) args := by
  refine propagates_ite (fun _ => propagates_noEval (by simp)) fun _ => ?_
  refine propagates_first (fun _ _ h => runs_null h) (fun _ r => ?_) fun str log _ hfresh => ?_
  · cases r <;> simp
  · exact NoEval.done (by simp) hfresh

theorem abortFn_propagates (argc : Nat) : Propagates (abortFn argc) args := by
  refine propagates_ite (fun _ => ?_) fun _ => propagates_noEval (by simp)
  refine propagates_first (fun _ _ h => ?_) (fun _ r => ?_) fun str log _ hfresh => ?_
  · refine ⟨trivial, fun _ log' hstep => ?_⟩
    cases hstep
    exact runs_null h
  · cases r <;> simp
  · exact NoEval.done (by simp) hfresh

/-- The last argument is evaluated and returned. -/
theorem runs_return (h : Ledger seen ∅ log) (hfresh : Fresh log) (hi : i ∉ seen) :
    Runs args Done (call (.evaluateValue i)) log :=
  runs_read reads_evaluateValue h hfresh hi (fun _ _ _ hfresh' => ⟨trivial, hfresh'.done⟩)
    (fun _ _ h' => ⟨trivial, h'.done⟩) fun _ _ _ hfresh' => ⟨trivial, hfresh'.done⟩

theorem ifElseFn_propagates : Propagates (ifElseFn args.length) args := by
  refine propagates_ite (fun _ => propagates_noEval (by simp)) fun hargc => ?_
  refine propagates_first (fun _ _ h => runs_null h) (fun hnil => ?_) fun str log h hfresh => ?_
  · simp [hnil] at hargc
  · have hfreed : ∀ j ≠ 0, Runs args Done (call (.free 0) >>= fun _ => call (.evaluateValue j)) log := by
      intro j hj
      refine ⟨trivial, fun _ log' hstep => ?_⟩
      cases hstep
      have hledger := h.freed (Finset.mem_singleton_self 0)
      rw [Finset.erase_singleton] at hledger
      exact runs_return hledger (hfresh.append fun i hi => by simp at hi) (by simpa using hj)
    show Runs args Done (if booleanString str then _ else if args.length = 3 then _ else stringValue str) log
    split
    · exact hfreed 1 (by decide)
    · split
      · exact hfreed 2 (by decide)
      · exact ⟨trivial, hfresh.done⟩

theorem substringFn_propagates : Propagates substringFn args := by
  refine propagates_first (fun _ _ h => runs_null h) (fun hnil r => ?_) fun left log h hfresh => ?_
  · cases r with
    | none => trivial
    | some left =>
      refine ⟨by simp [evaluates, hnil], fun r => ?_⟩
      cases r with
      | none => exact ⟨rfl, fun _ => trivial⟩
      | some right => exact ⟨rfl, fun _ => ⟨rfl, fun _ => trivial⟩⟩
  · refine runs_read reads_evaluate h hfresh (by simp) ?_ ?_ ?_
    · intro _ r log' hfresh'
      refine NoEval.done ?_ hfresh'
      cases r with
      | none => exact ⟨rfl, fun _ => trivial⟩
      | some right => exact ⟨rfl, fun _ => ⟨rfl, fun _ => trivial⟩⟩
    · exact fun seen' log' h' => runs_free h' (Finset.mem_singleton_self 0) fun log'' h'' =>
        runs_null (by simpa using h'')
    · exact fun right log' _ hfresh' => NoEval.done ⟨rfl, fun _ => ⟨rfl, fun _ => trivial⟩⟩ hfresh'

theorem greaterThanIntFn_propagates : Propagates (greaterThanIntFn args.length) args := by
  refine propagates_ite (fun _ => propagates_noEval (by simp)) fun hargc => propagates_of_runs ?_
  have hlen : args.length = 2 := of_not_not hargc
  refine runs_read reads_evaluate Ledger.nil Fresh.nil (by simp) ?_ ?_ ?_
  · exact fun hout => absurd hout (by simp [hlen])
  · exact fun seen' log' h => ⟨trivial, h.done⟩
  · intro left log h hfresh
    refine runs_read reads_evaluate h hfresh (by simp) ?_ ?_ ?_
    · exact fun hout => absurd hout (by simp [hlen])
    · exact fun seen' log' h' => runs_free h' (by simp) fun log'' h'' => ⟨trivial, Ledger.done (by simpa using h'')⟩
    · exact fun right log' _ hfresh' => NoEval.done ⟨rfl, fun _ => ⟨rfl, fun _ => trivial⟩⟩ hfresh'

theorem runs_assertLoop (m i : Nat) (h : Ledger seen ∅ log) (hfresh : Fresh log) (hseen : ∀ j ∈ seen, j < i)
    (hlen : i + m ≤ args.length) : Runs args Done (assertLoop m i) log := by
  induction m generalizing i seen log with
  | zero => exact ⟨trivial, hfresh.done⟩
  | succ m ih =>
    have hi : i ∉ seen := fun hmem => absurd (hseen i hmem) (Nat.lt_irrefl i)
    refine runs_read reads_evaluate h hfresh hi ?_ ?_ ?_
    · exact fun hout => absurd hout (by omega)
    · exact fun seen' log' h' => runs_null h'
    · intro str log' h' hfresh'
      refine ⟨trivial, fun _ log'' hstep => ?_⟩
      cases hstep
      have hledger := h'.freed (Finset.mem_insert_self i ∅)
      have hfresh'' : Fresh (log' ++ [.freed i]) := hfresh'.append fun j hj => by simp at hj
      show Runs args Done (if booleanString str then assertLoop m (i + 1) else _) _
      split
      · refine ih (i + 1) (by simpa using hledger) hfresh'' ?_ (by omega)
        intro j hj
        rcases Finset.mem_insert.mp hj with rfl | hj
        · exact Nat.lt_succ_self _
        · exact Nat.lt_succ_of_lt (hseen j hj)
      · exact NoEval.done ⟨rfl, fun _ => noEval_failWith _⟩ hfresh''

theorem assertFn_propagates : Propagates (assertFn args.length) args :=
  propagates_of_runs (runs_assertLoop args.length 0 Ledger.nil Fresh.nil (by simp) (by simp))

theorem noEval_symlinkLoop (name target : Bytes) (i : Nat) (srcs : List Bytes) (bad : Nat) :
    NoEval n (symlinkLoop name target i srcs bad) := by
  induction srcs generalizing i bad with
  | nil => simp [symlinkLoop]
  | cons src srcs ih => exact ⟨rfl, fun _ => ⟨rfl, fun _ => ⟨rfl, fun _ => ⟨rfl, fun _ => ih _ _⟩⟩⟩⟩

theorem symlinkFn_propagates (name : Bytes) : Propagates (symlinkFn name args.length) args := by
  refine propagates_ite (fun _ => propagates_noEval (by simp)) fun hargc => ?_
  refine propagates_first (fun _ _ h => runs_null h) (fun hnil => ?_) fun target log h hfresh => ?_
  · simp [hnil] at hargc
  · have hread := runs_readAll args reads_evaluate 1 (args.length - 1) [] h hfresh (by simp) (by simp)
    show Runs args Done (readVarArgs 1 (args.length - 1) >>= _) log
    refine Prog.wp_bind.mpr (Prog.wp_mono (fun _ h => h) ?_ hread)
    intro r log' _ hlog'
    rcases hlog' with hfresh' | ⟨rfl, seen', h'⟩
    · refine NoEval.done ?_ hfresh'
      cases r with
      | none => exact noEval_free_bind.mpr trivial
      | some srcs => exact noEval_symlinkLoop _ _ _ _ _
    · have hledger : Ledger seen' {0} log' := by simpa using h'
      refine runs_free hledger (Finset.mem_singleton_self 0) fun log'' h'' => ?_
      have hfreed : Ledger seen' ∅ log'' := by simpa using h''
      exact runs_null hfreed

/-! ## The functions that go on -/

/-- The log only grows. -/
theorem runs_grow (p : Prog EdifyOp α) (log : List Event) : Runs args (fun _ log' => log <+: log') p log := by
  induction p generalizing log with
  | ret a => exact ⟨trivial, List.prefix_rfl⟩
  | op o k ih =>
    refine ⟨trivial, fun r log' hstep => ?_⟩
    have hpre : log <+: log' := argSem_prefix hstep
    exact Prog.wp_mono (fun _ h => h) (fun _ _ _ h => hpre.trans h) (ih r log')

theorem not_fresh_mono {log' : List Event} (hpre : log <+: log') (h : ¬ Fresh log) : ¬ Fresh log' :=
  fun hfresh => h fun i hi => hfresh i (hpre.subset hi)

theorem not_done_of_crashed {r : Option Edify.Value} (h : ¬ Fresh log) (hcrash : .crashed ∈ log) : ¬ Done r log :=
  fun hdone => (hdone h).deref hcrash

section

variable {ev : Nat → EdifyOp (Option β)} {get : Option Edify.Value → Option β} {Q : α → List Event → Prop}
  {out : Option Edify.Value} {k : Option β → Prog EdifyOp α}

theorem runs_readSome (hev : Reads ev get) (hi : args[i]? = some out) {a : β} (hget : get out = some a)
    (hk : Runs args Q (k (some a)) (log ++ [.evaluated i])) : Runs args Q (.op (ev i) k) log := by
  refine ⟨trivial, fun r log' hstep => ?_⟩
  obtain ⟨rfl, ⟨rfl, -⟩ | ⟨-, hnone⟩ | ⟨-, hnone⟩⟩ := hev.inside args i out log log' r hi hstep
  · rw [hget]
    exact hk
  · rw [hget] at hnone
    cases hnone
  · rw [hget] at hnone
    cases hnone

theorem runs_readNone (hev : Reads ev get) (hi : args[i]? = some out) (hget : get out = none)
    (hk : ∀ log', log <+: log' → ¬ Fresh log' → Runs args Q (k none) log') :
    Runs args Q (.op (ev i) k) log := by
  refine ⟨trivial, fun r log' hstep => ?_⟩
  obtain ⟨rfl, ⟨-, hsome⟩ | ⟨rfl, -⟩ | ⟨rfl, -⟩⟩ := hev.inside args i out log log' r hi hstep
  · exact absurd hget hsome
  · rw [hget]
    exact hk _ (List.prefix_append _ _) fun hfresh => hfresh i (by simp)
  · rw [hget]
    exact hk _ (List.prefix_append _ _) fun hfresh => hfresh i (by simp)

theorem Fresh.evaluated (h : Fresh log) (i : Nat) : Fresh (log ++ [.evaluated i]) :=
  h.append fun j hj => by simp at hj

theorem mapM_eq_none_iff {γ δ : Type} {f : γ → Option δ} {xs : List γ} :
    xs.mapM f = none ↔ ∃ x ∈ xs, f x = none := by
  induction xs with
  | nil => simp
  | cons x xs ih =>
    rw [List.mapM_cons]
    cases hx : f x with
    | none => simp [hx]
    | some y => cases hxs : xs.mapM f <;> simp [hx, hxs] at ih ⊢ <;> exact ih

/-- What the reading of all arguments gives, where there are as many. -/
theorem runs_readAll_exact (hev : Reads ev get) (base : Nat) (outs : Outcomes) (acc : List β) (hfresh : Fresh log)
    (houts : outs <+: args.drop (base + acc.length)) :
    Runs args (fun r log' => r = (outs.mapM get).map (acc ++ ·) ∧ (Fresh log' ↔ r ≠ none))
      (readAll ev base outs.length acc) log := by
  induction outs generalizing acc log with
  | nil =>
    refine ⟨trivial, by simp, ?_⟩
    simpa using hfresh
  | cons out outs ih =>
    obtain ⟨rest, hrest⟩ := houts
    have hi : args[base + acc.length]? = some out := by
      rw [← List.head?_drop, ← hrest]
      rfl
    cases hget : get out with
    | some a =>
      refine runs_readSome hev hi hget ?_
      have hdrop : outs <+: args.drop (base + (acc ++ [a]).length) := by
        rw [List.length_append, ← Nat.add_assoc, ← List.drop_drop, ← hrest]
        exact List.prefix_append _ _
      refine Prog.wp_mono (fun _ h => h) ?_ (ih (acc ++ [a]) (hfresh.evaluated _) hdrop)
      rintro r log' - ⟨rfl, hlog'⟩
      refine ⟨?_, hlog'⟩
      rw [List.mapM_cons, hget]
      cases outs.mapM get <;> simp
    | none =>
      refine runs_readNone hev hi hget fun log' _ hnot => ?_
      show Runs args _ (freeArgs base acc.length >>= fun _ => pure none) log'
      refine Prog.wp_bind.mpr (Prog.wp_mono (fun _ h => h) ?_ (runs_grow _ log'))
      intro _ log'' _ hpre
      refine ⟨trivial, ?_, ?_⟩
      · rw [List.mapM_cons, hget]
        rfl
      · simpa using not_fresh_mono hpre hnot

end

/-- The first argument is no string, or all of them are. -/
def FirstNull (args : Outcomes) : Prop :=
  asStringArg (args.headD none) ≠ none → ∀ out ∈ args, asStringArg out ≠ none

theorem firstNull_cons {out : Option Edify.Value} {outs : Outcomes} {str : Bytes}
    (h : asStringArg out = some str) : FirstNull (out :: outs) ↔ ∀ out ∈ outs, asStringArg out ≠ none := by
  simp [FirstNull, h]

theorem getElem?_of_drop {out : Option Edify.Value} {outs : Outcomes} (h : args.drop i = out :: outs) :
    args[i]? = some out := by
  rw [← List.head?_drop, h]
  rfl

theorem drop_succ_of_drop {out : Option Edify.Value} {outs : Outcomes} (h : args.drop i = out :: outs) :
    args.drop (i + 1) = outs := by
  rw [← List.drop_drop, h]
  rfl

/-- A first argument that is `NULL` is the only one that is evaluated. -/
theorem runs_readFirst {out : Option Edify.Value} {outs : Outcomes} (hargs : args = out :: outs)
    (hout : asStringArg out = none) {k : Option Bytes → Body}
    (hk : ∀ seen log, Ledger seen ∅ log → Runs args Done (k none) log) :
    Runs args Done (.op (.evaluate 0) k) [] := by
  subst hargs
  refine ⟨trivial, fun r log' hstep => ?_⟩
  obtain ⟨rfl, ⟨-, hsome⟩ | ⟨rfl, -⟩ | ⟨rfl, -⟩⟩ := reads_evaluate.inside _ 0 out [] log' r rfl hstep
  · exact absurd hout hsome
  · rw [hout]
    exact hk ∅ _ Ledger.nil.null
  · rw [hout]
    exact hk _ _ (Ledger.nil.rejected (Finset.notMem_empty 0))

theorem runs_stdoutLoop (outs : Outcomes) (hdrop : args.drop i = outs) (hfresh : Fresh log)
    (hall : ∀ out ∈ outs, asStringArg out ≠ none) : Runs args Done (stdoutLoop outs.length i) log := by
  induction outs generalizing i log with
  | nil => exact ⟨trivial, hfresh.done⟩
  | cons out outs ih =>
    obtain ⟨str, hstr⟩ := Option.ne_none_iff_exists'.mp (hall out List.mem_cons_self)
    refine runs_readSome reads_evaluate (getElem?_of_drop hdrop) hstr ⟨trivial, fun _ log' hcall => ?_⟩
    refine ⟨trivial, fun _ log'' hfree => ?_⟩
    cases hcall
    cases hfree
    refine ih (drop_succ_of_drop hdrop) ?_ fun out hmem => hall out (List.mem_cons_of_mem _ hmem)
    exact ((hfresh.evaluated i).append fun j hj => by simp at hj).append fun j hj => by simp at hj

theorem runs_stdoutLoop_null (outs : Outcomes) (hdrop : args.drop i = outs) {c : Call} (hcalled : .called c ∈ log)
    (hnull : ∃ out ∈ outs, asStringArg out = none) :
    Runs args (fun r log' => ¬ Done r log') (stdoutLoop outs.length i) log := by
  induction outs generalizing i log with
  | nil =>
    obtain ⟨out, hmem, -⟩ := hnull
    cases hmem
  | cons out outs ih =>
    cases hout : asStringArg out with
    | none =>
      refine runs_readNone reads_evaluate (getElem?_of_drop hdrop) hout fun log' hpre hnot => ⟨trivial, ?_⟩
      exact fun hdone => (hdone hnot).effect c (hpre.subset hcalled)
    | some str =>
      refine runs_readSome reads_evaluate (getElem?_of_drop hdrop) hout ⟨trivial, fun _ log' hcall => ?_⟩
      refine ⟨trivial, fun _ log'' hfree => ?_⟩
      cases hcall
      cases hfree
      refine ih (drop_succ_of_drop hdrop) (by simp [hcalled]) ?_
      obtain ⟨out', hmem, hout'⟩ := hnull
      rcases List.mem_cons.mp hmem with rfl | hmem
      · rw [hout] at hout'
        cases hout'
      · exact ⟨out', hmem, hout'⟩

theorem stdoutFn_propagates_iff : Propagates (stdoutFn args.length) args ↔ FirstNull args := by
  rcases hargs : args with _ | ⟨out, outs⟩
  · exact iff_of_true (propagates_noEval trivial) (by simp [FirstNull, asStringArg])
  · cases hout : asStringArg out with
    | none =>
      refine iff_of_true (propagates_of_runs ?_) (by simp [FirstNull, hout])
      exact runs_readFirst rfl hout fun _ _ h => runs_null h
    | some str =>
      rw [firstNull_cons hout]
      constructor
      · intro hprop out' hmem hnull
        refine not_propagates_of_runs ?_ hprop
        refine runs_readSome reads_evaluate rfl hout ⟨trivial, fun _ log' hcall => ⟨trivial, fun _ log'' hfree => ?_⟩⟩
        cases hcall
        cases hfree
        exact runs_stdoutLoop_null (c := ⟨"fputs", [str], []⟩) outs rfl (by simp) ⟨out', hmem, hnull⟩
      · intro hall
        refine propagates_of_runs (runs_stdoutLoop (out :: outs) rfl Fresh.nil ?_)
        intro out' hmem
        rcases List.mem_cons.mp hmem with rfl | hmem
        · simp [hout]
        · exact hall out' hmem

theorem noEval_deleteLoop (recursive : Bool) (i : Nat) (paths : List Bytes) (success : Int) :
    NoEval n (deleteLoop recursive i paths success) := by
  induction paths generalizing i success with
  | nil => trivial
  | cons path paths ih => exact ⟨rfl, fun _ => ⟨rfl, fun _ => ih _ _⟩⟩

/-- The clean-up of `DeleteFn` ends in a crash only. -/
theorem runs_deleteCleanup (m : Nat) (log : List Event) :
    Runs args (fun _ log' => log <+: log' ∧ .crashed ∈ log') (deleteCleanup m) log := by
  induction m generalizing log with
  | zero =>
    refine ⟨trivial, fun _ log' hstep => ⟨trivial, ?_⟩⟩
    cases hstep
    exact ⟨List.prefix_append _ _, by simp⟩
  | succ m ih =>
    refine ⟨trivial, fun _ log' hstep => ?_⟩
    cases hstep
    exact Prog.wp_mono (fun _ h => h) (fun _ _ _ h => ⟨(List.prefix_append _ _).trans h.1, h.2⟩) (ih _)

theorem runs_deletePaths (outs : Outcomes) (paths : List Bytes) (hdrop : args.drop i = outs) (hfresh : Fresh log)
    (hall : ∀ out ∈ outs, asStringArg out ≠ none) :
    Runs args (fun _ log' => Fresh log') (deletePaths outs.length i paths) log := by
  induction outs generalizing i paths log with
  | nil => exact ⟨trivial, hfresh⟩
  | cons out outs ih =>
    obtain ⟨str, hstr⟩ := Option.ne_none_iff_exists'.mp (hall out List.mem_cons_self)
    refine runs_readSome reads_evaluate (getElem?_of_drop hdrop) hstr ?_
    exact ih (paths ++ [str]) (drop_succ_of_drop hdrop) (hfresh.evaluated i)
      fun out hmem => hall out (List.mem_cons_of_mem _ hmem)

theorem runs_deletePaths_null (outs : Outcomes) (paths : List Bytes) (hdrop : args.drop i = outs) (hi : 0 < i)
    (hnull : ∃ out ∈ outs, asStringArg out = none) :
    Runs args (fun _ log' => ¬ Fresh log' ∧ .crashed ∈ log') (deletePaths outs.length i paths) log := by
  induction outs generalizing i paths log with
  | nil =>
    obtain ⟨out, hmem, -⟩ := hnull
    cases hmem
  | cons out outs ih =>
    cases hout : asStringArg out with
    | none =>
      refine runs_readNone reads_evaluate (getElem?_of_drop hdrop) hout fun log' _ hnot => ?_
      show Runs args _ (if 0 < i then deleteCleanup (2 ^ 31 - i) >>= fun _ => pure none else pure none) log'
      rw [if_pos hi]
      refine Prog.wp_bind.mpr (Prog.wp_mono (fun _ h => h) ?_ (runs_deleteCleanup _ log'))
      exact fun _ log'' _ h => ⟨trivial, not_fresh_mono h.1 hnot, h.2⟩
    | some str =>
      refine runs_readSome reads_evaluate (getElem?_of_drop hdrop) hout ?_
      refine ih (paths ++ [str]) (drop_succ_of_drop hdrop) (Nat.succ_pos i) ?_
      obtain ⟨out', hmem, hout'⟩ := hnull
      rcases List.mem_cons.mp hmem with rfl | hmem
      · rw [hout] at hout'
        cases hout'
      · exact ⟨out', hmem, hout'⟩

theorem deleteFn_propagates_iff (name : Bytes) : Propagates (deleteFn name args.length) args ↔ FirstNull args := by
  rcases hargs : args with _ | ⟨out, outs⟩
  · exact iff_of_true (propagates_noEval trivial) (by simp [FirstNull, asStringArg])
  · cases hout : asStringArg out with
    | none =>
      refine iff_of_true (propagates_of_runs ?_) (by simp [FirstNull, hout])
      exact runs_readFirst rfl hout fun _ _ h => runs_null h
    | some str =>
      rw [firstNull_cons hout]
      constructor
      · intro hprop out' hmem hnull
        have hpaths : Runs (out :: outs) (fun _ log' => ¬ Fresh log' ∧ .crashed ∈ log')
            (deletePaths (out :: outs).length 0 []) [] :=
          runs_readSome reads_evaluate rfl hout
            (runs_deletePaths_null outs _ rfl Nat.one_pos ⟨out', hmem, hnull⟩)
        refine not_propagates_of_runs (Prog.wp_bind.mpr (Prog.wp_mono (fun _ h => h) ?_ hpaths)) hprop
        intro paths log' _ h
        exact Prog.wp_mono (fun _ h => h)
          (fun _ _ _ hpre => not_done_of_crashed (not_fresh_mono hpre h.1) (hpre.subset h.2)) (runs_grow _ log')
      · intro hall
        have hpaths : Runs (out :: outs) (fun _ log' => Fresh log') (deletePaths (out :: outs).length 0 []) [] := by
          refine runs_deletePaths (out :: outs) [] rfl Fresh.nil fun out' hmem => ?_
          rcases List.mem_cons.mp hmem with rfl | hmem
          · simp [hout]
          · exact hall out' hmem
        refine propagates_of_runs (Prog.wp_bind.mpr (Prog.wp_mono (fun _ h => h) ?_ hpaths))
        intro paths log' _ hfresh
        refine NoEval.done ?_ hfresh
        cases paths with
        | none => trivial
        | some paths => exact noEval_deleteLoop _ _ _ _

/-- A crash behind a `NULL`. -/
theorem runs_crash (h : ¬ Fresh log) : Runs args (fun r log' => ¬ Done r log') (call .crash >>= fun _ => null) log := by
  refine ⟨trivial, fun _ log' hstep => ⟨trivial, ?_⟩⟩
  cases hstep
  exact not_done_of_crashed (not_fresh_mono (List.prefix_append _ _) h) (by simp)

theorem noEval_applyPatchCheckBody (filename : Bytes) (patchcount : Nat) (sha1s : Option (List Bytes)) :
    NoEval n (applyPatchCheckBody filename patchcount sha1s) := by
  refine noEval_sys_bind.mpr fun result => ?_
  cases sha1s with
  | none => exact ⟨rfl, fun _ => trivial⟩
  | some sha1s => exact noEval_giveAfter _ _

theorem noEval_applyPatchBody (name source_filename target_filename target_sha1 : Bytes) (target_size : Int)
    (patches : Option (List Edify.Value)) :
    NoEval n (applyPatchBody name source_filename target_filename target_sha1 target_size patches) := by
  cases patches with
  | none => exact ⟨rfl, fun _ => trivial⟩
  | some patches =>
    simp only [applyPatchBody]
    split
    · exact noEval_failAfter _ _
    · simp

/-- The arguments from `base` on, read behind the strings before them. -/
theorem runs_readRest {β : Type} {ev : Nat → EdifyOp (Option β)} {get : Option Edify.Value → Option β}
    (hev : Reads ev get) (base : Nat) (hfresh : Fresh log) :
    Runs args (fun r log' => r = (args.drop base).mapM get ∧ (Fresh log' ↔ r ≠ none))
      (readAll ev base (args.length - base) []) log := by
  have hread := runs_readAll_exact hev base (args.drop base) [] hfresh List.prefix_rfl
  rw [List.length_drop] at hread
  refine Prog.wp_mono (fun _ h => h) ?_ hread
  rintro r log' - ⟨rfl, hlog'⟩
  simpa using hlog'

/-- The first `m` arguments, as strings. -/
theorem runs_readStrings (m : Nat) (hm : m ≤ args.length) :
    Runs args (fun r log' => r = (args.take m).mapM asStringArg ∧ (Fresh log' ↔ r ≠ none)) (readArgs m) [] := by
  have hread := runs_readAll_exact reads_evaluate 0 (args.take m) [] Fresh.nil (List.take_prefix m args)
  rw [List.length_take, Nat.min_eq_left hm] at hread
  refine Prog.wp_mono (fun _ h => h) ?_ hread
  rintro r log' - ⟨rfl, hlog'⟩
  simpa using hlog'

/-- The first strings are read, or `NULL` is returned as it should be. -/
theorem runs_withStrings (m : Nat) (hm : m ≤ args.length) {k : List Bytes → Body}
    (hk : ∀ strs log, (args.take m).mapM asStringArg = some strs → Fresh log → Runs args Done (k strs) log) :
    Runs args Done (withArgs (readArgs m) k) [] := by
  have hledger := runs_readAll args reads_evaluate 0 m [] Ledger.nil Fresh.nil (by simp) (by simp)
  refine Prog.wp_bind.mpr (Prog.wp_mono (fun _ h => h) ?_ (Prog.wp_and (runs_readStrings m hm) hledger))
  rintro r log - ⟨⟨rfl, hfresh⟩, hnull⟩
  cases hstrs : (args.take m).mapM asStringArg with
  | none =>
    rw [hstrs] at hfresh hnull
    rcases hnull with hfresh' | ⟨-, seen', hlog⟩
    · exact ⟨trivial, hfresh'.done⟩
    · have hledger : Ledger seen' ∅ log := by simpa using hlog
      exact ⟨trivial, hledger.done⟩
  | some strs =>
    rw [hstrs] at hfresh
    exact hk strs log hstrs (hfresh.mpr (by simp))

theorem applyPatchCheckFn_propagates_iff (name : Bytes) :
    Propagates (applyPatchCheckFn name args.length) args ↔ FirstNull args := by
  rcases hargs : args with _ | ⟨out, outs⟩
  · exact iff_of_true (propagates_noEval (noEval_errorAbort _)) (by simp [FirstNull, asStringArg])
  · have hif : applyPatchCheckFn name (out :: outs).length = withArgs (readArgs 1) fun vs =>
        readVarArgs 1 ((out :: outs).length - 1) >>= fun sha1s =>
          applyPatchCheckBody (vs.getD 0 []) ((out :: outs).length - 1) sha1s :=
      if_neg (by simp)
    rw [hif]
    cases hout : asStringArg out with
    | none =>
      refine iff_of_true (propagates_of_runs ?_) (by simp [FirstNull, hout])
      exact runs_readFirst rfl hout fun _ _ h => runs_null h
    | some str =>
      rw [firstNull_cons hout]
      constructor
      · intro hprop out' hmem hnull
        refine not_propagates_of_runs ?_ hprop
        refine runs_readSome reads_evaluate rfl hout ?_
        have hrest : Runs (out :: outs) _ (readAll .evaluate 1 ((out :: outs).length - 1) []) _ :=
          runs_readRest reads_evaluate 1 (Fresh.nil.evaluated 0)
        show Runs (out :: outs) _ (readVarArgs 1 ((out :: outs).length - 1) >>= _) _
        refine Prog.wp_bind.mpr (Prog.wp_mono (fun _ h => h) ?_ hrest)
        rintro r log - ⟨rfl, hfresh⟩
        have hnone : ((out :: outs).drop 1).mapM asStringArg = none := mapM_eq_none_iff.mpr ⟨out', hmem, hnull⟩
        rw [hnone] at hfresh ⊢
        refine ⟨trivial, fun _ log' hcall => runs_crash ?_⟩
        cases hcall
        exact not_fresh_mono (List.prefix_append _ _) (by simpa using hfresh)
      · intro hall
        refine propagates_of_runs (runs_withStrings 1 (by simp) fun strs log _ hfresh => ?_)
        have hrest : Runs (out :: outs) _ (readAll .evaluate 1 ((out :: outs).length - 1) []) log :=
          runs_readRest reads_evaluate 1 hfresh
        refine Prog.wp_bind.mpr (Prog.wp_mono (fun _ h => h) ?_ hrest)
        rintro r log' - ⟨rfl, hfresh'⟩
        refine (noEval_applyPatchCheckBody _ _ _).done (hfresh'.mpr fun hnone => ?_)
        obtain ⟨out', hmem, hnull⟩ := mapM_eq_none_iff.mp hnone
        exact hall out' hmem hnull

/-- The size of the target reads as a number. -/
def ByteCount (str : Bytes) : Prop := ¬ (sizeT (strtol str) = 0 ∧ strtolEnd str = str)

instance (str : Bytes) : Decidable (ByteCount str) := inferInstanceAs (Decidable (¬ _))

/-- Where the first four arguments can be used, none of the patches is `NULL`. -/
def PatchNull (args : Outcomes) : Prop :=
  6 ≤ args.length → args.length % 2 = 0 → ∀ strs, (args.take 4).mapM asStringArg = some strs →
    ByteCount (strs.getD 3 []) → ∀ out ∈ args.drop 4, out ≠ none

theorem applyPatchFn_propagates_iff (name : Bytes) :
    Propagates (applyPatchFn name args.length) args ↔ PatchNull args := by
  by_cases hargc : args.length < 6 ∨ args.length % 2 = 1
  · rw [applyPatchFn, if_pos hargc]
    refine iff_of_true (propagates_noEval (noEval_errorAbort _)) ?_
    intro hlen heven
    omega
  · rw [applyPatchFn, if_neg hargc]
    constructor
    · intro hprop hlen heven strs hstrs hcount out hmem hnull
      refine not_propagates_of_runs ?_ hprop
      refine Prog.wp_bind.mpr (Prog.wp_mono (fun _ h => h) ?_ (runs_readStrings 4 (by omega)))
      rintro r log - ⟨rfl, hfresh⟩
      rw [hstrs] at hfresh ⊢
      show Runs args _ (if _ then _ else _) log
      rw [if_neg hcount]
      refine Prog.wp_bind.mpr (Prog.wp_mono (fun _ h => h) ?_
        (runs_readRest reads_evaluateValue 4 (hfresh.mpr (by simp))))
      rintro r log' - ⟨rfl, hfresh'⟩
      rw [mapM_eq_none_iff.mpr ⟨out, hmem, hnull⟩] at hfresh' ⊢
      exact runs_crash (by simpa using hfresh')
    · intro hnull
      refine propagates_of_runs (runs_withStrings 4 (by omega) fun strs log hstrs hfresh => ?_)
      show Runs args Done (if _ then _ else _) log
      split
      · exact NoEval.done (noEval_failAfter _ _) hfresh
      · rename_i hcount
        refine Prog.wp_bind.mpr (Prog.wp_mono (fun _ h => h) ?_ (runs_readRest reads_evaluateValue 4 hfresh))
        rintro r log' - ⟨rfl, hfresh'⟩
        refine (noEval_applyPatchBody _ _ _ _ _ _).done (hfresh'.mpr fun hnone => ?_)
        obtain ⟨out, hmem, hout⟩ := mapM_eq_none_iff.mp hnone
        exact hnull (by omega) (by omega) strs hstrs hcount out hmem hout

/-! ## Every registered function -/

/-- Where the functions of these names do what is demanded. -/
def NullCondition (name : String) (args : Outcomes) : Prop :=
  if name ∈ ["stdout", "delete", "delete_recursive", "apply_patch_check"] then FirstNull args
  else if name = "apply_patch" then PatchNull args
  else True

/-- A registered function returns `NULL` for an argument that is `NULL`, without an effect and with every
argument freed, exactly where the loops that write, delete and check do not meet a `NULL` too late, and
`apply_patch` does not meet one among its patches. -/
theorem registeredFunctions_null : ∀ f ∈ registeredFunctions, ∀ args : Outcomes,
    Propagates (f.2 (Bytes.ascii f.1) args.length) args ↔ NullCondition f.1 args := by
  intro f hf args
  simp only [registeredFunctions, builtins, installFunctions, List.cons_append, List.nil_append, List.mem_cons,
    List.not_mem_nil, or_false] at hf
  rcases hf with rfl | rfl | rfl | rfl | rfl | rfl | rfl | rfl | rfl | rfl | rfl | rfl | rfl | rfl | rfl | rfl |
    rfl | rfl | rfl | rfl | rfl | rfl | rfl | rfl | rfl | rfl | rfl | rfl | rfl | rfl | rfl | rfl | rfl
  · exact iff_of_true ifElseFn_propagates trivial
  · exact iff_of_true (abortFn_propagates _) trivial
  · exact iff_of_true assertFn_propagates trivial
  · exact iff_of_true (concatFn_propagates _) trivial
  · exact iff_of_true substringFn_propagates trivial
  · exact stdoutFn_propagates_iff
  · exact iff_of_true sleepFn_propagates trivial
  · exact iff_of_true (lessThanIntFn_propagates _) trivial
  · exact iff_of_true greaterThanIntFn_propagates trivial
  · exact iff_of_true (mountFn_propagates _ _) trivial
  · exact iff_of_true (isMountedFn_propagates _ _) trivial
  · exact iff_of_true (unmountFn_propagates _ _) trivial
  · exact iff_of_true (formatFn_propagates _ _) trivial
  · exact iff_of_true (showProgressFn_propagates _ _) trivial
  · exact iff_of_true (setProgressFn_propagates _ _) trivial
  · exact deleteFn_propagates_iff _
  · exact deleteFn_propagates_iff _
  · exact iff_of_true (packageExtractDirFn_propagates _ _) trivial
  · exact iff_of_true (packageExtractFileFn_propagates _ _) trivial
  · exact iff_of_true (symlinkFn_propagates _) trivial
  · exact iff_of_true (setPermFn_propagates _ _) trivial
  · exact iff_of_true (setPermFn_propagates _ _) trivial
  · exact iff_of_true (getPropFn_propagates _ _) trivial
  · exact iff_of_true (fileGetPropFn_propagates _) trivial
  · exact iff_of_true (writeRawImageFn_propagates _) trivial
  · exact applyPatchFn_propagates_iff _
  · exact applyPatchCheckFn_propagates_iff _
  · exact iff_of_true (applyPatchSpaceFn_propagates _) trivial
  · exact iff_of_true (readFileFn_propagates _ _) trivial
  · exact iff_of_true (sha1CheckFn_propagates _ _) trivial
  · exact iff_of_true (wipeCacheFn_propagates _ _) trivial
  · exact iff_of_true (uiPrintFn_propagates _) trivial
  · exact iff_of_true (runProgramFn_propagates _ _) trivial

/-- `concat("a", NULL)` returns `NULL` and frees the string. -/
theorem concatFn_null : Propagates (concatFn 2) [some (.string [97]), none] :=
  (registeredFunctions_null ("concat", fun _ => concatFn) (by simp [registeredFunctions, builtins])
    [some (.string [97]), none]).mpr trivial

/-- `delete("a", NULL)` frees the path over and over. -/
theorem deleteFn_null : ("delete", deleteFn) ∈ registeredFunctions ∧
    ¬ Propagates (deleteFn (Bytes.ascii "delete") 2) [some (.string [97]), none] := by
  refine ⟨by simp [registeredFunctions, installFunctions], fun hprop => ?_⟩
  have hall := (deleteFn_propagates_iff _).mp hprop (by simp [asStringArg]) none (by simp)
  exact hall rfl

end Updater
end Miui
