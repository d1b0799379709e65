import MiuiRecovery.Edify.Expr

/-!
# The meaning of edify expressions

The language of `edify/README`: arguments are evaluated from the left to the right, operators and
functions evaluate only what they need, and the first failure ends the evaluation. A meaning also tells
whether an evaluation is regular, that is, whether it stays clear of the calls on which `edify/expr.c`
goes its own way.

* `denote`: the meaning of an expression.
* `EdifyFn.body_sim`: the body of every function does what its meaning says.
* `evaluate_trace`: where the evaluation is regular, `Evaluate` makes the calls of the meaning in the
  same order, and returns its result and its message.
-/

namespace Miui
namespace Edify

open Prog (call)

/-! ## Meanings -/

/-- The end of an evaluation: its value, `none` after a failure, and the state. -/
structure Ending (α : Type) where
  value : Option α
  state : State
  regular : Bool
deriving DecidableEq

/-- A computation in a state, which the first failure ends. -/
def Meaning (α : Type) := State → Ending α

namespace Meaning

variable {α β : Type}

protected def pure (a : α) : Meaning α := fun s => ⟨some a, s, true⟩

protected def bind (m : Meaning α) (f : α → Meaning β) : Meaning β := fun s =>
  match (m s).value with
  | none => ⟨none, (m s).state, (m s).regular⟩
  | some a => { f a (m s).state with regular := (m s).regular && (f a (m s).state).regular }

instance : Monad Meaning where
  pure := Meaning.pure
  bind := Meaning.bind

/-- A failure with its message. -/
def fail (msg : Bytes) : Meaning α := fun s => ⟨none, { s with errmsg := some msg }, true⟩

/-- A failure that leaves no message. -/
def silent : Meaning α := fun s => ⟨none, s, true⟩

/-- A call that does not have the arguments it needs. -/
def illFormed : Meaning α := fun s => ⟨none, s, false⟩

/-- A call into the system, or into a function registered elsewhere. -/
def effect (w : World) (c : Call) : Meaning Reply := fun s =>
  ⟨some (w s.trace c), { s with trace := s.trace ++ [c] }, true⟩

end Meaning

/-- The meaning of an argument, and its place in the script. -/
structure Operand where
  meaning : Meaning Value
  start : Nat
  stop : Nat

open Meaning (fail silent illFormed effect)

/-- The value of an operand as a string. -/
def Operand.string (a : Operand) : Meaning Bytes := do
  match ← a.meaning with
  | .string data => pure data
  | .blob _ _ => fail (Bytes.ascii "expecting string, got value type 2")

/-- The strings of the operands, from the left to the right. -/
def strings : List Operand → Meaning (List Bytes)
  | [] => pure []
  | a :: as => do
    let v ← a.string
    let vs ← strings as
    pure (v :: vs)

/-- The result of a test of two operands. -/
def test (p : Bytes → Bytes → Bool) (left right : Operand) : Meaning Value := do
  let l ← left.string
  let r ← right.string
  pure (.string (boolString (p l r)))

/-- Regular, if it makes no difference in which order the operands are evaluated. -/
def greaterThan (left right : Operand) : Meaning Value := fun s =>
  let e := test (fun l r => lessThanInt r l) left right s
  let e' := test lessThanInt right left s
  { e with regular := e'.regular && decide (e = e') }

/-- A failure of the operand is the failure of the call. Regular, if the message is that of a call
without an operand. -/
def abortWith (a : Operand) : Meaning Value := fun s =>
  let e := a.string s
  match e.value with
  | some msg => ⟨none, { e.state with errmsg := some msg }, e.regular⟩
  | none => ⟨none, e.state, e.regular && decide (e.state.errmsg = some (Bytes.ascii "called abort()"))⟩

/-- The failure of an assertion, with the text of the operand. -/
def assertFailed (a : Operand) : Meaning Value := fun s =>
  fail (Bytes.ascii "assert failed: " ++ (s.script.drop a.start).take (a.stop - a.start)) s

def assertAll : List Operand → Meaning Value
  | [] => pure (.string [])
  | a :: as => do
    let v ← a.string
    if booleanString v then assertAll as else assertFailed a

def printAll (w : World) : List Operand → Meaning Value
  | [] => pure (.string [])
  | a :: as => do
    let v ← a.string
    let _ ← effect w ⟨"fputs", [v], []⟩
    printAll w as

/-- The meaning of a function applied to operands. -/
def EdifyFn.meaning (w : World) (name : Bytes) : EdifyFn → List Operand → Meaning Value
  | .Literal, _ => pure (.string name)
  | .ConcatFn, as => do
    let vs ← strings as
    pure (.string vs.flatten)
  | .LogicalAndFn, left :: right :: _ => do
    let l ← left.string
    if booleanString l then right.meaning else pure (.string l)
  | .LogicalOrFn, left :: right :: _ => do
    let l ← left.string
    if booleanString l then pure (.string l) else right.meaning
  | .LogicalNotFn, a :: _ => do
    let v ← a.string
    pure (.string (boolString (!booleanString v)))
  | .SubstringFn, needle :: haystack :: _ => test (fun n h => n <:+: h) needle haystack
  | .EqualityFn, left :: right :: _ => test (fun l r => l == r) left right
  | .InequalityFn, left :: right :: _ => test (fun l r => l != r) left right
  | .SequenceFn, left :: right :: _ => do
    let _ ← left.meaning
    right.meaning
  | .IfElseFn, [cond, yes] => do
    let c ← cond.string
    if booleanString c then yes.meaning else pure (.string c)
  | .IfElseFn, [cond, yes, no] => do
    let c ← cond.string
    if booleanString c then yes.meaning else no.meaning
  | .IfElseFn, _ => fail (Bytes.ascii "ifelse expects 2 or 3 arguments")
  | .AbortFn, [] => fail (Bytes.ascii "called abort()")
  | .AbortFn, a :: _ => abortWith a
  | .AssertFn, as => assertAll as
  | .StdoutFn, as => printAll w as
  | .SleepFn, a :: _ => do
    let v ← a.string
    let _ ← effect w ⟨"sleep", [], [strtol v]⟩
    pure (.string v)
  | .LessThanIntFn, [left, right] => test lessThanInt left right
  | .LessThanIntFn, _ => fail (Bytes.ascii "less_than_int expects 2 arguments")
  | .GreaterThanIntFn, [left, right] => greaterThan left right
  | .GreaterThanIntFn, _ => fail (Bytes.ascii "greater_than_int expects 2 arguments")
  | .external, _ => do
    let r ← effect w ⟨"external", [name], []⟩
    if r.ret = 0 then pure (.string r.data)
    else if r.ret = 1 then pure (.blob r.data.length r.data)
    else if r.ret = 2 then fail r.data
    else silent
  | _, _ => illFormed

mutual

/-- The meaning of an expression. -/
def denote (w : World) : Expr → Meaning Value
  | .node fn name argv _ _ => fn.meaning w name (operands w argv)

def operands (w : World) : List Expr → List Operand
  | [] => []
  | .node fn name argv start stop :: es =>
    ⟨denote w (.node fn name argv start stop), start, stop⟩ :: operands w es

end

/-! ## Simulation -/

section Sim

variable {α β : Type} {w : World} {argv : List Arg} {args : List Operand}

/-- The argument does what the operand means, where that is regular. -/
structure ArgSim (a : Arg) (o : Operand) : Prop where
  eval : ∀ s, (o.meaning s).regular = true → a.eval s = some ((o.meaning s).value, (o.meaning s).state)
  start : a.start = o.start
  stop : a.stop = o.stop

/-- The program does what the meaning says, where that is regular. -/
def Sim (w : World) (argv : List Arg) (p : Prog EdifyOp (Option α)) (m : Meaning α) : Prop :=
  ∀ s, (m s).regular = true → p.exec? (answer w argv) s = some ((m s).value, (m s).state)

theorem bind_apply (m : Meaning α) (f : α → Meaning β) (s : State) : (m >>= f) s =
    match (m s).value with
    | none => ⟨none, (m s).state, (m s).regular⟩
    | some a => { f a (m s).state with regular := (m s).regular && (f a (m s).state).regular } := rfl

/-- Where the first part fails, the program only frees. -/
theorem Sim.bind {p : Prog EdifyOp (Option α)} {m : Meaning α}
    {f : Option α → Prog EdifyOp (Option β)} {g : α → Meaning β} (h : Sim w argv p m)
    (hnull : ∀ s, (f none).exec? (answer w argv) s = some (none, s))
    (hsome : ∀ a, Sim w argv (f (some a)) (g a)) : Sim w argv (p >>= f) (m >>= g) := by
  intro s hregular
  rw [bind_apply] at hregular ⊢
  rw [Prog.exec?_bind]
  cases hv : (m s).value with
  | none =>
    rw [hv] at hregular
    rw [h s hregular, hv]
    exact hnull _
  | some a =>
    rw [hv] at hregular
    simp only [Bool.and_eq_true] at hregular
    rw [h s hregular.1, hv]
    exact hsome a _ hregular.2

theorem Sim.pure (a : α) : Sim w argv (Pure.pure (some a)) (Pure.pure a) := fun _ _ => rfl

theorem Sim.stringValue (str : Bytes) : Sim w argv (stringValue str) (Pure.pure (.string str)) := Sim.pure _

theorem Sim.failWith (msg : Bytes) : Sim w argv (failWith msg) (fail msg) := fun _ _ => rfl

theorem exec_null (s : State) : null.exec? (answer w argv) s = some (none, s) := rfl

/-- Freeing leaves no trace. -/
theorem Sim.free {i : Nat} {p : Prog EdifyOp (Option α)} {m : Meaning α} (h : Sim w argv p m) :
    Sim w argv (call (.free i) >>= fun _ => p) m := fun s hs => h s hs

theorem exec_freeArgs (base n : Nat) (s : State) :
    (freeArgs base n).exec? (answer w argv) s = some ((), s) := by
  induction n generalizing s with
  | zero => rfl
  | succ n ih =>
    rw [freeArgs, Prog.exec?_bind, ih]
    rfl

theorem Sim.freeArgs {base n : Nat} {p : Prog EdifyOp (Option α)} {m : Meaning α} (h : Sim w argv p m) :
    Sim w argv (freeArgs base n >>= fun _ => p) m := by
  intro s hs
  rw [Prog.exec?_bind, exec_freeArgs]
  exact h s hs

theorem Sim.evaluateValue {i : Nat} {a : Arg} {o : Operand} (ha : argv[i]? = some a) (h : ArgSim a o) :
    Sim w argv (call (.evaluateValue i)) o.meaning := by
  intro s hs
  have hans : answer w argv _ (.evaluateValue i) s = some ((o.meaning s).value, (o.meaning s).state) := by
    simp only [answer, ha, Option.bind_eq_bind, Option.bind_some]
    exact h.eval s hs
  simp only [call, Prog.exec?, hans]

theorem Sim.evaluate {i : Nat} {a : Arg} {o : Operand} (ha : argv[i]? = some a) (h : ArgSim a o) :
    Sim w argv (call (.evaluate i)) o.string := by
  intro s hs
  unfold Operand.string at hs ⊢
  rw [bind_apply] at hs ⊢
  have hregular : (o.meaning s).regular = true := by
    cases hv : (o.meaning s).value with
    | none => rwa [hv] at hs
    | some v =>
      rw [hv] at hs
      simp only [Bool.and_eq_true] at hs
      exact hs.1
  have hans : answer w argv _ (.evaluate i) s = some (asString (o.meaning s).value (o.meaning s).state) := by
    simp only [answer, ha, Option.bind_eq_bind, Option.bind_some, h.eval s hregular]
    rfl
  simp only [call, Prog.exec?, hans]
  cases hv : (o.meaning s).value with
  | none => rfl
  | some v => cases v <;> rfl

theorem Sim.effect {c : Call} {f : Reply → Prog EdifyOp (Option α)} {g : Reply → Meaning α}
    (h : ∀ r, Sim w argv (f r) (g r)) : Sim w argv (call (.call c) >>= f) (effect w c >>= g) := by
  intro s hs
  rw [bind_apply] at hs ⊢
  exact h _ _ (by simpa [Meaning.effect] using hs)

/-! ## The bodies -/

/-- `argv` and the operands belong together, one by one. -/
abbrev ArgsSim (argv : List Arg) (args : List Operand) : Prop := List.Forall₂ ArgSim argv args

theorem Sim.strings {acc : List Bytes} (h : ArgsSim (argv.drop acc.length) args) :
    Sim w argv (readAll .evaluate 0 args.length acc) (do
      let vs ← strings args
      Pure.pure (acc ++ vs)) := by
  induction args generalizing acc with
  | nil =>
    intro s _
    simp [readAll, Edify.strings, Prog.exec?, bind_apply, Pure.pure, Meaning.pure]
  | cons o os ih =>
    obtain ⟨a, as, ho, hos, hargv⟩ := List.forall₂_cons_right_iff.mp h
    have ha : argv[acc.length]? = some a := by
      have := congrArg (·[0]?) hargv
      simpa using this
    have hdrop : argv.drop (acc.length + 1) = as := by
      rw [← List.drop_drop, hargv]
      rfl
    have hassoc : (do
        let vs ← Edify.strings (o :: os)
        Pure.pure (acc ++ vs) : Meaning (List Bytes)) = (do
        let v ← o.string
        let vs ← Edify.strings os
        Pure.pure (acc ++ [v] ++ vs)) := by
      funext s
      simp only [Edify.strings, bind_apply]
      cases (o.string s).value with
      | none => rfl
      | some v =>
        dsimp only
        cases (Edify.strings os (o.string s).state).value with
        | none => rfl
        | some vs => simp [Pure.pure, Meaning.pure]
    rw [hassoc]
    refine (Sim.evaluate (i := 0 + acc.length) (by rwa [Nat.zero_add]) ho).bind (fun s => ?_) fun v => ?_
    · dsimp only
      rw [Prog.exec?_bind, exec_freeArgs]
      rfl
    · refine ih ?_
      rw [List.length_append, List.length_singleton, hdrop]
      exact hos

theorem Sim.readVarArgs (h : ArgsSim argv args) :
    Sim w argv (readVarArgs 0 args.length) (Edify.strings args) := by
  have hsim : Sim w argv (readAll .evaluate 0 args.length []) (do
      let vs ← Edify.strings args
      Pure.pure ([] ++ vs)) := Sim.strings (by simpa using h)
  have hid : (do
      let vs ← Edify.strings args
      Pure.pure ([] ++ vs) : Meaning (List Bytes)) = Edify.strings args := by
    funext s
    rw [bind_apply]
    rcases Edify.strings args s with ⟨_ | vs, s', regular⟩
    · rfl
    · simp [Pure.pure, Meaning.pure]
  rwa [hid] at hsim

theorem argsSim_drop {i : Nat} {o : Operand} {os : List Operand} (h : ArgsSim (argv.drop i) (o :: os)) :
    ∃ a, argv[i]? = some a ∧ ArgSim a o ∧ ArgsSim (argv.drop (i + 1)) os := by
  obtain ⟨a, as, ho, hos, hargv⟩ := List.forall₂_cons_right_iff.mp h
  refine ⟨a, ?_, ho, ?_⟩
  · have := congrArg (·[0]?) hargv
    simpa using this
  · rw [← List.drop_drop, hargv]
    exact hos

theorem argsSim_zero {o : Operand} {os : List Operand} (h : ArgsSim argv (o :: os)) :
    ∃ a, argv[0]? = some a ∧ ArgSim a o := by
  obtain ⟨a, ha, ho, -⟩ := argsSim_drop (i := 0) h
  exact ⟨a, ha, ho⟩

theorem argsSim_one {o o' : Operand} {os : List Operand} (h : ArgsSim argv (o :: o' :: os)) :
    ∃ a, argv[1]? = some a ∧ ArgSim a o' := by
  obtain ⟨-, -, -, hrest⟩ := argsSim_drop (i := 0) h
  obtain ⟨a, ha, ho, -⟩ := argsSim_drop (i := 1) hrest
  exact ⟨a, ha, ho⟩

theorem Sim.illFormed (p : Prog EdifyOp (Option α)) : Sim w argv p illFormed := fun _ hs => by cases hs

theorem concatFn_sim (h : ArgsSim argv args) :
    Sim w argv (concatFn args.length) (EdifyFn.meaning w [] .ConcatFn args) := by
  unfold concatFn
  split
  · rename_i hnil
    rw [List.length_eq_zero_iff.mp hnil]
    intro s _
    rfl
  · exact (Sim.readVarArgs h).bind exec_null fun vs => (Sim.stringValue vs.flatten).freeArgs

/-- The right operand, if the left one does not decide. -/
theorem Sim.branch {i : Nat} {a : Arg} {o : Operand} (ha : argv[i]? = some a) (h : ArgSim a o)
    {c : Prop} [Decidable c] (str : Bytes) :
    Sim w argv (if c then (call (.free 0) >>= fun _ => call (.evaluateValue i)) else Edify.stringValue str)
      (if c then o.meaning else Pure.pure (.string str)) := by
  split
  · exact (Sim.evaluateValue ha h).free
  · exact Sim.stringValue str

theorem logicalAndFn_sim (name : Bytes) : ∀ args, ArgsSim argv args →
    Sim w argv logicalAndFn (EdifyFn.meaning w name .LogicalAndFn args)
  | [], _ => Sim.illFormed _
  | [_], _ => Sim.illFormed _
  | left :: right :: _, h => by
    obtain ⟨a, ha, hl⟩ := argsSim_zero h
    obtain ⟨b, hb, hr⟩ := argsSim_one h
    exact (Sim.evaluate ha hl).bind exec_null fun l => Sim.branch hb hr l

theorem logicalOrFn_sim (name : Bytes) : ∀ args, ArgsSim argv args →
    Sim w argv logicalOrFn (EdifyFn.meaning w name .LogicalOrFn args)
  | [], _ => Sim.illFormed _
  | [_], _ => Sim.illFormed _
  | left :: right :: _, h => by
    obtain ⟨a, ha, hl⟩ := argsSim_zero h
    obtain ⟨b, hb, hr⟩ := argsSim_one h
    refine (Sim.evaluate ha hl).bind exec_null fun l => ?_
    have hbranch := Sim.branch (w := w) hb hr (c := booleanString l = false) l
    have hflip : (if booleanString l = true then Pure.pure (.string l) else right.meaning : Meaning Value) =
        if booleanString l = false then right.meaning else Pure.pure (.string l) := by
      cases booleanString l <;> rfl
    rwa [← hflip] at hbranch

theorem logicalNotFn_sim (name : Bytes) : ∀ args, ArgsSim argv args →
    Sim w argv logicalNotFn (EdifyFn.meaning w name .LogicalNotFn args)
  | [], _ => Sim.illFormed _
  | o :: _, h => by
    obtain ⟨a, ha, ho⟩ := argsSim_zero h
    exact (Sim.evaluate ha ho).bind exec_null fun v => (Sim.stringValue _).free

theorem binaryFn_sim (p : Bytes → Bytes → Bool) {left right : Operand} {os : List Operand}
    (h : ArgsSim argv (left :: right :: os)) : Sim w argv (binaryFn p) (test p left right) := by
  obtain ⟨a, ha, hl⟩ := argsSim_zero h
  obtain ⟨b, hb, hr⟩ := argsSim_one h
  refine (Sim.evaluate ha hl).bind exec_null fun l => ?_
  exact (Sim.evaluate hb hr).bind (fun _ => rfl) fun r => ((Sim.stringValue _).free).free

theorem sequenceFn_sim (name : Bytes) : ∀ args, ArgsSim argv args →
    Sim w argv sequenceFn (EdifyFn.meaning w name .SequenceFn args)
  | [], _ => Sim.illFormed _
  | [_], _ => Sim.illFormed _
  | left :: right :: _, h => by
    obtain ⟨a, ha, hl⟩ := argsSim_zero h
    obtain ⟨b, hb, hr⟩ := argsSim_one h
    exact (Sim.evaluateValue ha hl).bind exec_null fun _ => (Sim.evaluateValue hb hr).free

theorem ifElseFn_sim (name : Bytes) : ∀ args, ArgsSim argv args →
    Sim w argv (ifElseFn args.length) (EdifyFn.meaning w name .IfElseFn args)
  | [], _ => fun _ _ => rfl
  | [_], _ => fun _ _ => rfl
  | [cond, yes], h => by
    obtain ⟨a, ha, hc⟩ := argsSim_zero h
    obtain ⟨b, hb, hy⟩ := argsSim_one h
    exact (Sim.evaluate ha hc).bind exec_null fun c => Sim.branch hb hy c
  | [cond, yes, no], h => by
    obtain ⟨a, ha, hc⟩ := argsSim_zero h
    obtain ⟨b, hb, hy⟩ := argsSim_one h
    obtain ⟨-, -, -, hrest⟩ := argsSim_drop (i := 0) h
    obtain ⟨-, -, -, hrest⟩ := argsSim_drop (i := 1) hrest
    obtain ⟨d, hd, hn, -⟩ := argsSim_drop (i := 2) hrest
    refine (Sim.evaluate ha hc).bind exec_null fun c => ?_
    show Sim w argv (if booleanString c = true then _ else _) (if booleanString c = true then _ else _)
    split
    · exact (Sim.evaluateValue hb hy).free
    · exact (Sim.evaluateValue hd hn).free
  | _ :: _ :: _ :: _ :: os, _ => fun s _ => by
    have hlen : os.length + 1 + 1 + 1 + 1 ≠ 2 ∧ os.length + 1 + 1 + 1 + 1 ≠ 3 := by omega
    simp only [List.length_cons, ifElseFn, if_pos hlen]
    rfl

theorem abortFn_sim (name : Bytes) : ∀ args, ArgsSim argv args →
    Sim w argv (abortFn args.length) (EdifyFn.meaning w name .AbortFn args)
  | [], _ => fun _ _ => rfl
  | o :: os, h => by
    obtain ⟨a, ha, ho⟩ := argsSim_zero h
    intro s hs
    have hs : (abortWith o s).regular = true := hs
    show (abortFn (os.length + 1)).exec? (answer w argv) s = some ((abortWith o s).value, (abortWith o s).state)
    rw [abortFn, if_pos (Nat.succ_pos _), Prog.exec?_bind]
    cases hv : (o.string s).value with
    | none =>
      have habort : abortWith o s = ⟨none, (o.string s).state, (o.string s).regular &&
          decide ((o.string s).state.errmsg = some (Bytes.ascii "called abort()"))⟩ := by
        simp only [abortWith, hv]
      rw [habort, Bool.and_eq_true, decide_eq_true_iff] at hs
      rw [habort, Sim.evaluate ha ho s hs.1, hv]
      -- The message of the operand is replaced by the same one.
      have hmsg : ({ (o.string s).state with errmsg := some (Bytes.ascii "called abort()") } : State) =
          (o.string s).state := by
        rw [← hs.2]
      exact congrArg (fun s' => some (none, s')) hmsg
    | some msg =>
      have habort : abortWith o s = ⟨none, { (o.string s).state with errmsg := some msg },
          (o.string s).regular⟩ := by
        simp only [abortWith, hv]
      rw [habort] at hs
      rw [habort, Sim.evaluate ha ho s hs, hv]
      rfl

theorem assertLoop_sim {i : Nat} (h : ArgsSim (argv.drop i) args) :
    Sim w argv (assertLoop args.length i) (assertAll args) := by
  induction args generalizing i with
  | nil => exact Sim.stringValue _
  | cons o os ih =>
    obtain ⟨a, ha, ho, hos⟩ := argsSim_drop h
    refine (Sim.evaluate ha ho).bind exec_null fun v => Sim.free ?_
    by_cases htrue : booleanString v = true
    · rw [if_pos htrue, if_pos htrue]
      exact ih hos
    · rw [if_neg htrue, if_neg htrue]
      intro s _
      have hans : answer w argv _ (.source i) s = some ((s.script.drop o.start).take (o.stop - o.start), s) := by
        simp only [answer, ha, Option.bind_eq_bind, Option.bind_some, ho.start, ho.stop]
        rfl
      rw [Prog.exec?_bind]
      simp only [call, Prog.exec?, hans]
      rfl

theorem stdoutLoop_sim {i : Nat} (h : ArgsSim (argv.drop i) args) :
    Sim w argv (stdoutLoop args.length i) (printAll w args) := by
  induction args generalizing i with
  | nil => exact Sim.stringValue _
  | cons o os ih =>
    obtain ⟨a, ha, ho, hos⟩ := argsSim_drop h
    exact (Sim.evaluate ha ho).bind exec_null fun v => Sim.effect fun _ => (ih hos).free

theorem sleepFn_sim (name : Bytes) : ∀ args, ArgsSim argv args →
    Sim w argv sleepFn (EdifyFn.meaning w name .SleepFn args)
  | [], _ => Sim.illFormed _
  | o :: _, h => by
    obtain ⟨a, ha, ho⟩ := argsSim_zero h
    exact (Sim.evaluate ha ho).bind exec_null fun v => Sim.effect fun _ => Sim.stringValue v

theorem strings_test (p : Bytes → Bytes → Bool) (left right : Operand) : (do
    let vs ← Edify.strings [left, right]
    Pure.pure (.string (boolString (p (vs.getD 0 []) (vs.getD 1 [])))) : Meaning Value) =
    test p left right := by
  funext s
  simp only [Edify.strings, test, bind_apply]
  cases (left.string s).value with
  | none => rfl
  | some l =>
    dsimp only
    cases hr : (right.string (left.string s).state).value with
    | none => rfl
    | some r => simp [Pure.pure, Meaning.pure]

theorem lessThanIntBody_sim {left right : Operand} (h : ArgsSim argv [left, right]) :
    Sim w argv lessThanIntBody (test lessThanInt left right) := by
  rw [← strings_test]
  exact (Sim.readVarArgs h).bind exec_null fun vs => (Sim.stringValue _).freeArgs

theorem lessThanIntFn_sim (name : Bytes) : ∀ args, ArgsSim argv args →
    Sim w argv (lessThanIntFn args.length) (EdifyFn.meaning w name .LessThanIntFn args)
  | [], _ => fun _ _ => rfl
  | [_], _ => fun _ _ => rfl
  | [_, _], h => lessThanIntBody_sim h
  | _ :: _ :: _ :: os, _ => fun s _ => by
    have hlen : os.length + 1 + 1 + 1 ≠ 2 := by omega
    simp only [List.length_cons, lessThanIntFn, if_pos hlen]
    rfl

theorem withArgv_bind (σ : Nat → Nat) {γ : Type} (p : Prog EdifyOp α) (f : α → Prog EdifyOp γ) :
    withArgv σ (p >>= f) = withArgv σ p >>= fun a => withArgv σ (f a) := by
  induction p with
  | ret a => rfl
  | op o k ih =>
    simp only [Prog.op_bind, withArgv]
    congr 1
    funext r
    exact ih r

/-- `ReadArgs` on the swapped arguments evaluates the right operand first. -/
theorem readArgs_swapped {left right : Operand} (h : ArgsSim argv [left, right]) :
    Sim w argv (withArgv (fun i => 1 - i) (readArgs 2)) (strings [right, left]) := by
  obtain ⟨a, ha, hl⟩ := argsSim_zero h
  obtain ⟨b, hb, hr⟩ := argsSim_one h
  have hprog : withArgv (fun i => 1 - i) (readArgs 2) = (call (.evaluate 1) >>= fun v =>
      v.elim (pure none) fun r => call (.evaluate 0) >>= fun v =>
        v.elim (call (.free 1) >>= fun _ => pure none) fun l => pure (some [r, l])) := by
    refine congrArg (Prog.op _) (funext fun v => ?_)
    cases v with
    | none => rfl
    | some r =>
      refine congrArg (Prog.op _) (funext fun v => ?_)
      cases v <;> rfl
  have hstrings : strings [right, left] = (do
      let r ← right.string
      let l ← left.string
      Pure.pure [r, l]) := by
    funext s
    simp only [strings, bind_apply]
    cases (right.string s).value with
    | none => rfl
    | some r =>
      dsimp only
      cases (left.string (right.string s).state).value with
      | none => rfl
      | some l => simp [Pure.pure, Meaning.pure]
  rw [hprog, hstrings]
  refine (Sim.evaluate hb hr).bind (fun _ => rfl) fun r => ?_
  exact (Sim.evaluate ha hl).bind (fun _ => rfl) fun l => Sim.pure [r, l]

/-- The comparison of the swapped arguments is `greater_than_int` from the right to the left. -/
theorem lessThanIntBody_swapped {left right : Operand} (h : ArgsSim argv [left, right]) :
    Sim w argv (withArgv (fun i => 1 - i) lessThanIntBody) (test lessThanInt right left) := by
  have hpair := strings_test lessThanInt right left
  rw [← hpair, lessThanIntBody, withArgv_bind]
  exact (readArgs_swapped h).bind (fun _ => rfl) fun vs s _ => rfl

theorem greaterThanIntFn_sim (name : Bytes) : ∀ args, ArgsSim argv args →
    Sim w argv (greaterThanIntFn args.length) (EdifyFn.meaning w name .GreaterThanIntFn args)
  | [], _ => fun _ _ => rfl
  | [_], _ => fun _ _ => rfl
  | [left, right], h => by
    intro s hs
    have hs : (greaterThan left right s).regular = true := hs
    show (withArgv (fun i => 1 - i) lessThanIntBody).exec? (answer w argv) s =
      some ((greaterThan left right s).value, (greaterThan left right s).state)
    simp only [greaterThan, Bool.and_eq_true, decide_eq_true_iff] at hs ⊢
    rw [lessThanIntBody_swapped h s hs.1, ← hs.2]
  | _ :: _ :: _ :: os, _ => fun s _ => by
    have hlen : os.length + 1 + 1 + 1 ≠ 2 := by omega
    simp only [List.length_cons, greaterThanIntFn, if_pos hlen]
    rfl

theorem externalFn_sim (name : Bytes) (args : List Operand) :
    Sim w argv (externalFn name) (EdifyFn.meaning w name .external args) :=
  Sim.effect fun r => by
    by_cases h0 : r.ret = 0
    · rw [if_pos h0, if_pos h0]
      exact Sim.stringValue _
    · rw [if_neg h0, if_neg h0]
      by_cases h1 : r.ret = 1
      · rw [if_pos h1, if_pos h1]
        exact Sim.pure _
      · rw [if_neg h1, if_neg h1]
        by_cases h2 : r.ret = 2
        · rw [if_pos h2, if_pos h2]
          exact Sim.failWith _
        · rw [if_neg h2, if_neg h2]
          exact fun _ _ => rfl

/-- The body of every function does what its meaning says. -/
theorem EdifyFn.body_sim (fn : EdifyFn) (name : Bytes) (h : ArgsSim argv args) :
    Sim w argv (fn.body name argv.length) (fn.meaning w name args) := by
  rw [List.Forall₂.length_eq h]
  cases fn with
  | Literal => exact Sim.stringValue name
  | ConcatFn => exact concatFn_sim h
  | LogicalAndFn => exact logicalAndFn_sim name args h
  | LogicalOrFn => exact logicalOrFn_sim name args h
  | LogicalNotFn => exact logicalNotFn_sim name args h
  | SubstringFn =>
    match args, h with
    | [], _ => exact Sim.illFormed _
    | [_], _ => exact Sim.illFormed _
    | _ :: _ :: _, h => exact binaryFn_sim _ h
  | EqualityFn =>
    match args, h with
    | [], _ => exact Sim.illFormed _
    | [_], _ => exact Sim.illFormed _
    | _ :: _ :: _, h => exact binaryFn_sim _ h
  | InequalityFn =>
    match args, h with
    | [], _ => exact Sim.illFormed _
    | [_], _ => exact Sim.illFormed _
    | _ :: _ :: _, h => exact binaryFn_sim _ h
  | SequenceFn => exact sequenceFn_sim name args h
  | IfElseFn => exact ifElseFn_sim name args h
  | AbortFn => exact abortFn_sim name args h
  | AssertFn => exact assertLoop_sim h
  | StdoutFn => exact stdoutLoop_sim h
  | SleepFn => exact sleepFn_sim name args h
  | LessThanIntFn => exact lessThanIntFn_sim name args h
  | GreaterThanIntFn => exact greaterThanIntFn_sim name args h
  | external => exact externalFn_sim name args

end Sim

/-! ## Expressions -/

mutual

theorem evaluateValue_sim (w : World) : ∀ (e : Expr) (s : State), (denote w e s).regular = true →
    evaluateValue w e s = some ((denote w e s).value, (denote w e s).state)
  | .node fn name argv start stop, s, hs => by
    have hlen : (evaluators w argv).length = argv.length := evaluators_length w argv
    have hsim := fn.body_sim (w := w) name (evaluators_sim w argv) s (by rwa [denote] at hs)
    rw [hlen] at hsim
    rw [evaluateValue, denote]
    exact hsim

theorem evaluators_sim (w : World) : ∀ es : List Expr, ArgsSim (evaluators w es) (operands w es)
  | [] => .nil
  | .node fn name argv start stop :: es => by
    rw [evaluators, operands]
    exact .cons ⟨fun s hs => evaluateValue_sim w (.node fn name argv start stop) s hs, rfl, rfl⟩
      (evaluators_sim w es)

end

/-- `Evaluate(state, expr)` -/
def evaluate (w : World) (e : Expr) (s : State) : Option (Option Bytes × State) :=
  (evaluateValue w e s).map fun r => asString r.1 r.2

/-- The meaning of a script. -/
def meaningOf (w : World) (e : Expr) : Meaning Bytes := Operand.string ⟨denote w e, 0, 0⟩

/-- Where the evaluation is regular, `Evaluate` makes the calls of the meaning in the same order, returns
the same string, or `NULL` at the first failure, and leaves the message of that failure. -/
theorem evaluate_trace (w : World) (e : Expr) (s : State) (h : (meaningOf w e s).regular = true) :
    evaluate w e s = some ((meaningOf w e s).value, (meaningOf w e s).state) := by
  have harg : ArgSim ⟨evaluateValue w e, 0, 0⟩ ⟨denote w e, 0, 0⟩ := ⟨evaluateValue_sim w e, rfl, rfl⟩
  have hargv : [(⟨evaluateValue w e, 0, 0⟩ : Arg)][0]? = some ⟨evaluateValue w e, 0, 0⟩ := rfl
  have hsim : Sim w _ (call (.evaluate 0)) _ := Sim.evaluate hargv harg
  have hsim := hsim s h
  have hrun : (call (EdifyOp.evaluate 0)).exec? (answer w [⟨evaluateValue w e, 0, 0⟩]) s = evaluate w e s := by
    simp only [call, Prog.exec?, answer, evaluate, List.getElem?_cons_zero, Option.bind_eq_bind,
      Option.bind_some]
    cases evaluateValue w e s <;> rfl
  rwa [hrun] at hsim

/-- A script of calls of external functions: `greater_than_int(f(), g())`. -/
def compareCalls : Expr :=
  .node .GreaterThanIntFn (Bytes.ascii "greater_than_int")
    [.node .external (Bytes.ascii "f") [] 17 20, .node .external (Bytes.ascii "g") [] 22 25] 0 26

/-- `g` is called before `f`. -/
theorem greaterThanInt_order :
    let w : World := fun _ c => ⟨0, if c.args = [Bytes.ascii "f"] then Bytes.ascii "2" else Bytes.ascii "1"⟩
    let s : State := ⟨Bytes.ascii "greater_than_int(f(), g())", none, []⟩
    (evaluate w compareCalls s).map (·.2.trace) =
        some [⟨"external", [Bytes.ascii "g"], []⟩, ⟨"external", [Bytes.ascii "f"], []⟩] ∧
      (meaningOf w compareCalls s).state.trace =
        [⟨"external", [Bytes.ascii "f"], []⟩, ⟨"external", [Bytes.ascii "g"], []⟩] ∧
      evaluate w compareCalls s ≠
        some ((meaningOf w compareCalls s).value, (meaningOf w compareCalls s).state) := by
  decide +kernel

/-- `if f() then stdout(a) endif; concat(b, abort(c))` -/
def branchAndAbort : Expr :=
  .node .SequenceFn (Bytes.ascii "(operator)")
    [.node .IfElseFn (Bytes.ascii "(operator)")
      [.node .external (Bytes.ascii "f") [] 3 6,
        .node .StdoutFn (Bytes.ascii "stdout") [.node .Literal (Bytes.ascii "a") [] 19 20] 12 21] 0 27,
      .node .ConcatFn (Bytes.ascii "concat")
        [.node .Literal (Bytes.ascii "b") [] 36 37,
          .node .AbortFn (Bytes.ascii "abort") [.node .Literal (Bytes.ascii "c") [] 45 46] 39 47] 29 48] 0 48

theorem evaluate_branchAndAbort :
    let w : World := fun _ _ => ⟨0, Bytes.ascii "t"⟩
    let s : State := ⟨Bytes.ascii "if f() then stdout(a) endif; concat(b, abort(c))", none, []⟩
    evaluate w branchAndAbort s =
      some ((meaningOf w branchAndAbort s).value, (meaningOf w branchAndAbort s).state) :=
  evaluate_trace _ branchAndAbort _ (by decide +kernel)

end Edify
end Miui
