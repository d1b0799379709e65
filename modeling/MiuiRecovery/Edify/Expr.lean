import MiuiRecovery.Lib.Prog
import MiuiRecovery.ApplyPatch.Storage

/-!
# Edify functions

`edify/expr.c`: the functions that a script is made of. The body of a function is a program that
evaluates its arguments, frees what it has got of them, sets the error message of the state and makes
calls into the system.

* `readAll`: the loop of `ReadArgs`, `ReadValueArgs`, `ReadVarArgs` and `ReadValueVarArgs`.
* `EdifyFn.body`: the operators and the functions of `RegisterBuiltins`.
* `evaluateValue`: `EvaluateValue`, for any answers to the calls.
-/

namespace Miui
namespace Edify

open Prog (call)

/-! ## Values and operations -/

/-- A `Value`. The size of a string is its length; a blob without data has the size -1. -/
inductive Value
  | string (data : Bytes)
  | blob (size : Int) (data : Bytes)
deriving DecidableEq

/-- A call into the system, or into a function registered elsewhere. -/
structure Call where
  fn : String
  args : List Bytes
  nums : List Int
deriving DecidableEq

structure Reply where
  ret : Int
  data : Bytes
deriving DecidableEq

/-- What the body of a function does. The argument `argv[i]` is named by its index. -/
inductive EdifyOp : Type → Type
  /-- `Evaluate(state, argv[i])` -/
  | evaluate (i : Nat) : EdifyOp (Option Bytes)
  /-- `EvaluateValue(state, argv[i])` -/
  | evaluateValue (i : Nat) : EdifyOp (Option Value)
  /-- `free` of the string, or `FreeValue` of the value, that `argv[i]` was evaluated to -/
  | free (i : Nat) : EdifyOp Unit
  /-- the text of `argv[i]` in the script -/
  | source (i : Nat) : EdifyOp Bytes
  /-- `free(state->errmsg); state->errmsg = msg` -/
  | setErrmsg (msg : Bytes) : EdifyOp Unit
  | call (c : Call) : EdifyOp Reply
  /-- a dereference of `NULL` -/
  | crash : EdifyOp Unit

/-- The body of a function; `none` stands for `NULL`. -/
abbrev Body := Prog EdifyOp (Option Value)

/-- `StringValue(str)` -/
def stringValue (str : Bytes) : Body := pure (some (.string str))

def null : Body := pure none

def boolString (b : Bool) : Bytes := if b then Bytes.ascii "t" else []

/-- `BooleanString(s)` -/
def booleanString (s : Bytes) : Bool := s != []

/-- `state->errmsg = msg; return NULL;` -/
def failWith (msg : Bytes) : Body := do
  call (.setErrmsg msg)
  null

/-- `ErrorAbort(state, format, ...)` with the message that the format gives. -/
def errorAbort (msg : Bytes) : Body := failWith (msg.take 4095)

/-- The system call `fn`. -/
def sys (fn : String) (args : List Bytes) (nums : List Int) : Prog EdifyOp Reply :=
  call (.call ⟨fn, args, nums⟩)

/-! ## Reading arguments -/

/-- `for (j = 0; j < n; ++j) free(args[j]);` for arguments from `base` on -/
def freeArgs (base : Nat) : Nat → Prog EdifyOp Unit
  | 0 => pure ()
  | n + 1 => do
    freeArgs base n
    call (.free (base + n))

/-- Evaluates `n` more arguments behind the `args` evaluated from `base` on. If one is `NULL`, the
others are freed. -/
def readAll {β : Type} (ev : Nat → EdifyOp (Option β)) (base : Nat) :
    Nat → List β → Prog EdifyOp (Option (List β))
  | 0, args => pure (some args)
  | n + 1, args => do
    match ← call (ev (base + args.length)) with
    | some arg => readAll ev base n (args ++ [arg])
    | none => do
      freeArgs base args.length
      pure none

def readArgs (count : Nat) : Prog EdifyOp (Option (List Bytes)) := readAll .evaluate 0 count []

def readValueArgs (count : Nat) : Prog EdifyOp (Option (List Value)) := readAll .evaluateValue 0 count []

/-- `ReadVarArgs(state, argc, argv+base)` -/
def readVarArgs (base argc : Nat) : Prog EdifyOp (Option (List Bytes)) := readAll .evaluate base argc []

/-- `ReadValueVarArgs(state, argc, argv+base)` -/
def readValueVarArgs (base argc : Nat) : Prog EdifyOp (Option (List Value)) :=
  readAll .evaluateValue base argc []

/-! ## The builtin functions -/

/-- The strings evaluated so far are freed at the label `done`, as `ReadVarArgs` frees them. -/
def concatFn (argc : Nat) : Body :=
  if argc = 0 then stringValue []
  else do
    match ← readVarArgs 0 argc with
    | none => null
    | some strings => do
      freeArgs 0 argc
      stringValue strings.flatten

def ifElseFn (argc : Nat) : Body :=
  if argc ≠ 2 ∧ argc ≠ 3 then failWith (Bytes.ascii "ifelse expects 2 or 3 arguments")
  else do
    match ← call (.evaluate 0) with
    | none => null
    | some cond =>
      if booleanString cond then do
        call (.free 0)
        call (.evaluateValue 1)
      else if argc = 3 then do
        call (.free 0)
        call (.evaluateValue 2)
      else stringValue cond

def abortFn (argc : Nat) : Body :=
  if argc > 0 then do
    match ← call (.evaluate 0) with
    | some msg => failWith msg
    | none => failWith (Bytes.ascii "called abort()")
  else failWith (Bytes.ascii "called abort()")

/-- The loop of `AssertFn` over `n` more arguments from `i` on. -/
def assertLoop : Nat → Nat → Body
  | 0, _ => stringValue []
  | n + 1, i => do
    match ← call (.evaluate i) with
    | none => null
    | some v => do
      call (.free i)
      if booleanString v then assertLoop n (i + 1)
      else do
        let src ← call (.source i)
        failWith (Bytes.ascii "assert failed: " ++ src)

def assertFn (argc : Nat) : Body := assertLoop argc 0

def sleepFn : Body := do
  match ← call (.evaluate 0) with
  | none => null
  | some val => do
    let _ ← sys "sleep" [] [strtol val]
    stringValue val

/-- The loop of `StdoutFn` over `n` more arguments from `i` on. -/
def stdoutLoop : Nat → Nat → Body
  | 0, _ => stringValue []
  | n + 1, i => do
    match ← call (.evaluate i) with
    | none => null
    | some v => do
      let _ ← sys "fputs" [v] []
      call (.free i)
      stdoutLoop n (i + 1)

def stdoutFn (argc : Nat) : Body := stdoutLoop argc 0

def logicalAndFn : Body := do
  match ← call (.evaluate 0) with
  | none => null
  | some left =>
    if booleanString left then do
      call (.free 0)
      call (.evaluateValue 1)
    else stringValue left

def logicalOrFn : Body := do
  match ← call (.evaluate 0) with
  | none => null
  | some left =>
    if booleanString left = false then do
      call (.free 0)
      call (.evaluateValue 1)
    else stringValue left

def logicalNotFn : Body := do
  match ← call (.evaluate 0) with
  | none => null
  | some val => do
    call (.free 0)
    stringValue (boolString (!booleanString val))

/-- The functions of two strings: `SubstringFn`, `EqualityFn` and `InequalityFn`. -/
def binaryFn (test : Bytes → Bytes → Bool) : Body := do
  match ← call (.evaluate 0) with
  | none => null
  | some left => do
    match ← call (.evaluate 1) with
    | none => do
      call (.free 0)
      null
    | some right => do
      call (.free 0)
      call (.free 1)
      stringValue (boolString (test left right))

def substringFn : Body := binaryFn fun needle haystack => needle <:+: haystack

def equalityFn : Body := binaryFn fun left right => left == right

def inequalityFn : Body := binaryFn fun left right => left != right

def sequenceFn : Body := do
  match ← call (.evaluateValue 0) with
  | none => null
  | some _ => do
    call (.free 0)
    call (.evaluateValue 1)

/-- What `strtol` leaves of a string. -/
def strtolEnd (str : Bytes) : Bytes :=
  let s := str.dropWhile fun c => c = 32 ∨ 9 ≤ c ∧ c ≤ 13
  let num := match s with
    | 45 :: s => s
    | 43 :: s => s
    | s => s
  let rest := num.dropWhile fun c => 48 ≤ c ∧ c ≤ 57
  if rest = num then str else rest

/-- The string is an `int` in whole: `s[0] != '\0'` and `strtol` reads it to its end. -/
def isInt (s : Bytes) : Bool := s != [] && strtolEnd s == []

def lessThanInt (left right : Bytes) : Bool := isInt left && isInt right && strtol left < strtol right

/-- `LessThanIntFn` behind the check of `argc`. -/
def lessThanIntBody : Body := do
  match ← readArgs 2 with
  | none => null
  | some args => do
    freeArgs 0 2
    stringValue (boolString (lessThanInt (args.getD 0 []) (args.getD 1 [])))

def lessThanIntFn (argc : Nat) : Body :=
  if argc ≠ 2 then failWith (Bytes.ascii "less_than_int expects 2 arguments") else lessThanIntBody

/-- The operation on the arguments `argv[σ(0)]`, `argv[σ(1)]`, ... -/
def EdifyOp.withArgv (σ : Nat → Nat) : {β : Type} → EdifyOp β → EdifyOp β
  | _, .evaluate i => .evaluate (σ i)
  | _, .evaluateValue i => .evaluateValue (σ i)
  | _, .free i => .free (σ i)
  | _, .source i => .source (σ i)
  | _, o => o

/-- A body that is called with other arguments. -/
def withArgv {α : Type} (σ : Nat → Nat) : Prog EdifyOp α → Prog EdifyOp α
  | .ret a => .ret a
  | .op o k => .op (o.withArgv σ) fun r => withArgv σ (k r)

/-- `temp[0] = argv[1]; temp[1] = argv[0]; return LessThanIntFn(name, state, 2, temp);` -/
def greaterThanIntFn (argc : Nat) : Body :=
  if argc ≠ 2 then failWith (Bytes.ascii "greater_than_int expects 2 arguments")
  else withArgv (fun i => 1 - i) (lessThanIntFn 2)

def literal (name : Bytes) : Body := stringValue name

/-- A function that is registered elsewhere, called as a leaf: it makes one call, whose reply says what
it returns and what message it leaves. -/
def externalFn (name : Bytes) : Body := do
  let r ← sys "external" [name] []
  if r.ret = 0 then stringValue r.data
  else if r.ret = 1 then pure (some (.blob r.data.length r.data))
  else if r.ret = 2 then failWith r.data
  else null

inductive EdifyFn
  | Literal
  | ConcatFn
  | LogicalAndFn
  | LogicalOrFn
  | LogicalNotFn
  | SubstringFn
  | EqualityFn
  | InequalityFn
  | SequenceFn
  | IfElseFn
  | AbortFn
  | AssertFn
  | StdoutFn
  | SleepFn
  | LessThanIntFn
  | GreaterThanIntFn
  | external
deriving DecidableEq

def EdifyFn.body (fn : EdifyFn) (name : Bytes) (argc : Nat) : Body :=
  match fn with
  | .Literal => literal name
  | .ConcatFn => concatFn argc
  | .LogicalAndFn => logicalAndFn
  | .LogicalOrFn => logicalOrFn
  | .LogicalNotFn => logicalNotFn
  | .SubstringFn => substringFn
  | .EqualityFn => equalityFn
  | .InequalityFn => inequalityFn
  | .SequenceFn => sequenceFn
  | .IfElseFn => ifElseFn argc
  | .AbortFn => abortFn argc
  | .AssertFn => assertFn argc
  | .StdoutFn => stdoutFn argc
  | .SleepFn => sleepFn
  | .LessThanIntFn => lessThanIntFn argc
  | .GreaterThanIntFn => greaterThanIntFn argc
  | .external => externalFn name

/-! ## Evaluation -/

inductive Expr
  | node (fn : EdifyFn) (name : Bytes) (argv : List Expr) (start stop : Nat)

/-- The state of an evaluation, and the calls made so far. -/
structure State where
  script : Bytes
  errmsg : Option Bytes
  trace : List Call
deriving DecidableEq

/-- How the calls are answered: a reply may depend on all calls before it. -/
abbrev World := List Call → Call → Reply

/-- `Evaluate` behind the call of the function: anything but a string is an error. -/
def asString : Option Value → State → Option Bytes × State
  | none, s => (none, s)
  | some (.string data), s => (some data, s)
  | some (.blob _ _), s =>
    (none, { s with errmsg := some (Bytes.ascii "expecting string, got value type 2") })

/-- An argument: its value in a state, and its place in the script. -/
structure Arg where
  eval : State → Option (Option Value × State)
  start : Nat
  stop : Nat

/-- The answers to the operations of a body; `none` where it reads outside `argv`, or dereferences
`NULL`. -/
def answer (w : World) (argv : List Arg) : ∀ β : Type, EdifyOp β → State → Option (β × State)
  | _, .evaluate i, s => do
    let (v, s) ← (← argv[i]?).eval s
    pure (asString v s)
  | _, .evaluateValue i, s => do (← argv[i]?).eval s
  | _, .free _, s => some ((), s)
  | _, .source i, s => do
    let arg ← argv[i]?
    pure ((s.script.drop arg.start).take (arg.stop - arg.start), s)
  | _, .setErrmsg msg, s => some ((), { s with errmsg := some msg })
  | _, .call c, s => some (w s.trace c, { s with trace := s.trace ++ [c] })
  | _, .crash, _ => none

mutual

/-- `EvaluateValue(state, expr)`; `none` where the evaluation crashes. -/
def evaluateValue (w : World) : Expr → State → Option (Option Value × State)
  | .node fn name argv _ _, s =>
    Prog.exec? (answer w (evaluators w argv)) (fn.body name argv.length) s

def evaluators (w : World) : List Expr → List Arg
  | [] => []
  | .node fn name argv start stop :: es =>
    ⟨fun s => evaluateValue w (.node fn name argv start stop) s, start, stop⟩ :: evaluators w es

end

theorem evaluators_length (w : World) : ∀ es : List Expr, (evaluators w es).length = es.length
  | [] => by rw [evaluators]; rfl
  | .node fn name argv start stop :: es => by
    rw [evaluators, List.length_cons, List.length_cons, evaluators_length w es]

end Edify
end Miui
