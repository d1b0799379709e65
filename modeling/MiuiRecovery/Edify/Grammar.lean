import MiuiRecovery.Edify.Lexer

/-!
# The grammar of edify

The rules of `parser.y` with the places that their actions give to the expressions. A parse of a script is a derivation
of an expression from its tokens; what is proved holds of every derivation, so it holds of the one that the precedences
of the operators pick.

* `Derives.placed`: every expression in a parse tree spans the tokens that it was derived from.
* `parse_source`: the text at the place of an expression has the tokens of that expression, and it parses to it.
-/

namespace Miui
namespace Edify

/-- The place of a symbol in the script. -/
structure YYLTYPE where
  start : Nat
  stop : Nat

/-- `$$->start = …; $$->end = …;` -/
def Expr.place (l : YYLTYPE) : Expr → Expr
  | .node fn name argv _ _ => .node fn name argv l.start l.stop

/-- `Build` -/
def build (fn : EdifyFn) (loc : YYLTYPE) (argv : List Expr) : Expr :=
  .node fn (Bytes.ascii "(operator)") argv loc.start loc.stop

/-- The function of an operator with two sides. -/
def operatorFn : Symbol → Option EdifyFn
  | .char 59 => some .SequenceFn
  | .char 43 => some .ConcatFn
  | .EQ => some .EqualityFn
  | .NE => some .InequalityFn
  | .AND => some .LogicalAndFn
  | .OR => some .LogicalOrFn
  | _ => none

mutual

/-- `expr`, with `@$`. The rule of `error` is left out, as no script with an error is run. `find` is `FindFunction`. -/
inductive Derives (find : Bytes → Option EdifyFn) : List Token → Expr → YYLTYPE → Prop
  | literal (str : Bytes) (a b : Nat) : Derives find [⟨.STRING str, a, b⟩] (.node .Literal str [] a b) ⟨a, b⟩
  | paren {ts : List Token} {e : Expr} {l : YYLTYPE} (a b c d : Nat) : Derives find ts e l →
    Derives find (⟨.char 40, a, b⟩ :: (ts ++ [⟨.char 41, c, d⟩])) (e.place ⟨a, d⟩) ⟨a, d⟩
  | last {ts : List Token} {e : Expr} {l : YYLTYPE} (a b : Nat) : Derives find ts e l →
    Derives find (ts ++ [⟨.char 59, a, b⟩]) (e.place l) ⟨l.start, b⟩
  | operator {ts us : List Token} {e e' : Expr} {l l' : YYLTYPE} {op : Symbol} {fn : EdifyFn} (a b : Nat) :
    operatorFn op = some fn → Derives find ts e l → Derives find us e' l' →
    Derives find (ts ++ ⟨op, a, b⟩ :: us) (build fn ⟨l.start, l'.stop⟩ [e, e']) ⟨l.start, l'.stop⟩
  | not {ts : List Token} {e : Expr} {l : YYLTYPE} (a b : Nat) : Derives find ts e l →
    Derives find (⟨.char 33, a, b⟩ :: ts) (build .LogicalNotFn ⟨a, l.stop⟩ [e]) ⟨a, l.stop⟩
  | ifThen {ts us : List Token} {e e' : Expr} {l l' : YYLTYPE} (a b c d x y : Nat) :
    Derives find ts e l → Derives find us e' l' →
    Derives find (⟨.IF, a, b⟩ :: (ts ++ ⟨.THEN, c, d⟩ :: (us ++ [⟨.ENDIF, x, y⟩])))
      (build .IfElseFn ⟨a, y⟩ [e, e']) ⟨a, y⟩
  | ifThenElse {ts us vs : List Token} {e e' e'' : Expr} {l l' l'' : YYLTYPE} (a b c d p q x y : Nat) :
    Derives find ts e l → Derives find us e' l' → Derives find vs e'' l'' →
    Derives find (⟨.IF, a, b⟩ :: (ts ++ ⟨.THEN, c, d⟩ :: (us ++ ⟨.ELSE, p, q⟩ :: (vs ++ [⟨.ENDIF, x, y⟩]))))
      (build .IfElseFn ⟨a, y⟩ [e, e', e'']) ⟨a, y⟩
  | call {ts : List Token} {argv : List Expr} {str : Bytes} {fn : EdifyFn} (a b c d x y : Nat) :
    find str = some fn → DerivesArgs find ts argv →
    Derives find (⟨.STRING str, a, b⟩ :: ⟨.char 40, c, d⟩ :: (ts ++ [⟨.char 41, x, y⟩])) (.node fn str argv a y) ⟨a, y⟩

/-- `arglist` -/
inductive DerivesArgs (find : Bytes → Option EdifyFn) : List Token → List Expr → Prop
  | empty : DerivesArgs find [] []
  | one {ts : List Token} {e : Expr} {l : YYLTYPE} : Derives find ts e l → DerivesArgs find ts [e]
  | more {ts us : List Token} {argv : List Expr} {e : Expr} {l : YYLTYPE} (a b : Nat) : DerivesArgs find ts argv →
    Derives find us e l → DerivesArgs find (ts ++ ⟨.char 44, a, b⟩ :: us) (argv ++ [e])

end

/-- The expressions of a tree. -/
inductive Expr.Has : Expr → Expr → Prop
  | self (e : Expr) : e.Has e
  | arg {fn : EdifyFn} {name : Bytes} {argv : List Expr} {start stop : Nat} {e n : Expr} : e ∈ argv → e.Has n →
    Expr.Has (.node fn name argv start stop) n

variable {find : Bytes → Option EdifyFn} {ts us : List Token} {e n : Expr} {l : YYLTYPE}

/-- The tokens of an expression have the place `l`. -/
structure Spans (ts : List Token) (l : YYLTYPE) : Prop where
  first : ts.head?.map (·.start) = some l.start
  last : ts.getLast?.map (·.stop) = some l.stop

/-- The expression `n` was derived from some of the tokens `ts`, and has their place. -/
def Source (find : Bytes → Option EdifyFn) (ts : List Token) (n : Expr) : Prop :=
  ∃ pre us post m l l', ts = pre ++ us ++ post ∧ Spans us l ∧ Derives find us m l' ∧ n = m.place l

theorem Source.inside (h : Source find us n) (pre post : List Token) (hts : ts = pre ++ (us ++ post)) :
    Source find ts n := by
  obtain ⟨pre', vs, post', m, l, l', rfl, hspans, hderives, hn⟩ := h
  refine ⟨pre ++ pre', vs, post' ++ post, m, l, l', ?_, hspans, hderives, hn⟩
  rw [hts, List.append_assoc, List.append_assoc, List.append_assoc, List.append_assoc]

theorem has_node {fn : EdifyFn} {name : Bytes} {argv : List Expr} {start stop : Nat}
    (h : Expr.Has (.node fn name argv start stop) n) :
    n = .node fn name argv start stop ∨ ∃ a ∈ argv, a.Has n := by
  cases h with
  | self _ => exact .inl rfl
  | arg ha h => exact .inr ⟨_, ha, h⟩

theorem has_place (h : (e.place l).Has n) : n = e.place l ∨ e.Has n := by
  obtain ⟨fn, name, argv, start, stop⟩ := e
  refine (has_node h).imp_right ?_
  rintro ⟨a, ha, hn⟩
  exact .arg ha hn

theorem Spans.first_append (h : Spans ts l) (us : List Token) : (ts ++ us).head?.map (·.start) = some l.start := by
  obtain ⟨hfirst, _⟩ := h
  cases ts with
  | nil => cases hfirst
  | cons t ts => exact hfirst

theorem Spans.append_last (h : Spans us l) (ts : List Token) : (ts ++ us).getLast?.map (·.stop) = some l.stop := by
  obtain ⟨_, hlast⟩ := h
  rw [List.getLast?_append]
  cases hus : us.getLast? with
  | none =>
    rw [hus] at hlast
    cases hlast
  | some t =>
    rw [hus] at hlast
    exact hlast

/-- Behind the first token of an expression, what ends with `t`. -/
theorem spans_between (t : Token) (ts : List Token) (t' : Token) : Spans (t :: (ts ++ [t'])) ⟨t.start, t'.stop⟩ := by
  refine ⟨rfl, ?_⟩
  rw [← List.cons_append, List.getLast?_append]
  rfl

theorem source_self {l' : YYLTYPE} (hspans : Spans ts l) (h : Derives find ts e l') : Source find ts (e.place l) :=
  ⟨[], ts, [], e, l, l', (List.append_nil _).symm, hspans, h, rfl⟩

theorem place_place (e : Expr) (l l' : YYLTYPE) : (e.place l).place l' = e.place l' := by
  obtain ⟨fn, name, argv, start, stop⟩ := e
  rfl

/-- The place of a derivation is that of its tokens, and so is the place of every expression in its tree. -/
structure Placed (find : Bytes → Option EdifyFn) (ts : List Token) (e : Expr) (l : YYLTYPE) : Prop where
  spans : Spans ts l
  sources : ∀ n, e.Has n → Source find ts n

theorem placed_node {fn : EdifyFn} {name : Bytes} {argv : List Expr} (hspans : Spans ts l)
    (h : Derives find ts (.node fn name argv l.start l.stop) l)
    (hargs : ∀ a ∈ argv, ∀ n, a.Has n → Source find ts n) : Placed find ts (.node fn name argv l.start l.stop) l := by
  refine ⟨hspans, fun n hn => ?_⟩
  rcases has_node hn with rfl | ⟨a, ha, hn⟩
  · exact source_self hspans h
  · exact hargs a ha n hn

theorem Derives.placed (h : Derives find ts e l) : Placed find ts e l := by
  refine @Derives.rec find (fun ts e l _ => Placed find ts e l)
    (fun ts argv _ => ∀ a ∈ argv, ∀ n, a.Has n → Source find ts n)
    ?literal ?paren ?last ?operator ?not ?ifThen ?ifThenElse ?call ?empty ?one ?more ts e l h
  case literal =>
    intro str a b
    refine placed_node (l := ⟨a, b⟩) ⟨rfl, rfl⟩ (.literal str a b) ?_
    intro x hx
    cases hx
  case paren =>
    intro ts e l a b c d h ih
    have hspans := spans_between ⟨.char 40, a, b⟩ ts ⟨.char 41, c, d⟩
    refine ⟨hspans, fun n hn => ?_⟩
    rcases has_place hn with rfl | hn
    · rw [← place_place]
      exact source_self hspans (.paren a b c d h)
    · exact (ih.sources n hn).inside [_] [_] rfl
  case last =>
    intro ts e l a b h ih
    refine ⟨⟨ih.spans.first_append _, ?_⟩, fun n hn => ?_⟩
    · rw [List.getLast?_append]
      rfl
    · -- The `;` is not part of the place.
      rcases has_place hn with rfl | hn
      · exact (source_self ih.spans h).inside [] [_] rfl
      · exact (ih.sources n hn).inside [] [_] rfl
  case operator =>
    intro ts us e e' l l' op fn a b hop h h' ih ih'
    refine placed_node (l := ⟨l.start, l'.stop⟩) ⟨ih.spans.first_append _, ?_⟩ (.operator a b hop h h') ?_
    · rw [List.append_cons]
      exact ih'.spans.append_last _
    · intro x hx n hn
      rcases List.mem_pair.mp hx with rfl | rfl
      · exact (ih.sources n hn).inside [] _ rfl
      · exact (ih'.sources n hn).inside (ts ++ [⟨op, a, b⟩]) [] (by simp)
  case not =>
    intro ts e l a b h ih
    refine placed_node (l := ⟨a, l.stop⟩) ⟨rfl, ih.spans.append_last [_]⟩ (.not a b h) ?_
    intro x hx n hn
    cases List.mem_singleton.mp hx
    exact (ih.sources n hn).inside [⟨.char 33, a, b⟩] [] (by simp)
  case ifThen =>
    intro ts us e e' l l' a b c d x y h h' ih ih'
    have hspans := spans_between ⟨.IF, a, b⟩ (ts ++ ⟨.THEN, c, d⟩ :: us) ⟨.ENDIF, x, y⟩
    rw [List.append_assoc] at hspans
    refine placed_node (l := ⟨a, y⟩) hspans (.ifThen a b c d x y h h') ?_
    intro z hz n hn
    rcases List.mem_pair.mp hz with rfl | rfl
    · exact (ih.sources n hn).inside [⟨.IF, a, b⟩] _ rfl
    · exact (ih'.sources n hn).inside (⟨.IF, a, b⟩ :: (ts ++ [⟨.THEN, c, d⟩])) [⟨.ENDIF, x, y⟩] (by simp)
  case ifThenElse =>
    intro ts us vs e e' e'' l l' l'' a b c d p q x y h h' h'' ih ih' ih''
    have hspans := spans_between ⟨.IF, a, b⟩ (ts ++ ⟨.THEN, c, d⟩ :: (us ++ ⟨.ELSE, p, q⟩ :: vs)) ⟨.ENDIF, x, y⟩
    rw [List.append_assoc, List.cons_append, List.append_assoc] at hspans
    refine placed_node (l := ⟨a, y⟩) hspans (.ifThenElse a b c d p q x y h h' h'') ?_
    intro z hz n hn
    rcases List.mem_cons.mp hz with rfl | hz
    · exact (ih.sources n hn).inside [⟨.IF, a, b⟩] _ rfl
    rcases List.mem_pair.mp hz with rfl | rfl
    · exact (ih'.sources n hn).inside (⟨.IF, a, b⟩ :: (ts ++ [⟨.THEN, c, d⟩])) (⟨.ELSE, p, q⟩ :: (vs ++ [⟨.ENDIF, x, y⟩]))
        (by simp)
    · exact (ih''.sources n hn).inside (⟨.IF, a, b⟩ :: (ts ++ ⟨.THEN, c, d⟩ :: (us ++ [⟨.ELSE, p, q⟩])))
        [⟨.ENDIF, x, y⟩] (by simp)
  case call =>
    intro ts argv str fn a b c d x y hfind h ih
    have hspans := spans_between ⟨.STRING str, a, b⟩ (⟨.char 40, c, d⟩ :: ts) ⟨.char 41, x, y⟩
    refine placed_node (l := ⟨a, y⟩) hspans (.call a b c d x y hfind h) ?_
    intro z hz n hn
    exact (ih z hz n hn).inside [⟨.STRING str, a, b⟩, ⟨.char 40, c, d⟩] [⟨.char 41, x, y⟩] rfl
  case empty =>
    intro a ha
    cases ha
  case one =>
    intro ts e l h ih a ha
    cases List.mem_singleton.mp ha
    exact ih.sources
  case more =>
    intro ts us argv e l a b h h' ih ih' x hx n hn
    rcases List.mem_append.mp hx with hx | hx
    · exact (ih x hx n hn).inside [] _ rfl
    · cases List.mem_singleton.mp hx
      exact (ih'.sources n hn).inside (ts ++ [⟨.char 44, a, b⟩]) [] (by simp)

/-- The text at the place of an expression has the tokens that the expression was derived from. -/
theorem Source.text {script : Bytes} (hlex : lex script = some ts) (h : Source find ts n) :
    ∃ l us m l', n = m.place l ∧ l.start ≤ l.stop ∧ l.stop ≤ script.length ∧
      lexAt l.start ((script.drop l.start).take (l.stop - l.start)) = some us ∧ Derives find us m l' := by
  obtain ⟨pre, us, post, m, l, l', rfl, ⟨hfirst, hlast⟩, hderives, rfl⟩ := h
  obtain ⟨first, hhead, hstart⟩ := Option.map_eq_some_iff.mp hfirst
  obtain ⟨last, hend, hstop⟩ := Option.map_eq_some_iff.mp hlast
  obtain ⟨hle, hlen, hslice⟩ := (lexAt_iff.mp hlex).slice hhead hend
  rw [hstart, hstop] at hslice hle
  rw [hstop] at hlen
  exact ⟨l, us, m, l', rfl, hle, hlen, lexAt_iff.mpr hslice, hderives⟩

/-- In the parse of a script, the place of every expression lies in the script, and the text there, taken by itself,
has tokens that parse to that expression. -/
theorem parse_source {script : Bytes} (hlex : lex script = some ts) (hparse : Derives find ts e l) (hn : e.Has n) :
    ∃ l us m l', n = m.place l ∧ l.start ≤ l.stop ∧ l.stop ≤ script.length ∧
      lexAt l.start ((script.drop l.start).take (l.stop - l.start)) = some us ∧ Derives find us m l' :=
  (hparse.placed.sources n hn).text hlex

def smallScript : Bytes := Bytes.ascii "assert(a == b); c"

def smallTable (name : Bytes) : Option EdifyFn := if name = Bytes.ascii "assert" then some .AssertFn else none

def smallTest : Expr :=
  build .EqualityFn ⟨7, 13⟩ [.node .Literal (Bytes.ascii "a") [] 7 8, .node .Literal (Bytes.ascii "b") [] 12 13]

def smallAssert : Expr := .node .AssertFn (Bytes.ascii "assert") [smallTest] 0 14

def smallTokens : List Token :=
  [⟨.STRING (Bytes.ascii "assert"), 0, 6⟩, ⟨.char 40, 6, 7⟩, ⟨.STRING (Bytes.ascii "a"), 7, 8⟩, ⟨.EQ, 9, 11⟩,
    ⟨.STRING (Bytes.ascii "b"), 12, 13⟩, ⟨.char 41, 13, 14⟩, ⟨.char 59, 14, 15⟩, ⟨.STRING (Bytes.ascii "c"), 16, 17⟩]

theorem smallScript_tokens : lex smallScript = some smallTokens := by decide

theorem smallScript_derives : Derives smallTable smallTokens
    (build .SequenceFn ⟨0, 17⟩ [smallAssert, .node .Literal (Bytes.ascii "c") [] 16 17]) ⟨0, 17⟩ :=
  .operator 14 15 rfl
    (.call 0 6 6 7 13 14 (by decide)
      (.one (.operator 9 11 rfl (.literal (Bytes.ascii "a") 7 8) (.literal (Bytes.ascii "b") 12 13))))
    (.literal (Bytes.ascii "c") 16 17)

theorem parse_source_small : ∃ l us m l', smallTest = m.place l ∧ l.start ≤ l.stop ∧ l.stop ≤ smallScript.length ∧
    lexAt l.start ((smallScript.drop l.start).take (l.stop - l.start)) = some us ∧ Derives smallTable us m l' :=
  parse_source smallScript_tokens smallScript_derives (.arg List.mem_cons_self (.arg List.mem_cons_self (.self smallTest)))

/-! ## The message of assert -/

theorem Expr.Has.trans {a : Expr} (h : e.Has n) (ha : n.Has a) : e.Has a := by
  induction h with
  | self _ => exact ha
  | arg hmem _ ih => exact .arg hmem (ih ha)

theorem evaluators_place (w : World) {argv : List Expr} {i : Nat} (hi : i < argv.length) {m : Expr}
    (hm : argv[i] = m.place l) : ∃ eval, (evaluators w argv)[i]? = some ⟨eval, l.start, l.stop⟩ := by
  induction argv generalizing i with
  | nil => cases hi
  | cons e es ih =>
    obtain ⟨fn, name, args, start, stop⟩ := e
    rw [evaluators]
    cases i with
    | zero =>
      obtain ⟨fn', name', args', start', stop'⟩ := m
      cases hm
      exact ⟨_, rfl⟩
    | succ i => exact ih (Nat.lt_of_succ_lt_succ hi) hm

/-- What `AssertFn` copies of the argument at `i`. -/
theorem answer_source (w : World) {argv : List Expr} {i : Nat} (hi : i < argv.length) {m : Expr}
    (hm : argv[i] = m.place l) (s : State) : answer w (evaluators w argv) _ (.source i) s =
      some ((s.script.drop l.start).take (l.stop - l.start), s) := by
  obtain ⟨eval, hget⟩ := evaluators_place w hi hm
  rw [answer, hget]
  rfl

/-- The text that a failed `assert` shows lies in the script, and it is the text of the argument that failed. -/
theorem assert_source {script : Bytes} (hlex : lex script = some ts) (hparse : Derives find ts e l) {name : Bytes}
    {argv : List Expr} {start stop : Nat} (hn : e.Has (.node .AssertFn name argv start stop)) (w : World) {s : State}
    (hs : s.script = script) {i : Nat} (hi : i < argv.length) :
    ∃ src us m l l', answer w (evaluators w argv) _ (.source i) s = some (src, s) ∧ src.length = l.stop - l.start ∧
      argv[i] = m.place l ∧ lexAt l.start src = some us ∧ Derives find us m l' := by
  have harg := hn.trans (.arg (List.getElem_mem hi) (.self argv[i]))
  obtain ⟨l, us, m, l', hm, hle, hlen, htext, hderives⟩ := (hparse.placed.sources _ harg).text hlex
  refine ⟨_, us, m, l, l', answer_source w hi hm s, ?_, hm, ?_, hderives⟩
  · rw [hs, List.length_take, List.length_drop]
    omega
  · rw [hs]
    exact htext

def smallWorld : World := fun _ _ => ⟨0, []⟩

theorem assert_source_small : ∃ src us m l l',
    answer smallWorld (evaluators smallWorld [smallTest]) _ (.source 0) ⟨smallScript, none, []⟩ =
      some (src, ⟨smallScript, none, []⟩) ∧ src.length = l.stop - l.start ∧
      [smallTest][0] = m.place l ∧ lexAt l.start src = some us ∧ Derives smallTable us m l' :=
  assert_source smallScript_tokens smallScript_derives (.arg List.mem_cons_self (.self smallAssert)) smallWorld rfl
    (Nat.succ_pos 0)

end Edify
end Miui
