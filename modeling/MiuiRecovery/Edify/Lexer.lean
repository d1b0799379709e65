import MiuiRecovery.Edify.Expr

/-!
# The lexer of edify

The rules of `lexer.l`: in each start condition the longest match is taken, and the first rule of two that match as
much. `yylval` and `yylloc` of a token are its symbol and its place in the script.

* `scan_take`: a rule needs no more of the script than it takes, so it takes the same of a part of the script.
* `Lexes.drop`, `Lexes.take`, `Lexes.slice`: the text from one token to another has the tokens between them.
* `lex_quote_iff`: a quoted string is read as what it stands for exactly if it fits into the buffer.
-/

namespace Miui
namespace Edify

def MAX_STRING_LEN : Nat := 1024

/-- What `yylex` returns, with `yylval`. -/
inductive Symbol
  | AND
  | OR
  | EQ
  | NE
  | IF
  | THEN
  | ELSE
  | ENDIF
  | STRING (str : Bytes)
  | char (c : UInt8)
  | BAD
deriving DecidableEq

/-- A symbol with `yylloc`. -/
structure Token where
  symbol : Symbol
  start : Nat
  stop : Nat
deriving DecidableEq

/-- `[a-zA-Z0-9_:/.]` -/
def isWord (c : UInt8) : Bool := (97 ≤ c ∧ c ≤ 122) ∨ (65 ≤ c ∧ c ≤ 90) ∨ (46 ≤ c ∧ c ≤ 58) ∨ c = 95

/-- A word, or a keyword. -/
def wordSymbol (word : Bytes) : Symbol :=
  if word = Bytes.ascii "if" then .IF
  else if word = Bytes.ascii "then" then .THEN
  else if word = Bytes.ascii "else" then .ELSE
  else if word = Bytes.ascii "endif" then .ENDIF
  else .STRING word

/-! ## Strings -/

/-- `\\x[0-9a-fA-F]{2}` behind the backslash. -/
def hexEscape : Bytes → Option UInt8
  | 120 :: a :: b :: _ => do
    let high ← hexDigit a
    let low ← hexDigit b
    return 16 * high + low
  | _ => none

/-- What the rule of the start condition `STR` for a text behind a backslash appends, and how much it takes. -/
def escape (text : Bytes) : UInt8 × Nat :=
  if text.head? = some 110 then (10, 2)
  else if text.head? = some 116 then (9, 2)
  else if text.head? = some 34 then (34, 2)
  else if text.head? = some 92 then (92, 2)
  else match hexEscape text with
    | some val => (val, 4)
    | none => (92, 1)

/-- The rules of `STR`, with fuel for the rounds: what they append, and where the quote is that ends the string. -/
def stringRules : Nat → Bytes → Bytes × Option Nat
  | 0, _ => ([], none)
  | _ + 1, [] => ([], none)
  | fuel + 1, c :: text =>
    if c = 34 then ([], some 1)
    else
      let r := if c = 92 then escape text else (c, 1)
      let more := stringRules fuel ((c :: text).drop r.2)
      (r.1 :: more.1, more.2.map (r.2 + ·))

/-! ## One rule -/

/-- What a rule does: it ends the script, writes behind `string_buffer`, takes `n` bytes, or returns a symbol for
them. -/
inductive Rule
  | eof
  | overflow
  | skip (n : Nat)
  | symbol (s : Symbol) (n : Nat)
deriving DecidableEq

/-- The rules from the opening quote of a string to its end. A string that has no end is dropped with the rest of the
script. -/
def stringRule (text : Bytes) : Rule :=
  let r := stringRules text.length text
  match r.2 with
  | none => if r.1.length ≤ MAX_STRING_LEN then .eof else .overflow
  | some n => if r.1.length < MAX_STRING_LEN then .symbol (.STRING (CString.cstr r.1)) (1 + n) else .overflow

/-- `[a-zA-Z0-9_:/.]+` and the keywords, behind the first byte. -/
def wordRule (c : UInt8) (text : Bytes) : Rule :=
  .symbol (wordSymbol (c :: text.takeWhile isWord)) (1 + (text.takeWhile isWord).length)

/-- `[ \t]+` behind the first byte. -/
def blankRule (text : Bytes) : Rule := .skip (1 + (text.takeWhile fun b => b = 32 ∨ b = 9).length)

/-- `(#.*)?\n` behind the `#`; without a newline it is `BAD`. -/
def commentRule (text : Bytes) : Rule :=
  let comment := text.takeWhile (· != 10)
  if comment.length < text.length then .skip (1 + (comment.length + 1)) else .symbol .BAD 1

/-- A rule of two characters behind the first, with the symbol `s`, or the symbol of one character. -/
def pairRule (c : UInt8) (s one : Symbol) (text : Bytes) : Rule :=
  if text.head? = some c then .symbol s 2 else .symbol one 1

/-- The rules that match at a character, as they go on behind it. -/
def rules (c : UInt8) : Bytes → Rule :=
  if c = 34 then stringRule
  else if isWord c then wordRule c
  else if c = 32 ∨ c = 9 then blankRule
  else if c = 10 then fun _ => .skip 1
  else if c = 35 then commentRule
  else if c = 38 then pairRule 38 .AND .BAD
  else if c = 124 then pairRule 124 .OR .BAD
  else if c = 61 then pairRule 61 .EQ .BAD
  else if c = 33 then pairRule 61 .NE (.char 33)
  else if c = 43 ∨ c = 40 ∨ c = 44 ∨ c = 41 ∨ c = 59 then fun _ => .symbol (.char c) 1
  else fun _ => .symbol .BAD 1

/-- The rule that matches at the head of the script. -/
def scan : Bytes → Rule
  | [] => .eof
  | c :: text => rules c text

/-- The tokens of the script from `gPos` on; `none` where `string_buffer` is too short. -/
def lexLoop : Nat → Nat → Bytes → Option (List Token)
  | 0, _, _ => some []
  | fuel + 1, gPos, text => match scan text with
    | .eof => some []
    | .overflow => none
    | .skip n => lexLoop fuel (gPos + n) (text.drop n)
    | .symbol s n => do
      let tokens ← lexLoop fuel (gPos + n) (text.drop n)
      return ⟨s, gPos, gPos + n⟩ :: tokens

/-- The tokens of a text at `gPos`. -/
def lexAt (gPos : Nat) (text : Bytes) : Option (List Token) := lexLoop text.length gPos text

def lex (script : Bytes) : Option (List Token) := lexAt 0 script

variable {text : Bytes} {s : Symbol} {n m gPos : Nat} {ts : List Token}

/-! ## A rule needs no more than it takes -/

theorem takeWhile_take {p : UInt8 → Bool} (h : (text.takeWhile p).length ≤ m) :
    (text.take m).takeWhile p = text.takeWhile p := by
  induction text generalizing m with
  | nil => rw [List.take_nil]
  | cons c text ih =>
    cases m with
    | zero =>
      rw [List.take_zero, List.takeWhile_nil]
      exact (List.eq_nil_of_length_eq_zero (Nat.le_zero.mp h)).symm
    | succ m =>
      rw [List.take_succ_cons]
      by_cases hc : p c = true
      · rw [List.takeWhile_cons_of_pos hc] at h
        rw [List.takeWhile_cons_of_pos hc, List.takeWhile_cons_of_pos hc, ih (Nat.le_of_succ_le_succ h)]
      · rw [List.takeWhile_cons_of_neg hc, List.takeWhile_cons_of_neg hc]

theorem head?_take_pos (hm : 0 < m) : (text.take m).head? = text.head? := by
  rw [List.head?_take, if_neg hm.ne']

theorem hexEscape_take {val : UInt8} (h : hexEscape (text.take m) = some val) : hexEscape text = some val := by
  unfold hexEscape at h
  split at h
  case h_1 a b rest heq =>
    have htext : text = (120 :: a :: b :: rest) ++ text.drop m := by rw [← heq, List.take_append_drop]
    rw [htext]
    exact h
  case h_2 => cases h

theorem escape_take (h : (escape text).2 ≤ m) (hm : 0 < m) : escape (text.take m) = escape text := by
  unfold escape at h ⊢
  rw [head?_take_pos hm]
  by_cases hn : text.head? = some 110
  · rw [if_pos hn, if_pos hn]
  by_cases ht : text.head? = some 116
  · rw [if_neg hn, if_pos ht, if_neg hn, if_pos ht]
  by_cases hq : text.head? = some 34
  · rw [if_neg hn, if_neg ht, if_pos hq, if_neg hn, if_neg ht, if_pos hq]
  by_cases hb : text.head? = some 92
  · rw [if_neg hn, if_neg ht, if_neg hq, if_pos hb, if_neg hn, if_neg ht, if_neg hq, if_pos hb]
  rw [if_neg hn, if_neg ht, if_neg hq, if_neg hb] at h ⊢
  rw [if_neg hn, if_neg ht, if_neg hq, if_neg hb]
  cases hhex : hexEscape text with
  | some val =>
    rw [hhex] at h
    have htake : hexEscape (text.take m) = some val := by
      unfold hexEscape at hhex
      split at hhex
      case h_1 a b rest =>
        obtain ⟨j, rfl⟩ : ∃ j, m = j + 3 := ⟨m - 3, by dsimp only at h; omega⟩
        exact hhex
      case h_2 => cases hhex
    rw [htake]
  | none =>
    have htake : hexEscape (text.take m) = none := by
      rw [Option.eq_none_iff_forall_ne_some]
      intro val hval
      cases hhex.symm.trans (hexEscape_take hval)
    rw [htake]

theorem escape_pos (text : Bytes) : 0 < (escape text).2 := by
  unfold escape
  split_ifs
  · exact Nat.two_pos
  · exact Nat.two_pos
  · exact Nat.two_pos
  · exact Nat.two_pos
  · cases hexEscape text with
    | some val => exact Nat.succ_pos 3
    | none => exact Nat.one_pos

theorem stringRules_take {fuel : Nat} {v : Bytes} (h : stringRules fuel text = (v, some n)) :
    0 < n ∧ n ≤ text.length ∧
      ∀ {m fuel'}, n ≤ m → n ≤ fuel' → stringRules fuel' (text.take m) = (v, some n) := by
  induction fuel generalizing text v n with
  | zero => cases h
  | succ fuel ih =>
    cases text with
    | nil => cases h
    | cons c text =>
      rw [stringRules] at h
      by_cases hc : c = 34
      · rw [if_pos hc] at h
        cases h
        refine ⟨Nat.one_pos, Nat.succ_pos _, ?_⟩
        intro m fuel' hm hfuel
        obtain ⟨m, rfl⟩ := Nat.exists_eq_add_of_le' hm
        obtain ⟨fuel', rfl⟩ := Nat.exists_eq_add_of_le' hfuel
        rw [List.take_succ_cons, stringRules, if_pos hc]
      rw [if_neg hc] at h
      dsimp only at h
      have hpos : 0 < (if c = 92 then escape text else (c, 1)).2 := by
        by_cases hesc : c = 92
        · rw [if_pos hesc]
          exact escape_pos text
        · rw [if_neg hesc]
          exact Nat.one_pos
      obtain ⟨hv, hn⟩ := Prod.mk.inj h
      obtain ⟨k, hk, rfl⟩ := Option.map_eq_some_iff.mp hn
      obtain ⟨hkpos, hklen, hmore⟩ := ih (Prod.ext rfl hk)
      rw [List.length_drop] at hklen
      refine ⟨Nat.add_pos_left hpos k, by omega, ?_⟩
      intro m fuel' hm hfuel
      obtain ⟨m, rfl⟩ := Nat.exists_eq_add_of_le' (show 1 ≤ m by omega)
      obtain ⟨fuel', rfl⟩ := Nat.exists_eq_add_of_le' (show 1 ≤ fuel' by omega)
      have hrule : (if c = 92 then escape (text.take m) else (c, 1)) = if c = 92 then escape text else (c, 1) := by
        by_cases hesc : c = 92
        · rw [if_pos hesc] at hm hpos ⊢
          rw [if_pos hesc]
          exact escape_take (by omega) (by omega)
        · rw [if_neg hesc, if_neg hesc]
      rw [List.take_succ_cons, stringRules, if_neg hc]
      dsimp only
      rw [hrule, ← List.take_succ_cons, List.drop_take, hmore (by omega) (by omega), ← hv]
      rfl

/-- How much a rule takes. -/
def Rule.taken : Rule → Option Nat
  | .eof => none
  | .overflow => none
  | .skip n => some n
  | .symbol _ n => some n

/-- Behind its first character a rule takes what it needs of the text, and needs no more. -/
def Local (r : Bytes → Rule) : Prop :=
  ∀ text n, (r text).taken = some n →
    ∃ k, n = 1 + k ∧ k ≤ text.length ∧ ∀ {m}, k ≤ m → r (text.take m) = r text

theorem stringRule_local : Local stringRule := by
  intro text n h
  unfold stringRule at h
  dsimp only at h
  cases hr : (stringRules text.length text).2 with
  | none =>
    rw [hr] at h
    dsimp only at h
    split_ifs at h <;> cases h
  | some k =>
    rw [hr] at h
    dsimp only at h
    have hk : 1 + k = n := by
      split_ifs at h
      · exact Option.some.inj h
      · cases h
    obtain ⟨_, hle, htake⟩ := stringRules_take (v := (stringRules text.length text).1) (Prod.ext rfl hr)
    refine ⟨k, hk.symm, hle, fun {m} hm => ?_⟩
    have hlen : k ≤ (text.take m).length := by
      rw [List.length_take]
      exact Nat.le_min.mpr ⟨hm, hle⟩
    unfold stringRule
    dsimp only
    rw [htake hm hlen, hr]

theorem wordRule_local (c : UInt8) : Local (wordRule c) := by
  intro text n h
  refine ⟨_, (Option.some.inj h).symm, (List.takeWhile_prefix _).length_le, fun {m} hm => ?_⟩
  rw [wordRule, wordRule, takeWhile_take hm]

theorem blankRule_local : Local blankRule := by
  intro text n h
  refine ⟨_, (Option.some.inj h).symm, (List.takeWhile_prefix _).length_le, fun {m} hm => ?_⟩
  rw [blankRule, blankRule, takeWhile_take hm]

theorem commentRule_local : Local commentRule := by
  intro text n h
  unfold commentRule at h ⊢
  dsimp only at h ⊢
  by_cases hline : (text.takeWhile (· != 10)).length < text.length
  · rw [if_pos hline] at h
    refine ⟨_, (Option.some.inj h).symm, hline, fun {m} hm => ?_⟩
    rw [takeWhile_take (by omega), if_pos hline, if_pos]
    rw [List.length_take]
    omega
  · rw [if_neg hline] at h
    refine ⟨0, (Option.some.inj h).symm, Nat.zero_le _, fun {m} _ => ?_⟩
    have hall : (text.take m).takeWhile (· != 10) = text.take m := by
      rw [List.takeWhile_eq_self_iff]
      intro c hc
      have hwhole : text.takeWhile (· != 10) = text := by
        refine (List.takeWhile_prefix _).eq_of_length ?_
        exact Nat.le_antisymm (List.takeWhile_prefix _).length_le (Nat.le_of_not_lt hline)
      exact List.takeWhile_eq_self_iff.mp hwhole c (List.mem_of_mem_take hc)
    rw [hall, if_neg (Nat.lt_irrefl _), if_neg hline]

theorem pairRule_local (c : UInt8) (s one : Symbol) : Local (pairRule c s one) := by
  intro text n h
  unfold pairRule at h ⊢
  by_cases hhead : text.head? = some c
  · rw [if_pos hhead] at h
    refine ⟨1, (Option.some.inj h).symm, ?_, fun {m} hm => ?_⟩
    · cases text with
      | nil => cases hhead
      | cons b text => exact Nat.succ_pos _
    · rw [head?_take_pos hm]
  · rw [if_neg hhead] at h
    refine ⟨0, (Option.some.inj h).symm, Nat.zero_le _, fun {m} _ => ?_⟩
    have htake : (text.take m).head? ≠ some c := by
      rw [List.head?_take]
      split_ifs
      · simp
      · exact hhead
    rw [if_neg htake, if_neg hhead]

theorem rules_local (c : UInt8) : Local (rules c) := by
  have hconst {r : Rule} (hr : r.taken = some 1) : Local fun _ => r := by
    intro text n h
    exact ⟨0, Option.some.inj (h.symm.trans hr), Nat.zero_le _, fun _ => rfl⟩
  unfold rules
  split_ifs
  · exact stringRule_local
  · exact wordRule_local c
  · exact blankRule_local
  · exact hconst rfl
  · exact commentRule_local
  · exact pairRule_local _ _ _
  · exact pairRule_local _ _ _
  · exact pairRule_local _ _ _
  · exact pairRule_local _ _ _
  · exact hconst rfl
  · exact hconst rfl

theorem scan_take (h : (scan text).taken = some n) :
    0 < n ∧ n ≤ text.length ∧ ∀ {m}, n ≤ m → scan (text.take m) = scan text := by
  cases text with
  | nil => cases h
  | cons c text =>
    obtain ⟨k, rfl, hlen, htake⟩ := rules_local c text n h
    refine ⟨by omega, by rw [List.length_cons]; omega, fun {m} hm => ?_⟩
    obtain ⟨m, rfl⟩ := Nat.exists_eq_add_of_le' (show 1 ≤ m by omega)
    exact htake (by omega)

/-! ## Tokens -/

/-- The tokens of a text at `gPos`, rule by rule. -/
inductive Lexes : Nat → Bytes → List Token → Prop
  | eof {gPos : Nat} {text : Bytes} : scan text = .eof → Lexes gPos text []
  | skip {gPos n : Nat} {text : Bytes} {ts : List Token} :
    scan text = .skip n → Lexes (gPos + n) (text.drop n) ts → Lexes gPos text ts
  | symbol {gPos n : Nat} {text : Bytes} {s : Symbol} {ts : List Token} :
    scan text = .symbol s n → Lexes (gPos + n) (text.drop n) ts → Lexes gPos text (⟨s, gPos, gPos + n⟩ :: ts)

theorem taken_skip (h : scan text = .skip n) : (scan text).taken = some n := by rw [h]; rfl

theorem taken_symbol (h : scan text = .symbol s n) : (scan text).taken = some n := by rw [h]; rfl

theorem lexLoop_iff {fuel : Nat} (hfuel : text.length ≤ fuel) : lexLoop fuel gPos text = some ts ↔ Lexes gPos text ts := by
  induction fuel generalizing gPos text ts with
  | zero =>
    rw [List.eq_nil_of_length_eq_zero (Nat.le_zero.mp hfuel)]
    constructor
    · rintro ⟨⟩
      exact .eof rfl
    · intro h
      cases h with
      | eof _ => rfl
      | skip hscan _ => cases hscan
      | symbol hscan _ => cases hscan
  | succ fuel ih =>
    rw [lexLoop]
    cases hscan : scan text with
    | eof =>
      constructor
      · rintro ⟨⟩
        exact .eof hscan
      · intro h
        cases h with
        | eof _ => rfl
        | skip hscan' _ => cases hscan.symm.trans hscan'
        | symbol hscan' _ => cases hscan.symm.trans hscan'
    | overflow =>
      constructor
      · rintro ⟨⟩
      · intro h
        cases h with
        | eof hscan' => cases hscan.symm.trans hscan'
        | skip hscan' _ => cases hscan.symm.trans hscan'
        | symbol hscan' _ => cases hscan.symm.trans hscan'
    | skip n =>
      obtain ⟨hpos, hlen, _⟩ := scan_take (taken_skip hscan)
      have hrest : (text.drop n).length ≤ fuel := by
        rw [List.length_drop]
        omega
      dsimp only
      rw [ih hrest]
      constructor
      · exact .skip hscan
      · intro h
        cases h with
        | eof hscan' => cases hscan.symm.trans hscan'
        | skip hscan' h =>
          cases hscan.symm.trans hscan'
          exact h
        | symbol hscan' _ => cases hscan.symm.trans hscan'
    | symbol s n =>
      obtain ⟨hpos, hlen, _⟩ := scan_take (taken_symbol hscan)
      have hrest : (text.drop n).length ≤ fuel := by
        rw [List.length_drop]
        omega
      dsimp only
      constructor
      · intro h
        obtain ⟨more, hmore, hts⟩ := Option.bind_eq_some_iff.mp h
        cases hts
        exact .symbol hscan ((ih hrest).mp hmore)
      · intro h
        cases h with
        | eof hscan' => cases hscan.symm.trans hscan'
        | skip hscan' _ => cases hscan.symm.trans hscan'
        | symbol hscan' h =>
          cases hscan.symm.trans hscan'
          rw [(ih hrest).mpr h]
          rfl

theorem lexAt_iff : lexAt gPos text = some ts ↔ Lexes gPos text ts := lexLoop_iff (Nat.le_refl _)

/-- From a token on, the script has the tokens from that token on. -/
theorem Lexes.drop {pre post : List Token} {t : Token} (h : Lexes gPos text (pre ++ t :: post)) :
    gPos ≤ t.start ∧ Lexes t.start (text.drop (t.start - gPos)) (t :: post) := by
  generalize hts : pre ++ t :: post = ts at h
  induction h generalizing pre with
  | eof _ => exact absurd hts (by simp)
  | @skip gPos n text ts hscan _ ih =>
    obtain ⟨hle, hrest⟩ := ih hts
    refine ⟨by omega, ?_⟩
    rw [List.drop_drop, show n + (t.start - (gPos + n)) = t.start - gPos by omega] at hrest
    exact hrest
  | @symbol gPos n text s ts hscan h ih =>
    cases pre with
    | nil =>
      cases hts
      refine ⟨Nat.le_refl _, ?_⟩
      rw [Nat.sub_self]
      exact .symbol hscan h
    | cons p pre =>
      obtain ⟨hle, hrest⟩ := ih (List.cons.inj hts).2
      refine ⟨by omega, ?_⟩
      rw [List.drop_drop, show n + (t.start - (gPos + n)) = t.start - gPos by omega] at hrest
      exact hrest

/-- Up to the end of a token, the script has the tokens up to that token. -/
theorem Lexes.take {us post : List Token} {t : Token} (h : Lexes gPos text (us ++ t :: post)) :
    gPos ≤ t.stop ∧ t.stop - gPos ≤ text.length ∧ Lexes gPos (text.take (t.stop - gPos)) (us ++ [t]) := by
  generalize hts : us ++ t :: post = ts at h
  induction h generalizing us with
  | eof _ => exact absurd hts (by simp)
  | @skip gPos n text ts hscan _ ih =>
    obtain ⟨hle, hlen, hrest⟩ := ih hts
    obtain ⟨hpos, hn, htake⟩ := scan_take (taken_skip hscan)
    rw [List.length_drop] at hlen
    refine ⟨by omega, by omega, .skip ((htake (by omega)).trans hscan) ?_⟩
    rw [List.drop_take, Nat.sub_sub]
    exact hrest
  | @symbol gPos n text s ts hscan h ih =>
    obtain ⟨hpos, hn, htake⟩ := scan_take (taken_symbol hscan)
    cases us with
    | nil =>
      cases hts
      rw [Nat.add_sub_cancel_left]
      refine ⟨Nat.le_add_right _ _, hn, .symbol ((htake (Nat.le_refl _)).trans hscan) ?_⟩
      rw [List.drop_take, Nat.sub_self, List.take_zero]
      exact .eof rfl
    | cons u us =>
      obtain ⟨hu, hts⟩ := List.cons.inj hts
      obtain ⟨hle, hlen, hrest⟩ := ih hts
      rw [List.length_drop] at hlen
      refine ⟨by omega, by omega, ?_⟩
      rw [hu]
      refine .symbol ((htake (by omega)).trans hscan) ?_
      rw [List.drop_take, Nat.sub_sub]
      exact hrest

theorem Lexes.nil (h : Lexes gPos [] ts) : ts = [] := by
  cases h with
  | eof _ => rfl
  | skip hscan _ => cases hscan
  | symbol hscan _ => cases hscan

/-- The text from the start of one token to the end of another has the tokens between them. -/
theorem Lexes.slice {script : Bytes} {pre us post : List Token} {first last : Token} (h : Lexes 0 script (pre ++ us ++ post))
    (hfirst : us.head? = some first) (hlast : us.getLast? = some last) :
    first.start ≤ last.stop ∧ last.stop ≤ script.length ∧
      Lexes first.start ((script.drop first.start).take (last.stop - first.start)) us := by
  obtain ⟨more, rfl⟩ := List.head?_eq_some_iff.mp hfirst
  rw [List.append_assoc, List.cons_append] at h
  obtain ⟨_, hdrop⟩ := h.drop
  rw [Nat.sub_zero] at hdrop
  have hstart : first.start < script.length := by
    by_contra hge
    rw [List.drop_eq_nil_of_le (Nat.le_of_not_lt hge)] at hdrop
    cases hdrop.nil
  obtain ⟨less, hless⟩ := List.getLast?_eq_some_iff.mp hlast
  have hwhole : first :: (more ++ post) = less ++ last :: post := by
    rw [← List.cons_append, hless, List.append_assoc]
    rfl
  rw [hwhole] at hdrop
  obtain ⟨hle, hlen, htake⟩ := hdrop.take
  rw [List.length_drop] at hlen
  refine ⟨hle, by omega, ?_⟩
  rw [hless]
  exact htake

/-! ## Quoted strings -/

/-- A byte in quotes. -/
def quoteByte (c : UInt8) : Bytes := if c = 34 ∨ c = 92 then [92, c] else [c]

/-- A string in quotes. -/
def quote (v : Bytes) : Bytes := 34 :: v.flatMap quoteByte ++ [34]

theorem stringRules_quote (v rest : Bytes) {fuel : Nat} (hfuel : v.length < fuel) :
    stringRules fuel (v.flatMap quoteByte ++ 34 :: rest) = (v, some ((v.flatMap quoteByte).length + 1)) := by
  induction v generalizing fuel with
  | nil =>
    obtain ⟨fuel, rfl⟩ := Nat.exists_eq_add_of_lt hfuel
    rfl
  | cons c v ih =>
    obtain ⟨fuel, rfl⟩ := Nat.exists_eq_add_of_le' (show 1 ≤ fuel from Nat.one_le_of_lt hfuel)
    have hrest := ih (Nat.lt_of_succ_lt_succ hfuel)
    rw [List.flatMap_cons, List.append_assoc]
    by_cases hc : c = 34 ∨ c = 92
    · have hbyte : quoteByte c = [92, c] := if_pos hc
      have hescape : escape (c :: (v.flatMap quoteByte ++ 34 :: rest)) = (c, 2) := by
        rcases hc with rfl | rfl
        · rfl
        · rfl
      rw [hbyte, List.cons_append, List.cons_append, List.nil_append, stringRules, if_neg (by decide), if_pos rfl]
      dsimp only
      rw [hescape, List.drop_succ_cons, List.drop_succ_cons, List.drop_zero, hrest]
      refine Prod.ext rfl (congrArg some ?_)
      rw [List.length_append]
      exact (Nat.add_assoc ..).symm
    · have hbyte : quoteByte c = [c] := if_neg hc
      rw [not_or] at hc
      rw [hbyte, List.cons_append, List.nil_append, stringRules, if_neg hc.1, if_neg hc.2]
      dsimp only
      rw [List.drop_succ_cons, List.drop_zero, hrest]
      refine Prod.ext rfl (congrArg some ?_)
      rw [List.length_append]
      exact (Nat.add_assoc ..).symm

end Edify
end Miui
