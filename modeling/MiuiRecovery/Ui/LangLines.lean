import MiuiRecovery.Ui.Languages

/-!
# The lines of a language file

What `alang_load` (`miui_languages.c`) makes of a file, against the file's lines.

* `langLines`: the comments and the `key=value` lines of a text.
* `alangSets_eq`: of lines with proper keys and silent comments, the loop sets the `written` pairs.
* `alangLoad_iff`: the table is that of the lines exactly if the file is `PlainLang`.
-/

namespace Miui
namespace Lang

open CString InPlace

/-- A line that is not blank and is not a mere word. -/
inductive LangLine
  /-- The text behind the `#`, up to the end of the file. -/
  | comment (text : Bytes)
  /-- The key, and the text behind the `=`; `ended` if a newline ends it. -/
  | prop (key raw : Bytes) (ended : Bool)
deriving DecidableEq

/-- The lines of a text. -/
def langLines : Bytes → List LangLine
  | [] => []
  | c :: s =>
    if isSpace c then langLines s
    else if c = 35 then .comment s :: langLines (nextLine s)
    else
      match h : (c :: s).dropWhile inKey with
      | [] => []
      | x :: r =>
        if x = 10 then langLines r
        else
          .prop (((c :: s).takeWhile inKey).rdropWhile isSpace) (splitValue 61 r).1
              (decide ((splitValue 61 r).1.length < r.length)) ::
            langLines (splitValue 61 r).2
  termination_by s => s.length
  decreasing_by
    all_goals
      simp only [List.length_cons]
    · omega
    · have := nextLine_length s
      omega
    all_goals
      have h₁ := (List.dropWhile_suffix inKey (l := c :: s)).length_le
      rw [h, List.length_cons, List.length_cons] at h₁
    · omega
    · have := splitValue_length 61 r
      omega

/-- The line behind a `=`. -/
def propLines (key r : Bytes) : List LangLine :=
  .prop key (splitValue 61 r).1 (decide ((splitValue 61 r).1.length < r.length)) :: langLines (splitValue 61 r).2

theorem langLines_line {c : UInt8} {s : Bytes} (hc : ¬ isSpace c = true) (h35 : c ≠ 35) :
    langLines (c :: s) = match (c :: s).dropWhile inKey with
      | [] => []
      | x :: r => if x = 10 then langLines r else propLines (((c :: s).takeWhile inKey).rdropWhile isSpace) r := by
  rw [langLines, if_neg hc, if_neg h35]
  split
  · next h => rw [h]
  · next x r h =>
    rw [h]
    rfl

/-- The pair that a line stands for. -/
def LangLine.entry : LangLine → Option (Bytes × Bytes)
  | .comment _ => none
  | .prop key raw _ => some (key, trim (clean raw))

/-- The value that is saved: only the blanks in front are left out. -/
def savedValue (raw : Bytes) : Bytes := clean (raw.dropWhile isBlank)

/-- Nothing is saved: there is no value, or only one byte at the end of the file. -/
def isLost (raw : Bytes) (ended : Bool) : Bool :=
  (raw.dropWhile isBlank).isEmpty || !ended && (raw.dropWhile isBlank).length == 1

/-- The pair that the loop sets for a line. -/
def LangLine.written : LangLine → Option (Bytes × Bytes)
  | .comment _ => none
  | .prop key raw ended => if isLost raw ended then none else some (key, savedValue raw)

/-- The line is taken for a pair: a `=` and a value are in it. -/
def assigns (text : Bytes) : Bool :=
  match text.dropWhile inKey with
  | 61 :: r =>
    match r.dropWhile isBlank with
    | d :: w => d != 10 && !w.isEmpty
    | [] => false
  | _ => false

def LangLine.isFor (key : Bytes) : LangLine → Bool
  | .comment _ => false
  | .prop k _ _ => k == key

def LangLine.isSaved : LangLine → Bool
  | .comment _ => false
  | .prop _ raw ended => !isLost raw ended

/-- The files that are read as they are meant: no comment that assigns; keys of one word; and the last value of each key
that is saved at all is, without the blanks in front, the trimmed value of the key's last line. -/
structure PlainLang (lines : List LangLine) : Prop where
  comments : ∀ text, LangLine.comment text ∈ lines → assigns text = false
  keys : ∀ key raw ended, LangLine.prop key raw ended ∈ lines → key ≠ [] ∧ ∀ c ∈ key, isSpace c = false
  values : ∀ key raw ended, (lines.filter (LangLine.isFor key)).getLast? = some (.prop key raw ended) →
    ∃ raw' ended', (lines.filter fun line => line.isFor key && line.isSaved).getLast? = some (.prop key raw' ended') ∧
      savedValue raw' = trim (clean raw)

variable {a b s t v w r o k key text raw : Bytes} {c x y pc : UInt8} {ended : Bool} {lines : List LangLine}

/-! ## Comments -/

theorem dropWhile_line {p : UInt8 → Bool} (hp : ∀ c, p c = true → c ≠ 10) (s : Bytes) :
    (s.dropWhile p).dropWhile (· != 10) = s.dropWhile (· != 10) := by
  induction s with
  | nil => rfl
  | cons c s ih =>
    by_cases hc : p c = true
    · simp [hc, hp c hc, ih]
    · simp [hc]

theorem inKey_line (c : UInt8) (h : inKey c = true) : c ≠ 10 := by
  rintro rfl
  exact absurd h (by decide)

theorem isBlank_line (c : UInt8) (h : isBlank c = true) : c ≠ 10 := by
  rintro rfl
  exact absurd h (by decide)

/-- A comment that does not assign is passed over. -/
theorem comment_silent (h : assigns s = false) : alangSets (35 :: s) = alangSets (nextLine s) := by
  rw [alangSets_line (by decide), nextLine, ← dropWhile_line inKey_line]
  rw [assigns] at h
  cases hrest : s.dropWhile inKey with
  | nil => simp [alangSets]
  | cons x r =>
    by_cases hx : x = 10
    · simp [hx]
    · obtain rfl : x = 61 := by
        have hhead := dropWhile_head hrest
        simpa [inKey, hx] using hhead
      simp only [hrest] at h
      rw [List.dropWhile_cons_of_pos (by decide), ← dropWhile_line isBlank_line]
      simp only [hx, ↓reduceIte, valueSets]
      cases hblank : r.dropWhile isBlank with
      | nil => simp [alangSets]
      | cons d w =>
        by_cases hd : d = 10
        · simp [hd]
        · obtain rfl : w = [] := by simpa [hblank, hd] using h
          simp [hd, alangSets]

/-- A comment that assigns sets a key that starts with `#`. -/
theorem comment_assigns (h : assigns s = true) : ∃ key val, (35 :: key, val) ∈ alangSets (35 :: s) := by
  rw [alangSets_line (by decide)]
  rw [assigns] at h
  split at h
  · next r hrest =>
    split at h
    · next d w hblank =>
      obtain ⟨hd, hw⟩ : d ≠ 10 ∧ w ≠ [] := by simpa using h
      simp only [hrest, valueSets, hblank, hd, hw, ↓reduceIte]
      exact ⟨_, _, List.mem_cons_self⟩
    · exact absurd h Bool.false_ne_true
  · exact absurd h Bool.false_ne_true

/-! ## Values -/

theorem splitValue_blanks (hpc : pc ≠ 92) (r : Bytes) :
    splitValue pc r = match r.dropWhile isBlank with
      | [] => (r, [])
      | d :: w =>
        if d = 10 then (r.takeWhile isBlank, w)
        else (r.takeWhile isBlank ++ d :: (splitValue d w).1, (splitValue d w).2) := by
  induction r generalizing pc with
  | nil => rfl
  | cons c r ih =>
    by_cases hc : isBlank c = true
    · have hc10 := isBlank_line c hc
      have hc92 : c ≠ 92 := by
        rintro rfl
        exact absurd hc (by decide)
      rw [splitValue, if_neg (fun h => hc10 h.1), ih hc92, List.dropWhile_cons_of_pos hc, List.takeWhile_cons_of_pos hc]
      split
      · rfl
      · split <;> rfl
    · rw [List.dropWhile_cons_of_neg hc, List.takeWhile_cons_of_neg hc, splitValue]
      by_cases hc10 : c = 10
      · simp [hc10, hpc]
      · simp [hc10]

/-- Text behind a byte of a value that is taken up to the end of the file. -/
theorem splitValue_nil_iff (d : UInt8) (w : Bytes) :
    (splitValue d w).1 = [] ∧ ¬ (splitValue d w).1.length < w.length ↔ w = [] := by
  cases w with
  | nil => simp [splitValue]
  | cons c w =>
    rw [splitValue]
    split <;> simp

/-- A line behind its `=` sets the pair that is written for it. -/
theorem valueSets_eq (key r : Bytes) :
    valueSets key r =
      (LangLine.prop key (splitValue 61 r).1 (decide ((splitValue 61 r).1.length < r.length))).written.toList ++
        alangSets (splitValue 61 r).2 := by
  have hsplit := List.takeWhile_append_dropWhile (p := isBlank) (l := r)
  have hblanks : ∀ y ∈ r.takeWhile isBlank, isBlank y = true := fun y hy => List.mem_takeWhile_imp hy
  rw [splitValue_blanks (by decide), valueSets]
  cases hrest : r.dropWhile isBlank with
  | nil => simp [LangLine.written, isLost, hrest, alangSets]
  | cons d w =>
    rw [hrest] at hsplit
    have hdrop : (r.takeWhile isBlank).dropWhile isBlank = [] := by
      rw [List.dropWhile_eq_nil_iff]
      exact hblanks
    by_cases hd : d = 10
    · simp [hd, LangLine.written, isLost, hdrop]
    · have hblank : isBlank d = false := dropWhile_head hrest
      have hraw : (r.takeWhile isBlank ++ d :: (splitValue d w).1).dropWhile isBlank = d :: (splitValue d w).1 := by
        rw [List.dropWhile_append_of_pos hblanks, List.dropWhile_cons_of_neg (by simp [hblank])]
      have hlen : (r.takeWhile isBlank ++ d :: (splitValue d w).1).length < r.length ↔
          (splitValue d w).1.length < w.length := by
        have hr := congrArg List.length hsplit
        rw [List.length_append, List.length_cons] at hr
        rw [List.length_append, List.length_cons]
        omega
      have hlost : isLost (r.takeWhile isBlank ++ d :: (splitValue d w).1)
          (decide ((r.takeWhile isBlank ++ d :: (splitValue d w).1).length < r.length)) = decide (w = []) := by
        rw [isLost, hraw, Bool.eq_iff_iff, decide_eq_true_iff, ← splitValue_nil_iff d, ← hlen]
        simp [and_comm]
      simp only [hd, ↓reduceIte, LangLine.written, hlost, savedValue, hraw]
      by_cases hw : w = []
      · simp [hw, splitValue, alangSets]
      · simp [hw]

/-! ## Keys -/

/-- A key of one word is the word that the line starts with. -/
theorem key_eq (hc : ¬ isSpace c = true) (h61 : c ≠ 61)
    (hkey : ∀ y ∈ ((c :: s).takeWhile inKey).rdropWhile isSpace, isSpace y = false) :
    c :: s.takeWhile (fun y => !isSpace y && y != 61) = ((c :: s).takeWhile inKey).rdropWhile isSpace := by
  have hc10 : c ≠ 10 := by
    rintro rfl
    exact hc (by decide)
  have hin : inKey c = true := by simp [inKey, h61, hc10]
  rw [takeWhile_key]
  rw [List.takeWhile_cons_of_pos hin] at hkey ⊢
  have hword : c :: (s.takeWhile inKey).takeWhile (!isSpace ·) = (c :: s.takeWhile inKey).takeWhile (!isSpace ·) := by
    rw [List.takeWhile_cons_of_pos (by simpa using hc)]
  have hsplit : (c :: s.takeWhile inKey).rdropWhile isSpace ++ (c :: s.takeWhile inKey).rtakeWhile isSpace =
      c :: s.takeWhile inKey := List.rdropWhile_append_rtakeWhile
  have hback : ((c :: s.takeWhile inKey).rtakeWhile isSpace).takeWhile (!isSpace ·) = [] := by
    rw [List.takeWhile_eq_nil_iff]
    intro hpos
    simpa using List.mem_rtakeWhile_imp (List.getElem_mem hpos)
  rw [hword]
  conv_lhs => rw [← hsplit]
  rw [List.takeWhile_append_of_pos (by simpa using hkey), hback, List.append_nil]

/-- The loop sets only keys of one word. -/
theorem alangSets_key {val : Bytes} (h : (key, val) ∈ alangSets s) : key ≠ [] ∧ ∀ y ∈ key, isSpace y = false := by
  induction s using alangSets.induct with
  | case1 => simp [alangSets] at h
  | case2 c s hc ih =>
    rw [alangSets, if_pos hc] at h
    exact ih h
  | case3 c s hc hrest => simp [alangSets_line hc, hrest] at h
  | case4 c s hc r hrest ih =>
    simp only [alangSets_line hc, hrest, ↓reduceIte] at h
    exact ih h
  | case5 c s hc x r hrest hx hblank => simp [alangSets_line hc, hrest, hx, valueSets, hblank] at h
  | case6 c s hc x r hrest hx w hblank ih =>
    simp only [alangSets_line hc, hrest, hx, valueSets, hblank, ↓reduceIte] at h
    exact ih h
  | case7 c s hc x r hrest hx d hd hblank => simp [alangSets_line hc, hrest, hx, valueSets, hblank, hd] at h
  | case8 c s hc x r hrest hx d w hblank hd hw ih =>
    simp only [alangSets_line hc, hrest, hx, valueSets, hblank, hd, hw, ↓reduceIte] at h
    rcases List.mem_cons.mp h with h | h
    · obtain ⟨rfl, -⟩ := Prod.mk.inj h
      refine ⟨List.cons_ne_nil _ _, List.forall_mem_cons.mpr ⟨by simpa using hc, fun y hy => ?_⟩⟩
      have := List.mem_takeWhile_imp hy
      simp_all
    · exact ih h

/-- A line that starts with `#` has no key. -/
theorem langLines_key (h : .prop key raw ended ∈ langLines s) : key.head? ≠ some 35 := by
  induction s using langLines.induct with
  | case1 => simp [langLines] at h
  | case2 c s hc ih =>
    rw [langLines, if_pos hc] at h
    exact ih h
  | case3 s hc ih =>
    rw [langLines, if_neg hc, if_pos rfl] at h
    exact ih ((List.mem_cons.mp h).resolve_left (by simp))
  | case4 c s hc h35 hrest => simp [langLines_line hc h35, hrest] at h
  | case5 c s hc h35 r hrest ih =>
    simp only [langLines_line hc h35, hrest, ↓reduceIte] at h
    exact ih h
  | case6 c s hc h35 x r hrest hx ih =>
    simp only [langLines_line hc h35, hrest, hx, ↓reduceIte, propLines] at h
    rcases List.mem_cons.mp h with h | h
    · obtain ⟨rfl, -, -⟩ := LangLine.prop.inj h
      have hprefix := (List.rdropWhile_prefix isSpace _).trans (List.takeWhile_prefix inKey (l := c :: s))
      intro hhead
      obtain ⟨t, ht⟩ := List.head?_eq_some_iff.mp hhead
      rw [ht, List.cons_prefix_cons] at hprefix
      exact h35 hprefix.1.symm
    · exact ih h

/-! ## What the loop sets -/

/-- All keys are of one word. -/
def WordKeys (lines : List LangLine) : Prop :=
  ∀ key raw ended, LangLine.prop key raw ended ∈ lines → key ≠ [] ∧ ∀ c ∈ key, isSpace c = false

theorem dropWhile_word {r : Bytes} (hspace : ¬ isSpace c = true) (h : (c :: s).dropWhile inKey = 10 :: r) : s.dropWhile inKey = 10 :: r := by
  by_cases hc : inKey c = true
  · rwa [List.dropWhile_cons_of_pos hc] at h
  · rw [List.dropWhile_cons_of_neg hc, List.cons.injEq] at h
    exact absurd (h.1 ▸ by decide) hspace

theorem alangSets_prop {r : Bytes} (hc : ¬ isSpace c = true) (h35 : c ≠ 35) (hrest : (c :: s).dropWhile inKey = x :: r)
    (hx : x ≠ 10) (hkeys : WordKeys (langLines (c :: s))) :
    ∃ line, langLines (c :: s) = line :: langLines (splitValue 61 r).2 ∧
      alangSets (c :: s) = line.written.toList ++ alangSets (splitValue 61 r).2 := by
  have hlines : langLines (c :: s) = propLines (((c :: s).takeWhile inKey).rdropWhile isSpace) r := by
    simp only [langLines_line hc h35, hrest, hx, ↓reduceIte]
  rw [hlines] at hkeys ⊢
  obtain ⟨hne, hword⟩ := hkeys _ _ _ List.mem_cons_self
  have h61 : c ≠ 61 := by
    rintro rfl
    exact hne (by simp [inKey])
  have hin : inKey c = true := by
    have hc10 : c ≠ 10 := by
      rintro rfl
      exact hc (by decide)
    simp [inKey, h61, hc10]
  rw [List.dropWhile_cons_of_pos hin] at hrest
  refine ⟨_, rfl, ?_⟩
  simp only [alangSets_line hc, hrest, hx, ↓reduceIte, key_eq hc h61 hword]
  exact valueSets_eq _ r

/-- Of lines with proper keys the loop sets the written pairs, if no comment assigns. -/
theorem alangSets_eq (hkeys : WordKeys (langLines s)) (hcomments : ∀ text, .comment text ∈ langLines s → assigns text = false) :
    alangSets s = (langLines s).filterMap LangLine.written := by
  induction s using langLines.induct with
  | case1 => simp [langLines, alangSets]
  | case2 c s hc ih =>
    rw [langLines, if_pos hc] at hkeys hcomments ⊢
    rw [alangSets, if_pos hc]
    exact ih hkeys hcomments
  | case3 s hc ih =>
    rw [langLines, if_neg hc, if_pos rfl] at hkeys hcomments ⊢
    rw [comment_silent (hcomments s List.mem_cons_self), List.filterMap_cons_none rfl]
    exact ih (fun _ _ _ h => hkeys _ _ _ (List.mem_cons_of_mem _ h)) fun _ h => hcomments _ (List.mem_cons_of_mem _ h)
  | case4 c s hc h35 hrest =>
    have hdrop : s.dropWhile inKey = [] := by
      rw [List.dropWhile_eq_nil_iff] at hrest ⊢
      exact fun y hy => hrest y (List.mem_cons_of_mem _ hy)
    simp [langLines_line hc h35, hrest, alangSets_line hc, hdrop]
  | case5 c s hc h35 r hrest ih =>
    simp only [langLines_line hc h35, hrest, ↓reduceIte] at hkeys hcomments ⊢
    simp only [alangSets_line hc, dropWhile_word hc hrest, ↓reduceIte]
    exact ih hkeys hcomments
  | case6 c s hc h35 x r hrest hx ih =>
    obtain ⟨line, hlines, hsets⟩ := alangSets_prop hc h35 hrest hx hkeys
    rw [hlines] at hkeys hcomments ⊢
    rw [hsets, ih (fun _ _ _ h => hkeys _ _ _ (List.mem_cons_of_mem _ h))
      fun _ h => hcomments _ (List.mem_cons_of_mem _ h)]
    cases hwritten : line.written <;> simp [hwritten]

/-- Of lines with proper keys, a comment that assigns is set. -/
theorem alangSets_comment (hkeys : WordKeys (langLines s)) (htext : .comment text ∈ langLines s)
    (hassigns : assigns text = true) : ∃ key val, (35 :: key, val) ∈ alangSets s := by
  induction s using langLines.induct with
  | case1 => simp [langLines] at htext
  | case2 c s hc ih =>
    rw [langLines, if_pos hc] at hkeys htext
    rw [alangSets, if_pos hc]
    exact ih hkeys htext
  | case3 s hc ih =>
    rw [langLines, if_neg hc, if_pos rfl] at hkeys htext
    by_cases hs : assigns s = true
    · exact comment_assigns hs
    · rw [comment_silent (by simpa using hs)]
      refine ih (fun _ _ _ h => hkeys _ _ _ (List.mem_cons_of_mem _ h)) ((List.mem_cons.mp htext).resolve_left ?_)
      rintro ⟨⟩
      exact hs hassigns
  | case4 c s hc h35 hrest => simp [langLines_line hc h35, hrest] at htext
  | case5 c s hc h35 r hrest ih =>
    simp only [langLines_line hc h35, hrest, ↓reduceIte] at hkeys htext
    simp only [alangSets_line hc, dropWhile_word hc hrest, ↓reduceIte]
    exact ih hkeys htext
  | case6 c s hc h35 x r hrest hx ih =>
    obtain ⟨line, hlines, hsets⟩ := alangSets_prop hc h35 hrest hx hkeys
    have hprop : ∃ key raw ended, line = .prop key raw ended := by
      have hhead := congrArg List.head? hlines
      simp only [langLines_line hc h35, hrest, hx, ↓reduceIte, propLines, List.head?_cons, Option.some.injEq] at hhead
      exact ⟨_, _, _, hhead.symm⟩
    obtain ⟨key, raw, ended, rfl⟩ := hprop
    rw [hlines] at hkeys htext
    obtain ⟨key', val, hmem⟩ := ih (fun _ _ _ h => hkeys _ _ _ (List.mem_cons_of_mem _ h))
      ((List.mem_cons.mp htext).resolve_left (by simp))
    exact ⟨key', val, by rw [hsets]; exact List.mem_append_right _ hmem⟩

/-! ## The table of the lines -/

/-- The table's value of a key is that of the last line that gives one. -/
theorem tableOf_filterMap {f : LangLine → Option (Bytes × Bytes)} {p : LangLine → Bool} (key : Bytes)
    (hp : ∀ line, p line = (f line).any (·.1 == key)) (lines : List LangLine) :
    tableOf (lines.filterMap f) key = (lines.filter p).getLast?.bind fun line => (f line).map Prod.snd := by
  induction lines using List.reverseRecOn with
  | nil => rfl
  | append_singleton lines line ih =>
    rw [List.filterMap_append, List.filter_append]
    cases hline : f line with
    | none => simp [hline, hp line, ih]
    | some set =>
      obtain ⟨k, val⟩ := set
      rw [List.filterMap_cons_some hline]
      by_cases hk : k = key
      · subst hk
        rw [List.filterMap_nil, tableOf_last (by simp)]
        simp [hp line, hline]
      · rw [List.filterMap_nil, tableOf_append (by simpa using hk), ih]
        simp [hp line, hline, hk]

theorem tableOf_entries (key : Bytes) (lines : List LangLine) :
    tableOf (lines.filterMap LangLine.entry) key =
      (lines.filter (LangLine.isFor key)).getLast?.bind fun line => line.entry.map Prod.snd := by
  refine tableOf_filterMap key (fun line => ?_) lines
  cases line <;> simp [LangLine.isFor, LangLine.entry]

theorem tableOf_written (key : Bytes) (lines : List LangLine) :
    tableOf (lines.filterMap LangLine.written) key =
      (lines.filter fun line => line.isFor key && line.isSaved).getLast?.bind fun line => line.written.map Prod.snd := by
  refine tableOf_filterMap key (fun line => ?_) lines
  cases line with
  | comment text => rfl
  | prop k raw ended => by_cases h : isLost raw ended = true <;> simp [LangLine.isFor, LangLine.isSaved, LangLine.written, h]

/-- The tables agree exactly if every key has its value. -/
theorem tables_iff (lines : List LangLine) :
    tableOf (lines.filterMap LangLine.written) = tableOf (lines.filterMap LangLine.entry) ↔
      ∀ key raw ended, (lines.filter (LangLine.isFor key)).getLast? = some (.prop key raw ended) →
        ∃ raw' ended', (lines.filter fun line => line.isFor key && line.isSaved).getLast? = some (.prop key raw' ended') ∧
          savedValue raw' = trim (clean raw) := by
  have hsaved : ∀ key line, (lines.filter fun line => line.isFor key && line.isSaved).getLast? = some line →
      ∃ raw ended, line = .prop key raw ended ∧ line.written = some (key, savedValue raw) := by
    intro key line hline
    have hmem := (List.mem_filter.mp (List.mem_of_getLast? hline)).2
    cases line with
    | comment text => simp [LangLine.isFor] at hmem
    | prop k raw ended =>
      obtain ⟨rfl, hlost⟩ : k = key ∧ isLost raw ended = false := by
        simpa [LangLine.isFor, LangLine.isSaved] using hmem
      exact ⟨raw, ended, rfl, by simp [LangLine.written, hlost]⟩
  constructor
  · intro h key raw ended hlast
    have hkey := congrFun h key
    rw [tableOf_written, tableOf_entries, hlast, Option.bind_some, LangLine.entry, Option.map_some] at hkey
    obtain ⟨line, hline, hval⟩ := Option.bind_eq_some_iff.mp hkey
    obtain ⟨raw', ended', rfl, hwritten⟩ := hsaved key line hline
    rw [hwritten, Option.map_some, Option.some.injEq] at hval
    exact ⟨raw', ended', hline, hval⟩
  · intro h
    funext key
    rw [tableOf_written, tableOf_entries]
    cases hlast : (lines.filter (LangLine.isFor key)).getLast? with
    | none =>
      rw [List.getLast?_eq_none_iff, List.filter_eq_nil_iff] at hlast
      have hnone : (lines.filter fun line => line.isFor key && line.isSaved) = [] := by
        rw [List.filter_eq_nil_iff]
        intro line hline hboth
        exact hlast line hline (Bool.and_eq_true_iff.mp hboth).1
      rw [hnone, List.getLast?_nil, Option.bind_none, Option.bind_none]
    | some line =>
      have hmem := (List.mem_filter.mp (List.mem_of_getLast? hlast)).2
      cases line with
      | comment text => exact absurd hmem Bool.false_ne_true
      | prop k raw ended =>
        obtain rfl : k = key := by simpa [LangLine.isFor] using hmem
        obtain ⟨raw', ended', hline, hval⟩ := h k raw ended hlast
        obtain ⟨raw'', ended'', heq, hwritten⟩ := hsaved k _ hline
        obtain ⟨-, rfl, rfl⟩ := LangLine.prop.inj heq
        rw [hline, Option.bind_some, hwritten, Option.map_some, Option.bind_some, LangLine.entry, Option.map_some, hval]

/-- What the loop sets is what the lines stand for exactly if the file is plain. -/
theorem alangSets_iff (s : Bytes) :
    tableOf (alangSets s) = tableOf ((langLines s).filterMap LangLine.entry) ↔ PlainLang (langLines s) := by
  constructor
  · intro h
    have hkeys : WordKeys (langLines s) := by
      intro key raw ended hline
      have hentry : tableOf ((langLines s).filterMap LangLine.entry) key ≠ none :=
        tableOf_isSome (List.mem_filterMap.mpr ⟨_, hline, rfl⟩)
      rw [← h] at hentry
      by_contra hword
      exact hentry (tableOf_none fun set hset hkey => hword (hkey ▸ alangSets_key hset))
    have hcomments : ∀ text, .comment text ∈ langLines s → assigns text = false := by
      intro text htext
      by_contra hassigns
      obtain ⟨key, val, hset⟩ := alangSets_comment hkeys htext (by simpa using hassigns)
      refine tableOf_isSome hset ?_
      rw [h]
      refine tableOf_none fun set hset hkey => ?_
      obtain ⟨line, hline, hentry⟩ := List.mem_filterMap.mp hset
      cases line with
      | comment text => exact absurd hentry (by simp [LangLine.entry])
      | prop k raw ended =>
        obtain rfl := Option.some.inj hentry
        exact langLines_key hline (by rw [show k = 35 :: key from hkey]; rfl)
    rw [alangSets_eq hkeys hcomments, tables_iff] at h
    exact ⟨hcomments, hkeys, h⟩
  · intro h
    rw [alangSets_eq h.keys h.comments, tables_iff]
    exact h.values

/-- The scan stays in the buffer and makes a table with one entry for each key; it is the table of the file's lines
exactly if the file is plain. -/
theorem alangLoad_iff (content : Bytes) :
    ∃ alang, alangLoad content = some alang ∧ alang.Inv ∧
      (alang.Represents (tableOf ((langLines (langText content)).filterMap LangLine.entry)) ↔
        PlainLang (langLines (langText content))) := by
  obtain ⟨alang, hload, hinv, hrep⟩ := setAll_spec (alangSets (langText content))
  refine ⟨alang, by rw [alangLoad_eq, hload], hinv, ?_⟩
  rw [← alangSets_iff]
  constructor
  · intro hlines
    funext key
    rw [← hrep key, hlines key]
  · intro h
    rwa [← h]

/-- `"k=v \n"`: the blank behind the value stays. -/
theorem alangLoad_blank :
    ¬ ∃ alang, alangLoad [107, 61, 118, 32, 10] = some alang ∧ alang.Inv ∧
      alang.Represents (tableOf ((langLines (langText [107, 61, 118, 32, 10])).filterMap LangLine.entry)) := by
  rintro ⟨alang, hload, -, hrep⟩
  have hscan : alangLoad [107, 61, 118, 32, 10] = some ⟨[⟨some [107], some [118, 32]⟩]⟩ := rfl
  have htable : tableOf ((langLines (langText [107, 61, 118, 32, 10])).filterMap LangLine.entry) [107] = some [118] := by
    decide +kernel
  obtain rfl := Option.some.inj (hscan.symm.trans hload)
  have hkey := hrep [107]
  rw [htable] at hkey
  exact absurd hkey (by decide)

end Lang
end Miui
