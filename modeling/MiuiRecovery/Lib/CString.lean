import MiuiRecovery.Lib.Bytes
import Mathlib.Data.List.TakeWhile

/-!
# C strings

The part of `string.h` and `stdio.h` that the recovery code uses on strings: fixed-size string
fields with `strlcpy` and `strlcat`, `strtok` with one set of separators, and `fgets`.

* `Field n`: the string that a `char[n]` holds.
* `catAll_str`: a chain of `strlcat` is one concatenation, cut to the field.
* `tokens_lines`: `strtok` takes lines apart that a newline each ends.
* `fgetsAll_flatten`: the pieces that `fgets` returns are the file.
* `scanWord_word`, `scanWord_some`: which word `%s` with a width takes from a text.
-/

namespace CString

/-- The string at the start of a buffer. -/
def cstr (b : Bytes) : Bytes := b.takeWhile (· != 0)

theorem not_mem_cstr (b : Bytes) : (0 : UInt8) ∉ cstr b := by
  intro h
  simpa using List.mem_takeWhile_imp h

theorem cstr_eq_self {b : Bytes} (h : (0 : UInt8) ∉ b) : cstr b = b := by
  unfold cstr
  rw [List.takeWhile_eq_self_iff]
  intro x hx
  have : x ≠ 0 := fun h0 => h (h0 ▸ hx)
  simpa using this

/-- The string that a `char[n]` holds. -/
@[ext] structure Field (n : Nat) where
  str : Bytes
  length_le : str.length ≤ n
  no_nul : (0 : UInt8) ∉ str
deriving DecidableEq

variable {n : Nat}

/-- A field of zero bytes. -/
def Field.zero (n : Nat) : Field n := ⟨[], Nat.zero_le _, List.not_mem_nil⟩

/-- `strlcpy(field, src, n)`. -/
def strlcpy (n : Nat) (src : Bytes) : Field n where
  str := (cstr src).take (n - 1)
  length_le := Nat.le_trans (List.length_take_le _ _) (Nat.sub_le _ _)
  no_nul := fun h => not_mem_cstr src (List.mem_of_mem_take h)

/-- `strlcat(field, src, n)`: a field without a terminator stays as it is. -/
def strlcat (f : Field n) (src : Bytes) : Field n where
  str := f.str ++ (cstr src).take (n - 1 - f.str.length)
  length_le := by
    have := f.length_le
    rw [List.length_append, List.length_take]
    omega
  no_nul := by
    intro h
    rcases List.mem_append.mp h with h | h
    · exact f.no_nul h
    · exact not_mem_cstr src (List.mem_of_mem_take h)

theorem strlcpy_str {src : Bytes} (h : (0 : UInt8) ∉ src) :
    (strlcpy n src).str = src.take (n - 1) := by
  simp only [strlcpy, cstr_eq_self h]

theorem strlcat_str {f : Field n} {src : Bytes} (h : (0 : UInt8) ∉ src) :
    (strlcat f src).str = f.str ++ src.take (n - 1 - f.str.length) := by
  simp only [strlcat, cstr_eq_self h]

/-- What is cut off early is cut off. -/
theorem take_take_append (k : Nat) (a b : Bytes) : (a.take k ++ b).take k = (a ++ b).take k := by
  rw [List.take_append, List.take_append, List.take_take, Nat.min_self, List.length_take]
  congr 2
  omega

/-- A chain of `strlcat` is one concatenation, cut to the field. -/
theorem catAll_str {f : Field n} {srcs : List Bytes} (h : ∀ src ∈ srcs, (0 : UInt8) ∉ src)
    (hf : f.str.length ≤ n - 1) :
    (srcs.foldl strlcat f).str = (f.str ++ srcs.flatten).take (n - 1) := by
  induction srcs generalizing f with
  | nil =>
    rw [List.flatten_nil, List.append_nil, List.take_of_length_le hf]
    rfl
  | cons src srcs ih =>
    have hcat : (strlcat f src).str = (f.str ++ src).take (n - 1) := by
      rw [strlcat_str (h src List.mem_cons_self), List.take_append, List.take_of_length_le hf]
    rw [List.foldl_cons, ih (fun s hs => h s (List.mem_cons_of_mem _ hs))
      (by rw [hcat]; exact List.length_take_le _ _), hcat, List.flatten_cons, ← List.append_assoc]
    exact take_take_append _ _ _

/-! ## `strtok` -/

/-- What `strtok` returns, call after call, with the same separators. -/
def tokens (sep : UInt8 → Bool) (s : Bytes) : List Bytes :=
  if _h : s.dropWhile sep = [] then []
  else
    (s.dropWhile sep).takeWhile (!sep ·) :: tokens sep ((s.dropWhile sep).dropWhile (!sep ·))
termination_by s.length
decreasing_by
  have h₁ : (s.dropWhile sep).length ≤ s.length := (List.dropWhile_suffix _).length_le
  obtain ⟨c, t, hc⟩ := List.exists_cons_of_ne_nil _h
  have hsep : sep c = false := by
    have := List.head_dropWhile_not sep _h
    simpa [hc] using this
  have h₂ : ((s.dropWhile sep).dropWhile (!sep ·)).length ≤ t.length := by
    rw [hc, List.dropWhile_cons_of_pos (by simp [hsep])]
    exact (List.dropWhile_suffix _).length_le
  rw [hc, List.length_cons] at h₁
  omega

@[simp] theorem tokens_nil (sep : UInt8 → Bool) : tokens sep [] = [] := by
  unfold tokens; simp

/-- A token and the separator behind it. -/
theorem tokens_cons {sep : UInt8 → Bool} {t rest : Bytes} (hne : t ≠ [])
    (ht : ∀ c ∈ t, sep c = false) (hrest : ∀ c ∈ rest.head?, sep c = true) :
    tokens sep (t ++ rest) = t :: tokens sep rest := by
  obtain ⟨c, t', rfl⟩ := List.exists_cons_of_ne_nil hne
  have hc : sep c = false := ht c List.mem_cons_self
  have hdrop : (c :: t' ++ rest).dropWhile sep = c :: t' ++ rest := by
    rw [List.cons_append, List.dropWhile_cons_of_neg (by simp [hc])]
  have htake : (c :: t' ++ rest).takeWhile (!sep ·) = c :: t' := by
    rw [List.takeWhile_append_of_pos (by simpa using ht)]
    cases rest with
    | nil => simp
    | cons r rs => simp [hrest r (by simp)]
  have hrestd : (c :: t' ++ rest).dropWhile (!sep ·) = rest := by
    rw [List.dropWhile_append_of_pos (by simpa using ht)]
    cases rest with
    | nil => simp
    | cons r rs => simp [hrest r (by simp)]
  rw [tokens, dif_neg (by rw [hdrop]; simp), hdrop, htake, hrestd]

/-- Separators in front are passed over. -/
theorem tokens_sep {sep : UInt8 → Bool} {c : UInt8} {rest : Bytes} (hc : sep c = true) :
    tokens sep (c :: rest) = tokens sep rest := by
  have hdrop : (c :: rest).dropWhile sep = rest.dropWhile sep := by
    rw [List.dropWhile_cons_of_pos hc]
  rw [tokens, hdrop, ← tokens]

/-- What `strtok` returns, and the text behind it and its separator. -/
def strtok (sep : UInt8 → Bool) (s : Bytes) : Option (Bytes × Bytes) :=
  if s.dropWhile sep = [] then none
  else some ((s.dropWhile sep).takeWhile (!sep ·), ((s.dropWhile sep).dropWhile (!sep ·)).drop 1)

/-- The tokens call after call. -/
theorem tokens_strtok (sep : UInt8 → Bool) (s : Bytes) :
    tokens sep s = match strtok sep s with
      | none => []
      | some (t, rest) => t :: tokens sep rest := by
  rw [tokens, strtok]
  split
  · rfl
  · cases hrest : (s.dropWhile sep).dropWhile (!sep ·) with
    | nil => rfl
    | cons c rest =>
      have hc := List.head_dropWhile_not (!sep ·) (by rw [hrest]; simp : (s.dropWhile sep).dropWhile (!sep ·) ≠ [])
      simp only [hrest, List.head_cons, Bool.not_eq_false'] at hc
      rw [tokens_sep hc]
      rfl

/-- A token and the separator behind it. -/
theorem strtok_cons {sep : UInt8 → Bool} {t rest : Bytes} (hne : t ≠ []) (ht : ∀ c ∈ t, sep c = false)
    (hrest : ∀ c ∈ rest.head?, sep c = true) : strtok sep (t ++ rest) = some (t, rest.drop 1) := by
  obtain ⟨c, t', rfl⟩ := List.exists_cons_of_ne_nil hne
  have hc : sep c = false := ht c List.mem_cons_self
  have hdrop : (c :: t' ++ rest).dropWhile sep = c :: t' ++ rest := by
    rw [List.cons_append, List.dropWhile_cons_of_neg (by simp [hc])]
  have htake : (c :: t' ++ rest).takeWhile (!sep ·) = c :: t' ∧ (c :: t' ++ rest).dropWhile (!sep ·) = rest := by
    rw [List.takeWhile_append_of_pos (by simpa using ht), List.dropWhile_append_of_pos (by simpa using ht)]
    cases rest with
    | nil => simp
    | cons r rs => simp [hrest r (by simp)]
  rw [strtok, hdrop, if_neg (by simp), htake.1, htake.2]

theorem tokens_of_seps {sep : UInt8 → Bool} {s : Bytes} (h : ∀ c ∈ s, sep c = true) : tokens sep s = [] := by
  rw [tokens, dif_pos (List.dropWhile_eq_nil_iff.mpr h)]

theorem mem_of_mem_tokens {sep : UInt8 → Bool} {s t : Bytes} {c : UInt8} (ht : t ∈ tokens sep s) (hc : c ∈ t) :
    c ∈ s := by
  fun_induction tokens sep s with
  | case1 s hs => cases ht
  | case2 s hs ih =>
    have hdrop : ∀ {d}, d ∈ s.dropWhile sep → d ∈ s := fun hd => (List.dropWhile_suffix _).subset hd
    rcases List.mem_cons.mp ht with rfl | ht
    · exact hdrop ((List.takeWhile_prefix _).subset hc)
    · exact hdrop ((List.dropWhile_suffix _).subset (ih ht))

/-- Lines that are each ended by a newline. -/
def unlines (nl : UInt8) (ls : List Bytes) : Bytes := ls.flatMap (· ++ [nl])

theorem unlines_length (nl : UInt8) (ls : List Bytes) :
    (unlines nl ls).length = (ls.map fun l => l.length + 1).sum := by
  simp [unlines, List.length_flatMap]

theorem tokens_line {nl : UInt8} {l rest : Bytes} (hne : l ≠ []) (hnl : nl ∉ l) :
    tokens (· == nl) (l ++ nl :: rest) = l :: tokens (· == nl) rest := by
  rw [tokens_cons hne _ (by simp), tokens_sep (by simp)]
  intro c hc
  have : c ≠ nl := fun hcn => hnl (hcn ▸ hc)
  simpa using this

/-- Lines, and one that no newline ends. -/
theorem tokens_lines_append {nl : UInt8} {ls : List Bytes} (h : ∀ l ∈ ls, l ≠ [] ∧ nl ∉ l) (rest : Bytes) :
    tokens (· == nl) (unlines nl ls ++ rest) = ls ++ tokens (· == nl) rest := by
  induction ls with
  | nil => rfl
  | cons l ls ih =>
    obtain ⟨hne, hnl⟩ := h l List.mem_cons_self
    have hcons : unlines nl (l :: ls) ++ rest = l ++ nl :: (unlines nl ls ++ rest) := by simp [unlines]
    rw [hcons, tokens_line hne hnl, ih fun l' hl' => h l' (List.mem_cons_of_mem _ hl'), List.cons_append]

theorem tokens_lines {nl : UInt8} {ls : List Bytes} (h : ∀ l ∈ ls, l ≠ [] ∧ nl ∉ l) :
    tokens (· == nl) (unlines nl ls) = ls := by
  have := tokens_lines_append h []
  rwa [List.append_nil, tokens_nil, List.append_nil] at this

/-- Tokens with a separator in front of each. -/
theorem tokens_flatMap {sep : UInt8} {ts : List Bytes} (h : ∀ t ∈ ts, t ≠ [] ∧ sep ∉ t) :
    tokens (· == sep) (ts.flatMap (sep :: ·)) = ts := by
  induction ts with
  | nil => simp
  | cons t ts ih =>
    obtain ⟨hne, hsep⟩ := h t List.mem_cons_self
    have hall : ∀ c ∈ t, (c == sep) = false := fun c hc => beq_false_of_ne (ne_of_mem_of_not_mem hc hsep)
    have hhead : ∀ c ∈ (ts.flatMap (sep :: ·)).head?, (c == sep) = true := by
      cases ts with
      | nil => simp
      | cons u ts => simp
    rw [List.flatMap_cons, List.cons_append, tokens_sep (by simp), tokens_cons hne hall hhead,
      ih fun u hu => h u (List.mem_cons_of_mem t hu)]

/-- The same behind a first token without one. -/
theorem tokens_append_flatMap {sep : UInt8} {t : Bytes} {ts : List Bytes} (hne : t ≠ []) (hsep : sep ∉ t)
    (h : ∀ t ∈ ts, t ≠ [] ∧ sep ∉ t) : tokens (· == sep) (t ++ ts.flatMap (sep :: ·)) = t :: ts := by
  have hall : ∀ t' ∈ t :: ts, t' ≠ [] ∧ sep ∉ t' := List.forall_mem_cons.mpr ⟨⟨hne, hsep⟩, h⟩
  have htokens := tokens_flatMap hall
  rwa [List.flatMap_cons, List.cons_append, tokens_sep (by simp)] at htokens

theorem mem_tokens {sep : UInt8 → Bool} {s t : Bytes} (h : t ∈ tokens sep s) :
    t ≠ [] ∧ ∀ c ∈ t, sep c = false := by
  fun_induction tokens sep s with
  | case1 s hs => exact absurd h List.not_mem_nil
  | case2 s hs ih =>
    rcases List.mem_cons.mp h with rfl | h
    · refine ⟨fun hnil => ?_, fun c hc => by simpa using List.mem_takeWhile_imp hc⟩
      have hhead := List.head_dropWhile_not sep hs
      rw [List.takeWhile_eq_nil_iff] at hnil
      obtain ⟨c, t, hc⟩ := List.exists_cons_of_ne_nil hs
      simp only [hc, List.head_cons] at hhead
      exact hnil (by rw [hc]; simp) (by simp [hc, hhead])
    · exact ih h

/-- Separators only, or separators, a token and what is behind it. -/
theorem tokens_cases (sep : UInt8 → Bool) (s : Bytes) :
    ((∀ c ∈ s, sep c = true) ∧ tokens sep s = []) ∨
    ∃ seps t rest, s = seps ++ (t ++ rest) ∧ (∀ c ∈ seps, sep c = true) ∧ t ≠ [] ∧ (∀ c ∈ t, sep c = false) ∧
      (∀ c ∈ rest.head?, sep c = true) ∧ tokens sep s = t :: tokens sep rest := by
  by_cases hnil : s.dropWhile sep = []
  · exact .inl ⟨List.dropWhile_eq_nil_iff.mp hnil, by rw [tokens, dif_pos hnil]⟩
  · obtain ⟨c, t, hc⟩ := List.exists_cons_of_ne_nil hnil
    have hsep : sep c = false := by simpa [hc] using List.head_dropWhile_not sep hnil
    refine .inr ⟨s.takeWhile sep, (s.dropWhile sep).takeWhile (!sep ·), (s.dropWhile sep).dropWhile (!sep ·), ?_, ?_, ?_,
      ?_, ?_, by rw [tokens, dif_neg hnil]⟩
    · rw [List.takeWhile_append_dropWhile, List.takeWhile_append_dropWhile]
    · exact fun c hc => List.mem_takeWhile_imp hc
    · rw [hc]
      simp [hsep]
    · exact fun c hc => by simpa using List.mem_takeWhile_imp hc
    · intro d hd
      cases hrest : (s.dropWhile sep).dropWhile (!sep ·) with
      | nil => rw [hrest] at hd; cases hd
      | cons e rest =>
        have hhead := List.head_dropWhile_not (!sep ·) (l := s.dropWhile sep) (by rw [hrest]; simp)
        simp only [hrest, List.head_cons, List.head?_cons, Option.mem_some_iff] at hhead hd
        subst hd
        simpa using hhead

/-- A separator takes the tokens apart. -/
theorem tokens_append_sep {sep : UInt8 → Bool} {c : UInt8} (hc : sep c = true) (s rest : Bytes) :
    tokens sep (s ++ c :: rest) = tokens sep s ++ tokens sep rest := by
  induction hn : s.length using Nat.strongRecOn generalizing s with
  | _ n ih =>
    have hpass : ∀ (seps u : Bytes), (∀ d ∈ seps, sep d = true) → tokens sep (seps ++ u) = tokens sep u := by
      intro seps u hseps
      induction seps with
      | nil => rfl
      | cons d seps ih =>
        rw [List.cons_append, tokens_sep (hseps d List.mem_cons_self), ih fun e he => hseps e (List.mem_cons_of_mem _ he)]
    rcases tokens_cases sep s with ⟨hall, htokens⟩ | ⟨seps, t, u, rfl, hseps, hne, ht, hu, htokens⟩
    · rw [htokens, hpass s _ hall, tokens_sep hc, List.nil_append]
    · have hlen : u.length < n := by
        have hpos := List.length_pos_of_ne_nil hne
        rw [← hn, List.length_append, List.length_append]
        omega
      have hhead : ∀ d ∈ (u ++ c :: rest).head?, sep d = true := by
        cases u with
        | nil => simpa using hc
        | cons d u => simpa using hu
      rw [htokens, List.append_assoc, List.append_assoc, hpass seps _ hseps, tokens_cons hne ht hhead,
        ih _ hlen u rfl, List.cons_append]

/-- What is no separator is in a token. -/
theorem tokens_eq_nil {sep : UInt8 → Bool} {s : Bytes} (h : tokens sep s = []) : ∀ c ∈ s, sep c = true := by
  rw [tokens] at h
  split at h
  · rename_i hnil
    exact List.dropWhile_eq_nil_iff.mp hnil
  · cases h

/-- Each token but the last takes a separator. -/
theorem tokens_total (sep : UInt8 → Bool) (s : Bytes) :
    ((tokens sep s).map fun t => t.length + 1).sum ≤ s.length + 1 := by
  induction hn : s.length using Nat.strongRecOn generalizing s with
  | _ n ih =>
    subst hn
    rw [tokens]
    split
    · simp
    · have hskip : (s.dropWhile sep).length ≤ s.length := (List.dropWhile_suffix _).length_le
      have hsplit := congrArg List.length
        (List.takeWhile_append_dropWhile (p := (!sep ·)) (l := s.dropWhile sep))
      rw [List.length_append] at hsplit
      rw [List.map_cons, List.sum_cons]
      by_cases hrest : (s.dropWhile sep).dropWhile (!sep ·) = []
      · rw [hrest] at hsplit ⊢
        simp only [tokens_nil, List.map_nil, List.sum_nil, List.length_nil] at hsplit ⊢
        omega
      · obtain ⟨c, t, hc⟩ := List.exists_cons_of_ne_nil hrest
        have hsep : sep c = true := by
          have := List.head_dropWhile_not (!sep ·) hrest
          simpa [hc] using this
        rw [hc, List.length_cons] at hsplit
        rw [hc, tokens_sep hsep]
        have := ih t.length (by omega) t rfl
        omega

theorem tokens_length_le (sep : UInt8 → Bool) (s : Bytes) : (tokens sep s).length ≤ s.length := by
  induction hn : s.length using Nat.strongRecOn generalizing s with
  | _ n ih =>
    subst hn
    rcases tokens_cases sep s with ⟨-, htok⟩ | ⟨seps, t, rest, rfl, -, ht, -, -, htok⟩
    · rw [htok]
      exact Nat.zero_le _
    · have hpos := List.length_pos_iff.mpr ht
      have hlen : (seps ++ (t ++ rest)).length = seps.length + (t.length + rest.length) := by
        rw [List.length_append, List.length_append]
      have hrest := ih rest.length (by omega) rest rfl
      rw [htok, List.length_cons]
      omega

/-! ## `fgets` -/

/-- What one `fgets` into a buffer of `n` bytes reads: to the newline, or what fits. -/
def fgetsLine (n : Nat) (nl : UInt8) : Bytes → Bytes
  | [] => []
  | c :: cs => if n ≤ 1 then [] else if c = nl then [c] else c :: fgetsLine (n - 1) nl cs

theorem fgetsLine_prefix (n : Nat) (nl : UInt8) (s : Bytes) : fgetsLine n nl s <+: s := by
  induction s generalizing n with
  | nil => exact List.prefix_rfl
  | cons c cs ih =>
    unfold fgetsLine
    split
    · exact List.nil_prefix
    · split
      · exact ⟨cs, rfl⟩
      · exact List.cons_prefix_cons.mpr ⟨rfl, ih _⟩

theorem fgetsLine_ne_nil {n : Nat} (hn : 1 < n) (nl : UInt8) {s : Bytes} (hs : s ≠ []) :
    fgetsLine n nl s ≠ [] := by
  cases s with
  | nil => exact absurd rfl hs
  | cons c cs =>
    unfold fgetsLine
    rw [if_neg (by omega)]
    split <;> simp

/-- The pieces that `fgets` returns until the end of the file. -/
def fgetsAll (n : Nat) (hn : 1 < n) (nl : UInt8) (s : Bytes) : List Bytes :=
  if _h : s = [] then []
  else fgetsLine n nl s :: fgetsAll n hn nl (s.drop (fgetsLine n nl s).length)
termination_by s.length
decreasing_by
  have h₁ := List.length_pos_iff.mpr (fgetsLine_ne_nil hn nl _h)
  have h₂ := List.length_pos_iff.mpr _h
  rw [List.length_drop]; omega

theorem fgetsAll_flatten {n : Nat} (hn : 1 < n) (nl : UInt8) (s : Bytes) :
    (fgetsAll n hn nl s).flatten = s := by
  fun_induction fgetsAll n hn nl s with
  | case1 => rfl
  | case2 s hs ih =>
    obtain ⟨t, ht⟩ := fgetsLine_prefix n nl s
    have hdrop : s.drop (fgetsLine n nl s).length = t := by
      have := @List.drop_left _ (fgetsLine n nl s) t
      rwa [ht] at this
    rw [List.flatten_cons, ih, hdrop, ht]

/-- A line that fits is read in whole. -/
theorem fgetsLine_line {n : Nat} {nl : UInt8} {l rest : Bytes} (hl : l.length + 1 < n) (hnl : nl ∉ l) :
    fgetsLine n nl (l ++ nl :: rest) = l ++ [nl] := by
  induction l generalizing n with
  | nil =>
    rw [List.nil_append, fgetsLine, if_neg (by simp at hl; omega), if_pos rfl, List.nil_append]
  | cons c l ih =>
    rw [List.length_cons] at hl
    have hc : c ≠ nl := fun h => hnl (h ▸ List.mem_cons_self)
    rw [List.cons_append, fgetsLine, if_neg (by omega), if_neg hc,
      ih (by omega) fun h => hnl (List.mem_cons_of_mem c h), List.cons_append]

theorem fgetsAll_line {n : Nat} (hn : 1 < n) {nl : UInt8} {l rest : Bytes} (hl : l.length + 1 < n)
    (hnl : nl ∉ l) : fgetsAll n hn nl (l ++ nl :: rest) = (l ++ [nl]) :: fgetsAll n hn nl rest := by
  have hdrop : (l ++ nl :: rest).drop (l ++ [nl]).length = rest := by
    have hsplit : l ++ nl :: rest = (l ++ [nl]) ++ rest := by simp
    rw [hsplit, List.drop_left]
  rw [fgetsAll, dif_neg (by simp), fgetsLine_line hl hnl, hdrop]

/-- Lines that fit are read one by one. -/
theorem fgetsAll_unlines {n : Nat} (hn : 1 < n) {nl : UInt8} {ls : List Bytes}
    (h : ∀ l ∈ ls, l.length + 1 < n ∧ nl ∉ l) : fgetsAll n hn nl (unlines nl ls) = ls.map (· ++ [nl]) := by
  induction ls with
  | nil =>
    rw [fgetsAll]
    rfl
  | cons l ls ih =>
    have hcons : unlines nl (l :: ls) = l ++ nl :: unlines nl ls := by simp [unlines]
    obtain ⟨hlen, hnl⟩ := h l List.mem_cons_self
    rw [hcons, fgetsAll_line hn hlen hnl, ih fun l' hl' => h l' (List.mem_cons_of_mem l hl'), List.map_cons]

theorem fgetsLine_prefix_line {n : Nat} {nl : UInt8} {l rest : Bytes} (hnl : nl ∉ l) :
    fgetsLine n nl (l ++ nl :: rest) <+: l ++ [nl] := by
  induction l generalizing n with
  | nil =>
    rw [List.nil_append, fgetsLine]
    split
    · exact List.nil_prefix
    · rw [if_pos rfl]
      exact List.prefix_rfl
  | cons c l ih =>
    have hc : c ≠ nl := fun h => hnl (h ▸ List.mem_cons_self)
    rw [List.cons_append, fgetsLine, if_neg hc]
    split
    · exact List.nil_prefix
    · exact List.cons_prefix_cons.mpr ⟨rfl, ih fun h => hnl (List.mem_cons_of_mem c h)⟩

theorem fgetsLine_long {n : Nat} {nl : UInt8} {l : Bytes} (hl : n ≤ l.length + 1) (hnl : nl ∉ l) (rest : Bytes) :
    fgetsLine n nl (l ++ nl :: rest) = l.take (n - 1) := by
  induction l generalizing n with
  | nil =>
    rw [List.nil_append, fgetsLine, if_pos (by simpa using hl), List.take_nil]
  | cons c l ih =>
    have hc : c ≠ nl := fun h => hnl (h ▸ List.mem_cons_self)
    rw [List.cons_append, fgetsLine, if_neg hc]
    split
    · rename_i hn
      rw [show n - 1 = 0 by omega, List.take_zero]
    · rename_i hn
      rw [List.length_cons] at hl
      obtain ⟨m, rfl⟩ : ∃ m, n = m + 2 := ⟨n - 2, by omega⟩
      rw [ih (by omega) fun h => hnl (List.mem_cons_of_mem c h)]
      rfl

/-- A line that does not fit is read in more than one piece. -/
theorem fgetsAll_long {n : Nat} (hn : 1 < n) {nl : UInt8} {l : Bytes} (hl : n ≤ l.length + 1)
    (hnl : nl ∉ l) (rest : Bytes) : ∃ c₁ c₂ cs, fgetsAll n hn nl (l ++ nl :: rest) = c₁ :: c₂ :: cs ∧ c₁ ++ c₂ <+: l ++ [nl] := by
  have hfirst := fgetsLine_long hl hnl rest
  have hlen : (l.take (n - 1)).length = n - 1 := by
    rw [List.length_take]
    omega
  have hdrop : (l ++ nl :: rest).drop (n - 1) = l.drop (n - 1) ++ nl :: rest :=
    List.drop_append_of_le_length (by omega)
  have hnl' : nl ∉ l.drop (n - 1) := fun h => hnl (List.mem_of_mem_drop h)
  have hread : fgetsAll n hn nl (l ++ nl :: rest) =
      l.take (n - 1) :: fgetsAll n hn nl (l.drop (n - 1) ++ nl :: rest) := by
    rw [fgetsAll, dif_neg (by simp), hfirst, hlen, hdrop]
  rw [hread, fgetsAll, dif_neg (by simp)]
  refine ⟨_, _, _, rfl, ?_⟩
  have hsplit : l ++ [nl] = l.take (n - 1) ++ (l.drop (n - 1) ++ [nl]) := by
    rw [← List.append_assoc, List.take_append_drop]
  rw [hsplit]
  exact (List.prefix_append_right_inj _).mpr (fgetsLine_prefix_line hnl')

/-- A newline ends a piece. -/
theorem fgetsAll_append {n : Nat} (hn : 1 < n) {nl : UInt8} {l : Bytes} (hnl : nl ∉ l) (rest : Bytes) :
    fgetsAll n hn nl (l ++ nl :: rest) = fgetsAll n hn nl (l ++ [nl]) ++ fgetsAll n hn nl rest := by
  induction hk : l.length using Nat.strongRecOn generalizing l with
  | _ k ih =>
    by_cases hfit : l.length + 1 < n
    · rw [fgetsAll_line hn hfit hnl, fgetsAll_line hn hfit hnl]
      have hnil : fgetsAll n hn nl [] = [] := by rw [fgetsAll, dif_pos rfl]
      rw [hnil]
      rfl
    · have hcut : ∀ t, fgetsAll n hn nl (l ++ nl :: t) =
          l.take (n - 1) :: fgetsAll n hn nl (l.drop (n - 1) ++ nl :: t) := by
        intro t
        have hlen : (l.take (n - 1)).length = n - 1 := List.length_take_of_le (by omega)
        rw [fgetsAll, dif_neg (by simp), fgetsLine_long (by omega) hnl, hlen, List.drop_append_of_le_length (by omega)]
      have hshort : (l.drop (n - 1)).length < k := by
        rw [List.length_drop]
        omega
      rw [hcut, hcut, ih _ hshort (fun h => hnl (List.mem_of_mem_drop h)) rfl, List.cons_append]

/-- The text behind the first newline. -/
def nextLine (s : Bytes) : Bytes := (s.dropWhile (· != 10)).drop 1

theorem nextLine_length (s : Bytes) : (nextLine s).length ≤ s.length :=
  ((List.drop_suffix _ _).trans (List.dropWhile_suffix _)).length_le

theorem nextLine_lt {s : Bytes} (h : s ≠ []) : (nextLine s).length < s.length := by
  have hle := (List.dropWhile_suffix (l := s) (· != 10)).length_le
  have hpos := List.length_pos_iff.mpr h
  rw [nextLine, List.length_drop]
  omega

theorem nextLine_none {s : Bytes} (h : (10 : UInt8) ∉ s) : nextLine s = [] := by
  have hline : ∀ c ∈ s, (c != 10) = true := fun c hc => bne_iff_ne.mpr fun h10 => h (h10 ▸ hc)
  rw [nextLine, List.dropWhile_eq_nil_iff.mpr hline, List.drop_nil]

theorem nextLine_line {s : Bytes} (h : (10 : UInt8) ∉ s) (rest : Bytes) : nextLine (s ++ 10 :: rest) = rest := by
  have hline : ∀ c ∈ s, (c != 10) = true := fun c hc => bne_iff_ne.mpr fun h10 => h (h10 ▸ hc)
  rw [nextLine, List.dropWhile_append_of_pos hline]
  rfl

/-! ## `sscanf` -/

/-- `isspace` -/
def isSpace (c : UInt8) : Bool := c == 32 || (9 ≤ c && c ≤ 13)

/-- What a `char[n]` can hold with its terminator. -/
abbrev Buf (n : Nat) := { s : Bytes // s.length < n }

/-- A conversion `%<width>s`: the word, and the text behind it. -/
def scanWord (width : Nat) (s : Bytes) : Option (Buf (width + 1) × Bytes) :=
  let rest := s.dropWhile isSpace
  let word : Buf (width + 1) :=
    ⟨(rest.takeWhile fun c => !isSpace c).take width, Nat.lt_succ_of_le (List.length_take_le _ _)⟩
  if word.1 = [] then none else some (word, rest.drop word.1.length)

/-- What a conversion takes whole. -/
structure IsWord (width : Nat) (w : Bytes) : Prop where
  ne_nil : w ≠ []
  length_le : w.length ≤ width
  no_space : ∀ c ∈ w, isSpace c = false

section Scan

variable {width : Nat} {w s rest : Bytes} {c : UInt8}

theorem scanWord_space (hc : isSpace c = true) : scanWord width (c :: s) = scanWord width s := by
  simp [scanWord, List.dropWhile_cons_of_pos hc]

/-- A word that ends at a space, or at the end of the text. -/
theorem scanWord_word (hw : IsWord width w) (hrest : ∀ c s, rest = c :: s → isSpace c = true) :
    scanWord width (w ++ rest) = some (⟨w, Nat.lt_succ_of_le hw.length_le⟩, rest) := by
  have hdrop : (w ++ rest).dropWhile isSpace = w ++ rest := by
    obtain ⟨c, w', rfl⟩ := List.exists_cons_of_ne_nil hw.ne_nil
    rw [List.cons_append, List.dropWhile_cons_of_neg (by simp [hw.no_space c List.mem_cons_self])]
  have htake : (w ++ rest).takeWhile (fun c => !isSpace c) = w := by
    rw [List.takeWhile_append_of_pos (by simpa using hw.no_space)]
    cases rest with
    | nil => simp
    | cons c s => simp [hrest c s rfl]
  simp [scanWord, hdrop, htake, List.take_of_length_le hw.length_le, hw.ne_nil]

/-- What was taken is a word, with spaces before it. -/
theorem scanWord_some {b : Buf (width + 1)} (h : scanWord width s = some (b, rest)) :
    IsWord width b.1 ∧ ∃ spaces : Bytes, (∀ c ∈ spaces, isSpace c = true) ∧ s = spaces ++ (b.1 ++ rest) := by
  simp only [scanWord] at h
  split at h
  · cases h
  · next hne =>
    obtain ⟨rfl, rfl⟩ := Prod.mk.inj (Option.some.inj h)
    refine ⟨⟨hne, List.length_take_le _ _, fun c hc => ?_⟩, s.takeWhile isSpace,
      fun c hc => List.mem_takeWhile_imp hc, ?_⟩
    · simpa using List.mem_takeWhile_imp (List.mem_of_mem_take hc)
    · have hpre : (((s.dropWhile isSpace).takeWhile fun c => !isSpace c).take width) <+: s.dropWhile isSpace :=
        (List.take_prefix _ _).trans (List.takeWhile_prefix _)
      rw [List.prefix_iff_eq_append.mp hpre, List.takeWhile_append_dropWhile]

/-- The characters of a text that are not spaces. -/
def inked (s : Bytes) : Nat := s.countP fun c => !isSpace c

theorem inked_word (hw : IsWord width w) : inked w = w.length :=
  List.countP_eq_length.mpr fun c hc => by simp [hw.no_space c hc]

theorem inked_scanWord {b : Buf (width + 1)} (h : scanWord width s = some (b, rest)) :
    inked s = b.1.length + inked rest := by
  obtain ⟨hw, spaces, hspaces, rfl⟩ := scanWord_some h
  have hnone : inked spaces = 0 := List.countP_eq_zero.mpr fun c hc => by simp [hspaces c hc]
  have hword := inked_word hw
  unfold inked at *
  rw [List.countP_append, List.countP_append, hnone, hword, Nat.zero_add]

end Scan

end CString
