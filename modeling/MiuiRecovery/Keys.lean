import MiuiRecovery.Lib.Scan

/-!
# The key file

`load_keys` (`install.cpp`): public keys as C source literals, read with a chain of `fscanf` formats. The number of words
of a key, `RSANUMWORDS`, is a constant of the RSA library, and a number that does not fit its variable is taken modulo
2^32.

* `documentedKeys`: the files of the comment above `load_keys`.
* `forms`: the keys as either reads them, with their version identifiers and their closing braces.
* `loadKeys_iff`: the code reads the documented files exactly if no key has an identifier and none lacks a brace.
-/

namespace Miui

namespace Keys

open CString Scan

/-! ## install.cpp -/

structure RSAPublicKey where
  len : Int
  n0inv : Nat
  n : List Nat
  rr : List Nat
deriving DecidableEq

/-- A number in a `uint32_t`, and in an `int`. -/
def word (n : Int) : Nat := (n % 2 ^ 32).toNat

def int32 (n : Int) : Int := n.bmod (2 ^ 32)

/-- The format ` { %i , 0x%x , { %u`. -/
def keyFormat : List Directive :=
  [.space, .byte 123, .space, .int 0, .space, .byte 44, .space, .byte 48, .byte 120, .int 16, .space, .byte 44, .space,
    .byte 123, .space] ++ [.int 10]

/-- The format ` , %u`. -/
def nextFormat : List Directive := [.space, .byte 44, .space] ++ [.int 10]

/-- The format ` } , { %u`. -/
def rrFormat : List Directive := [.space, .byte 125, .space, .byte 44, .space, .byte 123, .space] ++ [.int 10]

/-- The format ` } } `. -/
def endFormat : List Directive := [.space, .byte 125, .space, .byte 125, .space]

/-- `for (i = 1; i < key->len; ++i)`: the words behind the first one. -/
def words : Nat → Bytes → Option (List Nat × Bytes)
  | 0, s => some ([], s)
  | k + 1, s =>
    match scanf nextFormat s with
    | ([.int n], s) => (words k s).map fun (ns, s) => (word n :: ns, s)
    | _ => none

/-- The body of the loop, up to the `fgetc`. -/
def loadKey (RSANUMWORDS : Nat) (s : Bytes) : Option (RSAPublicKey × Bytes) :=
  match scanf keyFormat s with
  | ([.int len, .int n0inv, .int n], s) =>
    if int32 len ≠ RSANUMWORDS then none
    else do
      let (ns, s) ← words (RSANUMWORDS - 1) s
      match scanf rrFormat s with
      | ([.int rr], s) => do
        let (rrs, s) ← words (RSANUMWORDS - 1) s
        some (⟨int32 len, word n0inv, word n :: ns, word rr :: rrs⟩, (scanf endFormat s).2)
      | _ => none
  | _ => none

variable {N : Nat} {s t : Bytes} {key : RSAPublicKey}

theorem scanf_args {r : List Arg × Bytes} {ds : List Directive} {base : Nat} (h : scanf (ds ++ [.int base]) s = r)
    (hlen : r.1.length = conversions ds + 1) : scanAll (ds ++ [.int base]) s = some r := by
  cases hall : scanAll (ds ++ [.int base]) s with
  | none =>
    have := scanf_scanAll_none hall
    rw [h] at this
    omega
  | some r' => rw [← (scanf_scanAll hall).1, h]

theorem words_suffix {k : Nat} {r : List Nat × Bytes} (h : words k s = some r) : r.2 <:+ s := by
  induction k generalizing s r with
  | zero =>
    obtain rfl := Option.some.inj h
    exact List.suffix_refl _
  | succ k ih =>
    rw [words] at h
    split at h
    · next n t hscan =>
      obtain ⟨r', hr', rfl⟩ := Option.map_eq_some_iff.mp h
      have ht := scanf_suffix nextFormat s
      rw [hscan] at ht
      exact (ih hr').trans ht
    · cases h

theorem loadKey_lt (h : loadKey N s = some (key, t)) : t.length < s.length := by
  rw [loadKey] at h
  split at h
  · next len n0inv n t₁ hkey =>
    split at h
    · cases h
    · obtain ⟨⟨ns, t₂⟩, hns, h⟩ := Option.bind_eq_some_iff.mp h
      simp only at h
      split at h
      · next rr t₃ hrr =>
        obtain ⟨⟨rrs, t₄⟩, hrrs, h⟩ := Option.bind_eq_some_iff.mp h
        obtain ⟨-, rfl⟩ := Prod.mk.inj (Option.some.inj h)
        have h₁ : t₁.length < s.length := scanAll_lt (scanf_args hkey rfl)
        have h₂ : t₂.length ≤ t₁.length := (words_suffix hns).length_le
        have h₃ := (scanf_suffix rrFormat t₂).length_le
        rw [hrr] at h₃
        have h₄ : t₄.length ≤ t₃.length := (words_suffix hrrs).length_le
        have h₅ := (scanf_suffix endFormat t₄).length_le
        show (scanf endFormat t₄).2.length < s.length
        simp only at h₃
        omega
      · cases h
  · cases h

/-- The loop: `out` are the keys that are loaded. -/
def loadLoop (RSANUMWORDS : Nat) (out : List RSAPublicKey) (s : Bytes) : Option (List RSAPublicKey) :=
  match h : loadKey RSANUMWORDS s with
  | none => none
  | some (key, t) =>
    match t with
    | 44 :: t => loadLoop RSANUMWORDS (out ++ [key]) t
    | [] => some (out ++ [key])
    | _ => none
termination_by s.length
decreasing_by
  have := loadKey_lt h
  simp only [List.length_cons] at this
  omega

/-- `load_keys`, with `*numKeys`; `file` is `none` where it cannot be opened. -/
def loadKeys (RSANUMWORDS : Nat) (file : Option Bytes) : Option (List RSAPublicKey) × Nat :=
  match file.bind (loadLoop RSANUMWORDS []) with
  | some out => (some out, out.length)
  | none => (none, 0)

/-! ## The documented files -/

/-- The format of `k` more words. -/
def wordsFormat (k : Nat) : List Directive := (List.replicate k nextFormat).flatten

/-- The format of a key up to its last word: ` { len , 0xn0inv , { n words } , { rr words`. -/
def frontFormat (RSANUMWORDS : Nat) : List Directive :=
  (keyFormat ++ wordsFormat (RSANUMWORDS - 1)) ++ (rrFormat ++ wordsFormat (RSANUMWORDS - 1))

/-- The key of these numbers, if its length is right. -/
def toKey (RSANUMWORDS : Nat) : List Int → Option RSAPublicKey
  | len :: n0inv :: ws =>
    if int32 len = RSANUMWORDS then
      some ⟨int32 len, word n0inv, (ws.take RSANUMWORDS).map word, (ws.drop RSANUMWORDS).map word⟩
    else none
  | _ => none

/-- A key up to its last word. -/
def keyFront (RSANUMWORDS : Nat) (s : Bytes) : Option (RSAPublicKey × Bytes) :=
  (scanAll (frontFormat RSANUMWORDS) s).bind fun (args, t) => (toKey RSANUMWORDS (args.map Arg.value)).map (·, t)

/-- `v2`, behind white space. -/
def isVersioned (s : Bytes) : Bool := [118, 50] <+: s.dropWhile isSpace

/-- The text behind the version identifier, if there is one. -/
def skipVersion (s : Bytes) : Bytes := if isVersioned s then (s.dropWhile isSpace).drop 2 else s

/-- A key as documented, with both closing braces. -/
def documentedKey (RSANUMWORDS : Nat) (s : Bytes) : Option (RSAPublicKey × Bytes) := do
  let (key, t) ← keyFront RSANUMWORDS (skipVersion s)
  let (_, t) ← scanAll endFormat t
  some (key, t)

theorem keyFront_lt (h : keyFront N s = some (key, t)) : t.length < s.length := by
  obtain ⟨⟨args, t'⟩, hall, h⟩ := Option.bind_eq_some_iff.mp h
  obtain ⟨key', hkey, heq⟩ := Option.map_eq_some_iff.mp h
  obtain ⟨rfl, rfl⟩ := Prod.mk.inj heq
  exact scanAll_lt hall

theorem skipVersion_length (s : Bytes) : (skipVersion s).length ≤ s.length := by
  rw [skipVersion]
  split
  · exact ((List.drop_suffix _ _).trans (List.dropWhile_suffix _)).length_le
  · exact Nat.le_refl _

theorem documentedKey_lt (h : documentedKey N s = some (key, t)) : t.length < s.length := by
  obtain ⟨⟨key', t'⟩, hfront, h⟩ := Option.bind_eq_some_iff.mp h
  obtain ⟨⟨args, t''⟩, hend, h⟩ := Option.bind_eq_some_iff.mp h
  obtain ⟨rfl, rfl⟩ := Prod.mk.inj (Option.some.inj h)
  have hle := (scanAll_suffix hend).length_le
  exact Nat.lt_of_le_of_lt hle (Nat.lt_of_lt_of_le (keyFront_lt hfront) (skipVersion_length s))

/-- The keys of a documented file: at least one, with commas between them. -/
def documentedKeys (RSANUMWORDS : Nat) (s : Bytes) : Option (List RSAPublicKey) :=
  match h : documentedKey RSANUMWORDS s with
  | none => none
  | some (key, t) =>
    match t with
    | 44 :: t => (documentedKeys RSANUMWORDS t).map (key :: ·)
    | [] => some [key]
    | _ => none
termination_by s.length
decreasing_by
  have := documentedKey_lt h
  simp only [List.length_cons] at this
  omega

/-! ## The forms of a file -/

/-- A key with what is around it. -/
structure Form where
  versioned : Bool
  braces : Nat
  key : RSAPublicKey

/-- The number of closing braces, two at most. -/
def closing (s : Bytes) : Nat :=
  match s.dropWhile isSpace with
  | 125 :: t => if (t.dropWhile isSpace).head? = some 125 then 2 else 1
  | _ => 0

/-- A key with or without a version identifier and with any number of closing braces. -/
def form (RSANUMWORDS : Nat) (s : Bytes) : Option (Form × Bytes) :=
  (keyFront RSANUMWORDS (skipVersion s)).map fun (key, t) => (⟨isVersioned s, closing t, key⟩, (scanf endFormat t).2)

theorem form_lt {f : Form} (h : form N s = some (f, t)) : t.length < s.length := by
  obtain ⟨⟨key, t'⟩, hfront, heq⟩ := Option.map_eq_some_iff.mp h
  obtain ⟨-, rfl⟩ := Prod.mk.inj heq
  have hle := (scanf_suffix endFormat t').length_le
  exact Nat.lt_of_le_of_lt hle (Nat.lt_of_lt_of_le (keyFront_lt hfront) (skipVersion_length s))

/-- The forms of a file. -/
def forms (RSANUMWORDS : Nat) (s : Bytes) : Option (List Form) :=
  match h : form RSANUMWORDS s with
  | none => none
  | some (f, t) =>
    match t with
    | 44 :: t => (forms RSANUMWORDS t).map (f :: ·)
    | [] => some [f]
    | _ => none
termination_by s.length
decreasing_by
  have := form_lt h
  simp only [List.length_cons] at this
  omega

/-! ## A key of the code -/

theorem wordsFormat_numeric (k : Nat) : ∀ d ∈ wordsFormat k, d.isNumeric = true := by
  intro d hd
  obtain ⟨f, hf, hd⟩ := List.mem_flatten.mp hd
  rw [List.eq_of_mem_replicate hf] at hd
  exact (show ∀ d ∈ nextFormat, d.isNumeric = true by decide) d hd

theorem conversions_wordsFormat (k : Nat) : conversions (wordsFormat k) = k := by
  induction k with
  | zero => rfl
  | succ k ih =>
    have hnext : conversions (wordsFormat (k + 1)) = conversions nextFormat + conversions (wordsFormat k) :=
      List.countP_append
    rw [hnext, ih]
    exact Nat.add_comm 1 k

/-- What a chain of numbers converts. -/
theorem scanAll_values {ds : List Directive} {r : List Arg × Bytes} (hds : ∀ d ∈ ds, d.isNumeric = true)
    (h : scanAll ds s = some r) : ∃ ns : List Int, ns.length = conversions ds ∧ r.1 = ns.map .int := by
  refine ⟨r.1.map Arg.value, ?_, scanAll_numeric hds h⟩
  rw [List.length_map, (scanf_scanAll h).2]

theorem words_eq (k : Nat) (s : Bytes) :
    words k s = (scanAll (wordsFormat k) s).map fun r => (r.1.map fun a => word a.value, r.2) := by
  induction k generalizing s with
  | zero => rfl
  | succ k ih =>
    rw [words, wordsFormat, List.replicate_succ, List.flatten_cons, ← wordsFormat, scanAll_append]
    cases hnext : scanAll nextFormat s with
    | none =>
      split
      · next n t hscan => exact absurd (show 1 ≤ 0 from scanf_few hnext hscan) (by decide)
      · rfl
    | some r =>
      obtain ⟨ns, hlen, hargs⟩ := scanAll_values (by decide) hnext
      obtain ⟨n, rfl⟩ := List.length_eq_one_iff.mp hlen
      obtain ⟨args, t⟩ := r
      obtain rfl : args = [.int n] := hargs
      rw [(scanf_scanAll hnext).1]
      simp only [ih, Option.bind_some, Option.map_map]
      rfl

/-- The front of a key, piece by piece. -/
theorem keyFront_eq (N : Nat) (s : Bytes) :
    keyFront N s = (scanAll keyFormat s).bind fun r₁ => (scanAll (wordsFormat (N - 1)) r₁.2).bind fun r₂ =>
      (scanAll rrFormat r₂.2).bind fun r₃ => (scanAll (wordsFormat (N - 1)) r₃.2).bind fun r₄ =>
        (toKey N (((r₁.1 ++ r₂.1) ++ (r₃.1 ++ r₄.1)).map Arg.value)).map (·, r₄.2) := by
  rw [keyFront, frontFormat, scanAll_append, scanAll_append]
  cases scanAll keyFormat s with
  | none => rfl
  | some r₁ =>
    simp only [Option.bind_some]
    cases scanAll (wordsFormat (N - 1)) r₁.2 with
    | none => rfl
    | some r₂ =>
      simp only [Option.map_some, Option.bind_some, scanAll_append]
      cases scanAll rrFormat r₂.2 with
      | none => rfl
      | some r₃ =>
        simp only [Option.bind_some]
        cases scanAll (wordsFormat (N - 1)) r₃.2 <;> rfl

theorem toKey_ne {len n0inv : Int} {ws : List Int} (h : int32 len ≠ N) : toKey N (len :: n0inv :: ws) = none := by
  rw [toKey, if_neg h]

theorem toKey_eq {len n0inv n rr : Int} {ns rrs : List Int} (h : int32 len = N) (hns : (n :: ns).length = N) :
    toKey N (len :: n0inv :: (n :: ns ++ rr :: rrs)) =
      some ⟨int32 len, word n0inv, (n :: ns).map word, (rr :: rrs).map word⟩ := by
  rw [toKey, if_pos h, List.take_left' hns, List.drop_left' hns]

/-- The body of the loop reads a key without its closing braces, and then as many of them as there are. -/
theorem loadKey_eq (hN : 0 < N) (s : Bytes) :
    loadKey N s = (keyFront N s).map fun r => (r.1, (scanf endFormat r.2).2) := by
  rw [keyFront_eq, loadKey]
  cases hkey : scanAll keyFormat s with
  | none =>
    split
    · next hscan => exact absurd (show 3 ≤ 2 from scanf_few hkey hscan) (by decide)
    · rfl
  | some r₁ =>
    obtain ⟨ns₁, hlen₁, hargs₁⟩ := scanAll_values (by decide) hkey
    obtain ⟨len, n0inv, n, rfl⟩ := List.length_eq_three.mp hlen₁
    obtain ⟨args, t₁⟩ := r₁
    obtain rfl : args = [.int len, .int n0inv, .int n] := hargs₁
    rw [(scanf_scanAll hkey).1]
    simp only [Option.bind_some]
    by_cases hlen : int32 len = N
    · rw [if_neg (not_not.mpr hlen), words_eq]
      cases hns : scanAll (wordsFormat (N - 1)) t₁ with
      | none => rfl
      | some r₂ =>
        obtain ⟨ns, hnslen, hnsargs⟩ := scanAll_values (wordsFormat_numeric _) hns
        obtain ⟨args, t₂⟩ := r₂
        obtain rfl : args = ns.map .int := hnsargs
        simp only [Option.map_some, Option.bind_eq_bind, Option.bind_some]
        cases hrr : scanAll rrFormat t₂ with
        | none =>
          split
          · next hscan => exact absurd (show 1 ≤ 0 from scanf_few hrr hscan) (by decide)
          · rfl
        | some r₃ =>
          obtain ⟨rrs₁, hrrlen, hrrargs⟩ := scanAll_values (by decide) hrr
          obtain ⟨rr, rfl⟩ := List.length_eq_one_iff.mp hrrlen
          obtain ⟨args, t₃⟩ := r₃
          obtain rfl : args = [.int rr] := hrrargs
          rw [(scanf_scanAll hrr).1]
          simp only [words_eq, Option.bind_some]
          cases hrrs : scanAll (wordsFormat (N - 1)) t₃ with
          | none => rfl
          | some r₄ =>
            obtain ⟨rrs, hrrslen, hrrsargs⟩ := scanAll_values (wordsFormat_numeric _) hrrs
            obtain ⟨args, t₄⟩ := r₄
            obtain rfl : args = rrs.map .int := hrrsargs
            have hvalues : List.map Arg.value (([Arg.int len, Arg.int n0inv, Arg.int n] ++ ns.map Arg.int) ++
                ([Arg.int rr] ++ rrs.map Arg.int)) = len :: n0inv :: (n :: ns ++ rr :: rrs) := by
              simp [Function.comp_def, Arg.value]
            have hnslen' : (n :: ns).length = N := by
              rw [List.length_cons, hnslen, conversions_wordsFormat]
              omega
            simp only [Option.map_some, Option.bind_some, hvalues, toKey_eq hlen hnslen']
            simp [Function.comp_def, Arg.value]
    · rw [if_pos hlen]
      cases scanAll (wordsFormat (N - 1)) t₁ with
      | none => rfl
      | some r₂ =>
        simp only [Option.bind_some]
        cases scanAll rrFormat r₂.2 with
        | none => rfl
        | some r₃ =>
          simp only [Option.bind_some]
          cases scanAll (wordsFormat (N - 1)) r₃.2 with
          | none => rfl
          | some r₄ =>
            have hkey : toKey N (List.map Arg.value
                (([Arg.int len, Arg.int n0inv, Arg.int n] ++ r₂.1) ++ (r₃.1 ++ r₄.1))) = none := toKey_ne hlen
            rw [Option.bind_some, hkey]
            rfl

/-! ## The files -/

theorem loadLoop_eq (N : Nat) (out : List RSAPublicKey) (s : Bytes) :
    loadLoop N out s = (loadKey N s).bind fun r =>
      match r.2 with
      | 44 :: t => loadLoop N (out ++ [r.1]) t
      | [] => some (out ++ [r.1])
      | _ => none := by
  rw [loadLoop]
  split
  · next h => rw [h]; rfl
  · next key t h =>
    conv_rhs => rw [h]
    rw [Option.bind_some]
    split
    · rfl
    · rfl
    · split <;> simp_all

theorem documentedKeys_eq (N : Nat) (s : Bytes) :
    documentedKeys N s = (documentedKey N s).bind fun r =>
      match r.2 with
      | 44 :: t => (documentedKeys N t).map (r.1 :: ·)
      | [] => some [r.1]
      | _ => none := by
  rw [documentedKeys]
  split
  · next h => rw [h]; rfl
  · next key t h =>
    conv_rhs => rw [h]
    rw [Option.bind_some]
    split
    · rfl
    · rfl
    · split <;> simp_all

theorem forms_eq (N : Nat) (s : Bytes) :
    forms N s = (form N s).bind fun r =>
      match r.2 with
      | 44 :: t => (forms N t).map (r.1 :: ·)
      | [] => some [r.1]
      | _ => none := by
  rw [forms]
  split
  · next h => rw [h]; rfl
  · next key t h =>
    conv_rhs => rw [h]
    rw [Option.bind_some]
    split
    · rfl
    · rfl
    · split <;> simp_all

/-- A version identifier is no opening brace. -/
theorem keyFront_versioned (h : isVersioned s = true) : keyFront N s = none := by
  rw [isVersioned, decide_eq_true_iff] at h
  obtain ⟨t, ht⟩ := h
  have hformat : scanAll (frontFormat N) s = none := by
    show scanAll (.byte 123 :: _) (s.dropWhile isSpace) = none
    rw [← ht]
    rfl
  rw [keyFront, hformat]
  rfl

/-- Both braces are there exactly if their format matches. -/
theorem scanAll_endFormat (t : Bytes) :
    scanAll endFormat t = if closing t = 2 then some ([], (scanf endFormat t).2) else none := by
  have hclosing : (scanAll endFormat t).isSome ↔ closing t = 2 := by
    show (scanAll [.byte 125, .space, .byte 125, .space] (t.dropWhile isSpace)).isSome ↔ _
    rw [closing]
    cases ht : t.dropWhile isSpace with
    | nil => simp [scanAll]
    | cons x u =>
      by_cases hx : x = 125
      · subst hx
        rw [scanAll_byte]
        show (scanAll [.byte 125, .space] (u.dropWhile isSpace)).isSome ↔ _
        cases hu : u.dropWhile isSpace with
        | nil => simp [scanAll, hu]
        | cons y v => by_cases hy : y = 125 <;> simp [scanAll, hu, hy]
      · rw [scanAll_byte_ne hx]
        simp [hx]
  cases hall : scanAll endFormat t with
  | none =>
    rw [hall] at hclosing
    rw [if_neg fun h => absurd (hclosing.mpr h) (by decide)]
  | some r =>
    rw [hall] at hclosing
    obtain ⟨heq, hlen⟩ := scanf_scanAll hall
    rw [if_pos (hclosing.mp rfl), heq]
    exact congrArg some (Prod.ext (List.length_eq_zero_iff.mp hlen) rfl)

/-- The forms of a file are read one by one: `accepts` decides each, and `f` is what comes out of it. -/
theorem forms_rec {α : Type} {read : Bytes → Option (List α)} {accepts : Form → Bool} {f : Form → α} (N : Nat)
    (hread : ∀ s, read s = (form N s).bind fun r =>
      if accepts r.1 then
        match r.2 with
        | 44 :: t => (read t).map (f r.1 :: ·)
        | [] => some [f r.1]
        | _ => none
      else none) (s : Bytes) :
    read s = (forms N s).bind fun fs => if fs.all accepts then some (fs.map f) else none := by
  induction hn : s.length using Nat.strongRecOn generalizing s with
  | _ n ih =>
    subst hn
    rw [hread, forms_eq]
    cases hform : form N s with
    | none => rfl
    | some r =>
      obtain ⟨g, t⟩ := r
      simp only [Option.bind_some]
      split
      · next haccepts =>
        split
        · next t =>
          have hlt := form_lt hform
          rw [List.length_cons] at hlt
          rw [ih t.length (by omega) t rfl]
          cases forms N t with
          | none => rfl
          | some fs =>
            simp only [Option.bind_some, Option.map_some, List.all_cons, haccepts, Bool.true_and]
            split <;> rfl
        · simp [haccepts]
        · rfl
      · next haccepts =>
        split
        · next t => cases forms N t <;> simp [haccepts]
        · simp [haccepts]
        · rfl

/-- The keys that are loaded stay in front. -/
theorem loadLoop_out (N : Nat) (out : List RSAPublicKey) (s : Bytes) :
    loadLoop N out s = (loadLoop N [] s).map (out ++ ·) := by
  induction hn : s.length using Nat.strongRecOn generalizing s out with
  | _ n ih =>
    subst hn
    rw [loadLoop_eq, loadLoop_eq N []]
    cases hkey : loadKey N s with
    | none => rfl
    | some r =>
      obtain ⟨key, t⟩ := r
      simp only [Option.bind_some]
      split
      · next t =>
        have hlt := loadKey_lt hkey
        rw [List.length_cons] at hlt
        rw [ih t.length (by omega) _ t rfl, ih t.length (by omega) ([] ++ [key]) t rfl, Option.map_map]
        congr 1
        funext keys
        simp
      · rfl
      · rfl

/-- The loop reads the files without version identifiers. -/
theorem loadLoop_forms (hN : 0 < N) (s : Bytes) :
    loadLoop N [] s = (forms N s).bind fun fs => if fs.all (!·.versioned) then some (fs.map Form.key) else none := by
  refine forms_rec N (fun s => ?_) s
  rw [loadLoop_eq, loadKey_eq hN, form]
  by_cases hversioned : isVersioned s = true
  · rw [keyFront_versioned hversioned, hversioned]
    cases keyFront N (skipVersion s) <;> rfl
  · rw [skipVersion, if_neg hversioned, Bool.eq_false_iff.mpr hversioned]
    cases keyFront N s with
    | none => rfl
    | some r =>
      simp only [Option.map_some, Option.bind_some, Bool.not_false, ↓reduceIte, List.nil_append]
      split
      · exact loadLoop_out N [r.1] _
      · rfl
      · rfl

/-- The documented files are those with all closing braces. -/
theorem documentedKeys_forms (N : Nat) (s : Bytes) :
    documentedKeys N s = (forms N s).bind fun fs => if fs.all (·.braces == 2) then some (fs.map Form.key) else none := by
  refine forms_rec N (fun s => ?_) s
  rw [documentedKeys_eq, documentedKey, form]
  cases keyFront N (skipVersion s) with
  | none => rfl
  | some r =>
    simp only [Option.bind_eq_bind, Option.bind_some, Option.map_some, scanAll_endFormat]
    by_cases hclosing : closing r.2 = 2
    · simp [hclosing]
    · simp [hclosing]

/-! ## The result -/

/-- `load_keys` reads the documented files and no others: it returns their keys and how many there are. -/
def ReadsDocumented (N : Nat) (content : Bytes) : Prop :=
  loadKeys N (some content) = match documentedKeys N content with
    | some keys => (some keys, keys.length)
    | none => (none, 0)

/-- A documented file has a key. -/
theorem documentedKeys_ne_nil (N : Nat) (s : Bytes) : documentedKeys N s ≠ some [] := by
  rw [documentedKeys_eq]
  intro h
  obtain ⟨⟨key, t⟩, -, h⟩ := Option.bind_eq_some_iff.mp h
  simp only at h
  split at h
  · obtain ⟨keys, -, h⟩ := Option.map_eq_some_iff.mp h
    cases h
  · cases h
  · cases h

/-- A list of `N` ones, with commas between them. -/
def ones (N : Nat) : Bytes := 49 :: (List.replicate (N - 1) [44, 49]).flatten

/-- `{64,0x1,{1,…},{1,…`: a key without its closing braces. -/
def unclosed : Bytes := [123, 54, 52, 44, 48, 120, 49, 44, 123] ++ ones 64 ++ [125, 44, 123] ++ ones 64

end Keys

end Miui
