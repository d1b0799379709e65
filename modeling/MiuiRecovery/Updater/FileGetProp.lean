import MiuiRecovery.Lib.InPlace
import MiuiRecovery.Updater.Install

/-!
# file_getprop

The scan of `FileGetPropFn` (`updater/install.c`) over the text of a property file, which it takes apart in place.

* `propRound_spec`: a line that `strtok` has found.
* `scanProperties_eq`: a text with a line in it gives the value of the first line with the key, up to a malformed line.
* `fileGetProp_spec`: the function on a file.
-/

namespace Miui
namespace Updater

open CString InPlace

/-! ## updater/install.c -/

/-- What a line leads to: the next one (with the buffer), or the end of the loop. -/
inductive PropRound
  | next (m : Bytes)
  | malformed (line : Bytes)
  | found (value : Bytes)

/-- The value behind the `=` at `equal`. -/
def readValue (m : Bytes) (equal : Nat) : Option Bytes := do
  let val_start ← advance isSpace m (equal + 1)
  let val_end ← retreat isSpace m val_start (val_start + (← strAt m val_start).length - 1)
  let m ← store m (val_end + 1).toNat 0
  strAt m val_start

/-- The line at `line`. -/
def propRound (key m : Bytes) (line : Nat) : Option PropRound := do
  let line ← advance isSpace m line
  let c ← load m line
  if c = 0 ∨ c = 35 then some (.next m)
  else
    let equal ← advance (fun c => c != 61 && c != 0) m line
    if (← load m equal) = 0 then (strAt m line).map .malformed
    else
      let key_end ← retreat isSpace m line (equal - 1)
      let m ← store m (key_end + 1).toNat 0
      if (← strAt m line) ≠ key then some (.next m) else (readValue m equal).map .found

/-- The lines from `line` on, where `strtok` left off at `last`: the value, or the malformed line. -/
def propLoop (key : Bytes) : Nat → Bytes → Nat → Nat → Option (Except Bytes Bytes)
  | 0, _, _, _ => none
  | fuel + 1, m, line, last => do
    match ← propRound key m line with
    | .malformed text => some (.error text)
    | .found value => some (.ok value)
    | .next m =>
      match ← strtok 10 m last with
      | (none, _, _) => some (.ok [])
      | (some line, m, last) => propLoop key fuel m line last

/-- The loop on the buffer. The first line is looked at without a test whether there is one. -/
def scanProperties (key buffer : Bytes) : Option (Except Bytes Bytes) := do
  let (line, m, last) ← strtok 10 buffer 0
  propLoop key buffer.length m (← line) last

/-- `FileGetPropFn` on a file that can be read: the error message, or the value. -/
def fileGetProp (name filename key content : Bytes) : Option (Except Bytes Bytes) :=
  if (content.length : Int) > MAX_FILE_GETPROP_SIZE then
    some (.error (filename ++ Bytes.ascii " too large for " ++ name ++ Bytes.ascii " (max 65536)"))
  else
    (scanProperties key (content ++ [0])).map fun r => r.mapError fun line =>
      name ++ Bytes.ascii ": malformed line \"" ++ line ++ Bytes.ascii "\": " ++ filename ++ Bytes.ascii " not a prop file?"

/-! ## Property files -/

/-- A comment or a blank line. -/
def Ignored (line : Bytes) : Prop := ∀ c ∈ (line.dropWhile isSpace).head?, c = 35

instance (line : Bytes) : Decidable (Ignored line) := Option.decidableForallMem (line.dropWhile isSpace).head?

def propKey (line : Bytes) : Bytes := trim (line.takeWhile (· != 61))

def propValue (line : Bytes) : Bytes := trim ((line.dropWhile (· != 61)).drop 1)

/-- The value of the key, by the lines in their order; the first line that is no property ends the search. -/
def lookupProp (key : Bytes) : List Bytes → Except Bytes Bytes
  | [] => .ok []
  | line :: lines =>
    if Ignored line then lookupProp key lines
    else if (61 : UInt8) ∉ line then .error (line.dropWhile isSpace)
    else if propKey line = key then .ok (propValue line)
    else lookupProp key lines

/-- The lines that are not empty. -/
def propLines (content : Bytes) : List Bytes := tokens (· == 10) (cstr content)

/-! ## The scan -/

variable {key a l m rest t r : Bytes} {d : UInt8}

/-- A text is cut behind its last byte that is no space. -/
theorem cut_spec (hhead : ∀ c ∈ t.head?, isSpace c = false) :
    ∃ y : Bytes, (t.rdropWhile isSpace).length + y.length = t.length ∧
      (retreat isSpace (a ++ (t ++ d :: r)) a.length (a.length + t.length - 1)).bind
        (fun p => store (a ++ (t ++ d :: r)) (p + 1).toNat 0) = some (a ++ (t.rdropWhile isSpace ++ 0 :: (y ++ r))) := by
  have hsplit : t.rdropWhile isSpace ++ t.rtakeWhile isSpace = t := List.rdropWhile_append_rtakeWhile
  obtain ⟨x, y, hxy⟩ : ∃ x y, t.rtakeWhile isSpace ++ [d] = x :: y := List.exists_cons_of_ne_nil (by simp)
  have hlen := congrArg List.length hsplit
  have hlen' := congrArg List.length hxy
  rw [List.length_append] at hlen
  rw [List.length_append, List.length_singleton, List.length_cons] at hlen'
  have hmem : a ++ (t ++ d :: r) = (a ++ t.rdropWhile isSpace) ++ x :: (y ++ r) := by
    calc a ++ (t ++ d :: r) = a ++ (t ++ ([d] ++ r)) := rfl
      _ = a ++ ((t.rdropWhile isSpace ++ t.rtakeWhile isSpace) ++ ([d] ++ r)) := by rw [hsplit]
      _ = (a ++ t.rdropWhile isSpace) ++ ((t.rtakeWhile isSpace ++ [d]) ++ r) := by simp only [List.append_assoc]
      _ = (a ++ t.rdropWhile isSpace) ++ x :: (y ++ r) := by rw [hxy, List.cons_append]
  refine ⟨y, by omega, ?_⟩
  rw [retreat_eq hhead, Option.bind_some, hmem,
    show ((a.length : Int) + ((t.rdropWhile isSpace).length : Nat) - 1 + 1).toNat = (a ++ t.rdropWhile isSpace).length by
      rw [List.length_append]; omega, store_eq, List.append_assoc]

theorem isSpace_zero : isSpace 0 = false := rfl

theorem readValue_spec (h0 : (0 : UInt8) ∉ t) {equal : Nat} (hequal : equal + 1 = a.length) :
    readValue (a ++ (t ++ 0 :: r)) equal = some (trim t) := by
  have hsplit := List.takeWhile_append_dropWhile (p := isSpace) (l := t)
  have hsp := takeWhile_space t
  have hhead := head_dropWhile_space t
  generalize t.takeWhile isSpace = sp at hsplit hsp
  generalize t.dropWhile isSpace = v at hsplit hhead
  subst hsplit
  have hv0 : (0 : UInt8) ∉ v := fun h => h0 (List.mem_append_right _ h)
  have hassoc : a ++ (sp ++ v ++ 0 :: r) = (a ++ sp) ++ (v ++ 0 :: r) := by simp only [List.append_assoc]
  have hstart : advance isSpace (a ++ (sp ++ v ++ 0 :: r)) (equal + 1) = some (a ++ sp).length := by
    rw [hequal, List.length_append, List.append_assoc]
    cases v with
    | nil => exact advance_eq hsp isSpace_zero
    | cons c v => exact advance_eq hsp (hhead c rfl)
  obtain ⟨y, -, hcut⟩ := cut_spec (a := a ++ sp) (d := 0) (r := r) hhead
  rw [readValue, hstart, hassoc]
  simp only [Option.bind_eq_bind, Option.bind_some, strAt_eq hv0]
  rw [← Option.bind_assoc, hcut, Option.bind_some, strAt_eq (rdropWhile_not_mem hv0), trim_append hsp hhead]

section Round

variable {sp k v : Bytes} {c : UInt8} (hsp : ∀ c ∈ sp, isSpace c = true)

include hsp

theorem propRound_blank (key : Bytes) :
    propRound key (a ++ (sp ++ 0 :: r)) a.length = some (.next (a ++ (sp ++ 0 :: r))) := by
  have hload : load (a ++ (sp ++ 0 :: r)) (a.length + sp.length) = some 0 := by
    rw [← List.append_assoc, ← List.length_append]
    exact load_eq
  simp [propRound, advance_eq hsp isSpace_zero, hload]

/-- The first byte that is no space. -/
theorem propRound_start (hc : isSpace c = false) :
    advance isSpace (a ++ (sp ++ c :: t)) a.length = some (a.length + sp.length) ∧
      load (a ++ (sp ++ c :: t)) (a.length + sp.length) = some c := by
  refine ⟨advance_eq hsp hc, ?_⟩
  rw [← List.append_assoc, ← List.length_append]
  exact load_eq

theorem propRound_comment (key : Bytes) :
    propRound key (a ++ (sp ++ 35 :: t)) a.length = some (.next (a ++ (sp ++ 35 :: t))) := by
  obtain ⟨hstart, hload⟩ := propRound_start (a := a) (t := t) hsp (c := 35) rfl
  simp [propRound, hstart, hload]

theorem propRound_malformed (key : Bytes) (hc : isSpace c = false) (hc35 : c ≠ 35) (h0 : (0 : UInt8) ∉ c :: t)
    (h61 : (61 : UInt8) ∉ c :: t) :
    propRound key (a ++ (sp ++ (c :: t ++ 0 :: r))) a.length = some (.malformed (c :: t)) := by
  obtain ⟨hstart, hload⟩ := propRound_start (a := a) (t := t ++ 0 :: r) hsp hc
  have hc0 : c ≠ 0 := fun h => h0 (h ▸ List.mem_cons_self)
  have hstop : ∀ y ∈ c :: t, (y != 61 && y != 0) = true := by
    intro y hy
    have hy61 : y ≠ 61 := fun h => h61 (h ▸ hy)
    have hy0 : y ≠ 0 := fun h => h0 (h ▸ hy)
    simp [hy61, hy0]
  have hassoc : a ++ (sp ++ (c :: t ++ 0 :: r)) = (a ++ sp) ++ (c :: t ++ 0 :: r) := (List.append_assoc ..).symm
  have hequal : advance (fun c => c != 61 && c != 0) ((a ++ sp) ++ (c :: t ++ 0 :: r)) (a ++ sp).length =
      some ((a ++ sp).length + (c :: t).length) := advance_eq hstop rfl
  have hend : load ((a ++ sp) ++ (c :: t ++ 0 :: r)) ((a ++ sp).length + (c :: t).length) = some 0 := by
    rw [← List.append_assoc, ← List.length_append]
    exact load_eq
  have hstr : strAt ((a ++ sp) ++ (c :: t ++ 0 :: r)) (a ++ sp).length = some (c :: t) := strAt_eq h0
  rw [← List.length_append] at hstart hload
  rw [propRound, List.cons_append, hstart]
  simp only [Option.bind_eq_bind, Option.bind_some, hload, hc0, hc35, or_self, ↓reduceIte]
  rw [← List.cons_append, hassoc, hequal, Option.bind_some, hend, Option.bind_some, if_pos rfl, hstr, Option.map_some]

/-- A line with a `=`; a key that is another one is cut in the buffer. -/
theorem propRound_prop (key : Bytes) (hk : ∀ c ∈ k.head?, isSpace c = false ∧ c ≠ 35) (hk0 : (0 : UInt8) ∉ k)
    (hk61 : (61 : UInt8) ∉ k) (hv0 : (0 : UInt8) ∉ v) :
    ∃ y : Bytes, (k.rdropWhile isSpace).length + y.length = k.length ∧
      propRound key (a ++ (sp ++ (k ++ 61 :: (v ++ 0 :: r)))) a.length = some (
        if k.rdropWhile isSpace = key then .found (trim v)
        else .next (a ++ (sp ++ (k.rdropWhile isSpace ++ 0 :: (y ++ (v ++ 0 :: r)))))) := by
  obtain ⟨y, hlen, hcut⟩ := cut_spec (a := a ++ sp) (d := 61) (r := v ++ 0 :: r) fun c hc => (hk c hc).1
  refine ⟨y, hlen, ?_⟩
  obtain ⟨c, w, hcw, hc, hc35, hc0⟩ : ∃ c w, k ++ 61 :: (v ++ 0 :: r) = c :: w ∧ isSpace c = false ∧ c ≠ 35 ∧ c ≠ 0 := by
    cases k with
    | nil => exact ⟨61, _, rfl, by decide, by decide, by decide⟩
    | cons c k => exact ⟨c, _, rfl, (hk c rfl).1, (hk c rfl).2, fun h => hk0 (h ▸ List.mem_cons_self)⟩
  obtain ⟨hstart, hload⟩ := propRound_start (a := a) (t := w) hsp hc
  rw [← hcw, ← List.append_assoc, ← List.length_append] at hstart hload
  have hstop : ∀ y ∈ k, (y != 61 && y != 0) = true := by
    intro y hy
    have hy61 : y ≠ 61 := fun h => hk61 (h ▸ hy)
    have hy0 : y ≠ 0 := fun h => hk0 (h ▸ hy)
    simp [hy61, hy0]
  have hequal : advance (fun c => c != 61 && c != 0) ((a ++ sp) ++ (k ++ 61 :: (v ++ 0 :: r))) (a ++ sp).length =
      some ((a ++ sp).length + k.length) := advance_eq hstop rfl
  have hfound : load ((a ++ sp) ++ (k ++ 61 :: (v ++ 0 :: r))) ((a ++ sp).length + k.length) = some 61 := by
    rw [← List.append_assoc, ← List.length_append]
    exact load_eq
  have hstr : strAt ((a ++ sp) ++ (k.rdropWhile isSpace ++ 0 :: (y ++ (v ++ 0 :: r)))) (a ++ sp).length =
      some (k.rdropWhile isSpace) := strAt_eq (rdropWhile_not_mem hk0)
  have hvalue : readValue ((a ++ sp) ++ (k.rdropWhile isSpace ++ 0 :: (y ++ (v ++ 0 :: r))))
      ((a ++ sp).length + k.length) = some (trim v) := by
    have hassoc : (a ++ sp) ++ (k.rdropWhile isSpace ++ 0 :: (y ++ (v ++ 0 :: r))) =
        ((a ++ sp) ++ (k.rdropWhile isSpace ++ 0 :: y)) ++ (v ++ 0 :: r) := by simp
    rw [hassoc]
    refine readValue_spec hv0 ?_
    simp only [List.length_append, List.length_cons]
    omega
  rw [propRound, ← List.append_assoc, hstart]
  simp only [Option.bind_eq_bind, Option.bind_some, hload, hc0, hc35, or_self, ↓reduceIte, hequal, hfound]
  rw [if_neg (by decide), Int.natCast_add, ← Option.bind_assoc, hcut, Option.bind_some, hstr, Option.bind_some]
  by_cases hkey : k.rdropWhile isSpace = key
  · rw [if_neg (not_not_intro hkey), if_pos hkey, hvalue, Option.map_some]
  · rw [if_pos hkey, if_neg hkey, List.append_assoc]

end Round

/-- A text is split at its first `=`. -/
theorem split_equal {k v : Bytes} (hk : (61 : UInt8) ∉ k) :
    (k ++ 61 :: v).takeWhile (· != 61) = k ∧ (k ++ 61 :: v).dropWhile (· != 61) = 61 :: v := by
  have hall : ∀ c ∈ k, (c != 61) = true := fun c hc => by
    have : c ≠ 61 := fun h => hk (h ▸ hc)
    simpa using this
  rw [List.takeWhile_append_of_pos hall, List.dropWhile_append_of_pos hall]
  simp

/-- What a line leads to. -/
theorem propRound_spec (key : Bytes) (h0 : (0 : UInt8) ∉ l) :
    ∃ l' : Bytes, l'.length = l.length ∧ propRound key (a ++ (l ++ 0 :: r)) a.length = some (
      if Ignored l then .next (a ++ (l' ++ 0 :: r))
      else if (61 : UInt8) ∉ l then .malformed (l.dropWhile isSpace)
      else if propKey l = key then .found (propValue l)
      else .next (a ++ (l' ++ 0 :: r))) := by
  have hsplit := List.takeWhile_append_dropWhile (p := isSpace) (l := l)
  have hsp := takeWhile_space l
  have hsp61 : (61 : UInt8) ∉ l.takeWhile isSpace := fun h => absurd (hsp 61 h) (by decide)
  have hhead := head_dropWhile_space l
  have ht0 : (0 : UInt8) ∉ l.dropWhile isSpace := fun h => h0 ((List.dropWhile_suffix _).subset h)
  have hmem : a ++ (l ++ 0 :: r) = a ++ (l.takeWhile isSpace ++ (l.dropWhile isSpace ++ 0 :: r)) := by
    rw [← List.append_assoc (l.takeWhile isSpace), hsplit]
  cases ht : l.dropWhile isSpace with
  | nil =>
    refine ⟨l, rfl, ?_⟩
    rw [if_pos (by simp [Ignored, ht]), hmem, ht, List.nil_append]
    exact propRound_blank hsp key
  | cons c t =>
    rw [ht] at ht0 hhead hmem
    have hc := hhead c rfl
    by_cases hc35 : c = 35
    · subst hc35
      refine ⟨l, rfl, ?_⟩
      rw [if_pos (by simp [Ignored, ht]), hmem]
      exact propRound_comment hsp key
    · have hignored : ¬ Ignored l := by simpa [Ignored, ht] using hc35
      simp only [hignored, ↓reduceIte, hmem]
      by_cases h61 : (61 : UInt8) ∈ l
      · have ht61 : (61 : UInt8) ∈ c :: t := by
          rw [← hsplit, List.mem_append, ht] at h61
          exact h61.resolve_left hsp61
        obtain ⟨k, v, hkv, hk61⟩ := List.eq_append_cons_of_mem ht61
        have hk : ∀ c ∈ k.head?, isSpace c = false ∧ c ≠ 35 := by
          cases k with
          | nil => exact fun _ h => nomatch h
          | cons d k =>
            obtain ⟨rfl, -⟩ := List.cons.inj hkv
            simpa using ⟨hc, hc35⟩
        rw [hkv, List.mem_append, not_or] at ht0
        have hv0 : (0 : UInt8) ∉ v := fun h => ht0.2 (List.mem_cons_of_mem _ h)
        have hkey61 : (61 : UInt8) ∉ l.takeWhile isSpace ++ k := by simp [hsp61, hk61]
        have hl : l = (l.takeWhile isSpace ++ k) ++ 61 :: v := by rw [List.append_assoc, ← hkv, ← ht, hsplit]
        obtain ⟨hfront, hback⟩ := split_equal (v := v) hkey61
        have hkey : propKey l = k.rdropWhile isSpace := by
          rw [propKey, hl, hfront, trim_append hsp fun c hc => (hk c hc).1]
        have hvalue : propValue l = trim v := by rw [propValue, hl, hback, List.drop_one, List.tail_cons]
        obtain ⟨y, hlen, hround⟩ := propRound_prop (a := a) (r := r) hsp key hk ht0.1 hk61 hv0
        refine ⟨l.takeWhile isSpace ++ (k.rdropWhile isSpace ++ 0 :: (y ++ v)), ?_, ?_⟩
        · have hlen' := congrArg List.length hl
          simp only [List.length_append, List.length_cons] at hlen' ⊢
          omega
        · rw [if_neg (not_not_intro h61), hkey, hvalue, hkv, List.append_assoc, List.cons_append, hround]
          simp only [List.append_assoc, List.cons_append]
      · have ht61 : (61 : UInt8) ∉ c :: t := fun h => h61 ((List.dropWhile_suffix _).subset (ht ▸ h))
        refine ⟨l, rfl, ?_⟩
        rw [if_pos h61]
        exact propRound_malformed hsp key hc hc35 ht0 ht61

/-- The loop from a line on: `r` is the text behind it. -/
theorem propLoop_spec (key : Bytes) (fuel : Nat) {z : Bytes} (h0 : (0 : UInt8) ∉ l) (hr : (0 : UInt8) ∉ r)
    (hz : (z ++ (r ++ 0 :: t)).head? = some 0) (hfuel : (tokens (· == 10) r).length < fuel) :
    propLoop key fuel (a ++ (l ++ (z ++ (r ++ 0 :: t)))) a.length (a ++ (l ++ z)).length =
      some (lookupProp key (l :: tokens (· == 10) r)) := by
  induction fuel generalizing a l z r with
  | zero => exact absurd hfuel (Nat.not_lt_zero _)
  | succ fuel ih =>
    obtain ⟨w, hw⟩ := List.head?_eq_some_iff.mp hz
    obtain ⟨l', hl', hround⟩ := propRound_spec (a := a) (r := w) key h0
    rw [← hw] at hround
    -- the rounds behind a line that does not end the loop
    have hnext : (do
        match ← strtok 10 (a ++ (l' ++ (z ++ (r ++ 0 :: t)))) (a ++ (l ++ z)).length with
        | (none, _, _) => some (.ok [])
        | (some line, m, last) => propLoop key fuel m line last) =
        some (lookupProp key (tokens (· == 10) r)) := by
      have hlast : (a ++ (l ++ z)).length = (a ++ l' ++ z).length := by simp [hl']
      have hmem : a ++ (l' ++ (z ++ (r ++ 0 :: t))) = (a ++ l' ++ z) ++ (r ++ 0 :: t) := by simp
      rw [hlast, hmem]
      rcases strtok_tokens (a := a ++ l' ++ z) (b := t) (by decide : (10 : UInt8) ≠ 0) hr with
        ⟨htok, last, hstrtok⟩ | ⟨seps, l₂, z₂, r₂, htok, hl₂, hr₂, hz₂, hstrtok⟩
      · rw [hstrtok, htok]
        rfl
      · rw [hstrtok, htok]
        rw [htok, List.length_cons] at hfuel
        exact ih hl₂ hr₂ hz₂ (by omega)
    rw [propLoop, hround, lookupProp, Option.bind_eq_bind, Option.bind_some]
    by_cases hignored : Ignored l
    · simp only [hignored, ↓reduceIte]
      exact hnext
    · by_cases h61 : (61 : UInt8) ∈ l
      · by_cases hkey : propKey l = key
        · simp [hignored, h61, hkey]
        · simp only [hignored, h61, hkey, not_true_eq_false, ↓reduceIte]
          exact hnext
      · simp [hignored, h61]

theorem scanProperties_eq (key : Bytes) {content : Bytes} (h : propLines content ≠ []) :
    scanProperties key (content ++ [0]) = some (lookupProp key (propLines content)) := by
  obtain ⟨b, hb⟩ := cstr_terminated content
  have h0 : (0 : UInt8) ∉ cstr content := not_mem_cstr content
  have hlen := congrArg List.length hb
  have hcount := tokens_length_le (· == 10) (cstr content)
  unfold propLines at h ⊢
  rw [scanProperties, hb]
  rcases strtok_tokens (a := []) (b := b) (by decide : (10 : UInt8) ≠ 0) h0 with
    ⟨htok, -⟩ | ⟨seps, l, z, r, htok, hl, hr, hz, hstrtok⟩
  · exact absurd htok h
  · simp only [List.nil_append, List.length_nil] at hstrtok
    rw [hstrtok, htok]
    simp only [Option.bind_eq_bind, Option.bind_some]
    refine propLoop_spec key _ hl hr hz ?_
    rw [htok, List.length_cons] at hcount
    rw [List.length_append, List.length_cons]
    omega

theorem lookupProp_append (key : Bytes) {front : List Bytes} (lines : List Bytes)
    (h : ∀ l ∈ front, Ignored l ∨ (61 : UInt8) ∈ l ∧ propKey l ≠ key) :
    lookupProp key (front ++ lines) = lookupProp key lines := by
  induction front with
  | nil => rfl
  | cons l front ih =>
    obtain ⟨hl, hfront⟩ := List.forall_mem_cons.mp h
    rw [List.cons_append, lookupProp, ih hfront]
    rcases hl with hignored | ⟨h61, hkey⟩
    · rw [if_pos hignored]
    · rw [if_neg (not_not_intro h61), if_neg hkey, ite_self]

end Updater
end Miui
