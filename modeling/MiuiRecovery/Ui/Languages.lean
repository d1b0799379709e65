import MiuiRecovery.Lib.InPlace
import MiuiRecovery.Ui.Array

/-!
# Language files

`alang_load` (`miui_languages.c`): a scanner that takes a language file apart in place, byte by byte. `char` is unsigned,
as on the devices that the recovery is built for.

* `alangLoop_eq`: the scan stays in the buffer and sets the pairs `alangSets`.
* `setAll_spec`: the table holds the last value of each key that is set.
-/

namespace Miui
namespace Lang

open CString InPlace

/-! ## miui_languages.c -/

/-- `state` -/
inductive LangState
  | first
  | comment
  | key
  | equal
  | value
deriving DecidableEq

/-- The variables of the loop; `m` is the buffer. -/
structure Scan where
  m : Bytes
  vuf : Nat
  state : LangState
  pc : UInt8
  key : Nat
  val : Nat
  alang : AArray

/-- `(*p == '\\\\') && (*(p + 1) == '\\n')` -/
def isContinued (m : Bytes) (p : Nat) : Option Bool := do
  let x ← load m p
  if x = 92 then (load m (p + 1)).map (· == 10) else some false

/-- The rest of the loop that removes the backslashes: `l` more bytes of the value, from byte `i` on. -/
def cleanLoop (val : Nat) : Nat → Nat → Nat → Bytes → Option (Nat × Bytes)
  | 0, _, j, m => some (j, m)
  | l + 1, i, j, m => do
    let continued ← isContinued m (val + i)
    if continued then cleanLoop val l (i + 1) j m
    else
      let m ← store m (val + j) (← load m (val + i))
      cleanLoop val l (i + 1) (j + 1) m

/-- "Cleanup backslashes" -/
def cleanup (m : Bytes) (val : Nat) : Option Bytes := do
  let l := (← strAt m val).length
  let (j, m) ← cleanLoop val l 0 0 m
  store m (val + j) 0

/-- `aarray_set(alang,key,val)` -/
def setLang (alang : AArray) (key val : Bytes) : Option AArray := (aarraySet alang (some key) (some val)).map Prod.snd

/-- The value ends: it is cleaned up and saved. -/
def saveValue (s : Scan) (m : Bytes) : Option Scan := do
  let m ← cleanup m s.val
  let alang ← setLang s.alang (← strAt m s.key) (← strAt m s.val)
  some { s with m := m, alang := alang, state := .first }

/-- A round of the loop, for the byte `c`, but for the last `vuf++`. -/
def alangStep (c : UInt8) (s : Scan) : Option Scan :=
  match s.state with
  | .first =>
    if !isSpace c then some { s with key := s.vuf, state := .key }
    else if c = 35 then some { s with state := .comment }
    else some s
  | .comment => if c = 10 then some { s with state := .first } else some s
  | .key =>
    if isSpace c || c == 61 || c == 10 then do
      let m ← store s.m s.vuf 0
      if c = 61 then some { s with m := m, state := .equal }
      else if c = 10 then some { s with m := m, state := .first }
      else some { s with m := m }
    else some s
  | .equal =>
    if !isSpace c then some { s with val := s.vuf, state := .value, pc := c }
    else if c = 10 then some { s with state := .first }
    else some s
  | .value => do
    let ended : Bool := c == 10 && s.pc != 92
    let last ← if ended then some false else (load s.m (s.vuf + 1)).map (· == 0)
    let s ← if ended then (store s.m s.vuf 0).bind (saveValue s)
      else if last then saveValue s s.m
      else some s
    some { s with pc := c }

/-- The loop, for at most `fuel` bytes. -/
def alangLoop : Nat → Scan → Option AArray
  | 0, _ => none
  | fuel + 1, s => do
    let c ← load s.m s.vuf
    if c = 0 then some s.alang
    else
      let s ← alangStep c s
      alangLoop fuel { s with vuf := s.vuf + 1 }

/-- `alang_load` of a file with this content. -/
def alangLoad (content : Bytes) : Option AArray := do
  let buf := content ++ [0]
  let vuf ← strAt buf 0
  let vuf := if vuf.length > 3 ∧ vuf.take 3 = [0xEF, 0xBB, 0xBF] then 3 else 0
  alangLoop buf.length ⟨buf, vuf, .first, 0, 0, 0, aarrayCreate⟩

/-! ## What is set -/

/-- A value without the backslashes in front of its newlines. -/
def clean : Bytes → Bytes
  | [] => []
  | c :: s => if c = 92 ∧ s.head? = some 10 then clean s else c :: clean s

/-- A value behind the byte `pc`, up to a newline that is not behind a backslash, and the text behind that. -/
def splitValue : UInt8 → Bytes → Bytes × Bytes
  | _, [] => ([], [])
  | pc, c :: s => if c = 10 ∧ pc ≠ 92 then ([], s) else (c :: (splitValue c s).1, (splitValue c s).2)

theorem splitValue_suffix (pc : UInt8) (s : Bytes) : (splitValue pc s).2 <:+ s := by
  induction s generalizing pc with
  | nil => exact List.suffix_refl _
  | cons c s ih =>
    rw [splitValue]
    split
    · exact List.suffix_cons c s
    · exact (ih c).trans (List.suffix_cons c s)

theorem splitValue_length (pc : UInt8) (s : Bytes) : (splitValue pc s).2.length ≤ s.length :=
  (splitValue_suffix pc s).length_le

/-- A byte in front of the `=` and of the newline. -/
def inKey (c : UInt8) : Bool := c != 61 && c != 10

/-- A blank in front of a value. -/
def isBlank (c : UInt8) : Bool := isSpace c && c != 10

/-- The pairs that the loop sets, one after the other. -/
def alangSets : Bytes → List (Bytes × Bytes)
  | [] => []
  | c :: s =>
    if isSpace c then alangSets s
    else
      match h : s.dropWhile inKey with
      | [] => []
      | x :: r =>
        if x = 10 then alangSets r
        else
          match h' : r.dropWhile isBlank with
          | [] => []
          | d :: w =>
            if d = 10 then alangSets w
            else if w = [] then []
            else (c :: s.takeWhile (fun y => !isSpace y && y != 61), clean (d :: (splitValue d w).1)) ::
              alangSets (splitValue d w).2
  termination_by s => s.length
  decreasing_by
    all_goals
      simp only [List.length_cons]
    · omega
    all_goals
      have h₁ := (List.dropWhile_suffix inKey (l := s)).length_le
      rw [h, List.length_cons] at h₁
    · omega
    all_goals
      have h₂ := (List.dropWhile_suffix isBlank (l := r)).length_le
      rw [h', List.length_cons] at h₂
    · omega
    · have := splitValue_length d w
      omega

/-- What is set behind a `=`. -/
def valueSets (key r : Bytes) : List (Bytes × Bytes) :=
  match r.dropWhile isBlank with
  | [] => []
  | d :: w =>
    if d = 10 then alangSets w
    else if w = [] then []
    else (key, clean (d :: (splitValue d w).1)) :: alangSets (splitValue d w).2

theorem alangSets_line {c : UInt8} {s : Bytes} (hc : ¬ isSpace c = true) :
    alangSets (c :: s) = match s.dropWhile inKey with
      | [] => []
      | x :: r =>
        if x = 10 then alangSets r
        else valueSets (c :: s.takeWhile fun y => !isSpace y && y != 61) r := by
  rw [alangSets, if_neg hc]
  split
  · next h => rw [h]
  · next x r h =>
    rw [h]
    simp only [valueSets]
    congr 1
    split
    · next h' => rw [h']
    · next d w h' => rw [h']

/-- The pairs are set, one after the other. -/
def setAll : AArray → List (Bytes × Bytes) → Option AArray
  | alang, [] => some alang
  | alang, (key, val) :: sets => (setLang alang key val).bind fun alang => setAll alang sets

/-! ## Cleaning up -/

variable {a b s t v w r o k : Bytes} {c x y : UInt8}

theorem clean_length_le (s : Bytes) : (clean s).length ≤ s.length := by
  induction s with
  | nil => exact Nat.le_refl _
  | cons c s ih =>
    rw [clean]
    split
    · exact Nat.le_succ_of_le ih
    · exact Nat.succ_le_succ ih

theorem clean_subset (h : c ∈ clean s) : c ∈ s := by
  induction s with
  | nil => exact h
  | cons d s ih =>
    rw [clean] at h
    split at h
    · exact List.mem_cons_of_mem _ (ih h)
    · rcases List.mem_cons.mp h with rfl | h
      · exact List.mem_cons_self
      · exact List.mem_cons_of_mem _ (ih h)

/-- The bytes `o` are written, and `s` is still to be read; what lies between is left over. -/
theorem cleanLoop_eq (o junk s : Bytes) (h0 : (0 : UInt8) ∉ s) :
    ∃ junk' : Bytes, junk'.length + (clean s).length = junk.length + s.length ∧
      cleanLoop a.length s.length (o ++ junk).length o.length (a ++ (o ++ (junk ++ (s ++ 0 :: b)))) =
        some ((o ++ clean s).length, a ++ (o ++ clean s ++ (junk' ++ 0 :: b))) := by
  induction s generalizing o junk with
  | nil => exact ⟨junk, rfl, by simp [cleanLoop, clean]⟩
  | cons c s ih =>
    have hs0 : (0 : UInt8) ∉ s := fun h => h0 (List.mem_cons_of_mem _ h)
    have hload : load (a ++ (o ++ (junk ++ (c :: s ++ 0 :: b)))) (a.length + (o ++ junk).length) = some c := by
      rw [show a ++ (o ++ (junk ++ (c :: s ++ 0 :: b))) = (a ++ (o ++ junk)) ++ c :: (s ++ 0 :: b) by simp,
        ← List.length_append]
      exact load_eq
    have hnext : (load (a ++ (o ++ (junk ++ (c :: s ++ 0 :: b)))) (a.length + (o ++ junk).length + 1)).map (· == 10) =
        some (s.head? == some 10) := by
      have hlen : a.length + (o ++ junk).length + 1 = (a ++ (o ++ junk) ++ [c]).length := by
        simp only [List.length_append, List.length_singleton]
      cases s with
      | nil =>
        rw [show a ++ (o ++ (junk ++ (c :: [] ++ 0 :: b))) = (a ++ (o ++ junk) ++ [c]) ++ 0 :: b by simp, hlen, load_eq]
        rfl
      | cons d s =>
        rw [show a ++ (o ++ (junk ++ (c :: d :: s ++ 0 :: b))) = (a ++ (o ++ junk) ++ [c]) ++ d :: (s ++ 0 :: b) by simp,
          hlen, load_eq]
        simp
    have hcontinued : isContinued (a ++ (o ++ (junk ++ (c :: s ++ 0 :: b)))) (a.length + (o ++ junk).length) =
        some (decide (c = 92) && s.head? == some 10) := by
      rw [isContinued, hload]
      simp only [Option.bind_eq_bind, Option.bind_some, hnext]
      by_cases hc : c = 92 <;> simp [hc]
    rw [List.length_cons, cleanLoop, hcontinued, hload]
    simp only [Option.bind_eq_bind, Option.bind_some]
    by_cases hskip : c = 92 ∧ s.head? = some 10
    · obtain ⟨junk', hlen, hih⟩ := ih o (junk ++ [c]) hs0
      simp only [List.length_append, List.length_singleton] at hlen
      refine ⟨junk', by rw [clean, if_pos hskip]; omega, ?_⟩
      rw [if_pos (by simpa using hskip), clean, if_pos hskip, ← hih]
      simp [Nat.add_assoc]
    · obtain ⟨x, js, hjs⟩ := List.exists_cons_of_ne_nil (l := junk ++ [c]) (by simp)
      have hjslen := congrArg List.length hjs
      rw [List.length_append, List.length_singleton, List.length_cons] at hjslen
      obtain ⟨junk', hlen, hih⟩ := ih (o ++ [c]) js hs0
      have hmem : a ++ (o ++ (junk ++ (c :: s ++ 0 :: b))) = (a ++ o) ++ x :: (js ++ (s ++ 0 :: b)) := by
        calc a ++ (o ++ (junk ++ (c :: s ++ 0 :: b)))
            = (a ++ o) ++ ((junk ++ [c]) ++ (s ++ 0 :: b)) := by simp
          _ = (a ++ o) ++ x :: (js ++ (s ++ 0 :: b)) := by rw [hjs, List.cons_append]
      have hstore : store (a ++ (o ++ (junk ++ (c :: s ++ 0 :: b)))) (a.length + o.length) c =
          some ((a ++ o) ++ c :: (js ++ (s ++ 0 :: b))) := by
        rw [hmem, ← List.length_append]
        exact store_eq
      refine ⟨junk', by rw [clean, if_neg hskip, List.length_cons]; omega, ?_⟩
      rw [if_neg (by simpa using hskip), hstore, Option.bind_some, clean, if_neg hskip]
      have hindex : (o ++ junk).length + 1 = (o ++ [c] ++ js).length := by
        simp only [List.length_append, List.length_singleton]
        omega
      have hindex' : o.length + 1 = (o ++ [c]).length := by rw [List.length_append, List.length_singleton]
      rw [hindex, hindex', show (a ++ o) ++ c :: (js ++ (s ++ 0 :: b)) = a ++ (o ++ [c] ++ (js ++ (s ++ 0 :: b))) by simp,
        hih]
      simp

/-- The value `s` is cleaned up in its place; its old terminator stays. -/
theorem cleanup_spec (h0 : (0 : UInt8) ∉ s) :
    ∃ z : Bytes, (clean s).length + z.length = s.length ∧ (z ++ 0 :: b).head? = some 0 ∧
      cleanup (a ++ (s ++ 0 :: b)) a.length = some (a ++ (clean s ++ (z ++ 0 :: b))) := by
  obtain ⟨junk, hlen, hloop⟩ := cleanLoop_eq (a := a) (b := b) [] [] s h0
  simp only [List.nil_append, List.length_nil, Nat.zero_add] at hloop hlen
  have hend : cleanup (a ++ (s ++ 0 :: b)) a.length =
      store (a ++ (clean s ++ (junk ++ 0 :: b))) (a.length + (clean s).length) 0 := by
    rw [cleanup, strAt_eq h0]
    simp only [Option.bind_eq_bind, Option.bind_some, hloop]
  rw [hend, ← List.length_append, ← List.append_assoc]
  cases junk with
  | nil => exact ⟨[], by simpa [Nat.add_comm] using hlen, rfl, by rw [List.nil_append, store_eq, List.append_assoc]⟩
  | cons x junk =>
    refine ⟨0 :: junk, by simpa [Nat.add_comm] using hlen, rfl, ?_⟩
    rw [List.cons_append, store_eq, List.append_assoc, List.cons_append]

/-! ## The scan -/

section Runs

variable {fuel vuf key val : Nat} {state : LangState} {pc : UInt8} {alang : AArray}

theorem alangLoop_step (hc : c ≠ 0) :
    alangLoop (fuel + 1) ⟨a ++ c :: t, a.length, state, pc, key, val, alang⟩ =
      (alangStep c ⟨a ++ c :: t, a.length, state, pc, key, val, alang⟩).bind fun s =>
        alangLoop fuel { s with vuf := s.vuf + 1 } := by
  rw [alangLoop, load_eq]
  simp [hc]

theorem alangLoop_end : alangLoop (fuel + 1) ⟨a ++ 0 :: t, a.length, state, pc, key, val, alang⟩ = some alang := by
  rw [alangLoop, load_eq]
  simp

/-- What the bytes of a key become. -/
def zeroed (s : Bytes) : Bytes := s.map fun c => if isSpace c then 0 else c

@[simp] theorem length_zeroed (s : Bytes) : (zeroed s).length = s.length := List.length_map _

theorem key_run (fuel : Nat) (pc : UInt8) (key val : Nat) (alang : AArray) (u : Bytes) (h0 : (0 : UInt8) ∉ u) (hu : ∀ c ∈ u, inKey c = true) :
    alangLoop (fuel + u.length) ⟨a ++ (u ++ t), a.length, .key, pc, key, val, alang⟩ =
      alangLoop fuel ⟨(a ++ zeroed u) ++ t, (a ++ zeroed u).length, .key, pc, key, val, alang⟩ := by
  induction u generalizing a with
  | nil => simp [zeroed]
  | cons c u ih =>
    obtain ⟨hc, hu⟩ := List.forall_mem_cons.mp hu
    have hc0 : c ≠ 0 := fun h => h0 (h ▸ List.mem_cons_self)
    have hu0 : (0 : UInt8) ∉ u := fun h => h0 (List.mem_cons_of_mem _ h)
    obtain ⟨h61, h10⟩ : c ≠ 61 ∧ c ≠ 10 := by simpa [inKey] using hc
    have hassoc : ∀ x : UInt8, a ++ x :: (u ++ t) = (a ++ [x]) ++ (u ++ t) := fun x => by simp
    have hlen : ∀ x : UInt8, a.length + 1 = (a ++ [x]).length := fun x => by simp
    rw [List.length_cons, ← Nat.add_assoc, List.cons_append, alangLoop_step hc0]
    by_cases hspace : isSpace c = true
    · have hstep : alangStep c ⟨a ++ c :: (u ++ t), a.length, .key, pc, key, val, alang⟩ =
          some ⟨a ++ 0 :: (u ++ t), a.length, .key, pc, key, val, alang⟩ := by
        simp [alangStep, hspace, h61, h10, store_eq]
      rw [hstep, Option.bind_some, hassoc, hlen 0, ih hu0 hu]
      simp [zeroed, hspace]
    · have hstep : alangStep c ⟨a ++ c :: (u ++ t), a.length, .key, pc, key, val, alang⟩ =
          some ⟨a ++ c :: (u ++ t), a.length, .key, pc, key, val, alang⟩ := by
        simp [alangStep, hspace, h61, h10]
      rw [hstep, Option.bind_some, hassoc, hlen c, ih hu0 hu]
      simp [zeroed, hspace]

theorem equal_run (fuel : Nat) (pc : UInt8) (key val : Nat) (alang : AArray) (u : Bytes) (h0 : (0 : UInt8) ∉ u) (hu : ∀ c ∈ u, isBlank c = true) :
    alangLoop (fuel + u.length) ⟨a ++ (u ++ t), a.length, .equal, pc, key, val, alang⟩ =
      alangLoop fuel ⟨(a ++ u) ++ t, (a ++ u).length, .equal, pc, key, val, alang⟩ := by
  induction u generalizing a with
  | nil => simp
  | cons c u ih =>
    obtain ⟨hc, hu⟩ := List.forall_mem_cons.mp hu
    have hc0 : c ≠ 0 := fun h => h0 (h ▸ List.mem_cons_self)
    have hu0 : (0 : UInt8) ∉ u := fun h => h0 (List.mem_cons_of_mem _ h)
    obtain ⟨hspace, h10⟩ : isSpace c = true ∧ c ≠ 10 := by simpa [isBlank] using hc
    have hassoc : a ++ c :: (u ++ t) = (a ++ [c]) ++ (u ++ t) := by simp
    have hstep : alangStep c ⟨a ++ c :: (u ++ t), a.length, .equal, pc, key, val, alang⟩ =
        some ⟨a ++ c :: (u ++ t), a.length, .equal, pc, key, val, alang⟩ := by
      simp [alangStep, hspace, h10]
    rw [List.length_cons, ← Nat.add_assoc, List.cons_append, alangLoop_step hc0, hstep, Option.bind_some, hassoc,
      show a.length + 1 = (a ++ [c]).length by simp, ih hu0 hu]
    simp

/-- A value is saved: the key is `k`, and `w` the value. -/
theorem saveValue_spec (s : Bytes) (vuf : Nat) (state : LangState) (pc : UInt8) (alang : AArray) {j : Bytes} (hk : (0 : UInt8) ∉ k) (hw : (0 : UInt8) ∉ w) :
    ∃ z : Bytes, (clean w).length + z.length = w.length ∧
      saveValue ⟨s, vuf, state, pc, a.length, (a ++ (k ++ 0 :: j)).length, alang⟩ (a ++ (k ++ 0 :: j) ++ (w ++ 0 :: b)) =
        (setLang alang k (clean w)).map fun alang =>
          ⟨a ++ (k ++ 0 :: j) ++ (clean w ++ (z ++ 0 :: b)), vuf, .first, pc, a.length,
            (a ++ (k ++ 0 :: j)).length, alang⟩ := by
  obtain ⟨z, hlen, hhead, hclean⟩ := cleanup_spec (a := a ++ (k ++ 0 :: j)) (b := b) hw
  obtain ⟨e, he⟩ := List.head?_eq_some_iff.mp hhead
  refine ⟨z, hlen, ?_⟩
  rw [he] at hclean ⊢
  have hkey : strAt (a ++ (k ++ 0 :: j) ++ (clean w ++ 0 :: e)) a.length = some k := by
    rw [show a ++ (k ++ 0 :: j) ++ (clean w ++ 0 :: e) = a ++ (k ++ 0 :: (j ++ (clean w ++ 0 :: e))) by simp]
    exact strAt_eq hk
  have hval : strAt (a ++ (k ++ 0 :: j) ++ (clean w ++ 0 :: e)) (a ++ (k ++ 0 :: j)).length = some (clean w) :=
    strAt_eq fun h => hw (clean_subset h)
  rw [saveValue]
  simp only [hclean, hkey, hval, Option.bind_eq_bind, Option.bind_some]
  cases setLang alang k (clean w) <;> rfl

/-- A value up to its end; `w` is what was read of it. -/
theorem value_run (pc : UInt8) (w s : Bytes) {j : Bytes} (hs : s ≠ []) (h0 : (0 : UInt8) ∉ s) (hk : (0 : UInt8) ∉ k)
    (hw : (0 : UInt8) ∉ w) (hfuel : s.length < fuel) :
    ∃ (a' : Bytes) (pc' : UInt8) (fuel' : Nat), (splitValue pc s).2.length < fuel' ∧
      alangLoop fuel ⟨a ++ (k ++ 0 :: j) ++ (w ++ (s ++ 0 :: b)), (a ++ (k ++ 0 :: j) ++ w).length, .value, pc, a.length,
          (a ++ (k ++ 0 :: j)).length, alang⟩ =
        (setLang alang k (clean (w ++ (splitValue pc s).1))).bind fun alang =>
          alangLoop fuel' ⟨a' ++ ((splitValue pc s).2 ++ 0 :: b), a'.length, .first, pc', a.length,
            (a ++ (k ++ 0 :: j)).length, alang⟩ := by
  induction s generalizing w pc fuel with
  | nil => exact absurd rfl hs
  | cons c s ih =>
    obtain ⟨fuel, rfl⟩ := Nat.exists_eq_succ_of_ne_zero (Nat.ne_zero_of_lt hfuel)
    rw [List.length_cons, Nat.succ_lt_succ_iff] at hfuel
    have hc0 : c ≠ 0 := fun h => h0 (h ▸ List.mem_cons_self)
    have hs0 : (0 : UInt8) ∉ s := fun h => h0 (List.mem_cons_of_mem _ h)
    generalize hB : a ++ (k ++ 0 :: j) = B
    have hmem : B ++ (w ++ (c :: s ++ 0 :: b)) = (B ++ w) ++ c :: (s ++ 0 :: b) := by simp
    rw [hmem, alangLoop_step hc0]
    by_cases hended : c = 10 ∧ pc ≠ 92
    · obtain ⟨z, hlen, hsave⟩ := saveValue_spec (a := a) (j := j) (b := s ++ 0 :: b)
        ((B ++ w) ++ c :: (s ++ 0 :: b)) (B ++ w).length .value pc alang hk hw
      rw [hB] at hsave
      have hsplit : splitValue pc (c :: s) = ([], s) := by rw [splitValue, if_pos hended]
      refine ⟨B ++ (clean w ++ (z ++ [0])), c, fuel, by rw [hsplit]; exact hfuel, ?_⟩
      have hstep : alangStep c ⟨(B ++ w) ++ c :: (s ++ 0 :: b), (B ++ w).length, .value, pc, a.length, B.length, alang⟩ =
          (setLang alang k (clean w)).map fun alang =>
            ⟨B ++ (clean w ++ (z ++ 0 :: (s ++ 0 :: b))), (B ++ w).length, .first, c, a.length, B.length, alang⟩ := by
        have hbool : (c == 10 && pc != 92) = true := by simpa using hended
        simp only [alangStep, hbool, ↓reduceIte, Option.bind_eq_bind, Option.bind_some, store_eq]
        rw [show (B ++ w) ++ 0 :: (s ++ 0 :: b) = B ++ (w ++ 0 :: (s ++ 0 :: b)) from List.append_assoc .., hsave]
        cases setLang alang k (clean w) <;> rfl
      rw [hstep, hsplit, List.append_nil]
      cases setLang alang k (clean w) with
      | none => rfl
      | some alang =>
        have hvuf : (B ++ w).length + 1 = (B ++ (clean w ++ (z ++ [0]))).length := by
          simp only [List.length_append, List.length_singleton]
          omega
        simp only [Option.map_some, Option.bind_some, hvuf]
        congr 2
        simp
    · have hbool : (c == 10 && pc != 92) = false := by
        rw [Bool.eq_false_iff]
        simpa using hended
      have hwc : (0 : UInt8) ∉ w ++ [c] := by simpa using ⟨hw, hc0.symm⟩
      have hload : load ((B ++ w) ++ c :: (s ++ 0 :: b)) ((B ++ w).length + 1) = some ((s ++ 0 :: b).headD 0) := by
        rw [show (B ++ w) ++ c :: (s ++ 0 :: b) = (B ++ w ++ [c]) ++ (s ++ 0 :: b) by simp,
          show (B ++ w).length + 1 = (B ++ w ++ [c]).length by simp [Nat.add_assoc]]
        cases s with
        | nil => exact load_eq
        | cons d s => exact load_eq
      cases s with
      | nil =>
        simp only [List.nil_append, List.headD_cons] at hload
        obtain ⟨z, hlen, hsave⟩ := saveValue_spec (a := a) (j := j) (b := b)
          ((B ++ w) ++ c :: ([] ++ 0 :: b)) (B ++ w).length .value pc alang hk hwc
        rw [hB] at hsave
        have hsplit : splitValue pc [c] = ([c], []) := by rw [splitValue, if_neg hended, splitValue]
        refine ⟨B ++ (clean (w ++ [c]) ++ z), c, fuel, by rw [hsplit]; exact hfuel, ?_⟩
        have hstep : alangStep c ⟨(B ++ w) ++ c :: ([] ++ 0 :: b), (B ++ w).length, .value, pc, a.length, B.length, alang⟩ =
            (setLang alang k (clean (w ++ [c]))).map fun alang =>
              ⟨B ++ (clean (w ++ [c]) ++ (z ++ 0 :: b)), (B ++ w).length, .first, c, a.length, B.length, alang⟩ := by
          have hm : (B ++ w) ++ c :: ([] ++ 0 :: b) = B ++ (w ++ [c] ++ 0 :: b) := by simp
          rw [← hm] at hsave
          simp only [alangStep, hbool, Bool.false_eq_true, ↓reduceIte, Option.bind_eq_bind, hload, Option.map_some,
            Option.bind_some, List.nil_append, beq_self_eq_true]
          rw [List.nil_append] at hsave
          rw [hsave]
          cases setLang alang k (clean (w ++ [c])) <;> rfl
        rw [hstep, hsplit]
        cases setLang alang k (clean (w ++ [c])) with
        | none => rfl
        | some alang =>
          have hvuf : (B ++ w).length + 1 = (B ++ (clean (w ++ [c]) ++ z)).length := by
            simp only [List.length_append, List.length_singleton] at hlen ⊢
            omega
          simp only [Option.map_some, Option.bind_some, hvuf]
          congr 2
          simp
      | cons d s =>
        simp only [List.cons_append, List.headD_cons] at hload
        have hd0 : d ≠ 0 := fun h => hs0 (h ▸ List.mem_cons_self)
        have hstep : alangStep c ⟨(B ++ w) ++ c :: (d :: s ++ 0 :: b), (B ++ w).length, .value, pc, a.length, B.length, alang⟩ =
            some ⟨(B ++ w) ++ c :: (d :: s ++ 0 :: b), (B ++ w).length, .value, c, a.length, B.length, alang⟩ := by
          simp only [alangStep, hbool, Bool.false_eq_true, ↓reduceIte, Option.bind_eq_bind, hload, Option.map_some,
            Option.bind_some, List.cons_append]
          simp [hd0]
        obtain ⟨a', pc', fuel', hfuel', hrun⟩ := ih c (w ++ [c]) (List.cons_ne_nil d s) hs0 hwc hfuel
        have hsplit : splitValue pc (c :: d :: s) = (c :: (splitValue c (d :: s)).1, (splitValue c (d :: s)).2) := by
          rw [splitValue, if_neg hended]
        refine ⟨a', pc', fuel', by rw [hsplit]; exact hfuel', ?_⟩
        rw [hB] at hrun
        rw [hstep, Option.bind_some, hsplit]
        rw [show w ++ c :: (splitValue c (d :: s)).1 = w ++ [c] ++ (splitValue c (d :: s)).1 by simp, ← hrun]
        congr 2
        · simp
        · simp [Nat.add_assoc]

/-- A key ends at its first space. -/
theorem zeroed_split (u : Bytes) : ∃ j, zeroed u ++ [0] = u.takeWhile (!isSpace ·) ++ 0 :: j := by
  induction u with
  | nil => exact ⟨[], rfl⟩
  | cons c u ih =>
    by_cases hc : isSpace c = true
    · exact ⟨zeroed u ++ [0], by simp [zeroed, hc]⟩
    · obtain ⟨j, hj⟩ := ih
      refine ⟨j, ?_⟩
      have hcons : zeroed (c :: u) = c :: zeroed u := by simp [zeroed, hc]
      rw [hcons, List.cons_append, hj, List.takeWhile_cons_of_pos (by simp [hc]), List.cons_append]

theorem takeWhile_key (s : Bytes) :
    s.takeWhile (fun y => !isSpace y && y != 61) = (s.takeWhile inKey).takeWhile (!isSpace ·) := by
  rw [List.takeWhile_takeWhile]
  congr 1
  funext y
  by_cases hy : y = 10
  · subst hy
    decide
  · by_cases h61 : y = 61 <;> simp [inKey, hy, h61]

/-- The scan from behind a `=`; `ih` is what it does from the start of a later line on. -/
theorem equal_spec (r : Bytes) {j : Bytes} (pc : UInt8) (val : Nat) (alang : AArray) (hk0 : (0 : UInt8) ∉ k)
    (hr0 : (0 : UInt8) ∉ r) (hfuel : r.length < fuel)
    (ih : ∀ (t a : Bytes) (fuel : Nat) (pc : UInt8) (key val : Nat) (alang : AArray), t.length ≤ r.length →
      (0 : UInt8) ∉ t → t.length < fuel →
      alangLoop fuel ⟨a ++ (t ++ 0 :: b), a.length, .first, pc, key, val, alang⟩ = setAll alang (alangSets t)) :
    alangLoop fuel ⟨a ++ (k ++ 0 :: j) ++ (r ++ 0 :: b), (a ++ (k ++ 0 :: j)).length, .equal, pc, a.length, val, alang⟩ =
      setAll alang (valueSets k r) := by
  have hsplit := List.takeWhile_append_dropWhile (p := isBlank) (l := r)
  have hlen := congrArg List.length hsplit
  rw [List.length_append] at hlen
  have hu : ∀ y ∈ r.takeWhile isBlank, isBlank y = true := fun y hy => List.mem_takeWhile_imp hy
  have hu0 : (0 : UInt8) ∉ r.takeWhile isBlank := fun h => hr0 ((List.takeWhile_prefix _).subset h)
  have hdrop0 : (0 : UInt8) ∉ r.dropWhile isBlank := fun h => hr0 ((List.dropWhile_suffix _).subset h)
  have hrun := equal_run (a := a ++ (k ++ 0 :: j)) (t := r.dropWhile isBlank ++ 0 :: b)
    (fuel - (r.takeWhile isBlank).length) pc a.length val alang (r.takeWhile isBlank) hu0 hu
  rw [Nat.sub_add_cancel (by omega), ← List.append_assoc (r.takeWhile isBlank), hsplit] at hrun
  rw [hrun, List.append_assoc a, List.append_assoc k, List.cons_append]
  obtain ⟨fuel', hfuel'⟩ := Nat.exists_eq_succ_of_ne_zero (show fuel - (r.takeWhile isBlank).length ≠ 0 by omega)
  rw [hfuel', valueSets]
  cases hrest : r.dropWhile isBlank with
  | nil => rw [List.nil_append, alangLoop_end, setAll]
  | cons d w =>
    rw [hrest] at hdrop0
    rw [hrest, List.length_cons] at hlen
    have hd0 : d ≠ 0 := fun h => hdrop0 (h ▸ List.mem_cons_self)
    have hw0 : (0 : UInt8) ∉ w := fun h => hdrop0 (List.mem_cons_of_mem _ h)
    rw [List.cons_append, alangLoop_step hd0]
    generalize j ++ r.takeWhile isBlank = j
    generalize hB : a ++ (k ++ 0 :: j) = B
    by_cases hd10 : d = 10
    · subst hd10
      have hstep : alangStep 10 ⟨B ++ 10 :: (w ++ 0 :: b), B.length, .equal, pc, a.length, val, alang⟩ =
          some ⟨B ++ 10 :: (w ++ 0 :: b), B.length, .first, pc, a.length, val, alang⟩ := rfl
      have hih := ih w (B ++ [10]) fuel' pc a.length val alang (by omega) hw0 (by omega)
      simp only [hstep, Option.bind_some, ↓reduceIte, ← hih]
      congr 2 <;> simp
    · have hspace : isSpace d = false := by
        have hhead := dropWhile_head hrest
        simpa [isBlank, hd10] using hhead
      have hstep : alangStep d ⟨B ++ d :: (w ++ 0 :: b), B.length, .equal, pc, a.length, val, alang⟩ =
          some ⟨B ++ d :: (w ++ 0 :: b), B.length, .value, d, a.length, B.length, alang⟩ := by
        simp [alangStep, hspace]
      have hvuf : B.length + 1 = (B ++ [d]).length := by rw [List.length_append, List.length_singleton]
      simp only [hstep, Option.bind_some, hd10, ↓reduceIte, hvuf]
      by_cases hw : w = []
      · obtain ⟨fuel', rfl⟩ := Nat.exists_eq_succ_of_ne_zero (show fuel' ≠ 0 by omega)
        rw [if_pos hw, hw, show B ++ d :: ([] ++ 0 :: b) = (B ++ [d]) ++ 0 :: b by simp, alangLoop_end, setAll]
      · obtain ⟨a', pc', fuel₂, hfuel₂, hvalue⟩ := value_run (a := a) (k := k) (b := b) (j := j) d [d] w
          hw hw0 hk0 (by simpa using hd0.symm) (show w.length < fuel' by omega)
        rw [hB] at hvalue
        rw [if_neg hw, show B ++ d :: (w ++ 0 :: b) = B ++ ([d] ++ (w ++ 0 :: b)) by simp, hvalue, setAll,
          List.singleton_append]
        congr 1
        funext alang
        have hle := splitValue_length d w
        exact ih _ a' fuel₂ pc' a.length B.length alang (by omega)
          (fun h => hw0 ((splitValue_suffix d w).subset h)) hfuel₂

/-- The scan from the start of a line on stays in the buffer, and sets what it reads. -/
theorem alangLoop_eq (s a : Bytes) (fuel : Nat) (pc : UInt8) (key val : Nat) (alang : AArray) (h0 : (0 : UInt8) ∉ s)
    (hfuel : s.length < fuel) :
    alangLoop fuel ⟨a ++ (s ++ 0 :: b), a.length, .first, pc, key, val, alang⟩ = setAll alang (alangSets s) := by
  induction hn : s.length using Nat.strongRecOn generalizing s a fuel pc key val alang with
  | _ n ih =>
    subst hn
    obtain ⟨fuel, rfl⟩ := Nat.exists_eq_succ_of_ne_zero (Nat.ne_zero_of_lt hfuel)
    cases s with
    | nil => rw [List.nil_append, alangLoop_end, alangSets, setAll]
    | cons c s =>
      rw [List.length_cons, Nat.succ_lt_succ_iff] at hfuel
      have hc0 : c ≠ 0 := fun h => h0 (h ▸ List.mem_cons_self)
      have hs0 : (0 : UInt8) ∉ s := fun h => h0 (List.mem_cons_of_mem _ h)
      rw [List.cons_append, alangLoop_step hc0]
      by_cases hspace : isSpace c = true
      · have hstep : alangStep c ⟨a ++ c :: (s ++ 0 :: b), a.length, .first, pc, key, val, alang⟩ =
            some ⟨a ++ c :: (s ++ 0 :: b), a.length, .first, pc, key, val, alang⟩ := by
          have h35 : c ≠ 35 := fun h => absurd hspace (by rw [h]; decide)
          simp [alangStep, hspace, h35]
        rw [hstep, Option.bind_some, alangSets, if_pos hspace,
          ← ih s.length (Nat.lt_succ_self _) s (a ++ [c]) fuel pc key val alang hs0 hfuel rfl]
        congr 2 <;> simp
      · have hstep : alangStep c ⟨a ++ c :: (s ++ 0 :: b), a.length, .first, pc, key, val, alang⟩ =
            some ⟨a ++ c :: (s ++ 0 :: b), a.length, .key, pc, a.length, val, alang⟩ := by
          simp [alangStep, hspace]
        have hsplit := List.takeWhile_append_dropWhile (p := inKey) (l := s)
        have hlen := congrArg List.length hsplit
        rw [List.length_append] at hlen
        have hu : ∀ y ∈ s.takeWhile inKey, inKey y = true := fun y hy => List.mem_takeWhile_imp hy
        have hu0 : (0 : UInt8) ∉ s.takeWhile inKey := fun h => hs0 ((List.takeWhile_prefix _).subset h)
        have hdrop0 : (0 : UInt8) ∉ s.dropWhile inKey := fun h => hs0 ((List.dropWhile_suffix _).subset h)
        -- the key up to the `=` or the newline
        have hkey : alangLoop fuel ⟨a ++ c :: (s ++ 0 :: b), a.length + 1, .key, pc, a.length, val, alang⟩ =
            alangLoop (fuel - (s.takeWhile inKey).length)
              ⟨(a ++ c :: zeroed (s.takeWhile inKey)) ++ (s.dropWhile inKey ++ 0 :: b),
                (a ++ c :: zeroed (s.takeWhile inKey)).length, .key, pc, a.length, val, alang⟩ := by
          have hrun := key_run (a := a ++ [c]) (t := s.dropWhile inKey ++ 0 :: b)
            (fuel - (s.takeWhile inKey).length) pc a.length val alang (s.takeWhile inKey) hu0 hu
          rw [Nat.sub_add_cancel (by omega), ← List.append_assoc (s.takeWhile inKey), hsplit] at hrun
          simpa [Nat.add_comm, Nat.add_assoc, Nat.add_left_comm] using hrun
        obtain ⟨fuel', hfuel'⟩ := Nat.exists_eq_succ_of_ne_zero (show fuel - (s.takeWhile inKey).length ≠ 0 by omega)
        rw [hstep, Option.bind_some, alangSets_line hspace, hkey, hfuel']
        obtain ⟨j, hj⟩ := zeroed_split (s.takeWhile inKey)
        rw [← takeWhile_key] at hj
        generalize hk : c :: s.takeWhile (fun y => !isSpace y && y != 61) = k
        have hk0 : (0 : UInt8) ∉ k := by
          rw [← hk, List.mem_cons, not_or]
          exact ⟨hc0.symm, fun h => hs0 ((List.takeWhile_prefix _).subset h)⟩
        have hA : (a ++ c :: zeroed (s.takeWhile inKey)) ++ [0] = a ++ (k ++ 0 :: j) := by
          rw [← hk, List.append_assoc, List.cons_append, hj, List.cons_append]
        generalize a ++ c :: zeroed (s.takeWhile inKey) = A at hA ⊢
        cases hrest : s.dropWhile inKey with
        | nil => rw [List.nil_append, alangLoop_end, setAll]
        | cons x r =>
          rw [hrest] at hdrop0
          rw [hrest, List.length_cons] at hlen
          have hx0 : x ≠ 0 := fun h => hdrop0 (h ▸ List.mem_cons_self)
          have hr0 : (0 : UInt8) ∉ r := fun h => hdrop0 (List.mem_cons_of_mem _ h)
          rw [List.cons_append, alangLoop_step hx0]
          by_cases hx10 : x = 10
          · subst hx10
            have hstep : alangStep 10 ⟨A ++ 10 :: (r ++ 0 :: b), A.length, .key, pc, a.length, val, alang⟩ =
                some ⟨A ++ 0 :: (r ++ 0 :: b), A.length, .first, pc, a.length, val, alang⟩ := by
              simp [alangStep, store_eq]
            have hih := ih r.length (by simp; omega) r (A ++ [0]) fuel' pc a.length val alang hr0 (by omega) rfl
            simp only [hstep, Option.bind_some, ↓reduceIte, ← hih]
            congr 2 <;> simp
          · obtain rfl : x = 61 := by
              have hhead := dropWhile_head hrest
              simpa [inKey, hx10] using hhead
            have hstep : alangStep 61 ⟨A ++ 61 :: (r ++ 0 :: b), A.length, .key, pc, a.length, val, alang⟩ =
                some ⟨A ++ 0 :: (r ++ 0 :: b), A.length, .equal, pc, a.length, val, alang⟩ := by
              simp [alangStep, store_eq]
            have hmem : A ++ 0 :: (r ++ 0 :: b) = a ++ (k ++ 0 :: j) ++ (r ++ 0 :: b) := by rw [← hA]; simp
            have hvuf : A.length + 1 = (a ++ (k ++ 0 :: j)).length := by rw [← hA]; simp
            simp only [hstep, Option.bind_some, hx10, ↓reduceIte, hmem, hvuf]
            exact equal_spec r pc val alang hk0 hr0 (show r.length < fuel' by omega) fun t a fuel pc key val alang ht ht0 hfuel =>
              ih t.length (by simp; omega) t a fuel pc key val alang ht0 hfuel rfl

end Runs

/-! ## The table -/

/-- The text of a file, without its byte order mark. -/
def langText (content : Bytes) : Bytes :=
  if (cstr content).length > 3 ∧ (cstr content).take 3 = [0xEF, 0xBB, 0xBF] then (cstr content).drop 3 else cstr content

theorem alangLoad_eq (content : Bytes) : alangLoad content = setAll aarrayCreate (alangSets (langText content)) := by
  obtain ⟨b, hb⟩ := cstr_terminated content
  have h0 : (0 : UInt8) ∉ cstr content := not_mem_cstr content
  have hstr : strAt (cstr content ++ 0 :: b) 0 = some (cstr content) := strAt_eq (a := []) h0
  have hlen : (cstr content ++ 0 :: b).length = (cstr content).length + (b.length + 1) := List.length_append
  rw [alangLoad, langText, hb]
  simp only [Option.bind_eq_bind, hstr, Option.bind_some]
  by_cases hbom : (cstr content).length > 3 ∧ (cstr content).take 3 = [0xEF, 0xBB, 0xBF]
  · rw [if_pos hbom, if_pos hbom]
    have hsplit : cstr content ++ 0 :: b = [0xEF, 0xBB, 0xBF] ++ ((cstr content).drop 3 ++ 0 :: b) := by
      rw [← hbom.2, ← List.append_assoc, List.take_append_drop]
    have hdrop : (0 : UInt8) ∉ (cstr content).drop 3 := fun h => h0 (List.mem_of_mem_drop h)
    have hfuel : ((cstr content).drop 3).length < (cstr content ++ 0 :: b).length := by
      rw [List.length_drop]
      omega
    have hloop := alangLoop_eq (b := b) ((cstr content).drop 3) [0xEF, 0xBB, 0xBF] _ 0 0 0 aarrayCreate hdrop hfuel
    rw [← hsplit] at hloop
    exact hloop
  · rw [if_neg hbom, if_neg hbom]
    exact alangLoop_eq (b := b) (cstr content) [] _ 0 0 0 aarrayCreate h0 (by omega)

/-- The last value of each key. -/
def tableOf (sets : List (Bytes × Bytes)) : Bytes → Option Bytes :=
  sets.foldl (fun m set => Function.update m set.1 (some set.2)) fun _ => none

theorem tableOf_none {sets : List (Bytes × Bytes)} {key : Bytes} (h : ∀ set ∈ sets, set.1 ≠ key) :
    tableOf sets key = none := by
  induction sets using List.reverseRecOn with
  | nil => rfl
  | append_singleton sets set ih =>
    rw [tableOf, List.foldl_append, List.foldl_cons, List.foldl_nil,
      Function.update_of_ne (h set (by simp)).symm]
    exact ih fun set' hset' => h set' (List.mem_append_left _ hset')

theorem tableOf_append {front back : List (Bytes × Bytes)} {key : Bytes} (h : ∀ set ∈ back, set.1 ≠ key) :
    tableOf (front ++ back) key = tableOf front key := by
  induction back using List.reverseRecOn with
  | nil => rw [List.append_nil]
  | append_singleton back set ih =>
    rw [← List.append_assoc, tableOf, List.foldl_append, List.foldl_cons, List.foldl_nil,
      Function.update_of_ne (h set (by simp)).symm]
    exact ih fun set' hset' => h set' (List.mem_append_left _ hset')

theorem tableOf_last {front back : List (Bytes × Bytes)} {key val : Bytes} (h : ∀ set ∈ back, set.1 ≠ key) :
    tableOf (front ++ (key, val) :: back) key = some val := by
  rw [show front ++ (key, val) :: back = (front ++ [(key, val)]) ++ back by simp, tableOf_append h, tableOf,
    List.foldl_append, List.foldl_cons, List.foldl_nil, Function.update_self]

theorem tableOf_isSome {sets : List (Bytes × Bytes)} {key val : Bytes} (h : (key, val) ∈ sets) :
    tableOf sets key ≠ none := by
  induction sets using List.reverseRecOn with
  | nil => exact absurd h List.not_mem_nil
  | append_singleton sets set ih =>
    rw [tableOf, List.foldl_append, List.foldl_cons, List.foldl_nil]
    by_cases hkey : key = set.1
    · rw [hkey, Function.update_self]
      exact Option.some_ne_none _
    · rw [Function.update_of_ne hkey]
      refine ih ((List.mem_append.mp h).resolve_right fun hset => hkey ?_)
      rw [← List.mem_singleton.mp hset]

theorem setLang_spec {alang : AArray} {m : Bytes → Option Bytes} (hinv : alang.Inv) (hrep : alang.Represents m)
    (hfull : ∀ item ∈ alang.items, item.key ≠ none) (key val : Bytes) :
    ∃ alang', setLang alang key val = some alang' ∧ alang'.Inv ∧
      alang'.Represents (Function.update m key (some val)) ∧ ∀ item ∈ alang'.items, item.key ≠ none := by
  have hunemptied : Unemptied key alang.items := fun item hitem => hfull item ((List.takeWhile_prefix _).subset hitem)
  have hpass : alang.Passes (.set (some key) (some val)) := by
    intro k hk
    obtain rfl : key = k := Option.some.inj hk
    exact hunemptied
  obtain ⟨alang', happly, hinv', hrep'⟩ := apply_spec hinv hrep hpass
  obtain ⟨⟨n, alang''⟩, hset, hresult⟩ := Option.map_eq_some_iff.mp happly
  obtain rfl : alang'' = alang' := (Prod.mk.inj hresult).2
  refine ⟨alang'', by rw [setLang, hset, Option.map_some], hinv', hrep', ?_⟩
  rw [aarraySet] at hset
  rcases findKey_cases hunemptied with ⟨front, item, back, hitems, hfront, hitem, hfind⟩ | ⟨hall, hfind⟩
  · simp only [hfind, Option.bind_eq_bind, Option.bind_some, Option.some.injEq, Prod.mk.injEq] at hset
    rw [← hset.2]
    intro x hx
    have hmodify : x ∈ front ++ { item with val := some val } :: back := by
      rw [List.modify_eq_take_cons_drop (by simp [hitems])] at hx
      simpa [hitems] using hx
    rcases List.mem_append.mp hmodify with hx | hx
    · exact hfull x (by simp [hitems, hx])
    · rcases List.mem_cons.mp hx with rfl | hx
      · rw [hitem]
        exact Option.some_ne_none _
      · exact hfull x (by simp [hitems, hx])
  · have hfree : alang.items.findIdx? (·.key.isNone) = none := by
      rw [List.findIdx?_eq_none_iff]
      intro x hx
      simpa [Option.isSome_iff_ne_none] using hfull x hx
    simp only [hfind, hfree, Option.bind_eq_bind, Option.bind_some, Option.some.injEq, Prod.mk.injEq] at hset
    rw [← hset.2]
    intro x hx
    rcases List.mem_append.mp hx with hx | hx
    · exact hfull x hx
    · rw [List.mem_singleton.mp hx]
      exact Option.some_ne_none _

/-- What is set is in the table, each key once. -/
theorem setAll_spec (sets : List (Bytes × Bytes)) :
    ∃ alang, setAll aarrayCreate sets = some alang ∧ alang.Inv ∧ alang.Represents (tableOf sets) := by
  have hall : ∀ (sets : List (Bytes × Bytes)) (alang : AArray) (m : Bytes → Option Bytes), alang.Inv →
      alang.Represents m → (∀ item ∈ alang.items, item.key ≠ none) →
      ∃ alang', setAll alang sets = some alang' ∧ alang'.Inv ∧
        alang'.Represents (sets.foldl (fun m set => Function.update m set.1 (some set.2)) m) := by
    intro sets
    induction sets with
    | nil => exact fun alang m hinv hrep _ => ⟨alang, rfl, hinv, hrep⟩
    | cons set sets ih =>
      intro alang m hinv hrep hfull
      obtain ⟨alang', hset, hinv', hrep', hfull'⟩ := setLang_spec hinv hrep hfull set.1 set.2
      obtain ⟨alang'', hsets, h⟩ := ih alang' _ hinv' hrep' hfull'
      exact ⟨alang'', by rw [setAll, hset, Option.bind_some, hsets], h⟩
  exact hall sets aarrayCreate _ ⟨List.nodup_nil, fun _ h => nomatch h⟩ (fun _ => rfl) fun _ h => nomatch h

end Lang
end Miui
