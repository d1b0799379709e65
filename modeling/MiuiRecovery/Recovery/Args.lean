import MiuiRecovery.Lib.CString

/-!
# The arguments of recovery and the bootloader message

`get_args` (`recovery.cpp`) takes the arguments from the command line, from the recovery field of the
bootloader message or from `/cache/recovery/command`, in this order, and writes them back into the
message.

* `recoveryField_str`: the recovery field written is the lines `recovery`, arg, arg, ..., cut to 1023
  bytes.
* `bootArgs_recoveryField`: arguments that fit are read back from it.
* `getArgs_restart`: which arguments a restarted recovery reads back.
* `parseArgs`: the option loop of `main`.
-/

namespace Miui

open CString

def MAX_ARG_LENGTH : Nat := 4096
def MAX_ARGS : Nat := 100

/-- The string fields of `struct bootloader_message`. -/
structure BootloaderMessage where
  command : Field 32
  status : Field 32
  recovery : Field 1024
deriving DecidableEq

/-- `memset(&boot, 0, sizeof(boot))` -/
def BootloaderMessage.zero : BootloaderMessage := ⟨.zero 32, .zero 32, .zero 1024⟩

/-! ## The three sources -/

/-- The arguments in a recovery field: the lines behind a first line `recovery`. -/
def bootArgs (recovery : Field 1024) : List Bytes :=
  -- `boot.recovery[sizeof(boot.recovery) - 1] = '\0'`
  match tokens (· == 10) (recovery.str.take 1023) with
  | [] => []
  | arg :: rest => if arg = Bytes.ascii "recovery" then rest.take (MAX_ARGS - 1) else []

/-- The arguments in the command file: the first token of each line that has one. -/
def fileArgs (file : Bytes) : List Bytes :=
  ((fgetsAll MAX_ARG_LENGTH (by decide) 10 file).filterMap fun buf =>
    (tokens (fun c => c == 13 || c == 10) (cstr buf)).head?).take (MAX_ARGS - 1)

/-- The arguments that `get_args` comes to: `args` from the command line, the message that
`get_bootloader_message` finds and the content of the command file, where it can be read. -/
def argsFrom (args : List Bytes) (boot : BootloaderMessage) (file : Option Bytes) : List Bytes :=
  if args ≠ [] then args
  else if bootArgs boot.recovery ≠ [] then bootArgs boot.recovery
  else (file.map fileArgs).getD []

/-! ## The message written back -/

/-- The recovery field for `args`. -/
def recoveryField (args : List Bytes) : Field 1024 :=
  args.foldl (fun f arg => strlcat (strlcat f arg) (Bytes.ascii "\n"))
    (strlcpy 1024 (Bytes.ascii "recovery\n"))

/-- The message that `get_args` writes for `args` over `boot`. -/
def BootloaderMessage.withArgs (boot : BootloaderMessage) (args : List Bytes) : BootloaderMessage :=
  { boot with
    command := strlcpy 32 (Bytes.ascii "boot-recovery")
    recovery := recoveryField args }

/-- Arguments that are C strings. -/
def CStrings (args : List Bytes) : Prop := ∀ arg ∈ args, (0 : UInt8) ∉ arg

instance (args : List Bytes) : Decidable (CStrings args) :=
  inferInstanceAs (Decidable (∀ arg ∈ args, (0 : UInt8) ∉ arg))

theorem recoveryField_eq_catAll (args : List Bytes) :
    recoveryField args = (args.flatMap fun arg => [arg, Bytes.ascii "\n"]).foldl strlcat
      (strlcpy 1024 (Bytes.ascii "recovery\n")) := by
  unfold recoveryField
  generalize strlcpy 1024 (Bytes.ascii "recovery\n") = f
  induction args generalizing f with
  | nil => rfl
  | cons arg args ih => rw [List.foldl_cons, ih]; rfl

/-- The lines `recovery`, arg, arg, ..., cut to the field. -/
theorem recoveryField_str {args : List Bytes} (h : CStrings args) :
    (recoveryField args).str = (unlines 10 (Bytes.ascii "recovery" :: args)).take 1023 := by
  have hstart : (strlcpy 1024 (Bytes.ascii "recovery\n")).str = Bytes.ascii "recovery\n" := by decide
  rw [recoveryField_eq_catAll, catAll_str, hstart]
  · have hflat : (args.flatMap fun arg => [arg, Bytes.ascii "\n"]).flatten = unlines 10 args := by
      unfold unlines
      induction args with
      | nil => rfl
      | cons arg args ih =>
        simp only [List.flatMap_cons, List.flatten_append]
        rw [ih fun a ha => h a (List.mem_cons_of_mem _ ha)]
        rfl
    rw [hflat]
    rfl
  · intro src hsrc
    obtain ⟨arg, harg, hmem⟩ := List.mem_flatMap.mp hsrc
    rcases List.mem_pair.mp hmem with rfl | rfl
    · exact h _ harg
    · decide
  · rw [hstart]; decide

/-- Arguments that the recovery field has room for, one on each line. -/
structure FitsMessage (args : List Bytes) : Prop where
  c_strings : CStrings args
  lines : ∀ arg ∈ args, arg ≠ [] ∧ (10 : UInt8) ∉ arg
  count : args.length ≤ MAX_ARGS - 1
  room : (unlines 10 (Bytes.ascii "recovery" :: args)).length ≤ 1023

/-- Arguments that fit are read back from the message. -/
theorem bootArgs_recoveryField {args : List Bytes} (h : FitsMessage args) :
    bootArgs (recoveryField args) = args := by
  unfold bootArgs
  rw [recoveryField_str h.c_strings, List.take_take, Nat.min_self, List.take_of_length_le h.room,
    tokens_lines]
  · simp only [if_true]
    exact List.take_of_length_le h.count
  · intro l hl
    rcases List.mem_cons.mp hl with rfl | hl
    · decide
    · exact h.lines l hl

/-! ## Reading back -/

/-- Arguments that the recovery field keeps; the last newline may be cut off. -/
structure KeptByMessage (args : List Bytes) : Prop where
  nonempty : ∀ arg ∈ args, arg ≠ []
  count : args.length ≤ MAX_ARGS - 1
  room : (unlines 10 (Bytes.ascii "recovery" :: args)).length ≤ 1024

/-- Arguments that `get_args` takes. -/
structure Accepted (args : List Bytes) : Prop where
  c_strings : CStrings args
  lines : ∀ arg ∈ args, (10 : UInt8) ∉ arg
  count : args.length ≤ MAX_ARGS
  length : ∀ arg ∈ args, arg.length ≤ MAX_ARG_LENGTH

variable {args : List Bytes}

/-- The field is `recovery` and what fits of the argument lines. -/
theorem bootArgs_eq (h : CStrings args) :
    bootArgs (recoveryField args) = (tokens (· == 10) ((unlines 10 args).take 1014)).take (MAX_ARGS - 1) := by
  have hfield : (recoveryField args).str.take 1023 =
      Bytes.ascii "recovery" ++ 10 :: (unlines 10 args).take 1014 := by
    rw [recoveryField_str h, List.take_take, Nat.min_self]
    rfl
  unfold bootArgs
  rw [hfield, tokens_line (by decide) (by decide)]
  simp

theorem bootArgs_kept (h : Accepted args) (hkept : KeptByMessage args) :
    bootArgs (recoveryField args) = args := by
  have hroom : (unlines 10 args).length ≤ 1015 := by
    have := hkept.room
    rw [unlines_length, List.map_cons, List.sum_cons, ← unlines_length 10] at this
    have hlen : (Bytes.ascii "recovery").length = 8 := rfl
    omega
  have hlines : ∀ arg ∈ args, arg ≠ [] ∧ (10 : UInt8) ∉ arg := fun arg harg =>
    ⟨hkept.nonempty arg harg, h.lines arg harg⟩
  have htokens : tokens (· == 10) ((unlines 10 args).take 1014) = args := by
    by_cases hall : (unlines 10 args).length ≤ 1014
    · rw [List.take_of_length_le hall, tokens_lines hlines]
    · -- only the newline behind the last argument is cut off
      obtain rfl | ⟨init, last, rfl⟩ := List.eq_nil_or_concat' args
      · simp [unlines] at hall
      · have hlast := hlines last (by simp)
        have hsplit : unlines 10 (init ++ [last]) = unlines 10 init ++ last ++ [10] := by
          simp [unlines]
        have htake : (unlines 10 (init ++ [last])).take 1014 = unlines 10 init ++ last := by
          rw [hsplit] at hall hroom ⊢
          rw [List.length_append, List.length_singleton] at hall hroom
          exact List.take_left' (by omega)
        have htoken : tokens (· == 10) last = [last] := by
          have hcons : tokens (· == 10) (last ++ []) = last :: tokens (· == 10) [] :=
            tokens_cons hlast.1
              (fun c hc => by
                have : c ≠ 10 := fun h10 => hlast.2 (h10 ▸ hc)
                simpa using this) (by simp)
          rwa [List.append_nil, tokens_nil] at hcons
        rw [htake, tokens_lines_append fun l hl => hlines l (by simp [hl]), htoken]
  rw [bootArgs_eq h.c_strings, htokens, List.take_of_length_le hkept.count]

theorem kept_of_bootArgs (h : CStrings args) (hread : bootArgs (recoveryField args) = args) :
    KeptByMessage args := by
  rw [bootArgs_eq h] at hread
  have hmem : ∀ arg ∈ args, arg ∈ tokens (· == 10) ((unlines 10 args).take 1014) := by
    intro arg harg
    rw [← hread] at harg
    exact List.mem_of_mem_take harg
  have htotal := tokens_total (· == 10) ((unlines 10 args).take 1014)
  have hcut := List.length_take_le 1014 (unlines 10 args)
  refine ⟨fun arg harg => (mem_tokens (hmem arg harg)).1, ?_, ?_⟩
  · rw [← hread]
    exact List.length_take_le _ _
  · have hsum : (args.map fun l => l.length + 1).sum ≤
        ((tokens (· == 10) ((unlines 10 args).take 1014)).map fun l => l.length + 1).sum := by
      conv => lhs; rw [← hread]
      conv => rhs; rw [← List.take_append_drop (MAX_ARGS - 1) (tokens _ _)]
      rw [List.map_append, List.sum_append]
      exact Nat.le_add_right _ _
    rw [unlines_length, List.map_cons, List.sum_cons]
    have hlen : (Bytes.ascii "recovery").length = 8 := rfl
    omega

/-- Lines of which only newlines show are empty. -/
theorem empty_of_newlines {k : Nat} (hcount : args.length ≤ k)
    (hnl : ∀ c ∈ (unlines 10 args).take k, c = 10) (hlines : ∀ arg ∈ args, (10 : UInt8) ∉ arg) :
    ∀ arg ∈ args, arg = [] := by
  induction args generalizing k with
  | nil => simp
  | cons arg args ih =>
    obtain ⟨k, rfl⟩ : ∃ n, k = n + 1 := ⟨k - 1, by rw [List.length_cons] at hcount; omega⟩
    have harg : arg = [] := by
      cases arg with
      | nil => rfl
      | cons c cs =>
        have := hnl c (by simp [unlines])
        exact absurd (this ▸ List.mem_cons_self) (hlines (c :: cs) List.mem_cons_self)
    subst harg
    intro a ha
    rcases List.mem_cons.mp ha with rfl | ha
    · rfl
    · refine ih (by simpa using hcount) (fun c hc => hnl c ?_)
        (fun a ha => hlines a (List.mem_cons_of_mem _ ha)) a ha
      have hcons : unlines 10 ([] :: args) = 10 :: unlines 10 args := rfl
      rw [hcons, List.take_succ_cons]
      exact List.mem_cons_of_mem _ hc

theorem mem_fileArgs {file arg : Bytes} (h : arg ∈ fileArgs file) : arg ≠ [] := by
  have := List.mem_of_mem_take h
  obtain ⟨buf, -, hbuf⟩ := List.mem_filterMap.mp this
  exact (mem_tokens (List.mem_of_mem_head? hbuf)).1

/-- Recovery that is restarted with an empty command line reads its arguments back from the message that
`get_args` has written, exactly where the message keeps them. The command file matters only where there
were none. -/
theorem getArgs_restart (cmd : List Bytes) (boot : BootloaderMessage) (file file' : Option Bytes)
    (h : Accepted (argsFrom cmd boot file)) (hfile : argsFrom cmd boot file = [] → file' = file) :
    argsFrom [] (boot.withArgs (argsFrom cmd boot file)) file' = argsFrom cmd boot file ↔
      KeptByMessage (argsFrom cmd boot file) := by
  generalize hargs : argsFrom cmd boot file = args at h hfile
  have hrestart : argsFrom [] (boot.withArgs args) file' =
      if bootArgs (recoveryField args) ≠ [] then bootArgs (recoveryField args)
      else (file'.map fileArgs).getD [] := rfl
  rw [hrestart]
  constructor
  · intro heq
    split at heq
    · exact kept_of_bootArgs h.c_strings heq
    · rename_i hnone
      have hnone : bootArgs (recoveryField args) = [] := Decidable.not_not.mp hnone
      by_cases hempty : args = []
      · exact hempty ▸ ⟨by simp, by decide, by decide⟩
      · exfalso
        rw [bootArgs_eq h.c_strings] at hnone
        have htokens := (List.take_eq_nil_iff.mp hnone).resolve_left (by decide)
        have hall := empty_of_newlines (k := 1014) (h.count.trans (by decide))
          (fun c hc => by simpa using tokens_eq_nil htokens c hc) h.lines
        obtain ⟨arg, rest, rfl⟩ := List.exists_cons_of_ne_nil hempty
        cases file' with
        | none => cases heq
        | some file' =>
          have hmem : arg ∈ fileArgs file' := by
            rw [show fileArgs file' = arg :: rest from heq]
            exact List.mem_cons_self
          exact mem_fileArgs hmem (hall arg List.mem_cons_self)
  · intro hkept
    rw [bootArgs_kept h hkept]
    split
    · rfl
    · rename_i hnone
      have hnone : args = [] := Decidable.not_not.mp hnone
      rw [hfile hnone, hnone]
      rw [hnone] at hargs
      unfold argsFrom at hargs
      split at hargs
      · exact absurd hargs ‹_›
      · split at hargs
        · exact absurd hargs ‹_›
        · exact hargs

/-- A package path of a thousand bytes is below `MAX_ARG_LENGTH`, but its end does not fit into the
recovery field: the restarted recovery looks for another file. -/
theorem getArgs_long_path :
    let args := [Bytes.ascii "--update_package=" ++ List.replicate 1000 97]
    Accepted (argsFrom args .zero none) ∧
      argsFrom [] (BootloaderMessage.zero.withArgs (argsFrom args .zero none)) none =
        [Bytes.ascii "--update_package=" ++ List.replicate 997 97] ∧
      argsFrom [] (BootloaderMessage.zero.withArgs (argsFrom args .zero none)) none ≠
        argsFrom args .zero none := by
  refine ⟨⟨?_, ?_, ?_, ?_⟩, ?_, ?_⟩
  all_goals decide +kernel

theorem getArgs_wipe_data :
    argsFrom [] (BootloaderMessage.zero.withArgs
        (argsFrom [Bytes.ascii "--wipe_data"] .zero none)) none =
      argsFrom [Bytes.ascii "--wipe_data"] .zero none ↔
    KeptByMessage (argsFrom [Bytes.ascii "--wipe_data"] .zero none) :=
  getArgs_restart [Bytes.ascii "--wipe_data"] .zero none none
    ⟨by decide, by decide, by decide, by decide⟩ (by decide)

/-! ## The options -/

inductive Opt
  | send_intent
  | update_package
  | wipe_data
  | wipe_cache
  | show_text
deriving DecidableEq

/-- The table `OPTIONS`: name and whether the option takes an argument. -/
def OPTIONS : List (String × Bool × Opt) :=
  [("send_intent", true, .send_intent), ("update_package", true, .update_package),
    ("wipe_data", false, .wipe_data), ("wipe_cache", false, .wipe_cache),
    ("show_text", false, .show_text)]

/-- The long option that `getopt_long` takes `name` for: the one of this name, or the only one that
begins with it. -/
def findOption (name : Bytes) : Option (Bool × Opt) :=
  match OPTIONS.find? (Bytes.ascii ·.1 == name) with
  | some o => some o.2
  | none =>
    match OPTIONS.filter (name.isPrefixOf <| Bytes.ascii ·.1) with
    | [o] => some o.2
    | _ => none

/-- What `main` reads from its arguments. -/
structure Options where
  send_intent : Option Bytes
  update_package : Option Bytes
  wipe_data : Bool
  wipe_cache : Bool
deriving DecidableEq

def Options.none : Options := ⟨Option.none, Option.none, false, false⟩

/-- One turn of the option loop of `main`. -/
def Options.set (o : Options) (opt : Opt) (optarg : Option Bytes) : Options :=
  match opt with
  | .send_intent => { o with send_intent := optarg }
  | .update_package => { o with update_package := optarg }
  | .wipe_data => { o with wipe_data := true, wipe_cache := true }
  | .wipe_cache => { o with wipe_cache := true }
  -- `case 't'` is commented out.
  | .show_text => o

/-- The loop over `getopt_long(argc, argv, "", OPTIONS, NULL)`. What `getopt_long` does not know is
reported and skipped, as are the arguments that are no options. -/
def parseArgs : List Bytes → Options → Options
  | [], o => o
  | arg :: rest, o =>
    if arg = Bytes.ascii "--" then o
    else if Bytes.ascii "--" <+: arg then
      let name := (arg.drop 2).takeWhile (· != 61)
      let value := ((arg.drop 2).dropWhile (· != 61)).tail?
      match findOption name with
      | none => parseArgs rest o
      | some (true, opt) =>
        match value, rest with
        | some v, rest => parseArgs rest (o.set opt (some v))
        | none, v :: rest => parseArgs rest (o.set opt (some v))
        | none, [] => o
      | some (false, opt) =>
        match value with
        | some _ => parseArgs rest o
        | none => parseArgs rest (o.set opt none)
    else parseArgs rest o

/-- A package path of the old form `CACHE:foo`. -/
def modifiedPath (update_package : Bytes) : Bytes :=
  if Bytes.ascii "CACHE:" <+: update_package then
    Bytes.ascii "/cache/" ++ update_package.drop 6
  else update_package

end Miui
