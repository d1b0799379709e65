import MiuiRecovery.Install
import MiuiRecovery.Updater.Install

/-!
# The command pipe

The lines that the functions of the updater (`updater/install.c`) write to the pipe, and the loop of
`try_update_binary` (`install.cpp`) that reads them. A line is read into a buffer of 1024 bytes, and a longer one
in pieces.

* `writes_eq`: what the functions write, line by line.
* `readLoop_lines`: the loop reads the lines one after the other.
* `readLine_print`: what becomes of a text.
* `pipe_iff`: which texts are displayed and nothing else, and which bytes the loop reads to the end.
-/

namespace Miui
namespace Updater

open Prog (call exec exec_bind)
open CString Edify Numeral

/-! ## The writer -/

/-- What `%f` writes of the number that `strtod` reads: at most a sign, 309 digits, a point and 6 digits. -/
structure FloatText where
  text : Bytes → Bytes
  ne_nil : ∀ s, text s ≠ []
  plain : ∀ s, ∀ c ∈ text s, c ≠ 0 ∧ c ≠ 10 ∧ c ≠ 32
  short : ∀ s, (text s).length ≤ 317

/-- A string of the script. -/
abbrev CStr := { s : Bytes // 0 ∉ s }

/-- A call of one of the functions that write to the pipe. -/
inductive PipeCall
  | uiPrint (args : List CStr)
  | showProgress (frac sec : CStr)
  | setProgress (frac : CStr)
  | wipeCache

def PipeCall.args : PipeCall → List Bytes
  | uiPrint args => args.map Subtype.val
  | showProgress frac sec => [frac, sec]
  | setProgress frac => [frac]
  | wipeCache => []

def PipeCall.body : PipeCall → Body
  | uiPrint args => uiPrintFn args.length
  | showProgress _ _ => showProgressFn (Bytes.ascii "show_progress") 2
  | setProgress _ => setProgressFn (Bytes.ascii "set_progress") 1
  | wipeCache => wipeCacheFn (Bytes.ascii "wipe_cache") 0

/-- `fprintf(ui->cmd_pipe, ...)` -/
def printed (F : FloatText) (c : Edify.Call) : Bytes :=
  if c.fn = "ui_print" then
    -- the last line of a text has no argument
    Bytes.ascii "ui_print" ++ (if c.args.getD 0 [] = [] then [] else 32 :: c.args.getD 0 []) ++ [10]
  else if c.fn = "progress" then
    Bytes.ascii "progress " ++ F.text (c.args.getD 0 []) ++ 32 :: signed (c.nums.getD 0 0) ++ [10]
  else if c.fn = "set_progress" then Bytes.ascii "set_progress " ++ F.text (c.args.getD 0 []) ++ [10]
  else if c.fn = "wipe_cache" then Bytes.ascii "wipe_cache" ++ [10]
  else []

def pipeAnswer (F : FloatText) (args : List Bytes) : ∀ β : Type, EdifyOp β → Bytes → β × Bytes
  | _, .evaluate i, pipe => (args[i]?, pipe)
  | _, .evaluateValue i, pipe => (args[i]?.map .string, pipe)
  | _, .free _, pipe => ((), pipe)
  | _, .source _, pipe => ([], pipe)
  | _, .setErrmsg _, pipe => ((), pipe)
  | _, .crash, pipe => ((), pipe)
  | _, .call c, pipe => (⟨0, []⟩, pipe ++ printed F c)

/-- What the calls of a script leave in the pipe. -/
def writes (F : FloatText) (calls : List PipeCall) : Bytes :=
  calls.foldl (fun pipe call => (exec (pipeAnswer F call.args) call.body pipe).2) []

/-! ## The reader -/

/-- What the reader does. A fraction is the text that `strtof` reads. -/
inductive Action
  | setText (text : Bytes)
  | setInfo (text : Option Bytes)
  | showProgress (fraction : Bytes) (seconds : Int)
  | setProgress (fraction : Bytes)
  | wipeCache
deriving DecidableEq

def blank (c : UInt8) : Bool := c == 32 || c == 10

/-- `"<#selectbg_g><b>%s</b></#>"` -/
def marked (str : Bytes) : Bytes := Bytes.ascii "<#selectbg_g><b>" ++ str ++ Bytes.ascii "</b></#>"

/-- `snprintf(tmpbuf, 255, ...); miuiInstall_set_text(tmpbuf)` -/
def display (text : Bytes) : Action := .setText (text.take 254)

/-- `skip_check_device_info` of a string. -/
def skipCheckDeviceInfo (info : Bytes) : Bool :=
  ["ro.product.device", "ro.build.product", "ro.product.board", "ro.sdupdate.Check_info"].any fun prop =>
    Bytes.ascii prop <:+: info

def ignored : Action := display (marked (Bytes.ascii "Ignore device_info_check \n"))

/-- `assert`: the first string, and the second one if the first is none that is skipped. -/
def readAssert (rest : Bytes) : Option (List Action) := do
  let (info, rest) ← strtok blank rest
  if skipCheckDeviceInfo info then some [ignored]
  else do
    let (info, _) ← strtok (· == 124) rest
    some (if skipCheckDeviceInfo info then [ignored] else [])

def readProgress (rest : Bytes) : Option (List Action) := do
  let (fraction_s, rest) ← strtok blank rest
  let (seconds_s, _) ← strtok blank rest
  some [.showProgress fraction_s (strtol seconds_s)]

def readSetProgress (rest : Bytes) : Option (List Action) := do
  let (fraction_s, _) ← strtok blank rest
  some [.setProgress fraction_s]

def readPrint (rest : Bytes) : List Action :=
  match strtok (· == 10) rest with
  | some (str, _) => [display (marked str)]
  | none => [display (marked [10])]

/-- One round of the loop of `try_update_binary`; `none` where `NULL` is dereferenced. -/
def readLine (currstatus : Bool) (buffer : Bytes) : Option (List Action) :=
  match strtok blank (cstr buffer) with
  | none => some []
  | some (command, rest) =>
    if command = Bytes.ascii "assert" then if currstatus then readAssert rest else some []
    else if command = Bytes.ascii "progress" then readProgress rest
    else if command = Bytes.ascii "set_progress" then readSetProgress rest
    else if command = Bytes.ascii "ui_print" then some (readPrint rest)
    else if command = Bytes.ascii "wipe_cache" then some [.wipeCache]
    else if command = Bytes.ascii "minzip:" then some [.setInfo ((strtok (· == 10) rest).map (·.1))]
    else some []

/-- The loop of `try_update_binary` over the pieces that `fgets` returns. -/
def readLoop (currstatus : Bool) : List Bytes → Option (List Action)
  | [] => some []
  | buffer :: buffers => do
    let actions ← readLine currstatus buffer
    let rest ← readLoop currstatus buffers
    some (actions ++ rest)

/-- The pieces that `fgets` returns of a stream. -/
def pieces (stream : Bytes) : List Bytes := fgetsAll 1024 buffer_pos 10 stream

/-- What is done with a stream. -/
def readPipe (currstatus : Bool) (stream : Bytes) : Option (List Action) := readLoop currstatus (pieces stream)

/-! ## Lines -/

/-- A line of the pipe. -/
inductive Line
  | print (text : Bytes)
  | printEnd
  | progress (frac : Bytes) (sec : Int)
  | setProgress (frac : Bytes)
  | wipeCache

def Line.text (F : FloatText) : Line → Bytes
  | print text => Bytes.ascii "ui_print " ++ text
  | printEnd => Bytes.ascii "ui_print"
  | progress frac sec => Bytes.ascii "progress " ++ F.text frac ++ 32 :: signed sec
  | setProgress frac => Bytes.ascii "set_progress " ++ F.text frac
  | wipeCache => Bytes.ascii "wipe_cache"

def Line.command : Line → Bytes
  | print _ => Bytes.ascii "ui_print"
  | printEnd => Bytes.ascii "ui_print"
  | progress _ _ => Bytes.ascii "progress"
  | setProgress _ => Bytes.ascii "set_progress"
  | wipeCache => Bytes.ascii "wipe_cache"

/-- The action that a line asks for. -/
def Line.action (F : FloatText) : Line → Action
  | print text => .setText (marked text)
  | printEnd => .setText (marked [10])
  | progress frac sec => .showProgress (F.text frac) sec
  | setProgress frac => .setProgress (F.text frac)
  | wipeCache => .wipeCache

/-- The lines of a call: a text has a line for each of its lines that is not empty, and one more. -/
def PipeCall.lines : PipeCall → List Line
  | uiPrint args => (tokens (· == 10) (args.map Subtype.val).flatten).map .print ++ [.printEnd]
  | showProgress frac sec => [.progress frac (strtol sec)]
  | setProgress frac => [.setProgress frac]
  | wipeCache => [.wipeCache]

variable {F : FloatText} {args : List Bytes}

theorem exec_freeArgs_pipe (base n : Nat) (pipe : Bytes) :
    exec (pipeAnswer F args) (freeArgs base n) pipe = ((), pipe) := by
  induction n with
  | zero => rfl
  | succ n ih =>
    rw [freeArgs, exec_bind, ih]
    rfl

theorem exec_readVarArgs_pipe (args : List Bytes) (pipe : Bytes) :
    exec (pipeAnswer F args) (readVarArgs 0 args.length) pipe = (some args, pipe) := by
  have hread : ∀ (rest acc : List Bytes), args = acc ++ rest →
      exec (pipeAnswer F args) (readAll .evaluate 0 rest.length acc) pipe = (some args, pipe) := by
    intro rest
    induction rest with
    | nil =>
      rintro acc rfl
      simp [readAll, exec]
    | cons a rest ih =>
      intro acc hargs
      have hev : exec (pipeAnswer F args) (call (.evaluate (0 + acc.length))) pipe = (some a, pipe) := by
        show (args[0 + acc.length]?, pipe) = _
        rw [hargs]
        simp
      rw [List.length_cons, readAll, exec_bind, hev]
      exact ih (acc ++ [a]) (by rw [hargs, List.append_assoc]; rfl)
  exact hread args [] rfl

theorem exec_printLines (ls : List Bytes) (pipe : Bytes) :
    exec (pipeAnswer F args) (printLines ls) pipe = ((), pipe ++ ls.flatMap fun l => printed F ⟨"ui_print", [l], []⟩) := by
  induction ls generalizing pipe with
  | nil => simp [printLines, exec]
  | cons l ls ih =>
    have hstep : exec (pipeAnswer F args) (printLines (l :: ls)) pipe =
        exec (pipeAnswer F args) (printLines ls) (pipe ++ printed F ⟨"ui_print", [l], []⟩) := rfl
    rw [hstep, ih, List.flatMap_cons, List.append_assoc]

/-- A call writes its lines. -/
theorem call_writes (c : PipeCall) (pipe : Bytes) :
    (exec (pipeAnswer F c.args) c.body pipe).2 = pipe ++ unlines 10 (c.lines.map (Line.text F)) := by
  have hone : ∀ l, unlines 10 [l] = l ++ [10] := fun l => List.append_nil _
  cases c with
  | uiPrint args =>
    have hlen : args.length = (args.map Subtype.val).length := by rw [List.length_map]
    have hprint : ∀ l : Bytes, l ≠ [] → printed F ⟨"ui_print", [l], []⟩ = Bytes.ascii "ui_print " ++ l ++ [10] := by
      intro l hl
      simp only [printed, ↓reduceIte, List.getD_cons_zero, hl]
      rfl
    rw [PipeCall.body, PipeCall.args, uiPrintFn, hlen, withArgs, exec_bind, exec_readVarArgs_pipe]
    dsimp only
    rw [exec_bind, exec_freeArgs_pipe, exec_bind, exec_printLines]
    show pipe ++ _ = _
    rw [PipeCall.lines, unlines, List.flatMap_append, List.map_append, List.flatMap_append, List.map_map]
    congr 2
    · rw [List.flatMap_map]
      refine List.flatMap_congr fun l hl => hprint l (mem_tokens hl).1
  | showProgress frac sec =>
    show pipe ++ (Bytes.ascii "progress " ++ F.text frac ++ 32 :: signed (strtol sec) ++ [10]) = _
    rw [PipeCall.lines, List.map_singleton, hone]
    rfl
  | setProgress frac =>
    show pipe ++ (Bytes.ascii "set_progress " ++ F.text frac ++ [10]) = _
    rw [PipeCall.lines, List.map_singleton, hone]
    rfl
  | wipeCache =>
    rw [PipeCall.lines, List.map_singleton, hone]
    rfl

/-- What a script writes, line by line. -/
theorem writes_eq (F : FloatText) (calls : List PipeCall) :
    writes F calls = unlines 10 ((calls.flatMap PipeCall.lines).map (Line.text F)) := by
  have hfold : ∀ pipe, calls.foldl (fun pipe call => (exec (pipeAnswer F call.args) call.body pipe).2) pipe =
      pipe ++ unlines 10 ((calls.flatMap PipeCall.lines).map (Line.text F)) := by
    induction calls with
    | nil => simp [unlines]
    | cons c calls ih =>
      intro pipe
      rw [List.foldl_cons, call_writes, ih, List.flatMap_cons, List.map_append, unlines, unlines, unlines,
        List.flatMap_append, List.append_assoc]
  exact hfold []

/-! ## Reading a line -/

/-- What the writer makes sure of. -/
def Line.Good : Line → Prop
  | print text => text ≠ [] ∧ 10 ∉ text ∧ 0 ∉ text
  | progress _ sec => -2 ^ 31 ≤ sec ∧ sec < 2 ^ 31
  | _ => True

theorem lines_good (c : PipeCall) : ∀ l ∈ c.lines, l.Good := by
  intro l hl
  cases c with
  | uiPrint args =>
    rcases List.mem_append.mp hl with hl | hl
    · obtain ⟨t, ht, rfl⟩ := List.mem_map.mp hl
      obtain ⟨hne, hsep⟩ := mem_tokens ht
      refine ⟨hne, fun h10 => absurd (hsep 10 h10) (by decide), fun h0 => ?_⟩
      obtain ⟨a, ha, h0⟩ := List.mem_flatten.mp (mem_of_mem_tokens ht h0)
      obtain ⟨a, -, rfl⟩ := List.mem_map.mp ha
      exact a.2 h0
    · obtain rfl := List.mem_singleton.mp hl
      trivial
  | showProgress frac sec =>
    obtain rfl := List.mem_singleton.mp hl
    show -2 ^ 31 ≤ strtol sec ∧ strtol sec < 2 ^ 31
    unfold strtol
    split <;> omega
  | setProgress frac =>
    obtain rfl := List.mem_singleton.mp hl
    trivial
  | wipeCache =>
    obtain rfl := List.mem_singleton.mp hl
    trivial

/-- The action of a line as far as `tmpbuf` holds it. -/
def Line.shown (F : FloatText) : Line → Action
  | print text => display (marked text)
  | l => l.action F

/-- A word in front of a blank. -/
theorem strtok_word {word rest : Bytes} (hne : word ≠ []) (hword : ∀ c ∈ word, blank c = false) {c : UInt8}
    (hc : blank c = true) : strtok blank (word ++ c :: rest) = some (word, rest) :=
  strtok_cons hne hword (by simpa using hc)

/-- A text, or the front of one. -/
theorem readLine_print {currstatus : Bool} {t tail : Bytes} (hne : t ≠ []) (hnl : 10 ∉ t) (hnul : 0 ∉ t)
    (htail : tail = [] ∨ tail = [10]) :
    readLine currstatus (Bytes.ascii "ui_print " ++ t ++ tail) = some [display (marked t)] := by
  have hcstr : cstr (Bytes.ascii "ui_print " ++ t ++ tail) = Bytes.ascii "ui_print" ++ 32 :: (t ++ tail) := by
    rw [cstr_eq_self]
    · simp [Bytes.ascii]
    · rcases htail with rfl | rfl <;> simp [Bytes.ascii, hnul]
  have hstr : strtok (· == 10) (t ++ tail) = some (t, tail.drop 1) := by
    refine strtok_cons hne (fun c hc => beq_false_of_ne (ne_of_mem_of_not_mem hc hnl)) ?_
    rcases htail with rfl | rfl <;> simp
  rw [readLine, hcstr, strtok_word (by decide +kernel) (by decide +kernel) (by decide +kernel)]
  dsimp only
  rw [if_neg (by decide), if_neg (by decide), if_neg (by decide), if_pos rfl, readPrint, hstr]

theorem FloatText.blank (F : FloatText) (s : Bytes) : ∀ c ∈ F.text s, Updater.blank c = false := by
  intro c hc
  obtain ⟨-, h10, h32⟩ := F.plain s c hc
  simp [Updater.blank, h10, h32]

theorem signed_blank (n : Int) : ∀ c ∈ signed n, blank c = false ∧ c ≠ 0 := by
  intro c hc
  rcases signed_chars hc with rfl | ⟨hlow, hhigh⟩
  · decide
  · constructor
    · simp only [blank, Bool.or_eq_false_iff, beq_eq_false_iff_ne]
      constructor <;> rintro rfl
      · exact absurd hlow (by decide)
      · exact absurd hlow (by decide)
    · rintro rfl
      exact absurd hlow (by decide)

theorem readLine_progress {currstatus : Bool} (frac : Bytes) {sec : Int} (hlow : -2 ^ 31 ≤ sec) (hhigh : sec < 2 ^ 31) :
    readLine currstatus ((Line.progress frac sec).text F ++ [10]) = some [(Line.progress frac sec).action F] := by
  have hcstr : cstr ((Line.progress frac sec).text F ++ [10]) =
      Bytes.ascii "progress" ++ 32 :: (F.text frac ++ 32 :: (signed sec ++ 10 :: [])) := by
    have hfrac : 0 ∉ F.text frac := fun h => (F.plain frac 0 h).1 rfl
    have hsec : 0 ∉ signed sec := fun h => (signed_blank sec 0 h).2 rfl
    rw [cstr_eq_self]
    · simp [Line.text, Bytes.ascii]
    · simp [Line.text, Bytes.ascii, hfrac, hsec]
  have hsigned : signed sec ≠ [] := by
    unfold signed
    split
    · simp
    · exact numeral_ne_nil _ _
  rw [readLine, hcstr, strtok_word (by decide +kernel) (by decide +kernel) (by decide +kernel)]
  dsimp only
  rw [if_neg (by decide), if_pos rfl, readProgress, strtok_word (F.ne_nil frac) (F.blank frac) (by decide)]
  simp only [Option.bind_eq_bind, Option.bind_some]
  rw [strtok_word hsigned (fun c hc => (signed_blank sec c hc).1) (by decide), Option.bind_some, strtol_signed hlow hhigh]
  rfl

theorem readLine_setProgress {currstatus : Bool} (frac : Bytes) :
    readLine currstatus ((Line.setProgress frac).text F ++ [10]) = some [(Line.setProgress frac).action F] := by
  have hcstr : cstr ((Line.setProgress frac).text F ++ [10]) =
      Bytes.ascii "set_progress" ++ 32 :: (F.text frac ++ 10 :: []) := by
    have hfrac : 0 ∉ F.text frac := fun h => (F.plain frac 0 h).1 rfl
    rw [cstr_eq_self]
    · simp [Line.text, Bytes.ascii]
    · simp [Line.text, Bytes.ascii, hfrac]
  rw [readLine, hcstr, strtok_word (by decide +kernel) (by decide +kernel) (by decide +kernel)]
  dsimp only
  rw [if_neg (by decide), if_neg (by decide), if_pos rfl, readSetProgress,
    strtok_word (F.ne_nil frac) (F.blank frac) (by decide)]
  rfl

/-- A line with its newline. -/
theorem readLine_text {currstatus : Bool} {l : Line} (h : l.Good) :
    readLine currstatus (l.text F ++ [10]) = some [l.shown F] := by
  cases l with
  | print t => exact readLine_print h.1 h.2.1 h.2.2 (.inr rfl)
  | printEnd =>
    have hend : ∀ b, readLine b (Bytes.ascii "ui_print" ++ [10]) = some [.setText (marked [10])] := by decide +kernel
    exact hend currstatus
  | progress frac sec => exact readLine_progress frac h.1 h.2
  | setProgress frac => exact readLine_setProgress frac
  | wipeCache =>
    have hwipe : ∀ b, readLine b (Bytes.ascii "wipe_cache" ++ [10]) = some [.wipeCache] := by decide +kernel
    exact hwipe currstatus

/-- How much of a line is no part of its first piece, and whether it is a text that `tmpbuf` holds. -/
def Line.beyond : Line → Bytes
  | print text => text.drop 1014
  | _ => []

def Line.Fits : Line → Prop
  | print text => text.length ≤ 230
  | _ => True

theorem text_nl {l : Line} (h : l.Good) : 10 ∉ l.text F := by
  have hfrac : ∀ s, 10 ∉ F.text s := fun s h => (F.plain s 10 h).2.1 rfl
  cases l with
  | print t =>
    have ht : 10 ∉ t := h.2.1
    simp [Line.text, Bytes.ascii, ht]
  | printEnd => exact (by decide : 10 ∉ Bytes.ascii "ui_print")
  | progress frac sec =>
    have hsec : 10 ∉ signed sec := fun h => absurd (signed_blank sec 10 h).1 (by decide)
    simp [Line.text, Bytes.ascii, hfrac, hsec]
  | setProgress frac => simp [Line.text, Bytes.ascii, hfrac]
  | wipeCache => exact (by decide : 10 ∉ Bytes.ascii "wipe_cache")

/-- A line is read in one piece, or it is a long text: then there are more pieces. -/
theorem pieces_line {l : Line} (h : l.Good) :
    pieces (l.text F ++ [10]) = [l.text F ++ [10]] ∧ l.beyond = [] ∨
      ∃ t, l = .print t ∧ 1014 ≤ t.length ∧ ∃ more, pieces (l.text F ++ [10]) = (Bytes.ascii "ui_print " ++ t.take 1014) :: more ∧
        more.flatten = l.beyond ++ [10] := by
  have hshort : (l.text F).length + 1 < 1024 → pieces (l.text F ++ [10]) = [l.text F ++ [10]] := by
    intro hlen
    rw [pieces, fgetsAll_line (by decide) hlen (text_nl h), fgetsAll, dif_pos rfl]
  cases l with
  | print t =>
    by_cases hlen : t.length < 1014
    · refine .inl ⟨hshort ?_, List.drop_eq_nil_of_le (by omega)⟩
      have hascii : (Bytes.ascii "ui_print ").length = 9 := rfl
      rw [Line.text, List.length_append, hascii]
      omega
    · have hascii : (Bytes.ascii "ui_print ").length = 9 := rfl
      have hlong : 1024 ≤ ((Line.print t).text F).length + 1 := by
        rw [Line.text, List.length_append, hascii]
        omega
      have htake : ((Line.print t).text F).take 1023 = Bytes.ascii "ui_print " ++ t.take 1014 := by
        rw [Line.text, List.take_append, hascii, List.take_of_length_le (by rw [hascii]; decide)]
      have hdrop : ((Line.print t).text F ++ [10]).drop 1023 = t.drop 1014 ++ [10] := by
        rw [List.drop_append_of_le_length (by omega), Line.text, List.drop_append, hascii,
          List.drop_of_length_le (by rw [hascii]; decide), List.nil_append]
      have hfirst : fgetsLine 1024 10 ((Line.print t).text F ++ [10]) = ((Line.print t).text F).take 1023 :=
        fgetsLine_long hlong (text_nl h) []
      refine .inr ⟨t, rfl, Nat.le_of_not_lt hlen, fgetsAll 1024 buffer_pos 10 (t.drop 1014 ++ [10]), ?_, fgetsAll_flatten _ _ _⟩
      have hlen' : (((Line.print t).text F).take 1023).length = 1023 := List.length_take_of_le (by omega)
      rw [pieces, fgetsAll, dif_neg (by simp), hfirst, hlen', hdrop, htake]
  | printEnd => exact .inl ⟨hshort (by decide : (Bytes.ascii "ui_print").length + 1 < 1024), rfl⟩
  | progress frac sec =>
    refine .inl ⟨hshort ?_, rfl⟩
    have hfrac := F.short frac
    have hsec : (signed sec).length ≤ 11 := signed_length_le (by decide) (by
      obtain ⟨hlow, hhigh⟩ := h
      omega)
    have hascii : (Bytes.ascii "progress ").length = 9 := rfl
    rw [Line.text, List.length_append, List.length_append, List.length_cons, hascii]
    omega
  | setProgress frac =>
    refine .inl ⟨hshort ?_, rfl⟩
    have hfrac := F.short frac
    have hascii : (Bytes.ascii "set_progress ").length = 13 := rfl
    rw [Line.text, List.length_append, hascii]
    omega
  | wipeCache => exact .inl ⟨hshort (by decide : (Bytes.ascii "wipe_cache").length + 1 < 1024), rfl⟩

/-- The pieces of the lines, one after the other. -/
theorem pieces_lines {ls : List Line} (h : ∀ l ∈ ls, l.Good) :
    pieces (unlines 10 (ls.map (Line.text F))) = ls.flatMap fun l => pieces (l.text F ++ [10]) := by
  induction ls with
  | nil =>
    rw [List.map_nil, unlines, List.flatMap_nil, pieces, fgetsAll, dif_pos rfl]
    rfl
  | cons l ls ih =>
    have hcons : unlines 10 ((l :: ls).map (Line.text F)) = l.text F ++ 10 :: unlines 10 (ls.map (Line.text F)) := by
      simp [unlines]
    rw [hcons, pieces, fgetsAll_append _ (text_nl (h l List.mem_cons_self)), List.flatMap_cons]
    exact congrArg _ (ih fun l' hl' => h l' (List.mem_cons_of_mem _ hl'))

theorem readLoop_append (currstatus : Bool) (ps qs : List Bytes) :
    readLoop currstatus (ps ++ qs) =
      (readLoop currstatus ps).bind fun actions => (readLoop currstatus qs).map (actions ++ ·) := by
  induction ps with
  | nil =>
    rw [List.nil_append, readLoop, Option.bind_some]
    simp
  | cons p ps ih =>
    rw [List.cons_append, readLoop, readLoop, ih]
    cases readLine currstatus p with
    | none => rfl
    | some actions =>
      cases readLoop currstatus ps with
      | none => rfl
      | some rest => cases readLoop currstatus qs <;> simp

theorem marked_length (t : Bytes) : (marked t).length = t.length + 24 := by
  have hopen : (Bytes.ascii "<#selectbg_g><b>").length = 16 := rfl
  have hclose : (Bytes.ascii "</b></#>").length = 8 := rfl
  rw [marked, List.length_append, List.length_append, hopen, hclose]
  omega

theorem display_marked {t : Bytes} (h : t.length ≤ 230) : display (marked t) = .setText (marked t) := by
  rw [display, List.take_of_length_le (by rw [marked_length]; omega)]

theorem display_ne {t : Bytes} (h : 230 < t.length) (t' : Bytes) : display (marked t') ≠ .setText (marked t) := by
  intro heq
  have hlen := congrArg List.length (Action.setText.inj heq)
  have hle := List.length_take_le 254 (marked t')
  rw [hlen, marked_length] at hle
  omega

/-- A line that fits is done; of a longer text, the first action shows a part. -/
theorem readLoop_line (F : FloatText) (currstatus : Bool) {l : Line} (h : l.Good) :
    (l.Fits → readLoop currstatus (pieces (l.text F ++ [10])) = some [l.action F]) ∧
      (¬ l.Fits → ∀ actions, readLoop currstatus (pieces (l.text F ++ [10])) = some actions →
        ∃ action rest, actions = action :: rest ∧ action ≠ l.action F) := by
  rcases pieces_line h with ⟨hone, -⟩ | ⟨t, rfl, hlong, more, hpieces, -⟩
  · have hread : readLoop currstatus [l.text F ++ [10]] = some [l.shown F] := by
      rw [readLoop, readLine_text h]
      rfl
    rw [hone, hread]
    constructor
    · intro hfits
      cases l with
      | print t => rw [Line.shown, display_marked hfits, Line.action]
      | _ => rfl
    · intro hfits actions hactions
      obtain rfl := Option.some.inj hactions
      refine ⟨_, _, rfl, ?_⟩
      cases l with
      | print t => exact display_ne (Nat.lt_of_not_le hfits) t
      | _ => exact absurd trivial hfits
  · have hfirst : readLine currstatus (Bytes.ascii "ui_print " ++ t.take 1014) = some [display (marked (t.take 1014))] := by
      have hne : t.take 1014 ≠ [] := fun hnil => by
        have hlen := List.length_take_of_le hlong
        rw [hnil] at hlen
        cases hlen
      have hread : readLine currstatus (Bytes.ascii "ui_print " ++ t.take 1014 ++ []) = _ :=
        readLine_print hne (fun hm => h.2.1 (List.mem_of_mem_take hm)) (fun hm => h.2.2 (List.mem_of_mem_take hm)) (.inl rfl)
      rwa [List.append_nil] at hread
    constructor
    · intro hfits
      have hle : t.length ≤ 230 := hfits
      omega
    · intro _ actions hactions
      rw [hpieces, readLoop, hfirst] at hactions
      obtain ⟨first, hshown, hactions⟩ := Option.bind_eq_some_iff.mp hactions
      obtain ⟨rest, -, hactions⟩ := Option.bind_eq_some_iff.mp hactions
      obtain rfl := Option.some.inj hshown
      obtain rfl := Option.some.inj hactions
      exact ⟨_, _, rfl, display_ne (by omega) _⟩

/-- The loop does what the lines ask for, one after the other, exactly if every text fits. -/
theorem readPipe_lines {currstatus : Bool} {ls : List Line} (h : ∀ l ∈ ls, l.Good) :
    readPipe currstatus (unlines 10 (ls.map (Line.text F))) = some (ls.map (Line.action F)) ↔ ∀ l ∈ ls, l.Fits := by
  rw [readPipe, pieces_lines h]
  induction ls with
  | nil => simp [readLoop]
  | cons l ls ih =>
    obtain ⟨hfits, hcut⟩ := readLoop_line F currstatus (h l List.mem_cons_self)
    have ih := ih fun l' hl' => h l' (List.mem_cons_of_mem _ hl')
    rw [List.flatMap_cons, readLoop_append, List.map_cons, List.forall_mem_cons]
    by_cases hl : l.Fits
    · rw [hfits hl, Option.bind_some, ← ih]
      simp [hl]
    · refine iff_of_false (fun heq => ?_) fun hall => hl hall.1
      obtain ⟨actions, hactions, heq⟩ := Option.bind_eq_some_iff.mp heq
      obtain ⟨rest, -, heq⟩ := Option.map_eq_some_iff.mp heq
      obtain ⟨action, more, rfl, hne⟩ := hcut hl actions hactions
      exact hne (List.cons.inj heq).1

/-! ## Commands -/

/-- The commands that the loop finds. -/
def commandsRead (stream : Bytes) : List Bytes := (pieces stream).filterMap lineCommand

theorem lineCommand_eq_none {p : Bytes} (hnul : 0 ∉ p) : lineCommand p = none ↔ ∀ c ∈ p, blank c = true := by
  rw [lineCommand, cstr_eq_self hnul, List.head?_eq_none_iff]
  exact ⟨tokens_eq_nil, tokens_of_seps⟩

theorem lineCommand_word {word rest : Bytes} (hne : word ≠ []) (hword : ∀ c ∈ word, blank c = false ∧ c ≠ 0) {c : UInt8}
    (hc : blank c = true ∧ c ≠ 0) : lineCommand (word ++ c :: rest) = some word := by
  have hcstr : cstr (word ++ c :: rest) = word ++ c :: cstr rest := by
    rw [cstr, List.takeWhile_append_of_pos (by simpa using fun d hd => (hword d hd).2),
      List.takeWhile_cons_of_pos (by simpa using hc.2)]
    rfl
  have htokens : tokens blank (word ++ c :: cstr rest) = word :: tokens blank (c :: cstr rest) :=
    tokens_cons hne (fun d hd => (hword d hd).1) (by simpa using hc.1)
  show (tokens blank (cstr (word ++ c :: rest))).head? = _
  rw [hcstr, htokens]
  rfl

theorem lineCommand_text (F : FloatText) (l : Line) : lineCommand (l.text F ++ [10]) = some l.command := by
  have hword : ∀ word rest : Bytes, word ≠ [] → (∀ c ∈ word, blank c = false ∧ c ≠ 0) → ∀ c, blank c = true ∧ c ≠ 0 →
      lineCommand (word ++ c :: rest) = some word := fun word rest hne hword c hc => lineCommand_word hne hword hc
  cases l with
  | print t =>
    have h := hword (Bytes.ascii "ui_print") (t ++ [10]) (by decide +kernel) (by decide +kernel) 32 (by decide +kernel)
    simpa [Line.text, Line.command, Bytes.ascii] using h
  | printEnd => exact hword (Bytes.ascii "ui_print") [] (by decide +kernel) (by decide +kernel) 10 (by decide +kernel)
  | progress frac sec =>
    have h := hword (Bytes.ascii "progress") (F.text frac ++ 32 :: (signed sec ++ [10])) (by decide +kernel) (by decide +kernel) 32 (by decide +kernel)
    simpa [Line.text, Line.command, Bytes.ascii] using h
  | setProgress frac =>
    have h := hword (Bytes.ascii "set_progress") (F.text frac ++ [10]) (by decide +kernel) (by decide +kernel) 32 (by decide +kernel)
    simpa [Line.text, Line.command, Bytes.ascii] using h
  | wipeCache => exact hword (Bytes.ascii "wipe_cache") [] (by decide +kernel) (by decide +kernel) 10 (by decide +kernel)

/-- The commands in the pieces of a line: its own, and more if there is more than blanks beyond the first piece. -/
theorem commands_line (F : FloatText) {l : Line} (h : l.Good) :
    ∃ more, (pieces (l.text F ++ [10])).filterMap lineCommand = l.command :: more ∧ (more = [] ↔ ∀ c ∈ l.beyond, c = 32) := by
  rcases pieces_line h with ⟨hone, hbeyond⟩ | ⟨t, rfl, hlong, more, hpieces, hflat⟩
  · refine ⟨[], ?_, by simp [hbeyond]⟩
    rw [hone]
    simp [lineCommand_text]
  · have hfirst : lineCommand (Bytes.ascii "ui_print " ++ t.take 1014) = some (Bytes.ascii "ui_print") := by
      have hword : lineCommand (Bytes.ascii "ui_print" ++ 32 :: t.take 1014) = some (Bytes.ascii "ui_print") :=
        lineCommand_word (by decide +kernel) (by decide +kernel) (by decide +kernel)
      simpa [Bytes.ascii] using hword
    refine ⟨more.filterMap lineCommand, by rw [hpieces, List.filterMap_cons_some hfirst]; rfl, ?_⟩
    have hnul : ∀ p ∈ more, 0 ∉ p := by
      intro p hp h0
      have hmem : 0 ∈ more.flatten := List.mem_flatten.mpr ⟨p, hp, h0⟩
      rw [hflat] at hmem
      rcases List.mem_append.mp hmem with hmem | hmem
      · exact h.2.2 (List.mem_of_mem_drop hmem)
      · simp at hmem
    have hall : (∀ p ∈ more, ∀ c ∈ p, blank c = true) ↔ ∀ c ∈ more.flatten, blank c = true := by
      simp only [List.mem_flatten]
      exact ⟨fun h c ⟨p, hp, hc⟩ => h p hp c hc, fun h p hp c hc => h c ⟨p, hp, hc⟩⟩
    have hnone : more.filterMap lineCommand = [] ↔ ∀ p ∈ more, ∀ c ∈ p, blank c = true := by
      rw [List.filterMap_eq_nil_iff]
      exact forall₂_congr fun p hp => lineCommand_eq_none (hnul p hp)
    rw [hnone, hall, hflat]
    constructor
    · intro hblank c hc
      have hb := hblank c (List.mem_append_left _ hc)
      have h10 : c ≠ 10 := fun h10 => h.2.1 (List.mem_of_mem_drop (h10 ▸ hc))
      simpa [blank, h10] using hb
    · intro hspace c hc
      rcases List.mem_append.mp hc with hc | hc
      · rw [hspace c hc]
        rfl
      · rw [List.mem_singleton.mp hc]
        rfl

/-- No part of a text is taken for a command, exactly if there are blanks only where a text is longer than a piece. -/
theorem commandsRead_lines {ls : List Line} (h : ∀ l ∈ ls, l.Good) :
    commandsRead (unlines 10 (ls.map (Line.text F))) = ls.map Line.command ↔ ∀ l ∈ ls, ∀ c ∈ l.beyond, c = 32 := by
  have hlength : ∀ {ls : List Line}, (∀ l ∈ ls, l.Good) →
      ls.length ≤ ((ls.flatMap fun l => pieces (l.text F ++ [10])).filterMap lineCommand).length := by
    intro ls h
    induction ls with
    | nil => exact Nat.le_refl 0
    | cons l ls ih =>
      obtain ⟨more, hmore, -⟩ := commands_line F (h l List.mem_cons_self)
      have := ih fun l' hl' => h l' (List.mem_cons_of_mem _ hl')
      rw [List.flatMap_cons, List.filterMap_append, hmore, List.length_append, List.length_cons, List.length_cons]
      omega
  rw [commandsRead, pieces_lines h]
  induction ls with
  | nil => simp
  | cons l ls ih =>
    obtain ⟨more, hmore, hiff⟩ := commands_line F (h l List.mem_cons_self)
    have hgood : ∀ l' ∈ ls, l'.Good := fun l' hl' => h l' (List.mem_cons_of_mem l hl')
    have ih := ih hgood
    rw [List.flatMap_cons, List.filterMap_append, hmore, List.map_cons, List.cons_append, List.forall_mem_cons, ← hiff]
    constructor
    · intro heq
      have hrest := (List.cons.inj heq).2
      have hlen := congrArg List.length hrest
      have hle := hlength hgood
      rw [List.length_append, List.length_map] at hlen
      have hnil : more = [] := List.length_eq_zero_iff.mp (by omega)
      subst hnil
      exact ⟨rfl, ih.mp hrest⟩
    · rintro ⟨rfl, hrest⟩
      rw [ih.mpr hrest]
      rfl

/-! ## Missing arguments -/

/-- The arguments that the command of a piece needs are there: two words behind `progress`, one behind `set_progress`; and
behind `assert`, if it is heeded, a word, and unless that is skipped something else than `|` behind it. -/
def Supplied (currstatus : Bool) (buffer : Bytes) : Prop :=
  match tokens blank (cstr buffer) with
  | [] => True
  | command :: words =>
    (command = Bytes.ascii "progress" → 2 ≤ words.length) ∧ (command = Bytes.ascii "set_progress" → words ≠ []) ∧
      (command = Bytes.ascii "assert" → currstatus = true → ∃ info rest,
        ((strtok blank (cstr buffer)).bind fun r => strtok blank r.2) = some (info, rest) ∧
          (skipCheckDeviceInfo info = false → ∃ c ∈ rest, c ≠ 124))

theorem strtok_isSome (sep : UInt8 → Bool) (s : Bytes) : (strtok sep s).isSome = true ↔ ∃ c ∈ s, sep c = false := by
  rw [strtok]
  split
  · next h =>
    rw [List.dropWhile_eq_nil_iff] at h
    simp only [Option.isSome_none, Bool.false_eq_true, false_iff, not_exists, not_and, Bool.not_eq_false]
    exact h
  · next h =>
    rw [List.dropWhile_eq_nil_iff] at h
    simpa using h

theorem readLine_isSome {currstatus : Bool} {buffer : Bytes} :
    (readLine currstatus buffer).isSome = true ↔ Supplied currstatus buffer := by
  rw [readLine, Supplied, tokens_strtok]
  cases hcommand : strtok blank (cstr buffer) with
  | none => simp
  | some r =>
    obtain ⟨command, rest⟩ := r
    dsimp only
    rw [Option.bind_some, tokens_strtok]
    by_cases hassert : command = Bytes.ascii "assert"
    · have hprogress : Bytes.ascii "assert" ≠ Bytes.ascii "progress" := by decide
      have hset : Bytes.ascii "assert" ≠ Bytes.ascii "set_progress" := by decide
      subst hassert
      cases currstatus with
      | false => simp [hprogress, hset]
      | true =>
        simp only [↓reduceIte, hprogress, hset, false_implies, true_and, forall_const, readAssert]
        cases hinfo : strtok blank rest with
        | none => simp
        | some r =>
          obtain ⟨info, rest'⟩ := r
          simp only [Option.bind_eq_bind, Option.bind_some]
          cases hskip : skipCheckDeviceInfo info with
          | true => simp [hskip]
          | false =>
            have hsome : (strtok (· == 124) rest').isSome = true ↔ ∃ c ∈ rest', c ≠ 124 := by
              simpa using strtok_isSome (· == 124) rest'
            cases hsecond : strtok (· == 124) rest' with
            | none => simpa [hsecond, hskip] using hsome
            | some r => simpa [hsecond, hskip] using hsome
    by_cases hprogress : command = Bytes.ascii "progress"
    · have hset : Bytes.ascii "progress" ≠ Bytes.ascii "set_progress" := by decide
      subst hprogress
      simp only [hassert, hset, ↓reduceIte, false_implies, forall_const, and_true, readProgress]
      cases hfraction : strtok blank rest with
      | none => simp
      | some r =>
        obtain ⟨fraction_s, rest'⟩ := r
        dsimp only [Option.bind_eq_bind, Option.bind_some]
        rw [tokens_strtok]
        cases hseconds : strtok blank rest' with
        | none => simp
        | some r => simp
    by_cases hset : command = Bytes.ascii "set_progress"
    · subst hset
      simp only [hassert, hprogress, ↓reduceIte, false_implies, forall_const, and_true, true_and, readSetProgress]
      cases hfraction : strtok blank rest with
      | none => simp
      | some r => simp
    · simp only [hassert, hprogress, hset, ↓reduceIte, false_implies, and_true, iff_true]
      split_ifs <;> rfl

/-- The loop gets to the end exactly if no piece lacks an argument. -/
theorem readLoop_isSome (currstatus : Bool) (ps : List Bytes) :
    (readLoop currstatus ps).isSome = true ↔ ∀ p ∈ ps, Supplied currstatus p := by
  induction ps with
  | nil => simp [readLoop]
  | cons p ps ih =>
    rw [List.forall_mem_cons, ← readLine_isSome, ← ih, readLoop]
    cases readLine currstatus p with
    | none => simp
    | some actions => cases readLoop currstatus ps <;> simp

theorem wipeCache_mem_line {currstatus : Bool} {p : Bytes} {actions : List Action}
    (h : readLine currstatus p = some actions) :
    .wipeCache ∈ actions ↔ lineCommand p = some (Bytes.ascii "wipe_cache") := by
  have hcommand : lineCommand p = (strtok blank (cstr p)).map (·.1) := by
    show (tokens blank (cstr p)).head? = _
    rw [tokens_strtok]
    cases strtok blank (cstr p) <;> rfl
  rw [hcommand]
  rw [readLine] at h
  cases hread : strtok blank (cstr p) with
  | none =>
    rw [hread] at h
    obtain rfl := Option.some.inj h
    simp
  | some r =>
    obtain ⟨command, rest⟩ := r
    rw [hread] at h
    dsimp only at h
    rw [Option.map_some, Option.some.injEq]
    by_cases hwipe : command = Bytes.ascii "wipe_cache"
    · subst hwipe
      rw [if_neg (by decide), if_neg (by decide), if_neg (by decide), if_neg (by decide), if_pos rfl] at h
      obtain rfl := Option.some.inj h
      simp
    · refine iff_of_false (fun hmem => ?_) hwipe
      split at h
      · split at h
        · obtain ⟨⟨info, rest'⟩, -, h⟩ := Option.bind_eq_some_iff.mp h
          dsimp only at h
          split at h
          · obtain rfl := Option.some.inj h
            simp [ignored, display] at hmem
          · obtain ⟨r, -, h⟩ := Option.bind_eq_some_iff.mp h
            obtain rfl := Option.some.inj h
            split at hmem <;> simp [ignored, display] at hmem
        · obtain rfl := Option.some.inj h
          cases hmem
      split at h
      · obtain ⟨r, -, h⟩ := Option.bind_eq_some_iff.mp h
        obtain ⟨r, -, h⟩ := Option.bind_eq_some_iff.mp h
        obtain rfl := Option.some.inj h
        simp at hmem
      split at h
      · obtain ⟨r, -, h⟩ := Option.bind_eq_some_iff.mp h
        obtain rfl := Option.some.inj h
        simp at hmem
      split at h
      · obtain rfl := Option.some.inj h
        rw [readPrint] at hmem
        split at hmem <;> simp [display] at hmem
      split at h <;> obtain rfl := Option.some.inj h <;> simp at hmem

/-- Whether the cache is wiped is what the loop does. -/
theorem wipeCacheAsked_iff {currstatus : Bool} {stream : Bytes} {actions : List Action}
    (h : readPipe currstatus stream = some actions) : wipeCacheAsked stream = true ↔ .wipeCache ∈ actions := by
  have hloop : ∀ ps actions, readLoop currstatus ps = some actions →
      (ps.any (lineCommand · == some (Bytes.ascii "wipe_cache")) = true ↔ .wipeCache ∈ actions) := by
    intro ps
    induction ps with
    | nil =>
      intro actions h
      obtain rfl := Option.some.inj h
      simp
    | cons p ps ih =>
      intro actions h
      obtain ⟨first, hfirst, h⟩ := Option.bind_eq_some_iff.mp h
      obtain ⟨rest, hrest, h⟩ := Option.bind_eq_some_iff.mp h
      obtain rfl := Option.some.inj h
      rw [List.any_cons, Bool.or_eq_true, ih rest hrest, beq_iff_eq, ← wipeCache_mem_line hfirst, List.mem_append]
  exact hloop _ _ h

/-! ## What is claimed -/

/-- What a script asks for is done, one action after the other. -/
def Performs (F : FloatText) (currstatus : Bool) (calls : List PipeCall) : Prop :=
  readPipe currstatus (writes F calls) = some ((calls.flatMap PipeCall.lines).map (Line.action F))

/-- Every command that is read was written as one. -/
def Contained (F : FloatText) (calls : List PipeCall) : Prop :=
  commandsRead (writes F calls) = (calls.flatMap PipeCall.lines).map Line.command

/-- The lines of text of a call. -/
def PipeCall.texts : PipeCall → List Bytes
  | uiPrint args => tokens (· == 10) (args.map Subtype.val).flatten
  | _ => []

theorem forall_lines {p : Line → Prop} (hp : ∀ l, (∀ t, l ≠ .print t) → p l) (calls : List PipeCall) :
    (∀ l ∈ calls.flatMap PipeCall.lines, p l) ↔ ∀ t ∈ calls.flatMap PipeCall.texts, p (.print t) := by
  have hcall : ∀ c : PipeCall, (∀ l ∈ c.lines, p l) ↔ ∀ t ∈ c.texts, p (.print t) := by
    intro c
    cases c with
    | uiPrint args =>
      rw [PipeCall.lines, List.forall_mem_append, List.forall_mem_map, List.forall_mem_singleton]
      exact and_iff_left (hp _ fun _ => nofun)
    | showProgress frac sec => exact iff_of_true (List.forall_mem_singleton.mpr (hp _ fun _ => nofun)) nofun
    | setProgress frac => exact iff_of_true (List.forall_mem_singleton.mpr (hp _ fun _ => nofun)) nofun
    | wipeCache => exact iff_of_true (List.forall_mem_singleton.mpr (hp _ fun _ => nofun)) nofun
  induction calls with
  | nil => exact iff_of_true nofun nofun
  | cons c calls ih =>
    rw [List.flatMap_cons, List.flatMap_cons, List.forall_mem_append, List.forall_mem_append]
    exact and_congr (hcall c) ih

/-- A script is performed exactly if its lines of text are of at most 230 bytes; their parts are not taken for commands
exactly if there are blanks only behind 1014 bytes of a line; and a stream is read to its end exactly if no command in it
lacks an argument. -/
theorem pipe_iff (F : FloatText) (currstatus : Bool) (calls : List PipeCall) (stream : Bytes) :
    (Performs F currstatus calls ↔ ∀ t ∈ calls.flatMap PipeCall.texts, t.length ≤ 230) ∧
      (Contained F calls ↔ ∀ t ∈ calls.flatMap PipeCall.texts, ∀ c ∈ t.drop 1014, c = 32) ∧
      (readPipe currstatus stream ≠ none ↔ ∀ p ∈ pieces stream, Supplied currstatus p) := by
  have hgood : ∀ l ∈ calls.flatMap PipeCall.lines, l.Good := by
    intro l hl
    obtain ⟨c, -, hl⟩ := List.mem_flatMap.mp hl
    exact lines_good c l hl
  have hfits : ∀ l : Line, (∀ t, l ≠ .print t) → l.Fits := by
    intro l hl
    cases l with
    | print t => exact absurd rfl (hl t)
    | _ => trivial
  have hbeyond : ∀ l : Line, (∀ t, l ≠ .print t) → ∀ c ∈ l.beyond, c = 32 := by
    intro l hl
    cases l with
    | print t => exact absurd rfl (hl t)
    | _ => exact nofun
  refine ⟨?_, ?_, ?_⟩
  · rw [Performs, writes_eq, readPipe_lines hgood]
    exact forall_lines hfits calls
  · rw [Contained, writes_eq, commandsRead_lines hgood]
    exact forall_lines hbeyond calls
  · rw [← Option.isSome_iff_ne_none]
    exact readLoop_isSome currstatus (pieces stream)

/-- Numbers that are printed as zero. -/
def zeroText : FloatText := ⟨fun _ => Bytes.ascii "0.000000", fun _ => by decide +kernel, fun _ => by decide +kernel, fun _ => by decide +kernel⟩

/-- A text of 1014 bytes with a command behind it. -/
def longText : CStr where
  val := List.replicate 1014 120 ++ Bytes.ascii "wipe_cache"
  property h := by
    rcases List.mem_append.mp h with h | h
    · exact absurd (List.eq_of_mem_replicate h) (by decide)
    · exact absurd h (by decide)

/-- The text wipes the cache; and the stream `progress` is not read to its end. -/
theorem longText_wipes : ¬ Performs zeroText true [.uiPrint [longText]] ∧ ¬ Contained zeroText [.uiPrint [longText]] ∧
    readPipe true (Bytes.ascii "progress\n") = none := by
  have hread : readPipe true (writes zeroText [.uiPrint [longText]]) =
      some [display (marked (longText.1.take 1014)), .wipeCache, .setText (marked [10])] := by
    decide +kernel
  refine ⟨fun h => ?_, fun h => ?_, by decide +kernel⟩
  · rw [Performs, hread] at h
    exact absurd (congrArg (·.map List.length) h) (by decide +kernel)
  · exact absurd (congrArg List.length h) (by decide +kernel)

end Updater
end Miui
