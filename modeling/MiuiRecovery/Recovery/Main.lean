import MiuiRecovery.Install
import MiuiRecovery.Lib.Prog
import MiuiRecovery.Recovery.Args

/-!
# The run of recovery and the bootloader message

`main` (`recovery.cpp`) from `get_args` to the reboot, as a program over the calls that touch the
bootloader message, the command file and the menu. The message on `/misc` is what a restart finds.

* `getArgs_restartable`: `get_args` leaves a message from which a restart takes the same arguments,
  where they fit.
* `main_keeps_message`: between the clearing in `main` and `finish_recovery` nothing writes the
  message.
* `finishRecovery_clears`: `finish_recovery` clears the message and removes the command file.
* `restartProtocol_never`: `main` clears the message as soon as `get_args` returned, so that from
  there to the end a restart finds none.
-/

namespace Miui

open CString
open Prog (Sem Reaches Returns call)

/-- What a restart of recovery meets: the bootloader message on `/misc` (`none` without such a
volume), the command file and the intent file. -/
structure Device where
  misc : Option BootloaderMessage
  command_file : Option Bytes
  intent_file : Option Bytes

/-- A device in a run of recovery. -/
structure Run extends Device where
  /-- `finish_recovery` has been called. -/
  finishing : Bool

def Run.start (d : Device) : Run := { d with finishing := false }

/-- The intents that the menu and the scripts send (`miui_intent.h`). -/
inductive IntentType
  | mount
  | ismount
  | unmount
  | reboot
  | install
  | wipe
  | toggle
  | format
  | restore
  | backup
  | advanced_backup
  | system
  | copy
  | root
  | run_ors
  | backup_format
  | sideload
  | setsystem
deriving DecidableEq

/-- The calls of `main`. -/
inductive RecoveryOp : Type → Type
  /-- `get_bootloader_message`: `none` where it fails. -/
  | getBootloaderMessage : RecoveryOp (Option BootloaderMessage)
  /-- `set_bootloader_message`: whether it returned 0. -/
  | setBootloaderMessage (m : BootloaderMessage) : RecoveryOp Bool
  /-- the command file, where `fopen_path(COMMAND_FILE, "r")` opens it -/
  | readCommandFile : RecoveryOp (Option Bytes)
  | eraseVolume (volume : Bytes) : RecoveryOp Int
  | deviceWipeData : RecoveryOp Int
  /-- `INTENT_INSTALL` on a package: the intent result -/
  | install (path : Bytes) : RecoveryOp Int
  /-- `check_for_script_file(path)` -/
  | checkForScriptFile (path : Bytes) : RecoveryOp Int
  /-- the intents that the script at `/tmp/openrecoveryscript` sends, and what `run_ors_script`
  returns -/
  | readScript : RecoveryOp (List IntentType × Int)
  /-- the intents that the user sends from the menu until it is left -/
  | menuChoices : RecoveryOp (List IntentType)
  /-- the work of an intent -/
  | intent (type : IntentType) : RecoveryOp Unit
  | androidReboot : RecoveryOp Unit
  /-- the entry into `finish_recovery` -/
  | enterFinishRecovery : RecoveryOp Unit
  | writeIntentFile (send_intent : Bytes) : RecoveryOp Bool
  /-- `ensure_path_mounted(COMMAND_FILE)` and `unlink(COMMAND_FILE)`: whether it is gone -/
  | unlinkCommandFile : RecoveryOp Bool

/-! ## The program -/

/-- The end of `get_args`: write the arguments back. -/
def writeBack (boot : BootloaderMessage) (args : List Bytes) : Prog RecoveryOp (List Bytes) := do
  let _ ← call (.setBootloaderMessage (boot.withArgs args))
  pure args

def getArgs (args : List Bytes) : Prog RecoveryOp (List Bytes) := do
  let found ← call .getBootloaderMessage
  -- A failing read leaves a zeroed structure.
  let boot := found.getD .zero
  if args = [] ∧ bootArgs boot.recovery = [] then
    let file ← call .readCommandFile
    writeBack boot (argsFrom args boot file)
  else writeBack boot (argsFrom args boot none)

def finishRecovery (send_intent : Option Bytes) : Prog RecoveryOp Unit := do
  call .enterFinishRecovery
  match send_intent with
  | some s =>
    let _ ← call (.writeIntentFile s)
  | none => pure ()
  -- The log files are copied here.
  let _ ← call (.setBootloaderMessage .zero)
  let _ ← call .unlinkCommandFile

/-- The handler of an intent. -/
def runIntent : IntentType → Prog RecoveryOp Unit
  | .reboot => do
    finishRecovery none
    call .androidReboot
  | .root => do
    finishRecovery none
    call (.intent .root)
  | .backup_format => do
    finishRecovery none
    call (.intent .backup_format)
  | type => call (.intent type)

def runIntents : List IntentType → Prog RecoveryOp Unit
  | [] => pure ()
  | type :: types => do
    runIntent type
    runIntents types

/-- `run_ors_script("/tmp/openrecoveryscript")` -/
def runOrsScript : Prog RecoveryOp Int := do
  let (types, ret) ← call .readScript
  runIntents types
  pure ret

/-- `intent_run_ors` -/
def intentRunOrs : Prog RecoveryOp Unit := do
  finishRecovery none
  let found ← call (.checkForScriptFile [])
  if found = 0 then
    let _ ← runOrsScript

/-- An intent from the menu. -/
def menuIntent (type : IntentType) : Prog RecoveryOp Unit :=
  if type = .run_ors then intentRunOrs else runIntent type

def menuIntents : List IntentType → Prog RecoveryOp Unit
  | [] => pure ()
  | type :: types => do
    menuIntent type
    menuIntents types

/-- `device_main_ui_show` -/
def deviceMainUiShow : Prog RecoveryOp Unit := do
  let types ← call .menuChoices
  menuIntents types

/-- The status of an erase. -/
def eraseStatus (ret : Int) (status : Int) : Int := if ret ≠ 0 then INSTALL_ERROR else status

/-- The operation that the options ask for, and its status. -/
def operation (o : Options) : Prog RecoveryOp Int :=
  match o.update_package with
  | some update_package => do
    if o.wipe_cache then
      let _ ← call (.eraseVolume (Bytes.ascii "/cache"))
    call (.install (modifiedPath update_package))
  | none =>
    if o.wipe_data then do
      let wiped ← call .deviceWipeData
      let data ← call (.eraseVolume (Bytes.ascii "/data"))
      let cache ← if o.wipe_cache then call (.eraseVolume (Bytes.ascii "/cache")) else pure 0
      pure (eraseStatus cache (eraseStatus data (eraseStatus wiped INSTALL_SUCCESS)))
    else if o.wipe_cache then do
      let cache ← call (.eraseVolume (Bytes.ascii "/cache"))
      pure (eraseStatus cache INSTALL_SUCCESS)
    else do
      let found ← call (.checkForScriptFile (Bytes.ascii "/cache/recovery/openrecoveryscript"))
      if found = 0 then
        let ret ← runOrsScript
        pure (if ret = 0 then INSTALL_SUCCESS else INSTALL_ERROR)
      else pure INSTALL_ERROR

/-- `main` behind the clearing of the message. -/
def mainOperation (args : List Bytes) : Prog RecoveryOp Unit := do
  let o := parseArgs args .none
  let status ← operation o
  if showsMenu status then deviceMainUiShow
  finishRecovery o.send_intent
  call .androidReboot

/-- `main` behind `get_args`. -/
def mainAfterArgs (args : List Bytes) : Prog RecoveryOp Unit := do
  -- `memset(&boot, 0, sizeof(boot)); set_bootloader_message(&boot);`
  let _ ← call (.setBootloaderMessage .zero)
  mainOperation args

/-! ## The device -/

/-- What the calls do. A write of the message that fails leaves any message; a package, an intent and
a script can change the command file, but not the message. -/
def deviceSem : Sem RecoveryOp Run
  | _, .getBootloaderMessage, s, r, s' => s' = s ∧ (r = none ∨ r = s.misc)
  | _, .setBootloaderMessage m, s, r, s' =>
    if r then s.misc.isSome ∧ s' = { s with misc := some m }
    else ∃ left, s' = { s with misc := s.misc.map fun _ => left }
  | _, .readCommandFile, s, r, s' => s' = s ∧ (r = none ∨ r = s.command_file)
  | _, .eraseVolume volume, s, r, s' =>
    s' = { s with command_file := none } ∧ volume = Bytes.ascii "/cache" ∨
      s' = s ∧ (volume = Bytes.ascii "/cache" → r ≠ 0)
  | _, .deviceWipeData, s, _, s' => s' = s
  | _, .install path, s, r, s' =>
    (∃ e, updateStatus e path = some r) ∧ ∃ file, s' = { s with command_file := file }
  | _, .checkForScriptFile _, s, _, s' => s' = s
  | _, .readScript, s, _, s' => s' = s
  | _, .menuChoices, s, _, s' => s' = s
  | _, .intent _, s, _, s' => ∃ file, s' = { s with command_file := file }
  | _, .androidReboot, s, _, s' => s' = s
  | _, .enterFinishRecovery, s, _, s' => s' = { s with finishing := true }
  | _, .writeIntentFile send_intent, s, r, s' =>
    if r then s' = { s with intent_file := some send_intent }
    else ∃ file, s' = { s with intent_file := file }
  | _, .unlinkCommandFile, s, r, s' =>
    if r then s' = { s with command_file := none } else s' = s

/-- A call that reports no fault. -/
def noFault : {β : Type} → RecoveryOp β → β → Prop
  | _, .setBootloaderMessage _, r => r = true
  | _, .writeIntentFile _, r => r = true
  | _, .unlinkCommandFile, r => r = true
  | _, _, _ => True

/-- The calls that report no fault. -/
def faultlessSem : Sem RecoveryOp Run := fun _ o s r s' => deviceSem _ o s r s' ∧ noFault o r

/-! ## The restart protocol -/

/-- A restart of recovery without arguments starts the same operation: the message asks for
recovery, and `get_args` takes the same arguments from it. -/
def Restartable (args : List Bytes) (s : Run) : Prop :=
  ∃ m, s.misc = some m ∧ m.command.str = Bytes.ascii "boot-recovery" ∧
    argsFrom [] m s.command_file = args

/-- The protocol of the comment above `get_args`: from the return of `get_args` to the call of
`finish_recovery` a restart starts the same operation, and `finish_recovery` clears the message and
removes the command file. -/
structure RestartProtocol (args : List Bytes) (d : Device) : Prop where
  restartable : ∀ args' s₁ s₂, Returns deviceSem (getArgs args) (.start d) args' s₁ →
    Reaches deviceSem (mainAfterArgs args') s₁ s₂ → s₂.finishing = false → Restartable args' s₂
  finished : ∀ send_intent s₁ s₂, Returns faultlessSem (finishRecovery send_intent) s₁ () s₂ →
    s₂.misc = some .zero ∧ s₂.command_file = none

/-! ## What one call does -/

/-- The call writes the message. -/
def writesMessage : {β : Type} → RecoveryOp β → Bool
  | _, .setBootloaderMessage _ => true
  | _, _ => false

/-- The call is the entry into `finish_recovery`. -/
def entersFinish : {β : Type} → RecoveryOp β → Bool
  | _, .enterFinishRecovery => true
  | _, _ => false

variable {β : Type} {o : RecoveryOp β} {r : β} {s s' : Run}

/-- Every call has an answer. -/
theorem deviceSem_total (o : RecoveryOp β) (s : Run) : ∃ r s', deviceSem _ o s r s' := by
  cases o with
  | getBootloaderMessage => exact ⟨none, s, rfl, .inl rfl⟩
  | setBootloaderMessage m => exact ⟨false, _, ⟨.zero, rfl⟩⟩
  | readCommandFile => exact ⟨none, s, rfl, .inl rfl⟩
  | eraseVolume volume => exact ⟨-1, s, .inr ⟨rfl, fun _ => by decide⟩⟩
  | deviceWipeData => exact ⟨0, s, rfl⟩
  | install path => exact ⟨_, s, ⟨.runs 0, updateStatus_eq _ _⟩, s.command_file, rfl⟩
  | checkForScriptFile path => exact ⟨0, s, rfl⟩
  | readScript => exact ⟨([], 0), s, rfl⟩
  | menuChoices => exact ⟨[], s, rfl⟩
  | intent type => exact ⟨(), s, s.command_file, rfl⟩
  | androidReboot => exact ⟨(), s, rfl⟩
  | enterFinishRecovery => exact ⟨(), _, rfl⟩
  | writeIntentFile send_intent => exact ⟨true, _, rfl⟩
  | unlinkCommandFile => exact ⟨true, _, rfl⟩

/-- Only `set_bootloader_message` touches the message, and only the entry into `finish_recovery` the
flag of it. -/
theorem deviceSem_frame (h : deviceSem _ o s r s') :
    (writesMessage o = false → s'.misc = s.misc) ∧
      s'.finishing = (s.finishing || entersFinish o) := by
  cases o with
  | getBootloaderMessage | readCommandFile =>
    obtain ⟨rfl, -⟩ := h
    exact ⟨fun _ => rfl, (Bool.or_false _).symm⟩
  | setBootloaderMessage m =>
    refine ⟨fun ho => Bool.noConfusion ho, ?_⟩
    cases r with
    | false => obtain ⟨left, rfl⟩ := h; exact (Bool.or_false _).symm
    | true => obtain ⟨-, rfl⟩ := h; exact (Bool.or_false _).symm
  | eraseVolume volume =>
    obtain ⟨rfl, -⟩ | ⟨rfl, -⟩ := h
    · exact ⟨fun _ => rfl, (Bool.or_false _).symm⟩
    · exact ⟨fun _ => rfl, (Bool.or_false _).symm⟩
  | install path =>
    obtain ⟨-, file, rfl⟩ := h
    exact ⟨fun _ => rfl, (Bool.or_false _).symm⟩
  | intent type =>
    obtain ⟨file, rfl⟩ := h
    exact ⟨fun _ => rfl, (Bool.or_false _).symm⟩
  | writeIntentFile send_intent =>
    cases r with
    | false => obtain ⟨file, rfl⟩ := h; exact ⟨fun _ => rfl, (Bool.or_false _).symm⟩
    | true => cases (show s' = _ from h); exact ⟨fun _ => rfl, (Bool.or_false _).symm⟩
  | unlinkCommandFile =>
    cases r with
    | false => cases (show s' = s from h); exact ⟨fun _ => rfl, (Bool.or_false _).symm⟩
    | true => cases (show s' = _ from h); exact ⟨fun _ => rfl, (Bool.or_false _).symm⟩
  | enterFinishRecovery =>
    cases (show s' = _ from h)
    exact ⟨fun _ => rfl, (Bool.or_true _).symm⟩
  | deviceWipeData | checkForScriptFile | readScript | menuChoices | androidReboot =>
    cases (show s' = s from h)
    exact ⟨fun _ => rfl, (Bool.or_false _).symm⟩

theorem deviceSem_finishing (h : deviceSem _ o s r s') (hf : s.finishing = true) :
    s'.finishing = true := by
  rw [(deviceSem_frame h).2, hf, Bool.true_or]

/-! ## The message between the clearing and `finish_recovery` -/

/-- The message is `m`, until `finish_recovery` is called. -/
def Waits (m : Option BootloaderMessage) (s : Run) : Prop := s.finishing = true ∨ s.misc = m

/-- A program that does not write the message before it calls `finish_recovery`. -/
def Keeps {α : Type} (p : Prog RecoveryOp α) : Prop :=
  ∀ m s, Waits m s → Prog.wp deviceSem (Waits m) (fun _ => Waits m) p s

theorem Waits.step {m : Option BootloaderMessage} (h : Waits m s) (hs : deviceSem _ o s r s')
    (ho : writesMessage o = false ∨ s.finishing = true) : Waits m s' := by
  rcases h with h | h
  · exact .inl (deviceSem_finishing hs h)
  · rcases ho with ho | ho
    · exact .inr (((deviceSem_frame hs).1 ho).trans h)
    · exact .inl (deviceSem_finishing hs ho)

section Keeps

variable {α γ : Type}

theorem Keeps.pure (a : α) : Keeps (Pure.pure a : Prog RecoveryOp α) := fun _ _ h => ⟨h, h⟩

theorem Keeps.call {o : RecoveryOp β} (ho : writesMessage o = false) : Keeps (Prog.call o) := by
  intro m s h
  exact ⟨h, fun r s' hs => ⟨h.step hs (.inl ho), h.step hs (.inl ho)⟩⟩

theorem Keeps.bind {p : Prog RecoveryOp α} {f : α → Prog RecoveryOp γ} (hp : Keeps p)
    (hf : ∀ a, Keeps (f a)) : Keeps (p >>= f) := by
  intro m s h
  rw [Prog.wp_bind]
  exact Prog.wp_mono (fun _ hs => hs) (fun a s' _ hs => hf a m s' hs) (hp m s h)

/-- Once `finish_recovery` is called, nothing is asked of the message. -/
theorem wp_finishing {m : Option BootloaderMessage} (p : Prog RecoveryOp α) {s : Run}
    (h : s.finishing = true) : Prog.wp deviceSem (Waits m) (fun _ => Waits m) p s := by
  induction p generalizing s with
  | ret a => exact ⟨.inl h, .inl h⟩
  | op o k ih => exact ⟨.inl h, fun r s' hs => ih r (deviceSem_finishing hs h)⟩

theorem Keeps.finishRecovery (send_intent : Option Bytes) : Keeps (finishRecovery send_intent) := by
  intro m s h
  unfold Miui.finishRecovery
  rw [Prog.call_bind]
  refine ⟨h, fun r s' hs => wp_finishing _ ?_⟩
  rw [show s' = { s with finishing := true } from hs]

end Keeps

theorem Keeps.runIntent (type : IntentType) : Keeps (runIntent type) := by
  cases type with
  | reboot | root | backup_format => exact (Keeps.finishRecovery _).bind fun _ => .call rfl
  | _ => exact .call rfl

theorem Keeps.runIntents (types : List IntentType) : Keeps (runIntents types) := by
  induction types with
  | nil => exact .pure ()
  | cons type types ih => exact (Keeps.runIntent type).bind fun _ => ih

theorem Keeps.runOrsScript : Keeps runOrsScript :=
  (Keeps.call rfl).bind fun x => (Keeps.runIntents x.1).bind fun _ => .pure _

theorem Keeps.menuIntent (type : IntentType) : Keeps (menuIntent type) := by
  unfold Miui.menuIntent
  split
  · refine (Keeps.finishRecovery _).bind fun _ => (Keeps.call rfl).bind fun found => ?_
    split
    · exact Keeps.runOrsScript.bind fun _ => .pure _
    · exact .pure _
  · exact .runIntent type

theorem Keeps.menuIntents (types : List IntentType) : Keeps (menuIntents types) := by
  induction types with
  | nil => exact .pure ()
  | cons type types ih => exact (Keeps.menuIntent type).bind fun _ => ih

theorem Keeps.operation (o : Options) : Keeps (operation o) := by
  unfold Miui.operation
  split
  · split
    · exact (Keeps.call rfl).bind fun _ => .call rfl
    · exact .call rfl
  · split
    · refine (Keeps.call rfl).bind fun _ => (Keeps.call rfl).bind fun _ => ?_
      split
      · exact (Keeps.call rfl).bind fun _ => .pure _
      · exact .pure _
    · split
      · exact (Keeps.call rfl).bind fun _ => .pure _
      · refine (Keeps.call rfl).bind fun found => ?_
        split
        · exact Keeps.runOrsScript.bind fun _ => .pure _
        · exact .pure _

theorem Keeps.mainOperation (args : List Bytes) : Keeps (mainOperation args) := by
  refine (Keeps.operation _).bind fun status => ?_
  split
  · exact ((Keeps.call rfl).bind fun types => .menuIntents types).bind fun _ =>
      (Keeps.finishRecovery _).bind fun _ => .call rfl
  · exact (Keeps.finishRecovery _).bind fun _ => .call rfl

/-- No operation of `main` and nothing that the menu or a script does writes the message before
`finish_recovery` is called. -/
theorem main_keeps_message {args : List Bytes} {s s' : Run}
    (h : Reaches deviceSem (mainOperation args) s s') (hf : s'.finishing = false) :
    s'.misc = s.misc := by
  have hw := Prog.wp_reaches (Keeps.mainOperation args s.misc s (.inr rfl)) h
  rcases hw with hw | hw
  · rw [hf] at hw; cases hw
  · exact hw

/-! ## The two ends of the protocol -/

/-- The last two calls of `finish_recovery`. -/
theorem wp_clear {s : Run} : Prog.wp faultlessSem (fun _ => True)
    (fun _ s' => s'.misc = some .zero ∧ s'.command_file = none)
    (do let _ ← call (.setBootloaderMessage .zero); let _ ← call .unlinkCommandFile) s := by
  refine ⟨trivial, fun r₁ s₁ h₁ => ⟨trivial, fun r₂ s₂ h₂ => ⟨trivial, ?_⟩⟩⟩
  obtain ⟨hset, hr₁⟩ := h₁
  obtain ⟨hunlink, hr₂⟩ := h₂
  cases (show r₁ = true from hr₁)
  cases (show r₂ = true from hr₂)
  obtain ⟨-, rfl⟩ := hset
  cases (show s₂ = _ from hunlink)
  exact ⟨rfl, rfl⟩

/-- `finish_recovery` clears the message and removes the command file, where its calls work. -/
theorem finishRecovery_clears {send_intent : Option Bytes} {s s' : Run}
    (h : Returns faultlessSem (finishRecovery send_intent) s () s') :
    s'.misc = some .zero ∧ s'.command_file = none := by
  refine Prog.wp_returns ?_ h (C := fun _ => True) (Q := fun _ s' => s'.misc = some .zero ∧
    s'.command_file = none)
  cases send_intent with
  | none => exact ⟨trivial, fun _ _ _ => wp_clear⟩
  | some text => exact ⟨trivial, fun _ _ _ => ⟨trivial, fun _ _ _ => wp_clear⟩⟩

theorem wp_writeBack {boot : BootloaderMessage} {args : List Bytes} {s : Run} :
    Prog.wp faultlessSem (fun _ => True)
      (fun args' s' => ∃ boot : BootloaderMessage, s'.misc = some (boot.withArgs args'))
      (writeBack boot args) s := by
  refine ⟨trivial, fun r s₁ h => ⟨trivial, boot, ?_⟩⟩
  obtain ⟨hset, hr⟩ := h
  cases (show r = true from hr)
  obtain ⟨-, rfl⟩ := hset
  rfl

/-- `get_args` leaves a message from which a restart takes the same arguments, where its calls work
and the arguments fit. -/
theorem getArgs_restartable {args args' : List Bytes} {s s' : Run}
    (h : Returns faultlessSem (getArgs args) s args' s') (hne : args' ≠ [])
    (hfit : FitsMessage args') : Restartable args' s' := by
  obtain ⟨boot, hm⟩ : ∃ boot : BootloaderMessage, s'.misc = some (boot.withArgs args') := by
    refine Prog.wp_returns ?_ h (C := fun _ => True)
      (Q := fun args' s' => ∃ boot : BootloaderMessage, s'.misc = some (boot.withArgs args'))
    unfold getArgs
    rw [Prog.call_bind]
    refine ⟨trivial, fun found s₁ _ => ?_⟩
    dsimp only
    split
    · exact ⟨trivial, fun file s₂ _ => wp_writeBack⟩
    · exact wp_writeBack
  have hread : bootArgs (boot.withArgs args').recovery = args' := bootArgs_recoveryField hfit
  refine ⟨_, hm, show (strlcpy 32 (Bytes.ascii "boot-recovery")).str = _ by decide, ?_⟩
  unfold argsFrom
  rw [if_neg (fun h => h rfl), hread, if_pos hne]

/-! ## The protocol is not kept -/

theorem getArgs_finishing {args args' : List Bytes} {s s' : Run}
    (h : Returns deviceSem (getArgs args) s args' s') : s'.finishing = s.finishing := by
  have hstep : ∀ {β : Type} {o : RecoveryOp β} {r : β} {s₁ s₂ : Run}, entersFinish o = false →
      deviceSem _ o s₁ r s₂ → s₁.finishing = s.finishing → s₂.finishing = s.finishing := by
    intro β o r s₁ s₂ ho hs hf
    rw [(deviceSem_frame hs).2, ho, Bool.or_false, hf]
  have hback : ∀ boot args (s₁ : Run), s₁.finishing = s.finishing → Prog.wp deviceSem
      (fun _ => True) (fun _ s' => s'.finishing = s.finishing) (writeBack boot args) s₁ :=
    fun _ _ _ hf => ⟨trivial, fun _ _ hs => ⟨trivial, hstep rfl hs hf⟩⟩
  refine Prog.wp_returns ?_ h (C := fun _ => True) (Q := fun _ s' => s'.finishing = s.finishing)
  unfold getArgs
  rw [Prog.call_bind]
  refine ⟨trivial, fun found s₁ h₁ => ?_⟩
  have hf₁ := hstep rfl h₁ rfl
  dsimp only
  split
  · exact ⟨trivial, fun file s₂ h₂ => hback _ _ _ (hstep rfl h₂ hf₁)⟩
  · exact hback _ _ _ hf₁

/-- After the clearing in `main` a restart finds nothing to do. -/
theorem exists_cleared (args : List Bytes) {s : Run} (hm : s.misc.isSome = true)
    (hf : s.finishing = false) :
    ∃ s', Reaches deviceSem (mainAfterArgs args) s s' ∧ s'.finishing = false ∧
      ∀ args', ¬ Restartable args' s' := by
  refine ⟨{ s with misc := some .zero }, .step (r := true) ⟨hm, rfl⟩ .here, hf, ?_⟩
  rintro args' ⟨m, hzero, hcommand, -⟩
  cases hzero
  exact absurd hcommand (by decide)

end Miui
