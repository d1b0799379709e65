import MiuiRecovery.Lib.CString
import Mathlib.Logic.Function.Basic

/-!
# The log in /cache

`finish_recovery` appends to `/cache/recovery/log` what the temporary log holds behind
`tmplog_offset`. `erase_volume` sets the offset back when it erases `/cache`; `intent_format` and the
restore of nandroid, which format volumes without it, do not.

* `copyLines_eq_iff`: the line copy keeps its text exactly if no NUL byte is in it.
* `Tracked`: the log is the text that was there before, and the temporary log up to the offset.
* `step_tracked`: a step that meets its condition (`StepMeets`) keeps that.
* `copied_of_meets`: so every `finish_recovery` of such a run leaves the whole temporary log, once.
-/

namespace Miui.RecoveryLog

open CString

def COMMAND_FILE : String := "/cache/recovery/command"
def INTENT_FILE : String := "/cache/recovery/intent"
def LOG_FILE : String := "/cache/recovery/log"
def LAST_LOG_FILE : String := "/cache/recovery/last_log"
def LAST_INSTALL_FILE : String := "/cache/recovery/last_install"

/-- The two temporary files, which only grow, the files of `/cache`, and the static offset. -/
structure LogState where
  tmplog : Bytes
  install : Option Bytes
  cache : String → Option Bytes
  tmplog_offset : Nat

/-- What writing to `/cache` meets: whether the volume can be mounted, and how many bytes more each
file takes. -/
structure CacheAnswers where
  mounts : Bool
  room : String → Nat

def LogState.setCache (s : LogState) (path : String) (content : Option Bytes) : LogState :=
  { s with cache := Function.update s.cache path content }

/-- `while (fgets(buf, sizeof(buf), tmplog)) fputs(buf, log);` -/
def copyLines (text : Bytes) : Bytes := (fgetsAll 4096 (by decide) 10 text).flatMap cstr

/-- `copy_log_file`; `source` is the content of the source file, where it opens. -/
def copyLogFile (a : CacheAnswers) (source : Option Bytes) (destination : String) (append : Bool)
    (s : LogState) : LogState :=
  if a.mounts = false then s
  else
    let log := if append then (s.cache destination).getD [] else []
    match source with
    | none => s.setCache destination (some log)
    | some text =>
      let copied := (copyLines (if append then text.drop s.tmplog_offset else text)).take (a.room destination)
      let s := s.setCache destination (some (log ++ copied))
      -- `ftell` at the end of the file, or at an offset behind it
      if append then { s with tmplog_offset := max s.tmplog_offset text.length } else s

/-- `finish_recovery`, as far as it concerns the files of `/cache`. -/
def finishRecovery (a : CacheAnswers) (send_intent : Option Bytes) (s : LogState) : LogState :=
  let s := match send_intent with
    | none => s
    | some intent =>
      if a.mounts = false then s else s.setCache INTENT_FILE (some (intent.take (a.room INTENT_FILE)))
  let s := copyLogFile a (some s.tmplog) LOG_FILE true s
  let s := copyLogFile a (some s.tmplog) LAST_LOG_FILE false s
  let s := copyLogFile a s.install LAST_INSTALL_FILE false s
  if a.mounts = false then s else s.setCache COMMAND_FILE none

/-- `format_volume` and the like: whether the files of `/cache` are gone behind it. -/
def formatVolume (erased : Bool) (s : LogState) : LogState :=
  if erased then { s with cache := fun _ => none } else s

def eraseVolume (volume : String) (erased : Bool) (s : LogState) : LogState :=
  formatVolume erased (if volume = "/cache" then { s with tmplog_offset := 0 } else s)

/-- The format in `nandroid_restore_partition_extended`, and the files that the restore puts there. -/
def nandroidRestorePartition (erased : Bool) (restored : String → Option Bytes) (s : LogState) : LogState :=
  if erased then { formatVolume true s with cache := restored } else s

/-- What interleaves. The text that a function prints is an append of its own. -/
inductive LogOp
  | append (text : Bytes)
  | finishRecovery (a : CacheAnswers) (send_intent : Option Bytes)
  | eraseVolume (volume : String) (erased : Bool)
  | intentFormat (erased : Bool)
  | nandroidRestorePartition (erased : Bool) (restored : String → Option Bytes)

def step (s : LogState) : LogOp → LogState
  | .append text => { s with tmplog := s.tmplog ++ text }
  | .finishRecovery a send_intent => finishRecovery a send_intent s
  | .eraseVolume volume erased => eraseVolume volume erased s
  | .intentFormat erased => formatVolume erased s
  | .nandroidRestorePartition erased restored => nandroidRestorePartition erased restored s

/-! ## What the log is for -/

def LogState.log (s : LogState) : Bytes := (s.cache LOG_FILE).getD []

/-- The operation loses the files of `/cache`. -/
def LogOp.erases : LogOp → Bool
  | .eraseVolume _ erased => erased
  | .intentFormat erased => erased
  | .nandroidRestorePartition erased _ => erased
  | _ => false

/-- The log when recovery started, or behind the last erase of `/cache`: what is written since comes
behind it. -/
def baseAfter (s : LogState) (op : LogOp) (base : Bytes) : Bytes :=
  if op.erases then (step s op).log else base

/-- The whole temporary log has been written, each byte once, and one more call adds nothing. -/
def CopiedOnce (s : LogState) (base : Bytes) : Prop :=
  s.log = base ++ s.tmplog ∧ ∀ a send_intent, (finishRecovery a send_intent s).log = s.log

/-- The promise of every `finish_recovery` of a run that can mount `/cache`. -/
def Copied : List LogOp → LogState → Bytes → Prop
  | [], _, _ => True
  | op :: ops, s, base =>
    (∀ a send_intent, op = .finishRecovery a send_intent → a.mounts = true →
      CopiedOnce (step s op) (baseAfter s op base)) ∧
    Copied ops (step s op) (baseAfter s op base)

/-- The text is without NUL; a copy finds room; and while a part of the log is copied, `/cache` is
lost only by an `erase_volume("/cache")`, which in turn does erase it. -/
def StepMeets (s : LogState) : LogOp → Prop
  | .append text => (0 : UInt8) ∉ text
  | .finishRecovery a _ => a.mounts = true → s.tmplog.length - s.tmplog_offset ≤ a.room LOG_FILE
  | .eraseVolume volume erased => s.tmplog_offset = 0 ∨ (erased = true ↔ volume = "/cache")
  | .intentFormat erased => s.tmplog_offset = 0 ∨ erased = false
  | .nandroidRestorePartition erased _ => s.tmplog_offset = 0 ∨ erased = false

def RunMeets : List LogOp → LogState → Prop
  | [], _ => True
  | op :: ops, s => StepMeets s op ∧ RunMeets ops (step s op)

/-! ## The copy -/

theorem cstr_length_le (b : Bytes) : (cstr b).length ≤ b.length := (List.takeWhile_prefix _).length_le

theorem cstr_eq_self_iff {b : Bytes} : cstr b = b ↔ (0 : UInt8) ∉ b := by
  refine ⟨fun h => ?_, cstr_eq_self⟩
  rw [← h]
  exact not_mem_cstr b

/-- `fgets` and `fputs` keep a text exactly if no NUL byte is in it. -/
theorem copyLines_eq_iff (text : Bytes) : copyLines text = text ↔ (0 : UInt8) ∉ text := by
  have hpieces : ∀ pieces : List Bytes, pieces.flatMap cstr = pieces.flatten ↔ (0 : UInt8) ∉ pieces.flatten := by
    intro pieces
    induction pieces with
    | nil => simp
    | cons piece pieces ih =>
      rw [List.flatMap_cons, List.flatten_cons, List.mem_append, not_or, ← ih, ← cstr_eq_self_iff]
      refine ⟨fun h => ?_, fun ⟨h₁, h₂⟩ => by rw [h₁, h₂]⟩
      have hle : (pieces.flatMap cstr).length ≤ pieces.flatten.length := by
        clear ih h
        induction pieces with
        | nil => exact Nat.le_refl _
        | cons piece pieces ih =>
          rw [List.flatMap_cons, List.flatten_cons, List.length_append, List.length_append]
          exact Nat.add_le_add (cstr_length_le piece) ih
      have hlen := congrArg List.length h
      have hpiece := cstr_length_le piece
      rw [List.length_append, List.length_append] at hlen
      exact List.append_inj h (by omega)
  have hflat := fgetsAll_flatten (n := 4096) (by decide) 10 text
  unfold copyLines
  have := hpieces (fgetsAll 4096 (by decide) 10 text)
  rwa [hflat] at this

variable {s : LogState} {base : Bytes} {a : CacheAnswers} {send_intent : Option Bytes}

@[simp] theorem setCache_tmplog (path : String) (content : Option Bytes) :
    (s.setCache path content).tmplog = s.tmplog := rfl

@[simp] theorem setCache_tmplog_offset (path : String) (content : Option Bytes) :
    (s.setCache path content).tmplog_offset = s.tmplog_offset := rfl

theorem setCache_log {path : String} (content : Option Bytes) (h : LOG_FILE ≠ path) :
    (s.setCache path content).log = s.log := by
  unfold LogState.log LogState.setCache
  simp only [Function.update_of_ne h]

/-- What a call leaves alone when it copies over another file. -/
structure SameLog (s s' : LogState) : Prop where
  tmplog : s'.tmplog = s.tmplog
  log : s'.log = s.log
  offset : s'.tmplog_offset = s.tmplog_offset

theorem SameLog.refl (s : LogState) : SameLog s s := ⟨rfl, rfl, rfl⟩

theorem SameLog.trans {s s' s'' : LogState} (h : SameLog s s') (h' : SameLog s' s'') : SameLog s s'' :=
  ⟨h'.tmplog.trans h.tmplog, h'.log.trans h.log, h'.offset.trans h.offset⟩

theorem setCache_sameLog (s : LogState) {path : String} (content : Option Bytes) (h : LOG_FILE ≠ path) :
    SameLog s (s.setCache path content) := ⟨rfl, setCache_log content h, rfl⟩

theorem copyLogFile_sameLog (a : CacheAnswers) (source : Option Bytes) (s : LogState) {destination : String}
    (h : LOG_FILE ≠ destination) : SameLog s (copyLogFile a source destination false s) := by
  unfold copyLogFile
  split
  · exact .refl s
  · cases source <;> exact setCache_sameLog s _ h

/-- Only the appending copy of `finish_recovery` changes the log. -/
theorem finishRecovery_sameLog (a : CacheAnswers) (send_intent : Option Bytes) (s : LogState) :
    ∃ s', SameLog s s' ∧
      SameLog (copyLogFile a (some s'.tmplog) LOG_FILE true s') (finishRecovery a send_intent s) := by
  let s' : LogState := match send_intent with
    | none => s
    | some intent =>
      if a.mounts = false then s else s.setCache INTENT_FILE (some (intent.take (a.room INTENT_FILE)))
  have hintent : SameLog s s' := by
    unfold s'
    split
    · exact .refl s
    · split
      · exact .refl s
      · exact setCache_sameLog s _ (by decide)
  refine ⟨s', hintent, ?_⟩
  let s₁ := copyLogFile a (some s'.tmplog) LOG_FILE true s'
  let s₂ := copyLogFile a (some s₁.tmplog) LAST_LOG_FILE false s₁
  let s₃ := copyLogFile a s₂.install LAST_INSTALL_FILE false s₂
  have h₂ : SameLog s₁ s₂ := copyLogFile_sameLog a _ s₁ (by decide)
  have h₃ : SameLog s₂ s₃ := copyLogFile_sameLog a _ s₂ (by decide)
  show SameLog s₁ (if a.mounts = false then s₃ else s₃.setCache COMMAND_FILE none)
  refine (h₂.trans h₃).trans ?_
  split
  · exact .refl s₃
  · exact setCache_sameLog s₃ none (by decide)

/-- Where `/cache` cannot be mounted the log stays as it is. -/
theorem finishRecovery_unmounted (hmounts : a.mounts = false) :
    SameLog s (finishRecovery a send_intent s) := by
  obtain ⟨s', h, h'⟩ := finishRecovery_sameLog a send_intent s
  have hcopy : copyLogFile a (some s'.tmplog) LOG_FILE true s' = s' := if_pos hmounts
  rw [hcopy] at h'
  exact h.trans h'

/-- A text without NUL that finds room is copied behind the log. -/
theorem finishRecovery_mounted (hmounts : a.mounts = true) (hnul : (0 : UInt8) ∉ s.tmplog)
    (hroom : s.tmplog.length - s.tmplog_offset ≤ a.room LOG_FILE) :
    (finishRecovery a send_intent s).tmplog = s.tmplog ∧
      (finishRecovery a send_intent s).log = s.log ++ s.tmplog.drop s.tmplog_offset ∧
      (finishRecovery a send_intent s).tmplog_offset = max s.tmplog_offset s.tmplog.length := by
  obtain ⟨s', h, h'⟩ := finishRecovery_sameLog a send_intent s
  have hcopy : copyLines (s.tmplog.drop s.tmplog_offset) = s.tmplog.drop s.tmplog_offset :=
    (copyLines_eq_iff _).mpr fun h => hnul (List.mem_of_mem_drop h)
  have htake : (s.tmplog.drop s.tmplog_offset).take (a.room LOG_FILE) = s.tmplog.drop s.tmplog_offset :=
    List.take_of_length_le (by rw [List.length_drop]; exact hroom)
  have hlog : copyLogFile a (some s'.tmplog) LOG_FILE true s' =
      { s'.setCache LOG_FILE (some (s'.log ++ s.tmplog.drop s.tmplog_offset)) with
        tmplog_offset := max s.tmplog_offset s.tmplog.length } := by
    unfold copyLogFile
    simp only [hmounts, Bool.true_eq_false, if_false, if_true, setCache_tmplog_offset, h.tmplog, h.offset,
      hcopy, htake]
    rfl
  rw [hlog] at h'
  refine ⟨h'.tmplog.trans h.tmplog, h'.log.trans ?_, h'.offset⟩
  rw [← h.log]
  show ((Function.update s'.cache LOG_FILE _) LOG_FILE).getD [] = _
  rw [Function.update_self]
  rfl

/-! ## Runs -/

/-- The log is what was there before and the temporary log up to the offset. -/
structure Tracked (s : LogState) (base : Bytes) : Prop where
  offset_le : s.tmplog_offset ≤ s.tmplog.length
  log : s.log = base ++ s.tmplog.take s.tmplog_offset
  no_nul : (0 : UInt8) ∉ s.tmplog

/-- A log tracked up to the end has the whole text, and stays as it is. -/
theorem Tracked.copiedOnce (h : Tracked s base) (hend : s.tmplog_offset = s.tmplog.length) :
    CopiedOnce s base := by
  refine ⟨by rw [h.log, hend, List.take_length], fun a send_intent => ?_⟩
  cases hmounts : a.mounts with
  | false => exact (finishRecovery_unmounted hmounts).log
  | true =>
    obtain ⟨-, hlog, -⟩ := @finishRecovery_mounted _ _ send_intent hmounts h.no_nul (by omega)
    rw [hlog, hend, List.drop_length, List.append_nil]

/-- A loss of `/cache` with nothing copied, or with the offset set back. -/
theorem Tracked.restart {s s' : LogState} (h : Tracked s base) (htmp : s'.tmplog = s.tmplog)
    (hoffset : s'.tmplog_offset = 0) : Tracked s' s'.log where
  offset_le := by omega
  log := by rw [hoffset, List.take_zero, List.append_nil]
  no_nul := htmp ▸ h.no_nul

theorem finishRecovery_tracked (h : Tracked s base)
    (hroom : a.mounts = true → s.tmplog.length - s.tmplog_offset ≤ a.room LOG_FILE) :
    Tracked (finishRecovery a send_intent s) base ∧
      (a.mounts = true → CopiedOnce (finishRecovery a send_intent s) base) := by
  have hle := h.offset_le
  cases hmounts : a.mounts with
  | false =>
    have hsame := @finishRecovery_unmounted s _ send_intent hmounts
    refine ⟨⟨?_, ?_, ?_⟩, fun h => nomatch h⟩
    · rw [hsame.offset, hsame.tmplog]; exact hle
    · rw [hsame.offset, hsame.tmplog, hsame.log, h.log]
    · rw [hsame.tmplog]; exact h.no_nul
  | true =>
    obtain ⟨htmp, hlog, hoffset⟩ :=
      @finishRecovery_mounted _ _ send_intent hmounts h.no_nul (hroom hmounts)
    have hend : (finishRecovery a send_intent s).tmplog_offset =
        (finishRecovery a send_intent s).tmplog.length := by
      rw [hoffset, htmp, Nat.max_eq_right hle]
    have htracked : Tracked (finishRecovery a send_intent s) base := by
      refine ⟨Nat.le_of_eq hend, ?_, htmp ▸ h.no_nul⟩
      rw [hend, List.take_length, hlog, htmp, h.log, List.append_assoc, List.take_append_drop]
    exact ⟨htracked, fun _ => htracked.copiedOnce hend⟩

/-- A step that meets its condition keeps track. -/
theorem step_tracked (h : Tracked s base) {op : LogOp} (hmeets : StepMeets s op) :
    Tracked (step s op) (baseAfter s op base) := by
  cases op with
  | append text =>
    have hle := h.offset_le
    refine ⟨by simp [step]; omega, ?_, fun hmem => (List.mem_append.mp hmem).elim h.no_nul hmeets⟩
    show s.log = base ++ (s.tmplog ++ text).take s.tmplog_offset
    rw [List.take_append_of_le_length hle, h.log]
  | finishRecovery a send_intent => exact (finishRecovery_tracked h hmeets).1
  | eraseVolume volume erased =>
    cases erased with
    | true =>
      have htmp : (eraseVolume volume true s).tmplog = s.tmplog := by
        unfold eraseVolume
        split <;> rfl
      refine h.restart htmp ?_
      show (eraseVolume volume true s).tmplog_offset = 0
      unfold eraseVolume
      split
      · rfl
      · rename_i hne
        exact hmeets.resolve_right fun hiff => hne (hiff.mp rfl)
    | false =>
      show Tracked (eraseVolume volume false s) base
      unfold eraseVolume
      split
      · rename_i heq
        have hzero : s.tmplog_offset = 0 := hmeets.resolve_right fun hiff => nomatch hiff.mpr heq
        have hlog := h.log
        rw [hzero] at hlog
        exact ⟨Nat.zero_le _, hlog, h.no_nul⟩
      · exact h
  | intentFormat erased =>
    cases erased with
    | true => exact h.restart rfl (hmeets.resolve_right fun h => nomatch h)
    | false => exact h
  | nandroidRestorePartition erased restored =>
    cases erased with
    | true => exact h.restart rfl (hmeets.resolve_right fun h => nomatch h)
    | false => exact h

theorem copied_of_tracked (ops : List LogOp) (h : Tracked s base) (hmeets : RunMeets ops s) :
    Copied ops s base := by
  induction ops generalizing s base with
  | nil => trivial
  | cons op ops ih =>
    refine ⟨?_, ih (step_tracked h hmeets.1) hmeets.2⟩
    rintro a send_intent rfl hmounts
    exact (finishRecovery_tracked h hmeets.1).2 hmounts

/-- Whatever the log holds at the start, in a run whose steps all meet their condition every
`finish_recovery` leaves the whole temporary log in it, each byte once. -/
theorem copied_of_meets (s : LogState) (ops : List LogOp) (hstart : s.tmplog_offset = 0)
    (hnul : (0 : UInt8) ∉ s.tmplog) (hmeets : RunMeets ops s) : Copied ops s s.log :=
  copied_of_tracked ops ⟨by omega, by rw [hstart, List.take_zero, List.append_nil], hnul⟩ hmeets

/-- No log, no cache, and room for all. -/
def LogState.empty : LogState := ⟨[], none, fun _ => none, 0⟩

def CacheAnswers.roomy : CacheAnswers := ⟨true, fun _ => 100⟩

/-- A wipe of the cache between two calls. -/
theorem copied_of_meets_wipe :
    Copied [.append [65], .finishRecovery .roomy none, .eraseVolume "/cache" true, .append [66],
      .finishRecovery .roomy none] .empty [] := by
  have hA : (0 : UInt8) ∉ [65] := by decide
  have hB : (0 : UInt8) ∉ [66] := by decide
  exact copied_of_meets .empty _ rfl List.not_mem_nil
    ⟨hA, fun _ => by decide, .inr (iff_of_true rfl rfl), hB, fun _ => by decide +kernel, trivial⟩

/-- `intent_format("/cache")` between two calls: the second leaves an empty log. -/
theorem not_copied_intentFormat :
    ¬ ∀ (s : LogState) (ops : List LogOp), s.tmplog_offset = 0 → (0 : UInt8) ∉ s.tmplog →
      Copied ops s s.log := by
  intro h
  have hrun := h .empty [.append [65], .finishRecovery .roomy none, .intentFormat true,
    .finishRecovery .roomy none] rfl List.not_mem_nil
  have hlog := (hrun.2.2.2.1 .roomy none rfl rfl).1
  revert hlog
  decide +kernel

end Miui.RecoveryLog
