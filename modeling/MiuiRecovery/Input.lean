import MiuiRecovery.Lib.Queue

/-!
# The input queues

`miui_input.c` keeps window messages in `atouch_winmsg` and key codes in `key_queue`; a code
`atouch_message_code` in the key queue announces one message. The consumer takes a message each time
it takes such a code, so a message is delivered as long as there are as many codes as messages
(`InSync`).

* `stepKeeps_iff`: a step keeps the queues in step exactly if it meets its condition (`StepMeets`).
* `drain_eq`: from there a waiting consumer gets every message, once and in order.
* `delivers_iff`: a run delivers exactly if every step of it meets its condition.
-/

namespace Miui.Input

def atouch_message_code : Int := 889
def evtouch_code : Int := 888

/-- The results of `atouch_wait_ex`. -/
inductive AtevAction
  | down | up | left | right | select | back | menu
  | mousedn | mouseup | mousemv
  | message
  deriving DecidableEq, Repr

/-- `ATEV`: `msg` is only written with a message. -/
structure Atev where
  x : Int
  y : Int
  d : Int
  k : Int
  msg : Option UInt32
  deriving DecidableEq, Repr

/-- The translated touch state of the input thread, at the time of a wait. -/
structure Touch where
  evtouch_state : Int
  evtouch_x : Int
  evtouch_y : Int

/-- `acfg()->ckey_*` -/
structure ConfigKeys where
  ckey_up : Int
  ckey_down : Int
  ckey_select : Int
  ckey_back : Int
  ckey_menu : Int

/-- The static state. `key_pressed` is kept for every code: the touch and the message code are larger
than `KEY_MAX`, and what `set_key_pressed` writes behind the array is not part of the model. -/
structure InputState where
  atouch_winmsg : ArrayQueue UInt32 64
  key_queue : ArrayQueue Int 256
  key_pressed : Int → Int

def InputState.init : InputState := ⟨.empty 0, .empty 0, fun _ => 0⟩

/-! ## The operations -/

/-- `atouch_winmsg_get(1)`; `beyond` is the word behind `atouch_winmsg`. -/
def atouchWinmsgGet (beyond : UInt32) (s : InputState) : UInt32 × InputState :=
  if 0 < s.atouch_winmsg.n then
    (s.atouch_winmsg.cells 0, { s with atouch_winmsg := s.atouch_winmsg.shift beyond })
  else (0, s)

def atouchWinmsgPush (msg : UInt32) (s : InputState) : Bool × InputState :=
  let (room, queue) := s.atouch_winmsg.push msg
  (room, { s with atouch_winmsg := queue })

def setKeyPressed (key val : Int) (s : InputState) : InputState :=
  { s with key_pressed := Function.update s.key_pressed key val }

def evPostMessage (key value : Int) (s : InputState) : InputState :=
  let s := setKeyPressed key value s
  { s with key_queue := (s.key_queue.push key).2 }

def atouchSendMessage (msg : UInt32) (s : InputState) : Bool × InputState :=
  match atouchWinmsgPush msg s with
  | (true, s) => (true, evPostMessage atouch_message_code 0 s)
  | (false, s) => (false, s)

def uiClearKeyQueueEx (s : InputState) : InputState :=
  { s with key_queue := s.key_queue.clear, atouch_winmsg := s.atouch_winmsg.clear }

def uiClearKeyQueue (s : InputState) : InputState :=
  let s := { s with key_queue := s.key_queue.clear }
  if 0 < s.atouch_winmsg.n then evPostMessage atouch_message_code 0 s else s

/-- `ui_wait_key`, `none` while it waits for a key. -/
def uiWaitKey (s : InputState) : Option (Int × InputState) :=
  if s.key_queue.n = 0 then none
  else some (s.key_queue.cells 0, { s with key_queue := s.key_queue.take })

/-- "DEFINED KEYS", by their codes in `linux/input.h`. -/
def definedKey (key : Int) : Option AtevAction :=
  if key = 106 then some .right
  else if key = 105 then some .left
  -- KEY_DOWN, KEY_CAPSLOCK, KEY_VOLUMEDOWN
  else if key ∈ [108, 58, 114] then some .down
  -- KEY_UP, KEY_LEFTSHIFT, KEY_VOLUMEUP
  else if key ∈ [103, 42, 115] then some .up
  -- KEY_LEFTBRACE, KEY_POWER, KEY_HOME, BTN_MOUSE, KEY_ENTER, KEY_CENTER, KEY_CAMERA, KEY_F21, KEY_SEND,
  -- KEY_END, KEY_HOMEPAGE, KEY_SEARCH, KEY_MENU
  else if key ∈ [26, 116, 102, 272, 28, 232, 212, 191, 231, 107, 172, 217, 139] then some .select
  else if key = 229 then some .menu
  -- KEY_BACKSPACE, KEY_BACK
  else if key ∈ [14, 158] then some .back
  else none

/-- The keys of `acfg()` before the defined ones. -/
def configKey (keys : ConfigKeys) (key : Int) : Option AtevAction :=
  if key ≠ 0 ∧ key = keys.ckey_up then some .up
  else if key ≠ 0 ∧ key = keys.ckey_down then some .down
  else if key ≠ 0 ∧ key = keys.ckey_select then some .select
  else if key ≠ 0 ∧ key = keys.ckey_back then some .back
  else if key ≠ 0 ∧ key = keys.ckey_menu then some .menu
  else definedKey key

def touchAction (touch : Touch) : AtevAction :=
  if touch.evtouch_state = 1 then .mousedn
  else if touch.evtouch_state = 2 then .mousemv
  else .mouseup

/-- A round of the loop of `atouch_wait_ex` with a key from the queue: the result, `none` where the
loop goes on. -/
def atouchWaitKey (keys : ConfigKeys) (touch : Touch) (beyond : UInt32) (key : Int) (s : InputState) :
    Option (AtevAction × Atev) × InputState :=
  if key = atouch_message_code then
    let (msg, s) := atouchWinmsgGet beyond s
    (some (.message, { x := 0, y := 0, d := 0, k := 0, msg := some msg }), s)
  else
    let atev : Atev := { x := -1, y := -1, d := s.key_pressed key, k := key, msg := none }
    if key = evtouch_code then
      if 0 < touch.evtouch_x ∧ 0 < touch.evtouch_y then
        (some (touchAction touch, { atev with x := touch.evtouch_x, y := touch.evtouch_y }), s)
      else (none, s)
    else ((configKey keys key).map fun action => (action, atev), s)

/-! ## Steps -/

/-- The operations that interleave. A wait is one round of the consumer's loop. -/
inductive InputOp
  | sendMessage (msg : UInt32)
  | postMessage (key value : Int)
  | clearKeyQueue
  | clearKeyQueueEx
  | wait (touch : Touch) (beyond : UInt32)

/-- What an operation returns: `accepted` and `refused` are the results of `atouch_send_message`. -/
inductive InputEvent
  | accepted (msg : UInt32)
  | refused
  | action (action : AtevAction) (atev : Atev)
  | cleared
  | silent
  deriving DecidableEq, Repr

def step (keys : ConfigKeys) (s : InputState) : InputOp → InputState × InputEvent
  | .sendMessage msg =>
    let (sent, s) := atouchSendMessage msg s
    (s, if sent then .accepted msg else .refused)
  | .postMessage key value => (evPostMessage key value s, .silent)
  | .clearKeyQueue => (uiClearKeyQueue s, .silent)
  | .clearKeyQueueEx => (uiClearKeyQueueEx s, .cleared)
  | .wait touch beyond =>
    match uiWaitKey s with
    | none => (s, .silent)
    | some (key, s) =>
      match atouchWaitKey keys touch beyond key s with
      | (some (action, atev), s) => (s, .action action atev)
      | (none, s) => (s, .silent)

/-- The message that an event delivers. -/
def InputEvent.delivered : InputEvent → Option UInt32
  | .action .message atev => atev.msg
  | _ => none

/-- Every index that the operation uses on the two arrays is below their size. The pushes check it. -/
def InRange (s : InputState) : InputOp → Prop
  | .wait _ _ => s.key_queue.toList.head? = some atouch_message_code → s.atouch_winmsg.ShiftInRange
  | _ => True

/-! ## A mailbox -/

/-- What a mailbox is for: the messages accepted and neither delivered nor dropped, in order. An
event is possible (`some`) if it delivers nothing or the first of them. -/
def mailbox (box : List UInt32) (e : InputEvent) : Option (List UInt32) :=
  match e, box with
  | .accepted msg, box => some (box ++ [msg])
  | .cleared, _ => some []
  | e, [] => if e.delivered = none then some [] else none
  | e, msg :: box =>
    if e.delivered = none then some (msg :: box)
    else if e.delivered = some msg then some box
    else none

/-- There are as many codes as messages, and the messages are those of the mailbox. -/
structure InSync (s : InputState) (box : List UInt32) : Prop where
  announced : s.key_queue.toList.count atouch_message_code = s.atouch_winmsg.n
  messages : s.atouch_winmsg.toList = box

/-- What a consumer gets that keeps waiting, while nothing else happens. -/
def drain (keys : ConfigKeys) (touch : Touch) (beyond : UInt32) : Nat → InputState → List UInt32
  | 0, _ => []
  | rounds + 1, s =>
    let (s, e) := step keys s (.wait touch beyond)
    e.delivered.toList ++ drain keys touch beyond rounds s

/-- In every state of a run the queues are in step and a waiting consumer would get the messages of
the mailbox; and every step uses the arrays within their bounds and delivers as a mailbox does. -/
def Delivers (keys : ConfigKeys) : List InputOp → InputState → List UInt32 → Prop
  | [], s, box =>
    InSync s box ∧ ∀ touch beyond, drain keys touch beyond s.key_queue.n s = box
  | op :: ops, s, box =>
    (InSync s box ∧ ∀ touch beyond, drain keys touch beyond s.key_queue.n s = box) ∧ InRange s op ∧
      ∃ box', mailbox box (step keys s op).2 = some box' ∧ Delivers keys ops (step keys s op).1 box'

/-- What keeps the queues in step: an accepted message finds room for its code, nobody else posts the
code, at most one message is waiting when the keys are cleared, and none is taken while 64 are there. -/
def StepMeets (s : InputState) : InputOp → Prop
  | .sendMessage _ => s.atouch_winmsg.n < 64 → s.key_queue.n < 256
  | .postMessage key _ => key = atouch_message_code → s.key_queue.n = 256
  | .clearKeyQueue => s.atouch_winmsg.n ≤ 1
  | .clearKeyQueueEx => True
  | .wait _ _ => s.key_queue.toList.head? = some atouch_message_code → s.atouch_winmsg.n < 64

def RunMeets (keys : ConfigKeys) : List InputOp → InputState → Prop
  | [], _ => True
  | op :: ops, s => StepMeets s op ∧ RunMeets keys ops (step keys s op).1

/-! ## One step -/

variable {keys : ConfigKeys} {touch : Touch} {beyond : UInt32} {s : InputState} {box : List UInt32}

@[simp] theorem evPostMessage_winmsg (key value : Int) :
    (evPostMessage key value s).atouch_winmsg = s.atouch_winmsg := rfl

@[simp] theorem evPostMessage_queue (key value : Int) :
    (evPostMessage key value s).key_queue = (s.key_queue.push key).2 := rfl

theorem InSync.length (h : InSync s box) : box.length = s.atouch_winmsg.n := by
  rw [← h.messages, ArrayQueue.toList_length]

/-- A key that finds room is counted if it is the message code. -/
theorem count_push {key : Int} (h : s.key_queue.n < 256) :
    (s.key_queue.push key).2.toList.count atouch_message_code =
      s.key_queue.toList.count atouch_message_code + if key = atouch_message_code then 1 else 0 := by
  rw [(ArrayQueue.push_room h).2.1, List.count_append, List.count_singleton]
  simp [beq_iff_eq]

/-- A step uses the arrays within their bounds, delivers as a mailbox does and leaves the queues in
step. -/
def StepKeeps (keys : ConfigKeys) (s : InputState) (box : List UInt32) (op : InputOp) : Prop :=
  InRange s op ∧ ∃ box', mailbox box (step keys s op).2 = some box' ∧ InSync (step keys s op).1 box'

theorem mailbox_silent (box : List UInt32) : mailbox box .silent = some box := by cases box <;> rfl

theorem mailbox_accepted (box : List UInt32) (msg : UInt32) : mailbox box (.accepted msg) = some (box ++ [msg]) := by
  cases box <;> rfl

theorem mailbox_message (box : List UInt32) (msg : UInt32) {atev : Atev} (h : atev.msg = some msg) :
    mailbox (msg :: box) (.action .message atev) = some box := by
  have hdelivered : (InputEvent.action .message atev).delivered = some msg := h
  exact (if_neg (by rw [hdelivered]; exact Option.some_ne_none msg)).trans (if_pos hdelivered)

theorem mailbox_refused (box : List UInt32) : mailbox box .refused = some box := by cases box <;> rfl

/-- A key or a touch is no message. -/
theorem delivered_action (action : AtevAction) {atev : Atev} (h : atev.msg = none) :
    (InputEvent.action action atev).delivered = none := by cases action <;> first | exact h | rfl

theorem mailbox_action (action : AtevAction) {atev : Atev} (h : atev.msg = none) (box : List UInt32) :
    mailbox box (.action action atev) = some box := by
  cases box with
  | nil => exact if_pos (delivered_action action h)
  | cons msg box => exact if_pos (delivered_action action h)

theorem sendMessage_keeps (h : InSync s box) (msg : UInt32) :
    StepKeeps keys s box (.sendMessage msg) ↔ StepMeets s (.sendMessage msg) := by
  by_cases hroom : s.atouch_winmsg.n < 64
  · obtain ⟨htrue, hlist, hn⟩ := ArrayQueue.push_room (a := msg) hroom
    have hpush : s.atouch_winmsg.push msg = (true, (s.atouch_winmsg.push msg).2) := Prod.ext htrue rfl
    have hstep : step keys s (.sendMessage msg) =
        (evPostMessage atouch_message_code 0 { s with atouch_winmsg := (s.atouch_winmsg.push msg).2 },
          .accepted msg) := by
      have hsend : atouchSendMessage msg s = (true, evPostMessage atouch_message_code 0
          { s with atouch_winmsg := (s.atouch_winmsg.push msg).2 }) := by
        unfold atouchSendMessage atouchWinmsgPush
        rw [hpush]
      simp only [step, hsend, if_true]
    simp only [StepKeeps, StepMeets, InRange, hstep, mailbox_accepted, Option.some.injEq, true_and, hroom,
      forall_true_left, exists_eq_left']
    constructor
    · intro hsync
      by_contra hfull
      have hannounced := hsync.announced
      rw [evPostMessage_queue, evPostMessage_winmsg, ArrayQueue.push_full hfull, hn, h.announced] at hannounced
      omega
    · intro hkeys
      refine ⟨?_, ?_⟩
      · rw [evPostMessage_queue, evPostMessage_winmsg, hn, count_push hkeys, h.announced, if_pos rfl]
      · rw [evPostMessage_winmsg, hlist, h.messages]
  · have hstep : step keys s (.sendMessage msg) = (s, .refused) := by
      simp only [step, atouchSendMessage, atouchWinmsgPush, ArrayQueue.push_full hroom]
      rfl
    simp only [StepKeeps, StepMeets, InRange, hstep, hroom, false_implies, iff_true, true_and]
    exact ⟨box, mailbox_refused box, h⟩

theorem postMessage_keeps (h : InSync s box) (key value : Int) :
    StepKeeps keys s box (.postMessage key value) ↔ StepMeets s (.postMessage key value) := by
  have hle := s.key_queue.n_le
  simp only [StepKeeps, StepMeets, InRange, step, mailbox_silent, Option.some.injEq, exists_eq_left', true_and]
  constructor
  · intro hsync hkey
    by_contra hroom
    have hannounced := hsync.announced
    rw [evPostMessage_queue, evPostMessage_winmsg, count_push (by omega), h.announced, if_pos hkey]
      at hannounced
    omega
  · intro hkey
    refine ⟨?_, h.messages⟩
    rw [evPostMessage_queue, evPostMessage_winmsg, ← h.announced]
    by_cases hroom : s.key_queue.n < 256
    · have hne : key ≠ atouch_message_code := fun heq => absurd (hkey heq) (by omega)
      rw [count_push hroom, if_neg hne, Nat.add_zero]
    · rw [ArrayQueue.push_full hroom]

/-- A clear leaves one code for all the messages. -/
theorem clearKeyQueue_keeps (h : InSync s box) :
    StepKeeps keys s box .clearKeyQueue ↔ StepMeets s .clearKeyQueue := by
  simp only [StepKeeps, StepMeets, InRange, step, mailbox_silent, Option.some.injEq, exists_eq_left', true_and]
  by_cases hn : 0 < s.atouch_winmsg.n
  · have hclear : uiClearKeyQueue s =
        evPostMessage atouch_message_code 0 { s with key_queue := s.key_queue.clear } := if_pos hn
    have hcount : (uiClearKeyQueue s).key_queue.toList.count atouch_message_code = 1 := by
      have hroom : s.key_queue.clear.n < 256 := Nat.zero_lt_succ 255
      rw [hclear, evPostMessage_queue, (ArrayQueue.push_room hroom).2.1]
      rfl
    have hsame : (uiClearKeyQueue s).atouch_winmsg = s.atouch_winmsg := by rw [hclear]; rfl
    constructor
    · intro hsync
      have hannounced := hsync.announced
      rw [hcount, hsame] at hannounced
      omega
    · intro hone
      exact ⟨by rw [hcount, hsame]; omega, by rw [hsame]; exact h.messages⟩
  · have hclear : uiClearKeyQueue s = { s with key_queue := s.key_queue.clear } := if_neg hn
    rw [hclear]
    refine iff_of_true ⟨?_, h.messages⟩ (by omega)
    show (s.key_queue.clear.toList.count atouch_message_code) = s.atouch_winmsg.n
    rw [ArrayQueue.clear_toList, List.count_nil]
    omega

theorem clearKeyQueueEx_keeps : StepKeeps keys s box .clearKeyQueueEx :=
  ⟨trivial, [], rfl, rfl, rfl⟩

/-- A round of the consumer takes a key off the queue, and with the message code a message. -/
theorem wait_spec (h : InSync s box) (hkeys : 0 < s.key_queue.n) :
    ∃ box', mailbox box (step keys s (.wait touch beyond)).2 = some box' ∧
      InSync (step keys s (.wait touch beyond)).1 box' ∧
      (step keys s (.wait touch beyond)).1.key_queue.n = s.key_queue.n - 1 ∧
      box = (step keys s (.wait touch beyond)).2.delivered.toList ++ box' := by
  have hqueue := ArrayQueue.take_toList hkeys
  have hget : uiWaitKey s = some (s.key_queue.cells 0, { s with key_queue := s.key_queue.take }) :=
    if_neg (Nat.ne_of_gt hkeys)
  have hannounced := h.announced
  rw [hqueue, List.count_cons] at hannounced
  by_cases hcode : s.key_queue.cells 0 = atouch_message_code
  · rw [hcode, beq_self_eq_true, if_pos rfl] at hannounced
    have hn : 0 < s.atouch_winmsg.n := by omega
    have hmsgs := @ArrayQueue.shift_toList _ _ _ beyond hn
    have hstep : step keys s (.wait touch beyond) =
        ({ s with key_queue := s.key_queue.take, atouch_winmsg := s.atouch_winmsg.shift beyond },
          .action .message { x := 0, y := 0, d := 0, k := 0, msg := some (s.atouch_winmsg.cells 0) }) := by
      simp only [step, hget, atouchWaitKey, hcode, if_true, atouchWinmsgGet, hn]
    rw [hstep, ← h.messages, hmsgs]
    refine ⟨_, ?_, ⟨?_, rfl⟩, rfl, rfl⟩
    · exact mailbox_message _ _ rfl
    · show s.key_queue.take.toList.count atouch_message_code = s.atouch_winmsg.n - 1
      omega
  · have hcount : s.key_queue.take.toList.count atouch_message_code = s.atouch_winmsg.n := by
      simpa [hcode] using hannounced
    -- Whatever the key comes to, the message queue is not touched.
    obtain ⟨e, hstep, hbox, hnone⟩ : ∃ e, step keys s (.wait touch beyond) =
        ({ s with key_queue := s.key_queue.take }, e) ∧ mailbox box e = some box ∧ e.delivered = none := by
      simp only [step, hget, atouchWaitKey, hcode, if_false]
      split_ifs with htouch hon
      · exact ⟨_, rfl, mailbox_action _ rfl _, delivered_action _ rfl⟩
      · exact ⟨_, rfl, mailbox_silent _, rfl⟩
      · cases hkey : configKey keys (s.key_queue.cells 0) with
        | none => exact ⟨_, rfl, mailbox_silent _, rfl⟩
        | some action => exact ⟨_, rfl, mailbox_action _ rfl _, delivered_action _ rfl⟩
    rw [hstep]
    exact ⟨box, hbox, ⟨hcount, h.messages⟩, rfl, by rw [hnone]; rfl⟩

theorem wait_keeps (h : InSync s box) :
    StepKeeps keys s box (.wait touch beyond) ↔ StepMeets s (.wait touch beyond) := by
  have hle := s.atouch_winmsg.n_le
  have hrange : InRange s (.wait touch beyond) ↔ StepMeets s (.wait touch beyond) := by
    refine forall_congr' fun hhead => ?_
    rw [ArrayQueue.shift_inRange]
    refine or_iff_left fun hzero => ?_
    -- A code at the head announces a message.
    have hcount := h.announced
    rw [hzero, List.count_eq_zero] at hcount
    exact hcount (List.mem_of_mem_head? hhead)
  rw [← hrange]
  refine and_iff_left ?_
  by_cases hkeys : 0 < s.key_queue.n
  · obtain ⟨box', hbox, hsync, -, -⟩ := @wait_spec keys touch beyond _ _ h hkeys
    exact ⟨box', hbox, hsync⟩
  · have hstep : step keys s (.wait touch beyond) = (s, .silent) := by
      simp [step, uiWaitKey, Nat.eq_zero_of_not_pos hkeys]
    rw [hstep]
    exact ⟨box, mailbox_silent box, h⟩

/-- A step keeps the queues in step exactly if it meets its condition. -/
theorem stepKeeps_iff (h : InSync s box) (op : InputOp) : StepKeeps keys s box op ↔ StepMeets s op := by
  cases op with
  | sendMessage msg => exact sendMessage_keeps h msg
  | postMessage key value => exact postMessage_keeps h key value
  | clearKeyQueue => exact clearKeyQueue_keeps h
  | clearKeyQueueEx => exact iff_of_true clearKeyQueueEx_keeps trivial
  | wait touch beyond => exact wait_keeps h

/-! ## Runs -/

/-- A consumer that keeps waiting gets the messages of the mailbox, once and in order. -/
theorem drain_eq {rounds : Nat} (h : InSync s box) (hrounds : s.key_queue.n = rounds) :
    drain keys touch beyond rounds s = box := by
  induction rounds generalizing s box with
  | zero =>
    have hnil := ArrayQueue.toList_eq_nil.mpr hrounds
    have hn := h.announced
    rw [hnil, List.count_nil] at hn
    exact (List.length_eq_zero_iff.mp (h.length.trans hn.symm)).symm
  | succ rounds ih =>
    obtain ⟨box', -, hsync, hn, hbox⟩ :=
      @wait_spec keys touch beyond _ _ h (by omega)
    have hdrain : drain keys touch beyond (rounds + 1) s =
        (step keys s (.wait touch beyond)).2.delivered.toList ++
          drain keys touch beyond rounds (step keys s (.wait touch beyond)).1 := rfl
    rw [hdrain, ih hsync (by omega), ← hbox]

theorem init_inSync : InSync .init [] := ⟨rfl, rfl⟩

theorem delivers_of_inSync (ops : List InputOp) (h : InSync s box) :
    Delivers keys ops s box ↔ RunMeets keys ops s := by
  induction ops generalizing s box with
  | nil => exact iff_of_true ⟨h, fun _ _ => drain_eq h rfl⟩ trivial
  | cons op ops ih =>
    constructor
    · rintro ⟨-, hrange, box', hbox, hrun⟩
      have hsync : InSync (step keys s op).1 box' := by
        cases ops with
        | nil => exact hrun.1
        | cons => exact hrun.1.1
      exact ⟨(stepKeeps_iff h op).mp ⟨hrange, box', hbox, hsync⟩, (ih hsync).mp hrun⟩
    · rintro ⟨hmeets, hrun⟩
      obtain ⟨hrange, box', hbox, hsync⟩ := (@stepKeeps_iff keys _ _ h op).mpr hmeets
      exact ⟨⟨h, fun _ _ => drain_eq h rfl⟩, hrange, box', hbox, (ih hsync).mpr hrun⟩

/-- From the start, a run delivers every message exactly if every step of it meets its condition. -/
theorem delivers_iff (keys : ConfigKeys) (ops : List InputOp) :
    Delivers keys ops .init [] ↔ RunMeets keys ops .init := delivers_of_inSync ops init_inSync

/-- Two messages posted before `aw_dispatch` clears the keys: the second is never announced. -/
theorem not_delivers_clear :
    ¬ ∀ (keys : ConfigKeys) (ops : List InputOp), Delivers keys ops .init [] := by
  intro h
  have hrun := (delivers_of_inSync _ init_inSync).mp
    (h ⟨0, 0, 0, 0, 0⟩ [.sendMessage 1, .sendMessage 2, .clearKeyQueue])
  have htwo : ¬ (2 : Nat) ≤ 1 := by decide
  exact htwo hrun.2.2.1

end Miui.Input
