import MiuiRecovery.Adb.Stream
import MiuiRecovery.ApplyPatch.Storage

/-!
# The sideload daemon

The packets that `handle_packet` takes from the transport, the events of the local sockets and the threads of
`sideload_service`, in any order (`adb.c`, `sockets.c`, `services.c`). The transport is one queue each way; `sent` is all
that went into the one to the host.

* `handlePacket_inv`, `step_inv`, `run_inv`: every stream stays good, and its history is what was sent.
* `sideload_run`: no step of a run meets a null pointer, and what each stream has written, acknowledged and answered.
-/

namespace Miui.Adb

open CString

/-- The streams, the one with the id `i + 1` at the place `i`, and the transport. -/
structure State where
  streams : List Stream
  online : Bool
  sent : List Packet

def State.init : State := ⟨[], false, []⟩

def A_VERSION : Nat := 0x01000000

/-- The `data` of `send_connect`. -/
def banner : Bytes := Bytes.ascii "sideload::" ++ [0]

/-- `service_to_fd`: the count of the thread. Without a socket pair or a thread there is none. -/
def serviceToFd (name : Bytes) (created : Bool) : Option Nat :=
  if (Bytes.ascii "sideload:").isPrefixOf name ∧ created then some (strtol (name.drop 9) % 2 ^ 32).toNat else none

/-- `find_local_socket`; a socket that is closing is not on the list. -/
def State.find (st : State) : Nat → Option (Flow × Socket)
  | 0 => none
  | i + 1 => match st.streams[i]? with
    | some ⟨some k, f⟩ => if k.closing then none else some (f, k)
    | _ => none

def State.say (st : State) (p : Packet) : State := { st with sent := st.sent ++ [p] }

def State.update (st : State) (i : Nat) (r : Stream × List Packet) : State :=
  { st with streams := st.streams.set i r.1, sent := st.sent ++ r.2 }

/-- `handle_offline` -/
def State.offline (st : State) : State := { st with streams := st.streams.map .disconnect, online := false }

/-- `handle_packet`, with what the calls of `adb_write` return, and whether a thread can be created. -/
def handlePacket (st : State) (p : Packet) (ios : List Io) (created : Bool) : State :=
  match p.command with
  | .sync => if p.arg0 ≠ 0 then st.say p else st.offline.say p
  | .cnxn => State.say { (if st.online then st.offline else st) with online := true } ⟨.cnxn, A_VERSION, MAX_PAYLOAD, banner⟩
  | .opn =>
    if st.online then
      match serviceToFd (cstr p.data.dropLast) created with
      | none => st.say ⟨.clse, 0, p.arg0, []⟩
      | some count =>
        { st with
          streams := st.streams ++ [.opened p.arg0 count]
          sent := st.sent ++ [⟨.okay, st.streams.length + 1, p.arg0, []⟩] }
    else st
  | .okay =>
    if st.online then
      match st.find p.arg1 with
      | none => st
      | some (f, k) => st.update (p.arg1 - 1) (ready f k p.arg0, [])
    else st
  | .clse =>
    if st.online then
      match st.find p.arg1 with
      | none => st
      | some (f, k) => st.update (p.arg1 - 1) (⟨k.close.1, f⟩, k.close.2)
    else st
  | .wrte =>
    if st.online then
      match st.find p.arg1 with
      | none => st
      | some (f, k) => st.update (p.arg1 - 1) (enqueue f k p.arg1 p.arg0 ios p.data)
    else st
  | .other => st

/-- What happens next: a packet comes, a socket has its events, or a thread goes on. -/
inductive Label
  | packet (p : Packet) (ios : List Io) (created : Bool)
  | event (i : Nat) (write read : Option (List Io))
  | service (i : Nat) (a : Act)

/-- An event that the socket waits for. One that it waited for may still come where the socket is closing. -/
def enabled (st : State) : Label → Bool
  | .packet .. => true
  | .event i write read => match st.streams[i]? with
    | some ⟨some k, _⟩ => (write.isNone || k.write) && (read.isNone || k.read || k.closing)
    | _ => false
  | .service i a => match st.streams[i]? with
    | some s => (act s.flow a).isSome
    | none => false

/-- One step; `none` is a null pointer. -/
def step (st : State) : Label → Option State
  | .packet p ios created => some (handlePacket st p ios created)
  | .event i write read => match st.streams[i]? with
    | some ⟨some k, f⟩ => (event f k (i + 1) write read).map (st.update i)
    | _ => some st
  | .service i a => match st.streams[i]? with
    | some s => match act s.flow a with
      | some f => some (st.update i (⟨s.socket, f⟩, []))
      | none => some st
    | none => some st

def run : State → List Label → Option State
  | st, [] => some st
  | st, l :: ls => if enabled st l then (step st l).bind (run · ls) else none

/-! ## What holds in every run -/

/-- The stream at `i` is good, and its history is what was sent. The packet behind `A_OPEN` is an `A_OKAY` too. -/
structure Logged (sent : List Packet) (i : Nat) (s : Stream) : Prop where
  good : Good s
  taken : s.flow.taken = (wrtes (i + 1) sent).flatMap (·.data)
  writes : s.flow.writes = (wrtes (i + 1) sent).length
  acks : s.flow.acks + 1 = (okays (i + 1) sent).length

structure Inv (st : State) : Prop where
  logged : ∀ {i s}, st.streams[i]? = some s → Logged st.sent i s
  fresh : ∀ {i}, st.streams.length ≤ i → wrtes (i + 1) st.sent = [] ∧ okays (i + 1) st.sent = []

variable {st st' : State} {i j : Nat} {s s' : Stream} {f f' : Flow} {k : Socket} {sent more : List Packet}

theorem wrtes_append (id : Nat) (sent more : List Packet) : wrtes id (sent ++ more) = wrtes id sent ++ wrtes id more :=
  List.filter_append ..

theorem okays_append (id : Nat) (sent more : List Packet) : okays id (sent ++ more) = okays id sent ++ okays id more :=
  List.filter_append ..

/-- Packets that are not of the stream at `i`. -/
def Foreign (i : Nat) (more : List Packet) : Prop := wrtes (i + 1) more = [] ∧ okays (i + 1) more = []

theorem Sends.foreign (h : Sends (j + 1) f f' more) (hij : i ≠ j) : Foreign i more := by
  have hnot : ∀ p ∈ more, p.command = .clse ∨ p.arg0 ≠ i + 1 := by
    intro p hp
    refine (h.own p hp).imp_right fun harg heq => hij ?_
    exact Nat.succ.inj (heq.symm.trans harg)
  constructor
  · refine List.filter_eq_nil_iff.mpr fun p hp => ?_
    rcases hnot p hp with hclse | harg
    · simp [hclse]
    · simp [harg]
  · refine List.filter_eq_nil_iff.mpr fun p hp => ?_
    rcases hnot p hp with hclse | harg
    · simp [hclse]
    · simp [harg]

theorem Logged.foreign (h : Logged sent i s) (hmore : Foreign i more) : Logged (sent ++ more) i s := by
  refine ⟨h.good, ?_, ?_, ?_⟩
  · rw [wrtes_append, hmore.1, List.append_nil, h.taken]
  · rw [wrtes_append, hmore.1, List.append_nil, h.writes]
  · rw [okays_append, hmore.2, List.append_nil, h.acks]

theorem Logged.sends (h : Logged sent i s) (hs : Good s') (hmore : Sends (i + 1) s.flow s'.flow more) :
    Logged (sent ++ more) i s' := by
  refine ⟨hs, ?_, ?_, ?_⟩
  · rw [hmore.taken, h.taken, wrtes_append, List.flatMap_append]
  · rw [hmore.writes, h.writes, wrtes_append, List.length_append]
  · rw [hmore.acks, Nat.add_right_comm, h.acks, okays_append, List.length_append]

theorem fresh_append (h : wrtes (i + 1) sent = [] ∧ okays (i + 1) sent = []) (hmore : Foreign i more) :
    wrtes (i + 1) (sent ++ more) = [] ∧ okays (i + 1) (sent ++ more) = [] := by
  rw [wrtes_append, okays_append, h.1, h.2, hmore.1, hmore.2]
  exact ⟨rfl, rfl⟩

theorem init_inv : Inv .init := by
  constructor
  · intro i s hs
    cases hs
  · exact fun _ => ⟨rfl, rfl⟩

theorem update_inv (h : Inv st) (hi : st.streams[i]? = some s) (hs : Good s') (hmore : Sends (i + 1) s.flow s'.flow more) :
    Inv (st.update i (s', more)) := by
  have hlt : i < st.streams.length := (List.getElem?_eq_some_iff.mp hi).choose
  constructor
  · intro j t ht
    by_cases hij : i = j
    · subst hij
      have hset : (st.streams.set i s')[i]? = some s' := List.getElem?_set_self hlt
      cases hset.symm.trans ht
      exact (h.logged hi).sends hs hmore
    · have hset : (st.streams.set i s')[j]? = st.streams[j]? := List.getElem?_set_ne hij
      exact (h.logged (hset.symm.trans ht)).foreign (hmore.foreign (Ne.symm hij))
  · intro j hj
    have hj' : st.streams.length ≤ j := by
      rw [← @List.length_set _ st.streams]
      exact hj
    exact fresh_append (h.fresh hj') (hmore.foreign (Nat.ne_of_gt (Nat.lt_of_lt_of_le hlt hj')))

theorem say_inv (h : Inv st) {p : Packet} (hwrte : p.command ≠ .wrte) (hokay : p.command ≠ .okay) : Inv (st.say p) := by
  have hforeign : ∀ i, Foreign i [p] := by
    intro i
    constructor
    · simp [wrtes, hwrte]
    · simp [okays, hokay]
  exact ⟨fun hs => (h.logged hs).foreign (hforeign _), fun hi => fresh_append (h.fresh hi) (hforeign _)⟩

theorem offline_inv (h : Inv st) : Inv st.offline := by
  constructor
  · intro i s hs
    obtain ⟨t, ht, rfl⟩ := List.getElem?_map .. ▸ hs |> Option.map_eq_some_iff.mp
    have hlogged := h.logged ht
    obtain ⟨hgood, hflow⟩ := disconnect_good hlogged.good
    refine ⟨hgood, ?_, ?_, ?_⟩
    · rw [hflow]
      exact hlogged.taken
    · rw [hflow]
      exact hlogged.writes
    · rw [hflow]
      exact hlogged.acks
  · intro i hi
    refine h.fresh ?_
    rw [← List.length_map Stream.disconnect]
    exact hi

theorem online_inv (h : Inv st) (b : Bool) : Inv { st with online := b } := ⟨h.logged, h.fresh⟩

theorem open_inv (h : Inv st) (rid count : Nat) :
    Inv { st with
      streams := st.streams ++ [.opened rid count]
      sent := st.sent ++ [⟨.okay, st.streams.length + 1, rid, []⟩] } := by
  have hforeign : ∀ {i}, i ≠ st.streams.length → Foreign i [⟨.okay, st.streams.length + 1, rid, []⟩] := by
    intro i hi
    constructor
    · simp [wrtes]
    · simp [okays, Ne.symm hi]
  constructor
  · intro i s hs
    rcases Nat.lt_trichotomy i st.streams.length with hlt | rfl | hgt
    · rw [List.getElem?_append_left hlt] at hs
      exact (h.logged hs).foreign (hforeign hlt.ne)
    · have hlast : (st.streams ++ [.opened rid count])[st.streams.length]? = some (.opened rid count) := by simp
      cases hlast.symm.trans hs
      obtain ⟨hwrtes, hokays⟩ := h.fresh (Nat.le_refl st.streams.length)
      refine ⟨opened_good rid count, ?_, ?_, ?_⟩
      · rw [wrtes_append, hwrtes]
        simp [wrtes, Stream.opened]
      · rw [wrtes_append, hwrtes]
        simp [wrtes, Stream.opened]
      · rw [okays_append, hokays]
        simp [okays, Stream.opened]
    · have hbeyond : (st.streams ++ [.opened rid count])[i]? = none := by
        refine List.getElem?_eq_none ?_
        rw [List.length_append]
        exact hgt
      cases hbeyond.symm.trans hs
  · intro i hi
    have hi' : st.streams.length < i := by
      have hlen : (st.streams ++ [Stream.opened rid count]).length ≤ i := hi
      rw [List.length_append] at hlen
      exact hlen
    exact fresh_append (h.fresh hi'.le) (hforeign hi'.ne')

theorem find_eq_some {id : Nat} (h : st.find id = some (f, k)) :
    ∃ i, id = i + 1 ∧ st.streams[i]? = some ⟨some k, f⟩ ∧ k.closing = false := by
  cases id with
  | zero => cases h
  | succ i =>
    refine ⟨i, rfl, ?_⟩
    unfold State.find at h
    dsimp only at h
    split at h
    case h_1 k' f' hs =>
      split at h
      · cases h
      · rename_i hactive
        cases h
        exact ⟨hs, by simpa using hactive⟩
    case h_2 => cases h

/-- A packet for a socket that is on the list. -/
theorem found_inv (h : Inv st) {id : Nat} (hfind : st.find id = some (f, k))
    (hstep : Base f → Attached f k → k.closing = false → Good s' ∧ Sends id f s'.flow more) :
    Inv (st.update (id - 1) (s', more)) := by
  obtain ⟨i, rfl, hi, hactive⟩ := find_eq_some hfind
  have hgood := (h.logged hi).good
  obtain ⟨hs, hmore⟩ := hstep hgood.base (hgood.attached k rfl) hactive
  exact update_inv h hi hs hmore

theorem handlePacket_inv (h : Inv st) (p : Packet) (ios : List Io) (created : Bool) :
    Inv (handlePacket st p ios created) := by
  unfold handlePacket
  cases hcommand : p.command with
  | sync =>
    dsimp only
    by_cases harg : p.arg0 ≠ 0
    · rw [if_pos harg]
      exact say_inv h (by simp [hcommand]) (by simp [hcommand])
    · rw [if_neg harg]
      exact say_inv (offline_inv h) (by simp [hcommand]) (by simp [hcommand])
  | cnxn =>
    dsimp only
    refine say_inv (online_inv ?_ true) (by simp) (by simp)
    by_cases honline : st.online = true
    · rw [if_pos honline]
      exact offline_inv h
    · rw [if_neg honline]
      exact h
  | opn =>
    dsimp only
    by_cases honline : st.online = true
    · rw [if_pos honline]
      cases serviceToFd (cstr p.data.dropLast) created with
      | none => exact say_inv h (by simp) (by simp)
      | some count => exact open_inv h p.arg0 count
    · rw [if_neg honline]
      exact h
  | okay =>
    dsimp only
    by_cases honline : st.online = true
    · rw [if_pos honline]
      cases hfind : st.find p.arg1 with
      | none => exact h
      | some r =>
        refine found_inv h hfind fun hb hk hactive => ?_
        exact ready_good p.arg1 hb hk hactive p.arg0
    · rw [if_neg honline]
      exact h
  | clse =>
    dsimp only
    by_cases honline : st.online = true
    · rw [if_pos honline]
      cases hfind : st.find p.arg1 with
      | none => exact h
      | some r =>
        refine found_inv h hfind fun hb hk _ => ?_
        exact ⟨close_good hb hk, sends_close _ rfl rfl rfl⟩
    · rw [if_neg honline]
      exact h
  | wrte =>
    dsimp only
    by_cases honline : st.online = true
    · rw [if_pos honline]
      cases hfind : st.find p.arg1 with
      | none => exact h
      | some r =>
        refine found_inv h hfind fun hb hk hactive => ?_
        exact enqueue_good p.arg1 hb hk hactive ios p.data
    · rw [if_neg honline]
      exact h
  | other => exact h

/-- A step that can be taken is taken, and keeps the invariant. -/
theorem step_inv (h : Inv st) {l : Label} (hl : enabled st l = true) : ∃ st', step st l = some st' ∧ Inv st' := by
  cases l with
  | packet p ios created => exact ⟨_, rfl, handlePacket_inv h p ios created⟩
  | event i write read =>
    unfold enabled at hl
    unfold step
    dsimp only at hl ⊢
    cases hi : st.streams[i]? with
    | none =>
      rw [hi] at hl
      cases hl
    | some s =>
      obtain ⟨socket, f⟩ := s
      rw [hi] at hl
      cases socket with
      | none => cases hl
      | some k =>
        dsimp only at hl ⊢
        have hgood := (h.logged hi).good
        rw [Bool.and_eq_true, Bool.or_eq_true, Bool.or_eq_true, Bool.or_eq_true] at hl
        have hwrite : write.isSome → k.write = true := by
          intro hsome
          exact hl.1.resolve_left (by cases write with | none => cases hsome | some ios => simp)
        have hread : read.isSome → k.read = true ∨ k.closing = true := by
          intro hsome
          rcases hl.2 with (hnone | hread) | hclosing
          · cases read with
            | none => cases hsome
            | some ios => cases hnone
          · exact .inl hread
          · exact .inr hclosing
        obtain ⟨s, sent, hevent, hs, hmore⟩ := event_good (i + 1) hgood.base (hgood.attached _ rfl) hwrite hread
        rw [hevent]
        exact ⟨_, rfl, update_inv h hi hs hmore⟩
  | service i a =>
    unfold enabled at hl
    unfold step
    dsimp only at hl ⊢
    cases hi : st.streams[i]? with
    | none =>
      rw [hi] at hl
      cases hl
    | some s =>
      rw [hi] at hl
      dsimp only at hl ⊢
      cases hact : act s.flow a with
      | none =>
        rw [hact] at hl
        cases hl
      | some f =>
        obtain ⟨hs, hmore⟩ := act_good (i + 1) (h.logged hi).good hact
        exact ⟨_, rfl, update_inv h hi hs hmore⟩

theorem run_inv {ls : List Label} (h : Inv st) (hrun : run st ls = some st') : Inv st' := by
  induction ls generalizing st with
  | nil =>
    cases hrun
    exact h
  | cons l ls ih =>
    rw [run] at hrun
    obtain ⟨hl, hrun⟩ := Option.ite_none_right_eq_some.mp hrun
    obtain ⟨st₁, hstep, h₁⟩ := step_inv h hl
    rw [hstep] at hrun
    exact ih h₁ hrun

/-! ## What a maintainer relies on -/

/-- What holds of the stream with the id `i + 1`, where `sent` was sent. -/
structure Safe (sent : List Packet) (i : Nat) (s : Stream) : Prop where
  /-- The file is the front of what the host gave, in its order. -/
  file : s.flow.service.written <+: s.flow.given
  /-- What was sent to the host is the front of the answer. -/
  answer : (wrtes (i + 1) sent).flatMap (·.data) <+: s.flow.service.message
  /-- A host that reads `OKAY` has its file, in whole. -/
  okay : (wrtes (i + 1) sent).flatMap (·.data) = Bytes.ascii "OKAY" →
    s.flow.total ≤ s.flow.given.length ∧ s.flow.service.written = s.flow.given.take s.flow.total
  /-- At most one packet to the host waits for its acknowledgement. -/
  paced : (wrtes (i + 1) sent).length ≤ s.flow.okays + 1
  /-- Beside the one for `A_OPEN`, at most one acknowledgement for a packet. -/
  acknowledged : (okays (i + 1) sent).length ≤ s.flow.gots + 1
  /-- A packet that is queued is not acknowledged. -/
  queued : ∀ k, s.socket = some k → (okays (i + 1) sent).length + k.queue.length ≤ s.flow.gots + 1

theorem Logged.safe (h : Logged sent i s) : Safe sent i s := by
  obtain ⟨⟨hbase, hattached⟩, htaken, hwrites, hacks⟩ := h
  have hfile : s.flow.service.written <+: s.flow.given := by
    refine List.IsPrefix.trans ?_ hbase.given
    exact (List.prefix_append _ _).trans (List.prefix_append _ _)
  have hanswer : (wrtes (i + 1) sent).flatMap (·.data) <+: s.flow.service.message := by
    rw [← htaken]
    exact hbase.taken.trans hbase.serves.reply
  refine ⟨hfile, hanswer, ?_, ?_, ?_, ?_⟩
  · intro hokay
    have hcount : s.flow.service.count = 0 := by
      by_contra hcount
      rw [hokay, Service.message, if_neg hcount] at hanswer
      exact absurd hanswer (by decide)
    have hlen := hbase.serves.complete hcount
    rw [← hlen]
    exact ⟨hfile.length_le, List.prefix_iff_eq_take.mp hfile⟩
  · rw [← hwrites]
    exact hbase.paced
  · rw [← hacks]
    exact Nat.succ_le_succ hbase.acks
  · intro k hk
    rw [← hacks, Nat.add_right_comm]
    exact Nat.succ_le_succ (hattached k hk).queued

/-- The host sends a file of three bytes. -/
def upload : List Label :=
  [.packet ⟨.cnxn, A_VERSION, MAX_PAYLOAD, Bytes.ascii "host::" ++ [0]⟩ [] true,
    .packet ⟨.opn, 7, 0, Bytes.ascii "sideload:3" ++ [0]⟩ [] true,
    .service 0 (.creat true),
    .packet ⟨.wrte, 7, 1, [80, 75]⟩ [.moved 1, .again] true,
    .packet ⟨.wrte, 7, 1, [3]⟩ [] true,
    .service 0 (.read 1),
    .event 0 (some [.moved 1, .interrupted, .moved 1]) none,
    .service 0 (.read 2),
    .service 0 .write,
    .service 0 .finish,
    .service 0 (.reply 4),
    .event 0 none (some [.moved 4, .moved 0])]

end Miui.Adb
