import MiuiRecovery.Lib.Loop
import MiuiRecovery.Lib.Bytes

/-!
# A stream of the sideload daemon

The local socket of a stream, the socket pair behind its descriptor, and the thread of `sideload_service` at the other
end (`sockets.c`, `services.c`). What the calls of `adb_read` and `adb_write` return is given.

* `writeLoop_split`, `drain_split`, `readLoop_split`: the loops around these calls lose nothing.
* `Good`: what the host gave is, one behind the other, what the service has written, what it has read, what is on its
  way to it, and what the socket has queued; at most one packet to the host is not acknowledged.
* `enqueue_good`, `event_good`, `act_good`: every operation keeps it, and its history is what it sends.
-/

namespace Miui.Adb

def MAX_PAYLOAD : Nat := 4096

inductive Command
  | sync
  | cnxn
  | opn
  | okay
  | clse
  | wrte
  | other
deriving DecidableEq

structure Packet where
  command : Command
  arg0 : Nat
  arg1 : Nat
  data : Bytes

/-- What a call of `adb_read` or `adb_write` returns: bytes, or `EAGAIN`, `EINTR` or another error. -/
inductive Io
  | moved (n : Nat)
  | again
  | interrupted
  | failed

inductive LoopEnd
  | all
  | again
  | failed
deriving DecidableEq

/-! ## The loops -/

/-- The loop of `adb_write` over a packet: what the descriptor takes, what is left, and how the loop ends. Only
`local_socket_event_func` tries again where a call was interrupted. -/
def writeLoop (retry : Bool) : List Io → Bytes → Bytes × Bytes × LoopEnd × List Io
  | [], data => ([], data, if data = [] then .all else .again, [])
  | io :: ios, data =>
    if data = [] then ([], [], .all, io :: ios)
    else match io with
      | .moved n =>
        if n = 0 then ([], data, .failed, ios)
        else
          let r := writeLoop retry ios (data.drop n)
          (data.take n ++ r.1, r.2)
      | .again => ([], data, .again, ios)
      | .interrupted => if retry then writeLoop retry ios data else ([], data, .failed, ios)
      | .failed => ([], data, .failed, ios)

/-- The loop over the packets of the queue. -/
def drain : List Io → List Bytes → Bytes × List Bytes × LoopEnd
  | _, [] => ([], [], .all)
  | ios, packet :: queue =>
    let w := writeLoop true ios packet
    match w.2.2.1 with
    | .all =>
      let r := drain w.2.2.2 queue
      (w.1 ++ r.1, r.2)
    | e => (w.1, w.2.1 :: queue, e)

/-- The loop of `adb_read` over what is there: what is read, what is left, and whether the end was met. -/
def readLoop : List Io → Nat → Bytes → Bytes × Bytes × Bool
  | [], _, src => ([], src, false)
  | io :: ios, avail, src =>
    if avail = 0 then ([], src, false)
    else match io with
      | .moved n =>
        if n = 0 then ([], src, true)
        else if src = [] then ([], src, false)
        else
          let len := min n avail
          let r := readLoop ios (avail - len) (src.drop len)
          (src.take len ++ r.1, r.2)
      | .again => ([], src, false)
      | .interrupted => readLoop ios avail src
      | .failed => ([], src, true)

theorem writeLoop_split (retry : Bool) (ios : List Io) (data : Bytes) :
    (writeLoop retry ios data).1 ++ (writeLoop retry ios data).2.1 = data ∧
      ((writeLoop retry ios data).2.2.1 = .all ↔ (writeLoop retry ios data).2.1 = []) := by
  induction ios generalizing data with
  | nil =>
    rw [writeLoop]
    by_cases hdata : data = []
    · simp [hdata]
    · simp [hdata]
  | cons io ios ih =>
    unfold writeLoop
    by_cases hdata : data = []
    · simp [hdata]
    rw [if_neg hdata]
    cases io with
    | moved n =>
      dsimp only
      by_cases hn : n = 0
      · simp [hn, hdata]
      · rw [if_neg hn]
        obtain ⟨hsplit, hend⟩ := ih (data.drop n)
        refine ⟨?_, hend⟩
        rw [List.append_assoc, hsplit, List.take_append_drop]
    | again => simp [hdata]
    | interrupted =>
      dsimp only
      by_cases hretry : retry = true
      · rw [if_pos hretry]
        exact ih data
      · rw [if_neg hretry]
        simp [hdata]
    | failed => simp [hdata]

theorem drain_split (ios : List Io) (queue : List Bytes) :
    (drain ios queue).1 ++ (drain ios queue).2.1.flatten = queue.flatten ∧
      ((drain ios queue).2.2 = .all → (drain ios queue).2.1 = []) ∧
      (drain ios queue).2.1.length ≤ queue.length := by
  induction queue generalizing ios with
  | nil => exact ⟨rfl, fun _ => rfl, Nat.le_refl _⟩
  | cons packet queue ih =>
    obtain ⟨hsplit, hend⟩ := writeLoop_split true ios packet
    rw [drain]
    dsimp only
    cases he : (writeLoop true ios packet).2.2.1 with
    | all =>
      obtain ⟨hrest, hall, hlen⟩ := ih (writeLoop true ios packet).2.2.2
      dsimp only
      rw [hend.mp he, List.append_nil] at hsplit
      refine ⟨?_, hall, Nat.le_succ_of_le hlen⟩
      rw [List.append_assoc, hrest, hsplit, List.flatten_cons]
    | again =>
      refine ⟨?_, by rintro ⟨⟩, Nat.le_refl _⟩
      rw [List.flatten_cons, ← List.append_assoc, hsplit, List.flatten_cons]
    | failed =>
      refine ⟨?_, by rintro ⟨⟩, Nat.le_refl _⟩
      rw [List.flatten_cons, ← List.append_assoc, hsplit, List.flatten_cons]

theorem readLoop_split (ios : List Io) (avail : Nat) (src : Bytes) :
    (readLoop ios avail src).1 ++ (readLoop ios avail src).2.1 = src ∧ (readLoop ios avail src).1.length ≤ avail := by
  induction ios generalizing avail src with
  | nil => exact ⟨rfl, Nat.zero_le _⟩
  | cons io ios ih =>
    unfold readLoop
    by_cases havail : avail = 0
    · rw [if_pos havail]
      exact ⟨rfl, Nat.zero_le _⟩
    rw [if_neg havail]
    cases io with
    | moved n =>
      dsimp only
      by_cases hn : n = 0
      · rw [if_pos hn]
        exact ⟨rfl, Nat.zero_le _⟩
      rw [if_neg hn]
      by_cases hsrc : src = []
      · rw [if_pos hsrc]
        exact ⟨rfl, Nat.zero_le _⟩
      rw [if_neg hsrc]
      obtain ⟨hsplit, hlen⟩ := ih (avail - min n avail) (src.drop (min n avail))
      refine ⟨?_, ?_⟩
      · rw [List.append_assoc, hsplit, List.take_append_drop]
      · rw [List.length_append, List.length_take]
        omega
    | again => exact ⟨rfl, Nat.zero_le _⟩
    | interrupted => exact ih avail src
    | failed => exact ⟨rfl, Nat.zero_le _⟩

/-! ## The service -/

inductive Phase
  | starting
  | copying
  | replying
  | closed
deriving DecidableEq

/-- The thread of `sideload_service`: `count`, `buf`, and what it has written to its file. -/
structure Service where
  phase : Phase
  count : Nat
  buffer : Bytes
  written : Bytes

/-- `(count > 4096) ? 4096 : count` -/
def Service.xfer (s : Service) : Nat := if s.count > 4096 then 4096 else s.count

/-- What the thread replies. -/
def Service.message (s : Service) : Bytes := if s.count = 0 then Bytes.ascii "OKAY" else Bytes.ascii "FAIL"

/-- What the thread does next: a call that succeeds, or that moves some bytes and then fails. -/
inductive Act
  | creat (ok : Bool)
  | read (n : Nat)
  | readFails
  | write
  | writeFails (n : Nat)
  | finish
  | reply (n : Nat)

/-! ## The stream -/

/-- A local socket: `pkt_first` and what follows it, and the events that it waits for. The remote socket is the id that
the host has for the stream. -/
structure Socket where
  queue : List Bytes
  closing : Bool
  peer : Option Nat
  read : Bool
  write : Bool

/-- The socket pair and the thread, and the history of the stream: `given` and `gots` of the packets that came for it,
`taken` and `writes` of those that it sent, `acks` and `okays` of the acknowledgements, and what the thread has
replied. -/
structure Flow where
  toService : Bytes
  toHost : Bytes
  service : Service
  total : Nat
  given : Bytes
  gots : Nat
  acks : Nat
  taken : Bytes
  writes : Nat
  okays : Nat
  reply : Bytes

/-- A stream; its socket is gone where it is destroyed. -/
structure Stream where
  socket : Option Socket
  flow : Flow

/-- A new stream, `ready`. -/
def Stream.opened (rid count : Nat) : Stream where
  socket := some ⟨[], false, some rid, true, false⟩
  flow := ⟨[], [], ⟨.starting, count, [], []⟩, count, [], 0, 0, [], 0, 0, []⟩

/-- `local_socket_close_locked`: what becomes of the socket, and the packets that are sent. -/
def Socket.close (k : Socket) : Option Socket × List Packet :=
  (if k.closing ∨ k.queue = [] then none else some { k with peer := none, closing := true, read := false },
    match k.peer with
    | none => []
    | some rid => [⟨.clse, 0, rid, []⟩])

/-- `remote_socket_disconnect` -/
def Stream.disconnect (s : Stream) : Stream :=
  match s.socket with
  | none => s
  | some k => match k.peer with
    | none => s
    | some _ => { s with socket := (Socket.close { k with peer := none }).1 }

/-- `local_socket_ready`, where the host is ready. -/
def ready (f : Flow) (k : Socket) (rid : Nat) : Stream :=
  ⟨some { k with read := true, peer := some (k.peer.getD rid) }, { f with okays := f.okays + 1 }⟩

/-- `local_socket_enqueue` of a packet from the host, and the `send_ready` behind it. -/
def enqueue (f : Flow) (k : Socket) (id rid : Nat) (ios : List Io) (data : Bytes) : Stream × List Packet :=
  let f := { f with given := f.given ++ data, gots := f.gots + 1 }
  if k.queue ≠ [] then (⟨some { k with queue := k.queue ++ [data], write := true }, f⟩, [])
  else
    let w := writeLoop false ios data
    let f := { f with toService := f.toService ++ w.1 }
    match w.2.2.1 with
    | .all => (⟨some k, { f with acks := f.acks + 1 }⟩, [⟨.okay, id, rid, []⟩])
    | .again => (⟨some { k with queue := [w.2.1], write := true }, f⟩, [])
    | .failed => (⟨k.close.1, f⟩, k.close.2)

/-- What the `FDE_WRITE` part of `local_socket_event_func` does: it returns, or it goes on with the socket, or it needs a
remote socket that is not there. -/
inductive Drained
  | returned (s : Stream) (sent : List Packet)
  | goesOn (f : Flow) (k : Socket) (sent : List Packet)
  | nullPointer

/-- The `FDE_WRITE` part of `local_socket_event_func`. -/
def drained (f : Flow) (k : Socket) (id : Nat) (ios : List Io) : Drained :=
  let w := drain ios k.queue
  let k := { k with queue := w.2.1 }
  let f := { f with toService := f.toService ++ w.1 }
  match w.2.2 with
  | .again => .returned ⟨some k, f⟩ []
  | .failed => .returned ⟨k.close.1, f⟩ k.close.2
  | .all =>
    if k.closing then .returned ⟨k.close.1, f⟩ k.close.2
    else match k.peer with
      | none => .nullPointer
      | some rid => .goesOn { f with acks := f.acks + 1 } { k with write := false } [⟨.okay, id, rid, []⟩]

/-- What is read goes to the host. -/
def forward (f : Flow) (k : Socket) (id : Nat) (bytes : Bytes) : Flow × Socket × List Packet :=
  if bytes = [] then (f, k, [])
  else match k.peer with
    | none => (f, k, [])
    | some rid =>
      ({ f with taken := f.taken ++ bytes, writes := f.writes + 1 }, { k with read := false },
        [⟨.wrte, id, rid, bytes⟩])

/-- The `FDE_READ` part. -/
def received (f : Flow) (k : Socket) (id : Nat) (ios : List Io) : Stream × List Packet :=
  let r := readLoop ios MAX_PAYLOAD f.toHost
  let w := forward { f with toHost := r.2.1 } k id r.1
  if r.2.2 then (⟨w.2.1.close.1, w.1⟩, w.2.2 ++ w.2.1.close.2) else (⟨some w.2.1, w.1⟩, w.2.2)

/-- `local_socket_event_func`, with what the calls for `FDE_WRITE` and for `FDE_READ` return; `none` is a null
pointer. -/
def event (f : Flow) (k : Socket) (id : Nat) (write read : Option (List Io)) : Option (Stream × List Packet) :=
  match write, read with
  | none, none => some (⟨some k, f⟩, [])
  | none, some ios => some (received f k id ios)
  | some ios, read => match drained f k id ios with
    | .returned s sent => some (s, sent)
    | .nullPointer => none
    | .goesOn f k sent => match read with
      | none => some (⟨some k, f⟩, sent)
      | some ios => some ((received f k id ios).1, sent ++ (received f k id ios).2)

/-- A step of the thread, where it can take it. -/
def act (f : Flow) (a : Act) : Option Flow :=
  let v := f.service
  match v.phase, a with
  | .starting, .creat ok => some { f with service := { v with phase := if ok then .copying else .closed } }
  | .copying, .read n =>
    if n ≤ v.xfer - v.buffer.length then
      some { f with service := { v with buffer := v.buffer ++ f.toService.take n }, toService := f.toService.drop n }
    else none
  | .copying, .readFails => if 0 < v.count then some { f with service := { v with phase := .replying } } else none
  | .copying, .write =>
    if 0 < v.count ∧ v.buffer.length = v.xfer then
      some { f with service := ⟨.copying, v.count - v.xfer, [], v.written ++ v.buffer⟩ }
    else none
  | .copying, .writeFails n =>
    if 0 < v.count ∧ v.buffer.length = v.xfer then
      some { f with service := ⟨.replying, v.count, v.buffer.drop n, v.written ++ v.buffer.take n⟩ }
    else none
  | .copying, .finish => if v.count = 0 then some { f with service := { v with phase := .replying } } else none
  | .replying, .reply n =>
    some { f with
      service := { v with phase := .closed }
      toHost := f.toHost ++ v.message.take n
      reply := v.message.take n }
  | _, _ => none

/-! ## What holds of a stream -/

/-- What has left the socket for the service. -/
def Flow.arrived (f : Flow) : Bytes := f.service.written ++ f.service.buffer ++ f.toService

/-- The thread: it has written what it has counted, and replies once, behind its last call. -/
structure Serves (f : Flow) : Prop where
  buffer : f.service.buffer.length ≤ f.service.xfer
  counted : f.service.phase = .starting ∨ f.service.phase = .copying →
    f.service.written.length + f.service.count = f.total
  complete : f.service.count = 0 → f.service.written.length = f.total
  silent : f.service.phase ≠ .closed → f.reply = []
  reply : f.reply <+: f.service.message

/-- What holds whatever has become of the socket. -/
structure Base (f : Flow) : Prop where
  serves : Serves f
  given : f.arrived <+: f.given
  taken : f.taken <+: f.reply
  paced : f.writes ≤ f.okays + 1
  acks : f.acks ≤ f.gots

/-- What holds with the socket `k`. -/
structure Attached (f : Flow) (k : Socket) : Prop where
  peer : k.closing = k.peer.isNone
  idle : k.write = false → k.queue = []
  given : f.arrived ++ k.queue.flatten <+: f.given
  kept : k.closing = false → f.arrived ++ k.queue.flatten = f.given
  reply : k.closing = false → f.taken ++ f.toHost = f.reply
  paced : f.writes + (if k.read then 1 else 0) ≤ f.okays + 1
  queued : f.acks + k.queue.length ≤ f.gots
  owed : k.write = true → f.acks < f.gots

structure Good (s : Stream) : Prop where
  base : Base s.flow
  attached : ∀ k, s.socket = some k → Attached s.flow k

theorem Attached.good {f : Flow} {k : Socket} (h : Attached f k) (hb : Base f) : Good ⟨some k, f⟩ := by
  refine ⟨hb, ?_⟩
  rintro k' ⟨⟩
  exact h

/-! ## What a stream sends -/

def wrtes (id : Nat) (sent : List Packet) : List Packet :=
  sent.filter fun p => decide (p.command = .wrte) && decide (p.arg0 = id)

def okays (id : Nat) (sent : List Packet) : List Packet :=
  sent.filter fun p => decide (p.command = .okay) && decide (p.arg0 = id)

/-- The packets that the stream `id` sends between two states. -/
structure Sends (id : Nat) (f f' : Flow) (sent : List Packet) : Prop where
  own : ∀ p ∈ sent, p.command = .clse ∨ p.arg0 = id
  taken : f'.taken = f.taken ++ (wrtes id sent).flatMap (·.data)
  writes : f'.writes = f.writes + (wrtes id sent).length
  acks : f'.acks = f.acks + (okays id sent).length

variable {id rid : Nat} {f f' f'' : Flow} {s : Stream} {k : Socket} {sent sent' : List Packet}

theorem Sends.none (htaken : f'.taken = f.taken) (hwrites : f'.writes = f.writes) (hacks : f'.acks = f.acks) :
    Sends id f f' [] :=
  ⟨by simp, by rw [htaken]; exact (List.append_nil _).symm, hwrites, hacks⟩

theorem Sends.trans (h : Sends id f f' sent) (h' : Sends id f' f'' sent') : Sends id f f'' (sent ++ sent') := by
  refine ⟨?_, ?_, ?_, ?_⟩
  · intro p hp
    exact (List.mem_append.mp hp).elim (h.own p) (h'.own p)
  · rw [h'.taken, h.taken, wrtes, wrtes, wrtes, List.filter_append, List.flatMap_append, List.append_assoc]
  · rw [h'.writes, h.writes, wrtes, wrtes, wrtes, List.filter_append, List.length_append, Nat.add_assoc]
  · rw [h'.acks, h.acks, okays, okays, okays, List.filter_append, List.length_append, Nat.add_assoc]

/-- A close sends nothing but `A_CLSE`. -/
theorem sends_close (k : Socket) (htaken : f'.taken = f.taken) (hwrites : f'.writes = f.writes)
    (hacks : f'.acks = f.acks) : Sends id f f' k.close.2 := by
  unfold Socket.close
  cases k.peer with
  | none => exact .none htaken hwrites hacks
  | some rid =>
    refine ⟨?_, ?_, hwrites, hacks⟩
    · intro p hp
      cases List.mem_singleton.mp hp
      exact .inl rfl
    · rw [htaken]
      exact (List.append_nil _).symm

theorem sends_okay (htaken : f'.taken = f.taken) (hwrites : f'.writes = f.writes) (hacks : f'.acks = f.acks + 1) :
    Sends id f f' [⟨.okay, id, rid, []⟩] := by
  refine ⟨?_, ?_, hwrites, ?_⟩
  · intro p hp
    cases List.mem_singleton.mp hp
    exact .inr rfl
  · rw [htaken]
    exact (List.append_nil _).symm
  · rw [hacks]
    simp [okays]

theorem sends_wrte {bytes : Bytes} (htaken : f'.taken = f.taken ++ bytes) (hwrites : f'.writes = f.writes + 1)
    (hacks : f'.acks = f.acks) : Sends id f f' [⟨.wrte, id, rid, bytes⟩] := by
  refine ⟨?_, ?_, ?_, hacks⟩
  · intro p hp
    cases List.mem_singleton.mp hp
    exact .inr rfl
  · rw [htaken]
    simp [wrtes]
  · rw [hwrites]
    simp [wrtes]

/-! ## The operations -/

theorem Serves.of_eq (h : Serves f) (hservice : f'.service = f.service) (htotal : f'.total = f.total)
    (hreply : f'.reply = f.reply) : Serves f' := by
  obtain ⟨hbuffer, hcounted, hcomplete, hsilent, hmessage⟩ := h
  constructor
  all_goals rw [hservice]
  · exact hbuffer
  · rw [htotal]
    exact hcounted
  · rw [htotal]
    exact hcomplete
  · rw [hreply]
    exact hsilent
  · rw [hreply]
    exact hmessage

/-- What a loop of `adb_write` took is behind what had arrived. -/
theorem arrived_append (f : Flow) (bs : Bytes) : Flow.arrived { f with toService := f.toService ++ bs } = f.arrived ++ bs :=
  (List.append_assoc ..).symm

theorem close_gone (hqueue : k.queue = []) : k.close.1 = none := by
  unfold Socket.close
  exact if_pos (.inr hqueue)

theorem close_good (hb : Base f) (hk : Attached f k) : Good ⟨k.close.1, f⟩ := by
  unfold Socket.close
  dsimp only
  by_cases hgone : k.closing = true ∨ k.queue = []
  · rw [if_pos hgone]
    exact ⟨hb, by rintro k' ⟨⟩⟩
  · rw [if_neg hgone]
    refine Attached.good ⟨rfl, hk.idle, hk.given, ?_, ?_, hb.paced, hk.queued, hk.owed⟩ hb
    · rintro ⟨⟩
    · rintro ⟨⟩

theorem disconnect_good (hs : Good s) : Good s.disconnect ∧ s.disconnect.flow = s.flow := by
  unfold Stream.disconnect
  cases hk : s.socket with
  | none => exact ⟨hs, rfl⟩
  | some k =>
    dsimp only
    cases hpeer : k.peer with
    | none => exact ⟨hs, rfl⟩
    | some rid =>
      refine ⟨?_, rfl⟩
      unfold Socket.close
      dsimp only
      have hattached := hs.attached k hk
      by_cases hgone : k.closing = true ∨ k.queue = []
      · rw [if_pos hgone]
        exact ⟨hs.base, by rintro k' ⟨⟩⟩
      · rw [if_neg hgone]
        refine Attached.good ⟨rfl, hattached.idle, hattached.given, ?_, ?_, hs.base.paced, hattached.queued,
          hattached.owed⟩ hs.base
        · rintro ⟨⟩
        · rintro ⟨⟩

theorem opened_good (rid count : Nat) : Good (.opened rid count) := by
  refine Attached.good ⟨rfl, fun _ => rfl, List.nil_prefix, fun _ => rfl, fun _ => rfl, Nat.le_refl _, Nat.le_refl _, ?_⟩
    ⟨⟨Nat.zero_le _, fun _ => Nat.zero_add _, ?_, fun _ => rfl, List.nil_prefix⟩, List.nil_prefix, List.nil_prefix,
      Nat.zero_le _, Nat.le_refl _⟩
  · rintro ⟨⟩
  · exact fun hcount => Eq.symm hcount

variable (id)

theorem ready_good (hb : Base f) (hk : Attached f k) (hactive : k.closing = false) (rid : Nat) :
    Good (ready f k rid) ∧ Sends id f (ready f k rid).flow [] := by
  refine ⟨Attached.good ⟨hactive, hk.idle, hk.given, hk.kept, hk.reply, ?_, hk.queued, hk.owed⟩
    ⟨hb.serves.of_eq rfl rfl rfl, hb.given, hb.taken, ?_, hb.acks⟩, .none rfl rfl rfl⟩
  · exact Nat.succ_le_succ hb.paced
  · exact Nat.le_succ_of_le hb.paced

theorem enqueue_good (hb : Base f) (hk : Attached f k) (hactive : k.closing = false) (ios : List Io) (data : Bytes) :
    Good (enqueue f k id rid ios data).1 ∧
      Sends id f (enqueue f k id rid ios data).1.flow (enqueue f k id rid ios data).2 := by
  have hkept := hk.kept hactive
  unfold enqueue
  dsimp only
  by_cases hqueue : k.queue = []
  · rw [if_neg (not_not_intro hqueue)]
    obtain ⟨hsplit, hend⟩ := writeLoop_split false ios data
    have harrived : f.arrived = f.given := by rw [← hkept, hqueue]; exact (List.append_nil _).symm
    have hnow : ∀ bs, Flow.arrived { f with
        toService := f.toService ++ bs, given := f.given ++ data, gots := f.gots + 1 } = f.given ++ bs := by
      intro bs
      rw [← harrived]
      exact arrived_append f bs
    cases he : (writeLoop false ios data).2.2.1 with
    | all =>
      rw [hend.mp he, List.append_nil] at hsplit
      have hall := hnow (writeLoop false ios data).1
      rw [hsplit] at hall
      rw [hsplit]
      refine ⟨Attached.good ⟨hk.peer, hk.idle, ?_, ?_, hk.reply, hk.paced, ?_, ?_⟩
        ⟨hb.serves.of_eq rfl rfl rfl, ?_, hb.taken, hb.paced, Nat.succ_le_succ hb.acks⟩, sends_okay rfl rfl rfl⟩
      · rw [hqueue]
        exact ⟨[], (List.append_nil _).trans ((List.append_nil _).trans hall)⟩
      · intro _
        rw [hqueue]
        exact (List.append_nil _).trans hall
      · rw [hqueue]
        exact Nat.succ_le_succ hb.acks
      · exact fun hwrite => Nat.succ_lt_succ (hk.owed hwrite)
      · exact ⟨[], (List.append_nil _).trans hall⟩
    | again =>
      have hrest : f.given ++ (writeLoop false ios data).1 ++ [(writeLoop false ios data).2.1].flatten
          = f.given ++ data := by
        rw [List.flatten_singleton, List.append_assoc, hsplit]
      rw [← hnow] at hrest
      refine ⟨Attached.good ⟨hk.peer, by rintro ⟨⟩, ⟨[], (List.append_nil _).trans hrest⟩, fun _ => hrest, hk.reply, hk.paced,
        Nat.succ_le_succ hb.acks, fun _ => Nat.lt_succ_of_le hb.acks⟩
        ⟨hb.serves.of_eq rfl rfl rfl, ?_, hb.taken, hb.paced, Nat.le_succ_of_le hb.acks⟩, .none rfl rfl rfl⟩
      exact ⟨_, hrest⟩
    | failed =>
      dsimp only
      rw [close_gone hqueue]
      refine ⟨⟨⟨hb.serves.of_eq rfl rfl rfl, ?_, hb.taken, hb.paced, Nat.le_succ_of_le hb.acks⟩, by rintro k' ⟨⟩⟩,
        sends_close k rfl rfl rfl⟩
      have hrest : f.given ++ (writeLoop false ios data).1 ++ (writeLoop false ios data).2.1 = f.given ++ data := by
        rw [List.append_assoc, hsplit]
      rw [← hnow] at hrest
      exact ⟨_, hrest⟩
  · rw [if_pos hqueue]
    have hrest : f.arrived ++ (k.queue ++ [data]).flatten = f.given ++ data := by
      rw [List.flatten_append, List.flatten_singleton, ← List.append_assoc, hkept]
    refine ⟨Attached.good ⟨hk.peer, by rintro ⟨⟩, ⟨[], (List.append_nil _).trans hrest⟩, fun _ => hrest, hk.reply, hk.paced, ?_,
      fun _ => Nat.lt_succ_of_le hb.acks⟩
      ⟨hb.serves.of_eq rfl rfl rfl, ?_, hb.taken, hb.paced, Nat.le_succ_of_le hb.acks⟩, .none rfl rfl rfl⟩
    · rw [List.length_append]
      exact Nat.succ_le_succ hk.queued
    · exact hb.given.trans (List.prefix_append _ _)

/-- What a call of `drain` leaves, whichever way it ends. -/
theorem drain_attached (hb : Base f) (hk : Attached f k) (hwrite : k.write = true) (ios : List Io) :
    Base { f with toService := f.toService ++ (drain ios k.queue).1 } ∧
      Attached { f with toService := f.toService ++ (drain ios k.queue).1 }
        { k with queue := (drain ios k.queue).2.1 } := by
  obtain ⟨hsplit, _, hlen⟩ := drain_split ios k.queue
  have hnow := arrived_append f (drain ios k.queue).1
  have hrest : Flow.arrived { f with toService := f.toService ++ (drain ios k.queue).1 }
      ++ (drain ios k.queue).2.1.flatten = f.arrived ++ k.queue.flatten := by
    rw [hnow, List.append_assoc, hsplit]
  refine ⟨⟨hb.serves.of_eq rfl rfl rfl, ?_, hb.taken, hb.paced, hb.acks⟩, hk.peer, ?_, ?_, ?_, hk.reply, hk.paced, ?_,
    hk.owed⟩
  · exact (List.prefix_append _ _).trans (hrest ▸ hk.given)
  · exact fun hidle => absurd hwrite (by rw [show k.write = false from hidle]; exact Bool.false_ne_true)
  · exact hrest ▸ hk.given
  · exact fun hactive => hrest.trans (hk.kept hactive)
  · exact (Nat.add_le_add_left hlen _).trans hk.queued

/-- What the `FDE_WRITE` part leaves: it always has a remote socket to tell. -/
theorem drained_good (hb : Base f) (hk : Attached f k) (hwrite : k.write = true) (ios : List Io) :
    match drained f k id ios with
    | .returned s sent => Good s ∧ Sends id f s.flow sent
    | .goesOn f' k' sent => Base f' ∧ Attached f' k' ∧ k'.read = k.read ∧ k'.closing = k.closing ∧ Sends id f f' sent
    | .nullPointer => False := by
  obtain ⟨hb', hk'⟩ := drain_attached hb hk hwrite ios
  obtain ⟨_, hall, _⟩ := drain_split ios k.queue
  unfold drained
  dsimp only
  cases he : (drain ios k.queue).2.2 with
  | again => exact ⟨hk'.good hb', .none rfl rfl rfl⟩
  | failed => exact ⟨close_good hb' hk', sends_close _ rfl rfl rfl⟩
  | all =>
    dsimp only
    have hempty := hall he
    by_cases hclosing : k.closing = true
    · rw [if_pos hclosing]
      exact ⟨close_good hb' hk', sends_close _ rfl rfl rfl⟩
    rw [if_neg hclosing]
    have hpeer := hk.peer
    cases hrid : k.peer with
    | none =>
      rw [hrid] at hpeer
      exact hclosing hpeer
    | some rid =>
      rw [hrid] at hpeer
      dsimp only
      refine ⟨⟨hb.serves.of_eq rfl rfl rfl, hb'.given, hb.taken, hb.paced, hk.owed hwrite⟩,
        ⟨hpeer, fun _ => hempty, hk'.given, hk'.kept, hk'.reply, hk'.paced, ?_, by rintro ⟨⟩⟩, rfl, rfl,
        sends_okay rfl rfl rfl⟩
      show f.acks + 1 + (drain ios k.queue).2.1.length ≤ f.gots
      rw [hempty]
      exact hk.owed hwrite

/-- What is read is behind what the host has: it is sent, or the host has gone. -/
theorem forward_good {rest : Bytes} (hb : Base f) (hk : Attached f k) (hread : k.read = true ∨ k.closing = true)
    (bytes : Bytes) (hsplit : bytes ++ rest = f.toHost) :
    Base (forward { f with toHost := rest } k id bytes).1 ∧
      Attached (forward { f with toHost := rest } k id bytes).1 (forward { f with toHost := rest } k id bytes).2.1 ∧
      Sends id f (forward { f with toHost := rest } k id bytes).1 (forward { f with toHost := rest } k id bytes).2.2 := by
  unfold forward
  by_cases hbytes : bytes = []
  · rw [if_pos hbytes]
    rw [hbytes, List.nil_append] at hsplit
    refine ⟨⟨hb.serves.of_eq rfl rfl rfl, hb.given, hb.taken, hb.paced, hb.acks⟩,
      ⟨hk.peer, hk.idle, hk.given, hk.kept, ?_, hk.paced, hk.queued, hk.owed⟩, .none rfl rfl rfl⟩
    rw [hsplit]
    exact hk.reply
  rw [if_neg hbytes]
  have hpeer := hk.peer
  cases hrid : k.peer with
  | none =>
    rw [hrid] at hpeer
    refine ⟨⟨hb.serves.of_eq rfl rfl rfl, hb.given, hb.taken, hb.paced, hb.acks⟩,
      ⟨hk.peer, hk.idle, hk.given, hk.kept, ?_, hk.paced, hk.queued, hk.owed⟩, .none rfl rfl rfl⟩
    exact fun hactive => absurd (hpeer.symm.trans hactive) (by simp)
  | some rid =>
    rw [hrid] at hpeer
    have hactive : k.closing = false := hpeer
    have hgoes : k.read = true := hread.resolve_right (by simp [hactive])
    have hpaced := hk.paced
    rw [if_pos hgoes] at hpaced
    have hreply : f.taken ++ bytes ++ rest = f.reply := by rw [List.append_assoc, hsplit, hk.reply hactive]
    dsimp only
    exact ⟨⟨hb.serves.of_eq rfl rfl rfl, hb.given, ⟨_, hreply⟩, hpaced, hb.acks⟩,
      ⟨hpeer, hk.idle, hk.given, hk.kept, fun _ => hreply, hpaced, hk.queued, hk.owed⟩, sends_wrte rfl rfl rfl⟩

theorem received_good (hb : Base f) (hk : Attached f k) (hread : k.read = true ∨ k.closing = true) (ios : List Io) :
    Good (received f k id ios).1 ∧ Sends id f (received f k id ios).1.flow (received f k id ios).2 := by
  obtain ⟨hb', hk', hsends⟩ := forward_good id hb hk hread _ (readLoop_split ios MAX_PAYLOAD f.toHost).1
  unfold received
  dsimp only
  by_cases heof : (readLoop ios MAX_PAYLOAD f.toHost).2.2 = true
  · rw [if_pos heof]
    exact ⟨close_good hb' hk', hsends.trans (sends_close _ rfl rfl rfl)⟩
  · rw [if_neg heof]
    exact ⟨hk'.good hb', hsends⟩

/-- An event that the socket waits for never meets a null pointer. -/
theorem event_good (hb : Base f) (hk : Attached f k) {write read : Option (List Io)} (hwrite : write.isSome → k.write = true)
    (hread : read.isSome → k.read = true ∨ k.closing = true) :
    ∃ s sent, event f k id write read = some (s, sent) ∧ Good s ∧ Sends id f s.flow sent := by
  unfold event
  cases write with
  | none =>
    cases read with
    | none => exact ⟨_, _, rfl, hk.good hb, .none rfl rfl rfl⟩
    | some ios => exact ⟨_, _, rfl, received_good id hb hk (hread rfl) ios⟩
  | some ios =>
    have hdrained := drained_good id hb hk (hwrite rfl) ios
    dsimp only
    cases hd : drained f k id ios with
    | returned s sent =>
      rw [hd] at hdrained
      exact ⟨s, sent, rfl, hdrained⟩
    | nullPointer =>
      rw [hd] at hdrained
      exact hdrained.elim
    | goesOn f' k' sent =>
      rw [hd] at hdrained
      obtain ⟨hb', hk', hsame, hsame', hsends⟩ := hdrained
      cases read with
      | none => exact ⟨_, _, rfl, hk'.good hb', hsends⟩
      | some ios' =>
        obtain ⟨hgood, hsends'⟩ := received_good id hb' hk' (by rw [hsame, hsame']; exact hread rfl) ios'
        exact ⟨_, _, rfl, hgood, hsends.trans hsends'⟩

/-- What a step of the thread does: it moves bytes that had arrived, and answers behind what it has answered. -/
structure Acts (f f' : Flow) : Prop where
  serves : Serves f'
  arrived : f'.arrived = f.arrived
  answer : ∃ more, f'.reply = f.reply ++ more ∧ f'.toHost = f.toHost ++ more
  given : f'.given = f.given
  gots : f'.gots = f.gots
  acks : f'.acks = f.acks
  taken : f'.taken = f.taken
  writes : f'.writes = f.writes
  okays : f'.okays = f.okays

theorem xfer_le (v : Service) : v.xfer ≤ v.count := by
  unfold Service.xfer
  by_cases hcount : v.count > 4096
  · rw [if_pos hcount]
    exact Nat.le_of_lt hcount
  · rw [if_neg hcount]

theorem act_cases {a : Act} (hf : Serves f) (hact : act f a = some f') : Acts f f' := by
  obtain ⟨hbuffer, hcounted, hcomplete, hsilent, hmessage⟩ := hf
  have hnone : ∃ more, f.reply = f.reply ++ more ∧ f.toHost = f.toHost ++ more :=
    ⟨[], (List.append_nil _).symm, (List.append_nil _).symm⟩
  have hquiet : f.service.phase = .starting ∨ f.service.phase = .copying → f.reply = [] := by
    rintro (hphase | hphase)
    · exact hsilent (by rw [hphase]; simp)
    · exact hsilent (by rw [hphase]; simp)
  unfold act at hact
  dsimp only at hact
  split at hact
  case h_1 ok hphase =>
    cases hact
    refine ⟨⟨hbuffer, fun _ => hcounted (.inl hphase), hcomplete, fun _ => hquiet (.inl hphase), hmessage⟩, rfl, hnone,
      rfl, rfl, rfl, rfl, rfl, rfl⟩
  case h_2 n hphase =>
    obtain ⟨hn, hact⟩ := Option.ite_none_right_eq_some.mp hact
    cases hact
    refine ⟨⟨?_, hcounted, hcomplete, hsilent, hmessage⟩, ?_, hnone, rfl, rfl, rfl, rfl, rfl, rfl⟩
    · show (f.service.buffer ++ f.toService.take n).length ≤ f.service.xfer
      rw [List.length_append, List.length_take]
      omega
    · show f.service.written ++ (f.service.buffer ++ f.toService.take n) ++ f.toService.drop n = f.arrived
      rw [← List.append_assoc, List.append_assoc, List.take_append_drop]
      rfl
  case h_3 hphase =>
    obtain ⟨hcount, hact⟩ := Option.ite_none_right_eq_some.mp hact
    cases hact
    refine ⟨⟨hbuffer, by rintro (⟨⟨⟩⟩ | ⟨⟨⟩⟩), hcomplete, fun _ => hquiet (.inr hphase), hmessage⟩, rfl, hnone, rfl, rfl,
      rfl, rfl, rfl, rfl⟩
  case h_4 hphase =>
    obtain ⟨⟨hcount, hfull⟩, hact⟩ := Option.ite_none_right_eq_some.mp hact
    cases hact
    have hle := xfer_le f.service
    have hsum : (f.service.written ++ f.service.buffer).length + (f.service.count - f.service.xfer) = f.total := by
      rw [List.length_append, hfull, ← hcounted (.inr hphase)]
      omega
    refine ⟨⟨Nat.zero_le _, fun _ => hsum, ?_, fun _ => hquiet (.inr hphase), ?_⟩, ?_, hnone, rfl, rfl, rfl, rfl, rfl, rfl⟩
    · intro hdone
      rw [show f.service.count - f.service.xfer = 0 from hdone] at hsum
      exact hsum
    · show f.reply <+: _
      rw [hquiet (.inr hphase)]
      exact List.nil_prefix
    · show f.service.written ++ f.service.buffer ++ [] ++ f.toService = f.arrived
      rw [List.append_nil]
      rfl
  case h_5 n hphase =>
    obtain ⟨⟨hcount, hfull⟩, hact⟩ := Option.ite_none_right_eq_some.mp hact
    cases hact
    refine ⟨⟨?_, by rintro (⟨⟨⟩⟩ | ⟨⟨⟩⟩), ?_, fun _ => hquiet (.inr hphase), hmessage⟩, ?_, hnone, rfl, rfl, rfl, rfl, rfl,
      rfl⟩
    · show (f.service.buffer.drop n).length ≤ f.service.xfer
      rw [List.length_drop]
      exact (Nat.sub_le ..).trans hbuffer
    · exact fun hdone => absurd (show f.service.count = 0 from hdone) hcount.ne'
    · show f.service.written ++ f.service.buffer.take n ++ f.service.buffer.drop n ++ f.toService = f.arrived
      rw [List.append_assoc f.service.written, List.take_append_drop]
      rfl
  case h_6 hphase =>
    obtain ⟨hcount, hact⟩ := Option.ite_none_right_eq_some.mp hact
    cases hact
    refine ⟨⟨hbuffer, by rintro (⟨⟨⟩⟩ | ⟨⟨⟩⟩), hcomplete, fun _ => hquiet (.inr hphase), hmessage⟩, rfl, hnone, rfl, rfl,
      rfl, rfl, rfl, rfl⟩
  case h_7 n hphase =>
    cases hact
    have hreply := hsilent (by rw [hphase]; simp)
    refine ⟨⟨hbuffer, by rintro (⟨⟨⟩⟩ | ⟨⟨⟩⟩), hcomplete, fun h => absurd rfl h, List.take_prefix _ _⟩, rfl,
      ⟨f.service.message.take n, ?_, rfl⟩, rfl, rfl, rfl, rfl, rfl, rfl⟩
    rw [hreply]
    rfl
  case h_8 => cases hact

/-- A step of the thread keeps the stream, whatever has become of the socket. -/
theorem act_good {a : Act} (hs : Good s) (hact : act s.flow a = some f') : Good ⟨s.socket, f'⟩ ∧ Sends id s.flow f' [] := by
  obtain ⟨⟨hserves, hgiven, htaken, hpaced, hacks⟩, hattached⟩ := hs
  obtain ⟨hserves', harrived, ⟨more, hreply, hhost⟩, hgiven', hgots', hacks', htaken', hwrites', hokays'⟩ :=
    act_cases hserves hact
  refine ⟨⟨⟨hserves', ?_, ?_, ?_, ?_⟩, ?_⟩, .none htaken' hwrites' hacks'⟩
  · rw [harrived, hgiven']
    exact hgiven
  · rw [htaken', hreply]
    exact htaken.trans (List.prefix_append _ _)
  · rw [hwrites', hokays']
    exact hpaced
  · rw [hacks', hgots']
    exact hacks
  · intro k hk
    obtain ⟨hpeer, hidle, hkgiven, hkept, hkreply, hkpaced, hqueued, howed⟩ := hattached k hk
    refine ⟨hpeer, hidle, ?_, ?_, ?_, ?_, ?_, ?_⟩
    · rw [harrived, hgiven']
      exact hkgiven
    · rw [harrived, hgiven']
      exact hkept
    · intro hactive
      rw [htaken', hreply, hhost, ← List.append_assoc, hkreply hactive]
    · rw [hwrites', hokays']
      exact hkpaced
    · rw [hacks', hgots']
      exact hqueued
    · rw [hacks', hgots']
      exact howed

end Miui.Adb
