import MiuiRecovery.Adb.Sideload
import MiuiRecovery.Adb.Transport

/-!
# The daemon on the wire

The packets of `handle_packet` are those of the transport, and what the daemon sends fits into their words.

* `Fits`, `handlePacket_fits`, `step_fits`, `run_fits`: the numbers and the data of every packet that is sent.
* `sideload_wire`: the host reads from the wire what a run has sent, and an `OKAY` in it stands for a whole file.
-/

namespace Miui.Adb

def Command.word : Command → Nat
  | .sync => A_SYNC
  | .cnxn => A_CNXN
  | .opn => A_OPEN
  | .okay => A_OKAY
  | .clse => A_CLSE
  | .wrte => A_WRTE
  | .other => 0

/-- What `handle_packet` takes a command for. -/
def Command.ofWord (command : Nat) : Command :=
  if command = A_SYNC then .sync
  else if command = A_CNXN then .cnxn
  else if command = A_OPEN then .opn
  else if command = A_OKAY then .okay
  else if command = A_CLSE then .clse
  else if command = A_WRTE then .wrte
  else .other

/-- A packet of the transport, as it is handled. -/
def APacket.packet (p : APacket) : Packet := ⟨.ofWord p.msg.command, p.msg.arg0, p.msg.arg1, p.data⟩

/-- `send_packet` of a packet of the daemon. -/
def Packet.frame (p : Packet) : APacket := sendPacket p.command.word p.arg0 p.arg1 p.data

theorem ofWord_word {c : Command} (hc : c ≠ .other) : Command.ofWord c.word = c := by
  cases c with
  | other => exact absurd rfl hc
  | _ => rfl

theorem packet_frame {p : Packet} (hp : p.command ≠ .other) : p.frame.packet = p := by
  unfold Packet.frame APacket.packet sendPacket
  rw [ofWord_word hp]

/-! ## What is sent -/

/-- A packet that the daemon sends by itself, with ids up to `n`. -/
structure Fits (n : Nat) (p : Packet) : Prop where
  command : p.command ≠ .sync ∧ p.command ≠ .other
  arg0 : p.arg0 < 2 ^ 32 ∨ p.arg0 ≤ n
  arg1 : p.arg1 < 2 ^ 32
  data : p.data.length ≤ MAX_PAYLOAD

/-- The host's id of a socket is a word. -/
def Peered (k : Socket) : Prop := ∀ rid, k.peer = some rid → rid < 2 ^ 32

/-- The socket of a stream is peered, and what it sends fits. -/
structure Speaks (id : Nat) (socket : Option Socket) (sent : List Packet) : Prop where
  peered : ∀ k, socket = some k → Peered k
  fits : ∀ p ∈ sent, Fits id p

variable {st st' : State} {id rid i n : Nat} {s : Stream} {f : Flow} {k : Socket} {sent : List Packet}

theorem Fits.mono {m : Nat} {p : Packet} (h : Fits n p) (hnm : n ≤ m) : Fits m p :=
  ⟨h.command, h.arg0.imp_right fun hle => hle.trans hnm, h.arg1, h.data⟩

theorem speaks_nil (hk : Peered k) : Speaks id (some k) [] := by
  refine ⟨?_, by simp⟩
  rintro k' ⟨⟩
  exact hk

theorem speaks_one {p : Packet} (hk : Peered k) (hp : Fits id p) : Speaks id (some k) [p] := by
  constructor
  · rintro k' ⟨⟩
    exact hk
  · intro q hq
    cases List.mem_singleton.mp hq
    exact hp

theorem Speaks.append {socket socket' : Option Socket} {more : List Packet} (h : Speaks id socket sent)
    (h' : Speaks id socket' more) : Speaks id socket' (sent ++ more) :=
  ⟨h'.peered, fun p hp => (List.mem_append.mp hp).elim (h.fits p) (h'.fits p)⟩

theorem close_speaks (hk : Peered k) : Speaks id k.close.1 k.close.2 := by
  unfold Socket.close
  dsimp only
  constructor
  · intro k' hk'
    split at hk'
    · cases hk'
    · cases hk'
      rintro rid ⟨⟩
  · intro p hp
    cases hpeer : k.peer with
    | none =>
      rw [hpeer] at hp
      cases hp
    | some rid =>
      rw [hpeer] at hp
      cases List.mem_singleton.mp hp
      exact ⟨⟨by simp, by simp⟩, .inr (Nat.zero_le _), hk rid hpeer, Nat.zero_le _⟩

theorem okay_fits (hrid : rid < 2 ^ 32) : Fits id ⟨.okay, id, rid, []⟩ :=
  ⟨⟨by simp, by simp⟩, .inr (Nat.le_refl _), hrid, Nat.zero_le _⟩

theorem ready_speaks (hk : Peered k) (hrid : rid < 2 ^ 32) : Speaks id (ready f k rid).socket [] := by
  refine speaks_nil ?_
  rintro rid' ⟨⟩
  cases hpeer : k.peer with
  | none => exact hrid
  | some rid => exact hk rid hpeer

theorem enqueue_speaks (hk : Peered k) (hrid : rid < 2 ^ 32) (ios : List Io) (data : Bytes) :
    Speaks id (enqueue f k id rid ios data).1.socket (enqueue f k id rid ios data).2 := by
  unfold enqueue
  dsimp only
  by_cases hqueue : k.queue = []
  · rw [if_neg (not_not_intro hqueue)]
    cases (writeLoop false ios data).2.2.1 with
    | all => exact speaks_one hk (okay_fits hrid)
    | again => exact speaks_nil hk
    | failed => exact close_speaks hk
  · rw [if_pos hqueue]
    exact speaks_nil hk

variable (id)

theorem drained_speaks (hk : Peered k) (ios : List Io) :
    match drained f k id ios with
    | .returned s sent => Speaks id s.socket sent
    | .goesOn _ k' sent => Speaks id (some k') sent
    | .nullPointer => True := by
  unfold drained
  dsimp only
  cases (drain ios k.queue).2.2 with
  | again => exact speaks_nil hk
  | failed => exact close_speaks hk
  | all =>
    dsimp only
    by_cases hclosing : k.closing = true
    · rw [if_pos hclosing]
      exact close_speaks hk
    · rw [if_neg hclosing]
      cases hpeer : k.peer with
      | none => trivial
      | some rid =>
        refine speaks_one ?_ (okay_fits (hk rid hpeer))
        rintro rid' ⟨⟩
        exact hk _ hpeer

theorem forward_speaks (hk : Peered k) {bytes : Bytes} (hbytes : bytes.length ≤ MAX_PAYLOAD) :
    Speaks id (some (forward f k id bytes).2.1) (forward f k id bytes).2.2 := by
  unfold forward
  by_cases hempty : bytes = []
  · rw [if_pos hempty]
    exact speaks_nil hk
  · rw [if_neg hempty]
    cases hpeer : k.peer with
    | none => exact speaks_nil hk
    | some rid =>
      refine speaks_one ?_ ⟨⟨by simp, by simp⟩, .inr (Nat.le_refl _), hk rid hpeer, hbytes⟩
      rintro rid' ⟨⟩
      exact hk _ hpeer

theorem received_speaks (hk : Peered k) (ios : List Io) :
    Speaks id (received f k id ios).1.socket (received f k id ios).2 := by
  have hforward := forward_speaks id (f := { f with toHost := (readLoop ios MAX_PAYLOAD f.toHost).2.1 }) hk
    (readLoop_split ios MAX_PAYLOAD f.toHost).2
  unfold received
  dsimp only
  by_cases heof : (readLoop ios MAX_PAYLOAD f.toHost).2.2 = true
  · rw [if_pos heof]
    exact hforward.append (close_speaks (hforward.peered _ rfl))
  · rw [if_neg heof]
    exact hforward

theorem event_speaks (hk : Peered k) {write read : Option (List Io)} (h : event f k id write read = some (s, sent)) :
    Speaks id s.socket sent := by
  unfold event at h
  cases write with
  | none =>
    cases read with
    | none =>
      cases h
      exact speaks_nil hk
    | some ios =>
      have hreceived := received_speaks id (f := f) hk ios
      rw [Option.some.inj h] at hreceived
      exact hreceived
  | some ios =>
    have hdrained := drained_speaks id (f := f) hk ios
    dsimp only at h
    cases hd : drained f k id ios with
    | returned s' sent' =>
      rw [hd] at hdrained h
      cases h
      exact hdrained
    | nullPointer =>
      rw [hd] at h
      cases h
    | goesOn f' k' sent' =>
      rw [hd] at hdrained h
      cases read with
      | none =>
        cases h
        exact hdrained
      | some ios' =>
        cases h
        exact hdrained.append (received_speaks id (hdrained.peered _ rfl) ios')

/-! ## Runs -/

/-- What the daemon has sent so far, behind `start`. -/
structure Fitting (start : List Packet) (st : State) : Prop where
  peered : ∀ s ∈ st.streams, ∀ k, s.socket = some k → Peered k
  sent : ∃ more, st.sent = start ++ more ∧ ∀ p ∈ more, Fits st.streams.length p

variable {id} {start : List Packet}

theorem say_fits {p : Packet} (h : Fitting start st) (hp : Fits st.streams.length p) : Fitting start (st.say p) := by
  obtain ⟨hpeered, more, hsent, hfits⟩ := h
  refine ⟨hpeered, more ++ [p], ?_, ?_⟩
  · rw [State.say, hsent, List.append_assoc]
  · intro q hq
    rcases List.mem_append.mp hq with hq | hq
    · exact hfits q hq
    · cases List.mem_singleton.mp hq
      exact hp

theorem update_fits {r : Stream × List Packet} (h : Fitting start st) (hi : i < st.streams.length)
    (hr : Speaks (i + 1) r.1.socket r.2) : Fitting start (st.update i r) := by
  obtain ⟨hpeered, more, hsent, hfits⟩ := h
  constructor
  · intro s hs
    rcases List.mem_or_eq_of_mem_set hs with hs | rfl
    · exact hpeered s hs
    · exact hr.peered
  · refine ⟨more ++ r.2, ?_, ?_⟩
    · rw [State.update, hsent, List.append_assoc]
    · have hlen : (st.update i r).streams.length = st.streams.length := List.length_set
      rw [hlen]
      intro p hp
      rcases List.mem_append.mp hp with hp | hp
      · exact hfits p hp
      · exact (hr.fits p hp).mono hi

theorem offline_fits (h : Fitting start st) : Fitting start st.offline := by
  obtain ⟨hpeered, more, hsent, hfits⟩ := h
  constructor
  · intro s hs
    obtain ⟨t, ht, rfl⟩ := List.mem_map.mp hs
    unfold Stream.disconnect
    cases hk : t.socket with
    | none =>
      intro k hsome
      exact absurd (hk.symm.trans hsome) (by simp)
    | some k =>
      dsimp only
      cases hpeer : k.peer with
      | none => exact hpeered t ht
      | some rid =>
        have hnone : Peered { k with peer := none } := by
          rintro rid' ⟨⟩
        intro k' hk'
        exact (@close_speaks 0 _ hnone).peered k' hk'
  · have hlen : st.offline.streams.length = st.streams.length := List.length_map _
    rw [hlen]
    exact ⟨more, hsent, hfits⟩

theorem open_fits (h : Fitting start st) {count : Nat} (hrid : rid < 2 ^ 32) :
    Fitting start { st with
      streams := st.streams ++ [.opened rid count]
      sent := st.sent ++ [⟨.okay, st.streams.length + 1, rid, []⟩] } := by
  obtain ⟨hpeered, more, hsent, hfits⟩ := h
  constructor
  · intro s hs
    rcases List.mem_append.mp hs with hs | hs
    · exact hpeered s hs
    · cases List.mem_singleton.mp hs
      rintro k ⟨⟩ rid' ⟨⟩
      exact hrid
  · refine ⟨more ++ [⟨.okay, st.streams.length + 1, rid, []⟩], ?_, ?_⟩
    · rw [hsent, List.append_assoc]
    · have hlen : (st.streams ++ [Stream.opened rid count]).length = st.streams.length + 1 := by simp
      rw [hlen]
      intro p hp
      rcases List.mem_append.mp hp with hp | hp
      · exact (hfits p hp).mono (Nat.le_succ _)
      · cases List.mem_singleton.mp hp
        exact okay_fits hrid

theorem find_peered (h : Fitting start st) (hfind : st.find id = some (f, k)) :
    ∃ i, id = i + 1 ∧ i < st.streams.length ∧ Peered k := by
  obtain ⟨i, hi, hs, _⟩ := find_eq_some hfind
  exact ⟨i, hi, (List.getElem?_eq_some_iff.mp hs).choose, h.peered _ (List.mem_of_getElem? hs) k rfl⟩

/-- A packet of the host on a transport that stays up. -/
def Heard (p : Packet) : Prop := p.command ≠ .sync ∧ p.arg0 < 2 ^ 32

def Label.Up : Label → Prop
  | .packet p _ _ => Heard p
  | _ => True

theorem handlePacket_fits (h : Fitting start st) {p : Packet} (hp : Heard p) (ios : List Io) (created : Bool) :
    Fitting start (handlePacket st p ios created) := by
  obtain ⟨hsync, harg0⟩ := hp
  unfold handlePacket
  cases hcommand : p.command with
  | sync => exact absurd hcommand hsync
  | cnxn =>
    dsimp only
    have hst : Fitting start (if st.online then st.offline else st) := by
      by_cases honline : st.online = true
      · rw [if_pos honline]
        exact offline_fits h
      · rw [if_neg honline]
        exact h
    exact say_fits ⟨hst.peered, hst.sent⟩ ⟨⟨by simp, by simp⟩, .inl (by decide), by decide, by decide⟩
  | opn =>
    dsimp only
    by_cases honline : st.online = true
    · rw [if_pos honline]
      cases serviceToFd (CString.cstr p.data.dropLast) created with
      | none => exact say_fits h ⟨⟨by simp, by simp⟩, .inr (Nat.zero_le _), harg0, Nat.zero_le _⟩
      | some count => exact open_fits h harg0
    · rw [if_neg honline]
      exact h
  | okay =>
    dsimp only
    by_cases honline : st.online = true
    · rw [if_pos honline]
      cases hfind : st.find p.arg1 with
      | none => exact h
      | some r =>
        obtain ⟨i, hid, hi, hk⟩ := find_peered h hfind
        rw [hid]
        exact update_fits h hi (ready_speaks hk harg0)
    · rw [if_neg honline]
      exact h
  | clse =>
    dsimp only
    by_cases honline : st.online = true
    · rw [if_pos honline]
      cases hfind : st.find p.arg1 with
      | none => exact h
      | some r =>
        obtain ⟨i, hid, hi, hk⟩ := find_peered h hfind
        rw [hid]
        exact update_fits h hi (close_speaks hk)
    · rw [if_neg honline]
      exact h
  | wrte =>
    dsimp only
    by_cases honline : st.online = true
    · rw [if_pos honline]
      cases hfind : st.find p.arg1 with
      | none => exact h
      | some r =>
        obtain ⟨i, hid, hi, hk⟩ := find_peered h hfind
        rw [hid]
        exact update_fits h hi (enqueue_speaks hk harg0 ios p.data)
    · rw [if_neg honline]
      exact h
  | other => exact h

theorem step_fits (h : Fitting start st) {l : Label} (hl : l.Up) (hstep : step st l = some st') : Fitting start st' := by
  cases l with
  | packet p ios created =>
    cases hstep
    exact handlePacket_fits h hl ios created
  | event i write read =>
    unfold step at hstep
    dsimp only at hstep
    split at hstep
    case h_1 k f hs =>
      obtain ⟨r, hevent, rfl⟩ := Option.map_eq_some_iff.mp hstep
      obtain ⟨hi, _⟩ := List.getElem?_eq_some_iff.mp hs
      exact update_fits h hi (event_speaks (i + 1) (h.peered _ (List.mem_of_getElem? hs) k rfl) hevent)
    case h_2 =>
      cases hstep
      exact h
  | service i a =>
    unfold step at hstep
    dsimp only at hstep
    split at hstep
    case h_1 s hs =>
      obtain ⟨hi, _⟩ := List.getElem?_eq_some_iff.mp hs
      have hpeered := h.peered s (List.mem_of_getElem? hs)
      split at hstep
      · cases hstep
        exact update_fits h hi ⟨hpeered, by simp⟩
      · cases hstep
        exact h
    case h_2 =>
      cases hstep
      exact h

theorem run_fits {ls : List Label} (h : Fitting start st) (hls : ∀ l ∈ ls, l.Up) (hrun : run st ls = some st') :
    Fitting start st' := by
  induction ls generalizing st with
  | nil =>
    cases hrun
    exact h
  | cons l ls ih =>
    rw [run] at hrun
    obtain ⟨_, hrun⟩ := Option.ite_none_right_eq_some.mp hrun
    obtain ⟨st₁, hstep, hrun⟩ := Option.bind_eq_some_iff.mp hrun
    exact ih (step_fits h (hls l List.mem_cons_self) hstep) (fun l hl => hls l (List.mem_cons_of_mem _ hl)) hrun

/-! ## The host -/

theorem frame_sound {p : Packet} (hp : Fits n p) (hn : n < 2 ^ 32) :
    Sound p.frame ∧ p.frame.msg.command ≠ A_SYNC := by
  obtain ⟨⟨hsync, hother⟩, harg0, harg1, hdata⟩ := hp
  have harg0' : p.arg0 < 2 ^ 32 := harg0.elim id fun hle => hle.trans_lt hn
  have hword : ∀ c : Command, c.word < 2 ^ 32 := by
    intro c
    cases c <;> decide
  refine ⟨sendPacket_sound (hword _) harg0' harg1 hdata, fun heq => hsync ?_⟩
  have hcommand := ofWord_word hother
  rw [← hcommand, show p.command.word = A_SYNC from heq]
  rfl

/-- The transport is up from the first packet on. What the host reads is all that was sent, in its order; where a
stream tells it `OKAY`, the file holds the bytes that the host has announced. -/
theorem sideload_wire {sync_token : Nat} {ls : List Label} (hls : ∀ l ∈ ls, l.Up)
    (hrun : run .init (.packet ⟨.sync, 1, sync_token, []⟩ [] true :: ls) = some st) (hids : st.streams.length < 2 ^ 32) :
    let wire := inputThread sync_token false (st.sent.map Packet.frame)
    let heard := (readPackets wire.length wire).map APacket.packet
    st.sent = ⟨.sync, 1, sync_token, []⟩ :: heard ∧
      ∀ i s, st.streams[i]? = some s → (wrtes (i + 1) heard).flatMap (·.data) = Bytes.ascii "OKAY" →
        s.flow.total ≤ s.flow.given.length ∧ s.flow.service.written = s.flow.given.take s.flow.total := by
  have hstart : Fitting [⟨.sync, 1, sync_token, []⟩] ⟨[], false, [⟨.sync, 1, sync_token, []⟩]⟩ :=
    ⟨by simp, [], rfl, by simp⟩
  obtain ⟨_, more, hsent, hfits⟩ := run_fits hstart hls hrun
  have hframes : ∀ q ∈ more.map Packet.frame, Sound q ∧ q.msg.command ≠ A_SYNC := by
    intro q hq
    obtain ⟨p, hp, rfl⟩ := List.mem_map.mp hq
    exact frame_sound (hfits p hp) hids
  have hwire : inputThread sync_token false (st.sent.map Packet.frame) = (more.map Packet.frame).flatMap remoteWrite := by
    have hon : inputThread sync_token true (more.map Packet.frame ++ []) = (more.map Packet.frame).flatMap remoteWrite ++ [] :=
      inputThread_on fun q hq => (hframes q hq).2
    rw [List.append_nil, List.append_nil] at hon
    rw [hsent, List.map_append]
    exact (inputThread_sync sync_token _).trans hon
  have hread : readPackets (inputThread sync_token false (st.sent.map Packet.frame)).length
      (inputThread sync_token false (st.sent.map Packet.frame)) = more.map Packet.frame := by
    refine (readPackets_fuel (Nat.le_refl _)).mpr ⟨fun q hq => (hframes q hq).1, [], ?_, rfl⟩
    rw [hwire, List.append_nil]
  have hheard : (more.map Packet.frame).map APacket.packet = more := by
    rw [List.map_map]
    exact (List.map_congr_left fun p hp => packet_frame (hfits p hp).command.2).trans (List.map_id more)
  dsimp only
  rw [hread, hheard]
  refine ⟨hsent, ?_⟩
  intro i s hs hokay
  have hwrtes : wrtes (i + 1) st.sent = wrtes (i + 1) more := by
    rw [hsent, wrtes_append]
    rfl
  have hlogged := (run_inv init_inv hrun).logged hs
  rw [← hwrtes] at hokay
  exact hlogged.safe.okay hokay

theorem sideload_wire_upload : ∃ st, run .init (.packet ⟨.sync, 1, 1, []⟩ [] true :: upload) = some st ∧
    (let wire := inputThread 1 false (st.sent.map Packet.frame)
    let heard := (readPackets wire.length wire).map APacket.packet
    st.sent = ⟨.sync, 1, 1, []⟩ :: heard ∧
      ∀ i s, st.streams[i]? = some s → (wrtes (i + 1) heard).flatMap (·.data) = Bytes.ascii "OKAY" →
        s.flow.total ≤ s.flow.given.length ∧ s.flow.service.written = s.flow.given.take s.flow.total) := by
  have hrun : run .init (.packet ⟨.sync, 1, 1, []⟩ [] true :: upload) = some _ := rfl
  have hup : ∀ l ∈ upload, l.Up := by
    simp [upload, Label.Up, Heard, A_VERSION]
  exact ⟨_, hrun, sideload_wire hup hrun (by decide)⟩

end Miui.Adb
