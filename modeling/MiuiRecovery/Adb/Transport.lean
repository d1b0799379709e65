import MiuiRecovery.Adb.Stream
import MiuiRecovery.ApplyPatch.Bsdiff.Bspatch
import Mathlib.Algebra.Order.BigOperators.Group.List

/-!
# Packets on the wire

`send_packet`, `check_header` and `check_data` (`transport.c`), `remote_write` and `remote_read` (`transport_usb.c`), and
the two threads of the transport. The wire is the bytes that `usb_read` has still to read; a read that gets fewer bytes
than it asks for ends the connection.

* `remoteRead_iff`: what is read is what a sound packet is written as, and nothing else is read.
* `readPackets_iff`: the same of all packets up to the first read that fails.
* `readPackets_inputThread`: the host reads what was sent, in its order, while the transport is up.
* `remoteRead_changed`: a packet with one wrong byte of data is not read.
-/

namespace Miui.Adb

open Bsdiff

def A_SYNC : Nat := 0x434e5953
def A_CNXN : Nat := 0x4e584e43
def A_OPEN : Nat := 0x4e45504f
def A_OKAY : Nat := 0x59414b4f
def A_CLSE : Nat := 0x45534c43
def A_WRTE : Nat := 0x45545257

/-- `amessage` -/
@[ext] structure Message where
  command : Nat
  arg0 : Nat
  arg1 : Nat
  data_length : Nat
  data_check : Nat
  magic : Nat

/-- `apacket`, with the bytes of `data` that are in use. -/
@[ext] structure APacket where
  msg : Message
  data : Bytes

def Message.words (m : Message) : List Nat := [m.command, m.arg0, m.arg1, m.data_length, m.data_check, m.magic]

/-- The sum that `send_packet` and `check_data` compute, an `unsigned`. -/
def dataSum (data : Bytes) : Nat := (data.map UInt8.toNat).sum % 2 ^ 32

/-- `send_packet` -/
def sendPacket (command arg0 arg1 : Nat) (data : Bytes) : APacket :=
  ⟨⟨command, arg0, arg1, data.length, dataSum data, command ^^^ 0xffffffff⟩, data⟩

def checkHeader (m : Message) : Bool := m.magic = m.command ^^^ 0xffffffff ∧ m.data_length ≤ MAX_PAYLOAD

def checkData (p : APacket) : Bool := dataSum p.data = p.msg.data_check

/-- `sizeof(amessage)` -/
def MESSAGE_SIZE : Nat := 24

/-- `remote_write` -/
def remoteWrite (p : APacket) : Bytes := p.msg.words.flatMap (leBytes 4) ++ p.data

/-- The word of `amessage` at `i`. -/
def wordAt (wire : Bytes) (i : Nat) : Nat := Bytes.ofLE ((wire.drop (4 * i)).take 4)

def readMessage (wire : Bytes) : Message :=
  ⟨wordAt wire 0, wordAt wire 1, wordAt wire 2, wordAt wire 3, wordAt wire 4, wordAt wire 5⟩

/-- `remote_read`: the packet, and what is left on the wire. -/
def remoteRead (wire : Bytes) : Option (APacket × Bytes) :=
  if wire.length < MESSAGE_SIZE then none
  else
    let msg := readMessage wire
    let body := wire.drop MESSAGE_SIZE
    if checkHeader msg then
      if body.length < msg.data_length then none
      else
        let p : APacket := ⟨msg, body.take msg.data_length⟩
        if checkData p then some (p, body.drop msg.data_length) else none
    else none

/-- The packets that `output_thread` takes from the wire, with fuel for its loop. -/
def readPackets : Nat → Bytes → List APacket
  | 0, _ => []
  | fuel + 1, wire => match remoteRead wire with
    | none => []
    | some (p, rest) => p :: readPackets fuel rest

/-- `output_thread`: what `handle_packet` gets. -/
def outputThread (sync_token : Nat) (wire : Bytes) : List APacket :=
  sendPacket A_SYNC 1 sync_token [] :: readPackets wire.length wire ++ [sendPacket A_SYNC 0 0 []]

/-- `input_thread`: what is written for the packets of `send_packet`. -/
def inputThread (sync_token : Nat) : Bool → List APacket → Bytes
  | _, [] => []
  | active, p :: ps =>
    if p.msg.command = A_SYNC then
      if p.msg.arg0 = 0 then [] else inputThread sync_token (active || p.msg.arg1 = sync_token) ps
    else (if active then remoteWrite p else []) ++ inputThread sync_token active ps

/-! ## Words -/

theorem ofLE_leBytes_of_lt {n y : Nat} (hy : y < 256 ^ n) : Bytes.ofLE (leBytes n y) = y := by
  have hval := ofLE_leBytes n y []
  rwa [List.append_nil, Bytes.ofLE, Nat.mul_zero, Nat.add_zero, Nat.mod_eq_of_lt hy] at hval

theorem leBytes_ofLE {n : Nat} {bs : Bytes} (hn : bs.length = n) : leBytes n (Bytes.ofLE bs) = bs := by
  have hlt := Bytes.ofLE_lt bs
  rw [hn] at hlt
  exact Bytes.ofLE_inj ((leBytes_length ..).trans hn.symm) (ofLE_leBytes_of_lt hlt)

theorem words_length (ws : List Nat) : (ws.flatMap (leBytes 4)).length = 4 * ws.length := by
  induction ws with
  | nil => rfl
  | cons w ws ih => rw [List.flatMap_cons, List.length_append, ih, leBytes_length, List.length_cons]; omega

theorem wordAt_words {ws : List Nat} (hws : ∀ w ∈ ws, w < 2 ^ 32) (rest : Bytes) {i : Nat} (hi : i < ws.length) :
    wordAt (ws.flatMap (leBytes 4) ++ rest) i = ws[i] := by
  induction ws generalizing i with
  | nil => exact absurd hi (Nat.not_lt_zero i)
  | cons w ws ih =>
    have hlen : (leBytes 4 w).length = 4 := leBytes_length 4 w
    cases i with
    | zero =>
      unfold wordAt
      rw [Nat.mul_zero, List.drop_zero, List.flatMap_cons, List.append_assoc, List.take_left' hlen]
      exact ofLE_leBytes_of_lt (hws w List.mem_cons_self)
    | succ i =>
      have hrest := ih (fun w hw => hws w (List.mem_cons_of_mem _ hw)) (Nat.lt_of_succ_lt_succ hi)
      unfold wordAt at hrest ⊢
      rw [List.getElem_cons_succ, ← hrest, List.flatMap_cons, List.append_assoc, Nat.mul_succ, Nat.add_comm,
        ← List.drop_drop, List.drop_left' hlen]

theorem words_wordAt {wire : Bytes} {k : Nat} (hk : 4 * k ≤ wire.length) :
    ((List.range k).map (wordAt wire)).flatMap (leBytes 4) = wire.take (4 * k) := by
  induction k with
  | zero => rfl
  | succ k ih =>
    have hword : ((wire.drop (4 * k)).take 4).length = 4 := by
      rw [List.length_take, List.length_drop]
      omega
    rw [List.range_succ, List.map_append, List.flatMap_append, ih (by omega), Nat.mul_succ, List.take_add]
    congr 1
    rw [List.map_singleton, List.flatMap_singleton]
    exact leBytes_ofLE hword

theorem readMessage_words {wire : Bytes} (hwire : MESSAGE_SIZE ≤ wire.length) :
    (readMessage wire).words.flatMap (leBytes 4) = wire.take MESSAGE_SIZE := words_wordAt (k := 6) hwire

theorem readMessage_append {m : Message} (hm : ∀ w ∈ m.words, w < 2 ^ 32) (rest : Bytes) :
    readMessage (m.words.flatMap (leBytes 4) ++ rest) = m := by
  have hword : ∀ i (hi : i < m.words.length), wordAt (m.words.flatMap (leBytes 4) ++ rest) i = m.words[i] :=
    fun _ hi => wordAt_words hm rest hi
  have hlen : m.words.length = 6 := rfl
  exact Message.ext (hword 0 (by omega)) (hword 1 (by omega)) (hword 2 (by omega)) (hword 3 (by omega))
    (hword 4 (by omega)) (hword 5 (by omega))

theorem wordAt_lt (wire : Bytes) (i : Nat) : wordAt wire i < 2 ^ 32 := by
  have hlt := Bytes.ofLE_lt ((wire.drop (4 * i)).take 4)
  have hlen : ((wire.drop (4 * i)).take 4).length ≤ 4 := List.length_take_le ..
  exact hlt.trans_le (Nat.pow_le_pow_right (by decide) hlen)

theorem readMessage_lt (wire : Bytes) : ∀ w ∈ (readMessage wire).words, w < 2 ^ 32 := by
  have hwords : (readMessage wire).words = (List.range 6).map (wordAt wire) := rfl
  intro w hw
  rw [hwords] at hw
  obtain ⟨i, _, rfl⟩ := List.mem_map.mp hw
  exact wordAt_lt wire i

/-! ## Sound packets -/

/-- What `check_header` and `check_data` ask for, of a packet whose fields are words. -/
structure Sound (p : APacket) : Prop where
  words : ∀ w ∈ p.msg.words, w < 2 ^ 32
  length : p.data.length = p.msg.data_length
  header : checkHeader p.msg = true
  check : checkData p = true

theorem sendPacket_sound {command arg0 arg1 : Nat} {data : Bytes} (hcommand : command < 2 ^ 32) (harg0 : arg0 < 2 ^ 32)
    (harg1 : arg1 < 2 ^ 32) (hdata : data.length ≤ MAX_PAYLOAD) : Sound (sendPacket command arg0 arg1 data) := by
  refine ⟨?_, rfl, ?_, ?_⟩
  · have hmagic : command ^^^ 0xffffffff < 2 ^ 32 := Nat.xor_lt_two_pow hcommand (by decide)
    have hlength : data.length < 2 ^ 32 := hdata.trans_lt (by decide)
    have hsum : dataSum data < 2 ^ 32 := Nat.mod_lt _ (by decide)
    intro w hw
    simp only [sendPacket, Message.words, List.mem_cons, List.not_mem_nil, or_false] at hw
    rcases hw with rfl | rfl | rfl | rfl | rfl | rfl
    · exact hcommand
    · exact harg0
    · exact harg1
    · exact hlength
    · exact hsum
    · exact hmagic
  · exact decide_eq_true ⟨rfl, hdata⟩
  · exact decide_eq_true rfl

theorem remoteWrite_length {p : APacket} : (remoteWrite p).length = MESSAGE_SIZE + p.data.length := by
  rw [remoteWrite, List.length_append, words_length]
  rfl

theorem remoteRead_iff {wire rest : Bytes} {p : APacket} :
    remoteRead wire = some (p, rest) ↔ Sound p ∧ wire = remoteWrite p ++ rest := by
  constructor
  · intro h
    unfold remoteRead at h
    obtain ⟨hlen, h⟩ := Option.ite_none_left_eq_some.mp h
    obtain ⟨hheader, h⟩ := Option.ite_none_right_eq_some.mp h
    obtain ⟨hbody, h⟩ := Option.ite_none_left_eq_some.mp h
    obtain ⟨hcheck, h⟩ := Option.ite_none_right_eq_some.mp h
    cases h
    refine ⟨⟨readMessage_lt wire, ?_, hheader, hcheck⟩, ?_⟩
    · exact List.length_take_of_le (Nat.le_of_not_lt hbody)
    · rw [remoteWrite, readMessage_words (Nat.le_of_not_lt hlen), List.append_assoc, List.take_append_drop,
        List.take_append_drop]
  · rintro ⟨⟨hwords, hlength, hheader, hcheck⟩, rfl⟩
    have hmsg : (p.msg.words.flatMap (leBytes 4)).length = MESSAGE_SIZE := words_length _
    have hread : readMessage (remoteWrite p ++ rest) = p.msg := by
      rw [remoteWrite, List.append_assoc]
      exact readMessage_append hwords _
    have hdrop : (remoteWrite p ++ rest).drop MESSAGE_SIZE = p.data ++ rest := by
      rw [remoteWrite, List.append_assoc, List.drop_left' hmsg]
    unfold remoteRead
    dsimp only
    rw [hread, hdrop, if_neg, if_pos hheader, if_neg, List.take_left' hlength, List.drop_left' hlength, if_pos hcheck]
    · rw [List.length_append, hlength]
      omega
    · rw [List.length_append, remoteWrite_length]
      omega

theorem readPackets_fuel {fuel : Nat} {wire : Bytes} {ps : List APacket} (hfuel : wire.length ≤ fuel) :
    readPackets fuel wire = ps ↔
      (∀ p ∈ ps, Sound p) ∧ ∃ rest, wire = ps.flatMap remoteWrite ++ rest ∧ remoteRead rest = none := by
  induction fuel generalizing wire ps with
  | zero =>
    rw [List.eq_nil_of_length_eq_zero (Nat.le_zero.mp hfuel)]
    constructor
    · rintro rfl
      exact ⟨fun p hp => (List.not_mem_nil hp).elim, [], rfl, rfl⟩
    · rintro ⟨_, rest, hwire, _⟩
      cases ps with
      | nil => rfl
      | cons p ps =>
        have hlen := congrArg List.length hwire
        rw [List.flatMap_cons, List.append_assoc, List.length_append, remoteWrite_length, List.length_nil,
          MESSAGE_SIZE] at hlen
        omega
  | succ fuel ih =>
    rw [readPackets]
    cases hread : remoteRead wire with
    | none =>
      constructor
      · rintro rfl
        exact ⟨by simp, wire, rfl, hread⟩
      · rintro ⟨hsound, rest, hwire, _⟩
        cases ps with
        | nil => rfl
        | cons p ps =>
          rw [List.flatMap_cons, List.append_assoc] at hwire
          have hsome := remoteRead_iff.mpr ⟨hsound p List.mem_cons_self, hwire⟩
          cases hread.symm.trans hsome
    | some r =>
      obtain ⟨p, rest⟩ := r
      obtain ⟨hp, hwire⟩ := remoteRead_iff.mp hread
      have hrest : rest.length ≤ fuel := by
        have hlen := congrArg List.length hwire
        rw [List.length_append, remoteWrite_length, MESSAGE_SIZE] at hlen
        omega
      dsimp only
      constructor
      · rintro rfl
        obtain ⟨hsound, last, hlast, hend⟩ := (ih hrest).mp rfl
        refine ⟨List.forall_mem_cons.mpr ⟨hp, hsound⟩, last, ?_, hend⟩
        rw [List.flatMap_cons, List.append_assoc, ← hlast]
        exact hwire
      · rintro ⟨hsound, last, hlast, hend⟩
        cases ps with
        | nil =>
          have hwhole : wire = last := hlast
          rw [hwhole, hend] at hread
          cases hread
        | cons q ps =>
          rw [List.flatMap_cons, List.append_assoc] at hlast
          have hsame := remoteRead_iff.mpr ⟨hsound q List.mem_cons_self, hlast⟩
          cases hread.symm.trans hsame
          rw [(ih hrest).mpr ⟨fun p hp => hsound p (List.mem_cons_of_mem _ hp), last, rfl, hend⟩]

/-- The packets that are taken from the wire are the sound packets in front of the first bytes that are none. -/
theorem readPackets_iff {wire : Bytes} {ps : List APacket} : readPackets wire.length wire = ps ↔
    (∀ p ∈ ps, Sound p) ∧ ∃ rest, wire = ps.flatMap remoteWrite ++ rest ∧ remoteRead rest = none :=
  readPackets_fuel (Nat.le_refl _)

/-! ## The threads -/

theorem inputThread_off {sync_token : Nat} {ps more : List APacket} (hps : ∀ p ∈ ps, p.msg.command ≠ A_SYNC) :
    inputThread sync_token false (ps ++ more) = inputThread sync_token false more := by
  induction ps with
  | nil => rfl
  | cons p ps ih =>
    rw [List.cons_append, inputThread, if_neg (hps p List.mem_cons_self),
      ih fun p hp => hps p (List.mem_cons_of_mem _ hp)]
    rfl

theorem inputThread_on {sync_token : Nat} {ps more : List APacket} (hps : ∀ p ∈ ps, p.msg.command ≠ A_SYNC) :
    inputThread sync_token true (ps ++ more) = ps.flatMap remoteWrite ++ inputThread sync_token true more := by
  induction ps with
  | nil => rfl
  | cons p ps ih =>
    rw [List.cons_append, inputThread, if_neg (hps p List.mem_cons_self),
      ih fun p hp => hps p (List.mem_cons_of_mem _ hp), List.flatMap_cons, List.append_assoc]
    rfl

theorem inputThread_sync (sync_token : Nat) (ps : List APacket) :
    inputThread sync_token false (sendPacket A_SYNC 1 sync_token [] :: ps) = inputThread sync_token true ps := by
  have hsync : (sendPacket A_SYNC 1 sync_token []).msg.command = A_SYNC := rfl
  have hactive : (false || decide ((sendPacket A_SYNC 1 sync_token []).msg.arg1 = sync_token)) = true := by
    simp [sendPacket]
  rw [inputThread, if_pos hsync, if_neg (by simp [sendPacket]), hactive]

theorem dataSum_eq {data : Bytes} (hdata : data.length ≤ MAX_PAYLOAD) : dataSum data = (data.map UInt8.toNat).sum := by
  have hsum : (data.map UInt8.toNat).sum ≤ data.length * 255 := by
    rw [← List.length_map UInt8.toNat]
    refine List.sum_le_card_nsmul _ _ fun n hn => ?_
    obtain ⟨b, _, rfl⟩ := List.mem_map.mp hn
    exact Nat.le_of_lt_succ b.toNat_lt
  unfold MAX_PAYLOAD at hdata
  exact Nat.mod_eq_of_lt (by omega)

theorem dataSum_set {data : Bytes} (hdata : data.length ≤ MAX_PAYLOAD) {i : Nat} (hi : i < data.length) {b : UInt8}
    (hb : b ≠ data[i]) : dataSum (data.set i b) ≠ dataSum data := by
  have hset : (data.set i b).length ≤ MAX_PAYLOAD := by rwa [List.length_set]
  rw [dataSum_eq hset, dataSum_eq hdata]
  intro hsum
  rw [List.set_eq_take_append_cons_drop, if_pos hi] at hsum
  have hwhole : data = data.take i ++ data[i] :: data.drop (i + 1) := by
    rw [← List.drop_eq_getElem_cons hi, List.take_append_drop]
  have hright : (data.map UInt8.toNat).sum
      = ((data.take i).map UInt8.toNat).sum + (data[i].toNat + ((data.drop (i + 1)).map UInt8.toNat).sum) := by
    conv_lhs => rw [hwhole]
    rw [List.map_append, List.sum_append, List.map_cons, List.sum_cons]
  rw [hright, List.map_append, List.sum_append, List.map_cons, List.sum_cons] at hsum
  exact hb (UInt8.toNat_inj.mp (by omega))

/-- A sound packet with one other byte in its data is not read, whatever is behind it. -/
theorem remoteRead_changed {p : APacket} (hp : Sound p) {i : Nat} (hi : i < p.data.length) {b : UInt8}
    (hb : b ≠ p.data[i]) (rest : Bytes) : remoteRead (remoteWrite ⟨p.msg, p.data.set i b⟩ ++ rest) = none := by
  rw [← Option.not_isSome_iff_eq_none, Option.isSome_iff_exists]
  rintro ⟨⟨q, rest'⟩, hread⟩
  obtain ⟨hq, hwire⟩ := remoteRead_iff.mp hread
  have hmsg : p.msg = q.msg := by
    have hbytes := congrArg readMessage hwire
    rw [remoteWrite, remoteWrite, List.append_assoc, List.append_assoc] at hbytes
    rwa [readMessage_append hp.words, readMessage_append hq.words] at hbytes
  have hdata : p.data.set i b = q.data := by
    rw [remoteWrite, remoteWrite, hmsg, List.append_assoc, List.append_assoc] at hwire
    refine List.append_inj_left (List.append_cancel_left hwire) ?_
    rw [List.length_set, hp.length, hq.length, hmsg]
  have hlen : p.data.length ≤ MAX_PAYLOAD := by
    rw [hp.length]
    exact (of_decide_eq_true hp.header).2
  have hsum : dataSum q.data = dataSum p.data := by
    rw [of_decide_eq_true hq.check, of_decide_eq_true hp.check, hmsg]
  rw [← hdata] at hsum
  exact dataSum_set hlen hi hb hsum

theorem remoteRead_changed_small :
    remoteRead (remoteWrite ⟨(sendPacket A_WRTE 1 2 [79, 75]).msg, [79, 75].set 1 76⟩ ++ [1, 2]) = none :=
  remoteRead_changed (p := sendPacket A_WRTE 1 2 [79, 75])
    (sendPacket_sound (by decide) (by decide) (by decide) (by decide)) (i := 1) (by decide) (by decide) [1, 2]

end Miui.Adb
