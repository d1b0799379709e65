import MiuiRecovery.Minzip.Process

/-!
# Extraction to memory

`mzExtractZipEntryToBuffer` is given a buffer of as many bytes as the archive says the entry has. Its callback
does not look at what is left of the buffer.

* `Fits`: the data of the entry fit.
* `extractsToBuffer_iff`: the buffer is kept exactly for the entries that fit.
-/

namespace Miui.Zip

open Prog (Sem Reaches Returns call wp wp_bind wp_ret wp_op wp_mono wp_crash wp_iff)

/-- Every write is inside a buffer of `size` bytes. -/
def InBuffer (size : Nat) (w : World) : Prop := ∀ s ∈ w.stores, s.1 + s.2 ≤ size

def World.stored (w : World) : Nat := (w.stores.map Prod.snd).sum

/-- No run writes outside the buffer, and after the result `true` it is full. -/
def KeepsBuffer (archive : Bytes) (Z : Deflate) (e : ZipEntry) : Prop :=
  ∀ fuel w, w.stores = [] →
    (∀ w', Reaches (zipSem archive Z) (mzExtractZipEntryToBuffer fuel e) w w' → InBuffer (asSize e.uncompLen) w') ∧
    ∀ w', Returns (zipSem archive Z) (mzExtractZipEntryToBuffer fuel e) w true w' → w'.stored = asSize e.uncompLen

/-- How many bytes of a stored entry can be read: all, or the whole pieces in front of the end of the file. -/
def readable (archive : Bytes) (offset n : Nat) : Nat :=
  if offset + n ≤ archive.length then n else bufSize * ((archive.length - offset) / bufSize)

/-- The stored data, or what the deflated data decode to, is not longer than the entry says. Of a stream that does
not end whole pieces count. -/
structure Fits (archive : Bytes) (Z : Deflate) (e : ZipEntry) : Prop where
  stored : e.compression = STORED → readable archive e.offset.toNat (asSize e.compLen) ≤ asSize e.uncompLen
  deflated : e.compression = DEFLATED → ∀ taken, Feeds archive e taken →
    bufSize * ((Z.output taken).length / bufSize) ≤ asSize e.uncompLen ∧
      (Z.ended taken = true → (Z.output taken).length ≤ asSize e.uncompLen)

variable {archive : Bytes} {Z : Deflate} {e : ZipEntry}

/-! ## Data that fit -/

theorem asSize_lt (n : Int) : asSize n < 2 ^ 32 := by
  unfold asSize
  omega

/-- The callback has written `given`, and `bec->len` is what is left. -/
structure Written (e : ZipEntry) (given : Bytes) (bec : BufferExtractCookie) (w : World) : Prop where
  fits : given.length ≤ asSize e.uncompLen
  inside : InBuffer (asSize e.uncompLen) w
  total : w.stored = given.length
  buffer : bec.buffer = given.length
  len : bec.len % 2 ^ 32 = (e.uncompLen - given.length) % 2 ^ 32

theorem bufferProcessFunction_contract (archive : Bytes) (Z : Deflate) (e : ZipEntry) :
    Contract (zipSem archive Z) archive Z (InBuffer (asSize e.uncompLen)) bufferProcessFunction
      (fun given => given.length ≤ asSize e.uncompLen) (Written e) (fun bec w => ∃ given, Written e given bec w) where
  sub _ _ _ _ h := h
  step := by
    intro given data bec w _ hA hI
    have hstore : InBuffer (asSize e.uncompLen) { w with stores := w.stores ++ [(bec.buffer, data.length)] } := by
      intro s hs
      rcases List.mem_append.mp hs with hs | hs
      · exact hI.inside s hs
      · obtain rfl := List.mem_singleton.mp hs
        rw [List.length_append] at hA
        rw [hI.buffer]
        exact hA
    unfold bufferProcessFunction
    simp only [Prog.call_bind, wp_op]
    refine ⟨hI.inside, fun _ w' hw' => ?_⟩
    obtain rfl : w' = _ := hw'
    refine ⟨hstore, fun _ => ⟨hA, hstore, ?_, ?_, ?_⟩, by simp⟩
    · have htotal := hI.total
      unfold World.stored at htotal ⊢
      rw [List.map_append, List.sum_append, htotal, List.length_append]
      rfl
    · rw [List.length_append]
      show bec.buffer + data.length = _
      rw [hI.buffer]
    · have hlen := hI.len
      have hbound (n : Int) : asInt (asSize n) % 2 ^ 32 = n % 2 ^ 32 := by
        unfold asInt asSize
        split <;> omega
      rw [List.length_append]
      show asInt (asSize (bec.len - data.length)) % 2 ^ 32 = _
      rw [hbound]
      push_cast
      omega
  crash _ _ _ h := h.inside
  read given _ _ _ _ _ h _ := ⟨given, h⟩
  init given _ _ _ h _ := ⟨given, h⟩
  inflate given _ _ _ _ _ _ _ h _ _ := ⟨given, h⟩

theorem dvd_le_readable {offset n k : Nat} (hk : k ≤ n) (haligned : bufSize ∣ k ∨ k = n)
    (hin : offset + k ≤ archive.length) : k ≤ readable archive offset n := by
  unfold readable
  by_cases hall : offset + n ≤ archive.length
  · rw [if_pos hall]
    exact hk
  · rw [if_neg hall]
    obtain ⟨c, rfl⟩ := haligned.resolve_right (by omega)
    refine Nat.mul_le_mul_left _ ?_
    rw [Nat.le_div_iff_mul_le (by decide), Nat.mul_comm]
    omega

theorem Fits.keeps (h : Fits archive Z e) : KeepsBuffer archive Z e := by
  intro fuel w hw
  have hstart : Written e [] ⟨0, e.uncompLen⟩ w := by
    refine ⟨Nat.zero_le _, fun s hs => ?_, ?_, rfl, by simp⟩
    · rw [hw] at hs
      cases hs
    · unfold World.stored
      rw [hw]
      rfl
  have hacceptable : e.compression = DEFLATED →
      Acceptable archive Z e fun given => given.length ≤ asSize e.uncompLen := by
    intro hd taken given hfeeds hpre hwhole
    obtain ⟨hpieces, hended⟩ := h.deflated hd taken hfeeds
    rcases hwhole with ⟨c, hc⟩ | ⟨hend, rfl⟩
    · have hle := hpre.length_le
      rw [hc] at hle ⊢
      refine (Nat.mul_le_mul_left _ ?_).trans hpieces
      rw [Nat.le_div_iff_mul_le (by decide), Nat.mul_comm]
      exact hle
    · exact hended hend
  have hrun := mzProcessZipEntryContents_spec (bufferProcessFunction_contract archive Z e)
    (fun hs k hk haligned hin => by
      rw [piece_length hin]
      exact (dvd_le_readable hk haligned hin).trans (h.stored hs)) hacceptable fuel hstart
  have hwp : wp (zipSem archive Z) (InBuffer (asSize e.uncompLen))
      (fun ret w' => ret = true → w'.stored = asSize e.uncompLen) (mzExtractZipEntryToBuffer fuel e) w := by
    unfold mzExtractZipEntryToBuffer
    refine wp_bind.mpr (wp_mono (fun _ h => h) (fun r w' hC hr => ⟨hC, fun hret => ?_⟩) hrun)
    obtain ⟨hdone, hlen⟩ := Bool.and_eq_true_iff.mp hret
    have hlen : r.2.len = 0 := by simpa using hlen
    -- Whatever was written, `bec->len` says that it is as much as the entry has.
    have hall {given : Bytes} (hI : Written e given r.2 w') : w'.stored = asSize e.uncompLen := by
      have hfits := hI.fits
      have hleft := hI.len
      rw [hI.total]
      rw [hlen] at hleft
      unfold asSize at hfits ⊢
      omega
    rcases hr.1 hdone with ⟨content, -, hI⟩ | ⟨-, -, ⟨given, hI⟩ | ⟨-, given, hI⟩⟩
    · exact hall hI
    · exact hall hI
    · exact hall hI
  exact ⟨(wp_iff.mp hwp).1, fun w' hw' => (wp_iff.mp hwp).2 true w' hw' rfl⟩

/-! ## Data that do not fit -/

variable {size : Nat} {bec : BufferExtractCookie} {w : World}

/-- The cookie behind a `memmove`. -/
def BufferExtractCookie.behind (bec : BufferExtractCookie) (data : Bytes) : BufferExtractCookie :=
  ⟨bec.buffer + data.length, asInt (asSize (bec.len - data.length))⟩

theorem wp_memmove {data : Bytes} {Q : Bool × BufferExtractCookie → World → Prop}
    (h : wp (zipSem archive Z) (InBuffer size) Q (bufferProcessFunction data bec) w) :
    bec.buffer + data.length ≤ size ∧
      Q (true, bec.behind data) { w with stores := w.stores ++ [(bec.buffer, data.length)] } := by
  unfold bufferProcessFunction at h
  simp only [Prog.call_bind, wp_op] at h
  have hstep := h.2 () _ rfl
  exact ⟨hstep.1 (bec.buffer, data.length) (List.mem_append_right _ (List.mem_singleton_self _)), hstep.2⟩

/-- When every run stays in the buffer, all that can be read fits. -/
theorem storedLoop_bound {pos left fuel : Nat} (hfuel : left ≤ fuel) (hbec : bec.buffer ≤ size)
    (h : wp (zipSem archive Z) (InBuffer size) (fun _ _ => True)
      (storedLoop bufferProcessFunction fuel pos left bec) w) :
    bec.buffer + readable archive pos left ≤ size := by
  have hnothing (h : left = 0) : readable archive pos left = 0 := by
    subst h
    unfold readable bufSize
    split <;> omega
  induction fuel generalizing pos left bec w with
  | zero =>
    rw [hnothing (by omega)]
    exact hbec
  | succ fuel ih =>
    by_cases hleft : left > 0
    · rw [storedLoop, if_pos hleft] at h
      simp only [Prog.call_bind, wp_op] at h
      by_cases hin : pos + min left bufSize ≤ archive.length
      · have hrun := h.2 (some (piece archive pos (min left bufSize))) w
          ⟨rfl, fun _ h => ⟨.inr hin, (Option.some.inj h).symm⟩⟩
        simp only [wp_bind] at hrun
        obtain ⟨hle, hrest⟩ := wp_memmove hrun
        rw [if_pos rfl] at hrest
        rw [piece_length hin] at hle
        have hbuffer : (bec.behind (piece archive pos (min left bufSize))).buffer = bec.buffer + min left bufSize :=
          congrArg (bec.buffer + ·) (piece_length hin)
        have hbuf : 0 < bufSize := by decide
        have hbound := ih (by omega) (hbuffer ▸ hle) hrest fun h => by
          rw [h]
          unfold readable bufSize
          split <;> omega
        rw [hbuffer] at hbound
        have hsplit : readable archive pos left =
            min left bufSize + readable archive (pos + min left bufSize) (left - min left bufSize) := by
          unfold readable bufSize at *
          split <;> split <;> omega
        omega
      · have hzero : readable archive pos left = 0 := by
          unfold readable bufSize at *
          split <;> omega
        omega
    · rw [hnothing (by omega)]
      exact hbec

/-- The data of a deflated entry are in the archive. -/
def Inside (archive : Bytes) (e : ZipEntry) : Prop :=
  0 ≤ e.compLen → e.offset.toNat + e.compLen.toNat ≤ archive.length

/-- The loop stays in the buffer, however long it goes on. -/
def Going (archive : Bytes) (Z : Deflate) (size : Nat) (s : Inflating) (bec : BufferExtractCookie) (w : World) : Prop :=
  ∀ fuel, wp (zipSem archive Z) (InBuffer size) (fun _ _ => True) (deflatedLoop bufferProcessFunction fuel s bec) w

/-- So does a round behind the read. -/
def Rounds (archive : Bytes) (Z : Deflate) (size : Nat) (s : Inflating) (bec : BufferExtractCookie) (w : World) : Prop :=
  ∀ fuel, wp (zipSem archive Z) (InBuffer size) (fun _ _ => True)
    (inflateRound bufferProcessFunction (deflatedLoop bufferProcessFunction fuel) s bec) w

variable {s : Inflating}

/-- A read that succeeds. -/
theorem Going.refill (h : Going archive Z size s bec w) (hfeed : Feeding archive e s) (hin : Inside archive e)
    (hneg : -1 ≤ e.compLen) (hpast : s.compRemaining ≠ -1) :
    ∃ s', Rounds archive Z size s' bec w ∧ Feeding archive e s' ∧ s'.procBuf = s.procBuf ∧
      s'.zstream = s.zstream ∧ s'.compRemaining ≠ -1 ∧ (0 < s.compRemaining → s'.next_in ≠ []) ∧
        (s.next_in ≠ [] → s'.next_in ≠ []) := by
  have hbuf : 0 < bufSize := by decide
  by_cases hempty : s.next_in ≠ []
  · refine ⟨s, fun fuel => ?_, hfeed, rfl, rfl, hpast, fun _ => hempty, id⟩
    have hrun := h (fuel + 1)
    rw [deflatedLoop, Zip.refill, if_pos hempty] at hrun
    exact hrun
  have hnil : s.next_in = [] := not_not.mp hempty
  have hpos : 0 ≤ s.compRemaining := by
    cases hfeed with
    | file k hlen hrem hle => omega
    | stale hlen hrem => omega
    | negative hlen => omega
  have hget : ¬ min s.compRemaining bufSize < 0 := by omega
  have hreads : (min s.compRemaining bufSize).toNat = 0 ∨
      s.pos + (min s.compRemaining bufSize).toNat ≤ archive.length := by
    cases hfeed with
    | file k hlen hrem hle hpos' =>
      have hdata := hin hlen
      omega
    | stale hlen hrem => omega
    | negative hlen => omega
  refine ⟨{ s with
    pos := s.pos + (min s.compRemaining bufSize).toNat
    compRemaining := s.compRemaining - min s.compRemaining bufSize
    next_in := piece archive s.pos (min s.compRemaining bufSize).toNat }, fun fuel => ?_, ?_, rfl, rfl, ?_, ?_,
      fun h => absurd h hempty⟩
  · have hrun := h (fuel + 1)
    rw [deflatedLoop, Zip.refill, if_neg hempty] at hrun
    simp only [if_neg hget, Prog.call_bind, Prog.op_bind, wp_op] at hrun
    exact hrun.2 (some (piece archive s.pos (min s.compRemaining bufSize).toNat)) w
      ⟨rfl, fun _ h => ⟨hreads, (Option.some.inj h).symm⟩⟩
  · cases hfeed with
    | file k hlen hrem hle hpos' hread =>
      refine .file (k + (min s.compRemaining bufSize).toNat) hlen ?_ (by omega) ?_ ?_
      · show s.compRemaining - min s.compRemaining bufSize = _
        omega
      · show s.pos + _ = _
        omega
      · show s.zstream.taken ++ piece archive s.pos _ = _
        rw [hnil, List.append_nil] at hread
        rw [hread, hpos', piece_add]
    | stale hlen hrem =>
      refine .stale hlen (.inr ?_) fun h => ?_
      · show s.compRemaining - min s.compRemaining bufSize = 0
        omega
      · exact absurd h (by show s.compRemaining - min s.compRemaining bufSize ≠ -1; omega)
    | negative hlen => omega
  · show s.compRemaining - min s.compRemaining bufSize ≠ -1
    omega
  · intro hmore
    have hlen := piece_length (hreads.resolve_left (by omega))
    refine fun h => ?_
    have h : piece archive s.pos (min s.compRemaining bufSize).toNat = [] := h
    rw [h, List.length_nil] at hlen
    omega

/-- Behind a round in which `inflate` takes `n` bytes and gives `out`, none of which is left over. -/
def Inflating.took (s : Inflating) (n : Nat) (out : Bytes) : Inflating :=
  { s with
    next_in := s.next_in.drop n
    procBuf := []
    zstream := ⟨s.zstream.taken ++ s.next_in.take n, s.zstream.given ++ out⟩ }

/-- A round in which `inflate` returns `Z_OK`. -/
theorem Rounds.ok (h : Rounds archive Z size s bec w) (hproc : s.procBuf = []) {n : Nat} {out : Bytes}
    (hn : n ≤ s.next_in.length) (hout : out.length ≤ bufSize)
    (hgiven : (s.took n out).zstream.given <+: Z.output (s.took n out).zstream.taken) (fuel : Nat) :
    wp (zipSem archive Z) (InBuffer size) (fun _ _ => True)
      (if out.length = bufSize then do
        let (ret, bec) ← bufferProcessFunction out bec
        if ret then deflatedLoop bufferProcessFunction fuel (s.took n out) bec else pure (-1, bec)
      else deflatedLoop bufferProcessFunction fuel { s.took n out with procBuf := out } bec) w := by
  have hrun := h fuel
  unfold inflateRound at hrun
  simp only [Prog.call_bind, wp_op] at hrun
  have hstep := hrun.2 ⟨.ok, n, out⟩ w ⟨rfl, hn, by rw [hproc]; exact hout, fun _ => hgiven, by simp⟩
  rw [if_neg (by simp)] at hstep
  simp only [hproc, List.nil_append, reduceCtorEq, false_and, or_false, if_true] at hstep
  exact hstep

/-- A round in which `inflate` takes input and gives nothing. -/
theorem Rounds.feed (h : Rounds archive Z size s bec w) (hproc : s.procBuf = []) {n : Nat} (hn : n ≤ s.next_in.length)
    (hgiven : s.zstream.given <+: Z.output (s.zstream.taken ++ s.next_in.take n)) :
    Going archive Z size (s.took n []) bec w := by
  intro fuel
  have hempty : (s.took n []).zstream.given <+: Z.output (s.took n []).zstream.taken := by
    show s.zstream.given ++ [] <+: _
    rw [List.append_nil]
    exact hgiven
  have hstep := h.ok hproc hn (Nat.zero_le _) hempty fuel
  rw [if_neg (by decide)] at hstep
  exact hstep

/-- A round in which `inflate` fills the buffer. -/
theorem Rounds.full (h : Rounds archive Z size s bec w) (hproc : s.procBuf = []) {out : Bytes}
    (hout : out.length = bufSize) (hgiven : s.zstream.given ++ out <+: Z.output s.zstream.taken) :
    bec.buffer + bufSize ≤ size ∧ Going archive Z size (s.took 0 out) (bec.behind out)
      { w with stores := w.stores ++ [(bec.buffer, out.length)] } := by
  have hmove (fuel : Nat) := by
    have hstep := h.ok hproc (Nat.zero_le _) hout.le (n := 0) (by
      show s.zstream.given ++ out <+: Z.output (s.zstream.taken ++ s.next_in.take 0)
      rw [List.take_zero, List.append_nil]
      exact hgiven) fuel
    rw [if_pos hout] at hstep
    simp only [wp_bind] at hstep
    exact wp_memmove hstep
  refine ⟨hout ▸ (hmove 0).1, fun fuel => ?_⟩
  have hrest := (hmove fuel).2
  rw [if_pos rfl] at hrest
  exact hrest

/-- The round in which the stream ends. -/
theorem Rounds.last (h : Rounds archive Z size s bec w) (hproc : s.procBuf = []) {out : Bytes}
    (hout : out.length ≤ bufSize) (hne : out ≠ []) (hended : Z.ended s.zstream.taken = true)
    (hgiven : s.zstream.given ++ out = Z.output s.zstream.taken) : bec.buffer + out.length ≤ size := by
  have hrun := h 0
  unfold inflateRound at hrun
  simp only [Prog.call_bind, wp_op] at hrun
  have hafter : s.zstream.after s.next_in ⟨.streamEnd, 0, out⟩ = ⟨s.zstream.taken, s.zstream.given ++ out⟩ := by
    unfold ZStream.after
    rw [List.take_zero, List.append_nil]
  have hstep := hrun.2 ⟨.streamEnd, 0, out⟩ w ⟨rfl, Nat.zero_le _, by rw [hproc]; exact hout, fun _ => by
    rw [hafter]
    exact hgiven ▸ List.prefix_refl _, fun _ => by
    rw [hafter]
    exact ⟨hended, hgiven⟩⟩
  rw [if_neg (by simp), hproc, List.nil_append, if_pos (.inr ⟨rfl, hne⟩)] at hstep
  simp only [wp_bind] at hstep
  exact (wp_memmove hstep).1

/-- Once all that there is to take is taken, what it decodes to comes in pieces. -/
theorem Going.output (h : Going archive Z size s bec w) (hfeed : Feeding archive e s) (hin : Inside archive e)
    (hneg : -1 ≤ e.compLen) (hpast : s.compRemaining ≠ -1) (hproc : s.procBuf = [])
    (hgiven : s.zstream.given <+: Z.output s.zstream.taken) (haligned : bufSize ∣ s.zstream.given.length)
    (hbuffer : bec.buffer = s.zstream.given.length) (hle : bec.buffer ≤ size) :
    bufSize * ((Z.output s.zstream.taken).length / bufSize) ≤ size ∧
      (Z.ended s.zstream.taken = true → (Z.output s.zstream.taken).length ≤ size) := by
  have hbuf : 0 < bufSize := by decide
  induction hleft : (Z.output s.zstream.taken).length - s.zstream.given.length using Nat.strong_induction_on
    generalizing s bec w with
  | _ left ih =>
    obtain ⟨s', hrounds, hfeed', hproc', hz, hpast', -⟩ := h.refill hfeed hin hneg hpast
    rw [hproc] at hproc'
    obtain ⟨out, hout⟩ := hgiven
    have hlen := congrArg List.length hout
    rw [List.length_append] at hlen
    by_cases hfull : bufSize ≤ out.length
    · have htake : (out.take bufSize).length = bufSize := by
        rw [List.length_take]
        exact min_eq_left hfull
      have hmore : s'.zstream.given ++ out.take bufSize <+: Z.output s'.zstream.taken := by
        rw [hz, ← hout]
        exact (List.prefix_append_right_inj _).mpr (List.take_prefix _ _)
      obtain ⟨hroom, hgoing⟩ := hrounds.full hproc' htake hmore
      have htaken : (s'.took 0 (out.take bufSize)).zstream.taken = s.zstream.taken := by
        show s'.zstream.taken ++ s'.next_in.take 0 = _
        rw [List.take_zero, List.append_nil, hz]
      have hlength : (s'.took 0 (out.take bufSize)).zstream.given.length = s.zstream.given.length + bufSize := by
        show (s'.zstream.given ++ out.take bufSize).length = _
        rw [List.length_append, htake, hz]
      have hbehind : (bec.behind (out.take bufSize)).buffer = bec.buffer + bufSize :=
        congrArg (bec.buffer + ·) htake
      have hnext := ih (left - bufSize) (by omega) hgoing (hfeed'.next hneg) hpast' rfl
        (by rw [htaken]; exact hz ▸ hmore) (by rw [hlength]; exact Nat.dvd_add haligned (Nat.dvd_refl _))
        (by rw [hbehind, hbuffer, hlength]) (by rw [hbehind]; exact hroom)
        (by rw [htaken, hlength]; omega)
      rwa [htaken] at hnext
    · constructor
      · obtain ⟨c, hc⟩ := haligned
        have hpieces : (Z.output s.zstream.taken).length / bufSize = c := by
          rw [← hlen, hc, Nat.add_comm, Nat.add_mul_div_left _ _ hbuf, Nat.div_eq_of_lt (by omega), Nat.zero_add]
        rw [hpieces, ← hc, ← hbuffer]
        exact hle
      · intro hended
        by_cases hnil : out = []
        · rw [← hlen, hnil, List.length_nil, Nat.add_zero, ← hbuffer]
          exact hle
        · have hlast := hrounds.last hproc' (Nat.le_of_not_ge hfull) hnil (by rw [hz]; exact hended)
            (by rw [hz]; exact hout)
          omega

/-- The input can be taken without output. -/
theorem Going.input (h : Going archive Z size s bec w) (hfeed : Feeding archive e s) (hin : Inside archive e)
    (hneg : -1 ≤ e.compLen) (hpast : s.compRemaining ≠ -1) (hproc : s.procBuf = [])
    (hgiven : s.zstream.given = []) {taken : Bytes} (hlen : 0 ≤ e.compLen)
    (htaken : taken <+: piece archive e.offset.toNat e.compLen.toNat) (hpre : s.zstream.taken <+: taken) :
    ∃ s', Going archive Z size s' bec w ∧ Feeding archive e s' ∧ s'.compRemaining ≠ -1 ∧ s'.procBuf = [] ∧
      s'.zstream = ⟨taken, []⟩ := by
  induction hleft : taken.length - s.zstream.taken.length using Nat.strong_induction_on generalizing s with
  | _ left ih =>
    by_cases hdone : s.zstream.taken = taken
    · refine ⟨s, h, hfeed, hpast, hproc, ?_⟩
      rw [← hdone, ← hgiven]
    have hshort : s.zstream.taken.length < taken.length :=
      Nat.lt_of_le_of_ne hpre.length_le fun h => hdone (hpre.eq_of_length h)
    obtain ⟨s', hrounds, hfeed', hproc', hz, hpast', hread, hheld⟩ := h.refill hfeed hin hneg hpast
    have hne : s'.next_in ≠ [] := by
      by_cases hnil : s.next_in = []
      · refine hread ?_
        cases hfeed with
        | file k _ hrem hle hpos hread' =>
          rw [hnil, List.append_nil] at hread'
          have hall := htaken.length_le
          have hk := congrArg List.length hread'
          unfold piece at hall hk
          rw [List.length_take] at hall hk
          omega
        | stale hlen' => omega
        | negative hlen' => omega
      · exact hheld hnil
    rw [hproc] at hproc'
    have hpos := List.length_pos_of_ne_nil hne
    have hgoing := hrounds.feed hproc' (n := min s'.next_in.length (taken.length - s.zstream.taken.length))
      (by omega) (by rw [hz, hgiven]; exact List.nil_prefix)
    have htook : s'.zstream.taken ++ s'.next_in.take (min s'.next_in.length (taken.length - s.zstream.taken.length))
        <+: taken := by
      refine List.prefix_of_prefix_length_le ?_ htaken ?_
      · rcases hfeed'.feeds hneg _ with hstale | ⟨-, hfile⟩
        · omega
        · exact hfile
      · rw [List.length_append, List.length_take, hz]
        omega
    refine ih _ ?_ hgoing (hfeed'.next hneg) hpast' rfl (by
      show s'.zstream.given ++ [] = []
      rw [hz, hgiven]
      rfl) htook rfl
    show taken.length - (s'.zstream.taken ++ _).length < left
    rw [List.length_append, List.length_take, hz]
    omega

/-- When every run stays in the buffer, all that can be decoded fits. -/
theorem deflatedLoop_bound (hin : Inside archive e)
    (h : Going archive Z size ⟨e.offset.toNat, e.compLen, [], [], ⟨[], []⟩⟩ ⟨0, e.uncompLen⟩ w) {taken : Bytes}
    (hfeeds : Feeds archive e taken) :
    bufSize * ((Z.output taken).length / bufSize) ≤ size ∧
      (Z.ended taken = true → (Z.output taken).length ≤ size) := by
  rcases hfeeds with hstale | ⟨hlen, htaken⟩
  · -- The first read finds `taken` in the buffer.
    have hrounds : Rounds archive Z size ⟨e.offset.toNat, 0, taken, [], ⟨[], []⟩⟩ ⟨0, e.uncompLen⟩ w := by
      intro fuel
      have hrun := h (fuel + 1)
      rw [deflatedLoop, Zip.refill, if_neg (by simp), hstale] at hrun
      exact hrun.2 taken w rfl
    have hgoing := hrounds.feed rfl (Nat.le_refl _) List.nil_prefix
    have hall := hgoing.output (e := e) (.stale hstale (.inr rfl) fun h => absurd h (show (0 : Int) ≠ -1 by omega)) hin
      (by omega) (show (0 : Int) ≠ -1 by omega) rfl List.nil_prefix (Nat.dvd_zero _) rfl (Nat.zero_le _)
    have htook : (Inflating.took ⟨e.offset.toNat, 0, taken, [], ⟨[], []⟩⟩ taken.length []).zstream.taken = taken := by
      simp [Inflating.took]
    rwa [htook] at hall
  · have hstart : Feeding archive e ⟨e.offset.toNat, e.compLen, [], [], ⟨[], []⟩⟩ :=
      .file 0 hlen (by simp) (by omega) rfl (by simp [piece])
    obtain ⟨s', hgoing, hfeed, hpast, hproc, hz⟩ := h.input hstart hin (by omega)
      (show e.compLen ≠ -1 by omega) rfl rfl hlen htaken List.nil_prefix
    have hall := hgoing.output hfeed hin (by omega) hpast hproc (by rw [hz]; exact List.nil_prefix) (by rw [hz]; exact Nat.dvd_zero _)
      (by rw [hz]; rfl) (Nat.zero_le _)
    rwa [hz] at hall

/-- The code is safe for no more entries than those that fit. -/
theorem KeepsBuffer.fits (h : KeepsBuffer archive Z e) (hin : e.compression = DEFLATED → Inside archive e) :
    Fits archive Z e := by
  have hrun (fuel : Nat) : wp (zipSem archive Z) (InBuffer (asSize e.uncompLen)) (fun _ _ => True)
      (mzProcessZipEntryContents bufferProcessFunction fuel e ⟨0, e.uncompLen⟩) .fresh := by
    have hall : wp (zipSem archive Z) (InBuffer (asSize e.uncompLen)) (fun _ _ => True)
        (mzExtractZipEntryToBuffer fuel e) .fresh :=
      wp_iff.mpr ⟨(h fuel _ rfl).1, fun _ _ _ => trivial⟩
    exact wp_mono (fun _ h => h) (fun _ _ _ _ => trivial) (wp_bind.mp hall)
  unfold mzProcessZipEntryContents at hrun
  refine ⟨fun hs => ?_, fun hd taken hfeeds => ?_⟩
  · have hrun := hrun 0
    rw [if_pos hs] at hrun
    have hbound := storedLoop_bound (Nat.le_refl _) (Nat.zero_le _) hrun
    rwa [Nat.zero_add] at hbound
  · refine deflatedLoop_bound (hin hd) (w := .fresh) (fun fuel => ?_) hfeeds
    have hrun := hrun fuel
    have hmethod : e.compression ≠ STORED := fun hs => nomatch hs.symm.trans hd
    rw [if_neg hmethod, if_pos hd] at hrun
    unfold processDeflatedEntry at hrun
    simp only [Prog.call_bind, wp_op] at hrun
    have hinit := hrun.2 true _ rfl
    rw [if_pos rfl] at hinit
    exact wp_mono (fun _ h => h) (fun _ _ _ _ => trivial) (wp_bind.mp hinit)

/-! ## The entries of an archive -/

theorem Admitted.inside {m : MemMapping} {p : Nat} (h : Admitted m p) (hoffset : 0 ≤ (entryAt m p).offset) :
    Inside m.bytes (entryAt m p) := by
  intro hlen
  have hsum := h.located.no_overflow
  have hdata := h.located.data_inside
  unfold safe_add at hsum
  simp only [decide_eq_true_eq] at hsum
  rw [Int.emod_eq_of_lt (by omega) (by omega)] at hdata
  unfold MemMapping.length at hdata
  omega

/-- Of an archive that is accepted, exactly the entries that fit are extracted without a write outside the buffer.
The data of a deflated entry are at its offset, unless that is negative. -/
theorem extractsToBuffer_iff {m : MemMapping} {mem : Memory} {a : ZipArchive} (h : parseZipArchive m mem = .ok a)
    (Z : Deflate) {e : ZipEntry} (he : e ∈ a.pEntries) :
    (Fits m.bytes Z e → KeepsBuffer m.bytes Z e) ∧
      ((e.compression = DEFLATED → 0 ≤ e.offset) → KeepsBuffer m.bytes Z e → Fits m.bytes Z e) := by
  obtain ⟨p, -, hadmitted, rfl⟩ := (parse_accepted h).1 e he
  exact ⟨Fits.keeps, fun hoffset hkeeps => hkeeps.fits fun hd => hadmitted.inside (hoffset hd)⟩

theorem oneByte_escapes : ∃ a, parseZipArchive oneByte .enough = .ok a ∧ ∃ e ∈ a.pEntries,
    ∀ Z, ¬ KeepsBuffer oneByte.bytes Z e := by
  obtain ⟨a, h, hlist⟩ := oneByte_parses
  refine ⟨a, h, oneEntry, hlist ▸ List.mem_singleton_self _, fun Z hkeeps => ?_⟩
  have hread : zipSem oneByte.bytes Z _ (.read 31 1) .fresh (some [7]) .fresh :=
    ⟨rfl, fun _ h => ⟨.inr (by decide +kernel), (Option.some.inj h).symm.trans (by decide +kernel)⟩⟩
  have hwrite := (hkeeps 0 .fresh rfl).1 { World.fresh with stores := [(0, 1)] }
    (.step hread (.step (r := ()) rfl .here)) (0, 1) (List.mem_singleton_self _)
  revert hwrite
  decide

theorem oneByte_toBuffer : ∃ a, parseZipArchive oneByte .enough = .ok a ∧ ∃ e ∈ a.pEntries,
    (Fits oneByte.bytes .none e → KeepsBuffer oneByte.bytes .none e) ∧
      ((e.compression = DEFLATED → 0 ≤ e.offset) →
        KeepsBuffer oneByte.bytes .none e → Fits oneByte.bytes .none e) := by
  obtain ⟨a, h, hlist⟩ := oneByte_parses
  have he : oneEntry ∈ a.pEntries := hlist ▸ List.mem_singleton_self _
  exact ⟨a, h, oneEntry, he, extractsToBuffer_iff h .none he⟩

end Miui.Zip
