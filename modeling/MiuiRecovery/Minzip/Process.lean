import MiuiRecovery.Minzip.Extract

/-!
# What reaches a callback

`mzProcessZipEntryContents` hands the data of an entry to its callback in pieces of at most 32 KiB. What the
callback has been given is an initial part of the data, and all of it when the result is `true`.

* `Contract`: what a callback keeps, and which of its failures count.
* `storedLoop_spec`, `deflatedLoop_spec`: the two loops.
* `mzProcessZipEntryContents_spec`: both.
-/

namespace Miui.Zip

open Prog (Sem call wp wp_bind wp_ret wp_op wp_mono wp_crash)

section

variable {sem : Sem ZipOp World} {archive : Bytes} {Z : Deflate} {σ : Type}
variable {C : World → Prop} {f : Bytes → σ → Prog ZipOp (Bool × σ)} {A : Bytes → Prop}
variable {I : Bytes → σ → World → Prop} {Fail : σ → World → Prop}

/-- `sem` allows no more answers than `zipSem`. With the bytes `given` so far the callback keeps `I given`, as long
as they are acceptable (`A`); `Fail` is what a failure of the callback or of a call leaves. -/
structure Contract (sem : Sem ZipOp World) (archive : Bytes) (Z : Deflate) (C : World → Prop)
    (f : Bytes → σ → Prog ZipOp (Bool × σ)) (A : Bytes → Prop) (I : Bytes → σ → World → Prop)
    (Fail : σ → World → Prop) : Prop where
  sub : ∀ {β : Type} (o : ZipOp β) w r w', sem β o w r w' → zipSem archive Z β o w r w'
  step : ∀ given data cookie w, data ≠ [] → A (given ++ data) → I given cookie w →
    wp sem C (fun r w' => (r.1 = true → I (given ++ data) r.2 w') ∧ (r.1 = false → Fail r.2 w')) (f data cookie) w
  crash : ∀ given cookie w, I given cookie w → C w
  read : ∀ given cookie w pos count w', I given cookie w → sem _ (.read pos count) w none w' → Fail cookie w
  init : ∀ given cookie w w', I given cookie w → sem _ .inflateInit2 w false w' → Fail cookie w
  inflate : ∀ given cookie w z next_in avail r w', I given cookie w → sem _ (.inflate z next_in avail) w r w' →
    r.zerr = .failed → Fail cookie w

theorem piece_add (archive : Bytes) (offset k n : Nat) :
    piece archive offset k ++ piece archive (offset + k) n = piece archive offset (k + n) := by
  unfold piece
  rw [List.take_add, List.drop_drop]

theorem piece_length {offset n : Nat} (h : offset + n ≤ archive.length) : (piece archive offset n).length = n := by
  unfold piece
  rw [List.length_take, List.length_drop]
  omega

/-! ## Stored entries -/

theorem storedLoop_spec (K : Contract sem archive Z C f A I Fail) {offset n k fuel : Nat} {cookie : σ} {w : World}
    (hA : ∀ k ≤ n, bufSize ∣ k ∨ k = n → offset + k ≤ archive.length → A (piece archive offset k))
    (hfuel : n - k ≤ fuel) (hk : k ≤ n) (haligned : bufSize ∣ k ∨ k = n) (hin : k ≠ 0 → offset + k ≤ archive.length)
    (hI : I (piece archive offset k) cookie w) :
    wp sem C (fun r w' => (r.1 = true → (n ≠ 0 → offset + n ≤ archive.length) ∧ I (piece archive offset n) r.2 w') ∧
      (r.1 = false → Fail r.2 w')) (storedLoop f fuel (offset + k) (n - k) cookie) w := by
  have hend {cookie : σ} {w : World} {k : Nat} (hk : k = n) (hin : k ≠ 0 → offset + k ≤ archive.length)
      (hI : I (piece archive offset k) cookie w) : wp sem C (fun r w' =>
        (r.1 = true → (n ≠ 0 → offset + n ≤ archive.length) ∧ I (piece archive offset n) r.2 w') ∧
          (r.1 = false → Fail r.2 w')) (pure (true, cookie)) w := by
    subst hk
    exact ⟨K.crash _ _ _ hI, (fun _ => ⟨hin, hI⟩), by simp⟩
  induction fuel generalizing k cookie w with
  | zero => exact hend (by omega) hin hI
  | succ fuel ih =>
    rw [storedLoop]
    by_cases hleft : n - k > 0
    · rw [if_pos hleft]
      simp only [Prog.call_bind, wp_op]
      refine ⟨K.crash _ _ _ hI, fun r w' hr => ?_⟩
      obtain ⟨rfl, hdata⟩ := K.sub _ _ _ _ hr
      cases r with
      | none => exact ⟨K.crash _ _ _ hI, (by simp), fun _ => K.read _ _ _ _ _ _ hI hr⟩
      | some data =>
        obtain ⟨hle, rfl⟩ := hdata data rfl
        have hbuf : 0 < bufSize := by decide
        have hcount : 0 < min (n - k) bufSize := by omega
        have hle := hle.resolve_left (Nat.ne_of_gt hcount)
        have haligned' : bufSize ∣ k + min (n - k) bufSize ∨ k + min (n - k) bufSize = n := by
          rcases Nat.le_total (n - k) bufSize with hlast | hfull
          · exact .inr (by omega)
          · refine .inl ?_
            rw [Nat.min_eq_right hfull]
            exact Nat.dvd_add (haligned.resolve_right (by omega)) (Nat.dvd_refl _)
        have hne : piece archive (offset + k) (min (n - k) bufSize) ≠ [] := fun h => by
          have hlen := piece_length hle
          rw [h, List.length_nil] at hlen
          omega
        simp only [wp_bind]
        refine wp_mono (fun _ h => h) (fun r w' hC hr => ?_) (K.step _ _ cookie w' hne ?_ hI)
        · rw [piece_add] at hr
          cases hret : r.1 with
          | true =>
            rw [if_pos rfl, show n - k - min (n - k) bufSize = n - (k + min (n - k) bufSize) by omega, Nat.add_assoc]
            exact ih (by omega) (by omega) haligned' (fun _ => by omega) (hr.1 hret)
          | false =>
            rw [if_neg Bool.false_ne_true]
            exact ⟨hC, (by simp), fun _ => hr.2 hret⟩
        · rw [piece_add]
          exact hA _ (by omega) haligned' (by omega)
    · rw [if_neg hleft]
      exact hend (by omega) hin hI

/-! ## Deflated entries -/

/-- What `inflate` may have been fed when it is called for an entry. A compressed size of -1 makes the code take
whatever stands in its buffer. -/
def Feeds (archive : Bytes) (e : ZipEntry) (taken : Bytes) : Prop :=
  e.compLen = -1 ∨ 0 ≤ e.compLen ∧ taken <+: piece archive e.offset.toNat e.compLen.toNat

/-- The input of the loop: what was read, and what remains. -/
inductive Feeding (archive : Bytes) (e : ZipEntry) (s : Inflating) : Prop
  | file (k : Nat) (compLen : 0 ≤ e.compLen) (remaining : s.compRemaining = e.compLen - k) (le : (k : Int) ≤ e.compLen)
      (pos : s.pos = e.offset.toNat + k) (read : s.zstream.taken ++ s.next_in = piece archive e.offset.toNat k)
  | stale (compLen : e.compLen = -1) (remaining : s.compRemaining = -1 ∨ s.compRemaining = 0)
      (start : s.compRemaining = -1 → s.next_in = [])
  | negative (compLen : e.compLen < -1) (remaining : s.compRemaining = e.compLen) (start : s.next_in = [])

variable {e : ZipEntry}

theorem Feeding.feeds {s : Inflating} (h : Feeding archive e s) (hneg : -1 ≤ e.compLen) (n : Nat) :
    Feeds archive e (s.zstream.taken ++ s.next_in.take n) := by
  cases h with
  | file k hlen hrem hle hpos hread =>
    refine .inr ⟨hlen, ?_⟩
    have hpre : s.zstream.taken ++ s.next_in.take n <+: piece archive e.offset.toNat k :=
      hread ▸ (List.prefix_append_right_inj _).mpr (List.take_prefix _ _)
    refine hpre.trans ?_
    unfold piece
    exact List.take_prefix_take_left (by omega)
  | stale hlen => exact .inl hlen
  | negative hlen => omega

theorem Feeding.next {s : Inflating} (h : Feeding archive e s) {n : Nat} {procBuf : Bytes} {given : Bytes}
    (hneg : -1 ≤ e.compLen) :
    Feeding archive e { s with
      next_in := s.next_in.drop n, procBuf, zstream := ⟨s.zstream.taken ++ s.next_in.take n, given⟩ } := by
  cases h with
  | file k hlen hrem hle hpos hread =>
    refine .file k hlen hrem hle hpos ?_
    rw [List.append_assoc, List.take_append_drop]
    exact hread
  | stale hlen hrem hstart =>
    refine .stale hlen hrem fun h => ?_
    show s.next_in.drop n = []
    rw [hstart h, List.drop_nil]
  | negative hlen => omega

/-- The read keeps the input in step; only an entry with a negative size gets past it without a read. -/
theorem refill_spec (K : Contract sem archive Z C f A I Fail) {s : Inflating} {given : Bytes} {cookie : σ} {w : World}
    (h : Feeding archive e s) (hI : I given cookie w) :
    wp sem C (fun r w' => w' = w ∧
      match r with
      | none => Fail cookie w ∨ e.compLen < 0
      | some s' => -1 ≤ e.compLen ∧ Feeding archive e s' ∧ s'.procBuf = s.procBuf ∧ s'.zstream = s.zstream)
      (refill s) w := by
  have hC := K.crash _ _ _ hI
  unfold refill
  by_cases hin : s.next_in ≠ []
  · rw [if_pos hin]
    refine ⟨hC, rfl, ?_, h, rfl, rfl⟩
    cases h with
    | file k hlen => omega
    | stale hlen => omega
    | negative _ _ hstart => exact absurd hstart hin
  rw [if_neg hin]
  have hempty : s.next_in = [] := not_not.mp hin
  by_cases hneg : min s.compRemaining bufSize < 0
  · rw [if_pos hneg]
    have hbuf : (0 : Int) < bufSize := by decide
    have hmin : min s.compRemaining bufSize = s.compRemaining := min_eq_left (by omega)
    rw [hmin] at hneg ⊢
    by_cases hone : s.compRemaining = -1
    · rw [if_pos hone]
      refine ⟨hC, fun r w' hr => ?_⟩
      obtain rfl : w' = w := K.sub _ _ _ _ hr
      have hlen : e.compLen = -1 := by
        cases h with
        | file k hlen hrem hle => omega
        | stale hlen => exact hlen
        | negative hlen hrem => omega
      refine ⟨hC, rfl, by omega, .stale hlen (.inr ?_) fun h => ?_, rfl, rfl⟩
      · show s.compRemaining - s.compRemaining = 0
        omega
      · exact absurd h (by show s.compRemaining - s.compRemaining ≠ -1; omega)
    · rw [if_neg hone]
      refine ⟨hC, rfl, .inr ?_⟩
      cases h with
      | file k hlen hrem hle => omega
      | stale hlen => omega
      | negative hlen => omega
  rw [if_neg hneg]
  simp only [Prog.call_bind, wp_op]
  refine ⟨hC, fun r w' hr => ?_⟩
  obtain ⟨rfl, hdata⟩ := K.sub _ _ _ _ hr
  cases r with
  | none => exact ⟨hC, rfl, .inl (K.read _ _ _ _ _ _ hI hr)⟩
  | some data =>
    obtain ⟨-, rfl⟩ := hdata data rfl
    cases h with
    | file k hlen hrem hkle hpos hread =>
      refine ⟨hC, rfl, by omega, .file (k + (min s.compRemaining bufSize).toNat) hlen ?_ ?_ ?_ ?_, rfl, rfl⟩
      · show s.compRemaining - min s.compRemaining bufSize = _
        omega
      · omega
      · show s.pos + _ = _
        omega
      · show s.zstream.taken ++ piece archive s.pos _ = _
        rw [hempty, List.append_nil] at hread
        rw [hread, hpos, piece_add]
    | stale hlen hrem hstart =>
      refine ⟨hC, rfl, by omega, .stale hlen (.inr ?_) fun h => ?_, rfl, rfl⟩
      · show s.compRemaining - min s.compRemaining bufSize = 0
        omega
      · exact absurd h (by show s.compRemaining - min s.compRemaining bufSize ≠ -1; omega)
    | negative hlen hrem => omega

/-- The parts of the decoded data that the callback may come to have. -/
def Acceptable (archive : Bytes) (Z : Deflate) (e : ZipEntry) (A : Bytes → Prop) : Prop :=
  ∀ taken given, Feeds archive e taken → given <+: Z.output taken →
    (bufSize ∣ given.length ∨ Z.ended taken = true ∧ given = Z.output taken) → A given

/-- What a run of `deflatedLoop` ends with. -/
def Decoded (archive : Bytes) (Z : Deflate) (I : Bytes → σ → World → Prop)
    (Fail : σ → World → Prop) (e : ZipEntry) (r : Int × σ) (w : World) : Prop :=
  r.1 = -1 ∧ (Fail r.2 w ∨ e.compLen < 0 ∧ ∃ given, I given r.2 w) ∨ ∃ taken, Feeds archive e taken ∧ Z.ended taken = true ∧
    r.1 = asInt (Z.output taken).length ∧ I (Z.output taken) r.2 w

theorem deflatedLoop_spec (K : Contract sem archive Z C f A I Fail) (hA : Acceptable archive Z e A) {fuel : Nat}
    {s : Inflating} {delivered : Bytes} {cookie : σ} {w : World} (hfeed : Feeding archive e s)
    (hgiven : s.zstream.given = delivered ++ s.procBuf) (haligned : bufSize ∣ delivered.length)
    (hshort : s.procBuf.length < bufSize) (hI : I delivered cookie w) :
    wp sem C (Decoded archive Z I Fail e) (deflatedLoop f fuel s cookie) w := by
  induction fuel generalizing s delivered cookie w with
  | zero => exact ⟨K.crash _ _ _ hI, by rintro ⟨⟩⟩
  | succ fuel ih =>
    rw [deflatedLoop]
    simp only [wp_bind]
    refine wp_mono (fun _ h => h) (fun r w' hC hr => ?_) (refill_spec K hfeed hI)
    obtain ⟨rfl, hr⟩ := hr
    cases r with
    | none => exact ⟨hC, .inl ⟨rfl, hr.imp_right fun hneg => ⟨hneg, delivered, hI⟩⟩⟩
    | some s' =>
      obtain ⟨hneg, hfeed', hproc, hz⟩ := hr
      unfold inflateRound
      simp only [Prog.call_bind, wp_op]
      refine ⟨hC, fun r w'' hr => ?_⟩
      obtain ⟨rfl, hconsumed, hout, hdecoded, hended⟩ := K.sub _ _ _ _ hr
      by_cases hfailed : r.zerr = .failed
      · rw [if_pos hfailed]
        exact ⟨hC, .inl ⟨rfl, .inl (K.inflate _ _ _ _ _ _ _ _ hI hr hfailed)⟩⟩
      rw [if_neg hfailed]
      have hfeeds : Feeds archive e (s'.zstream.after s'.next_in r).taken := hfeed'.feeds hneg r.consumed
      have hgiven' : (s'.zstream.after s'.next_in r).given = delivered ++ (s'.procBuf ++ r.out) := by
        show s'.zstream.given ++ r.out = _
        rw [hz, hgiven, hproc, List.append_assoc]
      have hpre := hgiven' ▸ hdecoded hfailed
      have hfeed'' : Feeding archive e { s' with
          next_in := s'.next_in.drop r.consumed, procBuf := s'.procBuf ++ r.out,
          zstream := s'.zstream.after s'.next_in r } := hfeed'.next hneg
      have hend (hstream : r.zerr ≠ .ok) : Z.ended (s'.zstream.after s'.next_in r).taken = true ∧
          delivered ++ (s'.procBuf ++ r.out) = Z.output (s'.zstream.after s'.next_in r).taken := by
        have h := hended (by cases hz : r.zerr with
          | ok => exact absurd hz hstream
          | streamEnd => rfl
          | failed => exact absurd hz hfailed)
        exact ⟨h.1, hgiven' ▸ h.2⟩
      -- The result of a stream that has ended with everything delivered.
      have hresult {cookie : σ} {w : World} (hstream : r.zerr ≠ .ok)
          (hI : I (delivered ++ (s'.procBuf ++ r.out)) cookie w) : Decoded archive Z I Fail e
            (asInt (s'.zstream.after s'.next_in r).given.length, cookie) w := by
        obtain ⟨htaken, hall⟩ := hend hstream
        refine .inr ⟨_, hfeeds, htaken, ?_, hall ▸ hI⟩
        rw [hgiven', hall]
      have hbuf : 0 < bufSize := by decide
      by_cases hflush : (s'.procBuf ++ r.out).length = bufSize ∨ r.zerr = .streamEnd ∧ s'.procBuf ++ r.out ≠ []
      · rw [if_pos hflush]
        have hne : s'.procBuf ++ r.out ≠ [] := hflush.elim
          (fun h h0 => by rw [h0, List.length_nil] at h; omega) And.right
        have hacc : A (delivered ++ (s'.procBuf ++ r.out)) := by
          refine hA _ _ hfeeds hpre ?_
          rcases hflush with hfull | ⟨hstream, -⟩
          · refine .inl ?_
            rw [List.length_append, hfull]
            exact Nat.dvd_add haligned (Nat.dvd_refl _)
          · exact .inr (hend (by rw [hstream]; simp))
        simp only [wp_bind]
        refine wp_mono (fun _ h => h) (fun r' w' hC' hr' => ?_) (K.step _ _ cookie _ hne hacc hI)
        cases hret : r'.1 with
        | false =>
          rw [if_neg Bool.false_ne_true]
          exact ⟨hC', .inl ⟨rfl, .inl (hr'.2 hret)⟩⟩
        | true =>
          rw [if_pos rfl]
          have hI' := hr'.1 hret
          by_cases hok : r.zerr = .ok
          · rw [if_pos hok]
            refine ih (hfeed'.next hneg) ?_ ?_ hbuf hI'
            · rw [List.append_nil]
              exact hgiven'
            · rcases hflush with hfull | ⟨hstream, -⟩
              · rw [List.length_append, hfull]
                exact Nat.dvd_add haligned (Nat.dvd_refl _)
              · cases hok.symm.trans hstream
          · rw [if_neg hok]
            exact ⟨hC', hresult hok hI'⟩
      · rw [if_neg hflush]
        obtain ⟨hnotfull, hnotend⟩ := not_or.mp hflush
        by_cases hok : r.zerr = .ok
        · rw [if_pos hok]
          refine ih hfeed'' hgiven' haligned ?_ hI
          rw [List.length_append] at hnotfull ⊢
          rw [hproc] at hnotfull hout ⊢
          omega
        · rw [if_neg hok]
          have hstream : r.zerr = .streamEnd := by
            cases hz : r.zerr with
            | ok => exact absurd hz hok
            | streamEnd => rfl
            | failed => exact absurd hz hfailed
          have hnil : s'.procBuf ++ r.out = [] := by_contra fun h => hnotend ⟨hstream, h⟩
          refine ⟨hC, hresult hok ?_⟩
          rw [hnil, List.append_nil]
          exact hI

/-! ## Both -/

/-- The whole content of an entry. -/
inductive Content (archive : Bytes) (Z : Deflate) (e : ZipEntry) : Bytes → Prop
  | stored (method : e.compression = STORED)
      (inside : asSize e.compLen ≠ 0 → e.offset.toNat + asSize e.compLen ≤ archive.length) :
      Content archive Z e (piece archive e.offset.toNat (asSize e.compLen))
  | deflated {taken : Bytes} (method : e.compression = DEFLATED) (feeds : Feeds archive e taken)
      (ended : Z.ended taken = true) (size : asInt (Z.output taken).length = e.uncompLen) :
      Content archive Z e (Z.output taken)

/-- An entry that cannot be extracted, whatever the calls answer. -/
def Faulty (archive : Bytes) (Z : Deflate) (e : ZipEntry) : Prop :=
  e.compression ≠ STORED ∧ (e.compression = DEFLATED → e.compLen < 0 ∨ ∃ taken, Feeds archive e taken ∧
    Z.ended taken = true ∧ asInt (Z.output taken).length ≠ e.uncompLen)

/-- A result `true` means that the callback has all of the content. An uncompressed size of -1 is the result of a
failed inflation as well. -/
theorem mzProcessZipEntryContents_spec (K : Contract sem archive Z C f A I Fail)
    (hstored : e.compression = STORED → ∀ k ≤ asSize e.compLen, bufSize ∣ k ∨ k = asSize e.compLen →
      e.offset.toNat + k ≤ archive.length → A (piece archive e.offset.toNat k))
    (hdeflated : e.compression = DEFLATED → Acceptable archive Z e A) (fuel : Nat) {cookie : σ} {w : World}
    (hI : I [] cookie w) :
    wp sem C (fun r w' =>
      (r.1 = true → (∃ content, Content archive Z e content ∧ I content r.2 w') ∨
        e.compression = DEFLATED ∧ e.uncompLen = -1 ∧ (Fail r.2 w' ∨ e.compLen < 0 ∧ ∃ given, I given r.2 w')) ∧
      (r.1 = false → Fail r.2 w' ∨ Faulty archive Z e)) (mzProcessZipEntryContents f fuel e cookie) w := by
  unfold mzProcessZipEntryContents
  by_cases hs : e.compression = STORED
  · rw [if_pos hs]
    refine wp_mono (fun _ h => h) (fun r w' _ hr => ⟨fun hret => ?_, fun hret => .inl (hr.2 hret)⟩)
      (storedLoop_spec K (hstored hs) (Nat.le_refl _) (Nat.zero_le _) (.inl (Nat.dvd_zero _)) (fun h => absurd rfl h) hI)
    obtain ⟨hin, hI'⟩ := hr.1 hret
    exact .inl ⟨_, .stored hs hin, hI'⟩
  rw [if_neg hs]
  by_cases hd : e.compression = DEFLATED
  · rw [if_pos hd]
    unfold processDeflatedEntry
    simp only [Prog.call_bind, wp_op]
    refine ⟨K.crash _ _ _ hI, fun r w' hr => ?_⟩
    obtain rfl : w' = w := K.sub _ _ _ _ hr
    have hstart : Feeding archive e ⟨e.offset.toNat, e.compLen, [], [], ⟨[], []⟩⟩ := by
      rcases Int.lt_trichotomy e.compLen (-1) with h | h | h
      · exact .negative h rfl rfl
      · exact .stale h (.inl h) fun _ => rfl
      · exact .file 0 (by omega) (by simp) (by omega) rfl (by simp [piece])
    have hfinish {r : Int × σ} {w' : World} (hC : C w') (hr : Decoded archive Z I Fail e r w') :
        wp sem C (fun r w' =>
          (r.1 = true → (∃ content, Content archive Z e content ∧ I content r.2 w') ∨
            e.compression = DEFLATED ∧ e.uncompLen = -1 ∧
              (Fail r.2 w' ∨ e.compLen < 0 ∧ ∃ given, I given r.2 w')) ∧
          (r.1 = false → Fail r.2 w' ∨ Faulty archive Z e)) (pure (r.1 == e.uncompLen, r.2)) w' := by
      refine ⟨hC, fun hret => ?_, fun hret => ?_⟩
      · have hret : r.1 = e.uncompLen := by simpa using hret
        rcases hr with ⟨hfail, hleft⟩ | ⟨taken, hfeeds, hended, hsize, hI'⟩
        · exact .inr ⟨hd, hret ▸ hfail, hleft⟩
        · exact .inl ⟨_, .deflated hd hfeeds hended (hsize ▸ hret), hI'⟩
      · have hret : r.1 ≠ e.uncompLen := by simpa using hret
        rcases hr with ⟨-, hfail | ⟨hneg, -⟩⟩ | ⟨taken, hfeeds, hended, hsize, -⟩
        · exact .inl hfail
        · exact .inr ⟨hs, fun _ => .inl hneg⟩
        · exact .inr ⟨hs, fun _ => .inr ⟨taken, hfeeds, hended, hsize ▸ hret⟩⟩
    have hbuf : 0 < bufSize := by decide
    cases r with
    | true =>
      rw [if_pos rfl]
      exact wp_bind.mpr (wp_mono (fun _ h => h) (fun r w' hC hr => hfinish hC hr)
        (deflatedLoop_spec K (hdeflated hd) hstart rfl (Nat.dvd_zero _) hbuf hI))
    | false =>
      rw [if_neg Bool.false_ne_true]
      exact hfinish (K.crash _ _ _ hI) (.inl ⟨rfl, .inl (K.init _ _ _ _ hI hr)⟩)
  · rw [if_neg hd]
    exact ⟨K.crash _ _ _ hI, (by simp), fun _ => .inr ⟨hs, fun h => absurd h hd⟩⟩

end

end Miui.Zip
