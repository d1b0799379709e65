import MiuiRecovery.Minzip.Eocd

/-!
# The whole-file signature check

`verify_file` (`verifier.cpp`) reads the six-byte footer at the end of a package, locates the
end-of-central-directory record (EOCD) from the comment size in it, refuses a second EOCD signature
after the first, and asks `RSA_verify` about the hash of everything before the comment length.

`verifyFile_same_eocd` connects it to the zip opener: a package it accepts has one EOCD record that
the opener can use, and it is the one the verifier found.
-/

namespace Miui

open Bytes

/-- What the verifier uses of `mincrypt`: the size of an RSA block, the hash, and the check of a
signature block (`none` where its bytes lie outside the buffer that was read). -/
structure Mincrypt where
  Key : Type
  Digest : Type
  RSANUMBYTES : Nat
  SHA : Bytes → Digest
  RSA_verify : Key → Option Bytes → Digest → Bool

inductive VerifyResult
  | VERIFY_SUCCESS
  | VERIFY_FAILURE
  deriving DecidableEq, Repr

open VerifyResult

def FOOTER_SIZE : Nat := 6
def EOCD_HEADER_SIZE : Nat := 22
def BUFFER_SIZE : Nat := 4096

/-- The two sizes in the footer of a package. -/
structure Footer where
  signature_start : Nat
  comment_size : Nat
  deriving DecidableEq, Repr

/-- The footer `(signature start) $ff $ff (comment size)`, if the file ends in one. -/
def readFooter (file : Bytes) : Option Footer :=
  if file.length < FOOTER_SIZE then none
  else match slice file (file.length - FOOTER_SIZE) FOOTER_SIZE with
    | some [f0, f1, f2, f3, f4, f5] =>
      if f2 ≠ 0xff ∨ f3 ≠ 0xff then none
      else some { signature_start := f0.toNat + 256 * f1.toNat,
                  comment_size := f4.toNat + 256 * f5.toNat }
    | _ => none

/-- The EOCD signature at index `i` of the buffer. -/
def isEocdMarker (eocd : Bytes) (i : Nat) : Bool :=
  slice eocd i 4 = some [0x50, 0x4b, 0x05, 0x06]

/-- The loop `for (i = 4; i < eocd_size-3; ++i)` that looks for a second signature. -/
def markerAfterStart (eocd : Bytes) : Bool :=
  ((List.range (eocd.length - 3)).drop 4).any (isEocdMarker eocd)

/-- The loop that feeds the signed part to the hash, `BUFFER_SIZE` bytes at a time: the bytes fed
so far are `ctx`. -/
def hashLoop (file : Bytes) (signed_len so_far : Nat) (ctx : Bytes) : Option Bytes :=
  if so_far < signed_len then
    let size := min BUFFER_SIZE (signed_len - so_far)
    match slice file so_far size with
    | some buffer => hashLoop file signed_len (so_far + size) (ctx ++ buffer)
    | none => none
  else some ctx
termination_by signed_len - so_far
decreasing_by simp only [BUFFER_SIZE]; omega

/-- The EOCD record that the footer points to: its offset and its bytes up to the end of the file. -/
def locateEocd (file : Bytes) (footer : Footer) : Option (Nat × Bytes) :=
  let eocd_size := footer.comment_size + EOCD_HEADER_SIZE
  if file.length < eocd_size then none
  else
    let off := file.length - eocd_size
    match slice file off eocd_size with
    | some eocd => if isEocdMarker eocd 0 then some (off, eocd) else none
    | none => none

/-- The signature block `eocd + eocd_size - 6 - RSANUMBYTES`. -/
def signatureBlock (mc : Mincrypt) (eocd : Bytes) : Option Bytes :=
  if eocd.length < FOOTER_SIZE + mc.RSANUMBYTES then none
  else slice eocd (eocd.length - FOOTER_SIZE - mc.RSANUMBYTES) mc.RSANUMBYTES

/-- `verify_file`; `file` is `none` when it cannot be opened. -/
def verifyFile (mc : Mincrypt) (file : Option Bytes) (pKeys : List mc.Key) : VerifyResult :=
  match file with
  | none => VERIFY_FAILURE
  | some file =>
    match readFooter file with
    | none => VERIFY_FAILURE
    | some footer =>
      if footer.signature_start < mc.RSANUMBYTES + FOOTER_SIZE then VERIFY_FAILURE
      else match locateEocd file footer with
        | none => VERIFY_FAILURE
        | some (off, eocd) =>
          let signed_len := off + EOCD_HEADER_SIZE - 2
          if markerAfterStart eocd then VERIFY_FAILURE
          else match hashLoop file signed_len 0 [] with
            | none => VERIFY_FAILURE
            | some signed =>
              if pKeys.any fun key => mc.RSA_verify key (signatureBlock mc eocd) (mc.SHA signed)
              then VerifyResult.VERIFY_SUCCESS else VERIFY_FAILURE

/-! ## The parts of the check -/

theorem isEocdMarker_iff {eocd : Bytes} {i : Nat} :
    isEocdMarker eocd i = true ↔ get4LE eocd i = some ENDSIG := by
  unfold isEocdMarker
  rw [get4LE_eq_ENDSIG, decide_eq_true_eq]

theorem hashLoop_eq {file : Bytes} {signed_len : Nat} (hle : signed_len ≤ file.length)
    (so_far : Nat) (ctx : Bytes) :
    hashLoop file signed_len so_far ctx =
      some (ctx ++ (file.drop so_far).take (signed_len - so_far)) := by
  induction so_far, ctx using hashLoop.induct file signed_len with
  | case1 so_far ctx h size buffer hs ih =>
    unfold hashLoop
    simp only [h, ↓reduceIte]
    rw [hs]
    simp only
    rw [ih, List.append_assoc]
    congr 2
    obtain ⟨-, rfl⟩ := slice_eq_some.mp hs
    have hsz : signed_len - so_far = size + (signed_len - (so_far + size)) := by omega
    rw [hsz, List.take_add, List.drop_drop]
  | case2 so_far ctx h size hs =>
    rw [slice_isSome (by omega)] at hs
    cases hs
  | case3 so_far ctx h =>
    unfold hashLoop
    simp [h, show signed_len - so_far = 0 by omega]

theorem locateEocd_eq_some {file eocd : Bytes} {footer : Footer} {off : Nat}
    (h : locateEocd file footer = some (off, eocd)) :
    off + (EOCD_HEADER_SIZE + footer.comment_size) = file.length ∧ eocd = file.drop off ∧
      isEocdMarker eocd 0 = true := by
  unfold locateEocd at h
  simp only at h
  split at h
  · cases h
  · rename_i hlen
    rw [slice_isSome (by omega)] at h
    simp only at h
    split at h
    · rename_i hm
      cases h
      have hall : file.length - (file.length - (footer.comment_size + EOCD_HEADER_SIZE)) ≤
          footer.comment_size + EOCD_HEADER_SIZE := by omega
      rw [List.take_of_length_le (by simpa using hall)] at hm ⊢
      exact ⟨by omega, rfl, hm⟩
    · cases h

/-- The scan for a second signature covers every later offset at which four bytes fit. -/
theorem markerAfterStart_eq_false {eocd : Bytes} (h : markerAfterStart eocd = false) {i : Nat}
    (hi : 4 ≤ i) : isEocdMarker eocd i = false := by
  by_contra hm
  have hm : isEocdMarker eocd i = true := by simpa using hm
  have hlen := get4LE_lt (isEocdMarker_iff.mp hm)
  unfold markerAfterStart at h
  rw [List.any_eq_false] at h
  refine absurd hm (h i (List.mem_iff_getElem.mpr ⟨i - 4, by simp; omega, ?_⟩))
  simp; omega

/-- Two signatures cannot overlap: the first byte of one is none of the other three. -/
theorem isEocdMarker_overlap {eocd : Bytes} {i : Nat} (h0 : isEocdMarker eocd 0 = true)
    (hi : isEocdMarker eocd i = true) (hpos : 0 < i) : 4 ≤ i := by
  unfold isEocdMarker at h0 hi
  rw [decide_eq_true_eq] at h0 hi
  obtain ⟨hl, h0⟩ := slice_eq_some.mp h0
  obtain ⟨hil, hi⟩ := slice_eq_some.mp hi
  by_contra hc
  have hget : eocd[i]? = some 0x50 := by
    have := congrArg (·[0]?) hi
    simpa [List.getElem?_take, List.getElem?_drop] using this
  have hget' : eocd[i]? = ([0x50, 0x4b, 0x05, 0x06] : Bytes)[i]? := by
    rw [← h0]; simp [List.getElem?_take]; omega
  rw [hget'] at hget
  have h3 : i = 1 ∨ i = 2 ∨ i = 3 := by omega
  rcases h3 with rfl | rfl | rfl <;> simp at hget

/-- What `VERIFY_SUCCESS` says: the footer names the EOCD record `off`, no other EOCD signature
follows it, and some key accepts the hash of everything before the record's comment length. -/
theorem verifyFile_success {mc : Mincrypt} {file : Bytes} {pKeys : List mc.Key}
    (h : verifyFile mc (some file) pKeys = VerifyResult.VERIFY_SUCCESS) :
    ∃ footer off, readFooter file = some footer ∧
      off + (EOCD_HEADER_SIZE + footer.comment_size) = file.length ∧
      get4LE file off = some ENDSIG ∧ (∀ o, off < o → get4LE file o ≠ some ENDSIG) ∧
      ∃ key ∈ pKeys, mc.RSA_verify key (signatureBlock mc (file.drop off))
        (mc.SHA (file.take (off + EOCD_HEADER_SIZE - 2))) = true := by
  unfold verifyFile at h
  simp only at h
  split at h
  · cases h
  rename_i footer hf
  split at h
  · cases h
  split at h
  · cases h
  rename_i off eocd hloc
  obtain ⟨hoff, rfl, hm⟩ := locateEocd_eq_some hloc
  split at h
  · cases h
  rename_i hno
  rw [hashLoop_eq (by simp only [EOCD_HEADER_SIZE] at hoff ⊢; omega)] at h
  simp only [List.drop_zero, Nat.sub_zero, List.nil_append] at h
  split at h
  · rename_i hany
    obtain ⟨key, hk, hv⟩ := List.any_eq_true.mp hany
    have hdrop : ∀ i, get4LE (file.drop off) i = get4LE file (off + i) := by
      intro i; unfold get4LE readLE; rw [slice_drop (by omega)]
    refine ⟨footer, off, hf, hoff, by rw [← Nat.add_zero off, ← hdrop]; exact isEocdMarker_iff.mp hm,
      fun o ho hsig => ?_, key, hk, hv⟩
    have hi : isEocdMarker (file.drop off) (o - off) = true := by
      rw [isEocdMarker_iff, hdrop, show off + (o - off) = o by omega]; exact hsig
    have h4 := isEocdMarker_overlap hm hi (by omega)
    rw [markerAfterStart_eq_false (by simpa using hno) h4] at hi
    cases hi
  · cases h

/-! ## The verifier and the opener -/

/-- The opener uses the EOCD record that the verifier located, `22 + comment_size` bytes before the
end of the file, and everything of it before its comment length is under the accepted signature. -/
theorem verifyFile_same_eocd (mc : Mincrypt) (file : Bytes) (pKeys : List mc.Key) (ptr : Nat)
    (hv : verifyFile mc (some file) pKeys = VerifyResult.VERIFY_SUCCESS)
    (hp : parseZipArchiveEocd file = some ptr) :
    ∃ footer, readFooter file = some footer ∧ ptr = file.length - (22 + footer.comment_size) ∧
      22 + footer.comment_size ≤ file.length ∧
      ∃ signed_len, ptr + 20 ≤ signed_len ∧ signed_len ≤ file.length ∧
        ∃ key ∈ pKeys, mc.RSA_verify key (signatureBlock mc (file.drop ptr))
          (mc.SHA (file.take signed_len)) = true := by
  obtain ⟨footer, off, hf, hoff, hsig, hno, hkey⟩ := verifyFile_success hv
  obtain ⟨hfit, hpsig, hlast⟩ := parseZipArchiveEocd_spec hp
  simp only [EOCD_HEADER_SIZE, ENDHDR] at hoff hfit hlast
  have hpo : ptr = off := by
    rcases Nat.lt_trichotomy ptr off with h | h | h
    · exact absurd hsig (hlast off h (by omega))
    · exact h
    · exact absurd hpsig (hno ptr h)
  subst hpo
  refine ⟨footer, hf, by omega, by omega, ptr + EOCD_HEADER_SIZE - 2, ?_, ?_, hkey⟩
  · simp only [EOCD_HEADER_SIZE]; omega
  · simp only [EOCD_HEADER_SIZE]; omega

/-- A signed package: a local header signature, an EOCD record, and a comment that ends in a
256-byte signature block and the footer. -/
def signedPackage : Bytes :=
  [0x50, 0x4b, 0x03, 0x04] ++ [0x50, 0x4b, 0x05, 0x06] ++ List.replicate 16 0 ++ [0x06, 0x01] ++
    List.replicate 256 0x42 ++ [0x06, 0x01, 0xff, 0xff, 0x06, 0x01]

/-- An oracle for 2048-bit keys that accepts the one block of `signedPackage`. -/
def signedPackageKey : Mincrypt where
  Key := Unit
  Digest := Bytes
  RSANUMBYTES := 256
  SHA := id
  RSA_verify := fun _ sig digest =>
    decide (sig = some (List.replicate 256 0x42) ∧ digest = signedPackage.take 24)

theorem verifyFile_same_eocd_signedPackage :
    ∃ footer, readFooter signedPackage = some footer ∧
      4 = signedPackage.length - (22 + footer.comment_size) ∧
      22 + footer.comment_size ≤ signedPackage.length ∧
      ∃ signed_len, 4 + 20 ≤ signed_len ∧ signed_len ≤ signedPackage.length ∧
        ∃ key ∈ [()], signedPackageKey.RSA_verify key
          (signatureBlock signedPackageKey (signedPackage.drop 4))
          (signedPackageKey.SHA (signedPackage.take signed_len)) = true :=
  verifyFile_same_eocd signedPackageKey signedPackage [()] 4 (by decide +kernel)
    (by decide +kernel)

/-! ## The accesses to the EOCD buffer -/

/-- `eocd[i]`, for any index -/
def eocdAt (eocd : Bytes) (i : Int) : Option UInt8 := if 0 ≤ i then eocd[i.toNat]? else none

/-- The comparison with a signature, up to the first byte that differs. -/
def markerAt (eocd : Bytes) (i : Nat) : Bytes → Option Bool
  | [] => some true
  | b :: bs => do
    if (← eocdAt eocd i) = b then markerAt eocd (i + 1) bs else return false

def EOCD_MARKER : Bytes := [0x50, 0x4b, 0x05, 0x06]

/-- `for (i = 4; i < eocd_size-3; ++i)`, from `i` on -/
def scanMarkers (eocd : Bytes) (i : Nat) : Option Bool :=
  if i < eocd.length - 3 then do
    if ← markerAt eocd i EOCD_MARKER then return true else scanMarkers eocd (i + 1)
  else some false
termination_by eocd.length - i

/-- `len` bytes of the buffer, for any index -/
def eocdBlock (eocd : Bytes) (start : Int) : Nat → Option Bytes
  | 0 => some []
  | len + 1 => do return (← eocdAt eocd start) :: (← eocdBlock eocd (start + 1) len)

/-- The loop over the keys. -/
def verifyKeys (mc : Mincrypt) (eocd : Bytes) (sha1 : mc.Digest) : List mc.Key → Option Bool
  | [] => some false
  | key :: keys => do
    let sig ← eocdBlock eocd ((eocd.length : Int) - FOOTER_SIZE - mc.RSANUMBYTES) mc.RSANUMBYTES
    if mc.RSA_verify key (some sig) sha1 then return true else verifyKeys mc eocd sha1 keys

/-- The last `comment_size + EOCD_HEADER_SIZE` bytes, with the offset that `ftell` gives. -/
def readEocd (file : Bytes) (footer : Footer) : Option (Nat × Bytes) :=
  let eocd_size := footer.comment_size + EOCD_HEADER_SIZE
  if file.length < eocd_size then none
  else some (file.length - eocd_size, file.drop (file.length - eocd_size))

/-- What a call of `verify_file` returns, with `signed_len` and the bytes that have been hashed. -/
structure Check where
  result : VerifyResult
  signed : Option (Int × Bytes)
  deriving DecidableEq

/-- `verify_file` with each access to `eocd` checked: `none` where an index lies outside. -/
def verifyFileChecked (mc : Mincrypt) (file : Bytes) (pKeys : List mc.Key) : Option Check :=
  match readFooter file with
  | none => some ⟨VERIFY_FAILURE, none⟩
  | some footer =>
    if footer.signature_start < mc.RSANUMBYTES + FOOTER_SIZE then some ⟨VERIFY_FAILURE, none⟩
    else match readEocd file footer with
      | none => some ⟨VERIFY_FAILURE, none⟩
      | some (off, eocd) => do
        let signed_len : Int := off + EOCD_HEADER_SIZE - 2
        if !(← markerAt eocd 0 EOCD_MARKER) then return ⟨VERIFY_FAILURE, none⟩
        if ← scanMarkers eocd 4 then return ⟨VERIFY_FAILURE, none⟩
        match hashLoop file signed_len.toNat 0 [] with
        | none => return ⟨VERIFY_FAILURE, none⟩
        | some hashed =>
          let ok ← verifyKeys mc eocd (mc.SHA hashed) pKeys
          return ⟨if ok then VerifyResult.VERIFY_SUCCESS else VERIFY_FAILURE, some (signed_len, hashed)⟩

theorem eocdAt_inside {eocd : Bytes} {i : Nat} (h : i < eocd.length) : eocdAt eocd i = some eocd[i] := by
  unfold eocdAt
  rw [if_pos (Int.natCast_nonneg i), Int.toNat_natCast, List.getElem?_eq_getElem h]

theorem markerAt_eq {eocd bs : Bytes} {i : Nat} (h : i + bs.length ≤ eocd.length) :
    markerAt eocd i bs = some (decide ((eocd.drop i).take bs.length = bs)) := by
  induction bs generalizing i with
  | nil => simp [markerAt]
  | cons b bs ih =>
    rw [List.length_cons] at h
    have hlt : i < eocd.length := by omega
    have hhead : (eocd.drop i).take (bs.length + 1) = eocd[i] :: (eocd.drop (i + 1)).take bs.length := by
      rw [List.drop_eq_getElem_cons hlt, List.take_succ_cons]
    rw [markerAt, eocdAt_inside hlt, List.length_cons, hhead]
    by_cases hb : eocd[i] = b
    · simp [hb, ih (i := i + 1) (by omega)]
    · simp [hb]

theorem markerAt_marker {eocd : Bytes} {i : Nat} (h : i + 4 ≤ eocd.length) :
    markerAt eocd i EOCD_MARKER = some (isEocdMarker eocd i) := by
  have hlen : EOCD_MARKER.length = 4 := rfl
  rw [markerAt_eq (by omega), hlen]
  unfold isEocdMarker EOCD_MARKER
  rw [slice_isSome h]
  simp only [Option.some.injEq]

/-- The scan stays in the buffer. -/
theorem scanMarkers_eq (eocd : Bytes) (i : Nat) :
    scanMarkers eocd i = some (((List.range (eocd.length - 3)).drop i).any (isEocdMarker eocd)) := by
  induction i using scanMarkers.induct eocd with
  | case1 i hlt ih =>
    have hcons : (List.range (eocd.length - 3)).drop i = i :: (List.range (eocd.length - 3)).drop (i + 1) := by
      rw [List.drop_eq_getElem_cons (by rw [List.length_range]; exact hlt), List.getElem_range]
    rw [scanMarkers, if_pos hlt, markerAt_marker (by omega), hcons, List.any_cons]
    cases hm : isEocdMarker eocd i with
    | true => rfl
    | false => simpa using ih
  | case2 i hge =>
    rw [scanMarkers, if_neg hge, List.drop_of_length_le (by rw [List.length_range]; omega)]
    rfl

theorem eocdBlock_inside {eocd : Bytes} {start len : Nat} (h : start + len ≤ eocd.length) :
    eocdBlock eocd start len = slice eocd start len := by
  rw [slice_isSome h]
  induction len generalizing start with
  | zero => rfl
  | succ len ih =>
    have hlt : start < eocd.length := by omega
    have hnext : ((start : Int) + 1) = (start + 1 : Nat) := rfl
    rw [eocdBlock, eocdAt_inside hlt, hnext, ih (by omega), List.drop_eq_getElem_cons hlt, List.take_succ_cons]
    rfl

theorem eocdBlock_outside (eocd : Bytes) {start : Int} {len : Nat} (h : start < 0) (hlen : 0 < len) :
    eocdBlock eocd start len = none := by
  obtain ⟨n, rfl⟩ := Nat.exists_eq_succ_of_ne_zero (Nat.ne_of_gt hlen)
  rw [eocdBlock, eocdAt, if_neg (Int.not_le.mpr h)]
  rfl

variable {mc : Mincrypt} {eocd : Bytes}

/-- The signature block is read if there is a key. -/
theorem verifyKeys_inside (h : mc.RSANUMBYTES + FOOTER_SIZE ≤ eocd.length) (sha1 : mc.Digest)
    (pKeys : List mc.Key) : verifyKeys mc eocd sha1 pKeys =
      some (pKeys.any fun key => mc.RSA_verify key (signatureBlock mc eocd) sha1) := by
  have hstart : (eocd.length : Int) - FOOTER_SIZE - mc.RSANUMBYTES =
      (eocd.length - FOOTER_SIZE - mc.RSANUMBYTES : Nat) := by omega
  have hblock : some ((eocd.drop (eocd.length - FOOTER_SIZE - mc.RSANUMBYTES)).take mc.RSANUMBYTES) =
      signatureBlock mc eocd := by
    unfold signatureBlock
    rw [if_neg (by omega), slice_isSome (by omega)]
  induction pKeys with
  | nil => rfl
  | cons key keys ih =>
    rw [verifyKeys, hstart, eocdBlock_inside (by omega), slice_isSome (by omega), List.any_cons, ← hblock]
    rw [← hblock] at ih
    simp only [Option.bind_eq_bind, Option.bind_some, ih]
    split
    · rename_i hv
      rw [hv]
      rfl
    · rename_i hv
      rw [Bool.not_eq_true] at hv
      rw [hv]
      rfl

theorem verifyKeys_outside (h : ¬ mc.RSANUMBYTES + FOOTER_SIZE ≤ eocd.length) (hmin : FOOTER_SIZE ≤ eocd.length)
    (sha1 : mc.Digest) {pKeys : List mc.Key} (hkeys : pKeys ≠ []) : verifyKeys mc eocd sha1 pKeys = none := by
  obtain ⟨key, keys, rfl⟩ := List.exists_cons_of_ne_nil hkeys
  rw [verifyKeys, eocdBlock_outside eocd (by omega) (by omega)]
  rfl

/-- Every index into `eocd` lies in the buffer, `signed_len` lies in the file, and the hashing loop reads
exactly so many bytes. -/
def SafeFooter (mc : Mincrypt) (file : Bytes) (pKeys : List mc.Key) : Prop :=
  ∃ r, verifyFileChecked mc file pKeys = some r ∧ ∀ signed_len hashed, r.signed = some (signed_len, hashed) →
    0 ≤ signed_len ∧ signed_len ≤ file.length ∧ hashed = file.take signed_len.toNat

theorem readEocd_spec {file : Bytes} {footer : Footer} {off : Nat} (h : readEocd file footer = some (off, eocd)) :
    off + (footer.comment_size + EOCD_HEADER_SIZE) = file.length ∧
      eocd.length = footer.comment_size + EOCD_HEADER_SIZE ∧ eocd = file.drop off := by
  unfold readEocd at h
  dsimp only at h
  split at h
  · cases h
  · cases h
    refine ⟨by omega, ?_, rfl⟩
    rw [List.length_drop]
    omega

/-- All accesses are in range exactly if the RSA block fits into the comment and the record, wherever it is
asked for. -/
theorem safeFooter_iff (mc : Mincrypt) (file : Bytes) (pKeys : List mc.Key) : SafeFooter mc file pKeys ↔
    ∀ footer off eocd, readFooter file = some footer → mc.RSANUMBYTES + FOOTER_SIZE ≤ footer.signature_start →
      readEocd file footer = some (off, eocd) → isEocdMarker eocd 0 = true → markerAfterStart eocd = false →
        pKeys ≠ [] → mc.RSANUMBYTES + FOOTER_SIZE ≤ footer.comment_size + EOCD_HEADER_SIZE := by
  unfold SafeFooter verifyFileChecked
  cases hfooter : readFooter file with
  | none => exact iff_of_true ⟨_, rfl, fun _ _ h => nomatch h⟩ fun _ _ _ h => nomatch h
  | some footer =>
    by_cases hsig : footer.signature_start < mc.RSANUMBYTES + FOOTER_SIZE
    · simp only [if_pos hsig]
      refine iff_of_true ⟨_, rfl, fun _ _ h => nomatch h⟩ fun footer' _ _ heq h => ?_
      cases heq
      omega
    simp only [if_neg hsig]
    cases heocd : readEocd file footer with
    | none =>
      refine iff_of_true ⟨_, rfl, fun _ _ h => nomatch h⟩ fun footer' _ _ heq _ h => ?_
      cases heq
      rw [heocd] at h
      cases h
    | some found =>
      obtain ⟨off, eocd⟩ := found
      obtain ⟨hoff, hlen, -⟩ := readEocd_spec heocd
      have hheader : EOCD_HEADER_SIZE = 22 := rfl
      have hfooterSize : FOOTER_SIZE = 6 := rfl
      have hcond : (∀ footer' off' eocd', some footer = some footer' →
          mc.RSANUMBYTES + FOOTER_SIZE ≤ footer'.signature_start →
          readEocd file footer' = some (off', eocd') → isEocdMarker eocd' 0 = true →
          markerAfterStart eocd' = false → pKeys ≠ [] →
          mc.RSANUMBYTES + FOOTER_SIZE ≤ footer'.comment_size + EOCD_HEADER_SIZE) ↔
          (isEocdMarker eocd 0 = true → markerAfterStart eocd = false → pKeys ≠ [] →
            mc.RSANUMBYTES + FOOTER_SIZE ≤ footer.comment_size + EOCD_HEADER_SIZE) := by
        refine ⟨fun h => h footer off eocd rfl (Nat.not_lt.mp hsig) heocd, fun h footer' off' eocd' heq _ hfound => ?_⟩
        cases heq
        cases heocd.symm.trans hfound
        exact h
      have hsigned : ((off : Int) + EOCD_HEADER_SIZE - 2).toNat = off + 20 := by omega
      rw [hcond]
      dsimp only
      rw [markerAt_marker (by omega), scanMarkers_eq, hsigned, hashLoop_eq (by omega), ← markerAfterStart]
      simp only [Option.bind_eq_bind, Option.bind_some, List.drop_zero, Nat.sub_zero, List.nil_append]
      cases hmarker : isEocdMarker eocd 0 with
      | false => exact iff_of_true ⟨_, rfl, fun _ _ h => nomatch h⟩ fun h => nomatch h
      | true =>
        cases hscan : markerAfterStart eocd with
        | true => exact iff_of_true ⟨_, rfl, fun _ _ h => nomatch h⟩ fun _ h => nomatch h
        | false =>
          simp only [Bool.not_true, Bool.false_eq_true, if_false, true_implies]
          by_cases hfit : mc.RSANUMBYTES + FOOTER_SIZE ≤ eocd.length
          · rw [verifyKeys_inside hfit]
            refine iff_of_true ⟨_, rfl, fun signed_len hashed h => ?_⟩ fun _ => hlen ▸ hfit
            cases h
            exact ⟨by omega, by omega, by rw [hsigned]⟩
          · by_cases hkeys : pKeys = []
            · subst hkeys
              refine iff_of_true ⟨_, rfl, fun signed_len hashed h => ?_⟩ fun h => absurd rfl h
              cases h
              exact ⟨by omega, by omega, by rw [hsigned]⟩
            · rw [verifyKeys_outside hfit (by omega) _ hkeys]
              refine iff_of_false (fun h => ?_) fun h => hfit (hlen ▸ h hkeys)
              obtain ⟨r, hr, -⟩ := h
              cases hr

/-- The footer of a package without a comment names a signature of 256 bytes. -/
def shortPackage : Bytes :=
  [0x50, 0x4b, 0x05, 0x06] ++ List.replicate 12 0 ++ [0x06, 0x01, 0xff, 0xff, 0x00, 0x00]

/-- The block is read from 240 bytes before the buffer on. -/
theorem not_safeFooter_shortPackage : ¬ SafeFooter signedPackageKey shortPackage [()] := by
  have hrun : verifyFileChecked signedPackageKey shortPackage [()] = none := by decide +kernel
  rintro ⟨r, hr, -⟩
  rw [hrun] at hr
  cases hr

theorem locateEocd_eq (file : Bytes) (footer : Footer) :
    locateEocd file footer = (readEocd file footer).filter fun found => isEocdMarker found.2 0 := by
  unfold locateEocd readEocd
  dsimp only
  split
  · rfl
  · have htake : (file.drop (file.length - (footer.comment_size + EOCD_HEADER_SIZE))).take
        (footer.comment_size + EOCD_HEADER_SIZE) =
          file.drop (file.length - (footer.comment_size + EOCD_HEADER_SIZE)) :=
      List.take_of_length_le (by rw [List.length_drop]; omega)
    rw [slice_isSome (by omega), htake]
    rfl

/-- Where every access is in range, the checked function is the one above. -/
theorem verifyFile_eq_checked {file : Bytes} {pKeys : List mc.Key} {r : Check}
    (h : verifyFileChecked mc file pKeys = some r) : verifyFile mc (some file) pKeys = r.result := by
  unfold verifyFileChecked at h
  unfold verifyFile
  cases hfooter : readFooter file with
  | none =>
    rw [hfooter] at h
    cases h
    simp only [hfooter]
  | some footer =>
    rw [hfooter] at h
    simp only [hfooter] at h ⊢
    by_cases hsig : footer.signature_start < mc.RSANUMBYTES + FOOTER_SIZE
    · rw [if_pos hsig] at h ⊢
      cases h
      rfl
    rw [if_neg hsig] at h
    rw [if_neg hsig, locateEocd_eq]
    cases heocd : readEocd file footer with
    | none =>
      rw [heocd] at h
      cases h
      rfl
    | some found =>
      obtain ⟨off, eocd⟩ := found
      obtain ⟨hoff, hlen, -⟩ := readEocd_spec heocd
      have hheader : EOCD_HEADER_SIZE = 22 := rfl
      have hfooterSize : FOOTER_SIZE = 6 := rfl
      have hsigned : ((off : Int) + EOCD_HEADER_SIZE - 2).toNat = off + EOCD_HEADER_SIZE - 2 := by omega
      rw [heocd] at h
      dsimp only at h
      rw [markerAt_marker (by omega), scanMarkers_eq, hsigned, hashLoop_eq (by omega), ← markerAfterStart] at h
      simp only [Option.bind_eq_bind, Option.bind_some] at h
      cases hmarker : isEocdMarker eocd 0 with
      | false =>
        rw [hmarker] at h
        cases h
        simp [Option.filter, hmarker]
      | true =>
        simp only [Option.filter, hmarker, if_true]
        rw [hmarker] at h
        cases hscan : markerAfterStart eocd with
        | true =>
          rw [hscan] at h
          cases h
          rfl
        | false =>
          rw [hscan] at h
          rw [hashLoop_eq (by omega)]
          simp only [Bool.not_true, Bool.false_eq_true, if_false] at h ⊢
          by_cases hfit : mc.RSANUMBYTES + FOOTER_SIZE ≤ eocd.length
          · rw [verifyKeys_inside hfit] at h
            cases h
            rfl
          · by_cases hkeys : pKeys = []
            · subst hkeys
              cases h
              rfl
            · rw [verifyKeys_outside hfit (by omega) _ hkeys] at h
              cases h

end Miui
