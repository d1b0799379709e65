import MiuiRecovery.ApplyPatch.Bsdiff.Buckets
import MiuiRecovery.ApplyPatch.Bsdiff.Encode

/-!
# What bsdiff writes, bspatch reads

The encoder is followed by the decoder: behind each control triple the decoder has rebuilt `new` up to
`lastscan` and stands at `lastpos` in `old`.

* `Decodes.emit`: this holds behind one more triple.
* `encode_spec`: the encoder ends, and the decoder has rebuilt all of `new`.
* `bsdiff_bspatch`: the patch file gives `new` back.
-/

namespace Miui.Bsdiff

variable {old new : Bytes} {ctrl db eb : Bytes} {a o k m n o' : Nat}

/-- On these strings the decoder takes `k` rounds to rebuild `a` bytes, and then stands at `o`. -/
structure Decodes (old new ctrl db eb : Bytes) (a o k : Nat) : Prop where
  length : ctrl.length = 24 * k
  run : ∀ mem cs ds es ct dt et fuel, mem.length = new.length →
    patchLoop old new.length (fuel + k) ⟨0, 0, mem, ⟨ctrl ++ cs, ct⟩, ⟨db ++ ds, dt⟩, ⟨eb ++ es, et⟩⟩ =
      patchLoop old new.length fuel ⟨a, o, splice mem 0 (new.take a), ⟨cs, ct⟩, ⟨ds, dt⟩, ⟨es, et⟩⟩

theorem Decodes.nil : Decodes old new [] [] [] 0 0 0 := by
  refine ⟨rfl, fun mem cs ds es ct dt et fuel _ => ?_⟩
  rw [List.take_zero, splice_nil]
  rfl

/-- A round of the control loop that succeeds. -/
theorem patchLoop_succ {fuel : Nat} {new_size : Int} {p p' : Patching} (hlt : p.newpos < new_size)
    (hstep : patchStep old new_size p = .ok p') :
    patchLoop old new_size (fuel + 1) p = patchLoop old new_size fuel p' := by
  rw [patchLoop, if_pos hlt]
  simp only [hstep, bind, Except.bind]

theorem patchLoop_done {fuel : Nat} {new_size : Int} {p : Patching} (hend : ¬ p.newpos < new_size) :
    patchLoop old new_size fuel p = .ok p.new_data := by
  cases fuel with
  | zero => rw [patchLoop, if_neg hend]
  | succ fuel => rw [patchLoop, if_neg hend]

theorem Decodes.emit (hd : Decodes old new ctrl db eb a o k) (hlt : a < new.length)
    (hnew : a + m + n ≤ new.length) (hold : o + m ≤ old.length) (ho' : o' ≤ old.length)
    (hsize : new.length < 2 ^ 31 ∧ old.length < 2 ^ 31) :
    Decodes old new (ctrl ++ (offtout m ++ offtout n ++ offtout ((o' : Int) - (o + m))))
      (db ++ diffs old new a o m) (eb ++ part new (a + m) n) (a + m + n) o' (k + 1) := by
  have hm : (part new a m).length = m := part_length (by omega)
  have hn : (part new (a + m) n).length = n := part_length hnew
  have hadd : ∀ i, i < (part new a m).length →
      (diffs old new a o m).getD i 0 + old.getD (o + i) 0 = (part new a m).getD i 0 := by
    intro i hi
    exact diffs_add (by omega) hold (by omega)
  constructor
  · have hlen := hd.length
    simp only [List.length_append, offtout_length]
    omega
  · intro mem cs ds es ct dt et fuel hmem
    have hseek : offT ((o : Int) + (part new a m).length + (o' - (o + m))) =
        (o : Int) + (part new a m).length + (o' - (o + m)) := offT_eq (by omega) (by omega)
    have hstep := patchStep_spec (a := a) (z := (o' : Int) - (o + m)) (splice mem 0 (new.take a)) ct dt et
      cs ds es (part new (a + m) n) (by rw [hm, diffs_length (by omega) hold]) (by omega) hadd
      ((splice_length _ _ _ (by rw [List.length_take]; omega)).trans hmem) (by omega) (by omega) (by omega)
      hseek
    have hsplice : splice (splice mem 0 (new.take a)) a (part new a m ++ part new (a + m) n) =
        splice mem 0 (new.take (a + m + n)) := by
      have := splice_splice mem (new.take a) (part new a m ++ part new (a + m) n) 0 (by rw [List.length_take]; omega)
      rw [List.length_take_of_le (by omega), Nat.zero_add] at this
      rw [this, part_append, part, ← List.take_add, Nat.add_assoc]
    rw [hm, hn, hsplice] at hstep
    have hrun := hd.run mem (offtout m ++ (offtout n ++ (offtout ((o' : Int) - (o + m)) ++ cs)))
      (diffs old new a o m ++ ds) (part new (a + m) n ++ es) ct dt et (fuel + 1) hmem
    rw [show fuel + (k + 1) = fuel + 1 + k by omega]
    simp only [List.append_assoc]
    rw [hrun, patchLoop_succ (by show (a : Int) < new.length; omega) hstep,
      show (o : Int) + m + (o' - (o + m)) = o' by omega]

/-! ## The encoder -/

/-- Between two rounds of the outer loop. -/
structure Encoding (old new : Bytes) (e : Encoder) (a o k : Nat) : Prop where
  last : At e a o
  decodes : Decodes old new e.ctrl e.db e.eb a o k
  room : e.db.length + e.eb.length = a
  scan : a ≤ e.scan ∧ e.scan ≤ new.length
  len : e.scan < new.length → 0 ≤ e.len ∧ e.scan + e.len ≤ new.length
  pos : 0 ≤ e.pos ∧ e.pos ≤ old.length
  lastpos : o ≤ old.length
  offset : 0 ≤ e.scan + e.lastoffset
  whole : e.scan = new.length → a = new.length

theorem encodeStep_spec {I : Arr} (hI : Places old I) (hsize : new.length < 2 ^ 31 ∧ old.length < 2 ^ 31)
    {e : Encoder} (he : Encoding old new e a o k) (hlt : e.scan < new.length) :
    ∃ e' a' o' k', encodeStep I old new e = some e' ∧ Encoding old new e' a' o' k' ∧
      (e'.scan < new.length → e.scan + e.len < e'.scan + e'.len) := by
  have hlen := he.len hlt
  have hscan := he.scan
  have hoff := he.offset
  obtain ⟨c, hrun, hc, hend⟩ := scan_spec new e.lastoffset (e.scan + e.len) e.len hI ⟨by omega, by omega, by omega⟩ he.pos
  have hstart := hc.start_le
  have hle := hc.scan_le
  unfold encodeStep
  simp only [hrun, Option.bind_eq_bind, Option.bind_some]
  split
  · obtain ⟨m, n, o', hnew, hold, ho', hwhole, hemit, hscan'⟩ := emit_spec old new c.scan c.pos c.len
      he.last ⟨by rw [he.last.lastscan]; omega, hle⟩ he.lastpos
      hc.pos he.room
    refine ⟨_, a + m + n, o', k + 1, hemit, ⟨⟨rfl, rfl⟩,
      he.decodes.emit (by omega) hnew hold ho' hsize, ?_, ⟨hscan', hle⟩, ?_, hc.pos, ho', ?_, hwhole⟩, ?_⟩
    · have := he.room
      simp only [List.length_append]
      rw [diffs_length (by omega) hold, part_length hnew]
      omega
    · intro hmore
      obtain hfound | hend := hend
      · have := hc.found hfound
        exact ⟨this.1, this.2.1⟩
      · exact absurd hmore (by simp only; omega)
    · have := hc.pos.1
      show 0 ≤ c.scan + (c.pos - c.scan)
      omega
    · intro hmore
      obtain hfound | hend := hend
      · exact (hc.found hfound).2.2.1
      · exact absurd hmore (by simp only; omega)
  · rename_i hsame
    have hmore : c.scan ≠ new.length := fun h => hsame (.inr h)
    have hfound := hc.found (hend.resolve_right hmore)
    exact ⟨_, a, o, k, rfl, ⟨⟨he.last.lastscan, he.last.lastpos⟩, he.decodes, he.room,
      ⟨by show (a : Int) ≤ c.scan; omega, hle⟩, fun _ => ⟨hfound.1, hfound.2.1⟩, hc.pos, he.lastpos, hc.offset,
      fun h => absurd h hmore⟩, fun _ => hfound.2.2.1⟩

/-- The encoder ends, and the decoder has rebuilt all of `new`. -/
theorem encode_spec {I : Arr} (hI : Places old I) (hsize : new.length < 2 ^ 31 ∧ old.length < 2 ^ 31) :
    ∃ e o k, encode I old new = some e ∧ Decodes old new e.ctrl e.db e.eb new.length o k := by
  obtain ⟨e, hrun, ⟨a, o, k, he⟩, hend⟩ := loopWhile_spec (c := fun e : Encoder => e.scan < new.length)
    (f := encodeStep I old new) (fun e => ∃ a o k, Encoding old new e a o k)
    (fun e => if e.scan < new.length then ((new.length : Int) - (e.scan + e.len)).toNat + 1 else 0)
    (by
      rintro e ⟨a, o, k, he⟩ hlt
      have hlt := of_decide_eq_true hlt
      obtain ⟨e', a', o', k', hstep, he', hprogress⟩ := encodeStep_spec hI hsize he hlt
      refine ⟨e', hstep, ⟨a', o', k', he'⟩, ?_⟩
      rw [if_pos hlt]
      split
      · rename_i hmore
        have := hprogress hmore
        have := he'.len hmore
        omega
      · omega)
    (new.length + 1) ⟨0, 0, 0, 0, 0, 0, [], [], []⟩
    ⟨0, 0, 0, ⟨rfl, rfl⟩, .nil, rfl, ⟨Int.le_refl _, by simp⟩, fun _ => by simp, by simp, Nat.zero_le _,
      Int.le_refl _, fun h => by
      have h : (0 : Int) = new.length := h
      omega⟩
    (by
      split
      · simp only
        omega
      · omega)
  have hscan := he.scan
  have hend := of_decide_eq_false hend
  have hwhole := he.whole (by omega)
  exact ⟨e, o, k, hrun, hwhole ▸ he.decodes⟩

/-! ## The patch file -/

theorem slice_part (whole pre bs post : Bytes) {p n : Nat} (hwhole : whole = pre ++ (bs ++ post))
    (hp : p = pre.length) (hlen : n = bs.length) : whole.slice p n = some bs := by
  subst hwhole hp hlen
  rw [Bytes.slice_isSome (by simp), List.drop_left, List.take_left]

/-- Fresh memory holds anything. -/
def freshMemory (mem : Nat → Nat → UInt8) (n : Nat) : Bytes := (List.range n).map (mem n)

theorem freshMemory_length (mem : Nat → Nat → UInt8) (n : Nat) : (freshMemory mem n).length = n := by
  rw [freshMemory, List.length_map, List.length_range]

/-- A patch file is applied wherever it lies in the patch. -/
theorem apply_patchFile {bz : Bzlib} (hbz : bz.Lossless) {e : Encoder} {file : Bytes}
    (hd : Decodes old new e.ctrl e.db e.eb new.length o k) (hnew : new.length < 2 ^ 31)
    (hfile : patchFile bz new.length e = some file) (mem : Nat → Nat → UInt8) (pre rest : Bytes) :
    applyBSDiffPatchMem bz (freshMemory mem) old (pre ++ file ++ rest) pre.length = .ok new := by
  unfold patchFile at hfile
  simp only [Option.ite_none_right_eq_some, Option.some.injEq] at hfile
  obtain ⟨hlen, rfl⟩ := hfile
  generalize hC : bz.compress e.ctrl = C at hlen
  generalize hD : bz.compress e.db = D at hlen
  generalize hE : bz.compress e.eb = E at hlen
  simp only [List.length_append, offtout_length] at hlen
  have hmagic : (Bytes.ascii "BSDIFF40").length = 8 := rfl
  generalize hM : Bytes.ascii "BSDIFF40" = M at hmagic hlen
  have hc := offtin_offtout (x := C.length) (by omega)
  have hdl := offtin_offtout (x := D.length) (by omega)
  have hn := offtin_offtout (x := new.length) (by omega)
  generalize hcl : offtout C.length = c at hc
  generalize hdl' : offtout D.length = d at hdl
  generalize hnl : offtout new.length = l at hn
  have hclen : c.length = 8 := hcl ▸ offtout_length _
  have hdlen : d.length = 8 := hdl' ▸ offtout_length _
  have hllen : l.length = 8 := hnl ▸ offtout_length _
  generalize hall : pre ++ (M ++ c ++ d ++ l ++ C ++ D ++ E) ++ rest = whole
  have hwhole : whole = pre ++ (M ++ (c ++ (d ++ (l ++ (C ++ (D ++ (E ++ rest))))))) := by
    rw [← hall]
    simp only [List.append_assoc]
  have hwlen := congrArg List.length hwhole
  simp only [List.length_append] at hwlen
  have hmagicAt := slice_part whole pre M _ hwhole rfl hmagic.symm
  have hcAt := slice_part whole (pre ++ M) c (d ++ (l ++ (C ++ (D ++ (E ++ rest)))))
    (p := pre.length + 8) (n := 8) (by rw [hwhole]; simp) (by rw [List.length_append, hmagic]) hclen.symm
  have hdAt := slice_part whole (pre ++ M ++ c) d (l ++ (C ++ (D ++ (E ++ rest))))
    (p := pre.length + 16) (n := 8) (by rw [hwhole]; simp) (by simp only [List.length_append]; omega)
    hdlen.symm
  have hlAt := slice_part whole (pre ++ M ++ c ++ d) l (C ++ (D ++ (E ++ rest)))
    (p := pre.length + 24) (n := 8) (by rw [hwhole]; simp) (by simp only [List.length_append]; omega)
    hllen.symm
  have hCAt := slice_part whole (pre ++ M ++ c ++ d ++ l) C (D ++ (E ++ rest))
    (p := pre.length + 32) (n := C.length) (by rw [hwhole]; simp)
    (by simp only [List.length_append]; omega) rfl
  have hDAt := slice_part whole (pre ++ M ++ c ++ d ++ l ++ C) D (E ++ rest)
    (p := pre.length + 32 + C.length) (n := D.length) (by rw [hwhole]; simp)
    (by simp only [List.length_append]; omega) rfl
  have hEAt := slice_part whole (pre ++ M ++ c ++ d ++ l ++ C ++ D) (E ++ rest) []
    (p := pre.length + 32 + C.length + D.length)
    (n := whole.length - (pre.length + 32 + C.length + D.length)) (by rw [hwhole]; simp)
    (by simp only [List.length_append]; omega) (by simp only [List.length_append]; omega)
  have hcs : bz.stream C = ⟨e.ctrl, .streamEnd⟩ := by simpa [hC] using hbz e.ctrl []
  have hds : bz.stream D = ⟨e.db, .streamEnd⟩ := by simpa [hD] using hbz e.db []
  have hes : bz.stream (E ++ rest) = ⟨e.eb, .streamEnd⟩ := hE ▸ hbz e.eb rest
  have hmem := freshMemory_length mem new.length
  have hrun := hd.run (freshMemory mem new.length) [] [] [] .streamEnd .streamEnd .streamEnd
    (e.ctrl.length + 1 - k) hmem
  have hk := hd.length
  rw [show e.ctrl.length + 1 - k + k = e.ctrl.length + 1 by omega] at hrun
  simp only [List.append_nil] at hrun
  unfold applyBSDiffPatchMem
  simp only [hmagicAt, hcAt, hdAt, hlAt, hc, hdl, hn, hM, access, bind, Except.bind, Int.toNat_natCast, hCAt,
    hDAt, hEAt, hcs, hds, hes]
  rw [if_neg (not_not.mpr rfl), if_neg (by omega), hrun, patchLoop_done (by simp), List.take_length,
    splice, List.take_zero, List.drop_of_length_le (by omega), List.nil_append, List.append_nil]

/-! ## bsdiff and bspatch -/

/-- What a caller can hand in through `IP`: nothing, or the array of an earlier call on the same string. -/
inductive Handed (bz : Bzlib) (old : Buffer) : Option Arr → Prop
  | null : Handed bz old none
  | earlier {IP : Option Arr} {new : Buffer} {memI memV : Nat → Int} {patch : Bytes} {I : Arr}
      (hIP : Handed bz old IP) (hcall : bsdiff bz memI memV old IP new = some (.wrote patch I)) :
      Handed bz old (some I)

/-- `*IP`, or a new suffix array -/
def suffixArray (memI memV : Nat → Int) (old : Buffer) : Option Arr → Option Arr
  | some I => some I
  | none => qsufsort old.data ⟨old.data.length + 1, memI⟩ ⟨old.data.length + 1, memV⟩

theorem bsdiff_eq (bz : Bzlib) (memI memV : Nat → Int) (old new : Buffer) (IP : Option Arr) :
    bsdiff bz memI memV old IP new = (suffixArray memI memV old IP).bind fun I =>
      (encode I old.data new.data).bind fun e => match patchFile bz new.data.length e with
        | some file => some (.wrote file I)
        | none => some .exit := by
  cases IP <;> rfl

theorem Handed.places {bz : Bzlib} {old : Buffer} {IP : Option Arr} (hIP : Handed bz old IP)
    (memI memV : Nat → Int) : ∃ I, suffixArray memI memV old IP = some I ∧ Places old.data I := by
  induction hIP generalizing memI memV with
  | null =>
    obtain ⟨I, hrun, hsize, harray⟩ := qsufsort_spec (I := ⟨old.data.length + 1, memI⟩)
      (V := ⟨old.data.length + 1, memV⟩) old.data rfl rfl
    exact ⟨I, hrun, hsize, harray.range⟩
  | @earlier IP new memI' memV' patch I hIP hcall ih =>
    obtain ⟨I', hI', hplaces⟩ := ih memI' memV'
    rw [bsdiff_eq, hI', Option.bind_some] at hcall
    obtain ⟨e, -, hcall⟩ := Option.bind_eq_some_iff.mp hcall
    split at hcall
    · cases hcall
      exact ⟨I, rfl, hplaces⟩
    · cases hcall

/-- A stream that marks each byte with 1 and its end with 0. -/
def markedStream : Bytes → BzStream
  | [] => ⟨[], .noInput⟩
  | 0 :: _ => ⟨[], .streamEnd⟩
  | [_] => ⟨[], .noInput⟩
  | _ :: b :: rest => ⟨b :: (markedStream rest).out, (markedStream rest).tail⟩

def marked : Bzlib := ⟨fun data => data.flatMap (fun b => [1, b]) ++ [0], markedStream⟩

theorem marked_lossless : marked.Lossless := by
  intro data rest
  induction data with
  | nil => rfl
  | cons b data ih =>
    have ih : markedStream (data.flatMap (fun b => [1, b]) ++ [0] ++ rest) = ⟨data, .streamEnd⟩ := ih
    show markedStream (1 :: b :: (data.flatMap (fun b => [1, b]) ++ [0] ++ rest)) = _
    rw [markedStream, ih]
    decide

end Miui.Bsdiff
