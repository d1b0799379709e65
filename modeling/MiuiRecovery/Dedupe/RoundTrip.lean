import MiuiRecovery.Dedupe.Extract

/-!
# Storing and extracting

What `dedupe x` makes of the manifest and the blobs that `dedupe c` writes.

* `xLine_text`: a line is read back as it was written.
* `locate_pathText`: a path of the tree leads to its entry.
* `extractDir`: the lines of a directory make its entries, but for the sticky bits.
* `roundTrips_iff`: a storable tree comes back exactly if no file and no directory is sticky.
-/

namespace Miui
namespace Dedupe

open CString Numeral

/-! ## Numbers -/

theorem decToOctLoop_eq (n ret mult : Nat) :
    decToOctLoop n ret mult = (ret + Nat.ofDigits 8 (Nat.digits 10 n) * mult : Nat) := by
  induction n using Nat.strongRecOn generalizing ret mult with
  | _ n ih =>
    rw [decToOctLoop]
    by_cases hn : n = 0
    · subst hn
      simp
    · have hdiv : (n : Int).tdiv 10 = ((n / 10 : Nat) : Int) := rfl
      have hmod : (n : Int).tmod 10 = ((n % 10 : Nat) : Int) := rfl
      have hret : (ret : Int) + ((n % 10 : Nat) : Int) * mult = ((ret + n % 10 * mult : Nat) : Int) := by simp
      have hmult : (mult : Int) * 8 = ((mult * 8 : Nat) : Int) := by simp
      rw [if_neg (by simpa using hn), hdiv, hmod, hret, hmult, ih (n / 10) (Nat.div_lt_self (by omega) (by decide)),
        Nat.digits_eq_cons_digits_div (by decide) hn, Nat.ofDigits_cons]
      congr 1
      ring

/-- The octal digits of a mode, read as a decimal number, are made octal again. -/
theorem decToOct_strtol {m : Nat} (hm : m < 2 ^ 12) : decToOct (strtol (numeral 8 m)) = m := by
  have hdigits : ∀ c ∈ numeral 8 m, 48 ≤ c ∧ c ≤ 57 := fun c hc => numeral_digits (by decide) (by decide) hc
  have hvalue : value 10 (numeral 8 m) = Nat.ofDigits 10 (Nat.digits 8 m) := numeral_value (by decide) (by decide)
  have hlen : (Nat.digits 8 m).length ≤ 4 := (Nat.digits_length_le_iff (by decide) m).mpr hm
  have hlt8 : ∀ d ∈ Nat.digits 8 m, d < 8 := fun d hd => Nat.digits_lt_base (by decide) hd
  have hbound : Nat.ofDigits 10 (Nat.digits 8 m) < 10 ^ 4 :=
    (Nat.ofDigits_lt_base_pow_length (by decide) fun d hd => (hlt8 d hd).trans (by decide)).trans_le
      (Nat.pow_le_pow_right (by decide) hlen)
  have hread : strtol (numeral 8 m) = (Nat.ofDigits 10 (Nat.digits 8 m) : Nat) := by
    rw [strtol_digits hdigits, hvalue]
    omega
  have hback : Nat.digits 10 (Nat.ofDigits 10 (Nat.digits 8 m)) = Nat.digits 8 m := by
    refine Nat.digits_ofDigits 10 (by decide) _ (fun d hd => (hlt8 d hd).trans (by decide)) fun hne => ?_
    exact Nat.getLast_digit_ne_zero 8 (Nat.digits_ne_nil_iff_ne_zero.mp hne)
  have hloop := decToOctLoop_eq (Nat.ofDigits 10 (Nat.digits 8 m)) 0 1
  rw [hback, Nat.ofDigits_digits, Nat.zero_add, Nat.mul_one] at hloop
  rw [decToOct, hread]
  exact hloop

/-! ## A line -/

/-- A line that fits the buffers of an extraction. -/
structure LineFits (l : Line) : Prop where
  plain : l.Plain
  short : (l.text 2).length + 1 < PATH_MAX
  target : ∀ t, l.item = .link t → t.length ≤ 40
  uid : l.uid ≠ -1
  gid : l.gid ≠ -1

theorem numeral_length_lt (n : UInt64) : (numeral 10 n.toNat).length < 32 := by
  have := numeral_length_le (b := 10) (k := 20) (by decide) (by decide) (n.toNat_lt.trans (by decide))
  omega

theorem signed_length_lt (n : BitVec 32) : (signed n.toInt).length < 32 := by
  have habs : n.toInt.natAbs < 10 ^ 10 := by
    have := n.toInt_lt
    have := n.le_toInt
    omega
  have := signed_length_le (by decide) habs
  omega

variable {e : Env} {blobs : Blobs} {st : Stat} {f : Bytes} {i : Item} {fs : Fs}

theorem stat_fits (hf : f.length < PATH_MAX) :
    List.Forall₂ (fun f cap => f.length < cap) ((Line.ofStat st f i).stat 2) (fieldCaps 2) := by
  have hmode : (numeral 8 (st.mode &&& STAT_MASK).toNat).length < 8 := by
    have := numeral_length_le (b := 8) (k := 4) (by decide) (by decide) (st.mode &&& STAT_MASK).isLt
    omega
  refine .cons (by decide : 1 < 4) (.cons hmode (.cons (signed_length_lt st.uid) (.cons (signed_length_lt st.gid) ?_)))
  refine .cons (numeral_length_lt st.atime) (.cons (numeral_length_lt st.mtime) (.cons (numeral_length_lt st.ctime) ?_))
  exact .cons hf .nil

/-- A line is read back as it was written. -/
theorem xLine_text (h : LineFits (.ofStat st f i)) : xLine e blobs 2 ((Line.ofStat st f i).text 2 ++ [10]) fs =
    xEntry e blobs [i.type] (st.mode &&& STAT_MASK).toNat st.uid.toInt st.gid.toInt f
      (some (tabbed i.fields ++ [10])) fs := by
  set l := Line.ofStat st f i with hl
  have hplain : ∀ t ∈ l.fields 2, Plain t := plain_fields h.plain
  have hcstr : cstr (l.text 2 ++ [10]) = tabbed (l.stat 2) ++ (tabbed i.fields ++ [10]) := by
    rw [cstr_eq_self, Line.text, Line.fields, tabbed, List.flatMap_append, List.append_assoc]
    · rfl
    · rw [List.mem_append, not_or]
      exact ⟨Line.nul_not_mem h.plain, by decide⟩
  have htab : ∀ t ∈ l.stat 2, (9 : UInt8) ∉ t := fun t ht => (hplain t (List.mem_append_left _ ht)).2.1
  have hf : f.length < PATH_MAX := by
    have hmem : f ∈ l.fields 2 := by simp [hl, Line.fields, Line.stat, Line.ofStat]
    have hle : f.length ≤ (l.text 2).length := by
      obtain ⟨pre, post, hsplit⟩ := List.append_of_mem hmem
      rw [Line.text, tabbed, hsplit, List.flatMap_append, List.flatMap_cons]
      simp only [List.length_append]
      omega
    have := h.short
    omega
  have hread : tokenizeAll (fieldCaps 2) (some (cstr (l.text 2 ++ [10]))) =
      .ok (l.stat 2, some (tabbed i.fields ++ [10])) := by
    rw [hcstr, tokenizeAll_fields (length_stat 2 l) htab, if_pos (stat_fits hf)]
  have hmode : decToOct (strtol (numeral 8 (st.mode &&& STAT_MASK).toNat)) = (st.mode &&& STAT_MASK).toNat :=
    decToOct_strtol (st.mode &&& STAT_MASK).isLt
  have hint : ∀ n : BitVec 32, strtol (signed n.toInt) = n.toInt :=
    fun n => strtol_signed n.le_toInt n.toInt_lt
  rw [xLine, hread]
  show xEntry e blobs [i.type] (decToOct (strtol (numeral 8 (st.mode &&& STAT_MASK).toNat)))
    (strtol (signed st.uid.toInt)) (strtol (signed st.gid.toInt)) f _ fs = _
  rw [hmode, hint, hint]

/-! ## Paths -/

/-- A name that an entry of a directory can have. -/
structure ValidName (n : Bytes) : Prop where
  nonempty : n ≠ []
  slash : (47 : UInt8) ∉ n
  dot : n ≠ Bytes.ascii "."
  dotdot : n ≠ Bytes.ascii ".."

/-- The path of an entry in the manifest. -/
def pathText (p : Path) : Bytes := p.foldl join (Bytes.ascii ".")

theorem pathText_append (p : Path) (n : Bytes) : pathText (p ++ [n]) = join (pathText p) n := by
  rw [pathText, List.foldl_append]
  rfl

theorem foldl_join (d : Bytes) (p : Path) : p.foldl join d = d ++ p.flatMap (47 :: ·) := by
  induction p generalizing d with
  | nil => simp
  | cons n p ih =>
    rw [List.foldl_cons, ih, List.flatMap_cons, join, List.append_assoc]

theorem tokens_path {p : Path} (hp : ∀ n ∈ p, ValidName n) : tokens (· == 47) (p.flatMap (47 :: ·)) = p :=
  tokens_flatMap fun n hn => ⟨(hp n hn).nonempty, (hp n hn).slash⟩

theorem components_pathText {p : Path} (hp : ∀ n ∈ p, ValidName n) : components (pathText p) = p := by
  have hhead : ∀ c ∈ (p.flatMap (47 :: ·)).head?, (c == 47) = true := by
    cases p with
    | nil => simp
    | cons m p => simp
  have htokens : tokens (· == 47) (pathText p) = Bytes.ascii "." :: p := by
    rw [pathText, foldl_join, tokens_cons (by decide) (by decide +kernel) hhead, tokens_path hp]
  rw [components, htokens, List.filter_cons_of_neg (by simp), List.filter_eq_self]
  intro n hn
  simpa using (hp n hn).dot

/-- All directories on the way to an entry are there. -/
def OnWay (fs : Fs) (p : Path) : Prop :=
  ∀ q, q ≠ [] → q <+: p → q ≠ p → ∃ mode uid gid, fs q = some (.dir mode uid gid)

theorem walk_here {done p : Path} (hne : p ≠ []) (h : OnWay fs (done ++ p)) :
    walk fs done p = .here (done ++ p) := by
  induction p generalizing done with
  | nil => exact absurd rfl hne
  | cons n p ih =>
    cases p with
    | nil => rfl
    | cons m p =>
      have hway : done ++ n :: m :: p = done ++ [n] ++ m :: p := by simp
      obtain ⟨mode, uid, gid, hdir⟩ := h (done ++ [n]) (by simp) (hway ▸ List.prefix_append _ _) (by simp)
      rw [walk]
      · rw [hdir]
        dsimp only
        rw [ih (by simp) (hway ▸ h), hway]
      · simp

/-- A path of the tree leads to its entry. -/
theorem locate_pathText {p : Path} (hne : p ≠ []) (hp : ∀ n ∈ p, ValidName n) (h : OnWay fs p) :
    locate fs (pathText p) = .here p := by
  have hcons : pathText p = 46 :: p.flatMap (47 :: ·) := foldl_join _ p
  have hdots : Bytes.ascii ".." ∉ p := fun hmem => (hp _ hmem).dotdot rfl
  have hnot : ¬ ((pathText p).head? = some 47 ∨ Bytes.ascii ".." ∈ components (pathText p)) := by
    rw [components_pathText hp, hcons]
    simpa using hdots
  rw [locate, if_neg (by rw [hcons]; simp), if_neg hnot, components_pathText hp]
  exact walk_here hne h

/-! ## An entry -/

/-- What the manifest keeps of an entry: all but the sticky bit. -/
def Attr.mask : Attr → Attr
  | .file mode uid gid content => .file (mode &&& STAT_MASK) uid gid content
  | .link uid gid target => .link uid gid target
  | .dir mode uid gid => .dir (mode &&& STAT_MASK) uid gid

variable {p : Path}

theorem Fs.set_self (fs : Fs) (p : Path) (a : Attr) : fs.set p a p = some a := Function.update_self _ _ _

theorem Fs.set_set (fs : Fs) (p : Path) (a b : Attr) : (fs.set p a).set p b = fs.set p b :=
  Function.update_idem _ _ _

theorem OnWay.set (h : OnWay fs p) (a : Attr) : OnWay (fs.set p a) p := by
  intro q hq hpre hne
  obtain ⟨mode, uid, gid, hdir⟩ := h q hq hpre hne
  exact ⟨mode, uid, gid, by rwa [Fs.set, Function.update_of_ne hne]⟩

theorem newOwner_eq {old new : BitVec 32} (h : new.toInt ≠ -1) : newOwner old (BitVec.ofInt 32 new.toInt) = new := by
  have hne : new ≠ -1 := by
    rintro rfl
    exact h (by decide)
  rw [BitVec.ofInt_toInt, newOwner, if_neg hne]

/-- A path whose directories are there. -/
structure Reached (fs : Fs) (p : Path) : Prop where
  nonempty : p ≠ []
  valid : ∀ n ∈ p, ValidName n
  way : OnWay fs p

theorem Reached.set (h : Reached fs p) (a : Attr) : Reached (fs.set p a) p := ⟨h.nonempty, h.valid, h.way.set a⟩

theorem onPath_reached (h : Reached fs p) (missing : Except XStop Fs) (k : Path → Option Attr → Except XStop Fs) :
    onPath fs (pathText p) missing k = k p (fs p) := by
  rw [onPath, locate_pathText h.nonempty h.valid h.way]

theorem chown_reached (h : Reached fs p) {a : Attr} (ha : fs p = some a) (hlink : ∀ u g t, a ≠ .link u g t)
    {uid gid : BitVec 32} : chown (pathText p) uid.toInt gid.toInt fs =
      .ok (fs.set p (a.setOwner (BitVec.ofInt 32 uid.toInt) (BitVec.ofInt 32 gid.toInt))) := by
  rw [chown, onPath_reached h, ha]
  cases a with
  | file => rfl
  | link u g t => exact absurd rfl (hlink u g t)
  | dir => rfl

theorem chmod_reached (h : Reached fs p) {a : Attr} (ha : fs p = some a) (hlink : ∀ u g t, a ≠ .link u g t)
    {mode : Int} : chmod (pathText p) mode fs = .ok (fs.set p (a.setMode (BitVec.ofInt 12 mode))) := by
  rw [chmod, onPath_reached h, ha]
  cases a with
  | file => rfl
  | link u g t => exact absurd rfl (hlink u g t)
  | dir => rfl

/-- The calls behind the creation of a file or directory. -/
theorem own_and_mode (h : Reached fs p) (a : Attr) (hlink : ∀ u g t, a ≠ .link u g t) (uid gid : BitVec 32)
    (mode : Int) : (do
      let fs ← chown (pathText p) uid.toInt gid.toInt (fs.set p a)
      chmod (pathText p) mode fs) =
    .ok (fs.set p ((a.setOwner (BitVec.ofInt 32 uid.toInt) (BitVec.ofInt 32 gid.toInt)).setMode
      (BitVec.ofInt 12 mode))) := by
  rw [chown_reached (h.set a) (fs.set_self p a) hlink, Fs.set_set]
  show chmod _ _ _ = _
  have hlink' : ∀ u g t, a.setOwner (BitVec.ofInt 32 uid.toInt) (BitVec.ofInt 32 gid.toInt) ≠ .link u g t := by
    cases a with
    | file => nofun
    | link u g t => exact absurd rfl (hlink u g t)
    | dir => nofun
  rw [chmod_reached (h.set _) (fs.set_self p _) hlink', Fs.set_set]

theorem ofInt_mode (m : BitVec 12) : BitVec.ofInt 12 (m.toNat : Int) = m := by
  rw [BitVec.ofInt_natCast, BitVec.ofNat_toNat, BitVec.setWidth_eq]

theorem intSize_length (content : Bytes) : (signed (intSize content)).length < 32 := by
  have hlow := Int.le_bmod (x := content.length) (m := 2 ^ 32) (by decide)
  have hhigh := Int.bmod_lt (x := content.length) (m := 2 ^ 32) (by decide)
  have := signed_length_le (n := intSize content) (k := 10) (by decide) (by unfold intSize; omega)
  omega

theorem orTrouble_ok_bind {α : Type} (a : α) (k : α → Except XStop Fs) : (orTrouble (.ok a) >>= k) = k a := rfl

theorem xEntry_file (mode : BitVec 12) (h : Reached fs p) (hnew : fs p = none) {content : Bytes} {size : Int}
    {uid gid : BitVec 32} (huid : uid.toInt ≠ -1) (hgid : gid.toInt ≠ -1) (hkey : (9 : UInt8) ∉ e.key content)
    (hsize : (signed size).length < 32)
    (hpath : (join e.blob_dir (e.key content)).length < PATH_MAX) (hblob : blobs (e.key content) = some content) :
    xEntry e blobs [102] mode.toNat uid.toInt gid.toInt (pathText p)
      (some (tabbed [e.key content, signed size] ++ [10])) fs =
        .ok (fs.set p (.file mode uid gid content)) := by
  have hsplit : ∀ s t : Bytes, tabbed [s, t] ++ [10] = s ++ 9 :: (t ++ 9 :: [10]) := by simp [tabbed]
  have hkeylen : (e.key content).length < 128 := by
    rw [length_key]
    decide
  have hcopy : copyFile (some content) (pathText p) fs = .ok (fs.set p (.file 0o644 0 (newGid fs p) content)) := by
    rw [copyFile, onPath_reached h, hnew]
  have hown := own_and_mode h (.file 0o644 0 (newGid fs p) content) (by simp) uid gid mode.toNat
  rw [ofInt_mode] at hown
  simp only [Attr.setOwner, Attr.setMode, newOwner_eq huid, newOwner_eq hgid] at hown
  simp only [hsplit, xEntry, if_true, tokenize_field hkey, if_pos hkeylen, orTrouble_ok_bind,
    tokenize_field (plain_signed size).2.1, if_pos hsize, if_pos hpath, hblob, hcopy,
    Except.ok_bind]
  exact hown

theorem xEntry_link (e : Env) (blobs : Blobs) (mode : Int) (h : Reached fs p) (hnew : fs p = none)
    {target : Bytes} {uid gid : BitVec 32} (huid : uid.toInt ≠ -1) (hgid : gid.toInt ≠ -1) (htab : (9 : UInt8) ∉ target)
    (hlen : target.length ≤ 40) (hne : target ≠ []) :
    xEntry e blobs [108] mode uid.toInt gid.toInt (pathText p) (some (tabbed [target] ++ [10])) fs =
      .ok (fs.set p (.link uid gid target)) := by
  have hsplit : tabbed [target] ++ [10] = target ++ 9 :: [10] := by simp [tabbed]
  have hlink : symlink target (pathText p) fs = .ok (fs.set p (.link 0 (newGid fs p) target)) := by
    rw [symlink, onPath_reached h, hnew]
    simp only [if_neg hne]
  have hlchown : lchown (pathText p) uid.toInt gid.toInt (fs.set p (.link 0 (newGid fs p) target)) =
      .ok (fs.set p (.link uid gid target)) := by
    rw [lchown, onPath_reached (h.set _), Fs.set_self]
    simp only [Attr.setOwner, newOwner_eq huid, newOwner_eq hgid, Fs.set_set]
  have hfit : target.length < 41 := Nat.lt_succ_of_le hlen
  rw [hsplit, xEntry, if_neg (by decide), if_pos rfl, tokenize_field htab, if_pos hfit, orTrouble_ok_bind]
  dsimp only
  rw [if_neg (by simp), hlink, Except.ok_bind, hlchown]

theorem xEntry_dir (e : Env) (blobs : Blobs) (mode : BitVec 12) (h : Reached fs p) (hnew : fs p = none)
    {uid gid : BitVec 32}
    (huid : uid.toInt ≠ -1) (hgid : gid.toInt ≠ -1) (token : Option Bytes) :
    xEntry e blobs [100] mode.toNat uid.toInt gid.toInt (pathText p) token fs =
      .ok (fs.set p (.dir mode uid gid)) := by
  have hmkdir : mkdir (pathText p) mode.toNat fs = .ok (fs.set p (.dir mode 0 (newGid fs p))) := by
    rw [mkdir, onPath_reached h, hnew, ofInt_mode]
  have hown := own_and_mode h (.dir mode 0 (newGid fs p)) nofun uid gid mode.toNat
  rw [ofInt_mode] at hown
  simp only [Attr.setOwner, Attr.setMode, newOwner_eq huid, newOwner_eq hgid] at hown
  rw [xEntry, if_neg (by decide), if_neg (by decide), if_pos rfl, hmkdir, Except.ok_bind]
  exact hown

/-! ## A tree -/

def Entries.names : Entries → List Bytes
  | .nil => []
  | .cons name _ rest => name :: rest.names

mutual

/-- The names of a directory are valid and different, and no link is empty. -/
def Entries.Valid : Entries → Prop
  | .nil => True
  | .cons name node rest => ValidName name ∧ name ∉ rest.names ∧ node.Valid ∧ rest.Valid

def Node.Valid : Node → Prop
  | .file _ _ => True
  | .link _ target => target ≠ []
  | .dir _ entries => entries.Valid

end

/-- What is extracted below `p` of entries that `look` describes. -/
def under (p : Path) (look : Path → Option Attr) : Fs := fun q =>
  if p <+: q then (look (q.drop p.length)).map Attr.mask else none

/-- New entries over those that are there. -/
def overlay (new fs : Fs) : Fs := fun q => (new q).or (fs q)

def chunk (l : Line) : Bytes := l.text 2 ++ [10]

theorem xLines_append (a b : List Bytes) (fs : Fs) :
    xLines e blobs 2 (a ++ b) fs = xLines e blobs 2 a fs >>= xLines e blobs 2 b := by
  induction a generalizing fs with
  | nil => rfl
  | cons l a ih =>
    rw [List.cons_append, xLines, xLines]
    cases xLine e blobs 2 l fs with
    | error t => rfl
    | ok fs' => exact ih fs'

/-- All names of the way are valid and lead through directories. -/
structure Open (fs : Fs) (p : Path) : Prop where
  valid : ∀ n ∈ p, ValidName n
  way : ∀ q, q ≠ [] → q <+: p → ∃ mode uid gid, fs q = some (.dir mode uid gid)

theorem Open.reached (h : Open fs p) {n : Bytes} (hn : ValidName n) : Reached fs (p ++ [n]) where
  nonempty := by simp
  valid m hm := by
    rcases List.mem_append.mp hm with hm | hm
    · exact h.valid m hm
    · exact List.mem_singleton.mp hm ▸ hn
  way q hq hpre hne := by
    refine h.way q hq ?_
    rcases List.prefix_concat_iff.mp hpre with rfl | hpre
    · exact absurd rfl hne
    · exact hpre

theorem Reached.open (h : Reached fs p) (mode : BitVec 12) (uid gid : BitVec 32) :
    Open (fs.set p (.dir mode uid gid)) p where
  valid := h.valid
  way q hq hpre := by
    by_cases hqp : q = p
    · subst hqp
      exact ⟨mode, uid, gid, fs.set_self q _⟩
    · obtain ⟨m, u, g, hdir⟩ := h.way q hq hpre hqp
      exact ⟨m, u, g, by rwa [Fs.set, Function.update_of_ne hqp]⟩

/-- A node without entries is set at its path. -/
theorem overlay_leaf {node : Node} (hleaf : ∀ n q, node.at (n :: q) = none) (fs : Fs) (p : Path) :
    overlay (under p node.at) fs = fs.set p node.attr.mask := by
  funext q
  by_cases hqp : q = p
  · subst hqp
    simp [overlay, under, Fs.set, Node.at]
  · rw [Fs.set, Function.update_of_ne hqp, overlay, under]
    split
    · rename_i hpre
      obtain ⟨r, rfl⟩ := hpre
      cases r with
      | nil => exact absurd (List.append_nil p) hqp
      | cons n r => simp [hleaf]
    · rfl

theorem overlay_dir {st : Stat} {entries : Entries} (fs : Fs) (p : Path) :
    overlay (under p entries.at) (fs.set p (Node.dir st entries).attr.mask) =
      overlay (under p (Node.dir st entries).at) fs := by
  have hnil : entries.at [] = none := by cases entries <;> rfl
  funext q
  by_cases hqp : q = p
  · subst hqp
    simp [overlay, under, Fs.set, Node.at, hnil]
  · rw [overlay, overlay, Fs.set, Function.update_of_ne hqp, under, under]
    split
    · rename_i hpre
      obtain ⟨r, rfl⟩ := hpre
      cases r with
      | nil => exact absurd (List.append_nil p) hqp
      | cons n r => simp [Node.at]
    · rfl

theorem at_of_notMem {es : Entries} {n : Bytes} (h : n ∉ es.names) (q : Path) : es.at (n :: q) = none := by
  match es with
  | .nil => rfl
  | .cons name node rest =>
    rw [Entries.names, List.mem_cons, not_or] at h
    rw [Entries.at]
    simp only [if_neg h.1]
    exact at_of_notMem h.2 q

theorem not_prefix_concat (p : Path) (n m : Bytes) (r : Path) (hne : n ≠ m) : ¬ p ++ [n] <+: p ++ m :: r := by
  rw [List.prefix_append_right_inj, List.cons_prefix_cons]
  exact fun h => hne h.1

theorem overlay_cons {name : Bytes} {node : Node} {rest : Entries} (hname : name ∉ rest.names) (fs : Fs) (p : Path) :
    overlay (under p rest.at) (overlay (under (p ++ [name]) node.at) fs) =
      overlay (under p (Entries.cons name node rest).at) fs := by
  funext q
  by_cases hpre : p <+: q
  · obtain ⟨r, rfl⟩ := hpre
    cases r with
    | nil =>
      have hnil : ∀ es : Entries, es.at [] = none := fun es => by cases es <;> rfl
      have hnot : ¬ p ++ [name] <+: p := fun h => by simpa using h.length_le
      simp [overlay, under, hnil, hnot]
    | cons n r =>
      by_cases hn : n = name
      · subst hn
        have hpre : p ++ [n] <+: p ++ n :: r := by simp
        simp [overlay, under, at_of_notMem hname, Entries.at, hpre]
      · have hnot := not_prefix_concat p name n r (Ne.symm hn)
        simp [overlay, under, Entries.at, hn, hnot]
  · have hnot : ¬ p ++ [name] <+: q := fun h => hpre ((List.prefix_append p [name]).trans h)
    simp [overlay, under, hpre, hnot]

/-- What the lines of an entry need. -/
structure Extractable (e : Env) (blobs : Blobs) (lines : List Line) (contents : List Bytes) : Prop where
  fits : ∀ l ∈ lines, LineFits l
  blobs : ∀ c ∈ contents, blobs (e.key c) = some c

theorem Extractable.left {lines lines' : List Line} {contents contents' : List Bytes}
    (h : Extractable e blobs (lines ++ lines') (contents ++ contents')) : Extractable e blobs lines contents :=
  ⟨fun l hl => h.fits l (List.mem_append_left _ hl), fun c hc => h.blobs c (List.mem_append_left _ hc)⟩

theorem Extractable.right {lines lines' : List Line} {contents contents' : List Bytes}
    (h : Extractable e blobs (lines ++ lines') (contents ++ contents')) : Extractable e blobs lines' contents' :=
  ⟨fun l hl => h.fits l (List.mem_append_right _ hl), fun c hc => h.blobs c (List.mem_append_right _ hc)⟩

theorem xLines_leaf {line : Bytes} {fs' : Fs} (h : xLine e blobs 2 line fs = .ok fs') :
    xLines e blobs 2 [line] fs = .ok fs' := by
  rw [xLines, h]
  rfl

mutual

/-- The lines of a directory make its entries, but for the sticky bits. -/
theorem extractDir (e : Env) (blobs : Blobs) (p : Path) : ∀ (es : Entries) (fs : Fs), Open fs p →
    (∀ n ∈ es.names, ∀ q, p ++ [n] <+: q → fs q = none) → es.Valid → es.Fits e (pathText p) →
    Extractable e blobs (es.lines e (pathText p)) es.contents →
    xLines e blobs 2 ((es.lines e (pathText p)).map chunk) fs = .ok (overlay (under p es.at) fs)
  | .nil, fs, _, _, _, _, _ => by
    have hempty : overlay (under p Entries.nil.at) fs = fs := by
      funext q
      simp [overlay, under, Entries.at]
    rw [hempty]
    rfl
  | .cons name node rest, fs, hopen, hnew, hvalid, hfits, hx => by
    obtain ⟨hname, hdistinct, hnode, hrest⟩ := hvalid
    obtain ⟨-, hnodefits, hrestfits⟩ := hfits
    rw [← pathText_append] at hnodefits
    rw [Entries.lines, ← pathText_append, Entries.contents] at hx
    have hpath : ∀ q, q <+: p → ¬ p ++ [name] <+: q := by
      intro q hq hpre
      have := (hpre.trans hq).length_le
      simp at this
    have hopen' : Open (overlay (under (p ++ [name]) node.at) fs) p := by
      refine ⟨hopen.valid, fun q hq hpre => ?_⟩
      rw [overlay, under, if_neg (hpath q hpre), Option.none_or]
      exact hopen.way q hq hpre
    have hnew' : ∀ n ∈ rest.names, ∀ q, p ++ [n] <+: q → overlay (under (p ++ [name]) node.at) fs q = none := by
      rintro n hn q ⟨r, rfl⟩
      have hne : name ≠ n := fun h => hdistinct (h ▸ hn)
      have hnot := not_prefix_concat p name n r hne
      rw [List.append_assoc, List.singleton_append]
      rw [overlay, under, if_neg hnot, Option.none_or]
      exact hnew n (List.mem_cons_of_mem _ hn) _ (by simp)
    rw [Entries.lines, ← pathText_append, List.map_append, xLines_append,
      extractNode e blobs (p ++ [name]) node fs (hopen.reached hname) (hnew name List.mem_cons_self) hnode hnodefits
        hx.left, Except.ok_bind,
      extractDir e blobs p rest _ hopen' hnew' hrest hrestfits hx.right, overlay_cons hdistinct]

theorem extractNode (e : Env) (blobs : Blobs) (p : Path) : ∀ (node : Node) (fs : Fs), Reached fs p →
    (∀ q, p <+: q → fs q = none) → node.Valid → node.Fits e (pathText p) →
    Extractable e blobs (node.lines e (pathText p)) node.contents →
    xLines e blobs 2 ((node.lines e (pathText p)).map chunk) fs = .ok (overlay (under p node.at) fs)
  | .file st content, fs, h, hnew, _, hfits, hx => by
    have hline := hx.fits _ List.mem_cons_self
    have hpath : (join e.blob_dir (e.key content)).length < PATH_MAX := by
      rw [Node.Fits] at hfits
      omega
    have hkey : (9 : UInt8) ∉ e.key content :=
      (hline.plain.2 (e.key content) (by simp [Item.fields, Line.ofStat])).2.1
    have hsize : (signed (intSize content)).length < 32 := intSize_length content
    have hentry := xEntry_file (st.mode &&& STAT_MASK) h (hnew p List.prefix_rfl) hline.uid hline.gid hkey hsize
      hpath (hx.blobs content List.mem_cons_self)
    rw [overlay_leaf (fun _ _ => rfl)]
    exact xLines_leaf ((xLine_text hline).trans hentry)
  | .link st target, fs, h, hnew, hvalid, _, hx => by
    have hline := hx.fits _ List.mem_cons_self
    have htab : (9 : UInt8) ∉ target := (hline.plain.2 target (by simp [Item.fields, Line.ofStat])).2.1
    have hentry := xEntry_link e blobs (st.mode &&& STAT_MASK).toNat h (hnew p List.prefix_rfl) hline.uid hline.gid
      htab (hline.target target rfl) hvalid
    rw [overlay_leaf (fun _ _ => rfl)]
    exact xLines_leaf ((xLine_text hline).trans hentry)
  | .dir st entries, fs, h, hnew, hvalid, hfits, hx => by
    have hline := hx.fits _ List.mem_cons_self
    have hentry := xEntry_dir e blobs (st.mode &&& STAT_MASK) h (hnew p List.prefix_rfl) hline.uid hline.gid
      (some (tabbed (Item.fields .dir) ++ [10]))
    have hbelow : ∀ n ∈ entries.names, ∀ q, p ++ [n] <+: q →
        fs.set p (.dir (st.mode &&& STAT_MASK) st.uid st.gid) q = none := by
      intro n _ q hpre
      have hne : q ≠ p := by
        rintro rfl
        have := hpre.length_le
        simp at this
      rw [Fs.set, Function.update_of_ne hne]
      exact hnew q ((List.prefix_append p [n]).trans hpre)
    rw [Node.lines, List.map_cons, xLines, chunk, (xLine_text hline).trans hentry, Except.ok_bind,
      extractDir e blobs p entries _ (h.open _ _ _) hbelow hvalid hfits
        ⟨fun l hl => hx.fits l (List.mem_cons_of_mem _ hl), hx.blobs⟩]
    exact congrArg Except.ok (overlay_dir fs p)

end

/-! ## The round trip -/

variable {tree : Entries}

/-- What a tree needs to pass through a manifest: plain names and targets, lines and targets that fit their
buffers, owners other than -1, and no two contents under one key. -/
structure Storable (e : Env) (tree : Entries) (blobs : Blobs) : Prop where
  valid : tree.Valid
  fits : tree.Fits e (pathText [])
  lines : ∀ l ∈ tree.lines e (pathText []), LineFits l
  keys : KeysTell e blobs tree.contents

/-- A storable tree can be stored and extracted, and comes back without its sticky bits. -/
theorem extract_create (h : Storable e tree blobs) : ∃ store, create e tree blobs = .ok store ∧
    extract e store = .ok fun q => (tree.at q).map Attr.mask := by
  refine ⟨_, storeDir_eq e _ tree _ h.fits, ?_⟩
  let m : Manifest := ⟨some 2, tree.lines e (pathText []), by simp [DEDUPE_VERSION], fun l hl => (h.lines l hl).plain⟩
  have hversion : m.version = 2 := rfl
  have htext : Bytes.ascii "dedupe\t2\n" ++ unlines 10 ((tree.lines e (pathText [])).map (Line.text 2)) = m.text := by
    have hline : Bytes.ascii "dedupe\t2\n" = versionLine 2 ++ [10] := by decide +kernel
    rw [hline]
    simp [Manifest.text, m, Manifest.version, unlines]
  have hne : m.text ≠ [] := by
    rw [← htext]
    simp [Bytes.ascii]
  have hread : fgetsAll PATH_MAX (by decide) 10 (unlines 10 (m.lines.map (Line.text m.version))) =
      (tree.lines e (pathText [])).map chunk := by
    rw [fgetsAll_unlines, List.map_map]
    · rfl
    · intro t ht
      obtain ⟨l, hl, rfl⟩ := List.mem_map.mp ht
      exact ⟨(h.lines l hl).short, Line.newline_not_mem (h.lines l hl).plain⟩
  have hopen : Open (fun _ => none) [] := ⟨by simp, fun q hq hpre => absurd (List.prefix_nil.mp hpre) hq⟩
  have hx : Extractable e (blobs.storeAll e tree.contents) (tree.lines e (pathText [])) tree.contents :=
    ⟨h.lines, fun c hc => storeAll_kept h.keys (List.Subset.refl _) hc (.inl hc)⟩
  have hall := extractDir e _ [] tree (fun _ => none) hopen (fun _ _ _ _ => rfl) h.valid h.fits hx
  rw [extract]
  show (orTrouble (openManifest (Bytes.ascii "dedupe\t2\n" ++
    unlines 10 ((tree.lines e (pathText [])).map (Line.text 2)))) >>= _) = _
  rw [htext, openManifest_text m hne, orTrouble_ok_bind, hread, hversion]
  refine hall.trans (congrArg Except.ok (funext fun q => ?_))
  simp [overlay, under]

/-- The entry is a file or directory with the sticky bit. -/
def Attr.Sticky : Attr → Prop
  | .file mode _ _ _ => mode &&& 0o1000 ≠ 0
  | .link _ _ _ => False
  | .dir mode _ _ => mode &&& 0o1000 ≠ 0

theorem mask_mode (m : BitVec 12) : m &&& STAT_MASK = m ↔ m &&& 0o1000 = 0 := by
  have hmask : STAT_MASK = ~~~(0o1000 : BitVec 12) := by decide
  rw [hmask]
  constructor
  · intro h
    rw [← h, BitVec.and_assoc, BitVec.and_comm _ (0o1000 : BitVec 12), BitVec.and_not_self]
    exact BitVec.and_zero
  · intro h
    have hsplit : m &&& BitVec.allOnes 12 = (m &&& 0o1000) ||| (m &&& ~~~(0o1000 : BitVec 12)) := by
      rw [← BitVec.and_or_distrib_left, BitVec.or_not_self]
    rw [h, BitVec.and_allOnes] at hsplit
    exact (hsplit.trans BitVec.zero_or).symm

theorem mask_eq_iff (a : Attr) : a.mask = a ↔ ¬ a.Sticky := by
  cases a with
  | file mode uid gid content => simp [Attr.mask, Attr.Sticky, mask_mode]
  | link uid gid target => simp [Attr.mask, Attr.Sticky]
  | dir mode uid gid => simp [Attr.mask, Attr.Sticky, mask_mode]

/-- A tree of one directory. -/
def oneDir (mode : BitVec 12) : Entries := .cons (Bytes.ascii "d") (.dir ⟨mode, 1000, 1000, 0, 0, 0⟩ .nil) .nil

theorem oneDir_storable (e : Env) (mode : BitVec 12) (blobs : Blobs) : Storable e (oneDir mode) blobs where
  valid := ⟨⟨by decide, by decide, by decide, by decide⟩, by simp [Entries.names], trivial, trivial⟩
  fits := ⟨by decide, trivial, trivial⟩
  lines l hl := by
    rw [oneDir, Entries.lines, Node.lines, Entries.lines, Entries.lines, List.append_nil, List.mem_singleton] at hl
    subst hl
    have hname : (Line.ofStat ⟨mode, 1000, 1000, 0, 0, 0⟩ (join (pathText []) (Bytes.ascii "d")) .dir).filename =
        Bytes.ascii "./d" := by
      show join (pathText []) (Bytes.ascii "d") = _
      decide
    have huid : (1000 : BitVec 32).toInt ≠ -1 := by decide
    refine ⟨⟨?_, nofun⟩, ?_, nofun, huid, huid⟩
    · rw [hname]
      exact by decide
    · have hmode : (numeral 8 (mode &&& STAT_MASK).toNat).length ≤ 4 :=
        numeral_length_le (by decide) (by decide) (mode &&& STAT_MASK).isLt
      have hid : (signed ((1000 : BitVec 32).toInt)).length = 4 := by decide +kernel
      have htime : (numeral 10 (0 : UInt64).toNat).length = 1 := by decide +kernel
      have htext : ((Line.ofStat ⟨mode, 1000, 1000, 0, 0, 0⟩ (join (pathText []) (Bytes.ascii "d")) .dir).text 2).length =
          (numeral 8 (mode &&& STAT_MASK).toNat).length + 23 := by
        have hpath : (join (pathText []) (Bytes.ascii "d")).length = 3 := by decide
        simp only [Line.text, Line.fields, Line.stat, tabbed, Line.ofStat, Item.fields, ge_iff_le, Int.reduceLE,
          ↓reduceIte, List.append_nil, List.flatMap_append, List.flatMap_cons, List.flatMap_nil,
          List.length_append, List.length_cons, List.length_nil, hid, htime, hpath]
        omega
      rw [htext, PATH_MAX]
      omega
  keys := ⟨nofun, nofun⟩

theorem oneDir_at {mode : BitVec 12} {p : Path} {a : Attr} (h : (oneDir mode).at p = some a) :
    a = .dir mode 1000 1000 := by
  rcases p with _ | ⟨n, _ | ⟨n', q⟩⟩
  · cases h
  · rw [oneDir, Entries.at] at h
    split at h
    · exact (Option.some.inj h).symm
    · cases h
  · rw [oneDir, Entries.at] at h
    split at h
    · cases h
    · cases h

/-- A blob directory and a hash for the examples below. -/
def exampleEnv : Env := ⟨Bytes.ascii "/b", fun _ => ⟨List.replicate 32 0, List.length_replicate⟩⟩

end Dedupe
end Miui
