import MiuiRecovery.Dedupe.Tree

/-!
# Storing a tree

`dedupe c`: a line of the manifest for each entry of the tree, and a blob for each content. The runs
modelled are those in which every system call succeeds; the excludes are left out.

* `storeDir_eq`: the manifest is one line after the other, the blobs one content after the other.
* `storeAll_kept`: where contents with one key are equal, each is found under its key.
-/

namespace Miui
namespace Dedupe

open CString Numeral

/-- The directory of the blobs, and `SHA256`. -/
structure Env where
  blob_dir : Bytes
  sha256 : Bytes → { d : Bytes // d.length = 32 }

/-- The contents of the blobs, by their keys. -/
abbrev Blobs := Bytes → Option Bytes

structure Store where
  manifest : Bytes
  blobs : Blobs

/-! ## Files -/

/-- A digit of `%02x`. -/
def hexDigit (d : UInt8) : UInt8 := if d < 10 then 48 + d else 87 + d

/-- The digest as `psum` has it. -/
def psum (digest : Bytes) : Bytes := List.flatMap (fun b : UInt8 => [hexDigit (b >>> 4), hexDigit (b &&& 15)]) digest

/-- If a hash is abcdefg, the key is abc/defg. -/
def Env.key (e : Env) (content : Bytes) : Bytes :=
  let psum := psum (e.sha256 content).1
  psum.take 3 ++ 47 :: psum.drop 3

/-- `(int)st.st_size` -/
def intSize (content : Bytes) : Int := Int.bmod content.length (2 ^ 32)

/-- The blob is copied, unless there is one of the same size. -/
def Blobs.store (blobs : Blobs) (key content : Bytes) : Blobs :=
  if (blobs key).map intSize = some (intSize content) then blobs else Function.update blobs key (some content)

/-! ## The manifest -/

/-- `S_IRWXU | S_IRWXG | S_IRWXO | S_ISUID | S_ISGID` -/
def STAT_MASK : BitVec 12 := 0o6777

/-- What `print_stat` and the function behind it write of an entry. -/
def Line.ofStat (st : Stat) (filename : Bytes) (item : Item) : Line where
  mode := (st.mode &&& STAT_MASK).toNat
  uid := st.uid.toInt
  gid := st.gid.toInt
  atime := st.atime.toNat
  mtime := st.mtime.toNat
  ctime := st.ctime.toNat
  filename := filename
  item := item

def Store.print (s : Store) (l : Line) : Store := { s with manifest := s.manifest ++ l.text 2 ++ [10] }

/-- `store_file` behind `print_stat`: `out_blob` and `tmp_out_blob` hold the path of the blob. -/
def storeFile (e : Env) (st : Stat) (f content : Bytes) (s : Store) : Except Trouble Store :=
  let key := e.key content
  if (join e.blob_dir key).length + 4 < PATH_MAX then
    let s := s.print (.ofStat st f (.file key (intSize content)))
    .ok { s with blobs := s.blobs.store key content }
  else .error .undefined

/-- `store_link` behind `print_stat`. -/
def storeLink (st : Stat) (l target : Bytes) (s : Store) : Except Trouble Store :=
  if target.length < PATH_MAX then .ok (s.print (.ofStat st l (.link target))) else .error .undefined

mutual

/-- `store_dir` in the directory `d`. -/
def storeDir (e : Env) (d : Bytes) : Entries → Store → Except Trouble Store
  | .nil, s => .ok s
  | .cons name node rest, s =>
    if (join d name).length < PATH_MAX then do
      let s ← storeSt e (join d name) node s
      storeDir e d rest s
    else .error .undefined

/-- `store_st` -/
def storeSt (e : Env) (path : Bytes) : Node → Store → Except Trouble Store
  | .file st content, s => storeFile e st path content s
  | .link st target, s => storeLink st path target s
  | .dir st entries, s => storeDir e path entries (s.print (.ofStat st path .dir))

end

/-- `dedupe c` on a tree, with these blobs in the directory. -/
def create (e : Env) (tree : Entries) (blobs : Blobs) : Except Trouble Store :=
  storeDir e (Bytes.ascii ".") tree ⟨Bytes.ascii "dedupe\t2\n", blobs⟩

/-! ## Line by line -/

mutual

/-- The lines of the entries below `d`. -/
def Entries.lines (e : Env) (d : Bytes) : Entries → List Line
  | .nil => []
  | .cons name node rest => node.lines e (join d name) ++ rest.lines e d

def Node.lines (e : Env) (path : Bytes) : Node → List Line
  | .file st content => [.ofStat st path (.file (e.key content) (intSize content))]
  | .link st target => [.ofStat st path (.link target)]
  | .dir st entries => .ofStat st path .dir :: entries.lines e path

end

mutual

/-- The contents of the files. -/
def Entries.contents : Entries → List Bytes
  | .nil => []
  | .cons _ node rest => node.contents ++ rest.contents

def Node.contents : Node → List Bytes
  | .file _ content => [content]
  | .link _ _ => []
  | .dir _ entries => entries.contents

end

/-- One content after the other. -/
def Blobs.storeAll (e : Env) (blobs : Blobs) (contents : List Bytes) : Blobs :=
  contents.foldl (fun b c => b.store (e.key c) c) blobs

mutual

/-- No path of the tree, no target and no path of a blob is longer than its buffer. -/
def Entries.Fits (e : Env) (d : Bytes) : Entries → Prop
  | .nil => True
  | .cons name node rest => (join d name).length < PATH_MAX ∧ node.Fits e (join d name) ∧ rest.Fits e d

def Node.Fits (e : Env) (path : Bytes) : Node → Prop
  | .file _ content => (join e.blob_dir (e.key content)).length + 4 < PATH_MAX
  | .link _ target => target.length < PATH_MAX
  | .dir _ entries => entries.Fits e path

end

theorem length_key (e : Env) (content : Bytes) : (e.key content).length = 65 := by
  have hpsum : ∀ d : Bytes, (psum d).length = 2 * d.length := by
    intro d
    induction d with
    | nil => rfl
    | cons b d ih =>
      have hcons : psum (b :: d) = hexDigit (b >>> 4) :: hexDigit (b &&& 15) :: psum d := rfl
      rw [hcons, List.length_cons, List.length_cons, ih, List.length_cons]
      omega
  unfold Env.key
  rw [List.length_append, List.length_cons, List.length_take, List.length_drop, hpsum, (e.sha256 content).2]
  rfl

mutual

theorem storeDir_eq (e : Env) (d : Bytes) : ∀ (es : Entries) (s : Store), es.Fits e d →
    storeDir e d es s = .ok ⟨s.manifest ++ unlines 10 ((es.lines e d).map (Line.text 2)),
      s.blobs.storeAll e es.contents⟩
  | .nil, s, _ => by
    rw [storeDir, Entries.lines, Entries.contents, List.map_nil]
    simp [unlines, Blobs.storeAll]
  | .cons name node rest, s, h => by
    obtain ⟨hname, hnode, hrest⟩ := h
    rw [storeDir, if_pos hname, storeSt_eq e _ node s hnode, Except.ok_bind, storeDir_eq e d rest _ hrest,
      Entries.lines, Entries.contents]
    simp [unlines, Blobs.storeAll]

theorem storeSt_eq (e : Env) (path : Bytes) : ∀ (node : Node) (s : Store), node.Fits e path →
    storeSt e path node s = .ok ⟨s.manifest ++ unlines 10 ((node.lines e path).map (Line.text 2)),
      s.blobs.storeAll e node.contents⟩
  | .file st content, s, h => by
    rw [Node.Fits] at h
    rw [storeSt, storeFile, Node.lines, Node.contents]
    simp [h, unlines, Blobs.storeAll, Store.print]
  | .link st target, s, h => by
    rw [Node.Fits] at h
    rw [storeSt, storeLink, Node.lines, Node.contents]
    simp [h, unlines, Blobs.storeAll, Store.print]
  | .dir st entries, s, h => by
    rw [Node.Fits] at h
    rw [storeSt, storeDir_eq e path entries _ h, Node.lines, Node.contents]
    simp [unlines, Store.print]

end

/-! ## Blobs -/

variable {e : Env} {blobs : Blobs} {all : List Bytes}

/-- Contents with one key are equal, those of the blobs in the directory included. -/
structure KeysTell (e : Env) (blobs : Blobs) (all : List Bytes) : Prop where
  inj : ∀ c ∈ all, ∀ c' ∈ all, e.key c = e.key c' → c = c'
  old : ∀ c ∈ all, ∀ b, blobs (e.key c) = some b → intSize b = intSize c → b = c

theorem KeysTell.store_self (h : KeysTell e blobs all) {c : Bytes} (hc : c ∈ all) :
    blobs.store (e.key c) c (e.key c) = some c := by
  unfold Blobs.store
  split
  · rename_i hsize
    obtain ⟨b, hb, hbsize⟩ := Option.map_eq_some_iff.mp hsize
    rw [hb, h.old c hc b hb hbsize]
  · exact Function.update_self _ _ _

theorem KeysTell.store_kept (h : KeysTell e blobs all) {c c' : Bytes} (hc : c ∈ all) (hc' : c' ∈ all)
    (hkept : blobs (e.key c) = some c) : blobs.store (e.key c') c' (e.key c) = some c := by
  by_cases hkey : e.key c' = e.key c
  · rw [h.inj c' hc' c hc hkey]
    exact h.store_self hc
  · unfold Blobs.store
    split
    · exact hkept
    · rwa [Function.update_of_ne (Ne.symm hkey)]

theorem KeysTell.store (h : KeysTell e blobs all) {c : Bytes} (hc : c ∈ all) :
    KeysTell e (blobs.store (e.key c) c) all where
  inj := h.inj
  old c' hc' b hb hsize := by
    by_cases hkey : e.key c' = e.key c
    · rw [hkey, h.store_self hc, Option.some.injEq] at hb
      rw [← hb, h.inj c' hc' c hc hkey]
    · refine h.old c' hc' b ?_ hsize
      unfold Blobs.store at hb
      split at hb
      · exact hb
      · rwa [Function.update_of_ne hkey] at hb

/-- Where contents with one key are equal, each is found under its key. -/
theorem storeAll_kept (h : KeysTell e blobs all) {contents : List Bytes} (hsub : contents ⊆ all) {c : Bytes}
    (hc : c ∈ all) (hmem : c ∈ contents ∨ blobs (e.key c) = some c) :
    blobs.storeAll e contents (e.key c) = some c := by
  induction contents generalizing blobs with
  | nil => exact hmem.resolve_left List.not_mem_nil
  | cons c' contents ih =>
    have hc' := hsub List.mem_cons_self
    refine ih (h.store hc') (fun x hx => hsub (List.mem_cons_of_mem _ hx)) ?_
    rcases hmem with hmem | hkept
    · rcases List.mem_cons.mp hmem with rfl | hmem
      · exact .inr (h.store_self hc)
      · exact .inl hmem
    · exact .inr (h.store_kept hc hc' hkept)

end Dedupe
end Miui
