import MiuiRecovery.Dedupe.Store

/-!
# Extracting a tree

`dedupe x`, run by root: each line of the manifest makes an entry below the output directory and sets
its owner and mode. The times of the entries are left out.

* `locate`: where a path leads. What lies behind symbolic links, or outside of the output directory, is
  not modelled.
* `extract`: `dedupe x`.
* `Entries.at`: the entries of a stored tree, as an extraction should find them again.
-/

namespace Miui
namespace Dedupe

open CString

/-! ## The output directory -/

/-- What can be restored of an entry. Symbolic links have no mode of their own. -/
inductive Attr
  | file (mode : BitVec 12) (uid gid : BitVec 32) (content : Bytes)
  | link (uid gid : BitVec 32) (target : Bytes)
  | dir (mode : BitVec 12) (uid gid : BitVec 32)
deriving DecidableEq

/-- The names on the way to an entry. -/
abbrev Path := List Bytes

/-- The entries below the output directory, which is itself no entry. -/
abbrev Fs := Path → Option Attr

/-- How an extraction stops early. -/
inductive XStop
  | trouble (t : Trouble)
  | returned (status : Int)
  /-- The path leads to where this is no model of. -/
  | elsewhere
deriving DecidableEq

def Fs.set (fs : Fs) (p : Path) (a : Attr) : Fs := Function.update fs p (some a)

inductive Located
  | here (p : Path)
  | missing
  | elsewhere
deriving DecidableEq

def components (path : Bytes) : Path := (tokens (· == 47) path).filter (· != Bytes.ascii ".")

/-- The way behind `done`: all names but the last have to be directories. -/
def walk (fs : Fs) (done : Path) : Path → Located
  | [] => .elsewhere
  | [name] => .here (done ++ [name])
  | name :: names =>
    match fs (done ++ [name]) with
    | some (.dir _ _ _) => walk fs (done ++ [name]) names
    | some (.link _ _ _) => .elsewhere
    | _ => .missing

def locate (fs : Fs) (path : Bytes) : Located :=
  if path = [] then .missing
  else if path.head? = some 47 ∨ Bytes.ascii ".." ∈ components path then .elsewhere
  else walk fs [] (components path)

/-- A call on a path; `missing` is what it does where the path leads nowhere. -/
def onPath (fs : Fs) (path : Bytes) (missing : Except XStop Fs) (call : Path → Option Attr → Except XStop Fs) :
    Except XStop Fs :=
  match locate fs path with
  | .here p => call p (fs p)
  | .missing => missing
  | .elsewhere => .error .elsewhere

/-- The group of a new entry: that of its directory, if it has the set-group-ID bit. -/
def newGid (fs : Fs) (p : Path) : BitVec 32 :=
  match fs p.dropLast with
  | some (.dir mode _ gid) => if mode &&& 0o2000 ≠ 0 then gid else 0
  | _ => 0

/-- `copy_file(src, dst)` of a file with this content; `none` where there is no such file. -/
def copyFile (src : Option Bytes) (dst : Bytes) (fs : Fs) : Except XStop Fs :=
  match src with
  | none => .error (.returned 3)
  | some content =>
    onPath fs dst (.error (.returned 4)) fun p a =>
      match a with
      | none => .ok (fs.set p (.file 0o644 0 (newGid fs p) content))
      | some (.file mode uid gid _) => .ok (fs.set p (.file mode uid gid content))
      | some (.link _ _ _) => .error .elsewhere
      | some (.dir _ _ _) => .error (.returned 4)

/-- The owner -1 leaves the owner as it is. -/
def newOwner (old new : BitVec 32) : BitVec 32 := if new = -1 then old else new

def Attr.setOwner (uid gid : BitVec 32) : Attr → Attr
  | .file mode u g content => .file mode (newOwner u uid) (newOwner g gid) content
  | .link u g target => .link (newOwner u uid) (newOwner g gid) target
  | .dir mode u g => .dir mode (newOwner u uid) (newOwner g gid)

def Attr.setMode (mode : BitVec 12) : Attr → Attr
  | .file _ uid gid content => .file mode uid gid content
  | .link uid gid target => .link uid gid target
  | .dir _ uid gid => .dir mode uid gid

/-- `lchown`; that it failed is not noticed. -/
def lchown (path : Bytes) (uid gid : Int) (fs : Fs) : Except XStop Fs :=
  onPath fs path (.ok fs) fun p a =>
    match a with
    | none => .ok fs
    | some a => .ok (fs.set p (a.setOwner (BitVec.ofInt 32 uid) (BitVec.ofInt 32 gid)))

/-- `chown` follows a symbolic link. The set-ID bits that it clears are set by the `chmod` behind it. -/
def chown (path : Bytes) (uid gid : Int) (fs : Fs) : Except XStop Fs :=
  onPath fs path (.ok fs) fun p a =>
    match a with
    | none => .ok fs
    | some (.link _ _ _) => .error .elsewhere
    | some a => .ok (fs.set p (a.setOwner (BitVec.ofInt 32 uid) (BitVec.ofInt 32 gid)))

def chmod (path : Bytes) (mode : Int) (fs : Fs) : Except XStop Fs :=
  onPath fs path (.ok fs) fun p a =>
    match a with
    | none => .ok fs
    | some (.link _ _ _) => .error .elsewhere
    | some a => .ok (fs.set p (a.setMode (BitVec.ofInt 12 mode)))

def symlink (target path : Bytes) (fs : Fs) : Except XStop Fs :=
  onPath fs path (.ok fs) fun p a =>
    match a with
    | none => .ok (if target = [] then fs else fs.set p (.link 0 (newGid fs p) target))
    | some _ => .ok fs

def mkdir (path : Bytes) (mode : Int) (fs : Fs) : Except XStop Fs :=
  onPath fs path (.ok fs) fun p a =>
    match a with
    | none => .ok (fs.set p (.dir (BitVec.ofInt 12 mode) 0 (newGid fs p)))
    | some _ => .ok fs

/-! ## The lines -/

def orTrouble {α : Type} (x : Except Trouble α) : Except XStop α := x.mapError .trouble

/-- The entry that a line describes, from its fields and what is behind them. -/
def xEntry (e : Env) (blobs : Blobs) (type : Bytes) (mode_oct uid_int gid_int : Int) (filename : Bytes)
    (token : Option Bytes) (fs : Fs) : Except XStop Fs :=
  if type = [102] then do
    let (sha256, token) ← orTrouble (tokenize 128 token)
    let _ ← orTrouble (tokenize 32 token)
    if (join e.blob_dir sha256).length < PATH_MAX then do
      let fs ← copyFile (blobs sha256) filename fs
      let fs ← chown filename uid_int gid_int fs
      chmod filename mode_oct fs
    else .error (.trouble .undefined)
  else if type = [108] then do
    let (link, token) ← orTrouble (tokenize 41 token)
    -- without its tab, `link` is not terminated
    if token = none then .error (.trouble .undefined)
    else do
      let fs ← symlink link filename fs
      lchown filename uid_int gid_int fs
  else if type = [100] then do
    let fs ← mkdir filename mode_oct fs
    let fs ← chown filename uid_int gid_int fs
    chmod filename mode_oct fs
  else .error (.returned 1)

def xLine (e : Env) (blobs : Blobs) (version : Int) (line : Bytes) (fs : Fs) : Except XStop Fs := do
  let (fields, token) ← orTrouble (tokenizeAll (fieldCaps version) (some (cstr line)))
  -- `filename` is printed, so it has to be terminated
  if token = none then .error (.trouble .undefined)
  else
    xEntry e blobs (fields.headD []) (decToOct (strtol (fields.getD 1 []))) (strtol (fields.getD 2 []))
      (strtol (fields.getD 3 [])) (fields.getLastD []) token fs

def xLines (e : Env) (blobs : Blobs) (version : Int) : List Bytes → Fs → Except XStop Fs
  | [], fs => .ok fs
  | line :: lines, fs => do
    let fs ← xLine e blobs version line fs
    xLines e blobs version lines fs

/-- `dedupe x` into an empty directory. -/
def extract (e : Env) (s : Store) : Except XStop Fs := do
  let (version, lines) ← orTrouble (openManifest s.manifest)
  if version > DEDUPE_VERSION then .error (.returned 1)
  else xLines e s.blobs version lines fun _ => none

/-! ## The tree that should come back -/

def Node.attr : Node → Attr
  | .file st content => .file st.mode st.uid st.gid content
  | .link st target => .link st.uid st.gid target
  | .dir st _ => .dir st.mode st.uid st.gid

mutual

/-- The entry at a path below a directory. -/
def Entries.at : Entries → Path → Option Attr
  | .nil, _ => none
  | .cons name node rest, p =>
    match p with
    | [] => none
    | n :: q => if n = name then node.at q else rest.at p

def Node.at (node : Node) (p : Path) : Option Attr :=
  match p with
  | [] => some node.attr
  | n :: q =>
    match node with
    | .dir _ entries => entries.at (n :: q)
    | _ => none

end

/-- Whenever the tree can be stored and extracted, the output is the tree. -/
def RoundTrips (e : Env) (tree : Entries) (blobs : Blobs) : Prop :=
  ∀ store fs, create e tree blobs = .ok store → extract e store = .ok fs → fs = tree.at

end Dedupe
end Miui
