import MiuiRecovery.Dedupe.Manifest

/-!
# Directory trees

The trees that `dedupe c` stores and `dedupe gc` lists: regular files, symbolic links and directories
with their entries in the order of `readdir`.

* `listDir`: `recursive_list_dir`.
* `listDir_eq`: it lists the files below a directory by their paths, if all of them fit into `PATH_MAX`.
-/

namespace Miui
namespace Dedupe

/-- What `lstat` says of an entry, besides its type and size. -/
structure Stat where
  mode : BitVec 12
  uid : BitVec 32
  gid : BitVec 32
  atime : UInt64
  mtime : UInt64
  ctime : UInt64
deriving DecidableEq

mutual

inductive Node
  | file (st : Stat) (content : Bytes)
  | link (st : Stat) (target : Bytes)
  | dir (st : Stat) (entries : Entries)

inductive Entries
  | nil
  | cons (name : Bytes) (node : Node) (rest : Entries)

end

/-- `sprintf(path, "%s/%s", d, name)` -/
def join (d name : Bytes) : Bytes := d ++ 47 :: name

/-! ## Listing -/

mutual

/-- `recursive_list_dir(d, arr)`, where all directories can be opened. -/
def listDir (d : Bytes) : Entries → Except Trouble (List Bytes)
  | .nil => .ok []
  | .cons name node rest =>
    if (join d name).length < PATH_MAX then do
      let files ← listNode (join d name) node
      let more ← listDir d rest
      pure (files ++ more)
    else .error .undefined

def listNode (blob : Bytes) : Node → Except Trouble (List Bytes)
  | .dir _ entries => listDir blob entries
  | .file _ _ => .ok [blob]
  | .link _ _ => .ok [blob]

end

mutual

/-- The paths below `d`, those of directories included. -/
def Entries.paths (d : Bytes) : Entries → List Bytes
  | .nil => []
  | .cons name node rest => join d name :: (node.paths (join d name) ++ rest.paths d)

def Node.paths (p : Bytes) : Node → List Bytes
  | .dir _ entries => entries.paths p
  | .file _ _ => []
  | .link _ _ => []

end

mutual

/-- The files below a directory: their keys, each behind `pre`. -/
def Entries.keysFrom (pre : Bytes) : Entries → List Bytes
  | .nil => []
  | .cons name node rest => node.keysFrom (pre ++ name) ++ rest.keysFrom pre

def Node.keysFrom (p : Bytes) : Node → List Bytes
  | .dir _ entries => entries.keysFrom (p ++ [47])
  | .file _ _ => [p]
  | .link _ _ => [p]

end

/-- The keys of the blobs in a blob directory. -/
def Entries.keys (es : Entries) : List Bytes := es.keysFrom []

theorem join_eq (d name : Bytes) : join d name = d ++ [47] ++ name := by simp [join]

mutual

theorem listDir_eq (d : Bytes) : ∀ es : Entries, listDir d es =
    if ∀ p ∈ es.paths d, p.length < PATH_MAX then .ok (es.keysFrom (d ++ [47])) else .error .undefined
  | .nil => by simp [listDir, Entries.paths, Entries.keysFrom]
  | .cons name node rest => by
    rw [listDir, listNode_eq (join d name) node, listDir_eq d rest, Entries.paths, Entries.keysFrom, ← join_eq]
    simp only [List.forall_mem_cons, List.forall_mem_append]
    by_cases hname : (join d name).length < PATH_MAX
    · by_cases hnode : ∀ q ∈ node.paths (join d name), q.length < PATH_MAX
      · by_cases hrest : ∀ p ∈ rest.paths d, p.length < PATH_MAX
        · rw [if_pos hname, if_pos hnode, if_pos hrest, if_pos ⟨hname, hnode, hrest⟩]
          rfl
        · rw [if_pos hname, if_pos hnode, if_neg hrest, if_neg (c := _ ∧ _) fun h => hrest h.2.2]
          rfl
      · rw [if_pos hname, if_neg hnode, if_neg (c := _ ∧ _) fun h => hnode h.2.1]
        rfl
    · rw [if_neg hname, if_neg (c := _ ∧ _) fun h => hname h.1]

theorem listNode_eq (p : Bytes) : ∀ node : Node, listNode p node =
    if ∀ q ∈ node.paths p, q.length < PATH_MAX then .ok (node.keysFrom p) else .error .undefined
  | .file _ _ => by simp [listNode, Node.paths, Node.keysFrom]
  | .link _ _ => by simp [listNode, Node.paths, Node.keysFrom]
  | .dir _ entries => by rw [listNode, listDir_eq p entries, Node.paths, Node.keysFrom]

end

mutual

theorem Entries.keysFrom_eq (pre : Bytes) : ∀ es : Entries, es.keysFrom pre = es.keys.map (pre ++ ·)
  | .nil => rfl
  | .cons name node rest => by
    rw [Entries.keys, Entries.keysFrom, Entries.keysFrom, List.map_append, Entries.keysFrom_eq pre rest,
      Node.keysFrom_eq pre name node, Entries.keysFrom_eq [] rest, List.nil_append]
    simp

theorem Node.keysFrom_eq (pre p : Bytes) : ∀ node : Node,
    node.keysFrom (pre ++ p) = (node.keysFrom p).map (pre ++ ·)
  | .file _ _ => rfl
  | .link _ _ => rfl
  | .dir _ entries => by
    rw [Node.keysFrom, Node.keysFrom, Entries.keysFrom_eq (pre ++ p ++ [47]) entries,
      Entries.keysFrom_eq (p ++ [47]) entries, List.map_map]
    simp

end

/-- The path of a blob is `blob_dir/key`. -/
theorem mem_keysFrom {d key : Bytes} {es : Entries} : join d key ∈ es.keysFrom (d ++ [47]) ↔ key ∈ es.keys := by
  rw [Entries.keysFrom_eq, join_eq, List.mem_map]
  constructor
  · rintro ⟨k, hk, heq⟩
    rwa [List.append_cancel_left heq] at hk
  · exact fun h => ⟨key, h, rfl⟩

end Dedupe
end Miui
