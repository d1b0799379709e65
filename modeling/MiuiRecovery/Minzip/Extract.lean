import MiuiRecovery.Minzip.Parse
import MiuiRecovery.Lib.Prog
import Mathlib.Data.Vector.Basic

/-!
# Extraction

The second half of `minzip/Zip.c` and `dirCreateHierarchy` (`minzip/DirUtil.c`) as programs over the calls
that can fail, and what these calls do. The content of the archive is the map: both are the same file.

* `mzProcessZipEntryContents`: the data of an entry goes to a callback, piece by piece.
* `mzExtractZipEntryToBuffer`, `mzExtractZipEntryToFile`, `mzReadZipEntry`: the three callbacks.
* `mzExtractRecursive`: the loop over the entries below a directory.
* `zipSem`: the answers of the calls.
-/

namespace Miui.Zip

open Prog (Sem call)

/-! ## The calls -/

/-- The deflate format: what the first bytes of a stream decode to, and whether they are all of it. -/
structure Deflate where
  output : Bytes → Bytes
  ended : Bytes → Bool

/-- No stream ends. -/
def Deflate.none : Deflate := ⟨fun _ => [], fun _ => false⟩

/-- A `z_stream`: the bytes that it has taken and given. -/
structure ZStream where
  taken : Bytes
  given : Bytes

inductive ZErr
  | ok
  | streamEnd
  | failed
  deriving DecidableEq

/-- The result of `inflate`: how many bytes of the input it took, and what it gave. -/
structure Inflated where
  zerr : ZErr
  consumed : Nat
  out : Bytes

def ZStream.after (z : ZStream) (next_in : Bytes) (r : Inflated) : ZStream :=
  ⟨z.taken ++ next_in.take r.consumed, z.given ++ r.out⟩

inductive DirStatus
  | missing
  | dir
  | illegal
  deriving DecidableEq

/-- The calls of an extraction. -/
inductive ZipOp : Type → Type
  | malloc (size : Nat) : ZipOp Bool
  /-- `read` at an offset of the archive: `none` when it does not return as many bytes -/
  | read (pos count : Nat) : ZipOp (Option Bytes)
  | inflateInit2 : ZipOp Bool
  | inflate (z : ZStream) (next_in : Bytes) (avail_out : Nat) : ZipOp Inflated
  /-- what stands in memory that nothing was written to -/
  | stale : ZipOp Bytes
  /-- `memmove` into the buffer of the caller -/
  | memmove (off : Nat) (data : Bytes) : ZipOp Unit
  | getPathDirStatus (path : Bytes) : ZipOp DirStatus
  | mkdir (path : Bytes) : ZipOp Bool
  | utime (path : Bytes) : ZipOp Bool
  | symlink (linkTarget targetFile : Bytes) : ZipOp Bool
  | creat (targetFile : Bytes) : ZipOp Bool
  /-- `write` to the file that is open: its result, and whether `errno` is `EINTR` -/
  | write (data : Bytes) : ZipOp (Int × Bool)
  | close : ZipOp Unit
  | callback (targetFile : Bytes) : ZipOp Unit
  /-- a loop that is not left -/
  | endless : ZipOp Empty

/-- What a call has done. -/
inductive Effect
  | dir (path : Bytes)
  | link (path linkTarget : Bytes)
  | file (path content : Bytes)
  | touched (path : Bytes)
  | called (path : Bytes)
  deriving DecidableEq

/-- `file` is the file that was created last, with what was written to it. -/
structure World where
  stores : List (Nat × Nat)
  isOpen : Bool
  file : Bytes × Bytes
  effects : List Effect

/-- Nothing has been done. -/
def World.fresh : World := ⟨[], false, ([], []), []⟩

/-- A path without the slashes at its end. -/
def trimSlashes (path : Bytes) : Bytes := (path.reverse.dropWhile (· == 47)).reverse

def World.did (w : World) (e : Effect) : World := { w with effects := w.effects ++ [e] }

/-- The bytes of the archive from an offset. -/
def piece (archive : Bytes) (offset n : Nat) : Bytes := (archive.drop offset).take n

/-- The answers of the calls. `inflate` gives what the bytes that it took decode to. -/
def zipSem (archive : Bytes) (Z : Deflate) : Sem ZipOp World
  | _, .malloc _, w, _, w' => w' = w
  | _, .read pos count, w, r, w' =>
    w' = w ∧ ∀ data, r = some data → (count = 0 ∨ pos + count ≤ archive.length) ∧ data = piece archive pos count
  | _, .inflateInit2, w, _, w' => w' = w
  | _, .inflate z next_in avail_out, w, r, w' =>
    w' = w ∧ r.consumed ≤ next_in.length ∧ r.out.length ≤ avail_out ∧
      (r.zerr ≠ .failed → (z.after next_in r).given <+: Z.output (z.after next_in r).taken) ∧
      (r.zerr = .streamEnd → Z.ended (z.after next_in r).taken = true ∧
        (z.after next_in r).given = Z.output (z.after next_in r).taken)
  | _, .stale, w, _, w' => w' = w
  | _, .memmove off data, w, _, w' => w' = { w with stores := w.stores ++ [(off, data.length)] }
  | _, .getPathDirStatus path, w, r, w' => w' = if r = .dir then w.did (.dir (trimSlashes path)) else w
  | _, .mkdir path, w, r, w' => w' = if r then w.did (.dir (trimSlashes path)) else w
  | _, .utime path, w, r, w' => w' = if r then w.did (.touched path) else w
  | _, .symlink linkTarget targetFile, w, r, w' => w' = if r then w.did (.link targetFile linkTarget) else w
  | _, .creat targetFile, w, r, w' => w' = if r then { w with isOpen := true, file := (targetFile, []) } else w
  | _, .write data, w, r, w' => w' = { w with file := (w.file.1, w.file.2 ++ data.take r.1.toNat) }
  | _, .close, w, _, w' => w' = { w.did (.file w.file.1 w.file.2) with isOpen := false }
  | _, .callback targetFile, w, _, w' => w' = w.did (.called targetFile)
  | _, .endless, _, _, _ => False

/-! ## The data of an entry -/

section Process

variable {σ : Type} (processFunction : Bytes → σ → Prog ZipOp (Bool × σ))

/-- The size of the buffers. -/
def bufSize : Nat := 32 * 1024

/-- The loop of `processStoredEntry`, with fuel for as many rounds as there are bytes. -/
def storedLoop : Nat → Nat → Nat → σ → Prog ZipOp (Bool × σ)
  | 0, _, _, cookie => pure (true, cookie)
  | fuel + 1, pos, bytesLeft, cookie =>
    if bytesLeft > 0 then do
      let count := min bytesLeft bufSize
      match ← call (.read pos count) with
      | none => pure (false, cookie)
      | some buf => do
        let (ret, cookie) ← processFunction buf cookie
        if ret then storedLoop fuel (pos + count) (bytesLeft - count) cookie else pure (false, cookie)
    else pure (true, cookie)

/-- A `long` as a `size_t`. -/
def asSize (n : Int) : Nat := (n % 2 ^ 32).toNat

/-- A seek to a negative offset fails, which the code does not see, and leaves the file at its start. -/
def processStoredEntry (pEntry : ZipEntry) (cookie : σ) : Prog ZipOp (Bool × σ) :=
  storedLoop processFunction (asSize pEntry.compLen) pEntry.offset.toNat (asSize pEntry.compLen) cookie

/-- The variables of the loop of `processDeflatedEntry`; `procBuf` is what stands in the buffer so far. -/
structure Inflating where
  pos : Nat
  compRemaining : Int
  next_in : Bytes
  procBuf : Bytes
  zstream : ZStream

/-- The read at the start of a round, `none` where it fails. A read of a negative size returns -1, which is the
size asked for when that is -1 as well. -/
def refill (s : Inflating) : Prog ZipOp (Option Inflating) :=
  if s.next_in ≠ [] then pure (some s)
  else
    let getSize := min s.compRemaining bufSize
    if getSize < 0 then
      if getSize = -1 then do
        let readBuf ← call .stale
        pure (some { s with compRemaining := s.compRemaining - getSize, next_in := readBuf })
      else pure none
    else do
      match ← call (.read s.pos getSize.toNat) with
      | none => pure none
      | some readBuf => pure (some { s with
          pos := s.pos + getSize.toNat, compRemaining := s.compRemaining - getSize, next_in := readBuf })

/-- A round of the loop of `processDeflatedEntry` behind the read; `again` is the loop. The result is `total_out` as a
`long`, or -1. -/
def inflateRound (again : Inflating → σ → Prog ZipOp (Int × σ)) (s : Inflating) (cookie : σ) :
    Prog ZipOp (Int × σ) := do
  let r ← call (.inflate s.zstream s.next_in (bufSize - s.procBuf.length))
  if r.zerr = .failed then pure (-1, cookie)
  else
    let procBuf := s.procBuf ++ r.out
    let s := { s with
      next_in := s.next_in.drop r.consumed, procBuf, zstream := s.zstream.after s.next_in r }
    if procBuf.length = bufSize ∨ r.zerr = .streamEnd ∧ procBuf ≠ [] then do
      let (ret, cookie) ← processFunction procBuf cookie
      if ret then
        if r.zerr = .ok then again { s with procBuf := [] } cookie
        else pure (asInt s.zstream.given.length, cookie)
      else pure (-1, cookie)
    else if r.zerr = .ok then again s cookie
    else pure (asInt s.zstream.given.length, cookie)

def deflatedLoop : Nat → Inflating → σ → Prog ZipOp (Int × σ)
  | 0, _, _ => .op .endless fun e => nomatch e
  | fuel + 1, s, cookie => do
    match ← refill s with
    | none => pure (-1, cookie)
    | some s => inflateRound processFunction (deflatedLoop fuel) s cookie

def processDeflatedEntry (fuel : Nat) (pEntry : ZipEntry) (cookie : σ) : Prog ZipOp (Bool × σ) := do
  let (result, cookie) ←
    if ← call .inflateInit2 then
      deflatedLoop processFunction fuel ⟨pEntry.offset.toNat, pEntry.compLen, [], [], ⟨[], []⟩⟩ cookie
    else pure (-1, cookie)
  pure (result == pEntry.uncompLen, cookie)

def mzProcessZipEntryContents (fuel : Nat) (pEntry : ZipEntry) (cookie : σ) : Prog ZipOp (Bool × σ) :=
  if pEntry.compression = STORED then processStoredEntry processFunction pEntry cookie
  else if pEntry.compression = DEFLATED then processDeflatedEntry processFunction fuel pEntry cookie
  else pure (false, cookie)

end Process

/-! ## The callbacks -/

/-- The place in the buffer, and what is left of it. -/
structure BufferExtractCookie where
  buffer : Nat
  len : Int

/-- `bec->len` is a `long`. -/
def bufferProcessFunction (data : Bytes) (bec : BufferExtractCookie) : Prog ZipOp (Bool × BufferExtractCookie) := do
  call (.memmove bec.buffer data)
  pure (true, ⟨bec.buffer + data.length, asInt (asSize (bec.len - data.length))⟩)

def mzExtractZipEntryToBuffer (fuel : Nat) (pEntry : ZipEntry) : Prog ZipOp Bool := do
  let (ret, bec) ← mzProcessZipEntryContents bufferProcessFunction fuel pEntry ⟨0, pEntry.uncompLen⟩
  pure (ret && bec.len == 0)

/-- The text in `args->buf` so far; `args->bufLen` is what is left. -/
def copyProcessFunction (data : Bytes) (args : Bytes × Int) : Prog ZipOp (Bool × Bytes × Int) :=
  if data.length ≤ args.2 then pure (true, args.1 ++ data, args.2 - data.length) else pure (false, args)

/-- `mzReadZipEntry`, with the bytes that it has copied. -/
def mzReadZipEntry (fuel : Nat) (pEntry : ZipEntry) (bufLen : Int) : Prog ZipOp (Bool × Bytes) := do
  let (ret, args) ← mzProcessZipEntryContents copyProcessFunction fuel pEntry ([], bufLen)
  pure (ret, args.1)

def writeProcessFunction : Nat → Bytes → Unit → Prog ZipOp (Bool × Unit)
  | 0, _, _ => .op .endless fun e => nomatch e
  | fuel + 1, data, _ => do
    let (n, eintr) ← call (.write data)
    if n ≤ 0 then
      if eintr then writeProcessFunction fuel data () else pure (false, ())
    else if n = data.length then pure (true, ())
    else if n > data.length then pure (false, ())
    else writeProcessFunction fuel (data.drop n.toNat) ()

def mzExtractZipEntryToFile (fuel : Nat) (pEntry : ZipEntry) : Prog ZipOp Bool := do
  let (ret, _) ← mzProcessZipEntryContents (writeProcessFunction fuel) fuel pEntry ()
  pure ret

/-! ## Directories -/

/-- The walk down the path from the root: `done` has been made, `rest` follows. Fuel for each byte. -/
def makeLevels (timestamp : Bool) : Nat → Bytes → Bytes → Prog ZipOp Bool
  | 0, _, _ => pure true
  | fuel + 1, done, rest =>
    let start := rest.dropWhile (· == 47)
    if start = [] then pure true
    else do
      let level := done ++ rest.takeWhile (· == 47) ++ start.takeWhile (· != 47)
      let rest := start.dropWhile (· != 47)
      match ← call (.getPathDirStatus level) with
      | .illegal => pure false
      | .dir => makeLevels timestamp fuel level rest
      | .missing =>
        if ← call (.mkdir level) then
          if timestamp then
            if ← call (.utime level) then makeLevels timestamp fuel level rest else pure false
          else makeLevels timestamp fuel level rest
        else pure false

/-- Everything up to the last slash, `none` where there is none behind the first byte. -/
def stripFile (path : Bytes) : Option Bytes :=
  let dir := (path.reverse.dropWhile (· != 47)).reverse
  if dir.length ≤ 1 then none else some dir

/-- Whether the result is 0. -/
def dirCreateHierarchy (path : Bytes) (timestamp stripFileName : Bool) : Prog ZipOp Bool :=
  if path = [] then pure false
  else do
    if ← call (.malloc (path.length + 2)) then
      match if stripFileName then stripFile path else some (path ++ [47]) with
      | none => pure false
      | some cpath => do
        match ← call (.getPathDirStatus cpath) with
        | .dir => pure true
        | .illegal => pure false
        | .missing => makeLevels timestamp cpath.length [] cpath
    else pure false

/-! ## The path of the target -/

/-- A block of `n` bytes that `realloc` returns, before the old contents are in it; `zpath` is the block of
`malloc` for the path in the archive. -/
structure PathMemory where
  zpath : Bool
  realloc : ∀ n : Nat, Option (List.Vector UInt8 n)

structure MzPathHelper where
  targetDirLen : Nat
  buf : Option Bytes
  bufLen : Int

/-- `memcpy(buf + off, data, data.length)`, `none` where it writes outside the buffer. -/
def memcpy (buf : Bytes) (off : Nat) (data : Bytes) : Option Bytes :=
  if off + data.length ≤ buf.length then some (buf.take off ++ data ++ buf.drop (off + data.length)) else none

inductive PathResult
  | null
  | outOfBounds
  | path (targetFile : Bytes) (helper : MzPathHelper)

/-- The buffer, enlarged if need be. -/
def growPath (mem : PathMemory) (helper : MzPathHelper) (needLen : Int) : Option MzPathHelper :=
  if needLen > helper.bufLen then
    match mem.realloc (asSize (needLen * 2)) with
    | none => none
    | some newBuf =>
      some { helper with
        buf := some ((helper.buf.getD []).take newBuf.toList.length ++ newBuf.toList.drop (helper.buf.getD []).length)
        bufLen := asInt (asSize (needLen * 2)) }
  else some helper

/-- The directory and a slash at the start of a fresh buffer. -/
def startPath (targetDir : Bytes) (buf : Bytes) : Option (Bytes × Nat) := do
  let buf ← memcpy buf 0 targetDir
  if targetDir = [] ∨ targetDir.getLast? ≠ some 47 then
    let buf ← memcpy buf targetDir.length [47]
    pure (buf, targetDir.length + 1)
  else pure (buf, targetDir.length)

def targetEntryPath (m : MemMapping) (mem : PathMemory) (targetDir zpath : Bytes) (helper : MzPathHelper)
    (pEntry : ZipEntry) : PathResult :=
  let firstTime := helper.buf.isNone
  let needLen := asInt (helper.targetDirLen + 1 + (pEntry.fileNameLen - zpath.length) + 1)
  match growPath mem helper needLen with
  | none => .null
  | some helper =>
    match helper.buf with
    | none => .outOfBounds
    | some buf =>
      match if firstTime then startPath targetDir buf else some (buf, helper.targetDirLen) with
      | none => .outOfBounds
      | some (buf, targetDirLen) =>
        match memcpy buf targetDirLen ((pEntry.name m).drop zpath.length ++ [0]) with
        | none => .outOfBounds
        | some buf => .path (CString.cstr buf) { helper with targetDirLen, buf := some buf }

/-! ## The loop over the entries -/

def MZ_EXTRACT_FILES_ONLY : UInt32 := 1
def MZ_EXTRACT_DRY_RUN : UInt32 := 2
def S_IFMT : Nat := 0o170000
def S_IFLNK : Nat := 0o120000

/-- `S_ISLNK(externalFileAttributes >> 16)` -/
def mzIsZipEntrySymlink (pEntry : ZipEntry) : Bool :=
  pEntry.versionMadeBy &&& 0xff00 = CENVEM_UNIX ∧
    (asSize (pEntry.externalFileAttributes / 2 ^ 16)) &&& S_IFMT = S_IFLNK

/-- How the loop goes on behind an entry: with the next one, or out with the value of `ok`. -/
inductive Next
  | next
  | leave (ok : Bool)

structure ExtractArgs where
  flags : UInt32
  timestamp : Bool
  callback : Bool

variable (m : MemMapping) (args : ExtractArgs) (fuel : Nat)

def ExtractArgs.filesOnly : Bool := args.flags &&& MZ_EXTRACT_FILES_ONLY ≠ 0

def ExtractArgs.dryRun : Bool := args.flags &&& MZ_EXTRACT_DRY_RUN ≠ 0

/-- The call of the callback, and on with the loop. -/
def finishEntry (targetFile : Bytes) : Prog ZipOp Next :=
  if args.callback then do
    call (.callback targetFile)
    pure .next
  else pure .next

/-- The symlink branch. -/
def extractLink (pEntry : ZipEntry) (targetFile : Bytes) : Prog ZipOp Next :=
  if pEntry.uncompLen = 0 then pure (.leave false)
  else do
    if ← call (.malloc (asSize (pEntry.uncompLen + 1))) then
      let (ok, copied) ← mzReadZipEntry fuel pEntry pEntry.uncompLen
      if ok then
        let rest ← call .stale
        let linkTarget := if pEntry.uncompLen < 0 then rest else (copied ++ rest).take pEntry.uncompLen.toNat
        if ← call (.symlink (CString.cstr linkTarget) targetFile) then finishEntry args targetFile
        else pure (.leave false)
      else pure (.leave false)
    else pure (.leave false)

/-- The branch of the regular file, where an inner `ok` hides the one of the function. -/
def extractFile (pEntry : ZipEntry) (targetFile : Bytes) : Prog ZipOp Next := do
  if ← call (.creat targetFile) then
    let ok ← mzExtractZipEntryToFile fuel pEntry
    call .close
    if ok then
      if args.timestamp then
        if ← call (.utime targetFile) then finishEntry args targetFile else pure (.leave true)
      else finishEntry args targetFile
    else pure (.leave true)
  else pure (.leave false)

/-- Whether the last byte of the name is a slash. An empty name has the byte in front of it. -/
def isDirectory (pEntry : ZipEntry) : Bool := (m.text 1 (pEntry.fileName + pEntry.fileNameLen - 1)).headD 0 == 47

/-- The body of the loop behind `targetEntryPath`. -/
def extractEntry (pEntry : ZipEntry) (targetFile : Bytes) : Prog ZipOp Next :=
  if args.dryRun then finishEntry args targetFile
  else if isDirectory m pEntry then
    if args.filesOnly then finishEntry args targetFile
    else do
      if ← dirCreateHierarchy targetFile args.timestamp false then finishEntry args targetFile
      else pure (.leave false)
  else do
    if ← dirCreateHierarchy targetFile args.timestamp true then
      if ¬ args.filesOnly ∧ mzIsZipEntrySymlink pEntry then extractLink args fuel pEntry targetFile
      else extractFile args fuel pEntry targetFile
    else pure (.leave false)

/-- The loop over the entries. -/
def extractLoop (mem : PathMemory) (targetDir zpath : Bytes) (body : ZipEntry → Bytes → Prog ZipOp Next) :
    List ZipEntry → Bool → MzPathHelper → Prog ZipOp Bool
  | [], _, _ => pure true
  | pEntry :: rest, seenMatch, helper =>
    if pEntry.fileNameLen < zpath.length then
      if seenMatch then pure true else extractLoop mem targetDir zpath body rest seenMatch helper
    else if memcmp ((pEntry.name m).take zpath.length) zpath ≠ 0 then
      if seenMatch then pure true else extractLoop mem targetDir zpath body rest seenMatch helper
    else
      match targetEntryPath m mem targetDir zpath helper pEntry with
      | .null => pure false
      | .outOfBounds => .op .endless fun e => nomatch e
      | .path targetFile helper => do
        match ← body pEntry targetFile with
        | .leave ok => pure ok
        | .next => extractLoop mem targetDir zpath body rest true helper

/-- The path in the archive with a slash at its end. -/
def canonicalize (zipDir : Bytes) : Bytes :=
  if zipDir = [] then [] else if zipDir.getLast? ≠ some 47 then zipDir ++ [47] else zipDir

/-- `mzExtractRecursive` with any body of its loop. -/
def extractWith (mem : PathMemory) (pArchive : ZipArchive) (zipDir targetDir : Bytes)
    (body : ZipEntry → Bytes → Prog ZipOp Next) : Prog ZipOp Bool :=
  let zipDir := CString.cstr zipDir
  let targetDir := CString.cstr targetDir
  if zipDir.head? = some 47 then pure false
  else if targetDir.head? ≠ some 47 then pure false
  else if mem.zpath then
    extractLoop m mem targetDir (canonicalize zipDir) body pArchive.pEntries false ⟨targetDir.length, none, 0⟩
  else pure false

def mzExtractRecursive (mem : PathMemory) (pArchive : ZipArchive) (zipDir targetDir : Bytes) : Prog ZipOp Bool :=
  extractWith m mem pArchive zipDir targetDir (extractEntry m args fuel)

end Miui.Zip
