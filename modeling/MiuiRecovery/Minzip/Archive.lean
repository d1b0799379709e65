import MiuiRecovery.Minzip.Eocd
import MiuiRecovery.Minzip.ItemMap
import MiuiRecovery.Lib.Insertion
import MiuiRecovery.Lib.CString
import MiuiRecovery.Lib.Loop

/-!
# The zip archive and its entries

`parseZipArchive` and `mzFindZipEntry` of `minzip/Zip.c` on a 32-bit target. The archive is mapped at `addr`.
A pointer is its address; a sum of pointers does not wrap, a sum of the type `uintptr_t` or `size_t` is taken
modulo 2^32. A read of a byte that is not in the map stops the program (`Stop.outside`).

* `parseEntry`: one round of the loop over the central directory.
* `addEntries`: the entries go to the hash table.
* `mzFindZipEntry`: the search by name.
-/

namespace Miui.Zip

/-- How `parseZipArchive` ends without an archive: `bail` is its result `false`. -/
inductive Stop
  | bail
  | outside
  | assertion
  | endless
  | hash (fault : HashFault)
  deriving DecidableEq

/-- `if (c) goto bail;` -/
def bailIf (c : Prop) [Decidable c] : Except Stop Unit := if c then .error .bail else .ok ()

def CENSIG : Nat := 0x02014b50
def CENHDR : Nat := 46
def CENVEM : Nat := 4
def CENHOW : Nat := 10
def CENTIM : Nat := 12
def CENCRC : Nat := 16
def CENSIZ : Nat := 20
def CENLEN : Nat := 24
def CENNAM : Nat := 28
def CENEXT : Nat := 30
def CENCOM : Nat := 32
def CENATX : Nat := 38
def CENOFF : Nat := 42
def ENDSUB : Nat := 8
def ENDOFF : Nat := 16
def LOCHDR : Nat := 30
def LOCNAM : Nat := 26
def LOCEXT : Nat := 28
def STORED : Nat := 0
def DEFLATED : Nat := 8
def CENVEM_UNIX : Nat := 3 <<< 8
def PATH_MAX : Nat := 4096

/-- A file mapped by `sysMapFileInShmem`. `mmap` takes neither the first page nor the last, whose addresses are
its error codes. `mzOpenZipArchive` has turned a shorter map away. -/
structure MemMapping where
  addr : Nat
  bytes : Bytes
  addr_low : 4096 ≤ addr
  addr_high : addr + bytes.length + 4096 ≤ 2 ^ 32
  long_enough : ENDHDR ≤ bytes.length

namespace MemMapping

def length (m : MemMapping) : Nat := m.bytes.length

/-- The address behind the last byte. -/
def limit (m : MemMapping) : Nat := m.addr + m.length

/-- The `n` bytes at `p`, if they are in the map. -/
def load (m : MemMapping) (n p : Nat) : Except Stop Bytes :=
  if m.addr ≤ p ∧ p + n ≤ m.limit then .ok ((m.bytes.drop (p - m.addr)).take n) else .error .outside

def get2LE (m : MemMapping) (p : Nat) : Except Stop Nat := Bytes.ofLE <$> m.load 2 p

def get4LE (m : MemMapping) (p : Nat) : Except Stop Nat := Bytes.ofLE <$> m.load 4 p

/-- `*p` -/
def get (m : MemMapping) (p : Nat) : Except Stop UInt8 := (·.headD 0) <$> m.load 1 p

end MemMapping

structure ZipEntry where
  fileNameLen : Nat
  fileName : Nat
  offset : Int
  compLen : Int
  uncompLen : Int
  compression : Nat
  modTime : Int
  crc32 : Int
  versionMadeBy : Nat
  externalFileAttributes : Int
  deriving DecidableEq

/-- What a `void *` of the hash table or of a lookup points to: the entry at an index of `pEntries`, or a name. -/
inductive ZipItem
  | entry (i : Nat)
  | text (s : Bytes)
  deriving DecidableEq

structure ZipArchive where
  numEntries : Nat
  pEntries : List ZipEntry
  pHash : HashTable ZipItem

/-- `memcmp` of two byte strings of one length. -/
def memcmp : Bytes → Bytes → Int
  | x :: xs, y :: ys => if x ≠ y then (x.toNat : Int) - y.toNat else memcmp xs ys
  | _, _ => 0

variable (m : MemMapping)

/-- `strncmp` of two strings in the map. -/
def strncmp : Nat → Nat → Nat → Except Stop Int
  | 0, _, _ => .ok 0
  | n + 1, p, q => do
    let x ← m.get p
    let y ← m.get q
    if x ≠ y then .ok ((x.toNat : Int) - y.toNat)
    else if x = 0 then .ok 0
    else strncmp n (p + 1) (q + 1)

/-- The loop of `validFilename`. -/
def validChars : Nat → Nat → Except Stop Bool
  | 0, _ => .ok true
  | n + 1, p => do
    let c ← m.get p
    if c < 32 ∨ c ≥ 127 then .ok false else validChars n (p + 1)

def validFilename (fileName fileNameLen : Nat) : Except Stop Bool :=
  if fileNameLen ≥ PATH_MAX then .ok false else validChars m fileNameLen fileName

/-! ## The end of the central directory -/

/-- The backward scan, `ptr` as an offset. -/
def scanEocd : Nat → Except Stop Nat
  | 0 => do
    let val ← m.get4LE m.addr
    if val = ENDSIG then .ok m.addr else .error .bail
  | off + 1 => do
    let c ← m.get (m.addr + (off + 1))
    if c = 0x50 then
      let val ← m.get4LE (m.addr + (off + 1))
      if val = ENDSIG then .ok (m.addr + (off + 1)) else scanEocd off
    else scanEocd off

/-! ## One entry of the central directory -/

/-- Whether an entry of the array comes before (a negative result) or behind the name at `fileName`. -/
def nameDiff (pEntry : ZipEntry) (fileName fileNameLen : Nat) : Except Stop Int := do
  let diff ← strncmp m (min pEntry.fileNameLen fileNameLen) pEntry.fileName fileName
  if diff = 0 then .ok ((pEntry.fileNameLen : Int) - fileNameLen) else .ok diff

/-- The loop `while (low <= high)`; the result is `high` behind it. -/
def locate (pEntries : List ZipEntry) (fileName fileNameLen : Nat) : Nat → Int → Int → Except Stop Int
  | 0, low, high => if low ≤ high then .error .endless else .ok high
  | fuel + 1, low, high =>
    if low ≤ high then
      let mid := low + (high - low) / 2
      match pEntries[mid.toNat]? with
      | none => .error .outside
      | some pEntry => do
        let diff ← nameDiff m pEntry fileName fileNameLen
        if diff < 0 then locate pEntries fileName fileNameLen fuel (mid + 1) high
        else if diff > 0 then locate pEntries fileName fileNameLen fuel low (mid - 1)
        else .ok mid
    else .ok high

/-- The index at which the entry number `pEntries.length` goes into the array. -/
def findTarget (pEntries : List ZipEntry) (fileName fileNameLen : Nat) : Except Stop Nat :=
  if pEntries.length > 0 then do
    let high ← locate m pEntries fileName fileNameLen pEntries.length 0 (pEntries.length - 1)
    let target := (high + 1).toNat
    if target ≤ pEntries.length then .ok target else .error .assertion
  else .ok 0

/-- The checks on a record up to `validFilename`; the result is the length of the name. -/
def checkName (ptr : Nat) : Except Stop Nat := do
  bailIf (ptr + CENHDR > m.limit)
  let sig ← m.get4LE ptr
  bailIf (sig ≠ CENSIG)
  let fileNameLen ← m.get2LE (ptr + CENNAM)
  let fileName := ptr + CENHDR
  bailIf (fileName + fileNameLen > m.limit)
  let valid ← validFilename m fileName fileNameLen
  bailIf (¬ valid)
  .ok fileNameLen

/-- `safe_add(NULL, a, b)` for two values of the type `long`. -/
def safe_add (a b : Int) : Bool := -2 ^ 31 ≤ a + b ∧ a + b < 2 ^ 31

/-- The fields of the entry and the checks behind the binary search. -/
def fillEntry (ptr fileNameLen : Nat) : Except Stop ZipEntry := do
  let compLen ← asInt <$> m.get4LE (ptr + CENSIZ)
  let uncompLen ← asInt <$> m.get4LE (ptr + CENLEN)
  let compression ← m.get2LE (ptr + CENHOW)
  let modTime ← asInt <$> m.get4LE (ptr + CENTIM)
  let crc32 ← asInt <$> m.get4LE (ptr + CENCRC)
  let versionMadeBy ← m.get2LE (ptr + CENVEM)
  bailIf (versionMadeBy &&& 0xff00 ≠ 0 ∧ versionMadeBy &&& 0xff00 ≠ CENVEM_UNIX)
  let externalFileAttributes ← asInt <$> m.get4LE (ptr + CENATX)
  let localHdrOffset ← m.get4LE (ptr + CENOFF)
  let localHdr := m.addr + localHdrOffset
  bailIf (localHdr ≥ 2 ^ 32)
  bailIf ((localHdr + LOCHDR) % 2 ^ 32 > m.limit)
  let sig ← m.get4LE localHdr
  bailIf (sig ≠ LOCSIG)
  let nam ← m.get2LE (localHdr + LOCNAM)
  let ext ← m.get2LE (localHdr + LOCEXT)
  let offset := asInt (localHdrOffset + LOCHDR + nam + ext)
  bailIf (¬ safe_add offset compLen)
  bailIf ((offset + compLen) % 2 ^ 32 > m.length)
  .ok { fileNameLen, fileName := ptr + CENHDR, offset, compLen, uncompLen, compression, modTime, crc32,
        versionMadeBy, externalFileAttributes }

/-- One round of the loop: the array with one more entry, and the next record. -/
def parseEntry (pEntries : List ZipEntry) (ptr : Nat) : Except Stop (List ZipEntry × Nat) := do
  let fileNameLen ← checkName m ptr
  let extraLen ← m.get2LE (ptr + CENEXT)
  let commentLen ← m.get2LE (ptr + CENCOM)
  let target ← findTarget m pEntries (ptr + CENHDR) fileNameLen
  let pEntry ← fillEntry m ptr fileNameLen
  .ok (Insertion.insertAt pEntries target pEntry, ptr + CENHDR + fileNameLen + extraLen + commentLen)

def parseEntries : Nat → List ZipEntry → Nat → Except Stop (List ZipEntry)
  | 0, pEntries, _ => .ok pEntries
  | n + 1, pEntries, ptr => do
    let (pEntries, ptr) ← parseEntry m pEntries ptr
    parseEntries n pEntries ptr

/-! ## The hash table -/

/-- The name of an entry. -/
def ZipEntry.name (pEntry : ZipEntry) : Bytes := (m.bytes.drop (pEntry.fileName - m.addr)).take pEntry.fileNameLen

def ZipItem.name (pEntries : List ZipEntry) : ZipItem → Bytes
  | .entry i => (pEntries[i]?.map (·.name m)).getD []
  | .text s => s

/-- `char` is unsigned on the target. -/
def computeHash (name : Bytes) : UInt32 := name.foldl (fun hash c => hash * 31 + c.toUInt32) 2

/-- `hashcmpZipEntry` compares two entries, `hashcmpZipName` an entry and a name. -/
def hashcmpZip (pEntries : List ZipEntry) (item1 item2 : ZipItem) : Int :=
  if (item1.name m pEntries).length ≠ (item2.name m pEntries).length then
    ((item1.name m pEntries).length : Int) - (item2.name m pEntries).length
  else memcmp (item1.name m pEntries) (item2.name m pEntries)

/-- For which sizes there is memory. -/
structure Memory where
  entries : Nat → Bool
  slots : Nat → Bool

def ofHash {α : Type} : Except HashFault α → Except Stop α
  | .ok a => .ok a
  | .error fault => .error (.hash fault)

def addEntryToHashTable (mem : Memory) (pEntries : List ZipEntry) (pHash : HashTable ZipItem) (i : Nat)
    (pEntry : ZipEntry) : Except Stop (HashTable ZipItem) := do
  let name ← m.load pEntry.fileNameLen pEntry.fileName
  let (_, pHash) ← ofHash (mzHashTableLookup mem.slots pHash (computeHash name) (.entry i)
    (hashcmpZip m pEntries) true)
  .ok pHash

/-- The second loop: the entries of `rest`, the first of which is the one at index `i`. -/
def addEntries (mem : Memory) (pEntries : List ZipEntry) :
    List ZipEntry → Nat → HashTable ZipItem → Except Stop (HashTable ZipItem)
  | [], _, pHash => .ok pHash
  | pEntry :: rest, i, pHash => do
    let pHash ← addEntryToHashTable m mem pEntries pHash i pEntry
    addEntries mem pEntries rest (i + 1) pHash

/-! ## The archive -/

def mzHashSize (size : Nat) : Nat := size * LOAD_DENOM / LOAD_NUMER + 1

def parseZipArchive (mem : Memory) : Except Stop ZipArchive := do
  let val ← m.get4LE m.addr
  bailIf (val = ENDSIG)
  bailIf (val ≠ LOCSIG)
  let ptr ← scanEocd m (m.length - ENDHDR)
  let numEntries ← m.get2LE (ptr + ENDSUB)
  let cdOffset ← m.get4LE (ptr + ENDOFF)
  bailIf (numEntries = 0 ∨ cdOffset ≥ m.length)
  let pHash ← ofHash (mzHashTableCreate mem.slots (mzHashSize numEntries) false)
  match pHash with
  | none => .error .bail
  | some pHash => do
    bailIf (¬ mem.entries numEntries)
    let pEntries ← parseEntries m numEntries [] (m.addr + cdOffset)
    let pHash ← addEntries m mem pEntries pEntries 0 pHash
    .ok { numEntries, pEntries, pHash }

/-- The entry that `mzFindZipEntry` returns, `none` for `NULL`. -/
def mzFindZipEntry (mem : Memory) (pArchive : ZipArchive) (entryName : Bytes) : Except Stop (Option ZipEntry) := do
  let name := CString.cstr entryName
  let (found, _) ← ofHash (mzHashTableLookup mem.slots pArchive.pHash (computeHash name) (.text name)
    (hashcmpZip m pArchive.pEntries) false)
  match found with
  | .item (.entry i) => .ok pArchive.pEntries[i]?
  | _ => .ok none

end Miui.Zip
