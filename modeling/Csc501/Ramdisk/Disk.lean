/-
# The RAM disk

`hw4/ramdisk.c` and `ramdisk.h`: a tree of `rd_file` records in the heap, each
with its parent and, for a directory, the list of its files, and the counter
`current_bytes`. The operations are the callbacks the kernel calls.

A result `none` is undefined behaviour: a pointer that is `NULL`, freed or never
set is followed, memory outside a buffer is touched, or what is passed to `free`
is neither a buffer nor `NULL`. `create_rd_file` leaves the field `data` unset,
here `none`; the pointer is then what `malloc` has left there, and the state says
for every file whether that was `NULL` (`stale`). `free_file` frees it unseen.
The three times, the device and the owner in a `struct stat` are left out, and so
are `rd_access`, `rd_utimens` and `rd_rename`, which do nothing.

Key definitions: `Disk`, `getRdFile`, `freeFile`, `rdWrite`, `rdMkdir`, `rdRmdir`,
`exec`, `Vfs`, `disk`.
-/
import Csc501.Lib.CMem
import Csc501.Lib.Run
import Csc501.Ramdisk.Path

namespace Csc501
namespace Ramdisk

open Lib

def bytesPerBlock : ℕ := 4096
def directoryBytes : ℕ := 4096
def defaultDirectoryPermission : ℕ := 0o666
def defaultFilePermission : ℕ := 0o666

def nameMax : ℕ := 255

def eperm : ℤ := 1
def enoent : ℤ := 2
def eexist : ℤ := 17
def enotdir : ℤ := 20
def eisdir : ℤ := 21
def efbig : ℤ := 27
def enospc : ℤ := 28
def enotempty : ℤ := 39

/-- The flags of `open`. -/
def oRdonly : ℕ := 0
def oRdwr : ℕ := 2
def oAppend : ℕ := 0o2000

/-- `rd_file_type`. -/
inductive FileType
  | regular
  | directory
  deriving DecidableEq

/-- `rd_file`; a pointer is the number of the allocation, and the list of nodes
`files` is the list of their files. -/
structure RdFile where
  type : FileType
  name : Text
  path : Text
  parent : Option ℕ
  size : ℕ
  data : Option (List UInt8)
  opened : Bool
  files : List ℕ

/-- The globals and the heap. What is at or behind `next` was never allocated.
The memory `malloc` returns for the file `p` has something else than `NULL` in
the place of `data` if `stale p`. -/
structure Disk where
  maxBytes : ℤ
  currentBytes : ℤ
  heap : ℕ → Option RdFile
  next : ℕ
  stale : ℕ → Bool

/-- The global `root`, the first file allocated. -/
def root : ℕ := 0

/-- `create_rd_file`. -/
def createRdFile (name path : Text) (type : FileType) : RdFile where
  type := type
  name := name
  path := path
  parent := none
  size := match type with
    | .regular => 0
    | .directory => directoryBytes
  data := none
  opened := false
  files := []

/-- The state `main` starts with, for a capacity it lets pass and what `malloc`
will return. -/
def Disk.start (maxBytes : ℤ) (stale : ℕ → Bool) : Disk where
  maxBytes := maxBytes
  currentBytes := 0
  heap := fun p => if p = root then some (createRdFile rootName [] .directory) else none
  next := 1
  stale := stale

/-- Memory that `malloc` returns zeroed, and memory that was in use before. -/
def zeroed : ℕ → Bool := fun _ => false
def recycled : ℕ → Bool := fun _ => true

/-! ### Looking up -/

/-- `get_file`: the first file of a list with that name. -/
def getFile (d : Disk) (name : Text) : List ℕ → Option (Option ℕ)
  | [] => some none
  | p :: rest => do
    let f ← d.heap p
    if name = f.name then some (some p) else getFile d name rest

/-- The loop of `get_parent_directory`, from the directory `q` on. -/
def descend (d : Disk) (q : ℕ) : List Text → Option (Option ℕ)
  | [] => some (some q)
  | name :: rest => do
    let g ← d.heap q
    match ← getFile d name g.files with
    | none => some none
    | some p => do
      let f ← d.heap p
      if f.type = .regular then some none else descend d p rest

/-- `get_parent_directory`. -/
def getParentDirectory (d : Disk) (fileNames : List Text) (count : ℕ) : Option (Option ℕ) :=
  descend d root (fileNames.take count)

/-- `get_rd_file`: it follows the parent without a look. -/
def getRdFile (d : Disk) (path : Text) : Option (Option ℕ) := do
  let (fileNames, count) ← getDirs path
  let q ← ← getParentDirectory d fileNames count
  let g ← d.heap q
  let name ← fileNames[count]?
  getFile d name g.files

/-! ### Changing the tree -/

/-- A new file at the end of the list of the directory `q`. -/
def addFile (d : Disk) (q : ℕ) (g f : RdFile) : Disk :=
  { d with
    heap := Function.update (Function.update d.heap d.next (some { f with parent := some q })) q
      (some { g with files := g.files ++ [d.next] })
    next := d.next + 1 }

def Disk.setFile (d : Disk) (p : ℕ) (f : RdFile) : Disk := { d with heap := Function.update d.heap p (some f) }

/-- `free_file`: the data are freed first, whether they were set or not. -/
def freeFile (d : Disk) (p : ℕ) : Option Disk := do
  let f ← d.heap p
  if f.data = none ∧ d.stale p then none else some { d with heap := Function.update d.heap p none }

/-- `delete_item` on the list of the directory `q`: the file is taken out and
freed, if it is there. -/
def deleteItem (d : Disk) (q p : ℕ) : Option Disk := do
  let g ← d.heap q
  if p ∈ g.files then freeFile (d.setFile q { g with files := g.files.erase p }) p else some d

/-- `memory_available`. -/
def memoryAvailable (d : Disk) (bytes : ℤ) : Bool := d.currentBytes + bytes ≤ d.maxBytes

/-! ### What is reported -/

/-- `struct stat`, with the type and the permissions of `st_mode` apart. -/
structure Stat where
  type : FileType
  permission : ℕ
  nlink : ℤ
  size : ℕ
  blksize : ℕ
  blocks : ℕ
  deriving DecidableEq

/-- `struct statvfs`. -/
structure StatVfs where
  namemax : ℕ
  frsize : ℕ
  bsize : ℕ
  blocks : ℕ
  bavail : ℕ
  bfree : ℕ
  deriving DecidableEq

/-- `div_round_up`, in `unsigned int`s. -/
def divRoundUp (dividend divisor : ℕ) : ℕ := (dividend + divisor / 2) % 2 ^ 32 / divisor

/-- `fill_stats`. -/
def fillStats (f : RdFile) : Stat :=
  match f.type with
  | .directory => ⟨.directory, defaultDirectoryPermission, 2 + toInt f.files.length, directoryBytes, bytesPerBlock,
      directoryBytes / bytesPerBlock⟩
  | .regular => ⟨.regular, defaultFilePermission, 1, f.size, bytesPerBlock, divRoundUp (toUnsigned f.size) bytesPerBlock⟩

/-- What a callback hands back: its code and what it filled in, for a read the
bytes stored in the buffer, from its start on. -/
structure Reply where
  code : ℤ
  stat : Option Stat
  entries : List (Text × Stat)
  bytes : List UInt8
  vfs : Option StatVfs
  deriving DecidableEq

def Reply.ofCode (code : ℤ) : Reply := ⟨code, none, [], [], none⟩

/-! ### The callbacks -/

section Callbacks

variable (d : Disk) (path : Text)

/-- `rd_opendir`. -/
def rdOpendir : Option (Disk × Reply) :=
  if path = rootName then some (d, .ofCode 0)
  else do
    match ← getRdFile d path with
    | none => some (d, .ofCode (-enoent))
    | some p => do
      let f ← d.heap p
      if f.type ≠ .directory then some (d, .ofCode (-enotdir)) else some (d, .ofCode 0)

/-- `rd_open`. -/
def rdOpen (flags : ℕ) : Option (Disk × Reply) :=
  if !validPath path then some (d, .ofCode (-enoent))
  else do
    match ← getRdFile d path with
    | none => some (d, .ofCode (-enoent))
    | some p => do
      let f ← d.heap p
      if f.type = .directory ∧ (flags &&& oRdonly ≠ 0 ∨ flags &&& oRdwr ≠ 0 ∨ flags &&& oAppend ≠ 0) then
        some (d, .ofCode (-eisdir))
      else some (d.setFile p { f with opened := true }, .ofCode 0)

/-- `rd_flush`. -/
def rdFlush : Option (Disk × Reply) :=
  if !validPath path then some (d, .ofCode (-enoent))
  else do
    match ← getRdFile d path with
    | none => some (d, .ofCode (-enoent))
    | some _ => some (d, .ofCode 0)

/-- The buffer a write stores into, when the file grows to `n` bytes: `calloc`,
and `strncpy` of the old one. -/
def grownData (f : RdFile) (n : ℕ) : Option (List UInt8) :=
  if f.size = 0 then some (List.replicate n 0)
  else do
    let old ← f.data
    guard (f.size ≤ old.length ∧ f.size ≤ n)
    some (strncpy old f.size ++ List.replicate (n - f.size) 0)

/-- The loop of `rd_write` over the bytes of the request. -/
def storeBytes (f : RdFile) (offset : ℕ) (buffer : List UInt8) : Option RdFile :=
  if buffer = [] then some f
  else do
    let old ← f.data
    let new ← storeAt old offset buffer
    some { f with data := some new }

/-- `rd_write`. The `off_t` and the `size_t` are compared as `size_t`s, their
sum is kept in an `int`. The expression `file->data[i]` behind the loop, whose
value is not used, is left out. -/
def rdWrite (buffer : List UInt8) (offset : ℤ) : Option (Disk × Reply) :=
  if !validPath path then some (d, .ofCode (-enoent))
  else do
    match ← getRdFile d path with
    | none => some (d, .ofCode (-enoent))
    | some p => do
      let f ← d.heap p
      if f.size < toSize offset then some (d, .ofCode (-efbig))
      else
        let sizeAfterWrite := toInt (toSize (offset + buffer.length))
        if f.size < toSize sizeAfterWrite then
          let bytesToAllocate := toInt (toSize (sizeAfterWrite - f.size))
          if !memoryAvailable d bytesToAllocate then some (d, .ofCode (-enospc))
          else do
            let newSize := toSize (bytesToAllocate + f.size)
            let temp ← grownData f newSize
            let f' ← storeBytes { f with data := some temp, size := newSize } (toSize offset) buffer
            some ({ d.setFile p f' with currentBytes := d.currentBytes + bytesToAllocate },
              .ofCode (toInt buffer.length))
        else do
          let f' ← storeBytes f (toSize offset) buffer
          some (d.setFile p f', .ofCode (toInt buffer.length))

/-- `rd_read`. Data that was never set belongs to a file of size zero, and then
the test of the pointer does not matter. -/
def rdRead (size : ℕ) (offset : ℤ) : Option (Disk × Reply) :=
  if !validPath path then some (d, .ofCode (-enoent))
  else do
    match ← getRdFile d path with
    | none => some (d, .ofCode (-enoent))
    | some p => do
      let f ← d.heap p
      if f.type = .directory then some (d, .ofCode (-eisdir))
      else if toSize offset < f.size then do
        let n := if f.size < toSize (offset + size) then toSize (f.size - offset) else size
        let bytes ← f.data
        guard (toSize offset + n ≤ bytes.length)
        some (d, { Reply.ofCode (toInt n) with bytes := (bytes.drop (toSize offset)).take n ++ [0] })
      else some (d, .ofCode 0)

/-- `rd_create`. -/
def rdCreate : Option (Disk × Reply) :=
  if path = rootName || endsWith path rootName then some (d, .ofCode (-eperm))
  else do
    let (fileNames, count) ← getDirs path
    match ← getParentDirectory d fileNames count with
    | none => some (d, .ofCode (-enoent))
    | some q => do
      let g ← d.heap q
      let name ← fileNames[count]?
      some (addFile d q g (createRdFile name g.name .regular), .ofCode 0)

/-- `rd_getattr`. -/
def rdGetattr : Option (Disk × Reply) := do
  let (fileNames, count) ← getDirs path
  if path = rootName then do
    let r ← d.heap root
    some (d, { Reply.ofCode 0 with stat := some (fillStats r) })
  else do
    match ← getParentDirectory d fileNames count with
    | none => some (d, .ofCode (-enoent))
    | some q => do
      let g ← d.heap q
      let name ← fileNames[count]?
      match ← getFile d name g.files with
      | none => some (d, .ofCode (-enoent))
      | some p => do
        let f ← d.heap p
        some (d, { Reply.ofCode 0 with stat := some (fillStats f) })

/-- The loop of `rd_readdir` over the files of a directory. -/
def fillEntries : List ℕ → Option (List (Text × Stat))
  | [] => some []
  | p :: rest => do
    let f ← d.heap p
    let entries ← fillEntries rest
    some ((f.name, fillStats f) :: entries)

/-- `rd_readdir`. -/
def rdReaddir : Option (Disk × Reply) := do
  let (fileNames, count) ← getDirs path
  match ← getParentDirectory d fileNames count with
  | none => some (d, .ofCode (-enoent))
  | some q => do
    let g ← d.heap q
    let name ← fileNames[count]?
    let found ← if path = rootName then some (some root) else getFile d name g.files
    match found with
    | none => some (d, .ofCode (-enoent))
    | some p => do
      let f ← d.heap p
      if f.type = .regular then some (d, .ofCode (-enoent))
      else do
        let entries ← fillEntries d f.files
        some (d, { Reply.ofCode 0 with entries := entries })

/-- `rd_mkdir`. -/
def rdMkdir : Option (Disk × Reply) :=
  if path = rootName then some (d, .ofCode (-enotdir))
  else if !memoryAvailable d directoryBytes then some (d, .ofCode (-enospc))
  else do
    let (fileNames, count) ← getDirs path
    match ← getParentDirectory d fileNames count with
    | none => some (d, .ofCode (-enoent))
    | some q => do
      let g ← d.heap q
      let name ← fileNames[count]?
      match ← getFile d name g.files with
      | some _ => some (d, .ofCode (-eexist))
      | none => do
        let d' := addFile d q g (createRdFile name g.name .directory)
        some ({ d' with currentBytes := d'.currentBytes + directoryBytes }, .ofCode 0)

/-- `rd_unlink`. -/
def rdUnlink : Option (Disk × Reply) :=
  if path = rootName then some (d, .ofCode (-eperm))
  else do
    let (fileNames, count) ← getDirs path
    match ← getParentDirectory d fileNames count with
    | none => some (d, .ofCode (-eperm))
    | some q => do
      let g ← d.heap q
      let name ← fileNames[count]?
      match ← getFile d name g.files with
      | none => some (d, .ofCode (-eperm))
      | some p => do
        let f ← d.heap p
        let d' ← deleteItem { d with currentBytes := d.currentBytes - f.size } q p
        some (d', .ofCode 0)

/-- `rd_rmdir`: the parent is the file's own. -/
def rdRmdir : Option (Disk × Reply) :=
  if path = rootName then some (d, .ofCode (-eperm))
  else do
    match ← getRdFile d path with
    | none => some (d, .ofCode (-enoent))
    | some p => do
      let f ← d.heap p
      if f.type ≠ .directory then some (d, .ofCode (-enotdir))
      else if f.files ≠ [] then some (d, .ofCode (-enotempty))
      else do
        let q ← f.parent
        let d' ← deleteItem d q p
        some ({ d' with currentBytes := d'.currentBytes - directoryBytes }, .ofCode 0)

/-- `rd_statfs`. -/
def rdStatfs : Option (Disk × Reply) :=
  let free := divRoundUp (toUnsigned (d.maxBytes - d.currentBytes)) bytesPerBlock
  some (d, { Reply.ofCode 0 with vfs := some ⟨nameMax, bytesPerBlock, bytesPerBlock,
    divRoundUp (toUnsigned d.currentBytes) bytesPerBlock, free, free⟩ })

end Callbacks

/-- A call of the kernel. -/
inductive Op
  | create (path : Text)
  | mkdir (path : Text)
  | write (path : Text) (buffer : List UInt8) (offset : ℤ)
  | unlink (path : Text)
  | rmdir (path : Text)
  | getattr (path : Text)
  | opendir (path : Text)
  | readdir (path : Text)
  | open (path : Text) (flags : ℕ)
  | flush (path : Text)
  | read (path : Text) (size : ℕ) (offset : ℤ)
  | statfs (path : Text)

def Op.path : Op → Text
  | .create p | .mkdir p | .write p _ _ | .unlink p | .rmdir p | .getattr p | .opendir p | .readdir p
  | .open p _ | .flush p | .read p _ _ | .statfs p => p

/-- The callbacks that change names. -/
def Op.Renames : Op → Prop
  | .create _ | .mkdir _ | .unlink _ | .rmdir _ => True
  | _ => False

def exec (d : Disk) : Op → Option (Disk × Reply)
  | .create p => rdCreate d p
  | .mkdir p => rdMkdir d p
  | .write p buffer offset => rdWrite d p buffer offset
  | .unlink p => rdUnlink d p
  | .rmdir p => rdRmdir d p
  | .getattr p => rdGetattr d p
  | .opendir p => rdOpendir d p
  | .readdir p => rdReaddir d p
  | .open p flags => rdOpen d p flags
  | .flush p => rdFlush d p
  | .read p size offset => rdRead d p size offset
  | .statfs _ => rdStatfs d

/-! ### What the kernel guarantees -/

/-- The largest request of FUSE. -/
def maxWrite : ℕ := 131072

/-- The parent of a path is there, and is a directory. -/
def ParentFound (d : Disk) (path : Text) : Prop :=
  ∃ fileNames count q, getDirs path = some (fileNames, count) ∧
    getParentDirectory d fileNames count = some (some q)

/-- A path is that of a regular file. -/
def IsRegular (d : Disk) (path : Text) : Prop :=
  ∃ p f, getRdFile d path = some (some p) ∧ d.heap p = some f ∧ f.type = .regular

/-- The kernel passes absolute paths whose parent it has found, unlinks and
writes regular files only, and cuts writes into requests of bounded size. The
offset is an `off_t`, and no read asks for more than an `ssize_t` can hold. -/
structure Vfs (d : Disk) (op : Op) : Prop where
  absolute : ∃ p, op.path = '/' :: p
  parent : ParentFound d op.path
  unlink : ∀ p, op = .unlink p → IsRegular d p
  write : ∀ p b o, op = .write p b o → IsRegular d p ∧ b.length ≤ maxWrite ∧ -2 ^ 63 ≤ o ∧ o < 2 ^ 63
  read : ∀ p n o, op = .read p n o → n < 2 ^ 63 ∧ -2 ^ 63 ≤ o ∧ o < 2 ^ 63

/-- A capacity `main` can set: a number of megabytes, without overflow. -/
structure Capacity (maxBytes : ℤ) : Prop where
  nonneg : 0 ≤ maxBytes
  lt : maxBytes < 2 ^ 31
  megabytes : (2 ^ 20 : ℤ) ∣ maxBytes

/-- The disk under the calls of the kernel. -/
def disk (maxBytes : ℤ) : Lts Disk (Op × Reply) where
  init d := ∃ stale, d = Disk.start maxBytes stale
  step d e d' := Vfs d e.1 ∧ exec d e.1 = some (d', e.2)

end Ramdisk
end Csc501
