/-
# The RAM disk in memory

`hw4/ramdisk.c` once more, with the lists of `ramdisk.h` as they are: the files of a
directory hang on a chain of nodes, each with a pointer to its file and one to the next
node. `push` walks to the last node and links a new one behind it, `delete_item` goes down
the chain by recursion, frees the node of the file and the file, and links the nodes
behind it to those in front on the way back; `get_file`, `get_count` and the loop of
`rd_readdir` follow the pointers.

A result `none` is a pointer followed that is `NULL` or freed, one passed to `free` that was
never set and is not `NULL`, or a loop that runs out of fuel. Which address `malloc` returns
for a node is an argument of the callbacks; it is one that is not allocated. A file is named
by the number of its allocation, and its bytes are kept, as in `Ramdisk.Disk`.

Key definitions: `LinkedFile`, `Memory`, `Memory.push`, `Memory.deleteItem`, `Memory.exec`.
-/
import Csc501.Lib.Chain
import Csc501.Ramdisk.Disk

namespace Csc501
namespace Ramdisk

open Lib

/-- `rd_file`, with `files` the pointer to the first node. -/
structure LinkedFile where
  type : FileType
  name : Text
  path : Text
  parent : Option ℕ
  size : ℕ
  data : Option (List UInt8)
  opened : Bool
  files : Option ℕ

namespace LinkedFile

/-- The record with a list in place of the pointer. -/
@[simps]
def view (F : LinkedFile) (files : List ℕ) : RdFile where
  type := F.type
  name := F.name
  path := F.path
  parent := F.parent
  size := F.size
  data := F.data
  opened := F.opened
  files := files

/-- The contents are replaced by those of `f`. -/
def store (F : LinkedFile) (f : RdFile) : LinkedFile := { F with size := f.size, data := f.data }

/-- `create_rd_file`. -/
def create (name path : Text) (type : FileType) : LinkedFile where
  type := type
  name := name
  path := path
  parent := none
  size := match type with
    | .regular => 0
    | .directory => directoryBytes
  data := none
  opened := false
  files := none

end LinkedFile

/-- The globals, the files and the nodes; a node's value is the file it points to. No
file was allocated at or behind `next`. The memory `malloc` returns for the file `p` has
something else than `NULL` in the place of `data` if `stale p`. -/
structure Memory where
  maxBytes : ℤ
  currentBytes : ℤ
  files : ℕ → Option LinkedFile
  nodes : Heap ℕ
  next : ℕ
  stale : ℕ → Bool

namespace Memory

/-- The state `main` starts with. -/
def start (maxBytes : ℤ) (stale : ℕ → Bool) : Memory where
  maxBytes := maxBytes
  currentBytes := 0
  files := fun p => if p = root then some (LinkedFile.create rootName [] .directory) else none
  nodes := fun _ => none
  next := 1
  stale := stale

def setFile (m : Memory) (p : ℕ) (F : LinkedFile) : Memory := { m with files := Function.update m.files p (some F) }

/-- `memory_available`. -/
def memoryAvailable (m : Memory) (bytes : ℤ) : Bool := m.currentBytes + bytes ≤ m.maxBytes

/-! ### The lists of `ramdisk.h` -/

/-- The loop of `push`: the last node. -/
def lastNode (h : Heap ℕ) : ℕ → ℕ → Option ℕ
  | 0, _ => none
  | fuel + 1, current => do
    let c ← h current
    match c.next with
    | none => some current
    | some n => lastNode h fuel n

/-- `push`, with `make_node` at the address `node`. -/
def push (h : Heap ℕ) (fuel head file node : ℕ) : Option (Heap ℕ) := do
  let current ← lastNode h fuel head
  let h := Function.update h node (some ⟨file, none⟩)
  let c ← h current
  some (Function.update h current (some { c with next := some node }))

/-- `free_file`: the data are freed first, whether they were set or not. -/
def freeFile (m : Memory) (p : ℕ) : Option Memory := do
  let f ← m.files p
  if f.data = none ∧ m.stale p then none else some { m with files := Function.update m.files p none }

/-- `delete_item`: the memory afterwards, and the head it returns. -/
def deleteItem (item : ℕ) : ℕ → Memory → Option ℕ → Option (Memory × Option ℕ)
  | 0, _, _ => none
  | _ + 1, m, none => some (m, none)
  | fuel + 1, m, some a => do
    let c ← m.nodes a
    if c.val = item then
      let m ← m.freeFile c.val
      some ({ m with nodes := Function.update m.nodes a none }, c.next)
    else
      let (m, next) ← deleteItem item fuel m c.next
      let c ← m.nodes a
      some ({ m with nodes := Function.update m.nodes a (some { c with next := next }) }, some a)

/-- The loop of `get_count`. -/
def countLoop (h : Heap ℕ) : ℕ → ℕ → ℕ → Option ℕ
  | 0, _, _ => none
  | fuel + 1, current, count => do
    let c ← h current
    match c.next with
    | none => some count
    | some n => countLoop h fuel n (count + 1)

/-- `get_count`. -/
def getCount (h : Heap ℕ) (fuel : ℕ) : Option ℕ → Option ℕ
  | none => some 0
  | some a => countLoop h fuel a 1

/-! ### Looking up -/

/-- `get_file`. -/
def getFile (m : Memory) (name : Text) : ℕ → Option ℕ → Option (Option ℕ)
  | 0, _ => none
  | _ + 1, none => some none
  | fuel + 1, some a => do
    let c ← m.nodes a
    let f ← m.files c.val
    if name = f.name then some (some c.val) else getFile m name fuel c.next

/-- The loop of `get_parent_directory`, from the directory `q` on. -/
def descend (m : Memory) (fuel q : ℕ) : List Text → Option (Option ℕ)
  | [] => some (some q)
  | name :: rest => do
    let g ← m.files q
    match ← m.getFile name fuel g.files with
    | none => some none
    | some p => do
      let f ← m.files p
      if f.type = .regular then some none else descend m fuel p rest

/-- `get_parent_directory`. -/
def getParentDirectory (m : Memory) (fuel : ℕ) (fileNames : List Text) (count : ℕ) : Option (Option ℕ) :=
  m.descend fuel root (fileNames.take count)

/-- `get_rd_file`. -/
def getRdFile (m : Memory) (fuel : ℕ) (path : Text) : Option (Option ℕ) := do
  let (fileNames, count) ← getDirs path
  let q ← ← m.getParentDirectory fuel fileNames count
  let g ← m.files q
  let name ← fileNames[count]?
  m.getFile name fuel g.files

/-- `fill_stats`. -/
def fillStats (m : Memory) (fuel : ℕ) (f : LinkedFile) : Option Stat :=
  match f.type with
  | .directory => do
    let count ← getCount m.nodes fuel f.files
    some ⟨.directory, defaultDirectoryPermission, 2 + toInt count, directoryBytes, bytesPerBlock,
      directoryBytes / bytesPerBlock⟩
  | .regular => some ⟨.regular, defaultFilePermission, 1, f.size, bytesPerBlock,
      divRoundUp (toUnsigned f.size) bytesPerBlock⟩

/-- The loop of `rd_readdir` over the nodes of a directory. -/
def fillEntries (m : Memory) : ℕ → ℕ → Option ℕ → Option (List (Text × Stat))
  | _, 0, _ => none
  | _, _ + 1, none => some []
  | bound, fuel + 1, some a => do
    let c ← m.nodes a
    let f ← m.files c.val
    let st ← m.fillStats bound f
    let entries ← fillEntries m bound fuel c.next
    some ((f.name, st) :: entries)

/-! ### Changing the tree -/

/-- The end of `rd_create` and `rd_mkdir`: the new file gets its parent, and its node is
put behind the others or is the first one. -/
def addFile (m : Memory) (fuel node q : ℕ) (g f : LinkedFile) : Option Memory :=
  let p := m.next
  let m := { m with files := Function.update m.files p (some { f with parent := some q }), next := p + 1 }
  match g.files with
  | some head => do
    let h ← push m.nodes fuel head p node
    some { m with nodes := h }
  | none => some { m with
      nodes := Function.update m.nodes node (some ⟨p, none⟩)
      files := Function.update m.files q (some { g with files := some node }) }

/-- `parent_file->files = delete_item(parent_file->files, file)`. -/
def removeItem (m : Memory) (fuel q p : ℕ) : Option Memory := do
  let g ← m.files q
  let (m, head) ← deleteItem p fuel m g.files
  let g ← m.files q
  some (m.setFile q { g with files := head })

/-! ### The callbacks -/

section Callbacks

variable (m : Memory) (fuel : ℕ) (path : Text)

/-- `rd_opendir`. -/
def rdOpendir : Option (Memory × Reply) :=
  if path = rootName then some (m, .ofCode 0)
  else do
    match ← m.getRdFile fuel path with
    | none => some (m, .ofCode (-enoent))
    | some p => do
      let f ← m.files p
      if f.type ≠ .directory then some (m, .ofCode (-enotdir)) else some (m, .ofCode 0)

/-- `rd_open`. -/
def rdOpen (flags : ℕ) : Option (Memory × Reply) :=
  if !validPath path then some (m, .ofCode (-enoent))
  else do
    match ← m.getRdFile fuel path with
    | none => some (m, .ofCode (-enoent))
    | some p => do
      let f ← m.files p
      if f.type = .directory ∧ (flags &&& oRdonly ≠ 0 ∨ flags &&& oRdwr ≠ 0 ∨ flags &&& oAppend ≠ 0) then
        some (m, .ofCode (-eisdir))
      else some (m.setFile p { f with opened := true }, .ofCode 0)

/-- `rd_flush`. -/
def rdFlush : Option (Memory × Reply) :=
  if !validPath path then some (m, .ofCode (-enoent))
  else do
    match ← m.getRdFile fuel path with
    | none => some (m, .ofCode (-enoent))
    | some _ => some (m, .ofCode 0)

/-- `rd_write`. -/
def rdWrite (buffer : List UInt8) (offset : ℤ) : Option (Memory × Reply) :=
  if !validPath path then some (m, .ofCode (-enoent))
  else do
    match ← m.getRdFile fuel path with
    | none => some (m, .ofCode (-enoent))
    | some p => do
      let F ← m.files p
      let f := F.view []
      if f.size < toSize offset then some (m, .ofCode (-efbig))
      else
        let sizeAfterWrite := toInt (toSize (offset + buffer.length))
        if f.size < toSize sizeAfterWrite then
          let bytesToAllocate := toInt (toSize (sizeAfterWrite - f.size))
          if !m.memoryAvailable bytesToAllocate then some (m, .ofCode (-enospc))
          else do
            let newSize := toSize (bytesToAllocate + f.size)
            let temp ← grownData f newSize
            let f' ← storeBytes { f with data := some temp, size := newSize } (toSize offset) buffer
            some ({ m.setFile p (F.store f') with currentBytes := m.currentBytes + bytesToAllocate },
              .ofCode (toInt buffer.length))
        else do
          let f' ← storeBytes f (toSize offset) buffer
          some (m.setFile p (F.store f'), .ofCode (toInt buffer.length))

/-- `rd_read`. -/
def rdRead (size : ℕ) (offset : ℤ) : Option (Memory × Reply) :=
  if !validPath path then some (m, .ofCode (-enoent))
  else do
    match ← m.getRdFile fuel path with
    | none => some (m, .ofCode (-enoent))
    | some p => do
      let f ← m.files p
      if f.type = .directory then some (m, .ofCode (-eisdir))
      else if toSize offset < f.size then do
        let n := if f.size < toSize (offset + size) then toSize (f.size - offset) else size
        let bytes ← f.data
        guard (toSize offset + n ≤ bytes.length)
        some (m, { Reply.ofCode (toInt n) with bytes := (bytes.drop (toSize offset)).take n ++ [0] })
      else some (m, .ofCode 0)

/-- `rd_create`. -/
def rdCreate (node : ℕ) : Option (Memory × Reply) :=
  if path = rootName || endsWith path rootName then some (m, .ofCode (-eperm))
  else do
    let (fileNames, count) ← getDirs path
    match ← m.getParentDirectory fuel fileNames count with
    | none => some (m, .ofCode (-enoent))
    | some q => do
      let g ← m.files q
      let name ← fileNames[count]?
      let m' ← m.addFile fuel node q g (LinkedFile.create name g.name .regular)
      some (m', .ofCode 0)

/-- `rd_getattr`. -/
def rdGetattr : Option (Memory × Reply) := do
  let (fileNames, count) ← getDirs path
  if path = rootName then do
    let r ← m.files root
    let st ← m.fillStats fuel r
    some (m, { Reply.ofCode 0 with stat := some st })
  else do
    match ← m.getParentDirectory fuel fileNames count with
    | none => some (m, .ofCode (-enoent))
    | some q => do
      let g ← m.files q
      let name ← fileNames[count]?
      match ← m.getFile name fuel g.files with
      | none => some (m, .ofCode (-enoent))
      | some p => do
        let f ← m.files p
        let st ← m.fillStats fuel f
        some (m, { Reply.ofCode 0 with stat := some st })

/-- `rd_readdir`. -/
def rdReaddir : Option (Memory × Reply) := do
  let (fileNames, count) ← getDirs path
  match ← m.getParentDirectory fuel fileNames count with
  | none => some (m, .ofCode (-enoent))
  | some q => do
    let g ← m.files q
    let name ← fileNames[count]?
    let found ← if path = rootName then some (some root) else m.getFile name fuel g.files
    match found with
    | none => some (m, .ofCode (-enoent))
    | some p => do
      let f ← m.files p
      if f.type = .regular then some (m, .ofCode (-enoent))
      else do
        let entries ← m.fillEntries fuel fuel f.files
        some (m, { Reply.ofCode 0 with entries := entries })

/-- `rd_mkdir`. -/
def rdMkdir (node : ℕ) : Option (Memory × Reply) :=
  if path = rootName then some (m, .ofCode (-enotdir))
  else if !m.memoryAvailable directoryBytes then some (m, .ofCode (-enospc))
  else do
    let (fileNames, count) ← getDirs path
    match ← m.getParentDirectory fuel fileNames count with
    | none => some (m, .ofCode (-enoent))
    | some q => do
      let g ← m.files q
      let name ← fileNames[count]?
      match ← m.getFile name fuel g.files with
      | some _ => some (m, .ofCode (-eexist))
      | none => do
        let m' ← m.addFile fuel node q g (LinkedFile.create name g.name .directory)
        some ({ m' with currentBytes := m'.currentBytes + directoryBytes }, .ofCode 0)

/-- `rd_unlink`. -/
def rdUnlink : Option (Memory × Reply) :=
  if path = rootName then some (m, .ofCode (-eperm))
  else do
    let (fileNames, count) ← getDirs path
    match ← m.getParentDirectory fuel fileNames count with
    | none => some (m, .ofCode (-eperm))
    | some q => do
      let g ← m.files q
      let name ← fileNames[count]?
      match ← m.getFile name fuel g.files with
      | none => some (m, .ofCode (-eperm))
      | some p => do
        let f ← m.files p
        let m' ← removeItem { m with currentBytes := m.currentBytes - f.size } fuel q p
        some (m', .ofCode 0)

/-- `rd_rmdir`. -/
def rdRmdir : Option (Memory × Reply) :=
  if path = rootName then some (m, .ofCode (-eperm))
  else do
    match ← m.getRdFile fuel path with
    | none => some (m, .ofCode (-enoent))
    | some p => do
      let f ← m.files p
      if f.type ≠ .directory then some (m, .ofCode (-enotdir))
      else if f.files ≠ none then some (m, .ofCode (-enotempty))
      else do
        let q ← f.parent
        let m' ← m.removeItem fuel q p
        some ({ m' with currentBytes := m'.currentBytes - directoryBytes }, .ofCode 0)

/-- `rd_statfs`. -/
def rdStatfs : Option (Memory × Reply) :=
  let free := divRoundUp (toUnsigned (m.maxBytes - m.currentBytes)) bytesPerBlock
  some (m, { Reply.ofCode 0 with vfs := some ⟨nameMax, bytesPerBlock, bytesPerBlock,
    divRoundUp (toUnsigned m.currentBytes) bytesPerBlock, free, free⟩ })

end Callbacks

/-- A call of the kernel; `node` is what `malloc` returns for a new node. -/
def exec (m : Memory) (fuel node : ℕ) : Op → Option (Memory × Reply)
  | .create p => m.rdCreate fuel p node
  | .mkdir p => m.rdMkdir fuel p node
  | .write p buffer offset => m.rdWrite fuel p buffer offset
  | .unlink p => m.rdUnlink fuel p
  | .rmdir p => m.rdRmdir fuel p
  | .getattr p => m.rdGetattr fuel p
  | .opendir p => m.rdOpendir fuel p
  | .readdir p => m.rdReaddir fuel p
  | .open p flags => m.rdOpen fuel p flags
  | .flush p => m.rdFlush fuel p
  | .read p size offset => m.rdRead fuel p size offset
  | .statfs _ => m.rdStatfs

end Memory

end Ramdisk
end Csc501
