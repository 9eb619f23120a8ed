import Xv6SnifferBakery.Kernel.Params

/-!
# Inodes and their content

Inodes as `fs.c` sees them through `ilock`: every change of an in-memory inode is followed by `iupdate`, so one record stands for
the copy in memory and the copy on disk. A file's content is the bytes below its size; a directory's is its entries. Of the free
map only the number of clear bits is kept, and of an inode's block addresses only which of them are set: a write that finds no
free block stops there, as `writei` does.
-/

namespace Xv6SnifferBakery.Kernel

/-- `dinode.type`: 0 (free), `T_DIR`, `T_FILE`, `T_DEVICE`. -/
inductive FileType where
  | free | dir | file | device
  deriving DecidableEq, Repr

/-- A directory entry's name: at most `dirSiz` characters. -/
abbrev Name := List Char

/-- `struct dirent`. An entry with `inum = 0` is empty. -/
structure Dirent where
  inum : Nat
  name : Name
  deriving DecidableEq, Repr

/-- `struct inode` (and `struct dinode`). `addrs bn` says that block `bn` of the file has a disk block, `indirect` that the
indirect block is allocated. -/
structure Inode where
  type : FileType
  major : Int
  minor : Int
  nlink : Int
  size : Nat
  data : Nat → Byte
  ents : List Dirent
  addrs : Nat → Bool
  indirect : Bool

/-- What `ialloc` and `itrunc` leave of the content: no byte, no entry, no block. -/
def Inode.empty (type : FileType) : Inode :=
  { type, major := 0, minor := 0, nlink := 0, size := 0, data := fun _ => 0, ents := [], addrs := fun _ => false,
    indirect := false }

/-- `struct file.type`. -/
inductive FdType where
  | none | pipe | inode | device
  deriving DecidableEq, Repr

/-- `struct file`. -/
structure File where
  type : FdType
  ref : Nat
  readable : Bool
  writable : Bool
  ip : Nat
  off : Nat

/-- The file system and the tables over it: the inodes by number, the clear bits of the free map, `itable` (the references to
each inode, and whether it has been read from disk) and `ftable`. -/
structure Fs where
  ninodes : Nat
  inode : Nat → Inode
  nfree : Nat
  ref : Nat → Nat
  valid : Nat → Bool
  ftable : Nat → File

namespace Fs

/-- Write an inode (`iupdate`). -/
def setInode (fs : Fs) (i : Nat) (ip : Inode) : Fs := { fs with inode := Function.update fs.inode i ip }

/-- Change an inode. -/
def modInode (fs : Fs) (i : Nat) (f : Inode → Inode) : Fs := fs.setInode i (f (fs.inode i))

@[simp] theorem setInode_inode (fs : Fs) (i j : Nat) (ip : Inode) :
    (fs.setInode i ip).inode j = if j = i then ip else fs.inode j := by
  simp [setInode, Function.update_apply]
@[simp] theorem setInode_ref (fs : Fs) (i : Nat) (ip : Inode) : (fs.setInode i ip).ref = fs.ref := rfl
@[simp] theorem setInode_valid (fs : Fs) (i : Nat) (ip : Inode) : (fs.setInode i ip).valid = fs.valid := rfl
@[simp] theorem setInode_ftable (fs : Fs) (i : Nat) (ip : Inode) : (fs.setInode i ip).ftable = fs.ftable := rfl
@[simp] theorem setInode_ninodes (fs : Fs) (i : Nat) (ip : Inode) : (fs.setInode i ip).ninodes = fs.ninodes := rfl
@[simp] theorem setInode_nfree (fs : Fs) (i : Nat) (ip : Inode) : (fs.setInode i ip).nfree = fs.nfree := rfl
@[simp] theorem modInode_inode (fs : Fs) (i j : Nat) (f : Inode → Inode) :
    (fs.modInode i f).inode j = if j = i then f (fs.inode i) else fs.inode j := by
  simp [modInode]
@[simp] theorem modInode_ref (fs : Fs) (i : Nat) (f : Inode → Inode) : (fs.modInode i f).ref = fs.ref := rfl
@[simp] theorem modInode_valid (fs : Fs) (i : Nat) (f : Inode → Inode) : (fs.modInode i f).valid = fs.valid := rfl
@[simp] theorem modInode_ftable (fs : Fs) (i : Nat) (f : Inode → Inode) : (fs.modInode i f).ftable = fs.ftable := rfl
@[simp] theorem modInode_ninodes (fs : Fs) (i : Nat) (f : Inode → Inode) : (fs.modInode i f).ninodes = fs.ninodes := rfl

end Fs

/-! ## Blocks -/

/-- `balloc`: take a free block, if there is one. -/
def balloc (fs : Fs) : Fs × Bool :=
  if fs.nfree = 0 then (fs, false) else ({ fs with nfree := fs.nfree - 1 }, true)

/-- `bmap` when it is about to allocate block `bn` of inode `i`, whose address is `addrs[bn]` or is in the indirect block. -/
def bmapData (fs : Fs) (i bn : Nat) : Fs × Bool :=
  if (fs.inode i).addrs bn then (fs, true)
  else
    match balloc fs with
    | (fs, false) => (fs, false)
    | (fs, true) => (fs.modInode i (fun ip => { ip with addrs := Function.update ip.addrs bn true }), true)

/-- `bmap`: whether block `bn` of inode `i` has a disk block, allocating it (and the indirect block) if it can. -/
def bmap (fs : Fs) (i bn : Nat) : Kern (Fs × Bool) :=
  if bn < nDirect then .ok (bmapData fs i bn)
  else if bn < maxFile then
    if (fs.inode i).indirect then .ok (bmapData fs i bn)
    else
      match balloc fs with
      | (fs, false) => .ok (fs, false)
      | (fs, true) => .ok (bmapData (fs.modInode i (fun ip => { ip with indirect := true })) i bn)
  else .error .bmap

/-- The blocks an inode holds. -/
def Inode.blocks (ip : Inode) : Nat :=
  ((List.range maxFile).filter (fun bn => ip.addrs bn)).length + if ip.indirect then 1 else 0

/-- `itrunc`: give the inode's blocks back and drop its content. -/
def itrunc (fs : Fs) (i : Nat) : Fs :=
  let fs := { fs with nfree := fs.nfree + (fs.inode i).blocks }
  fs.modInode i (fun ip => { ip with size := 0, data := fun _ => 0, ents := [], addrs := fun _ => false, indirect := false })

/-! ## Reading and writing a file -/

/-- `readi` to a kernel address: how many bytes it reads at offset `off`, a `uint`. It never reads past the size, and since
`writei` leaves no hole every block it asks `bmap` for is there (`readiLoop` asks). The bytes read are `data off`,
`data (off + 1)`, ... -/
def readi (ip : Inode) (off n : Nat) : Nat :=
  if ip.size < off ∨ (off + n) % 2 ^ 32 < off then 0
  else if ip.size < off + n then ip.size - off
  else n

/-- The loop of `readi` over the blocks of the range, `tot` bytes after its start: the bytes read when it stops. -/
def readiLoop (i off n : Nat) : Nat → Nat → Fs → Kern (Fs × Nat)
  | 0, tot, fs => .ok (fs, tot)
  | fuel + 1, tot, fs =>
    if tot < n then do
      let (fs, got) ← bmap fs i ((off + tot) / bSize)
      if got then readiLoop i off n fuel (tot + min (n - tot) (bSize - (off + tot) % bSize)) fs
      else .ok (fs, tot)
    else .ok (fs, tot)

/-- The loop of `writei` over the blocks of the range, `tot` bytes after its start: the bytes written when it stops. -/
def writeiLoop (i off n : Nat) : Nat → Nat → Fs → Kern (Fs × Nat)
  | 0, tot, fs => .ok (fs, tot)
  | fuel + 1, tot, fs =>
    if tot < n then do
      let (fs, got) ← bmap fs i ((off + tot) / bSize)
      if got then writeiLoop i off n fuel (tot + min (n - tot) (bSize - (off + tot) % bSize)) fs
      else .ok (fs, tot)
    else .ok (fs, tot)

/-- `writei` from a kernel address: `src` into inode `i` at offset `off`. It refuses an offset beyond the size or an end beyond
the largest file (`none`, the source's -1), and otherwise returns the bytes written, fewer than `n` when the disk is full. Every
pass of the loop writes at least one byte, so `n` passes are enough. -/
def writei (fs : Fs) (i : Nat) (src : Nat → Byte) (off n : Nat) : Kern (Fs × Option Nat) :=
  if (fs.inode i).size < off ∨ (off + n) % 2 ^ 32 < off then .ok (fs, none)
  else if maxFile * bSize < off + n then .ok (fs, none)
  else do
    let (fs, tot) ← writeiLoop i off n n 0 fs
    let fs := fs.modInode i (fun ip =>
      { ip with
        data := fun k => if off ≤ k ∧ k < off + tot then src (k - off) else ip.data k
        size := max ip.size (off + tot) })
    .ok (fs, some tot)

/-! ## The inode table -/

/-- The inodes in use in `itable`. -/
def Fs.active (fs : Fs) : Nat := ((List.range fs.ninodes).filter (fun i => 0 < fs.ref i)).length

/-- `iget`: a reference to inode `i`. A new entry of the table has not been read from disk. -/
def iget (fs : Fs) (i : Nat) : Kern Fs :=
  if 0 < fs.ref i then .ok { fs with ref := Function.update fs.ref i (fs.ref i + 1) }
  else if nInode ≤ fs.active then .error .igetNoInodes
  else .ok { fs with ref := Function.update fs.ref i 1, valid := Function.update fs.valid i false }

/-- `idup`. -/
def idup (fs : Fs) (i : Nat) : Fs := { fs with ref := Function.update fs.ref i (fs.ref i + 1) }

/-- `ilock`, without the sleep lock: the inode is read from disk at its first lock, and must be allocated. -/
def ilock (fs : Fs) (i : Nat) : Kern Fs :=
  if fs.ref i < 1 then .error .ilock
  else if fs.valid i then .ok fs
  else if (fs.inode i).type = .free then .error .ilockNoType
  else .ok { fs with valid := Function.update fs.valid i true }

/-- `iput`: drop a reference. The last reference to an inode without links frees it. -/
def iput (fs : Fs) (i : Nat) : Fs :=
  let fs :=
    if fs.ref i = 1 ∧ fs.valid i ∧ (fs.inode i).nlink = 0 then
      let fs := (itrunc fs i).modInode i (fun ip => { ip with type := .free })
      { fs with valid := Function.update fs.valid i false }
    else fs
  { fs with ref := Function.update fs.ref i (fs.ref i - 1) }

/-- The first free inode at or after `i`, among `n` of them. -/
def firstFree (fs : Fs) : Nat → Nat → Option Nat
  | _, 0 => none
  | i, n + 1 => if (fs.inode i).type = .free then some i else firstFree fs (i + 1) n

/-- `ialloc`: the first free inode, with the type written to it and a reference taken. -/
def ialloc (fs : Fs) (type : FileType) : Kern (Fs × Option Nat) :=
  match firstFree fs 1 (fs.ninodes - 1) with
  | none => .ok (fs, none)
  | some i => do
    let fs ← iget (fs.setInode i (Inode.empty type)) i
    .ok (fs, some i)

/-! ## The file table -/

/-- The first unused `struct file` at or after `f`, among `n` of them. -/
def firstFile (fs : Fs) : Nat → Nat → Option Nat
  | _, 0 => none
  | f, n + 1 => if (fs.ftable f).ref = 0 then some f else firstFile fs (f + 1) n

/-- `filealloc`. -/
def filealloc (fs : Fs) : Fs × Option Nat :=
  match firstFile fs 0 nFile with
  | none => (fs, none)
  | some f => ({ fs with ftable := Function.update fs.ftable f { fs.ftable f with ref := 1 } }, some f)

/-- `filedup`. -/
def filedup (fs : Fs) (f : Nat) : Kern Fs :=
  if (fs.ftable f).ref < 1 then .error .filedup
  else .ok { fs with ftable := Function.update fs.ftable f { fs.ftable f with ref := (fs.ftable f).ref + 1 } }

/-- `fileclose`: the last close of a file on an inode drops its reference to the inode. What the last close of a pipe end does
is the pipe's. -/
def fileclose (fs : Fs) (f : Nat) : Kern Fs :=
  let ff := fs.ftable f
  if ff.ref < 1 then .error .fileclose
  else if 0 < ff.ref - 1 then .ok { fs with ftable := Function.update fs.ftable f { ff with ref := ff.ref - 1 } }
  else
    let fs := { fs with ftable := Function.update fs.ftable f { ff with ref := 0, type := .none } }
    if ff.type = .inode ∨ ff.type = .device then .ok (iput fs ff.ip) else .ok fs

end Xv6SnifferBakery.Kernel
