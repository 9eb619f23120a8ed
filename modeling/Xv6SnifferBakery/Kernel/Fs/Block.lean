import Xv6SnifferBakery.Kernel.Fs.Inode

/-!
# Disk blocks

The lower half of `fs.c`: the free map bit by bit, the blocks byte by byte, an inode's block addresses on disk and in memory, and
the indirect block as the array of numbers it holds. The directories and names over it are left out: here a file is its blocks.
A block number 0 means that there is no block.
-/

namespace Xv6SnifferBakery.Kernel

open Lib

def nIndirect : Nat := 256

/-- The bytes of a disk block, one for each offset below `bSize`. -/
abbrev Block := Nat → Byte

namespace Block

/-- The `j`th `uint` of a block: `((uint*)bp->data)[j]`. -/
def uint (a : Block) (j : Nat) : Nat :=
  (a (4 * j)).toNat + 2 ^ 8 * (a (4 * j + 1)).toNat + 2 ^ 16 * (a (4 * j + 2)).toNat + 2 ^ 24 * (a (4 * j + 3)).toNat

/-- Write the `j`th `uint` of a block. -/
def setUint (a : Block) (j v : Nat) : Block :=
  fun k => if k / 4 = j then UInt8.ofNat (v / 2 ^ (8 * (k % 4))) else a k

/-- Write `m` bytes at an offset. -/
def write (a : Block) (off m : Nat) (src : Nat → Byte) : Block :=
  fun k => if off ≤ k ∧ k < off + m then src (k - off) else a k

theorem uint_setUint (a : Block) {j l v : Nat} (hv : v < 2 ^ 32) : (a.setUint j v).uint l = if l = j then v else a.uint l := by
  have h0 : 4 * l / 4 = l ∧ (4 * l + 1) / 4 = l ∧ (4 * l + 2) / 4 = l ∧ (4 * l + 3) / 4 = l := by omega
  have h1 : 4 * l % 4 = 0 ∧ (4 * l + 1) % 4 = 1 ∧ (4 * l + 2) % 4 = 2 ∧ (4 * l + 3) % 4 = 3 := by omega
  simp only [uint, setUint, h0, h1]
  split
  · simp only [UInt8.toNat_ofNat']
    omega
  · rfl

theorem uint_zero (j : Nat) : uint (fun _ => 0) j = 0 := rfl

end Block

/-- `struct dinode`, and what `struct inode` keeps of it in memory. -/
structure Dinode where
  type : FileType
  major : Int
  minor : Int
  nlink : Int
  size : Nat
  /-- `addrs[NDIRECT]` is the indirect block. -/
  addrs : Nat → Nat

/-- The panics of these functions. -/
inductive DiskPanic where
  | freeingFreeBlock
  | bmap
  | ilock
  | ilockNoType
  | igetNoInodes
  deriving DecidableEq, Repr

/-- The disk as the log presents it, and `itable`. -/
structure Disk where
  /-- `sb.size`. -/
  size : Nat
  /-- `sb.ninodes`. -/
  ninodes : Nat
  /-- The free map. -/
  bit : Nat → Bool
  block : Nat → Block
  /-- The inodes on disk. -/
  dinode : Nat → Dinode
  /-- The copies in memory. -/
  inode : Nat → Dinode
  ref : Nat → Nat
  valid : Nat → Bool

/-- A result, or a panic. -/
abbrev DiskM (α : Type) := Except DiskPanic α

namespace Disk

/-- A change of an inode in memory. -/
def modInode (d : Disk) (i : Nat) (f : Dinode → Dinode) : Disk := { d with inode := Function.update d.inode i (f (d.inode i)) }

/-- `ip->addrs[k] = b`. -/
def setAddr (d : Disk) (i k b : Nat) : Disk := d.modInode i (fun ip => { ip with addrs := Function.update ip.addrs k b })

def setBlock (d : Disk) (b : Nat) (a : Block) : Disk := { d with block := Function.update d.block b a }

/-- Write an inode on disk. -/
def setDinode (d : Disk) (i : Nat) (ip : Dinode) : Disk := { d with dinode := Function.update d.dinode i ip }

/-- `iupdate`. -/
def iupdate (d : Disk) (i : Nat) : Disk := d.setDinode i (d.inode i)

/-! ## Blocks -/

/-- The first clear bit at or after `b`, among `n` of them. -/
def firstClear (d : Disk) : Nat → Nat → Option Nat
  | _, 0 => none
  | b, n + 1 => if d.bit b then firstClear d (b + 1) n else some b

/-- `balloc`: a zeroed block, or 0 if the disk is full. -/
def balloc (d : Disk) : Disk × Nat :=
  match d.firstClear 0 d.size with
  | none => (d, 0)
  | some b => ({ d with bit := Function.update d.bit b true }.setBlock b (fun _ => 0), b)

/-- `bfree`. -/
def bfree (d : Disk) (b : Nat) : DiskM Disk :=
  if d.bit b then .ok { d with bit := Function.update d.bit b false } else .error .freeingFreeBlock

/-- `ip->addrs[k]`, allocated if it is 0. -/
def bmapAddr (d : Disk) (i k : Nat) : Disk × Nat :=
  if (d.inode i).addrs k ≠ 0 then (d, (d.inode i).addrs k)
  else
    match d.balloc with
    | (d, addr) => if addr = 0 then (d, 0) else (d.setAddr i k addr, addr)

/-- `a[j]` in the indirect block `b`, allocated if it is 0. -/
def bmapEntry (d : Disk) (b j : Nat) : Disk × Nat :=
  if (d.block b).uint j ≠ 0 then (d, (d.block b).uint j)
  else
    match d.balloc with
    | (d, addr) => if addr = 0 then (d, 0) else (d.setBlock b ((d.block b).setUint j addr), addr)

/-- `bmap`: the address of a block of an inode, 0 if there is none and the disk is full. -/
def bmap (d : Disk) (i bn : Nat) : DiskM (Disk × Nat) :=
  if bn < nDirect then .ok (d.bmapAddr i bn)
  else if bn - nDirect < nIndirect then
    match d.bmapAddr i nDirect with
    | (d, addr) => if addr = 0 then .ok (d, 0) else .ok (d.bmapEntry addr (bn - nDirect))
  else .error .bmap

/-- A turn of the first loop of `itrunc`. -/
def itruncDirect (i k : Nat) (d : Disk) : DiskM Disk :=
  if (d.inode i).addrs k ≠ 0 then do
    let d ← d.bfree ((d.inode i).addrs k)
    .ok (d.setAddr i k 0)
  else .ok d

/-- A turn of the second loop, over the entries of the indirect block `b`. -/
def itruncEntry (b j : Nat) (d : Disk) : DiskM Disk :=
  if (d.block b).uint j ≠ 0 then d.bfree ((d.block b).uint j) else .ok d

/-- The part of `itrunc` about the indirect block. -/
def itruncIndirect (i : Nat) (d : Disk) : DiskM Disk :=
  if (d.inode i).addrs nDirect ≠ 0 then do
    let b := (d.inode i).addrs nDirect
    let d ← forFrom (itruncEntry b) 0 nIndirect d
    let d ← d.bfree b
    .ok (d.setAddr i nDirect 0)
  else .ok d

/-- `itrunc`. -/
def itrunc (d : Disk) (i : Nat) : DiskM Disk := do
  let d ← forFrom (itruncDirect i) 0 nDirect d
  let d ← itruncIndirect i d
  .ok ((d.modInode i (fun ip => { ip with size := 0 })).iupdate i)

/-! ## The content of an inode -/

/-- The bytes that a turn of `readi` copies out: `none` if `bmap` fails. -/
def readiTurn (d : Disk) (i off m : Nat) : DiskM (Disk × Option (List Byte)) := do
  let (d, addr) ← d.bmap i (off / bSize)
  if addr = 0 then .ok (d, none)
  else .ok (d, some ((List.range m).map (fun k => d.block addr (off % bSize + k))))

/-- The loop of `readi`, `tot` bytes after its start. `copyout` says which of the copies succeed. -/
def readiLoop (i off n : Nat) (copyout : Nat → Bool) : Nat → Nat → List Byte → Disk → DiskM (Disk × Int × List Byte)
  | 0, tot, out, d => .ok (d, tot, out)
  | fuel + 1, tot, out, d =>
    if tot < n then do
      let m := min (n - tot) (bSize - (off + tot) % bSize)
      match ← d.readiTurn i (off + tot) m with
      | (d, none) => .ok (d, tot, out)
      | (d, some bytes) => if copyout tot then readiLoop i off n copyout fuel (tot + m) (out ++ bytes) d else .ok (d, -1, out)
    else .ok (d, tot, out)

/-- `readi`: what it returns, and the bytes that it has copied. -/
def readi (d : Disk) (i off n : Nat) (copyout : Nat → Bool) : DiskM (Disk × Int × List Byte) :=
  if (d.inode i).size < off ∨ (off + n) % 2 ^ 32 < off then .ok (d, 0, [])
  else
    let n := if (d.inode i).size < off + n then (d.inode i).size - off else n
    readiLoop i off n copyout n 0 [] d

/-- A turn of `writei`: whether it has written its bytes. `none` is a copy that fails. -/
def writeiTurn (d : Disk) (i off m : Nat) (src : Option (Nat → Byte)) : DiskM (Disk × Bool) := do
  let (d, addr) ← d.bmap i (off / bSize)
  if addr = 0 then .ok (d, false)
  else
    match src with
    | none => .ok (d, false)
    | some src => .ok (d.setBlock addr ((d.block addr).write (off % bSize) m src), true)

/-- The end of `writei`, at offset `off`. -/
def writeiEnd (d : Disk) (i off : Nat) : Disk := (d.modInode i (fun ip => { ip with size := max ip.size off })).iupdate i

/-- The loop of `writei`, `tot` bytes after its start. `copyin` gives the bytes of each copy. -/
def writeiLoop (i off n : Nat) (copyin : Nat → Option (Nat → Byte)) : Nat → Nat → Disk → DiskM (Disk × Nat)
  | 0, tot, d => .ok (d, tot)
  | fuel + 1, tot, d =>
    if tot < n then do
      let m := min (n - tot) (bSize - (off + tot) % bSize)
      match ← d.writeiTurn i (off + tot) m (copyin tot) with
      | (d, false) => .ok (d, tot)
      | (d, true) => writeiLoop i off n copyin fuel (tot + m) d
    else .ok (d, tot)

/-- `writei`: `none` is its -1. -/
def writei (d : Disk) (i off n : Nat) (copyin : Nat → Option (Nat → Byte)) : DiskM (Disk × Option Nat) :=
  if (d.inode i).size < off ∨ (off + n) % 2 ^ 32 < off then .ok (d, none)
  else if maxFile * bSize < off + n then .ok (d, none)
  else do
    let (d, tot) ← writeiLoop i off n copyin n 0 d
    .ok (d.writeiEnd i (off + tot), some tot)

/-! ## The inode table -/

/-- An inode is in `itable`, and read from disk. -/
def cached (d : Disk) (i : Nat) : Bool := 0 < d.ref i && d.valid i

/-- The entries of `itable` in use. -/
def active (d : Disk) : Nat := ((List.range d.ninodes).filter (fun i => 0 < d.ref i)).length

/-- `iget`. -/
def iget (d : Disk) (i : Nat) : DiskM Disk :=
  if 0 < d.ref i then .ok { d with ref := Function.update d.ref i (d.ref i + 1) }
  else if nInode ≤ d.active then .error .igetNoInodes
  else .ok { d with ref := Function.update d.ref i 1, valid := Function.update d.valid i false }

/-- `idup`. -/
def idup (d : Disk) (i : Nat) : Disk := { d with ref := Function.update d.ref i (d.ref i + 1) }

/-- `ilock`, without the sleep lock. -/
def ilock (d : Disk) (i : Nat) : DiskM Disk :=
  if d.ref i < 1 then .error .ilock
  else if d.valid i then .ok d
  else if (d.dinode i).type = .free then .error .ilockNoType
  else .ok { d with inode := Function.update d.inode i (d.dinode i), valid := Function.update d.valid i true }

/-- `ip->ref--`. -/
def dropRef (d : Disk) (i : Nat) : Disk := { d with ref := Function.update d.ref i (d.ref i - 1) }

/-- The inode is no longer read from disk. -/
def invalidate (d : Disk) (i : Nat) : Disk := { d with valid := Function.update d.valid i false }

/-- `iput`. -/
def iput (d : Disk) (i : Nat) : DiskM Disk :=
  if d.ref i = 1 ∧ d.valid i ∧ (d.inode i).nlink = 0 then do
    let d ← d.itrunc i
    .ok ((((d.modInode i (fun ip => { ip with type := .free })).iupdate i).invalidate i).dropRef i)
  else .ok (d.dropRef i)

/-- The first free inode at or after `i`, among `n` of them. -/
def firstFree (d : Disk) : Nat → Nat → Option Nat
  | _, 0 => none
  | i, n + 1 => if (d.dinode i).type = .free then some i else firstFree d (i + 1) n

/-- `ialloc`. -/
def ialloc (d : Disk) (type : FileType) : DiskM (Disk × Option Nat) :=
  match d.firstFree 1 (d.ninodes - 1) with
  | none => .ok (d, none)
  | some i => do
    let d ← (d.setDinode i { type, major := 0, minor := 0, nlink := 0, size := 0, addrs := fun _ => 0 }).iget i
    .ok (d, some i)

end Disk

/-! ## Runs -/

/-- A call, or a turn of the loop of one that others interrupt. -/
inductive DiskOp where
  | ialloc (type : FileType)
  | iget (i : Nat)
  | idup (i : Nat)
  | ilock (i : Nat)
  | iput (i : Nat)
  | itrunc (i : Nat)
  | readi (i off n : Nat) (copyout : Nat → Bool)
  | writei (i off n : Nat) (copyin : Nat → Option (Nat → Byte))
  /-- A change of the other fields of an inode, and `iupdate`. -/
  | update (i : Nat) (major minor nlink : Int)
  /-- The first half of `bmap`. -/
  | bmapAddr (i k : Nat)
  | readiTurn (i off m : Nat)
  | writeiTurn (i off m : Nat) (src : Option (Nat → Byte))
  | writeiEnd (i off : Nat)

namespace Disk

/-- The callers' duty: a reference to the inode, or its lock. -/
def Admits (d : Disk) : DiskOp → Prop
  | .ialloc _ | .iget _ => True
  | .idup i | .ilock i | .iput i => 0 < d.ref i
  | .itrunc i | .readi i _ _ _ | .writei i _ _ _ | .update i _ _ _ | .readiTurn i _ _ | .writeiTurn i _ _ _ | .writeiEnd i _ => d.cached i
  | .bmapAddr i k => d.cached i ∧ k ≤ nDirect

instance (d : Disk) : (op : DiskOp) → Decidable (d.Admits op)
  | .ialloc _ | .iget _ => inferInstanceAs (Decidable True)
  | .idup i | .ilock i | .iput i => inferInstanceAs (Decidable (0 < d.ref i))
  | .itrunc i | .readi i _ _ _ | .writei i _ _ _ | .update i _ _ _ | .readiTurn i _ _ | .writeiTurn i _ _ _ | .writeiEnd i _ =>
    inferInstanceAs (Decidable (d.cached i = true))
  | .bmapAddr i k => inferInstanceAs (Decidable (d.cached i = true ∧ k ≤ nDirect))

def exec (d : Disk) : DiskOp → DiskM Disk
  | .ialloc type => Prod.fst <$> d.ialloc type
  | .iget i => d.iget i
  | .idup i => .ok (d.idup i)
  | .ilock i => d.ilock i
  | .iput i => d.iput i
  | .itrunc i => d.itrunc i
  | .readi i off n copyout => Prod.fst <$> d.readi i off n copyout
  | .writei i off n copyin => Prod.fst <$> d.writei i off n copyin
  | .update i major minor nlink => .ok ((d.modInode i (fun ip => { ip with major, minor, nlink })).iupdate i)
  | .bmapAddr i k => .ok (d.bmapAddr i k).1
  | .readiTurn i off m => Prod.fst <$> d.readiTurn i off m
  | .writeiTurn i off m src => Prod.fst <$> d.writeiTurn i off m src
  | .writeiEnd i off => .ok (d.writeiEnd i off)

/-- One step: a call that its caller may make, and that does not panic. -/
def Step (d : Disk) (op : DiskOp) (d' : Disk) : Prop := d.Admits op ∧ d.exec op = .ok d'

/-- `Step` as a function. -/
def next (d : Disk) (op : DiskOp) : Option Disk := if d.Admits op then (d.exec op).toOption else none

theorem next_eq_some {d d' : Disk} {op : DiskOp} : d.next op = some d' ↔ d.Step op d' := by
  rw [next, Option.ite_none_right_eq_some]
  refine and_congr_right (fun _ => ?_)
  cases d.exec op with
  | error e => exact ⟨nofun, nofun⟩
  | ok e => exact ⟨fun h => congrArg Except.ok (Option.some.inj h), fun h => congrArg some (Except.ok.inj h)⟩

end Disk

/-! ## References -/

/-- The places of an inode that refer to a block. -/
inductive Slot where
  | direct (k : Nat)
  | indirect
  /-- An entry of the indirect block. -/
  | entry (j : Nat)
  deriving DecidableEq, Repr

namespace Disk

/-- What a place of an inode refers to. -/
def slot (d : Disk) (ip : Dinode) : Slot → Option Nat
  | .direct k => if k < nDirect ∧ ip.addrs k ≠ 0 then some (ip.addrs k) else none
  | .indirect => if ip.addrs nDirect ≠ 0 then some (ip.addrs nDirect) else none
  | .entry j =>
    if ip.addrs nDirect ≠ 0 ∧ j < nIndirect ∧ (d.block (ip.addrs nDirect)).uint j ≠ 0 then
      some ((d.block (ip.addrs nDirect)).uint j)
    else none

/-- An inode as `ilock` would present it. -/
def view (d : Disk) (i : Nat) : Dinode := if d.cached i then d.inode i else d.dinode i

/-- What the inodes refer to. -/
def holds (d : Disk) (x : Nat × Slot) : Option Nat := d.slot (d.view x.1) x.2

/-- What the inodes on disk refer to. -/
def holdsOnDisk (d : Disk) (x : Nat × Slot) : Option Nat := d.slot (d.dinode x.1) x.2

/-- An inode refers to a block. -/
def Owns (d : Disk) (i b : Nat) : Prop := ∃ s, d.holds (i, s) = some b

end Disk

end Xv6SnifferBakery.Kernel
