import Xv6SnifferBakery.Kernel.Exec

/-!
# System calls on files

The calls of `sysfile.c` that open, close and create files: they decide which inodes and files a process holds. `sys_link` and
`sys_unlink` are with the directories.
-/

namespace Xv6SnifferBakery.Kernel

def nDev : Nat := 10
def oWronly : Nat := 1
def oRdwr : Nat := 2
def oCreate : Nat := 0x200
def oTrunc : Nat := 0x400

/-- The first free descriptor at or after `fd`, among `n` of them. -/
def firstFd (ofile : Nat → Option Nat) : Nat → Nat → Option Nat
  | _, 0 => none
  | fd, n + 1 => if (ofile fd).isNone then some fd else firstFd ofile (fd + 1) n

/-- `fdalloc`: a descriptor for file `f`. -/
def fdalloc (p : Proc) (f : Nat) : Option (Proc × Nat) :=
  match firstFd p.ofile 0 nOFile with
  | none => none
  | some fd => some ({ p with ofile := Function.update p.ofile fd (some f) }, fd)

/-- `argfd`: the file of a descriptor. -/
def argfd (p : Proc) (fd : Nat) : Option Nat := if fd < nOFile then p.ofile fd else none

/-- `sys_dup`. -/
def sysDup (fs : Fs) (p : Proc) (fd : Nat) : Kern (Fs × Proc × Option Nat) :=
  match argfd p fd with
  | none => .ok (fs, p, none)
  | some f =>
    match fdalloc p f with
    | none => .ok (fs, p, none)
    | some (p, new) => do
      let fs ← filedup fs f
      .ok (fs, p, some new)

/-- `sys_close`. -/
def sysClose (fs : Fs) (p : Proc) (fd : Nat) : Kern (Fs × Proc × Bool) :=
  match argfd p fd with
  | none => .ok (fs, p, false)
  | some f => do
    let fs ← fileclose fs f
    .ok (fs, { p with ofile := Function.update p.ofile fd none }, true)

/-- The inode `sys_open` is about: created, or found and not a directory unless it is opened for reading. -/
def openInode (fs : Fs) (cwd : Nat) (path : List Char) (omode : Nat) : Kern (Fs × Option Nat) :=
  if omode / oCreate % 2 = 1 then create fs cwd path .file 0 0
  else do
    match ← namei fs cwd path with
    | (fs, none) => .ok (fs, none)
    | (fs, some ip) =>
      let fs ← ilock fs ip
      if (fs.inode ip).type = .dir ∧ omode ≠ 0 then .ok (iput fs ip, none) else .ok (fs, some ip)

/-- The file `sys_open` fills in for inode `ip`. -/
def openFile (ip : Inode) (i omode : Nat) (old : File) : File :=
  { old with
    type := if ip.type = .device then .device else .inode
    off := if ip.type = .device then old.off else 0
    ip := i
    readable := omode / oWronly % 2 = 0
    writable := omode / oWronly % 2 = 1 ∨ omode / oRdwr % 2 = 1 }

/-- `sys_open`. -/
def sysOpen (fs : Fs) (p : Proc) (path : List Char) (omode : Nat) : Kern (Fs × Proc × Option Nat) := do
  match ← openInode fs (p.cwd.getD 0) path omode with
  | (fs, none) => .ok (fs, p, none)
  | (fs, some ip) =>
    let dip := fs.inode ip
    if dip.type = .device ∧ (dip.major < 0 ∨ (nDev : Int) ≤ dip.major) then .ok (iput fs ip, p, none)
    else
      match filealloc fs with
      | (fs, none) => .ok (iput fs ip, p, none)
      | (fs, some f) =>
        match fdalloc p f with
        | none => do
          let fs ← fileclose fs f
          .ok (iput fs ip, p, none)
        | some (p, fd) =>
          let fs := { fs with ftable := Function.update fs.ftable f (openFile dip ip omode (fs.ftable f)) }
          .ok (if omode / oTrunc % 2 = 1 ∧ dip.type = .file then itrunc fs ip else fs, p, some fd)

/-- `create` for a caller that keeps no reference: `sys_mkdir` and `sys_mknod`. -/
def createPut (fs : Fs) (cwd : Nat) (path : List Char) (type : FileType) (major minor : Int) : Kern (Fs × Bool) := do
  match ← create fs cwd path type major minor with
  | (fs, none) => .ok (fs, false)
  | (fs, some ip) => .ok (iput fs ip, true)

/-- `sys_mkdir`. -/
def sysMkdir (fs : Fs) (cwd : Nat) (path : List Char) : Kern (Fs × Bool) := createPut fs cwd path .dir 0 0

/-- `sys_mknod`. -/
def sysMknod (fs : Fs) (cwd : Nat) (path : List Char) (major minor : Int) : Kern (Fs × Bool) :=
  createPut fs cwd path .device major minor

/-- `sys_chdir`. -/
def sysChdir (fs : Fs) (p : Proc) (path : List Char) : Kern (Fs × Proc × Bool) := do
  match ← namei fs (p.cwd.getD 0) path with
  | (fs, none) => .ok (fs, p, false)
  | (fs, some ip) =>
    let fs ← ilock fs ip
    if (fs.inode ip).type ≠ .dir then .ok (iput fs ip, p, false)
    else .ok (iput fs (p.cwd.getD 0), { p with cwd := some ip }, true)

end Xv6SnifferBakery.Kernel
