import Xv6SnifferBakery.Kernel.Fs.Inode

/-!
# Directories, paths, and the calls that change names

`dirlookup`, `dirlink` and `namex` of `fs.c`, and `create`, `sys_link` and `sys_unlink` of `sysfile.c`. A path is its characters,
without the terminating NUL.
-/

namespace Xv6SnifferBakery.Kernel

/-! ## Directories -/

/-- The offset, in entries, of the first entry with a given name. -/
def entIndex (ents : List Dirent) (name : Name) : Option Nat :=
  ents.findIdx? (fun de => de.inum ≠ 0 ∧ de.name = name)

/-- `dirlookup`: a reference to the inode the directory gives for a name, with the offset of the entry. -/
def dirlookup (fs : Fs) (dp : Nat) (name : Name) : Kern (Fs × Option (Nat × Nat)) :=
  if (fs.inode dp).type ≠ .dir then .error .dirlookupNotDir
  else
    match entIndex (fs.inode dp).ents name with
    | none => .ok (fs, none)
    | some k => do
      let inum := ((fs.inode dp).ents.getD k ⟨0, []⟩).inum
      let fs ← iget fs inum
      .ok (fs, some (inum, k))

/-- `writei` of one entry at offset `k`, an offset of an entry or the end of the directory: whether it was written. -/
def writeDirent (fs : Fs) (dp k : Nat) (de : Dirent) : Kern (Fs × Bool) :=
  if maxFile * bSize < 16 * k + 16 then .ok (fs, false)
  else do
    let (fs, got) ← bmap fs dp (16 * k / bSize)
    if got then
      .ok (fs.modInode dp (fun ip =>
        { ip with
          ents := if k < ip.ents.length then ip.ents.set k de else ip.ents ++ [de]
          size := max ip.size (16 * k + 16) }), true)
    else .ok (fs, false)

/-- `dirlink`: a new entry, at the first empty one or at the end. The inode number is stored as a `ushort`, the name cut to
`dirSiz` characters by `strncpy`. -/
def dirlink (fs : Fs) (dp : Nat) (name : Name) (inum : Nat) : Kern (Fs × Bool) := do
  match ← dirlookup fs dp name with
  | (fs, some (i, _)) => .ok (iput fs i, false)
  | (fs, none) =>
    let ents := (fs.inode dp).ents
    let k := (ents.findIdx? (fun de => de.inum = 0)).getD ents.length
    writeDirent fs dp k ⟨inum % 2 ^ 16, name.take dirSiz⟩

/-! ## Paths -/

/-- `skipelem`: the first element of a path, cut to `dirSiz` characters, and the path after it. -/
def skipelem (path : List Char) : Option (Name × List Char) :=
  match path.dropWhile (· = '/') with
  | [] => none
  | c :: cs =>
    let rest := (c :: cs).dropWhile (· ≠ '/')
    some (((c :: cs).takeWhile (· ≠ '/')).take dirSiz, rest.dropWhile (· = '/'))

/-- The loop of `namex`, holding a reference to inode `ip`. With `parent` it stops one element early and returns the last
element. Every pass takes an element off the path, so as many passes as it has characters, and one more, are enough. -/
def namexLoop (parent : Bool) : Nat → Fs → Nat → List Char → Name → Kern (Fs × Option (Nat × Name))
  | 0, fs, ip, _, _ => .ok (iput fs ip, none)
  | fuel + 1, fs, ip, path, last =>
    match skipelem path with
    | none => if parent then .ok (iput fs ip, none) else .ok (fs, some (ip, last))
    | some (name, path) => do
      let fs ← ilock fs ip
      if (fs.inode ip).type ≠ .dir then .ok (iput fs ip, none)
      else if parent ∧ path = [] then .ok (fs, some (ip, name))
      else
        match ← dirlookup fs ip name with
        | (fs, none) => .ok (iput fs ip, none)
        | (fs, some (next, _)) => namexLoop parent fuel (iput fs ip) next path name

/-- `namex`: walk a path from the root or from the current directory `cwd`. -/
def namex (fs : Fs) (cwd : Nat) (path : List Char) (parent : Bool) : Kern (Fs × Option (Nat × Name)) :=
  if path.head? = some '/' then do
    let fs ← iget fs rootIno
    namexLoop parent (path.length + 1) fs rootIno path []
  else namexLoop parent (path.length + 1) (idup fs cwd) cwd path []

/-- `namei`. -/
def namei (fs : Fs) (cwd : Nat) (path : List Char) : Kern (Fs × Option Nat) := do
  let (fs, r) ← namex fs cwd path false
  .ok (fs, r.map (·.1))

/-- `nameiparent`. -/
def nameiparent (fs : Fs) (cwd : Nat) (path : List Char) : Kern (Fs × Option (Nat × Name)) := namex fs cwd path true

/-! ## Creating, linking and unlinking -/

/-- The `fail` exit of `create`: the new inode `ip` gives its link up and is freed. -/
def createFail (fs : Fs) (dp ip : Nat) : Fs :=
  iput (iput (fs.modInode ip (fun x => { x with nlink := 0 })) ip) dp

/-- `create` after `ialloc` gave inode `ip`: initialise it and link it. -/
def createLink (fs : Fs) (dp ip : Nat) (name : Name) (type : FileType) (major minor : Int) : Kern (Fs × Option Nat) := do
  let fs ← ilock fs ip
  let fs := fs.modInode ip (fun x => { x with major := wrap16 major, minor := wrap16 minor, nlink := 1 })
  if type = .dir then
    match ← dirlink fs ip ['.'] ip with
    | (fs, false) => .ok (createFail fs dp ip, none)
    | (fs, true) =>
      match ← dirlink fs ip ['.', '.'] dp with
      | (fs, false) => .ok (createFail fs dp ip, none)
      | (fs, true) =>
        match ← dirlink fs dp name ip with
        | (fs, false) => .ok (createFail fs dp ip, none)
        | (fs, true) => .ok (iput (fs.modInode dp (fun x => { x with nlink := wrap16 (x.nlink + 1) })) dp, some ip)
  else
    match ← dirlink fs dp name ip with
    | (fs, false) => .ok (createFail fs dp ip, none)
    | (fs, true) => .ok (iput fs dp, some ip)

/-- `create`: the inode a path names, made when there is none, with the reference to it. An existing file or device is returned
for a file; anything else that exists is refused. -/
def create (fs : Fs) (cwd : Nat) (path : List Char) (type : FileType) (major minor : Int) : Kern (Fs × Option Nat) := do
  match ← nameiparent fs cwd path with
  | (fs, none) => .ok (fs, none)
  | (fs, some (dp, name)) =>
    let fs ← ilock fs dp
    match ← dirlookup fs dp name with
    | (fs, some (ip, _)) =>
      let fs ← ilock (iput fs dp) ip
      if type = .file ∧ ((fs.inode ip).type = .file ∨ (fs.inode ip).type = .device) then .ok (fs, some ip)
      else .ok (iput fs ip, none)
    | (fs, none) =>
      match ← ialloc fs type with
      | (fs, none) => .ok (iput fs dp, none)
      | (fs, some ip) => createLink fs dp ip name type major minor

/-- The `bad` exit of `sys_link`: take the link back. -/
def linkBad (fs : Fs) (ip : Nat) : Kern (Fs × Bool) := do
  let fs ← ilock fs ip
  .ok (iput (fs.modInode ip (fun x => { x with nlink := wrap16 (x.nlink - 1) })) ip, false)

/-- `sys_link`: the path `new` for the inode of `old`. There is one device, so `dp->dev` is always `ip->dev`. -/
def sysLink (fs : Fs) (cwd : Nat) (old new : List Char) : Kern (Fs × Bool) := do
  match ← namei fs cwd old with
  | (fs, none) => .ok (fs, false)
  | (fs, some ip) =>
    let fs ← ilock fs ip
    if (fs.inode ip).type = .dir then .ok (iput fs ip, false)
    else
      let fs := fs.modInode ip (fun x => { x with nlink := wrap16 (x.nlink + 1) })
      match ← nameiparent fs cwd new with
      | (fs, none) => linkBad fs ip
      | (fs, some (dp, name)) =>
        let fs ← ilock fs dp
        match ← dirlink fs dp name ip with
        | (fs, false) => linkBad (iput fs dp) ip
        | (fs, true) => .ok (iput (iput fs dp) ip, true)

/-- `isdirempty`: only the first two entries, `.` and `..`, may be in use. -/
def isdirempty (ents : List Dirent) : Bool := (ents.drop 2).all (fun de => de.inum = 0)

/-- `sys_unlink` once the entry of `ip` at offset `k` of `dp` is known and may go. -/
def unlinkEntry (fs : Fs) (dp ip k : Nat) : Kern (Fs × Bool) := do
  match ← writeDirent fs dp k ⟨0, []⟩ with
  | (_, false) => .error .unlinkWritei
  | (fs, true) =>
    let fs := if (fs.inode ip).type = .dir then fs.modInode dp (fun x => { x with nlink := wrap16 (x.nlink - 1) }) else fs
    let fs := iput fs dp
    .ok (iput (fs.modInode ip (fun x => { x with nlink := wrap16 (x.nlink - 1) })) ip, true)

/-- `sys_unlink`. -/
def sysUnlink (fs : Fs) (cwd : Nat) (path : List Char) : Kern (Fs × Bool) := do
  match ← nameiparent fs cwd path with
  | (fs, none) => .ok (fs, false)
  | (fs, some (dp, name)) =>
    let fs ← ilock fs dp
    if name = ['.'] ∨ name = ['.', '.'] then .ok (iput fs dp, false)
    else
      match ← dirlookup fs dp name with
      | (fs, none) => .ok (iput fs dp, false)
      | (fs, some (ip, k)) =>
        let fs ← ilock fs ip
        if (fs.inode ip).nlink < 1 then .error .unlinkNlink
        else if (fs.inode ip).type = .dir ∧ !isdirempty (fs.inode ip).ents then .ok (iput (iput fs ip) dp, false)
        else unlinkEntry fs dp ip k

end Xv6SnifferBakery.Kernel
