import Xv6SnifferBakery.Kernel.Copy

/-!
# `exec`

`kexec`: the scan of the program headers, which loads nothing and records the segments, the guard page and the one stack page that
are mapped at once, the arguments, and the commit. Each exit of the source to `bad` is an exit here, with what it has written to
the process by then.
-/

namespace Xv6SnifferBakery.Kernel

/-- A little-endian number of `n` bytes. -/
def leNat (data : Nat → Byte) : Nat → Nat → Nat
  | _, 0 => 0
  | off, n + 1 => (data off).toNat + 256 * leNat data (off + 1) n

/-- The bytes of a `uint64`. -/
def le64 (x : Nat) : List Byte := (List.range 8).map (fun k => UInt8.ofNat (x / 256 ^ k))

/-- The fields of `struct elfhdr` that `kexec` uses. -/
structure ElfHdr where
  magic : Nat
  entry : Nat
  phoff : Nat
  phnum : Nat

/-- `struct proghdr`, without the fields nobody reads. -/
structure ProgHdr where
  type : Nat
  flags : Nat
  off : Nat
  vaddr : Nat
  filesz : Nat
  memsz : Nat
  deriving DecidableEq

def elfMagic : Nat := 0x464C457F
def elfHdrSize : Nat := 64
def progHdrSize : Nat := 56
def elfProgLoad : Nat := 1

def elfHdr (data : Nat → Byte) : ElfHdr :=
  { magic := leNat data 0 4, entry := leNat data 24 8, phoff := leNat data 32 8, phnum := leNat data 56 2 }

def progHdr (data : Nat → Byte) (off : Nat) : ProgHdr :=
  { type := leNat data off 4, flags := leNat data (off + 4) 4, off := leNat data (off + 8) 8,
    vaddr := leNat data (off + 16) 8, filesz := leNat data (off + 32) 8, memsz := leNat data (off + 40) 8 }

/-- What the scan of the program headers accumulates. `segs` is what it has written to `p->segments` so far. -/
structure Scan where
  segs : List SegmentInfo
  textStart : Nat
  textEnd : Nat
  dataStart : Nat
  dataEnd : Nat
  foundText : Bool
  foundData : Bool
  sz : Nat

def Scan.init : Scan := ⟨[], 0, 0, 0, 0, false, false, 0⟩

/-- A segment that is executable and not writable counts as text, any other as data. -/
def ProgHdr.isText (ph : ProgHdr) : Bool := ph.flags % 2 = 1 && ph.flags / 2 % 2 = 0

def ProgHdr.vend (ph : ProgHdr) : Nat := add64 ph.vaddr ph.memsz

def ProgHdr.segment (ph : ProgHdr) : SegmentInfo := ⟨ph.vaddr, ph.vend, ph.off, ph.filesz, ph.flags⟩

/-- The update of the scan for a segment that passed the checks. -/
def Scan.add (st : Scan) (ph : ProgHdr) : Scan :=
  { segs := if st.segs.length < maxSegments then st.segs ++ [ph.segment] else st.segs
    textStart := if ph.isText ∧ ¬st.foundText then ph.vaddr else st.textStart
    textEnd := if ph.isText then ph.vend else st.textEnd
    dataStart := if ¬ph.isText ∧ ¬st.foundData then ph.vaddr else st.dataStart
    dataEnd := if ph.isText then st.dataEnd else ph.vend
    foundText := st.foundText || ph.isText
    foundData := st.foundData || !ph.isText
    sz := if st.sz < ph.vend then ph.vend else st.sz }

/-- The checks of a loadable segment. -/
def ProgHdr.ok (ph : ProgHdr) : Prop := ph.filesz ≤ ph.memsz ∧ ph.vaddr ≤ ph.vend ∧ ph.vaddr % pgSize = 0

instance (ph : ProgHdr) : Decidable ph.ok := inferInstanceAs (Decidable (_ ∧ _ ∧ _))

/-- The loop over the program headers, at offset `off` (an `int`) of the file, `n` of them to go: the scan as it stands at the
end or at the header that is refused, and whether all were accepted. -/
def scanLoop (ip : Inode) : Nat → Nat → Scan → Scan × Bool
  | 0, _, st => (st, true)
  | n + 1, off, st =>
    if readi ip off progHdrSize ≠ progHdrSize then (st, false)
    else
      let ph := progHdr ip.data off
      if ph.type ≠ elfProgLoad then scanLoop ip n ((off + progHdrSize) % 2 ^ 32) st
      else if ph.ok then scanLoop ip n ((off + progHdrSize) % 2 ^ 32) (st.add ph)
      else (st, false)

/-- The scan of a file's program headers. -/
def scanFile (ip : Inode) : Scan × Bool := scanLoop ip (elfHdr ip.data).phnum ((elfHdr ip.data).phoff % 2 ^ 32) Scan.init

/-- Whether a file begins with an ELF header. -/
def isElf (ip : Inode) : Prop := readi ip 0 elfHdrSize = elfHdrSize ∧ (elfHdr ip.data).magic = elfMagic

instance (ip : Inode) : Decidable (isElf ip) := inferInstanceAs (Decidable (_ ∧ _))

/-- The top of the stack of an image whose segments end at `sz`: the guard page and the stack lie above the segments. -/
def imageTop (sz : Nat) : Nat := add64 (pgRoundUp sz) ((userStack + 1) * pgSize)

/-- The guard page and the first stack page of a new image whose stack ends at `sz`: whether both could be mapped. -/
def execStack (m : Machine) (pt : PageTable) (sz : Nat) : Kern (Machine × PageTable × Bool) :=
  match kalloc m with
  | none => .ok (m, pt, false)
  | some (m, guardMem) => do
    match ← mappages (m.fill guardMem (fun _ => 0)) pt (guardBase sz) pgSize guardMem ⟨true, true, false, false⟩ with
    | (m, pt, false) =>
      let m ← kfree m guardMem
      .ok (m, pt, false)
    | (m, pt, true) =>
      let pt ← uvmclear pt (guardBase sz)
      match kalloc m with
      | none => .ok (m, pt, false)
      | some (m, stackMem) =>
        let page := pgRoundDown (sub64 sz pgSize)
        match ← mappages (m.fill stackMem (fun _ => 0)) pt page pgSize stackMem ⟨true, true, false, true⟩ with
        | (m, pt, false) =>
          let m ← kfree m stackMem
          .ok (m, pt, false)
        | (m, pt, true) => .ok (m, pt, true)

/-- `sp -= n; sp -= sp % 16`. -/
def pushDown (sp n : Nat) : Nat := sub64 (sub64 sp n) (sub64 sp n % 16)

/-- The loop that copies the argument strings: the stack pointer and `ustack`, or nothing when an argument does not fit. -/
def pushArgs (table : PageTable) (base : Nat) :
    List (List Byte) → Machine → Proc → Nat → List Nat → Kern (Machine × Proc × Option (Nat × List Nat))
  | [], m, p, sp, ustack => .ok (m, p, some (sp, ustack))
  | s :: rest, m, p, sp, ustack =>
    if maxArg ≤ ustack.length then .ok (m, p, none)
    else
      let sp := pushDown sp (s.length + 1)
      if sp < base then .ok (m, p, none)
      else do
        match ← copyout m p (some table) sp (s ++ [0]) with
        | (m, p, false) => .ok (m, p, none)
        | (m, p, true) => pushArgs table base rest m p sp (ustack ++ [sp])

/-- The strings, and then `ustack` with its null pointer: the final stack pointer and `argc`. -/
def pushBlock (table : PageTable) (base : Nat) (argv : List (List Byte)) (m : Machine) (p : Proc) (sp : Nat) :
    Kern (Machine × Proc × Option (Nat × Nat)) := do
  match ← pushArgs table base argv m p sp [] with
  | (m, p, none) => .ok (m, p, none)
  | (m, p, some (sp, ustack)) =>
    let sp := pushDown sp ((ustack.length + 1) * 8)
    if sp < base then .ok (m, p, none)
    else
      match ← copyout m p (some table) sp ((ustack ++ [0]).flatMap le64) with
      | (m, p, false) => .ok (m, p, none)
      | (m, p, true) => .ok (m, p, some (sp, ustack.length))

/-- The last element of a path, cut to the 15 characters `p->name` has room for. -/
def progName (path : List Char) : List Char := ((path.reverse.takeWhile (· ≠ '/')).reverse).take 15

/-- The process once the new image is in place: everything `kexec` writes after its commit point. -/
def Proc.commit (p : Proc) (path : List Char) (st : Scan) (entry : Nat) (pt : PageTable) (sp : Nat) : Proc :=
  let sz := imageTop st.sz
  let p := { p with
    tf := { p.tf with a1 := sp, epc := entry, sp := sp }
    name := progName path
    pagetable := pt
    sz := sz
    textStart := st.textStart
    textEnd := st.textEnd
    dataStart := st.dataStart
    dataEnd := st.dataEnd
    heapStart := pgRoundUp st.sz
    stackTop := sz
    pages := []
    nextFifoSeq := 1 }
  match addPageInfo p (sub64 sz pgSize) with
  | none => p
  | some (p, i) =>
    { p.modPage i (fun e => { e with state := .resident, seq := 1, isDirty := false }) with nextFifoSeq := 2 }

/-- The part of `kexec` after the inode is released: stack, arguments, commit. -/
def execImage (m : Machine) (p : Proc) (path : List Char) (argv : List (List Byte)) (st : Scan) (entry : Nat)
    (pt : PageTable) : Kern (Machine × Proc × Option Nat) := do
  let sz := imageTop st.sz
  match ← execStack m pt sz with
  | (m, pt, false) =>
    let m ← procFreepagetable m pt sz p.stackTop
    .ok (m, p, none)
  | (m, pt, true) =>
    match ← pushBlock pt (stackBase sz) argv m p sz with
    | (m, p, none) =>
      let m ← procFreepagetable m pt sz p.stackTop
      .ok (m, p, none)
    | (m, p, some (sp, argc)) =>
      let m ← procFreepagetable m p.pagetable p.sz sz
      .ok (m, p.commit path st entry pt sp, some argc)

/-- `kexec` of an ELF file, inode `ip`, with the new table `pt`. -/
def execLoad (m : Machine) (p : Proc) (path : List Char) (argv : List (List Byte)) (ip : Nat) (pt : PageTable) :
    Kern (Machine × Proc × Option Nat) :=
  let dip := m.fs.inode ip
  let (st, good) := scanFile dip
  let p := { p with segments := st.segs }
  if good then
    -- the reference of `namei` is given up, that of `idup` stays with the process
    let m := m.withFs (iput (idup m.fs ip) ip)
    execImage m { p with execInode := some ip } path argv st (elfHdr dip.data).entry pt
  else do
    let m ← procFreepagetable m pt st.sz p.stackTop
    .ok (m.withFs (iput m.fs ip), p, none)

/-- `kexec`: `argc`, or nothing for the source's -1. -/
def kexec (m : Machine) (p : Proc) (path : List Char) (argv : List (List Byte)) : Kern (Machine × Proc × Option Nat) := do
  let m := m.reach [.beginOp]
  match ← namei m.fs (p.cwd.getD 0) path with
  | (fs, none) => .ok (m.withFs fs, p, none)
  | (fs, some ip) =>
    let fs ← ilock fs ip
    let m := (m.withFs fs).reach [.ilock, .diskRead]
    if ¬isElf (fs.inode ip) then .ok (m.withFs (iput fs ip), p, none)
    else
      match ← procPagetable m (p.trapframe.getD 0) with
      | (m, none) => .ok (m.withFs (iput m.fs ip), p, none)
      | (m, some pt) => execLoad m p path argv ip pt

/-- `exec` from user mode: `syscall` puts what `sys_exec` returns, a `uint64`, into `a0`. -/
def execSyscall (m : Machine) (p : Proc) (path : List Char) (argv : List (List Byte)) : Kern (Machine × Proc × Bool) := do
  let (m, p, argc) ← kexec m p path argv
  .ok (m, { p with tf := { p.tf with a0 := argc.getD (2 ^ 64 - 1) } }, argc.isSome)

end Xv6SnifferBakery.Kernel
