import Xv6SnifferBakery.Kernel.Sysfile
import Xv6SnifferBakery.Lib.Transition

/-!
# The system

The process table and the calls that work on it: `allocproc`, `freeproc`, `kfork`, `kexit`, `kwait`, `kkill`, `sys_sbrk`; and the
system as a step relation, one step for each page fault or system call. A system call runs to its end before another process
steps: what a process sees while it waits inside one is the subject of a module of its own.
-/

namespace Xv6SnifferBakery.Kernel

open Lib

/-- The machine with its process table. `held` are the pages that belong to neither a process nor the free list: kernel stacks,
the kernel's own page table, pipes, the argument pages of `sys_exec`. Slot 0 is `initproc`. -/
structure Sys where
  m : Machine
  proc : Nat → Proc
  nextpid : Int
  held : List Pa

namespace Sys

/-- Replace the machine and one process. -/
def put (s : Sys) (i : Nat) (m : Machine) (p : Proc) : Sys := { s with m := m, proc := Function.update s.proc i p }

/-- Change the process in a slot. -/
def modProc (s : Sys) (i : Nat) (f : Proc → Proc) : Sys := { s with proc := Function.update s.proc i (f (s.proc i)) }

@[simp] theorem put_m (s : Sys) (i : Nat) (m : Machine) (p : Proc) : (s.put i m p).m = m := rfl
@[simp] theorem put_held (s : Sys) (i : Nat) (m : Machine) (p : Proc) : (s.put i m p).held = s.held := rfl
@[simp] theorem put_nextpid (s : Sys) (i : Nat) (m : Machine) (p : Proc) : (s.put i m p).nextpid = s.nextpid := rfl
@[simp] theorem put_proc_self (s : Sys) (i : Nat) (m : Machine) (p : Proc) : (s.put i m p).proc i = p :=
  Function.update_self ..
theorem put_proc_of_ne (s : Sys) {i j : Nat} (m : Machine) (p : Proc) (h : j ≠ i) : (s.put i m p).proc j = s.proc j :=
  Function.update_of_ne h ..

end Sys

/-! ## Making and freeing processes -/

/-- The first process slot at or after `i`, among `n` of them, with a property. -/
def firstProc (f : Proc → Bool) (proc : Nat → Proc) : Nat → Nat → Option Nat
  | _, 0 => none
  | i, n + 1 => if f (proc i) then some i else firstProc f proc (i + 1) n

/-- What `freeproc` leaves of a process: an unused slot. The open files, the swap file and the image keep their values. -/
def Proc.freed (p : Proc) : Proc :=
  { p with
    trapframe := none, pagetable := PageTable.null, sz := 0, pid := 0, parent := none, name := [], killed := false,
    xstate := 0, state := .unused, pages := [], swapSlotsUsed := 0 }

/-- `freeproc`, called by a process whose `stack_top` is `stackTop`. -/
def freeproc (m : Machine) (p : Proc) (stackTop : Nat) : Kern (Machine × Proc) := do
  let m ← match p.trapframe with
    | none => .ok m
    | some pa => kfree m pa
  let m ← if p.pagetable.root.isSome then procFreepagetable m p.pagetable p.sz stackTop else .ok m
  .ok (m, p.freed)

/-- The paging fields `allocproc` initialises. -/
def Proc.initPaging (p : Proc) : Proc :=
  { p with
    textStart := 0, textEnd := 0, dataStart := 0, dataEnd := 0, heapStart := 0, stackTop := 0, nextFifoSeq := 1,
    swapFile := none, swapSlotsUsed := 0, swapBitmap := fun _ => false, pages := [], execInode := none, segments := [] }

/-- `allocproc` in the unused slot of `p`: a trapframe page and a table, or the slot is freed again. -/
def allocprocAt (m : Machine) (p : Proc) (pid : Int) (stackTop : Nat) : Kern (Machine × Proc × Bool) :=
  let p := { p with pid := pid, state := .used }
  match kalloc m with
  | none => do
    let (m, p) ← freeproc m { p with trapframe := none } stackTop
    .ok (m, p, false)
  | some (m, pa) => do
    let p := { p with trapframe := some pa }
    match ← procPagetable m pa with
    | (m, none) =>
      let (m, p) ← freeproc m { p with pagetable := PageTable.null } stackTop
      .ok (m, p, false)
    | (m, some pt) => .ok (m, { p with pagetable := pt }.initPaging, true)

/-- `allocproc`, called by a process whose `stack_top` is `stackTop`: the slot of the new process. -/
def allocproc (s : Sys) (stackTop : Nat) : Kern (Sys × Option Nat) :=
  match firstProc (fun p => p.state = .unused) s.proc 0 nProc with
  | none => .ok (s, none)
  | some j => do
    let (m, p, ok) ← allocprocAt s.m (s.proc j) s.nextpid stackTop
    .ok ({ s.put j m p with nextpid := wrap32 (s.nextpid + 1) }, if ok then some j else none)

/-- The entry of a page in the child of a fork: the child has no swap file, so a swapped page has to be loaded again. -/
def forkPage (e : PageInfo) : PageInfo :=
  { e with state := if e.state = .swapped then .unmapped else e.state, swapSlot := -1 }

/-- What `kfork` writes to the child `np`, whose table is now `pt`. -/
def Proc.forkFrom (np p : Proc) (parent : Nat) (pt : PageTable) : Proc :=
  { np with
    pagetable := pt
    sz := p.sz
    textStart := p.textStart
    textEnd := p.textEnd
    dataStart := p.dataStart
    dataEnd := p.dataEnd
    heapStart := p.heapStart
    stackTop := p.stackTop
    segments := p.segments
    execInode := if p.execInode.isSome then p.execInode else np.execInode
    pages := p.pages.map forkPage
    nextFifoSeq := p.nextFifoSeq
    tf := { p.tf with a0 := 0 }
    ofile := fun fd => if (p.ofile fd).isSome then p.ofile fd else np.ofile fd
    cwd := p.cwd
    name := p.name
    parent := some parent
    state := .runnable }

/-- `filedup` of a descriptor that is open. -/
def dupFd (ofile : Nat → Option Nat) (fd : Nat) (fs : Fs) : Kern Fs :=
  match ofile fd with
  | none => .ok fs
  | some f => filedup fs f

/-- The references a child takes: the executable, the open files, the current directory. -/
def forkRefs (fs : Fs) (p : Proc) : Kern Fs := do
  let fs := match p.execInode with
    | none => fs
    | some ip => idup fs ip
  let fs ← forFrom (dupFd p.ofile) 0 nOFile fs
  .ok (idup fs (p.cwd.getD 0))

/-- `kfork` of process `i`: the slot of the child, whose pid the source returns. -/
def kfork (s : Sys) (i : Nat) : Kern (Sys × Option Nat) := do
  let p := s.proc i
  match ← allocproc s p.stackTop with
  | (s, none) => .ok (s, none)
  | (s, some j) =>
    match ← uvmcopy s.m p.pagetable (s.proc j).pagetable p.sz with
    | (m, pt, false) =>
      let (m, np) ← freeproc m { s.proc j with pagetable := pt } p.stackTop
      .ok (s.put j m np, none)
    | (m, pt, true) =>
      let fs ← forkRefs m.fs p
      .ok (s.put j (m.withFs fs) ((s.proc j).forkFrom p i pt), some j)

/-! ## Exit and wait -/

/-- `fileclose` of a descriptor that is open. -/
def closeFd (ofile : Nat → Option Nat) (fd : Nat) (fs : Fs) : Kern Fs :=
  match ofile fd with
  | none => .ok fs
  | some f => fileclose fs f

/-- The deletion of the swap file in `kexit`, by name: the inode found gives up one link. The entry stays. -/
def removeSwapFile (fs : Fs) (cwd : Nat) (pid : Int) : Kern Fs := do
  match ← nameiparent fs cwd (swapname pid) with
  | (fs, none) => .ok fs
  | (fs, some (dp, name)) =>
    let fs ← ilock fs dp
    match ← dirlookup fs dp name with
    | (fs, none) => .ok (iput fs dp)
    | (fs, some (ip, _)) =>
      let fs ← ilock fs ip
      .ok (iput (iput (fs.modInode ip (fun x => { x with nlink := wrap16 (x.nlink - 1) })) ip) dp)

/-- The swap file part of `kexit`. -/
def exitSwap (fs : Fs) (p : Proc) : Kern Fs :=
  match p.swapFile with
  | none => .ok fs
  | some f => do
    let fs ← fileclose fs f
    removeSwapFile fs 0 p.pid

/-- What `kexit` does to the file system. -/
def exitFs (fs : Fs) (p : Proc) : Kern Fs := do
  let fs ← forFrom (closeFd p.ofile) 0 nOFile fs
  let fs := iput fs (p.cwd.getD 0)
  let fs ← exitSwap fs p
  .ok (match p.execInode with
    | none => fs
    | some ip => iput fs ip)

/-- `reparent`: the children of process `i` become children of `initproc`. -/
def reparent (i : Nat) (proc : Nat → Proc) : Nat → Proc :=
  fun j => if j < nProc ∧ (proc j).parent = some i then { proc j with parent := some 0 } else proc j

/-- What `kexit` leaves of the process. -/
def Proc.exited (p : Proc) (status : Int) : Proc :=
  { p with ofile := fun _ => none, cwd := none, swapFile := none, execInode := none, xstate := status, state := .zombie }

/-- `kexit` of process `i`. -/
def kexit (s : Sys) (i : Nat) (status : Int) : Kern Sys :=
  if i = 0 then .error .initExiting
  else do
    let fs ← exitFs s.m.fs (s.proc i)
    let s := { s with m := (s.m.reach [.beginOp]).withFs fs, proc := reparent i s.proc }
    .ok (s.modProc i (fun p => p.exited status))

/-- The bytes of an `int`. -/
def le32 (x : Int) : List Byte := (List.range 4).map (fun k => UInt8.ofNat ((x % 2 ^ 32).toNat / 256 ^ k))

/-- Whether a process is a child of process `i` that has exited. -/
def isZombieOf (i : Nat) (p : Proc) : Bool := p.parent = some i ∧ p.state = .zombie

/-- `kwait` of process `i` when child `j` has exited: its status to the user, its slot free. `wait_lock` and the child's lock are
held over the copy. -/
def waitChild (s : Sys) (i j addr : Nat) : Kern (Sys × Option Int) := do
  let pid := (s.proc j).pid
  let (m, p, ok) ←
    if addr = 0 then .ok (s.m.acquire.acquire, s.proc i, true)
    else copyout s.m.acquire.acquire (s.proc i) none addr (le32 (s.proc j).xstate)
  let s := s.put i m p
  if ok then
    let (m, np) ← freeproc s.m (s.proc j) p.stackTop
    .ok (s.put j m.release.release np, some pid)
  else .ok ({ s with m := s.m.release.release }, none)

/-- `kwait` of process `i`, up to the point where it returns or sleeps: the first child that has exited. -/
def kwait (s : Sys) (i addr : Nat) : Kern (Sys × Option Int) :=
  match firstProc (isZombieOf i) s.proc 0 nProc with
  | none => .ok (s, none)
  | some j => waitChild s i j addr

/-- `kkill`. -/
def kkill (s : Sys) (pid : Int) : Sys :=
  match firstProc (fun p => p.pid = pid) s.proc 0 nProc with
  | none => s
  | some j => s.modProc j (fun p => { p with killed := true, state := if p.state = .sleeping then .runnable else p.state })

/-! ## Memory size -/

/-- The size `n` bytes (an `int`) away from `sz`, as a `uint64`. -/
def addInt (sz : Nat) (n : Int) : Nat := ((sz + n) % 2 ^ 64).toNat

/-- `growproc`. -/
def growproc (m : Machine) (p : Proc) (n : Int) : Kern (Machine × Proc × Bool) :=
  if 0 < n then do
    match ← uvmalloc m p.pagetable p.stackTop p.sz (addInt p.sz n) with
    | (m, pt, none) => .ok (m, { p with pagetable := pt }, false)
    | (m, pt, some sz) => .ok (m, { p with pagetable := pt, sz := sz }, true)
  else if n < 0 then do
    let (m, pt, sz) ← uvmdealloc m p.pagetable p.stackTop p.sz (addInt p.sz n)
    .ok (m, { p with pagetable := pt, sz := sz }, true)
  else .ok (m, p, true)

/-- `sys_sbrk` of `n` (an `int`) bytes; `eager` is `t == SBRK_EAGER`. -/
def sysSbrk (m : Machine) (p : Proc) (n : Int) (eager : Bool) : Kern (Machine × Proc × Bool) :=
  if eager ∨ n < 0 then growproc m p n
  else if addInt p.sz n < p.sz then .ok (m, p, false)
  else .ok (m, { p with sz := addInt p.sz n }, true)

/-! ## Start -/

/-- `userinit`, and the first run of the process it makes: `forkret` executes `/init`. -/
def userinit (s : Sys) : Kern Sys := do
  match ← allocproc s 0 with
  | (_, none) => .error .kerneltrap
  | (s, some i) =>
    match ← namei s.m.fs 0 ['/'] with
    | (_, none) => .error .kerneltrap
    | (fs, some ip) =>
      let s := s.put i (s.m.withFs fs) { s.proc i with cwd := some ip, state := .runnable }
      match ← kexec s.m (s.proc i) "/init".toList ["/init".toList.map (fun c => UInt8.ofNat c.toNat)] with
      | (_, _, none) => .error .exec
      | (m, p, some _) => .ok (s.put i m p)

/-- A process slot as the zeroed `proc` array has it. -/
def Proc.zero : Proc :=
  { state := .unused, killed := false, xstate := 0, pid := 0, parent := none, sz := 0, pagetable := PageTable.null,
    trapframe := none, tf := ⟨0, 0, 0, 0⟩, ofile := fun _ => none, cwd := none, name := [], textStart := 0, textEnd := 0,
    dataStart := 0, dataEnd := 0, heapStart := 0, stackTop := 0, nextFifoSeq := 0, swapFile := none, swapSlotsUsed := 0,
    swapBitmap := fun _ => false, pages := [], execInode := none, segments := [] }

/-- `n` pages from `pa` on. -/
def pageRange (pa n : Nat) : List Pa := (List.range n).map (fun k => pa + k * pgSize)

/-- The physical pages the allocator manages: those between the end of the kernel and `physTop`. -/
def managed (kend : Pa) : List Pa := pageRange (pgRoundUp kend) ((physTop - pgRoundUp kend) / pgSize)

/-- The system when `main` calls `userinit`: no process, no file open, and every page either free or taken by the kernel. -/
structure PreBoot (s : Sys) : Prop where
  proc : ∀ i, s.proc i = Proc.zero
  pages : (s.m.freelist ++ s.held).Perm (managed s.m.kend)
  trampoline : s.m.trampoline < s.m.kend
  nextpid : s.nextpid = 1
  noff : s.m.noff = 0
  ref : ∀ i, s.m.fs.ref i = 0
  ftable : ∀ f, (s.m.fs.ftable f).ref = 0 ∧ (s.m.fs.ftable f).type = .none

/-- The system when the first process enters user mode. -/
def Boot (s : Sys) : Prop := ∃ s₀, PreBoot s₀ ∧ userinit s₀ = .ok s

/-! ## Steps -/

/-- What a step is. Every action but the last two is one of the process in slot `i`. -/
inductive Action where
  | store (i a : Nat) (b : Byte)
  | setSp (i sp : Nat)
  | fault (i a : Nat) (access : Access)
  | evict (i : Nat)
  | copyout (i dstva : Nat) (src : List Byte)
  | copyin (i srcva len : Nat)
  | sbrk (i : Nat) (n : Int) (eager : Bool)
  | fork (i : Nat)
  | exec (i : Nat) (path : List Char) (argv : List (List Byte))
  | exit (i : Nat) (status : Int)
  | wait (i addr : Nat)
  | kill (i : Nat) (pid : Int)
  | open (i : Nat) (path : List Char) (omode : Nat)
  | close (i fd : Nat)
  | dup (i fd : Nat)
  | mkdir (i : Nat) (path : List Char)
  | mknod (i : Nat) (path : List Char) (major minor : Int)
  | chdir (i : Nat) (path : List Char)
  | link (i : Nat) (old new : List Char)
  | unlink (i : Nat) (path : List Char)
  | kalloc
  | kfree (pa : Pa)

/-- The permission an access needs. -/
def Access.allowed : Access → Perm → Bool
  | .read => Perm.r
  | .write => Perm.w
  | .exec => Perm.x

/-- A process that exists and has not exited. -/
def Proc.live (p : Proc) : Prop := p.state = .sleeping ∨ p.state = .runnable ∨ p.state = .running

instance (p : Proc) : Decidable p.live := inferInstanceAs (Decidable (_ ∨ _))

/-- Slot `i` has a process that can go on: a killed one only exits. -/
def Sys.ready (s : Sys) (i : Nat) : Prop := i < nProc ∧ (s.proc i).live ∧ (s.proc i).killed = false

instance (s : Sys) (i : Nat) : Decidable (s.ready i) := inferInstanceAs (Decidable (_ ∧ _))

/-- A file system call of process `i` that changes nothing of the process. -/
def Sys.fsCall {α : Type} (s : Sys) (call : Fs → Nat → Kern (Fs × α)) (i : Nat) : Kern Sys := do
  let (fs, _) ← call s.m.fs ((s.proc i).cwd.getD 0)
  .ok { s with m := (s.m.reach [.beginOp]).withFs fs }

/-- A file system call of process `i` that changes its descriptors or its current directory. -/
def Sys.fileCall {α : Type} (s : Sys) (call : Fs → Proc → Kern (Fs × Proc × α)) (i : Nat) : Kern Sys := do
  let (fs, p, _) ← call s.m.fs (s.proc i)
  .ok (s.put i ((s.m.reach [.beginOp]).withFs fs) p)

/-- A call of process `i` that works on its memory. -/
def Sys.memCall {α : Type} (s : Sys) (call : Machine → Proc → Kern (Machine × Proc × α)) (i : Nat) : Kern Sys := do
  let (m, p, _) ← call s.m (s.proc i)
  .ok (s.put i m p)

/-- Whether an action can happen: the process is there and has not been killed, a fault only comes from an access that the page
table refuses, and the arguments of `exec` are those `sys_exec` accepts, each in a page of its own. -/
def enabled (s : Sys) : Action → Prop
  | .store i a _ => s.ready i ∧ (translate (s.proc i).pagetable a Perm.w).isSome
  | .fault i a access => s.ready i ∧ translate (s.proc i).pagetable a access.allowed = none
  | .exit i _ => i < nProc ∧ (s.proc i).live
  | .exec i _ argv => s.ready i ∧ argv.length < maxArg ∧ ∀ arg ∈ argv, arg.length < pgSize
  | .setSp i _ | .evict i | .copyout i _ _ | .copyin i _ _ | .sbrk i _ _ | .fork i | .wait i _ | .kill i _
  | .open i _ _ | .close i _ | .dup i _ | .mkdir i _ | .mknod i _ _ _ | .chdir i _ | .link i _ _ | .unlink i _ => s.ready i
  | .kalloc => s.m.freelist ≠ []
  | .kfree pa => pa ∈ s.held

instance (s : Sys) : (a : Action) → Decidable (enabled s a)
  | .store _ _ _ | .fault _ _ _ | .exit _ _ => inferInstanceAs (Decidable (_ ∧ _))
  | .exec _ _ _ => inferInstanceAs (Decidable (_ ∧ _ ∧ _))
  | .setSp i _ | .evict i | .copyout i _ _ | .copyin i _ _ | .sbrk i _ _ | .fork i | .wait i _ | .kill i _
  | .open i _ _ | .close i _ | .dup i _ | .mkdir i _ | .mknod i _ _ _ | .chdir i _ | .link i _ _ | .unlink i _ =>
    inferInstanceAs (Decidable (s.ready i))
  | .kalloc => inferInstanceAs (Decidable (_ ≠ _))
  | .kfree _ => inferInstanceAs (Decidable (_ ∈ _))

/-- What an action does. -/
def perform (s : Sys) : Action → Kern Sys
  | .store i a b => .ok { s with m := (userStore s.m (s.proc i) a b).getD s.m }
  | .setSp i sp => .ok (s.modProc i (fun p => { p with tf := { p.tf with sp := sp } }))
  | .fault i a access => s.memCall (fun m p => handlePageFault m p a access true) i
  | .evict i => s.memCall evictPageFifo i
  | .copyout i dstva src => s.memCall (fun m p => Kernel.copyout m p none dstva src) i
  | .copyin i srcva len => s.memCall (fun m p => Kernel.copyin m p srcva len) i
  | .sbrk i n eager => s.memCall (fun m p => sysSbrk m p (wrap32 n) eager) i
  | .fork i => do
    let (s, _) ← kfork s i
    .ok s
  | .exec i path argv => s.memCall (fun m p => kexec m p path argv) i
  | .exit i status => kexit s i status
  | .wait i addr => do
    let (s, _) ← kwait s i addr
    .ok s
  | .kill _ pid => .ok (kkill s pid)
  | .open i path omode => s.fileCall (fun fs p => sysOpen fs p path omode) i
  | .close i fd => s.fileCall (fun fs p => sysClose fs p fd) i
  | .dup i fd => s.fileCall (fun fs p => sysDup fs p fd) i
  | .mkdir i path => s.fsCall (fun fs cwd => sysMkdir fs cwd path) i
  | .mknod i path major minor => s.fsCall (fun fs cwd => sysMknod fs cwd path major minor) i
  | .chdir i path => s.fileCall (fun fs p => sysChdir fs p path) i
  | .link i old new => s.fsCall (fun fs cwd => sysLink fs cwd old new) i
  | .unlink i path => s.fsCall (fun fs cwd => sysUnlink fs cwd path) i
  | .kalloc =>
    match Kernel.kalloc s.m with
    | none => .ok s
    | some (m, pa) => .ok { s with m := m, held := pa :: s.held }
  | .kfree pa => do
    let m ← Kernel.kfree s.m pa
    .ok { s with m := m, held := s.held.erase pa }

/-- One step of the system. A panic is not a step. -/
def Step (s : Sys) (a : Action) (t : Sys) : Prop := enabled s a ∧ perform s a = .ok t

end Xv6SnifferBakery.Kernel
