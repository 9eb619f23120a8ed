import Xv6SnifferBakery.Kernel.System

/-!
# `memstat`

`sys_memstat` of `sysproc.c`. The answer is built in a structure on the kernel stack, so what is not written in it is what the stack
held before.
-/

namespace Xv6SnifferBakery.Kernel

/-- `MAX_PAGES_INFO`. -/
def maxPagesInfo : Nat := 128

/-- `struct page_stat`. -/
structure PageStat where
  va : Nat
  state : Int
  isDirty : Int
  seq : Int
  swapSlot : Int

/-- `struct proc_mem_stat`. The entries of `pages` are those below `maxPagesInfo`. -/
structure ProcMemStat where
  pid : Int
  numPagesTotal : Int
  numResidentPages : Int
  numSwappedPages : Int
  nextFifoSeq : Int
  pages : Nat → PageStat

/-- `UNMAPPED`, `RESIDENT` and `SWAPPED`. -/
def PageState.code : PageState → Int
  | .unmapped => 0
  | .resident => 1
  | .swapped => 2

/-- What is reported of an entry. The address is cut to a `uint`. -/
def PageInfo.stat (e : PageInfo) : PageStat :=
  { va := e.va % 2 ^ 32, state := e.state.code, isDirty := if e.isDirty then 1 else 0, seq := e.seq, swapSlot := e.swapSlot }

/-- The loop of `sys_memstat`, after `n` reported entries. -/
def memstatLoop : List PageInfo → Nat → ProcMemStat → ProcMemStat
  | [], _, stat => stat
  | e :: es, n, stat =>
    if n < maxPagesInfo then
      memstatLoop es (n + 1) { stat with
        pages := Function.update stat.pages n e.stat
        numPagesTotal := stat.numPagesTotal + 1
        numResidentPages := if e.state = .resident then stat.numResidentPages + 1 else stat.numResidentPages
        numSwappedPages := if e.state = .swapped then stat.numSwappedPages + 1 else stat.numSwappedPages }
    else stat

/-- The structure that `sys_memstat` copies out, where `stack` is what the stack held in its place. -/
def memStat (p : Proc) (stack : ProcMemStat) : ProcMemStat :=
  memstatLoop p.pages 0 { stack with
    pid := p.pid, nextFifoSeq := p.nextFifoSeq, numPagesTotal := 0, numResidentPages := 0, numSwappedPages := 0 }

/-- The bytes of a `page_stat`. -/
def PageStat.bytes (x : PageStat) : List Byte :=
  le32 x.va ++ le32 x.state ++ le32 x.isDirty ++ le32 x.seq ++ le32 x.swapSlot

/-- The bytes of a `proc_mem_stat`: all its fields are four bytes long, so there is no padding. -/
def ProcMemStat.bytes (x : ProcMemStat) : List Byte :=
  le32 x.pid ++ le32 x.numPagesTotal ++ le32 x.numResidentPages ++ le32 x.numSwappedPages ++ le32 x.nextFifoSeq ++
    (List.range maxPagesInfo).flatMap (fun k => (x.pages k).bytes)

/-- `sys_memstat` with the user's buffer at `addr`. -/
def sysMemstat (m : Machine) (p : Proc) (stack : ProcMemStat) (addr : Nat) : Kern (Machine × Proc × Bool) :=
  copyout m p none addr (memStat p stack).bytes

end Xv6SnifferBakery.Kernel
