import Xv6SnifferBakery.Kernel.PageTable

/-!
# Address spaces

Growing, shrinking, copying and freeing a user page table (`vm.c`, and the two table functions of `proc.c`). Where the source asks
`myproc()` for its stack, the caller's `stack_top` is a parameter (0 when there is no process).
-/

namespace Xv6SnifferBakery.Kernel

open Lib

/-- The guard page under a stack (`stack_top - USERSTACK*PGSIZE - PGSIZE`). -/
def guardBase (stackTop : Nat) : Nat := sub64 (sub64 stackTop (userStack * pgSize)) pgSize

/-- The lowest stack address. -/
def stackBase (stackTop : Nat) : Nat := sub64 stackTop (userStack * pgSize)

/-- One pass of `uvmdealloc`: the guard page and the stack stay. -/
def deallocPage (stackTop : Nat) (m : Machine) (pt : PageTable) (va : Nat) : Kern (Machine × PageTable) :=
  if guardBase stackTop ≤ va ∧ va < stackTop then .ok (m, pt) else uvmunmap m pt va 1 true

/-- `uvmdealloc`: unmap and free the pages between the new size and the old one, and return the new size. -/
def uvmdealloc (m : Machine) (pt : PageTable) (stackTop oldsz newsz : Nat) : Kern (Machine × PageTable × Nat) :=
  if oldsz ≤ newsz then .ok (m, pt, oldsz)
  else do
    let n := (pgRoundUp oldsz - pgRoundUp newsz) / pgSize
    let (m, pt) ← forFrom (fun i s => deallocPage stackTop s.1 s.2 (pgRoundUp newsz + i * pgSize)) 0 n (m, pt)
    .ok (m, pt, newsz)

/-- The loop of `uvmalloc` from page `a` on, which began at `oldsz`: whether all pages were mapped. -/
def uvmallocLoop (stackTop oldsz : Nat) (perm : Perm) : Nat → Machine → PageTable → Nat → Kern (Machine × PageTable × Bool)
  | 0, m, pt, _ => .ok (m, pt, true)
  | n + 1, m, pt, a =>
    match kalloc m with
    | none => do
      let (m, pt, _) ← uvmdealloc m pt stackTop a oldsz
      .ok (m, pt, false)
    | some (m, mem) => do
      match ← mappages (m.fill mem (fun _ => 0)) pt a pgSize mem perm with
      | (m, pt, true) => uvmallocLoop stackTop oldsz perm n m pt (a + pgSize)
      | (m, pt, false) =>
        let m ← kfree m mem
        let (m, pt, _) ← uvmdealloc m pt stackTop a oldsz
        .ok (m, pt, false)

/-- `uvmalloc` with `xperm = PTE_W`: the new size, or nothing when memory runs out (the source's 0). -/
def uvmalloc (m : Machine) (pt : PageTable) (stackTop oldsz newsz : Nat) : Kern (Machine × PageTable × Option Nat) :=
  if newsz < oldsz then .ok (m, pt, some oldsz)
  else do
    let old := pgRoundUp oldsz
    let n := (newsz - old + 4095) / pgSize
    let (m, pt, done) ← uvmallocLoop stackTop old ⟨true, true, false, true⟩ n m pt old
    .ok (m, pt, if done then some newsz else none)

/-! ## Freeing a table -/

/-- A leaf that is still mapped is freed with the table. -/
def freeLeaf (pt : PageTable) (v : Nat) (m : Machine) : Kern Machine :=
  match pt.leaf v with
  | none => .ok m
  | some pte => kfree m pte.pa

/-- `freewalk` of a level-0 table. -/
def freeLow (pt : PageTable) (k : Nat) (m : Machine) : Kern Machine :=
  match pt.low k with
  | none => .ok m
  | some pa => do
    let m ← forFrom (fun j => freeLeaf pt (k * 512 + j)) 0 512 m
    kfree m pa

/-- `freewalk` of a level-1 table. -/
def freeMid (pt : PageTable) (i : Nat) (m : Machine) : Kern Machine :=
  match pt.mid i with
  | none => .ok m
  | some pa => do
    let m ← forFrom (fun j => freeLow pt (i * 512 + j)) 0 512 m
    kfree m pa

/-- `freewalk`: free the pages of a table, and of the leaves it still maps. -/
def freewalk (m : Machine) (pt : PageTable) : Kern Machine :=
  match pt.root with
  | none => .ok m
  | some pa => do
    let m ← forFrom (freeMid pt) 0 512 m
    kfree m pa

/-- `uvmfree`. -/
def uvmfree (m : Machine) (pt : PageTable) (sz : Nat) : Kern Machine := do
  let (m, pt) ← if 0 < sz then uvmunmap m pt 0 (pgRoundUp sz / pgSize) true else .ok (m, pt)
  freewalk m pt

/-! ## Copying an address space -/

/-- The loop of `uvmcopy` from address `i` on: the address at which a page or a table page could not be had, if any. -/
def uvmcopyLoop (old : PageTable) : Nat → Machine → PageTable → Nat → Kern (Machine × PageTable × Option Nat)
  | 0, m, new, _ => .ok (m, new, none)
  | n + 1, m, new, i => do
    match ← lookup old i with
    | none => uvmcopyLoop old n m new (i + pgSize)
    | some pte =>
      match kalloc m with
      | none => .ok (m, new, some i)
      | some (m, mem) =>
        match ← mappages (m.fill mem (m.mem pte.pa)) new i pgSize mem pte.perm with
        | (m, new, true) => uvmcopyLoop old n m new (i + pgSize)
        | (m, new, false) =>
          let m ← kfree m mem
          .ok (m, new, some i)

/-- `uvmcopy`: copy the mapped pages of `[0, sz)` with their permissions. What was copied is freed when memory runs out. -/
def uvmcopy (m : Machine) (old new : PageTable) (sz : Nat) : Kern (Machine × PageTable × Bool) := do
  match ← uvmcopyLoop old ((sz + 4095) / pgSize) m new 0 with
  | (m, new, none) => .ok (m, new, true)
  | (m, new, some i) =>
    let (m, new) ← uvmunmap m new 0 (i / pgSize) true
    .ok (m, new, false)

/-! ## The tables of a process -/

/-- `proc_pagetable`: a table with the trampoline and the process's trapframe page, neither accessible to the user. -/
def procPagetable (m : Machine) (trapframe : Pa) : Kern (Machine × Option PageTable) :=
  match uvmcreate m with
  | none => .ok (m, none)
  | some (m, pt) => do
    match ← mappages m pt trampolineVa pgSize m.trampoline ⟨true, false, true, false⟩ with
    | (m, pt, false) =>
      let m ← uvmfree m pt 0
      .ok (m, none)
    | (m, pt, true) =>
      match ← mappages m pt trapframeVa pgSize trapframe ⟨true, true, false, false⟩ with
      | (m, pt, false) =>
        let (m, pt) ← uvmunmap m pt trampolineVa 1 false
        let m ← uvmfree m pt 0
        .ok (m, none)
      | (m, pt, true) => .ok (m, some pt)

/-- The passes of the loop of `proc_freepagetable` over the caller's guard page and stack. -/
def stackPages (stackTop : Nat) : Nat :=
  if 0 < stackTop then (stackTop - guardBase stackTop + 4095) / pgSize else 0

/-- One pass of that loop: page `i` above the guard page is unmapped and freed, if it is mapped. -/
def freeStackPage (stackTop i : Nat) (s : Machine × PageTable) : Kern (Machine × PageTable) := do
  match ← lookup s.2 (guardBase stackTop + i * pgSize) with
  | none => .ok s
  | some _ => uvmunmap s.1 s.2 (guardBase stackTop + i * pgSize) 1 true

/-- `proc_freepagetable`: free a table and the memory it maps. The stack pages that are taken out first are those of the calling
process, whose `stack_top` is `stackTop`. -/
def procFreepagetable (m : Machine) (pt : PageTable) (sz stackTop : Nat) : Kern Machine := do
  let (m, pt) ← uvmunmap m pt trampolineVa 1 false
  let (m, pt) ← uvmunmap m pt trapframeVa 1 false
  let (m, pt) ← forFrom (freeStackPage stackTop) 0 (stackPages stackTop) (m, pt)
  uvmfree m pt sz

end Xv6SnifferBakery.Kernel
