import Xv6SnifferBakery.Kernel.Params

/-!
# Page tables in memory

`walk`, `mappages`, `uvmcreate` and `uvmunmap` of `vm.c` over the 64-bit words of physical memory, where a page table is
three levels of pages that `kalloc` gave out. A pointer to an entry is a page and the index of one of its 512 words. `PageTable` has the
same functions over page tables as values.
-/

namespace Xv6SnifferBakery.Kernel

open Lib

/-! ## Words (`riscv.h`) -/

def pteV : Nat := 1 <<< 0

/-- `PA2PTE`. -/
def pa2pte (pa : Nat) : Nat := (pa >>> 12) <<< 10
/-- `PTE2PA`. -/
def pte2pa (pte : Nat) : Nat := (pte >>> 10) <<< 12 % 2 ^ 64
/-- `PTE_FLAGS`. -/
def pteFlags (pte : Nat) : Nat := pte &&& 0x3ff
/-- `PXSHIFT`. -/
def pxShift (level : Nat) : Nat := 12 + 9 * level
/-- `PX`. -/
def px (level va : Nat) : Nat := (va >>> pxShift level) &&& 0x1ff

/-! ## Memory -/

/-- Physical memory, 512 words a page, and the free list. What `kfree` checks of a page holds of every page on it. The links of the list
are not words: nothing else reads them. -/
structure Ram where
  kend : Pa
  words : Pa → Nat → Nat
  freelist : List Pa
  free_ok : ∀ pa ∈ freelist, pa % pgSize = 0 ∧ kend ≤ pa ∧ pa < physTop

namespace Ram

/-- `memset(pa, c, PGSIZE)`. -/
def memset (m : Ram) (pa : Pa) (c : Nat) : Ram := { m with words := Function.update m.words pa (fun _ => c * 0x0101010101010101) }

/-- `*pte = w`. -/
def store (m : Ram) (pte : Pa × Nat) (w : Nat) : Ram :=
  { m with words := Function.update m.words pte.1 (Function.update (m.words pte.1) pte.2 w) }

/-- `*pte`. -/
def load (m : Ram) (pte : Pa × Nat) : Nat := m.words pte.1 pte.2

/-- `kalloc`. -/
def kalloc (m : Ram) : Option (Ram × Pa) :=
  match h : m.freelist with
  | [] => none
  | r :: rest => some ({ m with freelist := rest, free_ok := fun pa hpa => m.free_ok pa (h ▸ List.mem_cons_of_mem r hpa) }.memset r 5, r)

/-- `kfree`. -/
def kfree (m : Ram) (pa : Pa) : Kern Ram :=
  if h : pa % pgSize ≠ 0 ∨ pa < m.kend ∨ physTop ≤ pa then .error .kfree
  else .ok { m.memset pa 1 with
    freelist := pa :: m.freelist
    free_ok := fun q hq => by
      obtain rfl | hq := List.mem_cons.mp hq
      · refine ⟨?_, ?_, ?_⟩
        · by_contra hc; exact h (Or.inl hc)
        · by_contra hc; exact h (Or.inr (Or.inl (Nat.lt_of_not_le hc)))
        · by_contra hc; exact h (Or.inr (Or.inr (Nat.le_of_not_lt hc)))
      · exact m.free_ok q hq }

/-! ## `vm.c` -/

/-- The loop of `walk`, from a level down: the page of the level-0 table, once it has got there. -/
def walkLoop (va : Nat) (alloc : Bool) : Nat → Ram → Pa → Ram × Option Pa
  | 0, m, pagetable => (m, some pagetable)
  | level + 1, m, pagetable =>
    let pte := (pagetable, px (level + 1) va)
    if m.load pte &&& pteV ≠ 0 then walkLoop va alloc level m (pte2pa (m.load pte))
    else if !alloc then (m, none)
    else
      match m.kalloc with
      | none => (m, none)
      | some (m, pagetable) => walkLoop va alloc level ((m.memset pagetable 0).store pte (pa2pte pagetable ||| pteV)) pagetable

def walk (m : Ram) (pagetable : Pa) (va : Nat) (alloc : Bool) : Kern (Ram × Option (Pa × Nat)) :=
  if maxVa ≤ va then .error .walk
  else
    let (m, table) := walkLoop va alloc 2 m pagetable
    .ok (m, table.map (fun pagetable => (pagetable, px 0 va)))

/-- What callers of `walk(pagetable, va, 0)` look at: the address and the flags of the entry, if it is there and has `PTE_V`. -/
def lookup (m : Ram) (pagetable : Pa) (va : Nat) : Kern (Option (Pa × Nat)) := do
  match ← m.walk pagetable va false with
  | (_, none) => .ok none
  | (m, some pte) => .ok (if m.load pte &&& pteV = 0 then none else some (pte2pa (m.load pte), pteFlags (m.load pte)))

/-- The loop of `mappages` over the pages still to map. It ends at `last`, after `size / PGSIZE` passes. -/
def mappagesLoop (pagetable : Pa) (perm : Nat) : Nat → Ram → Nat → Pa → Kern (Ram × Bool)
  | 0, m, _, _ => .ok (m, true)
  | n + 1, m, a, pa => do
    match ← m.walk pagetable a true with
    | (m, none) => .ok (m, false)
    | (m, some pte) =>
      if m.load pte &&& pteV ≠ 0 then .error .mappagesRemap
      else mappagesLoop pagetable perm n (m.store pte (pa2pte pa ||| perm ||| pteV)) (add64 a pgSize) (add64 pa pgSize)

/-- `mappages`, where `perm` is the value as 64 bits. -/
def mappages (m : Ram) (pagetable : Pa) (va size : Nat) (pa : Pa) (perm : Nat) : Kern (Ram × Bool) :=
  if va % pgSize ≠ 0 then .error .mappagesNotAligned
  else if size % pgSize ≠ 0 then .error .mappagesNotAligned
  else if size = 0 then .error .mappagesSize
  else mappagesLoop pagetable perm (size / pgSize) m va pa

/-- `uvmcreate`. -/
def uvmcreate (m : Ram) : Option (Ram × Pa) :=
  match m.kalloc with
  | none => none
  | some (m, pagetable) => some (m.memset pagetable 0, pagetable)

/-- One pass of `uvmunmap`. -/
def unmapPage (pagetable : Pa) (doFree : Bool) (m : Ram) (a : Nat) : Kern Ram := do
  match ← m.walk pagetable a false with
  | (m, none) => .ok m
  | (m, some pte) =>
    if m.load pte &&& pteV = 0 then .ok m
    else if doFree then do
      let m ← m.kfree (pte2pa (m.load pte))
      .ok (m.store pte 0)
    else .ok (m.store pte 0)

/-- `uvmunmap`. The end of the range can wrap; the loop makes no pass then, or stops there. -/
def uvmunmap (m : Ram) (pagetable : Pa) (va npages : Nat) (doFree : Bool) : Kern Ram :=
  if va % pgSize ≠ 0 then .error .uvmunmapNotAligned
  else forFrom (fun i m => m.unmapPage pagetable doFree (add64 va (i * pgSize))) 0 ((add64 va (npages * pgSize) - va) / pgSize) m

end Ram

end Xv6SnifferBakery.Kernel
