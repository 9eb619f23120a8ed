import Xv6SnifferBakery.Kernel.Proc

/-!
# User memory, from user mode and from the kernel

Loads and stores as the hardware does them, through the page table and a page fault; and `vmfault`, `copyout` and `copyin` of
`vm.c`, which the kernel uses in their place. `copyout` takes the table as a parameter: `none` is the process's own table, which
`vmfault` changes, `some pt` the table `exec` is building, which it does not.
-/

namespace Xv6SnifferBakery.Kernel

/-! ## User mode -/

/-- The translation of a user access, when the entry is valid, a user page, and has the permission asked for. -/
def translate (pt : PageTable) (a : Nat) (need : Perm → Bool) : Option Pa :=
  if maxVa ≤ a then none
  else
    match pt.leaf (a / 4096) with
    | none => none
    | some pte => if pte.perm.u && need pte.perm then some pte.pa else none

/-- A user load that does not fault. -/
def userLoad (m : Machine) (p : Proc) (a : Nat) : Option Byte :=
  (translate p.pagetable a Perm.r).map (fun pa => m.mem pa (a % 4096))

/-- A user store that does not fault. -/
def userStore (m : Machine) (p : Proc) (a : Nat) (b : Byte) : Option Machine :=
  (translate p.pagetable a Perm.w).map (fun pa => m.poke pa (a % 4096) b)

/-! ## Copies by the kernel -/

/-- `vmfault`: have the fault handler map a page, and return where. -/
def vmfault (m : Machine) (p : Proc) (table : Option PageTable) (va : Nat) (access : Access) :
    Kern (Machine × Proc × Option Pa) := do
  match ← handlePageFault m p va access false with
  | (m, p, false) => .ok (m, p, none)
  | (m, p, true) =>
    let pte ← lookup (table.getD p.pagetable) (pgRoundDown va)
    .ok (m, p, pte.map Pte.pa)

/-- The page of a user address for a copy: `walkaddr`, or `vmfault` for reading. -/
def copyPage (m : Machine) (p : Proc) (table : Option PageTable) (va : Nat) : Kern (Machine × Proc × Option Pa) :=
  match walkaddr (table.getD p.pagetable) va with
  | some pa => .ok (m, p, some pa)
  | none => vmfault m p table va .read

/-- Write bytes into a page from an offset on. -/
def writeBytes (page : Page) (off : Nat) (src : List Byte) : Page :=
  fun k => if off ≤ k ∧ k < off + src.length then src.getD (k - off) 0 else page k

/-- `copyout`, page by page: at most as many passes as there are bytes. -/
def copyoutLoop (table : Option PageTable) : Nat → Machine → Proc → Nat → List Byte → Kern (Machine × Proc × Bool)
  | 0, m, p, _, _ => .ok (m, p, true)
  | fuel + 1, m, p, dstva, src =>
    if src = [] then .ok (m, p, true)
    else
      let va0 := pgRoundDown dstva
      if maxVa ≤ va0 then .ok (m, p, false)
      else do
        match ← copyPage m p table va0 with
        | (m, p, none) => .ok (m, p, false)
        | (m, p, some pa0) =>
          match ← lookup (table.getD p.pagetable) va0 with
          | none => .ok (m, p, false)
          | some pte =>
            if ¬pte.perm.w then .ok (m, p, false)
            else
              let n := min (pgSize - (dstva - va0)) src.length
              let m := m.fill pa0 (writeBytes (m.mem pa0) (dstva - va0) (src.take n))
              copyoutLoop table fuel m p (va0 + pgSize) (src.drop n)

/-- `copyout`. -/
def copyout (m : Machine) (p : Proc) (table : Option PageTable) (dstva : Nat) (src : List Byte) :
    Kern (Machine × Proc × Bool) :=
  copyoutLoop table src.length m p dstva src

/-- `copyin` from the process's own table, page by page: the bytes, or nothing when it fails. -/
def copyinLoop : Nat → Machine → Proc → Nat → Nat → List Byte → Kern (Machine × Proc × Option (List Byte))
  | 0, m, p, _, _, acc => .ok (m, p, some acc)
  | fuel + 1, m, p, srcva, len, acc =>
    if len = 0 then .ok (m, p, some acc)
    else do
      let va0 := pgRoundDown srcva
      match ← copyPage m p none va0 with
      | (m, p, none) => .ok (m, p, none)
      | (m, p, some pa0) =>
        let n := min (pgSize - (srcva - va0)) len
        let bytes := (List.range n).map (fun k => m.mem pa0 (srcva - va0 + k))
        copyinLoop fuel m p (va0 + pgSize) (len - n) (acc ++ bytes)

/-- `copyin`. -/
def copyin (m : Machine) (p : Proc) (srcva len : Nat) : Kern (Machine × Proc × Option (List Byte)) :=
  copyinLoop len m p srcva len []

end Xv6SnifferBakery.Kernel
