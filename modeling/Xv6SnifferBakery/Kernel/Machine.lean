import Xv6SnifferBakery.Kernel.Fs.Dir

/-!
# Physical memory and the machine state

The page allocator of `kalloc.c`, and the parts of the machine that system calls share: the free list, the contents of physical
pages, the file system, and the depth of `push_off` on this CPU. `trace` records each point at which the kernel may go to sleep
(`begin_op`, `ilock`, a disk read or write) with the number of spinlocks held there.
-/

namespace Xv6SnifferBakery.Kernel

/-- The operations that can sleep. -/
inductive SleepOp where
  | beginOp | ilock | diskRead | diskWrite
  deriving DecidableEq, Repr

/-- The machine. `kend` is the first address after the kernel (`end`), `trampoline` the physical page of the trampoline code,
which lies below it. -/
structure Machine where
  freelist : List Pa
  mem : Pa → Page
  kend : Pa
  trampoline : Pa
  fs : Fs
  noff : Nat
  trace : List (SleepOp × Nat)

namespace Machine

/-- Reach operations that can sleep. -/
def reach (m : Machine) (ops : List SleepOp) : Machine := { m with trace := m.trace ++ ops.map (fun op => (op, m.noff)) }

/-- Replace the file system. -/
def withFs (m : Machine) (fs : Fs) : Machine := { m with fs := fs }

/-- `memset(pa, b, PGSIZE)`, and every other way of filling a page. -/
def fill (m : Machine) (pa : Pa) (page : Page) : Machine := { m with mem := Function.update m.mem pa page }

/-- Store one byte of a page. -/
def poke (m : Machine) (pa off : Nat) (b : Byte) : Machine := m.fill pa (Function.update (m.mem pa) off b)

/-- `acquire`, seen from this CPU: one more `push_off`. -/
def acquire (m : Machine) : Machine := { m with noff := m.noff + 1 }

/-- `release`. -/
def release (m : Machine) : Machine := { m with noff := m.noff - 1 }

@[simp] theorem reach_freelist (m : Machine) (ops : List SleepOp) : (m.reach ops).freelist = m.freelist := rfl
@[simp] theorem reach_mem (m : Machine) (ops : List SleepOp) : (m.reach ops).mem = m.mem := rfl
@[simp] theorem reach_fs (m : Machine) (ops : List SleepOp) : (m.reach ops).fs = m.fs := rfl
@[simp] theorem reach_noff (m : Machine) (ops : List SleepOp) : (m.reach ops).noff = m.noff := rfl
@[simp] theorem reach_kend (m : Machine) (ops : List SleepOp) : (m.reach ops).kend = m.kend := rfl
@[simp] theorem withFs_freelist (m : Machine) (fs : Fs) : (m.withFs fs).freelist = m.freelist := rfl
@[simp] theorem withFs_mem (m : Machine) (fs : Fs) : (m.withFs fs).mem = m.mem := rfl
@[simp] theorem withFs_fs (m : Machine) (fs : Fs) : (m.withFs fs).fs = fs := rfl
@[simp] theorem withFs_noff (m : Machine) (fs : Fs) : (m.withFs fs).noff = m.noff := rfl
@[simp] theorem withFs_trace (m : Machine) (fs : Fs) : (m.withFs fs).trace = m.trace := rfl
@[simp] theorem withFs_kend (m : Machine) (fs : Fs) : (m.withFs fs).kend = m.kend := rfl
@[simp] theorem fill_freelist (m : Machine) (pa : Pa) (page : Page) : (m.fill pa page).freelist = m.freelist := rfl
@[simp] theorem fill_fs (m : Machine) (pa : Pa) (page : Page) : (m.fill pa page).fs = m.fs := rfl
@[simp] theorem fill_noff (m : Machine) (pa : Pa) (page : Page) : (m.fill pa page).noff = m.noff := rfl
@[simp] theorem fill_trace (m : Machine) (pa : Pa) (page : Page) : (m.fill pa page).trace = m.trace := rfl
@[simp] theorem fill_kend (m : Machine) (pa : Pa) (page : Page) : (m.fill pa page).kend = m.kend := rfl
@[simp] theorem fill_mem_self (m : Machine) (pa : Pa) (page : Page) : (m.fill pa page).mem pa = page :=
  Function.update_self ..
theorem fill_mem_of_ne (m : Machine) {pa q : Pa} (page : Page) (h : q ≠ pa) : (m.fill pa page).mem q = m.mem q :=
  Function.update_of_ne h ..

end Machine

/-! ## `kalloc.c` -/

/-- `kalloc`: the first page of the free list, filled with junk. -/
def kalloc (m : Machine) : Option (Machine × Pa) :=
  match m.freelist with
  | [] => none
  | r :: rest => some ({ m with freelist := rest }.fill r (fun _ => 5), r)

/-- `kfree`: a page back to the free list, filled with junk. -/
def kfree (m : Machine) (pa : Pa) : Kern Machine :=
  if pa % pgSize ≠ 0 ∨ pa < m.kend ∨ physTop ≤ pa then .error .kfree
  else .ok { m.fill pa (fun _ => 1) with freelist := pa :: m.freelist }

theorem kalloc_eq_none_iff {m : Machine} : kalloc m = none ↔ m.freelist = [] := by
  unfold kalloc
  split <;> simp_all

/-- What a successful `kalloc` does: the free list loses its head, which is the page returned, and no other page changes. -/
theorem kalloc_some {m m' : Machine} {pa : Pa} (h : kalloc m = some (m', pa)) :
    m.freelist = pa :: m'.freelist ∧ m' = { m with freelist := m'.freelist }.fill pa (fun _ => 5) := by
  unfold kalloc at h
  split at h
  · nomatch h
  · rename_i r rest hr
    simp only [Option.some.injEq, Prod.mk.injEq] at h
    obtain ⟨rfl, rfl⟩ := h
    exact ⟨hr, rfl⟩

/-- What `kfree` does: the page becomes the head of the free list, and no other page changes. -/
theorem kfree_ok {m m' : Machine} {pa : Pa} (h : kfree m pa = .ok m') :
    m' = { m.fill pa (fun _ => 1) with freelist := pa :: m.freelist } := by
  unfold kfree at h
  split at h
  · nomatch h
  · exact (Except.ok.inj h).symm

end Xv6SnifferBakery.Kernel
