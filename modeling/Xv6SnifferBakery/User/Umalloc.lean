import Mathlib.Algebra.Group.Int.Defs
import Mathlib.Algebra.Group.Nat.Defs
import Mathlib.Tactic.Common
import Xv6SnifferBakery.Lib.Cycle
import Xv6SnifferBakery.Lib.Transition

/-!
# The user's allocator

`user/umalloc.c`. The headers of the blocks are kept by their addresses: two headers never overlap, since blocks never do. `sbrk` is the
kernel's: what it returns is an outcome of `malloc`, and it never gives memory that it has given before.
-/

namespace Xv6SnifferBakery.Umalloc

open Lib

/-- `sizeof(Header)`. -/
def headerSize : Nat := 16

/-- `Header`: `size` counts units of the size of a header, the header's own among them. -/
structure Header where
  ptr : Nat
  size : Nat

/-- `base`, the headers, `freep`, the end of the process's memory, and the units that `morecore` has got so far. -/
structure Heap where
  base : Nat
  hdr : Nat → Header
  freep : Option Nat
  brk : Nat
  obtained : Nat

namespace Heap

def ptr (h : Heap) (p : Nat) : Nat := (h.hdr p).ptr

def size (h : Heap) (p : Nat) : Nat := (h.hdr p).size

def setPtr (h : Heap) (p q : Nat) : Heap := { h with hdr := Function.update h.hdr p { h.hdr p with ptr := q } }

/-- `p->s.size = n`, of 32 bits. -/
def setSize (h : Heap) (p n : Nat) : Heap := { h with hdr := Function.update h.hdr p { h.hdr p with size := n % 2 ^ 32 } }

/-- `p + p->s.size`. -/
def fin (h : Heap) (p : Nat) : Nat := p + headerSize * h.size p

/-- More turns than a loop over the free list can take: a block has a unit at least. -/
def turns (h : Heap) : Nat := h.obtained + 2

/-! ## `free` -/

/-- Where the loop of `free` ends. -/
def Stops (h : Heap) (bp p : Nat) : Prop := (p < bp ∧ bp < h.ptr p) ∨ (h.ptr p ≤ p ∧ (p < bp ∨ bp < h.ptr p))

instance (h : Heap) (bp : Nat) : DecidablePred (h.Stops bp) := fun p => by unfold Stops; infer_instance

/-- The first `if` of `free`: the block is joined with the one above it, or linked to it. -/
def joinUp (h : Heap) (bp p : Nat) : Heap :=
  if h.fin bp = h.ptr p then (h.setSize bp (h.size bp + h.size (h.ptr p))).setPtr bp (h.ptr (h.ptr p)) else h.setPtr bp (h.ptr p)

/-- The second `if`: the block is joined with the one below it, or linked from it. -/
def joinDown (h : Heap) (bp p : Nat) : Heap :=
  if h.fin p = bp then (h.setSize p (h.size p + h.size bp)).setPtr p (h.ptr bp) else h.setPtr p bp

/-- `free` of the block whose header is at `bp`. -/
def free (h : Heap) (bp : Nat) : Option Heap := do
  let f ← h.freep
  let p ← search (h.Stops bp) h.ptr h.turns f
  some { (h.joinUp bp p).joinDown bp p with freep := some p }

/-! ## `malloc` -/

/-- The argument of `sbrk`, an `int`. -/
def sbrkArg (n : Nat) : Int := if n % 2 ^ 32 < 2 ^ 31 then (n % 2 ^ 32 : Nat) else (n % 2 ^ 32 : Nat) - 2 ^ 32

/-- `nu`, in `morecore`. -/
def coreUnits (nu : Nat) : Nat := if nu < 4096 then 4096 else nu

/-- `morecore`, with what `sbrk` returns. -/
def morecore (h : Heap) (nu : Nat) (got : Option Nat) : Option (Heap × Option Nat) :=
  match got with
  | none => some (h, none)
  | some p => do
    let n := coreUnits nu
    let h := { h with brk := (p + sbrkArg (n * headerSize)).toNat, obtained := h.obtained + n }
    let h ← (h.setSize p n).free p
    some (h, h.freep)

/-- `nunits`: `size_t` arithmetic, stored in 32 bits. -/
def nunits (nbytes : Nat) : Nat := ((nbytes + headerSize - 1) / headerSize + 1) % 2 ^ 32

/-- The first call sets up `base`. -/
def start (h : Heap) : Heap :=
  match h.freep with
  | none => { (h.setPtr h.base h.base).setSize h.base 0 with freep := some h.base }
  | some _ => h

/-- A turn of the loop ends it at `prevp`: the next block is big enough, or it is the one the loop began behind. -/
def Fits (h : Heap) (nu prevp : Nat) : Prop := nu ≤ h.size (h.ptr prevp) ∨ h.freep = some (h.ptr prevp)

instance (h : Heap) (nu : Nat) : DecidablePred (h.Fits nu) := fun p => by unfold Fits; infer_instance

/-- The block behind `prevp` is handed out, or its tail. -/
def carve (h : Heap) (nu prevp : Nat) : Heap × Nat :=
  let p := h.ptr prevp
  if h.size p = nu then ({ h.setPtr prevp (h.ptr p) with freep := some prevp }, p)
  else
    let h := h.setSize p (h.size p - nu)
    let p := h.fin p
    ({ h.setSize p nu with freep := some prevp }, p)

/-- `malloc`: the header of the block it hands out. The loop is left for `morecore` once; `none` is a loop that does not end or that
calls it again. -/
def malloc (h : Heap) (nbytes : Nat) (got : Option Nat) : Option (Heap × Option Nat) := do
  let nu := nunits nbytes
  let h := h.start
  let f ← h.freep
  let prevp ← search (h.Fits nu) h.ptr h.turns f
  if nu ≤ h.size (h.ptr prevp) then
    let (h, p) := h.carve nu prevp
    some (h, some p)
  else do
    let (h, r) ← h.morecore nu got
    match r with
    | none => some (h, none)
    | some f => do
      let prevp ← search (h.Fits nu) h.ptr h.turns f
      if nu ≤ h.size (h.ptr prevp) then
        let (h, p) := h.carve nu prevp
        some (h, some p)
      else none

end Heap

/-! ## Programs -/

/-- What a program does about its heap. -/
inductive HeapAction where
  | malloc (nbytes : Nat) (got r : Option Nat)
  | free (bp : Nat)
  /-- The program writes into its blocks. -/
  | write (hdr : Nat → Header)
  /-- The program calls `sbrk` itself. -/
  | sbrk (n : Nat)

/-- The heap, and the headers of the blocks that the program has. -/
structure HeapSys where
  heap : Heap
  live : List Nat

namespace HeapSys

/-- Inside a block that the program has, behind the beginning of its header. -/
def Inside (s : HeapSys) (x : Nat) : Prop := ∃ b ∈ s.live, b < x ∧ x < s.heap.fin b

/-- What `sbrk` may return to `morecore`: nothing, or new memory, as much as the machine has. -/
def Grants (h : Heap) (nu : Nat) (got : Option Nat) : Prop :=
  ∀ p, got = some p → h.brk ≤ p ∧ h.obtained + Heap.coreUnits nu < 2 ^ 32

/-- A program that frees what it has, once, writes only into it, and asks for no more than `sbrk` can be asked for. -/
inductive Step : HeapSys → HeapAction → HeapSys → Prop where
  | malloc {s : HeapSys} {nbytes : Nat} {got r : Option Nat} {h : Heap} : Heap.nunits nbytes * headerSize < 2 ^ 31 → nbytes < 2 ^ 32 →
      Grants s.heap (Heap.nunits nbytes) got → s.heap.malloc nbytes got = some (h, r) →
      Step s (.malloc nbytes got r) ⟨h, r.toList ++ s.live⟩
  | free {s : HeapSys} {bp : Nat} {h : Heap} : bp ∈ s.live → s.heap.free bp = some h → Step s (.free bp) ⟨h, s.live.erase bp⟩
  | write {s : HeapSys} {hdr : Nat → Header} : (∀ x, ¬s.Inside x → hdr x = s.heap.hdr x) →
      Step s (.write hdr) ⟨{ s.heap with hdr := hdr }, s.live⟩
  | sbrk {s : HeapSys} {n : Nat} : Step s (.sbrk n) ⟨{ s.heap with brk := s.heap.brk + n }, s.live⟩

/-- Before the first call: `base` lies below the heap. -/
def boot (base brk : Nat) (hdr : Nat → Header) : HeapSys := ⟨⟨base, hdr, none, brk, 0⟩, []⟩

end HeapSys

end Xv6SnifferBakery.Umalloc
