import Xv6SnifferBakery.Lib.Links
import Xv6SnifferBakery.Lib.Pool
import Xv6SnifferBakery.Lib.Transition

/-!
# The buffer cache

`kernel/bio.c`. The buffers are numbered, and the head of the list has the number after the last buffer. What holds `bcache.lock` is one
step; between its steps a process may wait for the sleep lock of its buffer or for the disk, and other processes go on. The contents of a
block are any type. A `Use` is one call of `bread` and what its caller does with the buffer up to the end of `brelse`.
-/

namespace Xv6SnifferBakery.Kernel

open Lib

/-- `NBUF`. -/
def nBuf : Nat := 30
/-- `ROOTDEV`, the only device. -/
def rootDev : Nat := 1

/-- `struct buf`; `lock` is the use that holds the sleep lock. -/
structure Buf (α : Type) where
  valid : Bool
  dev : Nat
  blockno : Nat
  lock : Option Nat
  refcnt : Nat
  data : α

/-- What `bget` makes of a buffer that it gives to another block. -/
def Buf.recycle {α : Type} (x : Buf α) (dev blockno : Nat) : Buf α :=
  { x with dev := dev, blockno := blockno, valid := false, refcnt := 1 }

structure Bcache (α : Type) where
  buf : Nat → Buf α
  links : Links Nat

namespace Bcache

variable {α : Type}

/-- `bcache.head`. -/
def head : Nat := nBuf

def modBuf (c : Bcache α) (b : Nat) (f : Buf α → Buf α) : Bcache α := { c with buf := Function.update c.buf b (f (c.buf b)) }

/-- `binit`. Before it the buffers are all zero. -/
def binit (zero : α) : Bcache α where
  buf := fun _ => ⟨false, 0, 0, none, 0, zero⟩
  links := (List.range nBuf).foldl (fun l b => l.linkAfter head b) ⟨fun _ => head, fun _ => head⟩

/-- Whether a buffer is the one of a block. -/
def isFor (c : Bcache α) (dev blockno b : Nat) : Bool := (c.buf b).dev = dev && (c.buf b).blockno = blockno

/-- `bget` up to the release of `bcache.lock`: the buffer of the block, or the least recently used one that nobody refers to. With
none left it panics. -/
def bget (c : Bcache α) (dev blockno : Nat) : Option (Bcache α × Nat) :=
  match Links.walk c.links.next head (c.isFor dev blockno) (nBuf + 1) (c.links.next head) with
  | some b => some (c.modBuf b (fun x => { x with refcnt := x.refcnt + 1 }), b)
  | none =>
    match Links.walk c.links.prev head (fun b => (c.buf b).refcnt = 0) (nBuf + 1) (c.links.prev head) with
    | some b => some (c.modBuf b (·.recycle dev blockno), b)
    | none => none

/-- The second half of `brelse`. -/
def giveUp (c : Bcache α) (b : Nat) : Bcache α :=
  let c := c.modBuf b (fun x => { x with refcnt := x.refcnt - 1 })
  if (c.buf b).refcnt = 0 then { c with links := (c.links.unlink b).linkAfter head b } else c

def bpin (c : Bcache α) (b : Nat) : Bcache α := c.modBuf b (fun x => { x with refcnt := x.refcnt + 1 })

def bunpin (c : Bcache α) (b : Nat) : Bcache α := c.modBuf b (fun x => { x with refcnt := x.refcnt - 1 })

end Bcache

/-! ## Uses -/

/-- Where a use stands: before or after `acquiresleep`, out of `bread`, and between the two halves of `brelse`. -/
inductive BioStage where
  | waiting | locked | ready | leaving
  deriving DecidableEq, Repr

structure BioUse where
  dev : Nat
  blockno : Nat
  buf : Nat
  stage : BioStage

/-- The cache, the blocks of the disk (`virtio_disk_rw` looks at no device number), the uses under way, and the buffers that are pinned,
as often as they are. -/
structure BioSys (α : Type) where
  cache : Bcache α
  disk : Nat → α
  use : Nat → Option BioUse
  pins : List Nat

inductive BioAction (α : Type) where
  /-- `bread` begins. -/
  | bget (u dev blockno : Nat)
  /-- `acquiresleep` gets the lock. -/
  | acquire (u : Nat)
  /-- `bread` reads the block from the disk when the buffer is not valid, and returns. -/
  | bread (u : Nat)
  /-- The caller changes `b->data`. -/
  | edit (u : Nat) (x : α)
  | bwrite (u : Nat)
  | bpin (u : Nat)
  | bunpin (u : Nat)
  /-- The first half of `brelse`. -/
  | release (u : Nat)
  /-- The second half of `brelse`. -/
  | brelse (u : Nat)

namespace BioSys

variable {α : Type}

def boot (zero : α) (disk : Nat → α) : BioSys α := ⟨Bcache.binit zero, disk, fun _ => none, []⟩

def setUse (s : BioSys α) (u : Nat) (o : Option BioUse) : BioSys α := { s with use := Function.update s.use u o }

/-- A use that stands where the action takes it on. -/
def at? (s : BioSys α) (u : Nat) (stage : BioStage) : Option BioUse := (s.use u).filter (fun x => x.stage = stage)

/-- `holdingsleep(&b->lock)`. -/
def holding (s : BioSys α) (u : Nat) (x : BioUse) : Bool := (s.cache.buf x.buf).lock = some u

/-- One step. Nothing where the use does not stand before it, where it waits, and where the code panics. -/
def step (s : BioSys α) : BioAction α → Option (BioSys α)
  | .bget u dev blockno =>
    if (s.use u).isSome then none
    else (s.cache.bget dev blockno).map (fun r => { s with cache := r.1 }.setUse u (some ⟨dev, blockno, r.2, .waiting⟩))
  | .acquire u =>
    (s.at? u .waiting).bind (fun x =>
      if (s.cache.buf x.buf).lock.isSome then none
      else some ({ s with cache := s.cache.modBuf x.buf (fun b => { b with lock := some u }) }.setUse u (some { x with stage := .locked })))
  | .bread u =>
    (s.at? u .locked).map (fun x =>
      let c := if (s.cache.buf x.buf).valid then s.cache
        else s.cache.modBuf x.buf (fun b => { b with data := s.disk b.blockno, valid := true })
      { s with cache := c }.setUse u (some { x with stage := .ready }))
  | .edit u d => (s.at? u .ready).map (fun x => { s with cache := s.cache.modBuf x.buf (fun b => { b with data := d }) })
  | .bwrite u =>
    (s.at? u .ready).bind (fun x =>
      if s.holding u x then
        let b := s.cache.buf x.buf
        some { s with disk := Function.update s.disk b.blockno b.data }
      else none)
  | .bpin u => (s.at? u .ready).map (fun x => { s with cache := s.cache.bpin x.buf, pins := x.buf :: s.pins })
  | .bunpin u =>
    (s.at? u .ready).map (fun x => { s with cache := s.cache.bunpin x.buf, pins := s.pins.erase x.buf })
  | .release u =>
    (s.at? u .ready).bind (fun x =>
      if s.holding u x then
        some ({ s with cache := s.cache.modBuf x.buf (fun b => { b with lock := none }) }.setUse u (some { x with stage := .leaving }))
      else none)
  | .brelse u => (s.at? u .leaving).map (fun x => { s with cache := s.cache.giveUp x.buf }.setUse u none)

end BioSys

end Xv6SnifferBakery.Kernel
