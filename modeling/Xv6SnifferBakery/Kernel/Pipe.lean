import Xv6SnifferBakery.Kernel.Params
import Xv6SnifferBakery.Lib.Ring
import Xv6SnifferBakery.Lib.Transition

/-!
# Pipes

`kernel/pipe.c`: a pipe, and the processes that are in `pipewrite` and `piperead` on it. A call goes through its loop one test, one
`sleep`, one byte at a time, and any other call runs whenever the lock is free. `copyin` and `copyout` reach the memory of the caller,
which is not part of the pipe: their outcome comes with the event. The page of the pipe is freed when both ends are closed, and no
call reaches it afterwards.
-/

namespace Xv6SnifferBakery.Kernel

open Lib

/-- `PIPESIZE`. -/
def pipeSize : Nat := 512

/-- `struct pipe`: `data` is indexed modulo `PIPESIZE`, `lock` is the process that holds the spinlock. -/
structure Pipe where
  lock : Option Nat
  data : Nat → Byte
  nread : UInt32
  nwrite : UInt32
  readopen : Bool
  writeopen : Bool

namespace Pipe

/-- `pipealloc`: the page comes from `kalloc`, and `data` is what it held. -/
def pipealloc (data : Nat → Byte) : Pipe :=
  { lock := none, data, nread := 0, nwrite := 0, readopen := true, writeopen := true }

/-- `pi->nread == pi->nwrite`. -/
def isEmpty (pi : Pipe) : Prop := pi.nread = pi.nwrite

/-- `pi->nwrite == pi->nread + PIPESIZE`. -/
def isFull (pi : Pipe) : Prop := pi.nwrite = pi.nread + UInt32.ofNat pipeSize

instance (pi : Pipe) : Decidable pi.isEmpty := inferInstanceAs (Decidable (_ = _))

instance (pi : Pipe) : Decidable pi.isFull := inferInstanceAs (Decidable (_ = _))

/-- `pi->data[pi->nwrite++ % PIPESIZE] = ch`. -/
def put (pi : Pipe) (ch : Byte) : Pipe :=
  { pi with data := Function.update pi.data (pi.nwrite.toNat % pipeSize) ch, nwrite := pi.nwrite + 1 }

/-- The byte that `ch = pi->data[pi->nread++ % PIPESIZE]` reads. -/
def front (pi : Pipe) : Byte := pi.data (pi.nread.toNat % pipeSize)

/-- The increment in `ch = pi->data[pi->nread++ % PIPESIZE]`. -/
def advance (pi : Pipe) : Pipe := { pi with nread := pi.nread + 1 }

/-- The bytes between the two counters, the next one to be read first. -/
def buffered (pi : Pipe) : List Byte := Ring.contents pi.data pipeSize pi.nread.toNat (pi.nwrite - pi.nread).toNat

end Pipe

/-! ## Calls -/

/-- Where a call takes the lock: at the test of a loop that sleeps. -/
inductive PipeHead where
  | writing (addr : Nat) (n : Int) (i : Nat)
  | waiting (addr : Nat) (n : Int)
  deriving DecidableEq, Repr

/-- Where a call stands: at the test of a loop, with a byte that `piperead` has taken, or behind a loop that a copy has ended. -/
inductive PipePoint where
  | head (k : PipeHead)
  | reading (addr : Nat) (n : Int) (i : Nat)
  | copying (addr : Nat) (n : Int) (i : Nat) (ch : Byte)
  | wrote (i : Nat)
  | read (i : Nat)
  deriving DecidableEq, Repr

/-- The channels of `sleep`: the addresses of the two counters. -/
inductive PipeChan where
  | nread | nwrite
  deriving DecidableEq, Repr

/-- What a process is doing about the pipe. -/
inductive PipeStatus where
  | out
  | acquiring (k : PipeHead)
  | running (k : PipePoint)
  | asleep (chan : PipeChan) (k : PipeHead)
  deriving DecidableEq, Repr

/-- A sleeping process that is woken takes the lock again before it goes on. -/
def PipeStatus.woken (chan : PipeChan) : PipeStatus → PipeStatus
  | .asleep c k => if c = chan then .acquiring k else .asleep c k
  | st => st

/-- The byte that a process has taken and not yet copied out. -/
def PipeStatus.hand : PipeStatus → List Byte
  | .running (.copying _ _ _ ch) => [ch]
  | _ => []

inductive PipeEvent where
  /-- A call of `pipewrite` begins. -/
  | pipewrite (p addr : Nat) (n : Int)
  /-- A call of `piperead` begins. -/
  | piperead (p addr : Nat) (n : Int)
  /-- A process gets the lock. -/
  | acquire (p : Nat)
  /-- A process releases the lock and sleeps. -/
  | sleep (p : Nat) (chan : PipeChan)
  /-- `pipewrite` copies a byte in: `none` is a `copyin` that returns -1. -/
  | copyin (p addr : Nat) (ch : Option Byte)
  /-- The first loop of `piperead` is over. -/
  | ready (p : Nat)
  /-- `piperead` takes a byte. -/
  | take (p : Nat) (ch : Byte)
  /-- `piperead` copies a byte out: `false` is a `copyout` that returns -1. -/
  | copyout (p addr : Nat) (ch : Byte) (ok : Bool)
  /-- A call returns. -/
  | ret (p : Nat) (r : Int)
  | pipeclose (writable : Bool)
  | kkill (p : Nat)
  deriving DecidableEq, Repr

/-- The process of an event within a call. -/
def PipeEvent.caller : PipeEvent → Option Nat
  | .sleep p _ | .copyin p _ _ | .ready p | .take p _ | .copyout p _ _ _ | .ret p _ => some p
  | _ => none

/-- The byte that an event accepts from a writer. -/
def PipeEvent.accepts : PipeEvent → Option Byte
  | .copyin _ _ ch => ch
  | _ => none

/-- The byte that an event copies out, with the outcome. -/
def PipeEvent.copies : PipeEvent → Option (Byte × Bool)
  | .copyout _ _ ch ok => some (ch, ok)
  | _ => none

/-- A pipe with the processes that use it. -/
structure PipeSys where
  pi : Pipe
  proc : Nat → PipeStatus
  killed : Nat → Bool

namespace PipeSys

/-- A new pipe, before any call. -/
def start (data : Nat → Byte) : PipeSys :=
  { pi := Pipe.pipealloc data, proc := fun _ => .out, killed := fun _ => false }

def go (s : PipeSys) (p : Nat) (st : PipeStatus) : PipeSys := { s with proc := Function.update s.proc p st }

def setLock (s : PipeSys) (l : Option Nat) : PipeSys := { s with pi := { s.pi with lock := l } }

def setPipe (s : PipeSys) (pi : Pipe) : PipeSys := { s with pi }

/-- `wakeup`. -/
def wakeup (s : PipeSys) (chan : PipeChan) : PipeSys := { s with proc := fun p => PipeStatus.woken chan (s.proc p) }

/-- `kkill`: a sleeping process is woken. -/
def kkill (s : PipeSys) (p : Nat) : PipeSys :=
  let s := { s with killed := Function.update s.killed p true }
  match s.proc p with
  | .asleep _ k => s.go p (.acquiring k)
  | _ => s

/-- `pipeclose`, which holds the lock from its first line to its last. -/
def pipeclose (s : PipeSys) (writable : Bool) : PipeSys :=
  if writable then (s.setPipe { s.pi with writeopen := false }).wakeup .nread
  else (s.setPipe { s.pi with readopen := false }).wakeup .nwrite

/-- The result of a call that returns from where it stands, with the channel it wakes. -/
def result (s : PipeSys) (p : Nat) : PipePoint → Option (Int × Option PipeChan)
  | .head (.writing _ n i) =>
    if (i : Int) < n then if s.pi.readopen = false ∨ s.killed p then some (-1, none) else none else some (i, some .nread)
  | .wrote i => some (i, some .nread)
  | .head (.waiting _ _) => if s.pi.isEmpty ∧ s.pi.writeopen ∧ s.killed p then some (-1, none) else none
  | .reading _ n i => if (i : Int) < n ∧ ¬s.pi.isEmpty then none else some (i, some .nwrite)
  | .copying _ _ _ _ => none
  | .read i => some (i, some .nwrite)

/-- The end of a call. -/
def finish (s : PipeSys) (p : Nat) (wake : Option PipeChan) : PipeSys :=
  let s := (s.go p .out).setLock none
  match wake with
  | none => s
  | some chan => s.wakeup chan

/-- One step of `pipewrite` or `piperead` from where the call stands. -/
def inCall (s : PipeSys) (p : Nat) : PipePoint → PipeEvent → Option PipeSys
  | .head (.writing addr n i), .sleep _ .nwrite =>
    if (i : Int) < n ∧ s.pi.readopen ∧ ¬s.killed p ∧ s.pi.isFull then
      some (((s.wakeup .nread).go p (.asleep .nwrite (.writing addr n i))).setLock none)
    else none
  | .head (.writing addr n i), .copyin _ a ch =>
    if (i : Int) < n ∧ s.pi.readopen ∧ ¬s.killed p ∧ ¬s.pi.isFull ∧ a = add64 addr i then
      match ch with
      | none => some (s.go p (.running (.wrote i)))
      | some ch => some ((s.setPipe (s.pi.put ch)).go p (.running (.head (.writing addr n (i + 1)))))
    else none
  | .head (.waiting addr n), .sleep _ .nread =>
    if s.pi.isEmpty ∧ s.pi.writeopen ∧ ¬s.killed p then some ((s.go p (.asleep .nread (.waiting addr n))).setLock none) else none
  | .head (.waiting addr n), .ready _ =>
    if s.pi.isEmpty ∧ s.pi.writeopen then none else some (s.go p (.running (.reading addr n 0)))
  | .reading addr n i, .take _ ch =>
    if (i : Int) < n ∧ ¬s.pi.isEmpty ∧ ch = s.pi.front then
      some ((s.setPipe s.pi.advance).go p (.running (.copying addr n i ch)))
    else none
  | .copying addr n i ch, .copyout _ a ch' ok =>
    if a = add64 addr i ∧ ch' = ch then
      some (s.go p (.running (if ok then .reading addr n (i + 1) else .read i)))
    else none
  | k, .ret _ r =>
    match s.result p k with
    | none => none
    | some (r', wake) => if r = r' then some (s.finish p wake) else none
  | _, _ => none

/-- One step of the pipe, if the event can happen. -/
def step (s : PipeSys) : PipeEvent → Option PipeSys
  | .pipewrite p addr n => if s.proc p = .out then some (s.go p (.acquiring (.writing addr n 0))) else none
  | .piperead p addr n => if s.proc p = .out then some (s.go p (.acquiring (.waiting addr n))) else none
  | .acquire p =>
    match s.proc p with
    | .acquiring k => if s.pi.lock = none then some ((s.setLock (some p)).go p (.running (.head k))) else none
    | _ => none
  | .pipeclose writable => if s.pi.lock = none then some (s.pipeclose writable) else none
  | .kkill p => some (s.kkill p)
  | e =>
    match e.caller with
    | none => none
    | some p =>
      match s.proc p with
      | .running k => s.inCall p k e
      | _ => none

/-- `step` as a relation. -/
def Step (s : PipeSys) (e : PipeEvent) (t : PipeSys) : Prop := s.step e = some t

/-! ## What went through the pipe -/

/-- The bytes accepted from writers, in order. -/
def accepted (evs : List PipeEvent) : List Byte := evs.filterMap PipeEvent.accepts

/-- The bytes given to `copyout`, in order, each with the outcome. -/
def copies (evs : List PipeEvent) : List (Byte × Bool) := evs.filterMap PipeEvent.copies

/-- The bytes successfully copied out to readers, in order. -/
def delivered (evs : List PipeEvent) : List Byte := ((copies evs).filter Prod.snd).map Prod.fst

/-- The byte that a reader has taken and not yet copied out: only the process with the lock can have one. -/
def inHand (s : PipeSys) : List Byte :=
  match s.pi.lock with
  | none => []
  | some p => (s.proc p).hand

end PipeSys

end Xv6SnifferBakery.Kernel
