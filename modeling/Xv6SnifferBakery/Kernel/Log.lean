import Mathlib.Data.Finset.Card
import Xv6SnifferBakery.Kernel.Params
import Xv6SnifferBakery.Lib.Overlay
import Xv6SnifferBakery.Lib.Transition

/-!
# The log

`kernel/log.c`, with the buffer cache and the disk under it. A step writes at most one block to the disk, and the machine may crash
between any two steps. The contents of a block are any type. The header block is kept apart from the others as the list of the
block numbers in it; the rest of its array is never read. A process that sleeps in `begin_op` is one whose `begin_op` has not
happened yet.
-/

namespace Xv6SnifferBakery.Kernel

open Lib

/-- `MAXOPBLOCKS`. -/
def maxOpBlocks : Nat := 10
/-- `LOGBLOCKS`. -/
def logBlocks : Nat := 30

/-- Where the commit or the recovery stands: at a test of `commit` or `recover_from_log`, or of one of their loops. -/
inductive LogPc where
  | idle
  | commit
  | writeLog (tail : Nat)
  | install (tail : Nat)
  | committed
  | readHead
  | recover (tail : Nat)
  deriving DecidableEq, Repr

/-- The machine is in `initlog`, before the first system call. -/
def LogPc.booting : LogPc → Bool
  | .readHead | .recover _ => true
  | _ => false

/-- The disk, the buffer cache and `struct log`. -/
structure LogSys (α : Type) where
  /-- The blocks on disk. -/
  disk : Nat → α
  /-- The header block on disk. -/
  head : List Nat
  /-- The valid buffers. -/
  cache : Nat → Option α
  /-- What `bpin` adds to `refcnt`. -/
  pins : Nat → Nat
  /-- `log.lh`. -/
  lh : List Nat
  outstanding : Nat
  committing : Bool
  pc : LogPc

inductive LogEvent (α : Type) where
  | beginOp
  /-- A process changes a buffer to `v` and calls `log_write`. -/
  | logWrite (b : Nat) (v : α)
  | endOp
  /-- A process reads a block. -/
  | bread (b : Nat)
  /-- `bget` reuses the buffer of a block. -/
  | recycle (b : Nat)
  /-- `commit` finds nothing to commit. -/
  | commitEmpty
  /-- `commit` starts to write the log. -/
  | commitStart
  | writeLog
  | writeHead
  | installTrans
  /-- The second `write_head` of `commit`. -/
  | eraseHead
  /-- `commit` has returned, and `end_op` lets others begin. -/
  | commitReturn
  | crash
  | readHead
  /-- A turn of `install_trans` in `recover_from_log`. -/
  | recoverTrans
  /-- The `write_head` of `recover_from_log`. -/
  | recoverHead
  deriving DecidableEq, Repr

namespace LogSys

variable {α : Type}

/-- The blocks that the file system writes: `mkfs` puts the log and its header apart from them. -/
def Home (start b : Nat) : Prop := b < start ∨ start + logBlocks < b

instance (start b : Nat) : Decidable (Home start b) := inferInstanceAs (Decidable (_ ∨ _))

/-- A disk that `mkfs` has made, when the machine is switched on. -/
def boot (disk : Nat → α) : LogSys α :=
  { disk, head := [], cache := fun _ => none, pins := fun _ => 0, lh := [], outstanding := 0, committing := false, pc := .readHead }

/-- The contents of the buffer that `bread` returns. -/
def data (s : LogSys α) (b : Nat) : α := (s.cache b).getD (s.disk b)

/-- `bread`: the block is in the cache afterwards. -/
def bread (s : LogSys α) (b : Nat) : LogSys α := { s with cache := Function.update s.cache b (some (s.data b)) }

/-- A change of the buffer of a block. -/
def modify (s : LogSys α) (b : Nat) (v : α) : LogSys α := { s with cache := Function.update s.cache b (some v) }

/-- `bwrite` of a buffer that is changed to `v`. -/
def bwrite (s : LogSys α) (b : Nat) (v : α) : LogSys α :=
  { s with cache := Function.update s.cache b (some v), disk := Function.update s.disk b v }

def bpin (s : LogSys α) (b : Nat) : LogSys α := { s with pins := Function.update s.pins b (s.pins b + 1) }

def bunpin (s : LogSys α) (b : Nat) : LogSys α := { s with pins := Function.update s.pins b (s.pins b - 1) }

/-- `write_head`. -/
def writeHead (s : LogSys α) : LogSys α := { s with head := s.lh }

/-- `read_head`. -/
def readHead (s : LogSys α) : LogSys α := { s with lh := s.head }

/-- `log_write`, past its two panics. -/
def logWrite (s : LogSys α) (b : Nat) : LogSys α :=
  if b ∈ s.lh then s else { s.bpin b with lh := s.lh ++ [b] }

/-- A turn of the loop of `write_log`. -/
def writeLogTurn (start : Nat) (s : LogSys α) (tail b : Nat) : LogSys α :=
  let s := (s.bread (start + tail + 1)).bread b
  s.bwrite (start + tail + 1) (s.data b)

/-- A turn of the loop of `install_trans`. -/
def installTurn (start : Nat) (recovering : Bool) (s : LogSys α) (tail b : Nat) : LogSys α :=
  let s := (s.bread (start + tail + 1)).bread b
  let s := s.bwrite b (s.data (start + tail + 1))
  if recovering then s else s.bunpin b

/-- The memory is lost. -/
def crash (s : LogSys α) : LogSys α := { boot s.disk with head := s.head }

/-- One step, if the event can happen. -/
def step (start : Nat) (s : LogSys α) : LogEvent α → Option (LogSys α)
  | .beginOp =>
    if ¬s.pc.booting ∧ ¬s.committing ∧ s.lh.length + (s.outstanding + 1) * maxOpBlocks ≤ logBlocks then
      some { s with outstanding := s.outstanding + 1 }
    else none
  | .logWrite b v =>
    if ¬s.pc.booting ∧ s.lh.length < logBlocks ∧ 1 ≤ s.outstanding ∧ Home start b then some ((s.modify b v).logWrite b) else none
  | .endOp =>
    if ¬s.pc.booting ∧ 1 ≤ s.outstanding ∧ ¬s.committing then
      let s := { s with outstanding := s.outstanding - 1 }
      if s.outstanding = 0 then some { s with committing := true, pc := .commit } else some s
    else none
  | .bread b => some (s.bread b)
  | .recycle b => if s.pins b = 0 then some { s with cache := Function.update s.cache b none } else none
  | .commitEmpty => if s.pc = .commit ∧ s.lh = [] then some { s with pc := .committed } else none
  | .commitStart => if s.pc = .commit ∧ s.lh ≠ [] then some { s with pc := .writeLog 0 } else none
  | .writeLog =>
    match s.pc with
    | .writeLog tail =>
      match s.lh[tail]? with
      | some b => some { writeLogTurn start s tail b with pc := .writeLog (tail + 1) }
      | none => none
    | _ => none
  | .writeHead =>
    match s.pc with
    | .writeLog tail => if s.lh[tail]? = none then some { s.writeHead with pc := .install 0 } else none
    | _ => none
  | .installTrans =>
    match s.pc with
    | .install tail =>
      match s.lh[tail]? with
      | some b => some { installTurn start false s tail b with pc := .install (tail + 1) }
      | none => none
    | _ => none
  | .eraseHead =>
    match s.pc with
    | .install tail => if s.lh[tail]? = none then some { { s with lh := [] }.writeHead with pc := .committed } else none
    | _ => none
  | .commitReturn => if s.pc = .committed then some { s with committing := false, pc := .idle } else none
  | .crash => some s.crash
  | .readHead => if s.pc = .readHead then some { s.readHead with pc := .recover 0 } else none
  | .recoverTrans =>
    match s.pc with
    | .recover tail =>
      match s.lh[tail]? with
      | some b => some { installTurn start true s tail b with pc := .recover (tail + 1) }
      | none => none
    | _ => none
  | .recoverHead =>
    match s.pc with
    | .recover tail => if s.lh[tail]? = none then some { { s with lh := [] }.writeHead with pc := .idle } else none
    | _ => none

/-- `step` as a relation. -/
def Step (start : Nat) (s : LogSys α) (e : LogEvent α) (t : LogSys α) : Prop := s.step start e = some t

end LogSys

/-! ## Operations -/

/-- The panics of `log_write` and `end_op`. -/
inductive LogPanic where
  | tooBig
  | outsideTrans
  | committing
  deriving DecidableEq, Repr

namespace LogSys

variable {α : Type}

/-- The panics that `log_write` tests for. -/
def logWritePanic (s : LogSys α) : Option LogPanic :=
  if logBlocks ≤ s.lh.length then some .tooBig
  else if s.outstanding < 1 then some .outsideTrans
  else none

/-- The panic that `end_op` tests for. -/
def endOpPanic (s : LogSys α) : Option LogPanic := if s.committing then some .committing else none

end LogSys

/-- The log with the operations between `begin_op` and `end_op`. A process may be in several, one inside the other. `logged` are the
distinct blocks that an operation has logged so far. -/
structure OpSys (α ι : Type) where
  log : LogSys α
  active : Finset ι
  logged : ι → Finset Nat

inductive OpEvent (α ι : Type) where
  | beginOp (i : ι)
  | logWrite (i : ι) (b : Nat) (v : α)
  | endOp (i : ι)
  | crash
  /-- An event of the buffer cache, of a commit or of the recovery. -/
  | other (e : LogEvent α)

namespace OpSys

variable {α ι : Type} [DecidableEq ι]

/-- A disk that `mkfs` has made, when the machine is switched on. -/
def boot (disk : Nat → α) : OpSys α ι := ⟨LogSys.boot disk, ∅, fun _ => ∅⟩

/-- The events that are no part of an operation. -/
def IsOther : LogEvent α → Prop
  | .beginOp | .logWrite _ _ | .endOp | .crash => False
  | _ => True

/-- One step. No operation logs more than `maxOpBlocks` distinct blocks; a call that panics is no step. -/
inductive Step (start : Nat) (s : OpSys α ι) : OpEvent α ι → OpSys α ι → Prop where
  | beginOp {i : ι} {l : LogSys α} (new : i ∉ s.active) (h : s.log.step start .beginOp = some l) :
      Step start s (.beginOp i) ⟨l, insert i s.active, Function.update s.logged i ∅⟩
  | logWrite {i : ι} {b : Nat} {v : α} (active : i ∈ s.active) (few : (insert b (s.logged i)).card ≤ maxOpBlocks)
      (h : s.log.logWritePanic = none) :
      Step start s (.logWrite i b v)
        ⟨(s.log.modify b v).logWrite b, s.active, Function.update s.logged i (insert b (s.logged i))⟩
  | endOp {i : ι} {l : LogSys α} (active : i ∈ s.active) (h : s.log.step start .endOp = some l) :
      Step start s (.endOp i) ⟨l, s.active.erase i, s.logged⟩
  | crash : Step start s .crash ⟨s.log.crash, ∅, s.logged⟩
  | other {e : LogEvent α} {l : LogSys α} (he : IsOther e) (h : s.log.step start e = some l) :
      Step start s (.other e) ⟨l, s.active, s.logged⟩

end OpSys

/-! ## Groups -/

/-- What a history says about the groups of transactions. A group is the writes between two commits, and it is committed when its
header is on the disk. -/
structure LogHistory (α : Type) where
  committed : List (List (Nat × α))
  current : List (Nat × α)
  returned : List (List (Nat × α))

namespace LogHistory

variable {α : Type}

def step (h : LogHistory α) : LogEvent α → LogHistory α
  | .logWrite b v => { h with current := h.current ++ [(b, v)] }
  | .commitEmpty | .writeHead => { h with committed := h.committed ++ [h.current], current := [] }
  | .commitReturn => { h with returned := h.returned ++ h.committed.getLast?.toList }
  | .crash => { h with current := [] }
  | _ => h

/-- The groups of a history of events. -/
def ofEvents (evs : List (LogEvent α)) : LogHistory α := evs.foldl step ⟨[], [], []⟩

/-- The blocks after the committed groups. -/
def blocks (h : LogHistory α) (disk : Nat → α) : Nat → α := overlay disk h.committed.flatten

end LogHistory

end Xv6SnifferBakery.Kernel
