import Xv6SnifferBakery.Kernel.Log
import Xv6SnifferBakery.Kernel.System

/-!
# Writing to files

`filewrite` on an inode, one step for each round of its loop: a round is a transaction of its own, and between two of them other
processes may run.
-/

namespace Xv6SnifferBakery.Kernel

/-- The most bytes that `filewrite` writes in one transaction. -/
def writeMax : Nat := (maxOpBlocks - 1 - 1 - 2) / 2 * bSize

/-- A round of `filewrite` on file `f`: at most `writeMax` of the `n` bytes that are left, at the offset of the file. `src` is what
`either_copyin` reads; a copy that fails stops the round as a smaller `n` does. -/
def filewriteRound (fs : Fs) (f : Nat) (src : Nat → Byte) (n : Nat) : Kern (Fs × Option Nat) := do
  let ff := fs.ftable f
  let fs ← ilock fs ff.ip
  let (fs, r) ← writei fs ff.ip src ff.off (min n writeMax)
  .ok ({ fs with ftable := Function.update fs.ftable f { ff with off := ff.off + r.getD 0 } }, r)

/-- A round of `sys_write`: the file must be writable. Writes to pipes and devices change no inode and are left out. -/
def sysWriteRound (fs : Fs) (p : Proc) (fd : Nat) (src : Nat → Byte) (n : Nat) : Kern (Fs × Option Nat) :=
  match argfd p fd with
  | none => .ok (fs, none)
  | some f =>
    if (fs.ftable f).writable = true ∧ (fs.ftable f).type = .inode then filewriteRound fs f src n
    else .ok (fs, none)

/-- The steps of the system with those of `write`. -/
inductive IoAction where
  | call (a : Action)
  | write (i fd : Nat) (src : Nat → Byte) (n : Nat)

/-- One step of the system, or one round of `write` by a process. -/
inductive IoStep (s : Sys) : IoAction → Sys → Prop where
  | call {a : Action} {t : Sys} (h : Step s a t) : IoStep s (.call a) t
  | write {i fd n : Nat} {src : Nat → Byte} {fs : Fs} {r : Option Nat} (ready : s.ready i)
      (h : sysWriteRound s.m.fs (s.proc i) fd src n = .ok (fs, r)) :
      IoStep s (.write i fd src n) { s with m := (s.m.reach [.beginOp, .ilock, .diskWrite]).withFs fs }

end Xv6SnifferBakery.Kernel
