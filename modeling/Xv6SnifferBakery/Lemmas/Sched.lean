import Xv6SnifferBakery.Kernel.Sched
import Xv6SnifferBakery.Lib.Held

/-!
# What the threads and the CPUs of the scheduler do

Each position of a thread comes with the spinlocks that are held there, and the code moves between positions as its lock operations say.
From that the machine keeps its books: who holds which spinlock, how deep `push_off` is nested, and who runs where.
-/

namespace Xv6SnifferBakery.Sched

open Kernel (ProcState nProc)
open Lib

variable {s s' : State} {c i me : Nat} {a : Act} {th : Thread} {op : Op} {d : Data}

/-! ## The spinlocks at each position -/

/-- The spinlocks held at a position of process `me`, outside of a trap. -/
def Pc.locks (me : Nat) : Pc → List LockId
  | .run | .acquiresleep _ | .sleepAcquire _ | .releasesleep _ | .holdingsleep _ | .held _ _ | .kkill _ _ => []
  | .forkret | .sleepSched _ | .sleepBack _ _ | .sleepLeave _ => [.proc me]
  | .test l | .sleep l | .clear l | .wakeup l _ | .holdingRead l => [.lk l]
  | .sleepRelease l => [.proc me, .lk l]
  | .wakeupTest l i => [.proc i, .lk l]
  | .kkillTest _ i => [.proc i]

def Trap.locks (me : Nat) : Trap → List LockId
  | .yield | .sret => []
  | .sched | .back _ | .leave => [.proc me]

def Thread.locks (me : Nat) (th : Thread) : List LockId :=
  match th.trap with
  | some t => t.locks me
  | none => th.pc.locks me

/-- The spinlocks that a CPU holds, by where it is. -/
def State.locksOf (s : State) (c : Nat) : List LockId :=
  match (s.cpus c).ctl with
  | .loop | .scan _ => []
  | .look i | .home i => [.proc i]
  | .away i => (s.thread i).locks i

/-- Where a thread stands that waits for a CPU. -/
def Thread.Resumes (th : Thread) : Prop :=
  (th.trap = none ∧ (th.pc = .forkret ∨ ∃ l b, th.pc = .sleepBack l b)) ∨ ∃ b, th.trap = some (.back b)

theorem Thread.Resumes.locks (h : th.Resumes) (me : Nat) : th.locks me = [.proc me] := by
  rcases h with ⟨htrap, hpc | ⟨l, b, hpc⟩⟩ | ⟨b, htrap⟩ <;> simp [Thread.locks, Trap.locks, Pc.locks, *]

/-! ## The effect of an operation -/

def Op.data (d : Data) : Op → Data
  | .release d _ _ | .goto d _ | .sched d _ => d
  | .acquire _ _ | .restore _ _ | .intr _ _ | .panic _ => d

/-- The thread after an operation, `intena` being that of the CPU. -/
def Op.thread (intena : Bool) (th : Thread) : Op → Thread
  | .acquire _ th | .release _ _ th | .goto _ th | .restore _ th | .intr _ th => th
  | .sched _ f => f intena
  | .panic _ => th

def popped (u : Cpu) : Cpu := { u with noff := u.noff - 1, intr := u.noff - 1 = 0 && u.intena }

def Op.cpu (i : Nat) (u : Cpu) : Op → Cpu
  | .acquire _ _ => pushOff u
  | .release _ _ _ => popped u
  | .sched _ _ => { u with ctl := .home i }
  | .restore b _ => { u with intena := b }
  | .intr b _ => { u with intr := b }
  | .goto _ _ | .panic _ => u

def Op.lock (c : Nat) (lock : LockId → Option Nat) : Op → LockId → Option Nat
  | .acquire k _ => Function.update lock k (some c)
  | .release _ k _ => Function.update lock k none
  | .goto _ _ | .sched _ _ | .restore _ _ | .intr _ _ | .panic _ => lock

/-- What an operation leaves when it does not panic. -/
def Op.after (s : State) (c i : Nat) (op : Op) : State where
  cpus := Function.update s.cpus c (op.cpu i (s.cpus c))
  lock := op.lock c s.lock
  thread := Function.update s.thread i (op.thread (s.cpus c).intena (s.thread i))
  data := op.data s.data

/-- An operation agrees with the spinlocks that are held: `ls` before it, those of the thread after it. -/
def Op.Fits (me : Nat) (ls : List LockId) : Op → Prop
  | .acquire k th => k ∉ ls ∧ (th.locks me).Perm (k :: ls)
  | .release _ k th => ls.Perm (k :: th.locks me)
  | .goto _ th | .restore _ th => th.locks me = ls
  | .sched d th => ls = [.proc me] ∧ (∀ b, (th b).locks me = [.proc me] ∧ (th b).Resumes) ∧ (d.proc me).state ≠ .running
  | .intr _ th => ls = [] ∧ th.locks me = []
  | .panic _ => ls = []

theorem code_fits {on : Bool} (htrap : th.trap = none) (h : th.code d me on a = some op) : op.Fits me (th.locks me) := by
  obtain ⟨pc, trap, intr⟩ := th
  obtain rfl : trap = none := htrap
  cases pc <;> simp only [Thread.code] at h
  case run => cases a <;> cases h <;> simp [Op.Fits, Thread.locks, Pc.locks]
  case test l => split at h <;> cases h <;> simp [Op.Fits, Thread.locks, Pc.locks]
  case wakeup l j =>
    split at h
    · split at h <;> cases h <;> simp [Op.Fits, Thread.locks, Pc.locks]
    · cases h
      simp [Op.Fits, Thread.locks, Pc.locks]
  case held l r =>
    cases r <;> cases h
    · rfl
    · rfl
  case kkill pid j => split at h <;> cases h <;> simp [Op.Fits, Thread.locks, Pc.locks]
  case kkillTest pid j => split at h <;> cases h <;> simp [Op.Fits, Thread.locks, Pc.locks]
  all_goals
    cases h
    simp [Op.Fits, Thread.locks, Pc.locks, Thread.Resumes, Data.setProc]
  exact List.Perm.swap _ _ _

theorem yield_fits {t : Trap} (htrap : th.trap = some t) (hpc : th.pc.locks me = []) : (th.yield d me t).Fits me (th.locks me) := by
  cases t <;> simp [Thread.yield, Op.Fits, Thread.locks, Trap.locks, htrap, hpc, Thread.Resumes, Data.setProc]

theorem op_fits {on : Bool} (hwf : th.trap ≠ none → th.pc.locks me = []) (h : th.op d me on a = some op) : op.Fits me (th.locks me) := by
  unfold Thread.op at h
  cases htrap : th.trap with
  | none =>
    rw [htrap] at h
    exact code_fits htrap h
  | some t =>
    rw [htrap] at h
    obtain rfl := Option.some.inj h
    exact yield_fits htrap (hwf (by simp [htrap]))

theorem acquire_next {k : LockId} (h : acquire s c k = .next s') :
    s.lock k = none ∧ s' = { s.setCpu c (pushOff (s.cpus c)) with lock := Function.update s.lock k (some c) } := by
  unfold acquire at h
  split at h
  · cases h
  · split at h
    · next hk => exact ⟨hk, (Result.next.inj h).symm⟩
    · cases h

theorem release_next {k : LockId} (h : release s c k = .next s') :
    s' = { s.setCpu c (popped (s.cpus c)) with lock := Function.update s.lock k none } := by
  unfold release popOff at h
  split at h
  · cases h
  · split at h
    · cases h
    · next hu =>
      split at hu
      · cases hu
      · split at hu
        · cases hu
        · obtain rfl := Except.ok.inj hu
          exact (Result.next.inj h).symm

theorem bind_next {r : Result} {f : State → Result} (h : r.bind f = .next s') : ∃ t, r = .next t ∧ f t = .next s' := by
  cases r with
  | spin => cases h
  | panic msg => cases h
  | next t => exact ⟨t, rfl, h⟩

theorem sched_next {f : Bool → Thread} (h : sched s c i d f = .next s') :
    s' = ({ s with data := d }.setThread i (f (s.cpus c).intena)).setCtl c (.home i) := by
  unfold sched at h
  repeat' split at h
  all_goals cases h
  rfl

/-- What an operation does when it does not panic or spin. -/
theorem exec_next (h : exec s c i op = .next s') : s' = op.after s c i ∧ ∀ k th, op = .acquire k th → s.lock k = none := by
  cases op with
  | acquire k th =>
    obtain ⟨t, ht, hs⟩ := bind_next h
    obtain ⟨hk, rfl⟩ := acquire_next ht
    refine ⟨(Result.next.inj hs).symm, fun k' th' heq => ?_⟩
    cases heq
    exact hk
  | release d k th =>
    obtain ⟨t, ht, hs⟩ := bind_next h
    obtain rfl := release_next ht
    exact ⟨(Result.next.inj hs).symm, fun k' th' heq => by cases heq⟩
  | goto d th =>
    obtain rfl := Result.next.inj h
    exact ⟨by simp [Op.after, Op.cpu, Op.lock, Op.thread, Op.data, State.setThread], fun k' th' heq => by cases heq⟩
  | sched d f =>
    obtain rfl := sched_next h
    exact ⟨rfl, fun k' th' heq => by cases heq⟩
  | restore b th => exact ⟨(Result.next.inj h).symm, fun k' th' heq => by cases heq⟩
  | intr b th => exact ⟨(Result.next.inj h).symm, fun k' th' heq => by cases heq⟩
  | panic msg => cases h

/-! ## The machine keeps its books -/

def Ctl.proc : Ctl → Option Nat
  | .away i | .home i => some i
  | .loop | .scan _ | .look _ => none

/-- A CPU has interrupts off while it holds spinlocks, and counts them. -/
structure Cpu.Ok (u : Cpu) (ls : List LockId) : Prop where
  noff : u.noff = ls.length
  intr : ls ≠ [] → u.intr = false
  proc : u.proc = u.ctl.proc

structure Books (s : State) : Prop where
  held : Held s.lock s.locksOf
  cpu : ∀ c, (s.cpus c).Ok (s.locksOf c)
  alone : ∀ c c' i, (s.cpus c).ctl = .away i → (s.cpus c').ctl = .away i → c = c'
  running : ∀ c i, (s.cpus c).ctl = .away i → (s.data.proc i).state = .running
  parked : ∀ i, (∀ c, (s.cpus c).ctl ≠ .away i) → (s.thread i).Resumes
  trap : ∀ i, (s.thread i).trap ≠ none → (s.thread i).pc.locks i = []
  off : ∀ c i, (s.cpus c).ctl = .away i → (s.thread i).trap ≠ none → (s.cpus c).intr = false
  quiet : ∀ c i, (s.cpus c).ctl = .away i → (s.thread i).trap = some .sched ∨ (s.thread i).trap = some .leave → (s.cpus c).intena = false
  back : ∀ i b, (s.thread i).trap = some (.back b) → b = false

/-- What an operation of process `me` does to a process. -/
structure Proc.Kept (p p' : Proc) (mine sched : Prop) : Prop where
  pid : p'.pid = p.pid
  chan : p'.chan = p.chan ∨ mine
  state : p'.state = p.state ∨ (p.state = .sleeping ∧ p'.state = .runnable) ∨
    (mine ∧ sched ∧ (p'.state = .sleeping ∨ p'.state = .runnable))

theorem Proc.Kept.refl {p : Proc} {mine sched : Prop} : p.Kept p mine sched := ⟨rfl, .inl rfl, .inl rfl⟩

theorem Proc.Kept.awake (p : Proc) {mine sched : Prop} : p.Kept p.awake mine sched := by
  unfold Proc.awake
  split
  · next h => exact ⟨rfl, .inl rfl, .inr (.inl ⟨h, rfl⟩)⟩
  · exact .refl

theorem Proc.Kept.kill {p p' : Proc} {mine sched : Prop} (h : p.Kept p' mine sched) : p.Kept { p' with killed := true } mine sched :=
  ⟨h.pid, h.chan, h.state⟩

theorem setProc_proc (j x : Nat) (p : Proc) : (d.setProc j p).proc x = if x = j then p else d.proc x := by
  simp [Data.setProc, Function.update_apply]

theorem op_kept {on : Bool} (h : th.op d me on a = some op) (j : Nat) :
    (d.proc j).Kept ((op.data d).proc j) (j = me) (∃ d f, op = .sched d f) := by
  unfold Thread.op at h
  split at h
  · next t _ =>
    obtain rfl := Option.some.inj h
    cases t <;> try exact .refl
    by_cases hj : j = me
    · subst hj
      simp only [Thread.yield, Op.data, setProc_proc, if_true]
      exact ⟨rfl, .inl rfl, .inr (.inr ⟨trivial, ⟨_, _, rfl⟩, .inr rfl⟩)⟩
    · simp only [Thread.yield, Op.data, setProc_proc, if_neg hj]
      exact .refl
  · unfold Thread.code at h
    cases hpc : th.pc <;> rw [hpc] at h <;> dsimp only at h
    case run => cases a <;> cases h <;> exact .refl
    case test l => split at h <;> cases h <;> exact .refl
    case wakeup l k => split at h <;> (try split at h) <;> cases h <;> exact .refl
    case wakeupTest l k =>
      cases h
      dsimp only [Op.data]
      split
      · rw [setProc_proc]
        split
        · next hj => exact hj ▸ .awake _
        · exact .refl
      · exact .refl
    case held l r => cases r <;> cases h <;> exact .refl
    case kkill pid k => split at h <;> cases h <;> exact .refl
    case kkillTest pid k =>
      split at h
      · cases h
        simp only [Op.data, setProc_proc]
        split
        · next hj =>
          obtain rfl := hj
          exact (Proc.Kept.awake _).kill
        · exact .refl
      · cases h
        exact .refl
    all_goals
      cases h
      first
      | exact .refl
      | simp only [Op.data, setProc_proc]
        split
        · next hj => exact ⟨by rw [hj], .inr hj, by simp_all⟩
        · exact .refl

theorem op_cases {on : Bool} (h : th.op d me on a = some op) :
    (th.trap = none ∧ th.code d me on a = some op) ∨ ∃ t, th.trap = some t ∧ op = th.yield d me t := by
  unfold Thread.op at h
  cases htrap : th.trap with
  | none =>
    rw [htrap] at h
    exact .inl ⟨rfl, h⟩
  | some t =>
    rw [htrap] at h
    exact .inr ⟨t, rfl, (Option.some.inj h).symm⟩

/-- Only an interrupt leads into `yield`. -/
theorem code_trap {on : Bool} (b : Bool) (htrap : th.trap = none) (h : th.code d me on a = some op) : (op.thread b th).trap = none := by
  unfold Thread.code at h
  cases hpc : th.pc <;> rw [hpc] at h <;> dsimp only at h
  case run => cases a <;> cases h <;> exact htrap
  case test l => split at h <;> cases h <;> exact htrap
  case wakeup l k => split at h <;> (try split at h) <;> cases h <;> exact htrap
  case held l r => cases r <;> cases h <;> exact htrap
  case kkill pid k => split at h <;> cases h <;> exact htrap
  case kkillTest pid k => split at h <;> cases h <;> exact htrap
  all_goals
    cases h
    exact htrap

/-- Where a thread can have come from, by where it is now; `b` is the `intena` of its CPU. -/
def Pc.From (d : Data) (me : Nat) (b : Bool) (pc : Pc) : Pc → Prop
  | .test l => pc = .acquiresleep l ∨ pc = .sleepAcquire l
  | .sleep l => pc = .test l ∧ (d.slk l).locked = true
  | .sleepRelease l => pc = .sleep l
  | .sleepSched l => pc = .sleepRelease l
  | .sleepBack l b' => pc = .sleepSched l ∧ b' = b
  | .sleepLeave l => ∃ b', pc = .sleepBack l b'
  | .sleepAcquire l => pc = .sleepLeave l
  | .releasesleep l => pc = .held l true
  | .clear l => pc = .releasesleep l
  | .wakeup l k => k = 0 ∧ pc = .clear l ∨ ∃ j, k = j + 1 ∧ (pc = .wakeupTest l j ∨ pc = .wakeup l j ∧ j = me)
  | .wakeupTest l k => pc = .wakeup l k
  | .holdingRead l => pc = .holdingsleep l
  | .held l r => pc = .holdingRead l ∧ r = ((d.slk l).locked && (d.slk l).pid = (d.proc me).pid)
  | .forkret => False
  | .run | .acquiresleep _ | .holdingsleep _ | .kkill _ _ | .kkillTest _ _ => True

theorem code_from {on : Bool} (b : Bool) (h : th.code d me on a = some op) (hpanic : ∀ msg, op ≠ .panic msg) :
    th.pc.From d me b (op.thread b th).pc := by
  unfold Thread.code at h
  cases hpc : th.pc <;> rw [hpc] at h <;> dsimp only at h
  case run => cases a <;> cases h <;> first | trivial | (simp [Op.thread, hpc, Pc.From])
  case test l =>
    split at h
    · next hl =>
      cases h
      exact ⟨rfl, hl⟩
    · cases h
      trivial
  case wakeup l k =>
    split at h
    · split at h
      · next hk =>
        cases h
        exact .inr ⟨k, rfl, .inr ⟨rfl, hk⟩⟩
      · cases h
        rfl
    · cases h
      trivial
  case wakeupTest l k =>
    cases h
    exact .inr ⟨k, rfl, .inl rfl⟩
  case held l r =>
    cases r
    · cases h
      exact absurd rfl (hpanic _)
    · cases h
      rfl
  case kkill pid k => split at h <;> cases h <;> trivial
  case kkillTest pid k => split at h <;> cases h <;> trivial
  all_goals
    cases h
    simp [Op.thread, Pc.From]

/-- Outside of a trap, only `sleep` calls `sched`. -/
theorem code_sched {on : Bool} {d' : Data} {f : Bool → Thread} (h : th.code d me on a = some (.sched d' f)) :
    ∃ l, th.pc = .sleepSched l ∧ d' = d.setProc me { d.proc me with chan := some l, state := .sleeping } := by
  unfold Thread.code at h
  cases hpc : th.pc <;> rw [hpc] at h <;> dsimp only at h
  case run => cases a <;> cases h
  case test l => split at h <;> cases h
  case sleepSched l =>
    cases h
    exact ⟨l, rfl, rfl⟩
  case wakeup l k => split at h <;> (try split at h) <;> cases h
  case held l r => cases r <;> cases h
  case kkill pid k => split at h <;> cases h
  case kkillTest pid k => split at h <;> cases h
  all_goals cases h

/-- The operations that touch a sleep lock: it is found free and taken, or it is given back. -/
theorem op_slk {on : Bool} (h : th.op d me on a = some op) :
    ((op.data d).slk = d.slk ∧ (op.data d).owns = d.owns) ∨
    (∃ l, th.trap = none ∧ th.pc = .test l ∧ (d.slk l).locked = false ∧
      op = .release ((d.setSlk l ⟨true, (d.proc me).pid⟩).setOwns me l true) (.lk l) { th with pc := .run }) ∨
    ∃ l, th.trap = none ∧ th.pc = .clear l ∧ op = .goto ((d.setSlk l ⟨false, 0⟩).setOwns me l false) { th with pc := .wakeup l 0 } := by
  rcases op_cases h with ⟨htrap, hcode⟩ | ⟨t, -, rfl⟩
  · unfold Thread.code at hcode
    cases hpc : th.pc <;> rw [hpc] at hcode <;> dsimp only at hcode
    case run => cases a <;> cases hcode <;> exact .inl ⟨rfl, rfl⟩
    case test l =>
      split at hcode
      · cases hcode
        exact .inl ⟨rfl, rfl⟩
      · next hl =>
        cases hcode
        exact .inr (.inl ⟨l, htrap, rfl, by simpa using hl, rfl⟩)
    case clear l =>
      cases hcode
      exact .inr (.inr ⟨l, htrap, rfl, rfl⟩)
    case wakeup l k => split at hcode <;> (try split at hcode) <;> cases hcode <;> exact .inl ⟨rfl, rfl⟩
    case wakeupTest l k =>
      cases hcode
      dsimp only [Op.data]
      split <;> exact .inl ⟨rfl, rfl⟩
    case held l r => cases r <;> cases hcode <;> exact .inl ⟨rfl, rfl⟩
    case kkill pid k => split at hcode <;> cases hcode <;> exact .inl ⟨rfl, rfl⟩
    case kkillTest pid k => split at hcode <;> cases hcode <;> exact .inl ⟨rfl, rfl⟩
    all_goals
      cases hcode
      exact .inl ⟨rfl, rfl⟩
  · cases t <;> exact .inl ⟨rfl, rfl⟩

theorem locksOf_away (h : (s.cpus c).ctl = .away i) : s.locksOf c = (s.thread i).locks i := by
  rw [State.locksOf, h]

theorem locksOf_other {x : Nat} (hcpu : s'.cpus x = s.cpus x) (hth : ∀ j, (s.cpus x).ctl = .away j → s'.thread j = s.thread j) :
    s'.locksOf x = s.locksOf x := by
  unfold State.locksOf
  rw [hcpu]
  split
  any_goals rfl
  next j hj => rw [hth j hj]

section after

variable (s c i op)

theorem after_cpu : (op.after s c i).cpus c = op.cpu i (s.cpus c) := Function.update_self ..

theorem after_thread : (op.after s c i).thread i = op.thread (s.cpus c).intena (s.thread i) := Function.update_self ..

variable {s c i op} {x j : Nat}

theorem after_cpu_of_ne (h : x ≠ c) : (op.after s c i).cpus x = s.cpus x := Function.update_of_ne h ..

theorem after_thread_of_ne (h : j ≠ i) : (op.after s c i).thread j = s.thread j := Function.update_of_ne h ..

/-- An operation leaves the CPU with the process, or with the scheduler behind its switch. -/
theorem after_ctl (op : Op) (h : (s.cpus c).ctl = .away i) :
    ((op.after s c i).cpus c).ctl = .away i ∧ (∀ d f, op ≠ .sched d f) ∨ ((op.after s c i).cpus c).ctl = .home i ∧ ∃ d f, op = .sched d f := by
  rw [after_cpu]
  cases op
  case sched d f => exact .inr ⟨rfl, d, f, rfl⟩
  all_goals exact .inl ⟨h, by simp⟩

theorem Books.after_locksOf_of_ne (h : Books s) (hctl : (s.cpus c).ctl = .away i) (hx : x ≠ c) :
    (op.after s c i).locksOf x = s.locksOf x := by
  refine locksOf_other (after_cpu_of_ne hx) (fun j hj => after_thread_of_ne ?_)
  rintro rfl
  exact hx (h.alone x c j hj hctl)

theorem after_locksOf (hctl : (s.cpus c).ctl = .away i) (hfits : op.Fits i ((s.thread i).locks i)) :
    (op.after s c i).locksOf c = ((op.after s c i).thread i).locks i := by
  rcases after_ctl op hctl with ⟨haway, -⟩ | ⟨hhome, d, f, rfl⟩
  · exact locksOf_away haway
  · rw [State.locksOf, hhome, after_thread]
    exact (hfits.2.1 _).1.symm

end after

/-- The process that a CPU has switched to, and that is not elsewhere. -/
theorem after_away (h : Books s) (hctl : (s.cpus c).ctl = .away i) {x j : Nat} (hj : ((op.after s c i).cpus x).ctl = .away j) :
    (s.cpus x).ctl = .away j ∧ (x = c ∧ j = i ∧ (∀ d f, op ≠ .sched d f) ∨ x ≠ c ∧ j ≠ i) := by
  by_cases hx : x = c
  · subst hx
    rcases after_ctl op hctl with ⟨haway, hop⟩ | ⟨hhome, -⟩
    · rw [haway] at hj
      obtain rfl := Ctl.away.inj hj
      exact ⟨hctl, .inl ⟨rfl, rfl, hop⟩⟩
    · rw [hhome] at hj
      cases hj
  · rw [after_cpu_of_ne hx] at hj
    refine ⟨hj, .inr ⟨hx, ?_⟩⟩
    rintro rfl
    exact hx (h.alone x c j hj hctl)

theorem Books.after_held (h : Books s) (hctl : (s.cpus c).ctl = .away i) (hfits : op.Fits i ((s.thread i).locks i))
    (hfree : ∀ k th, op = .acquire k th → s.lock k = none) : Held (op.after s c i).lock (op.after s c i).locksOf := by
  have hother : ∀ x, x ≠ c → (op.after s c i).locksOf x = s.locksOf x := fun x hx => h.after_locksOf_of_ne hctl hx
  have hself := after_locksOf hctl hfits
  rw [after_thread] at hself
  have hls := locksOf_away hctl
  have hkeep (heq : (op.after s c i).locksOf c = s.locksOf c) (x : Nat) : ((op.after s c i).locksOf x).Perm (s.locksOf x) := by
    by_cases hx : x = c
    · rw [hx, heq]
    · rw [hother x hx]
  cases op with
  | acquire k th =>
    refine h.held.acquire (hfree k th rfl) ?_ hother
    rw [hself, hls]
    exact hfits.2
  | release d k th =>
    refine h.held.release ?_ hother
    rw [hself, hls]
    exact hfits
  | goto d th => exact h.held.keep (hkeep (by rw [hself, hls]; exact hfits))
  | sched d f => exact h.held.keep (hkeep (by rw [hself, hls, hfits.1]; exact (hfits.2.1 _).1))
  | restore b th => exact h.held.keep (hkeep (by rw [hself, hls]; exact hfits))
  | intr b th => exact h.held.keep (hkeep (by rw [hself, hls, hfits.1]; exact hfits.2))
  | panic msg => exact h.held.keep (hkeep (by rw [hself, hls]; rfl))

theorem Books.after_ok (h : Books s) (hctl : (s.cpus c).ctl = .away i) (hfits : op.Fits i ((s.thread i).locks i)) (x : Nat) :
    ((op.after s c i).cpus x).Ok ((op.after s c i).locksOf x) := by
  by_cases hx : x = c
  · subst hx
    obtain ⟨hnoff, hintr, hproc⟩ := h.cpu x
    rw [after_locksOf hctl hfits, after_cpu, after_thread]
    rw [locksOf_away hctl] at hnoff hintr
    rw [hctl] at hproc
    cases op with
    | acquire k th => exact ⟨by simp [Op.cpu, pushOff, Op.thread, hfits.2.length_eq, hnoff], fun _ => rfl, by simp [Op.cpu, pushOff, hctl, hproc]⟩
    | release d k th =>
      have hlen : (s.cpus x).noff = (th.locks i).length + 1 := by rw [hnoff, hfits.length_eq, List.length_cons]
      refine ⟨by simp [Op.cpu, popped, Op.thread, hlen], fun hne => ?_, by simp [Op.cpu, popped, hctl, hproc]⟩
      have hpos : (th.locks i).length ≠ 0 := fun hnil => hne (List.length_eq_zero_iff.mp hnil)
      simp [Op.cpu, popped, hlen, hpos]
    | goto d th =>
      have hls : th.locks i = (s.thread i).locks i := hfits
      exact ⟨by simpa [Op.cpu, Op.thread, hls] using hnoff, by simpa [Op.cpu, Op.thread, hls] using hintr, by simp [Op.cpu, hctl, hproc]⟩
    | sched d f =>
      have hls : (f (s.cpus x).intena).locks i = (s.thread i).locks i := by rw [hfits.1, (hfits.2.1 _).1]
      exact ⟨by simpa [Op.cpu, Op.thread, hls] using hnoff, by simpa [Op.cpu, Op.thread, hls] using hintr, by simp [Op.cpu, hproc, Ctl.proc]⟩
    | restore b th =>
      have hls : th.locks i = (s.thread i).locks i := hfits
      exact ⟨by simpa [Op.cpu, Op.thread, hls] using hnoff, by simpa [Op.cpu, Op.thread, hls] using hintr, by simp [Op.cpu, hctl, hproc]⟩
    | intr b th =>
      obtain ⟨hnil, hls⟩ := hfits
      rw [hnil] at hnoff
      exact ⟨by simp [Op.cpu, Op.thread, hls, hnoff], fun hne => absurd hls hne, by simp [Op.cpu, hctl, hproc]⟩
    | panic msg => exact ⟨hnoff, hintr, by simp [Op.cpu, hctl, hproc]⟩
  · rw [h.after_locksOf_of_ne hctl hx, after_cpu_of_ne hx]
    exact h.cpu x

theorem Books.after (h : Books s) (hctl : (s.cpus c).ctl = .away i) (hop : (s.thread i).op s.data i (s.cpus c).intr a = some op)
    (hfree : ∀ k th, op = .acquire k th → s.lock k = none) : Books (op.after s c i) := by
  have hfits : op.Fits i ((s.thread i).locks i) := op_fits (h.trap i) hop
  refine ⟨h.after_held hctl hfits hfree, h.after_ok hctl hfits, ?_, ?_, ?_, ?_, ?_, ?_, ?_⟩
  · intro x y j hx hy
    exact h.alone x y j (after_away h hctl hx).1 (after_away h hctl hy).1
  · intro x j hj
    obtain ⟨hj, hwho⟩ := after_away h hctl hj
    have hrun := h.running x j hj
    rcases (op_kept hop j).state with hsame | ⟨hsleep, -⟩ | ⟨rfl, ⟨d, f, hsched⟩, -⟩
    · exact hsame.trans hrun
    · rw [hsleep] at hrun
      cases hrun
    · rcases hwho with ⟨-, -, hno⟩ | ⟨-, hne⟩
      · exact absurd hsched (hno d f)
      · exact absurd rfl hne
  · intro j hj
    by_cases hji : j = i
    · subst hji
      rcases after_ctl op hctl with ⟨haway, -⟩ | ⟨-, d, f, rfl⟩
      · exact absurd haway (hj c)
      · rw [after_thread]
        exact (hfits.2.1 _).2
    · rw [after_thread_of_ne hji]
      refine h.parked j (fun x hx => hj x ?_)
      by_cases hxc : x = c
      · subst hxc
        rw [hctl] at hx
        exact absurd (Ctl.away.inj hx).symm hji
      · rwa [after_cpu_of_ne hxc]
  · intro j hj
    by_cases hji : j = i
    · subst hji
      rw [after_thread] at hj ⊢
      rcases op_cases hop with ⟨hnone, hcode⟩ | ⟨t, ht, rfl⟩
      · exact absurd (code_trap _ hnone hcode) hj
      · have hpc := h.trap j (by simp [ht])
        cases t <;> exact hpc
    · rw [after_thread_of_ne hji] at hj ⊢
      exact h.trap j hj
  · intro x j hj htrap
    obtain ⟨hj, ⟨rfl, rfl, -⟩ | ⟨hxc, hji⟩⟩ := after_away h hctl hj
    · rw [after_thread] at htrap
      rw [after_cpu]
      rcases op_cases hop with ⟨hnone, hcode⟩ | ⟨t, ht, rfl⟩
      · exact absurd (code_trap _ hnone hcode) htrap
      · have hoff := h.off x j hctl (by simp [ht])
        have hquiet := h.quiet x j hctl
        cases t with
        | yield => rfl
        | sched => exact hoff
        | back b => exact hoff
        | leave => simp [Thread.yield, Op.cpu, popped, hquiet (.inr ht)]
        | sret => exact absurd rfl htrap
    · rw [after_thread_of_ne hji] at htrap
      rw [after_cpu_of_ne hxc]
      exact h.off x j hj htrap
  · intro x j hj htrap
    obtain ⟨hj, ⟨rfl, rfl, -⟩ | ⟨hxc, hji⟩⟩ := after_away h hctl hj
    · rw [after_thread] at htrap
      rw [after_cpu]
      rcases op_cases hop with ⟨hnone, hcode⟩ | ⟨t, ht, rfl⟩
      · rw [code_trap _ hnone hcode] at htrap
        simp at htrap
      · have hoff := h.off x j hctl (by simp [ht])
        have hnoff := (h.cpu x).noff
        rw [locksOf_away hctl, Thread.locks, ht] at hnoff
        cases t with
        | yield => simp [Thread.yield, Op.cpu, pushOff, hoff, hnoff, Trap.locks]
        | sched => simp [Thread.yield, Op.thread] at htrap
        | back b => exact h.back j b ht
        | leave => simp [Thread.yield, Op.thread] at htrap
        | sret => simp [Thread.yield, Op.thread] at htrap
    · rw [after_thread_of_ne hji] at htrap
      rw [after_cpu_of_ne hxc]
      exact h.quiet x j hj htrap
  · intro j b hb
    by_cases hji : j = i
    · subst hji
      rw [after_thread] at hb
      rcases op_cases hop with ⟨hnone, hcode⟩ | ⟨t, ht, rfl⟩
      · rw [code_trap _ hnone hcode] at hb
        cases hb
      · have hquiet := h.quiet c j hctl
        cases t with
        | sched =>
          obtain rfl := Trap.back.inj (Option.some.inj hb)
          exact hquiet (.inl ht)
        | yield => cases hb
        | back b' => cases hb
        | leave => cases hb
        | sret => cases hb
    · rw [after_thread_of_ne hji] at hb
      exact h.back j b hb

/-! ### The scheduler's own steps -/

/-- CPU `c` has made a step of its scheduler, and has not switched to a process. -/
structure Idle (s : State) (c : Nat) (s' : State) : Prop where
  thread : s'.thread = s.thread
  data : s'.data = s.data
  other : ∀ x, x ≠ c → s'.cpus x = s.cpus x
  before : ∀ i, (s.cpus c).ctl ≠ .away i
  behind : ∀ i, (s'.cpus c).ctl ≠ .away i

theorem Idle.cpu (h : Idle s c s') {x : Nat} (hx : (s.cpus x).ctl = .away i ∨ (s'.cpus x).ctl = .away i) : s'.cpus x = s.cpus x := by
  by_cases hxc : x = c
  · subst hxc
    rcases hx with hx | hx
    · exact absurd hx (h.before i)
    · exact absurd hx (h.behind i)
  · exact h.other x hxc

theorem Idle.away (h : Idle s c s') {x : Nat} : (s'.cpus x).ctl = .away i ↔ (s.cpus x).ctl = .away i := by
  constructor
  · intro hx
    rwa [← h.cpu (.inr hx)]
  · intro hx
    rwa [h.cpu (.inl hx)]

theorem Idle.locksOf (h : Idle s c s') {x : Nat} (hx : x ≠ c) : s'.locksOf x = s.locksOf x :=
  locksOf_other (h.other x hx) (fun j _ => congrFun h.thread j)

theorem Books.idle (h : Books s) (hidle : Idle s c s') (hheld : Held s'.lock s'.locksOf) (hok : (s'.cpus c).Ok (s'.locksOf c)) : Books s' where
  held := hheld
  cpu x := by
    by_cases hx : x = c
    · rwa [hx]
    · rw [hidle.locksOf hx, hidle.other x hx]
      exact h.cpu x
  alone x y j hx hy := h.alone x y j (hidle.away.mp hx) (hidle.away.mp hy)
  running x j hj := by
    rw [hidle.data]
    exact h.running x j (hidle.away.mp hj)
  parked j hj := by
    rw [hidle.thread]
    exact h.parked j (fun x hx => hj x (hidle.away.mpr hx))
  trap j hj := by
    rw [hidle.thread] at hj ⊢
    exact h.trap j hj
  off x j hj htrap := by
    rw [hidle.thread] at htrap
    rw [hidle.cpu (.inr hj)]
    exact h.off x j (hidle.away.mp hj) htrap
  quiet x j hj htrap := by
    rw [hidle.thread] at htrap
    rw [hidle.cpu (.inr hj)]
    exact h.quiet x j (hidle.away.mp hj) htrap
  back j b hb := by
    rw [hidle.thread] at hb
    exact h.back j b hb

section scheduler

variable {u : Cpu} {k : LockId}

/-- Where the scheduler of CPU `c` is next, with the CPU and the table of spinlocks that its step leaves. -/
def State.onto (s : State) (c : Nat) (u : Cpu) (lock : LockId → Option Nat) : State := { s.setCpu c u with lock := lock }

theorem onto_idle (hbefore : ∀ i, (s.cpus c).ctl ≠ .away i) (hbehind : ∀ i, u.ctl ≠ .away i) (lock : LockId → Option Nat) :
    Idle s c (s.onto c u lock) where
  thread := rfl
  data := rfl
  other x hx := Function.update_of_ne hx ..
  before := hbefore
  behind i := by simpa [State.onto, State.setCpu] using hbehind i

/-- The spinlocks that the scheduler holds. -/
def Ctl.locks : Ctl → List LockId
  | .look i | .home i => [.proc i]
  | .loop | .scan _ | .away _ => []

theorem locksOf_ctl (h : ∀ i, (s.cpus c).ctl ≠ .away i) : s.locksOf c = (s.cpus c).ctl.locks := by
  unfold State.locksOf
  cases hctl : (s.cpus c).ctl with
  | away i => exact absurd hctl (h i)
  | loop => rfl
  | scan i => rfl
  | look i => rfl
  | home i => rfl

theorem Books.goes (h : Books s) (hbefore : ∀ i, (s.cpus c).ctl ≠ .away i) (hbehind : ∀ i, u.ctl ≠ .away i)
    (hls : u.ctl.locks = (s.cpus c).ctl.locks) (hok : u.Ok u.ctl.locks) : Books (s.onto c u s.lock) := by
  have hidle := onto_idle hbefore hbehind s.lock
  have hself : (s.onto c u s.lock).cpus c = u := Function.update_self ..
  have hown : (s.onto c u s.lock).locksOf c = u.ctl.locks := by rw [locksOf_ctl hidle.behind, hself]
  refine h.idle hidle (h.held.keep fun x => ?_) (by rwa [hown, hself])
  by_cases hx : x = c
  · rw [hx, hown, hls, locksOf_ctl hbefore]
  · rw [hidle.locksOf hx]

theorem Books.takes (h : Books s) (hbefore : ∀ i, (s.cpus c).ctl ≠ .away i) (hbehind : ∀ i, u.ctl ≠ .away i) (hk : s.lock k = none)
    (hls : u.ctl.locks = k :: (s.cpus c).ctl.locks) (hok : u.Ok u.ctl.locks) : Books (s.onto c u (Function.update s.lock k (some c))) := by
  have hidle := onto_idle hbefore hbehind (Function.update s.lock k (some c))
  have hself : (s.onto c u (Function.update s.lock k (some c))).cpus c = u := Function.update_self ..
  have hown : (s.onto c u (Function.update s.lock k (some c))).locksOf c = u.ctl.locks := by rw [locksOf_ctl hidle.behind, hself]
  refine h.idle hidle (h.held.acquire hk ?_ fun x hx => hidle.locksOf hx) (by rwa [hown, hself])
  rw [hown, hls, locksOf_ctl hbefore]

theorem Books.gives (h : Books s) (hbefore : ∀ i, (s.cpus c).ctl ≠ .away i) (hbehind : ∀ i, u.ctl ≠ .away i)
    (hls : (s.cpus c).ctl.locks = k :: u.ctl.locks) (hok : u.Ok u.ctl.locks) : Books (s.onto c u (Function.update s.lock k none)) := by
  have hidle := onto_idle hbefore hbehind (Function.update s.lock k none)
  have hself : (s.onto c u (Function.update s.lock k none)).cpus c = u := Function.update_self ..
  have hown : (s.onto c u (Function.update s.lock k none)).locksOf c = u.ctl.locks := by rw [locksOf_ctl hidle.behind, hself]
  refine h.idle hidle (h.held.release ?_ fun x hx => hidle.locksOf hx) (by rwa [hown, hself])
  rw [hown, ← hls, locksOf_ctl hbefore]

theorem setCtl_onto (u : Cpu) (lock : LockId → Option Nat) (ctl : Ctl) :
    ({ s.setCpu c u with lock := lock } : State).setCtl c ctl = s.onto c { u with ctl := ctl } lock := by
  simp [State.setCtl, State.setCpu, State.onto]

/-- The switch of the scheduler to process `i`. -/
def State.dispatch (s : State) (c i : Nat) : State :=
  { s with data := s.data.setProc i { s.data.proc i with state := .running } }.setCpu c { s.cpus c with proc := some i, ctl := .away i }

/-- What the scheduler's own steps are. -/
theorem scheduler_step (h : Books s) (hstep : step s c a = .next s') (hbefore : ∀ i, (s.cpus c).ctl ≠ .away i) :
    (Idle s c s' ∧ Books s') ∨ ∃ i, (s.cpus c).ctl = .look i ∧ (s.data.proc i).state = .runnable ∧ s' = s.dispatch c i := by
  have hok := h.cpu c
  rw [locksOf_ctl hbefore] at hok
  obtain ⟨hnoff, hintr, hproc⟩ := hok
  unfold step at hstep
  cases hctl : (s.cpus c).ctl <;> rw [hctl] at hstep hnoff hintr hproc <;> dsimp only at hstep
  case loop =>
    obtain rfl := Result.next.inj hstep
    exact .inl ⟨onto_idle hbefore (by simp) s.lock, h.goes hbefore (by simp) (by rw [hctl]; rfl) ⟨hnoff, fun _ => rfl, hproc⟩⟩
  case scan j =>
    split at hstep
    · obtain ⟨t, ht, hs⟩ := bind_next hstep
      obtain ⟨hk, rfl⟩ := acquire_next ht
      obtain rfl := Result.next.inj hs
      rw [setCtl_onto]
      exact .inl ⟨onto_idle hbefore (by simp) _, h.takes hbefore (by simp) hk (by rw [hctl]; rfl)
        ⟨by simp [pushOff, hnoff, Ctl.locks], fun _ => rfl, by simpa [pushOff, Ctl.proc] using hproc⟩⟩
    · obtain rfl := Result.next.inj hstep
      exact .inl ⟨onto_idle hbefore (by simp) s.lock, h.goes hbefore (by simp) (by rw [hctl]; rfl) ⟨hnoff, hintr, hproc⟩⟩
  case look j =>
    split at hstep
    · next hrun => exact .inr ⟨j, rfl, hrun, (Result.next.inj hstep).symm⟩
    · obtain ⟨t, ht, hs⟩ := bind_next hstep
      obtain rfl := release_next ht
      obtain rfl := Result.next.inj hs
      rw [setCtl_onto]
      exact .inl ⟨onto_idle hbefore (by simp) _, h.gives hbefore (by simp) (by rw [hctl]; rfl)
        ⟨by simp [popped, hnoff, Ctl.locks], fun hne => absurd rfl hne, by simpa [popped, Ctl.proc] using hproc⟩⟩
  case away j => exact absurd hctl (hbefore j)
  case home j =>
    obtain ⟨t, ht, hs⟩ := bind_next hstep
    obtain rfl := release_next ht
    obtain rfl := Result.next.inj hs
    have hcpu : (s.setCpu c { s.cpus c with proc := none }).cpus c = { s.cpus c with proc := none } := Function.update_self ..
    have heq : ({ (s.setCpu c { s.cpus c with proc := none }).setCpu c (popped { s.cpus c with proc := none }) with
        lock := Function.update (s.setCpu c { s.cpus c with proc := none }).lock (.proc j) none } : State).setCtl c (.scan (j + 1)) =
        s.onto c { popped { s.cpus c with proc := none } with ctl := .scan (j + 1) } (Function.update s.lock (.proc j) none) := by
      simp [State.setCtl, State.setCpu, State.onto]
    rw [hcpu, heq]
    exact .inl ⟨onto_idle hbefore (by simp) _, h.gives hbefore (by simp) (by rw [hctl]; rfl)
      ⟨by simp [popped, hnoff, Ctl.locks], fun hne => absurd rfl hne, rfl⟩⟩

end scheduler

/-- A process that the scheduler finds runnable waits for a CPU. -/
theorem Books.resumes (h : Books s) (hrun : (s.data.proc i).state = .runnable) : (s.thread i).Resumes := by
  refine h.parked i (fun x hx => ?_)
  have := h.running x i hx
  rw [hrun] at this
  cases this

theorem Books.dispatch (h : Books s) (hctl : (s.cpus c).ctl = .look i) (hrun : (s.data.proc i).state = .runnable) : Books (s.dispatch c i) := by
  have hres := h.resumes hrun
  have hself : (s.dispatch c i).cpus c = { s.cpus c with proc := some i, ctl := .away i } := Function.update_self ..
  have hother {x : Nat} (hx : x ≠ c) : (s.dispatch c i).cpus x = s.cpus x := Function.update_of_ne hx ..
  have hls : s.locksOf c = [.proc i] := by rw [State.locksOf, hctl]
  have hown : (s.dispatch c i).locksOf c = [.proc i] := by
    rw [locksOf_away (i := i) (by rw [hself])]
    exact hres.locks i
  have hrest {x : Nat} (hx : x ≠ c) : (s.dispatch c i).locksOf x = s.locksOf x := locksOf_other (hother hx) (fun _ _ => rfl)
  have haway {x j : Nat} (hj : ((s.dispatch c i).cpus x).ctl = .away j) : x = c ∧ j = i ∨ x ≠ c ∧ j ≠ i ∧ (s.cpus x).ctl = .away j := by
    by_cases hx : x = c
    · subst hx
      rw [hself] at hj
      exact .inl ⟨rfl, (Ctl.away.inj hj).symm⟩
    · rw [hother hx] at hj
      refine .inr ⟨hx, ?_, hj⟩
      rintro rfl
      have := h.running x j hj
      rw [hrun] at this
      cases this
  have hok := h.cpu c
  rw [hls] at hok
  refine ⟨h.held.keep fun x => ?_, fun x => ?_, fun x y j hx hy => ?_, fun x j hj => ?_, fun j hj => ?_, h.trap, fun x j hj htrap => ?_,
    fun x j hj htrap => ?_, h.back⟩
  · by_cases hx : x = c
    · rw [hx, hown, hls]
    · rw [hrest hx]
  · by_cases hx : x = c
    · rw [hx, hown, hself]
      exact ⟨hok.noff, hok.intr, rfl⟩
    · rw [hrest hx, hother hx]
      exact h.cpu x
  · rcases haway hx with ⟨rfl, rfl⟩ | ⟨-, hji, hx⟩ <;> rcases haway hy with ⟨rfl, hj⟩ | ⟨-, hji', hy⟩
    · rfl
    · exact absurd rfl hji'
    · exact absurd hj hji
    · exact h.alone x y j hx hy
  · rcases haway hj with ⟨rfl, rfl⟩ | ⟨-, hji, hj⟩
    · simp [State.dispatch, State.setCpu, setProc_proc]
    · simpa [State.dispatch, State.setCpu, setProc_proc, hji] using h.running x j hj
  · refine h.parked j (fun x hx => hj x ?_)
    by_cases hxc : x = c
    · rw [hxc, hctl] at hx
      cases hx
    · rwa [hother hxc]
  · rcases haway hj with ⟨rfl, rfl⟩ | ⟨hxc, -, hj⟩
    · rw [hself]
      exact hok.intr (by simp)
    · rw [hother hxc]
      exact h.off x j hj htrap
  · rcases haway hj with ⟨rfl, rfl⟩ | ⟨hxc, -, hj⟩
    · rcases hres with ⟨hnone, -⟩ | ⟨b, hb⟩
      · simp [State.dispatch, State.setCpu, hnone] at htrap
      · simp [State.dispatch, State.setCpu, hb] at htrap
    · rw [hother hxc]
      exact h.quiet x j hj htrap

/-- The interrupt of the timer on a CPU that runs process `i`. -/
def State.interrupt (s : State) (c i : Nat) : State :=
  (s.setCpu c { s.cpus c with intr := false }).setThread i { s.thread i with trap := some .yield }

/-- A thread that an interrupt may stop is not in a trap and holds no spinlock. -/
theorem Books.interruptible (h : Books s) (hctl : (s.cpus c).ctl = .away i) (hintr : (s.cpus c).intr = true) :
    (s.thread i).trap = none ∧ (s.thread i).pc.locks i = [] := by
  have htrap : (s.thread i).trap = none := by
    by_contra hne
    rw [h.off c i hctl hne] at hintr
    cases hintr
  have hls : s.locksOf c = [] := by
    by_contra hne
    rw [(h.cpu c).intr hne] at hintr
    cases hintr
  rw [locksOf_away hctl, Thread.locks, htrap] at hls
  exact ⟨htrap, hls⟩

theorem Books.interrupt (h : Books s) (hctl : (s.cpus c).ctl = .away i) (hintr : (s.cpus c).intr = true) : Books (s.interrupt c i) := by
  obtain ⟨htrap, hpc⟩ := h.interruptible hctl hintr
  have hself : (s.interrupt c i).cpus c = { s.cpus c with intr := false } := Function.update_self ..
  have hother {x : Nat} (hx : x ≠ c) : (s.interrupt c i).cpus x = s.cpus x := Function.update_of_ne hx ..
  have hthread : (s.interrupt c i).thread i = { s.thread i with trap := some .yield } := Function.update_self ..
  have hthreads {j : Nat} (hj : j ≠ i) : (s.interrupt c i).thread j = s.thread j := Function.update_of_ne hj ..
  have hctl' {x : Nat} : ((s.interrupt c i).cpus x).ctl = (s.cpus x).ctl := by
    by_cases hx : x = c
    · rw [hx, hself]
    · rw [hother hx]
  have hls : s.locksOf c = [] := by rw [locksOf_away hctl, Thread.locks, htrap, hpc]
  have hlocks (x : Nat) : (s.interrupt c i).locksOf x = s.locksOf x := by
    by_cases hx : x = c
    · rw [hx, hls, locksOf_away (i := i) (hctl'.trans hctl), hthread]
      rfl
    · refine locksOf_other (hother hx) (fun j hj => hthreads ?_)
      rintro rfl
      exact hx (h.alone x c j hj hctl)
  refine ⟨h.held.keep fun x => by rw [hlocks], fun x => ?_, fun x y j hx hy => ?_, fun x j hj => ?_, fun j hj => ?_, fun j hj => ?_,
    fun x j hj hne => ?_, fun x j hj hne => ?_, fun j b hb => ?_⟩
  · rw [hlocks]
    by_cases hx : x = c
    · subst hx
      rw [hself]
      exact ⟨(h.cpu x).noff, fun _ => rfl, (h.cpu x).proc⟩
    · rw [hother hx]
      exact h.cpu x
  · rw [hctl'] at hx hy
    exact h.alone x y j hx hy
  · rw [hctl'] at hj
    exact h.running x j hj
  · have hji : j ≠ i := by
      rintro rfl
      exact hj c (hctl'.trans hctl)
    rw [hthreads hji]
    exact h.parked j (fun x hx => hj x (hctl'.trans hx))
  · by_cases hji : j = i
    · rw [hji, hthread]
      exact hpc
    · rw [hthreads hji] at hj ⊢
      exact h.trap j hj
  · rw [hctl'] at hj
    by_cases hx : x = c
    · rw [hx, hself]
    · have hji : j ≠ i := by
        rintro rfl
        exact hx (h.alone x c j hj hctl)
      rw [hthreads hji] at hne
      rw [hother hx]
      exact h.off x j hj hne
  · rw [hctl'] at hj
    by_cases hji : j = i
    · rw [hji, hthread] at hne
      simp at hne
    · have hx : x ≠ c := by
        rintro rfl
        rw [hctl] at hj
        exact hji (Ctl.away.inj hj).symm
      rw [hthreads hji] at hne
      rw [hother hx]
      exact h.quiet x j hj hne
  · by_cases hji : j = i
    · rw [hji, hthread] at hb
      simp at hb
    · rw [hthreads hji] at hb
      exact h.back j b hb

/-- Two threads do not hold one spinlock, unless they wait for a CPU. -/
theorem Books.exclusive {j : Nat} {k : LockId} (h : Books s) (hi : k ∈ (s.thread i).locks i) (hj : k ∈ (s.thread j).locks j)
    (hi' : ¬(s.thread i).Resumes) (hj' : ¬(s.thread j).Resumes) : i = j := by
  obtain ⟨x, hx⟩ := not_forall_not.mp (fun hno => hi' (h.parked i hno))
  obtain ⟨y, hy⟩ := not_forall_not.mp (fun hno => hj' (h.parked j hno))
  rw [← locksOf_away hx] at hi
  rw [← locksOf_away hy] at hj
  obtain rfl := h.held.unique hi hj
  rw [hx] at hy
  exact Ctl.away.inj hy

/-! ### The steps of the machine -/

/-- What a step does: the scheduler goes on, it switches to a process, an interrupt stops a thread, or a thread goes on. -/
inductive Moved (s : State) (c : Nat) (a : Act) (s' : State) : Prop where
  | idle (h : Idle s c s')
  | dispatch (i : Nat) (hctl : (s.cpus c).ctl = .look i) (hrun : (s.data.proc i).state = .runnable) (heq : s' = s.dispatch c i)
  | interrupt (i : Nat) (hctl : (s.cpus c).ctl = .away i) (hintr : (s.cpus c).intr = true) (heq : s' = s.interrupt c i)
  | thread (i : Nat) (op : Op) (hctl : (s.cpus c).ctl = .away i) (hop : (s.thread i).op s.data i (s.cpus c).intr a = some op)
      (hpanic : ∀ msg, op ≠ .panic msg) (heq : s' = op.after s c i)

theorem Books.step (h : Books s) (hstep : step s c a = .next s') : Books s' ∧ Moved s c a s' := by
  by_cases hbefore : ∀ i, (s.cpus c).ctl ≠ .away i
  · rcases scheduler_step h hstep hbefore with ⟨hidle, hbooks⟩ | ⟨i, hctl, hrun, rfl⟩
    · exact ⟨hbooks, .idle hidle⟩
    · exact ⟨h.dispatch hctl hrun, .dispatch i hctl hrun rfl⟩
  · obtain ⟨i, hctl⟩ := not_forall_not.mp hbefore
    unfold Sched.step at hstep
    rw [hctl] at hstep
    dsimp only at hstep
    split at hstep
    · unfold timer at hstep
      split at hstep
      · next hintr =>
        obtain rfl := Result.next.inj hstep
        exact ⟨h.interrupt hctl hintr, .interrupt i hctl hintr rfl⟩
      · cases hstep
    · split at hstep
      · cases hstep
      · next op hop =>
        obtain ⟨rfl, hfree⟩ := exec_next hstep
        refine ⟨h.after hctl hop hfree, .thread i op hctl hop ?_ rfl⟩
        rintro msg rfl
        cases hstep

theorem books_init (h : Init s) : Books s := by
  have hnone (c : Nat) : s.locksOf c = [] := by rw [State.locksOf, (h.cpus c).1]
  have haway (c i : Nat) (hi : (s.cpus c).ctl = .away i) : False := by
    rw [(h.cpus c).1] at hi
    cases hi
  have htrap (i : Nat) (hi : (s.thread i).trap ≠ none) : False := hi (h.thread i).2
  exact {
    held := ⟨fun k c => by simp [h.lock, hnone], fun c => by simp [hnone]⟩
    cpu := fun c => by
      rw [hnone]
      exact ⟨(h.cpus c).2.2, fun hne => absurd rfl hne, by rw [(h.cpus c).2.1, (h.cpus c).1]; rfl⟩
    alone := fun c _ i hc _ => (haway c i hc).elim
    running := fun c i hc => (haway c i hc).elim
    parked := fun i _ => .inl ⟨(h.thread i).2, .inl (h.thread i).1⟩
    trap := fun i hi => (htrap i hi).elim
    off := fun c i hc _ => (haway c i hc).elim
    quiet := fun c i hc _ => (haway c i hc).elim
    back := fun i b hb => by
      rw [(h.thread i).2] at hb
      cases hb }

end Xv6SnifferBakery.Sched
