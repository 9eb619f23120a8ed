import Xv6SnifferBakery.Kernel.System
import Xv6SnifferBakery.Lemmas.Exec

/-!
# What the system calls on processes do

`freeproc`, `allocproc`, `kfork`, `kexit` and `kwait`, and the system as a transition system of events: every step is a run of
them.
-/

namespace Xv6SnifferBakery.Kernel

open Lib

/-! ## Slots -/

/-- A slot without a process. -/
structure Proc.Empty (p : Proc) : Prop where
  state : p.state = .unused
  trapframe : p.trapframe = none
  pagetable : p.pagetable = PageTable.null

theorem Proc.Empty.owned {p : Proc} (h : p.Empty) : p.owned = 0 := by
  rw [Proc.owned, h.trapframe, h.pagetable, PageTable.pages_null]
  rfl

/-- A slot is empty, or its process is well formed and exists or has exited. -/
def SlotOk (p : Proc) : Prop := p.Empty ∨ (p.Wf ∧ (p.live ∨ p.state = .zombie))

theorem SlotOk.wf {p : Proc} (h : SlotOk p) (hne : p.state ≠ .unused) : p.Wf :=
  h.elim (fun he => absurd he.state hne) And.left

theorem Proc.live.ne_unused {p : Proc} (h : p.live) : p.state ≠ .unused := by
  rcases h with h | h | h <;> simp [h]

theorem firstProc_some {f : Proc → Bool} {proc : Nat → Proc} {i n j : Nat} (h : firstProc f proc i n = some j) :
    f (proc j) = true ∧ i ≤ j ∧ j < i + n := by
  induction n generalizing i with
  | zero => nomatch h
  | succ n ih =>
    rw [firstProc] at h
    split at h
    · rename_i hf
      obtain rfl := Option.some.inj h
      exact ⟨hf, le_refl _, by omega⟩
    · obtain ⟨h1, h2, h3⟩ := ih h
      exact ⟨h1, by omega, by omega⟩

section Calls

variable {m m' : Machine} {p p' : Proc} {st : Nat}

/-! ## `freeproc` and `allocproc` -/

/-- `freeproc`: what the process owned is free. -/
theorem freeproc_spec (h : freeproc m p st = .ok (m', p')) (hroot : p.pagetable.root.isSome ∨ p.pagetable = PageTable.null)
    (hst : st = 0 ∨ StackTop st) : Moves m p.owned m' 0 ∧ p' = p.freed := by
  have htable : ∀ m₁, (do
      let m ← if p.pagetable.root.isSome then procFreepagetable m₁ p.pagetable p.sz st else .ok m₁
      .ok (m, p.freed) : Kern (Machine × Proc)) = .ok (m', p') → Moves m₁ p.pagetable.pages m' 0 ∧ p' = p.freed := fun m₁ hf => by
    split at hf
    · rename_i hr
      obtain ⟨m₂, h2, hf⟩ := bind_ok hf
      simp only [Except.ok.injEq, Prod.mk.injEq] at hf
      obtain ⟨rfl, rfl⟩ := hf
      exact ⟨procFreepagetable_moves h2 hr hst, rfl⟩
    · rename_i hr
      obtain ⟨m₂, h2, hf⟩ := bind_ok hf
      simp only [Except.ok.injEq, Prod.mk.injEq] at hf
      obtain ⟨rfl, rfl⟩ := hf
      obtain rfl := Except.ok.inj h2
      rw [hroot.resolve_left hr, PageTable.pages_null]
      exact ⟨Moves.refl _ _, rfl⟩
  unfold freeproc at h
  cases htf : p.trapframe with
  | none =>
    simp only [htf] at h
    obtain ⟨hm, hp⟩ := htable _ h
    refine ⟨?_, hp⟩
    rw [Proc.owned, htf, slot_none, zero_add]
    exact hm
  | some pa =>
    simp only [htf] at h
    obtain ⟨m₁, h1, h⟩ := bind_ok h
    obtain ⟨hm, hp⟩ := htable _ h
    refine ⟨?_, hp⟩
    rw [Proc.owned, htf, slot_some]
    exact (((kfree_moves h1).frame _).congr rfl (zero_add _)).trans hm

theorem freed_empty : p.freed.Empty := ⟨rfl, rfl, rfl⟩

/-- The process `allocproc` makes in an unused slot. -/
def Proc.born (p : Proc) (pid : Int) (tf : Pa) (pt : PageTable) : Proc :=
  { p with pid := pid, state := .used, trapframe := some tf, pagetable := pt }.initPaging

/-- `allocproc` in an empty slot. -/
theorem allocprocAt_spec {pid : Int} {b : Bool} (hp : p.Empty) (hst : st = 0 ∨ StackTop st)
    (h : allocprocAt m p pid st = .ok (m', p', b)) :
    (b = false ∧ Moves m 0 m' 0 ∧ p'.Empty) ∨
    (b = true ∧ ∃ tf pt, Moves m 0 m' ({tf} + pt.pages) ∧ FreshTable m.trampoline tf pt ∧ p' = p.born pid tf pt) := by
  unfold allocprocAt at h
  cases hk : kalloc m with
  | none =>
    simp only [hk] at h
    obtain ⟨⟨m₁, p₁⟩, hf, h⟩ := bind_ok h
    simp only [Except.ok.injEq, Prod.mk.injEq] at h
    obtain ⟨rfl, rfl, rfl⟩ := h
    obtain ⟨hm, rfl⟩ := freeproc_spec hf (Or.inr hp.pagetable) hst
    refine Or.inl ⟨rfl, hm.congr ?_ rfl, freed_empty⟩
    change slot none + p.pagetable.pages = 0
    rw [hp.pagetable, PageTable.pages_null]
    rfl
  | some x =>
    obtain ⟨m₁, pa⟩ := x
    have hm₁ := kalloc_moves hk
    simp only [hk] at h
    obtain ⟨⟨m₂, o⟩, hpt, h⟩ := bind_ok h
    rcases procPagetable_spec hpt with ⟨rfl, hm₂⟩ | ⟨pt, rfl, hm₂, hfresh⟩
    · obtain ⟨⟨m₃, p₃⟩, hf, h⟩ := bind_ok h
      simp only [Except.ok.injEq, Prod.mk.injEq] at h
      obtain ⟨rfl, rfl, rfl⟩ := h
      obtain ⟨hm₃, rfl⟩ := freeproc_spec hf (Or.inr rfl) hst
      have howned : ({ p with pid := pid, state := .used, trapframe := some pa, pagetable := PageTable.null } : Proc).owned =
          {pa} := by
        change slot (some pa) + PageTable.null.pages = _
        rw [PageTable.pages_null, slot_some, add_zero]
      refine Or.inl ⟨rfl, ?_, freed_empty⟩
      exact hm₁.trans (((hm₂.frame {pa}).congr (zero_add _) (zero_add _)).trans (hm₃.congr howned rfl))
    · simp only [Except.ok.injEq, Prod.mk.injEq] at h
      obtain ⟨rfl, rfl, rfl⟩ := h
      refine Or.inr ⟨rfl, pa, pt, ?_, hm₁.trampoline ▸ hfresh, rfl⟩
      exact hm₁.trans ((hm₂.frame {pa}).congr (zero_add _) (add_comm _ _))

end Calls

/-- `allocproc`. -/
theorem allocproc_spec {s t : Sys} {st : Nat} {o : Option Nat} (hslots : ∀ i < nProc, SlotOk (s.proc i))
    (hst : st = 0 ∨ StackTop st) (h : allocproc s st = .ok (t, o)) :
    (o = none ∧ (t = s ∨ ∃ j m p, j < nProc ∧ (s.proc j).Empty ∧ p.Empty ∧ Moves s.m 0 m 0 ∧
      t = { s.put j m p with nextpid := wrap32 (s.nextpid + 1) })) ∨
    ∃ j m tf pt, o = some j ∧ j < nProc ∧ (s.proc j).Empty ∧ Moves s.m 0 m ({tf} + pt.pages) ∧
      FreshTable s.m.trampoline tf pt ∧
      t = { s.put j m ((s.proc j).born s.nextpid tf pt) with nextpid := wrap32 (s.nextpid + 1) } := by
  unfold allocproc at h
  cases hf : firstProc (fun p => p.state = .unused) s.proc 0 nProc with
  | none =>
    simp only [hf, Except.ok.injEq, Prod.mk.injEq] at h
    exact Or.inl ⟨h.2.symm, Or.inl h.1.symm⟩
  | some j =>
    obtain ⟨hstate, -, hlt⟩ := firstProc_some hf
    have hlt : j < nProc := by omega
    have hempty : (s.proc j).Empty := by
      rcases hslots j hlt with he | ⟨-, hl⟩
      · exact he
      · have hu : (s.proc j).state = .unused := by simpa using hstate
        rcases hl with hl | hl
        · exact absurd hu hl.ne_unused
        · rw [hl] at hu
          nomatch hu
    simp only [hf] at h
    obtain ⟨⟨m, p, b⟩, ha, h⟩ := bind_ok h
    simp only [Except.ok.injEq, Prod.mk.injEq] at h
    obtain ⟨rfl, rfl⟩ := h
    rcases allocprocAt_spec hempty hst ha with ⟨rfl, hm, hp⟩ | ⟨rfl, tf, pt, hm, hfresh, rfl⟩
    · exact Or.inl ⟨rfl, Or.inr ⟨j, m, p, hlt, hempty, hp, hm, rfl⟩⟩
    · exact Or.inr ⟨j, m, tf, pt, rfl, hlt, hempty, hm, hfresh, rfl⟩

/-! ## `kfork` -/

/-- The state after a fork of process `i` that made a child in slot `j`: the child's table `pt` was fresh, `pt'` holds the copies. -/
structure ForkDone (s : Sys) (i j : Nat) (t : Sys) (m₁ : Machine) (tf : Pa) (pt : PageTable) (m₂ : Machine) (pt' : PageTable)
    (fs : Fs) : Prop where
  lt : j < nProc
  empty : (s.proc j).Empty
  alloc : Moves s.m 0 m₁ ({tf} + pt.pages)
  fresh : FreshTable s.m.trampoline tf pt
  copies : Copies (s.proc i).pagetable m₁ pt (((s.proc i).sz + 4095) / 4096) m₂ pt'
  refs : forkRefs m₂.fs (s.proc i) = .ok fs
  result : t = { s.put j (m₂.withFs fs) (((s.proc j).born s.nextpid tf pt).forkFrom (s.proc i) i pt') with
    nextpid := wrap32 (s.nextpid + 1) }

/-- The state after a fork that failed: nothing, or a slot that is empty again. -/
def ForkFail (s t : Sys) : Prop :=
  t = s ∨ ∃ j m p, j < nProc ∧ (s.proc j).Empty ∧ p.Empty ∧ Moves s.m 0 m 0 ∧
    t = { s.put j m p with nextpid := wrap32 (s.nextpid + 1) }

theorem put_put (s : Sys) (j : Nat) (m m' : Machine) (p p' : Proc) (n : Int) :
    ({ s.put j m p with nextpid := n } : Sys).put j m' p' = { s.put j m' p' with nextpid := n } := by
  simp [Sys.put]

/-- `kfork`. -/
theorem kfork_spec {s t : Sys} {i : Nat} {o : Option Nat} (hslots : ∀ i < nProc, SlotOk (s.proc i)) (hi : (s.proc i).Wf)
    (h : kfork s i = .ok (t, o)) :
    (o = none ∧ ForkFail s t) ∨ ∃ j m₁ tf pt m₂ pt' fs, o = some j ∧ ForkDone s i j t m₁ tf pt m₂ pt' fs := by
  obtain ⟨⟨s₁, o₁⟩, ha, h⟩ := bind_ok h
  rcases allocproc_spec hslots (Or.inr hi.stack) ha with ⟨rfl, hfail⟩ | ⟨j, m₁, tf, pt, rfl, hlt, hempty, hm₁, hfresh, rfl⟩
  · simp only [Except.ok.injEq, Prod.mk.injEq] at h
    obtain ⟨rfl, rfl⟩ := h
    exact Or.inl ⟨rfl, hfail⟩
  · obtain ⟨⟨m₂, pt', b⟩, hc, h⟩ := bind_ok h
    simp only [Sys.put_m, Sys.put_proc_self] at hc h
    rcases uvmcopy_spec hc hi.topped hfresh.topped with ⟨rfl, hcopies⟩ | ⟨rfl, hm₂, hroot, -⟩
    · obtain ⟨fs, hr, h⟩ := bind_ok h
      simp only [Except.ok.injEq, Prod.mk.injEq] at h
      obtain ⟨rfl, rfl⟩ := h
      exact Or.inr ⟨j, m₁, tf, pt, m₂, pt', fs, rfl, hlt, hempty, hm₁, hfresh, hcopies, hr, put_put _ _ _ _ _ _ _⟩
    · obtain ⟨⟨m₃, np⟩, hf, h⟩ := bind_ok h
      simp only [Except.ok.injEq, Prod.mk.injEq] at h
      obtain ⟨rfl, rfl⟩ := h
      obtain ⟨hm₃, rfl⟩ := freeproc_spec hf (Or.inl (by rw [hroot]; exact hfresh.root)) (Or.inr hi.stack)
      refine Or.inl ⟨rfl, Or.inr ⟨j, m₃, _, hlt, hempty, freed_empty, ?_, put_put _ _ _ _ _ _ _⟩⟩
      exact hm₁.trans (((hm₂.frame {tf}).congr (add_comm _ _) (add_comm _ _)).trans hm₃)

/-! ## `sys_sbrk` -/

/-- A shrink that would take the trapframe page out with the heap: the size reaches above it, and a page is unmapped. -/
def shrinksPastTrapframe (p : Proc) (n : Int) : Prop :=
  n < 0 ∧ addInt p.sz n < p.sz ∧ trapframeVa < pgRoundUp p.sz ∧ pgRoundUp (addInt p.sz n) < pgRoundUp p.sz

instance (p : Proc) (n : Int) : Decidable (shrinksPastTrapframe p n) := inferInstanceAs (Decidable (_ ∧ _))

/-- Every way `sys_sbrk` can go. -/
inductive SbrkSpec (m : Machine) (p : Proc) (n : Int) (eager : Bool) : Machine → Proc → Prop where
  | same : SbrkSpec m p n eager m p
  | lazy (sz : Nat) : SbrkSpec m p n eager m { p with sz := sz }
  | grow {m' : Machine} {pt : PageTable} {hi sz : Nat} {done : Bool} (request : 0 < n ∧ eager = true)
      (grows : Grows (pgRoundUp p.sz / 4096) hi done m p.pagetable m' pt) (le : hi ≤ growEnd p.sz (addInt p.sz n)) :
      SbrkSpec m p n eager m' { p with pagetable := pt, sz := sz }
  | shrink {m' : Machine} {pt : PageTable} (request : n < 0 ∧ addInt p.sz n < p.sz)
      (unmaps : Unmaps (shrinks p.stackTop (pgRoundUp (addInt p.sz n) / 4096) (pgRoundUp p.sz / 4096)) m p.pagetable m' pt) :
      SbrkSpec m p n eager m' { p with pagetable := pt, sz := addInt p.sz n }

/-- `sys_sbrk`, as long as it does not shrink past the trapframe page. -/
theorem sysSbrk_spec {m m' : Machine} {p p' : Proc} {n : Int} {eager r : Bool} (hwf : p.Wf) (hsafe : ¬shrinksPastTrapframe p n)
    (h : sysSbrk m p n eager = .ok (m', p', r)) : SbrkSpec m p n eager m' p' := by
  unfold sysSbrk growproc at h
  split at h
  · rename_i he
    split at h
    · rename_i hn
      have heager : eager = true := by
        rcases he with he | he
        · exact he
        · omega
      obtain ⟨⟨m₁, pt, o⟩, ha, h⟩ := bind_ok h
      rcases uvmalloc_spec ha hwf.topped with ⟨-, rfl, rfl, rfl⟩ | ⟨-, hi, hg, hle, -⟩
      · simp only [Except.ok.injEq, Prod.mk.injEq] at h
        obtain ⟨rfl, rfl, rfl⟩ := h
        exact .same
      · cases o with
        | none =>
          simp only [Except.ok.injEq, Prod.mk.injEq] at h
          obtain ⟨rfl, rfl, rfl⟩ := h
          have hgrow : SbrkSpec m p n eager m₁ { p with pagetable := pt, sz := p.sz } := .grow ⟨hn, heager⟩ hg hle
          exact hgrow
        | some sz =>
          simp only [Except.ok.injEq, Prod.mk.injEq] at h
          obtain ⟨rfl, rfl, rfl⟩ := h
          exact .grow ⟨hn, heager⟩ hg hle
    · split at h
      · rename_i hn
        obtain ⟨⟨m₁, pt, sz⟩, hd, h⟩ := bind_ok h
        simp only [Except.ok.injEq, Prod.mk.injEq] at h
        obtain ⟨rfl, rfl, rfl⟩ := h
        obtain ⟨rfl, hu⟩ := uvmdealloc_spec hd (fun hlt v hv h1 h2 => by
          exfalso
          refine hsafe ⟨hn, hlt, ?_, ?_⟩
          · rw [trapframeVa_eq]
            omega
          · omega)
        by_cases hlt : addInt p.sz n < p.sz
        · rw [Nat.min_eq_right (le_of_lt hlt)]
          exact .shrink ⟨hn, hlt⟩ (hu.congr (fun v => and_iff_right hlt))
        · rw [Nat.min_eq_left (Nat.not_lt.mp hlt)]
          unfold uvmdealloc at hd
          rw [if_pos (Nat.not_lt.mp hlt)] at hd
          simp only [Except.ok.injEq, Prod.mk.injEq] at hd
          obtain ⟨rfl, rfl, -⟩ := hd
          exact .same
      · simp only [Except.ok.injEq, Prod.mk.injEq] at h
        obtain ⟨rfl, rfl, rfl⟩ := h
        exact .same
  · split at h
    · simp only [Except.ok.injEq, Prod.mk.injEq] at h
      obtain ⟨rfl, rfl, rfl⟩ := h
      exact .same
    · simp only [Except.ok.injEq, Prod.mk.injEq] at h
      obtain ⟨rfl, rfl, rfl⟩ := h
      exact .lazy _

/-! ## Events of the system -/

/-- The events of the system. `page` is a page event of one process. -/
inductive Event where
  | page (i : Nat) (ev : PageEvent)
  | lock
  | unlock
  | setSp (i sp : Nat)
  | sbrk (i : Nat) (n : Int) (eager : Bool)
  | fork (i : Nat)
  | exec (i : Nat) (done : Bool)
  | exit (i : Nat)
  | reap (i j : Nat)
  | kill (pid : Int)
  | files (i : Nat)
  | kalloc
  | kfree (pa : Pa)

/-- One event. -/
inductive SysStep : Sys → Event → Sys → Prop where
  | page {s : Sys} {i : Nat} {ev : PageEvent} {m : Machine} {p : Proc} (lt : i < nProc) (live : (s.proc i).live)
      (h : PageStep (s.m, s.proc i) ev (m, p)) : SysStep s (.page i ev) (s.put i m p)
  | lock {s : Sys} : SysStep s .lock { s with m := s.m.acquire }
  | unlock {s : Sys} : SysStep s .unlock { s with m := s.m.release }
  | setSp {s : Sys} {i : Nat} (sp : Nat) :
      SysStep s (.setSp i sp) (s.modProc i (fun p => { p with tf := { p.tf with sp := sp } }))
  | sbrk {s : Sys} {i : Nat} {n : Int} {eager r : Bool} {m : Machine} {p : Proc} (lt : i < nProc) (live : (s.proc i).live)
      (h : sysSbrk s.m (s.proc i) (wrap32 n) eager = .ok (m, p, r)) : SysStep s (.sbrk i n eager) (s.put i m p)
  | fork {s t : Sys} {i : Nat} {o : Option Nat} (lt : i < nProc) (live : (s.proc i).live) (h : kfork s i = .ok (t, o)) :
      SysStep s (.fork i) t
  | exec {s : Sys} {i : Nat} {path : List Char} {argv : List (List Byte)} {m : Machine} {p : Proc} {o : Option Nat}
      (lt : i < nProc) (live : (s.proc i).live) (args : ArgsOk argv) (h : kexec s.m (s.proc i) path argv = .ok (m, p, o)) :
      SysStep s (.exec i o.isSome) (s.put i m p)
  | exit {s t : Sys} {i : Nat} {status : Int} (lt : i < nProc) (live : (s.proc i).live) (h : kexit s i status = .ok t) :
      SysStep s (.exit i) t
  | reap {s : Sys} {i j : Nat} {m : Machine} {np : Proc} (lt : i < nProc) (live : (s.proc i).live) (ltj : j < nProc)
      (zombie : (s.proc j).state = .zombie) (h : freeproc s.m (s.proc j) (s.proc i).stackTop = .ok (m, np)) :
      SysStep s (.reap i j) (s.put j m np)
  | kill {s : Sys} (pid : Int) : SysStep s (.kill pid) (kkill s pid)
  | files {s : Sys} {i : Nat} (lt : i < nProc) (live : (s.proc i).live) (fs : Fs) (ops : List SleepOp) (ofile : Nat → Option Nat)
      (cwd : Option Nat) :
      SysStep s (.files i) (s.put i ((s.m.reach ops).withFs fs) { s.proc i with ofile := ofile, cwd := cwd })
  | kalloc {s : Sys} {m : Machine} {pa : Pa} (h : Kernel.kalloc s.m = some (m, pa)) :
      SysStep s .kalloc { s with m := m, held := pa :: s.held }
  | kfree {s : Sys} {m : Machine} {pa : Pa} (held : pa ∈ s.held) (h : Kernel.kfree s.m pa = .ok m) :
      SysStep s (.kfree pa) { s with m := m, held := s.held.erase pa }

/-- Events that neither change the size of a process nor replace its image. -/
def Event.quiet : Event → Prop
  | .sbrk _ _ _ | .exec _ _ => False
  | _ => True

/-- A run of quiet events. -/
abbrev QuietRun : Sys → List Event → Sys → Prop := Run (Guarded (fun _ ev => ev.quiet) SysStep)

/-- Quiet events that are neither kills nor exits. -/
def Event.silent : Event → Prop
  | .kill _ | .exit _ => False
  | ev => ev.quiet

/-- A run of silent events. -/
abbrev SilentRun : Sys → List Event → Sys → Prop := Run (Guarded (fun _ ev => ev.silent) SysStep)

theorem Event.silent.quiet {ev : Event} (h : ev.silent) : ev.quiet := by
  cases ev with
  | kill | exit => exact h.elim
  | _ => exact h

theorem put_self (s : Sys) (i : Nat) : s.put i s.m (s.proc i) = s := by
  rw [Sys.put, Function.update_eq_self]

/-- A run of page events of one process is a run of the system. -/
theorem PageRun.sys {s : Sys} {i : Nat} {m : Machine} {p : Proc} {G : PageEvent → Prop} (hlt : i < nProc)
    (hlive : (s.proc i).live) (h : PageRun G s.m (s.proc i) m p) : ∃ evs, SilentRun s evs (s.put i m p) := by
  obtain ⟨evs, hr⟩ := h
  have hrun : ∀ x evs y, Run (Guarded (fun _ ev => G ev) PageStep) x evs y → x = (s.m, s.proc i) →
      SameImage (s.proc i) y.2 ∧ ∃ es, SilentRun s es (s.put i y.1 y.2) := by
    intro x evs y hr hx
    induction hr with
    | nil =>
      subst hx
      exact ⟨SameImage.refl _, [], by rw [put_self]; exact Run.nil s⟩
    | snoc _ hs ih =>
      rename_i t u as a _
      obtain ⟨himg, es, hes⟩ := ih
      refine ⟨himg.trans hs.2.image, es ++ [.page i a], hes.snoc ⟨by trivial, ?_⟩⟩
      have hstep : SysStep (s.put i t.1 t.2) (.page i a) ((s.put i t.1 t.2).put i u.1 u.2) := by
        refine .page hlt ?_ ?_
        · rw [Sys.put_proc_self, Proc.live, himg.state]
          exact hlive
        · rw [Sys.put_proc_self]
          exact hs.2
      rwa [show (s.put i t.1 t.2).put i u.1 u.2 = s.put i u.1 u.2 by simp [Sys.put]] at hstep
  exact (hrun _ _ _ hr rfl).2

/-! ## Steps are runs of events -/

section Steps

variable {s t : Sys} {i : Nat} {α : Type}

/-- A call that works on the memory of a process changes its slot and the machine. -/
theorem memCall_ok {call : Machine → Proc → Kern (Machine × Proc × α)} (h : s.memCall call i = .ok t) :
    ∃ m p r, call s.m (s.proc i) = .ok (m, p, r) ∧ t = s.put i m p := by
  obtain ⟨⟨m, p, r⟩, hc, h⟩ := bind_ok h
  exact ⟨m, p, r, hc, (Except.ok.inj h).symm⟩

/-- A call that is a run of page events. -/
theorem memCall_run {call : Machine → Proc → Kern (Machine × Proc × α)} {G : PageEvent → Prop} (h : s.memCall call i = .ok t)
    (hready : s.ready i) (hcall : ∀ m p r, call s.m (s.proc i) = .ok (m, p, r) → PageRun G s.m (s.proc i) m p) :
    ∃ evs, SilentRun s evs t := by
  obtain ⟨m, p, r, hc, rfl⟩ := memCall_ok h
  exact (hcall m p r hc).sys hready.1 hready.2.1

/-- A file system call that changes nothing of the process. -/
theorem fsCall_run {call : Fs → Nat → Kern (Fs × α)} (h : s.fsCall call i = .ok t) (hready : s.ready i) :
    ∃ evs, SilentRun s evs t := by
  obtain ⟨⟨fs, r⟩, -, h⟩ := bind_ok h
  obtain rfl := Except.ok.inj h
  refine ⟨_, Run.single (a := Event.files i) ⟨by trivial, ?_⟩⟩
  have hs := SysStep.files hready.1 hready.2.1 fs [.beginOp] (s.proc i).ofile (s.proc i).cwd
  rwa [show s.put i ((s.m.reach [.beginOp]).withFs fs) { s.proc i with ofile := (s.proc i).ofile, cwd := (s.proc i).cwd } =
    { s with m := (s.m.reach [.beginOp]).withFs fs } by simp [Sys.put]] at hs

/-- A file system call that changes the descriptors or the current directory. -/
theorem fileCall_run {call : Fs → Proc → Kern (Fs × Proc × α)} (h : s.fileCall call i = .ok t) (hready : s.ready i)
    (hcall : ∀ fs p r, call s.m.fs (s.proc i) = .ok (fs, p, r) → p = { s.proc i with ofile := p.ofile, cwd := p.cwd }) :
    ∃ evs, SilentRun s evs t := by
  obtain ⟨⟨fs, p, r⟩, hc, h⟩ := bind_ok h
  obtain rfl := Except.ok.inj h
  refine ⟨_, Run.single (a := Event.files i) ⟨by trivial, ?_⟩⟩
  have hs := SysStep.files hready.1 hready.2.1 fs [.beginOp] p.ofile p.cwd
  rwa [← hcall fs p r hc] at hs

theorem fdalloc_proc {p p' : Proc} {f fd : Nat} (h : fdalloc p f = some (p', fd)) : p' = { p with ofile := p'.ofile } := by
  unfold fdalloc at h
  split at h
  · nomatch h
  · obtain ⟨rfl, -⟩ := Prod.mk.inj (Option.some.inj h)
    rfl

theorem sysDup_proc {fs fs' : Fs} {p p' : Proc} {fd : Nat} {r : Option Nat} (h : sysDup fs p fd = .ok (fs', p', r)) :
    p' = { p with ofile := p'.ofile, cwd := p'.cwd } := by
  unfold sysDup at h
  split at h
  · simp only [Except.ok.injEq, Prod.mk.injEq] at h
    rw [← h.2.1]
  · split at h
    · simp only [Except.ok.injEq, Prod.mk.injEq] at h
      rw [← h.2.1]
    · rename_i p₁ _ ha
      obtain ⟨fs₁, -, h⟩ := bind_ok h
      simp only [Except.ok.injEq, Prod.mk.injEq] at h
      rw [← h.2.1, fdalloc_proc ha]

theorem sysClose_proc {fs fs' : Fs} {p p' : Proc} {fd : Nat} {r : Bool} (h : sysClose fs p fd = .ok (fs', p', r)) :
    p' = { p with ofile := p'.ofile, cwd := p'.cwd } := by
  unfold sysClose at h
  split at h
  · simp only [Except.ok.injEq, Prod.mk.injEq] at h
    rw [← h.2.1]
  · obtain ⟨fs₁, -, h⟩ := bind_ok h
    simp only [Except.ok.injEq, Prod.mk.injEq] at h
    rw [← h.2.1]

theorem sysOpen_proc {fs fs' : Fs} {p p' : Proc} {path : List Char} {omode : Nat} {r : Option Nat}
    (h : sysOpen fs p path omode = .ok (fs', p', r)) : p' = { p with ofile := p'.ofile, cwd := p'.cwd } := by
  obtain ⟨⟨fs₁, o⟩, -, h⟩ := bind_ok h
  cases o with
  | none =>
    simp only [Except.ok.injEq, Prod.mk.injEq] at h
    rw [← h.2.1]
  | some ip =>
    simp only at h
    split at h
    · simp only [Except.ok.injEq, Prod.mk.injEq] at h
      rw [← h.2.1]
    · split at h
      · simp only [Except.ok.injEq, Prod.mk.injEq] at h
        rw [← h.2.1]
      · split at h
        · obtain ⟨fs₂, -, h⟩ := bind_ok h
          simp only [Except.ok.injEq, Prod.mk.injEq] at h
          rw [← h.2.1]
        · rename_i p₁ _ ha
          simp only [Except.ok.injEq, Prod.mk.injEq] at h
          rw [← h.2.1, fdalloc_proc ha]

theorem sysChdir_proc {fs fs' : Fs} {p p' : Proc} {path : List Char} {r : Bool} (h : sysChdir fs p path = .ok (fs', p', r)) :
    p' = { p with ofile := p'.ofile, cwd := p'.cwd } := by
  obtain ⟨⟨fs₁, o⟩, -, h⟩ := bind_ok h
  cases o with
  | none =>
    simp only [Except.ok.injEq, Prod.mk.injEq] at h
    rw [← h.2.1]
  | some ip =>
    obtain ⟨fs₂, -, h⟩ := bind_ok h
    split at h
    · simp only [Except.ok.injEq, Prod.mk.injEq] at h
      rw [← h.2.1]
    · simp only [Except.ok.injEq, Prod.mk.injEq] at h
      rw [← h.2.1]

theorem isZombieOf_iff {p : Proc} : isZombieOf i p = true ↔ p.parent = some i ∧ p.state = .zombie := by
  simp [isZombieOf]

/-- `kwait` of process `i` when child `j` has exited: the copy, and the child's slot freed when the copy succeeds. -/
theorem waitChild_cases {j addr : Nat} {o : Option Int} (hji : j ≠ i) (h : waitChild s i j addr = .ok (t, o)) :
    ∃ m p, PageRun PageEvent.ofCopyout s.m.acquire.acquire (s.proc i) m p ∧
      (t = { s.put i m p with m := m.release.release } ∨
        ∃ m₁ np, freeproc m (s.proc j) p.stackTop = .ok (m₁, np) ∧ t = (s.put i m p).put j m₁.release.release np) := by
  have hend : ∀ (m : Machine) (p : Proc) (b : Bool), PageRun PageEvent.ofCopyout s.m.acquire.acquire (s.proc i) m p →
      (if b then freeproc m (s.proc j) p.stackTop >>= fun r => .ok ((s.put i m p).put j r.1.release.release r.2, some (s.proc j).pid)
        else .ok ({ s.put i m p with m := m.release.release }, none) : Kern (Sys × Option Int)) = .ok (t, o) →
      ∃ m p, PageRun PageEvent.ofCopyout s.m.acquire.acquire (s.proc i) m p ∧
        (t = { s.put i m p with m := m.release.release } ∨
          ∃ m₁ np, freeproc m (s.proc j) p.stackTop = .ok (m₁, np) ∧ t = (s.put i m p).put j m₁.release.release np) := by
    intro m p b hrun hr
    refine ⟨m, p, hrun, ?_⟩
    cases b with
    | false =>
      simp only [Bool.false_eq_true, if_false, Except.ok.injEq, Prod.mk.injEq] at hr
      exact Or.inl hr.1.symm
    | true =>
      simp only [if_true] at hr
      obtain ⟨⟨m₁, np⟩, hfree, hr⟩ := bind_ok hr
      simp only [Except.ok.injEq, Prod.mk.injEq] at hr
      exact Or.inr ⟨m₁, np, hfree, hr.1.symm⟩
  unfold waitChild at h
  simp only at h
  split at h
  · obtain ⟨⟨m, p, b⟩, hc, h⟩ := bind_ok h
    obtain ⟨rfl, rfl, rfl⟩ : s.m.acquire.acquire = m ∧ s.proc i = p ∧ true = b := by
      simpa only [Except.ok.injEq, Prod.mk.injEq] using hc
    refine hend _ _ true (PageRun.refl _ _ _) ?_
    simpa only [Sys.put_m, Sys.put_proc_of_ne _ _ _ hji] using h
  · obtain ⟨⟨m, p, b⟩, hc, h⟩ := bind_ok h
    refine hend m p b (copyout_run hc) ?_
    simpa only [Sys.put_m, Sys.put_proc_of_ne _ _ _ hji] using h

/-- `kwait`: nothing, or the wait for a child that has exited. -/
theorem kwait_cases {addr : Nat} {o : Option Int} (hl : (s.proc i).live) (h : kwait s i addr = .ok (t, o)) :
    t = s ∨ ∃ j, j < nProc ∧ j ≠ i ∧ (s.proc j).state = .zombie ∧ waitChild s i j addr = .ok (t, o) := by
  unfold kwait at h
  cases hf : firstProc (isZombieOf i) s.proc 0 nProc with
  | none =>
    simp only [hf, Except.ok.injEq, Prod.mk.injEq] at h
    exact Or.inl h.1.symm
  | some j =>
    obtain ⟨hzombie, -, hlt⟩ := firstProc_some hf
    obtain ⟨-, hz⟩ := isZombieOf_iff.mp hzombie
    simp only [hf] at h
    refine Or.inr ⟨j, by omega, ?_, hz, h⟩
    rintro rfl
    rcases hl with hl | hl | hl <;> rw [hz] at hl <;> nomatch hl

/-- `kwait` is a run: the page events of the copy, and the child's slot freed. -/
theorem kwait_run {addr : Nat} {o : Option Int} (hready : s.ready i) (h : kwait s i addr = .ok (t, o)) :
    ∃ evs, SilentRun s evs t := by
  rcases kwait_cases hready.2.1 h with rfl | ⟨j, hlt, hji, hz, h⟩
  · exact ⟨[], Run.nil _⟩
  -- both locks, then the copy
  have hlock : SilentRun s [Event.lock, Event.lock] { s with m := s.m.acquire.acquire } :=
    (Run.single (a := Event.lock) ⟨by trivial, SysStep.lock⟩).append (Run.single (a := Event.lock) ⟨by trivial, SysStep.lock⟩)
  obtain ⟨m, p, hrun, hend⟩ := waitChild_cases hji h
  obtain ⟨evs, hevs⟩ := PageRun.sys (s := { s with m := s.m.acquire.acquire }) hready.1 hready.2.1 hrun
  have hevs : SilentRun { s with m := s.m.acquire.acquire } evs (s.put i m p) := hevs
  rcases hend with rfl | ⟨m₁, np, hfree, rfl⟩
  · exact ⟨_, ((hlock.append hevs).snoc ⟨by trivial, .unlock⟩).snoc ⟨by trivial, .unlock⟩⟩
  have himg : SameImage (s.proc i) p := by
    obtain ⟨pes, hpes⟩ := hrun
    exact hpes.invariant (fun x => SameImage (s.proc i) x.2) (fun x a y hx hs => hx.trans hs.2.image) (SameImage.refl _)
  have hreap : SysStep (s.put i m p) (.reap i j) ((s.put i m p).put j m₁ np) := by
    refine .reap hready.1 ?_ hlt ?_ ?_
    · rw [Sys.put_proc_self, Proc.live, himg.state]
      exact hready.2.1
    · rw [Sys.put_proc_of_ne _ _ _ hji]
      exact hz
    · rw [Sys.put_m, Sys.put_proc_of_ne _ _ _ hji, Sys.put_proc_self]
      exact hfree
  exact ⟨_, (((hlock.append hevs).snoc ⟨by trivial, hreap⟩).snoc ⟨by trivial, .unlock⟩).snoc ⟨by trivial, .unlock⟩⟩

/-- Every step of the system is one `sbrk`, one `exec`, one `kill` or one `exit`, or a run of silent events. -/
inductive StepEvents (s : Sys) (a : Action) (t : Sys) : Prop where
  | sbrk {i : Nat} {n : Int} {eager : Bool} (act : a = .sbrk i n eager) (step : SysStep s (.sbrk i n eager) t) : StepEvents s a t
  | exec {i : Nat} {path : List Char} {argv : List (List Byte)} {done : Bool} (act : a = .exec i path argv)
      (step : SysStep s (.exec i done) t) : StepEvents s a t
  | kill {i : Nat} {pid : Int} (act : a = .kill i pid) (step : SysStep s (.kill pid) t) : StepEvents s a t
  | exit {i : Nat} {status : Int} (act : a = .exit i status) (step : SysStep s (.exit i) t) : StepEvents s a t
  | silent {evs : List Event} (run : SilentRun s evs t) : StepEvents s a t

theorem Step.silent {a : Action} (h : Step s a t) : StepEvents s a t := by
  obtain ⟨hen, h⟩ := h
  cases a with
  | store i a b =>
    obtain ⟨hready, htr⟩ := hen
    obtain ⟨pa, hpa⟩ := Option.isSome_iff_exists.mp htr
    obtain rfl := Except.ok.inj h
    have hrun : PageRun (fun _ => True) s.m (s.proc i) (s.m.poke pa (a % 4096) b) (s.proc i) :=
      (PageRun.refl _ _ _).snoc (.store hpa) trivial
    obtain ⟨evs, hevs⟩ := hrun.sys hready.1 hready.2.1
    refine @StepEvents.silent _ _ _ evs ?_
    rwa [show s.put i (s.m.poke pa (a % 4096) b) (s.proc i) = { s with m := (userStore s.m (s.proc i) a b).getD s.m } by
      simp [userStore, hpa, Sys.put]] at hevs
  | setSp i sp =>
    obtain rfl := Except.ok.inj h
    exact .silent (Run.single ⟨by trivial, .setSp sp⟩)
  | fault i a access =>
    simp only [perform] at h
    obtain ⟨evs, hr⟩ := memCall_run h hen.1 (fun m p r hc => handlePageFault_run hc)
    exact .silent hr
  | evict i =>
    simp only [perform] at h
    obtain ⟨evs, hr⟩ := memCall_run h hen (fun m p r hc => evictPageFifo_run .read hc)
    exact .silent hr
  | copyout i dstva src =>
    simp only [perform] at h
    obtain ⟨evs, hr⟩ := memCall_run h hen (fun m p r hc => copyout_run hc)
    exact .silent hr
  | copyin i srcva len =>
    simp only [perform] at h
    obtain ⟨evs, hr⟩ := memCall_run h hen (fun m p r hc => copyin_run hc)
    exact .silent hr
  | sbrk i n eager =>
    simp only [perform] at h
    obtain ⟨m, p, r, hc, rfl⟩ := memCall_ok h
    exact .sbrk rfl (.sbrk hen.1 hen.2.1 hc)
  | fork i =>
    obtain ⟨⟨u, o⟩, hf, h⟩ := bind_ok h
    obtain rfl := Except.ok.inj h
    exact .silent (Run.single ⟨by trivial, .fork hen.1 hen.2.1 hf⟩)
  | exec i path argv =>
    simp only [perform] at h
    obtain ⟨m, p, r, hc, rfl⟩ := memCall_ok h
    have hargs : ArgsOk argv := fun x hx => lt_trans (hen.2.2 x hx) (by decide)
    exact .exec rfl (.exec hen.1.1 hen.1.2.1 hargs hc)
  | exit i status => exact .exit rfl (.exit hen.1 hen.2 h)
  | wait i addr =>
    obtain ⟨⟨u, o⟩, hw, h⟩ := bind_ok h
    obtain rfl := Except.ok.inj h
    obtain ⟨evs, hr⟩ := kwait_run hen hw
    exact .silent hr
  | kill i pid =>
    obtain rfl := Except.ok.inj h
    exact .kill rfl (.kill pid)
  | «open» i path omode =>
    simp only [perform] at h
    obtain ⟨evs, hr⟩ := fileCall_run h hen (fun fs p r hc => sysOpen_proc hc)
    exact .silent hr
  | close i fd =>
    simp only [perform] at h
    obtain ⟨evs, hr⟩ := fileCall_run h hen (fun fs p r hc => sysClose_proc hc)
    exact .silent hr
  | dup i fd =>
    simp only [perform] at h
    obtain ⟨evs, hr⟩ := fileCall_run h hen (fun fs p r hc => sysDup_proc hc)
    exact .silent hr
  | mkdir i path =>
    simp only [perform] at h
    obtain ⟨evs, hr⟩ := fsCall_run h hen
    exact .silent hr
  | mknod i path major minor =>
    simp only [perform] at h
    obtain ⟨evs, hr⟩ := fsCall_run h hen
    exact .silent hr
  | chdir i path =>
    simp only [perform] at h
    obtain ⟨evs, hr⟩ := fileCall_run h hen (fun fs p r hc => sysChdir_proc hc)
    exact .silent hr
  | link i old new =>
    simp only [perform] at h
    obtain ⟨evs, hr⟩ := fsCall_run h hen
    exact .silent hr
  | unlink i path =>
    simp only [perform] at h
    obtain ⟨evs, hr⟩ := fsCall_run h hen
    exact .silent hr
  | kalloc =>
    simp only [perform] at h
    split at h
    · obtain rfl := Except.ok.inj h
      exact .silent (Run.nil _)
    · rename_i m pa hk
      obtain rfl := Except.ok.inj h
      exact .silent (Run.single ⟨by trivial, .kalloc hk⟩)
  | kfree pa =>
    obtain ⟨m, hk, h⟩ := bind_ok h
    obtain rfl := Except.ok.inj h
    exact .silent (Run.single ⟨by trivial, .kfree hen hk⟩)

/-- Every step of the system is one `sbrk` or one `exec`, or a run of quiet events. -/
theorem Step.run {a : Action} (h : Step s a t) :
    (∃ i n eager, a = .sbrk i n eager ∧ SysStep s (.sbrk i n eager) t) ∨
    (∃ i path argv done, a = .exec i path argv ∧ SysStep s (.exec i done) t) ∨ ∃ evs, QuietRun s evs t := by
  cases h.silent with
  | sbrk ha hev => exact Or.inl ⟨_, _, _, ha, hev⟩
  | exec ha hev => exact Or.inr (Or.inl ⟨_, _, _, _, ha, hev⟩)
  | kill _ hev => exact Or.inr (Or.inr ⟨_, Run.single ⟨by trivial, hev⟩⟩)
  | exit _ hev => exact Or.inr (Or.inr ⟨_, Run.single ⟨by trivial, hev⟩⟩)
  | silent hr => exact Or.inr (Or.inr ⟨_, hr.mono (fun _ _ _ hg => ⟨hg.1.quiet, hg.2⟩)⟩)

/-- Every step as a run of events, each of which meets a condition that silent events meet. -/
theorem Step.silentEvents {K : Sys → Event → Sys → Prop} {a : Action} (h : Step s a t)
    (hsbrk : ∀ i n eager, a = .sbrk i n eager → K s (.sbrk i n eager) t)
    (hexec : ∀ i path argv done, a = .exec i path argv → K s (.exec i done) t)
    (hkill : ∀ i pid, a = .kill i pid → K s (.kill pid) t) (hexit : ∀ i status, a = .exit i status → K s (.exit i) t)
    (hsilent : ∀ u ev v, ev.silent → K u ev v) : ∃ evs, Run (fun s ev t => K s ev t ∧ SysStep s ev t) s evs t := by
  cases h.silent with
  | sbrk ha hev => exact ⟨_, Run.single ⟨hsbrk _ _ _ ha, hev⟩⟩
  | exec ha hev => exact ⟨_, Run.single ⟨hexec _ _ _ _ ha, hev⟩⟩
  | kill ha hev => exact ⟨_, Run.single ⟨hkill _ _ ha, hev⟩⟩
  | exit ha hev => exact ⟨_, Run.single ⟨hexit _ _ ha, hev⟩⟩
  | silent hr => exact ⟨_, hr.mono (fun u ev v hg => ⟨hsilent u ev v hg.1, hg.2⟩)⟩

/-- Every step as a run of events, each of which meets a condition that quiet events meet. -/
theorem Step.events {K : Sys → Event → Sys → Prop} {a : Action} (h : Step s a t)
    (hsbrk : ∀ i n eager, a = .sbrk i n eager → K s (.sbrk i n eager) t)
    (hexec : ∀ i path argv done, a = .exec i path argv → K s (.exec i done) t) (hquiet : ∀ u ev v, ev.quiet → K u ev v) :
    ∃ evs, Run (fun s ev t => K s ev t ∧ SysStep s ev t) s evs t :=
  h.silentEvents hsbrk hexec (fun _ _ _ => hquiet _ _ _ trivial) (fun _ _ _ => hquiet _ _ _ trivial)
    (fun u ev v hs => hquiet u ev v hs.quiet)

end Steps

end Xv6SnifferBakery.Kernel
