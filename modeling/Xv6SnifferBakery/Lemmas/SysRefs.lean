import Xv6SnifferBakery.Lemmas.Conservation
import Xv6SnifferBakery.Lemmas.Holders

/-!
# What the system holds of the file system

The references of all processes together. Every step of the system is a run of file system events from what the processes hold before
to what they hold after; only an `exec` that overwrites `exec_inode` leaves a reference that no process has.
-/

namespace Xv6SnifferBakery.Kernel

open Lib

/-! ## Slots -/

/-- A process that holds nothing. -/
structure Proc.Idle (p : Proc) : Prop where
  cwd : p.cwd = none
  execInode : p.execInode = none
  swapFile : p.swapFile = none
  ofile : ∀ fd, p.ofile fd = none

/-- A live process has a current directory; a slot without a process, and a process that has exited, hold nothing. -/
def Proc.HoldsOk (p : Proc) : Prop := (p.live ∧ p.cwd.isSome) ∨ ((p.state = .unused ∨ p.state = .zombie) ∧ p.Idle)

variable {p p' : Proc}

theorem Proc.Idle.inodes (h : p.Idle) : p.inodes = 0 := by
  rw [Proc.inodes, h.cwd, h.execInode, slot_none, add_zero]

theorem Proc.Idle.files (h : p.Idle) : p.files = 0 := by
  rw [Proc.files, h.swapFile, content_none (fun fd _ => h.ofile fd), slot_none, add_zero]

theorem Proc.Idle.congr (h : p.Idle) (hc : p'.cwd = p.cwd) (he : p'.execInode = p.execInode) (hs : p'.swapFile = p.swapFile)
    (ho : p'.ofile = p.ofile) : p'.Idle := by
  refine ⟨hc.trans h.cwd, he.trans h.execInode, hs.trans h.swapFile, ?_⟩
  intro fd
  rw [ho]
  exact h.ofile fd

theorem Proc.live.ne_zombie (h : p.live) : p.state ≠ .zombie := by
  rcases h with h | h | h <;> rw [h] <;> simp

theorem Proc.HoldsOk.cwd (h : p.HoldsOk) (hl : p.live) : p.cwd.isSome := by
  rcases h with h | ⟨hs, -⟩
  · exact h.2
  · rcases hs with hs | hs
    · exact absurd hs hl.ne_unused
    · exact absurd hs hl.ne_zombie

theorem Proc.HoldsOk.idle (h : p.HoldsOk) (hs : p.state = .unused ∨ p.state = .zombie) : p.Idle := by
  rcases h with ⟨hl, -⟩ | h
  · rcases hs with hs | hs
    · exact absurd hs hl.ne_unused
    · exact absurd hs hl.ne_zombie
  · exact h.2

/-- A live process after a step that leaves its state and keeps it a current directory. -/
theorem Proc.live.holdsOk (hl : p.live) (hst : p'.state = p.state) (hc : p'.cwd.isSome) : p'.HoldsOk := by
  refine Or.inl ⟨?_, hc⟩
  rw [Proc.live, hst]
  exact hl

/-! ## All processes -/

namespace Sys

/-- The inodes the processes hold. -/
def inodes (s : Sys) : Multiset Nat := ∑ i ∈ Finset.range nProc, (s.proc i).inodes

/-- The files the processes hold. -/
def files (s : Sys) : Multiset Nat := ∑ i ∈ Finset.range nProc, (s.proc i).files

/-- The file system with the references of the processes. -/
def refs (s : Sys) : Refs := ⟨s.m.fs, s.inodes, s.files⟩

/-- Every slot of the process table is in order. -/
def HoldsOk (s : Sys) : Prop := ∀ i < nProc, (s.proc i).HoldsOk

end Sys

variable {s t : Sys} {m m' : Machine} {i j : Nat} {G : FsEvent → Prop} {O W F : Nat → Prop}

/-- One process apart from the others: what the others hold stays when the process is replaced. -/
theorem sum_put {h : Proc → Multiset Nat} (hi : i < nProc) :
    ∃ R, ∑ k ∈ Finset.range nProc, h (s.proc k) = h (s.proc i) + R ∧
      (∀ m p, ∑ k ∈ Finset.range nProc, h ((s.put i m p).proc k) = h p + R) ∧ ∀ k < nProc, k ≠ i → h (s.proc k) ≤ R := by
  have hmem : i ∈ Finset.range nProc := Finset.mem_range.mpr hi
  refine ⟨∑ k ∈ (Finset.range nProc).erase i, h (s.proc k), (Finset.add_sum_erase _ _ hmem).symm, ?_, ?_⟩
  · intro m p
    rw [← Finset.add_sum_erase _ _ hmem, Sys.put_proc_self]
    refine congrArg (h p + ·) (Finset.sum_congr rfl ?_)
    intro k hk
    rw [Sys.put_proc_of_ne _ _ _ (Finset.ne_of_mem_erase hk)]
  · intro k hk hki
    refine Finset.single_le_sum (f := fun j => h (s.proc j)) (fun _ _ => Multiset.zero_le _) ?_
    exact Finset.mem_erase.mpr ⟨hki, Finset.mem_range.mpr hk⟩

/-- A run of one process is a run of the system; `lost` is what the process no longer holds. -/
theorem put_refs {l : Multiset Nat} (hi : i < nProc)
    (h : ∀ R Q, FsRun G ⟨s.m.fs, (s.proc i).inodes + R, (s.proc i).files + Q⟩ ⟨m.fs, p.inodes + R + l, p.files + Q⟩) :
    FsRun G s.refs ⟨m.fs, (s.put i m p).inodes + l, (s.put i m p).files⟩ := by
  obtain ⟨R, hR, hR', -⟩ := sum_put (s := s) (h := Proc.inodes) hi
  obtain ⟨Q, hQ, hQ', -⟩ := sum_put (s := s) (h := Proc.files) hi
  have hin : s.inodes = (s.proc i).inodes + R := hR
  have hfl : s.files = (s.proc i).files + Q := hQ
  have hin' : (s.put i m p).inodes = p.inodes + R := hR' m p
  have hfl' : (s.put i m p).files = p.files + Q := hQ' m p
  rw [Sys.refs, hin, hfl, hin', hfl']
  exact h R Q

/-- A process with an executable holds a reference to it. -/
theorem execInode_held {x : Nat} (hi : i < nProc) (hx : (s.proc i).execInode = some x) : ∃ r, s.inodes = {x} + r := by
  obtain ⟨R, hR, -, -⟩ := sum_put (s := s) (h := Proc.inodes) hi
  have hin : s.inodes = (s.proc i).inodes + R := hR
  refine ⟨slot (s.proc i).cwd + R, ?_⟩
  rw [hin, Proc.inodes, hx, slot_some]
  abel

/-- The file system becomes `fs` in a run of events that leaves out a reference to inode `x`. -/
def Sys.Spares (s : Sys) (fs : Fs) (x : Nat) : Prop := ∃ r y, s.inodes = {x} + r ∧ y.fs = fs ∧ FsRun (fun _ => True) ⟨s.m.fs, r, s.files⟩ y

/-- A run of one process leaves the executables of the others out. -/
theorem put_spares {x k : Nat} {fs : Fs} (hi : i < nProc) (hk : k < nProc) (hki : k ≠ i) (hx : (s.proc k).execInode = some x)
    (h : ∀ R Q, ∃ y, y.fs = fs ∧ FsRun G ⟨s.m.fs, (s.proc i).inodes + R, (s.proc i).files + Q⟩ y) : s.Spares fs x := by
  obtain ⟨R, hR, -, hle⟩ := sum_put (s := s) (h := Proc.inodes) hi
  obtain ⟨Q, hQ, -, -⟩ := sum_put (s := s) (h := Proc.files) hi
  have hin : s.inodes = (s.proc i).inodes + R := hR
  have hfl : s.files = (s.proc i).files + Q := hQ
  have hmem : x ∈ R := Multiset.mem_of_le (hle k hk hki) (by rw [Proc.inodes, hx, slot_some]; simp)
  obtain ⟨R', hR'⟩ := Multiset.exists_cons_of_mem hmem
  obtain ⟨y, hy, hrun⟩ := h R' Q
  refine ⟨(s.proc i).inodes + R', y, ?_, hy, hfl ▸ hrun.mono (fun _ _ => trivial)⟩
  rw [hin, hR', ← Multiset.singleton_add]
  abel

/-- A run of one process that leaves its own executable out. -/
theorem own_spares {x : Nat} {fs : Fs} (hi : i < nProc) (hx : (s.proc i).execInode = some x)
    (h : ∀ R Q, ∃ y, y.fs = fs ∧ FsRun G ⟨s.m.fs, slot (s.proc i).cwd + R, (s.proc i).files + Q⟩ y) : s.Spares fs x := by
  obtain ⟨R, hR, -, -⟩ := sum_put (s := s) (h := Proc.inodes) hi
  obtain ⟨Q, hQ, -, -⟩ := sum_put (s := s) (h := Proc.files) hi
  have hin : s.inodes = (s.proc i).inodes + R := hR
  have hfl : s.files = (s.proc i).files + Q := hQ
  obtain ⟨y, hy, hrun⟩ := h R Q
  refine ⟨slot (s.proc i).cwd + R, y, ?_, hy, hfl ▸ hrun.mono (fun _ _ => trivial)⟩
  rw [hin, Proc.inodes, hx, slot_some]
  abel

/-- An executable after a call: some process had it before, and the call leaves a reference to it out; or it has been read. -/
def Sys.ExecFrom (s : Sys) (fs : Fs) (x : Nat) : Prop :=
  ((∃ k < nProc, (s.proc k).execInode = some x) ∧ s.Spares fs x) ∨ fs.valid x = true

theorem Sys.ExecFrom.same {x : Nat} (hi : i < nProc) (hx : (s.proc i).execInode = some x) : s.ExecFrom s.m.fs x := by
  obtain ⟨r, hr⟩ := execInode_held hi hx
  exact Or.inl ⟨⟨i, hi, hx⟩, r, _, hr, rfl, FsRun.refl _ _⟩

/-- What a process holds is part of what all hold. -/
theorem mem_sys_files {f : Nat} (hi : i < nProc) (hf : f ∈ (s.proc i).files) : f ∈ s.files := by
  rw [Sys.files, Multiset.mem_sum]
  exact ⟨i, Finset.mem_range.mpr hi, hf⟩

theorem Sys.HoldsOk.put (hs : s.HoldsOk) (hp : p.HoldsOk) : (s.put i m p).HoldsOk := by
  intro k hk
  by_cases hki : k = i
  · rw [hki, Sys.put_proc_self]
    exact hp
  · rw [Sys.put_proc_of_ne _ _ _ hki]
    exact hs k hk

/-- Slots that hold the same. -/
theorem refs_congr (hfs : t.m.fs = s.m.fs) (h : ∀ k < nProc, (t.proc k).inodes = (s.proc k).inodes ∧ (t.proc k).files = (s.proc k).files) :
    t.refs = s.refs := by
  rw [Sys.refs, Sys.refs, hfs, Sys.inodes, Sys.inodes, Sys.files, Sys.files,
    Finset.sum_congr rfl (fun k hk => (h k (Finset.mem_range.mp hk)).1), Finset.sum_congr rfl (fun k hk => (h k (Finset.mem_range.mp hk)).2)]

/-- What a call does to the references of the system; `lost` are those that no process has any more. No process gets a swap file. -/
structure Called (G : FsEvent → Prop) (lost : Multiset Nat) (s t : Sys) : Prop where
  holds : t.HoldsOk
  run : FsRun G s.refs ⟨t.m.fs, t.inodes + lost, t.files⟩
  swap : ∀ k f, (t.proc k).swapFile = some f → (s.proc k).swapFile = some f
  exec : ∀ k < nProc, ∀ x, (t.proc k).execInode = some x → s.ExecFrom t.m.fs x

/-- A call that loses nothing, and no process gets an executable. -/
theorem Called.keep (hs : t.HoldsOk) (hrun : ∀ r, FsRun G ⟨s.m.fs, r, s.files⟩ ⟨t.m.fs, r, t.files⟩) (hin : t.inodes = s.inodes)
    (hswap : ∀ k f, (t.proc k).swapFile = some f → (s.proc k).swapFile = some f)
    (hexec : ∀ k, (t.proc k).execInode = (s.proc k).execInode) : Called G 0 s t := by
  refine ⟨hs, (hrun s.inodes).to (by rw [hin, add_zero]) rfl, hswap, ?_⟩
  intro k hk x hx
  rw [hexec k] at hx
  obtain ⟨r, hr⟩ := execInode_held hk hx
  exact Or.inl ⟨⟨k, hk, hx⟩, r, _, hr, rfl, (hrun r).mono (fun _ _ => trivial)⟩

theorem Called.refl (hs : s.HoldsOk) : Called G 0 s s := .keep hs (fun _ => FsRun.refl _ _) rfl (fun _ _ h => h) (fun _ => rfl)

/-- One process is replaced. -/
theorem Called.put {l : Multiset Nat} (hi : i < nProc) (hs : s.HoldsOk) (hp : p.HoldsOk)
    (hrun : ∀ R Q, FsRun G ⟨s.m.fs, (s.proc i).inodes + R, (s.proc i).files + Q⟩ ⟨m.fs, p.inodes + R + l, p.files + Q⟩)
    (hswap : ∀ f, p.swapFile = some f → (s.proc i).swapFile = some f)
    (hexec : ∀ x, p.execInode = some x → s.ExecFrom m.fs x) : Called G l s (s.put i m p) := by
  refine ⟨hs.put hp, put_refs hi hrun, ?_, ?_⟩
  · intro k f hf
    by_cases hki : k = i
    · rw [hki, Sys.put_proc_self] at hf
      rw [hki]
      exact hswap f hf
    · rwa [Sys.put_proc_of_ne _ _ _ hki] at hf
  · intro k hk x hx
    by_cases hki : k = i
    · rw [hki, Sys.put_proc_self] at hx
      exact hexec x hx
    · rw [Sys.put_proc_of_ne _ _ _ hki] at hx
      exact Or.inl ⟨⟨k, hk, hx⟩, put_spares hi hk hki hx (fun R Q => ⟨_, rfl, hrun R Q⟩)⟩

/-! ## Making and freeing processes -/

/-- `allocproc` of a slot: it stays unused, or the new process is in it. -/
theorem allocprocAt_born {pid : Int} {st : Nat} {b : Bool} (h : allocprocAt m p pid st = .ok (m', p', b)) :
    SameEnv m m' ∧ ((b = false ∧ p' = p.freed) ∨
      (b = true ∧ ∃ tf pt m₁, p' = p.born pid tf pt ∧ procPagetable m₁ tf = .ok (m', some pt))) := by
  unfold allocprocAt at h
  cases hk : kalloc m with
  | none =>
    simp only [hk] at h
    obtain ⟨⟨m₁, p₁⟩, hf, h⟩ := bind_ok h
    simp only [Except.ok.injEq, Prod.mk.injEq] at h
    obtain ⟨rfl, rfl, rfl⟩ := h
    obtain ⟨henv, rfl⟩ := freeproc_env hf
    exact ⟨henv, Or.inl ⟨rfl, rfl⟩⟩
  | some x =>
    obtain ⟨m₁, pa⟩ := x
    simp only [hk] at h
    obtain ⟨⟨m₂, o⟩, hpt, h⟩ := bind_ok h
    have henv := (kalloc_env hk).trans (procPagetable_env hpt)
    cases o with
    | none =>
      obtain ⟨⟨m₃, p₃⟩, hf, h⟩ := bind_ok h
      simp only [Except.ok.injEq, Prod.mk.injEq] at h
      obtain ⟨rfl, rfl, rfl⟩ := h
      obtain ⟨henv', rfl⟩ := freeproc_env hf
      exact ⟨henv.trans henv', Or.inl ⟨rfl, rfl⟩⟩
    | some pt =>
      simp only [Except.ok.injEq, Prod.mk.injEq] at h
      obtain ⟨rfl, rfl, rfl⟩ := h
      exact ⟨henv, Or.inr ⟨rfl, pa, pt, m₁, rfl, hpt⟩⟩

/-- `allocproc` in a slot that holds nothing. -/
theorem allocprocAt_idle {pid : Int} {st : Nat} {b : Bool} (hp : p.Idle) (h : allocprocAt m p pid st = .ok (m', p', b)) :
    SameEnv m m' ∧ p'.Idle ∧ (b = false → p'.state = .unused) := by
  obtain ⟨henv, ⟨rfl, rfl⟩ | ⟨rfl, tf, pt, m₁, rfl, -⟩⟩ := allocprocAt_born h
  · exact ⟨henv, hp.congr rfl rfl rfl rfl, fun _ => rfl⟩
  · exact ⟨henv, ⟨hp.cwd, rfl, rfl, hp.ofile⟩, fun hb => by cases hb⟩

/-- `allocproc` takes an unused slot, which holds nothing before and after. -/
theorem allocproc_idle {st : Nat} {o : Option Nat} (hs : s.HoldsOk) (h : allocproc s st = .ok (t, o)) :
    (t = s ∧ o = none) ∨ ∃ j m p n, j < nProc ∧ (s.proc j).state = .unused ∧ t = { s.put j m p with nextpid := n } ∧ SameEnv s.m m ∧
      p.Idle ∧ (o = some j ∨ (o = none ∧ p.state = .unused)) := by
  unfold allocproc at h
  cases hf : firstProc (fun p => p.state = .unused) s.proc 0 nProc with
  | none =>
    simp only [hf, Except.ok.injEq, Prod.mk.injEq] at h
    exact Or.inl ⟨h.1.symm, h.2.symm⟩
  | some j =>
    obtain ⟨hstate, -, hlt⟩ := firstProc_some hf
    have hu : (s.proc j).state = .unused := by simpa using hstate
    simp only [hf] at h
    obtain ⟨⟨m, p, b⟩, ha, h⟩ := bind_ok h
    simp only [Except.ok.injEq, Prod.mk.injEq] at h
    obtain ⟨rfl, rfl⟩ := h
    obtain ⟨henv, hidle, hstate'⟩ := allocprocAt_idle ((hs j (by omega)).idle (Or.inl hu)) ha
    refine Or.inr ⟨j, m, p, _, by omega, hu, rfl, henv, hidle, ?_⟩
    cases b with
    | true => exact Or.inl rfl
    | false => exact Or.inr ⟨rfl, hstate' rfl⟩

theorem forkFrom_exec {np : Proc} {parent : Nat} {pt : PageTable} (h : np.Idle) : (np.forkFrom p parent pt).execInode = p.execInode := by
  change (if p.execInode.isSome then p.execInode else np.execInode) = p.execInode
  rw [h.execInode]
  cases p.execInode <;> rfl

/-- The child of a fork holds what its parent does, but for the swap file. -/
theorem forkFrom_holds {np : Proc} {parent : Nat} {pt : PageTable} (h : np.Idle) :
    (np.forkFrom p parent pt).inodes = p.inodes ∧ (np.forkFrom p parent pt).files = content nOFile p.ofile := by
  have hexec : (np.forkFrom p parent pt).execInode = p.execInode := forkFrom_exec h
  have hfd : (np.forkFrom p parent pt).ofile = p.ofile := by
    funext fd
    change (if (p.ofile fd).isSome then p.ofile fd else np.ofile fd) = p.ofile fd
    rw [h.ofile fd]
    cases p.ofile fd <;> rfl
  refine ⟨?_, ?_⟩
  · rw [Proc.inodes, hexec, Proc.inodes]
    rfl
  · rw [Proc.files, hfd, show (np.forkFrom p parent pt).swapFile = none from h.swapFile, slot_none, add_zero]

/-- `kfork`. -/
theorem kfork_refs {o : Option Nat} (hs : s.HoldsOk) (hi : i < nProc) (hl : (s.proc i).live) (h : kfork s i = .ok (t, o))
    (hF : ∀ f ∈ (s.proc i).fds, F f) : Called (Within O W F) 0 s t := by
  obtain ⟨⟨s₁, o₁⟩, ha, h⟩ := bind_ok h
  rcases allocproc_idle hs ha with ⟨rfl, rfl⟩ | ⟨j, m, p, n, hj, hu, rfl, henv, hidle, ho⟩
  · obtain ⟨rfl, -⟩ := Prod.mk.inj (Except.ok.inj h)
    exact .refl hs
  have hold := (hs j hj).idle (Or.inl hu)
  -- a slot that held nothing, replaced by one that holds nothing
  have hput : ∀ {m' : Machine} {p' : Proc}, m'.fs = s.m.fs → p'.state = .unused → p'.Idle → Called (Within O W F) 0 s (s.put j m' p') := by
    intro m' p' hfs hst hp'
    refine .put hj hs (Or.inr ⟨Or.inl hst, hp'⟩) ?_ ?_ ?_
    · intro R Q
      rw [hold.inodes, hold.files, hp'.inodes, hp'.files, hfs, add_zero]
      exact FsRun.refl _ _
    · intro f hf
      rw [hp'.swapFile] at hf
      cases hf
    · intro x hx
      rw [hp'.execInode] at hx
      cases hx
  rcases ho with rfl | ⟨rfl, hstate⟩
  · obtain ⟨⟨m₂, pt', b⟩, hc, h⟩ := bind_ok h
    simp only [Sys.put_m, Sys.put_proc_self] at hc h
    have henv₂ := henv.trans (uvmcopy_env hc)
    cases b with
    | false =>
      obtain ⟨⟨m₃, np⟩, hf, h⟩ := bind_ok h
      obtain ⟨henv₃, rfl⟩ := freeproc_env hf
      obtain rfl := (Prod.mk.inj (Except.ok.inj h)).1.symm.trans (put_put s j m m₃ p _ n)
      have hidle' : ({ p with pagetable := pt' } : Proc).freed.Idle := hidle.congr rfl rfl rfl rfl
      obtain ⟨h1, h2, h3, h4⟩ := hput (henv₂.trans henv₃).fs rfl hidle'
      exact ⟨h1, h2, h3, h4⟩
    | true =>
      obtain ⟨fs, hr, h⟩ := bind_ok h
      obtain rfl := (Prod.mk.inj (Except.ok.inj h)).1.symm.trans (put_put s j m _ p _ n)
      obtain ⟨hin, hfl⟩ : (p.forkFrom (s.proc i) i pt').inodes = _ ∧ (p.forkFrom (s.proc i) i pt').files = _ := forkFrom_holds hidle
      have hrun : ∀ R Q, FsRun (Within O W F) ⟨s.m.fs, (s.proc j).inodes + R, (s.proc j).files + Q⟩
          ⟨fs, (p.forkFrom (s.proc i) i pt').inodes + R + 0, (p.forkFrom (s.proc i) i pt').files + Q⟩ := by
        intro R Q
        rw [hin, hfl, hold.inodes, hold.files, zero_add, zero_add, add_zero, ← henv₂.fs]
        exact forkRefs_run ((hs i hi).cwd hl) hr hF
      have hne : i ≠ j := by
        rintro rfl
        exact hl.ne_unused hu
      have hchild : (p.forkFrom (s.proc i) i pt').HoldsOk := Or.inl ⟨Or.inr (Or.inl rfl), (hs i hi).cwd hl⟩
      have hput : Called (Within O W F) 0 s (s.put j (m₂.withFs fs) (p.forkFrom (s.proc i) i pt')) := by
        refine .put hj hs hchild hrun ?_ ?_
        · intro f hf
          rw [show (p.forkFrom (s.proc i) i pt').swapFile = none from hidle.swapFile] at hf
          cases hf
        · -- the child runs the executable of its parent
          intro x hx
          rw [forkFrom_exec hidle] at hx
          exact Or.inl ⟨⟨i, hi, hx⟩, put_spares hj hi hne hx (fun R Q => ⟨_, rfl, hrun R Q⟩)⟩
      obtain ⟨h1, h2, h3, h4⟩ := hput
      exact ⟨h1, h2, h3, h4⟩
  · obtain ⟨rfl, -⟩ := Prod.mk.inj (Except.ok.inj h)
    obtain ⟨h1, h2, h3, h4⟩ := hput henv.fs hstate hidle
    exact ⟨h1, h2, h3, h4⟩

/-! ## `exec` -/

/-- `exec` gets to the assignment of `exec_inode`: the path names an ELF file whose headers pass the scan, and there are pages for a
table. -/
def execAssigns (m : Machine) (p : Proc) (path : List Char) : Prop :=
  ∃ fs₀ fs ip, ExecFile m p path fs₀ fs ip ∧ (scanFile (fs.inode ip)).2 = true ∧ 3 ≤ m.freelist.length

/-- The part of `kexec` after the inode is released. -/
theorem execImage_env {path : List Char} {argv : List (List Byte)} {st : Scan} {entry : Nat} {tr tf : Pa} {pt : PageTable}
    {o : Option Nat} (hargs : ArgsOk argv) (hpt : FreshTable tr tf pt) (h : execImage m p path argv st entry pt = .ok (m', p', o)) :
    SameEnv m m' ∧ (p' = p ∨ ∃ pt' sp, p' = p.commit path st entry pt' sp) := by
  obtain ⟨⟨m₁, pt₁, b⟩, hs, h⟩ := bind_ok h
  obtain ⟨hm₁, -, himg⟩ := execStack_spec hpt hs
  cases b with
  | false =>
    obtain ⟨m₂, hf, h⟩ := bind_ok h
    simp only [Except.ok.injEq, Prod.mk.injEq] at h
    obtain ⟨rfl, rfl, -⟩ := h
    exact ⟨hm₁.toSameEnv.trans (procFreepagetable_env hf), Or.inl rfl⟩
  | true =>
    obtain ⟨mem, himg⟩ := himg rfl
    obtain ⟨⟨m₂, p₂, o₂⟩, hb, h⟩ := bind_ok h
    obtain ⟨rfl, ⟨page, rfl⟩, -⟩ := pushBlock_spec himg hargs hb
    have henv := hm₁.toSameEnv.trans (SameEnv.fill m₁ mem page)
    cases o₂ with
    | none =>
      obtain ⟨m₃, hf, h⟩ := bind_ok h
      simp only [Except.ok.injEq, Prod.mk.injEq] at h
      obtain ⟨rfl, rfl, -⟩ := h
      exact ⟨henv.trans (procFreepagetable_env hf), Or.inl rfl⟩
    | some x =>
      obtain ⟨m₃, hf, h⟩ := bind_ok h
      simp only [Except.ok.injEq, Prod.mk.injEq] at h
      obtain ⟨rfl, rfl, -⟩ := h
      exact ⟨henv.trans (procFreepagetable_env hf), Or.inr ⟨_, _, rfl⟩⟩

/-- The fields of a process that say what it holds. -/
structure SameHolds (p p' : Proc) : Prop where
  state : p'.state = p.state
  cwd : p'.cwd = p.cwd
  ofile : p'.ofile = p.ofile
  swapFile : p'.swapFile = p.swapFile

/-- `kexec` gives up the inode of the path, unless it assigns it: then the process holds it in place of the old executable. -/
theorem kexec_refs {path : List Char} {argv : List (List Byte)} {o : Option Nat} {r q : Multiset Nat} (hargs : ArgsOk argv)
    (h : kexec m p path argv = .ok (m', p', o)) : SameHolds p p' ∧
    ((¬execAssigns m p path ∧ p'.execInode = p.execInode ∧ FsRun (Within O W F) ⟨m.fs, r, q⟩ ⟨m'.fs, r, q⟩) ∨
      ∃ ip, execAssigns m p path ∧ p'.execInode = some ip ∧ m'.fs.valid ip = true ∧
        FsRun (Within O W F) ⟨m.fs, r, q⟩ ⟨m'.fs, {ip} + r, q⟩) := by
  obtain ⟨⟨fs₀, oip⟩, hn, h⟩ := bind_ok h
  have hname := namei_run (O := O) (W := W) (F := F) (r := r) (q := q) hn
  cases oip with
  | none =>
    simp only [Except.ok.injEq, Prod.mk.injEq] at h
    obtain ⟨rfl, rfl, -⟩ := h
    refine ⟨⟨rfl, rfl, rfl, rfl⟩, Or.inl ⟨?_, rfl, hname.to (zero_add r) rfl⟩⟩
    rintro ⟨fs₁, fs, ip, hx, -⟩
    have hcontra := hx.name.symm.trans hn
    simp at hcontra
  | some ip =>
    obtain ⟨fs, hl, h⟩ := bind_ok h
    have hlock : FsRun (Within O W F) ⟨m.fs, r, q⟩ ⟨fs, {ip} + r, q⟩ := hname.snoc (.lock hl) trivial
    have hput : FsRun (Within O W F) ⟨m.fs, r, q⟩ ⟨iput fs ip, r, q⟩ := hlock.snoc .put trivial
    simp only at h
    split at h
    · rename_i helf
      simp only [Except.ok.injEq, Prod.mk.injEq] at h
      obtain ⟨rfl, rfl, -⟩ := h
      refine ⟨⟨rfl, rfl, rfl, rfl⟩, Or.inl ⟨?_, rfl, hput⟩⟩
      rintro ⟨fs₁, fs₂, ip', hx, -⟩
      have heq := hx.name.symm.trans hn
      simp only [Except.ok.injEq, Prod.mk.injEq, Option.some.injEq] at heq
      obtain ⟨rfl, rfl⟩ := heq
      obtain rfl := Except.ok.inj (hx.lock.symm.trans hl)
      exact helf hx.elf
    rename_i helf
    have hfile : ExecFile m p path fs₀ fs ip := ⟨hn, hl, not_not.mp helf⟩
    obtain ⟨⟨m₁, opt⟩, hp, h⟩ := bind_ok h
    have hroom := procPagetable_iff hp
    have hfs₁ : m₁.fs = fs := (procPagetable_env hp).fs
    cases opt with
    | none =>
      simp only [Except.ok.injEq, Prod.mk.injEq] at h
      obtain ⟨rfl, rfl, -⟩ := h
      rw [Machine.withFs_fs, hfs₁]
      refine ⟨⟨rfl, rfl, rfl, rfl⟩, Or.inl ⟨?_, rfl, hput⟩⟩
      rintro ⟨fs₁, fs₂, ip', -, -, hlen⟩
      exact absurd (hroom.mpr hlen) (by simp)
    | some pt =>
      obtain ⟨hc, -⟩ | ⟨pt', hc, -, hfresh⟩ := procPagetable_spec hp
      · cases hc
      obtain rfl := Option.some.inj hc
      simp only [execLoad, hfs₁] at h
      split at h
      · rename_i hgood
        obtain ⟨henv, hp'⟩ := execImage_env hargs hfresh h
        have hfs : m'.fs = iput (idup fs ip) ip := henv.fs
        have hholds : SameHolds p p' ∧ p'.execInode = some ip := by
          rcases hp' with rfl | ⟨pt', sp, rfl⟩
          · exact ⟨⟨rfl, rfl, rfl, rfl⟩, rfl⟩
          · rw [commit_eq]
            exact ⟨⟨rfl, rfl, rfl, rfl⟩, rfl⟩
        refine ⟨hholds.1, Or.inr ⟨ip, ⟨fs₀, fs, ip, hfile, hgood, hroom.mp rfl⟩, hholds.2, ?_, ?_⟩⟩
        · -- the inode is still held, so it is not freed
          obtain ⟨-, -, -, hvalid, -⟩ := ilock_ok hl
          have hkeep : ¬freesInode (idup fs ip) ip := by
            rintro ⟨hone, -⟩
            have hheld : 0 < fs.ref ip := (ilock_ok hl).1 ▸ ilock_pos hl
            simp only [idup, Function.update_self] at hone
            omega
          rw [hfs, iput_of_not hkeep]
          exact hvalid
        · rw [hfs]
          exact (hlock.snoc (.dup ip) trivial).snoc .put trivial
      · rename_i hbad
        obtain ⟨m₂, hf, h⟩ := bind_ok h
        simp only [Except.ok.injEq, Prod.mk.injEq] at h
        obtain ⟨rfl, rfl, -⟩ := h
        have hfs : m₂.fs = fs := (procFreepagetable_env hf).fs.trans hfs₁
        rw [Machine.withFs_fs, hfs]
        refine ⟨⟨rfl, rfl, rfl, rfl⟩, Or.inl ⟨?_, rfl, hput⟩⟩
        rintro ⟨fs₁, fs₂, ip', hx, hgood, -⟩
        obtain ⟨rfl, rfl⟩ := hfile.unique hx
        exact hbad hgood

/-! ## Slots that hold the same -/

/-- Every slot holds what it held, and no process has started or ended. -/
structure SameHeld (s t : Sys) : Prop where
  fs : t.m.fs = s.m.fs
  cwd : ∀ k, (t.proc k).cwd = (s.proc k).cwd
  execInode : ∀ k, (t.proc k).execInode = (s.proc k).execInode
  ofile : ∀ k, (t.proc k).ofile = (s.proc k).ofile
  swapFile : ∀ k, (t.proc k).swapFile = (s.proc k).swapFile
  live : ∀ k, (t.proc k).live ↔ (s.proc k).live
  idle : ∀ k, (s.proc k).state = .unused ∨ (s.proc k).state = .zombie → (t.proc k).state = .unused ∨ (t.proc k).state = .zombie

namespace SameHeld

theorem refs (h : SameHeld s t) : t.refs = s.refs := by
  refine refs_congr h.fs ?_
  intro k _
  rw [Proc.inodes, h.cwd, h.execInode, files_congr (h.ofile k) (h.swapFile k)]
  exact ⟨rfl, rfl⟩

theorem execFrom {x : Nat} (h : SameHeld s t) {fs : Fs} (hx : t.ExecFrom fs x) : s.ExecFrom fs x := by
  have hrefs := h.refs
  have hin : t.inodes = s.inodes := congrArg Refs.inodes hrefs
  have hfl : t.files = s.files := congrArg Refs.files hrefs
  rcases hx with ⟨⟨k, hk, hx⟩, r, y, hr, hy, hrun⟩ | hv
  · rw [h.execInode] at hx
    rw [hin] at hr
    rw [h.fs, hfl] at hrun
    exact Or.inl ⟨⟨k, hk, hx⟩, r, y, hr, hy, hrun⟩
  · exact Or.inr hv

theorem holdsOk (h : SameHeld s t) (hs : s.HoldsOk) : t.HoldsOk := by
  intro k hk
  rcases hs k hk with ⟨hl, hc⟩ | ⟨hst, hidle⟩
  · exact Or.inl ⟨(h.live k).mpr hl, by rw [h.cwd]; exact hc⟩
  · exact Or.inr ⟨h.idle k hst, hidle.congr (h.cwd k) (h.execInode k) (h.swapFile k) (h.ofile k)⟩

/-- One process changes in fields that say nothing of what it holds. -/
theorem modProc {f : Proc → Proc} (hfs : t.m.fs = s.m.fs) (hproc : t.proc = Function.update s.proc i (f (s.proc i)))
    (hf : SameHolds (s.proc i) (f (s.proc i))) (hx : (f (s.proc i)).execInode = (s.proc i).execInode) : SameHeld s t := by
  have hall : ∀ {α : Type} (g : Proc → α), g (f (s.proc i)) = g (s.proc i) → ∀ k, g (t.proc k) = g (s.proc k) := by
    intro α g hg k
    rw [hproc]
    by_cases hk : k = i
    · rw [hk, Function.update_self, hg]
    · rw [Function.update_of_ne hk]
  have hstate := hall Proc.state hf.state
  refine ⟨hfs, hall Proc.cwd hf.cwd, hall Proc.execInode hx, hall Proc.ofile hf.ofile, hall Proc.swapFile hf.swapFile, ?_, ?_⟩
  · intro k
    rw [Proc.live, Proc.live, hstate]
  · intro k hk
    rwa [hstate]

/-- The machine changes, but not the file system. -/
theorem machine {m : Machine} {held : List Pa} (hfs : m.fs = s.m.fs) : SameHeld s { s with m := m, held := held } :=
  ⟨hfs, fun _ => rfl, fun _ => rfl, fun _ => rfl, fun _ => rfl, fun _ => Iff.rfl, fun _ => id⟩

end SameHeld

/-! ## Steps -/

/-- The actions whose only effect on the file system comes from page events. -/
def Action.pages : Action → Bool
  | .store _ _ _ | .fault _ _ _ | .evict _ | .copyout _ _ _ | .copyin _ _ _ | .wait _ _ => true
  | _ => false

/-- An `exec` that overwrites the executable of the process. -/
def Action.replacesExec (s : Sys) : Action → Prop
  | .exec i path _ => (s.proc i).execInode.isSome ∧ execAssigns s.m (s.proc i) path
  | _ => False

/-- The process that an action is one of. -/
def Action.actor : Action → Option Nat
  | .store i _ _ | .setSp i _ | .fault i _ _ | .evict i | .copyout i _ _ | .copyin i _ _ | .sbrk i _ _ | .fork i | .exec i _ _ | .exit i _
  | .wait i _ | .kill i _ | .open i _ _ | .close i _ | .dup i _ | .mkdir i _ | .mknod i _ _ _ | .chdir i _ | .link i _ _ | .unlink i _ => some i
  | .kalloc | .kfree _ => none

/-- A call of process `i` that changes its descriptors. -/
theorem fileCall_refs {α : Type} {call : Fs → Proc → Kern (Fs × Proc × α)} (hs : s.HoldsOk) (hi : s.ready i)
    (h : s.fileCall call i = .ok t)
    (hcall : ∀ fs p r, call s.m.fs (s.proc i) = .ok (fs, p, r) → p = { s.proc i with ofile := p.ofile, cwd := p.cwd } ∧ p.cwd.isSome ∧
      ∀ R Q, FsRun G ⟨s.m.fs, slot (s.proc i).cwd + R, (s.proc i).files + Q⟩ ⟨fs, slot p.cwd + R, p.files + Q⟩) : Called G 0 s t := by
  obtain ⟨⟨fs, p, r⟩, hc, h⟩ := bind_ok h
  obtain rfl := Except.ok.inj h
  obtain ⟨hp, hcwd, hrun⟩ := hcall fs p r hc
  have hexec : p.execInode = (s.proc i).execInode := by rw [hp]
  refine .put hi.1 hs (hi.2.1.holdsOk (by rw [hp]) hcwd) ?_ ?_ ?_
  · intro R Q
    rw [add_zero, Proc.inodes, Proc.inodes, hexec, add_assoc, add_assoc]
    exact hrun _ Q
  · intro f hf
    rwa [hp] at hf
  · intro x hx
    rw [hexec] at hx
    refine Or.inl ⟨⟨i, hi.1, hx⟩, own_spares hi.1 hx (fun R Q => ⟨_, rfl, hrun R Q⟩)⟩

/-- A call of process `i` that changes its descriptors only. -/
theorem fdCall_refs {α : Type} {call : Fs → Proc → Kern (Fs × Proc × α)} (hs : s.HoldsOk) (hi : s.ready i) (h : s.fileCall call i = .ok t)
    (hcall : ∀ fs p r, call s.m.fs (s.proc i) = .ok (fs, p, r) → ∀ R Q, p = { s.proc i with ofile := p.ofile } ∧
      FsRun G ⟨s.m.fs, R, (s.proc i).files + Q⟩ ⟨fs, R, p.files + Q⟩) : Called G 0 s t := by
  refine fileCall_refs hs hi h ?_
  intro fs p r hc
  have hp := (hcall fs p r hc 0 0).1
  have hcwd : p.cwd = (s.proc i).cwd := by rw [hp]
  refine ⟨by rw [hp], by rw [hcwd]; exact (hs i hi.1).cwd hi.2.1, ?_⟩
  intro R Q
  rw [hcwd]
  exact (hcall fs p r hc _ Q).2

/-- A call that changes nothing of the process. -/
theorem fsCall_refs {α : Type} {call : Fs → Nat → Kern (Fs × α)} (hs : s.HoldsOk) (h : s.fsCall call i = .ok t)
    (hcall : ∀ fs r, call s.m.fs ((s.proc i).cwd.getD 0) = .ok (fs, r) → ∀ R Q, FsRun G ⟨s.m.fs, R, Q⟩ ⟨fs, R, Q⟩) :
    Called G 0 s t := by
  obtain ⟨⟨fs, r⟩, hc, h⟩ := bind_ok h
  obtain rfl := Except.ok.inj h
  exact .keep hs (fun R => hcall fs r hc R _) rfl (fun _ _ hf => hf) (fun _ => rfl)

/-- `kexit`. -/
theorem kexit_refs {status : Int} (hs : s.HoldsOk) (hi : i < nProc) (hl : (s.proc i).live) (h : kexit s i status = .ok t)
    (hF : ∀ f ∈ (s.proc i).files, F f) : Called (Within O W F) 0 s t := by
  unfold kexit at h
  split at h
  · cases h
  obtain ⟨fs, hx, h⟩ := bind_ok h
  obtain rfl := Except.ok.inj h
  -- the children that get a new parent hold what they held
  have hpar : ∀ k, ∃ o, reparent i s.proc k = { s.proc k with parent := o } := by
    intro k
    unfold reparent
    split
    · exact ⟨_, rfl⟩
    · exact ⟨_, rfl⟩
  have hsame : SameHeld s { s with proc := reparent i s.proc } := by
    refine ⟨rfl, ?_, ?_, ?_, ?_, ?_, ?_⟩ <;> intro k <;> obtain ⟨o, ho⟩ := hpar k <;> simp only [ho, Proc.live]
    exact id
  have hidle : ((reparent i s.proc i).exited status).Idle := ⟨rfl, rfl, rfl, fun _ => rfl⟩
  have hput := Called.put (s := { s with proc := reparent i s.proc }) (i := i) (m := (s.m.reach [.beginOp]).withFs fs)
    (p := (reparent i s.proc i).exited status) (l := 0) (G := Within O W F) hi (hsame.holdsOk hs) (Or.inr ⟨Or.inr rfl, hidle⟩)
    ?_ (fun f hf => by cases hf) (fun x hx => by cases hx)
  · obtain ⟨hholds, hrun, hswap, hexec⟩ := hput
    rw [hsame.refs] at hrun
    refine ⟨hholds, hrun, ?_, ?_⟩
    · intro k f hf
      rw [← hsame.swapFile k]
      exact hswap k f hf
    · intro k hk x hx
      exact hsame.execFrom (hexec k hk x hx)
  · intro R Q
    obtain ⟨o, ho⟩ := hpar i
    rw [hidle.inodes, hidle.files, zero_add, zero_add, add_zero]
    simp only [ho]
    exact exitFs_run ((hs i hi).cwd hl) hx hF

/-- A process that has exited has no swap file. -/
theorem Step.exit_swapFile {status : Int} (h : Step s (.exit i status) t) : (t.proc i).swapFile = none := by
  obtain ⟨-, h⟩ := h
  simp only [perform] at h
  unfold kexit at h
  split at h
  · cases h
  obtain ⟨fs, -, h⟩ := bind_ok h
  obtain rfl := Except.ok.inj h
  simp only [Sys.modProc, Function.update_self, Proc.exited]

/-- Every step that is not one of page events. -/
theorem Step.call_refs {a : Action} (hs : s.HoldsOk) (h : Step s a t) (ha : a.pages = false)
    (hopen : ∀ i path omode, a = .open i path omode → ∀ ip, opensPath s.m.fs (s.proc i) path omode ip → O ip ∧ W ip)
    (hF : ∀ i, a.actor = some i → i < nProc → ∀ f ∈ (s.proc i).fds, F f)
    (hexit : ∀ i status, a = .exit i status → i < nProc → ∀ f ∈ (s.proc i).files, F f) (hfree : ∀ f, (s.m.fs.ftable f).ref = 0 → F f) :
    ∃ lost, Called (Within O W F) lost s t ∧ ((lost = 0 ∧ ¬a.replacesExec s) ∨ ∃ ip, lost = {ip} ∧ a.replacesExec s) := by
  obtain ⟨hen, h⟩ := h
  -- most steps lose no reference
  have hkeep : Called (Within O W F) 0 s t → ¬a.replacesExec s →
      ∃ lost, Called (Within O W F) lost s t ∧ ((lost = 0 ∧ ¬a.replacesExec s) ∨ ∃ ip, lost = {ip} ∧ a.replacesExec s) := by
    intro hcalled hno
    exact ⟨0, hcalled, Or.inl ⟨rfl, hno⟩⟩
  have hsame : SameHeld s t → Called (Within O W F) 0 s t := by
    intro hh
    have hin : t.inodes = s.inodes := congrArg Refs.inodes hh.refs
    have hfl : t.files = s.files := congrArg Refs.files hh.refs
    refine .keep (hh.holdsOk hs) ?_ hin ?_ hh.execInode
    · intro r
      rw [hh.fs, hfl]
      exact FsRun.refl _ _
    · intro k f hf
      rwa [← hh.swapFile k]
  cases a with
  | store | fault | evict | copyout | copyin | wait => cases ha
  | setSp i sp =>
    obtain rfl := Except.ok.inj h
    refine hkeep (hsame (.modProc (i := i) (f := fun p => { p with tf := { p.tf with sp := sp } }) rfl rfl ?_ rfl)) id
    exact ⟨rfl, rfl, rfl, rfl⟩
  | sbrk i n eager =>
    simp only [perform] at h
    obtain ⟨m, p, r, hc, rfl⟩ := memCall_ok h
    obtain ⟨henv, hp⟩ := sysSbrk_env hc
    refine hkeep (hsame (.modProc (f := fun _ => p) henv.fs rfl ?_ ?_)) id
    · rw [hp]
      exact ⟨rfl, rfl, rfl, rfl⟩
    · rw [hp]
  | fork i =>
    obtain ⟨⟨u, o⟩, hf, h⟩ := bind_ok h
    obtain rfl := Except.ok.inj h
    exact hkeep (kfork_refs hs hen.1 hen.2.1 hf (hF i rfl hen.1)) id
  | exec i path argv =>
    simp only [perform] at h
    obtain ⟨m, p, r, hc, rfl⟩ := memCall_ok h
    obtain ⟨hready, -, hlen⟩ := hen
    have hargs : ArgsOk argv := fun x hx => lt_trans (hlen x hx) (by decide)
    have hcwd := (hs i hready.1).cwd hready.2.1
    have hexec : SameHolds (s.proc i) p := (kexec_refs (O := O) (W := W) (F := F) (r := 0) (q := 0) hargs hc).1
    have hfiles : p.files = (s.proc i).files := files_congr hexec.ofile hexec.swapFile
    have hput : ∀ {lost : Multiset Nat}, (∀ R Q, FsRun (Within O W F) ⟨s.m.fs, (s.proc i).inodes + R, (s.proc i).files + Q⟩
        ⟨m.fs, p.inodes + R + lost, p.files + Q⟩) → (∀ x, p.execInode = some x → s.ExecFrom m.fs x) →
        Called (Within O W F) lost s (s.put i m p) := by
      intro lost hrun hfrom
      refine .put hready.1 hs (hready.2.1.holdsOk hexec.state (by rw [hexec.cwd]; exact hcwd)) hrun ?_ hfrom
      intro f hf
      rwa [← hexec.swapFile]
    by_cases hassign : execAssigns s.m (s.proc i) path
    · refine ⟨slot (s.proc i).execInode, hput ?_ ?_, ?_⟩
      · intro R Q
        obtain ⟨-, ⟨hno, -⟩ | ⟨ip, -, hip, -, hrun⟩⟩ :=
          kexec_refs (O := O) (W := W) (F := F) (r := (s.proc i).inodes + R) (q := (s.proc i).files + Q) hargs hc
        · exact absurd hassign hno
        · refine hrun.to ?_ (by rw [hfiles])
          rw [Proc.inodes, Proc.inodes, hip, hexec.cwd, slot_some]
          abel
      · intro x hx
        obtain ⟨-, ⟨hno, -⟩ | ⟨ip, -, hip, hvalid, -⟩⟩ := kexec_refs (O := O) (W := W) (F := F) (r := 0) (q := 0) hargs hc
        · exact absurd hassign hno
        · obtain rfl := Option.some.inj (hip.symm.trans hx)
          exact Or.inr hvalid
      · cases hold : (s.proc i).execInode with
        | none => exact Or.inl ⟨rfl, fun hr => by rw [Action.replacesExec, hold] at hr; cases hr.1⟩
        | some ip => exact Or.inr ⟨ip, rfl, by rw [hold]; rfl, hassign⟩
    · have hsameExec : p.execInode = (s.proc i).execInode ∧
          ∀ r q, FsRun (Within O W F) ⟨s.m.fs, r, q⟩ ⟨m.fs, r, q⟩ := by
        refine ⟨?_, fun r q => ?_⟩
        · obtain ⟨-, ⟨-, hx, -⟩ | ⟨ip, hyes, -⟩⟩ := kexec_refs (O := O) (W := W) (F := F) (r := 0) (q := 0) hargs hc
          · exact hx
          · exact absurd hyes hassign
        · obtain ⟨-, ⟨-, -, hrun⟩ | ⟨ip, hyes, -⟩⟩ := kexec_refs (O := O) (W := W) (F := F) (r := r) (q := q) hargs hc
          · exact hrun
          · exact absurd hyes hassign
      obtain ⟨hx, hrun⟩ := hsameExec
      have hin : p.inodes = (s.proc i).inodes := by rw [Proc.inodes, Proc.inodes, hx, hexec.cwd]
      refine ⟨0, hput ?_ ?_, Or.inl ⟨rfl, fun hr => hassign hr.2⟩⟩
      · intro R Q
        rw [hin, hfiles, add_zero]
        exact hrun _ _
      · intro x hpx
        rw [hx] at hpx
        exact Or.inl ⟨⟨i, hready.1, hpx⟩, own_spares hready.1 hpx (fun R Q => ⟨_, rfl, hrun _ _⟩)⟩
  | exit i status => exact hkeep (kexit_refs hs hen.1 hen.2 h (hexit i status rfl hen.1)) id
  | kill i pid =>
    obtain rfl := Except.ok.inj h
    refine hkeep (hsame ?_) id
    unfold kkill
    split
    · exact .machine rfl
    · rename_i j _
      refine ⟨rfl, ?_, ?_, ?_, ?_, ?_, ?_⟩ <;> intro k <;> simp only [Sys.modProc, Function.update_apply] <;> split <;> simp_all [Proc.live]
      · split <;> simp_all
      · rintro (hst | hst) <;> simp [hst]
  | «open» i path omode =>
    simp only [perform] at h
    exact hkeep (fdCall_refs hs hen h (fun fs p r hc R Q => sysOpen_run hc (hopen i path omode rfl) hfree)) id
  | close i fd =>
    simp only [perform] at h
    exact hkeep (fdCall_refs hs hen h (fun fs p r hc R Q => sysClose_run hc (hF i rfl hen.1))) id
  | dup i fd =>
    simp only [perform] at h
    exact hkeep (fdCall_refs hs hen h (fun fs p r hc R Q => sysDup_run hc (hF i rfl hen.1))) id
  | mkdir i path =>
    simp only [perform] at h
    exact hkeep (fsCall_refs hs h (fun fs r hc R Q => createPut_run (by decide) hc)) id
  | mknod i path major minor =>
    simp only [perform] at h
    exact hkeep (fsCall_refs hs h (fun fs r hc R Q => createPut_run (by decide) hc)) id
  | chdir i path =>
    simp only [perform] at h
    refine hkeep (fileCall_refs hs hen h ?_) id
    intro fs p r hc
    have hcwd := (hs i hen.1).cwd hen.2.1
    have hrun := fun R Q => sysChdir_run (O := O) (W := W) (F := F) (r := R) (q := Q) hcwd hc
    obtain ⟨hp, hcwd', -⟩ := hrun 0 0
    refine ⟨by rw [hp], hcwd', ?_⟩
    intro R Q
    have hfl : p.files = (s.proc i).files := by rw [hp]; rfl
    rw [hfl]
    exact (hrun R _).2.2
  | link i old new =>
    simp only [perform] at h
    exact hkeep (fsCall_refs hs h (fun fs r hc R Q => sysLink_run hc)) id
  | unlink i path =>
    simp only [perform] at h
    exact hkeep (fsCall_refs hs h (fun fs r hc R Q => sysUnlink_run hc)) id
  | kalloc =>
    simp only [perform] at h
    split at h
    · obtain rfl := Except.ok.inj h
      exact hkeep (hsame (.machine rfl)) id
    · rename_i m pa hk
      obtain rfl := Except.ok.inj h
      exact hkeep (hsame (.machine (kalloc_env hk).fs)) id
  | kfree pa =>
    obtain ⟨m, hk, h⟩ := bind_ok h
    obtain rfl := Except.ok.inj h
    exact hkeep (hsame (.machine (kfree_env hk).fs)) id

/-! ## Page events -/

/-- A page event leaves what a process holds, but for its swap file. -/
theorem SameImage.holds (h : SameImage p p') : p'.state = p.state ∧ p'.cwd = p.cwd ∧ p'.execInode = p.execInode ∧ p'.ofile = p.ofile ∧
    p'.pid = p.pid := by
  rw [h.eq]
  exact ⟨rfl, rfl, rfl, rfl, rfl⟩

/-- The step of an action of page events: process `i` runs through the events `evs`; then a child that has exited may be freed. -/
def PagesVia (G : Machine × Proc → PageEvent → Prop) (s : Sys) (a : Action) (t : Sys) (evs : List PageEvent) : Prop :=
  ∃ i m₀ m p, a.actor = some i ∧ s.ready i ∧ (m₀ = s.m ∨ m₀ = s.m.acquire.acquire) ∧
    Run (Guarded G PageStep) (m₀, s.proc i) evs (m, p) ∧ SameHeld (s.put i m p) t

/-- Every action of page events is made of them. -/
theorem Step.pages {a : Action} (h : Step s a t) (ha : a.pages = true) : ∃ evs, PagesVia (fun _ _ => True) s a t evs := by
  obtain ⟨hen, h⟩ := h
  -- a call on the memory of a process
  have hcall : ∀ {α : Type} {call : Machine → Proc → Kern (Machine × Proc × α)} {i : Nat} {H : PageEvent → Prop}, a.actor = some i →
      s.ready i → s.memCall call i = .ok t → (∀ m p r, call s.m (s.proc i) = .ok (m, p, r) → PageRun H s.m (s.proc i) m p) →
      ∃ evs, PagesVia (fun _ _ => True) s a t evs := by
    intro α call i H ha hready hm hrun
    obtain ⟨m, p, r, hc, rfl⟩ := memCall_ok hm
    obtain ⟨evs, hevs⟩ : PageRun (fun _ => True) _ _ m p := (hrun m p r hc).mono (fun _ _ => trivial)
    exact ⟨evs, i, s.m, m, p, ha, hready, Or.inl rfl, hevs, .machine rfl⟩
  cases a with
  | setSp | sbrk | fork | exec | exit | kill | «open» | close | dup | mkdir | mknod | chdir | link | unlink | kalloc | kfree => nomatch ha
  | store i a b =>
    obtain ⟨hready, htr⟩ := hen
    obtain ⟨pa, hpa⟩ := Option.isSome_iff_exists.mp htr
    obtain rfl := Except.ok.inj h
    have hfs : ((userStore s.m (s.proc i) a b).getD s.m).fs = s.m.fs := by
      rw [userStore, hpa]
      rfl
    refine ⟨[], i, s.m, s.m, s.proc i, rfl, hready, Or.inl rfl, Run.nil _, ?_⟩
    rw [put_self]
    exact .machine hfs
  | fault i a access =>
    simp only [perform] at h
    exact hcall rfl hen.1 h (fun m p r hc => handlePageFault_run hc)
  | evict i =>
    simp only [perform] at h
    exact hcall rfl hen h (fun m p r hc => evictPageFifo_run .read hc)
  | copyout i dstva src =>
    simp only [perform] at h
    exact hcall rfl hen h (fun m p r hc => copyout_run hc)
  | copyin i srcva len =>
    simp only [perform] at h
    exact hcall rfl hen h (fun m p r hc => copyin_run hc)
  | wait i addr =>
    obtain ⟨⟨u, o⟩, hw, h⟩ := bind_ok h
    obtain rfl := Except.ok.inj h
    rcases kwait_cases hen.2.1 hw with rfl | ⟨j, hlt, hji, hz, hw⟩
    · refine ⟨[], i, u.m, u.m, u.proc i, rfl, hen, Or.inl rfl, Run.nil _, ?_⟩
      rw [put_self]
      exact .machine rfl
    obtain ⟨m, p, hrun, hend⟩ := waitChild_cases hji hw
    obtain ⟨evs, hevs⟩ : PageRun (fun _ => True) _ _ m p := hrun.mono (fun _ _ => trivial)
    refine ⟨evs, i, s.m.acquire.acquire, m, p, rfl, hen, Or.inr rfl, hevs, ?_⟩
    rcases hend with rfl | ⟨m₁, np, hfree, rfl⟩
    · exact .machine rfl
    · -- the child that is freed held nothing any more
      obtain ⟨henv, rfl⟩ := freeproc_env hfree
      have hz' : ((s.put i m p).proc j).state = .zombie := by
        rw [Sys.put_proc_of_ne _ _ _ hji]
        exact hz
      have hproc : ((s.put i m p).put j m₁.release.release (s.proc j).freed).proc j = ((s.put i m p).proc j).freed := by
        rw [Sys.put_proc_self, Sys.put_proc_of_ne _ _ _ hji]
      have hall : ∀ {α : Type} (g : Proc → α), (∀ q : Proc, g q.freed = g q) → ∀ k,
          g (((s.put i m p).put j m₁.release.release (s.proc j).freed).proc k) = g ((s.put i m p).proc k) := by
        intro α g hg k
        by_cases hk : k = j
        · rw [hk, hproc, hg]
        · rw [Sys.put_proc_of_ne _ _ _ hk]
      refine ⟨henv.fs, hall Proc.cwd (fun _ => rfl), hall Proc.execInode (fun _ => rfl), hall Proc.ofile (fun _ => rfl),
        hall Proc.swapFile (fun _ => rfl), ?_, ?_⟩
      · intro k
        by_cases hk : k = j
        · rw [hk, hproc, Proc.live, Proc.live, hz']
          simp [Proc.freed]
        · rw [Sys.put_proc_of_ne _ _ _ hk]
      · intro k hk
        by_cases hkj : k = j
        · rw [hkj, hproc]
          exact Or.inl rfl
        · rwa [Sys.put_proc_of_ne _ _ _ hkj]

/-- A run of page events of a process, as a run of file system events. -/
theorem PageRun.refs {G : PageEvent → Prop} {m m' : Machine} {p p' : Proc} {r q : Multiset Nat} (h : PageRun G m p m' p') :
    FsRun (fun _ => True) ⟨m.fs, r, p.files + q⟩ ⟨m'.fs, r, p'.files + q⟩ := by
  obtain ⟨evs, hr⟩ := h
  refine hr.invariant (fun x => FsRun (fun _ => True) ⟨m.fs, r, p.files + q⟩ ⟨x.1.fs, r, x.2.files + q⟩) ?_ (FsRun.refl _ _)
  rintro ⟨m₁, p₁⟩ ev ⟨m₂, p₂⟩ hx ⟨-, hs⟩
  have hstep := PageStep.refs (O := fun _ => True) (W := fun _ => True) (F := fun _ => True) (r := r) (q := q) hs
    (fun _ _ _ _ => ⟨trivial, trivial⟩) (fun _ _ _ => trivial) (fun _ _ => trivial)
  exact hx.trans (hstep.mono (fun _ _ => trivial))

/-- Every step of the system is a run of file system events; it loses a reference when it overwrites `exec_inode`. -/
theorem Step.refs (hs : s.HoldsOk) (h : Step s a t) : t.HoldsOk ∧
    ∃ lost, FsRun (fun _ => True) s.refs ⟨t.m.fs, t.inodes + lost, t.files⟩ ∧ (lost = 0 ↔ ¬a.replacesExec s) := by
  cases ha : a.pages with
  | false =>
    obtain ⟨lost, ⟨hok, hrun, -⟩, hlost⟩ := h.call_refs (O := fun _ => True) (W := fun _ => True) (F := fun _ => True) hs ha
      (fun _ _ _ _ _ _ => ⟨trivial, trivial⟩) (fun _ _ _ _ _ => trivial) (fun _ _ _ _ _ _ => trivial) (fun _ _ => trivial)
    refine ⟨hok, lost, hrun.mono (fun _ _ => trivial), ?_⟩
    rcases hlost with ⟨hzero, hno⟩ | ⟨ip, hone, hyes⟩
    · exact iff_of_true hzero hno
    · refine iff_of_false ?_ (not_not_intro hyes)
      rw [hone]
      exact Multiset.singleton_ne_zero ip
  | true =>
    have hno : ¬a.replacesExec s := by
      intro hr
      cases a <;> first | exact hr | cases ha
    obtain ⟨evs, i, m₀, m, p, -, hready, hm₀, hrun, hheld⟩ := h.pages ha
    have hrun : PageRun (fun _ => True) m₀ (s.proc i) m p := ⟨evs, hrun⟩
    have hfs : m₀.fs = s.m.fs := by rcases hm₀ with rfl | rfl <;> rfl
    obtain ⟨hstate, hcwd, hexec, -⟩ := hrun.image.holds
    have hcur : p.cwd.isSome := by
      rw [hcwd]
      exact (hs i hready.1).cwd hready.2.1
    refine ⟨hheld.holdsOk (hs.put (hready.2.1.holdsOk hstate hcur)), 0, ?_, iff_of_true rfl hno⟩
    have hput := put_refs (s := s) (i := i) (m := m) (p := p) (l := 0) (G := fun _ => True) hready.1 ?_
    · have hrefs : t.refs = (s.put i m p).refs := hheld.refs
      exact (hrefs ▸ hput.to (add_zero _) rfl : FsRun (fun _ => True) s.refs t.refs).to (add_zero _).symm rfl
    · intro R Q
      have hin : p.inodes = (s.proc i).inodes := by rw [Proc.inodes, Proc.inodes, hcwd, hexec]
      rw [add_zero, hin, ← hfs]
      exact hrun.refs

/-- A run of events keeps the counts. -/
theorem FsRun.counted {G : FsEvent → Prop} {x y : Refs} {lost : Multiset Nat} (h : FsRun G x y) (hx : Counted lost x) : Counted lost y :=
  h.invariant (Counted lost) (fun _ _ _ hx _ hs => hs.counted hx) hx

/-! ## Boot -/

theorem Proc.zero_idle : Proc.zero.Idle := ⟨rfl, rfl, rfl, fun _ => rfl⟩

/-- Before the first process there is no reference. -/
theorem PreBoot.counted (h : PreBoot s) : s.HoldsOk ∧ Counted 0 s.refs := by
  have hin : s.inodes = 0 := Finset.sum_eq_zero (fun k _ => by rw [h.proc]; exact Proc.zero_idle.inodes)
  have hfiles : s.files = 0 := Finset.sum_eq_zero (fun k _ => by rw [h.proc]; exact Proc.zero_idle.files)
  have hopened : s.m.fs.opened = 0 := by
    refine content_none ?_
    intro f _
    rw [File.opens, if_neg]
    rintro ⟨hpos, -⟩
    rw [(h.ftable f).1] at hpos
    exact absurd hpos (lt_irrefl 0)
  refine ⟨?_, ?_, ?_, fun f _ => (h.ftable f).2, fun f _ => (h.ftable f).1⟩
  · intro k _
    rw [h.proc]
    exact Or.inr ⟨Or.inl rfl, Proc.zero_idle⟩
  · intro i
    change s.m.fs.ref i = (s.inodes + s.m.fs.opened + 0).count i
    rw [h.ref i, hin, hopened]
    rfl
  · intro f
    change (s.m.fs.ftable f).ref = s.files.count f
    rw [(h.ftable f).1, hfiles]
    rfl

section Booted

variable {s₀ : Sys} {ip argc : Nat} {m₁ : Machine} {tf : Pa} {pt : PageTable} {fs : Fs}

theorem Booted.sameHolds (hb : Booted s₀ j m₁ tf pt fs ip m p argc s) : SameHolds (s₀.first j tf pt ip) p :=
  (kexec_refs (O := fun _ => True) (W := fun _ => True) (F := fun _ => True) (r := 0) (q := 0) bootArgs_ok hb.exec).1

theorem Booted.holdsOk (hb : Booted s₀ j m₁ tf pt fs ip m p argc s) : s.HoldsOk := by
  rw [hb.result]
  refine hb.pre.counted.1.put (m := m) (Or.inl ⟨Or.inr (Or.inl hb.sameHolds.state), ?_⟩)
  rw [hb.sameHolds.cwd]
  rfl

/-- No process has a swap file yet. -/
theorem Booted.swapFile (hb : Booted s₀ j m₁ tf pt fs ip m p argc s) (k : Nat) : (s.proc k).swapFile = none := by
  rw [hb.result]
  change ((s₀.put j m p).proc k).swapFile = none
  by_cases hk : k = j
  · rw [hk, Sys.put_proc_self, hb.sameHolds.swapFile]
    rfl
  · rw [Sys.put_proc_of_ne _ _ _ hk, hb.pre.proc]
    rfl

/-- What happens to the references from the zeroed process table to the first process in user mode. -/
theorem Booted.refs (hb : Booted s₀ j m₁ tf pt fs ip m p argc s) : FsRun (fun _ => True) s₀.refs s.refs := by
  have hz : (s₀.proc j).Idle := by
    rw [hb.pre.proc]
    exact Proc.zero_idle
  have hfiles : p.files = 0 :=
    (files_congr hb.sameHolds.ofile hb.sameHolds.swapFile).trans
      ((files_congr rfl hz.swapFile.symm : (s₀.first j tf pt ip).files = (s₀.proc j).files).trans hz.files)
  rw [hb.result]
  refine (put_refs (s := s₀) (i := j) (m := m) (p := p) (l := 0) hb.lt ?_).to (add_zero _) rfl
  intro R Q
  rw [hz.inodes, hz.files, hfiles, zero_add, add_zero, ← hb.alloc.fs]
  have hroot := namei_run (O := fun _ => True) (W := fun _ => True) (F := fun _ => True) (r := R) (q := 0 + Q) hb.root
  have hexec := kexec_refs (O := fun _ => True) (W := fun _ => True) (F := fun _ => True) (r := {ip} + R) (q := 0 + Q) bootArgs_ok hb.exec
  refine FsRun.mono (hroot.trans ?_) (fun _ _ => trivial)
  obtain ⟨hsame, ⟨-, hx, hrun⟩ | ⟨ip', -, hx, -, hrun⟩⟩ := hexec
  · refine hrun.to ?_ rfl
    rw [Proc.inodes, hx, hsame.cwd]
    change {ip} + R = {ip} + 0 + R
    abel
  · refine hrun.to ?_ rfl
    rw [Proc.inodes, hx, hsame.cwd]
    change {ip'} + ({ip} + R) = {ip} + {ip'} + R
    abel

end Booted

/-- The first process in user mode: its current directory and its executable are counted. -/
theorem Boot.counted (h : Boot s) : s.HoldsOk ∧ Counted 0 s.refs := by
  obtain ⟨s₀, j, m₁, tf, pt, fs, ip, m, p, argc, hb⟩ := h.booted
  exact ⟨hb.holdsOk, hb.refs.counted hb.pre.counted.2⟩

end Xv6SnifferBakery.Kernel
