import Xv6SnifferBakery.Lemmas.Replay
import Xv6SnifferBakery.Lemmas.SysRefs

/-!
# The reference counts of inodes

The count of an inode is the number of its holders exactly in the runs in which no `exec` gets to the assignment of `exec_inode` while
the process has one: that assignment does not release the old inode, so its count is one too high from then on.
-/

namespace Xv6SnifferBakery.Kernel

open Lib

/-- The holders of an inode between two calls: the processes that execute it, the files open on it, the processes working in it. -/
def Sys.holders (s : Sys) (i : Nat) : Nat :=
  (List.range nProc).countP (fun k => (s.proc k).execInode = some i) + (List.range nFile).countP (fun f => (s.m.fs.ftable f).opens = some i) +
    (List.range nProc).countP (fun k => (s.proc k).cwd = some i)

/-- A step in which no `exec` overwrites `exec_inode`. -/
abbrev ReleaseStep : Sys → Action → Sys → Prop := Guarded (fun s a => ¬a.replacesExec s) Step

variable {s t u : Sys} {as : List Action} {a : Action} {i : Nat} {lost lost' : Multiset Nat}

/-- The holders, as references. -/
theorem holders_eq (s : Sys) (i : Nat) : s.holders i = (s.inodes + s.m.fs.opened).count i := by
  have hin : s.inodes = content nProc (fun k => (s.proc k).cwd) + content nProc (fun k => (s.proc k).execInode) :=
    Finset.sum_add_distrib
  rw [hin, Fs.opened, Multiset.count_add, Multiset.count_add, count_content, count_content, count_content, Sys.holders]
  omega

/-- The counts are the holders exactly when nothing is lost. -/
theorem Counted.exact_iff (h : Counted lost s.refs) : (∀ i, s.m.fs.ref i = s.holders i) ↔ lost = 0 := by
  have hcount : ∀ i, s.m.fs.ref i = s.holders i + lost.count i := by
    intro i
    rw [holders_eq, ← Multiset.count_add]
    exact h.inodes i
  constructor
  · intro hall
    refine Multiset.ext.mpr ?_
    intro i
    have h1 := hcount i
    rw [hall i] at h1
    rw [Multiset.count_zero]
    omega
  · rintro rfl i
    rw [hcount i, Multiset.count_zero, add_zero]

/-! ## Runs -/

/-- The step of an action is a function of the state. -/
theorem Step.unique (s : Sys) (a : Action) (t u : Sys) (h : Step s a t) (h' : Step s a u) : t = u :=
  Except.ok.inj (h.2.symm.trans h'.2)

/-- At the end of every run the counts are the holders and what was lost; nothing was lost exactly when no `exec` overwrote `exec_inode`. -/
theorem Boot.run_counted (hb : Boot s) (h : Run Step s as t) :
    t.HoldsOk ∧ ∃ lost, Counted lost t.refs ∧ (lost = 0 ↔ Run ReleaseStep s as t) := by
  induction h with
  | nil => exact ⟨hb.counted.1, 0, hb.counted.2, iff_of_true rfl (Run.nil _)⟩
  | snoc hr hs ih =>
    obtain ⟨hok, lost, hcount, hlost⟩ := ih
    obtain ⟨hok', lost', hrun, hlost'⟩ := Step.refs hok hs
    refine ⟨hok', lost + lost', (hrun.counted hcount).lose, ?_⟩
    rw [add_eq_zero, hlost, hlost', hr.guarded_snoc Step.unique hs]

/-- In every run from boot: the count of every inode is the number of its holders if and only if no `exec` of the run overwrote the
executable of its process. Then also the next step that does not is made of events that each keep the counts, with the references that
the running operation holds. -/
theorem inode_refs_exact_iff (hb : Boot s) (h : Run Step s as t) :
    ((∀ i, t.m.fs.ref i = t.holders i) ↔ Run ReleaseStep s as t) ∧
      (Run ReleaseStep s as t → ∀ a u, ReleaseStep t a u → ∃ evs, Run FsStep t.refs evs u.refs ∧
        ∀ pre x, pre <+: evs → Run FsStep t.refs pre x → ∀ i, x.fs.ref i = x.inodes.count i + x.fs.opened.count i) := by
  obtain ⟨hok, lost, hcount, hlost⟩ := hb.run_counted h
  refine ⟨hcount.exact_iff.trans hlost, ?_⟩
  intro hrel a u hs
  obtain rfl := hlost.mpr hrel
  obtain ⟨-, lost', hrun, hlost'⟩ := Step.refs hok hs.2
  obtain rfl := hlost'.mpr hs.1
  obtain ⟨evs, hevs⟩ := hrun.to (add_zero _) rfl
  refine ⟨evs, hevs.mono (fun _ _ _ hg => hg.2), ?_⟩
  intro pre x _ hx i
  have hcx : Counted 0 x := hx.invariant (Counted 0) (fun _ _ _ hy hev => hev.counted hy) hcount
  rw [hcx.inodes i, add_zero, Multiset.count_add]

/-- The first process opens its executable, forks, and both the child and it close the file. -/
def shareInit : List Action := [.open 0 "/init".toList 0, .fork 0, .close 1 0, .close 0 0, .exit 1 0]

theorem inode_refs_exact_iff_shareInit : ∃ t, Run ReleaseStep (smallBoot smallFiles 32) shareInit t ∧ ∀ i, t.m.fs.ref i = t.holders i := by
  have hex : (replay (smallBoot smallFiles 32) shareInit).isSome = true := by decide +kernel
  obtain ⟨t, ht⟩ := Option.isSome_iff_exists.mp hex
  have hrun := replay_run ht
  have hrel : Run ReleaseStep (smallBoot smallFiles 32) shareInit t := by
    refine hrun.guard (G := fun a => ∀ s, ¬a.replacesExec s) ?_ |>.mono (fun s _ _ hg => ⟨hg.1 s, hg.2⟩)
    intro a ha s
    simp only [shareInit, List.mem_cons, List.not_mem_nil, or_false] at ha
    rcases ha with rfl | rfl | rfl | rfl | rfl <;> exact id
  exact ⟨t, hrel, (inode_refs_exact_iff smallBoot_init hrun).1.mpr hrel⟩

/-- The count of an inode is not the number of its holders in every run: after the first process executes another program, `/init` has
a count of one and no holder. -/
theorem inode_refs_not_exact : ¬∀ s t as, Boot s → Run Step s as t → ∀ i, t.m.fs.ref i = t.holders i := by
  intro hall
  have hex : (replay (smallBoot twoPrograms 32) [.exec 0 "/echo".toList []]).any
      (fun t => t.m.fs.ref 2 = 1 ∧ t.holders 2 = 0) = true := by decide +kernel
  obtain ⟨t, ht, h⟩ := (Option.any_eq_true _ _).mp hex
  obtain ⟨hone, hzero⟩ := of_decide_eq_true h
  have heq := hall _ _ _ smallBoot_two (replay_run ht) 2
  omega

end Xv6SnifferBakery.Kernel
