import Xv6SnifferBakery.Lemmas.Replay
import Xv6SnifferBakery.Lemmas.SwapFiles

/-!
# Swap files are private

The inode of a swap file is not shared, and its bytes change only by its own process's swap-outs, in every run in which each swap file
is made under a name that no file has, and no `open` leads to the swap file of a process.
-/

namespace Xv6SnifferBakery.Kernel

open Lib

/-- The steps that leave swap files private: no `open` leads to one, and none is made under the name of a file or a device. -/
inductive PrivateStep (s : Sys) : IoAction → Sys → Prop where
  | call {a : Action} {t : Sys} (h : Step s a t) (noPages : a.pages = false)
      (open_ : ∀ i path omode, a = .open i path omode → ¬opensSwapFile s i path omode) : PrivateStep s (.call a) t
  | pages {a : Action} {t : Sys} {evs : List PageEvent} (h : Step s a t) (pages : a.pages = true)
      (fresh : PagesVia MakesNewSwap s a t evs) : PrivateStep s (.call a) t
  | write {i fd n : Nat} {src : Nat → Byte} {t : Sys} (h : IoStep s (.write i fd src n) t) : PrivateStep s (.write i fd src n) t

/-- What privacy of the swap files means: every swap file is open on an inode that no other file is open on, and those of two
processes are on different inodes. -/
structure SwapPrivate (s : Sys) : Prop where
  unshared : ∀ i < nProc, ∀ f, (s.proc i).swapFile = some f → (s.m.fs.ftable f).opens = some (s.m.fs.ftable f).ip ∧
    ∀ g, g ≠ f → (s.m.fs.ftable g).opens ≠ some (s.m.fs.ftable f).ip
  distinct : ∀ i < nProc, ∀ j < nProc, i ≠ j → ∀ f g, (s.proc i).swapFile = some f → (s.proc j).swapFile = some g →
    (s.m.fs.ftable f).ip ≠ (s.m.fs.ftable g).ip

variable {s t u : Sys} {as : List IoAction} {a : IoAction}

theorem SwapInv.swapPrivate (h : SwapInv s) : SwapPrivate s := by
  refine ⟨?_, ?_⟩
  · intro i hi f hf
    have hp := h.own i hi f hf
    refine ⟨hp.opens, ?_⟩
    intro g hg ho
    exact hg (hp.alone g ho)
  · intro i hi j hj hij f g hf hg
    exact h.distinct hi hj hij hf hg

/-- The first process in user mode. -/
theorem ColdBoot.inv (h : ColdBoot s) : SwapInv s := by
  refine ⟨h.boot.counted.1, h.sound, ?_⟩
  intro i _ f hf
  rw [h.boot.swapFile i] at hf
  cases hf

theorem PrivateStep.inv (hs : SwapInv s) (h : PrivateStep s a t) : SwapInv t := by
  cases h with
  | call h hno hopen => exact (hs.call h hno hopen).1
  | pages _ _ hfresh => exact (hs.pages hfresh).1
  | write h =>
    cases h with
    | write hready hw => exact (hs.write hready.1 hw).1

/-- The bytes of a swap file after a step: those before, unless its process swapped out. -/
theorem PrivateStep.bytes {i f : Nat} (hs : SwapInv s) (h : PrivateStep s a t) (hi : i < nProc) (hf : (s.proc i).swapFile = some f)
    (hf' : (t.proc i).swapFile = some f) :
    (s.m.fs.inode (s.m.fs.ftable f).ip).SameBytes (t.m.fs.inode (s.m.fs.ftable f).ip) ∨
      ∃ b, a = .call b ∧ b.actor = some i ∧ ∀ evs, PagesVia (fun _ _ => True) s b t evs → ∃ ev ∈ evs, ev.swapsOut := by
  cases h with
  | call h hno hopen => exact Or.inl ((hs.call h hno hopen).2 i hi f hf hf')
  | pages hstep hpages hfresh =>
    rename_i b evs
    by_cases hactor : b.actor = some i
    · by_cases hsame : (s.m.fs.inode (s.m.fs.ftable f).ip).SameBytes (t.m.fs.inode (s.m.fs.ftable f).ip)
      · exact Or.inl hsame
      · refine Or.inr ⟨b, rfl, hactor, ?_⟩
        intro evs hevs
        by_contra hno
        push Not at hno
        exact hsame (hs.ownBytes hevs hactor hi hf hno)
    · exact Or.inl ((hs.pages hfresh).2 i hi hactor f hf)
  | write h =>
    cases h with
    | write hready hw => exact Or.inl ((hs.write hready.1 hw).2 i hi f hf)

/-- In every run from boot whose steps leave swap files private: no inode of a swap file is shared in the state reached, and in a
further such step the bytes of a swap file change only if its process swaps out. -/
theorem swap_private (hb : ColdBoot s) (h : Run PrivateStep s as t) :
    SwapPrivate t ∧ ∀ a u, PrivateStep t a u → ∀ i < nProc, ∀ f, (t.proc i).swapFile = some f → (u.proc i).swapFile = some f →
      (t.m.fs.inode (t.m.fs.ftable f).ip).SameBytes (u.m.fs.inode (t.m.fs.ftable f).ip) ∨
        ∃ b, a = .call b ∧ b.actor = some i ∧ ∀ evs, PagesVia (fun _ _ => True) t b u evs → ∃ ev ∈ evs, ev.swapsOut := by
  have hinv : SwapInv t := h.invariant SwapInv (fun _ _ _ hs hstep => hstep.inv hs) hb.inv
  refine ⟨hinv.swapPrivate, ?_⟩
  intro a u hstep i hi f hf hf'
  exact hstep.bytes hinv hi hf hf'

/-! ## Two runs -/

/-- Nothing has the path. -/
def nameFree (fs : Fs) (cwd : Nat) (path : List Char) : Bool :=
  match nameiparent fs cwd path with
  | .ok (fs, some (dp, name)) => (entIndex (fs.inode dp).ents name).isNone
  | _ => true

theorem nameFree.not_taken {fs : Fs} {cwd : Nat} {path : List Char} (h : nameFree fs cwd path = true) : ¬nameTaken fs cwd path := by
  rintro ⟨fs₁, dp, name, k, hn, hk, -⟩
  simp [nameFree, hn, hk] at h

/-- `open` of the path leads to no swap file. -/
def opensNoSwap (s : Sys) (i : Nat) (path : List Char) (omode : Nat) : Bool :=
  match openInode s.m.fs ((s.proc i).cwd.getD 0) path omode with
  | .ok (_, some ip) => (List.range nProc).all (fun k => (s.proc k).swapFile.all (fun f => (s.m.fs.ftable f).ip ≠ ip))
  | _ => true

theorem opensNoSwap.not_opens {i : Nat} {path : List Char} {omode : Nat} (h : opensNoSwap s i path omode = true) :
    ¬opensSwapFile s i path omode := by
  rintro ⟨k, hk, f, hf, fs₁, ho, -⟩
  rw [opensNoSwap, ho] at h
  have hall := List.all_eq_true.mp h k (List.mem_range.mpr hk)
  rw [hf] at hall
  exact of_decide_eq_true hall rfl

/-- The actions of the run here: faults that find a free page, evictions that find the swap file or its name free, and calls that open no
swap file. -/
def Action.keepsPrivate (s : Sys) : Action → Bool
  | .fault i a access => Action.serves s (.fault i a access)
  | .evict i => Action.serves s (.evict i) &&
      ((s.proc i).swapFile.isSome || nameFree s.m.fs ((s.proc i).cwd.getD 0) (swapname (s.proc i).pid))
  | .open i path omode => opensNoSwap s i path omode
  | a => !a.pages

theorem Step.keepsPrivate {a : Action} (h : Step s a t) (ha : a.keepsPrivate s = true) : PrivateStep s (.call a) t := by
  cases a with
  | fault i addr access =>
    obtain ⟨m, p, evs, rfl, hr, hevs⟩ := h.fault_events ha
    have hno : ∀ ev ∈ evs, ¬ev.swapsOut := by
      rcases hevs with ⟨-, j, rfl⟩ | ⟨src, j, rfl | rfl⟩ <;> simp [PageEvent.swapsOut]
    have hr : Run PageStep (s.m, s.proc i) evs (m, p) := hr.mono (fun _ _ _ hg => hg.2)
    have hfresh : Run (Guarded MakesNewSwap PageStep) (s.m, s.proc i) evs (m, p) :=
      (hr.guard (G := fun ev => ¬ev.swapsOut) hno).mono (fun _ _ _ hg => ⟨fun hout => absurd hout hg.1, hg.2⟩)
    exact .pages h rfl ⟨i, s.m, m, p, rfl, h.1.1, Or.inl rfl, hfresh, .machine rfl⟩
  | evict i =>
    obtain ⟨hserves, hname⟩ := Bool.and_eq_true_iff.mp ha
    obtain ⟨m, p, ev, rfl, hs, -⟩ := h.evict_event hserves
    refine .pages h rfl ⟨i, s.m, m, p, rfl, h.1, Or.inl rfl, Run.single (a := ev) ⟨?_, hs⟩, .machine rfl⟩
    rintro - ⟨hnone, -⟩ ⟨htaken, -⟩
    rw [hnone] at hname
    exact nameFree.not_taken hname htaken
  | «open» i path omode =>
    refine .call h rfl ?_
    rintro _ _ _ ⟨⟩
    exact opensNoSwap.not_opens ha
  | store | copyout | copyin | wait => cases ha
  | _ => exact .call h rfl (fun _ _ _ hopen => by cases hopen)

/-- A process swaps a page out and forks, the child swaps its own copy of another page out, and both work on other files. -/
def swapBoth : List Action := [.open 0 "/a".toList 0x202, .sbrk 0 8192 false, .fault 0 16384 .read, .fault 0 16384 .write,
  .fault 0 20480 .read, .fault 0 20480 .write, .evict 0, .evict 0, .fork 0, .evict 1, .open 1 "/b".toList 0x202, .unlink 0 "/a".toList,
  .close 1 0]

/-- Each of the two has its swap file; when the parent swaps its second page out, the child's file keeps its bytes. -/
theorem swap_private_both : ∃ t u f g, Run PrivateStep (smallBoot smallFiles 32) (swapBoth.map .call) t ∧ (t.proc 0).swapFile = some f ∧
    (t.proc 1).swapFile = some g ∧ SwapPrivate t ∧ PrivateStep t (.call (.evict 0)) u ∧
    (t.m.fs.inode (t.m.fs.ftable f).ip).size = 4096 ∧ (u.m.fs.inode (t.m.fs.ftable f).ip).size = 8192 ∧
    (t.m.fs.inode (t.m.fs.ftable g).ip).SameBytes (u.m.fs.inode (t.m.fs.ftable g).ip) := by
  have hex : (replayIf Action.keepsPrivate (smallBoot smallFiles 32) swapBoth).any (fun t =>
      (replayIf Action.keepsPrivate t [.evict 0]).any (fun u => (t.proc 0).swapFile = some 1 ∧ (t.proc 1).swapFile = some 2 ∧
        (u.proc 1).swapFile = some 2 ∧ (t.m.fs.inode (t.m.fs.ftable 1).ip).size = 4096 ∧
        (u.m.fs.inode (t.m.fs.ftable 1).ip).size = 8192)) = true := by
    decide +kernel
  obtain ⟨t, ht, hu⟩ := (Option.any_eq_true _ _).mp hex
  obtain ⟨u, hu, hx⟩ := (Option.any_eq_true _ _).mp hu
  obtain ⟨hf, hg, hg', hsize, hsize'⟩ := of_decide_eq_true hx
  have hrun : Run PrivateStep (smallBoot smallFiles 32) (swapBoth.map .call) t :=
    (replayIf_run (G := fun s a => a.keepsPrivate s = true) (fun _ _ => id) ht).map IoAction.call (fun _ _ _ h => h.2.keepsPrivate h.1)
  have hlast := (replayIf_run (G := fun s a => a.keepsPrivate s = true) (fun _ _ => id) hu).of_single
  have hstep : PrivateStep t (.call (.evict 0)) u := hlast.2.keepsPrivate hlast.1
  obtain ⟨hpriv, hbytes⟩ := swap_private smallBoot_cold hrun
  refine ⟨t, u, 1, 2, hrun, hf, hg, hpriv, hstep, hsize, hsize', ?_⟩
  rcases hbytes _ _ hstep 1 (by decide) 2 hg hg' with hsame | ⟨b, hb, hactor, -⟩
  · exact hsame
  · obtain rfl := IoAction.call.inj hb
    cases hactor

/-- A process opens the file its swap file will be. -/
def openOwnSwap : List Action :=
  [.open 0 "/pgswp00001".toList 0x202, .sbrk 0 4096 false, .fault 0 16384 .read, .fault 0 16384 .write, .evict 0, .evict 0]

/-- Swap files are not private in every run. -/
theorem swap_not_private : ¬∀ s t as, ColdBoot s → Run IoStep s as t → SwapPrivate t := by
  intro hall
  have hex : (replay (smallBoot smallFiles 32) openOwnSwap).any (fun t => (t.proc 0).swapFile = some 1 ∧
      (t.m.fs.ftable 0).opens = some (t.m.fs.ftable 1).ip) = true := by decide +kernel
  obtain ⟨t, ht, h⟩ := (Option.any_eq_true _ _).mp hex
  obtain ⟨hswap, hshared⟩ := of_decide_eq_true h
  have hpriv := hall _ _ _ smallBoot_cold ((replay_run ht).map IoAction.call (fun _ _ _ h => .call h))
  exact (hpriv.unshared 0 (by decide) 1 hswap).2 0 (by decide) hshared

end Xv6SnifferBakery.Kernel
