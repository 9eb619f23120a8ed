import Xv6SnifferBakery.Lemmas.Panics
import Xv6SnifferBakery.Lemmas.Replay

/-!
# The size of a process

A size at or below the trapframe page is what `uvmcopy` and `uvmfree` need: they go through all of `[0, sz)`. Only a lazy growth can
break the bound: `sys_sbrk` tests it for wraparound, and nothing else.
-/

namespace Xv6SnifferBakery.Kernel

open Lib

variable {s t : Sys}

/-! ## `sys_sbrk` -/

/-- A lazy growth that takes the size above the trapframe page. -/
def growsPastTrapframe (p : Proc) (n : Int) (eager : Bool) : Prop :=
  eager = false ∧ 0 ≤ n ∧ p.sz ≤ addInt p.sz n ∧ trapframeVa < addInt p.sz n

instance (p : Proc) (n : Int) (eager : Bool) : Decidable (growsPastTrapframe p n eager) := inferInstanceAs (Decidable (_ ∧ _))

/-- An eager growth maps every page up to the new size, so that it ends below the trapframe page. -/
theorem uvmalloc_size {m m' : Machine} {pt pt' : PageTable} {stackTop old new sz : Nat} (ht : pt.Topped) (hold : old ≤ trapframeVa)
    (h : uvmalloc m pt stackTop old new = .ok (m', pt', some sz)) : sz ≤ trapframeVa := by
  rcases uvmalloc_spec h ht with ⟨-, hr, -⟩ | ⟨hle, hi, hg, -, hr | ⟨hr, hend⟩⟩
  · rw [Option.some.inj hr]
    exact hold
  · cases hr
  · obtain rfl := Option.some.inj hr
    by_contra hgt
    rw [trapframeVa_eq] at hold hgt
    have hu := userPages_eq
    have hround : pgRoundUp old ≤ userPages * 4096 := by
      unfold pgRoundUp add64
      omega
    have hmod := pgRoundUp_mod old
    have := (hg.inside userPages (by omega) (by rw [hend, growEnd]; omega)).1
    omega

theorem sysSbrk_size {m m' : Machine} {p p' : Proc} {n : Int} {eager r : Bool} (ht : p.pagetable.Topped) (hsz : p.sz ≤ trapframeVa)
    (hfit : ¬growsPastTrapframe p n eager) (h : sysSbrk m p n eager = .ok (m', p', r)) : p'.sz ≤ trapframeVa := by
  unfold sysSbrk growproc at h
  split at h
  · split at h
    · obtain ⟨⟨m₁, pt, o⟩, ha, h⟩ := bind_ok h
      cases o with
      | none =>
        simp only [Except.ok.injEq, Prod.mk.injEq] at h
        obtain ⟨rfl, rfl, rfl⟩ := h
        exact hsz
      | some sz =>
        simp only [Except.ok.injEq, Prod.mk.injEq] at h
        obtain ⟨rfl, rfl, rfl⟩ := h
        exact uvmalloc_size ht hsz ha
    · split at h
      · obtain ⟨⟨m₁, pt, sz⟩, hd, h⟩ := bind_ok h
        simp only [Except.ok.injEq, Prod.mk.injEq] at h
        obtain ⟨rfl, rfl, rfl⟩ := h
        unfold uvmdealloc at hd
        split at hd
        · simp only [Except.ok.injEq, Prod.mk.injEq] at hd
          obtain ⟨-, -, rfl⟩ := hd
          exact hsz
        · rename_i hlt
          obtain ⟨⟨m₂, pt₂⟩, -, hd⟩ := bind_ok hd
          simp only [Except.ok.injEq, Prod.mk.injEq] at hd
          obtain ⟨-, -, rfl⟩ := hd
          exact (Nat.le_of_lt (Nat.not_le.mp hlt)).trans hsz
      · simp only [Except.ok.injEq, Prod.mk.injEq] at h
        obtain ⟨rfl, rfl, rfl⟩ := h
        exact hsz
  · rename_i hlazy
    split at h
    · simp only [Except.ok.injEq, Prod.mk.injEq] at h
      obtain ⟨rfl, rfl, rfl⟩ := h
      exact hsz
    · rename_i hle
      simp only [Except.ok.injEq, Prod.mk.injEq] at h
      obtain ⟨rfl, rfl, rfl⟩ := h
      rw [not_or] at hlazy
      by_contra hgt
      exact hfit ⟨Bool.eq_false_iff.mpr hlazy.1, Int.not_lt.mp hlazy.2, Nat.not_lt.mp hle, Nat.not_le.mp hgt⟩

/-- A shrink from a size that is not above the trapframe page leaves that page. -/
theorem not_shrinksPast {p : Proc} {n : Int} (hsz : p.sz ≤ trapframeVa) : ¬shrinksPastTrapframe p n := by
  rintro ⟨-, -, hgt, -⟩
  have hu := userPages_eq
  rw [trapframeVa_eq] at hsz hgt
  unfold pgRoundUp add64 at hgt
  omega

/-! ## Every event -/

/-- Every process has a size that is not above the trapframe page. -/
def SizeOk (s : Sys) : Prop := ∀ i < nProc, (s.proc i).state ≠ .unused → (s.proc i).sz ≤ trapframeVa

/-- An event without such a growth. -/
def Event.fits (s : Sys) : Event → Prop
  | .sbrk i n eager => ¬growsPastTrapframe (s.proc i) (wrap32 n) eager
  | _ => True

theorem SizeOk.put {i : Nat} {m : Machine} {p : Proc} (h : SizeOk s) (hp : p.state ≠ .unused → p.sz ≤ trapframeVa) :
    SizeOk (s.put i m p) := by
  intro j hj hne
  by_cases hji : j = i
  · subst hji
    rw [Sys.put_proc_self] at hne ⊢
    exact hp hne
  · rw [Sys.put_proc_of_ne _ _ _ hji] at hne ⊢
    exact h j hj hne

/-- A change of slots that leaves their sizes, and makes no process in an unused one. -/
theorem SizeOk.procs {m : Machine} {f : Nat → Proc} (h : SizeOk s)
    (hf : ∀ j, (f j).sz = (s.proc j).sz ∧ ((f j).state ≠ .unused → (s.proc j).state ≠ .unused)) :
    SizeOk { s with m := m, proc := f } := by
  intro j hj hne
  rw [(hf j).1]
  exact h j hj ((hf j).2 hne)

theorem SizeOk.modProc {i : Nat} {f : Proc → Proc} (h : SizeOk s) (hsz : (f (s.proc i)).sz = (s.proc i).sz)
    (hne : (f (s.proc i)).state ≠ .unused → (s.proc i).state ≠ .unused) : SizeOk (s.modProc i f) := by
  refine h.procs (m := s.m) ?_
  intro j
  by_cases hji : j = i
  · rw [hji, Function.update_self]
    exact ⟨hsz, hne⟩
  · rw [Function.update_of_ne hji]
    exact ⟨rfl, id⟩

theorem SizeOk.live {i : Nat} (h : SizeOk s) (hi : i < nProc) (hl : (s.proc i).live) : (s.proc i).sz ≤ trapframeVa :=
  h i hi hl.ne_unused

/-- An event without such a growth keeps the sizes. -/
theorem SysStep.size {ev : Event} (hs : SysInv s) (hz : SizeOk s) (h : SysStep s ev t) (hfit : ev.fits s) : SizeOk t := by
  cases h with
  | page hi hl h =>
    refine hz.put (fun _ => ?_)
    rw [h.image.sz]
    exact hz.live hi hl
  | lock => exact hz
  | unlock => exact hz
  | setSp => exact hz.modProc rfl id
  | sbrk hi hl h => exact hz.put (fun _ => sysSbrk_size (hs.wf hi hl).topped (hz.live hi hl) hfit h)
  | fork hi hl h =>
    rcases kfork_spec hs.slots (hs.wf hi hl) h with ⟨-, rfl | ⟨j, m, p, -, -, hp, -, rfl⟩⟩ | ⟨j, m₁, tf, pt, m₂, pt', fs, -, hd⟩
    · exact hz
    · exact hz.put (i := j) (m := m) (fun hne => absurd hp.state hne)
    · rw [hd.result]
      exact hz.put (i := j) (m := m₂.withFs fs) (fun _ => hz.live hi hl)
  | exec hi hl hargs h =>
    refine hz.put (fun _ => ?_)
    have hwf := hs.wf hi hl
    obtain ⟨-, ⟨-, hf⟩ | ⟨argc, fs₀, fs, ip, mem, pt, sp, -, hd⟩⟩ := kexec_spec hwf.toHasTable (Or.inr hwf.stack) hargs h
    · have hsz := hz.live hi hl
      cases hf <;> exact hsz
    · rw [hd.proc, commit_eq]
      exact hd.table.top.2.1
  | exit hi hl h =>
    rename_i i status
    unfold kexit at h
    split at h
    · nomatch h
    obtain ⟨fs, -, h⟩ := bind_ok h
    obtain rfl := Except.ok.inj h
    have hparent : SizeOk { s with m := (s.m.reach [.beginOp]).withFs fs, proc := reparent i s.proc } := by
      refine hz.procs ?_
      intro j
      unfold reparent
      split <;> exact ⟨rfl, id⟩
    refine hparent.modProc rfl (fun _ => ?_)
    change (reparent i s.proc i).state ≠ .unused
    unfold reparent
    split <;> exact hl.ne_unused
  | reap hi hl hj hzomb h =>
    have hwf := (hs.slots _ hj).wf (by rw [hzomb]; simp)
    obtain ⟨-, rfl⟩ := freeproc_spec h (Or.inl hwf.root) (Or.inr (hs.wf hi hl).stack)
    exact hz.put (fun hne => absurd freed_empty.state hne)
  | kill pid =>
    unfold kkill
    split
    · exact hz
    · refine hz.modProc rfl (fun hne hu => hne ?_)
      simp [hu]
  | files hi hl => exact hz.put (fun _ => hz.live hi hl)
  | kalloc h => exact hz
  | kfree hheld h => exact hz

/-! ## Runs -/

/-- An action without such a growth. -/
def Action.fits (s : Sys) : Action → Prop
  | .sbrk i n eager => ¬growsPastTrapframe (s.proc i) (wrap32 n) eager
  | _ => True

/-- A step without such a growth. -/
abbrev FitStep : Sys → Action → Sys → Prop := Guarded (fun s a => a.fits s) Step

/-- What holds in every state of a run without such a growth. -/
structure FitInv (s : Sys) : Prop where
  sys : SysInv s
  size : SizeOk s

theorem SysStep.fit {ev : Event} (hs : FitInv s) (h : SysStep s ev t) (hfit : ev.fits s) : FitInv t := by
  refine ⟨h.inv hs.sys ?_, h.size hs.sys hs.size hfit⟩
  cases h with
  | sbrk hi hl => exact not_shrinksPast (hs.size.live hi hl)
  | _ => trivial

theorem FitStep.inv {a : Action} (hs : FitInv s) (h : FitStep s a t) : FitInv t := by
  obtain ⟨hfit, h⟩ := h
  have hquiet : ∀ (u : Sys) (ev : Event) (v : Sys), ev.quiet → ev.fits u := by
    intro u ev v hq
    cases ev with
    | sbrk => exact absurd hq id
    | _ => trivial
  obtain ⟨evs, hr⟩ := h.events (K := fun s ev _ => ev.fits s) (fun i n eager ha => by rw [ha] at hfit; exact hfit)
    (fun _ _ _ _ _ => trivial) hquiet
  exact hr.invariant FitInv (fun _ _ _ hu hev => hev.2.fit hu hev.1) hs

theorem Boot.fit {s : Sys} (h : Boot s) : FitInv s := by
  refine ⟨h.inv, ?_⟩
  obtain ⟨s₀, j, m₁, tf, pt, fs, ip, m, p, argc, hb⟩ := h.booted
  obtain ⟨-, fs₀, fs', ip', mem, pt', sp, hd⟩ := hb.done
  have hpre : SizeOk s₀ := by
    intro i _ hne
    rw [hb.pre.proc] at hne
    exact absurd rfl hne
  rw [hb.result]
  refine hpre.put (m := m) (fun _ => ?_)
  rw [hd.proc, commit_eq]
  exact hd.table.top.2.1

/-! ## What the bound is for -/

/-- The loops over all of `[0, sz)` of a process never leave the address space, and neither touch its two top pages. -/
structure Walkable (s : Sys) (i : Nat) : Prop where
  size : (s.proc i).sz ≤ trapframeVa
  copy : ∀ tr tf new, FreshTable tr tf new → TableSafe (uvmcopy s.m (s.proc i).pagetable new (s.proc i).sz)
  copyTop : ∀ tr tf new m new' r, FreshTable tr tf new →
    uvmcopy s.m (s.proc i).pagetable new (s.proc i).sz = .ok (m, new', r) → ∀ v, userPages ≤ v → new'.leaf v = new.leaf v
  free : ∀ pt, TableSafe (uvmfree s.m pt (s.proc i).sz)
  freeTop : ∀ pt m pt', uvmunmap s.m pt 0 (pgRoundUp (s.proc i).sz / pgSize) true = .ok (m, pt') →
    ∀ v, userPages ≤ v → pt'.leaf v = pt.leaf v

/-- `uvmcopy` leaves the two top pages of the new table, also when it fails. -/
theorem uvmcopy_top {m m₂ : Machine} {old new new₂ : PageTable} {sz : Nat} {r : Bool} (hold : old.Topped) (hnew : new.Topped)
    (h : uvmcopy m old new sz = .ok (m₂, new₂, r)) : ∀ v, userPages ≤ v → new₂.leaf v = new.leaf v := by
  intro v hv
  rcases uvmcopy_spec h hold hnew with ⟨-, hc⟩ | ⟨-, -, -, htop⟩
  · exact hc.outside v ((hc.le_userPages hold hnew).trans hv)
  · exact htop v hv

theorem FitInv.walkable {i : Nat} (h : FitInv s) (hi : i < nProc) (hne : (s.proc i).state ≠ .unused) : Walkable s i := by
  have hsz := h.size i hi hne
  have htop := ((h.sys.slots i hi).wf hne).topped
  have hround : pgRoundUp (s.proc i).sz ≤ userPages * 4096 := by
    have hu := userPages_eq
    rw [trapframeVa_eq] at hsz
    unfold pgRoundUp add64
    omega
  refine ⟨hsz, ?_, ?_, ?_, ?_⟩
  · intro tr tf new hnew
    exact uvmcopy_safe htop hnew hsz
  · intro tr tf new m new' r hnew hc
    exact uvmcopy_top htop hnew.topped hc
  · intro pt
    refine uvmfree_safe (hround.trans ?_)
    rw [← trapframeVa_eq]
    decide
  · intro pt m pt' hu v hv
    have hs := uvmunmap_spec hu (fun w hw _ hlt => by rw [pgSize] at hlt; omega)
    exact hs.kept v (by rw [pgSize]; omega)

/-- In every run from boot in which no lazy growth takes a size above the trapframe page, no size ever lies there, and the loops
over all of a process's memory stay below that page. -/
theorem size_bounded {as : List Action} (hb : Boot s) (h : Run FitStep s as t) :
    ∀ i < nProc, (t.proc i).state ≠ .unused → Walkable t i := by
  have hinv : FitInv t := h.invariant FitInv (fun _ _ _ hs hg => FitStep.inv hs hg) hb.fit
  intro i hi hne
  exact hinv.walkable hi hne

/-- A process grows lazily, forks, and the child grows eagerly. -/
def growAndFork : List Action := [.sbrk 0 8192 false, .fork 0, .sbrk 1 4096 true]

instance (s : Sys) : (a : Action) → Decidable (a.fits s)
  | .sbrk _ _ _ => inferInstanceAs (Decidable (¬_))
  | .store _ _ _ | .setSp _ _ | .fault _ _ _ | .evict _ | .copyout _ _ _ | .copyin _ _ _ | .fork _ | .exec _ _ _ | .exit _ _
  | .wait _ _ | .kill _ _ | .open _ _ _ | .close _ _ | .dup _ _ | .mkdir _ _ | .mknod _ _ _ _ | .chdir _ _ | .link _ _ _
  | .unlink _ _ | .kalloc | .kfree _ => isTrue trivial

theorem size_bounded_growAndFork : ∃ t, Run FitStep (smallBoot smallFiles 32) growAndFork t ∧
    ∀ i < nProc, (t.proc i).state ≠ .unused → Walkable t i := by
  have hex : (replayIf (fun s a => a.fits s) (smallBoot smallFiles 32) growAndFork).isSome = true := by decide +kernel
  obtain ⟨t, ht⟩ := Option.isSome_iff_exists.mp hex
  have hrun : Run FitStep (smallBoot smallFiles 32) growAndFork t := replayIf_run (fun _ _ h => of_decide_eq_true h) ht
  exact ⟨t, hrun, size_bounded smallBoot_init hrun⟩

/-- Lazy growth to one page above the trapframe page. -/
def growPast : List Action := List.replicate 127 (.sbrk 0 2147483647 false) ++ [.sbrk 0 2147463295 false]

/-- The size of a process does not stay below the trapframe page in every run. -/
theorem size_not_bounded : ¬∀ s t as, Boot s → Run Step s as t → ∀ i < nProc, (t.proc i).sz ≤ trapframeVa := by
  intro hall
  have hex : (replay (smallBoot smallFiles 32) growPast).any (fun t => trapframeVa < (t.proc 0).sz) = true := by decide +kernel
  obtain ⟨t, ht, h⟩ := (Option.any_eq_true _ _).mp hex
  have hle := hall _ _ _ smallBoot_init (replay_run ht) 0 (by decide)
  exact absurd hle (Nat.not_le.mpr (of_decide_eq_true h))

end Xv6SnifferBakery.Kernel
