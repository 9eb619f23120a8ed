import Xv6SnifferBakery.Lemmas.Residence

/-!
# Invariants of live processes

What one event can do to the process in a slot, and what the other processes can do to it; and the rule for a property of a process: what page events, `sbrk`, `exec` and `fork`
keep, and what does not look at the fields the other calls change, holds of every live process in every run.
-/

namespace Xv6SnifferBakery.Kernel

open Lib

variable {G : Proc → Prop} {P : Proc → Prop} {s t : Sys} {ev : Event} {p p' : Proc} {i : Nat}

/-! ## One slot -/

/-- What an event did to slot `i`, which has a live process after it. -/
inductive SlotStep (s : Sys) (ev : Event) (t : Sys) (i : Nat) : Prop where
  | same (live : (s.proc i).live) (tf : Trapframe) (ofile : Nat → Option Nat) (cwd parent : Option Nat) (killed : Bool) (state : ProcState)
      (dead : (s.proc i).killed = true → killed = true) (proc : t.proc i = { s.proc i with
        tf := tf, ofile := ofile, cwd := cwd, parent := parent, killed := killed, state := state })
  | page {pev : PageEvent} (event : ev = .page i pev) (live : (s.proc i).live) (h : PageStep (s.m, s.proc i) pev (t.m, t.proc i))
  | sbrk {n : Int} {eager r : Bool} (event : ev = .sbrk i n eager) (live : (s.proc i).live)
      (h : sysSbrk s.m (s.proc i) (wrap32 n) eager = .ok (t.m, t.proc i, r))
  | exec {path : List Char} {argv : List (List Byte)} {o : Option Nat} (event : ev = .exec i o.isSome) (live : (s.proc i).live)
      (args : ArgsOk argv) (h : kexec s.m (s.proc i) path argv = .ok (t.m, t.proc i, o))
  | fork {k : Nat} (event : ev = .fork k) (live : (s.proc k).live) (unused : (s.proc i).state = .unused)
      (h : ForkChild (s.proc k) (s.proc i) k (t.proc i))

/-- Nothing happened. -/
theorem SlotStep.refl (hl : (t.proc i).live) (h : t.proc i = s.proc i) : SlotStep s ev t i :=
  .same (h ▸ hl) _ _ _ _ _ _ id h

/-- One slot is replaced. -/
theorem SlotStep.put {k : Nat} {m : Machine} {p : Proc} (hl : ((s.put k m p).proc i).live)
    (hk : k = i → p.live → SlotStep s ev (s.put i m p) i) : SlotStep s ev (s.put k m p) i := by
  by_cases hki : k = i
  · subst hki
    rw [Sys.put_proc_self] at hl
    exact hk rfl hl
  · exact .refl hl (Sys.put_proc_of_ne _ _ _ (Ne.symm hki))

theorem SysStep.slot (h : SysStep s ev t) (hl : (t.proc i).live) : SlotStep s ev t i := by
  cases h with
  | lock | unlock | kalloc | kfree => exact .refl hl rfl
  | page lt live hp =>
    refine .put hl (fun hk _ => ?_)
    subst hk
    exact .page rfl live (by rwa [Sys.put_m, Sys.put_proc_self])
  | setSp sp =>
    refine SlotStep.put (m := s.m) hl (fun hk hp => ?_)
    subst hk
    exact .same hp _ _ _ _ _ _ id (Sys.put_proc_self _ _ _ _)
  | sbrk lt live hc =>
    refine .put hl (fun hk _ => ?_)
    subst hk
    exact .sbrk rfl live (by rwa [Sys.put_m, Sys.put_proc_self])
  | exec lt live args hc =>
    refine .put hl (fun hk _ => ?_)
    subst hk
    exact .exec rfl live args (by rwa [Sys.put_m, Sys.put_proc_self])
  | files lt live =>
    refine .put hl (fun hk _ => ?_)
    subst hk
    exact .same live _ _ _ _ _ _ id (Sys.put_proc_self _ _ _ _)
  | reap lt live ltj zombie hf =>
    obtain ⟨-, rfl⟩ := freeproc_env hf
    exact .put hl (fun _ hp => absurd rfl hp.ne_unused)
  | kill pid =>
    unfold kkill at hl ⊢
    split at hl
    · exact .refl hl rfl
    · rename_i j _
      refine SlotStep.put (m := s.m) hl (fun hj hp => ?_)
      subst hj
      refine .same ?_ _ _ _ _ _ _ (fun _ => rfl) (Sys.put_proc_self _ _ _ _)
      by_cases hsl : (s.proc j).state = .sleeping
      · exact Or.inl hsl
      · simpa [Proc.live, hsl] using hp
  | fork lt live hc =>
    rcases (kfork_slot hc).2 with heq | ⟨j, p, hu, heq, hp⟩
    · exact .refl hl (congrFun heq i)
    · by_cases hij : i = j
      · subst hij
        have hproc : t.proc i = p := by rw [heq, Function.update_self]
        rw [hproc] at hl
        rcases hp with ⟨q, rfl⟩ | hp
        · exact absurd rfl hl.ne_unused
        · exact .fork rfl live hu (hproc ▸ hp)
      · exact .refl hl (by rw [heq, Function.update_of_ne hij])
  | exit lt live hc =>
    rename_i k status
    unfold kexit at hc
    split at hc
    · cases hc
    obtain ⟨fs, -, hc⟩ := bind_ok hc
    obtain rfl := Except.ok.inj hc
    by_cases hik : i = k
    · have hdead : (Function.update (reparent k s.proc) k ((reparent k s.proc k).exited status) i).live := hl
      rw [hik, Function.update_self] at hdead
      rcases hdead with hd | hd | hd <;> cases hd
    · have hproc : (Function.update (reparent k s.proc) k ((reparent k s.proc k).exited status) i) = reparent k s.proc i :=
        Function.update_of_ne hik _ _
      by_cases hc : i < nProc ∧ (s.proc i).parent = some k
      · have hparent : reparent k s.proc i = { s.proc i with parent := some 0 } := if_pos hc
        have hlive : (reparent k s.proc i).live := hproc ▸ hl
        rw [hparent] at hlive
        exact .same hlive _ _ _ _ _ _ id (hproc.trans hparent)
      · exact .refl hl (hproc.trans (if_neg hc))

/-! ## The other processes -/

/-- The events that process `i` makes. -/
def Event.of (i : Nat) : Event → Prop
  | .page k _ | .setSp k _ | .sbrk k _ _ | .fork k | .exec k _ | .exit k | .reap k _ | .files k => k = i
  | .lock | .unlock | .kill _ | .kalloc | .kfree _ => False

/-- What the others can do to a live process: give it a parent, kill it, wake it. -/
def Touched (p p' : Proc) : Prop :=
  p'.live ∧ ∃ parent killed state, p' = { p with parent := parent, killed := killed, state := state }

theorem Touched.refl (h : p.live) : Touched p p := ⟨h, _, _, _, rfl⟩

theorem Touched.of_eq (h : p.live) (heq : p' = p) : Touched p p' := by
  rw [heq]
  exact .refl h

theorem Touched.trans {q : Proc} (h : Touched p p') (h' : Touched p' q) : Touched p q := by
  obtain ⟨-, parent, killed, state, rfl⟩ := h
  obtain ⟨hlive, parent', killed', state', rfl⟩ := h'
  exact ⟨hlive, parent', killed', state', rfl⟩

/-- An event of another process. -/
theorem SysStep.touched (h : SysStep s ev t) (hev : ¬ev.of i) (hl : (s.proc i).live) : Touched (s.proc i) (t.proc i) := by
  have hput : ∀ {k : Nat} {m : Machine} {p : Proc}, k ≠ i → Touched (s.proc i) ((s.put k m p).proc i) := by
    intro k m p hk
    exact .of_eq hl (Sys.put_proc_of_ne _ _ _ (Ne.symm hk))
  cases h with
  | lock | unlock | kalloc | kfree => exact .refl hl
  | page | sbrk | exec | files => exact hput hev
  | setSp => exact hput (m := s.m) hev
  | fork lt live hc =>
    rcases (kfork_slot hc).2 with heq | ⟨j, q, hu, heq, -⟩
    · exact .of_eq hl (congrFun heq i)
    · have hij : i ≠ j := by
        rintro rfl
        exact absurd hu hl.ne_unused
      exact .of_eq hl (by rw [heq, Function.update_of_ne hij])
  | exit lt live hc =>
    rename_i k status
    unfold kexit at hc
    split at hc
    · cases hc
    obtain ⟨fs, -, hc⟩ := bind_ok hc
    obtain rfl := Except.ok.inj hc
    have hproc : Function.update (reparent k s.proc) k ((reparent k s.proc k).exited status) i = reparent k s.proc i :=
      Function.update_of_ne (Ne.symm hev) _ _
    by_cases hchild : i < nProc ∧ (s.proc i).parent = some k
    · have hparent : reparent k s.proc i = { s.proc i with parent := some 0 } := if_pos hchild
      have htouched : Touched (s.proc i) { s.proc i with parent := some 0 } := ⟨hl, _, _, _, rfl⟩
      rw [← hparent, ← hproc] at htouched
      exact htouched
    · exact .of_eq hl (hproc.trans (if_neg hchild))
  | reap lt live ltj zombie hf =>
    rename_i k j m np
    have hij : j ≠ i := by
      rintro rfl
      rw [Proc.live, zombie] at hl
      rcases hl with h | h | h <;> cases h
    exact hput hij
  | kill pid =>
    unfold kkill
    split
    · exact .refl hl
    · rename_i j _
      by_cases hj : j = i
      · subst hj
        have hlive : ({ s.proc j with
            killed := true, state := if (s.proc j).state = .sleeping then .runnable else (s.proc j).state } : Proc).live := by
          by_cases hsl : (s.proc j).state = .sleeping
          · simp [Proc.live, hsl]
          · simpa [Proc.live, hsl] using hl
        have htouched : Touched (s.proc j) { s.proc j with
            killed := true, state := if (s.proc j).state = .sleeping then .runnable else (s.proc j).state } := ⟨hlive, _, _, _, rfl⟩
        rwa [← Sys.put_proc_self s j s.m { s.proc j with
          killed := true, state := if (s.proc j).state = .sleeping then .runnable else (s.proc j).state }] at htouched
      · exact hput (m := s.m) hj

/-- A process stays as long as it does not exit. -/
theorem SysStep.stays (h : SysStep s ev t) (hev : ev ≠ .exit i) (hl : (s.proc i).live) : (t.proc i).live := by
  by_cases hof : ev.of i
  swap
  · exact (h.touched hof hl).1
  cases h with
  | lock | unlock | kalloc | kfree | kill => exact hof.elim
  | page lt live hp =>
    obtain rfl := hof
    rw [Sys.put_proc_self, Proc.live, hp.image.state]
    exact hl
  | setSp sp =>
    rename_i k
    obtain rfl := hof
    change ((s.put k s.m { s.proc k with tf := { (s.proc k).tf with sp := sp } }).proc k).live
    rw [Sys.put_proc_self]
    exact hl
  | sbrk lt live hc =>
    obtain rfl := hof
    rw [Sys.put_proc_self, (sysSbrk_env hc).2]
    exact hl
  | exec lt live args hc =>
    obtain rfl := hof
    rw [Sys.put_proc_self]
    rcases kexec_cases args hc with ⟨-, hfail, -⟩ | ⟨argc, fs₀, fs, ip, mem, pt, sp, -, rfl, -⟩
    · exact live_congr hfail.slot.2.2.2.2 hl
    · exact live_congr (by rw [commit_eq]) hl
  | files =>
    obtain rfl := hof
    rw [Sys.put_proc_self]
    exact hl
  | fork lt live hc =>
    rcases (kfork_slot hc).2 with heq | ⟨j, q, hu, heq, -⟩
    · rw [heq]
      exact hl
    · have hij : i ≠ j := by
        rintro rfl
        exact absurd hu hl.ne_unused
      rw [heq, Function.update_of_ne hij]
      exact hl
  | exit lt live hc =>
    obtain rfl := hof
    exact absurd rfl hev
  | reap lt live ltj zombie =>
    rename_i k j m np _
    have hij : i ≠ j := by
      rintro rfl
      rw [Proc.live, zombie] at hl
      rcases hl with h | h | h <;> cases h
    rw [Sys.put_proc_of_ne _ _ _ hij]
    exact hl

/-! ## Every process -/

/-- What every event does to a live process keeps `P`. `G` is what may be asked of the process after an `sbrk` or an `exec`. -/
structure Kept (G : Proc → Prop) (P : Proc → Prop) : Prop where
  page : ∀ {m m' : Machine} {p p' : Proc} {ev : PageEvent}, PageStep (m, p) ev (m', p') → P p → P p'
  sbrk : ∀ {m m' : Machine} {p p' : Proc} {n : Int} {eager r : Bool}, G p' → sysSbrk m p n eager = .ok (m', p', r) → P p → P p'
  exec : ∀ {m m' : Machine} {p p' : Proc} {path : List Char} {argv : List (List Byte)} {o : Option Nat}, G p' → ArgsOk argv →
    kexec m p path argv = .ok (m', p', o) → P p → P p'
  fork : ∀ {p q np : Proc} {i : Nat}, ForkChild p q i np → P p → P np
  other : ∀ (p : Proc) (tf : Trapframe) (ofile : Nat → Option Nat) (cwd parent : Option Nat) (killed : Bool) (state : ProcState), P p →
    P { p with tf := tf, ofile := ofile, cwd := cwd, parent := parent, killed := killed, state := state }

/-- An event after which every process that it resized, or gave a new image, meets the guard. -/
def Event.leaves (G : Proc → Prop) (ev : Event) (t : Sys) : Prop :=
  match ev with
  | .sbrk i _ _ | .exec i _ => G (t.proc i)
  | _ => True

/-- Every live process has the property. -/
def EveryLive (P : Proc → Prop) (s : Sys) : Prop := ∀ k, (s.proc k).live → P (s.proc k)

/-- Every event keeps the property of the live processes. -/
theorem Kept.step (hkept : Kept G P) (hs : SysStep s ev t) (hG : ev.leaves G t) (h : EveryLive P s) : EveryLive P t := by
  intro k hk
  cases hs.slot hk with
  | same live tf ofile cwd parent killed state _ hp =>
    rw [hp]
    exact hkept.other _ _ _ _ _ _ _ (h k live)
  | page _ live hp => exact hkept.page hp (h k live)
  | sbrk he live hc =>
    subst he
    exact hkept.sbrk hG hc (h k live)
  | exec he live args hc =>
    subst he
    exact hkept.exec hG args hc (h k live)
  | fork _ live _ hc => exact hkept.fork hc (h _ live)

/-- A run of events. -/
theorem Kept.run (hkept : Kept G P) {evs : List Event} (hr : Run (fun s ev t => ev.leaves G t ∧ SysStep s ev t) s evs t)
    (h : EveryLive P s) : EveryLive P t :=
  hr.invariant (EveryLive P) (fun _ _ _ h hg => hkept.step hg.2 hg.1 h) h

/-- An action after which a process that it resized, or gave a new image, meets the guard. -/
def Action.leaves (G : Proc → Prop) (a : Action) (t : Sys) : Prop :=
  match a with
  | .sbrk i _ _ | .exec i _ _ => G (t.proc i)
  | _ => True

/-- A step that meets the guard is a run of events that do. -/
theorem leaves_run {a : Action} (hG : a.leaves G t) (h : Step s a t) :
    ∃ evs, Run (fun s ev t => ev.leaves G t ∧ SysStep s ev t) s evs t := by
  refine h.events (K := fun _ ev t => ev.leaves G t) ?_ ?_ ?_
  · rintro i n eager rfl
    exact hG
  · rintro i path argv done rfl
    exact hG
  · intro u ev v hq
    cases ev with
    | sbrk | exec => exact absurd hq id
    | _ => trivial

/-- A run of steps that all meet the guard. -/
theorem Kept.runSteps (hkept : Kept G P) {as : List Action} (hr : Run (fun s a t => a.leaves G t ∧ Step s a t) s as t)
    (h : EveryLive P s) : EveryLive P t := by
  refine hr.invariant (EveryLive P) ?_ h
  rintro u a v hu ⟨hG, hstep⟩
  obtain ⟨evs, hevs⟩ := leaves_run hG hstep
  exact hkept.run hevs hu

/-- The first process has the image of `/init`. -/
theorem Boot.everyLive (hb : Boot s) (hcommit : ∀ (p : Proc) (path : List Char) (st : Scan) (entry : Nat) (pt : PageTable) (sp : Nat),
    P (p.commit path st entry pt sp)) : EveryLive P s := by
  intro k hk
  obtain ⟨q, path, st, entry, pt, sp, hp, -⟩ := hb.image hk.ne_unused
  rw [hp]
  exact hcommit _ _ _ _ _ _

/-- At the start one process is live. -/
theorem Boot.live_unique {k : Nat} (hb : Boot s) (hi : (s.proc i).live) (hk : (s.proc k).live) : i = k := by
  obtain ⟨s₀, j, m₁, tf, pt, fs, ip, m, p, argc, hb⟩ := hb.booted
  have hslot : ∀ {l : Nat}, (s.proc l).live → l = j := by
    intro l hl
    by_contra hlj
    rw [hb.result] at hl
    change ((s₀.put j m p).proc l).live at hl
    rw [Sys.put_proc_of_ne _ _ _ hlj, hb.pre.proc l] at hl
    exact absurd rfl hl.ne_unused
  rw [hslot hi, hslot hk]

/-- A property that nothing can break holds of every live process in every reachable state. -/
theorem Kept.reach (hkept : Kept (fun _ => True) P) (hboot : ∀ s, Boot s → EveryLive P s) (h : Reach Boot Step t) : EveryLive P t := by
  obtain ⟨s, as, hb, hr⟩ := h
  refine hkept.runSteps (hr.mono (fun u a v hstep => ⟨?_, hstep⟩)) (hboot s hb)
  unfold Action.leaves
  split <;> trivial

/-! ## Addresses of entries -/

theorem commit_aligned {p : Proc} {path : List Char} {st : Scan} {entry sp : Nat} {pt : PageTable} :
    (p.commit path st entry pt sp).Aligned := by
  rw [commit_eq]
  intro va hva
  rw [List.mem_singleton.mp hva]
  exact pgRoundDown_mod _

theorem aligned_kept : Kept (fun _ => True) Proc.Aligned where
  page := by
    intro m m' p p' ev hs h
    cases hs with
    | kill | store | copy => exact h
    | track _ aligned =>
      intro va hva
      change va ∈ (p.pages ++ [_]).map PageInfo.va at hva
      rw [List.map_append, List.mem_append] at hva
      rcases hva with hva | hva
      · exact h va hva
      · rw [List.map_singleton, List.mem_singleton] at hva
        rwa [hva]
    | evictClean hx =>
      rw [hx.proc]
      exact h.of_map (map_va_modify (by simp))
    | evictDirty hx =>
      rw [hx.proc]
      exact h.of_map (map_va_modify (by simp))
    | evictFail hx =>
      rw [hx.proc]
      exact h
    | load _ _ _ _ _ hx =>
      rw [hx.proc]
      exact h.of_map ((map_va_modify (by simp)).trans hx.fetched.same.2.2.2)
    | loadFail _ _ _ hx =>
      cases hx with
      | read => exact h
      | map _ hf => exact h.of_map hf.same.2.2.2
    | firstWrite => exact h.of_map (map_va_modify (by simp))
  sbrk := by
    intro m m' p p' n eager r _ hc h
    rw [(sysSbrk_env hc).2]
    exact h
  exec := by
    intro m m' p p' path argv o _ hargs hc h
    rcases kexec_cases hargs hc with ⟨-, hfail, -⟩ | ⟨argc, fs₀, fs, ip, mem, pt, sp, -, rfl, -⟩
    · exact h.of_map (congrArg (List.map PageInfo.va) hfail.slot.2.2.2.1)
    · exact commit_aligned
  fork := by
    intro p q np i hc h
    cases hc with
    | mk =>
      refine h.of_map ?_
      change (p.pages.map forkPage).map PageInfo.va = _
      rw [List.map_map]
      rfl
  other := fun _ _ _ _ _ _ _ h => h

/-- In every reachable state, the entries of a live process are for pages. -/
theorem reach_aligned (h : Reach Boot Step t) : EveryLive Proc.Aligned t :=
  aligned_kept.reach (fun _ hb => hb.everyLive (fun _ _ _ _ _ _ => commit_aligned)) h

end Xv6SnifferBakery.Kernel
