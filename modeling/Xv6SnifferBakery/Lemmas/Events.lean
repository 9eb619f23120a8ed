import Xv6SnifferBakery.Lemmas.Fault
import Xv6SnifferBakery.Lib.Transition

/-!
# Page events

What happens to the memory of one process, as a transition system: every page fault, eviction, user store and kernel copy is a
run of these events. An invariant of a process is one lemma with a case for each event.
-/

namespace Xv6SnifferBakery.Kernel

open Lib

/-- The events. -/
inductive PageEvent where
  | kill
  | track (va : Nat)
  | evictClean (i va : Nat)
  | evictDirty (i va : Nat)
  | evictFail
  | load (src : Source) (i va : Nat)
  | loadFail
  | firstWrite (i va : Nat)
  | store (a : Nat) (b : Byte)
  | copy (va : Nat)

/-- The process with a new entry for page `va`. -/
def Proc.track (p : Proc) (va : Nat) : Proc := { p with pages := p.pages ++ [⟨va, .unmapped, false, 0, -1⟩] }

/-- One event. -/
inductive PageStep : Machine × Proc → PageEvent → Machine × Proc → Prop where
  | kill {m : Machine} {p : Proc} : PageStep (m, p) .kill (m, p.kill)
  | track {m : Machine} {p : Proc} {va : Nat} (lt : va < maxVa) (aligned : va % 4096 = 0)
      (user : ∀ pte, p.pagetable.leaf (va / 4096) = some pte → pte.perm.u = true) (fresh : ∀ e ∈ p.pages, e.va ≠ va)
      (room : p.pages.length < maxPages) : PageStep (m, p) (.track va) (m, p.track va)
  | evictClean {m m' : Machine} {p p' : Proc} {i : Nat} {e : PageInfo} {pte : Pte} (h : EvictClean m p i e pte m' p') :
      PageStep (m, p) (.evictClean i e.va) (m', p')
  | evictDirty {m m₁ m₂ m' : Machine} {p p' : Proc} {i slot f : Nat} {e : PageInfo} {pte : Pte}
      (h : EvictDirty m p i e pte slot f m₁ m₂ m' p') : PageStep (m, p) (.evictDirty i e.va) (m', p')
  | evictFail {m m' : Machine} {p p' : Proc} (h : EvictFail m p m' p') : PageStep (m, p) .evictFail (m', p')
  | load {m m₁ m₂ m' : Machine} {p p₂ p' : Proc} {i va : Nat} {src : Source} {mem : Pa} {page : Page} {pt : PageTable} {e : PageInfo}
      (entry : p.pages[i]? = some e) (addr : e.va = va) (exec : src = .exec ↔ src ≠ .swap ∧ inExec p va)
      (swap : src = .swap → e.state = .swapped) (valid : faultValid p va) (h : Load m p i va src m₁ mem m₂ p₂ page pt m' p') :
      PageStep (m, p) (.load src i va) (m', p')
  | loadFail {m m' : Machine} {p p' : Proc} {i va : Nat} {src : Source} {e : PageInfo} (entry : p.pages[i]? = some e)
      (addr : e.va = va) (swap : src = .swap → e.state = .swapped) (h : LoadFail m p i va src m' p') :
      PageStep (m, p) .loadFail (m', p')
  | firstWrite {m : Machine} {p : Proc} {i va : Nat} {e : PageInfo} {pte : Pte} (h : FirstWrite p va i e pte) (addr : e.va = va) :
      PageStep (m, p) (.firstWrite i va) (m, firstWrite p i va)
  | store {m : Machine} {p : Proc} {a : Nat} {b : Byte} {pa : Pa} (h : translate p.pagetable a Perm.w = some pa) :
      PageStep (m, p) (.store a b) (m.poke pa (a % 4096) b, p)
  | copy {m : Machine} {p : Proc} {va : Nat} {pte : Pte} {page : Page} (lt : va < maxVa)
      (leaf : p.pagetable.leaf (va / 4096) = some pte) (user : pte.perm.u = true) (write : pte.perm.w = true) :
      PageStep (m, p) (.copy va) (m.fill pte.pa page, p)

section Runs

variable {m m' : Machine} {p p' : Proc} {i va : Nat}

/-- The events that a fault for an access can cause: only one for writing grants a write, and none writes. -/
def PageEvent.causedBy (access : Access) : PageEvent → Prop
  | .firstWrite _ _ => access = .write
  | .store _ _ | .copy _ => False
  | _ => True

/-- The events that write to the swap file, or may make it. -/
def PageEvent.swapsOut : PageEvent → Prop
  | .evictDirty _ _ | .evictFail => True
  | _ => False

/-- A run of events that all meet `G`. -/
def PageRun (G : PageEvent → Prop) (m : Machine) (p : Proc) (m' : Machine) (p' : Proc) : Prop :=
  ∃ evs, Run (Guarded (fun _ ev => G ev) PageStep) (m, p) evs (m', p')

variable {G G' : PageEvent → Prop}

theorem PageRun.refl (G : PageEvent → Prop) (m : Machine) (p : Proc) : PageRun G m p m p := ⟨[], Run.nil _⟩

theorem PageRun.snoc {m₁ : Machine} {p₁ : Proc} {ev : PageEvent} (h : PageRun G m p m₁ p₁)
    (hs : PageStep (m₁, p₁) ev (m', p')) (hG : G ev) : PageRun G m p m' p' := by
  obtain ⟨evs, hr⟩ := h
  exact ⟨_, hr.snoc ⟨hG, hs⟩⟩

theorem PageRun.trans {m₁ : Machine} {p₁ : Proc} (h : PageRun G m p m₁ p₁) (h' : PageRun G m₁ p₁ m' p') : PageRun G m p m' p' := by
  obtain ⟨evs, hr⟩ := h
  obtain ⟨evs', hr'⟩ := h'
  exact ⟨_, hr.append hr'⟩

theorem PageRun.mono (h : PageRun G m p m' p') (hG : ∀ ev, G ev → G' ev) : PageRun G' m p m' p' := by
  obtain ⟨evs, hr⟩ := h
  exact ⟨evs, hr.mono (fun _ ev _ hs => ⟨hG ev hs.1, hs.2⟩)⟩

section Faults

variable {access : Access}

/-- An eviction is one event. -/
theorem evictPageFifo_run (access : Access) {r : Bool} (h : evictPageFifo m p = .ok (m', p', r)) :
    PageRun (·.causedBy access) m p m' p' := by
  rcases evictPageFifo_cases h with ⟨-, i, e, pte, hx⟩ | ⟨-, i, e, pte, slot, f, m₁, m₂, hx⟩ | ⟨-, hx⟩
  · exact (PageRun.refl _ m p).snoc (.evictClean hx) trivial
  · exact (PageRun.refl _ m p).snoc (.evictDirty hx) trivial
  · exact (PageRun.refl _ m p).snoc (.evictFail hx) trivial

/-- Changing one entry in place leaves the address of every entry. -/
theorem modify_va {es : List PageInfo} {j : Nat} {f : PageInfo → PageInfo} (hf : ∀ e, (f e).va = e.va) {e : PageInfo}
    (he : es[i]? = some e) : ∃ e', (es.modify j f)[i]? = some e' ∧ e'.va = e.va := by
  rw [List.getElem?_modify, he]
  by_cases hji : j = i
  · exact ⟨f e, by simp [hji], hf e⟩
  · exact ⟨e, by simp [hji], rfl⟩

/-- An eviction leaves the address of every entry, and the entries of pages that are swapped out. -/
theorem Victim.kept {j : Nat} {e x : PageInfo} {pte : Pte} {f : PageInfo → PageInfo} (h : Victim p j x pte)
    (hf : ∀ e, (f e).va = e.va) (he : p.pages[i]? = some e) :
    ∃ e', (p.pages.modify j f)[i]? = some e' ∧ e'.va = e.va ∧ (e.state = .swapped → e'.state = .swapped) := by
  obtain ⟨e', he', hva⟩ := modify_va (j := j) hf he
  refine ⟨e', he', hva, ?_⟩
  intro hs
  have hji : j ≠ i := by
    rintro rfl
    obtain rfl := Option.some.inj (h.entry.symm.trans he)
    rw [h.resident] at hs
    nomatch hs
  rw [List.getElem?_modify, he] at he'
  obtain rfl : e = e' := by simpa [hji] using he'
  exact hs

/-- The entry of a page is found by its address. -/
theorem findPageInfo_map : findPageInfo p va = (p.pages.map PageInfo.va).findIdx? (fun a => a = pgRoundDown va) := by
  rw [findPageInfo, List.findIdx?_map]
  rfl

/-- An eviction takes no page out of the swap file. -/
theorem Victim.isSwapped {j : Nat} {x : PageInfo} {pte : Pte} {f : PageInfo → PageInfo} {p' : Proc} (h : Victim p j x pte)
    (hf : ∀ e, (f e).va = e.va) (hp : p'.pages = p.pages.modify j f) (hs : Kernel.isSwapped p va) : Kernel.isSwapped p' va := by
  obtain ⟨e, he, hst⟩ := (Option.any_eq_true _ _).mp hs
  obtain ⟨i, hi, he⟩ := Option.bind_eq_some_iff.mp he
  obtain ⟨e', he', -, hst'⟩ := h.kept hf he
  refine (Option.any_eq_true _ _).mpr ⟨e', ?_, by simpa using hst' (by simpa using hst)⟩
  have hfind : findPageInfo p' va = some i := by
    rw [findPageInfo_map, hp, ← hi, findPageInfo_map]
    refine congrArg (fun l => List.findIdx? _ l) (List.ext_getElem? (fun k => ?_))
    rw [List.getElem?_map, List.getElem?_map, List.getElem?_modify]
    cases p.pages[k]? with
    | none => rfl
    | some e => by_cases hk : j = k <;> simp [hk, hf]
  rw [entryOf, hfind, Option.bind_some, hp]
  exact he'

/-- Getting a page of memory is a run. -/
theorem Freed.run (h : Freed m p m' p') : PageRun (·.causedBy access) m p m' p' := by
  cases h with
  | free => exact PageRun.refl _ m p
  | clean _ hx => exact (PageRun.refl _ m p).snoc (.evictClean hx) trivial
  | dirty _ hx => exact (PageRun.refl _ m p).snoc (.evictDirty hx) trivial

/-- Getting a page of memory leaves what the load looks at. -/
theorem Freed.leaves (h : Freed m p m' p') {e : PageInfo} (he : p.pages[i]? = some e) :
    (∃ e', p'.pages[i]? = some e' ∧ e'.va = e.va ∧ (e.state = .swapped → e'.state = .swapped)) ∧
    (∀ va, inExec p' va ↔ inExec p va) ∧ ∀ va, faultValid p va → faultValid p' va := by
  cases h with
  | free => exact ⟨⟨e, he, rfl, id⟩, fun _ => Iff.rfl, fun _ => id⟩
  | clean _ hx =>
    have hp := hx.proc
    subst hp
    refine ⟨hx.victim.kept (by simp) he, fun _ => Iff.rfl, ?_⟩
    rintro va (hr | hs)
    · exact Or.inl hr
    · exact Or.inr (hx.victim.isSwapped (f := fun e => { e with state := .unmapped }) (by simp) rfl hs)
  | dirty _ hx =>
    rename_i slot f _ _ _
    have hp := hx.proc
    subst hp
    refine ⟨hx.victim.kept (by simp) he, fun _ => Iff.rfl, ?_⟩
    rintro va (hr | hs)
    · exact Or.inl hr
    · exact Or.inr (hx.victim.isSwapped (f := fun e => { e with state := .swapped, swapSlot := slot }) (by simp) rfl hs)

theorem sourceOf_exec {e : PageInfo} : sourceOf p e va = .exec ↔ sourceOf p e va ≠ .swap ∧ inExec p va := by
  unfold sourceOf
  split
  · simp
  · split <;> simp_all

theorem sourceOf_swap {e : PageInfo} : sourceOf p e va = .swap ↔ e.state = .swapped := by
  unfold sourceOf
  split
  · simp_all
  · split <;> simp_all

/-- Loading a page is a run. -/
theorem FaultLoad.run {r : Bool} {e : PageInfo} (h : FaultLoad m p i va (sourceOf p e va) m' p' r) (he : p.pages[i]? = some e)
    (hva : e.va = va) (hvalid : faultValid p va) : PageRun (·.causedBy access) m p m' p' := by
  cases h with
  | noPage _ hfail => exact ((PageRun.refl _ m p).snoc (.evictFail hfail) trivial).snoc .kill trivial
  | fail hfreed hfail =>
    obtain ⟨⟨e', he', hva', hsw⟩, -⟩ := hfreed.leaves he
    exact hfreed.run.snoc (.loadFail he' (hva'.trans hva) (fun hs => hsw (sourceOf_swap.mp hs)) hfail) trivial
  | load hfreed hload =>
    obtain ⟨⟨e', he', hva', hsw⟩, hexec, hval⟩ := hfreed.leaves he
    exact hfreed.run.snoc (.load he' (hva'.trans hva) (by rw [hexec]; exact sourceOf_exec) (fun hs => hsw (sourceOf_swap.mp hs))
      (hval va hvalid) hload) trivial

/-- A page fault is a run. -/
theorem Faulted.run {r : Bool} (h : Faulted m p va access m' p' r) (hal : va % 4096 = 0) :
    PageRun (·.causedBy access) m p m' p' := by
  have hround : pgRoundDown va = va := pgRoundDown_of_aligned hal
  cases h with
  | refused => exact PageRun.refl _ m p
  | killed => exact (PageRun.refl _ m p).snoc .kill trivial
  | firstWrite hacc hw =>
    obtain ⟨e', he', hva'⟩ := findPageInfo_some hw.found
    obtain rfl := Option.some.inj (hw.entry.symm.trans he')
    exact (PageRun.refl _ m p).snoc (.firstWrite hw (by rw [hva', hround])) hacc
  | load hpass htr he hl =>
    cases htr with
    | old hfind =>
      obtain ⟨e', he', hva'⟩ := findPageInfo_some hfind
      obtain rfl := Option.some.inj (he.symm.trans he')
      exact hl.run he (by rw [hva', hround]) hpass.valid
    | new hfind hroom =>
      have htrack : PageStep (m, p) (.track va) (m, p.track va) :=
        .track hpass.lt hal hpass.user (fun e he' => hround ▸ findPageInfo_none hfind he') hroom
      rw [hround] at he hl
      have hnew : (p.pages ++ [(⟨va, .unmapped, false, 0, -1⟩ : PageInfo)])[p.pages.length]? =
          some ⟨va, .unmapped, false, 0, -1⟩ := by simp
      obtain rfl := Option.some.inj (hnew.symm.trans he)
      refine ((PageRun.refl _ m p).snoc htrack trivial).trans (hl.run he rfl (Or.inl ?_))
      rcases hpass.valid with hr | hs
      · exact hr
      · rw [Kernel.isSwapped, entryOf, hfind] at hs
        nomatch hs

/-- A fault that finds a free page goes through these events: the first write to its page is granted, or the page gets an entry, unless it
has one, and is loaded. -/
def faultEvents (va : Nat) (access : Access) (evs : List PageEvent) : Prop :=
  (access = .write ∧ ∃ j, evs = [.firstWrite j va]) ∨ ∃ src j, evs = [.load src j va] ∨ evs = [.track va, .load src j va]

/-- A load takes the page from where its entry says. -/
def PageEvent.faithful (p : Proc) : PageEvent → Prop
  | .load src i va => ∀ e, p.pages[i]? = some e → src = sourceOf p e va
  | _ => True

theorem PageEvent.faithful_load {e : PageInfo} (he : p.pages[i]? = some e) : (PageEvent.load (sourceOf p e va) i va).faithful p := by
  intro x hx
  rw [Option.some.inj (he.symm.trans hx)]

theorem Faulted.free_run (h : Faulted m p va access m' p' true) (hal : va % 4096 = 0) (hfree : m.freelist ≠ []) :
    ∃ evs, Run (Guarded (fun x ev => ev.faithful x.2) PageStep) (m, p) evs (m', p') ∧ faultEvents va access evs := by
  have hround : pgRoundDown va = va := pgRoundDown_of_aligned hal
  cases h with
  | firstWrite hacc hw =>
    rename_i i e pte
    obtain ⟨e', he', hva'⟩ := findPageInfo_some hw.found
    obtain rfl := Option.some.inj (hw.entry.symm.trans he')
    exact ⟨[.firstWrite i va], Run.single ⟨trivial, .firstWrite hw (by rw [hva', hround])⟩, Or.inl ⟨hacc, i, rfl⟩⟩
  | load hpass htr he hl =>
    rename_i i e p₀
    cases hl with
    | load hfreed hload =>
      cases hfreed with
      | clean hempty | dirty hempty => exact absurd hempty hfree
      | free =>
        cases htr with
        | old hfind =>
          obtain ⟨e', he', hva'⟩ := findPageInfo_some hfind
          obtain rfl := Option.some.inj (he.symm.trans he')
          have hstep := PageStep.load he (hva'.trans hround) sourceOf_exec sourceOf_swap.mp hpass.valid hload
          have hrun : Run (Guarded (fun x ev => PageEvent.faithful x.2 ev) PageStep) (m, p) [.load (sourceOf p e va) i va] (m', p') :=
            Run.single ⟨PageEvent.faithful_load he, hstep⟩
          exact ⟨_, hrun, Or.inr ⟨_, _, Or.inl rfl⟩⟩
        | new hfind hroom =>
          have htrack : PageStep (m, p) (.track va) (m, p.track va) :=
            .track hpass.lt hal hpass.user (fun e he' => hround ▸ findPageInfo_none hfind he') hroom
          rw [hround] at he hload
          have hnew : (p.pages ++ [(⟨va, .unmapped, false, 0, -1⟩ : PageInfo)])[p.pages.length]? =
              some ⟨va, .unmapped, false, 0, -1⟩ := by simp
          obtain rfl := Option.some.inj (hnew.symm.trans he)
          have hvalid : faultValid (p.track va) va := by
            rcases hpass.valid with hr | hs
            · exact Or.inl hr
            · rw [Kernel.isSwapped, entryOf, hfind] at hs
              cases hs
          have hstep := PageStep.load he rfl sourceOf_exec sourceOf_swap.mp hvalid hload
          have hrun : Run (Guarded (fun x ev => PageEvent.faithful x.2 ev) PageStep) (m, p)
              [.track va, .load (sourceOf (p.track va) ⟨va, .unmapped, false, 0, -1⟩ va) p.pages.length va] (m', p') :=
            (Run.single ⟨trivial, htrack⟩).snoc ⟨PageEvent.faithful_load he, hstep⟩
          exact ⟨_, hrun, Or.inr ⟨_, _, Or.inr rfl⟩⟩

theorem handlePageFault_run {addr : Nat} {fromUser r : Bool}
    (h : handlePageFault m p addr access fromUser = .ok (m', p', r)) : PageRun (·.causedBy access) m p m' p' :=
  (handlePageFault_cases h).run (pgRoundDown_mod addr)

end Faults

/-- A page that was loaded is mapped for the user. -/
theorem Load.leaf {src : Source} {m₁ m₂ : Machine} {mem : Pa} {p₂ : Proc} {page : Page} {pt : PageTable}
    (h : Load m p i va src m₁ mem m₂ p₂ page pt m' p') :
    p'.pagetable.leaf = Function.update p.pagetable.leaf (va / 4096) (some ⟨mem, src.perm p va⟩) ∧
    p.pagetable.leaf (va / 4096) = none ∧ MapSpec (m₂.fill mem page) p.pagetable va mem (src.perm p va) m' p'.pagetable := by
  have hpt : p₂.pagetable = p.pagetable := by
    cases h.fetched with
    | zero => rfl
    | exec => rfl
    | execRead => rfl
    | swap =>
      unfold freeSwapSlot
      split
      · rfl
      · split <;> rfl
  have hm := h.mapped
  rw [hpt] at hm
  obtain ⟨-, hs⟩ | ⟨hf, -⟩ := mappages_page hm
  · rw [h.proc]
    exact ⟨hs.leaf, hs.free, hs⟩
  · nomatch hf

theorem Source.perm_u (src : Source) (p : Proc) (va : Nat) : (src.perm p va).u = true := by
  cases src with
  | zero => rfl
  | swap => rfl
  | exec =>
    change (execPerm p va).u = true
    unfold execPerm
    split <;> rfl

theorem Source.perm_r (src : Source) (p : Proc) (va : Nat) : (src.perm p va).r = true := by
  cases src with
  | zero => rfl
  | swap => rfl
  | exec =>
    change (execPerm p va).r = true
    unfold execPerm
    split <;> rfl

/-- After a fault for reading that succeeded, the page is mapped for the user. -/
theorem Faulted.user (h : Faulted m p va .read m' p' true) : ∃ pte, p'.pagetable.leaf (va / 4096) = some pte ∧ pte.perm.u = true := by
  cases h with
  | firstWrite acc => nomatch acc
  | load _ _ _ hl =>
    cases hl with
    | load _ hload =>
      obtain ⟨hleaf, -⟩ := hload.leaf
      exact ⟨_, by rw [hleaf, Function.update_self], Source.perm_u _ _ _⟩

/-- `walkaddr` finds the frame of a user page. -/
theorem walkaddr_some {pt : PageTable} {pa : Pa} (h : walkaddr pt va = some pa) :
    va < maxVa ∧ ∃ pte, pt.leaf (va / 4096) = some pte ∧ pte.perm.u = true ∧ pte.pa = pa := by
  unfold walkaddr at h
  split at h
  · nomatch h
  rename_i hlt
  split at h
  · nomatch h
  · rename_i pte hleaf
    split at h
    · rename_i hu
      exact ⟨Nat.not_le.mp hlt, pte, hleaf, hu, Option.some.inj h⟩
    · nomatch h

/-- Finding the page of a user address is a run, at the end of which the page is mapped for the user. -/
theorem copyPage_run {o : Option Pa} (hal : va % 4096 = 0) (h : copyPage m p none va = .ok (m', p', o)) :
    PageRun (·.causedBy .read) m p m' p' ∧ ∀ pa, o = some pa → va < maxVa ∧
      ∃ pte, p'.pagetable.leaf (va / 4096) = some pte ∧ pte.perm.u = true ∧
      pte.pa = pa := by
  unfold copyPage at h
  split at h
  · rename_i pa hw
    simp only [Except.ok.injEq, Prod.mk.injEq] at h
    obtain ⟨rfl, rfl, rfl⟩ := h
    exact ⟨PageRun.refl _ m p, fun q hq => by rw [← Option.some.inj hq]; exact walkaddr_some hw⟩
  · obtain ⟨⟨m₁, p₁, b⟩, hf, h⟩ := bind_ok h
    have hcases := handlePageFault_cases hf
    rw [pgRoundDown_of_aligned hal] at hcases
    cases b with
    | false =>
      simp only [Except.ok.injEq, Prod.mk.injEq] at h
      obtain ⟨rfl, rfl, rfl⟩ := h
      exact ⟨hcases.run hal, fun _ hq => nomatch hq⟩
    | true =>
      obtain ⟨pte, hl, h⟩ := bind_ok h
      simp only [Except.ok.injEq, Prod.mk.injEq] at h
      obtain ⟨rfl, rfl, rfl⟩ := h
      unfold lookup at hl
      split at hl
      · nomatch hl
      rename_i hlt
      rw [pgRoundDown_of_aligned hal] at hlt hl
      obtain ⟨pte', hleaf, hu⟩ := hcases.user
      obtain rfl := Except.ok.inj hl
      refine ⟨hcases.run hal, fun pa hq => ⟨Nat.not_le.mp hlt, pte', hleaf, hu, ?_⟩⟩
      simpa [hleaf] using hq

/-- The events of `copyout`: those of faults for reading, and the copies. -/
def PageEvent.ofCopyout (ev : PageEvent) : Prop := ev.causedBy .read ∨ ∃ va, ev = .copy va

/-- `copyout` to the process's own memory is a run. -/
theorem copyoutLoop_run {fuel dstva : Nat} {src : List Byte} {r : Bool}
    (h : copyoutLoop none fuel m p dstva src = .ok (m', p', r)) : PageRun PageEvent.ofCopyout m p m' p' := by
  induction fuel generalizing m p dstva src with
  | zero =>
    simp only [copyoutLoop, Except.ok.injEq, Prod.mk.injEq] at h
    obtain ⟨rfl, rfl, rfl⟩ := h
    exact PageRun.refl _ m p
  | succ fuel ih =>
    rw [copyoutLoop] at h
    split at h
    · simp only [Except.ok.injEq, Prod.mk.injEq] at h
      obtain ⟨rfl, rfl, rfl⟩ := h
      exact PageRun.refl _ m p
    simp only at h
    split at h
    · simp only [Except.ok.injEq, Prod.mk.injEq] at h
      obtain ⟨rfl, rfl, rfl⟩ := h
      exact PageRun.refl _ m p
    obtain ⟨⟨m₁, p₁, o⟩, hc, h⟩ := bind_ok h
    obtain ⟨hrun, hpage⟩ := copyPage_run (pgRoundDown_mod dstva) hc
    have hrun : PageRun PageEvent.ofCopyout m p m₁ p₁ := hrun.mono (fun _ hev => Or.inl hev)
    cases o with
    | none =>
      simp only [Except.ok.injEq, Prod.mk.injEq] at h
      obtain ⟨rfl, rfl, rfl⟩ := h
      exact hrun
    | some pa =>
      obtain ⟨hlt, pte, hleaf, hu, rfl⟩ := hpage pa rfl
      obtain ⟨o, hl, h⟩ := bind_ok h
      unfold lookup at hl
      rw [if_neg (Nat.not_le.mpr hlt)] at hl
      obtain rfl := Except.ok.inj hl
      simp only [Option.getD_none, hleaf] at h
      split at h
      · simp only [Except.ok.injEq, Prod.mk.injEq] at h
        obtain ⟨rfl, rfl, rfl⟩ := h
        exact hrun
      · rename_i hw
        exact (hrun.snoc (.copy hlt hleaf hu (not_not.mp hw)) (Or.inr ⟨_, rfl⟩)).trans (ih h)

theorem copyout_run {dstva : Nat} {src : List Byte} {r : Bool} (h : copyout m p none dstva src = .ok (m', p', r)) :
    PageRun PageEvent.ofCopyout m p m' p' :=
  copyoutLoop_run h

/-- `copyin` is a run. -/
theorem copyinLoop_run {fuel srcva len : Nat} {acc : List Byte} {o : Option (List Byte)}
    (h : copyinLoop fuel m p srcva len acc = .ok (m', p', o)) : PageRun (·.causedBy .read) m p m' p' := by
  induction fuel generalizing m p srcva len acc with
  | zero =>
    simp only [copyinLoop, Except.ok.injEq, Prod.mk.injEq] at h
    obtain ⟨rfl, rfl, rfl⟩ := h
    exact PageRun.refl _ m p
  | succ fuel ih =>
    rw [copyinLoop] at h
    split at h
    · simp only [Except.ok.injEq, Prod.mk.injEq] at h
      obtain ⟨rfl, rfl, rfl⟩ := h
      exact PageRun.refl _ m p
    obtain ⟨⟨m₁, p₁, o₁⟩, hc, h⟩ := bind_ok h
    obtain ⟨hrun, -⟩ := copyPage_run (pgRoundDown_mod srcva) hc
    cases o₁ with
    | none =>
      simp only [Except.ok.injEq, Prod.mk.injEq] at h
      obtain ⟨rfl, rfl, rfl⟩ := h
      exact hrun
    | some pa => exact hrun.trans (ih h)

theorem copyin_run {srcva len : Nat} {o : Option (List Byte)} (h : copyin m p srcva len = .ok (m', p', o)) :
    PageRun (·.causedBy .read) m p m' p' :=
  copyinLoop_run h

end Runs

end Xv6SnifferBakery.Kernel
