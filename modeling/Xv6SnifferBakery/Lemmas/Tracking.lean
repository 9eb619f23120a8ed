import Xv6SnifferBakery.Lemmas.Extent
import Xv6SnifferBakery.Lemmas.View

/-!
# Page events on the table of tracked pages

What a page event does to the entries of a process and to the leaves of its table, as one inversion. The entries are for different
pages, so an event that changes one entry and its leaf leaves the others.
-/

namespace Xv6SnifferBakery.Kernel

open Lib

variable {m m' : Machine} {p p' : Proc} {ev : PageEvent} {i j : Nat}

/-! ## The entries are for different pages -/

/-- The entries are for different pages. -/
structure Proc.Indexed (p : Proc) : Prop where
  addrs : (p.pages.map PageInfo.va).Nodup
  aligned : p.Aligned

/-- Another entry has another leaf. -/
theorem Proc.Indexed.leaf_ne {e x : PageInfo} (h : p.Indexed) (he : p.pages[i]? = some e) (hx : p.pages[j]? = some x) (hne : j ≠ i) :
    x.va / 4096 ≠ e.va / 4096 := by
  intro hdiv
  have hea := h.aligned e.va (List.mem_map_of_mem (List.mem_of_getElem? he))
  have hxa := h.aligned x.va (List.mem_map_of_mem (List.mem_of_getElem? hx))
  exact hne (entry_unique h.addrs hx he (by omega))

theorem Proc.Indexed.of_map (h : p.Indexed) (hva : p'.pages.map PageInfo.va = p.pages.map PageInfo.va) : p'.Indexed :=
  ⟨hva ▸ h.addrs, h.aligned.of_map hva⟩

/-! ## One event -/

/-- What a page event does to the entries and the leaves. -/
inductive TableChange (p : Proc) (ev : PageEvent) (p' : Proc) : Prop where
  | same (pages : p'.pages = p.pages) (leaf : p'.pagetable.leaf = p.pagetable.leaf)
  | track {va : Nat} (event : ev = .track va) (aligned : va % 4096 = 0) (fresh : ∀ e ∈ p.pages, e.va ≠ va)
      (pages : p'.pages = p.pages ++ [⟨va, .unmapped, false, 0, -1⟩]) (leaf : p'.pagetable.leaf = p.pagetable.leaf)
  | evict {i : Nat} {e : PageInfo} {pte : Pte} {f : PageInfo → PageInfo} (entry : p.pages[i]? = some e) (resident : e.state = .resident)
      (mapped : p.pagetable.leaf (e.va / 4096) = some pte)
      (event : ev = if e.isDirty then .evictDirty i e.va else .evictClean i e.va) (va : ∀ x, (f x).va = x.va)
      (out : ∀ x, (f x).state = if e.isDirty then .swapped else .unmapped) (pages : p'.pages = p.pages.modify i f)
      (leaf : p'.pagetable.leaf = Function.update p.pagetable.leaf (e.va / 4096) none)
  | load {src : Source} {i : Nat} {e : PageInfo} {mem : Pa} {f : PageInfo → PageInfo} (event : ev = .load src i e.va)
      (entry : p.pages[i]? = some e) (free : p.pagetable.leaf (e.va / 4096) = none) (va : ∀ x, (f x).va = x.va)
      (loaded : ∀ x, (f x).state = .resident ∧ (f x).isDirty = false ∧ (f x).seq = p.nextFifoSeq)
      (pages : p'.pages = p.pages.modify i f)
      (leaf : p'.pagetable.leaf = Function.update p.pagetable.leaf (e.va / 4096) (some ⟨mem, src.perm p e.va⟩))
  | loadFail {i : Nat} {f : PageInfo → PageInfo} (keeps : ∀ x, f x = { x with swapSlot := (f x).swapSlot })
      (pages : p'.pages = p.pages.modify i f) (leaf : p'.pagetable.leaf = p.pagetable.leaf)
  | firstWrite {i : Nat} {e : PageInfo} {pte : Pte} (event : ev = .firstWrite i e.va) (h : FirstWrite p e.va i e pte)
      (pages : p'.pages = p.pages.modify i (fun x => { x with isDirty := true }))
      (leaf : p'.pagetable.leaf =
        Function.update p.pagetable.leaf (e.va / 4096) (some { pte with perm := { pte.perm with w := true } }))

/-- A change of slot numbers leaves the rest of every entry. -/
theorem mem_modify_slot {es : List PageInfo} {f : PageInfo → PageInfo} {x : PageInfo}
    (keeps : ∀ x, f x = { x with swapSlot := (f x).swapSlot }) (hx : x ∈ es.modify i f) :
    ∃ e ∈ es, e.va = x.va ∧ e.state = x.state ∧ e.isDirty = x.isDirty ∧ e.seq = x.seq := by
  rcases mem_modify hx with ⟨e, he, rfl⟩ | ⟨l, -, hl⟩
  · rw [keeps e]
    exact ⟨e, List.mem_of_getElem? he, rfl, rfl, rfl, rfl⟩
  · exact ⟨x, List.mem_of_getElem? hl, rfl, rfl, rfl, rfl⟩

/-- Fetching the contents of a page changes at most the slot number of its entry. -/
theorem Fetched.pages {src : Source} {va : Nat} {page : Page} (h : Fetched m p i va src m' p' page) :
    ∃ f : PageInfo → PageInfo, (∀ x, f x = { x with swapSlot := (f x).swapSlot }) ∧ p'.pages = p.pages.modify i f ∧
      p'.nextFifoSeq = p.nextFifoSeq := by
  have hid : p.pages = p.pages.modify i id := by rw [List.modify_id]
  cases h with
  | zero => exact ⟨id, fun _ => rfl, hid, rfl⟩
  | exec => exact ⟨id, fun _ => rfl, hid, rfl⟩
  | execRead => exact ⟨id, fun _ => rfl, hid, rfl⟩
  | swap _ he =>
    rename_i f e fs _ _ _
    refine ⟨fun x => { x with swapSlot := -1 }, fun _ => rfl, ?_, ?_⟩
    · change (freeSwapSlot p e.swapSlot).pages.modify i _ = _
      rw [freeSwapSlot_pages]
    · change (freeSwapSlot p e.swapSlot).nextFifoSeq = _
      unfold freeSwapSlot
      split
      · rfl
      · split <;> rfl

theorem PageStep.table (h : PageStep (m, p) ev (m', p')) : TableChange p ev p' := by
  cases h with
  | kill | store | copy => exact .same rfl rfl
  | track _ aligned _ fresh => exact .track rfl aligned fresh rfl rfl
  | evictClean hx =>
    have hp := hx.proc
    subst hp
    refine .evict (f := fun e => { e with state := .unmapped }) hx.victim.entry hx.victim.resident hx.victim.leaf ?_ (fun _ => rfl)
      (fun _ => ?_) rfl rfl
    · rw [hx.clean]
      rfl
    · rw [hx.clean]
      rfl
  | evictDirty hx =>
    rename_i slot _ _ _
    have hp := hx.proc
    subst hp
    refine .evict (f := fun e => { e with state := .swapped, swapSlot := slot }) hx.victim.entry hx.victim.resident hx.victim.leaf ?_
      (fun _ => rfl) (fun _ => ?_) rfl rfl
    · rw [hx.dirty]
      rfl
    · rw [hx.dirty]
      rfl
  | evictFail hx =>
    rw [hx.proc]
    exact .same rfl rfl
  | load entry addr _ _ _ hx =>
    subst addr
    obtain ⟨hleaf, hfree, -⟩ := hx.leaf
    obtain ⟨f, hf, hpages, hseq⟩ := hx.fetched.pages
    rename_i m₁ m₂ p₂ k src mem page pt e _ _ _
    refine .load (f := (fun e => { e with state := .resident, seq := p₂.nextFifoSeq, isDirty := false }) ∘ f) rfl entry hfree ?_ ?_ ?_ hleaf
    · intro x
      change (f x).va = x.va
      rw [hf x]
    · exact fun x => ⟨rfl, rfl, hseq⟩
    · rw [hx.proc]
      change p₂.pages.modify k _ = _
      rw [hpages, List.modify_modify_eq]
  | loadFail _ _ _ hx =>
    obtain ⟨-, -, hleaf⟩ := hx.mem
    cases hx with
    | read => exact .same rfl hleaf
    | map _ hf =>
      obtain ⟨f, hf, hpages, -⟩ := hf.pages
      exact .loadFail hf hpages hleaf
  | firstWrite hx addr =>
    subst addr
    refine .firstWrite rfl hx rfl ?_
    exact PageTable.modLeaf_leaf _ _ _ _ hx.leaf

/-- A page event leaves the entries for different pages. -/
theorem TableChange.indexed (h : TableChange p ev p') (hp : p.Indexed) : p'.Indexed := by
  cases h with
  | same pages => exact hp.of_map (by rw [pages])
  | track _ aligned fresh pages =>
    refine ⟨?_, ?_⟩
    · rw [pages]
      exact track_addrs hp.addrs fresh
    · intro va hva
      rw [pages, List.map_append, List.mem_append] at hva
      rcases hva with hva | hva
      · exact hp.aligned va hva
      · rwa [List.mem_singleton.mp hva]
  | evict _ _ _ _ va _ pages => exact hp.of_map (by rw [pages, map_va_modify va])
  | load _ _ _ va _ pages => exact hp.of_map (by rw [pages, map_va_modify va])
  | loadFail keeps pages => exact hp.of_map (by rw [pages, map_va_modify (fun x => by rw [keeps x])])
  | firstWrite _ _ pages =>
    refine hp.of_map ?_
    rw [pages]
    exact map_va_modify (f := fun x => { x with isDirty := true }) (fun _ => rfl)

theorem indexed_kept : Kept (fun _ => True) Proc.Indexed where
  page := fun hs hp => hs.table.indexed hp
  sbrk := by
    intro m m' p p' n eager r _ hc hp
    refine hp.of_map ?_
    rw [(sysSbrk_env hc).2]
  exec := by
    intro m m' p p' path argv o _ hargs hc hp
    rcases kexec_cases hargs hc with ⟨-, hfail, -⟩ | ⟨argc, fs₀, fs, ip, mem, pt, sp, -, rfl, -⟩
    · exact hp.of_map (congrArg (List.map PageInfo.va) hfail.slot.2.2.2.1)
    · refine ⟨?_, commit_aligned⟩
      rw [commit_eq]
      exact List.nodup_singleton _
  fork := by
    intro p q np i hc hp
    cases hc with
    | mk =>
      refine hp.of_map ?_
      change (p.pages.map forkPage).map PageInfo.va = _
      rw [List.map_map]
      rfl
  other := fun _ _ _ _ _ _ _ hp => hp.of_map rfl

theorem Boot.indexed {s : Sys} (hb : Boot s) : EveryLive Proc.Indexed s := by
  refine hb.everyLive (fun p path st entry pt sp => ⟨?_, commit_aligned⟩)
  rw [commit_eq]
  exact List.nodup_singleton _

/-- In every reachable state, the entries of a live process are for different pages. -/
theorem reach_indexed {t : Sys} (h : Reach Boot Step t) : EveryLive Proc.Indexed t :=
  indexed_kept.reach (fun _ hb => hb.indexed) h

/-! ## The tables stay well formed -/

/-- An event that does not shrink past the trapframe page leaves every live process well formed. -/
theorem SysStep.everyWf {s t : Sys} {ev : Event} (h : SysStep s ev t) (hk : ev.keepsTrapframe s) (hs : EveryLive Proc.Wf s) :
    EveryLive Proc.Wf t := by
  intro k hl
  cases h.slot hl with
  | same live tf ofile cwd parent killed state _ hp =>
    rw [hp]
    exact (hs k live).of_fields rfl rfl rfl rfl
  | page _ live hp => exact (hp.flows (hs k live)).2
  | sbrk he live hc =>
    subst he
    exact ((sysSbrk_spec (hs k live) hk hc).flows (hs k live) hk).2.1
  | exec _ live args hc =>
    have hwf := hs k live
    obtain ⟨-, ⟨-, hf⟩ | ⟨argc, fs₀, fs, ip, mem, pt, sp, -, hd⟩⟩ := kexec_spec hwf.toHasTable (Or.inr hwf.stack) args hc
    · obtain ⟨hpt, htf, hst, hpages, -⟩ := hf.slot
      exact hwf.of_fields hpt htf hst hpages
    · refine (hd.wf ?_).1
      obtain ⟨pte, -, -, htf⟩ := hwf.trapframe
      rw [htf]
      rfl
  | fork _ live _ hc => exact (hc.leaves (hs _ live)).1

theorem Boot.everyWf {s : Sys} (hb : Boot s) : EveryLive Proc.Wf s := by
  intro k hl
  obtain ⟨_, _, _, _, _, _, _, _, _, _, _, hwf⟩ := hb.done hl
  exact hwf

/-- In every state that is reached without a shrink past a trapframe page, every live process is well formed, and its entries are for
different pages. -/
theorem Reachable.everyWf {s : Sys} (h : Reachable s) : EveryLive Proc.Wf s := by
  refine Reach.invariant (EveryLive Proc.Wf) (fun _ hb => hb.everyWf) ?_ h
  intro u a v hu hstep
  obtain ⟨evs, hr⟩ := SafeStep.run hstep
  exact hr.invariant (EveryLive Proc.Wf) (fun _ _ _ hx hg => hg.2.everyWf hg.1 hx) hu

theorem Reachable.everyIndexed {s : Sys} (h : Reachable s) : EveryLive Proc.Indexed s := by
  obtain ⟨s₀, as, hb, hr⟩ := h
  exact reach_indexed ⟨s₀, as, hb, hr.mono (fun _ _ _ hg => hg.2)⟩

theorem SysStep.everyIndexed {s t : Sys} {ev : Event} (h : SysStep s ev t) (hs : EveryLive Proc.Indexed s) : EveryLive Proc.Indexed t :=
  indexed_kept.step h (by unfold Event.leaves; split <;> trivial) hs

end Xv6SnifferBakery.Kernel
