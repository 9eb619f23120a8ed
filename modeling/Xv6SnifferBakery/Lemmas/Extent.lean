import Xv6SnifferBakery.Lemmas.Kept
import Xv6SnifferBakery.Lemmas.Outcome
import Xv6SnifferBakery.Theorems.SizeBound

/-!
# The extent of an address space

While the size of a process covers its image, its stack and its pages in the swap file, no page is mapped at or above the size: a page
fault maps a page of one of these, or one of the heap, and a change of size then leaves nothing behind.
-/

namespace Xv6SnifferBakery.Kernel

open Lib

variable {m m' : Machine} {p p' : Proc} {ev : PageEvent} {i va v : Nat} {es es' es'' : List PageInfo}

/-- The size of a process covers its image, its stack and its pages in the swap file, and is not above the trapframe page. -/
structure Covers (p : Proc) : Prop where
  stack : p.stackTop ≤ p.sz
  text : p.textEnd ≤ p.sz
  data : p.dataEnd ≤ p.sz
  top : p.sz ≤ trapframeVa
  swapped : ∀ e ∈ p.pages, e.state = .swapped → e.va < p.sz

/-- The user pages that are mapped lie below `sz`. -/
def PageTable.Below (pt : PageTable) (sz : Nat) : Prop := ∀ v < userPages, (pt.leaf v).isSome → v * 4096 < sz

/-- And every user page that is mapped lies below the size. -/
structure Extent (p : Proc) : Prop extends Covers p where
  wf : p.Wf
  mapped : p.pagetable.Below p.sz

/-! ## Page events -/

/-- Every entry of a page in the swap file was one before, for the same page. -/
def SwappedFrom (es es' : List PageInfo) : Prop := ∀ e' ∈ es', e'.state = .swapped → ∃ e ∈ es, e.state = .swapped ∧ e.va = e'.va

theorem SwappedFrom.refl (es : List PageInfo) : SwappedFrom es es := fun e he hs => ⟨e, he, hs, rfl⟩

theorem SwappedFrom.trans (h : SwappedFrom es es') (h' : SwappedFrom es' es'') : SwappedFrom es es'' := by
  intro e'' he'' hs''
  obtain ⟨e', he', hs', hva'⟩ := h' e'' he'' hs''
  obtain ⟨e, he, hs, hva⟩ := h e' he' hs'
  exact ⟨e, he, hs, hva.trans hva'⟩

/-- A change of one entry that does not send its page to the swap file. -/
theorem SwappedFrom.modify {f : PageInfo → PageInfo} (hva : ∀ e, (f e).va = e.va)
    (hf : ∀ e, (f e).state = .swapped → e.state = .swapped) : SwappedFrom es (es.modify i f) := by
  intro e' he' hs'
  rcases mem_modify he' with ⟨e, he, rfl⟩ | ⟨k, -, he⟩
  · exact ⟨e, List.mem_of_getElem? he, hf e hs', (hva e).symm⟩
  · exact ⟨e', List.mem_of_getElem? he, hs', rfl⟩

theorem Fetched.swappedFrom {src : Source} {page : Page} (h : Fetched m p i va src m' p' page) : SwappedFrom p.pages p'.pages := by
  cases h with
  | zero | exec | execRead => exact .refl _
  | swap =>
    rename_i f e fs hfile he hlock hread
    change SwappedFrom p.pages ((freeSwapSlot p e.swapSlot).pages.modify i _)
    rw [freeSwapSlot_pages]
    exact .modify (fun _ => rfl) (fun _ => id)

/-- A page that an event leaves in the swap file was there, or was mapped. -/
theorem PageStep.swapped (h : PageStep (m, p) ev (m', p')) {e' : PageInfo} (he' : e' ∈ p'.pages) (hs' : e'.state = .swapped) :
    (∃ e ∈ p.pages, e.state = .swapped ∧ e.va = e'.va) ∨
    ((p.pagetable.leaf (e'.va / 4096)).isSome ∧ ∃ e ∈ p.pages, e.va = e'.va) := by
  have hfrom : SwappedFrom p.pages p'.pages → (∃ e ∈ p.pages, e.state = .swapped ∧ e.va = e'.va) ∨
      ((p.pagetable.leaf (e'.va / 4096)).isSome ∧ ∃ e ∈ p.pages, e.va = e'.va) := fun h => Or.inl (h e' he' hs')
  cases h with
  | kill | store | copy => exact hfrom (.refl _)
  | track =>
    rcases List.mem_append.mp he' with he | he
    · exact Or.inl ⟨e', he, hs', rfl⟩
    · rw [List.mem_singleton.mp he] at hs'
      nomatch hs'
  | evictClean h =>
    rw [h.proc] at hfrom
    exact hfrom (.modify (fun _ => rfl) nofun)
  | evictDirty h =>
    rw [h.proc] at he'
    rcases mem_modify he' with ⟨e, he, rfl⟩ | ⟨k, -, he⟩
    · obtain rfl := Option.some.inj (he.symm.trans h.victim.entry)
      refine Or.inr ⟨?_, e, List.mem_of_getElem? he, rfl⟩
      change (p.pagetable.leaf (e.va / 4096)).isSome
      rw [h.victim.leaf]
      rfl
    · exact Or.inl ⟨e', List.mem_of_getElem? he, hs', rfl⟩
  | evictFail h =>
    rw [h.proc] at hfrom
    exact hfrom (.refl _)
  | load _ _ _ _ _ h =>
    rw [h.proc] at hfrom
    exact hfrom (h.fetched.swappedFrom.trans (.modify (fun _ => rfl) nofun))
  | loadFail _ _ _ h =>
    cases h with
    | read => exact hfrom (.refl _)
    | map _ hf => exact hfrom hf.swappedFrom
  | firstWrite => exact hfrom (.modify (fun _ => rfl) (fun _ => id))

/-- A page that an event leaves mapped was mapped, or it was valid for a fault and is tracked. -/
theorem PageStep.mapped (h : PageStep (m, p) ev (m', p')) (hv : (p'.pagetable.leaf v).isSome) :
    (p.pagetable.leaf v).isSome ∨ ∃ e ∈ p.pages, v = e.va / 4096 ∧ faultValid p e.va := by
  have hclear : ∀ {w : Nat}, (Function.update p.pagetable.leaf w none v).isSome → (p.pagetable.leaf v).isSome := by
    intro w hw
    by_cases hvw : v = w
    · rw [hvw, Function.update_self] at hw
      cases hw
    · rwa [Function.update_of_ne hvw] at hw
  cases h with
  | kill | store | copy | track => exact Or.inl hv
  | evictClean h =>
    rw [h.proc] at hv
    exact Or.inl (hclear hv)
  | evictDirty h =>
    rw [h.proc] at hv
    exact Or.inl (hclear hv)
  | evictFail h =>
    rw [h.proc] at hv
    exact Or.inl hv
  | load he hva _ _ hvalid h =>
    subst hva
    rw [h.leaf.1] at hv
    rw [Function.update_apply] at hv
    split at hv
    · exact Or.inr ⟨_, List.mem_of_getElem? he, ‹_›, hvalid⟩
    · exact Or.inl hv
  | loadFail _ _ _ h =>
    cases h with
    | read => exact Or.inl hv
    | map _ hf hm =>
      obtain ⟨hr, -⟩ | ⟨-, hs⟩ := mappages_page hm
      · cases hr
      · rw [← hf.same.2.2.1, ← hs.leaf]
        exact Or.inl hv
  | firstWrite h =>
    change ((p.pagetable.modLeaf _ _).leaf v).isSome at hv
    rw [PageTable.modLeaf_leaf _ _ _ _ h.leaf, Function.update_apply] at hv
    split at hv
    · rename_i hvw
      rw [hvw, h.leaf]
      exact Or.inl rfl
    · exact Or.inl hv

/-- What is valid for a fault lies below the size. -/
theorem Covers.valid (h : Covers p) (hal : va % 4096 = 0) (hvalid : faultValid p va) : va < p.sz := by
  rcases hvalid with ⟨-, htext | hdata | hheap | hstack⟩ | hswap
  · exact htext.2.trans_le h.text
  · exact hdata.2.trans_le h.data
  · exact hheap.2
  · exact hstack.2.trans_le h.stack
  · obtain ⟨e, he, hst⟩ := (Option.any_eq_true _ _).mp hswap
    obtain ⟨i, hi, he⟩ := Option.bind_eq_some_iff.mp he
    obtain ⟨e', he', hva⟩ := findPageInfo_some hi
    obtain rfl := Option.some.inj (he.symm.trans he')
    have hlt := h.swapped e (List.mem_of_getElem? he) (by simpa using hst)
    rwa [hva, pgRoundDown_of_aligned hal] at hlt

theorem PageStep.extent (hs : PageStep (m, p) ev (m', p')) (h : Extent p) : Extent p' := by
  have himg := hs.image
  have hsz : p'.sz = p.sz := himg.sz
  have hal : ∀ e ∈ p.pages, e.va / 4096 < userPages ∧ e.va % 4096 = 0 := fun e he => h.wf.tracked _ (List.mem_map_of_mem he)
  refine ⟨⟨?_, ?_, ?_, ?_, ?_⟩, (hs.flows h.wf).2, ?_⟩
  · rw [himg.stackTop, hsz]
    exact h.stack
  · rw [himg]
    exact h.text
  · rw [himg]
    exact h.data
  · rw [hsz]
    exact h.top
  · intro e' he' hs'
    rw [hsz]
    rcases hs.swapped he' hs' with ⟨e, he, hst, hva⟩ | ⟨hmap, e, he, hva⟩
    · rw [← hva]
      exact h.swapped e he hst
    · obtain ⟨hlt, hmod⟩ := hal e he
      rw [hva] at hlt hmod
      have := h.mapped _ hlt hmap
      omega
  · intro v hlt hv
    rw [hsz]
    rcases hs.mapped hv with hmap | ⟨e, he, rfl, hvalid⟩
    · exact h.mapped v hlt hmap
    · have hmod := (hal e he).2
      have := h.toCovers.valid hmod hvalid
      omega

/-! ## `sbrk` -/

/-- A size that is not above the trapframe page can be rounded up. -/
theorem size_pgRoundUp {sz : Nat} (h : sz ≤ trapframeVa) : sz ≤ pgRoundUp sz ∧ pgRoundUp sz < sz + 4096 := by
  rw [trapframeVa_eq, userPages_eq] at h
  unfold pgRoundUp add64
  omega

section Sizes

variable {pt pt' : PageTable} {stackTop old new sz : Nat}

theorem uvmalloc_below {o : Option Nat} (ht : pt.Topped) (hold : old ≤ trapframeVa) (hstack : stackTop ≤ old) (hb : pt.Below old)
    (h : uvmalloc m pt stackTop old new = .ok (m', pt', o)) : pt'.Below (o.getD old) := by
  intro v hlt hv
  cases o with
  | none =>
    rw [uvmalloc_failed h ht (hstack.trans (size_pgRoundUp hold).1)] at hv
    exact hb v hlt hv
  | some sz =>
    change v * 4096 < sz
    rcases uvmalloc_spec h ht with ⟨-, hr, -, rfl⟩ | ⟨hle, hi, hg, -, hr | ⟨hr, hend⟩⟩
    · rw [Option.some.inj hr]
      exact hb v hlt hv
    · nomatch hr
    · obtain rfl := Option.some.inj hr
      by_cases hin : pgRoundUp old / 4096 ≤ v ∧ v < hi
      · have := pgRoundUp_mod old
        rw [hend, growEnd] at hin
        omega
      · rw [hg.outside v hin] at hv
        exact (hb v hlt hv).trans_le hle

theorem uvmdealloc_below (hold : old ≤ trapframeVa) (hstack : stackTop ≤ sz) (hb : pt.Below old)
    (h : uvmdealloc m pt stackTop old new = .ok (m', pt', sz)) : pt'.Below sz := by
  intro v hlt hv
  have hround := size_pgRoundUp hold
  have hmod := pgRoundUp_mod old
  obtain ⟨hmin, hu⟩ := uvmdealloc_spec h (fun _ v hv h1 _ => by
    rw [trapframeVa_eq] at hold
    omega)
  by_contra hge
  by_cases hnew : new < old
  · -- the page lies at or above the new size, so that it was unmapped, or was not mapped
    have hround' := size_pgRoundUp (hnew.le.trans hold)
    have hmod' := pgRoundUp_mod new
    by_cases hv' : v < pgRoundUp old / 4096
    · rw [hu.cleared v ⟨hnew, by omega, hv', by omega⟩] at hv
      cases hv
    · rw [hu.kept v (fun hs => hv' hs.2.2.1)] at hv
      have := hb v hlt hv
      omega
  · rw [hu.kept v (fun hs => hnew hs.1)] at hv
    have := hb v hlt hv
    omega

end Sizes

/-- What `sbrk` leaves mapped lies below the new size, when that covers the stack. -/
theorem sysSbrk_below {n : Int} {eager r : Bool} (h : Extent p) (hstack : p.stackTop ≤ p'.sz)
    (hs : sysSbrk m p n eager = .ok (m', p', r)) : p'.pagetable.Below p'.sz := by
  unfold sysSbrk growproc at hs
  split at hs
  · split at hs
    · obtain ⟨⟨m₁, pt, o⟩, ha, hs⟩ := bind_ok hs
      have hb := uvmalloc_below h.wf.topped h.top h.stack h.mapped ha
      cases o with
      | none | some =>
        simp only [Except.ok.injEq, Prod.mk.injEq] at hs
        obtain ⟨rfl, rfl, rfl⟩ := hs
        exact hb
    · split at hs
      · obtain ⟨⟨m₁, pt, sz⟩, hd, hs⟩ := bind_ok hs
        simp only [Except.ok.injEq, Prod.mk.injEq] at hs
        obtain ⟨rfl, rfl, rfl⟩ := hs
        exact uvmdealloc_below h.top hstack h.mapped hd
      · simp only [Except.ok.injEq, Prod.mk.injEq] at hs
        obtain ⟨rfl, rfl, rfl⟩ := hs
        exact h.mapped
  · split at hs
    · simp only [Except.ok.injEq, Prod.mk.injEq] at hs
      obtain ⟨rfl, rfl, rfl⟩ := hs
      exact h.mapped
    · rename_i hle
      simp only [Except.ok.injEq, Prod.mk.injEq] at hs
      obtain ⟨rfl, rfl, rfl⟩ := hs
      exact fun v hlt hv => (h.mapped v hlt hv).trans_le (Nat.not_lt.mp hle)

/-! ## Every event -/

/-- A new image has its stack and its guard page mapped, and nothing else. -/
theorem ImageTable.below {tr tf mem : Pa} {sz : Nat} {pt : PageTable} (h : ImageTable tr tf sz mem pt) : pt.Below sz := by
  intro v hlt hv
  have htop := h.top.2.2
  have hlow := h.top.1
  by_contra hge
  rw [h.rest v (by omega) (by omega) (by omega) (by omega)] at hv
  cases hv

theorem ExecDone.below {path : List Char} {fs₀ fs : Fs} {ip sp : Nat} {mem : Pa} {pt : PageTable}
    (h : ExecDone m p path m' p' fs₀ fs ip mem pt sp) : p'.pagetable.Below p'.sz := by
  rw [h.proc, commit_eq]
  exact h.table.below

/-- The child of a fork: its user leaves are copies of those of its parent that lie below the size. -/
theorem ForkChild.leaves {q np : Proc} (h : ForkChild p q i np) (hp : p.Wf) : np.Wf ∧ np.sz = p.sz ∧
    (∀ v < userPages, v * 4096 < p.sz → ∀ pte, p.pagetable.leaf v = some pte → ∃ mem, np.pagetable.leaf v = some ⟨mem, pte.perm⟩) ∧
    ∀ v < userPages, (np.pagetable.leaf v).isSome → v * 4096 < p.sz ∧ (p.pagetable.leaf v).isSome := by
  cases h with
  | mk table copy =>
    rename_i pid tf pt pt' m₁ m₂ m₃ m₄
    rcases procPagetable_spec table with ⟨hn, -⟩ | ⟨pt₀, hs, -, hfresh⟩
    · cases hn
    obtain rfl := Option.some.inj hs
    rcases uvmcopy_spec copy hp.topped hfresh.topped with ⟨-, hc⟩ | ⟨hf, -⟩
    swap
    · cases hf
    have hle := hc.le_userPages hp.topped hfresh.topped
    refine ⟨⟨⟨?_, ⟨⟨m₁.trampoline, ⟨true, false, true, false⟩⟩, ?_, rfl⟩, ⟨⟨tf, ⟨true, true, false, false⟩⟩, ?_, rfl, rfl⟩⟩,
      hp.stack, fun va hva => hp.tracked va ?_⟩, rfl, ?_, ?_⟩
    · change pt'.root.isSome
      rw [hc.root]
      exact hfresh.root
    · exact (hc.outside _ (by omega)).trans hfresh.trampoline
    · exact (hc.outside _ hle).trans hfresh.trapframe
    · change va ∈ (p.pages.map forkPage).map PageInfo.va at hva
      rwa [List.map_map] at hva
    · intro v hv hlt pte hpte
      obtain ⟨-, mem, hmem, -⟩ := hc.mapped v (by omega) pte hpte
      exact ⟨mem, hmem⟩
    · intro v hv hleaf
      change (pt'.leaf v).isSome at hleaf
      have hnone := hfresh.rest v (by omega) (by omega)
      by_cases hin : v < (p.sz + 4095) / 4096
      · refine ⟨by omega, ?_⟩
        by_contra hn
        rw [hc.unmapped v hin (by simpa using hn), hnone] at hleaf
        cases hleaf
      · rw [hc.outside v (Nat.not_lt.mp hin), hnone] at hleaf
        cases hleaf

/-- The child of a fork has the pages of its parent mapped that lie below the size. -/
theorem ForkChild.extent {q np : Proc} (h : ForkChild p q i np) (hp : Extent p) : Extent np := by
  obtain ⟨hwf, hsz, -, hmapped⟩ := h.leaves hp.wf
  refine ⟨?_, hwf, ?_⟩
  · cases h with
    | mk =>
      refine ⟨hp.stack, hp.text, hp.data, hp.top, ?_⟩
      intro e' he' hs'
      obtain ⟨e, he, rfl⟩ := List.mem_map.mp he'
      unfold forkPage at hs'
      split at hs'
      · nomatch hs'
      · contradiction
  · intro v hlt hv
    rw [hsz]
    exact (hmapped v hlt hv).1

theorem extent_kept : Kept Covers Extent where
  page := fun hs h => hs.extent h
  sbrk := by
    intro m m' p p' n eager r hG hs h
    have hsafe : ¬shrinksPastTrapframe p n := not_shrinksPast h.top
    refine ⟨hG, ((sysSbrk_spec h.wf hsafe hs).flows h.wf hsafe).2.1, sysSbrk_below h ?_ hs⟩
    have hstack := hG.stack
    rw [(sysSbrk_env hs).2] at hstack
    exact hstack
  exec := by
    intro m m' p p' path argv o hG hargs hc h
    obtain ⟨-, ⟨-, hf⟩ | ⟨argc, fs₀, fs, ip, mem, pt, sp, -, hd⟩⟩ := kexec_spec h.wf.toHasTable (Or.inr h.wf.stack) hargs hc
    · obtain ⟨hpt, htf, hst, hpages, -⟩ := hf.slot
      refine ⟨hG, h.wf.of_fields hpt htf hst hpages, ?_⟩
      cases hf <;> exact h.mapped
    · refine ⟨hG, (hd.wf ?_).1, hd.below⟩
      obtain ⟨pte, -, -, htf⟩ := h.wf.trapframe
      rw [htf]
      rfl
  fork := fun hc h => hc.extent h
  other := by
    intro p tf ofile cwd parent killed state h
    exact ⟨⟨h.stack, h.text, h.data, h.top, h.swapped⟩, h.wf.of_fields rfl rfl rfl rfl, h.mapped⟩

/-- The process there is at boot has just executed `/init`. -/
theorem Boot.done {s : Sys} {k : Nat} (hb : Boot s) (hk : (s.proc k).live) : ∃ m q path m' fs₀ fs ip mem pt sp,
    ExecDone m q path m' (s.proc k) fs₀ fs ip mem pt sp ∧ (s.proc k).Wf := by
  obtain ⟨s₀, j, m₁, tf, pt, fs, ip, m, p, argc, hb⟩ := hb.booted
  have hproc : s.proc k = p := by
    rw [hb.result] at hk ⊢
    change ((s₀.put j m p).proc k).live at hk
    change (s₀.put j m p).proc k = p
    by_cases hkj : k = j
    · rw [hkj, Sys.put_proc_self]
    · rw [Sys.put_proc_of_ne _ _ _ hkj, hb.pre.proc k] at hk
      exact absurd rfl hk.ne_unused
  obtain ⟨-, fs₀, fs', ip', mem, pt', sp, hd⟩ := hb.done
  rw [hproc]
  exact ⟨_, _, _, _, _, _, _, _, _, _, hd, (hd.wf rfl).1⟩

/-- The first process. -/
theorem Boot.extent {s : Sys} (hb : Boot s) (hcovers : EveryLive Covers s) : EveryLive Extent s := by
  intro k hk
  obtain ⟨m, q, path, m', fs₀, fs, ip, mem, pt, sp, hd, hwf⟩ := hb.done hk
  exact ⟨hcovers k hk, hwf, hd.below⟩

end Xv6SnifferBakery.Kernel
