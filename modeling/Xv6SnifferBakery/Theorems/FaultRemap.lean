import Xv6SnifferBakery.Lemmas.Answer

/-!
# Faults on mapped pages

After the special cases of a mapped page `handle_page_fault` goes on as if the page were not mapped. A fault on a mapped page that is
none of the special cases, a fetch from the stack for one, runs into the panic of `mappages`, unless it fails before that for want of
memory.
-/

namespace Xv6SnifferBakery.Kernel

open Lib

variable {m m' : Machine} {p p' : Proc} {i va : Nat} {access : Access}

/-! ## Everything but `mappages` -/

theorem createSwapFile_noRemap (m : Machine) (p : Proc) : NoRemap (createSwapFile m p) := by
  unfold createSwapFile
  refine Avoids.ite (fun _ => Avoids.ok _) (fun _ => Avoids.bind ?_ ?_)
  · refine (create_safe _ _ _ _ _ _).noRemap.bind ?_
    rintro ⟨fs, o⟩ _
    cases o with
    | none => exact Avoids.ok _
    | some ip =>
      simp only
      split <;> exact Avoids.ok _
  · rintro ⟨fs, o⟩ _
    cases o <;> exact Avoids.ok _

theorem swapOutPage_noRemap (m : Machine) (p : Proc) (va slot : Nat) : NoRemap (swapOutPage m p va slot) := by
  refine (createSwapFile_noRemap m p).bind ?_
  rintro ⟨m₁, p₁, b⟩ _
  cases b with
  | false => exact Avoids.ok _
  | true =>
    refine (lookup_avoids nofun).bind (fun o _ => ?_)
    cases o with
    | none => exact Avoids.ok _
    | some pte =>
      exact (ilock_safe _ _).noRemap.bind (fun _ _ => (writei_safe _ _ _ _ _).noRemap.bind (fun _ _ => Avoids.ok _))

/-- An eviction maps nothing. -/
theorem evictPageFifo_noRemap (m : Machine) (p : Proc) : NoRemap (evictPageFifo m p) := by
  have hunmap : ∀ (m : Machine) (p : Proc) (va : Nat), NoRemap (evictUnmap m p va) := by
    intro m p va
    exact uvmunmap_noRemap.bind (fun _ _ => Avoids.ok _)
  unfold evictPageFifo
  split
  · exact Avoids.ok _
  split
  · exact Avoids.ok _
  refine (lookup_avoids nofun).bind (fun o _ => ?_)
  cases o with
  | none => exact Avoids.ok _
  | some pte =>
    refine Avoids.ite (fun _ => ?_) (fun _ => hunmap _ _ _)
    unfold evictDirty
    split
    · exact Avoids.ok _
    · refine (createSwapFile_noRemap _ _).bind ?_
      rintro ⟨m₁, p₁, b⟩ _
      cases b with
      | false => exact Avoids.ok _
      | true =>
        refine (swapOutPage_noRemap _ _ _ _).bind ?_
        rintro ⟨m₂, p₂, b⟩ _
        cases b with
        | false => exact Avoids.ok _
        | true => exact hunmap _ _ _

theorem kallocEvict_noRemap (m : Machine) (p : Proc) : NoRemap (kallocEvict m p) := by
  unfold kallocEvict
  split
  · exact Avoids.ok _
  · refine (evictPageFifo_noRemap m p).bind ?_
    rintro ⟨m₁, p₁, b⟩ _
    cases b with
    | false => exact Avoids.ok _
    | true =>
      simp only
      split <;> exact Avoids.ok _

/-! ## Loads of a mapped page -/

/-- The end of a load panics only when the page is mapped. -/
theorem faultMap_remap {mem : Pa} {perm : Perm} (hal : va % 4096 = 0) (hlt : va < maxVa)
    (h : faultMap m p i va mem perm = .error .mappagesRemap) : (p.pagetable.leaf (va / 4096)).isSome := by
  by_contra hn
  have hfree : p.pagetable.leaf (va / 4096) = none := by simpa using hn
  have hsafe : NoRemap (faultMap m p i va mem perm) := by
    refine (mappages_safe hal hlt hfree).noRemap.bind ?_
    rintro ⟨m₁, pt, b⟩ _
    cases b with
    | false => exact (kfree_safe _ _).noRemap.bind (fun _ _ => Avoids.ok _)
    | true => exact Avoids.ok _
  exact hsafe _ h rfl

/-- Page `va` is mapped and everything that a load of it does before it maps the page can be done, with the page still mapped after
it: an eviction takes another page. -/
def ReachesMap (m : Machine) (p : Proc) (va : Nat) : Prop :=
  ∃ i p₀ e m₁ p₁ m₂ mem m₃ p₂ page, Tracked p va i p₀ ∧ p₀.pages[i]? = some e ∧
    Obtained m p₀ i va (sourceOf p₀ e va) m₁ p₁ m₂ mem m₃ p₂ page ∧ (p₁.pagetable.leaf (va / 4096)).isSome

/-- After `kalloc`, a load that panics had its contents. -/
theorem obtained_of_remap {src : Source} {x : Kern (Machine × Proc × Option Pa)} (hx : x = kallocEvict m p)
    {f : Machine → Proc → Pa → Kern (Machine × Proc × Bool)} (hal : va % 4096 = 0) (hlt : va < maxVa)
    (hf : ∀ m₁ p₁ m₂ mem, Freed m p m₁ p₁ → kalloc m₁ = some (m₂, mem) → f m₂ p₁ mem = .error .mappagesRemap →
      ∃ m₃ p₂ page, Fetched m₂ p₁ i va src m₃ p₂ page ∧
        faultMap (m₃.fill mem page) p₂ i va mem (src.perm p₁ va) = .error .mappagesRemap)
    (h : (x >>= fun r => match r with
      | (m, p, none) => .ok (m, p, false)
      | (m, p, some mem) => f m p mem) = .error .mappagesRemap) :
    ∃ m₁ p₁ m₂ mem m₃ p₂ page, Obtained m p i va src m₁ p₁ m₂ mem m₃ p₂ page ∧ (p₁.pagetable.leaf (va / 4096)).isSome := by
  subst hx
  rcases bind_error h with hk | ⟨⟨m₂, p₁, o⟩, hk, hrest⟩
  · exact absurd rfl (kallocEvict_noRemap m p _ hk)
  · rcases kallocEvict_cases hk with ⟨rfl, -⟩ | ⟨mem, m₁, rfl, hfreed, halloc⟩
    · nomatch hrest
    · obtain ⟨m₃, p₂, page, hfetch, hmap⟩ := hf m₁ p₁ m₂ mem hfreed halloc hrest
      refine ⟨m₁, p₁, m₂, mem, m₃, p₂, page, ⟨hfreed, halloc, hfetch⟩, ?_⟩
      rw [← hfetch.same.2.2.1]
      exact faultMap_remap hal hlt hmap

/-- A load that panics had its contents, and the page is mapped. -/
theorem faultLoad_remap {e : PageInfo} (hal : va % 4096 = 0) (hlt : va < maxVa) (he : p.pages[i]? = some e)
    (h : faultLoad m p i va = .error .mappagesRemap) :
    ∃ m₁ p₁ m₂ mem m₃ p₂ page, Obtained m p i va (sourceOf p e va) m₁ p₁ m₂ mem m₃ p₂ page ∧ (p₁.pagetable.leaf (va / 4096)).isSome := by
  unfold faultLoad at h
  simp only [he] at h
  unfold sourceOf
  by_cases hs : e.state = .swapped
  · rw [if_pos hs] at h ⊢
    refine obtained_of_remap rfl hal hlt ?_ h
    intro m₁ p₁ m₂ mem _ _ hrest
    split at hrest
    · rename_i f e' hfile hentry
      rcases bind_error hrest with hl | ⟨fs, hl, hrest⟩
      · exact absurd rfl ((ilock_safe _ _).noRemap _ hl)
      · split at hrest
        · rcases bind_error hrest with hk | ⟨m₃, hk, hrest⟩
          · exact absurd rfl ((kfree_safe _ _).noRemap _ hk)
          · nomatch hrest
        · rename_i hread
          exact ⟨_, _, _, .swap hfile hentry hl (not_not.mp hread), hrest⟩
    · nomatch hrest
  · rw [if_neg hs] at h ⊢
    by_cases hx : inExec p va
    · rw [if_pos hx] at h ⊢
      refine obtained_of_remap rfl hal hlt ?_ h
      intro m₁ p₁ m₂ mem _ _ hrest
      split at hrest
      · rename_i hr
        rcases bind_error hrest with hl | ⟨fs, hl, hrest⟩
        · exact absurd rfl ((ilock_safe _ _).noRemap _ hl)
        · exact ⟨_, _, _, .execRead hr hl, hrest⟩
      · rename_i hr
        exact ⟨_, _, _, .exec (by simpa using hr), hrest⟩
    · rw [if_neg hx] at h ⊢
      refine obtained_of_remap rfl hal hlt ?_ h
      intro m₁ p₁ m₂ mem _ _ hrest
      exact ⟨_, _, _, .zero, hrest⟩

/-- Loading the page of a fault panics exactly when everything before `mappages` can be done and the page is still mapped then. -/
theorem loadEntry_remap_iff (hwf : p.Aligned) (hal : va % 4096 = 0) (hlt : va < maxVa) :
    loadEntry m p va = .error .mappagesRemap ↔ ReachesMap m p va := by
  constructor
  · intro h
    rcases tracked_or_full p va with ⟨i, p₀, htr⟩ | ⟨hnone, hfull⟩
    · obtain ⟨e, he, -⟩ := htr.entry hal
      rw [htr.loadEntry] at h
      obtain ⟨m₁, p₁, m₂, mem, m₃, p₂, page, hob, hmapped⟩ := faultLoad_remap hal hlt he h
      exact ⟨i, p₀, e, m₁, p₁, m₂, mem, m₃, p₂, page, htr, he, hob, hmapped⟩
    · rw [loadEntry_full hnone hfull] at h
      nomatch h
  · rintro ⟨i, p₀, e, m₁, p₁, m₂, mem, m₃, p₂, page, htr, he, hob, hmapped⟩
    rw [← hob.pagetable] at hmapped
    rw [htr.loadEntry, hob.eq (htr.aligned hwf) he, faultMap, mappages_remap hal hmapped]
    rfl

/-! ## Every fault -/

/-- A fault for page `va` falls through to the panic of `mappages`: the page is mapped, the tests let the fault load it, it has an entry
or gets one, its contents can be read, and there is a page of memory: a free one, or that of another page, the victim. -/
structure FallsThrough (m : Machine) (p : Proc) (va : Nat) (access : Access) : Prop where
  mapped : (p.pagetable.leaf (va / 4096)).isSome
  loads : Loads p va access
  enters : Enters p va
  read : CanRead m.fs p va
  memory : m.freelist ≠ [] ∨ ∃ x, CanEvict m p x ∧ x.va ≠ va

theorem reachesMap_iff (hs : Settled m p) (hload : Loads p va access) (hal : va % 4096 = 0) :
    ReachesMap m p va ↔ FallsThrough m p va access := by
  have hpath : ReachesMap m p va ↔ _ := loading_iff (Q := fun pt _ => (pt.leaf (va / 4096)).isSome) hs hload hal
  rw [hpath]
  constructor
  · rintro ⟨henters, hread, pt, rest, hsupply, hmapped⟩
    cases hsupply with
    | free hlist => exact ⟨hmapped, hload, henters, hread, Or.inl (by rw [hlist]; exact List.cons_ne_nil _ _)⟩
    | evict hempty hv =>
      rw [hv.leaf hs.aligned hal] at hmapped
      split at hmapped
      · cases hmapped
      · rename_i hne
        exact ⟨hmapped, hload, henters, hread, Or.inr ⟨_, hv, hne⟩⟩
  · rintro ⟨hmapped, -, henters, hread, hmemory⟩
    refine ⟨henters, hread, ?_⟩
    cases hlist : m.freelist with
    | cons mem rest => exact ⟨_, _, .free hlist, hmapped⟩
    | nil =>
      obtain ⟨x, hv, hne⟩ := hmemory.resolve_left (not_not.mpr hlist)
      refine ⟨_, _, .evict hlist hv, ?_⟩
      rw [hv.leaf hs.aligned hal, if_neg hne]
      exact hmapped

/-- A fault panics with a remap exactly when it falls through. -/
theorem handlePageFault_remap_iff {addr : Nat} {fromUser : Bool} (hs : Settled m p) :
    handlePageFault m p addr access fromUser = .error .mappagesRemap ↔ FallsThrough m p (pgRoundDown addr) access := by
  have hal := pgRoundDown_mod addr
  by_cases hload : Loads p (pgRoundDown addr) access
  · rw [handlePageFault_loads hload, loadEntry_remap_iff hs.aligned hal hload.lt, reachesMap_iff hs hload hal]
  · refine ⟨fun h => ?_, fun h => absurd h.loads hload⟩
    by_cases hgrant : ∃ i, GrantsWrite p (pgRoundDown addr) access i
    · obtain ⟨i, hgrant⟩ := hgrant
      rw [handlePageFault_grants hgrant] at h
      cases h
    · rw [handlePageFault_refused hload (fun i hi => hgrant ⟨i, hi⟩)] at h
      cases h

/-- In every state that a run from boot reaches, a fault of a process at any address and for any access maps a page that is mapped
exactly when it falls through. -/
theorem fault_remap_iff {t : Sys} {i : Nat} (h : Reach ColdBoot Step t) (hi : i < nProc) (hl : (t.proc i).live) (addr : Nat)
    (access : Access) (fromUser : Bool) :
    handlePageFault t.m (t.proc i) addr access fromUser ≠ .error .mappagesRemap ↔
      ¬FallsThrough t.m (t.proc i) (pgRoundDown addr) access :=
  not_congr (handlePageFault_remap_iff (reach_settled h hi hl))

/-- A fetch from the stack of the first process. -/
theorem fault_remap_iff_stack : handlePageFault (smallBoot smallFiles 32).m ((smallBoot smallFiles 32).proc 0) 12288 .exec true ≠
      .error .mappagesRemap ↔ ¬FallsThrough (smallBoot smallFiles 32).m ((smallBoot smallFiles 32).proc 0) (pgRoundDown 12288) .exec :=
  fault_remap_iff (Reach.of_init smallBoot_cold) (by decide) smallBoot_live 12288 .exec true

/-- A process that jumps into its stack page reaches the panic. -/
theorem fault_remaps_stack : (¬∀ t, Reach ColdBoot Step t → ∀ i < nProc, (t.proc i).live → ∀ addr access fromUser,
      handlePageFault t.m (t.proc i) addr access fromUser ≠ .error .mappagesRemap) ∧
    enabled (smallBoot smallFiles 32) (.fault 0 12288 .exec) ∧
    perform (smallBoot smallFiles 32) (.fault 0 12288 .exec) = .error .mappagesRemap := by
  have hpanic : (match handlePageFault (smallBoot smallFiles 32).m ((smallBoot smallFiles 32).proc 0) 12288 .exec true with
      | .error e => decide (e = .mappagesRemap)
      | .ok _ => false) = true := by
    decide +kernel
  have hremap : handlePageFault (smallBoot smallFiles 32).m ((smallBoot smallFiles 32).proc 0) 12288 .exec true =
      .error .mappagesRemap := by
    split at hpanic
    · rename_i e he
      rw [he, of_decide_eq_true hpanic]
    · cases hpanic
  refine ⟨fun hall => ?_, by decide +kernel, ?_⟩
  · exact hall _ (Reach.of_init smallBoot_cold) 0 (by decide) smallBoot_live 12288 .exec true hremap
  · change (handlePageFault _ _ 12288 .exec true >>= _) = _
    rw [hremap]
    rfl

end Xv6SnifferBakery.Kernel
