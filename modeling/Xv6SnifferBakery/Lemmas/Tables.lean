import Xv6SnifferBakery.Lemmas.Vm

/-!
# Making, copying and freeing address spaces

`uvmcopy`, `proc_pagetable` and `proc_freepagetable`.
-/

namespace Xv6SnifferBakery.Kernel

open Lib

variable {m m' : Machine} {pt pt' : PageTable}

/-! ## The stack region -/

/-- Where a stack can end: there is room for it and its guard page, below the trapframe page. -/
def StackTop (st : Nat) : Prop := 8192 ≤ st ∧ st ≤ trapframeVa ∧ st % 4096 = 0

theorem guardBase_eq {st : Nat} (h : StackTop st) : guardBase st = st - 8192 := by
  obtain ⟨h1, h2, -⟩ := h
  have : st < 2 ^ 64 := lt_of_le_of_lt h2 (by decide)
  unfold guardBase userStack pgSize
  rw [sub64_of_le (b := 1 * 4096) (by omega) this, sub64_of_le (by omega) (by omega)]
  omega

theorem stackBase_eq {st : Nat} (h : StackTop st) : stackBase st = st - 4096 := by
  obtain ⟨h1, h2, -⟩ := h
  have : st < 2 ^ 64 := lt_of_le_of_lt h2 (by decide)
  unfold stackBase userStack pgSize
  rw [sub64_of_le (by omega) this]

theorem trapframeVa_eq : trapframeVa = userPages * 4096 := by
  rw [userPages_eq]
  decide

/-! ## `uvmcopy` -/

/-- The loop of `uvmcopy` when the pages below `hi` have been copied: a page mapped in `old` is mapped in the new table, with the
same permissions, to a page that was free and holds a copy. -/
structure Copies (old : PageTable) (m : Machine) (new : PageTable) (hi : Nat) (m' : Machine) (new' : PageTable) : Prop where
  alloc : Alloc m m'
  moves : Moves m new.pages m' new'.pages
  root : new'.root = new.root
  outside : ∀ v, hi ≤ v → new'.leaf v = new.leaf v
  unmapped : ∀ v < hi, old.leaf v = none → new'.leaf v = new.leaf v
  mapped : ∀ v < hi, ∀ pte, old.leaf v = some pte → new.leaf v = none ∧ ∃ q, new'.leaf v = some ⟨q, pte.perm⟩ ∧
    ((free m + new.pages).Nodup → pte.pa ∉ m.freelist → q ∉ m'.freelist ∧ m'.mem q = m.mem pte.pa)

theorem Copies.refl (old : PageTable) (m : Machine) (new : PageTable) : Copies old m new 0 m new :=
  ⟨Alloc.refl m, Moves.refl _ _, rfl, fun _ _ => rfl, fun _ h => by omega, fun _ h => by omega⟩

section Copies

variable {old new new₁ new₂ : PageTable} {hi : Nat} {m₁ m₂ m₃ : Machine} {pa : Pa} {pte : Pte}

/-- Past a page that is not mapped. -/
theorem Copies.skip (h : Copies old m new hi m₁ new₁) (hnone : old.leaf hi = none) : Copies old m new (hi + 1) m₁ new₁ := by
  refine ⟨h.alloc, h.moves, h.root, fun v hv => h.outside v (by omega), fun v hv hn => ?_, fun v hv p hp => ?_⟩
  · by_cases he : v = hi
    · exact h.outside v (by omega)
    · exact h.unmapped v (by omega) hn
  · have hne : v ≠ hi := fun he => by simp [he, hnone] at hp
    exact h.mapped v (by omega) p hp

/-- Past a page that is mapped: its copy is the page `kalloc` gave, and `mappages` writes to no page but new tables. -/
theorem Copies.copy {i : Nat} (h : Copies old m new (i / 4096) m₁ new₁) (hnew : new.Topped) (hold : old.leaf (i / 4096) = some pte)
    (hk : kalloc m₁ = some (m₂, pa)) (hs : MapSpec (m₂.fill pa (m₂.mem pte.pa)) new₁ i pa pte.perm m₃ new₂) :
    Copies old m new (i / 4096 + 1) m₃ new₂ := by
  obtain ⟨ha, hq⟩ := kalloc_alloc hk
  have ha₃ : Alloc m₁ m₃ := (ha.fill hq _).trans hs.alloc
  have hfree : new.leaf (i / 4096) = none := by rw [← h.outside _ (le_refl _), hs.free]
  have hlt : i / 4096 < userPages := by
    have hlt := hs.lt
    have hu := userPages_eq
    unfold maxVa at hlt
    by_contra hge
    have hv : i / 4096 = userPages ∨ i / 4096 = userPages + 1 := by omega
    rcases hv with hv | hv
    · exact absurd hnew.1 (by rw [← hv, hfree]; simp)
    · exact absurd hnew.2 (by rw [← hv, hfree]; simp)
  refine ⟨h.alloc.trans ha₃, ?_, by rw [hs.root, h.root], fun v hv => ?_, fun v hv hn => ?_, fun v hv p hp => ?_⟩
  · have h2 := ((kalloc_moves hk).trans (Moves.fill (m₂.mem pte.pa) (Multiset.mem_singleton_self pa))).frame new₁.pages
    have h3 := hs.moves
    rw [leafFrame, if_pos hlt] at h3
    exact h.moves.trans ((h2.congr (zero_add _) (add_comm _ _)).trans h3)
  · rw [hs.leaf, Function.update_of_ne (by omega), h.outside v (by omega)]
  · have hne : v ≠ i / 4096 := fun he => by simp [he, hold] at hn
    rw [hs.leaf, Function.update_of_ne hne, h.unmapped v (by omega) hn]
  · by_cases he : v = i / 4096
    · subst he
      obtain rfl := Option.some.inj (hold.symm.trans hp)
      refine ⟨hfree, pa, by rw [hs.leaf, Function.update_self], fun hn hpte => ?_⟩
      -- no page is free twice, so the page taken is not free any more
      have hn₁ : m₁.freelist.Nodup := by
        have hn' : (free m₁ + new₁.pages).Nodup := h.moves.pages ▸ hn
        exact Multiset.coe_nodup.mp (Multiset.nodup_add.mp hn').1
      rw [(kalloc_some hk).1] at hn₁
      have hpa : pa ∉ (m₂.fill pa (m₂.mem pte.pa)).freelist := (List.nodup_cons.mp hn₁).1
      have hpte₁ : pte.pa ∉ m₁.freelist := h.alloc.kept _ hpte
      refine ⟨hs.alloc.kept _ hpa, ?_⟩
      rw [hs.alloc.mem _ hpa, Machine.fill_mem_self, ha.mem _ hpte₁, h.alloc.mem _ hpte]
    · obtain ⟨hnone, q, hleaf, hcopy⟩ := h.mapped v (by omega) p hp
      refine ⟨hnone, q, by rw [hs.leaf, Function.update_of_ne he, hleaf], fun hn hpte => ?_⟩
      obtain ⟨hqf, hqm⟩ := hcopy hn hpte
      exact ⟨ha₃.kept q hqf, (ha₃.mem q hqf).trans hqm⟩

/-- A page that was taken and given back leaves the copy where it was. -/
theorem Copies.giveBack {i : Nat} {perm : Perm} (h : Copies old m new hi m₁ new₁) (hk : kalloc m₁ = some (m₂, pa)) {page : Page}
    (hm : mappages (m₂.fill pa page) new₁ i pgSize pa perm = .ok (m₃, new₂, false)) (hf : kfree m₃ pa = .ok m') :
    Copies old m new hi m' new₂ := by
  obtain ⟨hr, -⟩ | ⟨-, hs⟩ := mappages_page hm
  · nomatch hr
  obtain ⟨ha, hq⟩ := kalloc_alloc hk
  have ha' : Alloc m₁ m' := ((ha.fill hq _).trans hs.alloc).kfree hq hf
  have hback : Moves m₁ new₁.pages m' new₂.pages := by
    have h1 := ((kalloc_moves hk).trans (Moves.fill page (Multiset.mem_singleton_self pa))).frame new₁.pages
    have h2 := (hs.moves.frame {pa}).congr (add_comm _ _) (add_comm _ _)
    have h3 := (kfree_moves hf).frame new₂.pages
    exact (h1.congr (zero_add _) rfl).trans (h2.trans (h3.congr rfl (zero_add _)))
  refine ⟨h.alloc.trans ha', h.moves.trans hback, by rw [hs.root, h.root], fun v hv => by rw [hs.leaf, h.outside v hv],
    fun v hv hn => by rw [hs.leaf, h.unmapped v hv hn], fun v hv p hp => ?_⟩
  obtain ⟨hnone, q, hleaf, hcopy⟩ := h.mapped v hv p hp
  refine ⟨hnone, q, by rw [hs.leaf, hleaf], fun hn hpte => ?_⟩
  obtain ⟨hqf, hqm⟩ := hcopy hn hpte
  exact ⟨ha'.kept q hqf, (ha'.mem q hqf).trans hqm⟩

/-- When both tables have a trapframe page, what was copied lies below it. -/
theorem Copies.le_userPages (h : Copies old m new hi m₁ new₁) (hold : old.Topped) (hnew : new.Topped) : hi ≤ userPages := by
  by_contra hlt
  obtain ⟨pte, hp⟩ := Option.isSome_iff_exists.mp hold.1
  have hnone := (h.mapped userPages (by omega) pte hp).1
  exact absurd hnew.1 (by rw [hnone]; simp)

/-- The loop of `uvmcopy`. -/
theorem uvmcopyLoop_spec {n i : Nat} {r : Option Nat} (hnew : new.Topped) (h : uvmcopyLoop old n m₁ new₁ i = .ok (m₂, new₂, r))
    (hc : Copies old m new (i / 4096) m₁ new₁) (hi : i % 4096 = 0) :
    (r = none ∧ Copies old m new (i / 4096 + n) m₂ new₂) ∨ ∃ j, r = some j ∧ Copies old m new (j / 4096) m₂ new₂ := by
  induction n generalizing m₁ new₁ i with
  | zero =>
    simp only [uvmcopyLoop, Except.ok.injEq, Prod.mk.injEq] at h
    obtain ⟨rfl, rfl, rfl⟩ := h
    exact Or.inl ⟨rfl, hc⟩
  | succ n ih =>
    have hdiv : (i + pgSize) / 4096 = i / 4096 + 1 := by
      rw [pgSize]
      omega
    have hmod : (i + pgSize) % 4096 = 0 := by
      rw [pgSize]
      omega
    rw [uvmcopyLoop] at h
    obtain ⟨o, hl, h⟩ := bind_ok h
    unfold lookup at hl
    split at hl
    · cases hl
    obtain rfl := Except.ok.inj hl
    cases ho : old.leaf (i / 4096) with
    | none =>
      simp only [ho] at h
      have := ih h (by rw [hdiv]; exact hc.skip ho) hmod
      rwa [hdiv, Nat.add_right_comm, Nat.add_assoc] at this
    | some pte =>
      simp only [ho] at h
      cases hk : kalloc m₁ with
      | none =>
        simp only [hk, Except.ok.injEq, Prod.mk.injEq] at h
        obtain ⟨rfl, rfl, rfl⟩ := h
        exact Or.inr ⟨i, rfl, hc⟩
      | some x =>
        obtain ⟨m₃, mem⟩ := x
        simp only [hk] at h
        obtain ⟨⟨m₄, pt₄, b⟩, hm, h⟩ := bind_ok h
        cases b with
        | true =>
          obtain ⟨-, hs⟩ | ⟨hr, -⟩ := mappages_page hm
          · have := ih h (by rw [hdiv]; exact hc.copy hnew ho hk hs) hmod
            rwa [hdiv, Nat.add_right_comm, Nat.add_assoc] at this
          · cases hr
        | false =>
          obtain ⟨m₅, hf, h⟩ := bind_ok h
          simp only [Except.ok.injEq, Prod.mk.injEq] at h
          obtain ⟨rfl, rfl, rfl⟩ := h
          exact Or.inr ⟨i, rfl, hc.giveBack hk hm hf⟩

/-- `uvmcopy`. When it fails, every page it took is free again, those of the new table apart, and the two top pages of the new table are
what they were. -/
theorem uvmcopy_spec {sz : Nat} {r : Bool} (h : uvmcopy m old new sz = .ok (m₂, new₂, r)) (hold : old.Topped) (hnew : new.Topped) :
    (r = true ∧ Copies old m new ((sz + 4095) / 4096) m₂ new₂) ∨
    (r = false ∧ Moves m new.pages m₂ new₂.pages ∧ new₂.root = new.root ∧ ∀ v, userPages ≤ v → new₂.leaf v = new.leaf v) := by
  obtain ⟨⟨m₁, new₁, o⟩, hl, h⟩ := bind_ok h
  have hspec := uvmcopyLoop_spec hnew hl (by simpa using Copies.refl old m new) rfl
  cases o with
  | none =>
    simp only [Except.ok.injEq, Prod.mk.injEq] at h
    obtain ⟨rfl, rfl, rfl⟩ := h
    obtain ⟨-, hc⟩ | ⟨j, hj, -⟩ := hspec
    · exact Or.inl ⟨rfl, by simpa using hc⟩
    · nomatch hj
  | some j =>
    obtain ⟨⟨m₃, new₃⟩, hu, h⟩ := bind_ok h
    simp only [Except.ok.injEq, Prod.mk.injEq] at h
    obtain ⟨rfl, rfl, rfl⟩ := h
    obtain ⟨hj, -⟩ | ⟨k, hj, hc⟩ := hspec
    · nomatch hj
    obtain rfl := Option.some.inj hj
    have hle := hc.le_userPages hold hnew
    have hs := uvmunmap_spec hu (fun v hv _ hlt => by rw [pgSize] at hlt; omega)
    refine Or.inr ⟨rfl, hc.moves.trans hs.moves, by rw [hs.root, hc.root], fun v hv => ?_⟩
    rw [hs.kept v (by rw [pgSize]; omega)]
    exact hc.outside v (hle.trans hv)

end Copies

/-! ## `proc_pagetable` -/

/-- The table of a new process: the trampoline and its trapframe page, and nothing else. -/
structure FreshTable (trampoline trapframe : Pa) (pt : PageTable) : Prop where
  root : pt.root.isSome
  trampoline : pt.leaf (userPages + 1) = some ⟨trampoline, ⟨true, false, true, false⟩⟩
  trapframe : pt.leaf userPages = some ⟨trapframe, ⟨true, true, false, false⟩⟩
  rest : ∀ v, v ≠ userPages → v ≠ userPages + 1 → pt.leaf v = none

theorem FreshTable.topped {tr tf : Pa} (h : FreshTable tr tf pt) : pt.Topped :=
  ⟨by rw [h.trapframe]; rfl, by rw [h.trampoline]; rfl⟩

/-- `uvmcreate`. -/
theorem uvmcreate_spec (h : uvmcreate m = some (m', pt)) :
    Alloc m m' ∧ Moves m 0 m' pt.pages ∧ pt.root.isSome ∧ ∀ v, pt.leaf v = none := by
  unfold uvmcreate at h
  split at h
  · nomatch h
  rename_i m₁ pa hk
  simp only [Option.some.injEq, Prod.mk.injEq] at h
  obtain ⟨rfl, rfl⟩ := h
  obtain ⟨ha, hq⟩ := kalloc_alloc hk
  refine ⟨ha.fill hq _, ?_, rfl, fun v => rfl⟩
  have hp : ({ PageTable.null with root := some pa } : PageTable).pages = PageTable.null.pages + {pa} := by
    rw [PageTable.pages, PageTable.pages, PageTable.tables, PageTable.tables]
    change slot (some pa) + _ + _ + _ = slot none + _ + _ + _ + _
    rw [slot_some, slot_none]
    change {pa} + content 512 PageTable.null.mid + content (512 * 512) PageTable.null.low + PageTable.null.frames = _
    abel
  rw [hp, PageTable.pages_null, zero_add]
  exact (kalloc_moves hk).trans (Moves.fill _ (Multiset.mem_singleton_self _))

/-- One of the two top pages mapped in a new table. -/
theorem mappages_top {va pa : Nat} {perm : Perm} {r : Bool} (h : mappages m pt va pgSize pa perm = .ok (m', pt', r))
    (hva : userPages ≤ va / 4096) :
    Moves m pt.pages m' pt'.pages ∧ pt'.root = pt.root ∧
    (r = true ∧ pt'.leaf = Function.update pt.leaf (va / 4096) (some ⟨pa, perm⟩) ∨ r = false ∧ pt'.leaf = pt.leaf) := by
  rcases mappages_page h with ⟨rfl, hs⟩ | ⟨rfl, hs⟩
  · have hm := hs.moves
    rw [leafFrame, if_neg (by omega), add_zero] at hm
    exact ⟨hm, hs.root, Or.inl ⟨rfl, hs.leaf⟩⟩
  · exact ⟨hs.moves, hs.root, Or.inr ⟨rfl, hs.leaf⟩⟩

/-- `proc_pagetable`: a fresh table made of free pages, or nothing. -/
theorem procPagetable_spec {trapframe : Pa} {r : Option PageTable} (h : procPagetable m trapframe = .ok (m', r)) :
    (r = none ∧ Moves m 0 m' 0) ∨ ∃ pt, r = some pt ∧ Moves m 0 m' pt.pages ∧ FreshTable m.trampoline trapframe pt := by
  unfold procPagetable at h
  split at h
  · simp only [Except.ok.injEq, Prod.mk.injEq] at h
    obtain ⟨rfl, rfl⟩ := h
    exact Or.inl ⟨rfl, Moves.refl _ _⟩
  rename_i m₁ pt₁ hc
  obtain ⟨-, hm₁, hroot₁, hleaf₁⟩ := uvmcreate_spec hc
  obtain ⟨⟨m₂, pt₂, b₂⟩, h2, h⟩ := bind_ok h
  obtain ⟨hm₂, hroot₂, hleaf₂⟩ := mappages_top h2 (by rw [trampolineVa_div]; omega)
  rw [trampolineVa_div] at hleaf₂
  rcases hleaf₂ with ⟨rfl, hleaf₂⟩ | ⟨rfl, hleaf₂⟩
  · obtain ⟨⟨m₃, pt₃, b₃⟩, h3, h⟩ := bind_ok h
    obtain ⟨hm₃, hroot₃, hleaf₃⟩ := mappages_top h3 (by rw [trapframeVa_div])
    rw [trapframeVa_div] at hleaf₃
    rcases hleaf₃ with ⟨rfl, hleaf₃⟩ | ⟨rfl, hleaf₃⟩
    · simp only [Except.ok.injEq, Prod.mk.injEq] at h
      obtain ⟨rfl, rfl⟩ := h
      refine Or.inr ⟨pt₃, rfl, hm₁.trans (hm₂.trans hm₃), ⟨by rw [hroot₃, hroot₂]; exact hroot₁, ?_, ?_, fun v h1 h2 => ?_⟩⟩
      · rw [hleaf₃, Function.update_of_ne (by omega), hleaf₂, Function.update_self, hm₁.trampoline]
      · rw [hleaf₃, Function.update_self]
      · rw [hleaf₃, Function.update_of_ne h1, hleaf₂, Function.update_of_ne h2, hleaf₁]
    · obtain ⟨⟨m₄, pt₄⟩, hu, h⟩ := bind_ok h
      obtain ⟨m₅, hf, h⟩ := bind_ok h
      simp only [Except.ok.injEq, Prod.mk.injEq] at h
      obtain ⟨rfl, rfl⟩ := h
      obtain ⟨rfl, rfl⟩ := uvmunmap_one_keep hu
      rw [trampolineVa_div] at hf
      have hfree := uvmfree_moves hf (by simp [hroot₃, hroot₂, hroot₁]) (fun v hv => by
        rw [PageTable.clearLeaf_leaf, hleaf₃, hleaf₂]
        by_cases hvt : v = userPages + 1
        · rw [hvt, Function.update_self]
        · rw [Function.update_of_ne hvt, Function.update_of_ne hvt, hleaf₁])
      rw [PageTable.pages_clearLeaf_top (by omega)] at hfree
      exact Or.inl ⟨rfl, hm₁.trans (hm₂.trans (hm₃.trans hfree))⟩
  · obtain ⟨m₃, hf, h⟩ := bind_ok h
    simp only [Except.ok.injEq, Prod.mk.injEq] at h
    obtain ⟨rfl, rfl⟩ := h
    have hfree := uvmfree_moves hf (by rw [hroot₂]; exact hroot₁) (fun v _ => by rw [hleaf₂, hleaf₁])
    exact Or.inl ⟨rfl, hm₁.trans (hm₂.trans hfree)⟩

/-- A fresh table takes three pages. -/
theorem FreshTable.card {tr tf : Pa} (h : FreshTable tr tf pt) : 3 ≤ pt.pages.card := by
  have hlow := pt.low_of_leaf userPages (by rw [h.trapframe]; rfl)
  have hmid := pt.mid_of_low _ hlow
  obtain ⟨low, hl⟩ := Option.isSome_iff_exists.mp hlow
  obtain ⟨mid, hm⟩ := Option.isSome_iff_exists.mp hmid
  obtain ⟨root, hr⟩ := Option.isSome_iff_exists.mp h.root
  have hlt := pt.mid_lt _ hmid
  have hmem : ∀ n (f : Nat → Option Pa) i a, i < n → f i = some a → 0 < (content n f).card := fun n f i a hi hf =>
    Multiset.card_pos_iff_exists_mem.mpr ⟨a, mem_content.mpr ⟨i, hi, hf⟩⟩
  have h1 := hmem 512 pt.mid _ mid (by omega) hm
  have h2 := hmem (512 * 512) pt.low _ low (by omega) hl
  have h3 : (slot pt.root).card = 1 := by rw [hr]; rfl
  rw [PageTable.pages, PageTable.tables, Multiset.card_add, Multiset.card_add, Multiset.card_add]
  omega

/-- `proc_pagetable` succeeds when three pages are free. -/
theorem procPagetable_iff {trapframe : Pa} {r : Option PageTable} (h : procPagetable m trapframe = .ok (m', r)) :
    r.isSome ↔ 3 ≤ m.freelist.length := by
  constructor
  · intro hr
    obtain ⟨rfl, -⟩ | ⟨pt, rfl, hm, hfresh⟩ := procPagetable_spec h
    · nomatch hr
    have hcard := congrArg Multiset.card hm.pages
    have := hfresh.card
    rw [Multiset.card_add, add_zero] at hcard
    change (free m').card + pt.pages.card = m.freelist.length at hcard
    omega
  · intro hlen
    by_contra hnone
    obtain rfl : r = none := by simpa using hnone
    unfold procPagetable at h
    split at h
    · rename_i hc
      unfold uvmcreate at hc
      split at hc
      · rename_i hk
        rw [kalloc_eq_none_iff.mp hk] at hlen
        nomatch hlen
      · nomatch hc
    rename_i m₁ pt₁ hc
    have hone : m.freelist.length = m₁.freelist.length + 1 := by
      unfold uvmcreate at hc
      split at hc
      · nomatch hc
      · rename_i m₀ pa hk
        obtain ⟨rfl, -⟩ := Prod.mk.inj (Option.some.inj hc)
        rw [(kalloc_some hk).1]
        rfl
    obtain ⟨⟨m₂, pt₂, b₂⟩, h2, h⟩ := bind_ok h
    rcases mappages_page h2 with ⟨rfl, hs⟩ | ⟨rfl, hs⟩
    · obtain ⟨⟨m₃, pt₃, b₃⟩, h3, h⟩ := bind_ok h
      cases b₃ with
      | true => nomatch h
      | false =>
        -- the trapframe page shares the tables of the trampoline
        have habsent := mappages_fail_absent h3
        have hlow := pt₂.low_of_leaf (trampolineVa / 4096) (by rw [hs.leaf, Function.update_self]; rfl)
        rw [show trampolineVa / 4096 / 512 = trapframeVa / 2 ^ 21 by decide, habsent] at hlow
        nomatch hlow
    · have := hs.few
      omega

/-! ## `proc_freepagetable` -/

/-- The loop over the caller's guard page and stack. -/
theorem freeStack_spec {st : Nat} {s s' : Machine × PageTable} (h : forFrom (freeStackPage st) 0 (stackPages st) s = .ok s')
    (hst : st = 0 ∨ StackTop st) :
    Moves s.1 s.2.pages s'.1 s'.2.pages ∧ s'.2.root = s.2.root ∧ ∀ v, s.2.leaf v = none → s'.2.leaf v = none := by
  refine forFrom_inv (fun _ t => Moves s.1 s.2.pages t.1 t.2.pages ∧ t.2.root = s.2.root ∧
    ∀ v, s.2.leaf v = none → t.2.leaf v = none) h ⟨Moves.refl _ _, rfl, fun _ hv => hv⟩ (fun i t t' _ hi hP hb => ?_)
  obtain ⟨hm, hroot, hnone⟩ := hP
  obtain ⟨o, -, hb⟩ := bind_ok hb
  cases o with
  | none =>
    obtain rfl := Except.ok.inj hb
    exact ⟨hm, hroot, hnone⟩
  | some pte =>
    have hu : UnmapSpec t.1 t.2 (guardBase st + i * pgSize) t'.1 t'.2 := uvmunmap_one hb
    have hlt : (guardBase st + i * pgSize) / 4096 < userPages := by
      rcases hst with rfl | hst
      · rw [stackPages, if_neg (by omega)] at hi
        omega
      · have hg := guardBase_eq hst
        obtain ⟨h1, h2, h3⟩ := hst
        rw [stackPages, if_pos (by omega), hg, pgSize] at hi
        rw [trapframeVa_eq] at h2
        rw [hg, pgSize]
        omega
    refine ⟨hm.trans (hu.moves (fun hge => by omega)), by rw [hu.clear, PageTable.clearLeaf_root, hroot], fun v hv => ?_⟩
    rw [hu.clear, PageTable.clearLeaf_leaf]
    by_cases he : v = (guardBase st + i * pgSize) / 4096
    · rw [he, Function.update_self]
    · rw [Function.update_of_ne he, hnone v hv]

/-- `proc_freepagetable`: every page of the address space is free again, whatever the stack of the caller. -/
theorem procFreepagetable_moves {sz st : Nat} (h : procFreepagetable m pt sz st = .ok m') (hroot : pt.root.isSome)
    (hst : st = 0 ∨ StackTop st) : Moves m pt.pages m' 0 := by
  obtain ⟨⟨m₁, pt₁⟩, h1, hrest₁⟩ := bind_ok h
  obtain ⟨⟨m₂, pt₂⟩, h2, hrest₂⟩ := bind_ok hrest₁
  obtain ⟨⟨m₃, pt₃⟩, h3, hfree⟩ := bind_ok hrest₂
  obtain ⟨rfl, rfl⟩ := uvmunmap_one_keep h1
  obtain ⟨rfl, rfl⟩ := uvmunmap_one_keep h2
  rw [trampolineVa_div, trapframeVa_div] at h3
  obtain ⟨hm, hr, hnone⟩ := freeStack_spec h3 hst
  rw [PageTable.pages_clearLeaf_top (le_refl _), PageTable.pages_clearLeaf_top (by omega)] at hm
  refine hm.trans (uvmfree_moves hfree (by rw [hr]; exact hroot) (fun v hv => hnone v ?_))
  have hcases : v = userPages ∨ v ≠ userPages ∧ v = userPages + 1 ∨ userPages + 2 ≤ v := by omega
  rw [PageTable.clearLeaf_leaf, PageTable.clearLeaf_leaf]
  rcases hcases with rfl | ⟨hne, rfl⟩ | hge
  · rw [Function.update_self]
  · rw [Function.update_of_ne hne, Function.update_self]
  · rw [Function.update_of_ne (by omega), Function.update_of_ne (by omega)]
    by_contra hne
    have := pt.lt_of_leaf (Option.isSome_iff_ne_none.mpr hne)
    rw [userPages_eq] at hge
    omega

end Xv6SnifferBakery.Kernel
