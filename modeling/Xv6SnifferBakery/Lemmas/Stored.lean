import Xv6SnifferBakery.Lemmas.Tracking
import Xv6SnifferBakery.Theorems.SwapRoundTrip

/-!
# What a page holds

One page of a process over its whole life, in memory, in the swap file or nowhere: what a page event does to this page, and when the
page still holds what was last stored to it.
-/

namespace Xv6SnifferBakery.Kernel

open Lib

variable {m m' : Machine} {p p' : Proc} {pev : PageEvent} {i va v : Nat} {saved : Nat → Option Page} {last : Page}

/-! ## One page -/

/-- An entry says that page `va` is in the swap file. -/
def SwappedAt (va : Nat) (p : Proc) : Prop := ∃ e ∈ p.pages, e.va = va ∧ e.state = .swapped

/-- A user can load from a page that is mapped so. -/
def Pte.loads (pte : Pte) : Prop := pte.perm.u = true ∧ pte.perm.r = true

/-- What a page event does to page `va`. -/
inductive PageChange (va : Nat) (p : Proc) (pev : PageEvent) (p' : Proc) : Prop where
  | other (mapped : ∀ pte', p'.pagetable.leaf (va / 4096) = some pte' → ∃ pte, p.pagetable.leaf (va / 4096) = some pte ∧
        (pte.loads → pte'.loads))
      (unmapped : p'.pagetable.leaf (va / 4096) = none → p.pagetable.leaf (va / 4096) = none)
      (swapped : SwappedAt va p' ↔ SwappedAt va p)
  | evictClean {j : Nat} {pte : Pte} (event : pev = .evictClean j va) (mapped : p.pagetable.leaf (va / 4096) = some pte)
      (unmapped : p'.pagetable.leaf (va / 4096) = none) (swapped : ¬SwappedAt va p')
  | evictDirty {j : Nat} {pte : Pte} (event : pev = .evictDirty j va) (mapped : p.pagetable.leaf (va / 4096) = some pte)
      (unmapped : p'.pagetable.leaf (va / 4096) = none) (swapped : SwappedAt va p')
  | load {src : Source} {j : Nat} {pte : Pte} (event : pev = .load src j va) (unmapped : p.pagetable.leaf (va / 4096) = none)
      (mapped : p'.pagetable.leaf (va / 4096) = some pte) (loads : pte.loads) (swapped : ¬SwappedAt va p')

/-- A change of the entry of another page. -/
theorem swappedAt_modify {e : PageInfo} {f : PageInfo → PageInfo} (he : p.pages[i]? = some e) (hpages : p'.pages = p.pages.modify i f)
    (hva : (f e).va = e.va) (hne : e.va ≠ va) : SwappedAt va p' ↔ SwappedAt va p := by
  unfold SwappedAt
  rw [hpages]
  constructor
  · rintro ⟨x, hx, hxa, hxs⟩
    rcases mem_modify hx with ⟨e', he', rfl⟩ | ⟨l, -, hl⟩
    · obtain rfl := Option.some.inj (he.symm.trans he')
      exact absurd (hva.symm.trans hxa) hne
    · exact ⟨x, List.mem_of_getElem? hl, hxa, hxs⟩
  · rintro ⟨x, hx, hxa, hxs⟩
    obtain ⟨l, hl⟩ := List.mem_iff_getElem?.mp hx
    have hli : i ≠ l := by
      rintro rfl
      obtain rfl := Option.some.inj (he.symm.trans hl)
      exact hne hxa
    refine ⟨x, List.mem_of_getElem? (i := l) ?_, hxa, hxs⟩
    rw [List.getElem?_modify, hl]
    simp [hli]

/-- A change of the entry of the page. -/
theorem swappedAt_self {e : PageInfo} {f : PageInfo → PageInfo} (hp : p.Indexed) (he : p.pages[i]? = some e)
    (hpages : p'.pages = p.pages.modify i f) (hva : (f e).va = e.va) (hea : e.va = va) : SwappedAt va p' ↔ (f e).state = .swapped := by
  unfold SwappedAt
  rw [hpages]
  constructor
  · rintro ⟨x, hx, hxa, hxs⟩
    rcases mem_modify hx with ⟨e', he', rfl⟩ | ⟨l, hl, hxl⟩
    · obtain rfl := Option.some.inj (he.symm.trans he')
      exact hxs
    · exact absurd (entry_unique hp.addrs hxl he (hxa.trans hea.symm)) hl
  · intro hs
    refine ⟨f e, List.mem_of_getElem? (i := i) ?_, hva.trans hea, hs⟩
    rw [List.getElem?_modify, he]
    simp

/-- A new entry, or a change of slot numbers, takes no page out of the swap file and puts none there. -/
theorem swappedAt_append {e : PageInfo} (hpages : p'.pages = p.pages ++ [e]) (he : e.state ≠ .swapped) : SwappedAt va p' ↔ SwappedAt va p := by
  unfold SwappedAt
  rw [hpages]
  constructor
  · rintro ⟨x, hx, hxa, hxs⟩
    rcases List.mem_append.mp hx with hx | hx
    · exact ⟨x, hx, hxa, hxs⟩
    · rw [List.mem_singleton.mp hx] at hxs
      exact absurd hxs he
  · rintro ⟨x, hx, hxa, hxs⟩
    exact ⟨x, List.mem_append_left _ hx, hxa, hxs⟩

theorem swappedAt_slot {f : PageInfo → PageInfo} (keeps : ∀ x, f x = { x with swapSlot := (f x).swapSlot })
    (hpages : p'.pages = p.pages.modify i f) : SwappedAt va p' ↔ SwappedAt va p := by
  unfold SwappedAt
  rw [hpages]
  constructor
  · rintro ⟨x, hx, hxa, hxs⟩
    obtain ⟨e, he, hev, hes, -⟩ := mem_modify_slot keeps hx
    exact ⟨e, he, hev.trans hxa, hes.trans hxs⟩
  · rintro ⟨x, hx, hxa, hxs⟩
    obtain ⟨l, hl⟩ := List.mem_iff_getElem?.mp hx
    refine ⟨if i = l then f x else x, List.mem_of_getElem? (i := l) (by rw [List.getElem?_modify, hl]; rfl), ?_, ?_⟩
    · split
      · rw [keeps]
        exact hxa
      · exact hxa
    · split
      · rw [keeps]
        exact hxs
      · exact hxs

theorem TableChange.page (h : TableChange p pev p') (hp : p.Indexed) (hal : va % 4096 = 0) : PageChange va p pev p' := by
  have hdiv : ∀ {e : PageInfo}, e ∈ p.pages → e.va ≠ va → va / 4096 ≠ e.va / 4096 := by
    intro e he hne
    have := hp.aligned e.va (List.mem_map_of_mem he)
    omega
  have hsame : p'.pagetable.leaf = p.pagetable.leaf → (SwappedAt va p' ↔ SwappedAt va p) → PageChange va p pev p' := by
    intro hleaf hs
    exact .other (fun pte' hpte => ⟨pte', hleaf ▸ hpte, id⟩) (fun hn => hleaf ▸ hn) hs
  -- an event that changes the entry and the leaf of another page
  have hother : ∀ {j : Nat} {e : PageInfo} {f : PageInfo → PageInfo} {o : Option Pte}, p.pages[j]? = some e → e.va ≠ va →
      p'.pages = p.pages.modify j f → (f e).va = e.va → p'.pagetable.leaf = Function.update p.pagetable.leaf (e.va / 4096) o →
      PageChange va p pev p' := by
    intro j e f o he hne hpages hva hleaf
    have hl : p'.pagetable.leaf (va / 4096) = p.pagetable.leaf (va / 4096) := by
      rw [hleaf, Function.update_of_ne (hdiv (List.mem_of_getElem? he) hne)]
    exact .other (fun pte' hpte => ⟨pte', hl ▸ hpte, id⟩) (fun hn => hl ▸ hn) (swappedAt_modify he hpages hva hne)
  cases h with
  | same pages leaf =>
    refine hsame leaf ?_
    unfold SwappedAt
    rw [pages]
  | track _ _ _ pages leaf => exact hsame leaf (swappedAt_append pages (by simp))
  | evict entry resident mapped event hva out pages leaf =>
    rename_i j e pte f
    by_cases hea : e.va = va
    swap
    · exact hother entry hea pages (hva _) leaf
    have hs : SwappedAt va p' ↔ (f e).state = .swapped := swappedAt_self hp entry pages (hva _) hea
    rw [out] at hs
    subst hea
    have hnone : p'.pagetable.leaf (e.va / 4096) = none := by rw [leaf, Function.update_self]
    by_cases hd : e.isDirty = true
    · rw [if_pos hd] at event hs
      exact .evictDirty event mapped hnone (hs.mpr rfl)
    · rw [if_neg hd] at event hs
      exact .evictClean event mapped hnone (by rw [hs]; simp)
  | load event entry free hva loaded pages leaf =>
    rename_i src j e mem f
    by_cases hea : e.va = va
    swap
    · exact hother entry hea pages (hva _) leaf
    have hs : SwappedAt va p' ↔ (f e).state = .swapped := swappedAt_self hp entry pages (hva _) hea
    rw [(loaded e).1] at hs
    subst hea
    exact .load event free (by rw [leaf, Function.update_self]) ⟨Source.perm_u _ _ _, Source.perm_r _ _ _⟩ (by rw [hs]; simp)
  | loadFail keeps pages leaf => exact hsame leaf (swappedAt_slot keeps pages)
  | firstWrite event hx pages leaf =>
    rename_i j e pte
    by_cases hea : e.va = va
    swap
    · exact hother hx.entry hea pages rfl leaf
    have hs : SwappedAt va p' ↔ e.state = .swapped := swappedAt_self hp hx.entry pages rfl hea
    subst hea
    have hs' : SwappedAt e.va p ↔ e.state = .swapped := by
      refine swappedAt_self (f := id) hp hx.entry ?_ rfl rfl
      rw [List.modify_id]
    refine .other ?_ ?_ (hs.trans hs'.symm)
    · intro pte' hpte
      rw [leaf, Function.update_self] at hpte
      obtain rfl := Option.some.inj hpte
      exact ⟨pte, hx.leaf, id⟩
    · intro hn
      rw [leaf, Function.update_self] at hn
      cases hn

/-! ## What the page holds -/

/-- Page `va` holds `last`: in memory, or in the swap file, or nowhere, and then `last` is zero; and it is not loaded from the
executable. -/
structure Holds (saved : Nat → Option Page) (va : Nat) (last : Page) (m : Machine) (p : Proc) : Prop where
  mapped : ∀ pte, p.pagetable.leaf (va / 4096) = some pte → pte.loads ∧ ∀ k < 4096, m.mem pte.pa k = last k
  swapped : p.pagetable.leaf (va / 4096) = none → SwappedAt va p → ∀ out, saved va = some out → ∀ k < 4096, out k = last k
  fresh : p.pagetable.leaf (va / 4096) = none → ¬SwappedAt va p → ∀ k < 4096, last k = 0
  lazy : ¬inExec p va

/-- What page `va` should hold after a page event of its process. -/
def PageEvent.stores (va : Nat) (ev : PageEvent) (last : Page) : Page :=
  match ev with
  | .store a b => if a / 4096 = va / 4096 then Function.update last (a % 4096) b else last
  | _ => last

/-- An event that discards page `va`: it is evicted as clean, or it is loaded as a fresh page though it is in the swap file. -/
def PageEvent.discards (va : Nat) (p : Proc) (ev : PageEvent) : Prop :=
  match ev with
  | .evictClean _ w => w = va
  | .load src _ w => w = va ∧ src ≠ .swap ∧ SwappedAt va p
  | _ => False

/-- A page that an event evicts was mapped, and is not any more. -/
theorem PageStep.evicted (h : PageStep (m, p) pev (m', p')) (hev : pev.evicts v) :
    (p.pagetable.leaf v).isSome ∧ p'.pagetable.leaf v = none := by
  have hclear : ∀ {e : PageInfo} {pte : Pte}, e.va / 4096 = v → p.pagetable.leaf (e.va / 4096) = some pte →
      (p.pagetable.leaf v).isSome ∧ Function.update p.pagetable.leaf (e.va / 4096) none v = none := by
    rintro e pte rfl hl
    exact ⟨Option.isSome_of_eq_some hl, Function.update_self ..⟩
  cases h with
  | evictClean hx =>
    rw [hx.proc]
    exact hclear hev hx.victim.leaf
  | evictDirty hx =>
    rw [hx.proc]
    exact hclear hev hx.victim.leaf
  | _ => exact hev.elim

/-- Only a swap-out of the page saves it anew. -/
theorem PageEvent.saves_of_not_evicts (h : ¬pev.evicts (va / 4096)) : pev.saves m p saved va = saved va := by
  cases pev with
  | evictDirty j w =>
    refine Function.update_of_ne ?_ _ _
    rintro rfl
    exact h rfl
  | _ => rfl

/-- Only a store to the page changes what it should hold. -/
theorem PageEvent.stores_of_not_writes (h : ¬pev.writes (va / 4096)) : pev.stores va last = last := by
  cases pev with
  | store a b => exact if_neg h
  | _ => rfl

/-- The frame of a page that was loaded. -/
theorem PageStep.loaded {src : Source} {j : Nat} (h : PageStep (m, p) (.load src j va) (m', p')) (hinv : PageInv m p)
    (hkept : SwapKept saved m p) (hh : Holds saved va last m p) (hdiscards : (PageEvent.load src j va).discards va p → ∀ k < 4096, last k = 0) :
    ∀ pte, p'.pagetable.leaf (va / 4096) = some pte → ∀ k < 4096, m'.mem pte.pa k = last k := by
  cases h with
  | load entry addr exec swap valid hx =>
    rename_i m₁ m₂ p₂ mem page pt e
    have hat : e.state = .swapped → SwappedAt va p := fun hs => ⟨e, List.mem_of_getElem? entry, addr, hs⟩
    intro pte hpte k hk
    by_cases hsrc : src = .swap
    · -- from the swap file
      subst hsrc
      obtain ⟨out, hout, -, hback⟩ := hkept.roundTrip.returned j va e _ _ _ _ _ _ _ _ entry addr (swap rfl) hx
      obtain ⟨pte', hpte', hmem⟩ := hback hinv.freelist_nodup
      obtain rfl := Option.some.inj (hpte'.symm.trans hpte)
      rw [hmem k hk]
      exact hh.swapped hx.leaf.2.1 (hat (swap rfl)) out hout k hk
    · -- as a fresh page
      have hlast : last k = 0 := by
        by_cases hs : SwappedAt va p
        · exact hdiscards ⟨rfl, hsrc, hs⟩ k hk
        · exact hh.fresh hx.leaf.2.1 hs k hk
      have hpage : page k = 0 := by
        rw [hx.fetched.fresh exec hsrc, freshPage, if_neg hh.lazy]
      rw [hx.leaf.1, Function.update_self] at hpte
      obtain rfl := Option.some.inj hpte
      rw [hx.mem.contents hinv.freelist_nodup, hpage, hlast]

/-- A page event of the process that does not discard the page while it holds something. -/
theorem PageStep.holds (h : PageStep (m, p) pev (m', p')) (hinv : PageInv m p) (hkept : SwapKept saved m p) (hal : va % 4096 = 0)
    (hu : va / 4096 < userPages) (hh : Holds saved va last m p) (hcopy : ∀ a, pev = .copy a → a / 4096 ≠ va / 4096)
    (hdiscards : pev.discards va p → ∀ k < 4096, last k = 0) : Holds (pev.saves m p saved) va (pev.stores va last) m' p' := by
  have hindexed : p.Indexed := ⟨hkept.addrs, fun a ha => (hinv.wf.tracked a ha).2⟩
  have hlazy : ¬inExec p' va := by
    rw [h.image.eq]
    exact hh.lazy
  cases h.table.page hindexed hal with
  | evictClean event mapped unmapped swapped =>
    subst event
    refine ⟨?_, fun _ hs => absurd hs swapped, fun _ _ => hdiscards rfl, hlazy⟩
    intro pte' hpte
    rw [unmapped] at hpte
    cases hpte
  | evictDirty event mapped unmapped swapped =>
    subst event
    refine ⟨?_, ?_, fun _ hs => absurd swapped hs, hlazy⟩
    · intro pte' hpte
      rw [unmapped] at hpte
      cases hpte
    · intro _ _ out hout
      change Function.update saved va _ va = some out at hout
      rw [Function.update_self, mapped] at hout
      obtain rfl := Option.some.inj hout
      exact (hh.mapped _ mapped).2
  | load event unmapped mapped loads swapped =>
    subst event
    have hloaded := h.loaded hinv hkept hh hdiscards
    refine ⟨?_, fun _ hs => absurd hs swapped, ?_, hlazy⟩
    · intro pte' hpte
      obtain rfl := Option.some.inj (mapped.symm.trans hpte)
      exact ⟨loads, hloaded _ mapped⟩
    · intro hn
      rw [hn] at mapped
      cases mapped
  | other mapped unmapped swapped =>
    have hstays : ¬pev.evicts (va / 4096) := by
      intro hev
      obtain ⟨hsome, hnone⟩ := h.evicted hev
      rw [unmapped hnone] at hsome
      cases hsome
    have hsaved : pev.saves m p saved va = saved va := PageEvent.saves_of_not_evicts hstays
    by_cases hw : pev.writes (va / 4096)
    · -- a store to the page, which is mapped
      cases h with
      | store htr =>
        rename_i a b pa
        obtain ⟨q, hq, -, -, rfl⟩ := translate_some htr
        have hpage : a / 4096 = va / 4096 := hw
        rw [hpage] at hq
        have hstores : (PageEvent.store a b).stores va last = Function.update last (a % 4096) b := if_pos hpage
        rw [hstores]
        refine ⟨?_, ?_, ?_, hlazy⟩
        · intro pte hpte
          obtain rfl := Option.some.inj (hq.symm.trans hpte)
          refine ⟨(hh.mapped _ hq).1, ?_⟩
          intro k hk
          change (Machine.fill _ _ _).mem _ k = _
          rw [Machine.fill_mem_self, Function.update_apply, Function.update_apply]
          split
          · rfl
          · exact (hh.mapped _ hq).2 k hk
        · intro hn
          rw [hq] at hn
          cases hn
        · intro hn
          rw [hq] at hn
          cases hn
      | copy => exact absurd hw (hcopy _ rfl)
      | _ => exact hw.elim
    · rw [PageEvent.stores_of_not_writes hw]
      refine ⟨?_, ?_, ?_, hlazy⟩
      · intro pte' hpte
        obtain ⟨pte, hl, hloads⟩ := mapped pte' hpte
        obtain ⟨⟨perm, hl'⟩, hmem⟩ := h.kept hinv hu hl hstays hw
        obtain rfl := Option.some.inj (hl'.symm.trans hpte)
        refine ⟨hloads (hh.mapped _ hl).1, ?_⟩
        intro k hk
        rw [hmem]
        exact (hh.mapped _ hl).2 k hk
      · intro hn hs
        rw [hsaved]
        exact hh.swapped (unmapped hn) (swapped.mp hs)
      · intro hn hs
        exact hh.fresh (unmapped hn) (mt swapped.mpr hs)

/-! ## Calls -/

/-- A process of which page `va` holds `last`, whatever is in its swap file. -/
structure Keeps (va : Nat) (last : Page) (m : Machine) (p : Proc) : Prop where
  inv : PageInv m p
  held : ∃ saved, SwapKept saved m p ∧ Holds saved va last m p

theorem Keeps.step (h : Keeps va last m p) (hs : PageStep (m, p) pev (m', p')) (hal : va % 4096 = 0) (hu : va / 4096 < userPages)
    (hcopy : ∀ a, pev = .copy a → a / 4096 ≠ va / 4096) (hdiscards : pev.discards va p → ∀ k < 4096, last k = 0) :
    Keeps va (pev.stores va last) m' p' := by
  obtain ⟨saved, hkept, hh⟩ := h.held
  exact ⟨h.inv.step hs, _, hs.swapKept hkept, hs.holds h.inv hkept hal hu hh hcopy hdiscards⟩

/-- An event of a fault stores nothing. -/
theorem Keeps.fault (access : Access) (h : Keeps va last m p) (hs : PageStep (m, p) pev (m', p')) (hal : va % 4096 = 0)
    (hu : va / 4096 < userPages) (hcause : pev.causedBy access) (hdiscards : pev.discards va p → ∀ k < 4096, last k = 0) :
    Keeps va last m' p' := by
  have hno : ¬pev.writes (va / 4096) := by
    cases pev with
    | store | copy => exact hcause.elim
    | _ => exact id
  have hlast : pev.stores va last = last := PageEvent.stores_of_not_writes hno
  rw [← hlast]
  refine h.step hs hal hu ?_ hdiscards
  rintro a rfl
  exact hcause.elim

/-- An eviction, when it does not discard the page while it holds something. -/
theorem Keeps.evict {r : Bool} (h : Keeps va last m p) (hal : va % 4096 = 0) (hu : va / 4096 < userPages)
    (hspares : ∀ j e pte, Victim p j e pte → e.va = va → e.isDirty = false → ∀ k < 4096, last k = 0)
    (hx : evictPageFifo m p = .ok (m', p', r)) : Keeps va last m' p' := by
  rcases evictPageFifo_cases hx with ⟨-, i, e, pte, hx⟩ | ⟨-, i, e, pte, slot, f, m₁, m₂, hx⟩ | ⟨-, hx⟩
  · exact h.fault .read (.evictClean hx) hal hu trivial (fun hd => hspares i e pte hx.victim hd hx.clean)
  · exact h.fault .read (.evictDirty hx) hal hu trivial (fun hd => hd.elim)
  · exact h.fault .read (.evictFail hx) hal hu trivial (fun hd => hd.elim)

/-- Getting a page of memory, likewise. -/
theorem Keeps.freed (h : Keeps va last m p) (hal : va % 4096 = 0) (hu : va / 4096 < userPages)
    (hspares : m.freelist = [] → ∀ j e pte, Victim p j e pte → e.va = va → e.isDirty = false → ∀ k < 4096, last k = 0)
    (hx : Freed m p m' p') : Keeps va last m' p' := by
  cases hx with
  | free => exact h
  | clean hfull hx =>
    exact h.fault .read (.evictClean hx) hal hu trivial (fun hd => hspares hfull _ _ _ hx.victim hd hx.clean)
  | dirty _ hx => exact h.fault .read (.evictDirty hx) hal hu trivial (fun hd => hd.elim)

/-- An eviction that makes room puts no other page into the swap file than the victim. -/
theorem Freed.swappedAt (h : Freed m p m' p') (hs : SwappedAt va p') :
    SwappedAt va p ∨ m.freelist = [] ∧ ∃ j e pte, Victim p j e pte ∧ e.va = va := by
  cases h with
  | free => exact Or.inl hs
  | clean hfull hx =>
    rename_i j e pte
    by_cases hva : e.va = va
    · exact Or.inr ⟨hfull, j, e, pte, hx.victim, hva⟩
    · exact Or.inl ((swappedAt_modify (f := fun e => { e with state := .unmapped }) hx.victim.entry (by rw [hx.proc]; rfl) rfl hva).mp hs)
  | dirty hfull hx =>
    rename_i j e pte slot f m₁ m₂
    by_cases hva : e.va = va
    · exact Or.inr ⟨hfull, j, e, pte, hx.victim, hva⟩
    · exact Or.inl ((swappedAt_modify (f := fun e => { e with state := .swapped, swapSlot := slot }) hx.victim.entry
        (by rw [hx.proc]; rfl) rfl hva).mp hs)

/-- Loading page `page` after an eviction, if need be: the victim is not page `va`, or it is dirty and another page is loaded. -/
theorem Keeps.load {page : Nat} {e : PageInfo} {r : Bool} (h : Keeps va last m p) (hal : va % 4096 = 0) (hu : va / 4096 < userPages)
    (he : p.pages[i]? = some e) (hea : e.va = page) (hvalid : faultValid p page)
    (hspares : m.freelist = [] → ∀ j x pte, Victim p j x pte → x.va = va → (x.isDirty = false ∨ page = va) → ∀ k < 4096, last k = 0)
    (hx : FaultLoad m p i page (sourceOf p e page) m' p' r) : Keeps va last m' p' := by
  have hfreed : ∀ {m₁ : Machine} {p₁ : Proc}, Freed m p m₁ p₁ → Keeps va last m₁ p₁ := by
    intro m₁ p₁ hf
    exact h.freed hal hu (fun hfull j x pte hv hxa hclean => hspares hfull j x pte hv hxa (Or.inl hclean)) hf
  cases hx with
  | noPage _ hfail =>
    have hfailed : Keeps va last m' _ := h.fault .read (.evictFail hfail) hal hu trivial (fun hd => hd.elim)
    exact hfailed.fault .read .kill hal hu trivial (fun hd => hd.elim)
  | fail hf hfail =>
    obtain ⟨⟨e', he', hva', hsw⟩, -⟩ := hf.leaves he
    refine (hfreed hf).fault .read (.loadFail he' (hva'.trans hea) ?_ hfail) hal hu trivial (fun hd => hd.elim)
    exact fun hs => hsw (sourceOf_swap.mp hs)
  | load hf hload =>
    obtain ⟨⟨e', he', hva', hsw⟩, hexec, hval⟩ := hf.leaves he
    refine (hfreed hf).fault .read (.load he' (hva'.trans hea) (by rw [hexec]; exact sourceOf_exec) ?_ (hval page hvalid) hload)
      hal hu trivial ?_
    · exact fun hs => hsw (sourceOf_swap.mp hs)
    · -- loaded as a fresh page, it was evicted just before
      rintro ⟨rfl, hsrc, hs⟩
      rcases hf.swappedAt hs with ⟨x, hxp, hxa, hxs⟩ | ⟨hfull, j, x, pte, hv, hxa⟩
      · obtain ⟨l, hl⟩ := List.mem_iff_getElem?.mp hxp
        obtain ⟨saved, hkept, -⟩ := h.held
        obtain rfl := entry_unique hkept.addrs he hl (hea.trans hxa.symm)
        obtain rfl := Option.some.inj (he.symm.trans hl)
        exact absurd (sourceOf_swap.mpr hxs) hsrc
      · exact hspares hfull j x pte hv hxa (Or.inr rfl)

/-- A fault for page `page` makes the process evict: it gets to load the page, and no memory is free. -/
structure FaultEvicts (m : Machine) (p : Proc) (page : Nat) (access : Access) : Prop where
  passes : FaultPasses p page access
  grants : ∀ j, ¬GrantsWrite p page access j
  room : findPageInfo p page = none → p.pages.length < maxPages
  full : m.freelist = []

/-- A page fault, when its eviction does not discard the page while it holds something. -/
theorem Keeps.faulted {addr : Nat} {access : Access} {u r : Bool} (h : Keeps va last m p) (hal : va % 4096 = 0)
    (hu : va / 4096 < userPages) (hspares : FaultEvicts m p (pgRoundDown addr) access → ∀ j e pte, Victim p j e pte → e.va = va →
      (e.isDirty = false ∨ pgRoundDown addr = va) → ∀ k < 4096, last k = 0)
    (hx : handlePageFault m p addr access u = .ok (m', p', r)) : Keeps va last m' p' := by
  have hround : pgRoundDown (pgRoundDown addr) = pgRoundDown addr := pgRoundDown_idem addr
  by_cases hg : ∃ j, GrantsWrite p (pgRoundDown addr) access j
  · obtain ⟨j, hg⟩ := hg
    rw [handlePageFault_grants hg] at hx
    obtain ⟨rfl, rfl, -⟩ : m = m' ∧ firstWrite p j (pgRoundDown addr) = p' ∧ true = r := by simpa using hx
    obtain ⟨rfl, e, pte, hw⟩ := hg
    obtain ⟨e', he', hva'⟩ := findPageInfo_some hw.found
    obtain rfl := Option.some.inj (hw.entry.symm.trans he')
    exact h.fault .write (.firstWrite hw (hva'.trans hround)) hal hu rfl (fun hd => hd.elim)
  have hno : ∀ j, ¬GrantsWrite p (pgRoundDown addr) access j := fun j hj => hg ⟨j, hj⟩
  cases handlePageFault_cases hx with
  | refused => exact h
  | killed => exact h.fault .read .kill hal hu trivial (fun hd => hd.elim)
  | firstWrite hacc hw => exact absurd ⟨hacc, _, _, hw⟩ (hno _)
  | load hpass htr he hl =>
    have htr' := htr
    cases htr with
    | old hfind =>
      obtain ⟨e', he', hva'⟩ := findPageInfo_some hfind
      obtain rfl := Option.some.inj (he.symm.trans he')
      refine h.load hal hu he (hva'.trans hround) hpass.valid ?_ hl
      intro hfull
      have hroom : findPageInfo p (pgRoundDown addr) = none → p.pages.length < maxPages := by
        intro hn
        rw [hfind] at hn
        cases hn
      exact hspares ⟨hpass, hno, hroom, hfull⟩
    | new hfind hroom =>
      rw [hround] at he hl htr'
      have htrack : PageStep (m, p) (.track (pgRoundDown addr)) (m, p.track (pgRoundDown addr)) :=
        .track hpass.lt (pgRoundDown_mod addr) hpass.user (fun e he' => hround ▸ findPageInfo_none hfind he') hroom
      have hnew : (p.pages ++ [(⟨pgRoundDown addr, .unmapped, false, 0, -1⟩ : PageInfo)])[p.pages.length]? =
          some ⟨pgRoundDown addr, .unmapped, false, 0, -1⟩ := by simp
      obtain rfl := Option.some.inj (hnew.symm.trans he)
      have htracked : Keeps va last m (p.track (pgRoundDown addr)) :=
        h.fault .read htrack hal hu trivial (fun hd => hd.elim)
      have hvalid : faultValid (p.track (pgRoundDown addr)) (pgRoundDown addr) := by
        rcases hpass.valid with hr | hs
        · exact Or.inl hr
        · rw [Kernel.isSwapped, entryOf, hfind] at hs
          cases hs
      refine htracked.load hal hu he rfl hvalid ?_ hl
      intro hfull j x pte hv
      exact hspares ⟨hpass, hno, fun _ => hroom, hfull⟩ j x pte (htr'.victim.mp hv)

/-! ## What a user load yields -/

/-- A page of the heap that is not loaded from the executable. -/
structure HeapPage (va : Nat) (p : Proc) : Prop where
  aligned : va % 4096 = 0
  user : va < trapframeVa
  above : p.stackTop ≤ va
  heap : inHeap p va

theorem HeapPage.valid (h : HeapPage va p) (hst : StackTop p.stackTop) : faultValid p va := by
  refine Or.inl ⟨?_, Or.inr (Or.inr (Or.inl h.heap))⟩
  rintro ⟨-, hlt⟩
  rw [stackBase_eq hst] at hlt
  have := h.above
  omega

theorem HeapPage.congr (h : HeapPage va p) (himg : SameImage p p') : HeapPage va p' := by
  refine ⟨h.aligned, h.user, ?_, ?_⟩
  · rw [himg.eq]
    exact h.above
  · rw [himg.eq]
    exact h.heap

/-- Where the process has not been killed and the table of tracked pages has room, a load yields what the page holds. -/
theorem Keeps.view {k : Nat} (h : Keeps va last m p) (hheap : HeapPage va p) (hkilled : p.killed = false)
    (hroom : entryOf p va = none → p.pages.length < maxPages) (hk : k < 4096) : view m p (va + k) = some (last k) := by
  have hal := hheap.aligned
  have hlt := hheap.user
  have hdiv : (va + k) / 4096 = va / 4096 := by omega
  have hmod : (va + k) % 4096 = k := by omega
  have hround : pgRoundDown (va + k) = va := by
    unfold pgRoundDown
    omega
  have hmax : va + k < maxVa := by
    rw [trapframeVa_eq, userPages_eq] at hlt
    unfold maxVa
    omega
  obtain ⟨saved, hkept, hh⟩ := h.held
  cases hleaf : p.pagetable.leaf (va / 4096) with
  | some pte =>
    obtain ⟨⟨hu, hr⟩, hmem⟩ := hh.mapped pte hleaf
    rw [Kernel.view, if_neg (Nat.not_le.mpr hmax), hdiv, hleaf, hmod]
    simp only [hu, hr, Bool.and_self, if_true, hmem k hk]
  | none =>
    rw [view_unmapped hmax (by rw [hdiv]; exact hleaf), hround, hmod, demandPage, if_neg (not_not.mpr (hheap.valid h.inv.wf.stack))]
    have hfresh : ¬SwappedAt va p → (some (freshPage m.fs p va)).map (fun page => page k) = some (last k) := by
      intro hs
      rw [Option.map_some, freshPage, if_neg hh.lazy, hh.fresh hleaf hs k hk]
    have hround' : pgRoundDown va = va := pgRoundDown_of_aligned hal
    cases hentry : entryOf p va with
    | none =>
      simp only
      rw [if_neg (Nat.not_le.mpr (hroom hentry))]
      refine hfresh ?_
      rintro ⟨x, hx, hxa, -⟩
      cases hfind : findPageInfo p va with
      | none => exact findPageInfo_none hfind hx (by rw [hround', hxa])
      | some i =>
        obtain ⟨e, he, -⟩ := findPageInfo_some hfind
        rw [entryOf, hfind, Option.bind_some, he] at hentry
        cases hentry
    | some e =>
      obtain ⟨i, hfind, he⟩ := Option.bind_eq_some_iff.mp hentry
      obtain ⟨e', he', hea⟩ := findPageInfo_some hfind
      obtain rfl := Option.some.inj (he.symm.trans he')
      rw [hround'] at hea
      simp only
      by_cases hs : e.state = .swapped
      · -- what the swap file has of the page
        have hmem := List.mem_of_getElem? he
        rw [if_pos hs]
        obtain ⟨hneg, hdead⟩ | ⟨f, hf, hread⟩ := hkept.roundTrip.readable e hmem hs
        · rw [hkilled] at hdead
          cases hdead
        obtain ⟨-, hdead⟩ | ⟨slot, hslot, hbit, g, out, hg, hsaved, hdata⟩ := hkept.swapped e hmem hs
        · rw [hkilled] at hdead
          cases hdead
        obtain rfl := Option.some.inj (hf.symm.trans hg)
        rw [swapPage_of_read hf hread, Option.map_some]
        have hout : out k = last k := hh.swapped hleaf ⟨e, hmem, hea, hs⟩ out (hea ▸ hsaved) k hk
        rw [hslot, slotOff_natCast (hkept.used slot hbit).1, ← hout]
        exact congrArg some (hdata k hk)
      · rw [if_neg hs]
        refine hfresh ?_
        rintro ⟨x, hx, hxa, hxs⟩
        obtain ⟨l, hl⟩ := List.mem_iff_getElem?.mp hx
        obtain rfl := entry_unique hkept.addrs he hl (hea.trans hxa.symm)
        obtain rfl := Option.some.inj (he.symm.trans hl)
        exact hs hxs

/-! ## Frames of others -/

/-- Page events of a process leave the frames that are neither free nor its own. -/
theorem PageRun.outside {G : PageEvent → Prop} {q : Pa} (h : PageRun G m p m' p') (hwf : p.Wf) (hq : q ∉ free m + p.owned) :
    m'.mem q = m.mem q := by
  obtain ⟨evs, hr⟩ := h
  have hinv : Flows m p.owned m' p'.owned ∧ p'.Wf :=
    hr.invariant (fun x => Flows m p.owned x.1 x.2.owned ∧ x.2.Wf) (fun x ev y hx hs => by
      obtain ⟨hflow, hwf'⟩ := hs.2.flows hx.2
      exact ⟨hx.1.trans hflow, hwf'⟩) ⟨Flows.refl _ _, hwf⟩
  exact hinv.1.mem q hq

/-- A change of the machine that leaves the frames and the swap file of the process. -/
theorem Keeps.machine (h : Keeps va last m p) (hinv : PageInv m' p) (hu : va / 4096 < userPages)
    (hmem : ∀ q ∈ p.owned, m'.mem q = m.mem q) (hfile : ∀ f, p.swapFile = some f → (m.fs.openInode f).SameBytes (m'.fs.openInode f)) :
    Keeps va last m' p := by
  obtain ⟨saved, hkept, hh⟩ := h.held
  refine ⟨hinv, saved, ?_, ?_⟩
  · refine hkept.frame ?_ rfl id hkept.addrs (fun j x hx hst => ⟨x, hx, hst, rfl, rfl⟩)
    intro f hf
    obtain ⟨hdata, hsize⟩ := hfile f hf
    refine ⟨hf, by rw [hsize], ?_⟩
    intro slot b _ _
    rw [hdata]
  · refine ⟨?_, hh.swapped, hh.fresh, hh.lazy⟩
    intro pte hpte
    obtain ⟨hloads, hcontents⟩ := hh.mapped pte hpte
    refine ⟨hloads, ?_⟩
    rw [hmem _ (Multiset.mem_add.mpr (Or.inr (PageTable.mem_pages_of_leaf hu hpte)))]
    exact hcontents

end Xv6SnifferBakery.Kernel
