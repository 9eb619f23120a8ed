import Xv6SnifferBakery.Lemmas.Kept
import Xv6SnifferBakery.Lemmas.Outcome
import Xv6SnifferBakery.Lemmas.Replay
import Xv6SnifferBakery.Lemmas.Tracking

/-!
# Progress of faulting accesses

A load that faults is allowed once the fault has been handled, a store after one more fault at most, whatever the other processes do
between the faults and the retries. The page of a store is mapped without `PTE_W`, with a resident and clean entry, and the next fault
grants the write: no page outside the text is refused it, and a page in the swap file lies outside the guard page. But the instruction is
fetched again for every retry, and the fetch can fault: with a single frame, the page of the instruction and the page of the access evict
each other.
-/

namespace Xv6SnifferBakery.Kernel

open Lib

variable {s t u : Sys} {ev : Event} {evs : List Event} {m m' : Machine} {p p' : Proc} {i va : Nat} {access : Access}

/-! ## The guard page -/

/-- No page that is in memory or in the swap file is the guard page. -/
def OffGuard (p : Proc) : Prop := ∀ e ∈ p.pages, e.state ≠ .unmapped → ¬inGuard p e.va

/-- A page that is valid for a fault is not the guard page. -/
theorem OffGuard.valid (h : OffGuard p) (hal : va % 4096 = 0) (hvalid : faultValid p va) : ¬inGuard p va := by
  rcases hvalid with ⟨hg, -⟩ | hswap
  · exact hg
  · obtain ⟨e, he, hst⟩ := (Option.any_eq_true _ _).mp hswap
    obtain ⟨i, hi, he⟩ := Option.bind_eq_some_iff.mp he
    obtain ⟨e', he', hva⟩ := findPageInfo_some hi
    obtain rfl := Option.some.inj (he.symm.trans he')
    have hst : e.state = .swapped := by simpa using hst
    have hoff := h e (List.mem_of_getElem? he) (by rw [hst]; nofun)
    rwa [hva, pgRoundDown_of_aligned hal] at hoff

/-- Fetching the contents of a page leaves the state of every page. -/
theorem Fetched.states {src : Source} {page : Page} (h : Fetched m p i va src m' p' page) {e' : PageInfo} (he' : e' ∈ p'.pages) :
    ∃ e ∈ p.pages, e.state = e'.state ∧ e.va = e'.va := by
  cases h with
  | zero | exec | execRead => exact ⟨e', he', rfl, rfl⟩
  | swap =>
    rename_i f e fs hfile he hlock hread
    change e' ∈ (freeSwapSlot p e.swapSlot).pages.modify i _ at he'
    rw [freeSwapSlot_pages] at he'
    rcases mem_modify he' with ⟨e, he, rfl⟩ | ⟨k, -, he⟩
    · exact ⟨e, List.mem_of_getElem? he, rfl, rfl⟩
    · exact ⟨e', List.mem_of_getElem? he, rfl, rfl⟩

/-- Two lists of entries for the same pages. -/
theorem va_of_map {es es' : List PageInfo} {j : Nat} {e e' : PageInfo} (h : es'.map PageInfo.va = es.map PageInfo.va)
    (he : es[j]? = some e) (he' : es'[j]? = some e') : e'.va = e.va := by
  have hj := congrArg (fun l => l[j]?) h
  simpa only [List.getElem?_map, he, he', Option.map_some, Option.some.injEq] using hj

/-- A page that an event leaves in memory or in the swap file was there, or was valid for a fault. -/
theorem PageStep.used {ev : PageEvent} (h : PageStep (m, p) ev (m', p')) {e' : PageInfo} (he' : e' ∈ p'.pages)
    (hs' : e'.state ≠ .unmapped) :
    (∃ e ∈ p.pages, e.state ≠ .unmapped ∧ e.va = e'.va) ∨ (faultValid p e'.va ∧ ∃ e ∈ p.pages, e.va = e'.va) := by
  have hold : e' ∈ p.pages → (∃ e ∈ p.pages, e.state ≠ .unmapped ∧ e.va = e'.va) ∨
      (faultValid p e'.va ∧ ∃ e ∈ p.pages, e.va = e'.va) := fun he => Or.inl ⟨e', he, hs', rfl⟩
  cases h with
  | kill | store | copy => exact hold he'
  | track =>
    rcases List.mem_append.mp he' with he | he
    · exact hold he
    · rw [List.mem_singleton.mp he] at hs'
      exact absurd rfl hs'
  | evictClean h =>
    rw [h.proc] at he'
    rcases mem_modify he' with ⟨e, he, rfl⟩ | ⟨k, -, he⟩
    · exact absurd rfl hs'
    · exact hold (List.mem_of_getElem? he)
  | evictDirty h =>
    rw [h.proc] at he'
    rcases mem_modify he' with ⟨e, he, rfl⟩ | ⟨k, -, he⟩
    · obtain rfl := Option.some.inj (he.symm.trans h.victim.entry)
      exact Or.inl ⟨e, List.mem_of_getElem? he, by rw [h.victim.resident]; nofun, rfl⟩
    · exact hold (List.mem_of_getElem? he)
  | evictFail h =>
    rw [h.proc] at he'
    exact hold he'
  | load he hva _ _ hvalid h =>
    rw [h.proc] at he'
    rcases mem_modify he' with ⟨e, hi, rfl⟩ | ⟨k, -, hk⟩
    · have hsame := va_of_map h.fetched.same.2.2.2 he hi
      exact Or.inr ⟨by rwa [hsame, hva], _, List.mem_of_getElem? he, hsame.symm⟩
    · obtain ⟨e, he, hst, hva⟩ := h.fetched.states (List.mem_of_getElem? hk)
      exact Or.inl ⟨e, he, by rw [hst]; exact hs', hva⟩
  | loadFail _ _ _ h =>
    cases h with
    | read => exact hold he'
    | map _ hf =>
      obtain ⟨e, he, hst, hva⟩ := hf.states he'
      exact Or.inl ⟨e, he, by rw [hst]; exact hs', hva⟩
  | firstWrite h =>
    rcases mem_modify he' with ⟨e, he, rfl⟩ | ⟨k, -, he⟩
    · exact Or.inl ⟨e, List.mem_of_getElem? he, hs', rfl⟩
    · exact hold (List.mem_of_getElem? he)

/-- The stack page of a new image lies above the guard page. -/
theorem commit_offGuard {path : List Char} {st : Scan} {entry sp : Nat} {pt : PageTable} : OffGuard (p.commit path st entry pt sp) := by
  rw [commit_eq]
  intro e he _
  rw [List.mem_singleton.mp he]
  rintro ⟨-, hlt⟩
  have hmod := imageTop_mod st.sz
  have hbase : pgRoundDown (sub64 (imageTop st.sz) pgSize) = stackBase (imageTop st.sz) := by
    refine pgRoundDown_of_aligned ?_
    unfold sub64 pgSize
    omega
  change pgRoundDown (sub64 (imageTop st.sz) pgSize) < stackBase (imageTop st.sz) at hlt
  rw [hbase] at hlt
  exact lt_irrefl _ hlt

theorem offGuard_kept : Kept (fun _ => True) (fun p => p.Aligned ∧ OffGuard p) where
  page := by
    rintro m m' p p' ev hs ⟨hal, h⟩
    refine ⟨aligned_kept.page hs hal, ?_⟩
    intro e' he' hs'
    have hguard : ∀ va, inGuard p' va ↔ inGuard p va := by
      intro va
      unfold inGuard
      rw [hs.image.stackTop]
    rw [hguard]
    rcases hs.used he' hs' with ⟨e, he, hst, hva⟩ | ⟨hvalid, e, he, hva⟩
    · rw [← hva]
      exact h e he hst
    · exact h.valid (by rw [← hva]; exact hal _ (List.mem_map_of_mem he)) hvalid
  sbrk := by
    rintro m m' p p' n eager r hG hc ⟨hal, h⟩
    refine ⟨aligned_kept.sbrk hG hc hal, ?_⟩
    rw [(sysSbrk_env hc).2]
    exact h
  exec := by
    rintro m m' p p' path argv o hG hargs hc ⟨hal, h⟩
    refine ⟨aligned_kept.exec hG hargs hc hal, ?_⟩
    rcases kexec_cases hargs hc with ⟨-, hfail, -⟩ | ⟨argc, fs₀, fs, ip, mem, pt, sp, -, rfl, -⟩
    · cases hfail <;> exact h
    · exact commit_offGuard
  fork := by
    rintro p q np i hc ⟨hal, h⟩
    refine ⟨aligned_kept.fork hc hal, ?_⟩
    cases hc with
    | mk =>
      intro e' he' hs'
      obtain ⟨e, he, rfl⟩ := List.mem_map.mp he'
      refine h e he ?_
      intro hst
      rw [forkPage, hst] at hs'
      exact hs' rfl
  other := fun _ _ _ _ _ _ _ h => h

theorem Boot.offGuard (hb : Boot s) : EveryLive (fun p => p.Aligned ∧ OffGuard p) s :=
  hb.everyLive (fun _ _ _ _ _ _ => ⟨commit_aligned, commit_offGuard⟩)

/-! ## After a fault -/

/-- The entry a fault works on is the one the next fault of the page finds. -/
theorem Tracked.found (h : Tracked p va i p') : findPageInfo p' va = some i := by
  cases h with
  | old hfind => exact hfind
  | new hfind =>
    change List.findIdx? _ (p.pages ++ [_]) = _
    rw [List.findIdx?_append]
    change (findPageInfo p va).or _ = _
    rw [hfind]
    simp

theorem findPageInfo_of_map (h : p'.pages.map PageInfo.va = p.pages.map PageInfo.va) : findPageInfo p' va = findPageInfo p va := by
  rw [findPageInfo_map, findPageInfo_map, h]

/-- Getting a page of memory leaves the image and the addresses of the entries. -/
theorem Freed.kept (h : Freed m p m' p') : SameImage p p' ∧ p'.pages.map PageInfo.va = p.pages.map PageInfo.va := by
  cases h with
  | free => exact ⟨SameImage.refl p, rfl⟩
  | clean _ hx =>
    rw [hx.proc]
    exact ⟨rfl, map_va_modify (by simp)⟩
  | dirty _ hx =>
    rw [hx.proc]
    exact ⟨rfl, map_va_modify (by simp)⟩

/-- The next fault for a write grants the write to a page that was loaded. -/
theorem Load.grants {src : Source} {m₁ m₂ : Machine} {mem : Pa} {p₂ : Proc} {page : Page} {pt : PageTable}
    (h : Load m p i va src m₁ mem m₂ p₂ page pt m' p') (hlt : va < maxVa) (htext : ¬inText p va)
    (hfound : findPageInfo p va = some i) : GrantsWrite p' va .write i := by
  have hsame := h.fetched.same
  have hfound₂ : findPageInfo p₂ va = some i := (findPageInfo_of_map hsame.2.2.2).trans hfound
  obtain ⟨e, he, -⟩ := findPageInfo_some hfound₂
  have hentry : p'.pages[i]? = some { e with state := .resident, seq := p₂.nextFifoSeq, isDirty := false } := by
    rw [h.proc]
    change (p₂.pages.modify i _)[i]? = _
    simp [he]
  have hva : p'.pages.map PageInfo.va = p₂.pages.map PageInfo.va := by
    rw [h.proc]
    exact map_va_modify (by simp)
  have himg : SameImage p p' := by
    rw [h.proc]
    exact hsame.2.1.trans rfl
  have hfound' : findPageInfo p' va = some i := (findPageInfo_of_map hva).trans hfound₂
  refine ⟨rfl, _, ⟨mem, src.perm p va⟩, hlt, ?_, Source.perm_u _ _ _, ?_, hfound', hentry, rfl, rfl⟩
  · rw [h.leaf.1, Function.update_self]
  · rw [himg]
    exact htext

/-- The table after the first write to a page. -/
theorem FirstWrite.granted {e : PageInfo} {pte : Pte} (h : FirstWrite p va i e pte) :
    (firstWrite p i va).pagetable.leaf (va / 4096) = some { pte with perm := { pte.perm with w := true } } := by
  change (p.pagetable.modLeaf _ _).leaf _ = _
  rw [PageTable.modLeaf_leaf _ _ _ _ h.leaf, Function.update_self]

/-- After a fault that succeeded the page is mapped for the user. A load is allowed then. A store is allowed, or the next fault grants
it. -/
theorem Faulted.serves (h : Faulted m p va access m' p' true) (hal : va % 4096 = 0) (hoff : OffGuard p) :
    ∃ pte, p'.pagetable.leaf (va / 4096) = some pte ∧ pte.perm.u = true ∧ (access = .read → pte.perm.r = true) ∧
      (access = .write → pte.perm.w = true ∨ ∃ i, GrantsWrite p' va .write i) := by
  cases h with
  | firstWrite hacc hw =>
    subst hacc
    exact ⟨_, hw.granted, hw.user, nofun, fun _ => Or.inl rfl⟩
  | load hpass htr he hl =>
    cases hl with
    | load hfreed hload =>
      rename_i i e p₀ m₁ m₂ m₃ p₁ p₂ mem page pt
      obtain ⟨himg, hva⟩ := hfreed.kept
      have hfound : findPageInfo p₁ va = some i := (findPageInfo_of_map hva).trans htr.found
      refine ⟨_, by rw [hload.leaf.1, Function.update_self], Source.perm_u _ _ _, fun _ => Source.perm_r _ _ _, ?_⟩
      intro hacc
      have htext : ¬inText p va := fun ht => hpass.text ⟨⟨hoff.valid hal hpass.valid, ht⟩, hacc⟩
      refine Or.inr ⟨i, hload.grants hpass.lt ?_ hfound⟩
      rw [himg]
      cases htr with
      | old => exact htext
      | new => exact htext

/-! ## Retries -/

/-- The hardware allows process `i` an access at address `a`. -/
def AccessAllowed (s : Sys) (i a : Nat) (access : Access) : Prop := (translate (s.proc i).pagetable a access.allowed).isSome

/-- What can happen before process `i` tries an access again: an event of another process, or a fault for the fetch of the instruction,
which the label gives. A fault that fails kills the process. -/
inductive RetryStep (i : Nat) : Sys → Option Nat → Sys → Prop where
  | other {s t : Sys} {ev : Event} (h : SysStep s ev t) (of : ¬ev.of i) : RetryStep i s none t
  | fetch {s : Sys} {pc : Nat} {m : Machine} {p : Proc} (refused : ¬AccessAllowed s i pc .exec)
      (h : handlePageFault s.m (s.proc i) pc .exec true = .ok (m, p, true)) : RetryStep i s (some pc) (s.put i m p)

/-- The fetch of an instruction of process `i` does not evict page `va`: there is a free page, or the victim is another page. -/
def SparesPage (i va : Nat) (s : Sys) (fetch : Option Nat) : Prop :=
  fetch.isSome → s.m.freelist ≠ [] ∨ ∀ j e pte, Victim (s.proc i) j e pte → e.va ≠ va

/-- From here on process `i` gets through an access at address `a` after at most `n` more faults at this address, all of which succeed.
Before every try the other processes may do what they want, and the fetch of the instruction may fault where `G` admits it. -/
def CompletesWithin (G : Sys → Option Nat → Prop) (i a : Nat) (access : Access) : Nat → Sys → Prop
  | 0, s => ∀ ls t, Run (Guarded G (RetryStep i)) s ls t → AccessAllowed t i a access
  | n + 1, s => ∀ ls t, Run (Guarded G (RetryStep i)) s ls t → AccessAllowed t i a access ∨
      ∃ m p, handlePageFault t.m (t.proc i) a access true = .ok (m, p, true) ∧ CompletesWithin G i a access n (t.put i m p)

/-- The faults an access may still take after its first one. -/
def Access.moreFaults : Access → Nat
  | .write => 1
  | .read | .exec => 0

theorem translate_of_leaf {pt : PageTable} {a : Nat} {need : Perm → Bool} {pte : Pte} (h : pt.leaf (a / 4096) = some pte)
    (hu : pte.perm.u = true) (hneed : need pte.perm = true) : (translate pt a need).isSome := by
  have hlt := pt.lt_of_leaf (v := a / 4096) (by rw [h]; rfl)
  unfold translate maxVa
  rw [if_neg (by omega), h]
  simp [hu, hneed]

/-- The process keeps page `va` as it is: its leaf, its entry and its permission to be written to. -/
structure KeepsPage (va : Nat) (p p' : Proc) : Prop where
  leaf : p'.pagetable.leaf (va / 4096) = p.pagetable.leaf (va / 4096)
  image : p'.textStart = p.textStart ∧ p'.textEnd = p.textEnd
  found : ∀ j, findPageInfo p va = some j → findPageInfo p' va = some j
  entry : ∀ (j : Nat) (e : PageInfo), p.pages[j]? = some e → e.va = va → p'.pages[j]? = some e

theorem KeepsPage.refl (va : Nat) (p : Proc) : KeepsPage va p p := ⟨rfl, ⟨rfl, rfl⟩, fun _ => id, fun _ _ he _ => he⟩

theorem KeepsPage.trans {q : Proc} (h : KeepsPage va p p') (h' : KeepsPage va p' q) : KeepsPage va p q where
  leaf := h'.leaf.trans h.leaf
  image := ⟨h'.image.1.trans h.image.1, h'.image.2.trans h.image.2⟩
  found j hj := h'.found j (h.found j hj)
  entry j e he hva := h'.entry j e (h.entry j e he hva) hva

theorem Touched.keepsPage (h : Touched p p') : KeepsPage va p p' := by
  obtain ⟨-, parent, killed, state, rfl⟩ := h
  exact ⟨rfl, ⟨rfl, rfl⟩, fun _ => id, fun _ _ he _ => he⟩

theorem FirstWrite.entryVa {e : PageInfo} {pte : Pte} (h : FirstWrite p va i e pte) : e.va = pgRoundDown va := by
  obtain ⟨e', he', hva⟩ := findPageInfo_some h.found
  obtain rfl := Option.some.inj (h.entry.symm.trans he')
  exact hva

/-- The first write to a page is still to be granted when the page is kept. -/
theorem KeepsPage.grants {j : Nat} (h : KeepsPage va p p') (hal : va % 4096 = 0) (hg : GrantsWrite p va access j) :
    GrantsWrite p' va access j := by
  obtain ⟨hacc, e, pte, hw⟩ := hg
  have hva : e.va = va := hw.entryVa.trans (pgRoundDown_of_aligned hal)
  refine ⟨hacc, e, pte, hw.lt, h.leaf.trans hw.leaf, hw.user, ?_, h.found j hw.found, h.entry j e hw.entry hva, hw.resident, hw.clean⟩
  unfold inText
  rw [h.image.1, h.image.2]
  exact hw.text

/-- An entry for another page changes, and the leaf of another page. -/
theorem KeepsPage.modify {f : PageInfo → PageInfo} {e : PageInfo} (he : p.pages[i]? = some e) (hne : e.va ≠ va)
    (hpages : p'.pages = p.pages.modify i f) (hf : ∀ x, (f x).va = x.va)
    (hleaf : p'.pagetable.leaf (va / 4096) = p.pagetable.leaf (va / 4096))
    (himage : p'.textStart = p.textStart ∧ p'.textEnd = p.textEnd) : KeepsPage va p p' := by
  refine ⟨hleaf, himage, ?_, ?_⟩
  · intro j hj
    exact (findPageInfo_of_map (by rw [hpages, map_va_modify hf])).trans hj
  · intro j x hx hva
    have hij : i ≠ j := by
      rintro rfl
      obtain rfl := Option.some.inj (he.symm.trans hx)
      exact hne hva
    rw [hpages, List.getElem?_modify, hx]
    simp [hij]

theorem Tracked.keepsPage {f : Nat} (h : Tracked p f i p') : KeepsPage va p p' := by
  cases h with
  | old => exact .refl va p
  | new =>
    refine ⟨rfl, ⟨rfl, rfl⟩, ?_, ?_⟩
    · intro j hj
      change List.findIdx? _ (p.pages ++ [_]) = _
      rw [List.findIdx?_append]
      change (findPageInfo p va).or _ = _
      rw [hj]
      rfl
    · intro j e he _
      obtain ⟨hlt, -⟩ := List.getElem?_eq_some_iff.mp he
      change (p.pages ++ [_])[j]? = some e
      rw [List.getElem?_append_left hlt]
      exact he

theorem Freed.keepsPage (h : Freed m p m' p') (hp : p.Aligned) (hal : va % 4096 = 0)
    (hspares : m.freelist ≠ [] ∨ ∀ j e pte, Victim p j e pte → e.va ≠ va) : KeepsPage va p p' := by
  have hvictim : ∀ {j : Nat} {e : PageInfo} {pte : Pte} {f : PageInfo → PageInfo}, m.freelist = [] → Victim p j e pte →
      (∀ x, (f x).va = x.va) → p'.pages = p.pages.modify j f → p'.pagetable = p.pagetable.clearLeaf (e.va / 4096) →
      p'.textStart = p.textStart ∧ p'.textEnd = p.textEnd → KeepsPage va p p' := by
    intro j e pte f hempty hv hf hpages hpt himage
    have hne := hspares.resolve_left (not_not.mpr hempty) j e pte hv
    have hal' := hp.entry hv.entry
    refine .modify hv.entry hne hpages hf ?_ himage
    rw [hpt, PageTable.clearLeaf_leaf, Function.update_of_ne (by omega)]
  cases h with
  | free => exact .refl va p
  | clean hempty hx =>
    rw [hx.proc] at hvictim ⊢
    exact hvictim (f := fun e => { e with state := .unmapped }) hempty hx.victim (fun _ => rfl) rfl rfl ⟨rfl, rfl⟩
  | dirty hempty hx =>
    rename_i slot _ _ _
    rw [hx.proc] at hvictim ⊢
    exact hvictim (f := fun e => { e with state := .swapped, swapSlot := slot }) hempty hx.victim (fun _ => rfl) rfl rfl ⟨rfl, rfl⟩

/-- Loading another page. -/
theorem Load.keepsPage {src : Source} {m₁ m₂ : Machine} {mem : Pa} {p₂ : Proc} {page : Page} {pt : PageTable} {f : Nat} {e : PageInfo}
    (h : Load m p i f src m₁ mem m₂ p₂ page pt m' p') (he : p.pages[i]? = some e) (hva : e.va = f) (hf : f % 4096 = 0)
    (hal : va % 4096 = 0) (hne : f ≠ va) : KeepsPage va p p' := by
  obtain ⟨g, hg, hpages, -⟩ := h.fetched.pages
  have himage := h.fetched.same.2.1
  have hpages' : p'.pages = p.pages.modify i (fun x => { g x with state := .resident, seq := p₂.nextFifoSeq, isDirty := false }) := by
    rw [h.proc]
    change p₂.pages.modify i _ = _
    rw [hpages, List.modify_modify_eq]
    rfl
  refine .modify he (hva ▸ hne) hpages' ?_ ?_ ?_
  · intro x
    change (g x).va = x.va
    rw [hg x]
  · rw [h.leaf.1, Function.update_of_ne (by omega)]
  · rw [h.proc]
    change p₂.textStart = _ ∧ p₂.textEnd = _
    rw [himage.eq]
    exact ⟨rfl, rfl⟩

/-- The fetch of an instruction that does not evict page `va` keeps it, if it is mapped. -/
theorem fetch_keepsPage {pc : Nat} {pte : Pte} (hp : p.Aligned) (hal : va % 4096 = 0) (hleaf : p.pagetable.leaf (va / 4096) = some pte)
    (hspares : m.freelist ≠ [] ∨ ∀ j e pte, Victim p j e pte → e.va ≠ va)
    (hf : handlePageFault m p pc .exec true = .ok (m', p', true)) : KeepsPage va p p' := by
  cases handlePageFault_cases hf with
  | firstWrite hacc => cases hacc
  | load hpass htr he hl =>
    rename_i i e p₀
    have hround : pgRoundDown (pgRoundDown pc) = pgRoundDown pc := pgRoundDown_of_aligned (pgRoundDown_mod pc)
    cases hl with
    | load hfreed hload =>
      rename_i m₁ m₂ m₃ p₁ p₂ mem page pt
      have hp₀ : p₀.Aligned := htr.aligned hp
      have hfreed' := hfreed.keepsPage hp₀ hal (hspares.imp_right fun hs j e pte hv => hs j e pte (htr.victim.mp hv))
      have hkeeps : KeepsPage va p p₁ := htr.keepsPage.trans hfreed'
      obtain ⟨e₀, he₀, hva₀⟩ := findPageInfo_some htr.found
      obtain ⟨e₁, he₁, hva₁⟩ := findPageInfo_some ((findPageInfo_of_map hfreed.kept.2).trans htr.found)
      -- the page of the instruction was not mapped when it was loaded
      have hne : pgRoundDown pc ≠ va := by
        rintro rfl
        have hnone := hload.leaf.2.1
        rw [hkeeps.leaf, hleaf] at hnone
        cases hnone
      exact hkeeps.trans (hload.keepsPage he₁ (hva₁.trans hround) (pgRoundDown_mod pc) hal hne)

/-- Process `i` is there, and has kept page `va` of `p`. -/
structure Holding (i va : Nat) (p : Proc) (s : Sys) : Prop where
  live : (s.proc i).live
  aligned : (s.proc i).Aligned
  keeps : KeepsPage va p (s.proc i)

theorem RetryStep.holding {l : Option Nat} {pte : Pte} (h : RetryStep i s l t) (hspares : SparesPage i va s l) (hal : va % 4096 = 0)
    (hleaf : p.pagetable.leaf (va / 4096) = some pte) (hs : Holding i va p s) : Holding i va p t := by
  cases h with
  | other h hev =>
    have htouched := h.touched hev hs.live
    refine ⟨htouched.1, ?_, hs.keeps.trans htouched.keepsPage⟩
    obtain ⟨-, parent, killed, state, hp⟩ := htouched
    rw [hp]
    exact hs.aligned
  | fetch refused hf =>
    have hkeeps := fetch_keepsPage hs.aligned hal (hs.keeps.leaf.trans hleaf) (hspares rfl) hf
    have hrun := handlePageFault_run hf
    refine ⟨?_, ?_, ?_⟩
    all_goals rw [Sys.put_proc_self]
    · rw [Proc.live, hrun.image.state]
      exact hs.live
    · obtain ⟨evs, hr⟩ := hrun
      exact hr.invariant (fun x => x.2.Aligned) (fun _ _ _ hx hg => aligned_kept.page hg.2 hx) hs.aligned
    · exact hs.keeps.trans hkeeps

/-- A page that is mapped is kept until the access is tried again. -/
theorem Holding.run {ls : List (Option Nat)} {pte : Pte} (hs : Holding i va p s) (hal : va % 4096 = 0)
    (hleaf : p.pagetable.leaf (va / 4096) = some pte) (h : Run (Guarded (SparesPage i va) (RetryStep i)) s ls t) : Holding i va p t :=
  h.invariant (Holding i va p) (fun _ _ _ hx hg => hg.2.holding hg.1 hal hleaf hx) hs

/-- An access that is allowed stays allowed. -/
theorem completesWithin_zero {a : Nat} {pte : Pte} (hs : Holding i (pgRoundDown a) p s) (h : p.pagetable.leaf (a / 4096) = some pte)
    (hu : pte.perm.u = true) (hneed : access.allowed pte.perm = true) : CompletesWithin (SparesPage i (pgRoundDown a)) i a access 0 s := by
  intro ls t hr
  rw [← pgRoundDown_div] at h
  have hkept := (hs.run (pgRoundDown_mod a) h hr).keeps.leaf.trans h
  rw [pgRoundDown_div] at hkept
  exact translate_of_leaf hkept hu hneed

/-- A store that the next fault grants. -/
theorem completesWithin_one {a j : Nat} (hs : Holding i (pgRoundDown a) p s) (h : GrantsWrite p (pgRoundDown a) .write j) :
    CompletesWithin (SparesPage i (pgRoundDown a)) i a .write 1 s := by
  intro ls t hr
  have hleaf : ∃ pte, p.pagetable.leaf (pgRoundDown a / 4096) = some pte := by
    obtain ⟨-, e, pte, hw⟩ := h
    exact ⟨pte, hw.leaf⟩
  obtain ⟨pte, hleaf⟩ := hleaf
  have hholds := hs.run (pgRoundDown_mod a) hleaf hr
  have hgrant := hholds.keeps.grants (pgRoundDown_mod a) h
  refine Or.inr ⟨_, _, handlePageFault_grants hgrant, ?_⟩
  obtain ⟨-, e, pte', hw⟩ := hgrant
  have hgranted := hw.granted
  rw [pgRoundDown_div] at hgranted
  have hu : ({ pte' with perm := { pte'.perm with w := true } } : Pte).perm.u = true := hw.user
  have hwrites : PageStep (t.m, t.proc i) (.firstWrite j (pgRoundDown a)) (t.m, firstWrite (t.proc i) j (pgRoundDown a)) :=
    .firstWrite hw (hw.entryVa.trans (pgRoundDown_of_aligned (pgRoundDown_mod a)))
  refine completesWithin_zero (p := firstWrite (t.proc i) j (pgRoundDown a)) ⟨?_, ?_, ?_⟩ hgranted hu rfl
  all_goals rw [Sys.put_proc_self]
  · exact hholds.live
  · exact aligned_kept.page hwrites hholds.aligned
  · exact .refl _ _

/-- Faulting accesses make progress: in every state that a run from boot reaches, after a fault of a load or a store at any address that
returned 0, the load is allowed when it is tried again, and the store after at most one more fault at that address, as long as no fetch of
the instruction evicts the page. -/
theorem faulting_access_completes {a : Nat} (h : Reach Boot Step t) (hl : (t.proc i).live) (hacc : access ≠ .exec)
    (hf : handlePageFault t.m (t.proc i) a access true = .ok (m', p', true)) :
    CompletesWithin (SparesPage i (pgRoundDown a)) i a access access.moreFaults (t.put i m' p') := by
  have hal := pgRoundDown_mod a
  obtain ⟨haligned, hoff⟩ := offGuard_kept.reach (fun _ hb => hb.offGuard) h i hl
  obtain ⟨pte, hleaf, hu, hread, hwrite⟩ := (handlePageFault_cases hf).serves hal hoff
  rw [pgRoundDown_div] at hleaf
  have hholds : Holding i (pgRoundDown a) p' (t.put i m' p') := by
    have hrun := handlePageFault_run hf
    refine ⟨?_, ?_, ?_⟩
    all_goals rw [Sys.put_proc_self]
    · rw [Proc.live, hrun.image.state]
      exact hl
    · obtain ⟨evs, hr⟩ := hrun
      exact hr.invariant (fun x => x.2.Aligned) (fun _ _ _ hx hg => aligned_kept.page hg.2 hx) haligned
    · exact .refl _ _
  cases access with
  | exec => exact absurd rfl hacc
  | read => exact completesWithin_zero hholds hleaf hu (hread rfl)
  | write =>
    rcases hwrite rfl with hw | ⟨j, hgrant⟩
    · have hzero : CompletesWithin (SparesPage i (pgRoundDown a)) i a .write 0 (t.put i m' p') := completesWithin_zero hholds hleaf hu hw
      exact fun ls u hr => Or.inl (hzero ls u hr)
    · exact completesWithin_one hholds hgrant

/-- A program that reads the first three pages of its heap. -/
def fillHeap : List Action := [.sbrk 0 16384 false, .fault 0 16384 .read, .fault 0 20480 .read, .fault 0 24576 .read]

/-- When it has no more memory, a store to the fourth page has to evict the stack page first. -/
theorem faulting_access_completes_evict : ∃ t m' p', Run Step (smallBoot smallFiles 11) fillHeap t ∧ t.m.freelist = [] ∧
    handlePageFault t.m (t.proc 0) 28672 .write true = .ok (m', p', true) ∧
      CompletesWithin (SparesPage 0 (pgRoundDown 28672)) 0 28672 .write 1 (t.put 0 m' p') := by
  have hex : (replay (smallBoot smallFiles 11) fillHeap).any (fun t => t.m.freelist = [] ∧ (t.proc 0).live ∧
      (handlePageFault t.m (t.proc 0) 28672 .write true).toOption.any (fun x => x.2.2)) = true := by
    decide +kernel
  obtain ⟨t, ht, hex⟩ := (Option.any_eq_true _ _).mp hex
  obtain ⟨hfree, hlive, hfault⟩ := of_decide_eq_true hex
  obtain ⟨⟨m', p', r⟩, hf, hr⟩ := ok_of_any hfault
  obtain rfl : r = true := hr
  have hboot : Boot (smallBoot smallFiles 11) := smallBoot_boot (by decide) (by decide +kernel)
  exact ⟨t, m', p', replay_run ht, hfree, hf, faulting_access_completes ⟨_, _, hboot, replay_run ht⟩ hlive (by decide) hf⟩

/-- The kernel takes every free page, so that the process is left with the frame of its stack page. -/
def oneFrame : List Action := [.sbrk 0 4096 false, .kalloc, .kalloc, .kalloc]

/-- A load from the heap, and the fetch of its instruction. -/
def loadAndFetch : List Action := [.fault 0 16384 .read, .fault 0 0 .exec]

/-- A load is not through after its fault: the fetch of its instruction evicts the page again. And so it goes on: after three rounds the
load is refused as it was before the first. -/
theorem load_and_fetch_alternate : (¬∀ t i a access m' p', Reach Boot Step t → (t.proc i).live → access ≠ .exec →
      handlePageFault t.m (t.proc i) a access true = .ok (m', p', true) →
      CompletesWithin (fun _ _ => True) i a access access.moreFaults (t.put i m' p')) ∧
    ∃ t, Run Step (smallBoot smallFiles 11) (oneFrame ++ loadAndFetch ++ loadAndFetch ++ loadAndFetch) t ∧ ¬AccessAllowed t 0 16384 .read := by
  have hboot : Boot (smallBoot smallFiles 11) := smallBoot_boot (by decide) (by decide +kernel)
  constructor
  · intro hall
    have hex : (replay (smallBoot smallFiles 11) oneFrame).any (fun t => decide (t.proc 0).live &&
        (handlePageFault t.m (t.proc 0) 16384 .read true).toOption.any (fun x => x.2.2 &&
          decide ((translate x.2.1.pagetable 0 Perm.x).isSome = false) &&
          (handlePageFault x.1 x.2.1 0 .exec true).toOption.any (fun y => y.2.2 &&
            decide ((translate y.2.1.pagetable 16384 Perm.r).isSome = false)))) = true := by
      decide +kernel
    obtain ⟨t, ht, hex⟩ := (Option.any_eq_true _ _).mp hex
    rw [Bool.and_eq_true, decide_eq_true_eq] at hex
    obtain ⟨hlive, hfault⟩ := hex
    obtain ⟨⟨m₁, p₁, r₁⟩, hf₁, hx⟩ := ok_of_any hfault
    simp only [Bool.and_eq_true, decide_eq_true_eq] at hx
    obtain ⟨⟨rfl, hfetch⟩, hsecond⟩ := hx
    obtain ⟨⟨m₂, p₂, r₂⟩, hf₂, hx⟩ := ok_of_any hsecond
    simp only [Bool.and_eq_true, decide_eq_true_eq] at hx
    obtain ⟨rfl, hno⟩ := hx
    have hstep : RetryStep 0 (t.put 0 m₁ p₁) (some 0) ((t.put 0 m₁ p₁).put 0 m₂ p₂) := by
      refine .fetch ?_ ?_
      · unfold AccessAllowed
        rw [Sys.put_proc_self, Access.allowed, hfetch]
        nofun
      · rw [Sys.put_m, Sys.put_proc_self]
        exact hf₂
    have hall' := hall t 0 16384 .read m₁ p₁ ⟨_, _, hboot, replay_run ht⟩ hlive (by decide) hf₁ _ _ (Run.single ⟨trivial, hstep⟩)
    unfold AccessAllowed at hall'
    rw [Sys.put_proc_self, Access.allowed, hno] at hall'
    cases hall'
  · have hex : (replay (smallBoot smallFiles 11) (oneFrame ++ loadAndFetch ++ loadAndFetch ++ loadAndFetch)).any (fun t =>
        decide ((translate (t.proc 0).pagetable 16384 Perm.r).isSome = false)) = true := by decide +kernel
    obtain ⟨t, ht, hno⟩ := (Option.any_eq_true _ _).mp hex
    refine ⟨t, replay_run ht, ?_⟩
    unfold AccessAllowed
    rw [Access.allowed, of_decide_eq_true hno]
    nofun

end Xv6SnifferBakery.Kernel
