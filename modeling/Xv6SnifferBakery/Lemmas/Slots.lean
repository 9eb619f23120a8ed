import Xv6SnifferBakery.Lemmas.Extent
import Xv6SnifferBakery.Lemmas.Room
import Xv6SnifferBakery.Lemmas.SwapSlots
import Xv6SnifferBakery.Lib.Exclusive

/-!
# Who holds the swap slots

Every page in the swap file holds a slot of its own, and gives it up in the step that takes the page back: that step cannot stop half
way, because the tables of a page that was mapped once stay.
-/

namespace Xv6SnifferBakery.Kernel

open Lib

variable {m m' : Machine} {p p' : Proc} {pt pt' pt'' : PageTable} {i : Nat}

/-! ## Tables stay -/

/-- The level-0 tables of `pt` are there in `pt'`. -/
def PageTable.KeepsLow (pt pt' : PageTable) : Prop := ∀ k, (pt.low k).isSome → (pt'.low k).isSome

theorem PageTable.KeepsLow.refl (pt : PageTable) : pt.KeepsLow pt := fun _ h => h

theorem PageTable.KeepsLow.trans (h : pt.KeepsLow pt') (h' : pt'.KeepsLow pt'') : pt.KeepsLow pt'' := fun k hk => h' k (h k hk)

theorem PageTable.KeepsLow.of_eq (h : pt'.low = pt.low) : pt.KeepsLow pt' := fun _ hk => h ▸ hk

theorem setLow_keepsLow (k : Nat) (pa : Pa) : pt.KeepsLow (pt.setLow k pa) := by
  intro j hj
  by_cases hmid : (pt.mid (k / 512)).isSome
  · rw [PageTable.setLow_low _ _ _ hmid, isSome_update]
    exact Or.inr hj
  · rwa [PageTable.setLow, dif_neg hmid]

theorem walk_keepsLow {va : Nat} {o : Option Nat} (h : walk m pt va true = .ok (m', pt', o)) : pt.KeepsLow pt' := by
  unfold walk at h
  split at h
  · nomatch h
  split at h
  · obtain ⟨-, rfl, -⟩ := (by simpa using h : m = m' ∧ pt = pt' ∧ none = o)
    exact .refl pt
  · rename_i mid _
    dsimp only at h
    have hmid : pt.KeepsLow (pt.setMid (va / 2 ^ 30) mid) := .of_eq (PageTable.setMid_low _ _ _)
    split at h
    · simp only [Except.ok.injEq, Prod.mk.injEq] at h
      obtain ⟨-, rfl, -⟩ := h
      exact hmid
    · simp only [Except.ok.injEq, Prod.mk.injEq] at h
      obtain ⟨-, rfl, -⟩ := h
      exact hmid.trans (setLow_keepsLow _ _)

theorem mappagesLoop_keepsLow {perm : Perm} {n a : Nat} {pa : Pa} {r : Bool} (h : mappagesLoop perm n m pt a pa = .ok (m', pt', r)) :
    pt.KeepsLow pt' := by
  induction n generalizing m pt a pa with
  | zero =>
    simp only [mappagesLoop, Except.ok.injEq, Prod.mk.injEq] at h
    obtain ⟨-, rfl, -⟩ := h
    exact .refl pt
  | succ n ih =>
    rw [mappagesLoop] at h
    obtain ⟨⟨m₁, pt₁, o⟩, hw, h⟩ := bind_ok h
    have hwalk := walk_keepsLow hw
    cases o with
    | none =>
      simp only [Except.ok.injEq, Prod.mk.injEq] at h
      obtain ⟨-, rfl, -⟩ := h
      exact hwalk
    | some v =>
      simp only at h
      split at h
      · cases h
      · exact hwalk.trans ((PageTable.KeepsLow.of_eq (PageTable.setLeaf_low _ _ _)).trans (ih h))

theorem mappages_keepsLow {va size : Nat} {pa : Pa} {perm : Perm} {r : Bool} (h : mappages m pt va size pa perm = .ok (m', pt', r)) :
    pt.KeepsLow pt' := by
  unfold mappages at h
  split at h
  · nomatch h
  split at h
  · nomatch h
  split at h
  · nomatch h
  exact mappagesLoop_keepsLow h

theorem uvmunmap_keepsLow {va n : Nat} {doFree : Bool} (h : uvmunmap m pt va n doFree = .ok (m', pt')) : pt.KeepsLow pt' := by
  unfold uvmunmap at h
  split at h
  · nomatch h
  refine forFrom_inv (fun _ s => pt.KeepsLow s.2) h (.refl pt) ?_
  rintro k ⟨m₁, pt₁⟩ ⟨m₂, pt₂⟩ - - hP hb
  refine hP.trans (.of_eq ?_)
  cases doFree with
  | true => rw [(unmapPage_spec hb).clear, PageTable.clearLeaf_low]
  | false => rw [(unmapPage_keep hb).2, PageTable.clearLeaf_low]

theorem uvmdealloc_keepsLow {stackTop old new sz : Nat} (h : uvmdealloc m pt stackTop old new = .ok (m', pt', sz)) : pt.KeepsLow pt' := by
  unfold uvmdealloc at h
  split at h
  · simp only [Except.ok.injEq, Prod.mk.injEq] at h
    obtain ⟨-, rfl, -⟩ := h
    exact .refl pt
  · obtain ⟨⟨m₁, pt₁⟩, hl, h⟩ := bind_ok h
    simp only [Except.ok.injEq, Prod.mk.injEq] at h
    obtain ⟨-, rfl, -⟩ := h
    refine forFrom_inv (fun _ s => pt.KeepsLow s.2) hl (.refl pt) ?_
    intro k s t _ _ hP hb
    unfold deallocPage at hb
    split at hb
    · obtain rfl := Except.ok.inj hb
      exact hP
    · exact hP.trans (uvmunmap_keepsLow hb)

theorem uvmallocLoop_keepsLow {stackTop old n a : Nat} {perm : Perm} {r : Bool}
    (h : uvmallocLoop stackTop old perm n m pt a = .ok (m', pt', r)) : pt.KeepsLow pt' := by
  induction n generalizing m pt a with
  | zero =>
    simp only [uvmallocLoop, Except.ok.injEq, Prod.mk.injEq] at h
    obtain ⟨-, rfl, -⟩ := h
    exact .refl pt
  | succ n ih =>
    rw [uvmallocLoop] at h
    split at h
    · obtain ⟨⟨m₁, pt₁, sz⟩, hd, h⟩ := bind_ok h
      simp only [Except.ok.injEq, Prod.mk.injEq] at h
      obtain ⟨-, rfl, -⟩ := h
      exact uvmdealloc_keepsLow hd
    · obtain ⟨⟨m₂, pt₂, o⟩, hm, h⟩ := bind_ok h
      have hmap := mappages_keepsLow hm
      cases o with
      | true => exact hmap.trans (ih h)
      | false =>
        obtain ⟨m₃, -, h⟩ := bind_ok h
        obtain ⟨⟨m₄, pt₄, sz⟩, hd, h⟩ := bind_ok h
        simp only [Except.ok.injEq, Prod.mk.injEq] at h
        obtain ⟨-, rfl, -⟩ := h
        exact hmap.trans (uvmdealloc_keepsLow hd)

/-- A change of size takes no table away. -/
theorem sysSbrk_keepsLow {n : Int} {eager r : Bool} (h : sysSbrk m p n eager = .ok (m', p', r)) : p.pagetable.KeepsLow p'.pagetable := by
  unfold sysSbrk growproc at h
  split at h
  · split at h
    · obtain ⟨⟨m₁, pt₁, o⟩, hu, h⟩ := bind_ok h
      have hgrow : p.pagetable.KeepsLow pt₁ := by
        unfold uvmalloc at hu
        split at hu
        · simp only [Except.ok.injEq, Prod.mk.injEq] at hu
          obtain ⟨-, rfl, -⟩ := hu
          exact .refl _
        · obtain ⟨⟨m₂, pt₂, done⟩, hl, hu⟩ := bind_ok hu
          simp only [Except.ok.injEq, Prod.mk.injEq] at hu
          obtain ⟨-, rfl, -⟩ := hu
          exact uvmallocLoop_keepsLow hl
      cases o with
      | none =>
        simp only [Except.ok.injEq, Prod.mk.injEq] at h
        obtain ⟨-, rfl, -⟩ := h
        exact hgrow
      | some sz =>
        simp only [Except.ok.injEq, Prod.mk.injEq] at h
        obtain ⟨-, rfl, -⟩ := h
        exact hgrow
    · split at h
      · obtain ⟨⟨m₁, pt₁, sz⟩, hd, h⟩ := bind_ok h
        simp only [Except.ok.injEq, Prod.mk.injEq] at h
        obtain ⟨-, rfl, -⟩ := h
        exact uvmdealloc_keepsLow hd
      · simp only [Except.ok.injEq, Prod.mk.injEq] at h
        obtain ⟨-, rfl, -⟩ := h
        exact .refl _
  · split at h
    · simp only [Except.ok.injEq, Prod.mk.injEq] at h
      obtain ⟨-, rfl, -⟩ := h
      exact .refl _
    · simp only [Except.ok.injEq, Prod.mk.injEq] at h
      obtain ⟨-, rfl, -⟩ := h
      exact .refl _

/-- A page event takes no table away. -/
theorem PageStep.keepsLow {ev : PageEvent} (h : PageStep (m, p) ev (m', p')) : p.pagetable.KeepsLow p'.pagetable := by
  cases h with
  | kill | track | store | copy => exact .refl _
  | evictClean hx =>
    rw [hx.proc]
    exact .refl _
  | evictDirty hx =>
    rw [hx.proc]
    exact .refl _
  | evictFail hx =>
    rw [hx.proc]
    exact .refl _
  | load _ _ _ _ _ hx =>
    rw [hx.proc, ← hx.fetched.same.2.2.1]
    exact mappages_keepsLow hx.mapped
  | loadFail _ _ _ hx =>
    cases hx with
    | read => exact .refl _
    | map _ hf hm =>
      rw [← hf.same.2.2.1]
      exact mappages_keepsLow hm
  | firstWrite => exact .of_eq (PageTable.modLeaf_low _ _ _)

/-! ## Slots and entries -/

/-- The slot of an entry, if its page is in the swap file. -/
def PageInfo.held (e : PageInfo) : Option Int := if e.state = .swapped then some e.swapSlot else none

/-- The slot that entry `j` holds. -/
def slotsIn (es : List PageInfo) (j : Nat) : Option Int := es[j]?.bind PageInfo.held

theorem PageInfo.held_some {e : PageInfo} {b : Int} : e.held = some b ↔ e.state = .swapped ∧ e.swapSlot = b := by
  unfold PageInfo.held
  split
  · rename_i hs
    simp [hs]
  · rename_i hs
    simp [hs]

theorem slotsIn_some {es : List PageInfo} {j : Nat} {b : Int} :
    slotsIn es j = some b ↔ ∃ e, es[j]? = some e ∧ e.state = .swapped ∧ e.swapSlot = b := by
  simp only [slotsIn, Option.bind_eq_some_iff, PageInfo.held_some]

/-- One entry is changed. -/
theorem slotsIn_modify {es : List PageInfo} {e : PageInfo} {f : PageInfo → PageInfo} (he : es[i]? = some e) :
    slotsIn (es.modify i f) = Function.update (slotsIn es) i (f e).held := by
  funext j
  rw [slotsIn, List.getElem?_modify]
  by_cases hj : j = i
  · subst hj
    rw [Function.update_self, he]
    simp
  · rw [Function.update_of_ne hj, slotsIn]
    simp [Ne.symm hj]

/-- One entry is changed, and not what it holds. -/
theorem slotsIn_modify_same {es : List PageInfo} {f : PageInfo → PageInfo} (hf : ∀ e, es[i]? = some e → (f e).held = e.held) :
    slotsIn (es.modify i f) = slotsIn es := by
  cases he : es[i]? with
  | none => rw [List.modify_eq_self (List.getElem?_eq_none_iff.mp he)]
  | some e =>
    have hold : slotsIn es i = e.held := by rw [slotsIn, he]; rfl
    rw [slotsIn_modify he, hf e he, ← hold, Function.update_eq_self]

/-- A new entry holds nothing. -/
theorem slotsIn_track {es : List PageInfo} {e : PageInfo} (he : e.held = none) : slotsIn (es ++ [e]) = slotsIn es := by
  funext j
  rw [slotsIn, List.getElem?_append, slotsIn]
  split
  · rfl
  · rename_i hj
    rw [List.getElem?_eq_none_iff.mpr (Nat.not_lt.mp hj)]
    by_cases h0 : j - es.length = 0
    · simp [h0, he]
    · simp [h0]

/-- How many entries are in the swap file. -/
def swappedCount (es : List PageInfo) : Nat := es.countP (fun e => e.state = .swapped)

/-- Those entries are the ones that hold a slot. -/
theorem swappedCount_eq (es : List PageInfo) :
    swappedCount es = ((Finset.range es.length).filter (fun j => (slotsIn es j).isSome)).card := by
  induction es using List.reverseRecOn with
  | nil => rfl
  | append_singleton es e ih =>
    have hold : ∀ j ∈ Finset.range es.length, ((slotsIn (es ++ [e]) j).isSome ↔ (slotsIn es j).isSome) := by
      intro j hj
      rw [slotsIn, List.getElem?_append_left (Finset.mem_range.mp hj), slotsIn]
    have hnew : slotsIn (es ++ [e]) es.length = e.held := by
      rw [slotsIn, List.getElem?_concat_length]
      rfl
    rw [swappedCount, List.countP_append, ← swappedCount, ih, List.length_append, List.length_singleton, Finset.range_add_one,
      Finset.filter_insert, Finset.filter_congr hold, hnew, List.countP_singleton]
    by_cases hs : e.state = .swapped
    · have hsome : e.held.isSome := by simp [PageInfo.held, hs]
      rw [if_pos (by simpa using hs), if_pos hsome, Finset.card_insert_of_notMem (by simp)]
    · have hnone : ¬e.held.isSome := by simp [PageInfo.held, hs]
      rw [if_neg (by simpa using hs), if_neg hnone, Nat.add_zero]

/-! ## The bitmap -/

/-- How many slots the bitmap marks. -/
def slotCount (bitmap : Nat → Bool) : Nat := ((Finset.range maxSwapSlots).filter (fun s => bitmap s = true)).card

theorem slotCount_set {bitmap : Nat → Bool} {slot : Nat} (hclear : bitmap slot = false) (hlt : slot < maxSwapSlots) :
    slotCount (Function.update bitmap slot true) = slotCount bitmap + 1 := by
  have hinsert : (Finset.range maxSwapSlots).filter (fun s => Function.update bitmap slot true s = true) =
      insert slot ((Finset.range maxSwapSlots).filter (fun s => bitmap s = true)) := by
    ext s
    by_cases hs : s = slot
    · simp [hs, hlt]
    · simp [hs]
  rw [slotCount, hinsert, Finset.card_insert_of_notMem (by simp [hclear]), slotCount]

theorem slotCount_clear {bitmap : Nat → Bool} {slot : Nat} (hset : bitmap slot = true) (hlt : slot < maxSwapSlots) :
    slotCount (Function.update bitmap slot false) + 1 = slotCount bitmap := by
  have hclear : Function.update bitmap slot false slot = false := Function.update_self ..
  rw [← slotCount_set hclear hlt, Function.update_idem, ← hset, Function.update_eq_self]

theorem slotCount_empty {bitmap : Nat → Bool} (h : ∀ s, bitmap s = false) : slotCount bitmap = 0 := by
  simp [slotCount, h]

/-- No slot is clear only when all are marked. -/
theorem firstClear_none {bitmap : Nat → Bool} {k n : Nat} : firstClear bitmap k n = none ↔ ∀ s, k ≤ s → s < k + n → bitmap s = true := by
  induction n generalizing k with
  | zero =>
    refine iff_of_true rfl ?_
    intro s h1 h2
    omega
  | succ n ih =>
    rw [firstClear]
    cases hb : bitmap k with
    | false =>
      refine iff_of_false (by simp) ?_
      intro hall
      rw [hall k (Nat.le_refl k) (by omega)] at hb
      cases hb
    | true =>
      rw [if_pos rfl, ih]
      constructor
      · intro hall s h1 h2
        rcases Nat.eq_or_lt_of_le h1 with rfl | hlt
        · exact hb
        · exact hall s hlt (by omega)
      · intro hall s h1 h2
        exact hall s (by omega) (by omega)

theorem slotCount_full {bitmap : Nat → Bool} (h : firstClear bitmap 0 maxSwapSlots = none) : slotCount bitmap = maxSwapSlots := by
  rw [firstClear_none, Nat.zero_add] at h
  rw [slotCount, Finset.filter_true_of_mem (fun s hs => h s (Nat.zero_le s) (Finset.mem_range.mp hs)), Finset.card_range]

/-! ## One event -/

/-- Slot `b` is marked in the bitmap. -/
def Proc.marked (p : Proc) (b : Int) : Prop := ∃ s < maxSwapSlots, p.swapBitmap s = true ∧ (s : Int) = b

/-- The swap slots of a process are in order: the tables of the pages in the swap file are there, each of these pages holds a slot of its
own, which is marked, and the counter counts the marked slots. -/
structure SlotsHeld (p : Proc) : Prop where
  tables : ∀ e ∈ p.pages, e.state = .swapped → (p.pagetable.low (e.va / 2 ^ 21)).isSome
  held : Exclusive (fun _ => False) p.marked (slotsIn p.pages)
  counted : p.swapSlotsUsed = (slotCount p.swapBitmap : Int)

/-- A load that does not take its page from the swap file, though it is there. -/
def PageEvent.losesSlot (p : Proc) : PageEvent → Prop
  | .load src j _ => src ≠ .swap ∧ (slotsIn p.pages j).isSome
  | _ => False

/-- What a page event does to the slots: nothing, or an entry takes a slot that is clear, or gives one back, or loses it. -/
inductive SlotChange (p : Proc) (ev : PageEvent) (p' : Proc) : Prop where
  | same (slots : slotsIn p'.pages = slotsIn p.pages) (bits : p'.swapBitmap = p.swapBitmap) (used : p'.swapSlotsUsed = p.swapSlotsUsed)
  | take {j s : Nat} (clear : firstClear p.swapBitmap 0 maxSwapSlots = some s) (entry : slotsIn p.pages j = none)
      (slots : slotsIn p'.pages = Function.update (slotsIn p.pages) j (some (s : Int)))
      (bits : p'.swapBitmap = Function.update p.swapBitmap s true) (used : p'.swapSlotsUsed = p.swapSlotsUsed + 1)
  | give {j : Nat} {b : Int} (entry : slotsIn p.pages j = some b) (slots : slotsIn p'.pages = Function.update (slotsIn p.pages) j none)
      (bits : p'.swapBitmap = (freeSwapSlot p b).swapBitmap) (used : p'.swapSlotsUsed = (freeSwapSlot p b).swapSlotsUsed)
  | lose {j : Nat} (event : ev.losesSlot p) (slots : slotsIn p'.pages = Function.update (slotsIn p.pages) j none)
      (bits : p'.swapBitmap = p.swapBitmap) (used : p'.swapSlotsUsed = p.swapSlotsUsed)

/-- A victim holds no slot. -/
theorem Victim.slot {e : PageInfo} {pte : Pte} (h : Victim p i e pte) : slotsIn p.pages i = none := by
  have hres := h.resident
  rw [slotsIn, h.entry]
  exact if_neg (by rw [hres]; nofun)

/-- A page that is mapped holds no slot any more; only one from the swap file has given it back. -/
theorem Load.slotChange {src : Source} {va : Nat} {m₁ m₂ : Machine} {mem : Pa} {p₂ : Proc} {page : Page} {e : PageInfo}
    (h : Load m p i va src m₁ mem m₂ p₂ page pt m' p') (he : p.pages[i]? = some e) (hswap : src = .swap → e.state = .swapped) :
    SlotChange p (.load src i va) p' := by
  have hres : ∀ (f : PageInfo → PageInfo), (∀ x, (f x).state = .resident) → ∀ x, (f x).held = none := by
    intro f hf x
    exact if_neg (by rw [hf]; nofun)
  rcases h.fetched.proc with ⟨hne, heq⟩ | ⟨e', hsrc, he', heq⟩
  · have hslots : slotsIn p'.pages = Function.update (slotsIn p.pages) i none := by
      rw [h.proc, heq, ← hres (fun e => { e with state := .resident, seq := p.nextFifoSeq, isDirty := false }) (fun _ => rfl) e]
      exact slotsIn_modify he
    have hbits : p'.swapBitmap = p.swapBitmap ∧ p'.swapSlotsUsed = p.swapSlotsUsed := by
      rw [h.proc, heq]
      exact ⟨rfl, rfl⟩
    cases hold : slotsIn p.pages i with
    | none => exact .same (by rw [hslots, ← hold, Function.update_eq_self]) hbits.1 hbits.2
    | some b => exact .lose ⟨hne, by rw [hold]; rfl⟩ hslots hbits.1 hbits.2
  · obtain rfl := Option.some.inj (he.symm.trans he')
    have hold : slotsIn p.pages i = some e.swapSlot := slotsIn_some.mpr ⟨e, he, hswap hsrc, rfl⟩
    refine .give hold ?_ ?_ ?_
    · have hfetched : ((freeSwapSlot p e.swapSlot).modPage i (fun e => { e with swapSlot := -1 })).pages[i]? =
          some { e with swapSlot := -1 } := by
        change (List.modify (freeSwapSlot p e.swapSlot).pages i _)[i]? = _
        rw [freeSwapSlot_pages, List.getElem?_modify, he]
        simp
      have hmod : slotsIn ((freeSwapSlot p e.swapSlot).modPage i (fun e => { e with swapSlot := -1 })).pages =
          Function.update (slotsIn p.pages) i (PageInfo.held { e with swapSlot := -1 }) := by
        change slotsIn (List.modify (freeSwapSlot p e.swapSlot).pages i _) = _
        rw [freeSwapSlot_pages]
        exact slotsIn_modify he
      rw [h.proc, heq]
      refine (slotsIn_modify hfetched).trans ?_
      rw [hmod, Function.update_idem]
      rfl
    · rw [h.proc, heq]
      rfl
    · rw [h.proc, heq]
      rfl

/-- A load that fails leaves the slots: a page that could be had from the swap file has its tables. -/
theorem LoadFail.slotChange {src : Source} {va : Nat} {e : PageInfo} (h : LoadFail m p i va src m' p') (he : p.pages[i]? = some e)
    (hva : e.va = va) (hswap : src = .swap → e.state = .swapped)
    (htables : ∀ e ∈ p.pages, e.state = .swapped → (p.pagetable.low (e.va / 2 ^ 21)).isSome) : SlotChange p .loadFail p' := by
  cases h with
  | read => exact .same rfl rfl rfl
  | map _ hf hm =>
    rcases hf.proc with ⟨-, rfl⟩ | ⟨e', hsrc, -, -⟩
    · exact .same rfl rfl rfl
    · have habsent := mappages_fail_absent hm
      have hthere := htables e (List.mem_of_getElem? he) (hswap hsrc)
      rw [hf.same.2.2.1] at habsent
      rw [hva, habsent] at hthere
      nomatch hthere

theorem PageStep.slotChange {ev : PageEvent} (h : PageStep (m, p) ev (m', p'))
    (htables : ∀ e ∈ p.pages, e.state = .swapped → (p.pagetable.low (e.va / 2 ^ 21)).isSome) : SlotChange p ev p' := by
  cases h with
  | kill | store | copy => exact .same rfl rfl rfl
  | track => exact .same (slotsIn_track rfl) rfl rfl
  | evictClean hx =>
    rw [hx.proc]
    refine .same (slotsIn_modify_same (fun e he => ?_)) rfl rfl
    obtain rfl := Option.some.inj (he.symm.trans hx.victim.entry)
    exact (if_neg nofun).trans (if_neg (by rw [hx.victim.resident]; nofun)).symm
  | evictDirty hx =>
    rename_i e pte
    rw [hx.proc]
    refine .take hx.clear hx.victim.slot ?_ rfl rfl
    exact slotsIn_modify hx.victim.entry
  | evictFail hx =>
    rw [hx.proc]
    exact .same rfl rfl rfl
  | load he _ _ hsrc _ hx => exact hx.slotChange he hsrc
  | loadFail he hva hsrc hx => exact hx.slotChange he hva hsrc htables
  | firstWrite => exact .same (slotsIn_modify_same (fun _ _ => rfl)) rfl rfl

/-- Freeing a marked slot clears its mark and is counted. -/
theorem freeSwapSlot_marked {s : Nat} (hset : p.swapBitmap s = true) (hlt : s < maxSwapSlots) : freeSwapSlot p (s : Int) =
    { p with swapBitmap := Function.update p.swapBitmap s false, swapSlotsUsed := p.swapSlotsUsed - 1 } := by
  have hrange : ¬((s : Int) < 0 ∨ (maxSwapSlots : Int) ≤ s) := by omega
  rw [freeSwapSlot, if_neg hrange, Int.toNat_natCast, if_pos hset]

section Change

variable {ev : PageEvent}

/-- Every slot in use has an owner still, and its own. -/
theorem SlotChange.held (h : SlotChange p ev p') (hp : Exclusive (fun _ => False) p.marked (slotsIn p.pages)) :
    Exclusive (fun _ => False) p'.marked (slotsIn p'.pages) := by
  cases h with
  | same slots bits =>
    refine hp.mark (fun b hb => ?_) (fun x => congrFun slots x)
    rwa [Proc.marked, bits]
  | @take j s clear entry slots bits =>
    obtain ⟨hfree, -, hlt⟩ := firstClear_some clear
    have hmark : Exclusive (fun _ => False) p'.marked (slotsIn p.pages) := by
      refine hp.mark (fun b hb => ?_) (fun _ => rfl)
      obtain ⟨r, hr, hset, rfl⟩ := hb
      refine ⟨r, hr, ?_, rfl⟩
      rw [bits]
      by_cases hrs : r = s
      · rw [hrs, Function.update_self]
      · rw [Function.update_of_ne hrs]
        exact hset
    refine hmark.grant (b := (s : Int)) j ⟨s, by omega, by rw [bits, Function.update_self], rfl⟩ id ?_ ?_
    · -- the slot was clear, so nobody holds it
      refine hp.fresh ?_
      rintro ⟨r, -, hset, hr⟩
      obtain rfl : r = s := by omega
      rw [hfree] at hset
      nomatch hset
    · intro x c hx
      rw [slots] at hx
      by_cases hxj : x = j
      · subst hxj
        rw [Function.update_self] at hx
        exact Or.inr ⟨rfl, (Option.some.inj hx).symm⟩
      · rw [Function.update_of_ne hxj] at hx
        exact Or.inl hx
  | @give j b entry slots bits =>
    obtain ⟨s, hlt, hset, rfl⟩ := hp.used_of j b entry
    rw [freeSwapSlot_marked hset hlt] at bits
    refine hp.drop (fun x c hx => ?_) (fun c hc hc' => ⟨id, fun x hx => hc' ?_⟩)
    · rw [slots] at hx
      by_cases hxj : x = j
      · rw [hxj, Function.update_self] at hx
        nomatch hx
      · rwa [Function.update_of_ne hxj] at hx
    · obtain ⟨r, hr, hrset, rfl⟩ := hc
      refine ⟨r, hr, ?_, rfl⟩
      have hrs : r ≠ s := by
        rintro rfl
        rw [slots] at hx
        by_cases hxj : x = j
        · rw [hxj, Function.update_self] at hx
          nomatch hx
        · rw [Function.update_of_ne hxj] at hx
          exact hxj (hp.unique x j _ hx entry)
      rw [bits]
      exact (Function.update_of_ne hrs _ _).trans hrset
  | @lose j event slots bits =>
    refine hp.drop (fun x c hx => ?_) (fun c hc hc' => absurd ?_ hc')
    · rw [slots] at hx
      by_cases hxj : x = j
      · rw [hxj, Function.update_self] at hx
        nomatch hx
      · rwa [Function.update_of_ne hxj] at hx
    · rwa [Proc.marked, bits]

/-- The counter follows. -/
theorem SlotChange.counted (h : SlotChange p ev p') (hheld : Exclusive (fun _ => False) p.marked (slotsIn p.pages))
    (hp : p.swapSlotsUsed = (slotCount p.swapBitmap : Int)) : p'.swapSlotsUsed = (slotCount p'.swapBitmap : Int) := by
  cases h with
  | same _ bits used => rw [bits, used, hp]
  | take clear _ _ bits used =>
    obtain ⟨hfree, -, hlt⟩ := firstClear_some clear
    rw [bits, used, hp, slotCount_set hfree (by omega)]
    rfl
  | give entry _ bits used =>
    obtain ⟨s, hlt, hset, rfl⟩ := hheld.used_of _ _ entry
    rw [freeSwapSlot_marked hset hlt] at bits used
    rw [bits, used, hp, ← slotCount_clear hset hlt]
    push_cast
    omega
  | lose _ _ bits used => rw [bits, used, hp]

end Change

/-! ## Every event -/

/-- A process without pages in the swap file, whose counter counts. -/
theorem SlotsHeld.of_none (hno : ∀ j, slotsIn p.pages j = none) (hcount : p.swapSlotsUsed = (slotCount p.swapBitmap : Int)) : SlotsHeld p where
  tables e he hs := by
    obtain ⟨j, hj⟩ := List.mem_iff_getElem?.mp he
    have hslot := slotsIn_some.mpr ⟨e, hj, hs, rfl⟩
    rw [hno] at hslot
    nomatch hslot
  held := by
    refine ⟨fun x b hx => ?_, fun x y b hx => ?_, fun _ => False.elim⟩
    · rw [hno] at hx
      nomatch hx
    · rw [hno] at hx
      nomatch hx
  counted := hcount

theorem slotsIn_forkPage (es : List PageInfo) (j : Nat) : slotsIn (es.map forkPage) j = none := by
  rw [slotsIn, List.getElem?_map]
  cases es[j]? with
  | none => rfl
  | some e =>
    refine if_neg ?_
    unfold forkPage
    dsimp only
    split
    · nofun
    · assumption

/-- An image that was just made has one page, in memory. -/
theorem slotsIn_commit {path : List Char} {st : Scan} {entry sp : Nat} (j : Nat) : slotsIn (p.commit path st entry pt sp).pages j = none := by
  rw [commit_eq]
  cases j <;> rfl

theorem slotsHeld_kept : Kept (fun _ => True) SlotsHeld where
  page := by
    intro m m' p p' ev hs h
    have hchange := hs.slotChange h.tables
    refine ⟨?_, hchange.held h.held, hchange.counted h.held h.counted⟩
    intro e he hst
    refine hs.keepsLow _ ?_
    rcases hs.swapped he hst with ⟨e', he', hst', hva⟩ | ⟨hleaf, -⟩
    · rw [← hva]
      exact h.tables e' he' hst'
    · have hlow := p.pagetable.low_of_leaf _ hleaf
      rwa [Nat.div_div_eq_div_mul] at hlow
  sbrk := by
    intro m m' p p' n eager r _ hc h
    have hlow := sysSbrk_keepsLow hc
    have hp := (sysSbrk_env hc).2
    rw [hp]
    exact ⟨fun e he hs => hlow _ (h.tables e he hs), h.held, h.counted⟩
  exec := by
    intro m m' p p' path argv o _ hargs hc h
    rcases kexec_cases hargs hc with ⟨-, hfail, -⟩ | ⟨argc, fs₀, fs, ip, mem, pt, sp, -, rfl, -⟩
    · cases hfail <;> exact ⟨h.tables, h.held, h.counted⟩
    · refine .of_none (fun j => slotsIn_commit j) ?_
      rw [commit_eq]
      exact h.counted
  fork := by
    intro p q np i hc h
    cases hc with
    | mk => exact .of_none (fun j => slotsIn_forkPage _ j) (by rw [slotCount_empty]; exacts [rfl, fun _ => rfl])
  other := fun _ _ _ _ _ _ _ h => ⟨h.tables, h.held, h.counted⟩

/-- The first process starts without pages in the swap file. -/
theorem Boot.slotsHeld {s : Sys} (hb : Boot s) : EveryLive SlotsHeld s := by
  intro k hk
  obtain ⟨q, path, st, entry, pt, sp, hp, hbits, hused⟩ := hb.image hk.ne_unused
  rw [hp]
  refine .of_none (fun j => slotsIn_commit j) ?_
  rw [commit_eq]
  change q.swapSlotsUsed = (slotCount q.swapBitmap : Int)
  rw [hused, hbits, slotCount_empty (fun _ => rfl)]
  rfl

end Xv6SnifferBakery.Kernel
