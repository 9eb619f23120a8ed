import Mathlib.Algebra.Ring.CharZero
import Xv6SnifferBakery.Lemmas.Replay
import Xv6SnifferBakery.Lemmas.Slots

/-!
# Ownership of swap slots

No two pages in the swap file share a slot, whatever a process does. That every slot in use is in use by a page holds only as long as
nothing forgets a page in the swap file: `kexec` drops all entries and keeps the bitmap, a shrink keeps the entries of the pages it
releases, and a fault of a mapped page can send that very page to the swap file.
-/

namespace Xv6SnifferBakery.Kernel

open Lib

variable {s t : Sys} {ev : Event} {evs : List Event} {m m' : Machine} {p p' : Proc} {i : Nat}

/-! ## No sharing -/

/-- Every page in the swap file has a slot of its own, which is marked, and `alloc_swap_slot` hands out none of these slots. -/
structure SlotsExclusive (p : Proc) : Prop where
  valid : ∀ e ∈ p.pages, e.state = .swapped →
    0 ≤ e.swapSlot ∧ e.swapSlot < (maxSwapSlots : Int) ∧ p.swapBitmap e.swapSlot.toNat = true
  distinct : ∀ (j l : Nat) (e x : PageInfo), p.pages[j]? = some e → p.pages[l]? = some x → e.state = .swapped → x.state = .swapped →
    e.swapSlot = x.swapSlot → j = l
  fresh : ∀ (q : Proc) (slot : Nat), allocSwapSlot p = some (q, slot) → ∀ e ∈ p.pages, e.state = .swapped → e.swapSlot ≠ slot

theorem allocSwapSlot_some {q : Proc} {slot : Nat} (h : allocSwapSlot p = some (q, slot)) :
    firstClear p.swapBitmap 0 maxSwapSlots = some slot := by
  unfold allocSwapSlot at h
  split at h
  · nomatch h
  · obtain ⟨-, rfl⟩ := Prod.mk.inj (Option.some.inj h)
    assumption

theorem SlotsHeld.exclusive (h : SlotsHeld p) : SlotsExclusive p := by
  have hvalid : ∀ e ∈ p.pages, e.state = .swapped →
      0 ≤ e.swapSlot ∧ e.swapSlot < (maxSwapSlots : Int) ∧ p.swapBitmap e.swapSlot.toNat = true := by
    intro e he hs
    obtain ⟨j, hj⟩ := List.mem_iff_getElem?.mp he
    obtain ⟨slot, hlt, hset, heq⟩ := h.held.used_of j _ (slotsIn_some.mpr ⟨e, hj, hs, rfl⟩)
    rw [← heq, Int.toNat_natCast]
    exact ⟨Int.natCast_nonneg slot, by omega, hset⟩
  refine ⟨hvalid, ?_, ?_⟩
  · intro j l e x he hx hse hsx heq
    exact h.held.unique j l e.swapSlot (slotsIn_some.mpr ⟨e, he, hse, rfl⟩) (slotsIn_some.mpr ⟨x, hx, hsx, heq.symm⟩)
  · intro q slot ha e he hs heq
    obtain ⟨-, -, hset⟩ := hvalid e he hs
    obtain ⟨hclear, -⟩ := firstClear_some (allocSwapSlot_some ha)
    rw [heq, Int.toNat_natCast, hclear] at hset
    nomatch hset

/-- In every state between two events of a run from boot, the swap slots of a live process are in order. -/
theorem events_slotsHeld (hb : Boot s) (hr : Run SysStep s evs t) : EveryLive SlotsHeld t := by
  refine slotsHeld_kept.run (hr.mono (fun u ev v hstep => ⟨?_, hstep⟩)) hb.slotsHeld
  unfold Event.leaves
  split <;> trivial

/-- Swap slots are never shared: in every state between two events of a run from boot, for every live process. -/
theorem slots_never_shared (hb : Boot s) (hr : Run SysStep s evs t) (hi : (t.proc i).live) : SlotsExclusive (t.proc i) :=
  (events_slotsHeld hb hr i hi).exclusive

/-- Two pages of the heap are written and swapped out, and the process forks. -/
def swapAndFork : List Action := [.sbrk 0 8192 false, .fault 0 16384 .read, .fault 0 16384 .write, .fault 0 20480 .read,
  .fault 0 20480 .write, .evict 0, .evict 0, .evict 0, .fork 0]

/-- The parent holds two slots, the child none. -/
theorem slots_never_shared_child : ∃ t evs, Run SysStep (smallBoot smallFiles 32) evs t ∧
    (t.proc 0).pages.map (fun e => (e.state, e.swapSlot)) = [(.unmapped, -1), (.swapped, 0), (.swapped, 1)] ∧
    SlotsExclusive (t.proc 0) ∧ SlotsExclusive (t.proc 1) := by
  have hex : (replay (smallBoot smallFiles 32) swapAndFork).any (fun t =>
      (t.proc 0).pages.map (fun e => (e.state, e.swapSlot)) = [(.unmapped, -1), (.swapped, 0), (.swapped, 1)] ∧
      (t.proc 0).live ∧ (t.proc 1).live) = true := by
    decide +kernel
  obtain ⟨t, ht, hex⟩ := (Option.any_eq_true _ _).mp hex
  obtain ⟨hslot, hlive, hchild⟩ := of_decide_eq_true hex
  obtain ⟨evs, hevs⟩ := steps_events (replay_run ht)
  exact ⟨t, evs, hevs, hslot, slots_never_shared smallBoot_init hevs hlive, slots_never_shared smallBoot_init hevs hchild⟩

/-! ## No leak -/

/-- The pages that a shrink by `n` bytes releases. -/
def Releases (p : Proc) (n : Int) (v : Nat) : Prop :=
  n < 0 ∧ addInt p.sz n < p.sz ∧ shrinks p.stackTop (pgRoundUp (addInt p.sz n) / 4096) (pgRoundUp p.sz / 4096) v

/-- The pages that each process has released and not mapped since, after an event. -/
def Event.released (s : Sys) (ev : Event) (t : Sys) (R : Nat → Nat → Prop) (i v : Nat) : Prop :=
  (s.proc i).state ≠ .unused ∧ ev ≠ .exec i true ∧
    (R i v ∨ ∃ n eager, ev = .sbrk i n eager ∧ Releases (s.proc i) (wrap32 n) v) ∧ (t.proc i).pagetable.leaf v = none

/-- An event that forgets no page in the swap file: no process with such a page gets a new image, no shrink releases such a page, and no
page is loaded from elsewhere that is there. -/
def Event.returnsSlots (s : Sys) : Event → Prop
  | .exec i done => done = true → ∀ e ∈ (s.proc i).pages, e.state ≠ .swapped
  | .sbrk i n _ => ∀ e ∈ (s.proc i).pages, e.state = .swapped → ¬Releases (s.proc i) (wrap32 n) (e.va / 4096)
  | .page i pev => ¬pev.losesSlot (s.proc i)
  | _ => True

/-- One event that forgets no page in the swap file, with the released pages beside it. -/
def SlotRunStep (x : Sys × (Nat → Nat → Prop)) (ev : Event) (y : Sys × (Nat → Nat → Prop)) : Prop :=
  ev.returnsSlots x.1 ∧ SysStep x.1 ev y.1 ∧ y.2 = ev.released x.1 y.1 x.2

/-- Every slot in use is in use by a page that the process still has, and by one only; the counter counts these pages. -/
structure SlotsReturned (R : Nat → Prop) (p : Proc) : Prop where
  bits : p.swapSlotsUsed = (slotCount p.swapBitmap : Int)
  entries : slotCount p.swapBitmap = swappedCount p.pages
  current : ∀ e ∈ p.pages, e.state = .swapped → ¬R (e.va / 4096)
  full : allocSwapSlot p = none → swappedCount p.pages = maxSwapSlots

/-- What carries over from event to event: every slot in use has an owner, and no page that was released is mapped or in the swap
file. -/
structure SlotInv (R : Nat → Prop) (p : Proc) : Prop where
  owned : ∀ b, p.marked b → ∃ j, slotsIn p.pages j = some b
  current : ∀ e ∈ p.pages, e.state = .swapped → ¬R (e.va / 4096)
  unmapped : ∀ v, R v → p.pagetable.leaf v = none

/-- A change that loses no slot leaves an owner for every slot in use. -/
theorem SlotChange.owned {pev : PageEvent} (h : SlotChange p pev p') (hlose : ¬pev.losesSlot p)
    (hheld : Exclusive (fun _ => False) p.marked (slotsIn p.pages)) (ho : ∀ b, p.marked b → ∃ j, slotsIn p.pages j = some b) :
    ∀ b, p'.marked b → ∃ j, slotsIn p'.pages j = some b := by
  cases h with
  | same slots bits =>
    intro b hb
    rw [Proc.marked, bits] at hb
    rw [slots]
    exact ho b hb
  | @take j r clear entry slots bits used =>
    rintro b ⟨k, hlt, hset, rfl⟩
    rw [slots]
    by_cases hk : k = r
    · exact ⟨j, by rw [Function.update_self, hk]⟩
    · rw [bits, Function.update_of_ne hk] at hset
      obtain ⟨l, hl⟩ := ho k ⟨k, hlt, hset, rfl⟩
      refine ⟨l, ?_⟩
      rw [Function.update_of_ne, hl]
      rintro rfl
      rw [entry] at hl
      cases hl
  | @give j b entry slots bits used =>
    obtain ⟨r, hrlt, hrset, rfl⟩ := hheld.used_of j b entry
    rw [freeSwapSlot_marked hrset hrlt] at bits
    replace bits : p'.swapBitmap = Function.update p.swapBitmap r false := bits
    rintro b ⟨k, hlt, hset, rfl⟩
    rw [bits] at hset
    have hk : k ≠ r := by
      rintro rfl
      rw [Function.update_self] at hset
      cases hset
    rw [Function.update_of_ne hk] at hset
    obtain ⟨l, hl⟩ := ho k ⟨k, hlt, hset, rfl⟩
    refine ⟨l, ?_⟩
    rw [slots, Function.update_of_ne, hl]
    rintro rfl
    have hrk : (r : Int) = k := Option.some.inj (entry.symm.trans hl)
    omega
  | lose event => exact absurd event hlose

/-- In order, and with an owner for every slot in use, the counts agree. -/
theorem SlotInv.returned {R : Nat → Prop} (h : SlotInv R p) (hp : SlotsHeld p) : SlotsReturned R p := by
  have hentries : slotCount p.swapBitmap = swappedCount p.pages := by
    have hitems : ∀ b, b ∈ ((Finset.range maxSwapSlots).filter (fun s => p.swapBitmap s = true)).map Nat.castEmbedding ↔ p.marked b := by
      intro b
      constructor
      · intro hb
        obtain ⟨s, hs, rfl⟩ := Finset.mem_map.mp hb
        obtain ⟨hlt, hset⟩ := Finset.mem_filter.mp hs
        exact ⟨s, Finset.mem_range.mp hlt, hset, rfl⟩
      · rintro ⟨s, hlt, hset, rfl⟩
        exact Finset.mem_map.mpr ⟨s, Finset.mem_filter.mpr ⟨Finset.mem_range.mpr hlt, hset⟩, rfl⟩
    have hplaces : ∀ j b, slotsIn p.pages j = some b → j ∈ Finset.range p.pages.length := by
      intro j b hj
      obtain ⟨e, he, -⟩ := slotsIn_some.mp hj
      exact Finset.mem_range.mpr (List.getElem?_eq_some_iff.mp he).1
    rw [swappedCount_eq, hp.held.card_owners _ _ hplaces hitems h.owned, Finset.card_map, slotCount]
  refine ⟨hp.counted, hentries, h.current, ?_⟩
  intro hnone
  have hfull : firstClear p.swapBitmap 0 maxSwapSlots = none := by
    unfold allocSwapSlot at hnone
    split at hnone
    · assumption
    · cases hnone
  rw [← hentries, slotCount_full hfull]

/-- One event. -/
theorem SlotRunStep.inv {x y : Sys × (Nat → Nat → Prop)} (h : SlotRunStep x ev y) (hheld : EveryLive SlotsHeld x.1)
    (hinv : ∀ k, (x.1.proc k).live → SlotInv (x.2 k) (x.1.proc k)) (hi : (y.1.proc i).live) : SlotInv (y.2 i) (y.1.proc i) := by
  obtain ⟨hguard, hstep, hR⟩ := h
  have hunmapped : ∀ v, y.2 i v → (y.1.proc i).pagetable.leaf v = none := by
    intro v hv
    rw [hR] at hv
    exact hv.2.2.2
  -- a page that is not mapped, and was in the swap file, was not released before or now
  have hcurrent : ∀ e' ∈ (y.1.proc i).pages, (x.1.proc i).live →
      (∃ e ∈ (x.1.proc i).pages, e.state = .swapped ∧ e.va = e'.va) → ¬y.2 i (e'.va / 4096) := by
    rintro e' - hlive ⟨e, he, hs, hva⟩ hrel
    rw [hR] at hrel
    rcases hrel.2.2.1 with hold | ⟨n, eager, rfl, hnew⟩
    · exact (hinv i hlive).current e he hs (hva ▸ hold)
    · exact hguard e he hs (hva ▸ hnew)
  cases hstep.slot hi with
  | same live tf ofile cwd parent killed state _ hp =>
    have h := hinv i live
    refine ⟨?_, fun e he hs => hcurrent e he live ⟨e, ?_, hs, rfl⟩, hunmapped⟩
    · rw [hp]
      exact h.owned
    · rwa [hp] at he
  | @page pev event live hpage =>
    subst event
    have h := hinv i live
    have hchange := hpage.slotChange (hheld i live).tables
    refine ⟨hchange.owned hguard (hheld i live).held h.owned, fun e he hs => ?_, hunmapped⟩
    rcases hpage.swapped he hs with hold | ⟨hleaf, -⟩
    · exact hcurrent e he live hold
    · -- a page that was mapped had not been released
      intro hrel
      rw [hR] at hrel
      rcases hrel.2.2.1 with hold | ⟨n, eager, hev, -⟩
      · rw [h.unmapped _ hold] at hleaf
        cases hleaf
      · cases hev
  | sbrk event live hc =>
    have h := hinv i live
    have hp := (sysSbrk_env hc).2
    refine ⟨?_, fun e he hs => hcurrent e he live ⟨e, ?_, hs, rfl⟩, hunmapped⟩
    · rw [hp]
      exact h.owned
    · rwa [hp] at he
  | exec event live args hc =>
    have h := hinv i live
    rcases kexec_cases args hc with ⟨-, hfail, -⟩ | ⟨argc, fs₀, fs, ip, mem, pt, sp, rfl, hp, -⟩
    · have hpages := hfail.slot.2.2.2.1
      have hbits : (y.1.proc i).swapBitmap = (x.1.proc i).swapBitmap := by
        generalize y.1.proc i = q at hfail
        cases hfail <;> rfl
      refine ⟨?_, fun e he hs => hcurrent e he live ⟨e, hpages ▸ he, hs, rfl⟩, hunmapped⟩
      intro b hb
      rw [hpages]
      rw [Proc.marked, hbits] at hb
      exact h.owned b hb
    · subst event
      have hslots : ∀ j, slotsIn (y.1.proc i).pages j = none := by
        intro j
        rw [hp]
        exact slotsIn_commit j
      have hbits : (y.1.proc i).swapBitmap = (x.1.proc i).swapBitmap := by rw [hp, commit_eq]
      refine ⟨?_, fun e he hs => ?_, hunmapped⟩
      · -- no page was in the swap file, so no slot was in use
        intro b hb
        rw [Proc.marked, hbits] at hb
        obtain ⟨j, hj⟩ := h.owned b hb
        obtain ⟨e, he, hs, -⟩ := slotsIn_some.mp hj
        exact absurd hs (hguard rfl e (List.mem_of_getElem? he))
      · obtain ⟨j, hj⟩ := List.mem_iff_getElem?.mp he
        have hslot := slotsIn_some.mpr ⟨e, hj, hs, rfl⟩
        rw [hslots] at hslot
        cases hslot
  | fork event live unused hc =>
    have hnew : ∀ v, ¬y.2 i v := by
      intro v hv
      rw [hR] at hv
      exact hv.1 unused
    generalize y.1.proc i = q at hc hunmapped
    cases hc with
    | mk =>
      refine ⟨?_, fun e _ _ => hnew _, hunmapped⟩
      rintro b ⟨r, -, hset, -⟩
      cases hset

theorem SlotRunStep.run {x y : Sys × (Nat → Nat → Prop)} (h : Run SlotRunStep x evs y) : Run SysStep x.1 evs y.1 := by
  induction h with
  | nil => exact Run.nil _
  | snoc _ hs ih => exact ih.snoc hs.2.1

/-- In every run that forgets no page in the swap file, every slot in use has an owner. -/
theorem SlotRunStep.slotInv (hb : Boot s) {x : Sys × (Nat → Nat → Prop)} (hr : Run SlotRunStep (s, fun _ _ => False) evs x) :
    ∀ k, (x.1.proc k).live → SlotInv (x.2 k) (x.1.proc k) := by
  induction hr with
  | nil =>
    intro k hk
    obtain ⟨q, path, st, entry, pt, sp, hp, hbits, -⟩ := hb.image hk.ne_unused
    refine ⟨?_, fun _ _ _ => id, fun _ => False.elim⟩
    rintro b ⟨r, -, hset, -⟩
    rw [hp, commit_eq] at hset
    replace hset : q.swapBitmap r = true := hset
    rw [hbits] at hset
    nomatch hset
  | snoc hr hs ih =>
    intro k hk
    exact hs.inv (events_slotsHeld hb (SlotRunStep.run hr)) ih hk

/-- No swap slot leaks: in every run from boot that forgets no page in the swap file, in every state between two events, every slot in
use of a live process is in use by one of its pages that it has not released, and the counter counts these pages. -/
theorem slots_returned {R : Nat → Nat → Prop} (hb : Boot s) (hr : Run SlotRunStep (s, fun _ _ => False) evs (t, R))
    (hi : (t.proc i).live) : SlotsReturned (R i) (t.proc i) :=
  (SlotRunStep.slotInv hb hr i hi).returned (events_slotsHeld hb (SlotRunStep.run hr) i hi)

theorem SlotRunStep.single {R : Nat → Nat → Prop} (hguard : ev.returnsSlots s) (hstep : SysStep s ev t) :
    Run SlotRunStep (s, R) [ev] (t, ev.released s t R) := Run.single ⟨hguard, hstep, rfl⟩

/-- The actions of the run here: faults and evictions that are served, growth, forks, and programs started with no page in the swap
file. -/
def Action.keepsSlots (s : Sys) : Action → Bool
  | .fault i a access => Action.serves s (.fault i a access)
  | .evict i => Action.serves s (.evict i)
  | .sbrk _ n _ => 0 ≤ wrap32 n
  | .fork _ => true
  | .exec i _ _ => (s.proc i).pages.all (fun e => e.state ≠ .swapped)
  | _ => false

/-- A load that takes its page from where the entry says loses no slot. -/
theorem PageEvent.faithful.keeps {pev : PageEvent} (h : pev.faithful p) : ¬pev.losesSlot p := by
  cases pev with
  | load src j va =>
    rintro ⟨hsrc, hslot⟩
    obtain ⟨b, hb⟩ := Option.isSome_iff_exists.mp hslot
    obtain ⟨e, he, hs, -⟩ := slotsIn_some.mp hb
    exact hsrc ((h e he).trans (sourceOf_swap.mpr hs))
  | _ => exact id

theorem Step.slotRun {a : Action} {R : Nat → Nat → Prop} (h : Step s a t) (ha : a.keepsSlots s = true) :
    ∃ evs R', Run SlotRunStep (s, R) evs (t, R') := by
  have hpages : ∀ {m : Machine} {p : Proc} {evs : List PageEvent} {K : Machine × Proc → PageEvent → Prop} {i : Nat},
      (∀ x pev, K x pev → ¬pev.losesSlot x.2) → s.ready i → Run (Guarded K PageStep) (s.m, s.proc i) evs (m, p) →
      ∃ evs R', Run SlotRunStep (s, R) evs (s.put i m p, R') := by
    intro m p evs K i hK hready hr
    have hbeside : ∀ (u : Sys) (ev : Event) (v : Sys) (R : Nat → Nat → Prop),
        (∃ pev, ev = .page i pev ∧ K (u.m, u.proc i) pev) ∧ SysStep u ev v →
        ∃ R', SlotRunStep (u, R) ev (v, R') := by
      rintro u ev v R ⟨⟨pev, rfl, hk⟩, hs⟩
      exact ⟨Event.released u (.page i pev) v R, hK _ _ hk, hs, rfl⟩
    obtain ⟨R', hr'⟩ := (pages_sys hready.1 hready.2.1 hr).beside hbeside R
    exact ⟨_, R', hr'⟩
  cases a with
  | fault i a access =>
    obtain ⟨m, p, evs, rfl, hr, -⟩ := h.fault_events ha
    exact hpages (fun _ _ hk => PageEvent.faithful.keeps hk) h.1.1 hr
  | evict i =>
    obtain ⟨m, p, pev, rfl, hs, j, va, hev⟩ := h.evict_event ha
    refine hpages (K := fun _ pev => ∃ j va, pev = .evictClean j va ∨ pev = .evictDirty j va) ?_ h.1 (Run.single ⟨⟨j, va, hev⟩, hs⟩)
    rintro x pev ⟨j, va, rfl | rfl⟩ <;> exact id
  | sbrk i n eager =>
    obtain ⟨hready, h⟩ := h
    simp only [perform] at h
    obtain ⟨m, p, r, hc, rfl⟩ := memCall_ok h
    have hguard : Event.returnsSlots s (.sbrk i n eager) := fun _ _ _ hrel => absurd hrel.1 (not_lt.mpr (of_decide_eq_true ha))
    exact ⟨_, _, SlotRunStep.single hguard (.sbrk hready.1 hready.2.1 hc)⟩
  | fork i =>
    obtain ⟨hready, h⟩ := h
    obtain ⟨⟨u, o⟩, hf, h⟩ := bind_ok h
    obtain rfl := Except.ok.inj h
    have hguard : Event.returnsSlots s (.fork i) := trivial
    exact ⟨_, _, SlotRunStep.single hguard (.fork hready.1 hready.2.1 hf)⟩
  | exec i path argv =>
    obtain ⟨hen, h⟩ := h
    simp only [perform] at h
    obtain ⟨m, p, o, hc, rfl⟩ := memCall_ok h
    have hargs : ArgsOk argv := fun x hx => lt_trans (hen.2.2 x hx) (by decide)
    have hguard : Event.returnsSlots s (.exec i o.isSome) := fun _ e he => of_decide_eq_true (List.all_eq_true.mp ha e he)
    exact ⟨_, _, SlotRunStep.single hguard (.exec hen.1.1 hen.1.2.1 hargs hc)⟩
  | _ => cases ha

/-- A replay of such actions is a run that forgets no page in the swap file. -/
theorem replay_slotRun {as : List Action} (h : replayIf Action.keepsSlots s as = some t) :
    ∃ evs R, Run SlotRunStep (s, fun _ _ => False) evs (t, R) := by
  have hstep : ∀ (s : Sys) (a : Action) (t : Sys) (x : Sys × (Nat → Nat → Prop)), Guarded (fun s a => a.keepsSlots s = true) Step s a t →
      s = x.1 → ∃ evs y, Run SlotRunStep x evs y ∧ t = y.1 := by
    rintro s a t ⟨u, R⟩ ⟨ha, hs⟩ rfl
    obtain ⟨evs, R', hr⟩ := hs.slotRun (R := R) ha
    exact ⟨evs, _, hr, rfl⟩
  obtain ⟨evs, ⟨u, R⟩, hr, rfl⟩ := (replayIf_run (fun _ _ => id) h).simulate hstep (x := (s, fun _ _ => False)) rfl
  exact ⟨evs, R, hr⟩

/-- Two pages of the heap go to the swap file and come back, the process executes its program again, and a page of the new image goes
to the swap file. -/
def swapAndExec : List Action := [.sbrk 0 8192 false, .fault 0 16384 .read, .fault 0 16384 .write, .fault 0 20480 .read,
  .fault 0 20480 .write, .evict 0, .evict 0, .evict 0, .fault 0 16384 .read, .fault 0 20480 .read, .exec 0 "/init".toList [],
  .sbrk 0 4096 false, .fault 0 16384 .read, .fault 0 16384 .write, .evict 0, .evict 0, .fork 0]

/-- After two pages have come back from the swap file and a new image has sent one there, that page's slot is the one in use; the
child has none. -/
theorem slots_returned_exec : ∃ t evs R, Run SlotRunStep (smallBoot smallFiles 32, fun _ _ => False) evs (t, R) ∧
    (t.proc 0).swapSlotsUsed = 1 ∧ SlotsReturned (R 0) (t.proc 0) ∧ SlotsReturned (R 1) (t.proc 1) := by
  have hex : (replayIf Action.keepsSlots (smallBoot smallFiles 32) swapAndExec).any (fun t => (t.proc 0).live ∧ (t.proc 1).live ∧
      (t.proc 0).swapSlotsUsed = 1) = true := by
    decide +kernel
  obtain ⟨t, ht, hex⟩ := (Option.any_eq_true _ _).mp hex
  obtain ⟨hlive, hchild, hused⟩ := of_decide_eq_true hex
  obtain ⟨evs, R, hr⟩ := replay_slotRun ht
  exact ⟨t, evs, R, hr, hused, slots_returned smallBoot_init hr hlive, slots_returned smallBoot_init hr hchild⟩

/-- After an `exec` the slot of the old image's page stays in use. -/
theorem slots_leak : ¬∀ t, Reach Boot Step t → ∀ i, (t.proc i).live → (t.proc i).swapSlotsUsed = (slotCount (t.proc i).swapBitmap : Int) ∧
    (t.proc i).swapSlotsUsed = (swappedCount (t.proc i).pages : Int) := by
  have hex : (replay (smallBoot smallFiles 32) [.sbrk 0 4096 false, .fault 0 16384 .read, .fault 0 16384 .write, .evict 0, .evict 0,
      .exec 0 "/init".toList []]).any (fun t => (t.proc 0).live ∧ (t.proc 0).swapSlotsUsed = 1 ∧ swappedCount (t.proc 0).pages = 0) = true := by
    decide +kernel
  obtain ⟨t, ht, hex⟩ := (Option.any_eq_true _ _).mp hex
  obtain ⟨hlive, hused, hcount⟩ := of_decide_eq_true hex
  intro hall
  obtain ⟨-, heq⟩ := hall t ⟨_, _, smallBoot_init, replay_run ht⟩ 0 hlive
  rw [hused, hcount] at heq
  nomatch heq

end Xv6SnifferBakery.Kernel

