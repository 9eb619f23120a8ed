import Xv6SnifferBakery.Lemmas.Kept
import Xv6SnifferBakery.Lemmas.Replay
import Xv6SnifferBakery.Lemmas.Tracking

/-!
# Eviction is first in, first out

As long as the sequence counter of a process has not reached the largest `int`, the resident pages have different sequence numbers
below it, and `evict_page_fifo` takes the page that came into memory before all others. The order is that of the history, which the
kernel does not keep; a number that an entry has from an earlier time in memory plays no part. But a shrink leaves the entry of a page it
releases resident, and when the heap grows over the page again, the entry still has the number of the first time.
-/

namespace Xv6SnifferBakery.Kernel

open Lib

variable {m m' : Machine} {p p' : Proc} {h : List Arrival} {i j : Nat} {e : PageInfo}

/-- The entries of resident pages have different sequence numbers, all below the counter. -/
structure SeqOk (p : Proc) : Prop where
  distinct : ∀ (j l : Nat) (e x : PageInfo), p.pages[j]? = some e → p.pages[l]? = some x → e.state = .resident → x.state = .resident →
    e.seq = x.seq → j = l
  below : ∀ e ∈ p.pages, e.state = .resident → e.seq < p.nextFifoSeq

/-- Between `p` and `p'` the page of entry `j`, which is `e`, was taken out of memory, and no other. -/
structure TakenOut (p p' : Proc) (j : Nat) (e : PageInfo) : Prop where
  entry : p.pages[j]? = some e
  mapped : (p.pagetable.leaf (e.va / 4096)).isSome
  table : p'.pagetable = p.pagetable.clearLeaf (e.va / 4096)
  gone : ∃ e', p'.pages[j]? = some e' ∧ e'.va = e.va ∧ e'.state ≠ .resident
  others : ∀ l : Nat, l ≠ j → p'.pages[l]? = p.pages[l]?

/-- Entry `j`, which is `e`, is resident, and its page came into memory before that of every other resident entry. -/
structure Earliest (h : List Arrival) (p : Proc) (j : Nat) (e : PageInfo) : Prop where
  entry : p.pages[j]? = some e
  resident : e.state = .resident
  first : ∃ k, LastAt (h.map Arrival.page) e.va k ∧
    ∀ (l : Nat) (x : PageInfo), l ≠ j → p.pages[l]? = some x → x.state = .resident → ∃ k', LastAt (h.map Arrival.page) x.va k' ∧ k < k'

/-! ## Sequence numbers -/

section Numbers

variable {h : List Nat}

/-- A counter that has not reached the largest `int` counts the history. -/
theorem wrap32_of_lt {n : Nat} (hn : (n : Int) < intMax) : wrap32 n = n := by
  unfold wrap32 intMax at *
  omega

theorem Fifo.resident (hf : Fifo h p) (hmax : (h.length : Int) + 1 < intMax) (he : e ∈ p.pages) (hr : e.state = .resident) :
    ∃ k, LastAt h e.va k ∧ e.seq = (k + 1 : Nat) := by
  obtain ⟨k, hk, hseq⟩ := hf.seq e he hr
  have hlt := hk.lt
  have hw := wrap32_of_lt (n := k + 1) (by omega)
  rw [Nat.cast_add, Nat.cast_one] at hw
  exact ⟨k, hk, by rw [hseq, hw]; rfl⟩

theorem Fifo.counter (hf : Fifo h p) (hmax : (h.length : Int) + 1 < intMax) : p.nextFifoSeq = h.length + 1 := by
  have hw := wrap32_of_lt (n := h.length + 1) (by omega)
  rw [Nat.cast_add, Nat.cast_one] at hw
  rw [hf.next, hw]

/-- Where the numbers follow a history that is not too long, they are in order. -/
theorem Fifo.seqOk (hf : Fifo h p) (hmax : (h.length : Int) + 1 < intMax) : SeqOk p := by
  refine ⟨?_, ?_⟩
  · intro j l e x he hx hre hrx hseq
    obtain ⟨k, hk, hke⟩ := hf.resident hmax (List.mem_of_getElem? he) hre
    obtain ⟨k', hk', hkx⟩ := hf.resident hmax (List.mem_of_getElem? hx) hrx
    obtain rfl : k = k' := by omega
    exact entry_unique hf.addrs he hx (hk.eq_of_same hk')
  · intro e he hr
    obtain ⟨k, hk, hke⟩ := hf.resident hmax he hr
    have hlt := hk.lt
    rw [hf.counter hmax, hke]
    omega

/-- The victim was loaded before every other resident page. -/
theorem Victim.least {pte : Pte} {k n : Nat} {x : PageInfo} (hv : Victim p j e pte) (hf : Fifo h p)
    (hmax : (h.length : Int) + 1 < intMax) (hx : x ∈ p.pages) (hr : x.state = .resident) (hk : LastAt h e.va k) (hn : LastAt h x.va n) :
    k ≤ n := by
  obtain ⟨k', hk', hke⟩ := hf.resident hmax (List.mem_of_getElem? hv.entry) hv.resident
  obtain ⟨n', hn', hnx⟩ := hf.resident hmax hx hr
  obtain rfl := hk.unique hk'
  obtain rfl := hn.unique hn'
  have hle := victimIdx_least hv.idx hv.entry hx hr
  omega

end Numbers

/-- An eviction that succeeds takes the page of the victim out of memory. -/
theorem evictPageFifo_takenOut (h : evictPageFifo m p = .ok (m', p', true)) : ∃ j e pte, Victim p j e pte ∧ TakenOut p p' j e := by
  have htaken : ∀ {j : Nat} {e : PageInfo} {pte : Pte} (f : PageInfo → PageInfo), Victim p j e pte → (f e).va = e.va →
      (f e).state ≠ .resident → p'.pagetable = p.pagetable.clearLeaf (e.va / 4096) → p'.pages = p.pages.modify j f →
      TakenOut p p' j e := by
    intro j e pte f hv hva hst htab hpages
    refine ⟨hv.entry, ?_, htab, ⟨f e, ?_, hva, hst⟩, ?_⟩
    · rw [hv.leaf]
      rfl
    · rw [hpages, List.getElem?_modify, hv.entry]
      simp
    · intro l hl
      rw [hpages, List.getElem?_modify]
      simp [Ne.symm hl]
  rcases evictPageFifo_cases h with ⟨-, j, e, pte, hx⟩ | ⟨-, j, e, pte, slot, f, m₁, m₂, hx⟩ | ⟨hf, -⟩
  · refine ⟨j, e, pte, hx.victim, htaken (fun e => { e with state := .unmapped }) hx.victim rfl nofun ?_ ?_⟩ <;> rw [hx.proc] <;> rfl
  · refine ⟨j, e, pte, hx.victim, htaken (fun e => { e with state := .swapped, swapSlot := slot }) hx.victim rfl nofun ?_ ?_⟩ <;>
      rw [hx.proc] <;> rfl
  · nomatch hf

/-! ## The order of arrivals -/

/-- The page of every resident entry came into memory last by a load. -/
def LastLoaded (h : List Arrival) (p : Proc) : Prop :=
  ∀ e ∈ p.pages, e.state = .resident → ∃ k, LastAt (h.map Arrival.page) e.va k ∧ h[k]? = some (.loaded e.va)

/-- Entries that were resident before. -/
theorem LastLoaded.of_resident (hl : LastLoaded h p)
    (hres : ∀ x ∈ p'.pages, x.state = .resident → ∃ e ∈ p.pages, e.state = .resident ∧ e.va = x.va) : LastLoaded h p' := by
  intro x hx hr
  obtain ⟨e, he, her, hva⟩ := hres x hx hr
  rw [← hva]
  exact hl e he her

/-- A process with one page, which is loaded. -/
theorem LastLoaded.single {va : Nat} (hva : ∀ e ∈ p.pages, e.va = va) : LastLoaded [.loaded va] p := by
  intro e he _
  rw [hva e he]
  exact ⟨0, LastAt.of_nodup (List.nodup_singleton _) rfl, rfl⟩

/-- The image that `exec` makes. -/
theorem commit_lastLoaded {path : List Char} {st : Scan} {entry sp : Nat} {pt : PageTable} :
    LastLoaded [.loaded (pgRoundDown (sub64 (p.commit path st entry pt sp).stackTop pgSize))] (p.commit path st entry pt sp) := by
  refine .single ?_
  rw [commit_eq]
  intro e he
  rw [List.mem_singleton.mp he]

/-- Other pages that come into memory. -/
theorem LastLoaded.append {l : List Arrival} (hl : LastLoaded h p) (hpages : p'.pages = p.pages)
    (hother : ∀ e ∈ p.pages, e.state = .resident → e.va ∉ l.map Arrival.page) : LastLoaded (h ++ l) p' := by
  intro e he hr
  rw [hpages] at he
  obtain ⟨k, hk, hload⟩ := hl e he hr
  obtain ⟨hlt, -⟩ := List.getElem?_eq_some_iff.mp hload
  refine ⟨k, ?_, ?_⟩
  · rw [List.map_append]
    exact hk.append (hother e he hr)
  · rw [List.getElem?_append_left hlt]
    exact hload

/-- The entries of resident pages, the numbers and the history of a process fit together. -/
structure Ordered (h : List Arrival) (p : Proc) : Prop where
  fifo : Fifo (loadsOf h) p
  last : LastLoaded h p

/-- No page event but a load makes an entry resident. -/
theorem PageStep.resident {ev : PageEvent} (hs : PageStep (m, p) ev (m', p')) (hno : ∀ src j va, ev ≠ .load src j va) {x : PageInfo}
    (hx : x ∈ p'.pages) (hr : x.state = .resident) : ∃ e ∈ p.pages, e.state = .resident ∧ e.va = x.va := by
  cases hs.table with
  | same pages => exact ⟨x, pages ▸ hx, hr, rfl⟩
  | track _ _ _ pages =>
    rw [pages] at hx
    rcases List.mem_append.mp hx with hx | hx
    · exact ⟨x, hx, hr, rfl⟩
    · rw [List.mem_singleton.mp hx] at hr
      cases hr
  | evict _ _ _ _ _ out pages =>
    rw [pages] at hx
    rcases mem_modify hx with ⟨y, -, rfl⟩ | ⟨n, -, hn⟩
    · rw [out y] at hr
      split at hr <;> cases hr
    · exact ⟨x, List.mem_of_getElem? hn, hr, rfl⟩
  | load event => exact absurd event (hno _ _ _)
  | loadFail keeps pages =>
    obtain ⟨e, he, hva, hst, -⟩ := mem_modify_slot keeps (pages ▸ hx)
    exact ⟨e, he, hst.trans hr, hva⟩
  | firstWrite _ _ pages =>
    rw [pages] at hx
    rcases mem_modify hx with ⟨y, hy, rfl⟩ | ⟨n, -, hn⟩
    · exact ⟨y, List.mem_of_getElem? hy, hr, rfl⟩
    · exact ⟨x, List.mem_of_getElem? hn, hr, rfl⟩

/-- A load comes last. -/
theorem LastLoaded.load {src : Source} {va : Nat} {m₁ m₂ : Machine} {p₂ : Proc} {mem : Pa} {page : Page} {pt : PageTable}
    (hord : Ordered h p) (he : p.pages[i]? = some e) (haddr : e.va = va) (hx : Load m p i va src m₁ mem m₂ p₂ page pt m' p') :
    LastLoaded (h ++ [.loaded va]) p' := by
  obtain ⟨f, hf, hpages, -⟩ := hx.fetched.pages
  have hva : ∀ y, (f y).va = y.va := by
    intro y
    rw [hf y]
  intro x hxm hr
  rw [hx.proc] at hxm
  rw [List.map_append]
  rcases mem_modify hxm with ⟨y, hy, rfl⟩ | ⟨n, hn, hxn⟩
  · obtain ⟨z, hz, hzy⟩ := entry_of_map (hx.fetched.same.2.2.2.symm) hy
    obtain rfl := Option.some.inj (he.symm.trans hz)
    have hyva : y.va = va := hzy.symm.trans haddr
    refine ⟨h.length, ?_, ?_⟩
    · change LastAt _ y.va _
      rw [hyva, ← List.length_map (f := Arrival.page)]
      exact LastAt.now _ _
    · change _ = some (Arrival.loaded y.va)
      rw [hyva]
      exact List.getElem?_concat_length ..
  · rw [hpages, List.getElem?_modify] at hxn
    simp only [Ne.symm hn, if_false, id_map'] at hxn
    obtain ⟨k, hk, hload⟩ := hord.last x (List.mem_of_getElem? hxn) hr
    obtain ⟨hlt, -⟩ := List.getElem?_eq_some_iff.mp hload
    refine ⟨k, hk.later ?_, (List.getElem?_append_left hlt).trans hload⟩
    intro heq
    exact hn (entry_unique hord.fifo.addrs hxn he (heq.symm.trans haddr.symm))

theorem PageStep.ordered {ev : PageEvent} (hs : PageStep (m, p) ev (m', p')) (hord : Ordered h p) : Ordered (ev.residence h) p' := by
  refine ⟨hs.fifo hord.fifo, ?_⟩
  by_cases hload : ∃ src j va, ev = .load src j va
  · obtain ⟨src, j, va, rfl⟩ := hload
    cases hs with
    | load he haddr _ _ _ hx => exact .load hord he haddr hx
  · have hno : ∀ src j va, ev ≠ .load src j va := fun src j va he => hload ⟨src, j, va, he⟩
    have heq : ev.residence h = h := by
      cases ev with
      | load src j va => exact absurd rfl (hno src j va)
      | _ => rfl
    rw [heq]
    exact hord.last.of_resident (fun x hx hr => hs.resident hno hx hr)

/-- An `sbrk` that does not grow the heap over a page with a resident entry: one that an earlier shrink released. -/
def SparesResident (p : Proc) (n : Int) (eager : Bool) : Prop :=
  eager = true → ∀ e ∈ p.pages, e.state = .resident → ¬(pgRoundUp p.sz ≤ e.va ∧ e.va < p.sz + n)

/-- What a growth brings into memory lies between the old size and the new one. -/
theorem mem_grownPages {n : Int} {va : Nat} (h : va ∈ grownPages p p' n) : 0 < n ∧
    pgRoundUp p.sz ≤ va ∧ (va : Int) < p.sz + n ∧ p.pagetable.leaf (va / 4096) = none ∧ (p'.pagetable.leaf (va / 4096)).isSome := by
  unfold grownPages at h
  split at h
  swap
  · cases h
  rename_i hn
  obtain ⟨v, hv, rfl⟩ := List.mem_map.mp h
  obtain ⟨hrange, hnew⟩ := List.mem_filter.mp hv
  rw [Bool.and_eq_true, Option.isNone_iff_eq_none] at hnew
  rw [List.mem_range'_1] at hrange
  unfold growEnd at hrange
  have hmod := pgRoundUp_mod p.sz
  rw [Nat.mul_div_cancel _ (by decide)]
  exact ⟨hn, by omega, by omega, hnew⟩

/-- Of a process in order, these are all the pages that an `sbrk` brings into memory. -/
theorem grownPages_iff {n : Int} {eager r : Bool} {v : Nat} (hwf : p.Wf) (hsafe : ¬shrinksPastTrapframe p n)
    (h : sysSbrk m p n eager = .ok (m', p', r)) :
    v * 4096 ∈ grownPages p p' n ↔ p.pagetable.leaf v = none ∧ (p'.pagetable.leaf v).isSome := by
  constructor
  · intro hm
    obtain ⟨-, -, -, hnew⟩ := mem_grownPages hm
    rwa [Nat.mul_div_cancel _ (by decide)] at hnew
  · rintro ⟨hnone, hsome⟩
    cases sysSbrk_spec hwf hsafe h with
    | same | lazy =>
      rw [hnone] at hsome
      cases hsome
    | grow request grows le =>
      rename_i pt hi sz done
      have hin : pgRoundUp p.sz / 4096 ≤ v ∧ v < hi := by
        by_contra hout
        rw [show ({ p with pagetable := pt, sz := sz } : Proc).pagetable.leaf v = _ from grows.outside v hout, hnone] at hsome
        cases hsome
      have hend : growEnd p.sz (addInt p.sz n) ≤ growEnd p.sz (p.sz + n.toNat) := by
        unfold growEnd addInt
        omega
      unfold grownPages
      rw [if_pos request.1]
      refine List.mem_map_of_mem (List.mem_filter.mpr ⟨List.mem_range'_1.mpr ⟨hin.1, by omega⟩, ?_⟩)
      rw [hnone, hsome]
      rfl
    | shrink _ unmaps =>
      by_cases hv : shrinks p.stackTop (pgRoundUp (addInt p.sz n) / 4096) (pgRoundUp p.sz / 4096) v
      · rw [unmaps.cleared v hv] at hsome
        cases hsome
      · rw [unmaps.kept v hv, hnone] at hsome
        cases hsome

/-- A lazy growth maps nothing. -/
theorem sysSbrk_lazy {n : Int} {r : Bool} (h : sysSbrk m p n false = .ok (m', p', r)) (hn : 0 < n) : p'.pagetable = p.pagetable := by
  unfold sysSbrk at h
  rw [if_neg (by simp [hn.le])] at h
  split at h
  · simp only [Except.ok.injEq, Prod.mk.injEq] at h
    rw [← h.2.1]
  · simp only [Except.ok.injEq, Prod.mk.injEq] at h
    rw [← h.2.1]

theorem ordered_kept : HistKept SparesResident Ordered where
  page := PageStep.ordered
  sbrk := by
    intro m m' p p' n eager r h hspares hc hord
    refine ⟨fifo_kept.sbrk trivial hc hord.fifo, hord.last.append ?_ ?_⟩
    · rw [(sysSbrk_env hc).2]
    · intro e he hr hm
      rw [List.map_map, show Arrival.page ∘ Arrival.grown = id from rfl, List.map_id] at hm
      obtain ⟨hn, hge, hlt, hnone, hsome⟩ := mem_grownPages hm
      cases eager with
      | true => exact hspares rfl e he hr ⟨hge, hlt⟩
      | false =>
        rw [sysSbrk_lazy hc hn, hnone] at hsome
        cases hsome
  exec := ⟨fifo_kept.exec, commit_lastLoaded⟩
  fork := by
    intro p q np i h hc hord
    refine ⟨fifo_kept.fork hc hord.fifo, hord.last.of_resident ?_⟩
    cases hc with
    | mk =>
      intro x hx hr
      obtain ⟨e, he, rfl⟩ := List.mem_map.mp hx
      refine ⟨e, he, ?_, rfl⟩
      unfold forkPage at hr
      dsimp only at hr
      split at hr
      · cases hr
      · exact hr
  other := by
    intro p p' h hpages hseq hord
    exact ⟨hord.fifo.of_fields hpages hseq, hord.last.of_resident (fun x hx hr => ⟨x, hpages ▸ hx, hr, rfl⟩)⟩

/-- The first process has its stack page, and nothing else, resident. -/
theorem Boot.ordered {s : Sys} (hb : Boot s) : Beside Ordered (s, bootHistory s) := by
  intro k hk
  refine ⟨hb.fifo k hk, ?_⟩
  obtain ⟨q, path, st, entry, pt, sp, hp, -⟩ := hb.image hk
  have hpages : (s.proc k).pages.map (fun e => Arrival.loaded e.va) = [.loaded (pgRoundDown (sub64 (s.proc k).stackTop pgSize))] := by
    rw [hp, commit_eq]
    rfl
  change LastLoaded ((s.proc k).pages.map (fun e => .loaded e.va)) (s.proc k)
  rw [hpages, hp]
  exact commit_lastLoaded

/-- The victim came into memory before every other resident page. -/
theorem Victim.earliest {pte : Pte} (hv : Victim p j e pte) (hord : Ordered h p) (hmax : ((loadsOf h).length : Int) + 1 < intMax) :
    Earliest h p j e := by
  have hpart : ∀ {x : PageInfo} {k : Nat}, LastAt (h.map Arrival.page) x.va k → h[k]? = some (.loaded x.va) →
      LastAt (loadsOf h) x.va (rank Arrival.load? h k) := by
    intro x k hk hload
    refine LastAt.part hload rfl ?_
    intro l hl b hb hbx
    refine hk.not_after l hl ?_
    rw [List.getElem?_map, hb]
    cases b with
    | loaded va => exact hbx
    | grown va => cases hbx
  obtain ⟨k, hk, hload⟩ := hord.last e (List.mem_of_getElem? hv.entry) hv.resident
  refine ⟨hv.entry, hv.resident, k, hk, ?_⟩
  intro l x hl hx hr
  obtain ⟨k', hk', hload'⟩ := hord.last x (List.mem_of_getElem? hx) hr
  refine ⟨k', hk', ?_⟩
  have hle := hv.least hord.fifo hmax (List.mem_of_getElem? hx) hr (hpart hk hload) (hpart hk' hload')
  rcases Nat.lt_trichotomy k k' with hlt | rfl | hgt
  · exact hlt
  · exact absurd (entry_unique hord.fifo.addrs hx hv.entry (hk'.eq_of_same hk)) hl
  · have hrank := rank_lt (f := Arrival.load?) hload' rfl hgt
    omega

/-! ## Every run -/

/-- In every run from boot in which no eager growth takes in a page with a resident entry, in every state between two events, for every
process: as long as its counter, which counts its loads, has not reached the largest `int`, the sequence numbers of the resident pages
are different and below it, and an eviction that succeeds takes the page that came into memory earliest. -/
theorem fifo_eviction {s t : Sys} {evs : List Event} {H : Nat → List Arrival} {i : Nat} (hb : Boot s)
    (hr : Run (Guarded (fun x ev => ev.asks SparesResident x.1) HistStep) (s, bootHistory s) evs (t, H)) (hi : (t.proc i).state ≠ .unused)
    (hmax : ((loadsOf (H i)).length : Int) + 1 < intMax) :
    (t.proc i).nextFifoSeq = (loadsOf (H i)).length + 1 ∧ SeqOk (t.proc i) ∧
      ∀ m' p', evictPageFifo t.m (t.proc i) = .ok (m', p', true) →
        ∃ j e, TakenOut (t.proc i) p' j e ∧ Earliest (H i) (t.proc i) j e := by
  have hord : Ordered (H i) (t.proc i) :=
    hr.invariant (Beside Ordered) (fun _ _ _ hx hg => ordered_kept.step hg.1 hx hg.2) hb.ordered i hi
  refine ⟨hord.fifo.counter hmax, hord.fifo.seqOk hmax, ?_⟩
  intro m' p' hev
  obtain ⟨j, e, pte, hv, hout⟩ := evictPageFifo_takenOut hev
  exact ⟨j, e, hout, hv.earliest hord hmax⟩

/-! ## Two runs -/

/-- What an action adds to the histories. -/
def Action.arrives (s t : Sys) (H : Nat → List Arrival) : Action → Nat → List Arrival
  | .fault i a _ => Function.update H i (H i ++ [.loaded (pgRoundDown a)])
  | .sbrk i n eager => (Event.sbrk i n eager).residence s t H
  | .fork i => (Event.fork i).residence s t H
  | _ => H

/-- The actions of the runs here: those that serve a read or take a page out, and changes of the size and of the processes. -/
def Action.historic (s : Sys) : Action → Bool
  | .fault i a access => access ≠ .write && Action.serves s (.fault i a access)
  | .evict i => Action.serves s (.evict i)
  | .sbrk _ _ _ | .fork _ => true
  | _ => false

/-- The state and the histories after a list of such actions, when every action passes a test. -/
def replayHistory (test : Sys → Action → Bool) (s : Sys) (H : Nat → List Arrival) : List Action → Option (Sys × (Nat → List Arrival))
  | [] => some (s, H)
  | a :: as =>
    if test s a ∧ a.historic s ∧ enabled s a then
      match perform s a with
      | .ok t => replayHistory test t (a.arrives s t H) as
      | .error _ => none
    else none

variable {s t : Sys} {H H' : Nat → List Arrival} {G : Proc → Int → Bool → Prop}

theorem Step.history {a : Action} (h : Step s a t) (hG : ∀ i n eager, a = .sbrk i n eager → G (s.proc i) (wrap32 n) eager)
    (ha : a.historic s = true) : ∃ evs, Run (Guarded (fun x ev => ev.asks G x.1) HistStep) (s, H) evs (t, a.arrives s t H) := by
  have hpages : ∀ {i : Nat} {m : Machine} {p : Proc} {evs : List PageEvent} {K : Machine × Proc → PageEvent → Prop}, s.ready i →
      Run (Guarded K PageStep) (s.m, s.proc i) evs (m, p) →
      Run (Guarded (fun x ev => ev.asks G x.1) HistStep) (s, H) (evs.map (Event.page i))
        (s.put i m p, (evs.map (Event.page i)).foldl (fun H ev => ev.residence s s H) H) := by
    intro i m p evs K hready hr
    refine (pages_sys hready.1 hready.2.1 hr).fold _ ?_ H
    rintro u ev v H' ⟨⟨pev, rfl, -⟩, hs⟩
    exact ⟨trivial, hs, rfl⟩
  cases a with
  | fault i a access =>
    simp only [Action.historic, Bool.and_eq_true, decide_eq_true_eq] at ha
    obtain ⟨m, p, evs, rfl, hr, hevs⟩ := h.fault_events ha.2
    have hrun := hpages h.1.1 hr
    rcases hevs with ⟨hw, -⟩ | ⟨src, j, rfl | rfl⟩
    · exact absurd hw ha.1
    · exact ⟨_, hrun⟩
    · simp only [List.map_cons, List.map_nil, List.foldl_cons, List.foldl_nil, Event.residence, PageEvent.residence, Function.update_idem,
        Function.update_self] at hrun
      exact ⟨_, hrun⟩
  | evict i =>
    obtain ⟨m, p, ev, rfl, hs, j, va, rfl | rfl⟩ := h.evict_event ha
    all_goals
      have hrun := hpages (K := fun _ _ => True) h.1 (Run.single ⟨trivial, hs⟩)
      simp only [List.map_cons, List.map_nil, List.foldl_cons, List.foldl_nil, Event.residence, PageEvent.residence,
        Function.update_eq_self] at hrun
      exact ⟨_, hrun⟩
  | sbrk i n eager =>
    obtain ⟨hready, h⟩ := h
    simp only [perform] at h
    obtain ⟨m, p, r, hc, rfl⟩ := memCall_ok h
    have hask : Event.asks G s (.sbrk i n eager) := hG i n eager rfl
    exact ⟨_, Run.single (a := Event.sbrk i n eager) ⟨hask, .sbrk hready.1 hready.2.1 hc, rfl⟩⟩
  | fork i =>
    obtain ⟨hready, h⟩ := h
    obtain ⟨⟨u, o⟩, hf, h⟩ := bind_ok h
    obtain rfl := Except.ok.inj h
    exact ⟨_, Run.single (a := Event.fork i) ⟨trivial, .fork hready.1 hready.2.1 hf, rfl⟩⟩
  | _ => cases ha

theorem replayHistory_run {test : Sys → Action → Bool} (hG : ∀ s i n eager, test s (.sbrk i n eager) = true → G (s.proc i) (wrap32 n) eager)
    {as : List Action} (h : replayHistory test s H as = some (t, H')) :
    ∃ evs, Run (Guarded (fun x ev => ev.asks G x.1) HistStep) (s, H) evs (t, H') := by
  induction as generalizing s H with
  | nil =>
    obtain ⟨rfl, rfl⟩ := Prod.mk.inj (Option.some.inj h)
    exact ⟨[], Run.nil _⟩
  | cons a as ih =>
    rw [replayHistory] at h
    split at h
    · rename_i hen
      split at h
      · rename_i u hu
        obtain ⟨evs, hr⟩ := Step.history (G := G) (H := H) ⟨hen.2.2, hu⟩ (fun i n eager ha => hG s i n eager (ha ▸ hen.1)) hen.2.1
        obtain ⟨evs', hr'⟩ := ih h
        exact ⟨_, hr.append hr'⟩
      · cases h
    · cases h

/-- An action that is no eager `sbrk`. -/
def growsLazily (_ : Sys) : Action → Bool
  | .sbrk _ _ eager => !eager
  | _ => true

/-- A process reads two pages of its heap, and forks. -/
def readAndFork : List Action := [.sbrk 0 8192 false, .fault 0 16384 .read, .fault 0 20480 .read, .fork 0]

/-- A child whose parent had three pages in memory evicts the one that came first. -/
theorem fifo_eviction_child : ∃ t evs H m' p' j e, Run (Guarded (fun x ev => ev.asks SparesResident x.1) HistStep)
      (smallBoot smallFiles 32, bootHistory (smallBoot smallFiles 32)) evs (t, H) ∧
    (t.proc 1).pages.map PageInfo.state = [.resident, .resident, .resident] ∧
    evictPageFifo t.m (t.proc 1) = .ok (m', p', true) ∧ TakenOut (t.proc 1) p' j e ∧ Earliest (H 1) (t.proc 1) j e := by
  have hex : (replayHistory growsLazily (smallBoot smallFiles 32)
      (bootHistory (smallBoot smallFiles 32)) readAndFork).any (fun x => decide ((x.1.proc 1).state ≠ .unused) &&
        decide ((loadsOf (x.2 1)).length = 3) && decide ((x.1.proc 1).pages.map PageInfo.state = [.resident, .resident, .resident]) &&
        (evictPageFifo x.1.m (x.1.proc 1)).toOption.any (fun r => r.2.2)) = true := by
    decide +kernel
  obtain ⟨⟨t, H⟩, ht, hx⟩ := (Option.any_eq_true _ _).mp hex
  simp only [Bool.and_eq_true, decide_eq_true_eq] at hx
  obtain ⟨⟨⟨hst, hlen⟩, hres⟩, hev⟩ := hx
  obtain ⟨⟨m', p', r⟩, hev, rfl⟩ := ok_of_any hev
  obtain ⟨evs, hrun⟩ := replayHistory_run (G := SparesResident) (by
    intro s i n eager hlazy he
    rw [he] at hlazy
    cases hlazy) ht
  obtain ⟨-, -, hout⟩ := fifo_eviction smallBoot_init hrun hst (by rw [hlen]; decide)
  obtain ⟨j, e, htaken, hfirst⟩ := hout m' p' hev
  exact ⟨t, evs, H, m', p', j, e, hrun, hres, hev, htaken, hfirst⟩

/-- A process reads two pages of its heap, gives both back, reads the first again, grows eagerly over the second, and loses its stack
page. -/
def regrow : List Action := [.sbrk 0 8192 false, .fault 0 16384 .read, .fault 0 20480 .read, .sbrk 0 (-8192) false, .sbrk 0 4096 false,
  .fault 0 16384 .read, .sbrk 0 4096 true, .evict 0]

/-- The next eviction takes the second page, which came last. -/
theorem fifo_eviction_regrown : ¬∀ s t evs H i, Boot s → Run HistStep (s, bootHistory s) evs (t, H) → (t.proc i).state ≠ .unused →
    ((loadsOf (H i)).length : Int) + 1 < intMax → SeqOk (t.proc i) ∧ ∀ m' p', evictPageFifo t.m (t.proc i) = .ok (m', p', true) →
      ∃ j e, TakenOut (t.proc i) p' j e ∧ Earliest (H i) (t.proc i) j e := by
  have hex : (replayHistory (fun _ _ => true) (smallBoot smallFiles 32) (bootHistory (smallBoot smallFiles 32)) regrow).any (fun x =>
      decide ((x.1.proc 0).state ≠ .unused) &&
      decide (x.2 0 = [.loaded 12288, .loaded 16384, .loaded 20480, .loaded 16384, .grown 20480]) &&
      decide ((x.1.proc 0).pages =
        [⟨12288, .unmapped, false, 1, -1⟩, ⟨16384, .resident, false, 4, -1⟩, ⟨20480, .resident, false, 3, -1⟩]) &&
      (evictPageFifo x.1.m (x.1.proc 0)).toOption.any (fun r => r.2.2 &&
        decide (r.2.1.pages[2]? ≠ some ⟨20480, .resident, false, 3, -1⟩))) = true := by
    decide +kernel
  obtain ⟨⟨t, H⟩, ht, hx⟩ := (Option.any_eq_true _ _).mp hex
  simp only [Bool.and_eq_true, decide_eq_true_eq] at hx
  obtain ⟨⟨⟨hst, hH⟩, hpages⟩, hev⟩ := hx
  obtain ⟨⟨m', p', r⟩, hev, hx⟩ := ok_of_any hev
  simp only [Bool.and_eq_true, decide_eq_true_eq] at hx
  obtain ⟨rfl, hgone⟩ := hx
  intro hall
  obtain ⟨evs, hrun⟩ := replayHistory_run (G := fun _ _ _ => True) (fun _ _ _ _ _ => trivial) ht
  have hrun' : Run HistStep _ evs (t, H) := hrun.mono (fun _ _ _ hg => hg.2)
  obtain ⟨-, hout⟩ := hall _ _ _ _ 0 smallBoot_init hrun' hst (by rw [hH]; decide)
  obtain ⟨j, e, htaken, hfirst⟩ := hout m' p' hev
  have hj : 2 = j := by
    by_contra hne
    rw [htaken.others 2 hne, hpages] at hgone
    exact hgone rfl
  subst hj
  have he := htaken.entry
  rw [hpages] at he
  obtain rfl := Option.some.inj he
  obtain ⟨k, hk, hlater⟩ := hfirst.first
  obtain ⟨k', hk', hlt⟩ := hlater 1 ⟨16384, .resident, false, 4, -1⟩ (by decide) (by rw [hpages]; rfl) rfl
  rw [hH] at hk hk'
  -- the second page came last, at time 4, and the first at time 3
  have h4 : LastAt ([Arrival.loaded 12288, .loaded 16384, .loaded 20480, .loaded 16384, .grown 20480].map Arrival.page) 20480 4 :=
    LastAt.now [12288, 16384, 20480, 16384] 20480
  have h3 : LastAt ([Arrival.loaded 12288, .loaded 16384, .loaded 20480, .loaded 16384, .grown 20480].map Arrival.page) 16384 3 :=
    (LastAt.now [12288, 16384, 20480] 16384).later (by decide)
  obtain rfl := hk.unique h4
  obtain rfl := hk'.unique h3
  exact absurd hlt (by decide)

end Xv6SnifferBakery.Kernel
