import Xv6SnifferBakery.Lemmas.Kept
import Xv6SnifferBakery.Lemmas.Supply

/-!
# What a fault finds

Whether `handle_page_fault` returns 0, fails without a trace, or reaches the panic of `mappages` is settled by the state before: the
tests of the handler, the entry of the page and its swap slot, the free list, the victim of an eviction, and the tables of the page.
-/

namespace Xv6SnifferBakery.Kernel

open Lib

variable {s t : Sys} {m m' m₁ m₂ : Machine} {p p' p₀ p₁ : Proc} {e x : PageInfo} {pte : Pte} {i va : Nat} {access : Access} {fs : Fs}
  {pt : PageTable} {rest : List Pa} {mem : Pa}

/-! ## Processes between two events -/

/-- A process with a page in the swap file has its swap file open. -/
def SwapOpen (p : Proc) : Prop := ∀ e ∈ p.pages, e.state = .swapped → p.swapFile.isSome

theorem PageStep.swapOpen {ev : PageEvent} (h : PageStep (m, p) ev (m', p')) (hopen : SwapOpen p) : SwapOpen p' := by
  -- no event closes the file
  have hstays : p.swapFile.isSome → p'.swapFile.isSome := by
    rcases h.swapFile with heq | ⟨-, -, f, -, -, -, -, -, hf, -⟩
    · rw [heq]
      exact id
    · rw [hf]
      exact fun _ => rfl
  have hfrom : SwappedFrom p.pages p'.pages → SwapOpen p' := by
    intro hs e he hst
    obtain ⟨e', he', hst', -⟩ := hs e he hst
    exact hstays (hopen e' he' hst')
  cases h with
  | kill | store | copy => exact hfrom (.refl _)
  | track =>
    refine hfrom ?_
    intro e he hst
    rcases List.mem_append.mp he with he | he
    · exact ⟨e, he, hst, rfl⟩
    · rw [List.mem_singleton.mp he] at hst
      cases hst
  | evictClean hx =>
    rw [hx.proc] at hfrom ⊢
    exact hfrom (.modify (fun _ => rfl) nofun)
  | evictDirty hx =>
    rw [hx.proc]
    exact fun _ _ _ => rfl
  | evictFail hx =>
    rw [hx.proc] at hfrom ⊢
    exact hfrom (.refl _)
  | load _ _ _ _ _ hx =>
    rw [hx.proc] at hfrom ⊢
    exact hfrom (hx.fetched.swappedFrom.trans (.modify (fun _ => rfl) nofun))
  | loadFail _ _ _ hx =>
    cases hx with
    | read => exact hfrom (.refl _)
    | map _ hf => exact hfrom hf.swappedFrom
  | firstWrite => exact hfrom (.modify (fun _ => rfl) (fun _ => id))

theorem commit_swapOpen {path : List Char} {st : Scan} {entry sp : Nat} : SwapOpen (p.commit path st entry pt sp) := by
  rw [commit_eq]
  intro e he hst
  rw [List.mem_singleton.mp he] at hst
  cases hst

theorem swapOpen_kept : Kept (fun _ => True) SwapOpen where
  page := fun hs h => hs.swapOpen h
  sbrk := by
    intro m m' p p' n eager r _ hc h
    rw [(sysSbrk_env hc).2]
    exact h
  exec := by
    intro m m' p p' path argv o _ hargs hc h
    rcases kexec_cases hargs hc with ⟨-, hfail, -⟩ | ⟨argc, fs₀, fs, ip, mem, pt, sp, -, rfl, -⟩
    · cases hfail <;> exact h
    · exact commit_swapOpen
  fork := by
    intro p q np i hc h
    cases hc with
    | mk =>
      intro e he hst
      obtain ⟨j, hj⟩ := List.mem_iff_getElem?.mp he
      have hslot : slotsIn (p.pages.map forkPage) j = some e.swapSlot := slotsIn_some.mpr ⟨e, hj, hst, rfl⟩
      rw [slotsIn_forkPage] at hslot
      cases hslot
  other := fun _ _ _ _ _ _ _ h => h

/-- Page events keep what each of them keeps. -/
theorem PageRun.keeps {G : PageEvent → Prop} {P : Proc → Prop} (h : PageRun G m p m' p')
    (hP : ∀ {m₁ m₂ : Machine} {p₁ p₂ : Proc} {ev : PageEvent}, PageStep (m₁, p₁) ev (m₂, p₂) → P p₁ → P p₂) (hp : P p) : P p' := by
  obtain ⟨evs, hr⟩ := h
  exact hr.invariant (fun x => P x.2) (fun _ _ _ hx hs => hP hs.2 hx) hp

/-- What holds of a process between two events: its entries are for pages, its swap slots are in order, and the swap file and the
executable are there when pages are to be read from them. -/
structure Settled (m : Machine) (p : Proc) : Prop where
  aligned : p.Aligned
  slots : SlotsHeld p
  swapOpen : SwapOpen p
  exec : ExecReady m p

theorem Settled.run {G : PageEvent → Prop} (hs : Settled m p) (h : PageRun G m p m' p') : Settled m' p' := by
  have hrun : PageRun (fun _ => True) m p m' p' := h.mono (fun _ _ => trivial)
  refine ⟨?_, ?_, ?_, ?_⟩
  · exact h.keeps (fun hs' hq => aligned_kept.page hs' hq) hs.aligned
  · exact h.keeps (fun hs' hq => slotsHeld_kept.page hs' hq) hs.slots
  · exact h.keeps (fun hs' hq => hs'.swapOpen hq) hs.swapOpen
  · intro m₂ p₂ hr x hx
    have hsame : p.execInode = some x := by
      rw [← hrun.image.holds.2.2.1]
      exact hx
    exact hs.exec m₂ p₂ (hrun.trans hr) x hsame

theorem reach_settled (h : Reach ColdBoot Step t) (hi : i < nProc) (hl : (t.proc i).live) : Settled t.m (t.proc i) := by
  obtain ⟨s, as, hb, hr⟩ := h
  have hreach : Reach Boot Step t := ⟨s, as, hb.boot, hr⟩
  refine ⟨reach_aligned hreach i hl, ?_, ?_, (reach_execInv ⟨s, as, hb, hr⟩).ready hi⟩
  · exact slotsHeld_kept.reach (fun _ hb => hb.slotsHeld) hreach i hl
  · exact swapOpen_kept.reach (fun _ hb => hb.everyLive (fun _ _ _ _ _ _ => commit_swapOpen)) hreach i hl

/-! ## Contents -/

/-- The page in slot `slot` of the swap file can be read back: the file is open, its inode can be locked, and the slot is within it. -/
def SlotReadable (fs : Fs) (p : Proc) (slot : Int) : Prop :=
  ∃ f, p.swapFile = some f ∧ fs.Lockable (fs.ftable f).ip ∧ slotOff slot + pgSize ≤ (fs.openInode f).size

/-- The contents of page `va` can be read: if its entry says that it is in the swap file, its slot can be read back. -/
def CanRead (fs : Fs) (p : Proc) (va : Nat) : Prop := ∀ e, entryOf p va = some e → e.state = .swapped → SlotReadable fs p e.swapSlot

/-- A page in the swap file has a slot. -/
theorem SlotsHeld.slot (h : SlotsHeld p) (he : p.pages[i]? = some e) (hs : e.state = .swapped) :
    ∃ s < maxSwapSlots, p.swapBitmap s = true ∧ e.swapSlot = s := by
  obtain ⟨s, hlt, hbit, heq⟩ := h.held.used_of i e.swapSlot (slotsIn_some.mpr ⟨e, he, hs, rfl⟩)
  exact ⟨s, hlt, hbit, heq.symm⟩

theorem readi_page_iff {ip : Inode} {off : Nat} (hoff : off + 4096 < 2 ^ 32) : readi ip off pgSize = pgSize ↔ off + pgSize ≤ ip.size := by
  unfold readi pgSize
  split
  · exact iff_of_false (by omega) (by omega)
  split
  · exact iff_of_false (by omega) (by omega)
  · exact iff_of_true rfl (by omega)

/-- The contents of a page can be fetched exactly when its slot can be read back, if it has one. -/
theorem fetched_iff {src : Source} (hslots : SlotsHeld p) (hexec : ∀ x, p.execInode = some x → m.fs.Lockable x)
    (he : p.pages[i]? = some e) (hsrc : src = .swap → e.state = .swapped) :
    (∃ m' p' page, Fetched m p i va src m' p' page) ↔ (src = .swap → SlotReadable m.fs p e.swapSlot) := by
  constructor
  · rintro ⟨m', p', page, h⟩ rfl
    cases h with
    | swap hfile he' hlock hread =>
      obtain rfl := Option.some.inj (he.symm.trans he')
      obtain ⟨n, hlt, -, hslot⟩ := hslots.slot he (hsrc rfl)
      have h1024 : n < 1024 := hlt
      rw [(ilock_ok hlock).2.1, readi_page_iff (by rw [hslot, slotOff_natCast hlt]; omega)] at hread
      exact ⟨_, hfile, ilock_iff.mp ⟨_, hlock⟩, hread⟩
  · intro h
    cases src with
    | zero => exact ⟨_, _, _, .zero⟩
    | exec =>
      by_cases hr : readsExec p va = true
      · have hsome : p.execInode.isSome := by
          unfold readsExec at hr
          exact (Bool.and_eq_true_iff.mp hr).1
        obtain ⟨ip, hip⟩ := Option.isSome_iff_exists.mp hsome
        obtain ⟨fs, hl⟩ := ilock_iff.mpr (hexec ip hip)
        exact ⟨_, _, _, .execRead hr (by rwa [hip])⟩
      · exact ⟨_, _, _, .exec (by simpa using hr)⟩
    | swap =>
      obtain ⟨f, hfile, hlock, hsize⟩ := h rfl
      obtain ⟨n, hlt, -, hslot⟩ := hslots.slot he (hsrc rfl)
      have h1024 : n < 1024 := hlt
      obtain ⟨fs, hl⟩ := ilock_iff.mpr hlock
      refine ⟨_, _, _, .swap hfile he hl ?_⟩
      rw [(ilock_ok hl).2.1, readi_page_iff (by rw [hslot, slotOff_natCast hlt]; omega)]
      exact hsize

/-- A complete write to a slot makes the file as long as the slot needs, and no longer. -/
theorem SwapWrite.size {f slot : Nat} {pa : Pa} (h : SwapWrite m f pa slot m' true) (hlt : slot < maxSwapSlots) :
    (m'.fs.openInode f).size = max (m.fs.openInode f).size (slot * 4096 + 4096) := by
  obtain ⟨fs₁, fs₂, tot, hl, hw, rfl, hdone⟩ := h
  obtain ⟨-, hino, hft, -⟩ := ilock_ok hl
  obtain rfl : tot = some pgSize := of_decide_eq_true hdone.symm
  rw [slotOff_natCast hlt] at hw
  rcases writei_bytes hw with ⟨hno, -⟩ | ⟨w, -, htot, hsize, -⟩
  · cases hno
  · obtain rfl : w = pgSize := Option.some.inj htot.symm
    change (fs₂.openInode f).size = _
    rw [Fs.openInode, (writei_edits hw).ftable.trans hft, hsize, hino]
    rfl

/-- The inode of the swap file stays lockable when a page is written to it. -/
theorem SwapWrite.lockable {f slot : Nat} {pa : Pa} {done : Bool} (h : SwapWrite m f pa slot m' done) :
    m'.fs.Lockable (m'.fs.ftable f).ip := by
  obtain ⟨fs₁, fs₂, tot, hl, hw, rfl, -⟩ := h
  obtain ⟨href, -, hft, hvalid, -⟩ := ilock_ok hl
  have hedit := writei_edits hw
  change fs₂.Lockable (fs₂.ftable f).ip
  rw [hedit.ftable, hft]
  refine ⟨?_, Or.inl ?_⟩
  · rw [hedit.ref, href]
    exact (ilock_iff.mp ⟨_, hl⟩).1
  · rw [hedit.valid]
    exact hvalid

/-! ## Pages of memory -/

/-- Getting a page of memory: there is a free one, or an eviction makes one free. -/
theorem freed_iff : Freed m p m' p' ↔ (m.freelist ≠ [] ∧ m' = m ∧ p' = p) ∨ (m.freelist = [] ∧ ∃ e, Evicted m p e m' p') := by
  constructor
  · intro h
    cases h with
    | free hne => exact Or.inl ⟨hne, rfl, rfl⟩
    | clean hempty hx => exact Or.inr ⟨hempty, _, _, _, Or.inl hx⟩
    | dirty hempty hx => exact Or.inr ⟨hempty, _, _, _, Or.inr ⟨_, _, _, _, hx⟩⟩
  · rintro (⟨hne, rfl, rfl⟩ | ⟨hempty, e, i, pte, hx | ⟨slot, f, m₁, m₂, hx⟩⟩)
    · exact .free hne
    · exact .clean hempty hx
    · exact .dirty hempty hx

/-- After an eviction the page of the victim is not mapped, and its frame is on the free list. -/
theorem Evicted.after (h : Evicted m p e m' p') : p'.pagetable = p.pagetable.clearLeaf (e.va / 4096) ∧ ∃ q, m'.freelist = q :: m.freelist := by
  obtain ⟨i, pte, hx | ⟨slot, f, m₁, m₂, hx⟩⟩ := h
  · refine ⟨congrArg Proc.pagetable hx.proc, pte.pa, ?_⟩
    rw [kfree_ok hx.freed]
  · refine ⟨congrArg Proc.pagetable hx.proc, pte.pa, ?_⟩
    rw [kfree_ok hx.freed, ← (hx.opened.sameMem.trans hx.written.sameMem).freelist]

/-- An entry of a page in the swap file is not the victim's. -/
theorem Evicted.entry (h : Evicted m p x m' p') (he : p.pages[i]? = some e) (hs : e.state = .swapped) : p'.pages[i]? = some e := by
  have hne : ∀ {j : Nat} {pte : Pte} {f : PageInfo → PageInfo}, Victim p j x pte → (p.pages.modify j f)[i]? = some e := by
    intro j pte f hv
    have hij : j ≠ i := by
      rintro rfl
      have hres := hv.resident
      rw [Option.some.inj (hv.entry.symm.trans he), hs] at hres
      cases hres
    rw [List.getElem?_modify, he]
    simp [hij]
  obtain ⟨j, pte, hx | ⟨slot, f, m₁, m₂, hx⟩⟩ := h
  · rw [hx.proc]
    exact hne hx.victim
  · rw [hx.proc]
    exact hne hx.victim

/-- A file that was extended by one slot holds another slot exactly when it did before. -/
theorem within_max_iff {a n slot : Nat} (hne : n ≠ slot) (hstart : slot * 4096 ≤ a) :
    n * 4096 + pgSize ≤ max a (slot * 4096 + 4096) ↔ n * 4096 + pgSize ≤ a := by
  unfold pgSize
  omega

/-- An eviction writes to a slot that is clear: whether another one can be read back stays. -/
theorem Evicted.slotReadable (hset : Settled m p) (h : Evicted m p x m' p') (he : p.pages[i]? = some e) (hs : e.state = .swapped) :
    SlotReadable m'.fs p' e.swapSlot ↔ SlotReadable m.fs p e.swapSlot := by
  obtain ⟨j, pte, hx | ⟨slot, f, m₁, m₂, hx⟩⟩ := h
  · have hfile : p'.swapFile = p.swapFile := by
      rw [hx.proc]
      rfl
    unfold SlotReadable
    rw [(kfree_env hx.freed).fs, hfile]
  obtain ⟨n, hn, hbit, hslot⟩ := hset.slots.slot he hs
  obtain ⟨hclear, -, hlt⟩ := firstClear_some hx.clear
  rw [Nat.zero_add] at hlt
  obtain ⟨hopen, rfl⟩ : p.swapFile = some f ∧ m₁ = m := by
    rcases hx.opened with h | ⟨hnone, -⟩
    · exact h
    · have hsome := hset.swapOpen e (List.mem_of_getElem? he) hs
      rw [hnone] at hsome
      cases hsome
  have hfile : p'.swapFile = some f := congrArg Proc.swapFile hx.proc
  have hne : n ≠ slot := by
    rintro rfl
    rw [hclear] at hbit
    cases hbit
  obtain ⟨hlock, htakes⟩ := hx.written.takes hlt
  have hstart : slot * 4096 ≤ (m₁.fs.openInode f).size := (htakes.mp rfl).1
  have hsize := hx.written.size hlt
  have hwithin : n * 4096 + pgSize ≤ (m₂.fs.openInode f).size ↔ n * 4096 + pgSize ≤ (m₁.fs.openInode f).size := by
    rw [hsize]
    exact within_max_iff hne hstart
  unfold SlotReadable
  rw [(kfree_env hx.freed).fs, hfile, hopen, hslot, slotOff_natCast hn]
  constructor
  · rintro ⟨g, hg, -, hle⟩
    obtain rfl := Option.some.inj hg
    exact ⟨f, rfl, hlock, hwithin.mp hle⟩
  · rintro ⟨g, hg, -, hle⟩
    obtain rfl := Option.some.inj hg
    exact ⟨f, rfl, hx.written.lockable, hwithin.mpr hle⟩

theorem kalloc_cons (h : m.freelist = mem :: rest) : ∃ m₂, kalloc m = some (m₂, mem) ∧ m₂.freelist = rest := by
  cases hk : kalloc m with
  | none =>
    rw [kalloc_eq_none_iff.mp hk] at h
    cases h
  | some y =>
    obtain ⟨m₂, mem'⟩ := y
    have hcons := (kalloc_some hk).1
    rw [h] at hcons
    obtain ⟨rfl, rfl⟩ := List.cons.inj hcons
    exact ⟨m₂, rfl, rfl⟩

/-- A load has a page of memory, with this page table and this free list then. -/
inductive Supply (m : Machine) (p : Proc) : PageTable → List Pa → Prop where
  | free {mem : Pa} {rest : List Pa} (list : m.freelist = mem :: rest) : Supply m p p.pagetable rest
  | evict {x : PageInfo} (empty : m.freelist = []) (victim : CanEvict m p x) : Supply m p (p.pagetable.clearLeaf (x.va / 4096)) []

theorem Freed.supply (h : Freed m p m₁ p₁) (hk : kalloc m₁ = some (m₂, mem)) : Supply m p p₁.pagetable m₂.freelist := by
  obtain ⟨hcons, -⟩ := kalloc_some hk
  rcases freed_iff.mp h with ⟨-, rfl, rfl⟩ | ⟨hempty, x, hx⟩
  · exact .free hcons
  · obtain ⟨hpt, q, hq⟩ := hx.after
    rw [hempty, hcons] at hq
    rw [hpt, (List.cons.inj hq).2]
    exact .evict hempty hx.canEvict

theorem Supply.freed (h : Supply m p pt rest) :
    ∃ m₁ p₁ m₂ mem, Freed m p m₁ p₁ ∧ kalloc m₁ = some (m₂, mem) ∧ p₁.pagetable = pt ∧ m₂.freelist = rest := by
  cases h with
  | free hlist =>
    obtain ⟨m₂, hk, hrest⟩ := kalloc_cons hlist
    exact ⟨m, p, m₂, _, .free (by rw [hlist]; exact List.cons_ne_nil _ _), hk, rfl, hrest⟩
  | evict hempty hv =>
    obtain ⟨m₁, p₁, hx⟩ := hv.evicted
    obtain ⟨hpt, q, hq⟩ := hx.after
    rw [hempty] at hq
    obtain ⟨m₂, hk, hrest⟩ := kalloc_cons hq
    exact ⟨m₁, p₁, m₂, q, freed_iff.mpr (Or.inr ⟨hempty, _, hx⟩), hk, hpt, hrest⟩

/-! ## Loads -/

/-- A load gets its page of memory and its contents exactly when the contents can be read and there is a page of memory. -/
theorem obtained_iff {Q : PageTable → List Pa → Prop} (hs : Settled m p) (he : p.pages[i]? = some e) :
    (∃ m₁ p₁ m₂ mem m₃ p₂ page, Obtained m p i va (sourceOf p e va) m₁ p₁ m₂ mem m₃ p₂ page ∧ Q p₁.pagetable m₂.freelist) ↔
      (e.state = .swapped → SlotReadable m.fs p e.swapSlot) ∧ ∃ pt rest, Supply m p pt rest ∧ Q pt rest := by
  have hswap : sourceOf p e va = .swap ↔ e.state = .swapped := sourceOf_swap
  -- what is left of the entry, and of its slot, once there is a page of memory
  have hentry : ∀ {m₁ p₁}, Freed m p m₁ p₁ → ∃ e', p₁.pages[i]? = some e' ∧
      (e.state = .swapped → e' = e ∧ (SlotReadable m₁.fs p₁ e.swapSlot ↔ SlotReadable m.fs p e.swapSlot)) := by
    intro m₁ p₁ hf
    rcases freed_iff.mp hf with ⟨-, rfl, rfl⟩ | ⟨-, x, hx⟩
    · exact ⟨e, he, fun _ => ⟨rfl, Iff.rfl⟩⟩
    · obtain ⟨⟨e', he', -, -⟩, -⟩ := hf.leaves he
      refine ⟨e', he', fun hst => ⟨?_, hx.slotReadable hs he hst⟩⟩
      exact Option.some.inj (he'.symm.trans (hx.entry he hst))
  have hfetch : ∀ {m₁ m₂ : Machine} {p₁ : Proc} {mem : Pa}, Freed m p m₁ p₁ → kalloc m₁ = some (m₂, mem) →
      ((∃ m₃ p₂ page, Fetched m₂ p₁ i va (sourceOf p e va) m₃ p₂ page) ↔ (e.state = .swapped → SlotReadable m.fs p e.swapSlot)) := by
    intro m₁ m₂ p₁ mem hf hk
    obtain ⟨e', he', hsame⟩ := hentry hf
    have hrun : PageRun (·.causedBy .read) m p m₁ p₁ := hf.run
    have hset := hs.run hrun
    have hfs : m₂.fs = m₁.fs := (kalloc_env hk).fs
    have hexec : ∀ x, p₁.execInode = some x → m₂.fs.Lockable x := by
      rw [hfs]
      exact hset.exec m₁ p₁ (PageRun.refl _ _ _)
    rw [fetched_iff hset.slots hexec he' (fun h => by obtain ⟨rfl, -⟩ := hsame (hswap.mp h); exact hswap.mp h), hfs, hswap]
    refine forall_congr' (fun hst => ?_)
    obtain ⟨rfl, hiff⟩ := hsame hst
    exact hiff
  constructor
  · rintro ⟨m₁, p₁, m₂, mem, m₃, p₂, page, hob, hQ⟩
    exact ⟨(hfetch hob.freed hob.alloc).mp ⟨_, _, _, hob.fetched⟩, _, _, hob.freed.supply hob.alloc, hQ⟩
  · rintro ⟨hread, pt, rest, hsupply, hQ⟩
    obtain ⟨m₁, p₁, m₂, mem, hf, hk, rfl, rfl⟩ := hsupply.freed
    obtain ⟨m₃, p₂, page, hx⟩ := (hfetch hf hk).mpr hread
    exact ⟨m₁, p₁, m₂, mem, m₃, p₂, page, ⟨hf, hk, hx⟩, hQ⟩

/-- The page of a fault has an entry, or there is room for one. -/
def Enters (p : Proc) (va : Nat) : Prop := (findPageInfo p va).isSome ∨ p.pages.length < maxPages

instance (p : Proc) (va : Nat) : Decidable (Enters p va) := inferInstanceAs (Decidable (_ ∨ _))

theorem enters_iff : Enters p va ↔ ∃ i p₀, Tracked p va i p₀ := by
  constructor
  · intro h
    rcases tracked_or_full p va with htr | ⟨hnone, hfull⟩
    · exact htr
    · rcases h with hsome | hroom
      · rw [hnone] at hsome
        cases hsome
      · omega
  · rintro ⟨i, p₀, htr⟩
    cases htr with
    | old hfind => exact Or.inl (by rw [hfind]; rfl)
    | new _ hroom => exact Or.inr hroom

theorem Tracked.swapInode {ip : Inode} {nfree : Nat} (h : Tracked p va i p₀) : SwapInode m p₀ ip nfree ↔ SwapInode m p ip nfree := by
  constructor
  all_goals
    intro hx
    cases h with
    | old => exact hx
    | new =>
      cases hx with
      | opened hfile hlock => exact .opened hfile hlock
      | new hclosed hnew => exact .new hclosed hnew

theorem Tracked.canEvict (h : Tracked p va i p₀) : CanEvict m p₀ x ↔ CanEvict m p x := by
  have hbits : p₀.swapBitmap = p.swapBitmap := by cases h <;> rfl
  constructor
  · intro hx
    cases hx with
    | clean hv hframe hc => exact .clean (h.victim.mp hv) hframe hc
    | dirty hv hframe hd hclear hspace =>
      obtain ⟨ip, nfree, hswap, htakes⟩ := hspace
      exact .dirty (h.victim.mp hv) hframe hd (hbits ▸ hclear) ⟨ip, nfree, h.swapInode.mp hswap, htakes⟩
  · intro hx
    cases hx with
    | clean hv hframe hc => exact .clean (h.victim.mpr hv) hframe hc
    | dirty hv hframe hd hclear hspace =>
      obtain ⟨ip, nfree, hswap, htakes⟩ := hspace
      exact .dirty (h.victim.mpr hv) hframe hd (hbits ▸ hclear) ⟨ip, nfree, h.swapInode.mpr hswap, htakes⟩

theorem Tracked.supply (h : Tracked p va i p₀) : Supply m p₀ pt rest ↔ Supply m p pt rest := by
  have hpt := h.pagetable
  constructor
  · intro hx
    cases hx with
    | free hlist => exact hpt ▸ .free hlist
    | evict hempty hv => exact hpt ▸ .evict hempty (h.canEvict.mp hv)
  · intro hx
    cases hx with
    | free hlist => exact hpt ▸ .free hlist
    | evict hempty hv => exact hpt ▸ .evict hempty (h.canEvict.mpr hv)

/-- A new entry has nothing to read. -/
theorem Tracked.canRead (h : Tracked p va i p₀) (he : p₀.pages[i]? = some e) :
    (e.state = .swapped → SlotReadable fs p₀ e.swapSlot) ↔ CanRead fs p va := by
  cases h with
  | old hfind =>
    constructor
    · intro hx e' he' hs
      obtain rfl := Option.some.inj (he.symm.trans ((entryOf_find hfind).symm.trans he'))
      exact hx hs
    · exact fun hx hs => hx e ((entryOf_find hfind).trans he) hs
  | new hnone =>
    have hnew : e.state = .unmapped := by
      have hlast := (List.getElem?_concat_length ..).symm.trans he
      rw [← Option.some.inj hlast]
    refine iff_of_true (fun hs => ?_) (fun e' he' => ?_)
    · rw [hnew] at hs
      cases hs
    · rw [entryOf, hnone] at he'
      cases he'

theorem Tracked.givesUp (h : Tracked p va i p₀) : GivesUp m p₀ ↔ GivesUp m p := by
  have hidx : victimIdx p₀.pages = victimIdx p.pages := by
    cases h with
    | old => rfl
    | new => exact victimIdx_track _ _
  have hentry : ∀ {j : Nat}, victimIdx p.pages = some j → p₀.pages[j]? = p.pages[j]? := by
    intro j hj
    cases h with
    | old => rfl
    | new =>
      obtain ⟨e, he, -⟩ := victimIdx_some hj
      exact List.getElem?_append_left (List.getElem?_eq_some_iff.mp he).1
  have hpt := h.pagetable
  have hbits : p₀.swapBitmap = p.swapBitmap := by cases h <;> rfl
  have hfile : p₀.swapFile = p.swapFile := by cases h <;> rfl
  have hcwd : p₀.cwd = p.cwd := by cases h <;> rfl
  have hpid : p₀.pid = p.pid := by cases h <;> rfl
  constructor
  · intro hx
    cases hx with
    | none hi => exact .none (hidx ▸ hi)
    | unmapped hi he hlt hleaf => exact .unmapped (hidx ▸ hi) ((hentry (hidx ▸ hi)).symm.trans he) hlt (hpt ▸ hleaf)
    | slots hv hd hfull => exact .slots (h.victim.mp hv) hd (hbits ▸ hfull)
    | create hv hd hclear hclosed hcalm hnever =>
      exact .create (h.victim.mp hv) hd (hbits ▸ hclear) (hfile ▸ hclosed) (hcwd ▸ hpid ▸ hcalm) (hcwd ▸ hpid ▸ hnever)
    | room hv hd hclear hswap hfull => exact .room (h.victim.mp hv) hd (hbits ▸ hclear) (h.swapInode.mp hswap) hfull
  · intro hx
    cases hx with
    | none hi => exact .none (hidx.trans hi)
    | unmapped hi he hlt hleaf => exact .unmapped (hidx.trans hi) ((hentry hi).trans he) hlt (by rw [hpt]; exact hleaf)
    | slots hv hd hfull => exact .slots (h.victim.mpr hv) hd (by rw [hbits]; exact hfull)
    | create hv hd hclear hclosed hcalm hnever =>
      refine .create (h.victim.mpr hv) hd (by rw [hbits]; exact hclear) (hfile.trans hclosed) ?_ ?_
      · rw [hcwd, hpid]
        exact hcalm
      · rw [hcwd, hpid]
        exact hnever
    | room hv hd hclear hswap hfull => exact .room (h.victim.mpr hv) hd (by rw [hbits]; exact hclear) (h.swapInode.mpr hswap) hfull

theorem Settled.tracked (hs : Settled m p) (hload : Loads p va access) (hal : va % 4096 = 0) (h : Tracked p va i p₀) : Settled m p₀ := by
  have hround := pgRoundDown_of_aligned hal
  cases h with
  | old => exact hs
  | new hnone hroom =>
    have hstep : PageStep (m, p) (.track va) (m, p.track va) :=
      .track hload.lt hal hload.user (fun e he => hround ▸ findPageInfo_none hnone he) hroom
    rw [hround]
    exact hs.run ((PageRun.refl (fun _ => True) m p).snoc hstep trivial)

/-- What a load does before it maps the page can be done exactly when the page gets an entry, its contents can be read, and there is a
page of memory. -/
theorem loading_iff {Q : PageTable → List Pa → Prop} (hs : Settled m p) (hload : Loads p va access) (hal : va % 4096 = 0) :
    (∃ i p₀ e m₁ p₁ m₂ mem m₃ p₂ page, Tracked p va i p₀ ∧ p₀.pages[i]? = some e ∧
      Obtained m p₀ i va (sourceOf p₀ e va) m₁ p₁ m₂ mem m₃ p₂ page ∧ Q p₁.pagetable m₂.freelist) ↔
    Enters p va ∧ CanRead m.fs p va ∧ ∃ pt rest, Supply m p pt rest ∧ Q pt rest := by
  constructor
  · rintro ⟨i, p₀, e, m₁, p₁, m₂, mem, m₃, p₂, page, htr, he, hob, hQ⟩
    obtain ⟨hread, pt, rest, hsupply, hQ'⟩ := (obtained_iff (hs.tracked hload hal htr) he).mp ⟨_, _, _, _, _, _, _, hob, hQ⟩
    exact ⟨enters_iff.mpr ⟨i, p₀, htr⟩, (htr.canRead he).mp hread, pt, rest, htr.supply.mp hsupply, hQ'⟩
  · rintro ⟨henters, hread, pt, rest, hsupply, hQ⟩
    obtain ⟨i, p₀, htr⟩ := enters_iff.mp henters
    obtain ⟨e, he, -⟩ := htr.entry hal
    obtain ⟨m₁, p₁, m₂, mem, m₃, p₂, page, hob, hQ'⟩ := (obtained_iff (hs.tracked hload hal htr) he).mpr
      ⟨(htr.canRead he).mpr hread, pt, rest, htr.supply.mpr hsupply, hQ⟩
    exact ⟨i, p₀, e, m₁, p₁, m₂, mem, m₃, p₂, page, htr, he, hob, hQ'⟩

/-! ## Answers -/

/-- Page `va` can be loaded: its contents can be read, and there is memory for it and for the tables it lacks. When no page is free it
gets the frame of the victim, so no table may be missing; and a page that is mapped can be loaded only as the victim itself. -/
inductive CanLoad (m : Machine) (p : Proc) (va : Nat) : Prop where
  | free {mem : Pa} {rest : List Pa} (list : m.freelist = mem :: rest) (read : CanRead m.fs p va)
      (unmapped : p.pagetable.leaf (va / 4096) = none) (tables : p.pagetable.missing va ≤ rest.length) : CanLoad m p va
  | evict {x : PageInfo} (empty : m.freelist = []) (victim : CanEvict m p x) (read : CanRead m.fs p va)
      (unmapped : p.pagetable.leaf (va / 4096) = none ∨ x.va = va) (tables : p.pagetable.missing va = 0) : CanLoad m p va

/-- A fault at page `va` is served: it is the first write to a page in memory, or it passes the tests, the page has an entry or gets
one, and it can be loaded. -/
inductive Served (m : Machine) (p : Proc) (va : Nat) (access : Access) : Prop where
  | grant {i : Nat} (h : GrantsWrite p va access i) : Served m p va access
  | load (loads : Loads p va access) (enters : Enters p va) (can : CanLoad m p va) : Served m p va access

/-- A fault at page `va` leaves no trace: it is refused, there is no room for an entry, memory is full and the eviction gives up, the
swap file is shorter than the page's slot needs, or the last free page would be needed for a table. -/
inductive Declines (m : Machine) (p : Proc) (va : Nat) (access : Access) : Prop where
  | refused (load : ¬Loads p va access) (grant : ∀ i, ¬GrantsWrite p va access i) : Declines m p va access
  | full (loads : Loads p va access) (untracked : findPageInfo p va = none) (full : maxPages ≤ p.pages.length) : Declines m p va access
  | stuck (loads : Loads p va access) (enters : Enters p va) (empty : m.freelist = []) (stuck : GivesUp m p) : Declines m p va access
  | short {e : PageInfo} {f : Nat} {mem : Pa} {rest : List Pa} (loads : Loads p va access) (entry : entryOf p va = some e)
      (swapped : e.state = .swapped) (list : m.freelist = mem :: rest) (frame : Freeable m.kend mem) (file : p.swapFile = some f)
      (lock : m.fs.Lockable (m.fs.ftable f).ip) (short : (m.fs.openInode f).size < slotOff e.swapSlot + pgSize) : Declines m p va access
  | noTable {mem : Pa} (loads : Loads p va access) (enters : Enters p va) (last : m.freelist = [mem]) (frame : Freeable m.kend mem)
      (read : CanRead m.fs p va) (missing : 0 < p.pagetable.missing va) : Declines m p va access

@[simp] theorem PageTable.clearLeaf_missing (pt : PageTable) (v va : Nat) : (pt.clearLeaf v).missing va = pt.missing va := rfl

/-- The page of a victim, against another page. -/
theorem CanEvict.leaf (h : CanEvict m p x) (hp : p.Aligned) (hal : va % 4096 = 0) :
    (p.pagetable.clearLeaf (x.va / 4096)).leaf (va / 4096) = if x.va = va then none else p.pagetable.leaf (va / 4096) := by
  obtain ⟨j, pte, hv⟩ := h.victim
  have hx := hp.entry hv.entry
  rw [PageTable.clearLeaf_leaf]
  by_cases hva : x.va = va
  · rw [if_pos hva, hva, Function.update_self]
  · rw [if_neg hva, Function.update_of_ne (by omega)]

theorem canLoad_iff (hp : p.Aligned) (hal : va % 4096 = 0) : CanLoad m p va ↔
    CanRead m.fs p va ∧ ∃ pt rest, Supply m p pt rest ∧ pt.leaf (va / 4096) = none ∧ pt.missing va ≤ rest.length := by
  constructor
  · intro h
    cases h with
    | free hlist hread hun htab => exact ⟨hread, _, _, .free hlist, hun, htab⟩
    | evict hempty hv hread hun htab =>
      refine ⟨hread, _, _, .evict hempty hv, ?_, htab.le⟩
      rw [hv.leaf hp hal]
      split
      · rfl
      · rename_i hne
        exact hun.resolve_right hne
  · rintro ⟨hread, pt, rest, hsupply, hun, htab⟩
    cases hsupply with
    | free hlist => exact .free hlist hread hun htab
    | evict hempty hv =>
      refine .evict hempty hv hread ?_ (Nat.le_zero.mp htab)
      rw [hv.leaf hp hal] at hun
      split at hun
      · rename_i heq
        exact Or.inr heq
      · exact Or.inl hun

theorem servedRun_iff (hs : Settled m p) (hal : va % 4096 = 0) : ServedRun m p va access ↔ Served m p va access := by
  constructor
  · intro h
    cases h with
    | grant hg => exact .grant hg
    | load hload htr he hob hfree hroom =>
      obtain ⟨henters, hcan⟩ := (loading_iff (Q := fun pt rest => pt.leaf (va / 4096) = none ∧ pt.missing va ≤ rest.length) hs hload hal).mp
        ⟨_, _, _, _, _, _, _, _, _, _, htr, he, hob, hfree, hroom⟩
      exact .load hload henters ((canLoad_iff hs.aligned hal).mpr hcan)
  · intro h
    cases h with
    | grant hg => exact .grant hg
    | load hload henters hcan =>
      obtain ⟨i, p₀, e, m₁, p₁, m₂, mem, m₃, p₂, page, htr, he, hob, hfree, hroom⟩ :=
        (loading_iff (Q := fun pt rest => pt.leaf (va / 4096) = none ∧ pt.missing va ≤ rest.length) hs hload hal).mpr
          ⟨henters, (canLoad_iff hs.aligned hal).mp hcan⟩
      exact .load hload htr he hob hfree hroom

/-- A fault returns 0 exactly when it is served. -/
theorem fault_served_iff {addr : Nat} {fromUser : Bool} (hs : Settled m p) :
    (∃ m' p', handlePageFault m p addr access fromUser = .ok (m', p', true)) ↔ Served m p (pgRoundDown addr) access :=
  (handlePageFault_ok_iff hs.aligned).trans (servedRun_iff hs (pgRoundDown_mod addr))

theorem declinedRun_iff (hs : Settled m p) (hal : va % 4096 = 0) : DeclinedRun m p va access ↔ Declines m p va access := by
  constructor
  · intro h
    cases h with
    | refused hload hgrant => exact .refused hload hgrant
    | full hload hnone hfull => exact .full hload hnone hfull
    | stuck hload htr hempty hstuck =>
      exact .stuck hload (enters_iff.mpr ⟨_, _, htr⟩) hempty (htr.givesUp.mp (stuck_iff.mp hstuck))
    | short hload htr he hswap halloc hfile hlock hread hframe =>
      rename_i i f p₀ e m₁ mem fs
      obtain ⟨n, hn, -, hslot⟩ := (hs.tracked hload hal htr).slots.slot he hswap
      have hn' : n < 1024 := hn
      have hfs : m₁.fs = m.fs := (kalloc_env halloc).fs
      rw [(ilock_ok hlock).2.1, Ne, readi_page_iff (by rw [hslot, slotOff_natCast hn]; omega), hfs] at hread
      cases htr with
      | old hfind =>
        refine .short hload ((entryOf_find hfind).trans he) hswap (kalloc_some halloc).1 hframe hfile ?_ (Nat.not_le.mp hread)
        rw [← hfs]
        exact ilock_iff.mp ⟨_, hlock⟩
      | new =>
        have hlast := (List.getElem?_concat_length ..).symm.trans he
        rw [← Option.some.inj hlast] at hswap
        cases hswap
    | noTable hload htr he halloc hlast hfetch hmiss hframe =>
      rename_i i e p₀ p₂ m₁ m₂ mem page
      have hset := hs.tracked hload hal htr
      have hfs : m₁.fs = m.fs := (kalloc_env halloc).fs
      have hexec : ∀ x, p₀.execInode = some x → m₁.fs.Lockable x := by
        rw [hfs]
        exact hset.exec m p₀ (PageRun.refl _ _ _)
      have hread := (fetched_iff hset.slots hexec he sourceOf_swap.mp).mp ⟨_, _, _, hfetch⟩
      rw [sourceOf_swap, hfs] at hread
      refine .noTable hload (enters_iff.mpr ⟨_, _, htr⟩) ?_ hframe ((htr.canRead he).mp hread) (htr.pagetable ▸ hmiss)
      rw [(kalloc_some halloc).1, hlast]
  · intro h
    cases h with
    | refused hload hgrant => exact .refused hload hgrant
    | full hload hnone hfull => exact .full hload hnone hfull
    | stuck hload henters hempty hstuck =>
      obtain ⟨i, p₀, htr⟩ := enters_iff.mp henters
      exact .stuck hload htr hempty (stuck_iff.mpr (htr.givesUp.mpr hstuck))
    | short hload he hswap hlist hframe hfile hlock hshort =>
      rename_i e f mem rest
      obtain ⟨i, hfind⟩ : ∃ i, findPageInfo p va = some i := by
        cases hf : findPageInfo p va with
        | none =>
          rw [entryOf, hf] at he
          cases he
        | some i => exact ⟨i, rfl⟩
      have he' := (entryOf_find hfind).symm.trans he
      obtain ⟨m₁, hk, -⟩ := kalloc_cons hlist
      have hfs : m₁.fs = m.fs := (kalloc_env hk).fs
      obtain ⟨fs, hl⟩ := ilock_iff.mpr hlock
      obtain ⟨n, hn, -, hslot⟩ := hs.slots.slot he' hswap
      have hn' : n < 1024 := hn
      rw [← hfs] at hl
      refine .short hload (.old hfind) he' hswap hk hfile hl ?_ hframe
      rw [(ilock_ok hl).2.1, Ne, readi_page_iff (by rw [hslot, slotOff_natCast hn]; omega), hfs]
      exact Nat.not_le.mpr hshort
    | noTable hload henters hlast hframe hread hmiss =>
      obtain ⟨i, p₀, htr⟩ := enters_iff.mp henters
      obtain ⟨e, he, -⟩ := htr.entry hal
      obtain ⟨m₁, hk, hrest⟩ := kalloc_cons hlast
      have hset := hs.tracked hload hal htr
      have hfs : m₁.fs = m.fs := (kalloc_env hk).fs
      have hexec : ∀ x, p₀.execInode = some x → m₁.fs.Lockable x := by
        rw [hfs]
        exact hset.exec m p₀ (PageRun.refl _ _ _)
      have hread' : sourceOf p₀ e va = .swap → SlotReadable m₁.fs p₀ e.swapSlot := by
        rw [sourceOf_swap, hfs]
        exact (htr.canRead he).mpr hread
      obtain ⟨m₂, p₂, page, hfetch⟩ : ∃ m₂ p₂ page, Fetched m₁ p₀ i va (sourceOf p₀ e va) m₂ p₂ page :=
        (fetched_iff hset.slots hexec he sourceOf_swap.mp).mpr hread'
      exact .noTable hload htr he hk hrest hfetch (htr.pagetable ▸ hmiss) hframe

/-- A fault returns -1 and leaves the table and the free list exactly when it declines. -/
theorem fault_declines_iff {addr : Nat} {fromUser : Bool} (hs : Settled m p) :
    (∃ m' p', handlePageFault m p addr access fromUser = .ok (m', p', false) ∧ p'.pagetable = p.pagetable ∧ m'.freelist = m.freelist) ↔
      Declines m p (pgRoundDown addr) access :=
  (handlePageFault_fail_iff hs.aligned).trans (declinedRun_iff hs (pgRoundDown_mod addr))

end Xv6SnifferBakery.Kernel
