import Xv6SnifferBakery.Lemmas.Stored

/-!
# Stored bytes come back

A page of the heap that is paged out and in again still has what was stored to it, unless an eviction discards it: a page that was
swapped in counts as clean, although its slot was given up, and the next eviction of a clean page keeps nothing of it.
-/

namespace Xv6SnifferBakery.Kernel

open Lib

variable {s t : Sys} {a : Action} {i k va : Nat} {last : Page} {m : Machine} {p : Proc} {ev : Event}

/-! ## Runs of loads, stores, faults and evictions -/

/-- What page `va` of process `i` should hold after an action. -/
def Action.stores (i va : Nat) (a : Action) (last : Page) : Page :=
  match a with
  | .store k b x => if k = i ∧ b / 4096 = va / 4096 then Function.update last (b % 4096) x else last
  | _ => last

/-- A fault, a store or an eviction of some process, with what was last stored to page `va` of process `i` beside it. A process writes
to no swap file but its own. -/
def PagingStep (i va : Nat) (x : Sys × Page) (a : Action) (y : Sys × Page) : Prop :=
  Step x.1 a y.1 ∧ (∃ k, a.ownMemory k = true ∧ (k ≠ i → ∀ f, (x.1.proc i).swapFile = some f →
    (x.1.m.fs.openInode f).SameBytes (y.1.m.fs.openInode f))) ∧ y.2 = a.stores i va x.2

/-- An action discards page `va` of process `i`: it evicts the page as clean, or the page is the victim of the fault that is to load it
again. -/
def Action.discards (i va : Nat) (s : Sys) (a : Action) : Prop :=
  match a with
  | .evict k => k = i ∧ ∃ j e pte, Victim (s.proc i) j e pte ∧ e.va = va ∧ e.isDirty = false
  | .fault k b access => k = i ∧ FaultEvicts s.m (s.proc i) (pgRoundDown b) access ∧
      ∃ j e pte, Victim (s.proc i) j e pte ∧ e.va = va ∧ (e.isDirty = false ∨ pgRoundDown b = va)
  | _ => False

/-- A step that does not discard the page, unless it holds nothing but zeros. -/
def SparingStep (i va : Nat) : Sys × Page → Action → Sys × Page → Prop :=
  Guarded (fun x a => a.discards i va x.1 → ∀ k < 4096, x.2 k = 0) (PagingStep i va)

/-! ## Where the heap begins -/

/-- The heap of a process begins at or below the top of its stack. -/
def Proc.HeapLow (p : Proc) : Prop := p.heapStart ≤ p.stackTop

theorem imageTop_heap {sz : Nat} (h : StackTop (imageTop sz)) : pgRoundUp sz ≤ imageTop sz := by
  obtain ⟨h1, -, -⟩ := h
  unfold imageTop add64 userStack pgSize at *
  have hlt : pgRoundUp sz < 2 ^ 64 := by
    unfold pgRoundUp add64
    omega
  omega

theorem ExecDone.heapLow {m m' : Machine} {p p' : Proc} {path : List Char} {fs₀ fs : Fs} {ip sp : Nat} {mem : Pa} {pt : PageTable}
    (h : ExecDone m p path m' p' fs₀ fs ip mem pt sp) : p'.HeapLow := by
  rw [h.proc, commit_eq]
  exact imageTop_heap h.table.top

theorem SysStep.heapLow (h : SysStep s ev t) (hwf : EveryLive Proc.Wf s) (hs : EveryLive Proc.HeapLow s) : EveryLive Proc.HeapLow t := by
  intro k hl
  cases h.slot hl with
  | same live tf ofile cwd parent killed state _ hp =>
    rw [hp]
    exact hs k live
  | page _ live hp =>
    rw [hp.image.eq]
    exact hs k live
  | sbrk _ live hc =>
    rw [(sysSbrk_env hc).2]
    exact hs k live
  | exec _ live args hc =>
    obtain ⟨-, ⟨-, hf⟩ | ⟨argc, fs₀, fs, ip, mem, pt, sp, -, hd⟩⟩ := kexec_spec (hwf k live).toHasTable (Or.inr (hwf k live).stack) args hc
    · have hlow := hs k live
      generalize t.proc k = q at hf
      cases hf <;> exact hlow
    · exact hd.heapLow
  | fork _ live _ hc =>
    have hlow := hs _ live
    generalize t.proc k = q at hc
    cases hc with
    | mk => exact hlow

/-! ## The invariant -/

/-- A run from boot in which nobody but process `i` touches its swap file, and no process shrinks past its trapframe page. -/
abbrev OwnSwapRun (i : Nat) : Sys × (Nat → Option Page) → List Event → Sys × (Nat → Option Page) → Prop :=
  Run (Guarded (fun x ev => ev.keepsTrapframe x.1) (SwapStep i))

theorem OwnSwapRun.heapLow {saved : Nat → Option Page} {x : Sys × (Nat → Option Page)} {evs : List Event} (hb : Boot s)
    (h : OwnSwapRun i (s, saved) evs x) : EveryLive Proc.Wf x.1 ∧ EveryLive Proc.HeapLow x.1 := by
  refine h.invariant (fun x => EveryLive Proc.Wf x.1 ∧ EveryLive Proc.HeapLow x.1) ?_ ⟨hb.everyWf, ?_⟩
  · rintro y ev z ⟨hwf, hlow⟩ ⟨hkeep, hstep, -⟩
    exact ⟨hstep.everyWf hkeep hwf, hstep.heapLow hwf hlow⟩
  · intro k hk
    obtain ⟨m, q, path, m', fs₀, fs, ip, mem, pt, sp, hd, -⟩ := hb.done hk
    exact hd.heapLow

theorem OwnSwapRun.inv {saved : Nat → Option Page} {x : Sys × (Nat → Option Page)} {evs : List Event} (hb : Boot s)
    (h : OwnSwapRun i (s, saved) evs x) : SysInv x.1 :=
  h.invariant (fun x => SysInv x.1) (fun _ _ _ hx hstep => hstep.2.1.inv hx hstep.1) hb.inv

/-- Page `va` of the heap was not touched yet: it is neither in memory nor in the swap file, nor to be loaded from the executable. -/
structure FreshHeap (va : Nat) (p : Proc) : Prop where
  aligned : va % 4096 = 0
  above : p.stackTop ≤ va
  below : va < p.sz
  user : va < trapframeVa
  lazy : ¬inExec p va
  unmapped : p.pagetable.leaf (va / 4096) = none
  unswapped : ¬SwappedAt va p

/-- Process `i`, whose image is that of `q`, has in page `va` what was last stored there. -/
structure StoredInv (i va : Nat) (q : Proc) (x : Sys × Page) : Prop where
  inv : SysInv x.1
  image : SameImage q (x.1.proc i)
  live : (x.1.proc i).live
  keeps : Keeps va x.2 x.1.m (x.1.proc i)

/-- What a process does to its memory is a run of its page events. -/
theorem Step.ownRun (h : Step s a t) (ha : a.ownMemory k = true) :
    s.ready k ∧ t = s.put k t.m (t.proc k) ∧ PageRun (fun _ => True) s.m (s.proc k) t.m (t.proc k) := by
  obtain ⟨hen, h⟩ := h
  have hcall : ∀ {G : PageEvent → Prop} {m : Machine} {p : Proc}, s.ready k → PageRun G s.m (s.proc k) m p → t = s.put k m p →
      s.ready k ∧ t = s.put k t.m (t.proc k) ∧ PageRun (fun _ => True) s.m (s.proc k) t.m (t.proc k) := by
    rintro G m p hready hrun rfl
    rw [Sys.put_m, Sys.put_proc_self]
    exact ⟨hready, rfl, hrun.mono (fun _ _ => trivial)⟩
  cases a with
  | fault j addr access =>
    obtain rfl : j = k := of_decide_eq_true ha
    simp only [perform] at h
    obtain ⟨m, p, r, hc, rfl⟩ := memCall_ok h
    exact hcall hen.1 (handlePageFault_run hc) rfl
  | evict j =>
    obtain rfl : j = k := of_decide_eq_true ha
    simp only [perform] at h
    obtain ⟨m, p, r, hc, rfl⟩ := memCall_ok h
    exact hcall hen (evictPageFifo_run .read hc) rfl
  | store j addr byte =>
    obtain rfl : j = k := of_decide_eq_true ha
    obtain ⟨pa, hpa⟩ := Option.isSome_iff_exists.mp hen.2
    obtain rfl := Except.ok.inj h
    refine hcall (m := s.m.poke pa (addr % 4096) byte) (p := s.proc j) (G := fun _ => True) hen.1 ?_ ?_
    · exact (PageRun.refl _ _ _).snoc (.store hpa) trivial
    · simp [userStore, hpa, Sys.put]
  | _ => cases ha

/-- A fault, a store or an eviction of the process. -/
theorem Keeps.own (h : Keeps va last s.m (s.proc i)) (hal : va % 4096 = 0) (hu : va / 4096 < userPages) (ha : a.ownMemory i = true)
    (hspares : a.discards i va s → ∀ k < 4096, last k = 0) (hs : Step s a t) : Keeps va (a.stores i va last) t.m (t.proc i) := by
  obtain ⟨hen, hs⟩ := hs
  cases a with
  | fault j addr access =>
    obtain rfl : j = i := of_decide_eq_true ha
    simp only [perform] at hs
    obtain ⟨m, p, r, hc, rfl⟩ := memCall_ok hs
    rw [Sys.put_m, Sys.put_proc_self]
    refine h.faulted hal hu ?_ hc
    intro hev l e pte hv hea hlost
    exact hspares ⟨rfl, hev, l, e, pte, hv, hea, hlost⟩
  | evict j =>
    obtain rfl : j = i := of_decide_eq_true ha
    simp only [perform] at hs
    obtain ⟨m, p, r, hc, rfl⟩ := memCall_ok hs
    rw [Sys.put_m, Sys.put_proc_self]
    refine h.evict hal hu ?_ hc
    intro l e pte hv hea hclean
    exact hspares ⟨rfl, l, e, pte, hv, hea, hclean⟩
  | store j addr byte =>
    obtain rfl : j = i := of_decide_eq_true ha
    obtain ⟨pa, hpa⟩ := Option.isSome_iff_exists.mp hen.2
    obtain rfl := Except.ok.inj hs
    have hstep : PageStep (s.m, s.proc j) (.store addr byte) (s.m.poke pa (addr % 4096) byte, s.proc j) := .store hpa
    have hkeeps := h.step hstep hal hu (fun _ hc => by cases hc) (fun hd => hd.elim)
    have hstores : (Action.store j addr byte).stores j va last = (PageEvent.store addr byte).stores va last := by
      simp [Action.stores, PageEvent.stores]
    rw [hstores]
    simpa [userStore, hpa] using hkeeps
  | _ => cases ha

/-- A fault, a store or an eviction of another process, which leaves the swap file of this one. -/
theorem Keeps.other {G : PageEvent → Prop} (h : Keeps va last s.m (s.proc i)) (hs : SysInv s) (hi : i < nProc) (hk : k < nProc)
    (hne : k ≠ i) (hl : (s.proc i).live) (hkl : (s.proc k).live) (hu : va / 4096 < userPages) (hrun : PageRun G s.m (s.proc k) m p)
    (hinv : SysInv (s.put k m p)) (hfile : ∀ f, (s.proc i).swapFile = some f → (s.m.fs.openInode f).SameBytes (m.fs.openInode f)) :
    Keeps va last m (s.proc i) := by
  have hproc : (s.put k m p).proc i = s.proc i := Sys.put_proc_of_ne _ _ _ (Ne.symm hne)
  have hown : PageInv m (s.proc i) := by
    have := hinv.pageInv hi (by rwa [hproc])
    rwa [hproc] at this
  exact h.machine hown hu (fun q hq => hrun.outside (hs.wf hk hkl) (hs.apart hi hk (Ne.symm hne) hq)) hfile

theorem StoredInv.step {q : Proc} {x y : Sys × Page} (h : StoredInv i va q x) (hi : i < nProc) (hal : va % 4096 = 0)
    (hu : va / 4096 < userPages) (hs : SparingStep i va x a y) : StoredInv i va q y := by
  obtain ⟨hspares, hstep, ⟨k, ha, hfile⟩, hy⟩ := hs
  obtain ⟨hready, hput, hrun⟩ := hstep.ownRun ha
  have hsafe : SafeStep x.1 a y.1 := by
    refine ⟨?_, hstep⟩
    cases a <;> trivial
  have hinv : SysInv y.1 := SafeStep.inv h.inv hsafe
  by_cases hki : k = i
  · -- the process itself
    subst hki
    have himg : SameImage (x.1.proc k) (y.1.proc k) := by
      have hfollow := hrun.follow (R := fun _ _ _ => True) (b := ()) (fun _ _ _ _ _ _ => ⟨(), trivial⟩) (SameImage.refl _) hready.1 h.live
      exact hfollow.1
    refine ⟨hinv, h.image.trans himg, ?_, ?_⟩
    · rw [Proc.live, himg.state]
      exact h.live
    · rw [hy]
      exact h.keeps.own hal hu ha hspares hstep
  · have hproc : y.1.proc i = x.1.proc i := by
      rw [hput]
      exact Sys.put_proc_of_ne _ _ _ (Ne.symm hki)
    have hsame : a.stores i va x.2 = x.2 := by
      cases a with
      | store j b c =>
        obtain rfl : j = k := of_decide_eq_true ha
        exact if_neg (fun hc => hki hc.1)
      | _ => rfl
    refine ⟨hinv, hproc ▸ h.image, hproc ▸ h.live, ?_⟩
    rw [hy, hsame, hproc]
    exact h.keeps.other h.inv hi hready.1 hki h.live hready.2.1 hu hrun (hput ▸ hinv) (hfile hki)

/-- In every state that is reached while nobody but process `i` touches its swap file, for every page of its heap that was not touched
yet, and in every run of stores, faults and evictions from there in which no step discards the page while it holds something: as long
as the process is not killed and the table of tracked pages has room for the page, a load yields the byte last stored, or zero. -/
theorem stored_is_loaded {s₀ : Sys} {evs : List Event} {saved : Nat → Option Page} {as : List Action} (hb : Boot s₀)
    (h₀ : OwnSwapRun i (s₀, fun _ => none) evs (s, saved)) (hi : i < nProc) (hl : (s.proc i).live) (hfresh : FreshHeap va (s.proc i))
    (hr : Run (SparingStep i va) (s, fun _ => 0) as (t, last)) (hkilled : (t.proc i).killed = false)
    (hroom : entryOf (t.proc i) va = none → (t.proc i).pages.length < maxPages) :
    ∀ k < 4096, view t.m (t.proc i) (va + k) = some (last k) := by
  have hinv : SysInv s := OwnSwapRun.inv hb h₀
  have hlow : (s.proc i).HeapLow := (OwnSwapRun.heapLow hb h₀).2 i hl
  have hkept : SwapKept saved s.m (s.proc i) := SwapStep.swapKept hb (h₀.mono (fun _ _ _ hg => hg.2)) hl
  have hal := hfresh.aligned
  have hu : va / 4096 < userPages := by
    have := hfresh.user
    rw [trapframeVa_eq] at this
    omega
  have hheap : HeapPage va (s.proc i) := ⟨hal, hfresh.user, hfresh.above, Nat.le_trans hlow hfresh.above, hfresh.below⟩
  have hstart : StoredInv i va (s.proc i) (s, fun _ => 0) := by
    refine ⟨hinv, SameImage.refl _, hl, hinv.pageInv hi hl, saved, hkept, ?_, ?_, fun _ _ _ _ => rfl, hfresh.lazy⟩
    · intro pte hpte
      rw [hfresh.unmapped] at hpte
      cases hpte
    · exact fun _ hs => absurd hs hfresh.unswapped
  have hend : StoredInv i va (s.proc i) (t, last) := hr.invariant _ (fun _ _ _ hx hs => StoredInv.step hx hi hal hu hs) hstart
  intro k hk
  exact hend.keeps.view (hheap.congr hend.image) hkilled hroom hk

/-! ## A page that is lost -/

/-- What a process does to its own memory, with the record. -/
theorem record_run {G : Sys → Action → Prop} {R : Sys × Page → Action → Sys × Page → Prop} {as : List Action} (i va : Nat)
    (hR : ∀ s a t last, G s a → Step s a t → R (s, last) a (t, a.stores i va last)) (h : Run (Guarded G Step) s as t) (last : Page) :
    Run R (s, last) as (t, as.foldl (fun last a => a.stores i va last) last) := by
  induction h with
  | nil => exact Run.nil _
  | snoc _ hs ih =>
    rw [List.foldl_append]
    exact ih.snoc (hR _ _ _ _ hs.1 hs.2)

/-- An action of process `i` that does not evict page `va` as clean, nor evicts at all for a fault. -/
def Action.spares (i va : Nat) (s : Sys) (a : Action) : Bool :=
  a.ownMemory i &&
    match a with
    | .evict _ => ((victimIdx (s.proc i).pages).bind (fun j => (s.proc i).pages[j]?)).all (fun e => e.va ≠ va ∨ e.isDirty)
    | .fault _ _ _ => s.m.freelist ≠ []
    | _ => true

theorem Action.spares_sound (h : a.spares i va s = true) : a.ownMemory i = true ∧ ¬a.discards i va s := by
  obtain ⟨hown, h⟩ := Bool.and_eq_true_iff.mp h
  refine ⟨hown, ?_⟩
  cases a with
  | fault j b access =>
    rintro ⟨-, hev, -⟩
    exact of_decide_eq_true h hev.full
  | evict j =>
    rintro ⟨-, l, e, pte, hv, hea, hclean⟩
    change Option.all _ _ = true at h
    rw [hv.idx, Option.bind_some, hv.entry] at h
    simp [hea, hclean] at h
  | _ => exact id

theorem pagingStep_own (hown : a.ownMemory i = true) (hs : Step s a t) (last : Page) :
    PagingStep i va (s, last) a (t, a.stores i va last) :=
  ⟨hs, ⟨i, hown, fun hne => absurd rfl hne⟩, rfl⟩

/-- Lazy growth of the first process by a page, right after boot. -/
theorem grown_first {m : Machine} {p : Proc} {r : Bool}
    (h : sysSbrk (smallBoot smallFiles 32).m ((smallBoot smallFiles 32).proc 0) (wrap32 4096) false = .ok (m, p, r)) :
    OwnSwapRun 0 (smallBoot smallFiles 32, fun _ => none) [.sbrk 0 4096 false] ((smallBoot smallFiles 32).put 0 m p, fun _ => none) := by
  have hgrow : SysStep (smallBoot smallFiles 32) (.sbrk 0 4096 false) ((smallBoot smallFiles 32).put 0 m p) :=
    .sbrk (by decide) smallBoot_live h
  refine Run.single ⟨?_, hgrow.swapStep _⟩
  rintro ⟨hneg, -⟩
  exact absurd hneg (by decide)

/-- The page it adds is fresh; what it then holds after it was swapped out and in again, and after another eviction. -/
theorem grown_heap : ∃ s : Sys, OwnSwapRun 0 (smallBoot smallFiles 32, fun _ => none) [.sbrk 0 4096 false] (s, fun _ => none) ∧
    (s.proc 0).live ∧ FreshHeap 16384 (s.proc 0) ∧
    (replayIf (Action.spares 0 16384) s (swapHeap ++ [.fault 0 16384 .read])).any (fun t =>
      (t.proc 0).killed = false ∧ entryOf (t.proc 0) 16384 ≠ none) = true ∧
    (replayIf (fun _ a => a.ownMemory 0) s (swapHeap ++ [.fault 0 16384 .read, .evict 0])).any (fun t =>
      (t.proc 0).killed = false ∧ entryOf (t.proc 0) 16384 ≠ none ∧ view t.m (t.proc 0) 16384 = some 0) = true := by
  have hex : (sysSbrk (smallBoot smallFiles 32).m ((smallBoot smallFiles 32).proc 0) (wrap32 4096) false).toOption.any (fun r =>
      let s := (smallBoot smallFiles 32).put 0 r.1 r.2.1
      let p := s.proc 0
      (p.live ∧ p.stackTop ≤ 16384 ∧ 16384 < p.sz ∧ ¬inExec p 16384 ∧ (p.pagetable.leaf 4).isNone ∧
        (∀ e ∈ p.pages, e.state ≠ .swapped)) ∧
      (replayIf (Action.spares 0 16384) s (swapHeap ++ [.fault 0 16384 .read])).any (fun t =>
        (t.proc 0).killed = false ∧ entryOf (t.proc 0) 16384 ≠ none) = true ∧
      (replayIf (fun _ a => a.ownMemory 0) s (swapHeap ++ [.fault 0 16384 .read, .evict 0])).any (fun t =>
        (t.proc 0).killed = false ∧ entryOf (t.proc 0) 16384 ≠ none ∧ view t.m (t.proc 0) 16384 = some 0) = true) = true := by
    decide +kernel
  obtain ⟨⟨m, p, r⟩, hsbrk, hx⟩ := ok_of_any hex
  obtain ⟨⟨hlive, habove, hbelow, hlazy, hleaf, hno⟩, hspared, hlost⟩ := of_decide_eq_true hx
  refine ⟨_, grown_first hsbrk, hlive, ⟨by decide, habove, hbelow, by decide, hlazy, ?_, ?_⟩, hspared, hlost⟩
  · exact Option.isNone_iff_eq_none.mp hleaf
  · rintro ⟨e, he, -, hst⟩
    exact hno e he hst

theorem stored_is_loaded_heap : ∃ s t as last, Run (SparingStep 0 16384) (s, fun _ => 0) as (t, last) ∧ last 0 = 7 ∧
    ∀ k < 4096, view t.m (t.proc 0) (16384 + k) = some (last k) := by
  obtain ⟨s, hgrow, hl, hfresh, hspared, -⟩ := grown_heap
  obtain ⟨t, ht, hx⟩ := (Option.any_eq_true _ _).mp hspared
  obtain ⟨hkilled, hentry⟩ := of_decide_eq_true hx
  have hspares : ∀ s a t last, (Action.ownMemory 0 a = true ∧ ¬a.discards 0 16384 s) → Step s a t →
      SparingStep 0 16384 (s, last) a (t, a.stores 0 16384 last) :=
    fun s a t last ha hs => ⟨fun hd => absurd hd ha.2, pagingStep_own ha.1 hs last⟩
  have hrun := record_run 0 16384 hspares (replayIf_run (fun s a h => Action.spares_sound h) ht) (fun _ => 0)
  refine ⟨s, t, _, _, hrun, by decide, ?_⟩
  exact stored_is_loaded smallBoot_init hgrow (by decide) hl hfresh hrun hkilled (fun hn => absurd hn hentry)

/-- A page that is stored to, swapped out, swapped in and evicted once more is lost. -/
theorem stored_is_lost : ¬∀ s₀ s t i va evs saved as last, Boot s₀ → OwnSwapRun i (s₀, fun _ => none) evs (s, saved) → i < nProc →
    (s.proc i).live → FreshHeap va (s.proc i) → Run (PagingStep i va) (s, fun _ => 0) as (t, last) → (t.proc i).killed = false →
    (entryOf (t.proc i) va = none → (t.proc i).pages.length < maxPages) → ∀ k < 4096, view t.m (t.proc i) (va + k) = some (last k) := by
  intro hall
  obtain ⟨s, hgrow, hl, hfresh, -, hlost⟩ := grown_heap
  obtain ⟨t, ht, hx⟩ := (Option.any_eq_true _ _).mp hlost
  obtain ⟨hkilled, hentry, hview⟩ := of_decide_eq_true hx
  have hpages : ∀ s a t last, Action.ownMemory 0 a = true → Step s a t → PagingStep 0 16384 (s, last) a (t, a.stores 0 16384 last) :=
    fun s a t last ha hs => pagingStep_own ha hs last
  have hrun := record_run 0 16384 hpages (replayIf_run (fun _ _ h => h) ht) (fun _ => 0)
  have hzero := hall _ _ _ _ _ _ _ _ _ smallBoot_init hgrow (by decide) hl hfresh hrun hkilled (fun hn => absurd hn hentry) 0 (by decide)
  rw [Nat.add_zero, hview] at hzero
  exact absurd hzero (by decide)

end Xv6SnifferBakery.Kernel
