import Xv6SnifferBakery.Lemmas.Kept
import Xv6SnifferBakery.Lemmas.Replay
import Xv6SnifferBakery.Lemmas.SwapSlots
import Xv6SnifferBakery.Lemmas.View

/-!
# The swap round trip

A page that is swapped out and later swapped in gets the bytes it had, as long as nobody else touches the swap file: slots in use lie
within the file, and no other page is written over them.
-/

namespace Xv6SnifferBakery.Kernel

open Lib

variable {s t : Sys} {i : Nat} {saved : Nat → Option Page} {ev : Event} {m m' : Machine} {p p' : Proc}

/-! ## Runs in which nobody else touches the swap file -/

/-- What is saved of the pages of process `i` after an event. -/
def Event.saves (i : Nat) (s : Sys) (ev : Event) (saved : Nat → Option Page) : Nat → Option Page :=
  match ev with
  | .page k ev => if k = i then ev.saves s.m (s.proc i) saved else saved
  | _ => saved

/-- The events that can change a file: those of other processes' pages, and the calls that use files. -/
def Event.touchesFiles (i : Nat) : Event → Prop
  | .page k _ => k ≠ i
  | .files _ | .exec _ _ | .exit _ => True
  | _ => False

/-- An event leaves the swap file of process `i` alone, unless it is a page event of the process itself. -/
def LeavesSwapFile (i : Nat) (s : Sys) (ev : Event) (t : Sys) : Prop :=
  ev.touchesFiles i → ∀ f, (s.proc i).swapFile = some f → (s.m.fs.openInode f).SameBytes (t.m.fs.openInode f)

/-- One event, with what is saved of the pages of process `i` beside it; nobody else touches its swap file. -/
def SwapStep (i : Nat) (x : Sys × (Nat → Option Page)) (ev : Event) (y : Sys × (Nat → Option Page)) : Prop :=
  SysStep x.1 ev y.1 ∧ LeavesSwapFile i x.1 ev y.1 ∧ y.2 = ev.saves i x.1 x.2

theorem SwapStep.run {x y : Sys × (Nat → Option Page)} {evs : List Event} (h : Run (SwapStep i) x evs y) : Run SysStep x.1 evs y.1 := by
  induction h with
  | nil => exact Run.nil _
  | snoc _ hs ih => exact ih.snoc hs.1

/-! ## The invariant over runs -/

/-- What an event that is no page event of process `i` leaves of it: a new process, or the swap slots it had. -/
inductive SlotsAfter (s : Sys) (i : Nat) (p : Proc) : Prop where
  | born (bits : ∀ k, p.swapBitmap k = false) (pages : ∃ j, (s.proc j).live ∧ p.pages = (s.proc j).pages.map forkPage)
  | same (live : (s.proc i).live) (bits : p.swapBitmap = (s.proc i).swapBitmap) (file : p.swapFile = (s.proc i).swapFile)
      (killed : (s.proc i).killed = true → p.killed = true)
      (pages : p.pages = (s.proc i).pages ∨ ∃ e, p.pages = [e] ∧ e.state = .resident)

theorem SysStep.slotsAfter (h : SysStep s ev t) (hne : ∀ pev, ev ≠ .page i pev) (hl : (t.proc i).live) : SlotsAfter s i (t.proc i) := by
  cases h.slot hl with
  | same live tf ofile cwd parent killed state dead hp =>
    rw [hp]
    exact .same live rfl rfl dead (Or.inl rfl)
  | page he => exact absurd he (hne _)
  | sbrk _ live hc =>
    rw [(sysSbrk_env hc).2]
    exact .same live rfl rfl id (Or.inl rfl)
  | exec _ live args hc =>
    rcases kexec_cases args hc with ⟨-, hfail, -⟩ | ⟨argc, fs₀, fs, ip, mem, pt, sp, -, hp, -⟩
    · generalize t.proc i = q at hfail
      cases hfail <;> exact .same live rfl rfl id (Or.inl rfl)
    · rw [hp, commit_eq]
      exact .same live rfl rfl id (Or.inr ⟨_, rfl, rfl⟩)
  | fork _ live _ hc =>
    generalize t.proc i = q at hc
    cases hc with
    | mk => exact .born (fun _ => rfl) ⟨_, live, rfl⟩

/-- An event that neither touches files nor is a page event of the process changes no file. -/
theorem SysStep.sameFiles (h : SysStep s ev t) (hne : ∀ pev, ev ≠ .page i pev) (hno : ¬ev.touchesFiles i) : SameFiles s.m.fs t.m.fs := by
  cases h with
  | page =>
    rename_i k pev _ _ _ _ _
    have hk : k = i := not_not.mp hno
    exact absurd (hk ▸ rfl) (hne pev)
  | lock | unlock | setSp => exact .of_eq rfl
  | sbrk _ _ h => exact .of_eq (sysSbrk_env h).1.fs
  | fork _ _ h => exact (kfork_slot h).1
  | exec | exit | files => exact absurd trivial hno
  | reap _ _ _ _ h => exact .of_eq (freeproc_env h).1.fs
  | kill pid =>
    unfold kkill
    split <;> exact .of_eq rfl
  | kalloc h => exact .of_eq (kalloc_env h).fs
  | kfree _ h => exact .of_eq (kfree_env h).fs

/-- The swap file of the process keeps its bytes in every other event. -/
theorem LeavesSwapFile.bytes (h : LeavesSwapFile i s ev t) (hs : SysStep s ev t) (hne : ∀ pev, ev ≠ .page i pev) {f : Nat}
    (hf : (s.proc i).swapFile = some f) : (s.m.fs.openInode f).SameBytes (t.m.fs.openInode f) := by
  by_cases hto : ev.touchesFiles i
  · exact h hto f hf
  · have hfiles := hs.sameFiles hne hto
    rw [Fs.openInode, Fs.openInode, hfiles.inode, hfiles.ip]
    exact .refl _

/-- The first process has no page swapped out. -/
theorem Boot.swapKept (hb : Boot s) (hl : (s.proc i).live) : SwapKept saved s.m (s.proc i) := by
  obtain ⟨q, path, st, entry, pt, sp, hp, hbits, -⟩ := hb.image hl.ne_unused
  refine .empty ?_ (hb.fifo i hl.ne_unused).addrs ?_
  · intro k
    rw [hp, commit_eq]
    exact congrFun hbits k
  · intro e he
    rw [hp, commit_eq] at he
    rw [List.mem_singleton.mp he]
    nofun

/-- What another event leaves of the slots is in order. -/
theorem SlotsAfter.swapKept (h : SlotsAfter s i p) (hkept : (s.proc i).live → SwapKept saved s.m (s.proc i))
    (haddrs : ∀ j, (s.proc j).live → ((s.proc j).pages.map PageInfo.va).Nodup)
    (hbytes : ∀ f, (s.proc i).swapFile = some f → (s.m.fs.openInode f).SameBytes (m'.fs.openInode f)) : SwapKept saved m' p := by
  cases h with
  | born hbits hpages =>
    obtain ⟨j, hj, hpages⟩ := hpages
    refine .empty hbits ?_ ?_
    · rw [hpages, List.map_map]
      exact haddrs j hj
    · intro e he hst
      rw [hpages] at he
      obtain ⟨x, -, rfl⟩ := List.mem_map.mp he
      unfold forkPage at hst
      dsimp only at hst
      split at hst
      · nomatch hst
      · rename_i hne
        exact hne hst
  | same hl hbits hfile hkill hpages =>
    have hk := hkept hl
    have hkeep : KeepsSlots s.m (s.proc i) m' p := by
      intro f hf
      obtain ⟨hdata, hsize⟩ := hbytes f hf
      refine ⟨hfile.trans hf, by rw [hsize], ?_⟩
      intro k l _ _
      rw [hdata]
    rcases hpages with hpages | ⟨e, hpages, hres⟩
    · refine hk.frame hkeep hbits hkill (hpages ▸ hk.addrs) ?_
      intro j x hx hst
      exact ⟨x, hpages ▸ hx, hst, rfl, rfl⟩
    · refine hk.frame hkeep hbits hkill ?_ ?_
      · rw [hpages]
        exact List.nodup_singleton _
      · intro j x hx hst
        rw [hpages] at hx
        rw [List.mem_singleton.mp (List.mem_of_getElem? hx), hres] at hst
        nomatch hst

/-- In every run in which nobody else touches the swap file of a process, its slots are in order. -/
theorem SwapStep.swapKept {x : Sys × (Nat → Option Page)} {evs : List Event} (hb : Boot s)
    (hr : Run (SwapStep i) (s, saved) evs x) (hl : (x.1.proc i).live) : SwapKept x.2 x.1.m (x.1.proc i) := by
  induction hr with
  | nil => exact hb.swapKept hl
  | snoc hr hs ih =>
    rename_i y z evs ev
    obtain ⟨hstep, hleaves, hsaved⟩ := hs
    by_cases hpage : ∃ pev, ev = .page i pev
    · -- a page event of the process itself
      obtain ⟨pev, rfl⟩ := hpage
      rw [hsaved]
      change SwapKept (if i = i then pev.saves y.1.m (y.1.proc i) y.2 else y.2) z.1.m (z.1.proc i)
      rw [if_pos rfl]
      generalize z.1 = u at hstep
      cases hstep with
      | page lt live h =>
        rw [Sys.put_proc_self]
        exact h.swapKept (ih live)
    · have hne : ∀ pev, ev ≠ .page i pev := fun pev hpev => hpage ⟨pev, hpev⟩
      have hsame : ev.saves i y.1 y.2 = y.2 := by
        cases ev with
        | page k pev =>
          refine if_neg ?_
          rintro rfl
          exact hne pev rfl
        | _ => rfl
      rw [hsaved, hsame]
      obtain ⟨H, hH⟩ := exists_history (bootHistory s) (SwapStep.run hr)
      have hfifo := history_fifo hb hH
      exact (hstep.slotsAfter hne hl).swapKept ih (fun j hj => (hfifo j hj.ne_unused).addrs) (fun f hf => hleaves.bytes hstep hne hf)

/-! ## The round trip -/

/-- What the swap slots are good for, in a state of a process whose pages were last swapped out as `saved` says. -/
structure SwapRoundTrip (saved : Nat → Option Page) (m : Machine) (p : Proc) : Prop where
  within : ∀ k, p.swapBitmap k = true → ∃ f, p.swapFile = some f ∧ k * 4096 + 4096 ≤ (m.fs.openInode f).size
  accepted : ∀ slot f m₁, firstClear p.swapBitmap 0 maxSwapSlots = some slot → OpenSwap m p m₁ f →
    slotOff slot ≤ (m₁.fs.openInode f).size
  readable : ∀ e ∈ p.pages, e.state = .swapped → (e.swapSlot = -1 ∧ p.killed = true) ∨
    ∃ f, p.swapFile = some f ∧ readi (m.fs.openInode f) (slotOff e.swapSlot) pgSize = pgSize
  returned : ∀ j va e m₁ mem m₂ p₂ page pt m' p', p.pages[j]? = some e → e.va = va → e.state = .swapped →
    Load m p j va .swap m₁ mem m₂ p₂ page pt m' p' → ∃ out, saved va = some out ∧ (∀ k < 4096, page k = out k) ∧
      (m.freelist.Nodup → ∃ pte, p'.pagetable.leaf (va / 4096) = some pte ∧ ∀ k < 4096, m'.mem pte.pa k = out k)

theorem readi_slot {ip : Inode} {slot : Nat} (hlt : slot < maxSwapSlots) (hle : slot * 4096 + 4096 ≤ ip.size) :
    readi ip (slotOff slot) pgSize = pgSize := by
  have h1024 : slot < 1024 := hlt
  rw [slotOff_natCast hlt]
  unfold readi pgSize
  rw [if_neg (by omega), if_neg (by omega)]

/-- A slot that was given up cannot be read. -/
theorem readi_given_up (ip : Inode) : readi ip (slotOff (-1)) pgSize = 0 := by
  have hoff : slotOff (-1) = 4294963200 := rfl
  rw [hoff]
  exact if_pos (Or.inr (by decide))

/-- Slots that are in order return every page as it was. -/
theorem SwapKept.roundTrip (h : SwapKept saved m p) : SwapRoundTrip saved m p := by
  refine ⟨fun k hk => (h.used k hk).2, ?_, ?_, ?_⟩
  · intro slot f m₁ hclear hopen
    rw [slotOff_natCast (by have := (firstClear_some hclear).2.2; omega)]
    rcases hopen with ⟨hf, rfl⟩ | ⟨hnone, -⟩
    · exact h.first hclear hf
    · -- no slot is in use yet, so it is the first
      have hzero : slot = 0 := by
        by_contra hne
        have hset := firstClear_least hclear (Nat.zero_le 0) (Nat.pos_of_ne_zero hne)
        rw [h.unused hnone] at hset
        cases hset
      rw [hzero, Nat.zero_mul]
      exact Nat.zero_le _
  · intro e he hst
    rcases h.swapped e he hst with hneg | ⟨s, hs, hb, -⟩
    · exact Or.inl hneg
    · obtain ⟨hlt, f, hf, hle⟩ := h.used s hb
      exact Or.inr ⟨f, hf, by rw [hs]; exact readi_slot hlt hle⟩
  · intro j va e m₁ mem m₂ p₂ page pt m' p' he hva hst hx
    obtain ⟨hleaf, -⟩ := hx.leaf
    have hmem := hx.mem
    have hfetched := hx.fetched
    have henv := kalloc_env hx.alloc
    cases hfetched with
    | swap hf he' hl hread =>
      rename_i f e' fs
      obtain rfl := Option.some.inj (he.symm.trans he')
      obtain ⟨-, hino, -, -⟩ := ilock_ok hl
      have hopen : fs.inode (m₁.fs.ftable f).ip = m.fs.openInode f := by rw [hino, henv.fs, Fs.openInode]
      rcases h.swapped e (List.mem_of_getElem? he) hst with ⟨hneg, -⟩ | ⟨s, hs, hb, g, out, hg, hsaved, hdata⟩
      · rw [hneg, readi_given_up] at hread
        cases hread
      · obtain rfl := Option.some.inj (hf.symm.trans hg)
        obtain ⟨hlt, -⟩ := h.used s hb
        have hpage : ∀ k < 4096, (fs.inode (m₁.fs.ftable f).ip).data (slotOff e.swapSlot + k) = out k := by
          intro k hk
          rw [hopen, hs, slotOff_natCast hlt, hdata k hk]
        refine ⟨out, hva ▸ hsaved, hpage, ?_⟩
        intro hnodup
        refine ⟨⟨mem, trackPerm⟩, ?_, ?_⟩
        · rw [hleaf, Function.update_self]
          rfl
        · intro k hk
          rw [hmem.contents hnodup]
          exact hpage k hk

/-- Page events of the process itself are such events. -/
theorem swapStep_follows (i : Nat) (q : Proc) : Follows (SwapStep i) i q :=
  fun _ _ _ _ _ hs => ⟨_, hs, fun hto => absurd rfl hto, rfl⟩

/-- In every run from boot in which nobody but process `i` touches its swap file: in every state between two events in which the
process exists, each slot in use lies within the swap file, no swap-out starts beyond its end, no swap-in is short, and a page that
is swapped in gets the bytes it had when it was swapped out. -/
theorem swap_round_trip {s t : Sys} {i : Nat} {evs : List Event} {saved : Nat → Option Page} (hb : Boot s)
    (hr : Run (SwapStep i) (s, fun _ => none) evs (t, saved)) (hl : (t.proc i).live) : SwapRoundTrip saved t.m (t.proc i) :=
  (SwapStep.swapKept hb hr hl).roundTrip

theorem SysStep.swapStep {n : Int} {eager : Bool} {k : Nat} (h : SysStep s (.sbrk k n eager) t) (saved : Nat → Option Page) :
    SwapStep i (s, saved) (.sbrk k n eager) (t, saved) :=
  ⟨h, fun hto => hto.elim, rfl⟩

/-- A heap page is written to, and swapped out after the stack page was discarded. -/
def swapHeap : List Action := [.fault 0 16384 .read, .fault 0 16384 .write, .store 0 16384 7, .evict 0, .evict 0]

theorem swap_round_trip_heap : ∃ t evs saved, Run (SwapStep 0) (smallBoot smallFiles 32, fun _ => none) evs (t, saved) ∧
    (t.proc 0).swapBitmap 0 = true ∧ SwapRoundTrip saved t.m (t.proc 0) := by
  have hex : (sysSbrk (smallBoot smallFiles 32).m ((smallBoot smallFiles 32).proc 0) (wrap32 4096) false).toOption.any (fun r =>
      (replay ((smallBoot smallFiles 32).put 0 r.1 r.2.1) swapHeap).any (fun t =>
        (t.proc 0).swapBitmap 0 && decide (t.proc 0).live)) = true := by decide +kernel
  obtain ⟨⟨m, p, r⟩, hsbrk, hx⟩ := ok_of_any hex
  obtain ⟨t, ht, hx⟩ := (Option.any_eq_true _ _).mp hx
  simp only [Bool.and_eq_true, decide_eq_true_eq] at hx
  have hgrow : SysStep (smallBoot smallFiles 32) (.sbrk 0 4096 false) ((smallBoot smallFiles 32).put 0 m p) :=
    .sbrk (by decide) smallBoot_live hsbrk
  obtain ⟨evs, saved, hrun⟩ := replay_follow (swapStep_follows 0 _) (SameImage.refl _) rfl ht (fun _ => none)
  have hrun := (Run.single (hgrow.swapStep _)).append hrun
  exact ⟨t, _, saved, hrun, hx.1, swap_round_trip smallBoot_init hrun hx.2⟩

end Xv6SnifferBakery.Kernel
