import Mathlib.Algebra.Order.BigOperators.Group.Finset
import Xv6SnifferBakery.Lemmas.System

/-!
# Conservation of pages

The ledger of physical memory: the free list, the pages the kernel holds, and what each process owns. Every event keeps the ledger
in balance, except a shrink that reaches the trapframe page.
-/

namespace Xv6SnifferBakery.Kernel

open Lib

/-! ## The ledger -/

/-- Every place a page can be in, with how often it is there. -/
def Sys.total (s : Sys) : Multiset Pa := free s.m + (s.held : Multiset Pa) + ∑ i ∈ Finset.range nProc, (s.proc i).owned

/-- Every page the allocator manages is in exactly one place, and nothing else is in any. -/
def Conserved (s : Sys) : Prop := s.total = (managed s.m.kend : Multiset Pa)

/-- The invariant of the system: the ledger balances, and every slot of the process table is in order. -/
structure SysInv (s : Sys) : Prop where
  pages : Conserved s
  slots : ∀ i < nProc, SlotOk (s.proc i)

theorem managed_nodup (kend : Pa) : (managed kend).Nodup := by
  refine List.Nodup.map (fun a b h => ?_) List.nodup_range
  have h : pgRoundUp kend + a * 4096 = pgRoundUp kend + b * 4096 := h
  exact Nat.eq_of_mul_eq_mul_right (by decide) (Nat.add_left_cancel h)

theorem Conserved.nodup {s : Sys} (h : Conserved s) : s.total.Nodup := by
  rw [show s.total = _ from h, Multiset.coe_nodup]
  exact managed_nodup _

section Ledger

variable {s t : Sys} {i j : Nat} {m : Machine} {p : Proc}

/-- Replacing one process replaces what it owns. -/
theorem sum_owned_update (hi : i < nProc) :
    ∑ j ∈ Finset.range nProc, (Function.update s.proc i p j).owned + (s.proc i).owned =
      ∑ j ∈ Finset.range nProc, (s.proc j).owned + p.owned :=
  sum_update (fun q => Proc.owned q) s.proc i p hi

/-- A step of one process that moves its pages only to and from the free list keeps the ledger. -/
theorem total_put (hi : i < nProc) (h : Flows s.m (s.proc i).owned m p.owned) : (s.put i m p).total = s.total := by
  have hsum := sum_owned_update (s := s) (p := p) hi
  have hfree := h.pages
  refine add_right_cancel (b := (s.proc i).owned) ?_
  calc (s.put i m p).total + (s.proc i).owned
      = free m + (s.held : Multiset Pa) + (∑ j ∈ Finset.range nProc, (Function.update s.proc i p j).owned + (s.proc i).owned) := by
        rw [Sys.total, add_assoc]
        rfl
    _ = (free m + p.owned) + ((s.held : Multiset Pa) + ∑ j ∈ Finset.range nProc, (s.proc j).owned) := by
        rw [hsum]
        abel
    _ = s.total + (s.proc i).owned := by
        rw [hfree, Sys.total]
        abel

/-- A slot stays in order under `put` when the process put there is. -/
theorem slots_put (hs : ∀ k < nProc, SlotOk (s.proc k)) (hp : SlotOk p) : ∀ k < nProc, SlotOk ((s.put i m p).proc k) := by
  intro k hk
  by_cases hki : k = i
  · rw [hki, Sys.put_proc_self]
    exact hp
  · rw [Sys.put_proc_of_ne _ _ _ hki]
    exact hs k hk

/-- The invariant after a step of one process. -/
theorem SysInv.put (hs : SysInv s) (hi : i < nProc) (h : Flows s.m (s.proc i).owned m p.owned) (hp : SlotOk p) :
    SysInv (s.put i m p) := by
  refine ⟨?_, slots_put hs.slots hp⟩
  rw [Conserved, total_put hi h, Sys.put_m, h.kend]
  exact hs.pages

theorem SysInv.wf (hs : SysInv s) (hi : i < nProc) (hl : (s.proc i).live) : (s.proc i).Wf :=
  (hs.slots i hi).wf hl.ne_unused

/-- The free list and what one process owns are part of the ledger. -/
theorem Sys.owned_le (hi : i < nProc) : free s.m + (s.proc i).owned ≤ s.total := by
  rw [Sys.total, add_assoc]
  refine add_le_add_right (le_trans ?_ (Multiset.le_add_left _ _)) (free s.m)
  exact Finset.single_le_sum (f := fun j => (s.proc j).owned) (fun _ _ => Multiset.zero_le _) (Finset.mem_range.mpr hi)

/-- What a process owns is neither free nor owned twice. -/
theorem SysInv.nodup (hs : SysInv s) (hi : i < nProc) : (free s.m + (s.proc i).owned).Nodup :=
  Multiset.nodup_of_le (Sys.owned_le hi) hs.pages.nodup

theorem SysInv.pageInv (hs : SysInv s) (hi : i < nProc) (hl : (s.proc i).live) : PageInv s.m (s.proc i) :=
  ⟨hs.wf hi hl, hs.nodup hi⟩

/-- What a process owns is neither free nor another's. -/
theorem SysInv.apart {q : Pa} (hs : SysInv s) (hi : i < nProc) (hj : j < nProc) (hne : i ≠ j) (hq : q ∈ (s.proc i).owned) :
    q ∉ free s.m + (s.proc j).owned := by
  have hle : (free s.m + (s.proc j).owned) + (s.proc i).owned ≤ s.total := by
    rw [Sys.total, add_assoc, add_assoc]
    refine add_le_add_right (le_trans ?_ (Multiset.le_add_left _ _)) (free s.m)
    rw [← Finset.add_sum_erase _ _ (Finset.mem_range.mpr hj)]
    refine add_le_add_right ?_ (s.proc j).owned
    exact Finset.single_le_sum (f := fun j => (s.proc j).owned) (fun _ _ => Multiset.zero_le _)
      (Finset.mem_erase.mpr ⟨hne, Finset.mem_range.mpr hi⟩)
  have hn := Multiset.nodup_of_le hle hs.pages.nodup
  exact fun hin => Multiset.disjoint_left.mp (Multiset.nodup_add.mp hn).2.2 hin hq

/-- Nor is it held by the kernel. -/
theorem SysInv.not_held {q : Pa} (hs : SysInv s) (hi : i < nProc) (hq : q ∈ (s.proc i).owned) : q ∉ free s.m + (s.held : Multiset Pa) := by
  have hle : (free s.m + (s.held : Multiset Pa)) + (s.proc i).owned ≤ s.total := by
    rw [Sys.total]
    refine add_le_add_right ?_ _
    exact Finset.single_le_sum (f := fun j => (s.proc j).owned) (fun _ _ => Multiset.zero_le _) (Finset.mem_range.mpr hi)
  have hn := Multiset.nodup_of_le hle hs.pages.nodup
  exact fun hin => Multiset.disjoint_left.mp (Multiset.nodup_add.mp hn).2.2 hin hq

end Ledger

/-! ## Slots after a call -/

section Slots

variable {m m' : Machine} {p p' : Proc}

/-- The fields that say whether a slot is in order. -/
theorem SlotOk.congr (h : SlotOk p) (hpt : p'.pagetable = p.pagetable) (htf : p'.trapframe = p.trapframe)
    (hst : p'.stackTop = p.stackTop) (hpages : p'.pages = p.pages) (hempty : p.state = .unused → p'.state = .unused)
    (hlive : p.live → p'.live ∨ p'.state = .zombie) (hz : p.state = .zombie → p'.state = .zombie) : SlotOk p' := by
  rcases h with he | ⟨hw, hl⟩
  · exact Or.inl ⟨hempty he.state, htf.trans he.trapframe, hpt.trans he.pagetable⟩
  · exact Or.inr ⟨hw.of_fields hpt htf hst hpages, hl.elim hlive (fun h => Or.inr (hz h))⟩

/-- A failed `exec` leaves the process well formed. -/
theorem ExecFail.slot {path : List Char} (h : ExecFail m p path p') : p'.pagetable = p.pagetable ∧ p'.trapframe = p.trapframe ∧
    p'.stackTop = p.stackTop ∧ p'.pages = p.pages ∧ p'.state = p.state := by
  cases h <;> exact ⟨rfl, rfl, rfl, rfl, rfl⟩

/-- The image `exec` makes is well formed: its table was made for the trapframe of the process, and its stack page is tracked. -/
theorem ExecDone.wf {path : List Char} {fs₀ fs : Fs} {ip sp : Nat} {mem : Pa} {pt : PageTable} (htf : p.trapframe.isSome)
    (h : ExecDone m p path m' p' fs₀ fs ip mem pt sp) : p'.Wf ∧ p'.state = p.state := by
  have hT := h.table
  obtain ⟨tf, htf⟩ := Option.isSome_iff_exists.mp htf
  have hp := h.proc
  rw [commit_eq] at hp
  subst hp
  refine ⟨⟨⟨hT.root, ⟨_, hT.trampoline, rfl⟩, ⟨_, hT.trapframe, rfl, ?_⟩⟩, hT.top, ?_⟩, rfl⟩
  · change p.trapframe = some (p.trapframe.getD 0)
    rw [htf]
    rfl
  · intro va hva
    obtain ⟨h1, h2, h3⟩ := hT.top
    have htop := trapframeVa_eq
    simp only [List.map_cons, List.map_nil, List.mem_singleton] at hva
    rw [hva]
    refine ⟨?_, pgRoundDown_mod _⟩
    rw [pgRoundDown_div, show pgSize = 4096 from rfl, sub64_of_le (by omega) (by have := userPages_eq; omega)]
    omega

/-- A resized process is well formed, when the top of its table stays. -/
theorem Proc.Wf.resize {pt : PageTable} {sz : Nat} (h : p.Wf) (hroot : pt.root = p.pagetable.root)
    (htop : ∀ v, userPages ≤ v → pt.leaf v = p.pagetable.leaf v) : ({ p with pagetable := pt, sz := sz } : Proc).Wf := by
  refine ⟨⟨hroot ▸ h.root, ?_, ?_⟩, h.stack, h.tracked⟩
  · change ∃ pte, pt.leaf (userPages + 1) = some pte ∧ _
    rw [htop _ (by omega)]
    exact h.trampoline
  · change ∃ pte, pt.leaf userPages = some pte ∧ _
    rw [htop _ (le_refl _)]
    exact h.trapframe

/-- A change of size moves pages only between the process and the free list, as long as the trapframe page stays. -/
theorem SbrkSpec.flows {n : Int} {eager : Bool} (hwf : p.Wf) (hsafe : ¬shrinksPastTrapframe p n) (h : SbrkSpec m p n eager m' p') :
    Flows m p.owned m' p'.owned ∧ p'.Wf ∧ p'.state = p.state := by
  cases h with
  | same => exact ⟨Flows.refl _ _, hwf, rfl⟩
  | lazy sz => exact ⟨Flows.refl _ _, hwf.resize rfl (fun _ _ => rfl), rfl⟩
  | grow _ hg _ =>
    refine ⟨(hg.moves.flows.frame (slot p.trapframe)).congr (add_comm _ _) (add_comm _ _), hwf.resize hg.root (fun v hv => ?_), rfl⟩
    exact hg.outside v (fun hin => by have := (hg.inside v hin.1 hin.2).1; omega)
  | shrink hreq hu =>
    refine ⟨(hu.moves.flows.frame (slot p.trapframe)).congr (add_comm _ _) (add_comm _ _), hwf.resize hu.root (fun v hv => ?_), rfl⟩
    refine hu.kept v (fun hs => hsafe ⟨hreq.1, hreq.2, ?_, ?_⟩)
    · rw [trapframeVa_eq]
      have := hs.2.1
      omega
    · have := hs.1
      have := hs.2.1
      have h1 := pgRoundUp_mod p.sz
      have h2 := pgRoundUp_mod (addInt p.sz n)
      omega

end Slots

/-! ## Every event keeps the ledger -/

/-- An event that does not shrink a process past its trapframe page. -/
def Event.keepsTrapframe (s : Sys) : Event → Prop
  | .sbrk i n _ => ¬shrinksPastTrapframe (s.proc i) (wrap32 n)
  | _ => True

section Events

variable {s t : Sys}

theorem live_slot {p : Proc} (hwf : p.Wf) (hl : p.live) : SlotOk p := Or.inr ⟨hwf, Or.inl hl⟩

theorem live_congr {p p' : Proc} (h : p'.state = p.state) (hl : p.live) : p'.live := by
  rw [Proc.live, h]
  exact hl

/-- A change of the machine that leaves memory. -/
theorem SysInv.machine {m : Machine} (hs : SysInv s) (hfree : m.freelist = s.m.freelist) (hkend : m.kend = s.m.kend) :
    SysInv { s with m := m } := by
  refine ⟨?_, hs.slots⟩
  have hp := hs.pages
  rw [Conserved, Sys.total, free] at hp ⊢
  rw [hfree, hkend]
  exact hp

/-- A change of slots that leaves what they own. -/
theorem SysInv.procs {f : Nat → Proc} (hs : SysInv s) (howned : ∀ i < nProc, (f i).owned = (s.proc i).owned)
    (hslots : ∀ i < nProc, SlotOk (f i)) : SysInv { s with proc := f } := by
  refine ⟨?_, hslots⟩
  have hp := hs.pages
  rw [Conserved, Sys.total] at hp ⊢
  rwa [Finset.sum_congr rfl (fun i hi => howned i (Finset.mem_range.mp hi))]

/-- A change of one slot that leaves what it owns. -/
theorem SysInv.modProc {i : Nat} {f : Proc → Proc} (hs : SysInv s) (howned : (f (s.proc i)).owned = (s.proc i).owned)
    (hslot : i < nProc → SlotOk (f (s.proc i))) : SysInv (s.modProc i f) := by
  refine hs.procs (fun j _ => ?_) (fun j hj => ?_)
  · by_cases hji : j = i
    · rw [hji, Function.update_self, howned]
    · rw [Function.update_of_ne hji]
  · by_cases hji : j = i
    · rw [hji, Function.update_self]
      exact hslot (hji ▸ hj)
    · rw [Function.update_of_ne hji]
      exact hs.slots j hj

theorem SysInv.nextpid (hs : SysInv s) (n : Int) : SysInv { s with nextpid := n } := ⟨hs.pages, hs.slots⟩

/-- The child of a fork. -/
theorem ForkDone.child {i j : Nat} {m₁ m₂ : Machine} {tf : Pa} {pt pt' : PageTable} {fs : Fs} (hi : (s.proc i).Wf)
    (h : ForkDone s i j t m₁ tf pt m₂ pt' fs) : (((s.proc j).born s.nextpid tf pt).forkFrom (s.proc i) i pt').Wf := by
  have hle := h.copies.le_userPages hi.topped h.fresh.topped
  refine ⟨⟨?_, ⟨⟨s.m.trampoline, ⟨true, false, true, false⟩⟩, ?_, rfl⟩, ⟨⟨tf, ⟨true, true, false, false⟩⟩, ?_, rfl, rfl⟩⟩,
    hi.stack, fun va hva => hi.tracked va ?_⟩
  · change pt'.root.isSome
    rw [h.copies.root]
    exact h.fresh.root
  · exact (h.copies.outside _ (by omega)).trans h.fresh.trampoline
  · exact (h.copies.outside _ hle).trans h.fresh.trapframe
  · change va ∈ ((s.proc i).pages.map forkPage).map PageInfo.va at hva
    rwa [List.map_map] at hva

theorem SysInv.fork {i : Nat} {o : Option Nat} (hs : SysInv s) (hi : (s.proc i).Wf) (h : kfork s i = .ok (t, o)) : SysInv t := by
  rcases kfork_spec hs.slots hi h with ⟨-, rfl | ⟨j, m, p, hj, he, hp, hm, rfl⟩⟩ | ⟨j, m₁, tf, pt, m₂, pt', fs, -, hd⟩
  · exact hs
  · refine (hs.put hj ?_ (Or.inl hp)).nextpid _
    exact hm.flows.congr he.owned.symm hp.owned.symm
  · rw [hd.result]
    have hchild := hd.child hi
    refine (hs.put hd.lt ?_ (live_slot hchild (Or.inr (Or.inl rfl)))).nextpid _
    have hflow := hd.alloc.trans ((hd.copies.moves.frame {tf}).congr (add_comm _ _) (add_comm _ _))
    exact (hflow.flows.trans ((SameMem.withFs m₂ fs).flows _)).congr hd.empty.owned.symm rfl

theorem SysInv.exec {i : Nat} {path : List Char} {argv : List (List Byte)} {m : Machine} {p : Proc} {o : Option Nat} (hs : SysInv s)
    (hi : i < nProc) (hl : (s.proc i).live) (hargs : ArgsOk argv) (h : kexec s.m (s.proc i) path argv = .ok (m, p, o)) :
    SysInv (s.put i m p) := by
  have hwf := hs.wf hi hl
  obtain ⟨hflow, ⟨-, hf⟩ | ⟨argc, fs₀, fs, ip, mem, pt, sp, -, hd⟩⟩ := kexec_spec hwf.toHasTable (Or.inr hwf.stack) hargs h
  · obtain ⟨h1, h2, h3, h4, h5⟩ := hf.slot
    refine hs.put hi hflow ((hs.slots i hi).congr h1 h2 h3 h4 (fun hu => h5.trans hu) (fun hv => ?_) (fun hz => h5.trans hz))
    exact Or.inl (live_congr h5 hv)
  · obtain ⟨pte, -, -, htf⟩ := hwf.trapframe
    obtain ⟨hw, hst⟩ := hd.wf (by rw [htf]; rfl)
    exact hs.put hi hflow (live_slot hw (live_congr hst hl))

theorem SysInv.exit {i : Nat} {status : Int} (hs : SysInv s) (hi : i < nProc) (hl : (s.proc i).live)
    (h : kexit s i status = .ok t) : SysInv t := by
  unfold kexit at h
  split at h
  · nomatch h
  obtain ⟨fs, -, h⟩ := bind_ok h
  obtain rfl := Except.ok.inj h
  have hparent : ∀ j, SlotOk (s.proc j) → SlotOk (reparent i s.proc j) ∧ (reparent i s.proc j).owned = (s.proc j).owned := by
    intro j hj
    unfold reparent
    split
    · exact ⟨hj.congr rfl rfl rfl rfl id Or.inl id, rfl⟩
    · exact ⟨hj, rfl⟩
  have h₁ : SysInv { s with m := (s.m.reach [.beginOp]).withFs fs } := hs.machine rfl rfl
  have h₂ := h₁.procs (fun j hj => (hparent j (hs.slots j hj)).2) (fun j hj => (hparent j (hs.slots j hj)).1)
  refine h₂.modProc rfl (fun _ => ?_)
  have hwf : (reparent i s.proc i).Wf := by
    refine (hparent i (hs.slots i hi)).1.wf ?_
    unfold reparent
    split <;> exact hl.ne_unused
  exact Or.inr ⟨hwf.of_fields rfl rfl rfl rfl, Or.inr rfl⟩

/-- An event that does not shrink past the trapframe page keeps the invariant. -/
theorem SysStep.inv {ev : Event} (hs : SysInv s) (h : SysStep s ev t) (hk : ev.keepsTrapframe s) : SysInv t := by
  cases h with
  | page hi hl h =>
    obtain ⟨hflow, hwf⟩ := h.flows (hs.wf hi hl)
    exact hs.put hi hflow (live_slot hwf (live_congr h.image.state hl))
  | lock => exact hs.machine rfl rfl
  | unlock => exact hs.machine rfl rfl
  | setSp => exact hs.modProc rfl (fun hi => (hs.slots _ hi).congr rfl rfl rfl rfl id Or.inl id)
  | sbrk hi hl h =>
    have hwf := hs.wf hi hl
    obtain ⟨hflow, hwf', hst⟩ := (sysSbrk_spec hwf hk h).flows hwf hk
    exact hs.put hi hflow (live_slot hwf' (live_congr hst hl))
  | fork hi hl h => exact hs.fork (hs.wf hi hl) h
  | exec hi hl hargs h => exact hs.exec hi hl hargs h
  | exit hi hl h => exact hs.exit hi hl h
  | reap hi hl hj hz h =>
    have hwf := (hs.slots _ hj).wf (by rw [hz]; simp)
    obtain ⟨hm, rfl⟩ := freeproc_spec h (Or.inl hwf.root) (Or.inr (hs.wf hi hl).stack)
    exact hs.put hj (hm.flows.congr rfl freed_empty.owned.symm) (Or.inl freed_empty)
  | kill pid =>
    unfold kkill
    split
    · exact hs
    · refine hs.modProc rfl (fun hi => (hs.slots _ hi).congr rfl rfl rfl rfl (fun hu => ?_) (fun hv => Or.inl ?_) (fun hz => ?_))
      · simp [hu]
      · rcases hv with hv | hv | hv <;> simp [Proc.live, hv]
      · simp [hz]
  | files hi hl =>
    refine hs.put hi ((SameMem.io _ _ _).flows _) (live_slot ?_ hl)
    exact (hs.wf hi hl).of_fields rfl rfl rfl rfl
  | kalloc h =>
    refine ⟨?_, hs.slots⟩
    have hp := hs.pages
    have hm := kalloc_moves h
    have hfree : free s.m = free _ + _ := (add_zero _).symm.trans hm.pages.symm
    rw [Conserved, Sys.total] at hp ⊢
    rw [hm.kend, ← hp, hfree, ← Multiset.cons_coe, ← Multiset.singleton_add]
    abel
  | kfree hheld h =>
    refine ⟨?_, hs.slots⟩
    have hp := hs.pages
    have hm := kfree_moves h
    rw [Conserved, Sys.total] at hp ⊢
    rename_i m pa
    have hback : {pa} + (s.held : Multiset Pa).erase pa = s.held := Multiset.cons_erase (Multiset.mem_coe.mpr hheld)
    rw [hm.kend, ← hp, show free m = free s.m + {pa} from (add_zero _).symm.trans hm.pages, ← Multiset.coe_erase, add_assoc (free s.m),
      hback]

/-- A fork writes to free frames only. -/
theorem kfork_mem {i : Nat} {o : Option Nat} {q : Pa} (hs : SysInv s) (hi : (s.proc i).Wf) (h : kfork s i = .ok (t, o))
    (hq : q ∉ free s.m) : t.m.mem q = s.m.mem q := by
  have hq : q ∉ free s.m + 0 := by rwa [add_zero]
  rcases kfork_spec hs.slots hi h with ⟨-, rfl | ⟨j, m, p, -, -, -, hm, rfl⟩⟩ | ⟨j, m₁, tf, pt, m₂, pt', fs, -, hd⟩
  · rfl
  · exact hm.mem q hq
  · rw [hd.result]
    have hmoves := hd.alloc.trans ((hd.copies.moves.frame {tf}).congr (add_comm _ _) (add_comm _ _))
    exact hmoves.mem q hq

/-- The events that can change what a process has in memory: its own page events, and changes of its size and its image. -/
def Event.remaps (i : Nat) : Event → Prop
  | .page k _ | .sbrk k _ _ | .exec k _ => k = i
  | _ => False

theorem SysStep.remap {ev : Event} {i : Nat} (h : SysStep s ev t) (hev : ev.remaps i) :
    (∃ pev, ev = .page i pev ∧ PageStep (s.m, s.proc i) pev (t.m, t.proc i)) ∨
    (∃ n eager r, ev = .sbrk i n eager ∧ sysSbrk s.m (s.proc i) (wrap32 n) eager = .ok (t.m, t.proc i, r)) ∨
    ∃ path argv o, ev = .exec i o.isSome ∧ ArgsOk argv ∧ kexec s.m (s.proc i) path argv = .ok (t.m, t.proc i, o) := by
  cases h with
  | page lt live h =>
    obtain rfl := hev
    exact Or.inl ⟨_, rfl, by rwa [Sys.put_m, Sys.put_proc_self]⟩
  | sbrk lt live h =>
    obtain rfl := hev
    exact Or.inr (Or.inl ⟨_, _, _, rfl, by rwa [Sys.put_m, Sys.put_proc_self]⟩)
  | exec lt live args h =>
    obtain rfl := hev
    exact Or.inr (Or.inr ⟨_, _, _, rfl, args, by rwa [Sys.put_m, Sys.put_proc_self]⟩)
  | _ => exact hev.elim

/-- Any other event leaves the frames of the process. -/
theorem SysStep.frames {ev : Event} {i : Nat} {q : Pa} (hs : SysInv s) (h : SysStep s ev t) (hk : ev.keepsTrapframe s)
    (hev : ¬ev.remaps i) (hi : i < nProc) (hl : (s.proc i).live) (hq : q ∈ (s.proc i).owned) : t.m.mem q = s.m.mem q := by
  have hapart : ∀ {j : Nat}, j < nProc → j ≠ i → q ∉ free s.m + (s.proc j).owned := fun hj hne => hs.apart hi hj (Ne.symm hne) hq
  have hfree : q ∉ free s.m + (s.held : Multiset Pa) := hs.not_held hi hq
  cases h with
  | page lt live h => exact (h.flows (hs.wf lt live)).1.mem q (hapart lt hev)
  | sbrk lt live h =>
    have hwf := hs.wf lt live
    exact ((sysSbrk_spec hwf hk h).flows hwf hk).1.mem q (hapart lt hev)
  | exec lt live args h =>
    have hwf := hs.wf lt live
    exact (kexec_spec hwf.toHasTable (Or.inr hwf.stack) args h).1.mem q (hapart lt hev)
  | fork lt live h => exact kfork_mem hs (hs.wf lt live) h (fun hin => hfree (Multiset.mem_add.mpr (Or.inl hin)))
  | exit lt live h =>
    unfold kexit at h
    split at h
    · cases h
    obtain ⟨fs, -, h⟩ := bind_ok h
    obtain rfl := Except.ok.inj h
    rfl
  | reap lt live ltj zombie h =>
    rename_i k j m np
    have hwf := (hs.slots _ ltj).wf (by rw [zombie]; simp)
    have hne : j ≠ i := by
      rintro rfl
      rw [Proc.live, zombie] at hl
      rcases hl with h | h | h <;> cases h
    exact (freeproc_spec h (Or.inl hwf.root) (Or.inr (hs.wf lt live).stack)).1.mem q (hapart ltj hne)
  | kill pid =>
    unfold kkill
    split <;> rfl
  | lock | unlock | setSp | files => rfl
  | kalloc h => exact (kalloc_moves h).mem q (by rw [add_zero]; exact fun hin => hfree (Multiset.mem_add.mpr (Or.inl hin)))
  | kfree held h =>
    refine (kfree_moves h).mem q (fun hin => hfree ?_)
    rcases Multiset.mem_add.mp hin with hin | hin
    · exact Multiset.mem_add.mpr (Or.inl hin)
    · rw [Multiset.mem_singleton.mp hin]
      exact Multiset.mem_add.mpr (Or.inr (Multiset.mem_coe.mpr held))

end Events

/-! ## Boot, steps and runs -/

theorem Proc.zero_empty : Proc.zero.Empty := ⟨rfl, rfl, rfl⟩

/-- Before the first process every page is free or the kernel's. -/
theorem PreBoot.inv {s : Sys} (h : PreBoot s) : SysInv s := by
  refine ⟨?_, fun i _ => Or.inl (by rw [h.proc]; exact Proc.zero_empty)⟩
  have hnone : ∑ i ∈ Finset.range nProc, (s.proc i).owned = 0 :=
    Finset.sum_eq_zero (fun i _ => by rw [h.proc]; exact Proc.zero_empty.owned)
  rw [Conserved, Sys.total, hnone, add_zero, free, Multiset.coe_add]
  exact Multiset.coe_eq_coe.mpr h.pages

/-- The first process before its `exec` of `/init`, in slot `j`, at the root directory `ip`. -/
def Sys.first (s₀ : Sys) (j : Nat) (tf : Pa) (pt : PageTable) (ip : Nat) : Proc :=
  { (s₀.proc j).born s₀.nextpid tf pt with cwd := some ip, state := .runnable }

/-- How the first process enters user mode: `s₀` is the system before it, `m₁` the machine with its table. -/
structure Booted (s₀ : Sys) (j : Nat) (m₁ : Machine) (tf : Pa) (pt : PageTable) (fs : Fs) (ip : Nat) (m : Machine) (p : Proc)
    (argc : Nat) (s : Sys) : Prop where
  pre : PreBoot s₀
  lt : j < nProc
  empty : (s₀.proc j).Empty
  alloc : Moves s₀.m 0 m₁ ({tf} + pt.pages)
  fresh : FreshTable s₀.m.trampoline tf pt
  root : namei m₁.fs 0 ['/'] = .ok (fs, some ip)
  exec : kexec (m₁.withFs fs) (s₀.first j tf pt ip) "/init".toList ["/init".toList.map (fun c => UInt8.ofNat c.toNat)] =
    .ok (m, p, some argc)
  result : s = { s₀.put j m p with nextpid := wrap32 (s₀.nextpid + 1) }

theorem PreBoot.booted {s₀ s : Sys} (hpre : PreBoot s₀) (h : userinit s₀ = .ok s) :
    ∃ j m₁ tf pt fs ip m p argc, Booted s₀ j m₁ tf pt fs ip m p argc s := by
  obtain ⟨⟨s₁, o⟩, ha, h⟩ := bind_ok h
  rcases allocproc_spec hpre.inv.slots (Or.inl rfl) ha with ⟨rfl, -⟩ | ⟨j, m₁, tf, pt, rfl, hj, he, hm, hfresh, rfl⟩
  · nomatch h
  obtain ⟨⟨fs, o⟩, hn, h⟩ := bind_ok h
  cases o with
  | none => nomatch h
  | some ip =>
    simp only [Sys.put_proc_self, Sys.put_m] at h
    obtain ⟨⟨m, p, o⟩, hx, h⟩ := bind_ok h
    cases o with
    | none => nomatch h
    | some argc =>
      obtain rfl := Except.ok.inj h
      refine ⟨j, m₁, tf, pt, fs, ip, m, p, argc, hpre, hj, he, hm, hfresh, hn, hx, ?_⟩
      simp only [Sys.put, Function.update_idem]

theorem Boot.booted {s : Sys} (h : Boot s) : ∃ s₀ j m₁ tf pt fs ip m p argc, Booted s₀ j m₁ tf pt fs ip m p argc s := by
  obtain ⟨s₀, hpre, h⟩ := h
  exact ⟨s₀, hpre.booted h⟩

/-- The argument of the first `exec`. -/
theorem bootArgs_ok : ArgsOk ["/init".toList.map (fun c => UInt8.ofNat c.toNat)] := by
  intro x hx
  rw [List.mem_singleton.mp hx]
  decide

section Booted

variable {s₀ s : Sys} {j ip argc : Nat} {m₁ m : Machine} {tf : Pa} {pt : PageTable} {fs : Fs} {p : Proc}

theorem Booted.table (h : Booted s₀ j m₁ tf pt fs ip m p argc s) : (s₀.first j tf pt ip).HasTable :=
  ⟨h.fresh.root, ⟨_, h.fresh.trampoline, rfl⟩, ⟨_, h.fresh.trapframe, rfl, rfl⟩⟩

/-- The first process has the image of `/init`. -/
theorem Booted.done (h : Booted s₀ j m₁ tf pt fs ip m p argc s) :
    Flows (m₁.withFs fs) (s₀.first j tf pt ip).owned m p.owned ∧
      ∃ fs₀ fs' ip' mem pt' sp, ExecDone (m₁.withFs fs) (s₀.first j tf pt ip) "/init".toList m p fs₀ fs' ip' mem pt' sp := by
  obtain ⟨hflow, ⟨hn, -⟩ | ⟨argc', fs₀, fs', ip', mem, pt', sp, -, hd⟩⟩ := kexec_spec h.table (Or.inl rfl) bootArgs_ok h.exec
  · nomatch hn
  · exact ⟨hflow, fs₀, fs', ip', mem, pt', sp, hd⟩

end Booted

/-- The first process in user mode. -/
theorem Boot.inv {s : Sys} (h : Boot s) : SysInv s := by
  obtain ⟨s₀, j, m₁, tf, pt, fs, ip, m, p, argc, hb⟩ := h.booted
  obtain ⟨hflow, fs₀, fs', ip', mem, pt', sp, hd⟩ := hb.done
  obtain ⟨hw, hst⟩ := hd.wf rfl
  have hall : Flows s₀.m (s₀.proc j).owned m p.owned :=
    ((hb.alloc.flows.congr hb.empty.owned.symm rfl).trans ((SameMem.withFs m₁ fs).flows _)).trans hflow
  rw [hb.result]
  exact (hb.pre.inv.put hb.lt hall (live_slot hw (Or.inr (Or.inl hst)))).nextpid (wrap32 (s₀.nextpid + 1))

/-- An action that does not shrink a process past its trapframe page. -/
def Action.keepsTrapframe (s : Sys) : Action → Prop
  | .sbrk i n _ => ¬shrinksPastTrapframe (s.proc i) (wrap32 n)
  | _ => True

instance (s : Sys) (a : Action) : Decidable (a.keepsTrapframe s) := by
  cases a <;> unfold Action.keepsTrapframe <;> infer_instance

/-- A step that does not shrink past the trapframe page. -/
abbrev SafeStep : Sys → Action → Sys → Prop := Guarded (fun s a => a.keepsTrapframe s) Step

/-- The events of a step that does not shrink past the trapframe page. -/
theorem SafeStep.run {s t : Sys} {a : Action} (h : SafeStep s a t) :
    ∃ evs, Run (Guarded (fun s ev => ev.keepsTrapframe s) SysStep) s evs t := by
  obtain ⟨hk, h⟩ := h
  refine h.events (K := fun s ev _ => ev.keepsTrapframe s) ?_ (fun _ _ _ _ _ => trivial) ?_
  · rintro i n eager rfl
    exact hk
  · intro u ev v hq
    cases ev with
    | sbrk => exact absurd hq id
    | _ => trivial

theorem SafeStep.inv {s t : Sys} {a : Action} (hs : SysInv s) (h : SafeStep s a t) : SysInv t := by
  obtain ⟨evs, hr⟩ := h.run
  exact hr.invariant SysInv (fun _ _ _ hs hg => hg.2.inv hs hg.1) hs

/-- The states the system reaches without such a shrink. -/
def Reachable : Sys → Prop := Reach Boot SafeStep

theorem Reachable.inv {s : Sys} (h : Reachable s) : SysInv s :=
  Reach.invariant SysInv (fun _ hb => hb.inv) (fun _ _ _ hs hg => SafeStep.inv hs hg) h

end Xv6SnifferBakery.Kernel
