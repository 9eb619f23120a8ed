import Xv6SnifferBakery.Lemmas.SysRefs
import Xv6SnifferBakery.Lib.History

/-!
# Residence histories

Which pages of a process came into memory, in which order. Nothing in the kernel records this order; it is kept beside the system here.
A fault that loads a page adds it to the history of its process, a growth of the heap adds the pages it maps, a child starts with the
history of its parent, and `exec` starts a new one with the stack page. `seq` and `next_fifo_seq` are shown to agree with the loads.
-/

namespace Xv6SnifferBakery.Kernel

open Lib

variable {m m' : Machine} {p p' : Proc} {i va : Nat} {h : List Nat}

/-! ## Histories -/

/-- A page that comes into memory: a fault or `exec` loads it, or a growth of the heap maps it. -/
inductive Arrival where
  | loaded (va : Nat)
  | grown (va : Nat)
  deriving DecidableEq

/-- The page that came. -/
def Arrival.page : Arrival → Nat
  | .loaded va | .grown va => va

/-- The page, if it was loaded. -/
def Arrival.load? : Arrival → Option Nat
  | .loaded va => some va
  | .grown _ => none

/-- The pages that were loaded. -/
def loadsOf (h : List Arrival) : List Nat := h.filterMap Arrival.load?

@[simp] theorem loadsOf_loaded (h : List Arrival) (va : Nat) : loadsOf (h ++ [.loaded va]) = loadsOf h ++ [va] := by
  simp [loadsOf, Arrival.load?]

@[simp] theorem loadsOf_grown (h : List Arrival) (vas : List Nat) : loadsOf (h ++ vas.map .grown) = loadsOf h := by
  have hnone : vas.filterMap (Arrival.load? ∘ .grown) = [] := List.filterMap_eq_nil_iff.mpr (fun _ _ => rfl)
  unfold loadsOf
  rw [List.filterMap_append, List.filterMap_map, hnone, List.append_nil]

/-- The pages that an `sbrk` of `n` bytes brings into memory, in the order in which `uvmalloc` maps them. A shrink brings none. -/
def grownPages (p p' : Proc) (n : Int) : List Nat :=
  if 0 < n then
    ((List.range' (pgRoundUp p.sz / 4096) (growEnd p.sz (p.sz + n.toNat) - pgRoundUp p.sz / 4096)).filter
      (fun v => (p.pagetable.leaf v).isNone && (p'.pagetable.leaf v).isSome)).map (· * 4096)
  else []

/-- The history of a process after a page event. -/
def PageEvent.residence (ev : PageEvent) (h : List Arrival) : List Arrival :=
  match ev with
  | .load _ _ va => h ++ [.loaded va]
  | _ => h

/-- The histories of all processes after an event that leads from `s` to `t`. -/
def Event.residence (s : Sys) (ev : Event) (t : Sys) (H : Nat → List Arrival) : Nat → List Arrival :=
  match ev with
  | .page i ev => Function.update H i (ev.residence (H i))
  | .sbrk i n _ => Function.update H i (H i ++ (grownPages (s.proc i) (t.proc i) (wrap32 n)).map .grown)
  | .fork i => fun k => if (s.proc k).state = .unused ∧ (t.proc k).state ≠ .unused then H i else H k
  | .exec i true => Function.update H i [.loaded (pgRoundDown (sub64 (t.proc i).stackTop pgSize))]
  | _ => H

/-- One event of the system, with the histories beside it. -/
def HistStep (x : Sys × (Nat → List Arrival)) (ev : Event) (y : Sys × (Nat → List Arrival)) : Prop :=
  SysStep x.1 ev y.1 ∧ y.2 = ev.residence x.1 y.1 x.2

theorem SysStep.history {s t : Sys} {ev : Event} (h : SysStep s ev t) (H : Nat → List Arrival) :
    HistStep (s, H) ev (t, ev.residence s t H) :=
  ⟨h, rfl⟩

/-- The histories when the first process enters user mode: its stack page is resident. -/
def bootHistory (s : Sys) : Nat → List Arrival := fun k => (s.proc k).pages.map (fun e => .loaded e.va)

/-- Every run of events has a history. -/
theorem exists_history {s t : Sys} {evs : List Event} (H : Nat → List Arrival) (hr : Run SysStep s evs t) :
    ∃ H', Run HistStep (s, H) evs (t, H') := by
  induction hr with
  | nil => exact ⟨H, Run.nil _⟩
  | snoc _ hs ih =>
    obtain ⟨H', hr'⟩ := ih
    exact ⟨_, hr'.snoc (hs.history H')⟩

/-! ## Sequence numbers follow the history -/

/-- The sequence numbers of a process say when each resident page became resident last. -/
structure Fifo (h : List Nat) (p : Proc) : Prop where
  next : p.nextFifoSeq = wrap32 (h.length + 1)
  addrs : (p.pages.map PageInfo.va).Nodup
  seq : ∀ e ∈ p.pages, e.state = .resident → ∃ k, LastAt h e.va k ∧ e.seq = wrap32 (k + 1)

theorem Fifo.of_fields (hf : Fifo h p) (hpages : p'.pages = p.pages) (hseq : p'.nextFifoSeq = p.nextFifoSeq) : Fifo h p' := by
  refine ⟨hseq.trans hf.next, ?_, ?_⟩
  · rw [hpages]
    exact hf.addrs
  · rw [hpages]
    exact hf.seq

/-- A change of entries that makes no page resident. -/
theorem Fifo.map (hf : Fifo h p) (hseq : p'.nextFifoSeq = p.nextFifoSeq) (hva : p'.pages.map PageInfo.va = p.pages.map PageInfo.va)
    (hres : ∀ x ∈ p'.pages, x.state = .resident → ∃ e ∈ p.pages, e.state = .resident ∧ e.va = x.va ∧ e.seq = x.seq) : Fifo h p' := by
  refine ⟨hseq.trans hf.next, hva ▸ hf.addrs, ?_⟩
  intro x hx hr
  obtain ⟨e, he, her, hev, hes⟩ := hres x hx hr
  rw [← hev, ← hes]
  exact hf.seq e he her

/-- An entry of the changed table is the changed one, or an old one. -/
theorem mem_modify {es : List PageInfo} {f : PageInfo → PageInfo} {x : PageInfo} (hx : x ∈ es.modify i f) :
    (∃ e, es[i]? = some e ∧ x = f e) ∨ ∃ l, l ≠ i ∧ es[l]? = some x := by
  obtain ⟨l, hl⟩ := List.mem_iff_getElem?.mp hx
  rw [List.getElem?_modify] at hl
  obtain ⟨e, he, hfe⟩ := Option.map_eq_some_iff.mp hl
  by_cases hli : i = l
  · rw [if_pos hli] at hfe
    exact Or.inl ⟨e, hli ▸ he, hfe.symm⟩
  · rw [if_neg hli] at hfe
    exact Or.inr ⟨l, fun hc => hli hc.symm, hfe ▸ he⟩

/-- A change of one entry that does not make it resident. -/
theorem Fifo.modify {f : PageInfo → PageInfo} (hf : Fifo h p) (hseq : p'.nextFifoSeq = p.nextFifoSeq)
    (hpages : p'.pages = p.pages.modify i f) (hva : ∀ e, (f e).va = e.va)
    (hres : ∀ e, (f e).state = .resident → e.state = .resident ∧ (f e).seq = e.seq) : Fifo h p' := by
  refine hf.map hseq (by rw [hpages, map_va_modify hva]) ?_
  intro x hx hr
  rw [hpages] at hx
  rcases mem_modify hx with ⟨e, he, rfl⟩ | ⟨l, -, hl⟩
  · exact ⟨e, List.mem_of_getElem? he, (hres e hr).1, (hva e).symm, (hres e hr).2.symm⟩
  · exact ⟨x, List.mem_of_getElem? hl, hr, rfl, rfl⟩

/-- Fetching the contents of a page makes no page resident. -/
theorem Fetched.fifo {src : Source} {page : Page} (hx : Fetched m p i va src m' p' page) (hf : Fifo h p) : Fifo h p' := by
  cases hx with
  | zero => exact hf
  | exec => exact hf
  | execRead => exact hf
  | swap _ he =>
    have hfree : ∀ slot, (freeSwapSlot p slot).nextFifoSeq = p.nextFifoSeq := by
      intro slot
      unfold freeSwapSlot
      split
      · rfl
      · split <;> rfl
    refine hf.modify (i := i) (f := fun e => { e with swapSlot := -1 }) (hfree _) ?_ (fun _ => rfl) (fun _ hr => ⟨hr, rfl⟩)
    change List.modify (freeSwapSlot p _).pages i _ = _
    rw [freeSwapSlot_pages]

theorem wrap32_succ (n : Nat) : wrap32 (wrap32 (n + 1) + 1) = wrap32 ((n + 1 : Nat) + 1) := by
  unfold wrap32
  omega

/-- Tables with the same addresses have their entries in the same places. -/
theorem entry_of_map {es es' : List PageInfo} {e : PageInfo} (hva : es'.map PageInfo.va = es.map PageInfo.va) (he : es[i]? = some e) :
    ∃ e', es'[i]? = some e' ∧ e'.va = e.va := by
  have hmap : (es'.map PageInfo.va)[i]? = some e.va := by
    rw [hva, List.getElem?_map, he]
    rfl
  rw [List.getElem?_map] at hmap
  obtain ⟨e', he', hev⟩ := Option.map_eq_some_iff.mp hmap
  exact ⟨e', he', hev⟩

/-- A page that is mapped becomes resident now. -/
theorem Fifo.loaded {e : PageInfo} (hf : Fifo h p) (pt : PageTable) (he : p.pages[i]? = some e) : Fifo (h ++ [e.va]) (p.loaded i pt) := by
  refine ⟨?_, ?_, ?_⟩
  · change wrap32 (p.nextFifoSeq + 1) = _
    rw [hf.next, List.length_append, List.length_singleton]
    exact wrap32_succ _
  · change ((p.pages.modify i _).map PageInfo.va).Nodup
    rw [map_va_modify]
    · exact hf.addrs
    · exact fun _ => rfl
  · intro x hx hr
    rcases mem_modify hx with ⟨y, hy, rfl⟩ | ⟨l, hli, hl⟩
    · obtain rfl := Option.some.inj (he.symm.trans hy)
      exact ⟨h.length, LastAt.now h e.va, hf.next⟩
    · obtain ⟨k, hk, hseq⟩ := hf.seq x (List.mem_of_getElem? hl) hr
      refine ⟨k, hk.later ?_, hseq⟩
      intro hva
      exact hli (entry_unique hf.addrs he hl hva).symm

/-- A new entry has an address of its own. -/
theorem track_addrs (hn : (p.pages.map PageInfo.va).Nodup) (hfresh : ∀ e ∈ p.pages, e.va ≠ va) :
    ((p.track va).pages.map PageInfo.va).Nodup := by
  change ((p.pages ++ [_]).map PageInfo.va).Nodup
  rw [List.map_append, List.nodup_append]
  refine ⟨hn, List.nodup_singleton _, ?_⟩
  rintro a ha b hb rfl
  obtain ⟨e, he, rfl⟩ := List.mem_map.mp ha
  exact hfresh e he (List.mem_singleton.mp hb)

/-- A page event keeps the sequence numbers in step with the history. -/
theorem PageStep.fifo {ev : PageEvent} {h : List Arrival} (hs : PageStep (m, p) ev (m', p')) (hf : Fifo (loadsOf h) p) :
    Fifo (loadsOf (ev.residence h)) p' := by
  cases hs with
  | kill => exact hf.of_fields rfl rfl
  | track _ _ _ hfresh _ =>
    refine ⟨hf.next, track_addrs hf.addrs hfresh, ?_⟩
    · intro x hx hr
      rcases List.mem_append.mp hx with hx | hx
      · exact hf.seq x hx hr
      · rw [List.mem_singleton.mp hx] at hr
        cases hr
  | evictClean hx =>
    rw [hx.proc]
    exact hf.modify (f := fun e => { e with state := .unmapped }) rfl rfl (fun _ => rfl) (fun _ hr => nomatch hr)
  | evictDirty hx =>
    rename_i slot _ _ _
    rw [hx.proc]
    exact hf.modify (f := fun e => { e with state := .swapped, swapSlot := slot }) rfl rfl (fun _ => rfl) (fun _ hr => nomatch hr)
  | evictFail hx =>
    rw [hx.proc]
    exact hf.of_fields rfl rfl
  | load he haddr _ _ _ hx =>
    have hp := hx.proc
    subst hp haddr
    obtain ⟨e', he', hva⟩ := entry_of_map hx.fetched.same.2.2.2 he
    rw [PageEvent.residence, loadsOf_loaded, ← hva]
    exact (hx.fetched.fifo hf).loaded _ he'
  | loadFail _ _ _ hx =>
    cases hx with
    | read => exact hf.of_fields rfl rfl
    | map _ hfe => exact (hfe.fifo hf).of_fields rfl rfl
  | firstWrite hx =>
    exact hf.modify (f := fun e => { e with isDirty := true }) rfl rfl (fun _ => rfl) (fun _ hr => ⟨hr, rfl⟩)
  | store => exact hf
  | copy => exact hf

/-! ## System calls -/

section Calls

variable {s t : Sys} {H : Nat → List Arrival}

/-- Two file systems that differ in counts and flags only: the inodes are the same, and what each file is open on. -/
structure SameFiles (fs fs' : Fs) : Prop where
  inode : fs'.inode = fs.inode
  ip : ∀ f, (fs'.ftable f).ip = (fs.ftable f).ip

theorem SameFiles.of_eq {fs fs' : Fs} (h : fs' = fs) : SameFiles fs fs' := by
  rw [h]
  exact ⟨rfl, fun _ => rfl⟩

theorem SameFiles.trans {fs fs' fs'' : Fs} (h : SameFiles fs fs') (h' : SameFiles fs' fs'') : SameFiles fs fs'' :=
  ⟨h'.inode.trans h.inode, fun f => (h'.ip f).trans (h.ip f)⟩

/-- Taking references changes counts only. -/
theorem forkRefs_files {fs fs' : Fs} (h : forkRefs fs p = .ok fs') : SameFiles fs fs' := by
  obtain ⟨fs₁, hl, h⟩ := bind_ok h
  obtain rfl := Except.ok.inj h
  have hidup : SameFiles fs₁ (idup fs₁ (p.cwd.getD 0)) := ⟨rfl, fun _ => rfl⟩
  refine SameFiles.trans ?_ hidup
  refine forFrom_inv (fun _ x => SameFiles fs x) hl ?_ ?_
  · cases p.execInode with
    | none => exact .of_eq rfl
    | some ip => exact ⟨rfl, fun _ => rfl⟩
  · intro k x y _ _ hx hb
    refine hx.trans ?_
    unfold dupFd at hb
    split at hb
    · exact .of_eq (Except.ok.inj hb).symm
    · unfold filedup at hb
      split at hb
      · nomatch hb
      · obtain rfl := Except.ok.inj hb
        refine ⟨rfl, ?_⟩
        intro f
        dsimp only
        rw [Function.update_apply]
        split
        · rename_i hf
          rw [hf]
        · rfl

/-- The child that a fork of `p`, in slot `i`, puts in the slot of `q`: its table is a new one with a copy of the pages of `p`. -/
inductive ForkChild (p q : Proc) (i : Nat) : Proc → Prop where
  | mk {pid : Int} {tf : Pa} {pt pt' : PageTable} {m₁ m₂ m₃ m₄ : Machine} (table : procPagetable m₁ tf = .ok (m₂, some pt))
      (copy : uvmcopy m₃ p.pagetable pt p.sz = .ok (m₄, pt', true)) : ForkChild p q i ((q.born pid tf pt).forkFrom p i pt')

/-- `kfork` changes one slot, which was unused: it is free again, or the child is in it. Of the files only counts change. -/
theorem kfork_slot {o : Option Nat} (h : kfork s i = .ok (t, o)) : SameFiles s.m.fs t.m.fs ∧
    (t.proc = s.proc ∨ ∃ j p, (s.proc j).state = .unused ∧ t.proc = Function.update s.proc j p ∧
      ((∃ q : Proc, p = q.freed) ∨ ForkChild (s.proc i) (s.proc j) i p)) := by
  obtain ⟨⟨s₁, o₁⟩, ha, h⟩ := bind_ok h
  unfold allocproc at ha
  cases hf : firstProc (fun p => p.state = .unused) s.proc 0 nProc with
  | none =>
    simp only [hf, Except.ok.injEq, Prod.mk.injEq] at ha
    obtain ⟨rfl, rfl⟩ := ha
    obtain ⟨rfl, -⟩ := Prod.mk.inj (Except.ok.inj h)
    exact ⟨.of_eq rfl, Or.inl rfl⟩
  | some j =>
    have hu : (s.proc j).state = .unused := by simpa using (firstProc_some hf).1
    simp only [hf] at ha
    obtain ⟨⟨m₁, p₁, b⟩, hb, ha⟩ := bind_ok ha
    simp only [Except.ok.injEq, Prod.mk.injEq] at ha
    obtain ⟨rfl, rfl⟩ := ha
    obtain ⟨henv, ⟨rfl, hfreed⟩ | ⟨rfl, tf, pt, m₀, rfl, htab⟩⟩ := allocprocAt_born hb
    · obtain ⟨rfl, -⟩ := Prod.mk.inj (Except.ok.inj h)
      exact ⟨.of_eq henv.fs, Or.inr ⟨j, p₁, hu, rfl, Or.inl ⟨_, hfreed⟩⟩⟩
    · obtain ⟨⟨m₂, pt', b⟩, hc, h⟩ := bind_ok h
      simp only [Sys.put_m, Sys.put_proc_self] at hc h
      have henv₂ := henv.trans (uvmcopy_env hc)
      cases b with
      | false =>
        obtain ⟨⟨m₃, np⟩, hfree, h⟩ := bind_ok h
        obtain ⟨henv₃, rfl⟩ := freeproc_env hfree
        obtain rfl := (Prod.mk.inj (Except.ok.inj h)).1.symm.trans (put_put _ _ _ _ _ _ _)
        exact ⟨.of_eq (henv₂.trans henv₃).fs, Or.inr ⟨j, _, hu, rfl, Or.inl ⟨_, rfl⟩⟩⟩
      | true =>
        obtain ⟨fs, hr, h⟩ := bind_ok h
        obtain rfl := (Prod.mk.inj (Except.ok.inj h)).1.symm.trans (put_put _ _ _ _ _ _ _)
        refine ⟨?_, Or.inr ⟨j, _, hu, rfl, Or.inr (.mk htab hc)⟩⟩
        rw [← henv₂.fs]
        exact forkRefs_files hr

/-! ## The system -/

/-- A property of every process and its history. -/
def Beside (P : List Arrival → Proc → Prop) (x : Sys × (Nat → List Arrival)) : Prop :=
  ∀ k, (x.1.proc k).state ≠ .unused → P (x.2 k) (x.1.proc k)

variable {P : List Arrival → Proc → Prop}

/-- One process is replaced, and its history. -/
theorem Beside.put {h : List Arrival} (hx : Beside P (s, H)) (hp : p.state ≠ .unused → P h p) :
    Beside P (s.put i m p, Function.update H i h) := by
  intro k hk
  by_cases hki : k = i
  · subst hki
    change ((s.put k m p).proc k).state ≠ .unused at hk
    rw [Sys.put_proc_self] at hk
    change P (Function.update H k h k) ((s.put k m p).proc k)
    rw [Sys.put_proc_self, Function.update_self]
    exact hp hk
  · change ((s.put i m p).proc k).state ≠ .unused at hk
    rw [Sys.put_proc_of_ne _ _ _ hki] at hk
    change P (Function.update H i h k) ((s.put i m p).proc k)
    rw [Sys.put_proc_of_ne _ _ _ hki, Function.update_of_ne hki]
    exact hx k hk

/-- One process is replaced, and its history stays. -/
theorem Beside.put_same (hx : Beside P (s, H)) (hp : p.state ≠ .unused → P (H i) p) : Beside P (s.put i m p, H) := by
  have hput := hx.put (i := i) (m := m) hp
  rwa [Function.update_eq_self] at hput

/-- What every event keeps of a process and its history. `G` is what may be asked of an `sbrk`. -/
structure HistKept (G : Proc → Int → Bool → Prop) (P : List Arrival → Proc → Prop) : Prop where
  page : ∀ {m m' : Machine} {p p' : Proc} {ev : PageEvent} {h : List Arrival}, PageStep (m, p) ev (m', p') → P h p → P (ev.residence h) p'
  sbrk : ∀ {m m' : Machine} {p p' : Proc} {n : Int} {eager r : Bool} {h : List Arrival}, G p n eager →
    sysSbrk m p n eager = .ok (m', p', r) → P h p → P (h ++ (grownPages p p' n).map .grown) p'
  exec : ∀ {p : Proc} {path : List Char} {st : Scan} {entry sp : Nat} {pt : PageTable},
    P [.loaded (pgRoundDown (sub64 (p.commit path st entry pt sp).stackTop pgSize))] (p.commit path st entry pt sp)
  fork : ∀ {p q np : Proc} {i : Nat} {h : List Arrival}, ForkChild p q i np → P h p → P h np
  other : ∀ {p p' : Proc} {h : List Arrival}, p'.pages = p.pages → p'.nextFifoSeq = p.nextFifoSeq → P h p → P h p'

/-- What is asked of an event: `G` of an `sbrk`. -/
def Event.asks (G : Proc → Int → Bool → Prop) (s : Sys) : Event → Prop
  | .sbrk i n eager => G (s.proc i) (wrap32 n) eager
  | _ => True

variable {G : Proc → Int → Bool → Prop}

/-- Processes that are changed neither in their tracked pages nor in their sequence counter. -/
theorem HistKept.congr (hkept : HistKept G P) (hx : Beside P (s, H)) (ht : ∀ k, (t.proc k).state ≠ .unused →
    (s.proc k).state ≠ .unused ∧ (t.proc k).pages = (s.proc k).pages ∧ (t.proc k).nextFifoSeq = (s.proc k).nextFifoSeq) :
    Beside P (t, H) := by
  intro k hk
  obtain ⟨hu, hpages, hseq⟩ := ht k hk
  exact hkept.other hpages hseq (hx k hu)

/-- One process is changed, but not in what the history is about. -/
theorem HistKept.modProc {f : Proc → Proc} (hkept : HistKept G P) (hx : Beside P (s, H))
    (hstate : (f (s.proc i)).state ≠ .unused → (s.proc i).state ≠ .unused) (hpages : (f (s.proc i)).pages = (s.proc i).pages)
    (hseq : (f (s.proc i)).nextFifoSeq = (s.proc i).nextFifoSeq) : Beside P (s.modProc i f, H) :=
  hx.put_same (m := s.m) (fun hk => hkept.other hpages hseq (hx i (hstate hk)))

/-- Every event keeps it. -/
theorem HistKept.step {x y : Sys × (Nat → List Arrival)} {ev : Event} (hkept : HistKept G P) (hG : ev.asks G x.1) (hx : Beside P x)
    (hs : HistStep x ev y) : Beside P y := by
  obtain ⟨s, H⟩ := x
  obtain ⟨t, H'⟩ := y
  obtain ⟨hs, hH⟩ := hs
  dsimp only at hs hH
  cases hs with
  | page lt live h =>
    subst hH
    exact hx.put (fun _ => hkept.page h (hx _ live.ne_unused))
  | lock | unlock | kalloc | kfree =>
    subst hH
    exact hkept.congr hx (fun k hk => ⟨hk, rfl, rfl⟩)
  | setSp sp =>
    subst hH
    exact hkept.modProc hx id rfl rfl
  | sbrk lt live h =>
    subst hH
    refine hx.put (fun _ => ?_)
    rw [Sys.put_proc_self]
    exact hkept.sbrk hG h (hx _ live.ne_unused)
  | fork lt live h =>
    rename_i i o
    subst hH
    intro k hk
    change (t.proc k).state ≠ .unused at hk
    change P (if (s.proc k).state = .unused ∧ (t.proc k).state ≠ .unused then H i else H k) (t.proc k)
    rcases (kfork_slot h).2 with heq | ⟨j, p, hu, heq, hp⟩
    · rw [heq] at hk ⊢
      rw [if_neg (fun hc => hk hc.1)]
      exact hx k hk
    · rw [heq] at hk ⊢
      by_cases hkj : k = j
      · subst hkj
        rw [Function.update_self] at hk ⊢
        rw [if_pos ⟨hu, hk⟩]
        rcases hp with ⟨q, rfl⟩ | hp
        · exact absurd rfl hk
        · exact hkept.fork hp (hx i live.ne_unused)
      · rw [Function.update_of_ne hkj] at hk ⊢
        rw [if_neg (fun hc => hk hc.1)]
        exact hx k hk
  | exec lt live args h =>
    subst hH
    rcases kexec_cases args h with ⟨rfl, hfail, -⟩ | ⟨argc, fs₀, fs, ip, mem, pt, sp, rfl, rfl, -⟩
    · refine hx.put_same (fun _ => hkept.other hfail.slot.2.2.2.1 ?_ (hx _ live.ne_unused))
      cases hfail <;> rfl
    · refine hx.put (fun _ => ?_)
      rw [Sys.put_proc_self]
      exact hkept.exec
  | exit lt live h =>
    rename_i i status
    subst hH
    unfold kexit at h
    split at h
    · cases h
    obtain ⟨fs, -, h⟩ := bind_ok h
    obtain rfl := Except.ok.inj h
    have hparent : Beside P ({ s with m := (s.m.reach [.beginOp]).withFs fs, proc := reparent i s.proc }, H') := by
      refine hkept.congr hx (fun k hk => ?_)
      change (reparent i s.proc k).state ≠ .unused at hk
      change _ ∧ (reparent i s.proc k).pages = _ ∧ (reparent i s.proc k).nextFifoSeq = _
      unfold reparent at hk ⊢
      split <;> rename_i hc
      · rw [if_pos hc] at hk
        exact ⟨hk, rfl, rfl⟩
      · rw [if_neg hc] at hk
        exact ⟨hk, rfl, rfl⟩
    refine hkept.modProc hparent (fun _ => ?_) rfl rfl
    change (reparent i s.proc i).state ≠ .unused
    unfold reparent
    split <;> exact live.ne_unused
  | reap lt live ltj zombie h =>
    subst hH
    obtain ⟨-, rfl⟩ := freeproc_env h
    exact hx.put_same (fun hk => absurd rfl hk)
  | kill pid =>
    subst hH
    unfold kkill
    split
    · exact hx
    · refine hkept.modProc hx (fun hk hu => hk ?_) rfl rfl
      simp [hu]
  | files lt live fs ops ofile cwd =>
    subst hH
    refine hx.put_same (fun _ => hkept.other ?_ ?_ (hx _ live.ne_unused))
    all_goals rfl

/-! ## The order of loads -/

/-- The new image of an `exec`: only its stack page is resident. -/
theorem commit_fifo {path : List Char} {st : Scan} {entry sp : Nat} {pt : PageTable} :
    Fifo [pgRoundDown (sub64 (p.commit path st entry pt sp).stackTop pgSize)] (p.commit path st entry pt sp) := by
  rw [commit_eq]
  have htwo : wrap32 2 = 2 := by decide
  refine ⟨htwo.symm, List.nodup_singleton _, ?_⟩
  intro e he _
  rw [List.mem_singleton.mp he]
  exact ⟨0, LastAt.of_nodup (List.nodup_singleton _) rfl, rfl⟩

/-- A child has the order of its parent. -/
theorem Fifo.fork {h : List Nat} {np : Proc} {parent : Nat} {pt : PageTable} (hf : Fifo h p) : Fifo h (np.forkFrom p parent pt) := by
  refine hf.map rfl ?_ ?_
  · change (p.pages.map forkPage).map PageInfo.va = _
    rw [List.map_map]
    rfl
  · intro x hx hr
    obtain ⟨e, he, rfl⟩ := List.mem_map.mp hx
    refine ⟨e, he, ?_, rfl, rfl⟩
    unfold forkPage at hr
    dsimp only at hr
    split at hr
    · nomatch hr
    · exact hr

/-- The sequence numbers of every process follow its loads. -/
abbrev SysFifo (x : Sys × (Nat → List Arrival)) : Prop := Beside (fun h p => Fifo (loadsOf h) p) x

theorem fifo_kept : HistKept (fun _ _ _ => True) (fun h p => Fifo (loadsOf h) p) where
  page := PageStep.fifo
  sbrk := by
    intro m m' p p' n eager r h _ hc hf
    rw [loadsOf_grown, (sysSbrk_env hc).2]
    exact hf.of_fields rfl rfl
  exec := commit_fifo
  fork := by
    intro p q np i h hc hf
    cases hc with
    | mk => exact hf.fork
  other := fun hpages hseq hf => hf.of_fields hpages hseq

/-- The process there is at boot has the image of `/init`, and no swap slot. -/
theorem Boot.image (hb : Boot s) (hi : (s.proc i).state ≠ .unused) : ∃ q path st entry pt sp,
    s.proc i = Proc.commit q path st entry pt sp ∧ (q.swapBitmap = fun _ => false) ∧ q.swapSlotsUsed = 0 := by
  obtain ⟨s₀, j, m₁, tf, pt, fs, ip, m, p, argc, hb⟩ := hb.booted
  rw [hb.result] at hi ⊢
  change ((s₀.put j m p).proc i).state ≠ .unused at hi
  change ∃ q path st entry pt sp, (s₀.put j m p).proc i = Proc.commit q path st entry pt sp ∧ _
  by_cases hij : i = j
  · subst hij
    rw [Sys.put_proc_self]
    obtain ⟨ho, -⟩ | ⟨argc', fs₀, fs', ip', mem, pt', sp, -, hp, -⟩ := kexec_cases bootArgs_ok hb.exec
    · nomatch ho
    · exact ⟨_, _, _, _, _, _, hp, rfl, rfl⟩
  · rw [Sys.put_proc_of_ne _ _ _ hij, hb.pre.proc i] at hi
    exact absurd rfl hi

/-- The first process has its stack page, and nothing else, resident. -/
theorem Boot.fifo (hb : Boot s) : SysFifo (s, bootHistory s) := by
  intro k hk
  obtain ⟨q, path, st, entry, pt, sp, hp, -⟩ := hb.image hk
  change Fifo (loadsOf ((s.proc k).pages.map (fun e => .loaded e.va))) (s.proc k)
  have hfifo : Fifo [pgRoundDown (sub64 (q.commit path st entry pt sp).stackTop pgSize)] (q.commit path st entry pt sp) := commit_fifo
  rw [← hp] at hfifo
  have hpages : loadsOf ((s.proc k).pages.map (fun e => .loaded e.va)) = [pgRoundDown (sub64 (s.proc k).stackTop pgSize)] := by
    rw [hp, commit_eq]
    rfl
  rw [hpages]
  exact hfifo

/-- In every run from boot the sequence numbers follow the histories. -/
theorem history_fifo {evs : List Event} (hb : Boot s) (hr : Run HistStep (s, bootHistory s) evs (t, H)) : SysFifo (t, H) :=
  hr.invariant SysFifo (fun _ ev _ hx hs => fifo_kept.step (by cases ev <;> trivial) hx hs) hb.fifo

/-- A run of actions is a run of events. -/
theorem steps_events {as : List Action} (hr : Run Step s as t) : ∃ evs, Run SysStep s evs t := by
  have hstep : ∀ s a t x, Step s a t → s = x → ∃ evs y, Run SysStep x evs y ∧ t = y := by
    rintro s a t x h rfl
    obtain ⟨evs, hq⟩ := h.events (K := fun _ _ _ => True) (fun _ _ _ _ => trivial) (fun _ _ _ _ _ => trivial) (fun _ _ _ _ => trivial)
    exact ⟨evs, t, hq.mono (fun _ _ _ hg => hg.2), rfl⟩
  obtain ⟨evs, y, hevs, rfl⟩ := hr.simulate hstep rfl
  exact ⟨evs, hevs⟩

end Calls

end Xv6SnifferBakery.Kernel
