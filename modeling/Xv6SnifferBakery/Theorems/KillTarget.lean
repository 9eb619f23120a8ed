import Xv6SnifferBakery.Lemmas.Kept
import Xv6SnifferBakery.Lemmas.Replay
import Xv6SnifferBakery.Lemmas.SwapSlots

/-!
# Kills hit their target

`kkill` looks for a pid in all slots, and those of free slots are 0. As long as no kill hits a free slot, a process is marked only after
a kill with its own pid or by a fault of its own.
-/

namespace Xv6SnifferBakery.Kernel

open Lib

variable {s t : Sys} {m m' : Machine} {p p' : Proc} {ev : Event} {j : Nat}

/-- The event sets the mark of slot `j`. -/
def Event.hits (s : Sys) (j : Nat) : Event → Prop
  | .kill pid => firstProc (fun p => p.pid = pid) s.proc 0 nProc = some j
  | .page i .kill | .page i .loadFail => i = j
  | _ => False

/-- A kill that hits a free slot. -/
def killsFree (s : Sys) (pid : Int) : Prop :=
  ∃ j, firstProc (fun p => p.pid = pid) s.proc 0 nProc = some j ∧ (s.proc j).state = .unused

/-! ## One event -/

/-- A page event marks its process only if it is a kill or a failed load. -/
theorem PageStep.killed {ev : PageEvent} (h : PageStep (m, p) ev (m', p')) (hk : p'.killed = true) :
    p.killed = true ∨ ev = .kill ∨ ev = .loadFail := by
  cases h with
  | kill => exact Or.inr (Or.inl rfl)
  | loadFail => exact Or.inr (Or.inr rfl)
  | track | firstWrite | store | copy => exact Or.inl hk
  | evictClean hx =>
    rw [hx.proc] at hk
    exact Or.inl hk
  | evictDirty hx =>
    rw [hx.proc] at hk
    exact Or.inl hk
  | evictFail hx => cases hx <;> exact Or.inl hk
  | load _ _ _ _ _ hx =>
    rename_i src _ _ _
    rw [hx.proc] at hk
    have hk₂ : _ = true := hk
    rcases hx.fetched.proc with ⟨-, heq⟩ | ⟨e, -, -, heq⟩
    · rw [heq] at hk₂
      exact Or.inl hk₂
    · rw [heq] at hk₂
      exact Or.inl ((freeSwapSlot_killed e.swapSlot).symm.trans hk₂)

/-- A call of `exec` leaves the mark of its process. -/
theorem kexec_killed {path : List Char} {argv : List (List Byte)} {o : Option Nat} (args : ArgsOk argv)
    (h : kexec m p path argv = .ok (m', p', o)) : p'.state = p.state ∧ p'.pid = p.pid ∧ p'.killed = p.killed := by
  rcases kexec_cases args h with ⟨-, hfail, -⟩ | ⟨argc, fs₀, fs, ip, mem, pt, sp, -, rfl, -⟩
  · cases hfail <;> exact ⟨rfl, rfl, rfl⟩
  · rw [commit_eq]
    exact ⟨rfl, rfl, rfl⟩

/-- What an event does to the state, the pid and the mark of a slot. -/
inductive SlotMark (s : Sys) (ev : Event) (j : Nat) (p : Proc) : Prop where
  | freed {q : Proc} (h : p = q.freed) : SlotMark s ev j p
  | kept (state : p.state = .unused ↔ (s.proc j).state = .unused) (pid : p.pid = (s.proc j).pid)
      (killed : p.killed = true → (s.proc j).killed = true ∨ ev.hits s j) : SlotMark s ev j p
  | born (unused : (s.proc j).state = .unused) (state : p.state ≠ .unused) (killed : p.killed = (s.proc j).killed) : SlotMark s ev j p

theorem SlotMark.refl (s : Sys) (ev : Event) (j : Nat) : SlotMark s ev j (s.proc j) := .kept Iff.rfl rfl Or.inl

/-- One slot is replaced. -/
theorem SlotMark.put {i : Nat} (h : SlotMark s ev i p) : SlotMark s ev j ((s.put i m p).proc j) := by
  by_cases hji : j = i
  · subst hji
    rwa [Sys.put_proc_self]
  · rw [Sys.put_proc_of_ne _ _ _ hji]
    exact .refl s ev j

theorem SysStep.slotMark (h : SysStep s ev t) : SlotMark s ev j (t.proc j) := by
  cases h with
  | lock | unlock | kalloc | kfree => exact .refl s _ j
  | page lt live hp =>
    refine .put ?_
    have himg := hp.image
    refine .kept (by rw [himg]; exact Iff.rfl) (by rw [himg]; rfl) ?_
    intro hk
    rcases hp.killed hk with hk | rfl | rfl
    · exact Or.inl hk
    · exact Or.inr rfl
    · exact Or.inr rfl
  | setSp sp => exact .put (m := s.m) (.kept Iff.rfl rfl Or.inl)
  | sbrk _ _ hc =>
    refine .put ?_
    rw [(sysSbrk_env hc).2]
    exact .kept Iff.rfl rfl Or.inl
  | exec _ _ args hc =>
    obtain ⟨hstate, hpid, hkilled⟩ := kexec_killed args hc
    refine .put (.kept (by rw [hstate]) hpid ?_)
    rw [hkilled]
    exact Or.inl
  | files => exact .put (.kept Iff.rfl rfl Or.inl)
  | reap _ _ _ _ hf => exact .put (.freed (freeproc_env hf).2)
  | kill pid =>
    unfold kkill
    split
    · exact .refl s _ j
    · rename_i k hk
      refine .put (m := s.m) (.kept ?_ rfl (fun _ => Or.inr hk))
      by_cases hsl : (s.proc k).state = .sleeping
      · simp [hsl]
      · simp [hsl]
  | fork lt live hc =>
    rcases (kfork_slot hc).2 with heq | ⟨k, p, hu, heq, hp⟩
    · rw [heq]
      exact .refl s _ j
    · rw [heq]
      refine .put (m := s.m) ?_
      rcases hp with ⟨q, rfl⟩ | hp
      · exact .freed rfl
      · cases hp with
        | mk => exact .born hu nofun rfl
  | exit lt live hc =>
    rename_i k status
    unfold kexit at hc
    split at hc
    · nomatch hc
    obtain ⟨fs, -, hc⟩ := bind_ok hc
    obtain rfl := Except.ok.inj hc
    have hsame : (reparent k s.proc j).state = (s.proc j).state ∧ (reparent k s.proc j).pid = (s.proc j).pid ∧
        (reparent k s.proc j).killed = (s.proc j).killed := by
      unfold reparent
      split <;> exact ⟨rfl, rfl, rfl⟩
    obtain ⟨hstate, hpid, hkilled⟩ := hsame
    change SlotMark s _ j (Function.update (reparent k s.proc) k ((reparent k s.proc k).exited status) j)
    by_cases hjk : j = k
    · subst hjk
      rw [Function.update_self]
      refine .kept (iff_of_false nofun live.ne_unused) hpid ?_
      intro hk
      exact Or.inl (hkilled ▸ hk)
    · rw [Function.update_of_ne hjk]
      refine .kept (by rw [hstate]) hpid ?_
      rw [hkilled]
      exact Or.inl

/-! ## Free slots -/

/-- A free slot has no mark, and its pid is 0. -/
def FreeUnmarked (s : Sys) : Prop := ∀ j, (s.proc j).state = .unused → (s.proc j).killed = false ∧ (s.proc j).pid = 0

/-- An event that hits no free slot leaves none marked. -/
theorem SysStep.freeUnmarked (hfree : FreeUnmarked s) (hguard : ∀ pid, ev = .kill pid → ¬killsFree s pid) (hs : SysStep s ev t) :
    FreeUnmarked t := by
  intro j hu
  cases hs.slotMark (j := j) with
  | freed hq =>
    rw [hq]
    exact ⟨rfl, rfl⟩
  | kept hstate hpid hkilled =>
    have hsu := hstate.mp hu
    refine ⟨?_, hpid.trans (hfree j hsu).2⟩
    by_contra hk
    rcases hkilled (by simpa using hk) with hk | hk
    · rw [(hfree j hsu).1] at hk
      cases hk
    · cases ev with
      | kill pid => exact hguard pid rfl ⟨j, hk, hsu⟩
      | page i pev =>
        have hij : i = j := by cases pev <;> first | exact hk | exact hk.elim
        subst hij
        cases hs with
        | page _ live => exact live.ne_unused hsu
      | _ => exact hk.elim
  | born _ hne => exact absurd hu hne

/-- And so does an action. -/
theorem Step.freeUnmarked {a : Action} (hfree : FreeUnmarked s) (hguard : ∀ i pid, a = .kill i pid → ¬killsFree s pid) (h : Step s a t) :
    FreeUnmarked t := by
  have hevents : ∃ evs, Run (fun s ev t => (∀ pid, ev = .kill pid → ¬killsFree s pid) ∧ SysStep s ev t) s evs t := by
    refine h.silentEvents (K := fun u ev _ => ∀ pid, ev = .kill pid → ¬killsFree u pid) (fun _ _ _ _ _ => nofun)
      (fun _ _ _ _ _ _ => nofun) ?_ (fun _ _ _ _ => nofun) ?_
    · intro i pid ha pid' he
      rw [← Event.kill.inj he]
      exact hguard i pid ha
    · rintro u ev v hs pid rfl
      exact hs.elim
  obtain ⟨evs, hr⟩ := hevents
  exact hr.invariant FreeUnmarked (fun _ _ _ hx hs => hs.2.freeUnmarked hx hs.1) hfree

/-- Nobody was killed when the first process enters user mode. -/
theorem Boot.unmarked (hb : Boot s) : FreeUnmarked s ∧ ∀ j, (s.proc j).killed = false := by
  obtain ⟨s₀, j, m₁, tf, pt, fs, ip, m, p, argc, hb⟩ := hb.booted
  obtain ⟨hstate, -, hkilled⟩ := kexec_killed bootArgs_ok hb.exec
  have hslot : ∀ k, ((s.proc k).state = .unused → (s.proc k).pid = 0) ∧ (s.proc k).killed = false := by
    intro k
    rw [hb.result]
    change (((s₀.put j m p).proc k).state = .unused → ((s₀.put j m p).proc k).pid = 0) ∧ ((s₀.put j m p).proc k).killed = false
    by_cases hk : k = j
    · rw [hk, Sys.put_proc_self, hstate, hkilled]
      refine ⟨nofun, ?_⟩
      change (s₀.proc j).killed = false
      rw [hb.pre.proc]
      rfl
    · rw [Sys.put_proc_of_ne _ _ _ hk, hb.pre.proc]
      exact ⟨fun _ => rfl, rfl⟩
  exact ⟨fun k hk => ⟨(hslot k).2, (hslot k).1 hk⟩, fun k => (hslot k).2⟩

/-! ## Who is aimed at -/

/-- An action aims at process `j`: it is a `kkill` with its pid, or one in which the kernel may take page faults for process `j` and
marks it. -/
def Action.aimsAt (s : Sys) (j : Nat) (t : Sys) : Action → Prop
  | .kill _ pid => (s.proc j).pid = pid
  | .fault i _ _ | .copyout i _ _ | .copyin i _ _ | .wait i _ => i = j ∧ (s.proc j).killed = false ∧ (t.proc j).killed = true
  | _ => False

/-- A call on the memory of a process that leaves its mark. -/
theorem memCall_killed {α : Type} {call : Machine → Proc → Kern (Machine × Proc × α)} {i : Nat} (h : s.memCall call i = .ok t)
    (hcall : ∀ m p r, call s.m (s.proc i) = .ok (m, p, r) → p.killed = (s.proc i).killed) : (t.proc j).killed = (s.proc j).killed := by
  obtain ⟨m, p, r, hc, rfl⟩ := memCall_ok h
  by_cases hji : j = i
  · subst hji
    rw [Sys.put_proc_self]
    exact hcall m p r hc
  · rw [Sys.put_proc_of_ne _ _ _ hji]

/-- Only the process that makes a call on its memory can come out marked. -/
theorem memCall_marks {α : Type} {call : Machine → Proc → Kern (Machine × Proc × α)} {i : Nat} (h : s.memCall call i = .ok t)
    (hk : (t.proc j).killed = true) :
    (s.proc j).killed = true ∨ (i = j ∧ (s.proc j).killed = false ∧ (t.proc j).killed = true) := by
  obtain ⟨m, p, r, -, rfl⟩ := memCall_ok h
  by_cases hji : j = i
  · subst hji
    by_cases hs : (s.proc j).killed = true
    · exact Or.inl hs
    · exact Or.inr ⟨rfl, by simpa using hs, hk⟩
  · rw [Sys.put_proc_of_ne _ _ _ hji] at hk
    exact Or.inl hk

theorem evictPageFifo_killed {r : Bool} (h : evictPageFifo m p = .ok (m', p', r)) : p'.killed = p.killed := by
  rcases evictPageFifo_cases h with ⟨-, i, e, pte, hx⟩ | ⟨-, i, e, pte, slot, f, m₁, m₂, hx⟩ | ⟨-, hx⟩
  · rw [hx.proc]
    rfl
  · rw [hx.proc]
    rfl
  · cases hx <;> rfl

theorem fileCall_killed {α : Type} {call : Fs → Proc → Kern (Fs × Proc × α)} {i : Nat} (h : s.fileCall call i = .ok t)
    (hcall : ∀ fs p r, call s.m.fs (s.proc i) = .ok (fs, p, r) → p = { s.proc i with ofile := p.ofile, cwd := p.cwd }) :
    (t.proc j).killed = (s.proc j).killed := by
  obtain ⟨⟨fs, p, r⟩, hc, h⟩ := bind_ok h
  obtain rfl := Except.ok.inj h
  by_cases hji : j = i
  · subst hji
    rw [Sys.put_proc_self, hcall fs p r hc]
  · rw [Sys.put_proc_of_ne _ _ _ hji]

theorem fsCall_proc {α : Type} {call : Fs → Nat → Kern (Fs × α)} {i : Nat} (h : s.fsCall call i = .ok t) : t.proc = s.proc := by
  obtain ⟨⟨fs, r⟩, -, h⟩ := bind_ok h
  obtain rfl := Except.ok.inj h
  rfl

theorem kwait_marks {i addr : Nat} {o : Option Int} (hl : (s.proc i).live) (h : kwait s i addr = .ok (t, o))
    (hk : (t.proc j).killed = true) :
    (s.proc j).killed = true ∨ (i = j ∧ (s.proc j).killed = false ∧ (t.proc j).killed = true) := by
  have hput : ∀ (m : Machine) (p : Proc), t.proc j = (s.put i m p).proc j →
      (s.proc j).killed = true ∨ (i = j ∧ (s.proc j).killed = false ∧ (t.proc j).killed = true) := by
    intro m p heq
    by_cases hji : j = i
    · subst hji
      by_cases hs : (s.proc j).killed = true
      · exact Or.inl hs
      · exact Or.inr ⟨rfl, by simpa using hs, hk⟩
    · rw [heq, Sys.put_proc_of_ne _ _ _ hji] at hk
      exact Or.inl hk
  rcases kwait_cases hl h with rfl | ⟨k, -, hki, -, h⟩
  · exact Or.inl hk
  obtain ⟨m, p, -, rfl | ⟨m₁, np, hfree, rfl⟩⟩ := waitChild_cases hki h
  · exact hput m p rfl
  · by_cases hjk : j = k
    · subst hjk
      rw [Sys.put_proc_self, (freeproc_env hfree).2] at hk
      cases hk
    · exact hput m p (Sys.put_proc_of_ne _ _ _ hjk)

/-- An action after which a process is marked finds it marked, or aims at it. -/
theorem Step.marks {a : Action} (h : Step s a t) (hk : (t.proc j).killed = true) : (s.proc j).killed = true ∨ a.aimsAt s j t := by
  obtain ⟨hen, h⟩ := h
  -- an event that hits nobody marks nobody
  have hevent : ∀ ev, SysStep s ev t → ¬ev.hits s j → (s.proc j).killed = true := by
    intro ev hs hno
    cases hs.slotMark (j := j) with
    | freed hq =>
      rw [hq] at hk
      cases hk
    | kept _ _ hkilled => exact (hkilled hk).resolve_right hno
    | born _ _ hkilled => rwa [hkilled] at hk
  cases a with
  | store i a b =>
    obtain rfl := Except.ok.inj h
    exact Or.inl hk
  | setSp i sp =>
    obtain rfl := Except.ok.inj h
    exact Or.inl (hevent (.setSp i sp) (.setSp sp) id)
  | fault i a access =>
    simp only [perform] at h
    exact memCall_marks h hk
  | copyout i dstva src =>
    simp only [perform] at h
    exact memCall_marks h hk
  | copyin i srcva len =>
    simp only [perform] at h
    exact memCall_marks h hk
  | evict i =>
    simp only [perform] at h
    rw [memCall_killed h (fun _ _ _ hc => evictPageFifo_killed hc)] at hk
    exact Or.inl hk
  | sbrk i n eager =>
    simp only [perform] at h
    rw [memCall_killed h (fun _ _ _ hc => by rw [(sysSbrk_env hc).2])] at hk
    exact Or.inl hk
  | exec i path argv =>
    simp only [perform] at h
    have hargs : ArgsOk argv := fun x hx => lt_trans (hen.2.2 x hx) (by decide)
    rw [memCall_killed h (fun _ _ _ hc => (kexec_killed hargs hc).2.2)] at hk
    exact Or.inl hk
  | fork i =>
    obtain ⟨⟨u, o⟩, hf, h⟩ := bind_ok h
    obtain rfl := Except.ok.inj h
    exact Or.inl (hevent (.fork i) (.fork hen.1 hen.2.1 hf) id)
  | exit i status => exact Or.inl (hevent (.exit i) (.exit hen.1 hen.2 h) id)
  | wait i addr =>
    obtain ⟨⟨u, o⟩, hw, h⟩ := bind_ok h
    obtain rfl := Except.ok.inj h
    exact kwait_marks hen.2.1 hw hk
  | kill i pid =>
    obtain rfl := Except.ok.inj h
    by_cases hpid : (s.proc j).pid = pid
    · exact Or.inr hpid
    · exact Or.inl (hevent (.kill pid) (.kill pid) (fun hhit => hpid (of_decide_eq_true (firstProc_some hhit).1)))
  | «open» i path omode =>
    simp only [perform] at h
    rw [fileCall_killed h (fun _ _ _ hc => sysOpen_proc hc)] at hk
    exact Or.inl hk
  | close i fd =>
    simp only [perform] at h
    rw [fileCall_killed h (fun _ _ _ hc => sysClose_proc hc)] at hk
    exact Or.inl hk
  | dup i fd =>
    simp only [perform] at h
    rw [fileCall_killed h (fun _ _ _ hc => sysDup_proc hc)] at hk
    exact Or.inl hk
  | chdir i path =>
    simp only [perform] at h
    rw [fileCall_killed h (fun _ _ _ hc => sysChdir_proc hc)] at hk
    exact Or.inl hk
  | mkdir i path | mknod i path major minor | link i old new | unlink i path =>
    simp only [perform] at h
    rw [fsCall_proc h] at hk
    exact Or.inl hk
  | kalloc =>
    simp only [perform] at h
    split at h
    · obtain rfl := Except.ok.inj h
      exact Or.inl hk
    · obtain rfl := Except.ok.inj h
      exact Or.inl hk
  | kfree pa =>
    obtain ⟨m, -, h⟩ := bind_ok h
    obtain rfl := Except.ok.inj h
    exact Or.inl hk

/-! ## Runs -/

/-- A step whose kill hits no free slot. Beside the system stands who was aimed at since the process in its slot was made. -/
def AimedStep (x : Sys × (Nat → Prop)) (a : Action) (y : Sys × (Nat → Prop)) : Prop :=
  (∀ i pid, a = .kill i pid → ¬killsFree x.1 pid) ∧ Step x.1 a y.1 ∧
    y.2 = fun j => (x.1.proc j).state ≠ .unused ∧ (x.2 j ∨ a.aimsAt x.1 j y.1)

/-- The record can be kept beside every run. -/
theorem exists_aimed {as : List Action} (hr : Run (Guarded (fun s a => ∀ i pid, a = .kill i pid → ¬killsFree s pid) Step) s as t)
    (aimed : Nat → Prop) : ∃ aimed', Run AimedStep (s, aimed) as (t, aimed') := by
  induction hr with
  | nil => exact ⟨aimed, Run.nil _⟩
  | @snoc t u as a _ hs ih =>
    obtain ⟨aimed', hr'⟩ := ih
    exact ⟨fun j => (t.proc j).state ≠ .unused ∧ (aimed' j ∨ a.aimsAt t j u), hr'.snoc ⟨hs.1, hs.2, rfl⟩⟩

/-- A free slot has no mark, and a process with a mark was aimed at. -/
structure KillInv (x : Sys × (Nat → Prop)) : Prop where
  free : FreeUnmarked x.1
  aimed : ∀ j, (x.1.proc j).killed = true → x.2 j

theorem AimedStep.inv {x y : Sys × (Nat → Prop)} {a : Action} (hx : KillInv x) (h : AimedStep x a y) : KillInv y := by
  obtain ⟨hguard, hs, hy⟩ := h
  have hfree := hs.freeUnmarked hx.free hguard
  refine ⟨hfree, ?_⟩
  intro j hk
  rw [hy]
  rcases hs.marks hk with hmark | haims
  · refine ⟨?_, Or.inl (hx.aimed j hmark)⟩
    intro hu
    rw [(hx.free j hu).1] at hmark
    cases hmark
  · refine ⟨?_, Or.inr haims⟩
    -- what aims at a free slot is a kill, and it hits another slot
    intro hu
    cases a with
    | kill i pid =>
      have hstate : (y.1.proc j).state ≠ .unused := fun hu' => by
        rw [(hfree j hu').1] at hk
        cases hk
      obtain ⟨-, h⟩ := hs
      have hy1 : y.1 = kkill x.1 pid := (Except.ok.inj h).symm
      have hs' : SysStep x.1 (.kill pid) (kkill x.1 pid) := .kill pid
      rw [hy1] at hstate hk
      cases hs'.slotMark (j := j) with
      | freed hq =>
        rw [hq] at hk
        cases hk
      | kept hst _ _ => exact hstate (hst.mpr hu)
      | born _ _ hkilled =>
        rw [hkilled, (hx.free j hu).1] at hk
        cases hk
    | fault i | copyout i | copyin i =>
      obtain ⟨rfl, -⟩ := haims
      first | exact hs.1.1.2.1.ne_unused hu | exact hs.1.2.1.ne_unused hu
    | wait i =>
      obtain ⟨rfl, -⟩ := haims
      exact hs.1.2.1.ne_unused hu
    | _ => exact haims.elim

/-- In every run from boot in which no kill hits a free slot: a free slot has no mark, and neither has a process just made; each process
with a mark was aimed at, by its own pid or by its own fault, since it was made. Only a kill of pid 0 can hit a free slot, and one that
does leaves a mark on it. -/
theorem kills_hit_target {s t : Sys} {aimed : Nat → Prop} {as : List Action} (hb : Boot s)
    (hr : Run AimedStep (s, fun _ => False) as (t, aimed)) :
    (∀ j, (t.proc j).state = .unused → (t.proc j).killed = false) ∧
    (∀ i u j, Step t (.fork i) u → (t.proc j).state = .unused → (u.proc j).killed = false) ∧
    (∀ j, (t.proc j).killed = true → aimed j) ∧
    ∀ i pid u, Step t (.kill i pid) u → (killsFree t pid → pid = 0) ∧
      ((∀ j, (u.proc j).state = .unused → (u.proc j).killed = false) ↔ ¬killsFree t pid) := by
  have hinit : KillInv (s, fun _ => False) := by
    refine ⟨hb.unmarked.1, ?_⟩
    intro j hk
    rw [hb.unmarked.2 j] at hk
    cases hk
  have hinv := hr.invariant KillInv (fun _ _ _ hx h => h.inv hx) hinit
  refine ⟨fun j hj => (hinv.free j hj).1, ?_, hinv.aimed, ?_⟩
  · intro i u j hstep hj
    by_contra hk
    rcases hstep.marks (by simpa using hk) with hmark | haims
    · rw [(hinv.free j hj).1] at hmark
      cases hmark
    · exact haims
  · intro i pid u hstep
    obtain rfl := Except.ok.inj hstep.2
    refine ⟨?_, ?_, ?_⟩
    · rintro ⟨j, hj, hu⟩
      have hpid : (t.proc j).pid = pid := of_decide_eq_true (firstProc_some hj).1
      exact hpid.symm.trans (hinv.free j hu).2
    · rintro hall ⟨j, hj, hu⟩
      have hmark : ((kkill t pid).proc j).state = .unused ∧ ((kkill t pid).proc j).killed = true := by
        unfold kkill
        simp only [hj, Sys.modProc, Function.update_self, hu]
        exact ⟨rfl, trivial⟩
      rw [hall j hmark.1] at hmark
      cases hmark.2
    · intro hfree j hj
      refine (hstep.freeUnmarked hinv.free ?_ j hj).1
      rintro k pid' ⟨-, rfl⟩
      exact hfree

/-- A process kills its child. -/
def killChild : List Action := [.fork 0, .kill 0 2]

theorem kills_hit_target_child : ∃ t aimed, Run AimedStep (smallBoot smallFiles 32, fun _ => False) killChild (t, aimed) ∧
    (t.proc 1).killed = true ∧ aimed 1 ∧ ∀ j, (t.proc j).state = .unused → (t.proc j).killed = false := by
  have hex : (replayIf (fun s a => match a with
      | .kill _ pid => (firstProc (fun p => p.pid = pid) s.proc 0 nProc).all (fun j => (s.proc j).state ≠ .unused)
      | _ => true) (smallBoot smallFiles 32) killChild).any (fun t => (t.proc 1).killed) = true := by
    decide +kernel
  obtain ⟨t, ht, hk⟩ := (Option.any_eq_true _ _).mp hex
  have hr : Run (Guarded (fun s a => ∀ i pid, a = .kill i pid → ¬killsFree s pid) Step) (smallBoot smallFiles 32) killChild t :=
    replayIf_run (by
      rintro s _ h i pid rfl ⟨j, hj, hu⟩
      have hne := (Option.all_eq_true _ _).mp h j hj
      exact of_decide_eq_true hne hu) ht
  obtain ⟨aimed, hrun⟩ := exists_aimed hr (fun _ => False)
  obtain ⟨hfree, -, haimed, -⟩ := kills_hit_target smallBoot_init hrun
  exact ⟨t, aimed, hrun, hk, haimed 1 hk, hfree⟩

/-- A kill of pid 0 marks a free slot, and the next process made is killed from the start. -/
theorem kill_hits_free : ∃ t u, Boot (smallBoot smallFiles 32) ∧ Run Step (smallBoot smallFiles 32) [.kill 0 0] t ∧
    (t.proc 1).state = .unused ∧ (t.proc 1).killed = true ∧ Step t (.fork 0) u ∧ (u.proc 1).live ∧ (u.proc 1).killed = true := by
  have hex : (replay (smallBoot smallFiles 32) [.kill 0 0]).any (fun t => (t.proc 1).state = .unused ∧ (t.proc 1).killed ∧
      (replay t [.fork 0]).any (fun u => (u.proc 1).live ∧ (u.proc 1).killed)) = true := by
    decide +kernel
  obtain ⟨t, ht, hex⟩ := (Option.any_eq_true _ _).mp hex
  obtain ⟨hu, hk, hex⟩ := of_decide_eq_true hex
  obtain ⟨u, hfork, hex⟩ := (Option.any_eq_true _ _).mp hex
  obtain ⟨hlive, hku⟩ := of_decide_eq_true hex
  exact ⟨t, u, smallBoot_init, replay_run ht, hu, hk, (replay_run hfork).of_single, hlive, hku⟩

end Xv6SnifferBakery.Kernel
