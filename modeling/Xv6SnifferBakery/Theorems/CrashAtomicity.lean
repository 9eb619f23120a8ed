import Xv6SnifferBakery.Lemmas.Log

/-!
# Crash atomicity of the log

Whatever the history before a crash, and however often recovery itself is cut short, the home blocks end as they were after the
committed groups: those of every commit that returned, and the one whose header had reached the disk.
-/

namespace Xv6SnifferBakery.Kernel

open Lib

namespace LogSys

variable {α : Type} {start : Nat} {s t u : LogSys α}

/-- The events of `recover_from_log`, the loads of buffers in it, and the crashes that cut it short. -/
def Recovers : LogEvent α → Prop
  | .crash | .readHead | .recoverTrans | .recoverHead | .bread _ | .recycle _ => True
  | _ => False

/-! ## Recovery completes -/

theorem recover_run {n tail : Nat} (hpc : s.pc = .recover tail) (hn : s.lh.length = tail + n) :
    ∃ t, Run (Step start) s (List.replicate n .recoverTrans ++ [.recoverHead]) t := by
  induction n generalizing s tail with
  | zero =>
    have hend : s.lh[tail]? = none := List.getElem?_eq_none_iff.mpr (by omega)
    refine ⟨{ ({ s with lh := [] } : LogSys α).writeHead with pc := .idle }, Run.single ?_⟩
    simp only [Step, step, hpc, hend, if_true]
  | succ n ih =>
    have hb : s.lh[tail]? = some s.lh[tail] := List.getElem?_eq_getElem (by omega)
    obtain ⟨t, ht⟩ := ih (s := { installTurn start true s tail s.lh[tail] with pc := .recover (tail + 1) }) rfl
      (by change s.lh.length = _; omega)
    refine ⟨t, (Run.single ?_).append ht⟩
    simp only [Step, step, hpc, hb]

/-- After a crash at any point, a recovery that is not cut short completes. -/
theorem recovery_run (s : LogSys α) :
    ∃ t, Run (Step start) s (.crash :: .readHead :: (List.replicate s.head.length .recoverTrans ++ [.recoverHead])) t := by
  obtain ⟨t, ht⟩ : ∃ t, Run (Step start) { s.crash.readHead with pc := .recover 0 }
      (List.replicate s.head.length .recoverTrans ++ [.recoverHead]) t :=
    recover_run rfl (by change s.head.length = _; omega)
  have hcrash : Step start s .crash s.crash := rfl
  have hread : Step start s.crash .readHead { s.crash.readHead with pc := .recover 0 } := rfl
  exact ⟨t, (Run.single hcrash).append ((Run.single hread).append ht)⟩

/-! ## Recovery changes no group -/

theorem history_recovers {evs rs : List (LogEvent α)} (h : ∀ e ∈ rs, Recovers e) :
    (LogHistory.ofEvents (evs ++ rs)).committed = (LogHistory.ofEvents evs).committed := by
  induction rs generalizing evs with
  | nil => rw [List.append_nil]
  | cons e rs ih =>
    rw [List.append_cons, ih (fun e' he' => h e' (List.mem_cons_of_mem _ he')), LogHistory.ofEvents, List.foldl_append]
    have he := h e (List.mem_cons_self ..)
    cases e <;> first | rfl | exact he.elim

/-! ## Recovery of a clean disk -/

/-- The disk is `disk` with an empty header, and no system call has begun. -/
def Clean (disk : Nat → α) (s : LogSys α) : Prop :=
  s.disk = disk ∧ s.head = [] ∧ (s.pc = .idle ∨ s.pc = .readHead ∨ (∃ tail, s.pc = .recover tail) ∧ s.lh = [])

theorem Clean.step {disk : Nat → α} {e : LogEvent α} (h : Clean disk s) (he : Recovers e) (hs : Step start s e t) : Clean disk t := by
  obtain ⟨hd, hh, hpc⟩ := h
  cases e with
  | crash =>
    obtain rfl := Option.some.inj hs
    exact ⟨hd, hh, .inr (.inl rfl)⟩
  | bread b =>
    obtain rfl := Option.some.inj hs
    exact ⟨hd, hh, hpc⟩
  | recycle b =>
    obtain ⟨-, hs⟩ := Option.ite_none_right_eq_some.mp hs
    obtain rfl := Option.some.inj hs
    exact ⟨hd, hh, hpc⟩
  | readHead =>
    obtain ⟨-, hs⟩ := Option.ite_none_right_eq_some.mp hs
    obtain rfl := Option.some.inj hs
    exact ⟨hd, hh, .inr (.inr ⟨⟨0, rfl⟩, hh⟩)⟩
  | recoverTrans =>
    obtain ⟨tail, b, htail, hb, -⟩ := step_recoverTrans hs
    rcases hpc with hpc | hpc | ⟨-, hl⟩
    · rw [hpc] at htail
      cases htail
    · rw [hpc] at htail
      cases htail
    · -- the loop has no turn
      rw [hl] at hb
      cases hb
  | recoverHead =>
    obtain ⟨tail, -, -, rfl⟩ := step_recoverHead hs
    exact ⟨hd, rfl, .inl rfl⟩
  | _ => exact he.elim

theorem clean_run {disk : Nat → α} {rs : List (LogEvent α)} (h : Run (Step start) s rs t) (hrs : ∀ e ∈ rs, Recovers e)
    (hc : Clean disk s) : Clean disk t := by
  refine (h.guard hrs).invariant (Clean disk) ?_ hc
  rintro s e t hc ⟨he, hs⟩
  exact hc.step he hs

/-- A completed recovery leaves the disk clean. -/
theorem clean_recoverHead (h : Step start s .recoverHead t) : Clean t.disk t := by
  obtain ⟨tail, -, -, rfl⟩ := step_recoverHead h
  exact ⟨rfl, rfl, .inl rfl⟩

/-- Crash atomicity. After any history of transactions, crashes and recoveries on a disk of `mkfs`, a crash is followed by a recovery
that completes; and whenever a recovery completes, however often it was cut short, every home block is as after all committed
groups, those of every commit that returned among them, and recovering again changes nothing. -/
theorem log_crash_atomic {disk : Nat → α} {evs : List (LogEvent α)} (h : Run (Step start) (boot disk) evs s) :
    (∃ t, Run (Step start) s (.crash :: .readHead :: (List.replicate s.head.length .recoverTrans ++ [.recoverHead])) t) ∧
      ∀ rs t, Run (Step start) s (rs ++ [.recoverHead]) t → (∀ e ∈ rs, Recovers e) →
        (∀ b, Home start b → t.disk b = (LogHistory.ofEvents evs).blocks disk b) ∧
          (LogHistory.ofEvents evs).returned.Sublist (LogHistory.ofEvents evs).committed ∧
          ∀ rs' u, Run (Step start) t rs' u → (∀ e ∈ rs', Recovers e) → u.disk = t.disk ∧ u.head = t.head := by
  refine ⟨recovery_run s, ?_⟩
  intro rs t hrun hrs
  have hall : ∀ e ∈ rs ++ [LogEvent.recoverHead], Recovers e := by
    intro e he
    rcases List.mem_append.mp he with he | he
    · exact hrs e he
    · rw [List.mem_singleton.mp he]
      trivial
  obtain ⟨r, -, hlast⟩ := hrun.last
  have hclean := clean_recoverHead hlast
  have htrack := track_run (h.append hrun)
  refine ⟨?_, (track_run h).returned.sublist, ?_⟩
  · intro b hb
    have hrest := htrack.inv.disk.rest b hb (by rw [hclean.2.1]; exact List.not_mem_nil)
    rw [hrest, LogHistory.blocks, history_recovers hall]
    rfl
  · intro rs' u hrun' hrs'
    have hu := clean_run hrun' hrs' hclean
    exact ⟨hu.1, hu.2.1.trans hclean.2.1.symm⟩

/-- After the boot one transaction writes two blocks, and the machine stops when it has written the header and installed the first. -/
def cutInstall : List (LogEvent Nat) :=
  [.readHead, .recoverHead, .beginOp, .logWrite 40 7, .logWrite 41 8, .endOp, .commitStart, .writeLog, .writeLog, .writeHead,
    .installTrans]

theorem cutInstall_run : ∃ s, Run (Step 2) (boot fun _ => 0) cutInstall s := by
  have hsome : (cutInstall.foldlM (step 2) (boot fun _ => 0)).isSome = true := by decide
  obtain ⟨s, hs⟩ := Option.isSome_iff_exists.mp hsome
  exact ⟨s, Run.of_foldlM hs⟩

theorem log_crash_atomic_cutInstall :
    ∃ s, Run (Step 2) (boot fun _ => 0) cutInstall s ∧
      ∀ rs t, Run (Step 2) s (rs ++ [.recoverHead]) t → (∀ e ∈ rs, Recovers e) → t.disk 40 = 7 ∧ t.disk 41 = 8 := by
  obtain ⟨s, hs⟩ := cutInstall_run
  refine ⟨s, hs, ?_⟩
  intro rs t hrun hrs
  have h := ((log_crash_atomic hs).2 rs t hrun hrs).1
  exact ⟨h 40 (by decide), h 41 (by decide)⟩

end LogSys

end Xv6SnifferBakery.Kernel
