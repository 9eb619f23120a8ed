import Xv6SnifferBakery.Lemmas.Sched

/-!
# Sleep locks, wakeups and spinlocks across CPUs

A sleep lock has one owner at a time, and its fields name that owner. A process that sleeps on it is woken by whoever gives it back. The
spinlocks under all this are never waited for in a circle, and the checks of `acquire`, `release`, `pop_off` and `sched` never fail.
-/

namespace Xv6SnifferBakery.Sched

open Kernel (ProcState nProc)
open Lib

variable {s s' : State} {c i : Nat} {a : Act} {op : Op}

/-! ## Processes keep their identifiers -/

/-- The processes in use are in the table and have different identifiers. -/
structure Table (d : Data) : Prop where
  bound : ∀ i, (d.proc i).state ≠ .unused → i < nProc
  pids : ∀ i j, (d.proc i).state ≠ .unused → (d.proc j).state ≠ .unused → (d.proc i).pid = (d.proc j).pid → i = j

theorem Table.mono {d d' : Data} (h : Table d) (hpid : ∀ i, (d'.proc i).pid = (d.proc i).pid)
    (hused : ∀ i, (d'.proc i).state ≠ .unused → (d.proc i).state ≠ .unused) : Table d' where
  bound i hi := h.bound i (hused i hi)
  pids i j hi hj heq := h.pids i j (hused i hi) (hused j hj) (by rwa [← hpid, ← hpid])

theorem dispatch_proc (s : State) (c i j : Nat) :
    (s.dispatch c i).data.proc j = if j = i then { s.data.proc i with state := .running } else s.data.proc j := setProc_proc ..

theorem interrupt_pc (s : State) (c i j : Nat) : ((s.interrupt c i).thread j).pc = (s.thread j).pc := by
  by_cases hji : j = i
  · simp [State.interrupt, State.setThread, hji]
  · simp [State.interrupt, State.setThread, State.setCpu, hji]

/-- A step changes no identifier, and uses no slot that was unused. -/
theorem Moved.table (h : Moved s c a s') (hbooks : Books s) (j : Nat) :
    (s'.data.proc j).pid = (s.data.proc j).pid ∧ ((s'.data.proc j).state = .unused ↔ (s.data.proc j).state = .unused) := by
  cases h with
  | idle h => rw [h.data]; simp
  | dispatch i hctl hrun heq =>
    rw [heq, dispatch_proc]
    split
    · next hj => rw [hj, hrun]; simp
    · simp
  | interrupt i hctl hintr heq => rw [heq]; exact ⟨rfl, Iff.rfl⟩
  | thread i op hctl hop hpanic heq =>
    subst heq
    have hkept := op_kept hop j
    have hdata : (op.after s c i).data.proc j = (op.data s.data).proc j := rfl
    refine ⟨hkept.pid, ?_⟩
    rcases hkept.state with hstate | ⟨hsleep, hrun⟩ | ⟨rfl, -, hstate⟩
    · rw [hdata, hstate]
    · rw [hdata, hsleep, hrun]
      simp
    · rw [hdata, hbooks.running c j hctl]
      rcases hstate with hstate | hstate <;> simp [hstate]

theorem Table.step (h : Table s.data) (hbooks : Books s) (hmoved : Moved s c a s') : Table s'.data :=
  h.mono (fun i => (hmoved.table hbooks i).1) (fun i hi hno => hi ((hmoved.table hbooks i).2.mpr hno))

theorem table_init (h : Init s) : Table s.data where
  bound i hi := ((h.state i).resolve_left hi).1
  pids := h.pid

/-! ## One owner -/

/-- The owners of the sleep locks, the fields of the locks, and what the threads have read of them. -/
structure Owners (s : State) : Prop where
  reached : Mutex.Reached (fun i l => s.data.owns i l = true)
  locked : ∀ l, (s.data.slk l).locked = true ↔ ∃ i, s.data.owns i l = true
  pid : ∀ i l, s.data.owns i l = true → (s.data.slk l).pid = (s.data.proc i).pid
  used : ∀ i l, s.data.owns i l = true → (s.data.proc i).state ≠ .unused
  giving : ∀ i l, (s.thread i).pc = .releasesleep l ∨ (s.thread i).pc = .clear l → s.data.owns i l = true
  answer : ∀ i l r, (s.thread i).pc = .held l r → (r = true ↔ s.data.owns i l = true)

/-- Nothing that `Owners` speaks of has changed, but for the thread of process `i`. -/
theorem Owners.keep (h : Owners s) (hslk : s'.data.slk = s.data.slk) (howns : s'.data.owns = s.data.owns)
    (hproc : ∀ j, (s'.data.proc j).pid = (s.data.proc j).pid ∧ ((s'.data.proc j).state = .unused ↔ (s.data.proc j).state = .unused))
    (hgiving : ∀ j l, (s'.thread j).pc = .releasesleep l ∨ (s'.thread j).pc = .clear l → s.data.owns j l = true)
    (hanswer : ∀ j l r, (s'.thread j).pc = .held l r → (r = true ↔ s.data.owns j l = true)) : Owners s' where
  reached := by
    rw [howns]
    exact h.reached
  locked l := by
    rw [hslk, howns]
    exact h.locked l
  pid j l hj := by
    rw [howns] at hj
    rw [hslk, (hproc j).1]
    exact h.pid j l hj
  used j l hj hno := by
    rw [howns] at hj
    exact h.used j l hj ((hproc j).2.mp hno)
  giving j l hj := by
    rw [howns]
    exact hgiving j l hj
  answer j l r hj := by
    rw [howns]
    exact hanswer j l r hj

theorem setOwns_owns (d : Data) (i l : Nat) (b : Bool) (j k : Nat) :
    (d.setOwns i l b).owns j k = if j = i ∧ k = l then b else d.owns j k := by
  by_cases hj : j = i
  · subst hj
    by_cases hk : k = l <;> simp [Data.setOwns, hk]
  · simp [Data.setOwns, hj]

theorem setSlk_slk (d : Data) (l k : Nat) (x : Sleeplock) : (d.setSlk l x).slk k = if k = l then x else d.slk k := by
  simp [Data.setSlk, Function.update_apply]

theorem owns_take (d : Data) (i l j k : Nat) (x : Sleeplock) :
    ((d.setSlk l x).setOwns i l true).owns j k = true ↔ d.owns j k = true ∨ (j = i ∧ k = l) := by
  rw [setOwns_owns]
  split
  · next hjk => simp [hjk]
  · next hjk => simp [hjk, Data.setSlk]

theorem owns_drop (d : Data) (i l j k : Nat) (x : Sleeplock) :
    ((d.setSlk l x).setOwns i l false).owns j k = true ↔ d.owns j k = true ∧ ¬(j = i ∧ k = l) := by
  rw [setOwns_owns]
  split
  · next hjk => simp [hjk]
  · next hjk => simp [hjk, Data.setSlk]

/-- Process `i` gets a lock that is free; its thread is not where an answer of `holdingsleep` counts. -/
theorem Owners.take {l : Nat} (h : Owners s) (hfree : (s.data.slk l).locked = false)
    (hslk : ∀ k, s'.data.slk k = if k = l then ⟨true, (s.data.proc i).pid⟩ else s.data.slk k)
    (howns : ∀ j k, s'.data.owns j k = true ↔ s.data.owns j k = true ∨ (j = i ∧ k = l))
    (hproc : ∀ j, (s'.data.proc j).pid = (s.data.proc j).pid ∧ ((s'.data.proc j).state = .unused ↔ (s.data.proc j).state = .unused))
    (hused : (s.data.proc i).state ≠ .unused)
    (hgiving : ∀ j k, (s'.thread j).pc = .releasesleep k ∨ (s'.thread j).pc = .clear k → s.data.owns j k = true)
    (hanswer : ∀ j k r, (s'.thread j).pc = .held k r → (r = true ↔ s.data.owns j k = true))
    (hpc : ∀ k r, (s'.thread i).pc ≠ .held k r) : Owners s' := by
  have hnone (j : Nat) : ¬s.data.owns j l = true := by
    intro hj
    rw [(h.locked l).mpr ⟨j, hj⟩] at hfree
    cases hfree
  refine ⟨h.reached.take hnone howns, fun k => ?_, fun j k hj => ?_, fun j k hj hno => ?_, fun j k hj => ?_, fun j k r hj => ?_⟩
  · simp only [howns, hslk]
    split
    · next hk => exact ⟨fun _ => ⟨i, .inr ⟨rfl, hk⟩⟩, fun _ => rfl⟩
    · next hk => simp [hk, h.locked k]
  · rw [hslk, (hproc j).1]
    rcases (howns j k).mp hj with hj | ⟨rfl, rfl⟩
    · have hk : k ≠ l := by
        rintro rfl
        exact hnone j hj
      rw [if_neg hk]
      exact h.pid j k hj
    · rw [if_pos rfl]
  · have hno := (hproc j).2.mp hno
    rcases (howns j k).mp hj with hj | ⟨rfl, rfl⟩
    · exact h.used j k hj hno
    · exact hused hno
  · exact (howns j k).mpr (.inl (hgiving j k hj))
  · have hji : j ≠ i := by
      rintro rfl
      exact hpc k r hj
    refine (hanswer j k r hj).trans ((howns j k).trans ?_).symm
    simp [hji]

/-- Process `i` gives up a lock of its own. -/
theorem Owners.drop {l : Nat} (h : Owners s) (hi : s.data.owns i l = true)
    (hslk : ∀ k, s'.data.slk k = if k = l then ⟨false, 0⟩ else s.data.slk k)
    (howns : ∀ j k, s'.data.owns j k = true ↔ s.data.owns j k = true ∧ ¬(j = i ∧ k = l))
    (hproc : ∀ j, (s'.data.proc j).pid = (s.data.proc j).pid ∧ ((s'.data.proc j).state = .unused ↔ (s.data.proc j).state = .unused))
    (hgiving : ∀ j k, (s'.thread j).pc = .releasesleep k ∨ (s'.thread j).pc = .clear k → s.data.owns j k = true)
    (hanswer : ∀ j k r, (s'.thread j).pc = .held k r → (r = true ↔ s.data.owns j k = true))
    (hgave : ∀ k, ¬((s'.thread i).pc = .releasesleep k ∨ (s'.thread i).pc = .clear k)) (hpc : ∀ k r, (s'.thread i).pc ≠ .held k r) :
    Owners s' := by
  refine ⟨h.reached.drop hi howns, fun k => ?_, fun j k hj => ?_, fun j k hj hno => ?_, fun j k hj => ?_, fun j k r hj => ?_⟩
  · simp only [howns, hslk]
    split
    · next hk =>
      refine ⟨fun hf => (by cases hf), ?_⟩
      rintro ⟨j, hj, hne⟩
      rw [hk] at hj
      exact absurd ⟨h.reached.unique hj hi, hk⟩ hne
    · next hk => simp [hk, h.locked k]
  · obtain ⟨hj, hne⟩ := (howns j k).mp hj
    have hk : k ≠ l := by
      rintro rfl
      exact hne ⟨h.reached.unique hj hi, rfl⟩
    rw [hslk, if_neg hk, (hproc j).1]
    exact h.pid j k hj
  · exact h.used j k ((howns j k).mp hj).1 ((hproc j).2.mp hno)
  · have hji : j ≠ i := by
      rintro rfl
      exact hgave k hj
    exact (howns j k).mpr ⟨hgiving j k hj, fun hjk => hji hjk.1⟩
  · have hji : j ≠ i := by
      rintro rfl
      exact hpc k r hj
    refine (hanswer j k r hj).trans ((howns j k).trans ?_).symm
    simp [hji]

/-- `holdingsleep` tells who the owner is. -/
theorem Owners.holding (h : Owners s) (htable : Table s.data) (hrun : (s.data.proc i).state ≠ .unused) (l : Nat) :
    ((s.data.slk l).locked && (s.data.slk l).pid = (s.data.proc i).pid) = true ↔ s.data.owns i l = true := by
  rw [Bool.and_eq_true, decide_eq_true_iff]
  constructor
  · rintro ⟨hlocked, hpid⟩
    obtain ⟨j, hj⟩ := (h.locked l).mp hlocked
    have hji : j = i := htable.pids j i (h.used j l hj) hrun ((h.pid j l hj).symm.trans hpid)
    rwa [← hji]
  · intro hi
    exact ⟨(h.locked l).mpr ⟨i, hi⟩, h.pid i l hi⟩

/-- The position after an operation: a thread in a trap, which holds no spinlock outside of it, keeps its position. -/
theorem after_pc (hbooks : Books s) (hop : (s.thread i).op s.data i (s.cpus c).intr a = some op) (hpanic : ∀ msg, op ≠ .panic msg) :
    (((op.after s c i).thread i).pc = (s.thread i).pc ∧ (s.thread i).pc.locks i = []) ∨
      (s.thread i).pc.From s.data i (s.cpus c).intena ((op.after s c i).thread i).pc := by
  rw [after_thread]
  rcases op_cases hop with ⟨-, hcode⟩ | ⟨t, ht, rfl⟩
  · exact .inr (code_from _ hcode hpanic)
  · exact .inl ⟨by cases t <;> rfl, hbooks.trap i (by simp [ht])⟩

theorem Owners.thread (h : Owners s) (hbooks : Books s) (htable : Table s.data) (hctl : (s.cpus c).ctl = .away i)
    (hop : (s.thread i).op s.data i (s.cpus c).intr a = some op) (hpanic : ∀ msg, op ≠ .panic msg) : Owners (op.after s c i) := by
  have hproc := (Moved.thread i op hctl hop hpanic rfl).table hbooks
  have hused : (s.data.proc i).state ≠ .unused := by simp [hbooks.running c i hctl]
  have hgiving (j l : Nat) (hj : ((op.after s c i).thread j).pc = .releasesleep l ∨ ((op.after s c i).thread j).pc = .clear l) :
      s.data.owns j l = true := by
    by_cases hji : j = i
    · subst hji
      rcases after_pc hbooks hop hpanic with ⟨heq, -⟩ | hfrom
      · rw [heq] at hj
        exact h.giving j l hj
      · rcases hj with hj | hj <;> rw [hj] at hfrom
        · exact (h.answer j l true hfrom).mp rfl
        · exact h.giving j l (.inl hfrom)
    · rw [after_thread_of_ne hji] at hj
      exact h.giving j l hj
  have hanswer (j l : Nat) (r : Bool) (hj : ((op.after s c i).thread j).pc = .held l r) : r = true ↔ s.data.owns j l = true := by
    by_cases hji : j = i
    · subst hji
      rcases after_pc hbooks hop hpanic with ⟨heq, -⟩ | hfrom
      · rw [heq] at hj
        exact h.answer j l r hj
      · rw [hj] at hfrom
        rw [hfrom.2]
        exact h.holding htable hused l
    · rw [after_thread_of_ne hji] at hj
      exact h.answer j l r hj
  rcases op_slk hop with ⟨hslk, howns⟩ | ⟨l, -, -, hfree, rfl⟩ | ⟨l, -, hpc, rfl⟩
  · exact h.keep hslk howns hproc hgiving hanswer
  · refine h.take hfree (setSlk_slk _ l · _) (owns_take _ i l · · _) hproc hused hgiving hanswer (fun k r hj => ?_)
    rw [after_thread] at hj
    cases hj
  · refine h.drop (h.giving i l (.inr hpc)) (setSlk_slk _ l · _) (owns_drop _ i l · · _) hproc hgiving hanswer (fun k hj => ?_)
      (fun k r hj => ?_)
    · rw [after_thread] at hj
      rcases hj with hj | hj <;> cases hj
    · rw [after_thread] at hj
      cases hj

theorem Owners.step (h : Owners s) (hbooks : Books s) (htable : Table s.data) (hmoved : Moved s c a s') : Owners s' := by
  have hproc := hmoved.table hbooks
  cases hmoved with
  | idle hidle =>
    refine h.keep (by rw [hidle.data]) (by rw [hidle.data]) hproc (fun j l hj => ?_) (fun j l r hj => ?_) <;> rw [hidle.thread] at hj
    · exact h.giving j l hj
    · exact h.answer j l r hj
  | dispatch i hctl hrun heq =>
    subst heq
    exact h.keep rfl rfl hproc h.giving h.answer
  | interrupt i hctl hintr heq =>
    subst heq
    refine h.keep rfl rfl hproc (fun j l hj => ?_) (fun j l r hj => ?_) <;> rw [interrupt_pc] at hj
    · exact h.giving j l hj
    · exact h.answer j l r hj
  | thread i op hctl hop hpanic heq =>
    subst heq
    exact h.thread hbooks htable hctl hop hpanic

theorem owners_init (h : Init s) : Owners s where
  reached := .init (by simp [h.owns])
  locked l := by simp [h.slk, h.owns]
  pid i l hi := by simp [h.owns] at hi
  used i l hi := by simp [h.owns] at hi
  giving i l hi := by simp [(h.thread i).1] at hi
  answer i l r hi := by simp [(h.thread i).1] at hi

/-! ## No wakeup is lost -/

/-- Process `i` sleeps on the sleep lock `l`. -/
def State.Asleep (s : State) (i l : Nat) : Prop := (s.data.proc i).state = .sleeping ∧ (s.data.proc i).chan = some l

/-- A process that gives `l` back is in `wakeup`, and has not come past process `i`. -/
def State.Waking (s : State) (l i : Nat) : Prop :=
  ∃ c j k, (s.cpus c).ctl = .away j ∧ (s.thread j).trap = none ∧ ((s.thread j).pc = .wakeup l k ∨ (s.thread j).pc = .wakeupTest l k) ∧ k ≤ i

/-- Who sleeps, or is about to, will be woken: by the owner of the lock, or by who is in `wakeup`. -/
structure Wakes (s : State) : Prop where
  going : ∀ i l, (s.thread i).pc = .sleep l ∨ (s.thread i).pc = .sleepRelease l → (s.data.slk l).locked = true
  woken : ∀ i l, s.Asleep i l ∨ (s.thread i).pc = .sleepSched l → (s.data.slk l).locked = true ∨ s.Waking l i

/-- A thread that holds a spinlock where it stands is not in a trap. -/
theorem Books.untrapped (h : Books s) {k : LockId} (hk : k ∈ (s.thread i).pc.locks i) : (s.thread i).trap = none := by
  by_contra hne
  rw [h.trap i hne] at hk
  cases hk

/-- In the middle of a lock operation two threads do not hold one spinlock. -/
theorem Books.apart (h : Books s) {j : Nat} {k : LockId} (hi : k ∈ (s.thread i).pc.locks i) (hj : k ∈ (s.thread j).pc.locks j)
    (hi' : ¬(s.thread i).Resumes) (hj' : ¬(s.thread j).Resumes) : i = j := by
  refine h.exclusive (k := k) ?_ ?_ hi' hj'
  · rwa [Thread.locks, h.untrapped hi]
  · rwa [Thread.locks, h.untrapped hj]

theorem not_resumes {th : Thread} (htrap : th.trap = none) (hfork : th.pc ≠ .forkret) (hback : ∀ l b, th.pc ≠ .sleepBack l b) : ¬th.Resumes := by
  rintro (⟨-, hpc | ⟨l, b, hpc⟩⟩ | ⟨b, hb⟩)
  · exact hfork hpc
  · exact hback l b hpc
  · rw [htrap] at hb
    cases hb

/-- Who is asleep after the step of a thread was so before it, or was about to be. -/
theorem asleep_before {j l : Nat} (hbooks : Books s) (hctl : (s.cpus c).ctl = .away i)
    (hop : (s.thread i).op s.data i (s.cpus c).intr a = some op) (hj : (op.after s c i).Asleep j l) :
    s.Asleep j l ∧ j ≠ i ∨ j = i ∧ (s.thread i).pc = .sleepSched l := by
  have hkept := op_kept hop j
  obtain ⟨hstate, hchan⟩ := hj
  rcases hkept.state with heq | ⟨-, hrun⟩ | ⟨rfl, ⟨d, f, rfl⟩, -⟩
  · have hsleep : (s.data.proc j).state = .sleeping := heq.symm.trans hstate
    have hji : j ≠ i := by
      rintro rfl
      rw [hbooks.running c j hctl] at hsleep
      cases hsleep
    exact .inl ⟨⟨hsleep, (hkept.chan.resolve_right hji).symm.trans hchan⟩, hji⟩
  · rw [show (op.after s c i).data.proc j = (op.data s.data).proc j from rfl, hrun] at hstate
    cases hstate
  · refine .inr ⟨rfl, ?_⟩
    rcases op_cases hop with ⟨-, hcode⟩ | ⟨t, -, ht⟩
    · obtain ⟨l', hpc, rfl⟩ := code_sched hcode
      have hl : l' = l := by simpa [Op.after, Op.data, setProc_proc] using hchan
      rw [hpc, hl]
    · cases t <;> cases ht
      simp [Op.after, Op.data, setProc_proc] at hstate

/-- Who is about to sleep after the step of a thread was so before it, or is the thread, and the lock is taken. -/
theorem going_before {j l : Nat} (h : Wakes s) (hbooks : Books s)
    (hop : (s.thread i).op s.data i (s.cpus c).intr a = some op) (hpanic : ∀ msg, op ≠ .panic msg)
    (hj : ((op.after s c i).thread j).pc = .sleepSched l) :
    (s.thread j).pc = .sleepSched l ∧ j ≠ i ∨ j = i ∧ (s.thread i).pc = .sleepRelease l ∧ (s.data.slk l).locked = true := by
  by_cases hji : j = i
  · subst hji
    rcases after_pc hbooks hop hpanic with ⟨heq, hnil⟩ | hfrom
    · rw [heq] at hj
      rw [hj] at hnil
      cases hnil
    · rw [hj] at hfrom
      exact .inr ⟨rfl, hfrom, h.going j l (.inr hfrom)⟩
  · rw [after_thread_of_ne hji] at hj
    exact .inl ⟨hj, hji⟩

/-- A sleep lock stays taken, unless the thread gives it back. -/
theorem locked_after {l : Nat} (hop : (s.thread i).op s.data i (s.cpus c).intr a = some op) (hl : (s.data.slk l).locked = true) :
    ((op.after s c i).data.slk l).locked = true ∨
      (s.thread i).pc = .clear l ∧ (op.after s c i).thread i = { s.thread i with pc := .wakeup l 0 } ∧ (s.thread i).trap = none ∧
        ∀ d f, op ≠ .sched d f := by
  have hdata : (op.after s c i).data = op.data s.data := rfl
  rcases op_slk hop with ⟨hslk, -⟩ | ⟨l', -, -, hfree, rfl⟩ | ⟨l', htrap, hpc, rfl⟩
  · rw [hdata, hslk]
    exact .inl hl
  · rw [hdata]
    refine .inl ?_
    by_cases hll : l = l'
    · rw [hll, hfree] at hl
      cases hl
    · simpa [Op.data, Data.setOwns, setSlk_slk, hll] using hl
  · by_cases hll : l = l'
    · subst hll
      exact .inr ⟨hpc, after_thread .., htrap, fun d f hno => by cases hno⟩
    · rw [hdata]
      exact .inl (by simpa [Op.data, Data.setOwns, setSlk_slk, hll] using hl)

/-- A thread that has not left its CPU. -/
theorem after_stays (hctl : (s.cpus c).ctl = .away i) (hno : ∀ d f, op ≠ .sched d f) : ((op.after s c i).cpus c).ctl = .away i := by
  rcases after_ctl op hctl with ⟨haway, -⟩ | ⟨-, d, f, hsched⟩
  · exact haway
  · exact absurd hsched (hno d f)

/-- What the next operation in `wakeup` is. -/
theorem wakeup_op {l k : Nat} (htrap : (s.thread i).trap = none) (hpc : (s.thread i).pc = .wakeup l k)
    (hop : (s.thread i).op s.data i (s.cpus c).intr a = some op) :
    nProc ≤ k ∨ (k = i ∧ op = .goto s.data { s.thread i with pc := .wakeup l (k + 1) }) ∨
      op = .acquire (.proc k) { s.thread i with pc := .wakeupTest l k } := by
  rcases op_cases hop with ⟨-, hcode⟩ | ⟨t, ht, -⟩
  · unfold Thread.code at hcode
    rw [hpc] at hcode
    dsimp only at hcode
    split at hcode
    · split at hcode
      · next hk => exact .inr (.inl ⟨hk, (Option.some.inj hcode).symm⟩)
      · exact .inr (.inr (Option.some.inj hcode).symm)
    · next hk => exact .inl (Nat.not_lt.mp hk)
  · rw [htrap] at ht
    cases ht

theorem wakeupTest_op {l k : Nat} (htrap : (s.thread i).trap = none) (hpc : (s.thread i).pc = .wakeupTest l k)
    (hop : (s.thread i).op s.data i (s.cpus c).intr a = some op) :
    op = .release (if (s.data.proc k).chan = some l then s.data.setProc k (s.data.proc k).awake else s.data) (.proc k)
      { s.thread i with pc := .wakeup l (k + 1) } := by
  rcases op_cases hop with ⟨-, hcode⟩ | ⟨t, ht, -⟩
  · unfold Thread.code at hcode
    rw [hpc] at hcode
    exact (Option.some.inj hcode).symm
  · rw [htrap] at ht
    cases ht

/-- Who sleeps is not running. -/
theorem Books.not_asleep (h : Books s) (hctl : (s.cpus c).ctl = .away i) {l : Nat} : ¬s.Asleep i l := by
  rintro ⟨hsleep, -⟩
  rw [h.running c i hctl] at hsleep
  cases hsleep

theorem asleep_bound {j l : Nat} (hbooks : Books s) (htable : Table s.data) (hj : s.Asleep j l ∨ (s.thread j).pc = .sleepSched l) : j < nProc := by
  refine htable.bound j (fun hno => ?_)
  rcases hj with ⟨hsleep, -⟩ | hpc
  · rw [hno] at hsleep
    cases hsleep
  · have htrap : (s.thread j).trap = none := hbooks.untrapped (k := .proc j) (by simp [hpc, Pc.locks])
    obtain ⟨x, hx⟩ := not_forall_not.mp (fun hall => not_resumes htrap (by simp [hpc]) (by simp [hpc]) (hbooks.parked j hall))
    rw [hbooks.running x j hx] at hno
    cases hno

/-- Who is in `wakeup` at process `j` has its spinlock: the process is not about to sleep. -/
theorem Books.wakeup_apart {w j l l' : Nat} (h : Books s) (hw : (s.thread w).pc = .wakeupTest l j) : (s.thread j).pc ≠ .sleepSched l' := by
  intro hj
  have hwl : LockId.proc j ∈ (s.thread w).pc.locks w := by simp [hw, Pc.locks]
  have hjl : LockId.proc j ∈ (s.thread j).pc.locks j := by simp [hj, Pc.locks]
  have hwj : w = j := h.apart hwl hjl (not_resumes (h.untrapped hwl) (by simp [hw]) (by simp [hw]))
    (not_resumes (h.untrapped hjl) (by simp [hj]) (by simp [hj]))
  rw [hwj, hj] at hw
  cases hw

/-- Who wakes the sleepers of `l` goes on to do so, and comes past process `j` only when that neither sleeps nor is about to. -/
theorem waking_after {j l : Nat} (hbooks : Books s) (htable : Table s.data) (hctl : (s.cpus c).ctl = .away i)
    (hop : (s.thread i).op s.data i (s.cpus c).intr a = some op)
    (hj : s.Asleep j l ∨ (s.thread j).pc = .sleepSched l) (hj' : (op.after s c i).Asleep j l ∨ ((op.after s c i).thread j).pc = .sleepSched l)
    (hw : s.Waking l j) : (op.after s c i).Waking l j := by
  have hbound := asleep_bound hbooks htable hj
  obtain ⟨x, w, k, hx, htrap, hpc, hk⟩ := hw
  by_cases hwi : w = i
  · rw [hwi] at hx htrap hpc
    have hji (hpcj : (s.thread i).pc ≠ .sleepSched l) : j ≠ i := by
      rintro rfl
      rcases hj with hsleep | hsched
      · exact hbooks.not_asleep hctl hsleep
      · exact hpcj hsched
    rcases hpc with hpc | hpc
    · have hne : j ≠ i := hji (by simp [hpc])
      rcases wakeup_op htrap hpc hop with hend | ⟨rfl, rfl⟩ | rfl
      · omega
      · exact ⟨c, k, k + 1, after_stays hctl (by simp), by rw [after_thread]; exact htrap, .inl (by rw [after_thread]; rfl), by omega⟩
      · exact ⟨c, i, k, after_stays hctl (by simp), by rw [after_thread]; exact htrap, .inr (by rw [after_thread]; rfl), hk⟩
    · have hne : j ≠ i := hji (by simp [hpc])
      obtain rfl := wakeupTest_op htrap hpc hop
      have hkj : k ≠ j := by
        rintro rfl
        rcases hj' with ⟨hsleep, -⟩ | hsched
        · rcases hj with ⟨hstate, hchan⟩ | hsched
          · simp [Op.after, Op.data, hchan, setProc_proc, Proc.awake, hstate] at hsleep
          · exact hbooks.wakeup_apart hpc hsched
        · rw [after_thread_of_ne hne] at hsched
          exact hbooks.wakeup_apart hpc hsched
      exact ⟨c, i, k + 1, after_stays hctl (by simp), by rw [after_thread]; exact htrap, .inl (by rw [after_thread]; rfl), by omega⟩
  · have hxc : x ≠ c := by
      rintro rfl
      rw [hctl] at hx
      exact hwi (Ctl.away.inj hx).symm
    refine ⟨x, w, k, ?_, ?_, ?_, hk⟩
    · rwa [after_cpu_of_ne hxc]
    · rwa [after_thread_of_ne hwi]
    · rwa [after_thread_of_ne hwi]

theorem Wakes.thread (h : Wakes s) (hbooks : Books s) (htable : Table s.data) (hctl : (s.cpus c).ctl = .away i)
    (hop : (s.thread i).op s.data i (s.cpus c).intr a = some op) (hpanic : ∀ msg, op ≠ .panic msg) : Wakes (op.after s c i) where
  going j l hj := by
    have hgoing : (s.data.slk l).locked = true ∧ ¬(s.thread i).pc = .clear l := by
      by_cases hji : j = i
      · subst hji
        rcases after_pc hbooks hop hpanic with ⟨heq, hnil⟩ | hfrom
        · rw [heq] at hj
          rcases hj with hj | hj <;> rw [hj] at hnil <;> cases hnil
        · rcases hj with hj | hj <;> rw [hj] at hfrom
          · exact ⟨hfrom.2, by simp [hfrom.1]⟩
          · exact ⟨h.going j l (.inl hfrom), by simp [show (s.thread j).pc = .sleep l from hfrom]⟩
      · rw [after_thread_of_ne hji] at hj
        refine ⟨h.going j l hj, fun hclear => hji ?_⟩
        have hil : LockId.lk l ∈ (s.thread i).pc.locks i := by simp [hclear, Pc.locks]
        have hjl : LockId.lk l ∈ (s.thread j).pc.locks j := by rcases hj with hj | hj <;> simp [hj, Pc.locks]
        exact hbooks.apart hjl hil (not_resumes (hbooks.untrapped hjl) (by rcases hj with hj | hj <;> simp [hj]) (by rcases hj with hj | hj <;> simp [hj]))
          (not_resumes (hbooks.untrapped hil) (by simp [hclear]) (by simp [hclear]))
    exact (locked_after hop hgoing.1).resolve_right (fun hc => hgoing.2 hc.1)
  woken j l hj' := by
    have hbefore : (s.Asleep j l ∨ (s.thread j).pc = .sleepSched l) ∨ (s.data.slk l).locked = true ∧ ¬(s.thread i).pc = .clear l := by
      rcases hj' with hj' | hj'
      · rcases asleep_before hbooks hctl hop hj' with ⟨hj, -⟩ | ⟨rfl, hj⟩
        · exact .inl (.inl hj)
        · exact .inl (.inr hj)
      · rcases going_before h hbooks hop hpanic hj' with ⟨hj, -⟩ | ⟨-, hpc, hl⟩
        · exact .inl (.inr hj)
        · exact .inr ⟨hl, by simp [hpc]⟩
    rcases hbefore with hj | ⟨hl, hclear⟩
    · rcases h.woken j l hj with hl | hw
      · rcases locked_after hop hl with hl' | ⟨-, hth, htrap, hno⟩
        · exact .inl hl'
        · exact .inr ⟨c, i, 0, after_stays hctl hno, by rw [hth]; exact htrap, .inl (by rw [hth]), Nat.zero_le _⟩
      · exact .inr (waking_after hbooks htable hctl hop hj hj' hw)
    · exact .inl ((locked_after hop hl).resolve_right (fun hc => hclear hc.1))

theorem Wakes.step (h : Wakes s) (hbooks : Books s) (htable : Table s.data) (hmoved : Moved s c a s') : Wakes s' := by
  cases hmoved with
  | idle hidle =>
    refine ⟨fun j l hj => ?_, fun j l hj => ?_⟩
    · rw [hidle.thread] at hj
      rw [hidle.data]
      exact h.going j l hj
    · have hj : s.Asleep j l ∨ (s.thread j).pc = .sleepSched l := by
        rw [State.Asleep, hidle.data, hidle.thread] at hj
        exact hj
      rw [hidle.data, State.Waking, hidle.thread]
      refine (h.woken j l hj).imp_right ?_
      rintro ⟨x, w, k, hx, hw⟩
      exact ⟨x, w, k, hidle.away.mpr hx, hw⟩
  | dispatch i hctl hrun heq =>
    subst heq
    refine ⟨h.going, fun j l hj => ?_⟩
    have hj : s.Asleep j l ∨ (s.thread j).pc = .sleepSched l := by
      refine hj.imp_left (fun ⟨hsleep, hchan⟩ => ?_)
      rw [dispatch_proc] at hsleep hchan
      split at hsleep
      · cases hsleep
      · next hji =>
        rw [if_neg hji] at hchan
        exact ⟨hsleep, hchan⟩
    refine (h.woken j l hj).imp_right ?_
    rintro ⟨x, w, k, hx, hw⟩
    refine ⟨x, w, k, ?_, hw⟩
    have hxc : x ≠ c := by
      rintro rfl
      rw [hctl] at hx
      cases hx
    simpa [State.dispatch, State.setCpu, hxc] using hx
  | interrupt i hctl hintr heq =>
    subst heq
    obtain ⟨htrap, hnil⟩ := hbooks.interruptible hctl hintr
    refine ⟨fun j l hj => ?_, fun j l hj => ?_⟩
    · rw [interrupt_pc] at hj
      exact h.going j l hj
    · rw [interrupt_pc] at hj
      refine (h.woken j l hj).imp_right ?_
      rintro ⟨x, w, k, hx, hw, hwpc, hk⟩
      have hwi : w ≠ i := by
        rintro rfl
        rcases hwpc with hwpc | hwpc <;> rw [hwpc] at hnil <;> cases hnil
      have hxc : x ≠ c := by
        rintro rfl
        rw [hctl] at hx
        exact hwi (Ctl.away.inj hx).symm
      refine ⟨x, w, k, ?_, ?_, ?_, hk⟩
      · simpa [State.interrupt, State.setThread, State.setCpu, hxc] using hx
      · simpa [State.interrupt, State.setThread, State.setCpu, hwi] using hw
      · simpa [State.interrupt, State.setThread, State.setCpu, hwi] using hwpc
  | thread i op hctl hop hpanic heq =>
    subst heq
    exact h.thread hbooks htable hctl hop hpanic

theorem wakes_init (h : Init s) : Wakes s where
  going i l hi := by simp [(h.thread i).1] at hi
  woken i l hi := by
    rcases hi with ⟨hsleep, -⟩ | hpc
    · rcases h.state i with hstate | ⟨-, hstate⟩ <;> rw [hstate] at hsleep <;> cases hsleep
    · simp [(h.thread i).1] at hpc

/-! ## Interrupts are as the thread left them -/

/-- The interrupt flag that a CPU will have when it holds no spinlock. -/
def Cpu.flag (u : Cpu) : Bool := if u.noff = 0 then u.intr else u.intena

theorem flag_pushOff (u : Cpu) : (pushOff u).flag = u.flag := by
  simp [Cpu.flag, pushOff]

theorem flag_popped {u : Cpu} (h : u.noff ≠ 0) : (popped u).flag = u.flag := by
  unfold Cpu.flag popped
  by_cases hone : u.noff - 1 = 0 <;> simp [h, hone]

/-- The interrupt flag of the last call from `run` is the CPU's, and goes along when `sleep` leaves the CPU. -/
structure Flags (s : State) : Prop where
  flag : ∀ c i, (s.cpus c).ctl = .away i → (s.thread i).trap = none → ¬(s.thread i).Resumes → (s.thread i).pc ≠ .run →
    (s.cpus c).flag = (s.thread i).intr
  saved : ∀ i l b, (s.thread i).pc = .sleepBack l b → b = (s.thread i).intr
  trapped : ∀ i, (s.thread i).trap ≠ none → (s.thread i).pc ≠ .run → (s.thread i).intr = true

/-- A thread outside of a trap keeps its flag and that of its CPU together. -/
theorem code_flag {on b : Bool} {me : Nat} {d : Data} {th : Thread} {u : Cpu} (hnoff : u.noff = (th.pc.locks me).length) (hon : on = u.intr)
    (hflag : th.pc ≠ .run → th.pc ≠ .forkret → (∀ l b, th.pc ≠ .sleepBack l b) → u.flag = th.intr)
    (hsaved : ∀ l b, th.pc = .sleepBack l b → b = th.intr)
    (h : th.code d me on a = some op) (hpanic : ∀ msg, op ≠ .panic msg) (hsched : ∀ d f, op ≠ .sched d f) :
    (op.thread b th).pc = .run ∧ (th.pc = .run ∨ th.pc = .forkret) ∨ (op.cpu me u).flag = (op.thread b th).intr := by
  unfold Thread.code at h
  cases hpc : th.pc <;> rw [hpc] at h hnoff <;> dsimp only at h
  case run =>
    have hcall : u.flag = on := by simp [Cpu.flag, hnoff, hon, Pc.locks]
    cases a <;> cases h
    case acquiresleep l => exact .inr hcall
    case unlock l => exact .inr hcall
    case kkill pid => exact .inr hcall
    case intrOn => exact .inl ⟨hpc, .inl rfl⟩
    case intrOff => exact .inl ⟨hpc, .inl rfl⟩
  case forkret =>
    cases h
    exact .inl ⟨rfl, .inr rfl⟩
  case sleepSched l =>
    cases h
    exact absurd rfl (hsched _ _)
  case sleepBack l b' =>
    cases h
    exact .inr (by simp [Op.cpu, Op.thread, Cpu.flag, hnoff, Pc.locks, hsaved l b' hpc])
  all_goals have hsame : u.flag = th.intr := hflag (by simp [hpc]) (by simp [hpc]) (by simp [hpc])
  case test l =>
    split at h <;> cases h
    · exact .inr hsame
    · exact .inr ((flag_popped (by simp [hnoff, Pc.locks])).trans hsame)
  case wakeup l k =>
    split at h
    · split at h <;> cases h
      · exact .inr hsame
      · exact .inr ((flag_pushOff u).trans hsame)
    · cases h
      exact .inr ((flag_popped (by simp [hnoff, Pc.locks])).trans hsame)
  case held l r =>
    cases r <;> cases h
    · exact absurd rfl (hpanic _)
    · exact .inr hsame
  case kkill pid k =>
    split at h <;> cases h
    · exact .inr ((flag_pushOff u).trans hsame)
    · exact .inr hsame
  case kkillTest pid k =>
    split at h <;> cases h
    all_goals exact .inr ((flag_popped (by simp [hnoff, Pc.locks])).trans hsame)
  all_goals
    cases h
    first
    | exact .inr hsame
    | exact .inr ((flag_pushOff u).trans hsame)
    | exact .inr ((flag_popped (by simp [hnoff, Pc.locks])).trans hsame)

/-- The flag that a thread carries changes only with a call. -/
theorem code_intr {on : Bool} (b : Bool) {me : Nat} {d : Data} {th : Thread} (hrun : th.pc ≠ .run) (h : th.code d me on a = some op) :
    (op.thread b th).intr = th.intr := by
  unfold Thread.code at h
  cases hpc : th.pc <;> rw [hpc] at h <;> dsimp only at h
  case run => exact absurd hpc hrun
  case test l => split at h <;> cases h <;> rfl
  case wakeup l k => split at h <;> (try split at h) <;> cases h <;> rfl
  case held l r => cases r <;> cases h <;> rfl
  case kkill pid k => split at h <;> cases h <;> rfl
  case kkillTest pid k => split at h <;> cases h <;> rfl
  all_goals
    cases h
    rfl

theorem call_intr {on b : Bool} {me : Nat} {d : Data} {th : Thread} (hpc : th.pc = .run) (h : th.code d me on a = some op)
    (hcall : (op.thread b th).pc ≠ .run) : (op.thread b th).intr = on := by
  unfold Thread.code at h
  rw [hpc] at h
  cases a <;> cases h
  case acquiresleep l => rfl
  case unlock l => rfl
  case kkill pid => rfl
  case intrOn => exact absurd hpc hcall
  case intrOff => exact absurd hpc hcall

theorem Flags.code (h : Flags s) (hctl : (s.cpus c).ctl = .away i) (htrap : (s.thread i).trap = none) (hrun : (s.thread i).pc ≠ .run)
    (hfork : (s.thread i).pc ≠ .forkret) (hback : ∀ l b, (s.thread i).pc ≠ .sleepBack l b) : (s.cpus c).flag = (s.thread i).intr :=
  h.flag c i hctl htrap (not_resumes htrap hfork hback) hrun

theorem Flags.thread (h : Flags s) (hbooks : Books s) (hctl : (s.cpus c).ctl = .away i)
    (hop : (s.thread i).op s.data i (s.cpus c).intr a = some op) (hpanic : ∀ msg, op ≠ .panic msg) : Flags (op.after s c i) where
  flag x j hj htrap hres hrun := by
    obtain ⟨hj', ⟨rfl, rfl, hsched⟩ | ⟨hxc, hji⟩⟩ := after_away hbooks hctl hj
    · have hnoff := (hbooks.cpu x).noff
      rw [locksOf_away hctl, Thread.locks] at hnoff
      rw [after_thread] at htrap hres hrun ⊢
      rw [after_cpu]
      rcases op_cases hop with ⟨hnone, hcode⟩ | ⟨t, ht, rfl⟩
      · rw [hnone] at hnoff
        exact (code_flag hnoff rfl (h.code hctl hnone) (h.saved j) hcode hpanic hsched).resolve_left
          (fun hend => hrun hend.1)
      · rw [ht] at hnoff
        cases t with
        | sret =>
          have hflag : (s.thread j).intr = true := h.trapped j (by simp [ht]) hrun
          simp [Thread.yield, Op.cpu, Op.thread, Cpu.flag, hnoff, Trap.locks, hflag]
        | yield => cases htrap
        | sched => cases htrap
        | back b => cases htrap
        | leave => cases htrap
    · rw [after_thread_of_ne hji] at htrap hres hrun ⊢
      rw [after_cpu_of_ne hxc]
      exact h.flag x j hj' htrap hres hrun
  saved j l b hj := by
    by_cases hji : j = i
    · subst hji
      rcases after_pc hbooks hop hpanic with ⟨heq, hnil⟩ | hfrom
      · rw [heq] at hj
        rw [hj] at hnil
        cases hnil
      · rw [hj] at hfrom
        obtain ⟨hpc, rfl⟩ := hfrom
        have htrap : (s.thread j).trap = none := hbooks.untrapped (k := .proc j) (by simp [hpc, Pc.locks])
        have hflag := h.code hctl htrap (by simp [hpc]) (by simp [hpc]) (by simp [hpc])
        have hnoff := (hbooks.cpu c).noff
        rw [locksOf_away hctl, Thread.locks, htrap] at hnoff
        rw [Cpu.flag, hnoff, hpc] at hflag
        rw [after_thread]
        rcases op_cases hop with ⟨-, hcode⟩ | ⟨t, ht, -⟩
        · unfold Thread.code at hcode
          rw [hpc] at hcode
          cases hcode
          exact hflag
        · rw [htrap] at ht
          cases ht
    · rw [after_thread_of_ne hji] at hj ⊢
      exact h.saved j l b hj
  trapped j hj hrun := by
    by_cases hji : j = i
    · subst hji
      rw [after_thread] at hj hrun ⊢
      rcases op_cases hop with ⟨hnone, hcode⟩ | ⟨t, ht, rfl⟩
      · exact absurd (code_trap _ hnone hcode) hj
      · have htrapped := h.trapped j (by simp [ht])
        cases t <;> exact htrapped hrun
    · rw [after_thread_of_ne hji] at hj hrun ⊢
      exact h.trapped j hj hrun

theorem Flags.step (h : Flags s) (hbooks : Books s) (hmoved : Moved s c a s') : Flags s' := by
  cases hmoved with
  | idle hidle =>
    refine ⟨fun x j hj htrap hres hrun => ?_, fun j l b hj => ?_, fun j hj hrun => ?_⟩
    · rw [hidle.thread] at htrap hres hrun ⊢
      rw [hidle.cpu (.inr hj)]
      exact h.flag x j (hidle.away.mp hj) htrap hres hrun
    · rw [hidle.thread] at hj ⊢
      exact h.saved j l b hj
    · rw [hidle.thread] at hj hrun ⊢
      exact h.trapped j hj hrun
  | dispatch i hctl hrun heq =>
    subst heq
    refine ⟨fun x j hj htrap hres hrun' => ?_, h.saved, h.trapped⟩
    by_cases hxc : x = c
    · subst hxc
      have hji : i = j := by simpa [State.dispatch, State.setCpu] using hj
      exact absurd (hji ▸ hbooks.resumes hrun) hres
    · have hcpu : (s.dispatch c i).cpus x = s.cpus x := Function.update_of_ne hxc ..
      rw [hcpu] at hj ⊢
      exact h.flag x j hj htrap hres hrun'
  | interrupt i hctl hintr heq =>
    subst heq
    obtain ⟨htrap, hnil⟩ := hbooks.interruptible hctl hintr
    have hthread : (s.interrupt c i).thread i = { s.thread i with trap := some .yield } := Function.update_self ..
    have hthreads {j : Nat} (hj : j ≠ i) : (s.interrupt c i).thread j = s.thread j := Function.update_of_ne hj ..
    refine ⟨fun x j hj htrap' hres hrun => ?_, fun j l b hj => ?_, fun j hj hrun => ?_⟩
    · have hji : j ≠ i := by
        rintro rfl
        rw [hthread] at htrap'
        cases htrap'
      have hxc : x ≠ c := by
        rintro rfl
        have hij : i = j := by simpa [State.interrupt, State.setThread, State.setCpu, hctl] using hj
        exact hji hij.symm
      rw [hthreads hji] at htrap' hres hrun ⊢
      have hcpu : (s.interrupt c i).cpus x = s.cpus x := Function.update_of_ne hxc ..
      rw [hcpu] at hj ⊢
      exact h.flag x j hj htrap' hres hrun
    · have hintr' : ((s.interrupt c i).thread j).intr = (s.thread j).intr := by
        by_cases hji : j = i
        · rw [hji, hthread]
        · rw [hthreads hji]
      rw [interrupt_pc] at hj
      rw [hintr']
      exact h.saved j l b hj
    · by_cases hji : j = i
      · subst hji
        rw [interrupt_pc] at hrun
        have hflag := h.code hctl htrap hrun (fun hpc => by simp [hpc, Pc.locks] at hnil) (fun l b hpc => by simp [hpc, Pc.locks] at hnil)
        have hnoff := (hbooks.cpu c).noff
        rw [locksOf_away hctl, Thread.locks, htrap, hnil] at hnoff
        rw [hthread]
        rw [Cpu.flag, hnoff, hintr] at hflag
        exact hflag.symm
      · rw [hthreads hji] at hj hrun ⊢
        exact h.trapped j hj hrun
  | thread i op hctl hop hpanic heq =>
    subst heq
    exact h.thread hbooks hctl hop hpanic

theorem flags_init (h : Init s) : Flags s where
  flag c i hctl := by simp [(h.cpus c).1] at hctl
  saved i l b hi := by simp [(h.thread i).1] at hi
  trapped i hi := absurd (h.thread i).2 hi

/-! ## Every reachable state -/

structure Sound (s : State) : Prop where
  books : Books s
  table : Table s.data
  owners : Owners s
  wakes : Wakes s
  flags : Flags s

theorem Sound.step (h : Sound s) (hstep : step s c a = .next s') : Sound s' := by
  obtain ⟨hbooks, hmoved⟩ := h.books.step hstep
  exact ⟨hbooks, h.table.step h.books hmoved, h.owners.step h.books h.table hmoved, h.wakes.step h.books h.table hmoved,
    h.flags.step h.books hmoved⟩

theorem Sound.reach (h : Reach Init Step s) : Sound s :=
  h.invariant Sound (fun _ hs => ⟨books_init hs, table_init hs, owners_init hs, wakes_init hs, flags_init hs⟩) (fun _ _ _ hs => hs.step)

/-! ## Spinlocks -/

/-- CPU `c` can make a step of its own: one that no timer interrupt has to bring about. -/
def State.Moves (s : State) (c : Nat) : Prop := ∃ a s', a ≠ .timer ∧ step s c a = .next s'

/-- CPU `c` spins in `acquire`, or would if the spinlock were not free. -/
def State.Wants (s : State) (c : Nat) (k : LockId) : Prop :=
  (∃ i, (s.cpus c).ctl = .scan i ∧ k = .proc i) ∨
    ∃ i th, (s.cpus c).ctl = .away i ∧ (s.thread i).op s.data i (s.cpus c).intr .go = some (.acquire k th)

/-- The process on CPU `c` is about to give back a sleep lock, and has been told that it does not hold it. -/
def State.Refused (s : State) (c : Nat) : Prop :=
  ∃ i l, (s.cpus c).ctl = .away i ∧ (s.thread i).trap = none ∧ (s.thread i).pc = .held l false

theorem release_ok {k : LockId} (hk : s.lock k = some c) (hintr : (s.cpus c).intr = false) (hnoff : (s.cpus c).noff ≠ 0) :
    ∃ t, release s c k = .next t := by
  have hpos : ¬(s.cpus c).noff < 1 := by omega
  refine ⟨{ s.setCpu c (popped (s.cpus c)) with lock := Function.update s.lock k none }, ?_⟩
  simp [release, popOff, popped, hk, hintr, hpos]

/-- A CPU may give up a spinlock that it holds by the books. -/
theorem Books.release_ok {k : LockId} (h : Books s) (hk : k ∈ s.locksOf c) (d : Data) :
    ∃ t, release { s with data := d } c k = .next t := by
  refine Sched.release_ok ((h.held.holder k c).mpr hk) ((h.cpu c).intr (List.ne_nil_of_mem hk)) ?_
  rw [(h.cpu c).noff]
  exact fun hlen => List.ne_nil_of_mem hk (List.length_eq_zero_iff.mp hlen)

/-- What a CPU that wants a spinlock holds: nothing, or the spinlock of a sleep lock while it wants that of a process. -/
theorem op_order {me : Nat} {d : Data} {on : Bool} {th th' : Thread} {k : LockId}
    (h : th.op d me on a = some (.acquire k th')) : th.locks me = [] ∨ ∃ l i, th.locks me = [.lk l] ∧ k = .proc i := by
  rcases op_cases h with ⟨htrap, hcode⟩ | ⟨t, ht, heq⟩
  · rw [Thread.locks, htrap]
    unfold Thread.code at hcode
    cases hpc : th.pc <;> rw [hpc] at hcode <;> dsimp only at hcode
    case run => cases a <;> cases hcode
    case test l => split at hcode <;> cases hcode
    case sleep l =>
      cases hcode
      exact .inr ⟨l, me, rfl, rfl⟩
    case wakeup l i =>
      split at hcode
      · split at hcode <;> cases hcode
        exact .inr ⟨l, i, rfl, rfl⟩
      · cases hcode
    case held l r => cases r <;> cases hcode
    case kkillTest pid i => split at hcode <;> cases hcode
    all_goals
      first
      | exact .inl rfl
      | cases hcode
  · rw [Thread.locks, ht]
    cases t <;> cases heq
    exact .inl rfl

theorem op_panic {me : Nat} {d : Data} {on : Bool} {th : Thread} {msg : String} (h : th.op d me on a = some (.panic msg)) :
    th.trap = none ∧ (∃ l, th.pc = .held l false) ∧ msg = "brelse" := by
  rcases op_cases h with ⟨htrap, hcode⟩ | ⟨t, -, heq⟩
  · refine ⟨htrap, ?_⟩
    unfold Thread.code at hcode
    cases hpc : th.pc <;> rw [hpc] at hcode <;> dsimp only at hcode
    case run => cases a <;> cases hcode
    case test l => split at hcode <;> cases hcode
    case wakeup l i => split at hcode <;> (try split at hcode) <;> cases hcode
    case held l r =>
      cases r
      · cases hcode
        exact ⟨⟨l, rfl⟩, rfl⟩
      · cases hcode
    case kkill pid i => split at hcode <;> cases hcode
    case kkillTest pid i => split at hcode <;> cases hcode
    all_goals cases hcode
  · cases t <;> cases heq

theorem op_go {me : Nat} {d : Data} {on : Bool} {th : Thread} (h : th.op d me on .go = none) : th.trap = none ∧ th.pc = .run := by
  unfold Thread.op at h
  cases htrap : th.trap with
  | some t =>
    rw [htrap] at h
    cases h
  | none =>
    rw [htrap] at h
    refine ⟨rfl, ?_⟩
    dsimp only at h
    unfold Thread.code at h
    cases hpc : th.pc <;> rw [hpc] at h <;> dsimp only at h
    case none.test l => split at h <;> cases h
    case none.wakeup l i => split at h <;> (try split at h) <;> cases h
    case none.held l r => cases r <;> cases h
    case none.kkill pid i => split at h <;> cases h
    case none.kkillTest pid i => split at h <;> cases h
    all_goals cases h

/-- What a CPU does with the operation of its process: it does it, it panics as `brelse` does, or it spins for a spinlock of another. -/
theorem Books.exec (h : Books s) (hctl : (s.cpus c).ctl = .away i) (hop : (s.thread i).op s.data i (s.cpus c).intr a = some op) :
    (∃ t, exec s c i op = .next t) ∨ (∃ msg, op = .panic msg) ∨
      ∃ k th x, op = .acquire k th ∧ s.lock k = some x ∧ exec s c i op = .spin := by
  have hfits := op_fits (h.trap i) hop
  have hls := locksOf_away hctl
  cases op with
  | acquire k th =>
    have hown : s.lock k ≠ some c := by
      rw [ne_eq, h.held.holder, hls]
      exact hfits.1
    cases hk : s.lock k with
    | none => exact .inl ⟨_, by simp [Sched.exec, acquire, hk, Result.bind]; rfl⟩
    | some x =>
      rw [hk] at hown
      exact .inr (.inr ⟨k, th, x, rfl, hk, by simp [Sched.exec, acquire, hk, hown, Result.bind]⟩)
  | release d k th =>
    have hk : k ∈ s.locksOf c := by
      rw [hls]
      exact (List.Perm.mem_iff hfits).mpr (List.mem_cons_self ..)
    obtain ⟨t, ht⟩ := h.release_ok hk d
    exact .inl ⟨t.setThread i th, by rw [Sched.exec, ht]; rfl⟩
  | goto d th => exact .inl ⟨_, rfl⟩
  | sched d f =>
    obtain ⟨hone, -, hstate⟩ := hfits
    rw [hone] at hls
    have hk : s.lock (.proc i) = some c := (h.held.holder _ _).mpr (by simp [hls])
    have hnoff : (s.cpus c).noff = 1 := by rw [(h.cpu c).noff, hls]; rfl
    have hintr : (s.cpus c).intr = false := (h.cpu c).intr (by simp [hls])
    exact .inl ⟨_, by simp [Sched.exec, sched, hk, hnoff, hintr, hstate]; rfl⟩
  | restore b th => exact .inl ⟨_, rfl⟩
  | intr b th => exact .inl ⟨_, rfl⟩
  | panic msg => exact .inr (.inl ⟨msg, rfl⟩)

/-- The scheduler goes on, unless it spins for the spinlock of a process. -/
theorem Books.scheduler (h : Books s) (hctl : ∀ i, (s.cpus c).ctl ≠ .away i) :
    (∀ a, ∃ t, Sched.step s c a = .next t) ∨
      ∃ i x, (s.cpus c).ctl = .scan i ∧ s.lock (.proc i) = some x ∧ ∀ a, Sched.step s c a = .spin := by
  have hls := locksOf_ctl hctl
  cases hc : (s.cpus c).ctl with
  | loop => exact .inl fun a => ⟨_, by rw [Sched.step, hc]⟩
  | scan i =>
    rw [hc] at hls
    by_cases hi : i < nProc
    · have hown : s.lock (.proc i) ≠ some c := by simp [h.held.holder, hls, Ctl.locks]
      cases hk : s.lock (.proc i) with
      | none => exact .inl fun a => ⟨_, by simp [Sched.step, hc, hi, acquire, hk, Result.bind]; rfl⟩
      | some x =>
        rw [hk] at hown
        exact .inr ⟨i, x, rfl, hk, fun a => by simp [Sched.step, hc, hi, acquire, hk, hown, Result.bind]⟩
    · exact .inl fun a => ⟨_, by simp [Sched.step, hc, hi]; rfl⟩
  | look i =>
    rw [hc] at hls
    obtain ⟨t, ht⟩ := h.release_ok (k := .proc i) (c := c) (by simp [hls, Ctl.locks]) s.data
    by_cases hrun : (s.data.proc i).state = .runnable
    · exact .inl fun a => ⟨_, by simp [Sched.step, hc, hrun]; rfl⟩
    · have ht' : release s c (.proc i) = .next t := ht
      exact .inl fun a => ⟨_, by simp [Sched.step, hc, hrun, ht', Result.bind]; rfl⟩
  | away i => exact absurd hc (hctl i)
  | home i =>
    rw [hc] at hls
    have hself : (s.setCpu c { s.cpus c with proc := none }).cpus c = { s.cpus c with proc := none } := Function.update_self ..
    have hok := h.cpu c
    rw [hls] at hok
    obtain ⟨t, ht⟩ := Sched.release_ok (s := s.setCpu c { s.cpus c with proc := none }) (c := c) (k := .proc i)
      ((h.held.holder _ _).mpr (by simp [hls, Ctl.locks])) (by rw [hself]; exact hok.intr (by simp [Ctl.locks]))
      (by rw [hself]; simp [hok.noff, Ctl.locks])
    have hgo (a : Act) : Sched.step s c a = (release (s.setCpu c { s.cpus c with proc := none }) c (.proc i)).bind fun s =>
        .next (s.setCtl c (.scan (i + 1))) := by rw [Sched.step, hc]
    exact .inl fun a => ⟨t.setCtl c (.scan (i + 1)), by rw [hgo, ht]; rfl⟩

/-- A CPU makes a step, or it is refused, or it spins. -/
theorem Books.progress (h : Books s) (c : Nat) : s.Moves c ∨ s.Refused c ∨ ∃ k x, s.Wants c k ∧ s.lock k = some x := by
  by_cases hctl : ∀ i, (s.cpus c).ctl ≠ .away i
  · rcases h.scheduler hctl with hmove | ⟨i, x, hc, hk, -⟩
    · obtain ⟨t, ht⟩ := hmove .go
      exact .inl ⟨.go, t, by simp, ht⟩
    · exact .inr (.inr ⟨.proc i, x, .inl ⟨i, hc, rfl⟩, hk⟩)
  · obtain ⟨i, hi⟩ := not_forall_not.mp hctl
    have hstep {a : Act} {op : Op} (ha : a ≠ .timer) (hop : (s.thread i).op s.data i (s.cpus c).intr a = some op) :
        Sched.step s c a = Sched.exec s c i op := by simp [Sched.step, hi, ha, hop]
    cases hop : (s.thread i).op s.data i (s.cpus c).intr .go with
    | none =>
      obtain ⟨htrap, hpc⟩ := op_go hop
      have hon : (s.thread i).op s.data i (s.cpus c).intr .intrOn = some (.intr true (s.thread i)) := by
        simp [Thread.op, Thread.code, htrap, hpc]
      exact .inl ⟨.intrOn, _, by simp, (hstep (by simp) hon).trans rfl⟩
    | some op =>
      rcases h.exec hi hop with ⟨t, ht⟩ | ⟨msg, rfl⟩ | ⟨k, th, x, rfl, hk, -⟩
      · exact .inl ⟨.go, t, by simp, (hstep (by simp) hop).trans ht⟩
      · obtain ⟨htrap, ⟨l, hpc⟩, -⟩ := op_panic hop
        exact .inr (.inl ⟨i, l, hi, htrap, hpc⟩)
      · exact .inr (.inr ⟨k, x, .inr ⟨i, th, hi, hop⟩, hk⟩)

theorem Books.panic (h : Books s) {msg : String} (hstep : Sched.step s c a = .panic msg) : s.Refused c ∧ msg = "brelse" := by
  by_cases hctl : ∀ i, (s.cpus c).ctl ≠ .away i
  · rcases h.scheduler hctl with hmove | ⟨i, x, -, -, hspin⟩
    · obtain ⟨t, ht⟩ := hmove a
      rw [ht] at hstep
      cases hstep
    · rw [hspin a] at hstep
      cases hstep
  · obtain ⟨i, hi⟩ := not_forall_not.mp hctl
    unfold Sched.step at hstep
    rw [hi] at hstep
    dsimp only at hstep
    split at hstep
    · unfold timer at hstep
      split at hstep <;> cases hstep
    · split at hstep
      · cases hstep
      · next op hop =>
        rcases h.exec hi hop with ⟨t, ht⟩ | ⟨msg', rfl⟩ | ⟨k, th, x, rfl, hk, hspin⟩
        · rw [ht] at hstep
          cases hstep
        · obtain rfl : msg' = msg := by simpa [Sched.exec] using hstep
          obtain ⟨htrap, ⟨l, hpc⟩, hmsg⟩ := op_panic hop
          exact ⟨⟨i, l, hi, htrap, hpc⟩, hmsg⟩
        · rw [hspin] at hstep
          cases hstep

/-- Who wants a spinlock holds none, or that of a sleep lock, and then wants that of a process. -/
theorem State.Wants.order {k : LockId} (h : s.Wants c k) : s.locksOf c = [] ∨ ∃ l i, s.locksOf c = [.lk l] ∧ k = .proc i := by
  rcases h with ⟨i, hctl, -⟩ | ⟨i, th, hctl, hop⟩
  · exact .inl (by rw [State.locksOf, hctl])
  · rw [locksOf_away hctl]
    exact op_order hop

theorem State.Refused.locks (h : s.Refused c) : s.locksOf c = [] := by
  obtain ⟨i, l, hctl, htrap, hpc⟩ := h
  rw [locksOf_away hctl, Thread.locks, htrap, hpc]
  rfl

/-- The holder of the spinlock of a process can make a step. -/
theorem Books.holder_moves (h : Books s) {x : Nat} (hk : s.lock (.proc i) = some x) : s.Moves x := by
  have hmem := (h.held.holder _ _).mp hk
  rcases h.progress x with hmove | hrefused | ⟨k, y, hwants, -⟩
  · exact hmove
  · rw [hrefused.locks] at hmem
    cases hmem
  · rcases hwants.order with hnil | ⟨l, j, hls, -⟩
    · rw [hnil] at hmem
      cases hmem
    · simp [hls] at hmem

/-! ### A run

Two processes and two CPUs. Process `0` gets the sleep lock `7`, process `1` falls asleep on it on the other CPU, and process `0` gives it
back, up to its `wakeup`. -/

def boot : State where
  cpus _ := ⟨none, 0, false, true, .loop⟩
  lock _ := none
  thread _ := ⟨.forkret, none, false⟩
  data := ⟨fun i => if i ≤ 1 then ⟨.runnable, none, false, i + 1⟩ else ⟨.unused, none, false, 0⟩, fun _ => ⟨false, 0⟩, fun _ _ => false⟩

def State.next (s : State) (x : Nat × Act) : Option State :=
  match step s x.1 x.2 with
  | .next s' => some s'
  | .spin | .panic _ => none

def handover : List (Nat × Act) :=
  List.replicate 4 (0, .go) ++ [(0, .intrOn), (0, .acquiresleep 7), (0, .go), (0, .go)] ++
  List.replicate 6 (1, .go) ++ [(1, .intrOn), (1, .acquiresleep 7)] ++ List.replicate 5 (1, .go) ++ [(0, .unlock 7)] ++ List.replicate 5 (0, .go)

theorem boot_init : Init boot where
  cpus c := ⟨rfl, rfl, rfl⟩
  lock k := rfl
  thread i := ⟨rfl, rfl⟩
  state i := by
    by_cases hi : i ≤ 1
    · exact .inr ⟨Nat.lt_of_le_of_lt hi (by decide), by simp [boot, hi]⟩
    · exact .inl (by simp [boot, hi])
  pid i j hi hj heq := by
    by_cases hi' : i ≤ 1 <;> by_cases hj' : j ≤ 1 <;> simp_all [boot]
  slk l := rfl
  owns i l := rfl

theorem boot_reach {as : List (Nat × Act)} (h : as.foldlM State.next boot = some s) : Reach Init Step s := by
  refine ⟨boot, as, boot_init, (Run.of_foldlM h).mono fun s x t hx => ?_⟩
  unfold State.next at hx
  unfold Step
  split at hx
  · next hs =>
    obtain rfl := Option.some.inj hx
    exact hs
  · cases hx
  · cases hx

/-! ## Main results -/

/-- The table of owners of the sleep locks. -/
def State.Owner (s : State) (m : Nat → Option Nat) : Prop := ∀ i l, s.data.owns i l = true ↔ m l = some i

theorem Owners.table (h : Owners s) : ∃ m, s.Owner m := by
  obtain ⟨m, -, -, hm⟩ := h.reached
  exact ⟨m, hm⟩

/-- The owners after a step. -/
theorem Sound.owner_step (h : Sound s) {m : Nat → Option Nat} (hm : s.Owner m) (hstep : Sched.step s c a = .next s') :
    ∃ m', s'.Owner m' ∧ (m' = m ∨ ∃ i l, (s.cpus c).ctl = .away i ∧ (Mutex.Step m (.take i l) m' ∨ Mutex.Step m (.drop i l) m')) := by
  cases (h.books.step hstep).2 with
  | idle hidle => exact ⟨m, fun i l => by rw [hidle.data]; exact hm i l, .inl rfl⟩
  | dispatch i hctl hrun heq => exact ⟨m, fun j l => by rw [heq]; exact hm j l, .inl rfl⟩
  | interrupt i hctl hintr heq => exact ⟨m, fun j l => by rw [heq]; exact hm j l, .inl rfl⟩
  | thread i op hctl hop hpanic heq =>
    subst heq
    rcases op_slk hop with ⟨-, howns⟩ | ⟨l, -, -, hfree, rfl⟩ | ⟨l, -, hpc, rfl⟩
    · refine ⟨m, fun j k => ?_, .inl rfl⟩
      rw [show (op.after s c i).data.owns = s.data.owns from howns]
      exact hm j k
    · have hnone : m l = none := by
        cases hml : m l with
        | none => rfl
        | some j =>
          rw [(h.owners.locked l).mpr ⟨j, (hm j l).mpr hml⟩] at hfree
          cases hfree
      refine ⟨_, fun j k => ?_, .inr ⟨i, l, hctl, .inl (.take hnone)⟩⟩
      refine (owns_take s.data i l j k _).trans ?_
      rw [hm j k, Function.update_apply]
      split
      · next hk => simp [hk, hnone, eq_comm]
      · next hk => simp [hk]
    · have hown : m l = some i := (hm i l).mp (h.owners.giving i l (.inr hpc))
      refine ⟨_, fun j k => ?_, .inr ⟨i, l, hctl, .inr (.drop hown)⟩⟩
      refine (owns_drop s.data i l j k _).trans ?_
      rw [hm j k, Function.update_apply]
      split
      · next hk => simp [hk, hown, eq_comm]
      · next hk => simp [hk]

/-- A sleep lock is a mutual exclusion lock: each step leaves the owners as they are, or is one by which the process on the CPU gets a lock
that is free or gives up one that it has. The fields of the lock say who the owner is, and the kernel panics only when a process gives up
a lock that it has not got. -/
theorem sleeplock_exclusive (h : Reach Init Step s) :
    ∃ m, s.Owner m ∧ (∀ l, (s.data.slk l).locked = (m l).isSome) ∧ (∀ l i, m l = some i → (s.data.slk l).pid = (s.data.proc i).pid) ∧
      (∀ c a s', Step s (c, a) s' → ∃ m', s'.Owner m' ∧ (m' = m ∨ ∃ i l, (s.cpus c).ctl = .away i ∧
        (Mutex.Step m (.take i l) m' ∨ Mutex.Step m (.drop i l) m'))) ∧
      ∀ c a msg, step s c a = .panic msg → msg = "brelse" ∧ ∃ i l, (s.cpus c).ctl = .away i ∧ (s.thread i).pc = .held l false ∧ m l ≠ some i := by
  have hs := Sound.reach h
  obtain ⟨m, hm⟩ := hs.owners.table
  refine ⟨m, hm, fun l => ?_, fun l i hl => hs.owners.pid i l ((hm i l).mpr hl), fun c a s' hstep => hs.owner_step hm hstep,
    fun c a msg hstep => ?_⟩
  · rw [Bool.eq_iff_iff, hs.owners.locked, Option.isSome_iff_exists]
    exact exists_congr fun i => hm i l
  · obtain ⟨⟨i, l, hctl, -, hpc⟩, hmsg⟩ := hs.books.panic hstep
    refine ⟨hmsg, i, l, hctl, hpc, fun hown => ?_⟩
    have hno := (hs.owners.answer i l false hpc).mpr ((hm i l).mpr hown)
    cases hno

theorem sleeplock_exclusive_handover : ∃ s, (handover.take 8).foldlM State.next boot = some s ∧ s.data.owns 0 7 = true ∧
    ∃ m, s.Owner m ∧ (s.data.slk 7).locked = (m 7).isSome := by
  have hs : ∃ s, (handover.take 8).foldlM State.next boot = some s ∧ s.data.owns 0 7 = true := ⟨_, rfl, rfl⟩
  obtain ⟨s, hs, howns⟩ := hs
  obtain ⟨m, hm, hlocked, -⟩ := sleeplock_exclusive (boot_reach hs)
  exact ⟨s, hs, howns, m, hm, hlocked 7⟩

/-- No wakeup is lost: while a process sleeps on a sleep lock, the lock is taken, or who gave it back is in `wakeup` and has not come to
that process. Once the lock is free and its spinlock too, nobody sleeps on it. -/
theorem no_lost_wakeup (h : Reach Init Step s) {i l : Nat} (hsleep : s.Asleep i l) :
    ((s.data.slk l).locked = true ∨ s.Waking l i) ∧ ¬((s.data.slk l).locked = false ∧ s.lock (.lk l) = none) := by
  have hs := Sound.reach h
  have hwoken := hs.wakes.woken i l (.inl hsleep)
  refine ⟨hwoken, fun ⟨hfree, hlk⟩ => ?_⟩
  rcases hwoken with hl | ⟨c, j, k, hctl, htrap, hpc, -⟩
  · rw [hl] at hfree
    cases hfree
  · have hmem : LockId.lk l ∈ s.locksOf c := by
      rw [locksOf_away hctl, Thread.locks, htrap]
      rcases hpc with hpc | hpc <;> simp [hpc, Pc.locks]
    rw [(hs.books.held.holder _ _).mpr hmem] at hlk
    cases hlk

theorem no_lost_wakeup_handover : ∃ s, handover.foldlM State.next boot = some s ∧ (s.data.slk 7).locked = false ∧ s.Waking 7 1 := by
  have hs : ∃ s, handover.foldlM State.next boot = some s ∧ s.Asleep 1 7 ∧ (s.data.slk 7).locked = false := ⟨_, rfl, ⟨rfl, rfl⟩, rfl⟩
  obtain ⟨s, hs, hsleep, hfree⟩ := hs
  refine ⟨s, hs, hfree, (no_lost_wakeup (boot_reach hs) hsleep).1.resolve_left fun hlocked => ?_⟩
  rw [hfree] at hlocked
  cases hlocked

/-- Each CPU makes a step of its own, or is about to panic as `brelse` does, or spins for a spinlock whose holder makes a step, or whose holder
spins for the spinlock of a process whose holder makes a step. -/
theorem spinlocks_never_deadlock (h : Reach Init Step s) (c : Nat) :
    s.Moves c ∨ s.Refused c ∨ ∃ k x, s.Wants c k ∧ s.lock k = some x ∧
      (s.Moves x ∨ ∃ i y, s.Wants x (.proc i) ∧ s.lock (.proc i) = some y ∧ s.Moves y) := by
  have hbooks := (Sound.reach h).books
  refine (hbooks.progress c).imp_right (Or.imp_right ?_)
  rintro ⟨k, x, hwants, hk⟩
  refine ⟨k, x, hwants, hk, (hbooks.progress x).imp_right ?_⟩
  have hmem := (hbooks.held.holder _ _).mp hk
  rintro (hrefused | ⟨k', y, hwants', hk'⟩)
  · rw [hrefused.locks] at hmem
    cases hmem
  · rcases hwants'.order with hnil | ⟨l, i, -, rfl⟩
    · rw [hnil] at hmem
      cases hmem
    · exact ⟨i, y, hwants', hk', hbooks.holder_moves hk'⟩

theorem spinlocks_never_deadlock_handover : ∃ s, handover.foldlM State.next boot = some s ∧ s.lock (.lk 7) = some 0 ∧
    (s.Moves 0 ∨ s.Refused 0 ∨ ∃ k x, s.Wants 0 k ∧ s.lock k = some x ∧
      (s.Moves x ∨ ∃ i y, s.Wants x (.proc i) ∧ s.lock (.proc i) = some y ∧ s.Moves y)) := by
  have hs : ∃ s, handover.foldlM State.next boot = some s ∧ s.lock (.lk 7) = some 0 := ⟨_, rfl, rfl⟩
  obtain ⟨s, hs, hlk⟩ := hs
  exact ⟨s, hs, hlk, spinlocks_never_deadlock (boot_reach hs) 0⟩

/-- A call gives the interrupt flag back as it found it, whatever CPU the process comes back on: the thread carries the flag from its call
on, and the CPU has it when the thread is outside again. -/
theorem interrupts_restored (h : Reach Init Step s) (hstep : Step s (c, a) s') (hctl : (s.cpus c).ctl = .away i) :
    ((s.thread i).pc = .run → (s'.thread i).pc ≠ .run → (s'.thread i).intr = (s.cpus c).intr) ∧
      ((s.thread i).pc ≠ .run → (s'.thread i).intr = (s.thread i).intr) ∧
      ((s.thread i).pc ≠ .run → (s.thread i).pc ≠ .forkret → (s'.thread i).pc = .run → (s'.cpus c).intr = (s.thread i).intr) := by
  have hs := Sound.reach h
  obtain ⟨hbooks', hmoved⟩ := hs.books.step hstep
  cases hmoved with
  | idle hidle => exact absurd hctl (hidle.before i)
  | dispatch j hctl' hrun heq =>
    rw [hctl] at hctl'
    cases hctl'
  | interrupt j hctl' hintr heq =>
    obtain rfl : i = j := Ctl.away.inj (hctl.symm.trans hctl')
    have hpc := interrupt_pc s c i i
    have hthread : (s.interrupt c i).thread i = { s.thread i with trap := some .yield } := Function.update_self ..
    rw [heq, hpc, hthread]
    exact ⟨fun hrun hne => absurd hrun hne, fun _ => rfl, fun hne _ hrun => absurd hrun hne⟩
  | thread j op hctl' hop hpanic heq =>
    obtain rfl : i = j := Ctl.away.inj (hctl.symm.trans hctl')
    subst heq
    rw [after_thread]
    rcases op_cases hop with ⟨htrap, hcode⟩ | ⟨t, ht, rfl⟩
    · refine ⟨fun hrun hcall => call_intr hrun hcode hcall, fun hne => code_intr _ hne hcode, fun hne hfork hrun => ?_⟩
      have hsame := code_intr (s.cpus c).intena hne hcode
      have hsched : ∀ d f, op ≠ .sched d f := by
        rintro d f rfl
        obtain ⟨l, hpc, -⟩ := code_sched hcode
        unfold Thread.code at hcode
        rw [hpc] at hcode
        cases hcode
        cases hrun
      have hnoff := (hs.books.cpu c).noff
      rw [locksOf_away hctl, Thread.locks, htrap] at hnoff
      have hflag := (code_flag (b := (s.cpus c).intena) hnoff rfl (hs.flags.code hctl htrap) (hs.flags.saved i) hcode hpanic hsched).resolve_left
        (fun hend => hend.2.elim hne hfork)
      have hnoff' := (hbooks'.cpu c).noff
      rw [locksOf_away (after_stays hctl hsched), Thread.locks, after_thread, code_trap _ htrap hcode, hrun, after_cpu] at hnoff'
      rw [after_cpu, ← hsame, ← hflag, Cpu.flag, hnoff']
      rfl
    · have hpc : (((s.thread i).yield s.data i t).thread (s.cpus c).intena (s.thread i)).pc = (s.thread i).pc := by cases t <;> rfl
      rw [hpc]
      exact ⟨fun hrun hne => absurd hrun hne, fun _ => by cases t <;> rfl, fun hne _ hrun => absurd hrun hne⟩

/-- The last step of process `0` in `acquiresleep`. -/
theorem interrupts_restored_handover : ∃ s s', (handover.take 7).foldlM State.next boot = some s ∧ Step s (0, .go) s' ∧
    (s.cpus 0).intr = false ∧ (s'.cpus 0).intr = (s.thread 0).intr ∧ (s.thread 0).intr = true := by
  have hs : ∃ s s', (handover.take 7).foldlM State.next boot = some s ∧ step s 0 .go = .next s' ∧ (s.cpus 0).ctl = .away 0 ∧
      (s.thread 0).pc = .test 7 ∧ (s'.thread 0).pc = .run ∧ (s.cpus 0).intr = false ∧ (s.thread 0).intr = true :=
    ⟨_, _, rfl, rfl, rfl, rfl, rfl, rfl, rfl⟩
  obtain ⟨s, s', hs, hstep, hctl, hpc, hpc', hoff, hon⟩ := hs
  exact ⟨s, s', hs, hstep, hoff, (interrupts_restored (boot_reach hs) hstep hctl).2.2 (by simp [hpc]) (by simp [hpc]) hpc', hon⟩

end Xv6SnifferBakery.Sched
