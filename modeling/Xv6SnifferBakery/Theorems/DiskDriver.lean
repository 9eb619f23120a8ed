import Xv6SnifferBakery.Lemmas.Virtio

/-!
# The disk driver transfers blocks at once

Whatever the calls, the interrupts and the device do and in whatever order, the callers of `virtio_disk_rw` see a disk on which every
call transfers its block exactly once, at one moment between its begin and its return. No panic of the driver is reached, the device
finds every request as its call meant it, and while a call is under way something is left to do for the driver or the device.
-/

namespace Xv6SnifferBakery.Kernel

open Lib

namespace VdiskSys

variable {α : Type} {s t : VdiskSys α} {u b i j k : Nat} {w : Bool} {p : VdiskPoint}

/-- `step` as a relation. -/
def Step (s : VdiskSys α) (a : VdiskAction α) (t : VdiskSys α) : Prop := s.step a = some (.ok t)

/-- Whether the request of a call has been carried out. -/
def finished (s : VdiskSys α) : VdiskPoint → Bool
  | .wait i _ _ => (s.disk.info i).status = 0
  | _ => false

/-- The disk that the callers see. -/
def io (s : VdiskSys α) : BlockIo α where
  sectors := s.device.sectors
  lock b := (s.bufs b).lock
  sector b := (s.bufs b).sector
  data b := (s.bufs b).data
  call u := (s.task u).map (fun x => ⟨x.1, x.2.1, s.finished x.2.2⟩)

theorem io_congr (hsectors : t.device.sectors = s.device.sectors)
    (hbufs : ∀ b, (t.bufs b).lock = (s.bufs b).lock ∧ (t.bufs b).sector = (s.bufs b).sector ∧ (t.bufs b).data = (s.bufs b).data)
    (hcall : ∀ u, t.io.call u = s.io.call u) : t.io = s.io := by
  have hl : t.io.lock = s.io.lock := funext (fun b => (hbufs b).1)
  have hs : t.io.sector = s.io.sector := funext (fun b => (hbufs b).2.1)
  have hd : t.io.data = s.io.data := funext (fun b => (hbufs b).2.2)
  have hc : t.io.call = s.io.call := funext hcall
  have hx : t.io.sectors = s.io.sectors := hsectors
  exact BlockIo.ext hx hl hs hd hc

theorem io_call (h : s.task u = some (b, w, p)) : s.io.call u = some ⟨b, w, s.finished p⟩ := by
  simp [io, h]

theorem io_same (htask : t.task = s.task) (hinfo : ∀ d, (t.disk.info d).status = (s.disk.info d).status) (u : Nat) :
    t.io.call u = s.io.call u := by
  simp only [io, htask]
  congr 1
  funext x
  congr 1
  cases x.2.2 with
  | alloc => rfl
  | publish => rfl
  | wait i j k => simp only [finished, hinfo]

/-- Calls with descriptors of their own do not see what is written into those that are free. -/
theorem io_other {o : Option (Nat × Bool × VdiskPoint)} {v : Nat} (hone : OneTask s t u o) (hv : v ≠ u)
    (hinfo : ∀ b w i j k, s.task v = some (b, w, .wait i j k) → (t.disk.info i).status = (s.disk.info i).status) :
    t.io.call v = s.io.call v := by
  simp only [io, hone.other hv]
  rcases hx : s.task v with _ | ⟨b, w, p⟩
  · rfl
  · cases p with
    | alloc => rfl
    | publish => rfl
    | wait i j k => simp [finished, hinfo b w i j k hx]

theorem io_setBuf (s : VdiskSys α) (b : Nat) (x : DiskBuf α) : (s.setBuf b x).io =
    { s.io with
      lock := Function.update s.io.lock b x.lock
      sector := Function.update s.io.sector b x.sector
      data := Function.update s.io.data b x.data } := by
  refine BlockIo.ext rfl ?_ ?_ ?_ (funext (fun u => io_same rfl (fun _ => rfl) u))
  · funext d
    by_cases hd : d = b <;> simp [io, setBuf, hd]
  · funext d
    by_cases hd : d = b <;> simp [io, setBuf, hd]
  · funext d
    by_cases hd : d = b <;> simp [io, setBuf, hd]

/-- A call that waits, runs or is woken is the same to its caller. -/
theorem io_turn {c c' : VdiskCall} {l : Option VdiskHolder} (hc : s.call u = some c)
    (hsame : (c'.b, c'.write, c'.point) = (c.b, c.write, c.point)) : ((s.setCall u (some c')).setLock l).io = s.io := by
  have htask : ((s.setCall u (some c')).setLock l).task = s.task := by
    funext v
    change (s.setCall u (some c')).task v = s.task v
    rw [task_setCall]
    by_cases hv : v = u
    · rw [if_pos hv, hv, task_eq hc]
      exact congrArg some hsame
    · rw [if_neg hv]
  exact io_congr rfl (fun b => ⟨rfl, rfl, rfl⟩) (io_same htask (fun _ => rfl))

/-- A transfer changes the block or the buffer, and nothing else that the callers see. -/
theorem io_transfer (h : s.Inv) {st : Nat} {sector : UInt64} (hm : i ∈ s.device.taken) (hr : request s.disk i = some (w, sector, b, st)) :
    ∃ u, s.io.Step (.transfer u)
      ((s.setDevice { s.device with taken := s.device.taken.erase i, performed := s.device.performed ++ [i] }).transfer w sector b st).io := by
  obtain ⟨u, b', w', j, k, hu, hbusy, hstatus, hr'⟩ := h.request hm
  rw [hr] at hr'
  cases hr'
  obtain ⟨hcall, -, hdisk, -, -, -, -⟩ := transfer_fields
    (s.setDevice { s.device with taken := s.device.taken.erase i, performed := s.device.performed ++ [i] }) w (s.bufs b).sector b i
  obtain ⟨t, ht⟩ : ∃ t, t = (s.setDevice { s.device with taken := s.device.taken.erase i, performed := s.device.performed ++ [i] }).transfer
    w (s.bufs b).sector b i := ⟨_, rfl⟩
  rw [← ht] at hcall hdisk ⊢
  have htask : t.task = s.task := funext (fun v => by simp only [task, hcall]; rfl)
  have hcalls : t.io.call = Function.update s.io.call u (some ⟨b, w, true⟩) := by
    funext v
    by_cases hv : v = u
    · subst hv
      rw [Function.update_self, io_call ((congrFun htask v).trans hu)]
      simp [finished, hdisk, setDevice]
    · rw [Function.update_of_ne hv]
      have hone : OneTask s t u (some (b, w, .wait i j k)) := by
        intro v'
        rw [htask]
        split
        · rename_i hv'
          rw [hv', hu]
        · rfl
      refine io_other hone hv (fun b' w' i' j' k' hv' => ?_)
      have hne : i' ≠ i := by
        rintro rfl
        exact hv (h.owned.apart _ _ _ _ _ _ _ _ hv' hu i' (by simp [VdiskPoint.descs]) (by simp [VdiskPoint.descs]))
      simp [hdisk, hne, setDevice]
  have hbefore : s.io.call u = some ⟨b, w, false⟩ := by
    rw [io_call hu]
    simp [finished, hstatus]
  refine ⟨u, ?_⟩
  cases w with
  | true =>
    have hio : t.io = { s.io with
        sectors := Function.update s.io.sectors (s.io.sector b) (s.io.data b), call := Function.update s.io.call u (some ⟨b, true, true⟩) } :=
      BlockIo.ext (by rw [ht]; rfl) (by rw [ht]; rfl) (by rw [ht]; rfl) (by rw [ht]; rfl) hcalls
    rw [hio]
    exact .write hbefore
  | false =>
    have hio : t.io = { s.io with
        data := Function.update s.io.data b (s.io.sectors (s.io.sector b)), call := Function.update s.io.call u (some ⟨b, false, true⟩) } := by
      refine BlockIo.ext (by rw [ht]; rfl) ?_ ?_ ?_ hcalls
      · funext d
        by_cases hd : d = b
        · subst hd
          simp [ht, io, transfer, setBuf, setDisk, setDevice]
        · simp [ht, io, transfer, setBuf, setDisk, setDevice, hd]
      · funext d
        by_cases hd : d = b
        · subst hd
          simp [ht, io, transfer, setBuf, setDisk, setDevice, DiskBuf.sector]
        · simp [ht, io, transfer, setBuf, setDisk, setDevice, hd]
      · funext d
        by_cases hd : d = b
        · subst hd
          simp [ht, io, transfer, setBuf, setDisk, setDevice]
        · simp [ht, io, transfer, setBuf, setDisk, setDevice, hd]
    rw [hio]
    exact .read hbefore

/-- A call is at another point, and no further than before. -/
theorem io_point {q : VdiskPoint} (hu : s.task u = some (b, w, p)) (hone : OneTask s t u (some (b, w, q)))
    (hfin : t.finished q = s.finished p) (hsectors : t.device.sectors = s.device.sectors)
    (hbufs : ∀ b, (t.bufs b).lock = (s.bufs b).lock ∧ (t.bufs b).sector = (s.bufs b).sector ∧ (t.bufs b).data = (s.bufs b).data)
    (hinfo : ∀ v b w i j k, v ≠ u → s.task v = some (b, w, .wait i j k) → (t.disk.info i).status = (s.disk.info i).status) :
    t.io = s.io := by
  refine io_congr hsectors hbufs (fun v => ?_)
  by_cases hv : v = u
  · rw [hv, io_call hu, io_call hone.self, hfin]
  · exact io_other hone hv (fun b w i j k => hinfo v b w i j k hv)

/-- A step is a step of the disk that the callers see, or none, or a transfer. -/
theorem io_step (h : s.Inv) {a : VdiskAction α} (hstep : s.Step a t) :
    (∃ b, a.seen = some b ∧ b.seen = some b ∧ s.io.Step b t.io) ∨ (a.seen = none ∧ (t.io = s.io ∨ ∃ u, s.io.Step (.transfer u) t.io)) := by
  have hcases := step_cases hstep
  have hcallNone : ∀ {u}, s.call u = none → s.io.call u = none := fun hc => by simp [io, task_none hc]
  cases hcases with
  | @hold u b hl =>
    have hio : (s.setBuf b { s.bufs b with lock := some u }).io = { s.io with lock := Function.update s.io.lock b (some u) } := by
      rw [io_setBuf]
      exact BlockIo.ext rfl rfl (Function.update_eq_self b s.io.sector) (Function.update_eq_self b s.io.data) rfl
    refine Or.inl ⟨_, rfl, rfl, ?_⟩
    rw [hio]
    exact .hold hl
  | @unhold u b hl hc =>
    have hio : (s.setBuf b { s.bufs b with lock := none }).io = { s.io with lock := Function.update s.io.lock b none } := by
      rw [io_setBuf]
      exact BlockIo.ext rfl rfl (Function.update_eq_self b s.io.sector) (Function.update_eq_self b s.io.data) rfl
    refine Or.inl ⟨_, rfl, rfl, ?_⟩
    rw [hio]
    exact .unhold hl (hcallNone hc)
  | @edit u b blockno d hl hc =>
    have hio : (s.setBuf b { s.bufs b with blockno := blockno, data := d }).io =
        { s.io with sector := Function.update s.io.sector b (blockno * 2).toUInt64, data := Function.update s.io.data b d } := by
      rw [io_setBuf]
      exact BlockIo.ext rfl (Function.update_eq_self b s.io.lock) rfl rfl rfl
    refine Or.inl ⟨_, rfl, rfl, ?_⟩
    rw [hio]
    exact .edit hl (hcallNone hc)
  | @rw u b w hl hc =>
    have hio : (s.setCall u (some ⟨b, w, .alloc, .acquiring⟩)).io =
        { s.io with call := Function.update s.io.call u (some ⟨b, w, false⟩) } := by
      refine BlockIo.ext rfl rfl rfl rfl (funext (fun v => ?_))
      have hone : OneTask s (s.setCall u (some ⟨b, w, .alloc, .acquiring⟩)) u (some (b, w, .alloc)) := task_setCall s u _
      by_cases hv : v = u
      · change _ = Function.update s.io.call u (some ⟨b, w, false⟩) v
        rw [hv, io_call hone.self, Function.update_self]
        rfl
      · exact (io_other hone hv (fun _ _ _ _ _ _ => rfl)).trans (Function.update_of_ne hv ..).symm
    refine Or.inl ⟨_, rfl, rfl, ?_⟩
    rw [hio]
    exact .rw hl (hcallNone hc)
  | acquire hc => exact Or.inr ⟨rfl, Or.inl (io_turn hc rfl)⟩
  | @got u b i j k w rest hc hf =>
    refine Or.inr ⟨rfl, Or.inl (io_point (task_eq hc) (task_setCall _ u _) rfl rfl (fun d => ?_) (fun v b' w' i' j' k' _ hv => ?_))⟩
    · by_cases hd : d = b
      · subst hd
        simp [setCall, format, setBuf, setDisk, take, DiskBuf.sector]
      · simp [setCall, format, setBuf, setDisk, take, hd]
    · have hne : i' ≠ i := by
        rintro rfl
        have hused := ((h.owned.mine v b' w' _ hv).2 i' (by simp [VdiskPoint.descs])).2
        rw [(mem_frees.mp (show i' ∈ s.disk.frees by simp [hf])).2] at hused
        cases hused
      simp [setCall, format, setBuf, setDisk, take, hne]
  | @short u b w t hc hlt hr =>
    have htask := hr.task
    obtain ⟨c, hc', hb, hw, hp⟩ := call_of_task ((congrFun htask u).trans (task_eq hc))
    refine Or.inr ⟨rfl, Or.inl ((io_turn hc' (by rw [hb, hw, hp])).trans ?_)⟩
    refine io_congr (by rw [hr.device]) (fun b => by rw [hr.bufs]; exact ⟨rfl, rfl, rfl⟩) (io_same htask (fun d => ?_))
    rw [hr.disk]
  | @publish u b i j k w hc =>
    obtain ⟨av, us, hpipe⟩ := h.pipeline
    have hstatus := (hpipe.next u b w i j k (task_eq hc)).2.1
    refine Or.inr ⟨rfl, Or.inl (io_point (task_eq hc) (task_setCall _ u _) ?_ rfl (fun _ => ⟨rfl, rfl, rfl⟩) (fun _ _ _ _ _ _ _ _ => rfl))⟩
    simp [finished, setCall, setDisk, hstatus]
  | sleep hc => exact Or.inr ⟨rfl, Or.inl (io_turn hc rfl)⟩
  | @kkill u c hc hm =>
    refine Or.inr ⟨rfl, Or.inl ?_⟩
    change ((s.setCall u (some { c with mode := .acquiring })).setLock s.lock).io = s.io
    exact io_turn hc rfl
  | @ret u b i j k w t hc hd ht =>
    rw [ret_eq h hc] at ht
    cases ht
    obtain ⟨av, us, hpipe⟩ := h.pipeline
    have hu := task_eq hc
    have hstatus := hpipe.told u b w i j k hu hd
    have hio : (s.returned u i j k).io = { s.io with call := Function.update s.io.call u none } := by
      refine BlockIo.ext rfl rfl rfl rfl (funext (fun v => ?_))
      have hone := returned_task s u i j k
      by_cases hv : v = u
      · change _ = Function.update s.io.call u none v
        rw [hv, Function.update_self]
        simp [io, hone.self]
      · refine (io_other hone hv (fun b' w' i' j' k' _ => ?_)).trans (Function.update_of_ne hv ..).symm
        by_cases hi : i' = i
        · subst hi
          simp [returned, setLock, setCall, giveBack, wakeup, setDisk]
        · simp [returned, setLock, setCall, giveBack, wakeup, setDisk, hi]
    have hdone : s.io.call u = some ⟨b, w, true⟩ := by
      rw [io_call hu]
      simp [finished, hstatus]
    refine Or.inl ⟨.ret u, rfl, rfl, ?_⟩
    change s.io.Step (.ret u) (s.returned u i j k).io
    rw [hio]
    exact .ret hdone
  | intr => exact Or.inr ⟨rfl, Or.inl rfl⟩
  | @handle id b hl hne hid hst hb =>
    refine Or.inr ⟨rfl, Or.inl (io_congr rfl (fun d => ?_) (io_same (funext (wakeup_task _ _)) (fun _ => rfl)))⟩
    by_cases hd : d = b
    · subst hd
      simp [wakeup, setBuf, setDisk, DiskBuf.sector]
    · simp [wakeup, setBuf, setDisk, hd]
  | intrEnd => exact Or.inr ⟨rfl, Or.inl rfl⟩
  | take => exact Or.inr ⟨rfl, Or.inl rfl⟩
  | perform hm hr => exact Or.inr ⟨rfl, Or.inr (io_transfer h hm hr)⟩
  | complete => exact Or.inr ⟨rfl, Or.inl rfl⟩

theorem inv_run {sectors : UInt64 → α} {bufs : Nat → DiskBuf α} {as : List (VdiskAction α)} (h : Run Step (boot sectors bufs) as s) : s.Inv :=
  h.invariant Inv (fun _ _ _ hi hs => hi.step hs) (inv_boot sectors bufs)

/-- What the callers see of a run is a run of the disk that transfers every block at once. -/
theorem disk_driver_atomic {sectors : UInt64 → α} {bufs : Nat → DiskBuf α} {as : List (VdiskAction α)}
    (h : Run Step (boot sectors bufs) as s) :
    ∃ bs, Run BlockIo.Step (boot sectors bufs).io bs s.io ∧ bs.filterMap BlockAction.seen = as.filterMap VdiskAction.seen := by
  induction h with
  | nil => exact ⟨[], .nil _, rfl⟩
  | @snoc t u as a hr hs ih =>
    obtain ⟨bs, hbs, hseen⟩ := ih
    rcases io_step (inv_run hr) hs with ⟨b, ha, hb, hstep⟩ | ⟨ha, hio | ⟨v, hstep⟩⟩
    · exact ⟨bs ++ [b], hbs.snoc hstep, by simp [hseen, ha, hb]⟩
    · exact ⟨bs, hio ▸ hbs, by simp [hseen, ha]⟩
    · exact ⟨bs ++ [.transfer v], hbs.snoc hstep, by simp [hseen, ha, BlockAction.seen]⟩

/-- Steps of the driver, one after the other. -/
def replay (s : VdiskSys α) (a : VdiskAction α) : Option (VdiskSys α) := (s.step a).bind Except.toOption

theorem replay_step {a : VdiskAction α} (h : s.replay a = some t) : s.Step a t := by
  obtain ⟨r, hr, ht⟩ := Option.bind_eq_some_iff.mp h
  cases r with
  | error e => cases ht
  | ok t' =>
    cases ht
    exact hr

/-- A call reads block 7 while another one writes block 9. -/
def twoCalls : List (VdiskAction Nat) :=
  [.hold 0 4, .edit 0 4 7 0, .hold 1 5, .edit 1 5 9 90, .rw 0 4 false, .rw 1 5 true, .acquire 0, .alloc 0, .publish 0, .sleep 0, .acquire 1,
    .alloc 1, .publish 1, .take, .take, .perform 3, .complete 3, .sleep 1, .intr, .handle, .intrEnd, .perform 0, .acquire 1]

theorem disk_driver_atomic_two : ∃ s bs, Run Step (boot UInt64.toNat (fun b => ⟨none, false, 0, b⟩)) twoCalls s ∧
    Run BlockIo.Step (boot UInt64.toNat (fun b => ⟨none, false, 0, b⟩)).io bs s.io ∧ (s.bufs 4).data = 14 ∧ s.device.sectors 18 = 90 := by
  have hex : (twoCalls.foldlM replay (boot UInt64.toNat (fun b => ⟨none, false, 0, b⟩))).any
      (fun s => (s.bufs 4).data = 14 ∧ s.device.sectors 18 = 90) = true := by
    decide +kernel
  obtain ⟨s, hs, hd⟩ := (Option.any_eq_true _ _).mp hex
  have hrun : Run Step _ twoCalls s := (Run.of_foldlM hs).mono (fun _ _ _ h => replay_step h)
  obtain ⟨bs, hbs, -⟩ := disk_driver_atomic hrun
  exact ⟨s, bs, hrun, hbs, of_decide_eq_true hd⟩

/-- No panic is reached, and what the device takes is the request of a call, in descriptors of that call alone. -/
theorem disk_driver_safe {sectors : UInt64 → α} {bufs : Nat → DiskBuf α} {as : List (VdiskAction α)}
    (h : Run Step (boot sectors bufs) as s) :
    (∀ a e, s.step a ≠ some (.error e)) ∧
    (∀ i ∈ s.device.taken, ∃ u b w j k, s.task u = some (b, w, .wait i j k) ∧ request s.disk i = some (w, (s.bufs b).sector, b, i)) ∧
    (∀ u v b w p b' w' p', u ≠ v → s.task u = some (b, w, p) → s.task v = some (b', w', p') → b ≠ b' ∧ p.descs.Disjoint p'.descs) := by
  have hinv := inv_run h
  refine ⟨?_, ?_, ?_⟩
  · intro a e he
    cases a with
    | alloc u =>
      simp only [step] at he
      split at he
      · rcases s.alloc3Desc_spec with ⟨i, j, k, rest, -, ha⟩ | ⟨-, t, ha, -⟩
        · rw [ha] at he
          cases he
        · rw [ha] at he
          cases he
      · cases he
    | ret u =>
      simp only [step] at he
      split at he
      · rename_i hr
        obtain ⟨hc, rfl⟩ := running_eq hr
        split at he
        · cases he
        · rw [ret_eq hinv hc] at he
          cases he
      · cases he
    | handle =>
      obtain ⟨av, us, hpipe⟩ := hinv.pipeline
      simp only [step] at he
      split at he
      · rename_i hl
        obtain ⟨id, rest, -, hid, hstatus, -⟩ := hpipe.front hinv.owned hl.2
        rw [hid, if_neg (by simp [hstatus])] at he
        split at he
        · cases he
        · cases he
      · cases he
    | _ =>
      simp only [step] at he
      repeat' split at he
      all_goals cases he
  · intro i hi
    obtain ⟨u, b, w, j, k, hu, -, -, hr⟩ := hinv.request hi
    exact ⟨u, b, w, j, k, hu, hr⟩
  · intro u v b w p b' w' p' hne hu hv
    refine ⟨?_, ?_⟩
    · rintro rfl
      exact hne (hinv.owned.buf_unique hu hv)
    · intro d hd hd'
      exact hne (hinv.owned.apart _ _ _ _ _ _ _ _ hu hv d hd hd')

theorem disk_driver_safe_two : ∃ s, Run Step (boot UInt64.toNat (fun b => ⟨none, false, 0, b⟩)) twoCalls s ∧
    ∀ e, s.step (.ret 1) ≠ some (.error e) := by
  have hex : (twoCalls.foldlM replay (boot UInt64.toNat (fun b => ⟨none, false, 0, b⟩))).isSome = true := by
    decide +kernel
  obtain ⟨s, hs⟩ := Option.isSome_iff_exists.mp hex
  have hrun : Run Step _ twoCalls s := (Run.of_foldlM hs).mono (fun _ _ _ h => replay_step h)
  exact ⟨s, hrun, (disk_driver_safe hrun).1 (.ret 1)⟩

/-- The steps that bring a request forward: its call gets the descriptors, tells the device and returns, the device takes it, carries it
out and gives it back, and the handler tells its call. -/
def Forward (s : VdiskSys α) : VdiskAction α → Prop
  | .alloc _ => 3 ≤ s.disk.frees.length
  | .publish _ | .ret _ | .handle | .take | .perform _ | .complete _ => True
  | _ => False

/-- The steps of the driver that only pass the lock on: a call gets it, finds too few descriptors or goes to sleep, and the handler begins,
when the device has put a request on `used`, and ends. -/
def Turn (s : VdiskSys α) : VdiskAction α → Prop
  | .acquire _ | .sleep _ | .intrEnd => True
  | .alloc _ => s.disk.frees.length < 3
  | .intr => s.disk.usedIdx ≠ s.disk.usedRingIdx
  | _ => False

/-- A request is brought forward when the lock has been passed on `n` times at most. -/
inductive Soon : Nat → VdiskSys α → Prop where
  | now {n : Nat} {s t : VdiskSys α} {a : VdiskAction α} : s.Step a t → s.Forward a → Soon n s
  | turn {n : Nat} {s t : VdiskSys α} {a : VdiskAction α} : s.Step a t → s.Turn a → Soon n t → Soon (n + 1) s

theorem Soon.mono {m n : Nat} (h : s.Soon m) (hle : m ≤ n) : s.Soon n := by
  induction h generalizing n with
  | now hs hf => exact .now hs hf
  | @turn m s t a hs hf _ ih =>
    obtain ⟨n, rfl⟩ := Nat.exists_eq_add_of_le' (Nat.le_trans (Nat.le_add_left 1 m) hle)
    exact .turn hs hf (ih (Nat.le_of_succ_le_succ hle))

/-- A request on its way is moved on by the device, or is on `used`. -/
theorem device_forward (h : s.Inv) (hu : s.task u = some (b, w, .wait i j k)) (hb : (s.bufs b).disk = true) :
    (∃ a t, s.Forward a ∧ s.Step a t) ∨ s.disk.usedIdx ≠ s.disk.usedRingIdx := by
  obtain ⟨av, us, hpipe⟩ := h.pipeline
  have hlen := hpipe.length_le h.owned
  have hm := (hpipe.busy i).mpr ⟨u, b, w, j, k, hu, hb⟩
  rcases List.mem_append.mp hm with hm | hm
  · have hne : s.device.lastAvail ≠ s.disk.availIdx := by
      intro he
      rw [(hpipe.avail.nil_iff (by omega)).mp he] at hm
      cases hm
    exact Or.inl ⟨.take, _, trivial, by rw [Step, step, if_neg hne]⟩
  rcases List.mem_append.mp hm with hm | hm
  · obtain ⟨v, b', w', j', k', -, -, -, hr⟩ := h.request hm
    refine Or.inl ⟨.perform i, (s.setDevice { s.device with taken := s.device.taken.erase i, performed := s.device.performed ++ [i] }).transfer
      w' (s.bufs b').sector b' i, trivial, ?_⟩
    simp only [Step, step, if_pos hm, hr]
  rcases List.mem_append.mp hm with hm | hm
  · exact Or.inl ⟨.complete i, _, trivial, by rw [Step, step, if_pos hm]⟩
  · right
    intro he
    rw [(hpipe.used.nil_iff (by omega)).mp he] at hm
    cases hm

/-- The handler tells the call of the first request on `used`. -/
theorem handle_forward (h : s.Inv) (hl : s.lock = some .intr) (hne : s.disk.usedIdx ≠ s.disk.usedRingIdx) : s.Soon 0 := by
  obtain ⟨av, us, hpipe⟩ := h.pipeline
  obtain ⟨id, rest, -, hid, hstatus, v, b, w, j, k, hv, -⟩ := hpipe.front h.owned hne
  have hb := (h.requests v b w _ hv id j k rfl).info
  have hok : ¬(s.disk.info id).status ≠ 0 := not_not.mpr hstatus
  have hstep : ∃ t, s.Step .handle t := by
    simp only [Step, step, if_pos (And.intro hl hne), hid, if_neg hok, setDisk, hb]
    exact ⟨_, rfl⟩
  obtain ⟨t, ht⟩ := hstep
  exact .now ht trivial

/-- What is on `used` is handled when the lock is free. -/
theorem used_forward (h : s.Inv) (hl : s.lock = none) (hne : s.disk.usedIdx ≠ s.disk.usedRingIdx) : s.Soon 1 := by
  have hstep : s.Step .intr (s.setLock (some .intr)) := by rw [Step, step, if_pos hl]
  exact .turn hstep hne (handle_forward (h.step hstep) rfl hne)

/-- A request on its way is brought forward when the call that has the lock, if any, has gone to sleep. -/
theorem pipeline_forward (h : s.Inv) (hl : s.lock = none) (hu : s.task u = some (b, w, .wait i j k)) (hb : (s.bufs b).disk = true) :
    s.Soon 1 := by
  rcases device_forward h hu hb with ⟨a, t, hf, hs⟩ | hne
  · exact .now hs hf
  · exact used_forward h hl hne

/-- A call whose request is done returns as soon as it has the lock. -/
theorem ret_forward (h : s.Inv) (hc : s.call u = some ⟨b, w, .wait i j k, .running⟩) (hd : (s.bufs b).disk = false) : s.Soon 0 := by
  have hr : s.running u = some ⟨b, w, .wait i j k, .running⟩ := by simp [running, hc]
  have hstep : s.Step (.ret u) (s.returned u i j k) := by
    simp only [Step, step, hr, hd, ret_eq h hc]
    rfl
  exact .now hstep trivial

/-- When there are too few descriptors, a call has its own and waits for its buffer or for the lock. -/
theorem few_owned (h : s.Inv) (hlt : s.disk.frees.length < 3) : ∃ v b w p, s.task v = some (b, w, p) ∧ p ≠ .alloc := by
  obtain ⟨d, hd, hfree⟩ : ∃ d < numDesc, s.disk.free d = false := by
    by_contra hall
    have hfrees : s.disk.frees = List.range numDesc := by
      refine List.filter_eq_self.mpr (fun d hd => ?_)
      by_contra hd'
      exact hall ⟨d, List.mem_range.mp hd, by simpa using hd'⟩
    rw [hfrees, List.length_range] at hlt
    exact absurd hlt (by decide)
  obtain ⟨v, b, w, p, hv, hm⟩ := h.owned.owner d hd hfree
  refine ⟨v, b, w, p, hv, ?_⟩
  rintro rfl
  cases hm

/-- A call that waits for the lock gets it. -/
theorem step_acquire {c : VdiskCall} (hl : s.lock = none) (hc : s.call u = some c) (hm : c.mode = .acquiring) :
    s.Step (.acquire u) ((s.setCall u (some { c with mode := .running })).setLock (some (.call u))) := by
  simp only [Step, step, hc, if_pos (And.intro hm hl)]

/-- A call whose request is done and that waits for the lock returns. -/
theorem told_forward (h : s.Inv) (hl : s.lock = none) (hc : s.call u = some ⟨b, w, .wait i j k, .acquiring⟩)
    (hd : (s.bufs b).disk = false) : s.Soon 1 := by
  have hstep := step_acquire hl hc rfl
  exact .turn hstep trivial (ret_forward (h.step hstep) (Function.update_self ..) hd)

/-- A call that has the lock and finds too few descriptors sleeps, and a call that has them goes on. -/
theorem short_forward (h : s.Inv) (hc : s.call u = some ⟨b, w, .alloc, .running⟩) (hlt : s.disk.frees.length < 3) : s.Soon 2 := by
  have hlock := (h.locked.call u _ hc).running.mp rfl
  have hr : s.running u = some ⟨b, w, .alloc, .running⟩ := by simp [running, hc]
  obtain ⟨t, ha, hroll⟩ : ∃ t, s.alloc3Desc = .ok (none, t) ∧ s.Rolled t := by
    rcases s.alloc3Desc_spec with ⟨i, j, k, rest, hf, -⟩ | ⟨-, t, ha, hroll⟩
    · rw [hf] at hlt
      exact absurd hlt (by simp)
    · exact ⟨t, ha, hroll⟩
  have hstep : s.Step (.alloc u) ((t.setCall u (some ⟨b, w, .alloc, .asleep⟩)).setLock none) := by
    simp only [Step, step, hr, ha]
    rfl
  have hinv := h.step hstep
  refine .turn hstep hlt ?_
  obtain ⟨v, b', w', p, hv, hp⟩ := few_owned h hlt
  have hvu : v ≠ u := by
    rintro rfl
    rw [task_eq hc] at hv
    cases hv
    exact hp rfl
  obtain ⟨⟨b', w', p, m⟩, hcv, rfl, rfl, rfl⟩ := call_of_task hv
  have hok := h.locked.call v _ hcv
  have hnot : m ≠ .running := by
    intro hm
    have hl := hok.running.mp hm
    rw [hlock] at hl
    cases hl
    exact hvu rfl
  have hcall : ((t.setCall u (some ⟨b, w, .alloc, .asleep⟩)).setLock none).call v = t.call v := Function.update_of_ne hvu ..
  cases p with
  | alloc => exact absurd rfl hp
  | publish i j k => exact absurd (hok.publish i j k rfl) hnot
  | wait i j k =>
    cases hd : (s.bufs b').disk with
    | true =>
      have htask : (t.setCall u (some ⟨b, w, .alloc, .asleep⟩)).task v = some (b', w', .wait i j k) := by
        rw [task_setCall, if_neg hvu, hroll.task, hv]
      have hbusy : (t.bufs b').disk = true := by rw [hroll.bufs, hd]
      exact pipeline_forward hinv rfl htask hbusy
    | false =>
      -- the handler has told it of its request: it only wants the lock
      obtain rfl : m = .acquiring := by
        cases m with
        | acquiring => rfl
        | running => exact absurd rfl hnot
        | asleep =>
          have hbusy : (s.bufs b').disk = true := hok.wait rfl hp
          rw [hd] at hbusy
          cases hbusy
      have hkept : ((t.setCall u (some ⟨b, w, .alloc, .asleep⟩)).setLock none).call v = some ⟨b', w', .wait i j k, .acquiring⟩ := by
        rw [hcall]
        rcases hroll.call v with ht | ht
        · rw [ht, hcv]
        · rw [ht, hcv]
          rfl
      have hdone : (t.bufs b').disk = false := by rw [hroll.bufs, hd]
      exact told_forward hinv rfl hkept hdone

/-- A call that has the lock goes on, or sleeps and lets another one go on. -/
theorem running_forward (h : s.Inv) {c : VdiskCall} (hc : s.call u = some c) (hm : c.mode = .running) : s.Soon 2 := by
  obtain ⟨b, w, p, m⟩ := c
  obtain rfl : m = .running := hm
  have hr : s.running u = some ⟨b, w, p, .running⟩ := by simp [running, hc]
  cases p with
  | alloc =>
    rcases s.alloc3Desc_spec with ⟨i, j, k, rest, hf, ha⟩ | ⟨hlt, -⟩
    · have hstep : ∃ t, s.Step (.alloc u) t := by
        simp only [Step, step, hr, ha]
        exact ⟨_, rfl⟩
      obtain ⟨t, ht⟩ := hstep
      have henough : 3 ≤ s.disk.frees.length := by
        rw [hf]
        simp
      exact .now ht henough
    · exact short_forward h hc hlt
  | publish i j k =>
    have hstep : ∃ t, s.Step (.publish u) t := by
      simp only [Step, step, hr]
      exact ⟨_, rfl⟩
    obtain ⟨t, ht⟩ := hstep
    exact .now ht trivial
  | wait i j k =>
    cases hd : (s.bufs b).disk with
    | true =>
      have hstep : s.Step (.sleep u) ((s.setCall u (some ⟨b, w, .wait i j k, .asleep⟩)).setLock none) := by
        simp only [Step, step, hr, if_pos hd]
      have hcall : ((s.setCall u (some ⟨b, w, .wait i j k, .asleep⟩)).setLock none).call u = some ⟨b, w, .wait i j k, .asleep⟩ :=
        Function.update_self ..
      exact .turn hstep trivial (pipeline_forward (h.step hstep) rfl (task_eq hcall) hd)
    | false => exact (ret_forward h hc hd).mono (Nat.zero_le _)

/-- While the lock is free, a call that wants it gets it, and when all sleep one of them has its request on its way. -/
theorem free_forward (h : s.Inv) (hl : s.lock = none) (hu : s.call u ≠ none) : s.Soon 3 := by
  by_cases hacq : ∃ v c, s.call v = some c ∧ c.mode = .acquiring
  · obtain ⟨v, c, hc, hm⟩ := hacq
    have hstep := step_acquire hl hc hm
    exact .turn hstep trivial (running_forward (h.step hstep) (Function.update_self ..) rfl)
  · have hasleep : ∀ {v c}, s.call v = some c → c.mode = .asleep := by
      intro v c hc
      cases hm : c.mode with
      | acquiring => exact absurd ⟨v, c, hc, hm⟩ hacq
      | running =>
        have hheld := (h.locked.call v c hc).running.mp hm
        rw [hl] at hheld
        cases hheld
      | asleep => rfl
    -- whoever has descriptors sleeps for its buffer
    obtain ⟨v, b, w, p, hv, hp⟩ : ∃ v b w p, s.task v = some (b, w, p) ∧ p ≠ .alloc := by
      obtain ⟨c, hc⟩ := Option.ne_none_iff_exists'.mp hu
      by_cases hp : c.point = .alloc
      · exact few_owned h ((h.locked.call u c hc).alloc (hasleep hc) hp)
      · exact ⟨u, c.b, c.write, c.point, task_eq hc, hp⟩
    obtain ⟨⟨b, w, p, m⟩, hc, rfl, rfl, rfl⟩ := call_of_task hv
    have hok := h.locked.call v _ hc
    have hm := hasleep hc
    cases p with
    | alloc => exact absurd rfl hp
    | publish i j k =>
      have hrun := hok.publish i j k rfl
      rw [hm] at hrun
      cases hrun
    | wait i j k => exact (pipeline_forward h hl hv (hok.wait hm hp)).mono (by decide)

/-- While a call is under way, the lock is passed on four times at most before some request is brought forward: no wakeup is lost. -/
theorem disk_driver_forward {sectors : UInt64 → α} {bufs : Nat → DiskBuf α} {as : List (VdiskAction α)}
    (h : Run Step (boot sectors bufs) as s) (hu : s.call u ≠ none) : s.Soon 4 := by
  have hinv := inv_run h
  cases hl : s.lock with
  | none => exact (free_forward hinv hl hu).mono (by decide)
  | some l =>
    cases l with
    | call v =>
      obtain ⟨c, hc⟩ := Option.ne_none_iff_exists'.mp (hinv.locked.holder v hl)
      exact (running_forward hinv hc ((hinv.locked.call v c hc).running.mpr hl)).mono (by decide)
    | intr =>
      by_cases he : s.disk.usedIdx = s.disk.usedRingIdx
      · have hstep : s.Step .intrEnd (s.setLock none) := by rw [Step, step, if_pos ⟨hl, he⟩]
        exact .turn hstep trivial (free_forward (hinv.step hstep) rfl hu)
      · exact (handle_forward hinv hl he).mono (by decide)

theorem disk_driver_forward_two : ∃ s, Run Step (boot UInt64.toNat (fun b => ⟨none, false, 0, b⟩)) twoCalls s ∧ s.Soon 4 := by
  have hex : (twoCalls.foldlM replay (boot UInt64.toNat (fun b => ⟨none, false, 0, b⟩))).any (fun s => (s.call 0).isSome) = true := by
    decide +kernel
  obtain ⟨s, hs, hc⟩ := (Option.any_eq_true _ _).mp hex
  have hrun : Run Step _ twoCalls s := (Run.of_foldlM hs).mono (fun _ _ _ h => replay_step h)
  exact ⟨s, hrun, disk_driver_forward hrun (u := 0) (Option.isSome_iff_ne_none.mp hc)⟩

end VdiskSys

end Xv6SnifferBakery.Kernel
