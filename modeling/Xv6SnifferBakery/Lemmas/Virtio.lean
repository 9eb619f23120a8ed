import Mathlib.Data.List.Perm.Subperm
import Xv6SnifferBakery.Kernel.Virtio
import Xv6SnifferBakery.Lib.Loop

/-!
# The disk driver's invariant

Calls own their descriptors, three each; a request that the device can see is formatted; and a request is in exactly one place on its
way from `avail` through the device to `used`, until the handler tells its call. What the callers see is a disk that transfers a block
at once.
-/

namespace Xv6SnifferBakery.Kernel

open Lib

/-! ## Rings -/

/-- A ring between two counters holds the requests `q`. -/
structure RingHolds (ring : Nat → Nat) (r w : UInt16) (q : List Nat) : Prop where
  stores : Ring.Stores ring numDesc r.toNat q
  count : w = r + UInt16.ofNat q.length

namespace RingHolds

variable {ring : Nat → Nat} {r w : UInt16} {q : List Nat} {x : Nat}

theorem slot (h : RingHolds ring r w q) : w.toNat % numDesc = (r.toNat + q.length) % numDesc := by
  rw [h.count, UInt16.toNat_add, UInt16.toNat_ofNat']
  unfold numDesc
  omega

/-- The slot behind the requests is written. -/
theorem write (h : RingHolds ring r w q) (hlt : q.length < numDesc) (x : Nat) :
    RingHolds (Function.update ring (w.toNat % numDesc) x) r w q := by
  refine ⟨?_, h.count⟩
  intro k y hk
  have hkq := (List.getElem?_eq_some_iff.mp hk).1
  have := h.stores.push hlt x k y (by rwa [List.getElem?_append_left hkq])
  rwa [h.slot]

/-- The counter is advanced over the slot. -/
theorem advance (h : RingHolds ring r w q) (hx : ring (w.toNat % numDesc) = x) : RingHolds ring r (w + 1) (q ++ [x]) := by
  refine ⟨?_, ?_⟩
  · intro k y hk
    rcases Nat.lt_or_ge k q.length with hlt | hge
    · rw [List.getElem?_append_left hlt] at hk
      exact h.stores k y hk
    · rw [List.getElem?_append_right hge] at hk
      obtain ⟨hzero, rfl⟩ : k - q.length = 0 ∧ x = y := by
        rcases hd : k - q.length with _ | m
        · rw [hd] at hk
          exact ⟨rfl, Option.some.inj hk⟩
        · simp [hd] at hk
      rw [show k = q.length by omega, ← h.slot, hx]
  · rw [h.count, List.length_append, List.length_singleton, UInt16.ofNat_add, UInt16.add_assoc]
    rfl

theorem push (h : RingHolds ring r w q) (hlt : q.length < numDesc) (x : Nat) :
    RingHolds (Function.update ring (w.toNat % numDesc) x) r (w + 1) (q ++ [x]) :=
  (h.write hlt x).advance (Function.update_self ..)

theorem nil_iff (h : RingHolds ring r w q) (hlt : q.length ≤ numDesc) : r = w ↔ q = [] := by
  constructor
  · intro hrw
    have hcount := h.count
    rw [← hrw] at hcount
    have hzero : UInt16.ofNat q.length = 0 := by simpa using hcount.symm
    have := congrArg UInt16.toNat hzero
    rw [UInt16.toNat_ofNat', UInt16.toNat_zero] at this
    unfold numDesc at hlt
    exact List.length_eq_zero_iff.mp (by omega)
  · rintro rfl
    have := h.count
    simpa using this.symm

theorem pop (h : RingHolds ring r w (x :: q)) : ring (r.toNat % numDesc) = x ∧ RingHolds ring (r + 1) w q := by
  refine ⟨h.stores.front, ?_, ?_⟩
  · have := h.stores.pop.wrap (show numDesc ∣ UInt16.size by decide)
    rwa [UInt16.toNat_add]
  · rw [h.count, List.length_cons, UInt16.ofNat_add, UInt16.add_comm (UInt16.ofNat q.length), ← UInt16.add_assoc]
    rfl

end RingHolds

/-! ## Descriptors -/

/-- The descriptors that are free. -/
def Vdisk.frees (d : Vdisk) : List Nat := (List.range numDesc).filter d.free

/-- The descriptors of a call. -/
def VdiskPoint.descs : VdiskPoint → List Nat
  | .alloc => []
  | .publish i j k => [i, j, k]
  | .wait i j k => [i, j, k]

namespace VdiskSys

variable {α : Type} {s t : VdiskSys α} {u b i j k h : Nat} {w : Bool} {p : VdiskPoint}

/-- What a call is about, whatever it is waiting for. -/
def task (s : VdiskSys α) (u : Nat) : Option (Nat × Bool × VdiskPoint) := (s.call u).map (fun c => (c.b, c.write, c.point))

theorem woken_task (chan : VdiskChan) (c : VdiskCall) :
    ((c.woken chan).b, (c.woken chan).write, (c.woken chan).point) = (c.b, c.write, c.point) := by
  unfold VdiskCall.woken
  split <;> rfl

@[simp] theorem wakeup_task (s : VdiskSys α) (chan : VdiskChan) (u : Nat) : (s.wakeup chan).task u = s.task u := by
  simp only [task, wakeup, Option.map_map]
  exact congrFun (congrArg Option.map (funext (woken_task chan))) _

@[simp] theorem wakeup_disk (s : VdiskSys α) (chan : VdiskChan) : (s.wakeup chan).disk = s.disk := rfl
@[simp] theorem wakeup_bufs (s : VdiskSys α) (chan : VdiskChan) : (s.wakeup chan).bufs = s.bufs := rfl
@[simp] theorem wakeup_device (s : VdiskSys α) (chan : VdiskChan) : (s.wakeup chan).device = s.device := rfl
@[simp] theorem wakeup_lock (s : VdiskSys α) (chan : VdiskChan) : (s.wakeup chan).lock = s.lock := rfl

theorem frees_take {d : Vdisk} {i : Nat} {rest : List Nat} (h : d.frees = i :: rest) :
    ((List.range numDesc).filter (Function.update d.free i false)) = rest := by
  have hnodup : (i :: rest).Nodup := h ▸ List.nodup_range.filter _
  have hfilter : (List.range numDesc).filter (Function.update d.free i false) = d.frees.filter (fun x => decide (x ≠ i)) := by
    rw [Vdisk.frees, List.filter_filter]
    refine List.filter_congr (fun x _ => ?_)
    by_cases hx : x = i <;> simp [hx, Function.update]
  rw [hfilter, h, List.filter_cons_of_neg (by simp), List.filter_eq_self]
  intro x hx
  have := (List.nodup_cons.mp hnodup).1
  simp only [decide_eq_true_eq]
  rintro rfl
  exact this hx

theorem mem_frees {d : Vdisk} {i : Nat} : i ∈ d.frees ↔ i < numDesc ∧ d.free i = true := by
  simp [Vdisk.frees]

/-- `alloc_desc` takes the first free descriptor. -/
theorem allocDesc_eq (s : VdiskSys α) : s.allocDesc =
    s.disk.frees.head?.map (fun i => (i, s.setDisk { s.disk with free := Function.update s.disk.free i false })) := by
  rw [allocDesc, Vdisk.frees, List.head?_filter]

/-- `free_desc` on a descriptor that is in use. -/
def giveBack (s : VdiskSys α) (i : Nat) : VdiskSys α :=
  (s.setDisk { s.disk with desc := Function.update s.disk.desc i ⟨.null, 0, 0, 0⟩, free := Function.update s.disk.free i true }).wakeup .free

theorem giveBack_task (s : VdiskSys α) (i v : Nat) : (s.giveBack i).task v = s.task v := wakeup_task _ _ _

theorem freeDesc_eq (hi : i < numDesc) (hfree : s.disk.free i = false) : s.freeDesc i = .ok (s.giveBack i) := by
  rw [freeDesc, if_neg (Nat.not_le.mpr hi), if_neg (by simp [hfree])]
  rfl

/-- What an `alloc3_desc` that fails leaves changed: free descriptors may be zeroed, and calls woken. -/
structure Rolled (s t : VdiskSys α) : Prop where
  free : t.disk.free = s.disk.free
  desc : ∀ d, s.disk.free d = false → t.disk.desc d = s.disk.desc d
  disk : t.disk = { s.disk with desc := t.disk.desc }
  bufs : t.bufs = s.bufs
  device : t.device = s.device
  lock : t.lock = s.lock
  call : ∀ u, t.call u = s.call u ∨ t.call u = (s.call u).map (VdiskCall.woken .free)

theorem woken_woken (chan : VdiskChan) (c : VdiskCall) : (c.woken chan).woken chan = c.woken chan := by
  unfold VdiskCall.woken
  split <;> simp_all

/-- A descriptor is marked as in use. -/
def take (s : VdiskSys α) (i : Nat) : VdiskSys α := s.setDisk { s.disk with free := Function.update s.disk.free i false }

theorem allocDesc_cons {rest : List Nat} (h : s.disk.frees = i :: rest) : s.allocDesc = some (i, s.take i) ∧ (s.take i).disk.frees = rest := by
  refine ⟨?_, frees_take h⟩
  rw [allocDesc_eq, h]
  rfl

theorem allocDesc_nil (h : s.disk.frees = []) : s.allocDesc = none := by
  rw [allocDesc_eq, h]
  rfl

theorem Rolled.giveBack_take (hi : s.disk.free i = true) : s.Rolled ((s.take i).giveBack i) := by
  refine ⟨by simp [giveBack, take, setDisk, hi], ?_, by simp [giveBack, take, setDisk, hi], rfl, rfl, rfl, fun u => Or.inr rfl⟩
  intro d hd
  have hne : d ≠ i := by
    rintro rfl
    rw [hi] at hd
    cases hd
  exact Function.update_of_ne hne ..

theorem Rolled.trans {v : VdiskSys α} (h : s.Rolled t) (h' : t.Rolled v) : s.Rolled v := by
  refine ⟨h'.free.trans h.free, ?_, ?_, h'.bufs.trans h.bufs, h'.device.trans h.device, h'.lock.trans h.lock, ?_⟩
  · intro d hd
    rw [h'.desc d (by rwa [h.free]), h.desc d hd]
  · rw [h'.disk, h.disk]
  · intro u
    rcases h'.call u with hu | hu
    · rw [hu]
      exact h.call u
    · rcases h.call u with hs | hs
      · rw [hu, hs]
        exact Or.inr rfl
      · right
        rw [hu, hs, Option.map_map]
        exact congrArg (fun f => Option.map f (s.call u)) (funext (woken_woken .free))

/-- `alloc3_desc` gets the first three free descriptors, or leaves all as it was. -/
theorem alloc3Desc_spec (s : VdiskSys α) :
    (∃ i j k rest, s.disk.frees = i :: j :: k :: rest ∧ s.alloc3Desc = .ok (some (i, j, k), ((s.take i).take j).take k)) ∨
    (s.disk.frees.length < 3 ∧ ∃ t, s.alloc3Desc = .ok (none, t) ∧ s.Rolled t) := by
  have hmem : ∀ {d : Nat}, d ∈ s.disk.frees → d < numDesc ∧ s.disk.free d = true := mem_frees.mp
  have hnodup : s.disk.frees.Nodup := List.nodup_range.filter _
  rcases hf : s.disk.frees with _ | ⟨i, _ | ⟨j, _ | ⟨k, rest⟩⟩⟩
  · right
    refine ⟨by simp, s, ?_, rfl, fun _ _ => rfl, rfl, rfl, rfl, rfl, fun _ => Or.inl rfl⟩
    rw [alloc3Desc, allocDesc_nil hf]
  · right
    obtain ⟨hi, hfi⟩ := hmem (by rw [hf]; exact List.mem_cons_self ..)
    obtain ⟨halloc, hrest⟩ := allocDesc_cons hf
    refine ⟨by simp, _, ?_, Rolled.giveBack_take hfi⟩
    rw [alloc3Desc, halloc]
    simp only [allocDesc_nil hrest, freeDesc_eq (s := s.take i) hi (Function.update_self ..)]
    rfl
  · right
    obtain ⟨hi, hfi⟩ := hmem (by rw [hf]; exact List.mem_cons_self ..)
    obtain ⟨hj, hfj⟩ := hmem (show j ∈ s.disk.frees by rw [hf]; simp)
    have hne : i ≠ j := by
      rw [hf] at hnodup
      simpa using hnodup
    obtain ⟨halloc, hrest⟩ := allocDesc_cons hf
    obtain ⟨halloc', hrest'⟩ := allocDesc_cons hrest
    have hfi' : ((s.take i).take j).disk.free i = false := by simp [take, setDisk, hne]
    have hfj' : (((s.take i).take j).giveBack i).disk.free j = false := by simp [giveBack, take, setDisk, hne.symm]
    refine ⟨by simp, (((s.take i).take j).giveBack i).giveBack j, ?_, ?_⟩
    · rw [alloc3Desc, halloc]
      simp only [halloc', allocDesc_nil hrest', freeDesc_eq hi hfi']
      simp only [bind, Except.bind, freeDesc_eq hj hfj']
    · have hswap : (((s.take i).take j).giveBack i).giveBack j = (((s.take i).giveBack i).take j).giveBack j := by
        simp only [giveBack, take, setDisk, wakeup]
        rw [Function.update_comm hne.symm]
      rw [hswap]
      exact (Rolled.giveBack_take hfi).trans (Rolled.giveBack_take (by simp [giveBack, take, setDisk, hfj, hne.symm]))
  · left
    obtain ⟨halloc, hrest⟩ := allocDesc_cons hf
    obtain ⟨halloc', hrest'⟩ := allocDesc_cons hrest
    obtain ⟨halloc'', -⟩ := allocDesc_cons hrest'
    refine ⟨i, j, k, rest, rfl, ?_⟩
    rw [alloc3Desc, halloc]
    simp only [halloc', halloc'']

/-! ## Requests -/

/-- Three descriptors that are a chain. -/
structure Chained (d : Vdisk) (b : Nat) (write : Bool) (i j k : Nat) : Prop where
  head : d.desc i = ⟨.op i, 16, vringDescFNext, j⟩
  data : d.desc j = ⟨.data b, 1024, (if write then 0 else vringDescFWrite) ||| vringDescFNext, k⟩
  status : d.desc k = ⟨.status i, 1, vringDescFWrite, 0⟩

/-- A request as `virtio_disk_rw` puts it into its descriptors. -/
structure Formatted (d : Vdisk) (b : Nat) (write : Bool) (sector : UInt64) (i j k : Nat) : Prop extends Chained d b write i j k where
  op : d.ops i = ⟨if write then virtioBlkTOut else virtioBlkTIn, 0, sector⟩
  info : (d.info i).b = some b

/-- The device finds it as it is meant. -/
theorem Formatted.request {d : Vdisk} {sector : UInt64} (h : Formatted d b w sector i j k) :
    VdiskSys.request d i = some (w, sector, b, i) := by
  rw [VdiskSys.request]
  simp only [h.head, h.data, h.status, h.op]
  cases w <;> simp [virtioBlkTOut, virtioBlkTIn]

/-- `free_chain` on a chain of three. -/
theorem freeChain_eq (h : Chained s.disk b w i j k) (hnodup : [i, j, k].Nodup)
    (hd : ∀ d ∈ [i, j, k], d < numDesc ∧ s.disk.free d = false) :
    freeChain numDesc s i = .ok (((s.giveBack i).giveBack j).giveBack k) := by
  obtain ⟨hi, hfi⟩ := hd i (by simp)
  obtain ⟨hj, hfj⟩ := hd j (by simp)
  obtain ⟨hk, hfk⟩ := hd k (by simp)
  have hne : i ≠ j ∧ i ≠ k ∧ j ≠ k := by
    simp only [List.nodup_cons, List.mem_cons, List.not_mem_nil, or_false, not_or] at hnodup
    exact ⟨hnodup.1.1, hnodup.1.2, hnodup.2.1⟩
  have hj' : (s.giveBack i).disk.free j = false := by simp [giveBack, setDisk, hne.1.symm, hfj]
  have hk' : ((s.giveBack i).giveBack j).disk.free k = false := by simp [giveBack, setDisk, hne.2.1.symm, hne.2.2.symm, hfk]
  have hdj : (s.giveBack i).disk.desc j = s.disk.desc j := by simp [giveBack, setDisk, hne.1.symm]
  have hdk : ((s.giveBack i).giveBack j).disk.desc k = s.disk.desc k := by simp [giveBack, setDisk, hne.2.1.symm, hne.2.2.symm]
  have hflag : ((if w then 0 else vringDescFWrite) ||| vringDescFNext) &&& vringDescFNext ≠ 0 := by
    cases w <;> decide
  have hnext : vringDescFNext &&& vringDescFNext ≠ 0 := by decide
  have hlast : ¬(vringDescFWrite &&& vringDescFNext ≠ 0) := by decide
  simp only [numDesc, freeChain, freeDesc_eq hi hfi, h.head, if_pos hnext, bind, Except.bind, freeDesc_eq hj hj', hdj, h.data, if_pos hflag,
    freeDesc_eq hk hk', hdk, h.status, if_neg hlast]

/-! ## The invariant -/

/-- How a call may wait: with the lock when it runs, for descriptors while there are too few, and for its buffer while that is busy. -/
structure CallOk (held few busy : Prop) (c : VdiskCall) : Prop where
  running : c.mode = .running ↔ held
  publish : ∀ i j k, c.point = .publish i j k → c.mode = .running
  alloc : c.mode = .asleep → c.point = .alloc → few
  wait : c.mode = .asleep → c.point ≠ .alloc → busy

theorem CallOk.woken {held few busy few' busy' : Prop} {c : VdiskCall} {chan : VdiskChan} (h : CallOk held few busy c)
    (hfew : few' ∨ chan = .free ∨ (few → few')) (hbusy : busy' ∨ chan = .buf c.b ∨ (busy → busy')) :
    CallOk held few' busy' (c.woken chan) := by
  unfold VdiskCall.woken
  split
  · rename_i hw
    refine ⟨?_, ?_, by simp, by simp⟩
    · have hheld : ¬held := fun hh => by
        rw [h.running.mpr hh] at hw
        exact absurd hw.1 (by decide)
      simp [hheld]
    · intro i j k hp
      rw [h.publish i j k hp] at hw
      exact absurd hw.1 (by decide)
  · rename_i hw
    refine ⟨h.running, h.publish, fun hm hp => ?_, fun hm hp => ?_⟩
    · rcases hfew with hfew | rfl | hfew
      · exact hfew
      · exact absurd ⟨hm, by simp [VdiskCall.chan, hp]⟩ hw
      · exact hfew (h.alloc hm hp)
    · rcases hbusy with hbusy | rfl | hbusy
      · exact hbusy
      · exact absurd ⟨hm, by simp [VdiskCall.chan, hp]⟩ hw
      · exact hbusy (h.wait hm hp)

/-- Who has the lock, who waits, and for what. -/
structure Locked (s : VdiskSys α) : Prop where
  call : ∀ u c, s.call u = some c → CallOk (s.lock = some (.call u)) (s.disk.frees.length < 3) ((s.bufs c.b).disk = true) c
  holder : ∀ u, s.lock = some (.call u) → s.call u ≠ none

/-- Calls have buffers and descriptors of their own. -/
structure Owned (s : VdiskSys α) : Prop where
  buf : ∀ u b w p, s.task u = some (b, w, p) → (s.bufs b).lock = some u
  mine : ∀ u b w p, s.task u = some (b, w, p) → p.descs.Nodup ∧ ∀ d ∈ p.descs, d < numDesc ∧ s.disk.free d = false
  apart : ∀ u b w p v b' w' p', s.task u = some (b, w, p) → s.task v = some (b', w', p') → ∀ d ∈ p.descs, d ∈ p'.descs → u = v
  owner : ∀ d < numDesc, s.disk.free d = false → ∃ u b w p, s.task u = some (b, w, p) ∧ d ∈ p.descs

/-- What the descriptors of a call say. -/
def Requests (s : VdiskSys α) : Prop := ∀ u b w p, s.task u = some (b, w, p) → ∀ i j k, p.descs = [i, j, k] →
  Formatted s.disk b w (s.bufs b).sector i j k

/-- The requests between the driver and the device: `av` on `avail`, `us` on `used`. -/
structure Pipeline (s : VdiskSys α) (av us : List Nat) : Prop where
  avail : RingHolds s.disk.availRing s.device.lastAvail s.disk.availIdx av
  used : RingHolds s.disk.usedRing s.disk.usedIdx s.disk.usedRingIdx us
  nodup : (av ++ (s.device.taken ++ (s.device.performed ++ us))).Nodup
  busy : ∀ h, h ∈ av ++ (s.device.taken ++ (s.device.performed ++ us)) ↔
    ∃ u b w j k, s.task u = some (b, w, .wait h j k) ∧ (s.bufs b).disk = true
  todo : ∀ h ∈ av ++ s.device.taken, (s.disk.info h).status = 0xff
  done : ∀ h ∈ s.device.performed ++ us, (s.disk.info h).status = 0
  told : ∀ u b w i j k, s.task u = some (b, w, .wait i j k) → (s.bufs b).disk = false → (s.disk.info i).status = 0
  next : ∀ u b w i j k, s.task u = some (b, w, .publish i j k) →
    s.disk.availRing (s.disk.availIdx.toNat % numDesc) = i ∧ (s.disk.info i).status = 0xff ∧ (s.bufs b).disk = true

structure Inv (s : VdiskSys α) : Prop where
  locked : s.Locked
  owned : s.Owned
  requests : s.Requests
  pipeline : ∃ av us, s.Pipeline av us

theorem task_eq {c : VdiskCall} (h : s.call u = some c) : s.task u = some (c.b, c.write, c.point) := by
  simp [task, h]

theorem task_none (h : s.call u = none) : s.task u = none := by
  simp [task, h]

theorem call_of_task (h : s.task u = some (b, w, p)) : ∃ c, s.call u = some c ∧ c.b = b ∧ c.write = w ∧ c.point = p := by
  obtain ⟨c, hc, heq⟩ := Option.map_eq_some_iff.mp h
  cases heq
  exact ⟨c, hc, rfl, rfl, rfl⟩

theorem task_setCall (s : VdiskSys α) (u : Nat) (o : Option VdiskCall) (v : Nat) :
    (s.setCall u o).task v = if v = u then o.map (fun c => (c.b, c.write, c.point)) else s.task v := by
  unfold task setCall
  by_cases hv : v = u
  · rw [if_pos hv, hv]
    simp
  · rw [if_neg hv]
    simp [hv]

theorem inv_boot (sectors : UInt64 → α) (bufs : Nat → DiskBuf α) : (boot sectors bufs).Inv := by
  refine ⟨⟨fun u c h => (by cases h), fun u h => (by cases h)⟩, ⟨?_, ?_, ?_, ?_⟩, ?_, [], [], ?_⟩
  · intro u b w p h
    cases h
  · intro u b w p h
    cases h
  · intro u b w p v b' w' p' h
    cases h
  · intro d _ h
    cases h
  · intro u b w p h
    cases h
  · refine ⟨⟨Ring.Stores.nil, rfl⟩, ⟨Ring.Stores.nil, rfl⟩, List.nodup_nil, ?_, ?_, ?_, ?_, ?_⟩
    · intro h
      constructor
      · intro hm
        cases hm
      · rintro ⟨u, b, w, j, k, ht, -⟩
        cases ht
    · intro h hm
      cases hm
    · intro h hm
      cases hm
    · intro u b w i j k ht
      cases ht
    · intro u b w i j k ht
      cases ht

/-! ## Steps

The buffers and descriptors, the requests and the pipeline depend on the calls only through what they are about: a call that waits, gets
the lock or is woken changes none of it.
-/

/-- What a step that succeeds does. -/
inductive Steps (s : VdiskSys α) : VdiskAction α → VdiskSys α → Prop where
  | hold {u b : Nat} : (s.bufs b).lock = none → Steps s (.hold u b) (s.setBuf b { s.bufs b with lock := some u })
  | unhold {u b : Nat} : (s.bufs b).lock = some u → s.call u = none → Steps s (.unhold u b) (s.setBuf b { s.bufs b with lock := none })
  | edit {u b : Nat} {blockno : UInt32} {d : α} : (s.bufs b).lock = some u → s.call u = none →
      Steps s (.edit u b blockno d) (s.setBuf b { s.bufs b with blockno := blockno, data := d })
  | rw {u b : Nat} {write : Bool} : (s.bufs b).lock = some u → s.call u = none →
      Steps s (.rw u b write) (s.setCall u (some ⟨b, write, .alloc, .acquiring⟩))
  | acquire {u : Nat} {c : VdiskCall} : s.call u = some c → c.mode = .acquiring → s.lock = none →
      Steps s (.acquire u) ((s.setCall u (some { c with mode := .running })).setLock (some (.call u)))
  | got {u b i j k : Nat} {w : Bool} {rest : List Nat} : s.call u = some ⟨b, w, .alloc, .running⟩ → s.disk.frees = i :: j :: k :: rest →
      Steps s (.alloc u) (((((s.take i).take j).take k).format b w i j k).setCall u (some ⟨b, w, .publish i j k, .running⟩))
  | short {u b : Nat} {w : Bool} {t : VdiskSys α} : s.call u = some ⟨b, w, .alloc, .running⟩ → s.disk.frees.length < 3 → s.Rolled t →
      Steps s (.alloc u) ((t.setCall u (some ⟨b, w, .alloc, .asleep⟩)).setLock none)
  | publish {u b i j k : Nat} {w : Bool} : s.call u = some ⟨b, w, .publish i j k, .running⟩ →
      Steps s (.publish u) ((s.setDisk { s.disk with availIdx := s.disk.availIdx + 1 }).setCall u (some ⟨b, w, .wait i j k, .running⟩))
  | sleep {u b i j k : Nat} {w : Bool} : s.call u = some ⟨b, w, .wait i j k, .running⟩ → (s.bufs b).disk = true →
      Steps s (.sleep u) ((s.setCall u (some ⟨b, w, .wait i j k, .asleep⟩)).setLock none)
  | kkill {u : Nat} {c : VdiskCall} : s.call u = some c → c.mode = .asleep →
      Steps s (.kkill u) (s.setCall u (some { c with mode := .acquiring }))
  | ret {u b i j k : Nat} {w : Bool} {t : VdiskSys α} : s.call u = some ⟨b, w, .wait i j k, .running⟩ → (s.bufs b).disk = false →
      freeChain numDesc (s.setDisk { s.disk with info := Function.update s.disk.info i { s.disk.info i with b := none } }) i = .ok t →
      Steps s (.ret u) ((t.setCall u none).setLock none)
  | intr : s.lock = none → Steps s .intr (s.setLock (some .intr))
  | handle {id b : Nat} : s.lock = some .intr → s.disk.usedIdx ≠ s.disk.usedRingIdx →
      s.disk.usedRing (s.disk.usedIdx.toNat % numDesc) = id → (s.disk.info id).status = 0 → (s.disk.info id).b = some b →
      Steps s .handle (((s.setDisk { s.disk with usedIdx := s.disk.usedIdx + 1 }).setBuf b { s.bufs b with disk := false }).wakeup (.buf b))
  | intrEnd : s.lock = some .intr → s.disk.usedIdx = s.disk.usedRingIdx → Steps s .intrEnd (s.setLock none)
  | take {h : Nat} : s.device.lastAvail ≠ s.disk.availIdx → s.disk.availRing (s.device.lastAvail.toNat % numDesc) = h →
      Steps s .take (s.setDevice { s.device with lastAvail := s.device.lastAvail + 1, taken := s.device.taken ++ [h] })
  | perform {h b st : Nat} {w : Bool} {sector : UInt64} : h ∈ s.device.taken → request s.disk h = some (w, sector, b, st) →
      Steps s (.perform h)
        ((s.setDevice { s.device with taken := s.device.taken.erase h, performed := s.device.performed ++ [h] }).transfer w sector b st)
  | complete {h : Nat} : h ∈ s.device.performed →
      Steps s (.complete h)
        ((s.setDisk { s.disk with
          usedRing := Function.update s.disk.usedRing (s.disk.usedRingIdx.toNat % numDesc) h
          usedRingIdx := s.disk.usedRingIdx + 1 }).setDevice { s.device with performed := s.device.performed.erase h })

theorem running_eq {c : VdiskCall} (h : s.running u = some c) : s.call u = some c ∧ c.mode = .running := by
  simpa [running, Option.filter_eq_some_iff] using h

theorem step_cases {a : VdiskAction α} (h : s.step a = some (.ok t)) : s.Steps a t := by
  cases a with
  | hold u b =>
    simp only [step] at h
    split at h
    · rename_i hl
      cases h
      exact .hold hl
    · cases h
  | unhold u b =>
    simp only [step] at h
    split at h
    · rename_i hl
      cases h
      exact .unhold hl.1 hl.2
    · cases h
  | edit u b blockno d =>
    simp only [step] at h
    split at h
    · rename_i hl
      cases h
      exact .edit hl.1 hl.2
    · cases h
  | rw u b write =>
    simp only [step] at h
    split at h
    · rename_i hl
      cases h
      exact .rw hl.1 hl.2
    · cases h
  | acquire u =>
    simp only [step] at h
    split at h
    · rename_i c hc
      split at h
      · rename_i hl
        cases h
        exact .acquire hc hl.1 hl.2
      · cases h
    · cases h
  | alloc u =>
    simp only [step] at h
    split at h
    · rename_i b w m hr
      obtain ⟨hc, rfl⟩ := running_eq hr
      rcases s.alloc3Desc_spec with ⟨i, j, k, rest, hf, ha⟩ | ⟨hlt, t', ha, hroll⟩
      · rw [ha] at h
        cases h
        exact .got hc hf
      · rw [ha] at h
        cases h
        exact .short hc hlt hroll
    · cases h
  | publish u =>
    simp only [step] at h
    split at h
    · rename_i hr
      obtain ⟨hc, rfl⟩ := running_eq hr
      cases h
      exact .publish hc
    · cases h
  | sleep u =>
    simp only [step] at h
    split at h
    · rename_i hr
      obtain ⟨hc, rfl⟩ := running_eq hr
      split at h
      · rename_i hd
        cases h
        exact .sleep hc hd
      · cases h
    · cases h
  | kkill u =>
    simp only [step] at h
    split at h
    · rename_i c hc
      split at h
      · rename_i hm
        cases h
        exact .kkill hc hm
      · cases h
    · cases h
  | ret u =>
    simp only [step] at h
    split at h
    · rename_i hr
      obtain ⟨hc, rfl⟩ := running_eq hr
      split at h
      · cases h
      · rename_i hd
        obtain ⟨t', ht, hok⟩ := Lib.bind_ok (Option.some.inj h)
        cases hok
        exact .ret hc (by simpa using hd) ht
    · cases h
  | intr =>
    simp only [step] at h
    split at h
    · rename_i hl
      cases h
      exact .intr hl
    · cases h
  | handle =>
    simp only [step] at h
    split at h
    · rename_i hl
      split at h
      · cases h
      · rename_i hst
        split at h
        · rename_i b hb
          cases h
          exact .handle hl.1 hl.2 rfl (by simpa using hst) hb
        · cases h
    · cases h
  | intrEnd =>
    simp only [step] at h
    split at h
    · rename_i hl
      cases h
      exact .intrEnd hl.1 hl.2
    · cases h
  | take =>
    simp only [step] at h
    split at h
    · cases h
    · rename_i hne
      cases h
      exact .take hne rfl
  | perform h' =>
    simp only [step] at h
    split at h
    · rename_i hm
      split at h
      · rename_i hreq
        cases h
        exact .perform hm hreq
      · cases h
    · cases h
  | complete h' =>
    simp only [step] at h
    split at h
    · rename_i hm
      cases h
      exact .complete hm
    · cases h

/-- Nothing changes but how calls wait. -/
structure SameTasks (s t : VdiskSys α) : Prop where
  task : ∀ u, t.task u = s.task u
  disk : t.disk = s.disk
  bufs : t.bufs = s.bufs
  device : t.device = s.device

theorem Inv.same (h : s.Inv) (hst : s.SameTasks t) (hlocked : t.Locked) : t.Inv := by
  obtain ⟨htask, hdisk, hbufs, hdevice⟩ := hst
  obtain ⟨-, howned, hreq, av, us, hpipe⟩ := h
  have htask' : t.task = s.task := funext htask
  refine ⟨hlocked, ⟨?_, ?_, ?_, ?_⟩, ?_, av, us, ?_⟩
  · rw [htask', hbufs]
    exact howned.buf
  · rw [htask', hdisk]
    exact howned.mine
  · rw [htask']
    exact howned.apart
  · rw [htask', hdisk]
    exact howned.owner
  · unfold Requests
    rw [htask', hdisk, hbufs]
    exact hreq
  · refine ⟨?_, ?_, ?_, ?_, ?_, ?_, ?_, ?_⟩
    · rw [hdisk, hdevice]
      exact hpipe.avail
    · rw [hdisk]
      exact hpipe.used
    · rw [hdevice]
      exact hpipe.nodup
    · rw [hdevice, htask', hbufs]
      exact hpipe.busy
    · rw [hdevice, hdisk]
      exact hpipe.todo
    · rw [hdevice, hdisk]
      exact hpipe.done
    · rw [htask', hbufs, hdisk]
      exact hpipe.told
    · rw [htask', hbufs, hdisk]
      exact hpipe.next

/-- A buffer that no call is about is changed. -/
theorem Inv.setBuf (h : s.Inv) {x : DiskBuf α} (hnone : ∀ u w p, s.task u ≠ some (b, w, p)) : (s.setBuf b x).Inv := by
  obtain ⟨hlocked, howned, hreq, av, us, hpipe⟩ := h
  have hbuf : ∀ {u b' w p}, s.task u = some (b', w, p) → (s.setBuf b x).bufs b' = s.bufs b' := by
    intro u b' w p ht
    refine Function.update_of_ne ?_ ..
    rintro rfl
    exact hnone u w p ht
  refine ⟨⟨?_, hlocked.holder⟩, ⟨?_, howned.mine, howned.apart, howned.owner⟩, ?_, av, us, hpipe.avail, hpipe.used, hpipe.nodup, ?_,
    hpipe.todo, hpipe.done, ?_, ?_⟩
  · intro u c hc
    rw [hbuf (task_eq hc)]
    exact hlocked.call u c hc
  · intro u b' w p ht
    rw [hbuf ht]
    exact howned.buf u b' w p ht
  · intro u b' w p ht i j k hp
    rw [hbuf ht]
    exact hreq u b' w p ht i j k hp
  · intro h
    rw [show (s.setBuf b x).device = s.device from rfl, hpipe.busy]
    constructor
    · rintro ⟨u, b', w, j, k, ht, hd⟩
      exact ⟨u, b', w, j, k, ht, by rwa [hbuf ht]⟩
    · rintro ⟨u, b', w, j, k, ht, hd⟩
      exact ⟨u, b', w, j, k, ht, by rwa [hbuf ht] at hd⟩
  · intro u b' w i j k ht hd
    rw [hbuf ht] at hd
    exact hpipe.told u b' w i j k ht hd
  · intro u b' w i j k ht
    rw [hbuf ht]
    exact hpipe.next u b' w i j k ht

theorem Owned.buf_unique (h : s.Owned) {v : Nat} {w' : Bool} {p' : VdiskPoint} (ht : s.task u = some (b, w, p))
    (ht' : s.task v = some (b, w', p')) : u = v := by
  have hu := h.buf u b w p ht
  rw [h.buf v b w' p' ht'] at hu
  exact (Option.some.inj hu).symm

theorem Formatted.congr {d d' : Vdisk} {sector : UInt64} (h : Formatted d b w sector i j k) (hdesc : ∀ x ∈ [i, j, k], d'.desc x = d.desc x)
    (hops : d'.ops i = d.ops i) (hinfo : (d'.info i).b = (d.info i).b) : Formatted d' b w sector i j k :=
  ⟨⟨(hdesc i (by simp)).trans h.head, (hdesc j (by simp)).trans h.data, (hdesc k (by simp)).trans h.status⟩, hops.trans h.op,
    hinfo.trans h.info⟩

/-- Requests on their way are descriptors in use. -/
theorem Pipeline.lt {av us : List Nat} (h : s.Pipeline av us) (ho : s.Owned) {d : Nat}
    (hd : d ∈ av ++ (s.device.taken ++ (s.device.performed ++ us))) : d < numDesc ∧ s.disk.free d = false := by
  obtain ⟨u, b, w, j, k, ht, -⟩ := (h.busy d).mp hd
  exact (ho.mine u b w _ ht).2 d (by simp [VdiskPoint.descs])

theorem length_le_of_lt {l : List Nat} (hnodup : l.Nodup) (hlt : ∀ d ∈ l, d < numDesc) : l.length ≤ numDesc := by
  have hsub : l ⊆ List.range numDesc := fun d hd => List.mem_range.mpr (hlt d hd)
  have := (hnodup.subperm hsub).length_le
  rwa [List.length_range] at this

theorem Pipeline.length_le {av us : List Nat} (h : s.Pipeline av us) (ho : s.Owned) :
    av.length + (s.device.taken.length + (s.device.performed.length + us.length)) ≤ numDesc := by
  have := length_le_of_lt h.nodup (fun d hd => (h.lt ho hd).1)
  simpa using this

/-- With one more descriptor in use that is not on its way. -/
theorem Pipeline.length_lt {av us : List Nat} (h : s.Pipeline av us) (ho : s.Owned) (hi : i < numDesc)
    (hout : i ∉ av ++ (s.device.taken ++ (s.device.performed ++ us))) : av.length < numDesc := by
  have hlen := length_le_of_lt (l := i :: (av ++ (s.device.taken ++ (s.device.performed ++ us)))) (List.nodup_cons.mpr ⟨hout, h.nodup⟩)
    (fun d hd => by
      rcases List.mem_cons.mp hd with rfl | hd
      · exact hi
      · exact (h.lt ho hd).1)
  simp only [List.length_cons, List.length_append] at hlen
  omega

/-- Only one call is changed. -/
def OneTask (s t : VdiskSys α) (u : Nat) (o : Option (Nat × Bool × VdiskPoint)) : Prop :=
  ∀ v, t.task v = if v = u then o else s.task v

theorem OneTask.cases {o : Option (Nat × Bool × VdiskPoint)} (h : OneTask s t u o) {v : Nat} (ht : t.task v = some (b, w, p)) :
    (v ≠ u ∧ s.task v = some (b, w, p)) ∨ (v = u ∧ o = some (b, w, p)) := by
  rw [h v] at ht
  by_cases hv : v = u
  · rw [if_pos hv] at ht
    exact Or.inr ⟨hv, ht⟩
  · rw [if_neg hv] at ht
    exact Or.inl ⟨hv, ht⟩

theorem OneTask.other {o : Option (Nat × Bool × VdiskPoint)} (h : OneTask s t u o) {v : Nat} (hv : v ≠ u) : t.task v = s.task v := by
  rw [h v, if_neg hv]

theorem OneTask.self {o : Option (Nat × Bool × VdiskPoint)} (h : OneTask s t u o) : t.task u = o := by
  rw [h u, if_pos rfl]

theorem Locked.setCall (h : s.Locked) {o : Option VdiskCall} {l : Option VdiskHolder}
    (ho : ∀ c, o = some c → CallOk (l = some (.call u)) (s.disk.frees.length < 3) ((s.bufs c.b).disk = true) c)
    (hl : ∀ v, v ≠ u → (l = some (.call v) ↔ s.lock = some (.call v))) (hu : l = some (.call u) → o ≠ none) :
    ((s.setCall u o).setLock l).Locked := by
  refine ⟨?_, ?_⟩
  · intro v c hc
    by_cases hv : v = u
    · subst hv
      have hc' : o = some c := by rwa [← show ((s.setCall v o).setLock l).call v = o from Function.update_self ..]
      exact ho c hc'
    · have hc' : s.call v = some c := by rwa [← show ((s.setCall u o).setLock l).call v = s.call v from Function.update_of_ne hv ..]
      have hok := h.call v c hc'
      exact ⟨hok.running.trans (hl v hv).symm, hok.publish, hok.alloc, hok.wait⟩
  · intro v hv
    by_cases hvu : v = u
    · rw [hvu] at hv ⊢
      rw [show ((s.setCall u o).setLock l).call u = o from Function.update_self ..]
      exact hu hv
    · rw [show ((s.setCall u o).setLock l).call v = s.call v from Function.update_of_ne hvu ..]
      exact h.holder v ((hl v hvu).mp hv)

theorem inv_rw (h : s.Inv) {write : Bool} (hl : (s.bufs b).lock = some u) (hc : s.call u = none) :
    (s.setCall u (some ⟨b, write, .alloc, .acquiring⟩)).Inv := by
  obtain ⟨hlocked, howned, hreq, av, us, hpipe⟩ := h
  have hone : OneTask s (s.setCall u (some ⟨b, write, .alloc, .acquiring⟩)) u (some (b, write, .alloc)) := task_setCall s u _
  have hu : s.task u = none := task_none hc
  have hkeep : ∀ {v x}, s.task v = some x → (s.setCall u (some ⟨b, write, .alloc, .acquiring⟩)).task v = some x := by
    intro v x ht
    rw [hone.other (fun hv => by rw [hv, hu] at ht; cases ht), ht]
  refine ⟨?_, ⟨?_, ?_, ?_, ?_⟩, ?_, av, us, hpipe.avail, hpipe.used, hpipe.nodup, ?_, hpipe.todo, hpipe.done, ?_, ?_⟩
  · have hfree : s.lock ≠ some (.call u) := fun hh => hlocked.holder u hh hc
    refine hlocked.setCall (l := s.lock) ?_ (fun v _ => Iff.rfl) (fun hh => absurd hh hfree)
    rintro c ⟨⟩
    exact ⟨by simp [hfree], by simp, by simp, by simp⟩
  · intro v b' w' p' ht
    rcases hone.cases ht with ⟨-, ht⟩ | ⟨rfl, ho⟩
    · exact howned.buf v b' w' p' ht
    · cases ho
      exact hl
  · intro v b' w' p' ht
    rcases hone.cases ht with ⟨-, ht⟩ | ⟨rfl, ho⟩
    · exact howned.mine v b' w' p' ht
    · cases ho
      exact ⟨List.nodup_nil, fun d hd => by cases hd⟩
  · intro v b' w' p' v' b'' w'' p'' ht ht' d hd hd'
    rcases hone.cases ht with ⟨-, ht⟩ | ⟨rfl, ho⟩
    · rcases hone.cases ht' with ⟨-, ht'⟩ | ⟨rfl, ho'⟩
      · exact howned.apart v b' w' p' v' b'' w'' p'' ht ht' d hd hd'
      · cases ho'
        cases hd'
    · cases ho
      cases hd
  · intro d hlt hd
    obtain ⟨v, b', w', p', ht, hm⟩ := howned.owner d hlt hd
    exact ⟨v, b', w', p', hkeep ht, hm⟩
  · intro v b' w' p' ht i j k hp
    rcases hone.cases ht with ⟨-, ht⟩ | ⟨rfl, ho⟩
    · exact hreq v b' w' p' ht i j k hp
    · cases ho
      cases hp
  · intro h'
    refine (hpipe.busy h').trans ⟨?_, ?_⟩
    · rintro ⟨v, b', w', j, k, ht, hd⟩
      exact ⟨v, b', w', j, k, hkeep ht, hd⟩
    · rintro ⟨v, b', w', j, k, ht, hd⟩
      rcases hone.cases ht with ⟨-, ht⟩ | ⟨-, ho⟩
      · exact ⟨v, b', w', j, k, ht, hd⟩
      · cases ho
  · intro v b' w' i j k ht hd
    rcases hone.cases ht with ⟨-, ht⟩ | ⟨-, ho⟩
    · exact hpipe.told v b' w' i j k ht hd
    · cases ho
  · intro v b' w' i j k ht
    rcases hone.cases ht with ⟨-, ht⟩ | ⟨-, ho⟩
    · exact hpipe.next v b' w' i j k ht
    · cases ho

/-- Only the call that has the lock is about to publish. -/
theorem Locked.publisher (h : s.Locked) (hlock : s.lock = some (.call u)) {v : Nat} (hv : s.task v = some (b, w, .publish i j k)) :
    v = u := by
  obtain ⟨c, hc, rfl, rfl, hpt⟩ := call_of_task hv
  have hok := h.call v c hc
  have hheld := hok.running.mp (hok.publish _ _ _ hpt)
  rw [hlock] at hheld
  cases hheld
  rfl

/-- What changes when a call tells the device of its request. -/
structure Published (s t : VdiskSys α) (u b : Nat) (w : Bool) (i j k : Nat) : Prop where
  tasks : OneTask s t u (some (b, w, .wait i j k))
  was : s.task u = some (b, w, .publish i j k)
  bufs : t.bufs = s.bufs
  device : t.device = s.device
  disk : t.disk = { s.disk with availIdx := s.disk.availIdx + 1 }

/-- The descriptors of a call are the same on both sides. -/
theorem Published.back (h : Published s t u b w i j k) {v b' : Nat} {w' : Bool} (hv : t.task v = some (b', w', p)) :
    ∃ q, s.task v = some (b', w', q) ∧ q.descs = p.descs := by
  rcases h.tasks.cases hv with ⟨-, hv⟩ | ⟨rfl, ho⟩
  · exact ⟨p, hv, rfl⟩
  · cases ho
    exact ⟨_, h.was, rfl⟩

theorem Published.owned (h : Published s t u b w i j k) (howned : s.Owned) : t.Owned := by
  refine ⟨?_, ?_, ?_, ?_⟩
  · intro v b' w' p' hv
    obtain ⟨q, hq, -⟩ := h.back hv
    rw [h.bufs]
    exact howned.buf v b' w' q hq
  · intro v b' w' p' hv
    obtain ⟨q, hq, hd⟩ := h.back hv
    rw [← hd, h.disk]
    exact howned.mine v b' w' q hq
  · intro v b' w' p' v' b'' w'' p'' hv hv' d hd hd'
    obtain ⟨q, hq, he⟩ := h.back hv
    obtain ⟨q', hq', he'⟩ := h.back hv'
    rw [← he] at hd
    rw [← he'] at hd'
    exact howned.apart v b' w' q v' b'' w'' q' hq hq' d hd hd'
  · intro d hlt hd
    rw [h.disk] at hd
    obtain ⟨v, b', w', p', hv, hm⟩ := howned.owner d hlt hd
    by_cases hvu : v = u
    · rw [hvu, h.was] at hv
      cases hv
      exact ⟨u, b, w, _, h.tasks.self, hm⟩
    · exact ⟨v, b', w', p', (h.tasks.other hvu).trans hv, hm⟩

theorem Published.requests (h : Published s t u b w i j k) (hreq : s.Requests) : t.Requests := by
  intro v b' w' p' hv i' j' k' hp
  obtain ⟨q, hq, hd⟩ := h.back hv
  rw [h.bufs, h.disk]
  exact (hreq v b' w' q hq i' j' k' (hd.trans hp)).congr (fun _ _ => rfl) rfl rfl

/-- The request is behind those on `avail`. -/
theorem Published.pipeline (h : Published s t u b w i j k) (howned : s.Owned) {av us : List Nat} (hpipe : s.Pipeline av us)
    (honly : ∀ v b' w' i' j' k', s.task v = some (b', w', .publish i' j' k') → v = u) : t.Pipeline (av ++ [i]) us := by
  obtain ⟨hring, hstatus, hbusy⟩ := hpipe.next u b w i j k h.was
  have hout : i ∉ av ++ (s.device.taken ++ (s.device.performed ++ us)) := by
    intro hm
    obtain ⟨v, b', w', j', k', hv, -⟩ := (hpipe.busy i).mp hm
    obtain rfl := howned.apart _ _ _ _ _ _ _ _ h.was hv i (by simp [VdiskPoint.descs]) (by simp [VdiskPoint.descs])
    rw [h.was] at hv
    cases hv
  refine ⟨?_, ?_, ?_, ?_, ?_, ?_, ?_, ?_⟩
  · rw [h.disk, h.device]
    exact hpipe.avail.advance hring
  · rw [h.disk]
    exact hpipe.used
  · rw [h.device, List.append_assoc, List.singleton_append]
    exact (List.perm_middle.nodup_iff).mpr (List.nodup_cons.mpr ⟨hout, hpipe.nodup⟩)
  · intro h'
    rw [h.device, h.bufs, List.append_assoc, List.singleton_append, List.perm_middle.mem_iff, List.mem_cons, hpipe.busy]
    constructor
    · rintro (rfl | ⟨v, b', w', j', k', hv, hd⟩)
      · exact ⟨u, b, w, j, k, h.tasks.self, hbusy⟩
      · refine ⟨v, b', w', j', k', (h.tasks.other ?_).trans hv, hd⟩
        rintro rfl
        rw [h.was] at hv
        cases hv
    · rintro ⟨v, b', w', j', k', hv, hd⟩
      rcases h.tasks.cases hv with ⟨-, hv⟩ | ⟨-, ho⟩
      · exact Or.inr ⟨v, b', w', j', k', hv, hd⟩
      · cases ho
        exact Or.inl rfl
  · intro h' hm
    rw [h.disk]
    rw [h.device, List.append_assoc, List.singleton_append, List.perm_middle.mem_iff] at hm
    rcases List.mem_cons.mp hm with rfl | hm
    · exact hstatus
    · exact hpipe.todo h' hm
  · intro h' hm
    rw [h.disk]
    rw [h.device] at hm
    exact hpipe.done h' hm
  · intro v b' w' i' j' k' hv hd
    rw [h.bufs] at hd
    rw [h.disk]
    rcases h.tasks.cases hv with ⟨-, hv⟩ | ⟨-, ho⟩
    · exact hpipe.told v b' w' i' j' k' hv hd
    · cases ho
      rw [hbusy] at hd
      cases hd
  · intro v b' w' i' j' k' hv
    rcases h.tasks.cases hv with ⟨hvu, hv⟩ | ⟨-, ho⟩
    · exact absurd (honly v b' w' i' j' k' hv) hvu
    · cases ho

/-- A call tells the device of its request. -/
theorem inv_publish (h : s.Inv) (hc : s.call u = some ⟨b, w, .publish i j k, .running⟩) :
    ((s.setDisk { s.disk with availIdx := s.disk.availIdx + 1 }).setCall u (some ⟨b, w, .wait i j k, .running⟩)).Inv := by
  obtain ⟨hlocked, howned, hreq, av, us, hpipe⟩ := h
  have hpub : Published s ((s.setDisk { s.disk with availIdx := s.disk.availIdx + 1 }).setCall u (some ⟨b, w, .wait i j k, .running⟩))
      u b w i j k := ⟨task_setCall _ u _, task_eq hc, rfl, rfl, rfl⟩
  have hlock := (hlocked.call u _ hc).running.mp rfl
  have hl : (s.setDisk { s.disk with availIdx := s.disk.availIdx + 1 }).Locked := ⟨hlocked.call, hlocked.holder⟩
  refine ⟨hl.setCall (l := s.lock) ?_ (fun v _ => Iff.rfl) (fun _ => by simp), hpub.owned howned, hpub.requests hreq, av ++ [i], us,
    hpub.pipeline howned hpipe (fun _ _ _ _ _ _ hv => hlocked.publisher hlock hv)⟩
  rintro c ⟨⟩
  exact ⟨by simp [hlock], by simp, by simp, by simp⟩

/-- A call begins to wait or to run, and is about the same. -/
theorem Inv.turn (h : s.Inv) {c c' : VdiskCall} {l : Option VdiskHolder} (hc : s.call u = some c)
    (hsame : (c'.b, c'.write, c'.point) = (c.b, c.write, c.point))
    (hok : CallOk (l = some (.call u)) (s.disk.frees.length < 3) ((s.bufs c'.b).disk = true) c')
    (hl : ∀ v, v ≠ u → (l = some (.call v) ↔ s.lock = some (.call v))) : ((s.setCall u (some c')).setLock l).Inv := by
  refine h.same ⟨?_, rfl, rfl, rfl⟩ (h.locked.setCall ?_ hl (fun _ => by simp))
  · intro v
    change (s.setCall u (some c')).task v = s.task v
    rw [task_setCall]
    by_cases hv : v = u
    · rw [if_pos hv, hv, task_eq hc]
      exact congrArg some hsame
    · rw [if_neg hv]
  · rintro c'' ⟨⟩
    exact hok

theorem Rolled.task (hr : s.Rolled t) : t.task = s.task := by
  funext v
  rcases hr.call v with hv | hv
  · simp [VdiskSys.task, hv]
  · simp only [VdiskSys.task, hv, Option.map_map]
    exact congrFun (congrArg Option.map (funext (woken_task .free))) _

theorem Inv.rolled (h : s.Inv) (hr : s.Rolled t) : t.Inv := by
  have htask := hr.task
  obtain ⟨hfree, hdesc, hdisk, hbufs, hdevice, hlock, hcall⟩ := hr
  obtain ⟨hlocked, howned, hreq, av, us, hpipe⟩ := h
  refine ⟨⟨?_, ?_⟩, ⟨?_, ?_, ?_, ?_⟩, ?_, av, us, ?_⟩
  · intro v c hc
    have hfrees : t.disk.frees = s.disk.frees := by rw [Vdisk.frees, hfree]; rfl
    rw [hlock, hfrees, hbufs]
    rcases hcall v with hv | hv
    · exact hlocked.call v c (hv.symm.trans hc)
    · rw [hv] at hc
      obtain ⟨c', hc', rfl⟩ := Option.map_eq_some_iff.mp hc
      have hb : (c'.woken .free).b = c'.b := congrArg Prod.fst (woken_task .free c')
      rw [hb]
      exact (hlocked.call v c' hc').woken (Or.inr (Or.inr id)) (Or.inr (Or.inr id))
  · intro v hv
    rw [hlock] at hv
    have := hlocked.holder v hv
    rcases hcall v with hv | hv
    · rwa [hv]
    · simpa [hv] using this
  · rw [htask, hbufs]
    exact howned.buf
  · rw [htask, hfree]
    exact howned.mine
  · rw [htask]
    exact howned.apart
  · rw [htask, hfree]
    exact howned.owner
  · intro v b w p hv i j k hp
    rw [htask] at hv
    rw [hbufs]
    have hmine := (howned.mine v b w p hv).2
    rw [hp] at hmine
    refine (hreq v b w p hv i j k hp).congr (fun x hx => hdesc x (hmine x hx).2) ?_ ?_
    · rw [hdisk]
    · rw [hdisk]
  · refine ⟨?_, ?_, ?_, ?_, ?_, ?_, ?_, ?_⟩
    · rw [hdisk, hdevice]
      exact hpipe.avail
    · rw [hdisk]
      exact hpipe.used
    · rw [hdevice]
      exact hpipe.nodup
    · rw [hdevice, htask, hbufs]
      exact hpipe.busy
    · rw [hdevice, hdisk]
      exact hpipe.todo
    · rw [hdevice, hdisk]
      exact hpipe.done
    · rw [htask, hbufs, hdisk]
      exact hpipe.told
    · rw [htask, hbufs, hdisk]
      exact hpipe.next

/-- What changes when `alloc3_desc` has got three descriptors and the request is put into them. -/
structure Got (s t : VdiskSys α) (u b : Nat) (w : Bool) (i j k : Nat) : Prop where
  tasks : OneTask s t u (some (b, w, .publish i j k))
  was : s.task u = some (b, w, .alloc)
  nodup : [i, j, k].Nodup
  fresh : ∀ d ∈ [i, j, k], d < numDesc ∧ s.disk.free d = true
  free : ∀ d, t.disk.free d = if d ∈ [i, j, k] then false else s.disk.free d
  desc : ∀ d, d ∉ [i, j, k] → t.disk.desc d = s.disk.desc d
  ops : ∀ d, d ≠ i → t.disk.ops d = s.disk.ops d ∧ t.disk.info d = s.disk.info d
  request : Formatted t.disk b w (s.bufs b).sector i j k
  status : (t.disk.info i).status = 0xff
  buf : t.bufs b = { s.bufs b with disk := true }
  bufs : ∀ d, d ≠ b → t.bufs d = s.bufs d
  device : t.device = s.device
  ring : t.disk.availRing = Function.update s.disk.availRing (s.disk.availIdx.toNat % numDesc) i
  counts : t.disk.availIdx = s.disk.availIdx ∧ t.disk.usedRing = s.disk.usedRing ∧ t.disk.usedIdx = s.disk.usedIdx ∧
    t.disk.usedRingIdx = s.disk.usedRingIdx

theorem got_spec {rest : List Nat} (hc : s.call u = some ⟨b, w, .alloc, .running⟩) (hf : s.disk.frees = i :: j :: k :: rest) :
    Got s (((((s.take i).take j).take k).format b w i j k).setCall u (some ⟨b, w, .publish i j k, .running⟩)) u b w i j k := by
  have hnodup : [i, j, k].Nodup := by
    have hall : (i :: j :: k :: rest).Nodup := hf ▸ List.nodup_range.filter _
    exact hall.sublist (by simp)
  have hne : i ≠ j ∧ i ≠ k ∧ j ≠ k := by
    simp only [List.nodup_cons, List.mem_cons, List.not_mem_nil, or_false, not_or] at hnodup
    exact ⟨hnodup.1.1, hnodup.1.2, hnodup.2.1⟩
  refine ⟨task_setCall _ u _, task_eq hc, hnodup, fun d hd => ?_, fun d => ?_, fun d hd => ?_, fun d hd => ?_, ⟨⟨?_, ?_, ?_⟩, ?_, ?_⟩, ?_, ?_,
    fun d hd => ?_, rfl, rfl, rfl, rfl, rfl, rfl⟩
  · refine mem_frees.mp ?_
    rw [hf]
    simp only [List.mem_cons, List.not_mem_nil, or_false] at hd ⊢
    tauto
  · simp only [setCall, format, setBuf, setDisk, take, Function.update_apply, List.mem_cons, List.not_mem_nil, or_false]
    grind
  · simp only [List.mem_cons, List.not_mem_nil, or_false, not_or] at hd
    simp [setCall, format, setBuf, setDisk, take, hd]
  · simp [setCall, format, setBuf, setDisk, take, hd]
  · simp [setCall, format, setBuf, setDisk, hne]
  · simp [setCall, format, setBuf, setDisk, hne]
  · simp [setCall, format, setBuf, setDisk]
  · simp [setCall, format, setBuf, setDisk, take]
  · simp [setCall, format, setBuf, setDisk]
  · simp [setCall, format, setBuf, setDisk]
  · simp [setCall, format, setBuf, setDisk, take]
  · simp [setCall, format, setBuf, setDisk, take, hd]

/-- The descriptors of another call were not free. -/
theorem Got.apart (h : Got s t u b w i j k) (howned : s.Owned) {v b' : Nat} {w' : Bool} (hv : s.task v = some (b', w', p)) {d : Nat}
    (hd : d ∈ p.descs) : d ∉ [i, j, k] := by
  intro hm
  have hbusy := ((howned.mine v b' w' p hv).2 d hd).2
  rw [(h.fresh d hm).2] at hbusy
  cases hbusy

/-- The buffer of another call is another one. -/
theorem Got.buf_of_ne (h : Got s t u b w i j k) (howned : s.Owned) {v b' : Nat} {w' : Bool} (hvu : v ≠ u)
    (hv : s.task v = some (b', w', p)) : t.bufs b' = s.bufs b' := by
  refine h.bufs b' ?_
  rintro rfl
  exact hvu (howned.buf_unique hv h.was)

theorem Got.owned (h : Got s t u b w i j k) (howned : s.Owned) : t.Owned := by
  refine ⟨?_, ?_, ?_, ?_⟩
  · intro v b' w' p' hv
    rcases h.tasks.cases hv with ⟨hvu, hv⟩ | ⟨rfl, ho⟩
    · rw [h.buf_of_ne howned hvu hv]
      exact howned.buf v b' w' p' hv
    · cases ho
      rw [h.buf]
      exact howned.buf v b w _ h.was
  · intro v b' w' p' hv
    rcases h.tasks.cases hv with ⟨-, hv⟩ | ⟨rfl, ho⟩
    · obtain ⟨hn, hmine⟩ := howned.mine v b' w' p' hv
      refine ⟨hn, fun d hd => ⟨(hmine d hd).1, ?_⟩⟩
      rw [h.free, if_neg (h.apart howned hv hd)]
      exact (hmine d hd).2
    · cases ho
      refine ⟨h.nodup, fun d hd => ⟨(h.fresh d hd).1, ?_⟩⟩
      rw [h.free]
      exact if_pos hd
  · intro v b' w' p' v' b'' w'' p'' hv hv' d hd hd'
    rcases h.tasks.cases hv with ⟨-, hs⟩ | ⟨hvu, ho⟩
    · rcases h.tasks.cases hv' with ⟨-, hs'⟩ | ⟨-, ho'⟩
      · exact howned.apart v b' w' p' v' b'' w'' p'' hs hs' d hd hd'
      · cases ho'
        exact absurd hd' (h.apart howned hs hd)
    · rcases h.tasks.cases hv' with ⟨-, hs'⟩ | ⟨hvu', -⟩
      · cases ho
        exact absurd hd (h.apart howned hs' hd')
      · rw [hvu, hvu']
  · intro d hlt hd
    rw [h.free] at hd
    by_cases hm : d ∈ [i, j, k]
    · exact ⟨u, b, w, _, h.tasks.self, hm⟩
    · rw [if_neg hm] at hd
      obtain ⟨v, b', w', p', hv, hdp⟩ := howned.owner d hlt hd
      refine ⟨v, b', w', p', (h.tasks.other ?_).trans hv, hdp⟩
      rintro rfl
      rw [h.was] at hv
      cases hv
      cases hdp

theorem Got.requests (h : Got s t u b w i j k) (howned : s.Owned) (hreq : s.Requests) : t.Requests := by
  intro v b' w' p' hv i' j' k' hp
  rcases h.tasks.cases hv with ⟨hvu, hv⟩ | ⟨rfl, ho⟩
  · have hout : ∀ d ∈ [i', j', k'], d ∉ [i, j, k] := fun d hd => h.apart howned hv (hp ▸ hd)
    have hi' : i' ≠ i := fun he => hout i' (by simp) (by simp [he])
    rw [h.buf_of_ne howned hvu hv]
    refine (hreq v b' w' p' hv i' j' k' hp).congr (fun x hx => h.desc x (hout x hx)) (h.ops i' hi').1 ?_
    rw [(h.ops i' hi').2]
  · cases ho
    cases hp
    rw [h.buf]
    exact h.request

theorem Got.pipeline (h : Got s t u b w i j k) (howned : s.Owned) {av us : List Nat} (hpipe : s.Pipeline av us)
    (honly : ∀ v b' w' i' j' k', s.task v = some (b', w', .publish i' j' k') → v = u) : t.Pipeline av us := by
  have hout : i ∉ av ++ (s.device.taken ++ (s.device.performed ++ us)) := by
    intro hm
    have hbusy := (hpipe.lt howned hm).2
    rw [(h.fresh i (by simp)).2] at hbusy
    cases hbusy
  refine ⟨?_, ?_, ?_, ?_, ?_, ?_, ?_, ?_⟩
  · rw [h.ring, h.device, h.counts.1]
    exact hpipe.avail.write (hpipe.length_lt howned (h.fresh i (by simp)).1 hout) i
  · rw [h.counts.2.1, h.counts.2.2.1, h.counts.2.2.2]
    exact hpipe.used
  · rw [h.device]
    exact hpipe.nodup
  · intro h'
    rw [h.device, hpipe.busy]
    constructor
    · rintro ⟨v, b', w', j', k', hv, hd⟩
      have hvu : v ≠ u := by
        rintro rfl
        rw [h.was] at hv
        cases hv
      refine ⟨v, b', w', j', k', (h.tasks.other hvu).trans hv, ?_⟩
      rwa [h.buf_of_ne howned hvu hv]
    · rintro ⟨v, b', w', j', k', hv, hd⟩
      rcases h.tasks.cases hv with ⟨hvu, hv⟩ | ⟨-, ho⟩
      · rw [h.buf_of_ne howned hvu hv] at hd
        exact ⟨v, b', w', j', k', hv, hd⟩
      · cases ho
  · intro h' hm
    rw [h.device] at hm
    have hne : h' ≠ i := by
      rintro rfl
      refine hout ?_
      rw [← List.append_assoc]
      exact List.mem_append_left _ hm
    rw [(h.ops h' hne).2]
    exact hpipe.todo h' hm
  · intro h' hm
    rw [h.device] at hm
    have hne : h' ≠ i := by
      rintro rfl
      exact hout (List.mem_append_right _ (List.mem_append_right _ hm))
    rw [(h.ops h' hne).2]
    exact hpipe.done h' hm
  · intro v b' w' i' j' k' hv hd
    rcases h.tasks.cases hv with ⟨hvu, hv⟩ | ⟨-, ho⟩
    · have hi' : i' ≠ i := fun he => h.apart howned hv (d := i') (by simp [VdiskPoint.descs]) (by simp [he])
      rw [h.buf_of_ne howned hvu hv] at hd
      rw [(h.ops i' hi').2]
      exact hpipe.told v b' w' i' j' k' hv hd
    · cases ho
  · intro v b' w' i' j' k' hv
    rcases h.tasks.cases hv with ⟨hvu, hv⟩ | ⟨-, ho⟩
    · exact absurd (honly v b' w' i' j' k' hv) hvu
    · cases ho
      rw [h.ring, h.counts.1, Function.update_self, h.buf]
      exact ⟨rfl, h.status, rfl⟩

/-- `alloc3_desc` gets three descriptors, and the request is put into them. -/
theorem inv_got (h : s.Inv) {rest : List Nat} (hc : s.call u = some ⟨b, w, .alloc, .running⟩) (hf : s.disk.frees = i :: j :: k :: rest) :
    (((((s.take i).take j).take k).format b w i j k).setCall u (some ⟨b, w, .publish i j k, .running⟩)).Inv := by
  obtain ⟨hlocked, howned, hreq, av, us, hpipe⟩ := h
  have hgot := got_spec hc hf
  have hlock := (hlocked.call u _ hc).running.mp rfl
  obtain ⟨t, ht⟩ : ∃ t, t = (((s.take i).take j).take k).format b w i j k := ⟨_, rfl⟩
  rw [← ht] at hgot ⊢
  have hlock' : t.lock = s.lock := by rw [ht]; rfl
  have hcall : t.call = s.call := by rw [ht]; rfl
  have hl : t.Locked := by
    refine ⟨fun v c hv => ?_, fun v hv => ?_⟩
    · rw [hcall] at hv
      have hok := hlocked.call v c hv
      refine ⟨by rw [hlock']; exact hok.running, hok.publish, fun hm hp => ?_, fun hm hp => ?_⟩
      · have hfew := hok.alloc hm hp
        rw [hf] at hfew
        simp only [List.length_cons] at hfew
        omega
      · by_cases hb : c.b = b
        · rw [hb]
          exact congrArg DiskBuf.disk hgot.buf
        · exact (congrArg DiskBuf.disk (hgot.bufs _ hb)).trans (hok.wait hm hp)
    · rw [hlock'] at hv
      rw [hcall]
      exact hlocked.holder v hv
  refine ⟨hl.setCall (l := t.lock) ?_ (fun v _ => Iff.rfl) (fun _ => by simp), hgot.owned howned, hgot.requests howned hreq, av, us,
    hgot.pipeline howned hpipe (fun _ _ _ _ _ _ hv => hlocked.publisher hlock hv)⟩
  rintro c ⟨⟩
  exact ⟨by simp [hlock', hlock], by simp, by simp, by simp⟩

/-- The state after a call has returned. -/
def returned (s : VdiskSys α) (u i j k : Nat) : VdiskSys α :=
  let t := s.setDisk { s.disk with info := Function.update s.disk.info i { s.disk.info i with b := none } }
  ((((t.giveBack i).giveBack j).giveBack k).setCall u none).setLock none

theorem ret_eq (h : s.Inv) (hc : s.call u = some ⟨b, w, .wait i j k, .running⟩) :
    freeChain numDesc (s.setDisk { s.disk with info := Function.update s.disk.info i { s.disk.info i with b := none } }) i =
      .ok ((((s.setDisk { s.disk with info := Function.update s.disk.info i { s.disk.info i with b := none } }).giveBack i).giveBack
        j).giveBack k) := by
  have hu := task_eq hc
  obtain ⟨hnodup, hmine⟩ := h.owned.mine u b w _ hu
  have hreq := h.requests u b w _ hu i j k rfl
  exact freeChain_eq (b := b) (w := w) ⟨hreq.head, hreq.data, hreq.status⟩ hnodup hmine

theorem returned_task (s : VdiskSys α) (u i j k : Nat) : OneTask s (s.returned u i j k) u none := by
  intro v
  refine (task_setCall _ u none v).trans ?_
  by_cases hv : v = u
  · rw [if_pos hv, if_pos hv]
    rfl
  · rw [if_neg hv, if_neg hv, giveBack_task, giveBack_task, giveBack_task]
    rfl

/-- What changes when a call gives its descriptors back and returns. -/
structure Returned (s t : VdiskSys α) (u b : Nat) (w : Bool) (i j k : Nat) : Prop where
  tasks : OneTask s t u none
  was : s.task u = some (b, w, .wait i j k)
  calls : ∀ v, v ≠ u → t.call v = (s.call v).map (VdiskCall.woken .free)
  lock : t.lock = none
  free : ∀ d, t.disk.free d = if d ∈ [i, j, k] then true else s.disk.free d
  desc : ∀ d, d ∉ [i, j, k] → t.disk.desc d = s.disk.desc d
  info : ∀ d, (t.disk.info d).status = (s.disk.info d).status ∧ (d ≠ i → t.disk.info d = s.disk.info d)
  ops : t.disk.ops = s.disk.ops
  bufs : t.bufs = s.bufs
  device : t.device = s.device
  rings : t.disk.availRing = s.disk.availRing ∧ t.disk.availIdx = s.disk.availIdx ∧ t.disk.usedRing = s.disk.usedRing ∧
    t.disk.usedIdx = s.disk.usedIdx ∧ t.disk.usedRingIdx = s.disk.usedRingIdx

theorem returned_spec (hc : s.call u = some ⟨b, w, .wait i j k, .running⟩) : Returned s (s.returned u i j k) u b w i j k := by
  refine ⟨returned_task s u i j k, task_eq hc, fun v hv => ?_, rfl, fun d => ?_, fun d hd => ?_, fun d => ?_, rfl, rfl, rfl, rfl, rfl, rfl, rfl,
    rfl⟩
  · have hw : VdiskCall.woken .free ∘ VdiskCall.woken .free = VdiskCall.woken .free := funext (woken_woken .free)
    simp [returned, setLock, setCall, giveBack, wakeup, setDisk, hv, Option.map_map, hw]
  · simp only [returned, setLock, setCall, giveBack, wakeup, setDisk, Function.update_apply, List.mem_cons, List.not_mem_nil, or_false]
    grind
  · simp only [List.mem_cons, List.not_mem_nil, or_false, not_or] at hd
    simp [returned, setLock, setCall, giveBack, wakeup, setDisk, hd]
  · by_cases hdi : d = i
    · simp [returned, setLock, setCall, giveBack, wakeup, setDisk, hdi]
    · simp [returned, setLock, setCall, giveBack, wakeup, setDisk, hdi]

/-- The calls that are left were there before. -/
theorem Returned.back (h : Returned s t u b w i j k) {v b' : Nat} {w' : Bool} (hv : t.task v = some (b', w', p)) :
    v ≠ u ∧ s.task v = some (b', w', p) := by
  rcases h.tasks.cases hv with hv | ⟨-, ho⟩
  · exact hv
  · cases ho

theorem Returned.apart (h : Returned s t u b w i j k) (howned : s.Owned) {v b' : Nat} {w' : Bool} (hvu : v ≠ u)
    (hv : s.task v = some (b', w', p)) {d : Nat} (hd : d ∈ p.descs) : d ∉ [i, j, k] :=
  fun hm => hvu (howned.apart _ _ _ _ _ _ _ _ hv h.was d hd hm)

theorem Returned.locked (h : Returned s t u b w i j k) (hlocked : s.Locked) (hlock : s.lock = some (.call u)) : t.Locked := by
  refine ⟨fun v c hv => ?_, fun v hv => ?_⟩
  · have hvu : v ≠ u := by
      rintro rfl
      have hnone := h.tasks.self.symm.trans (task_eq hv)
      cases hnone
    rw [h.calls v hvu] at hv
    obtain ⟨c', hc', rfl⟩ := Option.map_eq_some_iff.mp hv
    have hb : (c'.woken .free).b = c'.b := congrArg Prod.fst (woken_task .free c')
    have hok := hlocked.call v c' hc'
    rw [hb, h.bufs]
    have hheld : ¬(s.lock = some (.call v)) := by
      rw [hlock]
      rintro ⟨⟩
      exact hvu rfl
    have hnone : ¬(t.lock = some (.call v)) := by
      rw [h.lock]
      rintro ⟨⟩
    have hok' : CallOk (t.lock = some (.call v)) (s.disk.frees.length < 3) ((s.bufs c'.b).disk = true) c' :=
      ⟨hok.running.trans (iff_of_false hheld hnone), hok.publish, hok.alloc, hok.wait⟩
    exact hok'.woken (Or.inr (Or.inl rfl)) (Or.inr (Or.inr id))
  · rw [h.lock] at hv
    cases hv

theorem Returned.owned (h : Returned s t u b w i j k) (howned : s.Owned) : t.Owned := by
  refine ⟨?_, ?_, ?_, ?_⟩
  · intro v b' w' p' hv
    rw [h.bufs]
    exact howned.buf v b' w' p' (h.back hv).2
  · intro v b' w' p' hv
    obtain ⟨hvu, hv⟩ := h.back hv
    obtain ⟨hn, hmine⟩ := howned.mine v b' w' p' hv
    refine ⟨hn, fun d hd => ⟨(hmine d hd).1, ?_⟩⟩
    rw [h.free, if_neg (h.apart howned hvu hv hd)]
    exact (hmine d hd).2
  · intro v b' w' p' v' b'' w'' p'' hv hv' d hd hd'
    exact howned.apart v b' w' p' v' b'' w'' p'' (h.back hv).2 (h.back hv').2 d hd hd'
  · intro d hlt hd
    rw [h.free] at hd
    have hm : d ∉ [i, j, k] := fun hm => by rw [if_pos hm] at hd; cases hd
    rw [if_neg hm] at hd
    obtain ⟨v, b', w', p', hv, hdp⟩ := howned.owner d hlt hd
    refine ⟨v, b', w', p', (h.tasks.other ?_).trans hv, hdp⟩
    rintro rfl
    rw [h.was] at hv
    cases hv
    exact hm hdp

theorem Returned.requests (h : Returned s t u b w i j k) (howned : s.Owned) (hreq : s.Requests) : t.Requests := by
  intro v b' w' p' hv i' j' k' hp
  obtain ⟨hvu, hv⟩ := h.back hv
  have hout : ∀ d ∈ [i', j', k'], d ∉ [i, j, k] := fun d hd => h.apart howned hvu hv (hp ▸ hd)
  rw [h.bufs]
  refine (hreq v b' w' p' hv i' j' k' hp).congr (fun x hx => h.desc x (hout x hx)) (by rw [h.ops]) ?_
  rw [(h.info i').2 (fun he => hout i' (by simp) (by simp [he]))]

theorem Returned.pipeline (h : Returned s t u b w i j k) {av us : List Nat} (hpipe : s.Pipeline av us) (hd : (s.bufs b).disk = false) :
    t.Pipeline av us := by
  refine ⟨?_, ?_, ?_, ?_, ?_, ?_, ?_, ?_⟩
  · rw [h.rings.1, h.rings.2.1, h.device]
    exact hpipe.avail
  · rw [h.rings.2.2.1, h.rings.2.2.2.1, h.rings.2.2.2.2]
    exact hpipe.used
  · rw [h.device]
    exact hpipe.nodup
  · intro h'
    rw [h.device, h.bufs, hpipe.busy]
    constructor
    · rintro ⟨v, b', w', j', k', hv, hb⟩
      refine ⟨v, b', w', j', k', (h.tasks.other ?_).trans hv, hb⟩
      rintro rfl
      rw [h.was] at hv
      cases hv
      rw [hd] at hb
      cases hb
    · rintro ⟨v, b', w', j', k', hv, hb⟩
      exact ⟨v, b', w', j', k', (h.back hv).2, hb⟩
  · intro h' hm
    rw [h.device] at hm
    rw [(h.info h').1]
    exact hpipe.todo h' hm
  · intro h' hm
    rw [h.device] at hm
    rw [(h.info h').1]
    exact hpipe.done h' hm
  · intro v b' w' i' j' k' hv hb
    rw [h.bufs] at hb
    rw [(h.info i').1]
    exact hpipe.told v b' w' i' j' k' (h.back hv).2 hb
  · intro v b' w' i' j' k' hv
    rw [h.bufs, (h.info i').1, h.rings.1, h.rings.2.1]
    exact hpipe.next v b' w' i' j' k' (h.back hv).2

/-- A call returns, and gives its descriptors back. -/
theorem inv_ret (h : s.Inv) (hc : s.call u = some ⟨b, w, .wait i j k, .running⟩) (hd : (s.bufs b).disk = false) :
    (s.returned u i j k).Inv := by
  obtain ⟨hlocked, howned, hreq, av, us, hpipe⟩ := h
  have hret := returned_spec hc
  have hlock := (hlocked.call u _ hc).running.mp rfl
  exact ⟨hret.locked hlocked hlock, hret.owned howned, hret.requests howned hreq, av, us, hret.pipeline hpipe hd⟩

/-- The next request on `used` is that of a call that waits. -/
theorem Pipeline.front {av us : List Nat} (hpipe : s.Pipeline av us) (howned : s.Owned) (hne : s.disk.usedIdx ≠ s.disk.usedRingIdx) :
    ∃ id rest, us = id :: rest ∧ s.disk.usedRing (s.disk.usedIdx.toNat % numDesc) = id ∧ (s.disk.info id).status = 0 ∧
      ∃ u b w j k, s.task u = some (b, w, .wait id j k) ∧ (s.bufs b).disk = true := by
  have hlen := hpipe.length_le howned
  rcases us with _ | ⟨id, rest⟩
  · exact absurd ((hpipe.used.nil_iff (by simp)).mpr rfl) hne
  · refine ⟨id, rest, rfl, hpipe.used.pop.1, hpipe.done id (by simp), (hpipe.busy id).mp (by simp)⟩

/-- What changes when the handler tells the call of buffer `b` that its request is done. -/
structure Handled (s t : VdiskSys α) (b : Nat) : Prop where
  calls : ∀ v, t.call v = (s.call v).map (VdiskCall.woken (.buf b))
  tasks : t.task = s.task
  lock : t.lock = s.lock
  disk : t.disk = { s.disk with usedIdx := s.disk.usedIdx + 1 }
  device : t.device = s.device
  buf : t.bufs b = { s.bufs b with disk := false }
  bufs : ∀ d, d ≠ b → t.bufs d = s.bufs d

theorem Handled.same (h : Handled s t b) (d : Nat) : (t.bufs d).lock = (s.bufs d).lock ∧ (t.bufs d).sector = (s.bufs d).sector := by
  by_cases hd : d = b
  · rw [hd, h.buf]
    exact ⟨rfl, rfl⟩
  · rw [h.bufs d hd]
    exact ⟨rfl, rfl⟩

theorem Handled.locked (h : Handled s t b) (hlocked : s.Locked) : t.Locked := by
  refine ⟨fun v c hv => ?_, fun v hv => ?_⟩
  · rw [h.calls] at hv
    obtain ⟨c', hc', rfl⟩ := Option.map_eq_some_iff.mp hv
    have hcb : (c'.woken (.buf b)).b = c'.b := congrArg Prod.fst (woken_task (.buf b) c')
    rw [hcb, h.lock, h.disk]
    refine (hlocked.call v c' hc').woken (Or.inr (Or.inr id)) ?_
    by_cases hb : c'.b = b
    · exact Or.inr (Or.inl (by rw [hb]))
    · rw [h.bufs _ hb]
      exact Or.inr (Or.inr id)
  · rw [h.lock] at hv
    rw [h.calls]
    simpa using hlocked.holder v hv

theorem Handled.owned (h : Handled s t b) (howned : s.Owned) : t.Owned := by
  refine ⟨?_, ?_, ?_, ?_⟩
  · intro v d w' p' hv
    rw [h.tasks] at hv
    rw [(h.same d).1]
    exact howned.buf v d w' p' hv
  · rw [h.tasks, h.disk]
    exact howned.mine
  · rw [h.tasks]
    exact howned.apart
  · rw [h.tasks, h.disk]
    exact howned.owner

theorem Handled.requests (h : Handled s t b) (hreq : s.Requests) : t.Requests := by
  intro v d w' p' hv i' j' k' hp
  rw [h.tasks] at hv
  rw [(h.same d).2, h.disk]
  exact (hreq v d w' p' hv i' j' k' hp).congr (fun _ _ => rfl) rfl rfl

/-- The request is off `used`, and it is no longer busy. -/
theorem Handled.pipeline (h : Handled s t b) (howned : s.Owned) {id : Nat} {av us : List Nat} (hpipe : s.Pipeline av (id :: us))
    (hu : s.task u = some (b, w, .wait id j k)) : t.Pipeline av us := by
  have hother : ∀ {v d w' p'}, v ≠ u → s.task v = some (d, w', p') → d ≠ b := by
    rintro v d w' p' hv hvt rfl
    exact hv (howned.buf_unique hvt hu)
  refine ⟨?_, ?_, ?_, ?_, ?_, ?_, ?_, ?_⟩
  · rw [h.disk, h.device]
    exact hpipe.avail
  · rw [h.disk]
    exact hpipe.used.pop.2
  · rw [h.device]
    exact hpipe.nodup.sublist (by simp)
  · intro h'
    have hnotin : id ∉ av ++ (s.device.taken ++ (s.device.performed ++ us)) := by
      have hnodup := hpipe.nodup
      rw [← List.append_assoc, ← List.append_assoc] at hnodup ⊢
      exact (List.nodup_cons.mp ((List.perm_middle.nodup_iff).mp hnodup)).1
    have hold := hpipe.busy h'
    rw [← List.append_assoc, ← List.append_assoc, List.perm_middle.mem_iff, List.mem_cons, List.append_assoc, List.append_assoc] at hold
    rw [h.device, h.tasks]
    constructor
    · intro hm
      obtain ⟨v, d, w', j', k', hv, hd⟩ := hold.mp (Or.inr hm)
      refine ⟨v, d, w', j', k', hv, ?_⟩
      rw [h.bufs d (hother ?_ hv)]
      · exact hd
      · rintro rfl
        rw [hu] at hv
        cases hv
        exact hnotin hm
    · rintro ⟨v, d, w', j', k', hv, hd⟩
      have hdb : d ≠ b := by
        rintro rfl
        rw [h.buf] at hd
        cases hd
      rw [h.bufs d hdb] at hd
      rcases hold.mpr ⟨v, d, w', j', k', hv, hd⟩ with rfl | hm
      · obtain rfl := howned.apart _ _ _ _ _ _ _ _ hu hv h' (by simp [VdiskPoint.descs]) (by simp [VdiskPoint.descs])
        rw [hu] at hv
        cases hv
        exact absurd rfl hdb
      · exact hm
  · intro h' hm
    rw [h.device] at hm
    rw [h.disk]
    exact hpipe.todo h' hm
  · intro h' hm
    rw [h.device] at hm
    rw [h.disk]
    refine hpipe.done h' ?_
    rcases List.mem_append.mp hm with hm | hm
    · exact List.mem_append_left _ hm
    · exact List.mem_append_right _ (List.mem_cons_of_mem _ hm)
  · intro v d w' i' j' k' hv hd
    rw [h.tasks] at hv
    rw [h.disk]
    by_cases hvu : v = u
    · rw [hvu, hu] at hv
      cases hv
      exact hpipe.done id (by simp)
    · rw [h.bufs d (hother hvu hv)] at hd
      exact hpipe.told v d w' i' j' k' hv hd
  · intro v d w' i' j' k' hv
    rw [h.tasks] at hv
    have hvu : v ≠ u := by
      rintro rfl
      rw [hu] at hv
      cases hv
    rw [h.disk, h.bufs d (hother hvu hv)]
    exact hpipe.next v d w' i' j' k' hv

/-- The handler tells a call that its request is done. -/
theorem inv_handle (h : s.Inv) {id : Nat} (hne : s.disk.usedIdx ≠ s.disk.usedRingIdx)
    (hid : s.disk.usedRing (s.disk.usedIdx.toNat % numDesc) = id) (hb : (s.disk.info id).b = some b) :
    (((s.setDisk { s.disk with usedIdx := s.disk.usedIdx + 1 }).setBuf b { s.bufs b with disk := false }).wakeup (.buf b)).Inv := by
  obtain ⟨hlocked, howned, hreq, av, us, hpipe⟩ := h
  obtain ⟨id', rest, rfl, hid', -, u, b', w, j, k, hu, -⟩ := hpipe.front howned hne
  obtain rfl := hid'.symm.trans hid
  obtain rfl : b' = b := by
    have hinfo := (hreq u b' w _ hu id' j k rfl).info
    rw [hb] at hinfo
    exact (Option.some.inj hinfo).symm
  have hhandled : Handled s (((s.setDisk { s.disk with usedIdx := s.disk.usedIdx + 1 }).setBuf b'
      { s.bufs b' with disk := false }).wakeup (.buf b')) b' :=
    ⟨fun _ => rfl, funext (wakeup_task _ _), rfl, rfl, rfl, Function.update_self .., fun _ hd => Function.update_of_ne hd ..⟩
  exact ⟨hhandled.locked hlocked, hhandled.owned howned, hhandled.requests hreq, av, rest, hhandled.pipeline howned hpipe hu⟩

/-- Requests only move on: what is on its way is the same. -/
theorem Inv.move (h : s.Inv) (hcall : t.call = s.call) (hlock : t.lock = s.lock)
    (hbufs : ∀ b, (t.bufs b).lock = (s.bufs b).lock ∧ (t.bufs b).disk = (s.bufs b).disk ∧ (t.bufs b).sector = (s.bufs b).sector)
    (hfree : t.disk.free = s.disk.free) (hdesc : t.disk.desc = s.disk.desc) (hops : t.disk.ops = s.disk.ops)
    (hinfo : ∀ d, (t.disk.info d).b = (s.disk.info d).b)
    (hpipe : ∀ av us, s.Pipeline av us → ∃ av' us', t.Pipeline av' us') : t.Inv := by
  obtain ⟨hlocked, howned, hreq, av, us, hp⟩ := h
  have htask : t.task = s.task := by
    funext v
    simp [task, hcall]
  refine ⟨⟨?_, ?_⟩, ⟨?_, ?_, ?_, ?_⟩, ?_, hpipe av us hp⟩
  · intro v c hv
    rw [hcall] at hv
    rw [hlock, (hbufs c.b).2.1, Vdisk.frees, hfree]
    exact hlocked.call v c hv
  · intro v hv
    rw [hlock] at hv
    rw [hcall]
    exact hlocked.holder v hv
  · intro v b w p hv
    rw [htask] at hv
    rw [(hbufs b).1]
    exact howned.buf v b w p hv
  · rw [htask, hfree]
    exact howned.mine
  · rw [htask]
    exact howned.apart
  · rw [htask, hfree]
    exact howned.owner
  · intro v b w p hv i j k hpd
    rw [htask] at hv
    rw [(hbufs b).2.2]
    exact (hreq v b w p hv i j k hpd).congr (fun x _ => by rw [hdesc]) (by rw [hops]) (hinfo i)

/-- The device takes a request off `avail`. -/
theorem inv_take (h : s.Inv) (hne : s.device.lastAvail ≠ s.disk.availIdx) (hh : s.disk.availRing (s.device.lastAvail.toNat % numDesc) = i) :
    (s.setDevice { s.device with lastAvail := s.device.lastAvail + 1, taken := s.device.taken ++ [i] }).Inv := by
  refine h.move rfl rfl (fun b => ⟨rfl, rfl, rfl⟩) rfl rfl rfl (fun _ => rfl) ?_
  intro av us hpipe
  rcases av with _ | ⟨i', rest⟩
  · exact absurd ((hpipe.avail.nil_iff (by simp)).mpr rfl) hne
  · obtain ⟨hi, hpop⟩ := hpipe.avail.pop
    obtain rfl := hi.symm.trans hh
    have hperm : (rest ++ ((s.device.taken ++ [i']) ++ (s.device.performed ++ us))).Perm
        (i' :: rest ++ (s.device.taken ++ (s.device.performed ++ us))) := by
      rw [List.append_assoc, List.singleton_append, ← List.append_assoc]
      exact List.perm_middle.trans (by simp)
    refine ⟨rest, us, hpop, hpipe.used, hperm.nodup_iff.mpr hpipe.nodup, fun h' => hperm.mem_iff.trans (hpipe.busy h'), ?_, hpipe.done,
      hpipe.told, hpipe.next⟩
    intro h' hm
    refine hpipe.todo h' ?_
    change h' ∈ rest ++ (s.device.taken ++ [i']) at hm
    simp only [List.mem_append, List.mem_cons] at hm ⊢
    tauto

/-- The device carries a request out: it finds it as its call meant it. -/
theorem Inv.request (h : s.Inv) (hm : i ∈ s.device.taken) :
    ∃ u b w j k, s.task u = some (b, w, .wait i j k) ∧ (s.bufs b).disk = true ∧ (s.disk.info i).status = 0xff ∧
      request s.disk i = some (w, (s.bufs b).sector, b, i) := by
  obtain ⟨-, -, hreq, av, us, hpipe⟩ := h
  obtain ⟨u, b, w, j, k, hu, hbusy⟩ := (hpipe.busy i).mp (List.mem_append_right _ (List.mem_append_left _ hm))
  exact ⟨u, b, w, j, k, hu, hbusy, hpipe.todo i (List.mem_append_right _ hm), (hreq u b w _ hu i j k rfl).request⟩

theorem transfer_fields (s : VdiskSys α) (w : Bool) (sector : UInt64) (b st : Nat) :
    (s.transfer w sector b st).call = s.call ∧ (s.transfer w sector b st).lock = s.lock ∧
    (s.transfer w sector b st).disk = { s.disk with info := Function.update s.disk.info st { s.disk.info st with status := 0 } } ∧
    (s.transfer w sector b st).device.lastAvail = s.device.lastAvail ∧ (s.transfer w sector b st).device.taken = s.device.taken ∧
    (s.transfer w sector b st).device.performed = s.device.performed ∧
    ∀ d, ((s.transfer w sector b st).bufs d).lock = (s.bufs d).lock ∧ ((s.transfer w sector b st).bufs d).disk = (s.bufs d).disk ∧
      ((s.transfer w sector b st).bufs d).sector = (s.bufs d).sector := by
  cases w with
  | true => exact ⟨rfl, rfl, rfl, rfl, rfl, rfl, fun d => ⟨rfl, rfl, rfl⟩⟩
  | false =>
    refine ⟨rfl, rfl, rfl, rfl, rfl, rfl, fun d => ?_⟩
    by_cases hd : d = b
    · subst hd
      simp [transfer, setBuf, setDisk, DiskBuf.sector]
    · simp [transfer, setBuf, setDisk, hd]

theorem inv_perform (h : s.Inv) {st : Nat} {sector : UInt64} (hm : i ∈ s.device.taken) (hr : request s.disk i = some (w, sector, b, st)) :
    ((s.setDevice { s.device with taken := s.device.taken.erase i, performed := s.device.performed ++ [i] }).transfer w sector b st).Inv := by
  obtain ⟨u, b', w', j, k, hu, hbusy, hstatus, hr'⟩ := h.request hm
  rw [hr] at hr'
  cases hr'
  obtain ⟨hcall, hlock, hdisk, hlast, htaken, hperf, hbufs⟩ := transfer_fields
    (s.setDevice { s.device with taken := s.device.taken.erase i, performed := s.device.performed ++ [i] }) w (s.bufs b).sector b i
  obtain ⟨t, ht⟩ : ∃ t, t = (s.setDevice { s.device with taken := s.device.taken.erase i, performed := s.device.performed ++ [i] }).transfer
    w (s.bufs b).sector b i := ⟨_, rfl⟩
  rw [← ht] at hcall hlock hdisk hlast htaken hperf hbufs ⊢
  have htask : t.task = s.task := funext (fun v => by simp only [task, hcall]; rfl)
  have hinfo : ∀ d, (t.disk.info d).b = (s.disk.info d).b ∧ (t.disk.info d).status = if d = i then 0 else (s.disk.info d).status := by
    intro d
    rw [hdisk]
    by_cases hd : d = i
    · subst hd
      simp [setDevice]
    · simp [setDevice, hd]
  refine h.move hcall hlock hbufs (by rw [hdisk]; rfl) (by rw [hdisk]; rfl) (by rw [hdisk]; rfl) (fun d => (hinfo d).1) ?_
  intro av us hpipe
  have hnodup := hpipe.nodup
  have hperm : (av ++ (s.device.taken.erase i ++ ((s.device.performed ++ [i]) ++ us))).Perm
      (av ++ (s.device.taken ++ (s.device.performed ++ us))) := by
    refine List.Perm.append_left av ?_
    rw [List.append_assoc, List.singleton_append, ← List.append_assoc]
    refine List.perm_middle.trans ?_
    rw [← List.cons_append, ← List.cons_append, ← List.append_assoc]
    exact ((List.perm_cons_erase hm).symm.append_right _).append_right _
  have hlater : i ∉ av ∧ i ∉ s.device.performed ∧ i ∉ us := by
    simp only [List.nodup_append, List.mem_append] at hnodup
    refine ⟨fun hi => ?_, fun hi => ?_, fun hi => ?_⟩
    · exact hnodup.2.2 i hi i (Or.inl hm) rfl
    · exact hnodup.2.1.2.2 i hm i (Or.inl hi) rfl
    · exact hnodup.2.1.2.2 i hm i (Or.inr hi) rfl
  have herase : i ∉ s.device.taken.erase i := by
    have : s.device.taken.Nodup := (List.nodup_append.mp (List.nodup_append.mp hnodup).2.1).1
    exact this.not_mem_erase
  refine ⟨av, us, ?_, ?_, ?_, ?_, ?_, ?_, ?_, ?_⟩
  · rw [hdisk, hlast]
    exact hpipe.avail
  · rw [hdisk]
    exact hpipe.used
  · rw [htaken, hperf]
    exact hperm.nodup_iff.mpr hnodup
  · intro h'
    rw [htaken, hperf, htask]
    refine (hperm.mem_iff.trans (hpipe.busy h')).trans ?_
    simp only [(hbufs _).2.1]
    rfl
  · intro h' hm'
    rw [htaken] at hm'
    rw [(hinfo h').2, if_neg]
    · refine hpipe.todo h' ?_
      rcases List.mem_append.mp hm' with hm' | hm'
      · exact List.mem_append_left _ hm'
      · exact List.mem_append_right _ (List.mem_of_mem_erase hm')
    · rintro rfl
      rcases List.mem_append.mp hm' with hm' | hm'
      · exact hlater.1 hm'
      · exact herase hm'
  · intro h' hm'
    rw [hperf] at hm'
    rw [(hinfo h').2]
    split
    · rfl
    · rename_i hne
      refine hpipe.done h' ?_
      change h' ∈ (s.device.performed ++ [i]) ++ us at hm'
      simp only [List.mem_append, List.mem_singleton] at hm' ⊢
      tauto
  · intro v d w'' i' j' k' hv hd
    rw [htask] at hv
    rw [(hbufs d).2.1] at hd
    rw [(hinfo i').2]
    split
    · rfl
    · exact hpipe.told v d w'' i' j' k' hv hd
  · intro v d w'' i' j' k' hv
    rw [htask] at hv
    rw [(hbufs d).2.1, (hinfo i').2, if_neg, hdisk]
    · exact hpipe.next v d w'' i' j' k' hv
    · rintro rfl
      obtain rfl := h.owned.apart _ _ _ _ _ _ _ _ hu hv i' (by simp [VdiskPoint.descs]) (by simp [VdiskPoint.descs])
      rw [hu] at hv
      cases hv

/-- The device puts a request on `used`. -/
theorem inv_complete (h : s.Inv) (hm : i ∈ s.device.performed) :
    ((s.setDisk { s.disk with
      usedRing := Function.update s.disk.usedRing (s.disk.usedRingIdx.toNat % numDesc) i
      usedRingIdx := s.disk.usedRingIdx + 1 }).setDevice { s.device with performed := s.device.performed.erase i }).Inv := by
  refine h.move rfl rfl (fun b => ⟨rfl, rfl, rfl⟩) rfl rfl rfl (fun _ => rfl) ?_
  intro av us hpipe
  have hlen := hpipe.length_le h.owned
  have hpos := List.length_pos_of_mem hm
  have hperm : (av ++ (s.device.taken ++ (s.device.performed.erase i ++ (us ++ [i])))).Perm
      (av ++ (s.device.taken ++ (s.device.performed ++ us))) := by
    refine List.Perm.append_left av (List.Perm.append_left _ ?_)
    rw [← List.append_assoc]
    refine (List.perm_append_singleton i _).trans ?_
    rw [← List.cons_append]
    exact (List.perm_cons_erase hm).symm.append_right _
  refine ⟨av, us ++ [i], hpipe.avail, hpipe.used.push (by omega) i, hperm.nodup_iff.mpr hpipe.nodup,
    fun h' => hperm.mem_iff.trans (hpipe.busy h'), hpipe.todo, ?_, hpipe.told, hpipe.next⟩
  intro h' hm'
  refine hpipe.done h' ?_
  change h' ∈ s.device.performed.erase i ++ (us ++ [i]) at hm'
  simp only [List.mem_append, List.mem_singleton] at hm' ⊢
  rcases hm' with hm' | hm' | rfl
  · exact Or.inl (List.mem_of_mem_erase hm')
  · exact Or.inr hm'
  · exact Or.inl hm

theorem Inv.step (h : s.Inv) {a : VdiskAction α} (hstep : s.step a = some (.ok t)) : t.Inv := by
  have hcases := step_cases hstep
  have hfree : ∀ {u b : Nat}, (s.bufs b).lock = some u → s.call u = none → ∀ v w p, s.task v ≠ some (b, w, p) := by
    intro u b hl hc v w p hv
    have := h.owned.buf v b w p hv
    rw [hl] at this
    cases this
    rw [task_none hc] at hv
    cases hv
  cases hcases with
  | @hold u b hl =>
    refine h.setBuf (fun v w p hv => ?_)
    rw [h.owned.buf v b w p hv] at hl
    cases hl
  | unhold hl hc => exact h.setBuf (hfree hl hc)
  | edit hl hc => exact h.setBuf (hfree hl hc)
  | rw hl hc => exact inv_rw h hl hc
  | @acquire u c hc hm hl =>
    have hok := h.locked.call u c hc
    refine h.turn hc rfl ⟨by simp, fun _ _ _ _ => rfl, by simp, by simp⟩ (fun v hv => ?_)
    simp [hl, Ne.symm hv]
  | got hc hf => exact inv_got h hc hf
  | @short u b w t hc hlt hr =>
    have hlock := (h.locked.call u _ hc).running.mp rfl
    obtain ⟨c, hc', hb, hw, hp⟩ := call_of_task ((congrFun hr.task u).trans (task_eq hc))
    have hfew : t.disk.frees.length < 3 := by
      rw [Vdisk.frees, hr.free]
      exact hlt
    refine (h.rolled hr).turn hc' (by rw [hb, hw, hp]) ⟨by simp, by simp, fun _ _ => hfew, by simp⟩ (fun v hv => ?_)
    simp [hr.lock, hlock, Ne.symm hv]
  | publish hc => exact inv_publish h hc
  | @sleep u b i j k w hc hd =>
    have hlock := (h.locked.call u _ hc).running.mp rfl
    refine h.turn hc rfl ⟨by simp, by simp, by simp, fun _ _ => hd⟩ (fun v hv => ?_)
    simp [hlock, Ne.symm hv]
  | @kkill u c hc hm =>
    have hok := h.locked.call u c hc
    have hfree : s.lock ≠ some (.call u) := by
      intro hl
      have hrun := hok.running.mpr hl
      rw [hm] at hrun
      cases hrun
    change ((s.setCall u (some { c with mode := .acquiring })).setLock s.lock).Inv
    refine h.turn hc rfl ⟨by simp [hfree], fun i j k hp => ?_, by simp, by simp⟩ (fun _ _ => Iff.rfl)
    -- a call that is about to publish has the lock and does not sleep
    have hrun := hok.publish i j k hp
    rw [hm] at hrun
    cases hrun
  | @ret u b i j k w t hc hd ht =>
    rw [ret_eq h hc] at ht
    cases ht
    exact inv_ret h hc hd
  | intr hl =>
    refine h.same ⟨fun _ => rfl, rfl, rfl, rfl⟩ ⟨fun v c hv => ?_, fun v hv => (by cases hv)⟩
    have hok := h.locked.call v c hv
    exact ⟨hok.running.trans (by simp [setLock, hl]), hok.publish, hok.alloc, hok.wait⟩
  | handle hl hne hid hst hb => exact inv_handle h hne hid hb
  | intrEnd hl hne =>
    refine h.same ⟨fun _ => rfl, rfl, rfl, rfl⟩ ⟨fun v c hv => ?_, fun v hv => (by cases hv)⟩
    have hok := h.locked.call v c hv
    exact ⟨hok.running.trans (by simp [setLock, hl]), hok.publish, hok.alloc, hok.wait⟩
  | take hne hh => exact inv_take h hne hh
  | perform hm hr => exact inv_perform h hm hr
  | complete hm => exact inv_complete h hm

end VdiskSys

end Xv6SnifferBakery.Kernel
