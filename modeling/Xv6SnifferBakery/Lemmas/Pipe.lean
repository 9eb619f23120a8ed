import Xv6SnifferBakery.Kernel.Pipe

/-!
# The bytes of a pipe

A pipe holds a queue of at most `PIPESIZE` bytes, whatever its counters are. A step of a call moves at most one byte: from a writer to
the end of the queue, from its front into the hand of the process that holds the lock, and from there to `copyout`.
-/

namespace Xv6SnifferBakery.Kernel

open Lib

/-! ## The queue -/

/-- The pipe holds the bytes `q`. -/
structure Pipe.Queue (pi : Pipe) (q : List Byte) : Prop where
  stores : Ring.Stores pi.data pipeSize pi.nread.toNat q
  count : pi.nwrite = pi.nread + UInt32.ofNat q.length
  bound : q.length ≤ pipeSize

namespace Pipe

variable {pi : Pipe} {q : List Byte}

theorem queue_pipealloc (data : Nat → Byte) : (pipealloc data).Queue [] := ⟨Ring.Stores.nil, rfl, Nat.zero_le _⟩

/-- The counters are as far apart as the queue is long. -/
theorem Queue.spread (h : pi.Queue q) : (pi.nwrite - pi.nread).toNat = q.length := by
  have hb := h.bound
  unfold pipeSize at hb
  rw [h.count, UInt32.add_comm, UInt32.add_sub_cancel]
  exact UInt32.toNat_ofNat_of_lt' (by simp only [UInt32.size]; omega)

theorem Queue.buffered (h : pi.Queue q) : pi.buffered = q := by
  rw [Pipe.buffered, h.spread]
  exact h.stores.contents

theorem Queue.isEmpty (h : pi.Queue q) : pi.isEmpty ↔ q = [] := by
  have hs := h.spread
  constructor
  · intro he
    rw [show pi.nwrite = pi.nread from he.symm, UInt32.sub_self] at hs
    exact List.eq_nil_of_length_eq_zero hs.symm
  · rintro rfl
    have := h.count
    exact (this.trans (UInt32.add_zero _)).symm

theorem Queue.isFull (h : pi.Queue q) : pi.isFull ↔ q.length = pipeSize := by
  have hs := h.spread
  constructor
  · intro hf
    rw [show pi.nwrite = _ from hf, UInt32.add_comm, UInt32.add_sub_cancel] at hs
    exact hs.symm
  · intro hl
    have := h.count
    rwa [hl] at this

/-- The queue is in `data` and the counters alone. -/
theorem Queue.congr {pi' : Pipe} (h : pi.Queue q) (hd : pi'.data = pi.data) (hr : pi'.nread = pi.nread) (hw : pi'.nwrite = pi.nwrite) :
    pi'.Queue q := by
  refine ⟨?_, ?_, h.bound⟩
  · rw [hd, hr]
    exact h.stores
  · rw [hw, hr]
    exact h.count

/-- `put` into a pipe that is not full adds a byte at the end. -/
theorem Queue.put (h : pi.Queue q) (hfull : ¬pi.isFull) (ch : Byte) : (pi.put ch).Queue (q ++ [ch]) := by
  have hlt : q.length < pipeSize := Nat.lt_of_le_of_ne h.bound (fun heq => hfull (h.isFull.mpr heq))
  refine ⟨?_, ?_, ?_⟩
  · have hslot : pi.nwrite.toNat % pipeSize = (pi.nread.toNat + q.length) % pipeSize := by
      rw [h.count, UInt32.toNat_add, UInt32.toNat_ofNat']
      unfold pipeSize
      omega
    have := h.stores.push hlt ch
    rwa [← hslot] at this
  · change pi.nwrite + 1 = pi.nread + _
    rw [h.count, List.length_append, List.length_singleton, UInt32.ofNat_add, UInt32.add_assoc]
    rfl
  · rw [List.length_append, List.length_singleton]
    exact hlt

/-- Taking a byte from a pipe that is not empty takes the front. -/
theorem Queue.advance (h : pi.Queue q) (hne : ¬pi.isEmpty) : ∃ q', q = pi.front :: q' ∧ pi.advance.Queue q' := by
  cases q with
  | nil => exact absurd (h.isEmpty.mpr rfl) hne
  | cons ch q =>
    refine ⟨q, by rw [Pipe.front, h.stores.front], ?_, ?_, ?_⟩
    · have := h.stores.pop.wrap (show pipeSize ∣ 2 ^ 32 by decide)
      change Ring.Stores pi.data pipeSize (pi.nread + 1).toNat q
      rwa [UInt32.toNat_add]
    · change pi.nwrite = pi.nread + 1 + _
      rw [h.count, List.length_cons, UInt32.ofNat_add, UInt32.add_comm (UInt32.ofNat q.length), ← UInt32.add_assoc]
      rfl
    · exact (Nat.le_succ _).trans h.bound

end Pipe

namespace PipeSys

variable {s t : PipeSys} {p : Nat} {st : PipeStatus} {k : PipePoint} {e : PipeEvent} {q : List Byte}

/-! ## The lock -/

/-- A process that is between two steps of its call holds the lock. -/
def Held (s : PipeSys) : Prop := ∀ p k, s.proc p = .running k → s.pi.lock = some p

theorem proc_go_self : (s.go p st).proc p = st := Function.update_self ..

theorem proc_go_of_ne {p' : Nat} (h : p' ≠ p) : (s.go p st).proc p' = s.proc p' := Function.update_of_ne h ..

theorem hand_woken (chan : PipeChan) (st : PipeStatus) : (st.woken chan).hand = st.hand := by
  cases st with
  | asleep c k =>
    change (if c = chan then PipeStatus.acquiring k else .asleep c k).hand = _
    split <;> rfl
  | out | acquiring | running => rfl

theorem woken_running {chan : PipeChan} (h : st.woken chan = .running k) : st = .running k := by
  cases st with
  | asleep c k' =>
    change (if c = chan then PipeStatus.acquiring k' else .asleep c k') = _ at h
    split at h <;> cases h
  | out | acquiring | running => exact h

theorem held_wakeup (h : s.Held) (chan : PipeChan) : (s.wakeup chan).Held := by
  intro p' k' hk
  exact h p' k' (woken_running hk)

theorem inHand_wakeup (chan : PipeChan) : (s.wakeup chan).inHand = s.inHand := by
  unfold inHand
  have hlock : (s.wakeup chan).pi.lock = s.pi.lock := rfl
  rw [hlock]
  cases s.pi.lock with
  | none => rfl
  | some p => exact hand_woken chan _

/-- The process with the lock goes on. -/
theorem held_go_running (h : s.Held) (hl : s.pi.lock = some p) : (s.go p (.running k)).Held := by
  intro p' k' hk
  by_cases hp : p' = p
  · rw [hp]
    exact hl
  · rw [proc_go_of_ne hp] at hk
    exact h p' k' hk

theorem inHand_go_running (hl : s.pi.lock = some p) : (s.go p (.running k)).inHand = (PipeStatus.running k).hand := by
  unfold inHand
  rw [show (s.go p (.running k)).pi.lock = some p from hl]
  change ((s.go p (.running k)).proc p).hand = _
  rw [proc_go_self]

theorem inHand_running (h : s.Held) (hk : s.proc p = .running k) : s.inHand = (PipeStatus.running k).hand := by
  rw [inHand, h p k hk]
  change (s.proc p).hand = _
  rw [hk]

/-- The process with the lock releases it. -/
theorem held_release (h : s.Held) (hl : s.pi.lock = some p) (hst : ∀ k, st ≠ .running k) : ((s.go p st).setLock none).Held := by
  intro p' k' hk
  change (s.go p st).proc p' = _ at hk
  by_cases hp : p' = p
  · rw [hp, proc_go_self] at hk
    exact absurd hk (hst k')
  · rw [proc_go_of_ne hp] at hk
    have := (h p' k' hk).symm.trans hl
    exact absurd (Option.some.inj this) hp

theorem held_of_free {l : Option Nat} (h : s.Held) (hfree : s.pi.lock = none) : (s.setLock l).Held := by
  intro p' k' hk
  have := h p' k' hk
  rw [hfree] at this
  cases this

theorem inHand_of_free (hfree : s.pi.lock = none) : s.inHand = [] := by rw [inHand, hfree]

/-- A process outside the critical section changes its own state only. -/
theorem held_go (h : s.Held) (hst : ∀ k, st ≠ .running k) : (s.go p st).Held := by
  intro p' k' hk
  by_cases hp : p' = p
  · rw [hp, proc_go_self] at hk
    exact absurd hk (hst k')
  · rw [proc_go_of_ne hp] at hk
    exact h p' k' hk

theorem inHand_go (hp : (s.proc p).hand = []) (hst : st.hand = []) : (s.go p st).inHand = s.inHand := by
  unfold inHand
  have hlock : (s.go p st).pi.lock = s.pi.lock := rfl
  rw [hlock]
  cases s.pi.lock with
  | none => rfl
  | some p' =>
    by_cases hpp : p' = p
    · subst hpp
      simp only [proc_go_self, hst, hp]
    · simp only [proc_go_of_ne hpp]

/-! ## Steps -/

/-- What holds between any two steps: the queue, and the lock. -/
structure Inv (s : PipeSys) (q : List Byte) : Prop where
  queue : s.pi.Queue q
  held : s.Held

theorem inv_start (data : Nat → Byte) : (start data).Inv [] := by
  refine ⟨Pipe.queue_pipealloc data, ?_⟩
  intro p k hk
  cases hk

/-- The bytes that were in hand or in the queue before an event or came with it, are copied out by it, in hand or in the queue. -/
structure Moves (s : PipeSys) (q : List Byte) (e : PipeEvent) (t : PipeSys) (q' : List Byte) : Prop where
  inv : t.Inv q'
  bytes : s.inHand ++ q ++ e.accepts.toList = e.copies.toList.map Prod.fst ++ t.inHand ++ q'

/-- A step that moves no byte. -/
theorem Moves.idle (hd : t.pi.Queue q) (hheld : t.Held) (hhand : t.inHand = s.inHand) (ha : e.accepts = none)
    (hc : e.copies = none) : s.Moves q e t q := by
  refine ⟨⟨hd, hheld⟩, ?_⟩
  rw [ha, hc, hhand]
  simp

/-- A step of the process with the lock that moves no byte and keeps the lock. -/
theorem Moves.stay {k' : PipePoint} (hi : s.Inv q) (hk : s.proc p = .running k)
    (hh : (PipeStatus.running k').hand = (PipeStatus.running k).hand) (ha : e.accepts = none) (hc : e.copies = none) :
    s.Moves q e (s.go p (.running k')) q := by
  have hl := hi.held p k hk
  refine ⟨⟨hi.queue, held_go_running hi.held hl⟩, ?_⟩
  rw [ha, hc, inHand_go_running hl, hh, inHand_running hi.held hk]
  simp

/-- The process with the lock has nothing in hand and releases the lock. -/
theorem Moves.release (hi : s.Inv q) (hk : s.proc p = .running k) (hh : (PipeStatus.running k).hand = [])
    (hst : ∀ k, st ≠ .running k) (ha : e.accepts = none) (hc : e.copies = none) : s.Moves q e ((s.go p st).setLock none) q := by
  refine Moves.idle (hi.queue.congr rfl rfl rfl) (held_release hi.held (hi.held p k hk) hst) ?_ ha hc
  rw [inHand_running hi.held hk, hh]
  rfl

theorem Moves.wakeup (h : s.Moves q e t q) (chan : PipeChan) : s.Moves q e (t.wakeup chan) q := by
  refine ⟨⟨h.inv.queue, held_wakeup h.inv.held chan⟩, ?_⟩
  rw [inHand_wakeup]
  exact h.bytes

/-- A call returns with nothing in hand. -/
theorem result_hand {r : Int × Option PipeChan} (h : s.result p k = some r) : (PipeStatus.running k).hand = [] := by
  cases k with
  | copying => cases h
  | head | reading | wrote | read => rfl

/-- A step from within a call. -/
theorem moves_inCall (hi : s.Inv q) (hk : s.proc p = .running k) (h : s.inCall p k e = some t) : ∃ q', s.Moves q e t q' := by
  have hl := hi.held p k hk
  have hin := inHand_running hi.held hk
  unfold inCall at h
  split at h
  · -- `pipewrite` sleeps: the pipe is full
    split at h
    · obtain rfl := Option.some.inj h
      refine ⟨q, Moves.idle (hi.queue.congr rfl rfl rfl) ?_ ?_ rfl rfl⟩
      · exact held_release (held_wakeup hi.held _) hl (by intro k h; cases h)
      · rw [hin]
        rfl
    · cases h
  · -- `pipewrite` copies a byte in
    split at h
    · rename_i hc
      split at h
      · obtain rfl := Option.some.inj h
        exact ⟨q, Moves.stay hi hk rfl rfl rfl⟩
      · rename_i ch
        obtain rfl := Option.some.inj h
        refine ⟨q ++ [ch], ⟨hi.queue.put hc.2.2.2.1 ch, held_go_running hi.held hl⟩, ?_⟩
        rw [hin, inHand_go_running (s := s.setPipe (s.pi.put ch)) hl]
        rfl
    · cases h
  · -- `piperead` sleeps: the pipe is empty
    split at h
    · obtain rfl := Option.some.inj h
      exact ⟨q, Moves.release hi hk rfl (by intro k h; cases h) rfl rfl⟩
    · cases h
  · -- the first loop of `piperead` is over
    split at h
    · cases h
    · obtain rfl := Option.some.inj h
      exact ⟨q, Moves.stay hi hk rfl rfl rfl⟩
  · -- `piperead` takes a byte
    split at h
    · rename_i hc
      obtain rfl := Option.some.inj h
      obtain ⟨q', hq, hadv⟩ := hi.queue.advance hc.2.1
      refine ⟨q', ⟨hadv, held_go_running hi.held hl⟩, ?_⟩
      rw [hin, inHand_go_running (s := s.setPipe s.pi.advance) hl, hc.2.2, hq]
      simp [PipeEvent.accepts, PipeEvent.copies, PipeStatus.hand]
    · cases h
  · -- `piperead` copies the byte out
    split at h
    · rename_i ok hc
      obtain rfl := Option.some.inj h
      refine ⟨q, ⟨hi.queue, held_go_running hi.held hl⟩, ?_⟩
      rw [hin, inHand_go_running hl, hc.2]
      cases ok with
      | false => simp [PipeEvent.accepts, PipeEvent.copies, PipeStatus.hand]
      | true => simp [PipeEvent.accepts, PipeEvent.copies, PipeStatus.hand]
    · cases h
  · -- a call returns
    split at h
    · cases h
    · rename_i p' r _ _ wake hr
      split at h
      · obtain rfl := Option.some.inj h
        have hm : s.Moves q (.ret p' r) ((s.go p .out).setLock none) q :=
          Moves.release hi hk (result_hand hr) (by intro k h; cases h) rfl rfl
        refine ⟨q, ?_⟩
        cases wake with
        | none => exact hm
        | some chan => exact hm.wakeup chan
      · cases h
  · cases h

/-- Each step moves the bytes on, and keeps the invariant. -/
theorem moves_step (hi : s.Inv q) (h : s.Step e t) : ∃ q', s.Moves q e t q' := by
  unfold Step step at h
  split at h
  · -- a call of `pipewrite`
    split at h
    · rename_i hout
      obtain rfl := Option.some.inj h
      refine ⟨q, Moves.idle hi.queue (held_go hi.held (by intro k h; cases h)) ?_ rfl rfl⟩
      exact inHand_go (by rw [hout]; rfl) rfl
    · cases h
  · -- a call of `piperead`
    split at h
    · rename_i hout
      obtain rfl := Option.some.inj h
      refine ⟨q, Moves.idle hi.queue (held_go hi.held (by intro k h; cases h)) ?_ rfl rfl⟩
      exact inHand_go (by rw [hout]; rfl) rfl
    · cases h
  · -- a process gets the lock
    split at h
    · split at h
      · rename_i p _ k hacq hfree
        obtain rfl := Option.some.inj h
        refine ⟨q, Moves.idle (hi.queue.congr rfl rfl rfl) ?_ ?_ rfl rfl⟩
        · exact held_go_running (s := s.setLock (some p)) (held_of_free hi.held hfree) rfl
        · rw [inHand_go_running (s := s.setLock (some p)) rfl, inHand_of_free hfree]
          rfl
      · cases h
    · cases h
  · -- an end is closed
    split at h
    · rename_i w hfree
      obtain rfl := Option.some.inj h
      refine ⟨q, ?_⟩
      cases w with
      | false =>
        have hm : s.Moves q (.pipeclose false) (s.setPipe { s.pi with readopen := false }) q :=
          Moves.idle (hi.queue.congr rfl rfl rfl) hi.held rfl rfl rfl
        exact hm.wakeup _
      | true =>
        have hm : s.Moves q (.pipeclose true) (s.setPipe { s.pi with writeopen := false }) q :=
          Moves.idle (hi.queue.congr rfl rfl rfl) hi.held rfl rfl rfl
        exact hm.wakeup _
    · cases h
  · -- a process is killed
    rename_i p
    obtain rfl := Option.some.inj h
    refine ⟨q, ?_⟩
    rw [kkill]
    split
    · rename_i hsl
      refine Moves.idle hi.queue (held_go hi.held (by intro k h; cases h)) ?_ rfl rfl
      exact inHand_go (by change (s.proc p).hand = []; rw [show s.proc p = _ from hsl]; rfl) rfl
    · exact Moves.idle hi.queue hi.held rfl rfl rfl
  · split at h
    · cases h
    · split at h
      · rename_i hk
        exact moves_inCall hi hk h
      · cases h

/-! ## Runs -/

theorem accepted_snoc (evs : List PipeEvent) (e : PipeEvent) : accepted (evs ++ [e]) = accepted evs ++ e.accepts.toList := by
  rw [accepted, List.filterMap_append, List.filterMap_cons]
  cases e.accepts <;> rfl

theorem copies_snoc (evs : List PipeEvent) (e : PipeEvent) : copies (evs ++ [e]) = copies evs ++ e.copies.toList := by
  rw [copies, List.filterMap_append, List.filterMap_cons]
  cases e.copies <;> rfl

/-- The account of a run: what was accepted was copied out, is in hand, or is in the pipe. -/
theorem run_account {data : Nat → Byte} {evs : List PipeEvent} (h : Run Step (start data) evs s) :
    ∃ q, s.Inv q ∧ (copies evs).map Prod.fst ++ s.inHand ++ q = accepted evs := by
  induction h with
  | nil => exact ⟨[], inv_start data, rfl⟩
  | snoc _ hs ih =>
    rename_i t u evs e _
    obtain ⟨q, hi, hacc⟩ := ih
    obtain ⟨q', hi', hb⟩ := moves_step hi hs
    refine ⟨q', hi', ?_⟩
    calc (copies (evs ++ [e])).map Prod.fst ++ u.inHand ++ q'
        = (copies evs).map Prod.fst ++ (e.copies.toList.map Prod.fst ++ u.inHand ++ q') := by
          rw [copies_snoc, List.map_append]
          simp only [List.append_assoc]
      _ = (copies evs).map Prod.fst ++ t.inHand ++ q ++ e.accepts.toList := by
          rw [← hb]
          simp only [List.append_assoc]
      _ = accepted (evs ++ [e]) := by rw [hacc, accepted_snoc]

end PipeSys

end Xv6SnifferBakery.Kernel
