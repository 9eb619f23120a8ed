import Mathlib.Algebra.Order.BigOperators.Group.Finset
import Mathlib.Order.Interval.Finset.Nat
import Xv6SnifferBakery.Kernel.Log

/-!
# Log space is reserved

`begin_op` counts `maxOpBlocks` for every operation in flight. What an operation has not used of it stays free in the header, whatever
the others log and however many have ended: so the header never overflows. `log_write` tests for a full header before it looks for the
block, though, and panics when an operation logs a block again that a full header already has.
-/

namespace Xv6SnifferBakery.Kernel

open Lib

/-- The points of `commit`. -/
def LogPc.commits : LogPc → Bool
  | .commit | .writeLog _ | .install _ | .committed => true
  | _ => false

namespace OpSys

variable {α ι : Type} {start : Nat} {s t : OpSys α ι} {evs : List (OpEvent α ι)}

/-- The blocks that the operations in flight may still log. -/
def unused (s : OpSys α ι) : Nat := ∑ i ∈ s.active, (maxOpBlocks - (s.logged i).card)

/-- The invariant: the header has room for what the operations in flight have not used. -/
structure Reserved (s : OpSys α ι) : Prop where
  count : s.active.card = s.log.outstanding
  room : s.log.lh.length + s.unused ≤ logBlocks
  few : ∀ i ∈ s.active, (s.logged i).card ≤ maxOpBlocks
  logged : ∀ i ∈ s.active, ∀ b ∈ s.logged i, b ∈ s.log.lh
  nodup : s.log.lh.Nodup
  head : s.log.head.Nodup ∧ s.log.head.length ≤ logBlocks
  committing : s.log.committing = s.log.pc.commits
  alone : s.log.pc ≠ .idle → s.active = ∅

theorem unused_le (s : OpSys α ι) : s.unused ≤ s.active.card * maxOpBlocks := by
  have h := Finset.sum_le_card_nsmul s.active (fun i => maxOpBlocks - (s.logged i).card) maxOpBlocks (fun _ _ => Nat.sub_le _ _)
  simpa [unused] using h

theorem unused_empty (h : s.active = ∅) : s.unused = 0 := by
  rw [unused, h, Finset.sum_empty]

variable [DecidableEq ι]

/-- A new operation may log `maxOpBlocks` blocks. -/
theorem unused_begin {i : ι} (hi : i ∉ s.active) (l : LogSys α) :
    (⟨l, insert i s.active, Function.update s.logged i ∅⟩ : OpSys α ι).unused = maxOpBlocks + s.unused := by
  rw [unused, Finset.sum_insert hi, unused]
  change maxOpBlocks - (Function.update s.logged i ∅ i).card + ∑ j ∈ s.active, (maxOpBlocks - (Function.update s.logged i ∅ j).card) =
    maxOpBlocks + ∑ j ∈ s.active, (maxOpBlocks - (s.logged j).card)
  rw [Function.update_self, Finset.card_empty, Nat.sub_zero]
  refine congrArg (maxOpBlocks + ·) (Finset.sum_congr rfl ?_)
  intro j hj
  rw [Function.update_of_ne (by rintro rfl; exact hi hj)]

/-- Logging a block uses one up, unless the operation has logged it before. -/
theorem unused_logWrite {i : ι} {b : Nat} (hi : i ∈ s.active) (hfew : (insert b (s.logged i)).card ≤ maxOpBlocks) (l : LogSys α) :
    (⟨l, s.active, Function.update s.logged i (insert b (s.logged i))⟩ : OpSys α ι).unused + (if b ∈ s.logged i then 0 else 1) =
      s.unused := by
  have hrest : ∑ j ∈ s.active.erase i, (maxOpBlocks - (Function.update s.logged i (insert b (s.logged i)) j).card) =
      ∑ j ∈ s.active.erase i, (maxOpBlocks - (s.logged j).card) := by
    refine Finset.sum_congr rfl ?_
    intro j hj
    rw [Function.update_of_ne (Finset.ne_of_mem_erase hj)]
  have hself : (Function.update s.logged i (insert b (s.logged i)) i).card = (insert b (s.logged i)).card := by rw [Function.update_self]
  rw [unused, unused, ← Finset.add_sum_erase _ _ hi, ← Finset.add_sum_erase _ _ hi, hrest, hself]
  split
  · rename_i hmem
    rw [Finset.insert_eq_of_mem hmem]
    rfl
  · rename_i hmem
    rw [Finset.card_insert_of_notMem hmem] at hfew ⊢
    omega

theorem unused_end {i : ι} (l : LogSys α) : (⟨l, s.active.erase i, s.logged⟩ : OpSys α ι).unused ≤ s.unused :=
  Finset.sum_le_sum_of_subset (Finset.erase_subset i s.active)

/-! ## Steps -/

theorem Reserved.beginOp {i : ι} {l : LogSys α} (h : s.Reserved) (hi : i ∉ s.active) (hs : s.log.step start .beginOp = some l) :
    (⟨l, insert i s.active, Function.update s.logged i ∅⟩ : OpSys α ι).Reserved := by
  obtain ⟨⟨hboot, hcommit, hroom⟩, hl⟩ := Option.ite_none_right_eq_some.mp hs
  obtain rfl := Option.some.inj hl
  have hidle : s.log.pc = .idle := by
    have hc := h.committing
    cases hpc : s.log.pc <;> rw [hpc] at hc hboot <;> simp_all [LogPc.commits, LogPc.booting]
  have hle := s.unused_le
  refine ⟨?_, ?_, ?_, ?_, h.nodup, h.head, h.committing, fun hne => absurd hidle hne⟩
  · rw [Finset.card_insert_of_notMem hi, h.count]
  · -- the test of `begin_op` counts every operation in full
    rw [unused_begin hi]
    rw [h.count] at hle
    change s.log.lh.length + (maxOpBlocks + s.unused) ≤ logBlocks
    rw [Nat.add_mul, one_mul] at hroom
    omega
  · intro j hj
    change (Function.update s.logged i ∅ j).card ≤ maxOpBlocks
    by_cases hji : j = i
    · rw [hji, Function.update_self]
      exact Nat.zero_le _
    · rw [Function.update_of_ne hji]
      exact h.few j (Finset.mem_of_mem_insert_of_ne hj hji)
  · intro j hj b hb
    change b ∈ Function.update s.logged i ∅ j at hb
    by_cases hji : j = i
    · rw [hji, Function.update_self] at hb
      exact absurd hb (Finset.notMem_empty b)
    · rw [Function.update_of_ne hji] at hb
      exact h.logged j (Finset.mem_of_mem_insert_of_ne hj hji) b hb

/-- `log_write` adds the block to the header when it is not there. -/
theorem logWrite_lh (l : LogSys α) (b : Nat) (v : α) :
    ((l.modify b v).logWrite b).lh = (if b ∈ l.lh then l.lh else l.lh ++ [b]) ∧
      ((l.modify b v).logWrite b).outstanding = l.outstanding ∧ ((l.modify b v).logWrite b).committing = l.committing ∧
      ((l.modify b v).logWrite b).pc = l.pc ∧ ((l.modify b v).logWrite b).head = l.head := by
  unfold LogSys.logWrite
  by_cases hb : b ∈ l.lh
  · rw [if_pos (show b ∈ (l.modify b v).lh from hb), if_pos hb]
    exact ⟨rfl, rfl, rfl, rfl, rfl⟩
  · rw [if_neg (show b ∉ (l.modify b v).lh from hb), if_neg hb]
    exact ⟨rfl, rfl, rfl, rfl, rfl⟩

theorem Reserved.logWrite {i : ι} {b : Nat} {v : α} (h : s.Reserved) (hi : i ∈ s.active)
    (hfew : (insert b (s.logged i)).card ≤ maxOpBlocks) :
    (⟨(s.log.modify b v).logWrite b, s.active, Function.update s.logged i (insert b (s.logged i))⟩ : OpSys α ι).Reserved := by
  obtain ⟨hlh, hout, hcom, hpc, hhead⟩ := logWrite_lh s.log b v
  have hunused := unused_logWrite hi hfew ((s.log.modify b v).logWrite b)
  have hmem : b ∈ ((s.log.modify b v).logWrite b).lh ∧ ∀ c ∈ s.log.lh, c ∈ ((s.log.modify b v).logWrite b).lh := by
    rw [hlh]
    split
    · exact ⟨‹_›, fun _ hc => hc⟩
    · exact ⟨List.mem_append_right _ (List.mem_singleton_self b), fun _ hc => List.mem_append_left _ hc⟩
  refine ⟨h.count.trans hout.symm, ?_, ?_, ?_, ?_, hhead ▸ h.head, ?_, ?_⟩
  · have hroom := h.room
    change ((s.log.modify b v).logWrite b).lh.length + _ ≤ logBlocks
    rw [hlh]
    by_cases hb : b ∈ s.log.lh
    · rw [if_pos hb]
      omega
    · -- a block that is not in the header is new to the operation as well
      rw [if_neg (fun hl => hb (h.logged i hi b hl))] at hunused
      rw [if_neg hb, List.length_append, List.length_singleton]
      omega
  · intro j hj
    change (Function.update s.logged i (insert b (s.logged i)) j).card ≤ maxOpBlocks
    by_cases hji : j = i
    · rw [hji, Function.update_self]
      exact hfew
    · rw [Function.update_of_ne hji]
      exact h.few j hj
  · intro j hj c hc
    change c ∈ Function.update s.logged i (insert b (s.logged i)) j at hc
    change c ∈ ((s.log.modify b v).logWrite b).lh
    by_cases hji : j = i
    · rw [hji, Function.update_self] at hc
      rcases Finset.mem_insert.mp hc with rfl | hc
      · exact hmem.1
      · exact hmem.2 c (h.logged i hi c hc)
    · rw [Function.update_of_ne hji] at hc
      exact hmem.2 c (h.logged j hj c hc)
  · change ((s.log.modify b v).logWrite b).lh.Nodup
    rw [hlh]
    split
    · exact h.nodup
    · rename_i hb
      rw [← List.concat_eq_append]
      exact h.nodup.concat hb
  · exact hcom.trans (h.committing.trans (by rw [hpc]))
  · rw [hpc]
    exact h.alone

theorem Reserved.endOp {i : ι} {l : LogSys α} (h : s.Reserved) (hi : i ∈ s.active) (hs : s.log.step start .endOp = some l) :
    (⟨l, s.active.erase i, s.logged⟩ : OpSys α ι).Reserved := by
  obtain ⟨⟨hboot, hout, hcommit⟩, hl⟩ := Option.ite_none_right_eq_some.mp hs
  have hle := unused_end (s := s) (i := i) l
  have hroom := h.room
  have hcard : (s.active.erase i).card = s.log.outstanding - 1 := by rw [Finset.card_erase_of_mem hi, h.count]
  have hidle : s.log.pc = .idle := by
    by_contra hne
    rw [h.alone hne] at hi
    exact Finset.notMem_empty i hi
  have hfew : ∀ j ∈ s.active.erase i, (s.logged j).card ≤ maxOpBlocks := fun j hj => h.few j (Finset.mem_of_mem_erase hj)
  have hlogged : ∀ j ∈ s.active.erase i, ∀ b ∈ s.logged j, b ∈ s.log.lh := fun j hj => h.logged j (Finset.mem_of_mem_erase hj)
  dsimp only at hl
  split at hl
  · -- the last operation ends, and its process commits
    rename_i hzero
    obtain rfl := Option.some.inj hl
    change s.log.outstanding - 1 = 0 at hzero
    refine ⟨hcard, le_trans (Nat.add_le_add_left hle _) hroom, hfew, hlogged, h.nodup, h.head, rfl, fun _ => ?_⟩
    exact Finset.card_eq_zero.mp (hcard.trans hzero)
  · obtain rfl := Option.some.inj hl
    exact ⟨hcard, le_trans (Nat.add_le_add_left hle _) hroom, hfew, hlogged, h.nodup, h.head, h.committing, fun hne => absurd hidle hne⟩

omit [DecidableEq ι] in
/-- An event that is no part of an operation, seen from the header: it changes no header that operations are using. -/
theorem Reserved.idle {l : LogSys α} (h : s.Reserved) (hout : l.outstanding = s.log.outstanding)
    (hlh : l.lh = s.log.lh ∨ (s.log.pc ≠ .idle ∧ l.lh.length ≤ logBlocks ∧ l.lh.Nodup)) (hhead : l.head.Nodup ∧ l.head.length ≤ logBlocks)
    (hcom : l.committing = l.pc.commits) (hpc : l.pc ≠ .idle → s.log.pc ≠ .idle) :
    (⟨l, s.active, s.logged⟩ : OpSys α ι).Reserved := by
  refine ⟨h.count.trans hout.symm, ?_, h.few, ?_, ?_, hhead, hcom, fun hne => h.alone (hpc hne)⟩
  · change l.lh.length + s.unused ≤ logBlocks
    rcases hlh with heq | ⟨hne, hlen, -⟩
    · rw [heq]
      exact h.room
    · rw [unused_empty (h.alone hne), Nat.add_zero]
      exact hlen
  · intro i hi b hb
    rcases hlh with heq | ⟨hne, -⟩
    · change b ∈ l.lh
      rw [heq]
      exact h.logged i hi b hb
    · rw [show s.active = ∅ from h.alone hne] at hi
      exact absurd hi (Finset.notMem_empty i)
  · change l.lh.Nodup
    rcases hlh with heq | ⟨-, -, hnodup⟩
    · rw [heq]
      exact h.nodup
    · exact hnodup

omit [DecidableEq ι] in
theorem Reserved.length_le (h : s.Reserved) : s.log.lh.length ≤ logBlocks := le_trans (Nat.le_add_right _ _) h.room

omit [DecidableEq ι] in
theorem Reserved.other {e : LogEvent α} {l : LogSys α} (h : s.Reserved) (he : IsOther e) (hs : s.log.step start e = some l) :
    (⟨l, s.active, s.logged⟩ : OpSys α ι).Reserved := by
  have hcom := h.committing
  cases e with
  | beginOp | logWrite | endOp | crash => exact he.elim
  | bread b =>
    obtain rfl := Option.some.inj hs
    exact h.idle rfl (.inl rfl) h.head hcom id
  | recycle b =>
    obtain ⟨-, hl⟩ := Option.ite_none_right_eq_some.mp hs
    obtain rfl := Option.some.inj hl
    exact h.idle rfl (.inl rfl) h.head hcom id
  | commitEmpty | commitStart =>
    obtain ⟨⟨hpc, -⟩, hl⟩ := Option.ite_none_right_eq_some.mp hs
    obtain rfl := Option.some.inj hl
    rw [hpc] at hcom
    exact h.idle rfl (.inl rfl) h.head hcom (fun _ => by rw [hpc]; simp)
  | commitReturn =>
    obtain ⟨hpc, hl⟩ := Option.ite_none_right_eq_some.mp hs
    obtain rfl := Option.some.inj hl
    exact h.idle rfl (.inl rfl) h.head rfl (fun hne => absurd rfl hne)
  | readHead =>
    obtain ⟨hpc, hl⟩ := Option.ite_none_right_eq_some.mp hs
    obtain rfl := Option.some.inj hl
    rw [hpc] at hcom
    have hne : s.log.pc ≠ .idle := by
      rw [hpc]
      simp
    exact h.idle rfl (.inr ⟨hne, h.head.2, h.head.1⟩) h.head hcom (fun _ => hne)
  | writeLog | installTrans | recoverTrans =>
    -- a turn of one of the loops: only the disk and the cache change
    simp only [LogSys.step] at hs
    split at hs
    · rename_i hpc
      split at hs
      · obtain rfl := Option.some.inj hs
        rw [hpc] at hcom
        exact h.idle rfl (.inl rfl) h.head hcom (fun _ => by rw [hpc]; simp)
      · exact absurd hs (by simp)
    · exact absurd hs (by simp)
  | writeHead =>
    simp only [LogSys.step] at hs
    split at hs
    · rename_i hpc
      obtain ⟨-, hl⟩ := Option.ite_none_right_eq_some.mp hs
      obtain rfl := Option.some.inj hl
      rw [hpc] at hcom
      exact h.idle rfl (.inl rfl) ⟨h.nodup, h.length_le⟩ hcom (fun _ => by rw [hpc]; simp)
    · exact absurd hs (by simp)
  | eraseHead | recoverHead =>
    simp only [LogSys.step] at hs
    split at hs
    · rename_i hpc
      obtain ⟨-, hl⟩ := Option.ite_none_right_eq_some.mp hs
      obtain rfl := Option.some.inj hl
      rw [hpc] at hcom
      have hne : s.log.pc ≠ .idle := by
        rw [hpc]
        simp
      exact h.idle rfl (.inr ⟨hne, Nat.zero_le _, List.nodup_nil⟩) ⟨List.nodup_nil, Nat.zero_le _⟩ hcom (fun _ => hne)
    · exact absurd hs (by simp)

omit [DecidableEq ι] in
theorem Reserved.crash (h : s.Reserved) : (⟨s.log.crash, ∅, s.logged⟩ : OpSys α ι).Reserved :=
  ⟨rfl, Nat.zero_le _, fun _ hi => absurd hi (Finset.notMem_empty _), fun _ hi => absurd hi (Finset.notMem_empty _), List.nodup_nil, h.head,
    rfl, fun _ => rfl⟩

omit [DecidableEq ι] in
theorem reserved_boot (disk : Nat → α) : (boot disk : OpSys α ι).Reserved :=
  ⟨rfl, Nat.zero_le _, fun _ hi => absurd hi (Finset.notMem_empty _), fun _ hi => absurd hi (Finset.notMem_empty _), List.nodup_nil,
    ⟨List.nodup_nil, Nat.zero_le _⟩, rfl, fun _ => rfl⟩

/-- Every step keeps the reservation. -/
theorem Reserved.step {e : OpEvent α ι} (h : s.Reserved) (hs : Step start s e t) : t.Reserved := by
  cases hs with
  | beginOp new hl => exact h.beginOp new hl
  | logWrite active few hp => exact h.logWrite active few
  | endOp active hl => exact h.endOp active hl
  | crash => exact h.crash
  | other he hl => exact h.other he hl

/-! ## The panics -/

omit [DecidableEq ι] in
/-- A block that the operation may log is in the header, or there is room for it. -/
theorem Reserved.full (h : s.Reserved) {i : ι} {b : Nat} (hi : i ∈ s.active) (hfew : (insert b (s.logged i)).card ≤ maxOpBlocks)
    (hfull : logBlocks ≤ s.log.lh.length) : b ∈ s.log.lh := by
  by_contra hb
  have hnew : b ∉ s.logged i := fun hl => hb (h.logged i hi b hl)
  have hone : maxOpBlocks - (s.logged i).card ≤ s.unused :=
    Finset.single_le_sum (f := fun j => maxOpBlocks - (s.logged j).card) (fun _ _ => Nat.zero_le _) hi
  have hroom := h.room
  rw [Finset.card_insert_of_notMem hnew] at hfew
  omega

omit [DecidableEq ι] in
theorem Reserved.logWritePanic_iff (h : s.Reserved) {i : ι} {b : Nat} (hi : i ∈ s.active)
    (hfew : (insert b (s.logged i)).card ≤ maxOpBlocks) :
    s.log.logWritePanic = none ↔ ¬(s.log.lh.length = logBlocks ∧ b ∈ s.log.lh) := by
  have hlen := h.length_le
  have hpos : 0 < s.log.outstanding := by
    rw [← h.count]
    exact Finset.card_pos.mpr ⟨i, hi⟩
  unfold LogSys.logWritePanic
  constructor
  · rintro hnone ⟨hfull, -⟩
    rw [if_pos (le_of_eq hfull.symm)] at hnone
    nomatch hnone
  · intro hroom
    have hless : ¬logBlocks ≤ s.log.lh.length := fun hfull => hroom ⟨Nat.le_antisymm hlen hfull, h.full hi hfew hfull⟩
    rw [if_neg hless, if_neg (by omega)]

omit [DecidableEq ι] in
theorem Reserved.endOpPanic (h : s.Reserved) {i : ι} (hi : i ∈ s.active) : s.log.endOpPanic = none := by
  have hidle : s.log.pc = .idle := by
    by_contra hne
    rw [h.alone hne] at hi
    exact Finset.notMem_empty i hi
  rw [LogSys.endOpPanic, h.committing, hidle]
  rfl

/-- However operations interleave, the header has room for them, names no block twice, and `commit` runs when there are none. A write
within an operation's limit panics exactly when the header is full and has the block. -/
theorem log_reserved_iff {disk : Nat → α} (h : Run (Step start) (boot disk) evs s) :
    s.log.lh.length ≤ logBlocks ∧ s.log.lh.Nodup ∧ (s.log.pc.commits → s.log.outstanding = 0 ∧ s.active = ∅) ∧
      ∀ i ∈ s.active, s.log.endOpPanic = none ∧ ∀ b, (insert b (s.logged i)).card ≤ maxOpBlocks →
        (s.log.logWritePanic = none ↔ ¬(s.log.lh.length = logBlocks ∧ b ∈ s.log.lh)) := by
  have hr : s.Reserved := h.invariant Reserved (fun _ _ _ hI hs => hI.step hs) (reserved_boot disk)
  refine ⟨hr.length_le, hr.nodup, ?_, fun i hi => ⟨hr.endOpPanic hi, fun b hfew => hr.logWritePanic_iff hi hfew⟩⟩
  intro hpc
  have hempty : s.active = ∅ := hr.alone (by rintro hidle; rw [hidle] at hpc; nomatch hpc)
  refine ⟨?_, hempty⟩
  rw [← hr.count, hempty, Finset.card_empty]

/-- An operation logs the blocks from `c` on. -/
theorem run_writes (start : Nat) {i : ι} (v : α) (n c : Nat) (hi : i ∈ s.active) (hout : 1 ≤ s.log.outstanding)
    (hroom : s.log.lh.length + n ≤ logBlocks) (hnew : ∀ b ∈ s.log.lh, b < c) (hlogged : s.logged i = ∅) (hn : n ≤ maxOpBlocks) :
    ∃ evs t, Run (Step start) s evs t ∧ t.active = s.active ∧ t.log.outstanding = s.log.outstanding ∧
      t.log.lh = s.log.lh ++ List.range' c n ∧ t.logged = Function.update s.logged i (Finset.Ico c (c + n)) := by
  induction n with
  | zero =>
    refine ⟨[], s, Run.nil s, rfl, rfl, (List.append_nil _).symm, ?_⟩
    rw [Nat.add_zero, Finset.Ico_self, ← hlogged, Function.update_eq_self]
  | succ n ih =>
    obtain ⟨evs, t, hrun, hactive, houtt, hlh, hlog⟩ := ih (by omega) (by omega)
    have hti : t.logged i = Finset.Ico c (c + n) := by rw [hlog, Function.update_self]
    have hins : insert (c + n) (Finset.Ico c (c + n)) = Finset.Ico c (c + n + 1) := by
      ext b
      simp only [Finset.mem_insert, Finset.mem_Ico]
      omega
    have hfew : (insert (c + n) (t.logged i)).card ≤ maxOpBlocks := by
      rw [hti, hins, Nat.card_Ico]
      omega
    have hlen : t.log.lh.length = s.log.lh.length + n := by rw [hlh, List.length_append, List.length_range']
    have hpanic : t.log.logWritePanic = none := by
      rw [LogSys.logWritePanic, if_neg (by omega), if_neg (by omega)]
    have hmem : c + n ∉ t.log.lh := by
      rw [hlh, List.mem_append, not_or]
      refine ⟨fun hb => ?_, fun hb => ?_⟩
      · have hlt := hnew _ hb
        omega
      · rw [List.mem_range'_1] at hb
        omega
    obtain ⟨hlh', hout', -⟩ := logWrite_lh t.log (c + n) v
    refine ⟨_, _, hrun.snoc (Step.logWrite (v := v) (hactive ▸ hi) hfew hpanic), hactive, hout'.trans houtt, ?_, ?_⟩
    · rw [if_neg hmem, hlh, List.append_assoc, ← List.range'_1_concat] at hlh'
      exact hlh'
    · change Function.update t.logged i (insert (c + n) (t.logged i)) = _
      rw [hti, hins, hlog, Function.update_idem]
      rfl

end OpSys

/-- The machine is up, and three operations have begun. -/
theorem three_begun : ∃ evs, ∃ s : OpSys Nat Nat, Run (OpSys.Step 2) (OpSys.boot (fun _ => 0)) evs s ∧ s.active = {0, 1, 2} ∧
    s.log.outstanding = 3 ∧ s.log.lh = [] ∧ s.logged = fun _ => ∅ := by
  have hboot : Run (OpSys.Step 2) (OpSys.boot (α := Nat) (ι := Nat) (fun _ => 0)) _ _ :=
    (Run.single (OpSys.Step.other (e := .readHead) trivial rfl)).snoc (OpSys.Step.other (e := .recoverHead) trivial rfl)
  have h0 := hboot.snoc (OpSys.Step.beginOp (i := 0) (by decide) rfl)
  have h1 := h0.snoc (OpSys.Step.beginOp (i := 1) (by decide) rfl)
  have h2 := h1.snoc (OpSys.Step.beginOp (i := 2) (by decide) rfl)
  refine ⟨_, _, h2, by decide, rfl, rfl, ?_⟩
  simp only [OpSys.boot, Function.update_eq_self]

/-- Three operations have logged ten blocks each: the header is full. -/
theorem header_filled : ∃ evs, ∃ s : OpSys Nat Nat, Run (OpSys.Step 2) (OpSys.boot (fun _ => 0)) evs s ∧ 0 ∈ s.active ∧
    s.log.lh = List.range' 100 30 ∧ s.logged 0 = Finset.Ico 100 110 := by
  obtain ⟨evs, s, hrun, hactive, hout, hlh, hlogged⟩ := three_begun
  obtain ⟨evs0, s0, hrun0, hactive0, hout0, hlh0, hlogged0⟩ := OpSys.run_writes 2 (s := s) (i := 0) 0 10 100
    (by simp [hactive]) (by omega) (by simp [hlh, logBlocks]) (by simp [hlh]) (by rw [hlogged]) (by decide)
  rw [hlh, List.nil_append] at hlh0
  obtain ⟨evs1, s1, hrun1, hactive1, hout1, hlh1, hlogged1⟩ := OpSys.run_writes 2 (s := s0) (i := 1) 0 10 110
    (by simp [hactive0, hactive]) (by omega) (by simp [hlh0, logBlocks]) (by simp [hlh0]) (by simp [hlogged0, hlogged]) (by decide)
  rw [hlh0] at hlh1
  obtain ⟨evs2, s2, hrun2, hactive2, -, hlh2, hlogged2⟩ := OpSys.run_writes 2 (s := s1) (i := 2) 0 10 120
    (by simp [hactive1, hactive0, hactive]) (by omega) (by simp [hlh1, logBlocks]) (by simp [hlh1]; omega)
    (by simp [hlogged1, hlogged0, hlogged]) (by decide)
  refine ⟨_, s2, ((hrun.append hrun0).append hrun1).append hrun2, by simp [hactive2, hactive1, hactive0, hactive], ?_, ?_⟩
  · rw [hlh2, hlh1]
    rfl
  · simp [hlogged2, hlogged1, hlogged0]

/-- The log has no room to spare for a block that it has: an operation that logs its own block again, within its limit, panics. -/
theorem log_not_reserved : ¬∀ (start : Nat) (disk : Nat → Nat) (evs : List (OpEvent Nat Nat)) (s : OpSys Nat Nat),
    Run (OpSys.Step start) (OpSys.boot disk) evs s →
      ∀ i ∈ s.active, ∀ b, (insert b (s.logged i)).card ≤ maxOpBlocks → s.log.logWritePanic = none := by
  intro hall
  obtain ⟨evs, s, hrun, hi, hlh, hlogged⟩ := header_filled
  have hnone := hall _ _ _ _ hrun 0 hi 100 (by rw [hlogged]; decide)
  rw [LogSys.logWritePanic, hlh] at hnone
  nomatch hnone

/-- At a full header of three operations. -/
theorem log_reserved_iff_full : ∃ s : OpSys Nat Nat, s.log.lh.length = logBlocks ∧ (s.log.lh.length ≤ logBlocks ∧ s.log.lh.Nodup ∧
    (s.log.pc.commits → s.log.outstanding = 0 ∧ s.active = ∅) ∧
      ∀ i ∈ s.active, s.log.endOpPanic = none ∧ ∀ b, (insert b (s.logged i)).card ≤ maxOpBlocks →
        (s.log.logWritePanic = none ↔ ¬(s.log.lh.length = logBlocks ∧ b ∈ s.log.lh))) := by
  obtain ⟨evs, s, hrun, hi, hlh, hlogged⟩ := header_filled
  exact ⟨s, by rw [hlh]; rfl, OpSys.log_reserved_iff hrun⟩

end Xv6SnifferBakery.Kernel
