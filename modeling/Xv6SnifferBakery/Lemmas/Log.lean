import Xv6SnifferBakery.Kernel.Log

/-!
# What the disk holds while the log works

At every moment the disk can be brought to the state after the committed groups: the blocks that the header names have their
contents in the log, and all others are in place. The buffers show the open group on top of that, and a buffer that is not pinned is
a copy of its block.
-/

namespace Xv6SnifferBakery.Kernel

open Lib

namespace LogSys

variable {α : Type} {start : Nat} {s t : LogSys α} {H : Nat → α} {cur : List (Nat × α)} {b tail : Nat} {v : α}

/-! ## Buffers -/

theorem data_bread (s : LogSys α) (b : Nat) : (s.bread b).data = s.data := by
  funext c
  by_cases hc : c = b
  · subst hc
    simp only [data, bread, Function.update_self, Option.getD_some]
  · simp only [data, bread, Function.update_of_ne hc]

theorem data_modify (s : LogSys α) (b : Nat) (v : α) : (s.modify b v).data = Function.update s.data b v := by
  funext c
  by_cases hc : c = b
  · subst hc
    simp only [data, modify, Function.update_self, Option.getD_some]
  · simp only [data, modify, Function.update_of_ne hc]

theorem data_bwrite (s : LogSys α) (b : Nat) (v : α) : (s.bwrite b v).data = Function.update s.data b v := by
  funext c
  by_cases hc : c = b
  · subst hc
    simp only [data, bwrite, Function.update_self, Option.getD_some]
  · simp only [data, bwrite, Function.update_of_ne hc]

/-- A buffer that is not pinned is a copy of its block, and only home blocks are pinned. -/
structure Cached (start : Nat) (s : LogSys α) : Prop where
  coherent : ∀ b v, s.cache b = some v → s.pins b = 0 → s.disk b = v
  pinned : ∀ b, ¬Home start b → s.pins b = 0

/-- What a block that is not pinned shows is what the disk holds. -/
theorem Cached.data_eq (h : s.Cached start) (hb : s.pins b = 0) : s.data b = s.disk b := by
  unfold data
  cases hc : s.cache b with
  | none => rfl
  | some v => exact (h.coherent b v hc hb).symm

theorem Cached.bread (h : s.Cached start) (b : Nat) : (s.bread b).Cached start := by
  refine ⟨?_, h.pinned⟩
  intro c v hc hp
  by_cases hcb : c = b
  · subst hcb
    simp only [LogSys.bread, Function.update_self] at hc
    rw [← Option.some.inj hc]
    exact (h.data_eq hp).symm
  · simp only [LogSys.bread, Function.update_of_ne hcb] at hc
    exact h.coherent c v hc hp

theorem Cached.bwrite (h : s.Cached start) (b : Nat) (v : α) : (s.bwrite b v).Cached start := by
  refine ⟨?_, h.pinned⟩
  intro c w hc hp
  unfold LogSys.bwrite at hc ⊢
  by_cases hcb : c = b
  · subst hcb
    simp only [Function.update_self] at hc ⊢
    exact Option.some.inj hc
  · simp only [Function.update_of_ne hcb] at hc ⊢
    exact h.coherent c w hc hp

/-- A block whose buffer is given up shows the same as before. -/
theorem data_recycle (h : s.Cached start) (hb : s.pins b = 0) :
    ({ s with cache := Function.update s.cache b none } : LogSys α).data = s.data := by
  funext c
  by_cases hc : c = b
  · subst hc
    rw [h.data_eq hb]
    unfold data
    simp only [Function.update_self, Option.getD_none]
  · unfold data
    simp only [Function.update_of_ne hc]

theorem Cached.recycle (h : s.Cached start) (b : Nat) :
    ({ s with cache := Function.update s.cache b none } : LogSys α).Cached start := by
  refine ⟨?_, h.pinned⟩
  intro c v hc hp
  by_cases hcb : c = b
  · subst hcb
    simp only [Function.update_self] at hc
    cases hc
  · simp only [Function.update_of_ne hcb] at hc
    exact h.coherent c v hc hp

/-! ## The disk -/

theorem not_home {i : Nat} (hi : i < logBlocks) : ¬Home start (start + i + 1) := by
  unfold Home
  omega

/-- Recovery makes the blocks of `disk` with the header `head` those of `H`. -/
structure Recoverable (start : Nat) (disk : Nat → α) (head : List Nat) (H : Nat → α) : Prop where
  length : head.length ≤ logBlocks
  home : ∀ b ∈ head, Home start b
  copy : ∀ i b : Nat, head[i]? = some b → disk (start + i + 1) = H b
  rest : ∀ b, Home start b → b ∉ head → disk b = H b

theorem Recoverable.entry {disk : Nat → α} {head : List Nat} (h : Recoverable start disk head H) {i : Nat} (hb : head[i]? = some b) :
    i < logBlocks ∧ Home start b := by
  obtain ⟨hi, rfl⟩ := List.getElem?_eq_some_iff.mp hb
  exact ⟨Nat.lt_of_lt_of_le hi h.length, h.home _ (List.getElem_mem hi)⟩

/-- A write to the log while no header names it. -/
theorem Recoverable.writeLog {disk : Nat → α} (h : Recoverable start disk [] H) {i : Nat} (hi : i < logBlocks) (v : α) :
    Recoverable start (Function.update disk (start + i + 1) v) [] H := by
  refine ⟨h.length, h.home, by simp, ?_⟩
  intro b hb hnot
  have hne : b ≠ start + i + 1 := by
    rintro rfl
    exact not_home hi hb
  rw [Function.update_of_ne hne]
  exact h.rest b hb hnot

/-- Installing a block. -/
theorem Recoverable.install {disk : Nat → α} {head : List Nat} (h : Recoverable start disk head H) (hb : Home start b) (v : α)
    (hv : v = H b) : Recoverable start (Function.update disk b v) head H := by
  refine ⟨h.length, h.home, ?_, ?_⟩
  · intro j c hj
    have hne : start + j + 1 ≠ b := by
      rintro rfl
      exact not_home (h.entry hj).1 hb
    rw [Function.update_of_ne hne]
    exact h.copy j c hj
  · intro c hc hnot
    by_cases hcb : c = b
    · rw [hcb, Function.update_self, hv]
    · rw [Function.update_of_ne hcb]
      exact h.rest c hc hnot

/-- Erasing the header when every block that it names is installed. -/
theorem Recoverable.erase {disk : Nat → α} {head : List Nat} (h : Recoverable start disk head H)
    (hall : ∀ i b : Nat, head[i]? = some b → disk b = H b) : Recoverable start disk [] H := by
  refine ⟨Nat.zero_le _, by simp, by simp, ?_⟩
  intro b hb _
  by_cases hmem : b ∈ head
  · obtain ⟨i, hi, rfl⟩ := List.getElem_of_mem hmem
    exact hall i _ (List.getElem?_eq_getElem hi)
  · exact h.rest b hb hmem

/-! ## The stages of a commit -/

/-- A group that is not committed: the buffers show it, and the blocks it has written are pinned. -/
structure Open (start : Nat) (s : LogSys α) (H : Nat → α) (cur : List (Nat × α)) : Prop where
  head : s.head = []
  data : ∀ b, Home start b → s.data b = overlay H cur b
  pins : ∀ b, s.pins b = s.lh.count b
  logged : ∀ b, b ∈ s.lh ↔ b ∈ cur.map Prod.fst
  length : s.lh.length ≤ logBlocks
  home : ∀ b ∈ s.lh, Home start b

/-- The first `tail` blocks of the header are installed. -/
def Installed (s : LogSys α) (H : Nat → α) (tail : Nat) : Prop :=
  s.lh = s.head ∧ ∀ i b : Nat, i < tail → s.lh[i]? = some b → s.disk b = H b

/-- What holds at each point of `end_op`, `commit` and `recover_from_log`. -/
def Stage (start : Nat) (s : LogSys α) (H : Nat → α) (cur : List (Nat × α)) : LogPc → Prop
  | .idle => s.committing = false ∧ s.Open start H cur
  | .commit => s.committing = true ∧ s.outstanding = 0 ∧ s.Open start H cur
  | .writeLog tail =>
    s.committing = true ∧ s.outstanding = 0 ∧ s.Open start H cur ∧
      ∀ i b : Nat, i < tail → s.lh[i]? = some b → s.disk (start + i + 1) = s.data b
  | .install tail =>
    s.committing = true ∧ s.outstanding = 0 ∧ cur = [] ∧ (∀ b, Home start b → s.data b = H b) ∧
      (∀ b, s.pins b = (s.lh.drop tail).count b) ∧ s.Installed H tail
  | .committed => s.committing = true ∧ s.outstanding = 0 ∧ cur = [] ∧ s.Open start H []
  | .readHead => s.committing = false ∧ s.outstanding = 0 ∧ cur = [] ∧ (∀ b, s.pins b = 0) ∧ s.lh = []
  | .recover tail => s.committing = false ∧ s.outstanding = 0 ∧ cur = [] ∧ (∀ b, s.pins b = 0) ∧ s.Installed H tail

/-- What holds between any two steps. -/
structure Inv (start : Nat) (s : LogSys α) (H : Nat → α) (cur : List (Nat × α)) : Prop where
  disk : Recoverable start s.disk s.head H
  cached : s.Cached start
  stage : s.Stage start H cur s.pc

/-- A step that only loads or gives up buffers. -/
theorem Inv.load {cache : Nat → Option α} (h : s.Inv start H cur) (hc : ({ s with cache } : LogSys α).Cached start)
    (hd : ({ s with cache } : LogSys α).data = s.data) : ({ s with cache } : LogSys α).Inv start H cur := by
  have hopen : ∀ {cur}, s.Open start H cur → ({ s with cache } : LogSys α).Open start H cur := by
    intro cur ho
    refine ⟨ho.head, ?_, ho.pins, ho.logged, ho.length, ho.home⟩
    rw [hd]
    exact ho.data
  have key : ∀ pc, s.Stage start H cur pc → ({ s with cache } : LogSys α).Stage start H cur pc := by
    intro pc hst
    cases pc with
    | idle => exact ⟨hst.1, hopen hst.2⟩
    | commit => exact ⟨hst.1, hst.2.1, hopen hst.2.2⟩
    | writeLog tail =>
      refine ⟨hst.1, hst.2.1, hopen hst.2.2.1, ?_⟩
      rw [hd]
      exact hst.2.2.2
    | install tail =>
      refine ⟨hst.1, hst.2.1, hst.2.2.1, ?_, hst.2.2.2.2⟩
      rw [hd]
      exact hst.2.2.2.1
    | committed => exact ⟨hst.1, hst.2.1, hst.2.2.1, hopen hst.2.2.2⟩
    | readHead | recover => exact hst
  exact ⟨h.disk, hc, key s.pc h.stage⟩

/-! ## Operations -/

/-- The group of a process that is in an operation is open. -/
theorem Inv.open_of_outstanding (h : s.Inv start H cur) (hboot : ¬s.pc.booting) (hout : 1 ≤ s.outstanding) :
    s.pc = .idle ∧ s.committing = false ∧ s.Open start H cur := by
  have hst := h.stage
  cases hpc : s.pc with
  | idle =>
    rw [hpc] at hst
    exact ⟨rfl, hst.1, hst.2⟩
  | commit | writeLog | install | committed =>
    rw [hpc] at hst
    exact absurd hst.2.1 (by omega)
  | readHead | recover =>
    rw [hpc] at hboot
    exact absurd rfl hboot

theorem Inv.logWrite (h : s.Inv start H cur) (hboot : ¬s.pc.booting) (hlen : s.lh.length < logBlocks) (hout : 1 ≤ s.outstanding)
    (hb : Home start b) (v : α) : ((s.modify b v).logWrite b).Inv start H (cur ++ [(b, v)]) := by
  obtain ⟨hpc, hcom, ho⟩ := h.open_of_outstanding hboot hout
  have hdata : ∀ c, Home start c → Function.update s.data b v c = overlay H (cur ++ [(b, v)]) c := by
    intro c hc
    rw [overlay_snoc]
    by_cases hcb : c = b
    · rw [hcb, Function.update_self, Function.update_self]
    · rw [Function.update_of_ne hcb, Function.update_of_ne hcb]
      exact ho.data c hc
  have hcoh : ∀ c w, Function.update s.cache b (some v) c = some w → c ≠ b → s.pins c = 0 → s.disk c = w := by
    intro c w hc hcb hp
    rw [Function.update_of_ne hcb] at hc
    exact h.cached.coherent c w hc hp
  unfold LogSys.logWrite
  split
  · rename_i hmem
    change b ∈ s.lh at hmem
    refine ⟨h.disk, ⟨?_, h.cached.pinned⟩, ?_⟩
    · intro c w hc hp
      refine hcoh c w hc ?_ hp
      rintro rfl
      change s.pins c = 0 at hp
      rw [ho.pins, List.count_eq_zero] at hp
      exact hp hmem
    · change LogSys.Stage start _ H _ s.pc
      rw [hpc]
      refine ⟨hcom, ho.head, ?_, ho.pins, ?_, ho.length, ho.home⟩
      · rw [data_modify]
        exact hdata
      · intro c
        change c ∈ s.lh ↔ _
        rw [ho.logged, List.map_append, List.mem_append, List.map_singleton, List.mem_singleton]
        constructor
        · exact Or.inl
        · rintro (hc | rfl)
          · exact hc
          · exact (ho.logged _).mp hmem
  · rename_i hmem
    change b ∉ s.lh at hmem
    refine ⟨h.disk, ⟨?_, ?_⟩, ?_⟩
    · intro c w hc hp
      change Function.update s.pins b (s.pins b + 1) c = 0 at hp
      have hcb : c ≠ b := by
        rintro rfl
        rw [Function.update_self] at hp
        omega
      rw [Function.update_of_ne hcb] at hp
      exact hcoh c w hc hcb hp
    · intro c hc
      change Function.update s.pins b (s.pins b + 1) c = 0
      have hcb : c ≠ b := by
        rintro rfl
        exact hc hb
      rw [Function.update_of_ne hcb]
      exact h.cached.pinned c hc
    · change LogSys.Stage start _ H _ s.pc
      rw [hpc]
      refine ⟨hcom, ho.head, ?_, ?_, ?_, ?_, ?_⟩
      · change ∀ c, Home start c → (s.modify b v).data c = _
        rw [data_modify]
        exact hdata
      · intro c
        change Function.update s.pins b (s.pins b + 1) c = (s.lh ++ [b]).count c
        rw [List.count_append, List.count_singleton]
        by_cases hcb : c = b
        · subst hcb
          rw [Function.update_self, ho.pins, beq_self_eq_true, if_pos rfl]
        · rw [Function.update_of_ne hcb, ho.pins, if_neg (by simpa using Ne.symm hcb)]
          rfl
      · intro c
        change c ∈ s.lh ++ [b] ↔ _
        rw [List.map_append, List.mem_append, List.mem_append, ho.logged]
        rfl
      · change (s.lh ++ [b]).length ≤ _
        rw [List.length_append]
        exact hlen
      · intro c hc
        rcases List.mem_append.mp hc with hc | hc
        · exact ho.home c hc
        · rw [List.mem_singleton.mp hc]
          exact hb

theorem Open.of_eq {cur : List (Nat × α)} (ho : s.Open start H cur) (hh : t.head = s.head) (hd : t.data = s.data) (hp : t.pins = s.pins)
    (hl : t.lh = s.lh) : t.Open start H cur := by
  refine ⟨hh.trans ho.head, ?_, ?_, ?_, ?_, ?_⟩
  · rw [hd]
    exact ho.data
  · rw [hp, hl]
    exact ho.pins
  · rw [hl]
    exact ho.logged
  · rw [hl]
    exact ho.length
  · rw [hl]
    exact ho.home

/-- No commit is running when an operation begins. -/
theorem Inv.open_of_not_committing (h : s.Inv start H cur) (hboot : ¬s.pc.booting) (hcom : ¬s.committing) :
    s.pc = .idle ∧ s.Open start H cur := by
  have hst := h.stage
  cases hpc : s.pc with
  | idle =>
    rw [hpc] at hst
    exact ⟨rfl, hst.2⟩
  | commit | writeLog | install | committed =>
    rw [hpc] at hst
    exact absurd hst.1 hcom
  | readHead | recover =>
    rw [hpc] at hboot
    exact absurd rfl hboot

theorem Inv.beginOp (h : s.Inv start H cur) (hboot : ¬s.pc.booting) (hcom : ¬s.committing) :
    ({ s with outstanding := s.outstanding + 1 } : LogSys α).Inv start H cur := by
  obtain ⟨hpc, ho⟩ := h.open_of_not_committing hboot hcom
  refine ⟨h.disk, ⟨h.cached.coherent, h.cached.pinned⟩, ?_⟩
  change LogSys.Stage start _ H cur s.pc
  rw [hpc]
  exact ⟨Bool.eq_false_iff.mpr hcom, ho.of_eq rfl rfl rfl rfl⟩

theorem Inv.endOp (h : s.Inv start H cur) (hboot : ¬s.pc.booting) (hcom : ¬s.committing) (n : Nat) :
    ({ s with outstanding := n } : LogSys α).Inv start H cur ∧
      ({ s with outstanding := 0, committing := true, pc := .commit } : LogSys α).Inv start H cur := by
  obtain ⟨hpc, ho⟩ := h.open_of_not_committing hboot hcom
  constructor
  · refine ⟨h.disk, ⟨h.cached.coherent, h.cached.pinned⟩, ?_⟩
    change LogSys.Stage start _ H cur s.pc
    rw [hpc]
    exact ⟨Bool.eq_false_iff.mpr hcom, ho.of_eq rfl rfl rfl rfl⟩
  · exact ⟨h.disk, ⟨h.cached.coherent, h.cached.pinned⟩, rfl, rfl, ho.of_eq rfl rfl rfl rfl⟩

/-! ## The commit -/

theorem Open.cur_nil (ho : s.Open start H cur) (hl : s.lh = []) : cur = [] := by
  cases cur with
  | nil => rfl
  | cons w ws =>
    have := (ho.logged w.1).mpr (List.mem_cons_self ..)
    rw [hl] at this
    exact absurd this List.not_mem_nil

theorem Inv.commitEmpty (h : s.Inv start H cur) (hpc : s.pc = .commit) (hl : s.lh = []) :
    ({ s with pc := .committed } : LogSys α).Inv start (overlay H cur) [] := by
  have hst := h.stage
  rw [hpc] at hst
  obtain ⟨hcom, hout, ho⟩ := hst
  obtain rfl := ho.cur_nil hl
  exact ⟨h.disk, ⟨h.cached.coherent, h.cached.pinned⟩, hcom, hout, rfl, ho.of_eq rfl rfl rfl rfl⟩

theorem Inv.commitStart (h : s.Inv start H cur) (hpc : s.pc = .commit) : ({ s with pc := .writeLog 0 } : LogSys α).Inv start H cur := by
  have hst := h.stage
  rw [hpc] at hst
  obtain ⟨hcom, hout, ho⟩ := hst
  refine ⟨h.disk, ⟨h.cached.coherent, h.cached.pinned⟩, hcom, hout, ho.of_eq rfl rfl rfl rfl, ?_⟩
  intro i b hi
  cases hi

theorem Inv.writeLog (h : s.Inv start H cur) (hpc : s.pc = .writeLog tail) (hb : s.lh[tail]? = some b) :
    ({ writeLogTurn start s tail b with pc := .writeLog (tail + 1) } : LogSys α).Inv start H cur := by
  have hst := h.stage
  rw [hpc] at hst
  obtain ⟨hcom, hout, ho, hcopied⟩ := hst
  have htail : tail < logBlocks := Nat.lt_of_lt_of_le (List.getElem?_eq_some_iff.mp hb).1 ho.length
  have hval : ((s.bread (start + tail + 1)).bread b).data b = s.data b := by
    rw [data_bread, data_bread]
  have hdata : (writeLogTurn start s tail b).data = Function.update s.data (start + tail + 1) (s.data b) := by
    rw [writeLogTurn, data_bwrite, hval, data_bread, data_bread]
  have hcached : (writeLogTurn start s tail b).Cached start := ((h.cached.bread _).bread _).bwrite _ _
  have hrec := h.disk
  rw [ho.head] at hrec
  have hdisk : (writeLogTurn start s tail b).disk = Function.update s.disk (start + tail + 1) (s.data b) := by
    rw [← hval]
    rfl
  have hhome : ∀ c, Home start c → Function.update s.data (start + tail + 1) (s.data b) c = s.data c := by
    intro c hc
    refine Function.update_of_ne ?_ ..
    rintro rfl
    exact not_home htail hc
  refine ⟨?_, ⟨hcached.coherent, hcached.pinned⟩, hcom, hout, ⟨ho.head, ?_, ho.pins, ho.logged, ho.length, ho.home⟩, ?_⟩
  · change Recoverable start (writeLogTurn start s tail b).disk s.head H
    rw [hdisk, ho.head]
    exact hrec.writeLog htail _
  · intro c hc
    change (writeLogTurn start s tail b).data c = _
    rw [hdata, hhome c hc]
    exact ho.data c hc
  · intro i c hi hc
    change (writeLogTurn start s tail b).disk (start + i + 1) = (writeLogTurn start s tail b).data c
    rw [hdisk, hdata, hhome c (ho.home c (List.mem_of_getElem? hc))]
    by_cases hit : i = tail
    · subst hit
      rw [Function.update_self]
      obtain rfl := Option.some.inj (hb.symm.trans hc)
      rfl
    · rw [Function.update_of_ne (by omega)]
      exact hcopied i c (by omega) hc

/-- Writing the header commits the group. -/
theorem Inv.writeHead (h : s.Inv start H cur) (hpc : s.pc = .writeLog tail) (hend : s.lh[tail]? = none) :
    ({ s.writeHead with pc := .install 0 } : LogSys α).Inv start (overlay H cur) [] := by
  have hst := h.stage
  rw [hpc] at hst
  obtain ⟨hcom, hout, ho, hcopied⟩ := hst
  have hlen := List.getElem?_eq_none_iff.mp hend
  refine ⟨⟨ho.length, ho.home, ?_, ?_⟩, ⟨h.cached.coherent, h.cached.pinned⟩, hcom, hout, rfl, ho.data, ho.pins, rfl, ?_⟩
  · intro i b hb
    have hi := (List.getElem?_eq_some_iff.mp hb).1
    rw [← ho.data b (ho.home b (List.mem_of_getElem? hb))]
    exact hcopied i b (Nat.lt_of_lt_of_le hi hlen) hb
  · intro b hb hnot
    rw [overlay_of_not_mem (fun hmem => hnot ((ho.logged b).mpr hmem))]
    refine h.disk.rest b hb ?_
    rw [ho.head]
    exact List.not_mem_nil
  · intro i b hi
    cases hi

/-! ## Installing -/

theorem Cached.bunpin (h : s.Cached start) (hb : ∀ v, s.cache b = some v → s.disk b = v) : (s.bunpin b).Cached start := by
  refine ⟨?_, ?_⟩
  · intro c v hc hp
    by_cases hcb : c = b
    · subst hcb
      exact hb v hc
    · change Function.update s.pins b (s.pins b - 1) c = 0 at hp
      rw [Function.update_of_ne hcb] at hp
      exact h.coherent c v hc hp
  · intro c hc
    change Function.update s.pins b (s.pins b - 1) c = 0
    by_cases hcb : c = b
    · subst hcb
      rw [Function.update_self, h.pinned c hc]
    · rw [Function.update_of_ne hcb]
      exact h.pinned c hc

/-- A turn of `install_trans` brings a block to its value after the committed groups. -/
theorem installTurn_spec (h : s.Inv start H cur) (hl : s.lh = s.head) (hb : s.lh[tail]? = some b) (recovering : Bool) :
    (installTurn start recovering s tail b).disk = Function.update s.disk b (H b) ∧
      (installTurn start recovering s tail b).data = Function.update s.data b (H b) ∧
      (installTurn start recovering s tail b).Cached start := by
  rw [hl] at hb
  obtain ⟨htail, hhome⟩ := h.disk.entry hb
  have hval : ((s.bread (start + tail + 1)).bread b).data (start + tail + 1) = H b := by
    rw [data_bread, data_bread, h.cached.data_eq (h.cached.pinned _ (not_home htail))]
    exact h.disk.copy tail b hb
  have hwrite : ∀ s' : LogSys α, s' = ((s.bread (start + tail + 1)).bread b).bwrite b (H b) → s'.disk = Function.update s.disk b (H b) ∧
      s'.data = Function.update s.data b (H b) ∧ s'.Cached start := by
    rintro _ rfl
    refine ⟨rfl, ?_, ((h.cached.bread _).bread _).bwrite _ _⟩
    rw [data_bwrite, data_bread, data_bread]
  unfold installTurn
  simp only [hval]
  cases recovering with
  | true => exact hwrite _ rfl
  | false =>
    obtain ⟨hd, hdata, hc⟩ := hwrite _ rfl
    refine ⟨hd, hdata, hc.bunpin ?_⟩
    intro v hv
    simp only [LogSys.bwrite, Function.update_self] at hv ⊢
    exact Option.some.inj hv

theorem Installed.turn (h : s.Installed H tail) (hb : s.lh[tail]? = some b) (hh : t.head = s.head) (hl : t.lh = s.lh)
    (hd : t.disk = Function.update s.disk b (H b)) : t.Installed H (tail + 1) := by
  refine ⟨by rw [hl, hh, h.1], ?_⟩
  intro i c hi hc
  rw [hl] at hc
  rw [hd]
  by_cases hcb : c = b
  · rw [hcb, Function.update_self]
  · rw [Function.update_of_ne hcb]
    refine h.2 i c ?_ hc
    by_contra hge
    obtain rfl : i = tail := by omega
    exact hcb (Option.some.inj (hc.symm.trans hb))

theorem Inv.install (h : s.Inv start H cur) (hpc : s.pc = .install tail) (hb : s.lh[tail]? = some b) :
    ({ installTurn start false s tail b with pc := .install (tail + 1) } : LogSys α).Inv start H cur := by
  have hst := h.stage
  rw [hpc] at hst
  obtain ⟨hcom, hout, hcur, hdata, hpins, hinst⟩ := hst
  obtain ⟨hd, hdat, hcached⟩ := installTurn_spec h hinst.1 hb false
  have hhome : Home start b := (h.disk.entry (hinst.1 ▸ hb)).2
  refine ⟨?_, ⟨hcached.coherent, hcached.pinned⟩, hcom, hout, hcur, ?_, ?_, ?_⟩
  · change Recoverable start (installTurn start false s tail b).disk s.head H
    rw [hd]
    exact h.disk.install hhome _ rfl
  · intro c hc
    change (installTurn start false s tail b).data c = H c
    rw [hdat]
    by_cases hcb : c = b
    · rw [hcb, Function.update_self]
    · rw [Function.update_of_ne hcb]
      exact hdata c hc
  · intro c
    change Function.update s.pins b (s.pins b - 1) c = (s.lh.drop (tail + 1)).count c
    have hdrop : s.lh.drop tail = b :: s.lh.drop (tail + 1) := by
      obtain ⟨hlt, rfl⟩ := List.getElem?_eq_some_iff.mp hb
      exact List.drop_eq_getElem_cons hlt
    have hp := hpins c
    rw [hdrop, List.count_cons] at hp
    by_cases hcb : c = b
    · subst hcb
      rw [Function.update_self, hp, beq_self_eq_true, if_pos rfl]
      omega
    · rw [Function.update_of_ne hcb, hp, if_neg (by simpa using Ne.symm hcb)]
      rfl
  · exact hinst.turn (t := { installTurn start false s tail b with pc := .install (tail + 1) }) hb rfl rfl hd

theorem Inv.recover (h : s.Inv start H cur) (hpc : s.pc = .recover tail) (hb : s.lh[tail]? = some b) :
    ({ installTurn start true s tail b with pc := .recover (tail + 1) } : LogSys α).Inv start H cur := by
  have hst := h.stage
  rw [hpc] at hst
  obtain ⟨hcom, hout, hcur, hpins, hinst⟩ := hst
  obtain ⟨hd, -, hcached⟩ := installTurn_spec h hinst.1 hb true
  refine ⟨?_, ⟨hcached.coherent, hcached.pinned⟩, hcom, hout, hcur, hpins, ?_⟩
  · change Recoverable start (installTurn start true s tail b).disk s.head H
    rw [hd]
    exact h.disk.install (h.disk.entry (hinst.1 ▸ hb)).2 _ rfl
  · exact hinst.turn (t := { installTurn start true s tail b with pc := .recover (tail + 1) }) hb rfl rfl hd

/-- When every block is installed the header can go. -/
theorem Inv.erase (h : s.Inv start H cur) (hinst : s.Installed H tail) (hend : s.lh[tail]? = none) :
    Recoverable start s.disk [] H := by
  refine h.disk.erase ?_
  intro i b hb
  rw [← hinst.1] at hb
  have hi := (List.getElem?_eq_some_iff.mp hb).1
  exact hinst.2 i b (Nat.lt_of_lt_of_le hi (List.getElem?_eq_none_iff.mp hend)) hb

theorem open_nil (hh : s.head = []) (hl : s.lh = []) (hp : ∀ b, s.pins b = 0) (hd : ∀ b, Home start b → s.data b = H b) :
    s.Open start H [] := by
  refine ⟨hh, hd, ?_, ?_, ?_, ?_⟩
  · intro b
    rw [hp, hl]
    rfl
  · intro b
    rw [hl]
    rfl
  · rw [hl]
    exact Nat.zero_le _
  · rw [hl]
    intro b hb
    cases hb

theorem Inv.eraseHead (h : s.Inv start H cur) (hpc : s.pc = .install tail) (hend : s.lh[tail]? = none) :
    ({ ({ s with lh := [] } : LogSys α).writeHead with pc := .committed } : LogSys α).Inv start H cur := by
  have hst := h.stage
  rw [hpc] at hst
  obtain ⟨hcom, hout, hcur, hdata, hpins, hinst⟩ := hst
  refine ⟨h.erase hinst hend, ⟨h.cached.coherent, h.cached.pinned⟩, hcom, hout, hcur, open_nil rfl rfl ?_ hdata⟩
  intro b
  change s.pins b = 0
  rw [hpins, List.drop_eq_nil_of_le (List.getElem?_eq_none_iff.mp hend)]
  rfl

theorem Inv.commitReturn (h : s.Inv start H cur) (hpc : s.pc = .committed) :
    ({ s with committing := false, pc := .idle } : LogSys α).Inv start H cur := by
  have hst := h.stage
  rw [hpc] at hst
  obtain ⟨hcom, hout, rfl, ho⟩ := hst
  exact ⟨h.disk, ⟨h.cached.coherent, h.cached.pinned⟩, rfl, ho.of_eq rfl rfl rfl rfl⟩

/-! ## Crash and recovery -/

theorem Inv.crash (h : s.Inv start H cur) : s.crash.Inv start H [] := by
  refine ⟨h.disk, ⟨?_, fun b _ => rfl⟩, rfl, rfl, rfl, fun b => rfl, rfl⟩
  intro b v hc
  cases hc

theorem Inv.readHead (h : s.Inv start H cur) (hpc : s.pc = .readHead) :
    ({ s.readHead with pc := .recover 0 } : LogSys α).Inv start H cur := by
  have hst := h.stage
  rw [hpc] at hst
  obtain ⟨hcom, hout, hcur, hpins, -⟩ := hst
  refine ⟨h.disk, ⟨h.cached.coherent, h.cached.pinned⟩, hcom, hout, hcur, hpins, rfl, ?_⟩
  intro i b hi
  cases hi

theorem Inv.recoverHead (h : s.Inv start H cur) (hpc : s.pc = .recover tail) (hend : s.lh[tail]? = none) :
    ({ ({ s with lh := [] } : LogSys α).writeHead with pc := .idle } : LogSys α).Inv start H cur := by
  have hst := h.stage
  rw [hpc] at hst
  obtain ⟨hcom, hout, rfl, hpins, hinst⟩ := hst
  have hrec := h.erase hinst hend
  refine ⟨hrec, ⟨h.cached.coherent, h.cached.pinned⟩, hcom, open_nil rfl rfl hpins ?_⟩
  intro b hb
  change s.data b = H b
  rw [h.cached.data_eq (hpins b)]
  exact hrec.rest b hb List.not_mem_nil

/-! ## The loops of a commit and of recovery

A turn handles the block that the header names next; the step after the loop is taken when there is none. -/

theorem step_writeLog (h : Step start s .writeLog t) :
    ∃ tail b, s.pc = .writeLog tail ∧ s.lh[tail]? = some b ∧ t = { writeLogTurn start s tail b with pc := .writeLog (tail + 1) } := by
  simp only [Step, LogSys.step] at h
  split at h
  · rename_i tail hpc
    split at h
    · rename_i b hb
      exact ⟨tail, b, hpc, hb, (Option.some.inj h).symm⟩
    · cases h
  · cases h

theorem step_installTrans (h : Step start s .installTrans t) :
    ∃ tail b, s.pc = .install tail ∧ s.lh[tail]? = some b ∧ t = { installTurn start false s tail b with pc := .install (tail + 1) } := by
  simp only [Step, LogSys.step] at h
  split at h
  · rename_i tail hpc
    split at h
    · rename_i b hb
      exact ⟨tail, b, hpc, hb, (Option.some.inj h).symm⟩
    · cases h
  · cases h

theorem step_recoverTrans (h : Step start s .recoverTrans t) :
    ∃ tail b, s.pc = .recover tail ∧ s.lh[tail]? = some b ∧ t = { installTurn start true s tail b with pc := .recover (tail + 1) } := by
  simp only [Step, LogSys.step] at h
  split at h
  · rename_i tail hpc
    split at h
    · rename_i b hb
      exact ⟨tail, b, hpc, hb, (Option.some.inj h).symm⟩
    · cases h
  · cases h

theorem step_writeHead (h : Step start s .writeHead t) :
    ∃ tail, s.pc = .writeLog tail ∧ s.lh[tail]? = none ∧ t = { s.writeHead with pc := .install 0 } := by
  simp only [Step, LogSys.step] at h
  split at h
  · rename_i tail hpc
    obtain ⟨hend, h⟩ := Option.ite_none_right_eq_some.mp h
    exact ⟨tail, hpc, hend, (Option.some.inj h).symm⟩
  · cases h

theorem step_eraseHead (h : Step start s .eraseHead t) :
    ∃ tail, s.pc = .install tail ∧ s.lh[tail]? = none ∧ t = { { s with lh := [] }.writeHead with pc := .committed } := by
  simp only [Step, LogSys.step] at h
  split at h
  · rename_i tail hpc
    obtain ⟨hend, h⟩ := Option.ite_none_right_eq_some.mp h
    exact ⟨tail, hpc, hend, (Option.some.inj h).symm⟩
  · cases h

theorem step_recoverHead (h : Step start s .recoverHead t) :
    ∃ tail, s.pc = .recover tail ∧ s.lh[tail]? = none ∧ t = { { s with lh := [] }.writeHead with pc := .idle } := by
  simp only [Step, LogSys.step] at h
  split at h
  · rename_i tail hpc
    obtain ⟨hend, h⟩ := Option.ite_none_right_eq_some.mp h
    exact ⟨tail, hpc, hend, (Option.some.inj h).symm⟩
  · cases h

/-! ## Runs -/

theorem inv_boot (disk : Nat → α) : (boot disk).Inv start disk [] := by
  refine ⟨⟨Nat.zero_le _, by simp [boot], by simp [boot], fun b _ _ => rfl⟩, ⟨?_, fun b _ => rfl⟩, rfl, rfl, rfl, fun b => rfl, rfl⟩
  intro b v hc
  cases hc

theorem pc_logWrite (s : LogSys α) (b : Nat) (v : α) : ((s.modify b v).logWrite b).pc = s.pc := by
  unfold LogSys.logWrite
  split <;> rfl

theorem blocks_seal (h : LogHistory α) (disk : Nat → α) :
    overlay disk (h.committed ++ [h.current]).flatten = overlay (h.blocks disk) h.current := by
  rw [List.flatten_append, overlay_append, List.flatten_cons, List.flatten_nil, List.append_nil]
  rfl

/-- The groups whose commit has returned, when the last committed one may still be in its commit. -/
def Returned (h : LogHistory α) : LogPc → Prop
  | .install _ | .committed => ∃ gs g, h.committed = gs ++ [g] ∧ h.returned.Sublist gs
  | _ => h.returned.Sublist h.committed

theorem Returned.sublist {h : LogHistory α} {pc : LogPc} (hr : Returned h pc) : h.returned.Sublist h.committed := by
  cases pc with
  | install | committed =>
    obtain ⟨gs, g, hc, hsub⟩ := hr
    rw [hc]
    exact hsub.trans (List.sublist_append_left gs [g])
  | _ => exact hr

/-- What a history and the machine after it have in common. -/
structure Track (start : Nat) (disk : Nat → α) (h : LogHistory α) (s : LogSys α) : Prop where
  inv : s.Inv start (h.blocks disk) h.current
  returned : Returned h s.pc

theorem Track.step {disk : Nat → α} {h : LogHistory α} {e : LogEvent α} (ht : Track start disk h s) (hs : Step start s e t) :
    Track start disk (h.step e) t := by
  obtain ⟨hi, hr⟩ := ht
  cases e with
  | beginOp =>
    obtain ⟨hc, hs⟩ := Option.ite_none_right_eq_some.mp hs
    obtain rfl := Option.some.inj hs
    exact ⟨hi.beginOp hc.1 hc.2.1, hr⟩
  | logWrite b v =>
    obtain ⟨hc, hs⟩ := Option.ite_none_right_eq_some.mp hs
    obtain rfl := Option.some.inj hs
    refine ⟨hi.logWrite hc.1 hc.2.1 hc.2.2.1 hc.2.2.2 v, ?_⟩
    rw [pc_logWrite]
    exact hr
  | endOp =>
    obtain ⟨hc, hs⟩ := Option.ite_none_right_eq_some.mp hs
    have hpc := (hi.open_of_not_committing hc.1 hc.2.2).1
    rw [hpc] at hr
    obtain ⟨hstay, hlast⟩ := hi.endOp hc.1 hc.2.2 (s.outstanding - 1)
    split at hs
    · rename_i hzero
      obtain rfl := Option.some.inj hs
      change s.outstanding - 1 = 0 at hzero
      rw [← hzero] at hlast
      exact ⟨hlast, hr⟩
    · obtain rfl := Option.some.inj hs
      refine ⟨hstay, ?_⟩
      change Returned _ s.pc
      rw [hpc]
      exact hr
  | bread b =>
    obtain rfl := Option.some.inj hs
    exact ⟨hi.load (hi.cached.bread b) (data_bread s b), hr⟩
  | recycle b =>
    obtain ⟨hp, hs⟩ := Option.ite_none_right_eq_some.mp hs
    obtain rfl := Option.some.inj hs
    exact ⟨hi.load (hi.cached.recycle b) (data_recycle hi.cached hp), hr⟩
  | commitEmpty =>
    obtain ⟨hc, hs⟩ := Option.ite_none_right_eq_some.mp hs
    obtain rfl := Option.some.inj hs
    have := hi.commitEmpty hc.1 hc.2
    rw [← blocks_seal] at this
    exact ⟨this, _, _, rfl, hr.sublist⟩
  | commitStart =>
    obtain ⟨hc, hs⟩ := Option.ite_none_right_eq_some.mp hs
    obtain rfl := Option.some.inj hs
    exact ⟨hi.commitStart hc.1, hr.sublist⟩
  | writeLog =>
    obtain ⟨tail, b, hpc, hb, rfl⟩ := step_writeLog hs
    rw [hpc] at hr
    exact ⟨hi.writeLog hpc hb, hr⟩
  | writeHead =>
    obtain ⟨tail, hpc, hend, rfl⟩ := step_writeHead hs
    rw [hpc] at hr
    have := hi.writeHead hpc hend
    rw [← blocks_seal] at this
    exact ⟨this, _, _, rfl, hr⟩
  | installTrans =>
    obtain ⟨tail, b, hpc, hb, rfl⟩ := step_installTrans hs
    rw [hpc] at hr
    exact ⟨hi.install hpc hb, hr⟩
  | eraseHead =>
    obtain ⟨tail, hpc, hend, rfl⟩ := step_eraseHead hs
    rw [hpc] at hr
    exact ⟨hi.eraseHead hpc hend, hr⟩
  | commitReturn =>
    obtain ⟨hpc, hs⟩ := Option.ite_none_right_eq_some.mp hs
    obtain rfl := Option.some.inj hs
    refine ⟨hi.commitReturn hpc, ?_⟩
    rw [hpc] at hr
    obtain ⟨gs, g, hc, hsub⟩ := hr
    change (h.returned ++ h.committed.getLast?.toList).Sublist h.committed
    rw [hc, List.getLast?_concat]
    exact hsub.append (List.Sublist.refl _)
  | crash =>
    obtain rfl := Option.some.inj hs
    exact ⟨hi.crash, hr.sublist⟩
  | readHead =>
    obtain ⟨hpc, hs⟩ := Option.ite_none_right_eq_some.mp hs
    obtain rfl := Option.some.inj hs
    exact ⟨hi.readHead hpc, hr.sublist⟩
  | recoverTrans =>
    obtain ⟨tail, b, hpc, hb, rfl⟩ := step_recoverTrans hs
    rw [hpc] at hr
    exact ⟨hi.recover hpc hb, hr⟩
  | recoverHead =>
    obtain ⟨tail, hpc, hend, rfl⟩ := step_recoverHead hs
    rw [hpc] at hr
    exact ⟨hi.recoverHead hpc hend, hr⟩

/-- Every run from a disk of `mkfs` keeps track of its groups. -/
theorem track_run {disk : Nat → α} {evs : List (LogEvent α)} (h : Run (Step start) (boot disk) evs s) :
    Track start disk (LogHistory.ofEvents evs) s := by
  induction h with
  | nil => exact ⟨inv_boot disk, List.Sublist.refl _⟩
  | snoc _ hs ih =>
    rw [LogHistory.ofEvents, List.foldl_append]
    exact ih.step hs

end LogSys

end Xv6SnifferBakery.Kernel
