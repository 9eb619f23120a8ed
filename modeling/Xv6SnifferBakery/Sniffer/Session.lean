import Mathlib.Data.List.Forall2
import Mathlib.Data.List.Induction
import Xv6SnifferBakery.Sniffer.Inspector

/-!
# Runs of sessions

What one call of the callback does to the state, and from it what holds over any sequence of sessions: every block handed out is owned
by a stored packet or was freed, and not twice; and the stored packets are copies of the frames whose allocations succeeded, in order.
-/

namespace Xv6SnifferBakery.Sniffer

open Lib

namespace Alloc

/-- Both allocations succeed. -/
def ok (a : Alloc) : Bool := a.container && a.data

end Alloc

namespace State

/-- The blocks of the stored packets. -/
def owned (s : State) : List Nat := s.packetStorage.flatMap fun sp => [sp.data.block, sp.self]

/-! ## One call of the callback -/

/-- The frame is in the buffer and counted. -/
def counted (c : Capture) (s : State) : State := { s.deliver c with packetCount := s.packetCount + 1 }

/-- And stored, in the next two blocks. -/
def kept (c : Capture) (s : State) : State :=
  { s.counted c with
    mem := fun a => if a.block = s.next + 1 then c.bytes[a.off]?.getD ((s.deliver c).mem a) else (s.deliver c).mem a
    next := s.next + 2
    packetStorage := s.packetStorage ++ [⟨s.next, c.header, ⟨s.next + 1, 0⟩⟩] }

/-- What a call does: nothing is stored in a full storage or when an allocation fails, and a failed second allocation gives the first
block back. -/
theorem dispatch_cases (s : State) (c : Capture) :
    ((maxPackets ≤ s.storedPacketCount ∨ c.alloc.container = false) ∧ s.dispatch c = s.counted c) ∨
    (s.storedPacketCount < maxPackets ∧ c.alloc = ⟨true, false⟩ ∧
      s.dispatch c = { s.counted c with next := s.next + 1, freed := s.freed ++ [s.next] }) ∨
    (s.storedPacketCount < maxPackets ∧ c.alloc = ⟨true, true⟩ ∧ s.dispatch c = s.kept c) := by
  have h_run : s.dispatch c = ((s.counted c).storePacket c.alloc c.header packetPtr).run (s.deliver c).mem := by
    simp [dispatch, callback, parsePacket, counted, deliver]
  rw [h_run, storePacket]
  by_cases h_full : maxPackets ≤ s.storedPacketCount
  · left
    rw [if_pos (show maxPackets ≤ (s.counted c).storedPacketCount from h_full)]
    exact ⟨Or.inl h_full, rfl⟩
  · rw [if_neg (show ¬ maxPackets ≤ (s.counted c).storedPacketCount from h_full)]
    obtain ⟨header, frame, ⟨container, data⟩⟩ := c
    cases container with
    | false => exact Or.inl ⟨Or.inr rfl, by simp [malloc]⟩
    | true =>
      cases data with
      | false => exact Or.inr (Or.inl ⟨by omega, rfl, by simp [malloc, free, counted, deliver]⟩)
      | true =>
        refine Or.inr (Or.inr ⟨by omega, rfl, ?_⟩)
        simp [malloc, memcpy, kept, counted, deliver, Capture.bytes, bytesAt, packetPtr]

theorem packetCount_dispatch (s : State) (c : Capture) : (s.dispatch c).packetCount = s.packetCount + 1 := by
  obtain ⟨-, h⟩ | ⟨-, -, h⟩ | ⟨-, -, h⟩ := s.dispatch_cases c <;> rw [h] <;> rfl

theorem next_le_dispatch (s : State) (c : Capture) : s.next ≤ (s.dispatch c).next := by
  obtain ⟨-, h⟩ | ⟨-, -, h⟩ | ⟨-, -, h⟩ := s.dispatch_cases c <;> rw [h]
  · exact Nat.le_refl _
  · exact Nat.le_add_right _ 1
  · exact Nat.le_add_right _ 2

/-! ## Freeing -/

theorem freeEach_eq (sps : List StoredPacket) (s : State) :
    freeEach sps s = { s with freed := s.freed ++ sps.flatMap fun sp => [sp.data.block, sp.self] } := by
  induction sps generalizing s with
  | nil => simp [freeEach]
  | cons sp sps ih => simp [freeEach, ih, free]

/-- Every block of the storage is freed, and nothing is stored afterwards. -/
theorem freePacketStorage_eq (s : State) : s.freePacketStorage = { s with freed := s.freed ++ s.owned, packetStorage := [] } := by
  unfold freePacketStorage
  split
  · next h_empty =>
    have h_nil : s.packetStorage = [] := List.length_eq_zero_iff.mp h_empty
    obtain ⟨mem, next, freed, storage, count⟩ := s
    simp only at h_nil
    simp [h_nil, owned]
  · rw [freeEach_eq]
    rfl

/-! ## Every block has its place -/

/-- The blocks handed out are those of the stored packets and the freed ones, each once. -/
structure Sound (s : State) : Prop where
  next_pos : pcapBuffer < s.next
  blocks : (s.owned ++ s.freed).Perm (List.range' 1 (s.next - 1))
  base : ∀ sp ∈ s.packetStorage, sp.data.off = 0

theorem sound_init (mem : Mem) : (init mem).Sound := by
  refine ⟨Nat.zero_lt_one, ?_, ?_⟩
  · simp [init, owned, pcapBuffer]
  · intro sp hsp
    exact absurd hsp List.not_mem_nil

namespace Sound

variable {s : State} (hs : s.Sound)
include hs

theorem nodup : (s.owned ++ s.freed).Nodup := hs.blocks.nodup_iff.mpr List.nodup_range'

/-- A block of a stored packet was handed out. -/
theorem owned_range {b : Nat} (hb : b ∈ s.owned) : pcapBuffer < b ∧ b < s.next := by
  have h_mem := hs.blocks.subset (List.mem_append_left _ hb)
  have h_pos := hs.next_pos
  rw [List.mem_range'_1] at h_mem
  change 0 < b ∧ b < s.next
  omega

theorem data_range {sp : StoredPacket} (hsp : sp ∈ s.packetStorage) : pcapBuffer < sp.data.block ∧ sp.data.block < s.next :=
  hs.owned_range (List.mem_flatMap.mpr ⟨sp, hsp, by simp⟩)

/-- What happens to the blocks of one more allocation. -/
theorem range_succ (k : Nat) : List.range' 1 (s.next + k - 1) = List.range' 1 (s.next - 1) ++ List.range' s.next k := by
  have h_pos : 0 < s.next := hs.next_pos
  have h_split : s.next + k - 1 = s.next - 1 + k := by omega
  rw [h_split, ← List.range'_append_1]
  congr 2
  omega

theorem free : s.freePacketStorage.Sound := by
  rw [freePacketStorage_eq]
  refine ⟨hs.next_pos, ?_, ?_⟩
  · change (s.freed ++ s.owned).Perm (List.range' 1 (s.next - 1))
    exact List.perm_append_comm.trans hs.blocks
  · intro sp hsp
    exact absurd hsp List.not_mem_nil

theorem startSession : s.startSession.Sound := ⟨hs.free.next_pos, hs.free.blocks, hs.free.base⟩

theorem dispatch (c : Capture) : (s.dispatch c).Sound := by
  have h_pos : 0 < s.next := hs.next_pos
  obtain ⟨-, h⟩ | ⟨-, -, h⟩ | ⟨-, -, h⟩ := s.dispatch_cases c <;> rw [h]
  · exact ⟨hs.next_pos, hs.blocks, hs.base⟩
  · refine ⟨Nat.succ_pos _, ?_, hs.base⟩
    change (s.owned ++ (s.freed ++ [s.next])).Perm (List.range' 1 (s.next + 1 - 1))
    rw [hs.range_succ 1, ← List.append_assoc]
    exact hs.blocks.append_right _
  · refine ⟨Nat.succ_pos _, ?_, ?_⟩
    · change ((s.kept c).owned ++ s.freed).Perm (List.range' 1 (s.next + 2 - 1))
      have h_owned : (s.kept c).owned = s.owned ++ [s.next + 1, s.next] := by simp [kept, owned]
      have h_new : [s.next + 1, s.next].Perm (List.range' s.next 2) := List.Perm.swap _ _ _
      rw [h_owned, hs.range_succ 2, List.append_assoc]
      have h_swap : ([s.next + 1, s.next] ++ s.freed).Perm (s.freed ++ [s.next + 1, s.next]) := List.perm_append_comm
      have h_all := hs.blocks.append h_new
      rw [List.append_assoc] at h_all
      exact (h_swap.append_left _).trans h_all
    · intro sp hsp
      rcases List.mem_append.mp hsp with h_old | h_new
      · exact hs.base sp h_old
      · rw [List.mem_singleton.mp h_new]

theorem session (cs : List Capture) : (s.session cs).Sound :=
  List.foldlRecOn cs State.dispatch hs.startSession fun _ h c _ => h.dispatch c

end Sound

theorem sound_sessions (mem : Mem) (history : List (List Capture)) : (sessions mem history).Sound :=
  List.foldlRecOn history State.session (sound_init mem) fun _ h cs _ => h.session cs

/-! ## What is stored -/

end State

/-- A stored packet is a copy of a frame: the header, and byte for byte what was captured. -/
structure Copies (m : Mem) (sp : StoredPacket) (c : Capture) : Prop where
  header : sp.header = c.header
  bytes : bytesAt m sp.data c.header.caplen.toNat = c.bytes

/-- The frames of a session that are stored: those whose allocations succeed, as long as there is room. -/
def stored (cs : List Capture) : List Capture := (cs.filter (·.alloc.ok)).take maxPackets

theorem stored_concat_of_not_ok {cs : List Capture} {c : Capture} (h : c.alloc.ok = false) : stored (cs ++ [c]) = stored cs := by
  simp [stored, h]

theorem stored_concat_of_full {cs : List Capture} {c : Capture} (h : maxPackets ≤ (stored cs).length) :
    stored (cs ++ [c]) = stored cs := by
  have h_len : maxPackets ≤ (cs.filter (·.alloc.ok)).length := by
    rw [stored, List.length_take] at h
    exact (Nat.le_min.mp h).2
  rw [stored, stored, List.filter_append, List.take_append_of_le_length h_len]

theorem stored_concat {cs : List Capture} {c : Capture} (h_ok : c.alloc.ok = true) (h : (stored cs).length < maxPackets) :
    stored (cs ++ [c]) = stored cs ++ [c] := by
  have h_len : (cs.filter (·.alloc.ok)).length < maxPackets := by
    rw [stored, List.length_take] at h
    omega
  have h_new : (cs ++ [c]).filter (·.alloc.ok) = cs.filter (·.alloc.ok) ++ [c] := by simp [h_ok]
  rw [stored, stored, h_new, List.take_of_length_le (by rw [List.length_append, List.length_singleton]; omega),
    List.take_of_length_le (Nat.le_of_lt h_len)]

/-- A copy is not touched while its block is left alone. -/
theorem Copies.congr {m m' : Mem} {sp : StoredPacket} {c : Capture} (h : Copies m sp c)
    (h_mem : ∀ a : Ptr, a.block = sp.data.block → m' a = m a) : Copies m' sp c := by
  refine ⟨h.header, ?_⟩
  rw [← h.bytes, bytesAt, bytesAt]
  exact List.map_congr_left fun i _ => h_mem _ rfl

namespace State

/-- A call of the callback leaves the blocks handed out before. -/
theorem mem_dispatch (s : State) (c : Capture) {a : Ptr} (ha : pcapBuffer < a.block ∧ a.block < s.next) :
    (s.dispatch c).mem a = s.mem a := by
  have h_live : a.block ≠ pcapBuffer := Nat.ne_of_gt ha.1
  have h_buffer : (s.deliver c).mem a = s.mem a := if_neg h_live
  obtain ⟨-, h⟩ | ⟨-, -, h⟩ | ⟨-, -, h⟩ := s.dispatch_cases c <;> rw [h]
  · exact h_buffer
  · exact h_buffer
  · have h_old : a.block ≠ s.next + 1 := by omega
    exact (if_neg h_old).trans h_buffer

/-- The new packet is a copy of the frame. -/
theorem copies_kept (s : State) (c : Capture) : Copies (s.kept c).mem ⟨s.next, c.header, ⟨s.next + 1, 0⟩⟩ c := by
  refine ⟨rfl, ?_⟩
  rw [bytesAt, Capture.bytes]
  refine List.map_congr_left fun i hi => ?_
  have h_lt : i < c.header.caplen.toNat := List.mem_range.mp hi
  change (if s.next + 1 = s.next + 1 then c.bytes[0 + i]?.getD ((s.deliver c).mem ((⟨s.next + 1, 0⟩ : Ptr) + i)) else _) = c.frame i
  rw [if_pos rfl, Nat.zero_add]
  simp [Capture.bytes, h_lt]

/-- The stored packets of a session are copies of the frames to be stored, in order. -/
def Stores (s : State) (cs : List Capture) : Prop := List.Forall₂ (Copies s.mem) s.packetStorage (stored cs)

theorem Stores.dispatch {s : State} {cs : List Capture} (h : s.Stores cs) (hs : s.Sound) (c : Capture) :
    (s.dispatch c).Stores (cs ++ [c]) := by
  have h_count : s.storedPacketCount = (stored cs).length := h.length_eq
  have h_old : List.Forall₂ (Copies (s.dispatch c).mem) s.packetStorage (stored cs) := by
    have h_range : ∀ sp ∈ s.packetStorage, pcapBuffer < sp.data.block ∧ sp.data.block < s.next := fun _ => hs.data_range
    refine ((List.forall₂_and_left _ _).mpr ⟨h_range, h⟩).imp ?_
    rintro sp c' ⟨hsp, h_copy⟩
    exact h_copy.congr fun a ha => s.mem_dispatch c (ha ▸ hsp)
  obtain ⟨h_not, he⟩ | ⟨h_room, h_alloc, he⟩ | ⟨h_room, h_alloc, he⟩ := s.dispatch_cases c
  · have h_same : stored (cs ++ [c]) = stored cs := by
      rcases h_not with h_full | h_failed
      · exact stored_concat_of_full (h_count ▸ h_full)
      · exact stored_concat_of_not_ok (by simp [Alloc.ok, h_failed])
    rw [Stores, h_same]
    rw [he] at h_old ⊢
    exact h_old
  · rw [Stores, stored_concat_of_not_ok (by rw [h_alloc]; rfl)]
    rw [he] at h_old ⊢
    exact h_old
  · rw [Stores, stored_concat (by rw [h_alloc]; rfl) (h_count ▸ h_room)]
    rw [he] at h_old ⊢
    exact List.rel_append h_old (List.Forall₂.cons (s.copies_kept c) List.Forall₂.nil)

theorem session_concat (s : State) (cs : List Capture) (c : Capture) : s.session (cs ++ [c]) = (s.session cs).dispatch c := by
  simp [session]

/-- After any session, the storage holds the frames of this session and nothing else. -/
theorem stores_session {s : State} (hs : s.Sound) (cs : List Capture) : (s.session cs).Stores cs := by
  induction cs using List.reverseRecOn with
  | nil =>
    have h_nil : (s.session []).packetStorage = [] := by simp [session, startSession, resetPacketCounter, freePacketStorage_eq]
    rw [Stores, h_nil]
    exact List.Forall₂.nil
  | append_singleton cs c ih =>
    rw [session_concat]
    exact ih.dispatch (hs.session cs) c

/-! ## What is displayed -/

/-- `store_packet` prints nothing but an error. -/
theorem packetNumber_storePacket (s : State) (m : Mem) (alloc : Alloc) (h : PcapPkthdr) (p : Ptr) (rest : List Shown) :
    packetNumber ((s.storePacket alloc h p).out m ++ rest) = packetNumber rest := by
  unfold storePacket
  split
  · simp
  · split
    · simp [packetNumber]
    · split
      · simp [packetNumber]
      · simp

/-- A frame is displayed with its place in the session. -/
theorem packetNumber_live (s : State) (c : Capture) : packetNumber (s.live c) = some ((s.packetCount : Int) + 1) := by
  have h_count := s.packetCount_dispatch c
  simp only [dispatch, callback, parsePacket, Prog.run_bind, Prog.run_pure] at h_count
  simp only [live, callback, parsePacket, Prog.out_bind, packetNumber_storePacket, out_print, List.cons_append, packetNumber, h_count]
  simp

theorem displayed_getElem? (s : State) (cs : List Capture) (i : Nat) :
    (s.displayed cs)[i]? = cs[i]?.map fun c => (some ((s.packetCount : Int) + i + 1), c) := by
  induction cs generalizing s i with
  | nil => rfl
  | cons c cs ih =>
    cases i with
    | zero => simp [displayed, packetNumber_live]
    | succ i =>
      simp only [displayed, List.getElem?_cons_succ, ih, packetCount_dispatch]
      congr 1
      funext c'
      simp
      omega

end State

end Xv6SnifferBakery.Sniffer
