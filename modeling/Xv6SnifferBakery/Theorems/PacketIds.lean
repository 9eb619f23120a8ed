import Mathlib.Data.List.Nodup
import Xv6SnifferBakery.Sniffer.Session

/-!
# Displayed numbers and stored ids

`parse_packet` counts every frame, `store_packet` only those it finds memory for; the two counters agree as long as no allocation fails.
What is freed does not depend on it: over any sessions, every block of a stored packet is freed exactly once.
-/

namespace Xv6SnifferBakery.Sniffer

open Lib

/-- What a copy is a copy of. -/
def Capture.packet (c : Capture) : PcapPkthdr × List UInt8 := (c.header, c.bytes)

theorem copies_iff (m : Mem) (sp : StoredPacket) (c : Capture) :
    Copies m sp c ↔ (sp.header, bytesAt m sp.data sp.header.caplen.toNat) = c.packet := by
  constructor
  · intro h
    rw [Capture.packet, h.header, h.bytes]
  · intro h
    obtain ⟨h_header, h_bytes⟩ := Prod.mk.inj h
    exact ⟨h_header, h_header ▸ h_bytes⟩

namespace State

/-- Every id the inspector accepts stands for a copy of the frame displayed under this number in the current session, which captured
`cs` from the state `s` on. -/
def IdsMatch (s : State) (cs : List Capture) : Prop :=
  ∀ k : Nat, 1 ≤ k → k ≤ (s.session cs).storedPacketCount →
    ∃ sp c, (s.session cs).packetStorage[k - 1]? = some sp ∧ (some (k : Int), c) ∈ s.startSession.displayed cs ∧
      Copies (s.session cs).mem sp c

/-- When the program ends after the sessions `more`, each block of the packets stored now was freed once. -/
def FreedOnce (s : State) (more : List (List Capture)) : Prop :=
  ∀ sp ∈ s.packetStorage, ((more.foldl session s).freePacketStorage.freed.count sp.self = 1) ∧
    (more.foldl session s).freePacketStorage.freed.count sp.data.block = 1

/-! ## The numbers -/

theorem mem_displayed {s : State} {cs : List Capture} {n : Option Int} {c : Capture} (h : (n, c) ∈ s.displayed cs) :
    ∃ i : Nat, n = some ((s.packetCount : Int) + i + 1) ∧ cs[i]? = some c := by
  obtain ⟨i, h_i⟩ := List.getElem?_of_mem h
  rw [displayed_getElem?] at h_i
  obtain ⟨c', h_c, h_eq⟩ := Option.map_eq_some_iff.mp h_i
  obtain ⟨rfl, rfl⟩ := Prod.mk.inj h_eq
  exact ⟨i, rfl, h_c⟩

/-- The ids match exactly when the stored frames are the first of the session. -/
theorem idsMatch_iff {s : State} (hs : s.Sound) (cs : List Capture) :
    s.IdsMatch cs ↔ (stored cs).map Capture.packet <+: cs.map Capture.packet := by
  have h_stores := stores_session hs cs
  have h_count : (s.session cs).storedPacketCount = (stored cs).length := h_stores.length_eq
  have h_copy (i : Nat) (sp : StoredPacket) (c : Capture) (h_sp : (s.session cs).packetStorage[i]? = some sp)
      (h_c : (stored cs)[i]? = some c) : Copies (s.session cs).mem sp c := by
    obtain ⟨h_i, rfl⟩ := List.getElem?_eq_some_iff.mp h_sp
    obtain ⟨h_i', rfl⟩ := List.getElem?_eq_some_iff.mp h_c
    exact h_stores.get h_i h_i'
  have h_start : s.startSession.packetCount = 0 := rfl
  rw [List.prefix_iff_getElem?]
  constructor
  · intro h i h_i
    rw [List.length_map] at h_i
    obtain ⟨sp, c, h_sp, h_shown, h_c⟩ := h (i + 1) (by omega) (by omega)
    obtain ⟨j, h_j, h_cs⟩ := mem_displayed h_shown
    obtain rfl : j = i := by
      have h_number := Option.some.inj h_j
      rw [h_start] at h_number
      omega
    have h_stored := h_copy j sp _ h_sp (List.getElem?_eq_getElem h_i)
    rw [List.getElem?_map, h_cs, List.getElem_map, Option.map_some, ← (copies_iff ..).mp h_c, ← (copies_iff ..).mp h_stored]
  · intro h k h_one h_k
    have h_i : k - 1 < (stored cs).length := by omega
    have h_i' : k - 1 < (s.session cs).packetStorage.length := by
      rw [← h_count] at h_i
      exact h_i
    have h_prefix := h (k - 1) (by rwa [List.length_map])
    rw [List.getElem?_map, List.getElem_map] at h_prefix
    obtain ⟨c, h_c, h_packet⟩ := Option.map_eq_some_iff.mp h_prefix
    have h_stored := h_copy (k - 1) _ _ (List.getElem?_eq_getElem h_i') (List.getElem?_eq_getElem h_i)
    refine ⟨_, c, List.getElem?_eq_getElem h_i', ?_, (copies_iff ..).mpr (((copies_iff ..).mp h_stored).trans h_packet.symm)⟩
    refine List.mem_of_getElem? (i := k - 1) ?_
    rw [displayed_getElem?, h_c, h_start]
    simp
    omega

/-! ## The blocks -/

theorem next_le_session (s : State) (cs : List Capture) : s.next ≤ (s.session cs).next := by
  have h_start : s.startSession.next = s.next := by simp [startSession, resetPacketCounter, freePacketStorage_eq]
  refine List.foldlRecOn cs State.dispatch (motive := fun t => s.next ≤ t.next) (Nat.le_of_eq h_start.symm) ?_
  intro t h_t c _
  exact Nat.le_trans h_t (t.next_le_dispatch c)

/-- At the end every block that was handed out has been freed, once. -/
theorem freedOnce {s : State} (hs : s.Sound) (more : List (List Capture)) : s.FreedOnce more := by
  have h_end : (more.foldl session s).Sound ∧ s.next ≤ (more.foldl session s).next :=
    List.foldlRecOn more State.session (motive := fun t => t.Sound ∧ s.next ≤ t.next) ⟨hs, Nat.le_refl _⟩
      fun t h_t cs _ => ⟨h_t.1.session cs, Nat.le_trans h_t.2 (t.next_le_session cs)⟩
  have h_once (b : Nat) (hb : b ∈ s.owned) : (more.foldl session s).freePacketStorage.freed.count b = 1 := by
    have h_range := hs.owned_range hb
    have h_freed : (more.foldl session s).freePacketStorage.freed.Perm (List.range' 1 ((more.foldl session s).next - 1)) := by
      have h_blocks := h_end.1.free.blocks
      rw [freePacketStorage_eq] at h_blocks ⊢
      exact h_blocks
    rw [h_freed.count_eq]
    refine List.count_eq_one_of_mem List.nodup_range' (List.mem_range'_1.mpr ?_)
    have h_pos : 0 < b := h_range.1
    omega
  intro sp hsp
  exact ⟨h_once _ (List.mem_flatMap.mpr ⟨sp, hsp, by simp⟩), h_once _ (List.mem_flatMap.mpr ⟨sp, hsp, by simp⟩)⟩

end State

/-- For every sequence of sessions, whichever allocations fail: in the current session the ids stand for the frames displayed under
them, and every stored packet is freed exactly once, if and only if the frames that could be stored are the first of the session. -/
theorem packet_ids_iff (mem : Mem) (history : List (List Capture)) (cs : List Capture) (more : List (List Capture)) :
    (State.sessions mem history).IdsMatch cs ∧ ((State.sessions mem history).session cs).FreedOnce more ↔
      (stored cs).map Capture.packet <+: cs.map Capture.packet := by
  have hs := State.sound_sessions mem history
  rw [State.idsMatch_iff hs]
  exact and_iff_left (State.freedOnce (hs.session cs) more)

/-- A frame of 60 zero bytes with a time of its own, and how its allocations go. -/
def zeroFrame (sec : Int) (container : Bool) : Capture := ⟨⟨sec, 0, 60, 60⟩, fun _ => 0, ⟨container, true⟩⟩

/-- When the first allocation of a session fails, id 1 is the frame displayed as number 2. -/
theorem packet_ids_shifted :
    ¬ ∀ (mem : Mem) (history : List (List Capture)) (cs : List Capture) (more : List (List Capture)),
      (State.sessions mem history).IdsMatch cs ∧ ((State.sessions mem history).session cs).FreedOnce more := by
  intro h
  have h_match := (h (fun _ => 0) [] [zeroFrame 1 false, zeroFrame 2 true] []).1
  have h_header : ((State.sessions (fun _ => 0) []).session [zeroFrame 1 false, zeroFrame 2 true]).packetStorage[0]?.map (·.header) =
      some ⟨2, 0, 60, 60⟩ := by
    decide +kernel
  have h_count : 1 ≤ ((State.sessions (fun _ => 0) []).session [zeroFrame 1 false, zeroFrame 2 true]).storedPacketCount := by
    decide +kernel
  obtain ⟨sp, c, h_sp, h_shown, h_copy⟩ := h_match 1 (Nat.le_refl _) h_count
  rw [h_sp] at h_header
  obtain ⟨i, h_number, h_c⟩ := State.mem_displayed h_shown
  obtain rfl : i = 0 := by
    have h_count : ((1 : Nat) : Int) = 0 + i + 1 := Option.some.inj h_number
    omega
  obtain rfl : zeroFrame 1 false = c := Option.some.inj h_c
  have h_time : sp.header = ⟨2, 0, 60, 60⟩ := Option.some.inj h_header
  rw [h_copy.header] at h_time
  exact absurd h_time (by decide)

end Xv6SnifferBakery.Sniffer
