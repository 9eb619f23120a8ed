import Xv6SnifferBakery.Sniffer.Extent

/-!
# The live view against the captured bytes

`caplen` is not passed below `parse_packet`, so the dissectors read whatever the headers announce: the live view stays within the capture
exactly when its extent does. `store_packet`, in the same callback, copies `caplen` bytes and never reads further.
-/

namespace Xv6SnifferBakery.Sniffer

open Lib

/-- `store_packet` reads the captured bytes alone. -/
theorem keeps_storePacket (m : Mem) (alloc : Alloc) (h : PcapPkthdr) (p : Ptr) (s : State) :
    (s.storePacket alloc h p).Keeps (Below p.block (p.off + h.caplen.toNat)) m := by
  unfold State.storePacket
  split
  · simp
  · split
    · simp
    · split
      · simp
      · simp only [Prog.keeps_bind, keeps_octets_below, Prog.keeps_pure, and_true]
        exact Or.inr ⟨trivial, Nat.le_refl _⟩

/-- For every frame, whatever was captured of it: the callback reads within the captured bytes exactly when the headers the frame
announces, and the part of the payload that is shown, end there. -/
theorem live_reads_within_iff (s : State) (c : Capture) :
    (∀ a ∈ (s.callback c).reads (s.deliver c).mem, a.block = pcapBuffer ∧ a.off < c.header.caplen.toNat) ↔
      liveExtent (s.deliver c).mem packetPtr ≤ c.header.caplen.toNat := by
  have h_store := keeps_storePacket (s.deliver c).mem c.alloc c.header packetPtr
    { s.deliver c with packetCount := (s.deliver c).packetCount + 1 }
  rw [show packetPtr.off + c.header.caplen.toNat = c.header.caplen.toNat from Nat.zero_add _] at h_store
  change (s.callback c).Keeps (Below packetPtr.block c.header.caplen.toNat) (s.deliver c).mem ↔ _
  simp only [State.callback, State.parsePacket, Prog.keeps_bind, h_store, keeps_print, keeps_parseEthernet, Prog.keeps_pure, true_and,
    and_true]
  rw [show packetPtr.off = 0 from rfl, Nat.zero_add]

/-- A frame of 60 bytes, captured whole: IPv4 with a total length of 1500 and a TCP header of 60 bytes. -/
def shortFrame : Capture :=
  ⟨⟨0, 0, 60, 60⟩, fun i => (([0, 0, 0, 0, 0, 0, 0, 0, 0, 0, 0, 0, 0x08, 0x00, 0x45, 0x00, 0x05, 0xdc, 0, 0, 0, 0, 64, 6] : List UInt8) ++
    List.replicate 22 0 ++ [0xf0])[i]?.getD 0, ⟨true, true⟩⟩

/-- The payload of the frame is looked for behind its end. -/
theorem live_reads_past_capture :
    ¬ ∀ (s : State) (c : Capture), ∀ a ∈ (s.callback c).reads (s.deliver c).mem,
      a.block = pcapBuffer ∧ a.off < c.header.caplen.toNat := by
  intro h
  have h_read : (⟨0, 94⟩ : Ptr) ∈
      ((State.init fun _ => 0).callback shortFrame).reads ((State.init fun _ => 0).deliver shortFrame).mem := by
    decide +kernel
  exact absurd (h _ shortFrame _ h_read).2 (by decide)

end Xv6SnifferBakery.Sniffer
