import Xv6SnifferBakery.Sniffer.Dissection
import Xv6SnifferBakery.Sniffer.Session

/-!
# The three views

The live view, the line of the summary and the details in the inspector each dissect the frame on their own, the first in the buffer of
libpcap and the others in the stored copy. Each tells what the frame says, and when the headers were captured the copy says the same.
-/

namespace Xv6SnifferBakery.Sniffer

open Lib

/-- Two views take the frame through the same protocols and show equal values for every field that both show. -/
structure SameView (a b : List Shown) : Prop where
  path : layers a = layers b
  field : ∀ f v w, .field f v ∈ a → .field f w ∈ b → v = w

theorem Tells.same {value : Field → Option Value} {path : List Layer} {a b : List Shown} (ha : Tells value path a)
    (hb : Tells value path b) : SameView a b :=
  ⟨ha.path.trans hb.path.symm, fun _ _ _ hv hw => Option.some.inj ((ha.field hv).symm.trans (hb.field hw))⟩

namespace Capture

/-- The frame in memory. -/
def mem (c : Capture) : Mem := fun a => c.frame a.off

/-- The capture holds all the headers the frame announces. -/
def LongEnough (c : Capture) : Prop := headersExtent c.mem packetPtr ≤ c.header.caplen.toNat

end Capture

/-- What is printed for a frame before it is dissected tells nothing. -/
theorem tells_live (s : State) (c : Capture) : Tells (frameField c.mem packetPtr) (framePath c.mem packetPtr) (s.live c) := by
  have h_same (n : Nat) : SameBytes c.mem (s.deliver c).mem packetPtr packetPtr n := fun _ _ => rfl
  have h_store (t : State) (m : Mem) : ((t.storePacket c.alloc c.header packetPtr).out m).all Shown.silent = true := by
    unfold State.storePacket
    split
    · rfl
    · split
      · simp
      · split <;> simp
  have h_frame := tells_parseEthernet (s.deliver c).mem packetPtr
  rw [(h_same _).frameField, (h_same _).framePath] at h_frame
  simp only [State.live, State.callback, State.parsePacket, Prog.out_bind, Prog.out_pure, out_print, List.append_nil]
  change Tells _ ([] ++ ([] ++ framePath c.mem packetPtr)) _
  exact Tells.append (Tells.of_silent (h_store _ _)) (Tells.append (Tells.of_silent rfl) h_frame)

/-- The copy has the captured bytes of the frame. -/
theorem Copies.sameBytes {m : Mem} {sp : StoredPacket} {c : Capture} (h : Copies m sp c) :
    SameBytes c.mem m packetPtr sp.data c.header.caplen.toNat := by
  intro i hi
  have h_i := congrArg (·[i]?) h.bytes
  simpa [bytesAt, Capture.bytes, hi, Capture.mem, packetPtr] using h_i

/-- For every run, and every frame that is stored and long enough for the headers it announces: the live view, in whatever state it is
printed, the line of the summary and the details agree on the protocols and on every field that two of them show. -/
theorem views_agree (mem : Mem) (history : List (List Capture)) (cs : List Capture) (k : Nat) (c : Capture)
    (hk : (stored cs)[k]? = some c) (h_long : c.LongEnough) (t : State) :
    let s := (State.sessions mem history).session cs
    ∃ sp, s.packetStorage[k]? = some sp ∧
      SameView (t.live c) ((getSummaryInfo sp.data).run s.mem) ∧
      SameView (t.live c) ((s.printPacketDetails (k + 1)).out s.mem) ∧
      SameView ((getSummaryInfo sp.data).run s.mem) ((s.printPacketDetails (k + 1)).out s.mem) := by
  intro s
  have h_stores : s.Stores cs := State.stores_session (State.sound_sessions mem history) cs
  obtain ⟨h_lt, rfl⟩ := List.getElem?_eq_some_iff.mp hk
  have h_lt' : k < s.packetStorage.length := h_stores.length_eq ▸ h_lt
  have h_copy : Copies s.mem s.packetStorage[k] (stored cs)[k] := h_stores.get h_lt' h_lt
  have h_headers := h_copy.sameBytes.mono h_long
  have h_live := tells_live t (stored cs)[k]
  have h_summary := tells_getSummaryInfo s.mem s.packetStorage[k].data
  have h_details := tells_packetDetails s.mem (k + 1) s.packetStorage[k]
  rw [h_headers.frameField, h_headers.framePath] at h_summary h_details
  have h_print : s.printPacketDetails (k + 1) = packetDetails (k + 1) s.packetStorage[k] := by
    simp [State.printPacketDetails, h_lt']
  refine ⟨s.packetStorage[k], List.getElem?_eq_getElem h_lt', h_live.same h_summary, ?_, ?_⟩
  · rw [h_print]
    exact h_live.same h_details
  · rw [h_print]
    exact h_summary.same h_details

/-- An IPv4 frame with a TCP header of 24 bytes. -/
def tcpFrame : Capture :=
  ⟨⟨0, 0, 60, 60⟩, fun i => (([0, 0, 0, 0, 0, 0, 0, 0, 0, 0, 0, 0, 0x08, 0x00, 0x45, 0x00, 0x00, 0x2c, 0, 0, 0, 0, 64, 6] : List UInt8) ++
    List.replicate 22 0 ++ [0x60])[i]?.getD 0, ⟨true, true⟩⟩

theorem views_agree_tcp :
    ∃ sp, ((State.sessions (fun _ => 0) []).session [tcpFrame]).packetStorage[0]? = some sp ∧
      SameView ((State.init fun _ => 0).live tcpFrame)
        ((getSummaryInfo sp.data).run ((State.sessions (fun _ => 0) []).session [tcpFrame]).mem) ∧
      SameView ((State.init fun _ => 0).live tcpFrame)
        ((((State.sessions (fun _ => 0) []).session [tcpFrame]).printPacketDetails 1).out
          ((State.sessions (fun _ => 0) []).session [tcpFrame]).mem) ∧
      SameView ((getSummaryInfo sp.data).run ((State.sessions (fun _ => 0) []).session [tcpFrame]).mem)
        ((((State.sessions (fun _ => 0) []).session [tcpFrame]).printPacketDetails 1).out
          ((State.sessions (fun _ => 0) []).session [tcpFrame]).mem) :=
  views_agree (fun _ => 0) [] [tcpFrame] 0 tcpFrame rfl (by unfold Capture.LongEnough; decide +kernel) (State.init fun _ => 0)

end Xv6SnifferBakery.Sniffer
