import Xv6SnifferBakery.Sniffer.Extent

/-!
# What a frame says

The value of each field of a frame, and the protocols it goes through, stated once. Each of the three views tells what the frame says and
nothing else, so two of them that show the same field show the same value. What a frame says depends on its headers alone.
-/

namespace Xv6SnifferBakery.Sniffer

open Lib

/-! ## The fields of each header -/

/-- The switch on the protocol of layer 4. -/
def l4Switch {α : Type} (proto : Nat) (tcp udp none : α) : α :=
  if proto = ipprotoTcp then tcp else if proto = ipprotoUdp then udp else none

/-- The switch on the EtherType. -/
def l3Switch {α : Type} (type : Nat) (ip ip6 arp none : α) : α :=
  if type = ethertypeIp then ip else if type = ethertypeIpv6 then ip6 else if type = ethertypeArp then arp else none

theorem l4Switch_same {α : Type} (proto : Nat) (a : α) : l4Switch proto a a a = a := by
  unfold l4Switch
  split
  · rfl
  · split <;> rfl

theorem l4Switch_tcp {α : Type} {proto : Nat} (a b c : α) (h : proto = ipprotoTcp) : l4Switch proto a b c = a := if_pos h

theorem l4Switch_udp {α : Type} {proto : Nat} (a b c : α) (h : proto = ipprotoUdp) : l4Switch proto a b c = b := by
  rw [h]
  rfl

theorem l3Switch_ip {α : Type} {type : Nat} (a b c d : α) (h : type = ethertypeIp) : l3Switch type a b c d = a := if_pos h

theorem l3Switch_ipv6 {α : Type} {type : Nat} (a b c d : α) (h : type = ethertypeIpv6) : l3Switch type a b c d = b := by
  rw [h]
  rfl

theorem l3Switch_arp {α : Type} {type : Nat} (a b c d : α) (h : type = ethertypeArp) : l3Switch type a b c d = c := by
  rw [h]
  rfl

section
variable (m : Mem) (p : Ptr)

def tcpField : Field → Option Value
  | .thSport => some (.num (be16 m p))
  | .thDport => some (.num (be16 m (p + 2)))
  | .thSeq => some (.num (be32 m (p + 4)))
  | .thAck => some (.num (be32 m (p + 8)))
  | .thOff => some (.num ((m (p + 12)).toNat / 16 * 4 : Nat))
  | .thFlags => some (.flags (tcpFlagNames (m (p + 13)).toNat))
  | .thWin => some (.num (be16 m (p + 14)))
  | .thSum => some (.hex (be16 m (p + 16)))
  | _ => none

def udpField : Field → Option Value
  | .uhSport => some (.num (be16 m p))
  | .uhDport => some (.num (be16 m (p + 2)))
  | .uhUlen => some (.num (be16 m (p + 4)))
  | .uhSum => some (.hex (be16 m (p + 6)))
  | _ => none

def arpField : Field → Option Value
  | .arHrd => some (.num (be16 m p))
  | .arPro => some (.hex (be16 m (p + 2)))
  | .arHln => some (.num (m (p + 4)).toNat)
  | .arPln => some (.num (m (p + 5)).toNat)
  | .arOp => some (.operation (decide (be16 m (p + 6) = arpopRequest)))
  | .arpSha => some (.mac (bytesAt m (p + 8) 6))
  | .arpSpa => some (.ip (bytesAt m (p + 14) 4))
  | .arpTha => some (.mac (bytesAt m (p + 18) 6))
  | .arpTpa => some (.ip (bytesAt m (p + 24) 4))
  | _ => none

def ipv4Field : Field → Option Value
  | .ipV => some (.num ((m p).toNat / 16 : Nat))
  | .ipHl => some (.num (ipHeaderLen m p))
  | .ipLen => some (.num (be16 m (p + 2)))
  | .ipId => some (.hex (be16 m (p + 4)))
  | .ipFlags => some (.fragment (decide (be16 m (p + 6) &&& ipDf ≠ 0)) (decide (be16 m (p + 6) &&& ipMf ≠ 0)))
  | .ipOff => some (.num ((be16 m (p + 6) &&& ipOffmask) * 8 : Nat))
  | .ipTtl => some (.num (m (p + 8)).toNat)
  | .ipP => some (.num (m (p + 9)).toNat)
  | .ipProtoName => some (.name (protoName (m (p + 9)).toNat))
  | .ipSrc => some (.ip (bytesAt m (p + 12) 4))
  | .ipDst => some (.ip (bytesAt m (p + 16) 4))
  | f => l4Switch (m (p + 9)).toNat (tcpField m (p + ipHeaderLen m p) f) (udpField m (p + ipHeaderLen m p) f) none

def ipv6Field : Field → Option Value
  | .ip6Class => some (.num (trafficClass (be32 m p)))
  | .ip6Flow => some (.hex (flowLabel (be32 m p)))
  | .ip6Plen => some (.num (be16 m (p + 4)))
  | .ip6Nxt => some (.num (m (p + 6)).toNat)
  | .ip6NhName => some (.name (protoName (m (p + 6)).toNat))
  | .ip6Hlim => some (.num (m (p + 7)).toNat)
  | .ipSrc => some (.ip6 (bytesAt m (p + 8) 16))
  | .ipDst => some (.ip6 (bytesAt m (p + 24) 16))
  | f => l4Switch (m (p + 6)).toNat (tcpField m (p + 40) f) (udpField m (p + 40) f) none

/-- What the frame says a field is; nothing for the fields of headers it does not have. -/
def frameField : Field → Option Value
  | .etherDhost => some (.mac (bytesAt m p 6))
  | .etherShost => some (.mac (bytesAt m (p + 6) 6))
  | .etherType => some (.hex (be16 m (p + 12)))
  | .etherName => some (.name (etherName (be16 m (p + 12))))
  | f => l3Switch (be16 m (p + 12)) (ipv4Field m (p + 14) f) (ipv6Field m (p + 14) f) (arpField m (p + 14) f) none

/-- The protocols above Ethernet. -/
def framePath : List Layer :=
  l3Switch (be16 m (p + 12)) (.ipv4 :: l4Switch (m (p + 23)).toNat [.tcp] [.udp] [])
    (.ipv6 :: l4Switch (m (p + 20)).toNat [.tcp] [.udp] []) [.arp] []

end

/-! ## Telling what a frame says -/

/-- The heading of a layer. -/
def Shown.layer? : Shown → Option Layer
  | .layer l => some l
  | _ => none

/-- The headings in a view, in order. -/
def layers (items : List Shown) : List Layer := items.filterMap Shown.layer?

@[simp] theorem layers_append (a b : List Shown) : layers (a ++ b) = layers a ++ layers b := List.filterMap_append

/-- A field shows its value. -/
def Shown.TrueOf (value : Field → Option Value) : Shown → Prop
  | .field f v => value f = some v
  | _ => True

/-- Every field shown has its value, and the headings are `path`. -/
structure Tells (value : Field → Option Value) (path : List Layer) (items : List Shown) : Prop where
  true_of : ∀ x ∈ items, x.TrueOf value
  path : layers items = path

namespace Tells

variable {value value' : Field → Option Value} {path path' : List Layer} {a b : List Shown}

theorem nil : Tells value [] [] := ⟨fun _ h => absurd h List.not_mem_nil, rfl⟩

theorem headed (l : Layer) (ha : Tells value path a) : Tells value (l :: path) (.layer l :: a) := by
  refine ⟨?_, congrArg (l :: ·) ha.path⟩
  intro x hx
  rcases List.mem_cons.mp hx with rfl | hx
  · trivial
  · exact ha.true_of x hx

theorem told {f : Field} {v : Value} (h : value f = some v) (ha : Tells value path a) : Tells value path (.field f v :: a) := by
  refine ⟨?_, ha.path⟩
  intro x hx
  rcases List.mem_cons.mp hx with rfl | hx
  · exact h
  · exact ha.true_of x hx

theorem append (ha : Tells value path a) (hb : Tells value path' b) : Tells value (path ++ path') (a ++ b) := by
  refine ⟨?_, by rw [layers_append, ha.path, hb.path]⟩
  intro x hx
  rcases List.mem_append.mp hx with hx | hx
  · exact ha.true_of x hx
  · exact hb.true_of x hx

/-- What is true of a header is true of the frame. -/
theorem mono (ha : Tells value path a) (h : ∀ f v, value f = some v → value' f = some v) : Tells value' path a := by
  refine ⟨?_, ha.path⟩
  intro x hx
  have h_true := ha.true_of x hx
  cases x with
  | field f v => exact h f v h_true
  | _ => trivial

theorem field (ha : Tells value path a) {f : Field} {v : Value} (h : .field f v ∈ a) : value f = some v := ha.true_of _ h

end Tells

/-- Items that are no field and no heading. -/
@[simp] def Shown.silent : Shown → Bool
  | .layer _ => false
  | .field _ _ => false
  | _ => true

theorem Tells.of_silent {value : Field → Option Value} {items : List Shown} (h : items.all Shown.silent = true) :
    Tells value [] items := by
  refine ⟨?_, List.filterMap_eq_nil_iff.mpr ?_⟩
  · intro x hx
    have h_silent := List.all_eq_true.mp h x hx
    cases x with
    | field f v => exact absurd h_silent (by simp)
    | _ => trivial
  · intro x hx
    have h_silent := List.all_eq_true.mp h x hx
    cases x with
    | layer l => exact absurd h_silent (by simp)
    | _ => rfl

theorem Tells.quiet {value : Field → Option Value} {path : List Layer} {x : Shown} {a : List Shown} (h : x.silent = true)
    (ha : Tells value path a) : Tells value path (x :: a) := by
  have h_x : Tells value [] [x] := Tells.of_silent (List.all_eq_true.mpr fun _ hx => List.mem_singleton.mp hx ▸ h)
  exact h_x.append ha

theorem Tells.after {value : Field → Option Value} {path : List Layer} {a b : List Shown} (ha : a.all Shown.silent = true)
    (hb : Tells value path b) : Tells value path (a ++ b) :=
  Tells.append (Tells.of_silent ha) hb

/-! ## The live view -/

section
variable (m : Mem) (p : Ptr)

theorem silent_printAscii (first last : Nat) : ((printAscii p first last).out m).all Shown.silent = true := by
  simp [printAscii]

theorem silent_printPadding (n : Nat) : ((printPadding n).out m).all Shown.silent = true := by
  simp [printPadding]

theorem silent_printPayload (len : Int) : ((printPayload p len).out m).all Shown.silent = true := by
  have h_byte (n i : Nat) : ((printPayloadByte p n i).out m).all Shown.silent = true := by
    simp only [printPayloadByte, Prog.out_bind, Prog.out_onlyIf, Prog.out_fetch, out_put, List.all_append, Bool.and_eq_true]
    split <;> split <;> simp [apply_ite (List.all · Shown.silent), silent_printAscii, silent_printPadding]
  simp only [printPayload, Prog.out_each, List.all_flatMap, h_byte, List.all_eq_true, implies_true]

theorem silent_printFullHexDump (len : Int) : ((printFullHexDump p len).out m).all Shown.silent = true := by
  have h_byte (n i : Nat) : ((printHexDumpByte p n i).out m).all Shown.silent = true := by
    simp only [printHexDumpByte, Prog.out_bind, Prog.out_onlyIf, Prog.out_fetch, out_put, List.all_append, Bool.and_eq_true]
    split <;> split <;> split <;>
      simp [apply_ite (List.all · Shown.silent), silent_printAscii, silent_printPadding]
  simp only [printFullHexDump, Prog.out_each, List.all_flatMap, h_byte, List.all_eq_true, implies_true]

theorem tells_parseTcp (h t : Nat) : Tells (tcpField m p) [.tcp] ((parseTcp p h t).out m) := by
  simp only [parseTcp, Prog.out_bind, Prog.out_onlyIf, out_ntohs, out_ntohl, out_octet, out_thOff, run_ntohs, run_ntohl,
    run_octet, run_thOff, out_print, List.nil_append, List.cons_append]
  refine .headed _ (.told rfl (.quiet rfl (.told rfl (.quiet rfl (.told rfl
    (.told rfl (.told rfl (.told rfl (.told rfl (.told rfl (Tells.of_silent ?_)))))))))))
  split
  · simp [silent_printPayload]
  · rfl

theorem tells_parseUdp (h t : Nat) : Tells (udpField m p) [.udp] ((parseUdp p h t).out m) := by
  simp only [parseUdp, Prog.out_bind, Prog.out_onlyIf, out_ntohs, run_ntohs, out_print, List.nil_append, List.cons_append]
  refine .headed _ (.told rfl (.quiet rfl (.told rfl (.quiet rfl (.told rfl (.told rfl (Tells.of_silent ?_)))))))
  split
  · simp [silent_printPayload]
  · rfl

/-- What TCP or UDP tells under a header that its protocol follows. -/
theorem tells_l4 {value tcp udp : Field → Option Value} {proto : Nat} {a b : Code Unit} (ha : Tells tcp [.tcp] (a.out m))
    (hb : Tells udp [.udp] (b.out m)) (h_tcp : proto = ipprotoTcp → ∀ f v, tcp f = some v → value f = some v)
    (h_udp : proto = ipprotoUdp → ∀ f v, udp f = some v → value f = some v) :
    Tells value (l4Switch proto [.tcp] [.udp] [])
      ((if proto = ipprotoTcp then a else if proto = ipprotoUdp then b else pure () : Code Unit).out m) := by
  unfold l4Switch
  split
  · next h => exact ha.mono (h_tcp h)
  · split
    · next h => exact hb.mono (h_udp h)
    · exact Tells.nil

theorem tcpField_ipv4 (h : (m (p + 9)).toNat = ipprotoTcp) (f : Field) (v : Value)
    (hf : tcpField m (p + ipHeaderLen m p) f = some v) : ipv4Field m p f = some v := by
  cases f <;> first
    | exact (l4Switch_tcp _ _ _ h).trans hf
    | exact absurd hf nofun

theorem udpField_ipv4 (h : (m (p + 9)).toNat = ipprotoUdp) (f : Field) (v : Value)
    (hf : udpField m (p + ipHeaderLen m p) f = some v) : ipv4Field m p f = some v := by
  cases f <;> first
    | exact (l4Switch_udp _ _ _ h).trans hf
    | exact absurd hf nofun

theorem tcpField_ipv6 (h : (m (p + 6)).toNat = ipprotoTcp) (f : Field) (v : Value) (hf : tcpField m (p + 40) f = some v) :
    ipv6Field m p f = some v := by
  cases f <;> first
    | exact (l4Switch_tcp _ _ _ h).trans hf
    | exact absurd hf nofun

theorem udpField_ipv6 (h : (m (p + 6)).toNat = ipprotoUdp) (f : Field) (v : Value) (hf : udpField m (p + 40) f = some v) :
    ipv6Field m p f = some v := by
  cases f <;> first
    | exact (l4Switch_udp _ _ _ h).trans hf
    | exact absurd hf nofun

theorem tells_parseIpv4 :
    Tells (ipv4Field m p) (.ipv4 :: l4Switch (m (p + 9)).toNat [.tcp] [.udp] []) ((parseIpv4 p).out m) := by
  simp only [parseIpv4, Prog.out_bind, out_octets, run_octets, out_ntohs, run_ntohs, out_octet, run_octet, out_ipHl, run_ipHl, out_print,
    fragment, List.nil_append, List.cons_append]
  refine .headed _ (.told rfl (.told rfl (.told rfl (.told rfl (.told rfl (.told rfl (.told rfl
    (.told rfl (.told rfl (.told rfl ?_))))))))))
  exact tells_l4 m (tells_parseTcp m _ _ _) (tells_parseUdp m _ _ _) (tcpField_ipv4 m p) (udpField_ipv4 m p)

theorem tells_parseIpv6 :
    Tells (ipv6Field m p) (.ipv6 :: l4Switch (m (p + 6)).toNat [.tcp] [.udp] []) ((parseIpv6 p).out m) := by
  simp only [parseIpv6, Prog.out_bind, out_octets, run_octets, out_ntohs, run_ntohs, out_ntohl, run_ntohl, out_octet, run_octet,
    out_print, List.nil_append, List.cons_append]
  refine .headed _ (.told rfl (.told rfl (.told rfl (.told rfl (.told rfl (.told rfl (.told rfl (.told rfl ?_))))))))
  exact tells_l4 m (tells_parseTcp m _ _ _) (tells_parseUdp m _ _ _) (tcpField_ipv6 m p) (udpField_ipv6 m p)

theorem tells_parseArp : Tells (arpField m p) [.arp] ((parseArp p).out m) := by
  simp only [parseArp, Prog.out_bind, out_octets, run_octets, out_ntohs, run_ntohs, out_octet, run_octet, out_print, List.nil_append,
    List.cons_append]
  exact .headed _ (.told rfl (.told rfl (.told rfl (.told rfl (.told rfl
    (.told rfl (.told rfl (.told rfl (.told rfl .nil)))))))))

theorem ipv4Field_frame (h : be16 m (p + 12) = ethertypeIp) (f : Field) (v : Value) (hf : ipv4Field m (p + 14) f = some v) :
    frameField m p f = some v := by
  cases f <;> first
    | exact (l3Switch_ip _ _ _ _ h).trans hf
    | exact absurd ((l4Switch_same _ none).symm.trans hf) nofun

theorem ipv6Field_frame (h : be16 m (p + 12) = ethertypeIpv6) (f : Field) (v : Value) (hf : ipv6Field m (p + 14) f = some v) :
    frameField m p f = some v := by
  cases f <;> first
    | exact (l3Switch_ipv6 _ _ _ _ h).trans hf
    | exact absurd ((l4Switch_same _ none).symm.trans hf) nofun

theorem arpField_frame (h : be16 m (p + 12) = ethertypeArp) (f : Field) (v : Value) (hf : arpField m (p + 14) f = some v) :
    frameField m p f = some v := by
  cases f <;> first
    | exact (l3Switch_arp _ _ _ _ h).trans hf
    | exact absurd hf nofun

/-- What a header tells behind Ethernet. -/
theorem tells_l3 {a b c : Code Unit}
    (ha : Tells (ipv4Field m (p + 14)) (.ipv4 :: l4Switch (m (p + 23)).toNat [.tcp] [.udp] []) (a.out m))
    (hb : Tells (ipv6Field m (p + 14)) (.ipv6 :: l4Switch (m (p + 20)).toNat [.tcp] [.udp] []) (b.out m))
    (hc : Tells (arpField m (p + 14)) [.arp] (c.out m)) :
    Tells (frameField m p) (framePath m p)
      ((if be16 m (p + 12) = ethertypeIp then a else if be16 m (p + 12) = ethertypeIpv6 then b
        else if be16 m (p + 12) = ethertypeArp then c else pure () : Code Unit).out m) := by
  unfold framePath
  split
  · next h =>
    rw [l3Switch_ip _ _ _ _ h]
    exact ha.mono (ipv4Field_frame m p h)
  · next h_ip =>
    split
    · next h =>
      rw [l3Switch_ipv6 _ _ _ _ h]
      exact hb.mono (ipv6Field_frame m p h)
    · next h_ip6 =>
      split
      · next h =>
        rw [l3Switch_arp _ _ _ _ h]
        exact hc.mono (arpField_frame m p h)
      · next h_arp =>
        rw [l3Switch, if_neg h_ip, if_neg h_ip6, if_neg h_arp]
        exact Tells.nil

theorem tells_parseEthernet : Tells (frameField m p) (framePath m p) ((parseEthernet p).out m) := by
  simp only [parseEthernet, Prog.out_bind, out_octets, run_octets, out_ntohs, run_ntohs, out_print, List.nil_append, List.cons_append]
  refine .told rfl (.told rfl (.told rfl (.told rfl ?_)))
  exact tells_l3 m p (tells_parseIpv4 m _) (tells_parseIpv6 m _) (tells_parseArp m _)

/-! ## The inspector -/

theorem silent_printRaw (n : Nat) : ((printRaw p n).out m).all Shown.silent = true := by
  simp [printRaw]

theorem tells_detailsTcp : Tells (tcpField m p) [.tcp] ((detailsTcp p).out m) := by
  simp only [detailsTcp, Prog.out_bind, out_ntohs, run_ntohs, out_ntohl, run_ntohl, out_thOff, run_thOff, out_print, List.nil_append,
    List.cons_append]
  exact .headed _ (.told rfl (.told rfl (.told rfl (.told rfl (.told rfl (.told rfl
    (Tells.of_silent (silent_printRaw m p _))))))))

theorem tells_detailsUdp : Tells (udpField m p) [.udp] ((detailsUdp p).out m) := by
  simp only [detailsUdp, Prog.out_bind, out_ntohs, run_ntohs, out_print, List.nil_append, List.cons_append]
  exact .headed _ (.told rfl (.told rfl (.told rfl (.told rfl (Tells.of_silent (silent_printRaw m p _))))))

theorem tells_detailsIpv4 :
    Tells (ipv4Field m p) (.ipv4 :: l4Switch (m (p + 9)).toNat [.tcp] [.udp] []) ((detailsIpv4 p).out m) := by
  simp only [detailsIpv4, Prog.out_bind, out_octets, run_octets, out_ntohs, run_ntohs, out_octet, run_octet, out_ipHl, run_ipHl, out_ipV,
    run_ipV, out_print, fragment, List.nil_append, List.cons_append]
  refine .headed _ (.told rfl (.told rfl (.told rfl (.told rfl (.told rfl (.told rfl (.told rfl (.told rfl
    (.told rfl (.told rfl (.after (silent_printRaw m p _) ?_)))))))))))
  exact tells_l4 m (tells_detailsTcp m _) (tells_detailsUdp m _) (tcpField_ipv4 m p) (udpField_ipv4 m p)

theorem tells_detailsIpv6 :
    Tells (ipv6Field m p) (.ipv6 :: l4Switch (m (p + 6)).toNat [.tcp] [.udp] []) ((detailsIpv6 p).out m) := by
  simp only [detailsIpv6, Prog.out_bind, out_octets, run_octets, out_ntohl, run_ntohl, out_octet, run_octet, out_print, List.nil_append,
    List.cons_append]
  refine .headed _ (.told rfl (.told rfl (.told rfl (.told rfl (.told rfl (.told rfl
    (.after (silent_printRaw m p _) ?_)))))))
  exact tells_l4 m (tells_detailsTcp m _) (tells_detailsUdp m _) (tcpField_ipv6 m p) (udpField_ipv6 m p)

theorem tells_detailsArp : Tells (arpField m p) [.arp] ((detailsArp p).out m) := by
  simp only [detailsArp, Prog.out_bind, out_octets, run_octets, out_ntohs, run_ntohs, out_octet, run_octet, out_print, List.nil_append,
    List.cons_append]
  exact .headed _ (.told rfl (.told rfl (.told rfl (.told rfl (.told rfl (.told rfl (.told rfl (.told rfl (.told rfl
    (Tells.of_silent (silent_printRaw m p _)))))))))))

theorem tells_packetDetails (id : Nat) (sp : StoredPacket) :
    Tells (frameField m sp.data) (framePath m sp.data) ((packetDetails id sp).out m) := by
  simp only [packetDetails, Prog.out_bind, out_octets, run_octets, out_ntohs, run_ntohs, out_print, List.nil_append, List.cons_append]
  have h_l3 : Tells (frameField m sp.data) (framePath m sp.data) ((detailsLayer3 sp.data (be16 m (sp.data + 12))).out m) :=
    tells_l3 m sp.data (tells_detailsIpv4 m _) (tells_detailsIpv6 m _) (tells_detailsArp m _)
  have h_rest : Tells (frameField m sp.data) [] (.dump (asInt sp.header.len) :: (printFullHexDump sp.data (asInt sp.header.len)).out m) :=
    .quiet rfl (Tells.of_silent (silent_printFullHexDump m _ _))
  have h_all := h_l3.append h_rest
  rw [List.append_nil] at h_all
  exact .quiet rfl (.told rfl (.told rfl (.told rfl (.told rfl (.after (silent_printRaw m sp.data _) h_all)))))

theorem tells_getSummaryInfo : Tells (frameField m p) (framePath m p) ((getSummaryInfo p).run m) := by
  simp only [getSummaryInfo, Prog.run_bind, Prog.run_ite, run_ntohs, run_octets, run_octet, run_ipHl, Prog.run_pure, framePath,
    Ptr.add_add, etherHeaderSize]
  by_cases h_ip : be16 m (p + 12) = ethertypeIp
  · rw [if_pos h_ip, l3Switch_ip _ _ _ _ h_ip]
    refine Tells.mono ?_ (ipv4Field_frame m p h_ip)
    by_cases h_tcp : (m (p + 23)).toNat = ipprotoTcp
    · rw [if_pos h_tcp, l4Switch_tcp _ _ _ h_tcp]
      have h_l4 := tcpField_ipv4 m (p + 14) h_tcp
      rw [Ptr.add_add] at h_l4
      exact .headed _ (.headed _ (.told rfl (.told (h_l4 _ _ rfl) (.told rfl
        (.told (h_l4 _ _ rfl) .nil)))))
    · by_cases h_udp : (m (p + 23)).toNat = ipprotoUdp
      · rw [if_neg h_tcp, if_pos h_udp, l4Switch_udp _ _ _ h_udp]
        have h_l4 := udpField_ipv4 m (p + 14) h_udp
        rw [Ptr.add_add] at h_l4
        exact .headed _ (.headed _ (.told rfl (.told (h_l4 _ _ rfl) (.told rfl
          (.told (h_l4 _ _ rfl) .nil)))))
      · rw [if_neg h_tcp, if_neg h_udp, l4Switch, if_neg h_tcp, if_neg h_udp]
        exact .headed _ (.told rfl (.told rfl .nil))
  by_cases h_arp : be16 m (p + 12) = ethertypeArp
  · rw [if_neg h_ip, if_pos h_arp, l3Switch_arp _ _ _ _ h_arp]
    refine Tells.mono ?_ (arpField_frame m p h_arp)
    exact .headed _ (.told rfl (.told rfl .nil))
  by_cases h_ip6 : be16 m (p + 12) = ethertypeIpv6
  · rw [if_neg h_ip, if_neg h_arp, if_pos h_ip6, l3Switch_ipv6 _ _ _ _ h_ip6]
    refine Tells.mono ?_ (ipv6Field_frame m p h_ip6)
    unfold l4Switch
    split
    · exact .headed _ (.headed _ (.told rfl (.told rfl .nil)))
    · split
      · exact .headed _ (.headed _ (.told rfl (.told rfl .nil)))
      · exact .headed _ (.quiet rfl (.told rfl (.told rfl .nil)))
  · rw [if_neg h_ip, if_neg h_arp, if_neg h_ip6, l3Switch, if_neg h_ip, if_neg h_ip6, if_neg h_arp]
    exact Tells.of_silent rfl

end

/-! ## The headers alone -/

/-- `n` bytes from `p'` in `m'` are those from `p` in `m`. -/
def SameBytes (m m' : Mem) (p p' : Ptr) (n : Nat) : Prop := ∀ i < n, m' (p' + i) = m (p + i)

namespace SameBytes

variable {m m' : Mem} {p p' : Ptr} {n : Nat}

theorem mono {k : Nat} (h : SameBytes m m' p p' n) (h_le : k ≤ n) : SameBytes m m' p p' k := fun i hi => h i (by omega)

theorem drop {k : Nat} (h : SameBytes m m' p p' n) (j : Nat) (h_le : j + k ≤ n) : SameBytes m m' (p + j) (p' + j) k := by
  intro i hi
  rw [Ptr.add_add, Ptr.add_add]
  exact h (j + i) (by omega)

theorem byte (h : SameBytes m m' p p' n) (i : Nat) (hi : i < n) : m' (p' + i) = m (p + i) := h i hi

theorem first (h : SameBytes m m' p p' n) (h_pos : 0 < n) : m' p' = m p := h 0 h_pos

theorem be16 (h : SameBytes m m' p p' n) (i : Nat) (hi : i + 2 ≤ n) : be16 m' (p' + i) = be16 m (p + i) := by
  rw [Sniffer.be16, Sniffer.be16, Ptr.add_add, Ptr.add_add, h i (by omega), h (i + 1) (by omega)]

theorem be32 (h : SameBytes m m' p p' n) (i : Nat) (hi : i + 4 ≤ n) : be32 m' (p' + i) = be32 m (p + i) := by
  rw [Sniffer.be32, Sniffer.be32, Ptr.add_add, Ptr.add_add, h.be16 i (by omega), h.be16 (i + 2) (by omega)]

theorem bytesAt (h : SameBytes m m' p p' n) (i k : Nat) (hi : i + k ≤ n) : bytesAt m' (p' + i) k = bytesAt m (p + i) k := by
  refine List.map_congr_left fun j hj => ?_
  have h_j : j < k := List.mem_range.mp hj
  rw [Ptr.add_add, Ptr.add_add]
  exact h (i + j) (by omega)

theorem be16_first (h : SameBytes m m' p p' n) (hn : 2 ≤ n) : Sniffer.be16 m' p' = Sniffer.be16 m p := h.be16 0 hn

theorem be32_first (h : SameBytes m m' p p' n) (hn : 4 ≤ n) : Sniffer.be32 m' p' = Sniffer.be32 m p := h.be32 0 hn

theorem bytesAt_first (h : SameBytes m m' p p' n) (k : Nat) (hn : k ≤ n) : Sniffer.bytesAt m' p' k = Sniffer.bytesAt m p k :=
  h.bytesAt 0 k (by omega)

theorem tcpField (h : SameBytes m m' p p' 18) : tcpField m' p' = tcpField m p := by
  funext f
  simp only [Sniffer.tcpField, h.be16_first (by decide), h.be16 2 (by decide), h.be32 4 (by decide), h.be32 8 (by decide),
    h.byte 12 (by decide), h.byte 13 (by decide), h.be16 14 (by decide), h.be16 16 (by decide)]

theorem udpField (h : SameBytes m m' p p' 8) : udpField m' p' = udpField m p := by
  funext f
  simp only [Sniffer.udpField, h.be16_first (by decide), h.be16 2 (by decide), h.be16 4 (by decide), h.be16 6 (by decide)]

theorem arpField (h : SameBytes m m' p p' 28) : arpField m' p' = arpField m p := by
  funext f
  simp only [Sniffer.arpField, h.be16_first (by decide), h.be16 2 (by decide), h.byte 4 (by decide), h.byte 5 (by decide),
    h.be16 6 (by decide), h.bytesAt 8 6 (by decide), h.bytesAt 14 4 (by decide), h.bytesAt 18 6 (by decide), h.bytesAt 24 4 (by decide)]

/-- The branches of layer 4 see the same when the one taken does. -/
theorem l4Switch {α : Type} {proto : Nat} {a a' b b' c : α} (h_tcp : proto = ipprotoTcp → a = a') (h_udp : proto = ipprotoUdp → b = b') :
    l4Switch proto a b c = l4Switch proto a' b' c := by
  unfold Sniffer.l4Switch
  split
  · next h => exact h_tcp h
  · split
    · next h => exact h_udp h
    · rfl

theorem ipv4Field (h : SameBytes m m' p p' (detailsIpv4Extent m p)) : ipv4Field m' p' = ipv4Field m p := by
  have h_20 : SameBytes m m' p p' 20 := h.mono (Nat.le_max_left _ _)
  have h_hl : ipHeaderLen m' p' = ipHeaderLen m p := by rw [ipHeaderLen, ipHeaderLen, h_20.first (by decide)]
  have h_tcp (h_is : (m (p + 9)).toNat = ipprotoTcp) :
      Sniffer.tcpField m' (p' + ipHeaderLen m p) = Sniffer.tcpField m (p + ipHeaderLen m p) := by
    refine (h.drop _ ?_).tcpField
    rw [detailsIpv4Extent, l4Extent, if_pos h_is, detailsTcpExtent]
    omega
  have h_udp (h_is : (m (p + 9)).toNat = ipprotoUdp) :
      Sniffer.udpField m' (p' + ipHeaderLen m p) = Sniffer.udpField m (p + ipHeaderLen m p) := by
    refine (h.drop _ ?_).udpField
    rw [detailsIpv4Extent, l4Extent, if_neg (h_is ▸ by decide), if_pos h_is]
    omega
  have h_l4 (f : Field) := l4Switch (c := (none : Option Value)) (fun h_is => congrFun (h_tcp h_is) f)
    (fun h_is => congrFun (h_udp h_is) f)
  funext f
  simp only [Sniffer.ipv4Field, h_hl, h_20.first (by decide), h_20.be16 2 (by decide), h_20.be16 4 (by decide), h_20.be16 6 (by decide),
    h_20.byte 8 (by decide), h_20.byte 9 (by decide), h_20.bytesAt 12 4 (by decide), h_20.bytesAt 16 4 (by decide), h_l4]

theorem ipv6Field (h : SameBytes m m' p p' (detailsIpv6Extent m p)) : ipv6Field m' p' = ipv6Field m p := by
  have h_40 : SameBytes m m' p p' 40 := h.mono (Nat.le_add_right _ _)
  have h_tcp (h_is : (m (p + 6)).toNat = ipprotoTcp) : Sniffer.tcpField m' (p' + 40) = Sniffer.tcpField m (p + 40) := by
    refine (h.drop _ ?_).tcpField
    rw [detailsIpv6Extent, l4Extent, if_pos h_is, detailsTcpExtent]
    omega
  have h_udp (h_is : (m (p + 6)).toNat = ipprotoUdp) : Sniffer.udpField m' (p' + 40) = Sniffer.udpField m (p + 40) := by
    refine (h.drop _ ?_).udpField
    exact Nat.le_of_eq (by rw [detailsIpv6Extent, l4Extent, if_neg (h_is ▸ by decide), if_pos h_is])
  have h_l4 (f : Field) := l4Switch (c := (none : Option Value)) (fun h_is => congrFun (h_tcp h_is) f)
    (fun h_is => congrFun (h_udp h_is) f)
  funext f
  simp only [Sniffer.ipv6Field, h_40.be32_first (by decide), h_40.be16 4 (by decide), h_40.byte 6 (by decide), h_40.byte 7 (by decide),
    h_40.bytesAt 8 16 (by decide), h_40.bytesAt 24 16 (by decide), h_l4]

/-- The header behind Ethernet sees the same. -/
theorem l3 (h : SameBytes m m' p p' (headersExtent m p)) :
    (Sniffer.be16 m (p + 12) = ethertypeIp → SameBytes m m' (p + 14) (p' + 14) (detailsIpv4Extent m (p + 14))) ∧
    (Sniffer.be16 m (p + 12) = ethertypeIpv6 → SameBytes m m' (p + 14) (p' + 14) (detailsIpv6Extent m (p + 14))) ∧
    (Sniffer.be16 m (p + 12) = ethertypeArp → SameBytes m m' (p + 14) (p' + 14) 28) := by
  have h_ext : headersExtent m p =
      14 + l3Switch (Sniffer.be16 m (p + 12)) (detailsIpv4Extent m (p + 14)) (detailsIpv6Extent m (p + 14)) 28 0 := rfl
  refine ⟨fun h_is => h.drop 14 (Nat.le_of_eq ?_), fun h_is => h.drop 14 (Nat.le_of_eq ?_), fun h_is => h.drop 14 (Nat.le_of_eq ?_)⟩
  · rw [h_ext, l3Switch_ip _ _ _ _ h_is]
  · rw [h_ext, l3Switch_ipv6 _ _ _ _ h_is]
  · rw [h_ext, l3Switch_arp _ _ _ _ h_is]

theorem l3Switch {α : Type} {type : Nat} {a a' b b' c c' d : α} (h_ip : type = ethertypeIp → a = a')
    (h_ip6 : type = ethertypeIpv6 → b = b') (h_arp : type = ethertypeArp → c = c') :
    l3Switch type a b c d = l3Switch type a' b' c' d := by
  unfold Sniffer.l3Switch
  split
  · next h => exact h_ip h
  · split
    · next h => exact h_ip6 h
    · split
      · next h => exact h_arp h
      · rfl

/-- What a frame says lies in its headers. -/
theorem frameField (h : SameBytes m m' p p' (headersExtent m p)) : frameField m' p' = frameField m p := by
  have h_14 : SameBytes m m' p p' 14 := h.mono (Nat.le_add_right _ _)
  obtain ⟨h_ip, h_ip6, h_arp⟩ := h.l3
  have h_l3 (f : Field) := l3Switch (d := (none : Option Value)) (fun h_is => congrFun (h_ip h_is).ipv4Field f)
    (fun h_is => congrFun (h_ip6 h_is).ipv6Field f) (fun h_is => congrFun (h_arp h_is).arpField f)
  funext f
  simp only [Sniffer.frameField, h_14.bytesAt_first 6 (by decide), h_14.bytesAt 6 6 (by decide), h_14.be16 12 (by decide), h_l3]

theorem framePath (h : SameBytes m m' p p' (headersExtent m p)) : framePath m' p' = framePath m p := by
  have h_14 : SameBytes m m' p p' 14 := h.mono (Nat.le_add_right _ _)
  obtain ⟨h_ip, h_ip6, -⟩ := h.l3
  rw [Sniffer.framePath, Sniffer.framePath, h_14.be16 12 (by decide)]
  refine l3Switch (fun h_is => ?_) (fun h_is => ?_) (fun _ => rfl)
  · have h_proto := ((h_ip h_is).mono (Nat.le_max_left 20 _)).byte 9 (by decide)
    rw [Ptr.add_add, Ptr.add_add] at h_proto
    rw [h_proto]
  · have h_proto := ((h_ip6 h_is).mono (Nat.le_add_right 40 _)).byte 6 (by decide)
    rw [Ptr.add_add, Ptr.add_add] at h_proto
    rw [h_proto]

end SameBytes

end Xv6SnifferBakery.Sniffer
