import AntNet.L1Packet.Layout

/-!
# The ant header has no slot in the packet

The C++ header class is `PacketHeader/Ant` (antnet.cc:46-51), but the
registration list names `Antnet` (tcl/lib/ns-packet.tcl:173), so `tab_` has
`PacketHeader/Antnet` and no `PacketHeader/Ant`. `create_packetformat` passes
over a class that is not in `tab_` (tcl/lib/ns-packet.tcl:198): the ant header
gets no slot, and `hdr_ant_pkt::offset_` stays 0, the base of the first header
that has one. The other ns-2 headers are registered under the name of their
C++ class (`PacketHeader/IP` as `IP`).

What is broken: `HDR_ANT_PKT` writes over that first header.

Counterexample: the common, IP and ant headers (`antHeader_overlaps`).

Condition: never met, for no list of classes (`antHeader_unsafe`).

Fix: register `Ant` as well (`antHeader_safe_registered`).
-/
namespace AntNet.Bugs.HeaderSlot

open AntNet.L1

/-- `class_rtProtoAnt_hdr`, for a given `sizeof(hdr_ant_pkt)`.
mirrors antnet.cc:46-51 -/
def antHeaderClass (size : Nat) : HdrClass := ⟨"PacketHeader/Ant", size⟩

theorem ant_not_registered : "PacketHeader/Ant" ∉ defaultTab :=
  (mem_defaultTab "Ant").not.mpr (by decide +kernel)

/-- **Counterexample**: the common header has the slot at 0 and the ant header
has `offset_` 0 too. -/
theorem antHeader_overlaps : ¬ HeaderSafe defaultTab
    [⟨"PacketHeader/Common", 96⟩, ⟨"PacketHeader/IP", 28⟩, antHeaderClass 288]
    (antHeaderClass 288) := by
  have hcommon : "PacketHeader/Common" ∈ defaultTab :=
    (mem_defaultTab "Common").mpr (by decide +kernel)
  have hip : "PacketHeader/IP" ∈ defaultTab := (mem_defaultTab "IP").mpr (by decide +kernel)
  rintro ⟨-, hdisj⟩
  have hslot := hdisj ⟨"PacketHeader/Common", 96⟩ 0 (by
    simp [createPacketformat, allocate, allochdr, hcommon, hip, ant_not_registered,
      antHeaderClass]) (by decide)
  rw [(laid_createPacketformat ..).unset (antHeaderClass 288).name ant_not_registered,
    RangeDisjoint] at hslot
  revert hslot
  decide

/-- **When the header is safe**: for no list of classes. The ant header meets
another header's slot, or lies outside the packet. -/
theorem antHeader_unsafe (classes : List HdrClass) (size : Nat)
    (hpos : ∀ c ∈ classes, 0 < c.size) (h : antHeaderClass size ∈ classes) :
    ¬ HeaderSafe defaultTab classes (antHeaderClass size) :=
  not_headerSafe hpos h ant_not_registered

/-- The ant header before the common header. -/
theorem antHeader_unsafe_common :
    ¬ HeaderSafe defaultTab [antHeaderClass 288, ⟨"PacketHeader/Common", 96⟩] (antHeaderClass 288) :=
  antHeader_unsafe _ 288 (by decide) (by decide)

/-! ## Fixed: `Ant` in the registration list -/

/-- **Fix meets spec**: with `add-packet-header Ant` the ant header is safe in
every list of classes that lists each name once. -/
theorem antHeader_safe_registered {classes : List HdrClass} (size : Nat)
    (hnd : (classes.map (·.name)).Nodup) (h : antHeaderClass size ∈ classes) :
    HeaderSafe (addPacketHeader defaultTab ["Ant"]) classes (antHeaderClass size) :=
  headerSafe_of_registered hnd h
    (List.mem_append.mpr (.inr (List.mem_map.mpr ⟨"Ant", List.mem_singleton_self _, rfl⟩)))

end AntNet.Bugs.HeaderSlot
