import Mathlib.Data.List.Induction
import Mathlib.Data.List.Nodup
import Mathlib.Logic.Function.Basic

/-!
# The packet header layout

`create_packetformat` gives every registered header class a slot in the packet
(`tcl/lib/ns-packet.tcl`), one after the other, and writes the slot's offset
to the class's C++ `offset_`. A class is registered when the table `tab_` has
an entry of its name; the `offset_` of any other class stays 0, its static
value.

* `slots_pairwise`, `slots_inside`: for every table and every list of classes
  the slots follow each other inside `hdrlen_`.
* `headerSafe_iff_registered`: a header may be written at its `offset_` if and
  only if its class is registered.

`addPacketHeader` applied to the words of the `foreach` list is the default
table (`mem_defaultTab`). The list is a braced word, where `#` starts no
comment, so what looks like comments in it registers names as well.
-/
namespace AntNet.L1

/-- A subclass of `PacketHeader`: its name and its `hdrlen_`. -/
structure HdrClass where
  name : String
  size : Nat
  deriving DecidableEq, Repr

/-- `hdrlen_`, the classes' C++ `offset_`s, and the slots handed out. -/
structure PacketFormat where
  hdrlen : Nat
  offset : String → Nat
  slots : List (HdrClass × Nat)

/-- mirrors tcl/lib/ns-packet.tcl:210 -/
def NS_ALIGN : Nat := 8

/-- The base of the slot and the new `hdrlen_`; `& ~7` rounds down to a
multiple of 8.
mirrors tcl/lib/ns-packet.tcl:206-218 -/
def allochdr (hdrlen size : Nat) : Nat × Nat :=
  let incr := (size + (NS_ALIGN - 1)) / NS_ALIGN * NS_ALIGN
  (hdrlen, hdrlen + incr)

/-- The body of the loop of `create_packetformat`.
mirrors tcl/lib/ns-packet.tcl:198-201 -/
def allocate (tab : List String) (f : PacketFormat) (cl : HdrClass) : PacketFormat :=
  if cl.name ∈ tab then
    let (off, len) := allochdr f.hdrlen cl.size
    { hdrlen := len
      offset := Function.update f.offset cl.name off
      slots := f.slots ++ [(cl, off)] }
  else f

/-- mirrors tcl/lib/ns-packet.tcl:194-204 -/
def createPacketformat (tab : List String) (classes : List HdrClass) : PacketFormat :=
  classes.foldl (allocate tab) ⟨0, fun _ => 0, []⟩

/-- mirrors tcl/lib/ns-packet.tcl:77-81 -/
def addPacketHeader (tab : List String) (args : List String) : List String :=
  tab ++ args.map ("PacketHeader/" ++ ·)

/-- The words of the registration list.
mirrors tcl/lib/ns-packet.tcl:113-178 -/
def prots : List String :=
  ["#", "Common:", "Common", "Flags", "IP", "#", "IP", "#", "Routing", "Protocols:", "NV", "#",
    "NixVector", "classifier", "for", "stateless", "routing", "rtProtoDV", "#", "distance",
    "vector", "routing", "protocol", "rtProtoLS", "#", "link", "state", "routing", "protocol",
    "SR", "#", "source", "routing,", "dsr/hdr_sr.cc", "Src_rt", "#", "source", "routing,",
    "src_rtg/hdr_src.cc", "#", "Routers:", "LDP", "#", "mpls/ldp.cc", "MPLS", "#", "MPLS,",
    "MultiProtocol", "Label", "Switching", "Resv", "#", "Token", "buckets,", "for",
    "reservations.", "UMP", "#", "Admission", "control,", "adc/ump.cc", "Pushback", "#",
    "Pushback,", "router-to-router", "#", "Multicast:", "aSRM", "#", "mcast/srm.cc", "CtrMcast",
    "#", "Centralized", "Multicast", "routing", "mcastCtrl", "#", "mcast/mcast_ctrl.cc", "MFTP",
    "#", "Multicast", "File", "Transfer", "Protocol", "PGM", "#", "PGM", "multicast", "PGM_SPM",
    "#", "PGM", "multicast", "PGM_NAK", "#", "PGM", "multicast", "SRM", "#", "SRM,", "multicast",
    "SRMEXT", "#", "SRM,", "multicast", "#", "Transport", "Protocols", "and", "related",
    "protocols:", "HttpInval", "#", "HTTP", "IVS", "#", "Inria", "video", "conferencing",
    "system", "QS", "#", "Quick-Start", "RAP", "#", "Rate", "Adaption", "Protocol,", "transport",
    "protocol.", "RTP", "#", "RTP.", "Also", "used", "for", "UPD", "traffic.", "SCTP", "#",
    "SCTP,", "transport", "protocol", "Snoop", "#", "tcp/snoop.cc", "TCP", "#", "TCP,",
    "transport", "protocol", "TCPA", "#", "Asymmetric", "TCP,", "transport", "protocol", "TFRC",
    "#", "TFRC,", "transport", "protocol", "TFRC_ACK", "#", "TFRC,", "transport", "protocol",
    "XCP", "#", "XCP,", "transport", "protocol", "#", "Application-Layer", "Protocols:",
    "Message", "#", "a", "protocol", "to", "carry", "text", "messages", "Ping", "#", "Ping",
    "PBC", "#", "PBC", "#", "Wireless:", "ARP", "#", "Address", "Resolution", "Protocol,",
    "network", "wireless", "stack", "GAF", "#", "Geographic", "Adaptive", "Delity,", "for",
    "ad-hoc", "networks", "LL", "#", "network", "wireless", "stack", "LRWPAN", "#", "zheng,",
    "wpan/p802_15_4mac.cc", "Mac", "#", "network", "wireless", "stack", "#", "Mobility,",
    "Ad-Hoc", "Networks,", "Sensor", "Nets:", "AODV", "#", "routing", "protocol", "for",
    "ad-hoc", "networks", "Diffusion", "#", "diffusion/diffusion.cc", "IMEP", "#", "Internet",
    "MANET", "Encapsulation", "Protocol,", "for", "ad-hoc", "networks", "MIP", "#", "Mobile",
    "IP,", "mobile/mip-reg.cc", "Smac", "#", "Sensor-MAC", "TORA", "#", "routing", "protocol",
    "for", "ad-hoc", "networks", "#", "AOMDV", "patch", "AOMDV", "#", "ANTNET", "patch",
    "Antnet", "#", "Other:", "Encap", "#", "common/encap.cc", "IPinIP", "#", "IP",
    "encapsulation", "HDLC", "#", "High", "Level", "Data", "Link", "Control"]

/-- `tab_` after the registration loop; `tab_(Common)` is set before it.
mirrors tcl/lib/ns-packet.tcl:75,113-180 -/
def defaultTab : List String := prots.foldl (fun tab prot => addPacketHeader tab [prot]) ["Common"]

/-- The loop registers the names of its words, and nothing else. -/
theorem mem_registered (tab words : List String) (name : String) :
    name ∈ words.foldl (fun tab prot => addPacketHeader tab [prot]) tab ↔
      name ∈ tab ∨ ∃ w ∈ words, "PacketHeader/" ++ w = name := by
  induction words generalizing tab with
  | nil => simp
  | cons w words ih =>
    rw [List.foldl_cons, ih, addPacketHeader]
    simp [or_assoc, eq_comm]

theorem mem_defaultTab (cl : String) : "PacketHeader/" ++ cl ∈ defaultTab ↔ cl ∈ prots := by
  unfold defaultTab
  rw [mem_registered]
  constructor
  · rintro (h | ⟨w, hw, he⟩)
    · have hlen := congrArg String.length (List.mem_singleton.mp h)
      rw [String.length_append] at hlen
      have : "PacketHeader/".length = 13 := by decide
      have : "Common".length = 6 := by decide
      omega
    · exact (String.append_right_inj _).mp he ▸ hw
  · exact fun h => .inr ⟨cl, h, rfl⟩

/-- Two byte ranges, each a base and a length, do not meet. -/
def RangeDisjoint (b₁ n₁ b₂ n₂ : Nat) : Prop := b₁ + n₁ ≤ b₂ ∨ b₂ + n₂ ≤ b₁

/-- The bytes at the class's `offset_` are inside the packet, and belong to no
other header that was given a slot. -/
def HeaderSafe (tab : List String) (classes : List HdrClass) (cl : HdrClass) : Prop :=
  (createPacketformat tab classes).offset cl.name + cl.size ≤ (createPacketformat tab classes).hdrlen ∧
    ∀ c b, (c, b) ∈ (createPacketformat tab classes).slots → c.name ≠ cl.name →
      RangeDisjoint ((createPacketformat tab classes).offset cl.name) cl.size b c.size

/-! ## What the allocation loop keeps -/

/-- `f` came out of the loop on `classes`. -/
structure Laid (tab : List String) (classes : List HdrClass) (f : PacketFormat) : Prop where
  slots : f.slots.map Prod.fst = classes.filter (·.name ∈ tab)
  inside : ∀ c b, (c, b) ∈ f.slots → b + c.size ≤ f.hdrlen
  follow : f.slots.Pairwise fun x y => x.2 + x.1.size ≤ y.2
  base : ∀ x, f.slots.head? = some x → x.2 = 0
  empty : f.slots = [] → f.hdrlen = 0
  unset : ∀ name, name ∉ tab → f.offset name = 0
  offset : ((f.slots.map Prod.fst).map (·.name)).Nodup → ∀ c b, (c, b) ∈ f.slots → f.offset c.name = b

theorem allochdr_room (hdrlen size : Nat) : hdrlen + size ≤ (allochdr hdrlen size).2 := by
  simp only [allochdr, NS_ALIGN]
  omega

theorem laid_nil (tab : List String) : Laid tab [] ⟨0, fun _ => 0, []⟩ :=
  ⟨rfl, nofun, .nil, nofun, fun _ => rfl, fun _ _ => rfl, nofun⟩

theorem laid_skip {tab : List String} {classes : List HdrClass} {f : PacketFormat} {cl : HdrClass}
    (h : Laid tab classes f) (hcl : cl.name ∉ tab) : Laid tab (classes ++ [cl]) f :=
  { h with slots := by simp [h.slots, hcl] }

/-- A registered class gets the next slot. -/
theorem laid_place {tab : List String} {classes : List HdrClass} {f : PacketFormat} {cl : HdrClass}
    (h : Laid tab classes f) (hcl : cl.name ∈ tab) :
    Laid tab (classes ++ [cl]) ⟨(allochdr f.hdrlen cl.size).2,
      Function.update f.offset cl.name f.hdrlen, f.slots ++ [(cl, f.hdrlen)]⟩ := by
  have hroom := allochdr_room f.hdrlen cl.size
  refine ⟨by simp [h.slots, hcl], ?_, ?_, ?_, ?_, ?_, ?_⟩
  · intro c b hm
    rcases List.mem_append.mp hm with h0 | h1
    · have := h.inside c b h0
      dsimp only; omega
    · cases List.mem_singleton.mp h1
      exact hroom
  · refine List.pairwise_append.mpr ⟨h.follow, List.pairwise_singleton .., ?_⟩
    intro x hx y hy
    rw [List.mem_singleton.mp hy]
    exact h.inside x.1 x.2 hx
  · intro x hx
    rw [List.head?_append] at hx
    cases h0 : f.slots.head? with
    | none =>
      rw [h0] at hx
      cases hx
      exact h.empty (List.head?_eq_none_iff.mp h0)
    | some y => rw [h0] at hx; cases hx; exact h.base _ h0
  · intro he
    simp at he
  · intro name hn
    have hne : name ≠ cl.name := fun he => hn (he ▸ hcl)
    dsimp only
    rw [Function.update_of_ne hne]
    exact h.unset name hn
  · intro hnd c b hm
    simp only [List.map_append, List.map_cons, List.map_nil] at hnd
    obtain ⟨hnd0, -, hdisj⟩ := List.nodup_append.mp hnd
    rcases List.mem_append.mp hm with h0 | h1
    · have hne : c.name ≠ cl.name := hdisj _ (List.mem_map.mpr ⟨c, List.mem_map.mpr ⟨_, h0, rfl⟩, rfl⟩)
        _ (List.mem_singleton_self _)
      dsimp only
      rw [Function.update_of_ne hne]
      exact h.offset hnd0 c b h0
    · cases List.mem_singleton.mp h1
      exact Function.update_self ..

theorem laid_createPacketformat (tab : List String) (classes : List HdrClass) :
    Laid tab classes (createPacketformat tab classes) := by
  induction classes using List.reverseRecOn with
  | nil => exact laid_nil tab
  | append_singleton classes cl ih =>
    unfold createPacketformat at ih ⊢
    rw [List.foldl_append, List.foldl_cons, List.foldl_nil]
    unfold allocate
    split
    · rename_i hcl
      exact laid_place ih hcl
    · rename_i hcl
      exact laid_skip ih hcl

/-- **Slots follow each other.** -/
theorem slots_pairwise (tab : List String) (classes : List HdrClass) :
    (createPacketformat tab classes).slots.Pairwise fun x y => x.2 + x.1.size ≤ y.2 :=
  (laid_createPacketformat tab classes).follow

/-- **Slots are inside the packet.** -/
theorem slots_inside (tab : List String) (classes : List HdrClass) {c : HdrClass} {b : Nat}
    (h : (c, b) ∈ (createPacketformat tab classes).slots) :
    b + c.size ≤ (createPacketformat tab classes).hdrlen :=
  (laid_createPacketformat tab classes).inside c b h

/-! ## Registered and unregistered classes -/

section Safe

variable {tab : List String} {classes : List HdrClass} {cl : HdrClass}

/-- An unregistered class writes over the first header there is, or outside
the packet. -/
theorem not_headerSafe (hpos : ∀ c ∈ classes, 0 < c.size) (hcl : cl ∈ classes) (h : cl.name ∉ tab) :
    ¬ HeaderSafe tab classes cl := by
  rintro ⟨hin, hdisj⟩
  have hl := laid_createPacketformat tab classes
  have hsize := hpos cl hcl
  rw [hl.unset _ h] at hin hdisj
  cases hs : (createPacketformat tab classes).slots with
  | nil => rw [hl.empty hs] at hin; omega
  | cons x rest =>
    have hx : x ∈ (createPacketformat tab classes).slots := by rw [hs]; exact List.mem_cons_self
    have hb : x.2 = 0 := hl.base x (by rw [hs]; rfl)
    have hmem : x.1 ∈ classes.filter (·.name ∈ tab) := by
      rw [← hl.slots]; exact List.mem_map.mpr ⟨x, hx, rfl⟩
    obtain ⟨hxc, hxt⟩ := List.mem_filter.mp hmem
    have hxpos := hpos x.1 hxc
    have hne : x.1.name ≠ cl.name := fun he => h (he ▸ by simpa using hxt)
    have := hdisj x.1 x.2 hx hne
    rw [hb, RangeDisjoint] at this
    omega

/-- A registered class has a slot of its own. -/
theorem headerSafe_of_registered (hnd : (classes.map (·.name)).Nodup) (hcl : cl ∈ classes)
    (h : cl.name ∈ tab) : HeaderSafe tab classes cl := by
  have hl := laid_createPacketformat tab classes
  have hnames : ((createPacketformat tab classes).slots.map Prod.fst |>.map (·.name)).Nodup := by
    rw [hl.slots]
    exact hnd.sublist (List.filter_sublist.map _)
  have hmem : cl ∈ (createPacketformat tab classes).slots.map Prod.fst := by
    rw [hl.slots]; exact List.mem_filter.mpr ⟨hcl, by simpa using h⟩
  obtain ⟨⟨c, b⟩, hslot, he⟩ := List.mem_map.mp hmem
  dsimp only at he
  subst he
  have hoff := hl.offset hnames c b hslot
  refine ⟨by rw [hoff]; exact hl.inside c b hslot, ?_⟩
  intro c' b' hslot' hne
  rw [hoff, RangeDisjoint]
  have hapart : ∀ ⦃x⦄, x ∈ (createPacketformat tab classes).slots →
      ∀ ⦃y⦄, y ∈ (createPacketformat tab classes).slots →
      x = y ∨ x.2 + x.1.size ≤ y.2 ∨ y.2 + y.1.size ≤ x.2 := by
    apply List.Pairwise.forall_of_forall_of_flip
    · exact fun x _ => .inl rfl
    · exact hl.follow.imp fun hxy => .inr (.inl hxy)
    · exact hl.follow.imp fun hxy => .inr (.inr hxy)
  rcases hapart hslot hslot' with he | h1
  · exact absurd (congrArg (fun x => x.1.name) he).symm hne
  · exact h1

/-- **A header is safe exactly when its class is registered.** -/
theorem headerSafe_iff_registered (hpos : ∀ c ∈ classes, 0 < c.size)
    (hnd : (classes.map (·.name)).Nodup) (hcl : cl ∈ classes) :
    HeaderSafe tab classes cl ↔ cl.name ∈ tab :=
  ⟨fun hs => Classical.byContradiction fun h => not_headerSafe hpos hcl h hs,
    headerSafe_of_registered hnd hcl⟩

end Safe

end AntNet.L1
