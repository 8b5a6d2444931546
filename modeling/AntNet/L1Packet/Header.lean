import Mathlib.Data.List.Basic

/-!
# The ant packet

The headers an ant carries, as far as the agent reads and writes them: the
common header (`hdr_cmn`, common/packet.h), the IP header and the ant header
(`hdr_ant_pkt`, ant_pkt.h). `double` is the type `K`; addresses are the integers
`nsaddr_t`.

`pkt_memory_` is the array of `MAX_NUM_NODES` entries it is in the source; the
entries from `pkt_mem_size_` on are left over from loops that were cut, or
never written. `trail` is the live part, `path` its node addresses. The
lemmas say what the writes of `Antnet::memorize` do to the live part.
-/
namespace AntNet.L1

abbrev Nsaddr := Int

/-- mirrors antnet_common.h:54 -/
def MAX_NUM_NODES : Nat := 16

/-- mirrors ant_pkt.h:42-47 -/
def FORWARD_ANT : UInt8 := 0x01
def BACKWARD_ANT : UInt8 := 0x02
def ANT_SIZE : UInt16 := 7

/-- mirrors common/packet.h:51,186 -/
def RT_PORT : Int := 255
def PT_ANT : Nat := 62

/-- mirrors trace/cmu-trace.h:80 -/
def DROP_RTR_ROUTE_LOOP : String := "LOOP"

/-- mirrors `hdr_cmn::dir_t`, common/packet.h -/
inductive Dir where
  | DOWN | NONE | UP
  deriving DecidableEq, Repr

/-- mirrors `ns_af_enum`, common/packet.h -/
inductive NsAf where
  | NONE | ILINK | INET
  deriving DecidableEq, Repr

/-- mirrors `struct memory`, ant_pkt.h:56-59 -/
structure Memory (K : Type) where
  nodeAddr : Nsaddr
  tripTime : K
  deriving DecidableEq, Repr

/-- mirrors `hdr_ant_pkt`, ant_pkt.h:64-88 -/
structure HdrAntPkt (K : Type) where
  pktType : UInt8
  pktSrc : Nsaddr
  pktDst : Nsaddr
  pktLen : UInt16
  pktSeqNum : UInt8
  pktStartTime : K
  pktMemory : Vector (Memory K) MAX_NUM_NODES
  pktMemSize : Int
  deriving DecidableEq

/-- The fields of `hdr_cmn` the agent uses. -/
structure HdrCmn where
  ptype : Nat
  size : Int
  uid : Nat
  error : Int
  direction : Dir
  nextHop : Nsaddr
  addrType : NsAf
  numForwards : Int
  deriving DecidableEq, Repr

/-- The fields of `hdr_ip` the agent uses. -/
structure HdrIp where
  saddr : Nsaddr
  daddr : Nsaddr
  sport : Int
  dport : Int
  ttl : Int
  deriving DecidableEq, Repr

structure Packet (K : Type) where
  cmn : HdrCmn
  ip : HdrIp
  ant : HdrAntPkt K
  deriving DecidableEq

variable {K : Type}

/-! ## The live memory -/

/-- The first `sz` entries of the array. -/
def liveMem (mem : Vector (Memory K) MAX_NUM_NODES) (sz : Int) : List (Memory K) :=
  mem.toList.take sz.toNat

namespace Packet

def trail (p : Packet K) : List (Memory K) := liveMem p.ant.pktMemory p.ant.pktMemSize

def path (p : Packet K) : List Nsaddr := p.trail.map (·.nodeAddr)

/-- The same packet with another memory. -/
def withMemory (p : Packet K) (mem : Vector (Memory K) MAX_NUM_NODES) (sz : Int) : Packet K :=
  { p with ant := { p.ant with pktMemory := mem, pktMemSize := sz } }

@[simp] theorem withMemory_cmn (p : Packet K) (mem : Vector (Memory K) MAX_NUM_NODES) (sz : Int) :
    (p.withMemory mem sz).cmn = p.cmn := rfl

@[simp] theorem withMemory_ip (p : Packet K) (mem : Vector (Memory K) MAX_NUM_NODES) (sz : Int) :
    (p.withMemory mem sz).ip = p.ip := rfl

@[simp] theorem withMemory_trail (p : Packet K) (mem : Vector (Memory K) MAX_NUM_NODES) (sz : Int) :
    (p.withMemory mem sz).trail = liveMem mem sz := rfl

@[simp] theorem withMemory_mem (p : Packet K) (mem : Vector (Memory K) MAX_NUM_NODES) (sz : Int) :
    (p.withMemory mem sz).ant.pktMemory = mem := rfl

@[simp] theorem withMemory_size (p : Packet K) (mem : Vector (Memory K) MAX_NUM_NODES) (sz : Int) :
    (p.withMemory mem sz).ant.pktMemSize = sz := rfl

@[simp] theorem withMemory_withMemory (p : Packet K) (mem mem' : Vector (Memory K) MAX_NUM_NODES)
    (sz sz' : Int) : (p.withMemory mem sz).withMemory mem' sz' = p.withMemory mem' sz' := rfl

/-- The size field counts entries of the array. -/
def SizeOk (p : Packet K) : Prop := 0 ≤ p.ant.pktMemSize ∧ p.ant.pktMemSize ≤ MAX_NUM_NODES

end Packet

theorem liveMem_length {mem : Vector (Memory K) MAX_NUM_NODES} {sz : Int} (h0 : 0 ≤ sz)
    (h1 : sz ≤ MAX_NUM_NODES) : ((liveMem mem sz).length : Int) = sz := by
  simp only [liveMem, List.length_take, Vector.length_toList]
  omega

theorem liveMem_getElem? {mem : Vector (Memory K) MAX_NUM_NODES} {sz : Int} {i : Nat}
    (hi : (i : Int) < sz) (h : i < MAX_NUM_NODES) : (liveMem mem sz)[i]? = some mem[i] := by
  simp only [liveMem, List.getElem?_take]
  rw [if_pos (by omega), List.getElem?_eq_getElem (by simpa using h)]
  simp

/-- Writing an entry of the live part. -/
theorem liveMem_set {mem : Vector (Memory K) MAX_NUM_NODES} {sz : Int} {i : Nat}
    (h : i < MAX_NUM_NODES) (m : Memory K) :
    liveMem (mem.set i m) sz = (liveMem mem sz).set i m := by
  unfold liveMem
  rw [Vector.toList_set, List.take_set]

/-- Writing the entry behind the live part and counting it appends it. -/
theorem liveMem_push {mem : Vector (Memory K) MAX_NUM_NODES} {n : Nat} (h : n < MAX_NUM_NODES)
    (m : Memory K) : liveMem (mem.set n m) (n + 1 : Nat) = liveMem mem n ++ [m] := by
  have hn : n < mem.toList.length := by simpa using h
  simp only [liveMem, Vector.toList_set, Int.toNat_natCast]
  rw [List.take_succ_eq_append_getElem (by simpa using h), List.take_set_of_le (Nat.le_refl n)]
  simp

/-- Shrinking the size keeps a prefix. -/
theorem liveMem_shrink {mem : Vector (Memory K) MAX_NUM_NODES} {sz sz' : Int} (h : sz' ≤ sz) :
    liveMem mem sz' = (liveMem mem sz).take sz'.toNat := by
  simp only [liveMem, List.take_take]
  congr 1; omega

namespace Packet

theorem trail_length {p : Packet K} (h : p.SizeOk) : (p.trail.length : Int) = p.ant.pktMemSize :=
  liveMem_length h.1 h.2

theorem path_length {p : Packet K} (h : p.SizeOk) : (p.path.length : Int) = p.ant.pktMemSize := by
  unfold path
  rw [List.length_map]
  exact trail_length h

/-- The array's entry at a live index is the trail's. -/
theorem trail_getElem? (p : Packet K) (hs : p.SizeOk) {i : Nat} (hi : (i : Int) < p.ant.pktMemSize) :
    ∃ h : i < MAX_NUM_NODES, p.trail[i]? = some p.ant.pktMemory[i] := by
  have hm : i < MAX_NUM_NODES := by have := hs.2; omega
  exact ⟨hm, liveMem_getElem? hi hm⟩

theorem path_getElem? (p : Packet K) {i : Nat} {m : Memory K} (h : p.trail[i]? = some m) :
    p.path[i]? = some m.nodeAddr := by
  unfold path
  rw [List.getElem?_map, h, Option.map_some]

end Packet

end AntNet.L1
