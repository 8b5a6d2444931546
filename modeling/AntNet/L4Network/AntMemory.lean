import AntNet.L4Network.Links

/-!
# The memory of an ant in flight

* `ant_memory`: the contract of everything that indexes `pkt_memory_`, in
  every reachable state.
* `memory_loop_erased`: the addresses in the memory are the last-exit loop
  erasure of the walk.
-/
namespace AntNet.L4

open AntNet.L1 AntNet.L2 AntNet.L3 AntNet.LoopErasure

variable {K : Type}

/-- What holds of an ant `p` in flight. `v` is the visit of the node that
generated it, the first handler that ran on it. -/
structure AntMemory (s : Net K) (p : Packet K) : Prop where
  size : 1 ≤ p.ant.pktMemSize ∧ p.ant.pktMemSize ≤ MAX_NUM_NODES
  distinct : p.path.Nodup
  entry0 : ∃ v, (s.hist p.cmn.uid).head? = some v ∧ p.path.head? = some v.node
  links : ∀ j x y, p.path[j]? = some x → p.path[j + 1]? = some y → y ∈ s.neighborList x
  heading : p.cmn.direction = .DOWN ∨ p.cmn.direction = .UP
  down : p.cmn.direction = .DOWN →
    p.path.getLast? = some p.ip.saddr ∧ p.path.head? = some p.ant.pktSrc ∧
      p.ant.pktDst ∉ p.path ∧ p.ip.daddr ∈ s.neighborList p.ip.saddr ∧ p.ip.daddr ≠ p.ip.saddr
  up : p.cmn.direction = .UP →
    2 ≤ p.ant.pktMemSize ∧ p.path.getLast? = some p.ant.pktSrc ∧
      p.path.head? = some p.ant.pktDst ∧
      ∃ j, p.path[j]? = some p.ip.daddr ∧ p.path[j + 1]? = some p.ip.saddr

section Step

variable [Arithmetic K] [LinearOrder K] {addNb : List Nsaddr → Nsaddr → List Nsaddr} {s s' : Net K}
  {l : Act K} {p : Packet K}

omit [Arithmetic K] [LinearOrder K] in
theorem antMemory_of_wellFormed {v : Visit K} (hv : (s.hist p.cmn.uid).head? = some v)
    (h : WellFormed (fun x y => y ∈ s.neighborList x) v.node p) : AntMemory s p := by
  have hlen := p.path_length h.size
  refine ⟨⟨h.one_le_size, h.size.2⟩, h.nodup, ⟨v, hv, h.head⟩, h.links,
    h.heading.imp (·.1) (·.1), ?_, ?_⟩
  · intro hd
    have ho := h.outbound hd
    exact ⟨ho.last, ho.src, ho.dst, ho.link, ho.ne⟩
  · intro hu
    have hh := h.homebound hu
    obtain ⟨j, hj, hj1⟩ := hh.between
    have hlt := (List.getElem?_eq_some_iff.mp hj1).1
    exact ⟨by omega, hh.last, hh.dst, j, hj, hj1⟩

/-- **The ant memory invariant.** -/
theorem ant_memory (hk : OnlyAdds addNb) (h : (net addNb).Reachable s) :
    ∀ p ∈ s.inFlight, AntMemory s p := by
  intro p hp
  obtain ⟨v, hv, hw⟩ := (inv_reachable h).ants p hp
  exact antMemory_of_wellFormed hv (hw.mono (routes_neighbor hk h))

end Step

/-- An ant from 0 to 2, on its way back. -/
theorem ant_memory_line : ∃ s : Net ℚ, (net prependNb).Reachable s ∧
    s.inFlight.map (·.path) = [[0, 1, 2]] ∧ ∀ p ∈ s.inFlight, AntMemory s p := by
  have hrun : (runActs prependNb Net.boot (lineUp ++ [.expire 0 (idle [0, 2]), .deliver 0 0 9 (idle []),
      .deliver 0 0 9 (idle [])] : List (Act ℚ))).map (fun s => s.inFlight.map (·.path)) =
      some [[0, 1, 2]] := by decide +kernel
  obtain ⟨s, hs, hp⟩ := Option.map_eq_some_iff.mp hrun
  have hr := runActs_reachable boot_initial hs
  exact ⟨s, hr, hp, ant_memory prependNb_onlyAdds hr⟩

/-! ## The walk -/

section Walk

variable [Arithmetic K] [LinearOrder K] {addNb : List Nsaddr → Nsaddr → List Nsaddr} {s : Net K}

/-- **The memory is the loop-erased walk**: for any ant in flight, whatever
the length of its walk and however often it came back to a node; no other list
fits the description. -/
theorem memory_loop_erased (h : (net addNb).Reachable s) :
    ∀ p ∈ s.inFlight, LastExit (walk (s.hist p.cmn.uid)) p.path ∧
      ∀ m, LastExit (walk (s.hist p.cmn.uid)) m → m = p.path := by
  intro p hp
  have hlast : LastExit (walk (s.hist p.cmn.uid)) p.path := by
    rw [(inv_reachable h).walk p hp]
    exact lastExit_loopErase _
  exact ⟨hlast, fun m hm => lastExit_unique hm hlast⟩

end Walk

/-- An ant that went 0, 1, 2, 0 around a triangle. -/
theorem memory_loop_erased_triangle : ∃ s : Net ℚ, (net prependNb).Reachable s ∧
    s.inFlight.map (fun p => (walk (s.hist p.cmn.uid), p.path)) = [([0, 1, 2, 0], [0])] ∧
    ∀ p ∈ s.inFlight, LastExit (walk (s.hist p.cmn.uid)) p.path := by
  have hrun : (runActs prependNb Net.boot ([.setNumNodes 0 4, .setNumNodes 1 4, .setNumNodes 2 4,
      .addNeighbor 2 0, .addNeighbor 1 2, .addNeighbor 0 1, .start 0, .start 1, .start 2,
      .expire 0 (idle [3]), .deliver 0 0 9 (idle []), .deliver 0 0 9 (idle []),
      .deliver 0 0 9 (idle [])] : List (Act ℚ))).map
      (fun s => s.inFlight.map (fun p => (walk (s.hist p.cmn.uid), p.path))) =
      some [([0, 1, 2, 0], [0])] := by decide +kernel
  obtain ⟨s, hs, hp⟩ := Option.map_eq_some_iff.mp hrun
  have hr := runActs_reachable boot_initial hs
  exact ⟨s, hr, hp, fun p h => (memory_loop_erased hr p h).1⟩

end AntNet.L4
