import AntNet.L3Agent.Memorize

/-!
# Where the handlers find this node in the memory

`findSelf` (in `update_table`) scans up with no bound, `findPrevious` (in
`backward_ant_pkt`) scans down; in a memory of distinct nodes both find the
one index of this node. From there the row updates of `update_table` and the
next hop of the backward ant are functions of the path.
-/
namespace AntNet.L3

open AntNet.L1 AntNet.L2

variable {K : Type} {p : Packet K} {a : Antnet K} {c : List Event}

/-- This node is entry `j` of the live memory, and the only one. -/
structure Found (p : Packet K) (a : Antnet K) (j : Nat) : Prop where
  size : p.SizeOk
  at_j : p.path[j]? = some a.addr
  nodup : p.path.Nodup

namespace Found

variable {j : Nat}

theorem lt (h : Found p a j) : (j : Int) < p.ant.pktMemSize := by
  have := (List.getElem?_eq_some_iff.mp h.at_j).1
  have := p.path_length h.size
  omega

theorem lt_max (h : Found p a j) : j < MAX_NUM_NODES := by
  have := h.lt; have := h.size.2; omega

/-- The array entry at a live index is this node's exactly at `j`. -/
theorem entry (h : Found p a j) {i : Nat} (hi : (i : Int) < p.ant.pktMemSize) :
    ∃ hm : i < MAX_NUM_NODES, p.path[i]? = some p.ant.pktMemory[i].nodeAddr ∧
      (p.ant.pktMemory[i].nodeAddr = a.addr ↔ i = j) := by
  obtain ⟨hm, ht⟩ := p.trail_getElem? h.size hi
  have hp := p.path_getElem? ht
  refine ⟨hm, hp, ?_, ?_⟩
  · intro he
    rw [he] at hp
    exact (List.getElem?_inj (List.getElem?_eq_some_iff.mp hp).1 h.nodup).mp (hp.trans h.at_j.symm)
  · intro he
    subst he; rw [h.at_j] at hp; exact (Option.some.inj hp).symm

end Found

theorem findSelf_spec {j : Nat} (h : Found p a j) :
    Triple (At p a c) findSelf (fun i f => i = j ∧ At p a c f) := by
  have hj := h.lt
  have hm := h.lt_max
  refine (Triple.loop (fun i f => i ≤ j ∧ At p a c f) memFuel (fun i f hI => ?_) ?_ memFuel 0
    (by simp [memFuel])).conseq (fun f hf => ⟨by omega, hf⟩) (fun _ _ h => h)
  · have := hI.1; simp only [memFuel]; omega
  · intro i
    refine Triple.lift fun hi => ?_
    obtain ⟨him, -, he⟩ := h.entry (i := i) (by omega)
    refine (memRead_spec him (by omega)).bindEq ?_
    refine addr_spec.bindEq ?_
    by_cases hij : i = j
    · rw [if_neg (by simpa using he.mpr hij)]
      exact Triple.pure fun f hf => ⟨hij, hf⟩
    · rw [if_pos (by simpa using fun h' => hij (he.mp h'))]
      exact Triple.pure fun f hf => ⟨by omega, hf⟩

theorem findPrevious_spec {j : Nat} (h : Found p a j) :
    Triple (At p a c) findPrevious (fun i f => i = (j : Int) - 1 ∧ At p a c f) := by
  have hj := h.lt
  refine memSize_spec.bindEq ?_
  refine Triple.bindEq (x := some ((j : Int) - 1)) ?_ (Triple.pure fun f hf => ⟨rfl, hf⟩)
  -- the node has not been met above `i`, so it is still below
  let I : Nat → Frame K → Prop := fun i f => (j < i ∧ (i : Int) ≤ p.ant.pktMemSize) ∧ At p a c f
  refine (Triple.loopDown I (fun f hI => by have := hI.1.1; omega) ?_ _).conseq
    (fun f hf => ⟨by omega, hf⟩) (fun _ _ h => h)
  intro i
  refine Triple.lift fun ⟨hji, hi⟩ => ?_
  obtain ⟨him, -, he⟩ := h.entry (i := i) (by omega)
  refine (memRead_spec him (by omega)).bindEq ?_
  refine addr_spec.bindEq ?_
  by_cases hij : i = j
  · rw [if_pos (he.mpr hij), hij]
    exact Triple.pure fun f hf => ⟨rfl, hf⟩
  · rw [if_neg (fun h' => hij (he.mp h'))]
    exact Triple.pure fun f hf => ⟨by omega, hf⟩

/-! ## `update_table` -/

section Update

variable [Arithmetic K]

/-- The table after one update towards `next` for each of `dests`. -/
def updateAll (next : Nsaddr) (r : K) (dests : List Nsaddr) (rt : RtableT K) : RtableT K :=
  dests.foldl (fun rt d => update rt d next r) rt

def updateCalls (next : Nsaddr) (dests : List Nsaddr) : List Event := dests.map (.rtUpdate · next)

/-- `dests` is reinforced in the agent's table. -/
def reinforceAgent (a : Antnet K) (next : Nsaddr) (dests : List Nsaddr) : Antnet K :=
  { a with rtable := updateAll next a.rFactor dests a.rtable }

theorem updateRows_spec (hs : p.SizeOk) (next : Nsaddr) {i : Nat} (hi : (i : Int) ≤ p.ant.pktMemSize) :
    Triple (At p a c) (updateRows next i) (fun _ f =>
      At p (reinforceAgent a next (p.path.drop i)) (c ++ updateCalls next (p.path.drop i)) f) := by
  have hlen := p.path_length hs
  -- the destinations from `i` up to the counter are done
  let done : Nat → List Nsaddr := fun idx => (p.path.take idx).drop i
  let I : Nat → Frame K → Prop := fun idx f => (i ≤ idx ∧ (idx : Int) ≤ p.ant.pktMemSize) ∧
    At p (reinforceAgent a next (done idx)) (c ++ updateCalls next (done idx)) f
  have h0 : done i = [] := List.drop_eq_nil_of_le (by simp)
  refine (Triple.loop I memFuel (fun idx f h => ?_) ?_ memFuel i (by omega)).conseq
    (fun f hf => ?_) (fun _ _ h => h)
  · have := h.1.2; have := hs.2; simp only [memFuel]; omega
  · intro idx
    apply Triple.lift
    rintro ⟨hil, hidx⟩
    refine memSize_spec.bindEq ?_
    by_cases hlt : (idx : Int) < p.ant.pktMemSize
    · rw [if_pos hlt]
      obtain ⟨hm, ht⟩ := p.trail_getElem? hs hlt
      have hp := p.path_getElem? ht
      have hidxl : idx < p.path.length := by omega
      have hdone : done (idx + 1) = done idx ++ [p.ant.pktMemory[idx].nodeAddr] := by
        have hget : p.path[idx] = p.ant.pktMemory[idx].nodeAddr := by
          rw [List.getElem?_eq_getElem hidxl] at hp; exact Option.some.inj hp
        simp only [done]
        rw [List.take_succ_eq_append_getElem hidxl, hget,
          List.drop_append_of_le_length (by simp; omega)]
      refine (memRead_spec hm hlt).bindEq ?_
      refine (call_spec (e := .rtUpdate _ next) trivial rfl).seq ?_
      refine (setSelf_spec _).seq ?_
      refine Triple.pure fun f hf => ⟨⟨by omega, by omega⟩, ?_⟩
      rw [hdone]
      simpa [reinforceAgent, updateAll, updateCalls, List.foldl_append] using hf
    · rw [if_neg hlt]
      have hall : done idx = p.path.drop i := by
        simp only [done]; rw [List.take_of_length_le (by omega)]
      rw [hall]
      exact Triple.pure fun f hf => hf
  · refine ⟨⟨Nat.le_refl i, hi⟩, ?_⟩
    rw [h0]
    simpa [reinforceAgent, updateAll, updateCalls] using hf

/-- **`update_table`**: every later node of the path is a destination updated
towards the next one. -/
theorem updateTable_spec {j : Nat} (h : Found p a j) {next : Nsaddr}
    (hnext : p.path[j + 1]? = some next) :
    Triple (At p a c) updateTable (fun _ f =>
      At p (reinforceAgent a next (p.path.drop (j + 1)))
        (c ++ .updateTable :: updateCalls next (p.path.drop (j + 1))) f) := by
  have hlen := p.path_length h.size
  have hj1 := (List.getElem?_eq_some_iff.mp hnext).1
  have hlt : ((j + 1 : Nat) : Int) < p.ant.pktMemSize := by omega
  obtain ⟨hm, ht⟩ := p.trail_getElem? h.size hlt
  have hn : p.ant.pktMemory[j + 1].nodeAddr = next := by
    have := p.path_getElem? ht
    rw [hnext] at this; exact (Option.some.inj this).symm
  refine (call_spec (e := .updateTable) trivial rfl).seq ?_
  refine (findSelf_spec h).bindEq ?_
  refine (memRead_spec hm hlt).bindEq ?_
  rw [hn]
  exact (updateRows_spec h.size next (by omega)).conseq (fun _ hf => hf)
    (fun _ _ hf => by simpa using hf)

end Update

end AntNet.L3
