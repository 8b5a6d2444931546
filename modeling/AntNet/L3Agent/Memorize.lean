import AntNet.Core.LoopErasure
import AntNet.L3Agent.Steps

/-!
# `Antnet::memorize`

`visitTrail` is what `memorize` does to the live memory, as a list: a node
already in it cuts the list after that node and shifts the trip times of what
is kept by the time since the node was first entered; a new node is appended.
On the node addresses it is one step of loop erasure (`visitTrail_path`).

`Memorized n t p q`: the packet `q` is `p` after that visit. `memorize_spec`:
with room for the node, or with the node already in the memory, `memorize`
returns true with such a `q`; otherwise the memory is full, and the packet is
dropped untouched.
-/
namespace AntNet.L3

open AntNet.L1 AntNet.L2 AntNet.LoopErasure

variable {K : Type} [Arithmetic K]

/-- Shift an entry's trip time. -/
def shift (t : K) (e : Memory K) : Memory K := { e with tripTime := e.tripTime + t }

def visitTrail (n : Nsaddr) (time : K) (l : List (Memory K)) : List (Memory K) :=
  match l.find? (fun e => e.nodeAddr = n) with
  | some m => (l.take ((l.map (·.nodeAddr)).idxOf n + 1)).map (shift (time - m.tripTime))
  | none => l ++ [⟨n, time⟩]

theorem map_shift_path (t : K) (l : List (Memory K)) :
    (l.map (shift t)).map (·.nodeAddr) = l.map (·.nodeAddr) := by
  simp [shift, Function.comp_def]

/-- **On addresses a visit is one step of loop erasure.** -/
theorem visitTrail_path (n : Nsaddr) (time : K) (l : List (Memory K)) :
    (visitTrail n time l).map (·.nodeAddr) = revisit (l.map (·.nodeAddr)) n := by
  unfold visitTrail
  split
  · rename_i m hm
    have hn : n ∈ l.map (·.nodeAddr) :=
      List.mem_map.mpr ⟨m, List.mem_of_find?_eq_some hm, by simpa using List.find?_some hm⟩
    rw [map_shift_path, revisit_old hn, List.map_take]
  · rename_i hm
    have hn : n ∉ l.map (·.nodeAddr) := by
      intro h
      obtain ⟨m, hm1, hm2⟩ := List.mem_map.mp h
      exact List.find?_eq_none.mp hm m hm1 (by simpa using hm2)
    rw [revisit_new hn]; simp

theorem visitTrail_new {n : Nsaddr} {l : List (Memory K)} (h : n ∉ l.map (·.nodeAddr)) (time : K) :
    visitTrail n time l = l ++ [⟨n, time⟩] := by
  have : l.find? (fun e => e.nodeAddr = n) = none :=
    List.find?_eq_none.mpr fun m hm he => h (List.mem_map.mpr ⟨m, hm, by simpa using he⟩)
  unfold visitTrail
  rw [this]

/-- The first entry of the node, at index `i`, decides the cut and the shift. -/
theorem visitTrail_old {n : Nsaddr} {l : List (Memory K)} {i : Nat} {m : Memory K}
    (hi : l[i]? = some m) (hm : m.nodeAddr = n) (hfirst : ∀ j < i, (l.map (·.nodeAddr))[j]? ≠ some n)
    (time : K) : visitTrail n time l = (l.take (i + 1)).map (shift (time - m.tripTime)) := by
  obtain ⟨hil, him⟩ := List.getElem?_eq_some_iff.mp hi
  have hbefore : ∀ j (hj : j < l.length), j < i → l[j].nodeAddr ≠ n := by
    intro j hj hji he
    refine hfirst j hji ?_
    rw [List.getElem?_map, List.getElem?_eq_getElem hj]
    simp [he]
  have hfind : l.find? (fun e => e.nodeAddr = n) = some m := by
    refine List.find?_eq_some_iff_getElem.mpr ⟨by simpa using hm, i, hil, him, ?_⟩
    intro j hj
    simpa using hbefore j (by omega) hj
  have hget : (l.map (·.nodeAddr))[i]? = some n := by rw [List.getElem?_map, hi, Option.map_some, hm]
  have hn := List.mem_of_getElem? hget
  have hle : (l.map (·.nodeAddr)).idxOf n < i + 1 := by
    rw [← List.mem_take_iff_idxOf_lt hn]
    exact List.mem_of_getElem? (i := i) (by rw [List.getElem?_take, if_pos (by omega), hget])
  have hge : ¬ (l.map (·.nodeAddr)).idxOf n < i := fun h =>
    hfirst _ h (List.getElem?_idxOf hn)
  unfold visitTrail
  rw [hfind]
  simp only [show (l.map (·.nodeAddr)).idxOf n = i by omega]

/-- `q` is `p` with its memory after a visit to `n` at trip time `time`. -/
structure Memorized (n : Nsaddr) (time : K) (p q : Packet K) : Prop where
  rest : ∃ mem sz, q = p.withMemory mem sz
  size : q.SizeOk
  trail : q.trail = visitTrail n time p.trail

namespace Memorized

variable {n : Nsaddr} {time : K} {p q : Packet K}

theorem cmn (h : Memorized n time p q) : q.cmn = p.cmn := by
  obtain ⟨mem, sz, rfl⟩ := h.rest; rfl

theorem ip (h : Memorized n time p q) : q.ip = p.ip := by
  obtain ⟨mem, sz, rfl⟩ := h.rest; rfl

theorem pktSrc (h : Memorized n time p q) : q.ant.pktSrc = p.ant.pktSrc := by
  obtain ⟨mem, sz, rfl⟩ := h.rest; rfl

theorem pktDst (h : Memorized n time p q) : q.ant.pktDst = p.ant.pktDst := by
  obtain ⟨mem, sz, rfl⟩ := h.rest; rfl

theorem path (h : Memorized n time p q) : q.path = revisit p.path n := by
  unfold Packet.path
  rw [h.trail, visitTrail_path]

end Memorized

/-! ## The loops -/

section Loops

variable {p : Packet K} {a : Antnet K} {c : List Event}

/-- One more entry of a prefix shifted in place. -/
theorem shift_prefix_set (t : K) {l : List (Memory K)} {j : Nat} (hj : j < l.length) :
    ((l.take j).map (shift t) ++ l.drop j).set j (shift t l[j]) =
      (l.take (j + 1)).map (shift t) ++ l.drop (j + 1) := by
  have hlen : ((l.take j).map (shift t)).length = j := by simp; omega
  rw [List.set_append_right _ _ (by omega), hlen, Nat.sub_self, List.drop_eq_getElem_cons hj,
    List.set_cons_zero, List.take_succ_eq_append_getElem hj]
  simp only [List.map_append, List.map_cons, List.map_nil, List.append_assoc, List.cons_append,
    List.nil_append]

/-- The shift loop on a memory of `i + 1` entries. -/
theorem shiftTripTimes_spec [LinearOrder K] {i : Nat} (hi : i < MAX_NUM_NODES)
    (hsz : p.ant.pktMemSize = (i + 1 : Nat)) (t : K) :
    Triple (At p a c) (shiftTripTimes i t) (fun _ f =>
      ∃ mem, liveMem mem (i + 1 : Nat) = p.trail.map (shift t) ∧
        At (p.withMemory mem (i + 1 : Nat)) a c f) := by
  have hlen : p.trail.length = i + 1 := by
    have := p.trail_length ⟨by omega, by omega⟩
    omega
  -- the entries before `j` are shifted, the others are as they were
  let I : Nat → Frame K → Prop := fun j f => j ≤ i + 1 ∧
    ∃ mem, liveMem mem (i + 1 : Nat) = (p.trail.take j).map (shift t) ++ p.trail.drop j ∧
      At (p.withMemory mem (i + 1 : Nat)) a c f
  refine (Triple.loop I (i + 2) (fun j f h => by have := h.1; omega) ?_ memFuel 0
    (by simp only [memFuel]; omega)).conseq (fun f hf => ?_) (fun _ _ h => h)
  · intro j
    refine Triple.lift fun hj => Triple.ex fun mem hlive => ?_
    by_cases hji : j ≤ i
    · rw [if_pos hji]
      have hjl : j < p.trail.length := by omega
      have hjm : j < MAX_NUM_NODES := by omega
      have hentry : mem[j] = p.trail[j] := by
        have h1 := @liveMem_getElem? K mem (i + 1 : Nat) j (by omega) hjm
        rw [hlive, List.getElem?_append_right (by simp), List.getElem?_drop] at h1
        simp only [List.length_map, List.length_take, Nat.min_eq_left (Nat.le_of_lt hjl),
          Nat.sub_self, Nat.add_zero] at h1
        rw [List.getElem?_eq_getElem hjl] at h1
        exact (Option.some.inj h1).symm
      refine (memRead_spec hjm (by simp only [Packet.withMemory]; omega)).bindEq ?_
      refine (memWrite_spec hjm _).seq ?_
      refine Triple.pure fun f hf => ⟨by omega, _, ?_, hf⟩
      rw [liveMem_set hjm]
      simp only [Packet.withMemory]
      rw [hlive, hentry]
      exact shift_prefix_set t hjl
    · rw [if_neg hji]
      refine Triple.pure fun f hf => ⟨mem, ?_, hf⟩
      rw [hlive, List.take_of_length_le (by omega), List.drop_eq_nil_of_le (by omega)]
      simp
  · refine ⟨by omega, p.ant.pktMemory, ?_, ?_⟩
    · rw [← hsz]; simp [Packet.trail]
    · rw [← hsz]; exact hf

/-- The two writes behind the live part and the increment of the size. -/
theorem appendNode_spec (hs : p.SizeOk) (hn : a.addr ∉ p.path)
    (hroom : ¬ p.ant.pktMemSize ≥ MAX_NUM_NODES) (time : K) :
    Triple (At p a c) (do
      let self ← addr
      memWrite (← memSize) fun e => { e with nodeAddr := self }
      memWrite (← memSize) fun e => { e with tripTime := time }
      setMemSize ((← memSize) + 1)
      return true) (fun b f => b = true ∧ ∃ q, Memorized a.addr time p q ∧ At q a c f) := by
  obtain ⟨n, hpn⟩ : ∃ n : Nat, p.ant.pktMemSize = n :=
    ⟨p.ant.pktMemSize.toNat, by have := hs.1; omega⟩
  have hnm : n < MAX_NUM_NODES := by omega
  refine addr_spec.bindEq ?_
  refine memSize_spec.bindEq ?_
  rw [hpn]
  refine (memWrite_spec hnm _).seq ?_
  refine memSize_spec.bindEq ?_
  simp only [Packet.withMemory_size, hpn]
  refine (memWrite_spec hnm _).seq ?_
  refine memSize_spec.bindEq ?_
  refine (setMemSize_spec _).seq ?_
  simp only [Packet.withMemory_mem, Packet.withMemory_size, Packet.withMemory_withMemory,
    Vector.getElem_set_self, Vector.set_set]
  refine Triple.pure fun f hf => ⟨rfl, _, ⟨⟨_, _, rfl⟩, ⟨?_, ?_⟩, ?_⟩, hf⟩
  · simp only [Packet.withMemory_size]; omega
  · simp only [Packet.withMemory_size]; omega
  · have := @liveMem_push K p.ant.pktMemory n hnm ⟨a.addr, time⟩
    rw [visitTrail_new hn, Packet.withMemory_trail, Packet.trail, hpn]
    exact this

variable [LinearOrder K]

/-- `removeLoop` returns true, with the memory cut and shifted, exactly when
the node is in the memory. -/
theorem removeLoop_spec (hs : p.SizeOk) (time : K) :
    Triple (At p a c) (removeLoop time) (fun b f => match b with
      | true => ∃ q, (a.addr ∈ p.path ∧ Memorized a.addr time p q) ∧ At q a c f
      | false => a.addr ∉ p.path ∧ At p a c f) := by
  have hlen := p.path_length hs
  -- no entry before `i` is this node's
  let I : Nat → Frame K → Prop := fun i f =>
    ((i : Int) ≤ p.ant.pktMemSize ∧ ∀ j < i, p.path[j]? ≠ some a.addr) ∧ At p a c f
  refine (Triple.loop I memFuel (fun i f h => ?_) ?_ memFuel 0 (by simp [memFuel])).conseq
    (fun f hf => ⟨⟨by simpa using hs.1, by omega⟩, hf⟩) (fun _ _ h => h)
  · have := h.1.1; have := hs.2; simp only [memFuel]; omega
  · intro i
    refine Triple.lift fun ⟨hi, hne⟩ => ?_
    refine memSize_spec.bindEq ?_
    by_cases hlt : (i : Int) < p.ant.pktMemSize
    · rw [if_pos hlt]
      obtain ⟨hm, htrail⟩ := p.trail_getElem? hs hlt
      have hpath := p.path_getElem? htrail
      refine (memRead_spec hm hlt).bindEq ?_
      refine addr_spec.bindEq ?_
      by_cases heq : p.ant.pktMemory[i].nodeAddr = a.addr
      · rw [if_pos heq]
        have hmem : a.addr ∈ p.path := List.mem_of_getElem? (hpath.trans (congrArg some heq))
        refine (memRead_spec hm hlt).bindEq ?_
        refine (setMemSize_spec _).seq ?_
        refine (shiftTripTimes_spec (p := p.withMemory p.ant.pktMemory ((i : Int) + 1)) hm
          (by simp [Packet.withMemory]) _).seq ?_
        refine Triple.pure fun f ⟨mem, hlive, hat⟩ =>
          ⟨_, ⟨hmem, ⟨mem, _, rfl⟩, ⟨?_, ?_⟩, ?_⟩, hat⟩
        · simp only [Packet.withMemory_size]; omega
        · simp only [Packet.withMemory_size]; omega
        · simp only [Packet.withMemory_trail]
          rw [hlive, visitTrail_old htrail heq hne, Packet.withMemory_trail,
            @liveMem_shrink K _ p.ant.pktMemSize _ (by omega)]
          rfl
      · rw [if_neg heq]
        refine Triple.pure fun f hf => ⟨⟨by omega, fun j hj => ?_⟩, hf⟩
        rcases Nat.lt_or_ge j i with h | h
        · exact hne j h
        · rw [show j = i by omega, hpath]; simpa using heq
    · rw [if_neg hlt]
      refine Triple.pure fun f hf => ⟨fun hmem => ?_, hf⟩
      obtain ⟨j, hj, he⟩ := List.mem_iff_getElem.mp hmem
      exact hne j (by omega) (by rw [List.getElem?_eq_getElem hj, he])

/-- **`memorize`**: it returns false exactly on a full memory without this
node, with the packet dropped and not touched; otherwise the memory is the
visited one. -/
theorem memorize_spec (env : Env K) (hs : p.SizeOk) :
    Triple (At p a c) (memorize env) (fun b f => match b with
      | true => ∃ q, (Memorized a.addr (env.currentTime - p.ant.pktStartTime) p q ∧
          ¬ (p.ant.pktMemSize = MAX_NUM_NODES ∧ a.addr ∉ p.path)) ∧ At q a c f
      | false => (p.ant.pktMemSize = MAX_NUM_NODES ∧ a.addr ∉ p.path) ∧
          Gone (.drop DROP_RTR_ROUTE_LOOP) p a c f) := by
  refine (rd_spec _).bindEq ?_
  refine (removeLoop_spec hs _).bind fun b => ?_
  cases b with
  | true => exact Triple.pure fun f ⟨q, ⟨hmem, hq⟩, hat⟩ => ⟨q, ⟨hq, fun h => h.2 hmem⟩, hat⟩
  | false =>
    refine Triple.lift fun hn => ?_
    refine memSize_spec.bindEq ?_
    by_cases hfull : p.ant.pktMemSize ≥ MAX_NUM_NODES
    · rw [if_pos hfull]
      refine dispose_spec.seq ?_
      exact Triple.pure fun f hf => ⟨⟨by have := hs.2; omega, hn⟩, hf⟩
    · rw [if_neg hfull]
      refine (appendNode_spec hs hn hfull _).conseq (fun _ hf => hf) fun b f hf => ?_
      obtain ⟨rfl, q, hq, hat⟩ := hf
      exact ⟨q, ⟨hq, fun h => hfull (by omega)⟩, hat⟩

end Loops

end AntNet.L3
