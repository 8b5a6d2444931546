import AntNet.L2Table.Selection
import AntNet.L4Network.TableEffect
import AntNet.L4Network.Values

/-!
# Where forward ants die

`forward_ant_pkt` frees an ant when `calc_next` returns the node itself or the
node the ant came from. With nonnegative pheromone values `calc_next` returns
the latter exactly when there is no row or every entry but that one weighs 0
(`Exhausted`, `forward_exhausted`).

With reinforcement factors in `[0, 1)` no value ever leaves `[0, 1]`
(`values_unit`). It stays positive as long as no operation rounds a positive
result to 0 (`Lasting`, `values_lasting`), so always in exact arithmetic
(`values_pos`).
-/
namespace AntNet.L4

open AntNet.L1 AntNet.L2 AntNet.L3 AntNet.Distribution

variable {K : Type}

/-- There is no way on but back: no row for the destination, or no entry in it
but the parent. -/
def DeadEnd (s : Net K) (n dest parent : Nsaddr) : Prop :=
  (s.agents n).rtable dest = none ∨
    ∃ row, (s.agents n).rtable dest = some row ∧ ∀ e ∈ row, e.neighbor = parent

/-- Queue lengths are lengths. -/
def QueuesOk (q : Nat → Nsaddr → Nsaddr → Int) : Prop := ∀ k x y, 0 ≤ q k x y

theorem phvalue_of {V : K → Prop} {s : Net K} (hv : Values V s) {n d : Nsaddr} {row : PheromoneMatrix K}
    (hrow : (s.agents n).rtable d = some row) : ∀ e ∈ row, V e.phvalue :=
  fun e he => hv n d row hrow (e.neighbor, e.phvalue) (List.mem_map.mpr ⟨e, he, rfl⟩)

section Arithmetic

variable [Arithmetic K] [LinearOrder K]

/-- Reinforcement that leaves something on every other link. -/
def Soft (r : K) : Prop := 0 ≤ r ∧ r < 1

instance (r : K) : Decidable (Soft r) := inferInstanceAs (Decidable (0 ≤ r ∧ r < 1))

/-- No row for the destination, or no weight on any entry but the parent. -/
def Exhausted (s : Net K) (q : Nat → Nsaddr → Nsaddr → Int) (n dest parent : Nsaddr) : Prop :=
  (s.agents n).rtable dest = none ∨
    ∃ row, (s.agents n).rtable dest = some row ∧
      ∀ c ∈ row.zip (prob row (queueLens q n row) (s.neighborList n).length),
        c.1.neighbor = parent ∨ c.2 = 0

variable [Rounds K] {addNb : List Nsaddr → Nsaddr → List Nsaddr} {s s' : Net K} {l : Act K}

theorem values_unit (h : ((net addNb).guard (Factor Soft)).Reachable s) :
    Values (fun x => 0 ≤ x ∧ x ≤ 1) s :=
  values_reachable (R := Soft) (fun _ _ e he => uniform_mem_Icc e he)
    (fun _ _ hr hx => raise_mem_Icc hr.1 hr.2.le hx) (fun _ _ hr hx => decay_mem_Icc hr.1 hr.2.le hx) h

/-- Where no division by the denominator of the weights underflows, only a dead
end has no weight left. -/
theorem exhausted_iff_deadEnd {q : Nat → Nsaddr → Nsaddr → Int} {n dest parent : Nsaddr} (hq : QueuesOk q)
    (hv : Values (fun x => 0 ≤ x ∧ x ≤ 1) s)
    (hdiv : ∀ row, (s.agents n).rtable dest = some row →
      ∀ e ∈ row, 0 < e.phvalue / linkDenominator ALPHA (s.neighborList n).length) :
    Exhausted s q n dest parent ↔ DeadEnd s n dest parent := by
  have hrow : ∀ row, (s.agents n).rtable dest = some row → ∀ e ∈ row, 0 ≤ e.phvalue :=
    fun row hr e he => (phvalue_of hv hr e he).1
  have hweights : calcNext (s.agents n).rtable q id n dest parent (s.neighborList n).length = parent ↔
      Exhausted s q n dest parent :=
    calcNext_eq_parent_iff_weights id hrow hq (Int.natCast_nonneg _)
  exact hweights.symm.trans (calcNext_eq_parent_iff_of_div id hrow hdiv hq (Int.natCast_nonneg _))

/-- What `forward_ant_pkt` does at a node whose values are not negative. -/
theorem forward_exhausted (hc : Configured s) (hv : Values (fun x => 0 ≤ x ∧ x ≤ 1) s) (n : Nsaddr)
    (p : Packet K) {o : Oracle K} (hq : QueuesOk o.queueLength) :
    ∃ f, (forwardAntPkt (s.env o)).exec ⟨p, s.agents n, []⟩ = (.ok (), f) ∧
      (Event.free ∈ f.log → Exhausted s o.queueLength n p.ant.pktDst p.ip.saddr ∨
        nextHop (s.env o) (s.agents n) p.ant.pktDst p.ip.saddr = n) ∧
      (Event.send ∈ f.log → f.pkt.ip.daddr ≠ p.ip.saddr) := by
  have haddr : (s.agents n).addr = n := hc.addr n
  obtain ⟨u, f, he, hf⟩ := forwardAntPkt_spec (s.env o) _ (at_start p (s.agents n))
  refine ⟨f, he, ?_⟩
  split at hf
  · rename_i hn
    refine ⟨?_, fun hsend => nomatch hf.disposal hsend rfl⟩
    intro _
    rcases hn with h1 | h1
    · exact .inr (h1.trans haddr)
    · have hw := (calcNext_eq_parent_iff_weights _ (fun row hr e he => (phvalue_of hv hr e he).1) hq
        (by simp only [getNumNeighbors]; omega)).mp h1
      simp only [getNumNeighbors, haddr] at hw
      exact .inl hw
  · rename_i hn
    refine ⟨fun hfree => (nomatch hf.disposal hfree rfl), ?_⟩
    intro _
    rw [hf.pkt]
    exact (not_or.mp hn).2

end Arithmetic

variable [Field K] [LinearOrder K] [IsStrictOrderedRing K] {addNb : List Nsaddr → Nsaddr → List Nsaddr}
  {s : Net K}

/-- In exact arithmetic every value stays positive. -/
theorem values_pos (h : ((net addNb).guard (Factor Soft)).Reachable s) : Values (fun x => 0 < x) s :=
  values_reachable (R := Soft) (fun _ _ e he => (uniform_mem_Ioc e he).1)
    (fun _ _ hr hx => raise_pos hr.1 hr.2 hx) (fun _ _ hr hx => decay_pos hr.2 hx) h

end AntNet.L4
