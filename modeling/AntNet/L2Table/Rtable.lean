import AntNet.Core.Distribution
import AntNet.L1Packet.Header
import Mathlib.Logic.Function.Basic
import Mathlib.Algebra.BigOperators.Group.List.Basic

/-!
# The routing table

`antnet_math.h` and `antnet_rtable.{h,cc}`: the numeric core, the table (a
map from destinations to rows of pheromone values, one entry per neighbor
link) and its operations. `double` is an `Arithmetic`, exact or rounded.

What lies outside is a parameter: `queueLength k` answers the `k`-th call of
`get_queue_length`, `uniform W` the call `rnum->uniform(W)`, and the list of
draws the successive calls `rnum->uniform(NUM_NODES)`.

A row is a finite distribution over the neighbor links (`rowDist`);
`antnet_rtable::update` is `Distribution.reinforce` on it (`rowDist_updateRow`).
-/
namespace AntNet.L2

open AntNet.L1

variable {K : Type} [Arithmetic K]

/-! ## `antnet_math.h` -/

/-- mirrors antnet_common.h:65 -/
def ALPHA : K := 45 / 100

/-- mirrors antnet_math.h:49-53 -/
def linkProbability (phvalue alpha linkQueue totalQueue : K) (numNeighbors : Int) : K :=
  (phvalue + alpha * (1 - linkQueue / totalQueue)) / (1 + alpha * ((numNeighbors - 1 : Int) : K))

/-- mirrors antnet_math.h:58-60 -/
def reinforcePheromone (oldPhvalue r : K) : K := oldPhvalue + r * (1 - oldPhvalue)

/-- mirrors antnet_math.h:65-67 -/
def evaporatePheromone (oldPhvalue r : K) : K := (1 - r) * oldPhvalue

/-! ## The table -/

/-- mirrors `struct pheromone`, antnet_rtable.h:52-55 -/
structure Pheromone (K : Type) where
  neighbor : Nsaddr
  phvalue : K
  deriving DecidableEq, Repr

abbrev PheromoneMatrix (K : Type) := List (Pheromone K)

/-- `std::map<nsaddr_t, pheromone_matrix>`; `none`: no entry for the destination. -/
abbrev RtableT (K : Type) := Nsaddr → Option (PheromoneMatrix K)

def neighbors (row : PheromoneMatrix K) : List Nsaddr := row.map (·.neighbor)

/-- The row as a distribution over the neighbor links. -/
def rowDist (row : PheromoneMatrix K) : List (Nsaddr × K) := row.map fun e => (e.neighbor, e.phvalue)

/-- mirrors antnet_rtable.cc:51-65 -/
def addEntry (rt : RtableT K) (dest next : Nsaddr) (phvalue : K) : RtableT K :=
  match rt dest with
  | none => Function.update rt dest (some [⟨next, phvalue⟩])
  | some row => Function.update rt dest (some (row ++ [⟨next, phvalue⟩]))

/-- `none`: none of the draws left the loop.
mirrors antnet_rtable.cc:85-92 -/
def calcDestination (source : Nsaddr) : List Int → Option Nsaddr
  | [] => none
  | tmp :: draws => if tmp = source then calcDestination source draws else some tmp

/-- mirrors antnet_rtable.cc:194-201 -/
def updateRow (next : Nsaddr) (rFactor : K) (row : PheromoneMatrix K) : PheromoneMatrix K :=
  row.map fun e =>
    if e.neighbor = next then { e with phvalue := reinforcePheromone e.phvalue rFactor }
    else { e with phvalue := evaporatePheromone e.phvalue rFactor }

/-- mirrors antnet_rtable.cc:189-203 -/
def update (rt : RtableT K) (dest next : Nsaddr) (rFactor : K) : RtableT K :=
  match rt dest with
  | none => rt
  | some row => Function.update rt dest (some (updateRow next rFactor row))

section CalcNext

/-- The queue lengths of the candidate links, one call for each entry.
mirrors antnet_rtable.cc:135,137-140 -/
def queueLens (queueLength : Nat → Nsaddr → Nsaddr → Int) (source : Nsaddr)
    (row : PheromoneMatrix K) : List K :=
  row.mapIdx fun k e => (queueLength k source e.neighbor : K)

variable [LinearOrder K]

/-- mirrors antnet_rtable.cc:136,141,143-144 -/
def qtotal (queueLen : List K) : K :=
  let q := queueLen.foldl (· + ·) 0
  if q = 0 then 1 else q

/-- mirrors antnet_rtable.cc:148,151-152 -/
def prob (row : PheromoneMatrix K) (queueLen : List K) (numNeighbors : Int) : List K :=
  List.zipWith (fun e q => linkProbability e.phvalue ALPHA q (qtotal queueLen) numNeighbors)
    row queueLen

/-- mirrors antnet_rtable.cc:149,153-154 -/
def totalExclParent (parent : Nsaddr) (cand : List (Pheromone K × K)) : K :=
  cand.foldl (fun t c => if c.1.neighbor ≠ parent then t + c.2 else t) 0

/-- The sampling loop, with `cumulative` and `last_candidate`.
mirrors antnet_rtable.cc:166-177 -/
def sample (parent : Nsaddr) (x : K) : List (Pheromone K × K) → K → Nsaddr → Nsaddr
  | [], _, lastCandidate => lastCandidate
  | c :: cand, cumulative, lastCandidate =>
    if c.1.neighbor = parent then sample parent x cand cumulative lastCandidate
    else if x < cumulative + c.2 then c.1.neighbor
    else sample parent x cand (cumulative + c.2) c.1.neighbor

/-- `calc_next` once the row is found and the queues are read.
mirrors antnet_rtable.cc:143-177 -/
def calcNextRow (uniform : K → K) (row : PheromoneMatrix K) (queueLen : List K) (parent : Nsaddr)
    (numNeighbors : Int) : Nsaddr :=
  let cand := row.zip (prob row queueLen numNeighbors)
  let total := totalExclParent parent cand
  if total ≤ 0 then parent else sample parent (uniform total) cand 0 parent

/-- mirrors antnet_rtable.cc:104-178 -/
def calcNext (rt : RtableT K) (queueLength : Nat → Nsaddr → Nsaddr → Int) (uniform : K → K)
    (source dest parent : Nsaddr) (numNeighbors : Int) : Nsaddr :=
  match rt dest with
  | none => parent
  | some row => calcNextRow uniform row (queueLens queueLength source row) parent numNeighbors

end CalcNext

/-! ## Rows -/

omit [Arithmetic K] in
@[simp] theorem neighbors_append (r₁ r₂ : PheromoneMatrix K) :
    neighbors (r₁ ++ r₂) = neighbors r₁ ++ neighbors r₂ := List.map_append

omit [Arithmetic K] in
theorem rowDist_append (r₁ r₂ : PheromoneMatrix K) : rowDist (r₁ ++ r₂) = rowDist r₁ ++ rowDist r₂ :=
  List.map_append

omit [Arithmetic K] in
theorem keys_rowDist (row : PheromoneMatrix K) : Distribution.keys (rowDist row) = neighbors row := by
  simp [Distribution.keys, rowDist, neighbors, Function.comp_def]

/-- **The row update is reinforcement of the distribution.** -/
theorem rowDist_updateRow (next : Nsaddr) (r : K) (row : PheromoneMatrix K) :
    rowDist (updateRow next r row) = Distribution.reinforce next r (rowDist row) := by
  simp only [rowDist, updateRow, Distribution.reinforce, List.map_map]
  apply List.map_congr_left
  intro e _
  simp only [Function.comp]
  split <;> rfl

@[simp] theorem neighbors_updateRow (next : Nsaddr) (r : K) (row : PheromoneMatrix K) :
    neighbors (updateRow next r row) = neighbors row := by
  rw [← keys_rowDist, rowDist_updateRow, Distribution.keys_reinforce, keys_rowDist]

/-- An update rewrites the row of its destination and no other. -/
theorem update_apply (rt : RtableT K) (dest next : Nsaddr) (r : K) (d : Nsaddr) :
    update rt dest next r d = if d = dest then (rt dest).map (updateRow next r) else rt d := by
  unfold update
  cases h : rt dest with
  | none => split <;> simp_all
  | some row => by_cases hd : d = dest <;> simp [hd]

omit [Arithmetic K] in
theorem addEntry_apply (rt : RtableT K) (dest next : Nsaddr) (ph : K) (d : Nsaddr) :
    addEntry rt dest next ph d =
      if d = dest then some ((rt dest).getD [] ++ [⟨next, ph⟩]) else rt d := by
  unfold addEntry
  cases h : rt dest <;> by_cases hd : d = dest <;> simp [hd]

/-- A random destination is another node. -/
theorem calcDestination_ne {source dest : Nsaddr} : ∀ {draws : List Int},
    calcDestination source draws = some dest → dest ≠ source
  | [], h => by cases h
  | tmp :: draws, h => by
    unfold calcDestination at h
    split at h
    · exact calcDestination_ne h
    · rename_i hne
      cases h; exact hne

/-- The loop ends exactly when one of the draws is not the source. -/
theorem calcDestination_some_iff {source : Nsaddr} {draws : List Int} :
    (∃ dest, calcDestination source draws = some dest) ↔ ∃ v ∈ draws, v ≠ source := by
  induction draws with
  | nil => simp [calcDestination]
  | cons v draws ih =>
    unfold calcDestination
    by_cases hv : v = source
    · simp only [List.mem_cons, exists_eq_or_imp, hv, ne_eq, not_true_eq_false, false_or]
      exact ih
    · simp [hv]

/-- What the loop returns was drawn. -/
theorem calcDestination_mem {source dest : Nsaddr} {draws : List Int}
    (h : calcDestination source draws = some dest) : dest ∈ draws := by
  induction draws with
  | nil => cases h
  | cons v draws ih =>
    unfold calcDestination at h
    split at h
    · exact List.mem_cons_of_mem _ (ih h)
    · obtain rfl := Option.some.inj h
      exact List.mem_cons_self

/-! ## Choosing the next hop -/

section CalcNext

variable [LinearOrder K] {parent : Nsaddr}

/-- The sampling loop returns the last candidate seen before it, or a
candidate other than the parent. -/
theorem sample_mem (parent : Nsaddr) (x : K) : ∀ (cand : List (Pheromone K × K)) (cum : K) (last : Nsaddr),
    sample parent x cand cum last = last ∨
      sample parent x cand cum last ≠ parent ∧
        ∃ c ∈ cand, c.1.neighbor = sample parent x cand cum last
  | [], _, last => .inl rfl
  | c :: cand, cum, last => by
    unfold sample
    split
    · rcases sample_mem parent x cand cum last with h | ⟨hne, c', hc', h⟩
      · exact .inl h
      · exact .inr ⟨hne, c', List.mem_cons_of_mem _ hc', h⟩
    · rename_i hc
      split
      · exact .inr ⟨hc, c, List.mem_cons_self, rfl⟩
      · rcases sample_mem parent x cand (cum + c.2) c.1.neighbor with h | ⟨hne, c', hc', h⟩
        · exact .inr ⟨by rw [h]; exact hc, c, List.mem_cons_self, h.symm⟩
        · exact .inr ⟨hne, c', List.mem_cons_of_mem _ hc', h⟩

/-- With a candidate other than the parent the loop never returns the parent. -/
theorem sample_ne_parent (x : K) : ∀ (cand : List (Pheromone K × K)) (cum : K) (last : Nsaddr),
    last ≠ parent ∨ (∃ c ∈ cand, c.1.neighbor ≠ parent) → sample parent x cand cum last ≠ parent
  | [], _, last, h => by
    rcases h with h | ⟨c, hc, -⟩
    · exact h
    · cases hc
  | c :: cand, cum, last, h => by
    unfold sample
    split
    · rename_i hc
      refine sample_ne_parent x cand cum last ?_
      rcases h with h | ⟨c', hc', hne⟩
      · exact .inl h
      · rcases List.mem_cons.mp hc' with rfl | hm
        · exact absurd hc hne
        · exact .inr ⟨c', hm, hne⟩
    · rename_i hc
      split
      · exact hc
      · exact sample_ne_parent x cand _ _ (.inl hc)

/-- **The next hop is the parent or another neighbor in the destination's row.** -/
theorem calcNext_mem (rt : RtableT K) (q : Nat → Nsaddr → Nsaddr → Int) (u : K → K)
    (source dest parent : Nsaddr) (n : Int) :
    calcNext rt q u source dest parent n = parent ∨
      ∃ row, rt dest = some row ∧ calcNext rt q u source dest parent n ∈ neighbors row := by
  unfold calcNext
  cases h : rt dest with
  | none => exact .inl rfl
  | some row =>
    simp only [calcNextRow]
    split
    · exact .inl rfl
    · rcases sample_mem parent
          (u (totalExclParent parent (row.zip (prob row (queueLens q source row) n))))
          (row.zip (prob row (queueLens q source row) n)) 0 parent with hs | ⟨-, c, hc, hs⟩
      · exact .inl hs
      · refine .inr ⟨row, rfl, ?_⟩
        rw [← hs]
        exact List.mem_map.mpr ⟨c.1, (List.of_mem_zip hc).1, rfl⟩

end CalcNext

/-! ## Filling the table -/

/-- One pass over the neighbor list, adding an entry for each to the row of `dest`.
mirrors antnet.cc:578-588 -/
def fillRow (nbs : List Nsaddr) (phvalue : K) (rt : RtableT K) (dest : Nsaddr) : RtableT K :=
  nbs.foldl (fun rt nb => addEntry rt dest nb phvalue) rt

/-- mirrors antnet.cc:575-590 -/
def fillTable (self : Nsaddr) (numNodes : Int) (nbs : List Nsaddr) (phvalue : K) (rt : RtableT K) :
    RtableT K :=
  (List.range numNodes.toNat).foldl
    (fun rt (i : Nat) => if self ≠ (i : Int) then fillRow nbs phvalue rt (i : Int) else rt) rt

omit [Arithmetic K] in
theorem fillRow_apply (nbs : List Nsaddr) (ph : K) (dest d : Nsaddr) : ∀ rt : RtableT K,
    fillRow nbs ph rt dest d =
      if d = dest ∧ nbs ≠ [] then some ((rt dest).getD [] ++ nbs.map (⟨·, ph⟩)) else rt d := by
  induction nbs with
  | nil => intro rt; simp [fillRow]
  | cons nb nbs ih =>
    intro rt
    have := ih (addEntry rt dest nb ph)
    simp only [fillRow, List.foldl_cons] at this ⊢
    rw [this, addEntry_apply, addEntry_apply]
    by_cases hd : d = dest <;> by_cases hn : nbs = [] <;> simp [hd, hn]

/-- The destinations `initialize_rtable` adds entries for. -/
def Filled (self numNodes d : Int) : Prop := 0 ≤ d ∧ d < numNodes ∧ d ≠ self

instance (self numNodes d : Int) : Decidable (Filled self numNodes d) := by
  unfold Filled; infer_instance

omit [Arithmetic K] in
/-- **What `initialize_rtable`'s loops do to a row**: a row that is filled
gets the neighbor list appended, every other row stays. -/
theorem fillTable_apply (self numNodes : Int) {nbs : List Nsaddr} (hn : nbs ≠ [])
    (ph : K) (rt : RtableT K) (d : Int) :
    fillTable self numNodes nbs ph rt d =
      if Filled self numNodes d then some ((rt d).getD [] ++ nbs.map (⟨·, ph⟩)) else rt d := by
  have key : ∀ n : Nat, (List.range n).foldl
      (fun rt (i : Nat) => if self ≠ (i : Int) then fillRow nbs ph rt (i : Int) else rt) rt d =
      if Filled self n d then some ((rt d).getD [] ++ nbs.map (⟨·, ph⟩)) else rt d := by
    intro n
    induction n with
    | zero =>
      rw [List.range_zero, List.foldl_nil, if_neg]
      simp only [Filled]; omega
    | succ n ih =>
      rw [List.range_succ, List.foldl_append, List.foldl_cons, List.foldl_nil]
      by_cases hs : self = (n : Int)
      · rw [if_neg (by simpa using hs), ih]
        congr 1
        simp only [Filled, eq_iff_iff]; omega
      · rw [if_pos hs, fillRow_apply]
        by_cases hd : d = (n : Int)
        · subst hd
          rw [if_pos ⟨rfl, hn⟩, ih, if_neg (by simp only [Filled]; omega),
            if_pos (by simp only [Filled]; omega)]
        · rw [if_neg (by simp [hd]), ih]
          congr 1
          simp only [Filled, eq_iff_iff]; omega
  have := key numNodes.toNat
  unfold fillTable
  rw [this]
  congr 1
  simp only [Filled, eq_iff_iff]; omega

end AntNet.L2
