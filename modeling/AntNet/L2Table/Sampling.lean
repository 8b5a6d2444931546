import AntNet.Core.Sampling
import AntNet.L2Table.Weights

/-!
# `calc_next` as a sampler

The distribution `calc_next` means to sample is written once more without its
loops: `linkWeights` pairs every entry of the row with its link probability,
and the entries whose neighbor is not the parent are `Eligible`. The three
loops compute it: `zip_prob` for the weights, `totalExclParent_mass` for the
total, `sample_eq_pick` for the walk (`AntNet.Sampling.pick`).

* `calcNext_samples`: every draw below the total selects the one entry whose
  slot it lies in; for any draw the result is a neighbor in the row other than
  the parent; with no weight to share out it is the parent.
* `calcNext_numNeighbors`: the neighbor count scales all weights, the total
  and the draw alike, so it has no influence on the next hop.
-/
namespace AntNet.L2

open AntNet.L1 AntNet.Sampling

variable {K : Type} [Field K] [LinearOrder K]

/-- An entry with its weight, for a link that is not back to the parent. -/
abbrev Eligible (parent : Nsaddr) (c : Pheromone K × K) : Prop := c.1.neighbor ≠ parent

/-- The weights `w_k = (ph_k + ALPHA (1 - q_k / Q)) / (1 + ALPHA (n - 1))`, with `Q`
the sum of the queue lengths, or 1 when that is 0. -/
def linkWeights (row : PheromoneMatrix K) (queueLen : List K) (n : Int) : List (Pheromone K × K) :=
  List.zipWith
    (fun e q => (e, (e.phvalue + ALPHA * (1 - q / if queueLen.sum = 0 then 1 else queueLen.sum)) /
      (1 + ALPHA * ((n : K) - 1))))
    row queueLen

/-- The candidates of the sampling loops are the link weights. -/
theorem zip_prob (row : PheromoneMatrix K) (queueLen : List K) (n : Int) :
    row.zip (prob row queueLen n) = linkWeights row queueLen n := by
  have key : ∀ (Q : K) (r : PheromoneMatrix K) (l : List K),
      r.zip (List.zipWith (fun e q => linkProbability e.phvalue ALPHA q Q n) r l) =
        List.zipWith (fun e q => (e, (e.phvalue + ALPHA * (1 - q / Q)) /
          (1 + ALPHA * ((n : K) - 1)))) r l := by
    intro Q r
    induction r with
    | nil => simp
    | cons e r ih =>
      intro l
      cases l with
      | nil => simp
      | cons q l =>
        simp only [List.zipWith_cons_cons, List.zip_cons_cons, ih l]
        simp [linkProbability]
  unfold prob linkWeights
  rw [key, qtotal_eq]

omit [LinearOrder K] in
theorem totalExclParent_mass (parent : Nsaddr) (cand : List (Pheromone K × K)) :
    totalExclParent parent cand = mass (Eligible parent) Prod.snd cand := by
  rw [totalExclParent_eq]
  induction cand with
  | nil => rfl
  | cons c cand ih =>
    by_cases h : c.1.neighbor = parent
    · simpa [h] using ih
    · simpa [h] using ih

theorem sample_eq_pick (parent : Nsaddr) (x : K) : ∀ (cand : List (Pheromone K × K)) (cum : K)
    (last : Nsaddr), sample parent x cand cum last =
      ((pick (Eligible parent) Prod.snd x cand cum).map (·.1.neighbor)).getD last
  | [], _, _ => rfl
  | c :: cand, cum, last => by
    unfold sample pick
    by_cases hc : c.1.neighbor = parent
    · simp [hc, sample_eq_pick parent x cand cum last]
    · by_cases hx : x < cum + c.2
      · simp [hc, hx]
      · rw [if_neg hc, if_neg hx, if_pos hc, if_neg hx, sample_eq_pick parent x cand]
        cases pick (Eligible parent) Prod.snd x cand (cum + c.2) <;> rfl

/-- `calc_next` in terms of the distribution. -/
theorem calcNext_eq {rt : RtableT K} {row : PheromoneMatrix K} {dest : Nsaddr}
    (hrow : rt dest = some row) (queueLength : Nat → Nsaddr → Nsaddr → Int) (uniform : K → K)
    (source parent : Nsaddr) (n : Int) :
    calcNext rt queueLength uniform source dest parent n =
      let cand := linkWeights row (queueLens queueLength source row) n
      let W := mass (Eligible parent) Prod.snd cand
      if W ≤ 0 then parent
      else ((pick (Eligible parent) Prod.snd (uniform W) cand 0).map (·.1.neighbor)).getD parent := by
  unfold calcNext
  simp only [hrow, calcNextRow, zip_prob, totalExclParent_mass, sample_eq_pick]

theorem linkWeights_fst {row : PheromoneMatrix K} {l : List K} (hl : l.length = row.length)
    (n : Int) : (linkWeights row l n).map Prod.fst = row := by
  rw [← zip_prob, List.map_fst_zip]
  simp [prob, hl]

/-! ## The slots -/

section Slots

variable [IsStrictOrderedRing K]

theorem linkWeights_nonneg {row : PheromoneMatrix K} {l : List K} {n : Int}
    (hrow : ∀ e ∈ row, 0 ≤ e.phvalue) (hl : ∀ q ∈ l, 0 ≤ q) (hn : 0 ≤ n) :
    ∀ c ∈ linkWeights row l n, 0 ≤ c.2 := by
  intro c hc
  rw [← zip_prob, prob_eq_probAt] at hc
  exact probAt_nonneg ALPHA_pos.le hrow hl (ALPHA_den_pos hn) _ (List.of_mem_zip hc).2

omit [IsStrictOrderedRing K] in
/-- With a positive total there is an eligible entry. -/
theorem exists_eligible {parent : Nsaddr} {cand : List (Pheromone K × K)}
    (h : 0 < mass (Eligible parent) Prod.snd cand) : ∃ c ∈ cand, Eligible parent c := by
  apply Classical.byContradiction
  intro hno
  have hall : ∀ c ∈ cand, c.1.neighbor = parent := by
    intro c hc
    exact Classical.not_not.mp fun hne => hno ⟨c, hc, hne⟩
  rw [← totalExclParent_mass, totalExclParent_all hall] at h
  exact lt_irrefl _ h

omit [IsStrictOrderedRing K] in
/-- With a positive total the next hop is the neighbor of the entry picked. -/
theorem calcNext_picked {rt : RtableT K} {dest : Nsaddr} {row : PheromoneMatrix K}
    (hrow : rt dest = some row) (queueLength : Nat → Nsaddr → Nsaddr → Int) (uniform : K → K)
    (source parent : Nsaddr) (n : Int)
    (h0 : 0 < mass (Eligible parent) Prod.snd
      (linkWeights row (queueLens queueLength source row) n)) :
    ∃ c, pick (Eligible parent) Prod.snd
        (uniform (mass (Eligible parent) Prod.snd
          (linkWeights row (queueLens queueLength source row) n)))
        (linkWeights row (queueLens queueLength source row) n) 0 = some c ∧
      calcNext rt queueLength uniform source dest parent n = c.1.neighbor := by
  rw [calcNext_eq hrow]
  generalize linkWeights row (queueLens queueLength source row) n = cand at h0 ⊢
  obtain ⟨c, hp⟩ := pick_isSome (x := uniform (mass (Eligible parent) Prod.snd cand)) (c := 0)
    (w := Prod.snd) (exists_eligible h0)
  refine ⟨c, hp, ?_⟩
  rw [if_neg h0.not_ge, hp]
  rfl

/-- **`calc_next` samples the link weights of the row.** -/
theorem calcNext_samples (rt : RtableT K) {queueLength : Nat → Nsaddr → Nsaddr → Int}
    (uniform : K → K) (source dest parent : Nsaddr) {n : Int}
    (hph : ∀ row, rt dest = some row → ∀ e ∈ row, 0 ≤ e.phvalue)
    (hq : ∀ k x y, 0 ≤ queueLength k x y) (hn : 1 ≤ n) :
    (rt dest = none → calcNext rt queueLength uniform source dest parent n = parent) ∧
    ∀ row, rt dest = some row →
      let cand := linkWeights row (queueLens queueLength source row) n
      let W := mass (Eligible parent) Prod.snd cand
      (W ≤ 0 → calcNext rt queueLength uniform source dest parent n = parent) ∧
      (0 < W →
        calcNext rt queueLength uniform source dest parent n ≠ parent ∧
        calcNext rt queueLength uniform source dest parent n ∈ neighbors row ∧
        (∀ k, Slot (Eligible parent) Prod.snd cand (uniform W) k →
          (neighbors row)[k]? = some (calcNext rt queueLength uniform source dest parent n)) ∧
        (∀ x, 0 ≤ x → x < W → ∃! k, Slot (Eligible parent) Prod.snd cand x k) ∧
        ∀ x k, Slot (Eligible parent) Prod.snd cand x k → 0 ≤ x ∧ x < W) := by
  constructor
  · intro h
    unfold calcNext
    rw [h]
  intro row hrow cand W
  have hw : ∀ c ∈ cand, Eligible parent c → 0 ≤ c.2 := by
    intro c hc _
    exact linkWeights_nonneg (hph row hrow) (queueLens_nonneg hq source row) (by omega) c hc
  have hfst : cand.map Prod.fst = row := linkWeights_fst (queueLens_length _ _ _) n
  constructor
  · intro h0
    rw [calcNext_eq hrow]
    exact if_pos h0
  intro h0
  obtain ⟨c, hp, hres⟩ := calcNext_picked hrow queueLength uniform source parent n h0
  obtain ⟨hc, hne⟩ := pick_mem hp
  rw [hres]
  refine ⟨hne, ?_, ?_, ?_, ?_⟩
  · have hrow' : c.1 ∈ row := by
      rw [← hfst]
      exact List.mem_map_of_mem hc
    exact List.mem_map_of_mem hrow'
  · intro k hk
    have hget : cand[k]? = some c := by
      rw [← pick_of_slot hw hk]
      exact hp
    rw [← hfst, neighbors, List.getElem?_map, List.getElem?_map, hget]
    rfl
  · intro x hx0 hx
    exact slot_existsUnique hw hx0 hx
  · intro x k hk
    exact hk.lt_mass hw

/-- Whatever the queues hold, every link but the one back is what some draw
below the total selects. -/
theorem calcNext_draw {rt : RtableT K} {row : PheromoneMatrix K} {dest : Nsaddr}
    (hrow : rt dest = some row) (hph : ∀ e ∈ row, 0 < e.phvalue) {q : Nat → Nsaddr → Nsaddr → Int}
    (hq : ∀ k x y, 0 ≤ q k x y) (source : Nsaddr) {parent next : Nsaddr} (hnext : next ∈ neighbors row)
    (hne : next ≠ parent) {n : Int} (hn : 0 ≤ n) :
    ∃ t : K, 0 ≤ t ∧ t < 1 ∧ calcNext rt q (fun W => t * W) source dest parent n = next := by
  obtain ⟨e, he, rfl⟩ := List.mem_map.mp hnext
  have hql : ∀ x ∈ (queueLens q source row : List K), 0 ≤ x := queueLens_nonneg hq source row
  obtain ⟨w, hmem⟩ := exists_cand (n := n) (queueLens_length q source row) he
  have hpos : 0 < w := prob_pos hph hql hn _ hmem
  simp only [calcNext_eq hrow]
  rw [zip_prob] at hmem
  have hw : ∀ c ∈ linkWeights row (queueLens q source row) n, Eligible parent c → 0 ≤ c.2 :=
    fun c hc _ => linkWeights_nonneg (fun e he => (hph e he).le) hql hn c hc
  generalize linkWeights row (queueLens q source row) n = cand at hmem hw ⊢
  obtain ⟨x, k, hk, hs⟩ := exists_slot (w := Prod.snd) hmem (show Eligible parent _ from hne) hpos
  obtain ⟨hx0, hxW⟩ := hs.lt_mass hw
  have hW : 0 < mass (Eligible parent) Prod.snd cand := hx0.trans_lt hxW
  refine ⟨x / mass (Eligible parent) Prod.snd cand, div_nonneg hx0 hW.le, (div_lt_one hW).mpr hxW, ?_⟩
  simp only [if_neg hW.not_ge, div_mul_cancel₀ x hW.ne', pick_of_slot hw hs, hk]
  rfl

/-- Half of the draws below the total 2 go to each of the two links. -/
theorem calcNext_samples_two :
    calcNext (K := ℚ) (fun d => if d = 9 then some [⟨1, 1 / 2⟩, ⟨2, 1 / 2⟩] else none) (fun _ _ _ => 0)
      (fun W => W / 4) 0 9 0 2 ∈ neighbors (K := ℚ) [⟨1, 1 / 2⟩, ⟨2, 1 / 2⟩] :=
  have h := calcNext_samples (K := ℚ)
    (fun d => if d = 9 then some [⟨1, 1 / 2⟩, ⟨2, 1 / 2⟩] else none)
    (fun W => W / 4) 0 9 0
    (by intro row h e he; simp at h; subst h; simp at he; rcases he with rfl | rfl <;> norm_num)
    (fun _ _ _ => le_refl (0 : Int)) (show (1 : Int) ≤ 2 by norm_num)
  ((h.2 _ rfl).2 (by norm_num [linkWeights, queueLens, ALPHA])).2.1

end Slots

/-! ## The neighbor count -/

section NumNeighbors

variable [IsStrictOrderedRing K]

/-- Another neighbor count scales every weight by one positive factor. -/
theorem linkWeights_scale (row : PheromoneMatrix K) (l : List K) {n n' : Int} (hn : 0 ≤ n)
    (hn' : 0 ≤ n') : ∃ s : K, 0 < s ∧
      linkWeights row l n' = (linkWeights row l n).map fun c => (c.1, s * c.2) := by
  have h := ALPHA_den_pos (K := K) hn
  have h' := ALPHA_den_pos (K := K) hn'
  push_cast at h h'
  refine ⟨(1 + ALPHA * ((n : K) - 1)) / (1 + ALPHA * ((n' : K) - 1)), div_pos h h', ?_⟩
  unfold linkWeights
  rw [List.map_zipWith]
  congr 1
  funext e q
  rw [Prod.mk.injEq]
  refine ⟨rfl, ?_⟩
  field_simp

/-- **The neighbor count has no influence on the next hop.** -/
theorem calcNext_numNeighbors (rt : RtableT K) (queueLength : Nat → Nsaddr → Nsaddr → Int) (u : K)
    (source dest parent : Nsaddr) {n n' : Int} (hn : 0 ≤ n) (hn' : 0 ≤ n') :
    calcNext rt queueLength (fun W => u * W) source dest parent n =
      calcNext rt queueLength (fun W => u * W) source dest parent n' := by
  cases hrow : rt dest with
  | none => simp [calcNext, hrow]
  | some row =>
    obtain ⟨s, hs, hscale⟩ := linkWeights_scale row (queueLens queueLength source row) hn hn'
    rw [calcNext_eq hrow, calcNext_eq hrow, hscale]
    generalize linkWeights row (queueLens queueLength source row) n = cand
    have hmass : mass (Eligible parent) Prod.snd (cand.map fun c => (c.1, s * c.2)) =
        s * mass (Eligible parent) Prod.snd cand := by
      rw [mass_map, ← mass_scale]
    have hpick : ∀ x, pick (Eligible parent) Prod.snd (s * x) (cand.map fun c => (c.1, s * c.2)) 0 =
        (pick (Eligible parent) Prod.snd x cand 0).map fun c => (c.1, s * c.2) := by
      intro x
      have hz := pick_scale (Eligible parent) Prod.snd hs x cand 0
      rw [mul_zero] at hz
      rw [pick_map, ← hz]
    have hdraw : u * (s * mass (Eligible parent) Prod.snd cand) =
        s * (u * mass (Eligible parent) Prod.snd cand) := by ring
    have hsign : s * mass (Eligible parent) Prod.snd cand ≤ 0 ↔
        mass (Eligible parent) Prod.snd cand ≤ 0 := by
      rw [← not_lt, ← not_lt, mul_pos_iff_of_pos_left hs]
    simp only [hmass, hdraw, hpick, hsign, Option.map_map, Function.comp_def]

/-- Two links, counted as two and as none at all. -/
theorem calcNext_numNeighbors_two :
    calcNext (K := ℚ) (fun _ => some [⟨1, 1 / 4⟩, ⟨2, 3 / 4⟩]) (fun _ _ _ => 0) (fun W => 1 / 2 * W)
        0 9 0 2 =
      calcNext (K := ℚ) (fun _ => some [⟨1, 1 / 4⟩, ⟨2, 3 / 4⟩]) (fun _ _ _ => 0) (fun W => 1 / 2 * W)
        0 9 0 0 :=
  calcNext_numNeighbors _ _ (1 / 2) 0 9 0 (by norm_num) (by norm_num)

end NumNeighbors

end AntNet.L2
