import AntNet.L2Table.Selection
import Mathlib.Tactic.FieldSimp

/-!
# Link probabilities over a whole row

`probAt` is the `prob` of `calc_next` with the constant `ALPHA` as a
parameter. With `n` links, pheromone values that sum to 1 and `Q` the total
over the queues, the heuristic terms `1 - q / Q` sum to `n - 1`, which is what
the denominator `1 + alpha (n - 1)` normalizes by. When all queues are empty
`Q` is replaced by 1 and they sum to `n`: the weights then exceed 1 in total,
and the sampling loop has to divide by the total it computed itself.
-/
namespace AntNet.L2

open AntNet.L1

variable {K : Type} [Field K] [LinearOrder K]

/-- `prob` for any relative weight `alpha` of the heuristic. -/
def probAt (alpha : K) (row : PheromoneMatrix K) (queueLen : List K) (numNeighbors : Int) : List K :=
  List.zipWith (fun e q => linkProbability e.phvalue alpha q (qtotal queueLen) numNeighbors)
    row queueLen

theorem prob_eq_probAt (row : PheromoneMatrix K) (queueLen : List K) (n : Int) :
    prob row queueLen n = probAt ALPHA row queueLen n := rfl

theorem qtotal_eq (l : List K) : qtotal l = if l.sum = 0 then 1 else l.sum := by
  show (if l.foldl (· + ·) 0 = 0 then 1 else l.foldl (· + ·) 0) = _
  rw [← List.sum_eq_foldl]

omit [LinearOrder K] in
/-- The link probabilities for any total `Q` add up term by term. -/
theorem sum_linkProbability (alpha Q : K) (n : Int) : ∀ (row : PheromoneMatrix K) (l : List K),
    l.length = row.length →
    (List.zipWith (fun e q => linkProbability e.phvalue alpha q Q n) row l).sum =
      ((row.map (·.phvalue)).sum + alpha * (row.length - l.sum / Q)) /
        (1 + alpha * ((n : K) - 1))
  | [], [], _ => by simp
  | [], q :: l, h => by simp at h
  | e :: row, [], h => by simp at h
  | e :: row, q :: l, h => by
    simp only [List.length_cons, Nat.add_right_cancel_iff] at h
    rw [List.zipWith_cons_cons, List.sum_cons, sum_linkProbability alpha Q n row l h]
    simp only [linkProbability, List.sum_cons, List.map_cons, List.length_cons]
    push_cast
    ring

section Order

variable [IsStrictOrderedRing K]

theorem ALPHA_pos : (0 : K) < ALPHA := by unfold ALPHA; norm_num

/-- The denominator is positive from no neighbor on. -/
theorem ALPHA_den_pos {n : Int} (hn : 0 ≤ n) : (0 : K) < 1 + ALPHA * ((n - 1 : Int) : K) :=
  linkDenominator_pos hn

theorem linkProbability_nonneg {ph alpha q Q : K} {n : Int} (hph : 0 ≤ ph) (hα : 0 ≤ alpha)
    (hle : q ≤ Q) (hQ : 0 < Q) (hden : 0 < 1 + alpha * ((n - 1 : Int) : K)) :
    0 ≤ linkProbability ph alpha q Q n := by
  have hheur : 0 ≤ 1 - q / Q := by
    have := (div_le_one hQ).mpr hle
    linarith
  unfold linkProbability
  exact div_nonneg (add_nonneg hph (mul_nonneg hα hheur)) hden.le

theorem probAt_nonneg {alpha : K} (hα : 0 ≤ alpha) {row : PheromoneMatrix K} {l : List K} {n : Int}
    (hrow : ∀ e ∈ row, 0 ≤ e.phvalue) (hl : ∀ q ∈ l, 0 ≤ q)
    (hden : 0 < 1 + alpha * ((n - 1 : Int) : K)) : ∀ w ∈ probAt alpha row l n, 0 ≤ w := by
  obtain ⟨hQ, hle⟩ := qtotal_bounds hl
  intro w hw
  obtain ⟨i, hi, rfl⟩ := List.mem_iff_getElem.mp hw
  simp only [probAt, List.length_zipWith] at hi
  simp only [probAt, List.getElem_zipWith]
  exact linkProbability_nonneg (hrow _ (List.getElem_mem _)) hα (hle _ (List.getElem_mem _)) hQ hden

omit [IsStrictOrderedRing K] in
theorem probAt_sum {alpha : K} {row : PheromoneMatrix K} {l : List K} {n : Int}
    (hlen : l.length = row.length) :
    (probAt alpha row l n).sum =
      ((row.map (·.phvalue)).sum + alpha * (row.length - l.sum / qtotal l)) /
        (1 + alpha * ((n : K) - 1)) :=
  sum_linkProbability alpha (qtotal l) n row l hlen

omit [IsStrictOrderedRing K] in
/-- Some traffic is queued: the heuristic terms sum to one less than the number of links. -/
theorem sum_div_qtotal {l : List K} (h : l.sum ≠ 0) : l.sum / qtotal l = 1 := by
  rw [qtotal_eq, if_neg h, div_self h]

/-- **The link probabilities of a row of `n` links.** -/
theorem link_probabilities {alpha : K} (hα : 0 ≤ alpha) {row : PheromoneMatrix K} {l : List K}
    (hne : row ≠ []) (hlen : l.length = row.length) (hph : ∀ e ∈ row, 0 ≤ e.phvalue)
    (hsum : (row.map (·.phvalue)).sum = 1) (hl : ∀ q ∈ l, 0 ≤ q) :
    (∀ p ∈ probAt alpha row l row.length, 0 ≤ p) ∧
    ((∃ q ∈ l, q ≠ 0) →
      (∀ p ∈ probAt alpha row l row.length, p ≤ 1) ∧ (probAt alpha row l row.length).sum = 1) ∧
    ((∀ q ∈ l, q = 0) →
      (probAt alpha row l row.length).sum =
        (1 + alpha * row.length) / (1 + alpha * ((row.length : K) - 1)) ∧
      (0 < alpha → 1 < (1 + alpha * row.length) / (1 + alpha * ((row.length : K) - 1)))) := by
  have hn1 : (1 : K) ≤ (row.length : K) := by
    exact_mod_cast List.length_pos_iff.mpr hne
  have hden : 0 < 1 + alpha * ((row.length : K) - 1) := by
    have := mul_nonneg hα (sub_nonneg.mpr hn1)
    linarith
  have h0 : ∀ p ∈ probAt alpha row l row.length, 0 ≤ p :=
    probAt_nonneg hα hph hl (by push_cast; exact hden)
  refine ⟨h0, ?_, ?_⟩
  · rintro ⟨q, hq, hq0⟩
    have hpos : l.sum ≠ 0 := by
      intro hz
      exact hq0 (le_antisymm ((List.single_le_sum hl q hq).trans hz.le) (hl q hq))
    have htot : (probAt alpha row l row.length).sum = 1 := by
      rw [probAt_sum hlen, hsum, sum_div_qtotal hpos, Int.cast_natCast, div_self hden.ne']
    refine ⟨fun p hp => ?_, htot⟩
    rw [← htot]
    exact List.single_le_sum h0 p hp
  · intro hz
    have hsum0 : l.sum = 0 := List.sum_eq_zero hz
    constructor
    · rw [probAt_sum hlen, hsum, hsum0, zero_div, sub_zero, Int.cast_natCast]
    · intro hα0
      rw [lt_div_iff₀ hden]
      linarith

/-- Two links, the queue of the first holding all the traffic. -/
theorem link_probabilities_two :
    (∀ p ∈ probAt (45 / 100 : ℚ) [⟨1, 1 / 2⟩, ⟨2, 1 / 2⟩] [3, 0] 2, p ≤ 1) ∧
      (probAt (45 / 100 : ℚ) [⟨1, 1 / 2⟩, ⟨2, 1 / 2⟩] [3, 0] 2).sum = 1 :=
  (link_probabilities (show (0 : ℚ) ≤ 45 / 100 by norm_num)
    (show ([⟨1, 1 / 2⟩, ⟨2, 1 / 2⟩] : PheromoneMatrix ℚ) ≠ [] by simp) (l := [3, 0]) rfl (by simp)
    (by norm_num) (by simp)).2.1 ⟨3, by simp, by norm_num⟩

end Order

end AntNet.L2
