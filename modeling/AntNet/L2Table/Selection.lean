import AntNet.L2Table.Rtable
import Mathlib.Algebra.Order.Field.Basic
import Mathlib.Algebra.Order.BigOperators.Group.List
import Mathlib.Tactic.Linarith
import Mathlib.Tactic.NormNum
import Mathlib.Tactic.Positivity

/-!
# When `calc_next` finds a way on

In any arithmetic, rounded or not, the weight of a link is not below its
pheromone value over the denominator of `link_probability`, whatever the
queues hold (`prob_ge`): a link with all the queued traffic has a heuristic
term 0, and with all queues empty the total is replaced by 1. `calc_next`
returns the parent exactly when there is no row or every entry other than the
parent weighs 0 (`calcNext_eq_parent_iff_weights`).

In exact arithmetic a positive value makes a positive weight (`prob_pos`), so
`calc_next` returns the parent exactly when there is no row or no entry other
than the parent (`calcNext_eq_parent_iff`).
-/
namespace AntNet.L2

open AntNet.L1

variable {K : Type}

section Arithmetic

variable [Arithmetic K] [LinearOrder K]

omit [LinearOrder K] in
theorem queueLens_length (q : Nat → Nsaddr → Nsaddr → Int) (source : Nsaddr)
    (row : PheromoneMatrix K) : (queueLens q source row : List K).length = row.length := by
  simp [queueLens]

/-- Every entry of the row is a candidate. -/
theorem exists_cand {row : PheromoneMatrix K} {l : List K} {n : Int} (hl : l.length = row.length)
    {e : Pheromone K} (he : e ∈ row) : ∃ w, (e, w) ∈ row.zip (prob row l n) := by
  obtain ⟨i, hi, rfl⟩ := List.mem_iff_getElem.mp he
  have hp : i < (prob row l n).length := by simp only [prob, List.length_zipWith]; omega
  refine ⟨(prob row l n)[i], List.mem_iff_getElem.mpr ⟨i, by rw [List.length_zip]; omega, ?_⟩⟩
  rw [List.getElem_zip]

omit [LinearOrder K] in
/-- The loop adds up the weights of the candidates other than the parent. -/
theorem totalExclParent_foldl (parent : Nsaddr) (cand : List (Pheromone K × K)) :
    totalExclParent parent cand =
      ((cand.filter fun c => c.1.neighbor ≠ parent).map Prod.snd).foldl (· + ·) 0 := by
  simp only [totalExclParent, List.foldl_map, List.foldl_filter, decide_eq_true_eq]

/-- The denominator of `link_probability`, antnet_math.h:52. -/
def linkDenominator (alpha : K) (numNeighbors : Int) : K := 1 + alpha * ((numNeighbors - 1 : Int) : K)

variable [Rounds K]

theorem ALPHA_nonneg : (0 : K) ≤ ALPHA :=
  Rounds.div_nonneg (Rounds.natCast_nonneg 45) (Rounds.natCast_nonneg 100)

theorem ALPHA_lt_one : (ALPHA : K) < 1 := Rounds.ratio_lt_one (m := 45) (n := 100) (by decide) (by decide)

/-- Without any neighbor the denominator is `1 - ALPHA`. -/
theorem linkDenominator_pos {n : Int} (hn : 0 ≤ n) : (0 : K) < linkDenominator ALPHA n := by
  unfold linkDenominator
  rcases hn.eq_or_lt with rfl | hpos
  · rw [zero_sub, Rounds.add_mul_neg_one]
    exact Rounds.sub_pos ALPHA_lt_one
  · exact Rounds.zero_lt_one.trans_le
      (Rounds.le_add_right (Rounds.mul_nonneg ALPHA_nonneg (Rounds.intCast_nonneg (by omega))))

/-- Adding up from `t` never gets below `t`, nor below what is added. -/
theorem foldl_add_bounds {l : List K} (h : ∀ q ∈ l, 0 ≤ q) : ∀ {t : K}, 0 ≤ t →
    t ≤ l.foldl (· + ·) t ∧ ∀ q ∈ l, q ≤ l.foldl (· + ·) t := by
  induction l with
  | nil => exact fun _ => ⟨le_rfl, by simp⟩
  | cons x l ih =>
    intro t ht
    obtain ⟨hx, hl⟩ := List.forall_mem_cons.mp h
    have hle : t ≤ t + x := Rounds.le_add_right hx
    obtain ⟨hstart, hrest⟩ := ih hl (ht.trans hle)
    exact ⟨hle.trans hstart, List.forall_mem_cons.mpr ⟨(Rounds.le_add_left ht).trans hstart, hrest⟩⟩

theorem foldl_add_zero {l : List K} (h : ∀ q ∈ l, q = 0) : l.foldl (· + ·) 0 = 0 := by
  induction l with
  | nil => rfl
  | cons x l ih =>
    obtain ⟨rfl, hl⟩ := List.forall_mem_cons.mp h
    rw [List.foldl_cons, Rounds.add_zero]
    exact ih hl

/-- The total is positive and no queue is longer. -/
theorem qtotal_bounds {l : List K} (h : ∀ q ∈ l, 0 ≤ q) :
    0 < qtotal l ∧ ∀ q ∈ l, q ≤ qtotal l := by
  obtain ⟨h0, hle⟩ := foldl_add_bounds h le_rfl
  simp only [qtotal]
  split
  · rename_i hz
    exact ⟨Rounds.zero_lt_one, fun q hq => ((hle q hq).trans hz.le).trans Rounds.zero_lt_one.le⟩
  · rename_i hz
    exact ⟨lt_of_le_of_ne h0 (Ne.symm hz), hle⟩

/-- The heuristic only adds to the weight. -/
theorem linkProbability_ge {ph q Q : K} {n : Int} (hle : q ≤ Q) (hQ : 0 < Q) (hn : 0 ≤ n) :
    ph / linkDenominator ALPHA n ≤ linkProbability ph ALPHA q Q n := by
  have hheur : (0 : K) ≤ 1 - q / Q := Rounds.sub_nonneg (Rounds.div_le_one hle hQ)
  exact Rounds.div_le_div (Rounds.le_add_right (Rounds.mul_nonneg ALPHA_nonneg hheur))
    (linkDenominator_pos hn)

/-- **A candidate weighs at least its pheromone value over the denominator.** -/
theorem prob_ge {row : PheromoneMatrix K} {l : List K} {n : Int} (hl : ∀ q ∈ l, 0 ≤ q) (hn : 0 ≤ n) :
    ∀ c ∈ row.zip (prob row l n), c.1.phvalue / linkDenominator ALPHA n ≤ c.2 := by
  obtain ⟨hQ, hle⟩ := qtotal_bounds hl
  intro c hc
  obtain ⟨i, hi, rfl⟩ := List.mem_iff_getElem.mp hc
  simp only [prob, List.length_zip, List.length_zipWith] at hi
  simp only [prob, List.getElem_zip, List.getElem_zipWith]
  exact linkProbability_ge (hle _ (List.getElem_mem _)) hQ hn

theorem prob_nonneg {row : PheromoneMatrix K} {l : List K} {n : Int} (hrow : ∀ e ∈ row, 0 ≤ e.phvalue)
    (hl : ∀ q ∈ l, 0 ≤ q) (hn : 0 ≤ n) : ∀ c ∈ row.zip (prob row l n), 0 ≤ c.2 := fun c hc =>
  (Rounds.div_nonneg (hrow _ (List.of_mem_zip hc).1) (linkDenominator_pos hn).le).trans (prob_ge hl hn c hc)

theorem queueLens_nonneg {q : Nat → Nsaddr → Nsaddr → Int} (hq : ∀ k x y, 0 ≤ q k x y)
    (source : Nsaddr) (row : PheromoneMatrix K) : ∀ x ∈ (queueLens q source row : List K), 0 ≤ x := by
  intro x hx
  obtain ⟨i, hi, rfl⟩ := List.mem_iff_getElem.mp hx
  simp only [queueLens, List.getElem_mapIdx]
  exact Rounds.intCast_nonneg (hq _ _ _)

/-- The total is 0 when every candidate but the parent weighs 0. -/
theorem totalExclParent_le_zero_iff {parent : Nsaddr} {cand : List (Pheromone K × K)}
    (h : ∀ c ∈ cand, 0 ≤ c.2) :
    totalExclParent parent cand ≤ 0 ↔ ∀ c ∈ cand, c.1.neighbor = parent ∨ c.2 = 0 := by
  have hmem : ∀ w ∈ (cand.filter fun c => c.1.neighbor ≠ parent).map Prod.snd, 0 ≤ w := by
    intro w hw
    obtain ⟨c, hc, rfl⟩ := List.mem_map.mp hw
    exact h c (List.mem_filter.mp hc).1
  rw [totalExclParent_foldl]
  constructor
  · intro htot c hc
    by_cases hp : c.1.neighbor = parent
    · exact .inl hp
    · have hle := (foldl_add_bounds hmem le_rfl).2 c.2
        (List.mem_map.mpr ⟨c, List.mem_filter.mpr ⟨hc, by simpa using hp⟩, rfl⟩)
      exact .inr (le_antisymm (hle.trans htot) (h c hc))
  · intro hall
    refine (foldl_add_zero fun w hw => ?_).le
    obtain ⟨c, hc, rfl⟩ := List.mem_map.mp hw
    obtain ⟨hc, hp⟩ := List.mem_filter.mp hc
    exact (hall c hc).resolve_left (by simpa using hp)

/-! ## Choosing -/

/-- **`calc_next` returns the parent exactly when nothing else weighs anything.** -/
theorem calcNext_eq_parent_iff_weights {rt : RtableT K} {q : Nat → Nsaddr → Nsaddr → Int} (u : K → K)
    {source dest parent : Nsaddr} {n : Int}
    (hrow : ∀ row, rt dest = some row → ∀ e ∈ row, 0 ≤ e.phvalue) (hq : ∀ k x y, 0 ≤ q k x y)
    (hn : 0 ≤ n) :
    calcNext rt q u source dest parent n = parent ↔
      rt dest = none ∨ ∃ row, rt dest = some row ∧
        ∀ c ∈ row.zip (prob row (queueLens q source row) n), c.1.neighbor = parent ∨ c.2 = 0 := by
  unfold calcNext
  cases h : rt dest with
  | none => simp
  | some row =>
    have hcand := prob_nonneg (hrow row h) (queueLens_nonneg hq source row) hn
    simp only [calcNextRow, Option.some.injEq, reduceCtorEq, false_or, exists_eq_left']
    rw [← totalExclParent_le_zero_iff hcand]
    constructor
    · intro hp
      by_contra hpos
      rw [if_neg hpos] at hp
      rw [totalExclParent_le_zero_iff hcand, not_forall₂] at hpos
      obtain ⟨c, hc, hw⟩ := hpos
      exact sample_ne_parent _ _ _ _ (.inr ⟨c, hc, (not_or.mp hw).1⟩) hp
    · exact fun hp => if_pos hp

/-- The same where no pheromone value vanishes in the division. -/
theorem calcNext_eq_parent_iff_of_div {rt : RtableT K} {q : Nat → Nsaddr → Nsaddr → Int} (u : K → K)
    {source dest parent : Nsaddr} {n : Int}
    (hrow : ∀ row, rt dest = some row → ∀ e ∈ row, 0 ≤ e.phvalue)
    (hdiv : ∀ row, rt dest = some row → ∀ e ∈ row, 0 < e.phvalue / linkDenominator ALPHA n)
    (hq : ∀ k x y, 0 ≤ q k x y) (hn : 0 ≤ n) :
    calcNext rt q u source dest parent n = parent ↔
      rt dest = none ∨ ∃ row, rt dest = some row ∧ ∀ e ∈ row, e.neighbor = parent := by
  rw [calcNext_eq_parent_iff_weights u hrow hq hn]
  refine or_congr_right (exists_congr fun row => and_congr_right fun h => ⟨fun hall e he => ?_, fun hall c hc =>
    .inl (hall _ (List.of_mem_zip hc).1)⟩)
  obtain ⟨w, hw⟩ := exists_cand (l := queueLens q source row) (n := n) (queueLens_length q source row) he
  have hpos := (hdiv row h e he).trans_le (prob_ge (queueLens_nonneg hq source row) hn _ hw)
  exact (hall _ hw).resolve_right hpos.ne'

/-- The draw 0 selects the first link, unless it is the parent or weighs nothing. -/
theorem calcNext_first {rt : RtableT K} {row : PheromoneMatrix K} {e : Pheromone K} {dest : Nsaddr}
    (hrow : rt dest = some (e :: row)) (hph : ∀ e' ∈ e :: row, 0 ≤ e'.phvalue)
    {q : Nat → Nsaddr → Nsaddr → Int} (hq : ∀ k x y, 0 ≤ q k x y) {u : K → K} (hu : ∀ W, u W = 0)
    {source parent : Nsaddr} (hne : e.neighbor ≠ parent) {n : Int} (hn : 0 ≤ n)
    (hpos : 0 < e.phvalue / linkDenominator ALPHA n) :
    calcNext rt q u source dest parent n = e.neighbor := by
  have hlens : ∀ x ∈ (queueLens q source (e :: row) : List K), 0 ≤ x := queueLens_nonneg hq source _
  have hge : ∀ c ∈ (e :: row).zip (prob (e :: row) (queueLens q source (e :: row)) n),
      c.1.phvalue / linkDenominator ALPHA n ≤ c.2 := prob_ge hlens hn
  have hcand := prob_nonneg hph hlens hn
  obtain ⟨w, cand, hc⟩ : ∃ w cand,
      (e :: row).zip (prob (e :: row) (queueLens q source (e :: row)) n) = (e, w) :: cand := by
    cases hl : (queueLens q source (e :: row) : List K) with
    | nil => simp [queueLens] at hl
    | cons x l => exact ⟨_, _, rfl⟩
  rw [hc] at hge hcand
  have hw : 0 < w := hpos.trans_le (hge _ List.mem_cons_self)
  have htotal : ¬ totalExclParent parent ((e, w) :: cand) ≤ 0 := fun h =>
    ((totalExclParent_le_zero_iff hcand).mp h _ List.mem_cons_self).elim hne hw.ne'
  simp only [calcNext, hrow, calcNextRow, hc, if_neg htotal, hu, sample, if_neg hne]
  exact if_pos (hw.trans_le (Rounds.le_add_left le_rfl))

end Arithmetic

/-! ## Exact arithmetic -/

section Exact

variable [Field K]

/-- The total without the parent is a sum. -/
theorem totalExclParent_eq (parent : Nsaddr) (cand : List (Pheromone K × K)) :
    totalExclParent parent cand =
      ((cand.filter fun c => c.1.neighbor ≠ parent).map Prod.snd).sum := by
  rw [totalExclParent_foldl, List.sum_eq_foldl]

theorem totalExclParent_all {parent : Nsaddr} {cand : List (Pheromone K × K)}
    (h : ∀ c ∈ cand, c.1.neighbor = parent) : totalExclParent parent cand = 0 := by
  have hnil : (cand.filter fun c => c.1.neighbor ≠ parent) = [] :=
    List.filter_eq_nil_iff.mpr fun c hc => by simpa using h c hc
  rw [totalExclParent_eq, hnil]
  rfl

variable [LinearOrder K] [IsStrictOrderedRing K]

/-- **Every candidate has a positive weight.** -/
theorem prob_pos {row : PheromoneMatrix K} {l : List K} {n : Int} (hrow : ∀ e ∈ row, 0 < e.phvalue)
    (hl : ∀ q ∈ l, 0 ≤ q) (hn : 0 ≤ n) : ∀ c ∈ row.zip (prob row l n), 0 < c.2 := fun c hc =>
  (div_pos (hrow _ (List.of_mem_zip hc).1) (linkDenominator_pos hn)).trans_le (prob_ge hl hn c hc)

/-- **`calc_next` returns the parent only at a dead end.** -/
theorem calcNext_eq_parent_iff {rt : RtableT K} {q : Nat → Nsaddr → Nsaddr → Int} (u : K → K)
    {source dest parent : Nsaddr} {n : Int}
    (hrow : ∀ row, rt dest = some row → ∀ e ∈ row, 0 < e.phvalue) (hq : ∀ k x y, 0 ≤ q k x y)
    (hn : 0 ≤ n) :
    calcNext rt q u source dest parent n = parent ↔
      rt dest = none ∨ ∃ row, rt dest = some row ∧ ∀ e ∈ row, e.neighbor = parent :=
  calcNext_eq_parent_iff_of_div u (fun row hr e he => (hrow row hr e he).le)
    (fun row hr e he => div_pos (hrow row hr e he) (linkDenominator_pos hn)) hq hn

end Exact

end AntNet.L2
