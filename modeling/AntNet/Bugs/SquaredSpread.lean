import AntNet.L3Agent.Reinforcement
import Mathlib.Tactic.LinearCombination

/-!
# The spread is squared before it is updated

`update_traffic` takes `sigma = sqrt(var_tt)` (antnet.cc:500), so `var_tt` is a
variance, as its name says (antnet_traffic.h:42). An exponentially weighted
variance moves by the share `VARSIGMA` towards the squared distance of the
observation from the mean, as `mean_tt` moves towards the observation
(antnet.cc:475).

What is broken: the update (antnet.cc:476-477) works on `oldvar*oldvar`, as if
`var_tt` were a standard deviation, and stores the result without a root. A
spread above 1 is about squared by every observation, one below 1 vanishes.

Counterexample: the trip times 2 and 2 (`equal_times_spread`).

Condition: `var_tt` is 0 or 1 before every observation after the first one
(`spread_condition`); for positive trip times, the first is 1 and each later one
but the last is at a distance of 1 from the mean before it
(`weightedVariance_iff_unitSteps`).
-/
namespace AntNet.Bugs.SquaredSpread

open AntNet.L1 AntNet.L3.TrafficModel AntNet.Smoothing

variable {K : Type} [Field K] [LinearOrder K]

/-- `var_tt` is an exponentially weighted variance of the observations. The
entry `e` is the one before the observation `x`, `e'` the one after it. -/
structure WeightedVariance (obs : List K) : Prop where
  law : ∀ pre x post e e', obs = pre ++ x :: post → summary pre = some e →
    summary (pre ++ [x]) = some e' →
      e'.varTt = e.varTt + VARSIGMA * ((x - e.meanTt) * (x - e.meanTt) - e.varTt)
  bounded : ∀ a b, (∀ x ∈ obs, x ∈ Set.Icc a b) → ∀ pre post e first, obs = pre ++ post →
    summary pre = some e → summary (obs.take 1) = some first →
      e.varTt ≤ max first.varTt ((b - a) * (b - a))
  steady : (∀ x ∈ obs, ∀ y ∈ obs, x = y) → ∀ pre x post e e', obs = pre ++ x :: post →
    summary pre = some e → summary (pre ++ [x]) = some e' → e'.varTt ≤ e.varTt

/-- Before every observation after the first one `var_tt` is its own square. -/
def UnitSpread (obs : List K) : Prop :=
  ∀ pre x post e, obs = pre ++ x :: post → summary pre = some e → e.varTt = 0 ∨ e.varTt = 1

/-- The same of the trip times alone: with a second one, the first is 1, and
each later one but the last is at a distance of 1 from the mean before it. -/
def UnitSteps : List K → Prop
  | [] => True
  | o :: rest => rest = [] ∨ o = 1 ∧ ∀ pre x post, rest = pre ++ x :: post → post ≠ [] →
      |x - pre.foldl (smooth VARSIGMA) o| = 1

/-! ## Counterexample -/

theorem summary_two_two : summary [(2 : ℝ), 2] = some ⟨2, 398 / 100, 2⟩ := by
  have hmoments : moments (2 : ℝ) [2] = (2, 398 / 100) := by
    simp only [moments, momentsStep, VARSIGMA, List.foldl_cons, List.foldl_nil, Prod.mk.injEq]
    norm_num
  have hleast : leastIn (some [(2 : ℝ), 2]) = 2 := by simp [leastIn, AntNet.Samples.scanLeast]
  show some (TrafficMatrix.mk _ _ _) = _
  rw [hmoments, hleast]

/-- **Counterexample**: after the equal trip times 2 and 2 the spread has gone
up from 2 to 3.98. -/
theorem equal_times_spread : ∃ t' : Traffic ℝ,
    runCalls Real.sqrt 0 (Traffic.empty 0) [oneHop 2, oneHop 2] = some t' ∧
    observed 0 1 [oneHop (2 : ℝ), oneHop 2] = [2, 2] ∧ t'.state 1 = some ⟨2, 398 / 100, 2⟩ ∧
    ¬ WeightedVariance (observed 0 1 [oneHop (2 : ℝ), oneHop 2]) := by
  obtain ⟨t', hrun⟩ := runCalls_oneHop Real.sqrt (Traffic.empty (0 : ℝ)) [2, 2]
  have hobs : observed 0 1 [oneHop (2 : ℝ), oneHop 2] = [2, 2] := observed_oneHop [2, 2]
  have hstate := (agrees_runCalls (empty_initial _) hrun).state 1
  refine ⟨t', hrun, hobs, ?_, ?_⟩
  · rw [hstate]
    exact (congrArg summary hobs).trans summary_two_two
  · intro h
    rw [hobs] at h
    have hup := h.steady (by simp) [2] 2 [] _ _ rfl rfl summary_two_two
    simp only [moments_nil] at hup
    norm_num at hup

/-! ## When the law holds -/

section Condition

variable {obs pre post : List K} {o x : K} {e e' : TrafficMatrix K}

theorem unitSpread_front (post : List K) (h : UnitSpread (pre ++ post)) : UnitSpread pre := by
  intro p x q e hsplit he
  exact h p x (q ++ post) e (by rw [hsplit]; simp) he

omit [LinearOrder K] in
theorem mul_self_of_unit {v : K} (h : v = 0 ∨ v = 1) : v * v = v := by
  rcases h with rfl | rfl <;> ring

/-- As long as the spread is 0 or 1, squaring it does not show. -/
theorem moments_eq_meanSpread : ∀ (rest : List K), UnitSpread (o :: rest) →
    moments o rest = rest.foldl (meanSpread VARSIGMA) (o, o) := by
  intro rest
  induction rest using List.reverseRecOn with
  | nil => exact fun _ => rfl
  | append_singleton rest x ih =>
    intro h
    have hrest : UnitSpread (o :: rest) := unitSpread_front [x] (by simpa using h)
    have hunit := h (o :: rest) x [] _ (by simp) rfl
    rw [moments_snoc, List.foldl_append, ← ih hrest]
    have hsq := mul_self_of_unit hunit
    simp only [List.foldl_cons, List.foldl_nil, momentsStep, meanSpread, smooth]
    rw [hsq]

variable [IsStrictOrderedRing K]

/-- The code's update and the law agree exactly on 0 and 1. -/
theorem law_iff (v q : K) :
    v * v + VARSIGMA * (q - v * v) = v + VARSIGMA * (q - v) ↔ v = 0 ∨ v = 1 := by
  constructor
  · intro h
    have hfactor : (1 - VARSIGMA) * (v * (v - 1)) = 0 := by linear_combination h
    have hne : (1 - VARSIGMA : K) ≠ 0 := by unfold VARSIGMA; norm_num
    rcases mul_eq_zero.mp ((mul_eq_zero.mp hfactor).resolve_left hne) with h0 | h1
    · exact .inl h0
    · exact .inr (sub_eq_zero.mp h1)
  · intro h
    rw [mul_self_of_unit h]

theorem unitSpread_of_law (h : WeightedVariance obs) : UnitSpread obs := by
  intro pre x post e hsplit he
  have hlaw := h.law pre x post e _ hsplit he (summary_snoc he x)
  exact (law_iff e.varTt _).mp hlaw

theorem spread_bounded (h : UnitSpread (o :: (pre ++ post))) {a b : K}
    (hab : ∀ y ∈ o :: (pre ++ post), y ∈ Set.Icc a b) :
    (moments o pre).2 ≤ max o ((b - a) * (b - a)) := by
  rw [moments_eq_meanSpread pre (unitSpread_front post (by simpa using h))]
  have ho := hab o List.mem_cons_self
  refine spread_le varsigma_nonneg varsigma_le_one (le_max_right _ _) pre (o, o) ho (le_max_left _ _) ?_
  exact fun y hy => hab y (List.mem_cons_of_mem _ (List.mem_append_left _ hy))

theorem spread_steady (h : UnitSpread (o :: (pre ++ x :: post)))
    (heq : ∀ y ∈ o :: (pre ++ x :: post), y = o) :
    (moments o (pre ++ [x])).2 ≤ (moments o pre).2 := by
  have hunit : (moments o pre).2 = 0 ∨ (moments o pre).2 = 1 := h (o :: pre) x post _ rfl rfl
  have hx : x = o := heq x (by simp)
  have hmean : (moments o pre).1 = o := by
    rw [moments, foldl_momentsStep_fst]
    exact foldl_smooth_const _ o pre fun y hy => heq y (by simp [hy])
  have hnonneg : 0 ≤ (moments o pre).2 := by
    rcases hunit with h0 | h1
    · exact le_of_eq h0.symm
    · rw [h1]
      exact zero_le_one
  have hsq := mul_self_of_unit hunit
  have hlaw : (momentsStep (moments o pre) x).2
      = (meanSpread VARSIGMA (o, (moments o pre).2) o).2 := by
    simp only [momentsStep, meanSpread, smooth, hmean, hx]
    rw [hsq]
  rw [moments_snoc, hlaw]
  exact spread_step_le varsigma_nonneg hnonneg

theorem weightedVariance_iff : WeightedVariance obs ↔ UnitSpread obs := by
  refine ⟨unitSpread_of_law, fun h => ⟨?_, ?_, ?_⟩⟩
  · intro pre x post e e' hsplit he he'
    rw [summary_snoc he x] at he'
    obtain rfl := Option.some.inj he'
    exact (law_iff e.varTt _).mpr (h pre x post e hsplit he)
  · intro a b hab pre post e first hsplit he hfirst
    obtain ⟨o, rest, rfl, rfl⟩ := summary_eq_some he
    subst hsplit
    obtain rfl := Option.some.inj hfirst
    exact spread_bounded h hab
  · intro heq pre x post e e' hsplit he he'
    obtain ⟨o, rest, rfl, rfl⟩ := summary_eq_some he
    subst hsplit
    obtain rfl := Option.some.inj he'
    exact spread_steady h fun y hy => heq y hy o List.mem_cons_self

/-- A spread of 1 stays 1 exactly at a distance of 1 from the mean, and never gets to 0. -/
theorem momentsStep_one (m x : K) :
    0 < (momentsStep (m, 1) x).2 ∧ ((momentsStep (m, 1) x).2 = 1 ↔ |x - m| = 1) := by
  have hσ : 0 < (VARSIGMA : K) ∧ (VARSIGMA : K) < 1 := by unfold VARSIGMA; norm_num
  have hq := mul_nonneg hσ.1.le (mul_self_nonneg (x - m))
  have hstep : (momentsStep (m, 1) x).2 = 1 - VARSIGMA + VARSIGMA * ((x - m) * (x - m)) := by
    simp only [momentsStep]
    ring
  refine ⟨by rw [hstep]; linarith [hσ.2], ?_⟩
  rw [abs_eq zero_le_one, ← mul_self_eq_one_iff, hstep]
  constructor
  · intro h
    have hprod : (VARSIGMA : K) * ((x - m) * (x - m) - 1) = 0 := by linear_combination h
    exact sub_eq_zero.mp ((mul_eq_zero.mp hprod).resolve_left hσ.1.ne')
  · intro h
    rw [h]
    ring

theorem moments_one (pre : List K) (x : K) (h : (moments o pre).2 = 1) :
    0 < (moments o (pre ++ [x])).2 ∧
      ((moments o (pre ++ [x])).2 = 1 ↔ |x - pre.foldl (smooth VARSIGMA) o| = 1) := by
  have hmean : (moments o pre).1 = pre.foldl (smooth VARSIGMA) o := foldl_momentsStep_fst pre (o, o)
  rw [moments_snoc, ← hmean, ← Prod.mk.eta (p := moments o pre), h]
  exact momentsStep_one _ x

omit [IsStrictOrderedRing K] [LinearOrder K] in
/-- A spread that starts at 1 and that no observation but the last one changes. -/
theorem one_before_each (rest : List K) (hone : o = 1)
    (hstep : ∀ pre x post, rest = pre ++ x :: post → post ≠ [] → (moments o pre).2 = 1 →
      (moments o (pre ++ [x])).2 = 1) :
    ∀ pre post, rest = pre ++ post → post ≠ [] → (moments o pre).2 = 1 := by
  intro pre
  induction pre using List.reverseRecOn with
  | nil => exact fun _ _ _ => hone
  | append_singleton pre x ih =>
    intro post hsplit hpost
    have hsplit' : rest = pre ++ x :: post := by rw [hsplit]; simp
    exact hstep pre x post hsplit' hpost (ih (x :: post) hsplit' (List.cons_ne_nil _ _))

/-- The spread before each observation, by the distances of the ones before it. -/
theorem unitSpread_iff (hpos : ∀ x ∈ obs, 0 < x) : UnitSpread obs ↔ UnitSteps obs := by
  cases obs with
  | nil => exact iff_of_true (fun pre x post e h => by simp at h) trivial
  | cons o rest =>
    constructor
    · intro h
      by_cases hne : rest = []
      · exact .inl hne
      have hunit : ∀ pre post, rest = pre ++ post → post ≠ [] →
          (moments o pre).2 = 0 ∨ (moments o pre).2 = 1 := by
        intro pre post hsplit hpost
        cases post with
        | nil => exact absurd rfl hpost
        | cons x post => exact h (o :: pre) x post _ (by rw [hsplit]; rfl) rfl
      have hone : o = 1 := (hunit [] rest rfl hne).resolve_left (hpos o List.mem_cons_self).ne'
      have hall := one_before_each rest hone fun pre x post hsplit hpost hx =>
        -- a positive spread that is 0 or 1 is 1
        (hunit (pre ++ [x]) post (by rw [hsplit]; simp) hpost).resolve_left (moments_one pre x hx).1.ne'
      refine .inr ⟨hone, fun pre x post hsplit hpost => ?_⟩
      have hx := hall pre (x :: post) hsplit (List.cons_ne_nil _ _)
      exact (moments_one pre x hx).2.mp (hall (pre ++ [x]) post (by rw [hsplit]; simp) hpost)
    · rintro (rfl | ⟨hone, hdist⟩) pre x post e hsplit he
      · obtain ⟨o', rest, rfl, -⟩ := summary_eq_some he
        exact absurd (List.cons.inj hsplit).2 (by simp)
      · obtain ⟨o', pre, rfl, rfl⟩ := summary_eq_some he
        obtain ⟨rfl, hrest⟩ := List.cons.inj hsplit
        have hall := one_before_each rest hone fun pre x post hsplit hpost hx =>
          (moments_one pre x hx).2.mpr (hdist pre x post hsplit hpost)
        exact .inr (hall pre (x :: post) hrest (List.cons_ne_nil _ _))

/-- The condition on the trip times alone, which are positive. -/
theorem weightedVariance_iff_unitSteps (hpos : ∀ x ∈ obs, 0 < x) :
    WeightedVariance obs ↔ UnitSteps obs := weightedVariance_iff.trans (unitSpread_iff hpos)

/-- **When the spread is a weighted variance**: `state_[dest]` is the summary of
what was observed for `dest`, and its spread follows the law, with the bounds
that come from it, if and only if it was 0 or 1 before every observation after
the first one. -/
theorem spread_condition (sqrt : K → K) (self d : Nsaddr) {t t' : Traffic K} (ht : t.Initial)
    {ahs : List (HdrAntPkt K)} (hrun : runCalls sqrt self t ahs = some t') :
    t'.state d = summary (observed self d ahs) ∧
      (WeightedVariance (observed self d ahs) ↔ UnitSpread (observed self d ahs)) :=
  ⟨(agrees_runCalls ht hrun).state d, weightedVariance_iff⟩

end Condition

theorem unitSpread_one_two : UnitSpread [(1 : ℝ), 2] := by
  intro pre x post e hsplit he
  obtain ⟨o, rest, rfl, rfl⟩ := summary_eq_some he
  obtain ⟨rfl, hrest⟩ := List.cons.inj hsplit
  cases rest with
  | nil => exact .inr rfl
  | cons y rest =>
    obtain ⟨-, hnil⟩ := List.cons.inj hrest
    exact absurd hnil (by simp)

/-- The trip times 1 and 2 leave the spread at 1. -/
theorem spread_condition_unit : ∃ t' : Traffic ℝ,
    runCalls Real.sqrt 0 (Traffic.empty 0) [oneHop 1, oneHop 2] = some t' ∧
    t'.state 1 = summary [1, 2] ∧ WeightedVariance [(1 : ℝ), 2] := by
  obtain ⟨t', hrun⟩ := runCalls_oneHop Real.sqrt (Traffic.empty (0 : ℝ)) [1, 2]
  obtain ⟨hstate, hiff⟩ := spread_condition Real.sqrt 0 1 (empty_initial 0) hrun
  rw [observed_oneHop] at hstate hiff
  exact ⟨t', hrun, hstate, hiff.mpr unitSpread_one_two⟩

end AntNet.Bugs.SquaredSpread
