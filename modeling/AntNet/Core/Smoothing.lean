import Mathlib.Algebra.Order.Field.Basic
import Mathlib.Order.Interval.Set.Defs
import Mathlib.Tactic.Linarith
import Mathlib.Tactic.Ring

/-!
# Exponential smoothing

`smooth c m x` moves an estimate `m` by the share `c` towards an observation
`x`. With `c` between 0 and 1 it stays between the two, so an estimate never
leaves the range of what was observed. `meanSpread` smooths a mean, and the
squared distance of the observations from it: the exponentially weighted
variance.

* `le_foldl_smooth`, `spread_le`: bounds over any sequence of observations.
* `foldl_smooth_const`, `spread_step_le`: equal observations keep the mean and
  do not raise the spread.
-/
namespace AntNet.Smoothing

variable {K : Type} [Field K]

def smooth (c m x : K) : K := m + c * (x - m)

/-- One observation: the new mean, and the new spread around the old mean. -/
def meanSpread (c : K) (s : K × K) (x : K) : K × K :=
  (smooth c s.1 x, smooth c s.2 ((x - s.1) * (x - s.1)))

@[simp] theorem smooth_self (c m : K) : smooth c m m = m := by unfold smooth; ring

/-- Equal observations keep the estimate. -/
theorem foldl_smooth_const (c m : K) : ∀ (l : List K), (∀ x ∈ l, x = m) → l.foldl (smooth c) m = m
  | [], _ => rfl
  | x :: l, hl => by
    rw [List.foldl_cons, hl x List.mem_cons_self, smooth_self]
    exact foldl_smooth_const c m l fun y hy => hl y (List.mem_cons_of_mem _ hy)

variable [LinearOrder K] [IsStrictOrderedRing K] {c a b m v x : K}

theorem le_smooth (h0 : 0 ≤ c) (h1 : c ≤ 1) (hm : a ≤ m) (hx : a ≤ x) : a ≤ smooth c m x := by
  have hmul : 0 ≤ c * (x - a) := mul_nonneg h0 (sub_nonneg.mpr hx)
  have hrest : 0 ≤ (1 - c) * (m - a) := mul_nonneg (sub_nonneg.mpr h1) (sub_nonneg.mpr hm)
  unfold smooth
  linarith [hmul, hrest]

theorem smooth_le (h0 : 0 ≤ c) (h1 : c ≤ 1) (hm : m ≤ b) (hx : x ≤ b) : smooth c m x ≤ b := by
  have hmul : 0 ≤ c * (b - x) := mul_nonneg h0 (sub_nonneg.mpr hx)
  have hrest : 0 ≤ (1 - c) * (b - m) := mul_nonneg (sub_nonneg.mpr h1) (sub_nonneg.mpr hm)
  unfold smooth
  linarith [hmul, hrest]

theorem smooth_mem_Icc (h0 : 0 ≤ c) (h1 : c ≤ 1) (hm : m ∈ Set.Icc a b) (hx : x ∈ Set.Icc a b) :
    smooth c m x ∈ Set.Icc a b :=
  ⟨le_smooth h0 h1 hm.1 hx.1, smooth_le h0 h1 hm.2 hx.2⟩

/-- Two points of an interval are no further apart than its ends. -/
theorem sq_dist_le (hm : m ∈ Set.Icc a b) (hx : x ∈ Set.Icc a b) :
    (x - m) * (x - m) ≤ (b - a) * (b - a) := by
  have hlo : a - b ≤ x - m := sub_le_sub hx.1 hm.2
  have hhi : x - m ≤ b - a := sub_le_sub hx.2 hm.1
  nlinarith [mul_nonneg (sub_nonneg.mpr hlo) (sub_nonneg.mpr hhi)]

/-- A lower bound of the observations is one of the estimate. -/
theorem le_foldl_smooth (h0 : 0 ≤ c) (h1 : c ≤ 1) : ∀ (l : List K) {m : K}, a ≤ m →
    (∀ x ∈ l, a ≤ x) → a ≤ l.foldl (smooth c) m
  | [], _, hm, _ => hm
  | x :: l, _, hm, hl =>
    le_foldl_smooth h0 h1 l (le_smooth h0 h1 hm (hl x List.mem_cons_self))
      fun y hy => hl y (List.mem_cons_of_mem _ hy)

/-- **The spread of observations in `[a, b]`**: never above the larger of its first value and `(b - a)²`. -/
theorem spread_le (h0 : 0 ≤ c) (h1 : c ≤ 1) {w : K} (hw : (b - a) * (b - a) ≤ w) :
    ∀ (l : List K) (s : K × K), s.1 ∈ Set.Icc a b → s.2 ≤ w → (∀ x ∈ l, x ∈ Set.Icc a b) →
      (l.foldl (meanSpread c) s).2 ≤ w
  | [], _, _, hv, _ => hv
  | x :: l, s, hs, hv, hl => by
    have hx := hl x List.mem_cons_self
    have hv' : (meanSpread c s x).2 ≤ w := smooth_le h0 h1 hv ((sq_dist_le hs hx).trans hw)
    exact spread_le h0 h1 hw l _ (smooth_mem_Icc h0 h1 hs hx) hv'
      fun y hy => hl y (List.mem_cons_of_mem _ hy)

/-- An observation at the mean does not raise the spread. -/
theorem spread_step_le (h0 : 0 ≤ c) (hv : 0 ≤ v) : (meanSpread c (m, v) m).2 ≤ v := by
  have hmul : 0 ≤ c * v := mul_nonneg h0 hv
  simp only [meanSpread, smooth, sub_self, mul_zero, zero_sub]
  linarith [hmul]

end AntNet.Smoothing
