import AntNet.Core.LoopErasure
import Mathlib.Algebra.BigOperators.Intervals
import Mathlib.Algebra.Order.BigOperators.Group.Finset
import Mathlib.Algebra.Order.Field.Basic
import Mathlib.Tactic.Choose
import Mathlib.Tactic.Linarith
import Mathlib.Tactic.Ring

/-!
# Loop erasure with times

The places of the walk are visited at given times, and the path keeps a time
with each place. Closing a loop shifts the times of what is kept so that the
revisited place gets the time of the revisit (`revisitAt`); the differences
along the path stay what they were.

`TimedExit w m` is the global description: the path `m` is the erasure of the
walk, its last entry is the walk's last visit, and the time between two
consecutive entries is that of the one hop the walk made right after its last
visit to the first of them. `timedExit_loopEraseAt`: the two agree. So the
time between any two entries is the sum of these hops (`TimedExit.exits`).
-/
namespace AntNet.LoopErasure

variable {α K : Type} [DecidableEq α] [Field K]

/-- One visit of the walk, to `a` at time `t`. -/
def revisitAt (m : List (α × K)) (a : α) (t : K) : List (α × K) :=
  match m.find? (fun e => e.1 = a) with
  | some e => (m.take ((m.map Prod.fst).idxOf a + 1)).map fun x => (x.1, x.2 + (t - e.2))
  | none => m ++ [(a, t)]

/-- The path keeps times since `t₀`. -/
def loopEraseAt (t₀ : K) (w : List (α × K)) : List (α × K) :=
  w.foldl (fun m v => revisitAt m v.1 (v.2 - t₀)) []

/-- The time of entry `i`. -/
def timeAt (w : List (α × K)) (i : Nat) : K := (w[i]?.map Prod.snd).getD 0

structure TimedExit (t₀ : K) (w m : List (α × K)) : Prop where
  path : m.map Prod.fst = loopErase (w.map Prod.fst)
  last : m.getLast? = w.getLast?.map fun v => (v.1, v.2 - t₀)
  hop : ∀ j x y, m[j]? = some x → m[j + 1]? = some y →
    ∃ e u v, LastVisit (w.map Prod.fst) e x.1 ∧ w[e]? = some u ∧ w[e + 1]? = some v ∧
      v.1 = y.1 ∧ y.2 - x.2 = v.2 - u.2

theorem loopEraseAt_snoc (t₀ : K) (w : List (α × K)) (v : α × K) :
    loopEraseAt t₀ (w ++ [v]) = revisitAt (loopEraseAt t₀ w) v.1 (v.2 - t₀) := by
  simp [loopEraseAt, List.foldl_append]

theorem revisitAt_new {m : List (α × K)} {a : α} (h : a ∉ m.map Prod.fst) (t : K) :
    revisitAt m a t = m ++ [(a, t)] := by
  have hfind : m.find? (fun e => e.1 = a) = none := by
    apply List.find?_eq_none.mpr
    intro e he hea
    exact h (List.mem_map.mpr ⟨e, he, by simpa using hea⟩)
  unfold revisitAt
  rw [hfind]

/-- The entry that is found is the one at the first index of the place. -/
theorem revisitAt_old {m : List (α × K)} {a : α} (h : a ∈ m.map Prod.fst) (t : K) :
    ∃ e, m[(m.map Prod.fst).idxOf a]? = some e ∧ e.1 = a ∧
      revisitAt m a t =
        (m.take ((m.map Prod.fst).idxOf a + 1)).map fun x => (x.1, x.2 + (t - e.2)) := by
  have hi := List.idxOf_lt_length_of_mem h
  have him : (m.map Prod.fst).idxOf a < m.length := by simpa using hi
  have hea : m[(m.map Prod.fst).idxOf a].1 = a := by
    have := List.getElem_idxOf hi
    rwa [List.getElem_map] at this
  have hfind : m.find? (fun e => e.1 = a) = some m[(m.map Prod.fst).idxOf a] := by
    refine List.find?_eq_some_iff_getElem.mpr ⟨by simpa using hea, _, him, rfl, ?_⟩
    intro j hj
    have := List.not_of_lt_findIdx hj
    simpa using this
  refine ⟨_, List.getElem?_eq_getElem him, hea, ?_⟩
  unfold revisitAt
  rw [hfind]

theorem revisitAt_path (m : List (α × K)) (a : α) (t : K) :
    (revisitAt m a t).map Prod.fst = revisit (m.map Prod.fst) a := by
  by_cases h : a ∈ m.map Prod.fst
  · obtain ⟨e, -, -, hr⟩ := revisitAt_old h t
    rw [hr, revisit_old h, List.map_map, List.map_take]
    rfl
  · rw [revisitAt_new h, revisit_new h]
    simp

omit [DecidableEq α] [Field K] in
theorem places_getElem? {w : List (α × K)} {i : Nat} {x : α × K} (h : w[i]? = some x) :
    (w.map Prod.fst)[i]? = some x.1 := by
  rw [List.getElem?_map, h, Option.map_some]

/-- A further visit to another place keeps the hops of the path. -/
theorem TimedExit.hop_snoc {t₀ : K} {w m : List (α × K)} (h : TimedExit t₀ w m) (v : α × K) {j : Nat}
    {x y : α × K} (hx : m[j]? = some x) (hy : m[j + 1]? = some y) (hne : x.1 ≠ v.1) :
    ∃ e u u', LastVisit ((w ++ [v]).map Prod.fst) e x.1 ∧ (w ++ [v])[e]? = some u ∧
      (w ++ [v])[e + 1]? = some u' ∧ u'.1 = y.1 ∧ y.2 - x.2 = u'.2 - u.2 := by
  obtain ⟨e, u, u', hl, hu, hu', hy1, hd⟩ := h.hop j x y hx hy
  have he := (List.getElem?_eq_some_iff.mp hu').1
  refine ⟨e, u, u', ?_, ?_, ?_, hy1, hd⟩
  · rw [List.map_append]
    exact hl.snoc hne
  · rw [List.getElem?_append_left (by omega)]; exact hu
  · rw [List.getElem?_append_left he]; exact hu'

theorem TimedExit.new {t₀ : K} {w m : List (α × K)} (h : TimedExit t₀ w m) {v : α × K}
    (hv : v.1 ∉ m.map Prod.fst) : TimedExit t₀ (w ++ [v]) (revisitAt m v.1 (v.2 - t₀)) := by
  refine ⟨?_, ?_, ?_⟩
  · rw [revisitAt_path, h.path, List.map_append]
    exact (loopErase_snoc _ _).symm
  · rw [revisitAt_new hv]
    simp
  · intro j x y hx hy
    rw [revisitAt_new hv] at hx hy
    have hjl := (List.getElem?_eq_some_iff.mp hy).1
    simp only [List.length_append, List.length_singleton] at hjl
    rw [List.getElem?_append_left (by omega)] at hx
    have hne : x.1 ≠ v.1 := by
      intro he
      rw [← he] at hv
      exact hv (List.mem_of_getElem? (places_getElem? hx))
    by_cases hj : j + 1 < m.length
    · rw [List.getElem?_append_left hj] at hy
      exact h.hop_snoc v hx hy hne
    · -- the hop just made: from the walk's last place to the new one
      have hlast : w.getLast?.map (fun v => (v.1, v.2 - t₀)) = some x := by
        rw [← h.last, List.getLast?_eq_getElem?, ← hx]
        congr 1
        omega
      obtain ⟨u, hu, rfl⟩ := Option.map_eq_some_iff.mp hlast
      have hwl : 0 < w.length := by
        apply List.length_pos_iff.mpr
        rintro rfl
        cases hu
      have hy' : y = (v.1, v.2 - t₀) := by
        rw [List.getElem?_append_right (by omega), show j + 1 - m.length = 0 by omega] at hy
        exact (Option.some.inj hy).symm
      subst hy'
      refine ⟨w.length - 1, u, v, ?_, ?_, ?_, rfl, by ring⟩
      · rw [List.map_append]
        apply LastVisit.snoc _ hne
        have hl : (w.map Prod.fst).getLast? = some u.1 := by
          rw [List.getLast?_map, hu, Option.map_some]
        have := lastVisit_getLast hl
        rwa [List.length_map] at this
      · rw [List.getElem?_append_left (by omega), ← List.getLast?_eq_getElem?, hu]
      · rw [Nat.sub_add_cancel hwl]
        simp

theorem TimedExit.old {t₀ : K} {w m : List (α × K)} (h : TimedExit t₀ w m) {v : α × K}
    (hv : v.1 ∈ m.map Prod.fst) : TimedExit t₀ (w ++ [v]) (revisitAt m v.1 (v.2 - t₀)) := by
  obtain ⟨e, he, hea, hr⟩ := revisitAt_old hv (v.2 - t₀)
  refine ⟨?_, ?_, ?_⟩
  · rw [revisitAt_path, h.path, List.map_append]
    exact (loopErase_snoc _ _).symm
  · have hil := (List.getElem?_eq_some_iff.mp he).1
    have hee := (List.getElem?_eq_some_iff.mp he).2
    rw [hr, List.take_succ_eq_append_getElem hil, hee, List.map_append, List.map_singleton, hea]
    simp
  · intro j x y hx hy
    rw [hr, List.getElem?_map, List.getElem?_take] at hx hy
    split at hy
    · rename_i hj
      rw [if_pos (by omega)] at hx
      obtain ⟨x₀, hx₀, rfl⟩ := Option.map_eq_some_iff.mp hx
      obtain ⟨y₀, hy₀, rfl⟩ := Option.map_eq_some_iff.mp hy
      have hne : x₀.1 ≠ v.1 := by
        intro heq
        have hget := places_getElem? hx₀
        rw [heq] at hget
        have hmem : v.1 ∈ (m.map Prod.fst).take (j + 1) :=
          List.mem_of_getElem? (i := j) (by rw [List.getElem?_take, if_pos (by omega), hget])
        rw [List.mem_take_iff_idxOf_lt hv] at hmem
        omega
      obtain ⟨e', u, u', hl, hu, hu', hy1, hd⟩ := h.hop_snoc v hx₀ hy₀ hne
      refine ⟨e', u, u', hl, hu, hu', hy1, ?_⟩
      show y₀.2 + (v.2 - t₀ - e.2) - (x₀.2 + (v.2 - t₀ - e.2)) = _
      rw [← hd]
      ring
    · cases hy

/-- **Shifting the kept times as loops close keeps every remaining hop.** -/
theorem timedExit_loopEraseAt (t₀ : K) (w : List (α × K)) : TimedExit t₀ w (loopEraseAt t₀ w) := by
  induction w using List.reverseRecOn with
  | nil => exact ⟨rfl, rfl, by simp [loopEraseAt]⟩
  | append_singleton w v ih =>
    rw [loopEraseAt_snoc]
    by_cases hv : v.1 ∈ (loopEraseAt t₀ w).map Prod.fst
    · exact ih.old hv
    · exact ih.new hv

/-! ## The remaining hops -/

omit [DecidableEq α] in
theorem timeAt_eq {w : List (α × K)} {i : Nat} {v : α × K} (h : w[i]? = some v) :
    timeAt w i = v.2 := by
  unfold timeAt
  rw [h]
  rfl

/-- The last visits `e j` of the path's places, and the times between its
entries as sums of the hops made after them. -/
theorem TimedExit.exits {t₀ : K} {w m : List (α × K)} (h : TimedExit t₀ w m) :
    ∃ e : Nat → Nat,
      (∀ j x y, m[j]? = some x → m[j + 1]? = some y →
        LastVisit (w.map Prod.fst) (e j) x.1 ∧ (w.map Prod.fst)[e j + 1]? = some y.1 ∧
          y.2 - x.2 = timeAt w (e j + 1) - timeAt w (e j)) ∧
      ∀ i j, i ≤ j → j < m.length →
        timeAt m j - timeAt m i =
          ∑ k ∈ Finset.Ico i j, (timeAt w (e k + 1) - timeAt w (e k)) := by
  have hex : ∀ j, ∃ e, ∀ x y, m[j]? = some x → m[j + 1]? = some y →
      LastVisit (w.map Prod.fst) e x.1 ∧ (w.map Prod.fst)[e + 1]? = some y.1 ∧
        y.2 - x.2 = timeAt w (e + 1) - timeAt w e := by
    intro j
    by_cases hj : j + 1 < m.length
    · have hx := List.getElem?_eq_getElem (show j < m.length by omega)
      have hy := List.getElem?_eq_getElem hj
      obtain ⟨e, u, v, hl, hu, hv, hvy, hd⟩ := h.hop j _ _ hx hy
      refine ⟨e, ?_⟩
      intro x y hx' hy'
      rw [hx] at hx'
      rw [hy] at hy'
      cases hx'
      cases hy'
      rw [timeAt_eq hu, timeAt_eq hv]
      exact ⟨hl, by rw [places_getElem? hv, hvy], hd⟩
    · refine ⟨0, ?_⟩
      intro x y _ hy
      exact absurd (List.getElem?_eq_some_iff.mp hy).1 hj
  choose e he using hex
  refine ⟨e, he, ?_⟩
  intro i j hij
  induction j, hij using Nat.le_induction with
  | base => simp
  | succ j hij ih =>
    intro hj
    have hx := List.getElem?_eq_getElem (show j < m.length by omega)
    have hy := List.getElem?_eq_getElem hj
    obtain ⟨-, -, hd⟩ := he j _ _ hx hy
    rw [Finset.sum_Ico_succ_top hij, ← ih (by omega), ← hd, timeAt_eq hx, timeAt_eq hy]
    ring

section Order

variable [LinearOrder K] [IsStrictOrderedRing K]

omit [DecidableEq α] [IsStrictOrderedRing K] in
theorem timeAt_le {w : List (α × K)} (hw : w.Pairwise fun u v => u.2 ≤ v.2) {i j : Nat}
    (hij : i ≤ j) (hj : j < w.length) : timeAt w i ≤ timeAt w j := by
  rw [timeAt_eq (List.getElem?_eq_getElem (show i < w.length by omega)),
    timeAt_eq (List.getElem?_eq_getElem hj)]
  rcases Nat.eq_or_lt_of_le hij with rfl | hlt
  · exact le_rfl
  · exact List.pairwise_iff_getElem.mp hw i j (by omega) hj hlt

/-- A walk in time order leaves times in order. -/
theorem TimedExit.mono {t₀ : K} {w m : List (α × K)} (h : TimedExit t₀ w m)
    (hw : w.Pairwise fun u v => u.2 ≤ v.2) {i j : Nat} (hij : i ≤ j) (hj : j < m.length) :
    timeAt m i ≤ timeAt m j := by
  obtain ⟨e, he, hsum⟩ := h.exits
  rw [← sub_nonneg, hsum i j hij hj]
  apply Finset.sum_nonneg
  intro k hk
  have hkj := Finset.mem_Ico.mp hk
  have hx := List.getElem?_eq_getElem (show k < m.length by omega)
  have hy := List.getElem?_eq_getElem (show k + 1 < m.length by omega)
  obtain ⟨-, hnext, -⟩ := he k _ _ hx hy
  have hlt := (List.getElem?_eq_some_iff.mp hnext).1
  rw [List.length_map] at hlt
  rw [sub_nonneg]
  exact timeAt_le hw (Nat.le_succ _) hlt

end Order

end AntNet.LoopErasure
