import AntNet.L2Table.Sampling
import Mathlib.Algebra.BigOperators.Field

/-!
# What a longer queue does to the choice

One queue of the row gets longer. The common total `Q` grows with it, so every
other link looks emptier and only the link itself more loaded
(`load_le_of_ne`, `load_le_self`); and because the heuristic terms sum to a
constant (or, coming from all queues empty, to one less than before), the
weights that the parent's link gains are lost to the others
(`sum_weight_le`). So the link's share of the total goes down and every other
share goes up (`raised_queue`).
-/
namespace AntNet.L2

open AntNet.L1 AntNet.Sampling

variable {K : Type} [Field K] [LinearOrder K]

/-- The probability with which entry `k` is selected: its weight over the total of the
entries other than the parent. -/
def selectionProb (row : PheromoneMatrix K) (queueLen : List K) (parent : Nsaddr) (n : Int)
    (k : Nat) : K :=
  (prob row queueLen n).getD k 0 / totalExclParent parent (row.zip (prob row queueLen n))

section Index

variable (q : Nat → Nsaddr → Nsaddr → Int) (source : Nsaddr) (row : PheromoneMatrix K) (n : Int)

/-- The queue length read for entry `i`. -/
def queueAt (i : Fin row.length) : K := (q i source row[i].neighbor : K)

/-- The weight of entry `i`. -/
def weightAt (i : Fin row.length) : K :=
  linkProbability row[i].phvalue ALPHA (queueAt q source row i) (qtotal (queueLens q source row)) n

omit [LinearOrder K] in
theorem queueLens_ofFn : queueLens q source row = List.ofFn (queueAt q source row) := by
  apply List.ext_getElem
  · simp [queueLens]
  · intro i _ _
    simp [queueLens, queueAt]

omit [LinearOrder K] in
theorem queueLens_sum : (queueLens q source row).sum = ∑ i, queueAt q source row i := by
  rw [queueLens_ofFn, List.sum_ofFn]

theorem prob_ofFn : prob row (queueLens q source row) n = List.ofFn (weightAt q source row n) := by
  apply List.ext_getElem
  · simp [prob, queueLens]
  · intro i _ _
    simp [prob, weightAt, queueAt, queueLens]

theorem totalExclParent_ofFn (parent : Nsaddr) :
    totalExclParent parent (row.zip (prob row (queueLens q source row) n)) =
      ∑ i with row[i].neighbor ≠ parent, weightAt q source row n i := by
  have hzip : row.zip (prob row (queueLens q source row) n) =
      List.ofFn fun i => (row[i], weightAt q source row n i) := by
    rw [prob_ofFn]
    apply List.ext_getElem
    · simp
    · intro i _ _
      simp
  rw [hzip, totalExclParent_mass, mass_ofFn, Finset.sum_filter]

theorem selectionProb_ofFn (parent : Nsaddr) (i : Fin row.length) :
    selectionProb row (queueLens q source row) parent n i =
      weightAt q source row n i / ∑ j with row[j].neighbor ≠ parent, weightAt q source row n j := by
  unfold selectionProb
  rw [totalExclParent_ofFn, prob_ofFn]
  congr 1
  simp

end Index

/-! ## Loads -/

section Load

variable [IsStrictOrderedRing K] {ι : Type} [Fintype ι]

/-- The part of the queued traffic that is on link `i`. -/
def load (x : ι → K) (i : ι) : K := x i / if ∑ j, x j = 0 then 1 else ∑ j, x j

variable {x x' : ι → K} {k : ι}

omit [LinearOrder K] [IsStrictOrderedRing K] in
/-- Only the queue of `k` changes the total. -/
theorem sum_raised (hsame : ∀ i, i ≠ k → x' i = x i) : ∑ i, x' i = ∑ i, x i + (x' k - x k) := by
  have h := Finset.sum_eq_single (s := Finset.univ) (f := fun i => x' i - x i) k
    (fun i _ hi => sub_eq_zero.mpr (hsame i hi)) (by simp)
  rw [Finset.sum_sub_distrib] at h
  rw [← h, add_sub_cancel]

theorem load_le_of_ne (h0 : ∀ i, 0 ≤ x i) (hsame : ∀ i, i ≠ k → x' i = x i) (hup : x k ≤ x' k)
    {i : ι} (hi : i ≠ k) : load x' i ≤ load x i := by
  have htot := sum_raised hsame
  have hle : x i ≤ ∑ j, x j := Finset.single_le_sum (fun j _ => h0 j) (Finset.mem_univ i)
  have hnn : 0 ≤ ∑ j, x j := Finset.sum_nonneg fun j _ => h0 j
  unfold load
  rw [hsame i hi]
  by_cases hz : ∑ j, x j = 0
  · -- all queues were empty: the load was 0 and still is
    have hxi : x i = 0 := le_antisymm (hle.trans hz.le) (h0 i)
    simp [hxi]
  · have hpos : 0 < ∑ j, x j := lt_of_le_of_ne hnn (Ne.symm hz)
    have hmono : ∑ j, x j ≤ ∑ j, x' j := by linarith
    rw [if_neg hz, if_neg (hpos.trans_le hmono).ne']
    exact div_le_div_of_nonneg_left (h0 i) hpos hmono

theorem load_le_self (h0 : ∀ i, 0 ≤ x i) (hsame : ∀ i, i ≠ k → x' i = x i) (hup : x k ≤ x' k) :
    load x k ≤ load x' k := by
  have htot := sum_raised hsame
  have hle : x k ≤ ∑ j, x j := Finset.single_le_sum (fun j _ => h0 j) (Finset.mem_univ k)
  have hnn : 0 ≤ ∑ j, x j := Finset.sum_nonneg fun j _ => h0 j
  have hmono : ∑ j, x j ≤ ∑ j, x' j := by linarith
  unfold load
  by_cases hz : ∑ j, x j = 0
  · have hxk : x k = 0 := le_antisymm (hle.trans hz.le) (h0 k)
    rw [hxk, zero_div]
    apply div_nonneg (hxk ▸ hup)
    split
    · exact zero_le_one
    · exact hnn.trans hmono
  · have hpos : 0 < ∑ j, x j := lt_of_le_of_ne hnn (Ne.symm hz)
    have hpos' : 0 < ∑ j, x' j := hpos.trans_le hmono
    rw [if_neg hz, if_neg hpos'.ne', div_le_div_iff₀ hpos hpos', htot]
    -- `x k` grows by as much as the total, and is not more than the total
    have hgrow : x k * (x' k - x k) ≤ (∑ j, x j) * (x' k - x k) :=
      mul_le_mul_of_nonneg_right hle (by linarith)
    linarith

theorem load_mono (h0 : ∀ i, 0 ≤ x i) {i j : ι} (h : x i ≤ x j) : load x i ≤ load x j := by
  have hnn : 0 ≤ ∑ j, x j := Finset.sum_nonneg fun j _ => h0 j
  unfold load
  apply div_le_div_of_nonneg_right h
  split
  · exact zero_le_one
  · exact hnn

/-- The loads sum to 1, or to 0 when all queues are empty. -/
theorem sum_load_le (h0 : ∀ i, 0 ≤ x i) (hsame : ∀ i, i ≠ k → x' i = x i) (hup : x k ≤ x' k) :
    ∑ i, load x i ≤ ∑ i, load x' i := by
  have htot := sum_raised hsame
  have hnn : 0 ≤ ∑ j, x j := Finset.sum_nonneg fun j _ => h0 j
  have hmono : ∑ j, x j ≤ ∑ j, x' j := by linarith
  unfold load
  rw [← Finset.sum_div, ← Finset.sum_div]
  by_cases hz : ∑ j, x j = 0
  · rw [hz, zero_div]
    apply div_nonneg (hnn.trans hmono)
    split
    · exact zero_le_one
    · exact hnn.trans hmono
  · have hpos : 0 < ∑ j, x j := lt_of_le_of_ne hnn (Ne.symm hz)
    rw [if_neg hz, if_neg (hpos.trans_le hmono).ne', div_self hz, div_self (hpos.trans_le hmono).ne']

end Load

/-! ## Weights -/

section Weights

variable [IsStrictOrderedRing K] {q q' : Nat → Nsaddr → Nsaddr → Int} {source parent : Nsaddr}
  {row : PheromoneMatrix K} {n : Int}

omit [IsStrictOrderedRing K] in
theorem weightAt_eq (i : Fin row.length) :
    weightAt q source row n i =
      (row[i].phvalue + ALPHA * (1 - load (queueAt q source row) i)) /
        (1 + ALPHA * ((n - 1 : Int) : K)) := by
  unfold weightAt linkProbability load
  rw [qtotal_eq, queueLens_sum]

theorem weightAt_le {i j : Fin row.length} (hn : 0 ≤ n) (hph : row[i].phvalue ≤ row[j].phvalue)
    (hload : load (queueAt q' source row) j ≤ load (queueAt q source row) i) :
    weightAt q source row n i ≤ weightAt q' source row n j := by
  have hα := mul_le_mul_of_nonneg_left hload (ALPHA_pos (K := K)).le
  rw [weightAt_eq, weightAt_eq]
  apply div_le_div_of_nonneg_right _ (ALPHA_den_pos hn).le
  linarith

theorem weightAt_nonneg (hph : ∀ e ∈ row, 0 ≤ e.phvalue) (hq : ∀ k x y, 0 ≤ q k x y) (hn : 0 ≤ n)
    (i : Fin row.length) : 0 ≤ weightAt q source row n i := by
  have hp := probAt_nonneg ALPHA_pos.le hph (queueLens_nonneg hq source row) (ALPHA_den_pos hn)
  rw [← prob_eq_probAt, prob_ofFn] at hp
  exact hp _ (List.mem_ofFn.mpr ⟨i, rfl⟩)

variable (source) in
theorem queueAt_raised {k : Fin row.length} (hsame : ∀ i x y, i ≠ k.val → q' i x y = q i x y)
    (hup : ∀ x y, q k x y ≤ q' k x y) :
    (∀ i, i ≠ k → queueAt q' source row i = queueAt q source row i) ∧
      queueAt q source row k ≤ queueAt q' source row k := by
  unfold queueAt
  constructor
  · intro i hi
    rw [hsame i _ _ fun h => hi (Fin.ext h)]
  · exact_mod_cast hup source row[k].neighbor

variable (source) in
theorem queueAt_nonneg (hq : ∀ k x y, 0 ≤ q k x y) (i : Fin row.length) :
    0 ≤ queueAt q source row i := by
  unfold queueAt
  exact_mod_cast hq i source row[i].neighbor

omit [IsStrictOrderedRing K] in
theorem sum_weightAt :
    ∑ i, weightAt q source row n i =
      (∑ i : Fin row.length, row[i].phvalue +
          ALPHA * (row.length - ∑ i, load (queueAt q source row) i)) /
        (1 + ALPHA * ((n - 1 : Int) : K)) := by
  simp only [weightAt_eq]
  rw [← Finset.sum_div, Finset.sum_add_distrib, ← Finset.mul_sum, Finset.sum_sub_distrib]
  simp

variable (source) in
/-- One queue is longer and nothing else differs: the weight of every other
entry does not go down. -/
theorem weightAt_raised {k : Fin row.length} (hq : ∀ k x y, 0 ≤ q k x y) (hn : 0 ≤ n)
    (hsame : ∀ i x y, i ≠ k.val → q' i x y = q i x y) (hup : ∀ x y, q k x y ≤ q' k x y) :
    weightAt q' source row n k ≤ weightAt q source row n k ∧
      ∀ i, i ≠ k → weightAt q source row n i ≤ weightAt q' source row n i := by
  have h0 : ∀ i, 0 ≤ queueAt q source row i := queueAt_nonneg source hq
  obtain ⟨hsame', hup'⟩ := queueAt_raised source hsame hup
  constructor
  · exact weightAt_le hn le_rfl (load_le_self h0 hsame' hup')
  · intro i hi
    exact weightAt_le hn le_rfl (load_le_of_ne h0 hsame' hup' hi)

variable (source) in
/-- The total over the whole row does not go up. -/
theorem sum_weightAt_raised {k : Fin row.length} (hq : ∀ k x y, 0 ≤ q k x y) (hn : 0 ≤ n)
    (hsame : ∀ i x y, i ≠ k.val → q' i x y = q i x y) (hup : ∀ x y, q k x y ≤ q' k x y) :
    ∑ i, weightAt q' source row n i ≤ ∑ i, weightAt q source row n i := by
  have hload := sum_load_le (queueAt_nonneg source hq)
    (queueAt_raised source hsame hup).1 (queueAt_raised source hsame hup).2
  have hα := mul_le_mul_of_nonneg_left hload (ALPHA_pos (K := K)).le
  rw [sum_weightAt, sum_weightAt]
  apply div_le_div_of_nonneg_right _ (ALPHA_den_pos hn).le
  linarith

/-- The total without the parent does not go up: the parent's own weight does not go down. -/
theorem sum_exclParent_raised {k : Fin row.length} (hk : row[k].neighbor ≠ parent)
    (hq : ∀ k x y, 0 ≤ q k x y) (hn : 0 ≤ n)
    (hsame : ∀ i x y, i ≠ k.val → q' i x y = q i x y) (hup : ∀ x y, q k x y ≤ q' k x y) :
    ∑ i with row[i].neighbor ≠ parent, weightAt q' source row n i ≤
      ∑ i with row[i].neighbor ≠ parent, weightAt q source row n i := by
  have hall := sum_weightAt_raised source hq hn hsame hup
  rw [← Finset.sum_filter_add_sum_filter_not _ fun i : Fin row.length => row[i].neighbor ≠ parent,
    ← Finset.sum_filter_add_sum_filter_not (f := weightAt q source row n) _
      fun i : Fin row.length => row[i].neighbor ≠ parent] at hall
  have hparent : ∑ i with ¬ row[i].neighbor ≠ parent, weightAt q source row n i ≤
      ∑ i with ¬ row[i].neighbor ≠ parent, weightAt q' source row n i := by
    apply Finset.sum_le_sum
    intro i hi
    apply (weightAt_raised source hq hn hsame hup).2
    rintro rfl
    exact (Finset.mem_filter.mp hi).2 hk
  linarith

/-- **Raising one queue moves selection probability away from its link**, and
within one call the better entry has the larger weight. -/
theorem raised_queue (row : PheromoneMatrix K) (q : Nat → Nsaddr → Nsaddr → Int)
    (source parent : Nsaddr) (n : Int) (hph : ∀ e ∈ row, 0 ≤ e.phvalue)
    (hq : ∀ i x y, 0 ≤ q i x y) (hn : 1 ≤ n) :
    (∀ (q' : Nat → Nsaddr → Nsaddr → Int) (k : Nat) (e : Pheromone K),
      row[k]? = some e → e.neighbor ≠ parent →
      (∀ i x y, i ≠ k → q' i x y = q i x y) → (∀ x y, q k x y ≤ q' k x y) →
      0 < totalExclParent parent (row.zip (prob row (queueLens q source row) n)) →
      0 < totalExclParent parent (row.zip (prob row (queueLens q' source row) n)) →
      selectionProb row (queueLens q' source row) parent n k ≤
          selectionProb row (queueLens q source row) parent n k ∧
        ∀ j e', row[j]? = some e' → e'.neighbor ≠ parent → j ≠ k →
          selectionProb row (queueLens q source row) parent n j ≤
            selectionProb row (queueLens q' source row) parent n j) ∧
    ∀ i j ei ej, row[i]? = some ei → row[j]? = some ej → ej.phvalue ≤ ei.phvalue →
      q i source ei.neighbor ≤ q j source ej.neighbor →
      (prob row (queueLens q source row) n).getD j 0 ≤
        (prob row (queueLens q source row) n).getD i 0 := by
  have hn0 : 0 ≤ n := by omega
  constructor
  · intro q' k e hk hne hsame hup hW hW'
    obtain ⟨hkl, rfl⟩ := List.getElem?_eq_some_iff.mp hk
    rw [totalExclParent_ofFn] at hW hW'
    obtain ⟨hself, hothers⟩ := weightAt_raised source (k := ⟨k, hkl⟩) hq hn0 hsame hup
    have hnn : ∀ i, 0 ≤ weightAt q source row n i := fun i => weightAt_nonneg hph hq hn0 i
    constructor
    · rw [selectionProb_ofFn q' source row n parent ⟨k, hkl⟩,
        selectionProb_ofFn q source row n parent ⟨k, hkl⟩]
      exact share_le (by simpa using hne) hself (fun i _ hi => hothers i hi) (fun i _ => hnn i) hW hW'
    · intro j e' hj hne' hjk
      obtain ⟨hjl, rfl⟩ := List.getElem?_eq_some_iff.mp hj
      rw [selectionProb_ofFn q' source row n parent ⟨j, hjl⟩,
        selectionProb_ofFn q source row n parent ⟨j, hjl⟩]
      exact le_share (hothers ⟨j, hjl⟩ fun h => hjk (congrArg Fin.val h)) (hnn _)
        (sum_exclParent_raised (k := ⟨k, hkl⟩) hne hq hn0 hsame hup) hW'
  · intro i j ei ej hi hj hph' hq'
    obtain ⟨hil, rfl⟩ := List.getElem?_eq_some_iff.mp hi
    obtain ⟨hjl, rfl⟩ := List.getElem?_eq_some_iff.mp hj
    have hload : load (queueAt q source row) ⟨i, hil⟩ ≤ load (queueAt q source row) ⟨j, hjl⟩ :=
      load_mono (queueAt_nonneg source hq) (by unfold queueAt; exact_mod_cast hq')
    have hw : weightAt q source row n ⟨j, hjl⟩ ≤ weightAt q source row n ⟨i, hil⟩ :=
      weightAt_le hn0 hph' hload
    rw [prob_ofFn]
    simpa [hil, hjl] using hw

/-- Two links with empty queues; three packets arrive on the first. -/
theorem raised_queue_two :
    selectionProb (K := ℚ) [⟨1, 1 / 2⟩, ⟨2, 1 / 2⟩] [3, 0] 0 2 0 ≤
      selectionProb (K := ℚ) [⟨1, 1 / 2⟩, ⟨2, 1 / 2⟩] [0, 0] 0 2 0 :=
  ((raised_queue (K := ℚ) [⟨1, 1 / 2⟩, ⟨2, 1 / 2⟩] (fun _ _ _ => 0) 9 0 2
    (by intro e he; simp at he; rcases he with rfl | rfl <;> norm_num) (by simp) (by norm_num)).1
    (fun i _ _ => if i = 0 then 3 else 0) 0 ⟨1, 1 / 2⟩ rfl (by norm_num)
    (by intro i _ _ hi; simp [hi]) (by simp)
    (by norm_num [totalExclParent, prob, queueLens, qtotal, linkProbability, ALPHA])
    (by norm_num [totalExclParent, prob, queueLens, qtotal, linkProbability, ALPHA])).1

end Weights

end AntNet.L2
