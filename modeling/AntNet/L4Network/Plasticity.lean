import AntNet.L4Network.Exploration
import Mathlib.Algebra.Order.Archimedean.Basic

/-!
# Any path can take over

A journey leaves a path as it was for the next one (`Ready.again`), so the ants
of one node can go along the same path again and again. With factors between 0
and 1 its links then take over: no row is ever so settled that another path
could not win.

* `path_takes_over`: for every `ε > 0` there is a run of handlers alone after
  which every node on the path has more than `1 - ε` of its pheromone on the
  path, and less than `ε` on each other link.
-/
namespace AntNet.L4

open AntNet.L1 AntNet.L2 AntNet.L3

variable {K : Type} [Field K] {addNb : List Nsaddr → Nsaddr → List Nsaddr} {s s' : Net K}
  {path : List Nsaddr} {src dest : Nsaddr}

omit [Field K] in
theorem mem_dropLast {x y : Nsaddr} {i : Nat} (hx : path[i]? = some x) (hy : path[i + 1]? = some y) :
    x ∈ path.dropLast := by
  obtain ⟨hi, -⟩ := List.getElem?_eq_some_iff.mp hy
  refine List.mem_iff_getElem?.mpr ⟨i, ?_⟩
  rw [List.getElem?_dropLast, if_pos (by omega), hx]

/-- A row after the journey: reinforced, or as it was. -/
theorem Explored.row (he : Explored s s' path) {n d : Nsaddr} {row' : PheromoneMatrix K}
    (h : (s'.agents n).rtable d = some row') : ∃ row, (s.agents n).rtable d = some row ∧
      (row' = row ∨ n ∈ path.dropLast ∧ ∃ y, row' = reinforced y (s.agents n).rFactor row) := by
  by_cases hn : n ∈ path.dropLast
  · obtain ⟨i, hi⟩ := List.mem_iff_getElem?.mp hn
    rw [List.getElem?_dropLast] at hi
    split at hi
    · rename_i hlt
      have hnext : i + 1 < path.length := by omega
      rw [he.learnt i n _ hi (List.getElem?_eq_getElem hnext), reinforcedTable] at h
      split at h
      · obtain ⟨row, hrow, rfl⟩ := Option.map_eq_some_iff.mp h
        exact ⟨row, hrow, .inr ⟨hn, _, rfl⟩⟩
      · exact ⟨row', h, .inl rfl⟩
    · cases hi
  · rw [he.others n hn] at h
    exact ⟨row', h, .inl rfl⟩

section Order

variable [LinearOrder K] [IsStrictOrderedRing K]

/-- Values in `(0, 1]` stay there. -/
theorem values_again (hv : Values (fun x => 0 < x ∧ x ≤ 1) s) (he : Explored s s' path)
    (hr : ∀ x ∈ path.dropLast, Soft (s.agents x).rFactor) : Values (fun x => 0 < x ∧ x ≤ 1) s' := by
  intro n d row' hrow' v hmem
  obtain ⟨row, hrow, rfl | ⟨hn, y, rfl⟩⟩ := he.row hrow'
  · exact hv n d _ hrow v hmem
  · obtain ⟨h0, h1⟩ := hr n hn
    obtain ⟨e', he', rfl⟩ := List.mem_map.mp hmem
    obtain ⟨e, hein, rfl⟩ := List.mem_map.mp he'
    have hval : 0 < e.phvalue ∧ e.phvalue ≤ 1 :=
      hv n d row hrow (e.neighbor, e.phvalue) (List.mem_map.mpr ⟨e, hein, rfl⟩)
    dsimp only
    split
    · exact Distribution.raise_mem_Ioc h0 h1.le hval
    · exact Distribution.decay_mem_Ioc h0 h1 hval

/-- The links of the path after `m` journeys, and the links beside it. -/
def Trodden (s : Net K) (path : List Nsaddr) (m : Nat) : Prop :=
  ∀ i x y d row, path[i]? = some x → path[i + 1]? = some y → d ∈ path.drop (i + 1) →
    (s.agents x).rtable d = some row → ∀ e ∈ row,
      if e.neighbor = y then 1 - (1 - (s.agents x).rFactor) ^ m ≤ e.phvalue
      else e.phvalue ≤ (1 - (s.agents x).rFactor) ^ m

omit [IsStrictOrderedRing K] in
theorem trodden_zero (hv : Values (fun x => 0 < x ∧ x ≤ 1) s) : Trodden s path 0 := by
  intro i x y d row _ _ _ hrow e he
  have hval : 0 < e.phvalue ∧ e.phvalue ≤ 1 :=
    hv x d row hrow (e.neighbor, e.phvalue) (List.mem_map.mpr ⟨e, he, rfl⟩)
  rw [pow_zero, sub_self]
  split
  · exact hval.1.le
  · exact hval.2

theorem trodden_succ {m : Nat} (ht : Trodden s path m) (he : Explored s s' path)
    (hr : ∀ x ∈ path.dropLast, Soft (s.agents x).rFactor)
    (hf : ∀ n, (s'.agents n).rFactor = (s.agents n).rFactor) : Trodden s' path (m + 1) := by
  intro i x y d row' hx hy hd hrow' e' hmem
  rw [he.learnt i x y hx hy, reinforcedTable, if_pos hd] at hrow'
  obtain ⟨row, hrow, rfl⟩ := Option.map_eq_some_iff.mp hrow'
  obtain ⟨e, hein, rfl⟩ := List.mem_map.mp hmem
  have hbound := ht i x y d row hx hy hd hrow e hein
  have h1 : 0 ≤ 1 - (s.agents x).rFactor := by linarith [(hr x (mem_dropLast hx hy)).2]
  rw [hf x, pow_succ']
  dsimp only
  generalize (s.agents x).rFactor = r at hbound h1 ⊢
  by_cases hlink : e.neighbor = y
  · rw [if_pos hlink] at hbound
    rw [if_pos hlink, if_pos hlink]
    have hraise : 1 - (e.phvalue + r * (1 - e.phvalue)) = (1 - r) * (1 - e.phvalue) := by ring
    have := mul_le_mul_of_nonneg_left (sub_le_comm.mp hbound) h1
    linarith
  · rw [if_neg hlink] at hbound
    rw [if_neg hlink, if_neg hlink]
    exact mul_le_mul_of_nonneg_left hbound h1

/-- Some power of all of these is below `ε`. -/
theorem exists_pow_lt [Archimedean K] {f : Nsaddr → K} {ε : K} (hε : 0 < ε) {l : List Nsaddr}
    (h : ∀ x ∈ l, 0 ≤ f x ∧ f x < 1) : ∃ m, ∀ x ∈ l, f x ^ m < ε := by
  induction l with
  | nil => exact ⟨0, by simp⟩
  | cons x l ih =>
    obtain ⟨⟨h0, h1⟩, hl⟩ := List.forall_mem_cons.mp h
    obtain ⟨m, hm⟩ := ih hl
    obtain ⟨k, hk⟩ := exists_pow_lt_of_lt_one hε h1
    refine ⟨max k m, List.forall_mem_cons.mpr ⟨?_, fun y hy => ?_⟩⟩
    · exact (pow_le_pow_of_le_one h0 h1.le (le_max_left k m)).trans_lt hk
    · obtain ⟨hy0, hy1⟩ := hl y hy
      exact (pow_le_pow_of_le_one hy0 hy1.le (le_max_right k m)).trans_lt (hm y hy)

/-- **Journey after journey.** -/
theorem journeys {o : Oracle K} (hq : QueuesOk o.queueLength) (hr : (net addNb).Reachable s)
    (hv : Values (fun x => 0 < x ∧ x ≤ 1) s) (h : Ready s path src dest)
    (hsoft : ∀ x ∈ path.dropLast, Soft (s.agents x).rFactor) (m : Nat) :
    ∃ s', Leads addNb (Drawn s.numNODES o) s s' ∧ Ready s' path src dest ∧ s'.inFlight = s.inFlight ∧
      (∀ n, (s'.agents n).rFactor = (s.agents n).rFactor) ∧
      Values (fun x => 0 < x ∧ x ≤ 1) s' ∧ Trodden s' path m := by
  induction m with
  | zero => exact ⟨s, .refl s, h, rfl, fun _ => rfl, hv, trodden_zero hv⟩
  | succ m ih =>
    obtain ⟨s₁, hlead, hready, hfl, hrf, hv₁, ht⟩ := ih
    have hr₁ := hlead.reachable hr
    have hN₁ := (hlead.fixed hr).1
    have hsoft₁ : ∀ x ∈ path.dropLast, Soft (s₁.agents x).rFactor := fun x hx => (hrf x).symm ▸ hsoft x hx
    obtain ⟨s₂, hlead₂, he, hsame⟩ := journey hr₁ hready
      (hready.links.offers (fun n d row hrow e hmem => (hv₁ n d row hrow e hmem).1) hq)
    refine ⟨s₂, hlead.trans (hN₁ ▸ hlead₂),
      hready.again he (hlead₂.fixed hr₁).1 ((hsame src).2 hready.timer),
      he.inFlight.trans hfl, fun n => ((hsame n).1).trans (hrf n), values_again hv₁ he hsoft₁,
      trodden_succ ht he hsoft₁ fun n => (hsame n).1⟩

/-- **Any path can take over.** From every state that a run with factors in
`[0, 1)` can reach, along every path that is ready and whose nodes have factors
in `(0, 1)`, and for every `ε > 0`: whatever the queue lengths, there is a run of
handlers after which each node has more than `1 - ε` of its pheromone on the
path, in the row of every later node. -/
theorem path_takes_over [Archimedean K] (h : ((net addNb).guard (Factor Soft)).Reachable s)
    (hready : Ready s path src dest)
    (hfactor : ∀ x ∈ path.dropLast, 0 < (s.agents x).rFactor ∧ (s.agents x).rFactor < 1)
    (o : Oracle K) (hq : QueuesOk o.queueLength) {ε : K} (hε : 0 < ε) :
    ∃ s', Leads addNb (Drawn s.numNODES o) s s' ∧ Ready s' path src dest ∧ s'.inFlight = s.inFlight ∧
      ∀ i x y d row, path[i]? = some x → path[i + 1]? = some y → d ∈ path.drop (i + 1) →
        (s'.agents x).rtable d = some row →
        ∀ e ∈ row, if e.neighbor = y then 1 - ε < e.phvalue else e.phvalue < ε := by
  have hv : Values (fun x => 0 < x ∧ x ≤ 1) s := values_reachable (R := Soft)
    (fun _ _ e he => Distribution.uniform_mem_Ioc e he)
    (fun _ _ hr hx => Distribution.raise_mem_Ioc hr.1 hr.2.le hx)
    (fun _ _ hr hx => Distribution.decay_mem_Ioc hr.1 hr.2 hx) h
  obtain ⟨m, hm⟩ := exists_pow_lt (f := fun x => 1 - (s.agents x).rFactor) hε fun x hx =>
    ⟨by linarith [(hfactor x hx).2], by linarith [(hfactor x hx).1]⟩
  obtain ⟨s', hlead, hready', hfl, hrf, -, ht⟩ := journeys hq (LTS.reachable_of_guard h) hv hready
    (fun x hx => ⟨(hfactor x hx).1.le, (hfactor x hx).2⟩) m
  refine ⟨s', hlead, hready', hfl, fun i x y d row hx hy hd hrow e he => ?_⟩
  have hbound := ht i x y d row hx hy hd hrow e he
  have hsmall := hm x (mem_dropLast hx hy)
  rw [hrf x] at hbound
  split at hbound
  · rename_i hlink
    rw [if_pos hlink]
    linarith
  · rename_i hlink
    rw [if_neg hlink]
    linarith

end Order

/-- Node 1 of the line comes to keep nine tenths of the pheromone for node 2 on its link to it. -/
theorem path_takes_over_line : ∃ s s' : Net ℚ, ((net prependNb).guard (Factor Soft)).Reachable s ∧
    Leads prependNb (Drawn 3 (idle [])) s s' ∧ ∃ row, (s'.agents 1).rtable 2 = some row ∧
      ∀ e ∈ row, e.neighbor = 2 → 9 / 10 < e.phvalue := by
  obtain ⟨s, hr, hN, hready, hr₀, hr₁⟩ := line_ready
  have hfactor : ∀ x ∈ [(0 : Nsaddr), 1, 2].dropLast,
      0 < (s.agents x).rFactor ∧ (s.agents x).rFactor < 1 := by
    intro x hx
    rcases List.mem_cons.mp hx with rfl | hx
    · rw [hr₀]
      norm_num
    · obtain rfl := List.mem_singleton.mp hx
      rw [hr₁]
      norm_num
  obtain ⟨s', hlead, hready', -, hrows⟩ := path_takes_over hr hready hfactor (idle [])
    (fun _ _ _ => le_refl (0 : Int)) (show (0 : ℚ) < 1 / 10 by norm_num)
  obtain ⟨row, hrow, -⟩ := List.isChain_iff_getElem.mp hready'.links 1 (by decide)
  refine ⟨s, s', hr, hN ▸ hlead, row, hrow, fun e he hlink => ?_⟩
  have hval := hrows 1 1 2 2 row rfl rfl (by decide) hrow e he
  rw [if_pos hlink] at hval
  linarith

end AntNet.L4
