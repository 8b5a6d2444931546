import AntNet.L3Agent.Recv

/-!
# What the handlers do to the routing table

Only two do anything: `update_table` reinforces rows that are there
(`updateAll_neighbors`, `updateAll_row`), and `start` adds an entry for each
neighbor to every row it fills, old or new (`start_rtable`).
-/
namespace AntNet.L3

open AntNet.L1 AntNet.L2 AntNet.Distribution

variable {K : Type} [Arithmetic K]

/-! ## Updates -/

theorem updateAll_neighbors (next : Nsaddr) (r : K) (d : Nsaddr) : ∀ (dests : List Nsaddr)
    (rt : RtableT K), (updateAll next r dests rt d).map neighbors = (rt d).map neighbors
  | [], rt => rfl
  | e :: dests, rt => by
    have ih := updateAll_neighbors next r d dests (update rt e next r)
    simp only [updateAll, List.foldl_cons] at ih ⊢
    rw [ih, update_apply]
    by_cases hd : d = e
    · subst hd
      rw [if_pos rfl, Option.map_map]
      congr 1
      funext row
      exact neighbors_updateRow next r row
    · rw [if_neg hd]

theorem updateAll_apply_of_notMem (next : Nsaddr) (r : K) {d : Nsaddr} : ∀ {dests : List Nsaddr},
    d ∉ dests → ∀ rt : RtableT K, updateAll next r dests rt d = rt d
  | [], _, rt => rfl
  | e :: dests, hd, rt => by
    obtain ⟨hne, hrest⟩ := not_or.mp (mt List.mem_cons.mpr hd)
    have ih := updateAll_apply_of_notMem next r hrest (update rt e next r)
    simp only [updateAll, List.foldl_cons] at ih ⊢
    rw [ih, update_apply, if_neg hne]

/-- Distinct destinations: the row of each of them is updated once, no other row is. -/
theorem updateAll_apply (next : Nsaddr) (r : K) (d : Nsaddr) : ∀ {dests : List Nsaddr},
    dests.Nodup → ∀ rt : RtableT K, updateAll next r dests rt d =
      if d ∈ dests then (rt d).map (updateRow next r) else rt d
  | [], _, rt => by simp [updateAll]
  | e :: dests, hnd, rt => by
    obtain ⟨he, hnd'⟩ := List.nodup_cons.mp hnd
    have ih := updateAll_apply next r d hnd' (update rt e next r)
    show updateAll next r dests (update rt e next r) d = _
    by_cases hd : d = e
    · subst hd
      rw [updateAll_apply_of_notMem next r he, update_apply, if_pos rfl, if_pos List.mem_cons_self]
    · rw [ih, update_apply, if_neg hd]
      simp [hd]

/-- What one update keeps of a row, all of them keep. -/
theorem updateAll_row {I : PheromoneMatrix K → Prop} {next : Nsaddr} {r : K}
    (hI : ∀ row, I row → I (updateRow next r row)) {d : Nsaddr} : ∀ (dests : List Nsaddr)
    (rt : RtableT K), (∀ row, rt d = some row → I row) →
      ∀ row, updateAll next r dests rt d = some row → I row
  | [], rt, h, row, hr => h row hr
  | e :: dests, rt, h, row, hr => by
    refine updateAll_row hI dests (update rt e next r) (fun row' h' => ?_) row hr
    rw [update_apply] at h'
    split at h'
    · rename_i hd
      subst hd
      obtain ⟨row₀, h0, rfl⟩ := Option.map_eq_some_iff.mp h'
      exact hI row₀ (h row₀ h0)
    · exact h row' h'

/-- A row after the updates is a row before them, with the same neighbors. -/
theorem reinforce_row {a : Antnet K} {next : Nsaddr} {dests : List Nsaddr} {d : Nsaddr}
    {row : PheromoneMatrix K} (h : (reinforceAgent a next dests).rtable d = some row) :
    ∃ row₀, a.rtable d = some row₀ ∧ neighbors row₀ = neighbors row := by
  have hn := updateAll_neighbors next a.rFactor d dests a.rtable
  unfold reinforceAgent at h
  dsimp only at h
  rw [h, Option.map_some] at hn
  exact Option.map_eq_some_iff.mp hn.symm

theorem reinforce_row_of {a : Antnet K} {next : Nsaddr} {dests : List Nsaddr} {d : Nsaddr}
    {row : PheromoneMatrix K} (h : a.rtable d = some row) :
    ∃ row', (reinforceAgent a next dests).rtable d = some row' ∧ neighbors row' = neighbors row := by
  have hn := updateAll_neighbors next a.rFactor d dests a.rtable
  rw [h, Option.map_some] at hn
  exact Option.map_eq_some_iff.mp hn

/-! ## Starting -/

/-- The entries `initialize_rtable` adds to a row. -/
def freshRow (nbs : List Nsaddr) : PheromoneMatrix K := nbs.map (⟨·, 1 / ((nbs.length : Int) : K)⟩)

theorem rowDist_freshRow (nbs : List Nsaddr) : rowDist (freshRow nbs : PheromoneMatrix K) = uniform nbs := by
  simp [rowDist, freshRow, uniform, Function.comp_def, Arithmetic.intCast_natCast]

theorem neighbors_freshRow (nbs : List Nsaddr) : neighbors (freshRow nbs : PheromoneMatrix K) = nbs := by
  rw [← keys_rowDist, rowDist_freshRow, keys_uniform]

/-- The rows `start` adds entries to. -/
def Fills (a : Antnet K) (nbs : List Nsaddr) (d : Nsaddr) : Prop :=
  nbs ≠ [] ∧ Filled a.addr a.numNodes d

instance (a : Antnet K) (nbs : List Nsaddr) (d : Nsaddr) : Decidable (Fills a nbs d) := by
  unfold Fills; infer_instance

/-- **The table after `start`.** -/
theorem start_rtable (a : Antnet K) (nbs : List Nsaddr) (d : Nsaddr) :
    (start a nbs).rtable d =
      if Fills a nbs d then some ((a.rtable d).getD [] ++ freshRow nbs) else a.rtable d := by
  unfold start initializeRtable Fills
  cases nbs with
  | nil => simp
  | cons x nbs =>
    have h0 : ((x :: nbs).length : Int) ≠ 0 := by simp only [List.length_cons]; omega
    simp only [if_neg h0]
    rw [fillTable_apply _ _ (by simp)]
    simp [freshRow]

theorem start_row {a : Antnet K} {nbs : List Nsaddr} {d : Nsaddr} {row : PheromoneMatrix K}
    (h : (start a nbs).rtable d = some row) :
    Fills a nbs d ∧ row = (a.rtable d).getD [] ++ freshRow nbs ∨
      ¬ Fills a nbs d ∧ a.rtable d = some row := by
  rw [start_rtable] at h
  split at h
  · rename_i hf
    exact .inl ⟨hf, (Option.some.inj h).symm⟩
  · rename_i hf
    exact .inr ⟨hf, h⟩

theorem start_row_of {a : Antnet K} (nbs : List Nsaddr) {d : Nsaddr} {row : PheromoneMatrix K}
    (h : a.rtable d = some row) :
    ∃ row', (start a nbs).rtable d = some row' ∧ neighbors row ⊆ neighbors row' := by
  rw [start_rtable, h]
  split
  · refine ⟨_, rfl, ?_⟩
    rw [Option.getD_some, neighbors_append]
    exact List.subset_append_left _ _
  · exact ⟨row, rfl, fun _ hx => hx⟩

/-! ## The agent -/

/-- The fields no handler and no command changes. -/
structure SameId (a a' : Antnet K) : Prop where
  addr : a'.addr = a.addr
  raAddr : a'.raAddr = a.raAddr
  herePort : a'.herePort = a.herePort
  dstPort : a'.dstPort = a.dstPort

omit [Arithmetic K] in
theorem SameId.refl (a : Antnet K) : SameId a a := ⟨rfl, rfl, rfl, rfl⟩

theorem start_sameId (a : Antnet K) (nbs : List Nsaddr) : SameId a (start a nbs) := by
  unfold start initializeRtable
  dsimp only
  split <;> exact ⟨rfl, rfl, rfl, rfl⟩

omit [Arithmetic K] in
theorem afterSend_sameId (a : Antnet K) : SameId a (afterSend a) := ⟨rfl, rfl, rfl, rfl⟩

end AntNet.L3
