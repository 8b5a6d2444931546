import AntNet.L4Network.Values

/-!
# Balanced routing tables

`Balanced`: every row totals 1 and lists distinct neighbors, and all rows of a
node list the same ones. Then a row update always finds its `next` in the row,
exactly once, because `next` is a link of the node (`Balanced.count`), so no
mass is lost. It is kept as long as every `start` meets `FreshStart`
(`balanced_reachable`).

`rows_distribution`: with at most one `start` for each agent, every row is a
probability distribution on the neighbor list that the `start` read.
-/
namespace AntNet.L4

open AntNet.L1 AntNet.L2 AntNet.L3 AntNet.Distribution

variable {K : Type} {s s' : Net K} {l : Act K}

/-- The entry a backward ant reinforces is a link. -/
theorem reinforced_link (hi : Inv s) {p : Packet K} (hp : p ∈ s.inFlight) {n next : Nsaddr} {j : Nat}
    (hj : p.path[j]? = some n) (hnext : p.path[j + 1]? = some next) : s.routes n next := by
  obtain ⟨v, -, hw⟩ := hi.ants p hp
  exact hw.links j n next hj hnext

/-- Before a `start` of `n`, no row it fills is there yet, and the rows that
are there list exactly the current neighbors. -/
def Fresh (s : Net K) (n : Nsaddr) : Prop :=
  ∀ d row, (s.agents n).rtable d = some row →
    ¬ Filled (s.agents n).addr (s.agents n).numNodes d ∧ (neighbors row).Perm (s.neighborList n)

def FreshStart (s : Net K) : Act K → Prop
  | .start n => (s.neighborList n).Nodup ∧ Fresh s n
  | _ => True

section Table

variable [Field K]

structure Balanced (s : Net K) : Prop where
  total : ∀ n d row, (s.agents n).rtable d = some row → total (rowDist row) = 1
  nodup : ∀ n d row, (s.agents n).rtable d = some row → (neighbors row).Nodup
  same : ∀ n d d' row row', (s.agents n).rtable d = some row → (s.agents n).rtable d' = some row' →
    (neighbors row).Perm (neighbors row')

/-- A link of a node is in every row of it exactly once. -/
theorem Balanced.count (hb : Balanced s) {n next : Nsaddr} (hr : s.routes n next) {d : Nsaddr}
    {row : PheromoneMatrix K} (hrow : (s.agents n).rtable d = some row) :
    (neighbors row).count next = 1 := by
  obtain ⟨d', row', hrow', hmem⟩ := hr
  have hperm := hb.same n d' d row' row hrow' hrow
  exact List.count_eq_one_of_mem (hb.nodup n d row hrow) (hperm.mem_iff.mp hmem)

theorem balanced_init (h : s.Initial) : Balanced s := by
  refine ⟨fun n d row hr => ?_, fun n d row hr => ?_, fun n d d' row row' hr _ => ?_⟩ <;>
    (rw [h.rtable] at hr; cases hr)

theorem updatedAgent_total (hb : Balanced s) (hi : Inv s) {p : Packet K} (hp : p ∈ s.inFlight)
    {n next : Nsaddr} {j : Nat} (hj : p.path[j]? = some n) (hnext : p.path[j + 1]? = some next)
    {d : Nsaddr} {row : PheromoneMatrix K}
    (hrow : (updatedAgent (s.agents n) p j next).rtable d = some row) : total (rowDist row) = 1 := by
  have hlink := reinforced_link hi hp hj hnext
  refine (updateAll_row (I := fun row => (neighbors row).count next = 1 ∧ total (rowDist row) = 1)
    (fun row hI => ?_) _ _ (fun row hr => ⟨hb.count hlink hr, hb.total n d row hr⟩) row hrow).2
  refine ⟨by rw [neighbors_updateRow]; exact hI.1, ?_⟩
  rw [rowDist_updateRow]
  exact total_reinforce_one hI.2 (by rw [keys_rowDist]; exact hI.1)

end Table

section Start

variable [Field K] [LinearOrder K] {addNb : List Nsaddr → Nsaddr → List Nsaddr}

variable [IsStrictOrderedRing K]

/-- The rows after a `start` that meets `FreshStart`: total 1, on exactly the
node's neighbors. -/
theorem start_proper (hb : Balanced s) {n : Nsaddr} (hf : Fresh s n) {d : Nsaddr}
    {row : PheromoneMatrix K} (hrow : (start (s.agents n) (s.neighborList n)).rtable d = some row) :
    total (rowDist row) = 1 ∧ (neighbors row).Perm (s.neighborList n) := by
  rcases start_row hrow with ⟨hfill, rfl⟩ | ⟨-, h0⟩
  · have hnone : (s.agents n).rtable d = none := by
      cases hd : (s.agents n).rtable d with
      | none => rfl
      | some row₀ => exact absurd hfill.2 (hf d row₀ hd).1
    rw [hnone, Option.getD_none, List.nil_append, rowDist_freshRow, neighbors_freshRow]
    exact ⟨total_uniform hfill.1, .refl _⟩
  · exact ⟨hb.total n d row h0, (hf d row h0).2⟩

theorem balanced_step (hi : Inv s) (hb : Balanced s) (hg : FreshStart s l)
    (ht : Trans addNb s l s') : Balanced s' := by
  refine ⟨?_, ?_, ?_⟩
  · intro n d row hrow
    cases trans_agent ht n with
    | same _ hrt _ => exact hb.total n d row (hrt ▸ hrow)
    | started hl ha =>
      subst hl
      exact (start_proper hb hg.2 (ha ▸ hrow)).1
    | reinforced _ hp _ _ hj hnext ha =>
      rw [hi.configured.addr] at hj
      exact updatedAgent_total hb hi (List.mem_of_getElem? hp) hj hnext (ha ▸ hrow)
  · intro n d row hrow
    cases trans_agent ht n with
    | same _ hrt _ => exact hb.nodup n d row (hrt ▸ hrow)
    | started hl ha =>
      subst hl
      obtain ⟨hnd, hf⟩ := hg
      exact (start_proper hb hf (ha ▸ hrow)).2.nodup_iff.mpr hnd
    | reinforced _ _ _ _ _ _ ha =>
      obtain ⟨row₀, h0, hn⟩ := reinforce_row (ha ▸ hrow)
      rw [← hn]; exact hb.nodup n d row₀ h0
  · intro n d d' row row' hrow hrow'
    cases trans_agent ht n with
    | same _ hrt _ => exact hb.same n d d' row row' (hrt ▸ hrow) (hrt ▸ hrow')
    | started hl ha =>
      subst hl
      obtain ⟨-, hf⟩ := hg
      exact (start_proper hb hf (ha ▸ hrow)).2.trans (start_proper hb hf (ha ▸ hrow')).2.symm
    | reinforced _ _ _ _ _ _ ha =>
      obtain ⟨row₀, h0, hn⟩ := reinforce_row (ha ▸ hrow)
      obtain ⟨row₁, h1, hn'⟩ := reinforce_row (ha ▸ hrow')
      rw [← hn, ← hn']; exact hb.same n d d' row₀ row₁ h0 h1

/-- **Tables stay balanced while every `start` is fresh.** -/
theorem balanced_reachable (h : ((net addNb).guard FreshStart).Reachable s) : Balanced s :=
  LTS.guard_induct (I := Balanced) (fun _ => balanced_init) (fun _ _ _ hr ih hg hs =>
    balanced_step (inv_reachable hr) ih hg (trans_of_reachable hr hs)) h

end Start

/-! ## One start for each agent -/

/-- No agent is started again, and its neighbor list has no duplicates. -/
def StartedOnce (s : Net K) : Act K → Prop
  | .start n => s.starts n = [] ∧ (s.neighborList n).Nodup
  | _ => True

instance (s : Net K) : (l : Act K) → Decidable (StartedOnce s l)
  | .start n => inferInstanceAs (Decidable (s.starts n = [] ∧ (s.neighborList n).Nodup))
  | .addNeighbor _ _ | .stop _ | .setRFactor _ _ | .setNumNodes _ _ | .advance _ | .expire _ _
  | .deliver _ _ _ _ | .lose _ => isTrue trivial

/-- The rows of a node list what its one `start` read. -/
def Listed (s : Net K) : Prop :=
  ∀ n d row, (s.agents n).rtable d = some row →
    ∃ nbs, s.starts n = [nbs] ∧ nbs.Nodup ∧ neighbors row = nbs

theorem listed_init (h : s.Initial) : Listed s := by
  intro n d row hr
  rw [h.rtable] at hr; cases hr

/-- A first start is fresh: there is no row yet. -/
theorem freshStart_of_startedOnce (hL : Listed s) (hg : StartedOnce s l) : FreshStart s l := by
  cases l with
  | start n =>
    obtain ⟨hnil, hnd⟩ := hg
    refine ⟨hnd, ?_⟩
    intro d row hrow
    obtain ⟨nbs, h0, -⟩ := hL n d row hrow
    rw [hnil] at h0; cases h0
  | _ => trivial

section Once

variable [Field K] [LinearOrder K] {addNb : List Nsaddr → Nsaddr → List Nsaddr}

theorem trans_starts (h : Trans addNb s l s') (n : Nsaddr) :
    l ≠ .start n ∧ s'.starts n = s.starts n ∨
      l = .start n ∧ s'.starts n = s.starts n ++ [s.neighborList n] := by
  cases h with
  | expire | deliver | lose => exact .inl ⟨by simp, rfl⟩
  | command hl hst =>
    cases l with
    | expire | deliver | lose => cases hl
    | addNeighbor | stop | setRFactor | setNumNodes => cases hst; exact .inl ⟨by simp, rfl⟩
    | advance t =>
      simp only [step] at hst
      split at hst
      · cases hst; exact .inl ⟨by simp, rfl⟩
      · cases hst
    | start m =>
      cases hst
      by_cases hn : n = m
      · subst hn
        exact .inr ⟨rfl, Function.update_self ..⟩
      · exact .inl ⟨fun he => hn (by cases he; rfl), Function.update_of_ne hn _ _⟩

theorem listed_step (hL : Listed s) (hg : StartedOnce s l) (ht : Trans addNb s l s') :
    Listed s' := by
  intro n d row hrow
  rcases trans_starts ht n with ⟨hne, hst⟩ | ⟨hl, hst⟩
  · rw [hst]
    cases trans_agent ht n with
    | same _ hrt _ => exact hL n d row (hrt ▸ hrow)
    | started hl _ => exact absurd hl hne
    | reinforced _ _ _ _ _ _ ha =>
      obtain ⟨row₀, h0, hn⟩ := reinforce_row (ha ▸ hrow)
      rw [← hn]; exact hL n d row₀ h0
  · subst hl
    obtain ⟨hnil, hnd⟩ := hg
    have hold : ∀ d, (s.agents n).rtable d = none := fun d => by
      cases hd : (s.agents n).rtable d with
      | none => rfl
      | some row₀ => obtain ⟨nbs, h0, -⟩ := hL n d row₀ hd; rw [hnil] at h0; cases h0
    refine ⟨s.neighborList n, by rw [hst, hnil]; rfl, hnd, ?_⟩
    cases trans_agent ht n with
    | same hne _ _ => exact absurd rfl hne
    | started _ ha =>
      rcases start_row (ha ▸ hrow) with ⟨-, rfl⟩ | ⟨-, h0⟩
      · rw [hold, Option.getD_none, List.nil_append, neighbors_freshRow]
      · rw [hold] at h0; cases h0
    | reinforced he => cases he

theorem listed_reachable (h : ((net addNb).guard StartedOnce).Reachable s) : Listed s :=
  LTS.guard_induct (I := Listed) (fun _ => listed_init) (fun _ _ _ hr ih hg hs =>
    listed_step ih hg (trans_of_reachable hr hs)) h

/-- A row update in the log of a delivery names the node after this one. -/
theorem rtUpdate_link (hi : Inv s) {p q : Packet K} (hp : p ∈ s.inFlight) {nf ttl : Int}
    {o : Oracle K} {d : Event} {a : Antnet K} {c log : List Event}
    (ho : Outcome (s.env o) (s.agents p.ip.daddr) (arrive p nf ttl) d q a c) (hlog : Ended d c log)
    {dest next : Nsaddr} (hm : Event.rtUpdate dest next ∈ log) : s.routes p.ip.daddr next := by
  obtain ⟨pre, rfl, -, hc⟩ := hlog
  have hd := ho.disposes
  have hcall : Event.rtUpdate dest next ∈ c := by
    rcases List.mem_append.mp hm with h0 | h1
    · rw [← hc]; exact List.mem_filter.mpr ⟨h0, rfl⟩
    · rw [← List.mem_singleton.mp h1] at hd; cases hd
  rcases ho.agent with ⟨-, rfl⟩ | ⟨-, j, next', hj, hnext, -, rfl⟩
  · cases hcall
  · rcases List.mem_cons.mp hcall with h0 | h1
    · cases h0
    · obtain ⟨x, -, hx⟩ := List.mem_map.mp h1
      cases hx
      rw [hi.configured.addr] at hj
      exact reinforced_link hi hp hj hnext

/-- What the runs of `rows_distribution` are. -/
def ProperRun (s : Net K) (l : Act K) : Prop :=
  StartedOnce s l ∧ Factor (fun r => 0 ≤ r ∧ r ≤ 1) s l

instance (s : Net K) (l : Act K) : Decidable (ProperRun s l) :=
  inferInstanceAs (Decidable (StartedOnce s l ∧ Factor (fun r => 0 ≤ r ∧ r ≤ 1) s l))

variable [IsStrictOrderedRing K]

/-- **Pheromone rows stay probability distributions** on the neighbor list
their node's `start` read, and every row update finds its link exactly once
(updates never change which neighbors a row lists). -/
theorem rows_distribution (h : ((net addNb).guard ProperRun).Reachable s) :
    (∀ n d row, (s.agents n).rtable d = some row → ∃ nbs, s.starts n = [nbs] ∧ nbs.Nodup ∧
      neighbors row = nbs ∧ (∀ e ∈ row, 0 ≤ e.phvalue ∧ e.phvalue ≤ 1) ∧
      (row.map (·.phvalue)).sum = 1) ∧
    ∀ p ∈ s.inFlight, ∀ nf ttl o f,
      (recv (s.env o)).exec ⟨arrive p nf ttl, s.agents p.ip.daddr, []⟩ = (.ok (), f) →
      ∀ dest next, Event.rtUpdate dest next ∈ f.log → ∀ row,
        (s.agents p.ip.daddr).rtable dest = some row → (neighbors row).count next = 1 := by
  have hi := inv_reachable (LTS.reachable_of_guard h)
  have honce := LTS.reachable_guard_mono (H := StartedOnce) (fun _ _ _ hg => hg.1) h
  have hL := listed_reachable honce
  have hb := balanced_reachable (LTS.reachable_guard_mono (H := FreshStart)
    (fun _ _ hr hg => freshStart_of_startedOnce (listed_reachable hr) hg) honce)
  have hv : Values (fun x => 0 ≤ x ∧ x ≤ 1) s := values_reachable
    (fun nbs _ e he => ⟨(uniform_mem_Ioc e he).1.le, (uniform_mem_Ioc e he).2⟩)
    (fun r x hr hx => raise_mem_Icc hr.1 hr.2 hx) (fun r x hr hx => decay_mem_Icc hr.1 hr.2 hx)
    (LTS.reachable_guard_mono (fun _ _ _ hg => hg.2) h)
  refine ⟨?_, ?_⟩
  · intro n d row hrow
    obtain ⟨nbs, hst, hnd, hn⟩ := hL n d row hrow
    refine ⟨nbs, hst, hnd, hn, ?_, ?_⟩
    · intro e he
      exact hv n d row hrow (e.neighbor, e.phvalue) (List.mem_map.mpr ⟨e, he, rfl⟩)
    · have ht := hb.total n d row hrow
      simpa [total, rowDist, Function.comp_def] using ht
  · intro p hp nf ttl o f he dest next hm row hrow
    obtain ⟨f', d, q, a, c, he', ho, hg⟩ := recv_exec hi.configured hi.ants hp nf ttl o
    rw [he] at he'
    cases he'
    exact hb.count (rtUpdate_link hi hp ho hg.log hm) hrow

end Once

/-- The row of node 1 towards 2 after an ant came back from there. -/
theorem rows_distribution_line : ∃ s : Net ℚ, ((net prependNb).guard ProperRun).Reachable s ∧
    ∃ row, (s.agents 1).rtable 2 = some row ∧ neighbors row = [2, 0] ∧
      (row.map (·.phvalue)).sum = 1 ∧ row.map (·.phvalue) ≠ [1 / 2, 1 / 2] := by
  have hrun : (LTS.execGuarded (step prependNb) ProperRun Net.boot (lineUp ++ [.expire 0 (idle [2]),
      .deliver 0 0 9 (idle []), .deliver 0 0 9 (idle []), .deliver 0 0 9 (idle [])] :
      List (Act ℚ))).map (fun s => (s.agents 1).rtable 2) =
      some (some [⟨2, 1001 / 2000⟩, ⟨0, 999 / 2000⟩]) := by decide +kernel
  obtain ⟨s, hs, hrow⟩ := Option.map_eq_some_iff.mp hrun
  have hr := LTS.reachable_of_execGuarded boot_initial hs
  obtain ⟨nbs, -, -, -, -, hsum⟩ := (rows_distribution hr).1 1 2 _ hrow
  exact ⟨s, hr, _, hrow, rfl, hsum, by decide +kernel⟩

end AntNet.L4
