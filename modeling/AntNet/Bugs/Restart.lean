import AntNet.L4Network.Balanced

/-!
# A second `start` appends to the routing table

`Antnet::command` runs `initialize_rtable` on every `start` (antnet.cc:86-90),
and `initialize_rtable` builds the rows by `add_entry` (antnet.cc:575-590),
which appends to the row that is there (antnet_rtable.cc:53-57). Nothing clears
the table, neither `stop` nor `start`. `create-antnet-agent` schedules a first
`start` by itself (tcl/lib/ns-lib.tcl:870), so the `start` of a script is
already the second.

What is broken: a row is a probability vector over the links, which
`calc_next` relies on (tests/test_antnet_math.cc:79-82). After the second
`start` every neighbor has two entries, and the row totals 2.

Counterexample: `add-neighbor 0 1`, `start` at 0, `start` at 0
(`restart_corrupts`).

Condition: a `start` leaves a proper table exactly when none of the rows it
fills is there yet, and the rows that are there list the current neighbors
(`restart_condition`). A first `start` is the usual case of it.
-/
namespace AntNet.Bugs.Restart

open AntNet.L1 AntNet.L2 AntNet.L3 AntNet.L4 AntNet.Distribution

variable {K : Type} [Field K]

/-- Every row has exactly one entry per neighbor, and totals 1. -/
def ProperTable (s : Net K) (n : Nsaddr) : Prop :=
  ∀ d row, (s.agents n).rtable d = some row →
    (neighbors row).Perm (s.neighborList n) ∧ total (rowDist row) = 1

/-- **Counterexample**: after `start` and `start`, node 0 has two entries for
its one neighbor. -/
theorem restart_corrupts : ∃ s s' : Net ℚ, (net prependNb).Reachable s ∧
    (s.neighborList 0).Nodup ∧ (net prependNb).step s (.start 0) s' ∧ ¬ ProperTable s' 0 := by
  have hrun : (runActs prependNb Net.boot
      ([.setNumNodes 0 2, .addNeighbor 0 1, .start 0] : List (Act ℚ))).map
      (fun s => (s.neighborList 0, (step prependNb s (.start 0)).map fun s' =>
        (s'.agents 0).rtable 1)) = some ([1], some (some [⟨1, 1⟩, ⟨1, 1⟩])) := by decide +kernel
  obtain ⟨s, hs, h⟩ := Option.map_eq_some_iff.mp hrun
  obtain ⟨hnb, h'⟩ := Prod.mk.injEq .. ▸ h
  obtain ⟨s', hs', hrow⟩ := Option.map_eq_some_iff.mp h'
  refine ⟨s, s', runActs_reachable boot_initial hs, by rw [hnb]; decide, hs', ?_⟩
  intro hp
  have htotal := (hp 1 _ hrow).2
  revert htotal
  decide +kernel

/-! ## When a `start` leaves a proper table -/

variable [LinearOrder K] [IsStrictOrderedRing K] {addNb : List Nsaddr → Nsaddr → List Nsaddr}
  {s s' : Net K} {n : Nsaddr}

omit [IsStrictOrderedRing K] in
theorem start_agent (h : (net addNb).step s (.start n) s') :
    s'.agents n = start (s.agents n) (s.neighborList n) ∧ s'.neighborList n = s.neighborList n := by
  cases h
  exact ⟨Function.update_self .., rfl⟩

/-- A row that `start` fills a second time totals 2. -/
theorem total_refilled (hb : Balanced s) {d : Nsaddr} {row : PheromoneMatrix K}
    (hrow : (s.agents n).rtable d = some row) (hf : Fills (s.agents n) (s.neighborList n) d) :
    ∃ row', (start (s.agents n) (s.neighborList n)).rtable d = some row' ∧ total (rowDist row') = 2 := by
  refine ⟨row ++ freshRow (s.neighborList n), ?_, ?_⟩
  · rw [start_rtable, if_pos hf, hrow, Option.getD_some]
  · rw [rowDist_append, total_append, hb.total n d row hrow, rowDist_freshRow, total_uniform hf.1]
    norm_num

theorem fresh_of_proper (hb : Balanced s) (h : (net addNb).step s (.start n) s')
    (hp : ProperTable s' n) : Fresh s n := by
  obtain ⟨ha, hn⟩ := start_agent h
  intro d row hrow
  have hnf : ¬ Fills (s.agents n) (s.neighborList n) d := by
    intro hf
    obtain ⟨row', hrow', htotal⟩ := total_refilled hb hrow hf
    have := (hp d row' (by rw [ha]; exact hrow')).2
    rw [htotal] at this
    norm_num at this
  have hrow' : (s'.agents n).rtable d = some row := by
    rw [ha, start_rtable, if_neg hnf]; exact hrow
  have hperm := (hp d row hrow').1
  rw [hn] at hperm
  refine ⟨fun hfill => hnf ⟨fun hnil => ?_, hfill⟩, hperm⟩
  -- without neighbors the row would be empty, but it totals 1
  have hempty : row = [] := by
    rw [hnil] at hperm
    exact List.map_eq_nil_iff.mp hperm.eq_nil
  have htotal := hb.total n d row hrow
  rw [hempty] at htotal
  exact zero_ne_one htotal

/-- **When tables stay proper**: in a run whose starts are all fresh, every row of
every table totals 1 and lists each neighbor once at any time, and a further
`start` leaves a proper table if and only if it is fresh as well. -/
theorem restart_condition (hr : ((net addNb).guard FreshStart).Reachable s) :
    (∀ n d row, (s.agents n).rtable d = some row →
      total (rowDist row) = 1 ∧ (neighbors row).Nodup) ∧
    ∀ n s', (net addNb).step s (.start n) s' →
      (ProperTable s' n ↔ Fresh s n) := by
  have hb := balanced_reachable hr
  refine ⟨fun n d row hrow => ⟨hb.total n d row hrow, hb.nodup n d row hrow⟩, ?_⟩
  intro n s' hs
  refine ⟨fresh_of_proper hb hs, ?_⟩
  intro hf d row hrow
  obtain ⟨ha, hn⟩ := start_agent hs
  rw [ha] at hrow
  obtain ⟨htotal, hperm⟩ := start_proper hb hf hrow
  exact ⟨by rw [hn]; exact hperm, htotal⟩

/-- The first `start` of node 0, after `add-neighbor 0 1`. -/
theorem restart_condition_first : ∃ s s' : Net ℚ, (net prependNb).step s (.start 0) s' ∧
    Fills (s.agents 0) (s.neighborList 0) 1 ∧ ProperTable s' 0 := by
  have hr : ((net prependNb).guard FreshStart).Reachable
      (addNeighbor prependNb (Net.boot : Net ℚ) 0 1) :=
    LTS.reachable_step (l := .addNeighbor 0 1) (LTS.reachable_init boot_initial) ⟨trivial, rfl⟩
  refine ⟨_, _, rfl, by decide, ((restart_condition hr).2 0 _ rfl).mpr ?_⟩
  intro d row hrow
  cases hrow

end AntNet.Bugs.Restart
