import AntNet.L4Network.Inv

/-!
# What a backward ant does to a table

A backward ant with memory `m_0 .. m_k`, at `m_j`: the later nodes of its
path are distinct, so `update_table` updates each of their rows once, towards
`m_(j+1)`, and nothing else (`update_table_effect`). The delivery it happens
in changes no other agent and leaves the ant header as it is.
-/
namespace AntNet.L4

open AntNet.L1 AntNet.L2 AntNet.L3

variable {K : Type} [Arithmetic K]

/-- A row after the update over the link to `next`. -/
def reinforced (next : Nsaddr) (r : K) (row : PheromoneMatrix K) : PheromoneMatrix K :=
  row.map fun e =>
    ⟨e.neighbor, if e.neighbor = next then e.phvalue + r * (1 - e.phvalue) else (1 - r) * e.phvalue⟩

/-- The table with the rows of `dests` updated over the link to `next`. -/
def reinforcedTable (rt : RtableT K) (dests : List Nsaddr) (next : Nsaddr) (r : K) : RtableT K :=
  fun d => if d ∈ dests then (rt d).map (reinforced next r) else rt d

theorem updateRow_eq (next : Nsaddr) (r : K) (row : PheromoneMatrix K) :
    updateRow next r row = reinforced next r row := by
  unfold updateRow reinforced
  apply List.map_congr_left
  intro e _
  split <;> rfl

theorem updateAll_eq {dests : List Nsaddr} (hnd : dests.Nodup) (next : Nsaddr) (r : K)
    (rt : RtableT K) : updateAll next r dests rt = reinforcedTable rt dests next r := by
  funext d
  rw [updateAll_apply next r d hnd, funext (updateRow_eq next r)]
  rfl

/-- The arguments of a call of `rtable_.update`. -/
def updateArgs : Event → Option (Nsaddr × Nsaddr)
  | .rtUpdate dest next => some (dest, next)
  | _ => none

/-- The recorded calls of `rtable_.update`. -/
def rtUpdates (log : List Event) : List (Nsaddr × Nsaddr) := log.filterMap updateArgs

theorem rtUpdates_calls (log : List Event) : rtUpdates (calls log) = rtUpdates log := by
  unfold rtUpdates calls
  rw [List.filterMap_filter]
  congr 1
  funext e
  cases e <;> rfl

omit [Arithmetic K] in
theorem rtUpdates_updateLog (p : Packet K) (j : Nat) (next : Nsaddr) :
    rtUpdates (updateLog p j next) = (p.path.drop (j + 1)).map fun d => (d, next) := by
  unfold rtUpdates updateLog updateCalls
  rw [List.filterMap_cons_none rfl, List.filterMap_map, ← List.filterMap_eq_map]
  rfl

theorem Ended.rtUpdates {d : Event} {c log : List Event} (h : Ended d c log)
    (hd : d.disposes = true) : L4.rtUpdates log = L4.rtUpdates c := by
  obtain ⟨pre, rfl, -, rfl⟩ := h
  have hlast : updateArgs d = none := by cases d <;> first | rfl | cases hd
  rw [rtUpdates_calls]
  simp [L4.rtUpdates, hlast]

theorem updatedAgent_eq {p : Packet K} {j : Nat} (hnd : (p.path.drop (j + 1)).Nodup)
    (a : Antnet K) (next : Nsaddr) : updatedAgent a p j next =
      { a with rtable := reinforcedTable a.rtable (p.path.drop (j + 1)) next a.rFactor } := by
  show { a with rtable := updateAll next a.rFactor (p.path.drop (j + 1)) a.rtable } = _
  rw [updateAll_eq hnd]

/-- `update_table` changes the table and nothing else. -/
theorem updateTable_exec {p : Packet K} {a : Antnet K} {j : Nat} {next : Nsaddr} (h : Found p a j)
    (hn : p.path[j + 1]? = some next) :
    ∃ log, updateTable.exec ⟨p, a, []⟩ = (.ok (), ⟨p, updatedAgent a p j next, log⟩) ∧
      rtUpdates log = (p.path.drop (j + 1)).map fun d => (d, next) := by
  obtain ⟨u, f, he, hf⟩ := updateTable_spec h hn _ (at_start p a)
  refine ⟨f.log, ?_, ?_⟩
  · obtain ⟨fp, fs, fl⟩ := f
    rw [he, show fp = p from hf.pkt, show fs = updatedAgent a p j next from hf.self]
  · rw [← rtUpdates_calls, hf.calls]
    exact rtUpdates_updateLog p j next

variable [LinearOrder K] {addNb : List Nsaddr → Nsaddr → List Nsaddr} {s : Net K}

/-- **The effect of a backward ant on a node's table.** -/
theorem update_table_effect (h : (net addNb).Reachable s) {p : Packet K} (hp : p ∈ s.inFlight)
    (hu : p.cmn.direction = .UP) :
    let a := s.agents p.ip.daddr
    ∃ j next, p.path[j]? = some p.ip.daddr ∧ p.path[j + 1]? = some next ∧
      let a' := { a with rtable := reinforcedTable a.rtable (p.path.drop (j + 1)) next a.rFactor }
      (p.path.drop (j + 1)).Nodup ∧
      (∀ nf ttl, ∃ log, updateTable.exec ⟨arrive p nf ttl, a, []⟩ =
          (.ok (), ⟨arrive p nf ttl, a', log⟩) ∧
        rtUpdates log = (p.path.drop (j + 1)).map fun d => (d, next)) ∧
      ∀ i nf ttl o s', s.inFlight[i]? = some p → step addNb s (.deliver i nf ttl o) = some s' →
        s'.agents = Function.update s.agents p.ip.daddr a' ∧
        (∃ log, s'.hist p.cmn.uid = s.hist p.cmn.uid ++ [⟨p.ip.daddr, .UP, s.clock, log⟩] ∧
          rtUpdates log = (p.path.drop (j + 1)).map fun d => (d, next)) ∧
        ∀ q ∈ s'.inFlight, q.cmn.uid = p.cmn.uid → q.ant = p.ant := by
  intro a
  have hi := inv_reachable h
  obtain ⟨v, -, hw⟩ := hi.ants p hp
  have haddr : a.addr = p.ip.daddr := hi.configured.addr _
  obtain ⟨j, next, hfound, hnext, -⟩ := (hw.homebound hu).found hw haddr
  have hnd : (p.path.drop (j + 1)).Nodup := hw.nodup.sublist (List.drop_sublist _ _)
  have hagent := updatedAgent_eq hnd a next
  refine ⟨j, next, by rw [← haddr]; exact hfound.at_j, hnext, hnd, ?_, ?_⟩
  · intro nf ttl
    have hfound' : Found (arrive p nf ttl) a j := ⟨hw.size, hfound.at_j, hfound.nodup⟩
    rw [← hagent]
    exact updateTable_exec hfound' hnext
  · intro i nf ttl o s' hpi hs
    have ht := trans_of_reachable (l := .deliver i nf ttl o) h hs
    cases ht with
    | command hl => cases hl
    | @deliver _ _ _ _ p' q d a₁ c log hp' ho hlog =>
      obtain rfl : p = p' := Option.some.inj (hpi.symm.trans hp')
      have huid : q.cmn.uid = p.cmn.uid := ho.uid
      obtain ⟨rfl, rfl⟩ := ho.updated hu hw.nodup hfound.at_j hnext
      refine ⟨by rw [← hagent]; rfl, ⟨log, ?_, ?_⟩, ?_⟩
      · rw [← huid, finish_hist, huid, hu]
      · rw [hlog.rtUpdates ho.disposes, rtUpdates_updateLog]
        rfl
      · intro r hr hru
        rcases List.mem_append.mp hr with hm | hm
        · exact absurd hru (hi.ledger.uid_ne hpi hm)
        · split at hm
          · rename_i hd
            obtain rfl := List.mem_singleton.mp hm
            subst hd
            exact (ho.staysUp hu).2
          · cases hm

/-- An ant from 0 to 2 on its way back, before it reaches 1. -/
theorem update_table_effect_line : ∃ s : Net ℚ, (net prependNb).Reachable s ∧
    ∃ p ∈ s.inFlight, p.cmn.direction = .UP ∧
      ∃ (j : Nat) (next : Nsaddr), p.path[j]? = some p.ip.daddr ∧ p.path[j + 1]? = some next ∧
        (p.path.drop (j + 1)).Nodup := by
  have hrun : (runActs prependNb Net.boot (lineUp ++ [.expire 0 (idle [0, 2]), .deliver 0 0 9 (idle []),
      .deliver 0 0 9 (idle [])] : List (Act ℚ))).map (fun s => s.inFlight.map (·.cmn.direction)) =
      some [.UP] := by decide +kernel
  obtain ⟨s, hs, hp⟩ := Option.map_eq_some_iff.mp hrun
  have hr := runActs_reachable boot_initial hs
  obtain ⟨p, hp', hu⟩ := List.mem_map.mp (hp ▸ List.mem_singleton_self Dir.UP)
  obtain ⟨j, next, hj, hn, hnd, -⟩ := update_table_effect hr hp' hu
  exact ⟨s, hr, p, hp', hu, j, next, hj, hn, hnd⟩

end AntNet.L4
