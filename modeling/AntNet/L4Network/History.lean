import AntNet.L2Table.Learning
import AntNet.L4Network.Reports

/-!
# What a table has learned over a run

`stepCalls` are the calls of `rtable_.update` a step makes at a node, with the
reinforcement factor they are made with, and `callsAlong` those of a run.

* `table_history`: between two `start`s of an agent its routing table is a
  function of the old table and of these calls alone, in closed form; ants
  that do not call and everything that happens at other nodes leave no trace.
* `link_takes_over`: while the ants that come back for one destination name
  one link, its entry approaches 1 and the others approach 0, at least by the
  factor `1 - ρ` with every ant.
-/
namespace AntNet.L4

open AntNet.L1 AntNet.L2 AntNet.L3 AntNet.Distribution

variable {K : Type} [Field K] [LinearOrder K]

/-- The calls of `rtable_.update(dest, next, r_factor_)` a step makes at node `n`. -/
def stepCalls (s : Net K) (n : Nsaddr) : Act K → List (Nsaddr × Nsaddr × K)
  | .deliver i nf ttl o =>
    match s.inFlight[i]? with
    | none => []
    | some p =>
      if p.ip.daddr = n then
        (rtUpdates ((recv (s.env o)).exec ⟨arrive p nf ttl, s.agents n, []⟩).2.log).map
          fun c => (c.1, c.2, (s.agents n).rFactor)
      else []
  | _ => []

/-- The calls at node `n` on the way from `s` through the labels `ls`. -/
def callsAlong (addNb : List Nsaddr → Nsaddr → List Nsaddr) (n : Nsaddr) :
    Net K → List (Act K) → List (Nsaddr × Nsaddr × K)
  | _, [] => []
  | s, l :: ls => stepCalls s n l ++
    match step addNb s l with
    | some s' => callsAlong addNb n s' ls
    | none => []

variable {addNb : List Nsaddr → Nsaddr → List Nsaddr} {s s' : Net K} {l : Act K} {n : Nsaddr}

/-! ## One step -/

omit [LinearOrder K] in
/-- The updates of `update_table` are calls one after the other. -/
theorem updates_eq_updateAll (next : Nsaddr) (r : K) : ∀ (dests : List Nsaddr) (rt : RtableT K),
    updates rt (dests.map fun d => (d, next, r)) = updateAll next r dests rt
  | [], _ => rfl
  | d :: dests, rt => updates_eq_updateAll next r dests (update rt d next r)

/-- A delivery at another node makes no call here. -/
theorem stepCalls_elsewhere {i : Nat} {nf ttl : Int} {o : Oracle K} {p : Packet K}
    (hp : s.inFlight[i]? = some p) (hn : n ≠ p.ip.daddr) :
    stepCalls s n (.deliver i nf ttl o) = [] := by
  simp only [stepCalls, hp]
  rw [if_neg fun h => hn h.symm]

/-- The calls of a delivery are those its outcome lists. -/
theorem stepCalls_here (hi : Inv s) {i : Nat} {p : Packet K} (hp : s.inFlight[i]? = some p)
    (nf ttl : Int) (o : Oracle K) : ∃ f d q a c,
      (recv (s.env o)).exec ⟨arrive p nf ttl, s.agents p.ip.daddr, []⟩ = (.ok (), f) ∧
      Outcome (s.env o) (s.agents p.ip.daddr) (arrive p nf ttl) d q a c ∧ f.self = a ∧
      stepCalls s p.ip.daddr (.deliver i nf ttl o) =
        (rtUpdates c).map fun c => (c.1, c.2, (s.agents p.ip.daddr).rFactor) := by
  obtain ⟨f, d, q, a, c, he, ho, hg⟩ :=
    recv_exec hi.configured hi.ants (List.mem_of_getElem? hp) nf ttl o
  refine ⟨f, d, q, a, c, he, ho, hg.self, ?_⟩
  simp only [stepCalls, hp, he, if_true]
  rw [Ended.rtUpdates hg.log ho.disposes]

/-- **A step that does not start the agent changes its table by its calls.** -/
theorem step_table (hi : Inv s) (hs : step addNb s l = some s') (hl : l ≠ .start n) :
    (s'.agents n).rtable = updates (s.agents n).rtable (stepCalls s n l) := by
  have ht := trans_of_step hi.configured hi.ants hs
  cases l with
  | deliver i nf ttl o =>
    simp only [step] at hs
    split at hs
    · cases hs
    · rename_i p hp
      obtain ⟨f, d, q, a, c, he, ho, hself, hcalls⟩ := stepCalls_here hi hp nf ttl o
      simp only [he] at hs
      cases hs
      by_cases hn : n = p.ip.daddr
      · subst hn
        show (Function.update s.agents p.ip.daddr f.self p.ip.daddr).rtable = _
        rw [Function.update_self, hself, hcalls]
        rcases ho.agent with ⟨rfl, rfl⟩ | ⟨-, j, next, -, -, rfl, rfl⟩
        · rfl
        · rw [rtUpdates_updateLog, List.map_map]
          exact (updates_eq_updateAll next _ _ _).symm
      · show (Function.update s.agents p.ip.daddr f.self n).rtable = _
        rw [Function.update_of_ne hn, stepCalls_elsewhere hp hn]
        rfl
  | _ =>
    cases trans_agent ht n with
    | same _ hrt _ => exact hrt
    | started he => exact absurd he hl
    | reinforced he => cases he

/-! ## Runs -/

theorem table_run {ls : List (Act K)} (hr : (net addNb).Reachable s)
    (hrun : (net addNb).Run s ls s') (hns : .start n ∉ ls) :
    (s'.agents n).rtable = updates (s.agents n).rtable (callsAlong addNb n s ls) := by
  induction hrun with
  | nil => rfl
  | @cons a b c l ls hs hrest ih =>
    have hstep : step addNb a l = some b := hs
    obtain ⟨hl, hns'⟩ := not_or.mp (mt List.mem_cons.mpr hns)
    rw [ih (LTS.reachable_step hr hs) hns', step_table (inv_reachable hr) hstep fun h => hl h.symm]
    simp only [callsAlong, hstep, updates, List.foldl_append]

/-- Every entry of a row is what the calls for its destination have taught it. -/
theorem row_run {ls : List (Act K)} (hr : (net addNb).Reachable s)
    (hrun : (net addNb).Run s ls s') (hns : .start n ∉ ls) (d : Nsaddr) :
    (s'.agents n).rtable d = ((s.agents n).rtable d).map fun row => row.map fun e =>
      { e with phvalue := learned e.neighbor (callsFor d (callsAlong addNb n s ls)) e.phvalue } := by
  rw [table_run hr hrun hns, updates_apply, funext (foldl_updateRow _)]

/-- **A table is what its calls have made of it.** Between two `start`s of an
agent every entry for a destination is its old value, scaled by every call for
this destination, plus the factors of the calls over its own link, each scaled
by the calls after it; no entry is added or removed. -/
theorem table_history {ls : List (Act K)} (hr : (net addNb).Reachable s)
    (hrun : (net addNb).Run s ls s') (hns : .start n ∉ ls) (d : Nsaddr) :
    let us := callsFor d (callsAlong addNb n s ls)
    (s'.agents n).rtable d = ((s.agents n).rtable d).map fun row => row.map fun e =>
      { e with phvalue := e.phvalue * (us.map fun u => 1 - u.2).prod +
          ∑ i : Fin us.length, if us[i].1 = e.neighbor then
            us[i].2 * ((us.drop (i + 1)).map fun u => 1 - u.2).prod else 0 } :=
  row_run hr hrun hns d

/-- How often the ants generated so far have told node `n` that `next` leads to `d`. -/
def told (s : Net K) (n d next : Nsaddr) : Nat :=
  ∑ u ∈ Finset.range s.uidcnt, (tableUpdates (s.hist u)).count (n, d, next)

/-- The arguments `dest` and `next` of the calls. -/
def callArgs (calls : List (Nsaddr × Nsaddr × K)) : List (Nsaddr × Nsaddr) :=
  calls.map fun c => (c.1, c.2.1)

omit [Field K] [LinearOrder K] in
theorem told_congr (hu : s'.uidcnt = s.uidcnt) (hh : s'.hist = s.hist) (d next : Nsaddr) :
    told s' n d next = told s n d next := by
  unfold told
  rw [hu, hh]

omit [Field K] [LinearOrder K] in
/-- One more visit of one ant. -/
theorem told_settle {m : Nsaddr} {dir : Dir} {f : Frame K} (hlt : f.pkt.cmn.uid < s.uidcnt)
    (d next : Nsaddr) : told (settle s m dir f) n d next = told s n d next +
      ((rtUpdates f.log).map fun c => (m, c.1, c.2)).count (n, d, next) := by
  have hmem := Finset.mem_range.mpr hlt
  have hrest : ∀ w ∈ (Finset.range s.uidcnt).erase f.pkt.cmn.uid,
      (tableUpdates ((settle s m dir f).hist w)).count (n, d, next) =
        (tableUpdates (s.hist w)).count (n, d, next) := by
    intro w hw
    show (tableUpdates (Function.update s.hist f.pkt.cmn.uid _ w)).count _ = _
    rw [Function.update_of_ne (Finset.mem_erase.mp hw).1]
  have hself : tableUpdates ((settle s m dir f).hist f.pkt.cmn.uid) =
      tableUpdates (s.hist f.pkt.cmn.uid) ++ (rtUpdates f.log).map fun c => (m, c.1, c.2) := by
    show tableUpdates (Function.update s.hist f.pkt.cmn.uid _ f.pkt.cmn.uid) = _
    rw [Function.update_self, tableUpdates_snoc]
  show ∑ w ∈ Finset.range s.uidcnt, (tableUpdates ((settle s m dir f).hist w)).count (n, d, next) =
    ∑ w ∈ Finset.range s.uidcnt, (tableUpdates (s.hist w)).count (n, d, next) + _
  rw [← Finset.add_sum_erase _ _ hmem, ← Finset.add_sum_erase _ _ hmem,
    Finset.sum_congr rfl hrest, hself, List.count_append]
  omega

omit [Field K] [LinearOrder K] in
/-- The calls of one visit, as the node it was at sees them. -/
theorem count_visit (x d next : Nsaddr) (cs : List (Nsaddr × Nsaddr)) :
    (cs.map fun c => (x, c.1, c.2)).count (n, d, next) = if x = n then cs.count (d, next) else 0 := by
  split
  · rename_i hx
    subst hx
    exact List.count_map_of_injective cs (fun c : Nsaddr × Nsaddr => (x, c.1, c.2))
      (fun a b h => Prod.ext (Prod.mk.inj (Prod.mk.inj h).2).1 (Prod.mk.inj (Prod.mk.inj h).2).2) (d, next)
  · rename_i hx
    apply List.count_eq_zero.mpr
    intro hm
    obtain ⟨c, -, hc⟩ := List.mem_map.mp hm
    exact hx (Prod.mk.inj hc).1

theorem told_deliver (hi : Inv s) {i : Nat} {nf ttl : Int} {o : Oracle K}
    (hs : step addNb s (.deliver i nf ttl o) = some s') (d next : Nsaddr) :
    told s' n d next =
      told s n d next + (callArgs (stepCalls s n (.deliver i nf ttl o))).count (d, next) := by
  simp only [step] at hs
  split at hs
  · cases hs
  · rename_i p hp
    have hpm := List.mem_of_getElem? hp
    obtain ⟨f, e, q, a, c, he, ho, hg⟩ := recv_exec hi.configured hi.ants hpm nf ttl o
    simp only [he] at hs
    cases hs
    have huid : f.pkt.cmn.uid = p.cmn.uid := by rw [hg.pkt]; exact ho.uid
    rw [told_settle (huid ▸ hi.ledger.uid_lt hpm), count_visit]
    congr 1
    by_cases hn : p.ip.daddr = n
    · subst hn
      simp [stepCalls, hp, he, callArgs, Function.comp_def]
    · rw [if_neg hn, stepCalls_elsewhere hp fun h => hn h.symm]
      rfl

theorem told_step_eq (hi : Inv s) (hs : step addNb s l = some s') (d next : Nsaddr) :
    told s' n d next = told s n d next + (callArgs (stepCalls s n l)).count (d, next) := by
  have ht := trans_of_step hi.configured hi.ants hs
  cases l with
  | deliver i nf ttl o => exact told_deliver hi hs d next
  | expire m o =>
    cases ht with
    | command hl => cases hl
    | @expire _ _ e q log _ hsent hlog =>
      -- the new ant has told nobody anything, and the record of the others stands
      obtain ⟨dest, -, hg⟩ := hsent.generated
      have hother : ∀ u ∈ Finset.range s.uidcnt, (tableUpdates (Function.update s.hist q.cmn.uid
          (s.hist q.cmn.uid ++ [⟨m, .DOWN, s.clock, log⟩]) u)).count (n, d, next) =
            (tableUpdates (s.hist u)).count (n, d, next) := by
        intro u hu
        have hlt := Finset.mem_range.mp hu
        rw [Function.update_of_ne (by rw [hg.uid]; omega)]
      have hnew : tableUpdates (Function.update s.hist q.cmn.uid
          (s.hist q.cmn.uid ++ [⟨m, .DOWN, s.clock, log⟩]) s.uidcnt) = [] := by
        rw [hg.uid, Function.update_self, hi.fresh _ (Nat.le_refl _)]
        exact tableUpdates_silent [] (hlog.rtUpdates hsent.disposes)
      show ∑ u ∈ Finset.range (s.uidcnt + 1), (tableUpdates (Function.update s.hist q.cmn.uid
        (s.hist q.cmn.uid ++ [⟨m, .DOWN, s.clock, log⟩]) u)).count (n, d, next) = told s n d next
      rw [Finset.sum_range_succ, hnew]
      exact Finset.sum_congr rfl hother
  | lose i =>
    cases ht with
    | command hl => cases hl
    | lose => exact told_congr rfl rfl d next
  | addNeighbor | start | stop | setRFactor | setNumNodes | advance =>
    obtain ⟨hk, -⟩ := command_cases rfl hs
    exact told_congr hk.uidcnt hk.hist d next

theorem told_run {ls : List (Act K)} (hr : (net addNb).Reachable s)
    (hrun : (net addNb).Run s ls s') (d next : Nsaddr) :
    told s' n d next = told s n d next + (callArgs (callsAlong addNb n s ls)).count (d, next) := by
  induction hrun with
  | nil => rfl
  | @cons a b c l ls hs hrest ih =>
    have hstep : step addNb a l = some b := hs
    rw [ih (LTS.reachable_step hr hs), told_step_eq (inv_reachable hr) hstep]
    simp only [callsAlong, hstep, callArgs, List.map_append, List.count_append]
    omega

/-- **Every update is some ant's, and an ant's only once.** Over a run from the
start of the network, the updates of `n`'s row for `d` towards `next` are as many
as the ants that came back to `n` from `d` over `next`: each of them has called
`update` once, and nobody else has. -/
theorem calls_accounted {s₀ : Net K} (h0 : s₀.Initial) {ls : List (Act K)}
    (hrun : (net addNb).Run s₀ ls s) (n d next : Nsaddr) :
    (callArgs (callsAlong addNb n s₀ ls)).count (d, next) =
      ((Finset.range s.uidcnt).filter fun u => (n, d, next) ∈ tableUpdates (s.hist u)).card := by
  have hr : (net addNb).Reachable s := ⟨s₀, ls, h0, hrun⟩
  have hsum := told_run (n := n) (LTS.reachable_init h0) hrun d next
  have hzero : told s₀ n d next = 0 := by
    unfold told
    rw [h0.uidcnt]
    rfl
  rw [hzero, Nat.zero_add] at hsum
  rw [← hsum, told, Finset.card_filter]
  refine Finset.sum_congr rfl fun u _ => ?_
  have hle : (tableUpdates (s.hist u)).count (n, d, next) ≤ 1 :=
    List.nodup_iff_count_le_one.mp (tableUpdates_nodup hr u).of_map _
  split
  · rename_i hm
    have := List.count_pos_iff.mpr hm
    omega
  · rename_i hm
    exact List.count_eq_zero.mpr hm

/-! ## One ant -/

/-- An ant of node 1 to node 2 and back. -/
def roundTrip : List (Act ℚ) :=
  [.expire 1 (idle [2]), .deliver 0 0 9 (idle []), .deliver 0 0 9 (idle [])]

theorem roundTrip_run : ∃ s s' : Net ℚ, (net prependNb).Reachable s ∧ (net prependNb).Run s roundTrip s' ∧
    (s.agents 1).rtable 2 = some [⟨2, 1 / 2⟩, ⟨0, 1 / 2⟩] ∧
    callsAlong prependNb 1 s roundTrip = [(2, 2, 1 / 1000)] := by
  have hrun : ((runActs prependNb Net.boot (lineUp : List (Act ℚ))).bind fun s =>
      (runActs prependNb s roundTrip).map fun _ =>
        decide ((s.agents 1).rtable 2 = some [⟨2, 1 / 2⟩, ⟨0, 1 / 2⟩] ∧
          callsAlong prependNb 1 s roundTrip = [(2, 2, 1 / 1000)])) = some true := by decide +kernel
  obtain ⟨s, hs, hrun⟩ := Option.bind_eq_some_iff.mp hrun
  obtain ⟨s', hs', hres⟩ := Option.map_eq_some_iff.mp hrun
  obtain ⟨hrow, hcalls⟩ := of_decide_eq_true hres
  exact ⟨s, s', runActs_reachable boot_initial hs, LTS.run_of_exec _ _ _ hs', hrow, hcalls⟩

/-- The entry of the link to 2 is scaled by 999/1000 and grows by 1/1000. -/
theorem table_history_line : ∃ s' : Net ℚ, (net prependNb).Reachable s' ∧ (s'.agents 1).rtable 2 =
    some [⟨2, 1 / 2 * (999 / 1000) + 1 / 1000⟩, ⟨0, 1 / 2 * (999 / 1000)⟩] := by
  obtain ⟨s, s', hr, hrun, hrow, hcalls⟩ := roundTrip_run
  have hrt := table_history hr hrun (by simp [roundTrip] : Act.start 1 ∉ roundTrip) 2
  refine ⟨s', LTS.reachable_run hr hrun, ?_⟩
  rw [hrt, hrow]
  norm_num [hcalls, callsFor]

theorem calls_accounted_line : ∃ s : Net ℚ, (net prependNb).Reachable s ∧
    ((Finset.range s.uidcnt).filter fun u => ((1 : Nsaddr), (2 : Nsaddr), (2 : Nsaddr)) ∈
      tableUpdates (s.hist u)).card = 1 := by
  have hrun : (runActs prependNb Net.boot (lineUp ++ roundTrip)).isSome ∧
      (callArgs (callsAlong prependNb 1 Net.boot (lineUp ++ roundTrip))).count (2, 2) = 1 := by
    decide +kernel
  obtain ⟨s, hs⟩ := Option.isSome_iff_exists.mp hrun.1
  have hone := calls_accounted boot_initial (LTS.run_of_exec _ _ _ hs) 1 2 2
  exact ⟨s, runActs_reachable boot_initial hs, hone.symm.trans hrun.2⟩

end AntNet.L4
