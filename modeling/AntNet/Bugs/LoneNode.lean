import AntNet.L4Network.Agents
import AntNet.L4Network.Inv

/-!
# A network of one node hangs in `calc_destination`

`start` runs `initialize_rtable` and schedules the ant timer (antnet.cc:86-90).
`initialize_rtable` stores `num_nodes_` in `NUM_NODES` and has a branch of its
own for an "isolated node: nothing to route through" (antnet.cc:566-573), so a
node without links is meant to be started. The timer's `send_ant_pkt` then draws
destinations until one differs from the source (antnet_rtable.cc:85-92).

What is broken: with `num_nodes_` 1 every draw `rnum->uniform(1)` is 0, the
address of the only node, and the loop never ends.

Counterexample: `start` at node 0 with `num_nodes_` 1 (`lone_node_hangs`).

Condition: `num_nodes_` is at least 2 (`generation_condition`). Then the loop
ends for isolated nodes too.
-/
namespace AntNet.Bugs.LoneNode

open AntNet.L1 AntNet.L2 AntNet.L3 AntNet.L4

variable {K : Type}

/-- The answers of `rnum->uniform(N)`: any of the values comes again and again. -/
structure FairDraws (N : Int) (draws : Nat → Int) : Prop where
  range : ∀ t, 0 ≤ draws t ∧ draws t < N
  often : ∀ v, 0 ≤ v → v < N → ∀ k, ∃ t, k ≤ t ∧ draws t = v

def firstDraws (draws : Nat → Int) (k : Nat) : List Int := (List.range k).map draws

section Loop

variable {source dest N : Int} {draws : Nat → Int}

theorem firstDraws_range (h : FairDraws N draws) {k : Nat} {v : Int} (hv : v ∈ firstDraws draws k) :
    0 ≤ v ∧ v < N := by
  obtain ⟨t, -, rfl⟩ := List.mem_map.mp hv
  exact h.range t

/-- Two values cannot both be the source. -/
theorem loop_exits (h : FairDraws N draws) (hN : 2 ≤ N) (source : Int) :
    ∃ k dest, calcDestination source (firstDraws draws k) = some dest := by
  obtain ⟨v, hv0, hvN, hne⟩ : ∃ v, 0 ≤ v ∧ v < N ∧ v ≠ source := by
    by_cases h0 : source = 0
    · exact ⟨1, by omega, by omega, by omega⟩
    · exact ⟨0, by omega, by omega, by omega⟩
  obtain ⟨t, -, ht⟩ := h.often v hv0 hvN 0
  refine ⟨t + 1, calcDestination_some_iff.mpr ⟨v, ?_, hne⟩⟩
  exact List.mem_map.mpr ⟨t, List.mem_range.mpr (Nat.lt_succ_self t), ht⟩

theorem loop_stuck (h : FairDraws N draws) (hN : N = 1) (hs : source = 0) (k : Nat) :
    calcDestination source (firstDraws draws k) = none := by
  refine Option.eq_none_iff_forall_ne_some.mpr fun (dest : Int) hd => ?_
  have hr := firstDraws_range h (calcDestination_mem hd)
  have hne : dest ≠ source := calcDestination_ne hd
  omega

end Loop

section Network

variable [Arithmetic K] [LinearOrder K] {addNb : List Nsaddr → Nsaddr → List Nsaddr} {s s' : Net K}
  {n : Nsaddr} {l : Act K} {draws : Nat → Int}

/-- The timer's ant of node `n` leaves the loop after finitely many of the
draws, with an address of the topology other than its own, and the handler
returns. -/
def Generates (addNb : List Nsaddr → Nsaddr → List Nsaddr) (s : Net K) (n : Nsaddr)
    (draws : Nat → Int) : Prop :=
  ∃ k dest, calcDestination n (firstDraws draws k) = some dest ∧
    0 ≤ dest ∧ dest < s.numNODES ∧ dest ≠ n ∧
    ∀ o : Oracle K, o.draws = firstDraws draws k → ∃ s', (net addNb).step s (.expire n o) s'

/-- A `start` finds at least two nodes configured. -/
def SeveralNodes (s : Net K) : Act K → Prop
  | .start n => 2 ≤ (s.agents n).numNodes
  | _ => True

instance (s : Net K) : (l : Act K) → Decidable (SeveralNodes s l)
  | .start n => inferInstanceAs (Decidable (2 ≤ (s.agents n).numNodes))
  | .addNeighbor _ _ | .stop _ | .setRFactor _ _ | .setNumNodes _ _ | .advance _ | .expire _ _
  | .deliver _ _ _ _ | .lose _ => isTrue trivial

/-- The handler of the timer runs to its end with draws that leave the loop. -/
theorem expire_steps (hc : Configured s) (ht : (s.agents n).antTimer = true) {o : Oracle K}
    {dest : Nsaddr} (hd : calcDestination n o.draws = some dest) :
    ∃ s', (net addNb).step s (.expire n o) s' := by
  obtain ⟨u, f, he, -⟩ := expire_spec (s.env o) s.uidcnt (by rw [hc.addr]; exact hd) _
    (at_start o.blank (s.agents n))
  refine ⟨settle { s with uidcnt := s.uidcnt + 1 } n .DOWN f, ?_⟩
  show step addNb s (.expire n o) = _
  simp only [step, if_pos ht, he]

/-- Draws that do not leave the loop leave no step. -/
theorem expire_no_step (hc : Configured s) {o : Oracle K} (hd : calcDestination n o.draws = none) :
    ¬ ∃ s', (net addNb).step s (.expire n o) s' := by
  rintro ⟨s', h⟩
  obtain ⟨f, he⟩ := expire_stuck (s.env o) s.uidcnt (f := ⟨o.blank, s.agents n, []⟩)
    (by rw [hc.addr]; exact hd)
  have h : step addNb s (.expire n o) = some s' := h
  simp only [step, he] at h
  split at h <;> cases h

theorem generates_of_several (hc : Configured s) (ht : (s.agents n).antTimer = true)
    (hd : FairDraws s.numNODES draws) (hN : 2 ≤ s.numNODES) : Generates addNb s n draws := by
  obtain ⟨k, dest, hk⟩ := loop_exits hd hN n
  have hr := firstDraws_range hd (calcDestination_mem hk)
  exact ⟨k, dest, hk, hr.1, hr.2, calcDestination_ne hk,
    fun o ho => expire_steps hc ht (by rw [ho]; exact hk)⟩

/-! ## Runs -/

/-- What a scheduled timer relies on. -/
def TimersOk (s : Net K) : Prop := ∀ n, (s.agents n).antTimer = true → 2 ≤ s.numNODES

/-- A handler leaves the timer of the agent that ran it alone. -/
theorem outcome_antTimer {env : Env K} {a a' : Antnet K} {p q : Packet K} {d : Event}
    {c : List Event} (h : Outcome env a p d q a' c) : a'.antTimer = a.antTimer := by
  cases h <;> rfl

omit [Arithmetic K] [LinearOrder K] in
theorem timersOk_update {a : Antnet K} (h : TimersOk s) (m : Nsaddr)
    (ha : a.antTimer = true → (s.agents m).antTimer = true) :
    ∀ n, (Function.update s.agents m a n).antTimer = true → 2 ≤ s.numNODES := by
  refine (Function.forall_update_iff s.agents fun _ b => b.antTimer = true → 2 ≤ s.numNODES).mpr ?_
  exact ⟨fun hm => h m (ha hm), fun n _ => h n⟩

theorem timersOk_step (ht : Trans addNb s l s') (hg : SeveralNodes s l) (h : TimersOk s) :
    TimersOk s' := by
  cases ht with
  | expire hon => exact timersOk_update h _ fun _ => hon
  | deliver _ ho => exact timersOk_update h _ fun hon => (outcome_antTimer ho) ▸ hon
  | lose => exact h
  | command hl hs =>
    cases l with
    | start n =>
      cases hs
      exact fun _ _ => hg
    | stop n => cases hs; exact timersOk_update h n (by rintro ⟨⟩)
    | setRFactor n r => cases hs; exact timersOk_update h n id
    | setNumNodes n k => cases hs; exact timersOk_update h n id
    | addNeighbor n₁ n₂ => cases hs; exact h
    | advance t =>
      simp only [step] at hs
      split at hs
      · cases hs; exact h
      · cases hs
    | expire | deliver | lose => cases hl

theorem timersOk_reachable (h : ((net addNb).guard SeveralNodes).Reachable s) : TimersOk s := by
  refine LTS.guard_induct (I := TimersOk) ?_ ?_ h
  · intro s hi n hn
    rw [hi.antTimer] at hn; cases hn
  · intro a l b ha ih hg hs
    exact timersOk_step (trans_of_reachable ha hs) hg ih

theorem start_numNODES (h : (net addNb).step s (.start n) s') :
    s'.numNODES = (s.agents n).numNodes ∧ (s'.agents n).antTimer = true := by
  cases h
  refine ⟨rfl, ?_⟩
  show (Function.update s.agents n _ n).antTimer = true
  rw [Function.update_self]
  rfl

/-- **When generating an ant ends**: at any time in a run whose `start`s find
two or more nodes configured, whatever the links of the node are; and right
after a `start` if and only if it finds two or more. -/
theorem generation_condition (addNb : List Nsaddr → Nsaddr → List Nsaddr) :
    (∀ (s : Net K) n draws, ((net addNb).guard SeveralNodes).Reachable s →
      (s.agents n).antTimer = true → FairDraws s.numNODES draws → Generates addNb s n draws) ∧
    ∀ (s s' : Net K) (n : Int) draws, (net addNb).Reachable s → (net addNb).step s (.start n) s' →
      1 ≤ (s.agents n).numNodes → 0 ≤ n → n < (s.agents n).numNodes →
      FairDraws (s.agents n).numNodes draws →
      (Generates addNb s' n draws ↔ 2 ≤ (s.agents n).numNodes) := by
  refine ⟨?_, ?_⟩
  · intro s n draws h ht hd
    exact generates_of_several (inv_reachable (LTS.reachable_of_guard h)).configured ht hd
      (timersOk_reachable h n ht)
  · intro s s' n draws h hs hpos h0 hn hd
    obtain ⟨hN, ht⟩ := start_numNODES hs
    rw [← hN] at hpos hn hd ⊢
    constructor
    · rintro ⟨k, dest, hk, -⟩
      by_contra hlt
      have hone : s'.numNODES = 1 := by omega
      have hzero : n = 0 := by omega
      rw [loop_stuck hd hone hzero k] at hk
      cases hk
    · exact generates_of_several (inv_reachable (LTS.reachable_step h hs)).configured ht hd

end Network

/-! ## Two streams of draws -/

theorem fairDraws_one : FairDraws 1 fun _ => 0 :=
  ⟨fun _ => by omega, fun v _ _ k => ⟨k, le_rfl, by omega⟩⟩

theorem fairDraws_two : FairDraws 2 fun t => (t : Int) % 2 := by
  refine ⟨fun t => by omega, fun v _ _ k => ⟨2 * k + v.toNat, by omega, by push_cast; omega⟩⟩

/-- **Counterexample**: the only node of a network, started. Its timer is on,
and no number of draws lets it send an ant. -/
theorem lone_node_hangs : ∃ (s : Net ℚ) (draws : Nat → Int), (net prependNb).Reachable s ∧
    s.numNODES = 1 ∧ (s.agents 0).antTimer = true ∧ FairDraws s.numNODES draws ∧
    (∀ k, calcDestination 0 (firstDraws draws k) = none) ∧
    ∀ k (o : Oracle ℚ), o.draws = firstDraws draws k →
      ¬ ∃ s', (net prependNb).step s (.expire 0 o) s' := by
  have hrun : (runActs prependNb Net.boot ([.setNumNodes 0 1, .start 0] : List (Act ℚ))).map
      (fun s => (s.numNODES, (s.agents 0).antTimer)) = some (1, true) := by decide +kernel
  obtain ⟨s, hs, h⟩ := Option.map_eq_some_iff.mp hrun
  obtain ⟨hN, ht⟩ := Prod.mk.injEq .. ▸ h
  have hr := runActs_reachable boot_initial hs
  have hd : FairDraws s.numNODES fun _ => 0 := by rw [hN]; exact fairDraws_one
  have hstuck := loop_stuck hd hN rfl
  refine ⟨s, _, hr, hN, ht, hd, hstuck, ?_⟩
  intro k o ho
  exact expire_no_step (inv_reachable hr).configured (by rw [ho]; exact hstuck k)

/-- Node 0 of two, which has no links. -/
theorem generation_condition_isolated : ∃ s : Net ℚ, ((net prependNb).guard SeveralNodes).Reachable s ∧
    s.neighborList 0 = [] ∧ Generates prependNb s 0 (fun t => (t : Int) % 2) := by
  have hrun : (LTS.execGuarded (step prependNb) SeveralNodes Net.boot
      ([.setNumNodes 0 2, .start 0] : List (Act ℚ))).map
      (fun s => (s.numNODES, (s.agents 0).antTimer, s.neighborList 0)) = some (2, true, []) := by
    decide +kernel
  obtain ⟨s, hs, h⟩ := Option.map_eq_some_iff.mp hrun
  obtain ⟨hN, h'⟩ := Prod.mk.injEq .. ▸ h
  obtain ⟨ht, hnb⟩ := Prod.mk.injEq .. ▸ h'
  have hr : ((net prependNb).guard SeveralNodes).Reachable s :=
    LTS.reachable_of_execGuarded boot_initial hs
  refine ⟨s, hr, hnb, (generation_condition prependNb).1 s 0 _ hr ht ?_⟩
  rw [hN]
  exact fairDraws_two


end AntNet.Bugs.LoneNode
