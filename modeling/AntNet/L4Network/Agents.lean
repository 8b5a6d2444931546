import AntNet.L4Network.Trans

/-!
# What a step does to the agents

A command changes no packet (`SamePackets`), and only `start` changes a
routing table (`command_cases`). Over all steps an agent's table is left
alone, started, or reinforced by a backward ant (`AgentStep`). So no entry of
a row ever goes away: links only grow (`trans_routes`).
-/
namespace AntNet.L4

open AntNet.L1 AntNet.L2 AntNet.L3

variable {K : Type}

/-! ## Commands -/

/-- What no command changes. -/
structure SamePackets (s s' : Net K) : Prop where
  inFlight : s'.inFlight = s.inFlight
  freed : s'.freed = s.freed
  dropped : s'.dropped = s.dropped
  lost : s'.lost = s.lost
  uidcnt : s'.uidcnt = s.uidcnt
  hist : s'.hist = s.hist

section Step

variable [Arithmetic K] {addNb : List Nsaddr → Nsaddr → List Nsaddr} {s s' : Net K} {l : Act K}

/-- What an agent can become by a command: its own start, or a change that
leaves its table. -/
inductive Commanded (l : Act K) (s : Net K) (n : Nsaddr) (a : Antnet K) : Prop where
  | started : l = .start n → a = start (s.agents n) (s.neighborList n) → Commanded l s n a
  | other : l ≠ .start n → a.rtable = (s.agents n).rtable → SameId (s.agents n) a → Commanded l s n a

/-- What an agent can become by a step: untouched up to its timer and
counters, started, or reinforced by a backward ant. -/
inductive AgentStep (s : Net K) (n : Nsaddr) (l : Act K) (a : Antnet K) : Prop where
  | same : l ≠ .start n → a.rtable = (s.agents n).rtable → SameId (s.agents n) a → AgentStep s n l a
  | started : l = .start n → a = start (s.agents n) (s.neighborList n) → AgentStep s n l a
  | reinforced {i : Nat} {nf ttl : Int} {o : Oracle K} {p : Packet K} {j : Nat} {next : Nsaddr} :
      l = .deliver i nf ttl o → s.inFlight[i]? = some p → p.ip.daddr = n →
      p.cmn.direction = .UP → p.path[j]? = some (s.agents n).addr → p.path[j + 1]? = some next →
      a = updatedAgent (s.agents n) p j next → AgentStep s n l a

theorem agentStep_update {m : Nsaddr} {b : Antnet K} (hl : ∀ n, l ≠ .start n)
    (h : AgentStep s m l b) (n : Nsaddr) :
    AgentStep s n l (Function.update s.agents m b n) := by
  by_cases hn : n = m
  · subst hn
    rw [Function.update_self]; exact h
  · rw [Function.update_of_ne hn]
    exact .same (hl n) rfl (SameId.refl _)

theorem AgentStep.sameId {n : Nsaddr} {a : Antnet K} (h : AgentStep s n l a) :
    SameId (s.agents n) a := by
  cases h with
  | same _ _ hid => exact hid
  | started _ ha => rw [ha]; exact start_sameId _ _
  | reinforced _ _ _ _ _ _ ha => rw [ha]; exact ⟨rfl, rfl, rfl, rfl⟩

/-- No entry of a row ever goes away. -/
theorem AgentStep.row {n : Nsaddr} {a : Antnet K} (h : AgentStep s n l a) {d : Nsaddr}
    {row : PheromoneMatrix K} (hr : (s.agents n).rtable d = some row) :
    ∃ row', a.rtable d = some row' ∧ neighbors row ⊆ neighbors row' := by
  cases h with
  | same _ hrt _ => exact ⟨row, hrt ▸ hr, fun _ hx => hx⟩
  | started _ ha => rw [ha]; exact start_row_of _ hr
  | reinforced _ _ _ _ _ _ ha =>
    rw [ha]
    obtain ⟨row', h1, h2⟩ := reinforce_row_of hr
    exact ⟨row', h1, fun _ hx => h2 ▸ hx⟩

variable [LinearOrder K]

theorem command_cases (hl : l.isCommand = true) (h : step addNb s l = some s') :
    SamePackets s s' ∧ ∀ n, Commanded l s n (s'.agents n) := by
  -- an update at one agent that leaves its table and its identity
  have key : ∀ (m : Nsaddr) (b : Antnet K), (∀ n, l ≠ .start n) → b.rtable = (s.agents m).rtable →
      SameId (s.agents m) b → ∀ n, Commanded l s n ((setAgent s m b).agents n) := by
    intro m b hne hrt hid n
    by_cases hn : n = m
    · subst hn
      refine .other (hne n) ?_ ?_
      · simpa [setAgent] using hrt
      · simpa [setAgent] using hid
    · refine .other (hne n) ?_ ?_
      · simp [setAgent, hn]
      · simpa [setAgent, hn] using SameId.refl _
  cases l with
  | expire | deliver | lose => cases hl
  | addNeighbor n₁ n₂ =>
    cases h
    refine ⟨⟨rfl, rfl, rfl, rfl, rfl, rfl⟩, ?_⟩
    intro n
    exact .other (by simp) rfl (SameId.refl _)
  | start m =>
    cases h
    refine ⟨⟨rfl, rfl, rfl, rfl, rfl, rfl⟩, ?_⟩
    intro n
    by_cases hn : n = m
    · subst hn
      refine .started rfl ?_
      simp [setAgent]
    · refine .other (fun he => hn (by cases he; rfl)) ?_ ?_
      · simp [setAgent, hn]
      · simpa [setAgent, hn] using SameId.refl _
  | stop m =>
    cases h
    exact ⟨⟨rfl, rfl, rfl, rfl, rfl, rfl⟩, key m _ (by simp) rfl ⟨rfl, rfl, rfl, rfl⟩⟩
  | setRFactor m r =>
    cases h
    exact ⟨⟨rfl, rfl, rfl, rfl, rfl, rfl⟩, key m _ (by simp) rfl ⟨rfl, rfl, rfl, rfl⟩⟩
  | setNumNodes m k =>
    cases h
    exact ⟨⟨rfl, rfl, rfl, rfl, rfl, rfl⟩, key m _ (by simp) rfl ⟨rfl, rfl, rfl, rfl⟩⟩
  | advance t =>
    simp only [step] at h
    split at h
    · cases h
      refine ⟨⟨rfl, rfl, rfl, rfl, rfl, rfl⟩, ?_⟩
      intro n
      exact .other (by simp) rfl (SameId.refl _)
    · cases h

theorem trans_agent (h : Trans addNb s l s') (n : Nsaddr) : AgentStep s n l (s'.agents n) := by
  cases h with
  | command hl hs =>
    cases (command_cases hl hs).2 n with
    | started hst ha => exact .started hst ha
    | other hne hrt hid => exact .same hne hrt hid
  | @expire m o _ _ _ _ _ _ =>
    have hm : AgentStep s m (.expire m o) (afterSend (s.agents m)) :=
      .same nofun rfl (afterSend_sameId _)
    exact agentStep_update (l := .expire m o) nofun hm n
  | @deliver i nf ttl o _ _ _ _ _ _ hp ho _ =>
    refine agentStep_update (l := .deliver i nf ttl o) nofun ?_ n
    rcases ho.agent with ⟨rfl, -⟩ | ⟨hu, j, next, hj, hn, rfl, -⟩
    · exact .same nofun rfl (SameId.refl _)
    · exact .reinforced rfl hp rfl hu hj hn rfl
  | lose hp => exact .same nofun rfl (SameId.refl _)

theorem trans_configured (h : Trans addNb s l s') (hc : Configured s) : Configured s' := by
  have hid := fun n => (trans_agent h n).sameId
  exact ⟨fun n => (hid n).addr.trans (hc.addr n), fun n => (hid n).raAddr.trans (hc.raAddr n),
    fun n => (hid n).herePort.trans (hc.herePort n), fun n => (hid n).dstPort.trans (hc.dstPort n)⟩

/-- Links only grow. -/
theorem trans_routes (h : Trans addNb s l s') (x y : Nsaddr) (hr : s.routes x y) : s'.routes x y := by
  obtain ⟨d, row, hrow, hy⟩ := hr
  obtain ⟨row', h1, h2⟩ := (trans_agent h x).row hrow
  exact ⟨d, row', h1, h2 hy⟩

end Step

end AntNet.L4
