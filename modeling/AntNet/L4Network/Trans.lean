import AntNet.L3Agent.Outcomes
import AntNet.L4Network.Net

/-!
# What one step of the network can do

`Trans s l s'` is the step relation by cases, with the outcome of the handler
in place of its program. `trans_of_step` derives it for states in which every
ant in flight is well formed (`AntsOk`), `step_deliver` the converse for a
delivery: such a delivery is always possible. Every invariant of the network
is a case analysis over `Trans`.
-/
namespace AntNet.L4

open AntNet.L1 AntNet.L2 AntNet.L3

variable {K : Type}

/-- `y` is a link of `x`: some row of `x`'s table has an entry for it. -/
def Net.routes (s : Net K) (x y : Nsaddr) : Prop :=
  ∃ d row, (s.agents x).rtable d = some row ∧ y ∈ neighbors row

/-- The agents as the script configured them. -/
structure Configured (s : Net K) : Prop where
  addr : ∀ n, (s.agents n).addr = n
  raAddr : ∀ n, (s.agents n).raAddr = n
  herePort : ∀ n, (s.agents n).herePort = RT_PORT
  dstPort : ∀ n, (s.agents n).dstPort = RT_PORT

/-- The node of the packet's first visit is the origin of its path. -/
def AntsOk (s : Net K) : Prop :=
  ∀ p ∈ s.inFlight, ∃ v, (s.hist p.cmn.uid).head? = some v ∧ WellFormed s.routes v.node p

/-- A handler's log: harmless accesses with the table calls `c`, and the
disposal `d` last. -/
def Ended (d : Event) (c log : List Event) : Prop :=
  ∃ pre, log = pre ++ [d] ∧ (∀ e ∈ pre, e.Quiet) ∧ calls pre = c

/-- An event that is not a disposal is one of the harmless accesses. -/
theorem Ended.quiet {d : Event} {c log : List Event} (h : Ended d c log) (hd : d.disposes = true)
    {e : Event} (he : e ∈ log) (hne : e.disposes = false) : e.Quiet := by
  obtain ⟨pre, rfl, hq, -⟩ := h
  rcases List.mem_append.mp he with h0 | h1
  · exact hq e h0
  · rw [List.mem_singleton.mp h1, hd] at hne; cases hne

theorem Ended.drop_not_mem {d : Event} {c log : List Event} (h : Ended d c log) {why : String}
    (hd : d ≠ .drop why) : Event.drop why ∉ log := by
  obtain ⟨pre, rfl, hq, -⟩ := h
  intro hm
  rcases List.mem_append.mp hm with h0 | h1
  · exact hq _ h0
  · exact hd (List.mem_singleton.mp h1).symm

/-- The state after a handler that disposed of its packet by `d`. -/
def finish (s : Net K) (n : Nsaddr) (dir : Dir) (d : Event) (q : Packet K) (a : Antnet K)
    (log : List Event) : Net K :=
  { s with
    agents := Function.update s.agents n a
    inFlight := s.inFlight ++ if d = .send then [q] else []
    freed := s.freed ++ if d = .free then [q.cmn.uid] else []
    dropped := s.dropped ++ if Event.isDrop d then [q.cmn.uid] else []
    hist := Function.update s.hist q.cmn.uid (s.hist q.cmn.uid ++ [⟨n, dir, s.clock, log⟩]) }

theorem finish_hist (s : Net K) (n : Nsaddr) (dir : Dir) (d : Event) (q : Packet K) (a : Antnet K)
    (log : List Event) : (finish s n dir d q a log).hist q.cmn.uid =
      s.hist q.cmn.uid ++ [⟨n, dir, s.clock, log⟩] := Function.update_self ..

theorem count_quiet {pre : List Event} (h : ∀ e ∈ pre, e.Quiet) :
    pre.count .send = 0 ∧ pre.count .free = 0 ∧ pre.countP Event.isDrop = 0 := by
  refine ⟨List.count_eq_zero.mpr fun hm => h _ hm, List.count_eq_zero.mpr fun hm => h _ hm, ?_⟩
  apply List.countP_eq_zero.mpr
  intro e he
  have hq := h e he
  cases e <;> simp_all [Event.Quiet, Event.isDrop]

theorem settle_gone (s : Net K) (n : Nsaddr) (dir : Dir) {d : Event} {q : Packet K} {a : Antnet K}
    {c : List Event} {f : Frame K} (h : Gone d q a c f) :
    settle s n dir f = finish s n dir d q a f.log := by
  obtain ⟨pre, hlog, hq, -⟩ := h.log
  obtain ⟨h1, h2, h3⟩ := count_quiet hq
  unfold settle finish
  rw [h.pkt, h.self, hlog]
  simp only [List.count_append, List.countP_append, h1, h2, h3, Nat.zero_add]
  cases d <;> simp [Event.isDrop]

/-- The commands and the clock: no packet is touched. -/
def Act.isCommand : Act K → Bool
  | .expire _ _ | .deliver _ _ _ _ | .lose _ => false
  | _ => true

section Step

variable [Arithmetic K] [LinearOrder K] (addNb : List Nsaddr → Nsaddr → List Nsaddr)

inductive Trans (s : Net K) : Act K → Net K → Prop where
  | command {l : Act K} {s' : Net K} : l.isCommand = true → step addNb s l = some s' → Trans s l s'
  | expire {n : Nsaddr} {o : Oracle K} {d : Event} {q : Packet K} {log : List Event} :
      (s.agents n).antTimer = true → Sent (s.env o) s.uidcnt (s.agents n) d q → Ended d [] log →
      Trans s (.expire n o)
        (finish { s with uidcnt := s.uidcnt + 1 } n .DOWN d q (afterSend (s.agents n)) log)
  | deliver {i : Nat} {nf ttl : Int} {o : Oracle K} {p q : Packet K} {d : Event} {a : Antnet K}
      {c log : List Event} : s.inFlight[i]? = some p →
      Outcome (s.env o) (s.agents p.ip.daddr) (arrive p nf ttl) d q a c → Ended d c log →
      Trans s (.deliver i nf ttl o)
        (finish { s with inFlight := s.inFlight.eraseIdx i } p.ip.daddr p.cmn.direction d q a log)
  | lose {i : Nat} {p : Packet K} : s.inFlight[i]? = some p →
      Trans s (.lose i)
        { s with inFlight := s.inFlight.eraseIdx i, lost := s.lost ++ [p.cmn.uid] }

omit [Arithmetic K] [LinearOrder K] in
theorem wellFormed_arrive {nbr : Nsaddr → Nsaddr → Prop} {origin : Nsaddr} {p : Packet K}
    (h : WellFormed nbr origin p) (nf ttl : Int) : WellFormed nbr origin (arrive p nf ttl) :=
  h.congr rfl rfl rfl

variable {addNb}

/-- The run of `recv` on an ant in flight. -/
theorem recv_exec {s : Net K} (hc : Configured s) (ha : AntsOk s) {p : Packet K}
    (hp : p ∈ s.inFlight) (nf ttl : Int) (o : Oracle K) :
    ∃ f d q a c, (recv (s.env o)).exec ⟨arrive p nf ttl, s.agents p.ip.daddr, []⟩ = (.ok (), f) ∧
      Outcome (s.env o) (s.agents p.ip.daddr) (arrive p nf ttl) d q a c ∧ Gone d q a c f := by
  obtain ⟨v, -, hw⟩ := ha p hp
  obtain ⟨u, f, he, d, q, a, c, ho, hg⟩ :=
    recv_spec (s.env o) (wellFormed_arrive hw nf ttl) (hc.addr _)
      ((hc.raAddr _).trans (hc.addr _).symm) _ (at_start (arrive p nf ttl) (s.agents p.ip.daddr))
  exact ⟨f, d, q, a, c, he, ho, hg⟩

/-- The run of the timer's `expire`, when it returns. -/
theorem expire_exec {s : Net K} {n : Nsaddr} {o : Oracle K} {f : Frame K}
    (h : (L3.expire (s.env o) s.uidcnt).exec ⟨o.blank, s.agents n, []⟩ = (.ok (), f)) :
    ∃ d q, Sent (s.env o) s.uidcnt (s.agents n) d q ∧ Gone d q (afterSend (s.agents n)) [] f := by
  cases hd : calcDestination (s.agents n).addr o.draws with
  | none =>
    obtain ⟨f', he⟩ := expire_stuck (s.env o) s.uidcnt (f := ⟨o.blank, s.agents n, []⟩) hd
    rw [he] at h
    cases h
  | some dest =>
    obtain ⟨u, f', he, d, q, hs, hg⟩ :=
      expire_spec (s.env o) s.uidcnt hd _ (at_start o.blank (s.agents n))
    rw [he] at h
    cases h
    exact ⟨d, q, hs, hg⟩

/-- **Inversion of a step.** -/
theorem trans_of_step {s s' : Net K} {l : Act K} (hc : Configured s) (ha : AntsOk s)
    (h : step addNb s l = some s') : Trans addNb s l s' := by
  cases l with
  | expire n o =>
    simp only [step] at h
    split at h
    · rename_i ht
      split at h
      · rename_i f he
        obtain ⟨d, q, hs, hg⟩ := expire_exec he
        cases h
        rw [settle_gone _ _ _ hg]
        exact .expire ht hs hg.log
      · cases h
    · cases h
  | deliver i nf ttl o =>
    simp only [step] at h
    split at h
    · cases h
    · rename_i p hp
      obtain ⟨f, d, q, a, c, he, ho, hg⟩ := recv_exec hc ha (List.mem_of_getElem? hp) nf ttl o
      simp only [he] at h
      cases h
      rw [settle_gone _ _ _ hg]
      exact .deliver hp ho hg.log
  | lose i =>
    simp only [step] at h
    split at h
    · cases h
    · rename_i p hp
      cases h
      exact .lose hp
  | addNeighbor | start | stop | setRFactor | setNumNodes | advance => exact .command rfl h

/-- **A delivery is always possible.** -/
theorem step_deliver {s : Net K} (hc : Configured s) (ha : AntsOk s) {i : Nat} {p : Packet K}
    (hp : s.inFlight[i]? = some p) (nf ttl : Int) (o : Oracle K) :
    ∃ s', step addNb s (.deliver i nf ttl o) = some s' := by
  obtain ⟨f, d, q, a, c, he, -, -⟩ := recv_exec hc ha (List.mem_of_getElem? hp) nf ttl o
  refine ⟨settle { s with inFlight := s.inFlight.eraseIdx i } p.ip.daddr p.cmn.direction f, ?_⟩
  simp only [step, hp, he]

end Step

end AntNet.L4
