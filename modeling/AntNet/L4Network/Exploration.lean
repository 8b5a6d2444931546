import AntNet.L2Table.Sampling
import AntNet.L4Network.DeadEnds
import AntNet.L4Network.TableEffect
import AntNet.L4Network.TimeToLive

/-!
# Every path can be explored

Reinforcement makes the links of good paths more likely, but with factors in
`[0, 1)` it never closes another link. A path of distinct nodes along links in
the tables (`Open`) that fits into an ant's memory can be taken by the next ant
of its first node: there are random numbers with which that ant goes along the
path and back, whatever the queues hold.

* `exploration`: the run, and what it leaves in the tables.
-/
namespace AntNet.L4

open AntNet.L1 AntNet.L2 AntNet.L3 AntNet.LoopErasure

variable {K : Type}

/-- Each node of the path but the last has its successor in the row for `dest`. -/
def Open (s : Net K) (dest : Nsaddr) (path : List Nsaddr) : Prop :=
  path.IsChain fun x y => ∃ row, (s.agents x).rtable dest = some row ∧ y ∈ neighbors row

/-- A path that the next ant of `src` can take to `dest`. -/
structure Ready (s : Net K) (path : List Nsaddr) (src dest : Nsaddr) : Prop where
  nodup : path.Nodup
  two : 2 ≤ path.length
  memory : path.length ≤ MAX_NUM_NODES
  nodes : (path.length : Int) ≤ s.numNODES
  first : path.head? = some src
  last : path.getLast? = some dest
  range : 0 ≤ dest ∧ dest < s.numNODES
  links : Open s dest path
  timer : (s.agents src).antTimer = true

/-- The nodes whose handlers ran on ant `u`. -/
def nodesOf (s : Net K) (u : Nat) : List Nsaddr := (s.hist u).map (·.node)

section Choice

variable [Arithmetic K] [LinearOrder K]

/-- A handler runs, with answers `R`. -/
def Chosen (R : Oracle K → Prop) : Act K → Prop
  | .expire _ o | .deliver _ _ _ o => R o
  | _ => False

variable (addNb : List Nsaddr → Nsaddr → List Nsaddr) (R : Oracle K → Prop)

/-- Handlers alone lead from `s` to `s'`, over links that check the time-to-live. -/
def Leads (s s' : Net K) : Prop :=
  ∃ acts, ((net addNb).guard TtlChecked).Run s acts s' ∧ ∀ l ∈ acts, Chosen R l

variable {addNb R}

theorem Leads.refl (s : Net K) : Leads addNb R s s := ⟨[], .nil s, by simp⟩

theorem Leads.step {s s' s'' : Net K} {l : Act K} (hs : L4.step addNb s l = some s')
    (hg : TtlChecked s l) (hl : Chosen R l) (h : Leads addNb R s' s'') : Leads addNb R s s'' := by
  obtain ⟨acts, hrun, hall⟩ := h
  exact ⟨l :: acts, .cons ⟨hg, hs⟩ hrun, List.forall_mem_cons.mpr ⟨hl, hall⟩⟩

theorem Leads.trans {s s' s'' : Net K} (h : Leads addNb R s s') (h' : Leads addNb R s' s'') :
    Leads addNb R s s'' := by
  obtain ⟨acts, hrun, hall⟩ := h
  obtain ⟨acts', hrun', hall'⟩ := h'
  refine ⟨acts ++ acts', LTS.run_append hrun hrun', fun l hl => ?_⟩
  exact (List.mem_append.mp hl).elim (hall l) (hall' l)

/-- Handlers leave `NUM_NODES` and the neighbor lists as they are. -/
theorem Leads.fixed {s s' : Net K} (hr : (net addNb).Reachable s) (h : Leads addNb R s s') :
    s'.numNODES = s.numNODES ∧ s'.neighborList = s.neighborList := by
  obtain ⟨acts, hrun, hall⟩ := h
  induction hrun with
  | nil => exact ⟨rfl, rfl⟩
  | @cons a b c l ls hs _ ih =>
    obtain ⟨hl, hls⟩ := List.forall_mem_cons.mp hall
    obtain ⟨hN, hnb⟩ := ih (LTS.reachable_step hr hs.2) hls
    rw [hN, hnb]
    cases trans_of_reachable hr hs.2 with
    | command hc =>
      cases l with
      | addNeighbor | start | stop | setRFactor | setNumNodes | advance => exact False.elim hl
      | expire | deliver | lose => cases hc
    | expire => exact ⟨rfl, rfl⟩
    | deliver => exact ⟨rfl, rfl⟩
    | lose => cases hl

theorem Leads.reachable {s s' : Net K} (hr : (net addNb).Reachable s) (h : Leads addNb R s s') :
    (net addNb).Reachable s' := by
  obtain ⟨acts, hrun, -⟩ := h
  exact LTS.reachable_run_guard hr hrun

end Choice

section Steps

variable [Arithmetic K] [LinearOrder K] {addNb : List Nsaddr → Nsaddr → List Nsaddr}

/-- **The last packet in flight arrives.** -/
theorem deliver_last {s : Net K} (hr : (net addNb).Reachable s) {l : List (Packet K)} {p : Packet K}
    (hf : s.inFlight = l ++ [p]) (o : Oracle K) :
    ∃ d q a c log, Outcome (s.env o) (s.agents p.ip.daddr) (arrive p 0 (p.ip.ttl - 1)) d q a c ∧
      Ended d c log ∧ step addNb s (.deliver l.length 0 (p.ip.ttl - 1) o) =
        some (finish { s with inFlight := l } p.ip.daddr p.cmn.direction d q a log) := by
  have hi := inv_reachable hr
  have hp : s.inFlight[l.length]? = some p := by simp [hf]
  obtain ⟨s', hs⟩ : ∃ s', step addNb s (.deliver l.length 0 (p.ip.ttl - 1) o) = some s' :=
    step_deliver hi.configured hi.ants hp 0 (p.ip.ttl - 1) o
  rw [hs]
  cases trans_of_reachable (l := .deliver l.length 0 (p.ip.ttl - 1) o) hr hs with
  | command hl => cases hl
  | @deliver _ _ _ _ p' q d a c log hp' ho hlog =>
    obtain rfl : p = p' := Option.some.inj (hp.symm.trans hp')
    refine ⟨d, q, a, c, log, ho, hlog, ?_⟩
    rw [hf, List.eraseIdx_append_of_length_le (Nat.le_refl _)]
    simp

omit [Arithmetic K] [LinearOrder K] in
theorem ttlChecked_last {s : Net K} {l : List (Packet K)} {p : Packet K} (hf : s.inFlight = l ++ [p])
    (h : 1 < p.ip.ttl) (o : Oracle K) : TtlChecked s (.deliver l.length 0 (p.ip.ttl - 1) o) := by
  intro p' hp'
  have hp : s.inFlight[l.length]? = some p := by simp [hf]
  obtain rfl : p = p' := Option.some.inj (hp.symm.trans hp')
  exact ⟨rfl, by omega⟩

omit [Arithmetic K] [LinearOrder K] in
theorem finish_nodes (s : Net K) (n : Nsaddr) (dir : Dir) (d : Event) (q : Packet K) (a : Antnet K)
    (log : List Event) {u : Nat} (hu : q.cmn.uid = u) :
    nodesOf (finish s n dir d q a log) u = nodesOf s u ++ [n] := by
  subst hu
  simp [nodesOf, finish_hist]

omit [Arithmetic K] [LinearOrder K] in
/-- A memory with an entry left. -/
theorem not_full {nbr : Nsaddr → Nsaddr → Prop} {origin : Nsaddr} {a : Antnet K} {p : Packet K}
    (h : WellFormed nbr origin p) (hlen : p.path.length < MAX_NUM_NODES) : ¬ Full a p := by
  intro hfull
  have h1 := p.path_length h.size
  have h2 := hfull.1
  omega

/-- After handlers at the nodes `ns` the last packet in flight is `q` instead of `p`. -/
structure Onward (l : List (Packet K)) (s s' : Net K) (p q : Packet K) (ns : List Nsaddr) : Prop where
  inFlight : s'.inFlight = l ++ [q]
  freed : s'.freed = s.freed
  nodes : nodesOf s' p.cmn.uid = nodesOf s p.cmn.uid ++ ns
  uid : q.cmn.uid = p.cmn.uid
  ttl : q.ip.ttl = p.ip.ttl - ns.length
  lists : s'.neighborList = s.neighborList
  numNODES : s'.numNODES = s.numNODES

omit [Arithmetic K] [LinearOrder K] in
theorem Onward.trans {l : List (Packet K)} {s s' s'' : Net K} {p q r : Packet K} {ns ns' : List Nsaddr}
    (h : Onward l s s' p q ns) (h' : Onward l s' s'' q r ns') : Onward l s s'' p r (ns ++ ns') where
  inFlight := h'.inFlight
  freed := h'.freed.trans h.freed
  nodes := by rw [← h.uid, h'.nodes, h.uid, h.nodes, List.append_assoc]
  uid := h'.uid.trans h.uid
  ttl := by
    rw [h'.ttl, h.ttl, List.length_append]
    push_cast
    omega
  lists := h'.lists.trans h.lists
  numNODES := h'.numNODES.trans h.numNODES

omit [Arithmetic K] [LinearOrder K] in
/-- A handler that sends its packet on. -/
theorem onward_finish {l : List (Packet K)} (s : Net K) (p : Packet K) {q : Packet K} (dir : Dir)
    (a : Antnet K) (log : List Event) (hu : q.cmn.uid = p.cmn.uid) (httl : q.ip.ttl = p.ip.ttl - 1) :
    Onward l s (finish { s with inFlight := l } p.ip.daddr dir .send q a log) p q [p.ip.daddr] where
  inFlight := by simp [finish]
  freed := by simp [finish]
  nodes := finish_nodes { s with inFlight := l } _ _ _ _ _ _ hu
  uid := hu
  ttl := httl
  lists := rfl
  numNODES := rfl

/-- What a backward ant makes of the agent at place `i` of its path. -/
def learnt (a : Antnet K) (path : List Nsaddr) (i : Nat) (next : Nsaddr) : Antnet K :=
  { a with rtable := reinforcedTable a.rtable (path.drop (i + 1)) next a.rFactor }

/-- With answers `R`, node `x` can send an ant for `dest` on to `y`, wherever else it came from. -/
def Offers (R : Oracle K → Prop) (s : Net K) (dest x y : Nsaddr) : Prop :=
  ∀ parent draws, y ≠ parent → (∀ d ∈ draws, 0 ≤ d ∧ d < s.numNODES) →
    ∃ o, R o ∧ o.draws = draws ∧ nextHop (s.env o) (s.agents x) dest parent = y

/-- The table, the neighbor list and `NUM_NODES` are all it depends on. -/
theorem Offers.congr {R : Oracle K → Prop} {s s' : Net K} {dest x y : Nsaddr} (h : Offers R s dest x y)
    (hrt : (s'.agents x).rtable = (s.agents x).rtable) (ha : (s'.agents x).addr = (s.agents x).addr)
    (hnb : s'.neighborList = s.neighborList) (hN : s'.numNODES = s.numNODES) : Offers R s' dest x y := by
  intro parent draws hp hd
  obtain ⟨o, hR, hdraws, hnext⟩ := h parent draws hp (hN ▸ hd)
  refine ⟨o, hR, hdraws, ?_⟩
  rw [← hnext]
  simp only [nextHop, getNumNeighbors, Net.env, hrt, ha, hnb]

variable {R : Oracle K → Prop} {o : Oracle K} {s : Net K} {l : List (Packet K)} {p : Packet K}

/-- **One step out.** The node the ant comes to can send it on along a link it
offers to a node the ant has not visited. -/
theorem step_out (hr : (net addNb).Reachable s) (hf : s.inFlight = l ++ [p])
    (hd : p.cmn.direction = .DOWN) (hnew : p.ip.daddr ∉ p.path) (hlen : p.path.length < MAX_NUM_NODES)
    (hdst : p.ip.daddr ≠ p.ant.pktDst) {y : Nsaddr} (hoff : Offers R s p.ant.pktDst p.ip.daddr y)
    (hy : y ∉ p.path) (hself : y ≠ p.ip.daddr) (httl : 1 < p.ip.ttl) :
    ∃ act s' q, step addNb s act = some s' ∧ TtlChecked s act ∧ Chosen R act ∧
      Onward l s s' p q [p.ip.daddr] ∧ s'.agents = s.agents ∧ q.cmn.direction = .DOWN ∧
      q.path = p.path ++ [p.ip.daddr] ∧ q.ip.daddr = y ∧ q.ant.pktDst = p.ant.pktDst := by
  have hi := inv_reachable hr
  obtain ⟨v, -, hw⟩ := hi.ants p (by simp [hf])
  have haddr : (s.agents p.ip.daddr).addr = p.ip.daddr := hi.configured.addr _
  have hpar : y ≠ p.ip.saddr := fun he =>
    hy (he ▸ List.mem_of_getLast? (hw.outbound hd).last)
  obtain ⟨o, hR, -, hhop⟩ := hoff p.ip.saddr [] hpar (by simp)
  obtain ⟨d, q, a, c, log, ho, hlog, hs⟩ := deliver_last hr hf o
  refine ⟨_, _, q, hs, ttlChecked_last hf httl o, hR, ?_⟩
  have huid : q.cmn.uid = p.cmn.uid := ho.uid
  have hqttl : q.ip.ttl = p.ip.ttl - 1 := ho.kept.ttl
  cases ho with
  | full _ h => exact absurd h (not_full (wellFormed_arrive hw 0 _) hlen)
  | turn _ h => exact absurd (haddr.symm.trans h) hdst
  | home hu => rw [show p.cmn.direction = .UP from hu] at hd; cases hd
  | back hu => rw [show p.cmn.direction = .UP from hu] at hd; cases hd
  | deadEnd _ _ _ _ he h =>
    rw [show _ = y from he.trans hhop] at h
    rcases h with h | h
    · exact absurd (h.trans haddr) hself
    · exact absurd h hpar
  | @forward q next _ _ _ hm he _ _ =>
    obtain rfl : next = y := he.trans hhop
    refine ⟨onward_finish s p _ _ _ huid hqttl, by simp [finish], ?_, ?_, rfl, ?_⟩
    · rw [hop_direction, hm.cmn]
      exact hd
    · rw [hop_path, hm.path, haddr]
      exact revisit_new hnew
    · rw [hop_ant, hm.pktDst]
      rfl

/-- **The turn.** -/
theorem step_turn (hR : R o) (hr : (net addNb).Reachable s) (hf : s.inFlight = l ++ [p])
    (hd : p.cmn.direction = .DOWN) (hlen : p.path.length < MAX_NUM_NODES)
    (hdst : p.ip.daddr = p.ant.pktDst) (httl : 1 < p.ip.ttl) :
    ∃ act s' q, step addNb s act = some s' ∧ TtlChecked s act ∧ Chosen R act ∧
      Onward l s s' p q [p.ip.daddr] ∧ s'.agents = s.agents ∧ q.cmn.direction = .UP ∧
      q.path = p.path ++ [p.ip.daddr] ∧ ∃ j, j + 2 = q.path.length ∧ q.path[j]? = some q.ip.daddr := by
  have hi := inv_reachable hr
  obtain ⟨v, -, hw⟩ := hi.ants p (by simp [hf])
  have haddr : (s.agents p.ip.daddr).addr = p.ip.daddr := hi.configured.addr _
  have hnew : p.ip.daddr ∉ p.path := hdst ▸ (hw.outbound hd).dst
  obtain ⟨d, q, a, c, log, ho, hlog, hs⟩ := deliver_last hr hf o
  refine ⟨_, _, q, hs, ttlChecked_last hf httl _, hR, ?_⟩
  have huid : q.cmn.uid = p.cmn.uid := ho.uid
  have hqttl : q.ip.ttl = p.ip.ttl - 1 := ho.kept.ttl
  obtain ⟨rfl, hup, hpath, j, hj, hprev, -⟩ :=
    ho.turned hd (haddr.trans hdst) (not_full (wellFormed_arrive hw 0 _) hlen)
  refine ⟨onward_finish s p _ _ _ huid hqttl, ?_, hup, ?_, j, hj, hprev⟩
  · rcases ho.agent with ⟨rfl, -⟩ | ⟨hu, -⟩
    · simp [finish]
    · rw [show p.cmn.direction = .UP from hu] at hd; cases hd
  · rw [hpath, haddr]
    exact revisit_new hnew

/-- **One step back.** -/
theorem step_back (hR : R o) (hr : (net addNb).Reachable s) (hf : s.inFlight = l ++ [p])
    (hu : p.cmn.direction = .UP) {j : Nat} {prev next : Nsaddr} (hprev : p.path[j]? = some prev)
    (hj : p.path[j + 1]? = some p.ip.daddr) (hnext : p.path[j + 2]? = some next) (httl : 1 < p.ip.ttl) :
    ∃ act s' q, step addNb s act = some s' ∧ TtlChecked s act ∧ Chosen R act ∧
      Onward l s s' p q [p.ip.daddr] ∧ q.cmn.direction = .UP ∧ q.path = p.path ∧ q.ip.daddr = prev ∧
      s'.agents = Function.update s.agents p.ip.daddr
        (learnt (s.agents p.ip.daddr) p.path (j + 1) next) := by
  have hi := inv_reachable hr
  obtain ⟨v, -, hw⟩ := hi.ants p (by simp [hf])
  have haddr : (s.agents p.ip.daddr).addr = p.ip.daddr := hi.configured.addr _
  have hnd : (p.path.drop (j + 2)).Nodup := hw.nodup.sublist (List.drop_sublist _ _)
  obtain ⟨d, q, a, c, log, ho, hlog, hs⟩ := deliver_last hr hf o
  refine ⟨_, _, q, hs, ttlChecked_last hf httl _, hR, ?_⟩
  have huid : q.cmn.uid = p.cmn.uid := ho.uid
  have hqttl : q.ip.ttl = p.ip.ttl - 1 := ho.kept.ttl
  have hfound : (arrive p 0 (p.ip.ttl - 1)).path[j + 1]? = some (s.agents p.ip.daddr).addr := by
    rw [haddr]
    exact hj
  have ha : a = learnt (s.agents p.ip.daddr) p.path (j + 1) next :=
    (ho.updated hu hw.nodup hfound hnext).1.trans (updatedAgent_eq hnd _ next)
  obtain ⟨-, ⟨-, hhome⟩ | ⟨rfl, j', prev', hprev', hj', rfl⟩⟩ := ho.up hu
  · -- its destination is the first node of the path
    have hhead : p.path[0]? = some p.ip.daddr := by
      rw [← List.head?_eq_getElem?, (hw.homebound hu).dst, ← haddr, hhome]
      rfl
    have := (List.getElem?_inj hw.path_pos hw.nodup).mp (hhead.trans hj.symm)
    omega
  · have hplace : j + 1 = j' + 1 := (List.getElem?_inj (List.getElem?_eq_some_iff.mp hj).1 hw.nodup).mp
      (hj.trans (haddr ▸ hj').symm)
    obtain rfl : j = j' := by omega
    obtain rfl : prev = prev' := Option.some.inj (hprev.symm.trans hprev')
    refine ⟨onward_finish s p _ _ _ huid hqttl, rfl, rfl, rfl, ?_⟩
    rw [← ha]
    rfl

/-- **Home.** -/
theorem step_home (hR : R o) (hr : (net addNb).Reachable s) (hf : s.inFlight = l ++ [p])
    (hu : p.cmn.direction = .UP) {next : Nsaddr} (h0 : p.path[0]? = some p.ip.daddr)
    (hnext : p.path[1]? = some next) (httl : 1 < p.ip.ttl) :
    ∃ act s', step addNb s act = some s' ∧ TtlChecked s act ∧ Chosen R act ∧
      s'.inFlight = l ∧ s'.freed = s.freed ++ [p.cmn.uid] ∧
      nodesOf s' p.cmn.uid = nodesOf s p.cmn.uid ++ [p.ip.daddr] ∧
      s'.agents = Function.update s.agents p.ip.daddr (learnt (s.agents p.ip.daddr) p.path 0 next) := by
  have hi := inv_reachable hr
  obtain ⟨v, -, hw⟩ := hi.ants p (by simp [hf])
  have haddr : (s.agents p.ip.daddr).addr = p.ip.daddr := hi.configured.addr _
  have hnd : (p.path.drop 1).Nodup := hw.nodup.sublist (List.drop_sublist _ _)
  obtain ⟨d, q, a, c, log, ho, hlog, hs⟩ := deliver_last hr hf o
  refine ⟨_, _, hs, ttlChecked_last hf httl _, hR, ?_⟩
  have huid : q.cmn.uid = p.cmn.uid := ho.uid
  have hfound : (arrive p 0 (p.ip.ttl - 1)).path[0]? = some (s.agents p.ip.daddr).addr := by
    rw [haddr]
    exact h0
  have ha : a = learnt (s.agents p.ip.daddr) p.path 0 next :=
    (ho.updated hu hw.nodup hfound hnext).1.trans (updatedAgent_eq hnd _ next)
  obtain ⟨-, ⟨rfl, -⟩ | ⟨-, j', prev', -, hj', -⟩⟩ := ho.up hu
  · refine ⟨by simp [finish], by simp [finish, huid], finish_nodes { s with inFlight := l } _ _ _ _ _ _ huid, ?_⟩
    rw [← ha]
    rfl
  · have := (List.getElem?_inj hw.path_pos hw.nodup).mp (h0.trans (haddr ▸ hj').symm)
    omega

/-! ## The journey -/

/-- **The way out.** -/
theorem go_out (hR : R o) {rest : List Nsaddr} :
    ∀ {s : Net K} {p : Packet K}, (net addNb).Reachable s →
      s.inFlight = l ++ [p] → p.cmn.direction = .DOWN → (p.path ++ p.ip.daddr :: rest).Nodup →
      (p.path ++ p.ip.daddr :: rest).length ≤ MAX_NUM_NODES →
      (p.ip.daddr :: rest).getLast? = some p.ant.pktDst →
      (p.ip.daddr :: rest).IsChain (Offers R s p.ant.pktDst) → (rest.length + 1 : Int) < p.ip.ttl →
      ∃ s' q, Leads addNb R s s' ∧ Onward l s s' p q (p.ip.daddr :: rest) ∧ s'.agents = s.agents ∧
        q.cmn.direction = .UP ∧ q.path = p.path ++ p.ip.daddr :: rest ∧
        ∃ j, j + 2 = q.path.length ∧ q.path[j]? = some q.ip.daddr := by
  induction rest with
  | nil =>
    intro s p hr hf hd hnd hlen hlast hoff httl
    have hdst : p.ip.daddr = p.ant.pktDst := by simpa using hlast
    rw [List.length_append, List.length_singleton] at hlen
    obtain ⟨act, s', q, hs, hg, hc, hon, ha, hup, hpath, hj⟩ :=
      step_turn hR hr hf hd (by omega) hdst (by simpa using httl)
    exact ⟨s', q, .step hs hg hc (.refl s'), hon, ha, hup, hpath, hj⟩
  | cons y rest ih =>
    intro s p hr hf hd hnd hlen hlast hoff httl
    obtain ⟨hlink, hoff⟩ := List.isChain_cons_cons.mp hoff
    rw [List.getLast?_cons_cons] at hlast
    obtain ⟨hndp, hndx, hdisj⟩ := List.nodup_append.mp hnd
    have hx : p.ip.daddr ∉ y :: rest := (List.nodup_cons.mp hndx).1
    have hnew : p.ip.daddr ∉ p.path := fun hm => hdisj _ hm _ List.mem_cons_self rfl
    have hy : y ∉ p.path := fun hm => hdisj _ hm _ (List.mem_cons_of_mem _ List.mem_cons_self) rfl
    have hdst : p.ip.daddr ≠ p.ant.pktDst := fun he => hx (he ▸ List.mem_of_getLast? hlast)
    have hself : y ≠ p.ip.daddr := fun he => hx (he ▸ List.mem_cons_self)
    have hlen' : p.path.length + (rest.length + 2) ≤ MAX_NUM_NODES := by simpa using hlen
    simp only [List.length_cons, Nat.cast_add, Nat.cast_one] at httl
    obtain ⟨act, s', q, hs, hg, hc, hon, ha, hdown, hpath, hdaddr, hqdst⟩ :=
      step_out hr hf hd hnew (by omega) hdst hlink hy hself (by omega)
    subst hdaddr
    have hall : q.path ++ q.ip.daddr :: rest = p.path ++ p.ip.daddr :: q.ip.daddr :: rest := by
      rw [hpath, List.append_assoc]
      rfl
    have hqttl := hon.ttl
    rw [List.length_singleton] at hqttl
    have hoff' : (q.ip.daddr :: rest).IsChain (Offers R s' q.ant.pktDst) := hqdst ▸ hoff.imp fun _ _ h =>
      h.congr (by rw [ha]) (by rw [ha]) hon.lists hon.numNODES
    obtain ⟨s'', r, hlead, hon', ha', hup, hpath', hj⟩ := ih (LTS.reachable_step hr hs)
      hon.inFlight hdown (hall ▸ hnd) (hall ▸ hlen) (hqdst ▸ hlast) hoff' (by omega)
    exact ⟨s'', r, .step hs hg hc hlead, hon.trans hon', ha'.trans ha, hup, hpath'.trans hall, hj⟩

/-- What the way back from place `j` of the path leaves in the agents. -/
structure Taught (s s' : Net K) (path : List Nsaddr) (j : Nat) : Prop where
  learnt : ∀ i x y, i ≤ j → path[i]? = some x → path[i + 1]? = some y →
    s'.agents x = learnt (s.agents x) path i y
  others : ∀ n, n ∉ path.take (j + 1) → s'.agents n = s.agents n

omit [LinearOrder K] in
theorem taught_zero {s s' : Net K} {path : List Nsaddr} {x y : Nsaddr} (hx : path[0]? = some x)
    (hy : path[1]? = some y) (h : s'.agents = Function.update s.agents x (learnt (s.agents x) path 0 y)) :
    Taught s s' path 0 := by
  refine ⟨fun i x' y' hi hx' hy' => ?_, fun n hn => ?_⟩
  · obtain rfl : i = 0 := by omega
    obtain rfl : x = x' := Option.some.inj (hx.symm.trans hx')
    obtain rfl : y = y' := Option.some.inj (hy.symm.trans hy')
    rw [h, Function.update_self]
  · have hne : n ≠ x := by
      rintro rfl
      exact hn (List.mem_take_iff_getElem.mpr ⟨0, by have := (List.getElem?_eq_some_iff.mp hx).1; omega,
        (List.getElem?_eq_some_iff.mp hx).2⟩)
    rw [h, Function.update_of_ne hne]

omit [LinearOrder K] in
theorem taught_succ {s s' s'' : Net K} {path : List Nsaddr} (hnd : path.Nodup) {j : Nat} {x y : Nsaddr}
    (hx : path[j + 1]? = some x) (hy : path[j + 2]? = some y)
    (h : s'.agents = Function.update s.agents x (learnt (s.agents x) path (j + 1) y))
    (hrest : Taught s' s'' path j) : Taught s s'' path (j + 1) := by
  have hplace : ∀ i, path[i]? = some x → i = j + 1 := fun i hi =>
    (List.getElem?_inj (List.getElem?_eq_some_iff.mp hi).1 hnd).mp (hi.trans hx.symm)
  have hxmem : ∀ k, k ≤ j + 1 → x ∉ path.take k := by
    intro k hk hm
    obtain ⟨i, hi, he⟩ := List.mem_take_iff_getElem.mp hm
    have := hplace i (List.getElem?_eq_some_iff.mpr ⟨by omega, he⟩)
    omega
  refine ⟨fun i x' y' hi hx' hy' => ?_, fun n hn => ?_⟩
  · by_cases hij : i = j + 1
    · subst hij
      obtain rfl : x = x' := Option.some.inj (hx.symm.trans hx')
      obtain rfl : y = y' := Option.some.inj (hy.symm.trans hy')
      rw [hrest.others x (hxmem _ (Nat.le_refl _)), h, Function.update_self]
    · have hne : x' ≠ x := fun he => hij (hplace i (he ▸ hx'))
      rw [hrest.learnt i x' y' (by omega) hx' hy', h, Function.update_of_ne hne]
  · have htake : path.take (j + 2) = path.take (j + 1) ++ [x] := by
      rw [List.take_add_one, hx]
      rfl
    rw [htake, List.mem_append, List.mem_singleton, not_or] at hn
    rw [hrest.others n hn.1, h, Function.update_of_ne hn.2]

/-- **The way back.** -/
theorem come_back (hR : R o) {j : Nat} : ∀ {s : Net K} {p : Packet K}, (net addNb).Reachable s →
    s.inFlight = l ++ [p] → p.cmn.direction = .UP → p.path[j]? = some p.ip.daddr →
    j + 1 < p.path.length → (j + 1 : Int) < p.ip.ttl →
    ∃ s', Leads addNb R s s' ∧ s'.inFlight = l ∧ s'.freed = s.freed ++ [p.cmn.uid] ∧
      nodesOf s' p.cmn.uid = nodesOf s p.cmn.uid ++ (p.path.take (j + 1)).reverse ∧
      Taught s s' p.path j := by
  induction j with
  | zero =>
    intro s p hr hf hu hj hlen httl
    obtain ⟨act, s', hs, hg, hc, hfl, hfreed, hnodes, ha⟩ :=
      step_home hR hr hf hu hj (List.getElem?_eq_getElem hlen) (by omega)
    refine ⟨s', .step hs hg hc (.refl s'), hfl, hfreed, ?_, taught_zero hj (List.getElem?_eq_getElem hlen) ha⟩
    rw [hnodes, List.take_add_one, hj]
    rfl
  | succ j ih =>
    intro s p hr hf hu hj hlen httl
    obtain ⟨v, -, hw⟩ := (inv_reachable hr).ants p (by simp [hf])
    have hlt : j < p.path.length := by omega
    obtain ⟨act, s', q, hs, hg, hc, hon, hup, hpath, hdaddr, ha⟩ :=
      step_back hR hr hf hu (List.getElem?_eq_getElem hlt) hj (List.getElem?_eq_getElem hlen)
        (by omega)
    have hqttl := hon.ttl
    rw [List.length_singleton] at hqttl
    obtain ⟨s'', hlead, hfl, hfreed, hnodes, ht⟩ := ih (LTS.reachable_step hr hs) hon.inFlight hup
      (by rw [hpath, hdaddr]; exact List.getElem?_eq_getElem hlt) (by rw [hpath]; omega) (by omega)
    rw [hon.uid, hon.freed] at hfreed
    rw [hon.uid, hon.nodes, hpath] at hnodes
    rw [hpath] at ht
    refine ⟨s'', .step hs hg hc hlead, hfl, hfreed, ?_,
      taught_succ hw.nodup hj (List.getElem?_eq_getElem hlen) ha ht⟩
    rw [hnodes, List.take_add_one (i := j + 1), hj]
    simp

/-- **The launch**, with the answers `o`. -/
theorem launch (hr : (net addNb).Reachable s) {src dest y : Nsaddr}
    (htimer : (s.agents src).antTimer = true) (hdest : dest ≠ src) (hdraws : o.draws = [dest])
    (hhop : nextHop (s.env o) (s.agents src) dest src = y) (hy : y ≠ src) :
    ∃ s' p, step addNb s (.expire src o) = some s' ∧
      s'.inFlight = s.inFlight ++ [p] ∧ s'.freed = s.freed ∧ nodesOf s' s.uidcnt = [src] ∧
      s'.agents = Function.update s.agents src (afterSend (s.agents src)) ∧
      s'.neighborList = s.neighborList ∧ s'.numNODES = s.numNODES ∧
      p.cmn.uid = s.uidcnt ∧ p.cmn.direction = .DOWN ∧ p.path = [src] ∧ p.ip.saddr = src ∧
      p.ip.daddr = y ∧ p.ant.pktDst = dest ∧ p.ip.ttl = 2 * s.numNODES := by
  have hi := inv_reachable hr
  have haddr : (s.agents src).addr = src := hi.configured.addr _
  have hdraw : calcDestination (s.agents src).addr (s.env o).oracle.draws = some dest := by
    show calcDestination (s.agents src).addr o.draws = some dest
    rw [hdraws, calcDestination, if_neg (by rw [haddr]; exact hdest)]
  have hnext : nextHop (s.env o) (s.agents src) dest (s.agents src).addr = y := by rw [haddr]; exact hhop
  obtain ⟨u, f, he, d, q, hsent, hgone⟩ :=
    expire_spec (s.env o) s.uidcnt hdraw _ (at_start o.blank (s.agents src))
  have hstep : step addNb s (.expire src o) = some (finish { s with uidcnt := s.uidcnt + 1 } src .DOWN d q
      (afterSend (s.agents src)) f.log) := by
    rw [← settle_gone _ _ _ hgone]
    simp only [step, if_pos htimer]
    rw [show (expire (s.env o) s.uidcnt).exec ⟨o.blank, s.agents src, []⟩ = (.ok (), f) from he]
  refine ⟨_, q, hstep, ?_⟩
  cases hsent with
  | noRoute hd _ h =>
    obtain rfl := Option.some.inj (hdraw.symm.trans hd)
    exact absurd (hnext.symm.trans (h.trans haddr)) hy
  | sent hd hg hsaddr hdaddr _ httl =>
    obtain rfl := Option.some.inj (hdraw.symm.trans hd)
    have hnew : s.hist s.uidcnt = [] := hi.fresh _ (Nat.le_refl _)
    refine ⟨by simp [finish], by simp [finish], ?_, rfl, rfl, rfl, hg.uid, hg.direction, ?_,
      hsaddr.trans haddr, hdaddr.trans hnext, hg.pktDst, httl⟩
    · rw [finish_nodes _ _ _ _ _ _ _ hg.uid]
      simp [nodesOf, hnew]
    · unfold Packet.path
      rw [hg.trail]
      simp [haddr]

omit [LinearOrder K] [Arithmetic K] in
/-- A launch changes no table, and leaves the timer scheduled. -/
theorem launched_same {s' : Net K} {src : Nsaddr}
    (h : s'.agents = Function.update s.agents src (afterSend (s.agents src))) (n : Nsaddr) :
    (s'.agents n).rtable = (s.agents n).rtable ∧ (s'.agents n).addr = (s.agents n).addr ∧
      (s'.agents n).rFactor = (s.agents n).rFactor ∧
      ((s.agents n).antTimer = true → (s'.agents n).antTimer = true) := by
  rw [h]
  by_cases hn : n = src
  · rw [hn, Function.update_self]
    exact ⟨rfl, rfl, rfl, fun _ => rfl⟩
  · rw [Function.update_of_ne hn]
    exact ⟨rfl, rfl, rfl, id⟩

/-- What an ant along `path` and back leaves behind. -/
structure Explored (s s' : Net K) (path : List Nsaddr) : Prop where
  nodes : nodesOf s' s.uidcnt = path ++ path.reverse.tail
  inFlight : s'.inFlight = s.inFlight
  freed : s'.freed = s.freed ++ [s.uidcnt]
  learnt : ∀ i x y, path[i]? = some x → path[i + 1]? = some y → (s'.agents x).rtable =
    reinforcedTable (s.agents x).rtable (path.drop (i + 1)) y (s.agents x).rFactor
  others : ∀ n, n ∉ path.dropLast → (s'.agents n).rtable = (s.agents n).rtable

omit [LinearOrder K] in
/-- The way back touches only the tables. -/
theorem Taught.same {s s' : Net K} {path : List Nsaddr} {j : Nat} (h : Taught s s' path j)
    (hj : j + 1 < path.length) (n : Nsaddr) :
    (s'.agents n).rFactor = (s.agents n).rFactor ∧ (s'.agents n).antTimer = (s.agents n).antTimer := by
  by_cases hn : n ∈ path.take (j + 1)
  · obtain ⟨i, hi, he⟩ := List.mem_take_iff_getElem.mp hn
    have hx : path[i]? = some n := List.getElem?_eq_some_iff.mpr ⟨by omega, he⟩
    have hlt : i + 1 < path.length := by omega
    rw [h.learnt i n _ (by omega) hx (List.getElem?_eq_getElem hlt)]
    exact ⟨rfl, rfl⟩
  · rw [h.others n hn]
    exact ⟨rfl, rfl⟩

/-- **One journey** along a path of links on offer. -/
theorem journey (hr : (net addNb).Reachable s) {path : List Nsaddr} {src dest : Nsaddr}
    (h : Ready s path src dest) (hoff : path.IsChain (Offers R s dest)) :
    ∃ s', Leads addNb R s s' ∧ Explored s s' path ∧
      ∀ n, (s'.agents n).rFactor = (s.agents n).rFactor ∧
        ((s.agents n).antTimer = true → (s'.agents n).antTimer = true) := by
  obtain ⟨hnd, hlen, hmem, hnodes, hsrc, hdest, hrange, -, htimer⟩ := h
  match path, hlen with
  | x :: y :: rest, _ =>
    obtain rfl : x = src := Option.some.inj hsrc
    obtain ⟨hlink, hoff⟩ := List.isChain_cons_cons.mp hoff
    obtain ⟨hx, -⟩ := List.nodup_cons.mp hnd
    rw [List.getLast?_cons_cons] at hdest
    have hne : dest ≠ x := fun he => hx (he ▸ List.mem_of_getLast? hdest)
    have hyx : y ≠ x := fun he => hx (he ▸ List.mem_cons_self)
    simp only [List.length_cons, Nat.cast_add, Nat.cast_one] at hnodes
    obtain ⟨o, hR, hdraws, hhop⟩ := hlink x [dest] hyx (by simpa using hrange)
    obtain ⟨s₁, p, hs, hfl, hfreed, hnodes₁, ha, hnb, hN, huid, hdown, hpath, -, hdaddr, hdst, httl⟩ :=
      launch hr htimer hne hdraws hhop hyx
    have hsame₁ := launched_same ha
    subst hdaddr
    have hall : p.path ++ p.ip.daddr :: rest = x :: p.ip.daddr :: rest := by rw [hpath]; rfl
    have hoff₁ : (p.ip.daddr :: rest).IsChain (Offers R s₁ p.ant.pktDst) := hdst ▸ hoff.imp fun z _ h =>
      h.congr (hsame₁ z).1 (hsame₁ z).2.1 hnb hN
    obtain ⟨s₂, q, hlead, hon, ha₂, hup, hpath₂, j, hj, hprev⟩ := go_out hR (LTS.reachable_step hr hs) hfl
      hdown (hall ▸ hnd) (hall ▸ hmem) (hdst ▸ hdest) hoff₁ (by omega)
    rw [hall] at hpath₂
    have hj' : j = rest.length := by simpa [hpath₂] using hj
    have hqttl := hon.ttl
    simp only [List.length_cons, Nat.cast_add, Nat.cast_one] at hqttl
    obtain ⟨s₃, hlead₃, hfl₃, hfreed₃, hnodes₃, ht⟩ := come_back hR
      (hlead.reachable (LTS.reachable_step (l := .expire x o) hr hs)) hon.inFlight hup hprev (by omega) (by omega)
    have hsame := fun n => ht.same (by omega) n
    rw [hon.uid, huid] at hfreed₃ hnodes₃
    rw [hpath₂] at hnodes₃ ht
    refine ⟨s₃, .step (l := .expire x o) hs trivial hR (hlead.trans hlead₃),
      ⟨?_, hfl₃, ?_, fun i a b ha hb => ?_, fun n hn => ?_⟩, fun n => ⟨?_, fun htimer => ?_⟩⟩
    · have hout : nodesOf s₂ s.uidcnt = x :: p.ip.daddr :: rest := by
        rw [← huid, hon.nodes, huid, hnodes₁]
        rfl
      rw [hnodes₃, hout, List.tail_reverse, List.dropLast_eq_take, hj']
      rfl
    · rw [hfreed₃, hon.freed, hfreed]
    · have hi : i ≤ j := by
        have := (List.getElem?_eq_some_iff.mp hb).1
        simp only [List.length_cons] at this
        omega
      rw [ht.learnt i a b hi ha hb, ha₂]
      unfold L4.learnt
      rw [(hsame₁ a).1, (hsame₁ a).2.2.1]
    · rw [ht.others n ?_, ha₂, (hsame₁ n).1]
      rw [List.dropLast_eq_take] at hn
      rw [hj']
      exact hn
    · rw [(hsame n).1, ha₂, (hsame₁ n).2.2.1]
    · rw [(hsame n).2, ha₂, (hsame₁ n).2.2.2 htimer]

omit [LinearOrder K] in
theorem neighbors_reinforced (next : Nsaddr) (r : K) (row : PheromoneMatrix K) :
    neighbors (reinforced next r row) = neighbors row := by
  simp [neighbors, reinforced, Function.comp_def]

omit [LinearOrder K] in
/-- A journey leaves the path as it was for the next one. -/
theorem Ready.again {s' : Net K} {path : List Nsaddr} {src dest : Nsaddr} (h : Ready s path src dest)
    (he : Explored s s' path) (hN : s'.numNODES = s.numNODES) (ht : (s'.agents src).antTimer = true) : Ready s' path src dest := by
  refine { h with nodes := hN ▸ h.nodes, range := hN ▸ h.range, links := ?_, timer := ht }
  refine List.isChain_iff_getElem.mpr fun i hi => ?_
  obtain ⟨row, hrow, hy⟩ := List.isChain_iff_getElem.mp h.links i hi
  rw [he.learnt i _ _ (List.getElem?_eq_getElem (by omega)) (List.getElem?_eq_getElem hi), reinforcedTable,
    hrow]
  split
  · exact ⟨_, rfl, by rw [neighbors_reinforced]; exact hy⟩
  · exact ⟨row, rfl, hy⟩

end Steps

/-! ## Exact arithmetic -/

section Exact

variable [Field K] [LinearOrder K] {addNb : List Nsaddr → Nsaddr → List Nsaddr} {s : Net K}

/-- `o` with random numbers below their bounds: a destination among `N` nodes,
and a draw of `uniform(total)`. -/
def Drawn (N : Int) (o o' : Oracle K) : Prop :=
  ∃ t draws, 0 ≤ t ∧ t < 1 ∧ (∀ d ∈ draws, 0 ≤ d ∧ d < N) ∧
    o' = { o with uniform := fun W => t * W, draws := draws }

variable [IsStrictOrderedRing K]

/-- **With positive values every link is on offer**, whatever the queues hold. -/
theorem Open.offers (hv : Values (fun x => 0 < x) s) {o : Oracle K}
    (hq : QueuesOk o.queueLength) {dest : Nsaddr} {path : List Nsaddr} (h : Open s dest path) :
    path.IsChain (Offers (Drawn s.numNODES o) s dest) := by
  refine List.IsChain.imp (fun x y hlink => ?_) h
  obtain ⟨row, hrow, hy⟩ := hlink
  intro parent draws hpar hdraws
  obtain ⟨t, ht0, ht1, hnext⟩ := calcNext_draw hrow (phvalue_of hv hrow) hq (s.agents x).addr hy hpar
    (n := (s.neighborList (s.agents x).addr).length) (by omega)
  exact ⟨{ o with uniform := fun W => t * W, draws := draws }, ⟨t, draws, ht0, ht1, hdraws, rfl⟩, rfl, hnext⟩

end Exact

/-- Node 0 of the line can send an ant to node 2. -/
theorem line_ready : ∃ s : Net ℚ, ((net prependNb).guard (Factor Soft)).Reachable s ∧ s.numNODES = 3 ∧
    Ready s [0, 1, 2] 0 2 ∧ (s.agents 0).rFactor = 1 / 1000 ∧ (s.agents 1).rFactor = 1 / 1000 := by
  have hrun : (LTS.execGuarded (step prependNb) (Factor Soft) Net.boot (lineUp : List (Act ℚ))).map
      (fun s => ((s.numNODES, (s.agents 0).antTimer, (s.agents 0).rFactor, (s.agents 1).rFactor),
        ((s.agents 0).rtable 2).map neighbors, ((s.agents 1).rtable 2).map neighbors)) =
      some ((3, true, 1 / 1000, 1 / 1000), some [1], some [2, 0]) := by decide +kernel
  obtain ⟨s, hs, hval⟩ := Option.map_eq_some_iff.mp hrun
  simp only [Prod.mk.injEq, Option.map_eq_some_iff] at hval
  obtain ⟨⟨hN, htimer, hr₀, hr₁⟩, ⟨row₀, hrow₀, h₀⟩, ⟨row₁, hrow₁, h₁⟩⟩ := hval
  have hopen : Open s 2 [0, 1, 2] := List.isChain_cons_cons.mpr ⟨⟨row₀, hrow₀, by simp [h₀]⟩,
    List.isChain_cons_cons.mpr ⟨⟨row₁, hrow₁, by simp [h₁]⟩, .singleton _⟩⟩
  exact ⟨s, LTS.reachable_of_execGuarded boot_initial hs, hN, ⟨by decide, by decide, by decide,
    by rw [hN]; decide, rfl, rfl, by rw [hN]; decide, hopen, htimer⟩, hr₀, hr₁⟩

end AntNet.L4
