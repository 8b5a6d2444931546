import AntNet.L3Agent.Ant
import AntNet.L3Agent.Backward

/-!
# What a handler run can end in

`Outcome env a p` lists the ends of a delivery of a well-formed ant `p` to
agent `a`: the disposal, the packet at that moment, the agent, and the calls
on the routing table. `recv_spec` is the only place where the dispatch of
`recv` and `recv_ant_pkt` is followed; the network's invariants are case
analyses over `Outcome`. `Sent` and `expire_spec` are the same for the timer.
-/
namespace AntNet.L3

open AntNet.L1 AntNet.L2 AntNet.LoopErasure

variable {K : Type}

section Walk

variable {nbr : Nsaddr → Nsaddr → Prop} {origin : Nsaddr} {p q : Packet K} {a : Antnet K}
  {c : List Event}

/-- Where a backward ant is met: at an entry with a later one, and an earlier
one unless its walk ends here. -/
theorem Homebound.found (h : WellFormed nbr origin p) (hh : Homebound p) (ha : a.addr = p.ip.daddr) :
    ∃ j next, Found p a j ∧ p.path[j + 1]? = some next ∧
      (a.addr ≠ p.ant.pktDst → ∃ i prev, j = i + 1 ∧ p.path[i]? = some prev) := by
  obtain ⟨j, hd, hs⟩ := hh.between
  rw [← ha] at hd
  refine ⟨j, _, ⟨h.size, hd, h.nodup⟩, hs, ?_⟩
  intro hne
  cases j with
  | zero =>
    have hdst := hh.dst
    rw [List.head?_eq_getElem?, hd] at hdst
    exact absurd (Option.some.inj hdst) hne
  | succ i =>
    have hi : i < p.path.length := by have := (List.getElem?_eq_some_iff.mp hd).1; omega
    exact ⟨i, p.path[i], rfl, List.getElem?_eq_getElem hi⟩

/-- The destination joins the path behind its last node. -/
theorem turn_index [Arithmetic K] (h : WellFormed nbr origin p) (hd : p.cmn.direction = .DOWN)
    (hdst : a.addr = p.ant.pktDst) {time : K} (hm : Memorized a.addr time p q) :
    ∃ j, j + 2 = q.path.length ∧ q.path[j]? = some p.ip.saddr := by
  have ho := h.outbound hd
  have hpos := h.path_pos
  have hn : a.addr ∉ p.path := by rw [hdst]; exact ho.dst
  have hq : q.path = p.path ++ [a.addr] := by rw [hm.path, revisit_new hn]
  refine ⟨p.path.length - 1, by rw [hq]; simp; omega, ?_⟩
  rw [hq, List.getElem?_append_left (by omega), ← List.getLast?_eq_getElem?]
  exact ho.last

theorem createBackwardAntPkt_spec (hs : p.SizeOk) {j : Nat} {prev : Nsaddr}
    (hj : j + 2 = p.path.length) (hprev : p.path[j]? = some prev) :
    Triple (At p a c) createBackwardAntPkt (fun _ =>
      Gone .send (hop (asBackward (swapEnds p)) a.addr prev) a c) := by
  have hlen := p.path_length hs
  have hlt : (j : Int) < p.ant.pktMemSize := by omega
  obtain ⟨hm, ht⟩ := p.trail_getElem? hs hlt
  have hn : p.ant.pktMemory[j].nodeAddr = prev := by
    have := p.path_getElem? ht
    rw [hprev] at this; exact (Option.some.inj this).symm
  unfold createBackwardAntPkt
  refine (rd_spec _).bindEq ?_
  refine (rd_spec _).bindEq ?_
  refine (wr_spec _).seq ?_
  refine (wr_spec _).seq ?_
  refine memSize_spec.bindEq ?_
  refine (wr_spec _).seq ?_
  refine (wr_spec _).seq ?_
  have hindex : p.ant.pktMemSize - 2 = (j : Int) := by omega
  simp only [hindex]
  refine (memRead_spec hm (by exact hlt)).bindEq ?_
  refine (wr_spec _).seq ?_
  refine addr_spec.bindEq ?_
  refine (wr_spec _).seq ?_
  refine (rd_spec _).bindEq ?_
  refine (wr_spec _).seq ?_
  simp only [hn]
  exact dispose_spec

theorem backwardAntPkt_spec {j : Nat} {prev : Nsaddr} (h : Found p a (j + 1))
    (hprev : p.path[j]? = some prev) :
    Triple (At p a c) backwardAntPkt (fun _ => Gone .send (hop (asBackward p) a.addr prev) a c) := by
  have hlt : (j : Int) < p.ant.pktMemSize := by have := h.lt; omega
  obtain ⟨hm, ht⟩ := p.trail_getElem? h.size hlt
  have hn : p.ant.pktMemory[j].nodeAddr = prev := by
    have := p.path_getElem? ht
    rw [hprev] at this; exact (Option.some.inj this).symm
  unfold backwardAntPkt
  refine (findPrevious_spec h).bindEq ?_
  have hindex : ((j + 1 : Nat) : Int) - 1 = (j : Int) := by omega
  rw [hindex, if_neg (by omega)]
  refine (memRead_spec hm hlt).bindEq ?_
  refine (wr_spec _).seq ?_
  refine (wr_spec _).seq ?_
  refine (wr_spec _).seq ?_
  refine addr_spec.bindEq ?_
  refine (wr_spec _).seq ?_
  refine (rd_spec _).bindEq ?_
  refine (wr_spec _).seq ?_
  simp only [hn]
  exact dispose_spec

end Walk

variable [Arithmetic K] [LinearOrder K]

/-! ## The next hop -/

/-- What `calc_next` returns to the handlers. -/
def nextHop (env : Env K) (a : Antnet K) (dest parent : Nsaddr) : Nsaddr :=
  calcNext a.rtable env.oracle.queueLength env.oracle.uniform a.addr dest parent
    (getNumNeighbors env a.addr)

/-- No entry left for a node that is not in the memory yet. -/
def Full (a : Antnet K) (p : Packet K) : Prop :=
  p.ant.pktMemSize = MAX_NUM_NODES ∧ a.addr ∉ p.path

section Specs

variable {p : Packet K} {a : Antnet K} {c : List Event}

theorem callCalcNext_spec (env : Env K) (dest parent : Nsaddr) :
    Triple (At p a c) (callCalcNext env dest parent) (fun v f =>
      v = nextHop env a dest parent ∧ At p a c f) :=
  (own_spec id).bindEq (Triple.pure fun _ hf => ⟨rfl, hf⟩)

theorem forwardAntPkt_spec (env : Env K) :
    Triple (At p a c) (forwardAntPkt env) (fun _ f =>
      if nextHop env a p.ant.pktDst p.ip.saddr = a.addr ∨
          nextHop env a p.ant.pktDst p.ip.saddr = p.ip.saddr then Gone .free p a c f
      else Gone .send (hop p a.addr (nextHop env a p.ant.pktDst p.ip.saddr)) a c f) := by
  refine (rd_spec _).bindEq ?_
  refine (rd_spec _).bindEq ?_
  refine (callCalcNext_spec env _ _).bindEq ?_
  refine addr_spec.bindEq ?_
  by_cases h : nextHop env a p.ant.pktDst p.ip.saddr = a.addr ∨
      nextHop env a p.ant.pktDst p.ip.saddr = p.ip.saddr
  · simp only [if_pos h]
    exact dispose_spec
  · simp only [if_neg h]
    refine (wr_spec _).seq ?_
    refine (wr_spec _).seq ?_
    refine (wr_spec _).seq ?_
    exact dispose_spec

end Specs

/-! ## Receiving -/

/-- The table calls of `update_table` at entry `j` of the path. -/
def updateLog (p : Packet K) (j : Nat) (next : Nsaddr) : List Event :=
  .updateTable :: updateCalls next (p.path.drop (j + 1))

/-- The agent after `update_table` at entry `j` of the path. -/
def updatedAgent (a : Antnet K) (p : Packet K) (j : Nat) (next : Nsaddr) : Antnet K :=
  reinforceAgent a next (p.path.drop (j + 1))

inductive Outcome (env : Env K) (a : Antnet K) (p : Packet K) :
    Event → Packet K → Antnet K → List Event → Prop where
  | full : p.cmn.direction = .DOWN → Full a p →
      Outcome env a p (.drop DROP_RTR_ROUTE_LOOP) p a []
  | turn {q : Packet K} {j : Nat} {prev : Nsaddr} : p.cmn.direction = .DOWN →
      a.addr = p.ant.pktDst → ¬ Full a p →
      Memorized a.addr (env.currentTime - p.ant.pktStartTime) p q →
      j + 2 = q.path.length → q.path[j]? = some prev →
      Outcome env a p .send (hop (asBackward (swapEnds q)) a.addr prev) a []
  | deadEnd {q : Packet K} {next : Nsaddr} : p.cmn.direction = .DOWN → a.addr ≠ p.ant.pktDst →
      ¬ Full a p → Memorized a.addr (env.currentTime - p.ant.pktStartTime) p q →
      next = nextHop env a p.ant.pktDst p.ip.saddr → next = a.addr ∨ next = p.ip.saddr →
      Outcome env a p .free q a []
  | forward {q : Packet K} {next : Nsaddr} : p.cmn.direction = .DOWN → a.addr ≠ p.ant.pktDst →
      ¬ Full a p → Memorized a.addr (env.currentTime - p.ant.pktStartTime) p q →
      next = nextHop env a p.ant.pktDst p.ip.saddr → next ≠ a.addr → next ≠ p.ip.saddr →
      Outcome env a p .send (hop q a.addr next) a []
  | home {j : Nat} {next : Nsaddr} : p.cmn.direction = .UP → a.addr = p.ant.pktDst →
      p.path[j]? = some a.addr → p.path[j + 1]? = some next →
      Outcome env a p .free p (updatedAgent a p j next) (updateLog p j next)
  | back {j : Nat} {prev next : Nsaddr} : p.cmn.direction = .UP → a.addr ≠ p.ant.pktDst →
      p.path[j]? = some prev → p.path[j + 1]? = some a.addr → p.path[j + 2]? = some next →
      Outcome env a p .send (hop (asBackward p) a.addr prev) (updatedAgent a p (j + 1) next)
        (updateLog p (j + 1) next)

section Recv

variable {nbr : Nsaddr → Nsaddr → Prop} {origin : Nsaddr} {p : Packet K} {a : Antnet K}

theorem recvForward_spec (env : Env K) (h : WellFormed nbr origin p)
    (hd : p.cmn.direction = .DOWN) :
    Triple (At p a []) (do
      if (← addr) = (← rd (·.ant.pktDst)) then
        if ← memorize env then createBackwardAntPkt
        else return ()
      else
        if ← memorize env then forwardAntPkt env
        else return ()) (fun _ f => ∃ d q a' c, Outcome env a p d q a' c ∧ Gone d q a' c f) := by
  refine addr_spec.bindEq ?_
  refine (rd_spec _).bindEq ?_
  by_cases hdst : a.addr = p.ant.pktDst
  · rw [if_pos hdst]
    refine (memorize_spec env h.size).bind fun b => ?_
    cases b with
    | true =>
      refine Triple.ex fun q hq => ?_
      obtain ⟨j, hj, hprev⟩ := turn_index h hd hdst hq.1
      exact (createBackwardAntPkt_spec hq.1.size hj hprev).conseq (fun _ hf => hf)
        fun _ f hf => ⟨_, _, _, _, .turn hd hdst hq.2 hq.1 hj hprev, hf⟩
    | false =>
      refine Triple.lift fun hfull => ?_
      exact Triple.pure fun f hf => ⟨_, _, _, _, .full hd hfull, hf⟩
  · rw [if_neg hdst]
    refine (memorize_spec env h.size).bind fun b => ?_
    cases b with
    | true =>
      refine Triple.ex fun q hq => ?_
      refine (forwardAntPkt_spec env).conseq (fun _ hf => hf) fun _ f hf => ?_
      rw [hq.1.pktDst, hq.1.ip] at hf
      split at hf
      · rename_i hn
        exact ⟨_, _, _, _, .deadEnd hd hdst hq.2 hq.1 rfl hn, hf⟩
      · rename_i hn
        obtain ⟨h1, h2⟩ := not_or.mp hn
        exact ⟨_, _, _, _, .forward hd hdst hq.2 hq.1 rfl h1 h2, hf⟩
    | false =>
      refine Triple.lift fun hfull => ?_
      exact Triple.pure fun f hf => ⟨_, _, _, _, .full hd hfull, hf⟩

theorem recvBackward_spec (env : Env K) (h : WellFormed nbr origin p) (ha : a.addr = p.ip.daddr)
    (hu : p.cmn.direction = .UP) :
    Triple (At p a []) (do
      if (← addr) = (← rd (·.ant.pktDst)) then
        updateTable
        packetFree
      else
        updateTable
        backwardAntPkt) (fun _ f => ∃ d q a' c, Outcome env a p d q a' c ∧ Gone d q a' c f) := by
  obtain ⟨j, next, hfound, hnext, hprev⟩ := (h.homebound hu).found h ha
  refine addr_spec.bindEq ?_
  refine (rd_spec _).bindEq ?_
  by_cases hdst : a.addr = p.ant.pktDst
  · rw [if_pos hdst]
    refine (updateTable_spec hfound hnext).seq ?_
    refine Triple.conseq dispose_spec (fun _ hf => hf) fun _ f hf => ?_
    exact ⟨_, _, _, _, .home hu hdst hfound.at_j hnext, hf⟩
  · rw [if_neg hdst]
    obtain ⟨i, prev, rfl, hi⟩ := hprev hdst
    refine (updateTable_spec hfound hnext).seq ?_
    have hfound' : Found p (updatedAgent a p (i + 1) next) (i + 1) := ⟨h.size, hfound.at_j, h.nodup⟩
    exact (backwardAntPkt_spec hfound' hi).conseq (fun _ hf => hf)
      fun _ f hf => ⟨_, _, _, _, .back hu hdst hi hfound.at_j hnext, hf⟩

/-- **Every delivery of a well-formed ant ends in one of the outcomes**: no
fault, and the handler's last act is the one disposal. -/
theorem recv_spec (env : Env K) (h : WellFormed nbr origin p) (ha : a.addr = p.ip.daddr)
    (hra : a.raAddr = a.addr) :
    Triple (At p a []) (recv env) (fun _ f =>
      ∃ d q a' c, Outcome env a p d q a' c ∧ Gone d q a' c f) := by
  unfold recv
  refine (rd_spec _).bindEq ?_
  refine (own_spec _).bindEq ?_
  rw [if_neg (by rw [hra, ha]; exact h.saddr_ne_daddr)]
  refine (rd_spec _).bindEq ?_
  rw [if_pos h.ptype]
  unfold recvAntPkt
  refine (rd_spec _).bindEq ?_
  refine (assert_spec h.sport).seq ?_
  refine (rd_spec _).bindEq ?_
  refine (assert_spec h.dport).seq ?_
  refine (rd_spec _).bindEq ?_
  by_cases hd : p.cmn.direction = .DOWN
  · rw [if_pos hd]
    exact recvForward_spec env h hd
  · have hu : p.cmn.direction = .UP := h.heading.elim (fun ⟨hd', _⟩ => absurd hd' hd) (·.1)
    rw [if_neg hd]
    refine (rd_spec _).bindEq ?_
    rw [if_pos hu]
    exact recvBackward_spec env h ha hu

end Recv

/-! ## Generating -/

/-- The packet `send_ant_pkt` has built before it asks for the next hop. -/
structure Generated (env : Env K) (uid : Nat) (a : Antnet K) (dest : Nsaddr) (p : Packet K) :
    Prop where
  uid : p.cmn.uid = uid
  ptype : p.cmn.ptype = PT_ANT
  direction : p.cmn.direction = .DOWN
  sport : p.ip.sport = a.herePort
  dport : p.ip.dport = a.dstPort
  pktSrc : p.ant.pktSrc = a.addr
  pktDst : p.ant.pktDst = dest
  pktStartTime : p.ant.pktStartTime = env.currentTime
  pktType : p.ant.pktType = FORWARD_ANT
  pktSeqNum : p.ant.pktSeqNum = a.antSeqNum
  pktMemSize : p.ant.pktMemSize = 1
  trail : p.trail = [⟨a.addr, 0⟩]

/-- The agent after an ant: the next sequence number, and the timer again. -/
def afterSend (a : Antnet K) : Antnet K :=
  { a with antSeqNum := a.antSeqNum + 1, antTimer := true }

inductive Sent (env : Env K) (uid : Nat) (a : Antnet K) : Event → Packet K → Prop where
  | noRoute {dest : Nsaddr} {p : Packet K} : calcDestination a.addr env.oracle.draws = some dest →
      Generated env uid a dest p → nextHop env a dest a.addr = a.addr → Sent env uid a .free p
  | sent {dest : Nsaddr} {p : Packet K} : calcDestination a.addr env.oracle.draws = some dest →
      Generated env uid a dest p → p.ip.saddr = a.addr →
      p.ip.daddr = nextHop env a dest a.addr → nextHop env a dest a.addr ≠ a.addr →
      p.ip.ttl = 2 * env.numNODES → Sent env uid a .send p

section Expire

variable {p : Packet K} {a : Antnet K} {c : List Event}

omit [Arithmetic K] [LinearOrder K] in
theorem allocpkt_spec (env : Env K) (uid : Nat) :
    Triple (At p a c) (allocpkt env uid) (fun _ => At
      { env.oracle.blank with
        cmn := { env.oracle.blank.cmn with uid := uid }
        ip := { env.oracle.blank.ip with sport := a.herePort, dport := a.dstPort } } a c) :=
  Triple.update fun f hf => ⟨by rw [hf.self], hf.self, hf.quiet, hf.calls⟩

omit [LinearOrder K] in
theorem Generated.ttl {env : Env K} {uid : Nat} {dest : Nsaddr} {p : Packet K}
    (h : Generated env uid a dest p) (next : Nsaddr) (t : Int) :
    Generated env uid a dest
      { hop p a.addr next with ip := { (hop p a.addr next).ip with ttl := t } } :=
  ⟨h.uid, h.ptype, h.direction, h.sport, h.dport, h.pktSrc, h.pktDst, h.pktStartTime,
    h.pktType, h.pktSeqNum, h.pktMemSize, h.trail⟩

/-- The end of `send_ant_pkt`, once the headers are filled in; `b` is the
agent with the next sequence number. -/
theorem launch_spec {env : Env K} {uid : Nat} {dest : Nsaddr} {b : Antnet K}
    (hdest : calcDestination a.addr env.oracle.draws = some dest) (hg : Generated env uid a dest p)
    (hb : ∀ d parent, nextHop env b d parent = nextHop env a d parent) :
    Triple (At p b c) (do
      let next ← callCalcNext env (← rd (·.ant.pktDst)) a.addr
      if next = a.addr then
        packetFree
      else
        wr fun p => { p with cmn := { p.cmn with nextHop := next } }
        wr fun p => { p with ip := { p.ip with saddr := a.addr } }
        wr fun p => { p with ip := { p.ip with daddr := next } }
        wr fun p => { p with ip := { p.ip with ttl := 2 * env.numNODES } }
        targetRecv) (fun _ f => ∃ d q, Sent env uid a d q ∧ Gone d q b c f) := by
  refine (rd_spec _).bindEq ?_
  refine (callCalcNext_spec env _ _).bindEq ?_
  rw [hb, hg.pktDst]
  by_cases h : nextHop env a dest a.addr = a.addr
  · rw [if_pos h]
    exact Triple.conseq dispose_spec (fun _ hf => hf)
      fun _ f hf => ⟨_, _, .noRoute hdest hg h, hf⟩
  · rw [if_neg h]
    refine (wr_spec _).seq ?_
    refine (wr_spec _).seq ?_
    refine (wr_spec _).seq ?_
    refine (wr_spec _).seq ?_
    exact Triple.conseq dispose_spec (fun _ hf => hf)
      fun _ f hf => ⟨_, _, .sent hdest (hg.ttl _ _) rfl rfl h rfl, hf⟩

theorem sendAntPkt_spec (env : Env K) (uid : Nat) {dest : Nsaddr}
    (hdest : calcDestination a.addr env.oracle.draws = some dest) :
    Triple (At p a c) (sendAntPkt env uid) (fun _ f =>
      ∃ d q, Sent env uid a d q ∧ Gone d q { a with antSeqNum := a.antSeqNum + 1 } c f) := by
  unfold sendAntPkt
  refine (allocpkt_spec env uid).seq ?_
  refine addr_spec.bindEq ?_
  refine (wr_spec _).seq ?_
  refine (wr_spec _).seq ?_
  refine (wr_spec _).seq ?_
  refine (own_spec _).bindEq ?_
  refine (setSelf_spec _).seq ?_
  refine (wr_spec _).seq ?_
  refine (wr_spec _).seq ?_
  rw [hdest]
  refine (wr_spec _).seq ?_
  refine (setMemSize_spec _).seq ?_
  refine (memWrite_spec (i := 0) (by decide) _).seq ?_
  refine (memWrite_spec (i := 0) (by decide) _).seq ?_
  refine memSize_spec.bindEq ?_
  refine (setMemSize_spec _).seq ?_
  refine (wr_spec _).seq ?_
  refine (wr_spec _).seq ?_
  refine (rd_spec _).bindEq ?_
  refine (wr_spec _).seq ?_
  refine (wr_spec _).seq ?_
  refine (wr_spec _).seq ?_
  refine launch_spec hdest ⟨rfl, rfl, rfl, rfl, rfl, rfl, rfl, rfl, rfl, rfl, rfl, ?_⟩ fun _ _ => rfl
  simp only [Packet.withMemory_mem, Vector.getElem_set_self, Vector.set_set]
  exact @liveMem_push K env.oracle.blank.ant.pktMemory 0 (by decide) ⟨a.addr, 0⟩

/-- **The timer's ant**: freed where no hop leads on, sent to the next hop otherwise. -/
theorem expire_spec (env : Env K) (uid : Nat) {dest : Nsaddr}
    (hdest : calcDestination a.addr env.oracle.draws = some dest) :
    Triple (At p a c) (expire env uid) (fun _ f =>
      ∃ d q, Sent env uid a d q ∧ Gone d q (afterSend a) c f) :=
  (sendAntPkt_spec env uid hdest).seq <| Triple.update fun _ ⟨d, q, hq, hf⟩ =>
    ⟨d, q, hq, hf.pkt, congrArg (fun b => { b with antTimer := true }) hf.self, hf.log⟩

/-- Draws that never leave `calc_destination`'s loop leave no packet. -/
theorem expire_stuck (env : Env K) (uid : Nat) {f : Frame K}
    (hdest : calcDestination f.self.addr env.oracle.draws = none) :
    ∃ s, (expire env uid).exec f = (.error .stuck, s) := by
  simp only [expire, sendAntPkt, allocpkt, addr, own, wr, setSelf, emit, Prog.exec_bind,
    Prog.exec_modify, Prog.exec_get, Prog.exec_pure, hdest, Prog.exec_throw]
  exact ⟨_, rfl⟩

end Expire

end AntNet.L3
