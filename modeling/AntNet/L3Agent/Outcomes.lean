import AntNet.L3Agent.Tables

/-!
# What an outcome means for the agent and the ant

For each end of a delivery (`Outcome`) and of a timer expiry (`Sent`): which
agent state it leaves, that it is a disposal of the packet that came in, that
an ant sent on is well formed again, and what became of its path.
-/
namespace AntNet.L3

open AntNet.L1 AntNet.L2 AntNet.LoopErasure

variable {K : Type} [Arithmetic K] [LinearOrder K] {env : Env K} {a a' : Antnet K} {p q : Packet K}
  {d : Event} {c : List Event}

/-- A delivery leaves the agent as it is, or has reinforced the entries of the
node that follows this one on the path. -/
theorem Outcome.agent (h : Outcome env a p d q a' c) :
    a' = a ∧ c = [] ∨
      p.cmn.direction = .UP ∧ ∃ j next, p.path[j]? = some a.addr ∧ p.path[j + 1]? = some next ∧
        a' = updatedAgent a p j next ∧ c = updateLog p j next := by
  cases h with
  | full | turn | deadEnd | forward => exact .inl ⟨rfl, rfl⟩
  | home hu _ hj hn => exact .inr ⟨hu, _, _, hj, hn, rfl, rfl⟩
  | back hu _ _ hj hn => exact .inr ⟨hu, _, _, hj, hn, rfl, rfl⟩

theorem Outcome.sameId (h : Outcome env a p d q a' c) : SameId a a' := by
  rcases h.agent with ⟨rfl, -⟩ | ⟨-, j, next, -, -, rfl, -⟩
  · exact SameId.refl _
  · exact ⟨rfl, rfl, rfl, rfl⟩

/-- The uid is the packet's own. -/
theorem Outcome.uid (h : Outcome env a p d q a' c) : q.cmn.uid = p.cmn.uid := by
  cases h with
  | full => rfl
  | turn _ _ _ hm => rw [hop_uid, asBackward_uid, swapEnds_cmn, hm.cmn]
  | deadEnd _ _ _ hm => rw [hm.cmn]
  | forward _ _ _ hm => rw [hop_uid, hm.cmn]
  | home => rfl
  | back => rfl

/-- The header fields no delivery changes. -/
structure Kept (p q : Packet K) : Prop where
  ttl : q.ip.ttl = p.ip.ttl
  pktType : q.ant.pktType = p.ant.pktType
  pktSeqNum : q.ant.pktSeqNum = p.ant.pktSeqNum
  pktLen : q.ant.pktLen = p.ant.pktLen
  pktStartTime : q.ant.pktStartTime = p.ant.pktStartTime

omit [LinearOrder K] in
theorem Memorized.kept {n : Nsaddr} {time : K} (h : Memorized n time p q) : Kept p q := by
  obtain ⟨mem, sz, rfl⟩ := h.rest
  exact ⟨rfl, rfl, rfl, rfl, rfl⟩

theorem Outcome.kept (h : Outcome env a p d q a' c) : Kept p q := by
  cases h with
  | full | home | back => exact ⟨rfl, rfl, rfl, rfl, rfl⟩
  | turn _ _ _ hm | deadEnd _ _ _ hm | forward _ _ _ hm =>
    exact ⟨hm.kept.ttl, hm.kept.pktType, hm.kept.pktSeqNum, hm.kept.pktLen, hm.kept.pktStartTime⟩

theorem Outcome.disposes (h : Outcome env a p d q a' c) : d.disposes = true := by
  cases h <;> rfl

/-- A drop is the drop of a full memory. -/
theorem Outcome.full_of_drop {why : String} (h : Outcome env a p (.drop why) q a' c) :
    p.cmn.direction = .DOWN ∧ Full a p := by
  cases h with
  | full hd hf => exact ⟨hd, hf⟩

/-- A backward ant updates the table, and is freed at its destination and sent
on to the node before this one elsewhere. -/
theorem Outcome.up (h : Outcome env a p d q a' c) (hu : p.cmn.direction = .UP) :
    (∃ j next, c = updateLog p j next) ∧
      (d = .free ∧ a.addr = p.ant.pktDst ∨ d = .send ∧ ∃ j prev, p.path[j]? = some prev ∧
        p.path[j + 1]? = some a.addr ∧ q = hop (asBackward p) a.addr prev) := by
  cases h with
  | full hd | turn hd | deadEnd hd | forward hd => rw [hu] at hd; cases hd
  | home _ hdst => exact ⟨⟨_, _, rfl⟩, .inl ⟨rfl, hdst⟩⟩
  | back _ _ hprev hat => exact ⟨⟨_, _, rfl⟩, .inr ⟨rfl, _, _, hprev, hat, rfl⟩⟩

/-- A backward ant that is sent on is sent on as one, with its header as it came. -/
theorem Outcome.staysUp (h : Outcome env a p .send q a' c) (hu : p.cmn.direction = .UP) :
    q.cmn.direction = .UP ∧ q.ant = p.ant := by
  obtain ⟨-, hfree | ⟨-, _, _, _, _, rfl⟩⟩ := h.up hu
  · cases hfree.1
  · exact ⟨rfl, rfl⟩

/-- On a path without loops a backward ant reinforces from its one place on it. -/
theorem Outcome.updated (h : Outcome env a p d q a' c) (hu : p.cmn.direction = .UP)
    (hnd : p.path.Nodup) {j : Nat} {next : Nsaddr} (hj : p.path[j]? = some a.addr)
    (hn : p.path[j + 1]? = some next) : a' = updatedAgent a p j next ∧ c = updateLog p j next := by
  rcases h.agent with ⟨-, rfl⟩ | ⟨-, j', next', hj', hn', rfl, rfl⟩
  · obtain ⟨⟨_, _, hc⟩, -⟩ := h.up hu
    cases hc
  · obtain rfl : j = j' :=
      (List.getElem?_inj (List.getElem?_eq_some_iff.mp hj).1 hnd).mp (hj.trans hj'.symm)
    obtain rfl : next = next' := Option.some.inj (hn.symm.trans hn')
    exact ⟨rfl, rfl⟩

/-- A forward ant that `memorize` keeps turns around at its destination. -/
theorem Outcome.turned (h : Outcome env a p d q a' c) (hd : p.cmn.direction = .DOWN)
    (hdst : a.addr = p.ant.pktDst) (hf : ¬ Full a p) :
    d = .send ∧ q.cmn.direction = .UP ∧ q.path = revisit p.path a.addr ∧
      ∃ j, j + 2 = q.path.length ∧ q.path[j]? = some q.ip.daddr ∧ q.ip.saddr = a.addr := by
  cases h with
  | full _ hf' => exact absurd hf' hf
  | turn _ _ _ hm hj hprev => exact ⟨rfl, rfl, hm.path, _, hj, hprev, rfl⟩
  | deadEnd _ hne | forward _ hne => exact absurd hdst hne
  | home hu | back hu => rw [hd] at hu; cases hu

theorem Sent.disposes {uid : Nat} (h : Sent env uid a d q) : d.disposes = true := by
  cases h <;> rfl

theorem Sent.generated {uid : Nat} (h : Sent env uid a d q) : ∃ dest,
    calcDestination a.addr env.oracle.draws = some dest ∧ Generated env uid a dest q := by
  cases h with
  | noRoute hd hg => exact ⟨_, hd, hg⟩
  | sent hd hg => exact ⟨_, hd, hg⟩

/-! ## The ant sent on -/

section Ant

variable {nbr : Nsaddr → Nsaddr → Prop} {origin : Nsaddr}

/-- A next hop other than the parent is a link. -/
theorem nextHop_link (hn : ∀ d row y, a.rtable d = some row → y ∈ neighbors row → nbr a.addr y)
    {dest parent : Nsaddr} (hne : nextHop env a dest parent ≠ parent) :
    nbr a.addr (nextHop env a dest parent) := by
  rcases calcNext_mem a.rtable env.oracle.queueLength env.oracle.uniform a.addr dest parent
    (getNumNeighbors env a.addr) with h | ⟨row, hrow, hmem⟩
  · exact absurd h hne
  · exact hn dest row _ hrow hmem

theorem Outcome.wellFormed (h : WellFormed nbr origin p) (ha : a.addr = p.ip.daddr)
    (hn : ∀ d row y, a.rtable d = some row → y ∈ neighbors row → nbr a.addr y)
    (ho : Outcome env a p .send q a' c) : WellFormed nbr origin q := by
  cases ho with
  | turn hd hdst _ hm hj hprev =>
    exact wellFormed_turn (visited h hd ha hm) (hm.pktDst.trans hdst.symm) hj hprev
  | forward hd hdst _ hm hnext hself hpar =>
    subst hnext
    refine wellFormed_forward (visited h hd ha hm) (fun hmem => ?_) (nextHop_link hn hpar) hself
    rw [hm.pktDst, hm.path] at hmem
    rcases revisit_subset hmem with hp | he
    · exact (h.outbound hd).dst hp
    · exact hdst he.symm
  | back hu _ hprev hat _ => exact wellFormed_back h hu hat hprev

theorem Sent.wellFormed {uid : Nat} (hports : a.herePort = RT_PORT ∧ a.dstPort = RT_PORT)
    (hn : ∀ d row y, a.rtable d = some row → y ∈ neighbors row → nbr a.addr y)
    (hs : Sent env uid a .send q) : WellFormed nbr a.addr q := by
  cases hs with
  | sent hd hg hsaddr hdaddr hne =>
    have hpath : q.path = [a.addr] := by rw [Packet.path, hg.trail]; rfl
    refine ⟨hg.ptype, hg.sport.trans hports.1, hg.dport.trans hports.2, ?_, ?_, ?_, ?_,
      .inl ⟨hg.direction, ?_, ?_, ?_, ?_, ?_⟩⟩
    · rw [Packet.SizeOk, hg.pktMemSize]; decide
    · rw [hpath]; simp
    · rw [hpath]; rfl
    · rw [hpath]; simp
    · rw [hpath, hsaddr]; rfl
    · rw [hpath, hg.pktSrc]; rfl
    · rw [hpath, hg.pktDst, List.mem_singleton]; exact calcDestination_ne hd
    · rw [hsaddr, hdaddr]; exact nextHop_link hn hne
    · rw [hsaddr, hdaddr]; exact hne

/-- **The path of an ant sent on**: a visit of the loop erasure on its way
out, and the same path on its way back. -/
theorem Outcome.path (ho : Outcome env a p .send q a' c) :
    p.cmn.direction = .DOWN ∧ q.path = revisit p.path a.addr ∨
      p.cmn.direction = .UP ∧ q.path = p.path := by
  cases ho with
  | turn hd _ _ hm => exact .inl ⟨hd, by rw [hop_path, asBackward_path, swapEnds_path, hm.path]⟩
  | forward hd _ _ hm => exact .inl ⟨hd, by rw [hop_path, hm.path]⟩
  | back hu => exact .inr ⟨hu, rfl⟩

/-- **The memory of an ant sent on**: visited on its way out, left alone on its way back. -/
theorem Outcome.trail (ho : Outcome env a p .send q a' c) :
    p.cmn.direction = .DOWN ∧
        q.trail = visitTrail a.addr (env.currentTime - p.ant.pktStartTime) p.trail ∨
      p.cmn.direction = .UP ∧ q.trail = p.trail := by
  cases ho with
  | turn hd _ _ hm => exact .inl ⟨hd, hm.trail⟩
  | forward hd _ _ hm => exact .inl ⟨hd, hm.trail⟩
  | back hu => exact .inr ⟨hu, rfl⟩

theorem Sent.path {uid : Nat} (hs : Sent env uid a d q) : q.path = [a.addr] := by
  obtain ⟨dest, -, hg⟩ := hs.generated
  unfold Packet.path
  rw [hg.trail]
  rfl

end Ant

end AntNet.L3
