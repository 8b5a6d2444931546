import AntNet.Core.Reorder
import AntNet.L4Network.Inv

/-!
# The order of what happens at different nodes

Two agents share nothing but the clock and what the script sets: what happens
to one ant at one node and to another ant at another node may happen in either
order. The parts of the network are the nodes, the ants and the counter of
`uid`s; a command and a clock tick touch all of them.

* `interleavings`: a run in which every node, every ant and the counter sees
  the same as in another one ends in the same state, up to the order in which
  packets are listed.
-/
namespace AntNet.L4

open AntNet.L1 AntNet.L2 AntNet.L3 AntNet.Reorder

variable {K : Type}

/-! ## What happens, and to whom -/

inductive Incident (K : Type) where
  | command (l : Act K)
  | launch (n : Nsaddr) (u : Nat) (o : Oracle K)
  | arrive (n : Nsaddr) (u : Nat) (numForwards ttl : Int) (o : Oracle K)
  | lose (u : Nat)

inductive Part where
  | node (n : Nsaddr)
  | ant (u : Nat)
  | uids

def Incident.touches : Incident K → Part → Bool
  | .command _, _ => true
  | .launch n _ _, .node m => m = n
  | .launch _ u _, .ant v => v = u
  | .launch _ _ _, .uids => true
  | .arrive n _ _ _ _, .node m => m = n
  | .arrive _ u _ _ _, .ant v => v = u
  | .arrive _ _ _ _ _, .uids => false
  | .lose u, .ant v => v = u
  | .lose _, .node _ => false
  | .lose _, .uids => false

theorem touches_some (e : Incident K) : ∃ p, e.touches p = true := by
  cases e with
  | command => exact ⟨.uids, rfl⟩
  | launch n | arrive n => exact ⟨.node n, by simp [Incident.touches]⟩
  | lose u => exact ⟨.ant u, by simp [Incident.touches]⟩

/-- What an act is in the state `s`. -/
def incident (s : Net K) : Act K → Option (Incident K)
  | .expire n o => some (.launch n s.uidcnt o)
  | .deliver i nf ttl o => (s.inFlight[i]?).map fun p => .arrive p.ip.daddr p.cmn.uid nf ttl o
  | .lose i => (s.inFlight[i]?).map fun p => .lose p.cmn.uid
  | l => some (.command l)

/-- Equal but for the order of the lists. -/
structure SameNet (s t : Net K) : Prop where
  clock : t.clock = s.clock
  numNODES : t.numNODES = s.numNODES
  neighborList : t.neighborList = s.neighborList
  agents : t.agents = s.agents
  uidcnt : t.uidcnt = s.uidcnt
  hist : t.hist = s.hist
  starts : t.starts = s.starts
  inFlight : t.inFlight.Perm s.inFlight
  freed : t.freed.Perm s.freed
  dropped : t.dropped.Perm s.dropped
  lost : t.lost.Perm s.lost

theorem SameNet.refl (s : Net K) : SameNet s s :=
  ⟨rfl, rfl, rfl, rfl, rfl, rfl, rfl, .refl _, .refl _, .refl _, .refl _⟩

theorem SameNet.trans {s t r : Net K} (h : SameNet s t) (h' : SameNet t r) : SameNet s r :=
  ⟨h'.clock.trans h.clock, h'.numNODES.trans h.numNODES, h'.neighborList.trans h.neighborList,
    h'.agents.trans h.agents, h'.uidcnt.trans h.uidcnt, h'.hist.trans h.hist, h'.starts.trans h.starts,
    h'.inFlight.trans h.inFlight, h'.freed.trans h.freed, h'.dropped.trans h.dropped,
    h'.lost.trans h.lost⟩

/-! ## The effect of a handler -/

/-- What changes: the agent of a node, the history of an ant, and where packets are. -/
structure Effect (K : Type) where
  agent : Nsaddr → Option (Antnet K)
  visits : Nat → List (Visit K)
  taken : List (Packet K)
  sent : List (Packet K)
  freed : List Nat
  dropped : List Nat
  lost : List Nat
  born : Nat

/-- The effect of a handler run at `n` that ended in `f`. -/
def handled (n : Nsaddr) (dir : Dir) (time : K) (f : Frame K) (taken : List (Packet K)) (born : Nat) :
    Effect K where
  agent m := if m = n then some f.self else none
  visits u := if u = f.pkt.cmn.uid then [⟨n, dir, time, f.log⟩] else []
  taken := taken
  sent := List.replicate (f.log.count .send) f.pkt
  freed := List.replicate (f.log.count .free) f.pkt.cmn.uid
  dropped := List.replicate (f.log.countP Event.isDrop) f.pkt.cmn.uid
  lost := []
  born := born

/-- The effect of the loss of a packet. -/
def discarded (p : Packet K) : Effect K where
  agent _ := none
  visits _ := []
  taken := [p]
  sent := []
  freed := []
  dropped := []
  lost := [p.cmn.uid]
  born := 0

structure Applied (δ : Effect K) (s s' : Net K) : Prop where
  clock : s'.clock = s.clock
  numNODES : s'.numNODES = s.numNODES
  neighborList : s'.neighborList = s.neighborList
  starts : s'.starts = s.starts
  agents : ∀ n, s'.agents n = (δ.agent n).getD (s.agents n)
  uidcnt : s'.uidcnt = s.uidcnt + δ.born
  hist : ∀ u, s'.hist u = s.hist u ++ δ.visits u
  inFlight : (δ.taken ++ s'.inFlight).Perm (s.inFlight ++ δ.sent)
  freed : s'.freed.Perm (s.freed ++ δ.freed)
  dropped : s'.dropped.Perm (s.dropped ++ δ.dropped)
  lost : s'.lost.Perm (s.lost ++ δ.lost)

/-- The effect is on what `e` touches. -/
structure Concerns (e : Incident K) (δ : Effect K) : Prop where
  agent : ∀ n, e.touches (.node n) = false → δ.agent n = none
  visits : ∀ u, e.touches (.ant u) = false → δ.visits u = []
  taken : ∀ p ∈ δ.taken, e.touches (.ant p.cmn.uid) = true
  sent : ∀ p ∈ δ.sent, e.touches (.ant p.cmn.uid) = true
  born : e.touches .uids = false → δ.born = 0

section Effects

variable {e e' : Incident K} {δ ε : Effect K} {s s' t t' s₁ s₂ t₁ t₂ : Net K}

/-- Packets of other ants stay in flight, and no new ones of theirs appear. -/
theorem Applied.mem_inFlight (h : Applied δ s s') (hc : Concerns e δ) {p : Packet K}
    (hp : e.touches (.ant p.cmn.uid) = false) : p ∈ s'.inFlight ↔ p ∈ s.inFlight := by
  have hmem := h.inFlight.mem_iff (a := p)
  simp only [List.mem_append] at hmem
  have htaken : p ∉ δ.taken := fun hm => by rw [hc.taken p hm] at hp; cases hp
  have hsent : p ∉ δ.sent := fun hm => by rw [hc.sent p hm] at hp; cases hp
  simpa [htaken, hsent] using hmem

/-- **Effects respect `SameNet`.** -/
theorem Applied.same (h : Applied δ s s') (h' : Applied δ t t') (hst : SameNet s t) : SameNet s' t' where
  clock := by rw [h.clock, h'.clock, hst.clock]
  numNODES := by rw [h.numNODES, h'.numNODES, hst.numNODES]
  neighborList := by rw [h.neighborList, h'.neighborList, hst.neighborList]
  agents := by funext n; rw [h.agents, h'.agents, hst.agents]
  uidcnt := by rw [h.uidcnt, h'.uidcnt, hst.uidcnt]
  hist := by funext u; rw [h.hist, h'.hist, hst.hist]
  starts := by rw [h.starts, h'.starts, hst.starts]
  inFlight := (List.perm_append_left_iff δ.taken).mp
    (h'.inFlight.trans ((hst.inFlight.append_right δ.sent).trans h.inFlight.symm))
  freed := h'.freed.trans ((hst.freed.append_right _).trans h.freed.symm)
  dropped := h'.dropped.trans ((hst.dropped.append_right _).trans h.dropped.symm)
  lost := h'.lost.trans ((hst.lost.append_right _).trans h.lost.symm)

/-- What two effects add to a list, in one order and in the other. -/
theorem perm_both {α : Type} {l l₁ l₂ m₁ m₂ xs ys : List α} (h₁ : l₁.Perm (l ++ xs))
    (h₂ : l₂.Perm (l₁ ++ ys)) (g₁ : m₁.Perm (l ++ ys)) (g₂ : m₂.Perm (m₁ ++ xs)) : m₂.Perm l₂ := by
  have hl : l₂.Perm (l ++ xs ++ ys) := h₂.trans (h₁.append_right ys)
  have hm : m₂.Perm (l ++ ys ++ xs) := g₂.trans (g₁.append_right xs)
  refine hm.trans (.trans ?_ hl.symm)
  rw [List.append_assoc, List.append_assoc]
  exact List.perm_append_comm.append_left l

/-- What two effects take out of a list and add to it. -/
theorem perm_exchange {α : Type} {l l₁ l₂ m₁ m₂ out out' xs ys : List α}
    (h₁ : (out ++ l₁).Perm (l ++ xs)) (h₂ : (out' ++ l₂).Perm (l₁ ++ ys))
    (g₁ : (out' ++ m₁).Perm (l ++ ys)) (g₂ : (out ++ m₂).Perm (m₁ ++ xs)) : m₂.Perm l₂ := by
  have hl : (out ++ (out' ++ l₂)).Perm (l ++ xs ++ ys) := by
    refine (h₂.append_left out).trans ?_
    rw [← List.append_assoc]
    exact h₁.append_right ys
  have hm : (out' ++ (out ++ m₂)).Perm (l ++ ys ++ xs) := by
    refine (g₂.append_left out').trans ?_
    rw [← List.append_assoc]
    exact g₁.append_right xs
  have hboth : (out ++ (out' ++ m₂)).Perm (out ++ (out' ++ l₂)) := by
    have hcomm : (out ++ (out' ++ m₂)).Perm (out' ++ (out ++ m₂)) := by
      rw [← List.append_assoc, ← List.append_assoc]
      exact List.perm_append_comm.append_right m₂
    refine hcomm.trans (hm.trans (.trans ?_ hl.symm))
    rw [List.append_assoc, List.append_assoc]
    exact List.perm_append_comm.append_left l
  rw [List.perm_append_left_iff, List.perm_append_left_iff] at hboth
  exact hboth

/-- **Effects on different parts commute.** -/
theorem Applied.swap (h₁ : Applied δ s s₁) (h₂ : Applied ε s₁ s₂) (g₁ : Applied ε s t₁)
    (g₂ : Applied δ t₁ t₂) (hδ : Concerns e δ) (hε : Concerns e' ε)
    (hi : Indep Incident.touches e e') : SameNet s₂ t₂ where
  clock := by rw [g₂.clock, g₁.clock, h₂.clock, h₁.clock]
  numNODES := by rw [g₂.numNODES, g₁.numNODES, h₂.numNODES, h₁.numNODES]
  neighborList := by rw [g₂.neighborList, g₁.neighborList, h₂.neighborList, h₁.neighborList]
  starts := by rw [g₂.starts, g₁.starts, h₂.starts, h₁.starts]
  agents := by
    funext n
    rw [g₂.agents, g₁.agents, h₂.agents, h₁.agents]
    cases hn : e.touches (.node n) with
    | true => rw [hε.agent n (hi _ hn)]; rfl
    | false => rw [hδ.agent n hn]; rfl
  uidcnt := by
    rw [g₂.uidcnt, g₁.uidcnt, h₂.uidcnt, h₁.uidcnt]
    omega
  hist := by
    funext u
    rw [g₂.hist, g₁.hist, h₂.hist, h₁.hist]
    cases hu : e.touches (.ant u) with
    | true => simp [hε.visits u (hi _ hu)]
    | false => simp [hδ.visits u hu]
  inFlight := perm_exchange h₁.inFlight h₂.inFlight g₁.inFlight g₂.inFlight
  freed := perm_both h₁.freed h₂.freed g₁.freed g₂.freed
  dropped := perm_both h₁.dropped h₂.dropped g₁.dropped g₂.dropped
  lost := perm_both h₁.lost h₂.lost g₁.lost g₂.lost

end Effects

/-! ## Handlers are local -/

section Step

variable [Arithmetic K] [LinearOrder K] {addNb : List Nsaddr → Nsaddr → List Nsaddr}
  {e e' : Incident K} {δ ε : Effect K} {s s' t : Net K} {l : Act K}

/-- What a handler or a loss does, read off the parts it touches. -/
inductive Does (s : Net K) : Incident K → Effect K → Prop where
  | launch {n : Nsaddr} {o : Oracle K} {f : Frame K} : (s.agents n).antTimer = true →
      (L3.expire (s.env o) s.uidcnt).exec ⟨o.blank, s.agents n, []⟩ = (.ok (), f) →
      f.pkt.cmn.uid = s.uidcnt → Does s (.launch n s.uidcnt o) (handled n .DOWN s.clock f [] 1)
  | arrive {p : Packet K} {nf ttl : Int} {o : Oracle K} {f : Frame K} : p ∈ s.inFlight →
      (recv (s.env o)).exec ⟨arrive p nf ttl, s.agents p.ip.daddr, []⟩ = (.ok (), f) →
      f.pkt.cmn.uid = p.cmn.uid →
      Does s (.arrive p.ip.daddr p.cmn.uid nf ttl o)
        (handled p.ip.daddr p.cmn.direction s.clock f [p] 0)
  | lose {p : Packet K} : p ∈ s.inFlight → Does s (.lose p.cmn.uid) (discarded p)

theorem Does.concerns (h : Does s e δ) : Concerns e δ := by
  cases h with
  | launch _ _ hu =>
    refine ⟨fun m hm => ?_, fun u hm => ?_, ?_, fun q hq => ?_, ?_⟩
    · simpa [handled, Incident.touches] using hm
    · simpa [handled, Incident.touches, hu] using hm
    · simp [handled]
    · obtain rfl := List.eq_of_mem_replicate hq
      simp [Incident.touches, hu]
    · simp [Incident.touches]
  | arrive _ _ hu =>
    refine ⟨fun m hm => ?_, fun u hm => ?_, fun q hq => ?_, fun q hq => ?_, fun _ => rfl⟩
    · simpa [handled, Incident.touches] using hm
    · simpa [handled, Incident.touches, hu] using hm
    · obtain rfl := List.mem_singleton.mp hq
      simp [Incident.touches]
    · obtain rfl := List.eq_of_mem_replicate hq
      simp [Incident.touches, hu]
  | lose =>
    refine ⟨fun _ _ => rfl, fun _ _ => rfl, fun q hq => ?_, ?_, fun _ => rfl⟩
    · obtain rfl := List.mem_singleton.mp hq
      simp [Incident.touches]
    · simp [discarded]

/-- `t` gives `e` to read what `s` does. -/
structure Agree (e : Incident K) (s t : Net K) : Prop where
  clock : t.clock = s.clock
  numNODES : t.numNODES = s.numNODES
  neighborList : t.neighborList = s.neighborList
  agents : ∀ n, e.touches (.node n) = true → t.agents n = s.agents n
  inFlight : ∀ p ∈ s.inFlight, e.touches (.ant p.cmn.uid) = true → p ∈ t.inFlight
  uidcnt : e.touches .uids = true → t.uidcnt = s.uidcnt

/-- **Handlers are local.** -/
theorem Does.local (h : Does s e δ) (ha : Agree e s t) : Does t e δ := by
  have henv : ∀ o, t.env o = s.env o := by
    intro o
    simp [Net.env, ha.clock, ha.numNODES, ha.neighborList]
  cases h with
  | @launch n o f htimer hexec hu =>
    have hcnt : t.uidcnt = s.uidcnt := ha.uidcnt rfl
    have hn : t.agents n = s.agents n := ha.agents n (by simp [Incident.touches])
    rw [← hcnt, ← ha.clock]
    refine .launch (by rw [hn]; exact htimer) ?_ (by rw [hcnt]; exact hu)
    rw [henv, hcnt, hn]
    exact hexec
  | @arrive p nf ttl o f hp hexec hu =>
    have hn : t.agents p.ip.daddr = s.agents p.ip.daddr := ha.agents _ (by simp [Incident.touches])
    rw [← ha.clock]
    refine .arrive (ha.inFlight p hp (by simp [Incident.touches])) ?_ hu
    rw [henv, hn]
    exact hexec
  | @lose p hp => exact .lose (ha.inFlight p hp (by simp [Incident.touches]))

omit [Arithmetic K] [LinearOrder K] in
theorem SameNet.agree (h : SameNet s t) (e : Incident K) : Agree e s t where
  clock := h.clock
  numNODES := h.numNODES
  neighborList := h.neighborList
  agents n _ := by rw [h.agents]
  inFlight p hp _ := h.inFlight.mem_iff.mpr hp
  uidcnt _ := h.uidcnt

omit [Arithmetic K] [LinearOrder K] in
/-- An effect on other parts is not seen. -/
theorem Applied.agree (h : Applied δ s s') (hc : Concerns e δ) (hi : Indep Incident.touches e' e) :
    Agree e' s s' ∧ Agree e' s' s := by
  have hagents : ∀ n, e'.touches (.node n) = true → s'.agents n = s.agents n := by
    intro n hn
    rw [h.agents, hc.agent n (hi _ hn)]
    rfl
  have hcnt : e'.touches .uids = true → s'.uidcnt = s.uidcnt := by
    intro hu
    rw [h.uidcnt, hc.born (hi _ hu), Nat.add_zero]
  have hmem : ∀ p : Packet K, e'.touches (.ant p.cmn.uid) = true →
      (p ∈ s'.inFlight ↔ p ∈ s.inFlight) := fun p hp => h.mem_inFlight hc (hi _ hp)
  exact ⟨⟨h.clock, h.numNODES, h.neighborList, hagents, fun p hp ht => (hmem p ht).mpr hp, hcnt⟩,
    h.clock.symm, h.numNODES.symm, h.neighborList.symm, fun n hn => (hagents n hn).symm,
    fun p hp ht => (hmem p ht).mp hp, fun hu => (hcnt hu).symm⟩

/-! ## Steps and their effects -/

/-- The network, each step labelled with what happens. -/
def incidents (addNb : List Nsaddr → Nsaddr → List Nsaddr) : LTS (Net K) (Incident K) where
  init := Net.Initial
  step s e s' := ∃ l, incident s l = some e ∧ step addNb s l = some s'

omit [Arithmetic K] [LinearOrder K] in
theorem applied_settle (s : Net K) (n : Nsaddr) (dir : Dir) (f : Frame K) {taken fl : List (Packet K)}
    (born : Nat) (hfl : (taken ++ fl).Perm s.inFlight) :
    Applied (handled n dir s.clock f taken born) s
      (settle { s with inFlight := fl, uidcnt := s.uidcnt + born } n dir f) where
  clock := rfl
  numNODES := rfl
  neighborList := rfl
  starts := rfl
  agents m := by
    by_cases hm : m = n
    · subst hm
      simp [settle, handled]
    · simp [settle, handled, hm]
  uidcnt := rfl
  hist u := by
    by_cases hu : u = f.pkt.cmn.uid
    · subst hu
      simp [settle, handled]
    · simp [settle, handled, hu]
  inFlight := by
    rw [settle, handled, ← List.append_assoc]
    exact hfl.append_right _
  freed := .refl _
  dropped := .refl _
  lost := by simp [settle, handled]

omit [Arithmetic K] [LinearOrder K] in
theorem applied_lose {i : Nat} {p : Packet K} (hp : s.inFlight[i]? = some p) :
    Applied (discarded p) s
      { s with inFlight := s.inFlight.eraseIdx i, lost := s.lost ++ [p.cmn.uid] } := by
  obtain ⟨hi, rfl⟩ := List.getElem?_eq_some_iff.mp hp
  refine ⟨rfl, rfl, rfl, rfl, fun _ => rfl, rfl, ?_, ?_, ?_, ?_, .refl _⟩
  · simp [discarded]
  · simpa [discarded] using List.getElem_cons_eraseIdx_perm hi
  · simp [discarded]
  · simp [discarded]

/-- **A step does what its incident says.** -/
theorem does_of_step (hi : Inv s) (h : (incidents addNb).step s e s') :
    (∃ l, e = .command l ∧ l.isCommand = true ∧ step addNb s l = some s') ∨
      ∃ δ, Does s e δ ∧ Applied δ s s' := by
  obtain ⟨l, he, hs⟩ := h
  cases l with
  | expire n o =>
    obtain rfl := Option.some.inj he
    simp only [step] at hs
    split at hs
    · rename_i htimer
      split at hs
      · rename_i f hexec
        obtain ⟨d, q, hsent, hg⟩ := expire_exec hexec
        obtain ⟨dest, -, hgen⟩ := hsent.generated
        cases hs
        exact .inr ⟨_, .launch htimer hexec (by rw [hg.pkt, hgen.uid]),
          applied_settle s n .DOWN f 1 (.refl _)⟩
      · cases hs
    · cases hs
  | deliver i nf ttl o =>
    simp only [step] at hs
    split at hs
    · cases hs
    · rename_i p hp
      simp only [incident, hp, Option.map_some, Option.some.injEq] at he
      subst he
      have hmem := List.mem_of_getElem? hp
      obtain ⟨f, d, q, a, c, hexec, ho, hg⟩ := recv_exec hi.configured hi.ants hmem nf ttl o
      simp only [hexec] at hs
      cases hs
      obtain ⟨hlt, rfl⟩ := List.getElem?_eq_some_iff.mp hp
      refine .inr ⟨_, .arrive hmem hexec (by rw [hg.pkt, ho.uid]; rfl), ?_⟩
      exact applied_settle s _ _ f 0 (List.getElem_cons_eraseIdx_perm hlt)
  | lose i =>
    simp only [step] at hs
    split at hs
    · cases hs
    · rename_i p hp
      simp only [incident, hp, Option.map_some, Option.some.injEq] at he
      subst he
      cases hs
      exact .inr ⟨_, .lose (List.mem_of_getElem? hp), applied_lose hp⟩
  | addNeighbor | start | stop | setRFactor | setNumNodes | advance =>
    obtain rfl := Option.some.inj he
    exact .inl ⟨_, rfl, rfl, hs⟩

variable (addNb) in
/-- **What can be done is a step.** -/
theorem step_of_does (h : Does s e δ) : ∃ s', (incidents addNb).step s e s' ∧ Applied δ s s' := by
  cases h with
  | @launch n o f htimer hexec hu =>
    refine ⟨_, ⟨.expire n o, rfl, ?_⟩, applied_settle s n .DOWN f 1 (.refl _)⟩
    simp only [step, htimer, hexec, if_true]
  | @arrive p nf ttl o f hp hexec hu =>
    obtain ⟨i, hlt, rfl⟩ := List.getElem_of_mem hp
    have hget : s.inFlight[i]? = some s.inFlight[i] := List.getElem?_eq_getElem hlt
    refine ⟨_, ⟨.deliver i nf ttl o, by simp [incident, hget], ?_⟩,
      applied_settle s _ _ f 0 (List.getElem_cons_eraseIdx_perm hlt)⟩
    simp only [step, hget, hexec]
    rfl
  | @lose p hp =>
    obtain ⟨i, hlt, rfl⟩ := List.getElem_of_mem hp
    have hget : s.inFlight[i]? = some s.inFlight[i] := List.getElem?_eq_getElem hlt
    exact ⟨_, ⟨.lose i, by simp [incident, hget], by simp only [step, hget]⟩, applied_lose hget⟩

/-- Commands respect `SameNet`. -/
theorem command_same (hl : l.isCommand = true) (hst : SameNet s t) (hs : step addNb s l = some s') :
    ∃ t', step addNb t l = some t' ∧ SameNet s' t' := by
  cases l with
  | addNeighbor n₁ n₂ =>
    cases hs
    refine ⟨_, rfl, { hst with neighborList := ?_ }⟩
    simp [addNeighbor, hst.neighborList]
  | start n =>
    cases hs
    refine ⟨_, rfl, { hst with numNODES := ?_, agents := ?_, starts := ?_ }⟩
    · simp [hst.agents]
    · simp [setAgent, hst.agents, hst.neighborList]
    · simp [hst.starts, hst.neighborList]
  | stop n | setRFactor n _ | setNumNodes n _ =>
    cases hs
    refine ⟨_, rfl, { hst with agents := ?_ }⟩
    simp [setAgent, hst.agents]
  | advance time =>
    simp only [step] at hs
    split at hs
    · rename_i hle
      cases hs
      refine ⟨{ t with clock := time }, ?_, { hst with clock := rfl }⟩
      simp only [step, hst.clock, if_pos hle]
    · cases hs
  | expire | deliver | lose => cases hl

theorem net_of_incidents (h : (incidents addNb).Reachable s) : (net addNb).Reachable s := by
  refine LTS.reachable_induct (M := incidents addNb) (I := (net addNb).Reachable)
    (fun s h0 => LTS.reachable_init h0) ?_ h
  rintro a e b - ha ⟨l, -, hs⟩
  exact LTS.reachable_step ha hs

/-- What touches no part in common commutes. -/
theorem commutes_incidents :
    Commutes (incidents (K := K) addNb) Incident.touches SameNet where
  refl := SameNet.refl
  trans _ _ _ := SameNet.trans
  keeps := by
    rintro s t e s' hr hst hs
    rcases does_of_step (inv_reachable (net_of_incidents hr)) hs with
      ⟨l, rfl, hl, hstep⟩ | ⟨δ, hd, ha⟩
    · obtain ⟨t', ht, hst'⟩ := command_same hl hst hstep
      refine ⟨t', ⟨l, ?_, ht⟩, hst'⟩
      cases l <;> first | rfl | cases hl
    · obtain ⟨t', ht, ha'⟩ := step_of_does addNb (hd.local (hst.agree e))
      exact ⟨t', ht, ha.same ha' hst⟩
  swaps := by
    rintro s e e' s₁ s₂ hr hi hs hs'
    have hr' := LTS.reachable_step hr hs
    -- a command touches everything, so neither is one
    rcases does_of_step (inv_reachable (net_of_incidents hr)) hs with ⟨l, rfl, -⟩ | ⟨δ, hd, ha⟩
    · obtain ⟨p, hp⟩ := touches_some e'
      rw [hi p rfl] at hp
      cases hp
    rcases does_of_step (inv_reachable (net_of_incidents hr')) hs' with ⟨l, rfl, -⟩ | ⟨ε, hd', ha'⟩
    · obtain ⟨p, hp⟩ := touches_some e
      cases hi p hp
    obtain ⟨t₁, ht₁, g₁⟩ := step_of_does addNb (hd'.local (ha.agree hd.concerns hi.symm).2)
    obtain ⟨t₂, ht₂, g₂⟩ := step_of_does addNb (hd.local (g₁.agree hd'.concerns hi).1)
    exact ⟨t₁, t₂, ht₁, ht₂, ha.swap ha' g₁ g₂ hd.concerns hd'.concerns hi⟩

/-- The incidents of a run. -/
def incidentsAlong (addNb : List Nsaddr → Nsaddr → List Nsaddr) :
    Net K → List (Act K) → List (Incident K)
  | _, [] => []
  | s, l :: ls =>
    match incident s l, step addNb s l with
    | some e, some s' => e :: incidentsAlong addNb s' ls
    | _, _ => []

theorem run_incidents {ls : List (Act K)} (h : (net addNb).Run s ls s') :
    (incidents addNb).Run s (incidentsAlong addNb s ls) s' := by
  induction h with
  | nil => exact .nil _
  | @cons a b c l ls hs _ ih =>
    have hstep : step addNb a l = some b := hs
    obtain ⟨e, he⟩ : ∃ e, incident a l = some e := by
      cases l with
      | deliver i | lose i =>
        simp only [step] at hstep
        split at hstep
        · cases hstep
        · rename_i p hp
          simp [incident, hp]
      | _ => exact ⟨_, rfl⟩
    simp only [incidentsAlong, he, hstep]
    exact .cons ⟨l, he, hs⟩ ih

theorem run_of_incidents {es : List (Incident K)} (h : (incidents addNb).Run s es s') :
    ∃ ls, (net addNb).Run s ls s' ∧ incidentsAlong addNb s ls = es := by
  induction h with
  | nil => exact ⟨[], .nil _, rfl⟩
  | @cons a b c e es hs _ ih =>
    obtain ⟨l, he, hstep⟩ := hs
    obtain ⟨ls, hrun, hes⟩ := ih
    exact ⟨l :: ls, .cons hstep hrun, by simp only [incidentsAlong, he, hstep, hes]⟩

theorem incidents_of_net (h : (net addNb).Reachable s) : (incidents addNb).Reachable s := by
  obtain ⟨s₀, ls, h0, hrun⟩ := h
  exact ⟨s₀, _, h0, run_incidents hrun⟩

/-- **The order at different nodes does not matter.** Take any run, and any
list of incidents that looks the same to every node, to every ant and to the
counter of `uid`s. That is a run of the network too, and it leaves the same
tables, the same ants with the same memories, and the same histories. -/
theorem interleavings {s₀ : Net K} (hr : (net addNb).Reachable s₀) {ls : List (Act K)}
    (hrun : (net addNb).Run s₀ ls s) {es : List (Incident K)}
    (hview : ∀ p, view Incident.touches p (incidentsAlong addNb s₀ ls) = view Incident.touches p es) :
    ∃ ls' s', (net addNb).Run s₀ ls' s' ∧ incidentsAlong addNb s₀ ls' = es ∧ SameNet s s' := by
  have hre := reordered_of_views touches_some hview
  obtain ⟨s', hrun', hsame⟩ :=
    run_reordered commutes_incidents hre (incidents_of_net hr) (run_incidents hrun)
  obtain ⟨ls', hnet, hes⟩ := run_of_incidents hrun'
  exact ⟨ls', s', hnet, hes, hsame⟩

end Step

/-! ## Two nodes -/

/-- Ant 0 leaves node 0, ant 1 leaves node 2, then ant 0 gets to node 1. -/
def twoNodes : List (Act ℚ) := [.expire 0 (idle [2]), .expire 2 (idle [0]), .deliver 0 0 5 (idle [])]

/-- Ant 0 may as well have got to node 1 before. -/
theorem interleavings_line : ∃ s₀ s : Net ℚ, (net prependNb).Reachable s₀ ∧
    (net prependNb).Run s₀ twoNodes s ∧ ∃ ls' s', (net prependNb).Run s₀ ls' s' ∧
      incidentsAlong prependNb s₀ ls' =
        [.launch 0 0 (idle [2]), .arrive 1 0 0 5 (idle []), .launch 2 1 (idle [0])] ∧
      SameNet s s' := by
  have hrun : (runActs prependNb Net.boot (lineUp : List (Act ℚ))).bind (fun s₀ =>
      (step prependNb s₀ (.expire 0 (idle [2]))).bind fun s₁ =>
      (step prependNb s₁ (.expire 2 (idle [0]))).bind fun s₂ =>
      (step prependNb s₂ (.deliver 0 0 5 (idle []))).map fun _ =>
        decide (s₀.uidcnt = 0 ∧ s₁.uidcnt = 1 ∧
          (s₂.inFlight[0]?).map (fun p => (p.ip.daddr, p.cmn.uid)) = some (1, 0))) = some true := by
    decide +kernel
  obtain ⟨s₀, h0, hrun⟩ := Option.bind_eq_some_iff.mp hrun
  obtain ⟨s₁, h1, hrun⟩ := Option.bind_eq_some_iff.mp hrun
  obtain ⟨s₂, h2, hrun⟩ := Option.bind_eq_some_iff.mp hrun
  obtain ⟨s, h3, hres⟩ := Option.map_eq_some_iff.mp hrun
  obtain ⟨hnone, hone, hfirst⟩ := of_decide_eq_true hres
  obtain ⟨p, hp, hpair⟩ := Option.map_eq_some_iff.mp hfirst
  obtain ⟨hdaddr, huid⟩ := Prod.mk.inj hpair
  have hr := runActs_reachable boot_initial h0
  have hrun : (net prependNb).Run s₀ twoNodes s := .cons h1 (.cons h2 (.cons h3 (.nil s)))
  have hes : incidentsAlong prependNb s₀ twoNodes =
      [.launch 0 0 (idle [2]), .launch 2 1 (idle [0]), .arrive 1 0 0 5 (idle [])] := by
    simp only [twoNodes, incidentsAlong, incident, h1, h2, h3, hp, hnone, hone, hdaddr, huid,
      Option.map_some]
  have hindep : Indep Incident.touches (.launch 2 1 (idle [0]) : Incident ℚ)
      (.arrive 1 0 0 5 (idle [])) := by
    intro q hq
    cases q with
    | node m =>
      simp only [Incident.touches, decide_eq_true_eq] at hq
      simp [Incident.touches, hq]
    | ant v =>
      simp only [Incident.touches, decide_eq_true_eq] at hq
      simp [Incident.touches, hq]
    | uids => rfl
  refine ⟨s₀, s, hr, hrun, interleavings hr hrun fun q => ?_⟩
  rw [hes, ← List.singleton_append, view_append, view_swap hindep, ← view_append, List.singleton_append]

end AntNet.L4
