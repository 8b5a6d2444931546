import AntNet.L4Network.Links

/-!
# The way back

A forward ant that reaches its destination with memory `m_0, ..., m_k` turns
into a backward ant. `WayBack s u m h₀ vs` says where ant `u` is after the
deliveries `vs` since the turn: it was delivered to `m_{k-1}`, `m_{k-2}`, ...
in this order, and is in flight to the next entry, or freed at `m_0`.

* `wayBack_step`: what a step keeps of it, unless a link loses the ant.
* `wayBack_home`: in an infinite run whose links deliver the ant, it is home
  after `k` hops.
* `retraces_path`: both, from the delivery at the destination on; the index
  guard of `backward_ant_pkt` never drops the ant, and every hop is a link.
-/
namespace AntNet.L4

open AntNet.L1 AntNet.L2 AntNet.L3 AntNet.LoopErasure

variable {K : Type}

/-- The step does not lose packet `u`. -/
def Keeps (u : Nat) (s : Net K) : Act K → Prop
  | .lose i => (s.inFlight[i]?).map (·.cmn.uid) ≠ some u
  | _ => True

instance (u : Nat) (s : Net K) (l : Act K) : Decidable (Keeps u s l) := by
  cases l <;> unfold Keeps <;> infer_instance

/-- The step delivers packet `u`. -/
def Delivers (u : Nat) (s : Net K) (l : Act K) : Prop :=
  ∃ i nf ttl o p, l = .deliver i nf ttl o ∧ s.inFlight[i]? = some p ∧ p.cmn.uid = u

/-- Packet `u` is delivered whenever it is in flight. -/
def LinksDeliver (u : Nat) (σ : Nat → Net K) (acts : Nat → Act K) : Prop :=
  ∀ t, (∃ p ∈ (σ t).inFlight, p.cmn.uid = u) → ∃ t', t ≤ t' ∧ Delivers u (σ t') (acts t')

/-- A delivery on the way back: one `update_table`, no drop. -/
structure Retraced (v : Visit K) : Prop where
  dir : v.dir = .UP
  update : v.log.count .updateTable = 1
  noDrop : ∀ why, Event.drop why ∉ v.log

/-- Where ant `u` is after the deliveries `vs`: on its way from `m_{j+1}` to
`m_j`, or freed by the last of them, after `k` hops. -/
inductive Place (s : Net K) (u : Nat) (m : List Nsaddr) (vs : List (Visit K)) : Prop where
  | onWay {p : Packet K} {j : Nat} : p ∈ s.inFlight → p.cmn.uid = u → p.cmn.direction = .UP →
      p.path = m → m[j]? = some p.ip.daddr → m[j + 1]? = some p.ip.saddr →
      j + 2 + vs.length = m.length → Place s u m vs
  | home {v : Visit K} : u ∈ s.freed → vs.getLast? = some v → Event.free ∈ v.log →
      vs.length + 1 = m.length → Place s u m vs

structure WayBack (s : Net K) (u : Nat) (m : List Nsaddr) (h₀ vs : List (Visit K)) : Prop where
  hist : s.hist u = h₀ ++ vs
  nodes : vs.map (·.node) = m.reverse.tail.take vs.length
  visits : ∀ v ∈ vs, Retraced v
  place : Place s u m vs

/-! ## One delivery -/

section Delivery

/-- The next node on the way back. -/
theorem nodes_snoc {m : List Nsaddr} {vs : List (Visit K)} {v : Visit K} {j : Nat}
    (h : vs.map (·.node) = m.reverse.tail.take vs.length) (hj : j + 2 + vs.length = m.length)
    (hv : m[j]? = some v.node) :
    (vs ++ [v]).map (·.node) = m.reverse.tail.take (vs ++ [v]).length := by
  have hnext : m.reverse.tail[vs.length]? = some v.node := by
    rw [List.getElem?_tail, List.getElem?_reverse (by omega), ← hv]
    congr 1
    omega
  rw [List.map_append, h, List.length_append, List.length_singleton, List.take_add_one, hnext]
  rfl

theorem count_updateTable {d : Event} {p : Packet K} {j : Nat} {next : Nsaddr} {log : List Event}
    (h : Ended d (updateLog p j next) log) (hd : d.disposes = true) :
    log.count .updateTable = 1 := by
  obtain ⟨pre, rfl, -, hc⟩ := h
  have hpre : pre.count .updateTable = (calls pre).count .updateTable := by
    unfold calls
    rw [List.count_filter rfl]
  have hd' : d ≠ .updateTable := by rintro rfl; cases hd
  rw [List.count_append, hpre, hc, updateLog, List.count_cons_self, List.count_singleton,
    if_neg (by simpa using hd'), Nat.add_zero]
  have : (updateCalls next (p.path.drop (j + 1))).count .updateTable = 0 := by
    apply List.count_eq_zero.mpr
    intro hm
    obtain ⟨_, -, he⟩ := List.mem_map.mp hm
    cases he
  omega

theorem retraced_of_ended {d : Event} {p : Packet K} {j : Nat} {next n : Nsaddr} {t : K}
    {log : List Event} (h : Ended d (updateLog p j next) log) (hd : d.disposes = true)
    (hdrop : ∀ why, d ≠ .drop why) : Retraced ⟨n, .UP, t, log⟩ :=
  ⟨rfl, count_updateTable h hd, fun why => h.drop_not_mem (hdrop why)⟩

end Delivery

section Step

variable [Arithmetic K] [LinearOrder K] {addNb : List Nsaddr → Nsaddr → List Nsaddr} {s s' : Net K}
  {l : Act K} {u : Nat} {m : List Nsaddr} {h₀ vs : List (Visit K)}

/-- The place of a backward ant after its delivery at `m_j`: freed at `m_0`, on
its way to `m_{j-1}` elsewhere. -/
theorem place_received (hi : Inv s) {p q : Packet K} {j i : Nat} {nf ttl : Int} {o : Oracle K}
    {d : Event} {a : Antnet K} {c log : List Event} (hp : p ∈ s.inFlight)
    (hup : p.cmn.direction = .UP) (hj : p.path[j]? = some p.ip.daddr)
    (hlen : j + 2 + vs.length = p.path.length)
    (ho : Outcome (s.env o) (s.agents p.ip.daddr) (arrive p nf ttl) d q a c)
    (hlog : Ended d c log) :
    Place (finish { s with inFlight := s.inFlight.eraseIdx i } p.ip.daddr p.cmn.direction d q a log)
      p.cmn.uid p.path (vs ++ [⟨p.ip.daddr, .UP, s.clock, log⟩]) := by
  obtain ⟨v, -, hw⟩ := hi.ants p hp
  have haddr := hi.configured.addr p.ip.daddr
  have hjlt := (List.getElem?_eq_some_iff.mp hj).1
  have hq : q.cmn.uid = p.cmn.uid := ho.uid
  rcases (ho.up hup).2 with ⟨rfl, hat⟩ | ⟨rfl, i', prev, hprev, hat, rfl⟩
  · -- the destination of a backward ant is `m_0`
    have h0 : p.path[0]? = some p.ip.daddr := by
      rw [← List.head?_eq_getElem?, (hw.homebound hup).dst, ← haddr]
      exact congrArg some hat.symm
    have hj0 : j = 0 := (List.getElem?_inj hjlt hw.nodup).mp (hj.trans h0.symm)
    obtain ⟨pre, hpre, -, -⟩ := hlog
    refine .home (List.mem_append_right _ ?_) (List.getLast?_concat ..) ?_ ?_
    · rw [if_pos rfl, hq]; exact List.mem_singleton_self _
    · rw [hpre]; exact List.mem_append_right _ (List.mem_singleton_self _)
    · rw [List.length_append, List.length_singleton]; omega
  · have hat' : p.path[i' + 1]? = some p.ip.daddr := haddr ▸ hat
    have hj' : j = i' + 1 := (List.getElem?_inj hjlt hw.nodup).mp (hj.trans hat'.symm)
    refine .onWay (List.mem_append_right _ ?_) hq rfl rfl hprev hat ?_
    · rw [if_pos rfl]; exact List.mem_singleton_self _
    · rw [List.length_append, List.length_singleton]; omega

/-- What a step keeps of the way back, when it does not lose the ant. -/
theorem wayBack_step (hi : Inv s) (h : WayBack s u m h₀ vs) (hk : Keeps u s l)
    (ht : Trans addNb s l s') : ∃ vs', WayBack s' u m h₀ vs' := by
  cases h.place with
  | @onWay p j hp hu hup hm hj hj1 hlen =>
    subst hu hm
    cases trans_went ht hi.ledger hp with
    | stayed hp' hh =>
      exact ⟨vs, hh.trans h.hist, h.nodes, h.visits, .onWay hp' rfl hup rfl hj hj1 hlen⟩
    | @received i nf ttl o q d a c log _ _ ho hlog hs' =>
      subst hs'
      obtain ⟨⟨j', next, rfl⟩, hd⟩ := ho.up hup
      have hq : q.cmn.uid = p.cmn.uid := ho.uid
      have hdrop : ∀ why, d ≠ .drop why := by
        rintro why rfl
        rcases hd with ⟨hd, -⟩ | ⟨hd, -⟩ <;> cases hd
      refine ⟨vs ++ [⟨p.ip.daddr, .UP, s.clock, log⟩], ?_, nodes_snoc h.nodes hlen hj,
        ?_, place_received hi hp hup hj hlen ho hlog⟩
      · rw [← hq, finish_hist, hup]
        show s.hist q.cmn.uid ++ _ = _
        rw [hq, h.hist, List.append_assoc]
      · intro w hw
        rcases List.mem_append.mp hw with h0 | h1
        · exact h.visits w h0
        · rw [List.mem_singleton.mp h1]
          exact retraced_of_ended hlog ho.disposes hdrop
    | lost hl hp' =>
      subst hl
      exact absurd (by rw [hp']; rfl) hk
  | home hu hlast hfree hlen =>
    obtain ⟨hu', hh⟩ := trans_freed ht hi.ledger hu
    exact ⟨vs, hh.trans h.hist, h.nodes, h.visits, .home hu' hlast hfree hlen⟩

theorem wayBack_run {ls : List (Act K)} (hr : (net addNb).Reachable s)
    (h : WayBack s u m h₀ vs) (hrun : ((net addNb).guard (Keeps u)).Run s ls s') :
    ∃ vs', WayBack s' u m h₀ vs' :=
  LTS.run_guard_induct (I := fun s => ∃ vs, WayBack s u m h₀ vs) hr hrun ⟨vs, h⟩
    fun _ _ _ ha ⟨_, hw⟩ hk hs => wayBack_step (inv_reachable ha) hw hk (trans_of_reachable ha hs)

omit [Arithmetic K] [LinearOrder K] in
/-- The ant is in one place, so nobody dropped it. -/
theorem WayBack.not_dropped (hi : Inv s) (h : WayBack s u m h₀ vs) : u ∉ s.dropped := by
  apply hi.ledger.not_dropped
  cases h.place with
  | onWay hp hu => exact .inr ⟨_, hp, hu⟩
  | home hu => exact .inl hu

omit [Arithmetic K] [LinearOrder K] in
/-- The ant turned, so it was in flight, and its path is its memory. -/
theorem WayBack.nodup (hi : Inv s) (h : WayBack s u m h₀ []) : m.Nodup := by
  cases h.place with
  | onWay hp _ _ hm =>
    obtain ⟨v, -, hw⟩ := hi.ants _ hp
    exact hm ▸ hw.nodup
  | home _ hlast => cases hlast

/-! ## The turn -/

/-- At its destination the ant turns, with the memory that `memorize` left. -/
theorem wayBack_turn (hr : (net addNb).Reachable s) {i : Nat} {nf ttl : Int} {o : Oracle K}
    {p : Packet K} {f : Frame K} (hp : s.inFlight[i]? = some p) (hd : p.cmn.direction = .DOWN)
    (hdst : p.ip.daddr = p.ant.pktDst)
    (hm : (memorize (s.env o)).exec ⟨arrive p nf ttl, s.agents p.ip.daddr, []⟩ = (.ok true, f))
    (hs : (net addNb).step s (.deliver i nf ttl o) s') :
    WayBack s' p.cmn.uid f.pkt.path (s'.hist p.cmn.uid) [] := by
  have hi := inv_reachable hr
  have haddr := hi.configured.addr p.ip.daddr
  obtain ⟨v, -, hw⟩ := hi.ants p (List.mem_of_getElem? hp)
  obtain ⟨r, ⟨hr', hfull⟩, hat⟩ := (memorize_spec (s.env o) (wellFormed_arrive hw nf ttl).size).returned
    (at_start (arrive p nf ttl) (s.agents p.ip.daddr)) hm
  cases trans_of_reachable hr hs with
  | command hl => cases hl
  | @deliver _ _ _ _ p' q d a c log hp' ho hlog =>
    rw [hp] at hp'
    cases hp'
    obtain ⟨rfl, hup, hpath, j, hj, hprev, hsaddr⟩ :=
      ho.turned hd (haddr.trans hdst) hfull
    have hq : q.path = f.pkt.path := by rw [hpath, hat.pkt, hr'.path]
    have hlast : q.path[j + 1]? = some q.ip.saddr := by
      rw [show j + 1 = q.path.length - 1 by omega, ← List.getLast?_eq_getElem?, hpath,
        getLast?_revisit, hsaddr]
    refine ⟨(List.append_nil _).symm, rfl, nofun, .onWay (List.mem_append_right _ ?_) ho.uid hup hq
      (hq ▸ hprev) (hq ▸ hlast) (hq ▸ hj)⟩
    rw [if_pos rfl]
    exact List.mem_singleton_self _

/-! ## Fair links -/

/-- A delivery of `u` is on record. -/
theorem hist_of_delivers (ht : Trans addNb s l s') (hd : Delivers u s l) :
    (s.hist u).length < (s'.hist u).length := by
  obtain ⟨i, nf, ttl, o, p, rfl, hp, rfl⟩ := hd
  cases ht with
  | command hl => cases hl
  | @deliver _ _ _ _ p' q d a c log hp' ho hlog =>
    rw [hp] at hp'
    cases hp'
    have hq : q.cmn.uid = p.cmn.uid := ho.uid
    rw [← hq, finish_hist, List.length_append]
    exact Nat.lt_succ_self _

theorem hist_mono (ht : Trans addNb s l s') : (s.hist u).length ≤ (s'.hist u).length := by
  cases trans_hist ht u with
  | same he => rw [he]
  | sent _ _ _ _ he | received _ _ _ _ _ he =>
    rw [he, List.length_append]; exact Nat.le_add_right _ _

/-- With links that deliver, the ant gets home. -/
theorem wayBack_home (hr : (net addNb).Reachable s) (h : WayBack s u m h₀ vs)
    {σ : Nat → Net K} {acts : Nat → Act K} (h0 : σ 0 = s)
    (hinf : ((net addNb).guard (Keeps u)).Infinite σ acts) (hl : LinksDeliver u σ acts) :
    ∃ t vs', WayBack (σ t) u m h₀ vs' ∧ u ∈ (σ t).freed ∧ vs'.length + 1 = m.length := by
  subst h0
  have hreach : ∀ t, (net addNb).Reachable (σ t) :=
    LTS.infinite_reachable hr fun t => (hinf t).2
  have hback : ∀ t, ∃ vs, WayBack (σ t) u m h₀ vs := fun t =>
    (LTS.infinite_run hinf t).elim fun _ hrun => wayBack_run hr h hrun
  have htrans : ∀ t, Trans addNb (σ t) (acts t) (σ (t + 1)) := fun t =>
    trans_of_reachable (hreach t) (hinf t).2
  -- what is left of the way shrinks with every delivery
  refine LTS.eventually_of_measure (f := fun t => h₀.length + m.length - ((σ t).hist u).length)
    (fun t => Nat.sub_le_sub_left (hist_mono (htrans t)) _) fun t => ?_
  obtain ⟨vs, hw⟩ := hback t
  cases hw.place with
  | home hu _ _ hlen => exact .inl ⟨vs, hw, hu, hlen⟩
  | onWay hp hu =>
    obtain ⟨t', htt, hd⟩ := hl t ⟨_, hp, hu⟩
    have hlt := hist_of_delivers (htrans t') hd
    obtain ⟨vs', hw'⟩ := hback (t' + 1)
    have hlen : ((σ (t' + 1)).hist u).length < h₀.length + m.length := by
      rw [hw'.hist, List.length_append]
      cases hw'.place <;> omega
    exact .inr ⟨t', htt, by omega⟩

/-- **The way back retraces the recorded path.** -/
theorem retraces_path (hk : OnlyAdds addNb) (ha : AddsGiven addNb) (ho : AddsNoOther addNb)
    (hr : (net addNb).Reachable s) {i : Nat} {nf ttl : Int} {o : Oracle K} {p : Packet K}
    {f : Frame K} (hp : s.inFlight[i]? = some p) (hd : p.cmn.direction = .DOWN)
    (hdst : p.ip.daddr = p.ant.pktDst)
    (hm : (memorize (s.env o)).exec ⟨arrive p nf ttl, s.agents p.ip.daddr, []⟩ = (.ok true, f))
    (hs : (net addNb).step s (.deliver i nf ttl o) s') :
    f.pkt.path.Nodup ∧
    (∀ ls s₂, ((net addNb).guard (Keeps p.cmn.uid)).Run s' ls s₂ →
      (∃ vs, WayBack s₂ p.cmn.uid f.pkt.path (s'.hist p.cmn.uid) vs) ∧ p.cmn.uid ∉ s₂.dropped ∧
        ∀ (i₂ : Nat) p₂, s₂.inFlight[i₂]? = some p₂ → p₂.cmn.uid = p.cmn.uid →
          p₂.ip.daddr ∈ s₂.neighborList p₂.ip.saddr ∧
          ∀ nf ttl o, ∃ s₃, (net addNb).step s₂ (.deliver i₂ nf ttl o) s₃) ∧
    ∀ σ acts, σ 0 = s' → ((net addNb).guard (Keeps p.cmn.uid)).Infinite σ acts →
      LinksDeliver p.cmn.uid σ acts → ∃ t vs,
        WayBack (σ t) p.cmn.uid f.pkt.path (s'.hist p.cmn.uid) vs ∧ p.cmn.uid ∈ (σ t).freed ∧
        vs.map (·.node) = f.pkt.path.reverse.tail := by
  have hr' := LTS.reachable_step hr hs
  have hw := wayBack_turn hr hp hd hdst hm hs
  refine ⟨hw.nodup (inv_reachable hr'), ?_, ?_⟩
  · intro ls s₂ hrun
    have hr₂ := LTS.reachable_run_guard hr' hrun
    have hi₂ := inv_reachable hr₂
    obtain ⟨vs, hw₂⟩ := wayBack_run hr' hw hrun
    refine ⟨⟨vs, hw₂⟩, hw₂.not_dropped hi₂, fun i₂ p₂ hp₂ _ => ⟨?_, fun nf ttl o => ?_⟩⟩
    · exact hop_neighbor hk ha ho hr₂ (List.mem_of_getElem? hp₂)
    · exact step_deliver hi₂.configured hi₂.ants hp₂ nf ttl o
  · intro σ acts h0 hinf hl
    obtain ⟨t, vs, hw', hu, hlen⟩ := wayBack_home hr' hw h0 hinf hl
    refine ⟨t, vs, hw', hu, ?_⟩
    rw [hw'.nodes, List.take_of_length_le]
    rw [List.length_tail, List.length_reverse]
    omega

end Step

/-- The line, and an ant of 0 about to arrive at its destination 2. -/
def antTo2 : List (Act ℚ) := lineUp ++ [.expire 0 (idle [0, 2]), .deliver 0 0 9 (idle [])]

/-- On the way back of that ant another one leaves, and a node is added. -/
theorem retraces_path_line : ∃ s s' s₂ : Net ℚ, ∃ later, (net prependNb).Reachable s ∧
    (net prependNb).step s (.deliver 0 0 9 (idle [])) s' ∧
    ((net prependNb).guard (Keeps 0)).Run s' later s₂ ∧
    (s₂.freed, s₂.inFlight.map (·.cmn.uid)) = ([0], [1]) ∧
    ∃ vs, WayBack s₂ 0 [0, 1, 2] (s'.hist 0) vs := by
  have hant : (runActs prependNb Net.boot antTo2).map (fun s => s.inFlight.map fun p =>
      (p.cmn.direction, p.ip.daddr, p.ant.pktDst, p.cmn.uid)) = some [(.DOWN, 2, 2, 0)] := by
    decide +kernel
  have hmemory : (runActs prependNb Net.boot antTo2).map (fun s => s.inFlight.map fun p =>
      let r := (memorize (s.env (idle []))).exec ⟨arrive p 0 9, s.agents p.ip.daddr, []⟩
      (r.1.toOption, r.2.pkt.path)) = some [(some true, [0, 1, 2])] := by decide +kernel
  have hback : (runActs prependNb Net.boot antTo2).bind (fun s =>
      (step prependNb s (.deliver 0 0 9 (idle []))).bind fun s' =>
        (LTS.execGuarded (step prependNb) (Keeps 0) s' [.expire 2 (idle [0]), .addNeighbor 1 5,
          .deliver 0 0 9 (idle []), .deliver 1 0 9 (idle [])]).map fun s₂ =>
            (s₂.freed, s₂.inFlight.map (·.cmn.uid))) = some ([0], [1]) := by decide +kernel
  obtain ⟨s, hs, h1⟩ := Option.bind_eq_some_iff.mp hback
  obtain ⟨s', hs', h2⟩ := Option.bind_eq_some_iff.mp h1
  obtain ⟨s₂, hs₂, hend⟩ := Option.map_eq_some_iff.mp h2
  rw [hs] at hant hmemory
  obtain ⟨p, hp, hpe⟩ := List.map_eq_singleton_iff.mp (Option.some.inj hant)
  simp only [Prod.mk.injEq] at hpe
  obtain ⟨hd, hdaddr, hdst, huid⟩ := hpe
  rw [Option.map_some, hp] at hmemory
  simp only [List.map_cons, List.map_nil, Option.some.injEq, List.cons.injEq, Prod.mk.injEq,
    and_true] at hmemory
  obtain ⟨hok, hpath⟩ := hmemory
  have hafter : ((net prependNb).guard (Keeps 0)).Run s' _ s₂ := LTS.run_of_execGuarded _ _ _ hs₂
  have hr := runActs_reachable boot_initial hs
  obtain ⟨hret, -⟩ := (retraces_path prependNb_onlyAdds prependNb_addsGiven
    prependNb_addsNoOther hr (by rw [hp]; rfl) hd (hdaddr.trans hdst.symm)
    (Prog.exec_eq_ok hok) hs').2.1 _ s₂ (huid ▸ hafter)
  rw [huid, hpath] at hret
  exact ⟨s, s', s₂, _, hr, hs', hafter, hend, hret⟩

end AntNet.L4
