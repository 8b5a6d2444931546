import AntNet.L4Network.Agents

/-!
# The invariant of the network

`Inv` holds in every reachable state, with no assumption on `addNb`, the
topology, the queues or the draws:

* every uid handed out is in exactly one place: in flight, freed, dropped by
  an agent, or lost by a link (`ledger`);
* every ant in flight is well formed, its path made of links that are in some
  row of the node before (`ants`);
* its memory is the loop erasure of the nodes it was delivered to on its way
  out (`walk`).

One lemma for each clause says what a step preserves; `inv_reachable` is the
run lemma. `ants_induct` is the rule for what else holds of the ants in flight.
-/
namespace AntNet.L4

open AntNet.L1 AntNet.L2 AntNet.L3 AntNet.LoopErasure

variable {K : Type}

/-- The nodes a packet was delivered to as a forward ant, in order. -/
def walk (h : List (Visit K)) : List Nsaddr := (h.filter fun v => v.dir = .DOWN).map (·.node)

/-- Where every ant handed a uid is. -/
def Net.places (s : Net K) : List Nat := s.inFlight.map (·.cmn.uid) ++ s.freed ++ s.dropped ++ s.lost

/-- Every uid handed out is in exactly one place, no other uid is in any. -/
def Ledger (s : Net K) : Prop := ∀ u, s.places.count u = if u < s.uidcnt then 1 else 0

structure Inv (s : Net K) : Prop where
  configured : Configured s
  ledger : Ledger s
  fresh : ∀ u, s.uidcnt ≤ u → s.hist u = []
  ants : AntsOk s
  walk : ∀ p ∈ s.inFlight, p.path = loopErase (L4.walk (s.hist p.cmn.uid))

theorem walk_snoc_down (h : List (Visit K)) {v : Visit K} (hv : v.dir = .DOWN) :
    walk (h ++ [v]) = walk h ++ [v.node] := by
  simp [walk, List.filter_append, hv]

theorem walk_snoc_up (h : List (Visit K)) {v : Visit K} (hv : v.dir = .UP) :
    walk (h ++ [v]) = walk h := by
  simp [walk, List.filter_append, hv]

/-! ## Where the packets are -/

section Places

variable {s : Net K}

/-- A disposal puts the packet's uid in one place. -/
theorem places_finish (n : Nsaddr) (dir : Dir) {d : Event} (hd : d.disposes = true) (q : Packet K)
    (a : Antnet K) (log : List Event) :
    ∀ u, (finish s n dir d q a log).places.count u = s.places.count u + [q.cmn.uid].count u := by
  intro u
  unfold finish Net.places
  cases d with
  | send | free | drop =>
    simp only [Event.isDrop, List.map_append, List.count_append, reduceCtorEq, if_true, if_false,
      List.map_cons, List.map_nil, List.count_nil, Bool.false_eq_true]
    omega
  | read | write | memRead | memWrite | updateTable | rtUpdate => cases hd

theorem places_erase {i : Nat} {p : Packet K} (hp : s.inFlight[i]? = some p) (u : Nat) :
    ({ s with inFlight := s.inFlight.eraseIdx i } : Net K).places.count u + [p.cmn.uid].count u =
      s.places.count u := by
  obtain ⟨hi, rfl⟩ := List.getElem?_eq_some_iff.mp hp
  have hperm := ((List.getElem_cons_eraseIdx_perm hi).map (·.cmn.uid)).count_eq u
  unfold Net.places
  simp only [List.map_cons, List.count_cons, List.count_append, List.count_nil] at hperm ⊢
  omega

theorem places_lose {i : Nat} {p : Packet K} (hp : s.inFlight[i]? = some p) (u : Nat) :
    ({ s with inFlight := s.inFlight.eraseIdx i, lost := s.lost ++ [p.cmn.uid] } : Net K).places.count u
      = s.places.count u := by
  have := places_erase hp u
  unfold Net.places at this ⊢
  simp only [List.count_append] at this ⊢
  omega

theorem Ledger.nodup (h : Ledger s) : s.places.Nodup := by
  apply List.nodup_iff_count_le_one.mpr
  intro u
  rw [h u]
  split <;> omega

theorem Ledger.lt (h : Ledger s) {u : Nat} (hu : u ∈ s.places) : u < s.uidcnt := by
  have hpos : 0 < s.places.count u := List.count_pos_iff.mpr hu
  rw [h u] at hpos
  split at hpos
  · assumption
  · omega

theorem Ledger.uid_lt (h : Ledger s) {p : Packet K} (hp : p ∈ s.inFlight) :
    p.cmn.uid < s.uidcnt := by
  apply h.lt
  unfold Net.places
  simp only [List.append_assoc]
  exact List.mem_append_left _ (List.mem_map.mpr ⟨p, hp, rfl⟩)

/-- Two packets in flight have different uids. -/
theorem Ledger.uid_ne (h : Ledger s) {i : Nat} {p p' : Packet K} (hp : s.inFlight[i]? = some p)
    (hp' : p' ∈ s.inFlight.eraseIdx i) : p'.cmn.uid ≠ p.cmn.uid := by
  intro he
  obtain ⟨hi, rfl⟩ := List.getElem?_eq_some_iff.mp hp
  have hperm := (List.getElem_cons_eraseIdx_perm hi).map (·.cmn.uid)
  have hnd : (s.inFlight.map (·.cmn.uid)).Nodup := by
    have hplaces := h.nodup
    unfold Net.places at hplaces
    simp only [List.append_assoc] at hplaces
    exact (List.nodup_append.mp hplaces).1
  have hcons := List.nodup_cons.mp (hperm.nodup_iff.mpr hnd)
  exact hcons.1 (List.mem_map.mpr ⟨p', hp', he⟩)

/-- The places have no uid in common. -/
theorem Ledger.disjoint (h : Ledger s) :
    ((s.inFlight.map (·.cmn.uid)).Disjoint s.freed ∧ (s.inFlight.map (·.cmn.uid)).Disjoint s.lost ∧
      s.freed.Disjoint s.lost) ∧
    (s.inFlight.map (·.cmn.uid)).Disjoint s.dropped ∧ s.freed.Disjoint s.dropped := by
  have hplaces := h.nodup
  unfold Net.places at hplaces
  simp only [List.nodup_append', List.disjoint_append_left] at hplaces
  obtain ⟨⟨⟨-, -, hfreed⟩, -, hdropped⟩, -, ⟨hlost, hfl⟩, -⟩ := hplaces
  exact ⟨⟨hfreed, hlost, hfl⟩, hdropped⟩

theorem Ledger.not_inFlight (h : Ledger s) {u : Nat} (hu : u ∈ s.freed) {p : Packet K}
    (hp : p ∈ s.inFlight) : p.cmn.uid ≠ u :=
  fun he => h.disjoint.1.1 (List.mem_map.mpr ⟨p, hp, he⟩) hu

theorem Ledger.not_lost (h : Ledger s) {u : Nat} (hu : u ∈ s.lost) {p : Packet K}
    (hp : p ∈ s.inFlight) : p.cmn.uid ≠ u :=
  fun he => h.disjoint.1.2.1 (List.mem_map.mpr ⟨p, hp, he⟩) hu

theorem Ledger.not_freed (h : Ledger s) {u : Nat} (hu : u ∈ s.lost) : u ∉ s.freed :=
  fun hf => h.disjoint.1.2.2 hf hu

theorem Ledger.not_dropped (h : Ledger s) {u : Nat}
    (hu : u ∈ s.freed ∨ ∃ p ∈ s.inFlight, p.cmn.uid = u) : u ∉ s.dropped := by
  intro hd
  rcases hu with hu | ⟨p, hp, hpu⟩
  · exact h.disjoint.2.2 hu hd
  · exact h.disjoint.2.1 (List.mem_map.mpr ⟨p, hp, hpu⟩) hd

end Places

/-! ## What a step preserves -/

section Step

variable [Arithmetic K] [LinearOrder K] {addNb : List Nsaddr → Nsaddr → List Nsaddr} {s s' : Net K}
  {l : Act K}

theorem trans_ledger (h : Trans addNb s l s') (hs : Ledger s) : Ledger s' := by
  intro u
  cases h with
  | command hl hst =>
    obtain ⟨hp, -⟩ := command_cases hl hst
    have := hs u
    unfold Net.places at this ⊢
    rw [hp.inFlight, hp.freed, hp.dropped, hp.lost, hp.uidcnt]
    exact this
  | expire _ hsent _ =>
    obtain ⟨dest, -, hg⟩ := hsent.generated
    have h1 := hs u
    rw [places_finish _ _ hsent.disposes, hg.uid]
    show s.places.count u + _ = if u < s.uidcnt + 1 then 1 else 0
    simp only [h1, List.count_singleton, beq_iff_eq]
    split_ifs <;> omega
  | deliver hp ho _ =>
    have h1 := places_erase hp u
    have h2 := hs u
    rw [places_finish _ _ ho.disposes, ho.uid]
    show _ = if u < s.uidcnt then 1 else 0
    rw [← h2, ← h1]
    rfl
  | lose hp =>
    rw [places_lose hp]
    exact hs u

theorem trans_fresh (h : Trans addNb s l s') (hf : ∀ u, s.uidcnt ≤ u → s.hist u = [])
    (hs : Ledger s) :
    ∀ u, s'.uidcnt ≤ u → s'.hist u = [] := by
  intro u hu
  cases h with
  | command hl hst =>
    obtain ⟨hp, -⟩ := command_cases hl hst
    rw [hp.uidcnt] at hu
    rw [hp.hist]; exact hf u hu
  | @expire n o d q log _ hsent _ =>
    obtain ⟨dest, -, hg⟩ := hsent.generated
    change s.uidcnt + 1 ≤ u at hu
    have hne : u ≠ q.cmn.uid := by rw [hg.uid]; omega
    exact (Function.update_of_ne hne _ _).trans (hf u (by omega))
  | @deliver i nf ttl o p q d a c log hp ho _ =>
    change s.uidcnt ≤ u at hu
    have hlt := hs.uid_lt (List.mem_of_getElem? hp)
    have hq : q.cmn.uid = p.cmn.uid := ho.uid
    have hne : u ≠ q.cmn.uid := by omega
    exact (Function.update_of_ne hne _ _).trans (hf u hu)
  | lose hp => exact hf u hu

/-- How a packet in flight after a step came there: it was in flight and its
history is the same, it was generated, or it was sent on by the agent it was
delivered to. -/
inductive Came (s s' : Net K) (l : Act K) (q : Packet K) : Prop where
  | stayed : q ∈ s.inFlight → s'.hist q.cmn.uid = s.hist q.cmn.uid → Came s s' l q
  | born {n : Nsaddr} {o : Oracle K} {log : List Event} : l = .expire n o →
      Sent (s.env o) s.uidcnt (s.agents n) .send q →
      s'.hist q.cmn.uid = s.hist q.cmn.uid ++ [⟨n, .DOWN, s.clock, log⟩] → Came s s' l q
  | moved {i : Nat} {nf ttl : Int} {o : Oracle K} {p : Packet K} {a : Antnet K} {c log : List Event} :
      l = .deliver i nf ttl o → s.inFlight[i]? = some p →
      Outcome (s.env o) (s.agents p.ip.daddr) (arrive p nf ttl) .send q a c →
      s'.hist q.cmn.uid = s.hist q.cmn.uid ++ [⟨p.ip.daddr, p.cmn.direction, s.clock, log⟩] →
      Came s s' l q

theorem trans_inFlight (h : Trans addNb s l s')
    (hs : Ledger s) {q : Packet K}
    (hq : q ∈ s'.inFlight) : Came s s' l q := by
  cases h with
  | command hl hst =>
    obtain ⟨hp, -⟩ := command_cases hl hst
    exact .stayed (hp.inFlight ▸ hq) (congrFun hp.hist _)
  | @expire n o d r log _ hsent _ =>
    obtain ⟨dest, -, hg⟩ := hsent.generated
    rcases List.mem_append.mp hq with hm | hm
    · have hlt := hs.uid_lt hm
      exact .stayed hm (Function.update_of_ne (by rw [hg.uid]; omega) _ _)
    · split at hm
      · rename_i hd
        obtain rfl := List.mem_singleton.mp hm
        subst hd
        exact .born rfl hsent (Function.update_self ..)
      · cases hm
  | @deliver i nf ttl o p r d a c log hp ho _ =>
    have hr : r.cmn.uid = p.cmn.uid := ho.uid
    rcases List.mem_append.mp hq with hm | hm
    · have hne := hs.uid_ne hp hm
      exact .stayed (List.mem_of_mem_eraseIdx hm) (Function.update_of_ne (by rw [hr]; exact hne) _ _)
    · split at hm
      · rename_i hd
        obtain rfl := List.mem_singleton.mp hm
        subst hd
        exact .moved rfl hp ho (Function.update_self ..)
      · cases hm
  | lose hp => exact .stayed (List.mem_of_mem_eraseIdx hq) rfl

/-- What becomes of a packet in flight: it stays, and so does its history, or
the step delivers it or loses it. -/
inductive Went (s s' : Net K) (l : Act K) (p : Packet K) : Prop where
  | stayed : p ∈ s'.inFlight → s'.hist p.cmn.uid = s.hist p.cmn.uid → Went s s' l p
  | received {i : Nat} {nf ttl : Int} {o : Oracle K} {q : Packet K} {d : Event} {a : Antnet K}
      {c log : List Event} : l = .deliver i nf ttl o → s.inFlight[i]? = some p →
      Outcome (s.env o) (s.agents p.ip.daddr) (arrive p nf ttl) d q a c → Ended d c log →
      s' = finish { s with inFlight := s.inFlight.eraseIdx i } p.ip.daddr p.cmn.direction d q a log →
      Went s s' l p
  | lost {i : Nat} : l = .lose i → s.inFlight[i]? = some p → Went s s' l p

theorem trans_went (h : Trans addNb s l s')
    (hs : Ledger s) {p : Packet K}
    (hp : p ∈ s.inFlight) : Went s s' l p := by
  -- any other packet in flight is still there when entry `i` is taken out
  have hother : ∀ i p', s.inFlight[i]? = some p' → p' = p ∨
      p ∈ s.inFlight.eraseIdx i ∧ p.cmn.uid ≠ p'.cmn.uid := by
    intro i p' hi
    obtain ⟨hlt, rfl⟩ := List.getElem?_eq_some_iff.mp hi
    rcases List.mem_cons.mp ((List.getElem_cons_eraseIdx_perm hlt).mem_iff.mpr hp) with he | hm
    · exact .inl he.symm
    · exact .inr ⟨hm, hs.uid_ne hi hm⟩
  cases h with
  | command hl hst =>
    obtain ⟨hk, -⟩ := command_cases hl hst
    exact .stayed (hk.inFlight ▸ hp) (congrFun hk.hist _)
  | @expire n o d q log _ hsent _ =>
    obtain ⟨dest, -, hg⟩ := hsent.generated
    have hlt := hs.uid_lt hp
    exact .stayed (List.mem_append_left _ hp) (Function.update_of_ne (by rw [hg.uid]; omega) _ _)
  | @deliver i nf ttl o p' q d a c log hi ho hlog =>
    rcases hother i p' hi with rfl | ⟨hm, hne⟩
    · exact .received rfl hi ho hlog rfl
    · have hq : q.cmn.uid = p'.cmn.uid := ho.uid
      exact .stayed (List.mem_append_left _ hm) (Function.update_of_ne (by rw [hq]; exact hne) _ _)
  | @lose i p' hi =>
    rcases hother i p' hi with rfl | ⟨hm, -⟩
    · exact .lost rfl hi
    · exact .stayed hm rfl

/-- What a step adds to the history of a packet. -/
inductive HistStep (s : Net K) (l : Act K) (u : Nat) (h : List (Visit K)) : Prop where
  | same : h = s.hist u → HistStep s l u h
  | sent {n : Nsaddr} {o : Oracle K} {d : Event} {q : Packet K} {log : List Event} :
      l = .expire n o → Sent (s.env o) s.uidcnt (s.agents n) d q → q.cmn.uid = u → Ended d [] log →
      h = s.hist u ++ [⟨n, .DOWN, s.clock, log⟩] → HistStep s l u h
  | received {i : Nat} {nf ttl : Int} {o : Oracle K} {p q : Packet K} {d : Event} {a : Antnet K}
      {c log : List Event} : l = .deliver i nf ttl o → s.inFlight[i]? = some p →
      Outcome (s.env o) (s.agents p.ip.daddr) (arrive p nf ttl) d q a c → p.cmn.uid = u →
      Ended d c log → h = s.hist u ++ [⟨p.ip.daddr, p.cmn.direction, s.clock, log⟩] →
      HistStep s l u h

theorem trans_hist (h : Trans addNb s l s') (u : Nat) : HistStep s l u (s'.hist u) := by
  cases h with
  | command hl hst => exact .same (congrFun (command_cases hl hst).1.hist u)
  | @expire n o d q log _ hsent hlog =>
    by_cases hu : u = q.cmn.uid
    · subst hu
      exact .sent rfl hsent rfl hlog (Function.update_self ..)
    · exact .same (Function.update_of_ne hu _ _)
  | @deliver i nf ttl o p q d a c log hp ho hlog =>
    have hq : q.cmn.uid = p.cmn.uid := ho.uid
    by_cases hu : u = q.cmn.uid
    · subst hu
      exact .received rfl hp ho hq.symm hlog (Function.update_self ..)
    · exact .same (Function.update_of_ne hu _ _)
  | lose hp => exact .same rfl

/-- A visit on record after a step is an old one, or the run of a handler
that ended with its disposal. -/
theorem HistStep.mem {u : Nat} {h : List (Visit K)} (hs : HistStep s l u h) {v : Visit K}
    (hv : v ∈ h) : v ∈ s.hist u ∨ ∃ d c, Ended d c v.log ∧
      ((∃ n o q, Sent (s.env o) s.uidcnt (s.agents n) d q) ∨
        ∃ p ∈ s.inFlight, ∃ nf ttl o q a,
          Outcome (s.env o) (s.agents p.ip.daddr) (arrive p nf ttl) d q a c) := by
  cases hs with
  | same he => rw [he] at hv; exact .inl hv
  | sent _ hsent _ hlog he =>
    rw [he] at hv
    rcases List.mem_append.mp hv with h0 | h1
    · exact .inl h0
    · rw [List.mem_singleton.mp h1]
      exact .inr ⟨_, _, hlog, .inl ⟨_, _, _, hsent⟩⟩
  | received _ hp ho _ hlog he =>
    rw [he] at hv
    rcases List.mem_append.mp hv with h0 | h1
    · exact .inl h0
    · rw [List.mem_singleton.mp h1]
      exact .inr ⟨_, _, hlog, .inr ⟨_, List.mem_of_getElem? hp, _, _, _, _, _, ho⟩⟩

/-- No handler runs on a packet that is not in flight. -/
theorem trans_hist_of_settled (h : Trans addNb s l s') {u : Nat} (hu : u < s.uidcnt)
    (hno : ∀ p ∈ s.inFlight, p.cmn.uid ≠ u) : s'.hist u = s.hist u := by
  cases trans_hist h u with
  | same he => exact he
  | sent _ hsent hq =>
    obtain ⟨dest, -, hg⟩ := hsent.generated
    rw [← hq, hg.uid] at hu
    exact absurd hu (Nat.lt_irrefl _)
  | received _ hp _ hpu => exact absurd hpu (hno _ (List.mem_of_getElem? hp))

/-- A freed packet stays freed, and no handler runs on it. -/
theorem trans_freed (h : Trans addNb s l s')
    (hs : Ledger s) {u : Nat} (hu : u ∈ s.freed) :
    u ∈ s'.freed ∧ s'.hist u = s.hist u := by
  refine ⟨?_, trans_hist_of_settled h (hs.lt (by simp [Net.places, hu])) fun p => hs.not_inFlight hu⟩
  cases h with
  | command hl hst => rw [(command_cases hl hst).1.freed]; exact hu
  | expire | deliver => exact List.mem_append_left _ hu
  | lose => exact hu

/-- A lost packet stays lost, and no handler runs on it. -/
theorem trans_lost (h : Trans addNb s l s')
    (hs : Ledger s) {u : Nat} (hu : u ∈ s.lost) :
    u ∈ s'.lost ∧ s'.hist u = s.hist u := by
  refine ⟨?_, trans_hist_of_settled h (hs.lt (by simp [Net.places, hu])) fun p => hs.not_lost hu⟩
  cases h with
  | command hl hst => rw [(command_cases hl hst).1.lost]; exact hu
  | expire | deliver => exact hu
  | lose => exact List.mem_append_left _ hu

theorem trans_ants (h : Trans addNb s l s') (hi : Inv s) : AntsOk s' := by
  intro q hq
  have hlink : ∀ n d row y, (s.agents n).rtable d = some row → y ∈ neighbors row →
      s.routes (s.agents n).addr y := fun n d row y hrow hy => by
    rw [hi.configured.addr]; exact ⟨d, row, hrow, hy⟩
  cases trans_inFlight h hi.ledger hq with
  | stayed hm hh =>
    obtain ⟨v, hv, hw⟩ := hi.ants q hm
    exact ⟨v, by rw [hh]; exact hv, hw.mono (trans_routes h)⟩
  | @born n o log _ hsent hh =>
    obtain ⟨dest, -, hg⟩ := hsent.generated
    have hw := hsent.wellFormed ⟨hi.configured.herePort _, hi.configured.dstPort _⟩ (hlink _)
    rw [hi.configured.addr] at hw
    refine ⟨⟨n, .DOWN, s.clock, log⟩, ?_, hw.mono (trans_routes h)⟩
    rw [hh, hg.uid, hi.fresh _ (Nat.le_refl _)]
    rfl
  | @moved i nf ttl o p a c log _ hp ho hh =>
    obtain ⟨v, hv, hw⟩ := hi.ants p (List.mem_of_getElem? hp)
    have hw' := ho.wellFormed (wellFormed_arrive hw nf ttl) (hi.configured.addr _) (hlink _)
    have hu : q.cmn.uid = p.cmn.uid := ho.uid
    refine ⟨v, ?_, hw'.mono (trans_routes h)⟩
    rw [hh, hu, List.head?_append, hv]
    rfl

theorem trans_walk (h : Trans addNb s l s') (hi : Inv s) :
    ∀ p ∈ s'.inFlight, p.path = loopErase (walk (s'.hist p.cmn.uid)) := by
  intro q hq
  cases trans_inFlight h hi.ledger hq with
  | stayed hm hh => rw [hh]; exact hi.walk q hm
  | born _ hsent hh =>
    obtain ⟨dest, -, hg⟩ := hsent.generated
    rw [hh, hg.uid, hi.fresh _ (Nat.le_refl _), hsent.path, hi.configured.addr]
    simp [walk, loopErase, revisit]
  | @moved i nf ttl o p a c log _ hp ho hh =>
    have hu : q.cmn.uid = p.cmn.uid := ho.uid
    have hpath : (arrive p nf ttl).path = loopErase (walk (s.hist p.cmn.uid)) :=
      hi.walk p (List.mem_of_getElem? hp)
    rw [hh, hu]
    rcases ho.path with ⟨hd, hq⟩ | ⟨hup, hq⟩
    · rw [walk_snoc_down _ (by exact hd), loopErase_snoc, hq, hpath, hi.configured.addr]
    · rw [walk_snoc_up _ (by exact hup), hq, hpath]

/-! ## Runs -/

omit [Arithmetic K] [LinearOrder K] in
theorem inv_init {s : Net K} (h : s.Initial) : Inv s := by
  refine ⟨⟨h.addr, h.raAddr, h.herePort, h.dstPort⟩, ?_, fun u _ => h.hist u, ?_, ?_⟩
  · intro u
    unfold Net.places
    rw [h.inFlight, h.freed, h.dropped, h.lost, h.uidcnt]
    simp
  · intro p hp
    rw [h.inFlight] at hp; cases hp
  · intro p hp
    rw [h.inFlight] at hp; cases hp

theorem inv_step (hi : Inv s) (h : step addNb s l = some s') : Inv s' :=
  have ht := trans_of_step hi.configured hi.ants h
  ⟨trans_configured ht hi.configured, trans_ledger ht hi.ledger, trans_fresh ht hi.fresh hi.ledger,
    trans_ants ht hi, trans_walk ht hi⟩

/-- **The invariant holds in every reachable state.** -/
theorem inv_reachable (h : (net addNb).Reachable s) : Inv s :=
  LTS.Inductive.reachable (I := Inv) ⟨fun _ => inv_init, fun _ _ _ => inv_step⟩ h

/-- Steps of the network from reachable states are transitions. -/
theorem trans_of_reachable (hr : (net addNb).Reachable s) (h : (net addNb).step s l s') :
    Trans addNb s l s' :=
  have hi := inv_reachable hr
  trans_of_step hi.configured hi.ants h

/-- **Induction over the ants in flight.** What every step keeps of the ants,
however each of them came there, holds of all ants in flight. -/
theorem ants_induct {I : Net K → Packet K → Prop}
    (hstep : ∀ a l b, Inv a → (∀ p ∈ a.inFlight, I a p) → ∀ q, Came a b l q → I b q)
    (h : (net addNb).Reachable s) : ∀ p ∈ s.inFlight, I s p := by
  refine LTS.reachable_induct (I := fun s : Net K => ∀ p ∈ s.inFlight, I s p) ?_ ?_ h
  · intro s hi p hp
    rw [hi.inFlight] at hp; cases hp
  · intro a l b ha ih hs q hq
    have hi := inv_reachable ha
    exact hstep a l b hi ih q (trans_inFlight (trans_of_reachable ha hs) hi.ledger hq)

/-- **Every handler run on record ended with its one disposal.** -/
theorem hist_ended (h : (net addNb).Reachable s) : ∀ u v, v ∈ s.hist u →
    ∃ d c, d.disposes = true ∧ Ended d c v.log := by
  refine LTS.reachable_induct (I := fun s : Net K => ∀ u v, v ∈ s.hist u →
    ∃ d c, d.disposes = true ∧ Ended d c v.log) ?_ ?_ h
  · intro s hi u v hv
    rw [hi.hist] at hv; cases hv
  · intro a l b ha ih hs u v hv
    rcases (trans_hist (trans_of_reachable ha hs) u).mem hv with h0 | ⟨d, c, hlog, ho⟩
    · exact ih u v h0
    · refine ⟨d, c, ?_, hlog⟩
      rcases ho with ⟨n, o, q, hsent⟩ | ⟨p, -, nf, ttl, o, q, a', hout⟩
      · exact hsent.disposes
      · exact hout.disposes

end Step

end AntNet.L4
