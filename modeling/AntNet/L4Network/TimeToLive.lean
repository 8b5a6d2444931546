import AntNet.L4Network.Retrace

/-!
# The time-to-live of an ant

`send_ant_pkt` gives an ant `2 * NUM_NODES` once, and no handler changes it:
the way out, with every loop the ant walks, and the way back share it. The
links are ns-2's: each takes one off and discards the packet when nothing is
left (`TtlChecked`).

* `Budget`: what is left of the time-to-live is what the deliveries on record
  have not used.
* `returning_step`: on the way back the ant moves on as in `WayBack`, or is
  discarded with its time-to-live used up.
* `ttl_condition`: after `w` links out, the way back over `k` links is
  completed exactly when `w + k < 2 * NUM_NODES`.
* `ttl_exhausted`: an ant that walks a triangle twice before it finds its
  destination is discarded between the two nodes it should reinforce.
-/
namespace AntNet.L4

open AntNet.L1 AntNet.L2 AntNet.L3 AntNet.LoopErasure

variable {K : Type}

/-- Each link takes one off the time-to-live; it hands over what has some
left and discards what has none, and discards nothing else. -/
def TtlChecked (s : Net K) : Act K → Prop
  | .deliver i _ ttl _ => ∀ p ∈ s.inFlight[i]?, ttl = p.ip.ttl - 1 ∧ 0 < p.ip.ttl - 1
  | .lose i => ∀ p ∈ s.inFlight[i]?, p.ip.ttl - 1 ≤ 0
  | _ => True

instance (s : Net K) : (l : Act K) → Decidable (TtlChecked s l)
  | .deliver i _ ttl _ => inferInstanceAs (Decidable (∀ p ∈ s.inFlight[i]?,
      ttl = p.ip.ttl - 1 ∧ 0 < p.ip.ttl - 1))
  | .lose i => inferInstanceAs (Decidable (∀ p ∈ s.inFlight[i]?, p.ip.ttl - 1 ≤ 0))
  | .addNeighbor _ _ | .start _ | .stop _ | .setRFactor _ _ | .setNumNodes _ _ | .advance _
  | .expire _ _ => isTrue trivial

/-- Ant `u`, launched with time-to-live `T`, is on record with one visit more
than it has used links. -/
structure Budget (T : Int) (u : Nat) (s : Net K) : Prop where
  known : u < s.uidcnt
  ttl : ∀ p ∈ s.inFlight, p.cmn.uid = u → p.ip.ttl + (s.hist u).length = T + 1
  used : 1 < (s.hist u).length → ((s.hist u).length : Int) ≤ T

/-- Ant `u` was discarded by a link after the deliveries `vs` of its way back. -/
structure Discarded (s : Net K) (u : Nat) (m : List Nsaddr) (h₀ vs : List (Visit K)) : Prop where
  hist : s.hist u = h₀ ++ vs
  nodes : vs.map (·.node) = m.reverse.tail.take vs.length
  visits : ∀ v ∈ vs, Retraced v
  lost : u ∈ s.lost
  short : vs.length + 2 ≤ m.length

/-- Packet `u` is delivered or discarded whenever it is in flight. -/
def LinksServe (u : Nat) (σ : Nat → Net K) (acts : Nat → Act K) : Prop :=
  ∀ t, (∃ p ∈ (σ t).inFlight, p.cmn.uid = u) →
    ∃ t', t ≤ t' ∧ (Delivers u (σ t') (acts t') ∨ ¬ Keeps u (σ t') (acts t'))

section Step

variable [Arithmetic K] [LinearOrder K] {addNb : List Nsaddr → Nsaddr → List Nsaddr} {s s' : Net K}
  {l : Act K} {T : Int} {u : Nat} {m : List Nsaddr} {h₀ vs : List (Visit K)}

/-! ## What is left -/

theorem trans_uidcnt (h : Trans addNb s l s') : s.uidcnt ≤ s'.uidcnt := by
  cases h with
  | command hl hst => exact ((command_cases hl hst).1.uidcnt).ge
  | expire => exact Nat.le_succ _
  | deliver | lose => exact Nat.le_refl _

theorem budget_launch (hr : (net addNb).Reachable s) {n : Nsaddr} {o : Oracle K}
    (hs : (net addNb).step s (.expire n o) s') : Budget (2 * s.numNODES) s.uidcnt s' := by
  have hi := inv_reachable hr
  cases trans_of_reachable hr hs with
  | command hl => cases hl
  | @expire _ _ d q log _ hsent _ =>
    obtain ⟨dest, -, hg⟩ := hsent.generated
    have hlen : ((finish { s with uidcnt := s.uidcnt + 1 } n .DOWN d q
        (afterSend (s.agents n)) log).hist s.uidcnt).length = 1 := by
      rw [← hg.uid, finish_hist, hg.uid]
      show (s.hist s.uidcnt ++ _).length = 1
      rw [hi.fresh _ (Nat.le_refl _)]
      rfl
    refine ⟨Nat.lt_succ_self _, ?_, fun h => by omega⟩
    intro p hp hu
    rcases List.mem_append.mp hp with hm | hm
    · have := hi.ledger.uid_lt hm
      omega
    · split at hm
      · rename_i hd
        obtain rfl := List.mem_singleton.mp hm
        subst hd
        rw [hlen]
        cases hsent with
        | sent _ _ _ _ _ httl =>
          have : p.ip.ttl = 2 * s.numNODES := httl
          omega
      · cases hm

theorem budget_step (hi : Inv s) (hb : Budget T u s) (hc : TtlChecked s l)
    (ht : Trans addNb s l s') : Budget T u s' := by
  refine ⟨hb.known.trans_le (trans_uidcnt ht), ?_, ?_⟩
  · intro q hq hu
    subst hu
    cases trans_inFlight ht hi.ledger hq with
    | stayed hm hh =>
      rw [hh]
      exact hb.ttl q hm rfl
    | born _ hsent =>
      obtain ⟨dest, -, hg⟩ := hsent.generated
      have := hb.known
      rw [hg.uid] at this
      exact absurd this (Nat.lt_irrefl _)
    | @moved i nf ttl o p a c log hl hp ho hh =>
      subst hl
      have hq' : q.ip.ttl = ttl := ho.kept.ttl
      have hold := hb.ttl p (List.mem_of_getElem? hp) ho.uid.symm
      obtain ⟨httl, -⟩ := hc p hp
      rw [hh, List.length_append, List.length_singleton]
      push_cast
      omega
  · intro hlt
    cases trans_hist ht u with
    | same he =>
      rw [he] at hlt ⊢
      exact hb.used hlt
    | sent _ hsent hu =>
      obtain ⟨dest, -, hg⟩ := hsent.generated
      have := hb.known
      rw [← hu, hg.uid] at this
      exact absurd this (Nat.lt_irrefl _)
    | @received i nf ttl o p _ _ _ _ _ hl hp _ hpu _ he =>
      subst hl
      have hold := hb.ttl p (List.mem_of_getElem? hp) hpu
      obtain ⟨-, hpos⟩ := hc p hp
      rw [he, List.length_append, List.length_singleton]
      push_cast
      omega

/-! ## The way back -/

/-- A link that discards the ant on its way back has found the time-to-live used up. -/
theorem discarded_of_loss (hi : Inv s) (hb : Budget T u s) (hlong : 1 < h₀.length)
    (hc : TtlChecked s l) (h : WayBack s u m h₀ vs) (hk : ¬ Keeps u s l) (ht : Trans addNb s l s') :
    Discarded s' u m h₀ vs ∧ (h₀.length + vs.length : Int) = T := by
  cases ht with
  | @lose i p hp =>
    have hpu : p.cmn.uid = u := by simpa [Keeps, hp] using hk
    have hpm := List.mem_of_getElem? hp
    have hlen : (s.hist u).length = h₀.length + vs.length := by
      rw [h.hist, List.length_append]
    have hleft := hb.ttl p hpm hpu
    have hused := hb.used (by omega)
    have hnone := hc p hp
    refine ⟨⟨h.hist, h.nodes, h.visits, ?_, ?_⟩, by omega⟩
    · exact List.mem_append_right _ (hpu ▸ List.mem_singleton_self _)
    · cases h.place with
      | onWay _ _ _ _ _ _ hj => omega
      | home hu => exact absurd hpu (hi.ledger.not_inFlight hu hpm)
  | command hl => cases l with
    | expire | deliver | lose => cases hl
    | addNeighbor | start | stop | setRFactor | setNumNodes | advance => exact absurd trivial hk
  | expire | deliver => exact absurd trivial hk

/-- On the way back, or discarded on it with the time-to-live used up. -/
inductive Returning (T : Int) (s : Net K) (u : Nat) (m : List Nsaddr) (h₀ vs : List (Visit K)) :
    Prop where
  | back : WayBack s u m h₀ vs → Returning T s u m h₀ vs
  | discarded : Discarded s u m h₀ vs → (h₀.length + vs.length : Int) = T → Returning T s u m h₀ vs

omit [Arithmetic K] [LinearOrder K] in
theorem Returning.hist_length (h : Returning T s u m h₀ vs) :
    (s.hist u).length = h₀.length + vs.length ∧ vs.length < m.length := by
  cases h with
  | back hw =>
    rw [hw.hist, List.length_append]
    refine ⟨rfl, ?_⟩
    cases hw.place <;> omega
  | discarded hd =>
    rw [hd.hist, List.length_append]
    have := hd.short
    exact ⟨rfl, by omega⟩

theorem discarded_step (hi : Inv s) (h : Discarded s u m h₀ vs) (ht : Trans addNb s l s') :
    Discarded s' u m h₀ vs := by
  obtain ⟨hu, hh⟩ := trans_lost ht hi.ledger h.lost
  exact ⟨hh.trans h.hist, h.nodes, h.visits, hu, h.short⟩

theorem returning_step (hi : Inv s) (hb : Budget T u s) (hlong : 1 < h₀.length)
    (h : Returning T s u m h₀ vs) (hc : TtlChecked s l) (ht : Trans addNb s l s') :
    ∃ vs', Returning T s' u m h₀ vs' := by
  cases h with
  | back hw =>
    by_cases hk : Keeps u s l
    · obtain ⟨vs', hw'⟩ := wayBack_step hi hw hk ht
      exact ⟨vs', .back hw'⟩
    · obtain ⟨hd, he⟩ := discarded_of_loss hi hb hlong hc hw hk ht
      exact ⟨vs, .discarded hd he⟩
  | discarded hd he => exact ⟨vs, .discarded (discarded_step hi hd ht) he⟩

theorem budget_run {ls : List (Act K)} (hr : (net addNb).Reachable s) (hb : Budget T u s)
    (hrun : ((net addNb).guard TtlChecked).Run s ls s') : Budget T u s' :=
  LTS.run_guard_induct hr hrun hb fun _ _ _ ha hb hc hs =>
    budget_step (inv_reachable ha) hb hc (trans_of_reachable ha hs)

theorem returning_run {ls : List (Act K)} (hr : (net addNb).Reachable s) (hb : Budget T u s)
    (hlong : 1 < h₀.length) (h : Returning T s u m h₀ vs)
    (hrun : ((net addNb).guard TtlChecked).Run s ls s') :
    Budget T u s' ∧ ∃ vs', Returning T s' u m h₀ vs' := by
  refine LTS.run_guard_induct (I := fun s => Budget T u s ∧ ∃ vs, Returning T s u m h₀ vs) hr hrun
    ⟨hb, vs, h⟩ ?_
  rintro a l b ha ⟨hb, vs, h⟩ hc hs
  have hi := inv_reachable ha
  have ht := trans_of_reachable ha hs
  exact ⟨budget_step hi hb hc ht, returning_step hi hb hlong h hc ht⟩

/-- No handler runs any more on an ant a link has lost. -/
theorem lost_run {ls : List (Act K)} (hr : (net addNb).Reachable s) (hu : u ∈ s.lost)
    (hrun : (net addNb).Run s ls s') : u ∉ s'.freed ∧ s'.hist u = s.hist u := by
  have h : u ∈ s'.lost ∧ s'.hist u = s.hist u := by
    refine LTS.run_induct (I := fun a => u ∈ a.lost ∧ a.hist u = s.hist u) hr hrun ⟨hu, rfl⟩ ?_
    intro a l b ha ih hs
    obtain ⟨hlost, hh⟩ := trans_lost (trans_of_reachable ha hs) (inv_reachable ha).ledger ih.1
    exact ⟨hlost, hh.trans ih.2⟩
  exact ⟨(inv_reachable (LTS.reachable_run hr hrun)).ledger.not_freed h.1, h.2⟩

/-! ## Enough and too little -/

omit [Arithmetic K] [LinearOrder K] in
/-- With enough left at the turn the ant is not discarded. -/
theorem Returning.wayBack (h : Returning T s u m h₀ vs) (hT : (h₀.length + m.length : Int) ≤ T + 1) :
    WayBack s u m h₀ vs := by
  cases h with
  | back hw => exact hw
  | discarded hd he =>
    have := hd.short
    omega

omit [Arithmetic K] [LinearOrder K] in
theorem WayBack.not_lost (hi : Inv s) (h : WayBack s u m h₀ vs) : u ∉ s.lost := by
  intro hu
  cases h.place with
  | onWay hp hpu => exact hi.ledger.not_lost hu hp hpu
  | home hf => exact hi.ledger.not_freed hu hf

omit [Arithmetic K] [LinearOrder K] in
/-- With too little left at the turn the ant is never home. -/
theorem Returning.not_freed (hi : Inv s) (hb : Budget T u s) (h : Returning T s u m h₀ vs)
    (hlong : 1 < h₀.length) (hT : T + 2 ≤ (h₀.length + m.length : Int)) : u ∉ s.freed := by
  intro hu
  cases h with
  | back hw =>
    cases hw.place with
    | onWay hp hpu => exact hi.ledger.not_inFlight hu hp hpu
    | home _ _ _ hlen =>
      have hh : (s.hist u).length = h₀.length + vs.length := by rw [hw.hist, List.length_append]
      have hused := hb.used (by omega)
      omega
  | discarded hd => exact hi.ledger.not_freed hd.lost hu

/-- With links that serve it, the ant gets home or is discarded. -/
theorem returning_ends (hr : (net addNb).Reachable s) (hb : Budget T u s) (hlong : 1 < h₀.length)
    (h : Returning T s u m h₀ vs) {σ : Nat → Net K} {acts : Nat → Act K} (h0 : σ 0 = s)
    (hinf : ((net addNb).guard TtlChecked).Infinite σ acts) (hl : LinksServe u σ acts) :
    ∃ t vs, (WayBack (σ t) u m h₀ vs ∧ u ∈ (σ t).freed ∧ vs.length + 1 = m.length) ∨
      (Discarded (σ t) u m h₀ vs ∧ (h₀.length + vs.length : Int) = T) := by
  subst h0
  have hreach : ∀ t, (net addNb).Reachable (σ t) :=
    LTS.infinite_reachable hr fun t => (hinf t).2
  have hback : ∀ t, Budget T u (σ t) ∧ ∃ vs, Returning T (σ t) u m h₀ vs := fun t =>
    (LTS.infinite_run hinf t).elim fun _ hrun => returning_run hr hb hlong h hrun
  have htrans : ∀ t, Trans addNb (σ t) (acts t) (σ (t + 1)) := fun t =>
    trans_of_reachable (hreach t) (hinf t).2
  -- every delivery shortens the way; a discard ends it
  refine (LTS.eventually_of_measure (P := fun _ => _)
    (f := fun t => h₀.length + m.length - ((σ t).hist u).length)
    (fun t => Nat.sub_le_sub_left (hist_mono (htrans t)) _) fun t => ?_).elim fun _ => id
  obtain ⟨-, vs, hw | ⟨hd, he⟩⟩ := hback t
  · cases hw.place with
    | home hu _ _ hlen => exact .inl ⟨t, vs, .inl ⟨hw, hu, hlen⟩⟩
    | onWay hp hu =>
      obtain ⟨t', htt, hd | hk⟩ := hl t ⟨_, hp, hu⟩
      · have hlt := hist_of_delivers (htrans t') hd
        obtain ⟨-, vs', hw'⟩ := hback (t' + 1)
        obtain ⟨hlen, hshort⟩ := hw'.hist_length
        exact .inr ⟨t', htt, by omega⟩
      · obtain ⟨hb', vs', hw' | ⟨hd, he⟩⟩ := hback t'
        · obtain ⟨hd, he⟩ := discarded_of_loss (inv_reachable (hreach t')) hb' hlong
            (hinf t').1 hw' hk (htrans t')
          exact .inl ⟨t' + 1, vs', .inr ⟨hd, he⟩⟩
        · exact .inl ⟨t', vs', .inr ⟨hd, he⟩⟩
  · exact .inl ⟨t, vs, .inr ⟨hd, he⟩⟩

/-- With enough left the ant reports back. -/
theorem reports_back (hr : (net addNb).Reachable s) (hb : Budget T u s) (hlong : 1 < h₀.length)
    (hw : WayBack s u m h₀ vs) (hT : (h₀.length + m.length : Int) ≤ T + 1) :
    (∀ ls s', ((net addNb).guard TtlChecked).Run s ls s' →
      u ∉ s'.lost ∧ ∃ vs, WayBack s' u m h₀ vs) ∧
    ∀ σ acts, σ 0 = s → ((net addNb).guard TtlChecked).Infinite σ acts → LinksServe u σ acts →
      ∃ t vs, WayBack (σ t) u m h₀ vs ∧ u ∈ (σ t).freed ∧ vs.map (·.node) = m.reverse.tail := by
  refine ⟨?_, ?_⟩
  · intro ls s' hrun
    obtain ⟨-, vs', hret⟩ := returning_run hr hb hlong (.back hw) hrun
    have hw' := hret.wayBack hT
    exact ⟨hw'.not_lost (inv_reachable (LTS.reachable_run_guard hr hrun)), vs', hw'⟩
  · intro σ acts h0 hinf hl
    obtain ⟨t, vs', ⟨hw', hfreed, hlen⟩ | ⟨hd, he⟩⟩ :=
      returning_ends hr hb hlong (.back hw) h0 hinf hl
    · refine ⟨t, vs', hw', hfreed, ?_⟩
      rw [hw'.nodes, List.take_of_length_le]
      rw [List.length_tail, List.length_reverse]
      omega
    · have := hd.short
      omega

/-- With too little left the ant is discarded on its way, for good. -/
theorem runs_out (hr : (net addNb).Reachable s) (hb : Budget T u s) (hlong : 1 < h₀.length)
    (hw : WayBack s u m h₀ vs) (hT : T + 2 ≤ (h₀.length + m.length : Int)) :
    (∀ ls s', ((net addNb).guard TtlChecked).Run s ls s' → u ∉ s'.freed) ∧
    ∀ σ acts, σ 0 = s → ((net addNb).guard TtlChecked).Infinite σ acts → LinksServe u σ acts →
      ∃ t vs, (h₀.length + vs.length : Int) = T ∧ ∀ t', t ≤ t' → Discarded (σ t') u m h₀ vs := by
  have hnever : ∀ ls s', ((net addNb).guard TtlChecked).Run s ls s' → u ∉ s'.freed := by
    intro ls s' hrun
    obtain ⟨hb', vs', hret⟩ := returning_run hr hb hlong (.back hw) hrun
    exact hret.not_freed (inv_reachable (LTS.reachable_run_guard hr hrun)) hb' hlong hT
  refine ⟨hnever, fun σ acts h0 hinf hl => ?_⟩
  subst h0
  obtain ⟨t, vs', ⟨-, hfreed, -⟩ | ⟨hd, he⟩⟩ :=
    returning_ends hr hb hlong (.back hw) rfl hinf hl
  · obtain ⟨ls, hrun⟩ := LTS.infinite_run hinf t
    exact absurd hfreed (hnever ls _ hrun)
  · refine ⟨t, vs', he, LTS.infinite_stays (I := fun s => Discarded s u m h₀ vs') hr
      (fun t => (hinf t).2) ?_ hd⟩
    intro a l b ha ih hs
    exact discarded_step (inv_reachable ha) ih (trans_of_reachable ha hs)

/-! ## The way out -/

/-- A forward ant has only been delivered as one. -/
theorem outward (h : (net addNb).Reachable s) : ∀ p ∈ s.inFlight, p.cmn.direction = .DOWN →
    ∀ v ∈ s.hist p.cmn.uid, v.dir = .DOWN := by
  refine ants_induct
    (I := fun s p => p.cmn.direction = .DOWN → ∀ v ∈ s.hist p.cmn.uid, v.dir = .DOWN) ?_ h
  intro a l b hi ih q hq hd v hv
  cases hq with
  | stayed hm hh => exact ih q hm hd v (hh ▸ hv)
  | born _ hsent hh =>
    obtain ⟨dest, -, hg⟩ := hsent.generated
    rw [hh, hg.uid, hi.fresh _ (Nat.le_refl _)] at hv
    rw [List.mem_singleton.mp hv]
  | @moved i nf ttl o p a' c log _ hp ho hh =>
    have hu : q.cmn.uid = p.cmn.uid := ho.uid
    have hpd : p.cmn.direction = .DOWN := by
      rcases ho.path with ⟨hdown, -⟩ | ⟨hup, -⟩
      · exact hdown
      · have hq := (ho.staysUp hup).1
        rw [hd] at hq
        cases hq
    rw [hh, hu] at hv
    rcases List.mem_append.mp hv with h0 | h1
    · exact ih p (List.mem_of_getElem? hp) hpd v h0
    · rw [List.mem_singleton.mp h1]
      exact hpd

/-- After a delivery as a forward ant the record is the way out. -/
theorem walk_outward (hr : (net addNb).Reachable s) {i : Nat} {nf ttl : Int} {o : Oracle K}
    {p : Packet K} (hp : s.inFlight[i]? = some p) (hd : p.cmn.direction = .DOWN)
    (hs : (net addNb).step s (.deliver i nf ttl o) s') :
    (walk (s'.hist p.cmn.uid)).length = (s'.hist p.cmn.uid).length ∧
      1 < (s'.hist p.cmn.uid).length := by
  have hpm := List.mem_of_getElem? hp
  have ht := trans_of_reachable hr hs
  have hgrow := hist_of_delivers (u := p.cmn.uid) ht ⟨i, nf, ttl, o, p, rfl, hp, rfl⟩
  have hpos : 0 < (s.hist p.cmn.uid).length := by
    obtain ⟨v, hv, -⟩ := (inv_reachable hr).ants p hpm
    exact List.length_pos_of_mem (List.mem_of_head? hv)
  refine ⟨?_, by omega⟩
  have hdown : ∀ v ∈ s'.hist p.cmn.uid, v.dir = .DOWN := by
    intro v hv
    have hold := outward hr p hpm hd
    cases trans_hist ht p.cmn.uid with
    | same he => exact hold v (he ▸ hv)
    | sent hl => cases hl
    | @received i' _ _ _ p' _ _ _ _ _ hl hp' _ _ _ he =>
      cases hl
      obtain rfl : p = p' := Option.some.inj (hp.symm.trans hp')
      rw [he] at hv
      rcases List.mem_append.mp hv with h0 | h1
      · exact hold v h0
      · rw [List.mem_singleton.mp h1]
        exact hd
  unfold walk
  rw [List.length_map, List.filter_eq_self.mpr fun v hv => decide_eq_true (hdown v hv)]

/-- **When the time-to-live is enough**: after `w` links out, loops included,
the ant reports back over the `k` links of its recorded path if
`w + k < 2 * NUM_NODES`, and otherwise is discarded before it is home, the
nodes it has not reached again never updated. -/
theorem ttl_condition {s₀ s₁ : Net K} (hr : (net addNb).Reachable s₀) {n : Nsaddr} {o₀ : Oracle K}
    (hsend : (net addNb).step s₀ (.expire n o₀) s₁) {ls : List (Act K)}
    (hrun : ((net addNb).guard TtlChecked).Run s₁ ls s) {i : Nat} {nf ttl : Int} {o : Oracle K}
    {p : Packet K} {f : Frame K} (hp : s.inFlight[i]? = some p) (hu : p.cmn.uid = s₀.uidcnt)
    (hd : p.cmn.direction = .DOWN) (hdst : p.ip.daddr = p.ant.pktDst)
    (hm : (memorize (s.env o)).exec ⟨arrive p nf ttl, s.agents p.ip.daddr, []⟩ = (.ok true, f))
    (hs : ((net addNb).guard TtlChecked).step s (.deliver i nf ttl o) s') :
    let u := p.cmn.uid
    let m := f.pkt.path
    let w : Int := (walk (s'.hist u)).length - 1
    let k : Int := m.length - 1
    (w + k < 2 * s₀.numNODES →
      (∀ ls s₂, ((net addNb).guard TtlChecked).Run s' ls s₂ →
        u ∉ s₂.lost ∧ ∃ vs, WayBack s₂ u m (s'.hist u) vs) ∧
      ∀ σ acts, σ 0 = s' → ((net addNb).guard TtlChecked).Infinite σ acts → LinksServe u σ acts →
        ∃ t vs, WayBack (σ t) u m (s'.hist u) vs ∧ u ∈ (σ t).freed ∧
          vs.map (·.node) = m.reverse.tail) ∧
    (2 * s₀.numNODES ≤ w + k →
      (∀ ls s₂, ((net addNb).guard TtlChecked).Run s' ls s₂ → u ∉ s₂.freed) ∧
      ∀ σ acts, σ 0 = s' → ((net addNb).guard TtlChecked).Infinite σ acts → LinksServe u σ acts →
        ∃ t vs, w + vs.length + 1 = 2 * s₀.numNODES ∧
          ∀ t', t ≤ t' → Discarded (σ t') u m (s'.hist u) vs) ∧
    (walk (s'.hist u) = m → m.length ≤ s₀.numNODES → w + k < 2 * s₀.numNODES) := by
  have hr₁ := LTS.reachable_step hr hsend
  have hrs := LTS.reachable_run_guard hr₁ hrun
  have hr' := LTS.reachable_step hrs hs.2
  have hb : Budget (2 * s₀.numNODES) p.cmn.uid s' := by
    have hb₁ := budget_launch hr hsend
    rw [← hu] at hb₁
    exact budget_step (inv_reachable hrs) (budget_run hr₁ hb₁ hrun) hs.1
      (trans_of_reachable hrs hs.2)
  obtain ⟨hwalk, hlong⟩ := walk_outward hrs hp hd hs.2
  have hw := wayBack_turn hrs hp hd hdst hm hs.2
  refine ⟨fun henough => reports_back hr' hb hlong hw (by omega), fun hlittle => ?_, ?_⟩
  · obtain ⟨hnever, hends⟩ := runs_out hr' hb hlong hw (by omega)
    refine ⟨hnever, fun σ acts h0 hinf hl => ?_⟩
    obtain ⟨t, vs, he, hd'⟩ := hends σ acts h0 hinf hl
    exact ⟨t, vs, by omega, hd'⟩
  · intro hsame hnodes
    have hpos : 0 < f.pkt.path.length := by cases hw.place <;> omega
    rw [hsame]
    omega

end Step

/-- An ant of 0 that turns at 2 after two links, with four left, is never discarded. -/
theorem ttl_condition_line : ∃ s s' : Net ℚ, (net prependNb).Reachable s ∧
    ((net prependNb).guard TtlChecked).step s (.deliver 0 0 4 (idle [])) s' ∧
    s'.inFlight.map (fun p => (p.cmn.direction, p.path)) = [(.UP, [0, 1, 2])] ∧
    ∀ ls s₂, ((net prependNb).guard TtlChecked).Run s' ls s₂ → 0 ∉ s₂.lost := by
  have hrun : (runActs prependNb Net.boot (lineUp : List (Act ℚ))).bind (fun s₀ =>
      (step prependNb s₀ (.expire 0 (idle [0, 2]))).bind fun s₁ =>
        (LTS.execGuarded (step prependNb) TtlChecked s₁ [.deliver 0 0 5 (idle [])]).bind fun s =>
          (step prependNb s (.deliver 0 0 4 (idle []))).map fun s' =>
            decide (s₀.uidcnt = 0 ∧ s₀.numNODES = 3 ∧ TtlChecked s (.deliver 0 0 4 (idle [])) ∧
              s.inFlight.map (fun p => (p.cmn.uid, p.cmn.direction, p.ip.daddr, p.ant.pktDst)) =
                [(0, .DOWN, 2, 2)] ∧
              s.inFlight.map (fun p =>
                let r := (memorize (s.env (idle []))).exec ⟨arrive p 0 4, s.agents p.ip.daddr, []⟩
                (r.1.toOption, r.2.pkt.path)) = [(some true, [0, 1, 2])] ∧
              (walk (s'.hist 0)).length = 3 ∧
              s'.inFlight.map (fun p => (p.cmn.direction, p.path)) = [(.UP, [0, 1, 2])])) =
      some true := by decide +kernel
  obtain ⟨s₀, hs₀, h1⟩ := Option.bind_eq_some_iff.mp hrun
  obtain ⟨s₁, hlaunch, h2⟩ := Option.bind_eq_some_iff.mp h1
  obtain ⟨s, hs, h3⟩ := Option.bind_eq_some_iff.mp h2
  obtain ⟨s', hs', hres⟩ := Option.map_eq_some_iff.mp h3
  obtain ⟨huid, hnodes, hchecked, hflight, hmemory, hwalk, hturned⟩ := of_decide_eq_true hres
  obtain ⟨p, hp, hpe⟩ := List.map_eq_singleton_iff.mp hflight
  simp only [Prod.mk.injEq] at hpe
  obtain ⟨hu, hd, hdaddr, hdst⟩ := hpe
  rw [hp] at hmemory
  simp only [List.map_cons, List.map_nil, List.cons.injEq, Prod.mk.injEq, and_true] at hmemory
  obtain ⟨hok, hpath⟩ := hmemory
  have hr₀ : (net prependNb).Reachable s₀ := runActs_reachable boot_initial hs₀
  have hs₁ : (net prependNb).step s₀ (.expire 0 (idle [0, 2])) s₁ := hlaunch
  have hout : ((net prependNb).guard TtlChecked).Run s₁ _ s := LTS.run_of_execGuarded _ _ _ hs
  have hrs := LTS.reachable_run_guard (LTS.reachable_step hr₀ hs₁) hout
  have hturn : ((net prependNb).guard TtlChecked).step s (.deliver 0 0 4 (idle [])) s' :=
    ⟨hchecked, hs'⟩
  refine ⟨s, s', hrs, hturn, hturned, ?_⟩
  have hcond := (ttl_condition hr₀ hs₁ hout (by rw [hp]; rfl) (hu.trans huid.symm) hd
    (hdaddr.trans hdst.symm) (Prog.exec_eq_ok hok) hturn).1
  rw [hu, hpath, hwalk, hnodes] at hcond
  exact fun ls s₂ h₂ => ((hcond (by decide)).1 ls s₂ h₂).1

/-- Five nodes: a triangle 0, 1, 2, and 4 behind 3 behind 0. An ant leaves 0
for 4. -/
def triangleAndTail : List (Act ℚ) :=
  [.setNumNodes 0 5, .setNumNodes 1 5, .setNumNodes 2 5, .setNumNodes 3 5, .setNumNodes 4 5,
    .addNeighbor 0 3, .addNeighbor 0 2, .addNeighbor 0 1, .addNeighbor 1 2, .addNeighbor 3 4,
    .start 0, .start 1, .start 2, .start 3, .start 4, .expire 0 (idle [4])]

/-- Draws that pick the last candidate. -/
def pickLast : Oracle ℚ := { (idle [] : Oracle ℚ) with uniform := fun total => 9 / 10 * total }

/-- Twice around the triangle, then to 3 and 4, where the ant turns. -/
def twiceAround : List (Act ℚ) :=
  [.deliver 0 0 9 (idle []), .deliver 0 0 8 (idle []), .deliver 0 0 7 (idle []),
    .deliver 0 0 6 (idle []), .deliver 0 0 5 (idle []), .deliver 0 0 4 pickLast,
    .deliver 0 0 3 (idle []), .deliver 0 0 2 (idle [])]

/-- **Counterexample**: the ant has turned at 4 with the path 0, 3, 4, is
delivered to 3, which updates its table, and discarded before it is back at 0,
which never does. -/
theorem ttl_exhausted : ∃ s s' : Net ℚ, ((net prependNb).guard TtlChecked).Reachable s ∧
    s.inFlight.map (fun p => (p.cmn.uid, p.cmn.direction, p.path)) = [(0, .UP, [0, 3, 4])] ∧
    ((net prependNb).guard TtlChecked).Run s [.deliver 0 0 1 (idle []), .lose 0] s' ∧
    (s'.hist 0).filterMap (fun v => if Event.updateTable ∈ v.log then some v.node else none) = [3] ∧
    ∀ ls s₂, ((net prependNb).guard TtlChecked).Run s' ls s₂ →
      0 ∉ s₂.freed ∧ s₂.hist 0 = s'.hist 0 := by
  have hrun : (LTS.execGuarded (step prependNb) TtlChecked Net.boot
      (triangleAndTail ++ twiceAround)).bind (fun s =>
        (LTS.execGuarded (step prependNb) TtlChecked s
          [.deliver 0 0 1 (idle []), .lose 0]).map fun s' =>
            (s.inFlight.map (fun p => (p.cmn.uid, p.cmn.direction, p.path)), (s'.lost,
              (s'.hist 0).filterMap fun v =>
                if Event.updateTable ∈ v.log then some v.node else none))) =
      some ([(0, .UP, [0, 3, 4])], ([0], [3])) := by decide +kernel
  obtain ⟨s, hs, hrest⟩ := Option.bind_eq_some_iff.mp hrun
  obtain ⟨s', hs', hres⟩ := Option.map_eq_some_iff.mp hrest
  simp only [Prod.mk.injEq] at hres
  obtain ⟨hturned, hlost, hupdates⟩ := hres
  have hr : ((net prependNb).guard TtlChecked).Reachable s :=
    LTS.reachable_of_execGuarded boot_initial hs
  have hend : ((net prependNb).guard TtlChecked).Run s _ s' := LTS.run_of_execGuarded _ _ _ hs'
  have hr' := LTS.reachable_run_guard (LTS.reachable_of_guard hr) hend
  refine ⟨s, s', hr, hturned, hend, hupdates, fun ls s₂ h₂ => ?_⟩
  exact lost_run hr' (hlost ▸ List.mem_singleton_self 0) (LTS.run_of_guard h₂)

end AntNet.L4
