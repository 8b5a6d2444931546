import AntNet.L4Network.TimeToLive

/-!
# No ant lives forever

`send_ant_pkt` gives an ant `2 * NUM_NODES` as its time-to-live, which every
link shortens (`TtlChecked`); it may walk in loops, but not for long.

* `lifetime`: at most `2 * NUM_NODES` handlers run on an ant, and if the links
  serve it, it is freed, dropped or discarded at last.
* `drains`: once no timer expires any more, the network gets empty and stays so.
-/
namespace AntNet.L4

open AntNet.L1 AntNet.L2 AntNet.L3

variable {K : Type}

/-- Ant `u` is not in flight. -/
def Landed (u : Nat) (s : Net K) : Prop := ∀ p ∈ s.inFlight, p.cmn.uid ≠ u

section Step

variable [Arithmetic K] [LinearOrder K] {addNb : List Nsaddr → Nsaddr → List Nsaddr} {s s' : Net K}
  {l : Act K} {T : Int} {u : Nat}

theorem uidcnt_step (ht : Trans addNb s l s') :
    s'.uidcnt = s.uidcnt ∨ (∃ n o, l = .expire n o) ∧ s'.uidcnt = s.uidcnt + 1 := by
  cases ht with
  | command hl hst => exact .inl (command_cases hl hst).1.uidcnt
  | expire => exact .inr ⟨⟨_, _, rfl⟩, rfl⟩
  | deliver | lose => exact .inl rfl

/-- What has landed does not take off again. -/
theorem landed_step (hi : Inv s) (ht : Trans addNb s l s') (hu : u < s.uidcnt) (h : Landed u s) :
    Landed u s' := by
  intro q hq
  cases trans_inFlight ht hi.ledger hq with
  | stayed hm => exact h q hm
  | born _ hsent =>
    obtain ⟨dest, -, hg⟩ := hsent.generated
    rw [hg.uid]
    omega
  | moved _ hp ho =>
    have := h _ (List.mem_of_getElem? hp)
    rwa [show q.cmn.uid = _ from ho.uid]

omit [Arithmetic K] [LinearOrder K] in
/-- An ant has landed in one of the three ways. -/
theorem landed_iff (hi : Inv s) (hu : u < s.uidcnt) :
    Landed u s ↔ u ∈ s.freed ∨ u ∈ s.dropped ∨ u ∈ s.lost := by
  have hone := hi.ledger u
  rw [if_pos hu] at hone
  simp only [Net.places, List.count_append] at hone
  constructor
  · intro h
    have hnone : (s.inFlight.map (·.cmn.uid)).count u = 0 := by
      refine List.count_eq_zero.mpr fun hm => ?_
      obtain ⟨p, hp, hpu⟩ := List.mem_map.mp hm
      exact h p hp hpu
    by_contra hnot
    simp only [not_or] at hnot
    have h1 := List.count_eq_zero.mpr hnot.1
    have h2 := List.count_eq_zero.mpr hnot.2.1
    have h3 := List.count_eq_zero.mpr hnot.2.2
    omega
  · intro h p hp hpu
    have hfly : 0 < (s.inFlight.map (·.cmn.uid)).count u :=
      List.count_pos_iff.mpr (List.mem_map.mpr ⟨p, hp, hpu⟩)
    rcases h with h | h | h
    all_goals
      have := List.count_pos_iff.mpr h
      omega

/-- A packet that a link does not keep is lost. -/
theorem lost_of_not_keeps (ht : Trans addNb s l s') (hk : ¬ Keeps u s l) : u ∈ s'.lost := by
  cases ht with
  | @lose i p hp =>
    have hpu : p.cmn.uid = u := by simpa [Keeps, hp] using hk
    simp [hpu]
  | @command l _ hl _ =>
    cases l with
    | lose => cases hl
    | _ => exact absurd trivial hk
  | expire | deliver => exact absurd trivial hk

omit [Arithmetic K] [LinearOrder K] in
theorem budget_length (hb : Budget T u s) : ((s.hist u).length : Int) ≤ max 1 T := by
  have := hb.used
  omega

/-- A served ant lands. -/
theorem lands (hr : (net addNb).Reachable s) (hb : Budget T u s) {σ : Nat → Net K} {acts : Nat → Act K}
    (h0 : σ 0 = s) (hinf : ((net addNb).guard TtlChecked).Infinite σ acts)
    (hl : LinksServe u σ acts) : ∃ t, ∀ t', t ≤ t' → u < (σ t').uidcnt ∧ Landed u (σ t') := by
  subst h0
  have hnet : (net addNb).Infinite σ acts := fun t => (hinf t).2
  have hreach := LTS.infinite_reachable hr hnet
  have hbudget : ∀ t, Budget T u (σ t) := fun t =>
    (LTS.infinite_run hinf t).elim fun _ hrun => budget_run hr hb hrun
  have htrans : ∀ t, Trans addNb (σ t) (acts t) (σ (t + 1)) := fun t =>
    trans_of_reachable (hreach t) (hinf t).2
  -- every delivery uses up some of the budget, and a packet that is not kept has landed
  obtain ⟨-, t, hland⟩ := LTS.eventually_of_measure (P := fun _ => ∃ t, Landed u (σ t))
    (f := fun t => T.toNat + 2 - ((σ t).hist u).length)
    (fun t => Nat.sub_le_sub_left (hist_mono (htrans t)) _) fun t => by
      by_cases hfly : ∃ p ∈ (σ t).inFlight, p.cmn.uid = u
      · obtain ⟨t', htt, hd | hk⟩ := hl t hfly
        · have hlt := hist_of_delivers (htrans t') hd
          have hle := budget_length (hbudget (t' + 1))
          exact .inr ⟨t', htt, by omega⟩
        · have hlost := lost_of_not_keeps (htrans t') hk
          have hi := inv_reachable (hreach (t' + 1))
          exact .inl ⟨t' + 1, (landed_iff hi (hbudget (t' + 1)).known).mpr (.inr (.inr hlost))⟩
      · exact .inl ⟨t, fun p hp hpu => hfly ⟨p, hp, hpu⟩⟩
  refine ⟨t, LTS.infinite_stays (I := fun s => u < s.uidcnt ∧ Landed u s) hr hnet ?_
    ⟨(hbudget t).known, hland⟩⟩
  rintro a l b ha ⟨hu, h⟩ hs
  have hs' := trans_of_reachable ha hs
  exact ⟨hu.trans_le (trans_uidcnt hs'), landed_step (inv_reachable ha) hs' hu h⟩

/-- **No ant lives forever.** An ant generated in a network of `N` nodes has at
most `2 * N` handlers run on it (or the one that generated it, if `N` is 0), in
any run with links that check the time-to-live; and if the links go on to serve
it, it is freed, dropped or lost in the end, for good. -/
theorem lifetime {s₀ s₁ : Net K} (hr : (net addNb).Reachable s₀) {n : Nsaddr} {o : Oracle K}
    (hsend : (net addNb).step s₀ (.expire n o) s₁) :
    (∀ ls s, ((net addNb).guard TtlChecked).Run s₁ ls s →
      ((s.hist s₀.uidcnt).length : Int) ≤ max 1 (2 * s₀.numNODES)) ∧
    ∀ σ acts, σ 0 = s₁ → ((net addNb).guard TtlChecked).Infinite σ acts →
      LinksServe s₀.uidcnt σ acts →
      ∃ t, ∀ t', t ≤ t' → s₀.uidcnt ∈ (σ t').freed ∨ s₀.uidcnt ∈ (σ t').dropped ∨
        s₀.uidcnt ∈ (σ t').lost := by
  have hb := budget_launch hr hsend
  have h1 := LTS.reachable_step hr hsend
  constructor
  · intro ls s hrun
    exact budget_length (budget_run h1 hb hrun)
  · intro σ acts h0 hinf hl
    obtain ⟨t, hland⟩ := lands h1 hb h0 hinf hl
    refine ⟨t, fun t' htt => ?_⟩
    obtain ⟨hu, h⟩ := hland t' htt
    have hreach := LTS.infinite_reachable (h0 ▸ h1) (fun t => (hinf t).2) t'
    exact (landed_iff (inv_reachable hreach) hu).mp h

/-! ## The whole network -/

/-- Every ant there is has a budget. -/
theorem budgets (h : ((net addNb).guard TtlChecked).Reachable s) :
    ∀ u < s.uidcnt, ∃ T, Budget T u s := by
  refine LTS.guard_induct (I := fun s : Net K => ∀ u < s.uidcnt, ∃ T, Budget T u s) ?_ ?_ h
  · intro s hi u hu
    rw [hi.uidcnt] at hu
    exact absurd hu (Nat.not_lt_zero u)
  · intro a l b ha ih hg hs u hu
    have ht := trans_of_reachable ha hs
    by_cases hold : u < a.uidcnt
    · obtain ⟨T, hb⟩ := ih u hold
      exact ⟨T, budget_step (inv_reachable ha) hb hg ht⟩
    · rcases uidcnt_step ht with hc | ⟨⟨n, o, rfl⟩, hc⟩
      · omega
      · obtain rfl : u = a.uidcnt := by omega
        exact ⟨_, budget_launch ha hs⟩

/-- No ant timer expires. -/
def NoLaunch (acts : Nat → Act K) : Prop := ∀ t n o, acts t ≠ .expire n o

/-- **The network drains.** In a run with links that check the time-to-live and
serve every packet, once the timers have stopped the network gets empty, and
stays empty. -/
theorem drains (h : ((net addNb).guard TtlChecked).Reachable s) {σ : Nat → Net K} {acts : Nat → Act K}
    (h0 : σ 0 = s) (hinf : ((net addNb).guard TtlChecked).Infinite σ acts) (hquiet : NoLaunch acts)
    (hl : ∀ u, LinksServe u σ acts) : ∃ t, ∀ t', t ≤ t' → (σ t').inFlight = [] := by
  have hr := LTS.reachable_of_guard h
  have hreach := LTS.infinite_reachable (h0 ▸ hr) fun t => (hinf t).2
  have hcnt : ∀ t, (σ t).uidcnt = s.uidcnt := by
    intro t
    induction t with
    | zero => rw [h0]
    | succ t ih =>
      rw [← ih]
      rcases uidcnt_step (trans_of_reachable (hreach t) (hinf t).2) with hc | ⟨⟨n, o, he⟩, -⟩
      · exact hc
      · exact absurd he (hquiet t n o)
  -- the last of the finitely many ants to land
  have hall : ∀ k ≤ s.uidcnt, ∃ t, ∀ u < k, ∀ t', t ≤ t' → Landed u (σ t') := by
    intro k
    induction k with
    | zero => exact fun _ => ⟨0, fun u hu => absurd hu (Nat.not_lt_zero u)⟩
    | succ k ih =>
      intro hk
      obtain ⟨t₁, h1⟩ := ih (by omega)
      obtain ⟨T, hb⟩ := budgets h k hk
      obtain ⟨t₂, h2⟩ := lands hr hb h0 hinf (hl k)
      refine ⟨max t₁ t₂, fun u hu t' htt => ?_⟩
      rcases Nat.lt_succ_iff_lt_or_eq.mp hu with hlt | rfl
      · exact h1 u hlt t' (by omega)
      · exact (h2 t' (by omega)).2
  obtain ⟨t, hland⟩ := hall s.uidcnt (Nat.le_refl _)
  refine ⟨t, fun t' htt => List.eq_nil_iff_forall_not_mem.mpr fun p hp => ?_⟩
  have hu : p.cmn.uid < s.uidcnt := by
    rw [← hcnt t']
    exact (inv_reachable (hreach t')).ledger.uid_lt hp
  exact hland _ hu t' htt p hp rfl

end Step

/-! ## One ant -/

/-- An ant of 0, among three nodes. -/
theorem lifetime_line : ∃ s₁ : Net ℚ, (net prependNb).Reachable s₁ ∧
    (s₁.inFlight.map fun p => p.cmn.uid) = [0] ∧
    ∀ ls s, ((net prependNb).guard TtlChecked).Run s₁ ls s → ((s.hist 0).length : Int) ≤ 6 := by
  have hrun : (runActs prependNb Net.boot (lineUp : List (Act ℚ))).bind (fun s₀ =>
      (step prependNb s₀ (.expire 0 (idle [0, 2]))).map fun s₁ => decide (s₀.uidcnt = 0 ∧
        s₀.numNODES = 3 ∧ (s₁.inFlight.map fun p => p.cmn.uid) = [0])) = some true := by decide +kernel
  obtain ⟨s₀, h0, hrun⟩ := Option.bind_eq_some_iff.mp hrun
  obtain ⟨s₁, h1, hres⟩ := Option.map_eq_some_iff.mp hrun
  obtain ⟨huid, hnodes, hfly⟩ := of_decide_eq_true hres
  have hr := runActs_reachable boot_initial h0
  refine ⟨s₁, LTS.reachable_step hr h1, hfly, fun ls s hrun => ?_⟩
  have hle := (lifetime hr h1).1 ls s hrun
  rw [huid, hnodes] at hle
  exact hle

/-- The ant comes home; then only the clock goes on. -/
theorem drains_line : ∃ (σ : Nat → Net ℚ) (acts : Nat → Act ℚ),
    ((net prependNb).guard TtlChecked).Infinite σ acts ∧ (σ 0).inFlight.map (·.cmn.uid) = [0] ∧
    ∃ t, ∀ t', t ≤ t' → (σ t').inFlight = [] := by
  have hrun : (LTS.execGuarded (step prependNb) TtlChecked Net.boot
      (lineUp ++ [.expire 0 (idle [1]), .deliver 0 0 5 (idle [])] : List (Act ℚ))).bind (fun s =>
      (LTS.execGuarded (step prependNb) TtlChecked s [.deliver 0 0 4 (idle [])]).map fun s' =>
        decide (s.inFlight.map (·.cmn.uid) = [0] ∧ s'.inFlight.map (·.cmn.uid) = [])) = some true := by
    decide +kernel
  obtain ⟨s, hs, hrun⟩ := Option.bind_eq_some_iff.mp hrun
  obtain ⟨s', hs', hres⟩ := Option.map_eq_some_iff.mp hrun
  obtain ⟨hone, hnone⟩ := of_decide_eq_true hres
  have hempty : s'.inFlight = [] := List.map_eq_nil_iff.mp hnone
  have hr : ((net prependNb).guard TtlChecked).Reachable s :=
    LTS.reachable_of_execGuarded boot_initial hs
  let σ : Nat → Net ℚ := fun t => if t = 0 then s else s'
  let acts : Nat → Act ℚ := fun t => if t = 0 then .deliver 0 0 4 (idle []) else .advance s'.clock
  have hinf : ((net prependNb).guard TtlChecked).Infinite σ acts := by
    intro t
    cases t with
    | zero =>
      have hstep : ((net prependNb).guard TtlChecked).Run s _ s' := LTS.run_of_execGuarded _ _ _ hs'
      cases hstep with
      | cons h hnil => cases hnil; exact h
    | succ t => exact ⟨trivial, by simp [net, LTS.ofFn, step, σ, acts]⟩
  have hserve : ∀ u, LinksServe u σ acts := by
    rintro u t ⟨p, hp, hu⟩
    cases t with
    | zero =>
      have hlen : s.inFlight.length = 1 := by simpa using congrArg List.length hone
      obtain ⟨q, hq⟩ := List.length_eq_one_iff.mp hlen
      have hp' : p ∈ s.inFlight := hp
      rw [hq] at hp'
      obtain rfl := List.mem_singleton.mp hp'
      exact ⟨0, Nat.le_refl 0, .inl ⟨0, 0, 4, idle [], p, rfl, by simp [σ, hq], hu⟩⟩
    | succ t =>
      have hp' : p ∈ s'.inFlight := hp
      rw [hempty] at hp'
      cases hp'
  refine ⟨σ, acts, hinf, hone, drains hr rfl hinf ?_ hserve⟩
  intro t n o
  cases t <;> simp [acts]

end AntNet.L4
