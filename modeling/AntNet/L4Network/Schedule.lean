import AntNet.Core.Timers
import AntNet.L4Network.Identity

/-!
# The ant timers on the clock

The network of `Net` with the scheduler's event list: an `Ant_timer` expires
when its event is due, and not before, and the clock never passes a pending
event. `timer_ant_` can be set at any time.

Outside `src/`: `TimerHandler::resched(delay)` puts the expiry at `clock + delay`,
`cancel` takes it out and aborts if there is none, and a scheduler that is given
a time in the past aborts. The clock does not round.

* `timed_refines`: a run of this system, its times erased, is a run of the
  network; an agent's timer flag says that its expiry is pending, and none is overdue.
* `launch_schedule`: from a `start` at `t₀` on, the ants of a node are generated
  at `t₀`, `t₀ + T`, `t₀ + 2 T`, ... where `T` is its `timer_ant_`, and at no other time.
-/
namespace AntNet.L4

open AntNet.L1 AntNet.L2 AntNet.L3 AntNet.Timers

variable {K : Type}

structure Clocked (K : Type) where
  net : Net K
  timerAnt : Nsaddr → K
  pending : List (Nsaddr × K)

inductive TimedAct (K : Type) where
  | setTimerAnt (n : Nsaddr) (t : K)
  | act (l : Act K)

structure Clocked.Initial (s : Clocked K) : Prop where
  net : s.net.Initial
  pending : s.pending = []

/-- When the ants of node `n` were generated, in the order of their `uid`. -/
def launches (s : Net K) (n : Nsaddr) : List K :=
  (List.range s.uidcnt).filterMap fun u =>
    (s.hist u).head?.bind fun v => if v.node = n then some v.time else none

section Step

variable [Field K] [LinearOrder K]

/-- The event list after a step of the network, `none` where the simulator aborts
or the step has to wait.
mirrors antnet.cc:84-95,631-643 -/
def reschedule (s : Clocked K) : Act K → Option (List (Nsaddr × K))
  | .start n => some (resched n s.net.clock s.pending)
  | .stop n => if (due s.pending n).isSome then some (cancel n s.pending) else none
  | .advance t => if ∀ e ∈ s.pending, t ≤ e.2 then some s.pending else none
  | .expire n _ =>
    if due s.pending n = some s.net.clock ∧ 0 ≤ s.timerAnt n then
      some (resched n (s.net.clock + s.timerAnt n) s.pending)
    else none
  | _ => some s.pending

def timedStep (addNb : List Nsaddr → Nsaddr → List Nsaddr) (s : Clocked K) : TimedAct K → Option (Clocked K)
  | .setTimerAnt n t => some { s with timerAnt := Function.update s.timerAnt n t }
  | .act l =>
    match reschedule s l, step addNb s.net l with
    | some pending, some net => some { s with net := net, pending := pending }
    | _, _ => none

def timedNet (addNb : List Nsaddr → Nsaddr → List Nsaddr) : LTS (Clocked K) (TimedAct K) :=
  LTS.ofFn Clocked.Initial (timedStep addNb)

def TimedAct.netAct : TimedAct K → Option (Act K)
  | .setTimerAnt _ _ => none
  | .act l => some l

variable {addNb : List Nsaddr → Nsaddr → List Nsaddr} {s s' : Clocked K} {c : TimedAct K} {l : Act K}
  {n : Nsaddr}

/-- **Inversion of a step of the network.** -/
theorem timedStep_act (h : timedStep addNb s (.act l) = some s') :
    reschedule s l = some s'.pending ∧ step addNb s.net l = some s'.net ∧ s'.timerAnt = s.timerAnt := by
  simp only [timedStep] at h
  split at h
  · rename_i pending net hp hn
    cases h
    exact ⟨hp, hn, rfl⟩
  · cases h

/-- Where the timer of `n` stands after a step of the network. -/
inductive TimerStep (s : Clocked K) (n : Nsaddr) (l : Act K) (d : Option K) : Prop where
  | same : l ≠ .start n → l ≠ .stop n → (∀ o, l ≠ .expire n o) → d = due s.pending n →
      TimerStep s n l d
  | started : l = .start n → d = some s.net.clock → TimerStep s n l d
  | stopped : l = .stop n → d = none → TimerStep s n l d
  | expired {o : Oracle K} : l = .expire n o → due s.pending n = some s.net.clock →
      0 ≤ s.timerAnt n → d = some (s.net.clock + s.timerAnt n) → TimerStep s n l d

theorem reschedule_due {pending : List (Nsaddr × K)} (h : reschedule s l = some pending) (n : Nsaddr) :
    TimerStep s n l (due pending n) := by
  cases l with
  | start m =>
    obtain rfl := Option.some.inj h
    rw [due_resched]
    by_cases hn : n = m
    · subst hn
      exact .started rfl (if_pos rfl)
    · exact .same (by simp [eq_comm, hn]) (by simp) (by simp) (if_neg hn)
  | stop m =>
    simp only [reschedule] at h
    split at h
    · obtain rfl := Option.some.inj h
      rw [due_cancel]
      by_cases hn : n = m
      · subst hn
        exact .stopped rfl (if_pos rfl)
      · exact .same (by simp) (by simp [eq_comm, hn]) (by simp) (if_neg hn)
    · cases h
  | advance t =>
    simp only [reschedule] at h
    split at h
    · obtain rfl := Option.some.inj h
      exact .same (by simp) (by simp) (by simp) rfl
    · cases h
  | expire m o =>
    simp only [reschedule] at h
    split at h
    · rename_i hdue
      obtain rfl := Option.some.inj h
      rw [due_resched]
      by_cases hn : n = m
      · subst hn
        exact .expired rfl hdue.1 hdue.2 (if_pos rfl)
      · exact .same (by simp) (by simp) (by simp [eq_comm, hn]) (if_neg hn)
    · cases h
  | addNeighbor | setRFactor | setNumNodes | deliver | lose =>
    obtain rfl := Option.some.inj h
    exact .same (by simp) (by simp) (by simp) rfl

/-! ## Refinement -/

theorem timed_run {cs : List (TimedAct K)} (h : (timedNet addNb).Run s cs s') :
    (net addNb).Run s.net (cs.filterMap TimedAct.netAct) s'.net := by
  induction h with
  | nil => exact .nil _
  | @cons a b c l cs hs _ ih =>
    cases l with
    | setTimerAnt n t =>
      cases hs
      exact ih
    | act l => exact .cons (timedStep_act hs).2.1 ih

theorem timed_net (h : (timedNet addNb).Reachable s) : (net addNb).Reachable s.net := by
  obtain ⟨s₀, cs, h0, hrun⟩ := h
  exact ⟨s₀.net, _, h0.net, timed_run hrun⟩

/-- What a step does to the timer flag of an agent. -/
theorem antTimer_step {s s' : Net K} (h : Trans addNb s l s') (n : Nsaddr) :
    ((s'.agents n).antTimer = true ∧ (l = .start n ∨ ∃ o, l = .expire n o)) ∨
    ((s'.agents n).antTimer = false ∧ l = .stop n) ∨
    ((s'.agents n).antTimer = (s.agents n).antTimer ∧ l ≠ .start n ∧ l ≠ .stop n ∧
      ∀ o, l ≠ .expire n o) := by
  cases h with
  | command hl hst =>
    cases l with
    | expire | deliver | lose => cases hl
    | start m =>
      cases hst
      by_cases hn : n = m
      · subst hn
        exact .inl ⟨by simp [setAgent, L3.start], .inl rfl⟩
      · exact .inr (.inr ⟨by simp [setAgent, hn], by simp [eq_comm, hn], by simp, by simp⟩)
    | stop m =>
      cases hst
      by_cases hn : n = m
      · subst hn
        exact .inr (.inl ⟨by simp [setAgent, L3.stop], rfl⟩)
      · exact .inr (.inr ⟨by simp [setAgent, hn], by simp, by simp [eq_comm, hn], by simp⟩)
    | setRFactor m | setNumNodes m =>
      cases hst
      refine .inr (.inr ⟨?_, by simp, by simp, by simp⟩)
      by_cases hn : n = m
      · subst hn
        simp [setAgent]
      · simp [setAgent, hn]
    | addNeighbor =>
      cases hst
      exact .inr (.inr ⟨rfl, by simp, by simp, by simp⟩)
    | advance t =>
      simp only [step] at hst
      split at hst
      · cases hst
        exact .inr (.inr ⟨rfl, by simp, by simp, by simp⟩)
      · cases hst
  | @expire m o =>
    by_cases hn : n = m
    · subst hn
      exact .inl ⟨by simp [finish, afterSend], .inr ⟨o, rfl⟩⟩
    · exact .inr (.inr ⟨by simp [finish, hn], by simp, by simp, by simp [eq_comm, hn]⟩)
  | @deliver i nf ttl o p q d a c log hp ho =>
    refine .inr (.inr ⟨?_, by simp, by simp, by simp⟩)
    by_cases hn : n = p.ip.daddr
    · subst hn
      show (Function.update s.agents p.ip.daddr a p.ip.daddr).antTimer = _
      rw [Function.update_self]
      cases ho <;> rfl
    · simp [finish, hn]
  | lose => exact .inr (.inr ⟨rfl, by simp, by simp, by simp⟩)

/-- Only `advance` moves the clock. -/
theorem clock_step {s s' : Net K} (h : Trans addNb s l s') :
    s'.clock = s.clock ∨ l = .advance s'.clock ∧ s.clock ≤ s'.clock := by
  cases h with
  | command hl hst =>
    cases l with
    | expire | deliver | lose => cases hl
    | advance t =>
      simp only [step] at hst
      split at hst
      · rename_i hle
        cases hst
        exact .inr ⟨rfl, hle⟩
      · cases hst
    | addNeighbor | start | stop | setRFactor | setNumNodes =>
      cases hst
      exact .inl rfl
  | expire | deliver | lose => exact .inl rfl

/-- The flag of agent `n` says whether its timer is pending, and then it is not overdue. -/
structure TimerOk (s : Clocked K) (n : Nsaddr) : Prop where
  flag : (s.net.agents n).antTimer = (due s.pending n).isSome
  notOverdue : ∀ d, due s.pending n = some d → s.net.clock ≤ d

variable [IsStrictOrderedRing K]

theorem timerOk_act (hr : (timedNet addNb).Reachable s) (hs : timedStep addNb s (.act l) = some s')
    (h : TimerOk s n) : TimerOk s' n := by
  obtain ⟨hp, hn, -⟩ := timedStep_act hs
  have ht := trans_of_reachable (timed_net hr) hn
  have hstep := reschedule_due hp n
  constructor
  · rcases antTimer_step ht n with ⟨hf, hl⟩ | ⟨hf, hl⟩ | ⟨hf, h1, h2, h3⟩ <;> rw [hf]
    · cases hstep with
      | same h1 _ h3 =>
        rcases hl with hl | ⟨o, hl⟩
        · exact absurd hl h1
        · exact absurd hl (h3 o)
      | started _ hd | expired _ _ _ hd => rw [hd]; rfl
      | stopped hl' => rw [hl'] at hl; simp at hl
    · cases hstep with
      | same _ h2 => exact absurd hl h2
      | started hl' | expired hl' => rw [hl'] at hl; simp at hl
      | stopped _ hd => rw [hd]; rfl
    · cases hstep with
      | same _ _ _ hd => rw [hd, h.flag]
      | started hl => exact absurd hl h1
      | stopped hl => exact absurd hl h2
      | expired hl => exact absurd hl (h3 _)
  · intro d hd
    -- an event the clock reaches is one the clock waits for
    rcases clock_step ht with hc | ⟨hl, -⟩
    · rw [hc]
      cases hstep with
      | same _ _ _ he => exact h.notOverdue d (he ▸ hd)
      | started _ he =>
        rw [he] at hd
        exact (Option.some.inj hd).le
      | stopped _ he => rw [he] at hd; cases hd
      | expired _ _ hpos he =>
        rw [he] at hd
        rw [← Option.some.inj hd]
        exact le_add_of_nonneg_right hpos
    · rw [hl] at hp
      simp only [reschedule] at hp
      split at hp
      · rename_i hall
        rw [← Option.some.inj hp] at hd
        exact hall _ (mem_of_due hd)
      · cases hp

theorem timerOk_reachable (h : (timedNet addNb).Reachable s) (n : Nsaddr) : TimerOk s n := by
  refine LTS.reachable_induct (I := fun s : Clocked K => TimerOk s n) ?_ ?_ h
  · intro s hi
    exact ⟨by simp [hi.pending, hi.net.antTimer], by simp [hi.pending]⟩
  · intro a l b ha ih hs
    cases l with
    | setTimerAnt m t =>
      cases hs
      exact ⟨ih.flag, ih.notOverdue⟩
    | act l => exact timerOk_act ha hs ih

/-- **The timed network refines the network.** Every run is one of the network
with its times erased, so what holds of all runs of the network holds here; a
timer that the network may let expire is one with a pending event, and the
clock has not passed it; and an expiry is at the time of its event. -/
theorem timed_refines {s₀ : Clocked K} (h0 : s₀.Initial) {cs : List (TimedAct K)}
    (hrun : (timedNet addNb).Run s₀ cs s) :
    (net addNb).Run s₀.net (cs.filterMap TimedAct.netAct) s.net ∧
    (∀ n, (s.net.agents n).antTimer = true ↔ ∃ d, due s.pending n = some d) ∧
    (∀ n d, due s.pending n = some d → s.net.clock ≤ d) ∧
    ∀ n o s', timedStep addNb s (.act (.expire n o)) = some s' →
      due s.pending n = some s.net.clock ∧ s'.net.clock = s.net.clock := by
  have hr : (timedNet addNb).Reachable s := ⟨s₀, cs, h0, hrun⟩
  refine ⟨timed_run hrun, fun n => ?_, fun n => (timerOk_reachable hr n).notOverdue, ?_⟩
  · rw [(timerOk_reachable hr n).flag, Option.isSome_iff_exists]
  · intro n o s' hs
    obtain ⟨hp, hn, -⟩ := timedStep_act hs
    constructor
    · cases reschedule_due hp n with
      | same _ _ h3 => exact absurd rfl (h3 o)
      | started hl | stopped hl => cases hl
      | expired _ hd => exact hd
    · rcases clock_step (trans_of_reachable (timed_net hr) hn) with hc | ⟨hl, -⟩
      · exact hc
      · cases hl

/-! ## The launches of a node -/

omit [IsStrictOrderedRing K] in
/-- A step in which nothing is generated keeps them. -/
theorem launches_keep {s s' : Net K} (h : Trans addNb s l s') (hseen : ∀ u < s.uidcnt, s.hist u ≠ [])
    (hc : s'.uidcnt = s.uidcnt) (n : Nsaddr) : launches s' n = launches s n := by
  unfold launches
  rw [hc]
  apply List.filterMap_congr
  intro u hu
  rw [trans_head h (hseen u (List.mem_range.mp hu))]

omit [IsStrictOrderedRing K] in
/-- An expiry generates one ant, now. -/
theorem launches_expire {s s' : Net K} {m : Nsaddr} {o : Oracle K}
    (h : Trans addNb s (.expire m o) s') (hi : Inv s) (hseen : ∀ u < s.uidcnt, s.hist u ≠ [])
    (n : Nsaddr) : launches s' n = launches s n ++ if m = n then [s.clock] else [] := by
  have hkept : ∀ u ∈ List.range s.uidcnt, (s'.hist u).head? = (s.hist u).head? := fun u hu =>
    trans_head h (hseen u (List.mem_range.mp hu))
  cases h with
  | command hl => cases hl
  | @expire _ _ d q log _ hsent _ =>
    obtain ⟨dest, -, hg⟩ := hsent.generated
    have hnew : (finish { s with uidcnt := s.uidcnt + 1 } m .DOWN d q (afterSend (s.agents m))
        log).hist s.uidcnt = [⟨m, .DOWN, s.clock, log⟩] := by
      rw [← hg.uid, finish_hist, hg.uid]
      show s.hist s.uidcnt ++ _ = _
      rw [hi.fresh _ (Nat.le_refl _)]
      rfl
    show (List.range (s.uidcnt + 1)).filterMap _ = (List.range s.uidcnt).filterMap _ ++ _
    rw [List.range_succ, List.filterMap_append]
    congr 1
    · apply List.filterMap_congr
      intro u hu
      rw [hkept u hu]
    · rw [List.filterMap_cons, hnew]
      by_cases hmn : m = n <;> simp [hmn]

omit [IsStrictOrderedRing K] in
theorem launches_step {s s' : Net K} (h : Trans addNb s l s') (hi : Inv s)
    (hseen : ∀ u < s.uidcnt, s.hist u ≠ []) (n : Nsaddr) :
    (∃ o, l = .expire n o) ∧ launches s' n = launches s n ++ [s.clock] ∨
    (∀ o, l ≠ .expire n o) ∧ launches s' n = launches s n := by
  by_cases hl : ∃ m o, l = .expire m o
  · obtain ⟨m, o, rfl⟩ := hl
    rw [launches_expire h hi hseen n]
    by_cases hmn : m = n
    · subst hmn
      exact .inl ⟨⟨o, rfl⟩, by rw [if_pos rfl]⟩
    · exact .inr ⟨by simp [hmn], by rw [if_neg hmn, List.append_nil]⟩
  · have hc : s'.uidcnt = s.uidcnt := by
      cases h with
      | command hl hst => exact (command_cases hl hst).1.uidcnt
      | expire => exact absurd ⟨_, _, rfl⟩ hl
      | deliver | lose => rfl
    exact .inr ⟨fun o ho => hl ⟨n, o, ho⟩, launches_keep h hseen hc n⟩

/-- The agent of `n` is not started, stopped or given another interval. -/
def Undisturbed (n : Nsaddr) (cs : List (TimedAct K)) : Prop :=
  ∀ c ∈ cs, c ≠ .act (.start n) ∧ c ≠ .act (.stop n) ∧ ∀ t, c ≠ .setTimerAnt n t

omit [IsStrictOrderedRing K] in
theorem clock_run {cs : List (TimedAct K)} (hr : (timedNet addNb).Reachable s)
    (hrun : (timedNet addNb).Run s cs s') : s.net.clock ≤ s'.net.clock := by
  refine LTS.run_induct (I := fun x : Clocked K => s.net.clock ≤ x.net.clock) hr hrun le_rfl ?_
  intro a c b ha hle hs
  cases c with
  | setTimerAnt => cases hs; exact hle
  | act l =>
    rcases clock_step (trans_of_reachable (timed_net ha) (timedStep_act hs).2.1) with hc | ⟨-, hc⟩
    · rw [hc]; exact hle
    · exact hle.trans hc

omit [LinearOrder K] [IsStrictOrderedRing K] in
/-- One time more in front of an arithmetic progression. -/
theorem progression_cons (d t : K) (k : Nat) :
    d :: (List.range k).map (fun j : Nat => d + t + j * t) =
      (List.range (k + 1)).map fun j : Nat => d + j * t := by
  rw [List.range_succ_eq_map, List.map_cons, List.map_map]
  congr 1
  · simp
  · apply List.map_congr_left
    intro j _
    simp only [Function.comp_apply, Nat.succ_eq_add_one, Nat.cast_add, Nat.cast_one]
    ring

omit [IsStrictOrderedRing K] in
theorem launches_run {cs : List (TimedAct K)} (hr : (timedNet addNb).Reachable s)
    (hrun : (timedNet addNb).Run s cs s') (hq : Undisturbed n cs) {d : K}
    (hd : due s.pending n = some d) : ∃ k : Nat,
      launches s'.net n = launches s.net n ++ (List.range k).map (fun j : Nat => d + j * s.timerAnt n) ∧
      due s'.pending n = some (d + k * s.timerAnt n) ∧
      (0 < k → d + ((k : K) - 1) * s.timerAnt n ≤ s'.net.clock) := by
  induction hrun generalizing d with
  | nil => exact ⟨0, by simp, by simpa using hd, fun h => absurd h (Nat.lt_irrefl 0)⟩
  | @cons a b e c cs hs hrest ih =>
    obtain ⟨hns, hnp, hnt⟩ := hq c List.mem_cons_self
    have hb := LTS.reachable_step hr hs
    have hq' : Undisturbed n cs := fun c hc => hq c (List.mem_cons_of_mem _ hc)
    cases c with
    | setTimerAnt m t =>
      have hm : n ≠ m := fun h => hnt t (by rw [h])
      cases hs
      obtain ⟨k, hl, hdue, hclock⟩ := ih hb hq' hd
      simp only [Function.update_of_ne hm] at hl hdue hclock
      exact ⟨k, hl, hdue, hclock⟩
    | act l =>
      obtain ⟨hp, hn, hta⟩ := timedStep_act hs
      have ha := timed_net hr
      have hlaunch := launches_step (trans_of_reachable ha hn) (inv_reachable ha)
        (numbered_reachable ha).seen n
      cases reschedule_due hp n with
      | started hl => exact absurd (congrArg TimedAct.act hl) hns
      | stopped hl => exact absurd (congrArg TimedAct.act hl) hnp
      | same _ _ h3 he =>
        obtain ⟨k, hl, hdue, hclock⟩ := ih hb hq' (he.trans hd)
        rw [hta] at hl hdue hclock
        refine ⟨k, ?_, hdue, hclock⟩
        rcases hlaunch with ⟨⟨o, ho⟩, -⟩ | ⟨-, hsame⟩
        · exact absurd ho (h3 o)
        · rw [hl, hsame]
      | @expired o hl hnow _ he =>
        obtain rfl : d = a.net.clock := Option.some.inj (hd.symm.trans hnow)
        obtain ⟨k, hl', hdue, hclock⟩ := ih hb hq' he
        rw [hta] at hl' hdue hclock
        refine ⟨k + 1, ?_, ?_, fun _ => ?_⟩
        · rcases hlaunch with ⟨-, hnew⟩ | ⟨hne, -⟩
          · rw [hl', hnew, List.append_assoc, List.singleton_append, progression_cons]
          · exact absurd hl (hne o)
        · rw [hdue, Nat.cast_add, Nat.cast_one]
          congr 1
          ring
        · rcases Nat.eq_zero_or_pos k with rfl | hk
          · have := clock_run hr (.cons hs hrest)
            simpa using this
          · have hlast : a.net.clock + (k : K) * a.timerAnt n =
                a.net.clock + a.timerAnt n + ((k : K) - 1) * a.timerAnt n := by ring
            rw [Nat.cast_add, Nat.cast_one, add_sub_cancel_right, hlast]
            exact hclock hk

/-- **Ants are generated on schedule.** From a `start` of node `n` at time `t₀`,
until the next `start`, `stop` or change of its interval `T`, the ants of `n` are
generated at `t₀`, `t₀ + T`, ..., `t₀ + (k - 1) T` and no others, whatever else
happens in the network; the next one is due at `t₀ + k T`, which the clock has
not passed. -/
theorem launch_schedule {s₀ : Clocked K} (hr : (timedNet addNb).Reachable s₀)
    (hstart : (timedNet addNb).step s₀ (.act (.start n)) s) {cs : List (TimedAct K)}
    (hrun : (timedNet addNb).Run s cs s') (hq : Undisturbed n cs) :
    let t₀ := s₀.net.clock
    let t := s₀.timerAnt n
    ∃ k : Nat,
      launches s'.net n = launches s₀.net n ++ (List.range k).map (fun j : Nat => t₀ + j * t) ∧
      due s'.pending n = some (t₀ + k * t) ∧ s'.net.clock ≤ t₀ + k * t ∧
      (0 < k → t₀ + ((k : K) - 1) * t ≤ s'.net.clock) := by
  intro t₀ t
  obtain ⟨hp, hn, hta⟩ := timedStep_act hstart
  have h0 := timed_net hr
  have hs := LTS.reachable_step hr hstart
  have hd : due s.pending n = some t₀ := by
    rw [← Option.some.inj hp, due_resched, if_pos rfl]
  obtain ⟨k, hl, hdue, hclock⟩ := launches_run hs hrun hq hd
  rw [hta] at hl hdue hclock
  refine ⟨k, ?_, hdue, (timerOk_reachable (LTS.reachable_run hs hrun) n).notOverdue _ hdue, hclock⟩
  rcases launches_step (trans_of_reachable h0 hn) (inv_reachable h0) (numbered_reachable h0).seen n
    with ⟨⟨o, ho⟩, -⟩ | ⟨-, hsame⟩
  · cases ho
  · rw [hl, hsame]

end Step

/-! ## Two ants -/

/-- Every timer with an interval of 1/10. -/
def Clocked.boot : Clocked ℚ := ⟨Net.boot, fun _ => 1 / 10, []⟩

theorem timedBoot_initial : Clocked.boot.Initial := ⟨boot_initial, rfl⟩

/-- Three nodes in a line, none of them started. -/
def wired : List (TimedAct ℚ) :=
  [.act (.addNeighbor 0 1), .act (.addNeighbor 1 2), .act (.setNumNodes 0 3)]

/-- Two ants of node 0, the first on its way when the second is generated. -/
def twoAnts : List (TimedAct ℚ) :=
  [.act (.expire 0 (idle [2])), .act (.deliver 0 0 9 (idle [])), .act (.advance (1 / 10)),
    .act (.expire 0 (idle [2]))]

theorem timed_refines_line : ∃ s : Clocked ℚ, (timedNet prependNb).Reachable s ∧
    (net prependNb).Run Net.boot ((wired ++ .act (.start 0) :: twoAnts).filterMap TimedAct.netAct) s.net := by
  have hrun : (LTS.exec (timedStep prependNb) Clocked.boot (wired ++ .act (.start 0) :: twoAnts)).isSome := by
    decide +kernel
  obtain ⟨s, hs⟩ := Option.isSome_iff_exists.mp hrun
  exact ⟨s, LTS.reachable_of_exec timedBoot_initial hs,
    (timed_refines timedBoot_initial (LTS.run_of_exec _ _ _ hs)).1⟩

/-- The second ant is generated at 1/10 and the third one is due at 2/10. -/
theorem launch_schedule_line : ∃ s : Clocked ℚ, (timedNet prependNb).Reachable s ∧ s.net.uidcnt = 2 ∧
    ∃ k : Nat, launches s.net 0 = (List.range k).map (fun j : Nat => 0 + (j : ℚ) * (1 / 10)) ∧
      s.net.clock ≤ 0 + (k : ℚ) * (1 / 10) := by
  have hrun : ((LTS.exec (timedStep prependNb) Clocked.boot wired).bind fun s₀ =>
      (timedStep prependNb s₀ (.act (.start 0))).bind fun s =>
      (LTS.exec (timedStep prependNb) s twoAnts).map fun s' => decide (s₀.net.clock = 0 ∧
        s₀.timerAnt 0 = 1 / 10 ∧ s₀.net.uidcnt = 0 ∧ s'.net.uidcnt = 2)) = some true := by decide +kernel
  obtain ⟨s₀, h0, hrun⟩ := Option.bind_eq_some_iff.mp hrun
  obtain ⟨s, hs, hrun⟩ := Option.bind_eq_some_iff.mp hrun
  obtain ⟨s', hs', hres⟩ := Option.map_eq_some_iff.mp hrun
  obtain ⟨hclock, htimer, hnone, htwo⟩ := of_decide_eq_true hres
  have hr : (timedNet prependNb).Reachable s₀ := LTS.reachable_of_exec timedBoot_initial h0
  have hrun' : (timedNet prependNb).Run s twoAnts s' := LTS.run_of_exec _ _ _ hs'
  obtain ⟨k, hl, -, hle, -⟩ := launch_schedule hr hs hrun' (by simp [Undisturbed, twoAnts])
  have hzero : launches s₀.net 0 = [] := by simp [launches, hnone]
  rw [hzero, hclock, htimer, List.nil_append] at hl
  rw [hclock, htimer] at hle
  exact ⟨s', LTS.reachable_run (LTS.reachable_step hr hs) hrun', htwo, k, hl, hle⟩

end AntNet.L4
