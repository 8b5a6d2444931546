import AntNet.L3Agent.Reinforcement

/-!
# The observation window grows without bound

`WIN_LEN` is the "maximum length of observation window" (antnet_common.h:61-62)
and `window_` the "window of trip times to all destinations" (antnet.h:87), of
which `best_tt` is the least.

What is broken: nothing uses `WIN_LEN`. `update_traffic` appends to the window
(antnet.cc:443-451) and never takes anything out, so `get_win_size` returns the
number of all observations, and a best time never leaves.

Counterexample: the trip time 1, and then 300 times the trip time 2
(`old_best_stays`).

Condition: at most `WIN_LEN` trip times have been observed for the destination
(`window_condition`).
-/
namespace AntNet.Bugs.WindowLength

open AntNet.L1 AntNet.L3.TrafficModel

variable {K : Type}

/-- The latest observations, at most `WIN_LEN` of them. -/
def latest (obs : List K) : List K := obs.drop (obs.length - WIN_LEN)

theorem latest_of_le {obs : List K} (h : obs.length ≤ WIN_LEN) : latest obs = obs := by
  unfold latest
  rw [Nat.sub_eq_zero_of_le h, List.drop_zero]

variable [Field K] [LinearOrder K]

/-- The window of a destination slides over what was observed for it. -/
structure Slides (t : Traffic K) (d : Nsaddr) (obs : List K) : Prop where
  window : (t.window d).getD [] = latest obs
  winSize : getWinSize t d = min obs.length WIN_LEN
  best : ∀ e, t.state d = some e → IsLeast {x | x ∈ latest obs} e.bestTt

/-- The best time is the least of all observations. -/
theorem summary_best {obs : List K} {e : TrafficMatrix K} (h : summary obs = some e) :
    IsLeast {x | x ∈ obs} e.bestTt := by
  obtain ⟨o, rest, rfl, rfl⟩ := summary_eq_some h
  exact leastIn_isLeast o rest

/-! ## Counterexample -/

def oneThenTwos : List K := 1 :: List.replicate 300 2

omit [LinearOrder K] in
theorem oneThenTwos_length : (oneThenTwos : List K).length = 301 := by
  rw [oneThenTwos, List.length_cons, List.length_replicate]

omit [LinearOrder K] in
theorem latest_oneThenTwos : latest (oneThenTwos : List K) = List.replicate 300 2 := by
  unfold latest
  rw [oneThenTwos_length]
  rfl

theorem oneThenTwos_least : IsLeast {x | x ∈ (oneThenTwos : List ℝ)} 1 := by
  refine ⟨List.mem_cons_self, fun x hx => ?_⟩
  rcases List.mem_cons.mp hx with rfl | hx
  · exact le_rfl
  · rw [List.eq_of_mem_replicate hx]
    norm_num

/-- **Counterexample**: after 301 observations the window has them all, and the
best time is still the first one, which is not among the latest 300. -/
theorem old_best_stays : ∃ t' : Traffic ℝ,
    runCalls Real.sqrt 0 (Traffic.empty 0) (oneThenTwos.map oneHop) = some t' ∧
    observed 0 1 (oneThenTwos.map oneHop) = (oneThenTwos : List ℝ) ∧ getWinSize t' 1 = 301 ∧
    (∃ e, t'.state 1 = some e ∧ e.bestTt = 1) ∧ ¬ Slides t' 1 oneThenTwos := by
  obtain ⟨t', hrun⟩ := runCalls_oneHop Real.sqrt (Traffic.empty (0 : ℝ)) oneThenTwos
  have hobs : observed 0 1 (oneThenTwos.map oneHop) = (oneThenTwos : List ℝ) := observed_oneHop _
  have ha := agrees_runCalls (empty_initial _) hrun
  have hstate := ha.state 1
  have hsize := getWinSize_eq (ha.window 1)
  rw [hobs, oneThenTwos_length] at hsize
  rw [hobs] at hstate
  obtain ⟨e, he⟩ : ∃ e, summary (oneThenTwos : List ℝ) = some e := ⟨_, rfl⟩
  rw [he] at hstate
  have hone : e.bestTt = 1 := (summary_best he).unique oneThenTwos_least
  refine ⟨t', hrun, hobs, hsize, ⟨e, hstate, hone⟩, ?_⟩
  intro h
  have hbest := (h.best e hstate).1
  rw [latest_oneThenTwos, hone] at hbest
  have := List.eq_of_mem_replicate hbest
  norm_num at this

/-! ## When the window slides -/

omit [Field K] [LinearOrder K] in
theorem windowOf_getD (obs : List K) : (windowOf obs).getD [] = obs := by
  cases obs <;> rfl

/-- **When the window slides**: exactly as long as no more than `WIN_LEN` trip
times were observed for the destination. -/
theorem window_condition (sqrt : K → K) (self d : Nsaddr) {t t' : Traffic K} (ht : t.Initial)
    {ahs : List (HdrAntPkt K)} (hrun : runCalls sqrt self t ahs = some t') :
    Slides t' d (observed self d ahs) ↔ (observed self d ahs).length ≤ WIN_LEN := by
  have ha := agrees_runCalls ht hrun
  have hsize := getWinSize_eq (ha.window d)
  constructor
  · intro h
    have hmin := h.winSize
    omega
  · intro hle
    have hlatest := latest_of_le hle
    refine ⟨?_, by omega, ?_⟩
    · rw [hlatest, ha.window, windowOf_getD]
    · intro e he
      rw [ha.state] at he
      rw [hlatest]
      exact summary_best he

/-- Two trips to the neighbor. -/
theorem window_condition_neighbor : ∃ t' : Traffic ℝ,
    runCalls Real.sqrt 0 (Traffic.empty 0) [oneHop 2, oneHop 3] = some t' ∧ Slides t' 1 [2, 3] := by
  obtain ⟨t', hrun⟩ := runCalls_oneHop Real.sqrt (Traffic.empty (0 : ℝ)) [2, 3]
  have hiff := window_condition Real.sqrt 0 1 (empty_initial 0) hrun
  rw [observed_oneHop] at hiff
  exact ⟨t', hrun, hiff.mpr (by simp [WIN_LEN])⟩

end AntNet.Bugs.WindowLength
