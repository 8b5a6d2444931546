import AntNet.Core.Smoothing
import AntNet.L3Agent.Observations
import Mathlib.Analysis.Real.Sqrt

/-!
# The adaptive reinforcement factor

`update_traffic` computes `r` from an entry of `state_`, the size of the window
and the current trip time. Over memories in which the node is followed by later
entries with larger trip times (`Observable`), the entries keep
`0 < best_tt ≤ mean_tt` and `0 ≤ var_tt` (`summary_entryOk`), and from an entry of
this kind every root and quotient on the way to `r` is defined and `r` is in
`[0, 1]` (`evaluated_defined`, `reinforcement_mem`).
-/
namespace AntNet.L3.TrafficModel

open AntNet.L1 AntNet.Samples AntNet.Smoothing

variable {K : Type} [Field K] [LinearOrder K] [IsStrictOrderedRing K]

/-! ## Entries -/

structure EntryOk (e : TrafficMatrix K) : Prop where
  best_pos : 0 < e.bestTt
  best_le : e.bestTt ≤ e.meanTt
  var_nonneg : 0 ≤ e.varTt

theorem varsigma_nonneg : (0 : K) ≤ VARSIGMA := by unfold VARSIGMA; norm_num

theorem varsigma_le_one : (VARSIGMA : K) ≤ 1 := by unfold VARSIGMA; norm_num

omit [LinearOrder K] [IsStrictOrderedRing K] in
theorem foldl_momentsStep_fst : ∀ (os : List K) (s : K × K),
    (os.foldl momentsStep s).1 = os.foldl (smooth VARSIGMA) s.1
  | [], _ => rfl
  | x :: os, s => foldl_momentsStep_fst os (momentsStep s x)

theorem var_nonneg : ∀ (os : List K) (s : K × K), 0 ≤ s.2 → 0 ≤ (os.foldl momentsStep s).2
  | [], _, hs => hs
  | _ :: os, _, _ =>
    var_nonneg os _ (le_smooth varsigma_nonneg varsigma_le_one (mul_self_nonneg _)
      (mul_self_nonneg _))

omit [IsStrictOrderedRing K] in
theorem leastIn_isLeast (o : K) (os : List K) : IsLeast {x | x ∈ o :: os} (leastIn (some (o :: os))) := by
  have h := scanLeast_isLeast (o :: os) o
  refine ⟨?_, fun x hx => h.2 (.inr hx)⟩
  rcases h.1 with h1 | h1
  · show scanLeast o (o :: os) ∈ o :: os
    rw [h1]
    exact List.mem_cons_self
  · exact h1

/-- The best time bounds all observations, so also the running mean. -/
theorem summary_entryOk {os : List K} (hos : ∀ x ∈ os, 0 < x) {e : TrafficMatrix K}
    (h : summary os = some e) : EntryOk e ∧ ∀ x ∈ os, e.bestTt ≤ x := by
  cases os with
  | nil => cases h
  | cons o os =>
    obtain rfl := Option.some.inj h
    have hleast := leastIn_isLeast o os
    have hbest : ∀ x ∈ o :: os, leastIn (some (o :: os)) ≤ x := fun x hx => hleast.2 hx
    refine ⟨⟨hos _ hleast.1, ?_, ?_⟩, hbest⟩
    · show _ ≤ (os.foldl momentsStep (o, o)).1
      rw [foldl_momentsStep_fst]
      exact le_foldl_smooth varsigma_nonneg varsigma_le_one os (hbest o List.mem_cons_self)
        fun x hx => hbest x (List.mem_cons_of_mem _ hx)
    · exact var_nonneg os (o, o) (le_of_lt (hos o List.mem_cons_self))

/-! ## The factor -/

/-- What the C library's `sqrt` is used for here. -/
structure SqrtLike (sqrt : K → K) : Prop where
  nonneg : ∀ x, 0 ≤ sqrt x
  pos : ∀ x, 0 < x → 0 < sqrt x

theorem sqrtLike_real : SqrtLike Real.sqrt :=
  ⟨Real.sqrt_nonneg, fun _ h => Real.sqrt_pos.mpr h⟩

def Arith.Defined : Arith K → Prop
  | .sqrt x => 0 ≤ x
  | .div _ y => y ≠ 0

section Factor

variable {sqrt : K → K} (hsqrt : SqrtLike sqrt) {e : TrafficMatrix K} (he : EntryOk e) {w : Nat}
  {tt : K} (htt : e.bestTt ≤ tt)

include hsqrt he

theorem best_le_iSup : e.bestTt ≤ iSup sqrt e w := by
  have hzee : (0 : K) ≤ zee := by unfold zee; norm_num
  have hq : 0 ≤ sqrt e.varTt / sqrt (w : K) := div_nonneg (hsqrt.nonneg _) (hsqrt.nonneg _)
  have hmul := mul_nonneg hzee hq
  have hbest := he.best_le
  unfold iSup
  linarith [hmul, hbest]

include htt

/-- The guard covers exactly the zero denominators. -/
theorem denominator_pos (hg : ¬ (iSup sqrt e w = e.bestTt ∧ e.bestTt = tt)) :
    0 < (iSup sqrt e w - e.bestTt) + (tt - e.bestTt) := by
  have hsup : 0 ≤ iSup sqrt e w - e.bestTt := sub_nonneg.mpr (best_le_iSup hsqrt he)
  have htt' : 0 ≤ tt - e.bestTt := sub_nonneg.mpr htt
  refine lt_of_le_of_ne (add_nonneg hsup htt') fun h0 => hg ?_
  constructor
  · linarith
  · linarith

theorem evaluated_defined (hw : 0 < w) : ∀ op ∈ evaluated sqrt e w tt, op.Defined := by
  have hroot : 0 < sqrt (w : K) := hsqrt.pos _ (Nat.cast_pos.mpr hw)
  intro op hop
  rcases List.mem_append.mp hop with hop | hop
  · simp only [List.mem_cons, List.not_mem_nil, or_false] at hop
    rcases hop with rfl | rfl | rfl
    · exact he.var_nonneg
    · exact Nat.cast_nonneg w
    · exact ne_of_gt hroot
  · split at hop
    · cases hop
    · rename_i hg
      simp only [List.mem_cons, List.not_mem_nil, or_false] at hop
      rcases hop with rfl | rfl
      · exact ne_of_gt (lt_of_lt_of_le he.best_pos htt)
      · exact ne_of_gt (denominator_pos hsqrt he htt hg)

theorem reinforcement_mem : 0 ≤ reinforcement sqrt e w tt ∧ reinforcement sqrt e w tt ≤ 1 := by
  unfold reinforcement
  split
  · exact ⟨le_rfl, zero_le_one⟩
  · rename_i hg
    have hpos : 0 < tt := lt_of_lt_of_le he.best_pos htt
    have hden := denominator_pos hsqrt he htt hg
    have hsup : 0 ≤ iSup sqrt e w - e.bestTt := sub_nonneg.mpr (best_le_iSup hsqrt he)
    have hbest0 : 0 ≤ e.bestTt / tt := div_nonneg (le_of_lt he.best_pos) (le_of_lt hpos)
    have hbest1 : e.bestTt / tt ≤ 1 := (div_le_one hpos).mpr htt
    have hq0 := div_nonneg hsup (le_of_lt hden)
    have hq1 := (div_le_one hden).mpr (le_add_of_nonneg_right (sub_nonneg.mpr htt))
    have hc1 : (c1 : K) = 7 / 10 := rfl
    have hc2 : (c2 : K) = 3 / 10 := rfl
    rw [hc1, hc2]
    constructor
    · linarith
    · linarith

end Factor

/-! ## Runs -/

/-- A memory in which the node is found at `i`, with later entries that are
reached after a positive time. -/
structure Observable (node : Nsaddr) (ah : HdrAntPkt K) (i : Nat) (m : Memory K) : Prop where
  size : ah.pktMemSize ≤ MAX_NUM_NODES
  entry : (liveMem ah.pktMemory ah.pktMemSize)[i]? = some m
  here : m.nodeAddr = node
  later : (i : Int) + 1 < ah.pktMemSize
  nodup : ((liveMem ah.pktMemory ah.pktMemSize).map (·.nodeAddr)).Nodup
  positive : ∀ j m', i < j → (liveMem ah.pktMemory ah.pktMemSize)[j]? = some m' →
    0 < m'.tripTime - m.tripTime

section Observable

variable {self : Nsaddr} {ah : HdrAntPkt K} {i : Nat} {m : Memory K}

omit [IsStrictOrderedRing K] in
theorem Observable.getElem (h : Observable self ah i m) :
    ∃ hi : i < MAX_NUM_NODES, ah.pktMemory[i] = m := by
  have hsize := h.size
  have hlater := h.later
  have hi : i < MAX_NUM_NODES := by omega
  have hlive : (liveMem ah.pktMemory ah.pktMemSize)[i]? = some ah.pktMemory[i] :=
    liveMem_getElem? (by omega) hi
  rw [h.entry] at hlive
  exact ⟨hi, (Option.some.inj hlive).symm⟩

omit [IsStrictOrderedRing K] in
theorem Observable.readable (h : Observable self ah i m) : Readable self ah i := by
  have hsize := h.size
  have hlater := h.later
  obtain ⟨hi, hentry⟩ := h.getElem
  refine ⟨?_, by omega, by omega⟩
  unfold placeOf
  rw [List.findIdx?_eq_some_iff_getElem]
  refine ⟨by simpa using hi, by simp [hentry, h.here], ?_⟩
  -- an earlier entry with the same address would be a second one
  intro j hji
  have hj : j < MAX_NUM_NODES := by omega
  have hlive : (liveMem ah.pktMemory ah.pktMemSize)[j]? = some ah.pktMemory[j] :=
    liveMem_getElem? (by omega) hj
  have hjnode : ((liveMem ah.pktMemory ah.pktMemSize).map (·.nodeAddr))[j]?
      = some ah.pktMemory[j].nodeAddr := by rw [List.getElem?_map, hlive]; rfl
  have hinode : ((liveMem ah.pktMemory ah.pktMemSize).map (·.nodeAddr))[i]? = some self := by
    rw [List.getElem?_map, h.entry, ← h.here]; rfl
  simp only [Vector.getElem_toList, decide_eq_true_eq]
  intro heq
  rw [heq, ← hinode] at hjnode
  have hlen := (List.getElem?_eq_some_iff.mp hinode).1
  have := (List.getElem?_inj (by omega) h.nodup).mp hjnode
  omega

omit [IsStrictOrderedRing K] in
theorem Observable.samples_pos (h : Observable self ah i m) : ∀ x ∈ samples self ah, 0 < x.2 := by
  obtain ⟨hi, hentry⟩ := h.getElem
  intro x hx
  rw [samples_eq h.readable hi, hentry] at hx
  obtain ⟨k, hk⟩ := List.mem_iff_getElem?.mp hx
  simp only [laterSamples, List.getElem?_map, List.getElem?_drop] at hk
  obtain ⟨m', hm', rfl⟩ := Option.map_eq_some_iff.mp hk
  exact h.positive _ m' (by omega) hm'

end Observable

/-- What the agent's traffic model keeps. -/
structure Sound (t : Traffic K) : Prop where
  entries : ∀ d e, t.state d = some e → EntryOk e
  ops : ∀ op ∈ t.ops, op.Defined
  rs : ∀ r ∈ t.rs, 0 ≤ r ∧ r ≤ 1

/-- The third loop, over samples whose entries are sound and bound them. -/
theorem foldl_rated_sound {sqrt : K → K} (hsqrt : SqrtLike sqrt) : ∀ (l : List (Nsaddr × K))
    {t : Traffic K}, Sound t →
      (∀ x ∈ l, (∃ e, t.state x.1 = some e ∧ e.bestTt ≤ x.2) ∧ 0 < getWinSize t x.1) →
        Sound (l.foldl (rated sqrt) t)
  | [], _, h, _ => h
  | x :: l, t, h, hl => by
    obtain ⟨⟨e, he, htt⟩, hw⟩ := hl x List.mem_cons_self
    have hentry : entryAt t x.1 = e := by rw [entryAt, he]; rfl
    have hok := h.entries _ _ he
    refine foldl_rated_sound hsqrt l (t := rated sqrt t x) ⟨h.entries, ?_, ?_⟩
      fun y hy => hl y (List.mem_cons_of_mem _ hy)
    · intro op hop
      rcases List.mem_append.mp hop with hop | hop
      · exact h.ops op hop
      · rw [hentry] at hop
        exact evaluated_defined hsqrt hok htt hw op hop
    · intro r hr
      rcases List.mem_append.mp hr with hr | hr
      · exact h.rs r hr
      · rw [List.mem_singleton.mp hr, hentry]
        exact reinforcement_mem hsqrt hok htt

omit [IsStrictOrderedRing K] in
theorem pos_append {obs : Nsaddr → List K} {l : List (Nsaddr × K)} (hobs : ∀ d, ∀ x ∈ obs d, 0 < x)
    (hl : ∀ x ∈ l, 0 < x.2) : ∀ d, ∀ x ∈ obs d ++ valuesAt d l, 0 < x := by
  intro d x hx
  rcases List.mem_append.mp hx with hx | hx
  · exact hobs d x hx
  · exact hl _ (mem_valuesAt.mp hx)

theorem Sound.call {sqrt : K → K} (hsqrt : SqrtLike sqrt) {obs : Nsaddr → List K} {t : Traffic K}
    (h : Sound t) (ha : Agrees obs t) (hobs : ∀ d, ∀ x ∈ obs d, 0 < x) {l : List (Nsaddr × K)}
    (hl : ∀ x ∈ l, 0 < x.2) : Sound (afterCall sqrt l t) := by
  have hb := ha.beforeRating l
  have hpos := pos_append hobs hl
  refine foldl_rated_sound hsqrt l ⟨?_, ?_, ?_⟩ ?_
  · intro d e he
    rw [hb.state] at he
    exact (summary_entryOk (hpos d) he).1
  · rw [beforeRating, foldl_tracked, foldl_pushed]
    exact h.ops
  · rw [beforeRating, foldl_tracked, foldl_pushed]
    exact h.rs
  · intro x hx
    -- the current trip time is among the observations, so they are not empty
    have hmem : x.2 ∈ obs x.1 ++ valuesAt x.1 l := List.mem_append_right _ (mem_valuesAt.mpr hx)
    obtain ⟨o, os, hos⟩ := List.exists_cons_of_ne_nil (List.ne_nil_of_mem hmem)
    have hstate : (beforeRating l t).state x.1 = summary (o :: os) := (hb.state _).trans (by rw [hos])
    refine ⟨⟨_, hstate, ?_⟩, ?_⟩
    · exact (summary_entryOk (hpos x.1) ((congrArg summary hos).trans rfl)).2 _ hmem
    · rw [getWinSize_eq (hb.window _), hos]
      exact Nat.succ_pos _

theorem sound_exec {sqrt : K → K} (hsqrt : SqrtLike sqrt) {self : Nsaddr} :
    ∀ (ahs : List (HdrAntPkt K)) {obs : Nsaddr → List K} {t : Traffic K}, Agrees obs t →
      (∀ d, ∀ x ∈ obs d, 0 < x) → Sound t → (∀ ah ∈ ahs, ∃ i m, Observable self ah i m) →
        ∃ t', runCalls sqrt self t ahs = some t' ∧ Sound t'
  | [], _, t, _, _, h, _ => ⟨t, rfl, h⟩
  | ah :: ahs, obs, t, ha, hobs, h, hahs => by
    obtain ⟨i, m, hah⟩ := hahs ah List.mem_cons_self
    have hl := hah.samples_pos
    obtain ⟨t', hrun, ht'⟩ := sound_exec hsqrt ahs (ha.afterCall sqrt _) (pos_append hobs hl)
      (h.call hsqrt ha hobs hl) fun ah' hm => hahs ah' (List.mem_cons_of_mem _ hm)
    exact ⟨t', Option.bind_eq_some_iff.mpr ⟨_, call_eq sqrt hah.readable t, hrun⟩, ht'⟩

/-- **The reinforcement factor is well defined and in range**: over any
sequence of calls with observable memories the calls return, every entry has
`0 < best_tt ≤ mean_tt` and `0 ≤ var_tt`, no root is taken of a negative number,
nothing is divided by zero, and every value of `r` is in `[0, 1]`. -/
theorem reinforcement_sound (self : Nsaddr) {t : Traffic ℝ} (ht : t.Initial)
    {ahs : List (HdrAntPkt ℝ)} (hahs : ∀ ah ∈ ahs, ∃ i m, Observable self ah i m) :
    ∃ t', runCalls Real.sqrt self t ahs = some t' ∧ Sound t' := by
  have ha : Agrees (fun _ => []) t := ⟨ht.window, ht.state⟩
  refine sound_exec sqrtLike_real ahs ha (by simp) ⟨?_, ?_, ?_⟩ hahs
  · intro d e he
    rw [ht.state] at he; cases he
  · rw [ht.ops]; simp
  · rw [ht.rs]; simp

omit [IsStrictOrderedRing K] in
theorem oneHop_observable {tt : K} (h : 0 < tt) : Observable 0 (oneHop tt) 0 ⟨0, 0⟩ := by
  have hlive := oneHop_live tt
  refine ⟨by show (2 : Int) ≤ 16; decide, by rw [hlive]; rfl, rfl, by show (0 : Int) + 1 < 2; decide,
    ?_, ?_⟩
  · rw [hlive]
    show [(0 : Int), 1].Nodup
    decide
  · intro j m' hj hm'
    rw [hlive] at hm'
    obtain ⟨k, rfl⟩ : ∃ k, j = k + 1 := ⟨j - 1, by omega⟩
    cases k with
    | zero =>
      cases hm'
      simpa using h
    | succ k => cases hm'

/-- Two trips to the neighbor. -/
theorem reinforcement_sound_neighbor : ∃ t',
    runCalls Real.sqrt 0 (Traffic.empty 0) [oneHop 2, oneHop 3] = some t' ∧ Sound t' := by
  refine reinforcement_sound 0 (empty_initial 0) fun ah hah => ?_
  simp only [List.mem_cons, List.not_mem_nil, or_false] at hah
  rcases hah with rfl | rfl
  · exact ⟨0, _, oneHop_observable (by norm_num)⟩
  · exact ⟨0, _, oneHop_observable (by norm_num)⟩

end AntNet.L3.TrafficModel
