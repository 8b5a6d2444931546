import AntNet.L3Agent.Traffic

/-!
# What the traffic model makes of its observations

`samples self ah` are the trip times one call of `update_traffic` observes,
with their destinations, and `observed self d ahs` those for `d` over a list of
calls. `call_eq` is the only place where the program is followed: a call is
three folds over its samples. From it `agrees_runCalls`: after any calls that
return, `window_[d]` holds all observations for `d`, and `state_[d]` their
`summary`.
-/
namespace AntNet.L3.TrafficModel

open AntNet.L1 AntNet.Samples

variable {K : Type} [Field K]

/-! ## The samples of a call -/

/-- The entries from `i` on, with their trip times counted from `initialtt`. -/
def laterSamples (ah : HdrAntPkt K) (i : Nat) (initialtt : K) : List (Nsaddr × K) :=
  ((liveMem ah.pktMemory ah.pktMemSize).drop i).map fun m => (m.nodeAddr, m.tripTime - initialtt)

/-- The place where `update_traffic` finds the node. -/
def placeOf (self : Nsaddr) (ah : HdrAntPkt K) : Option Nat :=
  ah.pktMemory.toList.findIdx? fun m => m.nodeAddr = self

def tripTimeAt (ah : HdrAntPkt K) (i : Nat) : K := (ah.pktMemory[i]?.map (·.tripTime)).getD 0

def samples (self : Nsaddr) (ah : HdrAntPkt K) : List (Nsaddr × K) :=
  match placeOf self ah with
  | some i => laterSamples ah (i + 1) (tripTimeAt ah i)
  | none => []

/-- The trip times for `d` in a list of calls. -/
def observed (self d : Nsaddr) (ahs : List (HdrAntPkt K)) : List K :=
  ahs.flatMap fun ah => valuesAt d (samples self ah)

/-- A memory that the loops of `update_traffic` do not leave. -/
structure Readable (node : Nsaddr) (ah : HdrAntPkt K) (i : Nat) : Prop where
  place : placeOf node ah = some i
  next : i + 1 < MAX_NUM_NODES
  size : ah.pktMemSize.toNat ≤ MAX_NUM_NODES

theorem samples_eq {self : Nsaddr} {ah : HdrAntPkt K} {i : Nat} (hr : Readable self ah i)
    (hi : i < MAX_NUM_NODES) :
    samples self ah = laterSamples ah (i + 1) ah.pktMemory[i].tripTime := by
  unfold samples tripTimeAt
  rw [hr.place]
  simp [hi]

section Loop

variable {ah : HdrAntPkt K} {i : Nat} {t t' : Traffic K}

omit [Field K] in
theorem memAt_ok (h : i < MAX_NUM_NODES) : (memAt ah i).exec t = (.ok ah.pktMemory[i], t) := by
  unfold memAt
  rw [dif_pos h]
  rfl

omit [Field K] in
theorem lt_of_memAt {m : Memory K} (h : (memAt ah i).exec t = (.ok m, t')) : i < MAX_NUM_NODES := by
  unfold memAt at h
  split at h
  · assumption
  · cases h

theorem laterSamples_length (hs : ah.pktMemSize.toNat ≤ MAX_NUM_NODES) (initialtt : K) :
    (laterSamples ah i initialtt).length = ah.pktMemSize.toNat - i := by
  simp only [laterSamples, liveMem, List.length_map, List.length_drop, List.length_take,
    Vector.length_toList]
  omega

theorem laterSamples_getElem? {k : Nat} {initialtt : K} {x : Nsaddr × K}
    (h : (laterSamples ah i initialtt)[k]? = some x) :
    ∃ hk : i + k < MAX_NUM_NODES,
      x = (ah.pktMemory[i + k].nodeAddr, ah.pktMemory[i + k].tripTime - initialtt) := by
  simp only [laterSamples, liveMem, List.getElem?_map, List.getElem?_drop, List.getElem?_take] at h
  split at h
  · obtain ⟨m, hm, rfl⟩ := Option.map_eq_some_iff.mp h
    obtain ⟨hk, rfl⟩ := List.getElem?_eq_some_iff.mp hm
    exact ⟨by simpa using hk, by simp⟩
  · cases h

/-- One of the three loops, when its body is a state transformer as long as `I` holds. -/
theorem exec_eachLater {I : Traffic K → Prop} {f : Traffic K → Nsaddr × K → Traffic K}
    {body : Nsaddr → K → TrafficM K Unit} (hs : ah.pktMemSize.toNat ≤ MAX_NUM_NODES) {initialtt : K}
    (ht : I t) (hbody : ∀ x ∈ laterSamples ah i initialtt, ∀ t, I t →
      (body x.1 x.2).exec t = (.ok (), f t x) ∧ I (f t x)) :
    (eachLater ah i initialtt body).exec t = (.ok (), (laterSamples ah i initialtt).foldl f t) ∧
      I ((laterSamples ah i initialtt).foldl f t) := by
  unfold eachLater
  rw [← laterSamples_length hs initialtt]
  refine Prog.exec_forUp _ i t ht ?_
  intro k x t hx hI
  obtain ⟨hk, hval⟩ := laterSamples_getElem? hx
  obtain ⟨he, hI'⟩ := hbody x (List.mem_of_getElem? hx) t hI
  refine ⟨?_, hI'⟩
  simp only [Prog.exec_bind, memAt_ok hk]
  rw [hval] at he ⊢
  exact he

/-- A loop that returns has stayed in the array. -/
theorem size_of_eachLater {body : Nsaddr → K → TrafficM K Unit} {initialtt : K}
    (hi : i ≤ MAX_NUM_NODES) (h : (eachLater ah i initialtt body).exec t = (.ok (), t')) :
    ah.pktMemSize.toNat ≤ MAX_NUM_NODES := by
  by_contra hs
  obtain ⟨t₁, t₂, hb⟩ := Prog.forUp_ok _ _ h (MAX_NUM_NODES - i) (by omega)
  obtain ⟨m, t₃, hm, -⟩ := Prog.exec_bind_ok hb
  have := lt_of_memAt hm
  omega

end Loop

/-! ## The three loops as folds -/

/-- The least trip time of a window. -/
def leastIn [LinearOrder K] : Option (List K) → K
  | some (first :: rest) => scanLeast first (first :: rest)
  | _ => 0

def pushed (t : Traffic K) (x : Nsaddr × K) : Traffic K :=
  { t with window := Function.update t.window x.1 (some (pushBack (t.window x.1) x.2)) }

section Folds

variable [LinearOrder K] {t : Traffic K} {l : List (Nsaddr × K)}

def tracked (t : Traffic K) (x : Nsaddr × K) : Traffic K :=
  { t with
    state := Function.update t.state x.1
      (some (observe (leastIn (t.window x.1)) (t.state x.1) x.2)) }

/-- `I_sup` of a destination observed `w` times.
mirrors antnet.cc:499-502 -/
def iSup (sqrt : K → K) (e : TrafficMatrix K) (w : Nat) : K :=
  e.meanTt + zee * (sqrt e.varTt / sqrt (w : K))

/-- mirrors antnet.cc:503-506 -/
def reinforcement (sqrt : K → K) (e : TrafficMatrix K) (w : Nat) (tt : K) : K :=
  if iSup sqrt e w = e.bestTt ∧ e.bestTt = tt then 0
  else c1 * (e.bestTt / tt) +
    c2 * ((iSup sqrt e w - e.bestTt) / ((iSup sqrt e w - e.bestTt) + (tt - e.bestTt)))

/-- The square roots and divisions on the way to it. -/
def evaluated (sqrt : K → K) (e : TrafficMatrix K) (w : Nat) (tt : K) : List (Arith K) :=
  [.sqrt e.varTt, .sqrt (w : K), .div (sqrt e.varTt) (sqrt (w : K))] ++
    if iSup sqrt e w = e.bestTt ∧ e.bestTt = tt then []
    else [.div e.bestTt tt,
      .div (iSup sqrt e w - e.bestTt) ((iSup sqrt e w - e.bestTt) + (tt - e.bestTt))]

def entryAt (t : Traffic K) (d : Nsaddr) : TrafficMatrix K := (t.state d).getD ⟨0, 0, 0⟩

def rated (sqrt : K → K) (t : Traffic K) (x : Nsaddr × K) : Traffic K :=
  { t with
    r := reinforcement sqrt (entryAt t x.1) (getWinSize t x.1) x.2
    rs := t.rs ++ [reinforcement sqrt (entryAt t x.1) (getWinSize t x.1) x.2]
    ops := t.ops ++ evaluated sqrt (entryAt t x.1) (getWinSize t x.1) x.2 }

omit [Field K] [LinearOrder K] in
theorem exec_updateWindow (x : Nsaddr × K) : (updateWindow x.1 x.2).exec t = (.ok (), pushed t x) := rfl

theorem exec_updateState {x : Nsaddr × K} {first : K} {rest : List K}
    (h : t.window x.1 = some (first :: rest)) :
    (updateState x.1 x.2).exec t = (.ok (), tracked t x) := by
  simp only [updateState, Prog.exec_bind, Prog.exec_get, h, Prog.exec_modify, tracked, leastIn]

omit [LinearOrder K] in
theorem exec_stateAt {d : Nsaddr} {e : TrafficMatrix K} (h : t.state d = some e) :
    (stateAt d).exec t = (.ok e, t) := by
  simp only [stateAt, Prog.exec_bind, Prog.exec_get, h, Prog.exec_pure]

theorem exec_findR (sqrt : K → K) {x : Nsaddr × K} {e : TrafficMatrix K}
    (h : t.state x.1 = some e) : (findR sqrt x.1 x.2).exec t = (.ok (), rated sqrt t x) := by
  have he : entryAt t x.1 = e := by rw [entryAt, h]; rfl
  have hw : ∀ ops, getWinSize { t with ops := ops } x.1 = getWinSize t x.1 := fun _ => rfl
  unfold rated
  rw [he]
  simp only [findR, sqrtOf, quotient, setR, Prog.exec_bind, exec_stateAt h, Prog.exec_get,
    Prog.exec_pure, Prog.exec_modify, hw]
  generalize getWinSize t x.1 = w
  rw [show e.meanTt + zee * (sqrt e.varTt / sqrt (w : K)) = iSup sqrt e w from rfl]
  by_cases hg : iSup sqrt e w = e.bestTt ∧ e.bestTt = x.2
  · simp only [if_pos hg, Prog.exec_modify, reinforcement, evaluated, List.append_assoc,
      List.nil_append, List.append_nil, List.cons_append]
  · simp only [if_neg hg, Prog.exec_bind, Prog.exec_pure, Prog.exec_modify, reinforcement, evaluated,
      List.append_assoc, List.nil_append, List.cons_append]

omit [Field K] [LinearOrder K] in
theorem foldl_pushed : ∀ (l : List (Nsaddr × K)) (t : Traffic K), l.foldl pushed t =
    { t with
      window := l.foldl (fun win x => Function.update win x.1 (some (pushBack (win x.1) x.2)))
        t.window }
  | [], _ => rfl
  | x :: l, t => foldl_pushed l (pushed t x)

theorem foldl_tracked : ∀ (l : List (Nsaddr × K)) (t : Traffic K), l.foldl tracked t =
    { t with state := l.foldl (fun state x =>
        Function.update state x.1 (some (observe (leastIn (t.window x.1)) (state x.1) x.2))) t.state }
  | [], _ => rfl
  | x :: l, t => foldl_tracked l (tracked t x)

theorem foldl_rated_maps (sqrt : K → K) : ∀ (l : List (Nsaddr × K)) (t : Traffic K),
    (l.foldl (rated sqrt) t).window = t.window ∧ (l.foldl (rated sqrt) t).state = t.state
  | [], _ => ⟨rfl, rfl⟩
  | x :: l, t => foldl_rated_maps sqrt l (rated sqrt t x)

omit [Field K] [LinearOrder K] in
theorem window_foldl_pushed (d : Nsaddr) (l : List (Nsaddr × K)) (t : Traffic K) :
    (l.foldl pushed t).window d
      = (valuesAt d l).foldl (fun win tt => some (pushBack win tt)) (t.window d) := by
  rw [foldl_pushed]
  exact foldl_update_apply (fun _ win tt => some (pushBack win tt)) d l t.window

theorem state_foldl_tracked (d : Nsaddr) (l : List (Nsaddr × K)) (t : Traffic K) :
    (l.foldl tracked t).state d
      = (valuesAt d l).foldl (fun e tt => some (observe (leastIn (t.window d)) e tt)) (t.state d) := by
  rw [foldl_tracked]
  exact foldl_update_apply (fun d e tt => some (observe (leastIn (t.window d)) e tt)) d l t.state

/-! ## A call -/

def beforeRating (l : List (Nsaddr × K)) (t : Traffic K) : Traffic K :=
  l.foldl tracked (l.foldl pushed t)

def afterCall (sqrt : K → K) (l : List (Nsaddr × K)) (t : Traffic K) : Traffic K :=
  l.foldl (rated sqrt) (beforeRating l t)

omit [Field K] [LinearOrder K] in
theorem foldl_pushBack : ∀ (os win : List K),
    os.foldl (fun win tt => some (pushBack win tt)) (some win) = some (win ++ os)
  | [], win => by simp
  | o :: os, win => by
    rw [List.foldl_cons, show pushBack (some win) o = win ++ [o] from rfl, foldl_pushBack os]
    simp

/-- A fold that has run its body at least once. -/
theorem foldl_some {S V : Type} (g : Option S → V → S) {vs : List V} (h : vs ≠ []) (e : Option S) :
    ∃ e' v, vs.foldl (fun e v => some (g e v)) e = some (g e' v) := by
  obtain ⟨vs', v, rfl⟩ := (List.eq_nil_or_concat vs).resolve_left h
  rw [List.concat_eq_append, List.foldl_append]
  exact ⟨_, v, rfl⟩

omit [Field K] [LinearOrder K] in
theorem valuesAt_ne_nil {x : Nsaddr × K} (h : x ∈ l) : valuesAt x.1 l ≠ [] :=
  List.ne_nil_of_mem (mem_valuesAt.mpr h)

omit [Field K] [LinearOrder K] in
/-- After the first loop every observed destination has a window. -/
theorem pushed_window {x : Nsaddr × K} (h : x ∈ l) :
    ∃ first rest, (l.foldl pushed t).window x.1 = some (first :: rest) := by
  obtain ⟨win, tt, hw⟩ := foldl_some pushBack (valuesAt_ne_nil h) (t.window x.1)
  rw [window_foldl_pushed, hw]
  cases win with
  | none => exact ⟨tt, [], rfl⟩
  | some win =>
    obtain ⟨first, rest, hc⟩ := List.exists_cons_of_ne_nil (List.append_ne_nil_of_right_ne_nil win
      (List.cons_ne_nil tt []))
    exact ⟨first, rest, congrArg some hc⟩

/-- After the second one it has an entry. -/
theorem tracked_state {x : Nsaddr × K} (h : x ∈ l) :
    ∃ e, (l.foldl tracked t).state x.1 = some e := by
  obtain ⟨e, tt, he⟩ := foldl_some (observe (leastIn (t.window x.1))) (valuesAt_ne_nil h) (t.state x.1)
  exact ⟨_, (state_foldl_tracked _ _ _).trans he⟩

variable {self : Nsaddr} {ah : HdrAntPkt K} {i : Nat}

omit [LinearOrder K] in
theorem exec_windowLoop (hs : ah.pktMemSize.toNat ≤ MAX_NUM_NODES) (initialtt : K) :
    (eachLater ah i initialtt updateWindow).exec t
      = (.ok (), (laterSamples ah i initialtt).foldl pushed t) := by
  refine (exec_eachLater (t := t) (I := fun _ => True) (f := pushed) hs trivial ?_).1
  exact fun x _ t _ => ⟨exec_updateWindow x, trivial⟩

theorem exec_stateLoop (hs : ah.pktMemSize.toNat ≤ MAX_NUM_NODES) {initialtt : K}
    (h : ∀ x ∈ laterSamples ah i initialtt, ∃ first rest, t.window x.1 = some (first :: rest)) :
    (eachLater ah i initialtt updateState).exec t
      = (.ok (), (laterSamples ah i initialtt).foldl tracked t) := by
  refine (exec_eachLater (f := tracked) (I := fun t : Traffic K =>
    ∀ x ∈ laterSamples ah i initialtt, ∃ first rest, t.window x.1 = some (first :: rest)) hs h ?_).1
  intro x hx t ht
  obtain ⟨first, rest, hw⟩ := ht x hx
  exact ⟨exec_updateState hw, ht⟩

theorem exec_rateLoop (sqrt : K → K) (hs : ah.pktMemSize.toNat ≤ MAX_NUM_NODES) {initialtt : K}
    (h : ∀ x ∈ laterSamples ah i initialtt, ∃ e, t.state x.1 = some e) :
    (eachLater ah i initialtt (findR sqrt)).exec t
      = (.ok (), (laterSamples ah i initialtt).foldl (rated sqrt) t) := by
  refine (exec_eachLater (f := rated sqrt) (I := fun t : Traffic K =>
    ∀ x ∈ laterSamples ah i initialtt, ∃ e, t.state x.1 = some e) hs h ?_).1
  intro x hx t ht
  obtain ⟨e, he⟩ := ht x hx
  exact ⟨exec_findR sqrt he, ht⟩

theorem call_eq (sqrt : K → K) (hr : Readable self ah i) (t : Traffic K) :
    call sqrt self t ah = some (afterCall sqrt (samples self ah) t) := by
  have hi : i < MAX_NUM_NODES := by have := hr.next; omega
  have hsamples := samples_eq hr hi
  have hfind : (findSelf ah self).exec t = (.ok i, t) := by
    unfold findSelf
    rw [show ah.pktMemory.toList.findIdx? (fun m => decide (m.nodeAddr = self)) = some i from hr.place]
    rfl
  have hexec : (updateTraffic sqrt self ah).exec t
      = (.ok (), afterCall sqrt (samples self ah) t) := by
    unfold updateTraffic afterCall beforeRating
    rw [hsamples]
    simp only [Prog.exec_bind, hfind, memAt_ok hi, memAt_ok hr.next, exec_windowLoop hr.size]
    rw [exec_stateLoop hr.size fun x hx => pushed_window hx]
    exact exec_rateLoop sqrt hr.size fun x hx => tracked_state hx
  unfold call
  rw [hexec]

/-- A call that returns has found the node, and stayed in the array. -/
theorem readable_of_call {sqrt : K → K} {t' : Traffic K} (h : call sqrt self t ah = some t') :
    ∃ i, Readable self ah i := by
  unfold call at h
  split at h
  · rename_i t'' he
    obtain ⟨i, t₁, hfind, he⟩ := Prog.exec_bind_ok he
    obtain ⟨m, t₂, -, he⟩ := Prog.exec_bind_ok he
    obtain ⟨m', t₃, hnext, he⟩ := Prog.exec_bind_ok he
    obtain ⟨_, t₄, hloop, -⟩ := Prog.exec_bind_ok he
    have hlt := lt_of_memAt hnext
    refine ⟨i, ?_, hlt, size_of_eachLater (by omega) hloop⟩
    unfold findSelf at hfind
    split at hfind
    · rename_i j hj
      cases hfind
      exact hj
    · cases hfind
  · cases h

end Folds

/-! ## What is kept of the observations -/

/-- The window of all observations. -/
def windowOf : List K → Option (List K)
  | [] => none
  | o :: os => some (o :: os)

/-- One observation: mean and spread as `observe` updates them. -/
def momentsStep (s : K × K) (tt : K) : K × K :=
  (s.1 + VARSIGMA * (tt - s.1), s.2 * s.2 + VARSIGMA * ((tt - s.1) * (tt - s.1) - s.2 * s.2))

/-- Mean and spread after the observation `o` and then `os`. -/
def moments (o : K) (os : List K) : K × K := os.foldl momentsStep (o, o)

/-- The entry that the observations make. -/
def summary [LinearOrder K] : List K → Option (TrafficMatrix K)
  | [] => none
  | o :: os => some ⟨(moments o os).1, (moments o os).2, leastIn (some (o :: os))⟩

section Summary

variable [LinearOrder K]

omit [LinearOrder K] in
@[simp] theorem moments_nil (o : K) : moments o [] = (o, o) := rfl

omit [LinearOrder K] in
theorem moments_append (o : K) (os os' : List K) :
    moments o (os ++ os') = os'.foldl momentsStep (moments o os) := List.foldl_append

omit [LinearOrder K] in
theorem moments_snoc (o : K) (os : List K) (x : K) :
    moments o (os ++ [x]) = momentsStep (moments o os) x := moments_append o os [x]

theorem summary_eq_some {os : List K} {e : TrafficMatrix K} (h : summary os = some e) :
    ∃ o rest, os = o :: rest ∧ e = ⟨(moments o rest).1, (moments o rest).2, leastIn (some os)⟩ := by
  cases os with
  | nil => cases h
  | cons o rest => exact ⟨o, rest, rfl, (Option.some.inj h).symm⟩

omit [LinearOrder K] in
theorem foldl_observe (b : K) : ∀ (vs : List K) (s : K × K),
    vs.foldl (fun e tt => some (observe b e tt)) (some ⟨s.1, s.2, b⟩)
      = some ⟨(vs.foldl momentsStep s).1, (vs.foldl momentsStep s).2, b⟩
  | [], _ => rfl
  | v :: vs, s => foldl_observe b vs (momentsStep s v)

omit [Field K] [LinearOrder K] in
theorem windowOf_append : ∀ os vs : List K,
    vs.foldl (fun win tt => some (pushBack win tt)) (windowOf os) = windowOf (os ++ vs)
  | [], [] => rfl
  | [], v :: vs => foldl_pushBack vs [v]
  | o :: os, vs => foldl_pushBack vs (o :: os)

/-- The second loop turns the summary of the earlier observations into that of
all: `best_tt` is taken from the window that has all of them already. -/
theorem summary_append (os : List K) : ∀ vs : List K,
    vs.foldl (fun e tt => some (observe (leastIn (windowOf (os ++ vs))) e tt)) (summary os)
      = summary (os ++ vs)
  | [] => by rw [List.append_nil]; rfl
  | v :: vs => by
    generalize hb : leastIn (windowOf (os ++ v :: vs)) = b
    cases os with
    | nil =>
      rw [← hb]
      exact foldl_observe _ vs (v, v)
    | cons o os =>
      have hsum : summary (o :: (os ++ v :: vs))
          = some ⟨((v :: vs).foldl momentsStep (moments o os)).1,
            ((v :: vs).foldl momentsStep (moments o os)).2, b⟩ := by
        rw [summary, moments_append, ← hb]
        rfl
      rw [List.cons_append, hsum]
      exact foldl_observe b vs (momentsStep (moments o os) v)

theorem summary_snoc {os : List K} {e : TrafficMatrix K} (h : summary os = some e) (x : K) :
    summary (os ++ [x]) = some (observe (leastIn (windowOf (os ++ [x]))) (some e) x) := by
  rw [← summary_append, h]
  rfl

/-- The maps hold what the observations `obs` make. -/
structure Agrees (obs : Nsaddr → List K) (t : Traffic K) : Prop where
  window : ∀ d, t.window d = windowOf (obs d)
  state : ∀ d, t.state d = summary (obs d)

variable {obs : Nsaddr → List K} {t t' : Traffic K} {sqrt : K → K} {self : Nsaddr}

theorem Agrees.beforeRating (h : Agrees obs t) (l : List (Nsaddr × K)) :
    Agrees (fun d => obs d ++ valuesAt d l) (beforeRating l t) := by
  have hwindow : ∀ d, (l.foldl pushed t).window d = windowOf (obs d ++ valuesAt d l) := by
    intro d
    rw [window_foldl_pushed, h.window, windowOf_append]
  have hstate : (l.foldl pushed t).state = t.state := by rw [foldl_pushed]
  constructor
  · intro d
    show (l.foldl tracked (l.foldl pushed t)).window d = _
    rw [foldl_tracked]
    exact hwindow d
  · intro d
    show (l.foldl tracked (l.foldl pushed t)).state d = _
    rw [state_foldl_tracked, hwindow, hstate, h.state, summary_append]

theorem Agrees.afterCall (h : Agrees obs t) (sqrt : K → K) (l : List (Nsaddr × K)) :
    Agrees (fun d => obs d ++ valuesAt d l) (afterCall sqrt l t) := by
  have hmaps := foldl_rated_maps sqrt l (TrafficModel.beforeRating l t)
  have hb := h.beforeRating l
  constructor
  · intro d
    rw [TrafficModel.afterCall, hmaps.1]
    exact hb.window d
  · intro d
    rw [TrafficModel.afterCall, hmaps.2]
    exact hb.state d

omit [LinearOrder K] in
@[simp] theorem observed_cons (d : Nsaddr) (ah : HdrAntPkt K) (ahs : List (HdrAntPkt K)) :
    observed self d (ah :: ahs) = valuesAt d (samples self ah) ++ observed self d ahs :=
  List.flatMap_cons

theorem agrees_exec : ∀ (ahs : List (HdrAntPkt K)) {obs : Nsaddr → List K} {t : Traffic K},
    Agrees obs t → runCalls sqrt self t ahs = some t' →
      Agrees (fun d => obs d ++ observed self d ahs) t'
  | [], obs, t, h, hrun => by
    cases hrun
    simpa [observed] using h
  | ah :: ahs, obs, t, h, hrun => by
    obtain ⟨t₁, hcall, hrest⟩ := Option.bind_eq_some_iff.mp hrun
    obtain ⟨i, hr⟩ := readable_of_call hcall
    rw [call_eq sqrt hr] at hcall
    obtain rfl := Option.some.inj hcall
    have hrec := agrees_exec ahs (h.afterCall sqrt (samples self ah)) hrest
    simpa only [observed_cons, List.append_assoc] using hrec

/-- **What the maps hold after any calls that return.** -/
theorem agrees_runCalls (ht : t.Initial) {ahs : List (HdrAntPkt K)}
    (h : runCalls sqrt self t ahs = some t') : Agrees (fun d => observed self d ahs) t' := by
  have h0 : Agrees (fun _ => []) t := ⟨ht.window, ht.state⟩
  simpa using agrees_exec ahs h0 h

omit [Field K] [LinearOrder K] in
theorem getWinSize_eq {d : Nsaddr} {os : List K} (h : t.window d = windowOf os) :
    getWinSize t d = os.length := by
  unfold getWinSize
  rw [h]
  cases os with
  | nil => rfl
  | cons o os =>
    show (o :: os).foldl (fun count _ => count + 1) 0 = (o :: os).length
    rw [List.foldl_add_const, Nat.zero_add, Nat.one_mul]

theorem runCalls_returns (sqrt : K → K) : ∀ (ahs : List (HdrAntPkt K)) (t : Traffic K),
    (∀ ah ∈ ahs, ∃ i, Readable self ah i) → ∃ t', runCalls sqrt self t ahs = some t'
  | [], t, _ => ⟨t, rfl⟩
  | ah :: ahs, t, h => by
    obtain ⟨i, hr⟩ := h ah List.mem_cons_self
    obtain ⟨t', ht'⟩ := runCalls_returns sqrt ahs (afterCall sqrt (samples self ah) t)
      fun ah' hm => h ah' (List.mem_cons_of_mem _ hm)
    refine ⟨t', Option.bind_eq_some_iff.mpr ⟨_, call_eq sqrt hr t, ht'⟩⟩

end Summary

/-! ## Observations one at a time -/

/-- The memory of an ant that is back at node 0 and had reached node 1, its
destination, after the time `tt`. -/
def oneHop (tt : K) : HdrAntPkt K where
  pktType := BACKWARD_ANT
  pktSrc := 1
  pktDst := 0
  pktLen := ANT_SIZE
  pktSeqNum := 0
  pktStartTime := 0
  pktMemory := (Vector.replicate MAX_NUM_NODES ⟨0, 0⟩).set 1 ⟨1, tt⟩
  pktMemSize := 2

theorem oneHop_live (tt : K) :
    liveMem (oneHop tt).pktMemory (oneHop tt).pktMemSize = [⟨0, 0⟩, ⟨1, tt⟩] := rfl

theorem oneHop_readable (tt : K) : Readable 0 (oneHop tt) 0 := by
  refine ⟨?_, by decide, by show Int.toNat 2 ≤ 16; decide⟩
  rfl

theorem oneHop_samples (tt : K) : samples 0 (oneHop tt) = [(1, tt)] := by
  rw [samples_eq (oneHop_readable tt) (by decide), laterSamples, oneHop_live]
  simp [oneHop]

/-- Any trip times can be observed. -/
theorem observed_oneHop (os : List K) : observed 0 1 (os.map oneHop) = os := by
  induction os with
  | nil => rfl
  | cons o os ih =>
    rw [List.map_cons, observed_cons, ih, oneHop_samples]
    rfl

theorem runCalls_oneHop [LinearOrder K] (sqrt : K → K) (t : Traffic K) (os : List K) :
    ∃ t', runCalls sqrt 0 t (os.map oneHop) = some t' := by
  refine runCalls_returns sqrt _ t fun ah hah => ?_
  obtain ⟨o, -, rfl⟩ := List.mem_map.mp hah
  exact ⟨0, oneHop_readable o⟩


end AntNet.L3.TrafficModel
