import AntNet.Core.TripTimes
import AntNet.L4Network.Links

/-!
# Trip times

The clock never goes back, so the handlers of one ant run in time order
(`hist_sorted`). The memory of an ant is the timed loop erasure of the visits
it made on its way out (`Timed`): `memorize` shifts the trip times it keeps so
that the revisited entry shows the time since the start, and leaves the
differences along the path alone (`trip_times`).
-/
namespace AntNet.L4

open AntNet.L1 AntNet.L2 AntNet.L3 AntNet.LoopErasure

variable {K : Type}

/-- The nodes a packet was delivered to as a forward ant, with the times. -/
def timedWalk (h : List (Visit K)) : List (Nsaddr × K) :=
  (h.filter fun v => v.dir = .DOWN).map fun v => (v.node, v.time)

/-- The memory's entries as addresses with trip times. -/
def entries (l : List (Memory K)) : List (Nsaddr × K) := l.map fun e => (e.nodeAddr, e.tripTime)

theorem timedWalk_snoc_down (h : List (Visit K)) {v : Visit K} (hv : v.dir = .DOWN) :
    timedWalk (h ++ [v]) = timedWalk h ++ [(v.node, v.time)] := by
  simp [timedWalk, List.filter_append, hv]

theorem timedWalk_snoc_up (h : List (Visit K)) {v : Visit K} (hv : v.dir = .UP) :
    timedWalk (h ++ [v]) = timedWalk h := by
  simp [timedWalk, List.filter_append, hv]

/-- **A visit is one step of timed loop erasure.** -/
theorem entries_visitTrail [Field K] (n : Nsaddr) (t : K) (l : List (Memory K)) :
    entries (visitTrail n t l) = revisitAt (entries l) n t := by
  have hplaces : (entries l).map Prod.fst = l.map (·.nodeAddr) := by
    simp [entries, Function.comp_def]
  have hfind : (entries l).find? (fun e => e.1 = n) =
      (l.find? fun e => e.nodeAddr = n).map fun e => (e.nodeAddr, e.tripTime) := by
    unfold entries
    rw [List.find?_map]
    rfl
  unfold visitTrail revisitAt
  rw [hfind, hplaces]
  cases l.find? (fun e => e.nodeAddr = n) with
  | none => simp [entries]
  | some m => simp [entries, shift, List.map_take, Function.comp_def]

section Step

variable [Field K] [LinearOrder K] {addNb : List Nsaddr → Nsaddr → List Nsaddr} {s s' : Net K}
  {l : Act K}

/-! ## The clock -/

theorem trans_clock (h : Trans addNb s l s') : s.clock ≤ s'.clock := by
  cases h with
  | command hl hst =>
    cases l with
    | expire | deliver | lose => cases hl
    | advance t =>
      simp only [step] at hst
      split at hst
      · rename_i hle
        cases hst
        exact hle
      · cases hst
    | addNeighbor | start | stop | setRFactor | setNumNodes => cases hst; exact le_rfl
  | expire | deliver | lose => exact le_rfl

/-- The visits of a packet are in time order and not in the future. -/
structure InTime (s : Net K) (u : Nat) : Prop where
  sorted : (s.hist u).Pairwise fun v v' => v.time ≤ v'.time
  past : ∀ v ∈ s.hist u, v.time ≤ s.clock

omit [Field K] in
theorem inTime_snoc {u : Nat} (hi : InTime s u) (hc : s.clock ≤ s'.clock) {v : Visit K}
    (hv : v.time = s.clock) (hh : s'.hist u = s.hist u ++ [v]) : InTime s' u := by
  refine ⟨?_, ?_⟩
  · rw [hh]
    refine List.pairwise_append.mpr ⟨hi.sorted, List.pairwise_singleton _ _, ?_⟩
    intro x hx y hy
    rw [List.mem_singleton.mp hy, hv]
    exact hi.past x hx
  · intro x hx
    rw [hh] at hx
    rcases List.mem_append.mp hx with h0 | h1
    · exact (hi.past x h0).trans hc
    · rw [List.mem_singleton.mp h1, hv]
      exact hc

theorem inTime_step (ht : Trans addNb s l s') {u : Nat} (hi : InTime s u) : InTime s' u := by
  have hc := trans_clock ht
  cases trans_hist ht u with
  | same he => exact ⟨he ▸ hi.sorted, fun v hv => (hi.past v (he ▸ hv)).trans hc⟩
  | sent _ _ _ _ he => exact inTime_snoc hi hc rfl he
  | received _ _ _ _ _ he => exact inTime_snoc hi hc rfl he

theorem inTime_reachable (h : (net addNb).Reachable s) (u : Nat) : InTime s u := by
  refine LTS.reachable_induct (I := fun s : Net K => InTime s u) ?_ ?_ h
  · intro s hi
    refine ⟨?_, ?_⟩ <;> rw [hi.hist] <;> simp
  · intro a l b ha ih hs
    exact inTime_step (trans_of_reachable ha hs) ih

/-! ## The memory -/

/-- The memory of `p` is the timed loop erasure of its way out, with times
since its start. -/
structure Timed (s : Net K) (p : Packet K) : Prop where
  start : (timedWalk (s.hist p.cmn.uid)).head?.map Prod.snd = some p.ant.pktStartTime
  trail : entries p.trail = loopEraseAt p.ant.pktStartTime (timedWalk (s.hist p.cmn.uid))

theorem timed_step (hi : Inv s) (h : ∀ p ∈ s.inFlight, Timed s p) {q : Packet K}
    (hq : Came s s' l q) : Timed s' q := by
  cases hq with
  | stayed hm hh => exact ⟨hh ▸ (h q hm).start, hh ▸ (h q hm).trail⟩
  | @born n o log _ hsent hh =>
    obtain ⟨dest, -, hg⟩ := hsent.generated
    have hw : timedWalk (s'.hist q.cmn.uid) = [(n, s.clock)] := by
      rw [hh, hg.uid, hi.fresh _ (Nat.le_refl _)]
      rfl
    have hstart : q.ant.pktStartTime = s.clock := hg.pktStartTime
    refine ⟨by rw [hw, hstart]; rfl, ?_⟩
    rw [hw, hg.trail, hstart, hi.configured.addr]
    simp [loopEraseAt, revisitAt, entries]
  | @moved i nf ttl o p a c log _ hp ho hh =>
    have hp' := h p (List.mem_of_getElem? hp)
    have hu : q.cmn.uid = p.cmn.uid := ho.uid
    have hstart : q.ant.pktStartTime = p.ant.pktStartTime := ho.kept.pktStartTime
    rcases ho.trail with ⟨hd, htr⟩ | ⟨hup, htr⟩
    · have hw : timedWalk (s'.hist q.cmn.uid) =
          timedWalk (s.hist p.cmn.uid) ++ [(p.ip.daddr, s.clock)] := by
        rw [hh, hu]
        exact timedWalk_snoc_down _ hd
      refine ⟨?_, ?_⟩
      · rw [hw, hstart, List.head?_append, ← hp'.start]
        cases hwn : timedWalk (s.hist p.cmn.uid) with
        | nil => have := hp'.start; rw [hwn] at this; cases this
        | cons => rfl
      · rw [hw, hstart, loopEraseAt_snoc, ← hp'.trail, htr, entries_visitTrail,
          hi.configured.addr]
        rfl
    · have hw : timedWalk (s'.hist q.cmn.uid) = timedWalk (s.hist p.cmn.uid) := by
        rw [hh, hu]
        exact timedWalk_snoc_up _ hup
      refine ⟨by rw [hw, hstart]; exact hp'.start, ?_⟩
      rw [hw, hstart, htr]
      exact hp'.trail

theorem timed_reachable (h : (net addNb).Reachable s) : ∀ p ∈ s.inFlight, Timed s p :=
  ants_induct (fun _ _ _ hi ih _ hq => timed_step hi ih hq) h

omit [Field K] in
theorem timedWalk_sorted {u : Nat} (hi : InTime s u) :
    (timedWalk (s.hist u)).Pairwise (fun a b => a.2 ≤ b.2) ∧
      ∀ a ∈ timedWalk (s.hist u), a.2 ≤ s.clock := by
  constructor
  · exact List.pairwise_map.mpr (hi.sorted.filter _)
  · intro a ha
    obtain ⟨v, hv, rfl⟩ := List.mem_map.mp ha
    exact hi.past v (List.mem_filter.mp hv).1

/-- What `memorize` leaves is the erasure of the way out with this visit. -/
theorem memorize_timed (h : (net addNb).Reachable s) {p : Packet K} (hp : p ∈ s.inFlight)
    {nf ttl : Int} {o : Oracle K} {f : Frame K}
    (hm : (memorize (s.env o)).exec ⟨arrive p nf ttl, s.agents p.ip.daddr, []⟩ = (.ok true, f)) :
    entries f.pkt.trail = loopEraseAt p.ant.pktStartTime
      (timedWalk (s.hist p.cmn.uid) ++ [(p.ip.daddr, s.clock)]) := by
  have hi := inv_reachable h
  obtain ⟨v, -, hw⟩ := hi.ants p hp
  obtain ⟨q, ⟨hq, -⟩, hat⟩ := (memorize_spec (s.env o) (wellFormed_arrive hw nf ttl).size).returned
    (at_start (arrive p nf ttl) (s.agents p.ip.daddr)) hm
  rw [hat.pkt, hq.trail, entries_visitTrail, loopEraseAt_snoc, ← (timed_reachable h p hp).trail,
    hi.configured.addr]
  rfl

/-- **Trip times exclude removed loops.** -/
theorem trip_times [IsStrictOrderedRing K] (h : (net addNb).Reachable s) {p : Packet K}
    (hp : p ∈ s.inFlight) {nf ttl : Int} {o : Oracle K} {f : Frame K}
    (hm : (memorize (s.env o)).exec ⟨arrive p nf ttl, s.agents p.ip.daddr, []⟩ = (.ok true, f)) :
    let w := timedWalk (s.hist p.cmn.uid) ++ [(p.ip.daddr, s.clock)]
    let m := entries f.pkt.trail
    w.Pairwise (fun a b => a.2 ≤ b.2) ∧ w.head?.map Prod.snd = some p.ant.pktStartTime ∧
    m.getLast? = some (p.ip.daddr, s.clock - p.ant.pktStartTime) ∧
    (∃ e : Nat → Nat,
      (∀ j x y, m[j]? = some x → m[j + 1]? = some y →
        LastVisit (w.map Prod.fst) (e j) x.1 ∧ (w.map Prod.fst)[e j + 1]? = some y.1 ∧
          y.2 - x.2 = timeAt w (e j + 1) - timeAt w (e j)) ∧
      ∀ i j, i ≤ j → j < m.length →
        timeAt m j - timeAt m i = ∑ k ∈ Finset.Ico i j, (timeAt w (e k + 1) - timeAt w (e k))) ∧
    ∀ i j, i ≤ j → j < m.length → timeAt m i ≤ timeAt m j := by
  intro w m
  have htimed := timed_reachable h p hp
  obtain ⟨hsorted, hpast⟩ := timedWalk_sorted (inTime_reachable h p.cmn.uid)
  have hexit : TimedExit p.ant.pktStartTime w m := by
    show TimedExit _ _ (entries f.pkt.trail)
    rw [memorize_timed h hp hm]
    exact timedExit_loopEraseAt _ w
  have hwsorted : w.Pairwise fun a b => a.2 ≤ b.2 := by
    refine List.pairwise_append.mpr ⟨hsorted, List.pairwise_singleton _ _, ?_⟩
    intro a ha b hb
    rw [List.mem_singleton.mp hb]
    exact hpast a ha
  refine ⟨hwsorted, ?_, ?_, hexit.exits, fun i j => hexit.mono hwsorted⟩
  · have hstart := htimed.start
    show (timedWalk (s.hist p.cmn.uid) ++ [(p.ip.daddr, s.clock)]).head?.map Prod.snd = _
    cases hwn : timedWalk (s.hist p.cmn.uid) with
    | nil => rw [hwn] at hstart; cases hstart
    | cons x l => rw [hwn] at hstart; exact hstart
  · rw [hexit.last]
    simp [w]

end Step

/-- An ant that comes back to 0 around a triangle, at times 0, 1, 3 and 6. -/
theorem trip_times_triangle : ∃ s : Net ℚ, (net prependNb).Reachable s ∧
    s.inFlight.map (fun p => timedWalk (s.hist p.cmn.uid)) = [[(0, 0), (1, 1), (2, 3)]] ∧
    ∃ p ∈ s.inFlight, ∃ f : Frame ℚ,
      (entries f.pkt.trail).getLast? = some (p.ip.daddr, s.clock - p.ant.pktStartTime) := by
  have hrun : (runActs prependNb Net.boot ([.setNumNodes 0 4, .setNumNodes 1 4, .setNumNodes 2 4,
      .addNeighbor 2 0, .addNeighbor 1 2, .addNeighbor 0 1, .start 0, .start 1, .start 2,
      .expire 0 (idle [3]), .advance 1, .deliver 0 0 9 (idle []), .advance 3,
      .deliver 0 0 9 (idle []), .advance 6] : List (Act ℚ))).map (fun s =>
        (s.inFlight.map (fun p => timedWalk (s.hist p.cmn.uid)),
          s.inFlight.map (fun p => (p.cmn.direction, ((memorize (s.env (idle []))).exec
            ⟨arrive p 0 9, s.agents p.ip.daddr, []⟩).1.toOption)))) =
      some ([[(0, 0), (1, 1), (2, 3)]], [(.DOWN, some true)]) := by decide +kernel
  obtain ⟨s, hs, hres⟩ := Option.map_eq_some_iff.mp hrun
  rw [Prod.mk.injEq] at hres
  have hr := runActs_reachable boot_initial hs
  obtain ⟨p, hp, hpd⟩ := List.mem_map.mp (hres.2 ▸ List.mem_singleton_self (Dir.DOWN, some true))
  rw [Prod.mk.injEq] at hpd
  exact ⟨s, hr, hres.1, p, hp, _, (trip_times hr hp (Prog.exec_eq_ok hpd.2)).2.2.1⟩

end AntNet.L4
