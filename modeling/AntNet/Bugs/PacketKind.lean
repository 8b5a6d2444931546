import AntNet.L4Network.Inv
import AntNet.L4Network.Links

/-!
# A backward ant still says it is a forward ant

An ant's kind is stored twice: `ch->direction()`, which `recv_ant_pkt`
dispatches on (antnet.cc:233,243), and `ah->pkt_type_`, "Packet Type
(forward/backward)" (ant_pkt.h:65), for which `FORWARD_ANT` and `BACKWARD_ANT`
are defined (ant_pkt.h:42-45). `send_ant_pkt` sets both (antnet.cc:176,189).

What is broken: `create_backward_ant_pkt` (antnet.cc:333-355) turns the
direction and leaves `pkt_type_` alone. Nothing in the sources ever stores
`BACKWARD_ANT`, so every backward ant carries `FORWARD_ANT`.

Counterexample: an ant from 0 that has turned at 2 (`turned_disagrees`).

Condition: the two agree for an ant exactly as long as it is a forward ant; so
they agree throughout a run until the first ant turns, and not right after
that (`kinds_condition`).
-/
namespace AntNet.Bugs.PacketKind

open AntNet.L1 AntNet.L2 AntNet.L3 AntNet.L4

variable {K : Type}

/-- `pkt_type_` says what `recv_ant_pkt` will process the ant as. -/
def KindsAgree (p : Packet K) : Prop :=
  (p.cmn.direction = .DOWN → p.ant.pktType = FORWARD_ANT) ∧
    (p.cmn.direction = .UP → p.ant.pktType = BACKWARD_ANT)

instance (p : Packet K) : Decidable (KindsAgree p) := by unfold KindsAgree; infer_instance

/-- **Counterexample**: a backward ant in flight with the type of a forward ant. -/
theorem turned_disagrees : ∃ s : Net ℚ, (net prependNb).Reachable s ∧
    ∃ p ∈ s.inFlight, ¬ KindsAgree p := by
  have hrun : (runActs prependNb Net.boot (lineUp ++ [.expire 0 (idle [0, 2]), .deliver 0 0 9 (idle []),
      .deliver 0 0 9 (idle [])] : List (Act ℚ))).map (fun s => s.inFlight.map fun p =>
        decide (KindsAgree p)) = some [false] := by decide +kernel
  obtain ⟨s, hs, hp⟩ := Option.map_eq_some_iff.mp hrun
  obtain ⟨p, hmem, hk⟩ := List.mem_map.mp (hp ▸ List.mem_singleton_self false)
  exact ⟨s, runActs_reachable boot_initial hs, p, hmem, of_decide_eq_false hk⟩

/-- The step does not turn an ant: a forward ant that arrives at its destination is dropped there. -/
def NoTurn (s : Net K) : Act K → Prop
  | .deliver i _ _ _ => ∀ p ∈ s.inFlight[i]?, p.cmn.direction = .DOWN → p.ip.daddr = p.ant.pktDst →
      Full (s.agents p.ip.daddr) p
  | _ => True

instance (a : Antnet K) (p : Packet K) : Decidable (Full a p) := by unfold Full; infer_instance

instance (s : Net K) : (l : Act K) → Decidable (NoTurn s l)
  | .deliver i _ _ _ => inferInstanceAs (Decidable (∀ p ∈ s.inFlight[i]?, p.cmn.direction = .DOWN →
      p.ip.daddr = p.ant.pktDst → Full (s.agents p.ip.daddr) p))
  | .addNeighbor _ _ | .start _ | .stop _ | .setRFactor _ _ | .setNumNodes _ _ | .advance _
  | .expire _ _ | .lose _ => isTrue trivial

variable [Arithmetic K] [LinearOrder K] {addNb : List Nsaddr → Nsaddr → List Nsaddr} {s s' : Net K}
  {l : Act K}

theorem pktType_forward (h : (net addNb).Reachable s) :
    ∀ p ∈ s.inFlight, p.ant.pktType = FORWARD_ANT := by
  refine ants_induct (I := fun _ p => p.ant.pktType = FORWARD_ANT) ?_ h
  intro a l b _ ih q hq
  cases hq with
  | stayed hm => exact ih q hm
  | born _ hsent =>
    obtain ⟨dest, -, hg⟩ := hsent.generated
    exact hg.pktType
  | @moved i nf ttl o p _ _ _ _ hp ho =>
    rw [ho.kept.pktType]
    exact ih p (List.mem_of_getElem? hp)

/-- An ant in flight goes one of the two ways. -/
theorem direction_cases (h : (net addNb).Reachable s) {p : Packet K} (hp : p ∈ s.inFlight) :
    p.cmn.direction = .DOWN ∨ p.cmn.direction = .UP := by
  obtain ⟨v, -, hw⟩ := (inv_reachable h).ants p hp
  exact hw.heading.imp (·.1) (·.1)

theorem kindsAgree_iff (h : (net addNb).Reachable s) {p : Packet K} (hp : p ∈ s.inFlight) :
    KindsAgree p ↔ p.cmn.direction = .DOWN := by
  have ht := pktType_forward h p hp
  constructor
  · intro hk
    rcases direction_cases h hp with hd | hu
    · exact hd
    · have hb := hk.2 hu
      rw [ht] at hb
      exact absurd hb (by decide)
  · intro hd
    refine ⟨fun _ => ht, fun hu => ?_⟩
    rw [hd] at hu; cases hu

/-- Without turns all ants stay forward ants. -/
theorem down_step (ht : Trans addNb s l s') (hi : Inv s) (hn : NoTurn s l)
    (h : ∀ p ∈ s.inFlight, p.cmn.direction = .DOWN) : ∀ q ∈ s'.inFlight, q.cmn.direction = .DOWN := by
  intro q hq
  cases trans_inFlight ht hi.ledger hq with
  | stayed hm => exact h q hm
  | born _ hsent =>
    obtain ⟨dest, -, hg⟩ := hsent.generated
    exact hg.direction
  | @moved i nf ttl o p a c log hl hp ho =>
    subst hl
    have hd := h p (List.mem_of_getElem? hp)
    cases ho with
    | turn _ hdst hf =>
      rw [hi.configured.addr] at hdst
      exact absurd (hn p hp hd hdst) hf
    | forward _ _ _ hm =>
      rw [hop_direction, hm.cmn]
      exact hd
    | back hu =>
      rw [show (arrive p nf ttl).cmn.direction = p.cmn.direction from rfl, hd] at hu
      cases hu

theorem down_reachable (h : ((net addNb).guard NoTurn).Reachable s) :
    ∀ p ∈ s.inFlight, p.cmn.direction = .DOWN := by
  refine LTS.guard_induct (I := fun s : Net K => ∀ p ∈ s.inFlight, p.cmn.direction = .DOWN) ?_ ?_ h
  · intro s hi p hp
    rw [hi.inFlight] at hp; cases hp
  · intro a l b ha ih hg hs
    exact down_step (trans_of_reachable ha hs) (inv_reachable ha) hg ih

/-- A step that turns an ant puts a backward ant in flight. -/
theorem turn_up (h : (net addNb).Reachable s) (hs : (net addNb).step s l s') (hn : ¬ NoTurn s l) :
    ∃ q ∈ s'.inFlight, q.cmn.direction = .UP := by
  cases l with
  | deliver i nf ttl o =>
    unfold NoTurn at hn
    push Not at hn
    obtain ⟨p, hp, hd, hdst, hf⟩ := hn
    cases trans_of_reachable h hs with
    | command hl => cases hl
    | @deliver _ _ _ _ p' q d a c log hp' ho hlog =>
      obtain rfl : p = p' := Option.some.inj (hp.symm.trans hp')
      obtain ⟨rfl, hup, -⟩ := ho.turned hd (((inv_reachable h).configured.addr _).trans hdst) hf
      exact ⟨q, List.mem_append_right _ (List.mem_singleton_self _), hup⟩
  | addNeighbor | start | stop | setRFactor | setNumNodes | advance | expire | lose =>
    exact absurd trivial hn

/-- **When the two encodings agree**: for an ant exactly while it is a forward
ant; for all ants of a run as long as no step turns one, and no longer. -/
theorem kinds_condition (addNb : List Nsaddr → Nsaddr → List Nsaddr) :
    (∀ s : Net K, ((net addNb).guard NoTurn).Reachable s → ∀ p ∈ s.inFlight, KindsAgree p) ∧
    (∀ s : Net K, (net addNb).Reachable s →
      ∀ p ∈ s.inFlight, (KindsAgree p ↔ p.cmn.direction = .DOWN)) ∧
    ∀ (s s' : Net K) l, (net addNb).Reachable s → (net addNb).step s l s' → ¬ NoTurn s l →
      ∃ q ∈ s'.inFlight, ¬ KindsAgree q := by
  refine ⟨?_, fun s h p hp => kindsAgree_iff h hp, ?_⟩
  · intro s h p hp
    exact (kindsAgree_iff (LTS.reachable_of_guard h) hp).mpr (down_reachable h p hp)
  · intro s s' l h hs hn
    obtain ⟨q, hq, hup⟩ := turn_up h hs hn
    refine ⟨q, hq, fun hk => ?_⟩
    rw [kindsAgree_iff (LTS.reachable_step h hs) hq, hup] at hk
    cases hk

/-- An ant from 0 to 2 that has reached 1. -/
theorem kinds_condition_line : ∃ s : Net ℚ, ((net prependNb).guard NoTurn).Reachable s ∧
    s.inFlight.map (·.path) = [[0, 1]] ∧ ∀ p ∈ s.inFlight, KindsAgree p := by
  have hrun : (LTS.execGuarded (step prependNb) NoTurn Net.boot (lineUp ++
      [.expire 0 (idle [0, 2]), .deliver 0 0 9 (idle [])] : List (Act ℚ))).map
      (fun s => s.inFlight.map (·.path)) = some [[0, 1]] := by decide +kernel
  obtain ⟨s, hs, hp⟩ := Option.map_eq_some_iff.mp hrun
  have hr : ((net prependNb).guard NoTurn).Reachable s := LTS.reachable_of_execGuarded boot_initial hs
  exact ⟨s, hr, hp, (kinds_condition prependNb).1 s hr⟩

end AntNet.Bugs.PacketKind
