import AntNet.L2Queue.PriQueue

/-!
# The ant patch sends routing packets to the tail

`PriQueue::recv` gives routing packets priority: they go in at the head. The
ant patch puts its case between those of the other protocols and the `break`
they shared (queue/priqueue.cc:89-101); the README asks for a case of its own
"add ant packets to the high-priority path" (README.md:187-198).

What is broken: `PT_DSR`, `PT_MESSAGE`, `PT_TORA` and `PT_AODV` now fall through
into the ants' `if (ch->direction() == hdr_cmn::UP)`. A packet of these types
that goes down the stack, as every packet on its way out does, is queued
behind the data. `PT_AOMDV` (priqueue.cc:103-105) is not affected.

Counterexample: two data packets, then an AODV packet (`aodv_behind_data`).

Condition: no packet of the four types with a direction other than `UP` arrives
with room at the tail while a data packet or a forward ant is queued
(`order_condition`).
-/
namespace AntNet.Bugs.RoutingPriority

open AntNet.L1 AntNet.L2.Ifq AntNet.PriorityOrder

/-- What the priority queue is for. -/
structure Ordered (s : PriQueue) : Prop where
  routingFirst : RoutingFirst s.q
  othersInOrder : OthersInOrder s.q

/-! ## Counterexample -/

/-- A queue of 50 packets. -/
def boot : PriQueue := ⟨true, 50, false, false, 500, false, [], [], [], [], []⟩

theorem boot_initial : Initial boot := ⟨rfl, rfl, rfl, rfl, rfl, rfl, rfl, rfl⟩

def packet (ptype : Nat) (direction : Dir) : HdrCmn := ⟨ptype, 500, 0, 0, direction, 1, .INET, 0⟩

/-- mirrors common/packet.h:88 -/
def PT_CBR : Nat := 2

/-- **Counterexample**: the AODV packet stands behind the second data packet. -/
theorem aodv_behind_data : ∃ s, priQueue.Reachable s ∧ ¬ Ordered s := by
  have hrun : (LTS.exec (fun s e => some (step s e)) boot
      [.recv (packet PT_CBR .DOWN), .recv (packet PT_CBR .DOWN), .recv (packet PT_AODV .DOWN)]).map
      (·.q) = some [⟨packet PT_CBR .DOWN, 1⟩, ⟨packet PT_AODV .DOWN, 2⟩] := by decide +kernel
  obtain ⟨s, hs, hq⟩ := Option.map_eq_some_iff.mp hrun
  refine ⟨s, LTS.reachable_of_exec boot_initial hs, ?_⟩
  intro h
  have hfirst := h.routingFirst
  rw [hq] at hfirst
  exact absurd hfirst (by unfold RoutingFirst HighFirst; decide)

/-! ## When the order is kept -/

/-- The packet goes to the tail although it is a routing packet. -/
def Misplaced (p : HdrCmn) : Prop :=
  p.ptype ∈ [PT_DSR, PT_MESSAGE, PT_TORA, PT_AODV] ∧ p.direction ≠ .UP

/-- The arrival puts no routing packet behind another packet. -/
def KeepsOrder (s : PriQueue) : Ev → Prop
  | .recv p => Misplaced p → Room s → ∀ e ∈ s.q, IsRouting e.pkt
  | _ => True

instance (s : PriQueue) : (l : Ev) → Decidable (KeepsOrder s l)
  | .recv p => inferInstanceAs (Decidable
      (p.ptype ∈ [PT_DSR, PT_MESSAGE, PT_TORA, PT_AODV] ∧ p.direction ≠ .UP → Room s →
        ∀ e ∈ s.q, IsRouting e.pkt))
  | .resume _ | .filter _ | .filterNextHop _ | .terminate => isTrue trivial

section Condition

variable {s : PriQueue} {l : Ev}

/-- The routing packets that do not go in at the head. -/
theorem misplaced_iff {p : HdrCmn} : Misplaced p ↔ IsRouting p ∧ ¬ GoesFirst p := by
  unfold Misplaced IsRouting GoesFirst SharedCase
  simp only [List.mem_cons, List.not_mem_nil, or_false, PT_DSR, PT_MESSAGE, PT_TORA, PT_AODV,
    PT_AOMDV, PT_ANT]
  by_cases hu : p.direction = .UP
  · simp only [hu, ne_eq, not_true_eq_false, and_false, and_true, false_iff, not_and, not_not]
    omega
  · simp only [hu, ne_eq, not_false_eq_true, and_true, and_false, or_false, false_or]
    omega

theorem routingFirst_step (hok : QueueOk s) (h : RoutingFirst s.q) (hk : KeepsOrder s l) :
    RoutingFirst (step s l).q := by
  generalize hq : (step s l).q = q
  have he : Effect s l q := hq ▸ step_effect hok l
  cases he with
  | first hg hsub => exact (h.cons hg.isRouting).sublist hsub
  | @last p _ hg hr hsub =>
    refine HighFirst.sublist ((highFirst_append_iff h).mpr ?_) hsub
    exact fun hrt => hk (misplaced_iff.mpr ⟨hrt, hg⟩) hr
  | less hsub => exact h.sublist hsub

/-- A misplaced packet that finds room behind another packet stays there. -/
theorem keepsOrder_of_step (hok : QueueOk s) (h : RoutingFirst s.q)
    (hs : RoutingFirst (step s l).q) : KeepsOrder s l := by
  cases l with
  | recv p =>
    intro hm hr
    obtain ⟨hrt, hg⟩ := misplaced_iff.mp hm
    cases hb : s.blocked with
    | false =>
      rw [hok.idle hb]
      simp
    | true =>
      rw [step_recv hok, if_neg hg, queueRecv_blocked (s := counted s p) hok.dropFront hok.qib hb hr] at hs
      exact (highFirst_append_iff h).mp hs hrt
  | resume | filter | filterNextHop | terminate => exact trivial

theorem ordered_reachable (h : (priQueue.guard KeepsOrder).Reachable s) : Ordered s := by
  refine ⟨?_, othersInOrder_reachable (LTS.reachable_of_guard h)⟩
  refine LTS.guard_induct (I := fun s => RoutingFirst s.q) ?_ ?_ h
  · intro s hi
    rw [hi.q]; exact List.Pairwise.nil
  · intro a l b ha ih hk hs
    obtain rfl := Option.some.inj hs
    exact routingFirst_step (queueOk_reachable ha) ih hk

/-- **When the queue is ordered**: in every state of a run whose arrivals keep
the order, and an ordered queue stays ordered only then. The packets that are
not routing packets stand in their order of arrival in any case. -/
theorem order_condition (h : priQueue.Reachable s) :
    OthersInOrder s.q ∧
    ((priQueue.guard KeepsOrder).Reachable s → Ordered s) ∧
    ∀ l, Ordered s → (Ordered (step s l) ↔ KeepsOrder s l) := by
  have hok := queueOk_reachable h
  refine ⟨othersInOrder_reachable h, ordered_reachable, ?_⟩
  intro l ho
  constructor
  · intro hs
    exact keepsOrder_of_step hok ho.routingFirst hs.routingFirst
  · intro hk
    exact ⟨routingFirst_step hok ho.routingFirst hk,
      othersInOrder_reachable (LTS.reachable_step h (l := l) rfl)⟩

end Condition

/-- Two data packets and a backward ant. -/
theorem order_condition_ant : ∃ s, (priQueue.guard KeepsOrder).Reachable s ∧
    s.q = [⟨packet PT_ANT .UP, 2⟩, ⟨packet PT_CBR .DOWN, 1⟩] ∧ Ordered s := by
  have hrun : (LTS.execGuarded (fun s e => some (step s e)) KeepsOrder boot
      [.recv (packet PT_CBR .DOWN), .recv (packet PT_CBR .DOWN), .recv (packet PT_ANT .UP)]).map
      (·.q) = some [⟨packet PT_ANT .UP, 2⟩, ⟨packet PT_CBR .DOWN, 1⟩] := by decide +kernel
  obtain ⟨s, hs, hq⟩ := Option.map_eq_some_iff.mp hrun
  have hr : (priQueue.guard KeepsOrder).Reachable s := LTS.reachable_of_execGuarded boot_initial hs
  exact ⟨s, hr, hq, (order_condition (LTS.reachable_of_guard hr)).2.1 hr⟩

end AntNet.Bugs.RoutingPriority
