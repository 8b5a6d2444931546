import AntNet.Core.LTS
import AntNet.Core.PriorityOrder
import AntNet.L1Packet.Header
import Mathlib.Data.List.Perm.Basic

/-!
# The interface queue

`queue/priqueue.cc` over `queue/drop-tail.cc`: the queue between routing agent
and link layer that the ant patch edits. A packet is its common header.

Outside `src/`: `PacketQueue` is a list (`enque` appends, `enqueHead`
prepends, `deque` takes the head), `Queue::recv` is `enque` followed by sending
the head if the queue is not blocked, and `Queue::resume` is the link layer's
call for the next packet.

`arrivals`, `sent`, `dropped` and `removed` are history variables: all packets
that came, in order, and where they went. Each has the number of its arrival.
The statistics of `drop-tail.cc` are left out; `shrink-queue` is in `Service`.
-/
namespace AntNet.L2.Ifq

open AntNet.L1 AntNet.PriorityOrder

/-- mirrors common/packet.h:99,128-130,183 -/
def PT_MESSAGE : Nat := 13
def PT_TORA : Nat := 36
def PT_DSR : Nat := 37
def PT_AODV : Nat := 38
def PT_AOMDV : Nat := 61

/-- A packet and the number of its arrival. -/
structure Queued where
  pkt : HdrCmn
  arrival : Nat
  deriving DecidableEq, Repr

structure PriQueue where
  preferRoutingProtocols : Bool
  qlim : Int
  dropFront : Bool
  qib : Bool
  meanPktsize : Int
  blocked : Bool
  q : List Queued
  arrivals : List Queued
  sent : List Queued
  dropped : List Queued
  removed : List Queued
  deriving DecidableEq, Repr

/-! ## `drop-tail.cc` -/

def byteLength (q : List Queued) : Int := q.foldl (fun bytes p => bytes + p.pkt.size) 0

/-- `int qlimBytes`: the product wraps around. -/
def qlimBytes (s : PriQueue) : Int := (s.qlim * s.meanPktsize).bmod 0x100000000

/-- The test for a queue that would overflow.
mirrors queue/drop-tail.cc:91-93 -/
def Overflows (s : PriQueue) (p : Queued) : Prop :=
  (s.qib = false ∧ (s.q.length : Int) + 1 ≥ s.qlim) ∨
    (s.qib = true ∧ byteLength s.q + p.pkt.size ≥ qlimBytes s)

instance (s : PriQueue) (p : Queued) : Decidable (Overflows s p) := by
  unfold Overflows; infer_instance

/-- mirrors queue/drop-tail.cc:85-105 -/
def enque (s : PriQueue) (p : Queued) : PriQueue :=
  if Overflows s p then
    if s.dropFront then
      { s with q := (s.q ++ [p]).tail, dropped := s.dropped ++ (s.q ++ [p]).take 1 }
    else { s with dropped := s.dropped ++ [p] }
  else { s with q := s.q ++ [p] }

/-! ## `priqueue.cc` -/

/-- `if (!blocked_) { p = deque(); if (p != 0) { blocked_ = 1; target_->recv(p, &qh_); } }`
mirrors queue/priqueue.cc:129-141 -/
def sendHead (s : PriQueue) : PriQueue :=
  if s.blocked then s
  else
    match s.q with
    | [] => s
    | p :: q => { s with q := q, blocked := true, sent := s.sent ++ [p] }

/-- `Queue::recv` -/
def queueRecv (s : PriQueue) (p : Queued) : PriQueue := sendHead (enque s p)

/-- The packet goes in at the head, and the last one out if the queue is full.
mirrors queue/priqueue.cc:117-142 -/
def recvHighPriority (s : PriQueue) (p : Queued) : PriQueue :=
  let q := p :: s.q
  sendHead (if (q.length : Int) ≥ s.qlim then
    { s with q := q.dropLast, dropped := s.dropped ++ q.drop (q.length - 1) }
  else { s with q := q })

/-- The cases of the switch that share one body: the one for ants, and those
above it that have no `break` of their own.
mirrors queue/priqueue.cc:89-94 -/
def SharedCase (ptype : Nat) : Prop :=
  ptype = PT_DSR ∨ ptype = PT_MESSAGE ∨ ptype = PT_TORA ∨ ptype = PT_AODV ∨ ptype = PT_ANT

instance (ptype : Nat) : Decidable (SharedCase ptype) := by unfold SharedCase; infer_instance

/-- mirrors queue/priqueue.cc:81-114 -/
def recv (s : PriQueue) (p : Queued) : PriQueue :=
  if s.preferRoutingProtocols then
    if SharedCase p.pkt.ptype then
      if p.pkt.direction = .UP then recvHighPriority s p else queueRecv s p
    else if p.pkt.ptype = PT_AOMDV then recvHighPriority s p
    else queueRecv s p
  else queueRecv s p

/-- `Queue::resume`: the next packet, or the queue's state while it is empty. -/
def resume (s : PriQueue) (unblockOnResume : Bool) : PriQueue :=
  match s.q with
  | [] => { s with blocked := !unblockOnResume }
  | p :: q => { s with q := q, sent := s.sent ++ [p] }

/-- mirrors queue/priqueue.cc:144-160 -/
def filter (s : PriQueue) (f : HdrCmn → Bool) : PriQueue :=
  { s with
    q := s.q.filter fun p => !f p.pkt
    removed := s.removed ++ s.q.filter fun p => f p.pkt }

/-- The first packet for the next hop `id` is taken out.
mirrors queue/priqueue.cc:162-186 -/
def filterNextHop (s : PriQueue) (id : Nsaddr) : PriQueue :=
  { s with
    q := s.q.eraseP fun p => p.pkt.nextHop = id
    removed := s.removed ++ (s.q.find? fun p => p.pkt.nextHop = id).toList }

/-- mirrors queue/priqueue.cc:191-200 -/
def terminate (s : PriQueue) : PriQueue := { s with q := [], dropped := s.dropped ++ s.q }

/-! ## Runs -/

inductive Ev where
  | recv (p : HdrCmn)
  | resume (unblockOnResume : Bool)
  | filter (f : HdrCmn → Bool)
  | filterNextHop (id : Nsaddr)
  | terminate

/-- The packet of the next arrival, and the queue that has counted it. -/
def arrive (s : PriQueue) (p : HdrCmn) : Queued := ⟨p, s.arrivals.length⟩

def counted (s : PriQueue) (p : HdrCmn) : PriQueue := { s with arrivals := s.arrivals ++ [arrive s p] }

def step (s : PriQueue) : Ev → PriQueue
  | .recv p => recv (counted s p) (arrive s p)
  | .resume b => resume s b
  | .filter f => filter s f
  | .filterNextHop id => filterNextHop s id
  | .terminate => terminate s

/-- An empty queue with the defaults of ns-default.tcl:102-107. -/
structure Initial (s : PriQueue) : Prop where
  preferRoutingProtocols : s.preferRoutingProtocols = true
  dropFront : s.dropFront = false
  qib : s.qib = false
  q : s.q = []
  arrivals : s.arrivals = []
  sent : s.sent = []
  dropped : s.dropped = []
  removed : s.removed = []

def priQueue : LTS PriQueue Ev := LTS.ofFn Initial fun s e => some (step s e)

/-! ## What the operations do to the queue -/

section Queue

variable {s s' : PriQueue} {p : Queued}

theorem sendHead_q (s : PriQueue) : (sendHead s).q = if s.blocked then s.q else s.q.tail := by
  unfold sendHead
  split
  · rfl
  · cases h : s.q with
    | nil => simp [h]
    | cons p q => simp

theorem sendHead_sublist (s : PriQueue) : (sendHead s).q.Sublist s.q := by
  rw [sendHead_q]
  split
  · exact List.Sublist.refl _
  · exact List.tail_sublist _

/-- There is room for a packet at the tail. -/
def Room (s : PriQueue) : Prop := (s.q.length : Int) + 1 < s.qlim

instance (s : PriQueue) : Decidable (Room s) := by unfold Room; infer_instance

theorem enque_q (hd : s.dropFront = false) (hb : s.qib = false) (p : Queued) :
    (enque s p).q = if Room s then s.q ++ [p] else s.q := by
  have ho : Overflows s p ↔ ¬ Room s := by
    unfold Overflows Room
    rw [hb]
    simp only [true_and, reduceCtorEq, false_and, or_false]
    omega
  unfold enque
  by_cases h : Room s
  · rw [if_neg (by rw [ho]; exact fun hn => hn h), if_pos h]
  · rw [if_pos (ho.mpr h), if_neg h, hd]
    rfl

theorem recvHighPriority_sublist (s : PriQueue) (p : Queued) :
    (recvHighPriority s p).q.Sublist (p :: s.q) := by
  unfold recvHighPriority
  refine (sendHead_sublist _).trans ?_
  split
  · exact List.dropLast_sublist _
  · exact List.Sublist.refl _

/-- The packets that go in at the head. -/
def GoesFirst (p : HdrCmn) : Prop :=
  SharedCase p.ptype ∧ p.direction = .UP ∨ p.ptype = PT_AOMDV

instance (p : HdrCmn) : Decidable (GoesFirst p) := by unfold GoesFirst; infer_instance

/-- No packet of the shared cases has the type `PT_AOMDV`. -/
theorem not_sharedCase_aomdv : ¬ SharedCase PT_AOMDV := by decide

theorem recv_cases (s : PriQueue) (p : Queued) :
    recv s p = recvHighPriority s p ∨ recv s p = queueRecv s p := by
  unfold recv
  split_ifs <;> simp

theorem recv_eq (hp : s.preferRoutingProtocols = true) (p : Queued) :
    recv s p = if GoesFirst p.pkt then recvHighPriority s p else queueRecv s p := by
  unfold recv
  rw [if_pos hp]
  by_cases hg : GoesFirst p.pkt
  · rw [if_pos hg]
    rcases hg with ⟨hs, hu⟩ | ha
    · rw [if_pos hs, if_pos hu]
    · rw [ha, if_neg not_sharedCase_aomdv, if_pos rfl]
  · rw [if_neg hg]
    obtain ⟨hs, ha⟩ := not_or.mp hg
    by_cases h : SharedCase p.pkt.ptype
    · rw [if_pos h, if_neg fun hu => hs ⟨h, hu⟩]
    · rw [if_neg h, if_neg ha]

/-- At the tail, if there is room, and with the head gone if the link is free. -/
theorem queueRecv_sublist (hd : s.dropFront = false) (hb : s.qib = false) (p : Queued) :
    (queueRecv s p).q.Sublist (if Room s then s.q ++ [p] else s.q) := by
  unfold queueRecv
  rw [← enque_q hd hb]
  exact sendHead_sublist _

theorem queueRecv_blocked (hd : s.dropFront = false) (hb : s.qib = false) (hbl : s.blocked = true)
    (hr : Room s) (p : Queued) : (queueRecv s p).q = s.q ++ [p] := by
  have henq : (enque s p).blocked = true := by
    unfold enque
    split
    · split <;> exact hbl
    · exact hbl
  unfold queueRecv
  rw [sendHead_q, if_pos henq, enque_q hd hb, if_pos hr]

end Queue

/-! ## Every run -/

section Runs

variable {s s' : PriQueue} {l : Ev}

/-- What no arrival or departure changes. -/
structure SameSettings (s s' : PriQueue) : Prop where
  preferRoutingProtocols : s'.preferRoutingProtocols = s.preferRoutingProtocols
  dropFront : s'.dropFront = s.dropFront
  qib : s'.qib = s.qib
  arrivals : s'.arrivals = s.arrivals

theorem SameSettings.trans {s'' : PriQueue} (h : SameSettings s s') (h' : SameSettings s' s'') :
    SameSettings s s'' :=
  ⟨h'.1.trans h.1, h'.2.trans h.2, h'.3.trans h.3, h'.4.trans h.4⟩

theorem sendHead_settings (s : PriQueue) : SameSettings s (sendHead s) := by
  unfold sendHead
  split
  · exact ⟨rfl, rfl, rfl, rfl⟩
  · split <;> exact ⟨rfl, rfl, rfl, rfl⟩

theorem recv_settings (s : PriQueue) (p : Queued) : SameSettings s (recv s p) := by
  have hhigh : SameSettings s (recvHighPriority s p) := by
    unfold recvHighPriority
    refine SameSettings.trans ?_ (sendHead_settings _)
    split <;> exact ⟨rfl, rfl, rfl, rfl⟩
  have hlow : SameSettings s (queueRecv s p) := by
    unfold queueRecv
    refine SameSettings.trans ?_ (sendHead_settings _)
    unfold enque
    split
    · split <;> exact ⟨rfl, rfl, rfl, rfl⟩
    · exact ⟨rfl, rfl, rfl, rfl⟩
  rcases recv_cases s p with h | h <;> rw [h]
  · exact hhigh
  · exact hlow

/-- A free link leaves nothing queued. -/
theorem sendHead_idle (h : (sendHead s).blocked = false) : (sendHead s).q = [] := by
  unfold sendHead at h ⊢
  split at h
  · rename_i hb
    rw [hb] at h; cases h
  · rename_i hb
    rw [if_neg hb]
    cases hq : s.q with
    | nil => exact hq
    | cons p q => rw [hq] at h; cases h

theorem recv_idle {p : Queued} (h : (recv s p).blocked = false) : (recv s p).q = [] := by
  rcases recv_cases s p with hr | hr <;> rw [hr] at h ⊢ <;> exact sendHead_idle h

/-- What holds of the queue at any time. -/
structure QueueOk (s : PriQueue) : Prop where
  preferRoutingProtocols : s.preferRoutingProtocols = true
  dropFront : s.dropFront = false
  qib : s.qib = false
  idle : s.blocked = false → s.q = []
  arrived : ∀ p ∈ s.q, p.arrival < s.arrivals.length

@[simp] theorem counted_q (s : PriQueue) (p : HdrCmn) : (counted s p).q = s.q := rfl

@[simp] theorem room_counted (s : PriQueue) (p : HdrCmn) : Room (counted s p) ↔ Room s := Iff.rfl

theorem step_recv (h : QueueOk s) (p : HdrCmn) :
    step s (.recv p) = if GoesFirst p then recvHighPriority (counted s p) (arrive s p)
      else queueRecv (counted s p) (arrive s p) :=
  recv_eq (s := counted s p) h.preferRoutingProtocols (arrive s p)

/-- What a step can do to the queue: a packet enters at the head, or at the
tail if there is room, and others leave. -/
inductive Effect (s : PriQueue) : Ev → List Queued → Prop where
  | first {p : HdrCmn} {q : List Queued} : GoesFirst p → q.Sublist (arrive s p :: s.q) →
      Effect s (.recv p) q
  | last {p : HdrCmn} {q : List Queued} : ¬ GoesFirst p → Room s →
      q.Sublist (s.q ++ [arrive s p]) → Effect s (.recv p) q
  | less {l : Ev} {q : List Queued} : q.Sublist s.q → Effect s l q

/-- **Inversion of a step.** -/
theorem step_effect (h : QueueOk s) (l : Ev) : Effect s l (step s l).q := by
  cases l with
  | recv p =>
    rw [step_recv h]
    by_cases hg : GoesFirst p
    · rw [if_pos hg]
      exact .first hg (recvHighPriority_sublist _ _)
    · rw [if_neg hg]
      have hs := queueRecv_sublist (s := counted s p) h.dropFront h.qib (arrive s p)
      simp only [room_counted, counted_q] at hs
      by_cases hr : Room s
      · rw [if_pos hr] at hs
        exact .last hg hr hs
      · rw [if_neg hr] at hs
        exact .less hs
  | resume b =>
    refine .less ?_
    show (resume s b).q.Sublist s.q
    unfold resume
    split
    · exact List.Sublist.refl _
    · rename_i p q hq
      rw [hq]
      exact List.sublist_cons_self p q
  | filter f => exact .less List.filter_sublist
  | filterNextHop id => exact .less List.eraseP_sublist
  | terminate => exact .less (List.nil_sublist _)

theorem Effect.arrived {q : List Queued} (he : Effect s l q) (h : QueueOk s) :
    ∀ p ∈ q, p.arrival < (step s l).arrivals.length := by
  have hrecv : ∀ p, (step s (.recv p)).arrivals.length = s.arrivals.length + 1 := by
    intro p
    show (recv _ _).arrivals.length = _
    rw [(recv_settings _ _).arrivals]
    simp [Ifq.counted]
  have hle : s.arrivals.length ≤ (step s l).arrivals.length := by
    cases l with
    | recv p => rw [hrecv]; omega
    | resume b => simp only [step, resume]; split <;> exact le_rfl
    | filter | filterNextHop | terminate => exact le_rfl
  intro e hm
  cases he with
  | @first p _ _ hs =>
    rw [hrecv]
    rcases List.mem_cons.mp (hs.subset hm) with rfl | hq
    · exact Nat.lt_succ_self _
    · have := h.arrived e hq
      omega
  | @last p _ _ _ hs =>
    rw [hrecv]
    rcases List.mem_append.mp (hs.subset hm) with hq | hq
    · have := h.arrived e hq
      omega
    · rw [List.mem_singleton.mp hq]
      exact Nat.lt_succ_self _
  | less hs => exact Nat.lt_of_lt_of_le (h.arrived e (hs.subset hm)) hle

theorem queueOk_step (h : QueueOk s) (l : Ev) : QueueOk (step s l) := by
  have harr := (step_effect h l).arrived h
  cases l with
  | recv p =>
    have hs := recv_settings (counted s p) (arrive s p)
    exact ⟨hs.preferRoutingProtocols.trans h.preferRoutingProtocols, hs.dropFront.trans h.dropFront,
      hs.qib.trans h.qib, recv_idle, harr⟩
  | resume b =>
    simp only [step, resume] at harr ⊢
    split
    · rename_i hq
      exact ⟨h.preferRoutingProtocols, h.dropFront, h.qib, fun _ => hq, h.arrived⟩
    · rename_i p q hq
      rw [hq] at harr
      refine ⟨h.preferRoutingProtocols, h.dropFront, h.qib, fun hb => ?_, harr⟩
      have := h.idle hb
      rw [hq] at this; cases this
  | filter f =>
    refine ⟨h.preferRoutingProtocols, h.dropFront, h.qib, fun hb => ?_, harr⟩
    show s.q.filter _ = []
    rw [h.idle hb]; rfl
  | filterNextHop id =>
    refine ⟨h.preferRoutingProtocols, h.dropFront, h.qib, fun hb => ?_, harr⟩
    show s.q.eraseP _ = []
    rw [h.idle hb]; rfl
  | terminate => exact ⟨h.preferRoutingProtocols, h.dropFront, h.qib, fun _ => rfl, harr⟩

theorem queueOk_reachable (h : priQueue.Reachable s) : QueueOk s := by
  refine LTS.reachable_induct (I := QueueOk) ?_ ?_ h
  · intro s hi
    exact ⟨hi.preferRoutingProtocols, hi.dropFront, hi.qib, fun _ => hi.q, by simp [hi.q]⟩
  · intro a l b _ ih hs
    obtain rfl := Option.some.inj hs
    exact queueOk_step ih l

/-! ## The order of the queue -/

/-- The packets of the routing protocols; of the ants only those that go back.
mirrors common/packet.h:252-257, queue/priqueue.cc:89-105 -/
def IsRouting (p : HdrCmn) : Prop :=
  p.ptype ∈ [PT_DSR, PT_MESSAGE, PT_TORA, PT_AODV, PT_AOMDV] ∨ p.ptype = PT_ANT ∧ p.direction = .UP

instance (p : HdrCmn) : Decidable (IsRouting p) := by unfold IsRouting; infer_instance

/-- What goes in at the head belongs there. -/
theorem GoesFirst.isRouting {p : HdrCmn} (h : GoesFirst p) : IsRouting p := by
  rcases h with ⟨hs, hu⟩ | ha
  · rcases hs with hs | hs | hs | hs | hs
    · exact .inl (by rw [hs]; decide)
    · exact .inl (by rw [hs]; decide)
    · exact .inl (by rw [hs]; decide)
    · exact .inl (by rw [hs]; decide)
    · exact .inr ⟨hs, hu⟩
  · exact .inl (by rw [ha]; decide)

/-- Every queued routing packet stands ahead of all others. -/
abbrev RoutingFirst (q : List Queued) : Prop := HighFirst (fun p => IsRouting p.pkt) q

/-- The others stand in their order of arrival. -/
abbrev OthersInOrder (q : List Queued) : Prop :=
  LowInOrder (fun p => IsRouting p.pkt) (fun p p' => p.arrival < p'.arrival) q

theorem othersInOrder_step (hok : QueueOk s) (h : OthersInOrder s.q) (l : Ev) :
    OthersInOrder (step s l).q := by
  generalize hq : (step s l).q = q
  have he : Effect s l q := hq ▸ step_effect hok l
  cases he with
  | first hg hsub => exact (h.cons hg.isRouting).sublist hsub
  | last _ _ hsub => exact (h.append fun p hp => hok.arrived p hp).sublist hsub
  | less hsub => exact h.sublist hsub

theorem othersInOrder_reachable (h : priQueue.Reachable s) : OthersInOrder s.q := by
  refine LTS.reachable_induct (I := fun s => OthersInOrder s.q) ?_ ?_ h
  · intro s hi
    rw [hi.q]; exact List.Pairwise.nil
  · intro a l b ha ih hs
    obtain rfl := Option.some.inj hs
    exact othersInOrder_step (queueOk_reachable ha) ih l

/-! ## No packet is lost or duplicated -/

/-- All packets the queue has taken, by where they are. -/
def accounted (s : PriQueue) : List Queued := s.q ++ s.sent ++ s.dropped ++ s.removed

theorem accounted_sendHead (s : PriQueue) : (accounted (sendHead s)).Perm (accounted s) := by
  unfold sendHead
  split
  · exact List.Perm.refl _
  · split
    · exact List.Perm.refl _
    · rename_i p q hq
      rw [List.perm_iff_count]
      intro e
      simp only [accounted, hq, List.count_append, List.count_cons, List.count_nil]
      omega

theorem accounted_enque (s : PriQueue) (p : Queued) : (accounted (enque s p)).Perm (p :: accounted s) := by
  rw [List.perm_iff_count]
  intro e
  unfold enque
  split
  · split
    · have hsplit : (s.q ++ [p]).count e
          = ((s.q ++ [p]).take 1).count e + (s.q ++ [p]).tail.count e := by
        rw [← List.drop_one, ← List.count_append, List.take_append_drop]
      simp only [List.count_append, List.count_cons, List.count_nil] at hsplit
      simp only [accounted, List.count_append, List.count_cons]
      omega
    · simp only [accounted, List.count_append, List.count_cons, List.count_nil]
      omega
  · simp only [accounted, List.count_append, List.count_cons, List.count_nil]
    omega

theorem accounted_recvHighPriority (s : PriQueue) (p : Queued) :
    (accounted (recvHighPriority s p)).Perm (p :: accounted s) := by
  unfold recvHighPriority
  refine (accounted_sendHead _).trans ?_
  rw [List.perm_iff_count]
  intro e
  split
  · have hsplit : (p :: s.q).count e = (p :: s.q).dropLast.count e
        + ((p :: s.q).drop ((p :: s.q).length - 1)).count e := by
      rw [List.dropLast_eq_take, ← List.count_append, List.take_append_drop]
    simp only [accounted, List.count_append, List.count_cons] at hsplit ⊢
    omega
  · simp only [accounted, List.count_append, List.count_cons]
    omega

theorem accounted_recv (s : PriQueue) (p : Queued) : (accounted (recv s p)).Perm (p :: accounted s) := by
  rcases recv_cases s p with h | h <;> rw [h]
  · exact accounted_recvHighPriority s p
  · exact (accounted_sendHead _).trans (accounted_enque s p)

theorem accounted_resume (s : PriQueue) (b : Bool) : (accounted (resume s b)).Perm (accounted s) := by
  unfold resume
  split
  · exact List.Perm.refl _
  · rename_i p q hq
    rw [List.perm_iff_count]
    intro e
    simp only [accounted, hq, List.count_append, List.count_cons, List.count_nil]
    omega

theorem accounted_filter (s : PriQueue) (f : HdrCmn → Bool) :
    (accounted (filter s f)).Perm (accounted s) := by
  rw [List.perm_iff_count]
  intro e
  have hsplit : (s.q.filter fun p => f p.pkt).count e + (s.q.filter fun p => !f p.pkt).count e
      = s.q.count e := by
    rw [← List.count_append]
    exact (List.filter_append_perm (fun p => f p.pkt) s.q).count_eq e
  simp only [accounted, filter, List.count_append]
  omega

theorem count_eraseP_find? (f : Queued → Bool) (e : Queued) : ∀ q : List Queued,
    (q.eraseP f).count e + (q.find? f).toList.count e = q.count e
  | [] => rfl
  | p :: q => by
    have ih := count_eraseP_find? f e q
    by_cases hp : f p = true
    · simp [hp, List.count_cons]
    · rw [List.eraseP_cons_of_neg hp, List.find?_cons_of_neg hp, List.count_cons, List.count_cons]
      omega

theorem accounted_filterNextHop (s : PriQueue) (id : Nsaddr) :
    (accounted (filterNextHop s id)).Perm (accounted s) := by
  rw [List.perm_iff_count]
  intro e
  have hsplit := count_eraseP_find? (fun p => p.pkt.nextHop = id) e s.q
  simp only [accounted, filterNextHop, List.count_append]
  omega

theorem accounted_terminate (s : PriQueue) : (accounted (terminate s)).Perm (accounted s) := by
  rw [List.perm_iff_count]
  intro e
  simp only [accounted, terminate, List.count_append, List.count_nil]
  omega

theorem accounted_step (h : (accounted s).Perm s.arrivals) (l : Ev) :
    (accounted (step s l)).Perm (step s l).arrivals := by
  cases l with
  | recv p =>
    show (accounted (recv _ _)).Perm (recv _ _).arrivals
    rw [(recv_settings _ _).arrivals]
    refine (accounted_recv _ _).trans ?_
    exact (h.cons _).trans (List.perm_append_singleton _ _).symm
  | resume b =>
    have harr : (resume s b).arrivals = s.arrivals := by unfold resume; split <;> rfl
    show (accounted (resume s b)).Perm (resume s b).arrivals
    rw [harr]
    exact (accounted_resume s b).trans h
  | filter f => exact (accounted_filter s f).trans h
  | filterNextHop id => exact (accounted_filterNextHop s id).trans h
  | terminate => exact (accounted_terminate s).trans h

/-- **Every packet that came is queued, sent, dropped or taken out, and only one of these.** -/
theorem accounted_reachable (h : priQueue.Reachable s) : (accounted s).Perm s.arrivals := by
  refine LTS.reachable_induct (I := fun s => (accounted s).Perm s.arrivals) ?_ ?_ h
  · intro s hi
    simp [accounted, hi.q, hi.sent, hi.dropped, hi.removed, hi.arrivals]
  · intro a l b _ ih hs
    obtain rfl := Option.some.inj hs
    exact accounted_step ih l

end Runs

end AntNet.L2.Ifq
