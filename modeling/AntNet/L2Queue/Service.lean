import AntNet.Core.PriorityDeque
import AntNet.L2Queue.PriQueue

/-!
# The service of the interface queue

The queue under all its events, with any limit, in packets or in bytes, with
drop-tail or drop-front, and with the limit changed and `shrink-queue` called
at any time. High priority packets stand in front, the newest first; all
others behind them, the oldest first (`Before`).

* `queue_refines`: every run is one of a double-ended priority queue in this
  order: the link always gets the least packet, and what is dropped for want of
  room is the greatest, except with drop-front.
* `waiting_bound`: how long a packet can wait.
* `capacity`: how long the queue can get.
-/
namespace AntNet.L2.Ifq

open AntNet.L1 AntNet.PriorityDeque

/-! ## `shrink_queue` -/

/-- mirrors queue/drop-tail.cc:115-116 -/
def TooLong (s : PriQueue) : Prop :=
  (s.qib = false ∧ (s.q.length : Int) > s.qlim) ∨
    (s.qib = true ∧ byteLength s.q > qlimBytes s)

instance (s : PriQueue) : Decidable (TooLong s) := by unfold TooLong; infer_instance

/-- `drop(q_->deque())` -/
def dropHead (s : PriQueue) : PriQueue :=
  { s with q := s.q.tail, dropped := s.dropped ++ s.q.take 1 }

/-- `pp = q_->tail(); q_->remove(pp); drop(pp)` -/
def dropTail (s : PriQueue) : PriQueue :=
  { s with q := s.q.dropLast, dropped := s.dropped ++ s.q.drop (s.q.length - 1) }

/-- The loop; `none` where it would take a packet from an empty queue. -/
def shrinkLoop : Nat → PriQueue → Option PriQueue
  | 0, _ => none
  | fuel + 1, s =>
    if TooLong s then
      if s.q = [] then none
      else shrinkLoop fuel (if s.dropFront then dropHead s else dropTail s)
    else some s

/-- Every round takes one packet.
mirrors queue/drop-tail.cc:108-126 -/
def shrinkQueue (s : PriQueue) : Option PriQueue := shrinkLoop (s.q.length + 1) s

/-! ## Runs -/

/-- What a queue is told: its events, a new `limit_`, and `shrink-queue`. -/
inductive Cmd where
  | ev (e : Ev)
  | setLimit (n : Int)
  | shrinkQueue

def exec (s : PriQueue) : Cmd → Option PriQueue
  | .ev e => some (step s e)
  | .setLimit n => some { s with qlim := n }
  | .shrinkQueue => shrinkQueue s

/-- An empty queue, whatever its settings. -/
structure Fresh (s : PriQueue) : Prop where
  q : s.q = []
  arrivals : s.arrivals = []
  sent : s.sent = []
  dropped : s.dropped = []
  removed : s.removed = []

def ifq : LTS PriQueue Cmd := LTS.ofFn Fresh exec

/-! ## The order of service -/

/-- The packets that `recvHighPriority` takes. -/
def HighPriority (prefer : Bool) (p : HdrCmn) : Prop := prefer = true ∧ GoesFirst p

instance (prefer : Bool) (p : HdrCmn) : Decidable (HighPriority prefer p) := by
  unfold HighPriority; infer_instance

/-- `p` is to be sent before `p'`. -/
def Before (prefer : Bool) (p p' : Queued) : Prop :=
  if HighPriority prefer p.pkt then HighPriority prefer p'.pkt → p'.arrival < p.arrival
  else ¬ HighPriority prefer p'.pkt ∧ p.arrival < p'.arrival

instance (prefer : Bool) : DecidableRel (Before prefer) := fun p p' => by
  unfold Before; infer_instance

section Order

variable {prefer : Bool} {p p' : Queued}

theorem before_irrefl (prefer : Bool) (p : Queued) : ¬ Before prefer p p := by
  unfold Before
  split
  · rename_i h
    exact fun hlt => Nat.lt_irrefl _ (hlt h)
  · exact fun h => Nat.lt_irrefl _ h.2

theorem before_asymm (h : Before prefer p p') : ¬ Before prefer p' p := by
  unfold Before at h ⊢
  split at h
  · rename_i hp
    split
    · rename_i hp'
      exact fun h' => Nat.lt_asymm (h hp') (h' hp)
    · exact fun h' => h'.1 hp
  · rw [if_neg h.1]
    exact fun h' => Nat.lt_asymm h.2 h'.2

/-- The newest packet comes before all others if it has high priority, and after all others
if not. -/
theorem before_newest (prefer : Bool) (hlt : p.arrival < p'.arrival) :
    if HighPriority prefer p'.pkt then Before prefer p' p else Before prefer p p' := by
  split
  · rename_i h
    unfold Before
    rw [if_pos h]
    exact fun _ => hlt
  · rename_i h
    unfold Before
    split
    · exact fun h' => absurd h' h
    · exact ⟨h, hlt⟩

end Order

theorem recv_priority (s : PriQueue) (p : Queued) :
    recv s p = if HighPriority s.preferRoutingProtocols p.pkt then recvHighPriority s p
      else queueRecv s p := by
  by_cases hp : s.preferRoutingProtocols = true
  · rw [recv_eq hp]
    exact if_congr ⟨fun h => ⟨hp, h⟩, fun h => h.2⟩ rfl rfl
  · rw [if_neg fun h => hp h.1]
    unfold recv
    rw [if_neg hp]

/-! ## One step -/

/-- The moves `ms` lead from `s` to `s'`: the queue follows the abstract one and
stays in order, and the packets go where the moves say. -/
structure Moved (prefer : Bool) (s : PriQueue) (ms : List (Move Queued)) (s' : PriQueue) : Prop where
  run : (deque (Before prefer)).Run s.q.toFinset ms s'.q.toFinset
  sorted : s'.q.Pairwise (Before prefer)
  arrivals : s'.arrivals = s.arrivals ++ ms.filterMap Move.arrived
  sent : s'.sent = s.sent ++ ms.filterMap Move.sent
  dropped : s'.dropped = s.dropped ++ ms.filterMap Move.dropped
  removed : s'.removed = s.removed ++ ms.filterMap Move.removed

section Moves

variable {prefer : Bool} {s s' s'' : PriQueue} {ms ms' : List (Move Queued)} {p : Queued}

theorem Moved.refl (hq : s.q.Pairwise (Before prefer)) : Moved prefer s [] s :=
  ⟨.nil _, hq, by simp, by simp, by simp, by simp⟩

theorem Moved.trans (h : Moved prefer s ms s') (h' : Moved prefer s' ms' s'') :
    Moved prefer s (ms ++ ms') s'' := by
  refine ⟨LTS.run_append h.run h'.run, h'.sorted, ?_, ?_, ?_, ?_⟩
  · rw [h'.arrivals, h.arrivals, List.filterMap_append, List.append_assoc]
  · rw [h'.sent, h.sent, List.filterMap_append, List.append_assoc]
  · rw [h'.dropped, h.dropped, List.filterMap_append, List.append_assoc]
  · rw [h'.removed, h.removed, List.filterMap_append, List.append_assoc]

/-- One move, where the other histories stay as they are. -/
theorem Moved.single {m : Move Queued} (hs : Step (Before prefer) s.q.toFinset m s'.q.toFinset)
    (hq : s'.q.Pairwise (Before prefer)) (harr : s'.arrivals = s.arrivals ++ m.arrived.toList)
    (hsent : s'.sent = s.sent ++ m.sent.toList) (hdrop : s'.dropped = s.dropped ++ m.dropped.toList)
    (hrem : s'.removed = s.removed ++ m.removed.toList) : Moved prefer s [m] s' := by
  have hone : ∀ f : Move Queued → Option Queued, [m].filterMap f = (f m).toList := by
    intro f
    cases h : f m <;> simp [h]
  exact ⟨.cons hs (.nil _), hq, by rw [hone]; exact harr, by rw [hone]; exact hsent,
    by rw [hone]; exact hdrop, by rw [hone]; exact hrem⟩

/-- The packet of the next arrival, at the head. -/
def enterFirst (s : PriQueue) (p : HdrCmn) : PriQueue :=
  { counted s p with q := arrive s p :: s.q }

/-- The packet of the next arrival, at the tail. -/
def enterLast (s : PriQueue) (p : HdrCmn) : PriQueue :=
  { counted s p with q := s.q ++ [arrive s p] }

/-- The queue is in order, and its packets have arrived. -/
structure Ordered (prefer : Bool) (s : PriQueue) : Prop where
  sorted : s.q.Pairwise (Before prefer)
  arrived : ∀ p ∈ s.q, p.arrival < s.arrivals.length

theorem Ordered.notMem (h : Ordered prefer s) (p : HdrCmn) : arrive s p ∉ s.q := by
  intro hm
  exact Nat.lt_irrefl _ (h.arrived _ hm)

theorem moved_enterFirst (h : Ordered prefer s) {p : HdrCmn} (hp : HighPriority prefer p) :
    Moved prefer s [.arrive (arrive s p)] (enterFirst s p) := by
  refine .single ?_ ?_ rfl (by simp [enterFirst, counted, Move.sent]) (by simp [enterFirst, counted, Move.dropped])
    (by simp [enterFirst, counted, Move.removed])
  · show Step _ _ _ (arrive s p :: s.q).toFinset
    rw [List.toFinset_cons]
    exact .arrive fun hm => h.notMem p (List.mem_toFinset.mp hm)
  · refine List.pairwise_cons.mpr ⟨fun b hb => ?_, h.sorted⟩
    have hlt : b.arrival < (arrive s p).arrival := h.arrived b hb
    have hnew := before_newest prefer hlt
    have hp' : HighPriority prefer (arrive s p).pkt := hp
    rwa [if_pos hp'] at hnew

theorem moved_enterLast (h : Ordered prefer s) {p : HdrCmn} (hp : ¬ HighPriority prefer p) :
    Moved prefer s [.arrive (arrive s p)] (enterLast s p) := by
  refine .single ?_ ?_ rfl (by simp [enterLast, counted, Move.sent]) (by simp [enterLast, counted, Move.dropped])
    (by simp [enterLast, counted, Move.removed])
  · have hset : (s.q ++ [arrive s p]).toFinset = insert (arrive s p) s.q.toFinset := by
      ext b
      simp [or_comm]
    show Step _ _ _ (s.q ++ [arrive s p]).toFinset
    rw [hset]
    exact .arrive fun hm => h.notMem p (List.mem_toFinset.mp hm)
  · refine List.pairwise_append.mpr ⟨h.sorted, List.pairwise_singleton _ _, fun b hb c hc => ?_⟩
    obtain rfl := List.mem_singleton.mp hc
    have hlt : b.arrival < (arrive s p).arrival := h.arrived b hb
    have hnew := before_newest prefer hlt
    have hp' : ¬ HighPriority prefer (arrive s p).pkt := hp
    rwa [if_neg hp'] at hnew

theorem notMem_head {q : List Queued} (h : (p :: q).Pairwise (Before prefer)) : p ∉ q :=
  (List.nodup_cons.mp (nodup_of_pairwise (before_irrefl prefer) h)).1

theorem dropHead_nil (h : s.q = []) : dropHead s = s := by
  cases s
  simp only at h
  simp [dropHead, h]

theorem dropTail_nil (h : s.q = []) : dropTail s = s := by
  cases s
  simp only at h
  simp [dropTail, h]

theorem moved_dropHead (hq : s.q.Pairwise (Before prefer)) :
    Moved prefer s ((s.q.take 1).map .dropFirst) (dropHead s) := by
  cases h : s.q with
  | nil =>
    rw [dropHead_nil h]
    exact .refl hq
  | cons p q =>
    rw [h] at hq
    have hstep : Step (Before prefer) (p :: q).toFinset (.dropFirst p) ((p :: q).toFinset.erase p) :=
      .dropFirst (least_head hq)
    rw [erase_cons (notMem_head hq)] at hstep
    refine .single ?_ ?_ ?_ ?_ ?_ ?_ <;> simp only [dropHead, h, List.tail_cons]
    · exact hstep
    · exact (List.pairwise_cons.mp hq).2
    · simp [Move.arrived]
    · simp [Move.sent]
    · simp [Move.dropped]
    · simp [Move.removed]

/-- The head is handed to the link. -/
theorem moved_send {q : List Queued} (h : s.q = p :: q) (hq : s.q.Pairwise (Before prefer)) (b : Bool) :
    Moved prefer s [.send p] { s with q := q, blocked := b, sent := s.sent ++ [p] } := by
  rw [h] at hq
  have hstep : Step (Before prefer) (p :: q).toFinset (.send p) ((p :: q).toFinset.erase p) :=
    .send (least_head hq)
  rw [erase_cons (notMem_head hq), ← h] at hstep
  refine .single hstep (List.pairwise_cons.mp hq).2 ?_ ?_ ?_ ?_
  · simp [Move.arrived]
  · simp [Move.sent]
  · simp [Move.dropped]
  · simp [Move.removed]

theorem moved_sendHead (hq : s.q.Pairwise (Before prefer)) :
    Moved prefer s (if s.blocked then [] else (s.q.take 1).map .send) (sendHead s) := by
  unfold sendHead
  split
  · exact .refl hq
  · split
    · rename_i h
      rw [h]
      exact .refl hq
    · rename_i p q h
      rw [h]
      exact moved_send h hq true

theorem moved_dropTail (hq : s.q.Pairwise (Before prefer)) :
    Moved prefer s ((s.q.drop (s.q.length - 1)).map .dropLast) (dropTail s) := by
  rcases List.eq_nil_or_concat s.q with h | ⟨q, p, h⟩
  · rw [dropTail_nil h, h]
    exact .refl hq
  · rw [List.concat_eq_append] at h
    rw [h] at hq
    have hlast : s.q.drop (s.q.length - 1) = [p] := by simp [h]
    have hp : p ∉ q := by
      intro hm
      exact before_irrefl prefer p
        ((List.pairwise_append.mp hq).2.2 p hm p (List.mem_singleton_self p))
    have hstep : Step (Before prefer) (q ++ [p]).toFinset (.dropLast p) ((q ++ [p]).toFinset.erase p) :=
      .dropLast (greatest_last hq)
    rw [erase_snoc hp] at hstep
    rw [hlast]
    refine .single ?_ ?_ ?_ ?_ ?_ ?_ <;> simp only [dropTail, h, List.dropLast_concat]
    · exact hstep
    · exact (List.pairwise_append.mp hq).1
    · simp [Move.arrived]
    · simp [Move.sent]
    · simp [Move.dropped]
    · simp [Move.removed]

/-- Only the state of the link has changed. -/
theorem Moved.still (hq : s.q.Pairwise (Before prefer)) (b : Bool) (n : Int) :
    Moved prefer s [] { s with blocked := b, qlim := n } :=
  ⟨.nil _, hq, by simp, by simp, by simp, by simp⟩

theorem moved_filter (hq : s.q.Pairwise (Before prefer)) (f : HdrCmn → Bool) :
    Moved prefer s ((s.q.filter fun p => f p.pkt).map .remove) (filter s f) := by
  have hnd := nodup_of_pairwise (before_irrefl prefer) hq
  have hrun := run_remove (r := Before prefer) (l := s.q.filter fun p => f p.pkt) (S := s.q.toFinset)
    (hnd.filter _) fun p hp => List.mem_toFinset.mpr (List.mem_filter.mp hp).1
  have hset : s.q.toFinset \ (s.q.filter fun p => f p.pkt).toFinset =
      (s.q.filter fun p => !f p.pkt).toFinset := by
    ext p
    simp only [Finset.mem_sdiff, List.mem_toFinset, List.mem_filter, Bool.not_eq_true']
    constructor
    · rintro ⟨hp, hn⟩
      exact ⟨hp, Bool.eq_false_iff.mpr fun hf => hn ⟨hp, hf⟩⟩
    · rintro ⟨hp, hn⟩
      exact ⟨hp, fun hf => absurd hf.2 (by simp [hn])⟩
  rw [hset] at hrun
  refine ⟨hrun, List.Pairwise.sublist List.filter_sublist hq, ?_, ?_, ?_, ?_⟩ <;>
    simp [filter, Move.arrived, Move.sent, Move.dropped, Move.removed, Function.comp_def]

/-- The first one that meets `f` is erased. -/
theorem eraseP_of_find? {f : Queued → Bool} : ∀ {q : List Queued}, q.find? f = some p →
    q.eraseP f = q.erase p
  | [], h => by cases h
  | x :: q, h => by
    by_cases hx : f x = true
    · rw [List.find?_cons_of_pos hx] at h
      obtain rfl := Option.some.inj h
      rw [List.eraseP_cons_of_pos hx, List.erase_cons_head]
    · rw [List.find?_cons_of_neg hx] at h
      have hne : x ≠ p := by
        rintro rfl
        exact hx (List.find?_some h)
      rw [List.eraseP_cons_of_neg hx, eraseP_of_find? h, List.erase_cons_tail (by simpa using hne)]

theorem moved_filterNextHop (hq : s.q.Pairwise (Before prefer)) (id : Nsaddr) :
    Moved prefer s ((s.q.find? fun p => p.pkt.nextHop = id).toList.map .remove)
      (filterNextHop s id) := by
  cases hf : s.q.find? fun p => p.pkt.nextHop = id with
  | none =>
    have hall := List.find?_eq_none.mp hf
    have hs : filterNextHop s id = s := by
      simp only [filterNextHop, hf, List.eraseP_of_forall_not hall, Option.toList_none,
        List.append_nil]
    rw [hs]
    exact .refl hq
  | some p =>
    have hpq : p ∈ s.q := List.mem_of_find?_eq_some hf
    have hset : (s.q.erase p).toFinset = s.q.toFinset.erase p := by
      ext b
      simp [(nodup_of_pairwise (before_irrefl prefer) hq).mem_erase_iff]
    refine .single ?_ ?_ ?_ ?_ ?_ ?_
    · show Step _ _ _ (s.q.eraseP _).toFinset
      rw [eraseP_of_find? hf, hset]
      exact .remove (List.mem_toFinset.mpr hpq)
    · exact List.Pairwise.sublist List.eraseP_sublist hq
    · simp [filterNextHop, Move.arrived]
    · simp [filterNextHop, Move.sent]
    · simp [filterNextHop, Move.dropped]
    · simp [filterNextHop, hf, Move.removed]

theorem moved_terminate (hq : s.q.Pairwise (Before prefer)) :
    Moved prefer s (s.q.map .dropFirst) (terminate s) := by
  refine ⟨run_dropFirst (before_irrefl prefer) hq, List.Pairwise.nil, ?_, ?_, ?_, ?_⟩ <;>
    simp [terminate, Move.arrived, Move.sent, Move.dropped, Move.removed, Function.comp_def]

end Moves

/-- The packet a command brings. -/
def arrival (s : PriQueue) : Cmd → Option Queued
  | .ev (.recv p) => some (arrive s p)
  | _ => none

/-- Which moves a command can make: nothing arrives but the packet it brings,
and only drop-front and `terminate` drop from the head. -/
structure Explains (s : PriQueue) (c : Cmd) (ms : List (Move Queued)) : Prop where
  arrived : ms.filterMap Move.arrived = (arrival s c).toList
  tail : s.dropFront = false → c ≠ .ev .terminate → ∀ p, .dropFirst p ∉ ms

section Commands

variable {prefer : Bool} {s s' s'' : PriQueue} {c : Cmd} {ms ms' : List (Move Queued)}

/-- More moves by which nothing arrives. -/
theorem Explains.append (h : Explains s c ms) (ha : ms'.filterMap Move.arrived = [])
    (ht : s.dropFront = false → ∀ p, .dropFirst p ∉ ms') : Explains s c (ms ++ ms') := by
  refine ⟨by rw [List.filterMap_append, ha, List.append_nil, h.arrived], fun hd hc p hm => ?_⟩
  rcases List.mem_append.mp hm with hm | hm
  · exact h.tail hd hc p hm
  · exact ht hd p hm

theorem explains_arrive (s : PriQueue) (p : HdrCmn) :
    Explains s (.ev (.recv p)) [.arrive (arrive s p)] :=
  ⟨rfl, by simp⟩

theorem arrived_map {k : Queued → Move Queued} (hk : ∀ p, (k p).arrived = none) (l : List Queued) :
    (l.map k).filterMap Move.arrived = [] := by
  apply List.filterMap_eq_nil_iff.mpr
  intro m hm
  obtain ⟨p, -, rfl⟩ := List.mem_map.mp hm
  exact hk p

theorem dropFirst_notMem_map {k : Queued → Move Queued} (hk : ∀ p p', k p ≠ .dropFirst p')
    (l : List Queued) (p : Queued) : .dropFirst p ∉ l.map k := by
  intro hm
  obtain ⟨p', -, he⟩ := List.mem_map.mp hm
  exact hk p' p he

theorem explains_map {k : Queued → Move Queued} (hc : arrival s c = none)
    (hk : ∀ p, (k p).arrived = none) (hd : ∀ p p', k p ≠ .dropFirst p') (l : List Queued) :
    Explains s c (l.map k) :=
  ⟨by rw [arrived_map hk, hc]; rfl, fun _ _ p => dropFirst_notMem_map hd l p⟩

theorem explains_send (h : Explains s c ms) (b : Bool) (l : List Queued) :
    Explains s c (ms ++ if b then [] else l.map .send) := by
  cases b with
  | true => rwa [if_pos rfl, List.append_nil]
  | false => exact h.append (arrived_map (fun _ => rfl) l) fun _ => dropFirst_notMem_map (by simp) l

theorem explains_dropLast (h : Explains s c ms) (l : List Queued) :
    Explains s c (ms ++ l.map .dropLast) :=
  h.append (arrived_map (fun _ => rfl) l) fun _ => dropFirst_notMem_map (by simp) l

theorem explains_dropFirst (h : Explains s c ms) (hd : s.dropFront = true) (l : List Queued) :
    Explains s c (ms ++ l.map .dropFirst) :=
  h.append (arrived_map (fun _ => rfl) l) fun hf => absurd (hf.symm.trans hd) (by decide)

/-- A packet that finds no room goes in and another one, or itself, comes out. -/
theorem enque_counted (s : PriQueue) (p : HdrCmn) : enque (counted s p) (arrive s p) =
    if Overflows (counted s p) (arrive s p) then
      if s.dropFront then dropHead (enterLast s p) else dropTail (enterLast s p)
    else enterLast s p := by
  unfold enque
  split
  · show (if s.dropFront then _ else _) = _
    split
    · rfl
    · simp [dropTail, enterLast, counted]
  · rfl

theorem recvHighPriority_counted (s : PriQueue) (p : HdrCmn) :
    recvHighPriority (counted s p) (arrive s p) =
      sendHead (if ((enterFirst s p).q.length : Int) ≥ s.qlim then dropTail (enterFirst s p)
        else enterFirst s p) := rfl

theorem recv_moved (h : Ordered s.preferRoutingProtocols s) (p : HdrCmn) :
    ∃ ms, Moved s.preferRoutingProtocols s ms (recv (counted s p) (arrive s p)) ∧
      Explains s (.ev (.recv p)) ms := by
  have hmid : ∀ {ms : List (Move Queued)} {t : PriQueue}, Moved s.preferRoutingProtocols s ms t →
      Explains s (.ev (.recv p)) ms →
      ∃ ms, Moved s.preferRoutingProtocols s ms (sendHead t) ∧ Explains s (.ev (.recv p)) ms :=
    fun ht he => ⟨_, ht.trans (moved_sendHead ht.sorted), explains_send he _ _⟩
  rw [recv_priority]
  by_cases hp : HighPriority s.preferRoutingProtocols p
  · have hin := moved_enterFirst h hp
    have hp' : HighPriority (counted s p).preferRoutingProtocols (arrive s p).pkt := hp
    rw [if_pos hp', recvHighPriority_counted]
    split
    · exact hmid (hin.trans (moved_dropTail hin.sorted)) (explains_dropLast (explains_arrive s p) _)
    · exact hmid hin (explains_arrive s p)
  · have hin := moved_enterLast h hp
    have hp' : ¬ HighPriority (counted s p).preferRoutingProtocols (arrive s p).pkt := hp
    rw [if_neg hp', queueRecv, enque_counted]
    split
    · split
      · rename_i hd
        exact hmid (hin.trans (moved_dropHead hin.sorted))
          (explains_dropFirst (explains_arrive s p) hd _)
      · exact hmid (hin.trans (moved_dropTail hin.sorted))
          (explains_dropLast (explains_arrive s p) _)
    · exact hmid hin (explains_arrive s p)

theorem resume_moved (h : s.q.Pairwise (Before prefer)) (b : Bool) :
    Moved prefer s ((s.q.take 1).map .send) (resume s b) := by
  unfold resume
  split
  · rename_i hq
    have hnone : (s.q.take 1).map Move.send = [] := by rw [hq]; rfl
    rw [hnone]
    exact .still h _ s.qlim
  · rename_i p q hq
    rw [hq]
    exact moved_send hq h s.blocked

theorem shrinkLoop_moved : ∀ (fuel : Nat) {s s' : PriQueue}, s.q.Pairwise (Before prefer) →
    shrinkLoop fuel s = some s' →
    ∃ ms, Moved prefer s ms s' ∧ Explains s .shrinkQueue ms
  | 0, _, _, _, h => by cases h
  | fuel + 1, s, s', hq, h => by
    unfold shrinkLoop at h
    split at h
    · split at h
      · cases h
      · -- one round, then the rest of the loop from a queue with the same settings
        by_cases hd : s.dropFront = true
        · rw [if_pos hd] at h
          have hone := moved_dropHead hq
          obtain ⟨ms, hm, he⟩ := shrinkLoop_moved fuel hone.sorted h
          refine ⟨_, hone.trans hm, ⟨?_, fun hf => absurd (hf.symm.trans hd) (by decide)⟩⟩
          rw [List.filterMap_append, he.arrived, arrived_map fun _ => rfl]
          rfl
        · rw [if_neg hd] at h
          have hone := moved_dropTail hq
          obtain ⟨ms, hm, he⟩ := shrinkLoop_moved fuel hone.sorted h
          exact ⟨_, hone.trans hm, (explains_map rfl (fun _ => rfl) (by simp) _).append he.arrived
            fun hf p => he.tail hf (by simp) p⟩
    · obtain rfl := Option.some.inj h
      exact ⟨[], .refl hq, ⟨rfl, by simp⟩⟩

/-- **Every command is a run of moves.** -/
theorem exec_moved (h : Ordered s.preferRoutingProtocols s) (hs : exec s c = some s') :
    ∃ ms, Moved s.preferRoutingProtocols s ms s' ∧ Explains s c ms := by
  cases c with
  | ev e =>
    obtain rfl := Option.some.inj hs
    cases e with
    | recv p => exact recv_moved h p
    | resume b =>
      exact ⟨_, resume_moved h.sorted b, explains_map rfl (fun _ => rfl) (by simp) _⟩
    | filter f =>
      exact ⟨_, moved_filter h.sorted f, explains_map rfl (fun _ => rfl) (by simp) _⟩
    | filterNextHop id =>
      exact ⟨_, moved_filterNextHop h.sorted id, explains_map rfl (fun _ => rfl) (by simp) _⟩
    | terminate =>
      exact ⟨_, moved_terminate h.sorted, ⟨arrived_map (fun _ => rfl) _, fun _ hc => absurd rfl hc⟩⟩
  | setLimit n =>
    obtain rfl := Option.some.inj hs
    exact ⟨[], .still h.sorted s.blocked n, ⟨rfl, by simp⟩⟩
  | shrinkQueue => exact shrinkLoop_moved _ h.sorted hs

/-! ## Every run -/

/-- What no command changes. -/
structure SameMode (s s' : PriQueue) : Prop where
  preferRoutingProtocols : s'.preferRoutingProtocols = s.preferRoutingProtocols
  dropFront : s'.dropFront = s.dropFront
  qib : s'.qib = s.qib

theorem SameMode.trans (h : SameMode s s') (h' : SameMode s' s'') : SameMode s s'' :=
  ⟨h'.1.trans h.1, h'.2.trans h.2, h'.3.trans h.3⟩

theorem shrinkLoop_mode : ∀ (fuel : Nat) {s s' : PriQueue}, shrinkLoop fuel s = some s' → SameMode s s'
  | 0, _, _, h => by cases h
  | fuel + 1, s, s', h => by
    unfold shrinkLoop at h
    split at h
    · split at h
      · cases h
      · have hone : SameMode s (if s.dropFront then dropHead s else dropTail s) := by
          split <;> exact ⟨rfl, rfl, rfl⟩
        exact hone.trans (shrinkLoop_mode fuel h)
    · obtain rfl := Option.some.inj h
      exact ⟨rfl, rfl, rfl⟩

theorem exec_mode (hs : exec s c = some s') : SameMode s s' := by
  cases c with
  | ev e =>
    obtain rfl := Option.some.inj hs
    cases e with
    | recv p =>
      have h := recv_settings (counted s p) (arrive s p)
      exact ⟨h.preferRoutingProtocols, h.dropFront, h.qib⟩
    | resume b =>
      show SameMode s (resume s b)
      unfold resume
      split <;> exact ⟨rfl, rfl, rfl⟩
    | filter | filterNextHop | terminate => exact ⟨rfl, rfl, rfl⟩
  | setLimit n =>
    obtain rfl := Option.some.inj hs
    exact ⟨rfl, rfl, rfl⟩
  | shrinkQueue => exact shrinkLoop_mode _ hs

theorem ordered_exec (h : Ordered s.preferRoutingProtocols s) (hs : exec s c = some s') :
    Ordered s'.preferRoutingProtocols s' := by
  obtain ⟨ms, hm, he⟩ := exec_moved h hs
  rw [(exec_mode hs).preferRoutingProtocols]
  refine ⟨hm.sorted, fun p hp => ?_⟩
  rw [hm.arrivals, List.length_append, he.arrived]
  by_cases hnew : p ∈ ms.filterMap Move.arrived
  · rw [he.arrived] at hnew
    cases ha : arrival s c with
    | none => rw [ha] at hnew; cases hnew
    | some a =>
      rw [ha] at hnew
      obtain rfl := List.mem_singleton.mp hnew
      have hnum : p.arrival = s.arrivals.length := by
        unfold arrival at ha
        split at ha
        · rw [← Option.some.inj ha]
          rfl
        · cases ha
      rw [hnum]
      exact Nat.lt_succ_self _
  · have hold := mem_of_run hm.run (List.mem_toFinset.mpr hp) hnew
    have := h.arrived p (List.mem_toFinset.mp hold)
    omega

theorem ordered_reachable (h : ifq.Reachable s) : Ordered s.preferRoutingProtocols s := by
  refine LTS.reachable_induct (I := fun s => Ordered s.preferRoutingProtocols s) ?_ ?_ h
  · intro s hi
    exact ⟨by rw [hi.q]; exact List.Pairwise.nil, by simp [hi.q]⟩
  · intro a c b _ ih hs
    exact ordered_exec ih hs

/-- The packet a command brings, as the caller sees it. -/
def incoming : Cmd → Option HdrCmn
  | .ev (.recv p) => some p
  | _ => none

theorem arrival_eq (s : PriQueue) (c : Cmd) : arrival s c = (incoming c).map (arrive s) := by
  unfold arrival incoming
  split <;> simp_all

/-- What the moves of a whole run are. -/
structure Explained (s : PriQueue) (cs : List Cmd) (ms : List (Move Queued)) : Prop where
  arrived : (ms.filterMap Move.arrived).map Queued.pkt = cs.filterMap incoming
  newer : ∀ p ∈ ms.filterMap Move.arrived, s.arrivals.length ≤ p.arrival
  tail : s.dropFront = false → .ev .terminate ∉ cs → ∀ p, .dropFirst p ∉ ms

theorem run_moved {cs : List Cmd} (hr : ifq.Reachable s) (hrun : ifq.Run s cs s') :
    ∃ ms, Moved s.preferRoutingProtocols s ms s' ∧ Explained s cs ms := by
  induction hrun with
  | nil s => exact ⟨[], .refl (ordered_reachable hr).sorted, rfl, by simp, by simp⟩
  | @cons a b c l cs hs hrest ih =>
    obtain ⟨ms₁, hm₁, he₁⟩ := exec_moved (ordered_reachable hr) hs
    obtain ⟨ms₂, hm₂, he₂⟩ := ih (LTS.reachable_step hr hs)
    have hmode := exec_mode hs
    rw [hmode.preferRoutingProtocols] at hm₂
    refine ⟨ms₁ ++ ms₂, hm₁.trans hm₂, ?_, ?_, ?_⟩
    · rw [List.filterMap_append, List.map_append, he₁.arrived, he₂.arrived, List.filterMap_cons,
        arrival_eq]
      cases incoming l <;> rfl
    · intro p hp
      rw [List.filterMap_append, List.mem_append, he₁.arrived, arrival_eq] at hp
      rcases hp with hp | hp
      · cases hl : incoming l with
        | none => rw [hl] at hp; cases hp
        | some x =>
          rw [hl] at hp
          rw [List.mem_singleton.mp hp]
          exact Nat.le_refl _
      · have := he₂.newer p hp
        rw [hm₁.arrivals, List.length_append] at this
        omega
    · intro hd hns p hp
      obtain ⟨hl, hns'⟩ := not_or.mp (mt List.mem_cons.mpr hns)
      rcases List.mem_append.mp hp with hp | hp
      · exact he₁.tail hd (fun h => hl h.symm) p hp
      · exact he₂.tail (hmode.dropFront.trans hd) hns' p hp

/-- **The interface queue is a double-ended priority queue.** Every run is one
of the abstract queue in the order `Before`: it is the link that gets the least
of the waiting packets each time, the histories are those of the moves, and the
list is the waiting packets in order. Without drop-front nothing but
`terminate` drops another packet than the greatest. -/
theorem queue_refines {s₀ : PriQueue} (h0 : Fresh s₀) {cs : List Cmd} (hrun : ifq.Run s₀ cs s) :
    let r := Before s₀.preferRoutingProtocols
    ∃ ms : List (Move Queued), (deque r).Run ∅ ms s.q.toFinset ∧ s.q.Pairwise r ∧
      s.arrivals = ms.filterMap Move.arrived ∧ s.sent = ms.filterMap Move.sent ∧
      s.dropped = ms.filterMap Move.dropped ∧ s.removed = ms.filterMap Move.removed ∧
      (s.arrivals.map Queued.pkt = cs.filterMap incoming) ∧
      (s₀.dropFront = false → .ev .terminate ∉ cs → ∀ p, .dropFirst p ∉ ms) := by
  intro r
  obtain ⟨ms, hm, he⟩ := run_moved (LTS.reachable_init h0) hrun
  have hstart : (deque r).Run s₀.q.toFinset ms s.q.toFinset := hm.run
  rw [h0.q] at hstart
  refine ⟨ms, hstart, hm.sorted, ?_, ?_, ?_, ?_, ?_, he.tail⟩
  · rw [hm.arrivals, h0.arrivals, List.nil_append]
  · rw [hm.sent, h0.sent, List.nil_append]
  · rw [hm.dropped, h0.dropped, List.nil_append]
  · rw [hm.removed, h0.removed, List.nil_append]
  · rw [hm.arrivals, h0.arrivals, List.nil_append, he.arrived]

/-- A drop-tail queue of limit 4. -/
def short : PriQueue := ⟨true, 4, false, false, 500, false, [], [], [], [], []⟩

theorem short_fresh : Fresh short := ⟨rfl, rfl, rfl, rfl, rfl⟩

def ant (direction : Dir) : HdrCmn := ⟨PT_ANT, 500, 0, 0, direction, 1, .INET, 0⟩

def forwardAnts (n : Nat) : List Cmd := List.replicate n (.ev (.recv (ant .DOWN)))

/-- A backward ant overtakes two forward ants. -/
theorem queue_refines_short : ∃ (s : PriQueue) (ms : List (Move Queued)), ifq.Reachable s ∧
    (deque (Before true)).Run ∅ ms s.q.toFinset ∧
    ms.filterMap Move.sent = [⟨ant .DOWN, 0⟩, ⟨ant .UP, 3⟩] := by
  have hrun : (LTS.exec exec short
      (forwardAnts 3 ++ [.ev (.recv (ant .UP)), .ev (.resume true)])).map (·.sent) =
        some [⟨ant .DOWN, 0⟩, ⟨ant .UP, 3⟩] := by decide +kernel
  obtain ⟨s, hs, hsent⟩ := Option.map_eq_some_iff.mp hrun
  obtain ⟨ms, hm, -, -, hms, -⟩ := queue_refines short_fresh (LTS.run_of_exec _ _ _ hs)
  exact ⟨s, ms, LTS.reachable_of_exec short_fresh hs, hm, hms.symm.trans hsent⟩

/-! ## Waiting -/

/-- `resume` by the link layer, which asks for the next packet. -/
def isResume : Cmd → Bool
  | .ev (.resume _) => true
  | _ => false

/-- While a packet waits, the link gets a packet at every `resume`. -/
theorem resumes_served {cs : List Cmd} {p : Queued} (hr : ifq.Reachable s) (hrun : ifq.Run s cs s')
    (hp : p ∈ s'.q) (hold : p.arrival < s.arrivals.length) :
    cs.countP isResume + s.sent.length ≤ s'.sent.length := by
  induction hrun with
  | nil => simp
  | @cons a b c l cs hs hrest ih =>
    have ho := ordered_reachable hr
    obtain ⟨ms₁, hm₁, he₁⟩ := exec_moved ho hs
    have hb := LTS.reachable_step hr hs
    have hold' : p.arrival < b.arrivals.length := by
      rw [hm₁.arrivals, List.length_append]
      omega
    have hrec := ih hb hp hold'
    have hmono : a.sent.length ≤ b.sent.length := by
      rw [hm₁.sent, List.length_append]
      omega
    rw [List.countP_cons]
    split
    · rename_i hl
      -- the head goes, as `p` is still queued
      obtain ⟨ms, hm, he⟩ := run_moved hr (.cons hs hrest)
      have hpa : p ∈ a.q := by
        refine List.mem_toFinset.mp (mem_of_run hm.run (List.mem_toFinset.mpr hp) fun hnew => ?_)
        have := he.newer p hnew
        omega
      have hone : b.sent.length = a.sent.length + 1 := by
        cases l with
        | ev e =>
          cases e with
          | resume f =>
            obtain rfl := Option.some.inj hs
            show (resume a f).sent.length = _
            unfold resume
            split
            · rename_i hq
              rw [hq] at hpa; cases hpa
            · simp
          | _ => cases hl
        | _ => cases hl
      omega
    · omega

/-- **How long a packet can wait.** While packet `p` stays queued, the packets
handed to the link stood ahead of it or are of high priority and have come
since; there is one for every `resume`; and they are at most as many as the
packets that stood ahead of `p` and the ones of high priority that have come
since, less those now ahead of it. -/
theorem waiting_bound (hr : ifq.Reachable s) {cs : List Cmd} (hrun : ifq.Run s cs s') {p : Queued}
    (hp : p ∈ s.q) (hp' : p ∈ s'.q) : ∃ xs : List Queued, s'.sent = s.sent ++ xs ∧
      (∀ x ∈ xs, Before s.preferRoutingProtocols x p) ∧
      cs.countP isResume ≤ xs.length ∧
      xs.length + s'.q.idxOf p ≤ s.q.idxOf p +
        (cs.filterMap incoming).countP fun x => HighPriority s.preferRoutingProtocols x := by
  have ho := ordered_reachable hr
  have hold := ho.arrived p hp
  obtain ⟨ms, hm, he⟩ := run_moved hr hrun
  have hnew : p ∉ ms.filterMap Move.arrived := fun h => by
    have := he.newer p h
    omega
  obtain ⟨hbefore, hle⟩ := overtaking hm.run (List.mem_toFinset.mpr hp') hnew
  have hasymm : ∀ a b, Before s.preferRoutingProtocols a b → ¬ Before s.preferRoutingProtocols b a :=
    fun _ _ => before_asymm
  rw [ahead_toFinset hasymm ho.sorted hp, ahead_toFinset hasymm hm.sorted hp'] at hle
  refine ⟨_, hm.sent, hbefore, ?_, ?_⟩
  · have hserved := resumes_served hr hrun hp' hold
    rw [hm.sent, List.length_append] at hserved
    omega
  · -- of the packets that have come since, those of high priority are before `p`
    have hcount : (ms.filterMap Move.arrived).countP (fun x => Before s.preferRoutingProtocols x p) =
        (cs.filterMap incoming).countP fun x => HighPriority s.preferRoutingProtocols x := by
      rw [← he.arrived, List.countP_map]
      refine List.countP_congr fun x hx => ?_
      have hlt : p.arrival < x.arrival := Nat.lt_of_lt_of_le hold (he.newer x hx)
      have hcmp := before_newest s.preferRoutingProtocols hlt
      simp only [decide_eq_true_eq, Function.comp_apply]
      split at hcmp
      · rename_i hx
        exact ⟨fun _ => hx, fun _ => hcmp⟩
      · rename_i hx
        exact ⟨fun h => absurd h (before_asymm hcmp), fun h => absurd h hx⟩
    omega

/-- The last of three forward ants, while a backward ant comes and the link takes it. -/
theorem waiting_bound_short : ∃ s s' : PriQueue, ifq.Reachable s ∧
    s.q.idxOf ⟨ant .DOWN, 2⟩ = 1 ∧ ∃ xs : List Queued, s'.sent = s.sent ++ xs ∧
      xs.length + s'.q.idxOf ⟨ant .DOWN, 2⟩ ≤ 2 := by
  let cs : List Cmd := [.ev (.recv (ant .UP)), .ev (.resume true)]
  have hrun : ((LTS.exec exec short (forwardAnts 3)).bind fun s =>
      (LTS.exec exec s cs).map fun s' => decide (s.preferRoutingProtocols = true ∧
        s.q = [⟨ant .DOWN, 1⟩, ⟨ant .DOWN, 2⟩] ∧ ⟨ant .DOWN, 2⟩ ∈ s'.q)) = some true := by decide +kernel
  obtain ⟨s, hs, hrun⟩ := Option.bind_eq_some_iff.mp hrun
  obtain ⟨s', hs', hres⟩ := Option.map_eq_some_iff.mp hrun
  obtain ⟨hpre, hq, hin⟩ := of_decide_eq_true hres
  have hr : ifq.Reachable s := LTS.reachable_of_exec short_fresh hs
  obtain ⟨xs, hsent, -, -, hle⟩ := waiting_bound hr (LTS.run_of_exec cs s s' hs')
    (p := ⟨ant .DOWN, 2⟩) (by rw [hq]; decide) hin
  have hidx : s.q.idxOf (⟨ant .DOWN, 2⟩ : Queued) = 1 := by rw [hq]; decide
  refine ⟨s, s', hr, hidx, xs, hsent, ?_⟩
  rw [hidx, hpre] at hle
  exact hle

/-! ## Length -/

theorem sendHead_qlim (s : PriQueue) : (sendHead s).qlim = s.qlim := by
  unfold sendHead
  split
  · rfl
  · split <;> rfl

theorem recv_qlim (s : PriQueue) (p : Queued) : (recv s p).qlim = s.qlim := by
  rcases recv_cases s p with h | h <;> rw [h]
  · unfold recvHighPriority
    rw [sendHead_qlim]
    split <;> rfl
  · unfold queueRecv
    rw [sendHead_qlim]
    unfold enque
    split
    · split <;> rfl
    · rfl

theorem shrinkLoop_qlim : ∀ (fuel : Nat) {s s' : PriQueue}, shrinkLoop fuel s = some s' → s'.qlim = s.qlim
  | 0, _, _, h => by cases h
  | fuel + 1, s, s', h => by
    unfold shrinkLoop at h
    split at h
    · split at h
      · cases h
      · rw [shrinkLoop_qlim fuel h]
        split <;> rfl
    · obtain rfl := Option.some.inj h
      rfl

/-- No command but a new limit changes the limit. -/
theorem exec_qlim (hs : exec s c = some s') : s'.qlim = s.qlim ∨ c = .setLimit s'.qlim := by
  cases c with
  | ev e =>
    obtain rfl := Option.some.inj hs
    left
    cases e with
    | recv p => exact recv_qlim (counted s p) (arrive s p)
    | resume b =>
      show (resume s b).qlim = _
      unfold resume
      split <;> rfl
    | filter | filterNextHop | terminate => rfl
  | setLimit n =>
    obtain rfl := Option.some.inj hs
    exact .inr rfl
  | shrinkQueue => exact .inl (shrinkLoop_qlim _ hs)

/-- A packet more only where there is room for it. -/
theorem recv_length (hb : s.qib = false) (p : HdrCmn) :
    (recv (counted s p) (arrive s p)).q.length ≤ s.q.length ∨
      Room s ∧ (recv (counted s p) (arrive s p)).q.length ≤ s.q.length + 1 := by
  have hsend : ∀ t : PriQueue, (sendHead t).q.length ≤ t.q.length := fun t =>
    (sendHead_sublist t).length_le
  have hroom : Overflows (counted s p) (arrive s p) ↔ ¬ Room s := by
    have hb' : (counted s p).qib = false := hb
    unfold Overflows Room
    rw [hb']
    simp only [true_and, reduceCtorEq, false_and, or_false]
    show (s.q.length : Int) + 1 ≥ s.qlim ↔ _
    omega
  rcases recv_cases (counted s p) (arrive s p) with h | h <;> rw [h]
  · rw [recvHighPriority_counted]
    have hlen : (enterFirst s p).q.length = s.q.length + 1 := rfl
    split
    · left
      refine (hsend _).trans ?_
      simp [dropTail, hlen]
    · rename_i hfull
      right
      refine ⟨?_, (hsend _).trans (Nat.le_of_eq hlen)⟩
      unfold Room
      rw [hlen] at hfull
      omega
  · rw [queueRecv, enque_counted]
    have hlen : (enterLast s p).q.length = s.q.length + 1 := by simp [enterLast]
    split
    · left
      refine (hsend _).trans ?_
      split <;> simp [dropHead, dropTail, hlen]
    · rename_i hfull
      right
      exact ⟨by_contra fun hn => hfull (hroom.mpr hn), (hsend _).trans (Nat.le_of_eq hlen)⟩

theorem shrinkLoop_length : ∀ (fuel : Nat) {s s' : PriQueue}, shrinkLoop fuel s = some s' →
    s'.q.length ≤ s.q.length
  | 0, _, _, h => by cases h
  | fuel + 1, s, s', h => by
    unfold shrinkLoop at h
    split at h
    · split at h
      · cases h
      · refine (shrinkLoop_length fuel h).trans ?_
        split <;> simp [dropHead, dropTail]
    · obtain rfl := Option.some.inj h
      exact Nat.le_refl _

theorem exec_length (hb : s.qib = false) (hs : exec s c = some s') :
    s'.q.length ≤ s.q.length ∨ Room s ∧ s'.q.length ≤ s.q.length + 1 := by
  cases c with
  | ev e =>
    obtain rfl := Option.some.inj hs
    cases e with
    | recv p => exact recv_length hb p
    | resume b =>
      left
      show (resume s b).q.length ≤ _
      unfold resume
      split
      · exact Nat.le_refl _
      · rename_i hq
        rw [hq]
        exact Nat.le_succ _
    | filter f => exact .inl (List.length_filter_le _ _)
    | filterNextHop id => exact .inl (List.length_eraseP_le)
    | terminate => exact .inl (Nat.zero_le _)
  | setLimit n =>
    obtain rfl := Option.some.inj hs
    exact .inl (Nat.le_refl _)
  | shrinkQueue => exact .inl (shrinkLoop_length _ hs)

theorem length_run {cs : List Cmd} (hb : s.qib = false) (hrun : ifq.Run s cs s') {lim : Int}
    (h0 : s.qlim ≤ lim) (hlim : ∀ n, .setLimit n ∈ cs → n ≤ lim) :
    (s'.q.length : Int) ≤ max (s.q.length : Int) (lim - 1) := by
  induction hrun with
  | nil => omega
  | @cons a b c l cs hs _ ih =>
    have hb' : b.qib = false := (exec_mode hs).qib.trans hb
    have hlim' : b.qlim ≤ lim := by
      rcases exec_qlim hs with h | h
      · omega
      · exact hlim b.qlim (h ▸ List.mem_cons_self)
    have hrec := ih hb' hlim' fun n hn => hlim n (List.mem_cons_of_mem _ hn)
    rcases exec_length hb hs with h | ⟨hroom, h⟩
    · omega
    · unfold Room at hroom
      omega

theorem tooLong_packets (hb : s.qib = false) : TooLong s ↔ (s.q.length : Int) > s.qlim := by
  unfold TooLong
  rw [hb]
  simp

/-- What the loop leaves of a queue that counts packets. -/
theorem shrinkLoop_packets (m : Nat) : ∀ (fuel : Nat) (s : PriQueue), s.qib = false → s.qlim = m →
    s.q.length < fuel → ∃ s', shrinkLoop fuel s = some s' ∧
      s'.q = if s.dropFront then s.q.drop (s.q.length - m) else s.q.take m
  | 0, _, _, _, hf => absurd hf (Nat.not_lt_zero _)
  | fuel + 1, s, hb, hm, hf => by
    unfold shrinkLoop
    by_cases hlong : (s.q.length : Int) > s.qlim
    · rw [if_pos ((tooLong_packets hb).mpr hlong)]
      have hgt : m < s.q.length := by omega
      have hne : s.q ≠ [] := by
        intro h
        rw [h] at hgt
        exact Nat.not_lt_zero _ hgt
      rw [if_neg hne]
      by_cases hd : s.dropFront = true
      · have hlen : (dropHead s).q.length = s.q.length - 1 := by simp [dropHead]
        obtain ⟨s', he, hq⟩ := shrinkLoop_packets m fuel (dropHead s) hb hm (by omega)
        have hd' : (dropHead s).dropFront = true := hd
        rw [if_pos hd', hlen] at hq
        refine ⟨s', by rw [if_pos hd]; exact he, ?_⟩
        have hsucc : s.q.length - m = s.q.length - 1 - m + 1 := by omega
        rw [hq, if_pos hd, hsucc, ← List.drop_tail]
        rfl
      · have hlen : (dropTail s).q.length = s.q.length - 1 := by simp [dropTail]
        obtain ⟨s', he, hq⟩ := shrinkLoop_packets m fuel (dropTail s) hb hm (by omega)
        have hd' : ¬ (dropTail s).dropFront = true := hd
        rw [if_neg hd'] at hq
        refine ⟨s', by rw [if_neg hd]; exact he, ?_⟩
        have hmin : min m (s.q.length - 1) = m := by omega
        rw [hq, if_neg hd]
        show s.q.dropLast.take m = _
        rw [List.dropLast_eq_take, List.take_take, hmin]
    · rw [if_neg fun h => hlong ((tooLong_packets hb).mp h)]
      have hle : s.q.length ≤ m := by omega
      refine ⟨s, rfl, ?_⟩
      rw [Nat.sub_eq_zero_of_le hle, List.drop_zero, List.take_of_length_le hle, ite_self]

/-- Below zero no queue is short enough. -/
theorem shrinkLoop_negative : ∀ (fuel : Nat) (s : PriQueue), s.qib = false → s.qlim < 0 →
    shrinkLoop fuel s = none
  | 0, _, _, _ => rfl
  | fuel + 1, s, hb, hlt => by
    unfold shrinkLoop
    rw [if_pos ((tooLong_packets hb).mpr (by omega))]
    split
    · rfl
    · by_cases hd : s.dropFront = true
      · rw [if_pos hd]
        exact shrinkLoop_negative fuel (dropHead s) hb hlt
      · rw [if_neg hd]
        exact shrinkLoop_negative fuel (dropTail s) hb hlt

/-- **How long the queue can get.** A queue that counts packets never holds as
many as the highest limit so far, even though a packet of high priority goes in
before there is room for it. `shrink-queue` brings it down to a lower limit: it
keeps the first packets, or with drop-front the last; under a negative limit it
never ends. -/
theorem capacity {s₀ : PriQueue} (h0 : Fresh s₀) (hb : s₀.qib = false) {cs : List Cmd}
    (hrun : ifq.Run s₀ cs s) :
    (∀ lim : Int, s₀.qlim ≤ lim → (∀ n, .setLimit n ∈ cs → n ≤ lim) →
      (s.q.length : Int) ≤ max 0 (lim - 1)) ∧
    (∀ m : Nat, s.qlim = m → ∃ s', exec s .shrinkQueue = some s' ∧
      s'.q = if s.dropFront then s.q.drop (s.q.length - m) else s.q.take m) ∧
    (s.qlim < 0 → exec s .shrinkQueue = none) := by
  have hqib : s.qib = false := by
    have hr : ifq.Reachable s₀ := LTS.reachable_init h0
    refine LTS.run_induct (I := fun s => s.qib = false) hr hrun hb ?_
    intro a c b _ ha hs
    exact (exec_mode hs).qib.trans ha
  refine ⟨fun lim hl hlim => ?_, fun m hm => ?_, fun hneg => shrinkLoop_negative _ s hqib hneg⟩
  · have hlen := length_run hb hrun hl hlim
    rw [h0.q] at hlen
    exact hlen
  · exact shrinkLoop_packets m _ s hqib hm (Nat.lt_succ_self _)

/-- The limit is lowered to 1 with three packets queued. -/
theorem capacity_short : ∃ s s' : PriQueue, ifq.Reachable s ∧ (s.q.length : Int) ≤ 3 ∧
    exec s .shrinkQueue = some s' ∧ s'.q = [⟨ant .DOWN, 1⟩] := by
  have hrun : (LTS.exec exec short (forwardAnts 9 ++ [.setLimit 1])).map (fun s =>
      decide (s.qlim = ((1 : Nat) : Int) ∧ s.dropFront = false ∧ s.q.take 1 = [⟨ant .DOWN, 1⟩])) =
        some true := by decide +kernel
  obtain ⟨s, hs, hres⟩ := Option.map_eq_some_iff.mp hrun
  obtain ⟨hlim, hd, htake⟩ := of_decide_eq_true hres
  obtain ⟨hlen, hshrink, -⟩ := capacity short_fresh rfl (LTS.run_of_exec _ _ _ hs)
  obtain ⟨s', he, hq⟩ := hshrink 1 hlim
  rw [hd] at hq
  refine ⟨s, s', LTS.reachable_of_exec short_fresh hs, hlen 4 (by decide) ?_, he, hq.trans htake⟩
  intro n hn
  have hn : n = 1 := by simpa [forwardAnts] using hn
  omega

end Commands

end AntNet.L2.Ifq
