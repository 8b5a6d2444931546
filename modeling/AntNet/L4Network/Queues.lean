import AntNet.L2Queue.Service
import AntNet.L4Network.DeadEnds

/-!
# The network over its links

The network of `Net` with the links of `simplex-link` under it: `link_(n:m)`
has a drop-tail queue at its head (`queue/drop-tail.cc`) and a wire behind it,
which the ants share with all other packets. The queue lengths `calc_next` gets
through `get-drop-queue` are those of these queues; the ants that are lost are
those a queue drops or a link discards.

Outside `src/`: `Queue::recv` and `Queue::resume` as in `PriQueue`; a link
delivers or discards each packet that its queue has sent, in any order, as a
packet overtakes another one when `delay_` of the link changes.

* `cabled_refines`: every run is one of `Net`, the ants in flight are those in
  the queues and on the wires, and what comes off a wire is always delivered.
* `in_order`: a queue sends in the order of arrival, and every packet that came
  to it was sent, dropped or is still there, once.
* `lossless`: as long as the queues are longer than the ants are many, no queue
  drops an ant.
-/
namespace AntNet.L4

open AntNet.L1 AntNet.L2 AntNet.L3 AntNet.L2.Ifq

variable {K : Type}

structure Cabled (K : Type) where
  net : Net K
  /-- `[$link_($n:$m) queue]` -/
  queue : Nsaddr → Nsaddr → PriQueue
  /-- what the queue has sent and the link has not yet delivered -/
  wire : Nsaddr → Nsaddr → List Queued

inductive CableAct (K : Type) where
  /-- a Tcl command or a clock tick -/
  | command (l : Act K)
  | expire (n : Nsaddr) (o : Oracle K)
  /-- another agent's packet -/
  | data (n m : Nsaddr) (p : HdrCmn)
  | resume (n m : Nsaddr) (unblockOnResume : Bool)
  /-- packet `i` on the wire gets to `m` -/
  | arrive (n m : Nsaddr) (i : Nat) (numForwards ttl : Int) (o : Oracle K)
  /-- the link discards packet `i` on the wire -/
  | discard (n m : Nsaddr) (i : Nat)

/-- The links have empty queues, whatever their settings. -/
structure Cabled.Initial (s : Cabled K) : Prop where
  net : s.net.Initial
  arrivals : ∀ n m, (s.queue n m).arrivals = []
  sent : ∀ n m, (s.queue n m).sent = []
  q : ∀ n m, (s.queue n m).q = []
  dropped : ∀ n m, (s.queue n m).dropped = []
  wire : ∀ n m, s.wire n m = []

def setLink {α : Type} (f : Nsaddr → Nsaddr → α) (n m : Nsaddr) (x : α) : Nsaddr → Nsaddr → α :=
  fun a b => if a = n ∧ b = m then x else f a b

/-- The queue of a link after an event; what it has sent is on the wire. -/
def Cabled.setQueue (s : Cabled K) (n m : Nsaddr) (q : PriQueue) : Cabled K :=
  { s with
    queue := setLink s.queue n m q
    wire := setLink s.wire n m (s.wire n m ++ q.sent.drop (s.queue n m).sent.length) }

/-- Packet `i` has left the wire. -/
def Cabled.takeOff (s : Cabled K) (n m : Nsaddr) (i : Nat) : Cabled K :=
  { s with wire := setLink s.wire n m ((s.wire n m).eraseIdx i) }

/-- mirrors antnet_common.cc:54-61, tcl/lib/ns-lib.tcl:874-878, queue/drop-tail.cc:136-138 -/
def getQueueLength (s : Cabled K) (n m : Nsaddr) : Int := (s.queue n m).q.length

def answers (s : Cabled K) (o : Oracle K) : Oracle K :=
  { o with queueLength := fun _ n m => getQueueLength s n m }

section Step

variable [Arithmetic K] [LinearOrder K] (addNb : List Nsaddr → Nsaddr → List Nsaddr)

/-- A packet is dropped; the ants are counted. -/
def loseAnt (net : Net K) (p : HdrCmn) : Option (Net K) :=
  if p.ptype = PT_ANT then
    (net.inFlight.findIdx? fun a => a.cmn.uid = p.uid).bind fun i => step addNb net (.lose i)
  else some net

/-- A packet enters the link from `n` to `m`. -/
def enter (s : Cabled K) (n m : Nsaddr) (p : HdrCmn) : Option (Cabled K) :=
  let q := s.queue n m
  let q' := queueRecv (counted q p) (Ifq.arrive q p)
  let gone := q'.dropped.drop q.dropped.length
  (gone.foldlM (fun net x => loseAnt addNb net x.pkt) s.net).map fun net =>
    { s.setQueue n m q' with net := net }

/-- What the handler at `n` has sent, all but the first `old` packets in flight, enters the links. -/
def sendOut (s : Cabled K) (n : Nsaddr) (old : Nat) : Option (Cabled K) :=
  (s.net.inFlight.drop old).foldlM (fun s p => enter addNb s n p.ip.daddr p.cmn) s

def cableStep (s : Cabled K) : CableAct K → Option (Cabled K)
  | .command l =>
    if l.isCommand then (step addNb s.net l).map fun net => { s with net := net } else none
  | .expire n o =>
    (step addNb s.net (.expire n (answers s o))).bind fun net =>
      sendOut addNb { s with net := net } n s.net.inFlight.length
  | .data n m p => if p.ptype = PT_ANT then none else enter addNb s n m p
  | .resume n m b => some (s.setQueue n m (Ifq.resume (s.queue n m) b))
  | .arrive n m i nf ttl o =>
    match (s.wire n m)[i]? with
    | none => none
    | some x =>
      let s' := s.takeOff n m i
      if x.pkt.ptype = PT_ANT then
        (s.net.inFlight.findIdx? fun a => a.cmn.uid = x.pkt.uid).bind fun j =>
          (step addNb s.net (.deliver j nf ttl (answers s o))).bind fun net =>
            sendOut addNb { s' with net := net } m (s.net.inFlight.length - 1)
      else some s'
  | .discard n m i =>
    match (s.wire n m)[i]? with
    | none => none
    | some x => (loseAnt addNb s.net x.pkt).map fun net => { s.takeOff n m i with net := net }

def cabled : LTS (Cabled K) (CableAct K) := LTS.ofFn Cabled.Initial (cableStep addNb)

end Step

/-! ## Queues -/

section Queue

variable {s : PriQueue} {x : Queued}

/-- What has passed the queue or is in it, the oldest first. -/
def passed (s : PriQueue) : List Queued := s.sent ++ s.q

@[simp] theorem passed_sendHead (s : PriQueue) : passed (sendHead s) = passed s := by
  unfold sendHead passed
  split
  · rfl
  · split
    · rfl
    · rename_i hq
      simp [hq]

@[simp] theorem passed_resume (s : PriQueue) (b : Bool) : passed (Ifq.resume s b) = passed s := by
  unfold Ifq.resume passed
  split
  · rfl
  · rename_i hq
    simp [hq]

theorem sent_sendHead (s : PriQueue) : ∃ l, (sendHead s).sent = s.sent ++ l := by
  unfold sendHead
  split
  · exact ⟨[], by simp⟩
  · split
    · exact ⟨[], by simp⟩
    · exact ⟨_, rfl⟩

theorem sent_resume (s : PriQueue) (b : Bool) : ∃ l, (Ifq.resume s b).sent = s.sent ++ l := by
  unfold Ifq.resume
  split
  · exact ⟨[], by simp⟩
  · exact ⟨_, rfl⟩

@[simp] theorem dropped_sendHead (s : PriQueue) : (sendHead s).dropped = s.dropped := by
  unfold sendHead
  split
  · rfl
  · split <;> rfl

@[simp] theorem arrivals_sendHead (s : PriQueue) : (sendHead s).arrivals = s.arrivals :=
  (sendHead_settings s).arrivals

/-- What an arrival does to a drop-tail queue: the packet goes behind the others, and one may be
dropped, the newest or the oldest that is still queued. -/
inductive Enqueued (s : PriQueue) (x : Queued) (s' : PriQueue) : Prop where
  | room : ¬ Overflows s x → s'.q = s.q ++ [x] → s'.dropped = s.dropped → s'.sent = s.sent →
      Enqueued s x s'
  | tail : Overflows s x → s'.q = s.q → s'.dropped = s.dropped ++ [x] → s'.sent = s.sent →
      Enqueued s x s'
  | front {y : Queued} : Overflows s x → s.q ++ [x] = y :: s'.q → s'.dropped = s.dropped ++ [y] →
      s'.sent = s.sent → Enqueued s x s'

theorem enque_enqueued (s : PriQueue) (x : Queued) :
    Enqueued s x (enque s x) ∧ (enque s x).arrivals = s.arrivals := by
  unfold enque
  split
  · rename_i ho
    split
    · cases hq : s.q with
      | nil => exact ⟨.front ho (y := x) (by simp [hq]) (by simp) rfl, rfl⟩
      | cons y q => exact ⟨.front ho (y := y) (by simp [hq]) (by simp) rfl, rfl⟩
    · exact ⟨.tail ho rfl rfl rfl, rfl⟩
  · rename_i ho
    exact ⟨.room ho rfl rfl rfl, rfl⟩

/-- What the queue sends it had before. -/
theorem handed_sendHead (s : PriQueue) :
    (sendHead s).sent.drop s.sent.length ++ (sendHead s).q = s.q := by
  unfold sendHead
  split
  · simp
  · split
    · simp
    · rename_i hq
      simp [hq]

theorem handed_resume (s : PriQueue) (b : Bool) :
    (Ifq.resume s b).sent.drop s.sent.length ++ (Ifq.resume s b).q = s.q := by
  unfold Ifq.resume
  split
  · rename_i hq
    simp [hq]
  · rename_i hq
    simp [hq]

/-- What an arrival leaves in the queue, sends or drops is what was there and the new one. -/
theorem queueRecv_perm (s : PriQueue) (x : Queued) :
    ((queueRecv s x).dropped.drop s.dropped.length ++
      ((queueRecv s x).sent.drop s.sent.length ++ (queueRecv s x).q)).Perm (x :: s.q) := by
  have hsent : (enque s x).sent = s.sent := by
    rcases (enque_enqueued s x).1 with ⟨-, -, -, h⟩ | ⟨-, -, -, h⟩ | ⟨-, -, -, h⟩ <;> exact h
  unfold queueRecv
  rw [dropped_sendHead, ← hsent, handed_sendHead]
  rcases (enque_enqueued s x).1 with ⟨-, hq, hd, -⟩ | ⟨-, hq, hd, -⟩ | ⟨-, hq, hd, -⟩
  · rw [hq, hd, List.drop_length, List.nil_append]
    exact List.perm_append_singleton x _
  · rw [hq, hd, List.drop_left, List.singleton_append]
  · rw [hd, List.drop_left, List.singleton_append, ← hq]
    exact List.perm_append_singleton x _

/-- The packets that came, in order; each has the number of its arrival and is still accounted for. -/
structure InOrder (s : PriQueue) : Prop where
  sublist : (passed s).Sublist s.arrivals
  complete : (passed s ++ s.dropped).Perm s.arrivals
  numbered : s.arrivals.map (·.arrival) = List.range s.arrivals.length

theorem inOrder_resume (h : InOrder s) (b : Bool) : InOrder (Ifq.resume s b) := by
  obtain ⟨harr, hdrop⟩ : (Ifq.resume s b).arrivals = s.arrivals ∧ (Ifq.resume s b).dropped = s.dropped := by
    unfold Ifq.resume
    split <;> exact ⟨rfl, rfl⟩
  exact ⟨by rw [passed_resume, harr]; exact h.sublist, by rw [passed_resume, harr, hdrop]; exact h.complete,
    by rw [harr]; exact h.numbered⟩

/-- An arrival, before the queue sends anything. -/
theorem enqueued_inOrder {s' : PriQueue} (h : InOrder s) (he : Enqueued s x s') :
    (passed s').Sublist (s.arrivals ++ [x]) ∧ (passed s' ++ s'.dropped).Perm (s.arrivals ++ [x]) := by
  have hsub := h.sublist.append_right [x]
  have hperm : (s.sent ++ (s.q ++ [x]) ++ s.dropped).Perm (s.arrivals ++ [x]) := by
    refine List.Perm.trans ?_ (h.complete.append_right [x])
    rw [passed, List.append_assoc _ s.dropped, ← List.append_assoc s.sent, List.append_assoc _ [x]]
    exact List.perm_append_comm.append_left _
  rw [passed, List.append_assoc] at hsub
  unfold passed
  cases he with
  | room _ hq hd hs =>
    rw [hq, hs, hd]
    exact ⟨hsub, hperm⟩
  | tail _ hq hd hs =>
    rw [hq, hs, hd]
    refine ⟨((List.sublist_append_left _ _).append_left _).trans hsub, List.Perm.trans ?_ hperm⟩
    rw [← List.append_assoc s.sent, List.append_assoc (s.sent ++ s.q)]
    exact List.perm_append_comm.append_left _
  | @front y _ hq hd hs =>
    rw [hs, hd]
    rw [hq] at hsub hperm
    refine ⟨((List.sublist_cons_self _ _).append_left _).trans hsub, List.Perm.trans ?_ hperm⟩
    rw [List.append_assoc, List.append_assoc, List.cons_append, ← List.append_assoc _ s.dropped]
    exact (List.perm_append_singleton y _).append_left _

theorem inOrder_queueRecv (h : InOrder s) (p : HdrCmn) :
    InOrder (queueRecv (counted s p) (Ifq.arrive s p)) ∧
      ∃ l, (queueRecv (counted s p) (Ifq.arrive s p)).sent = s.sent ++ l := by
  obtain ⟨he, ha⟩ := enque_enqueued (counted s p) (Ifq.arrive s p)
  have harr : (queueRecv (counted s p) (Ifq.arrive s p)).arrivals = s.arrivals ++ [Ifq.arrive s p] := by
    unfold queueRecv
    rw [arrivals_sendHead, ha]
    rfl
  have hin : Enqueued s (Ifq.arrive s p) (enque (counted s p) (Ifq.arrive s p)) := by
    cases he with
    | room ho hq hd hs => exact .room ho hq hd hs
    | tail ho hq hd hs => exact .tail ho hq hd hs
    | front ho hq hd hs => exact .front ho hq hd hs
  obtain ⟨hsub, hperm⟩ := enqueued_inOrder h hin
  obtain ⟨l, hl⟩ := sent_sendHead (enque (counted s p) (Ifq.arrive s p))
  refine ⟨⟨?_, ?_, ?_⟩, l, ?_⟩
  · rw [harr, queueRecv, passed_sendHead]
    exact hsub
  · rw [harr, queueRecv, passed_sendHead, dropped_sendHead]
    exact hperm
  · rw [harr, List.map_append, h.numbered, List.length_append, List.length_singleton, List.range_succ]
    rfl
  · rw [queueRecv, hl]
    cases hin <;> rename_i hs <;> rw [hs]

end Queue

/-! ## Where the ants are -/

/-- The packet is on the link from `n` to `m`. -/
def onLink (n m : Nsaddr) (p : Packet K) : Bool := p.ip.saddr = n ∧ p.ip.daddr = m

/-- The ants among the packets in flight that are on this link. -/
def antsOn (n m : Nsaddr) (ps : List (Packet K)) : List Nat := (ps.filter (onLink n m)).map (·.cmn.uid)

/-- The ants among the packets of a link. -/
def antsIn (l : List Queued) : List Nat := (l.filter fun x => x.pkt.ptype = PT_ANT).map (·.pkt.uid)

/-- The packets on the wire and in the queue. -/
def Cabled.carried (s : Cabled K) (n m : Nsaddr) : List Queued := s.wire n m ++ (s.queue n m).q

/-- Every ant in flight is on its link, but for those in `pending`, which have yet to enter theirs. -/
def Housed (s : Cabled K) (pending : List (Packet K)) : Prop :=
  ∀ n m, (antsIn (s.carried n m) ++ antsOn n m pending).Perm (antsOn n m s.net.inFlight)

structure LinksOk (s : Cabled K) : Prop where
  order : ∀ n m, InOrder (s.queue n m)
  wire : ∀ n m, (s.wire n m).Sublist (s.queue n m).sent

section Ants

variable {n m a b : Nsaddr} {p : Packet K} {ps qs : List (Packet K)} {net : Net K}

theorem antsOn_append (n m : Nsaddr) (ps qs : List (Packet K)) :
    antsOn n m (ps ++ qs) = antsOn n m ps ++ antsOn n m qs := by
  simp [antsOn]

theorem antsOn_cons (n m : Nsaddr) (p : Packet K) (ps : List (Packet K)) :
    antsOn n m (p :: ps) = (if onLink n m p then [p.cmn.uid] else []) ++ antsOn n m ps := by
  by_cases h : onLink n m p = true <;> simp [antsOn, h]

theorem antsOn_perm (h : ps.Perm qs) (n m : Nsaddr) : (antsOn n m ps).Perm (antsOn n m qs) :=
  (h.filter _).map _

theorem antsIn_append (l l' : List Queued) : antsIn (l ++ l') = antsIn l ++ antsIn l' := by
  simp [antsIn]

theorem antsIn_perm {l l' : List Queued} (h : l.Perm l') : (antsIn l).Perm (antsIn l') :=
  (h.filter _).map _

theorem antsIn_cons (x : Queued) (l : List Queued) :
    antsIn (x :: l) = (if x.pkt.ptype = PT_ANT then [x.pkt.uid] else []) ++ antsIn l := by
  by_cases h : x.pkt.ptype = PT_ANT <;> simp [antsIn, h]

/-- A uid leads to its packet. -/
theorem findIdx_uid (hl : Ledger net) {u : Nat} (hu : u ∈ antsOn n m net.inFlight) :
    ∃ i p, (net.inFlight.findIdx? fun a => a.cmn.uid = u) = some i ∧ net.inFlight[i]? = some p ∧
      p.cmn.uid = u ∧ onLink n m p = true := by
  obtain ⟨p, hp, rfl⟩ := List.mem_map.mp hu
  obtain ⟨hmem, hon⟩ := List.mem_filter.mp hp
  cases hf : net.inFlight.findIdx? fun a => a.cmn.uid = p.cmn.uid with
  | none =>
    have := List.findIdx?_eq_none_iff.mp hf p hmem
    simp at this
  | some i =>
    obtain ⟨hi, hpi, -⟩ := List.findIdx?_eq_some_iff_getElem.mp hf
    have huid : net.inFlight[i].cmn.uid = p.cmn.uid := by simpa using hpi
    have hget : net.inFlight[i]? = some net.inFlight[i] := List.getElem?_eq_getElem hi
    refine ⟨i, p, rfl, ?_, rfl, hon⟩
    -- the packet found has the same uid, so it is the same packet
    by_contra hne
    have hother : p ∈ net.inFlight.eraseIdx i := by
      have hperm := (List.getElem_cons_eraseIdx_perm hi).mem_iff (a := p)
      rcases List.mem_cons.mp (hperm.mpr hmem) with he | he
      · exact absurd (by rw [he, hget]) hne
      · exact he
    exact hl.uid_ne hget hother huid.symm

/-- The ants of the links without the packet at `i`. -/
theorem antsOn_erase {i : Nat} (hp : net.inFlight[i]? = some p) (n m : Nsaddr) :
    (antsOn n m net.inFlight).Perm
      ((if onLink n m p then [p.cmn.uid] else []) ++ antsOn n m (net.inFlight.eraseIdx i)) := by
  obtain ⟨hi, rfl⟩ := List.getElem?_eq_some_iff.mp hp
  rw [← antsOn_cons]
  exact antsOn_perm (List.getElem_cons_eraseIdx_perm hi).symm n m

theorem onLink_ne (h : onLink n m p = true) (hne : ¬ (a = n ∧ b = m)) : onLink a b p = false := by
  simp only [onLink, decide_eq_true_eq, decide_eq_false_iff_not] at h ⊢
  rintro ⟨rfl, rfl⟩
  exact hne ⟨h.1, h.2⟩

end Ants

@[simp] theorem setLink_self {α : Type} (f : Nsaddr → Nsaddr → α) (n m : Nsaddr) (x : α) :
    setLink f n m x n m = x := if_pos ⟨rfl, rfl⟩

theorem setLink_ne {α : Type} (f : Nsaddr → Nsaddr → α) {n m a b : Nsaddr} (h : ¬ (a = n ∧ b = m))
    (x : α) : setLink f n m x a b = f a b := if_neg h

theorem setLink_forall {α : Type} {P : α → Prop} {f : Nsaddr → Nsaddr → α} {x : α} (hx : P x)
    (hf : ∀ a b, P (f a b)) (n m a b : Nsaddr) : P (setLink f n m x a b) := by
  unfold setLink
  split
  · exact hx
  · exact hf a b

section Carried

variable {s : Cabled K} {n m a b : Nsaddr} {i : Nat} {x : Queued} {q : PriQueue}

theorem carried_setQueue (s : Cabled K) (n m : Nsaddr) (q : PriQueue) :
    (s.setQueue n m q).carried n m =
      s.wire n m ++ (q.sent.drop (s.queue n m).sent.length ++ q.q) := by
  simp [Cabled.carried, Cabled.setQueue]

theorem carried_setQueue_ne (s : Cabled K) (h : ¬ (a = n ∧ b = m)) (q : PriQueue) :
    (s.setQueue n m q).carried a b = s.carried a b := by
  simp [Cabled.carried, Cabled.setQueue, setLink_ne _ h]

theorem carried_takeOff (h : (s.wire n m)[i]? = some x) :
    (s.carried n m).Perm (x :: (s.takeOff n m i).carried n m) := by
  obtain ⟨hi, rfl⟩ := List.getElem?_eq_some_iff.mp h
  simp only [Cabled.carried, Cabled.takeOff, setLink_self]
  rw [← List.cons_append]
  exact (List.getElem_cons_eraseIdx_perm hi).symm.append_right _

theorem carried_takeOff_ne (s : Cabled K) (h : ¬ (a = n ∧ b = m)) (i : Nat) :
    (s.takeOff n m i).carried a b = s.carried a b := by
  simp [Cabled.carried, Cabled.takeOff, setLink_ne _ h]

theorem linksOk_setQueue (h : LinksOk s) (hq : InOrder q) (hsent : ∃ l, q.sent = (s.queue n m).sent ++ l)
    (w : Net K) : LinksOk { s.setQueue n m q with net := w } := by
  refine ⟨setLink_forall hq h.order n m, fun a b => ?_⟩
  simp only [Cabled.setQueue]
  by_cases hab : a = n ∧ b = m
  · obtain ⟨rfl, rfl⟩ := hab
    obtain ⟨l, hl⟩ := hsent
    rw [setLink_self, setLink_self, hl, List.drop_left]
    exact (h.wire a b).append_right l
  · simpa [setLink_ne _ hab] using h.wire a b

theorem linksOk_takeOff (h : LinksOk s) (n m : Nsaddr) (i : Nat) (w : Net K) :
    LinksOk { s.takeOff n m i with net := w } := by
  refine ⟨h.order, fun a b => ?_⟩
  simp only [Cabled.takeOff]
  by_cases hab : a = n ∧ b = m
  · obtain ⟨rfl, rfl⟩ := hab
    rw [setLink_self]
    exact (List.eraseIdx_sublist _ _).trans (h.wire a b)
  · simpa [setLink_ne _ hab] using h.wire a b

end Carried

/-! ## What a step does -/

section Steps

variable [Arithmetic K] [LinearOrder K] {addNb : List Nsaddr → Nsaddr → List Nsaddr} {s s' : Cabled K}
  {n m : Nsaddr} {w w' : Net K} {rest : List Nat}

/-- No queue length a handler gets is negative. -/
def HonestQueues (_ : Net K) : Act K → Prop
  | .expire _ o => QueuesOk o.queueLength
  | .deliver _ _ _ o => QueuesOk o.queueLength
  | _ => True

omit [Arithmetic K] [LinearOrder K] in
theorem queuesOk_answers (s : Cabled K) (o : Oracle K) : QueuesOk (answers s o).queueLength := by
  intro k n m
  simp [answers, getQueueLength]

/-- Steps of the network that lead from `w` to `w'`. -/
def Goes (addNb : List Nsaddr → Nsaddr → List Nsaddr) (w w' : Net K) : Prop :=
  ∃ ls, ((net addNb).guard HonestQueues).Run w ls w'

theorem Goes.refl (w : Net K) : Goes addNb w w := ⟨[], .nil w⟩

theorem Goes.trans {w'' : Net K} (h : Goes addNb w w') (h' : Goes addNb w' w'') : Goes addNb w w'' := by
  obtain ⟨ls, hrun⟩ := h
  obtain ⟨ls', hrun'⟩ := h'
  exact ⟨ls ++ ls', LTS.run_append hrun hrun'⟩

theorem Goes.step {l : Act K} (h : step addNb w l = some w') (hl : HonestQueues w l) :
    Goes addNb w w' := ⟨[l], .cons ⟨hl, h⟩ (.nil w')⟩

theorem Goes.reachable (h : Goes addNb w w') (hr : (net addNb).Reachable w) :
    (net addNb).Reachable w' := by
  obtain ⟨ls, hrun⟩ := h
  exact LTS.reachable_run_guard hr hrun

/-- A packet of the link from `n` to `m` is dropped. -/
theorem loseAnt_spec (hr : (net addNb).Reachable w) {x : Queued}
    (h : (antsIn [x] ++ rest).Perm (antsOn n m w.inFlight)) :
    ∃ w', loseAnt addNb w x.pkt = some w' ∧ Goes addNb w w' ∧
      ∀ a b, (if a = n ∧ b = m then rest else antsOn a b w.inFlight).Perm (antsOn a b w'.inFlight) := by
  unfold loseAnt
  rw [antsIn_cons] at h
  split
  · rename_i hant
    rw [if_pos hant] at h
    have hu : x.pkt.uid ∈ antsOn n m w.inFlight := h.subset List.mem_cons_self
    obtain ⟨i, p, hfind, hp, hpu, hon⟩ := findIdx_uid (inv_reachable hr).ledger hu
    have hstep : step addNb w (.lose i) =
        some { w with inFlight := w.inFlight.eraseIdx i, lost := w.lost ++ [p.cmn.uid] } := by
      simp only [step, hp]
    refine ⟨_, by rw [hfind]; exact hstep, .step hstep trivial, fun a b => ?_⟩
    have herase := antsOn_erase hp a b
    by_cases hab : a = n ∧ b = m
    · rw [if_pos hab]
      obtain ⟨rfl, rfl⟩ := hab
      rw [if_pos hon, hpu] at herase
      exact (List.perm_cons _).mp (h.trans herase)
    · rw [if_neg hab]
      rw [onLink_ne hon hab] at herase
      exact herase
  · rename_i hant
    rw [if_neg hant] at h
    refine ⟨w, rfl, .refl w, fun a b => ?_⟩
    split
    · rename_i hab
      obtain ⟨rfl, rfl⟩ := hab
      exact h
    · exact .refl _

theorem loseAll_spec (gone : List Queued) (hr : (net addNb).Reachable w)
    (h : (antsIn gone ++ rest).Perm (antsOn n m w.inFlight)) :
    ∃ w', gone.foldlM (fun w x => loseAnt addNb w x.pkt) w = some w' ∧ Goes addNb w w' ∧
      ∀ a b, (if a = n ∧ b = m then rest else antsOn a b w.inFlight).Perm (antsOn a b w'.inFlight) := by
  induction gone generalizing w with
  | nil =>
    refine ⟨w, rfl, .refl w, fun a b => ?_⟩
    split
    · rename_i hab
      obtain ⟨rfl, rfl⟩ := hab
      exact h
    · exact .refl _
  | cons x gone ih =>
    rw [← List.singleton_append, antsIn_append, List.append_assoc] at h
    obtain ⟨w₁, h1, hgo, hrest⟩ := loseAnt_spec hr h
    have hnext := hrest n m
    rw [if_pos ⟨rfl, rfl⟩] at hnext
    obtain ⟨w', h', hgo', hrest'⟩ := ih (hgo.reachable hr) hnext
    refine ⟨w', ?_, hgo.trans hgo', fun a b => ?_⟩
    · rw [List.foldlM_cons, h1]
      exact h'
    · have hone := hrest a b
      have hall := hrest' a b
      by_cases hab : a = n ∧ b = m
      · rw [if_pos hab] at hall ⊢
        exact hall
      · rw [if_neg hab] at hone hall ⊢
        exact hone.trans hall

/-- **A packet enters a link.** -/
theorem enter_spec (pending : List (Packet K)) (hr : (net addNb).Reachable s.net) (hl : LinksOk s)
    {p : HdrCmn} (h : ∀ a b, (antsIn (s.carried a b) ++
      ((if (a = n ∧ b = m) ∧ p.ptype = PT_ANT then [p.uid] else []) ++ antsOn a b pending)).Perm
      (antsOn a b s.net.inFlight)) :
    ∃ s', enter addNb s n m p = some s' ∧ Goes addNb s.net s'.net ∧ LinksOk s' ∧ Housed s' pending := by
  obtain ⟨hord, hsent⟩ := inOrder_queueRecv (hl.order n m) p
  let q' := queueRecv (counted (s.queue n m) p) (Ifq.arrive (s.queue n m) p)
  let gone := q'.dropped.drop (s.queue n m).dropped.length
  let kept := (s.setQueue n m q').carried n m
  have hq : (gone ++ kept).Perm (Ifq.arrive (s.queue n m) p :: s.carried n m) := by
    simp only [kept, carried_setQueue]
    rw [← List.append_assoc]
    refine (List.perm_append_comm.append_right _).trans ?_
    rw [List.append_assoc]
    refine ((queueRecv_perm (counted (s.queue n m) p) _).append_left (s.wire n m)).trans ?_
    exact List.perm_middle
  have hgone : (antsIn gone ++ (antsIn kept ++ antsOn n m pending)).Perm (antsOn n m s.net.inFlight) := by
    refine List.Perm.trans ?_ (h n m)
    have hants := (antsIn_perm hq).append_right (antsOn n m pending)
    rw [antsIn_append, antsIn_cons, List.append_assoc] at hants
    refine hants.trans ?_
    simp only [true_and, and_self]
    rw [← List.append_assoc (antsIn _)]
    exact List.perm_append_comm.append_right _
  obtain ⟨w', hw, hgo, hrest⟩ := loseAll_spec gone hr hgone
  refine ⟨{ s.setQueue n m q' with net := w' }, ?_, hgo, linksOk_setQueue hl hord hsent w', fun a b => ?_⟩
  · show (gone.foldlM (fun w x => loseAnt addNb w x.pkt) s.net).map _ = _
    rw [hw]
    rfl
  · have hab' := hrest a b
    show (antsIn ((s.setQueue n m q').carried a b) ++ antsOn a b pending).Perm (antsOn a b w'.inFlight)
    by_cases hab : a = n ∧ b = m
    · rw [if_pos hab] at hab'
      obtain ⟨rfl, rfl⟩ := hab
      exact hab'
    · rw [if_neg hab] at hab'
      have hold := h a b
      rw [if_neg fun hc => hab hc.1, List.nil_append] at hold
      rw [carried_setQueue_ne s hab]
      exact hold.trans hab'

/-- The ants `ps` that the handler at `n` has sent have yet to enter their links. -/
structure Sending (addNb : List Nsaddr → Nsaddr → List Nsaddr) (s : Cabled K) (n : Nsaddr)
    (ps : List (Packet K)) : Prop where
  net : (net addNb).Reachable s.net
  links : LinksOk s
  ants : ∀ p ∈ ps, p.ip.saddr = n ∧ p.cmn.ptype = PT_ANT
  housed : Housed s ps

omit [Arithmetic K] [LinearOrder K] in
theorem onLink_sent {p : Packet K} (hsaddr : p.ip.saddr = n) (a b : Nsaddr) :
    onLink a b p = true ↔ a = n ∧ b = p.ip.daddr := by
  simp only [onLink, decide_eq_true_eq, hsaddr]
  exact and_congr eq_comm eq_comm

/-- What the handler at `n` has sent enters the links. -/
theorem sendOut_spec (ps : List (Packet K)) (h : Sending addNb s n ps) :
    ∃ s', ps.foldlM (fun s p => enter addNb s n p.ip.daddr p.cmn) s = some s' ∧
      Goes addNb s.net s'.net ∧ LinksOk s' ∧ Housed s' [] := by
  induction ps generalizing s with
  | nil => exact ⟨s, rfl, .refl _, h.links, h.housed⟩
  | cons p ps ih =>
    obtain ⟨hsaddr, hptype⟩ := h.ants p List.mem_cons_self
    have hin : ∀ a b, (antsIn (s.carried a b) ++
        ((if (a = n ∧ b = p.ip.daddr) ∧ p.cmn.ptype = PT_ANT then [p.cmn.uid] else []) ++
          antsOn a b ps)).Perm (antsOn a b s.net.inFlight) := by
      intro a b
      have hab := h.housed a b
      rw [antsOn_cons] at hab
      simpa only [hptype, and_true, onLink_sent hsaddr] using hab
    obtain ⟨s₁, h1, hgo, hl1, hh1⟩ := enter_spec ps h.net h.links hin
    obtain ⟨s', h', hgo', hl', hh'⟩ := ih ⟨hgo.reachable h.net, hl1,
      fun q hq => h.ants q (List.mem_cons_of_mem _ hq), hh1⟩
    refine ⟨s', ?_, hgo.trans hgo', hl', hh'⟩
    rw [List.foldlM_cons, h1]
    exact h'

/-- What a handler sends leaves its node. -/
theorem sent_from {env : Env K} {a a' : Antnet K} {p q : Packet K} {c : List Event}
    (h : Outcome env a p .send q a' c) : q.ip.saddr = a.addr := by
  cases h <;> rfl

/-- The packets a step of the network puts in flight. -/
theorem launched {o : Oracle K} (hr : (net addNb).Reachable w)
    (h : step addNb w (.expire n o) = some w') :
    ∃ ps, w'.inFlight = w.inFlight ++ ps ∧ ps.length ≤ 1 ∧ w'.lost = w.lost ∧
      ∀ p ∈ ps, p.ip.saddr = n ∧ p.cmn.ptype = PT_ANT := by
  cases trans_of_reachable hr h with
  | command hl => cases hl
  | @expire _ _ d q log _ hsent =>
    refine ⟨_, rfl, by split <;> simp, rfl, fun p hp => ?_⟩
    split at hp
    · rename_i hd
      subst hd
      obtain rfl := List.mem_singleton.mp hp
      cases hsent with
      | sent _ hg hsaddr => exact ⟨hsaddr.trans ((inv_reachable hr).configured.addr n), hg.ptype⟩
    · cases hp

theorem passed_on {i : Nat} {nf ttl : Int} {o : Oracle K} {p : Packet K} (hr : (net addNb).Reachable w)
    (hp : w.inFlight[i]? = some p) (h : step addNb w (.deliver i nf ttl o) = some w') :
    ∃ ps, w'.inFlight = w.inFlight.eraseIdx i ++ ps ∧ ps.length ≤ 1 ∧ w'.lost = w.lost ∧
      ∀ q ∈ ps, q.ip.saddr = p.ip.daddr ∧ q.cmn.ptype = PT_ANT := by
  have hants := (inv_reachable (LTS.reachable_step hr h)).ants
  cases trans_of_reachable hr h with
  | command hl => cases hl
  | @deliver _ _ _ _ p' q d a c log hp' ho =>
    obtain rfl := Option.some.inj (hp.symm.trans hp')
    refine ⟨_, rfl, by split <;> simp, rfl, fun r hq => ?_⟩
    obtain ⟨v, -, hw⟩ := hants r (List.mem_append_right _ hq)
    refine ⟨?_, hw.ptype⟩
    split at hq
    · rename_i hd
      subst hd
      obtain rfl := List.mem_singleton.mp hq
      exact (sent_from ho).trans ((inv_reachable hr).configured.addr _)
    · cases hq

/-- What holds of the network and its links at any time. -/
structure CableOk (addNb : List Nsaddr → Nsaddr → List Nsaddr) (s : Cabled K) : Prop where
  net : (net addNb).Reachable s.net
  links : LinksOk s
  housed : Housed s []

/-- The handler of a timer, and what it sends. -/
theorem launch_sends (h : CableOk addNb s) {o : Oracle K}
    (hw : step addNb s.net (.expire n o) = some w) :
    ∃ ps, w.inFlight.drop s.net.inFlight.length = ps ∧ ps.length ≤ 1 ∧
      w.inFlight.length ≤ s.net.inFlight.length + 1 ∧ w.lost = s.net.lost ∧
      Sending addNb { s with net := w } n ps := by
  obtain ⟨ps, hps, hone, hlost, hfrom⟩ := launched h.net hw
  refine ⟨ps, by rw [hps, List.drop_left], hone, ?_, hlost, LTS.reachable_step h.net hw,
    ⟨h.links.order, h.links.wire⟩, hfrom, fun a b => ?_⟩
  · rw [hps, List.length_append]
    omega
  · show (antsIn (s.carried a b) ++ antsOn a b ps).Perm (antsOn a b w.inFlight)
    rw [hps, antsOn_append]
    simpa [antsOn] using (h.housed a b).append_right (antsOn a b ps)

/-- The handler of an ant that comes off the wire, and what it sends. -/
theorem arrival_sends (h : CableOk addNb s) {k : Nat} {x : Queued} (hx : (s.wire n m)[k]? = some x)
    (hant : x.pkt.ptype = PT_ANT) (nf ttl : Int) (o : Oracle K) :
    ∃ i w ps, (s.net.inFlight.findIdx? fun a => a.cmn.uid = x.pkt.uid) = some i ∧
      step addNb s.net (.deliver i nf ttl o) = some w ∧
      w.inFlight.drop (s.net.inFlight.length - 1) = ps ∧ ps.length ≤ 1 ∧
      w.inFlight.length ≤ s.net.inFlight.length + 1 ∧ w.lost = s.net.lost ∧
      Sending addNb { s.takeOff n m k with net := w } m ps := by
  have hi := inv_reachable h.net
  have hcar : (x.pkt.uid :: antsIn ((s.takeOff n m k).carried n m)).Perm (antsOn n m s.net.inFlight) := by
    have hnm := h.housed n m
    simp only [antsOn, List.filter_nil, List.map_nil, List.append_nil] at hnm
    have hants := antsIn_perm (carried_takeOff hx)
    rw [antsIn_cons, if_pos hant] at hants
    exact hants.symm.trans hnm
  obtain ⟨i, p, hfind, hp, hpu, hon⟩ := findIdx_uid hi.ledger (hcar.subset List.mem_cons_self)
  obtain ⟨w, hw⟩ : ∃ w, step addNb s.net (.deliver i nf ttl o) = some w :=
    step_deliver hi.configured hi.ants hp nf ttl o
  obtain ⟨ps, hps, hone, hlost, hfrom⟩ := passed_on h.net hp hw
  have hdaddr : p.ip.daddr = m := by
    simp only [onLink, decide_eq_true_eq] at hon
    exact hon.2
  have hlen : (s.net.inFlight.eraseIdx i).length = s.net.inFlight.length - 1 :=
    List.length_eraseIdx_of_lt (List.getElem?_eq_some_iff.mp hp).1
  refine ⟨i, w, ps, hfind, hw, by rw [hps, ← hlen, List.drop_left], hone, ?_, hlost,
    LTS.reachable_step h.net hw, linksOk_takeOff h.links n m k w,
    fun q hq => ⟨(hfrom q hq).1.trans hdaddr, (hfrom q hq).2⟩, fun a b => ?_⟩
  · rw [hps, List.length_append, hlen]
    omega
  · have herase := antsOn_erase hp a b
    show (antsIn ((s.takeOff n m k).carried a b) ++ antsOn a b ps).Perm (antsOn a b w.inFlight)
    rw [hps, antsOn_append]
    refine List.Perm.append_right _ ?_
    by_cases hab : a = n ∧ b = m
    · obtain ⟨rfl, rfl⟩ := hab
      rw [if_pos hon, hpu] at herase
      exact (List.perm_cons _).mp (hcar.trans herase)
    · rw [onLink_ne hon hab] at herase
      rw [carried_takeOff_ne s hab]
      have hold := h.housed a b
      simp only [antsOn, List.filter_nil, List.map_nil, List.append_nil] at hold
      exact hold.trans herase

/-- **A packet on the wire arrives.** -/
theorem arrive_spec (h : CableOk addNb s) {k : Nat} {x : Queued} (hx : (s.wire n m)[k]? = some x)
    (nf ttl : Int) (o : Oracle K) : ∃ s', cableStep addNb s (.arrive n m k nf ttl o) = some s' ∧
      Goes addNb s.net s'.net ∧ LinksOk s' ∧ Housed s' [] := by
  simp only [cableStep, hx]
  split
  · rename_i hant
    obtain ⟨i, w, ps, hfind, hw, hdrop, -, -, -, hsend⟩ := arrival_sends h hx hant nf ttl (answers s o)
    obtain ⟨s', hs', hgo, hl', hh'⟩ := sendOut_spec ps hsend
    refine ⟨s', ?_, (Goes.step hw (queuesOk_answers s o)).trans hgo, hl', hh'⟩
    rw [hfind, Option.bind_some, hw, Option.bind_some, sendOut]
    simp only [hdrop]
    exact hs'
  · rename_i hant
    refine ⟨_, rfl, .refl _, linksOk_takeOff h.links n m k s.net, fun a b => ?_⟩
    refine List.Perm.trans (List.Perm.append_right _ ?_) (h.housed a b)
    by_cases hab : a = n ∧ b = m
    · obtain ⟨rfl, rfl⟩ := hab
      have hants := antsIn_perm (carried_takeOff hx)
      rw [antsIn_cons, if_neg hant] at hants
      exact hants.symm
    · rw [carried_takeOff_ne s hab]

/-- **One step.** -/
theorem cable_step (h : CableOk addNb s) {c : CableAct K} (hs : cableStep addNb s c = some s') :
    Goes addNb s.net s'.net ∧ CableOk addNb s' := by
  have of : Goes addNb s.net s'.net → LinksOk s' → Housed s' [] →
      Goes addNb s.net s'.net ∧ CableOk addNb s' :=
    fun hgo hl hh => ⟨hgo, hgo.reachable h.net, hl, hh⟩
  have hhoused : ∀ a b, (antsIn (s.carried a b)).Perm (antsOn a b s.net.inFlight) := by
    intro a b
    simpa [antsOn] using h.housed a b
  cases c with
  | command l =>
    simp only [cableStep] at hs
    split at hs
    · rename_i hl
      obtain ⟨w, hw, rfl⟩ := Option.map_eq_some_iff.mp hs
      have hhon : HonestQueues s.net l := by
        cases l <;> trivial
      refine of (.step hw hhon) ⟨h.links.order, h.links.wire⟩ fun a b => ?_
      show (antsIn (s.carried a b) ++ _).Perm (antsOn a b w.inFlight)
      rw [(command_cases hl hw).1.inFlight]
      exact h.housed a b
    · cases hs
  | expire n o =>
    obtain ⟨w, hw, hs⟩ := Option.bind_eq_some_iff.mp hs
    obtain ⟨ps, hdrop, -, -, -, hsend⟩ := launch_sends h hw
    obtain ⟨t, ht, hgo, hl, hh⟩ := sendOut_spec ps hsend
    have hout : sendOut addNb { s with net := w } n s.net.inFlight.length = some t := by
      simpa only [sendOut, hdrop] using ht
    obtain rfl := Option.some.inj (hs.symm.trans hout)
    exact of ((Goes.step hw (queuesOk_answers s o)).trans hgo) hl hh
  | data n m p =>
    simp only [cableStep] at hs
    split at hs
    · cases hs
    · rename_i hant
      obtain ⟨t, ht, hgo, hl, hh⟩ := enter_spec (n := n) (m := m) (p := p) [] h.net h.links
        fun a b => by simpa [hant] using h.housed a b
      obtain rfl := Option.some.inj (hs.symm.trans ht)
      exact of hgo hl hh
  | resume n m b =>
    obtain rfl := Option.some.inj hs
    refine of (.refl _) (linksOk_setQueue h.links (inOrder_resume (h.links.order n m) b)
      (sent_resume _ b) s.net) fun x y => ?_
    refine List.Perm.trans (List.Perm.of_eq ?_) (h.housed x y)
    by_cases hxy : x = n ∧ y = m
    · obtain ⟨rfl, rfl⟩ := hxy
      exact congrArg (fun l => antsIn l ++ _) ((carried_setQueue ..).trans (by rw [handed_resume]; rfl))
    · exact congrArg (fun l => antsIn l ++ _) (carried_setQueue_ne s hxy _)
  | arrive n m i nf ttl o =>
    cases hx : (s.wire n m)[i]? with
    | none => simp only [cableStep, hx] at hs; cases hs
    | some x =>
      obtain ⟨t, ht, hgo, hl, hh⟩ := arrive_spec h hx nf ttl o
      obtain rfl := Option.some.inj (hs.symm.trans ht)
      exact of hgo hl hh
  | discard n m i =>
    cases hx : (s.wire n m)[i]? with
    | none => simp only [cableStep, hx] at hs; cases hs
    | some x =>
      simp only [cableStep, hx] at hs
      obtain ⟨w, hw, rfl⟩ := Option.map_eq_some_iff.mp hs
      have hnm := (antsIn_perm (carried_takeOff hx)).symm.trans (hhoused n m)
      rw [← List.singleton_append, antsIn_append] at hnm
      obtain ⟨w', hw', hgo, hrest⟩ := loseAnt_spec h.net hnm
      obtain rfl := Option.some.inj (hw.symm.trans hw')
      refine of hgo (linksOk_takeOff h.links n m i w) fun a b => ?_
      have hab' := hrest a b
      show (antsIn ((s.takeOff n m i).carried a b) ++ []).Perm (antsOn a b w.inFlight)
      rw [List.append_nil]
      by_cases hab : a = n ∧ b = m
      · rw [if_pos hab] at hab'
        obtain ⟨rfl, rfl⟩ := hab
        exact hab'
      · rw [if_neg hab] at hab'
        rw [carried_takeOff_ne s hab]
        exact (hhoused a b).trans hab'

/-! ## Every run -/

omit [LinearOrder K] in
theorem cableOk_init [LinearOrder K] (h : s.Initial) : CableOk addNb s := by
  have hpassed : ∀ n m, passed (s.queue n m) = [] := by
    intro n m
    rw [passed, h.sent, h.q, List.append_nil]
  refine ⟨LTS.reachable_init h.net, ⟨fun n m => ⟨?_, ?_, ?_⟩, fun n m => ?_⟩, fun n m => ?_⟩
  · rw [hpassed, h.arrivals]
  · rw [hpassed, h.arrivals, h.dropped, List.nil_append]
  · simp [h.arrivals]
  · simp [h.wire]
  · simp [Cabled.carried, h.wire, h.q, antsIn, antsOn, h.net.inFlight]

theorem cableOk_reachable (h : (cabled addNb).Reachable s) : CableOk addNb s :=
  LTS.reachable_induct (M := cabled addNb) (fun _ h0 => cableOk_init h0)
    (fun _ _ _ _ ih hs => (cable_step ih hs).2) h

/-- **The links do what `Net` lets them do.** Every run with queues is, without
them, a run of the network in which no queue length is negative; the ants in
flight are those in the queues and on the wires, each on the link from the node
that sent it to its next hop; and every packet on a wire can arrive. -/
theorem cabled_refines {s₀ : Cabled K} (h0 : s₀.Initial) {cs : List (CableAct K)}
    (hrun : (cabled addNb).Run s₀ cs s) :
    (∃ ls, ((net addNb).guard HonestQueues).Run s₀.net ls s.net) ∧
    (∀ n m, (antsIn (s.carried n m)).Perm (antsOn n m s.net.inFlight)) ∧
    ∀ n m i nf ttl o, i < (s.wire n m).length →
      ∃ s', cableStep addNb s (.arrive n m i nf ttl o) = some s' := by
  have hok : CableOk addNb s := cableOk_reachable ⟨s₀, cs, h0, hrun⟩
  refine ⟨?_, fun n m => ?_, fun n m i nf ttl o hi => ?_⟩
  · refine (LTS.run_induct (I := fun t : Cabled K => Goes addNb s₀.net t.net) (LTS.reachable_init h0)
      hrun (.refl _) ?_)
    intro a c b ha ih hs
    exact ih.trans (cable_step (cableOk_reachable ha) hs).1
  · simpa [antsOn] using hok.housed n m
  · obtain ⟨s', hs', -⟩ := arrive_spec hok (List.getElem?_eq_getElem hi) nf ttl o
    exact ⟨s', hs'⟩

/-- **Queues keep the order.** What a queue has sent, followed by what is in it,
is what came to it, in the order of arrival, without what was dropped; no packet
is anywhere twice, and on the wire are only packets that the queue has sent. So
once a packet is sent, none that came before it is still in the queue. -/
theorem in_order (h : (cabled addNb).Reachable s) (n m : Nsaddr) :
    ((s.queue n m).sent ++ (s.queue n m).q).Sublist (s.queue n m).arrivals ∧
    ((s.queue n m).sent ++ (s.queue n m).q ++ (s.queue n m).dropped).Perm (s.queue n m).arrivals ∧
    (s.queue n m).arrivals.Nodup ∧ (s.wire n m).Sublist (s.queue n m).sent ∧
    ∀ (i j : Nat) (x y : Queued), i < j → (s.queue n m).arrivals[i]? = some x →
      (s.queue n m).arrivals[j]? = some y → y ∈ (s.queue n m).sent → x ∉ (s.queue n m).q := by
  have hok := (cableOk_reachable h).links
  obtain ⟨hsub, hall, hnum⟩ := hok.order n m
  have hnodup : (s.queue n m).arrivals.Nodup := by
    refine List.Nodup.of_map (·.arrival) ?_
    rw [hnum]
    exact List.nodup_range
  refine ⟨hsub, hall, hnodup, hok.wire n m, fun i j x y hij hx hy hsent hq => ?_⟩
  -- the numbers of the arrivals grow along the list
  have hgrow : (((s.queue n m).sent ++ (s.queue n m).q).map (·.arrival)).Pairwise
      fun a b : Nat => a < b := by
    refine List.Pairwise.sublist (hsub.map (·.arrival)) ?_
    rw [hnum]
    exact List.pairwise_lt_range
  rw [List.map_append, List.pairwise_append] at hgrow
  have hlt : y.arrival < x.arrival :=
    hgrow.2.2 _ (List.mem_map_of_mem hsent) _ (List.mem_map_of_mem hq)
  have hat : ∀ (k : Nat) (z : Queued), (s.queue n m).arrivals[k]? = some z → z.arrival = k := by
    intro k z hz
    have hk : ((s.queue n m).arrivals.map (·.arrival))[k]? = some z.arrival := by simp [hz]
    rw [hnum, List.getElem?_range (List.getElem?_eq_some_iff.mp hz).1] at hk
    exact (Option.some.inj hk).symm
  rw [hat i x hx, hat j y hy] at hlt
  omega

/-! ## Long queues -/

/-- The queues count packets and are longer than `B`, only ants have used them,
and none was dropped. -/
structure Ample (B : Nat) (s : Cabled K) : Prop where
  qib : ∀ n m, (s.queue n m).qib = false
  qlim : ∀ n m, (B : Int) + 1 < (s.queue n m).qlim
  ants : ∀ n m, ∀ x ∈ passed (s.queue n m), x.pkt.ptype = PT_ANT
  dropped : ∀ n m, (s.queue n m).dropped = []

/-- Only ants, at most `B` of them. -/
def Sparse (B : Nat) (s : Cabled K) : CableAct K → Prop
  | .data _ _ _ => False
  | _ => s.net.inFlight.length ≤ B

instance (B : Nat) (s : Cabled K) : (c : CableAct K) → Decidable (Sparse B s c)
  | .data _ _ _ => inferInstanceAs (Decidable False)
  | .command _ | .expire _ _ | .resume _ _ _ | .arrive _ _ _ _ _ _ | .discard _ _ _ =>
    inferInstanceAs (Decidable (s.net.inFlight.length ≤ B))

def CableAct.discards : CableAct K → Bool
  | .discard _ _ _ => true
  | _ => false

omit [Arithmetic K] [LinearOrder K] in
theorem Ample.carried {B : Nat} (h : Ample B s) (hl : LinksOk s) {x : Queued}
    (hx : x ∈ s.carried n m) : x.pkt.ptype = PT_ANT := by
  refine h.ants n m x (List.mem_append.mpr ?_)
  exact (List.mem_append.mp hx).imp_left fun hw => (hl.wire n m).subset hw

omit [Arithmetic K] [LinearOrder K] in
/-- The packets of a link that only ants use are ants in flight. -/
theorem queued_le {B : Nat} {ps : List (Packet K)} (ha : Ample B s) (hl : LinksOk s) (h : Housed s ps)
    (n m : Nsaddr) : (s.queue n m).q.length + (antsOn n m ps).length ≤ s.net.inFlight.length := by
  have hall : (antsIn (s.carried n m)).length = (s.carried n m).length := by
    rw [antsIn, List.length_map, List.filter_eq_self.mpr]
    intro x hx
    simpa using ha.carried hl hx
  have hlen := (h n m).length_eq
  have hle : (antsOn n m s.net.inFlight).length ≤ s.net.inFlight.length := by
    simpa [antsOn] using List.length_filter_le (onLink n m) s.net.inFlight
  rw [List.length_append, hall, Cabled.carried, List.length_append] at hlen
  omega

omit [Arithmetic K] [LinearOrder K] in
/-- An event that drops nothing, at a queue that only ants have passed. -/
theorem Ample.setQueue {B : Nat} (ha : Ample B s) {q : PriQueue} (hqib : q.qib = (s.queue n m).qib)
    (hqlim : q.qlim = (s.queue n m).qlim) (hants : ∀ x ∈ passed q, x.pkt.ptype = PT_ANT)
    (hdrop : q.dropped = (s.queue n m).dropped) : Ample B (s.setQueue n m q) where
  qib := setLink_forall (P := fun q : PriQueue => q.qib = false) (hqib.trans (ha.qib n m)) ha.qib n m
  qlim := setLink_forall (P := fun q : PriQueue => (B : Int) + 1 < q.qlim) (hqlim ▸ ha.qlim n m)
    ha.qlim n m
  ants := setLink_forall (P := fun q => ∀ x ∈ passed q, x.pkt.ptype = PT_ANT) hants ha.ants n m
  dropped := setLink_forall (P := fun q : PriQueue => q.dropped = []) (hdrop.trans (ha.dropped n m))
    ha.dropped n m

variable (addNb) in
/-- An ant enters a queue that has room. -/
theorem enter_ample {B : Nat} (ha : Ample B s) {p : HdrCmn} (hp : p.ptype = PT_ANT)
    (hlen : (s.queue n m).q.length ≤ B) :
    ∃ s', enter addNb s n m p = some s' ∧ s'.net = s.net ∧ Ample B s' := by
  let x := Ifq.arrive (s.queue n m) p
  have hroom : ¬ Overflows (counted (s.queue n m) p) x := by
    have hqib : (counted (s.queue n m) p).qib = false := ha.qib n m
    have hqlim : (B : Int) + 1 < (counted (s.queue n m) p).qlim := ha.qlim n m
    have hq : (counted (s.queue n m) p).q.length ≤ B := hlen
    unfold Overflows
    rw [hqib]
    simp only [true_and, reduceCtorEq, false_and, or_false]
    omega
  have henq : enque (counted (s.queue n m) p) x =
      { counted (s.queue n m) p with q := (s.queue n m).q ++ [x] } := if_neg hroom
  have hgone : (queueRecv (counted (s.queue n m) p) x).dropped = (s.queue n m).dropped := by
    unfold queueRecv
    rw [dropped_sendHead, henq]
    rfl
  have hpassed : passed (queueRecv (counted (s.queue n m) p) x) = passed (s.queue n m) ++ [x] := by
    unfold queueRecv
    rw [passed_sendHead, henq]
    simp [passed, counted]
  have hsame : (queueRecv (counted (s.queue n m) p) x).qib = (s.queue n m).qib ∧
      (queueRecv (counted (s.queue n m) p) x).qlim = (s.queue n m).qlim := by
    unfold queueRecv
    rw [(sendHead_settings _).qib, sendHead_qlim, henq]
    exact ⟨rfl, rfl⟩
  refine ⟨s.setQueue n m (queueRecv (counted (s.queue n m) p) x), ?_, rfl,
    ha.setQueue hsame.1 hsame.2 (fun y hy => ?_) hgone⟩
  · simp only [enter]
    rw [show Ifq.arrive (s.queue n m) p = x from rfl, hgone, List.drop_length]
    rfl
  · rw [hpassed] at hy
    rcases List.mem_append.mp hy with hold | hnew
    · exact ha.ants n m y hold
    · obtain rfl := List.mem_singleton.mp hnew
      exact hp

/-- What a handler sends finds room. -/
theorem sendOut_ample {B : Nat} {ps : List (Packet K)} (hps : ps.length ≤ 1) (h : Sending addNb s n ps)
    (ha : Ample B s) (hlen : s.net.inFlight.length ≤ B + 1)
    (hs : ps.foldlM (fun s p => enter addNb s n p.ip.daddr p.cmn) s = some s') :
    s'.net = s.net ∧ Ample B s' := by
  cases ps with
  | nil =>
    obtain rfl := Option.some.inj hs
    exact ⟨rfl, ha⟩
  | cons p ps =>
    obtain rfl : ps = [] := by
      simp only [List.length_cons] at hps
      exact List.length_eq_zero_iff.mp (by omega)
    obtain ⟨hsaddr, hptype⟩ := h.ants p (List.mem_singleton_self p)
    have hle := queued_le ha h.links h.housed n p.ip.daddr
    have hone : (antsOn n p.ip.daddr [p]).length = 1 := by
      rw [antsOn_cons, if_pos ((onLink_sent hsaddr _ _).mpr ⟨rfl, rfl⟩)]
      rfl
    obtain ⟨t, ht, hnet, hta⟩ := enter_ample addNb (n := n) (m := p.ip.daddr) ha hptype (by omega)
    rw [List.foldlM_cons, ht] at hs
    obtain rfl := Option.some.inj hs
    exact ⟨hnet, hta⟩

/-- **One step without a drop.** -/
theorem lossless_step {B : Nat} (h : CableOk addNb s) (ha : Ample B s) {c : CableAct K}
    (hc : Sparse B s c) (hs : cableStep addNb s c = some s') :
    Ample B s' ∧ s'.net.lost.length = s.net.lost.length + if c.discards then 1 else 0 := by
  have hsame : ∀ w : Net K, Ample B { s with net := w } := fun w => ⟨ha.qib, ha.qlim, ha.ants, ha.dropped⟩
  have hoff : ∀ n m i (w : Net K), Ample B { s.takeOff n m i with net := w } :=
    fun _ _ _ w => ⟨ha.qib, ha.qlim, ha.ants, ha.dropped⟩
  cases c with
  | data => cases hc
  | command l =>
    simp only [cableStep] at hs
    split at hs
    · rename_i hl
      obtain ⟨w, hw, rfl⟩ := Option.map_eq_some_iff.mp hs
      exact ⟨hsame w, congrArg List.length (command_cases hl hw).1.lost⟩
    · cases hs
  | expire n o =>
    have hB : s.net.inFlight.length ≤ B := hc
    obtain ⟨w, hw, hs⟩ := Option.bind_eq_some_iff.mp hs
    obtain ⟨ps, hdrop, hone, hlen, hlost, hsend⟩ := launch_sends h hw
    simp only [sendOut, hdrop] at hs
    obtain ⟨hnet, hta⟩ := sendOut_ample hone hsend (hsame w) (show w.inFlight.length ≤ B + 1 by omega) hs
    exact ⟨hta, by rw [hnet]; exact congrArg List.length hlost⟩
  | resume n m b =>
    obtain rfl := Option.some.inj hs
    obtain ⟨hq, hlim, hdrop⟩ : (Ifq.resume (s.queue n m) b).qib = (s.queue n m).qib ∧
        (Ifq.resume (s.queue n m) b).qlim = (s.queue n m).qlim ∧
        (Ifq.resume (s.queue n m) b).dropped = (s.queue n m).dropped := by
      unfold Ifq.resume
      split <;> exact ⟨rfl, rfl, rfl⟩
    exact ⟨ha.setQueue hq hlim (by rw [passed_resume]; exact ha.ants n m) hdrop, rfl⟩
  | arrive n m k nf ttl o =>
    have hB : s.net.inFlight.length ≤ B := hc
    cases hx : (s.wire n m)[k]? with
    | none => simp only [cableStep, hx] at hs; cases hs
    | some x =>
      simp only [cableStep, hx] at hs
      split at hs
      · rename_i hant
        obtain ⟨i, w, ps, hfind, hw, hdrop, hone, hlen, hlost, hsend⟩ :=
          arrival_sends h hx hant nf ttl (answers s o)
        rw [hfind, Option.bind_some, hw, Option.bind_some, sendOut] at hs
        simp only [hdrop] at hs
        obtain ⟨hnet, hta⟩ := sendOut_ample hone hsend (hoff n m k w)
          (show w.inFlight.length ≤ B + 1 by omega) hs
        exact ⟨hta, by rw [hnet]; exact congrArg List.length hlost⟩
      · obtain rfl := Option.some.inj hs
        exact ⟨hoff n m k s.net, rfl⟩
  | discard n m k =>
    cases hx : (s.wire n m)[k]? with
    | none => simp only [cableStep, hx] at hs; cases hs
    | some x =>
      simp only [cableStep, hx] at hs
      obtain ⟨w, hw, rfl⟩ := Option.map_eq_some_iff.mp hs
      refine ⟨hoff n m k w, ?_⟩
      have hant : x.pkt.ptype = PT_ANT :=
        ha.carried h.links (List.mem_append_left _ (List.mem_of_getElem? hx))
      rw [loseAnt, if_pos hant] at hw
      obtain ⟨i, hfind, hlose⟩ := Option.bind_eq_some_iff.mp hw
      obtain ⟨hi, -, -⟩ := List.findIdx?_eq_some_iff_getElem.mp hfind
      simp only [step, List.getElem?_eq_getElem hi] at hlose
      obtain rfl := Option.some.inj hlose
      simp [CableAct.discards]

/-- **Long queues drop nothing.** Where only ants use the links, at most `B` at
a time, and the queues have a `limit_` above `B + 1`, no queue drops an ant in
any run: all that are lost the links have discarded. -/
theorem lossless {B : Nat} {s₀ : Cabled K} (h0 : s₀.Initial)
    (hq : ∀ n m, (s₀.queue n m).qib = false ∧ (B : Int) + 1 < (s₀.queue n m).qlim)
    {cs : List (CableAct K)} (hrun : ((cabled addNb).guard (Sparse B)).Run s₀ cs s) :
    (∀ n m, (s.queue n m).dropped = []) ∧ s.net.lost.length = cs.countP CableAct.discards := by
  have hample : Ample B s₀ := by
    refine ⟨fun n m => (hq n m).1, fun n m => (hq n m).2, fun n m x hx => ?_, h0.dropped⟩
    rw [passed, h0.sent, h0.q] at hx
    cases hx
  suffices hall : ∀ {a b : Cabled K} {cs : List (CableAct K)}, (cabled addNb).Reachable a → Ample B a →
      ((cabled addNb).guard (Sparse B)).Run a cs b →
      Ample B b ∧ b.net.lost.length = a.net.lost.length + cs.countP CableAct.discards by
    obtain ⟨hb, hlost⟩ := hall (LTS.reachable_init h0) hample hrun
    rw [h0.net.lost, List.length_nil, Nat.zero_add] at hlost
    exact ⟨hb.dropped, hlost⟩
  intro a b cs hr ha hrun
  induction hrun with
  | nil => exact ⟨ha, rfl⟩
  | cons hs _ ih =>
    obtain ⟨hc, hs⟩ := hs
    obtain ⟨ha', hone⟩ := lossless_step (cableOk_reachable hr) ha hc hs
    obtain ⟨hb, hlost⟩ := ih (LTS.reachable_step hr hs) ha'
    refine ⟨hb, ?_⟩
    rw [hlost, hone, List.countP_cons]
    omega

end Steps

/-! ## Two ants on one link -/

/-- Links with the default queues.
mirrors tcl/lib/ns-default.tcl:86-105 -/
def Cabled.boot : Cabled ℚ where
  net := Net.boot
  queue _ _ := ⟨false, 50, false, false, 500, false, [], [], [], [], []⟩
  wire _ _ := []

theorem cabledBoot_initial : Cabled.boot.Initial :=
  ⟨boot_initial, fun _ _ => rfl, fun _ _ => rfl, fun _ _ => rfl, fun _ _ => rfl, fun _ _ => rfl⟩

/-- Two ants leave node 0 one after the other, and the second one overtakes the first on the wire. -/
def twoLaunches : List (CableAct ℚ) :=
  lineUp.map .command ++ [.expire 0 (idle [2]), .expire 0 (idle [2]), .resume 0 1 true,
    .arrive 0 1 1 0 5 (idle [])]

theorem cabled_refines_line : ∃ s : Cabled ℚ, (cabled prependNb).Reachable s ∧
    antsOn 0 1 s.net.inFlight = [0] ∧ (antsIn (s.carried 0 1)).Perm (antsOn 0 1 s.net.inFlight) := by
  have hrun : (LTS.exec (cableStep prependNb) Cabled.boot twoLaunches).map
      (fun s => antsOn 0 1 s.net.inFlight) = some [0] := by decide +kernel
  obtain ⟨s, hs, hants⟩ := Option.map_eq_some_iff.mp hrun
  exact ⟨s, LTS.reachable_of_exec cabledBoot_initial hs, hants,
    (cabled_refines cabledBoot_initial (LTS.run_of_exec _ _ _ hs)).2.1 0 1⟩

theorem in_order_line : ∃ s : Cabled ℚ, (cabled prependNb).Reachable s ∧
    (s.queue 0 1).arrivals.map (·.pkt.uid) = [0, 1] ∧
    ((s.queue 0 1).sent ++ (s.queue 0 1).q).Sublist (s.queue 0 1).arrivals := by
  have hrun : (LTS.exec (cableStep prependNb) Cabled.boot twoLaunches).map
      (fun s => (s.queue 0 1).arrivals.map (·.pkt.uid)) = some [0, 1] := by decide +kernel
  obtain ⟨s, hs, harr⟩ := Option.map_eq_some_iff.mp hrun
  have hr : (cabled prependNb).Reachable s := LTS.reachable_of_exec cabledBoot_initial hs
  exact ⟨s, hr, harr, (in_order hr 0 1).1⟩

/-- The link then discards the first ant. -/
theorem lossless_line : ∃ s : Cabled ℚ, ((cabled prependNb).guard (Sparse 48)).Reachable s ∧
    s.net.uidcnt = 2 ∧ s.net.lost.length = 1 := by
  have hrun : (LTS.execGuarded (cableStep prependNb) (Sparse 48) Cabled.boot
      (twoLaunches ++ [.discard 0 1 0])).map (fun s => s.net.uidcnt) = some 2 := by decide +kernel
  obtain ⟨s, hs, hcnt⟩ := Option.map_eq_some_iff.mp hrun
  exact ⟨s, LTS.reachable_of_execGuarded cabledBoot_initial hs, hcnt,
    (lossless cabledBoot_initial (fun _ _ => ⟨rfl, show ((48 : Nat) : Int) + 1 < 50 by decide⟩)
      (LTS.run_of_execGuarded _ _ _ hs)).2⟩

end AntNet.L4
