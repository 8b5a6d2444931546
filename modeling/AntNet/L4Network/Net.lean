import AntNet.Core.LTS
import AntNet.L3Agent.Antnet

/-!
# The network of agents

Every node address has an agent. A step is a Tcl command, a clock tick, the
expiry of a scheduled ant timer, the delivery of a packet in flight to the
agent at its `ih->daddr`, or the loss of a packet by a link.

A handler runs to its end in one step (ns-2 is single threaded); what becomes
of the packet is read off the handler's log, one packet for each
`target_->recv`, one entry in `freed` or `dropped` for each `free` or `drop`.
A handler that faults stops the simulator: there is no step.

Parameters: `addNb` is `Node::addNeighbor` on the list of a node; the oracle
in a label answers the handler; `numForwards` and `ttl` are what the links did
to these fields on the way.

`hist` and `starts` are history variables: for each packet the handlers that
ran on it, for each agent the neighbor lists its `start`s saw.
-/
namespace AntNet.L4

open AntNet.L1 AntNet.L2 AntNet.L3

variable {K : Type}

/-- One handler that ran on a packet: where, in which direction the packet
was travelling when it arrived, when, and what was done. -/
structure Visit (K : Type) where
  node : Nsaddr
  dir : Dir
  time : K
  log : List Event

structure Net (K : Type) where
  clock : K
  numNODES : Int
  neighborList : Nsaddr → List Nsaddr
  agents : Nsaddr → Antnet K
  uidcnt : Nat
  inFlight : List (Packet K)
  freed : List Nat
  dropped : List Nat
  lost : List Nat
  hist : Nat → List (Visit K)
  starts : Nsaddr → List (List Nsaddr)

inductive Act (K : Type) where
  | addNeighbor (n₁ n₂ : Nsaddr)
  | start (n : Nsaddr)
  | stop (n : Nsaddr)
  | setRFactor (n : Nsaddr) (r : K)
  | setNumNodes (n : Nsaddr) (k : Int)
  | advance (t : K)
  | expire (n : Nsaddr) (o : Oracle K)
  | deliver (i : Nat) (numForwards ttl : Int) (o : Oracle K)
  | lose (i : Nat)

/-- The configuration the script builds before the first command. The ports
are what the assertions of `recv_ant_pkt` ask for. -/
structure Net.Initial (s : Net K) : Prop where
  addr : ∀ n, (s.agents n).addr = n
  raAddr : ∀ n, (s.agents n).raAddr = n
  herePort : ∀ n, (s.agents n).herePort = RT_PORT
  dstPort : ∀ n, (s.agents n).dstPort = RT_PORT
  rtable : ∀ n d, (s.agents n).rtable d = none
  antSeqNum : ∀ n, (s.agents n).antSeqNum = 0
  antTimer : ∀ n, (s.agents n).antTimer = false
  neighborList : ∀ n, s.neighborList n = []
  uidcnt : s.uidcnt = 0
  inFlight : s.inFlight = []
  freed : s.freed = []
  dropped : s.dropped = []
  lost : s.lost = []
  hist : ∀ u, s.hist u = []
  starts : ∀ n, s.starts n = []

def Net.env (s : Net K) (o : Oracle K) : Env K := ⟨s.clock, s.numNODES, s.neighborList, o⟩

def Event.isDrop : Event → Bool
  | .drop _ => true
  | _ => false

def setAgent (s : Net K) (n : Nsaddr) (a : Antnet K) : Net K :=
  { s with agents := Function.update s.agents n a }

/-- The end of a handler run at `n` on a packet that arrived in direction `dir`. -/
def settle (s : Net K) (n : Nsaddr) (dir : Dir) (f : Frame K) : Net K :=
  let uid := f.pkt.cmn.uid
  { s with
    agents := Function.update s.agents n f.self
    inFlight := s.inFlight ++ List.replicate (f.log.count .send) f.pkt
    freed := s.freed ++ List.replicate (f.log.count .free) uid
    dropped := s.dropped ++ List.replicate (f.log.countP Event.isDrop) uid
    hist := Function.update s.hist uid (s.hist uid ++ [⟨n, dir, s.clock, f.log⟩]) }

section Step

variable [Arithmetic K] [LinearOrder K]

/-- `n->addNeighbor(m)` -/
def addNeighborAt (addNb : List Nsaddr → Nsaddr → List Nsaddr) (lists : Nsaddr → List Nsaddr)
    (n m : Nsaddr) : Nsaddr → List Nsaddr :=
  Function.update lists n (addNb (lists n) m)

/-- mirrors antnet.cc:622-626 -/
def addNeighbor (addNb : List Nsaddr → Nsaddr → List Nsaddr) (s : Net K) (n₁ n₂ : Nsaddr) : Net K :=
  { s with neighborList := addNeighborAt addNb (addNeighborAt addNb s.neighborList n₁ n₂) n₂ n₁ }

/-- The packet as the links hand it over. -/
def arrive (p : Packet K) (numForwards ttl : Int) : Packet K :=
  { p with cmn := { p.cmn with numForwards := numForwards }, ip := { p.ip with ttl := ttl } }

def step (addNb : List Nsaddr → Nsaddr → List Nsaddr) (s : Net K) : Act K → Option (Net K)
  | .addNeighbor n₁ n₂ => some (addNeighbor addNb s n₁ n₂)
  | .start n =>
    some { setAgent s n (start (s.agents n) (s.neighborList n)) with
      numNODES := (s.agents n).numNodes
      starts := Function.update s.starts n (s.starts n ++ [s.neighborList n]) }
  | .stop n => some (setAgent s n (stop (s.agents n)))
  | .setRFactor n r => some (setAgent s n { s.agents n with rFactor := r })
  | .setNumNodes n k => some (setAgent s n { s.agents n with numNodes := k })
  | .advance t => if s.clock ≤ t then some { s with clock := t } else none
  | .expire n o =>
    if (s.agents n).antTimer then
      match (L3.expire (s.env o) s.uidcnt).exec ⟨o.blank, s.agents n, []⟩ with
      | (.ok (), f) => some (settle { s with uidcnt := s.uidcnt + 1 } n .DOWN f)
      | (.error _, _) => none
    else none
  | .deliver i nf ttl o =>
    match s.inFlight[i]? with
    | none => none
    | some p =>
      let n := p.ip.daddr
      match (recv (s.env o)).exec ⟨arrive p nf ttl, s.agents n, []⟩ with
      | (.ok (), f) => some (settle { s with inFlight := s.inFlight.eraseIdx i } n p.cmn.direction f)
      | (.error _, _) => none
  | .lose i =>
    match s.inFlight[i]? with
    | none => none
    | some p => some { s with inFlight := s.inFlight.eraseIdx i, lost := s.lost ++ [p.cmn.uid] }

/-- The network as a transition system. -/
def net (addNb : List Nsaddr → Nsaddr → List Nsaddr) : LTS (Net K) (Act K) :=
  LTS.ofFn Net.Initial (step addNb)

/-- The state after a list of labels. -/
def runActs (addNb : List Nsaddr → Nsaddr → List Nsaddr) : Net K → List (Act K) → Option (Net K) :=
  LTS.exec (step addNb)

theorem runActs_reachable {addNb : List Nsaddr → Nsaddr → List Nsaddr} {acts : List (Act K)}
    {s s' : Net K} (hs : s.Initial) (h : runActs addNb s acts = some s') :
    (net addNb).Reachable s' := LTS.reachable_of_exec hs h

end Step

/-! ## A configured network -/

section Boot

variable [Arithmetic K]

/-- The network before the first command, with the agents' Tcl defaults.
mirrors tcl/lib/ns-default.tcl:1471-1472 -/
def Net.boot : Net K where
  clock := 0
  numNODES := 0
  neighborList _ := []
  agents n := ⟨n, RT_PORT, RT_PORT, n, fun _ => none, 0, false, 1 / 1000, 16⟩
  uidcnt := 0
  inFlight := []
  freed := []
  dropped := []
  lost := []
  hist _ := []
  starts _ := []

theorem boot_initial : (Net.boot : Net K).Initial :=
  ⟨fun _ => rfl, fun _ => rfl, fun _ => rfl, fun _ => rfl, fun _ _ => rfl, fun _ => rfl,
    fun _ => rfl, fun _ => rfl, rfl, rfl, rfl, rfl, rfl, fun _ => rfl, fun _ => rfl⟩

/-- A new node goes to the front of the list. -/
def prependNb (l : List Nsaddr) (x : Nsaddr) : List Nsaddr := x :: l

/-- Empty queues, `rnum->uniform` always 0, and the given random destinations. -/
def idle (draws : List Int) : Oracle K where
  queueLength _ _ _ := 0
  uniform _ := 0
  draws := draws
  blank := ⟨⟨0, 0, 0, 0, .NONE, 0, .NONE, 0⟩, ⟨0, 0, 0, 0, 0⟩,
    ⟨0, 0, 0, 0, 0, 0, Vector.replicate MAX_NUM_NODES ⟨0, 0⟩, 0⟩⟩
  ipHdrLen := 20

/-- Three nodes in a line, 0 - 1 - 2, all started. -/
def lineUp : List (Act K) :=
  [.setNumNodes 0 3, .setNumNodes 1 3, .setNumNodes 2 3, .addNeighbor 0 1, .addNeighbor 1 2,
    .start 0, .start 1, .start 2]

end Boot

end AntNet.L4
