import AntNet.Core.Prog
import AntNet.L2Table.Rtable

/-!
# The agent's handlers

`antnet.cc` (`Antnet::recv`, `send_ant_pkt`, `recv_ant_pkt`, `memorize`,
`forward_ant_pkt`, `create_backward_ant_pkt`, `backward_ant_pkt`,
`update_table`, `initialize_rtable`, the timer), as programs over the packet
at hand and the agent's own state.

**What a handler does to the packet is recorded.** Every read and write of a
header field, every access to `pkt_memory_[i]` (with `pkt_mem_size_` at that
moment), every call of `rtable_.update`, and the three ways to give the packet
away (`target_->recv(p)`, `Packet::free(p)`, `drop(p)`) append an event to the
frame's log. The log is an observation: no handler reads it.

**Faults.** An index outside `pkt_memory_`, a failed `assert`, and a
`calc_destination` loop that the given draws do not leave stop the handler.

**Outside src/.** `Oracle` holds the answers of ns-2 during one handler: the
queue lengths, the draws, the header bits of a new packet, `IP_HDR_LEN`.
`addr()`, `here_.port_` and `dst_.port_` are the `Agent` base class's fields.
Trace and debug prints are left out.
-/
namespace AntNet.L3

open AntNet.L1 AntNet.L2

variable {K : Type}

/-! ## Frames and primitive steps -/

inductive Event where
  | read
  | write
  | memRead (i size : Int)
  | memWrite (i : Int)
  | updateTable
  | rtUpdate (dest next : Nsaddr)
  | send
  | free
  | drop (why : String)
  deriving DecidableEq, Repr

inductive Fault where
  | outOfBounds (i : Int)
  | assertion
  | stuck
  deriving DecidableEq, Repr

/-- The fields of `class Antnet` and its base `Agent` the handlers use.
mirrors antnet.h:80-133 -/
structure Antnet (K : Type) where
  addr : Nsaddr
  herePort : Int
  dstPort : Int
  raAddr : Nsaddr
  rtable : RtableT K
  antSeqNum : UInt8
  /-- `ant_timer_` is scheduled. -/
  antTimer : Bool
  rFactor : K
  numNodes : Int

/-- What the simulator answers while one handler runs. -/
structure Oracle (K : Type) where
  queueLength : Nat → Nsaddr → Nsaddr → Int
  uniform : K → K
  draws : List Int
  /-- The headers `allocpkt` returns, apart from the fields it takes from the agent. -/
  blank : Packet K
  ipHdrLen : Int

/-- What a handler reads besides the packet and its own fields. -/
structure Env (K : Type) where
  currentTime : K
  numNODES : Int
  neighborList : Nsaddr → List Nsaddr
  oracle : Oracle K

structure Frame (K : Type) where
  pkt : Packet K
  self : Antnet K
  log : List Event

abbrev AgentM (K : Type) := Prog Fault (Frame K)

def emit (e : Event) : AgentM K Unit := modify fun f => { f with log := f.log ++ [e] }

/-- Read a header field. -/
def rd {β : Type} (g : Packet K → β) : AgentM K β := do
  emit .read
  return g (← get).pkt

/-- Write header fields. -/
def wr (g : Packet K → Packet K) : AgentM K Unit := do
  emit .write
  modify fun f => { f with pkt := g f.pkt }

/-- Read one of the agent's own fields. -/
def own {β : Type} (g : Antnet K → β) : AgentM K β := do return g (← get).self

def setSelf (g : Antnet K → Antnet K) : AgentM K Unit := modify fun f => { f with self := g f.self }

def addr : AgentM K Nsaddr := own (·.addr)

/-- `ah->pkt_memory_[i]` -/
def memRead (i : Int) : AgentM K (Memory K) := do
  let p := (← get).pkt
  emit (.memRead i p.ant.pktMemSize)
  if h : 0 ≤ i ∧ i < MAX_NUM_NODES then
    have hi : i.toNat < MAX_NUM_NODES := by omega
    return p.ant.pktMemory[i.toNat]
  else throw (.outOfBounds i)

/-- A write to a field of `ah->pkt_memory_[i]`. -/
def memWrite (i : Int) (g : Memory K → Memory K) : AgentM K Unit := do
  let p := (← get).pkt
  emit (.memWrite i)
  if h : 0 ≤ i ∧ i < MAX_NUM_NODES then
    have hi : i.toNat < MAX_NUM_NODES := by omega
    let mem := p.ant.pktMemory.set i.toNat (g p.ant.pktMemory[i.toNat])
    modify fun f => { f with pkt := p.withMemory mem p.ant.pktMemSize }
  else throw (.outOfBounds i)

def memSize : AgentM K Int := rd (·.ant.pktMemSize)

def setMemSize (sz : Int) : AgentM K Unit := wr fun p => p.withMemory p.ant.pktMemory sz

/-- `target_->recv(p)` -/
def targetRecv : AgentM K Unit := emit .send

/-- `Packet::free(p)` -/
def packetFree : AgentM K Unit := emit .free

def drop (why : String) : AgentM K Unit := emit (.drop why)

def assert (b : Prop) [Decidable b] : AgentM K Unit := if b then pure () else throw .assertion

/-- Fuel for the loops over `pkt_memory_`: one more than its entries. -/
def memFuel : Nat := MAX_NUM_NODES + 1

/-- mirrors antnet_common.cc:39-48 -/
def getNumNeighbors (env : Env K) (nodeAddr : Nsaddr) : Int := (env.neighborList nodeAddr).length

/-! ## The forward ant -/

section Handlers

variable [Arithmetic K] [LinearOrder K]

/-- `for(int j=0; j <= i; j++) tmp->pkt_memory_[j].trip_time += t;`
mirrors antnet.cc:275-277 -/
def shiftTripTimes (i : Nat) (t : K) : AgentM K Unit :=
  Prog.loop .stuck (fun j => do
    if j ≤ i then
      let m ← memRead j
      memWrite j fun e => { e with tripTime := m.tripTime + t }
      return none
    else return some ()) memFuel 0

/-- The loop-removal loop; `true` when the node was found.
mirrors antnet.cc:271-280 -/
def removeLoop (time : K) : AgentM K Bool :=
  Prog.loop .stuck (fun i => do
    if (i : Int) < (← memSize) then
      if (← memRead i).nodeAddr = (← addr) then
        let t := time - (← memRead i).tripTime
        setMemSize (i + 1)
        shiftTripTimes i t
        return some true
      else return none
    else return some false) memFuel 0

/-- mirrors antnet.cc:265-301 -/
def memorize (env : Env K) : AgentM K Bool := do
  let time := env.currentTime - (← rd (·.ant.pktStartTime))
  if ← removeLoop time then return true
  else
    if (← memSize) ≥ MAX_NUM_NODES then
      drop DROP_RTR_ROUTE_LOOP
      return false
    else
      let self ← addr
      memWrite (← memSize) fun e => { e with nodeAddr := self }
      memWrite (← memSize) fun e => { e with tripTime := time }
      setMemSize ((← memSize) + 1)
      return true

/-- `rtable_.calc_next(addr(), dest, parent, get_num_neighbors(addr()))` -/
def callCalcNext (env : Env K) (dest parent : Nsaddr) : AgentM K Nsaddr := do
  let a ← own id
  return calcNext a.rtable env.oracle.queueLength env.oracle.uniform a.addr dest parent
    (getNumNeighbors env a.addr)

/-- mirrors antnet.cc:306-327 -/
def forwardAntPkt (env : Env K) : AgentM K Unit := do
  let parent ← rd (·.ip.saddr)
  let next ← callCalcNext env (← rd (·.ant.pktDst)) parent
  let self ← addr
  if next = self ∨ next = parent then
    packetFree
  else
    wr fun p => { p with cmn := { p.cmn with nextHop := next } }
    wr fun p => { p with ip := { p.ip with saddr := self } }
    wr fun p => { p with ip := { p.ip with daddr := next } }
    targetRecv

/-- `allocpkt()`: the agent's ports, a fresh uid (ns-2's `Agent::initpkt`), and
whatever else the new packet holds. -/
def allocpkt (env : Env K) (uid : Nat) : AgentM K Unit := modify fun f =>
  let b := env.oracle.blank
  { f with pkt := { b with
      cmn := { b.cmn with uid := uid }
      ip := { b.ip with sport := f.self.herePort, dport := f.self.dstPort } } }

/-- mirrors antnet.cc:169-209 -/
def sendAntPkt (env : Env K) (uid : Nat) : AgentM K Unit := do
  allocpkt env uid
  let self ← addr
  wr fun p => { p with ant := { p.ant with pktType := FORWARD_ANT } }
  wr fun p => { p with ant := { p.ant with pktSrc := self } }
  wr fun p => { p with ant := { p.ant with pktLen := ANT_SIZE } }
  let seq ← own (·.antSeqNum)
  setSelf fun a => { a with antSeqNum := a.antSeqNum + 1 }
  wr fun p => { p with ant := { p.ant with pktSeqNum := seq } }
  wr fun p => { p with ant := { p.ant with pktStartTime := env.currentTime } }
  match calcDestination self env.oracle.draws with
  | none => throw .stuck
  | some dest =>
    wr fun p => { p with ant := { p.ant with pktDst := dest } }
    setMemSize 0
    memWrite 0 fun e => { e with nodeAddr := self }
    memWrite 0 fun e => { e with tripTime := 0 }
    setMemSize ((← memSize) + 1)
    wr fun p => { p with cmn := { p.cmn with ptype := PT_ANT } }
    wr fun p => { p with cmn := { p.cmn with direction := .DOWN } }
    let len ← rd (·.ant.pktLen)
    wr fun p => { p with cmn := { p.cmn with size := env.oracle.ipHdrLen + len.toNat } }
    wr fun p => { p with cmn := { p.cmn with error := 0 } }
    wr fun p => { p with cmn := { p.cmn with addrType := .INET } }
    let next ← callCalcNext env (← rd (·.ant.pktDst)) self
    if next = self then
      packetFree
    else
      wr fun p => { p with cmn := { p.cmn with nextHop := next } }
      wr fun p => { p with ip := { p.ip with saddr := self } }
      wr fun p => { p with ip := { p.ip with daddr := next } }
      wr fun p => { p with ip := { p.ip with ttl := 2 * env.numNODES } }
      targetRecv

/-! ## The backward ant -/

/-- mirrors antnet.cc:333-355 -/
def createBackwardAntPkt : AgentM K Unit := do
  let temp ← rd (·.ant.pktSrc)
  let dst ← rd (·.ant.pktDst)
  wr fun p => { p with ant := { p.ant with pktSrc := dst } }
  wr fun p => { p with ant := { p.ant with pktDst := temp } }
  let index := (← memSize) - 2
  wr fun p => { p with cmn := { p.cmn with direction := .UP } }
  wr fun p => { p with cmn := { p.cmn with ptype := PT_ANT } }
  let m ← memRead index
  wr fun p => { p with cmn := { p.cmn with nextHop := m.nodeAddr } }
  let self ← addr
  wr fun p => { p with ip := { p.ip with saddr := self } }
  let next ← rd (·.cmn.nextHop)
  wr fun p => { p with ip := { p.ip with daddr := next } }
  targetRecv

/-- The search from the top of the memory: the index before this node's, or -1.
mirrors antnet.cc:367-373 -/
def findPrevious : AgentM K Int := do
  let found ← Prog.loopDown (fun i => do
    if (← memRead i).nodeAddr = (← addr) then return some ((i : Int) - 1) else return none)
    (← memSize).toNat
  return found.getD (-1)

/-- mirrors antnet.cc:361-396 -/
def backwardAntPkt : AgentM K Unit := do
  let index ← findPrevious
  if index < 0 then
    drop DROP_RTR_ROUTE_LOOP
  else
    let m ← memRead index
    wr fun p => { p with cmn := { p.cmn with nextHop := m.nodeAddr } }
    wr fun p => { p with cmn := { p.cmn with direction := .UP } }
    wr fun p => { p with cmn := { p.cmn with ptype := PT_ANT } }
    let self ← addr
    wr fun p => { p with ip := { p.ip with saddr := self } }
    let next ← rd (·.cmn.nextHop)
    wr fun p => { p with ip := { p.ip with daddr := next } }
    targetRecv

/-- `for(i=0; ah->pkt_memory_[i].node_addr != addr(); i++);`
mirrors antnet.cc:525-526 -/
def findSelf : AgentM K Nat :=
  Prog.loop .stuck (fun i => do
    if (← memRead i).nodeAddr ≠ (← addr) then return none else return some i) memFuel 0

/-- mirrors antnet.cc:537-542 -/
def updateRows (next : Nsaddr) (i : Nat) : AgentM K Unit :=
  Prog.loop .stuck (fun index => do
    if (index : Int) < (← memSize) then
      let dest := (← memRead index).nodeAddr
      emit (.rtUpdate dest next)
      setSelf fun a => { a with rtable := update a.rtable dest next a.rFactor }
      return none
    else return some ()) memFuel i

/-- mirrors antnet.cc:517-543 -/
def updateTable : AgentM K Unit := do
  emit .updateTable
  let i ← findSelf
  let next := (← memRead ((i + 1 : Nat) : Int)).nodeAddr
  updateRows next (i + 1)

/-! ## Dispatch -/

/-- mirrors antnet.cc:215-258 -/
def recvAntPkt (env : Env K) : AgentM K Unit := do
  assert ((← rd (·.ip.sport)) = RT_PORT)
  assert ((← rd (·.ip.dport)) = RT_PORT)
  if (← rd (·.cmn.direction)) = .DOWN then
    if (← addr) = (← rd (·.ant.pktDst)) then
      if ← memorize env then createBackwardAntPkt
      else return ()
    else
      if ← memorize env then forwardAntPkt env
      else return ()
  else if (← rd (·.cmn.direction)) = .UP then
    if (← addr) = (← rd (·.ant.pktDst)) then
      updateTable
      packetFree
    else
      updateTable
      backwardAntPkt
  else return ()

/-- mirrors antnet.cc:137-163 -/
def recv (env : Env K) : AgentM K Unit := do
  if (← rd (·.ip.saddr)) = (← own (·.raAddr)) then
    if (← rd (·.cmn.numForwards)) > 0 then drop DROP_RTR_ROUTE_LOOP
    else if (← rd (·.cmn.numForwards)) = 0 then return ()
    else return ()
  else
    if (← rd (·.cmn.ptype)) = PT_ANT then recvAntPkt env
    else drop DROP_RTR_ROUTE_LOOP

/-- `ant_timer_.resched(timer_ant_)`.
mirrors antnet.cc:631-633 -/
def resetAntTimer : AgentM K Unit := setSelf fun a => { a with antTimer := true }

/-- mirrors `Ant_timer::expire`, antnet.cc:638-643 -/
def expire (env : Env K) (uid : Nat) : AgentM K Unit := do
  sendAntPkt env uid
  resetAntTimer

/-! ## Commands -/

/-- The table part; the other effect, `NUM_NODES = num_nodes_`, is the network's.
mirrors antnet.cc:548-593 -/
def initializeRtable (a : Antnet K) (nbs : List Nsaddr) : Antnet K :=
  let numNb : Int := nbs.length
  if numNb = 0 then a
  else { a with rtable := fillTable a.addr a.numNodes nbs (1 / (numNb : K)) a.rtable }

/-- mirrors antnet.cc:86-90 -/
def start (a : Antnet K) (nbs : List Nsaddr) : Antnet K :=
  { initializeRtable a nbs with antTimer := true }

/-- mirrors antnet.cc:91-94 -/
def stop (a : Antnet K) : Antnet K := { a with antTimer := false }

end Handlers

end AntNet.L3
