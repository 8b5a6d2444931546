import AntNet.Core.Prog
import AntNet.Core.Samples
import AntNet.L1Packet.Header
import Mathlib.Algebra.Field.Basic
import Mathlib.Algebra.Order.Ring.Defs
import Mathlib.Logic.Function.Basic

/-!
# The traffic model

`Antnet::update_traffic` and `get_win_size` (antnet.cc:401-512): from the trip
times in an ant's memory, a window of observations and a mean, a spread and a
best time for every destination, and the reinforcement factor `r`. Nothing in
`src/` calls them yet; `r_factor_` is a constant.

The maps `window_` and `state_` are functions to `Option`. `sqrt` is the C
library's, a parameter. The `double`s are the numbers of an ordered field `K`,
so the arithmetic is exact.

`ops` and `rs` are history variables: every square root and division that was
evaluated, with its operands, and every value `r` took.

**Faults.** An index outside `pkt_memory_`, and an iterator that is read at
the end of its container.
-/
namespace AntNet.L3.TrafficModel

open AntNet.L1

variable {K : Type}

/-- mirrors antnet_common.h:62 -/
def WIN_LEN : Nat := 300

/-- mirrors `struct traffic_matrix`, antnet_traffic.h:40-44 -/
structure TrafficMatrix (K : Type) where
  meanTt : K
  varTt : K
  bestTt : K
  deriving DecidableEq, Repr

inductive Arith (K : Type) where
  | sqrt (x : K)
  | div (x y : K)
  deriving DecidableEq, Repr

inductive TrafficFault where
  | outOfBounds (i : Nat)
  | endIterator
  deriving DecidableEq, Repr

/-- `window_` and `state_` of `class Antnet`, and the global `r`.
mirrors antnet.h:86-87, antnet_rtable.cc:41 -/
structure Traffic (K : Type) where
  window : Nsaddr → Option (List K)
  state : Nsaddr → Option (TrafficMatrix K)
  r : K
  ops : List (Arith K)
  rs : List K

abbrev TrafficM (K : Type) := Prog TrafficFault (Traffic K)

/-- `ah->pkt_memory_[i]` -/
def memAt (ah : HdrAntPkt K) (i : Nat) : TrafficM K (Memory K) :=
  if h : i < MAX_NUM_NODES then pure ah.pktMemory[i] else throw (.outOfBounds i)

/-- `for(i=0; ah->pkt_memory_[i].node_addr != addr(); i++);`
mirrors antnet.cc:430-431 -/
def findSelf (ah : HdrAntPkt K) (self : Nsaddr) : TrafficM K Nat :=
  match ah.pktMemory.toList.findIdx? (fun m => m.nodeAddr = self) with
  | some i => pure i
  | none => throw (.outOfBounds MAX_NUM_NODES)

section Update

variable [Field K]

/-- mirrors antnet_common.h:64,66-68 -/
def VARSIGMA : K := 5 / 10 ^ 3
def c1 : K := 7 / 10
def c2 : K := 3 / 10
def zee : K := 17 / 10

/-- The head of the three loops: `dest` and `tt` of every later entry.
mirrors antnet.cc:436-440,455-458,490-493 -/
def eachLater (ah : HdrAntPkt K) (i : Nat) (initialtt : K) (body : Nsaddr → K → TrafficM K Unit) :
    TrafficM K Unit :=
  Prog.forUp (fun index => do
    let dest := (← memAt ah index).nodeAddr
    let tt := (← memAt ah index).tripTime - initialtt
    body dest tt) (ah.pktMemSize.toNat - i) i

def pushBack (win : Option (List K)) (tt : K) : List K :=
  match win with
  | some winTt => winTt ++ [tt]
  | none => [tt]

/-- mirrors antnet.cc:443-451 -/
def updateWindow (dest : Nsaddr) (tt : K) : TrafficM K Unit :=
  modify fun t => { t with window := Function.update t.window dest (some (pushBack (t.window dest) tt)) }

/-- The new entry of `state_`.
mirrors antnet.cc:470-486 -/
def observe (mintt : K) (entry : Option (TrafficMatrix K)) (tt : K) : TrafficMatrix K :=
  match entry with
  | some e =>
    let oldtt := e.meanTt
    let oldvar := e.varTt
    { meanTt := oldtt + VARSIGMA * (tt - oldtt)
      varTt := oldvar * oldvar + VARSIGMA * ((tt - oldtt) * (tt - oldtt) - oldvar * oldvar)
      bestTt := mintt }
  | none => { meanTt := tt, varTt := tt, bestTt := mintt }

/-- mirrors antnet.cc:401-413 -/
def getWinSize (t : Traffic K) (dest : Nsaddr) : Nat :=
  match t.window dest with
  | none => 0
  | some winTt => winTt.foldl (fun count _ => count + 1) 0

/-- `state_[dest]`, which makes an entry when there is none. -/
def stateAt (dest : Nsaddr) : TrafficM K (TrafficMatrix K) := do
  match (← get).state dest with
  | some e => return e
  | none =>
    modify fun t => { t with state := Function.update t.state dest (some ⟨0, 0, 0⟩) }
    return ⟨0, 0, 0⟩

def sqrtOf (sqrt : K → K) (x : K) : TrafficM K K := do
  modify fun t => { t with ops := t.ops ++ [.sqrt x] }
  return sqrt x

def quotient (x y : K) : TrafficM K K := do
  modify fun t => { t with ops := t.ops ++ [.div x y] }
  return x / y

def setR (r : K) : TrafficM K Unit := modify fun t => { t with r := r, rs := t.rs ++ [r] }

variable [LinearOrder K]

/-- mirrors antnet.cc:459-486 -/
def updateState (dest : Nsaddr) (tt : K) : TrafficM K Unit := do
  match (← get).window dest with
  | some (first :: rest) =>
    let mintt := Samples.scanLeast first (first :: rest)
    modify fun t => { t with
      state := Function.update t.state dest (some (observe mintt (t.state dest) tt)) }
  | _ => throw .endIterator

/-- mirrors antnet.cc:496-506 -/
def findR (sqrt : K → K) (dest : Nsaddr) (tt : K) : TrafficM K Unit := do
  let wBest := (← stateAt dest).bestTt
  let iInf := wBest
  let mu := (← stateAt dest).meanTt
  let sigma ← sqrtOf sqrt (← stateAt dest).varTt
  let w := getWinSize (← get) dest
  let iSup := mu + zee * (← quotient sigma (← sqrtOf sqrt (w : K)))
  if iSup = iInf ∧ iInf = tt then
    setR 0
  else
    let best ← quotient wBest tt
    let spread ← quotient (iSup - iInf) ((iSup - iInf) + (tt - iInf))
    setR (c1 * best + c2 * spread)

/-- mirrors antnet.cc:421-512 -/
def updateTraffic (sqrt : K → K) (self : Nsaddr) (ah : HdrAntPkt K) : TrafficM K Unit := do
  let i ← findSelf ah self
  let initialtt := (← memAt ah i).tripTime
  let _next := (← memAt ah (i + 1)).nodeAddr
  eachLater ah (i + 1) initialtt updateWindow
  eachLater ah (i + 1) initialtt updateState
  eachLater ah (i + 1) initialtt (findR sqrt)

/-! ## Runs -/

/-- A new agent: both maps are empty. -/
structure Traffic.Initial (t : Traffic K) : Prop where
  window : ∀ d, t.window d = none
  state : ∀ d, t.state d = none
  ops : t.ops = []
  rs : t.rs = []

/-- The agent before its first call, with any value in `r`. -/
def Traffic.empty (r : K) : Traffic K := ⟨fun _ => none, fun _ => none, r, [], []⟩

omit [Field K] [LinearOrder K] in
theorem empty_initial (r : K) : (Traffic.empty r).Initial := ⟨fun _ => rfl, fun _ => rfl, rfl, rfl⟩

/-- One call of `update_traffic`; `none` when it faults. -/
def call (sqrt : K → K) (self : Nsaddr) (t : Traffic K) (ah : HdrAntPkt K) : Option (Traffic K) :=
  match (updateTraffic sqrt self ah).exec t with
  | (.ok (), t') => some t'
  | (.error _, _) => none

/-- The agent's calls one after the other. -/
def runCalls (sqrt : K → K) (self : Nsaddr) : Traffic K → List (HdrAntPkt K) → Option (Traffic K) :=
  LTS.exec (call sqrt self)

end Update

end AntNet.L3.TrafficModel
