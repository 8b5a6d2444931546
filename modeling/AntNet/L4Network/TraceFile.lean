import AntNet.L1Packet.Trace
import AntNet.L4Network.Inv

/-!
# The trace file of a run

With router traces on, the agent of a node sends through a `Send` trace object,
receives from a `Recv` trace object (`add-target-rtagent`,
tcl/lib/ns-mobilenode.tcl:263-312) and has a `Drop` trace object for what it
drops (`agenttrace`, tcl/lib/ns-mobilenode.tcl:746-757). Each writes a line; the
first two hand the packet on, the third frees it. At a node without energy each
frees the packet and writes nothing (`CMUTrace::recv`,
trace/cmu-trace.cc:1429-1484): then the ant is lost on its way to the agent or
from it. The file is what these objects write.

`BaseTrace::dump`, which ends the line, is not under src: `dump` gives the text
that it writes for a line.

* `trace_file`: whatever formats the nodes use, the file can be read, and the
  lines about one ant tell its way: a line for each node it came to, and where
  the nodes have energy one for each time it was sent on, and one if an agent
  dropped it.
-/
namespace AntNet.L4

open AntNet.L1 AntNet.L2 AntNet.L3 AntNet.Printf

variable {K : Type}

/-- The router traces of a node. -/
structure Tracers where
  node : Int
  snd : CmuTrace
  rcv : CmuTrace
  drp : CmuTrace
  snd_type : snd.type = SEND
  rcv_type : rcv.type = RECV
  drp_type : drp.type = DROP
  snd_src : snd.src = node
  rcv_src : rcv.src = node
  drp_src : drp.src = node

structure Traced (K : Type) where
  net : Net K
  file : List Char

/-- A step, and what the tracers print besides the packet before and after its
handler; `energyIn` and `energyOut` are what `node_energy()` returns there. -/
structure Watched (K : Type) where
  act : Act K
  before : Scene
  after : Scene
  energyIn : Bool
  energyOut : Bool

/-- One line of the file. -/
structure Line (K : Type) where
  tracer : CmuTrace
  scene : Scene
  pkt : Packet K
  why : Word

def noReason : Word := ⟨"---".toList, by decide⟩

def reason (why : String) : Word := if h : IsWord why.toList then ⟨why.toList, h⟩ else noReason

section Model

variable (getNodeaddr : Nsaddr → Int) (tracers : Nsaddr → Tracers) (dump : List Char → List Char)

def Line.text (l : Line K) : List Char := dump (format getNodeaddr l.tracer l.scene l.pkt l.why)

def Line.entry (l : Line K) : Entry := entryOf getNodeaddr l.tracer l.scene l.pkt

/-- What an event of a handler at `n` that leaves packet `p` makes a tracer print. -/
def printedAt (n : Nsaddr) (sc : Scene) (p : Packet K) : Event → Option (Line K)
  | .send => some ⟨(tracers n).snd, sc, p, noReason⟩
  | .drop why => some ⟨(tracers n).drp, sc, p, reason why⟩
  | _ => none

/-- What a handler at `n` makes the tracers print. It gives its packet away last. -/
def printedBy (n : Nsaddr) (w : Watched K) : Except Fault Unit × Frame K → List (Line K)
  | (.ok (), f) => if w.energyOut then f.log.filterMap (printedAt tracers n w.after f.pkt) else []
  | (.error _, _) => []

variable [Arithmetic K] [LinearOrder K] (addNb : List Nsaddr → Nsaddr → List Nsaddr)

/-- What the tracers print in a step from `s`. -/
def watch (s : Net K) (w : Watched K) : List (Line K) :=
  match w.act with
  | .expire n o =>
    printedBy tracers n w ((L3.expire (s.env o) s.uidcnt).exec ⟨o.blank, s.agents n, []⟩)
  | .deliver i nf ttl o =>
    match s.inFlight[i]? with
    | none => []
    | some p =>
      let n := p.ip.daddr
      if w.energyIn then
        ⟨(tracers n).rcv, w.before, arrive p nf ttl, noReason⟩ ::
          printedBy tracers n w ((recv (s.env o)).exec ⟨arrive p nf ttl, s.agents n, []⟩)
      else []
  | _ => []

/-- Without energy the `Send` trace object frees what the handler has sent, packet `k`. -/
def sendTraced (w : Watched K) (k : Nat) (s : Net K) : Option (Net K) :=
  if w.energyOut then some s
  else if s.inFlight.length ≤ k then some s
  else step addNb s (.lose k)

/-- The step with the tracers between the agents and the links. -/
def stepTraced (s : Net K) (w : Watched K) : Option (Net K) :=
  match w.act with
  | .expire n o => (step addNb s (.expire n o)).bind (sendTraced addNb w s.inFlight.length)
  | .deliver i nf ttl o =>
    if w.energyIn then
      (step addNb s (.deliver i nf ttl o)).bind (sendTraced addNb w (s.inFlight.length - 1))
    else step addNb s (.lose i)
  | l => step addNb s l

def tracedStep (s : Traced K) (w : Watched K) : Option (Traced K) :=
  (stepTraced addNb s.net w).map fun net =>
    ⟨net, s.file ++ (watch tracers s.net w).flatMap (Line.text getNodeaddr dump)⟩

def traced : LTS (Traced K) (Watched K) :=
  LTS.ofFn (fun s => s.net.Initial ∧ s.file = []) (tracedStep getNodeaddr tracers dump addNb)

/-- The node has energy. -/
def Powered (_ : Traced K) (w : Watched K) : Prop := w.energyIn = true ∧ w.energyOut = true

instance (s : Traced K) (w : Watched K) : Decidable (Powered s w) := by unfold Powered; infer_instance

end Model

/-! ## Reading the file -/

/-- Reads at most `k` lines that end with `eol`. -/
def readLines (eol : List Char) : Nat → List Char → Option (List Entry)
  | _, [] => some []
  | 0, _ => none
  | k + 1, cs =>
    match readLine cs with
    | some (e, rest) =>
      if eol <+: rest then (readLines eol k (rest.drop eol.length)).map (e :: ·) else none
    | none => none

def readFile (eol file : List Char) : Option (List Entry) := readLines eol file.length file

section ReadFile

variable (getNodeaddr : Nsaddr → Int) {dump : List Char → List Char} {eol : List Char}

theorem format_ne_nil (l : Line K) : format getNodeaddr l.tracer l.scene l.pkt l.why ≠ [] := by
  intro h
  have hread := readLine_format getNodeaddr l.scene l.pkt l.why l.tracer []
  rw [h] at hread
  exact absurd hread (by rw [show readLine ([] ++ []) = none by decide +kernel]; exact fun hn => nomatch hn)

theorem text_ne_nil (hdump : ∀ line, dump line = line ++ eol) (l : Line K) :
    l.text getNodeaddr dump ≠ [] := by
  unfold Line.text
  rw [hdump]
  exact List.append_ne_nil_of_left_ne_nil (format_ne_nil getNodeaddr l) eol

theorem readLines_flatMap (hdump : ∀ line, dump line = line ++ eol) (ls : List (Line K)) {k : Nat}
    (hk : ls.length ≤ k) : readLines eol k (ls.flatMap (Line.text getNodeaddr dump)) =
      some (ls.map (Line.entry getNodeaddr)) := by
  induction ls generalizing k with
  | nil => cases k <;> rfl
  | cons l ls ih =>
    cases k with
    | zero => simp at hk
    | succ k =>
      have hread : readLine (l.text getNodeaddr dump ++ ls.flatMap (Line.text getNodeaddr dump)) =
          some (l.entry getNodeaddr, eol ++ ls.flatMap (Line.text getNodeaddr dump)) := by
        unfold Line.text
        rw [hdump, List.append_assoc]
        exact readLine_format getNodeaddr l.scene l.pkt l.why l.tracer _
      rw [List.flatMap_cons, readLines, hread]
      · simp [ih (by simpa using hk)]
      · intro h
        exact text_ne_nil getNodeaddr hdump l (List.append_eq_nil_iff.mp h).1

theorem length_le_flatMap (hdump : ∀ line, dump line = line ++ eol) (ls : List (Line K)) :
    ls.length ≤ (ls.flatMap (Line.text getNodeaddr dump)).length := by
  induction ls with
  | nil => exact Nat.le_refl _
  | cons l ls ih =>
    have := List.length_pos_iff.mpr (text_ne_nil getNodeaddr hdump l)
    simp only [List.flatMap_cons, List.length_append, List.length_cons]
    omega

/-- **A file of lines is read back line for line.** -/
theorem readFile_lines (hdump : ∀ line, dump line = line ++ eol) (ls : List (Line K)) :
    readFile eol (ls.flatMap (Line.text getNodeaddr dump)) = some (ls.map (Line.entry getNodeaddr)) :=
  readLines_flatMap getNodeaddr hdump ls (length_le_flatMap getNodeaddr hdump ls)

end ReadFile

/-! ## The way of an ant -/

inductive Mark where
  | recv
  | send
  | drop
  deriving DecidableEq, Repr

/-- What a line tells, and of which node. -/
def tells (e : Entry) : Mark × Int :=
  (if e.op = 'r' then .recv else if e.op = 'D' ∨ e.op = 'd' then .drop else .send, e.node)

def about (u : Nat) (es : List Entry) : List Entry := es.filter fun e => e.uid = u

def markOf : Event → Option Mark
  | .send => some .send
  | .drop _ => some .drop
  | _ => none

section Way

variable (tracers : Nsaddr → Tracers)

/-- How an ant left node `n`, by the log of the handler. -/
def left (n : Nsaddr) (log : List Event) : List (Mark × Int) :=
  (log.filterMap markOf).map fun m => (m, (tracers n).node)

/-- What a history looks like to the tracers: the first handler made the ant,
the others received it. -/
def shownBy : List (Visit K) → List (Mark × Int)
  | [] => []
  | v :: vs => left tracers v.node v.log ++
    vs.flatMap fun v => (.recv, (tracers v.node).node) :: left tracers v.node v.log

theorem received_left (n : Nsaddr) (log : List Event) :
    (left tracers n log).filter (fun x => x.1 = .recv) = [] := by
  induction log with
  | nil => rfl
  | cons e log ih => cases e <;> simpa [left, markOf] using ih

/-- The nodes an ant came to. -/
theorem received_shownBy (h : List (Visit K)) :
    ((shownBy tracers h).filter fun x => x.1 = .recv).map (·.2) =
      h.tail.map fun v => (tracers v.node).node := by
  cases h with
  | nil => rfl
  | cons v vs =>
    simp only [shownBy, List.filter_append, received_left, List.nil_append, List.tail_cons]
    induction vs with
    | nil => rfl
    | cons w vs ih => simp [List.flatMap_cons, received_left, ih]

/-- A drop line is printed when a handler dropped the ant. -/
theorem drop_shownBy (h : List (Visit K)) :
    (∃ n, (Mark.drop, n) ∈ shownBy tracers h) ↔ ∃ v ∈ h, v.log.any Event.isDrop = true := by
  have hleft : ∀ (n : Nsaddr) (log : List Event),
      (∃ k, (Mark.drop, k) ∈ left tracers n log) ↔ log.any Event.isDrop = true := by
    intro n log
    induction log with
    | nil => simp [left]
    | cons e log ih => cases e <;> simp [left, markOf, Event.isDrop] at ih ⊢ <;> exact ih
  cases h with
  | nil => simp [shownBy]
  | cons v vs =>
    simp only [shownBy, List.mem_append, List.mem_flatMap, List.mem_cons, Prod.mk.injEq, reduceCtorEq,
      false_and, false_or, exists_or, hleft]
    simp only [or_and_right, exists_eq_left, exists_or]
    rw [exists_comm]
    simp only [exists_and_left, hleft]

theorem shownBy_snoc {h : List (Visit K)} (hne : h ≠ []) (v : Visit K) : shownBy tracers (h ++ [v]) =
    shownBy tracers h ++ (.recv, (tracers v.node).node) :: left tracers v.node v.log := by
  cases h with
  | nil => exact absurd rfl hne
  | cons w h => simp [shownBy, List.flatMap_append]

end Way

section Run

variable {getNodeaddr : Nsaddr → Int} {tracers : Nsaddr → Tracers}

theorem tells_snd (n : Nsaddr) (sc : Scene) (p : Packet K) :
    tells (entryOf getNodeaddr (tracers n).snd sc p) = (.send, (tracers n).node) := by
  simp only [tells, entryOf, (tracers n).snd_src, printedOp, lineOp, (tracers n).snd_type]
  split_ifs <;> simp_all [SEND, FWRD, DROP]

theorem tells_rcv (n : Nsaddr) (sc : Scene) (p : Packet K) :
    tells (entryOf getNodeaddr (tracers n).rcv sc p) = (.recv, (tracers n).node) := by
  simp [tells, entryOf, (tracers n).rcv_src, printedOp, lineOp, (tracers n).rcv_type, SEND, RECV, DROP,
    FWRD]

theorem tells_drp (n : Nsaddr) (sc : Scene) (p : Packet K) :
    tells (entryOf getNodeaddr (tracers n).drp sc p) = (.drop, (tracers n).node) := by
  simp only [tells, entryOf, (tracers n).drp_src, printedOp, lineOp, (tracers n).drp_type]
  split_ifs <;> simp_all [SEND, FWRD, DROP]

/-- The lines of ant `u` among `ls`. -/
def shown (getNodeaddr : Nsaddr → Int) (u : Nat) (ls : List (Line K)) : List (Mark × Int) :=
  (about u (ls.map (Line.entry getNodeaddr))).map tells

theorem shown_append (u : Nat) (ls ls' : List (Line K)) :
    shown getNodeaddr u (ls ++ ls') = shown getNodeaddr u ls ++ shown getNodeaddr u ls' := by
  simp [shown, about]

theorem shown_cons (u : Nat) (l : Line K) (ls : List (Line K)) :
    shown getNodeaddr u (l :: ls) =
      (if l.pkt.cmn.uid = u then [tells (l.entry getNodeaddr)] else []) ++ shown getNodeaddr u ls := by
  by_cases hu : l.pkt.cmn.uid = u <;> simp [shown, about, Line.entry, entryOf, hu]

variable (getNodeaddr tracers) in
/-- What a handler's log tells. -/
theorem shown_printedAt (u : Nat) (n : Nsaddr) (sc : Scene) (q : Packet K) (log : List Event) :
    shown getNodeaddr u (log.filterMap (printedAt tracers n sc q)) =
      if q.cmn.uid = u then left tracers n log else [] := by
  induction log with
  | nil => simp [shown, about, left]
  | cons e log ih =>
    cases e with
    | send =>
      rw [List.filterMap_cons_some (show printedAt tracers n sc q .send = some _ from rfl), shown_cons, ih]
      by_cases hu : q.cmn.uid = u <;> simp [hu, left, markOf, Line.entry, tells_snd]
    | drop why =>
      rw [List.filterMap_cons_some (show printedAt tracers n sc q (.drop why) = some _ from rfl),
        shown_cons, ih]
      by_cases hu : q.cmn.uid = u <;> simp [hu, left, markOf, Line.entry, tells_drp]
    | read | write | memRead | memWrite | updateTable | rtUpdate | free =>
      rw [List.filterMap_cons_none rfl, ih]
      rfl

/-- What lines without those of nodes that had no energy tell of what happened. -/
structure Tells (told made : List (Mark × Int)) : Prop where
  sublist : told.Sublist made
  received : told.filter (fun x => x.1 = .recv) = made.filter fun x => x.1 = .recv

theorem Tells.refl (l : List (Mark × Int)) : Tells l l := ⟨.refl l, rfl⟩

theorem Tells.append {a b a' b' : List (Mark × Int)} (h : Tells a b) (h' : Tells a' b') :
    Tells (a ++ a') (b ++ b') :=
  ⟨h.sublist.append h'.sublist, by rw [List.filter_append, List.filter_append, h.received, h'.received]⟩

/-- A handler at a node without energy. -/
theorem tells_left (n : Nsaddr) (log : List Event) : Tells [] (left tracers n log) :=
  ⟨List.nil_sublist _, (received_left tracers n log).symm⟩

variable [Arithmetic K] [LinearOrder K] {addNb : List Nsaddr → Nsaddr → List Nsaddr} {s s' : Net K}
  {w : Watched K}

theorem lose_same {i : Nat} (h : step addNb s (.lose i) = some s') :
    s'.hist = s.hist := by
  simp only [step] at h
  split at h
  · cases h
  · cases h
    rfl

/-- The `Send` trace object does not change the histories. -/
theorem sendTraced_same {k : Nat} (hr : (net addNb).Reachable s) (h : sendTraced addNb w k s = some s') :
    (net addNb).Reachable s' ∧ s'.hist = s.hist := by
  unfold sendTraced at h
  split at h
  · cases h
    exact ⟨hr, rfl⟩
  · split at h
    · cases h
      exact ⟨hr, rfl⟩
    · exact ⟨LTS.reachable_step hr h, lose_same h⟩

variable (getNodeaddr tracers) in
omit [Arithmetic K] [LinearOrder K] in
/-- What a handler sends on or drops, with and without energy. -/
theorem shown_printedBy (w : Watched K) (n : Nsaddr) (f : Frame K) (u : Nat) :
    Tells (shown getNodeaddr u (printedBy tracers n w (.ok (), f)))
      (if f.pkt.cmn.uid = u then left tracers n f.log else []) ∧
    (w.energyOut = true → shown getNodeaddr u (printedBy tracers n w (.ok (), f)) =
      if f.pkt.cmn.uid = u then left tracers n f.log else []) := by
  refine ⟨?_, fun ho => by simp only [printedBy, ho, if_true, shown_printedAt]⟩
  cases ho : w.energyOut with
  | true =>
    simp only [printedBy, ho, if_true, shown_printedAt]
    exact .refl _
  | false =>
    simp only [printedBy, ho, Bool.false_eq_true, if_false]
    split
    · exact tells_left n f.log
    · exact .refl []

/-- The lines of a step tell what it adds to the history. -/
def Adds (getNodeaddr : Nsaddr → Int) (tracers : Nsaddr → Tracers) (s s' : Net K) (w : Watched K) : Prop :=
  ∀ u, ∃ made, shownBy tracers (s'.hist u) = shownBy tracers (s.hist u) ++ made ∧
    Tells (shown getNodeaddr u (watch tracers s w)) made ∧
    (w.energyIn = true → w.energyOut = true → shown getNodeaddr u (watch tracers s w) = made)

theorem adds_nothing (hh : s'.hist = s.hist) (hw : watch tracers s w = []) :
    Adds getNodeaddr tracers s s' w := by
  intro u
  refine ⟨[], by rw [hh, List.append_nil], ?_, fun _ _ => ?_⟩
  · rw [hw]
    exact .refl _
  · rw [hw]
    rfl

theorem adds_launch (hr : (net addNb).Reachable s) {n : Nsaddr} {o : Oracle K} (hw : w.act = .expire n o)
    (h : step addNb s (.expire n o) = some s') : Adds getNodeaddr tracers s s' w := by
  simp only [step] at h
  split at h
  · split at h
    · rename_i f he
      obtain ⟨d, q, hsent, hgone⟩ := expire_exec he
      obtain ⟨dest, -, hg⟩ := hsent.generated
      cases h
      have hnew : s.hist f.pkt.cmn.uid = [] := by
        rw [hgone.pkt, hg.uid]
        exact (inv_reachable hr).fresh _ (Nat.le_refl _)
      have hlines : watch tracers s w = printedBy tracers n w (.ok (), f) := by
        simp only [watch, hw, he]
      intro u
      obtain ⟨ht, hp⟩ := shown_printedBy getNodeaddr tracers w n f u
      rw [hlines]
      refine ⟨if f.pkt.cmn.uid = u then left tracers n f.log else [], ?_, ht, fun _ => hp⟩
      simp only [settle]
      by_cases hu : u = f.pkt.cmn.uid
      · subst hu
        rw [Function.update_self, if_pos rfl, hnew]
        simp [shownBy]
      · rw [Function.update_of_ne hu, if_neg (Ne.symm hu), List.append_nil]
    · cases h
  · cases h

theorem adds_arrival (hr : (net addNb).Reachable s) {i : Nat} {nf ttl : Int} {o : Oracle K}
    (hw : w.act = .deliver i nf ttl o) (hin : w.energyIn = true)
    (h : step addNb s (.deliver i nf ttl o) = some s') : Adds getNodeaddr tracers s s' w := by
  have hi := inv_reachable hr
  simp only [step] at h
  split at h
  · cases h
  · rename_i p hp
    obtain ⟨f, d, q, a, c, he, ho, hgone⟩ :=
      recv_exec hi.configured hi.ants (List.mem_of_getElem? hp) nf ttl o
    simp only [he] at h
    cases h
    have hq : f.pkt.cmn.uid = p.cmn.uid := (congrArg (·.cmn.uid) hgone.pkt).trans ho.uid
    intro u
    obtain ⟨ht, hpow⟩ := shown_printedBy getNodeaddr tracers w p.ip.daddr f u
    have hrecv : shown getNodeaddr u (watch tracers s w) =
        (if p.cmn.uid = u then [(Mark.recv, (tracers p.ip.daddr).node)] else []) ++
          shown getNodeaddr u (printedBy tracers p.ip.daddr w (.ok (), f)) := by
      simp only [watch, hw, hp, he, hin, if_true, shown_cons, Line.entry, tells_rcv]
      rfl
    rw [hrecv]
    refine ⟨(if p.cmn.uid = u then [(Mark.recv, (tracers p.ip.daddr).node)] else []) ++
      if f.pkt.cmn.uid = u then left tracers p.ip.daddr f.log else [], ?_, (Tells.refl _).append ht,
      fun _ hout => by rw [hpow hout]⟩
    simp only [settle]
    by_cases hu : u = f.pkt.cmn.uid
    · subst hu
      obtain ⟨v, hv, -⟩ := hi.ants p (List.mem_of_getElem? hp)
      have hne : s.hist f.pkt.cmn.uid ≠ [] := by
        rw [hq]
        rintro hnil
        rw [hnil] at hv; cases hv
      rw [Function.update_self, shownBy_snoc tracers hne, if_pos rfl, if_pos hq.symm]
      rfl
    · have hp' : p.cmn.uid ≠ u := fun he => hu (hq.trans he).symm
      rw [Function.update_of_ne hu, if_neg (Ne.symm hu), if_neg hp', List.append_nil, List.append_nil]

/-- **One step.** -/
theorem stepTraced_adds (hr : (net addNb).Reachable s) (h : stepTraced addNb s w = some s') :
    (net addNb).Reachable s' ∧ Adds getNodeaddr tracers s s' w := by
  obtain ⟨l, before, after, energyIn, energyOut⟩ := w
  cases l with
  | addNeighbor | start | stop | setRFactor | setNumNodes | advance =>
    simp only [stepTraced] at h
    exact ⟨LTS.reachable_step hr h, adds_nothing (command_cases rfl h).1.hist rfl⟩
  | lose i =>
    simp only [stepTraced] at h
    exact ⟨LTS.reachable_step hr h, adds_nothing (lose_same h) rfl⟩
  | expire n o =>
    obtain ⟨s₁, h₁, h₂⟩ := Option.bind_eq_some_iff.mp h
    obtain ⟨hr', hhist⟩ := sendTraced_same (LTS.reachable_step hr h₁) h₂
    refine ⟨hr', fun u => ?_⟩
    rw [hhist]
    exact adds_launch hr rfl h₁ u
  | deliver i nf ttl o =>
    cases energyIn with
    | false =>
      have hlose : step addNb s (.lose i) = some s' := h
      refine ⟨LTS.reachable_step hr hlose, adds_nothing (lose_same hlose) ?_⟩
      simp only [watch]
      split <;> rfl
    | true =>
      obtain ⟨s₁, h₁, h₂⟩ := Option.bind_eq_some_iff.mp h
      obtain ⟨hr', hhist⟩ := sendTraced_same (LTS.reachable_step hr h₁) h₂
      refine ⟨hr', fun u => ?_⟩
      rw [hhist]
      exact adds_arrival hr rfl rfl h₁ u

omit [Arithmetic K] [LinearOrder K] in
theorem Ended.any_isDrop {d : Event} {c log : List Event} (h : Ended d c log) :
    log.any Event.isDrop = Event.isDrop d := by
  obtain ⟨pre, rfl, hq, -⟩ := h
  have hpre : pre.any Event.isDrop = false :=
    List.any_eq_false.mpr fun e he => List.countP_eq_zero.mp (count_quiet hq).2.2 e he
  simp [hpre]

omit [Arithmetic K] [LinearOrder K] in
theorem finish_dropped {s : Net K} (n : Nsaddr) (dir : Dir) {d : Event} (q : Packet K) (a : Antnet K)
    {c log : List Event} (hlog : Ended d c log) {u : Nat}
    (h : u ∈ s.dropped ↔ ∃ v ∈ s.hist u, v.log.any Event.isDrop = true) :
    u ∈ (finish s n dir d q a log).dropped ↔
      ∃ v ∈ (finish s n dir d q a log).hist u, v.log.any Event.isDrop = true := by
  have hany : (∃ e ∈ log, Event.isDrop e = true) ↔ Event.isDrop d = true := by
    rw [← hlog.any_isDrop, List.any_eq_true]
  simp only [finish, List.mem_append, h]
  by_cases hu : u = q.cmn.uid
  · subst hu
    simp [or_and_right, exists_or, hany]
  · simp [hu]

/-- An ant is dropped by an agent when the log of a handler says so. -/
theorem dropped_iff {s : Net K} (h : (net addNb).Reachable s) (u : Nat) :
    u ∈ s.dropped ↔ ∃ v ∈ s.hist u, v.log.any Event.isDrop = true := by
  refine LTS.reachable_induct
    (I := fun s : Net K => u ∈ s.dropped ↔ ∃ v ∈ s.hist u, v.log.any Event.isDrop = true) ?_ ?_ h
  · intro s hi
    simp [hi.dropped, hi.hist]
  · intro a l b hr ih hs
    cases trans_of_reachable hr hs with
    | command hl hst => rw [(command_cases hl hst).1.dropped, (command_cases hl hst).1.hist]; exact ih
    | expire _ _ hlog => exact finish_dropped _ _ _ _ hlog ih
    | deliver _ _ hlog => exact finish_dropped _ _ _ _ hlog ih
    | lose => exact ih

/-- The lines of a file, and what they tell of each ant. -/
def Written (getNodeaddr : Nsaddr → Int) (tracers : Nsaddr → Tracers) (dump : List Char → List Char)
    (R : List (Mark × Int) → List (Mark × Int) → Prop) (s : Traced K) : Prop :=
  ∃ ls : List (Line K), s.file = ls.flatMap (Line.text getNodeaddr dump) ∧
    ∀ u, R (shown getNodeaddr u ls) (shownBy tracers (s.net.hist u))

variable {dump : List Char → List Char} {eol : List Char}

theorem written_reachable {s : Traced K} (h : (traced getNodeaddr tracers dump addNb).Reachable s) :
    (net addNb).Reachable s.net ∧ Written getNodeaddr tracers dump Tells s := by
  refine LTS.reachable_induct (I := fun s : Traced K =>
    (net addNb).Reachable s.net ∧ Written getNodeaddr tracers dump Tells s) ?_ ?_ h
  · rintro s ⟨hi, hf⟩
    refine ⟨LTS.reachable_init hi, [], hf, fun u => ?_⟩
    rw [hi.hist]
    exact .refl []
  · rintro a w b - ⟨hr, ls, hf, ht⟩ hs
    obtain ⟨net', hst, rfl⟩ := Option.map_eq_some_iff.mp hs
    obtain ⟨hr', hadd⟩ := stepTraced_adds hr hst
    refine ⟨hr', ls ++ watch tracers a.net w, by rw [List.flatMap_append, hf], fun u => ?_⟩
    obtain ⟨made, hmade, htells, -⟩ := hadd u
    rw [shown_append, hmade]
    exact (ht u).append htells

theorem written_powered {s : Traced K}
    (h : ((traced getNodeaddr tracers dump addNb).guard Powered).Reachable s) :
    Written getNodeaddr tracers dump Eq s := by
  refine LTS.guard_induct (M := traced getNodeaddr tracers dump addNb)
    (I := Written getNodeaddr tracers dump Eq) ?_ ?_ h
  · rintro s ⟨hi, hf⟩
    refine ⟨[], hf, fun u => ?_⟩
    rw [hi.hist]
    rfl
  · rintro a w b hr ⟨ls, hf, ht⟩ ⟨hin, hout⟩ hs
    obtain ⟨net', hst, rfl⟩ := Option.map_eq_some_iff.mp hs
    obtain ⟨-, hadd⟩ := stepTraced_adds (written_reachable hr).1 hst
    refine ⟨ls ++ watch tracers a.net w, by rw [List.flatMap_append, hf], fun u => ?_⟩
    obtain ⟨made, hmade, -, hall⟩ := hadd u
    rw [shown_append, hmade, ht u, hall hin hout]

/-- **What the trace file tells.** Read back, the lines about ant `u` are among
those its history makes the tracers print; the receptions are the nodes it came
to, in order. In a run in which the nodes have energy they are all of them, and
there is a drop line when an agent has dropped the ant. -/
theorem trace_file (hdump : ∀ line, dump line = line ++ eol) {s : Traced K}
    (h : (traced getNodeaddr tracers dump addNb).Reachable s) :
    (net addNb).Reachable s.net ∧ ∃ es, readFile eol s.file = some es ∧
      ∀ u, ((about u es).map tells).Sublist (shownBy tracers (s.net.hist u)) ∧
        ((((about u es).map tells).filter fun x => x.1 = .recv).map (·.2) =
          (s.net.hist u).tail.map fun v => (tracers v.node).node) ∧
        (((traced getNodeaddr tracers dump addNb).guard Powered).Reachable s →
          (about u es).map tells = shownBy tracers (s.net.hist u) ∧
          ((∃ n, (.drop, n) ∈ (about u es).map tells) ↔ u ∈ s.net.dropped)) := by
  obtain ⟨hr, ls, hf, ht⟩ := written_reachable h
  refine ⟨hr, ls.map (Line.entry getNodeaddr), ?_, fun u => ⟨(ht u).sublist, ?_, fun hp => ?_⟩⟩
  · rw [hf]
    exact readFile_lines getNodeaddr hdump ls
  · rw [show ((about u (ls.map (Line.entry getNodeaddr))).map tells).filter _ = _ from (ht u).received]
    exact received_shownBy tracers _
  · obtain ⟨ls', hf', ht'⟩ := written_powered hp
    have hsame : ls.map (Line.entry getNodeaddr) = ls'.map (Line.entry getNodeaddr) := by
      have hread := readFile_lines getNodeaddr hdump ls
      rw [← hf, hf', readFile_lines getNodeaddr hdump ls'] at hread
      exact (Option.some.inj hread).symm
    rw [hsame, show (about u (ls'.map (Line.entry getNodeaddr))).map tells = _ from ht' u]
    refine ⟨rfl, ?_⟩
    rw [drop_shownBy, dropped_iff hr]

end Run

/-! ## A trace in three formats -/

def zero : Word := ⟨"0.00".toList, by decide⟩

def still : Scene where
  time := zero
  x := zero
  y := zero
  z := zero
  energy := zero
  macType := "Mac/802_11"
  duration := zero
  ra := zero
  ta := zero
  etherType := zero
  smacDuration := zero
  dstAddr := 0
  srcAddr := 0
  nextNode := -1
  breakdown := none
  flowid := 0
  clock := by decide

/-- Node 0 prints tagged lines, node 1 new ones, the others old ones. -/
def mixed (n : Nsaddr) : Tracers where
  node := n
  snd := ⟨SEND, n, .RTR, n = 1, n = 0, .inr (.inl rfl)⟩
  rcv := ⟨RECV, n, .RTR, n = 1, n = 0, .inr (.inr (.inl rfl))⟩
  drp := ⟨DROP, n, .RTR, n = 1, n = 0, .inl rfl⟩
  snd_type := rfl
  rcv_type := rfl
  drp_type := rfl
  snd_src := rfl
  rcv_src := rfl
  drp_src := rfl

/-- The ant of `antTo2` on its way to node 2. -/
theorem trace_file_line : ∃ s : Traced ℚ, (traced id mixed (· ++ ['\n']) prependNb).Reachable s ∧
    ∃ es, readFile ['\n'] s.file = some es ∧ (about 0 es).map tells =
      [(.send, 0), (.recv, 1), (.send, 1), (.recv, 2), (.send, 2)] := by
  have hrun : (LTS.execGuarded (tracedStep id mixed (· ++ ['\n']) prependNb) Powered ⟨Net.boot, []⟩
      ((lineUp ++ [.expire 0 (idle [0, 2]), .deliver 0 0 9 (idle []), .deliver 0 0 9 (idle [])] :
        List (Act ℚ)).map fun l => ⟨l, still, still, true, true⟩)).map
        (fun s => shownBy mixed (s.net.hist 0)) =
      some [(.send, 0), (.recv, 1), (.send, 1), (.recv, 2), (.send, 2)] := by decide +kernel
  obtain ⟨s, hs, hp⟩ := Option.map_eq_some_iff.mp hrun
  have hr : ((traced id mixed (· ++ ['\n']) prependNb).guard Powered).Reachable s :=
    LTS.reachable_of_execGuarded ⟨boot_initial, rfl⟩ hs
  have hplain := LTS.reachable_of_guard hr
  have hdump : ∀ line : List Char, line ++ ['\n'] = line ++ ['\n'] := fun _ => rfl
  obtain ⟨-, es, hes, ht⟩ := trace_file hdump hplain
  exact ⟨s, hplain, es, hes, ((ht 0).2.2 hr).1.trans hp⟩

end AntNet.L4
