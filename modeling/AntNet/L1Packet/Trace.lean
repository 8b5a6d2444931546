import AntNet.Core.Printf
import AntNet.L1Packet.Header

/-!
# Trace lines of ants

`CMUTrace::format` on an ant writes four parts behind each other, in the
tagged, the new or the old format (`trace/cmu-trace.cc`): what happened where
(`format_mac_common`), the header of the MAC (`format_mac`, `format_smac`, in a
PHY trace `format_phy`), the IP header (`format_ip`) and the ant header
(`format_antnet`).

What the tracer prints and an ant does not carry is a `Scene`: texts of
`double`s and of the MAC headers, the node id of the next hop, the energy model
and the flow id. `TIME_FORMAT` and `get_nodeaddr` are not under src. Left out:
the nam line, which has a buffer of its own.

* `trace_line`: one reader reads the lines of all formats and gives back what
  was printed; no line is the start of another one.
-/
namespace AntNet.L1

open AntNet.Printf

/-- A text that the formats can delimit. -/
abbrev Word := {t : List Char // IsWord t}

/-! Event letters, trace/cmu-trace.h:51-57 -/

def DROP : Char := 'D'
def RECV : Char := 'r'
def SEND : Char := 's'
def FWRD : Char := 'f'
def EOT : Char := 'x'

/-- mirrors trace/cmu-trace.h:61-66 -/
inductive Tracetype where
  | TR_ROUTER
  | TR_MAC
  | TR_IFQ
  | TR_AGENT
  | TR_PHY
  deriving DecidableEq, Repr

/-- With another name the constructor ends the program. -/
inductive Tracename where
  | RTR
  | TRP
  | PHY
  | MAC
  | IFQ
  | AGT
  deriving DecidableEq, Repr

/-- mirrors trace/cmu-trace.cc:122-146 -/
def Tracename.tracetype : Tracename → Tracetype
  | RTR => .TR_ROUTER
  | TRP => .TR_ROUTER
  | PHY => .TR_PHY
  | MAC => .TR_MAC
  | IFQ => .TR_IFQ
  | AGT => .TR_AGENT

def Tracename.text : Tracename → Word
  | RTR => ⟨"RTR".toList, by decide⟩
  | TRP => ⟨"TRP".toList, by decide⟩
  | PHY => ⟨"PHY".toList, by decide⟩
  | MAC => ⟨"MAC".toList, by decide⟩
  | IFQ => ⟨"IFQ".toList, by decide⟩
  | AGT => ⟨"AGT".toList, by decide⟩

/-- `packet_info.name(PT_ANT)`, common/packet.h:394 -/
def antName : Word := ⟨"Ant".toList, by decide⟩

/-- A trace object of a node, with the assertion of its constructor. `tagged` is
its `pt_`'s.
mirrors trace/cmu-trace.cc:117-159 -/
structure CmuTrace where
  type : Char
  src : Int
  tracename : Tracename
  newtrace : Bool
  tagged : Bool
  typed : type = DROP ∨ type = SEND ∨ type = RECV ∨ type = EOT ∧ tracename.tracetype = .TR_MAC

structure EnergyUse where
  energy : Word
  ei : Word
  es : Word
  et : Word
  er : Word

/-- The clock is never negative, so its text does not start with a sign. -/
structure Scene where
  time : Word
  x : Word
  y : Word
  z : Word
  energy : Word
  /-- `Simulator::instance().macType()` -/
  macType : String
  duration : Word
  ra : Word
  ta : Word
  etherType : Word
  smacDuration : Word
  dstAddr : Int
  srcAddr : Int
  nextNode : Int
  breakdown : Option EnergyUse
  flowid : Int
  clock : time.1.head? ≠ some '-'

variable {K : Type} (getNodeaddr : Nsaddr → Int)

/-- mirrors trace/cmu-trace.cc:178,190-195 -/
def lineOp (t : CmuTrace) (p : Packet K) : Char :=
  if t.tracename.tracetype = .TR_ROUTER ∧ t.type = SEND ∧ t.src ≠ getNodeaddr p.ip.saddr then FWRD
  else t.type

/-- The event letter of the format. -/
def printedOp (t : CmuTrace) (p : Packet K) : Char :=
  let op := lineOp getNodeaddr t p
  if t.tagged then
    let op := if op = DROP then 'd' else op
    let op := if op = SEND then '+' else op
    if op = FWRD then 'h' else op
  else if t.newtrace then
    if op = DROP then 'd' else op
  else op

/-! ## The formats -/

def taggedMacCommon : Format :=
  fmt "%c %g -s %d -d %d -p %s -k %3s -i %d -N:loc {%.2f %.2f %.2f} -N:en %f "
def taggedMac : Format := fmt "-M:dur %x -M:s %x -M:d %x -M:t %x "
def taggedIp : Format := fmt "-IP:s %d -IP:sp %d -IP:d %d -IP:dp %d -p %s -e %d -c %d -i %d -IP:ttl %d "
def taggedAnt : Format := fmt "-ant:o %d -ant:s %d -ant:l %d "

def newMacCommon : Format :=
  fmt "%c -t %.9f -Hs %d -Hd %d -Ni %d -Nx %.2f -Ny %.2f -Nz %.2f -Ne %f -Nl %3s -Nw %s "
def newMac : Format := fmt "-Ma %x -Md %x -Ms %x -Mt %x "
def newIp : Format := fmt "-Is %d.%d -Id %d.%d -It %s -Il %d -If %d -Ii %d -Iv %d "
def newAnt : Format := fmt "-P ant -Po %d -Ps %d -Pl %d "

def oldMacCommon : Format := fmt "%c %.9f _%d_ %3s %4s %d %s %d"
def oldMac : Format := fmt " [%x %x %x %x] "
def smac : Format := fmt " [%.2f %d %d] "
def phy : Format := fmt " "
def oldEnergy : Format := fmt "[energy %f ei %.3f es %.3f et %.3f er %.3f] "
def oldIp : Format := fmt "------- [%d:%d %d:%d %d %d] "
def oldAnt : Format := fmt "[ant %d %d %d] "

/-- mirrors trace/cmu-trace.cc:364-418 -/
def formatMac (t : CmuTrace) (sc : Scene) : List Char :=
  let args := [.text sc.duration, .text sc.ra, .text sc.ta, .text sc.etherType]
  if t.tagged then sprintf taggedMac args
  else if t.newtrace then sprintf newMac args
  else sprintf oldMac args

/-- mirrors trace/cmu-trace.cc:420-429 -/
def formatSmac (sc : Scene) : List Char :=
  sprintf smac [.text sc.smacDuration, .int sc.dstAddr, .int sc.srcAddr]

/-- mirrors trace/cmu-trace.cc:162-353 -/
def formatMacCommon (t : CmuTrace) (sc : Scene) (p : Packet K) (why : Word) : List Char :=
  let op := printedOp getNodeaddr t p
  if t.tagged then
    sprintf taggedMacCommon
      [.text [op], .text sc.time, .int t.src, .int sc.nextNode, .text antName, .text t.tracename.text,
        .int p.cmn.uid, .text sc.x, .text sc.y, .text sc.z, .text sc.energy] ++
      if sc.macType = "Mac/SMAC" then formatSmac sc else formatMac t sc
  else if t.newtrace then
    sprintf newMacCommon
      [.text [op], .text sc.time, .int t.src, .int p.cmn.nextHop, .int t.src, .text sc.x, .text sc.y,
        .text sc.z, .text sc.energy, .text t.tracename.text, .text why] ++
      if sc.macType = "Mac/SMAC" then formatSmac sc else formatMac t sc
  else
    sprintf oldMacCommon
      [.text [op], .text sc.time, .int t.src, .text t.tracename.text, .text why, .int p.cmn.uid,
        .text antName, .int p.cmn.size] ++
      if t.tracename.tracetype = .TR_PHY then sprintf phy []
      else
        -- `strncmp` here, `strcmp` above
        (if "Mac/SMAC".toList <+: sc.macType.toList then formatSmac sc else formatMac t sc) ++
          match sc.breakdown with
          | some e =>
            sprintf oldEnergy [.text e.energy, .text e.ei, .text e.es, .text e.et, .text e.er]
          | none => []

/-- mirrors trace/cmu-trace.cc:432-474 -/
def formatIp (t : CmuTrace) (sc : Scene) (p : Packet K) : List Char :=
  let src := getNodeaddr p.ip.saddr
  let dst := getNodeaddr p.ip.daddr
  let args := [.int src, .int p.ip.sport, .int dst, .int p.ip.dport, .text antName, .int p.cmn.size,
    .int sc.flowid, .int p.cmn.uid, .int p.ip.ttl]
  if t.tagged then sprintf taggedIp args
  else if t.newtrace then sprintf newIp args
  else sprintf oldIp [.int src, .int p.ip.sport, .int dst, .int p.ip.dport, .int p.ip.ttl,
    .int (if p.cmn.nextHop < 0 then 0 else p.cmn.nextHop)]

/-- mirrors trace/cmu-trace.cc:1307-1326 -/
def formatAntnet (t : CmuTrace) (p : Packet K) : List Char :=
  let args := [.int p.ant.pktSrc, .int p.ant.pktSeqNum.toNat, .int p.ant.pktLen.toNat]
  if t.tagged then sprintf taggedAnt args
  else if t.newtrace then sprintf newAnt args
  else sprintf oldAnt args

/-- The way of an ant through the switch.
mirrors trace/cmu-trace.cc:1329-1356 -/
def format (t : CmuTrace) (sc : Scene) (p : Packet K) (why : Word) : List Char :=
  formatMacCommon getNodeaddr t sc p why ++ formatIp getNodeaddr t sc p ++ formatAntnet t p

/-! ## The reader -/

/-- What can be read from a line of any format. -/
structure Entry where
  op : Char
  time : List Char
  node : Int
  nextHop : Int
  uid : Int
  saddr : Int
  sport : Int
  daddr : Int
  dport : Int
  ttl : Int
  antSrc : Int
  antSeq : Int
  antLen : Int
  deriving DecidableEq, Repr

def entryOf (t : CmuTrace) (sc : Scene) (p : Packet K) : Entry where
  op := printedOp getNodeaddr t p
  time := sc.time
  node := t.src
  nextHop :=
    if t.tagged then sc.nextNode
    else if t.newtrace then p.cmn.nextHop
    else if p.cmn.nextHop < 0 then 0 else p.cmn.nextHop
  uid := p.cmn.uid
  saddr := getNodeaddr p.ip.saddr
  sport := p.ip.sport
  daddr := getNodeaddr p.ip.daddr
  dport := p.ip.dport
  ttl := p.ip.ttl
  antSrc := p.ant.pktSrc
  antSeq := p.ant.pktSeqNum.toNat
  antLen := p.ant.pktLen.toNat

/-- The format of a whole line, and where the entry's values stand among its arguments. -/
structure LineLayout where
  format : Format
  op : Nat
  time : Nat
  node : Nat
  nextHop : Nat
  uid : Nat
  saddr : Nat
  sport : Nat
  daddr : Nat
  dport : Nat
  ttl : Nat
  antSrc : Nat
  antSeq : Nat
  antLen : Nat

def intAt (as : List Arg) (i : Nat) : Option Int :=
  match as[i]? with
  | some (.int v) => some v
  | _ => none

def textAt (as : List Arg) (i : Nat) : Option (List Char) :=
  match as[i]? with
  | some (.text t) => some t
  | _ => none

namespace LineLayout

def entry (l : LineLayout) (as : List Arg) : Option Entry := do
  return {
    op := ← (← textAt as l.op).head?
    time := ← textAt as l.time
    node := ← intAt as l.node
    nextHop := ← intAt as l.nextHop
    uid := ← intAt as l.uid
    saddr := ← intAt as l.saddr
    sport := ← intAt as l.sport
    daddr := ← intAt as l.daddr
    dport := ← intAt as l.dport
    ttl := ← intAt as l.ttl
    antSrc := ← intAt as l.antSrc
    antSeq := ← intAt as l.antSeq
    antLen := ← intAt as l.antLen }

/-- The entry, and what follows the line. -/
def read (l : LineLayout) (cs : List Char) : Option (Entry × List Char) := do
  let (as, rest) ← scan l.format cs
  return (← l.entry as, rest)

/-! `mac` prints `k` arguments. -/

def newAt (mac : Format) (k : Nat) : LineLayout where
  format := newMacCommon ++ (mac ++ (newIp ++ newAnt))
  op := 0
  time := 1
  node := 2
  nextHop := 3
  uid := k + 18
  saddr := k + 11
  sport := k + 12
  daddr := k + 13
  dport := k + 14
  ttl := k + 19
  antSrc := k + 20
  antSeq := k + 21
  antLen := k + 22

def taggedAt (mac : Format) (k : Nat) : LineLayout where
  format := taggedMacCommon ++ (mac ++ (taggedIp ++ taggedAnt))
  op := 0
  time := 1
  node := 2
  nextHop := 3
  uid := 6
  saddr := k + 11
  sport := k + 12
  daddr := k + 13
  dport := k + 14
  ttl := k + 19
  antSrc := k + 20
  antSeq := k + 21
  antLen := k + 22

def oldAt (mac : Format) (k : Nat) : LineLayout where
  format := oldMacCommon ++ (mac ++ (oldIp ++ oldAnt))
  op := 0
  time := 1
  node := 2
  nextHop := k + 13
  uid := 5
  saddr := k + 8
  sport := k + 9
  daddr := k + 10
  dport := k + 11
  ttl := k + 12
  antSrc := k + 14
  antSeq := k + 15
  antLen := k + 16

def all : List LineLayout :=
  [newAt newMac 4, newAt smac 3, taggedAt taggedMac 4, taggedAt smac 3, oldAt oldMac 4,
    oldAt (oldMac ++ oldEnergy) 9, oldAt smac 3, oldAt (smac ++ oldEnergy) 8, oldAt phy 0]

/-- What `l` prints `r` does not read: they part at a literal, the first one being the `-t` where
the other formats have the time. -/
def rejects (r l : LineLayout) : Bool :=
  departs r.format l.format ||
    decide (r.format.take 3 = fmt "%c -" ∧ l.format.take 3 = fmt "%c %f")

end LineLayout

/-- Reads a line of any format. -/
def readLine (cs : List Char) : Option (Entry × List Char) := LineLayout.all.findSome? (·.read cs)

/-! ## What the formats ask for -/

theorem tagged_formats :
    taggedMacCommon.filterMap Piece.wantsInt =
      [false, false, true, true, false, false, true, false, false, false, false] ∧
    taggedMac.filterMap Piece.wantsInt = [false, false, false, false] ∧
    taggedIp.filterMap Piece.wantsInt = [true, true, true, true, false, true, true, true, true] ∧
    taggedAnt.filterMap Piece.wantsInt = [true, true, true] := by
  decide +kernel

theorem new_formats :
    newMacCommon.filterMap Piece.wantsInt =
      [false, false, true, true, true, false, false, false, false, false, false] ∧
    newMac.filterMap Piece.wantsInt = [false, false, false, false] ∧
    newIp.filterMap Piece.wantsInt = [true, true, true, true, false, true, true, true, true] ∧
    newAnt.filterMap Piece.wantsInt = [true, true, true] := by
  decide +kernel

theorem old_formats :
    oldMacCommon.filterMap Piece.wantsInt = [false, false, true, false, false, true, false, true] ∧
    oldMac.filterMap Piece.wantsInt = [false, false, false, false] ∧
    oldEnergy.filterMap Piece.wantsInt = [false, false, false, false, false] ∧
    oldIp.filterMap Piece.wantsInt = [true, true, true, true, true, true] ∧
    oldAnt.filterMap Piece.wantsInt = [true, true, true] := by
  decide +kernel

theorem smac_formats : smac.filterMap Piece.wantsInt = [false, true, true] ∧
    phy.filterMap Piece.wantsInt = [] := by
  decide +kernel

/-- No layout reads what a later one prints. -/
theorem layouts_apart : LineLayout.all.Pairwise fun r l => r.rejects l = true := by
  decide +kernel

theorem layouts_delimited : ∀ l ∈ LineLayout.all, Delimited l.format = true := by
  decide +kernel

/-! ## The lines of each format -/

section Lines

variable {t : CmuTrace} (sc : Scene) (p : Packet K) (why : Word)

theorem printedOp_mem (t : CmuTrace) :
    printedOp getNodeaddr t p ∈ ['D', 's', 'r', 'f', 'x', 'd', '+', 'h'] := by
  unfold printedOp lineOp
  rcases t.typed with h | h | h | ⟨h, -⟩ <;> simp only [h] <;> split_ifs <;> decide

/-- An event prints as one letter. -/
theorem isWord_op (t : CmuTrace) : IsWord [printedOp getNodeaddr t p] := by
  have hall : ['D', 's', 'r', 'f', 'x', 'd', '+', 'h'].all (fun c => decide (IsWord [c])) = true := by
    decide
  exact of_decide_eq_true (List.all_eq_true.mp hall _ (printedOp_mem getNodeaddr p t))

@[simp] theorem ok_int (i : Int) : (Arg.int i).Ok ↔ True := Iff.rfl

@[simp] theorem ok_text (t : List Char) : (Arg.text t).Ok ↔ IsWord t := Iff.rfl

@[simp] theorem isWord_val (w : Word) : IsWord w.1 := w.2

/-- The line is printed with the format of `l`, from arguments that fit it and
stand where `l` says; the event and the time come first. -/
def PrintedBy (l : LineLayout) (line : List Char) (e : Entry) : Prop :=
  ∃ as, line = sprintf l.format as ∧ Fits l.format as ∧ l.entry as = some e ∧
    ∃ bs, as = [.text [e.op]] ++ .text e.time :: bs

variable {mac : Format} {args : List Arg}

theorem format_tagged (ht : t.tagged = true) (hm : Fits mac args)
    (hl : (if sc.macType = "Mac/SMAC" then formatSmac sc else formatMac t sc) = sprintf mac args) :
    PrintedBy (.taggedAt mac args.length) (format getNodeaddr t sc p why) (entryOf getNodeaddr t sc p) := by
  obtain ⟨k1, -, k3, k4⟩ := tagged_formats
  have h1 : Fits taggedMacCommon
      [.text [printedOp getNodeaddr t p], .text sc.time, .int t.src, .int sc.nextNode, .text antName,
        .text t.tracename.text, .int p.cmn.uid, .text sc.x, .text sc.y, .text sc.z, .text sc.energy] :=
    ⟨k1, by simp [isWord_op]⟩
  have h3 : Fits taggedIp
      [.int (getNodeaddr p.ip.saddr), .int p.ip.sport, .int (getNodeaddr p.ip.daddr), .int p.ip.dport,
        .text antName, .int p.cmn.size, .int sc.flowid, .int p.cmn.uid, .int p.ip.ttl] :=
    ⟨k3, by simp⟩
  have h4 : Fits taggedAnt [.int p.ant.pktSrc, .int p.ant.pktSeqNum.toNat, .int p.ant.pktLen.toNat] :=
    ⟨k4, by simp⟩
  refine ⟨_, ?_, h1.append (hm.append (h3.append h4)), ?_, _, rfl⟩
  · simp only [LineLayout.taggedAt, sprintf_append h1, sprintf_append hm, sprintf_append h3]
    simp [format, formatMacCommon, formatIp, formatAntnet, ht, hl]
  · simp [LineLayout.entry, LineLayout.taggedAt, entryOf, textAt, intAt, ht]

theorem format_new (ht : t.tagged = false) (hn : t.newtrace = true) (hm : Fits mac args)
    (hl : (if sc.macType = "Mac/SMAC" then formatSmac sc else formatMac t sc) = sprintf mac args) :
    PrintedBy (.newAt mac args.length) (format getNodeaddr t sc p why) (entryOf getNodeaddr t sc p) := by
  obtain ⟨k1, -, k3, k4⟩ := new_formats
  have h1 : Fits newMacCommon
      [.text [printedOp getNodeaddr t p], .text sc.time, .int t.src, .int p.cmn.nextHop, .int t.src,
        .text sc.x, .text sc.y, .text sc.z, .text sc.energy, .text t.tracename.text, .text why] :=
    ⟨k1, by simp [isWord_op]⟩
  have h3 : Fits newIp
      [.int (getNodeaddr p.ip.saddr), .int p.ip.sport, .int (getNodeaddr p.ip.daddr), .int p.ip.dport,
        .text antName, .int p.cmn.size, .int sc.flowid, .int p.cmn.uid, .int p.ip.ttl] :=
    ⟨k3, by simp⟩
  have h4 : Fits newAnt [.int p.ant.pktSrc, .int p.ant.pktSeqNum.toNat, .int p.ant.pktLen.toNat] :=
    ⟨k4, by simp⟩
  refine ⟨_, ?_, h1.append (hm.append (h3.append h4)), ?_, _, rfl⟩
  · simp only [LineLayout.newAt, sprintf_append h1, sprintf_append hm, sprintf_append h3]
    simp [format, formatMacCommon, formatIp, formatAntnet, ht, hn, hl]
  · simp [LineLayout.entry, LineLayout.newAt, entryOf, textAt, intAt, ht, hn]

/-- `mac` prints all that stands between the common part and the IP header. -/
theorem format_old (ht : t.tagged = false) (hn : t.newtrace = false) (hm : Fits mac args)
    (hl : formatMacCommon getNodeaddr t sc p why = sprintf oldMacCommon
      [.text [printedOp getNodeaddr t p], .text sc.time, .int t.src, .text t.tracename.text, .text why,
        .int p.cmn.uid, .text antName, .int p.cmn.size] ++ sprintf mac args) :
    PrintedBy (.oldAt mac args.length) (format getNodeaddr t sc p why) (entryOf getNodeaddr t sc p) := by
  obtain ⟨k1, -, -, k3, k4⟩ := old_formats
  have h1 : Fits oldMacCommon
      [.text [printedOp getNodeaddr t p], .text sc.time, .int t.src, .text t.tracename.text, .text why,
        .int p.cmn.uid, .text antName, .int p.cmn.size] := ⟨k1, by simp [isWord_op]⟩
  have h3 : Fits oldIp
      [.int (getNodeaddr p.ip.saddr), .int p.ip.sport, .int (getNodeaddr p.ip.daddr), .int p.ip.dport,
        .int p.ip.ttl, .int (if p.cmn.nextHop < 0 then 0 else p.cmn.nextHop)] := ⟨k3, by simp⟩
  have h4 : Fits oldAnt [.int p.ant.pktSrc, .int p.ant.pktSeqNum.toNat, .int p.ant.pktLen.toNat] :=
    ⟨k4, by simp⟩
  refine ⟨_, ?_, h1.append (hm.append (h3.append h4)), ?_, _, rfl⟩
  · simp only [LineLayout.oldAt, sprintf_append h1, sprintf_append hm, sprintf_append h3]
    simp [format, formatIp, formatAntnet, ht, hn, hl]
  · simp [LineLayout.entry, LineLayout.oldAt, entryOf, textAt, intAt, ht, hn]

theorem fits_smac : Fits smac [.text sc.smacDuration, .int sc.dstAddr, .int sc.srcAddr] :=
  ⟨smac_formats.1, by simp⟩

/-- **The format of a line.** -/
theorem format_printed (t : CmuTrace) : ∃ l ∈ LineLayout.all,
    PrintedBy l (format getNodeaddr t sc p why) (entryOf getNodeaddr t sc p) := by
  have hargs : ∀ a ∈ [Arg.text sc.duration, .text sc.ra, .text sc.ta, .text sc.etherType], a.Ok := by simp
  by_cases ht : t.tagged = true
  · by_cases hs : sc.macType = "Mac/SMAC"
    · refine ⟨_, ?_, format_tagged getNodeaddr sc p why ht (fits_smac sc) ?_⟩
      · simp [LineLayout.all]
      · rw [if_pos hs, formatSmac]
    · refine ⟨_, ?_, format_tagged getNodeaddr sc p why ht ⟨tagged_formats.2.1, hargs⟩ ?_⟩
      · simp [LineLayout.all]
      · rw [if_neg hs, formatMac, if_pos ht]
  rw [Bool.not_eq_true] at ht
  by_cases hn : t.newtrace = true
  · by_cases hs : sc.macType = "Mac/SMAC"
    · refine ⟨_, ?_, format_new getNodeaddr sc p why ht hn (fits_smac sc) ?_⟩
      · simp [LineLayout.all]
      · rw [if_pos hs, formatSmac]
    · refine ⟨_, ?_, format_new getNodeaddr sc p why ht hn ⟨new_formats.2.1, hargs⟩ ?_⟩
      · simp [LineLayout.all]
      · rw [if_neg hs, formatMac, if_neg (by simp [ht]), if_pos hn]
  rw [Bool.not_eq_true] at hn
  obtain ⟨-, km, ke, -, -⟩ := old_formats
  have hmac : Fits oldMac [.text sc.duration, .text sc.ra, .text sc.ta, .text sc.etherType] := ⟨km, hargs⟩
  have henergy : ∀ e : EnergyUse,
      Fits oldEnergy [.text e.energy, .text e.ei, .text e.es, .text e.et, .text e.er] :=
    fun e => ⟨ke, by simp⟩
  have hphys : Fits phy [] := ⟨smac_formats.2, by simp⟩
  by_cases hphy : t.tracename.tracetype = .TR_PHY
  · refine ⟨_, ?_, format_old getNodeaddr sc p why ht hn hphys ?_⟩
    · simp [LineLayout.all]
    · simp only [formatMacCommon, ht, hn, hphy, if_true, if_false, Bool.false_eq_true]
  by_cases hs : "Mac/SMAC".toList <+: sc.macType.toList
  · cases hb : sc.breakdown with
    | none =>
      refine ⟨_, ?_, format_old getNodeaddr sc p why ht hn (fits_smac sc) ?_⟩
      · simp [LineLayout.all]
      · simp only [formatMacCommon, ht, hn, hphy, hs, hb, formatSmac, if_true, if_false, List.append_nil,
          Bool.false_eq_true]
    | some e =>
      refine ⟨_, ?_, format_old getNodeaddr sc p why ht hn ((fits_smac sc).append (henergy e)) ?_⟩
      · simp [LineLayout.all]
      · simp only [formatMacCommon, ht, hn, hphy, hs, hb, formatSmac, if_true, if_false,
          sprintf_append (fits_smac sc), Bool.false_eq_true]
  · cases hb : sc.breakdown with
    | none =>
      refine ⟨_, ?_, format_old getNodeaddr sc p why ht hn hmac ?_⟩
      · simp [LineLayout.all]
      · simp only [formatMacCommon, ht, hn, hphy, hs, hb, formatMac, if_false, List.append_nil,
          Bool.false_eq_true]
    | some e =>
      refine ⟨_, ?_, format_old getNodeaddr sc p why ht hn (hmac.append (henergy e)) ?_⟩
      · simp [LineLayout.all]
      · simp only [formatMacCommon, ht, hn, hphy, hs, hb, formatMac, if_false, sprintf_append hmac,
          Bool.false_eq_true]

/-! ## Reading a line back -/

section Read

variable {r l : LineLayout} {line : List Char} {e : Entry}

theorem read_printed (hd : Delimited l.format = true) (h : PrintedBy l line e) (rest : List Char) :
    l.read (line ++ rest) = some (e, rest) := by
  obtain ⟨as, rfl, hf, he, -⟩ := h
  unfold LineLayout.read
  rw [scan_sprintf hf hd]
  simp [he]

theorem read_rejects (hr : r.rejects l = true) (h : PrintedBy l line e) (ht : e.time.head? ≠ some '-')
    (rest : List Char) : r.read (line ++ rest) = none := by
  obtain ⟨as, rfl, hf, -, bs, rfl⟩ := h
  have hscan : scan r.format (sprintf l.format ([.text [e.op]] ++ .text e.time :: bs) ++ rest) = none := by
    rw [LineLayout.rejects, Bool.or_eq_true, decide_eq_true_eq] at hr
    rcases hr with hdep | ⟨hnew, hword⟩
    · exact scan_departs hf hdep rest
    · have hop : Fits (fmt "%c ") [.text [e.op]] :=
        ⟨rfl, fun a ha => hf.words a (List.mem_append_left _ ha)⟩
      have htime := hf.words _ (List.mem_append_right _ List.mem_cons_self)
      rw [starts (hnew.trans (show fmt "%c -" = fmt "%c " ++ [.lit '-'] from rfl)),
        starts (hword.trans (show fmt "%c %f" = fmt "%c " ++ [.word 0] from rfl))]
      exact scan_departs_word (by decide +kernel) htime ht _ hop rest
  unfold LineLayout.read
  rw [hscan]
  rfl

/-- The first layout that reads the line is the one that printed it. -/
theorem read_first {ls : List LineLayout} (hp : ls.Pairwise fun r l => r.rejects l = true)
    (hd : ∀ l ∈ ls, Delimited l.format = true) (hl : l ∈ ls) (h : PrintedBy l line e)
    (ht : e.time.head? ≠ some '-') (rest : List Char) :
    ls.findSome? (·.read (line ++ rest)) = some (e, rest) := by
  induction ls with
  | nil => cases hl
  | cons r ls ih =>
    obtain ⟨hrej, hp⟩ := List.pairwise_cons.mp hp
    rw [List.findSome?_cons]
    rcases List.mem_cons.mp hl with rfl | hl
    · rw [read_printed (hd _ List.mem_cons_self) h]
    · rw [read_rejects (hrej l hl) h ht]
      exact ih hp (fun l' hl' => hd l' (List.mem_cons_of_mem _ hl')) hl

end Read

/-- **One reader for all formats.** Every line is read back as what was
printed, with what follows it left over. -/
theorem readLine_format (t : CmuTrace) (rest : List Char) :
    readLine (format getNodeaddr t sc p why ++ rest) = some (entryOf getNodeaddr t sc p, rest) := by
  obtain ⟨l, hl, h⟩ := format_printed getNodeaddr sc p why t
  exact read_first layouts_apart layouts_delimited hl h sc.clock rest

/-- **A trace line says what it was printed for.** Whatever follows it, it is
read back; two lines with any two continuations are the same text only if they
print the same entry, and then the continuations are the same. -/
theorem trace_line (t : CmuTrace) :
    (∀ rest, readLine (format getNodeaddr t sc p why ++ rest) =
      some (entryOf getNodeaddr t sc p, rest)) ∧
    ∀ (t' : CmuTrace) (sc' : Scene) (p' : Packet K) (why' : Word) (rest rest' : List Char),
      format getNodeaddr t sc p why ++ rest = format getNodeaddr t' sc' p' why' ++ rest' →
        entryOf getNodeaddr t sc p = entryOf getNodeaddr t' sc' p' ∧ rest = rest' := by
  refine ⟨readLine_format getNodeaddr sc p why t, fun t' sc' p' why' rest rest' he => ?_⟩
  have h := readLine_format getNodeaddr sc p why t rest
  rw [he, readLine_format getNodeaddr sc' p' why' t' rest', Option.some.injEq, Prod.mk.injEq] at h
  exact ⟨h.1.symm, h.2.symm⟩

end Lines

end AntNet.L1
