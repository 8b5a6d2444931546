import AntNet.Core.Responders
import AntNet.L1Packet.Header

/-!
# Packet kinds of dynamic libraries

`p_info::classify` knows some packet types; the others it asks the registered
classifiers, the last one first (common/packet.h:210-285). `CMUTrace` has the
same list of packet tracers for the types its own formats leave out
(trace/cmu-trace.cc:73-99,1393-1397). Neither list is checked for what is in it
already: registered again, an entry comes first, and what stood behind its old
place is cut off. `getClass` and `format` are the libraries', here functions.

* `classify_iff`: what `classify` returns, and when it does not return.
* `formatUnknow_iff`: the same for the tracers.
-/
namespace AntNet.L1

open Responders

/-- mirrors `packetClass`, common/packet.h:192-197 -/
inductive PacketClass where
  | UNCLASSIFIED | ROUTING | DATApkt
  deriving DecidableEq, Repr

variable {C : Type}

/-- `fuel` calls at most.
mirrors common/packet.h:215-221 -/
def PacketClassifier.classify (next : C → Option C) (getClass : C → Nat → PacketClass) (type : Nat) :
    Nat → C → Option PacketClass
  | 0, _ => none
  | k + 1, pc =>
    let c := getClass pc type
    if c = .UNCLASSIFIED then
      match next pc with
      | some pc' => classify next getClass type k pc'
      | none => some c
    else some c

/-- `PT_DSR`, `PT_MESSAGE`, `PT_TORA`, `PT_AODV`, `PT_ANT` -/
def routingTypes : List Nat := [37, 13, 36, 38, PT_ANT]

/-- `PT_TCP`, `PT_TELNET`, `PT_CBR`, `PT_AUDIO`, `PT_VIDEO`, `PT_ACK`, `PT_SCTP`, `PT_SCTP_APP1`,
`PT_HDLC` -/
def dataTypes : List Nat := [0, 26, 2, 3, 4, 5, 55, 56, 59]

/-- mirrors common/packet.h:251-272 -/
def classify (s : Responders C) (getClass : C → Nat → PacketClass) (type k : Nat) :
    Option PacketClass :=
  if type ∈ routingTypes then some .ROUTING
  else if type ∈ dataTypes then some .DATApkt
  else
    match s.head with
    | some pc => PacketClassifier.classify s.next getClass type k pc
    | none => some .UNCLASSIFIED

/-- mirrors trace/cmu-trace.cc:86-89 -/
def formatUnknow (next : C → Option C) (format : C → Bool) : Nat → C → Option Bool
  | 0, _ => none
  | k + 1, pt =>
    if format pt then some true
    else
      match next pt with
      | some pt' => formatUnknow next format k pt'
      | none => some false

/-- mirrors trace/cmu-trace.cc:1395 -/
def traceUnknow (s : Responders C) (format : C → Bool) (k : Nat) : Option Bool :=
  match s.head with
  | some pt => formatUnknow s.next format k pt
  | none => some false

/-- `addPacketClassifier`, `addPacketTracer`: a null pointer is left out.
mirrors common/packet.h:273-279, trace/cmu-trace.cc:93-99 -/
def addPacketClassifier [DecidableEq C] (s : Responders C) : Option C → Responders C
  | none => s
  | some pc => s.register pc

section Lists

variable {next : C → Option C} {getClass : C → Nat → PacketClass} {type : Nat}

def known (getClass : C → Nat → PacketClass) (type : Nat) (pc : C) : Option PacketClass :=
  if getClass pc type = .UNCLASSIFIED then none else some (getClass pc type)

theorem classify_eq_ask (k : Nat) (pc : C) : PacketClassifier.classify next getClass type k pc =
    (ask next (known getClass type) k (some pc)).map fun r => r.getD .UNCLASSIFIED := by
  induction k generalizing pc with
  | zero => rfl
  | succ k ih =>
    rw [PacketClassifier.classify, ask, known]
    by_cases hc : getClass pc type = .UNCLASSIFIED
    · simp only [hc, if_true]
      cases next pc with
      | none => cases k <;> rfl
      | some pc' => exact ih pc'
    · simp [hc]

def hasFormat (format : C → Bool) (pt : C) : Option Unit := if format pt then some () else none

theorem formatUnknow_eq_ask {format : C → Bool} (k : Nat) (pt : C) : formatUnknow next format k pt =
    (ask next (hasFormat format) k (some pt)).map Option.isSome := by
  induction k generalizing pt with
  | zero => rfl
  | succ k ih =>
    rw [formatUnknow, ask, hasFormat]
    by_cases hf : format pt = true
    · simp [hf]
    · simp only [hf, Bool.false_eq_true, if_false]
      cases next pt with
      | none => cases k <;> rfl
      | some pt' => exact ih pt'

theorem known_ne {l : List C} {c : PacketClass} (h : l.findSome? (known getClass type) = some c) :
    c ≠ .UNCLASSIFIED := by
  obtain ⟨pc, -, hpc⟩ := List.exists_of_findSome?_eq_some h
  unfold known at hpc
  split at hpc
  · cases hpc
  · rename_i hc
    exact fun he => hc ((Option.some.inj hpc).trans he)

section Script

variable [DecidableEq C]

theorem foldl_add (script : List (Option C)) (s : Responders C) :
    script.foldl addPacketClassifier s = (script.filterMap id).foldl register s := by
  induction script generalizing s with
  | nil => rfl
  | cons pc script ih =>
    cases pc with
    | none => exact ih s
    | some pc => exact ih (s.register pc)

/-- **What a packet type is classified as**, after any registrations. Types of
the program itself keep their class. Another type has the class that the first
of the recent classifiers gives it; if none gives it one, it is unclassified,
or, when some classifier was registered twice, the call never returns. -/
theorem classify_iff (getClass : C → Nat → PacketClass) (type : Nat) (script : List (Option C))
    (c : PacketClass) :
    (∃ k, classify (script.foldl addPacketClassifier empty) getClass type k = some c) ↔
      if type ∈ routingTypes then c = .ROUTING
      else if type ∈ dataTypes then c = .DATApkt
      else c = ((recent (script.filterMap id)).findSome? (known getClass type)).getD .UNCLASSIFIED ∧
        (c = .UNCLASSIFIED → (script.filterMap id).Nodup) := by
  unfold classify
  rw [foldl_add]
  split
  · simp [eq_comm]
  split
  · simp [eq_comm]
  rw [walk_iff (script.filterMap id) (known getClass type) (fun r => r.getD .UNCLASSIFIED) fun k => ?_]
  · constructor
    · rintro ⟨rfl, hn⟩
      refine ⟨rfl, fun hc => hn ?_⟩
      cases hf : (recent (script.filterMap id)).findSome? (known getClass type) with
      | none => rfl
      | some c =>
        rw [hf] at hc
        exact absurd hc (known_ne hf)
    · rintro ⟨rfl, hn⟩
      refine ⟨rfl, fun hr => hn ?_⟩
      rw [hr]
      rfl
  · cases ((script.filterMap id).foldl register empty).head with
    | none => cases k <;> rfl
    | some pc => exact classify_eq_ask k pc

/-- **Whether a tracer formats a packet**, after any registrations. -/
theorem formatUnknow_iff (format : C → Bool) (script : List (Option C)) (b : Bool) :
    (∃ k, traceUnknow (script.foldl addPacketClassifier empty) format k = some b) ↔
      b = (recent (script.filterMap id)).any format ∧ (b = false → (script.filterMap id).Nodup) := by
  have hany : (recent (script.filterMap id)).any format =
      ((recent (script.filterMap id)).findSome? (hasFormat format)).isSome := by
    rw [Bool.eq_iff_iff, List.findSome?_isSome_iff, List.any_eq_true]
    simp [hasFormat]
  unfold traceUnknow
  rw [foldl_add, hany]
  rw [walk_iff (script.filterMap id) (hasFormat format) Option.isSome fun k => ?_]
  · constructor
    · rintro ⟨rfl, hn⟩
      exact ⟨rfl, fun hb => hn (by simpa using hb)⟩
    · rintro ⟨rfl, hn⟩
      exact ⟨rfl, fun hr => hn (by rw [hr]; rfl)⟩
  · cases ((script.filterMap id).foldl register empty).head with
    | none => cases k <;> rfl
    | some pt => exact formatUnknow_eq_ask k pt

end Script

end Lists

end AntNet.L1
