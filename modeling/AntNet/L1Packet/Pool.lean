import AntNet.Core.Chain
import AntNet.Core.LTS
import AntNet.L1Packet.Header

/-!
# The packet pool

`Packet::alloc`, `copy`, `refcopy` and `free` of common/packet.h: packets that
are freed are kept on a list linked through `next_` and handed out again.
Packets are addresses of a memory; `fflag_` says that a packet is in use, and
`ref_count_ + 1` parts of the program own it then.

Of the header bytes the three fields `alloc` sets are written out. `time_`,
`txinfo_` and `incoming` are left out.

The rest of the program (`Uses`) writes to a packet, links it in a queue, puts
it in the event list or copies it only while the packet is in use; what it
calls `free` on is any packet there ever was.

* `alloc_sound`: in every run, what `alloc` and `copy` hand out nobody owns,
  with a clean header, and no assertion fails.
* `pool_refines`: in every run the owners are those of a reference count, and
  the free list holds the packets without owners, once each and zeroed.
-/
namespace AntNet.L1.FreeList

open AntNet.L1

/-- The header bytes; `rest` are those outside the three fields. -/
structure Bits where
  nextHop : Nsaddr
  lastHop : Nsaddr
  direction : Dir
  rest : List UInt8
  deriving DecidableEq, Repr

/-- mirrors class Packet, common/packet.h:463-478 -/
structure Packet where
  bits : Bits
  data : Option (List UInt8)
  fflag : Bool
  refCount : Int
  next : Option Nat
  uid : Int
  deriving DecidableEq, Repr

structure Pool where
  mem : Nat → Packet
  /-- how many packets `new` has made -/
  count : Nat
  free : Option Nat

/-- `bzero(p->bits_, hdrlen_)`
mirrors common/packet.h:670-673 -/
def zeroed (hdrlen : Nat) : Bits := ⟨0, 0, .NONE, List.replicate hdrlen 0⟩

/-- The header of a packet from `alloc`. -/
def blank (hdrlen : Nat) : Bits := { zeroed hdrlen with nextHop := -2, lastHop := -2, direction := .DOWN }

def set (s : Pool) (p : Nat) (o : Packet) : Pool := { s with mem := Function.update s.mem p o }

/-- `none` where an assertion fails.
mirrors common/packet.h:675-699 -/
def alloc (hdrlen : Nat) (s : Pool) : Option (Nat × Pool) :=
  match s.free with
  | some p =>
    let o := s.mem p
    if o.fflag = false ∧ o.data = none then
      some (p, { set s p { o with uid := 0, bits := blank hdrlen, fflag := true, next := none } with
        free := o.next })
    else none
  | none =>
    some (s.count, { set s s.count ⟨blank hdrlen, none, true, 0, none, 0⟩ with count := s.count + 1 })

/-- `none` where an assertion fails.
mirrors common/packet.h:724-746 -/
def free (hdrlen : Nat) (s : Pool) (p : Nat) : Option Pool :=
  let o := s.mem p
  if o.fflag then
    if o.refCount = 0 then
      if o.uid ≤ 0 then
        some { set s p { o with data := none, bits := zeroed hdrlen, next := s.free, fflag := false } with
          free := some p }
      else none
    else some (set s p { o with refCount := o.refCount - 1 })
  else some s

/-- mirrors common/packet.h:748-757 -/
def copy (hdrlen : Nat) (s : Pool) (p : Nat) : Option (Nat × Pool) :=
  match alloc hdrlen s with
  | some (q, s') =>
    let o := s'.mem p
    let c := s'.mem q
    some (q, set s' q { c with bits := o.bits, data := if o.data.isSome then o.data else c.data })
  | none => none

/-- mirrors common/packet.h:481 -/
def refcopy (s : Pool) (p : Nat) : Pool :=
  set s p { s.mem p with refCount := (s.mem p).refCount + 1 }

/-- mirrors common/packet.h:706-712 -/
def allocdata (s : Pool) (p : Nat) (bytes : List UInt8) : Option Pool :=
  if (s.mem p).data = none then some (set s p { s.mem p with data := some bytes }) else none

/-! ## Runs -/

inductive Op where
  | alloc
  | copy (p : Nat)
  | refcopy (p : Nat)
  | free (p : Nat)
  | allocdata (p : Nat) (bytes : List UInt8)
  | setdata (p : Nat) (d : Option (List UInt8))
  /-- a write to the header -/
  | write (p : Nat) (b : Bits)
  /-- a queue links the packet -/
  | link (p : Nat) (q : Option Nat)
  /-- the scheduler numbers the event, and takes the number back -/
  | schedule (p : Nat) (uid : Int)

def step (hdrlen : Nat) (s : Pool) : Op → Option Pool
  | .alloc => (alloc hdrlen s).map Prod.snd
  | .copy p => (copy hdrlen s p).map Prod.snd
  | .refcopy p => some (refcopy s p)
  | .free p => free hdrlen s p
  | .allocdata p bytes => allocdata s p bytes
  | .setdata p d => some (set s p { s.mem p with data := d })
  | .write p b => some (set s p { s.mem p with bits := b })
  | .link p q => some (set s p { s.mem p with next := q })
  | .schedule p u => some (set s p { s.mem p with uid := u })

/-- No packet yet. -/
def Empty (s : Pool) : Prop := s.count = 0 ∧ s.free = none

def pool (hdrlen : Nat) : LTS Pool Op := LTS.ofFn Empty (step hdrlen)

def InUse (s : Pool) (p : Nat) : Prop := p < s.count ∧ (s.mem p).fflag = true

instance (s : Pool) (p : Nat) : Decidable (InUse s p) := by unfold InUse; infer_instance

/-- What the rest of the program does to packets. -/
def Uses (s : Pool) : Op → Prop
  | .alloc => True
  | .free p => p < s.count
  | .copy p | .refcopy p | .allocdata p _ | .setdata p _ | .write p _ | .link p _ | .schedule p _ =>
    InUse s p

instance (s : Pool) : (e : Op) → Decidable (Uses s e)
  | .alloc => inferInstanceAs (Decidable True)
  | .free p => inferInstanceAs (Decidable (p < s.count))
  | .copy p | .refcopy p | .allocdata p _ | .setdata p _ | .write p _ | .link p _ | .schedule p _ =>
    inferInstanceAs (Decidable (InUse s p))

/-! ## The free list -/

section Invariant

variable {hdrlen : Nat} {s s' : Pool} {p q : Nat} {o : Packet}

/-- How many parts of the program own a packet. -/
def owners (s : Pool) (p : Nat) : Nat := if InUse s p then (s.mem p).refCount.toNat + 1 else 0

/-- The links of the packets. -/
def links (s : Pool) (p : Nat) : Option Nat := (s.mem p).next

@[simp] theorem set_count (s : Pool) (p : Nat) (o : Packet) : (set s p o).count = s.count := rfl

@[simp] theorem set_free (s : Pool) (p : Nat) (o : Packet) : (set s p o).free = s.free := rfl

@[simp] theorem set_mem_self (s : Pool) (p : Nat) (o : Packet) : (set s p o).mem p = o :=
  Function.update_self ..

@[simp] theorem set_mem_ne (s : Pool) (o : Packet) (h : q ≠ p) : (set s p o).mem q = s.mem q :=
  Function.update_of_ne h ..

theorem links_set (s : Pool) (p : Nat) (o : Packet) :
    links (set s p o) = Function.update (links s) p o.next := by
  funext q
  by_cases h : q = p
  · subst h
    simp [links]
  · simp [links, h]

/-- What holds of the pool at any time. -/
structure Inv (hdrlen : Nat) (s : Pool) : Prop where
  chain : ∃ l, Chain (links s) s.free l ∧ ∀ p, p ∈ l ↔ p < s.count ∧ (s.mem p).fflag = false
  clean : ∀ p < s.count, (s.mem p).fflag = false →
    (s.mem p).data = none ∧ (s.mem p).bits = zeroed hdrlen ∧ (s.mem p).refCount = 0
  refs : ∀ p < s.count, 0 ≤ (s.mem p).refCount

/-- A packet in use may change in all but its flag. -/
theorem inv_touch (h : Inv hdrlen s) (hp : InUse s p) (ho : o.fflag = true) (hr : 0 ≤ o.refCount) :
    Inv hdrlen (set s p o) := by
  obtain ⟨l, hc, hl⟩ := h.chain
  have hfree : p ∉ l := by
    intro hm
    have := ((hl p).mp hm).2
    rw [hp.2] at this; cases this
  refine ⟨⟨l, ?_, fun q => ?_⟩, fun q hq hf => ?_, fun q hq => ?_⟩
  · rw [links_set]
    refine hc.congr fun q hq => Function.update_of_ne ?_ _ _
    rintro rfl
    exact hfree hq
  · by_cases hqp : q = p
    · subst hqp
      simp [hfree, ho]
    · simp [hqp, hl]
  · by_cases hqp : q = p
    · subst hqp
      simp [ho] at hf
    · simp only [set_mem_ne s o hqp] at hf ⊢
      exact h.clean q hq hf
  · by_cases hqp : q = p
    · subst hqp
      simpa using hr
    · simpa [hqp] using h.refs q hq

/-- What `alloc` hands out: a packet with a clean header that nobody owned. -/
structure Handed (hdrlen : Nat) (s : Pool) (p : Nat) (s' : Pool) : Prop where
  unowned : owners s p = 0
  packet : s'.mem p = ⟨blank hdrlen, none, true, 0, none, 0⟩
  known : p < s'.count
  others : ∀ q, q ≠ p → s'.mem q = s.mem q ∧ (q < s'.count ↔ q < s.count)
  grown : s'.count ≠ s.count → ∀ q < s.count, (s.mem q).fflag = true

/-- The list is empty: a new packet. -/
theorem alloc_new (h : Inv hdrlen s) (hf : s.free = none) : ∃ s', alloc hdrlen s = some (s.count, s') ∧
    Handed hdrlen s s.count s' ∧ Inv hdrlen s' := by
  obtain ⟨l, hc, hl⟩ := h.chain
  rw [hf] at hc
  cases hc
  have hall : ∀ q < s.count, (s.mem q).fflag = true := by
    intro q hq
    by_contra hne
    have := (hl q).mpr ⟨hq, by simpa using hne⟩
    cases this
  have hcases : ∀ q, q < s.count + 1 → q = s.count ∨ q ≠ s.count ∧ q < s.count := by omega
  refine ⟨_, by unfold alloc; rw [hf], ⟨?_, by simp, by simp, ?_, fun _ => hall⟩, ?_, ?_, ?_⟩
  · simp [owners, InUse]
  · intro q hq
    refine ⟨by simp [hq], ?_⟩
    show q < s.count + 1 ↔ q < s.count
    omega
  · refine ⟨[], ?_, fun q => ?_⟩
    · show Chain _ s.free []
      rw [hf]
      exact .nil
    · refine iff_of_false (by simp) fun ⟨hq, hff⟩ => ?_
      rcases hcases q hq with rfl | ⟨hne, hlt⟩
      · simp at hff
      · simp [hne, hall q hlt] at hff
  · intro q hq hff
    rcases hcases q hq with rfl | ⟨hne, hlt⟩
    · simp at hff
    · simp [hne, hall q hlt] at hff
  · intro q hq
    rcases hcases q hq with rfl | ⟨hne, hlt⟩
    · simp
    · simpa [hne] using h.refs q hlt

/-- The first one of the list. -/
theorem alloc_again (h : Inv hdrlen s) (hf : s.free = some p) : ∃ s', alloc hdrlen s = some (p, s') ∧
    Handed hdrlen s p s' ∧ Inv hdrlen s' := by
  obtain ⟨l, hc, hl⟩ := h.chain
  have hnd := hc.nodup
  rw [hf] at hc
  cases hc with
  | @cons _ l hc =>
    obtain ⟨hp, hff⟩ := (hl p).mp List.mem_cons_self
    obtain ⟨hdata, -, href⟩ := h.clean p hp hff
    have hpl : p ∉ l := (List.nodup_cons.mp hnd).1
    have hout : alloc hdrlen s = some (p, { set s p ⟨blank hdrlen, none, true, 0, none, 0⟩ with
        free := (s.mem p).next }) := by
      unfold alloc
      simp [hf, hff, hdata, href]
    refine ⟨_, hout, ⟨?_, by simp, hp, fun q hq => ⟨by simp [hq], Iff.rfl⟩, fun hne => absurd rfl hne⟩,
      ?_, ?_, ?_⟩
    · simp [owners, InUse, hff]
    · refine ⟨l, ?_, fun q => ?_⟩
      · show Chain (links (set s p _)) (links s p) l
        rw [links_set]
        refine hc.congr fun q hq => Function.update_of_ne ?_ _ _
        rintro rfl
        exact hpl hq
      · by_cases hqp : q = p
        · subst hqp
          simp [hpl]
        · have := hl q
          simp only [List.mem_cons, hqp, false_or] at this
          simp [hqp, this]
    · intro q hq hff'
      by_cases hqp : q = p
      · subst hqp
        simp at hff'
      · simp only [set_mem_ne s _ hqp] at hff' ⊢
        exact h.clean q hq hff'
    · intro q hq
      by_cases hqp : q = p
      · subst hqp
        simp
      · simpa [hqp] using h.refs q hq

theorem alloc_spec (hdrlen : Nat) (h : Inv hdrlen s) :
    ∃ p s', alloc hdrlen s = some (p, s') ∧ Handed hdrlen s p s' ∧ Inv hdrlen s' := by
  cases hf : s.free with
  | none =>
    obtain ⟨s', hs, hh⟩ := alloc_new h hf
    exact ⟨s.count, s', hs, hh⟩
  | some p =>
    obtain ⟨s', hs, hh⟩ := alloc_again h hf
    exact ⟨p, s', hs, hh⟩

theorem owners_handed (h : Handed hdrlen s p s') : owners s' = Function.update (owners s) p 1 := by
  funext q
  by_cases hq : q = p
  · subst hq
    simp [owners, InUse, h.packet, h.known]
  · obtain ⟨hm, hk⟩ := h.others q hq
    rw [Function.update_of_ne hq]
    unfold owners InUse
    simp only [hm, hk]

theorem owners_set (hp : InUse s p) (ho : o.fflag = true) :
    owners (set s p o) = Function.update (owners s) p (o.refCount.toNat + 1) := by
  funext q
  by_cases hq : q = p
  · subst hq
    simp [owners, InUse, hp.1, ho]
  · simp [owners, InUse, hq]

/-- A change that leaves the flag and the count. -/
theorem owners_keep (hp : InUse s p) (ho : o.fflag = true) (hr : o.refCount = (s.mem p).refCount) :
    owners (set s p o) = owners s := by
  have hself : owners s p = (s.mem p).refCount.toNat + 1 := if_pos hp
  rw [owners_set hp ho, hr, ← hself, Function.update_eq_self]

theorem copy_spec (hdrlen : Nat) (h : Inv hdrlen s) (hp : InUse s p) :
    ∃ q s', copy hdrlen s p = some (q, s') ∧ owners s q = 0 ∧ q ≠ p ∧ Inv hdrlen s' ∧
      s'.mem q = ⟨(s.mem p).bits, (s.mem p).data, true, 0, none, 0⟩ ∧
      owners s' = Function.update (owners s) q 1 ∧ ∀ x, x ≠ q → s'.mem x = s.mem x := by
  obtain ⟨q, t, ht, hh, hi⟩ := alloc_spec hdrlen h
  have hqp : q ≠ p := by
    rintro rfl
    have hpos : owners s q = _ := if_pos hp
    rw [hh.unowned] at hpos
    omega
  have hsame := (hh.others p (Ne.symm hqp)).1
  have hq : InUse t q := ⟨hh.known, by rw [hh.packet]⟩
  refine ⟨q, _, by unfold copy; rw [ht], hh.unowned, hqp, ?_, ?_, ?_, fun x hx => ?_⟩
  · exact inv_touch hi hq (by simp [hh.packet]) (by simp [hh.packet])
  · rw [set_mem_self, hsame, hh.packet]
    cases (s.mem p).data <;> rfl
  · rw [owners_keep hq, owners_handed hh]
    · exact hq.2
    · rfl
  · rw [set_mem_ne _ _ hx]
    exact (hh.others x hx).1

/-- What `free` does, by the number of owners. -/
theorem free_spec (hdrlen : Nat) (h : Inv hdrlen s) (hp : p < s.count) :
    (owners s p = 0 → free hdrlen s p = some s) ∧
    (owners s p = 1 → 0 < (s.mem p).uid → free hdrlen s p = none) ∧
    ∀ s', free hdrlen s p = some s' → 0 < owners s p →
      Inv hdrlen s' ∧ owners s' = Function.update (owners s) p (owners s p - 1) := by
  have href := h.refs p hp
  by_cases hf : (s.mem p).fflag = true
  · have hpos : owners s p = (s.mem p).refCount.toNat + 1 := if_pos ⟨hp, hf⟩
    refine ⟨fun h0 => ?_, fun h1 hu => ?_, fun s' hs _ => ?_⟩
    · omega
    · have hzero : (s.mem p).refCount = 0 := by omega
      simp [free, hf, hzero, hu]
    · by_cases hzero : (s.mem p).refCount = 0
      · -- the last owner: the packet goes in front of the list
        simp only [free, hf, hzero, if_true] at hs
        split at hs
        · obtain ⟨l, hc, hl⟩ := h.chain
          have hpl : p ∉ l := by
            intro hm
            have := ((hl p).mp hm).2
            rw [hf] at this; cases this
          obtain rfl := Option.some.inj hs
          refine ⟨⟨⟨p :: l, ?_, fun q => ?_⟩, fun q hq hff => ?_, fun q hq => ?_⟩, ?_⟩
          · show Chain (links (set s p _)) (some p) (p :: l)
            rw [links_set]
            exact hc.push hpl
          · by_cases hqp : q = p
            · subst hqp
              simp [hp]
            · simp [hqp, hl]
          · by_cases hqp : q = p
            · subst hqp
              simp
            · simp only [set_mem_ne s _ hqp] at hff ⊢
              exact h.clean q hq hff
          · by_cases hqp : q = p
            · subst hqp
              simp
            · simpa [hqp] using h.refs q hq
          · funext q
            by_cases hqp : q = p
            · subst hqp
              simp [owners, InUse, hp, hf, hzero]
            · simp [owners, InUse, hqp]
        · cases hs
      · simp only [free, hf, hzero, if_true, if_false] at hs
        obtain rfl := Option.some.inj hs
        refine ⟨inv_touch h ⟨hp, hf⟩ rfl (by simp; omega), ?_⟩
        rw [owners_set ⟨hp, hf⟩ rfl, hpos]
        congr 1
        simp
        omega
  · have hzero : owners s p = 0 := if_neg fun hu => hf hu.2
    refine ⟨fun _ => by simp [free, hf], fun h1 => by omega, fun s' _ hpos => by omega⟩

/-! ## Reference counts -/

/-- What happens to the owners of a packet. -/
inductive Own where
  | take (p : Nat)
  | share (p : Nat)
  | give (p : Nat)
  | keep
  deriving DecidableEq

/-- Only a packet without owners is taken, only an owned one is shared or given up. -/
def ownStep (held : Nat → Nat) : Own → Option (Nat → Nat)
  | .take p => if held p = 0 then some (Function.update held p 1) else none
  | .share p => if 0 < held p then some (Function.update held p (held p + 1)) else none
  | .give p => if 0 < held p then some (Function.update held p (held p - 1)) else none
  | .keep => some held

def ownership : LTS (Nat → Nat) Own := LTS.ofFn (fun held => held = fun _ => 0) ownStep

/-- What an operation is to the owners. -/
def own (hdrlen : Nat) (s : Pool) : Op → Own
  | .alloc => ((alloc hdrlen s).map fun r => Own.take r.1).getD .keep
  | .copy p => ((copy hdrlen s p).map fun r => Own.take r.1).getD .keep
  | .refcopy p => .share p
  | .free p => if owners s p = 0 then .keep else .give p
  | _ => .keep

def ownsAlong (hdrlen : Nat) : Pool → List Op → List Own
  | _, [] => []
  | s, e :: es => own hdrlen s e ::
    match step hdrlen s e with
    | some s' => ownsAlong hdrlen s' es
    | none => []

/-- **One operation.** -/
theorem own_step (h : Inv hdrlen s) {e : Op} (hu : Uses s e) (hs : step hdrlen s e = some s') :
    Inv hdrlen s' ∧ ownStep (owners s) (own hdrlen s e) = some (owners s') := by
  cases e with
  | alloc =>
    obtain ⟨p, t, ht, hh, hi⟩ := alloc_spec hdrlen h
    simp only [step, ht, Option.map_some, Option.some.injEq] at hs
    subst hs
    refine ⟨hi, ?_⟩
    simp [own, ht, ownStep, hh.unowned, owners_handed hh]
  | copy p =>
    obtain ⟨q, t, ht, hun, -, hi, -, how, -⟩ := copy_spec hdrlen h hu
    simp only [step, ht, Option.map_some, Option.some.injEq] at hs
    subst hs
    refine ⟨hi, ?_⟩
    simp [own, ht, ownStep, hun, how]
  | refcopy p =>
    obtain rfl := Option.some.inj hs
    have hpos : owners s p = (s.mem p).refCount.toNat + 1 := if_pos hu
    have href := h.refs p hu.1
    refine ⟨inv_touch h hu hu.2 (by simp; omega), ?_⟩
    have hnat : ((s.mem p).refCount + 1).toNat + 1 = owners s p + 1 := by omega
    simp only [own, ownStep]
    rw [if_pos (by omega), refcopy, owners_set hu]
    · simp only [hnat]
    · exact hu.2
  | free p =>
    obtain ⟨hnone, -, hsome⟩ := free_spec hdrlen h hu
    by_cases hz : owners s p = 0
    · have hs' : free hdrlen s p = some s' := hs
      rw [hnone hz] at hs'
      obtain rfl := Option.some.inj hs'
      exact ⟨h, by simp [own, hz, ownStep]⟩
    · obtain ⟨hi, how⟩ := hsome s' hs (by omega)
      refine ⟨hi, ?_⟩
      have hpos : 0 < owners s p := by omega
      simp [own, hz, ownStep, hpos, how]
  | allocdata p bytes =>
    simp only [step, allocdata] at hs
    split at hs
    · obtain rfl := Option.some.inj hs
      refine ⟨inv_touch h hu hu.2 (h.refs p hu.1), ?_⟩
      simp only [own, ownStep]
      rw [owners_keep hu]
      · exact hu.2
      · rfl
    · cases hs
  | setdata p | write p | link p | schedule p =>
    obtain rfl := Option.some.inj hs
    refine ⟨inv_touch h hu hu.2 (h.refs p hu.1), ?_⟩
    simp only [own, ownStep]
    rw [owners_keep hu]
    · exact hu.2
    · rfl

/-! ## Every run -/

theorem inv_empty (h : Empty s) : Inv hdrlen s := by
  obtain ⟨hc, hf⟩ := h
  refine ⟨⟨[], by rw [hf]; exact .nil, by simp [hc]⟩, fun p hp => ?_, fun p hp => ?_⟩
  all_goals omega

theorem inv_reachable (h : ((pool hdrlen).guard Uses).Reachable s) : Inv hdrlen s :=
  LTS.guard_induct (M := pool hdrlen) (fun _ h0 => inv_empty h0)
    (fun _ _ _ _ ih hu hs => (own_step ih hu hs).1) h

theorem owners_run {es : List Op} (h : Inv hdrlen s) (hrun : ((pool hdrlen).guard Uses).Run s es s') :
    ownership.Run (owners s) (ownsAlong hdrlen s es) (owners s') := by
  induction hrun with
  | nil => exact .nil _
  | @cons a b c e es hs _ ih =>
    obtain ⟨hu, hs⟩ := hs
    obtain ⟨hi, how⟩ := own_step h hu hs
    have hstep : step hdrlen a e = some b := hs
    simp only [ownsAlong, hstep]
    exact .cons how (ih hi)

/-- **What is handed out is nobody else's.** In every state the pool can get
to, `alloc` and `copy` return a packet without owners, with a clean header or
the original's, without changing any other packet, and no assertion of theirs
fails; `new` is called only when every packet is in use. `free` fails its
assertion only for a packet that is in the event list and has one owner left. -/
theorem alloc_sound (h : ((pool hdrlen).guard Uses).Reachable s) :
    (∃ p s', alloc hdrlen s = some (p, s') ∧ owners s p = 0 ∧ owners s' p = 1 ∧
      s'.mem p = ⟨blank hdrlen, none, true, 0, none, 0⟩ ∧ (∀ q, q ≠ p → s'.mem q = s.mem q) ∧
      (s'.count ≠ s.count → ∀ q < s.count, 0 < owners s q)) ∧
    (∀ p, 0 < owners s p → ∃ q s', copy hdrlen s p = some (q, s') ∧ owners s q = 0 ∧ owners s' q = 1 ∧
      s'.mem q = ⟨(s.mem p).bits, (s.mem p).data, true, 0, none, 0⟩ ∧
      ∀ x, x ≠ q → s'.mem x = s.mem x) ∧
    ∀ p < s.count, (free hdrlen s p = none ↔ owners s p = 1 ∧ 0 < (s.mem p).uid) := by
  have hi := inv_reachable h
  have huse : ∀ p, 0 < owners s p ↔ InUse s p := by
    intro p
    unfold owners
    split <;> simp [*]
  refine ⟨?_, fun p hp => ?_, fun p hp => ?_⟩
  · obtain ⟨p, s', hs, hh, -⟩ := alloc_spec hdrlen hi
    refine ⟨p, s', hs, hh.unowned, ?_, hh.packet, fun q hq => (hh.others q hq).1, fun hne q hq => ?_⟩
    · rw [owners_handed hh, Function.update_self]
    · exact (huse q).mpr ⟨hq, hh.grown hne q hq⟩
  · obtain ⟨q, s', hs, hun, -, -, hpk, how, hrest⟩ := copy_spec hdrlen hi ((huse p).mp hp)
    exact ⟨q, s', hs, hun, by rw [how, Function.update_self], hpk, hrest⟩
  · obtain ⟨hnone, hone, -⟩ := free_spec hdrlen hi hp
    refine ⟨fun hf => ?_, fun ⟨h1, hu⟩ => hone h1 hu⟩
    have hin : (s.mem p).fflag = true ∧ (s.mem p).refCount = 0 ∧ 0 < (s.mem p).uid := by
      unfold free at hf
      dsimp only at hf
      split at hf
      · split at hf
        · split at hf
          · cases hf
          · refine ⟨?_, ?_, ?_⟩ <;> first | assumption | omega
        · cases hf
      · cases hf
    have howned : owners s p = (s.mem p).refCount.toNat + 1 := if_pos ⟨hp, hin.1⟩
    exact ⟨by rw [howned, hin.2.1]; rfl, hin.2.2⟩

/-- **The pool counts references.** Every run is one of reference counts: a
packet is taken without owners and comes back with its last owner, and giving
up one that nobody owns is nothing. The free list holds exactly the packets
nobody owns, each once, with zeroed header bytes and without data. -/
theorem pool_refines {s₀ : Pool} (h0 : Empty s₀) {es : List Op}
    (hrun : ((pool hdrlen).guard Uses).Run s₀ es s) :
    ownership.Run (fun _ => 0) (ownsAlong hdrlen s₀ es) (owners s) ∧
    (∃ l : List Nat, Chain (links s) s.free l ∧ l.Nodup ∧ ∀ p, p ∈ l ↔ p < s.count ∧ owners s p = 0) ∧
    ∀ p < s.count, owners s p = 0 →
      (s.mem p).data = none ∧ (s.mem p).bits = zeroed hdrlen ∧ (s.mem p).refCount = 0 := by
  have hi := inv_reachable (s := s) ⟨s₀, es, h0, hrun⟩
  have hnone : ∀ p < s.count, (owners s p = 0 ↔ (s.mem p).fflag = false) := by
    intro p hp
    by_cases hf : (s.mem p).fflag = true
    · simp [owners, InUse, hp, hf]
    · simp [owners, InUse, hp, hf]
  refine ⟨?_, ?_, fun p hp how => hi.clean p hp ((hnone p hp).mp how)⟩
  · have hstart : owners s₀ = fun _ => 0 := by
      funext p
      simp [owners, InUse, h0.1]
    rw [← hstart]
    exact owners_run (inv_empty h0) hrun
  · obtain ⟨l, hc, hl⟩ := hi.chain
    refine ⟨l, hc, hc.nodup, fun p => (hl p).trans ?_⟩
    exact ⟨fun ⟨hp, hf⟩ => ⟨hp, (hnone p hp).mpr hf⟩, fun ⟨hp, hf⟩ => ⟨hp, (hnone p hp).mp hf⟩⟩

end Invariant

/-! ## Three packets -/

def noPacket : Pool := ⟨fun _ => ⟨zeroed 0, none, false, 0, none, 0⟩, 0, none⟩

theorem noPacket_empty : Empty noPacket := ⟨rfl, rfl⟩

/-- Packet 0 gets a second owner and is freed twice, packet 1 is freed twice. -/
def threePackets : List Op :=
  [.alloc, .alloc, .refcopy 0, .free 1, .free 1, .free 0, .free 0, .alloc]

theorem alloc_sound_three : ∃ s : Pool, ((pool 8).guard Uses).Reachable s ∧ s.count = 2 ∧
    ∃ p s', alloc 8 s = some (p, s') ∧ owners s p = 0 ∧ owners s' p = 1 := by
  have hrun : (LTS.execGuarded (step 8) Uses noPacket threePackets).map (·.count) = some 2 := by
    decide +kernel
  obtain ⟨s, hs, hc⟩ := Option.map_eq_some_iff.mp hrun
  have hr : ((pool 8).guard Uses).Reachable s := LTS.reachable_of_execGuarded noPacket_empty hs
  obtain ⟨p, s', ha, h0, h1, -⟩ := (alloc_sound hr).1
  exact ⟨s, hr, hc, p, s', ha, h0, h1⟩

theorem pool_refines_three : ∃ s : Pool, ((pool 8).guard Uses).Reachable s ∧
    ownership.Run (fun _ => 0)
      [.take 0, .take 1, .share 0, .give 1, .keep, .give 0, .give 0, .take 0] (owners s) := by
  have hrun : (LTS.execGuarded (step 8) Uses noPacket threePackets).isSome ∧
      ownsAlong 8 noPacket threePackets =
        [.take 0, .take 1, .share 0, .give 1, .keep, .give 0, .give 0, .take 0] := by decide +kernel
  obtain ⟨s, hs⟩ := Option.isSome_iff_exists.mp hrun.1
  have href := (pool_refines noPacket_empty (LTS.run_of_execGuarded _ _ _ hs)).1
  rw [hrun.2] at href
  exact ⟨s, LTS.reachable_of_execGuarded noPacket_empty hs, href⟩

end AntNet.L1.FreeList
