import AntNet.L3Agent.Antnet

/-!
# What the primitive steps of a handler do

`At p a c` says where a handler stands: the packet is `p`, the agent `a`, the
table calls recorded so far are `c`, and everything recorded is a harmless
access (`Event.Quiet`): the packet has not been given away, memory is read in
its live part only, and written inside the array. `Gone d p a c` is the same
with the packet given away by `d` as the last event, so nothing was touched
after it.

One rule for each primitive step; the handlers' specifications are derived
from these and never unfold a primitive again.
-/
namespace AntNet.L3

open AntNet.L1 AntNet.L2

variable {K : Type}

/-- Not a disposal; memory reads are live, memory writes inside the array. -/
def Event.Quiet : Event → Prop
  | .read | .write | .updateTable | .rtUpdate _ _ => True
  | .memRead i size => 0 ≤ i ∧ i < size
  | .memWrite i => 0 ≤ i ∧ i < MAX_NUM_NODES
  | .send | .free | .drop _ => False

def Event.disposes : Event → Bool
  | .send | .free | .drop _ => true
  | _ => false

/-- `update_table` entered, or a row update. -/
def Event.isCall : Event → Bool
  | .updateTable | .rtUpdate _ _ => true
  | _ => false

def calls (l : List Event) : List Event := l.filter Event.isCall

structure At (p : Packet K) (a : Antnet K) (c : List Event) (f : Frame K) : Prop where
  pkt : f.pkt = p
  self : f.self = a
  quiet : ∀ e ∈ f.log, e.Quiet
  calls : calls f.log = c

structure Gone (d : Event) (p : Packet K) (a : Antnet K) (c : List Event) (f : Frame K) : Prop where
  pkt : f.pkt = p
  self : f.self = a
  log : ∃ pre, f.log = pre ++ [d] ∧ (∀ e ∈ pre, e.Quiet) ∧ L3.calls pre = c

theorem at_start (p : Packet K) (a : Antnet K) : At p a [] ⟨p, a, []⟩ :=
  ⟨rfl, rfl, by simp, rfl⟩

theorem quiet_snoc {l : List Event} {e : Event} (hl : ∀ x ∈ l, x.Quiet) (he : e.Quiet) :
    ∀ x ∈ l ++ [e], x.Quiet := by
  intro x hx
  rcases List.mem_append.mp hx with h | h
  · exact hl x h
  · rw [List.mem_singleton.mp h]; exact he

theorem Event.Quiet.disposes {e : Event} (h : e.Quiet) : e.disposes = false := by
  cases e <;> simp_all [Event.Quiet, Event.disposes]

theorem Gone.disposal {d : Event} {p : Packet K} {a : Antnet K} {c : List Event} {f : Frame K}
    (h : Gone d p a c f) {e : Event} (he : e ∈ f.log) (hd : e.disposes = true) : e = d := by
  obtain ⟨pre, hlog, hq, -⟩ := h.log
  rw [hlog] at he
  rcases List.mem_append.mp he with h0 | h1
  · rw [(hq e h0).disposes] at hd; cases hd
  · exact List.mem_singleton.mp h1

/-! ## Rules -/

variable {p : Packet K} {a : Antnet K} {c : List Event}

theorem emit_spec {e : Event} (he : e.Quiet) (hc : e.isCall = false) :
    Triple (At p a c) (emit e) (fun _ => At p a c) :=
  Triple.update fun f hf => ⟨hf.pkt, hf.self, quiet_snoc hf.quiet he, by
    simpa [calls, List.filter_append, hc] using hf.calls⟩

theorem call_spec {e : Event} (he : e.Quiet) (hc : e.isCall = true) :
    Triple (At p a c) (emit e) (fun _ => At p a (c ++ [e])) :=
  Triple.update fun f hf => ⟨hf.pkt, hf.self, quiet_snoc hf.quiet he, by
    have := hf.calls
    simp only [calls] at this ⊢
    rw [List.filter_append, this]; simp [hc]⟩

theorem dispose_spec {d : Event} : Triple (At p a c) (emit d) (fun _ => Gone d p a c) :=
  Triple.update fun f hf => ⟨hf.pkt, hf.self, f.log, rfl, hf.quiet, hf.calls⟩

theorem rd_spec {β : Type} (g : Packet K → β) :
    Triple (At p a c) (rd g) (fun v f => v = g p ∧ At p a c f) := by
  refine (emit_spec (e := .read) trivial rfl).seq ?_
  intro f hf
  exact ⟨g f.pkt, f, rfl, by rw [hf.pkt], hf⟩

theorem wr_spec (g : Packet K → Packet K) :
    Triple (At p a c) (wr g) (fun _ => At (g p) a c) :=
  (emit_spec (e := .write) trivial rfl).seq <| Triple.update fun _ hf =>
    ⟨congrArg g hf.pkt, hf.self, hf.quiet, hf.calls⟩

theorem own_spec {β : Type} (g : Antnet K → β) :
    Triple (At p a c) (own g) (fun v f => v = g a ∧ At p a c f) :=
  fun f hf => ⟨g f.self, f, rfl, by rw [hf.self], hf⟩

theorem setSelf_spec (g : Antnet K → Antnet K) :
    Triple (At p a c) (setSelf g) (fun _ => At p (g a) c) :=
  Triple.update fun _ hf => ⟨hf.pkt, congrArg g hf.self, hf.quiet, hf.calls⟩

theorem addr_spec : Triple (At p a c) addr (fun v f => v = a.addr ∧ At p a c f) := own_spec _

theorem memSize_spec :
    Triple (At p a c) memSize (fun v f => v = p.ant.pktMemSize ∧ At p a c f) := rd_spec _

theorem setMemSize_spec (sz : Int) :
    Triple (At p a c) (setMemSize sz) (fun _ => At (p.withMemory p.ant.pktMemory sz) a c) :=
  wr_spec _

/-- A read in the live part returns the array's entry. -/
theorem memRead_spec {i : Nat} (hi : i < MAX_NUM_NODES) (hsz : (i : Int) < p.ant.pktMemSize) :
    Triple (At p a c) (memRead i) (fun v f => v = p.ant.pktMemory[i] ∧ At p a c f) := by
  intro f hf
  obtain ⟨u, f', he, hf'⟩ := emit_spec (e := .memRead i f.pkt.ant.pktMemSize)
    (by rw [hf.pkt]; exact ⟨by omega, hsz⟩) rfl f hf
  refine ⟨p.ant.pktMemory[i], f', ?_, rfl, hf'⟩
  have h : 0 ≤ (i : Int) ∧ (i : Int) < MAX_NUM_NODES := ⟨by omega, by omega⟩
  rw [hf.pkt] at he
  rw [memRead, Prog.exec_bind, Prog.exec_get]
  simp only [Prog.exec_bind, dif_pos h, hf.pkt, Int.toNat_natCast, he]
  rfl

/-- A write inside the array changes its entry. -/
theorem memWrite_spec {i : Nat} (hi : i < MAX_NUM_NODES) (g : Memory K → Memory K) :
    Triple (At p a c) (memWrite i g) (fun _ =>
      At (p.withMemory (p.ant.pktMemory.set i (g p.ant.pktMemory[i])) p.ant.pktMemSize) a c) := by
  intro f hf
  have h : 0 ≤ (i : Int) ∧ (i : Int) < MAX_NUM_NODES := ⟨by omega, by omega⟩
  obtain ⟨u, f', he, hf'⟩ := emit_spec (e := .memWrite i) h rfl f hf
  refine ⟨(), { f' with pkt := _ }, ?_, ⟨rfl, hf'.self, hf'.quiet, hf'.calls⟩⟩
  rw [memWrite, Prog.exec_bind, Prog.exec_get]
  simp only [Prog.exec_bind, he, dif_pos h, hf.pkt, Int.toNat_natCast]
  rfl

theorem assert_spec {b : Prop} [Decidable b] (h : b) :
    Triple (At p a c) (assert b) (fun _ => At p a c) := by
  rw [assert, if_pos h]; exact Triple.pure fun _ hf => hf

end AntNet.L3
