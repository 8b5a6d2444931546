import AntNet.L3Agent.Memorize

/-!
# The ant's header invariant

`WellFormed nbr origin p` is what holds of every ant between two handlers:
the memory holds distinct nodes from `origin` on, each a neighbor of the one
before it, and the addresses in the headers say where on that path the ant is.

* `Outbound`: a forward ant has just left the last node of its path, towards a
  neighbor of it; its destination is not on the path.
* `Homebound`: a backward ant carries the whole path from its origin to its
  destination, and is between two consecutive nodes of it.

`nbr` is the neighbor relation of the network, which only grows
(`WellFormed.mono`).
-/
namespace AntNet.L3

open AntNet.L1 AntNet.L2 AntNet.LoopErasure

variable {K : Type}

/-! ## Header writes -/

/-- The three fields that send the packet from `self` to `next`. -/
def hop (p : Packet K) (self next : Nsaddr) : Packet K :=
  { p with
    cmn := { p.cmn with nextHop := next }
    ip := { p.ip with saddr := self, daddr := next } }

/-- The direction and type fields of a backward ant. -/
def asBackward (p : Packet K) : Packet K :=
  { p with cmn := { p.cmn with direction := .UP, ptype := PT_ANT } }

/-- Source and destination swapped. -/
def swapEnds (p : Packet K) : Packet K :=
  { p with ant := { p.ant with pktSrc := p.ant.pktDst, pktDst := p.ant.pktSrc } }

section Fields

variable (p : Packet K) (self next : Nsaddr)

@[simp] theorem hop_ant : (hop p self next).ant = p.ant := rfl
@[simp] theorem hop_saddr : (hop p self next).ip.saddr = self := rfl
@[simp] theorem hop_daddr : (hop p self next).ip.daddr = next := rfl
@[simp] theorem hop_sport : (hop p self next).ip.sport = p.ip.sport := rfl
@[simp] theorem hop_dport : (hop p self next).ip.dport = p.ip.dport := rfl
@[simp] theorem hop_direction : (hop p self next).cmn.direction = p.cmn.direction := rfl
@[simp] theorem hop_ptype : (hop p self next).cmn.ptype = p.cmn.ptype := rfl
@[simp] theorem hop_uid : (hop p self next).cmn.uid = p.cmn.uid := rfl
@[simp] theorem hop_path : (hop p self next).path = p.path := rfl

@[simp] theorem asBackward_ant : (asBackward p).ant = p.ant := rfl
@[simp] theorem asBackward_ip : (asBackward p).ip = p.ip := rfl
@[simp] theorem asBackward_direction : (asBackward p).cmn.direction = .UP := rfl
@[simp] theorem asBackward_ptype : (asBackward p).cmn.ptype = PT_ANT := rfl
@[simp] theorem asBackward_uid : (asBackward p).cmn.uid = p.cmn.uid := rfl
@[simp] theorem asBackward_path : (asBackward p).path = p.path := rfl

@[simp] theorem swapEnds_cmn : (swapEnds p).cmn = p.cmn := rfl
@[simp] theorem swapEnds_ip : (swapEnds p).ip = p.ip := rfl
@[simp] theorem swapEnds_pktSrc : (swapEnds p).ant.pktSrc = p.ant.pktDst := rfl
@[simp] theorem swapEnds_pktDst : (swapEnds p).ant.pktDst = p.ant.pktSrc := rfl
@[simp] theorem swapEnds_size : (swapEnds p).ant.pktMemSize = p.ant.pktMemSize := rfl
@[simp] theorem swapEnds_path : (swapEnds p).path = p.path := rfl

end Fields

/-! ## The invariant -/

structure Outbound (nbr : Nsaddr → Nsaddr → Prop) (p : Packet K) : Prop where
  last : p.path.getLast? = some p.ip.saddr
  src : p.path.head? = some p.ant.pktSrc
  dst : p.ant.pktDst ∉ p.path
  link : nbr p.ip.saddr p.ip.daddr
  ne : p.ip.daddr ≠ p.ip.saddr

structure Homebound (p : Packet K) : Prop where
  last : p.path.getLast? = some p.ant.pktSrc
  dst : p.path.head? = some p.ant.pktDst
  between : ∃ j, p.path[j]? = some p.ip.daddr ∧ p.path[j + 1]? = some p.ip.saddr

structure WellFormed (nbr : Nsaddr → Nsaddr → Prop) (origin : Nsaddr) (p : Packet K) : Prop where
  ptype : p.cmn.ptype = PT_ANT
  sport : p.ip.sport = RT_PORT
  dport : p.ip.dport = RT_PORT
  size : p.SizeOk
  nodup : p.path.Nodup
  head : p.path.head? = some origin
  links : ∀ j x y, p.path[j]? = some x → p.path[j + 1]? = some y → nbr x y
  heading : (p.cmn.direction = .DOWN ∧ Outbound nbr p) ∨ (p.cmn.direction = .UP ∧ Homebound p)

namespace WellFormed

variable {nbr nbr' : Nsaddr → Nsaddr → Prop} {origin : Nsaddr} {p q : Packet K}

theorem mono (hn : ∀ x y, nbr x y → nbr' x y) (h : WellFormed nbr origin p) :
    WellFormed nbr' origin p := by
  refine { h with links := fun j x y hx hy => hn x y (h.links j x y hx hy), heading := ?_ }
  rcases h.heading with ⟨hd, ho⟩ | hu
  · exact .inl ⟨hd, { ho with link := hn _ _ ho.link }⟩
  · exact .inr hu

theorem outbound (h : WellFormed nbr origin p) (hd : p.cmn.direction = .DOWN) : Outbound nbr p := by
  rcases h.heading with ⟨-, ho⟩ | ⟨hu, -⟩
  · exact ho
  · rw [hd] at hu; cases hu

theorem homebound (h : WellFormed nbr origin p) (hu : p.cmn.direction = .UP) : Homebound p := by
  rcases h.heading with ⟨hd, -⟩ | ⟨-, hh⟩
  · rw [hu] at hd; cases hd
  · exact hh

theorem path_pos (h : WellFormed nbr origin p) : 0 < p.path.length := by
  apply List.length_pos_iff.mpr
  intro hn
  have hhead := h.head
  rw [hn] at hhead
  cases hhead

theorem one_le_size (h : WellFormed nbr origin p) : 1 ≤ p.ant.pktMemSize := by
  have := h.path_pos
  have := p.path_length h.size
  omega

/-- The node it left is never the node it is sent to. -/
theorem saddr_ne_daddr (h : WellFormed nbr origin p) : p.ip.saddr ≠ p.ip.daddr := by
  rcases h.heading with ⟨-, ho⟩ | ⟨-, hh⟩
  · exact fun he => ho.ne he.symm
  · obtain ⟨j, hd, hs⟩ := hh.between
    intro he
    rw [he] at hs
    have := (List.getElem?_inj (List.getElem?_eq_some_iff.mp hd).1 h.nodup).mp (hd.trans hs.symm)
    omega

/-- The links do not touch what the invariant reads. -/
theorem congr (h : WellFormed nbr origin p) (hant : q.ant = p.ant)
    (hip : q.ip = { p.ip with ttl := q.ip.ttl })
    (hcmn : q.cmn = { p.cmn with numForwards := q.cmn.numForwards }) : WellFormed nbr origin q := by
  obtain ⟨qc, qi, qa⟩ := q
  dsimp only at hant hip hcmn
  subst hant
  rw [hip, hcmn]
  exact ⟨h.ptype, h.sport, h.dport, h.size, h.nodup, h.head, h.links, h.heading.imp
    (fun ⟨hd, ho⟩ => ⟨hd, ho.last, ho.src, ho.dst, ho.link, ho.ne⟩)
    (fun ⟨hu, hh⟩ => ⟨hu, hh.last, hh.dst, hh.between⟩)⟩

end WellFormed

/-! ## Its steps -/

section Steps

variable {nbr : Nsaddr → Nsaddr → Prop} {origin : Nsaddr} {p q : Packet K}

/-- Links survive a visit: a cut keeps a prefix, and a new node comes after
the node the ant just left. -/
theorem links_revisit {m : List Nsaddr} {n : Nsaddr}
    (h : ∀ j x y, m[j]? = some x → m[j + 1]? = some y → nbr x y)
    (hl : ∀ x, m.getLast? = some x → nbr x n) :
    ∀ j x y, (revisit m n)[j]? = some x → (revisit m n)[j + 1]? = some y → nbr x y := by
  intro j x y hx hy
  by_cases hn : n ∈ m
  · rw [revisit_old hn, List.getElem?_take] at hx hy
    split at hx
    · split at hy
      · exact h j x y hx hy
      · cases hy
    · cases hx
  · rw [revisit_new hn] at hx hy
    have hlt := (List.getElem?_eq_some_iff.mp hy).1
    rw [List.length_append, List.length_singleton] at hlt
    rw [List.getElem?_append_left (by omega)] at hx
    by_cases hj : j + 1 < m.length
    · rw [List.getElem?_append_left hj] at hy
      exact h j x y hx hy
    · have he : j + 1 = m.length := by omega
      rw [he] at hy
      simp only [List.getElem?_concat_length, Option.some.injEq] at hy
      subst hy
      apply hl
      rw [List.getLast?_eq_getElem?, ← he, Nat.add_sub_cancel]
      exact hx

variable [Arithmetic K] {n : Nsaddr} {time : K}

/-- What a visit keeps of an outbound ant. -/
structure Visited (nbr : Nsaddr → Nsaddr → Prop) (origin n : Nsaddr) (q : Packet K) : Prop where
  ptype : q.cmn.ptype = PT_ANT
  sport : q.ip.sport = RT_PORT
  dport : q.ip.dport = RT_PORT
  size : q.SizeOk
  nodup : q.path.Nodup
  head : q.path.head? = some origin
  links : ∀ j x y, q.path[j]? = some x → q.path[j + 1]? = some y → nbr x y
  down : q.cmn.direction = .DOWN
  src : q.ant.pktSrc = origin
  last : q.path.getLast? = some n

theorem visited (h : WellFormed nbr origin p) (hd : p.cmn.direction = .DOWN)
    (hn : n = p.ip.daddr) (hm : Memorized n time p q) : Visited nbr origin n q := by
  have ho := h.outbound hd
  have hp : p.path ≠ [] := List.length_pos_iff.mp h.path_pos
  refine ⟨?_, ?_, ?_, hm.size, ?_, ?_, ?_, ?_, ?_, ?_⟩
  · rw [hm.cmn]; exact h.ptype
  · rw [hm.ip]; exact h.sport
  · rw [hm.ip]; exact h.dport
  · rw [hm.path]; exact revisit_nodup h.nodup n
  · rw [hm.path, head?_revisit hp]; exact h.head
  · rw [hm.path]
    apply links_revisit h.links
    intro x hx
    rw [ho.last] at hx
    cases hx; rw [hn]; exact ho.link
  · rw [hm.cmn]; exact hd
  · rw [hm.pktSrc]
    have := ho.src
    rw [h.head] at this
    exact (Option.some.inj this).symm
  · rw [hm.path]; exact getLast?_revisit _ _

omit [Arithmetic K] in
/-- Onwards: a forward ant sent to a neighbor. -/
theorem wellFormed_forward (h : Visited nbr origin n q) (hdst : q.ant.pktDst ∉ q.path)
    {next : Nsaddr} (hl : nbr n next) (hne : next ≠ n) : WellFormed nbr origin (hop q n next) :=
  ⟨h.ptype, h.sport, h.dport, h.size, h.nodup, h.head, h.links,
    .inl ⟨h.down, h.last, by rw [hop_path, hop_ant, h.src]; exact h.head, hdst, hl, hne⟩⟩

omit [Arithmetic K] in
/-- Around: the backward ant created at the destination. -/
theorem wellFormed_turn (h : Visited nbr origin n q) (hdst : q.ant.pktDst = n) {j : Nat}
    {prev : Nsaddr} (hj : j + 2 = q.path.length) (hprev : q.path[j]? = some prev) :
    WellFormed nbr origin (hop (asBackward (swapEnds q)) n prev) := by
  refine ⟨rfl, h.sport, h.dport, h.size, h.nodup, h.head, h.links, .inr ⟨rfl, ?_, ?_, j, hprev, ?_⟩⟩
  · rw [hop_ant, asBackward_ant, swapEnds_pktSrc, hdst]; exact h.last
  · rw [hop_ant, asBackward_ant, swapEnds_pktDst, h.src]; exact h.head
  · have := h.last
    rw [List.getLast?_eq_getElem?, ← hj] at this
    exact this

omit [Arithmetic K] in
/-- Back: a backward ant sent one node down its path. -/
theorem wellFormed_back (h : WellFormed nbr origin p) (hu : p.cmn.direction = .UP) {j : Nat}
    (hn : p.path[j + 1]? = some n) {prev : Nsaddr} (hprev : p.path[j]? = some prev) :
    WellFormed nbr origin (hop (asBackward p) n prev) :=
  have hh := h.homebound hu
  ⟨rfl, h.sport, h.dport, h.size, h.nodup, h.head, h.links,
    .inr ⟨rfl, hh.last, hh.dst, j, hprev, hn⟩⟩

end Steps

end AntNet.L3
