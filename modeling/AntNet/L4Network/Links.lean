import AntNet.L4Network.Inv

/-!
# Neighbor lists and links

`Node::addNeighbor` is not part of the repository; what is assumed of it is
stated here, each property for itself: it keeps what is in the list
(`OnlyAdds`), it adds the node it is given (`AddsGiven`), and no other
(`AddsNoOther`).

* `trans_routes_from`: an entry of a row comes from the neighbor list that a
  `start` read.
* `routes_neighbor`: under `OnlyAdds` every link is in the neighbor list.
* `neighbor_symm`: with all three, the neighbor relation is symmetric, since
  `add_Neighbor` always adds both directions; so every hop of an ant, on its
  way out or back, is to a neighbor (`hop_neighbor`).
-/
namespace AntNet.L4

open AntNet.L1 AntNet.L2 AntNet.L3

variable {K : Type}

def OnlyAdds (addNb : List Nsaddr → Nsaddr → List Nsaddr) : Prop :=
  ∀ l x y, y ∈ l → y ∈ addNb l x

def AddsGiven (addNb : List Nsaddr → Nsaddr → List Nsaddr) : Prop := ∀ l x, x ∈ addNb l x

def AddsNoOther (addNb : List Nsaddr → Nsaddr → List Nsaddr) : Prop :=
  ∀ l x y, y ∈ addNb l x → y ∈ l ∨ y = x

section Lists

variable {addNb : List Nsaddr → Nsaddr → List Nsaddr} {lists : Nsaddr → List Nsaddr}
  {n m x y : Nsaddr}

theorem addNeighborAt_keeps (hk : OnlyAdds addNb) (h : y ∈ lists x) :
    y ∈ addNeighborAt addNb lists n m x := by
  unfold addNeighborAt
  by_cases hx : x = n
  · subst hx
    rw [Function.update_self]
    exact hk _ _ _ h
  · rw [Function.update_of_ne hx]
    exact h

theorem addNeighborAt_adds (ha : AddsGiven addNb) : m ∈ addNeighborAt addNb lists n m n := by
  unfold addNeighborAt
  rw [Function.update_self]
  exact ha _ _

theorem addNeighborAt_only (ho : AddsNoOther addNb) (h : y ∈ addNeighborAt addNb lists n m x) :
    y ∈ lists x ∨ x = n ∧ y = m := by
  unfold addNeighborAt at h
  by_cases hx : x = n
  · subst hx
    rw [Function.update_self] at h
    exact (ho _ _ _ h).imp_right fun hy => ⟨rfl, hy⟩
  · rw [Function.update_of_ne hx] at h
    exact .inl h

variable (s : Net K) (n₁ n₂ : Nsaddr)

theorem addNeighbor_keeps (hk : OnlyAdds addNb) (h : y ∈ s.neighborList x) :
    y ∈ (addNeighbor addNb s n₁ n₂).neighborList x :=
  addNeighborAt_keeps hk (addNeighborAt_keeps hk h)

/-- Both directions are added. -/
theorem addNeighbor_adds (hk : OnlyAdds addNb) (ha : AddsGiven addNb) :
    n₂ ∈ (addNeighbor addNb s n₁ n₂).neighborList n₁ ∧
      n₁ ∈ (addNeighbor addNb s n₁ n₂).neighborList n₂ :=
  ⟨addNeighborAt_keeps hk (addNeighborAt_adds ha), addNeighborAt_adds ha⟩

/-- Nothing else is. -/
theorem addNeighbor_only (ho : AddsNoOther addNb)
    (h : y ∈ (addNeighbor addNb s n₁ n₂).neighborList x) :
    y ∈ s.neighborList x ∨ x = n₁ ∧ y = n₂ ∨ x = n₂ ∧ y = n₁ := by
  rcases addNeighborAt_only ho h with h1 | h2
  · exact (addNeighborAt_only ho h1).imp_right .inl
  · exact .inr (.inr h2)

theorem prependNb_onlyAdds : OnlyAdds prependNb := fun _ _ _ h => List.mem_cons_of_mem _ h

theorem prependNb_addsGiven : AddsGiven prependNb := fun _ _ => List.mem_cons_self

theorem prependNb_addsNoOther : AddsNoOther prependNb := fun _ _ _ h => (List.mem_cons.mp h).symm

end Lists

section Step

variable [Arithmetic K] [LinearOrder K] {addNb : List Nsaddr → Nsaddr → List Nsaddr} {s s' : Net K}
  {l : Act K}

/-- Only `add-neighbor` changes a neighbor list. -/
theorem trans_neighborList (h : Trans addNb s l s') :
    s'.neighborList = s.neighborList ∨
      ∃ n₁ n₂, l = .addNeighbor n₁ n₂ ∧ s' = addNeighbor addNb s n₁ n₂ := by
  cases h with
  | expire | deliver | lose => exact .inl rfl
  | command hl hst =>
    cases l with
    | expire | deliver | lose => cases hl
    | addNeighbor n₁ n₂ => cases hst; exact .inr ⟨n₁, n₂, rfl, rfl⟩
    | start | stop | setRFactor | setNumNodes => cases hst; exact .inl rfl
    | advance t =>
      simp only [step] at hst
      split at hst
      · cases hst; exact .inl rfl
      · cases hst

theorem neighborList_mono (hk : OnlyAdds addNb) (h : Trans addNb s l s') {x y : Nsaddr}
    (hy : y ∈ s.neighborList x) : y ∈ s'.neighborList x := by
  rcases trans_neighborList h with he | ⟨n₁, n₂, -, rfl⟩
  · rw [he]; exact hy
  · exact addNeighbor_keeps s n₁ n₂ hk hy

/-- **Where an entry comes from**: the row had it, or this `start` read it
from the node's neighbor list. -/
theorem trans_routes_from (h : Trans addNb s l s') {x y : Nsaddr} (hr : s'.routes x y) :
    s.routes x y ∨ l = .start x ∧ y ∈ s.neighborList x := by
  obtain ⟨d, row, hrow, hy⟩ := hr
  cases trans_agent h x with
  | same _ hrt _ => exact .inl ⟨d, row, hrt ▸ hrow, hy⟩
  | started hl ha =>
    rw [ha] at hrow
    rcases start_row hrow with ⟨-, rfl⟩ | ⟨-, h0⟩
    · rw [neighbors_append, neighbors_freshRow] at hy
      rcases List.mem_append.mp hy with h0 | h1
      · cases hd : (s.agents x).rtable d with
        | none => rw [hd] at h0; cases h0
        | some row₀ => rw [hd] at h0; exact .inl ⟨d, row₀, hd, h0⟩
      · exact .inr ⟨hl, h1⟩
    · exact .inl ⟨d, row, h0, hy⟩
  | reinforced _ _ _ _ _ _ ha =>
    rw [ha] at hrow
    obtain ⟨row₀, h0, hn⟩ := reinforce_row hrow
    exact .inl ⟨d, row₀, h0, hn ▸ hy⟩

omit [Arithmetic K] [LinearOrder K] in
theorem routes_init (h : s.Initial) (x y : Nsaddr) : ¬ s.routes x y := by
  rintro ⟨d, row, hrow, -⟩
  rw [h.rtable] at hrow; cases hrow

/-- **Every link is in the neighbor list.** -/
theorem routes_neighbor (hk : OnlyAdds addNb) (h : (net addNb).Reachable s) (x y : Nsaddr)
    (hr : s.routes x y) : y ∈ s.neighborList x := by
  revert x y
  refine LTS.reachable_induct (I := fun s : Net K => ∀ x y, s.routes x y → y ∈ s.neighborList x)
    (fun s hi x y hr => absurd hr (routes_init hi x y)) ?_ h
  intro a l b ha ih hs x y hr
  have ht := trans_of_reachable ha hs
  rcases trans_routes_from ht hr with h0 | ⟨-, hy⟩
  · exact neighborList_mono hk ht (ih x y h0)
  · exact neighborList_mono hk ht hy

/-- **Links are duplex.** -/
theorem neighbor_symm (hk : OnlyAdds addNb) (ha : AddsGiven addNb) (ho : AddsNoOther addNb)
    (h : (net addNb).Reachable s) (x y : Nsaddr) (hy : y ∈ s.neighborList x) :
    x ∈ s.neighborList y := by
  revert x y
  refine LTS.reachable_induct
    (I := fun s : Net K => ∀ x y, y ∈ s.neighborList x → x ∈ s.neighborList y)
    ?_ ?_ h
  · intro s hi x y hy
    rw [hi.neighborList] at hy; cases hy
  · intro a l b hr ih hs x y hy
    rcases trans_neighborList (trans_of_reachable hr hs) with he | ⟨n₁, n₂, -, rfl⟩
    · rw [he] at hy ⊢; exact ih x y hy
    · obtain ⟨h12, h21⟩ := addNeighbor_adds a n₁ n₂ hk ha
      rcases addNeighbor_only a n₁ n₂ ho hy with h0 | ⟨rfl, rfl⟩ | ⟨rfl, rfl⟩
      · exact addNeighbor_keeps a n₁ n₂ hk (ih x y h0)
      · exact h21
      · exact h12

/-- **Every ant in flight is on a link**, whichever way it goes. -/
theorem hop_neighbor (hk : OnlyAdds addNb) (ha : AddsGiven addNb) (ho : AddsNoOther addNb)
    (h : (net addNb).Reachable s) {p : Packet K} (hp : p ∈ s.inFlight) :
    p.ip.daddr ∈ s.neighborList p.ip.saddr := by
  obtain ⟨v, -, hw⟩ := (inv_reachable h).ants p hp
  rcases hw.heading with ⟨-, hout⟩ | ⟨-, hhome⟩
  · exact routes_neighbor hk h _ _ hout.link
  · obtain ⟨j, hd, hs⟩ := hhome.between
    exact neighbor_symm hk ha ho h _ _ (routes_neighbor hk h _ _ (hw.links j _ _ hd hs))

end Step

end AntNet.L4
