import AntNet.L4Network.Links

/-!
# The memory-full drop

`memorize` drops an ant exactly when its loop-erased path holds
`MAX_NUM_NODES` nodes and the node it is at is not one of them
(`memory_full_drop`). With all addresses in `0..N-1` and `N ≤ MAX_NUM_NODES`
that cannot happen: the path and the new node would be more than `N` distinct
addresses (`InRange.not_full`).
-/
namespace AntNet.L4

open AntNet.L1 AntNet.L2 AntNet.L3 AntNet.LoopErasure

variable {K : Type}

/-- Distinct addresses below `N` are at most `N`. -/
theorem length_le_of_addresses {N : Int} {m : List Int} (hn : m.Nodup)
    (h : ∀ x ∈ m, 0 ≤ x ∧ x < N) : (m.length : Int) ≤ max N 0 := by
  have hsub : m ⊆ (List.range N.toNat).map Int.ofNat := by
    intro x hx
    obtain ⟨h0, h1⟩ := h x hx
    exact List.mem_map.mpr ⟨x.toNat, List.mem_range.mpr (by omega), Int.toNat_of_nonneg h0⟩
  have hle := hn.length_le_of_subset hsub
  rw [List.length_map, List.length_range] at hle
  omega

/-- Addresses in `0..N-1`: of every neighbor, and of every node with a timer. -/
def Addressed (N : Int) (s : Net K) (l : Act K) : Prop :=
  (∀ n, ∀ x ∈ s.neighborList n, (0 : Int) ≤ x ∧ x < N) ∧
    ∀ (n : Int) o, l = .expire n o → 0 ≤ n ∧ n < N

/-- What runs with such addresses keep. -/
structure InRange (N : Int) (s : Net K) : Prop where
  links : ∀ (x y : Int), s.routes x y → 0 ≤ y ∧ y < N
  origins : ∀ u v, (s.hist u).head? = some v → (0 : Int) ≤ v.node ∧ v.node < N
  noDrop : ∀ u v why, v ∈ s.hist u → Event.drop why ∉ v.log
  dropped : s.dropped = []

section Full

variable {N : Int} {s : Net K} {p : Packet K}

/-- The path of an ant and its next node are in range. -/
theorem InRange.path (hr : InRange N s) {v : Visit K} (hv : (s.hist p.cmn.uid).head? = some v)
    (hw : WellFormed s.routes v.node p) {x : Int} (hx : x ∈ p.path ∨ x = p.ip.daddr) :
    0 ≤ x ∧ x < N := by
  have hpath : ∀ (j : Nat) (y : Int), p.path[j]? = some y → 0 ≤ y ∧ y < N := by
    intro j y hy
    cases j with
    | zero =>
      have hh := hw.head
      rw [List.head?_eq_getElem?, hy] at hh
      rw [Option.some.inj hh]
      exact hr.origins _ v hv
    | succ j =>
      have hj : j < p.path.length := by have := (List.getElem?_eq_some_iff.mp hy).1; omega
      exact hr.links _ y (hw.links j _ y (List.getElem?_eq_getElem hj) hy)
  rcases hx with hx | rfl
  · obtain ⟨j, hj⟩ := List.mem_iff_getElem?.mp hx
    exact hpath j x hj
  · rcases hw.heading with ⟨-, ho⟩ | ⟨-, hh⟩
    · exact hr.links _ _ ho.link
    · obtain ⟨j, hj, -⟩ := hh.between
      exact hpath j _ hj

/-- With at most `MAX_NUM_NODES` addresses a full memory has every node. -/
theorem InRange.not_full (hr : InRange N s) (hN : N ≤ MAX_NUM_NODES) (hc : Configured s)
    {v : Visit K} (hv : (s.hist p.cmn.uid).head? = some v) (hw : WellFormed s.routes v.node p)
    (nf ttl : Int) : ¬ Full (s.agents p.ip.daddr) (arrive p nf ttl) := by
  rintro ⟨hsize, hnew⟩
  rw [hc.addr] at hnew
  change p.ip.daddr ∉ p.path at hnew
  change p.ant.pktMemSize = MAX_NUM_NODES at hsize
  have hlen := p.path_length hw.size
  have hnd : (p.path ++ [p.ip.daddr]).Nodup := by
    rw [← revisit_new hnew]; exact revisit_nodup hw.nodup _
  have hle := length_le_of_addresses (N := N) hnd fun x hx =>
    hr.path hv hw (by simpa using hx)
  rw [List.length_append, List.length_singleton] at hle
  have : 0 < MAX_NUM_NODES := by decide
  omega

/-- A full memory, in terms of the loop-erased walk. -/
theorem full_iff_erased (hi : Inv s) {p : Packet K} (hp : p ∈ s.inFlight) (nf ttl : Int) :
    Full (s.agents p.ip.daddr) (arrive p nf ttl) ↔
      (loopErase (walk (s.hist p.cmn.uid))).length = MAX_NUM_NODES ∧
        p.ip.daddr ∉ loopErase (walk (s.hist p.cmn.uid)) := by
  obtain ⟨v, -, hw⟩ := hi.ants p hp
  have hlen := p.path_length hw.size
  rw [← hi.walk p hp, Full, hi.configured.addr]
  show p.ant.pktMemSize = MAX_NUM_NODES ∧ p.ip.daddr ∉ p.path ↔ _
  exact and_congr_left fun _ => by omega

end Full

section Drop

variable [Arithmetic K] [LinearOrder K] {addNb : List Nsaddr → Nsaddr → List Nsaddr} {N : Int}
  {s s' : Net K} {l : Act K}

omit [Arithmetic K] [LinearOrder K] in
theorem inRange_init (h : s.Initial) : InRange N s := by
  refine ⟨fun x y hr => absurd hr (routes_init h x y), ?_, ?_, h.dropped⟩
  · intro u v hv
    rw [h.hist] at hv; cases hv
  · intro u v why hv
    rw [h.hist] at hv; cases hv

/-- No delivery ends in a drop. -/
theorem InRange.outcome (hr : InRange N s) (hN : N ≤ MAX_NUM_NODES) (hi : Inv s) {nf ttl : Int}
    {o : Oracle K} {p q : Packet K} {d : Event} {a : Antnet K} {c : List Event}
    (hp : p ∈ s.inFlight) (ho : Outcome (s.env o) (s.agents p.ip.daddr) (arrive p nf ttl) d q a c)
    (why : String) : d ≠ .drop why := by
  rintro rfl
  obtain ⟨v, hv, hw⟩ := hi.ants p hp
  exact hr.not_full hN hi.configured hv hw nf ttl ho.full_of_drop.2

theorem inRange_origins (hr : InRange N s) (hi : Inv s) (hg : Addressed N s l)
    (ht : Trans addNb s l s') :
    ∀ u v, (s'.hist u).head? = some v → (0 : Int) ≤ v.node ∧ v.node < N := by
  intro u v hv
  cases trans_hist ht u with
  | same he => rw [he] at hv; exact hr.origins u v hv
  | sent hl _ _ _ he =>
    rw [he, List.head?_append] at hv
    cases h0 : (s.hist u).head? with
    | none => rw [h0] at hv; cases hv; exact hg.2 _ _ hl
    | some w => rw [h0] at hv; cases hv; exact hr.origins u _ h0
  | received _ hp _ hu _ he =>
    obtain ⟨w, hw, -⟩ := hi.ants _ (List.mem_of_getElem? hp)
    rw [hu] at hw
    rw [he, List.head?_append, hw] at hv
    cases hv
    exact hr.origins u _ hw

theorem inRange_noDrop (hr : InRange N s) (hN : N ≤ MAX_NUM_NODES) (hi : Inv s)
    (ht : Trans addNb s l s') : ∀ u v why, v ∈ s'.hist u → Event.drop why ∉ v.log := by
  intro u v why hv
  rcases (trans_hist ht u).mem hv with h0 | ⟨d, c, hlog, ⟨n, o, q, hsent⟩ | ⟨p, hp, nf, ttl, o, q, a, ho⟩⟩
  · exact hr.noDrop u v why h0
  · exact hlog.drop_not_mem (by cases hsent <;> nofun)
  · exact hlog.drop_not_mem (hr.outcome hN hi hp ho why)

theorem inRange_dropped (hr : InRange N s) (hN : N ≤ MAX_NUM_NODES) (hi : Inv s)
    (ht : Trans addNb s l s') : s'.dropped = [] := by
  cases ht with
  | command hl hst => rw [(command_cases hl hst).1.dropped]; exact hr.dropped
  | expire _ hsent _ =>
    cases hsent <;> simpa [finish, Event.isDrop] using hr.dropped
  | @deliver _ _ _ _ _ _ d _ _ _ hp ho _ =>
    have hd : Event.isDrop d = false := by
      cases d with
      | drop why => exact absurd rfl (hr.outcome hN hi (List.mem_of_getElem? hp) ho why)
      | _ => rfl
    simpa [finish, hd] using hr.dropped
  | lose hp => exact hr.dropped

theorem inRange_step (hN : N ≤ MAX_NUM_NODES) (hi : Inv s) (hr : InRange N s)
    (hg : Addressed N s l) (ht : Trans addNb s l s') : InRange N s' := by
  refine ⟨?_, inRange_origins hr hi hg ht, inRange_noDrop hr hN hi ht,
    inRange_dropped hr hN hi ht⟩
  intro x y hxy
  rcases trans_routes_from ht hxy with h0 | ⟨-, hy⟩
  · exact hr.links x y h0
  · exact hg.1 x y hy

theorem inRange_reachable (hN : N ≤ MAX_NUM_NODES)
    (h : ((net addNb).guard (Addressed N)).Reachable s) : InRange N s :=
  LTS.guard_induct (I := InRange N) (fun _ => inRange_init) (fun _ _ _ hr ih hg hs =>
    inRange_step hN (inv_reachable hr) ih hg (trans_of_reachable hr hs)) h

/-- `memorize` on an ant in flight, at the node it is delivered to. -/
theorem memorize_exec (hi : Inv s) {p : Packet K} (hp : p ∈ s.inFlight) (nf ttl : Int)
    (o : Oracle K) :
    ∃ b f, (memorize (s.env o)).exec ⟨arrive p nf ttl, s.agents p.ip.daddr, []⟩ = (.ok b, f) ∧
      (b = false ↔ Full (s.agents p.ip.daddr) (arrive p nf ttl)) ∧
      (b = false ↔ Event.drop DROP_RTR_ROUTE_LOOP ∈ f.log) := by
  obtain ⟨v, -, hw⟩ := hi.ants p hp
  obtain ⟨b, f, he, hb⟩ := memorize_spec (s.env o) (wellFormed_arrive hw nf ttl).size _
    (at_start (arrive p nf ttl) (s.agents p.ip.daddr))
  refine ⟨b, f, he, ?_⟩
  cases b with
  | true =>
    obtain ⟨q, ⟨-, hf⟩, hat⟩ := hb
    exact ⟨⟨nofun, fun h => absurd h hf⟩, nofun, fun h => (hat.quiet _ h).elim⟩
  | false =>
    obtain ⟨hf, hgone⟩ := hb
    obtain ⟨pre, hlog, -⟩ := hgone.log
    exact ⟨⟨fun _ => hf, fun _ => rfl⟩, fun _ => by rw [hlog]; simp, fun _ => rfl⟩

/-- **The memory-full drop happens exactly when it must.** -/
theorem memory_full_drop :
    (∀ s : Net K, (net addNb).Reachable s →
      (∀ p ∈ s.inFlight, p.cmn.direction = .DOWN → ∀ nf ttl o, ∃ b f,
        (memorize (s.env o)).exec ⟨arrive p nf ttl, s.agents p.ip.daddr, []⟩ = (.ok b, f) ∧
        (b = false ↔ Event.drop DROP_RTR_ROUTE_LOOP ∈ f.log) ∧
        (Event.drop DROP_RTR_ROUTE_LOOP ∈ f.log ↔
          (loopErase (walk (s.hist p.cmn.uid))).length = MAX_NUM_NODES ∧
            p.ip.daddr ∉ loopErase (walk (s.hist p.cmn.uid)))) ∧
      ∀ u v i, v ∈ s.hist u → Event.memWrite i ∈ v.log → 0 ≤ i ∧ i < MAX_NUM_NODES) ∧
    ∀ N : Int, N ≤ MAX_NUM_NODES → ∀ s : Net K, ((net addNb).guard (Addressed N)).Reachable s →
      s.dropped = [] ∧ ∀ u v why, v ∈ s.hist u → Event.drop why ∉ v.log := by
  refine ⟨fun s h => ⟨fun p hp _ nf ttl o => ?_, fun u v i hv hm => ?_⟩, ?_⟩
  · have hi := inv_reachable h
    obtain ⟨b, f, he, hb, hdrop⟩ := memorize_exec hi hp nf ttl o
    exact ⟨b, f, he, hdrop, hdrop.symm.trans (hb.trans (full_iff_erased hi hp nf ttl))⟩
  · obtain ⟨d, c, hd, hlog⟩ := hist_ended h u v hv
    exact hlog.quiet hd hm rfl
  · intro N hN s h
    have hr := inRange_reachable hN h
    exact ⟨hr.dropped, hr.noDrop⟩

end Drop

/-- A line of 17 nodes: the ant from 1 meets a new node with a full memory. -/
theorem memory_full_drop_line : ∃ s : Net ℚ, (net prependNb).Reachable s ∧
    ∃ p ∈ s.inFlight, p.ip.daddr = 17 ∧ ∃ f, (memorize (s.env (idle []))).exec
      ⟨arrive p 0 9, s.agents p.ip.daddr, []⟩ = (.ok false, f) := by
  have hrun : (runActs prependNb Net.boot (((List.range 16).map fun k => .setNumNodes (k + 1) 1) ++
      ((List.range 16).map fun k => .addNeighbor (k + 1) (k + 2)) ++
      ((List.range 16).map fun k => .start (k + 1)) ++ [.expire 1 (idle [0])] ++
      ((List.range 15).map fun _ => .deliver 0 0 9 (idle [])) : List (Act ℚ))).map
      (fun s => s.inFlight.map fun p =>
        (p.cmn.direction, p.ip.daddr, loopErase (walk (s.hist p.cmn.uid)))) =
      some [(.DOWN, 17, (List.range 16).map fun k => (k : Int) + 1)] := by decide +kernel
  obtain ⟨s, hs, hp⟩ := Option.map_eq_some_iff.mp hrun
  obtain ⟨p, hin, hpe⟩ := List.map_eq_singleton_iff.mp hp
  simp only [Prod.mk.injEq] at hpe
  obtain ⟨hd, hdaddr, herase⟩ := hpe
  have hr := runActs_reachable boot_initial hs
  have hmem : p ∈ s.inFlight := by rw [hin]; exact List.mem_singleton_self p
  obtain ⟨b, f, he, hb, hdrop⟩ := (memory_full_drop.1 s hr).1 p hmem hd 0 9 (idle [])
  rw [herase, hdaddr] at hdrop
  have hfalse : b = false := hb.mpr (hdrop.mpr (by decide))
  exact ⟨s, hr, p, hmem, hdaddr, f, hfalse ▸ he⟩

end AntNet.L4
