import AntNet.L4Network.Inv

/-!
# Who holds a packet, and what a handler touches

* `custody`: every ant ever allocated is in exactly one place, and every
  delivery ends with exactly one disposal, after which the handler does
  nothing with the packet.
* `no_abnormal_path`: no delivery takes one of the guarded exits, and no
  handler reads the memory outside its live part.
-/
namespace AntNet.L4

open AntNet.L1 AntNet.L2 AntNet.L3

variable {K : Type} [Arithmetic K] [LinearOrder K] {addNb : List Nsaddr → Nsaddr → List Nsaddr}
  {s : Net K}

/-- **Exactly one place, exactly one disposal.** -/
theorem custody (h : (net addNb).Reachable s) :
    (∀ u, (s.inFlight.map (·.cmn.uid)).count u + s.freed.count u + s.dropped.count u +
      s.lost.count u = if u < s.uidcnt then 1 else 0) ∧
    (∀ p ∈ s.inFlight, ∀ nf ttl o, ∃ f pre d,
      (recv (s.env o)).exec ⟨arrive p nf ttl, s.agents p.ip.daddr, []⟩ = (.ok (), f) ∧
      f.pkt.cmn.uid = p.cmn.uid ∧ f.log = pre ++ [d] ∧ d.disposes = true ∧
      ∀ e ∈ pre, e.disposes = false) ∧
    (∀ n o f, (L3.expire (s.env o) s.uidcnt).exec ⟨o.blank, s.agents n, []⟩ = (.ok (), f) →
      ∃ pre d, f.pkt.cmn.uid = s.uidcnt ∧ f.log = pre ++ [d] ∧ d.disposes = true ∧
        ∀ e ∈ pre, e.disposes = false) := by
  have hi := inv_reachable h
  refine ⟨?_, ?_, ?_⟩
  · intro u
    have := hi.ledger u
    unfold Net.places at this
    simpa only [List.count_append] using this
  · intro p hp nf ttl o
    obtain ⟨f, d, q, a, c, he, ho, hg⟩ := recv_exec hi.configured hi.ants hp nf ttl o
    obtain ⟨pre, hlog, hq, -⟩ := hg.log
    exact ⟨f, pre, d, he, hg.pkt ▸ ho.uid, hlog, ho.disposes, fun e he => (hq e he).disposes⟩
  · intro n o f he
    obtain ⟨d, q, hs, hg⟩ := expire_exec he
    obtain ⟨dest, -, hgen⟩ := hs.generated
    obtain ⟨pre, hlog, hq, -⟩ := hg.log
    exact ⟨pre, d, hg.pkt ▸ hgen.uid, hlog, hs.disposes, fun e he => (hq e he).disposes⟩

/-- One ant home, one lost on its way back, one in flight. -/
theorem custody_line : ∃ s : Net ℚ, (net prependNb).Reachable s ∧
    (s.inFlight.map (·.cmn.uid), s.freed, s.dropped, s.lost) = ([2], [0], [], [1]) ∧
    ∀ p ∈ s.inFlight, ∃ f pre d,
      (recv (s.env (idle []))).exec ⟨arrive p 0 9, s.agents p.ip.daddr, []⟩ = (.ok (), f) ∧
      f.log = pre ++ [d] ∧ d.disposes = true := by
  have hrun : (runActs prependNb Net.boot (lineUp ++ [.expire 0 (idle [1]), .deliver 0 0 9 (idle []),
      .deliver 0 0 9 (idle []), .expire 0 (idle [1]), .deliver 0 0 9 (idle []), .lose 0,
      .expire 2 (idle [0])] : List (Act ℚ))).map
      (fun s => (s.inFlight.map (·.cmn.uid), s.freed, s.dropped, s.lost)) =
      some ([2], [0], [], [1]) := by decide +kernel
  obtain ⟨s, hs, hp⟩ := Option.map_eq_some_iff.mp hrun
  have hr := runActs_reachable boot_initial hs
  refine ⟨s, hr, hp, ?_⟩
  intro p hp
  obtain ⟨f, pre, d, he, -, hlog, hd, -⟩ := (custody hr).2.1 p hp 0 9 (idle [])
  exact ⟨f, pre, d, he, hlog, hd⟩

/-! ## Indices -/

/-- Reads of `pkt_memory_` stay below `pkt_mem_size_` at that moment. -/
def ReadsLive (log : List Event) : Prop := ∀ i size, Event.memRead i size ∈ log → 0 ≤ i ∧ i < size

theorem Ended.readsLive {d : Event} {c log : List Event} (h : Ended d c log)
    (hd : d.disposes = true) : ReadsLive log := fun _ _ hm => h.quiet hd hm rfl

omit [Arithmetic K] [LinearOrder K] in
/-- The two searches of a backward ant. -/
theorem searches {nbr : Nsaddr → Nsaddr → Prop} {origin : Nsaddr} {p : Packet K}
    (h : WellFormed nbr origin p) (hu : p.cmn.direction = .UP) :
    ∃ j : Nat, (j : Int) + 1 < p.ant.pktMemSize ∧ ∀ b : Antnet K, b.addr = p.ip.daddr →
      (findSelf.exec ⟨p, b, []⟩).1 = .ok j ∧
      (b.addr ≠ p.ant.pktDst → 1 ≤ j ∧ (findPrevious.exec ⟨p, b, []⟩).1 = .ok ((j : Int) - 1)) := by
  have hh := h.homebound hu
  obtain ⟨j, hj, hj1⟩ := hh.between
  have hlen := p.path_length h.size
  have hlt := (List.getElem?_eq_some_iff.mp hj1).1
  refine ⟨j, by omega, ?_⟩
  intro b hb
  have hf : Found p b j := ⟨h.size, hb ▸ hj, h.nodup⟩
  obtain ⟨_, _, he, rfl, -⟩ := findSelf_spec hf _ (at_start p b)
  obtain ⟨_, _, he', rfl, -⟩ := findPrevious_spec hf _ (at_start p b)
  refine ⟨by rw [he], fun hne => ⟨?_, by rw [he']⟩⟩
  apply Nat.one_le_iff_ne_zero.mpr
  intro h0
  apply hne
  have hdst := hh.dst
  rw [h0] at hj
  rw [List.head?_eq_getElem?, hj] at hdst
  exact hb.trans (Option.some.inj hdst)

/-- At its destination an ant has at least two entries. -/
theorem turn_size {nbr : Nsaddr → Nsaddr → Prop} {origin : Nsaddr} {p : Packet K}
    (h : WellFormed nbr origin p) (hd : p.cmn.direction = .DOWN) {a : Antnet K}
    (hdst : a.addr = p.ant.pktDst) (env : Env K) {f : Frame K}
    (he : (memorize env).exec ⟨p, a, []⟩ = (.ok true, f)) : 0 ≤ f.pkt.ant.pktMemSize - 2 := by
  obtain ⟨q, ⟨hm, -⟩, hat⟩ := (memorize_spec env h.size).returned (at_start p a) he
  obtain ⟨j, hj, -⟩ := turn_index h hd hdst hm
  have := q.path_length hm.size
  rw [hat.pkt]
  omega

/-- **No abnormal path, no stale entry.** -/
theorem no_abnormal_path (h : (net addNb).Reachable s) :
    (∀ p ∈ s.inFlight, ∀ nf ttl o,
      p.ip.saddr ≠ p.ip.daddr ∧ p.ip.saddr ≠ (s.agents p.ip.daddr).raAddr ∧
      (p.cmn.direction = .UP → ∃ j : Nat, (j : Int) + 1 < p.ant.pktMemSize ∧
        ∀ b : Antnet K, b.addr = p.ip.daddr →
          (findSelf.exec ⟨arrive p nf ttl, b, []⟩).1 = .ok j ∧
          (b.addr ≠ p.ant.pktDst → 1 ≤ j ∧
            (findPrevious.exec ⟨arrive p nf ttl, b, []⟩).1 = .ok ((j : Int) - 1))) ∧
      (p.cmn.direction = .DOWN → p.ip.daddr = p.ant.pktDst → ∀ f,
        (memorize (s.env o)).exec ⟨arrive p nf ttl, s.agents p.ip.daddr, []⟩ = (.ok true, f) →
          0 ≤ f.pkt.ant.pktMemSize - 2) ∧
      ∃ f, (recv (s.env o)).exec ⟨arrive p nf ttl, s.agents p.ip.daddr, []⟩ = (.ok (), f) ∧
        ReadsLive f.log ∧
        ∀ why, Event.drop why ∈ f.log → p.cmn.direction = .DOWN ∧
          p.ant.pktMemSize = MAX_NUM_NODES ∧ p.ip.daddr ∉ p.path) ∧
    (∀ n o f, (L3.expire (s.env o) s.uidcnt).exec ⟨o.blank, s.agents n, []⟩ = (.ok (), f) →
      ReadsLive f.log) := by
  have hi := inv_reachable h
  refine ⟨?_, ?_⟩
  · intro p hp nf ttl o
    obtain ⟨v, -, hw⟩ := hi.ants p hp
    have hne := hw.saddr_ne_daddr
    obtain ⟨f, d, q, a, c, he, ho, hg⟩ := recv_exec hi.configured hi.ants hp nf ttl o
    refine ⟨hne, by rw [hi.configured.raAddr]; exact hne, ?_, ?_, f, he,
      Ended.readsLive hg.log ho.disposes, ?_⟩
    · intro hu
      exact searches (wellFormed_arrive hw nf ttl) hu
    · intro hd hdst f hm
      exact turn_size (wellFormed_arrive hw nf ttl) hd ((hi.configured.addr _).trans hdst) _ hm
    · intro why hdrop
      have hd : d = .drop why :=
        Classical.byContradiction fun hne => Ended.drop_not_mem hg.log hne hdrop
      subst hd
      obtain ⟨hd, hf, hn⟩ := ho.full_of_drop
      rw [hi.configured.addr] at hn
      exact ⟨hd, hf, hn⟩
  · intro n o f he
    obtain ⟨d, q, hs, hg⟩ := expire_exec he
    exact Ended.readsLive hg.log hs.disposes

/-- A backward ant at node 1 of the line: it finds itself at index 1. -/
theorem no_abnormal_path_line : ∃ s : Net ℚ, (net prependNb).Reachable s ∧
    ∃ p ∈ s.inFlight, p.path = [0, 1, 2] ∧ p.cmn.direction = .UP ∧ p.ip.saddr ≠ p.ip.daddr ∧
      ∃ f, (recv (s.env (idle []))).exec ⟨arrive p 0 9, s.agents p.ip.daddr, []⟩ = (.ok (), f) ∧
        ReadsLive f.log := by
  have hrun : (runActs prependNb Net.boot (lineUp ++ [.expire 0 (idle [0, 2]), .deliver 0 0 9 (idle []),
      .deliver 0 0 9 (idle [])] : List (Act ℚ))).map
      (fun s => s.inFlight.map fun p => (p.path, p.cmn.direction)) =
      some [([0, 1, 2], .UP)] := by decide +kernel
  obtain ⟨s, hs, hp⟩ := Option.map_eq_some_iff.mp hrun
  obtain ⟨p, hin, hpe⟩ := List.map_eq_singleton_iff.mp hp
  obtain ⟨hpath, hdir⟩ := Prod.mk.injEq .. ▸ hpe
  have hmem : p ∈ s.inFlight := by rw [hin]; exact List.mem_singleton_self p
  have hr := runActs_reachable boot_initial hs
  obtain ⟨hne, -, -, -, f, he, hlive, -⟩ := (no_abnormal_path hr).1 p hmem 0 9 (idle [])
  exact ⟨s, hr, p, hmem, hpath, hdir, hne, f, he, hlive⟩

end AntNet.L4
