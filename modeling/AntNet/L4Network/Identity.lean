import AntNet.L4Network.Links

/-!
# The identity of an ant in a trace

`format_antnet` prints `pkt_src` and `pkt_seq_num`. The sequence number is the
generating agent's 8-bit counter (`Numbered`): the number of ants the node has
generated before, modulo 256. `pkt_src` is the generating node for a forward
ant; `create_backward_ant_pkt` swaps the ends, so a backward ant is printed
under the node it turned at.

* `same_identity`: two ants in flight at once, from different nodes, printed
  with the same pair.
* `traced_identity`: what the pair determines, and exactly when two ants share
  it. With the generating node in place of `pkt_src` only ants of one node
  share a pair, with a multiple of 256 ants of that node from one to the other.
-/
namespace AntNet.L4

open AntNet.L1 AntNet.L2 AntNet.L3

variable {K : Type}

/-- What the three formats print, in this order.
mirrors trace/cmu-trace.cc:1306-1326 -/
def formatAntnet (p : Packet K) : Nsaddr × UInt8 × UInt16 :=
  (p.ant.pktSrc, p.ant.pktSeqNum, p.ant.pktLen)

/-- The traced identity. -/
def identity (p : Packet K) : Nsaddr × UInt8 := ((formatAntnet p).1, (formatAntnet p).2.1)

/-- The end of the ant's way that generated it. -/
def generator (p : Packet K) : Nsaddr :=
  if p.cmn.direction = .DOWN then p.ant.pktSrc else p.ant.pktDst

/-- Ant `u` was generated by node `n`. -/
def GeneratedBy (s : Net K) (n : Nsaddr) (u : Nat) : Prop := (s.hist u).head?.map Visit.node = some n

instance (s : Net K) (n : Nsaddr) (u : Nat) : Decidable (GeneratedBy s n u) := by
  unfold GeneratedBy; infer_instance

/-- The ants node `n` generated before ant `u`. -/
def generatedBefore (s : Net K) (n : Nsaddr) (u : Nat) : Nat :=
  (List.range u).countP fun u' => GeneratedBy s n u'

/-! ## Counting -/

theorem generatedBefore_succ (s : Net K) (n : Nsaddr) (u : Nat) :
    generatedBefore s n (u + 1) = generatedBefore s n u + if GeneratedBy s n u then 1 else 0 := by
  simp [generatedBefore, List.range_succ, List.countP_append, List.countP_cons]

theorem generatedBefore_mono (s : Net K) (n : Nsaddr) {u u' : Nat} (h : u ≤ u') :
    generatedBefore s n u ≤ generatedBefore s n u' :=
  List.Sublist.countP_le (List.range_sublist.mpr h)

/-- Two ants of one node have different numbers. -/
theorem generatedBefore_ne {s : Net K} {n : Nsaddr} {u u' : Nat} (h : GeneratedBy s n u)
    (h' : GeneratedBy s n u') (hne : u ≠ u') : generatedBefore s n u ≠ generatedBefore s n u' := by
  have key : ∀ {u u' : Nat}, GeneratedBy s n u → u < u' →
      generatedBefore s n u < generatedBefore s n u' := by
    intro u u' h hlt
    have hsucc := generatedBefore_succ s n u
    rw [if_pos h] at hsucc
    have hmono := generatedBefore_mono s n (show u + 1 ≤ u' from hlt)
    omega
  rcases Nat.lt_or_gt_of_ne hne with hlt | hgt
  · exact (key h hlt).ne
  · exact (key h' hgt).ne'

theorem generatedBefore_congr {s s' : Net K} {n : Nsaddr} {u : Nat}
    (h : ∀ u' < u, (s'.hist u').head? = (s.hist u').head?) :
    generatedBefore s' n u = generatedBefore s n u := by
  apply List.countP_congr
  intro u' hu'
  simp only [GeneratedBy, h u' (List.mem_range.mp hu')]

theorem ofNat_eq_iff (a b : Nat) : UInt8.ofNat a = UInt8.ofNat b ↔ a % 256 = b % 256 := by
  rw [← UInt8.toNat_inj, UInt8.toNat_ofNat', UInt8.toNat_ofNat']

section Step

variable [Arithmetic K] [LinearOrder K] {addNb : List Nsaddr → Nsaddr → List Nsaddr} {s s' : Net K}
  {l : Act K}

/-! ## The counters -/

theorem command_antSeqNum (hl : l.isCommand = true) (h : step addNb s l = some s') (m : Nsaddr) :
    (s'.agents m).antSeqNum = (s.agents m).antSeqNum := by
  cases l with
  | expire | deliver | lose => cases hl
  | addNeighbor => cases h; rfl
  | advance t =>
    simp only [step] at h
    split at h
    · cases h; rfl
    · cases h
  | start n =>
    cases h
    by_cases hm : m = n
    · subst hm
      simp only [setAgent, Function.update_self]
      unfold L3.start initializeRtable
      dsimp only
      split <;> rfl
    · simp [setAgent, hm]
  | stop n | setRFactor n | setNumNodes n =>
    cases h
    by_cases hm : m = n
    · subst hm
      simp [setAgent, L3.stop]
    · simp [setAgent, hm]

/-- A step generates one ant, and moves the counter of its node, or it
generates none and leaves the counters alone. -/
theorem trans_generates (h : Trans addNb s l s') (hi : Inv s) :
    (s'.uidcnt = s.uidcnt ∧ ∀ m, (s'.agents m).antSeqNum = (s.agents m).antSeqNum) ∨
      ∃ v : Visit K, s'.uidcnt = s.uidcnt + 1 ∧ s'.hist s.uidcnt = [v] ∧
        ∀ m, (s'.agents m).antSeqNum = (s.agents m).antSeqNum + if m = v.node then 1 else 0 := by
  cases h with
  | command hl hst =>
    exact .inl ⟨(command_cases hl hst).1.uidcnt, command_antSeqNum hl hst⟩
  | @expire n o d q log _ hsent _ =>
    obtain ⟨dest, -, hg⟩ := hsent.generated
    refine .inr ⟨⟨n, .DOWN, s.clock, log⟩, rfl, ?_, fun m => ?_⟩
    · rw [← hg.uid, finish_hist, hg.uid]
      show s.hist s.uidcnt ++ _ = _
      rw [hi.fresh _ (Nat.le_refl _)]
      rfl
    · by_cases hm : m = n
      · subst hm
        simp [finish, afterSend]
      · simp [finish, hm]
  | @deliver i nf ttl o p q d a c log hp ho _ =>
    refine .inl ⟨rfl, fun m => ?_⟩
    by_cases hm : m = p.ip.daddr
    · subst hm
      simp only [finish, Function.update_self]
      rcases ho.agent with ⟨rfl, -⟩ | ⟨-, j, next, -, -, rfl, -⟩
      · rfl
      · rfl
    · simp [finish, hm]
  | lose hp => exact .inl ⟨rfl, fun m => rfl⟩

/-- Who generated an ant does not change. -/
theorem trans_head (h : Trans addNb s l s') {u : Nat} (hu : s.hist u ≠ []) :
    (s'.hist u).head? = (s.hist u).head? := by
  cases trans_hist h u with
  | same he => rw [he]
  | sent _ _ _ _ he | received _ _ _ _ _ he =>
    rw [he, List.head?_append_of_ne_nil _ hu]

/-- Every ant generated is on record, every counter counts the ants of its
node, and every ant in flight carries its number. -/
structure Numbered (s : Net K) : Prop where
  seen : ∀ u < s.uidcnt, s.hist u ≠ []
  agents : ∀ n, (s.agents n).antSeqNum = UInt8.ofNat (generatedBefore s n s.uidcnt)
  ants : ∀ p ∈ s.inFlight, ∀ n, GeneratedBy s n p.cmn.uid →
    p.ant.pktSeqNum = UInt8.ofNat (generatedBefore s n p.cmn.uid)

theorem seen_step (h : Trans addNb s l s') (hi : Inv s) (hn : ∀ u < s.uidcnt, s.hist u ≠ []) :
    ∀ u < s'.uidcnt, s'.hist u ≠ [] := by
  have hseen : ∀ u < s.uidcnt, s'.hist u ≠ [] := by
    intro u hu hnil
    have := trans_head h (hn u hu)
    rw [hnil, List.head?_nil] at this
    exact hn u hu (List.head?_eq_none_iff.mp this.symm)
  intro u hu
  rcases trans_generates h hi with ⟨hc, -⟩ | ⟨v, hc, hv, -⟩
  · exact hseen u (by omega)
  · rcases Nat.lt_or_ge u s.uidcnt with hlt | hge
    · exact hseen u hlt
    · rw [show u = s.uidcnt by omega, hv]
      exact List.cons_ne_nil _ _

/-- A step does not change how many ants were generated before an earlier one. -/
theorem generatedBefore_step (h : Trans addNb s l s') (hn : ∀ u < s.uidcnt, s.hist u ≠ [])
    (n : Nsaddr) {u : Nat} (hu : u ≤ s.uidcnt) : generatedBefore s' n u = generatedBefore s n u := by
  apply generatedBefore_congr
  intro u' hu'
  exact trans_head h (hn u' (by omega))

/-- A counter still counts the ants of its node after a step. -/
theorem counter_step (h : Trans addNb s l s') (hi : Inv s) (hn : Numbered s) (n : Nsaddr) :
    (s'.agents n).antSeqNum = UInt8.ofNat (generatedBefore s' n s'.uidcnt) := by
  have hsame := generatedBefore_step h hn.seen n (Nat.le_refl _)
  rcases trans_generates h hi with ⟨hc, ha⟩ | ⟨v, hc, hv, ha⟩
  · rw [ha, hc, hsame]
    exact hn.agents n
  · rw [ha, hc, generatedBefore_succ, hsame, hn.agents n]
    have hby : GeneratedBy s' n s.uidcnt ↔ n = v.node := by
      unfold GeneratedBy
      rw [hv]
      simp [eq_comm]
    by_cases hnv : n = v.node
    · rw [if_pos hnv, if_pos (hby.mpr hnv), UInt8.ofNat_add]
      rfl
    · rw [if_neg hnv, if_neg (fun hb => hnv (hby.mp hb)), Nat.add_zero]
      simp

theorem numbered_step (h : Trans addNb s l s') (hi : Inv s) (hn : Numbered s) : Numbered s' := by
  refine ⟨seen_step h hi hn.seen, counter_step h hi hn, ?_⟩
  intro q hq n hby
  cases trans_inFlight h hi.ledger hq with
  | stayed hm hh =>
    have hlt := hi.ledger.uid_lt hm
    rw [generatedBefore_step h hn.seen n hlt.le]
    apply hn.ants q hm n
    unfold GeneratedBy at hby ⊢
    rw [← hh]; exact hby
  | @born m o log _ hsent hh =>
    obtain ⟨dest, -, hg⟩ := hsent.generated
    have hnm : n = m := by
      unfold GeneratedBy at hby
      rw [hh, hg.uid, hi.fresh _ (Nat.le_refl _)] at hby
      simpa [eq_comm] using hby
    rw [hg.pktSeqNum, hg.uid, generatedBefore_step h hn.seen n (Nat.le_refl _), hnm]
    exact hn.agents m
  | @moved i nf ttl o p a c log _ hp ho hh =>
    have hpm := List.mem_of_getElem? hp
    have hu : q.cmn.uid = p.cmn.uid := ho.uid
    have hlt := hi.ledger.uid_lt hpm
    rw [ho.kept.pktSeqNum, hu, generatedBefore_step h hn.seen n hlt.le]
    apply hn.ants p hpm n
    unfold GeneratedBy at hby ⊢
    rw [← trans_head h (hn.seen _ hlt), ← hu]
    exact hby

theorem numbered_reachable (h : (net addNb).Reachable s) : Numbered s := by
  refine LTS.reachable_induct (I := Numbered) ?_ ?_ h
  · intro s hi
    refine ⟨?_, ?_, ?_⟩
    · intro u hu
      rw [hi.uidcnt] at hu
      exact absurd hu (Nat.not_lt_zero u)
    · intro n
      rw [hi.antSeqNum, hi.uidcnt]
      rfl
    · intro p hp
      rw [hi.inFlight] at hp; cases hp
  · intro a l b ha ih hs
    exact numbered_step (trans_of_reachable ha hs) (inv_reachable ha) ih

/-! ## The identity -/

/-- **Two ants with one identity**: an ant of 0 that has turned at 2, and the
first ant of 2. -/
theorem same_identity : ∃ s : Net ℚ, (net prependNb).Reachable s ∧
    ∃ p ∈ s.inFlight, ∃ q ∈ s.inFlight, p.cmn.uid ≠ q.cmn.uid ∧ identity p = identity q := by
  have hrun : (runActs prependNb Net.boot (lineUp ++ [.expire 0 (idle [0, 2]), .deliver 0 0 9 (idle []),
      .deliver 0 0 9 (idle []), .expire 2 (idle [0])] : List (Act ℚ))).map
      (fun s => s.inFlight.map fun p => (p.cmn.uid, identity p)) = some [(0, (2, 0)), (1, (2, 0))] := by
    decide +kernel
  obtain ⟨s, hs, hp⟩ := Option.map_eq_some_iff.mp hrun
  obtain ⟨p, hpm, hpe⟩ := List.mem_map.mp (hp ▸ List.mem_cons_self : (0, ((2 : Nsaddr), (0 : UInt8))) ∈ _)
  obtain ⟨q, hqm, hqe⟩ := List.mem_map.mp
    (hp ▸ List.mem_cons_of_mem _ List.mem_cons_self : (1, ((2 : Nsaddr), (0 : UInt8))) ∈ _)
  rw [Prod.mk.injEq] at hpe hqe
  refine ⟨s, runActs_reachable boot_initial hs, p, hpm, q, hqm, ?_, hpe.2.trans hqe.2.symm⟩
  rw [hpe.1, hqe.1]
  decide

/-- The header says who generated the ant, and a backward ant's `pkt_src` is the end of its path. -/
theorem generator_spec (h : (net addNb).Reachable s) {p : Packet K} (hp : p ∈ s.inFlight) :
    GeneratedBy s (generator p) p.cmn.uid ∧
      (p.cmn.direction = .DOWN → (identity p).1 = generator p) ∧
      (p.cmn.direction = .UP → p.path.getLast? = some (identity p).1 ∧ (identity p).1 ≠ generator p) := by
  obtain ⟨v, hv, hw⟩ := (inv_reachable h).ants p hp
  have hby : ∀ n, p.path.head? = some n → GeneratedBy s n p.cmn.uid := by
    intro n hn
    unfold GeneratedBy
    rw [hv, ← hn, hw.head]
    rfl
  rcases hw.heading with ⟨hd, ho⟩ | ⟨hu, hh⟩
  · have hg : generator p = p.ant.pktSrc := if_pos hd
    refine ⟨hby _ (by rw [hg]; exact ho.src), fun _ => hg.symm, fun hu => ?_⟩
    rw [hd] at hu; cases hu
  · have hg : generator p = p.ant.pktDst := if_neg (by rw [hu]; decide)
    refine ⟨hby _ (by rw [hg]; exact hh.dst), fun hd => ?_, fun _ => ⟨hh.last, fun he => ?_⟩⟩
    · rw [hu] at hd; cases hd
    · -- the first and the last node of a path with a link on it differ
      obtain ⟨j, -, hj1⟩ := hh.between
      have hlt := (List.getElem?_eq_some_iff.mp hj1).1
      have hlast := hh.last
      have hdst := hh.dst
      rw [← hg, ← he, List.head?_eq_getElem?] at hdst
      rw [List.getLast?_eq_getElem?] at hlast
      have := (List.getElem?_inj (by omega) hw.nodup).mp (hdst.trans hlast.symm)
      omega

/-- **What a traced identity tells.** -/
theorem traced_identity (h : (net addNb).Reachable s) :
    (∀ p ∈ s.inFlight, GeneratedBy s (generator p) p.cmn.uid ∧
      p.ant.pktSeqNum = UInt8.ofNat (generatedBefore s (generator p) p.cmn.uid) ∧
      (p.cmn.direction = .DOWN → (identity p).1 = generator p) ∧
      (p.cmn.direction = .UP →
        p.path.getLast? = some (identity p).1 ∧ (identity p).1 ≠ generator p)) ∧
    ∀ p ∈ s.inFlight, ∀ q ∈ s.inFlight, p.cmn.uid ≠ q.cmn.uid →
      (generator p = generator q →
        generatedBefore s (generator p) p.cmn.uid ≠ generatedBefore s (generator q) q.cmn.uid) ∧
      ((generator p, p.ant.pktSeqNum) = (generator q, q.ant.pktSeqNum) ↔
        generator p = generator q ∧
          generatedBefore s (generator p) p.cmn.uid % 256 =
            generatedBefore s (generator q) q.cmn.uid % 256) ∧
      (identity p = identity q ↔ (identity p).1 = (identity q).1 ∧
        generatedBefore s (generator p) p.cmn.uid % 256 =
          generatedBefore s (generator q) q.cmn.uid % 256) := by
  have hnum : ∀ p ∈ s.inFlight,
      p.ant.pktSeqNum = UInt8.ofNat (generatedBefore s (generator p) p.cmn.uid) := by
    intro p hp
    exact (numbered_reachable h).ants p hp _ (generator_spec h hp).1
  constructor
  · intro p hp
    obtain ⟨hby, hd, hu⟩ := generator_spec h hp
    exact ⟨hby, hnum p hp, hd, hu⟩
  · intro p hp q hq hne
    refine ⟨fun hg => ?_, ?_, ?_⟩
    · rw [hg]
      exact generatedBefore_ne (hg ▸ (generator_spec h hp).1) (generator_spec h hq).1 hne
    · rw [Prod.mk.injEq, hnum p hp, hnum q hq, ofNat_eq_iff]
    · rw [Prod.ext_iff]
      show _ ∧ p.ant.pktSeqNum = q.ant.pktSeqNum ↔ _
      rw [hnum p hp, hnum q hq, ofNat_eq_iff]

end Step

/-- Two forward ants of 0 in flight. -/
theorem traced_identity_line : ∃ s : Net ℚ, (net prependNb).Reachable s ∧
    s.inFlight.map identity = [(0, 0), (0, 1)] ∧
    ∀ p ∈ s.inFlight, p.ant.pktSeqNum = UInt8.ofNat (generatedBefore s (generator p) p.cmn.uid) := by
  have hrun : (runActs prependNb Net.boot (lineUp ++ [.expire 0 (idle [2]), .expire 0 (idle [1])] :
      List (Act ℚ))).map (fun s => s.inFlight.map identity) = some [(0, 0), (0, 1)] := by decide +kernel
  obtain ⟨s, hs, hp⟩ := Option.map_eq_some_iff.mp hrun
  have hr := runActs_reachable boot_initial hs
  exact ⟨s, hr, hp, fun p hp => ((traced_identity hr).1 p hp).2.1⟩

end AntNet.L4
