import AntNet.L4Network.TableEffect
import AntNet.L4Network.TimeToLive

/-!
# What an ant tells the tables

All calls of `rtable_.update` that the handlers of one ant make, over its whole
life and at all nodes (`tableUpdates`). For an ant that is home they are the
calls due for its path `m`, the loop erasure of its way out: at every `m_i` one
call for each later `m_j`, over the link to `m_(i+1)` (`report`). Before that
they are the calls due for the part of the path it is back from.

* `reports`: no node is told about one destination twice by the same ant, and
  an ant that is home has told all of them.
-/
namespace AntNet.L4

open AntNet.L1 AntNet.L2 AntNet.L3 AntNet.LoopErasure

variable {K : Type}

/-! ## The calls due for a path -/

/-- The calls at `x`, when the ant went on over the nodes `later`. -/
def reportAt (x : Nsaddr) (later : List Nsaddr) : List (Nsaddr × Nsaddr × Nsaddr) :=
  match later with
  | [] => []
  | next :: _ => later.map fun d => (x, d, next)

/-- The calls at all nodes of a path, the last node first. -/
def report : List Nsaddr → List (Nsaddr × Nsaddr × Nsaddr)
  | [] => []
  | x :: later => report later ++ reportAt x later

theorem report_drop {m : List Nsaddr} {j : Nat} {x : Nsaddr} (h : m[j]? = some x) :
    report (m.drop j) = report (m.drop (j + 1)) ++ reportAt x (m.drop (j + 1)) := by
  obtain ⟨hj, rfl⟩ := List.getElem?_eq_some_iff.mp h
  rw [List.drop_eq_getElem_cons hj, report]

theorem reportAt_eq {m : List Nsaddr} {j : Nat} {next : Nsaddr} (h : m[j + 1]? = some next)
    (x : Nsaddr) : reportAt x (m.drop (j + 1)) = (m.drop (j + 1)).map fun d => (x, d, next) := by
  obtain ⟨hj, rfl⟩ := List.getElem?_eq_some_iff.mp h
  rw [List.drop_eq_getElem_cons hj, reportAt]

theorem mem_reportAt {x a d next : Nsaddr} {later : List Nsaddr} :
    (a, d, next) ∈ reportAt x later ↔ a = x ∧ later.head? = some next ∧ d ∈ later := by
  cases later with
  | nil => simp [reportAt]
  | cons y later =>
    simp only [reportAt, List.mem_map, Prod.mk.injEq, List.head?_cons, Option.some.injEq]
    constructor
    · rintro ⟨e, he, rfl, rfl, rfl⟩
      exact ⟨rfl, rfl, he⟩
    · rintro ⟨rfl, rfl, hd⟩
      exact ⟨d, hd, rfl, rfl, rfl⟩

theorem report_short {m : List Nsaddr} (h : m.length ≤ 1) : report m = [] := by
  match m, h with
  | [], _ => rfl
  | [_], _ => rfl

/-- **What is due**: at every node of the path one call for each later one,
over the link to the node that follows. -/
theorem mem_report {a d next : Nsaddr} : ∀ {m : List Nsaddr}, (a, d, next) ∈ report m ↔
    ∃ i j, i < j ∧ m[i]? = some a ∧ m[i + 1]? = some next ∧ m[j]? = some d
  | [] => by simp [report]
  | x :: later => by
    rw [report, List.mem_append, mem_report, mem_reportAt]
    constructor
    · rintro (⟨i, j, hij, ha, hn, hd⟩ | ⟨rfl, hn, hd⟩)
      · exact ⟨i + 1, j + 1, Nat.succ_lt_succ hij, ha, hn, hd⟩
      · obtain ⟨j, hj⟩ := List.mem_iff_getElem?.mp hd
        exact ⟨0, j + 1, Nat.succ_pos j, rfl, by rw [← hn, List.head?_eq_getElem?]; rfl, hj⟩
    · rintro ⟨i, j, hij, ha, hn, hd⟩
      obtain ⟨j, rfl⟩ : ∃ j', j = j' + 1 := ⟨j - 1, by omega⟩
      cases i with
      | zero =>
        refine .inr ⟨(Option.some.inj ha).symm, ?_, List.mem_of_getElem? hd⟩
        rw [List.head?_eq_getElem?]
        exact hn
      | succ i => exact .inl ⟨i, j, by omega, ha, hn, hd⟩

/-- On a path without loops no node is told about a destination twice. -/
theorem report_nodup : ∀ {m : List Nsaddr}, m.Nodup →
    ((report m).map fun c => (c.1, c.2.1)).Nodup
  | [], _ => List.nodup_nil
  | x :: later, h => by
    obtain ⟨hx, hl⟩ := List.nodup_cons.mp h
    rw [report, List.map_append]
    refine List.nodup_append.mpr ⟨report_nodup hl, ?_, ?_⟩
    · cases later with
      | nil => exact List.nodup_nil
      | cons y later =>
        rw [reportAt, List.map_map]
        exact hl.map fun a b hab => (Prod.mk.inj hab).2
    · rintro c hc c' hc' rfl
      obtain ⟨⟨a, d, n⟩, hm, rfl⟩ := List.mem_map.mp hc
      obtain ⟨⟨a', d', n'⟩, hm', he⟩ := List.mem_map.mp hc'
      obtain ⟨i, j, -, ha, -⟩ := mem_report.mp hm
      obtain ⟨rfl, -⟩ := mem_reportAt.mp hm'
      obtain rfl : a' = a := (Prod.mk.inj he).1
      exact hx (List.mem_of_getElem? ha)

/-! ## The calls on record -/

/-- The calls of `rtable_.update` in a history: at which node, for which
destination, over which link. -/
def tableUpdates (h : List (Visit K)) : List (Nsaddr × Nsaddr × Nsaddr) :=
  h.flatMap fun v => (rtUpdates v.log).map fun c => (v.node, c.1, c.2)

theorem tableUpdates_snoc (h : List (Visit K)) (v : Visit K) :
    tableUpdates (h ++ [v]) = tableUpdates h ++ (rtUpdates v.log).map fun c => (v.node, c.1, c.2) := by
  simp [tableUpdates]

/-- A visit without calls adds none. -/
theorem tableUpdates_silent (h : List (Visit K)) {v : Visit K} (hv : rtUpdates v.log = []) :
    tableUpdates (h ++ [v]) = tableUpdates h := by
  rw [tableUpdates_snoc, hv]
  exact List.append_nil _

/-- The calls of `update_table` at `m_j` complete those due from there on. -/
theorem tableUpdates_at {h : List (Visit K)} {p : Packet K} {j : Nat} {x next : Nsaddr} {dir : Dir}
    {t : K} {d : Event} {log : List Event} (hh : tableUpdates h = report (p.path.drop (j + 1)))
    (hj : p.path[j]? = some x) (hn : p.path[j + 1]? = some next)
    (hlog : Ended d (updateLog p j next) log) (hd : d.disposes = true) :
    tableUpdates (h ++ [⟨x, dir, t, log⟩]) = report (p.path.drop j) := by
  have hcalls : rtUpdates log = (p.path.drop (j + 1)).map fun d => (d, next) := by
    rw [hlog.rtUpdates hd, rtUpdates_updateLog]
  rw [tableUpdates_snoc, hh, report_drop hj, reportAt_eq hn]
  show _ ++ (rtUpdates log).map _ = _
  rw [hcalls, List.map_map]
  rfl

section Step

variable [Arithmetic K] [LinearOrder K] {addNb : List Nsaddr → Nsaddr → List Nsaddr} {s s' : Net K}
  {l : Act K} {u : Nat}

/-- What an ant in flight has told the tables: nothing on its way out, and on
its way back from `m_(j+1)` all that is due from there on. -/
structure Told (s : Net K) (p : Packet K) : Prop where
  out : p.cmn.direction = .DOWN → tableUpdates (s.hist p.cmn.uid) = []
  back : p.cmn.direction = .UP → ∃ j, p.path[j]? = some p.ip.daddr ∧
    p.path[j + 1]? = some p.ip.saddr ∧
    tableUpdates (s.hist p.cmn.uid) = report (p.path.drop (j + 1))

omit [Arithmetic K] [LinearOrder K] in
theorem Told.of_eq {p : Packet K} (h : Told s p) (hh : s'.hist p.cmn.uid = s.hist p.cmn.uid) :
    Told s' p := by
  refine ⟨fun hd => ?_, fun hu => ?_⟩
  · rw [hh]; exact h.out hd
  · rw [hh]; exact h.back hu

section Delivery

variable {i : Nat} {nf ttl : Int} {o : Oracle K} {p : Packet K}

/-- The way out and the turn tell the tables nothing. -/
theorem told_outward (ht : Trans addNb s (.deliver i nf ttl o) s') (hp : s.inFlight[i]? = some p)
    (hd : p.cmn.direction = .DOWN) (h : Told s p) : tableUpdates (s'.hist p.cmn.uid) = [] := by
  cases trans_hist ht p.cmn.uid with
  | same he => rw [he]; exact h.out hd
  | sent hl => cases hl
  | @received _ _ _ _ p' q d a c log hl hp' ho _ hlog he =>
    cases hl
    obtain rfl : p = p' := Option.some.inj (hp.symm.trans hp')
    rw [he, tableUpdates_silent, h.out hd]
    rcases ho.agent with ⟨-, rfl⟩ | ⟨hup, -⟩
    · exact hlog.rtUpdates ho.disposes
    · exact absurd (hup.symm.trans hd) (by decide)

/-- A delivery on the way back, at `m_j`. -/
theorem told_homeward (hi : Inv s) (ht : Trans addNb s (.deliver i nf ttl o) s')
    (hp : s.inFlight[i]? = some p) (hu : p.cmn.direction = .UP) (h : Told s p) :
    ∃ j, p.path[j]? = some p.ip.daddr ∧
      tableUpdates (s'.hist p.cmn.uid) = report (p.path.drop j) := by
  obtain ⟨v, -, hw⟩ := hi.ants p (List.mem_of_getElem? hp)
  obtain ⟨j, hj, hj1, hcalls⟩ := h.back hu
  refine ⟨j, hj, ?_⟩
  have hgrow := hist_of_delivers (u := p.cmn.uid) ht ⟨i, nf, ttl, o, p, rfl, hp, rfl⟩
  cases trans_hist ht p.cmn.uid with
  | same he => rw [he] at hgrow; exact absurd hgrow (Nat.lt_irrefl _)
  | sent hl => cases hl
  | @received _ _ _ _ p' q d a c log hl hp' ho _ hlog he =>
    cases hl
    obtain rfl : p = p' := Option.some.inj (hp.symm.trans hp')
    have hat : (arrive p nf ttl).path[j]? = some (s.agents p.ip.daddr).addr :=
      hj.trans (congrArg some (hi.configured.addr _).symm)
    obtain ⟨-, rfl⟩ := ho.updated hu hw.nodup hat hj1
    rw [he]
    exact tableUpdates_at hcalls hj hj1 hlog ho.disposes

end Delivery

theorem told_step (hi : Inv s) (ht : Trans addNb s l s') (h : ∀ p ∈ s.inFlight, Told s p) :
    ∀ q ∈ s'.inFlight, Told s' q := by
  intro q hq
  cases trans_inFlight ht hi.ledger hq with
  | stayed hm hh => exact (h q hm).of_eq hh
  | @born n o log hl hsent hh =>
    obtain ⟨dest, -, hg⟩ := hsent.generated
    refine ⟨fun _ => ?_, fun hu => absurd (hu.symm.trans hg.direction) (by decide)⟩
    cases trans_hist ht q.cmn.uid with
    | same he =>
      rw [he, hg.uid, hi.fresh _ (Nat.le_refl _)]
      rfl
    | sent _ hsent' _ hlog he =>
      rw [he, tableUpdates_silent _ (hlog.rtUpdates hsent'.disposes), hg.uid,
        hi.fresh _ (Nat.le_refl _)]
      rfl
    | received hl' => rw [hl] at hl'; cases hl'
  | @moved i nf ttl o p a c log hl hp ho hh =>
    subst hl
    have hp' := h p (List.mem_of_getElem? hp)
    have hu : q.cmn.uid = p.cmn.uid := ho.uid
    cases ho with
    | turn hd _ _ hm hj hprev =>
      refine ⟨nofun, fun _ => ⟨_, hprev, ?_, ?_⟩⟩
      · have hlast := getLast?_revisit p.path (s.agents p.ip.daddr).addr
        rw [show revisit p.path _ = _ from hm.path.symm, List.getLast?_eq_getElem?, ← hj] at hlast
        exact hlast
      · rw [hu, told_outward ht hp hd hp', hop_path, asBackward_path, swapEnds_path,
          report_short (by rw [List.length_drop]; omega)]
    | forward hd _ _ hm =>
      refine ⟨fun _ => ?_, fun hup => ?_⟩
      · rw [hu]; exact told_outward ht hp hd hp'
      · rw [hop_direction, hm.cmn] at hup
        exact absurd (hup.symm.trans hd) (by decide)
    | @back j prev next hup _ hprev hat hnext =>
      obtain ⟨v, -, hw⟩ := hi.ants p (List.mem_of_getElem? hp)
      obtain ⟨j', hj', hcalls⟩ := told_homeward hi ht hp hup hp'
      have hat' : p.path[j + 1]? = some p.ip.daddr := hi.configured.addr p.ip.daddr ▸ hat
      obtain rfl : j' = j + 1 := (List.getElem?_inj (List.getElem?_eq_some_iff.mp hj').1
        hw.nodup).mp (hj'.trans hat'.symm)
      refine ⟨nofun, fun _ => ⟨j, hprev, hat, ?_⟩⟩
      rw [hu]
      exact hcalls

theorem told_reachable (h : (net addNb).Reachable s) : ∀ p ∈ s.inFlight, Told s p := by
  refine LTS.reachable_induct (I := fun s : Net K => ∀ p ∈ s.inFlight, Told s p) ?_ ?_ h
  · intro s hi p hp
    rw [hi.inFlight] at hp; cases hp
  · intro a l b ha ih hs
    exact told_step (inv_reachable ha) (trans_of_reachable ha hs) ih

/-! ## Wherever the ant is -/

/-- What ant `u` has told the tables: all that is due from some node of its
path on, and, once it is home, all that is due. -/
structure Accounted (s : Net K) (u : Nat) : Prop where
  part : ∃ j, tableUpdates (s.hist u) = report ((loopErase (walk (s.hist u))).drop j)
  home : u ∈ s.freed → (∃ v ∈ s.hist u, v.dir = .UP) →
    tableUpdates (s.hist u) = report (loopErase (walk (s.hist u)))

omit [Arithmetic K] [LinearOrder K] in
theorem Accounted.of_eq (h : Accounted s u) (hh : s'.hist u = s.hist u)
    (hf : u ∈ s'.freed → u ∈ s.freed) : Accounted s' u := by
  refine ⟨?_, fun hu hv => ?_⟩
  · rw [hh]; exact h.part
  · rw [hh] at hv ⊢
    exact h.home (hf hu) hv

omit [Arithmetic K] [LinearOrder K] in
/-- An ant that has told the tables nothing, and has only been on its way out. -/
theorem Accounted.outward (hc : tableUpdates (s.hist u) = []) (hd : ∀ v ∈ s.hist u, v.dir = .DOWN) :
    Accounted s u := by
  refine ⟨⟨(loopErase (walk (s.hist u))).length, ?_⟩, ?_⟩
  · rw [hc, List.drop_length]
    rfl
  · rintro - ⟨v, hv, hup⟩
    exact absurd (hup.symm.trans (hd v hv)) (by decide)

/-- A delivery that ends the way back is the one at the head of the path. -/
theorem freed_at_head (hr : (net addNb).Reachable s) {i : Nat} {nf ttl : Int} {o : Oracle K}
    {p : Packet K} (ht : Trans addNb s (.deliver i nf ttl o) s') (hp : s.inFlight[i]? = some p)
    (hu : p.cmn.direction = .UP) (hf : p.cmn.uid ∈ s'.freed) :
    p.path[0]? = some p.ip.daddr := by
  have hi := inv_reachable hr
  have hpm := List.mem_of_getElem? hp
  obtain ⟨v, -, hw⟩ := hi.ants p hpm
  have hgrow := hist_of_delivers (u := p.cmn.uid) ht ⟨i, nf, ttl, o, p, rfl, hp, rfl⟩
  cases trans_went ht hi.ledger hpm with
  | stayed _ hh => rw [hh] at hgrow; exact absurd hgrow (Nat.lt_irrefl _)
  | lost hl => cases hl
  | @received _ _ _ _ q d a c log _ _ ho _ hs' =>
    subst hs'
    rcases (ho.up hu).2 with ⟨-, hat⟩ | ⟨rfl, -⟩
    · rw [← List.head?_eq_getElem?, (hw.homebound hu).dst, ← hi.configured.addr p.ip.daddr]
      exact congrArg some hat.symm
    · rcases List.mem_append.mp hf with h0 | h1
      · exact absurd rfl (hi.ledger.not_inFlight h0 hpm)
      · cases h1

theorem accounted_deliver (hr : (net addNb).Reachable s) {i : Nat} {nf ttl : Int} {o : Oracle K}
    {p : Packet K} (hs : (net addNb).step s (.deliver i nf ttl o) s') (hp : s.inFlight[i]? = some p) :
    Accounted s' p.cmn.uid := by
  have hi := inv_reachable hr
  have ht := trans_of_reachable hr hs
  have hpm := List.mem_of_getElem? hp
  have htold := told_reachable hr p hpm
  obtain ⟨v, -, hw⟩ := hi.ants p hpm
  rcases hw.heading with ⟨hd, -⟩ | ⟨hu, -⟩
  · refine .outward (told_outward ht hp hd htold) fun v hv => ?_
    have hall := (walk_outward hr hp hd hs).1
    unfold walk at hall
    rw [List.length_map] at hall
    exact of_decide_eq_true (List.length_filter_eq_length_iff.mp hall v hv)
  · obtain ⟨j, hj, hcalls⟩ := told_homeward hi ht hp hu htold
    have hpath : loopErase (walk (s'.hist p.cmn.uid)) = p.path := by
      rw [hi.walk p hpm]
      cases trans_hist ht p.cmn.uid with
      | same he => rw [he]
      | sent hl => cases hl
      | received hl hp' _ _ _ he =>
        cases hl
        obtain rfl := Option.some.inj (hp.symm.trans hp')
        rw [he, walk_snoc_up _ hu]
    refine ⟨⟨j, by rw [hpath]; exact hcalls⟩, fun hf _ => ?_⟩
    have h0 := freed_at_head hr ht hp hu hf
    obtain rfl : j = 0 := (List.getElem?_inj (List.getElem?_eq_some_iff.mp hj).1 hw.nodup).mp
      (hj.trans h0.symm)
    rw [hpath]
    exact hcalls

theorem accounted_step (hr : (net addNb).Reachable s) (hs : (net addNb).step s l s')
    (h : ∀ u, Accounted s u) (u : Nat) : Accounted s' u := by
  have hi := inv_reachable hr
  have ht := trans_of_reachable hr hs
  cases ht with
  | command hl hst =>
    obtain ⟨hk, -⟩ := command_cases hl hst
    exact (h u).of_eq (congrFun hk.hist u) (hk.freed ▸ id)
  | @expire n o d q log _ hsent hlog =>
    obtain ⟨dest, -, hg⟩ := hsent.generated
    by_cases hu : u = q.cmn.uid
    · subst hu
      have hh : (finish { s with uidcnt := s.uidcnt + 1 } n .DOWN d q (afterSend (s.agents n))
          log).hist q.cmn.uid = [⟨n, .DOWN, s.clock, log⟩] := by
        rw [finish_hist, hg.uid]
        show s.hist s.uidcnt ++ _ = _
        rw [hi.fresh _ (Nat.le_refl _)]
        rfl
      refine .outward ?_ fun v hv => ?_
      · rw [hh]
        exact tableUpdates_silent [] (hlog.rtUpdates hsent.disposes)
      · rw [hh] at hv
        rw [List.mem_singleton.mp hv]
    · refine (h u).of_eq (Function.update_of_ne hu _ _) fun hf => ?_
      rcases List.mem_append.mp hf with h0 | h1
      · exact h0
      · split at h1
        · exact absurd (List.mem_singleton.mp h1) hu
        · cases h1
  | @deliver i nf ttl o p q d a c log hp ho _ =>
    have hq : q.cmn.uid = p.cmn.uid := ho.uid
    by_cases hu : u = p.cmn.uid
    · subst hu
      exact accounted_deliver hr hs hp
    · refine (h u).of_eq (Function.update_of_ne (hq ▸ hu) _ _) fun hf => ?_
      rcases List.mem_append.mp hf with h0 | h1
      · exact h0
      · split at h1
        · exact absurd ((List.mem_singleton.mp h1).trans hq) hu
        · cases h1
  | lose hp => exact (h u).of_eq rfl id

theorem accounted_reachable (h : (net addNb).Reachable s) (u : Nat) : Accounted s u := by
  revert u
  refine LTS.reachable_induct (I := fun s : Net K => ∀ u, Accounted s u) ?_ ?_ h
  · intro s hi u
    refine .outward ?_ ?_ <;> simp [hi.hist, tableUpdates]
  · intro a l b ha ih hs
    exact accounted_step ha hs ih

/-- No node is told about one destination twice by the same ant. -/
theorem tableUpdates_nodup (h : (net addNb).Reachable s) (u : Nat) :
    ((tableUpdates (s.hist u)).map fun c => (c.1, c.2.1)).Nodup := by
  obtain ⟨j, hj⟩ := (accounted_reachable h u).part
  rw [hj]
  exact report_nodup ((loopErase_nodup _).sublist (List.drop_sublist j _))

/-- **No update is lost or made twice.** Let `m` be the loop erasure of the
nodes ant `u` was delivered to on its way out. The updates its handlers make,
at all nodes and in any run, are calls due for `m`, from some node on; no node
is told about one destination twice; and the ant is freed on its way back only
when all calls due for `m` are made. -/
theorem reports (h : (net addNb).Reachable s) (u : Nat) :
    let m := loopErase (walk (s.hist u))
    let calls := tableUpdates (s.hist u)
    (∃ j, calls = report (m.drop j)) ∧
    (calls.map fun c => (c.1, c.2.1)).Nodup ∧
    (∀ x d next, (x, d, next) ∈ calls →
      ∃ i j, i < j ∧ m[i]? = some x ∧ m[i + 1]? = some next ∧ m[j]? = some d) ∧
    (u ∈ s.freed → (∃ v ∈ s.hist u, v.dir = .UP) →
      ∀ i j x d next, i < j → m[i]? = some x → m[i + 1]? = some next → m[j]? = some d →
        (x, d, next) ∈ calls) := by
  intro m calls
  have hacc := accounted_reachable h u
  obtain ⟨j, hj⟩ := hacc.part
  have hcalls : calls = report (m.drop j) := hj
  refine ⟨⟨j, hcalls⟩, tableUpdates_nodup h u, ?_, ?_⟩
  · intro x d next hm
    rw [hcalls] at hm
    obtain ⟨i, k, hik, hx, hn, hd⟩ := mem_report.mp hm
    simp only [List.getElem?_drop] at hx hn hd
    exact ⟨j + i, j + k, by omega, hx, hn, hd⟩
  · intro hf hv i k x d next hik hx hn hd
    have hall : calls = report m := hacc.home hf hv
    rw [hall]
    exact mem_report.mpr ⟨i, k, hik, hx, hn, hd⟩

end Step

/-- An ant of 0 to 2 and back: node 0 has been told about 2, over its link to 1. -/
theorem reports_line : ∃ s : Net ℚ, (net prependNb).Reachable s ∧
    loopErase (walk (s.hist 0)) = [0, 1, 2] ∧ 0 ∈ s.freed ∧
    (0, 2, 1) ∈ tableUpdates (s.hist 0) := by
  have hrun : (runActs prependNb Net.boot (lineUp ++ [.expire 0 (idle [0, 2]), .deliver 0 0 9 (idle []),
      .deliver 0 0 9 (idle []), .deliver 0 0 9 (idle []), .deliver 0 0 9 (idle [])] :
      List (Act ℚ))).map (fun s => decide (loopErase (walk (s.hist 0)) = [0, 1, 2] ∧ 0 ∈ s.freed ∧
        (s.hist 0).map (·.dir) = [.DOWN, .DOWN, .DOWN, .UP, .UP])) = some true := by decide +kernel
  obtain ⟨s, hs, hres⟩ := Option.map_eq_some_iff.mp hrun
  obtain ⟨hpath, hfreed, hdirs⟩ := of_decide_eq_true hres
  have hr := runActs_reachable boot_initial hs
  obtain ⟨v, hv, hup⟩ := List.mem_map.mp (hdirs ▸ (by decide : Dir.UP ∈ [Dir.DOWN, .DOWN, .DOWN, .UP, .UP]))
  have hall := (reports hr 0).2.2.2 hfreed ⟨v, hv, hup⟩ 0 2 0 2 1 (by decide)
  refine ⟨s, hr, hpath, hfreed, ?_⟩
  rw [hpath] at hall
  exact hall rfl rfl rfl

end AntNet.L4
