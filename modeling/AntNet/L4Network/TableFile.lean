import AntNet.L1Packet.Trace
import AntNet.L4Network.Inv

/-!
# The file of routing tables

All agents print their tables to one file (`file_rtable`, antnet_common.h):
`print_rtable` appends to it (antnet.cc:95-102, antnet_rtable.cc:70-80), and
`initialize_rtable` of any agent empties it (antnet.cc:571-593). Before the
first `start` it holds what an earlier simulation left.

`Keys rt dests` is the order in which an iterator goes through the map.
`showPh` gives the text of a pheromone value (`%f`). The log is a history
variable.

* `table_file`: a table can be printed in every state, and once an agent has
  been started the file says exactly what was printed since the last `start`.
-/
namespace AntNet.L4

open AntNet.L1 AntNet.L2 AntNet.L3 AntNet.Printf

variable {K : Type}

/-! ## Printing -/

/-- mirrors antnet.cc:97 -/
def tableHead : Format := fmt "\nRouting table at node %d\n"
/-- mirrors antnet_rtable.cc:72 -/
def columns : Format := fmt "\tdest\tnext\tphvalue\n"
/-- mirrors antnet_rtable.cc:76 -/
def tableRow : Format := fmt "\t%d \t%d \t%f \n"

structure Row where
  dest : Int
  next : Int
  phvalue : List Char
  deriving DecidableEq, Repr

structure Dump where
  node : Int
  rows : List Row
  deriving DecidableEq, Repr

def Row.text (r : Row) : List Char := sprintf tableRow [.int r.dest, .int r.next, .text r.phvalue]

def Dump.text (d : Dump) : List Char :=
  sprintf tableHead [.int d.node] ++ sprintf columns [] ++ d.rows.flatMap Row.text

/-- `std::map` goes through its keys in increasing order. -/
structure Keys (rt : RtableT K) (dests : List Nsaddr) : Prop where
  sorted : dests.Pairwise (· < ·)
  mem : ∀ d, d ∈ dests ↔ (rt d).isSome

section Model

variable (showPh : K → Word)

/-- mirrors antnet_rtable.cc:73-78 -/
def rowsOf (rt : RtableT K) (dests : List Nsaddr) : List Row :=
  dests.flatMap fun d => ((rt d).getD []).map fun e => ⟨d, e.neighbor, (showPh e.phvalue).1⟩

inductive FileEvent where
  | truncated
  | printed (d : Dump)

structure Shared (K : Type) where
  net : Net K
  file : List Char
  log : List FileEvent

inductive FileAct (K : Type) where
  | act (l : Act K)
  | printRtable (n : Nsaddr) (dests : List Nsaddr)

def Act.isStart : Act K → Bool
  | .start _ => true
  | _ => false

def truncate (l : Act K) (s : Shared K) : Shared K :=
  if l.isStart then { s with file := [], log := s.log ++ [.truncated] } else s

def append (d : Dump) (s : Shared K) : Shared K :=
  { s with file := s.file ++ d.text, log := s.log ++ [.printed d] }

variable [Arithmetic K] [LinearOrder K] (addNb : List Nsaddr → Nsaddr → List Nsaddr)

inductive FileStep : Shared K → FileAct K → Shared K → Prop where
  | act {s : Shared K} {l : Act K} {net' : Net K} : step addNb s.net l = some net' →
      FileStep s (.act l) (truncate l { s with net := net' })
  | printRtable {s : Shared K} {n : Nsaddr} {dests : List Nsaddr} :
      Keys (s.net.agents n).rtable dests → FileStep s (.printRtable n dests)
        (append ⟨(s.net.agents n).addr, rowsOf showPh (s.net.agents n).rtable dests⟩ s)

def shared : LTS (Shared K) (FileAct K) where
  init s := s.net.Initial ∧ s.log = []
  step := FileStep showPh addNb

end Model

/-- What was printed since the file was last emptied. -/
def since (log : List FileEvent) : List Dump :=
  log.foldl (fun ds e => match e with
    | .truncated => []
    | .printed d => ds ++ [d]) []

/-! ## Reading -/

def readRows : Nat → List Char → List Row × List Char
  | 0, cs => ([], cs)
  | k + 1, cs =>
    match scan tableRow cs with
    | some ([.int d, .int n, .text v], rest) => (⟨d, n, v⟩ :: (readRows k rest).1, (readRows k rest).2)
    | _ => ([], cs)

def readDump (cs : List Char) : Option (Dump × List Char) := do
  let (as, rest) ← scan tableHead cs
  let node ← intAt as 0
  let (_, rest) ← scan columns rest
  return (⟨node, (readRows rest.length rest).1⟩, (readRows rest.length rest).2)

def readDumps : Nat → List Char → Option (List Dump)
  | _, [] => some []
  | 0, _ => none
  | k + 1, cs => (readDump cs).bind fun x => (readDumps k x.2).map (x.1 :: ·)

def readTables (file : List Char) : Option (List Dump) := readDumps file.length file

def Dump.Ok (d : Dump) : Prop := ∀ r ∈ d.rows, IsWord r.phvalue

theorem table_formats : Typed tableHead [true] ∧ Typed columns [] ∧ Typed tableRow [true, true, false] ∧
    tableHead.take 1 = [.lit '\n'] ∧ tableRow.take 1 = [.lit '\t'] := by
  decide +kernel

theorem scan_row {r : Row} (h : IsWord r.phvalue) (rest : List Char) :
    scan tableRow (r.text ++ rest) = some ([.int r.dest, .int r.next, .text r.phvalue], rest) := by
  obtain ⟨-, -, hr, -, -⟩ := table_formats
  have hf : Fits tableRow [.int r.dest, .int r.next, .text r.phvalue] := hr.fits (by simp [h])
  exact scan_sprintf hf hr.2 rest

/-- The rows end where no tabulator comes next. -/
theorem scan_row_none {rest : List Char} (h : rest.head? ≠ some '\t') : scan tableRow rest = none := by
  obtain ⟨-, -, -, -, ht⟩ := table_formats
  have hrow : tableRow = .lit '\t' :: tableRow.drop 1 := by
    rw [← List.singleton_append, ← ht, List.take_append_drop]
  rw [hrow]
  cases rest with
  | nil => rfl
  | cons c rest =>
    have hc : c ≠ '\t' := fun he => h (congrArg some he)
    rw [scan, if_neg hc]

theorem readRows_rows {rows : List Row} (h : ∀ r ∈ rows, IsWord r.phvalue) {rest : List Char}
    (hr : rest.head? ≠ some '\t') {k : Nat} (hk : rows.length ≤ k) :
    readRows k (rows.flatMap Row.text ++ rest) = (rows, rest) := by
  induction rows generalizing k with
  | nil =>
    cases k with
    | zero => rfl
    | succ k =>
      rw [readRows, List.flatMap_nil, List.nil_append, scan_row_none hr]
  | cons r rows ih =>
    cases k with
    | zero => simp at hk
    | succ k =>
      have hih := ih (fun r hr => h r (List.mem_cons_of_mem _ hr)) (k := k) (by simpa using hk)
      rw [readRows, List.flatMap_cons, List.append_assoc, scan_row (h r List.mem_cons_self)]
      simp only [hih]

theorem text_head (d : Dump) : ∃ cs, d.text = '\n' :: cs := by
  obtain ⟨-, -, -, hn, -⟩ := table_formats
  have hhead : tableHead = .lit '\n' :: tableHead.drop 1 := by
    rw [← List.singleton_append, ← hn, List.take_append_drop]
  unfold Dump.text
  rw [hhead]
  exact ⟨_, rfl⟩

theorem length_rows (rows : List Row) : rows.length ≤ (rows.flatMap Row.text).length := by
  induction rows with
  | nil => exact Nat.le_refl _
  | cons r rows ih =>
    obtain ⟨-, -, -, -, ht⟩ := table_formats
    have hrow : tableRow = .lit '\t' :: tableRow.drop 1 := by
      rw [← List.singleton_append, ← ht, List.take_append_drop]
    have hpos : 0 < r.text.length := by
      unfold Row.text
      rw [hrow]
      exact Nat.succ_pos _
    simp only [List.flatMap_cons, List.length_append, List.length_cons]
    omega

theorem readDump_text {d : Dump} (h : d.Ok) {rest : List Char} (hr : rest.head? ≠ some '\t') :
    readDump (d.text ++ rest) = some (d, rest) := by
  obtain ⟨hh, hc, -, -, -⟩ := table_formats
  have hfh : Fits tableHead [.int d.node] := hh.fits (by simp)
  have hfc : Fits columns [] := hc.fits (by simp)
  have hlen : d.rows.length ≤ (d.rows.flatMap Row.text ++ rest).length := by
    have := length_rows d.rows
    rw [List.length_append]
    omega
  have hrows := readRows_rows h hr hlen
  unfold readDump Dump.text
  rw [List.append_assoc, List.append_assoc, scan_sprintf hfh hh.2]
  simp only [Option.bind_eq_bind, Option.bind_some, scan_sprintf hfc hc.2, hrows]
  rfl

theorem readDumps_text {ds : List Dump} (h : ∀ d ∈ ds, d.Ok) {k : Nat} (hk : ds.length ≤ k) :
    readDumps k (ds.flatMap Dump.text) = some ds := by
  induction ds generalizing k with
  | nil => cases k <;> rfl
  | cons d ds ih =>
    cases k with
    | zero => simp at hk
    | succ k =>
      have hrest : (ds.flatMap Dump.text).head? ≠ some '\t' := by
        cases ds with
        | nil => simp
        | cons d' ds =>
          obtain ⟨cs, hcs⟩ := text_head d'
          simp [hcs]
      have hih := ih (fun d hd => h d (List.mem_cons_of_mem _ hd)) (k := k) (by simpa using hk)
      rw [List.flatMap_cons, readDumps]
      · rw [readDump_text (h d List.mem_cons_self) hrest, Option.bind_some, hih]
        rfl
      · intro hnil
        obtain ⟨cs, hcs⟩ := text_head d
        rw [hcs] at hnil
        cases hnil

/-- **A file of tables is read back.** -/
theorem readTables_text {ds : List Dump} (h : ∀ d ∈ ds, d.Ok) :
    readTables (ds.flatMap Dump.text) = some ds := by
  refine readDumps_text h ?_
  induction ds with
  | nil => exact Nat.le_refl _
  | cons d ds ih =>
    obtain ⟨cs, hcs⟩ := text_head d
    have := ih fun d hd => h d (List.mem_cons_of_mem _ hd)
    simp only [List.flatMap_cons, List.length_append, List.length_cons, hcs]
    omega

/-! ## Runs -/

theorem truncate_net (l : Act K) (s : Shared K) : (truncate l s).net = s.net := by
  unfold truncate
  split <;> rfl

theorem since_truncated (log : List FileEvent) : since (log ++ [.truncated]) = [] := by
  simp [since, List.foldl_append]

theorem since_printed (log : List FileEvent) (d : Dump) :
    since (log ++ [.printed d]) = since log ++ [d] := by
  simp [since, List.foldl_append]

theorem rowsOf_ok (showPh : K → Word) (rt : RtableT K) (dests : List Nsaddr) :
    ∀ r ∈ rowsOf showPh rt dests, IsWord r.phvalue := by
  intro r hr
  obtain ⟨d, -, hr⟩ := List.mem_flatMap.mp hr
  obtain ⟨e, -, rfl⟩ := List.mem_map.mp hr
  exact (showPh e.phvalue).2

/-- The keys of a table that has none outside `0 .. N`. -/
theorem keys_range {rt : RtableT K} {N : Nat} (h : ∀ d row, rt d = some row → 0 ≤ d ∧ d < (N : Int)) :
    Keys rt (((List.range N).map fun k : Nat => (k : Int)).filter fun d => (rt d).isSome) := by
  refine ⟨List.Pairwise.filter _ ?_, fun d => ?_⟩
  · exact List.pairwise_map.mpr (List.pairwise_lt_range.imp fun hlt => Int.ofNat_lt.mpr hlt)
  · rw [List.mem_filter, and_iff_right_of_imp]
    intro hd
    obtain ⟨row, hrow⟩ := Option.isSome_iff_exists.mp hd
    have h0 : (0 : Int) ≤ d := (h d row hrow).1
    have h1 : (d : Int) < (N : Int) := (h d row hrow).2
    exact List.mem_map.mpr ⟨d.toNat, List.mem_range.mpr ((Int.toNat_lt h0).mpr h1),
      Int.toNat_of_nonneg h0⟩

section Run

variable [Arithmetic K] [LinearOrder K] {addNb : List Nsaddr → Nsaddr → List Nsaddr} {showPh : K → Word}

/-- No table has a destination outside `0 .. N`. -/
def Bounded (s : Net K) (n : Nsaddr) : Prop :=
  ∃ N : Nat, ∀ d row, (s.agents n).rtable d = some row → 0 ≤ d ∧ d < (N : Int)

theorem bounded_step {s s' : Net K} {l : Act K} (h : Trans addNb s l s') {n : Nsaddr}
    (hb : Bounded s n) : Bounded s' n := by
  obtain ⟨N, hN⟩ := hb
  cases trans_agent h n with
  | same _ hrt _ => exact ⟨N, fun d row hrow => hN d row (hrt ▸ hrow)⟩
  | started _ ha =>
    refine ⟨N + (s.agents n).numNodes.toNat, fun d row hrow => ?_⟩
    rcases start_row (ha ▸ hrow) with ⟨⟨-, h0, h1, -⟩, -⟩ | ⟨-, hold⟩
    · have hle : (s.agents n).numNodes ≤ ((N + (s.agents n).numNodes.toNat : Nat) : Int) := by omega
      exact ⟨h0, Int.lt_of_lt_of_le h1 hle⟩
    · obtain ⟨h0, h1⟩ := hN d row hold
      have hle : (N : Int) ≤ ((N + (s.agents n).numNodes.toNat : Nat) : Int) := by omega
      exact ⟨h0, Int.lt_of_lt_of_le h1 hle⟩
  | reinforced _ _ _ _ _ _ ha =>
    refine ⟨N, fun d row hrow => ?_⟩
    obtain ⟨row₀, h0, -⟩ := reinforce_row (ha ▸ hrow)
    exact hN d row₀ h0

theorem bounded_reachable {s : Net K} (h : (net addNb).Reachable s) (n : Nsaddr) : Bounded s n := by
  refine LTS.reachable_induct (I := fun s => Bounded s n) ?_ ?_ h
  · intro s hi
    refine ⟨0, fun d row hrow => ?_⟩
    rw [hi.rtable] at hrow; cases hrow
  · intro a l b ha ih hs
    exact bounded_step (trans_of_reachable ha hs) ih

/-- Once it has been emptied, the file is what was printed since. -/
structure Kept (s : Shared K) : Prop where
  ok : ∀ d ∈ since s.log, d.Ok
  file : FileEvent.truncated ∈ s.log → s.file = (since s.log).flatMap Dump.text

theorem kept_step {s s' : Shared K} {l : FileAct K} (h : FileStep showPh addNb s l s') (hk : Kept s) :
    Kept s' := by
  cases h with
  | @act l net' hs =>
    unfold truncate
    split
    · refine ⟨fun d hd => ?_, fun _ => ?_⟩
      · simp only [since_truncated] at hd
        cases hd
      · simp only [since_truncated]
        rfl
    · exact ⟨hk.ok, hk.file⟩
  | @printRtable n dests hkeys =>
    refine ⟨fun d hd => ?_, fun ht => ?_⟩
    · simp only [append, since_printed, List.mem_append, List.mem_singleton] at hd
      rcases hd with hd | rfl
      · exact hk.ok d hd
      · exact rowsOf_ok showPh _ _
    · simp only [append, List.mem_append, List.mem_singleton, reduceCtorEq, or_false] at ht
      simp only [append, since_printed, List.flatMap_append, hk.file ht]
      simp

theorem kept_reachable {s : Shared K} (h : (shared showPh addNb).Reachable s) :
    (net addNb).Reachable s.net ∧ Kept s := by
  refine LTS.reachable_induct (I := fun s : Shared K => (net addNb).Reachable s.net ∧ Kept s) ?_ ?_ h
  · rintro s ⟨hi, hl⟩
    refine ⟨LTS.reachable_init hi, fun d hd => ?_, fun ht => ?_⟩
    · rw [hl] at hd; cases hd
    · rw [hl] at ht; cases ht
  · rintro a l b - ⟨hr, hk⟩ hs
    refine ⟨?_, kept_step hs hk⟩
    cases hs with
    | @act l net' hst =>
      rw [truncate_net]
      exact LTS.reachable_step hr hst
    | printRtable => exact hr

/-- **The file of routing tables.** Every table can be printed at any time.
Once an agent has been started, the file, read back, is what was printed since
the last `start` of any agent, in order. -/
theorem table_file {s : Shared K} (h : (shared showPh addNb).Reachable s) :
    (∀ n, ∃ dests s', Keys (s.net.agents n).rtable dests ∧
      (shared showPh addNb).step s (.printRtable n dests) s') ∧
    (FileEvent.truncated ∈ s.log → readTables s.file = some (since s.log)) := by
  obtain ⟨hr, hk⟩ := kept_reachable h
  refine ⟨fun n => ?_, fun ht => ?_⟩
  · obtain ⟨N, hN⟩ := bounded_reachable hr n
    exact ⟨_, _, keys_range hN, .printRtable (keys_range hN)⟩
  · rw [hk.file ht]
    exact readTables_text hk.ok

/-- Any steps of the network can be taken; they print nothing. -/
theorem shared_of_exec {ls : List (Act K)} {s : Shared K} (h : (shared showPh addNb).Reachable s)
    {net' : Net K} (hrun : LTS.exec (step addNb) s.net ls = some net') :
    ∃ s', (shared showPh addNb).Reachable s' ∧ s'.net = net' ∧
      (since s.log = [] → since s'.log = []) ∧
      (.truncated ∈ s.log ∨ ls.any Act.isStart = true → .truncated ∈ s'.log) := by
  induction ls generalizing s with
  | nil => exact ⟨s, h, Option.some.inj hrun, id, fun hl => hl.elim id fun hl => by cases hl⟩
  | cons l ls ih =>
    obtain ⟨mid, hl, hls⟩ := Option.bind_eq_some_iff.mp hrun
    have hstep : (shared showPh addNb).step s (.act l) (truncate l { s with net := mid }) := .act hl
    obtain ⟨s', hs', hn, hsince, htr⟩ := ih (LTS.reachable_step h hstep) (by rwa [truncate_net])
    refine ⟨s', hs', hn, fun he => hsince ?_, fun he => htr ?_⟩
    · unfold truncate
      split
      · exact since_truncated s.log
      · exact he
    · unfold truncate
      by_cases hst : l.isStart = true
      · simp [hst]
      · simpa [hst] using he

end Run

def halves (q : ℚ) : Word :=
  if q = 1 then ⟨"1.000000".toList, by decide⟩ else ⟨"0.500000".toList, by decide⟩

/-- The agent between two others starts and prints its table. -/
theorem table_file_line : ∃ (s : Shared ℚ) (d : Dump), (shared halves prependNb).Reachable s ∧
    readTables s.file = some [d] ∧ d.node = 1 ∧ (⟨0, 2, "0.500000".toList⟩ : Row) ∈ d.rows := by
  have hrun : (LTS.exec (step prependNb) Net.boot (lineUp : List (Act ℚ))).map (fun s =>
      ((s.agents 1).addr, ((s.agents 1).rtable 0).map fun row =>
        row.map fun e => (e.neighbor, (halves e.phvalue).1))) =
      some (1, some [(2, "0.500000".toList), (0, "0.500000".toList)]) := by decide +kernel
  obtain ⟨net', hnet, hrows⟩ := Option.map_eq_some_iff.mp hrun
  obtain ⟨haddr, hrows⟩ := Prod.mk.inj hrows
  obtain ⟨row, hrow, hents⟩ := Option.map_eq_some_iff.mp hrows
  obtain ⟨s, hs, rfl, hsince, htr⟩ := shared_of_exec
    (LTS.reachable_init ⟨boot_initial, rfl⟩ : (shared halves prependNb).Reachable ⟨Net.boot, [], []⟩) hnet
  obtain ⟨dests, -, hkeys, -⟩ := (table_file hs).1 1
  have hstep : (shared halves prependNb).step s (.printRtable 1 dests) _ := .printRtable hkeys
  have htr' := htr (.inr rfl)
  refine ⟨_, ⟨_, rowsOf halves (s.net.agents 1).rtable dests⟩, LTS.reachable_step hs hstep, ?_, haddr,
    ?_⟩
  · rw [(table_file (LTS.reachable_step hs hstep)).2 (List.mem_append_left _ htr')]
    simp only [append, since_printed, hsince rfl, List.nil_append]
  · have hd : (0 : Nsaddr) ∈ dests := (hkeys.mem 0).mpr (by simp [hrow])
    obtain ⟨e, he, hval⟩ := List.mem_map.mp (hents ▸ List.mem_cons_self :
      (2, "0.500000".toList) ∈ row.map fun e => (e.neighbor, (halves e.phvalue).1))
    obtain ⟨hnb, hph⟩ := Prod.mk.inj hval
    refine List.mem_flatMap.mpr ⟨0, hd, List.mem_map.mpr ⟨e, ?_, ?_⟩⟩
    · simpa [hrow] using he
    · simp [hnb, hph]

end AntNet.L4
