import AntNet.Core.LTS
import AntNet.L1Packet.Layout

/-!
# Scripts that choose the packet headers

Before it makes a simulator, a script may change which headers there are
(`tcl/lib/ns-packet.tcl:77-111`). `classes` is `[PacketHeader info subclass]`.

`unset` of an element that `tab_` does not have is a Tcl error, and the script
ends there. The warning about the common header is left out.

* `registration`: after any script a header is registered, and safe to write,
  if and only if the last command about it added it, or none was about it and
  it is in the default list; the common header always is.

`add-all-packet-headers` is about no header: it adds those that are there.
-/
namespace AntNet.L1

/-- mirrors tcl/lib/ns-packet.tcl:83-90 -/
def addAllPacketHeaders (classes : List HdrClass) (tab : List String) : List String :=
  classes.foldl (fun tab cl => if cl.name ∈ tab then tab ++ [cl.name] else tab) tab

/-- `unset tab_($name)` -/
def unset (tab : List String) (name : String) : Option (List String) :=
  if name ∈ tab then some (tab.filter (· ≠ name)) else none

/-- mirrors tcl/lib/ns-packet.tcl:92-100 -/
def removePacketHeader (tab : List String) (args : List String) : Option (List String) :=
  args.foldlM (fun tab cl => if cl = "Common" then some tab else unset tab ("PacketHeader/" ++ cl)) tab

/-- mirrors tcl/lib/ns-packet.tcl:102-111 -/
def removeAllPacketHeaders (classes : List HdrClass) (tab : List String) : List String :=
  classes.foldl (fun tab cl =>
    if cl.name ≠ "PacketHeader/Common" ∧ cl.name ∈ tab then tab.filter (· ≠ cl.name) else tab) tab

inductive HdrCmd where
  | add (args : List String)
  | addAll
  | remove (args : List String)
  | removeAll

def runHdrCmd (classes : List HdrClass) (tab : List String) : HdrCmd → Option (List String)
  | .add args => some (addPacketHeader tab args)
  | .addAll => some (addAllPacketHeaders classes tab)
  | .remove args => removePacketHeader tab args
  | .removeAll => some (removeAllPacketHeaders classes tab)

/-- The scripts, from the table that ns-packet.tcl leaves. -/
def headerScript (classes : List HdrClass) : LTS (List String) HdrCmd :=
  LTS.ofFn (· = defaultTab) (runHdrCmd classes)

/-- What a command wants of the header `cl`, if it is about it. -/
def HdrCmd.wants (classes : List HdrClass) (cl : String) : HdrCmd → Option Bool
  | .add args => if cl ∈ args then some true else none
  | .addAll => none
  | .remove args => if cl ∈ args ∧ cl ≠ "Common" then some false else none
  | .removeAll =>
    if (∃ c ∈ classes, c.name = "PacketHeader/" ++ cl) ∧ cl ≠ "Common" then some false else none

/-- What the last command about `cl` wants, or else the default list. -/
def wanted (classes : List HdrClass) (script : List HdrCmd) (cl : String) : Bool :=
  (script.reverse.findSome? (HdrCmd.wants classes cl)).getD (cl ∈ prots)

section Commands

variable {classes : List HdrClass} {tab tab' : List String} {c : HdrCmd} {cl name : String}

theorem header_inj {a b : String} : "PacketHeader/" ++ a = "PacketHeader/" ++ b ↔ a = b :=
  String.append_right_inj _

theorem header_common : "PacketHeader/Common" = "PacketHeader/" ++ "Common" := by decide

theorem mem_addPacketHeader (tab args : List String) (cl : String) :
    "PacketHeader/" ++ cl ∈ addPacketHeader tab args ↔ cl ∈ args ∨ "PacketHeader/" ++ cl ∈ tab := by
  simp only [addPacketHeader, List.mem_append, List.mem_map, header_inj, exists_eq_right]
  exact or_comm

/-- It adds what is there already. -/
theorem mem_addAllPacketHeaders (classes : List HdrClass) (tab : List String) (name : String) :
    name ∈ addAllPacketHeaders classes tab ↔ name ∈ tab := by
  unfold addAllPacketHeaders
  induction classes generalizing tab with
  | nil => rfl
  | cons c classes ih =>
    rw [List.foldl_cons, ih]
    split
    · rename_i h
      simp only [List.mem_append, List.mem_singleton]
      exact ⟨fun hm => hm.elim id fun he => he ▸ h, .inl⟩
    · rfl

theorem mem_removeAllPacketHeaders (classes : List HdrClass) (tab : List String) (name : String) :
    name ∈ removeAllPacketHeaders classes tab ↔
      name ∈ tab ∧ ¬ ((∃ c ∈ classes, c.name = name) ∧ name ≠ "PacketHeader/Common") := by
  unfold removeAllPacketHeaders
  induction classes generalizing tab with
  | nil => simp
  | cons c classes ih =>
    rw [List.foldl_cons, ih]
    simp only [List.exists_mem_cons_iff]
    split
    · rename_i h
      simp only [List.mem_filter, ne_eq, decide_eq_true_eq]
      constructor
      · rintro ⟨⟨ht, hne⟩, hrest⟩
        refine ⟨ht, fun ⟨hin, hcom⟩ => ?_⟩
        rcases hin with he | he
        · exact hne he.symm
        · exact hrest ⟨he, hcom⟩
      · rintro ⟨ht, hrest⟩
        refine ⟨⟨ht, fun he => hrest ⟨.inl he.symm, he ▸ h.1⟩⟩, fun ⟨hin, hcom⟩ => hrest ⟨.inr hin, hcom⟩⟩
    · rename_i h
      refine and_congr_right fun ht => not_congr (and_congr_left fun hcom => ?_)
      refine ⟨.inr, fun hin => hin.resolve_left fun he => h ⟨?_, he ▸ ht⟩⟩
      rwa [he]

/-- What is named is gone, and all of it was there. -/
theorem mem_removePacketHeader {args : List String} (h : removePacketHeader tab args = some tab') :
    "PacketHeader/" ++ cl ∈ tab' ↔ "PacketHeader/" ++ cl ∈ tab ∧ ¬ (cl ∈ args ∧ cl ≠ "Common") := by
  unfold removePacketHeader at h
  induction args generalizing tab with
  | nil =>
    obtain rfl := Option.some.inj h
    simp
  | cons a args ih =>
    rw [List.foldlM_cons] at h
    split at h
    · rename_i ha
      rw [ih h]
      refine and_congr_right fun _ => not_congr (and_congr_left fun hcom => ?_)
      rw [List.mem_cons]
      exact ⟨.inr, fun hin => hin.resolve_left fun he => hcom (he.trans ha)⟩
    · rename_i ha
      obtain ⟨t, ht, h⟩ := Option.bind_eq_some_iff.mp h
      unfold unset at ht
      split at ht
      · obtain rfl := Option.some.inj ht
        rw [ih h]
        simp only [List.mem_filter, ne_eq, decide_eq_true_eq, header_inj, List.mem_cons]
        constructor
        · rintro ⟨⟨ht, hne⟩, hrest⟩
          exact ⟨ht, fun ⟨hin, hcom⟩ => hin.elim hne fun he => hrest ⟨he, hcom⟩⟩
        · rintro ⟨ht, hrest⟩
          exact ⟨⟨ht, fun he => hrest ⟨.inl he, he ▸ ha⟩⟩, fun ⟨hin, hcom⟩ => hrest ⟨.inr hin, hcom⟩⟩
      · cases ht

/-- **One command.** -/
theorem mem_runHdrCmd (h : runHdrCmd classes tab c = some tab') (cl : String) :
    "PacketHeader/" ++ cl ∈ tab' ↔ (c.wants classes cl).getD ("PacketHeader/" ++ cl ∈ tab) = true := by
  cases c with
  | add args =>
    obtain rfl := Option.some.inj h
    rw [mem_addPacketHeader, HdrCmd.wants]
    by_cases hm : cl ∈ args <;> simp [hm]
  | addAll =>
    obtain rfl := Option.some.inj h
    rw [mem_addAllPacketHeaders]
    simp [HdrCmd.wants]
  | remove args =>
    rw [mem_removePacketHeader h, HdrCmd.wants]
    by_cases hm : cl ∈ args ∧ cl ≠ "Common" <;> simp [hm]
  | removeAll =>
    obtain rfl := Option.some.inj h
    rw [mem_removeAllPacketHeaders, HdrCmd.wants, header_common, ne_eq, header_inj]
    by_cases hm : (∃ c ∈ classes, c.name = "PacketHeader/" ++ cl) ∧ cl ≠ "Common" <;> simp [hm]

/-! ## Scripts -/

theorem wanted_cons (c : HdrCmd) (script : List HdrCmd) (cl : String) (b : Bool) :
    ((c :: script).reverse.findSome? (HdrCmd.wants classes cl)).getD b =
      (script.reverse.findSome? (HdrCmd.wants classes cl)).getD ((c.wants classes cl).getD b) := by
  rw [List.reverse_cons, List.findSome?_append]
  cases script.reverse.findSome? (HdrCmd.wants classes cl) with
  | some b' => rfl
  | none => cases h : c.wants classes cl <;> simp [h]

theorem registered_run {script : List HdrCmd} (h : (headerScript classes).Run tab script tab') (cl : String) :
    "PacketHeader/" ++ cl ∈ tab' ↔
      (script.reverse.findSome? (HdrCmd.wants classes cl)).getD ("PacketHeader/" ++ cl ∈ tab) = true := by
  induction h with
  | nil => simp
  | @cons t₀ t₁ t₂ c script hs _ ih =>
    have hone := mem_runHdrCmd hs cl
    rw [wanted_cons, ih]
    congr! 2
    exact Bool.eq_iff_iff.mpr (by simpa using hone)

theorem registered_iff {script : List HdrCmd} (h : (headerScript classes).Run defaultTab script tab)
    (cl : String) : "PacketHeader/" ++ cl ∈ tab ↔ wanted classes script cl = true := by
  rw [registered_run h cl, wanted]
  simp only [mem_defaultTab]

/-- No command takes the common header away. -/
theorem wanted_common (classes : List HdrClass) (script : List HdrCmd) :
    wanted classes script "Common" = true := by
  have hin : "Common" ∈ prots := by decide +kernel
  unfold wanted
  cases hf : script.reverse.findSome? (HdrCmd.wants classes "Common") with
  | none => simpa using hin
  | some b =>
    obtain ⟨c, -, hc⟩ := List.exists_of_findSome?_eq_some hf
    cases c with
    | add args =>
      simp only [HdrCmd.wants] at hc
      split at hc
      · exact (Option.some.inj hc).symm
      · cases hc
    | addAll => cases hc
    | remove args => simp [HdrCmd.wants] at hc
    | removeAll => simp [HdrCmd.wants] at hc

/-- **What a script makes of a header.** The header may be written in packets
if and only if the last command about it added it, or there was none and it is
in the default list. The common header is always registered, and taking a
header away fails if and only if it is another one that is not. -/
theorem registration {script : List HdrCmd} (h : (headerScript classes).Run defaultTab script tab)
    (hpos : ∀ c ∈ classes, 0 < c.size) (hnd : (classes.map (·.name)).Nodup) :
    (∀ cl size, ⟨"PacketHeader/" ++ cl, size⟩ ∈ classes →
      (HeaderSafe tab classes ⟨"PacketHeader/" ++ cl, size⟩ ↔ wanted classes script cl = true)) ∧
    "PacketHeader/Common" ∈ tab ∧
    ∀ cl, removePacketHeader tab [cl] = none ↔ cl ≠ "Common" ∧ wanted classes script cl = false := by
  refine ⟨fun cl size hcl => ?_, ?_, fun cl => ?_⟩
  · rw [headerSafe_iff_registered hpos hnd hcl]
    exact registered_iff h cl
  · rw [header_common]
    exact (registered_iff h "Common").mpr (wanted_common classes script)
  · rw [← Bool.not_eq_true, ← registered_iff h cl]
    by_cases hcom : cl = "Common"
    · simp [removePacketHeader, hcom]
    · by_cases hm : "PacketHeader/" ++ cl ∈ tab <;> simp [removePacketHeader, unset, hcom, hm]

end Commands

/-! ## Only what ants need -/

/-- The classes of the example in ns-packet.tcl, with the ant header. -/
def fewClasses : List HdrClass :=
  [⟨"PacketHeader/Common", 96⟩, ⟨"PacketHeader/IP", 28⟩, ⟨"PacketHeader/Ant", 288⟩]

/-- `remove-all-packet-headers; add-packet-header IP Ant` -/
def antScript : List HdrCmd := [.removeAll, .add ["IP", "Ant"]]

theorem registration_few : ∃ tab, (headerScript fewClasses).Run defaultTab antScript tab ∧
    HeaderSafe tab fewClasses ⟨"PacketHeader/Ant", 288⟩ ∧ wanted fewClasses [.addAll] "Ant" = false := by
  have hrun : (headerScript fewClasses).Run defaultTab antScript
      (addPacketHeader (removeAllPacketHeaders fewClasses defaultTab) ["IP", "Ant"]) :=
    .cons rfl (.cons rfl (.nil _))
  have hsafe := (registration hrun (by decide) (by decide)).1 "Ant" 288 (by decide)
  exact ⟨_, hrun, hsafe.mpr (by decide +kernel), by decide +kernel⟩

end AntNet.L1
