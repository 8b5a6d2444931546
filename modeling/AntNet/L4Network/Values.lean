import AntNet.L4Network.Links

/-!
# Pheromone values over a run

`values_reachable`: a property of values that fresh rows have and that
reinforcement and evaporation keep holds of every value in every table, in
every run whose reinforcement factors (`Factor`) are as it asks.
-/
namespace AntNet.L4

open AntNet.L1 AntNet.L2 AntNet.L3 AntNet.Distribution

variable {K : Type} {s s' : Net K} {l : Act K}

/-- The reinforcement factor a backward ant finds at its node satisfies `R`. -/
def Factor (R : K → Prop) (s : Net K) : Act K → Prop
  | .deliver i _ _ _ => ∀ p ∈ s.inFlight[i]?, p.cmn.direction = .UP → R (s.agents p.ip.daddr).rFactor
  | _ => True

instance (R : K → Prop) [DecidablePred R] (s : Net K) : (l : Act K) → Decidable (Factor R s l)
  | .deliver i _ _ _ => inferInstanceAs (Decidable (∀ p ∈ s.inFlight[i]?, p.cmn.direction = .UP →
      R (s.agents p.ip.daddr).rFactor))
  | .addNeighbor _ _ | .start _ | .stop _ | .setRFactor _ _ | .setNumNodes _ _ | .advance _
  | .expire _ _ | .lose _ => isTrue trivial

def Values (V : K → Prop) (s : Net K) : Prop :=
  ∀ n d row, (s.agents n).rtable d = some row → ∀ e ∈ rowDist row, V e.2

theorem values_init {V : K → Prop} (h : s.Initial) : Values V s := by
  intro n d row hrow
  rw [h.rtable] at hrow; cases hrow

variable [Arithmetic K] [LinearOrder K] {addNb : List Nsaddr → Nsaddr → List Nsaddr}

theorem values_step {V R : K → Prop} (hfresh : ∀ nbs : List Nsaddr, nbs ≠ [] →
      ∀ e ∈ (uniform nbs : List (Nsaddr × K)), V e.2)
    (hraise : ∀ r x, R r → V x → V (x + r * (1 - x))) (hdecay : ∀ r x, R r → V x → V ((1 - r) * x))
    (hg : Factor R s l) (ht : Trans addNb s l s') (hv : Values V s) : Values V s' := by
  intro n d row hrow
  cases trans_agent ht n with
  | same _ hrt _ => exact hv n d row (hrt ▸ hrow)
  | started _ ha =>
    rw [ha] at hrow
    rcases start_row hrow with ⟨hf, rfl⟩ | ⟨-, h0⟩
    · intro e he
      rw [rowDist_append, rowDist_freshRow] at he
      rcases List.mem_append.mp he with h0 | h1
      · cases hd : (s.agents n).rtable d with
        | none => rw [hd] at h0; cases h0
        | some row₀ => rw [hd] at h0; exact hv n d row₀ hd e h0
      · exact hfresh _ hf.1 e h1
    · exact hv n d row h0
  | reinforced hl hp hn hu _ _ ha =>
    rw [ha] at hrow
    subst hl
    have hr := hg _ hp hu
    rw [hn] at hr
    refine updateAll_row (I := fun row => ∀ e ∈ rowDist row, V e.2) (fun row hI => ?_) _ _ (hv n d) row hrow
    rw [rowDist_updateRow]
    exact reinforce_forall (fun x => hraise _ x hr) (fun x => hdecay _ x hr) hI

theorem values_reachable {V R : K → Prop} (hfresh : ∀ nbs : List Nsaddr, nbs ≠ [] →
      ∀ e ∈ (uniform nbs : List (Nsaddr × K)), V e.2)
    (hraise : ∀ r x, R r → V x → V (x + r * (1 - x))) (hdecay : ∀ r x, R r → V x → V ((1 - r) * x))
    (h : ((net addNb).guard (Factor R)).Reachable s) : Values V s :=
  LTS.guard_induct (I := Values V) (fun _ => values_init) (fun _ _ _ hr ih hg hs =>
    values_step hfresh hraise hdecay hg (trans_of_reachable hr hs) ih) h

end AntNet.L4
