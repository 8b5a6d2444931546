import AntNet.L2Table.Rtable

/-!
# What a row has learned

Any sequence of calls of `update`, for any destinations, leaves in a row the
closed form of the calls for its own destination (`updates_apply`): every call
scales the old value, and a call over the entry's own link adds its factor,
scaled by all later calls. So what the initial values contribute dies out with
the product of the `1 - r`, the same for all entries.
-/
namespace AntNet.L2

open AntNet.L1 AntNet.Distribution

variable {K : Type} [Field K]

/-- The calls `update(dest, next, r)`, in order. -/
def updates (rt : RtableT K) (calls : List (Nsaddr × Nsaddr × K)) : RtableT K :=
  calls.foldl (fun rt c => update rt c.1 c.2.1 c.2.2) rt

/-- The calls for one destination. -/
def callsFor (dest : Nsaddr) (calls : List (Nsaddr × Nsaddr × K)) : List (Nsaddr × K) :=
  (calls.filter fun c => c.1 = dest).map Prod.snd

omit [Field K] in
theorem rowDist_injective {row row' : PheromoneMatrix K} (h : rowDist row = rowDist row') :
    row = row' := by
  apply List.map_injective_iff.mpr _ h
  rintro ⟨a, x⟩ ⟨b, y⟩ he
  simpa using he

/-- The row updates of one destination in closed form. -/
theorem foldl_updateRow (us : List (Nsaddr × K)) (row : PheromoneMatrix K) :
    us.foldl (fun row u => updateRow u.1 u.2 row) row =
      row.map fun e => { e with phvalue := learned e.neighbor us e.phvalue } := by
  have hdist : rowDist (us.foldl (fun row u => updateRow u.1 u.2 row) row) =
      us.foldl (fun d u => reinforce u.1 u.2 d) (rowDist row) := by
    induction us generalizing row with
    | nil => rfl
    | cons u us ih => rw [List.foldl_cons, ih, rowDist_updateRow, List.foldl_cons]
  apply rowDist_injective
  rw [hdist, foldl_reinforce]
  simp [rowDist]

/-- The updates of other destinations leave the row alone. -/
theorem updates_apply (calls : List (Nsaddr × Nsaddr × K)) (dest : Nsaddr) : ∀ rt : RtableT K,
    updates rt calls dest =
      (rt dest).map ((callsFor dest calls).foldl fun row u => updateRow u.1 u.2 row) := by
  induction calls with
  | nil => intro rt; simp [updates, callsFor]
  | cons c calls ih =>
    intro rt
    have hstep := ih (update rt c.1 c.2.1 c.2.2)
    show updates (update rt c.1 c.2.1 c.2.2) calls dest = _
    rw [hstep, update_apply]
    by_cases hd : c.1 = dest
    · subst hd
      cases rt c.1 <;> simp [callsFor]
    · rw [if_neg fun h => hd h.symm]
      simp [callsFor, hd]

/-- **The closed form of what an entry has learned.** -/
theorem updates_closed_form (rt : RtableT K) (calls : List (Nsaddr × Nsaddr × K)) {dest : Nsaddr}
    {row : PheromoneMatrix K} (hrow : rt dest = some row) :
    let us := callsFor dest calls
    let kept : K := (us.map fun u => 1 - u.2).prod
    (updates rt calls dest = some (row.map fun e =>
      { e with phvalue := e.phvalue * kept +
          ∑ i : Fin us.length, if us[i].1 = e.neighbor then
            us[i].2 * ((us.drop (i + 1)).map fun u => 1 - u.2).prod else 0 })) ∧
    (∀ (rt' : RtableT K) row', rt' dest = some row' →
      ∃ out out', updates rt calls dest = some out ∧ updates rt' calls dest = some out' ∧
        neighbors out = neighbors row ∧ neighbors out' = neighbors row' ∧
        ∀ (i i' : Nat) (e e' o o' : Pheromone K), row[i]? = some e → row'[i']? = some e' →
          e'.neighbor = e.neighbor → out[i]? = some o → out'[i']? = some o' →
          o.phvalue - o'.phvalue = kept * (e.phvalue - e'.phvalue)) ∧
    ∀ m a r, us = List.replicate m (a, r) →
      ∃ out, updates rt calls dest = some out ∧
        ∀ (i : Nat) (e o : Pheromone K), row[i]? = some e → e.neighbor = a → out[i]? = some o →
          o.neighbor = a ∧ o.phvalue = 1 - (1 - e.phvalue) * (1 - r) ^ m := by
  intro us kept
  have hout : ∀ (rt : RtableT K) row, rt dest = some row → updates rt calls dest =
      some (row.map fun e => { e with phvalue := learned e.neighbor us e.phvalue }) := by
    intro rt row h
    rw [updates_apply, h, Option.map_some, foldl_updateRow]
  refine ⟨hout rt row hrow, ?_, ?_⟩
  · intro rt' row' hrow'
    refine ⟨_, _, hout rt row hrow, hout rt' row' hrow', by simp [neighbors], by simp [neighbors], ?_⟩
    intro i i' e e' o o' he he' hn ho ho'
    simp only [List.getElem?_map, he, he', Option.map_some, Option.some.injEq] at ho ho'
    subst ho ho'
    show learned e.neighbor us e.phvalue - learned e'.neighbor us e'.phvalue = _
    rw [hn, learned_sub]
  · intro m a r hus
    refine ⟨_, hout rt row hrow, ?_⟩
    intro i e o he ha ho
    simp only [List.getElem?_map, he, Option.map_some, Option.some.injEq] at ho
    subst ho
    refine ⟨ha, ?_⟩
    show learned e.neighbor us e.phvalue = _
    rw [hus, ha, learned_replicate]

/-- Two updates of a row, with one of another row between them. -/
theorem updates_closed_form_two :
    ∃ out, updates (K := ℚ) (fun d => if d = 9 then some [⟨1, 1 / 2⟩, ⟨2, 1 / 2⟩] else none)
        [(9, 1, 1 / 2), (8, 2, 1 / 3), (9, 1, 1 / 2)] 9 = some out ∧
      ∀ (i : Nat) (e o : Pheromone ℚ), [Pheromone.mk 1 (1 / 2), ⟨2, 1 / 2⟩][i]? = some e →
        e.neighbor = 1 → out[i]? = some o →
        o.neighbor = 1 ∧ o.phvalue = 1 - (1 - e.phvalue) * (1 - 1 / 2) ^ 2 :=
  have hrow : (fun d => if d = 9 then some [⟨1, 1 / 2⟩, ⟨2, 1 / 2⟩] else none : RtableT ℚ) 9 =
      some [⟨1, 1 / 2⟩, ⟨2, 1 / 2⟩] := rfl
  (updates_closed_form _ [(9, 1, 1 / 2), (8, 2, 1 / 3), (9, 1, 1 / 2)] hrow).2.2 2 1 (1 / 2) rfl

end AntNet.L2
