import Mathlib.Data.List.Basic

/-!
# Timers

The event list of a set of timers: the time of the pending expiry of each timer
that has one. `resched` puts a timer's expiry at a new time, `cancel` takes it
out; all others stay where they are.
-/
namespace AntNet.Timers

variable {ι K : Type} [DecidableEq ι] {p : List (ι × K)} {k : ι} {d : K}

def cancel (k : ι) (p : List (ι × K)) : List (ι × K) := p.filter fun e => e.1 ≠ k

def resched (k : ι) (t : K) (p : List (ι × K)) : List (ι × K) := (k, t) :: cancel k p

/-- When timer `k` expires, if it is pending. -/
def due (p : List (ι × K)) (k : ι) : Option K := p.lookup k

@[simp] theorem due_nil (k : ι) : due ([] : List (ι × K)) k = none := rfl

theorem due_cons (e : ι × K) (p : List (ι × K)) (k : ι) :
    due (e :: p) k = if k = e.1 then some e.2 else due p k := by
  unfold due
  rw [List.lookup_cons]
  by_cases h : k = e.1
  · simp [h]
  · rw [if_neg h, beq_false_of_ne h]

@[simp] theorem due_cancel (p : List (ι × K)) (k k' : ι) :
    due (cancel k p) k' = if k' = k then none else due p k' := by
  induction p with
  | nil => simp [cancel]
  | cons e p ih =>
    unfold cancel at ih ⊢
    by_cases he : e.1 = k
    · rw [List.filter_cons_of_neg (by simpa using he), ih, due_cons]
      by_cases hk : k' = k
      · rw [if_pos hk, if_pos hk]
      · rw [if_neg hk, if_neg hk, if_neg fun h => hk (h.trans he)]
    · rw [List.filter_cons_of_pos (by simpa using he), due_cons, due_cons, ih]
      by_cases hk : k' = k
      · have hne : k' ≠ e.1 := fun h => he (h.symm.trans hk)
        simp [hk, hk ▸ hne]
      · simp [hk]

@[simp] theorem due_resched (p : List (ι × K)) (k k' : ι) (t : K) :
    due (resched k t p) k' = if k' = k then some t else due p k' := by
  unfold resched
  rw [due_cons, due_cancel]
  by_cases hk : k' = k <;> simp [hk]

/-- A pending expiry is one of the events. -/
theorem mem_of_due : ∀ {p : List (ι × K)}, due p k = some d → (k, d) ∈ p
  | [], h => by cases h
  | e :: p, h => by
    rw [due_cons] at h
    split at h
    · rename_i hk
      subst hk
      rw [← Option.some.inj h]
      exact List.mem_cons_self
    · exact List.mem_cons_of_mem _ (mem_of_due h)

end AntNet.Timers
