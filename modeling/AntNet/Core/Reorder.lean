import AntNet.Core.LTS
import Mathlib.Data.List.Basic

/-!
# Reordering independent steps

A step has parts of the state that it touches; two steps are independent if
they touch none in common. What a part sees of a run is the list of the steps
that touch it.

* `reordered_of_views`: two lists of steps that look the same to every part
  are equal up to trading places between independent neighbours.
* `run_reordered`: where independent steps commute, up to a relation that every
  step respects, a reordered run is again a run, and to a related state.
-/
namespace AntNet.Reorder

section Views

variable {L P : Type} (touches : L → P → Bool)

def Indep (l m : L) : Prop := ∀ p, touches l p = true → touches m p = false

/-- What part `p` sees. -/
def view (p : P) (ls : List L) : List L := ls.filter (touches · p)

/-- Equal up to trading places between independent neighbours. -/
inductive Reordered : List L → List L → Prop where
  | nil : Reordered [] []
  | cons (l : L) {ls ms : List L} : Reordered ls ms → Reordered (l :: ls) (l :: ms)
  | swap {l m : L} (ls : List L) : Indep touches l m → Reordered (l :: m :: ls) (m :: l :: ls)
  | trans {ls ms ns : List L} : Reordered ls ms → Reordered ms ns → Reordered ls ns

variable {touches} {l m : L} {ls ms xs : List L} {p : P}

theorem Indep.symm (h : Indep touches l m) : Indep touches m l := by
  intro p hm
  by_contra hl
  rw [Bool.not_eq_false] at hl
  rw [h p hl] at hm
  cases hm

theorem view_append (p : P) (ls ms : List L) :
    view touches p (ls ++ ms) = view touches p ls ++ view touches p ms := List.filter_append ..

theorem view_touched (h : touches l p = true) (ls : List L) :
    view touches p (l :: ls) = l :: view touches p ls := List.filter_cons_of_pos h

theorem view_untouched (h : touches l p = false) (ls : List L) :
    view touches p (l :: ls) = view touches p ls := List.filter_cons_of_neg (by simp [h])

/-- A part sees nothing of the steps that are independent of one that touches it. -/
theorem view_indep (hl : touches l p = true) (h : ∀ x ∈ xs, Indep touches l x) :
    view touches p xs = [] := by
  refine List.filter_eq_nil_iff.mpr fun x hx => ?_
  simp [h x hx p hl]

theorem view_swap (h : Indep touches l m) (p : P) (ls : List L) :
    view touches p (l :: m :: ls) = view touches p (m :: l :: ls) := by
  cases hl : touches l p with
  | true =>
    have hm := h p hl
    rw [view_touched hl, view_untouched hm, view_untouched hm, view_touched hl]
  | false => simp [view, hl, List.filter_cons]

theorem reordered_refl (ls : List L) : Reordered touches ls ls := by
  induction ls with
  | nil => exact .nil
  | cons l ls ih => exact .cons l ih

/-- A step goes to the front of what it is independent of. -/
theorem reordered_front (h : ∀ x ∈ xs, Indep touches l x) (ls : List L) :
    Reordered touches (l :: (xs ++ ls)) (xs ++ l :: ls) := by
  induction xs with
  | nil => exact reordered_refl _
  | cons x xs ih =>
    have htail := ih fun y hy => h y (List.mem_cons_of_mem _ hy)
    exact .trans (.swap _ (h x List.mem_cons_self)) (.cons x htail)

/-- What stands before the first `l` in a list that begins with `l` for all who
see it is independent of `l`. -/
theorem indep_before (hl : l ∉ xs) (hview : ∀ p, view touches p (l :: ls) = view touches p (xs ++ ms)) :
    ∀ x ∈ xs, Indep touches l x := by
  intro x hx p hp
  by_contra hxp
  rw [Bool.not_eq_false] at hxp
  have hsame := hview p
  rw [view_touched hp, view_append] at hsame
  have hseen : x ∈ view touches p xs := List.mem_filter.mpr ⟨hx, hxp⟩
  cases hv : view touches p xs with
  | nil =>
    rw [hv] at hseen
    cases hseen
  | cons y ys =>
    rw [hv, List.cons_append] at hsame
    obtain ⟨rfl, -⟩ := List.cons.inj hsame
    have hmem : l ∈ view touches p xs := by rw [hv]; exact List.mem_cons_self
    exact hl (List.mem_filter.mp hmem).1

/-- **Equal views are enough.** -/
theorem reordered_of_views (hsome : ∀ l : L, ∃ p, touches l p = true)
    (h : ∀ p, view touches p ls = view touches p ms) : Reordered touches ls ms := by
  induction ls generalizing ms with
  | nil =>
    cases ms with
    | nil => exact .nil
    | cons m ms =>
      obtain ⟨p, hp⟩ := hsome m
      have hsame := h p
      rw [view_touched hp] at hsame
      cases hsame
  | cons l ls ih =>
    -- the first `l` of the other list goes to its front
    obtain ⟨p, hp⟩ := hsome l
    have hmem : l ∈ view touches p ms := by
      rw [← h p, view_touched hp]
      exact List.mem_cons_self
    obtain ⟨xs, ys, rfl, hnew⟩ := List.eq_append_cons_of_mem (List.mem_filter.mp hmem).1
    have hindep := indep_before hnew h
    refine .trans (.cons l (ih fun q => ?_)) (reordered_front hindep ys)
    have hsame := h q
    rw [view_append] at hsame ⊢
    cases hq : touches l q with
    | true =>
      rw [view_indep hq hindep, view_touched hq, view_touched hq] at hsame
      rw [view_indep hq hindep]
      exact (List.cons.inj hsame).2
    | false =>
      rw [view_untouched hq, view_untouched hq] at hsame
      exact hsame

end Views

section Runs

variable {S L P : Type} {M : LTS S L} {touches : L → P → Bool} {Same : S → S → Prop}

/-- Steps respect `Same`, and independent steps commute up to it. -/
structure Commutes (M : LTS S L) (touches : L → P → Bool) (Same : S → S → Prop) : Prop where
  refl : ∀ s, Same s s
  trans : ∀ a b c, Same a b → Same b c → Same a c
  keeps : ∀ s t l s', M.Reachable s → Same s t → M.step s l s' → ∃ t', M.step t l t' ∧ Same s' t'
  swaps : ∀ s l m s₁ s₂, M.Reachable s → Indep touches l m → M.step s l s₁ → M.step s₁ m s₂ →
    ∃ t₁ t₂, M.step s m t₁ ∧ M.step t₁ l t₂ ∧ Same s₂ t₂

theorem run_same (hM : Commutes M touches Same) {s t s' : S} {ls : List L} (hr : M.Reachable s)
    (hst : Same s t) (hrun : M.Run s ls s') : ∃ t', M.Run t ls t' ∧ Same s' t' := by
  induction hrun generalizing t with
  | nil => exact ⟨t, .nil t, hst⟩
  | cons hs _ ih =>
    obtain ⟨t₁, ht, h1⟩ := hM.keeps _ _ _ _ hr hst hs
    obtain ⟨t', hrun', h'⟩ := ih (LTS.reachable_step hr hs) h1
    exact ⟨t', .cons ht hrun', h'⟩

/-- **A reordered run.** -/
theorem run_reordered (hM : Commutes M touches Same) {ls ms : List L} (h : Reordered touches ls ms)
    {s s' : S} (hr : M.Reachable s) (hrun : M.Run s ls s') : ∃ t', M.Run s ms t' ∧ Same s' t' := by
  induction h generalizing s s' with
  | nil => exact ⟨s', hrun, hM.refl s'⟩
  | cons l _ ih =>
    cases hrun with
    | cons hs hrest =>
      obtain ⟨t', hrun', h'⟩ := ih (LTS.reachable_step hr hs) hrest
      exact ⟨t', .cons hs hrun', h'⟩
  | swap ls hi =>
    cases hrun with
    | cons hl hrest =>
      cases hrest with
      | cons hm hrest =>
        obtain ⟨t₁, t₂, hm', hl', h2⟩ := hM.swaps _ _ _ _ _ hr hi hl hm
        have hr2 := LTS.reachable_step (LTS.reachable_step hr hl) hm
        obtain ⟨t', hrun', h'⟩ := run_same hM hr2 h2 hrest
        exact ⟨t', .cons hm' (.cons hl' hrun'), h'⟩
  | trans _ _ ih₁ ih₂ =>
    obtain ⟨t, hrun₁, h1⟩ := ih₁ hr hrun
    obtain ⟨t', hrun₂, h2⟩ := ih₂ hr hrun₁
    exact ⟨t', hrun₂, hM.trans _ _ _ h1 h2⟩

end Runs

end AntNet.Reorder
