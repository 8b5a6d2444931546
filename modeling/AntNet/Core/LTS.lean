import Mathlib.Order.Monotone.Basic

/-!
# Labelled transition systems

Runs, reachability and inductive invariants of a system given by its initial
states and a labelled step relation. `guard G` keeps the runs in which every
step meets a condition `G` on the state before it and its label; the
conditions of the form "in every run in which ..." are stated with it.
`exec` and `execGuarded` run a partial step function on a list of labels.
-/
namespace AntNet

structure LTS (S L : Type) where
  init : S → Prop
  step : S → L → S → Prop

namespace LTS

variable {S L : Type}

/-- The system of a partial step function. -/
def ofFn (init : S → Prop) (f : S → L → Option S) : LTS S L where
  init := init
  step s l s' := f s l = some s'

/-- The runs all of whose steps meet `G`. -/
def guard (M : LTS S L) (G : S → L → Prop) : LTS S L where
  init := M.init
  step s l s' := G s l ∧ M.step s l s'

inductive Run (M : LTS S L) : S → List L → S → Prop where
  | nil (s : S) : Run M s [] s
  | cons {a b c : S} {l : L} {ls : List L} : M.step a l b → Run M b ls c → Run M a (l :: ls) c

def Reachable (M : LTS S L) (s : S) : Prop := ∃ s₀ ls, M.init s₀ ∧ M.Run s₀ ls s

/-- `σ` and `ls` are an infinite run from `σ 0`. -/
def Infinite (M : LTS S L) (σ : Nat → S) (ls : Nat → L) : Prop := ∀ t, M.step (σ t) (ls t) (σ (t + 1))

structure Inductive (M : LTS S L) (I : S → Prop) : Prop where
  init : ∀ s, M.init s → I s
  step : ∀ s l s', I s → M.step s l s' → I s'

variable {M : LTS S L}

theorem run_snoc {a b c : S} {ls : List L} {l : L} (hr : M.Run a ls b) (hs : M.step b l c) :
    M.Run a (ls ++ [l]) c := by
  induction hr with
  | nil => exact .cons hs (.nil _)
  | cons h _ ih => exact .cons h (ih hs)

theorem run_append {a b c : S} {ls ls' : List L} (h : M.Run a ls b) (h' : M.Run b ls' c) :
    M.Run a (ls ++ ls') c := by
  induction h with
  | nil => exact h'
  | cons hs _ ih => exact .cons hs (ih h')

theorem reachable_init {s : S} (h : M.init s) : M.Reachable s := ⟨s, [], h, .nil s⟩

theorem reachable_step {s s' : S} {l : L} (hr : M.Reachable s) (hs : M.step s l s') :
    M.Reachable s' := by
  obtain ⟨s₀, ls, hi, hrun⟩ := hr
  exact ⟨s₀, ls ++ [l], hi, run_snoc hrun hs⟩

theorem reachable_run {s s' : S} {ls : List L} (hr : M.Reachable s) (hs : M.Run s ls s') :
    M.Reachable s' := by
  induction hs with
  | nil => exact hr
  | cons h _ ih => exact ih (reachable_step hr h)

/-- **Induction along a run.** What holds of the first state and is kept by
every step from a reachable state holds of the last. -/
theorem run_induct {I : S → Prop} {s s' : S} {ls : List L} (hr : M.Reachable s)
    (hrun : M.Run s ls s') (h : I s)
    (hstep : ∀ a l b, M.Reachable a → I a → M.step a l b → I b) : I s' := by
  induction hrun with
  | nil => exact h
  | cons hs _ ih => exact ih (reachable_step hr hs) (hstep _ _ _ hr h hs)

/-- **Invariants relative to reachability.** -/
theorem reachable_induct {I : S → Prop} (h0 : ∀ s, M.init s → I s)
    (hstep : ∀ a l b, M.Reachable a → I a → M.step a l b → I b) {s : S} (h : M.Reachable s) :
    I s := by
  obtain ⟨s₀, ls, hi, hrun⟩ := h
  exact run_induct (reachable_init hi) hrun (h0 _ hi) hstep

theorem Inductive.reachable {I : S → Prop} (hI : M.Inductive I) {s : S} (h : M.Reachable s) :
    I s := reachable_induct hI.init (fun a l b _ => hI.step a l b) h

/-! ## Guarded runs -/

theorem run_of_guard {G : S → L → Prop} {a b : S} {ls : List L} (h : (M.guard G).Run a ls b) :
    M.Run a ls b := by
  induction h with
  | nil => exact .nil _
  | cons hs _ ih => exact .cons hs.2 ih

theorem reachable_of_guard {G : S → L → Prop} {s : S} (h : (M.guard G).Reachable s) :
    M.Reachable s := by
  obtain ⟨s₀, ls, hi, hrun⟩ := h
  exact ⟨s₀, ls, hi, run_of_guard hrun⟩

theorem reachable_run_guard {G : S → L → Prop} {a b : S} {ls : List L} (hr : M.Reachable a)
    (h : (M.guard G).Run a ls b) : M.Reachable b := reachable_run hr (run_of_guard h)

/-- **Induction along a guarded run.** -/
theorem run_guard_induct {G : S → L → Prop} {I : S → Prop} {s s' : S} {ls : List L}
    (hr : M.Reachable s) (hrun : (M.guard G).Run s ls s') (h : I s)
    (hstep : ∀ a l b, M.Reachable a → I a → G a l → M.step a l b → I b) : I s' := by
  induction hrun with
  | nil => exact h
  | cons hs _ ih => exact ih (reachable_step hr hs.2) (hstep _ _ _ hr h hs.1 hs.2)

/-- **Invariants of guarded runs.** -/
theorem guard_induct {G : S → L → Prop} {I : S → Prop} (h0 : ∀ s, M.init s → I s)
    (hstep : ∀ a l b, M.Reachable a → I a → G a l → M.step a l b → I b) {s : S}
    (h : (M.guard G).Reachable s) : I s := by
  obtain ⟨s₀, ls, hi, hrun⟩ := h
  exact run_guard_induct (M := M) (reachable_init hi) hrun (h0 _ hi) hstep

/-- A condition that follows from another at every state the first one
reaches keeps all its runs. -/
theorem reachable_guard_mono {G H : S → L → Prop}
    (hGH : ∀ s l, (M.guard G).Reachable s → G s l → H s l) {s : S}
    (h : (M.guard G).Reachable s) : (M.guard H).Reachable s :=
  reachable_induct (M := M.guard G) (I := (M.guard H).Reachable)
    (fun _ hi => reachable_init hi)
    (fun a l _ ha ih hs => reachable_step ih ⟨hGH a l ha hs.1, hs.2⟩) h

theorem infinite_reachable {σ : Nat → S} {ls : Nat → L} (h0 : M.Reachable (σ 0))
    (h : M.Infinite σ ls) : ∀ t, M.Reachable (σ t)
  | 0 => h0
  | t + 1 => reachable_step (infinite_reachable h0 h t) (h t)

/-- What every step keeps holds from then on. -/
theorem infinite_stays {I : S → Prop} {σ : Nat → S} {ls : Nat → L} (h0 : M.Reachable (σ 0))
    (h : M.Infinite σ ls) (hstep : ∀ a l b, M.Reachable a → I a → M.step a l b → I b) {t : Nat}
    (ht : I (σ t)) : ∀ t', t ≤ t' → I (σ t') := by
  intro t' hle
  induction t', hle using Nat.le_induction with
  | base => exact ht
  | succ t' _ ih => exact hstep _ _ _ (infinite_reachable h0 h t') ih (h t')

theorem infinite_run {σ : Nat → S} {ls : Nat → L} (h : M.Infinite σ ls) :
    ∀ t, ∃ acts, M.Run (σ 0) acts (σ t)
  | 0 => ⟨[], .nil _⟩
  | t + 1 => by
    obtain ⟨acts, hrun⟩ := infinite_run h t
    exact ⟨acts ++ [ls t], run_snoc hrun (h t)⟩

/-- **Progress.** A measure that never grows, and shrinks at some later step
as long as `P` does not hold, leads to `P`. -/
theorem eventually_of_measure {P : Nat → Prop} {f : Nat → Nat} (hmono : ∀ t, f (t + 1) ≤ f t)
    (hp : ∀ t, P t ∨ ∃ t', t ≤ t' ∧ f (t' + 1) < f t') : ∃ t, P t := by
  have hle : Antitone f := antitone_nat_of_succ_le hmono
  suffices h : ∀ n t, f t < n → ∃ t, P t from h (f 0 + 1) 0 (Nat.lt_succ_self _)
  intro n
  induction n with
  | zero => exact fun t ht => absurd ht (Nat.not_lt_zero _)
  | succ n ih =>
    intro t ht
    rcases hp t with h | ⟨t', htt, hlt⟩
    · exact ⟨t, h⟩
    · have hle' := hle htt
      exact ih (t' + 1) (by omega)

/-! ## Executing a step function -/

section Exec

variable {init : S → Prop} (f : S → L → Option S)

def exec : S → List L → Option S
  | s, [] => some s
  | s, l :: ls => (f s l).bind fun s' => exec s' ls

/-- `none` also when a step does not meet `G`. -/
def execGuarded (G : S → L → Prop) [∀ s l, Decidable (G s l)] : S → List L → Option S
  | s, [] => some s
  | s, l :: ls => if G s l then (f s l).bind fun s' => execGuarded G s' ls else none

variable {f}

theorem run_of_exec : ∀ (ls : List L) (s s' : S), exec f s ls = some s' → (ofFn init f).Run s ls s'
  | [], s, s', h => by cases h; exact .nil s
  | l :: ls, s, s', h => by
    obtain ⟨s₁, h1, h2⟩ := Option.bind_eq_some_iff.mp h
    exact .cons h1 (run_of_exec ls s₁ s' h2)

theorem reachable_of_exec {ls : List L} {s s' : S} (hs : init s) (h : exec f s ls = some s') :
    (ofFn init f).Reachable s' := ⟨s, ls, hs, run_of_exec ls s s' h⟩

variable {G : S → L → Prop} [∀ s l, Decidable (G s l)]

theorem run_of_execGuarded : ∀ (ls : List L) (s s' : S), execGuarded f G s ls = some s' →
    ((ofFn init f).guard G).Run s ls s'
  | [], s, s', h => by cases h; exact .nil s
  | l :: ls, s, s', h => by
    unfold execGuarded at h
    split at h
    · rename_i hg
      obtain ⟨s₁, h1, h2⟩ := Option.bind_eq_some_iff.mp h
      exact .cons ⟨hg, h1⟩ (run_of_execGuarded ls s₁ s' h2)
    · cases h

theorem reachable_of_execGuarded {ls : List L} {s s' : S} (hs : init s)
    (h : execGuarded f G s ls = some s') : ((ofFn init f).guard G).Reachable s' :=
  ⟨s, ls, hs, run_of_execGuarded ls s s' h⟩

end Exec

end LTS

end AntNet
