import AntNet.Core.LTS

/-!
# Programs that may fault, and total-correctness triples

`Prog ε σ α` is a program over a state `σ` that returns an `α` or stops with
a fault `ε`; the state it reached is kept either way. `Triple P m Q` is total
correctness: from a state satisfying `P`, `m` returns without a fault, in a
state satisfying `Q`.

The rules are the usual ones. `Triple.bindEq` is the form used for
straight-line code: the value of the first program is known, so the rest is
proved for that value only. `loop` is a `for (i = i0; ; i++)` whose body may
leave it with a result, and `loopDown` one that counts down to 0; their rules
ask for an invariant indexed by the counter, `loop`'s also for a bound on the
counter, which shows that the fuel is never used up. `forUp` is a `for` whose
bounds are known; its rule `exec_forUp` says which fold over a list it is.
-/
namespace AntNet

abbrev Prog (ε σ α : Type) := ExceptT ε (StateM σ) α

namespace Prog

variable {ε σ α β : Type}

/-- The outcome of `m` from `s`, and the state it stops in. -/
def exec (m : Prog ε σ α) (s : σ) : Except ε α × σ := Id.run (StateT.run (ExceptT.run m) s)

theorem exec_pure (a : α) (s : σ) : exec (pure a : Prog ε σ α) s = (.ok a, s) := rfl

theorem exec_get (s : σ) : exec (get : Prog ε σ σ) s = (.ok s, s) := rfl

theorem exec_modify (g : σ → σ) (s : σ) : exec (modify g : Prog ε σ Unit) s = (.ok (), g s) := rfl

theorem exec_throw (e : ε) (s : σ) : exec (throw e : Prog ε σ α) s = (.error e, s) := rfl

theorem exec_bind (m : Prog ε σ α) (f : α → Prog ε σ β) (s : σ) :
    exec (m >>= f) s = match exec m s with
      | (.ok a, s') => exec (f a) s'
      | (.error e, s') => (.error e, s') := by
  simp only [exec, ExceptT.run_bind, StateT.run_bind]
  simp only [Id.run_bind]
  rcases (ExceptT.run m).run s with ⟨r, s'⟩
  cases r <;> rfl

theorem exec_eq_ok {m : Prog ε σ α} {s : σ} {a : α} (h : (exec m s).1.toOption = some a) :
    exec m s = (.ok a, (exec m s).2) := by
  rcases he : exec m s with ⟨r, s'⟩
  rw [he] at h
  cases r with
  | error e => cases h
  | ok b => cases h; rfl

def loop (stuck : ε) (body : Nat → Prog ε σ (Option α)) : Nat → Nat → Prog ε σ α
  | 0, _ => throw stuck
  | n + 1, i => do
    match ← body i with
    | some a => pure a
    | none => loop stuck body n (i + 1)

def loopDown (body : Nat → Prog ε σ (Option α)) : Nat → Prog ε σ (Option α)
  | 0 => pure none
  | n + 1 => do
    match ← body n with
    | some a => pure (some a)
    | none => loopDown body n

/-- `for (i = i0; i < i0 + n; i++)` -/
def forUp (body : Nat → Prog ε σ Unit) : Nat → Nat → Prog ε σ Unit
  | 0, _ => pure ()
  | n + 1, i => do
    body i
    forUp body n (i + 1)

theorem exec_bind_ok {m : Prog ε σ α} {f : α → Prog ε σ β} {s s' : σ} {b : β}
    (h : exec (m >>= f) s = (.ok b, s')) :
    ∃ a s₁, exec m s = (.ok a, s₁) ∧ exec (f a) s₁ = (.ok b, s') := by
  rw [exec_bind] at h
  split at h
  · rename_i a s₁ he
    exact ⟨a, s₁, he, h⟩
  · cases h

/-- A loop whose body is a state transformer, as long as `I` holds, is a fold. -/
theorem exec_forUp {A : Type} {I : σ → Prop} {f : σ → A → σ} {body : Nat → Prog ε σ Unit} :
    ∀ (l : List A) (i : Nat) (s : σ), I s →
      (∀ k a s, l[k]? = some a → I s → exec (body (i + k)) s = (.ok (), f s a) ∧ I (f s a)) →
      exec (forUp body l.length i) s = (.ok (), l.foldl f s) ∧ I (l.foldl f s)
  | [], i, s, hs, _ => ⟨exec_pure () s, hs⟩
  | a :: l, i, s, hs, hbody => by
    obtain ⟨he, hI⟩ := hbody 0 a s rfl hs
    have hrest : ∀ k b s, l[k]? = some b → I s →
        exec (body (i + 1 + k)) s = (.ok (), f s b) ∧ I (f s b) := by
      intro k b s hk hs
      rw [show i + 1 + k = i + (k + 1) by omega]
      exact hbody (k + 1) b s hk hs
    simp only [List.length_cons, forUp, List.foldl_cons]
    rw [exec_bind, show body i = body (i + 0) from rfl, he]
    exact exec_forUp l (i + 1) (f s a) hI hrest

/-- A loop that returns has run its body for every value of the counter. -/
theorem forUp_ok {body : Nat → Prog ε σ Unit} : ∀ (n i : Nat) {s s' : σ},
    exec (forUp body n i) s = (.ok (), s') →
      ∀ k, k < n → ∃ s₁ s₂, exec (body (i + k)) s₁ = (.ok (), s₂)
  | 0, _, _, _, _, _, hk => absurd hk (Nat.not_lt_zero _)
  | n + 1, i, s, s', h, k, hk => by
    obtain ⟨_, s₁, hb, hr⟩ := exec_bind_ok h
    cases k with
    | zero => exact ⟨s, s₁, hb⟩
    | succ k =>
      rw [show i + (k + 1) = i + 1 + k by omega]
      exact forUp_ok n (i + 1) hr k (by omega)

end Prog

def Triple {ε σ α : Type} (P : σ → Prop) (m : Prog ε σ α) (Q : α → σ → Prop) : Prop :=
  ∀ s, P s → ∃ a s', m.exec s = (.ok a, s') ∧ Q a s'

namespace Triple

open Prog

variable {ε σ α β : Type} {P P' R : σ → Prop} {Q Q' : α → σ → Prop} {m : Prog ε σ α}

theorem pure {a : α} (h : ∀ s, P s → Q a s) : Triple P (Pure.pure a : Prog ε σ α) Q :=
  fun s hs => ⟨a, s, exec_pure a s, h s hs⟩

theorem update {g : σ → σ} {Q : Unit → σ → Prop} (h : ∀ s, P s → Q () (g s)) :
    Triple P (modify g : Prog ε σ Unit) Q :=
  fun s hs => ⟨(), g s, exec_modify g s, h s hs⟩

theorem conseq (h : Triple P m Q) (hP : ∀ s, P' s → P s) (hQ : ∀ a s, Q a s → Q' a s) :
    Triple P' m Q' := by
  intro s hs
  obtain ⟨a, s', he, hq⟩ := h s (hP s hs)
  exact ⟨a, s', he, hQ a s' hq⟩

/-- What is known of an outcome that is known. -/
theorem returned (h : Triple P m Q) {s s' : σ} {a : α} (hs : P s) (he : m.exec s = (.ok a, s')) :
    Q a s' := by
  obtain ⟨b, s'', he', hq⟩ := h s hs
  rw [he] at he'
  cases he'
  exact hq

theorem bind {Q : β → σ → Prop} {S : α → σ → Prop} {f : α → Prog ε σ β} (hm : Triple P m S)
    (hf : ∀ a, Triple (S a) (f a) Q) : Triple P (m >>= f) Q := by
  intro s hs
  obtain ⟨a, s', he, hS⟩ := hm s hs
  obtain ⟨b, s'', he', hQ⟩ := hf a s' hS
  exact ⟨b, s'', by rw [exec_bind, he]; exact he', hQ⟩

/-- Sequencing when the first value is known to be `x`. -/
theorem bindEq {Q : β → σ → Prop} {x : α} {f : α → Prog ε σ β}
    (hm : Triple P m (fun a s => a = x ∧ R s)) (hf : Triple R (f x) Q) : Triple P (m >>= f) Q := by
  refine hm.bind fun a => ?_
  rintro s ⟨rfl, hR⟩
  exact hf s hR

/-- Sequencing after a program run for its effect. -/
theorem seq {Q : α → σ → Prop} {m : Prog ε σ Unit} {f : Unit → Prog ε σ α}
    (hm : Triple P m (fun _ => R)) (hf : Triple R (f ()) Q) : Triple P (m >>= f) Q :=
  hm.bind fun _ => hf

/-- A precondition that holds of no state. -/
theorem absurd (h : ∀ s, ¬ P s) : Triple P m Q := fun s hs => (h s hs).elim

/-- A pure part of the precondition may be used for the program. -/
theorem lift {p : Prop} (h : p → Triple P m Q) : Triple (fun s => p ∧ P s) m Q :=
  fun s hs => h hs.1 s hs.2

theorem ex {ι : Type} {p : ι → Prop} {R : ι → σ → Prop} (h : ∀ x, p x → Triple (R x) m Q) :
    Triple (fun s => ∃ x, p x ∧ R x s) m Q := by
  rintro s ⟨x, hp, hR⟩
  exact h x hp s hR

theorem loop {stuck : ε} {body : Nat → Prog ε σ (Option α)} (I : Nat → σ → Prop) (N : Nat)
    (hbound : ∀ i s, I i s → i < N)
    (hbody : ∀ i, Triple (I i) (body i) fun r s => match r with
      | some a => Q a s
      | none => I (i + 1) s) :
    ∀ n i, N ≤ n + i → Triple (I i) (Prog.loop stuck body n i) Q := by
  intro n
  induction n with
  | zero =>
    intro i hN
    exact absurd fun s hs => by have := hbound i s hs; omega
  | succ n ih =>
    intro i hN
    refine (hbody i).bind fun r => ?_
    cases r with
    | some a => exact pure fun _ h => h
    | none => exact ih (i + 1) (by omega)

theorem loopDown {body : Nat → Prog ε σ (Option α)} {Q : Option α → σ → Prop} (I : Nat → σ → Prop)
    (hend : ∀ s, I 0 s → Q none s)
    (hbody : ∀ i, Triple (I (i + 1)) (body i) fun r s => match r with
      | some a => Q (some a) s
      | none => I i s) :
    ∀ n, Triple (I n) (Prog.loopDown body n) Q
  | 0 => pure hend
  | n + 1 => by
    refine (hbody n).bind fun r => ?_
    cases r with
    | some a => exact pure fun _ h => h
    | none => exact loopDown I hend hbody n

end Triple

end AntNet
