import Mathlib.Data.List.Basic
import Mathlib.Data.List.Nodup
import Mathlib.Data.List.Induction

/-!
# Loop erasure of a walk

A walk is the list of the places visited, in order. `loopErase` erases loops
as they are closed: a place already on the path cuts the path back to it
(`revisit`), a new one is appended. `LastExit w m` is the global description:
`m` starts where `w` starts, ends at `w`'s last place, and is continued after
each place by the place `w` visits right after its last visit to it.

* `lastExit_loopErase`: the two agree, for walks of any length with any
  revisits.
* `lastExit_unique`: a walk has only one last-exit erasure.
-/
namespace AntNet.LoopErasure

variable {α : Type} [DecidableEq α]

/-- One step of the walk: cut the path back to `a`, or append `a`. -/
def revisit (m : List α) (a : α) : List α :=
  if a ∈ m then m.take (m.idxOf a + 1) else m ++ [a]

def loopErase (w : List α) : List α := w.foldl revisit []

/-- `e` is the last time the walk visits `a`. -/
def LastVisit (w : List α) (e : Nat) (a : α) : Prop :=
  w[e]? = some a ∧ ∀ e', e < e' → w[e']? ≠ some a

structure LastExit (w m : List α) : Prop where
  head : m.head? = w.head?
  stop : ∀ j a, m[j]? = some a → w.getLast? = some a → j + 1 = m.length
  next : ∀ j a, m[j]? = some a → w.getLast? ≠ some a →
    ∃ e b, LastVisit w e a ∧ w[e + 1]? = some b ∧ m[j + 1]? = some b

theorem loopErase_snoc (w : List α) (a : α) : loopErase (w ++ [a]) = revisit (loopErase w) a := by
  simp [loopErase, List.foldl_append]

/-! ## The path of a step -/

theorem revisit_new {m : List α} {a : α} (h : a ∉ m) : revisit m a = m ++ [a] := if_neg h

theorem revisit_old {m : List α} {a : α} (h : a ∈ m) : revisit m a = m.take (m.idxOf a + 1) :=
  if_pos h

/-- Cutting at `a` keeps what stands before `a`, and `a`. -/
theorem take_idxOf_succ {m : List α} {a : α} (h : a ∈ m) :
    m.take (m.idxOf a + 1) = m.take (m.idxOf a) ++ [a] := by
  have hi := List.idxOf_lt_length_of_mem h
  rw [List.take_succ_eq_append_getElem hi, List.getElem_idxOf hi]

theorem getLast?_revisit (m : List α) (a : α) : (revisit m a).getLast? = some a := by
  by_cases h : a ∈ m
  · rw [revisit_old h, take_idxOf_succ h]; simp
  · rw [revisit_new h]; simp

theorem revisit_subset {m : List α} {a x : α} (h : x ∈ revisit m a) : x ∈ m ∨ x = a := by
  by_cases ha : a ∈ m
  · rw [revisit_old ha] at h; exact .inl (List.mem_of_mem_take h)
  · rw [revisit_new ha] at h; simpa using h

theorem revisit_nodup {m : List α} (hm : m.Nodup) (a : α) : (revisit m a).Nodup := by
  by_cases h : a ∈ m
  · rw [revisit_old h]; exact hm.sublist (List.take_sublist _ _)
  · rw [revisit_new h]
    exact List.nodup_append.mpr ⟨hm, by simp, fun x hx y hy => by
      rw [List.mem_singleton.mp hy]; rintro rfl; exact h hx⟩

theorem head?_revisit {m : List α} (hm : m ≠ []) (a : α) : (revisit m a).head? = m.head? := by
  by_cases h : a ∈ m
  · rw [revisit_old h, List.head?_take, if_neg (by omega)]
  · rw [revisit_new h, List.head?_append_of_ne_nil _ hm]

/-! ## The erasure of a walk -/

theorem loopErase_nodup (w : List α) : (loopErase w).Nodup := by
  induction w using List.reverseRecOn with
  | nil => simp [loopErase]
  | append_singleton w a ih => rw [loopErase_snoc]; exact revisit_nodup ih a

theorem getLast?_loopErase (w : List α) : (loopErase w).getLast? = w.getLast? := by
  induction w using List.reverseRecOn with
  | nil => simp [loopErase]
  | append_singleton w a _ => rw [loopErase_snoc, getLast?_revisit]; simp

theorem loopErase_eq_nil {w : List α} : loopErase w = [] ↔ w = [] := by
  rw [← List.getLast?_eq_none_iff, getLast?_loopErase, List.getLast?_eq_none_iff]

/-! ## Last exits -/

omit [DecidableEq α] in
theorem LastVisit.unique {w : List α} {e e' : Nat} {a : α} (h : LastVisit w e a)
    (h' : LastVisit w e' a) : e = e' := by
  rcases Nat.lt_trichotomy e e' with hlt | heq | hgt
  · exact absurd h'.1 (h.2 e' hlt)
  · exact heq
  · exact absurd h.1 (h'.2 e hgt)

omit [DecidableEq α] in
/-- A further step to another place leaves the last visit where it was. -/
theorem LastVisit.snoc {w : List α} {e : Nat} {a b : α} (h : LastVisit w e a) (hab : a ≠ b) :
    LastVisit (w ++ [b]) e a := by
  have he : e < w.length := (List.getElem?_eq_some_iff.mp h.1).1
  refine ⟨by rw [List.getElem?_append_left he]; exact h.1, fun e' hlt => ?_⟩
  rcases Nat.lt_trichotomy e' w.length with h1 | h1 | h1
  · rw [List.getElem?_append_left h1]; exact h.2 e' hlt
  · subst h1; simpa using fun hba => hab hba.symm
  · rw [List.getElem?_eq_none (by simp; omega)]; simp

omit [DecidableEq α] in
/-- The last place of a walk is last visited at its end. -/
theorem lastVisit_getLast {w : List α} {a : α} (h : w.getLast? = some a) :
    LastVisit w (w.length - 1) a := by
  rw [List.getLast?_eq_getElem?] at h
  refine ⟨h, ?_⟩
  intro e' hlt
  rw [List.getElem?_eq_none (by omega)]; simp

/-- A revisit: the path is cut after `a`, so only the exits before `a` matter. -/
theorem lastExit_old {w m : List α} (hw : w ≠ []) (hnd : m.Nodup) (h : LastExit w m) {a : α}
    (ha : a ∈ m) : LastExit (w ++ [a]) (revisit m a) := by
  have hm : m ≠ [] := List.ne_nil_of_mem ha
  have hi := List.idxOf_lt_length_of_mem ha
  have hget : m[m.idxOf a]? = some a := by
    rw [List.getElem?_eq_getElem hi, List.getElem_idxOf hi]
  have hcut : ∀ j, j ≤ m.idxOf a → (revisit m a)[j]? = m[j]? := by
    intro j hj
    rw [revisit_old ha, List.getElem?_take, if_pos (by omega)]
  have hlen : (revisit m a).length = m.idxOf a + 1 := by
    rw [revisit_old ha, List.length_take]; omega
  refine ⟨by rw [head?_revisit hm, h.head, List.head?_append_of_ne_nil _ hw], ?_, ?_⟩
  · intro j x hj hx
    have hjl := (List.getElem?_eq_some_iff.mp hj).1
    rw [hcut j (by omega)] at hj
    simp only [List.getLast?_append, List.getLast?_singleton, Option.some_or,
      Option.some.injEq] at hx
    subst hx
    have := (List.getElem?_inj hi hnd).mp (hget.trans hj.symm)
    omega
  · intro j x hj hx
    have hjl := (List.getElem?_eq_some_iff.mp hj).1
    rw [hcut j (by omega)] at hj
    simp only [List.getLast?_append, List.getLast?_singleton, Option.some_or, ne_eq,
      Option.some.injEq] at hx
    have hne : j ≠ m.idxOf a := by
      rintro rfl; rw [hget] at hj; exact hx (Option.some.inj hj)
    have hnl : w.getLast? ≠ some x := fun hl => by have := h.stop j x hj hl; omega
    obtain ⟨e, b, hv, hb, hmb⟩ := h.next j x hj hnl
    have hel := (List.getElem?_eq_some_iff.mp hb).1
    exact ⟨e, b, hv.snoc (Ne.symm hx), by rw [List.getElem?_append_left hel]; exact hb,
      by rw [hcut _ (by omega)]; exact hmb⟩

/-- A new place follows the walk's previous last place. -/
theorem lastExit_new {w m : List α} (hw : w ≠ []) (hm : m ≠ []) (h : LastExit w m) {a : α}
    (ha : a ∉ m) : LastExit (w ++ [a]) (revisit m a) := by
  have hwl := List.length_pos_iff.mpr hw
  rw [revisit_new ha]
  refine ⟨by rw [List.head?_append_of_ne_nil _ hm, List.head?_append_of_ne_nil _ hw, h.head], ?_, ?_⟩
  · intro j x hj hx
    simp only [List.getLast?_append, List.getLast?_singleton, Option.some_or,
      Option.some.injEq] at hx
    subst hx
    have hjl := (List.getElem?_eq_some_iff.mp hj).1
    rw [List.length_append, List.length_singleton] at hjl ⊢
    have : ¬ j < m.length := fun hlt => by
      rw [List.getElem?_append_left hlt] at hj; exact ha (List.mem_of_getElem? hj)
    omega
  · intro j x hj hx
    simp only [List.getLast?_append, List.getLast?_singleton, Option.some_or, ne_eq,
      Option.some.injEq] at hx
    have hjl := (List.getElem?_eq_some_iff.mp hj).1
    rw [List.length_append, List.length_singleton] at hjl
    have hlt : j < m.length := by
      apply Nat.lt_of_le_of_ne (by omega)
      intro he
      subst he; simp at hj; exact hx hj
    rw [List.getElem?_append_left hlt] at hj
    by_cases hl : w.getLast? = some x
    · have hjm := h.stop j x hj hl
      refine ⟨w.length - 1, a, (lastVisit_getLast hl).snoc (Ne.symm hx), ?_, ?_⟩
      · rw [Nat.sub_add_cancel hwl]; simp
      · rw [hjm]; simp
    · obtain ⟨e, b, hv, hb, hmb⟩ := h.next j x hj hl
      have hel := (List.getElem?_eq_some_iff.mp hb).1
      have hml := (List.getElem?_eq_some_iff.mp hmb).1
      exact ⟨e, b, hv.snoc (Ne.symm hx), by rw [List.getElem?_append_left hel]; exact hb,
        by rw [List.getElem?_append_left hml]; exact hmb⟩

/-- **Erasing loops as they close is last-exit erasure.** -/
theorem lastExit_loopErase (w : List α) : LastExit w (loopErase w) := by
  induction w using List.reverseRecOn with
  | nil => exact ⟨rfl, by simp [loopErase], by simp [loopErase]⟩
  | append_singleton w a ih =>
    rw [loopErase_snoc]
    by_cases hw : w = []
    · subst hw
      refine ⟨by simp [loopErase, revisit], ?_, ?_⟩ <;> intro j x hj hx <;>
        cases j <;> simp_all [loopErase, revisit]
    · by_cases ha : a ∈ loopErase w
      · exact lastExit_old hw (loopErase_nodup w) ih ha
      · exact lastExit_new hw (by rwa [ne_eq, loopErase_eq_nil]) ih ha

omit [DecidableEq α] in
/-- The last-exit description determines the path. -/
theorem lastExit_unique {w m m' : List α} (h : LastExit w m) (h' : LastExit w m') : m = m' := by
  apply List.ext_getElem?
  intro j
  induction j with
  | zero => rw [← List.head?_eq_getElem?, ← List.head?_eq_getElem?, h.head, h'.head]
  | succ j ih =>
    cases hj : m[j]? with
    | none =>
      rw [hj] at ih
      have h1 := List.getElem?_eq_none_iff.mp hj
      have h2 := List.getElem?_eq_none_iff.mp ih.symm
      rw [List.getElem?_eq_none (by omega), List.getElem?_eq_none (by omega)]
    | some a =>
      rw [hj] at ih
      by_cases hl : w.getLast? = some a
      · have h1 := h.stop j a hj hl
        have h2 := h'.stop j a ih.symm hl
        rw [List.getElem?_eq_none (by omega), List.getElem?_eq_none (by omega)]
      · obtain ⟨e, b, hv, hb, hmb⟩ := h.next j a hj hl
        obtain ⟨e', b', hv', hb', hmb'⟩ := h'.next j a ih.symm hl
        have hee := hv.unique hv'
        subst hee
        rw [hmb, hmb', ← hb, hb']

end AntNet.LoopErasure
