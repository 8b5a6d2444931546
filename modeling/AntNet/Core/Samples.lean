import Mathlib.Logic.Function.Basic
import Mathlib.Order.Bounds.Defs
import Mathlib.Order.Lattice

/-!
# Samples for many keys

A stream of pairs of a key and a value. `valuesAt d` is what was sampled for
the key `d`, in order. A table that each pair updates at its own key holds at
`d` what the values for `d` make of the first entry (`foldl_update_apply`), so
facts about one key follow from facts about one list.
-/
namespace AntNet.Samples

variable {Key V S : Type} [DecidableEq Key]

def valuesAt (d : Key) (l : List (Key × V)) : List V :=
  l.filterMap fun x => if x.1 = d then some x.2 else none

@[simp] theorem valuesAt_nil (d : Key) : valuesAt d ([] : List (Key × V)) = [] := rfl

theorem valuesAt_cons (d : Key) (x : Key × V) (l : List (Key × V)) :
    valuesAt d (x :: l) = if x.1 = d then x.2 :: valuesAt d l else valuesAt d l := by
  unfold valuesAt
  split <;> simp [*]

@[simp] theorem valuesAt_append (d : Key) (l l' : List (Key × V)) :
    valuesAt d (l ++ l') = valuesAt d l ++ valuesAt d l' := List.filterMap_append

theorem mem_valuesAt {d : Key} {v : V} {l : List (Key × V)} : v ∈ valuesAt d l ↔ (d, v) ∈ l := by
  unfold valuesAt
  rw [List.mem_filterMap]
  constructor
  · rintro ⟨⟨k, w⟩, hm, h⟩
    split at h
    · rename_i hk
      cases h; cases hk
      exact hm
    · cases h
  · intro h
    exact ⟨(d, v), h, by simp⟩

theorem foldl_update_apply (g : Key → S → V → S) (d : Key) : ∀ (l : List (Key × V)) (t : Key → S),
    l.foldl (fun t x => Function.update t x.1 (g x.1 (t x.1) x.2)) t d
      = (valuesAt d l).foldl (g d) (t d)
  | [], _ => rfl
  | x :: l, t => by
    rw [List.foldl_cons, foldl_update_apply g d l, valuesAt_cons]
    by_cases h : x.1 = d
    · rw [if_pos h, List.foldl_cons, ← h, Function.update_self]
    · rw [if_neg h, Function.update_of_ne (Ne.symm h)]

/-! ## The least value -/

section Least

variable [LinearOrder V]

/-- The scan for the least value, from a first candidate. -/
def scanLeast (first : V) (l : List V) : V := l.foldl (fun m x => if x < m then x else m) first

theorem scanLeast_isLeast : ∀ (l : List V) (first : V),
    IsLeast {x | x = first ∨ x ∈ l} (scanLeast first l)
  | [], first => by
    refine ⟨.inl rfl, ?_⟩
    rintro x (rfl | hx)
    · exact le_rfl
    · cases hx
  | x :: l, first => by
    have ih := scanLeast_isLeast l (if x < first then x else first)
    have hx : (if x < first then x else first) ≤ x := by
      split
      · exact le_rfl
      · rename_i h
        exact le_of_not_gt h
    have hfirst : (if x < first then x else first) ≤ first := by
      split
      · rename_i h
        exact le_of_lt h
      · exact le_rfl
    show IsLeast {y | y = first ∨ y ∈ x :: l} (scanLeast (if x < first then x else first) l)
    refine ⟨?_, ?_⟩
    · rcases ih.1 with h | h
      · by_cases hlt : x < first
        · exact .inr (List.mem_cons.mpr (.inl (h.trans (if_pos hlt))))
        · exact .inl (h.trans (if_neg hlt))
      · exact .inr (List.mem_cons_of_mem _ h)
    · rintro y (rfl | hy)
      · exact (ih.2 (.inl rfl)).trans hfirst
      · rcases List.mem_cons.mp hy with rfl | hy
        · exact (ih.2 (.inl rfl)).trans hx
        · exact ih.2 (.inr hy)

end Least

end AntNet.Samples
