import Mathlib.Data.List.Basic

/-!
# Lists with one class in front

`HighFirst hi l`: the elements of the class `hi` stand ahead of all others.
`LowInOrder hi r l`: the others stand in the order `r`. Both survive removals
(`sublist`) and an insertion of the class at the head; an element outside the
class may be appended behind those it comes after, and one of the class only
when nothing else is there (`highFirst_append_iff`).
-/
namespace AntNet.PriorityOrder

variable {A : Type} {hi : A → Prop} {r : A → A → Prop} {l l' : List A} {a : A}

def HighFirst (hi : A → Prop) (l : List A) : Prop := l.Pairwise fun a b => hi b → hi a

theorem HighFirst.sublist (h : HighFirst hi l) (hs : l'.Sublist l) : HighFirst hi l' :=
  List.Pairwise.sublist hs h

theorem HighFirst.cons (h : HighFirst hi l) (ha : hi a) : HighFirst hi (a :: l) :=
  List.pairwise_cons.mpr ⟨fun _ _ _ => ha, h⟩

theorem highFirst_append_iff (h : HighFirst hi l) :
    HighFirst hi (l ++ [a]) ↔ (hi a → ∀ b ∈ l, hi b) := by
  unfold HighFirst
  rw [List.pairwise_append]
  constructor
  · intro ⟨_, _, hall⟩ ha b hb
    exact hall b hb a (List.mem_singleton_self a) ha
  · intro hall
    refine ⟨h, List.pairwise_singleton _ _, fun b hb c hc => ?_⟩
    rw [List.mem_singleton.mp hc]
    exact fun ha => hall ha b hb

variable [DecidablePred hi]

def LowInOrder (hi : A → Prop) [DecidablePred hi] (r : A → A → Prop) (l : List A) : Prop :=
  (l.filter fun a => ¬ hi a).Pairwise r

theorem LowInOrder.sublist (h : LowInOrder hi r l) (hs : l'.Sublist l) : LowInOrder hi r l' :=
  List.Pairwise.sublist (hs.filter _) h

theorem LowInOrder.cons (h : LowInOrder hi r l) (ha : hi a) : LowInOrder hi r (a :: l) := by
  unfold LowInOrder
  rw [List.filter_cons_of_neg (by simpa using ha)]
  exact h

theorem LowInOrder.append (h : LowInOrder hi r l) (ha : ∀ b ∈ l, r b a) :
    LowInOrder hi r (l ++ [a]) := by
  unfold LowInOrder
  rw [List.filter_append, List.pairwise_append]
  refine ⟨h, List.Pairwise.filter _ (List.pairwise_singleton _ _), fun b hb c hc => ?_⟩
  rw [List.mem_singleton.mp (List.mem_filter.mp hc).1]
  exact ha b (List.mem_filter.mp hb).1

end AntNet.PriorityOrder
