import AntNet.Core.LTS
import Mathlib.Data.Finset.Card
import Mathlib.Data.List.Pairwise

/-!
# Double-ended priority queues

What a queue does for its users, whatever it is made of: a set of waiting
elements in an order `r`. Elements arrive; only the least one is sent; the
least or the greatest one is dropped; any one can be removed.

* `move_least`, `move_greatest`: on a list in the order `r` the least element
  is the first and the greatest the last.
* `overtaking`: while an element waits, the sent ones were before it, and they
  are at most as many as waited before it and have arrived before it since.
-/
namespace AntNet.PriorityDeque

/-- What happens to one element. -/
inductive Move (A : Type) where
  | arrive (a : A)
  | send (a : A)
  | dropFirst (a : A)
  | dropLast (a : A)
  | remove (a : A)

namespace Move

variable {A : Type}

def arrived : Move A → Option A
  | .arrive a => some a
  | _ => none

def sent : Move A → Option A
  | .send a => some a
  | _ => none

def dropped : Move A → Option A
  | .dropFirst a => some a
  | .dropLast a => some a
  | _ => none

def removed : Move A → Option A
  | .remove a => some a
  | _ => none

end Move

variable {A : Type} [DecidableEq A] {r : A → A → Prop} {S S' : Finset A} {a b : A} {l : List A}

def Least (r : A → A → Prop) (S : Finset A) (a : A) : Prop := a ∈ S ∧ ∀ b ∈ S, b ≠ a → r a b

def Greatest (r : A → A → Prop) (S : Finset A) (a : A) : Prop := a ∈ S ∧ ∀ b ∈ S, b ≠ a → r b a

inductive Step (r : A → A → Prop) : Finset A → Move A → Finset A → Prop where
  | arrive {S : Finset A} {a : A} : a ∉ S → Step r S (.arrive a) (insert a S)
  | send {S : Finset A} {a : A} : Least r S a → Step r S (.send a) (S.erase a)
  | dropFirst {S : Finset A} {a : A} : Least r S a → Step r S (.dropFirst a) (S.erase a)
  | dropLast {S : Finset A} {a : A} : Greatest r S a → Step r S (.dropLast a) (S.erase a)
  | remove {S : Finset A} {a : A} : a ∈ S → Step r S (.remove a) (S.erase a)

def deque (r : A → A → Prop) : LTS (Finset A) (Move A) where
  init S := S = ∅
  step := Step r

/-! ## Lists in order -/

omit [DecidableEq A] in
/-- An order in which nothing comes before itself lists no element twice. -/
theorem nodup_of_pairwise (hr : ∀ a, ¬ r a a) (h : l.Pairwise r) : l.Nodup := by
  have hne : ∀ {a b : A}, r a b → a ≠ b := by
    rintro a b hab rfl
    exact hr a hab
  exact h.imp hne

theorem erase_cons (h : a ∉ l) : (a :: l).toFinset.erase a = l.toFinset := by
  rw [List.toFinset_cons, Finset.erase_insert (by simpa using h)]

theorem erase_snoc (h : a ∉ l) : (l ++ [a]).toFinset.erase a = l.toFinset := by
  rw [← erase_cons h]
  congr 1
  ext b
  simp

theorem least_head (h : (a :: l).Pairwise r) : Least r (a :: l).toFinset a := by
  refine ⟨by simp, fun b hb hne => ?_⟩
  rcases List.mem_cons.mp (List.mem_toFinset.mp hb) with rfl | hm
  · exact absurd rfl hne
  · exact (List.pairwise_cons.mp h).1 b hm

theorem greatest_last (h : (l ++ [a]).Pairwise r) : Greatest r (l ++ [a]).toFinset a := by
  refine ⟨by simp, fun b hb hne => ?_⟩
  rcases List.mem_append.mp (List.mem_toFinset.mp hb) with hm | hm
  · exact (List.pairwise_append.mp h).2.2 b hm a (List.mem_singleton_self a)
  · exact absurd (List.mem_singleton.mp hm) hne

/-- A list in order may leave from the front. -/
theorem run_dropFirst (hr : ∀ a, ¬ r a a) : ∀ {l : List A}, l.Pairwise r →
    (deque r).Run l.toFinset (l.map .dropFirst) ∅
  | [], _ => .nil ∅
  | a :: l, h => by
    have hstep : Step r (a :: l).toFinset (.dropFirst a) ((a :: l).toFinset.erase a) :=
      .dropFirst (least_head h)
    rw [erase_cons (List.nodup_cons.mp (nodup_of_pairwise hr h)).1] at hstep
    exact .cons hstep (run_dropFirst hr (List.pairwise_cons.mp h).2)

/-- Any of the waiting elements may be removed. -/
theorem run_remove : ∀ {l : List A} {S : Finset A}, l.Nodup → (∀ a ∈ l, a ∈ S) →
    (deque r).Run S (l.map .remove) (S \ l.toFinset)
  | [], S, _, _ => by
    rw [List.toFinset_nil, Finset.sdiff_empty]
    exact .nil S
  | a :: l, S, hn, hm => by
    obtain ⟨ha, hn'⟩ := List.nodup_cons.mp hn
    have hrest : ∀ b ∈ l, b ∈ S.erase a := fun b hb =>
      Finset.mem_erase.mpr ⟨fun h => ha (h ▸ hb), hm b (List.mem_cons_of_mem _ hb)⟩
    have hset : S.erase a \ l.toFinset = S \ (a :: l).toFinset := by
      ext b
      simp only [Finset.mem_sdiff, Finset.mem_erase, List.toFinset_cons, Finset.mem_insert]
      tauto
    rw [← hset]
    exact .cons (.remove (hm a List.mem_cons_self)) (run_remove hn' hrest)

/-! ## Waiting -/

/-- The elements that wait before `b`. -/
def ahead (r : A → A → Prop) [DecidableRel r] (S : Finset A) (b : A) : Nat :=
  (S.filter fun a => r a b).card

/-- An element that does not arrive anew has been there all the time. -/
theorem mem_of_run {ms : List (Move A)} (hrun : (deque r).Run S ms S') (hb : b ∈ S')
    (hnew : b ∉ ms.filterMap Move.arrived) : b ∈ S := by
  induction hrun with
  | nil => exact hb
  | @cons S T S' m ms hs _ ih =>
    have hrest : b ∉ ms.filterMap Move.arrived := by
      intro h
      obtain ⟨m', hm, he⟩ := List.mem_filterMap.mp h
      exact hnew (List.mem_filterMap.mpr ⟨m', List.mem_cons_of_mem _ hm, he⟩)
    have hT := ih hb hrest
    cases hs with
    | arrive =>
      rcases Finset.mem_insert.mp hT with rfl | h
      · exact absurd (by simp [Move.arrived]) hnew
      · exact h
    | send | dropFirst | dropLast | remove => exact Finset.mem_of_mem_erase hT

variable [DecidableRel r]

theorem ahead_erase (hab : r a b) (ha : a ∈ S) : ahead r (S.erase a) b + 1 = ahead r S b := by
  unfold ahead
  rw [Finset.filter_erase]
  exact Finset.card_erase_add_one (Finset.mem_filter.mpr ⟨ha, hab⟩)

theorem ahead_erase_le (S : Finset A) (a b : A) : ahead r (S.erase a) b ≤ ahead r S b :=
  Finset.card_le_card (Finset.filter_subset_filter _ (Finset.erase_subset a S))

theorem ahead_insert (ha : a ∉ S) (b : A) :
    ahead r (insert a S) b = ahead r S b + if r a b then 1 else 0 := by
  unfold ahead
  rw [Finset.filter_insert]
  split
  · rw [Finset.card_insert_of_notMem fun h => ha (Finset.mem_filter.mp h).1]
  · rfl

/-- On a list in order the elements before `b` stand before it. -/
theorem ahead_toFinset (hr : ∀ a b, r a b → ¬ r b a) : ∀ {l : List A}, l.Pairwise r → b ∈ l →
    ahead r l.toFinset b = l.idxOf b
  | a :: l, h, hb => by
    have hirr : ∀ a, ¬ r a a := fun a ha => hr a a ha ha
    obtain ⟨hall, hl⟩ := List.pairwise_cons.mp h
    have ha : a ∉ l.toFinset := by simpa using (List.nodup_cons.mp (nodup_of_pairwise hirr h)).1
    rw [List.toFinset_cons, ahead_insert ha]
    by_cases hab : b = a
    · subst hab
      have hnone : ahead r l.toFinset b = 0 := by
        refine Finset.card_eq_zero.mpr (Finset.filter_eq_empty_iff.mpr fun c hc => ?_)
        exact hr b c (hall c (List.mem_toFinset.mp hc))
      rw [hnone, if_neg (hirr b), List.idxOf_cons_self]
    · have hbl : b ∈ l := (List.mem_cons.mp hb).resolve_left hab
      rw [ahead_toFinset hr hl hbl, if_pos (hall b hbl), List.idxOf_cons_ne l fun h => hab h.symm]

/-- **Bounded overtaking.** While `b` waits, the elements sent are before it,
and those and the ones then left before it are no more than waited before it
at first and have arrived before it since. -/
theorem overtaking {ms : List (Move A)} (hrun : (deque r).Run S ms S') (hb : b ∈ S')
    (hnew : b ∉ ms.filterMap Move.arrived) :
    (∀ a ∈ ms.filterMap Move.sent, r a b) ∧
    (ms.filterMap Move.sent).length + ahead r S' b ≤
      ahead r S b + (ms.filterMap Move.arrived).countP fun a => r a b := by
  induction hrun with
  | nil => simp
  | @cons S T S' m ms hs hrest ih =>
    have hnew' : b ∉ ms.filterMap Move.arrived := by
      intro h
      obtain ⟨m', hm, he⟩ := List.mem_filterMap.mp h
      exact hnew (List.mem_filterMap.mpr ⟨m', List.mem_cons_of_mem _ hm, he⟩)
    obtain ⟨hbefore, hle⟩ := ih hb hnew'
    have hT := mem_of_run hrest hb hnew'
    cases hs with
    | @arrive a ha =>
      refine ⟨hbefore, ?_⟩
      rw [ahead_insert ha] at hle
      simp only [List.filterMap_cons, Move.sent, Move.arrived, List.countP_cons, decide_eq_true_eq]
      omega
    | @send a ha =>
      have hab : r a b := ha.2 b (Finset.mem_of_mem_erase hT) fun h => Finset.notMem_erase b S (h ▸ hT)
      have herase := ahead_erase hab ha.1
      simp only [List.filterMap_cons, Move.sent, Move.arrived, List.length_cons, List.mem_cons,
        forall_eq_or_imp]
      exact ⟨⟨hab, hbefore⟩, by omega⟩
    | @dropFirst a | @dropLast a | @remove a =>
      refine ⟨hbefore, ?_⟩
      have := ahead_erase_le (r := r) S a b
      simp only [List.filterMap_cons, Move.sent, Move.arrived]
      omega

end AntNet.PriorityDeque
