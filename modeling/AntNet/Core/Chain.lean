import Mathlib.Logic.Function.Basic
import Mathlib.Data.List.Nodup

/-!
# Singly linked lists

`Chain next head l`: from `head` the links lead through the elements of `l` and
end there. It depends on the links of these elements only (`congr`), so that
other elements may be linked elsewhere; an element may be put in front
(`push`). A list that ends has no element twice (`nodup`).
-/
namespace AntNet

variable {A : Type} {next next' : A → Option A} {head : Option A} {l l' : List A} {a : A}

inductive Chain (next : A → Option A) : Option A → List A → Prop where
  | nil : Chain next none []
  | cons {a : A} {l : List A} : Chain next (next a) l → Chain next (some a) (a :: l)

namespace Chain

theorem unique (h : Chain next head l) : ∀ {l' : List A}, Chain next head l' → l = l' := by
  induction h with
  | nil => intro l' h'; cases h'; rfl
  | cons _ ih =>
    intro l' h'
    cases h' with
    | cons h' => rw [ih h']

theorem congr (h : Chain next head l) (hl : ∀ a ∈ l, next' a = next a) : Chain next' head l := by
  induction h with
  | nil => exact .nil
  | @cons a l _ ih =>
    have ha := hl a List.mem_cons_self
    refine .cons ?_
    rw [ha]
    exact ih fun b hb => hl b (List.mem_cons_of_mem _ hb)

theorem push [DecidableEq A] (h : Chain next head l) (ha : a ∉ l) :
    Chain (Function.update next a head) (some a) (a :: l) := by
  refine .cons ?_
  rw [Function.update_self]
  refine h.congr fun b hb => ?_
  have hne : b ≠ a := by
    rintro rfl
    exact ha hb
  exact Function.update_of_ne hne _ _

/-- From an element on, the rest of the list follows. -/
theorem suffix (h : Chain next head l) : a ∈ l → ∃ rest, (a :: rest).length ≤ l.length ∧
    Chain next (some a) (a :: rest) := by
  induction h with
  | nil => intro ha; cases ha
  | @cons b l hl ih =>
    intro ha
    rcases List.mem_cons.mp ha with rfl | hm
    · exact ⟨l, Nat.le_refl _, .cons hl⟩
    · obtain ⟨rest, hle, hc⟩ := ih hm
      exact ⟨rest, Nat.le_succ_of_le hle, hc⟩

theorem nodup (h : Chain next head l) : l.Nodup := by
  induction h with
  | nil => exact List.nodup_nil
  | @cons a l hl ih =>
    refine List.nodup_cons.mpr ⟨fun ha => ?_, ih⟩
    -- the list would come back to `a` and be longer than itself
    obtain ⟨rest, hle, hc⟩ := hl.suffix ha
    obtain rfl := (List.cons.inj (hc.unique (.cons hl))).2
    exact Nat.not_succ_le_self _ hle

end Chain

end AntNet
