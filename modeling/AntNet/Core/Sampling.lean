import Mathlib.Algebra.Order.Field.Basic
import Mathlib.Algebra.BigOperators.Fin
import Mathlib.Algebra.Order.BigOperators.Group.List
import Mathlib.Algebra.Order.BigOperators.Group.Finset
import Mathlib.Tactic.Linarith
import Mathlib.Tactic.Ring

/-!
# Choosing an entry of a list by cumulative weights

Some entries of a list are eligible (`ok`), each with a weight. `pick` walks
the list with a draw `x`, adds up the weights of the eligible entries and
stops at the first one whose end exceeds `x`; past the end it falls back to
the last eligible entry. The half-open interval an entry owns is `Slot`.

* `slot_existsUnique`, `pick_of_slot`: a draw below the total lies in exactly
  one slot, and the entry of that slot is the one picked.
* `pick_scale`: a positive factor on the weights and the draw changes nothing.
* `share_le`, `le_share`: what an entry's share of the total does when one
  weight goes down and the others go up.
-/
namespace AntNet.Sampling

variable {A K : Type} [Field K] (ok : A → Prop) [DecidablePred ok] (w : A → K)

/-- The total weight of the eligible entries. -/
def mass (l : List A) : K := (l.map fun a => if ok a then w a else 0).sum

section Pick

variable [LinearOrder K]

/-- `c` is the weight of the eligible entries passed so far. -/
def pick (x : K) : List A → K → Option A
  | [], _ => none
  | a :: l, c =>
    if ok a then if x < c + w a then some a else (pick x l (c + w a)).or (some a)
    else pick x l c

/-- The draws the entry at place `k` owns. -/
def Slot (l : List A) (x : K) (k : Nat) : Prop :=
  ∃ a, l[k]? = some a ∧ ok a ∧ mass ok w (l.take k) ≤ x ∧ x < mass ok w (l.take k) + w a

end Pick

/-! ## Mass -/

@[simp] theorem mass_nil : mass ok w [] = 0 := rfl

@[simp] theorem mass_cons (a : A) (l : List A) :
    mass ok w (a :: l) = (if ok a then w a else 0) + mass ok w l := by
  simp [mass]

theorem mass_append (l l' : List A) : mass ok w (l ++ l') = mass ok w l + mass ok w l' := by
  simp [mass]

theorem mass_take_succ {l : List A} {k : Nat} {a : A} (h : l[k]? = some a) :
    mass ok w (l.take (k + 1)) = mass ok w (l.take k) + if ok a then w a else 0 := by
  rw [List.take_add_one, h, mass_append]
  simp

theorem mass_map {B : Type} (f : B → A) (l : List B) :
    mass ok w (l.map f) = mass (fun b => ok (f b)) (fun b => w (f b)) l := by
  simp [mass, Function.comp_def]

theorem mass_scale (s : K) (l : List A) : mass ok (fun a => s * w a) l = s * mass ok w l := by
  induction l with
  | nil => simp
  | cons a l ih => simp only [mass_cons, ih, mul_add, mul_ite, mul_zero]

theorem mass_ofFn {n : Nat} (f : Fin n → A) :
    mass ok w (List.ofFn f) = ∑ i, if ok (f i) then w (f i) else 0 := by
  simp only [mass, List.map_ofFn, List.sum_ofFn, Function.comp_apply]

section Order

variable [LinearOrder K] [IsStrictOrderedRing K] {ok w} {l : List A}

theorem mass_nonneg (hw : ∀ a ∈ l, ok a → 0 ≤ w a) : 0 ≤ mass ok w l := by
  apply List.sum_nonneg
  intro y hy
  obtain ⟨a, ha, rfl⟩ := List.mem_map.mp hy
  split
  · rename_i h
    exact hw a ha h
  · exact le_rfl

theorem mass_take_le (hw : ∀ a ∈ l, ok a → 0 ≤ w a) {i j : Nat} (h : i ≤ j) :
    mass ok w (l.take i) ≤ mass ok w (l.take j) := by
  have hsplit : l.take j = l.take i ++ (l.drop i).take (j - i) := by
    have := List.take_add (l := l) (i := i) (j := j - i)
    rwa [Nat.add_sub_cancel' h] at this
  have h0 : 0 ≤ mass ok w ((l.drop i).take (j - i)) := by
    apply mass_nonneg
    intro a ha
    exact hw a (List.mem_of_mem_drop (List.mem_of_mem_take ha))
  rw [hsplit, mass_append]
  linarith

/-- A slot lies below the total. -/
theorem Slot.lt_mass (hw : ∀ a ∈ l, ok a → 0 ≤ w a) {x : K} {k : Nat} (h : Slot ok w l x k) :
    0 ≤ x ∧ x < mass ok w l := by
  obtain ⟨a, hk, ha, hle, hlt⟩ := h
  have h0 : 0 ≤ mass ok w (l.take k) := by
    apply mass_nonneg
    intro b hb
    exact hw b (List.mem_of_mem_take hb)
  have hend := mass_take_succ ok w hk
  rw [if_pos ha] at hend
  have htop : mass ok w (l.take (k + 1)) ≤ mass ok w (l.take l.length) :=
    mass_take_le hw (List.getElem?_eq_some_iff.mp hk).1
  rw [List.take_length] at htop
  exact ⟨by linarith, by linarith⟩

/-- Two slots are disjoint. -/
theorem slot_unique (hw : ∀ a ∈ l, ok a → 0 ≤ w a) {x : K} {k k' : Nat} (h : Slot ok w l x k)
    (h' : Slot ok w l x k') : k = k' := by
  -- the later slot starts where the earlier one has ended
  have key : ∀ {i j : Nat}, i < j → Slot ok w l x i → ¬ Slot ok w l x j := by
    rintro i j hij ⟨a, hi, ha, -, hlt⟩ ⟨b, -, -, hle, -⟩
    have hend := mass_take_succ ok w hi
    rw [if_pos ha] at hend
    have hmono : mass ok w (l.take (i + 1)) ≤ mass ok w (l.take j) := mass_take_le hw hij
    linarith
  rcases Nat.lt_trichotomy k k' with hlt | heq | hgt
  · exact absurd h' (key hlt h)
  · exact heq
  · exact absurd h (key hgt h')

/-! ## Picking -/

variable (ok w) in
/-- The walk, from any weight passed so far. -/
theorem pick_walk (x : K) : ∀ (l : List A) (c : K), c ≤ x → x < c + mass ok w l →
    ∃ k a, l[k]? = some a ∧ ok a ∧ c + mass ok w (l.take k) ≤ x ∧
      x < c + mass ok w (l.take k) + w a ∧ pick ok w x l c = some a
  | [], c, hc, hx => by simp at hx; linarith
  | a :: l, c, hc, hx => by
    unfold pick
    by_cases ha : ok a
    · rw [mass_cons, if_pos ha] at hx
      by_cases hlt : x < c + w a
      · exact ⟨0, a, rfl, ha, by simpa using hc, by simpa using hlt, by simp [ha, hlt]⟩
      · obtain ⟨k, b, hk, hb, hle, hlt', hp⟩ := pick_walk x l (c + w a) (by linarith) (by linarith)
        refine ⟨k + 1, b, hk, hb, ?_, ?_, by simp [ha, hlt, hp]⟩
        · rw [List.take_succ_cons, mass_cons, if_pos ha]; linarith
        · rw [List.take_succ_cons, mass_cons, if_pos ha]; linarith
    · rw [mass_cons, if_neg ha, zero_add] at hx
      obtain ⟨k, b, hk, hb, hle, hlt, hp⟩ := pick_walk x l c hc hx
      refine ⟨k + 1, b, hk, hb, ?_, ?_, by simp [ha, hp]⟩
      · rw [List.take_succ_cons, mass_cons, if_neg ha, zero_add]; exact hle
      · rw [List.take_succ_cons, mass_cons, if_neg ha, zero_add]; exact hlt

theorem slot_existsUnique (hw : ∀ a ∈ l, ok a → 0 ≤ w a) {x : K} (h0 : 0 ≤ x)
    (hx : x < mass ok w l) : ∃! k, Slot ok w l x k := by
  obtain ⟨k, a, hk, ha, hle, hlt, -⟩ := pick_walk ok w x l 0 h0 (by rwa [zero_add])
  rw [zero_add] at hle hlt
  have hs : Slot ok w l x k := ⟨a, hk, ha, hle, hlt⟩
  exact ⟨k, hs, fun k' h' => slot_unique hw h' hs⟩

/-- An eligible entry with a weight has a slot. -/
theorem exists_slot {a : A} (ha : a ∈ l) (hok : ok a) (hpos : 0 < w a) :
    ∃ x k, l[k]? = some a ∧ Slot ok w l x k := by
  obtain ⟨k, hk⟩ := List.mem_iff_getElem?.mp ha
  exact ⟨mass ok w (l.take k), k, hk, a, hk, hok, le_rfl, by linarith⟩

/-- **The entry whose slot holds the draw is picked.** -/
theorem pick_of_slot (hw : ∀ a ∈ l, ok a → 0 ≤ w a) {x : K} {k : Nat} (h : Slot ok w l x k) :
    pick ok w x l 0 = l[k]? := by
  obtain ⟨h0, hx⟩ := h.lt_mass hw
  obtain ⟨k', a, hk, ha, hle, hlt, hp⟩ := pick_walk ok w x l 0 h0 (by rwa [zero_add])
  rw [zero_add] at hle hlt
  have heq : k = k' := slot_unique hw h ⟨a, hk, ha, hle, hlt⟩
  rw [hp, heq, hk]

omit [IsStrictOrderedRing K] in
/-- For any draw, what is picked is an eligible entry. -/
theorem pick_mem {x : K} {a : A} : ∀ {l : List A} {c : K}, pick ok w x l c = some a → a ∈ l ∧ ok a
  | [], c, h => by simp [pick] at h
  | b :: l, c, h => by
    unfold pick at h
    by_cases hb : ok b
    · rw [if_pos hb] at h
      by_cases hlt : x < c + w b
      · rw [if_pos hlt, Option.some.injEq] at h
        subst h
        exact ⟨List.mem_cons_self, hb⟩
      · rw [if_neg hlt, Option.or_eq_some_iff] at h
        rcases h with h | ⟨-, h⟩
        · obtain ⟨hm, ha⟩ := pick_mem h
          exact ⟨List.mem_cons_of_mem _ hm, ha⟩
        · rw [Option.some.injEq] at h
          subst h
          exact ⟨List.mem_cons_self, hb⟩
    · rw [if_neg hb] at h
      obtain ⟨hm, ha⟩ := pick_mem h
      exact ⟨List.mem_cons_of_mem _ hm, ha⟩

omit [IsStrictOrderedRing K] in
theorem pick_isSome {x : K} : ∀ {l : List A} {c : K}, (∃ a ∈ l, ok a) → ∃ a, pick ok w x l c = some a
  | [], c, h => by simp at h
  | b :: l, c, h => by
    unfold pick
    by_cases hb : ok b
    · by_cases hlt : x < c + w b
      · exact ⟨b, by simp [hb, hlt]⟩
      · cases hp : pick ok w x l (c + w b) with
        | none => exact ⟨b, by simp [hb, hlt]⟩
        | some a => exact ⟨a, by simp [hb, hlt]⟩
    · obtain ⟨a, ha, hoka⟩ := h
      have hal : a ∈ l := by
        rcases List.mem_cons.mp ha with rfl | h'
        · exact absurd hoka hb
        · exact h'
      simp only [if_neg hb]
      exact pick_isSome ⟨a, hal, hoka⟩

omit [IsStrictOrderedRing K] in
theorem pick_map {B : Type} (f : B → A) (x : K) : ∀ (l : List B) (c : K),
    pick ok w x (l.map f) c = (pick (fun b => ok (f b)) (fun b => w (f b)) x l c).map f
  | [], _ => rfl
  | b :: l, c => by
    simp only [List.map_cons, pick, pick_map f x l]
    split
    · split
      · rfl
      · cases pick (fun b => ok (f b)) (fun b => w (f b)) x l (c + w (f b)) <;> rfl
    · rfl

variable (ok w) in
/-- **Scaling the weights and the draw by a positive factor changes nothing.** -/
theorem pick_scale {s : K} (hs : 0 < s) (x : K) : ∀ (l : List A) (c : K),
    pick ok (fun a => s * w a) (s * x) l (s * c) = pick ok w x l c
  | [], c => rfl
  | a :: l, c => by
    have hcum : s * c + s * w a = s * (c + w a) := by ring
    unfold pick
    rw [hcum, pick_scale hs x l (c + w a), pick_scale hs x l c]
    simp only [mul_lt_mul_iff_right₀ hs]

/-! ## Shares of a total -/

variable {ι : Type} [DecidableEq ι] {s : Finset ι} {f g : ι → K} {k : ι}

/-- When the weight of `k` goes down and no other does, its share goes down. -/
theorem share_le (hk : k ∈ s) (hle : g k ≤ f k) (hothers : ∀ i ∈ s, i ≠ k → f i ≤ g i)
    (hf : ∀ i ∈ s, 0 ≤ f i) (hf0 : 0 < ∑ i ∈ s, f i) (hg0 : 0 < ∑ i ∈ s, g i) :
    g k / ∑ i ∈ s, g i ≤ f k / ∑ i ∈ s, f i := by
  have hrest : ∑ i ∈ s.erase k, f i ≤ ∑ i ∈ s.erase k, g i := by
    apply Finset.sum_le_sum
    intro i hi
    exact hothers i (Finset.mem_of_mem_erase hi) (Finset.ne_of_mem_erase hi)
  have hrest0 : 0 ≤ ∑ i ∈ s.erase k, f i :=
    Finset.sum_nonneg fun i hi => hf i (Finset.mem_of_mem_erase hi)
  rw [div_le_div_iff₀ hg0 hf0, ← Finset.add_sum_erase s f hk, ← Finset.add_sum_erase s g hk]
  calc g k * (f k + ∑ i ∈ s.erase k, f i)
      = f k * g k + g k * ∑ i ∈ s.erase k, f i := by ring
    _ ≤ f k * g k + f k * ∑ i ∈ s.erase k, g i := by
        have h1 : g k * ∑ i ∈ s.erase k, f i ≤ f k * ∑ i ∈ s.erase k, f i :=
          mul_le_mul_of_nonneg_right hle hrest0
        have h2 : f k * ∑ i ∈ s.erase k, f i ≤ f k * ∑ i ∈ s.erase k, g i :=
          mul_le_mul_of_nonneg_left hrest (hf k hk)
        linarith
    _ = f k * (g k + ∑ i ∈ s.erase k, g i) := by ring

omit [DecidableEq ι] in
/-- When a weight does not go down and the total does not go up, its share does not go down. -/
theorem le_share (hle : f k ≤ g k) (hf : 0 ≤ f k) (htot : ∑ i ∈ s, g i ≤ ∑ i ∈ s, f i)
    (hg0 : 0 < ∑ i ∈ s, g i) : f k / ∑ i ∈ s, f i ≤ g k / ∑ i ∈ s, g i :=
  div_le_div₀ (hf.trans hle) hle hg0 htot

end Order

end AntNet.Sampling
