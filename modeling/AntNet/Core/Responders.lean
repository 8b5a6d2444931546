import Mathlib.Logic.Function.Basic
import Mathlib.Data.List.Nodup
import Mathlib.Data.List.Induction
import Mathlib.Data.List.TakeWhile

/-!
# Responders that are put in front of a list

A responder is registered by linking it to the head and making it the head;
nothing checks whether it is in the list already. A question goes from the head
on to the first one that has an answer.

`recent ps` are the responders that the links lead through after the
registrations `ps`: the latest first, back to the first one that comes a
second time.

* `returns_iff`: a question gets the answer of the first of `recent ps` that
  has one. If none has, it gets no answer when everyone registered once, and
  it goes round in circles for ever when someone registered twice. `walk_iff`
  is this for a walk along the links that does something with the answer.
-/
namespace AntNet

/-- From the first pointer the links lead through the list to the second pointer. -/
inductive Path {A : Type} (next : A → Option A) : Option A → List A → Option A → Prop where
  | nil (t : Option A) : Path next t [] t
  | cons {a : A} {l : List A} {t : Option A} : Path next (next a) l t → Path next (some a) (a :: l) t

namespace Path

variable {A : Type} {next next' : A → Option A} {head t : Option A} {l l₁ l₂ : List A} {a : A}

theorem congr (h : Path next head l t) (hl : ∀ a ∈ l, next' a = next a) : Path next' head l t := by
  induction h with
  | nil t => exact .nil t
  | @cons a l t _ ih =>
    have ha := hl a List.mem_cons_self
    refine .cons ?_
    rw [ha]
    exact ih fun b hb => hl b (List.mem_cons_of_mem _ hb)

/-- The part up to an element. -/
theorem upTo (h : Path next head (l₁ ++ a :: l₂) t) : Path next head l₁ (some a) := by
  induction l₁ generalizing head with
  | nil => cases h; exact .nil _
  | cons b l₁ ih =>
    cases h with
    | cons h => exact .cons (ih h)

theorem push [DecidableEq A] (h : Path next head l t) (ha : a ∉ l) :
    Path (Function.update next a head) (some a) (a :: l) t := by
  refine .cons ?_
  rw [Function.update_self]
  refine h.congr fun b hb => Function.update_of_ne ?_ _ _
  rintro rfl
  exact ha hb

theorem head_mem (h : Path next head l (some a)) : ∃ b, head = some b ∧ (b ∈ l ∨ b = a) := by
  cases h with
  | nil => exact ⟨a, rfl, .inr rfl⟩
  | cons => exact ⟨_, rfl, .inl List.mem_cons_self⟩

/-- Where the links lead on, within the list or to its end pointer. -/
theorem next_mem {b : A} (h : Path next head l t) (ht : t = some a) (hb : b ∈ l) :
    ∃ c, next b = some c ∧ (c ∈ l ∨ c = a) := by
  induction h with
  | nil => cases hb
  | @cons x l t h ih =>
    subst ht
    have hstep : ∀ c, (c ∈ l ∨ c = a) → (c ∈ x :: l ∨ c = a) := fun c hc =>
      hc.imp (List.mem_cons_of_mem x) id
    rcases List.mem_cons.mp hb with rfl | hb
    · obtain ⟨c, hc, hm⟩ := h.head_mem
      exact ⟨c, hc, hstep c hm⟩
    · obtain ⟨c, hc, hm⟩ := ih rfl hb
      exact ⟨c, hc, hstep c hm⟩

end Path

structure Responders (A : Type) where
  next : A → Option A
  head : Option A

namespace Responders

variable {A B : Type} {answer : A → Option B}

def empty : Responders A := ⟨fun _ => none, none⟩

/-- `fuel` calls at most. -/
def ask (next : A → Option A) (answer : A → Option B) : Nat → Option A → Option (Option B)
  | _, none => some none
  | 0, some _ => none
  | k + 1, some a =>
    match answer a with
    | some b => some (some b)
    | none => ask next answer k (next a)

section Ask

variable {next : A → Option A} {l : List A} {head t : Option A}

theorem ask_found (h : Path next head l t) {b : B} (hb : l.findSome? answer = some b) :
    ask next answer l.length head = some (some b) := by
  induction h with
  | nil => cases hb
  | @cons a l t _ ih =>
    rw [List.findSome?_cons] at hb
    rw [List.length_cons, ask]
    cases ha : answer a with
    | some c =>
      rw [ha] at hb
      rw [show c = b from Option.some.inj hb]
    | none =>
      rw [ha] at hb
      exact ih hb

theorem ask_end (h : Path next head l none) (hn : l.findSome? answer = none) :
    ask next answer l.length head = some none := by
  generalize ht : (none : Option A) = t at h
  induction h with
  | nil => subst ht; rfl
  | @cons a l t _ ih =>
    rw [List.findSome?_cons] at hn
    rw [List.length_cons, ask]
    cases ha : answer a with
    | some c => rw [ha] at hn; cases hn
    | none =>
      rw [ha] at hn
      exact ih hn ht

/-- Where everyone passes the question on to another one of `l`, it never comes to an end. -/
theorem ask_forever (hl : ∀ a ∈ l, answer a = none ∧ ∃ b ∈ l, next a = some b) (k : Nat) {a : A}
    (ha : a ∈ l) : ask next answer k (some a) = none := by
  induction k generalizing a with
  | zero => rfl
  | succ k ih =>
    obtain ⟨hn, b, hb, hab⟩ := hl a ha
    rw [ask, hn, hab]
    exact ih hb

theorem ask_mono {k k' : Nat} (hk : k ≤ k') {r : Option B} (h : ask next answer k head = some r) :
    ask next answer k' head = some r := by
  induction k generalizing head k' with
  | zero =>
    cases head with
    | none => cases k' <;> exact h
    | some a => cases h
  | succ k ih =>
    cases head with
    | none => cases k' <;> exact h
    | some a =>
      obtain ⟨k', rfl⟩ := Nat.exists_eq_add_of_le' (Nat.le_trans (Nat.le_add_left 1 k) hk)
      rw [ask] at h ⊢
      cases ha : answer a with
      | some b => rw [ha] at h; exact h
      | none =>
        rw [ha] at h
        exact ih (by omega) h

end Ask

variable [DecidableEq A]

def register (s : Responders A) (a : A) : Responders A := ⟨Function.update s.next a s.head, some a⟩

/-- The latest first; one that comes again cuts off what stands behind its old place. -/
def recent : List A → List A := List.foldl (fun r a => a :: r.takeWhile (· ≠ a)) []

theorem recent_snoc (ps : List A) (a : A) : recent (ps ++ [a]) = a :: (recent ps).takeWhile (· ≠ a) := by
  simp [recent, List.foldl_append]

/-- The links after the registrations `ps`: they end if no one came twice, or
lead back into the list. -/
structure Linked (ps : List A) (s : Responders A) (t : Option A) : Prop where
  path : Path s.next s.head (recent ps) t
  ends : t = none ↔ ps.Nodup
  loops : ∀ a, t = some a → a ∈ recent ps
  mem : ∀ a ∈ recent ps, a ∈ ps
  all : ps.Nodup → ∀ a ∈ ps, a ∈ recent ps

theorem linked_empty : Linked [] (empty : Responders A) none where
  path := .nil _
  ends := iff_of_true rfl List.nodup_nil
  loops _ h := by cases h
  mem _ h := by cases h
  all _ _ h := by cases h

omit [DecidableEq A] in
theorem nodup_snoc {ps : List A} {a : A} : (ps ++ [a]).Nodup ↔ ps.Nodup ∧ a ∉ ps := by
  rw [← List.concat_eq_append, List.nodup_concat, and_comm]

/-- **One registration**, of someone the links lead to. -/
theorem linked_again {ps : List A} {s : Responders A} {t : Option A} (h : Linked ps s t) {a : A}
    (ha : a ∈ recent ps) : Linked (ps ++ [a]) (s.register a) (some a) := by
  obtain ⟨l₁, l₂, hl, hnot⟩ := List.eq_append_cons_of_mem ha
  have hrec : recent (ps ++ [a]) = a :: l₁ := by
    rw [recent_snoc, hl, List.takeWhile_append_of_pos fun b hb => by
      simpa using fun he : b = a => hnot (he ▸ hb)]
    simp
  refine ⟨?_, ?_, ?_, ?_, ?_⟩
  · rw [hrec]
    exact ((hl ▸ h.path).upTo).push hnot
  · refine iff_of_false (Option.some_ne_none a) fun hn => ?_
    exact (nodup_snoc.mp hn).2 (h.mem a ha)
  · rintro b ⟨⟩
    rw [hrec]
    exact List.mem_cons_self
  · intro b hb
    rw [hrec] at hb
    rcases List.mem_cons.mp hb with rfl | hb
    · exact List.mem_append_right _ (List.mem_singleton_self _)
    · exact List.mem_append_left _ (h.mem b (hl ▸ List.mem_append_left _ hb))
  · exact fun hn => absurd (h.mem a ha) (nodup_snoc.mp hn).2

/-- **One registration**, of someone else. -/
theorem linked_new {ps : List A} {s : Responders A} {t : Option A} (h : Linked ps s t) {a : A}
    (ha : a ∉ recent ps) : Linked (ps ++ [a]) (s.register a) t := by
  have hrec : recent (ps ++ [a]) = a :: recent ps := by
    rw [recent_snoc, List.takeWhile_eq_self_iff.mpr fun b hb => by
      simpa using fun he : b = a => ha (he ▸ hb)]
  have hnew : ps.Nodup → a ∉ ps := fun hn hm => ha (h.all hn a hm)
  refine ⟨?_, ?_, ?_, ?_, ?_⟩
  · rw [hrec]
    exact h.path.push ha
  · rw [nodup_snoc, h.ends]
    exact ⟨fun hn => ⟨hn, hnew hn⟩, And.left⟩
  · intro b hb
    rw [hrec]
    exact List.mem_cons_of_mem _ (h.loops b hb)
  · intro b hb
    rw [hrec] at hb
    rcases List.mem_cons.mp hb with rfl | hb
    · exact List.mem_append_right _ (List.mem_singleton_self _)
    · exact List.mem_append_left _ (h.mem b hb)
  · intro hn b hb
    rw [hrec]
    rcases List.mem_append.mp hb with hb | hb
    · exact List.mem_cons_of_mem _ (h.all (nodup_snoc.mp hn).1 b hb)
    · rw [List.mem_singleton.mp hb]
      exact List.mem_cons_self

theorem linked (ps : List A) : ∃ t, Linked ps (ps.foldl register empty) t := by
  induction ps using List.reverseRecOn with
  | nil => exact ⟨none, linked_empty⟩
  | append_singleton ps a ih =>
    obtain ⟨t, h⟩ := ih
    rw [List.foldl_append, List.foldl_cons, List.foldl_nil]
    by_cases ha : a ∈ recent ps
    · exact ⟨_, linked_again h ha⟩
    · exact ⟨_, linked_new h ha⟩

/-- **Who answers.** -/
theorem returns_iff (ps : List A) (answer : A → Option B) (r : Option B) :
    (∃ k, ask (ps.foldl register empty).next answer k (ps.foldl register empty).head = some r) ↔
      r = (recent ps).findSome? answer ∧ (r = none → ps.Nodup) := by
  obtain ⟨t, h⟩ := linked ps
  have honly : ∀ {k r'}, ask (ps.foldl register empty).next answer k (ps.foldl register empty).head =
      some r' → ((∃ k, ask (ps.foldl register empty).next answer k (ps.foldl register empty).head =
        some r) ↔ r = r') := by
    intro k r' hk
    refine ⟨fun ⟨k', hk'⟩ => ?_, fun he => ⟨k, he ▸ hk⟩⟩
    have h1 := ask_mono (Nat.le_max_left k k') hk
    have h2 := ask_mono (Nat.le_max_right k k') hk'
    exact Option.some.inj (h2.symm.trans h1)
  cases hf : (recent ps).findSome? answer with
  | some b =>
    rw [honly (ask_found h.path hf)]
    exact ⟨fun he => ⟨he, fun hn => by rw [he] at hn; cases hn⟩, And.left⟩
  | none =>
    cases t with
    | none =>
      rw [honly (ask_end h.path hf)]
      exact ⟨fun he => ⟨he, fun _ => h.ends.mp rfl⟩, And.left⟩
    | some a =>
      have hdup : ¬ ps.Nodup := fun hn => by simpa using h.ends.mpr hn
      have hin : ∀ {c}, (c ∈ recent ps ∨ c = a) → c ∈ recent ps := fun hc =>
        hc.elim id fun he => he ▸ h.loops a rfl
      refine iff_of_false (fun ⟨k, hk⟩ => ?_) fun ⟨he, hn⟩ => hdup (hn he)
      obtain ⟨b, hb, hm⟩ := h.path.head_mem
      rw [hb, ask_forever (l := recent ps) ?_ k (hin hm)] at hk
      · cases hk
      · intro c hc
        obtain ⟨e, he, hm⟩ := h.path.next_mem rfl hc
        exact ⟨List.findSome?_eq_none_iff.mp hf c hc, e, hin hm, he⟩

/-- A walk of the program that comes to `f` of what asking comes to. -/
theorem walk_iff {R : Type} (ps : List A) (answer : A → Option B) (f : Option B → R) {g : Nat → Option R}
    (hg : ∀ k, g k = (ask (ps.foldl register empty).next answer k (ps.foldl register empty).head).map f)
    (r : R) : (∃ k, g k = some r) ↔
      f ((recent ps).findSome? answer) = r ∧ ((recent ps).findSome? answer = none → ps.Nodup) := by
  simp only [hg, Option.map_eq_some_iff]
  constructor
  · rintro ⟨k, b, hb, rfl⟩
    obtain ⟨rfl, hn⟩ := (returns_iff ps answer b).mp ⟨k, hb⟩
    exact ⟨rfl, hn⟩
  · rintro ⟨hr, hn⟩
    obtain ⟨k, hk⟩ := (returns_iff ps answer _).mpr ⟨rfl, hn⟩
    exact ⟨k, _, hk, hr⟩

end Responders

end AntNet
