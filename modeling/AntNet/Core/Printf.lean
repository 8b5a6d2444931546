import Mathlib.Data.List.Basic

/-!
# Printing a line and reading it back

A format string compiles to literal characters and conversions. `%d` prints an
integer; every other conversion (`%s`, `%c`, `%x`, `%.2f`) prints a word whose
text is given, padded on the left to its width. `scan` reads with a format
what `sprintf` printed with it.

* `scan_sprintf`: the arguments come back, and what follows them, if every
  conversion is followed by a character that it cannot print (`Delimited`).
* `scan_departs`: a format does not read what another one prints that departs
  from it at a literal character (`departs`).
-/
namespace AntNet.Printf

inductive Piece where
  | lit (c : Char)
  | int
  | word (width : Nat)
  deriving DecidableEq, Repr

inductive Arg where
  | int (i : Int)
  | text (t : List Char)
  deriving DecidableEq, Repr

abbrev Format := List Piece

/-- Between `%` and the letter: the width so far, and whether a dot was seen. -/
def compile : Option (Nat × Bool) → List Char → Format
  | _, [] => []
  | none, c :: cs => if c = '%' then compile (some (0, false)) cs else .lit c :: compile none cs
  | some (w, dot), c :: cs =>
    if c = '.' then compile (some (w, true)) cs
    else if c.isDigit then compile (some (if dot then w else 10 * w + (c.toNat - 48), dot)) cs
    else if c = 'd' then .int :: compile none cs
    else .word w :: compile none cs

def fmt (s : String) : Format := compile none s.toList

/-! ## Printing -/

def decimal (i : Int) : List Char :=
  if i < 0 then '-' :: Nat.toDigits 10 i.natAbs else Nat.toDigits 10 i.natAbs

def sprintf : Format → List Arg → List Char
  | .lit c :: f, as => c :: sprintf f as
  | .int :: f, .int i :: as => decimal i ++ sprintf f as
  | .word w :: f, .text t :: as => List.replicate (w - t.length) ' ' ++ t ++ sprintf f as
  | _, _ => []

def intChar (c : Char) : Bool := c.isDigit || c == '-'

/-- A word ends at a blank or a closing bracket. -/
def wordChar (c : Char) : Bool := c != ' ' && c != ']' && c != '}'

def IsWord (t : List Char) : Prop := t ≠ [] ∧ ∀ c ∈ t, wordChar c = true

instance (t : List Char) : Decidable (IsWord t) :=
  decidable_of_iff ((!t.isEmpty && t.all wordChar) = true) (by simp [IsWord])

def Piece.wantsInt : Piece → Option Bool
  | .lit _ => none
  | .int => some true
  | .word _ => some false

def Arg.isInt : Arg → Bool
  | .int _ => true
  | .text _ => false

def Arg.Ok : Arg → Prop
  | .int _ => True
  | .text t => IsWord t

/-- The arguments are what the conversions ask for. -/
structure Fits (f : Format) (as : List Arg) : Prop where
  kinds : f.filterMap Piece.wantsInt = as.map Arg.isInt
  words : ∀ a ∈ as, a.Ok

/-! ## Reading -/

def readNat (ds : List Char) : Option Nat :=
  if ds ≠ [] ∧ ds.all Char.isDigit then some (Nat.ofDigitChars 10 ds 0) else none

def readInt (cs : List Char) : Option Int :=
  if cs.head? = some '-' then (readNat cs.tail).map fun n : Nat => -(n : Int)
  else (readNat cs).map fun n : Nat => (n : Int)

def readWord (t : List Char) : Option (List Char) := if t ≠ [] then some t else none

def scan : Format → List Char → Option (List Arg × List Char)
  | [], cs => some ([], cs)
  | .lit _ :: _, [] => none
  | .lit c :: f, c' :: cs => if c' = c then scan f cs else none
  | .int :: f, cs => do
    let cs := cs.dropWhile (· == ' ')
    let i ← readInt (cs.takeWhile intChar)
    let (as, rest) ← scan f (cs.dropWhile intChar)
    return (.int i :: as, rest)
  | .word _ :: f, cs => do
    let cs := cs.dropWhile (· == ' ')
    let t ← readWord (cs.takeWhile wordChar)
    let (as, rest) ← scan f (cs.dropWhile wordChar)
    return (.text t :: as, rest)

/-- The format goes on with a character outside `p`. -/
def stops (p : Char → Bool) : Format → Bool
  | .lit c :: _ => !p c
  | _ => false

def Delimited : Format → Bool
  | [] => true
  | .lit _ :: f => Delimited f
  | .int :: f => stops intChar f && Delimited f
  | .word _ :: f => stops wordChar f && Delimited f

/-- The conversions of a delimited format, in order. -/
def Typed (f : Format) (ks : List Bool) : Prop :=
  f.filterMap Piece.wantsInt = ks ∧ Delimited f = true

instance (f : Format) (ks : List Bool) : Decidable (Typed f ks) := inferInstanceAs (Decidable (_ ∧ _))

/-- What `g` prints goes with `f` up to a literal of `f` that stands for another character in `g`. -/
def departs : Format → Format → Bool
  | .lit c :: f, .lit c' :: g => c != c' || departs f g
  | .int :: f, .int :: g => stops intChar g && departs f g
  | .word _ :: f, .word _ :: g => stops wordChar g && departs f g
  | .word _ :: f, .int :: g => stops wordChar g && departs f g
  | _, _ => false

/-! ## Integers -/

theorem intChar_decimal {i : Int} {c : Char} (h : c ∈ decimal i) : intChar c = true := by
  have hd : ∀ {c}, c ∈ Nat.toDigits 10 i.natAbs → intChar c = true := by
    intro c hc
    simp [intChar, Nat.isDigit_of_mem_toDigits (by decide) (by decide) hc]
  unfold decimal at h
  split at h
  · rcases List.mem_cons.mp h with rfl | h
    · decide
    · exact hd h
  · exact hd h

theorem readNat_toDigits (n : Nat) : readNat (Nat.toDigits 10 n) = some n := by
  have hall : (Nat.toDigits 10 n).all Char.isDigit = true :=
    List.all_eq_true.mpr fun c hc => Nat.isDigit_of_mem_toDigits (by decide) (by decide) hc
  unfold readNat
  rw [if_pos ⟨Nat.toDigits_ne_nil, hall⟩, Nat.ofDigitChars_ten_toDigits]

theorem head_toDigits (n : Nat) : (Nat.toDigits 10 n).head? ≠ some '-' := by
  intro h
  have hd := Nat.isDigit_of_mem_toDigits (b := 10) (by decide) (by decide) (List.mem_of_head? h)
  exact absurd hd (by decide)

theorem readInt_decimal (i : Int) : readInt (decimal i) = some i := by
  unfold decimal readInt
  split
  · rw [List.head?_cons, if_pos rfl, List.tail_cons, readNat_toDigits, Option.map_some]
    congr 1; omega
  · rw [if_neg (head_toDigits _), readNat_toDigits, Option.map_some]
    congr 1; omega

theorem decimal_ne_nil (i : Int) : decimal i ≠ [] := by
  unfold decimal
  split
  · exact List.cons_ne_nil _ _
  · exact Nat.toDigits_ne_nil

/-! ## What fits -/

section Fits

variable {f g : Format} {as bs : List Arg}

theorem Fits.nil (h : Fits [] as) : as = [] := by
  have hk := h.kinds
  simpa [eq_comm] using hk

theorem Fits.lit {c : Char} (h : Fits (.lit c :: f) as) : Fits f as := ⟨h.kinds, h.words⟩

theorem Fits.int (h : Fits (.int :: f) as) : ∃ i as', as = .int i :: as' ∧ Fits f as' := by
  obtain ⟨hk, hw⟩ := h
  cases as with
  | nil => cases hk
  | cons a as =>
    cases a with
    | int i =>
      refine ⟨i, as, rfl, ?_, fun a ha => hw a (List.mem_cons_of_mem _ ha)⟩
      simpa [Piece.wantsInt, Arg.isInt] using hk
    | text t => simp [Piece.wantsInt, Arg.isInt] at hk

theorem Fits.word {w : Nat} (h : Fits (.word w :: f) as) :
    ∃ t as', as = .text t :: as' ∧ IsWord t ∧ Fits f as' := by
  obtain ⟨hk, hw⟩ := h
  cases as with
  | nil => cases hk
  | cons a as =>
    cases a with
    | int i => simp [Piece.wantsInt, Arg.isInt] at hk
    | text t =>
      refine ⟨t, as, rfl, hw _ List.mem_cons_self, ?_, fun a ha => hw a (List.mem_cons_of_mem _ ha)⟩
      simpa [Piece.wantsInt, Arg.isInt] using hk

theorem Fits.append (h : Fits f as) (h' : Fits g bs) : Fits (f ++ g) (as ++ bs) := by
  refine ⟨?_, fun a ha => ?_⟩
  · rw [List.filterMap_append, List.map_append, h.kinds, h'.kinds]
  · exact (List.mem_append.mp ha).elim (h.words a) (h'.words a)

theorem Fits.split (h : Fits (f ++ g) as) : ∃ bs cs, as = bs ++ cs ∧ Fits f bs ∧ Fits g cs := by
  obtain ⟨hk, hw⟩ := h
  rw [List.filterMap_append] at hk
  obtain ⟨bs, cs, rfl, hb, hc⟩ := List.map_eq_append_iff.mp hk.symm
  exact ⟨bs, cs, rfl, ⟨hb.symm, fun a ha => hw a (List.mem_append_left _ ha)⟩,
    ⟨hc.symm, fun a ha => hw a (List.mem_append_right _ ha)⟩⟩

theorem Typed.fits (h : Typed f (as.map Arg.isInt)) (hw : ∀ a ∈ as, a.Ok) : Fits f as := ⟨h.1, hw⟩

theorem delimited_append (hf : Delimited f = true) (hg : Delimited g = true) :
    Delimited (f ++ g) = true := by
  induction f with
  | nil => exact hg
  | cons x f ih =>
    cases x with
    | lit c => exact ih hf
    | int | word =>
      simp only [Delimited, Bool.and_eq_true] at hf
      simp only [List.cons_append, Delimited, Bool.and_eq_true]
      refine ⟨?_, ih hf.2⟩
      cases f with
      | nil => cases hf.1
      | cons y f =>
        cases y with
        | lit => exact hf.1
        | int | word => cases hf.1

theorem Typed.append {ks ls : List Bool} (hf : Typed f ks) (hg : Typed g ls) :
    Typed (f ++ g) (ks ++ ls) := by
  refine ⟨?_, delimited_append hf.2 hg.2⟩
  rw [List.filterMap_append, hf.1, hg.1]

/-- Where a format goes on after its first pieces. -/
theorem starts {x : Piece} {n : Nat} (h : f.take n = g ++ [x]) : f = g ++ x :: f.drop n := by
  calc f = f.take n ++ f.drop n := (List.take_append_drop n f).symm
    _ = g ++ x :: f.drop n := by rw [h]; simp

end Fits

/-! ## Reading back -/

section ReadBack

variable {f g : Format} {as bs : List Arg}

/-- A token, behind its padding, up to the character that ends it. -/
theorem token_append {p : Char → Bool} {t : List Char} {c : Char} (k : Nat) (hne : t ≠ [])
    (ht : ∀ x ∈ t, p x = true) (hb : p ' ' = false) (hc : p c = false) (r : List Char) :
    ((List.replicate k ' ' ++ t ++ c :: r).dropWhile (· == ' ')).takeWhile p = t ∧
      ((List.replicate k ' ' ++ t ++ c :: r).dropWhile (· == ' ')).dropWhile p = c :: r := by
  have hpad : (List.replicate k ' ' ++ t ++ c :: r).dropWhile (· == ' ') = t ++ c :: r := by
    rw [List.append_assoc, List.dropWhile_append_of_pos (by simp)]
    cases t with
    | nil => exact absurd rfl hne
    | cons x t =>
      have hx : x ≠ ' ' := by
        rintro rfl
        rw [ht _ List.mem_cons_self] at hb; cases hb
      rw [List.cons_append, List.dropWhile_cons_of_neg (by simpa using hx)]
  rw [hpad, List.takeWhile_append_of_pos ht, List.dropWhile_append_of_pos ht]
  simp [hc]

theorem sprintf_stops {p : Char → Bool} (h : stops p f = true) (as : List Arg) :
    ∃ c r, p c = false ∧ sprintf f as = c :: r := by
  cases f with
  | nil => cases h
  | cons x f =>
    cases x with
    | lit c => exact ⟨c, sprintf f as, by simpa [stops] using h, rfl⟩
    | int | word => cases h

/-- A token, and what is printed behind it. -/
theorem token_sprintf {p : Char → Bool} {t : List Char} (k : Nat) (hne : t ≠ [])
    (ht : ∀ x ∈ t, p x = true) (hb : p ' ' = false) (h : stops p f = true) (as : List Arg)
    (rest : List Char) :
    ((List.replicate k ' ' ++ t ++ sprintf f as ++ rest).dropWhile (· == ' ')).takeWhile p = t ∧
      ((List.replicate k ' ' ++ t ++ sprintf f as ++ rest).dropWhile (· == ' ')).dropWhile p =
        sprintf f as ++ rest := by
  obtain ⟨c, r, hc, hs⟩ := sprintf_stops h as
  rw [hs, List.append_assoc, List.cons_append]
  exact token_append k hne ht hb hc (r ++ rest)

theorem wordChar_of_intChar {c : Char} (h : intChar c = true) : wordChar c = true := by
  unfold wordChar
  simp only [Bool.and_eq_true, bne_iff_ne]
  refine ⟨⟨?_, ?_⟩, ?_⟩ <;> rintro rfl <;> revert h <;> decide

/-- **Reading back what was printed.** -/
theorem scan_sprintf (h : Fits f as) (hd : Delimited f = true) (rest : List Char) :
    scan f (sprintf f as ++ rest) = some (as, rest) := by
  induction f generalizing as with
  | nil =>
    rw [h.nil]
    rfl
  | cons x f ih =>
    cases x with
    | lit c =>
      rw [sprintf, List.cons_append, scan, if_pos rfl]
      exact ih h.lit hd
    | int =>
      obtain ⟨i, as, rfl, hf⟩ := h.int
      simp only [Delimited, Bool.and_eq_true] at hd
      obtain ⟨h1, h2⟩ := token_sprintf 0 (decimal_ne_nil i) (fun _ => intChar_decimal) (by decide) hd.1
        as rest
      simp only [List.replicate_zero, List.nil_append] at h1 h2
      rw [sprintf, scan]
      simp only [h1, h2, readInt_decimal, ih hf hd.2]
      rfl
    | word w =>
      obtain ⟨t, as, rfl, ht, hf⟩ := h.word
      simp only [Delimited, Bool.and_eq_true] at hd
      obtain ⟨h1, h2⟩ := token_sprintf (w - t.length) ht.1 ht.2 (by decide) hd.1 as rest
      rw [sprintf, scan]
      simp only [h1, h2, readWord, if_pos ht.1, ih hf hd.2]
      rfl

theorem scan_append (f g : Format) (cs : List Char) : scan (f ++ g) cs =
    (scan f cs).bind fun x => (scan g x.2).map fun y => (x.1 ++ y.1, y.2) := by
  induction f generalizing cs with
  | nil => simp [scan]
  | cons x f ih =>
    cases x with
    | lit c =>
      cases cs with
      | nil => rfl
      | cons c' cs =>
        simp only [List.cons_append, scan]
        split
        · exact ih cs
        · rfl
    | int =>
      simp only [List.cons_append, scan, ih]
      cases readInt ((cs.dropWhile (· == ' ')).takeWhile intChar) with
      | none => rfl
      | some i =>
        cases scan f ((cs.dropWhile (· == ' ')).dropWhile intChar) with
        | none => rfl
        | some x => cases h : scan g x.2 <;> simp [h]
    | word w =>
      simp only [List.cons_append, scan, ih]
      cases readWord ((cs.dropWhile (· == ' ')).takeWhile wordChar) with
      | none => rfl
      | some t =>
        cases scan f ((cs.dropWhile (· == ' ')).dropWhile wordChar) with
        | none => rfl
        | some x => cases h : scan g x.2 <;> simp [h]

/-- Printing one format behind another. -/
theorem sprintf_append (h : Fits f as) (g : Format) (bs : List Arg) :
    sprintf (f ++ g) (as ++ bs) = sprintf f as ++ sprintf g bs := by
  induction f generalizing as with
  | nil =>
    rw [h.nil]
    rfl
  | cons x f ih =>
    cases x with
    | lit c =>
      rw [List.cons_append, sprintf, sprintf, ih h.lit]
      rfl
    | int =>
      obtain ⟨i, as, rfl, hf⟩ := h.int
      rw [List.cons_append, List.cons_append, sprintf, sprintf, ih hf, List.append_assoc]
    | word w =>
      obtain ⟨t, as, rfl, -, hf⟩ := h.word
      rw [List.cons_append, List.cons_append, sprintf, sprintf, ih hf]
      simp only [List.append_assoc]

/-! ## Other formats -/

/-- A format does not read a line that has another character in place of a literal. -/
theorem scan_mismatch (h : Fits f as) (hd : Delimited f = true) {c c' : Char} (hne : c' ≠ c)
    (g : Format) (rest : List Char) :
    scan (f ++ .lit c :: g) (sprintf f as ++ c' :: rest) = none := by
  rw [scan_append, scan_sprintf h hd]
  simp [scan, hne]

/-- A word that does not start with the literal. -/
theorem scan_departs_word (hd : Delimited f = true) {c : Char} {t : List Char} (ht : IsWord t)
    (hne : t.head? ≠ some c) (g : Format) {g' : Format} (h : Fits f as) (rest : List Char) :
    scan (f ++ .lit c :: g) (sprintf (f ++ .word 0 :: g') (as ++ .text t :: bs) ++ rest) = none := by
  cases t with
  | nil => exact absurd rfl ht.1
  | cons c' t =>
    have hc : c' ≠ c := fun he => hne (congrArg some he)
    rw [sprintf_append h, sprintf, List.append_assoc, Nat.zero_sub]
    exact scan_mismatch h hd hc _ _

/-- **A format does not read what departs from it.** -/
theorem scan_departs (h : Fits g as) (hd : departs f g = true) (rest : List Char) :
    scan f (sprintf g as ++ rest) = none := by
  induction f generalizing g as with
  | nil => cases g <;> cases hd
  | cons x f ih =>
    cases x with
    | lit c =>
      cases g with
      | nil => cases hd
      | cons y g =>
        cases y with
        | int | word => cases hd
        | lit c' =>
          rw [sprintf, List.cons_append, scan]
          split
          · rename_i he
            refine ih h.lit ?_
            simpa [departs, he] using hd
          · rfl
    | int =>
      cases g with
      | nil => cases hd
      | cons y g =>
        cases y with
        | lit | word => cases hd
        | int =>
          obtain ⟨i, as, rfl, hf⟩ := h.int
          simp only [departs, Bool.and_eq_true] at hd
          obtain ⟨h1, h2⟩ := token_sprintf 0 (decimal_ne_nil i) (fun _ => intChar_decimal) (by decide)
            hd.1 as rest
          simp only [List.replicate_zero, List.nil_append] at h1 h2
          rw [sprintf, scan]
          simp only [h1, h2, ih hf hd.2]
          simp
    | word w =>
      cases g with
      | nil => cases hd
      | cons y g =>
        cases y with
        | lit => cases hd
        | word k =>
          obtain ⟨t, as, rfl, ht, hf⟩ := h.word
          simp only [departs, Bool.and_eq_true] at hd
          obtain ⟨h1, h2⟩ := token_sprintf (k - t.length) ht.1 ht.2 (by decide) hd.1 as rest
          rw [sprintf, scan]
          simp only [h1, h2, ih hf hd.2]
          simp
        | int =>
          obtain ⟨i, as, rfl, hf⟩ := h.int
          simp only [departs, Bool.and_eq_true] at hd
          obtain ⟨h1, h2⟩ := token_sprintf 0 (decimal_ne_nil i)
            (fun _ hc => wordChar_of_intChar (intChar_decimal hc)) (by decide) hd.1 as rest
          simp only [List.replicate_zero, List.nil_append] at h1 h2
          rw [sprintf, scan]
          simp only [h1, h2, ih hf hd.2]
          simp

end ReadBack

end AntNet.Printf
