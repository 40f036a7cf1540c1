/-
  MuxHoist.Proofs.Json.Numeral

  The grammar of number literals, and that reading follows it: a text is read as
  a numeral exactly if it is one of its literals (`ofChars?_eq_some_iff`). The
  literal of an integer that fits into a word reads as that integer
  (`word_toString`).
-/
import MuxHoist.Json.Token
import Mathlib.Data.List.TakeWhile

namespace MuxHoist

namespace Json

/-! ## Runs of characters -/

/-- A run of characters with a property ends before these characters: the first of
    them, if there is one, has it not. -/
def Stops (p : Char → Bool) (cs : List Char) : Prop := ∀ c ∈ cs.head?, p c = false

section

variable {p : Char → Bool}

theorem stops_nil : Stops p [] := by
  intro c hc
  cases hc

theorem stops_cons {c : Char} {cs : List Char} (h : p c = false) : Stops p (c :: cs) := by
  intro d hd
  cases hd
  exact h

end

namespace Numeral

/-! ## The grammar -/

/-- One digit or more. -/
def Digits (ds : List Char) : Prop := ds ≠ [] ∧ ∀ d ∈ ds, d.isDigit

/-- The whole part of a literal: no zero leads another digit. -/
inductive Whole : List Char → Prop
  | zero : Whole ['0']
  | digits {d : Char} {ds : List Char} : d ≠ '0' → Digits (d :: ds) → Whole (d :: ds)

/-- The texts of a fraction. -/
inductive FractionText : Option (List Char) → List Char → Prop
  | absent : FractionText none []
  | point {ds : List Char} : Digits ds → FractionText (some ds) ('.' :: ds)

/-- The texts of an exponent's sign; a plus need not be written. -/
inductive SignText : Bool → List Char → Prop
  | bare : SignText false []
  | plus : SignText false ['+']
  | minus : SignText true ['-']

/-- The texts of an exponent. -/
inductive ExponentText : Option (Bool × List Char) → List Char → Prop
  | absent : ExponentText none []
  | letter {e : Char} {negative : Bool} {sign ds : List Char} : e = 'e' ∨ e = 'E' →
      SignText negative sign → Digits ds → ExponentText (some (negative, ds)) (e :: (sign ++ ds))

/-- The literals of a numeral. -/
inductive Literal : Numeral → List Char → Prop
  | mk {negative : Bool} {w f x : List Char} {fraction : Option (List Char)}
      {exponent : Option (Bool × List Char)} :
      Whole w → FractionText fraction f → ExponentText exponent x →
      Literal ⟨negative, w, fraction, exponent⟩ (signText negative ++ (w ++ (f ++ x)))

/-! ## Runs of digits -/

theorem digits?_sound {cs ds rest : List Char} (h : digits? cs = some (ds, rest)) :
    Digits ds ∧ cs = ds ++ rest := by
  unfold digits? at h
  split at h
  · cases h
  · next hne =>
    cases h
    exact ⟨⟨hne, fun d hd => List.mem_takeWhile_imp hd⟩, (List.takeWhile_append_dropWhile).symm⟩

theorem digits?_append {ds rest : List Char} (h : Digits ds) (hrest : Stops Char.isDigit rest) :
    digits? (ds ++ rest) = some (ds, rest) := by
  obtain ⟨hne, hds⟩ := h
  have hstop : rest.takeWhile Char.isDigit = [] ∧ rest.dropWhile Char.isDigit = rest := by
    cases rest with
    | nil => exact ⟨rfl, rfl⟩
    | cons c cs =>
      have hc : c.isDigit = false := hrest c rfl
      exact ⟨by rw [List.takeWhile_cons, hc]; rfl, by rw [List.dropWhile_cons, hc]; rfl⟩
  rw [digits?, List.takeWhile_append_of_pos hds, List.dropWhile_append_of_pos hds, hstop.1,
    hstop.2, List.append_nil, if_neg hne]

theorem digits?_self {ds : List Char} (h : Digits ds) : digits? ds = some (ds, []) := by
  simpa using digits?_append h stops_nil

/-! ## The parts of a literal -/

theorem whole?_sound {cs w rest : List Char} (h : whole? cs = some (w, rest)) :
    Whole w ∧ cs = w ++ rest := by
  unfold whole? at h
  split at h
  · cases h
    exact ⟨.zero, rfl⟩
  · next hzero =>
    obtain ⟨hw, rfl⟩ := digits?_sound h
    cases w with
    | nil => exact absurd rfl hw.1
    | cons d ds => exact ⟨.digits (fun hd => hzero _ (by rw [hd]; rfl)) hw, rfl⟩

theorem whole?_append {w rest : List Char} (h : Whole w) (hrest : Stops Char.isDigit rest) :
    whole? (w ++ rest) = some (w, rest) := by
  cases h with
  | zero => rfl
  | digits hd hds =>
    rw [whole?, digits?_append hds hrest]
    rintro r hr
    rw [List.cons_append, List.cons.injEq] at hr
    exact hd hr.1

theorem fraction?_sound {cs rest : List Char} {f : Option (List Char)}
    (h : fraction? cs = some (f, rest)) : ∃ ft, FractionText f ft ∧ cs = ft ++ rest := by
  unfold fraction? at h
  split at h
  · obtain ⟨⟨ds, r⟩, hrun, h⟩ := Option.map_eq_some_iff.mp h
    cases h
    obtain ⟨hds, rfl⟩ := digits?_sound hrun
    exact ⟨_, .point hds, rfl⟩
  · cases h
    exact ⟨[], .absent, rfl⟩

theorem fraction?_append {f : Option (List Char)} {ft rest : List Char} (h : FractionText f ft)
    (hrest : Stops Char.isDigit rest) (hpoint : rest.head? ≠ some '.') :
    fraction? (ft ++ rest) = some (f, rest) := by
  cases h with
  | absent =>
    rw [List.nil_append, fraction?]
    rintro r rfl
    exact hpoint rfl
  | point hds => rw [List.cons_append, fraction?, digits?_append hds hrest]; rfl

theorem exponentSign_sound (cs : List Char) :
    ∃ sign, SignText (exponentSign cs).1 sign ∧ cs = sign ++ (exponentSign cs).2 := by
  unfold exponentSign
  split
  · exact ⟨['-'], .minus, rfl⟩
  · exact ⟨['+'], .plus, rfl⟩
  · exact ⟨[], .bare, rfl⟩

theorem exponentSign_append {negative : Bool} {sign ds : List Char} (h : SignText negative sign)
    (hds : Digits ds) : exponentSign (sign ++ ds) = (negative, ds) := by
  cases h with
  | plus => rfl
  | minus => rfl
  | bare =>
    rw [List.nil_append, exponentSign]
    -- A digit is neither sign.
    · rintro r rfl
      exact absurd (hds.2 '-' List.mem_cons_self) (by decide)
    · rintro r rfl
      exact absurd (hds.2 '+' List.mem_cons_self) (by decide)

theorem exponent?_sound {cs rest : List Char} {x : Option (Bool × List Char)}
    (h : exponent? cs = some (x, rest)) : ∃ xt, ExponentText x xt ∧ cs = xt ++ rest := by
  unfold exponent? at h
  split at h
  · next c cs =>
    split at h
    · next he =>
      obtain ⟨sign, hsign, hcs⟩ := exponentSign_sound cs
      generalize exponentSign cs = p at h hsign hcs
      obtain ⟨negative, after⟩ := p
      obtain ⟨⟨ds, r⟩, hrun, h⟩ := Option.map_eq_some_iff.mp h
      cases h
      obtain ⟨hds, rfl⟩ := digits?_sound hrun
      exact ⟨_, .letter he hsign hds, by rw [hcs, List.cons_append, List.append_assoc]⟩
    · cases h
      exact ⟨[], .absent, rfl⟩
  · cases h
    exact ⟨[], .absent, rfl⟩

theorem exponent?_self {x : Option (Bool × List Char)} {xt : List Char} (h : ExponentText x xt) :
    exponent? xt = some (x, []) := by
  cases h with
  | absent => rfl
  | letter he hsign hds =>
    rw [exponent?, if_pos he, exponentSign_append hsign hds]
    show (digits? _).map _ = _
    rw [digits?_self hds]
    rfl

/-- An exponent starts with its letter, so it lengthens neither of the parts before. -/
theorem head?_exponentText {x : Option (Bool × List Char)} {xt : List Char}
    (h : ExponentText x xt) : Stops Char.isDigit xt ∧ xt.head? ≠ some '.' := by
  cases h with
  | absent => exact ⟨stops_nil, by decide⟩
  | letter he _ _ => rcases he with rfl | rfl <;> exact ⟨stops_cons (by decide), by simp⟩

theorem stops_fractionText {f : Option (List Char)} {ft rest : List Char}
    (h : FractionText f ft) (hrest : Stops Char.isDigit rest) : Stops Char.isDigit (ft ++ rest) := by
  cases h with
  | absent => exact hrest
  | point => exact stops_cons (by decide)

theorem sign_sound (cs : List Char) : cs = signText (sign cs).1 ++ (sign cs).2 := by
  unfold sign
  split <;> rfl

theorem sign_append {w : List Char} (h : Whole w) (negative : Bool) (rest : List Char) :
    sign (signText negative ++ (w ++ rest)) = (negative, w ++ rest) := by
  cases negative with
  | true => rfl
  | false =>
    show sign (w ++ rest) = _
    cases h with
    | zero => rfl
    | digits _ hds =>
      rw [sign]
      rintro r hr
      rw [List.cons_append, List.cons.injEq] at hr
      exact absurd (hds.2 _ List.mem_cons_self) (by rw [hr.1]; decide)

/-! ## Literals -/

/-- A text is read as a numeral exactly if it is one of its literals. -/
theorem ofChars?_eq_some_iff {cs : List Char} {n : Numeral} :
    ofChars? cs = some n ↔ n.Literal cs := by
  constructor
  · intro h
    have hsign := sign_sound cs
    unfold ofChars? at h
    generalize sign cs = p at h hsign
    obtain ⟨negative, after⟩ := p
    simp only [bind, Option.bind_eq_some_iff, Prod.exists] at h
    obtain ⟨w, _, hwhole, f, _, hfraction, x, _, hexponent, h⟩ := h
    split at h
    · next hend =>
      cases h
      subst hend
      obtain ⟨hw, rfl⟩ := whole?_sound hwhole
      obtain ⟨ft, hft, rfl⟩ := fraction?_sound hfraction
      obtain ⟨xt, hxt, rfl⟩ := exponent?_sound hexponent
      rw [hsign, List.append_nil]
      exact .mk hw hft hxt
    · cases h
  · rintro ⟨hw, hf, hx⟩
    obtain ⟨hdigit, hpoint⟩ := head?_exponentText hx
    simp only [ofChars?, sign_append hw, whole?_append hw (stops_fractionText hf hdigit),
      fraction?_append hf hdigit hpoint, exponent?_self hx, bind, Option.bind_some, if_pos]
    rfl

/-! ## Integers -/

/-- The decimal digits of a number read as the number. -/
theorem natOfDigits_toDigits (n : Nat) : natOfDigits (Nat.toDigits 10 n) = n := by
  have h : natOfDigits (Nat.toDigits 10 n) = Nat.ofDigitChars 10 (Nat.toDigits 10 n) 0 := by
    simp only [natOfDigits, Nat.ofDigitChars_eq_foldl, Nat.mul_comm]
  rw [h, Nat.ofDigitChars_ten_toDigits]

theorem digits_toDigits (n : Nat) : Digits (Nat.toDigits 10 n) :=
  ⟨Nat.toDigits_ne_nil, fun _ hd => Nat.isDigit_of_mem_toDigits (by decide) (by decide) hd⟩

/-- No decimal numeral but zero itself starts with a zero. -/
theorem head?_toDigits_ne {n : Nat} (hn : 0 < n) : (Nat.toDigits 10 n).head? ≠ some '0' := by
  induction n using Nat.base_induction 10 (by decide) with
  | single m hm =>
    rw [Nat.toDigits_of_lt_base hm, List.head?_cons, Ne, Option.some.injEq,
      Nat.digitChar_eq_zero]
    omega
  | digit m k hk hm ih =>
    obtain ⟨d, ds, hds⟩ := List.exists_cons_of_ne_nil (Nat.toDigits_ne_nil (n := m) (b := 10))
    rw [← Nat.toDigits_append_toDigits (by decide) hm hk, hds, List.cons_append, List.head?_cons]
    rw [hds, List.head?_cons] at ih
    exact ih hm

theorem whole_toDigits (n : Nat) : Whole (Nat.toDigits 10 n) := by
  rcases Nat.eq_zero_or_pos n with rfl | hn
  · exact .zero
  · have hds := digits_toDigits n
    have hhead := head?_toDigits_ne hn
    cases h : Nat.toDigits 10 n with
    | nil => exact absurd h hds.1
    | cons d ds =>
      rw [h] at hds hhead
      exact .digits (fun hd => hhead (by rw [hd]; rfl)) hds

/-- An integer is written as a sign, if it is negative, and its decimal digits. -/
theorem literal_toString (v : Int) :
    Literal ⟨decide (v < 0), Nat.toDigits 10 v.natAbs, none, none⟩ (toString v).toList := by
  have htext : (toString v).toList
      = signText (decide (v < 0)) ++ (Nat.toDigits 10 v.natAbs ++ ([] ++ [])) := by
    rw [Int.toString_eq_repr, Int.repr_eq_if]
    by_cases hv : 0 ≤ v
    · rw [if_pos hv, decide_eq_false (by omega), Nat.toList_repr,
        show v.toNat = v.natAbs by omega]
      simp [signText]
    · rw [if_neg hv, decide_eq_true (by omega), String.toList_append, Nat.toList_repr,
        show (-v).toNat = v.natAbs by omega]
      simp [signText]
  rw [htext]
  exact .mk (whole_toDigits _) .absent .absent

/-- An integer that fits into a word, signed or unsigned. -/
def Fits (v : Int) : Prop := Int64.minValue.toInt ≤ v ∧ v < UInt64.size

theorem fits_toInt (n : Int64) : Fits n.toInt := by
  have hmax : Int64.maxValue.toInt < UInt64.size := by decide
  exact ⟨Int64.minValue_le_toInt n, Int.lt_of_le_of_lt (Int64.toInt_le n) hmax⟩

theorem fits_toNat (n : UInt64) : Fits n.toNat := by
  have hmin : Int64.minValue.toInt ≤ 0 := by decide
  exact ⟨Int.le_trans hmin (Int.natCast_nonneg _), Int.ofNat_lt.mpr n.toNat_lt_size⟩

/-- An integer that fits is the value of what is written for it. -/
theorem int?_of_fits {v : Int} (h : Fits v) :
    int? ⟨decide (v < 0), Nat.toDigits 10 v.natAbs, none, none⟩ = some v := by
  have hvalue : (if decide (v < 0) = true then -(v.natAbs : Int) else (v.natAbs : Int)) = v := by
    by_cases hv : v < 0
    · rw [if_pos (decide_eq_true hv)]
      omega
    · rw [if_neg (by simpa using hv)]
      omega
  have hzero : ¬ (decide (v < 0) = true ∧ v.natAbs = 0) := by
    rintro ⟨hneg, h⟩
    have := of_decide_eq_true hneg
    omega
  simp only [int?, natOfDigits_toDigits, hvalue]
  rw [if_neg hzero]
  exact if_pos h

end Numeral

/-! ## Words -/

/-- The words of a text and the scalars they denote. -/
inductive Word : List Char → Scalar → Prop
  | null : Word ['n', 'u', 'l', 'l'] .null
  | true : Word ['t', 'r', 'u', 'e'] (.bool true)
  | false : Word ['f', 'a', 'l', 's', 'e'] (.bool false)
  | number {n : Numeral} {cs : List Char} {v : Scalar} : n.Literal cs → n.scalar? = some v →
      Word cs v

/-- A run of characters is read as a scalar exactly if it is a word for it. -/
theorem word?_eq_some_iff {cs : List Char} {v : Scalar} : word? cs = some v ↔ Word cs v := by
  constructor
  · intro h
    unfold word? at h
    split at h
    · next hcs =>
      cases h
      exact hcs ▸ .null
    split at h
    · next hcs =>
      cases h
      exact hcs ▸ .true
    split at h
    · next hcs =>
      cases h
      exact hcs ▸ .false
    · obtain ⟨n, hn, hv⟩ := Option.bind_eq_some_iff.mp h
      exact .number (Numeral.ofChars?_eq_some_iff.mp hn) hv
  · intro h
    cases h with
    | null => rfl
    | true => rfl
    | false => rfl
    | number hn hv =>
      have hread := Numeral.ofChars?_eq_some_iff.mpr hn
      have hname : ∀ name, Numeral.ofChars? name = none → cs ≠ name := by
        rintro name hname rfl
        rw [hread] at hname
        cases hname
      rw [word?, if_neg (hname _ (by decide)), if_neg (hname _ (by decide)),
        if_neg (hname _ (by decide)), hread]
      exact hv

/-- What is written for an integer that fits into a word reads as that integer. -/
theorem word_toString {v : Int} (h : Numeral.Fits v) : Word (toString v).toList (.int v) := by
  refine .number (Numeral.literal_toString v) ?_
  rw [Numeral.scalar?, Numeral.int?_of_fits h]

/-! ## The characters of words -/

theorem isWordChar_of_isDigit {c : Char} (h : c.isDigit) : isWordChar c := by
  simp [isWordChar, Char.isAlphanum, h]

namespace Numeral

theorem isWordChar_of_digits {ds : List Char} (h : Digits ds) : ∀ c ∈ ds, isWordChar c :=
  fun c hc => isWordChar_of_isDigit (h.2 c hc)

/-- A literal is a run of word characters; it ends where another character stands. -/
theorem isWordChar_of_literal {n : Numeral} {cs : List Char} (h : n.Literal cs) :
    cs ≠ [] ∧ ∀ c ∈ cs, isWordChar c := by
  cases h with
  | @mk negative w f x _ _ hw hf hx =>
    have hsign : ∀ c ∈ signText negative, isWordChar c := by
      cases negative <;> exact List.all_eq_true.mp rfl
    have hwhole : w ≠ [] ∧ ∀ c ∈ w, isWordChar c := by
      cases hw with
      | zero => exact ⟨List.cons_ne_nil _ _, List.all_eq_true.mp rfl⟩
      | digits _ hds => exact ⟨hds.1, isWordChar_of_digits hds⟩
    have hfraction : ∀ c ∈ f, isWordChar c := by
      cases hf with
      | absent => simp
      | point hds => exact List.forall_mem_cons.mpr ⟨by decide, isWordChar_of_digits hds⟩
    have hexponent : ∀ c ∈ x, isWordChar c := by
      cases hx with
      | absent => simp
      | letter he hsign hds =>
        refine List.forall_mem_cons.mpr ⟨by rcases he with rfl | rfl <;> decide, ?_⟩
        refine List.forall_mem_append.mpr ⟨?_, isWordChar_of_digits hds⟩
        cases hsign <;> exact List.all_eq_true.mp rfl
    refine ⟨by simp [hwhole.1], ?_⟩
    simp only [List.forall_mem_append]
    exact ⟨hsign, hwhole.2, hfraction, hexponent⟩

end Numeral

/-- A word is a run of word characters. -/
theorem isWordChar_of_word {cs : List Char} {v : Scalar} (h : Word cs v) :
    cs ≠ [] ∧ ∀ c ∈ cs, isWordChar c := by
  cases h with
  | null => exact ⟨List.cons_ne_nil _ _, List.all_eq_true.mp rfl⟩
  | true => exact ⟨List.cons_ne_nil _ _, List.all_eq_true.mp rfl⟩
  | false => exact ⟨List.cons_ne_nil _ _, List.all_eq_true.mp rfl⟩
  | number hn _ => exact Numeral.isWordChar_of_literal hn

end Json

end MuxHoist
