/-
  MuxHoist.Proofs.Json.Lexis

  The tokens of a text, by rules: blanks stand for nothing, a bracket or a
  separator for itself, and a word or a string literal for a scalar. A word must
  end before a character that could belong to it. Main statement: cutting a text
  into tokens succeeds exactly where these rules apply, and gives the tokens they
  give (`tokens?_eq_some_iff`).
-/
import MuxHoist.Proofs.Json.Numeral
import MuxHoist.Proofs.Json.Quotation

namespace MuxHoist

namespace Json

/-- The tokens that a text is made of. -/
inductive Lexed : List Char → List Token → Prop
  | nil : Lexed [] []
  | blank {c : Char} {cs : List Char} {ts : List Token} : isBlank c → Lexed cs ts →
      Lexed (c :: cs) ts
  | punctuation {c : Char} {t : Token} {cs : List Char} {ts : List Token} :
      punctuation? c = some t → Lexed cs ts → Lexed (c :: cs) (t :: ts)
  | word {w cs : List Char} {v : Scalar} {ts : List Token} : Word w v → Stops isWordChar cs →
      Lexed cs ts → Lexed (w ++ cs) (.scalar v :: ts)
  | text {body s cs : List Char} {ts : List Token} : BodyText body s → Lexed cs ts →
      Lexed ('"' :: (body ++ '"' :: cs)) (.scalar (.str (String.ofList s)) :: ts)

/-- A blank at the end changes nothing, not even after a word. -/
theorem Lexed.append_blank {c : Char} (hc : isBlank c) (hword : isWordChar c = false)
    {cs : List Char} {ts : List Token} (h : Lexed cs ts) : Lexed (cs ++ [c]) ts := by
  induction h with
  | nil => exact .blank hc .nil
  | blank hd _ ih => exact .blank hd ih
  | punctuation hp _ ih => exact .punctuation hp ih
  | @word w cs _ _ hw hcs _ ih =>
    rw [List.append_assoc]
    refine .word hw ?_ ih
    cases cs with
    | nil => exact stops_cons hword
    | cons d cs => exact stops_cons (hcs d rfl)
  | text hs _ ih =>
    rw [List.cons_append, List.append_assoc, List.cons_append]
    exact .text hs ih

/-! ## Characters between tokens -/

theorem isWordChar_of_isBlank {c : Char} (h : isBlank c) : isWordChar c = false := by
  simp only [isBlank, Bool.or_eq_true, decide_eq_true_eq] at h
  rcases h with ((rfl | rfl) | rfl) | rfl <;> decide

theorem punctuation?_spec {c : Char} {t : Token} (h : punctuation? c = some t) :
    isBlank c = false ∧ isWordChar c = false ∧ c ≠ '"' := by
  unfold punctuation? at h
  split at h
  case h_7 => cases h
  all_goals decide

/-! ## Steps over a token -/

section

variable {ts : List Token} {cs : List Char}

theorem run?_blank {c : Char} (h : isBlank c) :
    Lexer.run? .between ts (c :: cs) = Lexer.run? .between ts cs := by
  simp only [Lexer.run?, Lexer.step?, Lexer.start?, if_pos h]

theorem run?_punctuation {c : Char} {t : Token} (h : punctuation? c = some t) :
    Lexer.run? .between ts (c :: cs) = Lexer.run? .between (t :: ts) cs := by
  obtain ⟨hblank, hword, hquote⟩ := punctuation?_spec h
  simp [Lexer.run?, Lexer.step?, Lexer.start?, hblank, hword, hquote, h]

theorem run?_quote :
    Lexer.run? .between ts ('"' :: cs) = Lexer.run? (.text .empty) ts cs := by
  rfl

/-- A word is read to its end. -/
theorem run?_word {w : List Char} (hw : ∀ c ∈ w, isWordChar c) (hcs : Stops isWordChar cs)
    (done : List Char) :
    Lexer.run? (.word done) ts (w ++ cs)
      = (word? (done.reverse ++ w)).bind fun v => Lexer.run? .between (.scalar v :: ts) cs := by
  induction w generalizing done with
  | nil =>
    rw [List.nil_append, List.append_nil]
    cases cs with
    | nil =>
      simp only [Lexer.run?, Lexer.finish?]
      cases word? done.reverse <;> rfl
    | cons c cs =>
      have hc : isWordChar c = false := hcs c rfl
      simp only [Lexer.run?, Lexer.step?, hc]
      cases word? done.reverse <;> rfl
  | cons c w ih =>
    obtain ⟨hc, hw⟩ := List.forall_mem_cons.mp hw
    rw [List.cons_append, Lexer.run?, Lexer.step?, if_pos hc]
    show Lexer.run? (.word (c :: done)) ts (w ++ cs) = _
    rw [ih hw, List.reverse_cons, List.append_assoc, List.singleton_append]

theorem run?_between_word {w : List Char} (hne : w ≠ []) (hw : ∀ c ∈ w, isWordChar c)
    (hcs : Stops isWordChar cs) :
    Lexer.run? .between ts (w ++ cs)
      = (word? w).bind fun v => Lexer.run? .between (.scalar v :: ts) cs := by
  cases w with
  | nil => exact absurd rfl hne
  | cons c w =>
    obtain ⟨hc, hw⟩ := List.forall_mem_cons.mp hw
    have hblank : isBlank c = false := by
      by_contra h
      rw [isWordChar_of_isBlank (by simpa using h)] at hc
      cases hc
    rw [List.cons_append, Lexer.run?, Lexer.step?, Lexer.start?, hblank]
    simp only [hc]
    exact run?_word hw hcs [c]

end

/-! ## Whole texts -/

/-- A text that starts with a word character starts with a word up to its end. -/
theorem exists_word_append {c : Char} (h : isWordChar c) (cs : List Char) :
    ∃ w rest, c :: cs = w ++ rest ∧ w ≠ [] ∧ (∀ d ∈ w, isWordChar d) ∧ Stops isWordChar rest := by
  refine ⟨(c :: cs).takeWhile isWordChar, (c :: cs).dropWhile isWordChar,
    List.takeWhile_append_dropWhile.symm, ?_, fun d hd => List.mem_takeWhile_imp hd, ?_⟩
  · rw [List.takeWhile_cons, h]
    exact List.cons_ne_nil _ _
  · intro d hd
    have hstop := List.head?_dropWhile_not isWordChar (c :: cs)
    rw [Option.mem_def.mp hd] at hstop
    exact hstop

/-- The tokens that the reader gathers are those of the rules. -/
theorem lexed_of_run? {ts out : List Token} {cs : List Char}
    (h : Lexer.run? .between ts cs = some out) : ∃ new, Lexed cs new ∧ out = ts.reverse ++ new := by
  -- Tokens differ in length, so the induction is on the number of characters left.
  induction hn : cs.length using Nat.strong_induction_on generalizing cs ts with
  | h n ih =>
    subst hn
    -- One token behind `ts`, and then what follows it.
    have hnext : ∀ {t : Token} {rest : List Char}, rest.length < cs.length →
        Lexer.run? .between (t :: ts) rest = some out →
        ∃ new, Lexed rest new ∧ out = ts.reverse ++ t :: new := by
      intro t rest hlt h
      obtain ⟨new, hnew, rfl⟩ := ih _ hlt h rfl
      exact ⟨new, hnew, by rw [List.reverse_cons, List.append_assoc, List.singleton_append]⟩
    cases cs with
    | nil =>
      cases h
      exact ⟨[], .nil, (List.append_nil _).symm⟩
    | cons c cs =>
      by_cases hblank : isBlank c
      · rw [run?_blank hblank] at h
        obtain ⟨new, hnew, hout⟩ := ih _ (Nat.lt_succ_self _) h rfl
        exact ⟨new, .blank hblank hnew, hout⟩
      by_cases hword : isWordChar c
      · obtain ⟨w, rest, hcs, hne, hw, hrest⟩ := exists_word_append hword cs
        rw [hcs] at h hnext ⊢
        rw [run?_between_word hne hw hrest] at h
        obtain ⟨v, hv, h⟩ := Option.bind_eq_some_iff.mp h
        have hlt : rest.length < (w ++ rest).length := by
          have := List.length_pos_iff.mpr hne
          rw [List.length_append]
          omega
        obtain ⟨new, hnew, hout⟩ := hnext hlt h
        exact ⟨_, .word (word?_eq_some_iff.mp hv) hrest hnew, hout⟩
      by_cases hquote : c = '"'
      · subst hquote
        rw [run?_quote] at h
        obtain ⟨body, s, rest, rfl, hs, h⟩ := run?_text_sound OpenText.reads_empty h
        have hlt : rest.length < ('"' :: (body ++ '"' :: rest)).length := by
          simp only [List.length_cons, List.length_append]
          omega
        obtain ⟨new, hnew, hout⟩ := hnext hlt h
        exact ⟨_, .text hs hnew, hout⟩
      · cases hp : punctuation? c with
        | none => simp [Lexer.run?, Lexer.step?, Lexer.start?, hblank, hword, hquote, hp] at h
        | some t =>
          rw [run?_punctuation hp] at h
          obtain ⟨new, hnew, hout⟩ := hnext (Nat.lt_succ_self _) h
          exact ⟨_, .punctuation hp hnew, hout⟩

/-- What the rules allow is read. -/
theorem run?_of_lexed {cs : List Char} {new : List Token} (h : Lexed cs new) (ts : List Token) :
    Lexer.run? .between ts cs = some (ts.reverse ++ new) := by
  induction h generalizing ts with
  | nil => simp [Lexer.run?, Lexer.finish?]
  | blank hc _ ih => rw [run?_blank hc, ih]
  | punctuation hp _ ih => rw [run?_punctuation hp, ih, List.reverse_cons]; simp
  | word hw hcs _ ih =>
    obtain ⟨hne, hchars⟩ := isWordChar_of_word hw
    rw [run?_between_word hne hchars hcs, word?_eq_some_iff.mpr hw, Option.bind_some, ih]
    simp
  | text hs _ ih =>
    rw [run?_quote, OpenText.empty, run?_bodyText hs [], ih]
    simp

/-- A text is cut into tokens exactly where the rules apply, and into those of the
    rules. -/
theorem tokens?_eq_some_iff {text : String} {ts : List Token} :
    tokens? text = some ts ↔ Lexed text.toList ts := by
  constructor
  · intro h
    obtain ⟨new, hnew, rfl⟩ := lexed_of_run? h
    exact hnew
  · exact fun h => run?_of_lexed h []

end Json

end MuxHoist
