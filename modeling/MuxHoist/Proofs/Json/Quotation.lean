/-
  MuxHoist.Proofs.Json.Quotation

  The grammar of string literals: how each character may be written between
  quotes, and that reading follows it. What was read of a literal so far is
  some characters and perhaps the beginning of an escape (`OpenText.Reads`); each
  step of the reader keeps this, so what it accepts is a spelling of the text it
  gives (`run?_text_sound`), and every spelling is accepted
  (`run?_bodyText`). What writing puts between quotes is a spelling
  (`bodyText_quoteChar`).
-/
import MuxHoist.Json.Token

namespace MuxHoist

namespace Json

/-! ## The grammar -/

/-- The value of a run of hexadecimal digits. -/
def hexValue? (hs : List Char) : Option Nat :=
  hs.foldlM (fun n h => (hexDigit? h).map fun d => n * 16 + d) 0

/-- The four digits of a numeric escape. -/
def HexText (hs : List Char) (n : Nat) : Prop := hs.length = 4 ∧ hexValue? hs = some n

/-- The texts of a character between quotes. -/
inductive CharText : List Char → Char → Prop
  | plain {c : Char} : c ≠ '"' → c ≠ '\\' → 0x20 ≤ c.toNat → CharText [c] c
  | short {e c : Char} : shortEscape? e = some c → CharText ['\\', e] c
  | number {hs : List Char} {n : Nat} : HexText hs n → isHighSurrogate n = false →
      isLowSurrogate n = false → CharText ('\\' :: 'u' :: hs) (Char.ofNat n)
  | pair {hs ls : List Char} {high low : Nat} : HexText hs high → HexText ls low →
      isHighSurrogate high → isLowSurrogate low →
      CharText ('\\' :: 'u' :: (hs ++ '\\' :: 'u' :: ls)) (joinSurrogates high low)

/-- What may stand between the quotes of a text. -/
inductive BodyText : List Char → List Char → Prop
  | nil : BodyText [] []
  | cons {piece body s : List Char} {c : Char} : CharText piece c → BodyText body s →
      BodyText (piece ++ body) (c :: s)

theorem bodyText_append_singleton {body s piece : List Char} {c : Char} (h : BodyText body s)
    (hc : CharText piece c) : BodyText (body ++ piece) (s ++ [c]) := by
  induction h with
  | nil => simpa using BodyText.cons hc .nil
  | cons hd _ ih =>
    rw [List.append_assoc]
    exact .cons hd ih

theorem hexValue?_append_singleton (hs : List Char) (h : Char) :
    hexValue? (hs ++ [h])
      = (hexValue? hs).bind fun n => (hexDigit? h).map fun d => n * 16 + d := by
  rw [hexValue?, List.foldlM_append]
  show (hexValue? hs).bind _ = _
  simp only [List.foldlM_cons, List.foldlM_nil, bind_pure]

/-! ## What was read so far -/

namespace OpenText

/-- The characters of an escape that is not complete. -/
inductive Pending : Escape → List Char → Prop
  | outside : Pending .outside []
  | start : Pending .start ['\\']
  | digits {hs : List Char} {count value : Nat} : hs.length = count → count < 4 →
      hexValue? hs = some value → Pending (.digits none count value) ('\\' :: 'u' :: hs)
  | half {hs : List Char} {high : Nat} : HexText hs high → isHighSurrogate high →
      Pending (.half high) ('\\' :: 'u' :: hs)
  | halfStart {hs : List Char} {high : Nat} : HexText hs high → isHighSurrogate high →
      Pending (.halfStart high) ('\\' :: 'u' :: (hs ++ ['\\']))
  | lowDigits {hs ls : List Char} {high count value : Nat} : HexText hs high →
      isHighSurrogate high → ls.length = count → count < 4 → hexValue? ls = some value →
      Pending (.digits (some high) count value) ('\\' :: 'u' :: (hs ++ '\\' :: 'u' :: ls))

/-- The characters that led to this point of a literal: those of its text so far, then
    those of an escape that is not complete. -/
def Reads (t : OpenText) (cs : List Char) : Prop :=
  ∃ body escape, cs = body ++ escape ∧ BodyText body t.done.reverse ∧ Pending t.escape escape

theorem reads_empty : Reads empty [] := ⟨[], [], rfl, .nil, .outside⟩

/-- A character is complete. -/
theorem reads_push {t : OpenText} {body piece : List Char} {c : Char}
    (hbody : BodyText body t.done.reverse) (hc : CharText piece c) :
    Reads (t.push c) (body ++ piece) := by
  refine ⟨body ++ piece, [], (List.append_nil _).symm, ?_, .outside⟩
  show BodyText _ (c :: t.done).reverse
  rw [List.reverse_cons]
  exact bodyText_append_singleton hbody hc

/-- The fourth digit of a numeric escape completes a character or the first half of
    a pair. -/
theorem reads_number {t t' : OpenText} {body hs : List Char} {n : Nat}
    (hbody : BodyText body t.done.reverse) (hhex : HexText hs n)
    (h : t.number? none n = some t') : Reads t' (body ++ '\\' :: 'u' :: hs) := by
  simp only [number?] at h
  split at h
  · next hhigh =>
    cases h
    exact ⟨body, _, rfl, hbody, .half hhex hhigh⟩
  · next hhigh =>
    split at h
    · cases h
    · next hlow =>
      cases h
      exact reads_push hbody (.number hhex (by simpa using hhigh) (by simpa using hlow))

theorem reads_number_pair {t t' : OpenText} {body hs ls : List Char} {high low : Nat}
    (hbody : BodyText body t.done.reverse) (hhex : HexText hs high)
    (hhigh : isHighSurrogate high) (hlhex : HexText ls low)
    (h : t.number? (some high) low = some t') :
    Reads t' (body ++ '\\' :: 'u' :: (hs ++ '\\' :: 'u' :: ls)) := by
  simp only [number?] at h
  split at h
  · next hlow =>
    cases h
    exact reads_push hbody (.pair hhex hlhex hhigh hlow)
  · cases h

/-- Step: a character that does not close the literal takes what was read one character
    further. -/
theorem reads_step {t t' : OpenText} {cs : List Char} {c : Char} (hread : t.Reads cs)
    (hclose : t.closes c = false) (h : t.step? c = some t') : t'.Reads (cs ++ [c]) := by
  obtain ⟨body, p, rfl, hbody, hp⟩ := hread
  rw [List.append_assoc]
  obtain ⟨done, escape⟩ := t
  cases hp with
  | outside =>
    simp only [step?] at h
    split at h
    · next hc =>
      cases h
      exact ⟨body, _, rfl, hbody, hc ▸ .start⟩
    · next hc =>
      split at h
      · cases h
      · next hcontrol =>
        cases h
        have hquote : c ≠ '"' := by simpa [closes] using hclose
        exact reads_push hbody (.plain hquote hc (by omega))
  | start =>
    simp only [step?] at h
    split at h
    · next hc =>
      cases h
      exact ⟨body, _, rfl, hbody, hc ▸ .digits rfl (by decide) rfl⟩
    · obtain ⟨d, hd, rfl⟩ := Option.map_eq_some_iff.mp h
      exact reads_push hbody (.short hd)
  | @digits hs count value hcount hlt hvalue =>
    simp only [step?] at h
    split at h
    · cases h
    · next d hd =>
      have hlength : (hs ++ [c]).length = count + 1 := by simp [hcount]
      have hmore : hexValue? (hs ++ [c]) = some (value * 16 + d) := by
        rw [hexValue?_append_singleton, hvalue, hd]
        rfl
      split at h
      · cases h
        exact ⟨body, _, rfl, hbody, .digits hlength (by omega) hmore⟩
      · have hhex : HexText (hs ++ [c]) (value * 16 + d) := ⟨by omega, hmore⟩
        exact reads_number hbody hhex h
  | half hhex hhigh =>
    simp only [step?] at h
    split at h
    · next hc =>
      cases h
      exact ⟨body, _, rfl, hbody, hc ▸ .halfStart hhex hhigh⟩
    · cases h
  | @halfStart hs high hhex hhigh =>
    simp only [step?] at h
    split at h
    · next hc =>
      cases h
      have hp : Pending (.digits (some high) 0 0) ('\\' :: 'u' :: (hs ++ ['\\', 'u'])) :=
        .lowDigits hhex hhigh rfl (by decide) rfl
      exact ⟨body, _, rfl, hbody, by simpa [hc] using hp⟩
    · cases h
  | @lowDigits hs ls high count value hhex hhigh hcount hlt hvalue =>
    simp only [step?] at h
    rw [List.cons_append, List.cons_append, List.append_assoc, List.cons_append, List.cons_append]
    split at h
    · cases h
    · next d hd =>
      have hlength : (ls ++ [c]).length = count + 1 := by simp [hcount]
      have hmore : hexValue? (ls ++ [c]) = some (value * 16 + d) := by
        rw [hexValue?_append_singleton, hvalue, hd]
        rfl
      split at h
      · cases h
        exact ⟨body, _, rfl, hbody, .lowDigits hhex hhigh hlength (by omega) hmore⟩
      · have hlhex : HexText (ls ++ [c]) (value * 16 + d) := ⟨by omega, hmore⟩
        exact reads_number_pair hbody hhex hhigh hlhex h

end OpenText

/-! ## Literals in a text -/

open OpenText

/-- What the reader takes for the rest of a string literal is the spelling of a text, up
    to a closing quote. -/
theorem run?_text_sound {t : OpenText} {ts out : List Token} {read cs : List Char}
    (hread : t.Reads read) (h : Lexer.run? (.text t) ts cs = some out) :
    ∃ body s rest, read ++ cs = body ++ '"' :: rest ∧ BodyText body s ∧
      Lexer.run? .between (.scalar (.str (String.ofList s)) :: ts) rest = some out := by
  induction cs generalizing t read with
  | nil => cases h
  | cons c cs ih =>
    simp only [Lexer.run?, Lexer.step?] at h
    by_cases hclose : t.closes c = true
    · rw [if_pos hclose] at h
      obtain ⟨body, p, rfl, hbody, hp⟩ := hread
      simp only [closes, Bool.and_eq_true, decide_eq_true_eq] at hclose
      obtain ⟨hescape, rfl⟩ := hclose
      rw [hescape] at hp
      cases hp
      exact ⟨body, _, cs, by rw [List.append_nil], hbody, h⟩
    · rw [if_neg hclose] at h
      cases hstep : t.step? c with
      | none =>
        rw [hstep] at h
        cases h
      | some t' =>
        rw [hstep] at h
        have hread' := reads_step hread (by simpa using hclose) hstep
        obtain ⟨body, s, rest, hcs, hs⟩ := ih hread' h
        exact ⟨body, s, rest, by rw [← hcs, List.append_assoc, List.singleton_append], hs⟩

section

variable {ts : List Token} {cs done : List Char}

theorem run?_text_step {t t' : OpenText} {c : Char} (hclose : t.closes c = false)
    (h : t.step? c = some t') :
    Lexer.run? (.text t) ts (c :: cs) = Lexer.run? (.text t') ts cs := by
  simp [Lexer.run?, Lexer.step?, hclose, h]

/-- A character inside an escape never closes the literal. -/
theorem run?_escape_step {escape : Escape} {t' : OpenText} {c : Char} (hne : escape ≠ .outside)
    (h : step? ⟨done, escape⟩ c = some t') :
    Lexer.run? (.text ⟨done, escape⟩) ts (c :: cs) = Lexer.run? (.text t') ts cs :=
  run?_text_step (by simp [closes, hne]) h

theorem run?_digit {high : Option Nat} {count value d : Nat} {c : Char}
    (hd : hexDigit? c = some d) (hcount : count < 3) :
    Lexer.run? (.text ⟨done, .digits high count value⟩) ts (c :: cs)
      = Lexer.run? (.text ⟨done, .digits high (count + 1) (value * 16 + d)⟩) ts cs := by
  refine run?_escape_step (by simp) ?_
  simp only [step?, hd, if_pos hcount]

/-- Four digits lead to what their value stands for. -/
theorem run?_hexText {hs : List Char} {n : Nat} {high : Option Nat} {t' : OpenText}
    (hhex : HexText hs n) (h : ∀ escape, number? ⟨done, escape⟩ high n = some t') :
    Lexer.run? (.text ⟨done, .digits high 0 0⟩) ts (hs ++ cs) = Lexer.run? (.text t') ts cs := by
  obtain ⟨hlen, hvalue⟩ := hhex
  match hs, hlen with
  | [a, b, c, d], _ =>
    simp only [hexValue?, List.foldlM_cons, List.foldlM_nil, bind, Option.bind_eq_some_iff,
      Option.map_eq_some_iff] at hvalue
    obtain ⟨_, ⟨w, ha, rfl⟩, _, ⟨x, hb, rfl⟩, _, ⟨y, hc, rfl⟩, _, ⟨z, hd, rfl⟩, hn⟩ := hvalue
    cases hn
    simp only [List.cons_append, List.nil_append]
    rw [run?_digit ha (by decide), run?_digit hb (by decide), run?_digit hc (by decide)]
    refine run?_escape_step (by simp) ?_
    simp only [step?, hd, if_neg (Nat.lt_irrefl 3)]
    exact h _

/-- Every text of a character is read as the character. -/
theorem run?_charText {piece : List Char} {c : Char} (h : CharText piece c) :
    Lexer.run? (.text ⟨done, .outside⟩) ts (piece ++ cs)
      = Lexer.run? (.text ⟨c :: done, .outside⟩) ts cs := by
  -- Both kinds of numeric escape begin alike.
  have hstart : ∀ cs', Lexer.run? (.text ⟨done, .outside⟩) ts ('\\' :: 'u' :: cs')
      = Lexer.run? (.text ⟨done, .digits none 0 0⟩) ts cs' := by
    intro cs'
    rw [run?_text_step (by simp [closes]) (by simp [step?]; rfl)]
    exact run?_escape_step (by simp) rfl
  cases h with
  | plain hquote hslash hcontrol =>
    refine run?_text_step (by simp [closes, hquote]) ?_
    simp only [step?, if_neg hslash, if_neg (Nat.not_lt.mpr hcontrol)]
    rfl
  | @short e c he =>
    rw [List.cons_append, List.cons_append, List.nil_append,
      run?_text_step (by simp [closes]) (by simp [step?]; rfl)]
    refine run?_escape_step (by simp) ?_
    have hletter : e ≠ 'u' := by
      rintro rfl
      cases he
    simp only [step?, if_neg hletter, he]
    rfl
  | number hhex hhigh hlow =>
    rw [List.cons_append, List.cons_append, hstart, run?_hexText hhex]
    intro escape
    simp only [number?, hhigh, hlow]
    rfl
  | @pair hs ls high low hhex hlhex hhigh hlow =>
    have hhalf : ∀ escape, number? ⟨done, escape⟩ none high = some ⟨done, .half high⟩ := by
      intro escape
      simp only [number?, if_pos hhigh]
    rw [List.cons_append, List.cons_append, hstart, List.append_assoc, run?_hexText hhex hhalf,
      List.cons_append, List.cons_append, run?_escape_step (by simp) (by simp [step?]; rfl),
      run?_escape_step (by simp) (by simp [step?]; rfl), run?_hexText hlhex]
    intro escape
    simp only [number?, if_pos hlow]
    rfl

/-- Every spelling of a text is read as the text, up to the closing quote. -/
theorem run?_bodyText {body s : List Char} (h : BodyText body s) (done : List Char) :
    Lexer.run? (.text ⟨done, .outside⟩) ts (body ++ '"' :: cs)
      = Lexer.run? .between (.scalar (.str (String.ofList (done.reverse ++ s))) :: ts) cs := by
  induction h generalizing done with
  | nil => simp [Lexer.run?, Lexer.step?, closes, OpenText.text]
  | cons hc _ ih =>
    rw [List.append_assoc, run?_charText hc, ih, List.reverse_cons, List.append_assoc,
      List.singleton_append]

end

/-! ## Written literals -/

theorem hexDigit?_hexDigit : ∀ n < 16, hexDigit? (hexDigit n) = some n := by
  decide

theorem shortEscape?_of_escapeLetter? {c letter : Char} (h : escapeLetter? c = some letter) :
    shortEscape? letter = some c := by
  unfold escapeLetter? at h
  split at h <;> cases h <;> rfl

/-- A character is written as one of its texts. -/
theorem charText_quoteChar (c : Char) : CharText (quoteChar c) c := by
  unfold quoteChar
  split
  · next letter h => exact .short (shortEscape?_of_escapeLetter? h)
  · next h =>
    split
    · next hcontrol =>
      have hhex : HexText ['0', '0', hexDigit (c.toNat / 16), hexDigit (c.toNat % 16)] c.toNat := by
        refine ⟨rfl, ?_⟩
        have hhigh := hexDigit?_hexDigit (c.toNat / 16) (by omega)
        have hlow := hexDigit?_hexDigit (c.toNat % 16) (by omega)
        have hzero : hexDigit? '0' = some 0 := by decide
        simp only [hexValue?, List.foldlM_cons, List.foldlM_nil, hhigh, hlow, hzero,
          Option.map_some, bind, Option.bind_some, pure, Option.some.injEq]
        omega
      have hchar := CharText.number hhex (by simp [isHighSurrogate]; omega)
        (by simp [isLowSurrogate]; omega)
      rwa [Char.ofNat_toNat] at hchar
    · next hcontrol =>
      refine .plain ?_ ?_ (by omega)
      · rintro rfl
        cases h
      · rintro rfl
        cases h

/-- What writing puts between the quotes of a text is a spelling of it. -/
theorem bodyText_quoteChar (s : List Char) : BodyText (s.flatMap quoteChar) s := by
  induction s with
  | nil => exact .nil
  | cons c s ih => exact .cons (charText_quoteChar c) ih

end Json

end MuxHoist
