/-
  MuxHoist.Proofs.Json.Writing

  What is written for a value spells the value. Strings may hold any characters;
  numbers must be such that their texts read as they are (`Legible`): integers
  that fit into a word, and real numbers held by a literal that denotes them.
  Main statement: `spells_write`.
-/
import MuxHoist.Json.Printer
import MuxHoist.Proofs.Json.Syntax

namespace MuxHoist

namespace Json

/-! ## Legible values -/

/-- The text of the scalar denotes the scalar. -/
def Scalar.Legible : Scalar → Prop
  | .int v => Numeral.Fits v
  | .real literal => Word literal.toList (.real literal)
  | _ => True

/-- So do those of all scalars within the value. -/
inductive Legible : Json → Prop
  | scalar {v : Scalar} : v.Legible → Legible (.scalar v)
  | list {items : List Json} : (∀ j ∈ items, Legible j) → Legible (.list items)
  | object {members : List (String × Json)} : (∀ m ∈ members, Legible m.2) →
      Legible (.object members)

/-! ## Texts one after the other -/

section

variable {rest : List Char} {ts : List Token}

/-- A line break changes nothing but that a word ends before it. -/
theorem lexed_newline (depth : Nat) (h : Lexed rest ts) :
    Lexed ((newline depth).toList ++ rest) ts := by
  have hblanks : ∀ n, Lexed (List.replicate n ' ' ++ rest) ts := by
    intro n
    induction n with
    | zero => exact h
    | succ n ih => exact .blank (by decide) ih
  rw [newline, String.toList_ofList]
  exact .blank (by decide) (hblanks _)

theorem stops_newline (depth : Nat) : Stops isWordChar ((newline depth).toList ++ rest) := by
  rw [newline, String.toList_ofList]
  exact stops_cons (by decide)

/-- A quoted text may stand before anything. -/
theorem lexed_quote (s : String) (h : Lexed rest ts) :
    Lexed ((quote s).toList ++ rest) (.scalar (.str s) :: ts) := by
  have := Lexed.text (bodyText_quoteChar s.toList) h
  rw [String.ofList_toList] at this
  rw [quote, String.toList_ofList, List.cons_append, List.append_assoc, List.singleton_append]
  exact this

/-- A legible scalar stands before what does not lengthen it. -/
theorem lexed_scalar {v : Scalar} (hv : v.Legible) (hrest : Stops isWordChar rest) (h : Lexed rest ts) :
    Lexed (v.text.toList ++ rest) (.scalar v :: ts) := by
  cases v with
  | null => exact .word .null hrest h
  | bool value =>
    cases value with
    | true => exact .word .true hrest h
    | false => exact .word .false hrest h
  | int v => exact .word (word_toString hv) hrest h
  | real literal => exact .word hv hrest h
  | str s => exact lexed_quote s h

end

/-! ## Values -/

/-- At every depth, what is written for the value is cut into its tokens, before
    anything that is not taken for more of it. -/
def Written (j : Json) : Prop :=
  ∀ (depth : Nat) (rest : List Char) (ts : List Token), Stops isWordChar rest → Lexed rest ts →
    Lexed ((pretty depth j).toList ++ rest) (j.tokens ++ ts)

/-- The items after the first, each on a line after a comma. -/
theorem lexed_prettyItems {items : List Json} (hitems : ∀ j ∈ items, Written j) (depth : Nat)
    {rest : List Char} {ts : List Token} (hrest : Stops isWordChar rest) (h : Lexed rest ts) :
    Stops isWordChar ((prettyItems depth items).toList ++ rest) ∧
      Lexed ((prettyItems depth items).toList ++ rest)
        ((itemTokens items).flatMap (.comma :: ·) ++ ts) := by
  induction items with
  | nil => exact ⟨hrest, h⟩
  | cons j js ih =>
    obtain ⟨hj, hjs⟩ := List.forall_mem_cons.mp hitems
    -- The text is put together from its end: an item may be a number, so it matters
    -- what follows.
    obtain ⟨hnext, htail⟩ := ih hjs
    have hline := lexed_newline depth (hj depth _ _ hnext htail)
    rw [prettyItems, itemTokens, List.flatMap_cons]
    simp only [String.toList_append, List.append_assoc, List.cons_append]
    exact ⟨stops_cons (by decide), .punctuation rfl hline⟩

/-- The line of a member: its key and its value. -/
theorem lexed_memberLine {k : String} {j : Json} (hj : Written j) (depth : Nat)
    {rest : List Char} {ts : List Token} (hrest : Stops isWordChar rest) (h : Lexed rest ts) :
    Lexed ((newline depth ++ quote k ++ ": " ++ pretty depth j).toList ++ rest)
      (.scalar (.str k) :: .colon :: (j.tokens ++ ts)) := by
  have hvalue : Lexed ((": ").toList ++ ((pretty depth j).toList ++ rest))
      (.colon :: (j.tokens ++ ts)) :=
    .punctuation rfl (.blank (by decide) (hj depth rest ts hrest h))
  simp only [String.toList_append, List.append_assoc]
  exact lexed_newline depth (lexed_quote k hvalue)

/-- The members after the first, each on a line after a comma. -/
theorem lexed_prettyMembers {members : List (String × Json)}
    (hmembers : ∀ m ∈ members, Written m.2) (depth : Nat) {rest : List Char} {ts : List Token}
    (hrest : Stops isWordChar rest) (h : Lexed rest ts) :
    Stops isWordChar ((prettyMembers depth members).toList ++ rest) ∧
      Lexed ((prettyMembers depth members).toList ++ rest)
        ((memberTokens members).flatMap (.comma :: ·) ++ ts) := by
  induction members with
  | nil => exact ⟨hrest, h⟩
  | cons m ms ih =>
    obtain ⟨k, j⟩ := m
    obtain ⟨hj, hms⟩ := List.forall_mem_cons.mp hmembers
    obtain ⟨hnext, htail⟩ := ih hms
    have hline := lexed_memberLine (k := k) hj depth hnext htail
    rw [prettyMembers, memberTokens, List.flatMap_cons]
    simp only [String.toList_append, List.append_assoc, List.cons_append] at hline ⊢
    exact ⟨stops_cons (by decide), .punctuation rfl hline⟩

/-- Every legible value is written as it reads. -/
theorem written_of_legible {j : Json} (h : Legible j) : Written j := by
  induction h with
  | scalar hv =>
    intro depth rest ts hrest h
    rw [pretty, tokens]
    exact lexed_scalar hv hrest h
  | @list items _ ih =>
    -- A bracket ends the value, so nothing is asked of what follows.
    intro depth rest ts _ h
    rw [tokens]
    cases items with
    | nil =>
      rw [pretty]
      exact .punctuation rfl (.punctuation rfl h)
    | cons j js =>
      obtain ⟨hj, hjs⟩ := List.forall_mem_cons.mp ih
      have hclose : Lexed (']' :: rest) (.endList :: ts) := .punctuation rfl h
      obtain ⟨hnext, htail⟩ := lexed_prettyItems hjs (depth + 1) (stops_newline depth)
        (lexed_newline depth hclose)
      have hline := lexed_newline (depth + 1) (hj (depth + 1) _ _ hnext htail)
      rw [pretty, itemTokens, intercalate_singleton_cons]
      simp only [String.toList_append, List.append_assoc, List.cons_append]
      exact .punctuation rfl hline
  | @object members _ ih =>
    intro depth rest ts _ h
    rw [tokens]
    cases members with
    | nil =>
      rw [pretty]
      exact .punctuation rfl (.punctuation rfl h)
    | cons m ms =>
      obtain ⟨k, j⟩ := m
      obtain ⟨hj, hms⟩ := List.forall_mem_cons.mp ih
      have hclose : Lexed ('\x7d' :: rest) (.endObject :: ts) := .punctuation rfl h
      obtain ⟨hnext, htail⟩ := lexed_prettyMembers hms (depth + 1) (stops_newline depth)
        (lexed_newline depth hclose)
      have hline := lexed_memberLine (k := k) hj (depth + 1) hnext htail
      rw [pretty, memberTokens, intercalate_singleton_cons]
      simp only [String.toList_append, List.append_assoc, List.cons_append] at hline ⊢
      exact .punctuation rfl hline

/-- What is written for a legible value spells it. -/
theorem spells_write {j : Json} (h : Legible j) : Spells j.write j := by
  have hwritten := written_of_legible h 0 [] [] stops_nil .nil
  rw [List.append_nil, List.append_nil] at hwritten
  exact hwritten

end Json

end MuxHoist
