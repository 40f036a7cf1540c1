/-
  MuxHoist.Proofs.Json.Syntax

  The texts of a value. A value as written has one token sequence
  (`Json.tokens`), and a text spells the value if it is made of these tokens
  (`Json.Spells`). The reader goes through the tokens of a value and holds it in
  the end, unless it nests too deep (`run?_tokens`); and at every moment the
  tokens it has taken can be told from its state (`consumed_run`). Main statement:
  reading a text with a bound on the nesting gives the canonical form of the value
  that the text spells, exactly if that value keeps to the bound
  (`read?_eq_some_iff`).
-/
import MuxHoist.Json.Reader
import MuxHoist.Proofs.Json.Lexis

namespace MuxHoist

namespace Json

/-! ## Tokens of a value -/

mutual

/-- The tokens of a value, in the order in which it is written. -/
def tokens : Json → List Token
  | .scalar v => [.scalar v]
  | .list items => .beginList :: ([.comma].intercalate (itemTokens items) ++ [.endList])
  | .object members =>
    .beginObject :: ([.comma].intercalate (memberTokens members) ++ [.endObject])

/-- The tokens of each item. -/
def itemTokens : List Json → List (List Token)
  | [] => []
  | j :: js => j.tokens :: itemTokens js

/-- The tokens of each member: its key, a colon, and its value. -/
def memberTokens : List (String × Json) → List (List Token)
  | [] => []
  | (k, j) :: ms => (.scalar (.str k) :: .colon :: j.tokens) :: memberTokens ms

end

/-- The text spells the value: it is cut into the tokens of the value. -/
def Spells (text : String) (j : Json) : Prop := Lexed text.toList j.tokens

theorem itemTokens_append (xs ys : List Json) :
    itemTokens (xs ++ ys) = itemTokens xs ++ itemTokens ys := by
  induction xs with
  | nil => rfl
  | cons x xs ih => rw [List.cons_append, itemTokens, ih, itemTokens, List.cons_append]

theorem memberTokens_append (xs ys : List (String × Json)) :
    memberTokens (xs ++ ys) = memberTokens xs ++ memberTokens ys := by
  induction xs with
  | nil => rfl
  | cons x xs ih =>
    obtain ⟨k, j⟩ := x
    rw [List.cons_append, memberTokens, ih, memberTokens, List.cons_append]

/-- Of several parts with a separator between them, all but the last are followed by
    one. -/
theorem intercalate_append_singleton {α : Type} (c : α) (xs : List (List α)) (y : List α) :
    [c].intercalate (xs ++ [y]) = xs.flatMap (· ++ [c]) ++ y := by
  induction xs with
  | nil => exact List.intercalate_singleton
  | cons x xs ih =>
    rw [List.cons_append, List.intercalate_cons_of_ne_nil (by simp), ih, List.flatMap_cons]
    simp only [List.append_assoc]

/-- Of several parts with a separator between them, all but the first follow one. -/
theorem intercalate_singleton_cons {α : Type} (c : α) (x : List α) (xs : List (List α)) :
    [c].intercalate (x :: xs) = x ++ xs.flatMap (c :: ·) := by
  induction xs generalizing x with
  | nil => rw [List.intercalate_singleton, List.flatMap_nil, List.append_nil]
  | cons y ys ih =>
    rw [List.intercalate_cons_cons, ih, List.flatMap_cons, List.append_assoc, List.singleton_append,
      List.cons_append]

/-- A value does not start with the end of a list. -/
theorem exists_tokens_eq_cons (j : Json) : ∃ t ts, j.tokens = t :: ts ∧ t ≠ .endList := by
  cases j with
  | scalar v => exact ⟨_, _, rfl, by simp⟩
  | list items => exact ⟨_, _, by rw [tokens], by simp⟩
  | object members => exact ⟨_, _, by rw [tokens], by simp⟩

theorem exists_itemTokens_eq_cons (j : Json) (js : List Json) :
    ∃ t ts, [Token.comma].intercalate (itemTokens (j :: js)) = t :: ts ∧ t ≠ .endList := by
  obtain ⟨t, ts, ht, hne⟩ := exists_tokens_eq_cons j
  refine ⟨t, ts ++ (itemTokens js).flatMap (.comma :: ·), ?_, hne⟩
  rw [itemTokens, intercalate_singleton_cons, ht, List.cons_append]

/-! ## Through the tokens of a value -/

namespace Reader

/-- From where a value may stand, the reader takes the tokens of this one exactly if
    together with what is open it does not nest too deep, and then holds the value. -/
def Passes (limit : Nat) (j : Json) : Prop :=
  ∀ (frames : List Frame) (ts : List Token), frames.length ≤ limit →
    run? limit (.value frames) (j.tokens ++ ts)
      = if frames.length + j.nesting ≤ limit then run? limit (.follow frames j) ts else none

variable {limit : Nat}

theorem run?_cons_of_step {r r' : Reader} {t : Token} (h : step? limit r t = some r')
    (ts : List Token) : run? limit r (t :: ts) = run? limit r' ts := by
  rw [run?, h]

/-- The first item of a list is read as any other value. -/
theorem run?_firstItem (frames : List Frame) (j : Json) (js : List Json) (ts : List Token) :
    run? limit (.firstItem frames) ([.comma].intercalate (itemTokens (j :: js)) ++ ts)
      = run? limit (.value (.list [] :: frames))
          ([.comma].intercalate (itemTokens (j :: js)) ++ ts) := by
  obtain ⟨t, rest, ht, hne⟩ := exists_itemTokens_eq_cons j js
  rw [ht, List.cons_append, run?, run?]
  cases t with
  | endList => exact absurd rfl hne
  | _ => rfl

/-- The items of a list that is open, up to its end. -/
theorem run?_items {j : Json} {js : List Json} (h : ∀ i ∈ j :: js, Passes limit i)
    (done : List Json) {frames : List Frame} (hopen : frames.length + 1 ≤ limit)
    (ts : List Token) :
    run? limit (.value (.list done :: frames))
        ([.comma].intercalate (itemTokens (j :: js)) ++ .endList :: ts)
      = if frames.length + 1 + nestingAll (j :: js) ≤ limit then
          run? limit (.follow frames (.list (done.reverse ++ j :: js))) ts
        else none := by
  induction js generalizing j done with
  | nil =>
    have hj := h j List.mem_cons_self (.list done :: frames) (.endList :: ts) hopen
    rw [itemTokens, itemTokens, List.intercalate_singleton, hj, List.length_cons, nestingAll,
      nestingAll, Nat.max_zero, run?_cons_of_step rfl, List.reverse_cons]
  | cons i js ih =>
    obtain ⟨hj, hjs⟩ := List.forall_mem_cons.mp h
    have hj := hj (.list done :: frames)
      (.comma :: ([.comma].intercalate (itemTokens (i :: js)) ++ .endList :: ts)) hopen
    have hrest := ih hjs (j :: done)
    rw [itemTokens, itemTokens, List.intercalate_cons_cons]
    rw [itemTokens] at hj hrest
    simp only [List.append_assoc, List.cons_append, List.nil_append] at hj ⊢
    rw [hj, run?_cons_of_step rfl, hrest, List.length_cons, List.reverse_cons, List.append_assoc,
      List.singleton_append, ← ite_and]
    exact if_congr (by simp only [nestingAll]; omega) rfl rfl

/-- The members of an object that is open, up to its end, from a state in which a key
    may stand. -/
theorem run?_members {k : String} {j : Json} {ms : List (String × Json)} {r : Reader}
    {done : List (String × Json)} {frames : List Frame}
    (h : ∀ m ∈ (k, j) :: ms, Passes limit m.2)
    (hkey : ∀ key, step? limit r (.scalar (.str key)) = some (.colon frames done key))
    (hopen : frames.length + 1 ≤ limit) (ts : List Token) :
    run? limit r ([.comma].intercalate (memberTokens ((k, j) :: ms)) ++ .endObject :: ts)
      = if frames.length + 1 + nestingMembers ((k, j) :: ms) ≤ limit then
          run? limit (.follow frames (.object (done.reverse ++ (k, j) :: ms))) ts
        else none := by
  induction ms generalizing k j r done with
  | nil =>
    have hj := h (k, j) List.mem_cons_self (.object done k :: frames) (.endObject :: ts) hopen
    rw [memberTokens, memberTokens, List.intercalate_singleton, List.cons_append,
      List.cons_append, run?_cons_of_step (hkey k), run?_cons_of_step rfl, hj, List.length_cons,
      nestingMembers, nestingMembers, Nat.max_zero, run?_cons_of_step rfl, List.reverse_cons]
  | cons m ms ih =>
    obtain ⟨l, i⟩ := m
    obtain ⟨hj, hms⟩ := List.forall_mem_cons.mp h
    have hj := hj (.object done k :: frames)
      (.comma :: ([.comma].intercalate (memberTokens ((l, i) :: ms)) ++ .endObject :: ts)) hopen
    have hrest := ih (r := .nextKey frames ((k, j) :: done)) hms fun _ => rfl
    rw [memberTokens, memberTokens, List.intercalate_cons_cons]
    rw [memberTokens] at hj hrest
    simp only [List.append_assoc, List.cons_append, List.nil_append] at hj ⊢
    rw [run?_cons_of_step (hkey k), run?_cons_of_step rfl, hj, run?_cons_of_step rfl, hrest,
      List.length_cons, List.reverse_cons, List.append_assoc, List.singleton_append, ← ite_and]
    exact if_congr (by simp only [nestingMembers]; omega) rfl rfl

/-- A list or an object that is one too many ends the run. -/
theorem run?_beginList (frames : List Frame) (ts : List Token) :
    run? limit (.value frames) (.beginList :: ts)
      = if frames.length + 1 ≤ limit then run? limit (.firstItem frames) ts else none := by
  simp only [run?, step?, start?]
  by_cases h : frames.length < limit
  · rw [if_pos h, if_pos (Nat.succ_le_of_lt h)]
  · rw [if_neg h, if_neg (by omega)]

theorem run?_beginObject (frames : List Frame) (ts : List Token) :
    run? limit (.value frames) (.beginObject :: ts)
      = if frames.length + 1 ≤ limit then run? limit (.firstKey frames) ts else none := by
  simp only [run?, step?, start?]
  by_cases h : frames.length < limit
  · rw [if_pos h, if_pos (Nat.succ_le_of_lt h)]
  · rw [if_neg h, if_neg (by omega)]

/-- The reader goes through the tokens of every value. -/
theorem run?_tokens (j : Json) : Passes limit j := by
  induction j with
  | scalar v =>
    intro frames ts hframes
    rw [tokens, List.singleton_append, run?_cons_of_step rfl, nesting, Nat.add_zero,
      if_pos hframes]
  | list items ih =>
    intro frames ts _
    rw [tokens, List.cons_append, run?_beginList, nesting, List.append_assoc,
      List.singleton_append, ← Nat.add_assoc]
    by_cases hopen : frames.length + 1 ≤ limit
    · rw [if_pos hopen]
      cases items with
      | nil =>
        rw [itemTokens, List.intercalate_nil, List.nil_append, run?_cons_of_step rfl, nestingAll,
          Nat.add_zero, if_pos hopen]
      | cons j js =>
        rw [run?_firstItem]
        exact run?_items ih [] hopen ts
    · rw [if_neg hopen, if_neg (by omega)]
  | object members ih =>
    intro frames ts _
    rw [tokens, List.cons_append, run?_beginObject, nesting, List.append_assoc,
      List.singleton_append, ← Nat.add_assoc]
    by_cases hopen : frames.length + 1 ≤ limit
    · rw [if_pos hopen]
      cases members with
      | nil =>
        rw [memberTokens, List.intercalate_nil, List.nil_append, run?_cons_of_step rfl,
          nestingMembers, Nat.add_zero, if_pos hopen]
      | cons m ms => exact run?_members (r := .firstKey frames) ih (fun _ => rfl) hopen ts
    · rw [if_neg hopen, if_neg (by omega)]

/-! ## From a state back to the tokens taken -/

/-- The tokens of an open list or object up to where its next part may stand. -/
def openTokens : Frame → List Token
  | .list items => .beginList :: (itemTokens items.reverse).flatMap (· ++ [.comma])
  | .object members key =>
    .beginObject :: ((memberTokens members.reverse).flatMap (· ++ [.comma])
      ++ [.scalar (.str key), .colon])

/-- The tokens of all that is open. -/
def framesTokens : List Frame → List Token
  | [] => []
  | f :: fs => framesTokens fs ++ openTokens f

/-- The tokens that lead to a state. -/
def consumed : Reader → List Token
  | .value frames => framesTokens frames
  | .firstItem frames => framesTokens frames ++ [.beginList]
  | .firstKey frames => framesTokens frames ++ [.beginObject]
  | .nextKey frames members =>
    framesTokens frames ++ .beginObject :: (memberTokens members.reverse).flatMap (· ++ [.comma])
  | .colon frames members key =>
    framesTokens frames ++ .beginObject :: ((memberTokens members.reverse).flatMap (· ++ [.comma])
      ++ [.scalar (.str key)])
  | .follow frames v => framesTokens frames ++ v.tokens

theorem consumed_start {frames : List Frame} {t : Token} {r : Reader}
    (h : start? limit frames t = some r) : r.consumed = framesTokens frames ++ [t] := by
  unfold start? at h
  split at h
  · cases h
    simp only [consumed, tokens]
  · split at h <;> cases h
    rfl
  · split at h <;> cases h
    rfl
  · cases h

/-- The tokens of a list whose last item was read. -/
theorem tokens_list_reverse (v : Json) (items : List Json) :
    (list (v :: items).reverse).tokens = openTokens (.list items) ++ (v.tokens ++ [.endList]) := by
  rw [tokens, List.reverse_cons, itemTokens_append, itemTokens, itemTokens,
    intercalate_append_singleton, openTokens, List.append_assoc, List.cons_append]

/-- The tokens of an object whose last member was read. -/
theorem tokens_object_reverse (k : String) (v : Json) (members : List (String × Json)) :
    (object ((k, v) :: members).reverse).tokens
      = openTokens (.object members k) ++ (v.tokens ++ [.endObject]) := by
  rw [tokens, List.reverse_cons, memberTokens_append, memberTokens, memberTokens,
    intercalate_append_singleton, openTokens]
  simp only [List.append_assoc, List.cons_append, List.nil_append]

/-- Step: the token taken is the one by which the next state is further. -/
theorem consumed_step {r r' : Reader} {t : Token} (h : step? limit r t = some r') :
    r'.consumed = r.consumed ++ [t] := by
  unfold step? at h
  split at h
  case h_1 => exact consumed_start h
  case h_3 => exact consumed_start h
  case h_9 =>
    cases h
    simp only [consumed, tokens_list_reverse, framesTokens, List.append_assoc]
  case h_11 =>
    cases h
    simp only [consumed, tokens_object_reverse, framesTokens, List.append_assoc]
  case h_12 => cases h
  -- What is left opens a list or an object, or adds a separator or a key to it.
  all_goals
    cases h
    simp [consumed, framesTokens, openTokens, itemTokens_append, memberTokens_append, itemTokens,
      memberTokens, tokens]

/-- Run: the tokens taken are those that lead from the one state to the other. -/
theorem consumed_run {r r' : Reader} {ts : List Token} (h : run? limit r ts = some r') :
    r'.consumed = r.consumed ++ ts := by
  induction ts generalizing r with
  | nil =>
    cases h
    exact (List.append_nil _).symm
  | cons t ts ih =>
    rw [run?] at h
    cases hstep : step? limit r t with
    | none =>
      rw [hstep] at h
      cases h
    | some r₁ =>
      rw [hstep] at h
      rw [ih h, consumed_step hstep, List.append_assoc, List.singleton_append]

end Reader

/-! ## Texts of a value -/

/-- The reader accepts the tokens of the values that keep to the bound, and no other
    tokens. -/
theorem ofTokens?_eq_some_iff {limit : Nat} {ts : List Token} {j : Json} :
    ofTokens? limit ts = some j ↔ ts = j.tokens ∧ j.nesting ≤ limit := by
  have hpass : ∀ j : Json, Reader.run? limit (.value []) j.tokens
      = if j.nesting ≤ limit then some (.follow [] j) else none := by
    intro j
    simpa [Reader.run?] using Reader.run?_tokens j [] [] (Nat.zero_le limit)
  constructor
  · intro h
    obtain ⟨r, hr, hj⟩ := Option.bind_eq_some_iff.mp h
    unfold Reader.result? at hj
    split at hj
    · cases hj
      have hts : j.tokens = ts := Reader.consumed_run hr
      subst hts
      refine ⟨rfl, ?_⟩
      by_contra hdeep
      rw [hpass, if_neg hdeep] at hr
      cases hr
    · cases hj
  · rintro ⟨rfl, hj⟩
    rw [ofTokens?, hpass, if_pos hj]
    rfl

/-- What reading a text gives is the canonical form of the value that the text spells;
    it succeeds exactly if there is such a value and it keeps to the bound. -/
theorem read?_eq_some_iff {limit : Nat} {text : String} {v : Json} :
    read? limit text = some v ↔ ∃ j, Spells text j ∧ j.nesting ≤ limit ∧ j.canonical = v := by
  rw [read?, Option.map_eq_some_iff]
  refine exists_congr fun j => ?_
  rw [Option.bind_eq_some_iff, ← and_assoc, and_congr_left_iff]
  intro _
  constructor
  · rintro ⟨ts, hts, hj⟩
    obtain ⟨rfl, hlimit⟩ := ofTokens?_eq_some_iff.mp hj
    exact ⟨tokens?_eq_some_iff.mp hts, hlimit⟩
  · rintro ⟨htext, hlimit⟩
    exact ⟨j.tokens, tokens?_eq_some_iff.mpr htext, ofTokens?_eq_some_iff.mpr ⟨rfl, hlimit⟩⟩

/-- A text spells one value at most. -/
theorem spells_unique {text : String} {j k : Json} (hj : Spells text j) (hk : Spells text k) :
    j = k := by
  -- Bounded by the nesting of both, reading the tokens gives each of them.
  have hbound := ofTokens?_eq_some_iff.mpr ⟨rfl, Nat.le_max_left j.nesting k.nesting⟩
  have hread := ofTokens?_eq_some_iff.mpr ⟨rfl, Nat.le_max_right j.nesting k.nesting⟩
  have htokens : j.tokens = k.tokens :=
    Option.some.inj ((tokens?_eq_some_iff.mpr hj).symm.trans (tokens?_eq_some_iff.mpr hk))
  rw [htokens, hread] at hbound
  exact (Option.some.inj hbound).symm

/-- A text that spells a value is read if the value keeps to the bound. -/
theorem read?_of_spells {limit : Nat} {text : String} {j : Json} (h : Spells text j) :
    read? limit text = if j.nesting ≤ limit then some j.canonical else none := by
  by_cases hlimit : j.nesting ≤ limit
  · rw [if_pos hlimit]
    exact read?_eq_some_iff.mpr ⟨j, h, hlimit, rfl⟩
  · rw [if_neg hlimit, Option.eq_none_iff_forall_ne_some]
    intro v hv
    obtain ⟨k, hk, hle, -⟩ := read?_eq_some_iff.mp hv
    rw [spells_unique hk h] at hle
    exact hlimit hle

end Json

end MuxHoist
