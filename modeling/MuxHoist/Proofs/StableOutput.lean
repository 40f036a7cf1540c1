/-
  MuxHoist.Proofs.StableOutput

  The output of the command line as its input. All commands do the same with a file
  up to the hoisted tree, and differ in what they print of it; so they succeed on the
  same files, and where they fail they report the same. The printed document of a
  hoisted tree is a file again. Main statement: on that file the commands print what
  they printed before, unless it nests too deep to be read, and then they say so
  (`answerBytes_stable`).
-/
import MuxHoist.CommandLine
import MuxHoist.Proofs.NormalForm
import MuxHoist.Proofs.RoundTrip

namespace MuxHoist

namespace Interchange

/-! ## Documents with a final line break -/

theorem spells_line {text : String} {j : Json} (h : Json.Spells text j) :
    Json.Spells (text ++ "\n") j := by
  have hline : (text ++ "\n").toList = text.toList ++ ['\n'] := String.toList_append
  rw [Json.Spells, hline]
  exact h.append_blank (by decide) (by decide)

/-- The line of a document is read as the tree it was written for, if the reader bears
    its nesting. -/
theorem read_line (d : Diagnosis) (tree : Option Expr) :
    read d (write tree ++ "\n")
      = if (ofTree tree).nesting ≤ nestingLimit then .ok tree
        else .error (.notJson (d.ofText (write tree ++ "\n"))) :=
  read_of_spells_ofTree d (spells_line (spells_ofTree tree))

end Interchange

namespace CommandLine

open Interchange (Diagnosis nestingLimit ofTree write)

/-! ## Hoisted trees as input -/

theorem hoist?_of_hoist? {tree hoisted : Option Expr} (h : Expr.hoist? tree = .ok hoisted) :
    Expr.hoist? hoisted = .ok hoisted := by
  refine Expr.hoistArm_of_isHoisted fun u hu => ?_
  obtain ⟨e, -, he⟩ := exists_rel_of_mem (Expr.hoistArm_eq_ok.mp h) hu
  exact Expr.isHoisted_of_hoist he

/-- The line of a tree comes to what the tree does, if the reader bears its nesting. -/
theorem hoistText_line (d : Diagnosis) (tree : Option Expr) :
    hoistText d (write tree ++ "\n")
      = if (ofTree tree).nesting ≤ nestingLimit then Expr.hoist? tree
        else .error (.notJson (d.ofText (write tree ++ "\n"))) := by
  rw [hoistText, Interchange.read_line]
  by_cases hlimit : (ofTree tree).nesting ≤ nestingLimit
  · simp only [if_pos hlimit]
    rfl
  · simp only [if_neg hlimit]
    rfl

/-! ## Files -/

theorem fromUTF8?_toUTF8 (s : String) : String.fromUTF8? s.toUTF8 = some s := by
  have hvalid : s.toUTF8.IsValidUTF8 := s.isValidUTF8
  rw [String.fromUTF8?, dif_pos hvalid]
  rfl

theorem answerBytes_toUTF8 (c : Command) (d : Diagnosis) (file text : String) :
    c.answerBytes d file text.toUTF8 = c.answer d file text := by
  rw [Command.answerBytes, fromUTF8?_toUTF8]

/-- Every file comes to a hoisted tree, which each command prints in its own way, or to
    one report for all commands. -/
theorem answerBytes_cases (d : Diagnosis) (file : String) (bytes : ByteArray) :
    (∃ tree hoisted, Expr.hoist? tree = .ok hoisted ∧
        ∀ c : Command, c.answerBytes d file bytes = success (c.output hoisted)) ∨
      ∃ report details, ∀ c : Command, c.answerBytes d file bytes
        = failure ((programName ++ ": " ++ c.name ++ ": " ++ report) :: details) := by
  cases htext : String.fromUTF8? bytes with
  | none =>
    right
    refine ⟨"Failed to read " ++ file ++ ": stream did not contain valid UTF-8", [], fun c => ?_⟩
    rw [Command.answerBytes, htext]
    simp only [Command.unread, String.append_assoc]
    rfl
  | some text =>
    have hanswer : ∀ c : Command, c.answerBytes d file bytes = c.answer d file text := by
      intro c
      rw [Command.answerBytes, htext]
    cases hresult : hoistText d text with
    | ok hoisted =>
      left
      obtain ⟨tree, -, htree⟩ := bind_eq_ok.mp hresult
      refine ⟨tree, hoisted, htree, fun c => ?_⟩
      rw [hanswer, Command.answer, hresult]
    | error fault =>
      right
      refine ⟨fault.display, ["  input: " ++ file], fun c => ?_⟩
      rw [hanswer, Command.answer, hresult]

/-- Where the printing of the document succeeds, there is a hoisted tree behind it. -/
theorem exists_hoisted_of_status {d : Diagnosis} {file : String} {bytes : ByteArray}
    (h : ((Command.hoist .json).answerBytes d file bytes).status = 0) :
    ∃ tree hoisted, Expr.hoist? tree = .ok hoisted ∧
      ∀ c : Command, c.answerBytes d file bytes = success (c.output hoisted) := by
  rcases answerBytes_cases d file bytes with hsuccess | ⟨report, details, hfailure⟩
  · exact hsuccess
  · rw [hfailure] at h
    exact absurd h Nat.one_ne_zero

/-- The document printed for a hoisted tree is a file for which each command prints that
    tree, or, if it nests too deep, refuses it as no document. -/
theorem answerBytes_document {tree hoisted : Option Expr} (h : Expr.hoist? tree = .ok hoisted)
    (c : Command) (d : Diagnosis) (copy : String) :
    c.answerBytes d copy (write hoisted ++ "\n").toUTF8
      = if (ofTree hoisted).nesting ≤ nestingLimit then success (c.output hoisted)
        else failure [programName ++ ": " ++ c.name ++ ": "
            ++ (TreeError.notJson (d.ofText (write hoisted ++ "\n"))).display,
          "  input: " ++ copy] := by
  rw [answerBytes_toUTF8, Command.answer, hoistText_line, hoist?_of_hoist? h]
  by_cases hlimit : (ofTree hoisted).nesting ≤ nestingLimit
  · rw [if_pos hlimit, if_pos hlimit]
  · rw [if_neg hlimit, if_neg hlimit]

/-- The document printed for a file is itself a file on which every command answers as
    it did before, whatever the file is called; if it nests too deep, every command
    refuses it as no document. All commands succeed on the same files, and where they
    fail they report the same. -/
theorem answerBytes_stable (d : Diagnosis) (file : String) (bytes : ByteArray) :
    (((Command.hoist .json).answerBytes d file bytes).status = 0 →
      ∃ document j,
        (Command.hoist .json).answerBytes d file bytes = success (document ++ "\n") ∧
        Json.Spells document j ∧
        ∀ (c : Command) (copy : String),
          let again := c.answerBytes d copy (document ++ "\n").toUTF8
          if j.nesting ≤ nestingLimit then
            again = c.answerBytes d file bytes ∧ again.status = 0
          else
            ∃ fault : TreeError, fault.category = .json ∧
              again = failure [programName ++ ": " ++ c.name ++ ": " ++ fault.display,
                "  input: " ++ copy]) ∧
    ((∃ tree, ∀ c : Command, c.answerBytes d file bytes = success (c.output tree)) ∨
      ∃ report details, ∀ c : Command, c.answerBytes d file bytes
        = failure ((programName ++ ": " ++ c.name ++ ": " ++ report) :: details)) := by
  refine ⟨fun hstatus => ?_, ?_⟩
  · obtain ⟨tree, hoisted, htree, hsuccess⟩ := exists_hoisted_of_status hstatus
    refine ⟨write hoisted, ofTree hoisted, hsuccess _, Interchange.spells_ofTree hoisted,
      fun c copy => ?_⟩
    rw [answerBytes_document htree, hsuccess]
    by_cases hlimit : (ofTree hoisted).nesting ≤ nestingLimit
    · rw [if_pos hlimit, if_pos hlimit]
      exact ⟨rfl, rfl⟩
    · rw [if_neg hlimit, if_neg hlimit]
      exact ⟨_, rfl, rfl⟩
  · rcases answerBytes_cases d file bytes with ⟨tree, hoisted, -, hsuccess⟩ | hfailure
    · exact .inl ⟨hoisted, hsuccess⟩
    · exact .inr hfailure

/-- A conditional next to a tower of delays, before and after hoisting: what is printed
    nests two levels deeper, since the tower has come under an arm. Sixty delays are read
    back from it, and sixty-one are not, though they were read at first. -/
theorem answerBytes_stable_tower :
    let d : Diagnosis :=
      ⟨fun _ => "recursion limit exceeded at line 203 column 264", fun _ => ""⟩
    let c : Expr := .leaf none (.terminal "c")
    let tower (n : Nat) : Expr := (List.replicate n none).foldr Expr.delay (.leaf none .undefined)
    let plain (n : Nat) : Option Expr :=
      some (.compound none .concat [.branch none c (some c) none, tower n])
    let hoisted (n : Nat) : Option Expr :=
      some (.branch none c (some (.compound none .concat [c, tower n])) none)
    let file (n : Nat) : ByteArray := (write (plain n) ++ "\n").toUTF8
    let printed (n : Nat) : ByteArray := (write (hoisted n) ++ "\n").toUTF8
    (∀ n ∈ [60, 61], (Command.hoist .json).answerBytes d "plain.json" (file n)
        = success (write (hoisted n) ++ "\n")) ∧
      (∀ c : Command,
        c.answerBytes d "copy.json" (printed 60) = c.answerBytes d "plain.json" (file 60)) ∧
      ∀ c : Command, (c.answerBytes d "copy.json" (printed 61)).status = 1 ∧
        (c.answerBytes d "copy.json" (printed 61)).stdout = "" := by
  intro d c tower plain hoisted file printed
  have hfile : ∀ n ∈ [60, 61], (Command.hoist .json).answerBytes d "plain.json" (file n)
      = success (write (hoisted n) ++ "\n") := by
    intro n hn
    have hread : (ofTree (plain n)).nesting ≤ nestingLimit := by
      revert n; decide +kernel
    have hhoist : Expr.hoist? (plain n) = .ok (hoisted n) := by
      revert n; decide +kernel
    rw [answerBytes_toUTF8, Command.answer, hoistText_line, if_pos hread, hhoist]
    rfl
  -- What is printed fixes the document, and the document its value.
  have hcopy : ∀ bytes document j,
      (Command.hoist .json).answerBytes d "plain.json" bytes = success (document ++ "\n") →
      Json.Spells document j → ∀ c : Command,
        if j.nesting ≤ nestingLimit then
          c.answerBytes d "copy.json" (document ++ "\n").toUTF8 = c.answerBytes d "plain.json" bytes
        else (c.answerBytes d "copy.json" (document ++ "\n").toUTF8).status = 1 ∧
          (c.answerBytes d "copy.json" (document ++ "\n").toUTF8).stdout = "" := by
    intro bytes document j hdocument hj c
    obtain ⟨document', j', hdocument', hj', hagain⟩ :=
      (answerBytes_stable d "plain.json" bytes).1 (by rw [hdocument]; rfl)
    obtain rfl : document = document' :=
      (String.append_left_inj "\n").mp
        (congrArg Outcome.stdout (hdocument.symm.trans hdocument'))
    obtain rfl := Json.spells_unique hj hj'
    specialize hagain c "copy.json"
    by_cases hlimit : j.nesting ≤ nestingLimit
    · rw [if_pos hlimit] at hagain ⊢
      exact hagain.1
    · rw [if_neg hlimit] at hagain ⊢
      obtain ⟨fault, -, hfault⟩ := hagain
      rw [hfault]
      exact ⟨rfl, rfl⟩
  have hnesting : (ofTree (hoisted 60)).nesting ≤ nestingLimit ∧
      ¬ (ofTree (hoisted 61)).nesting ≤ nestingLimit := by
    decide +kernel
  -- Nothing more is needed of the two trees.
  clear_value hoisted
  refine ⟨hfile, fun c => ?_, fun c => ?_⟩
  · have h := hcopy _ _ _ (hfile 60 (by decide)) (Interchange.spells_ofTree _) c
    rwa [if_pos hnesting.1] at h
  · have h := hcopy _ _ _ (hfile 61 (by decide)) (Interchange.spells_ofTree _) c
    rwa [if_neg hnesting.2] at h

end CommandLine

end MuxHoist
