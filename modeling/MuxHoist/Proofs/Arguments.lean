/-
  MuxHoist.Proofs.Arguments

  What a list of arguments asks for. The arguments of a command are items, each the file
  or a format in one of its two forms, and perhaps two minus signs with files behind them
  (`Invocation`). A draft takes them one by one; one item is one step, both ways
  (`arguments_add`, `exists_fits_add`). Main statement: arguments ask for a command on a
  file exactly if they are the command's name followed by an invocation with this file and
  at most one format (`ofArguments_eq_run_iff`).
-/
import MuxHoist.CommandLine

namespace MuxHoist

namespace CommandLine

/-! ## Invocations -/

/-- The name of a format. -/
def Format.name : Format → String
  | .json => "json"
  | .text => "text"

/-- What may stand among the arguments of a command. -/
inductive Item where
  | file (name : String)
  /-- A format joined to its option. -/
  | joined (format : Format)
  /-- A format as the argument after its option. -/
  | apart (format : Format)
  deriving Repr, DecidableEq

namespace Item

/-- The arguments that give an item. -/
def args : Item → List String
  | .file name => [name]
  | .joined format => ["--format=" ++ format.name]
  | .apart format => ["--format", format.name]

def file? : Item → Option String
  | .file name => some name
  | _ => none

def format? : Item → Option Format
  | .file _ => none
  | .joined format | .apart format => some format

end Item

/-- The arguments after a command's name, sorted out: items in any order, then perhaps
    two minus signs and what can only be files behind them. -/
structure Invocation where
  items : List Item
  plain : Option (List String)
  deriving Repr, DecidableEq

namespace Invocation

def args (i : Invocation) : List String :=
  i.items.flatMap Item.args ++ (i.plain.map ("--" :: ·)).getD []

def files (i : Invocation) : List String := i.items.filterMap Item.file? ++ i.plain.getD []

def formats (i : Invocation) : List Format := i.items.filterMap Item.format?

theorem args_cons {item : Item} {items : List Item} {plain : Option (List String)} :
    args ⟨item :: items, plain⟩ = item.args ++ args ⟨items, plain⟩ := by
  rw [args, List.flatMap_cons, List.append_assoc]
  rfl

/-- What looks like a flag is a file only behind the two minus signs. -/
def NoFlags (i : Invocation) : Prop := ∀ name, Item.file name ∈ i.items → isFlag name = false

theorem noFlags_cons_iff {item : Item} {items : List Item} {plain : Option (List String)} :
    NoFlags ⟨item :: items, plain⟩ ↔
      (∀ name, item = .file name → isFlag name = false) ∧ NoFlags ⟨items, plain⟩ := by
  simp only [NoFlags, List.mem_cons, or_imp, forall_and, eq_comm]

end Invocation

/-- Tells whether a command is asked for with these formats: hoisting with one at most,
    where the document form is the default, and the other command with none. -/
def Command.Takes : Command → List Format → Prop
  | .hoist format, formats => formats = [format] ∨ formats = [] ∧ format = .json
  | .leaves, formats => formats = []

/-! ## Flags and names -/

theorem startsWith_iff {word text : String} :
    startsWith word text = true ↔ ∃ rest, text = word ++ rest := by
  rw [startsWith, List.isPrefixOf_iff_prefix]
  constructor
  · rintro ⟨rest, hrest⟩
    refine ⟨String.ofList rest, String.toList_inj.mp ?_⟩
    rw [String.toList_append, String.toList_ofList, hrest]
  · rintro ⟨rest, rfl⟩
    exact ⟨rest.toList, String.toList_append.symm⟩

theorem isFlag_iff {arg : String} : isFlag arg = true ↔ ∃ rest, rest ≠ "" ∧ arg = "-" ++ rest := by
  rw [isFlag, Bool.and_eq_true, bne_iff_ne, startsWith_iff]
  constructor
  · rintro ⟨⟨rest, rfl⟩, hne⟩
    exact ⟨rest, fun hempty => hne (by rw [hempty]; rfl), rfl⟩
  · rintro ⟨rest, hrest, rfl⟩
    exact ⟨⟨rest, rfl⟩, fun h => hrest ((String.append_right_inj "-").mp h)⟩

theorem isFlag_append {word : String} (h : isFlag word = true) (rest : String) :
    isFlag (word ++ rest) = true := by
  obtain ⟨w, hw, rfl⟩ := isFlag_iff.mp h
  rw [String.append_assoc]
  exact isFlag_iff.mpr ⟨w ++ rest, fun hempty => hw (String.append_eq_empty_iff.mp hempty).1, rfl⟩

theorem isFlag_of_isHelp {arg : String} (h : isHelp arg = true) : isFlag arg = true := by
  rw [isHelp, Bool.or_eq_true, decide_eq_true_iff] at h
  rcases h with rfl | h
  · decide
  · obtain ⟨rest, rfl⟩ := startsWith_iff.mp h
    exact isFlag_append (by decide) rest

theorem toList_joined (value : String) :
    ("--format=" ++ value).toList = ['-', '-', 'f', 'o', 'r', 'm', 'a', 't', '='] ++ value.toList :=
  String.toList_append

theorem joined_ne {word : String} (h : startsWith "--format=" word = false) (value : String) :
    "--format=" ++ value ≠ word := by
  rintro rfl
  rw [startsWith_iff.mpr ⟨value, rfl⟩] at h
  cases h

theorem isHelp_joined (value : String) : isHelp ("--format=" ++ value) = false := by
  rw [isHelp, decide_eq_false (joined_ne (by decide) value), startsWith, toList_joined]
  rfl

theorem formatFlag?_joined (value : String) :
    formatFlag? ("--format=" ++ value) = some (.joined value) := by
  rw [formatFlag?, if_neg (joined_ne (by decide) value), if_pos (startsWith_iff.mpr ⟨value, rfl⟩),
    toList_joined]
  exact congrArg (fun v => some (FormatFlag.joined v)) String.ofList_toList

theorem formatFlag?_eq_some {arg : String} {flag : FormatFlag} (h : formatFlag? arg = some flag) :
    arg = "--format" ∧ flag = .next ∨
      ∃ value, arg = "--format=" ++ value ∧ flag = .joined value := by
  by_cases hnext : arg = "--format"
  · subst hnext
    cases h
    exact .inl ⟨rfl, rfl⟩
  · have hjoined : startsWith "--format=" arg = true := by
      rw [formatFlag?, if_neg hnext] at h
      split at h
      · next hjoined => exact hjoined
      · cases h
    obtain ⟨value, rfl⟩ := startsWith_iff.mp hjoined
    rw [formatFlag?_joined] at h
    cases h
    exact .inr ⟨value, rfl, rfl⟩

theorem ofName?_eq_some_iff {name : String} {format : Format} :
    Format.ofName? name = some format ↔ name = format.name := by
  constructor
  · intro h
    unfold Format.ofName? at h
    split at h <;> cases h <;> rfl
  · rintro rfl
    cases format <;> rfl

/-! ## Drafts -/

namespace Draft

theorem withFile?_eq_some_iff {d d' : Draft} {file : String} :
    d.withFile? file = some d' ↔ d.file = none ∧ { d with file := some file } = d' := by
  rw [withFile?]
  cases d.file with
  | none => simp
  | some => simp

theorem withFormat?_name_eq_some_iff {d d' : Draft} {format : Format} :
    d.withFormat? format.name = some d' ↔
      d.format = none ∧ { d with format := some format } = d' := by
  rw [withFormat?, ofName?_eq_some_iff.mpr rfl]
  cases d.format with
  | none => simp
  | some => simp

theorem exists_name_of_withFormat? {d d' : Draft} {name : String}
    (h : d.withFormat? name = some d') : ∃ format : Format, name = format.name := by
  rw [withFormat?] at h
  split at h
  · cases h
  · obtain ⟨format, hformat, -⟩ := Option.map_eq_some_iff.mp h
    exact ⟨format, ofName?_eq_some_iff.mp hformat⟩

theorem files_eq_run_iff {d : Draft} {names : List String} {c : Command} {file : String} :
    d.files names = .run c file ↔
      d.file.toList ++ names = [file] ∧ c = d.command d.format := by
  induction names generalizing d with
  | nil =>
    rw [files, finish]
    cases d.file with
    | none => simp
    | some name => simp [and_comm, eq_comm]
  | cons name names ih =>
    rw [files, withFile?]
    cases d.file with
    | none => simp [ih]
    | some other => simp

/-- The draft after an item, if the item can stand there. -/
def add? (d : Draft) : Item → Option Draft
  | .file name => if isFlag name then none else d.withFile? name
  | .joined format | .apart format => if d.takesFormat then d.withFormat? format.name else none

theorem add?_file_eq_some_iff {d d' : Draft} {name : String} :
    d.add? (.file name) = some d' ↔
      isFlag name = false ∧ d.file = none ∧ { d with file := some name } = d' := by
  rw [add?]
  split
  · next hflag => simp [hflag]
  · next hflag => rw [withFile?_eq_some_iff, Bool.eq_false_iff, and_iff_right hflag]

theorem add?_format_eq_some_iff {d d' : Draft} {item : Item} {format : Format}
    (h : item.format? = some format) :
    d.add? item = some d' ↔
      d.takesFormat = true ∧ d.format = none ∧ { d with format := some format } = d' := by
  have hadd : d.add? item = if d.takesFormat then d.withFormat? format.name else none := by
    cases item <;> cases h <;> rfl
  rw [hadd]
  split
  · next htakes => rw [withFormat?_name_eq_some_iff, and_iff_right htakes]
  · next htakes => simp [htakes]

/-- Tells whether an invocation completes a draft to a command on a file. -/
structure Fits (d : Draft) (i : Invocation) (c : Command) (file : String) : Prop where
  noFlags : i.NoFlags
  takesFormat : i.formats ≠ [] → d.takesFormat = true
  oneFile : d.file.toList ++ i.files = [file]
  oneFormat : (d.format.toList ++ i.formats).length ≤ 1
  command : c = d.command (d.format.toList ++ i.formats).head?

theorem fits_nil_iff {d : Draft} {plain : Option (List String)} {c : Command} {file : String} :
    d.Fits ⟨[], plain⟩ c file ↔ d.files (plain.getD []) = .run c file := by
  rw [files_eq_run_iff]
  constructor
  · intro h
    have hfiles := h.oneFile
    have hcommand := h.command
    simp only [Invocation.files, Invocation.formats, List.filterMap_nil, List.nil_append,
      List.append_nil, Option.head?_toList] at hfiles hcommand
    exact ⟨hfiles, hcommand⟩
  · rintro ⟨hfiles, hcommand⟩
    refine ⟨nofun, fun hne => absurd rfl hne, hfiles, ?_, ?_⟩
    · cases d.format <;> simp [Invocation.formats]
    · simpa [Invocation.formats] using hcommand

theorem fits_file_iff {d : Draft} {name : String} {items : List Item}
    {plain : Option (List String)} {c : Command} {file : String} :
    d.Fits ⟨.file name :: items, plain⟩ c file ↔
      isFlag name = false ∧ d.file = none ∧
        { d with file := some name }.Fits ⟨items, plain⟩ c file := by
  constructor
  · intro h
    obtain ⟨hflag, hflags⟩ := Invocation.noFlags_cons_iff.mp h.noFlags
    have hone := h.oneFile
    cases hfile : d.file with
    | some other => simp [hfile, Invocation.files, Item.file?] at hone
    | none =>
      refine ⟨hflag name rfl, rfl, hflags, h.takesFormat, ?_, h.oneFormat, h.command⟩
      simpa [hfile, Invocation.files, Item.file?] using hone
  · rintro ⟨hflag, hfile, h⟩
    refine ⟨Invocation.noFlags_cons_iff.mpr ⟨?_, h.noFlags⟩, h.takesFormat, ?_, h.oneFormat,
      h.command⟩
    · rintro _ ⟨⟩
      exact hflag
    · simpa [hfile, Invocation.files, Item.file?] using h.oneFile

theorem fits_format_iff {d : Draft} {item : Item} {format : Format} (hfile : item.file? = none)
    (hformat : item.format? = some format) {items : List Item} {plain : Option (List String)}
    {c : Command} {file : String} :
    d.Fits ⟨item :: items, plain⟩ c file ↔
      d.takesFormat = true ∧ d.format = none ∧
        { d with format := some format }.Fits ⟨items, plain⟩ c file := by
  have hfiles : Invocation.files ⟨item :: items, plain⟩ = Invocation.files ⟨items, plain⟩ := by
    rw [Invocation.files, List.filterMap_cons_none hfile]
    rfl
  have hformats : Invocation.formats ⟨item :: items, plain⟩
      = format :: Invocation.formats ⟨items, plain⟩ := List.filterMap_cons_some hformat
  constructor
  · intro h
    have hatMost := h.oneFormat
    have hcommand := h.command
    have htakes : d.takesFormat = true := h.takesFormat (hformats ▸ List.cons_ne_nil _ _)
    rw [hformats] at hatMost hcommand
    cases hearlier : d.format with
    | some other => simp [hearlier] at hatMost
    | none =>
      rw [hearlier] at hatMost hcommand
      refine ⟨htakes, rfl, ?_⟩
      exact {
        noFlags := (Invocation.noFlags_cons_iff.mp h.noFlags).2
        takesFormat := fun _ => htakes
        oneFile := hfiles ▸ h.oneFile
        oneFormat := hatMost
        command := hcommand }
  · rintro ⟨htakes, hearlier, h⟩
    have hatMost := h.oneFormat
    have hcommand := h.command
    refine ⟨Invocation.noFlags_cons_iff.mpr ⟨?_, h.noFlags⟩, fun _ => htakes,
      hfiles.symm ▸ h.oneFile, ?_, ?_⟩
    · rintro name rfl
      cases hfile
    · rw [hearlier, hformats]
      exact hatMost
    · rw [hearlier, hformats]
      exact hcommand

/-- An item can stand first exactly if it can be added to the draft and the rest fits the
    draft that this gives. -/
theorem fits_cons_iff {d : Draft} {item : Item} {items : List Item}
    {plain : Option (List String)} {c : Command} {file : String} :
    d.Fits ⟨item :: items, plain⟩ c file ↔
      ∃ d', d.add? item = some d' ∧ d'.Fits ⟨items, plain⟩ c file := by
  cases item with
  | file name =>
    rw [fits_file_iff]
    simp only [add?_file_eq_some_iff, and_assoc, exists_and_left, exists_eq_left']
  | joined format | apart format =>
    rw [fits_format_iff rfl rfl]
    constructor
    · rintro ⟨htakes, hearlier, h⟩
      exact ⟨_, (add?_format_eq_some_iff rfl).mpr ⟨htakes, hearlier, rfl⟩, h⟩
    · rintro ⟨d', hadd, h⟩
      obtain ⟨htakes, hearlier, rfl⟩ := (add?_format_eq_some_iff rfl).mp hadd
      exact ⟨htakes, hearlier, h⟩

/-! ## All arguments -/

/-- The arguments of an item in front are read as this item. -/
theorem arguments_add {d d' : Draft} {item : Item} (h : d.add? item = some d')
    (rest : List String) : d.arguments (item.args ++ rest) = d'.arguments rest := by
  cases item with
  | file name =>
    rw [add?] at h
    split at h
    · cases h
    · next hflag =>
      have hplain : name ≠ "--" := fun heq => hflag (by rw [heq]; decide)
      have hhelp : ¬ isHelp name = true := fun hhelp => hflag (isFlag_of_isHelp hhelp)
      rw [Item.args, List.singleton_append, arguments.eq_def]
      dsimp only
      rw [if_neg hplain, if_neg hhelp, if_neg hflag, h]
  | joined format =>
    rw [add?] at h
    split at h
    · next htakes =>
      have hhelp : ¬ isHelp ("--format=" ++ format.name) = true :=
        Bool.eq_false_iff.mp (isHelp_joined _)
      rw [Item.args, List.singleton_append, arguments.eq_def]
      dsimp only
      rw [if_neg (joined_ne (by decide) _), if_neg hhelp, if_pos (isFlag_append (by decide) _),
        if_pos htakes, formatFlag?_joined]
      simp only [h]
    · cases h
  | apart format =>
    rw [add?] at h
    split at h
    · next htakes =>
      rw [Item.args, List.cons_append, List.singleton_append, arguments]
      simp [isHelp, isFlag, startsWith, htakes, formatFlag?, h]
    · cases h

/-- An item is put in front of arguments that have been sorted out. -/
theorem exists_fits_add {d d' : Draft} {item : Item} (hadd : d.add? item = some d')
    {rest : List String} {c : Command} {file : String}
    (h : ∃ i : Invocation, i.args = rest ∧ d'.Fits i c file) :
    ∃ i : Invocation, i.args = item.args ++ rest ∧ d.Fits i c file := by
  obtain ⟨i, rfl, hfits⟩ := h
  exact ⟨⟨item :: i.items, i.plain⟩, Invocation.args_cons, fits_cons_iff.mpr ⟨d', hadd, hfits⟩⟩

/-- Arguments that ask for a command can be sorted out. -/
theorem exists_fits_of_arguments {d : Draft} {args : List String} {c : Command} {file : String}
    (h : d.arguments args = .run c file) : ∃ i : Invocation, i.args = args ∧ d.Fits i c file := by
  -- By the recursion on the arguments: where it goes on, it has taken one item.
  fun_induction Draft.arguments d args with
  | case1 d =>
    exact ⟨⟨[], none⟩, rfl, fits_nil_iff.mpr h⟩
  | case2 d rest =>
    exact ⟨⟨[], some rest⟩, rfl, fits_nil_iff.mpr h⟩
  | case4 d arg rest _ _ _ name hjoined d' hadd ih =>
    split at hjoined
    · next htakes =>
      obtain ⟨-, ⟨⟩⟩ | ⟨_, rfl, ⟨⟩⟩ := formatFlag?_eq_some hjoined
      obtain ⟨format, rfl⟩ := exists_name_of_withFormat? hadd
      have hitem : d.add? (.joined format) = some d' := by rw [add?, if_pos htakes, hadd]
      exact exists_fits_add hitem (ih h)
    · cases hjoined
  | case7 d arg _ _ _ hnext name rest d' hadd ih =>
    split at hnext
    · next htakes =>
      obtain ⟨rfl, -⟩ | ⟨_, -, ⟨⟩⟩ := formatFlag?_eq_some hnext
      obtain ⟨format, rfl⟩ := exists_name_of_withFormat? hadd
      have hitem : d.add? (.apart format) = some d' := by rw [add?, if_pos htakes, hadd]
      exact exists_fits_add hitem (ih h)
    · cases hnext
  | case10 d arg rest _ _ hflag d' hadd ih =>
    have hitem : d.add? (.file arg) = some d' := by rw [add?, if_neg hflag, hadd]
    exact exists_fits_add hitem (ih h)
  -- In all other cases the arguments are answered with help or refused.
  | case3 | case5 | case6 | case8 | case9 | case11 => cases h

/-- Arguments that complete a draft ask for what they complete it to. -/
theorem arguments_of_fits {d : Draft} {i : Invocation} {c : Command} {file : String}
    (h : d.Fits i c file) : d.arguments i.args = .run c file := by
  obtain ⟨items, plain⟩ := i
  induction items generalizing d with
  | nil =>
    have hfiles := fits_nil_iff.mp h
    cases plain with
    | none => exact hfiles
    | some names =>
      rw [Invocation.args, List.flatMap_nil, List.nil_append, arguments.eq_def]
      exact hfiles
  | cons item items ih =>
    obtain ⟨d', hadd, hfits⟩ := fits_cons_iff.mp h
    rw [Invocation.args_cons, arguments_add hadd, ih hfits]

theorem arguments_eq_run_iff {d : Draft} {args : List String} {c : Command} {file : String} :
    d.arguments args = .run c file ↔ ∃ i : Invocation, i.args = args ∧ d.Fits i c file := by
  constructor
  · exact exists_fits_of_arguments
  · rintro ⟨i, rfl, h⟩
    exact arguments_of_fits h

end Draft

/-! ## Requests -/

theorem hoistDraft_fits_iff {i : Invocation} {c : Command} {file : String} :
    hoistDraft.Fits i c file ↔
      i.NoFlags ∧ i.files = [file] ∧ ∃ format, c = .hoist format ∧ c.Takes i.formats := by
  constructor
  · intro h
    have hatMost : i.formats.length ≤ 1 := h.oneFormat
    have hcommand : c = .hoist (i.formats.head?.getD .json) := h.command
    refine ⟨h.noFlags, h.oneFile, _, hcommand, ?_⟩
    rw [hcommand]
    cases hformats : i.formats with
    | nil => exact .inr ⟨rfl, rfl⟩
    | cons format later =>
      rw [hformats, List.length_cons] at hatMost
      rw [List.length_eq_zero_iff.mp (by omega : later.length = 0)]
      exact .inl rfl
  · rintro ⟨hflags, hfile, format, rfl, htakes⟩
    have hcommand : i.formats.length ≤ 1 ∧ format = i.formats.head?.getD .json := by
      rcases htakes with hformats | ⟨hformats, rfl⟩
      · rw [hformats]
        exact ⟨Nat.le_refl 1, rfl⟩
      · rw [hformats]
        exact ⟨Nat.zero_le 1, rfl⟩
    exact {
      noFlags := hflags
      takesFormat := fun _ => rfl
      oneFile := hfile
      oneFormat := hcommand.1
      command := congrArg Command.hoist hcommand.2 }

theorem leavesDraft_fits_iff {i : Invocation} {c : Command} {file : String} :
    leavesDraft.Fits i c file ↔
      i.NoFlags ∧ i.files = [file] ∧ c = .leaves ∧ c.Takes i.formats := by
  constructor
  · intro h
    have hcommand : c = .leaves := h.command
    have hformats : i.formats = [] :=
      Decidable.byContradiction fun hsome => Bool.false_ne_true (h.takesFormat hsome)
    refine ⟨h.noFlags, h.oneFile, hcommand, ?_⟩
    rw [hcommand]
    exact hformats
  · rintro ⟨hflags, hfile, rfl, hformats⟩
    have hnone : i.formats = [] := hformats
    exact {
      noFlags := hflags
      takesFormat := fun hsome => absurd hnone hsome
      oneFile := hfile
      oneFormat := by rw [hnone]; decide
      command := rfl }

/-- Arguments ask for a command on a file exactly if they are its name and then, in any
    order, the file and for hoisting at most one format; behind two minus signs stand
    files only, and a file that looks like a flag can stand nowhere else. -/
theorem ofArguments_eq_run_iff {args : List String} {c : Command} {file : String} :
    Request.ofArguments args = .run c file ↔
      ∃ i : Invocation, args = c.name :: i.args ∧ i.NoFlags ∧ i.files = [file] ∧
        c.Takes i.formats := by
  constructor
  · intro h
    unfold Request.ofArguments at h
    split at h
    · cases h
    · cases h
    · next rest =>
      unfold versionArguments at h
      split at h
      · cases h
      · cases h
      · split at h <;> cases h
    · next rest =>
      obtain ⟨i, rfl, hfits⟩ := Draft.arguments_eq_run_iff.mp h
      obtain ⟨hflags, hfile, format, rfl, htakes⟩ := hoistDraft_fits_iff.mp hfits
      exact ⟨i, rfl, hflags, hfile, htakes⟩
    · next rest =>
      obtain ⟨i, rfl, hfits⟩ := Draft.arguments_eq_run_iff.mp h
      obtain ⟨hflags, hfile, rfl, htakes⟩ := leavesDraft_fits_iff.mp hfits
      exact ⟨i, rfl, hflags, hfile, htakes⟩
    · next rest =>
      unfold helpArguments at h
      split at h
      · cases h
      · split at h <;> cases h
      · cases h
    · split at h
      · cases h
      · split at h <;> cases h
  · rintro ⟨i, rfl, hflags, hfile, htakes⟩
    cases c with
    | hoist format =>
      have hfits := hoistDraft_fits_iff.mpr ⟨hflags, hfile, format, rfl, htakes⟩
      exact Draft.arguments_of_fits hfits
    | leaves =>
      exact Draft.arguments_of_fits (leavesDraft_fits_iff.mpr ⟨hflags, hfile, rfl, htakes⟩)

/-- A file that looks like a flag. -/
example : Request.ofArguments ["reorder", "--format", "text", "--", "-h"]
    = .run (.hoist .text) "-h" := by
  decide

end CommandLine

end MuxHoist
