/-
  MuxHoist.Proofs.Requests

  The program from its arguments to its answer. It looks at no file but the one that the
  arguments name, and answers a command as that command answers the bytes of this file.
  Main statement: the document that one request prints is a file again; requests on it are
  answered like requests on the first file, unless it nests too deep, and then the answer
  says so (`answer_stable`).
-/
import MuxHoist.Proofs.Arguments
import MuxHoist.Proofs.StableOutput

namespace MuxHoist

namespace CommandLine

open Interchange (nestingLimit ofTree write)

variable {w : Words} {files : String → Except ReadFailure ByteArray} {args : List String}
  {c : Command} {file : String}

/-! ## Files -/

/-- Only the file that the arguments name counts for the answer. -/
theorem answer_congr {files' : String → Except ReadFailure ByteArray}
    (h : ∀ file, (Request.ofArguments args).file? = some file → files file = files' file) :
    answer w files args = answer w files' args := by
  unfold answer
  cases hrequest : Request.ofArguments args with
  | run c file =>
    rw [hrequest] at h
    simp only [h file rfl]
  | _ => rfl

theorem answer_of_readable (hargs : Request.ofArguments args = .run c file) {bytes : ByteArray}
    (hfile : files file = .ok bytes) :
    answer w files args = c.answerBytes w.diagnosis file bytes := by
  simp only [answer, hargs, hfile]

theorem answer_of_unreadable (hargs : Request.ofArguments args = .run c file)
    {reason : ReadFailure} (hfile : files file = .error reason) :
    answer w files args = c.unread file reason.text := by
  simp only [answer, hargs, hfile]

/-! ## Answers -/

/-- All commands on one file print the same hoisted tree, each in its own way, or have
    the same to report. -/
theorem answer_cases (w : Words) (files : String → Except ReadFailure ByteArray)
    (file : String) :
    (∃ tree hoisted, Expr.hoist? tree = .ok hoisted ∧
        ∀ {args c}, Request.ofArguments args = .run c file →
          answer w files args = success (c.output hoisted)) ∨
      ∃ report details, ∀ {args c}, Request.ofArguments args = .run c file →
        answer w files args
          = failure ((programName ++ ": " ++ c.name ++ ": " ++ report) :: details) := by
  cases hfile : files file with
  | error reason =>
    right
    refine ⟨"Failed to read " ++ file ++ ": " ++ reason.text, [], fun {args c} hargs => ?_⟩
    rw [answer_of_unreadable hargs hfile]
    simp only [Command.unread, String.append_assoc]
    rfl
  | ok bytes =>
    rcases answerBytes_cases w.diagnosis file bytes with
      ⟨tree, hoisted, htree, hsuccess⟩ | ⟨report, details, hfailure⟩
    · refine .inl ⟨tree, hoisted, htree, fun hargs => ?_⟩
      rw [answer_of_readable hargs hfile, hsuccess]
    · refine .inr ⟨report, details, fun hargs => ?_⟩
      rw [answer_of_readable hargs hfile, hfailure]

/-- A request that prints a document prints it for all requests to come: on a file that
    holds what was printed, whatever it is called and whichever files there are then, every
    command answers as it does on the first file. If the document nests too deep, every
    command refuses it as no document. -/
theorem answer_stable (hargs : Request.ofArguments args = .run (.hoist .json) file)
    (hstatus : (answer w files args).status = 0) :
    ∃ document j, (answer w files args).stdout = document ++ "\n" ∧ Json.Spells document j ∧
      ∀ {later copy} {files' : String → Except ReadFailure ByteArray} {c : Command},
        Request.ofArguments later = .run c copy →
        files' copy = .ok (document ++ "\n").toUTF8 →
        if j.nesting ≤ nestingLimit then
          ∀ {first}, Request.ofArguments first = .run c file →
            answer w files' later = answer w files first
        else
          ∃ fault : TreeError, fault.category = .json ∧
            answer w files' later = failure [programName ++ ": " ++ c.name ++ ": "
              ++ fault.display, "  input: " ++ copy] := by
  rcases answer_cases w files file with
    ⟨tree, hoisted, htree, hsuccess⟩ | ⟨report, details, hfailure⟩
  · refine ⟨write hoisted, ofTree hoisted, ?_, Interchange.spells_ofTree hoisted, ?_⟩
    · rw [hsuccess hargs]
      rfl
    · intro later copy files' c hlater hcopy
      rw [answer_of_readable hlater hcopy, answerBytes_document htree]
      by_cases hlimit : (ofTree hoisted).nesting ≤ nestingLimit
      · rw [if_pos hlimit, if_pos hlimit]
        intro first hfirst
        rw [hsuccess hfirst]
      · rw [if_neg hlimit, if_neg hlimit]
        exact ⟨_, rfl, rfl⟩
  · rw [hfailure hargs] at hstatus
    exact absurd hstatus Nat.one_ne_zero

end CommandLine

end MuxHoist
