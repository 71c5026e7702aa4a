import Mathlib.Data.List.Basic
import Mc6800.CommandLine.Command
import Mc6800.Paint

/-!
# Colours on a minimal terminal

An escape sequence shows nothing, and the text behind it is read anew, even where the sequence
stands in the middle of another one (`Text.IsInvisible`). So if inks only add escape sequences to a
text (`AddsSequences`), it shows what it shows without an ink (`AddsSequences.decolour_paint`), and
nothing that a minimal terminal prints depends on colours.
-/

set_option autoImplicit false

namespace Mc6800

namespace Text

/-! ## Escape sequences -/

/-- Nothing is shown of the text, and what follows is read as if it stood alone. -/
def IsInvisible (u : Text) : Prop :=
  ∀ inside t, decolourFrom inside (u ++ t) = decolourFrom false t

theorem IsInvisible.append {u v : Text} (hu : IsInvisible u) (hv : IsInvisible v) :
    IsInvisible (u ++ v) := by
  intro inside t
  rw [List.append_assoc, hu, hv]

/-- The `m` that ends a sequence ends every sequence that it stands in. -/
theorem decolourFrom_body {body : Text} (h : 'm' ∉ body) (t : Text) :
    decolourFrom true (body ++ 'm' :: t) = decolourFrom false t := by
  induction body with
  | nil => rfl
  | cons c rest ih =>
    obtain ⟨hc, hrest⟩ : 'm' ≠ c ∧ 'm' ∉ rest := by simpa using h
    have hinside : (c != 'm') = true := bne_iff_ne.2 hc.symm
    rw [List.cons_append, decolourFrom, if_pos rfl, hinside, ih hrest]

theorem isInvisible_sequence {body : Text} (h : 'm' ∉ body) :
    IsInvisible (escape :: (body ++ ['m'])) := by
  intro inside t
  have hbody : decolourFrom true (body ++ ['m'] ++ t) = decolourFrom false t := by
    rw [List.append_assoc]
    exact decolourFrom_body h t
  rw [List.cons_append, decolourFrom]
  cases inside with
  | false => exact hbody
  | true => exact hbody

theorem isInvisible_resetSequence : IsInvisible resetSequence :=
  @isInvisible_sequence ['[', '0'] (by decide)

/-- Around an escape sequence both sides are read by themselves. -/
theorem IsInvisible.decolourFrom_append {u : Text} (h : IsInvisible u) (inside : Bool)
    (s t : Text) :
    decolourFrom inside (s ++ (u ++ t)) = decolourFrom inside s ++ decolourFrom false t := by
  induction s generalizing inside with
  | nil => exact h inside t
  | cons c rest ih =>
    rw [List.cons_append, decolourFrom, decolourFrom]
    split
    · exact ih _
    · split
      · exact ih _
      · rw [ih, List.cons_append]

/-! ## Inks -/

/-- A text with a sequence set again behind some of the places at which it ends all colours. -/
inductive SetAgain (sequence : Text) : Text → Text → Prop where
  | nil : SetAgain sequence [] []
  | char {t u : Text} (c : Char) (h : SetAgain sequence t u) : SetAgain sequence (c :: t) (c :: u)
  | reset {t u : Text} (h : SetAgain sequence t u) :
      SetAgain sequence (resetSequence ++ t) (resetSequence ++ sequence ++ u)

/-- A sequence that is set again is not seen. -/
theorem SetAgain.decolourFrom_eq {sequence t u : Text} (h : SetAgain sequence t u)
    (hs : IsInvisible sequence) (inside : Bool) :
    decolourFrom inside u = decolourFrom inside t := by
  induction h generalizing inside with
  | nil => rfl
  | char c _ ih => rw [decolourFrom, decolourFrom, ih, ih, ih]
  | @reset t u _ ih =>
    rw [isInvisible_resetSequence.append hs, ih, isInvisible_resetSequence]

theorem setAgain_keepInk (ink : Ink) (t : Text) : SetAgain ink.sequence t (keepInk ink t) := by
  fun_induction keepInk ink t with
  | case1 => exact .nil
  | case2 rest ih => exact .reset ih
  | case3 c rest _ ih => exact .char c ih

/-! ## Texts without escape sequences -/

theorem decolourFrom_sublist (inside : Bool) (t : Text) : (decolourFrom inside t).Sublist t := by
  induction t generalizing inside with
  | nil => exact List.Sublist.refl _
  | cons c rest ih =>
    unfold decolourFrom
    split
    · exact (ih _).cons c
    · split
      · exact (ih _).cons c
      · exact (ih _).cons_cons c

/-- A text without escape characters is shown up to where the next text begins. -/
theorem decolourFrom_append_of_notMem {s : Text} (h : escape ∉ s) (t : Text) :
    decolourFrom false (s ++ t) = s ++ decolourFrom false t := by
  induction s with
  | nil => rfl
  | cons c rest ih =>
    obtain ⟨hc, hrest⟩ : escape ≠ c ∧ escape ∉ rest := by simpa using h
    rw [List.cons_append, decolourFrom, if_neg Bool.false_ne_true, if_neg hc.symm, ih hrest,
      List.cons_append]

theorem decolour_eq_self_iff {t : Text} : decolour t = t ↔ escape ∉ t := by
  constructor
  · intro h
    rw [← h]
    exact escape_notMem_decolourFrom false t
  · intro h
    have hshown := decolourFrom_append_of_notMem h []
    rwa [List.append_nil, show decolourFrom false [] = [] from rfl, List.append_nil] at hshown

/-- A piece of a text with colours. -/
inductive Piece where
  | plain (t : Text) (h : escape ∉ t)
  /-- An escape sequence. Further escape characters may stand in it. -/
  | sequence (body : Text) (h : 'm' ∉ body)

namespace Piece

/-- The piece as it stands in the text. -/
def written : Piece → Text
  | plain t _ => t
  | sequence body _ => escape :: (body ++ ['m'])

/-- What is seen of the piece. -/
def shown : Piece → Text
  | plain t _ => t
  | sequence .. => []

end Piece

theorem decolour_pieces (pieces : List Piece) :
    decolour (pieces.flatMap Piece.written) = pieces.flatMap Piece.shown := by
  induction pieces with
  | nil => rfl
  | cons piece rest ih =>
    rw [List.flatMap_cons, List.flatMap_cons, ← ih]
    cases piece with
    | plain t h => exact decolourFrom_append_of_notMem h _
    | sequence body h => exact isInvisible_sequence h false _

end Text

/-- What is relied on of the way in which texts are shown in an ink. A text is left as it is, or it
is put between an escape sequence and the one that ends all colours, and the first may be set again
where the text ends all colours itself. -/
def AddsSequences (paint : Ink → Text → Text) : Prop :=
  ∀ ink, ∃ body : Text, 'm' ∉ body ∧ ∀ t, paint ink t = t ∨
    ∃ u, Text.SetAgain (escape :: (body ++ ['m'])) t u ∧
      paint ink t = escape :: (body ++ ['m']) ++ u ++ resetSequence

/-- **An ink is not seen without colours**, whatever escape sequences the text has of its own. -/
theorem AddsSequences.decolour_paint {paint : Ink → Text → Text} (h : AddsSequences paint)
    (ink : Ink) (t : Text) : Text.decolour (paint ink t) = Text.decolour t := by
  obtain ⟨body, hbody, hpaint⟩ := h ink
  have hink := Text.isInvisible_sequence hbody
  rcases hpaint t with hplain | ⟨u, hu, hpainted⟩
  · rw [hplain]
  · have hend := Text.isInvisible_resetSequence.decolourFrom_append false u []
    rw [List.append_nil] at hend
    rw [hpainted, Text.decolour, List.append_assoc, hink, hend, hu.decolourFrom_eq hink]
    exact List.append_nil _

theorem Ink.exists_sequence_eq (ink : Ink) :
    ∃ body : Text, 'm' ∉ body ∧ ink.sequence = escape :: (body ++ ['m']) := by
  have hcode (code : Text) (h : 'm' ∉ code) :
      ∃ body : Text, 'm' ∉ body ∧ escapeSequence code = escape :: (body ++ ['m']) :=
    ⟨'[' :: code, by simpa using h, rfl⟩
  cases ink <;> exact hcode _ (by decide)

theorem addsSequences_paint : AddsSequences Text.paint := by
  intro ink
  obtain ⟨body, hbody, hsequence⟩ := ink.exists_sequence_eq
  refine ⟨body, hbody, fun t => ?_⟩
  rw [← hsequence]
  by_cases ht : t.isEmpty
  · refine .inl ?_
    rw [Text.paint, if_pos ht, List.isEmpty_iff.1 ht]
  · exact .inr ⟨Text.keepInk ink t, Text.setAgain_keepInk ink t, if_neg ht⟩

/-! ## Printing -/

/-- What a terminal can be asked to print. -/
inductive Printout where
  | text (s : Text)
  | line (s : Text)
  | trace (trace : Trace)
  | registers (c : Cpu)
  | memory (memory : Memory)
  | listing (a : Assembly) (source : Text)
  | labels (labels : LabelTable)
  | image (origin : Word) (bytes : List Byte)

namespace Terminal

/-- What printing something puts out. -/
def print (t : Terminal) (channel : Channel) : Printout → Text
  | .text s => t.put channel s
  | .line s => t.putLine channel s
  | .trace trace => t.putTrace channel trace
  | .registers c => t.putRegisters channel c
  | .memory memory => t.putMemory channel memory
  | .listing a source => t.putListing channel a source
  | .labels labels => t.putLabels channel labels
  | .image origin bytes => t.putImage channel origin bytes

/-- What printing one thing after the other puts out. -/
def printAll (t : Terminal) (printouts : List (Channel × Printout)) : Text :=
  printouts.flatMap fun (channel, printout) => t.print channel printout

section Minimal

variable (colour : Bool) (paint : Ink → Text → Text) (channel : Channel)

theorem escape_notMem_put (s : Text) : escape ∉ (Terminal.mk true colour paint).put channel s := by
  cases channel with
  | result | lasting => exact Text.escape_notMem_decolourFrom false s
  | passing => exact List.not_mem_nil

theorem escape_notMem_putLine (s : Text) :
    escape ∉ (Terminal.mk true colour paint).putLine channel s :=
  List.not_mem_append (escape_notMem_put colour paint channel s)
    (escape_notMem_put colour paint channel "\n")

theorem escape_notMem_putLines (lines : List Text) :
    escape ∉ (Terminal.mk true colour paint).putLines channel lines := by
  intro h
  obtain ⟨s, -, hs⟩ := List.mem_flatMap.1 h
  exact escape_notMem_putLine colour paint channel s hs

theorem escape_notMem_print (printout : Printout) :
    escape ∉ (Terminal.mk true colour paint).print channel printout := by
  cases printout with
  | text s => exact escape_notMem_put colour paint channel s
  | line s => exact escape_notMem_putLine colour paint channel s
  | trace trace => exact escape_notMem_putLine colour paint _ _
  | registers c =>
    intro h
    obtain ⟨s, -, hs⟩ := List.mem_flatMap.1 h
    exact escape_notMem_put colour paint channel s hs
  | memory memory =>
    change escape ∉ (Terminal.mk true colour paint).putMemory channel memory
    unfold putMemory
    split
    · exact escape_notMem_putLine colour paint _ _
    · exact escape_notMem_putLines colour paint channel _
  | listing a source =>
    intro h
    obtain ⟨⟨l, line⟩, -, hs⟩ := List.mem_flatMap.1 h
    exact escape_notMem_putLine colour paint channel _ hs
  | labels labels => exact escape_notMem_putLines colour paint channel _
  | image origin bytes => exact escape_notMem_putLines colour paint channel _

/-- A minimal terminal puts out the same with colours and without. -/
theorem put_colour (s : Text) :
    (Terminal.mk true colour paint).put channel s =
      (Terminal.mk true false paint).put channel s := by
  cases channel <;> rfl

theorem putLine_colour (s : Text) :
    (Terminal.mk true colour paint).putLine channel s =
      (Terminal.mk true false paint).putLine channel s := by
  rw [putLine, putLine, put_colour colour paint channel s, put_colour colour paint channel "\n"]

theorem putLines_colour (lines : List Text) :
    (Terminal.mk true colour paint).putLines channel lines =
      (Terminal.mk true false paint).putLines channel lines :=
  List.flatMap_congr fun s _ => putLine_colour colour paint channel s

/-! Where inks are used, they must not be seen. -/

variable {paint} (hpaint : AddsSequences paint)
include hpaint

theorem putLine_ink (ink : Ink) (s : Text) :
    (Terminal.mk true colour paint).putLine channel ((Terminal.mk true colour paint).ink ink s) =
      (Terminal.mk true false paint).putLine channel s := by
  cases colour with
  | false => rfl
  | true =>
    have hput : (Terminal.mk true true paint).put channel (paint ink s) =
        (Terminal.mk true false paint).put channel s := by
      cases channel with
      | result | lasting => exact hpaint.decolour_paint ink s
      | passing => rfl
    rw [putLine, putLine, put_colour true paint channel "\n"]
    exact congrArg (· ++ _) hput

theorem putListingRow_colour (l : PlacedLine) (line : Text) :
    (Terminal.mk true colour paint).putListingRow channel l line =
      (Terminal.mk true false paint).putListingRow channel l line := by
  unfold putListingRow
  cases l.outcome.isFault with
  | false => exact putLine_colour ..
  | true => exact putLine_ink colour channel hpaint ..

theorem print_colour (printout : Printout) :
    (Terminal.mk true colour paint).print channel printout =
      (Terminal.mk true false paint).print channel printout := by
  cases printout with
  | text s => exact put_colour ..
  | line s => exact putLine_colour ..
  | trace trace =>
    change putTrace _ channel trace = putTrace _ channel trace
    unfold putTrace
    cases trace.ink? with
    | none => exact putLine_colour ..
    | some ink => exact putLine_ink colour _ hpaint ..
  | registers c => exact List.flatMap_congr fun s _ => put_colour colour paint channel s
  | memory memory =>
    change putMemory _ channel memory = putMemory _ channel memory
    unfold putMemory
    rw [putLine_colour, putLines_colour]
  | listing a source =>
    exact List.flatMap_congr fun (l, line) _ => putListingRow_colour colour channel hpaint l line
  | labels labels => exact putLines_colour ..
  | image origin bytes => exact putLines_colour ..

end Minimal

end Terminal

/-- The report of a run is printed piece by piece. -/
theorem CommandLine.runReport_eq (t : Terminal) (log : List Trace) (s : Session) :
    runReport t log s =
      t.printAll (log.map (fun trace => (.result, .trace trace)) ++
        [(.passing, .line "Registers"), (.result, .registers s.cpu), (.passing, .line "Memory"),
          (.result, .memory s.cpu.memory)]) := by
  simp [runReport, Terminal.printAll, Terminal.print, List.flatMap_map]

/-- **Minimal output is colourless.** Taking escape sequences away leaves a subsequence without
escape characters, changes nothing but texts that have such characters, is done at once, and leaves
all pieces between escape sequences. So a minimal terminal prints no escape character, and the same
with colours and without, whatever it is asked to print and on which channels, if inks only add
escape sequences; a report of a run is an example. -/
theorem minimal_output_colourless (paint : Ink → Text → Text) (hpaint : AddsSequences paint) :
    (∀ t : Text, (Text.decolour t).Sublist t ∧ escape ∉ Text.decolour t ∧
      (Text.decolour t = t ↔ escape ∉ t) ∧
      Text.decolour (Text.decolour t) = Text.decolour t) ∧
    (∀ pieces : List Text.Piece,
      Text.decolour (pieces.flatMap Text.Piece.written) = pieces.flatMap Text.Piece.shown) ∧
    (∀ printouts : List (Channel × Printout),
      escape ∉ (Terminal.mk true true paint).printAll printouts ∧
      (Terminal.mk true true paint).printAll printouts =
        (Terminal.mk true false paint).printAll printouts) ∧
    ∀ (log : List Trace) (s : Session),
      escape ∉ CommandLine.runReport ⟨true, true, paint⟩ log s ∧
      CommandLine.runReport ⟨true, true, paint⟩ log s =
        CommandLine.runReport ⟨true, false, paint⟩ log s := by
  have hprint (printouts : List (Channel × Printout)) :
      escape ∉ (Terminal.mk true true paint).printAll printouts ∧
      (Terminal.mk true true paint).printAll printouts =
        (Terminal.mk true false paint).printAll printouts := by
    constructor
    · intro h
      obtain ⟨⟨channel, printout⟩, -, hmem⟩ := List.mem_flatMap.1 h
      exact Terminal.escape_notMem_print true paint channel printout hmem
    · exact List.flatMap_congr fun (channel, printout) _ =>
        Terminal.print_colour true channel hpaint printout
  refine ⟨fun t => ?_, Text.decolour_pieces, hprint, fun log s => ?_⟩
  · have hnone : escape ∉ Text.decolour t := Text.escape_notMem_decolourFrom false t
    exact ⟨Text.decolourFrom_sublist false t, hnone, Text.decolour_eq_self_iff,
      Text.decolour_eq_self_iff.2 hnone⟩
  · rw [CommandLine.runReport_eq, CommandLine.runReport_eq]
    exact hprint _

/-- A line that ends all colours and breaks off in a further sequence, in an ink. -/
theorem minimal_output_colourless_in_open_sequence :
    let printout : Printout := .trace (.undecodable 0xC000 "A\x1b[0mB\x1b[3")
    AddsSequences Text.paint ∧
    (Terminal.mk false true Text.paint).print .result printout =
      "\x1b[33mPC: $C000 -> cannot decode: A\x1b[0m\x1b[33mB\x1b[3\x1b[0m\n" ∧
    (Terminal.mk true false Text.paint).print .result printout =
      "PC: $C000 -> cannot decode: AB\n" ∧
    (Terminal.mk true true Text.paint).printAll [(.result, printout)] =
      (Terminal.mk true false Text.paint).printAll [(.result, printout)] := by
  intro printout
  obtain ⟨-, -, hprint, -⟩ := minimal_output_colourless Text.paint addsSequences_paint
  exact ⟨addsSequences_paint, by decide +kernel, by decide +kernel,
    (hprint [(.result, printout)]).2⟩

end Mc6800
