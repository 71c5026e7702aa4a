import Mc6800.Proofs.Checked.Assembly
import Mc6800.Proofs.Session.Operations

/-!
# Sessions without traps

Here a line of machine code holds any list of bytes (`RawLine`), of which a session takes the first
and those behind it, and a search begins at any line that it is told. A line that is read is never
without a byte (`RawLine.parse_eq`), and a step leaves the cursor at most behind the last line and
the counts in their range (`Session.Fits`, `RawSession.step_raw`), so no operations on a session
meet a trap (`RawSession.performAll_raw`). If searches begin where those of the session do, all is
as it is without checks.
-/

set_option autoImplicit false

namespace Mc6800

/-! ## Lines -/

namespace Text

theorem words_ne_nil {t : Text} {c : Char} (hc : c ∈ t.head?) (hcb : isBlank c = false) :
    words t ≠ [] := by
  have hword : IsWord (t.takeWhile fun d => !isBlank d) := by
    obtain ⟨rest, rfl⟩ := List.head?_eq_some_iff.1 (Option.mem_def.1 hc)
    refine ⟨by simp [hcb], fun d hd => ?_⟩
    simpa using List.mem_takeWhile_imp hd
  rw [← List.takeWhile_append_dropWhile (p := fun d => !isBlank d) (l := t)]
  cases hrest : t.dropWhile fun d => !isBlank d with
  | nil => simp [words_of_isWord hword]
  | cons b rest =>
    have hb := List.head?_dropWhile_not (fun d => !isBlank d) t
    rw [hrest] at hb
    have hb : isBlank b = true := by simpa using hb
    simp [words_append_blank hword hb]

theorem words_trim_ne_nil {t : Text} (h : trim t ≠ []) : words (trim t) ≠ [] := by
  have hstart : trimStart t ≠ [] := by
    intro hnil
    rw [trim, hnil] at h
    exact h rfl
  obtain ⟨c, rest, hrest⟩ := List.exists_cons_of_ne_nil hstart
  have hcb := List.head?_dropWhile_not isBlank t
  rw [show t.dropWhile isBlank = c :: rest from hrest] at hcb
  have hcb : isBlank c = false := by simpa using hcb
  obtain ⟨⟨d, hd, hdb⟩, -⟩ := isTrimmed_trimEnd (t := trimStart t) (by rw [hrest]; rfl) hcb
  exact words_ne_nil hd hdb

/-- A text has no more lines than bytes. -/
theorem length_lines_le (t : Text) : (lines t).length ≤ size t := by
  rw [length_lines]
  induction t with
  | nil => exact Nat.le_refl 0
  | cons c rest ih =>
    have hpos := c.utf8Size_pos
    rw [segments, size_cons]
    split
    · rw [List.length_cons]
      omega
    · cases hsegments : segments rest with
      | nil =>
        rw [List.length_singleton]
        omega
      | cons s more =>
        rw [hsegments] at ih
        rw [List.length_cons] at ih ⊢
        omega

end Text

/-- What a line of machine code text holds, with any list of bytes. -/
inductive RawLine where
  | blank
  | bytes (code : List Byte)
  | undecodable (text : Text)
  deriving DecidableEq, Repr

namespace RawLine

/-- What a line holds. -/
def parse (line : Text) : RawLine :=
  match Text.trim line with
  | [] => blank
  | body =>
    match CodeLine.readBytes? (Text.words body) with
    | some code => bytes code
    | none => undecodable body

/-- The bytes of a line. -/
def code : RawLine → List Byte
  | bytes code => code
  | blank | undecodable _ => []

end RawLine

/-- The line with its bytes in one list. -/
def CodeLine.raw : CodeLine → RawLine
  | blank => .blank
  | bytes opcode operands => .bytes (opcode :: operands)
  | undecodable text => .undecodable text

@[simp] theorem CodeLine.code_raw (line : CodeLine) : line.raw.code = line.code := by
  cases line <;> rfl

theorem CodeLine.raw_ne_bytes_nil (line : CodeLine) : line.raw ≠ .bytes [] := by
  cases line <;> simp [raw]

theorem CodeLine.length_of_readBytes? {ws : List Text} {code : List Byte}
    (h : readBytes? ws = some code) : code.length = ws.length := by
  induction ws generalizing code with
  | nil =>
    cases h
    rfl
  | cons w rest ih =>
    unfold readBytes? at h
    split at h
    · next b bs _ hrest =>
      cases h
      rw [List.length_cons, ih hrest, List.length_cons]
    · cases h

/-- A line that is read as bytes has a first one. -/
theorem RawLine.parse_eq (line : Text) : parse line = (CodeLine.parse line).raw := by
  unfold parse CodeLine.parse
  cases hbody : Text.trim line with
  | nil => rfl
  | cons c rest =>
    have hwords := Text.words_trim_ne_nil (t := line) (by simp [hbody])
    rw [hbody] at hwords
    dsimp only
    cases hread : CodeLine.readBytes? (Text.words (c :: rest)) with
    | none => rfl
    | some code =>
      have hlength := CodeLine.length_of_readBytes? hread
      cases code with
      | nil => exact absurd (List.length_eq_zero_iff.1 hlength.symm) hwords
      | cons opcode operands => rfl

/-! ## Programs -/

/-- A line and the address at which its bytes begin. -/
structure RawEntry where
  address : Word
  line : RawLine
  deriving DecidableEq, Repr

namespace RawEntry

/-- Lines laid out from an address. -/
def place (base : Word) : List RawLine → List RawEntry
  | [] => []
  | line :: rest => ⟨base, line⟩ :: place (base + UInt16.ofNat line.code.length) rest

/-- The entries of a machine code text. -/
def parse (text : Text) (base : Word) : List RawEntry :=
  place base ((Text.lines text).map RawLine.parse)

/-- Whether the entry has a byte at an address. -/
def beginsAt (e : RawEntry) (address : Word) : Bool :=
  decide (e.address = address) && !e.line.code.isEmpty

end RawEntry

/-- The entry with its bytes in one list. -/
def Entry.raw (e : Entry) : RawEntry := ⟨e.address, e.line.raw⟩

theorem Entry.beginsAt_raw (e : Entry) (address : Word) :
    e.raw.beginsAt address = decide (e.BeginsAt address) := by
  rw [RawEntry.beginsAt, raw, CodeLine.code_raw]
  cases h : e.line.code <;> simp [BeginsAt, h]

/-- The entries of a program with their bytes in one list each. -/
def Program.raw (p : Program) : List RawEntry := p.entries.map Entry.raw

theorem Program.raw_parse (text : Text) (base : Word) :
    (parse text base).raw = RawEntry.parse text base := by
  have hplace : ∀ (lines : List CodeLine) (base : Word),
      (place base lines).map Entry.raw = RawEntry.place base (lines.map CodeLine.raw) := by
    intro lines
    induction lines with
    | nil => exact fun _ => rfl
    | cons line rest ih =>
      intro base
      rw [place, List.map_cons, ih, List.map_cons, RawEntry.place, CodeLine.code_raw]
      rfl
  have hlines : (Text.lines text).map RawLine.parse =
      ((Text.lines text).map CodeLine.parse).map CodeLine.raw := by
    rw [List.map_map]
    exact List.map_congr_left fun line _ => RawLine.parse_eq line
  rw [RawEntry.parse, hlines, ← hplace]
  rfl

/-! ## Sessions -/

/-- A processor at work on lines with any bytes. -/
structure RawSession where
  cpu : Cpu
  entries : List RawEntry
  cursor : Nat
  steps : Nat
  limit : Nat
  status : Status
  deriving DecidableEq, Repr

namespace RawSession

open Checked (add item itemsFrom signed16 ok_bind)

/-- A session with nothing loaded. -/
def idle : RawSession := ⟨.reset loadAddress, [], 0, 0, defaultStepLimit, .idle⟩

/-- The session with a machine code text loaded and everything else but the ceiling forgotten. -/
def load (s : RawSession) (code : Text) : RawSession :=
  ⟨.reset loadAddress, RawEntry.parse code loadAddress, 0, 0, s.limit, .running⟩

/-- Whether the next step carries out a line or reports the ceiling. -/
def hasNextStep (s : RawSession) : Bool :=
  s.status == .running && decide (s.cursor < s.entries.length)

section

variable (max : Nat) (point : List RawEntry → Word → Nat)

/-- The number of a line whose bytes begin at an address. The lines at this address from the one
that `point` tells are tried first. -/
def indexOf? (entries : List RawEntry) (address : Word) : Checked (Option Nat) := do
  let start := point entries address
  let near ← itemsFrom start entries
  match (near.takeWhile fun e => e.address = address).findIdx? (·.beginsAt address) with
  | some offset => do
    let i ← add max start offset
    return some i
  | none => return entries.findIdx? (·.beginsAt address)

/-- The line behind an effect. -/
def cursorAfter (s : RawSession) (effect : Effect) : Checked Nat :=
  match effect.target? with
  | some target => do
    let i ← indexOf? max point s.entries target
    return i.getD s.entries.length
  | none => add max s.cursor 1

/-- The effect, with a difference in 16 bits. -/
def inWord : Effect → Checked Effect
  | .compare comparison difference => do
    let difference ← signed16 difference
    return .compare comparison difference
  | effect => .ok effect

/-- What carrying out a line reports, and the session behind it. -/
def carryOut (s : RawSession) : RawLine → Checked (Trace × RawSession)
  | .blank => do
    let cursor ← add max s.cursor 1
    return (.blank s.cpu.pc, { s with cursor })
  | .undecodable text => do
    let cursor ← add max s.cursor 1
    return (.undecodable s.cpu.pc text, { s with cursor })
  | .bytes code => do
    let opcode ← item code 0
    match Instruction.decode? opcode with
    | some i => do
      let operands ← itemsFrom 1 code
      let (effect, cpu) := s.cpu.execute i operands
      let effect ← inWord effect
      let cursor ← s.cursorAfter max point effect
      return (.executed s.cpu.pc i.mnemonic effect,
        { s with cpu := cpu.advance i effect, cursor })
    | none => do
      let pc := s.cpu.pc + UInt16.ofNat code.length
      let cursor ← add max s.cursor 1
      return (.unknownOpcode s.cpu.pc opcode, { s with cpu := { s.cpu with pc }, cursor })

/-- The line under the cursor carried out as one more step. -/
def advance (s : RawSession) (line : RawLine) : Checked (Trace × RawSession) := do
  let steps ← add max s.steps 1
  let (trace, s) ← carryOut max point { s with steps } line
  return (trace,
    { s with status := if s.cursor < s.entries.length then s.status else .completed })

/-- One step: what it reports, and the session behind it. -/
def step (s : RawSession) : Checked (Trace × RawSession) :=
  match s.status with
  | .idle => .ok (.notLoaded, s)
  | .halted => .ok (.limitReached s.limit, s)
  | .completed => .ok (.completed, s)
  | .running =>
    if s.limit ≤ s.steps then .ok (.limitReached s.limit, { s with status := .halted })
    else
      match s.entries[s.cursor]? with
      | none => .ok (.completed, { s with status := .completed })
      | some e => s.advance max point e.line

/-- At most `fuel` steps, as long as there is a next one. -/
def runFor : Nat → RawSession → Checked (List Trace × RawSession)
  | 0, s => .ok ([], s)
  | fuel + 1, s =>
    if s.hasNextStep then do
      let (trace, s) ← s.step max point
      let (log, final) ← runFor fuel s
      return (trace :: log, final)
    else .ok ([], s)

/-- What an operation reports, and the session behind it. -/
def perform (s : RawSession) : Session.Operation → Checked (List Trace × RawSession)
  | .withLimit limit => .ok ([], { s with limit })
  | .load code => .ok ([], s.load code)
  | .step => do
    let (trace, s) ← s.step max point
    return ([trace], s)
  | .run => runFor max point (s.limit - s.steps + 1) s

/-- What operations report in turn, and the session behind them. -/
def performAll : List Session.Operation → RawSession → Checked (List Trace × RawSession)
  | [], s => .ok ([], s)
  | o :: rest, s => do
    let (log, s) ← s.perform max point o
    let (more, final) ← performAll rest s
    return (log ++ more, final)

end

/-- A search begins in the list or right behind it. -/
def Bounded (point : List RawEntry → Word → Nat) : Prop :=
  ∀ entries address, point entries address ≤ entries.length

/-- Where a search begins that passes the entries below an address. -/
def startOf (search : Search) (entries : List RawEntry) (address : Word) : Nat :=
  search.point (entries.map fun e => decide (e.address < address))

theorem bounded_startOf (search : Search) : Bounded (startOf search) := by
  intro entries address
  have hle := search.point_le (entries.map fun e => decide (e.address < address))
  rwa [List.length_map] at hle

end RawSession

/-- The session with the bytes of every line in one list. -/
def Session.raw (s : Session) : RawSession :=
  ⟨s.cpu, s.program.raw, s.cursor, s.steps, s.limit, s.status⟩

@[simp] theorem Session.cpu_raw (s : Session) : s.raw.cpu = s.cpu := rfl

@[simp] theorem Session.entries_raw (s : Session) : s.raw.entries = s.program.raw := rfl

@[simp] theorem Session.status_raw (s : Session) : s.raw.status = s.status := rfl

/-- The counts of a session are counts, and the cursor is at most behind the last line. -/
structure Session.Fits (max : Nat) (s : Session) : Prop where
  size : s.program.size ≤ max
  limit : s.limit ≤ max
  cursor : s.cursor ≤ s.program.size

/-- The counts that come with an operation are counts. -/
def Session.Operation.Fits (max : Nat) : Session.Operation → Prop
  | .withLimit limit => limit ≤ max
  | .load code => Text.size code ≤ max
  | .step | .run => True

instance (max : Nat) (o : Session.Operation) : Decidable (o.Fits max) :=
  match o with
  | .withLimit limit => inferInstanceAs (Decidable (limit ≤ max))
  | .load code => inferInstanceAs (Decidable (Text.size code ≤ max))
  | .step | .run => inferInstanceAs (Decidable True)

namespace RawSession

open Checked (add_of_le itemsFrom_of_le ok_bind)

variable {max : Nat} {point : List RawEntry → Word → Nat} {s : Session}

@[simp] theorem length_raw (p : Program) : p.raw.length = p.size := List.length_map ..

theorem startOf_raw (search : Search) (p : Program) (address : Word) :
    startOf search p.raw address =
      search.point (p.entries.map fun e => decide (e.address < address)) := by
  rw [startOf, Program.raw, List.map_map]
  rfl

/-- A search that begins anywhere in the program finds what it finds without checks. -/
theorem indexOf?_raw (hpoint : Bounded point) {p : Program} (hmax : p.size ≤ max)
    (address : Word) :
    indexOf? max point p.raw address = .ok (p.indexFrom? (point p.raw address) address) := by
  have hbound := hpoint p.raw address
  rw [indexOf?]
  generalize point p.raw address = start at hbound ⊢
  have hbegins : (fun e : RawEntry => e.beginsAt address) ∘ Entry.raw =
      fun e => decide (e.BeginsAt address) := funext fun e => e.beginsAt_raw address
  have hnear :
      ((p.raw.drop start).takeWhile fun e => e.address = address).findIdx? (·.beginsAt address) =
        ((p.entries.drop start).takeWhile fun e => e.address = address).findIdx?
          fun e => e.BeginsAt address := by
    rw [Program.raw, ← List.map_drop, List.takeWhile_map, List.findIdx?_map, hbegins]
    rfl
  have hall : p.raw.findIdx? (·.beginsAt address) =
      p.entries.findIdx? fun e => e.BeginsAt address := by
    rw [Program.raw, List.findIdx?_map, hbegins]
  rw [itemsFrom_of_le hbound, ok_bind, hnear, hall, Program.indexFrom?]
  cases hoffset : ((p.entries.drop start).takeWhile fun e => e.address = address).findIdx?
      fun e => e.BeginsAt address with
  | none => rfl
  | some offset =>
    have hlt : start + offset < p.size :=
      Program.lt_size_of_indexFrom? (by rw [Program.indexFrom?, hoffset])
    dsimp only
    rw [add_of_le (Nat.le_trans (Nat.le_of_lt hlt) hmax)]
    rfl

/-! ## No traps -/

/-- The cursor stays in the program or comes right behind it, wherever the search begins. -/
theorem cursorAfter_raw (hpoint : Bounded point) (hs : s.Fits max)
    (hcursor : s.cursor < s.program.size) (effect : Effect) :
    ∃ cursor ≤ s.program.size, s.raw.cursorAfter max point effect = .ok cursor ∧
      (point = startOf s.search → cursor = s.cursorAfter effect) := by
  have hsize := hs.size
  unfold cursorAfter Session.cursorAfter
  cases effect.target? with
  | some target =>
    refine ⟨(s.program.indexFrom? (point s.program.raw target) target).getD s.program.size, ?_, ?_,
      ?_⟩
    · cases hindex : s.program.indexFrom? (point s.program.raw target) target with
      | none => exact Nat.le_refl _
      | some i => exact Nat.le_of_lt (Program.lt_size_of_indexFrom? hindex)
    · dsimp only
      rw [Session.entries_raw, indexOf?_raw hpoint hsize, ok_bind, length_raw]
      rfl
    · rintro rfl
      rw [startOf_raw]
      rfl
  | none => exact ⟨s.cursor + 1, hcursor, add_of_le (Nat.le_trans hcursor hsize), fun _ => rfl⟩

/-- Bytes differ by a number of 16 bits. -/
theorem inWord_execute (c : Cpu) (i : Instruction) (operands : List Byte) :
    inWord (c.execute i operands).1 = .ok (c.execute i operands).1 := by
  have hdifference : ∀ comparison x y,
      inWord (.compare comparison (Cpu.difference x y)) =
        .ok (.compare comparison (Cpu.difference x y)) := by
    intro comparison x y
    have hx := x.toNat_lt
    have hy := y.toNat_lt
    rw [inWord, Checked.signed16, if_pos (by unfold Cpu.difference; omega)]
    rfl
  unfold Cpu.execute
  cases i.mnemonic <;> first | rfl | exact hdifference ..

/-- A line of the program is carried out without a trap, wherever a search begins. -/
theorem carryOut_raw (hpoint : Bounded point) (hs : s.Fits max)
    (hcursor : s.cursor < s.program.size) (line : CodeLine) :
    ∃ cursor ≤ s.program.size, s.raw.carryOut max point line.raw =
        .ok ((s.carryOut line).1, { (s.carryOut line).2 with cursor }.raw) ∧
      (point = startOf s.search → cursor = (s.carryOut line).2.cursor) := by
  have hadd : Checked.add max s.raw.cursor 1 = .ok (s.cursor + 1) :=
    add_of_le (Nat.le_trans hcursor hs.size)
  cases line with
  | blank | undecodable _ =>
    refine ⟨s.cursor + 1, hcursor, ?_, fun _ => rfl⟩
    rw [CodeLine.raw, carryOut, hadd]
    rfl
  | bytes opcode operands =>
    rw [CodeLine.raw, carryOut, Session.carryOut, show Checked.item (opcode :: operands) 0 =
      .ok opcode from rfl, ok_bind]
    cases Instruction.decode? opcode with
    | none =>
      refine ⟨s.cursor + 1, hcursor, ?_, fun _ => rfl⟩
      dsimp only
      rw [hadd]
      rfl
    | some i =>
      dsimp only
      obtain ⟨cursor, hle, hok, heq⟩ :=
        cursorAfter_raw hpoint hs hcursor (s.cpu.execute i operands).1
      refine ⟨cursor, hle, ?_, heq⟩
      rw [itemsFrom_of_le (Nat.le_add_left 1 _), ok_bind, List.drop_one, List.tail_cons,
        Session.cpu_raw, inWord_execute, ok_bind, hok]
      rfl

theorem carryOut_withSteps (s : Session) (steps : Nat) (line : CodeLine) :
    { s with steps }.carryOut line =
      ((s.carryOut line).1, { (s.carryOut line).2 with steps }) := by
  cases line with
  | blank | undecodable _ => rfl
  | bytes opcode operands =>
    unfold Session.carryOut
    dsimp only
    split <;> rfl

theorem advance_raw (hpoint : Bounded point) (hs : s.Fits max)
    (hlimit : s.steps < s.limit) (hcursor : s.cursor < s.program.size) (line : CodeLine) :
    ∃ cursor ≤ s.program.size, s.raw.advance max point line.raw =
        .ok ((s.carryOut line).1, { (s.carryOut line).2 with cursor }.settle.raw) ∧
      (point = startOf s.search → cursor = (s.carryOut line).2.cursor) := by
  have hfits : { s with steps := s.steps + 1 }.Fits max := ⟨hs.size, hs.limit, hs.cursor⟩
  obtain ⟨cursor, hle, hok, heq⟩ := carryOut_raw hpoint hfits hcursor line
  rw [carryOut_withSteps] at hok heq
  refine ⟨cursor, hle, ?_, heq⟩
  have hadd : Checked.add max s.raw.steps 1 = .ok (s.steps + 1) :=
    add_of_le (Nat.le_trans hlimit hs.limit)
  have hraw : { s.raw with steps := s.steps + 1 } = { s with steps := s.steps + 1 }.raw := rfl
  rw [advance, hadd, ok_bind, hraw, hok, ok_bind]
  simp only [Session.raw, Session.settle, length_raw, Session.steps_carryOut]
  rfl

/-- **A step meets no trap** and keeps the bounds. It is the step without checks if a search begins
where the session's does. -/
theorem step_raw (hpoint : Bounded point) (hs : s.Fits max) :
    ∃ next, s.raw.step max point = .ok (s.step.1, next.raw) ∧ next.Fits max ∧
      (point = startOf s.search → next = s.step.2) := by
  have hentry : s.raw.entries[s.raw.cursor]? = s.program.entries[s.cursor]?.map Entry.raw :=
    List.getElem?_map
  cases hstatus : s.status with
  | idle | halted | completed =>
    refine ⟨s, ?_, hs, fun _ => ?_⟩
    · simp only [step, Session.step, Session.raw, hstatus]
    · simp only [Session.step, hstatus]
  | running =>
    by_cases hlimit : s.limit ≤ s.steps
    · have hstep := Session.step_of_limit hstatus hlimit
      refine ⟨{ s with status := .halted }, ?_, ⟨hs.size, hs.limit, hs.cursor⟩, fun _ => ?_⟩
      · rw [step, Session.status_raw, hstatus, hstep]
        exact if_pos hlimit
      · rw [hstep]
    · cases he : s.program.entries[s.cursor]? with
      | none =>
        have hstep : s.step = (.completed, { s with status := .completed }) := by
          simp only [Session.step, hstatus, if_neg hlimit, he]
        refine ⟨{ s with status := .completed }, ?_, ⟨hs.size, hs.limit, hs.cursor⟩, fun _ => ?_⟩
        · rw [step, Session.status_raw, hstatus, hstep, hentry, he]
          exact if_neg hlimit
        · rw [hstep]
      | some e =>
        have hcursor : s.cursor < s.program.size := (List.getElem?_eq_some_iff.1 he).1
        have hstep := Session.step_of_line hstatus (Nat.not_le.1 hlimit) he
        obtain ⟨cursor, hle, hok, heq⟩ :=
          advance_raw hpoint hs (Nat.not_le.1 hlimit) hcursor e.line
        -- Where a search begins may change the line that it finds, and nothing else.
        refine ⟨{ (s.carryOut e.line).2 with cursor }.settle, ?_, ⟨?_, ?_, ?_⟩,
          fun hstart => ?_⟩
        · rw [step, Session.status_raw, hstatus, hstep, hentry, he]
          exact (if_neg hlimit).trans hok
        · simpa [Session.settle] using hs.size
        · simpa [Session.settle] using hs.limit
        · simpa [Session.settle] using hle
        · rw [hstep, heq hstart]

theorem hasNextStep_raw (s : Session) : s.raw.hasNextStep = s.hasNextStep := by
  rw [hasNextStep, Session.hasNextStep, ← length_raw]
  rfl

/-- Steps meet no trap as long as there are any. -/
theorem runFor_raw (hpoint : Bounded point) (fuel : Nat) (hs : s.Fits max) :
    ∃ log next, runFor max point fuel s.raw = .ok (log, Session.raw next) ∧ next.Fits max ∧
      (point = startOf s.search → (log, next) = Session.runFor fuel s) := by
  induction fuel generalizing s with
  | zero => exact ⟨[], s, rfl, hs, fun _ => rfl⟩
  | succ fuel ih =>
    cases hnext : s.hasNextStep with
    | false =>
      refine ⟨[], s, ?_, hs, fun _ => ?_⟩
      · rw [runFor, hasNextStep_raw, hnext, if_neg Bool.false_ne_true]
      · rw [Session.runFor_of_not_hasNextStep hnext]
    | true =>
      have hsucc : Session.runFor (fuel + 1) s =
          (s.step.1 :: (Session.runFor fuel s.step.2).1, (Session.runFor fuel s.step.2).2) := by
        rw [Session.runFor, hnext, if_pos rfl]
      obtain ⟨behind, hstep, hfits, hstepeq⟩ := step_raw hpoint hs
      obtain ⟨log, next, hrun, hfits, hruneq⟩ := ih hfits
      refine ⟨s.step.1 :: log, next, ?_, hfits, fun hstart => ?_⟩
      · rw [runFor, hasNextStep_raw, hnext, if_pos rfl, hstep, ok_bind]
        dsimp only
        rw [hrun]
        rfl
      · have hbehind := hstepeq hstart
        have hsearch : behind.search = s.search := by
          rw [hbehind]
          exact (Session.isKept_search s.search).step s rfl
        rw [hsucc, ← hbehind, ← hruneq (by rw [hsearch, hstart])]

/-- The program of a text has no more lines than the text has bytes. -/
theorem fits_load {code : Text} (hcode : Text.size code ≤ max) (hs : s.Fits max) :
    (s.load code).Fits max := by
  refine ⟨Nat.le_trans (Nat.le_of_eq ?_) (Nat.le_trans (Text.length_lines_le code) hcode),
    hs.limit, Nat.zero_le _⟩
  rw [Session.load, Program.size, Program.parse, Program.length_place, List.length_map]

/-- An operation meets no trap and keeps the bounds. -/
theorem perform_raw (hpoint : Bounded point) (hs : s.Fits max) {o : Session.Operation}
    (ho : o.Fits max) :
    ∃ log next, s.raw.perform max point o = .ok (log, Session.raw next) ∧ next.Fits max ∧
      (point = startOf s.search → (log, next) = s.perform o) := by
  cases o with
  | withLimit limit =>
    exact ⟨[], s.withLimit limit, rfl, ⟨hs.size, ho, hs.cursor⟩, fun _ => rfl⟩
  | load code =>
    refine ⟨[], s.load code, ?_, fits_load ho hs, fun _ => rfl⟩
    rw [perform, load, ← Program.raw_parse]
    rfl
  | step =>
    obtain ⟨next, hstep, hfits, heq⟩ := step_raw hpoint hs
    refine ⟨[s.step.1], next, ?_, hfits, fun hstart => ?_⟩
    · rw [perform, hstep]
      rfl
    · rw [heq hstart]
      rfl
  | run =>
    obtain ⟨log, next, hrun, hfits, heq⟩ := runFor_raw hpoint (s.limit - s.steps + 1) hs
    refine ⟨log, next, hrun, hfits, fun hstart => ?_⟩
    rw [heq hstart, Session.perform, Session.run]
    exact Session.runFor_congr s.remaining_le (Nat.le_refl _)

/-- **No operations on a session meet a trap**, wherever searches begin. If they begin where the
session's do, all is as it is without checks. -/
theorem performAll_raw (hpoint : Bounded point) (hs : s.Fits max)
    {operations : List Session.Operation} (hoperations : ∀ o ∈ operations, o.Fits max) :
    ∃ log next, performAll max point operations s.raw = .ok (log, Session.raw next) ∧
      next.Fits max ∧ (point = startOf s.search → (log, next) = s.performAll operations) := by
  induction operations generalizing s with
  | nil => exact ⟨[], s, rfl, hs, fun _ => rfl⟩
  | cons o rest ih =>
    obtain ⟨ho, hrest⟩ := List.forall_mem_cons.1 hoperations
    obtain ⟨log, behind, hperform, hfits, heq⟩ := perform_raw hpoint hs ho
    obtain ⟨more, next, hall, hfits, hmore⟩ := ih hfits hrest
    refine ⟨log ++ more, next, ?_, hfits, fun hstart => ?_⟩
    · rw [performAll, hperform, ok_bind]
      dsimp only
      rw [hall]
      rfl
    · have hbehind := heq hstart
      have hsearch : behind.search = s.search := by
        rw [show behind = (s.perform o).2 from congrArg Prod.snd hbehind]
        exact (Session.isKept_search s.search).perform rfl o
      rw [Session.performAll, ← hbehind, ← hmore (by rw [hsearch, hstart])]

end RawSession

/-! ## What traps -/

theorem Statement.tooFarBack_iff {labels : LabelTable} {location : Word} {s : Statement} :
    s.tooFarBack labels location = true ↔ ∃ i value, s.instruction? = some i ∧
      i.mode = .relative ∧ labels.operandValue? i.mode s.operandText = some value ∧
      value < (location.toNat : Int) + 2 - 0x80000000 := by
  simp only [tooFarBack, Instruction.tooFarBack, Option.any_eq_true, Bool.and_eq_true, beq_iff_eq,
    decide_eq_true_eq]
  constructor
  · rintro ⟨i, hi, hmode, value, hvalue, hback⟩
    exact ⟨i, value, hi, hmode, hvalue, hback⟩
  · rintro ⟨i, value, hi, hmode, hvalue, hback⟩
    exact ⟨i, hi, hmode, value, hvalue, hback⟩

namespace Checked

/-- **Only a branch whose target lies too far back traps**, if the sizes of the texts are counts,
of which `max` is the largest. Lines of any characters are cut into their fields within their range
and between characters, and come to the statements, targets, instructions and outcomes that they
have without checks. A source is surveyed and emitted likewise, with any labels, up to the first
branch in 32 bits that overflows, which is one whose value is less than the location behind it by
more than two to the power of 31. A line of machine code that is read as bytes has one, and no
operations on a session meet a trap, wherever searches begin. -/
theorem traps_only_at_far_branches (max : Nat) (hmax : defaultStepLimit ≤ max) :
    (∀ line, Text.size line ≤ max →
      let s := Statement.parse line
      statement max line = .ok s ∧ target? s = .ok s.target? ∧
      instruction? s = .ok s.instruction? ∧
      ∀ labels location, outcome labels location s =
        if s.tooFarBack labels location then .error .overflow
        else .ok (s.outcome labels location)) ∧
    (∀ source base, Text.size source ≤ max →
      let a := (Assembler.ofSource source).withOrigin base
      survey max (.start base) (Text.lines source) = .ok (Survey.ofStatements base a.statements) ∧
      (∀ labels, emit max labels (.start base) (Text.lines source) =
        if (Emission.start base).tooFarBack labels a.statements then .error .overflow
        else .ok ((Emission.start base).run labels a.statements)) ∧
      assemble max base source = if a.tooFarBack then .error .overflow else .ok a.assemble) ∧
    (∀ labels e statements, Emission.tooFarBack labels e statements = true ↔
      ∃ (i : Nat) (s : Statement), statements[i]? = some s ∧
        s.tooFarBack labels (Emission.behind labels e (statements.take i)).location = true) ∧
    (∀ labels location (s : Statement), s.tooFarBack labels location = true ↔
      ∃ i value, s.instruction? = some i ∧ i.mode = .relative ∧
        labels.operandValue? i.mode s.operandText = some value ∧
        value < (location.toNat : Int) + 2 - 0x80000000) ∧
    (∀ line, RawLine.parse line = (CodeLine.parse line).raw ∧ RawLine.parse line ≠ .bytes []) ∧
    ∀ operations : List Session.Operation, (∀ o ∈ operations, o.Fits max) →
      (∀ point, RawSession.Bounded point →
        ∃ log s, RawSession.performAll max point operations .idle = .ok (log, s) ∧
          s.cursor ≤ s.entries.length ∧ ∀ e ∈ s.entries, e.line ≠ .bytes []) ∧
      ∀ search, RawSession.performAll max (RawSession.startOf search) operations .idle =
        .ok ((Session.performAll operations (.idle search)).1,
          (Session.performAll operations (.idle search)).2.raw) := by
  have hidle (search : Search) : (Session.idle search).Fits max :=
    ⟨Nat.zero_le _, hmax, Nat.le_refl 0⟩
  refine ⟨fun line hline => ?_, fun source base hsource => ?_, fun _ _ _ => Emission.tooFarBack_iff,
    fun _ _ _ => Statement.tooFarBack_iff, fun line => ?_, fun operations hoperations => ⟨?_, ?_⟩⟩
  · exact ⟨statement_eq hline, target?_eq _, instruction?_eq _,
      fun labels location => outcome_eq labels location _⟩
  · have hlines : ∀ line ∈ Text.lines source, Text.size line ≤ max :=
      fun _ hline => Nat.le_trans (Text.size_le_of_mem_lines hline) hsource
    exact ⟨survey_eq hlines _, fun labels => emit_eq hlines labels _, assemble_eq hsource base⟩
  · rw [RawLine.parse_eq]
    exact ⟨rfl, CodeLine.raw_ne_bytes_nil _⟩
  · intro point hpoint
    obtain ⟨log, s, hok, hfits, -⟩ :=
      RawSession.performAll_raw hpoint (hidle .byHalves) hoperations
    refine ⟨log, s.raw, hok, ?_, fun e he => ?_⟩
    · rw [Session.entries_raw, RawSession.length_raw]
      exact hfits.cursor
    · obtain ⟨e, -, rfl⟩ := List.mem_map.1 he
      exact e.line.raw_ne_bytes_nil
  · intro search
    obtain ⟨log, s, hok, -, heq⟩ :=
      RawSession.performAll_raw (RawSession.bounded_startOf search) (hidle search) hoperations
    have hall := heq rfl
    rw [← hall]
    exact hok

/-- With counts of 64 bits: a line with wide characters around its marks is read, a branch to the
lowest literal traps, and a loop runs into its ceiling wherever searches begin. -/
theorem traps_only_at_far_branches_in_64_bits :
    let max := Text.countBound - 1
    statement max "é\u3000LDAA 5,x\u2003;ü" = .ok (Statement.parse "é\u3000LDAA 5,x\u2003;ü") ∧
    assemble max 0xC000 "BRA -2147483647" = .error .overflow ∧
    (∃ log s, RawSession.performAll max (fun entries _ => entries.length)
      [.withLimit 3, .load "20 FE\n\n", .run] .idle = .ok (log, s) ∧
      s.cursor ≤ s.entries.length ∧ ∀ e ∈ s.entries, e.line ≠ .bytes []) := by
  intro max
  have hmax : defaultStepLimit ≤ max := by decide
  obtain ⟨hline, hsource, -, -, -, hoperations⟩ := traps_only_at_far_branches max hmax
  have hbranch := (hsource "BRA -2147483647" 0xC000 (by decide)).2.2
  have hback : ((Assembler.ofSource "BRA -2147483647").withOrigin 0xC000).tooFarBack = true := by
    decide +kernel
  exact ⟨(hline _ (by decide)).1, hbranch.trans (if_pos hback),
    (hoperations _ (by decide)).1 _ fun _ _ => Nat.le_refl _⟩

end Checked

end Mc6800
