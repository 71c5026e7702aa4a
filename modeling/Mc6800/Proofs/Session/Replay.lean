import Mc6800.Proofs.Session.Steps

/-!
# Replaying a log

The traces of a run tell all that it did to accumulators, index register and memory. What each
instruction does to a state and what it says of it are put side by side (`Cpu.tells_execute`): it
leaves in each register what its effect says it set, and in memory the bytes that its effect says it
stored; all else stays. The trace of a step passes this on (`Session.reports_step`). So the state
behind any number of steps is that of the last settings and of all stores in turn
(`Session.replay_log`).
-/

set_option autoImplicit false

namespace Mc6800

/-! ## What traces report -/

/-- The content that an effect gives to a register; a byte counts as a word below 256. -/
def Effect.set? : Effect → Register → Option Word
  | setA value, .a => some value.toUInt16
  | setB value, .b => some value.toUInt16
  | setX value, .x => some value
  | _, _ => none

/-- The cells that an effect writes, in turn. -/
def Effect.stores : Effect → List (Word × Byte)
  | storeByte address value => [(address, value)]
  | storeWord address value => [(address, Word.high value), (address + 1, Word.low value)]
  | _ => []

/-- Whether an effect sets a register or writes a cell. -/
def Effect.isChange : Effect → Bool
  | setA _ | setB _ | setX _ | storeByte .. | storeWord .. => true
  | compare .. | branch .. | jump _ | fallThrough | nothing | notSimulated => false

/-- The number of cells that an instruction of this name writes. -/
def Mnemonic.storeSize : Mnemonic → Nat
  | staa | stab => 1
  | stx => 2
  | _ => 0

namespace Trace

/-- The content that a step gave to a register. -/
def set? : Trace → Register → Option Word
  | executed _ _ effect, r => effect.set? r
  | _, _ => none

/-- The cells that a step wrote, in turn. -/
def stores : Trace → List (Word × Byte)
  | executed _ _ effect => effect.stores
  | _ => []

/-- Whether a step set a register or wrote a cell. -/
def isChange : Trace → Bool
  | executed _ _ effect => effect.isChange
  | _ => false

end Trace

/-- An instruction writes as many cells as its name says, whatever the state. -/
theorem Cpu.length_stores_effectOf (c : Cpu) (i : Instruction) (operands : List Byte) :
    (c.effectOf i operands).stores.length = i.mnemonic.storeSize := by
  unfold Cpu.effectOf Cpu.execute
  cases i.mnemonic <;> rfl

/-! ## Memory -/

namespace Memory

/-- The memory with cells written in turn. -/
def writeAll (m : Memory) (cells : List (Word × Byte)) : Memory :=
  cells.foldl (fun m cell => m.write cell.1 cell.2) m

/-- Whether a cell was ever written. -/
def IsWritten (m : Memory) (address : Word) : Prop := address ∈ m.cells.map Prod.fst

variable {m : Memory} {address query : Word}

theorem writeAll_append (cells more : List (Word × Byte)) :
    m.writeAll (cells ++ more) = (m.writeAll cells).writeAll more := List.foldl_append

theorem isWritten_write (value : Byte) :
    (m.write address value).IsWritten query ↔ query = address ∨ m.IsWritten query := by
  unfold IsWritten write
  induction m.cells with
  | nil => simp [put]
  | cons cell rest ih =>
    simp only [put]
    split
    · simp
    · split
      · next h => simp [h]
      · simp only [List.map_cons, List.mem_cons, ih, or_left_comm]

/-- Written are the cells that were written before and those that are written now. -/
theorem isWritten_writeAll (cells : List (Word × Byte)) :
    (m.writeAll cells).IsWritten query ↔ m.IsWritten query ∨ query ∈ cells.map Prod.fst := by
  induction cells generalizing m with
  | nil => simp [writeAll]
  | cons cell rest ih =>
    have hrest : (m.writeAll (cell :: rest)).IsWritten query ↔
        (m.write cell.1 cell.2).IsWritten query ∨ query ∈ rest.map Prod.fst := ih
    rw [hrest, isWritten_write, List.map_cons, List.mem_cons, or_assoc, or_left_comm]

end Memory

/-! ## Reports -/

/-- A trace tells what has become of a state, the program counter aside. -/
structure Reports (before : Cpu) (trace : Trace) (after : Cpu) : Prop where
  register : ∀ r, r ≠ .pc → after.register r = (trace.set? r).getD (before.register r)
  memory : after.memory = before.memory.writeAll trace.stores
  frame : trace.isChange = false → after = { before with pc := after.pc }

/-- A trace without an effect reports that nothing but the program counter has changed. -/
theorem Reports.of_frame {before after : Cpu} {trace : Trace} (hset : ∀ r, trace.set? r = none)
    (hstores : trace.stores = []) (h : after = { before with pc := after.pc }) :
    Reports before trace after := by
  refine ⟨fun r hr => ?_, ?_, fun _ => h⟩
  · rw [hset, h]
    cases r with
    | a | b | x => rfl
    | pc => exact absurd rfl hr
  · rw [hstores, h]
    rfl

/-! ## One instruction -/

namespace Cpu

variable {c : Cpu}

/-- An effect tells what has become of a state, all of it. -/
structure Tells (c : Cpu) (done : Effect × Cpu) : Prop where
  register : ∀ r, done.2.register r = (done.1.set? r).getD (c.register r)
  memory : done.2.memory = c.memory.writeAll done.1.stores
  frame : done.1.isChange = false → done.2 = c

theorem tells_setA (value : Byte) : c.Tells (c.setA value) where
  register r := by cases r <;> rfl
  memory := rfl
  frame h := by cases h

theorem tells_setB (value : Byte) : c.Tells (c.setB value) where
  register r := by cases r <;> rfl
  memory := rfl
  frame h := by cases h

theorem tells_setX (value : Word) : c.Tells (c.setX value) where
  register r := by cases r <;> rfl
  memory := rfl
  frame h := by cases h

theorem tells_store (address : Word) (value : Byte) : c.Tells (c.store address value) where
  register r := by cases r <;> rfl
  memory := rfl
  frame h := by cases h

/-- A word store tells of both cells. -/
theorem tells_storeWord (address value : Word) :
    c.Tells (.storeWord address value,
      { c with memory := c.memory.writeWord address value }) where
  register r := by cases r <;> rfl
  memory := rfl
  frame h := by cases h

/-- An effect that is no change tells of a state that stays. -/
theorem tells_unchanged {effect : Effect} (h : effect.isChange = false) : c.Tells (effect, c) := by
  cases effect with
  | setA _ | setB _ | setX _ | storeByte _ _ | storeWord _ _ => cases h
  | compare _ _ | branch _ _ | jump _ | fallThrough | nothing | notSimulated =>
    exact ⟨fun r => by cases r <;> rfl, rfl, fun _ => rfl⟩

/-- **Every instruction tells what it does.** -/
theorem tells_execute (c : Cpu) (i : Instruction) (operands : List Byte) :
    c.Tells (c.execute i operands) := by
  unfold execute
  cases i.mnemonic with
  | ldaa | tba | clra | adda | suba | anda | aba | sba | inca | deca | asla | lsra | asra | rola
  | rora => exact tells_setA _
  | ldab | tab | clrb | addb | subb | incb | decb | aslb | lsrb | asrb | rolb | rorb =>
    exact tells_setB _
  | ldx | inx | dex => exact tells_setX _
  | staa | stab => exact tells_store _ _
  | stx => exact tells_storeWord _ _
  | cmpa | cmpb | cba => exact tells_unchanged rfl
  | bra | bsr | beq | bne | bmi | bpl | jmp | jsr | rts => exact tells_unchanged rfl
  | nop | clc | sec => exact tells_unchanged rfl

/-- The trace of an instruction reports all but where the program counter moves to. -/
theorem reports_execute (c : Cpu) (i : Instruction) (operands : List Byte) (pc : Word) :
    Reports c (.executed pc i.mnemonic (c.execute i operands).1)
      ((c.execute i operands).2.advance i (c.execute i operands).1) := by
  have htells := c.tells_execute i operands
  refine ⟨fun r hr => ?_, htells.memory, fun h => ?_⟩
  · have hregister := htells.register r
    cases r with
    | a | b | x => exact hregister
    | pc => exact absurd rfl hr
  · rw [htells.frame h]
    rfl

end Cpu

/-! ## One step -/

namespace Session

variable {s : Session}

theorem reports_carryOut (s : Session) (line : CodeLine) :
    Reports s.cpu (s.carryOut line).1 (s.carryOut line).2.cpu := by
  unfold carryOut
  split
  · exact .of_frame (fun _ => rfl) rfl rfl
  · exact .of_frame (fun _ => rfl) rfl rfl
  · split
    · next i _ => exact s.cpu.reports_execute i _ _
    · exact .of_frame (fun _ => rfl) rfl rfl

/-- **A step reports what it does.** -/
theorem reports_step (s : Session) : Reports s.cpu s.step.1 s.step.2.cpu := by
  rcases s.step_cases with ⟨-, hnotice, hs⟩ | ⟨-, -, hs⟩ | ⟨-, -, hs⟩ | ⟨e, -, -, -, hs⟩
  · rw [hs]
    cases htrace : s.step.1 with
    | limitReached _ | completed | notLoaded => exact .of_frame (fun _ => rfl) rfl rfl
    | executed _ _ _ | blank _ | undecodable _ _ | unknownOpcode _ _ =>
      rw [htrace] at hnotice
      cases hnotice
  · rw [hs]
    exact .of_frame (fun _ => rfl) rfl rfl
  · rw [hs]
    exact .of_frame (fun _ => rfl) rfl rfl
  · rw [hs]
    exact s.reports_carryOut e.line

theorem length_stores_step {pc : Word} {m : Mnemonic} {effect : Effect}
    (h : s.step.1 = .executed pc m effect) : effect.stores.length = m.storeSize := by
  obtain ⟨-, -, operands, i, -, -, -, rfl, rfl⟩ := exists_instruction_of_executed h
  exact s.cpu.length_stores_effectOf i operands

/-! ## Many steps -/

/-- The last content that a log reports for a register. -/
def lastSet? (log : List Trace) (r : Register) : Option Word :=
  (log.filterMap fun trace => trace.set? r).getLast?

theorem lastSet?_cons (trace : Trace) (log : List Trace) (r : Register) :
    lastSet? (trace :: log) r = (lastSet? log r).or (trace.set? r) := by
  unfold lastSet?
  rw [List.filterMap_cons]
  cases trace.set? r with
  | none => exact Option.or_none.symm
  | some value =>
    rw [List.getLast?_cons]
    cases (log.filterMap fun trace => trace.set? r).getLast? <;> rfl

theorem register_stepFor (s : Session) (n : Nat) {r : Register} (hr : r ≠ .pc) :
    (stepFor n s).2.cpu.register r = (lastSet? (stepFor n s).1 r).getD (s.cpu.register r) := by
  induction n generalizing s with
  | zero => rfl
  | succ n ih =>
    simp only [stepFor, ih, lastSet?_cons, s.reports_step.register r hr]
    cases lastSet? (stepFor n s.step.2).1 r <;> rfl

theorem memory_stepFor (s : Session) (n : Nat) :
    (stepFor n s).2.cpu.memory = s.cpu.memory.writeAll ((stepFor n s).1.flatMap Trace.stores) := by
  induction n generalizing s with
  | zero => rfl
  | succ n ih =>
    simp only [stepFor, ih, List.flatMap_cons, Memory.writeAll_append, s.reports_step.memory]

theorem length_stores_of_mem_stepFor {n : Nat} {pc : Word} {m : Mnemonic} {effect : Effect}
    (h : .executed pc m effect ∈ (stepFor n s).1) : effect.stores.length = m.storeSize := by
  induction n generalizing s with
  | zero => cases h
  | succ n ih =>
    rcases List.mem_cons.1 h with h | h
    · exact length_stores_step h.symm
    · exact ih h

/-- **The log of a run tells its state.** Behind any number of steps each accumulator and the index
register hold what the log last set them to, or zero. The memory is the empty one with all stores of
the log in turn, so exactly their addresses are written: one for a byte store, two for the word
store, and none for any other instruction. A next step without such an effect leaves everything but
the program counter as it is. -/
theorem replay_log (s : Session) (code : Text) (n : Nat) :
    let log := (stepFor n (s.load code)).1
    let final := (stepFor n (s.load code)).2
    (∀ r, r ≠ .pc → final.cpu.register r = (lastSet? log r).getD 0) ∧
    final.cpu.memory = .ofCells (log.flatMap Trace.stores) ∧
    (∀ address, final.cpu.memory.IsWritten address ↔
      address ∈ (log.flatMap Trace.stores).map Prod.fst) ∧
    (∀ pc m effect, .executed pc m effect ∈ log → effect.stores.length = m.storeSize) ∧
    (final.step.1.isChange = false →
      final.step.2.cpu = { final.cpu with pc := final.step.2.cpu.pc }) := by
  intro log final
  have hmemory : final.cpu.memory = Memory.empty.writeAll (log.flatMap Trace.stores) :=
    memory_stepFor (s.load code) n
  refine ⟨fun r hr => ?_, hmemory, fun address => ?_, fun pc m effect h => ?_,
    final.reports_step.frame⟩
  · have hzero : (s.load code).cpu.register r = 0 := by
      cases r with
      | a | b | x => rfl
      | pc => exact absurd rfl hr
    rw [← hzero]
    exact register_stepFor (s.load code) n hr
  · rw [hmemory, Memory.isWritten_writeAll]
    simp [Memory.IsWritten, Memory.empty]
  · exact length_stores_of_mem_stepFor h

/-- A word store at the last address wraps round, and a comparison behind it changes nothing. -/
theorem replay_log_wrapping_store :
    let code : Text := "CE 12 34\nFF FF FF\n11"
    let log := (stepFor 2 ((idle .byHalves).load code)).1
    let final := (stepFor 2 ((idle .byHalves).load code)).2
    Register.x ≠ .pc ∧ final.cpu.register .x = (lastSet? log .x).getD 0 ∧
    lastSet? log .x = some 0x1234 ∧
    (.executed 0xC003 .stx (.storeWord 0xFFFF 0x1234) ∈ log ∧
      (Effect.storeWord 0xFFFF 0x1234).stores.length = Mnemonic.stx.storeSize) ∧
    final.step.1.isChange = false ∧
      final.step.2.cpu = { final.cpu with pc := final.step.2.cpu.pc } := by
  intro code log final
  have hx : Register.x ≠ .pc := by decide
  have hmem : .executed 0xC003 .stx (.storeWord 0xFFFF 0x1234) ∈ log := by decide +kernel
  have hframe : final.step.1.isChange = false := by decide +kernel
  obtain ⟨hregister, -, -, hsize, hkept⟩ := replay_log (idle .byHalves) code 2
  exact ⟨hx, hregister .x hx, by decide +kernel, ⟨hmem, hsize _ _ _ hmem⟩, hframe, hkept hframe⟩

end Session

end Mc6800
