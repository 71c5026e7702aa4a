import Mc6800.Proofs.MachineCode.Loaded
import Mc6800.Proofs.Session.Steps

/-!
# A session follows the image

A session moves a cursor over lines and the program counter over addresses. On an assembly without
faults and origins the two never part (`Session.Tracks`): the program counter is the address of the
line under the cursor, so the session executes what a machine executes that knows only the image and
fetches each instruction at its program counter (`Session.follows_image`).
-/

set_option autoImplicit false

namespace Mc6800

/-! ## A machine that fetches -/

/-- The instruction at an address of an image that lies at the load address, with the bytes behind
its opcode. -/
def fetch? (image : List Byte) (address : Word) : Option (Instruction × List Byte) :=
  match image.drop (address - loadAddress).toNat with
  | [] => none
  | opcode :: rest => (Instruction.decode? opcode).map fun i => (i, rest.take (i.length - 1))

namespace Assembly

/-- Whether the code of a line begins at an address. -/
def HasCodeAt (a : Assembly) (address : Word) : Prop :=
  ∃ l ∈ a.lines, l.address = address ∧ l.outcome.code ≠ []

instance (a : Assembly) (address : Word) : Decidable (a.HasCodeAt address) :=
  inferInstanceAs (Decidable (∃ l ∈ a.lines, _))

/-- A step of the machine that fetches from the image: what it reports, and the state behind it. The
machine stops where no instruction was assembled. -/
def fetchStep? (a : Assembly) (c : Cpu) : Option (Trace × Cpu) :=
  if a.HasCodeAt c.pc then
    (fetch? a.image c.pc).map fun (i, operands) =>
      let (effect, after) := c.execute i operands
      (.executed c.pc i.mnemonic effect, after.advance i effect)
  else none

/-- At most `n` steps of that machine. -/
def fetchRun (a : Assembly) : Nat → Cpu → List Trace × Cpu
  | 0, c => ([], c)
  | n + 1, c =>
    match a.fetchStep? c with
    | none => ([], c)
    | some (trace, c) => (trace :: (a.fetchRun n c).1, (a.fetchRun n c).2)

/-! ## Runnable assemblies -/

/-- Every line is empty or an instruction, all lines lie one behind the other from the load address,
and there are more addresses than bytes. -/
structure IsRunnable (a : Assembly) : Prop where
  outcome : ∀ l ∈ a.lines, l.outcome = .empty ∨ ∃ i operands,
    l.outcome = .bytes (i.opcode :: operands) ∧ Instruction.decode? i.opcode = some i ∧
      operands.length + 1 = i.length
  address : ∀ i l, a.lines[i]? = some l → l.address = a.addressBefore i
  size : a.image.length ≤ 65535

variable {a : Assembly}

namespace IsRunnable

theorem isReadable (ha : a.IsRunnable) : ∀ l ∈ a.lines, l.outcome.IsReadable := by
  intro l hl
  rcases ha.outcome l hl with h | ⟨i, operands, h, -⟩
  · rw [h]
    trivial
  · rw [h]
    exact List.cons_ne_nil _ _

theorem isLoadable (ha : a.IsRunnable) : a.IsLoadable := ⟨ha.isReadable, ha.size⟩

theorem offset_eq (ha : a.IsRunnable) {i : Nat} :
    (a.addressBefore i - loadAddress).toNat = (a.codeBefore i).length := by
  have hle := a.length_codeBefore_le i
  have hsize := ha.size
  have hsub : a.addressBefore i - loadAddress = UInt16.ofNat (a.codeBefore i).length := by
    rw [addressBefore]
    grind
  rw [hsub, UInt16.toNat_ofNat']
  omega

theorem take_drop_image (ha : a.IsRunnable) {i : Nat} {l : PlacedLine} (hl : a.lines[i]? = some l) :
    (a.image.drop (l.address - loadAddress).toNat).take l.outcome.code.length =
      l.outcome.code := by
  rw [ha.address i l hl, ha.offset_eq, image_eq_append hl, List.drop_left, List.take_left]

theorem fetch?_eq (ha : a.IsRunnable) {k : Nat} {l : PlacedLine} {i : Instruction}
    {operands : List Byte} (hl : a.lines[k]? = some l)
    (hcode : l.outcome = .bytes (i.opcode :: operands))
    (hdecode : Instruction.decode? i.opcode = some i) (hlength : operands.length + 1 = i.length) :
    fetch? a.image l.address = some (i, operands) := by
  have hoperands : operands.length = i.length - 1 := by omega
  rw [fetch?, ha.address k l hl, ha.offset_eq, image_eq_append hl, List.drop_left, hcode,
    LineOutcome.code, List.cons_append]
  simp only [hdecode, Option.map_some, ← hoperands, List.take_left]

/-! ## The loaded program -/

theorem getElem?_loaded (ha : a.IsRunnable) {i : Nat} (hi : i < a.loaded.size) :
    ∃ l, a.lines[i]? = some l ∧
      a.loaded.entries[i]? = some ⟨l.address, l.outcome.toCodeLine⟩ := by
  obtain ⟨l, hl, he⟩ := ha.isLoadable.getElem?_loaded hi
  exact ⟨l, hl, by rw [he, ha.address i l hl]⟩

theorem exists_line_of_indexOf? (ha : a.IsRunnable) {search : Search} {target : Word} {k : Nat}
    (h : a.loaded.indexOf? search target = some k) :
    ∃ l, a.lines[k]? = some l ∧ l.address = target ∧ l.outcome.code ≠ [] := by
  obtain ⟨⟨l, hl, hcode⟩, haddress⟩ := ha.isLoadable.indexOf?_loaded_iff.1 h
  exact ⟨l, hl, by rw [ha.address k l hl, haddress], hcode⟩

theorem not_hasCodeAt_of_indexOf? (ha : a.IsRunnable) {search : Search} {target : Word}
    (h : a.loaded.indexOf? search target = none) : ¬a.HasCodeAt target := by
  rintro ⟨l, hmem, haddress, hcode⟩
  obtain ⟨i, hl⟩ := List.mem_iff_getElem?.1 hmem
  rw [ha.isLoadable.indexOf?_loaded_iff.2 ⟨⟨l, hl, hcode⟩, by rw [← ha.address i l hl, haddress]⟩]
    at h
  cases h

theorem not_hasCodeAt_of_size_le (ha : a.IsRunnable) {i : Nat} (hi : a.loaded.size ≤ i) :
    ¬a.HasCodeAt (a.addressBefore i) := by
  rintro ⟨l, hmem, haddress, hcode⟩
  obtain ⟨k, hl⟩ := List.mem_iff_getElem?.1 hmem
  have hoffset : (a.codeBefore k).length = a.image.length := by
    rw [← ha.offset_eq, ← ha.address k l hl, haddress, ha.offset_eq,
      codeBefore_of_le (ha.isLoadable.size_loaded ▸ hi)]
  have hpos := List.length_pos_iff.2 hcode
  have himage := congrArg List.length (image_eq_append hl)
  simp only [List.length_append] at himage
  omega

end IsRunnable

end Assembly

/-! ## One step -/

namespace Session

/-- The program counter is the address behind the lines in front of the cursor, and at the end it
is no address at which code begins. -/
structure Tracks (a : Assembly) (s : Session) : Prop where
  program : s.program = a.loaded
  counter : s.status ≠ .completed → s.cpu.pc = a.addressBefore s.cursor
  stopped : s.status = .completed → ¬a.HasCodeAt s.cpu.pc

/-- Control has gone to an address: on to the line whose code begins there, or to the end if there
is none. -/
def ArrivesAt (a : Assembly) (s : Session) (target : Word) : Prop :=
  s.cpu.pc = target ∧
    ((∃ l, a.lines[s.cursor]? = some l ∧ l.address = target ∧ l.outcome.code ≠ [] ∧
      s.status = .running) ∨
    (¬a.HasCodeAt target ∧ s.status = .completed))

/-- What a step that tracks an assembly may be: an instruction that is fetched from the image, or
something that leaves the processor alone. -/
structure Follows (a : Assembly) (s : Session) : Prop where
  tracks : s.step.2.Tracks a
  accepts : s.step.1.isRefusal = false
  fetches : if s.step.1.isExecuted then a.fetchStep? s.cpu = some (s.step.1, s.step.2.cpu)
    else s.step.2.cpu = s.cpu
  arrives : ∀ target, s.step.1.target? = some target → s.step.2.ArrivesAt a target

variable {a : Assembly} {s : Session}

theorem tracks_load (a : Assembly) (s : Session) : (s.load a.machineCode).Tracks a := by
  refine ⟨rfl, fun _ => ?_, fun h => by cases h⟩
  simp [load, Cpu.reset, Assembly.addressBefore, Assembly.codeBefore]

theorem tracks_settle (ha : a.IsRunnable) (hprogram : s.program = a.loaded)
    (hstatus : s.status = .running) (hpc : s.cpu.pc = a.addressBefore s.cursor) :
    s.settle.Tracks a := by
  rcases status_settle hstatus with ⟨-, h⟩ | ⟨hge, h⟩
  · exact ⟨hprogram, fun _ => hpc, fun hc => by rw [h] at hc; cases hc⟩
  · refine ⟨hprogram, fun hc => absurd h hc, fun _ => ?_⟩
    rw [cpu_settle, hpc]
    exact ha.not_hasCodeAt_of_size_le (hprogram ▸ hge)

theorem arrivesAt_settle (ha : a.IsRunnable) (hprogram : s.program = a.loaded)
    (hstatus : s.status = .running)
    (hcursor : s.cursor = (s.program.indexOf? s.search s.cpu.pc).getD s.program.size) :
    s.settle.Tracks a ∧ s.settle.ArrivesAt a s.cpu.pc := by
  rw [hprogram] at hcursor
  cases hindex : a.loaded.indexOf? s.search s.cpu.pc with
  | none =>
    rw [hindex, Option.getD_none] at hcursor
    have hnot := ha.not_hasCodeAt_of_indexOf? hindex
    rcases status_settle hstatus with ⟨hlt, -⟩ | ⟨-, h⟩
    · rw [hprogram] at hlt
      omega
    · exact ⟨⟨hprogram, fun hc => absurd h hc, fun _ => hnot⟩, rfl, .inr ⟨hnot, h⟩⟩
  | some k =>
    rw [hindex, Option.getD_some] at hcursor
    have hk := Program.lt_size_of_indexFrom? hindex
    obtain ⟨l, hl, haddress, hcode⟩ := ha.exists_line_of_indexOf? hindex
    rw [← hcursor] at hl
    refine ⟨tracks_settle ha hprogram hstatus ?_, rfl, .inl ⟨l, hl, haddress, hcode, ?_⟩⟩
    · rw [← ha.address _ l hl, haddress]
    · rcases status_settle hstatus with ⟨-, h⟩ | ⟨hge, -⟩
      · exact h
      · rw [hprogram] at hge
        omega

theorem Tracks.follows_blank (ha : a.IsRunnable) (h : s.Tracks a) {l : PlacedLine}
    (hstatus : s.status = .running) (hl : a.lines[s.cursor]? = some l) (ho : l.outcome = .empty)
    (hstep : s.step = ((s.carryOut .blank).1, (s.carryOut .blank).2.settle)) : s.Follows a := by
  have hpc : s.cpu.pc = a.addressBefore (s.cursor + 1) := by
    rw [Assembly.addressBefore_succ hl, ho, h.counter (by simp [hstatus])]
    simp [LineOutcome.code]
  refine ⟨?_, by rw [hstep]; rfl, by rw [hstep]; rfl, fun target ht => ?_⟩
  · rw [hstep]
    exact tracks_settle ha h.program hstatus hpc
  · rw [hstep] at ht
    cases ht

/-- The session behind an instruction, with the step not counted yet. -/
def behindInstruction (s : Session) (i : Instruction) (operands : List Byte) : Session :=
  { s with
    cpu := (s.cpu.execute i operands).2.advance i (s.cpu.effectOf i operands)
    cursor := s.cursorAfter (s.cpu.effectOf i operands) }

theorem carryOut_bytes {i : Instruction} (hdecode : Instruction.decode? i.opcode = some i)
    (operands : List Byte) :
    s.carryOut (.bytes i.opcode operands) =
      (.executed s.cpu.pc i.mnemonic (s.cpu.effectOf i operands),
        s.behindInstruction i operands) := by
  simp only [carryOut, hdecode]
  rfl

/-- An instruction moves program counter and cursor by its own length or to its target. -/
theorem Tracks.settle_behindInstruction (ha : a.IsRunnable) (h : s.Tracks a) {l : PlacedLine}
    {i : Instruction} (hstatus : s.status = .running) (hl : a.lines[s.cursor]? = some l)
    (hlength : l.outcome.code.length = i.length) (operands : List Byte) :
    (s.behindInstruction i operands).settle.Tracks a ∧
      ∀ target, (s.cpu.effectOf i operands).target? = some target →
        (s.behindInstruction i operands).settle.ArrivesAt a target := by
  cases htarget : (s.cpu.effectOf i operands).target? with
  | none =>
    refine ⟨tracks_settle ha h.program hstatus ?_, fun target ht => by cases ht⟩
    simp only [behindInstruction, Cpu.pc_advance, Cpu.pc_execute, cursorAfter, htarget,
      Option.getD_none]
    rw [Assembly.addressBefore_succ hl, hlength, h.counter (by simp [hstatus])]
  | some t =>
    have hpc : (s.behindInstruction i operands).cpu.pc = t := by
      simp only [behindInstruction, Cpu.pc_advance, htarget, Option.getD_some]
    have hcursor : (s.behindInstruction i operands).cursor =
        (s.program.indexOf? s.search t).getD s.program.size := by
      simp only [behindInstruction, cursorAfter, htarget]
    obtain ⟨htracks, harrives⟩ := arrivesAt_settle (s := s.behindInstruction i operands) ha
      h.program hstatus (by rw [hpc]; exact hcursor)
    refine ⟨htracks, fun target ht => ?_⟩
    rw [Option.some.injEq] at ht
    rw [← ht, ← hpc]
    exact harrives

theorem Tracks.follows_instruction (ha : a.IsRunnable) (h : s.Tracks a) {l : PlacedLine}
    {i : Instruction} {operands : List Byte} (hstatus : s.status = .running)
    (hl : a.lines[s.cursor]? = some l) (ho : l.outcome = .bytes (i.opcode :: operands))
    (hdecode : Instruction.decode? i.opcode = some i) (hlength : operands.length + 1 = i.length)
    (hstep : s.step = ((s.carryOut (.bytes i.opcode operands)).1,
      (s.carryOut (.bytes i.opcode operands)).2.settle)) : s.Follows a := by
  have hpc : s.cpu.pc = l.address := by
    rw [ha.address _ l hl]
    exact h.counter (by simp [hstatus])
  have hhas : a.HasCodeAt s.cpu.pc :=
    ⟨l, List.mem_of_getElem? hl, hpc.symm, by rw [ho]; exact List.cons_ne_nil _ _⟩
  have hfetch : fetch? a.image s.cpu.pc = some (i, operands) := by
    rw [hpc]
    exact ha.fetch?_eq hl ho hdecode hlength
  obtain ⟨htracks, harrives⟩ := h.settle_behindInstruction ha hstatus hl (i := i)
    (by rw [ho]; exact hlength) operands
  rw [carryOut_bytes hdecode] at hstep
  refine ⟨by rw [hstep]; exact htracks, by rw [hstep]; rfl, ?_, fun target ht => ?_⟩
  · rw [hstep]
    show a.fetchStep? s.cpu = some _
    rw [Assembly.fetchStep?, if_pos hhas, hfetch]
    rfl
  · rw [hstep] at ht ⊢
    exact harrives target ht

/-- **One step follows the image.** -/
theorem Tracks.follows (ha : a.IsRunnable) (h : s.Tracks a) : s.Follows a := by
  rcases s.step_cases with ⟨-, hnotice, hs⟩ | ⟨hstatus, -, hstep⟩ | ⟨hstatus, hge, hstep⟩ |
    ⟨e, hstatus, -, he, hstep⟩
  · obtain ⟨hexecuted, hrefusal, htarget⟩ := Trace.of_isNotice hnotice
    refine ⟨by rwa [hs], hrefusal, ?_, fun target ht => ?_⟩
    · rw [hexecuted, hs]
      rfl
    · rw [htarget] at ht
      cases ht
  · have hpc := h.counter (by simp [hstatus])
    refine ⟨?_, by rw [hstep]; rfl, by rw [hstep]; rfl, fun target ht => ?_⟩
    · rw [hstep]
      exact ⟨h.program, fun _ => hpc, fun hc => by cases hc⟩
    · rw [hstep] at ht
      cases ht
  · have hpc := h.counter (by simp [hstatus])
    refine ⟨?_, by rw [hstep]; rfl, by rw [hstep]; rfl, fun target ht => ?_⟩
    · rw [hstep]
      refine ⟨h.program, fun hc => absurd rfl hc, fun _ => ?_⟩
      rw [hpc]
      exact ha.not_hasCodeAt_of_size_le (h.program ▸ hge)
    · rw [hstep] at ht
      cases ht
  · rw [h.program] at he
    obtain ⟨l, hl, hentry⟩ := ha.getElem?_loaded (List.getElem?_eq_some_iff.1 he).1
    rw [he, Option.some.injEq] at hentry
    subst hentry
    rcases ha.outcome l (List.mem_of_getElem? hl) with ho | ⟨i, operands, ho, hdecode, hlength⟩
    · exact h.follows_blank ha hstatus hl ho (by rw [hstep, ho]; rfl)
    · exact h.follows_instruction ha hstatus hl ho hdecode hlength (by rw [hstep, ho]; rfl)

/-! ## Many steps -/

/-- Any number of steps follow the image: nothing is refused, and the machine executes the same
instructions from the same state. -/
theorem Tracks.follows_stepFor (ha : a.IsRunnable) (h : s.Tracks a) (n : Nat) :
    let log := (stepFor n s).1
    let final := (stepFor n s).2
    final.Tracks a ∧ (∀ trace ∈ log, trace.isRefusal = false) ∧
      a.fetchRun (log.filter Trace.isExecuted).length s.cpu =
        (log.filter Trace.isExecuted, final.cpu) := by
  induction n generalizing s with
  | zero => exact ⟨h, by simp [stepFor], rfl⟩
  | succ n ih =>
    obtain ⟨htracks, haccepts, hfetches, -⟩ := h.follows ha
    obtain ⟨hfinal, hlog, hrun⟩ := ih htracks
    refine ⟨hfinal, ?_, ?_⟩
    · simpa [stepFor, haccepts] using hlog
    · simp only [stepFor]
      cases hexecuted : s.step.1.isExecuted with
      | false =>
        rw [hexecuted, if_neg (by simp)] at hfetches
        rw [List.filter_cons_of_neg (by simp [hexecuted]), ← hfetches]
        exact hrun
      | true =>
        rw [hexecuted, if_pos rfl] at hfetches
        rw [List.filter_cons_of_pos hexecuted, List.length_cons, Assembly.fetchRun, hfetches]
        simp only [hrun]

/-- The machine stops with the session, unless that was stopped by its ceiling. -/
theorem Tracks.fetchStep?_eq_none (ha : a.IsRunnable) (h : s.Tracks a)
    (hnext : s.hasNextStep = false) (hstatus : s.status ≠ .halted) (hidle : s.status ≠ .idle) :
    a.fetchStep? s.cpu = none := by
  have hnot : ¬a.HasCodeAt s.cpu.pc := by
    cases hs : s.status with
    | idle => exact absurd hs hidle
    | halted => exact absurd hs hstatus
    | completed => exact h.stopped hs
    | running =>
      have hge : a.loaded.size ≤ s.cursor := by
        simpa [hasNextStep, hs, h.program] using hnext
      rw [h.counter (by simp [hs])]
      exact ha.not_hasCodeAt_of_size_le hge
  rw [Assembly.fetchStep?, if_neg hnot]

end Session

/-! ## Sources -/

theorem isRunnable_assemble {source : Text}
    (horigin : ∀ st ∈ (Assembler.ofSource source).statements, st.isOrigin = false)
    (hfaults : (assemble source).hasFaults = false)
    (hsize : (assemble source).image.length ≤ 65535) : (assemble source).IsRunnable := by
  refine ⟨fun l hl => ?_, fun i l hl => ?_, hsize⟩
  · obtain ⟨st, hst, location, ho⟩ := Assembler.exists_statement_of_mem_lines _ hl
    have hfault := Assembly.isFault_eq_false hfaults hl
    cases hcode : l.outcome with
    | empty => exact .inl rfl
    | fault _ _ => simp [hcode, LineOutcome.isFault] at hfault
    | bytes code =>
      rw [hcode] at ho
      exact .inr (by simpa using st.exists_decode?_of_outcome_eq_bytes ho.symm)
  · exact Assembler.address_of_no_target
      (fun st hst => Statement.target?_of_not_isOrigin (horigin st hst)) hl

/-- **A session follows the image.** After any number of steps, under any ceiling, the program
counter of a running session is the address of the line under its cursor and the image holds the
line's code there. No line is refused, and a transfer of control arrives at the line whose code
begins at its target or at the end. All in all the session executes the instructions that the
machine fetches from the image, and stops with it unless its ceiling stops it first. -/
theorem Session.follows_image (s : Session) (source : Text)
    (horigin : ∀ st ∈ (Assembler.ofSource source).statements, st.isOrigin = false)
    (hfaults : (assemble source).hasFaults = false)
    (hsize : (assemble source).image.length ≤ 65535) (n : Nat) :
    let a := assemble source
    let log := (stepFor n (s.load a.machineCode)).1
    let final := (stepFor n (s.load a.machineCode)).2
    (final.status = .running → final.cursor < final.program.size →
      ∃ l, a.lines[final.cursor]? = some l ∧ final.cpu.pc = l.address ∧
        (a.image.drop (final.cpu.pc - loadAddress).toNat).take l.outcome.code.length =
          l.outcome.code) ∧
    (∀ trace ∈ log, trace.isRefusal = false) ∧
    (∀ target, final.step.1.target? = some target → final.step.2.ArrivesAt a target) ∧
    a.fetchRun (log.filter Trace.isExecuted).length (.reset loadAddress) =
      (log.filter Trace.isExecuted, final.cpu) ∧
    (final.hasNextStep = false → final.status ≠ .halted → a.fetchStep? final.cpu = none) := by
  intro a log final
  have ha : a.IsRunnable := isRunnable_assemble horigin hfaults hsize
  obtain ⟨htracks, hlog, hrun⟩ := (tracks_load a s).follows_stepFor ha n
  refine ⟨fun hstatus hcursor => ?_, hlog, (htracks.follows ha).arrives, hrun,
    fun hnext hhalt => ?_⟩
  · obtain ⟨l, hl, -⟩ := ha.getElem?_loaded (htracks.program ▸ hcursor)
    have hpc : final.cpu.pc = l.address := by
      rw [ha.address _ l hl]
      exact htracks.counter fun hc => absurd (hstatus.symm.trans hc) (by decide)
    refine ⟨l, hl, hpc, ?_⟩
    rw [hpc]
    exact ha.take_drop_image hl
  · exact htracks.fetchStep?_eq_none ha hnext hhalt
      (status_stepFor_ne_idle (by simp [load]) n)

/-- A loop over a blank line: the branch goes back to the line at its target. -/
theorem Session.follows_image_loop :
    let source : Text := "LDAB #$02\nLOOP DECB\n\nBNE LOOP\nNOP"
    let final := (stepFor 3 ((idle .byHalves).load (assemble source).machineCode)).2
    final.step.1.target? = some 0xC002 ∧ final.step.2.ArrivesAt (assemble source) 0xC002 := by
  intro source final
  have htarget : final.step.1.target? = some 0xC002 := by decide +kernel
  exact ⟨htarget, (follows_image (idle .byHalves) source (by decide +kernel) (by decide +kernel)
    (by decide +kernel) 3).2.2.1 _ htarget⟩

end Mc6800
