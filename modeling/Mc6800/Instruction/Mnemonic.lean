import Mc6800.Text.Basic

/-!
# Mnemonics

The instruction names of the supported subset. A name is recognised in either case.
-/

set_option autoImplicit false

namespace Mc6800

/-- The names of the supported instructions. -/
inductive Mnemonic where
  | ldaa | ldab | ldx | staa | stab | stx | tab | tba | clra | clrb
  | adda | addb | suba | subb | anda | aba | sba | inca | deca | incb | decb | inx | dex
  | asla | aslb | lsra | lsrb | asra | asrb | rola | rolb | rora | rorb
  | cmpa | cmpb | cba
  | bra | bsr | beq | bne | bmi | bpl | jmp | jsr | rts
  | nop | clc | sec
  deriving DecidableEq, Repr

namespace Mnemonic

/-- All mnemonics. -/
def all : List Mnemonic :=
  [ldaa, ldab, ldx, staa, stab, stx, tab, tba, clra, clrb,
    adda, addb, suba, subb, anda, aba, sba, inca, deca, incb, decb, inx, dex,
    asla, aslb, lsra, lsrb, asra, asrb, rola, rolb, rora, rorb,
    cmpa, cmpb, cba,
    bra, bsr, beq, bne, bmi, bpl, jmp, jsr, rts,
    nop, clc, sec]

/-- The mnemonic as it is written, in upper case. -/
def name : Mnemonic → Text
  | ldaa => "LDAA"
  | ldab => "LDAB"
  | ldx => "LDX"
  | staa => "STAA"
  | stab => "STAB"
  | stx => "STX"
  | tab => "TAB"
  | tba => "TBA"
  | clra => "CLRA"
  | clrb => "CLRB"
  | adda => "ADDA"
  | addb => "ADDB"
  | suba => "SUBA"
  | subb => "SUBB"
  | anda => "ANDA"
  | aba => "ABA"
  | sba => "SBA"
  | inca => "INCA"
  | deca => "DECA"
  | incb => "INCB"
  | decb => "DECB"
  | inx => "INX"
  | dex => "DEX"
  | asla => "ASLA"
  | aslb => "ASLB"
  | lsra => "LSRA"
  | lsrb => "LSRB"
  | asra => "ASRA"
  | asrb => "ASRB"
  | rola => "ROLA"
  | rolb => "ROLB"
  | rora => "RORA"
  | rorb => "RORB"
  | cmpa => "CMPA"
  | cmpb => "CMPB"
  | cba => "CBA"
  | bra => "BRA"
  | bsr => "BSR"
  | beq => "BEQ"
  | bne => "BNE"
  | bmi => "BMI"
  | bpl => "BPL"
  | jmp => "JMP"
  | jsr => "JSR"
  | rts => "RTS"
  | nop => "NOP"
  | clc => "CLC"
  | sec => "SEC"

/-- The mnemonic that a word names, in either case. -/
def ofWord? (word : Text) : Option Mnemonic := all.find? fun m => m.name == Text.upper word

theorem mem_all (m : Mnemonic) : m ∈ all := by cases m <;> decide

theorem ofWord?_name (m : Mnemonic) : ofWord? m.name = some m := by cases m <;> decide

theorem name_injective {m n : Mnemonic} (h : m.name = n.name) : m = n :=
  Option.some.inj (by rw [← ofWord?_name m, h, ofWord?_name n])

theorem upper_name (m : Mnemonic) : Text.upper m.name = m.name := by cases m <;> decide

/-- A word names `m` exactly when it is the name of `m` up to case. -/
theorem ofWord?_eq_some_iff {word : Text} {m : Mnemonic} :
    ofWord? word = some m ↔ Text.upper word = m.name := by
  constructor
  · intro h
    have := List.find?_some h
    exact (beq_iff_eq.1 this).symm
  · intro h
    rw [← ofWord?_name m, ofWord?, ofWord?, h, upper_name]

end Mnemonic

end Mc6800
