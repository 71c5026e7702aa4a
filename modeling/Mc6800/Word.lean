/-!
# Bytes and words

The two widths of the machine: bytes, and words of two bytes, high byte first, which are also its
addresses. Taking a word apart and putting it together again gives the word back.
-/

set_option autoImplicit false

namespace Mc6800

/-- Eight bits: an accumulator, a memory cell, an opcode. -/
abbrev Byte := UInt8

/-- Sixteen bits: an address, the index register, the program counter. -/
abbrev Word := UInt16

/-! ## Bytes -/

namespace Byte

/-- The value of a byte read as a two's complement number. -/
def signed (b : Byte) : Int := if b.toNat < 128 then b.toNat else (b.toNat : Int) - 256

/-- Whether the top bit is set. -/
def isNegative (b : Byte) : Bool := 128 ≤ b.toNat

/-- One place to the right, the top bit kept. -/
def halveSigned (b : Byte) : Byte := (b >>> 1) ||| (b &&& 0x80)

/-- One place to the left, the top bit coming back at the bottom. -/
def rotateLeft (b : Byte) : Byte := (b <<< 1) ||| (b >>> 7)

/-- One place to the right, the bottom bit coming back at the top. -/
def rotateRight (b : Byte) : Byte := (b >>> 1) ||| (b <<< 7)

end Byte

/-! ## Words -/

namespace Word

/-- The word with these two bytes. -/
def ofBytes (high low : Byte) : Word := UInt16.ofNat (256 * high.toNat + low.toNat)

/-- The upper byte. -/
def high (w : Word) : Byte := UInt8.ofNat (w.toNat / 256)

/-- The lower byte. -/
def low (w : Word) : Byte := UInt8.ofNat (w.toNat % 256)

/-- The value of a word read as a two's complement number. -/
def signed (w : Word) : Int := if w.toNat < 32768 then w.toNat else (w.toNat : Int) - 65536

theorem ofBytes_high_low (w : Word) : ofBytes (high w) (low w) = w := by
  apply UInt16.toNat.inj
  have hw : w.toNat < 65536 := w.toNat_lt
  simp only [ofBytes, high, low, UInt16.toNat_ofNat', UInt8.toNat_ofNat']
  omega

theorem high_ofBytes (h l : Byte) : high (ofBytes h l) = h := by
  apply UInt8.toNat.inj
  have hh : h.toNat < 256 := h.toNat_lt
  have hl : l.toNat < 256 := l.toNat_lt
  simp only [ofBytes, high, UInt16.toNat_ofNat', UInt8.toNat_ofNat']
  omega

theorem low_ofBytes (h l : Byte) : low (ofBytes h l) = l := by
  apply UInt8.toNat.inj
  have hh : h.toNat < 256 := h.toNat_lt
  have hl : l.toNat < 256 := l.toNat_lt
  simp only [ofBytes, low, UInt16.toNat_ofNat', UInt8.toNat_ofNat']
  omega

end Word

end Mc6800
