import Mathlib.Data.List.TakeWhile
import Mc6800.Proofs.Operand.Grammar
import Mc6800.Text.Span

/-!
# Computations that may be cut off

A piece of a text is asked for by bytes, an item of a list by its number, and numbers have a
largest one. A computation that asks for what is not there, or cuts a character in two, or goes
beyond the numbers there are, ends in a trap (`Checked`).

The largest count `max` is a parameter: the sizes of texts and the lengths of lists that exist are
counts, and nothing else is known of it.
-/

set_option autoImplicit false

namespace Mc6800

/-- Why a computation is cut off. -/
inductive Trap where
  /-- A piece of a text is out of its range or cuts a character in two. -/
  | slice
  /-- An item of a list is not there. -/
  | index
  /-- A number is out of its range. -/
  | overflow
  deriving DecidableEq, Repr

/-- A computation that may be cut off. -/
abbrev Checked (α : Type) := Except Trap α

namespace Checked

variable {α β : Type}

@[simp] theorem ok_bind (x : α) (f : α → Checked β) : (Except.ok x : Checked α) >>= f = f x := rfl

@[simp] theorem error_bind (trap : Trap) (f : α → Checked β) :
    (Except.error trap : Checked α) >>= f = .error trap := rfl

@[simp] theorem pure_eq (x : α) : (pure x : Checked α) = .ok x := rfl

/-- A choice between a trap and a value, with more to do behind the value. -/
theorem ite_bind (p : Prop) [Decidable p] (trap : Trap) (x : α) (f : α → Checked β) :
    (if p then Except.error trap else .ok x : Checked α) >>= f =
      if p then .error trap else f x := by
  split <;> rfl

/-! ## Texts -/

/-- The text from byte `n` on. -/
def bytesFrom (n : Nat) (t : Text) : Checked Text :=
  match Text.dropBytes? n t with
  | none => .error .slice
  | some rest => .ok rest

/-- The text up to byte `n`. -/
def bytesUpTo (n : Nat) (t : Text) : Checked Text :=
  match Text.takeBytes? n t with
  | none => .error .slice
  | some front => .ok front

/-- The text behind some bytes is its end. -/
theorem exists_of_dropBytes? {n : Nat} {t rest : Text} (h : Text.dropBytes? n t = some rest) :
    ∃ front, t = front ++ rest ∧ Text.size front = n := by
  induction t generalizing n with
  | nil =>
    cases n with
    | zero => exact ⟨[], Option.some.inj h, rfl⟩
    | succ n => cases h
  | cons c tail ih =>
    cases n with
    | zero => exact ⟨[], Option.some.inj h, rfl⟩
    | succ n =>
      rw [Text.dropBytes?] at h
      split at h
      · next hle =>
        obtain ⟨front, rfl, hsize⟩ := ih h
        refine ⟨c :: front, rfl, ?_⟩
        rw [Text.size_cons, hsize]
        omega
      · cases h

theorem bytesFrom_size_append (s t : Text) : bytesFrom (Text.size s) (s ++ t) = .ok t := by
  rw [bytesFrom, Text.dropBytes?_size_append]

theorem bytesUpTo_size_append (s t : Text) : bytesUpTo (Text.size s) (s ++ t) = .ok s := by
  rw [bytesUpTo, Text.takeBytes?_size_append]

theorem bytesUpTo_size_takeWhile (p : Char → Bool) (t : Text) :
    bytesUpTo (Text.size (t.takeWhile p)) t = .ok (t.takeWhile p) := by
  have h := bytesUpTo_size_append (t.takeWhile p) (t.dropWhile p)
  rwa [List.takeWhile_append_dropWhile] at h

/-- Byte 1 is within the first character. -/
example : bytesFrom 1 "é;" = .error .slice ∧ bytesFrom 2 "é;" = .ok ";" := by decide

/-- The place of the first character that satisfies `p`, in bytes. -/
def place? (p : Char → Bool) (t : Text) : Option Nat :=
  if t.any p then some (Text.size (t.takeWhile (!p ·))) else none

/-- A text without such a character is itself what stands in front of the first one. -/
theorem takeWhile_of_place?_eq_none {p : Char → Bool} {t : Text} (h : place? p t = none) :
    t.takeWhile (!p ·) = t := by
  unfold place? at h
  split at h
  · cases h
  · next hany =>
    refine List.takeWhile_eq_self_iff.2 fun c hc => ?_
    rw [Bool.not_eq_true']
    exact Bool.eq_false_iff.2 fun hp => hany (List.any_eq_true.2 ⟨c, hc, hp⟩)

theorem place?_eq_some {p : Char → Bool} {t : Text} {n : Nat} (h : place? p t = some n) :
    n = Text.size (t.takeWhile (!p ·)) := by
  unfold place? at h
  split at h
  · exact (Option.some.inj h).symm
  · cases h

theorem getD_place? (p : Char → Bool) (t : Text) :
    (place? p t).getD (Text.size t) = Text.size (t.takeWhile (!p ·)) := by
  cases h : place? p t with
  | none => rw [Option.getD_none, takeWhile_of_place?_eq_none h]
  | some n => exact place?_eq_some h

/-- The text behind a marker, if that is how it begins. -/
def stripPrefix (marker t : Text) : Checked (Option Text) :=
  if marker.isPrefixOf t then do
    let rest ← bytesFrom (Text.size marker) t
    return some rest
  else return none

theorem stripPrefix_append (marker t : Text) : stripPrefix marker (marker ++ t) = .ok (some t) := by
  rw [stripPrefix, if_pos (List.isPrefixOf_iff_prefix.2 (List.prefix_append marker t)),
    bytesFrom_size_append]
  rfl

theorem stripPrefix_of_not_isPrefix {marker t : Text} (h : ¬marker <+: t) :
    stripPrefix marker t = .ok none := by
  rw [stripPrefix, if_neg (mt List.isPrefixOf_iff_prefix.1 h)]
  rfl

/-! ## Lists -/

/-- Item `i` of a list. -/
def item (xs : List α) (i : Nat) : Checked α :=
  match xs[i]? with
  | none => .error .index
  | some x => .ok x

/-- The items of a list from item `i` on. -/
def itemsFrom (i : Nat) (xs : List α) : Checked (List α) :=
  if i ≤ xs.length then .ok (xs.drop i) else .error .index

theorem itemsFrom_of_le {i : Nat} {xs : List α} (h : i ≤ xs.length) :
    itemsFrom i xs = .ok (xs.drop i) := if_pos h

/-! ## Numbers -/

/-- The sum of two counts, as a count. -/
def add (max m n : Nat) : Checked Nat := if m + n ≤ max then .ok (m + n) else .error .overflow

/-- The difference of two counts, as a count. -/
def sub (m n : Nat) : Checked Nat := if n ≤ m then .ok (m - n) else .error .overflow

theorem add_of_le {max m n : Nat} (h : m + n ≤ max) : add max m n = .ok (m + n) := if_pos h

theorem sub_of_le {m n : Nat} (h : n ≤ m) : sub m n = .ok (m - n) := if_pos h

/-- The number in 32 bits, one of them for the sign. -/
def signed32 (v : Int) : Checked Int :=
  if Literal.FitsSigned v then .ok v else .error .overflow

/-- The number in 16 bits, one of them for the sign. -/
def signed16 (v : Int) : Checked Int :=
  if -0x8000 ≤ v ∧ v < 0x8000 then .ok v else .error .overflow

theorem signed32_of_fits {v : Int} (h : Literal.FitsSigned v) : signed32 v = .ok v := if_pos h

end Checked

end Mc6800
