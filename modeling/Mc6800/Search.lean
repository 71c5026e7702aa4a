/-!
# Searches by halves

In a list in which all elements that meet a test come first, a search by halves finds how many they
are, and looks at few of them. What it finds in any other list is up to the search: a `Search` is
any that keeps to this, and `Search.byHalves` is one.
-/

set_option autoImplicit false

namespace Mc6800

/-- A way to find how many elements of a list come in front of the first one that does not meet a
test. It is told of each element whether it meets the test. -/
structure Search where
  point : List Bool → Nat
  point_le (tests : List Bool) : point tests ≤ tests.length
  /-- If all elements that meet the test come before all that do not, the point is between them. -/
  point_append (m n : Nat) : point (List.replicate m true ++ List.replicate n false) = m

namespace Search

/-- The place at which halving ends among `size` places from `base` on. Of two halves it goes on in
the upper one if that begins with an element that meets the test. -/
def halve (tests : List Bool) (base size : Nat) : Nat :=
  if size ≤ 1 then base
  else
    let middle := base + size / 2
    if tests.getD middle false then halve tests middle (size - size / 2)
    else halve tests base (size - size / 2)
termination_by size

theorem halve_le (tests : List Bool) (base size : Nat) : halve tests base size ≤ base + size := by
  fun_induction halve tests base size with
  | case1 | case2 | case3 => omega

/-- If the point is at most `size` places behind `base`, halving ends at most one place in front of
it. -/
theorem halve_spec {tests : List Bool} {point : Nat}
    (htests : ∀ i, tests.getD i false = decide (i < point)) {base size : Nat} (hbase : base ≤ point)
    (hsize : point ≤ base + size) :
    halve tests base size ≤ point ∧ point ≤ halve tests base size + 1 := by
  fun_induction halve tests base size with
  | case1 base size _ => omega
  | case2 base size _ middle htest ih =>
    have hmiddle : middle < point := by rwa [htests, decide_eq_true_eq] at htest
    exact ih (Nat.le_of_lt hmiddle) (by omega)
  | case3 base size _ middle htest ih =>
    have hmiddle : ¬middle < point := by rwa [htests, decide_eq_true_eq] at htest
    exact ih hbase (by omega)

/-- The search that halves the list until one element is left. -/
def byHalves : Search where
  point tests :=
    let last := halve tests 0 tests.length
    if tests.getD last false then last + 1 else last
  point_le tests := by
    have hlast := halve_le tests 0 tests.length
    dsimp only
    split
    · next h =>
      refine Nat.lt_of_not_le fun hge => ?_
      rw [List.getD_eq_getElem?_getD, List.getElem?_eq_none hge] at h
      cases h
    · omega
  point_append m n := by
    have htests (i : Nat) :
        (List.replicate m true ++ List.replicate n false).getD i false = decide (i < m) := by
      grind
    obtain ⟨hle, hge⟩ := halve_spec htests (Nat.zero_le m)
      (by simp : m ≤ 0 + (List.replicate m true ++ List.replicate n false).length)
    dsimp only
    rw [htests]
    split
    · next h => exact Nat.le_antisymm (of_decide_eq_true h) hge
    · next h => exact Nat.le_antisymm hle (Nat.not_lt.1 (of_decide_eq_false (by simpa using h)))

/-- In a list that is not in order it may go past elements that do not meet the test. -/
example : byHalves.point [false, false, true, false] = 3 := by decide +kernel

end Search

end Mc6800
