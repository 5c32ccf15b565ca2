/-
Runs of characters that pass a test.

A text starts with a run, which ends where the text does or before a character that fails the
test.  What stands after that has no say in it.
-/
import Mathlib.Data.List.TakeWhile

namespace TagGrammar

variable {α : Type} {test : α → Bool} {run cs x z : List α}

theorem takeWhile_append_stop (h : cs.dropWhile test ≠ [] ∨ z.head?.any test = false) :
    (cs ++ z).takeWhile test = cs.takeWhile test := by
  induction cs with
  | nil =>
    cases z with
    | nil => rfl
    | cons c z =>
      have hc : test c = false := by simpa using h
      simp [hc]
  | cons c cs ih =>
    by_cases hc : test c = true
    · simp only [List.dropWhile_cons, hc, if_true] at h
      simp [hc, ih h]
    · simp [hc]

theorem dropWhile_append_stop (h : cs.dropWhile test ≠ [] ∨ z.head?.any test = false) :
    (cs ++ z).dropWhile test = cs.dropWhile test ++ z := by
  induction cs with
  | nil =>
    cases z with
    | nil => rfl
    | cons c z =>
      have hc : test c = false := by simpa using h
      simp [hc]
  | cons c cs ih =>
    by_cases hc : test c = true
    · simp only [List.dropWhile_cons, hc, if_true] at h
      simp [hc, ih h]
    · simp [hc]

theorem takeWhile_run (hrun : ∀ c ∈ run, test c = true) (hx : x.head?.any test = false) :
    (run ++ x).takeWhile test = run :=
  (takeWhile_append_stop (.inr hx)).trans (List.takeWhile_eq_self_iff.mpr hrun)

theorem dropWhile_run (hrun : ∀ c ∈ run, test c = true) (hx : x.head?.any test = false) :
    (run ++ x).dropWhile test = x := by
  rw [dropWhile_append_stop (.inr hx), List.dropWhile_eq_nil_iff.mpr hrun, List.nil_append]

theorem all_takeWhile (test : α → Bool) (cs : List α) : ∀ c ∈ cs.takeWhile test, test c = true :=
  List.all_eq_true.mp List.all_takeWhile

theorem head?_dropWhile_any (cs : List α) : (cs.dropWhile test).head?.any test = false := by
  have hnot := List.head?_dropWhile_not test cs
  cases hhead : (cs.dropWhile test).head? with
  | none => rfl
  | some c =>
    rw [hhead] at hnot
    simpa using hnot

/-- Every text begins with a run that a character of another kind ends. -/
theorem exists_run (test : α → Bool) (cs : List α) :
    ∃ run x, cs = run ++ x ∧ (∀ c ∈ run, test c = true) ∧ x.head?.any test = false :=
  ⟨cs.takeWhile test, cs.dropWhile test, (List.takeWhile_append_dropWhile ..).symm,
    all_takeWhile test cs, head?_dropWhile_any cs⟩

end TagGrammar
