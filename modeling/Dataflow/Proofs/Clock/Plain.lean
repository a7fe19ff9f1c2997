import Dataflow.Clock.Floating
import Mathlib.Data.List.Basic

/-!
# Clocks with plain texts

The text of a double is made of digits, a sign, a point and the letters of `NaN` and `inf`.  So it can
be told from what stands around it in the text of a graph.

* `Clock.Plain` — a clock in whose texts there are no brackets and no line breaks.
* `Decimal.marks_ofFloat` — the characters of a double's text.
-/

namespace Dataflow

/-- A clock in whose texts there are no brackets and no line breaks. -/
class Clock.Plain (τ : Type) [Clock τ] : Prop where
  notMem_text {c : Char} (hc : c ∈ ['[', ']', '\n']) (t : τ) : c ∉ (Clock.text t).toList

namespace Decimal

/-- A digit, a sign, a point or a letter of a name for what is no number. -/
def isMark (c : Char) : Bool := c.isDigit || ['-', '.', 'N', 'a', 'i', 'n', 'f'].contains c

/-- There is nothing but such characters in a text. -/
def Marks (s : String) : Prop := s.toList.all isMark = true

instance (s : String) : Decidable (Marks s) := inferInstanceAs (Decidable (_ = true))

lemma Marks.append {s s' : String} (hs : Marks s) (hs' : Marks s') : Marks (s ++ s') := by
  rw [Marks, String.toList_append, List.all_append, hs, hs', Bool.true_and]

lemma marks_ofList_digits {n : Nat} {l : List Char} (hl : ∀ c ∈ l, c ∈ Nat.toDigits 10 n) :
    Marks (String.ofList l) := by
  rw [Marks, String.toList_ofList, List.all_eq_true]
  intro c hc
  rw [isMark, Nat.isDigit_of_mem_toDigits (by decide) (by decide) (hl c hc), Bool.true_or]

lemma marks_zeros (n : Nat) : Marks (zeros n) := by
  rw [Marks, zeros, String.toList_ofList, List.all_eq_true]
  intro c hc
  rw [(List.mem_replicate.1 hc).2]
  decide

lemma marks_sign (negative : Bool) : Marks (sign negative) := by
  cases negative <;> decide

lemma marks_positional (d : Decimal) : Marks d.positional := by
  rw [positional]
  split
  case isTrue => exact (marks_ofList_digits fun _ h => h).append (marks_zeros _)
  case isFalse =>
    dsimp only
    split
    case isTrue =>
      exact ((marks_ofList_digits fun _ => List.mem_of_mem_take).append
        (by decide : Marks ".")).append (marks_ofList_digits fun _ => List.mem_of_mem_drop)
    case isFalse =>
      exact ((by decide : Marks "0.").append (marks_zeros _)).append
        (marks_ofList_digits fun _ h => h)

lemma marks_ofFloat (x : Float) : Marks (ofFloat x) := by
  rw [ofFloat, ofBinary64.eq_def]
  split
  case h_1 => decide
  case h_2 => exact (marks_sign _).append (by decide : Marks "inf")
  case h_3 => exact (marks_sign _).append (by decide : Marks "0")
  case h_4 => exact (marks_sign _).append (marks_positional _)

end Decimal

instance : Clock.Plain Float where
  notMem_text hc _ h := by
    have hmark := List.all_eq_true.1 (Decimal.marks_ofFloat _) _ h
    simp only [List.mem_cons, List.not_mem_nil, or_false] at hc
    rcases hc with rfl | rfl | rfl <;> revert hmark <;> decide

end Dataflow
