import Mathlib.Data.List.Basic
import Mathlib.Data.Nat.Find

/-!
# Texts in parts

A text that was put together from parts is taken apart again at characters that cannot belong to a
part: the last one of a kind, the first one that is not of a kind, or one that ends both of two texts.

* `append_cons_inj` — apart at the last occurrence of a character.
* `append_stop_inj` — apart at the first character that is not of a kind.
* `append_cons_cases` — what two texts have in common if both have an end in the same text.
* `exists_leftmost` — where a passage stands first.
* `isDigit_of_mem_toString`, `notMem_toString` — the characters of a number.
-/

namespace Dataflow

/-- The part behind the last occurrence of a separator is determined, and so is the part before
it. -/
lemma append_cons_inj {α : Type} [DecidableEq α] {c : α} {l l' d d' : List α} (hd : c ∉ d)
    (hd' : c ∉ d') (h : l ++ c :: d = l' ++ c :: d') : l = l' ∧ d = d' := by
  have behind : ∀ {l d : List α}, c ∉ d →
      (l ++ c :: d).reverse.takeWhile (· != c) = d.reverse := by
    intro l d hd
    have hkeep : ∀ x ∈ d.reverse, (x != c) = true := by
      intro x hx
      simp only [bne_iff_ne]
      rintro rfl
      exact hd (List.mem_reverse.1 hx)
    rw [List.reverse_append, List.reverse_cons, List.append_assoc,
      List.takeWhile_append_of_pos hkeep]
    simp
  have hdd : d = d' := by
    rw [← List.reverse_inj, ← behind hd, ← behind hd', h]
  subst hdd
  exact ⟨List.append_cancel_right h, rfl⟩

/-- The part before the first character that is not of a kind is determined, and so is the rest. -/
lemma append_stop_inj {α : Type} {p : α → Bool} {l l' d d' : List α} {c c' : α}
    (hl : ∀ x ∈ l, p x = true) (hl' : ∀ x ∈ l', p x = true) (hc : p c = false) (hc' : p c' = false)
    (h : l ++ c :: d = l' ++ c' :: d') : l = l' ∧ c = c' ∧ d = d' := by
  have hbefore : l = l' := by
    have hkept := congrArg (List.takeWhile p) h
    rw [List.takeWhile_append_of_pos hl, List.takeWhile_append_of_pos hl',
      List.takeWhile_cons_of_neg (by simp [hc]), List.takeWhile_cons_of_neg (by simp [hc'])] at hkept
    simpa using hkept
  subst hbefore
  exact ⟨rfl, List.cons.inj (List.append_cancel_left h)⟩

/-- A character that a last part does not hold belongs to what comes before it. -/
lemma append_eq_append_cons {α : Type} {c : α} {y k x r : List α} (hk : c ∉ k)
    (h : y ++ k = x ++ c :: r) : ∃ u, y = x ++ c :: u ∧ r = u ++ k := by
  rw [List.append_cons] at h
  rcases List.append_eq_append_iff.1 h with ⟨v, hv, rfl⟩ | ⟨u, rfl, hu⟩
  · rcases List.eq_nil_or_concat v with rfl | ⟨v, d, rfl⟩
    · exact ⟨[], by simpa using hv.symm, rfl⟩
    · rw [List.concat_eq_append, ← List.append_assoc] at hv
      obtain rfl := List.singleton_inj.1 (List.append_inj_right' hv rfl)
      simp at hk
  · exact ⟨u, (List.append_cons x c u).symm, hu⟩

/-- Two texts end in a character that their last parts do not hold.  If they begin the same text,
they are the same, or one of them ends before the last part of the other begins. -/
lemma append_cons_cases {α : Type} {c : α} {x y k k' r r' : List α} (hk : c ∉ k) (hk' : c ∉ k')
    (h : x ++ (k ++ c :: r) = y ++ (k' ++ c :: r')) :
    (x ++ k = y ++ k' ∧ r = r') ∨ (∃ u, x = y ++ (k' ++ c :: u) ∧ r' = u ++ (k ++ c :: r)) ∨
      ∃ u, y = x ++ (k ++ c :: u) ∧ r = u ++ (k' ++ c :: r') := by
  -- where the second text goes on after the end of the first, the first one is the shorter one
  have shorter : ∀ {x y k k' r r' v : List α}, c ∉ k' → y ++ k' = x ++ k ++ v →
      c :: r = v ++ c :: r' → v ≠ [] →
      ∃ u, y = x ++ (k ++ c :: u) ∧ r = u ++ (k' ++ c :: r') := by
    intro x y k k' r r' v hk' hxy hr hv
    obtain ⟨d, v, rfl⟩ := List.exists_cons_of_ne_nil hv
    obtain ⟨rfl, rfl⟩ := List.cons.inj hr
    obtain ⟨u, rfl, rfl⟩ := append_eq_append_cons hk' hxy
    exact ⟨u, by simp, by simp⟩
  rw [← List.append_assoc, ← List.append_assoc] at h
  rcases List.append_eq_append_iff.1 h with ⟨v, hy, hr⟩ | ⟨v, hx, hr⟩
  · by_cases hv : v = []
    · subst hv
      exact .inl ⟨by simpa using hy.symm, (List.cons.inj hr).2⟩
    · exact .inr (.inr (shorter hk' hy hr hv))
  · by_cases hv : v = []
    · subst hv
      exact .inl ⟨by simpa using hx, (List.cons.inj hr).2.symm⟩
    · exact .inr (.inl (shorter hk hx hr hv))

/-- A passage of a kind that stands in a text has a first place there. -/
lemma exists_leftmost {α : Type} {K : List α → Prop} {text : List α} (h : ∃ k, K k ∧ k <:+: text) :
    ∃ before k behind, K k ∧ before ++ k ++ behind = text ∧
      ∀ before' k' behind', K k' → before' ++ k' ++ behind' = text →
        before.length ≤ before'.length := by
  classical
  have hlength : ∃ n before k behind, K k ∧ before ++ k ++ behind = text ∧ before.length = n := by
    obtain ⟨k, hk, before, behind, htext⟩ := h
    exact ⟨_, before, k, behind, hk, htext, rfl⟩
  obtain ⟨before, k, behind, hk, htext, hbefore⟩ := Nat.find_spec hlength
  refine ⟨before, k, behind, hk, htext, fun before' k' behind' hk' htext' => ?_⟩
  rw [hbefore]
  exact Nat.find_min' hlength ⟨before', k', behind', hk', htext', rfl⟩

lemma isDigit_of_mem_toString {n : Nat} {c : Char} (h : c ∈ (toString n).toList) :
    c.isDigit = true := by
  rw [Nat.toString_eq_ofList_toDigits, String.toList_ofList] at h
  exact Nat.isDigit_of_mem_toDigits (by decide) (by decide) h

lemma notMem_toString {n : Nat} {c : Char} (hc : c.isDigit = false) : c ∉ (toString n).toList :=
  fun h => Bool.false_ne_true (hc.symm.trans (isDigit_of_mem_toString h))

end Dataflow
