import Dataflow.Ledger
import Dataflow.Proofs.Attempt
import Mathlib.Algebra.GroupWithZero.Nat
import Mathlib.Data.List.Nodup

/-!
# What the ledger's operations do

The effect of finished productions and consumptions on tokens and firings, edge by edge, and the
number of enabled firings as a greatest number.

* `Ledger.tokens_produce`, `Ledger.firings_produce` — production adds to the edges that leave an
  actor and counts nothing.
* `Ledger.tokens_consume`, `Ledger.firings_consume` — consumption takes from the edges that enter
  an actor, which hold enough, and counts the firings.
* `Ledger.dates_consume` — consumption notes no date.
* `Ledger.le_enabled_iff` — so many firings are enabled as are owed and as every edge has tokens
  for.
-/

namespace Dataflow

namespace Ledger

variable {τ : Type} {g : Graph τ} {l l' : Ledger g}

/-! ## Single writes -/

lemma tokens_setTokens (l : Ledger g) (e n i : Nat) :
    (l.setTokens e n).tokens i = if e = i ∧ e < g.edges.size then n else l.tokens i := by
  simp only [tokens, setTokens, Vector.getElem?_setIfInBounds]
  by_cases h : e = i
  · by_cases hi : i < g.edges.size
    · simp [h, hi]
    · simp [h, hi]
  · simp [h]

lemma firings_setFirings (l : Ledger g) (a n b : Nat) :
    (l.setFirings a n).firings b = if a = b ∧ a < g.actors.size then n else l.firings b := by
  simp only [firings, setFirings, Vector.getElem?_setIfInBounds]
  by_cases h : a = b
  · by_cases hb : b < g.actors.size
    · simp [h, hb]
    · simp [h, hb]
  · simp [h]

@[simp] lemma tokens_note (l : Ledger g) (event : Event τ) (i : Nat) :
    (l.note event).tokens i = l.tokens i := rfl

@[simp] lemma firings_note (l : Ledger g) (event : Event τ) (a : Nat) :
    (l.note event).firings a = l.firings a := rfl

@[simp] lemma tokens_setFirings (l : Ledger g) (a n i : Nat) :
    (l.setFirings a n).tokens i = l.tokens i := rfl

@[simp] lemma firings_setTokens (l : Ledger g) (e n a : Nat) :
    (l.setTokens e n).firings a = l.firings a := rfl

@[simp] lemma tokens_setStart (l : Ledger g) (a : Nat) (date : τ) (i : Nat) :
    (l.setStart a date).tokens i = l.tokens i := rfl

@[simp] lemma firings_setStart (l : Ledger g) (a : Nat) (date : τ) (b : Nat) :
    (l.setStart a date).firings b = l.firings b := rfl

@[simp] lemma tokens_setFinish (l : Ledger g) (a : Nat) (date : τ) (i : Nat) :
    (l.setFinish a date).tokens i = l.tokens i := rfl

@[simp] lemma firings_setFinish (l : Ledger g) (a : Nat) (date : τ) (b : Nat) :
    (l.setFinish a date).firings b = l.firings b := rfl

lemma startDate_setStart [Clock τ] (l : Ledger g) {a : Nat} (ha : a < g.actors.size) (date : τ)
    (b : Nat) : (l.setStart a date).startDate b = if b = a then date else l.startDate b := by
  simp only [startDate, setStart, Vector.getElem?_setIfInBounds]
  by_cases h : b = a
  · simp [h, ha]
  · simp [h, Ne.symm h]

lemma finishDate_setFinish [Clock τ] (l : Ledger g) {a : Nat} (ha : a < g.actors.size) (date : τ)
    (b : Nat) : (l.setFinish a date).finishDate b = if b = a then date else l.finishDate b := by
  simp only [finishDate, setFinish, Vector.getElem?_setIfInBounds]
  by_cases h : b = a
  · simp [h, ha]
  · simp [h, Ne.symm h]

@[simp] lemma startDate_setFinish [Clock τ] (l : Ledger g) (a : Nat) (date : τ) (b : Nat) :
    (l.setFinish a date).startDate b = l.startDate b := rfl

@[simp] lemma finishDate_setStart [Clock τ] (l : Ledger g) (a : Nat) (date : τ) (b : Nat) :
    (l.setStart a date).finishDate b = l.finishDate b := rfl

lemma tokens_of_size_le {i : Nat} (hi : g.edges.size ≤ i) : l.tokens i = 0 := by
  simp [tokens, Vector.getElem?_eq_none hi]

/-! ## The first ledger -/

section Start

variable [Clock τ]

lemma firings_ledger (g : Graph τ) (a : Nat) : g.ledger.firings a = 0 := by
  by_cases ha : a < g.actors.size <;> simp [Graph.ledger, Ledger.firings, ha]

lemma tokens_ledger {i : Nat} {e : Edge} (he : g.edges[i]? = some e) :
    g.ledger.tokens i = e.delay := by
  have hi := (Array.getElem?_eq_some_iff.1 he).1
  simp [Graph.ledger, Ledger.tokens, he]

end Start

/-! ## Production -/

lemma deposit_eq_ok_iff {n e : Nat} {r : Nat × Nat} :
    l.deposit n e = .ok r ↔ n * g.production e < Counter.bound ∧
      l.tokens e + n * g.production e < Counter.bound ∧
      r = (n * g.production e, l.tokens e + n * g.production e) := by
  simp only [deposit, bind_eq_ok, pure_eq_ok, Counter.mul_eq_ok_iff, Counter.add_eq_ok_iff]
  constructor
  · rintro ⟨_, ⟨hadded, rfl⟩, _, ⟨hnow, rfl⟩, rfl⟩
    exact ⟨hadded, hnow, rfl⟩
  · rintro ⟨hadded, hnow, rfl⟩
    exact ⟨_, ⟨hadded, rfl⟩, _, ⟨hnow, rfl⟩, rfl⟩

lemma produceInto_eq_finished {a n e : Nat} (h : produceInto a n e l = .finished l') :
    (∀ i, l'.tokens i = l.tokens i + if i = e then n * g.production e else 0) ∧
      ∀ b, l'.firings b = l.firings b := by
  rw [produceInto] at h
  split at h
  case h_2 => simp at h
  case h_1 added now hd =>
    rw [Attempt.finished_inj] at h
    subst h
    obtain ⟨_, _, hr⟩ := deposit_eq_ok_iff.1 hd
    obtain ⟨rfl, rfl⟩ := Prod.mk.inj hr
    refine ⟨fun i => ?_, fun b => rfl⟩
    rw [tokens_note, tokens_setTokens]
    by_cases hi : e < g.edges.size
    · by_cases hie : i = e
      · simp [hie, hi]
      · simp [hie, Ne.symm hie]
    · -- a number beyond the edges has no tokens and no rate
      have hr : g.production e = 0 := by simp [Graph.production, hi]
      simp [hi, hr]

lemma each_produceInto {a n : Nat} : ∀ {edges : List Nat} {l : Ledger g}, edges.Nodup →
    Attempt.each (produceInto a n) edges l = .finished l' →
    (∀ i, l'.tokens i = l.tokens i + if i ∈ edges then n * g.production i else 0) ∧
      ∀ b, l'.firings b = l.firings b
  | [], l, _, h => by
      rw [Attempt.each, Attempt.finished_inj] at h
      subst h
      simp
  | e :: rest, l, hn, h => by
      rw [Attempt.each, Attempt.andThen_eq_finished] at h
      obtain ⟨m, hm, hrest⟩ := h
      rw [List.nodup_cons] at hn
      obtain ⟨ht, hf⟩ := produceInto_eq_finished hm
      obtain ⟨ht', hf'⟩ := each_produceInto hn.2 hrest
      refine ⟨fun i => ?_, fun b => (hf' b).trans (hf b)⟩
      rw [ht' i, ht i, Nat.add_assoc]
      congr 1
      by_cases hie : i = e
      · subst hie
        simp [hn.1]
      · simp [hie]

lemma nodup_outgoing (a : Nat) : (g.outgoing a).Nodup := by
  rw [Graph.outgoing, Graph.edgesAt, List.nodup_reverse]
  exact List.nodup_range.filter _

/-- Production adds to every edge that leaves the actor what its firings put in. -/
theorem tokens_produce {a n : Nat} (h : produce a n l = .finished l') {i : Nat} {e : Edge}
    (he : g.edges[i]? = some e) :
    l'.tokens i = l.tokens i + if e.source = a then n * e.production else 0 := by
  rw [produce, outgoing_eq] at h
  have ht := (each_produceInto (nodup_outgoing a) h).1 i
  have hmem : i ∈ g.outgoing a ↔ e.source = a := by simp [Graph.mem_outgoing, he]
  simpa [hmem, Graph.production, he] using ht

/-- Production counts no firing. -/
theorem firings_produce {a n : Nat} (h : produce a n l = .finished l') (b : Nat) :
    l'.firings b = l.firings b := by
  rw [produce, outgoing_eq] at h
  exact (each_produceInto (nodup_outgoing a) h).2 b

/-! ## Consumption -/

lemma withdraw_eq_ok {a n e : Nat} {r : Nat × Nat} :
    l.withdraw a n e = .ok r ↔ n * g.consumption e < Counter.bound ∧
      n * g.consumption e ≤ l.tokens e ∧ r = (e, l.tokens e - n * g.consumption e) := by
  simp only [withdraw, bind_eq_ok, mapError_eq_ok, Counter.mul_eq_ok_iff]
  constructor
  · rintro ⟨_, ⟨hb, rfl⟩, h⟩
    split at h
    · exact ⟨hb, ‹_›, (pure_eq_ok.1 h).symm⟩
    · simp at h
  · rintro ⟨hb, hle, rfl⟩
    exact ⟨_, ⟨hb, rfl⟩, by rw [if_pos hle]; rfl⟩

/-- The withdrawals of some firings are possible exactly if every edge holds enough and the numbers
stay counters. -/
lemma withdrawals_eq_ok_iff {a n : Nat} {left : List (Nat × Nat)} {total : Nat} :
    l.withdrawals a n = .ok (left, total) ↔
      ((∀ i ∈ g.incoming a, n * g.consumption i < Counter.bound) ∧
        (∀ i ∈ g.incoming a, n * g.consumption i ≤ l.tokens i) ∧
        l.firings a + n < Counter.bound) ∧
      left = (g.incoming a).map (fun i => (i, l.tokens i - n * g.consumption i)) ∧
      total = l.firings a + n := by
  simp only [withdrawals, bind_eq_ok, pure_eq_ok, mapError_eq_ok, Counter.add_eq_ok_iff,
    mapM_eq_ok, incoming_eq, Prod.mk.injEq, withdraw_eq_ok, List.forall₂_and_left]
  have hleft : ∀ left', List.Forall₂
      (fun i r => r = (i, l.tokens i - n * g.consumption i)) (g.incoming a) left' ↔
        left' = (g.incoming a).map fun i => (i, l.tokens i - n * g.consumption i) := by
    intro left'
    rw [← List.forall₂_eq_eq_eq, List.forall₂_map_right_iff]
    exact ⟨List.Forall₂.flip, List.Forall₂.flip⟩
  simp only [hleft]
  constructor
  · rintro ⟨left', ⟨hbound, henough, rfl⟩, _, ⟨htotal, rfl⟩, rfl, rfl⟩
    exact ⟨⟨hbound, henough, htotal⟩, rfl, rfl⟩
  · rintro ⟨⟨hbound, henough, htotal⟩, rfl, rfl⟩
    exact ⟨_, ⟨hbound, henough, rfl⟩, _, ⟨htotal, rfl⟩, rfl, rfl⟩

/-- The withdrawals of some firings are possible when every edge holds enough. -/
lemma withdrawals_eq_ok {a n : Nat} {left : List (Nat × Nat)} {total : Nat}
    (h : l.withdrawals a n = .ok (left, total)) :
    (∀ i ∈ g.incoming a, n * g.consumption i ≤ l.tokens i) ∧
      left = (g.incoming a).map (fun i => (i, l.tokens i - n * g.consumption i)) ∧
      total = l.firings a + n := by
  obtain ⟨⟨_, henough, _⟩, hleft, htotal⟩ := withdrawals_eq_ok_iff.1 h
  exact ⟨henough, hleft, htotal⟩

lemma foldl_setTokens {f : Nat → Nat} : ∀ {edges : List Nat} {l : Ledger g},
    (∀ i ∈ edges, i < g.edges.size) → ∀ i,
    ((edges.map fun i => (i, f i)).foldl (fun l (e, tokens) => l.setTokens e tokens) l).tokens i =
      if i ∈ edges then f i else l.tokens i
  | [], l, _, i => by simp
  | e :: rest, l, hin, i => by
      rw [List.forall_mem_cons] at hin
      rw [List.map_cons, List.foldl_cons, foldl_setTokens hin.2, tokens_setTokens]
      by_cases hr : i ∈ rest
      · simp [hr]
      · by_cases hie : e = i
        · simp [hie, hie ▸ hin.1]
        · simp [hr, hie, Ne.symm hie]

lemma firings_foldl_setTokens {left : List (Nat × Nat)} : ∀ {l : Ledger g} (b : Nat),
    (left.foldl (fun l (e, tokens) => l.setTokens e tokens) l).firings b = l.firings b := by
  induction left with
  | nil => exact fun _ => rfl
  | cons x rest ih => exact fun b => (ih b).trans rfl

/-- Consumption takes from every edge that enters the actor, which holds enough. -/
theorem tokens_consume {a n : Nat} (h : consume a n l = .finished l') {i : Nat} {e : Edge}
    (he : g.edges[i]? = some e) :
    l'.tokens i + (if e.target = a then n * e.consumption else 0) = l.tokens i := by
  rw [consume] at h
  split at h
  case h_2 => simp at h
  case h_1 left total hw =>
    rw [Attempt.finished_inj] at h
    subst h
    obtain ⟨henough, rfl, rfl⟩ := withdrawals_eq_ok hw
    have hin : ∀ j ∈ g.incoming a, j < g.edges.size := fun j hj =>
      (Graph.mem_incoming.1 hj).elim fun _ hj => (Array.getElem?_eq_some_iff.1 hj.1).1
    rw [tokens_note, tokens_setFirings, foldl_setTokens hin]
    have hmem : i ∈ g.incoming a ↔ e.target = a := by simp [Graph.mem_incoming, he]
    by_cases ht : e.target = a
    · have hle := henough i (hmem.2 ht)
      have hc : g.consumption i = e.consumption := by simp [Graph.consumption, he]
      rw [if_pos (hmem.2 ht), if_pos ht]
      rw [hc] at hle ⊢
      omega
    · rw [if_neg (mt hmem.1 ht), if_neg ht, Nat.add_zero]

/-- Consumption counts the firings of its actor, if there is such an actor. -/
lemma firings_consume_eq {a n : Nat} (h : consume a n l = .finished l') (b : Nat) :
    l'.firings b = l.firings b + if b = a ∧ a < g.actors.size then n else 0 := by
  rw [consume] at h
  split at h
  case h_2 => simp at h
  case h_1 left total hw =>
    rw [Attempt.finished_inj] at h
    subst h
    obtain ⟨_, _, rfl⟩ := withdrawals_eq_ok hw
    rw [firings_note, firings_setFirings, firings_foldl_setTokens]
    by_cases hb : b = a
    · subst hb
      by_cases hsize : b < g.actors.size <;> simp [hsize]
    · simp [hb, Ne.symm hb]

/-- Consumption counts the firings of its actor and of no other. -/
theorem firings_consume {a n : Nat} (h : consume a n l = .finished l') (ha : a < g.actors.size)
    (b : Nat) : l'.firings b = l.firings b + if b = a then n else 0 := by
  simpa [ha] using firings_consume_eq h b

lemma dates_foldl_setTokens {left : List (Nat × Nat)} : ∀ {l : Ledger g},
    (left.foldl (fun l (e, tokens) => l.setTokens e tokens) l).starts = l.starts ∧
      (left.foldl (fun l (e, tokens) => l.setTokens e tokens) l).finishes = l.finishes := by
  induction left with
  | nil => exact ⟨rfl, rfl⟩
  | cons x rest ih => exact ih

/-- Consumption notes no date. -/
theorem dates_consume {a n : Nat} (h : consume a n l = .finished l') :
    l'.starts = l.starts ∧ l'.finishes = l.finishes := by
  rw [consume] at h
  split at h
  case h_2 => simp at h
  case h_1 left total hw =>
    rw [Attempt.finished_inj] at h
    subst h
    exact dates_foldl_setTokens

/-! ## Firings that are owed or enabled -/

lemma owed_eq_sum (l : Ledger g) :
    l.owed = ((List.range g.actors.size).map fun a => g.repetitions a - l.firings a).sum := by
  rw [owed, List.sum_eq_foldl, List.foldl_map]

lemma le_foldl_min {f : Nat → Nat} {k : Nat} : ∀ {edges : List Nat} {n : Nat},
    k ≤ edges.foldl (fun n e => min n (f e)) n ↔ k ≤ n ∧ ∀ e ∈ edges, k ≤ f e
  | [], n => by simp
  | e :: rest, n => by
      rw [List.foldl_cons, le_foldl_min, Nat.le_min, List.forall_mem_cons, and_assoc]

lemma enabled_le (l : Ledger g) (a : Nat) : l.enabled a ≤ g.repetitions a - l.firings a :=
  (le_foldl_min.1 (Nat.le_refl (l.enabled a))).1

/-- So many firings of an actor are enabled as it owes and as every edge that enters it has tokens
for. -/
theorem le_enabled_iff {a k : Nat} (hc : ∀ e ∈ g.edges, 0 < e.consumption) :
    k ≤ l.enabled a ↔ k ≤ g.repetitions a - l.firings a ∧
      ∀ i e, g.edges[i]? = some e → e.target = a → k * e.consumption ≤ l.tokens i := by
  rw [enabled, incoming_eq, le_foldl_min]
  refine and_congr_right fun _ => ⟨fun h i e he ht => ?_, fun h i hi => ?_⟩
  · have hk := h i (Graph.mem_incoming.2 ⟨e, he, ht⟩)
    have : g.consumption i = e.consumption := by simp [Graph.consumption, he]
    rwa [this, Nat.le_div_iff_mul_le (hc e (Array.mem_of_getElem? he))] at hk
  · obtain ⟨e, he, ht⟩ := Graph.mem_incoming.1 hi
    have : g.consumption i = e.consumption := by simp [Graph.consumption, he]
    rw [this, Nat.le_div_iff_mul_le (hc e (Array.mem_of_getElem? he))]
    exact h i e he ht

end Ledger

end Dataflow
