import Dataflow.Proofs.Ledger.Production
import Dataflow.Proofs.Ledger.Withdrawal

/-!
# Histories of a ledger

A ledger is called again and again, in any order, and calls may fail.  What an edge holds is its
delay and what productions have put in, less what consumptions have taken out.  A refused
consumption has no part in this.  A refused production has one: the tokens that it put into the
edges before the one that stopped it.

* `Call`, `Ledger.after` — a call, and what a list of calls leaves.
* `Ledger.produced`, `Ledger.consumed` — the firings of an actor in the calls that succeeded.
* `Ledger.strayed` — the firings in refused productions whose tokens an edge has got all the same.
* **`Ledger.history_balance`** — the balance of every edge after every history.
* **`Ledger.overfull_strays`** — a history after which tokens of no successful production are left.
-/

namespace Dataflow

/-- A call to a ledger. -/
inductive Call where
  /-- Some firings of an actor put their tokens into the edges. -/
  | produce (actor firings : Nat)
  /-- Some firings of an actor take their tokens out of the edges. -/
  | consume (actor firings : Nat)
  deriving DecidableEq, Repr

variable {τ : Type} {g : Graph τ}

namespace Call

/-- What a call does to a ledger. -/
def perform (l : Ledger g) : Call → Attempt τ (Ledger g)
  | .produce a n => l.produce a n
  | .consume a n => l.consume a n

/-- Does a call succeed? -/
def succeeds (l : Ledger g) (call : Call) : Bool := (call.perform l).failure.isNone

/-- The firings of an actor that a call produces for. -/
def productions (a : Nat) : Call → Nat
  | .produce b n => if b = a then n else 0
  | .consume _ _ => 0

/-- The firings of an actor that a call consumes for. -/
def consumptions (a : Nat) : Call → Nat
  | .produce _ _ => 0
  | .consume b n => if b = a then n else 0

/-- Does a call put tokens into an edge, whether it succeeds or not? -/
def writes (l : Ledger g) (i : Nat) : Call → Bool
  | .produce a n => i ∈ l.written a n
  | .consume _ _ => false

end Call

namespace Ledger

variable {l l' : Ledger g} {a n : Nat}

/-- The ledger that some calls leave, one after another. -/
def after : List Call → Ledger g → Ledger g
  | [], l => l
  | call :: rest, l => after rest (call.perform l).state

/-- What is counted for the calls that meet a condition, each in the ledger it is made to. -/
def tallied (count : Call → Nat) (condition : Ledger g → Call → Bool) :
    List Call → Ledger g → Nat
  | [], _ => 0
  | call :: rest, l =>
    (if condition l call then count call else 0) +
      tallied count condition rest (call.perform l).state

/-- The firings of an actor for which productions succeeded. -/
def produced (a : Nat) : List Call → Ledger g → Nat := tallied (Call.productions a) Call.succeeds

/-- The firings of an actor for which consumptions succeeded. -/
def consumed (a : Nat) : List Call → Ledger g → Nat := tallied (Call.consumptions a) Call.succeeds

/-- The firings of an actor whose tokens a refused production has put into an edge. -/
def strayed (a i : Nat) : List Call → Ledger g → Nat :=
  tallied (Call.productions a) fun l call => !call.succeeds l && call.writes l i

/-! ## One call -/

lemma succeeds_iff {call : Call} : call.succeeds l = true ↔ ∃ l', call.perform l = .finished l' := by
  rw [Call.succeeds]
  obtain ⟨state, failure⟩ := call.perform l
  cases failure <;> simp [Attempt.finished]

lemma source_of_mem_written {i : Nat} {e : Edge} (he : g.edges[i]? = some e)
    (hi : i ∈ l.written a n) : e.source = a := by
  obtain ⟨e', he', hsource⟩ := Graph.mem_outgoing.1 (List.takeWhile_subset _ hi)
  obtain rfl := Option.some.inj (he.symm.trans he')
  exact hsource

/-- A production that succeeds has put tokens into all edges that leave the actor. -/
lemma written_of_succeeds (h : (Call.produce a n).succeeds l = true) :
    l.written a n = g.outgoing a := by
  obtain ⟨l', hl'⟩ := succeeds_iff.1 h
  obtain ⟨_, _, ⟨hall, _⟩ | ⟨_, _, _, _, _, hstop⟩⟩ := produce_cases a n l
  · exact hall
  · exact absurd (hstop.symm.trans hl') Attempt.stopped_ne_finished

/-- What a call puts into an edge, told apart by its success. -/
lemma productions_eq {call : Call} {i : Nat} {e : Edge} (he : g.edges[i]? = some e) :
    ((if call.succeeds l then call.productions e.source else 0) +
        if !call.succeeds l && call.writes l i then call.productions e.source else 0) =
      if call.writes l i then call.productions e.source else 0 := by
  by_cases hs : call.succeeds l = true
  · suffices hwrites : call.writes l i = false → call.productions e.source = 0 by
      by_cases hw : call.writes l i = true
      · simp [hs, hw]
      · simp [hs, hw, hwrites (Bool.eq_false_iff.2 hw)]
    intro hw
    cases call with
    | consume a n => rfl
    | produce a n =>
      have hne : a ≠ e.source := by
        rintro rfl
        simp [Call.writes, written_of_succeeds hs, Graph.mem_outgoing, he] at hw
      simp [Call.productions, hne]
  · simp [hs]

lemma eq_of_not_succeeds (h : (Call.consume a n).succeeds l ≠ true) : (consume a n l).state = l := by
  cases hc : (consume a n l).failure with
  | none => exact absurd (Option.isNone_iff_eq_none.2 hc) h
  | some failure =>
    have hstop : consume a n l = .stopped (consume a n l).state failure := by
      rw [Attempt.stopped, ← hc]
    exact eq_of_consume_stopped hstop

/-- The balance of an edge in one call: what is put in and what is taken out. -/
lemma balance_perform (l : Ledger g) (call : Call) {i : Nat} {e : Edge}
    (he : g.edges[i]? = some e) :
    (call.perform l).state.tokens i + e.consumption *
        (if call.succeeds l then call.consumptions e.target else 0) =
      l.tokens i + e.production * if call.writes l i then call.productions e.source else 0 := by
  cases call with
  | produce a n =>
    have hrate : g.production i = e.production := by simp [Graph.production, he]
    have htokens := tokens_state_produce a n l i
    rw [hrate] at htokens
    by_cases hi : i ∈ l.written a n
    · have ha := source_of_mem_written he hi
      simp [Call.perform, Call.consumptions, Call.productions, Call.writes, htokens, hi, ha,
        Nat.mul_comm]
    · simp [Call.perform, Call.consumptions, Call.writes, htokens, hi]
  | consume a n =>
    have hwrites : (Call.consume a n).writes l i = false := rfl
    by_cases hs : (Call.consume a n).succeeds l = true
    · obtain ⟨l', hl'⟩ := succeeds_iff.1 hs
      have htokens := tokens_consume hl' he
      rw [hl', hwrites, if_pos hs, ← htokens]
      by_cases ha : a = e.target
      · simp [ha, Call.consumptions, Attempt.finished, Nat.mul_comm]
      · simp [ha, Ne.symm ha, Call.consumptions, Attempt.finished]
    · rw [hwrites, if_neg hs, Call.perform, eq_of_not_succeeds hs]
      simp

/-- What a call counts as firings of an actor. -/
lemma firings_perform (call : Call) {b : Nat} (hb : b < g.actors.size) :
    (call.perform l).state.firings b =
      l.firings b + if call.succeeds l then call.consumptions b else 0 := by
  cases call with
  | produce a n => simp [Call.perform, Call.consumptions, firings_state_produce]
  | consume a n =>
    by_cases hs : (Call.consume a n).succeeds l = true
    · obtain ⟨l', hl'⟩ := succeeds_iff.1 hs
      have hfirings := firings_consume_eq hl' b
      rw [hl', if_pos hs]
      by_cases ha : b = a
      · subst ha
        simpa [hb, Call.consumptions, Attempt.finished] using hfirings
      · simpa [ha, Ne.symm ha, Call.consumptions, Attempt.finished] using hfirings
    · rw [if_neg hs, Call.perform, eq_of_not_succeeds hs, Nat.add_zero]

/-! ## Histories -/

/-- The balance of an edge in a history that begins with any ledger. -/
lemma balance_after {i : Nat} {e : Edge} (he : g.edges[i]? = some e) :
    ∀ (calls : List Call) (l : Ledger g),
      (l.after calls).tokens i + e.consumption * l.consumed e.target calls =
        l.tokens i + e.production * (l.produced e.source calls + l.strayed e.source i calls)
  | [], l => rfl
  | call :: rest, l => by
      have ih := balance_after he rest (call.perform l).state
      have hcall := balance_perform l call he
      rw [← productions_eq he] at hcall
      simp only [consumed, produced, strayed, tallied, after, Nat.mul_add] at ih hcall ⊢
      omega

lemma firings_after {b : Nat} (hb : b < g.actors.size) : ∀ (calls : List Call) (l : Ledger g),
    (l.after calls).firings b = l.firings b + l.consumed b calls
  | [], l => rfl
  | call :: rest, l => by
      have ih := firings_after hb rest (call.perform l).state
      rw [after, ih, firings_perform call hb, Nat.add_assoc]
      rfl

/-- A refused production has put no tokens into the only edge that leaves its actor. -/
lemma not_mem_written (hone : (g.outgoing a).length ≤ 1)
    (h : (Call.produce a n).succeeds l = false) (i : Nat) : i ∉ l.written a n := by
  obtain ⟨m, _, ⟨_, hm⟩ | ⟨e, he, hrefused, _⟩⟩ := produce_cases a n l
  · have hs : (Call.produce a n).succeeds l = true := succeeds_iff.2 ⟨m, hm⟩
    rw [hs] at h
    cases h
  · obtain ⟨x, hx⟩ := List.length_eq_one_iff.1 (Nat.le_antisymm hone (List.length_pos_of_mem he))
    rw [hx, List.mem_singleton] at he
    simp [written, hx, ← he, hrefused]

lemma strayed_eq_zero (hone : (g.outgoing a).length ≤ 1) (i : Nat) :
    ∀ (calls : List Call) (l : Ledger g), l.strayed a i calls = 0
  | [], l => rfl
  | call :: rest, l => by
      have ih := strayed_eq_zero hone i rest (call.perform l).state
      rw [strayed] at ih ⊢
      rw [tallied, ih, Nat.add_zero, ite_eq_right_iff]
      intro hstray
      simp only [Bool.and_eq_true, Bool.not_eq_true'] at hstray
      obtain ⟨hfails, hwrites⟩ := hstray
      cases call with
      | consume b n => rfl
      | produce b n =>
        refine if_neg ?_
        rintro rfl
        exact not_mem_written hone hfails i (of_decide_eq_true hwrites)

/-- What a refused call leaves as it was: all firings, and the tokens of the edges that it did not
write. -/
lemma unchanged_of_stopped {call : Call} {failure : Failure τ}
    (h : call.perform l = .stopped l' failure) :
    (∀ a, l'.firings a = l.firings a) ∧ ∀ i, call.writes l i = false → l'.tokens i = l.tokens i := by
  cases call with
  | consume a n =>
    obtain rfl := eq_of_consume_stopped h
    exact ⟨fun _ => rfl, fun _ _ => rfl⟩
  | produce a n =>
    obtain rfl : (produce a n l).state = l' := congrArg Attempt.state h
    refine ⟨firings_state_produce a n l, fun i hi => ?_⟩
    rw [tokens_state_produce, if_neg (of_decide_eq_false hi), Nat.add_zero]

/-- **The balance of a history.**  After any calls, in any order and successful or not, every edge
holds its delay and what successful productions have put in, less what the counted firings of its
target have taken out, and besides the tokens that refused productions have put into it before
another edge stopped them.  The firings that are counted are those of successful consumptions.  Of
an actor that at most one edge leaves no tokens stray.  A refused call counts no firing and
leaves the edges that it did not write as they were; a consumption writes none before it
succeeds. -/
theorem history_balance [Clock τ] (calls : List Call) :
    (∀ i e, g.edges[i]? = some e →
      (g.ledger.after calls).tokens i + e.consumption * (g.ledger.after calls).firings e.target =
        e.delay + e.production *
          (g.ledger.produced e.source calls + g.ledger.strayed e.source i calls)) ∧
      (∀ a < g.actors.size, (g.ledger.after calls).firings a = g.ledger.consumed a calls) ∧
      (∀ a i, (g.outgoing a).length ≤ 1 → g.ledger.strayed a i calls = 0) ∧
      ∀ (l l' : Ledger g) (call : Call) (failure : Failure τ),
        call.perform l = .stopped l' failure → (∀ a, l'.firings a = l.firings a) ∧
          ∀ i, call.writes l i = false → l'.tokens i = l.tokens i := by
  have hfirings : ∀ a < g.actors.size,
      (g.ledger.after calls).firings a = g.ledger.consumed a calls := by
    intro a ha
    rw [firings_after ha, firings_ledger, Nat.zero_add]
  refine ⟨fun i e he => ?_, hfirings, fun a i hone => strayed_eq_zero hone i calls g.ledger,
    fun l l' call failure => unchanged_of_stopped⟩
  rw [hfirings _ (g.closed e (Array.mem_of_getElem? he)).2, balance_after he,
    tokens_ledger he]

/-- Two actors and two edges from the first to the second, the older of which holds as many tokens
as can be counted. -/
def overfull : Graph ℚ where
  name := "overfull"
  actors := #[.atomic "X" 1 1, .atomic "Y" 1 1]
  edges := #[Graph.numberedEdge 0 0 0 1 1 1 (Counter.bound - 1), Graph.numberedEdge 1 1 0 1 1 1 0]
  closed := by simp [Graph.numberedEdge]

/-- After one refused production the younger edge holds a token that no successful production has
put in. -/
theorem overfull_balance :
    (overfull.ledger.after [.produce 0 1]).tokens 1 = 1 ∧
      overfull.ledger.produced 0 [.produce 0 1] = 0 ∧
      overfull.ledger.strayed 0 1 [.produce 0 1] = 1 := by
  have hproduced : overfull.ledger.produced 0 [.produce 0 1] = 0 := by cbv
  have hstrayed : overfull.ledger.strayed 0 1 [.produce 0 1] = 1 := by cbv
  have hfirings : (overfull.ledger.after [.produce 0 1]).firings 1 = 0 := by cbv
  have h := (history_balance (g := overfull) [.produce 0 1]).1 1 _ rfl
  refine ⟨?_, hproduced, hstrayed⟩
  rw [show overfull.edges[1].source = 0 from rfl, show overfull.edges[1].target = 1 from rfl,
    hproduced, hstrayed, hfirings] at h
  exact h

/-- So the tokens are not always the delay and what successful productions have put in, less what
has been taken out: a refused production may change what an edge holds. -/
theorem overfull_strays :
    (∀ e ∈ overfull.edges, 0 < e.production ∧ 0 < e.consumption) ∧ overfull.InRange ∧
      (produce 0 1 overfull.ledger).failure =
        some (.range (.sum "tokens on edge" (Counter.bound - 1) 1)) ∧
      overfull.ledger.tokens 1 = 0 ∧ (produce 0 1 overfull.ledger).state.tokens 1 = 1 ∧
      ¬ ∀ (calls : List Call) (i : Nat) (e : Edge), overfull.edges[i]? = some e →
        (overfull.ledger.after calls).tokens i +
            e.consumption * (overfull.ledger.after calls).firings e.target =
          e.delay + e.production * overfull.ledger.produced e.source calls := by
  refine ⟨by decide, ⟨by decide, by decide⟩, by cbv, by cbv, by cbv, fun h => ?_⟩
  exact absurd (h [.produce 0 1] 1 _ rfl) (by decide +kernel)

end Ledger

end Dataflow
