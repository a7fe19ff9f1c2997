import Dataflow.Proofs.Attempt
import Dataflow.Proofs.Expansion.Tokens

/-!
# The loop over the tokens of a firing

An expansion checks that the number of every token it looks at is a counter.  The rest of its
arithmetic needs no check: neither the places, positions and firings, which count from one, nor the
differences between them, nor the delays of the segments ever leave the range of counters.  To say
so, the loop is stated once more, as the code has it and with every step checked.

* `Segment.turn` — one turn of the loop, which finds the segment at a place and the place behind it.
* `Segment.Scan` — turns are taken until the place is behind the last token or a step is refused.
* `Segment.turn_eq` — a turn is refused for the number of its token or not at all.
* **`Segment.exists_scan`** — the loop ends: behind the last token, with all segments of the firing,
  or at the first token whose number is no counter.
-/

namespace Dataflow.Segment

variable {grouping : Grouping} {e : Edge} {receivers sender offset : Nat}

/-! ## The segments of a firing -/

lemma receiver_startingAt_lt (hr : 0 < receivers) :
    (startingAt grouping e receivers sender offset).receiver < receivers := by
  rw [receiver_startingAt]
  exact Nat.mod_lt _ hr

/-- A run is the smaller of what its sender has left and what its reader has room for; both are
positive. -/
lemma length_startingAt_runs (hc : 0 < e.consumption) (h : offset < e.production) :
    (startingAt .runs e receivers sender offset).length = min (e.production - offset)
      (e.consumption -
        (firstToken e sender + offset) % (e.consumption * receivers) % e.consumption) := by
  have hmod := Nat.mod_lt ((firstToken e sender + offset) % (e.consumption * receivers)) hc
  simp only [startingAt, cut]
  omega

lemma length_startingAt_le_consumption (hc : 0 < e.consumption) (h : offset < e.production) :
    (startingAt grouping e receivers sender offset).length ≤ e.consumption := by
  cases grouping with
  | single => exact hc
  | runs =>
    rw [length_startingAt_runs hc h]
    exact Nat.le_trans (Nat.min_le_right _ _) (Nat.sub_le _ _)

/-- The delay of a segment is no greater than the number of its first token: there are no more
tokens in a segment than its reader takes in an iteration. -/
lemma delay_startingAt_le (hc : 0 < e.consumption) (hr : 0 < receivers)
    (h : offset < e.production) :
    (startingAt grouping e receivers sender offset).delay ≤ firstToken e sender + offset := by
  have hlength : (startingAt grouping e receivers sender offset).length ≤
      e.consumption * receivers :=
    Nat.le_trans (length_startingAt_le_consumption hc h) (Nat.le_mul_of_pos_right _ hr)
  calc (startingAt grouping e receivers sender offset).delay
      ≤ (firstToken e sender + offset) / (e.consumption * receivers) *
          (e.consumption * receivers) := Nat.mul_le_mul_left _ hlength
    _ ≤ firstToken e sender + offset := Nat.div_mul_le_self _ _

/-! ## One turn of the loop -/

/-- The number of tokens of a segment, with every step checked. -/
def measure (grouping : Grouping) (e : Edge) (slot offset : Nat) : Except RangeError Nat :=
  match grouping with
  | .single => return 1
  | .runs => do
    let position ← Counter.add "position" (slot % e.consumption) 1
    let left ← Counter.sub "tokens left" e.production offset
    let before ← Counter.sub "position" position 1
    let room ← Counter.sub "room" e.consumption before
    return min left room

/-- One turn of the loop, with every step checked: the segment that begins at a place, and the place
behind it. -/
def turn (grouping : Grouping) (e : Edge) (receivers sender place : Nat) :
    Except RangeError (Segment × Nat) := do
  let perIteration := e.consumption * receivers
  let offset ← Counter.sub "place" place 1
  let token ← Counter.add "token index" (firstToken e sender) offset
  let slot := token % perIteration
  let firing ← Counter.add "firing" (slot / e.consumption) 1
  let length ← measure grouping e slot offset
  let _ ← Counter.mul "expanded delay" (token / perIteration) length
  let receiver ← Counter.sub "firing" firing 1
  let next ← Counter.add "place" place length
  return (⟨sender, offset, receiver, token / perIteration, length⟩, next)

lemma measure_eq (hc : 0 < e.consumption) (hbound : e.consumption < Counter.bound)
    (h : offset < e.production) :
    measure grouping e ((firstToken e sender + offset) % (e.consumption * receivers)) offset =
      .ok (startingAt grouping e receivers sender offset).length := by
  cases grouping with
  | single => rfl
  | runs =>
    have hmod := Nat.mod_lt ((firstToken e sender + offset) % (e.consumption * receivers)) hc
    rw [length_startingAt_runs hc h]
    simp only [measure, bind_eq_ok, pure_eq_ok, Counter.add_eq_ok_iff, Counter.sub_eq_ok_iff]
    exact ⟨_, ⟨by omega, rfl⟩, _, ⟨by omega, rfl⟩, _, ⟨by omega, rfl⟩, _, ⟨by omega, rfl⟩, rfl⟩

/-- A turn finds the segment at its place if the number of the first token is a counter. -/
theorem turn_eq (hc : 0 < e.consumption) (hr : 0 < receivers)
    (hproduction : e.production < Counter.bound - 1)
    (htotal : e.consumption * receivers < Counter.bound) (h : offset < e.production)
    (htoken : firstToken e sender + offset < Counter.bound) :
    turn grouping e receivers sender (offset + 1) =
      .ok (startingAt grouping e receivers sender offset,
        offset + (startingAt grouping e receivers sender offset).length + 1) := by
  have hconsumption : e.consumption < Counter.bound :=
    Nat.lt_of_le_of_lt (Nat.le_mul_of_pos_right _ hr) htotal
  have hreceivers : receivers < Counter.bound :=
    Nat.lt_of_le_of_lt (Nat.le_mul_of_pos_left _ hc) htotal
  have hreceiver : (startingAt grouping e receivers sender offset).receiver < receivers :=
    receiver_startingAt_lt hr
  have hlength : (startingAt grouping e receivers sender offset).length ≤ e.production - offset :=
    length_startingAt_le h
  have hdelay : (startingAt grouping e receivers sender offset).delay < Counter.bound :=
    Nat.lt_of_le_of_lt (delay_startingAt_le hc hr h) htoken
  simp only [turn, bind_eq_ok, pure_eq_ok, Counter.add_eq_ok_iff, Counter.sub_eq_ok_iff,
    Counter.mul_eq_ok_iff]
  refine ⟨offset, ⟨by omega, by omega⟩, _, ⟨htoken, rfl⟩, _,
    ⟨Nat.lt_of_le_of_lt hreceiver hreceivers, rfl⟩, _, measure_eq hc hconsumption h, _,
    ⟨hdelay, rfl⟩, _, ⟨Nat.le_add_left 1 _, rfl⟩, _, ⟨by omega, rfl⟩, ?_⟩
  rw [Nat.add_sub_cancel, Nat.add_right_comm]
  rfl

/-- Otherwise it is refused for that number. -/
lemma turn_eq_error (htoken : ¬ firstToken e sender + offset < Counter.bound) :
    turn grouping e receivers sender (offset + 1) =
      .error (.sum "token index" (firstToken e sender) offset) := by
  have hplace : Counter.sub "place" (offset + 1) 1 = .ok offset := by simp [Counter.sub]
  exact bind_eq_error.2 (Or.inr ⟨offset, hplace, bind_eq_error.2 (Or.inl (if_neg htoken))⟩)

/-! ## The loop -/

/-- The loop from a place on: the segments that are found, and the place behind the last token or
why a step is refused. -/
inductive Scan (grouping : Grouping) (e : Edge) (receivers sender : Nat) :
    Nat → List Segment → Except RangeError Nat → Prop
  | ends {place : Nat} (behind : e.production < place) :
      Scan grouping e receivers sender place [] (.ok place)
  | refused {place : Nat} {error : RangeError} (within : place ≤ e.production)
      (turn : turn grouping e receivers sender place = .error error) :
      Scan grouping e receivers sender place [] (.error error)
  | next {place behind : Nat} {s : Segment} {found : List Segment}
      {outcome : Except RangeError Nat} (within : place ≤ e.production)
      (turn : turn grouping e receivers sender place = .ok (s, behind))
      (rest : Scan grouping e receivers sender behind found outcome) :
      Scan grouping e receivers sender place (s :: found) outcome

/-- The number of a token is checked, and then its segment needs no further check. -/
lemma check_startingAt (hc : 0 < e.consumption) (hr : 0 < receivers) (h : offset < e.production) :
    check (firstToken e sender) (startingAt grouping e receivers sender offset) =
      if firstToken e sender + offset < Counter.bound then .ok ()
      else .error (.sum "token index" (firstToken e sender) offset) := by
  split
  case isTrue htoken =>
    have hdelay : (startingAt grouping e receivers sender offset).delay < Counter.bound :=
      Nat.lt_of_le_of_lt (delay_startingAt_le hc hr h) htoken
    simp only [check, bind_eq_ok, pure_eq_ok, Counter.add_eq_ok_iff, Counter.mul_eq_ok_iff]
    exact ⟨_, ⟨htoken, rfl⟩, _, ⟨hdelay, rfl⟩, trivial⟩
  case isFalse htoken =>
    have hrefused : Counter.add "token index" (firstToken e sender)
        (startingAt grouping e receivers sender offset).offset =
          .error (.sum "token index" (firstToken e sender) offset) := if_neg htoken
    rw [check, hrefused]
    rfl

/-- **The loop ends** where the check of the firing says: behind the last token, and then it has
found all segments of the firing, or at a token whose number is no counter, and then it has found
those before it.  No other step is refused. -/
theorem exists_scan (hc : 0 < e.consumption) (hr : 0 < receivers)
    (hproduction : e.production < Counter.bound - 1)
    (htotal : e.consumption * receivers < Counter.bound) (sender : Nat)
    (hoffset : offset ≤ e.production) :
    ∃ found outcome, Scan grouping e receivers sender (offset + 1) found outcome ∧
      checkFrom grouping e receivers sender (firstToken e sender) offset =
        outcome.map (fun _ => ()) ∧
      ((found = fromToken grouping e receivers sender offset ∧ outcome = .ok (e.production + 1)) ∨
        ∃ s rest, fromToken grouping e receivers sender offset = found ++ s :: rest ∧
          outcome = .error (.sum "token index" (firstToken e sender) s.offset)) := by
  rw [checkFrom_eq]
  fun_induction fromToken grouping e receivers sender offset with
  | case1 offset h s ih =>
    have hcheck : check (firstToken e sender) s = _ := check_startingAt hc hr h
    rw [List.forM_eq_forM, List.forM_cons, ← List.forM_eq_forM, hcheck]
    by_cases htoken : firstToken e sender + offset < Counter.bound
    · have hturn : turn grouping e receivers sender (offset + 1) = .ok (s, offset + s.length + 1) :=
        turn_eq hc hr hproduction htotal h htoken
      have hle : s.length ≤ e.production - offset := length_startingAt_le h
      obtain ⟨found, outcome, hscan, hrest, hends⟩ := ih (by omega)
      rw [if_pos htoken]
      refine ⟨s :: found, outcome, .next h hturn hscan, hrest, ?_⟩
      rcases hends with ⟨rfl, houtcome⟩ | ⟨t, rest, hfound, houtcome⟩
      · exact Or.inl ⟨rfl, houtcome⟩
      · exact Or.inr ⟨t, rest, by rw [hfound, List.cons_append], houtcome⟩
    · rw [if_neg htoken]
      exact ⟨[], _, .refused h (turn_eq_error htoken), rfl, Or.inr ⟨s, _, rfl, rfl⟩⟩
  | case2 offset h =>
    obtain rfl : offset = e.production := Nat.le_antisymm hoffset (Nat.le_of_not_lt h)
    exact ⟨[], _, .ends (Nat.lt_succ_self _), rfl, Or.inl ⟨rfl, rfl⟩⟩

end Dataflow.Segment
