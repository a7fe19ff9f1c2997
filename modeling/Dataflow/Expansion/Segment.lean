import Dataflow.Expansion.Size

/-!
# The segments of an edge

The tokens of an edge are numbered in the order in which they enter it, the delay first: firing
`i` of the source, counted from zero, sends the tokens `delay + i * production` and following.
With `perIteration` tokens consumed by one iteration, token `t` is read by firing
`t % perIteration / consumption` of the target, `t / perIteration` iterations later.

* `Segment` — consecutive tokens between the same two firings.
* `Segment.fromToken` — the tokens that a firing still has to send, cut into segments.
* **`Segment.ofEdge`** — the segments of an edge, firing by firing.
* `Segment.checkEdge` — are all numbers that describe these segments counters?
-/

namespace Dataflow

/-- Consecutive tokens that one firing of the source sends to one firing of the target. -/
structure Segment where
  /-- The firing of the source, counted from zero. -/
  sender : Nat
  /-- The place of the first token among those of its firing, counted from zero. -/
  offset : Nat
  /-- The firing of the target, counted from zero. -/
  receiver : Nat
  /-- How many iterations later the tokens are read. -/
  lag : Nat
  /-- The number of tokens. -/
  length : Nat
  deriving DecidableEq, Repr

namespace Segment

/-- The tokens that are on the way between the two firings before the first iteration. -/
def delay (s : Segment) : Nat := s.lag * s.length

/-- The number of tokens that are cut off at once, when `left` are left to send and the firing that
reads the next one has room for `room`.  Where neither is zero, a run is the smaller of the two. -/
def cut (grouping : Grouping) (left room : Nat) : Nat :=
  match grouping with
  | .single => 1
  | .runs => max 1 (min left room)

theorem cut_pos (grouping : Grouping) (left room : Nat) : 0 < cut grouping left room := by
  cases grouping <;> simp only [cut] <;> omega

/-- The number of the first token that a firing of the source sends. -/
def firstToken (e : Edge) (sender : Nat) : Nat := e.delay + sender * e.production

/-- The segment that begins with the token at a place among those of its firing, when an iteration
has `receivers` firings of the target. -/
def startingAt (grouping : Grouping) (e : Edge) (receivers sender offset : Nat) : Segment :=
  let perIteration := e.consumption * receivers
  let token := firstToken e sender + offset
  let slot := token % perIteration
  { sender := sender
    offset := offset
    receiver := slot / e.consumption
    lag := token / perIteration
    length := cut grouping (e.production - offset) (e.consumption - slot % e.consumption) }

theorem length_startingAt_pos (grouping : Grouping) (e : Edge) (receivers sender offset : Nat) :
    0 < (Segment.startingAt grouping e receivers sender offset).length :=
  cut_pos _ _ _

/-- The segments of the tokens that a firing still has to send after the first `offset` of them.

The place behind a segment is a natural here.  As a word of 64 bits that counts from one, it is the
only number on the way that nothing checks, and it leaves the range of counters behind the last
token of a firing that sends `2 ^ 64 - 1` of them.  What is said about such words leaves this
production out. -/
def fromToken (grouping : Grouping) (e : Edge) (receivers sender offset : Nat) : List Segment :=
  if offset < e.production then
    let s := Segment.startingAt grouping e receivers sender offset
    s :: fromToken grouping e receivers sender (offset + s.length)
  else []
termination_by e.production - offset
decreasing_by
  exact Nat.sub_lt_sub_left ‹_› (Nat.lt_add_of_pos_right (length_startingAt_pos _ _ _ _ _))

theorem fromToken_of_lt {grouping : Grouping} {e : Edge} {receivers sender offset : Nat}
    (h : offset < e.production) :
    fromToken grouping e receivers sender offset =
      startingAt grouping e receivers sender offset :: fromToken grouping e receivers sender
        (offset + (startingAt grouping e receivers sender offset).length) := by
  rw [fromToken, if_pos h]

theorem fromToken_of_not_lt {grouping : Grouping} {e : Edge} {receivers sender offset : Nat}
    (h : ¬ offset < e.production) : fromToken grouping e receivers sender offset = [] := by
  rw [fromToken, if_neg h]

/-- Appends the segments of `fromToken` to segments that were found before, one at a time.  It goes
on in the naturals, too, where the place behind the last token is no counter. -/
def collect (grouping : Grouping) (e : Edge) (receivers sender offset : Nat)
    (found : Array Segment) : Array Segment :=
  if offset < e.production then
    let s := Segment.startingAt grouping e receivers sender offset
    collect grouping e receivers sender (offset + s.length) (found.push s)
  else found
termination_by e.production - offset
decreasing_by
  exact Nat.sub_lt_sub_left ‹_› (Nat.lt_add_of_pos_right (length_startingAt_pos _ _ _ _ _))

theorem collect_eq {grouping : Grouping} {e : Edge} {receivers sender offset : Nat}
    {found : Array Segment} :
    collect grouping e receivers sender offset found =
      found ++ (fromToken grouping e receivers sender offset).toArray := by
  fun_induction collect grouping e receivers sender offset found with
  | case1 offset found h s ih =>
    rw [ih, fromToken_of_lt h]
    simp [s]
  | case2 offset found h => simp [fromToken_of_not_lt h]

/-- The segments of an edge whose source fires `senders` times and whose target fires `receivers`
times in an iteration. -/
def ofEdge (grouping : Grouping) (e : Edge) (senders receivers : Nat) : Array Segment :=
  (List.range senders).foldl (fun found sender => collect grouping e receivers sender 0 found) #[]

/-- The segments of an edge come firing by firing. -/
theorem toList_ofEdge {grouping : Grouping} {e : Edge} {senders receivers : Nat} :
    (ofEdge grouping e senders receivers).toList =
      (List.range senders).flatMap fun sender => fromToken grouping e receivers sender 0 := by
  rw [ofEdge]
  simp only [collect_eq]
  induction senders with
  | zero => simp
  | succ n ih => simp [List.range_succ, List.foldl_append, ih]

/-! ## The range of the numbers -/

/-- Are the number of the first token of a segment and its delay counters? -/
def check (first : Nat) (s : Segment) : Except RangeError Unit := do
  let _ ← Counter.add "token index" first s.offset
  let _ ← Counter.mul "expanded delay" s.lag s.length
  return ()

/-- Are all numbers that describe the segments of `fromToken` counters? -/
def checkFrom (grouping : Grouping) (e : Edge) (receivers sender first offset : Nat) :
    Except RangeError Unit :=
  if offset < e.production then
    let s := Segment.startingAt grouping e receivers sender offset
    match check first s with
    | .ok _ => checkFrom grouping e receivers sender first (offset + s.length)
    | .error error => .error error
  else .ok ()
termination_by e.production - offset
decreasing_by
  exact Nat.sub_lt_sub_left ‹_› (Nat.lt_add_of_pos_right (length_startingAt_pos _ _ _ _ _))

theorem checkFrom_eq {grouping : Grouping} {e : Edge} {receivers sender first offset : Nat} :
    checkFrom grouping e receivers sender first offset =
      (fromToken grouping e receivers sender offset).forM (check first) := by
  fun_induction checkFrom grouping e receivers sender first offset with
  | case1 offset h s u hc ih =>
    rw [ih, fromToken_of_lt h, List.forM_eq_forM, List.forM_cons, hc]
    rfl
  | case2 offset h s error hc =>
    rw [fromToken_of_lt h, List.forM_eq_forM, List.forM_cons, hc]
    rfl
  | case3 offset h =>
    rw [fromToken_of_not_lt h]
    rfl

/-- Are all numbers that describe the segments of a firing counters? -/
def checkFiring (grouping : Grouping) (e : Edge) (receivers sender : Nat) :
    Except RangeError Unit := do
  let before ← Counter.mul "token index" sender e.production
  let first ← Counter.add "token index" e.delay before
  checkFrom grouping e receivers sender first 0

/-- Are all numbers that describe the segments of an edge counters? -/
def checkEdge (grouping : Grouping) (e : Edge) (senders receivers : Nat) :
    Except RangeError Unit := do
  let _ ← Counter.mul "tokens consumed per iteration" e.consumption receivers
  (List.range senders).forM (checkFiring grouping e receivers)

end Segment

end Dataflow
