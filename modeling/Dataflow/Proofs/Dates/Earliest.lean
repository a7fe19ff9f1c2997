import Dataflow.Proofs.Dates
import Mathlib.Data.Set.Finite.Lattice
import Mathlib.Data.Set.Finite.List

/-!
# The earliest dates of firings

A firing that can have ended at all has an earliest date by which it can.  It can start as soon as
the last of the firings that feed it has ended, and at once if none does; so one of them, if there
are any, is *critical*: its earliest end is the earliest start.

* `Graph.CanStart`, `Graph.feeds` — the dates at which a firing can start, and the edges along which
  it waits for tokens.
* `Graph.StartsAt`, `Graph.EndsAt` — its earliest start and its earliest end.
* `Graph.EndedBy.exists_startsAt` — a firing that can have ended has an earliest start.
* **`Graph.StartsAt.exists_critical`** — which is zero, or the earliest end of a firing that feeds
  it.
-/

namespace Dataflow

namespace Graph

variable {τ : Type} [Clock τ] [AddCommMonoid τ] [LinearOrder τ] {g : Graph τ} {a k : Nat}
  {t start : τ}

/-- The edges along which firing number `k` of actor `a` waits for tokens. -/
def feeds (g : Graph τ) (a k : Nat) : Set Edge :=
  {e | e ∈ g.edges ∧ e.target = a ∧ 0 < e.demand k}

/-- Firing number `k` of actor `a` can start at a date. -/
def CanStart (g : Graph τ) (a k : Nat) (start : τ) : Prop :=
  0 ≤ start ∧ ∀ e ∈ g.edges, e.target = a → 0 < e.demand k →
    g.EndedBy e.source (e.demand k) start

/-- The date is the earliest at which firing number `k` of actor `a` can start. -/
def StartsAt (g : Graph τ) (a k : Nat) (start : τ) : Prop := IsLeast {u | g.CanStart a k u} start

/-- The date is the earliest by which firing number `k` of actor `a` can have ended. -/
def EndsAt (g : Graph τ) (a k : Nat) (t : τ) : Prop := IsLeast {u | g.EndedBy a k u} t

omit [Clock τ] [AddCommMonoid τ] [LinearOrder τ] in
lemma finite_feeds (g : Graph τ) (a k : Nat) : (g.feeds a k).Finite :=
  g.edges.toList.finite_toSet.subset fun _ he => Array.mem_toList_iff.2 he.1

lemma EndsAt.mono {t' : τ} (h : g.EndsAt a k t) (ht : t ≤ t') : g.EndedBy a k t' :=
  h.1.mono h.1.pos le_rfl ht

variable [IsOrderedAddMonoid τ]

lemma StartsAt.endsAt (h : g.StartsAt a k start) (hpos : 0 < k) (hle : k ≤ g.repetitions a) :
    g.EndsAt a k (start + g.duration a) := by
  refine ⟨.intro hpos hle h.1.1 h.1.2 le_rfl, fun t ht => ?_⟩
  cases ht with
  | @intro _ _ start' _ _ _ nonneg fed ends =>
    have hfirst : start ≤ start' := h.2 ⟨nonneg, fed⟩
    exact (add_le_add_left hfirst _).trans ends

variable [Clock.Exact τ]

lemma EndedBy.nonneg (hg : g.WellFormed) (h : g.EndedBy a k t) : 0 ≤ t := by
  cases h with
  | intro pos le nonneg fed ends => exact (add_nonneg nonneg (hg.duration_nonneg a)).trans ends

/-- If all firings that feed a firing have an earliest end, it starts when the last of them has
ended. -/
lemma exists_startsAt_of_feeds (hg : g.WellFormed)
    (hfeeds : ∀ e ∈ g.feeds a k, ∃ t, g.EndsAt e.source (e.demand k) t) :
    ∃ start, g.StartsAt a k start ∧ (g.feeds a k = ∅ ∧ start = 0 ∨
      ∃ e ∈ g.feeds a k, g.EndsAt e.source (e.demand k) start) := by
  rcases (g.feeds a k).eq_empty_or_nonempty with hnone | hsome
  · refine ⟨0, ⟨⟨le_rfl, fun e he htarget hdemand => ?_⟩, fun u hu => hu.1⟩, Or.inl ⟨hnone, rfl⟩⟩
    exact absurd (show e ∈ g.feeds a k from ⟨he, htarget, hdemand⟩) (by simp [hnone])
  · choose! last hlast using hfeeds
    obtain ⟨e, he, hmax⟩ := Set.exists_max_image _ last (g.finite_feeds a k) hsome
    refine ⟨last e, ⟨⟨(hlast e he).1.nonneg hg, fun e' he' htarget hdemand => ?_⟩,
      fun u hu => ?_⟩, Or.inr ⟨e, he, hlast e he⟩⟩
    · have hmem : e' ∈ g.feeds a k := ⟨he', htarget, hdemand⟩
      exact (hlast e' hmem).mono (hmax e' hmem)
    · exact (hlast e he).2 (hu.2 e he.1 he.2.1 he.2.2)

theorem EndedBy.exists_startsAt (hg : g.WellFormed) (h : g.EndedBy a k t) :
    ∃ start, g.StartsAt a k start := by
  induction h with
  | intro pos le nonneg fed ends ih =>
    refine (exists_startsAt_of_feeds hg fun e he => ?_).imp fun _ h => h.1
    have hfed := fed e he.1 he.2.1 he.2.2
    obtain ⟨start, hstart⟩ := ih e he.1 he.2.1 he.2.2
    exact ⟨_, hstart.endsAt hfed.pos hfed.le_repetitions⟩

lemma EndedBy.exists_endsAt (hg : g.WellFormed) (h : g.EndedBy a k t) : ∃ t', g.EndsAt a k t' :=
  let ⟨_, hstart⟩ := h.exists_startsAt hg
  ⟨_, hstart.endsAt h.pos h.le_repetitions⟩

/-- **Critical firings.**  A firing starts at zero if it waits for no token, and otherwise at the
earliest end of one of the firings that feed it. -/
theorem StartsAt.exists_critical (hg : g.WellFormed) (h : g.StartsAt a k start) :
    g.feeds a k = ∅ ∧ start = 0 ∨ ∃ e ∈ g.feeds a k, g.EndsAt e.source (e.demand k) start := by
  obtain ⟨start', hstart', hcritical⟩ := exists_startsAt_of_feeds hg (a := a) (k := k)
    fun e he => (h.1.2 e he.1 he.2.1 he.2.2).exists_endsAt hg
  rwa [hstart'.unique h] at hcritical

end Graph

end Dataflow
