import Dataflow.Counter
import Dataflow.Proofs.Attempt
import Mathlib.Algebra.BigOperators.Group.List.Lemmas
import Mathlib.Algebra.GCDMonoid.Multiset
import Mathlib.Algebra.GCDMonoid.Nat
import Mathlib.Algebra.Order.BigOperators.GroupWithZero.List
import Mathlib.Algebra.Order.Ring.Nat

/-!
# Least common multiples of counters

A least common multiple is known by its multiples: they are the common multiples.

* `Counter.lcm_eq_ok_iff` — the least common multiple of two counters is found exactly when it is a
  counter.
* **`Counter.lcmAll_dvd_iff`** — what is found for a list divides exactly the common multiples.
* **`Counter.lcmAll_eq_ok_iff`** — a least common multiple is found for a list of positive counters
  exactly when it is a counter, in whatever order they come.
* `Counter.beforeZero` — the values of a list before its first zero.
* **`Counter.lcmAll_found`** — for a list with zeros it is these values that decide whether the least
  common multiple, which is zero then, is found.
* **`Counter.lcmAll_order`** — so the order decides.
-/

namespace Dataflow.Counter

theorem lcm_eq_ok_iff {a b c : Nat} : lcm a b = .ok c ↔ a.lcm b < bound ∧ c = a.lcm b := by
  rw [lcm]
  split
  case isTrue hzero =>
    have hlcm : a.lcm b = 0 := Nat.lcm_eq_zero_iff.2 hzero
    rw [hlcm, Except.ok.injEq, eq_comm]
    exact (and_iff_right (by decide)).symm
  case isFalse =>
    rw [mul_eq_ok_iff, Nat.div_mul_right_comm (Nat.gcd_dvd_left a b)]
    rfl

lemma foldlM_lcm_dvd_iff {m : Nat} : ∀ {values : List Nat} {a c : Nat},
    values.foldlM lcm a = .ok c → (c ∣ m ↔ a ∣ m ∧ ∀ v ∈ values, v ∣ m)
  | [], a, c, h => by
      rw [List.foldlM_nil, pure_eq_ok] at h
      simp [h]
  | v :: values, a, c, h => by
      rw [List.foldlM_cons, bind_eq_ok] at h
      obtain ⟨b, hb, hc⟩ := h
      obtain ⟨_, rfl⟩ := lcm_eq_ok_iff.1 hb
      rw [foldlM_lcm_dvd_iff hc, Nat.lcm_dvd_iff, List.forall_mem_cons, and_assoc]

/-- The multiples of what is found are the common multiples of the list. -/
theorem lcmAll_dvd_iff {values : List Nat} {c : Nat} (h : lcmAll values = .ok c) (m : Nat) :
    c ∣ m ↔ ∀ v ∈ values, v ∣ m := by
  rw [foldlM_lcm_dvd_iff h, and_iff_right (Nat.one_dvd m)]

lemma dvd_lcmAll {values : List Nat} {c v : Nat} (h : lcmAll values = .ok c) (hv : v ∈ values) :
    v ∣ c :=
  (lcmAll_dvd_iff h c).1 dvd_rfl v hv

lemma lcmAll_pos {values : List Nat} {c : Nat} (h : lcmAll values = .ok c)
    (hpos : ∀ v ∈ values, 0 < v) : 0 < c := by
  have hdvd : c ∣ values.prod := (lcmAll_dvd_iff h _).2 fun v hv => List.dvd_prod hv
  exact Nat.pos_of_dvd_of_pos hdvd (List.prod_pos hpos)

/-- Where everything divides a counter, no step on the way leaves the range. -/
lemma exists_foldlM_lcm {m : Nat} (hpos : 0 < m) (hm : m < bound) : ∀ {values : List Nat} {a : Nat},
    a ∣ m → (∀ v ∈ values, v ∣ m) → ∃ c, values.foldlM lcm a = .ok c
  | [], a, _, _ => ⟨a, rfl⟩
  | v :: values, a, ha, hvalues => by
      obtain ⟨hv, hrest⟩ := List.forall_mem_cons.1 hvalues
      have hdvd : a.lcm v ∣ m := Nat.lcm_dvd ha hv
      have hlt : a.lcm v < bound := Nat.lt_of_le_of_lt (Nat.le_of_dvd hpos hdvd) hm
      obtain ⟨c, hc⟩ := exists_foldlM_lcm hpos hm hdvd hrest
      exact ⟨c, bind_eq_ok.2 ⟨a.lcm v, lcm_eq_ok_iff.2 ⟨hlt, rfl⟩, hc⟩⟩

lemma lt_bound_of_foldlM_lcm : ∀ {values : List Nat} {a c : Nat},
    a < bound → values.foldlM lcm a = .ok c → c < bound
  | [], a, c, ha, h => by
      rw [List.foldlM_nil, pure_eq_ok] at h
      exact h ▸ ha
  | v :: values, a, c, _, h => by
      rw [List.foldlM_cons, bind_eq_ok] at h
      obtain ⟨b, hb, hc⟩ := h
      obtain ⟨hlt, rfl⟩ := lcm_eq_ok_iff.1 hb
      exact lt_bound_of_foldlM_lcm hlt hc

/-- The least common multiple of positive counters is found if and only if it is a counter; what
comes before the end of the fold is no larger. -/
theorem lcmAll_eq_ok_iff {values : List Nat} {c : Nat} (hpos : ∀ v ∈ values, 0 < v) :
    lcmAll values = .ok c ↔
      (values : Multiset Nat).lcm < bound ∧ c = (values : Multiset Nat).lcm := by
  have hvalue : ∀ {c}, lcmAll values = .ok c → c = (values : Multiset Nat).lcm := by
    intro c h
    refine Nat.dvd_antisymm ((lcmAll_dvd_iff h _).2 fun v hv => ?_) ?_
    · exact Multiset.dvd_lcm (Multiset.mem_coe.2 hv)
    · exact Multiset.lcm_dvd.2 fun v hv => dvd_lcmAll h (Multiset.mem_coe.1 hv)
  constructor
  · intro h
    rw [← hvalue h]
    exact ⟨lt_bound_of_foldlM_lcm (by decide) h, rfl⟩
  · rintro ⟨hlt, rfl⟩
    have hne : (values : Multiset Nat).lcm ≠ 0 := by
      rw [Multiset.lcm_ne_zero_iff, Multiset.mem_coe]
      exact fun h => Nat.lt_irrefl 0 (hpos 0 h)
    obtain ⟨c, hc⟩ := exists_foldlM_lcm (Nat.pos_of_ne_zero hne) hlt (Nat.one_dvd _)
      fun v hv => Multiset.dvd_lcm (Multiset.mem_coe.2 hv)
    exact hvalue hc ▸ hc

/-! ## Zeros -/

/-- The values of a list before its first zero. -/
def beforeZero (values : List Nat) : List Nat := values.takeWhile (· != 0)

/-- A list is without zeros, or a zero follows its first values. -/
lemma beforeZero_cases (values : List Nat) :
    (0 ∉ values ∧ beforeZero values = values) ∨
      ∃ rest, values = beforeZero values ++ 0 :: rest := by
  induction values with
  | nil => exact .inl ⟨by simp, rfl⟩
  | cons v values ih =>
    by_cases hv : v = 0
    · exact .inr ⟨values, by simp [beforeZero, hv]⟩
    · have hcons : beforeZero (v :: values) = v :: beforeZero values := by simp [beforeZero, hv]
      rw [hcons]
      rcases ih with ⟨hzero, hall⟩ | ⟨rest, hrest⟩
      · exact .inl ⟨by simp [hzero, Ne.symm hv], by rw [hall]⟩
      · exact .inr ⟨rest, congrArg (v :: ·) hrest⟩

lemma pos_of_mem_beforeZero {values : List Nat} : ∀ v ∈ beforeZero values, 0 < v := by
  intro v hv
  have hkept := List.all_eq_true.1 (List.all_takeWhile (p := (· != 0)) (l := values)) v hv
  exact Nat.pos_of_ne_zero (bne_iff_ne.1 hkept)

lemma beforeZero_of_notMem {values : List Nat} (h : 0 ∉ values) : beforeZero values = values := by
  rcases beforeZero_cases values with ⟨_, hall⟩ | ⟨rest, hrest⟩
  · exact hall
  · rw [hrest] at h
    simp at h

/-- A zero is the end of all computation: what follows it changes nothing. -/
lemma foldlM_lcm_zero : ∀ values : List Nat, values.foldlM lcm 0 = .ok 0
  | [] => rfl
  | v :: values => by
      rw [List.foldlM_cons, bind_eq_ok]
      exact ⟨0, by simp [lcm], foldlM_lcm_zero values⟩

/-- A zero is found if what comes before it has a least common multiple. -/
lemma lcmAll_append_zero_eq_ok_iff {values rest : List Nat} {c : Nat} :
    lcmAll (values ++ 0 :: rest) = .ok c ↔ (∃ m, lcmAll values = .ok m) ∧ c = 0 := by
  have hrest : ∀ m, (0 :: rest).foldlM lcm m = .ok c ↔ c = 0 := by
    intro m
    have hfold : (0 :: rest).foldlM lcm m = .ok 0 :=
      bind_eq_ok.2 ⟨0, by simp [lcm], foldlM_lcm_zero rest⟩
    rw [hfold, Except.ok.injEq, eq_comm]
  rw [lcmAll, List.foldlM_append, bind_eq_ok]
  simp only [hrest, exists_and_right]
  rfl

/-- The least common multiple of any list is found if and only if what comes before the first zero
has one that is a counter. -/
lemma lcmAll_eq_ok_iff_beforeZero {values : List Nat} {c : Nat} :
    lcmAll values = .ok c ↔
      (beforeZero values : Multiset Nat).lcm < bound ∧ c = (values : Multiset Nat).lcm := by
  rcases beforeZero_cases values with ⟨_, hall⟩ | ⟨rest, hrest⟩
  · have hpos : ∀ v ∈ beforeZero values, 0 < v := pos_of_mem_beforeZero
    rw [hall] at hpos ⊢
    exact lcmAll_eq_ok_iff hpos
  · have hlcm : (values : Multiset Nat).lcm = 0 := by
      refine (Multiset.lcm_eq_zero_iff _).2 (Multiset.mem_coe.2 ?_)
      rw [hrest]
      simp
    rw [hlcm, hrest, lcmAll_append_zero_eq_ok_iff, ← hrest]
    simp only [lcmAll_eq_ok_iff pos_of_mem_beforeZero, exists_and_left, exists_eq, and_true]

lemma lcm_eq_error {a b : Nat} {error : RangeError} (h : lcm a b = .error error) :
    error = .product "least common multiple" (a / a.gcd b) b ∧ bound ≤ a / a.gcd b * b := by
  rw [lcm] at h
  split at h
  · cases h
  · rw [mul] at h
    split at h
    case isTrue => cases h
    case isFalse hge => exact ⟨(Except.error.inj h).symm, Nat.le_of_not_lt hge⟩

/-- **Least common multiples of lists.**  What is found is the least common multiple: one for no
values, zero as soon as there is a zero.  It is found if and only if the values before the first zero
have a least common multiple that is a counter; a list without zeros gives the same in every order.
Where the least common multiple itself is no counter, there is a refusal, and every refusal names a
product that is none. -/
theorem lcmAll_found (values : List Nat) :
    (∀ c, lcmAll values = .ok c ↔
        (beforeZero values : Multiset Nat).lcm < bound ∧ c = (values : Multiset Nat).lcm) ∧
      (0 ∉ values → beforeZero values = values ∧
        ∀ other : List Nat, other.Perm values →
          ∀ c, lcmAll other = .ok c ↔ lcmAll values = .ok c) ∧
      (bound ≤ (values : Multiset Nat).lcm → ∃ error, lcmAll values = .error error) ∧
      ∀ error, lcmAll values = .error error →
        ∃ a, ∃ v ∈ values, error = .product "least common multiple" a v ∧ bound ≤ a * v := by
  refine ⟨fun c => lcmAll_eq_ok_iff_beforeZero, fun hzero => ⟨beforeZero_of_notMem hzero, ?_⟩,
    fun hlarge => ?_, fun error herror => ?_⟩
  · intro other hperm c
    have hlcm : (other : Multiset Nat) = (values : Multiset Nat) := Multiset.coe_eq_coe.2 hperm
    have hzero' : 0 ∉ other := fun h => hzero (hperm.mem_iff.1 h)
    rw [lcmAll_eq_ok_iff_beforeZero, lcmAll_eq_ok_iff_beforeZero, beforeZero_of_notMem hzero,
      beforeZero_of_notMem hzero', hlcm]
  · cases hfound : lcmAll values with
    | error error => exact ⟨error, rfl⟩
    | ok c =>
      have hc := (lcmAll_eq_ok_iff_beforeZero.1 hfound).2
      have hlt : c < bound := lt_bound_of_foldlM_lcm (by decide) hfound
      omega
  · obtain ⟨v, hv, m, hm⟩ := exists_of_foldlM_eq_error herror
    obtain ⟨hproduct, hlarge⟩ := lcm_eq_error hm
    exact ⟨_, v, hv, hproduct, hlarge⟩

/-- Four, six and ten have sixty for their least common multiple, in any order, and it does not matter
what follows a zero behind them. -/
theorem fourSixTen_found :
    lcmAll [4, 6, 10] = .ok 60 ∧ lcmAll [10, 4, 6] = .ok 60 ∧
      lcmAll [4, 6, 10, 0, 1 <<< 63, 3] = .ok 0 ∧
      ∃ error, lcmAll [4, 1 <<< 63, 10] = .error error ∧
        ∃ a, ∃ v ∈ [4, 1 <<< 63, 10], error = .product "least common multiple" a v ∧
          bound ≤ a * v := by
  obtain ⟨hfound, hnozero, _⟩ := lcmAll_found [4, 6, 10]
  obtain ⟨_, hanyOrder⟩ := hnozero (by decide)
  obtain ⟨hzero, _⟩ := lcmAll_found [4, 6, 10, 0, 1 <<< 63, 3]
  obtain ⟨_, _, hlarge, hrefused⟩ := lcmAll_found [4, 1 <<< 63, 10]
  have hsixty : lcmAll [4, 6, 10] = .ok 60 := (hfound 60).2 ⟨by decide, by decide⟩
  obtain ⟨error, herror⟩ := hlarge (by decide +kernel)
  exact ⟨hsixty, (hanyOrder [10, 4, 6] (by decide) 60).2 hsixty, (hzero 0).2 ⟨by decide, by decide⟩,
    error, herror, hrefused error herror⟩

/-- A zero that comes too late is missed, though the least common multiple is zero in every order. -/
theorem lcmAll_order :
    lcmAll [1 <<< 63, 3, 0] = .error (.product "least common multiple" (1 <<< 63) 3) ∧
      lcmAll [0, 1 <<< 63, 3] = .ok 0 ∧ (([1 <<< 63, 3, 0] : List Nat) : Multiset Nat).lcm = 0 := by
  refine ⟨by cbv, by cbv, ?_⟩
  exact (Multiset.lcm_eq_zero_iff _).2 (by simp)

/-! ## Sums -/

/-- Counters that are computed and added one after another add up to the sum of the list. -/
lemma foldlM_add_eq_ok {α : Type} {what : String} {f : α → Except RangeError Nat} :
    ∀ {l : List α} {a c : Nat},
      l.foldlM (fun n x => do let m ← f x; add what n m) a = .ok c →
        ∃ ms, List.Forall₂ (fun x m => f x = .ok m) l ms ∧ c = a + ms.sum
  | [], a, c, h => by
      rw [List.foldlM_nil, pure_eq_ok] at h
      exact ⟨[], .nil, h.symm⟩
  | x :: l, a, c, h => by
      simp only [List.foldlM_cons, bind_eq_ok, add_eq_ok_iff] at h
      obtain ⟨b, ⟨m, hm, _, rfl⟩, hc⟩ := h
      obtain ⟨ms, hms, rfl⟩ := foldlM_add_eq_ok hc
      exact ⟨m :: ms, .cons hm hms, by rw [List.sum_cons, Nat.add_assoc]⟩

/-- They do so exactly if that sum is a counter. -/
lemma foldlM_add_eq_ok_iff {α : Type} {what : String} {f : α → Except RangeError Nat}
    {value : α → Nat} (hvalue : ∀ x m, f x = .ok m → m = value x)
    (hfound : ∀ x, value x < bound → f x = .ok (value x)) :
    ∀ {l : List α} {a c : Nat}, a < bound →
      (l.foldlM (fun n x => do let m ← f x; add what n m) a = .ok c ↔
        a + (l.map value).sum < bound ∧ c = a + (l.map value).sum)
  | [], a, c, ha => by
      rw [List.foldlM_nil, pure_eq_ok, List.map_nil, List.sum_nil, Nat.add_zero, eq_comm]
      exact (and_iff_right ha).symm
  | x :: l, a, c, ha => by
      simp only [List.foldlM_cons, bind_eq_ok, add_eq_ok_iff, List.map_cons, List.sum_cons]
      rw [← Nat.add_assoc]
      constructor
      · rintro ⟨b, ⟨m, hm, hb, rfl⟩, hc⟩
        obtain rfl := hvalue x m hm
        exact (foldlM_add_eq_ok_iff hvalue hfound hb).1 hc
      · rintro ⟨hsum, rfl⟩
        have hb : a + value x < bound := by omega
        exact ⟨_, ⟨_, hfound x (by omega), hb, rfl⟩,
          (foldlM_add_eq_ok_iff hvalue hfound hb).2 ⟨hsum, rfl⟩⟩

end Dataflow.Counter
