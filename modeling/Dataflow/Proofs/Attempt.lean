import Dataflow.Attempt
import Mathlib.Data.List.Forall2

/-!
# Operations that succeed

What success says about the parts of an operation, and whose failure it is otherwise.  An operation
made of several succeeds exactly when every one of them does, so a property that every finished
operation of a sequence keeps is kept by the sequence (`Attempt.each_induction`), a sequence of
operations that all finish finishes (`Attempt.exists_each`), and two sequences stay side by side if
their operations do (`Attempt.Follows`).
-/

namespace Dataflow

section Except

variable {ε ε' α β : Type}

lemma bind_eq_ok {x : Except ε α} {f : α → Except ε β} {b : β} :
    x >>= f = .ok b ↔ ∃ a, x = .ok a ∧ f a = .ok b := by
  cases x with
  | error e => simp [bind, Except.bind]
  | ok a => simp [bind, Except.bind]

lemma bind_eq_error {x : Except ε α} {f : α → Except ε β} {e : ε} :
    x >>= f = .error e ↔ x = .error e ∨ ∃ a, x = .ok a ∧ f a = .error e := by
  cases x with
  | error e' => simp [bind, Except.bind]
  | ok a => simp [bind, Except.bind]

/-- A check comes before something else. -/
lemma check_bind_eq_ok {x : Except ε Unit} {f : Unit → Except ε β} {b : β} :
    x >>= f = .ok b ↔ x = .ok () ∧ f () = .ok b := by
  rw [bind_eq_ok]
  exact Unique.exists_iff

lemma pure_eq_ok {a b : α} : (pure a : Except ε α) = .ok b ↔ a = b := by
  simp [pure, Except.pure]

@[simp] lemma pure_ne_error {a : α} {e : ε} : (pure a : Except ε α) ≠ .error e := by
  simp [pure, Except.pure]

lemma mapError_eq_ok {x : Except ε α} {f : ε → ε'} {a : α} :
    x.mapError f = .ok a ↔ x = .ok a := by
  cases x <;> simp [Except.mapError]

lemma mapError_eq_error {x : Except ε α} {f : ε → ε'} {e : ε'} :
    x.mapError f = .error e ↔ ∃ e₀, x = .error e₀ ∧ f e₀ = e := by
  cases x <;> simp [Except.mapError]

lemma map_eq_ok {x : Except ε α} {f : α → β} {b : β} :
    x.map f = .ok b ↔ ∃ a, x = .ok a ∧ f a = b := by
  cases x <;> simp [Except.map]

/-- A list of results succeeds when every member does. -/
lemma mapM_eq_ok {f : α → Except ε β} : ∀ {l : List α} {r : List β},
    l.mapM f = .ok r ↔ List.Forall₂ (fun a b => f a = .ok b) l r
  | [], r => by
      rw [List.mapM_nil, pure_eq_ok, List.forall₂_nil_left_iff, eq_comm]
  | a :: l, r => by
      rw [List.mapM_cons, bind_eq_ok, List.forall₂_cons_left_iff]
      simp only [bind_eq_ok, pure_eq_ok, mapM_eq_ok]
      constructor
      · rintro ⟨b, hb, bs, hbs, rfl⟩
        exact ⟨b, bs, hb, hbs, rfl⟩
      · rintro ⟨b, bs, hb, hbs, rfl⟩
        exact ⟨b, hb, bs, hbs, rfl⟩

/-- An array of results succeeds when every member does. -/
lemma array_mapM_eq_ok {f : α → Except ε β} {xs : Array α} {r : Array β} :
    xs.mapM f = .ok r ↔ List.Forall₂ (fun a b => f a = .ok b) xs.toList r.toList := by
  rw [Array.mapM_eq_mapM_toList, ← mapM_eq_ok]
  refine map_eq_ok.trans ⟨?_, fun h => ⟨_, h, Array.toArray_toList⟩⟩
  rintro ⟨l, hl, rfl⟩
  exact hl

/-- A list of checks succeeds when every check does. -/
lemma forM_eq_ok {f : α → Except ε Unit} : ∀ {l : List α},
    l.forM f = .ok () ↔ ∀ a ∈ l, f a = .ok ()
  | [] => by simp [List.forM_nil, pure_eq_ok]
  | a :: l => by
      rw [List.forM_eq_forM, List.forM_cons, check_bind_eq_ok, ← List.forM_eq_forM, forM_eq_ok,
        List.forall_mem_cons]

/-- What every step of a fold keeps, the fold keeps. -/
lemma foldlM_induction {f : β → α → Except ε β} {P : β → Prop} : ∀ {l : List α} {b b' : β},
    l.foldlM f b = .ok b' → (∀ a ∈ l, ∀ m m', P m → f m a = .ok m' → P m') → P b → P b'
  | [], b, b', h, _, hb => by
      rw [List.foldlM_nil, pure_eq_ok] at h
      exact h ▸ hb
  | a :: l, b, b', h, step, hb => by
      rw [List.foldlM_cons, bind_eq_ok] at h
      obtain ⟨m, hm, hrest⟩ := h
      exact foldlM_induction hrest (fun a' ha' => step a' (List.mem_cons_of_mem a ha'))
        (step a List.mem_cons_self b m hb hm)

/-- A fold fails where one of its steps does. -/
lemma exists_of_foldlM_eq_error {f : β → α → Except ε β} {e : ε} : ∀ {l : List α} {b : β},
    l.foldlM f b = .error e → ∃ a ∈ l, ∃ m, f m a = .error e
  | [], b, h => by simp at h
  | a :: l, b, h => by
      rw [List.foldlM_cons, bind_eq_error] at h
      rcases h with ha | ⟨m, _, hrest⟩
      · exact ⟨a, List.mem_cons_self, b, ha⟩
      · obtain ⟨a', ha', m', hm'⟩ := exists_of_foldlM_eq_error hrest
        exact ⟨a', List.mem_cons_of_mem a ha', m', hm'⟩

/-- A result is found by testing it. -/
lemma exists_of_any_ok {x : Except ε α} {p : α → Bool} (h : x.toOption.any p = true) :
    ∃ a, x = .ok a ∧ p a = true := by
  cases x with
  | error e => simp [Except.toOption] at h
  | ok a => exact ⟨a, rfl, by simpa [Except.toOption] using h⟩

end Except

namespace Attempt

variable {τ σ α : Type}

/-- The outcome is a state exactly when the operation finished in it. -/
lemma outcome_eq_ok {x : Attempt τ σ} {s : σ} : x.outcome = .ok s ↔ x = finished s := by
  obtain ⟨state, failure⟩ := x
  cases failure <;> simp [outcome, finished]

@[simp] lemma finished_inj {s s' : σ} : (finished s : Attempt τ σ) = finished s' ↔ s = s' := by
  simp [finished]

@[simp] lemma stopped_ne_finished {s s' : σ} {f : Failure τ} : stopped s f ≠ finished s' := by
  simp [stopped, finished]

@[simp] lemma stopped_inj {s s' : σ} {f f' : Failure τ} :
    stopped s f = stopped s' f' ↔ s = s' ∧ f = f' := by
  simp [stopped]

@[simp] lemma finished_ne_stopped {s s' : σ} {f : Failure τ} : finished s ≠ stopped s' f :=
  stopped_ne_finished.symm

@[simp] lemma state_finished (s : σ) : (finished s : Attempt τ σ).state = s := rfl

@[simp] lemma state_stopped (s : σ) (f : Failure τ) : (stopped s f).state = s := rfl

/-- A sequence of two operations finishes when both do, the second from where the first ended. -/
lemma andThen_eq_finished {x : Attempt τ σ} {next : σ → Attempt τ σ} {s : σ} :
    x.andThen next = finished s ↔ ∃ m, x = finished m ∧ next m = finished s := by
  obtain ⟨state, failure⟩ := x
  cases failure with
  | none => simp [andThen, finished]
  | some f => simp [andThen, finished, stopped]

/-- Such a sequence stops where its first operation stops or, after that has finished, the second. -/
lemma andThen_eq_stopped {x : Attempt τ σ} {next : σ → Attempt τ σ} {s : σ} {f : Failure τ} :
    x.andThen next = stopped s f ↔ x = stopped s f ∨ ∃ m, x = finished m ∧ next m = stopped s f := by
  obtain ⟨state, failure⟩ := x
  cases failure with
  | none => simp [andThen, finished, stopped]
  | some f' => simp [andThen, finished, stopped]

/-- An operation finishes or stops. -/
lemma finished_or_stopped (x : Attempt τ σ) : (∃ s, x = finished s) ∨ ∃ s f, x = stopped s f := by
  obtain ⟨state, failure⟩ := x
  cases failure with
  | none => exact Or.inl ⟨state, rfl⟩
  | some f => exact Or.inr ⟨state, f, rfl⟩

lemma map_eq_finished {ρ : Type} {x : Attempt τ σ} {f : σ → ρ} {r : ρ} :
    x.map f = finished r ↔ ∃ s, x = finished s ∧ f s = r := by
  obtain ⟨state, failure⟩ := x
  cases failure <;> simp [map, finished]

/-- What every finished operation on a member of a list keeps, the operation on the list keeps. -/
theorem each_induction {f : α → σ → Attempt τ σ} {P : σ → Prop} :
    ∀ {l : List α} {s s' : σ}, each f l s = finished s' →
      (∀ a ∈ l, ∀ m m', P m → f a m = finished m' → P m') → P s → P s'
  | [], s, s', h, _, hs => by
      rw [each, finished_inj] at h
      exact h ▸ hs
  | a :: rest, s, s', h, step, hs => by
      rw [each, andThen_eq_finished] at h
      obtain ⟨m, ha, hrest⟩ := h
      exact each_induction hrest (fun b hb => step b (List.mem_cons_of_mem a hb))
        (step a List.mem_cons_self s m hs ha)

/-- If the operation on every member of a list finishes and keeps a property, the operation on the
list finishes. -/
theorem exists_each {f : α → σ → Attempt τ σ} {P : σ → Prop} :
    ∀ {l : List α} {s : σ}, (∀ a ∈ l, ∀ m, P m → ∃ m', f a m = finished m' ∧ P m') → P s →
      ∃ s', each f l s = finished s'
  | [], s, _, _ => ⟨s, rfl⟩
  | a :: rest, s, step, hs => by
      obtain ⟨m, ha, hm⟩ := step a List.mem_cons_self s hs
      obtain ⟨s', hrest⟩ := exists_each (fun b hb => step b (List.mem_cons_of_mem a hb)) hm
      exact ⟨s', andThen_eq_finished.2 ⟨m, ha, hrest⟩⟩

/-- The operation on a list stops where the operation on one of its members does. -/
lemma each_eq_stopped {f : α → σ → Attempt τ σ} {s' : σ} {failure : Failure τ} :
    ∀ {l : List α} {s : σ}, each f l s = stopped s' failure →
      ∃ a ∈ l, ∃ m, f a m = stopped s' failure
  | [], s, h => by simp [each, finished, stopped] at h
  | a :: rest, s, h => by
      rcases andThen_eq_stopped.1 h with ha | ⟨m, _, hrest⟩
      · exact ⟨a, List.mem_cons_self, s, ha⟩
      · obtain ⟨b, hb, m', hm'⟩ := each_eq_stopped hrest
        exact ⟨b, List.mem_cons_of_mem a hb, m', hm'⟩

/-! ## Operations side by side -/

variable {ρ : Type} {R : σ → ρ → Prop}

/-- Where the first operation finishes, so does the second, and their states are related. -/
def Follows (R : σ → ρ → Prop) (x : Attempt τ σ) (y : Attempt τ ρ) : Prop :=
  ∀ s, x = finished s → ∃ r, y = finished r ∧ R s r

lemma Follows.finished {s : σ} {r : ρ} (h : R s r) :
    Follows R (finished s : Attempt τ σ) (finished r) := by
  intro s' hs'
  obtain rfl := finished_inj.1 hs'
  exact ⟨r, rfl, h⟩

lemma Follows.map {σ' ρ' : Type} {R' : σ' → ρ' → Prop} {x : Attempt τ σ} {y : Attempt τ ρ}
    {f : σ → σ'} {f' : ρ → ρ'} (h : Follows R x y) (hf : ∀ s r, R s r → R' (f s) (f' r)) :
    Follows R' (x.map f) (y.map f') := by
  intro s' hs'
  obtain ⟨s, hx, rfl⟩ := map_eq_finished.1 hs'
  obtain ⟨r, hy, hr⟩ := h s hx
  exact ⟨f' r, map_eq_finished.2 ⟨r, hy, rfl⟩, hf s r hr⟩

lemma Follows.andThen {x : Attempt τ σ} {y : Attempt τ ρ} {next : σ → Attempt τ σ}
    {next' : ρ → Attempt τ ρ} (h : Follows R x y)
    (hnext : ∀ s r, R s r → Follows R (next s) (next' r)) :
    Follows R (x.andThen next) (y.andThen next') := by
  intro s' hs'
  obtain ⟨s, hx, hs⟩ := andThen_eq_finished.1 hs'
  obtain ⟨r, hy, hr⟩ := h s hx
  obtain ⟨r', hr', hrelated⟩ := hnext s r hr s' hs
  exact ⟨r', andThen_eq_finished.2 ⟨r, hy, hr'⟩, hrelated⟩

/-- Sequences over one list stay side by side if the operations on its members do. -/
theorem Follows.each {f : α → σ → Attempt τ σ} {f' : α → ρ → Attempt τ ρ}
    (h : ∀ a s r, R s r → Follows R (f a s) (f' a r)) (l : List α) :
    ∀ {s : σ} {r : ρ}, R s r → Follows R (each f l s) (each f' l r) := by
  induction l with
  | nil => exact fun hr => .finished hr
  | cons a l ih => exact fun hr => (h a _ _ hr).andThen fun _ _ => ih

end Attempt

end Dataflow
