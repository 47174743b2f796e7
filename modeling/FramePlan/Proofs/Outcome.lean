import Mathlib.Data.List.Basic

/-!
# How actions end

An action on a state either returns or stops, and leaves a state in both cases. `Ends` says what
holds in each case; its rules take an action apart along its text, so that a fact about a run is
put together from facts about the calls that the run makes.

* `Ends.bind`, `Ends.forM` — the rules for one action after another and for a loop.
* `Ends.exists_ok` — an action that cannot stop returns.
* `StopsWith` — which errors an action stops with.
* `foldlM_ok` — the rule for a checked loop over pure values.
-/

namespace FramePlan

variable {ε ε' σ α β : Type}

/-! ### One action after another -/

theorem bind_of_ok {act : EStateM ε σ α} {next : α → EStateM ε σ β} {s t : σ} {a : α}
    (h : act s = .ok a t) : (act >>= next) s = next a t := by
  show EStateM.bind act next s = _
  unfold EStateM.bind
  rw [h]

theorem bind_of_error {act : EStateM ε σ α} {next : α → EStateM ε σ β} {s t : σ} {e : ε}
    (h : act s = .error e t) : (act >>= next) s = .error e t := by
  show EStateM.bind act next s = _
  unfold EStateM.bind
  rw [h]

theorem get_bind {next : σ → EStateM ε σ β} {s : σ} : (get >>= next) s = next s s := rfl

/-- A loop takes all steps if each of its rounds takes one. Between the rounds the state is a view
of what the steps are about, and `I` holds of that. -/
theorem forM_of_step {τ : Type} {act : α → EStateM ε σ Unit} (view : τ → σ) (step : τ → α → τ)
    {I : τ → Prop} {xs : List α} {t : τ}
    (round : ∀ x ∈ xs, ∀ t, I t → act x (view t) = .ok () (view (step t x)) ∧ I (step t x))
    (h : I t) : xs.forM act (view t) = .ok () (view (xs.foldl step t)) := by
  induction xs generalizing t with
  | nil => rfl
  | cons x xs ih =>
      obtain ⟨hround, hinv⟩ := round x (List.mem_cons_self ..) t h
      exact (bind_of_ok hround).trans (ih (fun y hy => round y (List.mem_cons_of_mem _ hy)) hinv)

/-- The rule for steps that can always be taken. -/
theorem forM_of_round {τ : Type} {act : α → EStateM ε σ Unit} (view : τ → σ) (step : τ → α → τ)
    {xs : List α} {t : τ}
    (round : ∀ x ∈ xs, ∀ t, act x (view t) = .ok () (view (step t x))) :
    xs.forM act (view t) = .ok () (view (xs.foldl step t)) :=
  forM_of_step (I := fun _ => True) view step (fun x hx t _ => ⟨round x hx t, trivial⟩) trivial

/-- A loop whose rounds leave the state alone gathers what they return. -/
theorem mapM_of_ok {act : α → EStateM ε σ β} {f : α → β} {xs : List α} {s : σ}
    (h : ∀ x ∈ xs, act x s = .ok (f x) s) : xs.mapM act s = .ok (xs.map f) s := by
  induction xs with
  | nil => rfl
  | cons x xs ih =>
      have hxs := ih fun y hy => h y (List.mem_cons_of_mem x hy)
      rw [List.mapM_cons]
      exact (bind_of_ok (h x List.mem_cons_self)).trans (bind_of_ok hxs)

/-! ### The two ends of an action -/

/-- Begun in a state, the action returns with the first or stops with the second. -/
def Ends (act : EStateM ε σ α) (s : σ) (returned : α → σ → Prop) (stopped : ε → σ → Prop) : Prop :=
  match act s with
  | .ok a t => returned a t
  | .error e t => stopped e t

namespace Ends

variable {act : EStateM ε σ α} {s : σ} {returned returned' : α → σ → Prop}
  {stopped stopped' : ε → σ → Prop}

theorem of_ok {a : α} {t : σ} (hact : act s = .ok a t) (h : returned a t) :
    Ends act s returned stopped := by
  unfold Ends
  rw [hact]
  exact h

theorem of_error {e : ε} {t : σ} (hact : act s = .error e t) (h : stopped e t) :
    Ends act s returned stopped := by
  unfold Ends
  rw [hact]
  exact h

/-- What holds of an action holds of the result at hand. -/
theorem ok {a : α} {t : σ} (h : Ends act s returned stopped) (hact : act s = .ok a t) :
    returned a t := by
  unfold Ends at h
  rw [hact] at h
  exact h

theorem error {e : ε} {t : σ} (h : Ends act s returned stopped) (hact : act s = .error e t) :
    stopped e t := by
  unfold Ends at h
  rw [hact] at h
  exact h

/-- If no result could be described both ways or as two errors, then an error that is described is
the one that the action stops with. -/
theorem error_iff {e : ε} {t : σ} (h : Ends act s returned stopped)
    (hapart : ∀ {e t a t'}, stopped e t → ¬ returned a t')
    (hunique : ∀ {e t e' t'}, stopped e t → stopped e' t' → e = e' ∧ t = t') :
    act s = .error e t ↔ stopped e t := by
  refine ⟨h.error, fun hstopped => ?_⟩
  cases hact : act s with
  | ok a t' => exact absurd (h.ok hact) (hapart hstopped)
  | error e' t' =>
      obtain ⟨rfl, rfl⟩ := hunique hstopped (h.error hact)
      rfl

theorem self : Ends act s (fun a t => act s = .ok a t) (fun e t => act s = .error e t) := by
  cases hact : act s with
  | ok a t => exact of_ok hact rfl
  | error e t => exact of_error hact rfl

theorem mono (h : Ends act s returned stopped) (hr : ∀ a t, returned a t → returned' a t)
    (hs : ∀ e t, stopped e t → stopped' e t) : Ends act s returned' stopped' := by
  cases hact : act s with
  | ok a t => exact of_ok hact (hr a t (h.ok hact))
  | error e t => exact of_error hact (hs e t (h.error hact))

theorem always : Ends act s (fun _ _ => True) fun _ _ => True :=
  self.mono (fun _ _ _ => trivial) fun _ _ _ => trivial

theorem and (h : Ends act s returned stopped) (h' : Ends act s returned' stopped') :
    Ends act s (fun a t => returned a t ∧ returned' a t)
      (fun e t => stopped e t ∧ stopped' e t) :=
  self.mono (fun _ _ hact => ⟨h.ok hact, h'.ok hact⟩) fun _ _ hact => ⟨h.error hact, h'.error hact⟩

/-- Actions with the same result end alike. -/
theorem congr {act' : EStateM ε σ α} {s' : σ} (heq : act s = act' s')
    (h : Ends act' s' returned stopped) : Ends act s returned stopped :=
  self.mono (fun _ _ hact => h.ok (heq.symm.trans hact)) fun _ _ hact =>
    h.error (heq.symm.trans hact)

/-- An action that has no way to stop returns. -/
theorem exists_ok (h : Ends act s returned fun _ _ => False) :
    ∃ a t, act s = .ok a t ∧ returned a t := by
  cases hact : act s with
  | ok a t => exact ⟨a, t, rfl, h.ok hact⟩
  | error e t => exact (h.error hact).elim

/-- An action that returns has no way to stop. -/
theorem of_exists_ok (h : ∃ a t, act s = .ok a t) :
    Ends act s (fun _ _ => True) fun _ _ => False := by
  obtain ⟨a, t, hact⟩ := h
  exact of_ok hact trivial

/-! ### The rules -/

theorem pure {a : α} (h : returned a s) : Ends (Pure.pure a : EStateM ε σ α) s returned stopped := h

theorem bind {next : α → EStateM ε σ β} {returned : β → σ → Prop}
    (h : Ends act s (fun a t => Ends (next a) t returned stopped) stopped) :
    Ends (act >>= next) s returned stopped := by
  cases hact : act s with
  | ok a t => exact congr (bind_of_ok hact) (h.ok hact)
  | error e t => exact of_error (bind_of_error hact) (h.error hact)

/-- The rule for one action after another, read backwards. -/
theorem of_bind {next : α → EStateM ε σ β} {returned : β → σ → Prop}
    (h : Ends (act >>= next) s returned stopped) :
    Ends act s (fun a t => Ends (next a) t returned stopped) stopped := by
  cases hact : act s with
  | ok a t => exact of_ok hact (congr (bind_of_ok hact).symm h)
  | error e t => exact of_error hact (h.error (bind_of_error hact))

theorem adaptExcept {f : ε → ε'} {stopped : ε' → σ → Prop}
    (h : Ends act s returned fun e t => stopped (f e) t) :
    Ends (act.adaptExcept f) s returned stopped := by
  cases hact : act s with
  | ok a t =>
      refine of_ok (a := a) (t := t) ?_ (h.ok hact)
      unfold EStateM.adaptExcept
      rw [hact]
  | error e t =>
      refine of_error (e := f e) (t := t) ?_ (h.error hact)
      unfold EStateM.adaptExcept
      rw [hact]

/-- A loop keeps what each of its rounds keeps; `I` says what holds when the entries of a list
are worked off. -/
theorem forM {xs : List α} {act : α → EStateM ε σ Unit} {I : List α → σ → Prop}
    (round : ∀ pre x post t, xs = pre ++ x :: post → I pre t →
      Ends (act x) t (fun _ u => I (pre ++ [x]) u) stopped)
    (h : I [] s) : Ends (xs.forM act) s (fun _ t => I xs t) stopped := by
  suffices ∀ post pre t, xs = pre ++ post → I pre t →
      Ends (post.forM act) t (fun _ u => I xs u) stopped from this xs [] s rfl h
  intro post
  induction post with
  | nil =>
      intro pre t hxs hinv
      rw [List.append_nil] at hxs
      subst hxs
      exact Ends.pure hinv
  | cons x post ih =>
      intro pre t hxs hinv
      refine bind ((round pre x post t hxs hinv).mono (fun _ u hu => ?_) fun _ _ hu => hu)
      exact ih (pre ++ [x]) u (by simpa using hxs) hu

/-- The rule for a loop that gathers what its rounds return. -/
theorem mapM {γ : Type} {xs : List γ} {act : γ → EStateM ε σ α} {I : List γ → σ → Prop}
    (round : ∀ pre x post t, xs = pre ++ x :: post → I pre t →
      Ends (act x) t (fun _ u => I (pre ++ [x]) u) stopped)
    (h : I [] s) : Ends (xs.mapM act) s (fun _ t => I xs t) stopped := by
  suffices ∀ post pre t, xs = pre ++ post → I pre t →
      Ends (post.mapM act) t (fun _ u => I xs u) stopped from this xs [] s rfl h
  intro post
  induction post with
  | nil =>
      intro pre t hxs hinv
      rw [List.append_nil] at hxs
      subst hxs
      exact Ends.pure hinv
  | cons x post ih =>
      intro pre t hxs hinv
      rw [List.mapM_cons]
      refine bind ((round pre x post t hxs hinv).mono (fun _ u hu => ?_) fun _ _ hu => hu)
      apply bind
      apply (ih (pre ++ [x]) u (by simpa using hxs) hu).mono _ fun _ _ hv => hv
      exact fun _ _ hv => pure hv

end Ends

theorem ends_modify {f : σ → σ} {s : σ} {returned : Unit → σ → Prop} {stopped : ε → σ → Prop}
    (h : returned () (f s)) : Ends (modify f : EStateM ε σ Unit) s returned stopped := h

/-! ### The errors of an action -/

/-- Wherever the action stops, its error is as stated. -/
def StopsWith (act : EStateM ε σ α) (P : ε → Prop) : Prop :=
  ∀ s, Ends act s (fun _ _ => True) fun e _ => P e

namespace StopsWith

variable {P : ε → Prop}

theorem modify (f : σ → σ) : StopsWith (modify f : EStateM ε σ Unit) P := fun _ => trivial

theorem bind {act : EStateM ε σ α} {next : α → EStateM ε σ β} (h : StopsWith act P)
    (hnext : ∀ a, StopsWith (next a) P) : StopsWith (act >>= next) P :=
  fun s => Ends.bind ((h s).mono (fun a t _ => hnext a t) fun _ _ he => he)

theorem forM {xs : List α} {act : α → EStateM ε σ Unit} (h : ∀ x ∈ xs, StopsWith (act x) P) :
    StopsWith (xs.forM act) P := by
  intro s
  apply Ends.forM (I := fun _ _ => True) _ trivial
  intro pre x post t hsplit _
  exact h x (by simp [hsplit]) t

end StopsWith

/-! ### Checked loops over values -/

theorem except_bind_ok {x : Except ε α} {f : α → Except ε β} {b : β} :
    (x >>= f) = .ok b ↔ ∃ a, x = .ok a ∧ f a = .ok b := by
  cases x with
  | ok a =>
      constructor
      · intro h
        exact ⟨a, rfl, h⟩
      · rintro ⟨_, ⟨⟩, h⟩
        exact h
  | error e =>
      constructor
      · intro h
        cases h
      · rintro ⟨_, ⟨⟩, _⟩

theorem except_map_ok {x : Except ε α} {f : α → β} {b : β} :
    x.map f = .ok b ↔ ∃ a, x = .ok a ∧ f a = b := by
  cases x with
  | ok a => simp [Except.map]
  | error e => simp [Except.map]

/-- A checked loop that reaches its end kept what each of its rounds keeps. -/
theorem foldlM_ok {f : β → α → Except ε β} {xs : List α} {I : List α → β → Prop} {b c : β}
    (round : ∀ pre x post y z, xs = pre ++ x :: post → I pre y → f y x = .ok z →
      I (pre ++ [x]) z)
    (h : I [] b) (hok : xs.foldlM f b = .ok c) : I xs c := by
  suffices ∀ post pre y, xs = pre ++ post → I pre y → post.foldlM f y = .ok c → I xs c from
    this xs [] b rfl h hok
  intro post
  induction post with
  | nil =>
      intro pre y hxs hinv hfold
      cases hfold
      rw [List.append_nil] at hxs
      subst hxs
      exact hinv
  | cons x post ih =>
      intro pre y hxs hinv hfold
      rw [List.foldlM_cons] at hfold
      obtain ⟨z, hz, hfold⟩ := except_bind_ok.mp hfold
      exact ih (pre ++ [x]) z (by simpa using hxs) (round pre x post y z hxs hinv hz) hfold

/-- A checked loop ends at the first entry that its round refuses, with that entry's error. -/
theorem foldlM_first {f : β → α → Except ε β} {xs : List α} {b : β} (bad : Nat → ε → Prop)
    (round : ∀ pre x post y, xs = pre ++ x :: post → pre.foldlM f b = .ok y →
      (∃ z, f y x = .ok z) ∧ (∀ e, ¬ bad pre.length e) ∨
        ∃ e, f y x = .error e ∧ bad pre.length e) :
    (∃ c, xs.foldlM f b = .ok c) ∧ (∀ i < xs.length, ∀ e, ¬ bad i e) ∨
      ∃ i e, xs.foldlM f b = .error e ∧ bad i e ∧ ∀ j < i, ∀ e, ¬ bad j e := by
  suffices ∀ post pre y, xs = pre ++ post → pre.foldlM f b = .ok y →
      (∀ i < pre.length, ∀ e, ¬ bad i e) →
      (∃ c, xs.foldlM f b = .ok c) ∧ (∀ i < xs.length, ∀ e, ¬ bad i e) ∨
        ∃ i e, xs.foldlM f b = .error e ∧ bad i e ∧ ∀ j < i, ∀ e, ¬ bad j e from
    this xs [] b rfl rfl fun i hi => absurd hi (Nat.not_lt_zero i)
  intro post
  induction post with
  | nil =>
      intro pre y hxs hfold hgood
      rw [List.append_nil] at hxs
      subst hxs
      exact Or.inl ⟨⟨y, hfold⟩, hgood⟩
  | cons x post ih =>
      intro pre y hxs hfold hgood
      rcases round pre x post y hxs hfold with ⟨⟨z, hz⟩, hnone⟩ | ⟨e, he, hbad⟩
      · refine ih (pre ++ [x]) z (by simpa using hxs) ?_ fun i hi e => ?_
        · rw [List.foldlM_append, hfold]
          show [x].foldlM f y = .ok z
          rw [List.foldlM_cons, hz]
          rfl
        · rw [List.length_append, List.length_singleton, Nat.lt_succ_iff_lt_or_eq] at hi
          rcases hi with hi | rfl
          · exact hgood i hi e
          · exact hnone e
      · refine Or.inr ⟨pre.length, e, ?_, hbad, hgood⟩
        rw [hxs, List.foldlM_append, hfold]
        show (x :: post).foldlM f y = .error e
        rw [List.foldlM_cons, he]
        rfl

end FramePlan
