import FramePlan.Proofs.Outcome

/-!
# Actions that end alike

Two actions, each begun in a state of its own, end alike if both return or both stop with the same
error. What their final states have in common is said by two relations, one for each end. As with
`Ends`, the rules take both actions apart along their text, here in step with each other.

* `Alike.bind`, `Alike.forM` — the rules for one action after another and for a loop.
* `Alike.and` — what each action is known to do by itself adds to what they have in common.
-/

namespace FramePlan

variable {ε ε' σ σ' σ'' α β γ δ : Type}

/-- Begun in the two states, both actions return with the first relation between the states they
leave, or both stop with the same error and the second one. -/
inductive Alike (act : EStateM ε σ α) (act' : EStateM ε σ' β) (s : σ) (s' : σ')
    (returned stopped : σ → σ' → Prop) : Prop where
  | of_ok {a : α} {b : β} {t : σ} {u : σ'} (hact : act s = .ok a t) (hact' : act' s' = .ok b u)
    (h : returned t u) : Alike act act' s s' returned stopped
  | of_error {e : ε} {t : σ} {u : σ'} (hact : act s = .error e t) (hact' : act' s' = .error e u)
    (h : stopped t u) : Alike act act' s s' returned stopped

namespace Alike

variable {act : EStateM ε σ α} {act' : EStateM ε σ' β} {s : σ} {s' : σ'}
  {returned returned' stopped stopped' : σ → σ' → Prop}

/-- Whether actions end alike can be read off their results. -/
theorem iff_results : Alike act act' s s' returned stopped ↔
    match act s, act' s' with
    | .ok _ t, .ok _ u => returned t u
    | .error e t, .error e' u => e = e' ∧ stopped t u
    | _, _ => False := by
  constructor
  · rintro (⟨hact, hact', h⟩ | ⟨hact, hact', h⟩)
    · rw [hact, hact']
      exact h
    · rw [hact, hact']
      exact ⟨rfl, h⟩
  · intro h
    split at h
    · next hact hact' => exact of_ok hact hact' h
    · next hact hact' =>
        obtain ⟨rfl, hstop⟩ := h
        exact of_error hact hact' hstop
    · exact h.elim

/-- Only the results matter. -/
theorem congr {other : EStateM ε σ α} {other' : EStateM ε σ' β} {t : σ} {t' : σ'}
    (h : Alike other other' t t' returned stopped) (hact : act s = other t)
    (hact' : act' s' = other' t') : Alike act act' s s' returned stopped := by
  cases h with
  | of_ok hother hother' hret => exact of_ok (hact.trans hother) (hact'.trans hother') hret
  | of_error hother hother' hstop => exact of_error (hact.trans hother) (hact'.trans hother') hstop

/-- If the first action returns, so does the second one. -/
theorem ok {a : α} {t : σ} (h : Alike act act' s s' returned stopped) (hact : act s = .ok a t) :
    ∃ b u, act' s' = .ok b u ∧ returned t u := by
  cases h with
  | of_ok hleft hright hret =>
      cases hact.symm.trans hleft
      exact ⟨_, _, hright, hret⟩
  | of_error hleft _ _ => cases hact.symm.trans hleft

/-- If the first action stops, so does the second one, with the same error. -/
theorem error {e : ε} {t : σ} (h : Alike act act' s s' returned stopped)
    (hact : act s = .error e t) : ∃ u, act' s' = .error e u ∧ stopped t u := by
  cases h with
  | of_ok hleft _ _ => cases hact.symm.trans hleft
  | of_error hleft hright hstop =>
      cases hact.symm.trans hleft
      exact ⟨_, hright, hstop⟩

theorem symm (h : Alike act act' s s' returned stopped) :
    Alike act' act s' s (fun u t => returned t u) fun u t => stopped t u := by
  cases h with
  | of_ok hact hact' hret => exact of_ok hact' hact hret
  | of_error hact hact' hstop => exact of_error hact' hact hstop

/-- What is known of the second action is known of the first one, up to the states they leave. -/
theorem ends {P : σ' → Prop} {S : ε → σ' → Prop} (h : Alike act act' s s' returned stopped)
    (hact' : Ends act' s' (fun _ => P) S) :
    Ends act s (fun _ t => ∃ u, returned t u ∧ P u) fun e t => ∃ u, stopped t u ∧ S e u := by
  cases h with
  | of_ok hresult hresult' hret => exact Ends.of_ok hresult ⟨_, hret, hact'.ok hresult'⟩
  | of_error hresult hresult' hstop => exact Ends.of_error hresult ⟨_, hstop, hact'.error hresult'⟩

theorem mono (h : Alike act act' s s' returned stopped)
    (hr : ∀ t u, returned t u → returned' t u) (hs : ∀ t u, stopped t u → stopped' t u) :
    Alike act act' s s' returned' stopped' := by
  cases h with
  | of_ok hact hact' hret => exact of_ok hact hact' (hr _ _ hret)
  | of_error hact hact' hstop => exact of_error hact hact' (hs _ _ hstop)

/-- What each action is known to do when it returns is added to what they have in common. -/
theorem and {P : σ → Prop} {P' : σ' → Prop} {S : ε → σ → Prop} {S' : ε → σ' → Prop}
    (h : Alike act act' s s' returned stopped) (hact : Ends act s (fun _ => P) S)
    (hact' : Ends act' s' (fun _ => P') S') :
    Alike act act' s s' (fun t u => returned t u ∧ P t ∧ P' u) stopped := by
  cases h with
  | of_ok hresult hresult' hret =>
      exact of_ok hresult hresult' ⟨hret, hact.ok hresult, hact'.ok hresult'⟩
  | of_error hresult hresult' hstop => exact of_error hresult hresult' hstop

/-- Actions end alike if what is known of each of them says so, and one cannot return if the other
stops. -/
theorem of_ends {P : σ → Prop} {P' : σ' → Prop} {S : ε → σ → Prop} {S' : ε → σ' → Prop}
    (hact : Ends act s (fun _ => P) S) (hact' : Ends act' s' (fun _ => P') S')
    (hret : ∀ t u, P t → P' u → returned t u)
    (hstop : ∀ e e' t u, S e t → S' e' u → e = e' ∧ stopped t u)
    (hleft : ∀ t e u, P t → ¬ S' e u) (hright : ∀ e t u, S e t → ¬ P' u) :
    Alike act act' s s' returned stopped := by
  cases hresult : act s with
  | ok a t =>
      have ht := hact.ok hresult
      cases hresult' : act' s' with
      | ok b u => exact of_ok hresult hresult' (hret t u ht (hact'.ok hresult'))
      | error e u => exact absurd (hact'.error hresult') (hleft t e u ht)
  | error e t =>
      have ht := hact.error hresult
      cases hresult' : act' s' with
      | ok b u => exact absurd (hact'.ok hresult') (hright e t u ht)
      | error e' u =>
          obtain ⟨rfl, hstopped⟩ := hstop e e' t u ht (hact'.error hresult')
          exact of_error hresult hresult' hstopped

/-- Two actions end alike if both end like a third one. -/
theorem join {act'' : EStateM ε σ'' γ} {s'' : σ''} {R S : σ → σ'' → Prop} {R' S' : σ' → σ'' → Prop}
    (h : Alike act act'' s s'' R S) (h' : Alike act' act'' s' s'' R' S') :
    Alike act act' s s' (fun t u => ∃ v, R t v ∧ R' u v) fun t u => ∃ v, S t v ∧ S' u v := by
  cases h with
  | of_ok hact hthird hret =>
      cases h' with
      | of_ok hact' hthird' hret' =>
          cases hthird.symm.trans hthird'
          exact of_ok hact hact' ⟨_, hret, hret'⟩
      | of_error _ hthird' _ => cases hthird.symm.trans hthird'
  | of_error hact hthird hstop =>
      cases h' with
      | of_ok _ hthird' _ => cases hthird.symm.trans hthird'
      | of_error hact' hthird' hstop' =>
          cases hthird.symm.trans hthird'
          exact of_error hact hact' ⟨_, hstop, hstop'⟩

/-! ### The rules -/

theorem pure {a : α} {b : β} (h : returned s s') :
    Alike (Pure.pure a : EStateM ε σ α) (Pure.pure b : EStateM ε σ' β) s s' returned stopped :=
  of_ok rfl rfl h

theorem modify {f : σ → σ} {f' : σ' → σ'} (h : returned (f s) (f' s')) :
    Alike (modify f : EStateM ε σ Unit) (modify f' : EStateM ε σ' Unit) s s' returned stopped :=
  of_ok rfl rfl h

theorem bind {next : α → EStateM ε σ γ} {next' : β → EStateM ε σ' δ}
    {middle : σ → σ' → Prop} (h : Alike act act' s s' middle stopped)
    (hnext : ∀ a b t u, middle t u → Alike (next a) (next' b) t u returned stopped) :
    Alike (act >>= next) (act' >>= next') s s' returned stopped := by
  cases h with
  | of_ok hact hact' hmiddle =>
      exact (hnext _ _ _ _ hmiddle).congr (bind_of_ok hact) (bind_of_ok hact')
  | of_error hact hact' hstop => exact of_error (bind_of_error hact) (bind_of_error hact') hstop

/-- What an action returns does not matter. -/
theorem returns {f : α → γ} (h : Alike act act' s s' returned stopped) :
    Alike (act >>= fun a => Pure.pure (f a)) act' s s' returned stopped := by
  cases h with
  | of_ok hact hact' hret => exact of_ok (bind_of_ok hact) hact' hret
  | of_error hact hact' hstop => exact of_error (bind_of_error hact) hact' hstop

theorem adaptExcept {f : ε → ε'} (h : Alike act act' s s' returned stopped) :
    Alike (act.adaptExcept f) (act'.adaptExcept f) s s' returned stopped := by
  cases h with
  | @of_ok a b _ _ hact hact' hret =>
      exact of_ok (a := a) (b := b) (by rw [EStateM.adaptExcept, hact])
        (by rw [EStateM.adaptExcept, hact']) hret
  | @of_error e _ _ hact hact' hstop =>
      exact of_error (e := f e) (by rw [EStateM.adaptExcept, hact])
        (by rw [EStateM.adaptExcept, hact']) hstop

/-- Two loops over the same list end alike if their rounds do. -/
theorem forM {xs : List γ} {act : γ → EStateM ε σ Unit} {act' : γ → EStateM ε σ' Unit}
    {I : σ → σ' → Prop} (round : ∀ x ∈ xs, ∀ t u, I t u → Alike (act x) (act' x) t u I stopped)
    (h : I s s') : Alike (xs.forM act) (xs.forM act') s s' I stopped := by
  induction xs generalizing s s' with
  | nil => exact pure h
  | cons x xs ih =>
      apply bind (round x List.mem_cons_self s s' h)
      intro _ _ t u htu
      exact ih (fun y hy => round y (List.mem_cons_of_mem x hy)) htu

/-- One action after another, against a loop over two lists. -/
theorem append {xs ys : List δ} {act' : δ → EStateM ε σ' Unit} {next : α → EStateM ε σ γ}
    {middle : σ → σ' → Prop} (h : Alike act (xs.forM act') s s' middle stopped)
    (hnext : ∀ a t u, middle t u → Alike (next a) (ys.forM act') t u returned stopped) :
    Alike (act >>= next) ((xs ++ ys).forM act') s s' returned stopped :=
  (bind h fun a _ => hnext a).congr rfl (congrFun List.forM_append s')

/-- Two loops, one of them over a list that the other is made from. -/
theorem map {xs : List γ} {f : γ → δ} {act : γ → EStateM ε σ Unit}
    {act' : δ → EStateM ε σ' Unit} {I : σ → σ' → Prop}
    (round : ∀ x ∈ xs, ∀ t u, I t u → Alike (act x) (act' (f x)) t u I stopped) (h : I s s') :
    Alike (xs.forM act) ((xs.map f).forM act') s s' I stopped := by
  have hloop : Alike (xs.forM act) (xs.forM fun x => act' (f x)) s s' I stopped := forM round h
  exact hloop.congr rfl (congrFun List.forM_map s')

/-- Each round of one loop is a loop itself, over a part of the list of the other. -/
theorem flatMap {xs : List γ} {part : γ → List δ} {act : γ → EStateM ε σ Unit}
    {act' : δ → EStateM ε σ' Unit} {I : σ → σ' → Prop}
    (round : ∀ x ∈ xs, ∀ t u, I t u → Alike (act x) ((part x).forM act') t u I stopped)
    (h : I s s') : Alike (xs.forM act) ((xs.flatMap part).forM act') s s' I stopped := by
  induction xs generalizing s s' with
  | nil => exact pure h
  | cons x xs ih =>
      rw [List.flatMap_cons]
      refine append (round x List.mem_cons_self s s' h) fun _ t u htu => ?_
      exact ih (fun y hy => round y (List.mem_cons_of_mem x hy)) htu

/-- The same for a loop that gathers what its rounds return. -/
theorem mapM {xs : List γ} {act : γ → EStateM ε σ α} {act' : γ → EStateM ε σ' Unit}
    {I : σ → σ' → Prop} (round : ∀ x ∈ xs, ∀ t u, I t u → Alike (act x) (act' x) t u I stopped)
    (h : I s s') : Alike (xs.mapM act) (xs.forM act') s s' I stopped := by
  induction xs generalizing s s' with
  | nil => exact pure h
  | cons x xs ih =>
      rw [List.mapM_cons]
      apply bind (round x List.mem_cons_self s s' h)
      intro _ _ t u htu
      exact returns (ih (fun y hy => round y (List.mem_cons_of_mem x hy)) htu)

end Alike

end FramePlan
