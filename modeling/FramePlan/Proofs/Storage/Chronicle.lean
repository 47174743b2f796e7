import FramePlan.Proofs.IdMap
import FramePlan.Proofs.Plan.Script
import FramePlan.Proofs.Storage.Requirement
import FramePlan.Proofs.Storage.Supply
import FramePlan.Storage.Chronicle
import Mathlib.Data.List.Forall2
import Mathlib.Data.List.Nodup

/-!
# What is recorded is what happened

The recorded transitions of one instance form a chain: each begins in the state that the one before
led to, and the last one leads to the state that the instance is in, wherever it is by then. An
imported instance is returned in its external state.

* `Transition.Chain` — one transition after another.
* `Chronicle.Faithful` — the chronicle of a session agrees with storage, and has a chain for each
  instance that ever came in.
* `Chronicle.Faithful.follow` — each call keeps it so, also one that is refused.
* `Session.transitions_faithful` — the joint statement.
-/

namespace FramePlan

variable {κ η ς τ : Type}

/-- Transitions that lead from the first state to the last, none of them to the state it began in. -/
inductive Transition.Chain (first : Option ς) : List (Transition ς) → Option ς → Prop where
  | nil : Transition.Chain first [] first
  | snoc {ts : List (Transition ς)} {t : Transition ς} : Transition.Chain first ts t.before →
    t.before ≠ some t.after → Transition.Chain first (ts ++ [t]) (some t.after)

theorem rel_imp {α β : Type} {R S : α → β → Prop} (himp : ∀ a b, R a b → S a b) {x : Option α}
    {y : Option β} (h : Option.Rel R x y) : Option.Rel S x y := by
  cases h with
  | none => exact .none
  | some hab => exact .some (himp _ _ hab)

theorem forall₂_imp {α β : Type} {R S : α → β → Prop} {xs : List α} {ys : List β}
    (himp : ∀ a, ∀ b ∈ ys, R a b → S a b) (h : List.Forall₂ R xs ys) : List.Forall₂ S xs ys := by
  induction h with
  | nil => exact .nil
  | @cons a b xs ys hab _ ih =>
      exact .cons (himp a b List.mem_cons_self hab)
        (ih fun x y hy => himp x y (List.mem_cons_of_mem b hy))

/-- The state that an instance comes in. -/
def Origin.initial : Origin κ ς → Option ς
  | .imported external => some external
  | .temporal _ => none

namespace FreeLists

variable [DecidableEq κ] {α β : Type} {R : κ × α → κ × β → Prop}

/-- Lists that agree entry by entry are acquired from at the same place. -/
theorem acquire?_rel (hkey : ∀ e f, R e f → e.1 = f.1) {es : List (κ × α)} {fs : List (κ × β)}
    (h : List.Forall₂ R es fs) (key : κ) :
    Option.Rel (fun a b => R (key, a.1) (key, b.1) ∧ List.Forall₂ R a.2.entries b.2.entries)
      ((⟨es⟩ : FreeLists κ α).acquire? key) ((⟨fs⟩ : FreeLists κ β).acquire? key) := by
  unfold acquire?
  induction h with
  | nil => exact .none
  | @cons e f es fs hef hrest ih =>
      have hsame := hkey e f hef
      obtain ⟨k, a⟩ := e
      obtain ⟨k', b⟩ := f
      obtain rfl : k = k' := hsame
      by_cases hk : k = key
      · subst hk
        simp only [List.find?_cons, List.eraseP_cons, decide_true, cond_true, Option.map_some]
        exact .some ⟨hef, hrest⟩
      · simp only [List.find?_cons, List.eraseP_cons, hk, decide_false, cond_false]
        generalize es.find? (fun e => decide (e.1 = key)) = found at ih ⊢
        generalize fs.find? (fun e => decide (e.1 = key)) = found' at ih ⊢
        cases found with
        | none =>
            cases found' with
            | none => exact .none
            | some f => cases ih
        | some e =>
            cases found' with
            | none => cases ih
            | some f =>
                cases ih with
                | some hboth => exact .some ⟨hboth.1, .cons hef hboth.2⟩

end FreeLists

namespace Chronicle

/-- The instance came in so, and what was recorded of it led to the state. -/
def Reaches (c : Chronicle κ η ς) (i : Nat) (owner : η × Origin κ ς) (state : Option ς) : Prop :=
  c.arrivals[i]? = some owner ∧ Transition.Chain owner.2.initial (c.recordsOf i) state

/-- The chronicle agrees with the session. -/
structure Faithful (c : Chronicle κ η ς) (s : Session κ η ς τ) : Prop where
  /-- Each transition is recorded of an instance. -/
  records : c.records.map (·.2) = s.transitions
  known : ∀ e ∈ c.records, e.1 < c.arrivals.length
  /-- Each instance is at one place. -/
  places : c.places.Perm (List.range c.arrivals.length)
  bound : ∀ r, Option.Rel (fun binding i => c.Reaches i binding.owner binding.held.state)
    (s.storage.bound.get? r) (c.bound.get? r)
  pool : List.Forall₂ (fun e f => e.1 = f.1 ∧
    c.Reaches f.2 (e.2.handle, .temporal e.1) e.2.state) s.storage.pool.entries c.pool.entries
  restored : ∀ i ∈ c.restored, ∃ h external, c.Reaches i (h, .imported external) (some external)
  returned : List.Forall₂ (fun e i => ∃ state, c.Reaches i (e.2, .temporal e.1) state)
    s.returned c.returned

variable {c d : Chronicle κ η ς} {s : Session κ η ς τ} {t : Storage κ η ς τ} {r : ResourceId}
  {i j : Nat} {owner : η × Origin κ ς} {state : Option ς} {binding : Binding κ η ς}

/-! ### Records -/

theorem Reaches.congr (h : c.Reaches i owner state) (harrival : d.arrivals[i]? = c.arrivals[i]?)
    (hrecords : d.recordsOf i = c.recordsOf i) : d.Reaches i owner state :=
  ⟨harrival.trans h.1, hrecords ▸ h.2⟩

theorem ascribe_nil : c.ascribe [] = c := by
  simp [ascribe]

theorem ascribe_append (ts us : List (Transition ς)) :
    c.ascribe (ts ++ us) = (c.ascribe ts).ascribe us := by
  simp [ascribe]

theorem records_ascribe {t : Transition ς} (hbound : c.bound.get? t.resource = some i) :
    (c.ascribe [t]).records = c.records ++ [(i, t)] := by
  simp [ascribe, hbound]

theorem recordsOf_ascribe {t : Transition ς} (hbound : c.bound.get? t.resource = some i) :
    (c.ascribe [t]).recordsOf j = c.recordsOf j ++ if i = j then [t] else [] := by
  unfold recordsOf
  rw [records_ascribe hbound, List.filter_append, List.map_append]
  by_cases hij : i = j <;> simp [hij]

theorem news_of_append {s t : Storage κ η ς τ} {ts : List (Transition ς)}
    (h : t.transitions.toList = s.transitions.toList ++ ts) : news s t = ts := by
  unfold news
  rw [h, ← Array.length_toList, List.drop_left]

namespace Faithful

theorem start (supply : τ) :
    (Chronicle.empty : Chronicle κ η ς).Faithful (Session.start supply) where
  records := rfl
  known _ he := absurd he List.not_mem_nil
  places := .refl _
  bound _ := .none
  pool := .nil
  restored _ hi := absurd hi List.not_mem_nil
  returned := .nil

theorem nodup (h : c.Faithful s) : c.places.Nodup := h.places.nodup_iff.mpr List.nodup_range

theorem exists_bound (h : c.Faithful s) (hbound : s.storage.bound.get? r = some binding) :
    ∃ i, c.bound.get? r = some i ∧ c.Reaches i binding.owner binding.held.state := by
  have hrel := h.bound r
  rw [hbound] at hrel
  cases hi : c.bound.get? r with
  | none =>
      rw [hi] at hrel
      cases hrel
  | some i =>
      rw [hi] at hrel
      cases hrel with
      | some hreaches => exact ⟨i, rfl, hreaches⟩

theorem bound_eq_none_iff (h : c.Faithful s) :
    c.bound.get? r = none ↔ s.storage.bound.get? r = none := by
  have hrel := h.bound r
  generalize s.storage.bound.get? r = x at hrel ⊢
  generalize c.bound.get? r = y at hrel ⊢
  cases hrel <;> simp

/-! ### Calls that only change what is where -/

/-- Nothing new is recorded. -/
theorem records_eq (h : c.Faithful s) (htransitions : t.transitions = s.storage.transitions) :
    c.records.map (·.2) = ({ s with storage := t } : Session κ η ς τ).transitions := by
  rw [h.records]
  unfold Session.transitions
  rw [htransitions]

/-- Nothing was recorded by a call that leaves the instances as they are. -/
theorem same (h : c.Faithful s) (hsame : Storage.SameInstances s.storage t) :
    c.Faithful { s with storage := t } where
  records := h.records_eq hsame.transitions
  known := h.known
  places := h.places
  bound := hsame.bound ▸ h.bound
  pool := hsame.pool ▸ h.pool
  restored := h.restored
  returned := h.returned

theorem takeTransitions (h : c.Faithful s) : c.Faithful
    { s with
      storage := s.storage.takeTransitions.2
      taken := s.taken ++ s.storage.takeTransitions.1.toList } where
  records := by
    rw [h.records]
    simp [Session.transitions, Storage.takeTransitions]
  known := h.known
  places := h.places
  bound := h.bound
  pool := h.pool
  restored := h.restored
  returned := h.returned

theorem releasePool (h : c.Faithful s) :
    ({ c with pool := ∅, returned := c.returned ++ c.pool.entries.map (·.2) } :
      Chronicle κ η ς).Faithful
    { s with
      storage := s.storage.releasePool.2
      returned := s.returned ++ s.storage.releasePool.1 } where
  records := h.records
  known := h.known
  places := by
    refine List.Perm.trans ?_ h.places
    -- The pool goes behind what was returned before.
    show (c.bound.entries.map Prod.snd ++ [] ++ c.restored ++
      (c.returned ++ c.pool.entries.map Prod.snd)).Perm c.places
    unfold Chronicle.places
    simp only [List.append_nil, List.append_assoc]
    apply List.Perm.append_left
    rw [← List.append_assoc]
    exact List.perm_append_comm
  bound := h.bound
  pool := .nil
  restored := h.restored
  returned := by
    have hpool : List.Forall₂ (fun e i => ∃ state, c.Reaches i (e.2, .temporal e.1) state)
        (s.storage.pool.entries.map fun e => (e.1, e.2.handle)) (c.pool.entries.map (·.2)) := by
      rw [List.forall₂_map_left_iff, List.forall₂_map_right_iff]
      exact h.pool.imp fun _ _ hef => ⟨_, hef.2⟩
    exact List.rel_append h.returned hpool

theorem ids_insert {m : IdMap .resource Nat} (hfree : m.get? r = none) :
    ((m.insert r i).entries.map (·.2)).Perm (i :: m.entries.map (·.2)) :=
  (IdMap.entries_insert hfree).map _

theorem ids_erase {m : IdMap .resource Nat} (hi : m.get? r = some i) :
    (m.entries.map (·.2)).Perm (i :: (m.erase r).entries.map (·.2)) :=
  (IdMap.entries_erase hi).map _

theorem move {m : Move} (h : c.Faithful s) (hmoved : Storage.Moved s.storage m t)
    (hi : c.bound.get? m.src = some i) :
    ({ c with bound := (c.bound.erase m.src).insert m.dst i } : Chronicle κ η ς).Faithful
      { s with storage := t } where
  records := h.records_eq hmoved.transitions
  known := h.known
  places := by
    have hfree : (c.bound.erase m.src).get? m.dst = none :=
      IdMap.get?_erase_of_eq_none (h.bound_eq_none_iff.mpr hmoved.free)
    have hsame := (ids_insert (i := i) hfree).trans (ids_erase hi).symm
    exact (((hsame.append_right _).append_right _).append_right _).trans h.places
  bound := by
    obtain ⟨binding, hsrc, hbound⟩ := hmoved.bound
    obtain ⟨i', hi', hreaches⟩ := h.exists_bound hsrc
    rw [hi] at hi'
    cases hi'
    exact hbound ▸ IdMap.rel_insert (IdMap.rel_erase h.bound) hreaches
  pool := hmoved.pool ▸ h.pool
  restored := h.restored
  returned := h.returned

/-! ### New instances -/

theorem lt_of_reaches (h : c.Reaches i owner state) : i < c.arrivals.length :=
  (List.getElem?_eq_some_iff.mp h.1).1

/-- What comes in changes nothing about the instances that are there. -/
theorem reaches_arrive (h : c.Reaches i owner state) (other : η × Origin κ ς) :
    (c.arrive r other).Reaches i owner state :=
  h.congr (List.getElem?_append_left (lt_of_reaches h)) rfl

theorem arrive (h : c.Faithful s) (hfree : s.storage.bound.get? r = none)
    (hbound : t.bound = s.storage.bound.insert r binding) (hpool : t.pool = s.storage.pool)
    (htransitions : t.transitions = s.storage.transitions)
    (hinitial : binding.held.state = binding.origin.initial) :
    (c.arrive r binding.owner).Faithful { s with storage := t } where
  records := h.records_eq htransitions
  known e he := by
    have hlt := h.known e he
    show e.1 < (c.arrivals ++ [binding.owner]).length
    rw [List.length_append, List.length_singleton]
    omega
  places := by
    have hids := ids_insert (i := c.arrivals.length) (h.bound_eq_none_iff.mpr hfree)
    show (((c.bound.insert r c.arrivals.length).entries.map (·.2) ++ _ ++ _ ++ _).Perm
      (List.range (c.arrivals ++ [binding.owner]).length))
    rw [List.length_append, List.length_singleton, List.range_succ]
    apply (((hids.append_right _).append_right _).append_right _).trans
    exact (h.places.cons _).trans (List.perm_append_singleton _ _).symm
  bound := by
    have hnew : (c.arrive r binding.owner).Reaches c.arrivals.length binding.owner
        binding.held.state := by
      refine ⟨List.getElem?_concat_length, ?_⟩
      have hnone : c.recordsOf c.arrivals.length = [] := by
        unfold recordsOf
        rw [List.filter_eq_nil_iff.mpr, List.map_nil]
        intro e he
        have hlt := h.known e he
        simp only [decide_eq_true_eq]
        omega
      show Transition.Chain binding.origin.initial (c.recordsOf c.arrivals.length) _
      rw [hnone, hinitial]
      exact .nil
    have hold : ∀ x, Option.Rel (fun (other : Binding κ η ς) i =>
        (c.arrive r binding.owner).Reaches i other.owner other.held.state)
        (s.storage.bound.get? x) (c.bound.get? x) := fun x =>
      rel_imp (fun _ _ hreaches => reaches_arrive hreaches _) (h.bound x)
    exact hbound ▸ IdMap.rel_insert hold hnew
  pool := by
    show List.Forall₂ _ t.pool.entries c.pool.entries
    rw [hpool]
    exact h.pool.imp fun _ _ hef => ⟨hef.1, reaches_arrive hef.2 _⟩
  restored i hi := by
    obtain ⟨g, external, hreaches⟩ := h.restored i hi
    exact ⟨g, external, reaches_arrive hreaches _⟩
  returned := h.returned.imp fun _ _ ⟨state, hreaches⟩ => ⟨state, reaches_arrive hreaches _⟩

/-! ### Instances of the pool -/

theorem reuse [DecidableEq κ] {key : κ} {value : Instance η ς} {pool : FreeLists κ Nat}
    (h : c.Faithful s) (hfree : s.storage.bound.get? r = none)
    (hacquire : s.storage.pool.acquire? key = some (value, t.pool))
    (hi : c.pool.acquire? key = some (i, pool))
    (hbound : t.bound = s.storage.bound.insert r ⟨value, .temporal key⟩)
    (htransitions : t.transitions = s.storage.transitions) :
    ({ c with bound := c.bound.insert r i, pool } : Chronicle κ η ς).Faithful
      { s with storage := t } := by
  have hrel := FreeLists.acquire?_rel (fun _ _ hef => hef.1) h.pool key
  rw [hacquire, hi] at hrel
  obtain ⟨hreaches, hpool⟩ : c.Reaches i (value.handle, .temporal key) value.state ∧ _ := by
    cases hrel with
    | some hboth => exact ⟨hboth.1.2, hboth.2⟩
  refine ⟨h.records_eq htransitions, h.known, ?_, ?_, hpool, h.restored, h.returned⟩
  · refine List.Perm.trans ?_ h.places
    obtain ⟨before, after, hentries, rfl⟩ := FreeLists.entries_of_acquire? hi
    show ((c.bound.insert r i).entries.map Prod.snd ++ (before ++ after).map Prod.snd ++
      c.restored ++ c.returned).Perm c.places
    unfold Chronicle.places
    rw [hentries]
    apply List.Perm.append_right
    apply List.Perm.append_right
    apply ((ids_insert (h.bound_eq_none_iff.mpr hfree)).append_right _).trans
    rw [List.map_append, List.map_append, List.map_cons, ← List.append_assoc,
      ← List.append_assoc]
    exact List.perm_middle.symm
  · exact hbound ▸ IdMap.rel_insert h.bound hreaches

theorem construct [DecidableEq κ] {registration : Registration κ η ς} (h : c.Faithful s)
    (hconstructed : Storage.Constructed s.storage r t)
    (hregistration : s.storage.registrations.get? r = some registration)
    (hbound : t.bound.get? r = some binding) :
    (c.construct r binding.held.handle registration).Faithful { s with storage := t } := by
  obtain ⟨binding', hacquires, hinsert⟩ := hconstructed.bound
  obtain rfl : binding' = binding := by
    rw [hinsert, IdMap.get?_insert_self] at hbound
    exact Option.some.inj hbound
  cases hacquires with
  | imported hreg hpool =>
      rw [hregistration] at hreg
      cases hreg
      exact h.arrive hconstructed.free hinsert hpool hconstructed.transitions rfl
  | @reused key value hreg hacquire =>
      rw [hregistration] at hreg
      cases hreg
      have hrel := FreeLists.acquire?_rel (fun _ _ hef => hef.1) h.pool key
      rw [hacquire] at hrel
      cases hi : c.pool.acquire? key with
      | none =>
          rw [hi] at hrel
          cases hrel
      | some taken =>
          simp only [Chronicle.construct, hi]
          exact h.reuse hconstructed.free hacquire hi hinsert hconstructed.transitions
  | @made key handle hreg hnone hpool =>
      rw [hregistration] at hreg
      cases hreg
      have hrel := FreeLists.acquire?_rel (fun _ _ hef => hef.1) h.pool key
      rw [hnone] at hrel
      cases hi : c.pool.acquire? key with
      | none =>
          simp only [Chronicle.construct, hi]
          exact h.arrive hconstructed.free hinsert hpool hconstructed.transitions rfl
      | some taken =>
          rw [hi] at hrel
          cases hrel

/-! ### Transitions -/

/-- What is bound is bound to one resource only, and is not at another place. -/
theorem ne_of_places (h : c.Faithful s) (hi : c.bound.get? r = some i) :
    (∀ x, x ≠ r → c.bound.get? x ≠ some i) ∧ (∀ e ∈ c.pool.entries, e.2 ≠ i) ∧
      i ∉ c.restored ∧ i ∉ c.returned := by
  have hmem := IdMap.mem_entries.mpr hi
  have hthere : i ∈ c.bound.entries.map (·.2) := List.mem_map.mpr ⟨_, hmem, rfl⟩
  obtain ⟨hrestored, _, hreturned⟩ := List.nodup_append.mp h.nodup
  obtain ⟨hpool, _, hrestored⟩ := List.nodup_append.mp hrestored
  obtain ⟨hbound, _, hpool⟩ := List.nodup_append.mp hpool
  refine ⟨fun x hx hxi => ?_, fun e he heq => ?_, fun hmem' => ?_, fun hmem' => ?_⟩
  · exact hx (congrArg Prod.fst (List.inj_on_of_nodup_map hbound (IdMap.mem_entries.mpr hxi) hmem rfl))
  · exact hpool i hthere e.2 (List.mem_map.mpr ⟨e, he, rfl⟩) heq.symm
  · exact hrestored i (List.mem_append_left _ hthere) i hmem' rfl
  · exact hreturned i (List.mem_append_left _ (List.mem_append_left _ hthere)) i hmem' rfl

/-- What is recorded of one instance is not recorded of another. -/
theorem reaches_ascribe {t : Transition ς} (hreaches : c.Reaches j owner state)
    (hi : c.bound.get? t.resource = some i) (hne : j ≠ i) : (c.ascribe [t]).Reaches j owner state := by
  refine hreaches.congr (d := c.ascribe [t]) rfl ?_
  rw [recordsOf_ascribe hi, if_neg hne.symm, List.append_nil]

/-- **The instance of a resource changes its state**, and that is recorded. -/
theorem transition {change : Transition ς} (h : c.Faithful s)
    (hbound : s.storage.bound.get? change.resource = some binding)
    (hbefore : binding.held.state = change.before) (hne : change.before ≠ some change.after)
    (hinsert : t.bound = s.storage.bound.insert change.resource
      { binding with held.state := some change.after })
    (hpool : t.pool = s.storage.pool)
    (htransitions : t.transitions = s.storage.transitions.push change) :
    (c.ascribe [change]).Faithful { s with storage := t } := by
  obtain ⟨i, hi, hreaches⟩ := h.exists_bound hbound
  obtain ⟨hother, hpooled, hrestored, hreturned⟩ := h.ne_of_places hi
  refine ⟨?_, fun e he => ?_, h.places, fun x => ?_, ?_, fun j hj => ?_, ?_⟩
  · rw [records_ascribe hi, List.map_append, h.records]
    unfold Session.transitions
    rw [htransitions, Array.toList_push, ← List.append_assoc]
    rfl
  · rw [records_ascribe hi] at he
    rcases List.mem_append.mp he with he | he
    · exact h.known e he
    · rw [List.mem_singleton.mp he]
      show i < c.arrivals.length
      exact lt_of_reaches hreaches
  · show Option.Rel _ (t.bound.get? x) (c.bound.get? x)
    rw [hinsert, IdMap.get?_insert]
    by_cases hx : x = change.resource
    · rw [if_pos hx, hx, hi]
      refine .some ⟨hreaches.1, ?_⟩
      rw [recordsOf_ascribe hi, if_pos rfl]
      exact .snoc (hbefore ▸ hreaches.2) hne
    · rw [if_neg hx]
      have hrel := h.bound x
      have hxi := hother x hx
      generalize s.storage.bound.get? x = y at hrel ⊢
      generalize c.bound.get? x = z at hrel hxi ⊢
      cases hrel with
      | none => exact .none
      | some hj => exact .some (reaches_ascribe hj hi fun heq => hxi (congrArg some heq))
  · show List.Forall₂ _ t.pool.entries c.pool.entries
    rw [hpool]
    exact forall₂_imp (fun _ f hf hef => ⟨hef.1, reaches_ascribe hef.2 hi (hpooled f hf)⟩) h.pool
  · obtain ⟨g, external, hj'⟩ := h.restored j hj
    exact ⟨g, external, reaches_ascribe hj' hi fun heq => hrestored (heq ▸ hj)⟩
  · show List.Forall₂ _ s.returned c.returned
    apply forall₂_imp _ h.returned
    rintro _ j hj ⟨state, hj'⟩
    exact ⟨state, reaches_ascribe hj' hi fun heq => hreturned (heq ▸ hj)⟩

/-! ### Instances that are given up -/

/-- A resource gives up an instance of which nothing needs to be recorded any more. -/
theorem giveUp [DecidableEq ς] {held : Instance η ς} {origin : Origin κ ς} (h : c.Faithful s)
    (hbound : s.storage.bound.get? r = some ⟨held, origin⟩) (hi : c.bound.get? r = some i)
    (hgives : Storage.GivesUp s.storage r held t.pool origin [])
    (herase : t.bound = s.storage.bound.erase r)
    (htransitions : t.transitions = s.storage.transitions) :
    (c.destruct r i origin).Faithful { s with storage := t } := by
  obtain ⟨i', hi', hreaches⟩ := h.exists_bound hbound
  rw [hi] at hi'
  cases hi'
  have hrecords := h.records_eq htransitions
  have hrest : ∀ x, Option.Rel (fun binding i => c.Reaches i binding.owner binding.held.state)
      (t.bound.get? x) ((c.bound.erase r).get? x) := herase ▸ IdMap.rel_erase h.bound
  cases hgives with
  | @returned external hstate hpool =>
      refine ⟨hrecords, h.known, ?_, hrest, hpool ▸ h.pool, fun j hj => ?_, h.returned⟩
      · refine List.Perm.trans ?_ h.places
        show ((c.bound.erase r).entries.map Prod.snd ++ c.pool.entries.map Prod.snd ++
          (c.restored ++ [i]) ++ c.returned).Perm c.places
        unfold Chronicle.places
        apply List.Perm.append_right
        apply List.Perm.trans _ (((ids_erase hi).append_right _).append_right _).symm
        rw [← List.append_assoc]
        exact List.perm_append_singleton _ _
      · rcases List.mem_append.mp hj with hj | hj
        · exact h.restored j hj
        · rw [List.mem_singleton.mp hj]
          exact ⟨held.handle, external, hstate ▸ hreaches⟩
  | @released key hpool =>
      refine ⟨hrecords, h.known, ?_, hrest, ?_, h.restored, h.returned⟩
      · refine List.Perm.trans ?_ h.places
        show ((c.bound.erase r).entries.map Prod.snd ++ (i :: c.pool.entries.map Prod.snd) ++
          c.restored ++ c.returned).Perm c.places
        unfold Chronicle.places
        apply List.Perm.append_right
        apply List.Perm.append_right
        exact List.perm_middle.trans ((ids_erase hi).append_right _).symm
      · show List.Forall₂ _ t.pool.entries ((key, i) :: c.pool.entries)
        rw [hpool]
        exact .cons ⟨rfl, hreaches⟩ h.pool

theorem destruct [DecidableEq ς] (h : c.Faithful s) (hdestructed : Storage.Destructed s.storage r t)
    (hbound : s.storage.bound.get? r = some binding) (hi : c.bound.get? r = some i) :
    ((c.ascribe (news s.storage t)).destruct r i binding.origin).Faithful
      { s with storage := t } := by
  obtain ⟨binding', changes, hbound', hgives, htransitions⟩ := hdestructed.held
  rw [hbound] at hbound'
  cases hbound'
  rw [news_of_append htransitions]
  have herase := hdestructed.bound
  obtain ⟨held, origin⟩ := binding
  cases hgives with
  | returned hstate hpool =>
      rw [ascribe_nil]
      rw [List.append_nil] at htransitions
      exact h.giveUp hbound hi (.returned hstate hpool) herase (Array.ext' htransitions)
  | released hpool =>
      rw [ascribe_nil]
      rw [List.append_nil] at htransitions
      exact h.giveUp hbound hi (.released hpool) herase (Array.ext' htransitions)
  | @restored external hne hpool =>
      -- First the instance changes its state, then it is given up.
      let change : Transition ς := ⟨r, none, held.state, external⟩
      have hchanged : (c.ascribe [change]).Faithful
          { s with storage := { s.storage with
            bound := s.storage.bound.insert r ⟨{ held with state := some external }, _⟩
            transitions := s.storage.transitions.push change } } :=
        h.transition hbound rfl hne rfl rfl rfl
      have hthere : (s.storage.bound.insert r
          (⟨{ held with state := some external }, .imported external⟩ : Binding κ η ς)).get? r =
            some ⟨{ held with state := some external }, .imported external⟩ :=
        IdMap.get?_insert_self
      refine hchanged.giveUp hthere hi (.returned rfl hpool) ?_ (Array.ext' ?_)
      · rw [herase]
        exact IdMap.erase_insert.symm
      · rw [htransitions, Array.toList_push]

theorem request [DecidableEq ς] {frame : Frame} {p : PassId} (h : c.Faithful s) :
    Ends (Storage.request frame p) s.storage
      (fun _ t => (c.ascribe (news s.storage t)).Faithful { s with storage := t })
      fun _ t => (c.ascribe (news s.storage t)).Faithful { s with storage := t } := by
  -- What was recorded so far is ascribed to the instances, which stay where they are.
  let I : Storage κ η ς τ → Prop := fun t => ∃ ts,
    t.transitions.toList = s.storage.transitions.toList ++ ts ∧
      (c.ascribe ts).Faithful { s with storage := t }
  have hstart : I s.storage := ⟨[], (List.append_nil _).symm, ascribe_nil ▸ h⟩
  have hend : ∀ t, I t → (c.ascribe (news s.storage t)).Faithful { s with storage := t } := by
    rintro t ⟨ts, htransitions, hfaithful⟩
    rw [news_of_append htransitions]
    exact hfaithful
  have hprepare : ∀ r t, I t → Ends (Storage.prepare p r) t (fun _ => I) fun _ => I := by
    rintro r t ⟨ts, htransitions, hfaithful⟩
    apply Storage.instances_prepare.mono
    · intro _ u hu
      cases hu with
      | there => exact ⟨ts, htransitions, hfaithful⟩
      | @brought _ binding state hbound _ hne hinsert hpool _ hpush =>
          refine ⟨ts ++ [⟨r, some p, binding.held.state, state⟩], ?_, ?_⟩
          · rw [hpush, Array.toList_push, htransitions, List.append_assoc]
          · rw [ascribe_append]
            exact hfaithful.transition hbound rfl hne hinsert hpool hpush
    · rintro _ _ rfl
      exact ⟨ts, htransitions, hfaithful⟩
  unfold Storage.request
  cases frame.pass? p with
  | none => exact hend _ hstart
  | some pass =>
      have hprepares : Ends (pass.resources.toList.mapM fun r => return (r, ← Storage.prepare p r))
          s.storage (fun _ => I) fun _ => I := by
        apply Ends.mapM (I := fun _ => I) _ hstart
        intro _ r _ t _ ht
        apply Ends.bind
        exact (hprepare r t ht).mono (fun _ _ hu => Ends.pure hu) fun _ _ hu => hu
      apply Ends.bind
      exact hprepares.mono (fun _ t ht => Ends.pure (hend t ht)) fun _ t ht => hend t ht

/-! ### Calls -/

theorem follow_same [DecidableEq κ] {frame : Frame} (hsame : Storage.SameInstances s.storage t) :
    c.follow s.storage t (.construct frame r) = c := by
  simp only [Chronicle.follow, hsame.bound]
  cases s.storage.bound.get? r <;> rfl

variable [DecidableEq κ] [DecidableEq ς]

/-- **Each call keeps the chronicle faithful**, also if it is refused. -/
theorem follow (h : c.Faithful s) (allocate : κ → EStateM StorageError τ η)
    (call : StorageCall κ η ς) :
    (c.follow s.storage (s.perform allocate call).storage call).Faithful
      (s.perform allocate call) := by
  have hacts : ∀ {α : Type} {act : EStateM StorageError (Storage κ η ς τ) α},
      Ends act s.storage
        (fun _ t => (c.follow s.storage t call).Faithful { s with storage := t })
        (fun _ t => (c.follow s.storage t call).Faithful { s with storage := t }) →
      (c.follow s.storage (s.act act).storage call).Faithful (s.act act) := by
    intro α act hends
    obtain ⟨t, heq, ht⟩ := Session.act_ends hends
    rw [heq]
    exact ht
  cases call with
  | registerImported r handle external => exact h.same ⟨rfl, rfl, rfl⟩
  | registerTemporal r key => exact h.same ⟨rfl, rfl, rfl⟩
  | registerPassState p r state => exact h.same ⟨rfl, rfl, rfl⟩
  | construct frame r =>
      apply hacts
      apply Storage.instances_construct.mono
      · intro _ t ht
        obtain ⟨binding, hacquires, hinsert⟩ := ht.bound
        have hbound : t.bound.get? r = some binding := by rw [hinsert, IdMap.get?_insert_self]
        obtain ⟨registration, hregistration⟩ : ∃ registration,
            s.storage.registrations.get? r = some registration := by
          cases hacquires with
          | imported hreg => exact ⟨_, hreg⟩
          | reused hreg => exact ⟨_, hreg⟩
          | made hreg => exact ⟨_, hreg⟩
        simp only [Chronicle.follow, ht.free, hbound, hregistration]
        exact h.construct ht hregistration hbound
      · intro _ t ht
        rw [follow_same ht]
        exact h.same ht
  | destruct frame r =>
      apply hacts
      apply Storage.instances_destruct.mono
      · intro _ t ht
        obtain ⟨binding, _, hbound, _⟩ := ht.held
        obtain ⟨i, hi, _⟩ := h.exists_bound hbound
        simp only [Chronicle.follow, hbound, hi]
        exact h.destruct ht hbound hi
      · rintro _ _ ⟨rfl, hnone⟩
        simp only [Chronicle.follow, hnone]
        exact h
  | move frame m =>
      apply hacts
      apply Storage.instances_move.mono
      · intro _ t ht
        obtain ⟨binding, hbound, _⟩ := ht.bound
        obtain ⟨i, hi, _⟩ := h.exists_bound hbound
        simp only [Chronicle.follow, h.bound_eq_none_iff.mpr ht.free, hi]
        exact h.move ht hi
      · rintro _ _ ⟨rfl, hdst | hsrc⟩
        · obtain ⟨binding, hbound⟩ := Option.ne_none_iff_exists'.mp hdst
          obtain ⟨i, hi, _⟩ := h.exists_bound hbound
          simp only [Chronicle.follow, hi]
          exact h
        · have hnone := h.bound_eq_none_iff.mpr hsrc
          simp only [Chronicle.follow, hnone]
          cases c.bound.get? m.dst <;> exact h
  | request frame p => exact hacts h.request
  | takeTransitions => exact h.takeTransitions
  | releasePool => exact h.releasePool

theorem followAll (h : c.Faithful s) (allocate : κ → EStateM StorageError τ η)
    (calls : List (StorageCall κ η ς)) :
    (Chronicle.followAll allocate s c calls).Faithful (s.performAll allocate calls) := by
  induction calls generalizing s c with
  | nil => exact h
  | cons call calls ih => exact ih (h.follow allocate call)

end Faithful

end Chronicle

/-- **What is recorded is what happened.** After any calls, whichever of them were refused, each
recorded transition is one of the instance that its resource had then; the transitions of an
instance lead from the state that it came in to the state that it is in, be it bound, waiting in the
pool or returned; and a request that succeeds leaves each resource of the pass in the state that was
registered for the two last, if one was. -/
theorem Session.transitions_faithful [DecidableEq κ] [DecidableEq ς]
    (allocate : κ → EStateM StorageError τ η) (supply : τ) (calls : List (StorageCall κ η ς)) :
    let s := (Session.start supply).performAll allocate calls
    (Chronicle.followAll allocate (Session.start supply) .empty calls).Faithful s ∧
      ∀ frame p handles t, Storage.request frame p s.storage = .ok handles t →
        ∀ r state, frame.Touches p r → lastPassState? p r calls = some state →
          t.state? r = some state := by
  refine ⟨(Chronicle.Faithful.start supply).followAll allocate calls, ?_⟩
  intro frame p handles t hok r state htouch hlast
  obtain ⟨hsame, hready⟩ := Storage.request_ready.ok hok
  apply hready r htouch
  rw [Storage.requiredState?_congr hsame, Session.requiredState?_performAll, hlast]

namespace Session

/-- The draft is to be blank when it is drawn, then to be primed; it has storage by then. -/
def draftCalls : List (StorageCall String Int String) :=
  [.registerTemporal ⟨0⟩ "colour", .registerPassState ⟨0⟩ ⟨0⟩ "blank",
    .registerPassState ⟨0⟩ ⟨0⟩ "primed", .construct .relay ⟨0⟩]

/-- What is drawn on is primed. -/
theorem transitions_faithful_relay : ∃ handles t,
    Storage.request .relay ⟨0⟩ ((Session.start ⟨[], none, 0⟩).performAll Supply.allocate
      draftCalls).storage = .ok handles t ∧
    t.state? ⟨0⟩ = some "primed" ∧ t.transitions = #[⟨⟨0⟩, some ⟨0⟩, none, "primed"⟩] := by
  have htouch : Frame.relay.Touches ⟨0⟩ ⟨0⟩ := ⟨_, rfl, by decide⟩
  have hsound := (transitions_faithful Supply.allocate ⟨[], none, 0⟩ draftCalls).2
  exact ⟨_, _, rfl, hsound .relay ⟨0⟩ _ _ rfl ⟨0⟩ "primed" htouch rfl, rfl⟩

end Session

end FramePlan
