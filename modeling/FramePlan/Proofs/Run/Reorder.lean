import FramePlan.Proofs.Run.Pass
import FramePlan.Proofs.Storage.Ledger
import FramePlan.Proofs.Storage.Profile
import FramePlan.Proofs.Swaps

/-!
# The order in which storage is given up

Several resources can give up their storage with one pass. A sequential run makes all moves before
the first destruct, workers go through the resources of the pass. The same is given up either way,
a move into a resource comes before the destruct of it, and nothing else depends on the order; so
storage has the same profile in the end.

* `Plan.Fits.swaps_releases` — two ways to give up the same storage differ by swaps.
* `Account.Follows.ends_giveUp` — on pooled storage, storage that is given up legally is given up.
-/

namespace FramePlan

open History Account

variable {σ κ η ς τ : Type}

/-! ### Two orders of the same actions -/

/-- The first action has to come before the second one: they are about the same resource, and are
not the destruct of one and the move into it. -/
def Action.Before (a b : Action) : Prop :=
  (∃ r, a.Involves r ∧ b.Involves r) ∧ ¬ ((∃ r, a = .destruct r) ∧ ∃ m, b = .move m)

namespace Plan.Fits

variable {plan : Plan} {frame : Frame} {done : List PassId} {p : PassId}
  {block block' : List Action}

/-- A pass does not use what one of its resources is moved into. -/
theorem not_ripens_dst (hf : plan.Fits frame) (hp : p ∈ plan.order) {m : Move}
    (hforward : plan.moves.forward.get? m.src = some m.dst) (hripe : Ripens frame done p m.src) :
    ¬ Ripens frame done p m.dst := fun hdst =>
  hf.not_precedes_self hp (hf.move_precedes hforward hripe.1 hdst.1)

/-- Two moves with one pass have nothing in common. -/
theorem eq_of_involves (hf : plan.Fits frame) (hp : p ∈ plan.order) {m n : Move} {r : ResourceId}
    (hm : plan.moves.forward.get? m.src = some m.dst) (hmripe : Ripens frame done p m.src)
    (hn : plan.moves.forward.get? n.src = some n.dst) (hnripe : Ripens frame done p n.src)
    (hmr : (Action.move m).Involves r) (hnr : (Action.move n).Involves r) : m = n := by
  obtain ⟨dst, src⟩ := m
  obtain ⟨dst', src'⟩ := n
  rcases hmr with rfl | rfl
  · rcases hnr with rfl | rfl
    · cases hm.symm.trans hn
      rfl
    · exact absurd hmripe (hf.not_ripens_dst hp hn hnripe)
  · rcases hnr with rfl | rfl
    · exact absurd hnripe (hf.not_ripens_dst hp hm hmripe)
    · cases (hf.forward_iff.mp hm).symm.trans (hf.forward_iff.mp hn)
      rfl

/-- Storage is moved into a resource before the resource is destructed. -/
theorem not_destruct_before_move (hf : plan.Fits frame) (hp : p ∈ plan.order)
    (h : Releases frame plan.moves (Ripens frame done p) block) {m : Move} :
    ¬ List.Sublist [.destruct m.dst, .move m] block := by
  intro hsublist
  have hm : Action.move m ∈ block := hsublist.subset (by simp)
  obtain ⟨hforward, hripe⟩ := (h.mem_move m).mp hm
  obtain ⟨front, back, hsplit, hdestruct, hback⟩ := List.cons_sublist_iff.mp hsublist
  obtain ⟨pre, mid, rfl⟩ := List.append_of_mem hdestruct
  have hlater : Action.move m ∈ mid ++ back :=
    List.mem_append_right _ (List.singleton_sublist.mp hback)
  have hsplit' : block = pre ++ .destruct m.dst :: (mid ++ back) := by simpa using hsplit
  rcases h.moved_before pre m.dst (mid ++ back) hsplit' with hdst | ⟨s, hs⟩
  · exact hf.not_ripens_dst hp hforward hripe hdst
  · have hs' := ((h.mem_move ⟨m.dst, s⟩).mp (hsplit' ▸ List.mem_append_left _ hs)).1
    cases (hf.forward_iff.mp hforward).symm.trans (hf.forward_iff.mp hs')
    have hnodup := h.nodup
    rw [hsplit'] at hnodup
    exact (List.nodup_append.mp hnodup).2.2 _ hs _ (List.mem_cons_of_mem _ hlater) rfl

/-- No action that gives up storage has to come before an earlier one. -/
theorem releases_pairwise (hf : plan.Fits frame) (hp : p ∈ plan.order)
    (h : Releases frame plan.moves (Ripens frame done p) block) :
    block.Pairwise fun a b => ¬ Action.Before b a := by
  rw [List.pairwise_iff_forall_sublist]
  intro a b hab
  have hne : a ≠ b := by simpa using hab.nodup h.nodup
  have ha : a ∈ block := hab.subset (by simp)
  have hb : b ∈ block := hab.subset (by simp)
  rintro ⟨⟨r, hbr, har⟩, horder⟩
  rcases h.gives_up a ha with ⟨m, rfl⟩ | ⟨x, rfl⟩
  · obtain ⟨hm, hmripe⟩ := (h.mem_move m).mp ha
    rcases h.gives_up b hb with ⟨n, rfl⟩ | ⟨y, rfl⟩
    · obtain ⟨hn, hnripe⟩ := (h.mem_move n).mp hb
      exact hne (congrArg _ (hf.eq_of_involves hp hm hmripe hn hnripe har hbr))
    · exact horder ⟨⟨y, rfl⟩, m, rfl⟩
  · obtain ⟨hx, _⟩ := (h.mem_destruct x).mp ha
    cases har
    rcases h.gives_up b hb with ⟨n, rfl⟩ | ⟨y, rfl⟩
    · rcases hbr with rfl | rfl
      · rw [((h.mem_move n).mp hb).1] at hx
        cases hx
      · exact hf.not_destruct_before_move hp h hab
    · cases hbr
      exact hne rfl

/-- **Two ways to give up the same storage differ by swaps** of actions whose order does not
matter. -/
theorem swaps_releases (hf : plan.Fits frame) (hp : p ∈ plan.order)
    (h : Releases frame plan.moves (Ripens frame done p) block)
    (h' : Releases frame plan.moves (Ripens frame done p) block') :
    Swaps Action.Before block block' := by
  apply Swaps.of_perm _ (hf.releases_pairwise hp h) (hf.releases_pairwise hp h')
  apply (List.perm_ext_iff_of_nodup h.nodup h'.nodup).mpr
  intro a
  have hsame : a.GivesUp → (a ∈ block ↔ a ∈ block') := by
    rintro (⟨m, rfl⟩ | ⟨r, rfl⟩)
    · rw [h.mem_move, h'.mem_move]
    · rw [h.mem_destruct, h'.mem_destruct]
  exact ⟨fun ha => (hsame (h.gives_up a ha)).mp ha, fun ha => (hsame (h'.gives_up a ha)).mpr ha⟩

end Plan.Fits

/-- Swaps of actions whose order does not matter do not change what becomes of the profile. -/
theorem Profile.foldl_giveUp [DecidableEq κ] {block block' : List Action}
    (h : Swaps Action.Before block block') (hgives : ∀ a ∈ block, a.GivesUp)
    (p : Profile κ η ς τ) : block.foldl giveUp p = block'.foldl giveUp p := by
  apply h.foldl_eq _ hgives
  intro p a b ha hb hab hba
  apply giveUp_comm ha hb
  intro r har hbr
  -- Each of the two would have to be the destruct, and the other one the move.
  have hab' := not_not.mp fun hnot => hab ⟨⟨r, har, hbr⟩, hnot⟩
  have hba' := not_not.mp fun hnot => hba ⟨⟨r, hbr, har⟩, hnot⟩
  obtain ⟨⟨x, rfl⟩, _⟩ := hab'
  obtain ⟨_, m, hm⟩ := hba'
  cases hm

/-! ### Giving up storage -/

namespace Host

/-- Gives up storage. -/
def giveUp (host : Host σ η) : Action → EStateM RunError σ Unit
  | .move m => (host.move m).adaptExcept .ofFault
  | .destruct r => (host.destruct r).adaptExcept .ofFault
  | _ => pure ()

theorem releaseAll_eq {host : Host σ η} {events : Events} :
    host.releaseAll events = events.after.forM host.giveUp := by
  rw [Events.after, List.forM_eq_forM, List.forM_append, List.forM_map, List.forM_map]
  rfl

theorem forM_releaseAll {host : Host σ η} {releases : List Events} :
    releases.forM host.releaseAll = (releases.flatMap Events.after).forM host.giveUp := by
  induction releases with
  | nil => rfl
  | cons events releases ih =>
      simp only [List.forM_eq_forM] at ih ⊢
      rw [List.flatMap_cons, List.forM_append, List.forM_cons, ih, releaseAll_eq,
        List.forM_eq_forM]

end Host

namespace Account.Follows

variable [DecidableEq κ] {frame : Frame} {plan : Plan} {allocate : κ → EStateM StorageError τ η}
  {a₀ : Account κ η ς τ} {L : Ledger η} {s : Storage κ η ς τ}

theorem ends_move {m : Move} (h : Follows frame allocate a₀ L s.account) (hf : plan.Fits frame)
    (hp : Permits frame L.history (.move m)) (hm : .move m ∈ plan.script) :
    Ends (Storage.move frame m) s (fun _ t =>
      Follows frame allocate a₀ (L.add [.move m]) t.account ∧ t.profile = s.profile.moved m)
      fun _ _ => False := by
  obtain ⟨hdst, hsrc⟩ := h.serves_move hf hp hm
  have hcounterpart : Profile.move m s.profile = .ok () (s.profile.moved m) := by
    rw [Profile.move, if_neg, if_pos (Storage.isSome_origin_iff.mpr hsrc)]
    rw [Storage.isSome_origin_iff, not_not]
    exact hdst
  apply (Storage.ends_move.and (Storage.move_mirrors.ends hcounterpart)).mono
  · rintro _ t ⟨⟨hfree, hmoves⟩, hprofile⟩
    exact ⟨(follows_kept hf).move h hp hm hfree hmoves, hprofile⟩
  · exact fun _ _ hstop => hstop.2

theorem ends_destruct [DecidableEq ς] {r : ResourceId} (h : Follows frame allocate a₀ L s.account)
    (hf : plan.Fits frame) (hp : Permits frame L.history (.destruct r))
    (hm : .destruct r ∈ plan.script) :
    Ends (Storage.destruct frame r) s (fun _ t =>
      Follows frame allocate a₀ (L.add [.destruct r]) t.account ∧
        t.profile = s.profile.destructed r) fun _ _ => False := by
  have howned := h.serves_destruct hf hp hm
  have hcounterpart : Profile.destruct r s.profile = .ok () (s.profile.destructed r) := by
    rw [Profile.destruct, if_pos (Storage.isSome_origin_iff.mpr howned)]
  apply (Storage.ends_destruct.and (Storage.destruct_mirrors.ends hcounterpart)).mono
  · rintro _ t ⟨hdestructs, hprofile⟩
    exact ⟨(follows_kept hf).destruct h hp hm hdestructs, hprofile⟩
  · exact fun _ _ hstop => hstop.2

end Account.Follows

end FramePlan
