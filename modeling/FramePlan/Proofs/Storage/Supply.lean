import FramePlan.Proofs.Storage.Account
import FramePlan.Storage.Supply
import Mathlib.Data.List.Nodup

/-!
# Numbered handles

An allocator that numbers its handles never makes one twice, and without refused keys or a limit it
never fails.

* `Supply.distinct_of_issues`, `Supply.neverFails`.
-/

namespace FramePlan

namespace Supply

theorem allocate_ok {key : String} {supply next : Supply} {h : Int}
    (hok : allocate key supply = .ok h next) :
    h = supply.made + 1 ∧ next = { supply with made := supply.made + 1 } := by
  unfold allocate at hok
  split at hok
  · cases hok
  · split at hok
    · cases hok
    · cases hok
      exact ⟨rfl, rfl⟩

/-- All handles that are made are different, and new. -/
theorem distinct_of_issues {first supply : Supply} {hs : List Int}
    (hissues : Issues allocate first hs supply) :
    hs.Nodup ∧ ∀ h ∈ hs, (first.made : Int) < h ∧ h ≤ supply.made := by
  suffices hs.Nodup ∧ (∀ h ∈ hs, (first.made : Int) < h ∧ h ≤ supply.made) ∧
      first.made ≤ supply.made from ⟨this.1, this.2.1⟩
  induction hissues with
  | nil => exact ⟨List.nodup_nil, fun h hh => absurd hh List.not_mem_nil, Nat.le_refl _⟩
  | @made hs supply next key h _ hok ih =>
      obtain ⟨hnodup, hbounds, hle⟩ := ih
      obtain ⟨rfl, rfl⟩ := allocate_ok hok
      refine ⟨?_, fun h hh => ?_, by simp only; omega⟩
      · apply List.nodup_append.mpr
        refine ⟨hnodup, List.nodup_singleton _, fun a ha b hb hab => ?_⟩
        have hbound := (hbounds a ha).2
        rw [List.mem_singleton] at hb
        omega
      · simp only
        rcases List.mem_append.mp hh with hh | hh
        · have := hbounds h hh
          omega
        · rw [List.mem_singleton] at hh
          omega

theorem neverFails {first : Supply} (hrefused : first.refused = []) (hlimit : first.limit = none) :
    NeverFails allocate first := by
  intro hs supply key hissues
  have hsame : supply.refused = [] ∧ supply.limit = none := by
    induction hissues with
    | nil => exact ⟨hrefused, hlimit⟩
    | made _ hok ih =>
        obtain ⟨_, rfl⟩ := allocate_ok hok
        exact ih
  refine ⟨supply.made + 1, { supply with made := supply.made + 1 }, ?_⟩
  unfold allocate
  rw [hsame.1, hsame.2]
  rfl

end Supply

/-- Storage for three resources: a pooled one, one that is owned elsewhere under handle zero, and
one that gets its storage from another. -/
def Storage.relay : Storage String Int String Supply :=
  ((Storage.empty ⟨[], none, 0⟩).registerTemporal ⟨0⟩ "colour").registerImported ⟨1⟩ 0 "shown"

end FramePlan
