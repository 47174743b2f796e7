import Mathlib.Data.List.Basic
import Mathlib.Data.List.Perm.Basic

/-!
# Swaps of unrelated neighbours

Two lists of the same entries, in both of which each entry stands before those it is related to,
differ only by swaps of neighbours that are not related. What such a swap does not change is the
same for both lists.

* `Swaps.of_perm` — the swaps that lead from one list to the other.
* `Swaps.foldl_eq` — a fold does not see them if unrelated entries commute.
-/

namespace FramePlan

/-- Swaps of neighbours that `R` does not relate lead from one list to the other. -/
inductive Swaps {α : Type} (R : α → α → Prop) : List α → List α → Prop
  | refl (xs : List α) : Swaps R xs xs
  | swap {x y : α} (zs : List α) : ¬ R x y → ¬ R y x → Swaps R (x :: y :: zs) (y :: x :: zs)
  | cons (x : α) {xs ys : List α} : Swaps R xs ys → Swaps R (x :: xs) (x :: ys)
  | trans {xs ys zs : List α} : Swaps R xs ys → Swaps R ys zs → Swaps R xs zs

namespace Swaps

variable {α : Type} {R : α → α → Prop} {x : α} {xs ys : List α}

theorem perm (h : Swaps R xs ys) : xs.Perm ys := by
  induction h with
  | refl xs => exact .refl xs
  | swap zs _ _ => exact .swap _ _ zs
  | cons x _ ih => exact ih.cons x
  | trans _ _ ih ih' => exact ih.trans ih'

/-- The head of a list moves back behind entries that it is not related to. -/
theorem past {pre : List α} (post : List α) (h : ∀ y ∈ pre, ¬ R x y ∧ ¬ R y x) :
    Swaps R (x :: (pre ++ post)) (pre ++ x :: post) := by
  induction pre with
  | nil => exact .refl _
  | cons y pre ih =>
      obtain ⟨hxy, hyx⟩ := h y List.mem_cons_self
      have hrest := ih fun z hz => h z (List.mem_cons_of_mem y hz)
      exact (Swaps.swap (pre ++ post) hxy hyx).trans (hrest.cons y)

/-- **Lists of the same entries, in both of which no entry is related to an earlier one, differ by
swaps of unrelated neighbours.** -/
theorem of_perm (hperm : xs.Perm ys) (hxs : xs.Pairwise fun a b => ¬ R b a)
    (hys : ys.Pairwise fun a b => ¬ R b a) : Swaps R xs ys := by
  induction xs generalizing ys with
  | nil =>
      rw [hperm.nil_eq]
      exact .refl _
  | cons x xs ih =>
      obtain ⟨pre, post, rfl, hfirst⟩ :=
        List.eq_append_cons_of_mem (hperm.mem_iff.mp List.mem_cons_self)
      have hrest : xs.Perm (pre ++ post) :=
        List.Perm.cons_inv (hperm.trans List.perm_middle)
      have hhead := List.pairwise_cons.mp hxs
      have hunrelated : ∀ y ∈ pre, ¬ R x y ∧ ¬ R y x := by
        intro y hy
        refine ⟨?_, hhead.1 y (hrest.mem_iff.mpr (List.mem_append_left _ hy))⟩
        exact (List.pairwise_append.mp hys).2.2 y hy x List.mem_cons_self
      have hpost : (pre ++ post).Pairwise fun a b => ¬ R b a :=
        hys.sublist ((List.sublist_cons_self x post).append_left pre)
      exact (Swaps.cons x (ih hrest hhead.2 hpost)).trans (past post hunrelated)

/-- What comes of unrelated entries in either order comes of the whole lists alike. -/
theorem foldl_eq {β : Type} {f : β → α → β} {P : α → Prop} (h : Swaps R xs ys)
    (hcomm : ∀ b x y, P x → P y → ¬ R x y → ¬ R y x → f (f b x) y = f (f b y) x)
    (hxs : ∀ x ∈ xs, P x) (b : β) : xs.foldl f b = ys.foldl f b := by
  induction h generalizing b with
  | refl xs => rfl
  | swap zs hxy hyx =>
      have hswap := hcomm b _ _ (hxs _ (by simp)) (hxs _ (by simp)) hxy hyx
      rw [List.foldl_cons, List.foldl_cons, hswap, List.foldl_cons, List.foldl_cons]
  | cons x _ ih => exact ih (fun y hy => hxs y (List.mem_cons_of_mem x hy)) (f b x)
  | trans h _ ih ih' =>
      exact (ih hxs b).trans (ih' (fun y hy => hxs y (h.perm.mem_iff.mpr hy)) b)

end Swaps

end FramePlan
