import Mathlib.Algebra.BigOperators.Group.Finset.Piecewise
import Mathlib.Algebra.BigOperators.Group.List.Basic
import Mathlib.Algebra.Order.Group.Multiset
import Mathlib.Tactic.Abel
import Mathlib.Tactic.Common

/-!
Adding up what is kept in several places.

A total over the cells of an array or over the threads of a pool changes, when
one cell or thread changes, by what that one gains or loses. The equations are
stated with the old part added on one side and the new part on the other, so
that they hold where nothing can be subtracted, such as for multisets.
-/

namespace SmpNostd.Accounting

variable {M : Type*} [AddCommMonoid M]

/-- Replacing the `i`-th cell of an array. -/
theorem sum_map_set {β : Type*} (f : β → M) {l : List β} {i : ℕ} {b : β}
    (h : l[i]? = some b) (b' : β) :
    ((l.set i b').map f).sum + f b = (l.map f).sum + f b' := by
  induction l generalizing i with
  | nil => simp at h
  | cons x l ih =>
      cases i with
      | zero =>
          obtain rfl : x = b := by simpa using h
          simp only [List.set_cons_zero, List.map_cons, List.sum_cons]
          abel
      | succ i =>
          simp only [List.set_cons_succ, List.map_cons, List.sum_cons, add_assoc]
          rw [ih (by simpa using h)]

/-- One thread of a pool goes from `c t` to `x`. -/
theorem sum_update {T γ : Type*} [Fintype T] [DecidableEq T] (f : γ → M) (c : T → γ)
    (t : T) (x : γ) :
    (∑ u, f (Function.update c t x u)) + f (c t) = (∑ u, f (c u)) + f x := by
  have hcomp : (fun u => f (Function.update c t x u)) =
      Function.update (fun u => f (c u)) t (f x) := by
    funext u
    by_cases hu : u = t
    · subst hu
      simp
    · simp [hu]
  rw [hcomp, Finset.sum_update_of_mem (Finset.mem_univ t),
    ← Finset.sum_sdiff (Finset.subset_univ {t}), Finset.sum_singleton]
  abel

end SmpNostd.Accounting
