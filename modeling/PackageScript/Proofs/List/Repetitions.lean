import Mathlib.Data.List.Induction
import Mathlib.Data.List.Nodup
/-! Lists in which the first of equal elements is kept. -/
namespace PackageScript

variable {α : Type}

theorem eraseDupsBy_sublist (r : α → α → Bool) (l : List α) : (l.eraseDupsBy r).Sublist l := by
  match l with
  | [] => exact List.Sublist.refl []
  | a :: rest =>
    rw [List.eraseDupsBy_cons]
    exact ((eraseDupsBy_sublist r _).trans List.filter_sublist).cons_cons a
termination_by l.length
decreasing_by exact Nat.lt_succ_of_le (List.length_filter_le _ _)

/-- Nothing that is kept repeats what is kept before it. -/
theorem pairwise_eraseDupsBy (r : α → α → Bool) (l : List α) :
    (l.eraseDupsBy r).Pairwise fun a b => r b a = false := by
  match l with
  | [] => exact .nil
  | a :: rest =>
    rw [List.eraseDupsBy_cons]
    refine .cons (fun b hb => ?_) (pairwise_eraseDupsBy r _)
    exact of_decide_eq_true (List.mem_filter.mp ((eraseDupsBy_sublist r _).mem hb)).2
termination_by l.length
decreasing_by exact Nat.lt_succ_of_le (List.length_filter_le _ _)

section Equality

variable [DecidableEq α]

theorem nodup_eraseDups (l : List α) : l.eraseDups.Nodup :=
  (pairwise_eraseDupsBy _ l).imp fun h => (bne_iff_ne.mp (by simpa using h)).symm

/-- An element at the end is kept if it is new. -/
theorem eraseDups_concat (l : List α) (a : α) :
    (l ++ [a]).eraseDups = if a ∈ l then l.eraseDups else l.eraseDups ++ [a] := by
  rw [List.eraseDups_append]
  split
  · rename_i h
    simp [List.removeAll, h]
  · rename_i h
    simp [List.removeAll, h, List.eraseDups_cons]

/-- What is kept comes in the order in which it is first met. -/
theorem pairwise_idxOf_eraseDups (l : List α) :
    l.eraseDups.Pairwise fun a b => l.idxOf a < l.idxOf b := by
  induction l using List.reverseRecOn with
  | nil => exact .nil
  | append_singleton l a ih =>
    have hplace : ∀ b ∈ l.eraseDups, (l ++ [a]).idxOf b = l.idxOf b :=
      fun b hb => List.idxOf_append_of_mem (List.mem_eraseDups.mp hb)
    have hkept : l.eraseDups.Pairwise fun b c => (l ++ [a]).idxOf b < (l ++ [a]).idxOf c :=
      ih.imp_of_mem fun hb hc h => by rwa [hplace _ hb, hplace _ hc]
    rw [eraseDups_concat]
    split
    · exact hkept
    · rename_i hnew
      refine List.pairwise_append.mpr ⟨hkept, List.pairwise_singleton _ _, fun b hb c hc => ?_⟩
      have hlast : (l ++ [a]).idxOf a = l.length := by
        rw [List.idxOf_append_of_notMem hnew, List.idxOf_cons_self, Nat.add_zero]
      rw [List.mem_singleton.mp hc, hplace b hb, hlast]
      exact List.idxOf_lt_length_of_mem (List.mem_eraseDups.mp hb)

end Equality

end PackageScript
