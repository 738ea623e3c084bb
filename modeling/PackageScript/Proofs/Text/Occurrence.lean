import Mathlib.Data.List.Infix
import PackageScript.Text.Blank
/-! Texts that occur in other texts. -/
namespace PackageScript.Text

/-- Whether a text occurs in another one. -/
def Contains (whole part : String) : Prop :=
  part.toList <:+: whole.toList

section Runs

variable {needle before after cs : List Char} {c : Char}

private theorem occursIn_iff : occursIn needle cs = true ↔ needle <:+: cs := by
  induction cs with
  | nil => rw [occursIn, List.isEmpty_iff, List.infix_nil]
  | cons c rest ih => rw [occursIn, Bool.or_eq_true, List.isPrefixOf_iff_prefix, ih, List.infix_cons_iff]

private theorem eq_nil_of_prefix_cons (hc : c ∉ needle) (h : needle <+: c :: after) :
    needle = [] := by
  rcases List.prefix_cons_iff.mp h with hnil | ⟨rest, rfl, -⟩
  · exact hnil
  · exact absurd List.mem_cons_self hc

/-- A run without some character lies on one side of it. -/
theorem infix_append_cons_iff (hc : c ∉ needle) :
    needle <:+: before ++ c :: after ↔ needle <:+: before ∨ needle <:+: after := by
  constructor
  · intro h
    rcases List.infix_append_iff.mp h with hbefore | hafter | ⟨front, back, rfl, hfront, hback⟩
    · exact Or.inl hbefore
    · rcases List.infix_cons_iff.mp hafter with hlead | hafter
      · exact Or.inl (eq_nil_of_prefix_cons hc hlead ▸ List.nil_infix)
      · exact Or.inr hafter
    · have hback := eq_nil_of_prefix_cons (fun hmem => hc (List.mem_append_right front hmem)) hback
      rw [hback, List.append_nil]
      exact Or.inl hfront.isInfix
  · rintro (h | h)
    · exact h.trans (List.prefix_append before (c :: after)).isInfix
    · exact h.trans ((List.suffix_cons c after).trans (List.suffix_append before _)).isInfix

end Runs

section Contains

variable {s t part : String}

theorem contains_iff : Contains s part ↔ occursIn part.toList s.toList = true :=
  occursIn_iff.symm

instance (s part : String) : Decidable (Contains s part) :=
  decidable_of_iff _ contains_iff.symm

@[simp] theorem contains_self (s : String) : Contains s s :=
  List.infix_refl s.toList

theorem Contains.append_left (h : Contains s part) (t : String) : Contains (s ++ t) part := by
  rw [Contains, String.toList_append]
  exact h.trans (List.prefix_append _ _).isInfix

theorem Contains.append_right (h : Contains t part) (s : String) : Contains (s ++ t) part := by
  rw [Contains, String.toList_append]
  exact h.trans (List.suffix_append _ _).isInfix

end Contains

end PackageScript.Text
