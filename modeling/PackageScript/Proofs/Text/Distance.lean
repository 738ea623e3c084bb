import Mathlib.Order.Bounds.Basic
import Mathlib.Order.MinMax
import PackageScript.Text.Distance
/-! The edit distance of two words is the least number of edits that lead from one to the other. -/
namespace PackageScript.Text

/-- One insertion, deletion or replacement of one character. -/
inductive Edit : List Char → List Char → Prop
  | insert (before : List Char) (c : Char) (after : List Char) :
      Edit (before ++ after) (before ++ c :: after)
  | delete (before : List Char) (c : Char) (after : List Char) :
      Edit (before ++ c :: after) (before ++ after)
  | replace (before : List Char) (c d : Char) (after : List Char) :
      Edit (before ++ c :: after) (before ++ d :: after)

/-- That many edits, one after another. -/
inductive Edits : Nat → List Char → List Char → Prop
  | none (word : List Char) : Edits 0 word word
  | more {n : Nat} {u v w : List Char} : Edits n u v → Edit v w → Edits (n + 1) u w

section Rows

private def row (as bs : List Char) : List Nat :=
  as.foldr (fun c row => nextRow c bs row) (baseRow bs)

private theorem row_nil (as : List Char) : row as [] = [as.length] := by
  induction as with
  | nil => rfl
  | cons a as ih =>
    show nextRow a [] (row as []) = _
    rw [ih]
    rfl

private theorem exists_row_cons (as : List Char) (b : Char) (bs : List Char) :
    ∃ d, row as (b :: bs) = d :: row as bs := by
  induction as generalizing b bs with
  | nil => exact ⟨_, rfl⟩
  | cons a as ih =>
    obtain ⟨d, hd⟩ := ih b bs
    -- a row has an entry for the empty suffix at least, so that the next one is made from two
    have hrow : ∃ e more, row as bs = e :: more := by
      cases bs with
      | nil => exact ⟨_, _, row_nil as⟩
      | cons b' bs' =>
        obtain ⟨e, he⟩ := ih b' bs'
        exact ⟨e, _, he⟩
    obtain ⟨e, more, he⟩ := hrow
    show ∃ d, nextRow a (b :: bs) (row as (b :: bs)) = d :: nextRow a bs (row as bs)
    rw [hd, he]
    exact ⟨_, rfl⟩

private theorem row_cons (as : List Char) (b : Char) (bs : List Char) :
    row as (b :: bs) = editDistance as (b :: bs) :: row as bs := by
  obtain ⟨d, hd⟩ := exists_row_cons as b bs
  have hhead : editDistance as (b :: bs) = (row as (b :: bs)).headD 0 := rfl
  rw [hhead, hd, List.headD_cons]

private theorem exists_row (as bs : List Char) :
    ∃ more, row as bs = editDistance as bs :: more := by
  cases bs with
  | nil => exact ⟨[], by rw [row_nil, editDistance, ← row, row_nil, List.headD_cons]⟩
  | cons b bs => exact ⟨_, row_cons as b bs⟩

end Rows

private theorem editDistance_nil (as : List Char) : editDistance as [] = as.length := by
  show (row as []).headD 0 = _
  rw [row_nil, List.headD_cons]

private theorem nil_editDistance (bs : List Char) : editDistance [] bs = bs.length := by
  cases bs <;> rfl

/-- The last edit that the computation allows for: the first character of one word is deleted or
inserted, or it becomes that of the other. -/
theorem editDistance_cons (a b : Char) (as bs : List Char) :
    editDistance (a :: as) (b :: bs) =
      min (min (editDistance as (b :: bs) + 1) (editDistance (a :: as) bs + 1))
        (if a = b then editDistance as bs else editDistance as bs + 1) := by
  obtain ⟨more, hmore⟩ := exists_row as bs
  have hrow : (nextRow a bs (row as bs)).headD 0 = editDistance (a :: as) bs := rfl
  show (nextRow a (b :: bs) (row as (b :: bs))).headD 0 = _
  rw [row_cons, hmore, ← hrow, hmore]
  rfl

section Attained

variable {n : Nat} {u v : List Char}

private theorem Edit.cons (c : Char) (h : Edit u v) : Edit (c :: u) (c :: v) := by
  cases h with
  | insert before d after => exact .insert (c :: before) d after
  | delete before d after => exact .delete (c :: before) d after
  | replace before d e after => exact .replace (c :: before) d e after

private theorem Edits.cons (c : Char) (h : Edits n u v) : Edits n (c :: u) (c :: v) := by
  induction h with
  | none word => exact .none (c :: word)
  | more _ hlast ih => exact .more ih (hlast.cons c)

private theorem edits_append_nil (as : List Char) : Edits as.length as [] := by
  induction as with
  | nil => exact .none []
  | cons a as ih => exact .more (ih.cons a) (.delete [] a [])

private theorem edits_nil (bs : List Char) : Edits bs.length [] bs := by
  induction bs with
  | nil => exact .none []
  | cons b bs ih => exact .more ih (.insert [] b bs)

/-- The distance is a number of edits that suffices. -/
theorem edits_editDistance (as bs : List Char) : Edits (editDistance as bs) as bs := by
  induction as generalizing bs with
  | nil =>
    rw [nil_editDistance]
    exact edits_nil bs
  | cons a as iha =>
    induction bs with
    | nil =>
      rw [editDistance_nil]
      exact edits_append_nil (a :: as)
    | cons b bs ihb =>
      have hdelete : Edits (editDistance as (b :: bs) + 1) (a :: as) (b :: bs) :=
        .more ((iha (b :: bs)).cons a) (.delete [] a (b :: bs))
      have hinsert : Edits (editDistance (a :: as) bs + 1) (a :: as) (b :: bs) :=
        .more ihb (.insert [] b bs)
      have hbecome : Edits (if a = b then editDistance as bs else editDistance as bs + 1)
          (a :: as) (b :: bs) := by
        split
        · rename_i heq
          exact heq ▸ (iha bs).cons a
        · exact .more ((iha bs).cons a) (.replace [] a b bs)
      rw [editDistance_cons]
      have hcheaper := min_rec' (Edits · (a :: as) (b :: bs)) hdelete hinsert
      exact min_rec' (Edits · (a :: as) (b :: bs)) hcheaper hbecome

end Attained

section Least

variable (as : List Char)

private theorem editDistance_le_of_delete (a : Char) (bs : List Char) :
    editDistance (a :: as) bs ≤ editDistance as bs + 1 := by
  cases bs with
  | nil => rw [editDistance_nil, editDistance_nil, List.length_cons]
  | cons b bs =>
    rw [editDistance_cons]
    exact (min_le_left _ _).trans (min_le_left _ _)

private theorem editDistance_insert_le (c : Char) (after : List Char) :
    editDistance as (c :: after) ≤ editDistance as after + 1 := by
  cases as with
  | nil => rw [nil_editDistance, nil_editDistance, List.length_cons]
  | cons a as =>
    rw [editDistance_cons]
    exact (min_le_left _ _).trans (min_le_right _ _)

private theorem editDistance_delete_le (c : Char) (after : List Char) :
    editDistance as after ≤ editDistance as (c :: after) + 1 := by
  induction as with
  | nil =>
    rw [nil_editDistance, nil_editDistance, List.length_cons]
    omega
  | cons a as ih =>
    have hfirst := editDistance_le_of_delete as a after
    rw [editDistance_cons]
    split <;> omega

private theorem editDistance_replace_le (c d : Char) (after : List Char) :
    editDistance as (d :: after) ≤ editDistance as (c :: after) + 1 := by
  induction as with
  | nil =>
    rw [nil_editDistance, nil_editDistance, List.length_cons, List.length_cons]
    omega
  | cons a as ih =>
    rw [editDistance_cons, editDistance_cons]
    split <;> split <;> omega

private theorem editDistance_cons_le {u v : List Char}
    (h : ∀ as, editDistance as v ≤ editDistance as u + 1) (c : Char) :
    editDistance as (c :: v) ≤ editDistance as (c :: u) + 1 := by
  induction as with
  | nil =>
    have hlength := h []
    rw [nil_editDistance, nil_editDistance] at hlength ⊢
    rw [List.length_cons, List.length_cons]
    omega
  | cons a as ih =>
    have hboth := h as
    have hword := h (a :: as)
    rw [editDistance_cons, editDistance_cons]
    split <;> omega

private theorem editDistance_append_le {u v : List Char}
    (h : ∀ as, editDistance as v ≤ editDistance as u + 1) (before : List Char) :
    editDistance as (before ++ v) ≤ editDistance as (before ++ u) + 1 := by
  induction before generalizing as with
  | nil => exact h as
  | cons c before ih => exact editDistance_cons_le as ih c

private theorem Edit.editDistance_le {u v : List Char} (h : Edit u v) :
    editDistance as v ≤ editDistance as u + 1 := by
  cases h with
  | insert before c after =>
    exact editDistance_append_le as (fun as => editDistance_insert_le as c after) before
  | delete before c after =>
    exact editDistance_append_le as (fun as => editDistance_delete_le as c after) before
  | replace before c d after =>
    exact editDistance_append_le as (fun as => editDistance_replace_le as c d after) before

end Least

private theorem editDistance_self (word : List Char) : editDistance word word = 0 := by
  induction word with
  | nil => rfl
  | cons c word ih => simp [editDistance_cons, ih]

/-- No fewer edits than the distance lead from one word to another. -/
theorem Edits.editDistance_le {n : Nat} {u v : List Char} (h : Edits n u v) :
    editDistance u v ≤ n := by
  induction h with
  | none word => exact (editDistance_self word).le
  | more _ hlast ih => exact (hlast.editDistance_le _).trans (Nat.succ_le_succ ih)

/-- The distance is the least number of edits. -/
theorem isLeast_editDistance (u v : List Char) :
    IsLeast {n | Edits n u v} (editDistance u v) :=
  ⟨edits_editDistance u v, fun _ h => h.editDistance_le⟩

/-- A number is at most the distance exactly if every number of edits that suffices is at least as
great. -/
theorem le_editDistance_iff {n : Nat} {u v : List Char} :
    n ≤ editDistance u v ↔ ∀ m, Edits m u v → n ≤ m :=
  ⟨fun h _ hm => h.trans hm.editDistance_le, fun h => h _ (edits_editDistance u v)⟩

end PackageScript.Text
