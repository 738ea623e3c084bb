import PackageScript.Text.Utf8
/-! What is encoded is decoded again. -/
namespace PackageScript.Text.Utf8

/-- Whether some bytes, read on from a state, complete one character. -/
def Completes (state : State) (bytes : List UInt8) (c : Char) : Prop :=
  ∀ rest, lossyFrom state (bytes ++ rest) = c :: lossyFrom .between rest

private theorem completes_singleton {state : State} {b : UInt8} {c : Char}
    (h : step state b = some (some c, .between)) : Completes state [b] c := by
  intro rest
  cases state <;> simp [lossyFrom, h]

private theorem completes_cons {state next : State} {b : UInt8} {bytes : List UInt8} {c : Char}
    (h : step state b = some (none, next)) (hmore : Completes next bytes c) :
    Completes state (b :: bytes) c := by
  intro rest
  rw [← hmore rest]
  cases state <;> simp [lossyFrom, h]

private theorem toNat_ofNat_of_lt {n : Nat} (h : n < 256) : (UInt8.ofNat n).toNat = n := by
  rw [UInt8.toNat_ofNat']
  omega

private theorem completes_last (n : Nat) :
    Completes (.inside (n / 64) 0 0x80 0xBF) [UInt8.ofNat (n % 64 + 0x80)] (Char.ofNat n) := by
  apply completes_singleton
  have hn : n / 64 * 64 + n % 64 = n := by omega
  rw [step, toNat_ofNat_of_lt (by omega), if_pos (by omega), Nat.add_sub_cancel, hn]

private theorem completes_next {n more low high : Nat} {bytes : List UInt8} {c : Char}
    (hlow : low ≤ n % 64 + 0x80) (hhigh : n % 64 + 0x80 ≤ high)
    (h : Completes (.inside n more 0x80 0xBF) bytes c) :
    Completes (.inside (n / 64) (more + 1) low high) (UInt8.ofNat (n % 64 + 0x80) :: bytes) c := by
  refine completes_cons ?_ h
  have hn : n / 64 * 64 + n % 64 = n := by omega
  rw [step, toNat_ofNat_of_lt (by omega), if_pos ⟨hlow, hhigh⟩, Nat.add_sub_cancel, hn]

private theorem step_first_of_two {n : Nat} (hlow : 0x7F < n) (hhigh : n ≤ 0x7FF) :
    step .between (UInt8.ofNat (n / 64 % 32 + 0xC0)) =
      some (none, .inside (n / 64) 0 0x80 0xBF) := by
  rw [step, toNat_ofNat_of_lt (by omega), if_neg (by omega), if_pos (by omega), Nat.add_sub_cancel]
  have hn : n / 64 % 32 = n / 64 := by omega
  rw [hn]

private theorem step_first_of_three {n : Nat} (hlow : 0x7FF < n) (hhigh : n ≤ 0xFFFF)
    (hvalid : n < 0xD800 ∨ 0xDFFF < n) :
    ∃ low high, step .between (UInt8.ofNat (n / 4096 % 16 + 0xE0)) =
        some (none, .inside (n / 64 / 64) 1 low high) ∧
      low ≤ n / 64 % 64 + 0x80 ∧ n / 64 % 64 + 0x80 ≤ high := by
  have hn : n / 4096 % 16 = n / 64 / 64 := by omega
  rw [step, toNat_ofNat_of_lt (by omega), if_neg (by omega), if_neg (by omega), hn]
  -- The range of the second byte leaves out shorter forms after one first byte, and surrogates after
  -- another one.
  by_cases hfirst : n / 64 / 64 = 0
  · exact ⟨0xA0, 0xBF, by rw [if_pos (by omega), hfirst], by omega, by omega⟩
  rw [if_neg (by omega)]
  by_cases hlast : n / 64 / 64 = 0xD
  · exact ⟨0x80, 0x9F, by rw [if_pos (by omega), hlast], by omega, by omega⟩
  exact ⟨0x80, 0xBF, by rw [if_neg (by omega), if_pos (by omega), Nat.add_sub_cancel],
    by omega, by omega⟩

private theorem step_first_of_four {n : Nat} (hlow : 0xFFFF < n) (hhigh : n < 0x110000) :
    ∃ low high, step .between (UInt8.ofNat (n / 262144 % 8 + 0xF0)) =
        some (none, .inside (n / 4096 / 64) 2 low high) ∧
      low ≤ n / 4096 % 64 + 0x80 ∧ n / 4096 % 64 + 0x80 ≤ high := by
  have hn : n / 262144 % 8 = n / 4096 / 64 := by omega
  rw [step, toNat_ofNat_of_lt (by omega), if_neg (by omega), if_neg (by omega), if_neg (by omega),
    if_neg (by omega), if_neg (by omega), hn]
  by_cases hfirst : n / 4096 / 64 = 0
  · exact ⟨0x90, 0xBF, by rw [if_pos (by omega), hfirst], by omega, by omega⟩
  rw [if_neg (by omega)]
  by_cases hlast : n / 4096 / 64 = 4
  · exact ⟨0x80, 0x8F, by rw [if_neg (by omega), if_pos (by omega), hlast], by omega, by omega⟩
  exact ⟨0x80, 0xBF, by rw [if_pos (by omega), Nat.add_sub_cancel], by omega, by omega⟩

private theorem completes_encoded (c : Char) : Completes .between (String.utf8EncodeChar c) c := by
  have hvalid : c.toNat < 0xD800 ∨ 0xDFFF < c.toNat ∧ c.toNat < 0x110000 := c.valid
  have hvalue : c.val.toNat = c.toNat := rfl
  have hc : c = Char.ofNat c.toNat := c.ofNat_toNat.symm
  rw [String.utf8EncodeChar, hvalue]
  generalize c.toNat = n at *
  subst hc
  have hdiv : n / 4096 = n / 64 / 64 := by omega
  split
  · apply completes_singleton
    rw [step, toNat_ofNat_of_lt (by omega), if_pos ‹_›]
  split
  · exact completes_cons (step_first_of_two (by omega) ‹_›) (completes_last n)
  split
  · obtain ⟨low, high, hstep, hlow, hhigh⟩ :=
      step_first_of_three (n := n) (by omega) ‹_› (by omega)
    exact completes_cons hstep (completes_next hlow hhigh (completes_last n))
  · obtain ⟨low, high, hstep, hlow, hhigh⟩ := step_first_of_four (n := n) (by omega) (by omega)
    refine completes_cons hstep (completes_next hlow hhigh ?_)
    rw [hdiv]
    exact completes_next (by omega) (by omega) (completes_last n)

private theorem encode_eq_flatMap (s : String) :
    encode s = s.toList.flatMap String.utf8EncodeChar := by
  conv => lhs; rw [← String.ofList_toList (s := s)]
  rw [encode, String.toUTF8_eq_toByteArray, String.toByteArray_ofList, List.utf8Encode,
    List.toList_data_toByteArray]

/-- The bytes of a text stand for that text. -/
theorem decodeLossy_encode (s : String) : decodeLossy (encode s) = s := by
  have hchars : ∀ cs : List Char,
      lossyFrom .between (cs.flatMap String.utf8EncodeChar) = cs := by
    intro cs
    induction cs with
    | nil => rfl
    | cons c rest ih => rw [List.flatMap_cons, completes_encoded c, ih]
  rw [decodeLossy, encode_eq_flatMap, hchars, String.ofList_toList]

end PackageScript.Text.Utf8
