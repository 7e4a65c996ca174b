import FleetControl.Toml.Moment
import FleetControl.Toml.Number
import Mathlib.Data.List.Basic
import Std.Data.String.ToNat

/-!
# Numbers are read back

A number of at most 63 bits that stands at the end of its line is read as itself
(`Toml.Number.read_repr`): its digits have no zero in front, so they are not taken for a number in
another base, and nothing in them makes a date or a time (`Toml.Moment.read_repr`).
-/

namespace FleetControl

namespace Text

theorem decimal_repr (n : Nat) : decimal (Nat.repr n).toList = n := by
  rw [Nat.toList_repr]
  exact Nat.ofDigitChars_ten_toDigits

theorem isDigit_of_mem_repr {n : Nat} {c : Char} (h : c ∈ (Nat.repr n).toList) : c.isDigit := by
  rw [Nat.toList_repr] at h
  exact Nat.isDigit_of_mem_toDigits (by decide) (by decide) h

/-- A number is written without zeros in front. -/
theorem head_toDigits {n : Nat} (h : 0 < n) : (Nat.toDigits 10 n).head? ≠ some '0' := by
  induction n using Nat.strongRecOn with
  | ind n ih =>
    by_cases hn : n < 10
    · rw [Nat.toDigits_of_lt_base hn]
      have hdigit : ∀ m < 10, 0 < m → [m.digitChar].head? ≠ some '0' := by decide
      exact hdigit n hn h
    · rw [Nat.toDigits_of_base_le (by decide) (by omega), List.head?_append]
      intro hhead
      refine ih (n / 10) (by omega) (by omega) ?_
      cases hdigits : Nat.toDigits 10 (n / 10) with
      | nil => exact absurd hdigits Nat.toDigits_ne_nil
      | cons d ds =>
        rw [hdigits] at hhead
        exact hhead

/-- A number is written in digits, of which the first is a zero only if it is the last. -/
theorem repr_eq_cons (n : Nat) :
    ∃ c ds, (Nat.repr n).toList = c :: ds ∧ c.isDigit ∧ (∀ d ∈ ds, d.isDigit) ∧
      (c = '0' → ds = []) := by
  rcases hrepr : (Nat.repr n).toList with _ | ⟨c, ds⟩
  · rw [Nat.toList_repr] at hrepr
    exact absurd hrepr Nat.toDigits_ne_nil
  · have hdigit : ∀ d ∈ c :: ds, d.isDigit := fun d hd => isDigit_of_mem_repr (hrepr ▸ hd)
    refine ⟨c, ds, rfl, hdigit c List.mem_cons_self,
      fun d hd => hdigit d (List.mem_cons_of_mem _ hd), ?_⟩
    rintro rfl
    rcases Nat.eq_zero_or_pos n with rfl | hpos
    · cases hrepr
      rfl
    · rw [Nat.toList_repr] at hrepr
      exact absurd (by rw [hrepr]; rfl) (head_toDigits hpos)

end Text

namespace Toml

open Text

namespace Number

/-- Digits are read up to the end of their line. -/
theorem digitsOn_append {ds : List Char} (h : ∀ d ∈ ds, d.isDigit) (rest : List Char) :
    digitsOn Char.isDigit (ds ++ '\n' :: rest) = (ds, '\n' :: rest) := by
  induction ds with
  | nil =>
    rw [List.nil_append, digitsOn] <;> simp
  | cons d ds ih =>
    have hd := h d List.mem_cons_self
    have hne : d ≠ '_' := by
      rintro rfl
      cases hd
    rw [List.cons_append, digitsOn, if_pos hd, ih fun d hd => h d (List.mem_cons_of_mem _ hd)]
    simp [hne]

/-- A number is read up to the end of its line. -/
theorem decimalNumber_repr {n : Nat} (h : inRange n) (rest : List Char) :
    decimalNumber ((Nat.repr n).toList ++ '\n' :: rest) = some (.integer n, '\n' :: rest) := by
  obtain ⟨c, ds, hrepr, hc, hds, hzero⟩ := repr_eq_cons n
  have hdecimal : decimal (c :: ds) = n := hrepr ▸ decimal_repr n
  have hsign : sign (c :: (ds ++ '\n' :: rest)) = (false, c :: (ds ++ '\n' :: rest)) := by
    rw [sign] <;> rintro _ hcons <;> obtain ⟨rfl, -⟩ := List.cons.inj hcons <;> cases hc
  have hwhole : wholePart (c :: (ds ++ '\n' :: rest)) = some (c :: ds, '\n' :: rest) := by
    by_cases hcz : c = '0'
    · rw [hcz, hzero hcz]
      rfl
    · rw [wholePart, digits, if_pos hc, digitsOn_append hds]
      simp [hcz]
  rw [hrepr, List.cons_append, decimalNumber, hsign]
  dsimp only
  split
  · next heq =>
    obtain ⟨rfl, -⟩ := List.cons.inj heq
    cases hc
  · next heq =>
    obtain ⟨rfl, -⟩ := List.cons.inj heq
    cases hc
  · rw [hwhole]
    simp [fraction, exponent, hdecimal, integer?, h]

theorem read_repr {n : Nat} (h : inRange n) (rest : List Char) :
    read ((Nat.repr n).toList ++ '\n' :: rest) = some (.integer n, '\n' :: rest) := by
  rw [← decimalNumber_repr h]
  obtain ⟨c, ds, hrepr, hc, hds, hzero⟩ := repr_eq_cons n
  -- after a zero the line is at its end, so no letter of a base follows
  have hbase : ∀ b t, c :: (ds ++ '\n' :: rest) = '0' :: b :: t → b = '\n' := by
    intro b t heq
    obtain ⟨rfl, htail⟩ := List.cons.inj heq
    rw [hzero rfl, List.nil_append] at htail
    exact (List.cons.inj htail).1.symm
  rw [hrepr, List.cons_append, read]
  all_goals
    intro t heq
    exact absurd (hbase _ t heq) (by decide)

end Number

namespace Moment

theorem digits_eq_some {n low high v : Nat} {cs rest : List Char}
    (h : digits n low high cs = some (v, rest)) :
    (∀ d ∈ cs.take n, d.isDigit) ∧ rest = cs.drop n ∧ (cs.take n).length = n := by
  unfold digits at h
  dsimp only at h
  split at h
  · next hcond =>
    simp only [Bool.and_eq_true, decide_eq_true_eq, List.all_eq_true] at hcond
    cases h
    exact ⟨hcond.1.1.2, rfl, hcond.1.1.1⟩
  · cases h

/-- Behind the digits in front of a line end there is no mark of a date or a time. -/
theorem skip_digits {ds : List Char} (hds : ∀ d ∈ ds, d.isDigit) {rest cs' : List Char}
    {n low high v : Nat} (h : digits n low high (ds ++ '\n' :: rest) = some (v, cs')) {c : Char}
    (hc : c.isDigit = false) (hline : c ≠ '\n') : skip c cs' = none := by
  obtain ⟨htake, rfl, -⟩ := digits_eq_some h
  -- the line end is no digit, so it stands behind everything that was taken
  have hle : n ≤ ds.length := by
    refine Nat.le_of_not_lt fun hlt => ?_
    have hmem : '\n' ∈ (ds ++ '\n' :: rest).take n := by
      obtain ⟨k, rfl⟩ := Nat.exists_eq_add_of_lt hlt
      rw [List.take_append, List.mem_append, Nat.add_assoc, Nat.add_sub_cancel_left]
      exact .inr List.mem_cons_self
    exact absurd (htake _ hmem) (by decide)
  rw [List.drop_append_of_le_length hle]
  cases hdrop : ds.drop n with
  | nil => exact if_neg (Ne.symm hline)
  | cons d t =>
    have hd := hds d (List.mem_of_mem_drop (hdrop ▸ List.mem_cons_self))
    refine if_neg ?_
    rintro rfl
    simp [hd] at hc

theorem read_repr (n : Nat) (rest : List Char) :
    read ((Nat.repr n).toList ++ '\n' :: rest) = none := by
  have hds : ∀ d ∈ (Nat.repr n).toList, d.isDigit := fun d => isDigit_of_mem_repr
  have hdate : date ((Nat.repr n).toList ++ '\n' :: rest) = none := by
    unfold date
    cases hyear : digits 4 0 9999 ((Nat.repr n).toList ++ '\n' :: rest) with
    | none => rfl
    | some year => simp [skip_digits hds hyear (c := '-') rfl (by decide)]
  have htime : time ((Nat.repr n).toList ++ '\n' :: rest) = none := by
    unfold time
    cases hhour : digits 2 0 23 ((Nat.repr n).toList ++ '\n' :: rest) with
    | none => rfl
    | some hour => simp [skip_digits hds hhour (c := ':') rfl (by decide)]
  rw [read, hdate, htime]

end Moment

end Toml

end FleetControl
