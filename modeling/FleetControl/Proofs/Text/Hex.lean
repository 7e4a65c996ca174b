import FleetControl.Text.Hex

/-!
# Hexadecimal digits are read back

Digits that were written for numbers below the base are read as these numbers
(`Text.hexNumber?_map`), so a byte is read back from its two digits and the code of a character
from its four.
-/

namespace FleetControl.Text

theorem hexDigit?_upperHexDigit : ∀ n < 16, hexDigit? (upperHexDigit n) = some n := by decide

/-- Digits are read with the most significant first. -/
theorem hexNumber?_map {ds : List Nat} (h : ∀ d ∈ ds, d < 16) :
    hexNumber? (ds.map upperHexDigit) = some (ds.foldl (fun n d => 16 * n + d) 0) := by
  -- the number so far is carried along
  suffices hfrom : ∀ n, (ds.map upperHexDigit).foldlM
      (fun n c => (hexDigit? c).map (16 * n + ·)) n =
      some (ds.foldl (fun n d => 16 * n + d) n) from hfrom 0
  induction ds with
  | nil => exact fun _ => rfl
  | cons d ds ih =>
    intro n
    rw [List.map_cons, List.foldlM_cons, hexDigit?_upperHexDigit d (h d List.mem_cons_self)]
    exact ih (fun d hd => h d (List.mem_cons_of_mem _ hd)) _

theorem hexNumber?_twoDigits {n : Nat} (h : n < 256) :
    hexNumber? [upperHexDigit (n / 16), upperHexDigit (n % 16)] = some n := by
  have hdigits : ∀ d ∈ [n / 16, n % 16], d < 16 := by
    simp only [List.mem_cons, List.not_mem_nil, or_false]
    omega
  refine (hexNumber?_map hdigits).trans (congrArg some ?_)
  simp only [List.foldl_cons, List.foldl_nil]
  omega

theorem hexNumber?_fourHexDigits {n : Nat} (h : n < 65536) :
    hexNumber? (fourHexDigits n) = some n := by
  have hdigits : ∀ d ∈ [n / 4096 % 16, n / 256 % 16, n / 16 % 16, n % 16], d < 16 := by
    simp only [List.mem_cons, List.not_mem_nil, or_false]
    omega
  refine (hexNumber?_map hdigits).trans (congrArg some ?_)
  simp only [List.foldl_cons, List.foldl_nil]
  omega

theorem charOfCode?_toNat (c : Char) : charOfCode? c.toNat = some c := by
  have h : c.toNat.isValidChar := c.valid
  rw [charOfCode?, dif_pos h]
  rfl

end FleetControl.Text
