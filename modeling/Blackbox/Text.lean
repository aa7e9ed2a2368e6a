import Mathlib.Data.List.Basic
import Mathlib.Data.Nat.Digits

/-!
# Decimals and CRLF

The admin endpoint and the metrics exporter write numbers with `operator<<`, which prints a
`size_t` or `uint64_t` as `std::to_string` does: the decimal digits of `toString n`. A reader
recovers the number from them (`decimalValue_toString`), and they hold no character but digits
(`digit_of_mem_toString`), so no line break either. HTTP lines end in CRLF.
-/

namespace Blackbox

def decimalStep (v : Nat) (c : Char) : Nat := 10 * v + (c.toNat - 48)

/-- The value of a decimal numeral. -/
def decimalValue (s : List Char) : Nat := s.foldl decimalStep 0

theorem digitChar_toNat : ∀ d < 10, (Nat.digitChar d).toNat = d + 48 := by
  decide

theorem foldl_toDigitsCore : ∀ (fuel n : Nat) (ds : List Char), n < fuel →
    (Nat.toDigitsCore 10 fuel n ds).foldl decimalStep 0 = ds.foldl decimalStep n
  | 0, n, _, h => absurd h (Nat.not_lt_zero n)
  | fuel + 1, n, ds, h => by
    have hd := digitChar_toNat (n % 10) (Nat.mod_lt n (by decide))
    simp only [Nat.toDigitsCore]
    split
    · simp only [List.foldl_cons, decimalStep, hd, Nat.add_sub_cancel]
      congr 1
      omega
    · rw [foldl_toDigitsCore fuel (n / 10) _ (by omega)]
      simp only [List.foldl_cons, decimalStep, hd, Nat.add_sub_cancel]
      congr 1
      omega

theorem mem_toDigitsCore : ∀ (fuel n : Nat) (ds : List Char) {c : Char},
    c ∈ Nat.toDigitsCore 10 fuel n ds → c ∈ ds ∨ 48 ≤ c.toNat ∧ c.toNat ≤ 57
  | 0, _, _, _, h => Or.inl h
  | fuel + 1, n, ds, c, h => by
    have hd := digitChar_toNat (n % 10) (Nat.mod_lt n (by decide))
    have hdig : 48 ≤ (Nat.digitChar (n % 10)).toNat ∧ (Nat.digitChar (n % 10)).toNat ≤ 57 := by
      have := Nat.mod_lt n (show 10 > 0 by decide)
      omega
    simp only [Nat.toDigitsCore] at h
    split at h
    · rcases List.mem_cons.1 h with rfl | h
      exacts [Or.inr hdig, Or.inl h]
    · rcases mem_toDigitsCore fuel _ _ h with h | h
      · rcases List.mem_cons.1 h with rfl | h
        exacts [Or.inr hdig, Or.inl h]
      · exact Or.inr h

@[simp] theorem decimalValue_toString (n : Nat) : decimalValue (toString n).toList = n :=
  foldl_toDigitsCore (n + 1) n [] (Nat.lt_succ_self n)

theorem digit_of_mem_toString {n : Nat} {c : Char} (h : c ∈ (toString n).toList) :
    48 ≤ c.toNat ∧ c.toNat ≤ 57 := by
  rcases mem_toDigitsCore (n + 1) n [] h with h | h
  exacts [absurd h (List.not_mem_nil c), h]

def crlf : List Char := "\r\n".toList

end Blackbox
