import Mathlib.Data.List.OfFn
import Mathlib.Logic.Function.Basic
import Mathlib.Algebra.Group.Nat.Basic

/-!
# Event ids

`IdGenerator::generate_uuid_v4` draws two 64-bit words, lays them over sixteen bytes through a
union, sets the version nibble of byte 6 and the variant bits of byte 8, and prints the bytes with
`snprintf`, `%02x` each, in groups of 4, 2, 2, 2 and 6 bytes joined by `-` (`generateUuidV4`).
The model is the function of the two draws; the engine that draws them is left out.

For every pair of draws the string is lowercase hex digits and dashes in the 8-4-4-4-12 layout
(`formatUuid_layout`), and reading it back as hex gives the union's bytes
(`decodeUuid_formatUuid`), where only the six bits of the two fields have been overwritten
(`setVersionVariant_six`, `setVersionVariant_eight`). So two pairs of draws give one id exactly
when they agree on the other 122 bits (`generateUuidV4_eq_iff`). `generateUuidV4_layout_roundtrip`
gathers the facts about one id.
-/

namespace Blackbox

/-- Byte `k` of `x` where a little-endian target stores it: bits `8k` to `8k + 7`. -/
def leByte (x : UInt64) (k : Nat) : UInt8 := (x.toNat / 2 ^ (8 * k)).toUInt8

/-- `uuid.bytes` after `uuid.ints[0] = part1; uuid.ints[1] = part2;`: `ints[0]` lies over bytes
0 to 7 and `ints[1]` over bytes 8 to 15, each least significant byte first. -/
def unionBytes (part1 part2 : UInt64) (i : Fin 16) : UInt8 :=
  if i.val < 8 then leByte part1 i.val else leByte part2 (i.val - 8)

/-- `uuid.bytes[6] = (uuid.bytes[6] & 0x0F) | 0x40;` then
`uuid.bytes[8] = (uuid.bytes[8] & 0x3F) | 0x80;`. -/
def setVersionVariant (bytes : Fin 16 → UInt8) : Fin 16 → UInt8 :=
  let bytes := Function.update bytes 6 ((bytes 6 &&& 0x0F) ||| 0x40)
  Function.update bytes 8 ((bytes 8 &&& 0x3F) ||| 0x80)

def hexDigits : List Char :=
  ['0', '1', '2', '3', '4', '5', '6', '7', '8', '9', 'a', 'b', 'c', 'd', 'e', 'f']

def hexDigit (n : Nat) : Char := hexDigits.getD n '0'

/-- `%02x` of a byte: two hex digits, the high nibble first. -/
def hex02 (b : UInt8) : List Char := [hexDigit (b.toNat / 16), hexDigit (b.toNat % 16)]

/-- The `snprintf` of `generate_uuid_v4`, with the format
`"%02x%02x%02x%02x-%02x%02x-%02x%02x-%02x%02x-%02x%02x%02x%02x%02x%02x"` over `uuid.bytes[0]`
to `uuid.bytes[15]`. -/
def formatUuid (b : Fin 16 → UInt8) : List Char :=
  hex02 (b 0) ++ hex02 (b 1) ++ hex02 (b 2) ++ hex02 (b 3) ++ ['-'] ++
    hex02 (b 4) ++ hex02 (b 5) ++ ['-'] ++
    hex02 (b 6) ++ hex02 (b 7) ++ ['-'] ++
    hex02 (b 8) ++ hex02 (b 9) ++ ['-'] ++
    hex02 (b 10) ++ hex02 (b 11) ++ hex02 (b 12) ++ hex02 (b 13) ++ hex02 (b 14) ++ hex02 (b 15)

/-- `IdGenerator::generate_uuid_v4`, on the draws `part1` and `part2` of `dist(engine)`. -/
def generateUuidV4 (part1 part2 : UInt64) : String :=
  ⟨formatUuid (setVersionVariant (unionBytes part1 part2))⟩

/-- The value of a digit `%x` prints. This and the two readers below are the specification side:
reading an id back as hex, which no function of the service does. -/
def hexValue (c : Char) : Option Nat := hexDigits.indexOf? c

/-- Hex-decoding: each pair of digits, the high one first, as a byte. -/
def decodeHex : List Char → Option (List UInt8)
  | hi :: lo :: rest => do
    let h ← hexValue hi
    let l ← hexValue lo
    let bs ← decodeHex rest
    pure ((16 * h + l).toUInt8 :: bs)
  | [] => some []
  | [_] => none

/-- Hex-decoding a UUID: its digits, the dashes dropped. -/
def decodeUuid (s : String) : Option (List UInt8) := decodeHex (s.data.filter (· != '-'))

theorem hexDigit_spec : ∀ n < 16, hexDigit n ∈ hexDigits ∧ hexDigit n ≠ '-' ∧
    hexValue (hexDigit n) = some n := by
  decide

theorem hexDigit_variant : ∀ v < 12, 8 ≤ v → hexDigit v ∈ ['8', '9', 'a', 'b'] := by
  decide

theorem nibbles_lt (b : UInt8) : b.toNat / 16 < 16 ∧ b.toNat % 16 < 16 := by
  have := b.toNat_lt_size
  simp only [UInt8.size] at this
  omega

theorem decodeHex_hex02 (b : UInt8) (rest : List Char) :
    decodeHex (hex02 b ++ rest) = (decodeHex rest).map (b :: ·) := by
  have hb := b.toNat_lt_size
  obtain ⟨-, -, hh⟩ := hexDigit_spec _ (nibbles_lt b).1
  obtain ⟨-, -, hl⟩ := hexDigit_spec _ (nibbles_lt b).2
  have hbyte : (16 * (b.toNat / 16) + b.toNat % 16).toUInt8 = b :=
    UInt8.toNat.inj (by rw [Nat.toUInt8, UInt8.toNat_ofNat_of_lt (by omega)]; omega)
  rw [hex02, List.cons_append, List.cons_append, List.nil_append, decodeHex, hh, hl]
  cases decodeHex rest <;> simp [hbyte]

theorem decodeHex_flatMap : ∀ bs : List UInt8, decodeHex (bs.flatMap hex02) = some bs
  | [] => rfl
  | b :: bs => by rw [List.flatMap_cons, decodeHex_hex02, decodeHex_flatMap bs]; rfl

theorem filter_hex02 (b : UInt8) : (hex02 b).filter (· != '-') = hex02 b := by
  simp [hex02, (hexDigit_spec _ (nibbles_lt b).1).2.1, (hexDigit_spec _ (nibbles_lt b).2).2.1]

theorem filter_formatUuid (b : Fin 16 → UInt8) :
    (formatUuid b).filter (· != '-') = (List.ofFn b).flatMap hex02 := by
  simp [formatUuid, filter_hex02, List.ofFn_succ]
  rfl

theorem decodeUuid_formatUuid (b : Fin 16 → UInt8) :
    decodeUuid ⟨formatUuid b⟩ = some (List.ofFn b) := by
  show decodeHex ((formatUuid b).filter _) = _
  rw [filter_formatUuid, decodeHex_flatMap]

theorem hex02_subset (b : UInt8) : hex02 b ⊆ hexDigits := by
  simp [hex02, (hexDigit_spec _ (nibbles_lt b).1).1, (hexDigit_spec _ (nibbles_lt b).2).1]

theorem formatUuid_layout (b : Fin 16 → UInt8) :
    ∃ g₁ g₂ g₃ g₄ g₅ : List Char,
      formatUuid b = g₁ ++ '-' :: g₂ ++ '-' :: g₃ ++ '-' :: g₄ ++ '-' :: g₅ ∧
      g₁.length = 8 ∧ g₂.length = 4 ∧ g₃.length = 4 ∧ g₄.length = 4 ∧ g₅.length = 12 ∧
      ∀ c ∈ g₁ ++ g₂ ++ g₃ ++ g₄ ++ g₅, c ∈ hexDigits :=
  ⟨hex02 (b 0) ++ hex02 (b 1) ++ hex02 (b 2) ++ hex02 (b 3), hex02 (b 4) ++ hex02 (b 5),
    hex02 (b 6) ++ hex02 (b 7), hex02 (b 8) ++ hex02 (b 9),
    hex02 (b 10) ++ hex02 (b 11) ++ hex02 (b 12) ++ hex02 (b 13) ++ hex02 (b 14) ++ hex02 (b 15),
    by simp [formatUuid], by simp [hex02], by simp [hex02], by simp [hex02], by simp [hex02],
    by simp [hex02],
    fun _ hc => (show _ ⊆ hexDigits by simp only [List.append_subset, hex02_subset, and_self]) hc⟩

theorem formatUuid_fourteen (b : Fin 16 → UInt8) :
    (formatUuid b)[14]? = some (hexDigit ((b 6).toNat / 16)) := by
  simp [formatUuid, hex02]

theorem formatUuid_nineteen (b : Fin 16 → UInt8) :
    (formatUuid b)[19]? = some (hexDigit ((b 8).toNat / 16)) := by
  simp [formatUuid, hex02]

theorem toNat_lor (a b : UInt8) : (a ||| b).toNat = a.toNat ||| b.toNat := BitVec.toNat_or ..

theorem toNat_version (x : UInt8) : ((x &&& 0x0F) ||| 0x40).toNat = 2 ^ 6 + x.toNat % 16 := by
  have h := Nat.mul_add_lt_is_or (show x.toNat % 2 ^ 4 < 2 ^ 6 by omega) 1
  rw [toNat_lor, UInt8.and_toNat, show (0x0F : UInt8).toNat = 2 ^ 4 - 1 from rfl,
    Nat.and_pow_two_sub_one_eq_mod, Nat.or_comm, show (0x40 : UInt8).toNat = 2 ^ 6 * 1 from rfl]
  omega

theorem toNat_variant (x : UInt8) : ((x &&& 0x3F) ||| 0x80).toNat = 2 ^ 7 + x.toNat % 64 := by
  have h := Nat.mul_add_lt_is_or (show x.toNat % 2 ^ 6 < 2 ^ 7 by omega) 1
  rw [toNat_lor, UInt8.and_toNat, show (0x3F : UInt8).toNat = 2 ^ 6 - 1 from rfl,
    Nat.and_pow_two_sub_one_eq_mod, Nat.or_comm, show (0x80 : UInt8).toNat = 2 ^ 7 * 1 from rfl]
  omega

theorem setVersionVariant_six (b : Fin 16 → UInt8) :
    (setVersionVariant b 6).toNat = 2 ^ 6 + (b 6).toNat % 16 := by
  simp [setVersionVariant, Function.update_noteq, toNat_version]

theorem setVersionVariant_eight (b : Fin 16 → UInt8) :
    (setVersionVariant b 8).toNat = 2 ^ 7 + (b 8).toNat % 64 := by
  simp [setVersionVariant, toNat_variant]

theorem setVersionVariant_of_ne (b : Fin 16 → UInt8) {i : Fin 16} (h6 : i ≠ 6) (h8 : i ≠ 8) :
    setVersionVariant b i = b i := by
  simp [setVersionVariant, Function.update_noteq, h6, h8]

theorem leByte_toNat (x : UInt64) (k : Nat) :
    (leByte x k).toNat = x.toNat / 2 ^ (8 * k) % 2 ^ 8 := by
  simp [leByte, UInt8.toNat, UInt8.ofNat]

theorem testBit_leByte (x : UInt64) (j : Nat) :
    (leByte x (j / 8)).toNat.testBit (j % 8) = x.toNat.testBit j := by
  rw [leByte_toNat, Nat.testBit_mod_two_pow, ← Nat.shiftRight_eq_div_pow, Nat.testBit_shiftRight,
    Nat.div_add_mod]
  simp [Nat.mod_lt j (by decide : 8 > 0)]

theorem testBit_eq_of_leByte {x y : UInt64} {j k : Nat} (hj : j % 8 < k)
    (h : (leByte x (j / 8)).toNat % 2 ^ k = (leByte y (j / 8)).toNat % 2 ^ k) :
    x.toNat.testBit j = y.toNat.testBit j := by
  rw [← testBit_leByte x j, ← testBit_leByte y j]
  simpa [Nat.testBit_mod_two_pow, hj] using congrArg (Nat.testBit · (j % 8)) h

theorem unionBytes_low (part1 part2 : UInt64) {i : Fin 16} (h : i.val < 8) :
    unionBytes part1 part2 i = leByte part1 i.val := if_pos h

theorem unionBytes_high (part1 part2 : UInt64) {i : Fin 16} (h : 8 ≤ i.val) :
    unionBytes part1 part2 i = leByte part2 (i.val - 8) := if_neg (by omega)

theorem not_mem_fields {j : Nat} :
    (j ∉ [52, 53, 54, 55] ↔ j < 52 ∨ 55 < j) ∧ (j ∉ [6, 7] ↔ j < 6 ∨ 7 < j) := by
  simp only [List.mem_cons, List.mem_singleton, List.not_mem_nil, or_false]
  omega

/-- Equal ids come from draws that agree on every bit outside the version and variant fields. -/
theorem generateUuidV4_bits {p1 p2 q1 q2 : UInt64}
    (h : generateUuidV4 p1 p2 = generateUuidV4 q1 q2) :
    (∀ j < 64, j ∉ [52, 53, 54, 55] → p1.toNat.testBit j = q1.toNat.testBit j) ∧
      ∀ j < 64, j ∉ [6, 7] → p2.toNat.testBit j = q2.toNat.testBit j := by
  have hd : setVersionVariant (unionBytes p1 p2) = setVersionVariant (unionBytes q1 q2) := by
    have := congrArg decodeUuid h
    rw [generateUuidV4, generateUuidV4, decodeUuid_formatUuid, decodeUuid_formatUuid,
      Option.some.injEq] at this
    exact List.ofFn_injective this
  -- the bytes outside the two fields, and the kept bits of the two
  have hbyte : ∀ i : Fin 16, i ≠ 6 → i ≠ 8 → unionBytes p1 p2 i = unionBytes q1 q2 i :=
    fun i h6 h8 => by
      rw [← setVersionVariant_of_ne (unionBytes p1 p2) h6 h8, hd, setVersionVariant_of_ne _ h6 h8]
  have h6 := congrArg UInt8.toNat (congrFun hd 6)
  have h8 := congrArg UInt8.toNat (congrFun hd 8)
  rw [setVersionVariant_six, setVersionVariant_six] at h6
  rw [setVersionVariant_eight, setVersionVariant_eight] at h8
  constructor
  · intro j hj hne
    replace hne := not_mem_fields.1.1 hne
    by_cases hk : j / 8 = 6
    · refine testBit_eq_of_leByte (show j % 8 < 4 by omega) ?_
      rw [hk]
      exact (by omega : (unionBytes p1 p2 6).toNat % 16 = (unionBytes q1 q2 6).toNat % 16)
    · have := hbyte ⟨j / 8, by omega⟩ (Fin.ne_of_val_ne hk)
        (Fin.ne_of_val_ne (show j / 8 ≠ 8 by omega))
      simp only [unionBytes, if_pos (show j / 8 < 8 by omega)] at this
      exact testBit_eq_of_leByte (Nat.mod_lt j (by decide)) (by rw [this])
  · intro j hj hne
    replace hne := not_mem_fields.2.1 hne
    by_cases hk : j / 8 = 0
    · refine testBit_eq_of_leByte (show j % 8 < 6 by omega) ?_
      rw [hk]
      exact (by omega : (unionBytes p1 p2 8).toNat % 64 = (unionBytes q1 q2 8).toNat % 64)
    · have := hbyte ⟨8 + j / 8, by omega⟩ (Fin.ne_of_val_ne (show 8 + j / 8 ≠ 6 by omega))
        (Fin.ne_of_val_ne (show 8 + j / 8 ≠ 8 by omega))
      simp only [unionBytes, if_neg (show ¬8 + j / 8 < 8 by omega), Nat.add_sub_cancel_left] at this
      exact testBit_eq_of_leByte (Nat.mod_lt j (by decide)) (by rw [this])

theorem leByte_mod_eq {x y : UInt64} {k m : Nat} (hm : m ≤ 8)
    (h : ∀ b < m, x.toNat.testBit (8 * k + b) = y.toNat.testBit (8 * k + b)) :
    (leByte x k).toNat % 2 ^ m = (leByte y k).toNat % 2 ^ m := by
  refine Nat.eq_of_testBit_eq fun b => ?_
  simp only [Nat.testBit_mod_two_pow, leByte_toNat, ← Nat.shiftRight_eq_div_pow,
    Nat.testBit_shiftRight]
  by_cases hb : b < m
  · simp [hb, h b hb, show b < 8 by omega]
  · simp [hb]

theorem generateUuidV4_eq_of_bits {p1 p2 q1 q2 : UInt64}
    (h1 : ∀ j < 64, j ∉ [52, 53, 54, 55] → p1.toNat.testBit j = q1.toNat.testBit j)
    (h2 : ∀ j < 64, j ∉ [6, 7] → p2.toNat.testBit j = q2.toNat.testBit j) :
    generateUuidV4 p1 p2 = generateUuidV4 q1 q2 := by
  have hbyte : ∀ {x y : UInt64} {k : Nat},
      (∀ b < 8, x.toNat.testBit (8 * k + b) = y.toNat.testBit (8 * k + b)) →
        leByte x k = leByte y k :=
    fun h => UInt8.toNat.inj <| by
      simpa only [leByte_toNat, Nat.mod_mod] using leByte_mod_eq le_rfl h
  suffices setVersionVariant (unionBytes p1 p2) = setVersionVariant (unionBytes q1 q2) by
    rw [generateUuidV4, generateUuidV4, this]
  funext i
  by_cases h6 : i = 6
  · subst h6
    have := leByte_mod_eq (x := p1) (y := q1) (k := 6) (m := 4) (by omega) fun b hb =>
      h1 _ (by omega) (not_mem_fields.1.2 (by omega))
    apply UInt8.toNat.inj
    rw [setVersionVariant_six, setVersionVariant_six]
    exact congrArg (2 ^ 6 + ·) this
  by_cases h8 : i = 8
  · subst h8
    have := leByte_mod_eq (x := p2) (y := q2) (k := 0) (m := 6) (by omega) fun b hb =>
      h2 _ (by omega) (not_mem_fields.2.2 (by omega))
    apply UInt8.toNat.inj
    rw [setVersionVariant_eight, setVersionVariant_eight]
    exact congrArg (2 ^ 7 + ·) this
  rw [setVersionVariant_of_ne _ h6 h8, setVersionVariant_of_ne _ h6 h8]
  have h6' : i.val ≠ 6 := fun e => h6 (Fin.ext e)
  have h8' : i.val ≠ 8 := fun e => h8 (Fin.ext e)
  by_cases hi : i.val < 8
  · rw [unionBytes_low _ _ hi, unionBytes_low _ _ hi]
    exact hbyte fun b hb => h1 _ (by omega) (not_mem_fields.1.2 (by omega))
  · rw [unionBytes_high _ _ (by omega), unionBytes_high _ _ (by omega)]
    exact hbyte fun b hb => h2 _ (by omega) (not_mem_fields.2.2 (by omega))

/-- Two pairs of draws give one id exactly when they agree on the 122 bits outside the version
and variant fields. -/
theorem generateUuidV4_eq_iff {p1 p2 q1 q2 : UInt64} :
    generateUuidV4 p1 p2 = generateUuidV4 q1 q2 ↔
      (∀ j < 64, j ∉ [52, 53, 54, 55] → p1.toNat.testBit j = q1.toNat.testBit j) ∧
        ∀ j < 64, j ∉ [6, 7] → p2.toNat.testBit j = q2.toNat.testBit j :=
  ⟨generateUuidV4_bits, fun h => generateUuidV4_eq_of_bits h.1 h.2⟩

/-- For every pair of draws: 36 characters, lowercase hex digits in groups of 8, 4, 4, 4 and 12
joined by `-`, with `4` at index 14 and one of `8`, `9`, `a`, `b` at index 19. Read back as hex,
the string gives the union's bytes, each word least significant byte first, where only the high
nibble of byte 6 (now 4) and the top two bits of byte 8 (now `10`) differ from the draws; and
every id determines the other 122 bits of the draws it comes from. -/
theorem generateUuidV4_layout_roundtrip (part1 part2 : UInt64) :
    (generateUuidV4 part1 part2).length = 36 ∧
      (∃ g₁ g₂ g₃ g₄ g₅ : List Char,
        (generateUuidV4 part1 part2).data =
          g₁ ++ '-' :: g₂ ++ '-' :: g₃ ++ '-' :: g₄ ++ '-' :: g₅ ∧
        g₁.length = 8 ∧ g₂.length = 4 ∧ g₃.length = 4 ∧ g₄.length = 4 ∧ g₅.length = 12 ∧
        ∀ c ∈ g₁ ++ g₂ ++ g₃ ++ g₄ ++ g₅, c ∈ hexDigits) ∧
      (generateUuidV4 part1 part2).data[14]? = some '4' ∧
      (∃ c ∈ ['8', '9', 'a', 'b'], (generateUuidV4 part1 part2).data[19]? = some c) ∧
      (∃ d : Fin 16 → UInt8, decodeUuid (generateUuidV4 part1 part2) = some (List.ofFn d) ∧
        (∀ i : Fin 16, i ≠ 6 → i ≠ 8 →
          (d i).toNat =
            (if i.val < 8 then part1 else part2).toNat / 2 ^ (8 * (i.val % 8)) % 2 ^ 8) ∧
        (d 6).toNat / 2 ^ 4 = 4 ∧ (d 6).toNat % 2 ^ 4 = part1.toNat / 2 ^ 48 % 2 ^ 4 ∧
        (d 8).toNat / 2 ^ 6 = 2 ∧ (d 8).toNat % 2 ^ 6 = part2.toNat % 2 ^ 6) ∧
      ∀ q1 q2, generateUuidV4 q1 q2 = generateUuidV4 part1 part2 →
        (∀ j < 64, j ∉ [52, 53, 54, 55] → q1.toNat.testBit j = part1.toNat.testBit j) ∧
        ∀ j < 64, j ∉ [6, 7] → q2.toNat.testBit j = part2.toNat.testBit j := by
  have h6 : (setVersionVariant (unionBytes part1 part2) 6).toNat =
      2 ^ 6 + part1.toNat / 2 ^ 48 % 2 ^ 8 % 16 := by
    rw [setVersionVariant_six, show unionBytes part1 part2 6 = leByte part1 6 from rfl,
      leByte_toNat]
  have h8 : (setVersionVariant (unionBytes part1 part2) 8).toNat =
      2 ^ 7 + part2.toNat % 2 ^ 8 % 64 := by
    rw [setVersionVariant_eight, show unionBytes part1 part2 8 = leByte part2 0 from rfl,
      leByte_toNat,
      Nat.mul_zero, Nat.pow_zero, Nat.div_one]
  refine ⟨by simp [generateUuidV4, formatUuid, hex02], formatUuid_layout _, ?_, ?_,
    ⟨_, decodeUuid_formatUuid _, fun i hi6 hi8 => ?_, ?_, ?_, ?_, ?_⟩,
    fun q1 q2 hq => generateUuidV4_bits hq⟩
  · show (formatUuid _)[14]? = _
    rw [formatUuid_fourteen,
      show (setVersionVariant (unionBytes part1 part2) 6).toNat / 16 = 4 by omega]
    rfl
  · exact ⟨_, hexDigit_variant _ (by omega) (by omega), formatUuid_nineteen _⟩
  · rw [setVersionVariant_of_ne _ hi6 hi8]
    by_cases hi : i.val < 8
    · rw [unionBytes_low _ _ hi, leByte_toNat, if_pos hi, Nat.mod_eq_of_lt hi]
    · rw [unionBytes_high _ _ (by omega), leByte_toNat, if_neg hi,
        show i.val - 8 = i.val % 8 by omega]
  all_goals omega

theorem generateUuidV4_layout_roundtrip_fields :
    generateUuidV4 0xF0000000000000 0xC0 = generateUuidV4 0 0 ∧
      ∀ j < 64, j ∉ [52, 53, 54, 55] →
        (0xF0000000000000 : UInt64).toNat.testBit j = (0 : UInt64).toNat.testBit j :=
  have h : generateUuidV4 0xF0000000000000 0xC0 = generateUuidV4 0 0 := by decide
  ⟨h, ((generateUuidV4_layout_roundtrip 0 0).2.2.2.2.2 _ _ h).1⟩

example : generateUuidV4 0 0 = "00000000-0000-4000-8000-000000000000" := by decide

example : generateUuidV4 0x0123456789ABCDEF 0xFEDCBA9876543210 =
    "efcdab89-6745-4301-9032-547698badcfe" := by decide

end Blackbox
