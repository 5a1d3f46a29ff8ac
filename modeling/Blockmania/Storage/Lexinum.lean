/-
# Numbers that sort as their encodings

Keys of the database hold node ids and rounds, and the database goes through its keys
in bytewise order. `encode` writes a number so that encodings sort as the numbers do.
Small numbers take three digits in base 255. A large one takes the number of its
digits, the digits in base 253, and a last digit in base 255 behind a separator. No
byte of an encoding is zero, so a zero byte can stand behind it.

The arithmetic is that of machine words. `ideal` is the same format in unbounded
arithmetic, and the two agree on every word.
-/

import Mathlib.Data.Nat.Digits.Lemmas
import Blockmania.Math.Lexicographic

namespace Blockmania.Lexinum

open Math List

def maxSmall : UInt64 := 8258175

/-- The loop of `pow`. -/
def powLoop (n a b : UInt64) : UInt64 :=
  if b > 0 then powLoop (if b &&& 1 ≠ 0 then n * a else n) (a * a) (b >>> 1) else n
termination_by b.toNat
decreasing_by
  rename_i hpos
  have hpos : 0 < b.toNat := UInt64.lt_iff_toNat_lt.mp hpos
  rw [UInt64.toNat_shiftRight]
  change b.toNat >>> 1 < b.toNat
  omega

def pow (a b : UInt64) : UInt64 := powLoop 1 a b

/-- The powers are those of unbounded arithmetic, up to the size of a word. -/
theorem toNat_powLoop (n a b : UInt64) :
    (powLoop n a b).toNat = n.toNat * a.toNat ^ b.toNat % 2 ^ 64 := by
  induction n, a, b using powLoop.induct with
  | case1 n a b hpos ih =>
    simp only [dite_eq_ite] at ih
    rw [powLoop, if_pos hpos, ih]
    have hhalf : (b >>> 1).toNat = b.toNat / 2 := by
      rw [UInt64.toNat_shiftRight]
      change b.toNat >>> 1 = b.toNat / 2
      omega
    have hbit : (b &&& 1).toNat = b.toNat % 2 := by
      rw [UInt64.toNat_and]
      exact Nat.and_one_is_mod _
    have hsquare : ∀ k : Nat, ((a * a).toNat ^ k) % 2 ^ 64 = (a.toNat ^ (2 * k)) % 2 ^ 64 := by
      intro k
      rw [UInt64.toNat_mul, ← Nat.pow_mod, Nat.pow_mul, sq]
    have hsplit := Nat.div_add_mod b.toNat 2
    rw [hhalf, Nat.mul_mod, hsquare, ← Nat.mul_mod]
    split
    · rename_i hodd
      have hone : b.toNat % 2 = 1 := by
        have hne : (b &&& 1).toNat ≠ 0 := fun h => hodd (UInt64.toNat_inj.mp h)
        omega
      rw [hone] at hsplit
      rw [UInt64.toNat_mul, Nat.mod_mul_mod, Nat.mul_assoc, ← Nat.pow_succ',
        Nat.succ_eq_add_one, hsplit]
    · rename_i heven
      have hzero : b.toNat % 2 = 0 := by
        rw [← hbit, not_not.mp heven]
        rfl
      rw [hzero, Nat.add_zero] at hsplit
      rw [hsplit]
  | case2 n a b hpos =>
    have hzero : b.toNat = 0 := by
      by_contra hne
      exact hpos (UInt64.lt_iff_toNat_lt.mpr (Nat.pos_of_ne_zero hne))
    rw [powLoop, if_neg hpos, hzero, Nat.pow_zero, Nat.mul_one, Nat.mod_eq_of_lt n.toNat_lt]

variable {n lead v : UInt64} {x a b m : Nat} {d : List UInt8}

/-- Eight digits in base 253 fit into a word. -/
theorem toNat_pow (hn : n ≤ 8) : (pow 253 n).toNat = 253 ^ n.toNat := by
  rw [pow, toNat_powLoop]
  change 1 * 253 ^ n.toNat % 2 ^ 64 = 253 ^ n.toNat
  rw [Nat.one_mul]
  apply Nat.mod_eq_of_lt
  have hbound : n.toNat ≤ 8 := UInt64.le_iff_toNat_le.mp hn
  exact lt_of_le_of_lt (Nat.pow_le_pow_right (by decide) hbound) (by decide)

theorem toNat_succ_of_lt (hn : n < 8) : (n + 1).toNat = n.toNat + 1 := by
  have hbound : n.toNat < 8 := UInt64.lt_iff_toNat_lt.mp hn
  rw [UInt64.toNat_add]
  exact Nat.mod_eq_of_lt (by change n.toNat + 1 < 2 ^ 64; omega)

theorem succ_le_of_lt (hn : n < 8) : n + 1 ≤ 8 := by
  rw [UInt64.le_iff_toNat_le, toNat_succ_of_lt hn]
  exact UInt64.lt_iff_toNat_lt.mp hn

/-- A number with at most eight digits does not have more. -/
theorem lt_of_div_pow_pos (hlead : lead < pow 253 8) (hn : n ≤ 8) (h : lead / pow 253 n > 0) :
    n < 8 := by
  refine UInt64.lt_of_le_of_ne hn fun heq => ?_
  rw [heq, gt_iff_lt, UInt64.lt_iff_toNat_lt, UInt64.toNat_div,
    Nat.div_eq_of_lt (UInt64.lt_iff_toNat_lt.mp hlead)] at h
  exact absurd h (lt_irrefl _)

/-- Count the digits of a number in base 253, from `n` on. There are at most eight. -/
def countDigits (lead : UInt64) (hlead : lead < pow 253 8) (n : UInt64) (hn : n ≤ 8) : UInt64 :=
  if h : lead / pow 253 n > 0 then
    countDigits lead hlead (n + 1) (succ_le_of_lt (lt_of_div_pow_pos hlead hn h))
  else n
termination_by 8 - n.toNat
decreasing_by
  have hlt := lt_of_div_pow_pos hlead hn h
  have hbound : n.toNat < 8 := UInt64.lt_iff_toNat_lt.mp hlt
  rw [toNat_succ_of_lt hlt]
  omega

/-- The digits in base 253, each moved up by two, from the least significant one on. -/
def digits (lead : UInt64) : List UInt8 :=
  if lead = 0 then [] else (lead % 253 + 2).toUInt8 :: digits (lead / 253)
termination_by lead.toNat
decreasing_by
  rename_i hne
  have hpos : lead.toNat ≠ 0 := fun h => hne (UInt64.toNat_inj.mp h)
  rw [UInt64.toNat_div]
  exact Nat.div_lt_self (Nat.pos_of_ne_zero hpos) (by decide)

/-- What is left of a word behind the small numbers has at most eight digits. -/
theorem lead_lt (v : UInt64) : (v - maxSmall) / 255 < pow 253 8 := by
  rw [UInt64.lt_iff_toNat_lt, toNat_pow (by decide), UInt64.toNat_div]
  have hbound := (v - maxSmall).toNat_lt
  change (v - maxSmall).toNat / 255 < 253 ^ 8
  omega

def encode (v : UInt64) : List UInt8 :=
  if v = 0 then [0x80, 0x01, 0x01]
  else if v < maxSmall then
    let (div, mod) := (v / 255, v % 255)
    let enc2 := (mod + 1).toUInt8
    if div > 0 then
      let (div, mod) := (div / 255, div % 255)
      let enc1 := (mod + 1).toUInt8
      if div > 0 then [(div + 128).toUInt8, enc1, enc2] else [0x80, enc1, enc2]
    else [0x80, 0x01, enc2]
  else
    let n := countDigits ((v - maxSmall) / 255) (lead_lt v) 1 (by decide)
    let rem := (v - maxSmall) % 255
    [0xff, n.toUInt8 + 1] ++ (digits ((v - maxSmall) / 255)).reverse ++
      if rem > 0 then [0x01, rem.toUInt8] else []

/-- What goes wrong with an encoding. The last one is not reported but a crash. -/
inductive Malformed
  | tooShort
  | notPositive (first : UInt8)
  | tooShortSmall
  | indexOutOfRange
  deriving DecidableEq, Repr

/-- A byte below 128 as a quoted character, escaped where it cannot be printed. -/
def quoted (c : UInt8) : String :=
  let hex := "0123456789abcdef".toList
  let body :=
    match c.toNat with
    | 7 => "\\a"
    | 8 => "\\b"
    | 9 => "\\t"
    | 10 => "\\n"
    | 11 => "\\v"
    | 12 => "\\f"
    | 13 => "\\r"
    | 39 => "\\'"
    | 92 => "\\\\"
    | n =>
      if n < 32 ∨ n = 127 then "\\x" ++ String.ofList [hex.getD (n / 16) '0', hex.getD (n % 16) '0']
      else String.singleton (Char.ofNat n)
  "'" ++ body ++ "'"

/-- The text of an error. -/
def Malformed.text : Malformed → String
  | tooShort => "lexinum: received too small a slice to decode"
  | notPositive first =>
    "lexinum: only support for positive numbers have been implemented: received first byte " ++
      quoted first
  | tooShortSmall => "lexinum: received too small a slice to decode a small positive integer"
  | indexOutOfRange => ""

/-- The large numbers: digits up to the separator, and the last digit behind it. -/
def decodeDigits : List UInt8 → UInt64 → Except Malformed (UInt64 × UInt64)
  | [], v => .ok (v, 0)
  | char :: rest, v =>
    if char = 0x01 then
      match rest.head? with
      | none => .error .indexOutOfRange
      | some rem => .ok (v, rem.toUInt64)
    else decodeDigits rest (v + (v * 252 + (char - 2).toUInt64))

def decode (d : List UInt8) : Except Malformed UInt64 :=
  match d with
  | d0 :: d1 :: rest =>
    if d0 < 0x80 then .error (.notPositive d0)
    else if d0 = 0xff then do
      let (v, rem) ← decodeDigits rest 0
      return v * 255 + rem + maxSmall
    else
      match rest with
      | [] => .error .tooShortSmall
      | d2 :: _ =>
        .ok (((d0 - 128).toUInt64 * 255 + (d1 - 1).toUInt64) * 255 + (d2 - 1).toUInt64)
  | _ => .error .tooShort

/-- The format of large numbers in unbounded arithmetic, after the small ones are
subtracted. -/
def idealLarge (x : Nat) : List Nat :=
  let lead := Nat.digits 253 (x / 255)
  let rem := x % 255
  255 :: (max 1 lead.length + 1) :: ((lead.map (· + 2)).reverse ++ if rem > 0 then [1, rem] else [])

/-- The format in unbounded arithmetic. -/
def ideal (v : Nat) : List Nat :=
  if v < 8258175 then [v / 65025 + 128, v / 255 % 255 + 1, v % 255 + 1]
  else idealLarge (v - 8258175)

/-- The loop finds the number of digits, and at least one. -/
theorem toNat_countDigits (hlead : lead < pow 253 8) (hn : n ≤ 8)
    (hbelow : n.toNat ≤ max 1 (Nat.digits 253 lead.toNat).length) (hpos : 1 ≤ n.toNat) :
    (countDigits lead hlead n hn).toNat = max 1 (Nat.digits 253 lead.toNat).length := by
  induction n, hn using countDigits.induct lead hlead with
  | case1 n hn h ih =>
    have hlt := lt_of_div_pow_pos hlead hn h
    rw [countDigits, dif_pos h]
    apply ih
    · rw [gt_iff_lt, UInt64.lt_iff_toNat_lt, UInt64.toNat_div, toNat_pow hn] at h
      have hdigits : n.toNat < (Nat.digits 253 lead.toNat).length := by
        rw [Nat.lt_digits_length_iff (by decide)]
        exact (Nat.div_pos_iff.mp h).2
      rw [toNat_succ_of_lt hlt]
      omega
    · rw [toNat_succ_of_lt hlt]
      omega
  | case2 n hn h =>
    rw [countDigits, dif_neg h]
    rw [gt_iff_lt, UInt64.lt_iff_toNat_lt, UInt64.toNat_div, toNat_pow hn, not_lt] at h
    have hdigits : (Nat.digits 253 lead.toNat).length ≤ n.toNat := by
      rw [Nat.digits_length_le_iff (by decide)]
      exact (Nat.div_eq_zero_iff.mp (Nat.le_zero.mp h)).resolve_left (by positivity)
    omega

/-- A sum that fits into a byte. -/
theorem toNat_byte {x y : UInt64} (h : x.toNat + y.toNat < 256) :
    (x + y).toUInt8.toNat = x.toNat + y.toNat := by
  rw [UInt64.toNat_toUInt8, UInt64.toNat_add]
  omega

theorem map_digits (lead : UInt64) :
    (digits lead).map UInt8.toNat = (Nat.digits 253 lead.toNat).map (· + 2) := by
  induction lead using digits.induct with
  | case1 => simp [digits]
  | case2 lead hne ih =>
    have hpos : lead.toNat ≠ 0 := fun h => hne (UInt64.toNat_inj.mp h)
    rw [digits, if_neg hne, Nat.digits_def' (by decide) (Nat.pos_of_ne_zero hpos), map_cons,
      map_cons, ih, UInt64.toNat_div]
    congr 1
    have hmod : (lead % 253).toNat = lead.toNat % 253 := UInt64.toNat_mod _ _
    rw [toNat_byte (by rw [hmod]; change lead.toNat % 253 + 2 < 256; omega), hmod]
    rfl

theorem toNat_maxSmall : maxSmall.toNat = 8258175 := rfl

/-- Three digits in base 255. -/
theorem map_encode_small (hsmall : v.toNat < 8258175) :
    (encode v).map UInt8.toNat = [v.toNat / 65025 + 128, v.toNat / 255 % 255 + 1, v.toNat % 255 + 1] := by
  have hlast : (v % 255).toNat = v.toNat % 255 := UInt64.toNat_mod _ _
  have hrest : (v / 255).toNat = v.toNat / 255 := UInt64.toNat_div _ _
  have hmiddle : (v / 255 % 255).toNat = v.toNat / 255 % 255 := by
    rw [UInt64.toNat_mod, hrest]
    rfl
  have hfirst : (v / 255 / 255).toNat = v.toNat / 65025 := by
    rw [UInt64.toNat_div, hrest]
    exact Nat.div_div_eq_div_mul _ _ _
  have hbyte : ∀ x : UInt64, x.toNat < 255 → (x + 1).toUInt8.toNat = x.toNat + 1 :=
    fun x hx => toNat_byte (by change x.toNat + 1 < 256; omega)
  unfold encode
  split
  · rename_i hzero
    rw [hzero]
    rfl
  rw [if_pos (UInt64.lt_iff_toNat_lt.mpr hsmall)]
  dsimp only
  split
  · split
    · simp only [map_cons, map_nil]
      rw [toNat_byte (by rw [hfirst]; change v.toNat / 65025 + 128 < 256; omega),
        hbyte _ (by omega), hbyte _ (by omega), hfirst, hmiddle, hlast]
      rfl
    · rename_i hnone
      rw [gt_iff_lt, UInt64.lt_iff_toNat_lt, hfirst, not_lt] at hnone
      simp only [map_cons, map_nil]
      rw [hbyte _ (by omega), hbyte _ (by omega), hmiddle, hlast, Nat.le_zero.mp hnone]
      rfl
  · rename_i hnone
    rw [gt_iff_lt, UInt64.lt_iff_toNat_lt, hrest, not_lt] at hnone
    simp only [map_cons, map_nil]
    have hzero : v.toNat / 65025 = 0 := by
      have hle : v.toNat / 255 = 0 := Nat.le_zero.mp hnone
      omega
    rw [hbyte _ (by omega), hlast, hzero, Nat.le_zero.mp hnone]
    rfl

/-- The digits of a large number, with their number and a last digit. -/
theorem encode_large (hlarge : ¬ v < maxSmall) (hx : (v - maxSmall).toNat = x) :
    (encode v).map UInt8.toNat = idealLarge x := by
  have hne : v ≠ 0 := by
    rintro rfl
    exact hlarge (by decide)
  have hlead : ((v - maxSmall) / 255).toNat = x / 255 := by
    rw [UInt64.toNat_div, hx]
    rfl
  have hrem : ((v - maxSmall) % 255).toNat = x % 255 := by
    rw [UInt64.toNat_mod, hx]
    rfl
  have hcount := toNat_countDigits (lead_lt v) (n := 1) (by decide) (le_max_left _ _) le_rfl
  have hfew : (countDigits ((v - maxSmall) / 255) (lead_lt v) 1 (by decide)).toNat ≤ 8 := by
    rw [hcount, max_le_iff, Nat.digits_length_le_iff (by decide)]
    exact ⟨by decide, toNat_pow (n := 8) (by decide) ▸ UInt64.lt_iff_toNat_lt.mp (lead_lt v)⟩
  have hnumber : ((countDigits ((v - maxSmall) / 255) (lead_lt v) 1 (by decide)).toUInt8 + 1).toNat =
      max 1 (Nat.digits 253 (x / 255)).length + 1 := by
    rw [← hlead, ← hcount, UInt8.toNat_add, UInt64.toNat_toUInt8]
    generalize (countDigits ((v - maxSmall) / 255) (lead_lt v) 1 (by decide)).toNat = n at hfew
    change (n % 2 ^ 8 + 1) % 2 ^ 8 = n + 1
    omega
  have hlast : List.map UInt8.toNat
      (if (v - maxSmall) % 255 > 0 then [0x01, ((v - maxSmall) % 255).toUInt8] else []) =
      if x % 255 > 0 then [1, x % 255] else [] := by
    have hzero : (v - maxSmall) % 255 > 0 ↔ x % 255 > 0 := by
      rw [gt_iff_lt, UInt64.lt_iff_toNat_lt, hrem]
      rfl
    simp only [hzero]
    split
    · rw [map_cons, map_cons, map_nil, UInt64.toNat_toUInt8, hrem, Nat.mod_eq_of_lt (by omega)]
      rfl
    · rfl
  unfold encode idealLarge
  rw [if_neg hne, if_neg hlarge]
  dsimp only
  rw [map_append, map_append, map_reverse, map_digits, hlead, hlast, map_cons,
    map_cons, map_nil, hnumber]
  rfl

/-- No byte overflows: the encoding of a word is the ideal one. -/
theorem map_encode (v : UInt64) : (encode v).map UInt8.toNat = ideal v.toNat := by
  unfold ideal
  split
  · rename_i hsmall
    exact map_encode_small hsmall
  · rename_i hlarge
    apply encode_large
    · rw [UInt64.lt_iff_toNat_lt, toNat_maxSmall]
      exact hlarge
    · rw [UInt64.toNat_sub_of_le]
      · rfl
      · rw [UInt64.le_iff_toNat_le, toNat_maxSmall]
        exact not_lt.mp hlarge

/-! ## The order -/

/-- Digits compare as numbers, whatever follows them. -/
theorem digits_append_lt {lead lead' : Nat} (hlt : lead < lead')
    (hlength : max 1 (Nat.digits 253 lead).length = max 1 (Nat.digits 253 lead').length)
    {s : List Nat} (hs : ∀ d ∈ s.head?, d < 2) (t : List Nat) :
    ((Nat.digits 253 lead).map (· + 2)).reverse ++ s <
      ((Nat.digits 253 lead').map (· + 2)).reverse ++ t := by
  have hpos : (Nat.digits 253 lead').length ≠ 0 := by
    rw [Ne, length_eq_zero_iff, Nat.digits_eq_nil_iff_eq_zero]
    omega
  by_cases hzero : lead = 0
  · -- a number without digits, and all digits are behind the separator
    rw [hzero, Nat.digits_zero, map_nil, reverse_nil, nil_append]
    obtain ⟨d, ds, hds⟩ := exists_cons_of_ne_nil (l := ((Nat.digits 253 lead').map (· + 2)).reverse)
      (by simpa [Nat.digits_eq_nil_iff_eq_zero] using (show lead' ≠ 0 by omega))
    have hd : 2 ≤ d := by
      have hmem : d ∈ ((Nat.digits 253 lead').map (· + 2)).reverse := by
        rw [hds]
        exact mem_cons_self
      rw [mem_reverse, mem_map] at hmem
      obtain ⟨e, -, rfl⟩ := hmem
      omega
    rw [hds]
    cases s with
    | nil => exact nil_lt_cons _ _
    | cons c s =>
      have hc : c < 2 := hs c rfl
      exact cons_lt_cons_iff.mpr (.inl (by omega))
  · have hpos' : (Nat.digits 253 lead).length ≠ 0 := by
      rw [Ne, length_eq_zero_iff, Nat.digits_eq_nil_iff_eq_zero]
      exact hzero
    have hsame : (Nat.digits 253 lead).length = (Nat.digits 253 lead').length := by omega
    apply append_lt_append_of_lt
    · simpa using hsame
    · apply map_reverse_lt_of_ofDigits_lt (b := 253) (by decide) (fun d e hde => by omega) hsame
      · exact fun d hd => Nat.digits_lt_base (by decide) hd
      · exact fun d hd => Nat.digits_lt_base (by decide) hd
      · rw [Nat.ofDigits_digits, Nat.ofDigits_digits]
        exact hlt

theorem idealLarge_lt_idealLarge {y : Nat} (h : x < y) : idealLarge x < idealLarge y := by
  unfold idealLarge
  dsimp only
  refine cons_lt_cons_iff.mpr (.inr ⟨rfl, ?_⟩)
  rcases lt_or_eq_of_le (Nat.div_le_div_right h.le : x / 255 ≤ y / 255) with hlt | heq
  · have hlength := Nat.le_length_digits_le 253 _ _ hlt.le
    rcases lt_or_eq_of_le (max_le_max_left 1 hlength) with hfewer | hsame
    · exact cons_lt_cons_iff.mpr (.inl (Nat.succ_lt_succ hfewer))
    · refine cons_lt_cons_iff.mpr (.inr ⟨by rw [hsame], digits_append_lt hlt hsame ?_ _⟩)
      intro d hd
      split at hd
      · cases hd
        decide
      · cases hd
  · rw [heq]
    refine cons_lt_cons_iff.mpr (.inr ⟨rfl, append_left_lt ?_⟩)
    have hrem : x % 255 < y % 255 := by omega
    rw [if_pos (show y % 255 > 0 by omega)]
    split
    · exact cons_lt_cons_iff.mpr (.inr ⟨rfl, cons_lt_cons_iff.mpr (.inl hrem)⟩)
    · exact nil_lt_cons _ _

/-- The ideal format sorts as the numbers do. -/
theorem ideal_lt_ideal (h : a < b) : ideal a < ideal b := by
  unfold ideal
  by_cases hb : b < 8258175
  · rw [if_pos (h.trans hb), if_pos hb]
    simp only [cons_lt_cons_iff]
    omega
  rw [if_neg hb]
  split
  · exact cons_lt_cons_iff.mpr (.inl (by omega))
  · exact idealLarge_lt_idealLarge (by omega)

theorem encode_lt_encode_iff {a b : UInt64} : encode a < encode b ↔ a < b := by
  have hword : ∀ v w : UInt64, encode v < encode w ↔ ideal v.toNat < ideal w.toNat := by
    intro v w
    rw [← map_encode, ← map_encode,
      map_lt_map_iff (fun x y => UInt8.lt_iff_toNat_lt.symm) fun _ _ => UInt8.toNat_inj.mp]
  have hmono : StrictMono ideal := fun _ _ => ideal_lt_ideal
  rw [hword, hmono.lt_iff_lt, UInt64.lt_iff_toNat_lt]

theorem encode_injective : Function.Injective encode := by
  intro a b h
  have hmono : StrictMono ideal := fun _ _ => ideal_lt_ideal
  rw [← UInt64.toNat_inj]
  apply hmono.injective
  rw [← map_encode, ← map_encode, h]

theorem zero_not_mem_ideal (v : Nat) : 0 ∉ ideal v := by
  unfold ideal idealLarge
  split
  · simp
  · intro hmem
    dsimp only at hmem
    split at hmem
    · simp at hmem
      omega
    · simp at hmem

/-- A zero byte can be told from an encoding. -/
theorem zero_not_mem_encode (v : UInt64) : 0x00 ∉ encode v := by
  intro hmem
  apply zero_not_mem_ideal v.toNat
  rw [← map_encode]
  exact mem_map_of_mem hmem

/-- Encodings sort as the numbers do, no byte of them is zero, and no product or sum
wraps around on the way. -/
theorem encode_orderEmbedding (a b : UInt64) :
    (a < b ↔ encode a < encode b) ∧ 0x00 ∉ encode a ∧
      (encode a).map UInt8.toNat = ideal a.toNat :=
  ⟨encode_lt_encode_iff.symm, zero_not_mem_encode a, map_encode a⟩

/-- A result that fits into a word. -/
def fitting (n : Nat) : Option Nat := if n < 2 ^ 64 then some n else none

/-- A difference that does not fall below zero. -/
def minus (a b : Nat) : Option Nat := if b ≤ a then some (a - b) else none

/-- `decodeDigits`, as long as no product, sum or difference wraps around. -/
def exactDigits : List Nat → Nat → Option (Nat × Nat)
  | [], v => some (v, 0)
  | char :: rest, v =>
    if char = 1 then rest.head?.map fun rem => (v, rem)
    else do
      let scaled ← fitting (v * 252)
      let digit ← minus char 2
      let added ← fitting (scaled + digit)
      let v ← fitting (v + added)
      exactDigits rest v

/-- `decode`, as long as no product, sum or difference wraps around. -/
def exactDecode (d : List Nat) : Option Nat :=
  match d with
  | d0 :: d1 :: rest =>
    if d0 < 128 then none
    else if d0 = 255 then do
      let (v, rem) ← exactDigits rest 0
      let scaled ← fitting (v * 255)
      let lead ← fitting (scaled + rem)
      fitting (lead + maxSmall.toNat)
    else
      match rest with
      | [] => none
      | d2 :: _ => do
        let high ← minus d0 128
        let middle ← minus d1 1
        let low ← minus d2 1
        let high ← fitting (high * 255)
        let upper ← fitting (high + middle)
        let upper ← fitting (upper * 255)
        fitting (upper + low)
  | _ => none

theorem fitting_eq_some {n : Nat} : fitting n = some m ↔ n < 2 ^ 64 ∧ n = m := by
  rw [fitting, Option.ite_none_right_eq_some, Option.some.injEq]

theorem minus_eq_some : minus a b = some m ↔ b ≤ a ∧ a - b = m := by
  rw [minus, Option.ite_none_right_eq_some, Option.some.injEq]

theorem minus_add (a b : Nat) : minus (a + b) b = some a :=
  minus_eq_some.mpr ⟨Nat.le_add_left b a, Nat.add_sub_cancel a b⟩

theorem toNat_mul_of_fitting {a b : UInt64} {n : Nat} (h : fitting (a.toNat * b.toNat) = some n) :
    (a * b).toNat = n := by
  obtain ⟨hlt, rfl⟩ := fitting_eq_some.mp h
  rw [UInt64.toNat_mul, Nat.mod_eq_of_lt hlt]

theorem toNat_add_of_fitting {a b : UInt64} {n : Nat} (h : fitting (a.toNat + b.toNat) = some n) :
    (a + b).toNat = n := by
  obtain ⟨hlt, rfl⟩ := fitting_eq_some.mp h
  rw [UInt64.toNat_add, Nat.mod_eq_of_lt hlt]

theorem toNat_sub_of_minus {a b : UInt8} {n : Nat} (h : minus a.toNat b.toNat = some n) :
    (a - b).toUInt64.toNat = n := by
  obtain ⟨hle, rfl⟩ := minus_eq_some.mp h
  rw [UInt8.toNat_toUInt64, UInt8.toNat_sub_of_le _ _ (UInt8.le_iff_toNat_le.mpr hle)]

/-- Digits that are read without wrapping around are read as they are. -/
theorem decodeDigits_of_exact {n rem : Nat}
    (h : exactDigits (d.map UInt8.toNat) v.toNat = some (n, rem)) :
    ∃ v' rem' : UInt64, decodeDigits d v = .ok (v', rem') ∧ v'.toNat = n ∧ rem'.toNat = rem := by
  induction d generalizing v n rem with
  | nil =>
    cases h
    exact ⟨v, 0, rfl, rfl, rfl⟩
  | cons char rest ih =>
    have hbyte : char.toNat = 1 ↔ char = 0x01 := @UInt8.toNat_inj char 0x01
    rw [map_cons, exactDigits] at h
    rw [decodeDigits]
    by_cases hmark : char = 0x01
    · rw [if_pos (hbyte.mpr hmark), List.head?_map] at h
      rw [if_pos hmark]
      cases hhead : rest.head? with
      | none =>
        rw [hhead] at h
        cases h
      | some byte =>
        rw [hhead] at h
        cases h
        exact ⟨v, byte.toUInt64, rfl, rfl, UInt8.toNat_toUInt64 byte⟩
    · rw [if_neg (hbyte.not.mpr hmark)] at h
      rw [if_neg hmark]
      obtain ⟨scaled, hscaled, h⟩ := Option.bind_eq_some_iff.mp h
      obtain ⟨digit, hdigit, h⟩ := Option.bind_eq_some_iff.mp h
      obtain ⟨added, hadded, h⟩ := Option.bind_eq_some_iff.mp h
      obtain ⟨next, hnext, h⟩ := Option.bind_eq_some_iff.mp h
      have hscaled' : (v * 252).toNat = scaled := toNat_mul_of_fitting hscaled
      have hdigit' : (char - 2).toUInt64.toNat = digit := toNat_sub_of_minus hdigit
      rw [← hscaled', ← hdigit'] at hadded
      have hadded' := toNat_add_of_fitting hadded
      rw [← hadded'] at hnext
      rw [← toNat_add_of_fitting hnext] at h
      exact ih h

/-- What is decoded without wrapping around is decoded as it is. -/
theorem decode_of_exact (h : exactDecode (d.map UInt8.toNat) = some v.toNat) :
    decode d = .ok v := by
  match d, h with
  | d0 :: d1 :: rest, h =>
    rw [map_cons, map_cons] at h
    unfold exactDecode at h
    dsimp only at h
    have hsign : d0 < 0x80 ↔ d0.toNat < 128 := UInt8.lt_iff_toNat_lt
    have hbyte : d0.toNat = 255 ↔ d0 = 0xff := @UInt8.toNat_inj d0 0xff
    have hpositive : ¬ d0 < 0x80 := by
      intro hlt
      rw [if_pos (hsign.mp hlt)] at h
      cases h
    rw [if_neg (hsign.not.mp hpositive)] at h
    unfold decode
    dsimp only
    rw [if_neg hpositive]
    by_cases hlarge : d0 = 0xff
    · rw [if_pos (hbyte.mpr hlarge)] at h
      rw [if_pos hlarge]
      obtain ⟨⟨n, rem⟩, hdigits, h⟩ := Option.bind_eq_some_iff.mp h
      obtain ⟨v', rem', hdecode, rfl, rfl⟩ := decodeDigits_of_exact (v := 0) hdigits
      obtain ⟨scaled, hscaled, h⟩ := Option.bind_eq_some_iff.mp h
      obtain ⟨lead, hlead, hlarge⟩ := Option.bind_eq_some_iff.mp h
      have hscaled' : (v' * 255).toNat = scaled := toNat_mul_of_fitting hscaled
      rw [← hscaled'] at hlead
      have hlead' := toNat_add_of_fitting hlead
      rw [← hlead'] at hlarge
      have hv : (v' * 255 + rem' + maxSmall).toNat = v.toNat := toNat_add_of_fitting hlarge
      rw [hdecode]
      exact congrArg Except.ok (UInt64.toNat_inj.mp hv)
    · rw [if_neg (hbyte.not.mpr hlarge)] at h
      rw [if_neg hlarge]
      match rest, h with
      | d2 :: tail, h =>
        obtain ⟨high, hhigh, h⟩ := Option.bind_eq_some_iff.mp h
        obtain ⟨middle, hmiddle, h⟩ := Option.bind_eq_some_iff.mp h
        obtain ⟨low, hlow, h⟩ := Option.bind_eq_some_iff.mp h
        obtain ⟨high', hhigh', h⟩ := Option.bind_eq_some_iff.mp h
        obtain ⟨upper, hupper, h⟩ := Option.bind_eq_some_iff.mp h
        obtain ⟨upper', hupper', h⟩ := Option.bind_eq_some_iff.mp h
        have hd0 : (d0 - 128).toUInt64.toNat = high := toNat_sub_of_minus hhigh
        have hd1 : (d1 - 1).toUInt64.toNat = middle := toNat_sub_of_minus hmiddle
        have hd2 : (d2 - 1).toUInt64.toNat = low := toNat_sub_of_minus hlow
        rw [← hd0] at hhigh'
        have hproduct : ((d0 - 128).toUInt64 * 255).toNat = high' := toNat_mul_of_fitting hhigh'
        rw [← hproduct, ← hd1] at hupper
        have hsum := toNat_add_of_fitting hupper
        rw [← hsum] at hupper'
        have hproduct' : (((d0 - 128).toUInt64 * 255 + (d1 - 1).toUInt64) * 255).toNat = upper' :=
          toNat_mul_of_fitting hupper'
        rw [← hproduct', ← hd2] at h
        exact congrArg Except.ok (UInt64.toNat_inj.mp (toNat_add_of_fitting h))

/-- The digits of a number are read back, whatever follows them. -/
theorem exactDigits_digits {lead : Nat} (hlead : lead < 2 ^ 64) (rest : List Nat) :
    exactDigits (((Nat.digits 253 lead).map (· + 2)).reverse ++ rest) 0 = exactDigits rest lead := by
  induction lead using Nat.strongRec generalizing rest with
  | ind lead ih =>
    by_cases hzero : lead = 0
    · rw [hzero, Nat.digits_zero]
      rfl
    have hsmaller : lead / 253 < lead := Nat.div_lt_self (Nat.pos_of_ne_zero hzero) (by decide)
    rw [Nat.digits_def' (by decide) (Nat.pos_of_ne_zero hzero), map_cons, reverse_cons,
      append_assoc, ih _ hsmaller (by omega), singleton_append, exactDigits,
      if_neg (by omega)]
    have hscaled : fitting (lead / 253 * 252) = some (lead / 253 * 252) := if_pos (by omega)
    have hadded : fitting (lead / 253 * 252 + lead % 253) = some (lead / 253 * 252 + lead % 253) :=
      if_pos (by omega)
    have hnext : fitting (lead / 253 + (lead / 253 * 252 + lead % 253)) = some lead := by
      rw [fitting_eq_some]
      omega
    simp only [hscaled, minus_add, hadded, hnext, Option.bind_eq_bind, Option.bind_some]

theorem exactDecode_small {c : Nat} (ha : a < 127) (hb : b < 255) (hc : c < 255) :
    exactDecode [a + 128, b + 1, c + 1] = some ((a * 255 + b) * 255 + c) := by
  have hhigh : fitting (a * 255) = some (a * 255) := fitting_eq_some.mpr ⟨by omega, rfl⟩
  have hupper : fitting (a * 255 + b) = some (a * 255 + b) := fitting_eq_some.mpr ⟨by omega, rfl⟩
  have hupper' : fitting ((a * 255 + b) * 255) = some ((a * 255 + b) * 255) :=
    fitting_eq_some.mpr ⟨by omega, rfl⟩
  have hsum : fitting ((a * 255 + b) * 255 + c) = some ((a * 255 + b) * 255 + c) :=
    fitting_eq_some.mpr ⟨by omega, rfl⟩
  rw [exactDecode, if_neg (by omega), if_neg (by omega), minus_add, minus_add, minus_add]
  simp only [hhigh, hupper, hupper', hsum, Option.bind_eq_bind, Option.bind_some]

theorem exactDecode_large {d1 v rem : Nat} {rest : List Nat} (h : exactDigits rest 0 = some (v, rem)) :
    exactDecode (255 :: d1 :: rest) = (fitting (v * 255)).bind fun scaled =>
      (fitting (scaled + rem)).bind fun lead => fitting (lead + maxSmall.toNat) := by
  have hunfold : exactDecode (255 :: d1 :: rest) = (exactDigits rest 0).bind fun r =>
      (fitting (r.1 * 255)).bind fun scaled => (fitting (scaled + r.2)).bind fun lead =>
        fitting (lead + maxSmall.toNat) := rfl
  rw [hunfold, h, Option.bind_some]

theorem exactDecode_idealLarge (hx : x + maxSmall.toNat < 2 ^ 64) :
    exactDecode (idealLarge x) = some (x + maxSmall.toNat) := by
  have hx' : x < 2 ^ 64 := (Nat.le_add_right _ _).trans_lt hx
  have hdigits : exactDigits (((Nat.digits 253 (x / 255)).map (· + 2)).reverse ++
      if x % 255 > 0 then [1, x % 255] else []) 0 = some (x / 255, x % 255) := by
    rw [exactDigits_digits (by omega)]
    split
    · rfl
    · rename_i hzero
      rw [Nat.le_zero.mp (not_lt.mp hzero)]
      rfl
  have hscaled : fitting (x / 255 * 255) = some (x / 255 * 255) := fitting_eq_some.mpr ⟨by omega, rfl⟩
  have hlead : fitting (x / 255 * 255 + x % 255) = some x := fitting_eq_some.mpr (by omega)
  have hsum : fitting (x + maxSmall.toNat) = some (x + maxSmall.toNat) := fitting_eq_some.mpr ⟨hx, rfl⟩
  rw [idealLarge, exactDecode_large hdigits, hscaled, Option.bind_some, hlead, Option.bind_some, hsum]

/-- Nothing wraps around while the ideal format of a word is read. -/
theorem exactDecode_ideal {v : Nat} (hv : v < 2 ^ 64) : exactDecode (ideal v) = some v := by
  unfold ideal
  split
  · rename_i hsmall
    rw [exactDecode_small (by omega) (by omega) (by omega)]
    congr 1
    omega
  · rename_i hlarge
    have hv' : v - 8258175 + maxSmall.toNat = v := Nat.sub_add_cancel (not_lt.mp hlarge)
    rw [exactDecode_idealLarge (hv'.trans_lt hv), hv']

theorem exactDecode_encode (v : UInt64) : exactDecode ((encode v).map UInt8.toNat) = some v.toNat := by
  rw [map_encode]
  exact exactDecode_ideal v.toNat_lt

/-- A number is read back from its encoding. -/
theorem decode_encode (v : UInt64) : decode (encode v) = .ok v :=
  decode_of_exact (exactDecode_encode v)

/-- Decoding undoes encoding on all words, and no product, sum or difference wraps around
on the way. -/
theorem decode_encode_exact (v : UInt64) :
    decode (encode v) = .ok v ∧ exactDecode ((encode v).map UInt8.toNat) = some v.toNat :=
  ⟨decode_of_exact (exactDecode_encode v), exactDecode_encode v⟩

end Blockmania.Lexinum
