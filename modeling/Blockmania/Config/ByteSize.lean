/-
# Sizes in the configuration

A size is written as a decimal number and a unit. It is read from its end: up to the last
digit everything is the unit, and what is before has to be a number. The value is stored
before the unit is known and then multiplied in place, modulo `2 ^ 64`. A string with no
digit is not read as a number at all, so its unit multiplies what was stored before.
-/

import Mathlib.Data.List.TakeWhile
import Mathlib.Data.Nat.Digits.Defs

namespace Blockmania.Config

open List

abbrev ByteSize : Type := UInt64

def KB : Nat := 1024

def MB : Nat := 1024 * KB

def GB : Nat := 1024 * MB

def TB : Nat := 1024 * GB

/-- What keeps a size from being read. -/
inductive DecodeError
  /-- The YAML value is not a string. -/
  | unmarshal (text : String)
  /-- `strconv.ParseUint: parsing %q: invalid syntax`. -/
  | invalidSyntax (num : List UInt8)
  /-- `strconv.ParseUint: parsing %q: value out of range`. -/
  | outOfRange (num : List UInt8)
  /-- `config: unable to decode ByteSize value: %q`. -/
  | unknownUnit (raw : List UInt8)
  deriving DecidableEq, Repr

def isDigit (char : UInt8) : Bool := 48 ≤ char && char ≤ 57

/-- One digit of `strconv.ParseUint` of `num`, after the number `n`. -/
def parseDigit (num : List UInt8) (n : Nat) (char : UInt8) : Except DecodeError Nat :=
  if isDigit char then
    let n := n * 10 + (char.toNat - 48)
    if n < 2 ^ 64 then .ok n else .error (.outOfRange num)
  else .error (.invalidSyntax num)

/-- `strconv.ParseUint` of `num`, in base 10 and with 64 bits. -/
def parseUint (num : List UInt8) : Except DecodeError ByteSize := do
  if num = [] then .error (.invalidSyntax num)
  else
    let n ← num.foldlM (parseDigit num) 0
    return .ofNat n

/-- `strconv.FormatUint` in base 10. -/
def formatUint (n : ByteSize) : List UInt8 :=
  if n = 0 then [48] else ((Nat.digits 10 n.toNat).map fun d => .ofNat (48 + d)).reverse

/-- The rune that `string(char)` makes of a byte. -/
def rune (char : UInt8) : Char := .ofNat char.toNat

/-- `strings.ToLower` of the rune of a byte. -/
def toLower (c : Char) : Char :=
  if 'A' ≤ c ∧ c ≤ 'Z' ∨ 'À' ≤ c ∧ c ≤ 'Þ' ∧ c ≠ '×' then .ofNat (c.toNat + 32) else c

/-- The loop of `UnmarshalYAML` over the bytes of `raw` from the last one on, with the
value and the suffix it leaves. -/
def scan (b : ByteSize) : List UInt8 → List Char → Except DecodeError (ByteSize × List Char)
  | [], suffix => .ok (b, suffix)
  | char :: before, suffix =>
    if isDigit char then do
      let val ← parseUint (char :: before).reverse
      return (val, suffix)
    else scan b before (rune char :: suffix)

/-- The switch over the suffix: what the value is multiplied with. -/
def multiplier : List Char → Option Nat
  | [] => some 1
  | ['b'] | ['b', 'y', 't', 'e'] | ['b', 'y', 't', 'e', 's'] => some 1
  | ['k'] | ['k', 'b'] => some KB
  | ['m'] | ['m', 'b'] => some MB
  | ['g'] | ['g', 'b'] => some GB
  | ['t'] | ['t', 'b'] => some TB
  | _ => none

/-- `UnmarshalYAML` on a size that holds `b`, with what its argument returns: what the
size holds after it, and the error. -/
def unmarshalYAML (b : ByteSize) (unmarshal : Except String (List UInt8)) :
    ByteSize × Option DecodeError :=
  match unmarshal with
  | .error text => (b, some (.unmarshal text))
  | .ok raw =>
    match scan b raw.reverse [] with
    | .error err => (b, some err)
    | .ok (val, suffix) =>
      match multiplier (suffix.map toLower) with
      | some m => (val * .ofNat m, none)
      | none => (val, some (.unknownUnit raw))

/-- `MarshalYAML`. The largest unit that divides the value is chosen. -/
def marshalYAML (b : ByteSize) : List UInt8 :=
  if b.toNat % TB = 0 then formatUint (.ofNat (b.toNat / TB)) ++ "TB".toUTF8.data.toList
  else if b.toNat % GB = 0 then formatUint (.ofNat (b.toNat / GB)) ++ "GB".toUTF8.data.toList
  else if b.toNat % MB = 0 then formatUint (.ofNat (b.toNat / MB)) ++ "MB".toUTF8.data.toList
  else if b.toNat % KB = 0 then formatUint (.ofNat (b.toNat / KB)) ++ "KB".toUTF8.data.toList
  else formatUint b ++ "B".toUTF8.data.toList

/-- The number that decimal digits stand for. -/
def value (digits : List UInt8) : Nat := digits.foldl (fun n d => n * 10 + (d.toNat - 48)) 0

section Numbers

variable {num : List UInt8}

theorem le_foldl_digits (n : Nat) (digits : List UInt8) :
    n ≤ digits.foldl (fun n d => n * 10 + (d.toNat - 48)) n := by
  induction digits generalizing n with
  | nil => exact le_rfl
  | cons d digits ih =>
    have hn : n ≤ n * 10 + (d.toNat - 48) := by omega
    exact hn.trans (ih _)

/-- The loop reads digits whose number fits. -/
theorem foldlM_parseDigit_eq_ok_iff {n v : Nat} (num digits : List UInt8) (hn : n < 2 ^ 64) :
    digits.foldlM (parseDigit num) n = .ok v ↔ (∀ d ∈ digits, isDigit d = true) ∧
      digits.foldl (fun n d => n * 10 + (d.toNat - 48)) n = v ∧ v < 2 ^ 64 := by
  induction digits generalizing n with
  | nil =>
    change Except.ok n = Except.ok v ↔ _
    simp only [not_mem_nil, false_implies, implies_true, foldl_nil, true_and, Except.ok.injEq]
    exact ⟨fun h => ⟨h, h ▸ hn⟩, And.left⟩
  | cons d digits ih =>
    rw [foldlM_cons, foldl_cons, forall_mem_cons, parseDigit]
    by_cases hdigit : isDigit d = true
    · rw [if_pos hdigit]
      by_cases hfits : n * 10 + (d.toNat - 48) < 2 ^ 64
      · simp only [hfits, hdigit, if_true, true_and]
        exact ih hfits
      · -- The number only grows from here on.
        have hle := le_foldl_digits (n * 10 + (d.toNat - 48)) digits
        simp only [hfits, if_false]
        exact ⟨fun h => (nomatch h), fun h => absurd h.2.2 (by omega)⟩
    · rw [if_neg hdigit]
      exact ⟨fun h => (nomatch h), fun h => absurd h.1.1 hdigit⟩

/-- What is read as a number: digits, whose number is below `2 ^ 64`. -/
theorem parseUint_eq_ok_iff {v : ByteSize} : parseUint num = .ok v ↔
    num ≠ [] ∧ (∀ d ∈ num, isDigit d = true) ∧ value num = v.toNat := by
  unfold parseUint
  by_cases hnil : num = []
  · simp [hnil]
  rw [if_neg hnil]
  have hloop {n : Nat} := foldlM_parseDigit_eq_ok_iff (v := n) num num (show 0 < 2 ^ 64 by omega)
  constructor
  · intro h
    cases hread : num.foldlM (parseDigit num) 0 with
    | error err =>
      rw [hread] at h
      cases h
    | ok n =>
      rw [hread] at h
      cases h
      obtain ⟨hdigits, hvalue, hlt⟩ := hloop.mp hread
      exact ⟨hnil, hdigits, hvalue.trans (UInt64.toNat_ofNat_of_lt' hlt).symm⟩
  · rintro ⟨-, hdigits, hvalue⟩
    rw [hloop.mpr ⟨hdigits, hvalue, v.toNat_lt⟩]
    exact congrArg Except.ok UInt64.ofNat_toNat

/-- Decimal digits as they are written, the last one first. -/
theorem value_reverse_map {l : List Nat} (h : ∀ d ∈ l, d < 10) :
    value (l.map fun d => UInt8.ofNat (48 + d)).reverse = Nat.ofDigits 10 l := by
  rw [value, foldl_reverse]
  induction l with
  | nil => rfl
  | cons d l ih =>
    rw [forall_mem_cons] at h
    have hd : (UInt8.ofNat (48 + d)).toNat = 48 + d :=
      UInt8.toNat_ofNat_of_lt' ((Nat.add_lt_add_left h.1 48).trans (by decide))
    rw [map_cons, foldr_cons, ih h.2, hd, Nat.ofDigits_cons]
    omega

/-- A number reads as what was written. -/
theorem parseUint_formatUint (n : ByteSize) : parseUint (formatUint n) = .ok n := by
  rw [parseUint_eq_ok_iff, formatUint]
  split
  · rename_i h
    exact ⟨cons_ne_nil _ _, forall_mem_singleton.mpr rfl, congrArg UInt64.toNat h.symm⟩
  rename_i h
  have hlt : ∀ d ∈ Nat.digits 10 n.toNat, d < 10 := fun d hd => Nat.digits_lt_base (by omega) hd
  refine ⟨?_, ?_, ?_⟩
  · rw [Ne, reverse_eq_nil_iff, map_eq_nil_iff, Nat.digits_eq_nil_iff_eq_zero]
    exact fun hzero => h (UInt64.toNat_inj.mp hzero)
  · simp only [mem_reverse, mem_map, forall_exists_index, and_imp]
    rintro _ d hd rfl
    have hdigit : ∀ e < 10, isDigit (.ofNat (48 + e)) = true := by decide
    exact hdigit d (hlt d hd)
  · rw [value_reverse_map hlt, Nat.ofDigits_digits]

end Numbers

/-- What is in front of the suffix. -/
def number (raw : List UInt8) : List UInt8 := (raw.reverse.dropWhile (!isDigit ·)).reverse

/-- What is behind the last digit. -/
def suffix (raw : List UInt8) : List UInt8 := (raw.reverse.takeWhile (!isDigit ·)).reverse

/-- The unit that a suffix stands for, in any case of its letters. -/
def unit (suffix : List UInt8) : Option Nat := multiplier ((suffix.map rune).map toLower)

/-- A string that stands for the number `n` in units of `m` bytes. -/
def Denotes (raw : List UInt8) (n m : Nat) : Prop :=
  ∃ digits suffix, raw = digits ++ suffix ∧ digits ≠ [] ∧ (∀ d ∈ digits, isDigit d = true) ∧
    value digits = n ∧ unit suffix = some m

section Units

variable {b : ByteSize} {raw : List UInt8} {n m : Nat}

theorem number_append_suffix (raw : List UInt8) : number raw ++ suffix raw = raw := by
  rw [number, suffix, ← reverse_append, takeWhile_append_dropWhile, reverse_reverse]

theorem number_eq_nil_iff : number raw = [] ↔ ∀ c ∈ raw, isDigit c = false := by
  simp [number, dropWhile_eq_nil_iff]

theorem scan_eq (l : List UInt8) (acc : List Char) : scan b l acc =
    if l.dropWhile (!isDigit ·) = [] then
      .ok (b, (l.takeWhile (!isDigit ·)).reverse.map rune ++ acc)
    else (parseUint (l.dropWhile (!isDigit ·)).reverse).map fun val =>
      (val, (l.takeWhile (!isDigit ·)).reverse.map rune ++ acc) := by
  induction l generalizing acc with
  | nil => rfl
  | cons c l ih =>
    rw [scan]
    cases hc : isDigit c with
    | true =>
      rw [dropWhile_cons_of_neg (by simp [hc]), takeWhile_cons_of_neg (by simp [hc]),
        if_neg (cons_ne_nil c l), if_pos rfl]
      cases parseUint (c :: l).reverse <;> rfl
    | false => simp [ih, hc]

theorem scan_reverse (raw : List UInt8) : scan b raw.reverse [] =
    if number raw = [] then .ok (b, (suffix raw).map rune)
    else (parseUint (number raw)).map fun val => (val, (suffix raw).map rune) := by
  simp only [scan_eq, number, suffix, append_nil, reverse_eq_nil_iff]

/-- The letters of the units, and their sizes. -/
theorem multiplier_eq_some {suffix : List Char} (h : multiplier suffix = some m) :
    (∀ c ∈ suffix, c ∈ ['b', 'y', 't', 'e', 's', 'k', 'm', 'g']) ∧ 0 < m := by
  unfold multiplier at h
  split at h <;> cases h <;> exact ⟨by simp, by decide⟩

theorem digitless_of_unit {suffix : List UInt8} (h : unit suffix = some m) :
    ∀ c ∈ suffix, isDigit c = false := by
  have hletter : ∀ n < 256, toLower (rune (.ofNat n)) ∈ ['b', 'y', 't', 'e', 's', 'k', 'm', 'g'] →
      isDigit (.ofNat n) = false := by decide +kernel
  intro c hc
  have hc' := hletter c.toNat c.toNat_lt
  rw [UInt8.ofNat_toNat] at hc'
  exact hc' ((multiplier_eq_some h).1 _ (mem_map_of_mem (mem_map_of_mem hc)))

/-- What stands for a number is taken apart in one way. -/
theorem denotes_iff : Denotes raw n m ↔ number raw ≠ [] ∧
    (∀ d ∈ number raw, isDigit d = true) ∧ value (number raw) = n ∧ unit (suffix raw) = some m := by
  refine ⟨?_, fun h => ⟨_, _, (number_append_suffix raw).symm, h⟩⟩
  rintro ⟨digits, s, rfl, hne, hdigits, hvalue, hunit⟩
  have hs : ∀ c ∈ s.reverse, (!isDigit c) = true := by simpa using digitless_of_unit hunit
  have hfirst : digits.reverse.dropWhile (!isDigit ·) = digits.reverse ∧
      digits.reverse.takeWhile (!isDigit ·) = [] := by
    cases hreverse : digits.reverse with
    | nil => exact ⟨rfl, rfl⟩
    | cons c l =>
      have hc := hdigits c (mem_reverse.mp (hreverse ▸ mem_cons_self))
      simp [hc]
  rw [number, suffix, reverse_append, dropWhile_append_of_pos hs,
    takeWhile_append_of_pos hs, hfirst.1, hfirst.2, append_nil, reverse_reverse,
    reverse_reverse]
  exact ⟨hne, hdigits, hvalue, hunit⟩

/-- What stands for a number is read as that number times the unit, modulo `2 ^ 64`. -/
theorem Denotes.unmarshalYAML_eq (h : Denotes raw n m) (hn : n < 2 ^ 64) (b : ByteSize) :
    unmarshalYAML b (.ok raw) = (.ofNat n * .ofNat m, none) := by
  obtain ⟨hne, hdigits, hvalue, hunit⟩ := denotes_iff.mp h
  have hparse : parseUint (number raw) = .ok (.ofNat n) :=
    parseUint_eq_ok_iff.mpr ⟨hne, hdigits, hvalue.trans (UInt64.toNat_ofNat_of_lt' hn).symm⟩
  rw [unit] at hunit
  simp only [unmarshalYAML, scan_reverse, if_neg hne, hparse, Except.map, hunit]

/-- With no digit, the unit is applied to what was stored before. -/
theorem unmarshalYAML_of_digitless (h : ∀ c ∈ raw, isDigit c = false) :
    unmarshalYAML b (.ok raw) = match unit raw with
      | some m => (b * .ofNat m, none)
      | none => (b, some (.unknownUnit raw)) := by
  have hnumber := number_eq_nil_iff.mpr h
  have hsuffix := number_append_suffix raw
  rw [hnumber, nil_append] at hsuffix
  simp only [unmarshalYAML, scan_reverse, if_pos hnumber, hsuffix, unit]

/-- Where there is a digit, only strings that stand for a number are accepted. -/
theorem exists_denotes (hdigit : number raw ≠ []) (h : (unmarshalYAML b (.ok raw)).2 = none) :
    ∃ n m, Denotes raw n m ∧ n < 2 ^ 64 := by
  simp only [unmarshalYAML, scan_reverse, if_neg hdigit] at h
  cases hparse : parseUint (number raw) with
  | error err =>
    rw [hparse] at h
    cases h
  | ok val =>
    obtain ⟨-, hdigits, hvalue⟩ := parseUint_eq_ok_iff.mp hparse
    simp only [hparse, Except.map] at h
    split at h
    · rename_i m hunit
      exact ⟨_, m, denotes_iff.mpr ⟨hdigit, hdigits, hvalue, hunit⟩, val.toNat_lt⟩
    · cases h

/-- What reading a size should do: store the product of number and unit, or fail, and
never accept a string that has no digit. -/
structure ExactOrFails (b : ByteSize) (raw : List UInt8) : Prop where
  exact : (unmarshalYAML b (.ok raw)).2 = none →
    ∃ n m, Denotes raw n m ∧ (unmarshalYAML b (.ok raw)).1.toNat = n * m
  digitless : (∀ c ∈ raw, isDigit c = false) →
    (unmarshalYAML b (.ok raw)).2 ≠ none ∧ (unmarshalYAML b (.ok raw)).1 = b

theorem toNat_ofNat_mul (h : n * m < 2 ^ 64) :
    ((.ofNat n : ByteSize) * .ofNat m).toNat = n * m := by
  rw [UInt64.toNat_mul, UInt64.toNat_ofNat', UInt64.toNat_ofNat', ← Nat.mul_mod, Nat.mod_eq_of_lt h]

/-- Sizes are read exactly or not at all where the product fits and a string with no
digit is not a unit. -/
theorem exactOrFails_iff (b : ByteSize) (raw : List UInt8) : ExactOrFails b raw ↔
    ((∃ c ∈ raw, isDigit c = true) ∨ unit raw = none) ∧
      ∀ n m, Denotes raw n m → n < 2 ^ 64 → n * m < 2 ^ 64 := by
  have hdigit : (∃ c ∈ raw, isDigit c = true) ↔ number raw ≠ [] := by
    simp [number_eq_nil_iff]
  rw [hdigit]
  constructor
  · intro h
    refine ⟨or_iff_not_imp_left.mpr fun hnone => ?_, fun n m hdenotes hn => ?_⟩
    · have hdigitless := number_eq_nil_iff.mp (not_not.mp hnone)
      have herror := (h.digitless hdigitless).1
      rw [unmarshalYAML_of_digitless hdigitless] at herror
      cases hunit : unit raw with
      | none => rfl
      | some m => exact absurd (by rw [hunit]) herror
    · have heq := hdenotes.unmarshalYAML_eq hn b
      obtain ⟨n', m', hdenotes', hstored⟩ := h.exact (by rw [heq])
      obtain ⟨-, -, hvalue, hunit⟩ := denotes_iff.mp hdenotes
      obtain ⟨-, -, hvalue', hunit'⟩ := denotes_iff.mp hdenotes'
      cases hvalue.symm.trans hvalue'
      cases hunit.symm.trans hunit'
      rw [← hstored]
      exact UInt64.toNat_lt _
  · rintro ⟨hunit, hfits⟩
    refine ⟨fun hok => ?_, fun hnone => ?_⟩
    · by_cases hnumber : number raw = []
      · rw [unmarshalYAML_of_digitless (number_eq_nil_iff.mp hnumber),
          hunit.resolve_left (not_not.mpr hnumber)] at hok
        cases hok
      · obtain ⟨n, m, hdenotes, hn⟩ := exists_denotes hnumber hok
        refine ⟨n, m, hdenotes, ?_⟩
        rw [hdenotes.unmarshalYAML_eq hn]
        exact toNat_ofNat_mul (hfits n m hdenotes hn)
    · rw [unmarshalYAML_of_digitless hnone,
        hunit.resolve_left (not_not.mpr (number_eq_nil_iff.mpr hnone))]
      exact ⟨nofun, rfl⟩

/-- A product of `2 ^ 64` is stored as zero, and a unit without a number multiplies what
was stored before. -/
theorem not_exactOrFails :
    unmarshalYAML 7 (.ok "16777216TB".toUTF8.data.toList) = (0, none) ∧
      unmarshalYAML 7 (.ok "kb".toUTF8.data.toList) = (7168, none) ∧
      ¬ ExactOrFails 7 "16777216TB".toUTF8.data.toList ∧
      ¬ ExactOrFails 7 "kb".toUTF8.data.toList := by
  refine ⟨by decide +kernel, by decide +kernel, fun h => ?_, fun h => ?_⟩
  · obtain ⟨n, m, hdenotes, hstored⟩ := h.exact (by decide +kernel)
    -- The number is not zero and neither is a unit.
    obtain ⟨-, -, hvalue, hunit⟩ := denotes_iff.mp hdenotes
    have hn : n = 16777216 := hvalue.symm.trans (by decide +kernel)
    have hm := (multiplier_eq_some hunit).2
    have hzero : 0 = n * m := Eq.trans (by decide +kernel) hstored
    rw [hn] at hzero
    omega
  · exact (h.digitless (by decide +kernel)).1 (by decide +kernel)

theorem unmarshalYAML_formatUint (b n : ByteSize) {suffix : List UInt8} (hunit : unit suffix = some m) :
    unmarshalYAML b (.ok (formatUint n ++ suffix)) = (n * .ofNat m, none) := by
  obtain ⟨hne, hdigits, hvalue⟩ := parseUint_eq_ok_iff.mp (parseUint_formatUint n)
  have hdenotes : Denotes (formatUint n ++ suffix) n.toNat m :=
    ⟨_, _, rfl, hne, hdigits, hvalue, hunit⟩
  rw [hdenotes.unmarshalYAML_eq n.toNat_lt, UInt64.ofNat_toNat]

theorem ofNat_div_mul (h : b.toNat % m = 0) :
    (.ofNat (b.toNat / m) : ByteSize) * .ofNat m = b := by
  have hmul : b.toNat / m * m = b.toNat := Nat.div_mul_cancel (Nat.dvd_of_mod_eq_zero h)
  apply UInt64.toNat_inj.mp
  rw [toNat_ofNat_mul (hmul.trans_lt b.toNat_lt), hmul]

/-- A size reads as what was written, whatever was stored before. -/
theorem unmarshalYAML_marshalYAML (prev b : ByteSize) :
    unmarshalYAML prev (.ok (marshalYAML b)) = (b, none) := by
  have hread {m : Nat} {suffix : List UInt8} (hunit : unit suffix = some m)
      (h : b.toNat % m = 0) :
      unmarshalYAML prev (.ok (formatUint (.ofNat (b.toNat / m)) ++ suffix)) = (b, none) := by
    rw [unmarshalYAML_formatUint _ _ hunit, ofNat_div_mul h]
  unfold marshalYAML
  split
  · exact hread (by decide) ‹_›
  split
  · exact hread (by decide) ‹_›
  split
  · exact hread (by decide) ‹_›
  split
  · exact hread (by decide) ‹_›
  · rw [unmarshalYAML_formatUint _ _ (m := 1) (by decide)]
    exact Prod.ext (UInt64.mul_one b) rfl

end Units

end Blockmania.Config
