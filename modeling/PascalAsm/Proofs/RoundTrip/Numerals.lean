import Mathlib.Data.List.Basic
import Mathlib.Data.List.TakeWhile
import PascalAsm.Json.Shape

/-!
# Numerals that are read back

A number is written without a mark of where it ends, so it matters which characters it consists of,
and an integer has to be spelled in the one way in which it is read as itself.

* **`Numeral.isPart_of_ofString?`** — a numeral consists of digits, signs, points and the letter of
  the exponent. So no numeral is the name of a constant, and none is cut in two or goes on too long.
* **`Numeral.integer?_toString`** — the spelling of an integer is read as that integer.
-/

namespace PascalAsm

namespace Numeral

/-! ## The characters of numerals -/

/-- Whether a numeral may contain the character. They are digits, signs, the point and the letter of
an exponent. -/
def isPart (c : Char) : Bool :=
  c.isDigit || c = '.' || c = 'e' || c = 'E' || c = '+' || c = '-'

section

variable {cs rest : List Char}

theorem isPart_of_digits? {ds : List Nat} (h : digits? cs = some (ds, rest))
    (hrest : ∀ c ∈ rest, isPart c = true) : ∀ c ∈ cs, isPart c = true := by
  have hafter : afterDigits cs = rest := by
    unfold digits? at h
    split at h
    · cases h
    · exact (Prod.mk.inj (Option.some.inj h)).2
  intro c hc
  rw [← List.takeWhile_append_dropWhile (p := Char.isDigit) (l := cs), List.mem_append] at hc
  -- What `digits?` consumes are digits, and what it leaves is `rest`.
  rcases hc with hc | hc
  · simp [isPart, List.mem_takeWhile_imp hc]
  · exact hrest c (hafter ▸ hc)

theorem isPart_of_whole? {ds : List Nat} (h : whole? cs = some (ds, rest))
    (hrest : ∀ c ∈ rest, isPart c = true) : ∀ c ∈ cs, isPart c = true := by
  unfold whole? at h
  split at h
  · cases h
  · exact isPart_of_digits? h hrest

theorem isPart_of_fraction? {ds : Option (List Nat)} (h : fraction? cs = some (ds, rest))
    (hrest : ∀ c ∈ rest, isPart c = true) : ∀ c ∈ cs, isPart c = true := by
  unfold fraction? at h
  split at h
  · obtain ⟨⟨_, _⟩, hdigits, hpair⟩ := Option.map_eq_some_iff.1 h
    obtain ⟨-, rfl⟩ := Prod.mk.inj hpair
    exact List.forall_mem_cons.2 ⟨by decide, isPart_of_digits? hdigits hrest⟩
  · obtain ⟨-, rfl⟩ := Prod.mk.inj (Option.some.inj h)
    exact hrest

theorem isPart_of_signedExponent? {e : Int} (h : signedExponent? cs = some (e, rest))
    (hrest : ∀ c ∈ rest, isPart c = true) : ∀ c ∈ cs, isPart c = true := by
  unfold signedExponent? at h
  split at h
  all_goals
    obtain ⟨⟨_, _⟩, hdigits, hpair⟩ := Option.map_eq_some_iff.1 h
    obtain ⟨-, rfl⟩ := Prod.mk.inj hpair
  · exact List.forall_mem_cons.2 ⟨by decide, isPart_of_digits? hdigits hrest⟩
  · exact List.forall_mem_cons.2 ⟨by decide, isPart_of_digits? hdigits hrest⟩
  · exact isPart_of_digits? hdigits hrest

theorem isPart_of_exponent? {e : Option Int} (h : exponent? cs = some (e, rest))
    (hrest : ∀ c ∈ rest, isPart c = true) : ∀ c ∈ cs, isPart c = true := by
  unfold exponent? at h
  split at h
  iterate 2
    obtain ⟨⟨_, _⟩, hsigned, hpair⟩ := Option.map_eq_some_iff.1 h
    obtain ⟨-, rfl⟩ := Prod.mk.inj hpair
    exact List.forall_mem_cons.2 ⟨by decide, isPart_of_signedExponent? hsigned hrest⟩
  · obtain ⟨-, rfl⟩ := Prod.mk.inj (Option.some.inj h)
    exact hrest

theorem isPart_of_unsigned? {negative : Bool} {n : Numeral} (h : unsigned? negative cs = some n) :
    ∀ c ∈ cs, isPart c = true := by
  simp only [unsigned?, Option.bind_eq_bind, Option.bind_eq_some_iff, Prod.exists] at h
  obtain ⟨_, _, hwhole, _, _, hfraction, _, cs, hexponent, hend⟩ := h
  -- nothing is left over in the end
  cases cs with
  | nil =>
    have hpart := isPart_of_exponent? hexponent (by simp)
    exact isPart_of_whole? hwhole (isPart_of_fraction? hfraction hpart)
  | cons c cs => cases hend

end

/-- A numeral consists of certain characters only. So a text of other characters is no numeral, and
its end can be seen. -/
theorem isPart_of_ofString? {s : String} {n : Numeral} (h : ofString? s = some n) :
    ∀ c ∈ s.toList, isPart c = true := by
  unfold ofString? ofChars? at h
  split at h
  next hs => exact hs ▸ List.forall_mem_cons.2 ⟨by decide, isPart_of_unsigned? h⟩
  next => exact isPart_of_unsigned? h

theorem toList_ne_nil_of_ofString? {s : String} {n : Numeral} (h : ofString? s = some n) :
    s.toList ≠ [] := by
  intro hnil
  rw [ofString?, hnil] at h
  cases h

/-! ## Integers -/

section

variable (n : Nat)

/-- A number is spelled with a zero in front only if it is zero. A numeral with more zeros in front
would be refused. -/
theorem head?_toDigits_ne_zero {n : Nat} (h : 0 < n) :
    ((Nat.toDigits 10 n).map digitValue).head? ≠ some 0 := by
  induction n using Nat.strong_induction_on with
  | _ n ih =>
    rw [Nat.toDigits_eq_if (by decide)]
    -- One digit is the number itself; of more the first is that of `n / 10`, which is not zero.
    split
    next hlt =>
      have hvalue : digitValue n.digitChar = n := Nat.toNat_digitChar_sub_48_of_lt_ten hlt
      rw [List.map_singleton, List.head?_cons, hvalue]
      exact fun hzero => absurd (Option.some.inj hzero) (by omega)
    next hge =>
      rw [List.map_append, List.head?_append_of_ne_nil]
      · exact ih (n / 10) (by omega) (by omega)
      · exact fun hnil => Nat.toDigits_ne_nil (List.map_eq_nil_iff.1 hnil)

theorem leadingDigits_toDigits :
    leadingDigits (Nat.toDigits 10 n) = (Nat.toDigits 10 n).map digitValue := by
  have hall : ∀ c ∈ Nat.toDigits 10 n, c.isDigit = true := fun c =>
    Nat.isDigit_of_mem_toDigits (by decide) (by decide)
  rw [leadingDigits, List.takeWhile_eq_self_iff.2 hall]

theorem afterDigits_toDigits : afterDigits (Nat.toDigits 10 n) = [] := by
  rw [afterDigits, List.dropWhile_eq_nil_iff]
  exact fun c => Nat.isDigit_of_mem_toDigits (by decide) (by decide)

theorem ofDigits_toDigits : ofDigits ((Nat.toDigits 10 n).map digitValue) = n := by
  have hvalue := Nat.ofDigitChars_ten_toDigits (n := n)
  rw [Nat.ofDigitChars_eq_foldl] at hvalue
  rw [ofDigits, List.foldl_map]
  exact hvalue

theorem whole?_toDigits :
    whole? (Nat.toDigits 10 n) = some ((Nat.toDigits 10 n).map digitValue, []) := by
  have hdigits : digits? (Nat.toDigits 10 n) = some ((Nat.toDigits 10 n).map digitValue, []) := by
    rw [digits?, leadingDigits_toDigits, afterDigits_toDigits]
    split
    next hnil => exact absurd (List.map_eq_nil_iff.1 hnil) Nat.toDigits_ne_nil
    next => rfl
  rw [whole?, hdigits]
  split
  next d rest _ hsome =>
    obtain ⟨hvalues, -⟩ := Prod.mk.inj (Option.some.inj hsome)
    -- more digits than one, so the number is not zero
    rcases Nat.eq_zero_or_pos n with rfl | hpos
    · cases hvalues
    · exact absurd (by rw [hvalues]; rfl) (head?_toDigits_ne_zero hpos)
  next => rfl

theorem unsigned?_toDigits (negative : Bool) : unsigned? negative (Nat.toDigits 10 n) =
    some ⟨negative, (Nat.toDigits 10 n).map digitValue, none, none⟩ := by
  rw [unsigned?, whole?_toDigits]
  rfl

end

/-- An integer is spelled as it is read. Signs and digits are those that a numeral has, with neither
a fraction nor an exponent. -/
theorem integer?_toString (i : Int) : (ofString? (toString i)).bind integer? = some i := by
  cases i with
  | ofNat n =>
    have hchars : (toString (Int.ofNat n)).toList = Nat.toDigits 10 n := Nat.toList_repr
    have hsign : ofChars? (Nat.toDigits 10 n) = unsigned? false (Nat.toDigits 10 n) := by
      unfold ofChars?
      split
      -- a number that is not negative does not begin with a minus sign
      next cs hcs =>
        have hdigit : '-'.isDigit = true :=
          Nat.isDigit_of_mem_toDigits (by decide) (by decide) (hcs ▸ List.mem_cons_self)
        cases hdigit
      next => rfl
    rw [ofString?, hchars, hsign, unsigned?_toDigits, Option.bind_some, integer?, ofDigits_toDigits]
    rfl
  | negSucc n =>
    have hchars : (toString (Int.negSucc n)).toList = '-' :: Nat.toDigits 10 (n + 1) := by
      show ("-" ++ (n + 1).repr).toList = _
      rw [String.toList_append, Nat.toList_repr]
      rfl
    rw [ofString?, hchars, ofChars?, unsigned?_toDigits, Option.bind_some, integer?, ofDigits_toDigits]
    rfl

end Numeral

namespace Json

/-- An integer is given if it lies in the range that is asked for. Line numbers and values have
ranges of their own and are read through this one. -/
theorem integerIn?_int (low high i : Int) :
    (int i).integerIn? low high = if low ≤ i ∧ i ≤ high then some i else none := by
  obtain ⟨n, hn, hi⟩ := Option.bind_eq_some_iff.1 (Numeral.integer?_toString i)
  simp only [int, integerIn?, hn, hi, Option.bind_eq_bind, Option.bind_some]

@[simp] theorem nat32?_int (n : UInt32) : (int n.toNat).nat32? = some n := by
  have hlt := n.toNat_lt
  have hrange : (0 : Int) ≤ n.toNat ∧ (n.toNat : Int) ≤ (UInt32.size - 1 : Nat) := by
    rw [UInt32.size]
    omega
  rw [nat32?, integerIn?_int, if_pos hrange, Option.map_some, Int.toNat_natCast, UInt32.ofNat_toNat]

@[simp] theorem int32?_int (i : Int32) : (int i.toInt).int32? = some i := by
  have hrange : Int32.minValue.toInt ≤ i.toInt ∧ i.toInt ≤ Int32.maxValue.toInt :=
    ⟨i.minValue_le_toInt, i.toInt_le⟩
  rw [int32?, integerIn?_int, if_pos hrange, Option.map_some, Int32.ofInt_toInt]

end Json

end PascalAsm
