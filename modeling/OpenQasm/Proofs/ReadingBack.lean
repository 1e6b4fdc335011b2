import OpenQasm.Proofs.ShortestDecimal

/-! Literals of real numbers and the numbers that they denote. -/
namespace OpenQasm

open Binary64

/-- One or more decimal digits. -/
@[ext] structure Digits where
  chars : List Char
  ne_nil : chars ≠ []
  isDigit : ∀ c ∈ chars, c.isDigit = true

def Digits.value (ds : Digits) : Nat := Nat.ofDigitChars 10 ds.chars 0

/-- The mark of the exponent, its sign, which is always written, and at least two digits. -/
@[ext] structure Exponent where
  negative : Bool
  digits : Digits
  wide : 2 ≤ digits.chars.length

namespace Exponent

def chars (p : Exponent) : List Char :=
  'e' :: (if p.negative then '-' else '+') :: p.digits.chars

def value (p : Exponent) : Int := if p.negative then -p.digits.value else p.digits.value

end Exponent

/-- A point and the digits after it, or nothing. -/
def pointChars : Option Digits → List Char
  | none => []
  | some ds => '.' :: ds.chars

def pointValue : Option Digits → ℚ
  | none => 0
  | some ds => ds.value / 10 ^ ds.chars.length

/-- A literal without its sign. -/
inductive Numeral where
  | positional (whole fraction : Digits)
  | scientific (first : Char) (isDigit : first.isDigit = true) (fraction : Option Digits)
    (power : Exponent)

namespace Numeral

def chars : Numeral → List Char
  | positional whole fraction => whole.chars ++ pointChars (some fraction)
  | scientific first _ fraction power => first :: (pointChars fraction ++ power.chars)

def value : Numeral → ℚ
  | positional whole fraction => whole.value + pointValue (some fraction)
  | scientific first _ fraction power =>
    (Nat.ofDigitChars 10 [first] 0 + pointValue fraction) * 10 ^ power.value

end Numeral

/-- A rational whose sign is given apart, so that zero has one too. -/
def signed (negative : Bool) (r : ℚ) : ℚ := if negative then -r else r

/-- A literal, with a minus sign or without. -/
structure RealLiteral where
  negative : Bool
  numeral : Numeral

namespace RealLiteral

def text (l : RealLiteral) : String :=
  (if l.negative then "-" else "") ++ String.ofList l.numeral.chars

def value (l : RealLiteral) : ℚ := signed l.negative l.numeral.value

end RealLiteral

theorem Exponent.chars_inj {p p' : Exponent} (h : p.chars = p'.chars) : p = p' := by
  obtain ⟨-, h⟩ := List.cons.inj h
  obtain ⟨hsign, hdigits⟩ := List.cons.inj h
  have hnegative : p.negative = p'.negative := by
    revert hsign
    cases p.negative <;> cases p'.negative <;> decide
  exact Exponent.ext hnegative (Digits.ext hdigits)

theorem pointChars_inj {ds ds' : Option Digits} (h : pointChars ds = pointChars ds') :
    ds = ds' := by
  cases ds <;> cases ds' <;> simp_all [pointChars, Digits.ext_iff]

theorem ne_mark_of_isDigit {c : Char} (h : c.isDigit = true) : c ≠ 'e' := by
  rintro rfl
  exact absurd h (by decide)

theorem forall_mem_pointChars (ds : Option Digits) : ∀ c ∈ pointChars ds, c ≠ 'e' := by
  cases ds with
  | none => simp [pointChars]
  | some ds =>
    rw [pointChars, List.forall_mem_cons]
    exact ⟨by decide, fun c hc => ne_mark_of_isDigit (ds.isDigit c hc)⟩

namespace Numeral

theorem mark_notMem_positional (whole fraction : Digits) :
    'e' ∉ (positional whole fraction).chars := by
  rw [chars, List.mem_append, not_or]
  exact ⟨fun h => ne_mark_of_isDigit (whole.isDigit _ h) rfl,
    fun h => forall_mem_pointChars _ _ h rfl⟩

theorem mark_mem_scientific (first : Char) (isDigit : first.isDigit = true)
    (fraction : Option Digits) (power : Exponent) :
    'e' ∈ (scientific first isDigit fraction power).chars := by
  simp [chars, Exponent.chars]

theorem chars_inj {m m' : Numeral} (h : m.chars = m'.chars) : m = m' := by
  cases m with
  | positional whole fraction =>
    cases m' with
    | positional whole' fraction' =>
      obtain ⟨hwhole, hfraction⟩ := append_inj_of_stop whole.isDigit whole'.isDigit
        (by simp [pointChars]) (by simp [pointChars]) h
      rw [Digits.ext hwhole, Option.some.inj (pointChars_inj hfraction)]
    | scientific =>
      exact absurd (h ▸ mark_mem_scientific ..) (mark_notMem_positional whole fraction)
  | scientific first isDigit fraction power =>
    cases m' with
    | positional whole' fraction' =>
      exact absurd (h ▸ mark_mem_scientific ..) (mark_notMem_positional whole' fraction')
    | scientific first' isDigit' fraction' power' =>
      obtain ⟨rfl, hrest⟩ := List.cons.inj h
      obtain ⟨hfraction, hpower⟩ := append_inj_of_stop (forall_mem_pointChars fraction)
        (forall_mem_pointChars fraction') (by simp [Exponent.chars]) (by simp [Exponent.chars])
        hrest
      rw [pointChars_inj hfraction, Exponent.chars_inj hpower]

theorem exists_first_digit (m : Numeral) :
    ∃ c rest, m.chars = c :: rest ∧ c.isDigit = true := by
  cases m with
  | positional whole fraction =>
    obtain ⟨c, rest, hchars⟩ := List.exists_cons_of_ne_nil whole.ne_nil
    refine ⟨c, rest ++ pointChars (some fraction), by rw [chars, hchars]; rfl, ?_⟩
    exact whole.isDigit c (hchars ▸ List.mem_cons_self)
  | scientific first isDigit fraction power => exact ⟨first, _, rfl, isDigit⟩

end Numeral

theorem Numeral.minus_cons_ne_chars (m : Numeral) (cs : List Char) : '-' :: cs ≠ m.chars := by
  obtain ⟨c, rest, hchars, hdigit⟩ := m.exists_first_digit
  rw [hchars]
  intro h
  obtain ⟨rfl, -⟩ := List.cons.inj h
  exact absurd hdigit (by decide)

theorem RealLiteral.toList_text (l : RealLiteral) :
    l.text.toList = (if l.negative then ['-'] else []) ++ l.numeral.chars := by
  rw [text, String.toList_append, String.toList_ofList]
  split <;> rfl

theorem RealLiteral.text_inj {l l' : RealLiteral} (h : l.text = l'.text) : l = l' := by
  have hlist := congrArg String.toList h
  rw [toList_text, toList_text] at hlist
  obtain ⟨negative, m⟩ := l
  obtain ⟨negative', m'⟩ := l'
  cases negative with
  | true =>
    cases negative' with
    | true => exact congrArg (mk true) (Numeral.chars_inj (List.append_cancel_left hlist))
    | false => exact absurd hlist (m'.minus_cons_ne_chars m.chars)
  | false =>
    cases negative' with
    | true => exact absurd hlist.symm (m.minus_cons_ne_chars m'.chars)
    | false => exact congrArg (mk false) (Numeral.chars_inj hlist)

namespace Digits

theorem ofDigitChars_append (cs ds : List Char) :
    Nat.ofDigitChars 10 (cs ++ ds) 0 =
      10 ^ ds.length * Nat.ofDigitChars 10 cs 0 + Nat.ofDigitChars 10 ds 0 := by
  rw [Nat.ofDigitChars_append, Nat.ofDigitChars_eq_ofDigitChars_zero]

def ofNat (n : Nat) : Digits where
  chars := Nat.toDigits 10 n
  ne_nil := Nat.toDigits_ne_nil
  isDigit _ := Nat.isDigit_of_mem_toDigits (by decide) (by decide)

theorem value_ofNat (n : Nat) : (ofNat n).value = n := Nat.ofDigitChars_ten_toDigits

def zerosBefore (n : Nat) (ds : Digits) : Digits where
  chars := List.replicate n '0' ++ ds.chars
  ne_nil := List.append_ne_nil_of_right_ne_nil _ ds.ne_nil
  isDigit := List.forall_mem_append.mpr
    ⟨Decimal.forall_mem_replicate_zero (fun _ h => h) n, ds.isDigit⟩

theorem value_zerosBefore (n : Nat) (ds : Digits) : (zerosBefore n ds).value = ds.value := by
  rw [value, zerosBefore, ofDigitChars_append, Nat.ofDigitChars_replicate_zero, value]
  simp

def zerosAfter (ds : Digits) (n : Nat) : Digits where
  chars := ds.chars ++ List.replicate n '0'
  ne_nil := List.append_ne_nil_of_left_ne_nil ds.ne_nil _
  isDigit := List.forall_mem_append.mpr
    ⟨ds.isDigit, Decimal.forall_mem_replicate_zero (fun _ h => h) n⟩

theorem value_zerosAfter (ds : Digits) (n : Nat) : (zerosAfter ds n).value = ds.value * 10 ^ n := by
  rw [value, zerosAfter, ofDigitChars_append, Nat.ofDigitChars_replicate_zero, value,
    List.length_replicate]
  ring

def take (ds : Digits) (n : Nat) (h : 0 < n) : Digits where
  chars := ds.chars.take n
  ne_nil := by simp [ds.ne_nil, h.ne']
  isDigit c hc := ds.isDigit c (List.mem_of_mem_take hc)

def drop (ds : Digits) (n : Nat) (h : n < ds.chars.length) : Digits where
  chars := ds.chars.drop n
  ne_nil := by simpa using h
  isDigit c hc := ds.isDigit c (List.mem_of_mem_drop hc)

/-- A point divides the value by a ten for each digit on its right. -/
theorem value_take_add_drop (ds : Digits) {n : Nat} (hpos : 0 < n) (hlt : n < ds.chars.length) :
    ((ds.take n hpos).value : ℚ) + pointValue (some (ds.drop n hlt)) =
      ds.value / 10 ^ (ds.chars.length - n) := by
  have hsplit : ds.value = 10 ^ (ds.chars.length - n) * (ds.take n hpos).value +
      (ds.drop n hlt).value := by
    rw [value, ← List.take_append_drop n ds.chars, ofDigitChars_append, List.length_drop,
      List.take_append_drop]
    rfl
  have hlength : (ds.drop n hlt).chars.length = ds.chars.length - n := List.length_drop
  rw [hsplit, pointValue, hlength]
  push_cast
  field_simp

end Digits

namespace Decimal

/-- Digits are read with the power of ten of the last one. -/
theorem value_mul_zpow (v : Nat) {e : Int} {n : Nat} (h : e = -n) :
    (v : ℚ) * 10 ^ e = v / 10 ^ n := by
  rw [h, zpow_neg, zpow_natCast, div_eq_mul_inv]

theorem exists_positional (ds : Digits) (lead : Int) :
    ∃ m : Numeral, m.chars = positional ds.chars lead ∧
      m.value = ds.value * 10 ^ (lead + 1 - ds.chars.length) := by
  unfold positional
  dsimp only
  split
  · -- The number is less than one.
    rename_i hneg
    refine ⟨.positional (.ofNat 0) (.zerosBefore (-lead - 1).toNat ds), rfl, ?_⟩
    rw [value_mul_zpow _ (n := (-lead - 1).toNat + ds.chars.length) (by omega), Numeral.value,
      pointValue, Digits.value_zerosBefore, Digits.value_ofNat]
    simp [Digits.zerosBefore]
  rename_i hnonneg
  split
  · -- All digits stand before the point.
    rename_i hlen
    refine ⟨.positional (.zerosAfter ds ((lead + 1).toNat - ds.chars.length)) (.ofNat 0),
      by rw [List.take_of_length_le hlen]; rfl, ?_⟩
    have hexponent : lead + 1 - ds.chars.length =
        (((lead + 1).toNat - ds.chars.length : Nat) : Int) := by omega
    rw [hexponent, zpow_natCast, Numeral.value, pointValue, Digits.value_zerosAfter,
      Digits.value_ofNat]
    simp
  · -- The point stands between the digits.
    rename_i hlen
    refine ⟨.positional (ds.take (lead + 1).toNat (by omega)) (ds.drop (lead + 1).toNat (by omega)),
      ?_, ?_⟩
    · rw [Nat.sub_eq_zero_of_le (by omega), List.replicate_zero, List.append_nil]
      rfl
    · rw [Numeral.value, Digits.value_take_add_drop, value_mul_zpow]
      omega

/-- The exponent of a literal, with a zero before a single digit. -/
def exponentOf (n : Int) : Exponent where
  negative := decide (n < 0)
  digits := .zerosBefore (2 - (Nat.toDigits 10 n.natAbs).length) (.ofNat n.natAbs)
  wide := width_le_length_paddedDigits 2 n.natAbs

theorem value_exponentOf (n : Int) : (exponentOf n).value = n := by
  have hdigits : (exponentOf n).digits.value = n.natAbs := by
    rw [exponentOf, Digits.value_zerosBefore, Digits.value_ofNat]
  rw [Exponent.value, hdigits]
  simp only [exponentOf, decide_eq_true_eq]
  split <;> omega

theorem chars_exponentOf (n : Int) :
    (exponentOf n).chars = 'e' :: (if n < 0 then '-' else '+') :: paddedDigits 2 n.natAbs := by
  rw [Exponent.chars]
  simp only [exponentOf, decide_eq_true_eq]
  rfl

theorem exists_scientific (ds : Digits) (lead : Int) :
    ∃ m : Numeral, m.chars = scientific ds.chars lead ∧
      m.value = ds.value * 10 ^ (lead + 1 - ds.chars.length) := by
  obtain ⟨c, cs, hchars⟩ := List.exists_cons_of_ne_nil ds.ne_nil
  have hdigit : c.isDigit = true := ds.isDigit c (hchars ▸ List.mem_cons_self)
  have hfirst : ds.chars.take 1 = [c] := by rw [hchars]; rfl
  unfold scientific
  dsimp only
  rw [← chars_exponentOf, hfirst]
  split
  · -- A single digit takes no point.
    rename_i hlen
    rw [hchars, List.length_cons] at hlen
    obtain rfl : cs = [] := List.eq_nil_of_length_eq_zero (by omega)
    refine ⟨.scientific c hdigit none (exponentOf lead), rfl, ?_⟩
    rw [Numeral.value, value_exponentOf, Digits.value, hchars]
    simp [pointValue]
  · rename_i hlen
    refine ⟨.scientific c hdigit (some (ds.drop 1 (by omega))) (exponentOf lead), rfl, ?_⟩
    have hvalue : Nat.ofDigitChars 10 [c] 0 = (ds.take 1 one_pos).value :=
      congrArg (Nat.ofDigitChars 10 · 0) hfirst.symm
    have hexponent : lead + 1 - ds.chars.length = 1 - ds.chars.length + lead := by ring
    rw [Numeral.value, hvalue, Digits.value_take_add_drop, value_exponentOf, hexponent,
      ten_zpow_add, ← mul_assoc, value_mul_zpow]
    omega

theorem exists_numeral (d : Decimal) : ∃ m : Numeral, m.chars = d.text ∧ m.value = d.toRat := by
  have hvalue : ((Digits.ofNat d.digits).value : ℚ) *
      10 ^ (d.exponent + (Nat.toDigits 10 d.digits).length - 1 + 1 -
        (Nat.toDigits 10 d.digits).length) = d.toRat := by
    rw [Digits.value_ofNat, toRat]
    congr 2
    ring
  rw [← hvalue]
  unfold text
  dsimp only
  split
  · exact exists_positional (.ofNat d.digits) _
  · exact exists_scientific (.ofNat d.digits) _

end Decimal

namespace Binary64

variable {x : Binary64}

theorem abs_eq (x : Binary64) : x.abs = ⟨UInt64.ofNat (0 + x.rank)⟩ := by
  rw [zero_add]
  rfl

theorem rank_abs (x : Binary64) : x.abs.rank = x.rank := by
  rw [abs_eq]
  exact rank_bits (.inl rfl) x.rank_lt

theorem isNegative_abs (x : Binary64) : x.abs.isNegative = false := by
  rw [abs_eq]
  exact isNegative_bits (.inl rfl) x.rank_lt

theorem isFinite_abs (h : x.isFinite = true) : x.abs.isFinite = true := by
  rwa [isFinite_iff_rank, rank_abs, ← isFinite_iff_rank]

/-- What rounds to the absolute value rounds to the number when it has its sign. -/
theorem roundsTo_abs_iff {r : ℚ} : RoundsTo r x.abs ↔ RoundsTo (signed x.isNegative r) x := by
  cases hsign : x.isNegative with
  | false =>
    have habs : x.abs = x :=
      eq_of_magnitude (x.isNegative_abs.trans hsign.symm) (magnitude_eq_of_rank_eq x.rank_abs)
    rw [habs]
    rfl
  | true =>
    have hopposite : Opposite x.abs x := ⟨x.rank_abs, by rw [isNegative_abs, hsign]; rfl⟩
    constructor
    · exact fun h => h.neg hopposite
    · intro h
      have hback := h.neg hopposite.symm
      rwa [signed, if_pos rfl, neg_neg] at hback

theorem literal_of_finite (h : x.isFinite = true) :
    x.literal = x.signText ++ String.ofList (Decimal.shortest x.abs).text := by
  have hnan : x.isNaN = false := by
    rw [isFinite, bne_iff_ne] at h
    rw [isNaN, beq_false_of_ne h, Bool.false_and]
  rw [literal, signedText, hnan, h]
  rfl

theorem roundsTo_iff_readsAs (h : x.isFinite = true) (d : Decimal) :
    RoundsTo (signed x.isNegative d.toRat) x ↔ d.readsAs x.abs = true := by
  rw [← roundsTo_abs_iff, Decimal.readsAs_iff (isFinite_abs h) x.isNegative_abs]

/-- A finite number is written as a literal that denotes its shortest decimal. -/
theorem exists_literal (h : x.isFinite = true) :
    ∃ l : RealLiteral, l.text = x.literal ∧ l.negative = x.isNegative ∧
      l.value = signed x.isNegative (Decimal.shortest x.abs).toRat := by
  obtain ⟨m, hchars, hvalue⟩ := (Decimal.shortest x.abs).exists_numeral
  refine ⟨⟨x.isNegative, m⟩, ?_, rfl, ?_⟩
  · rw [literal_of_finite h, ← hchars]
    rfl
  · rw [← hvalue]
    rfl

theorem roundsTo_of_literal (h : x.isFinite = true) {l : RealLiteral} (htext : l.text = x.literal) :
    l.negative = x.isNegative ∧ RoundsTo l.value x := by
  obtain ⟨l', htext', hsign, hvalue⟩ := exists_literal h
  obtain rfl := RealLiteral.text_inj (htext.trans htext'.symm)
  have hreads := (Decimal.shortest_spec (isFinite_abs h) x.isNegative_abs).1
  exact ⟨hsign, hvalue ▸ (roundsTo_iff_readsAs h _).mpr hreads⟩

end Binary64

/-- The text written for a finite number is that of exactly one literal. Of the numbers with its
sign this one alone is what the denoted decimal rounds to. No decimal that rounds to it has fewer
digits, and seventeen are always enough. Different finite numbers have different texts. -/
theorem literals_read_back :
    (∀ x : Binary64, x.isFinite = true → ∃ l : RealLiteral,
      (∀ l' : RealLiteral, l'.text = x.literal ↔ l' = l) ∧
      (∀ y : Binary64, RoundsTo l.value y ∧ y.isNegative = l.negative ↔ y = x) ∧
      ∃ d : Decimal, l.value = signed l.negative d.toRat ∧ d.digits < 10 ^ 17 ∧
        ∀ (d' : Decimal) (n : Nat), RoundsTo (signed l.negative d'.toRat) x →
          d'.digits < 10 ^ n → d.digits < 10 ^ n) ∧
    ∀ x y : Binary64, x.isFinite = true → y.isFinite = true → x.literal = y.literal → x = y := by
  constructor
  · intro x hx
    obtain ⟨l, htext, hsign, hvalue⟩ := exists_literal hx
    obtain ⟨-, hround⟩ := roundsTo_of_literal hx htext
    obtain ⟨-, p, hp, hdigits, hfewest⟩ :=
      Decimal.shortest_spec (isFinite_abs hx) x.isNegative_abs
    have hmono {n : Nat} (h : p ≤ n) : (Decimal.shortest x.abs).digits < 10 ^ n :=
      hdigits.trans_le (Nat.pow_le_pow_right (by decide) h)
    refine ⟨l, fun l' => ?_, fun y => ?_, Decimal.shortest x.abs, ?_, hmono hp, ?_⟩
    · rw [← htext]
      exact ⟨RealLiteral.text_inj, congrArg RealLiteral.text⟩
    · constructor
      · rintro ⟨hy, hysign⟩
        exact hy.unique hround (hysign.trans hsign)
      · rintro rfl
        exact ⟨hround, hsign.symm⟩
    · rw [hvalue, hsign]
    · intro d' n hd' hn
      rw [hsign, roundsTo_iff_readsAs hx] at hd'
      exact hmono (hfewest d' n hn hd')
  · intro x y hx hy heq
    obtain ⟨l, htext, -⟩ := exists_literal hx
    obtain ⟨hxsign, hxround⟩ := roundsTo_of_literal hx htext
    obtain ⟨hysign, hyround⟩ := roundsTo_of_literal hy (htext.trans heq)
    exact hxround.unique hyround (hxsign.symm.trans hysign)

theorem least_normal_reads_back :
    (⟨0x8010000000000000⟩ : Binary64).isFinite = true ∧
    (∃ l : RealLiteral, l.text = "-2.2250738585072014e-308" ∧ l.negative = true ∧
      RoundsTo l.value ⟨0x8010000000000000⟩) ∧
    (⟨0⟩ : Binary64).literal ≠ (⟨0x8000000000000000⟩ : Binary64).literal := by
  have hfinite : (⟨0x8010000000000000⟩ : Binary64).isFinite = true := by decide
  have hliteral : (⟨0x8010000000000000⟩ : Binary64).literal = "-2.2250738585072014e-308" := by
    decide +kernel
  obtain ⟨l, htext, hround, -⟩ := literals_read_back.1 _ hfinite
  obtain ⟨hrounds, hsign⟩ := (hround _).mpr rfl
  refine ⟨hfinite, ⟨l, ((htext l).mpr rfl).trans hliteral, hsign.symm.trans (by decide), hrounds⟩,
    fun h => ?_⟩
  exact absurd (literals_read_back.2 _ _ (by decide) (by decide) h) (by decide)

end OpenQasm
