import Mathlib
import Homoicon.Evaluate.Step
import Homoicon.Registry.Standard

/-!
# Integer arithmetic

The arithmetic operations on two integers give the exact result or a fault, and leave the machine
alone.  Division looks for zero among the decimals, so the first part of this module shows that an
integer turns into the decimal zero only if it is zero: the nearest binary64 number to any other
integer has an exponent field that is not zero.
-/

namespace Homoicon

/-! ### Integers as decimals -/

namespace Decimal

open Float.Model
open Float.Model.UnpackedFloat (unpackExponent unpackMantissa packedInfinity packedNaN
  unpackExponent_packComponents)

abbrev exponentField (bits : BitVec 64) : BitVec 11 := @unpackExponent .binary64 bits

abbrev fractionField (bits : BitVec 64) : BitVec 52 := @unpackMantissa .binary64 bits

/-- Bits with an exponent field that is not zero stand for no zero and for no subnormal number. -/
theorem unpack_cases {bits : BitVec 64} (h : exponentField bits ≠ 0#11) :
    (∃ s, UnpackedFloat.unpack .binary64 bits = .infinity s) ∨ UnpackedFloat.unpack .binary64 bits = .notANumber ∨
      exponentField bits ≠ -1#11 ∧ ∃ s m hm, m.log2 = 52 ∧
        UnpackedFloat.unpack .binary64 bits = .finite s m ((exponentField bits).toNat - 1075) hm := by
  have hmantissa : (1#1 ++ fractionField bits).toNat =
      2 ^ 52 + (fractionField bits).toNat := by
    rw [BitVec.toNat_append,
      ← Nat.shiftLeft_add_eq_or_of_lt (fractionField bits).isLt]
    rfl
  have hlt : (fractionField bits).toNat < 2 ^ 52 :=
    (fractionField bits).isLt
  unfold UnpackedFloat.unpack
  dsimp only
  split
  · split
    · exact .inl ⟨_, rfl⟩
    · exact .inr (.inl rfl)
  · rename_i hmax
    refine .inr (.inr ⟨hmax, _, (1#1 ++ fractionField bits).toNat,
      by omega, ?_, rfl⟩)
    rw [hmantissa]
    exact (Nat.log2_eq_iff (by omega)).2 (by omega)

theorem exponentField_pack {bits : BitVec 64} (h : exponentField bits ≠ 0#11) :
    exponentField (UnpackedFloat.pack .binary64 (UnpackedFloat.unpack .binary64 bits)) ≠ 0#11 := by
  rcases unpack_cases h with ⟨s, hs⟩ | hs | ⟨hmax, s, m, hm, hlog, hs⟩
  · rw [hs]
    simp only [UnpackedFloat.pack, packedInfinity, exponentField, unpackExponent_packComponents]
    decide
  · rw [hs]
    simp only [UnpackedFloat.pack, packedNaN, exponentField, unpackExponent_packComponents]
    decide
  · rw [hs]
    have hlt := (exponentField bits).isLt
    have hfull : (exponentField bits).toNat ≠ 2047 := fun he => hmax (BitVec.eq_of_toNat_eq he)
    have hbias : Format.binary64.exponentBias = 1023 := rfl
    have hfield : ((exponentField bits).toNat : Int) - 1075 + ((1023 : Nat) : Int)
        + ((52 : Nat) : Int) = (exponentField bits).toNat := by omega
    simp only [UnpackedFloat.pack, hbias, hfield, Int.toNat_natCast, hlog]
    rw [if_neg (by omega), if_pos (by rfl), exponentField, unpackExponent_packComponents]
    intro hz
    refine h (BitVec.eq_of_toNat_eq ?_)
    simpa [Nat.mod_eq_of_lt hlt] using congrArg BitVec.toNat hz

theorem unpack_zero : (0.0 : Float).toModel.unpack = .zero .positive := by
  have hbits : (0.0 : Float).toModel.toBits = 0 := by decide +kernel
  unfold Float.Model.unpack
  rw [hbits]
  rfl

theorem ofBits_beq_zero {bits : UInt64} (h : exponentField bits.toBitVec ≠ 0#11) :
    (Float.ofBits bits == 0.0) = false := by
  have hbits : exponentField (Float.ofBits bits).toModel.toBits.toBitVec ≠ 0#11 :=
    exponentField_pack h
  show ((Float.ofBits bits).toModel.unpack.compare (0.0 : Float).toModel.unpack == some .eq)
    = false
  rw [unpack_zero]
  unfold Float.Model.unpack
  rcases unpack_cases hbits with ⟨s, hs⟩ | hs | ⟨-, s, m, hm, -, hs⟩
  · rw [hs]
    cases s <;> rfl
  · rw [hs]
    rfl
  · rw [hs]
    cases s <;> rfl

theorem infinityBits_eq : infinityBits = 2047 * 2 ^ 52 := by
  rw [infinityBits, Nat.pow_eq]

theorem le_nearestBits {n : Nat} (hn : n ≠ 0) :
    2 ^ 52 ≤ nearestBits n 1 ∧ nearestBits n 1 ≤ 2047 * 2 ^ 52 := by
  have hone : Nat.log2 1 = 0 := rfl
  simp only [nearestBits, hn, if_false, hone, leastExponent, infinityBits_eq, Nat.pow_eq]
  generalize roundHalfEven _ _ = mantissa
  have htrial : -53 ≤ max ((n.log2 : Int) - ((0 : Nat) : Int) - 53) (-1074) := by omega
  generalize max ((n.log2 : Int) - ((0 : Nat) : Int) - 53) (-1074) = trial at htrial ⊢
  split <;> omega

theorem exponentField_toNat (bits : BitVec 64) :
    (exponentField bits).toNat = bits.toNat / 2 ^ 52 % 2 ^ 11 := by
  unfold exponentField unpackExponent
  rw [BitVec.toNat_cast, BitVec.extractLsb_toNat, Nat.shiftRight_eq_div_pow]
  rfl

theorem ofSignBits_beq_zero (negative : Bool) {bits : Nat} (hlow : 2 ^ 52 ≤ bits)
    (hhigh : bits ≤ 2047 * 2 ^ 52) : (ofSignBits negative bits == 0.0) = false := by
  refine ofBits_beq_zero fun hz => ?_
  have hfield := congrArg BitVec.toNat hz
  rw [exponentField_toNat, UInt64.toNat_toBitVec, UInt64.toNat_ofNat', Nat.pow_eq] at hfield
  simp only [BitVec.toNat_zero] at hfield
  cases negative with
  | false =>
    rw [if_neg Bool.false_ne_true] at hfield
    omega
  | true =>
    rw [if_pos rfl] at hfield
    omega

theorem ofInteger_beq_zero (n : Int64) : (ofInteger n == 0.0) = decide (n = 0) := by
  by_cases hn : n = 0
  · rw [hn]
    decide +kernel
  · rw [decide_eq_false hn]
    have habs : n.toInt.natAbs ≠ 0 := fun h => hn (Int64.toInt_inj.1 (Int.natAbs_eq_zero.1 h))
    obtain ⟨hlow, hhigh⟩ := le_nearestBits habs
    exact ofSignBits_beq_zero _ hlow hhigh

end Decimal

/-! ### 64 bits -/

namespace Source

/-- Whether an integer is one of 64 bits. -/
def Fits (z : Int) : Prop := -2 ^ 63 ≤ z ∧ z < 2 ^ 63

theorem fits_toInt (n : Int64) : Fits n.toInt := ⟨n.le_toInt, n.toInt_lt⟩

theorem fits_iff {z : Int} : Fits z ↔ Int64.minValue.toInt ≤ z ∧ z ≤ Int64.maxValue.toInt := by
  rw [Int64.toInt_minValue, Int64.toInt_maxValue]
  exact and_congr_right fun _ => Int.le_sub_one_iff.symm

theorem integer64?_eq_some_iff {z : Int} {n : Int64} : integer64? z = some n ↔ n.toInt = z := by
  unfold integer64?
  rw [Option.ite_none_right_eq_some, ← fits_iff, Option.some.injEq]
  constructor
  · rintro ⟨hfits, rfl⟩
    exact Int64.toInt_ofInt_of_le hfits.1 hfits.2
  · rintro rfl
    exact ⟨fits_toInt n, Int64.ofInt_toInt n⟩

theorem integer64?_eq_none_iff {z : Int} : integer64? z = none ↔ ¬Fits z := by
  unfold integer64?
  rw [ite_eq_right_iff, fits_iff]
  simp

end Source

open Source (Fits fits_toInt integer64?_eq_some_iff integer64?_eq_none_iff)

namespace CallState

variable {a b q : Int64}

variable {c : CallState}

/-- The integer `z`, or the fault of an integer that does not fit. -/
def exactly (z : Int) (text : String) : Except Fault Value :=
  match Source.integer64? z with
  | some n => .ok (.integer n)
  | none => .error (overflow text)

theorem ringResult_of_integers (hfirst : c.slot 0 = .integer a) (hsecond : c.slot 1 = .integer b)
    (op : Arithmetic) : c.ringResult op = exactly (op.exact a.toInt b.toInt)
      (integerText a ++ " " ++ op.symbol ++ " " ++ integerText b) := by
  simp only [ringResult, hfirst, hsecond]
  rfl

theorem negated_of_integer (hfirst : c.slot 0 = .integer a) :
    c.negated = exactly (-a.toInt) ("negate " ++ integerText a) := by
  simp only [negated, hfirst]
  rfl

theorem exactQuotient?_eq_some_iff :
    exactQuotient? a b = some q ↔ b ≠ 0 ∧ b.toInt ∣ a.toInt ∧ q.toInt = a.toInt / b.toInt := by
  have hzero : b.toInt ≠ 0 ↔ b ≠ 0 := not_congr (Int64.toInt_inj (y := 0))
  unfold exactQuotient?
  rw [Option.ite_none_right_eq_some, integer64?_eq_some_iff, ← Int.dvd_iff_tmod_eq_zero, hzero,
    and_assoc]
  refine and_congr_right fun _ => and_congr_right fun hdvd => ?_
  rw [Int.tdiv_eq_ediv_of_dvd hdvd]

theorem quotient_of_zero (hfirst : c.slot 0 = .integer a) (hsecond : c.slot 1 = .integer 0) :
    c.quotient = .error (.of (.native "attempt to divide by zero")) := by
  simp only [quotient, decimals, hfirst, hsecond, Value.asDecimal?, bind, Except.bind,
    Decimal.ofInteger_beq_zero, decide_true, if_true]

theorem quotient_of_integers (hfirst : c.slot 0 = .integer a) (hsecond : c.slot 1 = .integer b)
    (hb : b ≠ 0) : c.quotient = .ok (((exactQuotient? a b).map Value.integer).getD
      (.decimal (Decimal.ofInteger a / Decimal.ofInteger b))) := by
  simp only [quotient, decimals, hfirst, hsecond, Value.asDecimal?, bind, Except.bind, pure,
    Except.pure, Decimal.ofInteger_beq_zero, decide_eq_true_eq, hb, if_false]
  cases exactQuotient? a b <;> rfl

end CallState

/-! ### Exact or refused -/

namespace Operation

variable {op : Operation} {ev : Evaluator} {c : Call} {v w : Value} {z : Int}

/-- The operation gives `v` and leaves the machine alone. -/
def Gives (op : Operation) (ev : Evaluator) (c : Call) (v : Value) : Prop :=
  ∀ m, op.run ev c m = (.done (.out v), m)

/-- The operation fails with a fault of its own and leaves the machine alone. -/
def Refuses (op : Operation) (ev : Evaluator) (c : Call) : Prop :=
  ∃ text, ∀ m, op.run ev c m = (.failed (.of (.native text)), m)

/-- The operation gives the integer `z`, or refuses if `z` does not fit in 64 bits. -/
def IsExact (op : Operation) (ev : Evaluator) (c : Call) (z : Int) : Prop :=
  (Fits z → ∃ n : Int64, n.toInt = z ∧ op.Gives ev c (.integer n)) ∧
    (¬Fits z → op.Refuses ev c)

theorem Gives.unique (hv : op.Gives ev c v) (hw : op.Gives ev c w) : v = w := by
  have h := (hv default).symm.trans (hw default)
  injection h with h
  injection h with h
  injection h

theorem Gives.not_refuses (hv : op.Gives ev c v) : ¬op.Refuses ev c := by
  rintro ⟨text, htext⟩
  cases (hv default).symm.trans (htext default)

variable {kind : Arithmetic} {text : String}

theorem arithmetic_gives (h : kind.run c.state = .ok v) : (arithmetic kind).Gives ev c v := by
  intro m
  simp only [run, h]
  rfl

theorem arithmetic_refuses (h : kind.run c.state = .error (.of (.native text))) :
    (arithmetic kind).Refuses ev c := by
  refine ⟨text, fun m => ?_⟩
  simp only [run, h]
  rfl

theorem arithmetic_isExact (h : kind.run c.state = CallState.exactly z text) :
    (arithmetic kind).IsExact ev c z := by
  unfold CallState.exactly at h
  cases hn : Source.integer64? z with
  | none =>
    rw [hn] at h
    exact ⟨fun hfits => absurd hfits (integer64?_eq_none_iff.1 hn), fun _ => arithmetic_refuses h⟩
  | some n =>
    rw [hn] at h
    have hz := integer64?_eq_some_iff.1 hn
    exact ⟨fun _ => ⟨n, hz, arithmetic_gives h⟩, fun hfits => absurd (hz ▸ fits_toInt n) hfits⟩

variable {a b : Int64}

/-- Division of integers refuses exactly a divisor of zero, gives exact quotients that fit as
integers, and gives a decimal otherwise. -/
structure Divides (op : Operation) (ev : Evaluator) (c : Call) (a b : Int64) : Prop where
  refuses_iff : op.Refuses ev c ↔ b = 0
  integer_iff : ∀ q : Int64, op.Gives ev c (.integer q) ↔
    b ≠ 0 ∧ b.toInt ∣ a.toInt ∧ q.toInt = a.toInt / b.toInt
  decimal_iff : (∃ x, op.Gives ev c (.decimal x)) ↔
    b ≠ 0 ∧ ¬(b.toInt ∣ a.toInt ∧ Fits (a.toInt / b.toInt))

theorem divide_divides (hfirst : c.slot 0 = .integer a) (hsecond : c.slot 1 = .integer b) :
    (arithmetic .divide).Divides ev c a b := by
  by_cases hb : b = 0
  · have hrefuses : (arithmetic .divide).Refuses ev c :=
      arithmetic_refuses (CallState.quotient_of_zero hfirst (hb ▸ hsecond))
    refine ⟨iff_of_true hrefuses hb, fun q => ?_, ?_⟩
    · exact iff_of_false (fun hq => hq.not_refuses hrefuses) fun h => h.1 hb
    · exact iff_of_false (fun ⟨_, hx⟩ => hx.not_refuses hrefuses) fun h => h.1 hb
  · have hrun := CallState.quotient_of_integers hfirst hsecond hb
    cases hquotient : CallState.exactQuotient? a b with
    | some q =>
      have hgives : (arithmetic .divide).Gives ev c (.integer q) := by
        rw [hquotient] at hrun
        exact arithmetic_gives hrun
      obtain ⟨-, hdvd, hq⟩ := CallState.exactQuotient?_eq_some_iff.1 hquotient
      refine ⟨iff_of_false hgives.not_refuses hb, fun r => ⟨fun hr => ?_, fun hr => ?_⟩, ?_⟩
      · injection hr.unique hgives with hr
        exact hr ▸ ⟨hb, hdvd, hq⟩
      · rwa [Int64.toInt_inj.1 (hr.2.2.trans hq.symm)]
      · refine iff_of_false (fun ⟨x, hx⟩ => ?_) fun h => h.2 ⟨hdvd, hq ▸ fits_toInt q⟩
        cases hx.unique hgives
    | none =>
      have hgives : (arithmetic .divide).Gives ev c
          (.decimal (Decimal.ofInteger a / Decimal.ofInteger b)) := by
        rw [hquotient] at hrun
        exact arithmetic_gives hrun
      have hnone : ∀ q : Int64, ¬(b ≠ 0 ∧ b.toInt ∣ a.toInt ∧ q.toInt = a.toInt / b.toInt) := by
        intro q hq
        cases hquotient.symm.trans (CallState.exactQuotient?_eq_some_iff.2 hq)
      refine ⟨iff_of_false hgives.not_refuses hb, fun q => ?_, ?_⟩
      · refine iff_of_false (fun hq => ?_) (hnone q)
        cases hq.unique hgives
      · refine iff_of_true ⟨_, hgives⟩ ⟨hb, fun ⟨hdvd, hfits⟩ => ?_⟩
        exact hnone (Int64.ofInt _) ⟨hb, hdvd, Int64.toInt_ofInt_of_le hfits.1 hfits.2⟩

end Operation

namespace Registry

theorem operation_of_name : ∀ n ∈ standard.natives,
    (n.name = "add" → n.operation = .arithmetic .add) ∧
      (n.name = "subtract" → n.operation = .arithmetic .subtract) ∧
      (n.name = "multiply" → n.operation = .arithmetic .multiply) ∧
      (n.name = "negate" → n.operation = .arithmetic .negate) ∧
      (n.name = "divide" → n.operation = .arithmetic .divide) := by
  decide +kernel

end Registry

/-- The arithmetic of the standard library on integers.  Sums, differences, products and negations are
exact or refused.  A division refuses a divisor of zero and no other, gives exactly the quotients
that are integers and fit, which multiplied by the divisor give the dividend again, and gives a
decimal for all other pairs. -/
theorem integer_arithmetic (ev : Evaluator) (c : Call) (a : Int64)
    (hfirst : c.slot 0 = .integer a) (n : Native) (hn : n ∈ Registry.standard.natives) :
    (n.name = "negate" → n.operation.IsExact ev c (-a.toInt)) ∧
      ∀ b : Int64, c.slot 1 = .integer b →
        (n.name = "add" → n.operation.IsExact ev c (a.toInt + b.toInt)) ∧
        (n.name = "subtract" → n.operation.IsExact ev c (a.toInt - b.toInt)) ∧
        (n.name = "multiply" → n.operation.IsExact ev c (a.toInt * b.toInt)) ∧
        (n.name = "divide" → n.operation.Divides ev c a b ∧
          ∀ q : Int64, n.operation.Gives ev c (.integer q) →
            ∀ c' : Call, c'.slot 0 = .integer q → c'.slot 1 = .integer b →
              ∀ p ∈ Registry.standard.natives, p.name = "multiply" →
                p.operation.Gives ev c' (.integer a)) := by
  have hmultiply : ∀ p ∈ Registry.standard.natives, p.name = "multiply" →
      ∀ (c' : Call) (q b : Int64), c'.slot 0 = .integer q → c'.slot 1 = .integer b →
        p.operation.IsExact ev c' (q.toInt * b.toInt) := by
    intro p hp hname c' q b hq hb
    rw [(Registry.operation_of_name p hp).2.2.1 hname]
    exact Operation.arithmetic_isExact (CallState.ringResult_of_integers hq hb .multiply)
  obtain ⟨hadd, hsubtract, -, hnegate, hdivide⟩ := Registry.operation_of_name n hn
  refine ⟨fun hname => ?_, fun b hsecond => ⟨fun hname => ?_, fun hname => ?_, fun hname => ?_,
    fun hname => ?_⟩⟩
  · rw [hnegate hname]
    exact Operation.arithmetic_isExact (CallState.negated_of_integer hfirst)
  · rw [hadd hname]
    exact Operation.arithmetic_isExact (CallState.ringResult_of_integers hfirst hsecond .add)
  · rw [hsubtract hname]
    exact Operation.arithmetic_isExact (CallState.ringResult_of_integers hfirst hsecond .subtract)
  · exact hmultiply n hn hname c a b hfirst hsecond
  · rw [hdivide hname]
    have hdivides : (Operation.arithmetic .divide).Divides ev c a b :=
      Operation.divide_divides hfirst hsecond
    refine ⟨hdivides, fun q hq c' hq' hb' p hp hname' => ?_⟩
    obtain ⟨-, hdvd, hquotient⟩ := (hdivides.integer_iff q).1 hq
    have hproduct : q.toInt * b.toInt = a.toInt := by
      rw [hquotient, Int.ediv_mul_cancel hdvd]
    obtain ⟨m, hm, hgives⟩ := (hmultiply p hp hname' c' q b hq' hb').1 (hproduct ▸ fits_toInt a)
    rwa [← Int64.toInt_inj.1 (hm.trans hproduct)]

/-- A call of a binary operation on two integers. -/
def integerCall (a b : Int64) : Call :=
  ⟨{ id := 0, feed := 0 }, { action := default, label := "", slots := [.integer a, .integer b] }⟩

/-- The least integer divided by `-1` does not fit, so it is divided as a decimal. -/
theorem integer_arithmetic_least :
    ∃ n ∈ Registry.standard.natives, n.name = "divide" ∧ ∃ x, n.operation.Gives
      (Evaluator.ofConfig {}) (integerCall Int64.minValue (-1)) (.decimal x) := by
  refine ⟨{ name := "divide", spec := Registry.numbersSpec, operation := .arithmetic .divide },
    by decide +kernel, rfl, ?_⟩
  obtain ⟨-, hbinary⟩ := integer_arithmetic (Evaluator.ofConfig {})
    (integerCall Int64.minValue (-1)) Int64.minValue rfl
    { name := "divide", spec := Registry.numbersSpec, operation := .arithmetic .divide }
    (by decide +kernel)
  obtain ⟨-, -, -, hdivide⟩ := hbinary (-1) rfl
  refine ((hdivide rfl).1.decimal_iff).2 ⟨by decide, fun ⟨_, hfits⟩ => ?_⟩
  exact absurd hfits.2 (by decide)

end Homoicon
