/-! A double taken apart into a sign, a natural significand and a power of two, which is all that
the texts of a number depend on. Statements over all doubles are made on these parts. -/

namespace PocketCalculator

/-- A finite double is `significand * 2 ^ exponent`, negated if `negative`; the two zeros differ in
their sign. -/
inductive Double where
  | nan
  | infinity (negative : Bool)
  | finite (negative : Bool) (significand : Nat) (exponent : Int)
  deriving DecidableEq, Repr

namespace Double

def ofBits (bits : Nat) : Double :=
  let negative := decide (bits / 0x8000000000000000 % 2 = 1)
  let exponent : Nat := bits / 0x10000000000000 % 0x800
  let fraction := bits % 0x10000000000000
  if exponent = 0x7FF then
    if fraction = 0 then infinity negative else nan
  -- Subnormals have no hidden leading bit.
  else if exponent = 0 then finite negative fraction (-1074)
  else finite negative (0x10000000000000 + fraction) ((exponent : Int) - 1075)

def ofFloat (x : Float) : Double := ofBits x.toBits.toNat

def IsFinite : Double → Prop
  | finite .. => True
  | _ => False

theorem isFinite_ofBits_iff {bits : Nat} :
    (ofBits bits).IsFinite ↔ bits / 0x10000000000000 % 0x800 ≠ 0x7FF := by
  simp only [ofBits]
  split
  · rename_i h
    split <;> exact ⟨False.elim, fun hn => hn h⟩
  · rename_i h
    split <;> exact ⟨fun _ => h, fun _ => trivial⟩

open Float.Model in
theorem isFinite_unpack_iff (b : BitVec 64) :
    (UnpackedFloat.unpack Format.binary64 b).isFinite = true ↔
      (@UnpackedFloat.unpackExponent Format.binary64 b).toNat ≠ 0x7FF := by
  change UnpackedFloat.isFinite (ite (@UnpackedFloat.unpackExponent Format.binary64 b = -1#_)
    (ite (@UnpackedFloat.unpackMantissa Format.binary64 b = 0#_) _ _)
    (ite (@UnpackedFloat.unpackExponent Format.binary64 b = 0#_)
      (dite (@UnpackedFloat.unpackMantissa Format.binary64 b = 0#_) _ _) _)) = true ↔ _
  by_cases he : @UnpackedFloat.unpackExponent Format.binary64 b = -1#_
  · refine ⟨fun hf => ?_, fun hn => absurd (congrArg BitVec.toNat he) hn⟩
    rw [if_pos he] at hf
    by_cases hm : @UnpackedFloat.unpackMantissa Format.binary64 b = 0#_
    · rw [if_pos hm] at hf; cases hf
    · rw [if_neg hm] at hf; cases hf
  · refine ⟨fun _ hn => he (BitVec.eq_of_toNat_eq hn), fun _ => ?_⟩
    rw [if_neg he]
    by_cases hz : @UnpackedFloat.unpackExponent Format.binary64 b = 0#_
    · rw [if_pos hz]
      by_cases hm : @UnpackedFloat.unpackMantissa Format.binary64 b = 0#_
      · rw [dif_pos hm]; rfl
      · rw [dif_neg hm]; rfl
    · rw [if_neg hz]; rfl

open Float.Model in
theorem isFinite_ofFloat_iff (x : Float) : (ofFloat x).IsFinite ↔ x.isFinite = true := by
  rw [ofFloat, isFinite_ofBits_iff]
  refine Iff.trans ?_ (isFinite_unpack_iff x.toBits.toBitVec).symm
  have e : (@UnpackedFloat.unpackExponent Format.binary64 x.toBits.toBitVec).toNat =
      x.toBits.toNat / 0x10000000000000 % 0x800 := by
    simp [UnpackedFloat.unpackExponent, Nat.shiftRight_eq_div_pow]
  rw [e]

end Double
end PocketCalculator
