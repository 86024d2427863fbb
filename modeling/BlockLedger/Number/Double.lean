/-
# Doubles

A double is kept as its 64 bits, so that a number that was stored comes back with all of them, also
where they stand for no number at all.  To calculate with doubles they are taken out of their bits,
and the result is put back.
-/

namespace BlockLedger

/-- A number in double precision, by its bits. -/
structure Double where
  bits : UInt64
  deriving DecidableEq, Inhabited, Repr

namespace Double

/-- The number that the bits stand for. -/
def toFloat (x : Double) : Float := .ofBits x.bits

/-- The bits of a number. -/
def ofFloat (x : Float) : Double := ⟨x.toBits⟩

/-- The double nearest to a natural number. -/
def ofNat (n : Nat) : Double := ofFloat (.ofNat n)

/-- The double nearest to an integer. -/
def ofInt (i : Int) : Double := ofFloat (.ofInt i)

instance : Zero Double := ⟨⟨0⟩⟩

instance : Add Double := ⟨fun x y => ofFloat (x.toFloat + y.toFloat)⟩

instance : Sub Double := ⟨fun x y => ofFloat (x.toFloat - y.toFloat)⟩

instance : Mul Double := ⟨fun x y => ofFloat (x.toFloat * y.toFloat)⟩

instance : Div Double := ⟨fun x y => ofFloat (x.toFloat / y.toFloat)⟩

end Double

end BlockLedger
