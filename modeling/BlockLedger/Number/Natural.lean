/-
# Powers of natural numbers

What runs stands on the core library alone, and what is proved of it may stand on an algebra that
has powers of its own, equal to those of the core library but written otherwise.  A power of a
natural number is always the one of the core library, so that a text means the same in both places.
-/

attribute [instance (high), default_instance 20000] instPowNat
