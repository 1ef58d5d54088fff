import Mathlib.Algebra.Ring.Nat

/-!
# Exclusive ownership

Several owners, each of which owns at most one thing; zero stands for owning nothing. A step of a
protocol hands things over: two owners exchange what they own, an owner gives up what it owns, or
an owner that had nothing gets something nobody owned.
-/

namespace Utilpp.Lib

variable {ω π : Type*} [Zero π]

/-- No two owners own the same thing. -/
def Exclusive (owns : ω → π) : Prop := ∀ o o', owns o ≠ 0 → owns o = owns o' → o = o'

/-- Exchanging what `a` and `b` own. -/
theorem Exclusive.exchange {owns owns' : ω → π} (h : Exclusive owns) {a b : ω}
    (ha : owns' a = owns b) (hb : owns' b = owns a)
    (hother : ∀ o, o ≠ a → o ≠ b → owns' o = owns o) : Exclusive owns' := by
  intro o o' hne heq
  by_cases hoa : o = a <;> by_cases hob : o = b <;> by_cases hoa' : o' = a <;>
    by_cases hob' : o' = b <;> grind [Exclusive]

/-- Giving up what `a` owns. -/
theorem Exclusive.release {owns owns' : ω → π} (h : Exclusive owns) {a : ω} (ha : owns' a = 0)
    (hother : ∀ o, o ≠ a → owns' o = owns o) : Exclusive owns' := by
  intro o o' hne heq
  by_cases hoa : o = a <;> by_cases hoa' : o' = a <;> grind [Exclusive]

/-- Giving `a` something that nobody owns. -/
theorem Exclusive.acquire {owns owns' : ω → π} (h : Exclusive owns) {a : ω}
    (hfree : ∀ o, owns o ≠ owns' a) (hother : ∀ o, o ≠ a → owns' o = owns o) :
    Exclusive owns' := by
  intro o o' hne heq
  by_cases hoa : o = a <;> by_cases hoa' : o' = a <;> grind [Exclusive]

end Utilpp.Lib
