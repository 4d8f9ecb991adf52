import Chaining.Keying

/-!
# Laws of keyings

Nothing in the library asks for these laws. They are what a caller promises
where a map is to be more than a well-formed table: that its comparison is
symmetric and transitive, so that no two pairs of one bucket are found equal;
and, to be `Lawful`, that it is reflexive and that keys found equal hash alike,
so that a map is a map from classes of equal keys.
-/

namespace Chaining.Keying

universe u

variable {K : Type u}

/-- The comparison is symmetric and transitive. A key need not be equal to
itself, and the hash may be anything. -/
structure PartialEquivalence (ks : Keying K) : Prop where
  symm : ∀ {a b}, ks.equals a b = true → ks.equals b a = true
  trans : ∀ {a b c}, ks.equals a b = true → ks.equals b c = true → ks.equals a c = true

/-- The comparison is an equivalence, and equal keys hash alike. -/
structure Lawful (ks : Keying K) : Prop extends PartialEquivalence ks where
  refl : ∀ a, ks.equals a a = true
  hash_eq : ∀ {a b}, ks.equals a b = true → ks.hash a = ks.hash b

theorem PartialEquivalence.symm_false {ks : Keying K} (h : ks.PartialEquivalence) {a b : K}
    (hab : ks.equals a b = false) : ks.equals b a = false := by
  rw [Bool.eq_false_iff] at hab ⊢
  exact fun hba => hab (h.symm hba)

/-- Keys told apart by a machine word are lawful, whatever their type. -/
theorem lawful_word (K : Type u) [WordKey K] : (word : Keying K).Lawful where
  symm h := beq_iff_eq.mpr (beq_iff_eq.mp h).symm
  trans h h' := beq_iff_eq.mpr ((beq_iff_eq.mp h).trans (beq_iff_eq.mp h'))
  refl _ := beq_iff_eq.mpr rfl
  hash_eq h := beq_iff_eq.mp h

/-- Where keys found equal are the same key, any hash will do. -/
theorem lawful_beq [BEq K] [LawfulBEq K] (hash : K → UInt64) :
    (⟨hash, (· == ·)⟩ : Keying K).Lawful where
  symm h := beq_iff_eq.mpr (eq_of_beq h).symm
  trans h h' := beq_iff_eq.mpr ((eq_of_beq h).trans (eq_of_beq h'))
  refl _ := beq_iff_eq.mpr rfl
  hash_eq h := congrArg hash (eq_of_beq h)

theorem lawful_text : text.Lawful :=
  lawful_beq Times33.ofText

end Chaining.Keying
