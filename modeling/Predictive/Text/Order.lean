import Predictive.Ascending

/-!
# The order of names

Names are compared by code points, from the left; a name comes before every
longer name that it opens.
-/

namespace Predictive.Text

def Before : List Char → List Char → Prop
  | _, [] => False
  | [], _ :: _ => True
  | a :: as, b :: bs => a.toNat < b.toNat ∨ a = b ∧ Before as bs

instance Before.decide : DecidableRel Before
  | [], [] => inferInstanceAs (Decidable False)
  | _ :: _, [] => inferInstanceAs (Decidable False)
  | [], _ :: _ => inferInstanceAs (Decidable True)
  | a :: as, b :: bs =>
    have := Before.decide as bs
    inferInstanceAs (Decidable (a.toNat < b.toNat ∨ a = b ∧ Before as bs))

theorem before_irrefl (as : List Char) : ¬ Before as as := by
  induction as with
  | nil => exact id
  | cons a as ih =>
    rintro (h | h)
    · exact Nat.lt_irrefl _ h
    · exact ih h.2

theorem before_trans {as bs cs : List Char} (h₁ : Before as bs) (h₂ : Before bs cs) : Before as cs := by
  induction as generalizing bs cs with
  | nil =>
    cases bs with
    | nil => exact h₁.elim
    | cons b bs => cases cs with
      | nil => exact h₂.elim
      | cons c cs => trivial
  | cons a as ih =>
    cases bs with
    | nil => exact h₁.elim
    | cons b bs => cases cs with
      | nil => exact h₂.elim
      | cons c cs =>
        rcases h₁ with h₁ | ⟨rfl, h₁⟩
        · rcases h₂ with h₂ | ⟨rfl, _⟩
          · exact .inl (Nat.lt_trans h₁ h₂)
          · exact .inl h₁
        · rcases h₂ with h₂ | ⟨rfl, h₂⟩
          · exact .inl h₂
          · exact .inr ⟨rfl, ih h₁ h₂⟩

theorem eq_of_not_before {as bs : List Char} (h₁ : ¬ Before as bs) (h₂ : ¬ Before bs as) : as = bs := by
  induction as generalizing bs with
  | nil => cases bs with
    | nil => rfl
    | cons b bs => exact absurd trivial h₁
  | cons a as ih => cases bs with
    | nil => exact absurd trivial h₂
    | cons b bs =>
      have e : a = b := Char.toNat_inj.1 (Nat.le_antisymm
        (Nat.not_lt.1 fun h => h₂ (.inl h)) (Nat.not_lt.1 fun h => h₁ (.inl h)))
      subst e
      rw [ih (fun h => h₁ (.inr ⟨rfl, h⟩)) fun h => h₂ (.inr ⟨rfl, h⟩)]

instance : KeyOrder String where
  before s t := Before s.toList t.toList
  decBefore s t := Before.decide s.toList t.toList
  before_irrefl s := before_irrefl s.toList
  before_trans := before_trans
  before_connected h₁ h₂ := String.toList_inj.1 (eq_of_not_before h₁ h₂)

def sortNames (names : List String) : List String := names.foldr (insertByKey id) []

end Predictive.Text
