/-!
# Lists in strictly ascending order of a key

`insertByKey` keeps such a list ascending and holds one element per key, the
latest one inserted. An ascending list is determined by its members
(`Ascending.ext`), so a set kept this way has one representation.
-/

namespace Predictive

/-- An order in which of two keys exactly one is before the other, unless they
are equal. -/
class KeyOrder (κ : Type) where
  before : κ → κ → Prop
  decBefore : DecidableRel before
  before_irrefl : ∀ a : κ, ¬ before a a
  before_trans : ∀ {a b c : κ}, before a b → before b c → before a c
  before_connected : ∀ {a b : κ}, ¬ before a b → ¬ before b a → a = b

open KeyOrder

instance {κ : Type} [KeyOrder κ] : DecidableRel (@before κ _) := decBefore

section
variable {α κ : Type} [KeyOrder κ] (key : α → κ)

def Ascending (l : List α) : Prop := l.Pairwise fun a b => before (key a) (key b)

instance (l : List α) : Decidable (Ascending key l) :=
  inferInstanceAs (Decidable (l.Pairwise _))

/-- Puts `a` at its place, in place of an element with the same key. -/
def insertByKey (a : α) : List α → List α
  | [] => [a]
  | b :: l =>
    if before (key a) (key b) then a :: b :: l
    else if before (key b) (key a) then b :: insertByKey a l
    else a :: l

variable {key}

theorem Ascending.key_ne {a : α} {l : List α} (h : Ascending key (a :: l)) {x : α} (hx : x ∈ l) :
    key x ≠ key a := fun e =>
  before_irrefl (key a) (e ▸ (List.pairwise_cons.1 h).1 x hx : before (key a) (key a))

theorem Ascending.nodup_map {l : List α} (h : Ascending key l) : (l.map key).Nodup := by
  refine List.pairwise_map.2 (h.imp ?_)
  intro a b hab e
  exact before_irrefl (key b) (e ▸ hab)

theorem mem_insertByKey {a x : α} {l : List α} (h : Ascending key l) :
    x ∈ insertByKey key a l ↔ x = a ∨ x ∈ l ∧ key x ≠ key a := by
  induction l with
  | nil => simp [insertByKey]
  | cons b l ih =>
    have hl := (List.pairwise_cons.1 h).2
    have hb := (List.pairwise_cons.1 h).1
    rw [insertByKey]
    split
    · rename_i hab
      have hne : ∀ y ∈ b :: l, key y ≠ key a := by
        intro y hy e
        rcases List.mem_cons.1 hy with rfl | hy
        · exact before_irrefl _ (e ▸ hab)
        · exact before_irrefl _ (e ▸ before_trans hab (hb y hy))
      constructor
      · intro hx
        rcases List.mem_cons.1 hx with rfl | hx
        · exact .inl rfl
        · exact .inr ⟨hx, hne x hx⟩
      · rintro (rfl | ⟨hx, _⟩)
        · exact List.mem_cons_self
        · exact List.mem_cons_of_mem _ hx
    · rename_i hab
      split
      · rename_i hba
        have hne : key b ≠ key a := fun e => before_irrefl _ (e ▸ hba)
        rw [List.mem_cons, ih hl, List.mem_cons]
        constructor
        · rintro (rfl | hx | ⟨hx, he⟩)
          · exact .inr ⟨.inl rfl, hne⟩
          · exact .inl hx
          · exact .inr ⟨.inr hx, he⟩
        · rintro (hx | ⟨rfl | hx, he⟩)
          · exact .inr (.inl hx)
          · exact .inl rfl
          · exact .inr (.inr ⟨hx, he⟩)
      · rename_i hba
        have e : key a = key b := before_connected hab hba
        rw [List.mem_cons, List.mem_cons]
        constructor
        · rintro (rfl | hx)
          · exact .inl rfl
          · exact .inr ⟨.inr hx, e ▸ h.key_ne hx⟩
        · rintro (rfl | ⟨rfl | hx, he⟩)
          · exact .inl rfl
          · exact absurd e.symm he
          · exact .inr hx

theorem Ascending.insertByKey (a : α) {l : List α} (h : Ascending key l) :
    Ascending key (insertByKey key a l) := by
  induction l with
  | nil => simp [Predictive.insertByKey, Ascending]
  | cons b l ih =>
    have hl := (List.pairwise_cons.1 h).2
    have hb := (List.pairwise_cons.1 h).1
    rw [Predictive.insertByKey]
    split
    · rename_i hab
      refine List.pairwise_cons.2 ⟨fun y hy => ?_, h⟩
      rcases List.mem_cons.1 hy with rfl | hy
      · exact hab
      · exact before_trans hab (hb y hy)
    · rename_i hab
      split
      · rename_i hba
        refine List.pairwise_cons.2 ⟨fun y hy => ?_, ih hl⟩
        rcases (mem_insertByKey hl).1 hy with rfl | ⟨hy, _⟩
        · exact hba
        · exact hb y hy
      · rename_i hba
        have e : key a = key b := before_connected hab hba
        exact List.pairwise_cons.2 ⟨fun y hy => e ▸ hb y hy, hl⟩

theorem ascending_foldr_insertByKey (l : List α) : Ascending key (l.foldr (Predictive.insertByKey key) []) := by
  induction l with
  | nil => exact List.Pairwise.nil
  | cons a l ih => exact ih.insertByKey a

theorem mem_foldr_insertByKey {l : List α} (h : ∀ x ∈ l, ∀ y ∈ l, key x = key y → x = y) {x : α} :
    x ∈ l.foldr (Predictive.insertByKey key) [] ↔ x ∈ l := by
  induction l with
  | nil => simp
  | cons a l ih =>
    have hl : ∀ x ∈ l, ∀ y ∈ l, key x = key y → x = y := fun x hx y hy =>
      h x (List.mem_cons_of_mem a hx) y (List.mem_cons_of_mem a hy)
    rw [List.foldr_cons, mem_insertByKey (ascending_foldr_insertByKey l), ih hl, List.mem_cons]
    by_cases hx : x ∈ l
    · have hkey : key x = key a → x = a := h x (List.mem_cons_of_mem a hx) a List.mem_cons_self
      simp only [hx, true_and, or_true, iff_true]
      exact Classical.or_iff_not_imp_right.mpr fun hno => hkey (Classical.not_not.mp hno)
    · simp [hx]

theorem Ascending.filter (p : α → Bool) {l : List α} (h : Ascending key l) :
    Ascending key (l.filter p) :=
  List.Pairwise.filter p h

theorem Ascending.ext {l m : List α} (hl : Ascending key l) (hm : Ascending key m)
    (h : ∀ x, x ∈ l ↔ x ∈ m) : l = m := by
  induction l generalizing m with
  | nil =>
    cases m with
    | nil => rfl
    | cons b m => exact absurd ((h b).2 List.mem_cons_self) List.not_mem_nil
  | cons a l ih =>
    cases m with
    | nil => exact absurd ((h a).1 List.mem_cons_self) List.not_mem_nil
    | cons b m =>
      have hab : a = b := by
        rcases List.mem_cons.1 ((h a).1 List.mem_cons_self) with e | ha
        · exact e
        · rcases List.mem_cons.1 ((h b).2 List.mem_cons_self) with e | hb
          · exact e.symm
          · exact absurd (before_trans ((List.pairwise_cons.1 hl).1 b hb) ((List.pairwise_cons.1 hm).1 a ha))
              (before_irrefl _)
      subst hab
      congr 1
      refine ih (List.pairwise_cons.1 hl).2 (List.pairwise_cons.1 hm).2 fun x => ?_
      constructor
      · intro hx
        rcases List.mem_cons.1 ((h x).1 (List.mem_cons_of_mem _ hx)) with e | hx'
        · exact absurd (congrArg key e) (hl.key_ne hx)
        · exact hx'
      · intro hx
        rcases List.mem_cons.1 ((h x).2 (List.mem_cons_of_mem _ hx)) with e | hx'
        · exact absurd (congrArg key e) (hm.key_ne hx)
        · exact hx'

/-- A key is found with the element inserted last, and another key as before. -/
theorem find?_insertByKey [DecidableEq κ] (a : α) (k : κ) {l : List α} (h : Ascending key l) :
    (insertByKey key a l).find? (fun b => key b = k) =
      if key a = k then some a else l.find? (fun b => key b = k) := by
  induction l with
  | nil => by_cases e : key a = k <;> simp [insertByKey, e]
  | cons b l ih =>
    have hl := (List.pairwise_cons.1 h).2
    rw [insertByKey]
    split
    · by_cases e : key a = k <;> simp [List.find?_cons, e]
    · rename_i hab
      split
      · rename_i hba
        have hne : key b ≠ key a := fun e => before_irrefl _ (e ▸ hba)
        rw [List.find?_cons, List.find?_cons, ih hl]
        by_cases e : key a = k
        · subst e; simp [hne]
        · simp [e]
      · rename_i hba
        have e' : key a = key b := before_connected hab hba
        by_cases e : key a = k
        · simp [e]
        · have : ¬ key b = k := e' ▸ e
          simp [e, this]

theorem Ascending.mem_iff_find? [DecidableEq κ] {l : List α} (h : Ascending key l) {x : α} :
    x ∈ l ↔ l.find? (fun b => key b = key x) = some x := by
  refine ⟨fun hx => ?_, List.mem_of_find?_eq_some⟩
  induction l with
  | nil => exact absurd hx List.not_mem_nil
  | cons b l ih =>
    rcases List.mem_cons.1 hx with rfl | hx
    · simp
    · have hne : key b ≠ key x := fun e => h.key_ne hx e.symm
      simpa [hne] using ih (List.pairwise_cons.1 h).2 hx

end

end Predictive
