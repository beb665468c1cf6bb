import Mathlib.Algebra.Group.Nat.Defs
import Predictive.Text.Order

/-!
# The order of names by bytes

UTF-8 keeps the order of code points: of two characters the smaller one has the
smaller byte at the first place where their bytes differ. So names compared by
code points are in the order of their bytes.
-/

namespace Predictive.Text

def utf8Bytes (s : String) : List UInt8 := s.toByteArray.data.toList

theorem utf8Bytes_eq (s : String) : utf8Bytes s = s.toList.flatMap String.utf8EncodeChar := by
  have h : s.toByteArray = s.toList.utf8Encode := by rw [← String.toByteArray_ofList, String.ofList_toList]
  rw [utf8Bytes, h, List.utf8Encode, List.toList_data_toByteArray]

/-- The bytes differ, and at the first such place the left one is smaller. -/
def Splits : List UInt8 → List UInt8 → Prop
  | a :: as, b :: bs => a < b ∨ a = b ∧ Splits as bs
  | _, _ => False

theorem Splits.append_lt : ∀ {as bs : List UInt8}, Splits as bs → ∀ cs ds : List UInt8, as ++ cs < bs ++ ds
  | a :: as, b :: bs, h, cs, ds => by
    rw [List.cons_append, List.cons_append, List.cons_lt_cons_iff]
    exact h.imp_right fun ⟨e, h⟩ => ⟨e, h.append_lt cs ds⟩

theorem splits_cons {m n : Nat} {as bs : List UInt8} (hn : n < 256) (hle : m ≤ n) (h : m = n → Splits as bs) :
    Splits (UInt8.ofNat m :: as) (UInt8.ofNat n :: bs) := by
  rcases Nat.lt_or_eq_of_le hle with hlt | heq
  · refine Or.inl ?_
    rw [UInt8.lt_iff_toNat_lt, UInt8.toNat_ofNat', UInt8.toNat_ofNat']
    omega
  · exact Or.inr ⟨congrArg UInt8.ofNat heq, h heq⟩

/-- The bytes after the first one, six bits in each. -/
def laterBytes : Nat → Nat → List UInt8
  | 0, _ => []
  | k + 1, n => UInt8.ofNat (n / 64 ^ k % 64 + 128) :: laterBytes k n

theorem splits_laterBytes {k m n : Nat} (h : m % 64 ^ k < n % 64 ^ k) : Splits (laterBytes k m) (laterBytes k n) := by
  induction k with
  | zero => simp [Nat.mod_one] at h
  | succ k ih =>
    have hn : n % 64 ^ k < 64 ^ k := Nat.mod_lt n (Nat.pow_pos (by decide))
    rw [Nat.pow_succ, Nat.mod_mul, Nat.mod_mul] at h
    have hle : m / 64 ^ k % 64 ≤ n / 64 ^ k % 64 := by
      apply Nat.le_of_not_lt
      intro hgt
      have hstep := Nat.mul_le_mul_left (64 ^ k) (Nat.succ_le_of_lt hgt)
      rw [Nat.mul_succ] at hstep
      omega
    apply splits_cons (by omega) (by omega)
    intro heq
    have hsame : m / 64 ^ k % 64 = n / 64 ^ k % 64 := by omega
    rw [hsame] at h
    exact ih (by omega)

theorem splits_utf8EncodeChar {a b : Char} (h : a.toNat < b.toNat) :
    Splits (String.utf8EncodeChar a) (String.utf8EncodeChar b) := by
  have hb : b.val.toNat < 0x110000 := by
    have hvalid : b.val.toNat < 0xd800 ∨ 0xdfff < b.val.toNat ∧ b.val.toNat < 0x110000 := b.valid
    omega
  have h : a.val.toNat < b.val.toNat := h
  have hone : ∀ m, [UInt8.ofNat (m % 64 + 128)] = laterBytes 1 m := by simp [laterBytes]
  have htwo : ∀ m, UInt8.ofNat (m / 64 % 64 + 128) :: laterBytes 1 m = laterBytes 2 m := by simp [laterBytes]
  have hthree : ∀ m, UInt8.ofNat (m / 4096 % 64 + 128) :: laterBytes 2 m = laterBytes 3 m := by simp [laterBytes]
  unfold String.utf8EncodeChar
  simp only [hone, htwo, hthree]
  generalize a.val.toNat = m at h ⊢
  generalize b.val.toNat = n at h hb ⊢
  -- the first byte tells how many there are, and is greater if there are more
  by_cases h₁ : n ≤ 127
  · rw [if_pos h₁, if_pos (by omega)]
    exact splits_cons (by omega) (by omega) (by omega)
  rw [if_neg h₁]
  by_cases h₂ : n ≤ 2047
  · rw [if_pos h₂]
    split
    · exact splits_cons (by omega) (by omega) (by omega)
    rw [if_pos (by omega)]
    exact splits_cons (by omega) (by omega) fun hfirst => splits_laterBytes (by omega)
  rw [if_neg h₂]
  by_cases h₃ : n ≤ 65535
  · rw [if_pos h₃]
    split
    · exact splits_cons (by omega) (by omega) (by omega)
    split
    · exact splits_cons (by omega) (by omega) (by omega)
    rw [if_pos (by omega)]
    exact splits_cons (by omega) (by omega) fun hfirst => splits_laterBytes (by omega)
  rw [if_neg h₃]
  split
  · exact splits_cons (by omega) (by omega) (by omega)
  split
  · exact splits_cons (by omega) (by omega) (by omega)
  split
  · exact splits_cons (by omega) (by omega) (by omega)
  exact splits_cons (by omega) (by omega) fun hfirst => splits_laterBytes (by omega)

theorem utf8EncodeChar_ne_nil (c : Char) : String.utf8EncodeChar c ≠ [] := by
  unfold String.utf8EncodeChar
  dsimp only
  split <;> (try split) <;> (try split) <;> simp

theorem flatMap_lt_of_before {as bs : List Char} (h : Before as bs) :
    as.flatMap String.utf8EncodeChar < bs.flatMap String.utf8EncodeChar := by
  induction as generalizing bs with
  | nil =>
    cases bs with
    | nil => exact h.elim
    | cons b bs =>
      obtain ⟨x, xs, hx⟩ := List.exists_cons_of_ne_nil (utf8EncodeChar_ne_nil b)
      simp [hx]
  | cons a as ih =>
    cases bs with
    | nil => exact h.elim
    | cons b bs =>
      rw [List.flatMap_cons, List.flatMap_cons]
      rcases h with h | ⟨rfl, h⟩
      · exact (splits_utf8EncodeChar h).append_lt _ _
      · exact List.append_left_lt (ih h)

/-- Code points and bytes order names in the same way. -/
theorem before_iff_bytes {s t : String} : Before s.toList t.toList ↔ utf8Bytes s < utf8Bytes t := by
  have hbytes : ∀ {s t : String}, Before s.toList t.toList → utf8Bytes s < utf8Bytes t := by
    intro s t h
    rw [utf8Bytes_eq, utf8Bytes_eq]
    exact flatMap_lt_of_before h
  refine ⟨hbytes, fun h => Classical.byContradiction fun hst => ?_⟩
  by_cases hts : Before t.toList s.toList
  · exact List.lt_asymm h (hbytes hts)
  · rw [String.toList_inj.mp (eq_of_not_before hst hts)] at h
    exact List.lt_irrefl _ h

end Predictive.Text
