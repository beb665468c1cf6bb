/-!
# Fixed points by passes

A pass improves a state in place, or meets a number that is out of range and
answers `none`. Passes are repeated until one of them changes nothing; that one
is still counted.
-/

namespace Predictive

theorem invariant_of_foldlM {σ ι : Type} {P : σ → Prop} {step : σ → ι → Option σ} : ∀ {items : List ι} {s t : σ},
    (∀ x ∈ items, ∀ s t, P s → step s x = some t → P t) → P s → items.foldlM step s = some t → P t
  | [], s, t, _, hs, h => by
    cases h
    exact hs
  | x :: items, s, t, hstep, hs, h => by
    rw [List.foldlM_cons] at h
    obtain ⟨m, hm, h⟩ := Option.bind_eq_some_iff.mp h
    obtain ⟨hx, hitems⟩ := List.forall_mem_cons.mp hstep
    exact invariant_of_foldlM hitems (hx s m hs hm) h

section
variable {σ : Type} [DecidableEq σ] (pass : σ → Option σ)

/-- The states after each pass, up to the first that changes nothing. At most
`bound` passes are made. -/
def passes : Nat → σ → Option (List σ)
  | 0, _ => some []
  | bound + 1, s =>
    (pass s).bind fun t => if t = s then some [t] else (passes bound t).map (t :: ·)

def settle (bound : Nat) (s : σ) : Option σ := (passes pass bound s).map (·.getLastD s)

variable {pass}

theorem passes_succ {bound : Nat} {s t : σ} (h : pass s = some t) :
    passes pass (bound + 1) s = if t = s then some [t] else (passes pass bound t).map (t :: ·) := by
  simp [passes, h]

theorem passes_succ_eq_none {bound : Nat} {s : σ} (h : pass s = none) :
    passes pass (bound + 1) s = none := by
  simp [passes, h]

theorem invariant_of_passes {P : σ → Prop} (hpass : ∀ s t, P s → pass s = some t → P t) :
    ∀ {bound : Nat} {s : σ} {states : List σ}, P s → passes pass bound s = some states → ∀ t ∈ states, P t
  | 0, s, states, _, h => by
    cases h
    simp
  | bound + 1, s, states, hs, h => by
    obtain ⟨m, hm, h⟩ := Option.bind_eq_some_iff.mp h
    have hPm := hpass s m hs hm
    split at h
    · cases h
      simpa using hPm
    · obtain ⟨rest, hrest, rfl⟩ := Option.map_eq_some_iff.mp h
      have ih := invariant_of_passes hpass hPm hrest
      simpa [hPm] using ih

/-- A higher bound changes nothing if every pass that changes a state makes it heavier and there is no room for
more of them. -/
theorem passes_eq_of_le {P : σ → Prop} {μ : σ → Nat} {c : Nat}
    (hpass : ∀ s t, P s → pass s = some t → P t ∧ (t = s ∨ μ s < μ t)) (hc : ∀ s, P s → μ s ≤ c) {bound bound' : Nat}
    (hle : bound ≤ bound') {s : σ} (hs : P s) (hroom : c < μ s + bound) : passes pass bound s = passes pass bound' s := by
  induction bound generalizing bound' s with
  | zero => exact absurd (hc s hs) (Nat.not_le_of_lt hroom)
  | succ bound ih =>
    obtain ⟨bound', rfl⟩ := Nat.exists_eq_add_of_le' (Nat.le_trans (Nat.succ_le_succ (Nat.zero_le _)) hle)
    cases ht : pass s with
    | none => rw [passes_succ_eq_none ht, passes_succ_eq_none ht]
    | some t =>
      obtain ⟨hPt, hst⟩ := hpass s t hs ht
      rw [passes_succ ht, passes_succ ht]
      by_cases e : t = s
      · rw [if_pos e, if_pos e]
      · have hlt := hst.resolve_left e
        rw [if_neg e, if_neg e, ih (Nat.le_of_succ_le_succ hle) hPt (by omega)]

end

/-- The state after `limit` of the passes, or after all of them if there are
fewer or no limit is set. -/
def stateAfter {σ : Type} (initial : σ) (states : List σ) : Option Nat → σ
  | none => states.getLastD initial
  | some limit => (states.take limit).getLastD initial

theorem stateAfter_mem {σ : Type} (initial : σ) (states : List σ) (limit : Option Nat) :
    stateAfter initial states limit ∈ initial :: states := by
  cases limit with
  | none => exact List.getLastD_mem_cons
  | some limit => exact List.cons_subset_cons initial (List.take_subset limit states) List.getLastD_mem_cons

theorem stateAfter_induction {σ : Type} {P : σ → Prop} {initial : σ} {states : List σ} (hinitial : P initial)
    (hstates : ∀ s ∈ states, P s) (limit : Option Nat) : P (stateAfter initial states limit) :=
  List.forall_mem_cons.mpr ⟨hinitial, hstates⟩ _ (stateAfter_mem initial states limit)

end Predictive
