import Predictive.Analysis.Reports
import Predictive.Proofs.Nullability
import Predictive.Proofs.FollowClosure

/-!
# Loops end as bounded passes do

An item reports a change exactly if it leads to another state, and then some
weight has grown, so no later item can undo the change. So a pass reports what it
changed as a whole, a loop over such passes ends as soon as the weight has no
room, and what it hands over are the states of the passes under any bound that
has room for them.
-/

namespace Predictive

section
variable {σ ι : Type}

/-! ## Reports of several items -/

theorem Report.andThen?_unchanged (s : σ) (f : σ → Option (Report σ)) : Report.andThen? ⟨s, false⟩ f = f s := by
  simp [andThen?]

theorem foldlM_andThen? {step : σ → ι → Option (Report σ)} {items : List ι} (r : Report σ) :
    items.foldlM (fun r x => r.andThen? fun t => step t x) r = r.andThen? (reportedPass? step items) := by
  induction items generalizing r with
  | nil => simp [reportedPass?, Report.andThen?]
  | cons x items ih =>
    unfold reportedPass? at ih ⊢
    unfold Report.andThen? at ih ⊢
    simp only [List.foldlM_cons]
    cases step r.state x with
    | none => rfl
    | some q =>
      simp only [Option.map_some, Option.bind_eq_bind, Option.bind_some]
      rw [ih, ih ⟨q.state, false || q.changed⟩, Option.map_map]
      simp [Function.comp_def, Bool.or_assoc]

theorem reportedPass?_cons (step : σ → ι → Option (Report σ)) (x : ι) (items : List ι) (s : σ) :
    reportedPass? step (x :: items) s = (step s x).bind fun r => r.andThen? (reportedPass? step items) := by
  rw [reportedPass?, List.foldlM_cons, Report.andThen?_unchanged]
  exact congrArg (Option.bind _) (funext foldlM_andThen?)

/-! ## Reports that tell changes -/

variable [DecidableEq σ] {μ : σ → Nat}

/-- What is reported on `s` is the next state, and a change exactly if it is another one; then `μ` has grown. -/
structure Tells (μ : σ → Nat) (s : σ) (report : Option (Report σ)) (next : Option σ) : Prop where
  report_eq : report = next.map fun t => ⟨t, decide (t ≠ s)⟩
  rising : ∀ t, next = some t → t = s ∨ μ s < μ t

namespace Tells
variable {s t : σ} {report : Option (Report σ)} {next : Option σ} (h : Tells μ s report next)
include h

theorem of_next (ht : next = some t) : report = some ⟨t, decide (t ≠ s)⟩ := by
  rw [h.report_eq, ht, Option.map_some]

theorem next_eq {b : Bool} (ht : report = some ⟨t, b⟩) : next = some t ∧ b = decide (t ≠ s) := by
  rw [h.report_eq] at ht
  obtain ⟨u, hu, e⟩ := Option.map_eq_some_iff.mp ht
  cases e
  exact ⟨hu, rfl⟩

theorem of_unchanged (ht : report = some ⟨t, false⟩) : t = s ∧ next = some s := by
  obtain ⟨hnext, hb⟩ := h.next_eq ht
  have hts : t = s := by simpa using hb.symm
  exact ⟨hts, hts ▸ hnext⟩

theorem of_changed (ht : report = some ⟨t, true⟩) : t ≠ s ∧ next = some t ∧ μ s < μ t := by
  obtain ⟨hnext, hb⟩ := h.next_eq ht
  have hne : t ≠ s := of_decide_eq_true hb.symm
  exact ⟨hne, hnext, (h.rising t hnext).resolve_left hne⟩

theorem andThen? {f : σ → Option (Report σ)} {g : σ → Option σ} (hnext : ∀ t, next = some t → Tells μ t (f t) (g t)) :
    Tells μ s (report.bind fun r => r.andThen? f) (next.bind g) := by
  cases ht : next with
  | none =>
    rw [h.report_eq, ht]
    exact ⟨rfl, fun _ hu => by cases hu⟩
  | some t =>
    rw [h.of_next ht, Option.bind_some, Option.bind_some, Report.andThen?, (hnext t ht).report_eq, Option.map_map]
    -- a second change does not lead back, since the weight has grown
    have hboth : ∀ u, g t = some u → (u = s ∨ μ s < μ u) ∧ (decide (t ≠ s) || decide (u ≠ t)) = decide (u ≠ s) := by
      intro u hu
      rcases h.rising t ht with rfl | hst
      · exact ⟨(hnext t ht).rising u hu, by simp⟩
      rcases (hnext t ht).rising u hu with rfl | htu
      · exact ⟨Or.inr hst, by simp⟩
      have hsu : μ s < μ u := Nat.lt_trans hst htu
      have hts : t ≠ s := fun e => Nat.lt_irrefl _ (e ▸ hst)
      have hus : u ≠ s := fun e => Nat.lt_irrefl _ (e ▸ hsu)
      exact ⟨Or.inr hsu, by simp [hts, hus]⟩
    refine ⟨Option.map_congr fun u hu => ?_, fun u hu => (hboth u hu).1⟩
    exact congrArg (Report.mk u) (hboth u hu).2

end Tells

theorem Tells.bind {α : Type} {s : σ} {o : Option α} {f : α → Option (Report σ)} {g : α → Option σ}
    (h : ∀ x, o = some x → Tells μ s (f x) (g x)) : Tells μ s (o.bind f) (o.bind g) := by
  cases ho : o with
  | none => exact ⟨rfl, fun _ ht => by cases ht⟩
  | some x => exact h x ho

/-- On states with `p` the pass can be made and keeps `p`, and the reports tell changes. -/
structure Reporting (p : σ → Prop) (μ : σ → Nat) (reported : σ → Option (Report σ)) (pass : σ → Option σ) : Prop where
  tells : ∀ s, p s → Tells μ s (reported s) (pass s)
  total : ∀ s, p s → ∃ t, pass s = some t ∧ p t

variable {p : σ → Prop}

theorem Reporting.kept {reported : σ → Option (Report σ)} {pass : σ → Option σ} (h : Reporting p μ reported pass)
    {s t : σ} (hs : p s) (ht : pass s = some t) : p t := by
  obtain ⟨u, hu, hp⟩ := h.total s hs
  rw [ht, Option.some.injEq] at hu
  exact hu ▸ hp

theorem reporting_pass {step : σ → ι → Option (Report σ)} {next : σ → ι → Option σ} {items : List ι}
    (h : ∀ x ∈ items, Reporting p μ (fun s => step s x) fun s => next s x) :
    Reporting p μ (reportedPass? step items) fun s => items.foldlM next s := by
  induction items with
  | nil =>
    refine ⟨fun s _ => ⟨by simp [reportedPass?], fun t ht => ?_⟩, fun s hs => ⟨s, rfl, hs⟩⟩
    exact Or.inl (Option.some.inj ht).symm
  | cons x items ih =>
    have hx := h x List.mem_cons_self
    have hitems := ih fun y hy => h y (List.mem_cons_of_mem x hy)
    refine ⟨fun s hs => ?_, fun s hs => ?_⟩
    · rw [reportedPass?_cons, List.foldlM_cons]
      exact (hx.tells s hs).andThen? fun t ht => hitems.tells t (hx.kept hs ht)
    · obtain ⟨t, ht, hpt⟩ := hx.total s hs
      obtain ⟨u, hu, hpu⟩ := hitems.total t hpt
      exact ⟨u, by rw [List.foldlM_cons, ht]; exact hu, hpu⟩

/-! ## Loops and passes -/

variable {reported : σ → Option (Report σ)} {pass : σ → Option σ} {s last : σ} {states : List σ}

omit [DecidableEq σ] in
theorem Loop.length_pos (hloop : Loop reported s states last) : 0 < states.length := by
  cases hloop <;> simp

omit [DecidableEq σ] in
theorem Loop.getLast? (hloop : Loop reported s states last) : states.getLast? = some last := by
  induction hloop with
  | stop _ => rfl
  | again _ _ ih => rw [List.getLast?_cons, ih, Option.getD_some]

namespace Reporting
variable (h : Reporting p μ reported pass)
include h

theorem passes_eq (hs : p s) (hloop : Loop reported s states last) {bound : Nat} (hbound : states.length ≤ bound) :
    passes pass bound s = some states := by
  induction hloop generalizing bound with
  | @stop s t ht =>
    obtain ⟨bound, rfl⟩ := Nat.exists_eq_add_of_le' hbound
    obtain ⟨rfl, hnext⟩ := (h.tells s hs).of_unchanged ht
    rw [List.length_singleton, passes_succ hnext, if_pos rfl]
  | @again s t last states ht _ ih =>
    obtain ⟨bound, rfl⟩ := Nat.exists_eq_add_of_le' (Nat.le_trans (Nat.succ_le_succ (Nat.zero_le _)) hbound)
    obtain ⟨hne, hnext, _⟩ := (h.tells s hs).of_changed ht
    rw [passes_succ hnext, if_neg hne, ih (h.kept hs hnext) (Nat.le_of_succ_le_succ hbound), Option.map_some]

theorem kept_of_loop (hs : p s) (hloop : Loop reported s states last) : p last := by
  induction hloop with
  | @stop s t ht =>
    obtain ⟨rfl, _⟩ := (h.tells s hs).of_unchanged ht
    exact hs
  | @again s t last states ht _ ih => exact ih (h.kept hs ((h.tells s hs).of_changed ht).2.1)

theorem length_add_le (hs : p s) (hloop : Loop reported s states last) : states.length + μ s ≤ μ last + 1 := by
  induction hloop with
  | @stop s t ht =>
    obtain ⟨rfl, _⟩ := (h.tells s hs).of_unchanged ht
    rw [List.length_singleton]
    omega
  | @again s t last states ht _ ih =>
    obtain ⟨_, hnext, hlt⟩ := (h.tells s hs).of_changed ht
    have hrest := ih (h.kept hs hnext)
    rw [List.length_cons]
    omega

theorem exists_loop {c : Nat} (hc : ∀ s, p s → μ s ≤ c) (hs : p s) :
    ∃ states last, Loop reported s states last := by
  induction hn : c - μ s using Nat.strongRecOn generalizing s with
  | _ n ih =>
    obtain ⟨t, ht, hpt⟩ := h.total s hs
    have hreport := (h.tells s hs).of_next ht
    by_cases e : t = s
    · rw [decide_eq_false (not_not_intro e)] at hreport
      exact ⟨[t], t, .stop hreport⟩
    · rw [decide_eq_true e] at hreport
      obtain ⟨_, _, hlt⟩ := (h.tells s hs).of_changed hreport
      have hle := hc t hpt
      obtain ⟨states, last, hloop⟩ := ih (c - μ t) (by omega) hpt rfl
      exact ⟨t :: states, last, .again hreport hloop⟩

end Reporting

end

/-! ## The passes of the analysis -/

theorem SymbolSet.size_lt_union_iff {s t : SymbolSet} : t.size < (t ∪ s).size ↔ t ∪ s ≠ t := by
  constructor
  · intro hlt e
    rw [e] at hlt
    exact Nat.lt_irrefl _ hlt
  · intro hne
    exact size_lt_of_subset (fun a ha => mem_union.mpr (Or.inl ha)) hne.symm

namespace SetFamily

theorem le_of_extend? {f g : SetFamily} {i : Nat} {s : SymbolSet} (h : f.extend? i s = some g) : f ≤ g := by
  refine le_def.mpr ⟨(size_of_extend? h).symm, fun j t u ht hu a ha => ?_⟩
  rw [get?_of_extend? h, ht] at hu
  split at hu
  · cases hu
    exact SymbolSet.mem_union.mpr (Or.inl ha)
  · cases hu
    exact ha

theorem set_eq_self_iff {f : SetFamily} {i : Nat} {s t : SymbolSet} (ht : f.get? i = some t) :
    (⟨f.sets.set i s⟩ : SetFamily) = f ↔ s = t := by
  obtain ⟨hi, hget⟩ := List.getElem?_eq_some_iff.mp ht
  constructor
  · intro e
    have hi' : (f.sets.set i s)[i]? = f.sets[i]? := congrArg (fun f : SetFamily => f.sets[i]?) e
    rw [List.getElem?_set_self hi, List.getElem?_eq_getElem hi, hget, Option.some.injEq] at hi'
    exact hi'
  · intro e
    rw [e, ← hget, List.set_getElem_self]

theorem tells_grow? (f : SetFamily) (i : Nat) (s : SymbolSet) : Tells weight f (f.grow? i s) (f.extend? i s) := by
  refine ⟨?_, fun g hg => ?_⟩
  · unfold grow? extend?
    rw [Option.map_map]
    refine Option.map_congr fun t ht => congrArg (Report.mk _) ?_
    rw [decide_eq_decide, SymbolSet.size_lt_union_iff]
    exact (set_eq_self_iff ht).not.symm
  · by_cases e : g = f
    · exact Or.inl e
    · exact Or.inr (weight_lt (le_of_extend? hg) (Ne.symm e))

end SetFamily

namespace Grammar

theorem tells_firstReport? (f : SetFamily) (r : Rule) :
    Tells SetFamily.weight f (firstReport? f r) ((f.firstOfSequence? r.right).bind (f.extend? r.left)) :=
  Tells.bind fun s _ => f.tells_grow? r.left s

theorem tells_followReport? (first f : SetFamily) (o : Occurrence) :
    Tells SetFamily.weight f (followReport? first f o) (followStep? first f o) := by
  refine Tells.bind fun ahead _ => ?_
  have hopening := f.tells_grow? o.nonTerminal (ahead.erase .epsilon)
  by_cases hε : Symbol.epsilon ∈ ahead
  · simp only [if_pos hε]
    exact hopening.andThen? fun f _ => Tells.bind fun s _ => f.tells_grow? o.nonTerminal s
  · simp only [if_neg hε, Option.bind_fun_some]
    exact hopening

theorem tells_nullableReport? {known : List Bool} {a : NonTerminal} (hi : a.index < known.length) :
    Tells (List.count true) known (nullableReport? known a) (nullableStep? known a) := by
  unfold nullableReport? nullableStep?
  by_cases hknown : known[a.index]? = some true
  · rw [if_pos hknown, if_pos hknown]
    exact ⟨by simp, fun _ ht => Or.inl (Option.some.inj ht).symm⟩
  · have hopen : known[a.index] = false := by simpa [hi] using hknown
    have hcount : (known.set a.index true).count true = known.count true + 1 := by
      rw [List.count_set hi]
      simp [hopen]
    have hne : known.set a.index true ≠ known := fun e => by
      rw [e] at hcount
      omega
    rw [if_neg hknown, if_neg hknown]
    rcases anyVanishes? known a.productions with _ | _ | _
    · exact ⟨rfl, fun _ ht => by cases ht⟩
    · exact ⟨by simp, fun _ ht => Or.inl (Option.some.inj ht).symm⟩
    · refine ⟨by simp [hne], fun t ht => Or.inr ?_⟩
      cases ht
      exact hcount ▸ Nat.lt_succ_self _

end Grammar

end Predictive
