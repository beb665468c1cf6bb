import Predictive.Proofs.AlignedListing
import Predictive.Text.Framed

/-!
# Data told by JSON text

The text of a value tells it, and the value of a rule, of a listing, of a summary or
of a grid tells all its data, whatever the names are made of. So a grammar that was
read is told by its listing, its terminals and its start.
-/

namespace Predictive

open Text Text.Json

theorem Text.Json.Value.strings_injective : Function.Injective Value.strings := by
  intro names names' h
  have hstring : Function.Injective Value.string := fun _ _ => Value.string.inj
  exact hstring.list_map (Value.array.inj h)

theorem NamedRule.value_injective : Function.Injective NamedRule.value := by
  rintro ⟨left, rights⟩ ⟨left', rights'⟩ h
  simp only [value, Value.object.injEq, List.cons.injEq, Prod.mk.injEq, Value.string.injEq, Value.array.injEq] at h
  obtain ⟨⟨_, rfl⟩, ⟨_, hrights⟩, _⟩ := h
  obtain rfl := Value.strings_injective.list_map hrights
  rfl

theorem Listing.value_injective : Function.Injective Listing.value := by
  rintro ⟨rules⟩ ⟨rules'⟩ h
  exact congrArg Listing.mk (NamedRule.value_injective.list_map (Value.array.inj h))

theorem SummaryRow.value_injective : Function.Injective SummaryRow.value := by
  rintro ⟨name, nullable, first, follow⟩ ⟨name', nullable', first', follow'⟩ h
  simp only [value, Value.object.injEq, List.cons.injEq, Prod.mk.injEq, Value.string.injEq, Value.bool.injEq] at h
  obtain ⟨⟨_, rfl⟩, ⟨_, rfl⟩, ⟨_, hfirst⟩, ⟨_, hfollow⟩, _⟩ := h
  obtain rfl := Value.strings_injective hfirst
  obtain rfl := Value.strings_injective hfollow
  rfl

theorem Summary.value_injective : Function.Injective Summary.value := by
  rintro ⟨rows⟩ ⟨rows'⟩ h
  simp only [value, Value.object.injEq, List.cons.injEq, Prod.mk.injEq, Value.array.injEq] at h
  exact congrArg Summary.mk (SummaryRow.value_injective.list_map h.1.2)

/-- A cell has one right side or none, so it is told by the list of them. -/
theorem GridRow.cells_inj {r r' : GridRow} (h : r.rules = r'.rules) : r.cells = r'.cells := by
  have hcells := congrArg (List.map NamedRule.rights) h
  have htoList : Function.Injective (Option.toList : Option (List String) → List (List String)) := by
    intro c c' hc
    cases c <;> cases c' <;> simp_all
  simp only [rules, List.map_map] at hcells
  exact htoList.list_map hcells

theorem Grid.rowValue_injective : Function.Injective Grid.rowValue := by
  intro r r' h
  simp only [rowValue, Value.array.injEq, List.cons.injEq, Value.string.injEq] at h
  obtain ⟨hlabel, hrules, _⟩ := h
  have hcells := GridRow.cells_inj (NamedRule.value_injective.list_map hrules)
  cases r
  cases r'
  simp_all

theorem Grid.value_injective : Function.Injective Grid.value := by
  rintro ⟨columns, rows⟩ ⟨columns', rows'⟩ h
  simp only [value, Value.object.injEq, List.cons.injEq, Prod.mk.injEq, Value.array.injEq] at h
  obtain ⟨⟨_, hcolumns⟩, ⟨_, hrows⟩, _⟩ := h
  obtain rfl := Value.strings_injective hcolumns
  obtain rfl := Grid.rowValue_injective.list_map hrows
  rfl

/-! ## Grammars -/

namespace Grammar
variable {t t' : GrammarText} {g g' : Grammar}

theorem text?_eq_of_listing (hstart : g.nameOf? (.nonTerminal g.start) = g'.nameOf? (.nonTerminal g'.start))
    (hterminals : g.terminals = g'.terminals) (hlisting : g.listing? = g'.listing?) : g.text? = g'.text? := by
  have htext : ∀ g : Grammar, g.text? = g.listing?.bind fun l => (g.nameOf? (.nonTerminal g.start)).map fun name =>
      ⟨l.rules.map NamedRule.text, name, some g.terminals⟩ := by
    intro g
    simp [text?, nameOf?, Alphabet.nameOf?, alphabet, nonTerminal?, Function.comp_def]
  rw [htext, htext, hstart, hterminals, hlisting]

theorem eq_of_listing (h : t.read = .ok g) (h' : t'.read = .ok g')
    (hstart : g.nameOf? (.nonTerminal g.start) = g'.nameOf? (.nonTerminal g'.start))
    (hterminals : g.terminals = g'.terminals) (hlisting : g.listing? = g'.listing?) : g = g' := by
  obtain ⟨text, htext, _, rfl⟩ := exists_text? h
  obtain ⟨text', htext', _, rfl⟩ := exists_text? h'
  rw [text?_eq_of_listing hstart hterminals hlisting, htext', Option.some.injEq] at htext
  rw [htext]

/-- Whatever the names are made of, JSON text tells all its data. The listing of a
grammar that was read tells the names in its productions, and with its terminals
and its start the grammar itself. -/
theorem data_of_json {write : Value → String} (hwrite : WritesCompactly write) :
    Function.Injective (fun r : NamedRule => write r.value) ∧ Function.Injective (fun l : Listing => write l.value) ∧
    Function.Injective (fun s : Summary => write s.value) ∧ Function.Injective (fun d : Grid => write d.value) ∧
    ∀ (t : GrammarText) (g : Grammar), t.read = .ok g → ∃ l, g.listing? = some l ∧ l.Shows g ∧
      ∀ (t' : GrammarText) (g' : Grammar) (l' : Listing), t'.read = .ok g' → g'.listing? = some l' →
        write l'.value = write l.value → l.Shows g' ∧
          (g'.nameOf? (.nonTerminal g'.start) = g.nameOf? (.nonTerminal g.start) → g'.terminals = g.terminals →
            g' = g) := by
  have hlistings := hwrite.injective.comp Listing.value_injective
  refine ⟨hwrite.injective.comp NamedRule.value_injective, hlistings, hwrite.injective.comp Summary.value_injective,
    hwrite.injective.comp Grid.value_injective, fun t g h => ?_⟩
  obtain ⟨hg, _⟩ := GrammarText.inRange_consistent_of_read h
  refine ⟨g.listingOf, listing?_eq hg, shows_listingOf hg, fun t' g' l' h' hl' hjson => ?_⟩
  obtain ⟨hg', _⟩ := GrammarText.inRange_consistent_of_read h'
  have hsame : l' = g.listingOf := hlistings hjson
  have hlisting : g'.listing? = g.listing? := hl'.trans ((congrArg some hsame).trans (listing?_eq hg).symm)
  have hown : g'.listingOf = g.listingOf :=
    Option.some.inj ((listing?_eq hg').symm.trans (hlisting.trans (listing?_eq hg)))
  refine ⟨hown ▸ shows_listingOf hg', fun hstart hterminals => ?_⟩
  exact eq_of_listing h' h hstart hterminals hlisting

end Grammar

/-- A name that has the marks between names in it, and one with a code of JSON for itself. -/
def quotedText : GrammarText where
  rules := [⟨"S", ["a\",\"b", "\\n\x1f"]⟩]
  start := "S"
  terminals := none

/-- The same grammar with blanks and an ε, in two rules. -/
def quotedRulesText : GrammarText where
  rules := [⟨" S", ["a\",\"b"]⟩, ⟨"S", ["\\n\x1f  ε "]⟩]
  start := "S "
  terminals := none

def quotedListing : Listing := ⟨[⟨"S", [["a\",\"b"], ["\\n\x1f"]]⟩]⟩

def unquotedListing : Listing := ⟨[⟨"S", [["a", "b"], ["\\n\x1f"]]⟩]⟩

namespace Grammar

theorem data_of_json_quoted : ∃ g g', quotedText.read = .ok g ∧ quotedRulesText.read = .ok g' ∧
    g.listing? = some quotedListing ∧ g'.listing? = some quotedListing ∧ g' = g ∧
    quotedListing.json = "[\x7b\"left\":\"S\",\"rights\":[[\"a\\\",\\\"b\"],[\"\\\\n\\u001f\"]]\x7d]" ∧
    unquotedListing.json ≠ quotedListing.json := by
  have hread : quotedText.read = .ok quotedText.grammar := GrammarText.read_eq_ok_iff.mpr ⟨by decide +kernel, rfl⟩
  have hread' : quotedRulesText.read = .ok quotedRulesText.grammar :=
    GrammarText.read_eq_ok_iff.mpr ⟨by decide +kernel, rfl⟩
  have hlisting : quotedText.grammar.listing? = some quotedListing := by decide +kernel
  have hlisting' : quotedRulesText.grammar.listing? = some quotedListing := by decide +kernel
  obtain ⟨_, hinjective, _, _, hread_json⟩ := data_of_json writesCompactly_write
  obtain ⟨l, hl, _, htells⟩ := hread_json quotedText _ hread
  rw [hlisting, Option.some.injEq] at hl
  subst hl
  obtain ⟨_, hsame⟩ := htells quotedRulesText _ _ hread' hlisting' rfl
  exact ⟨_, _, hread, hread', hlisting, hlisting', hsame (by decide +kernel) (by decide +kernel), by decide +kernel,
    hinjective.ne (by decide : unquotedListing ≠ quotedListing)⟩

end Grammar

end Predictive
