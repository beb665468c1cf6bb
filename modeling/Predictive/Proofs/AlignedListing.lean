import Mathlib.Data.List.Forall2
import Predictive.Proofs.TraceGrid

/-!
# Listings in plain text

The left sides of a listing end in one column. Its width is counted in bytes and
filled with characters, of which a name never has more, so the marks between the
sides stand one below the other. Read at that width a line gives back its sides,
and names that look like marks are not taken for them.
-/

namespace Predictive

open Text

/-- A line of a listing. Only the first right side has the left side in front of it. -/
structure ListedLine where
  left : Option String
  right : List String

namespace ListedLine

def mark (l : ListedLine) : String := if l.left.isSome then " -> " else "  | "

def text (width : Nat) (l : ListedLine) : String := padLeft width (l.left.getD "") ++ l.mark ++ unwords l.right

/-- Reads a line, given the column where its mark begins. -/
def ofText (width : Nat) (line : String) : ListedLine where
  left :=
    if (line.toList.drop width).take 4 = " -> ".toList then
      some (String.ofList ((line.toList.take width).dropWhile isBlank))
    else none
  right := cutAt ' ' (String.ofList (line.toList.drop (width + 4)))

/-- How far the first word of a line reaches. -/
def leftWidth (line : String) : Nat :=
  line.length - ((line.toList.dropWhile isBlank).dropWhile fun c => !isBlank c).length

structure OfWords (width : Nat) (l : ListedLine) : Prop where
  left : ∀ name, l.left = some name → IsWord name
  fits : (l.left.getD "").length ≤ width
  right_ne_nil : l.right ≠ []
  right : ∀ name ∈ l.right, IsWord name

theorem length_mark (l : ListedLine) : l.mark.length = 4 := by
  unfold mark
  split <;> rfl

theorem toList_text (width : Nat) (l : ListedLine) :
    (l.text width).toList = (padLeft width (l.left.getD "")).toList ++ (l.mark.toList ++ (unwords l.right).toList) := by
  simp [text]

theorem text_ne_empty (width : Nat) (l : ListedLine) : l.text width ≠ "" := by
  intro e
  have hlength := congrArg String.length e
  simp [text, length_mark] at hlength

namespace OfWords
variable {width : Nat} {l : ListedLine} (hl : l.OfWords width)
include hl

theorem length_left : (padLeft width (l.left.getD "")).toList.length = width := by
  rw [String.length_toList, length_padLeft, Nat.max_eq_left hl.fits]

theorem take_text : (l.text width).toList.take width = (padLeft width (l.left.getD "")).toList := by
  rw [toList_text, List.take_left' hl.length_left]

theorem drop_text : (l.text width).toList.drop width = l.mark.toList ++ (unwords l.right).toList := by
  rw [toList_text, List.drop_left' hl.length_left]

theorem mark_text : ((l.text width).toList.drop width).take 4 = l.mark.toList := by
  rw [hl.drop_text, List.take_left' (l.mark.length_toList.trans l.length_mark)]

theorem right_text : (l.text width).toList.drop (width + 4) = (unwords l.right).toList := by
  rw [← List.drop_drop, hl.drop_text, List.drop_left' (l.mark.length_toList.trans l.length_mark)]

theorem not_mem_text : '\n' ∉ (l.text width).toList := by
  have hmark : '\n' ∉ l.mark.toList := by
    unfold mark
    split <;> decide
  have hleft : '\n' ∉ (l.left.getD "").toList := by
    cases hname : l.left with
    | none => simp
    | some name => exact (hl.left name hname).not_mem (by decide)
  have hright : '\n' ∉ (unwords l.right).toList :=
    not_mem_unwords (by decide) fun name hname => (hl.right name hname).not_mem (by decide)
  rw [toList_text]
  simp [not_mem_padLeft (by decide) hleft, hmark, hright]

theorem ofText_text : ofText width (l.text width) = l := by
  have hright : cutAt ' ' (unwords l.right) = l.right :=
    cutAt_unwords (fun name hname => (hl.right name hname).not_mem (by decide)) hl.right_ne_nil
  -- the mark is looked for at the width only, so names may be marks
  unfold ofText
  rw [hl.mark_text, hl.take_text, hl.right_text, String.ofList_toList, hright]
  obtain ⟨left, right⟩ := l
  cases left with
  | none => simp [mark]
  | some name =>
    have hblanks := (hl.left name rfl).dropWhile_padLeft width []
    rw [List.append_nil, List.append_nil] at hblanks
    simp [mark, hblanks]

theorem leftWidth_text {name : String} (hname : l.left = some name) : leftWidth (l.text width) = width := by
  have hword : IsWord name := hl.left name hname
  have hmark : l.mark = " -> " := by simp [mark, hname]
  have hrest : ((l.text width).toList.dropWhile isBlank).dropWhile (fun c => !isBlank c) =
      l.mark.toList ++ (unwords l.right).toList := by
    rw [toList_text, hname, Option.getD_some, hword.dropWhile_padLeft,
      List.dropWhile_append_of_pos fun c hc => by rw [hword.2 c hc]; rfl, hmark]
    rfl
  unfold leftWidth
  rw [hrest, ← String.length_toList, toList_text, List.length_append, hl.length_left, Nat.add_sub_cancel]

end OfWords

end ListedLine

/-! ## Listings as lines -/

def NamedRule.listed (r : NamedRule) : List ListedLine :=
  match r.rights with
  | [] => []
  | first :: later => ⟨some r.left, first⟩ :: later.map fun right => ⟨none, right⟩

namespace ListedLine

/-- The right sides that come before a left side, and the rules after them. -/
def gather : List ListedLine → List (List String) × List NamedRule
  | [] => ([], [])
  | l :: later =>
    match l.left with
    | none => (l.right :: (gather later).1, (gather later).2)
    | some left => ([], ⟨left, l.right :: (gather later).1⟩ :: (gather later).2)

theorem gather_listed {r : NamedRule} (hr : r.rights ≠ []) (later : List ListedLine) :
    gather (r.listed ++ later) = ([], ⟨r.left, r.rights ++ (gather later).1⟩ :: (gather later).2) := by
  -- the later right sides wait for the left side above them
  have hrights : ∀ rights : List (List String), gather (rights.map (ListedLine.mk none) ++ later) =
      (rights ++ (gather later).1, (gather later).2) := by
    intro rights
    induction rights with
    | nil => rfl
    | cons right rights ih => rw [List.map_cons, List.cons_append, gather, ih]; rfl
  obtain ⟨left, rights⟩ := r
  obtain ⟨first, rights, rfl⟩ := List.exists_cons_of_ne_nil hr
  simp only [NamedRule.listed, List.cons_append, gather, hrights]

theorem gather_flatMap {rules : List NamedRule} (h : ∀ r ∈ rules, r.rights ≠ []) :
    gather (rules.flatMap NamedRule.listed) = ([], rules) := by
  induction rules with
  | nil => rfl
  | cons r rules ih =>
    obtain ⟨hr, hrules⟩ := List.forall_mem_cons.mp h
    rw [List.flatMap_cons, gather_listed hr, ih hrules, List.append_nil]

end ListedLine

theorem NamedRule.plainLines_eq (r : NamedRule) (width : Nat) :
    r.plainLines width = unlines (r.listed.map (ListedLine.text width)) := by
  unfold plainLines pieces listed
  cases r.rights with
  | nil => rfl
  | cons first later => simp [ListedLine.text, ListedLine.mark, Function.comp_def]

theorem map_fst_zipIdx {α β : Type} (f : α → β) (l : List α) (i : Nat) : (l.zipIdx i).map (fun n => f n.1) = l.map f := by
  rw [← Function.comp_def f Prod.fst, ← List.map_map, List.zipIdx_map_fst]

theorem NamedRule.listed_eq_zipIdx (r : NamedRule) :
    r.listed = r.rights.zipIdx.map fun n => ⟨if n.2 = 0 then some r.left else none, n.1⟩ := by
  unfold listed
  cases r.rights with
  | nil => rfl
  | cons first later =>
    have hlater : (later.zipIdx 1).map (fun n => (⟨if n.2 = 0 then some r.left else none, n.1⟩ : ListedLine)) =
        later.map fun right => ⟨none, right⟩ := by
      rw [← map_fst_zipIdx _ later 1]
      refine List.map_congr_left fun n hn => ?_
      have hpos : n.2 ≠ 0 := Nat.one_le_iff_ne_zero.mp (List.le_snd_of_mem_zipIdx hn)
      rw [if_neg hpos]
    rw [List.zipIdx_cons, List.map_cons, Nat.zero_add, hlater]
    rfl

theorem NamedRule.exists_listed_eq_cons {r : NamedRule} (hr : r.rights ≠ []) :
    ∃ first later, r.listed = ⟨some r.left, first⟩ :: later := by
  obtain ⟨first, later, hrights⟩ := List.exists_cons_of_ne_nil hr
  unfold listed
  rw [hrights]
  exact ⟨first, _, rfl⟩

theorem NamedRule.of_mem_listed {r : NamedRule} {x : ListedLine} (hx : x ∈ r.listed) :
    (∀ name, x.left = some name → name = r.left) ∧ x.right ∈ r.rights := by
  unfold listed at hx
  cases hrights : r.rights with
  | nil => simp [hrights] at hx
  | cons first later =>
    rw [hrights] at hx
    rcases List.mem_cons.mp hx with rfl | hx
    · simp
    · obtain ⟨right, hright, rfl⟩ := List.mem_map.mp hx
      simp [hright]

namespace Listing

def width (l : Listing) : Nat := widest (l.rules.map NamedRule.left)

def listed (l : Listing) : List ListedLine := l.rules.flatMap NamedRule.listed

def widthOf (text : String) : Nat := ((lines text).head?.map ListedLine.leftWidth).getD 0

/-- Reads a listing, whose first line tells the width of the left sides. -/
def ofPlain (text : String) : Listing :=
  ⟨(ListedLine.gather ((lines text).map (ListedLine.ofText (widthOf text)))).2⟩

structure OfWords (l : Listing) : Prop where
  left : ∀ r ∈ l.rules, IsWord r.left
  rights_ne_nil : ∀ r ∈ l.rules, r.rights ≠ []
  rights : ∀ r ∈ l.rules, ∀ names ∈ r.rights, names ≠ [] ∧ ∀ name ∈ names, IsWord name

namespace OfWords
variable {l : Listing} (hl : l.OfWords)
include hl

theorem ofWords_of_mem {x : ListedLine} (hx : x ∈ l.listed) : x.OfWords l.width := by
  obtain ⟨r, hr, hx⟩ := List.mem_flatMap.mp hx
  obtain ⟨hleft, hright⟩ := NamedRule.of_mem_listed hx
  obtain ⟨hne, hwords⟩ := hl.rights r hr x.right hright
  refine ⟨fun name hname => ?_, ?_, hne, hwords⟩
  · rw [hleft name hname]
    exact hl.left r hr
  · cases hname : x.left with
    | none => exact Nat.zero_le _
    | some name =>
      rw [hleft name hname]
      exact length_le_widest (List.mem_map_of_mem hr)

theorem lines_plain : lines l.plain = l.listed.map (ListedLine.text l.width) := by
  have hlines : l.plain = unlines (l.listed.map (ListedLine.text l.width)) := by
    unfold plain listed
    rw [List.map_flatMap, ← unlines_flatMap]
    · simp only [NamedRule.plainLines_eq]
      rfl
    · intro r hr
      obtain ⟨first, later, hlisted⟩ := NamedRule.exists_listed_eq_cons (hl.rights_ne_nil r hr)
      simp [hlisted]
  rw [hlines]
  apply lines_unlines
  · exact List.forall_mem_map.mpr fun x hx => (hl.ofWords_of_mem hx).not_mem_text
  · exact List.forall_mem_map.mpr fun x _ => x.text_ne_empty l.width

theorem widthOf_plain : widthOf l.plain = l.width := by
  unfold widthOf
  cases hrules : l.rules with
  | nil =>
    rw [hl.lines_plain, listed, width, hrules]
    rfl
  | cons r rules =>
    have hr : r ∈ l.rules := hrules ▸ List.mem_cons_self
    obtain ⟨first, later, hlisted⟩ := NamedRule.exists_listed_eq_cons (hl.rights_ne_nil r hr)
    have hhead : l.listed = ⟨some r.left, first⟩ :: (later ++ rules.flatMap NamedRule.listed) := by
      rw [listed, hrules, List.flatMap_cons, hlisted]
      rfl
    have hfirst := hl.ofWords_of_mem (hhead ▸ List.mem_cons_self)
    rw [hl.lines_plain, hhead, List.map_cons, List.head?_cons, Option.map_some, Option.getD_some]
    exact hfirst.leftWidth_text rfl

theorem ofPlain_plain : ofPlain l.plain = l := by
  have hback : (lines l.plain).map (ListedLine.ofText l.width) = l.listed := by
    rw [hl.lines_plain, List.map_map]
    apply Eq.trans (List.map_congr_left fun x hx => ?_) (List.map_id l.listed)
    exact (hl.ofWords_of_mem hx).ofText_text
  unfold ofPlain
  rw [hl.widthOf_plain, hback, listed, ListedLine.gather_flatMap hl.rights_ne_nil]

end OfWords

end Listing

/-! ## Listings of grammars -/

/-- The listing has the names of the nonterminals and of their productions, in order. -/
structure Listing.Shows (l : Listing) (g : Grammar) : Prop where
  lefts : l.rules.map NamedRule.left = g.nonTerminals.map NonTerminal.name
  rights : l.rules.map (fun r => r.rights.map some) =
    g.nonTerminals.map fun a => a.productions.map g.productionNames?

/-- A line for a rule: the left side, which is only in front of a first rule,
ends where the mark begins, and all that comes after the mark is the right side. -/
structure Rule.ListedAs (g : Grammar) (width : Nat) (r : Rule) (line : String) : Prop where
  left : ∃ a, g.nonTerminal? r.left = some a ∧
    line.toList.take width = (padLeft width (if r.index = 0 then a.name else "")).toList
  mark : (line.toList.drop width).take 4 = (if r.index = 0 then " -> " else "  | ").toList
  right : ∃ names, g.productionNames? r.right = some names ∧ line.toList.drop (width + 4) = (unwords names).toList

namespace Grammar
variable {g : Grammar}

def listedLine (g : Grammar) (r : Rule) : ListedLine :=
  ⟨if r.index = 0 then some (g.nameOf (.nonTerminal r.left)) else none, (g.productionNames? r.right).getD []⟩

def listingOf (g : Grammar) : Listing :=
  ⟨g.nonTerminals.map fun a => ⟨a.name, a.productions.map fun p => (g.productionNames? p).getD []⟩⟩

theorem shows_listingOf (hg : g.InRange) : g.listingOf.Shows g where
  lefts := by
    unfold listingOf
    rw [List.map_map]
    rfl
  rights := by
    unfold listingOf
    rw [List.map_map]
    refine List.map_congr_left fun a ha => ?_
    rw [Function.comp_apply, List.map_map]
    exact List.map_congr_left fun p hp => (productionNames?_eq hg ha p hp).symm

theorem listed_listingOf : g.listingOf.listed = g.rules.map g.listedLine := by
  have hrow : ∀ n ∈ g.nonTerminals, (n.productions.zipIdx.map fun p => Rule.mk n.index p.2 p.1).map g.listedLine =
      NamedRule.listed ⟨n.name, n.productions.map fun p => (g.productionNames? p).getD []⟩ := by
    intro n hn
    have hname := nameOf_nonTerminal (nonTerminal?_index hn)
    rw [NamedRule.listed_eq_zipIdx, List.zipIdx_map, List.map_map, List.map_map]
    refine List.map_congr_left fun p _ => ?_
    simp [listedLine, hname]
  unfold Listing.listed listingOf rules
  rw [List.flatMap_map, List.map_flatMap, List.flatMap_congr hrow]

theorem Consistent.ofWords_listingOf (hg : g.Consistent) (hrange : g.InRange)
    (hproductions : ∀ a ∈ g.nonTerminals, a.productions ≠ []) : g.listingOf.OfWords where
  left r hr := by
    obtain ⟨a, ha, rfl⟩ := List.mem_map.mp hr
    exact hg.isWord_of_mem ha
  rights_ne_nil r hr := by
    obtain ⟨a, ha, rfl⟩ := List.mem_map.mp hr
    simpa using hproductions a ha
  rights r hr names hnames := by
    obtain ⟨a, ha, rfl⟩ := List.mem_map.mp hr
    obtain ⟨p, hp, rfl⟩ := List.mem_map.mp hnames
    exact hg.words_of_productionNames? (productionNames?_eq hrange ha p hp)

theorem listedAs_listedLine (hrange : g.InRange) {width : Nat} {r : Rule} (hr : r ∈ g.rules)
    (hline : (g.listedLine r).OfWords width) : r.ListedAs g width ((g.listedLine r).text width) := by
  obtain ⟨a, ha, _⟩ := Option.bind_eq_some_iff.mp (mem_rules.mp hr)
  obtain ⟨names, hnames⟩ := exists_productionNames? (hrange.symbols r hr)
  refine ⟨⟨a, ha, ?_⟩, ?_, ⟨names, hnames, ?_⟩⟩
  · rw [hline.take_text]
    by_cases hindex : r.index = 0 <;> simp [listedLine, hindex, nameOf_nonTerminal ha]
  · rw [hline.mark_text]
    by_cases hindex : r.index = 0 <;> simp [listedLine, hindex, ListedLine.mark]
  · rw [hline.right_text]
    simp [listedLine, hnames]

/-- If every nonterminal has a production, a listing in plain text has a line for
each rule, with its mark at one place, and no other grammar of this kind has the
text unless all its names are the same. -/
theorem listing_of_plain {t : GrammarText} (h : t.read = .ok g)
    (hproductions : ∀ a ∈ g.nonTerminals, a.productions ≠ []) :
    ∃ l, g.listing? = some l ∧ l.Shows g ∧
      List.Forall₂ (Rule.ListedAs g (widest (g.nonTerminals.map NonTerminal.name))) g.rules (lines l.plain) ∧
      Listing.ofPlain l.plain = l ∧
      ∀ (t' : GrammarText) (g' : Grammar) (l' : Listing), t'.read = .ok g' →
        (∀ a ∈ g'.nonTerminals, a.productions ≠ []) → g'.listing? = some l' → l'.plain = l.plain →
        l' = l ∧ l.Shows g' := by
  obtain ⟨hrange, hnames⟩ := GrammarText.inRange_consistent_of_read h
  have hwords := hnames.ofWords_listingOf hrange hproductions
  have hshows := shows_listingOf hrange
  refine ⟨g.listingOf, listing?_eq hrange, hshows, ?_, hwords.ofPlain_plain, ?_⟩
  · have hwidth : g.listingOf.width = widest (g.nonTerminals.map NonTerminal.name) := by
      rw [← hshows.lefts]
      rfl
    rw [hwords.lines_plain, hwidth, listed_listingOf, List.map_map, List.forall₂_map_right_iff, List.forall₂_same]
    intro r hr
    apply listedAs_listedLine hrange hr
    rw [← hwidth]
    exact hwords.ofWords_of_mem (listed_listingOf ▸ List.mem_map_of_mem hr)
  · intro t' g' l' h' hproductions' hl' htext
    obtain ⟨hrange', hnames'⟩ := GrammarText.inRange_consistent_of_read h'
    have hwords' := hnames'.ofWords_listingOf hrange' hproductions'
    have hl : l' = g'.listingOf := Option.some.inj (hl'.symm.trans (listing?_eq hrange'))
    have hsame : l' = g.listingOf := by
      rw [hl, ← hwords'.ofPlain_plain, ← hl, htext, hwords.ofPlain_plain]
    refine ⟨hsame, ?_⟩
    rw [← hsame, hl]
    exact shows_listingOf hrange'

/-- Marks for names, and names that have more bytes than characters. -/
def markText : GrammarText where
  rules := [⟨"λβ", ["-> |", ""]⟩, ⟨"|", ["| -> λβ"]⟩, ⟨"->", ["日本"]⟩]
  start := "|"
  terminals := none

def markListing : Listing :=
  ⟨[⟨"λβ", [["->", "|"], ["ε"]]⟩, ⟨"|", [["|", "->", "λβ"]]⟩, ⟨"->", [["日本"]]⟩]⟩

theorem listing_of_plain_marks : ∃ g, markText.read = .ok g ∧ (∀ a ∈ g.nonTerminals, a.productions ≠ []) ∧
    g.listing? = some markListing ∧ Listing.ofPlain markListing.plain = markListing ∧
    lines markListing.plain = ["  λβ -> -> |", "      | ε", "   | -> | -> λβ", "  -> -> 日本"] := by
  have hread : markText.read = .ok markText.grammar :=
    GrammarText.read_eq_ok_iff.mpr ⟨by decide +kernel, rfl⟩
  have hproductions : ∀ a ∈ markText.grammar.nonTerminals, a.productions ≠ [] := by decide +kernel
  have hlisting : markText.grammar.listing? = some markListing := by decide +kernel
  obtain ⟨l, hl, _, _, hback, _⟩ := listing_of_plain hread hproductions
  rw [hlisting, Option.some.injEq] at hl
  subst hl
  exact ⟨_, hread, hproductions, hlisting, hback, by decide +kernel⟩

end Grammar

end Predictive
