import Mathlib.Data.List.Induction
import Mathlib.Data.List.TakeWhile
import Predictive.CommandLine
import Predictive.Proofs.Built
import Predictive.Proofs.Follow

/-!
# What the arguments are answered with

Arguments are accepted if they name outputs and then options. Then what is written
is put together from sections, one for each output, and a section hangs on its name
and on the last option about formats. All other arguments are answered with the
help text. The expression grammar has no conflicts, so it does not matter whether
its table is filled strictly.
-/

namespace Predictive.CommandLine

open Text

/-! ## Reading the arguments -/

def outputNames : List String := ["prod", "ff", "ll1", "trace"]

def optionNames : List String := ["-l", "-j", "-s"]

def helpNames : List String := ["-h", "--help"]

def Accepted (arguments : List String) : Prop :=
  ∃ outputs options, arguments = outputs ++ options ∧
    (∀ o ∈ outputs, o ∈ outputNames) ∧ ∀ o ∈ options, o ∈ optionNames

def format? (option : String) : Option Format :=
  if option = "-l" then some .latex else if option = "-j" then some .json else none

def lastFormat (options : List String) : Format := (options.filterMap format?).getLast?.getD .plain

/-- The outputs at the front, and the arguments after them. -/
def takeViews (views : List View) : List String → List View × List String
  | [] => (views, [])
  | a :: rest =>
    match view? a with
    | some v => takeViews (views ++ [v]) rest
    | none => (views, a :: rest)

/-- What the options at the front make of the format and of strictness, and the
arguments after them, unless one of the options asks for help. -/
def takeOptions (format : Format) (strict : Bool) : List String → Option ((Format × Bool) × List String)
  | [] => some ((format, strict), [])
  | a :: rest =>
    if a ∈ helpNames then none
    else match option? a with
      | some .latex => takeOptions .latex strict rest
      | some .json => takeOptions .json strict rest
      | some .strict => takeOptions format true rest
      | none => some ((format, strict), a :: rest)

def complete? (p : (Format × Bool) × List String) : Option (Format × Bool) := if p.2.isEmpty then some p.1 else none

/-- Reads the arguments from the front: outputs, then options, and nothing else. -/
def Request.scan? (arguments : List String) : Option Request :=
  let (views, rest) := takeViews [] arguments
  ((takeOptions .plain false rest).bind complete?).map fun p =>
    ⟨if views.isEmpty then [.trace] else views, p.1, p.2⟩

def Flag.format? : Flag → Option Format
  | .latex => some .latex
  | .json => some .json
  | .strict => none

theorem formatOf_concat (flags : List Flag) (o : Flag) :
    formatOf (flags ++ [o]) = o.format?.getD (formatOf flags) := by
  unfold formatOf
  rw [List.foldl_append]
  cases o <;> rfl

theorem formatOf_eq (flags : List Flag) : formatOf flags = (flags.filterMap Flag.format?).getLast?.getD .plain := by
  induction flags using List.reverseRecOn with
  | nil => rfl
  | append_singleton flags o ih =>
    rw [formatOf_concat, ih, List.filterMap_append]
    cases o <;> simp [Flag.format?]

theorem takeViews_eq (arguments : List String) (views : List View) :
    takeViews views arguments =
      (views ++ (arguments.takeWhile fun a => (view? a).isSome).filterMap view?,
        arguments.dropWhile fun a => (view? a).isSome) := by
  induction arguments generalizing views with
  | nil => simp [takeViews]
  | cons a rest ih =>
    unfold takeViews
    cases h : view? a with
    | none => simp [h]
    | some v => simp [h, ih]

theorem option?_of_mem_helpNames {a : String} (h : a ∈ helpNames) : option? a = none := by
  revert a
  decide

/-- The options before these ones have set the format and strictness. -/
theorem takeOptions_eq (arguments : List String) (before : List Flag) :
    (takeOptions (formatOf before) (before.contains .strict) arguments).bind complete? =
      (arguments.mapM option?).map fun flags => (formatOf (before ++ flags), (before ++ flags).contains .strict) := by
  induction arguments generalizing before with
  | nil => simp [takeOptions, complete?]
  | cons a rest ih =>
    unfold takeOptions
    rw [List.mapM_cons]
    by_cases hhelp : a ∈ helpNames
    · rw [if_pos hhelp, option?_of_mem_helpNames hhelp]
      rfl
    · rw [if_neg hhelp]
      cases ho : option? a with
      | none => rfl
      | some o =>
        have ih := ih (before ++ [o])
        rw [formatOf_concat] at ih
        cases o <;> simpa [Flag.format?, Option.map_eq_bind, Option.bind_assoc, Function.comp_def] using ih

/-- Reading in one go comes to the same as cutting the arguments in two first. -/
theorem Request.scan?_eq (arguments : List String) : scan? arguments = ofArguments? arguments := by
  unfold scan? ofArguments?
  rw [takeViews_eq]
  exact (congrArg (Option.map _) (takeOptions_eq _ [])).trans (Option.map_map ..)

/-! ## Accepted arguments -/

theorem mem_outputNames {a : String} : a ∈ outputNames ↔ (view? a).isSome = true := by
  unfold outputNames view?
  split_ifs <;> simp_all

theorem mem_optionNames {a : String} : a ∈ optionNames ↔ (option? a).isSome = true := by
  unfold optionNames option?
  split_ifs <;> simp_all

theorem view?_of_mem_optionNames {a : String} (h : a ∈ optionNames) : view? a = none := by
  revert a
  decide

theorem format?_option? (a : String) : (option? a).bind Flag.format? = format? a := by
  unfold option? format?
  split_ifs <;> rfl

theorem filterMap_format? {options : List String} {flags : List Flag} (h : options.mapM option? = some flags) :
    flags.filterMap Flag.format? = options.filterMap format? := by
  induction options generalizing flags with
  | nil =>
    cases h
    rfl
  | cons a options ih =>
    rw [List.mapM_cons] at h
    obtain ⟨o, ho, h⟩ := Option.bind_eq_some_iff.mp h
    obtain ⟨flags, hflags, h⟩ := Option.bind_eq_some_iff.mp h
    cases h
    have ha : format? a = o.format? := by rw [← format?_option?, ho, Option.bind_some]
    rw [List.filterMap_cons, List.filterMap_cons, ha, ih hflags]

def shownOutputs (outputs : List String) : List String := if outputs.isEmpty then ["trace"] else outputs

theorem exists_shownOutputs (outputs : List String) : ∃ name later, shownOutputs outputs = name :: later := by
  cases outputs with
  | nil => exact ⟨_, _, rfl⟩
  | cons name later => exact ⟨name, later, rfl⟩

section
variable {outputs options : List String} (houtputs : ∀ a ∈ outputs, a ∈ outputNames)
include houtputs

theorem mem_outputNames_of_shown : ∀ a ∈ shownOutputs outputs, a ∈ outputNames := by
  unfold shownOutputs
  split
  · decide
  · exact houtputs

theorem views_eq : (if (outputs.filterMap view?).isEmpty then [.trace] else outputs.filterMap view?) =
    (shownOutputs outputs).filterMap view? := by
  cases outputs with
  | nil => rfl
  | cons a outputs =>
    obtain ⟨v, hv⟩ := Option.isSome_iff_exists.mp (mem_outputNames.mp (houtputs a List.mem_cons_self))
    simp [shownOutputs, hv]

variable (hoptions : ∀ a ∈ options, a ∈ optionNames)
include hoptions

theorem ofArguments?_append : ∃ strict, Request.ofArguments? (outputs ++ options) =
    some ⟨(shownOutputs outputs).filterMap view?, lastFormat options, strict⟩ := by
  have hpos : ∀ a ∈ outputs, (view? a).isSome = true := fun a ha => mem_outputNames.mp (houtputs a ha)
  have hneg : ∀ a ∈ options, ¬ (view? a).isSome = true := fun a ha => by
    simp [view?_of_mem_optionNames (hoptions a ha)]
  obtain ⟨flags, hflags⟩ := exists_mapM fun a ha => mem_optionNames.mp (hoptions a ha)
  have hfront : (outputs ++ options).takeWhile (fun a => (view? a).isSome) = outputs := by
    rw [List.takeWhile_append_of_pos hpos, List.takeWhile_eq_nil_iff.mpr fun h => hneg _ (List.get_mem _ _),
      List.append_nil]
  have hback : (outputs ++ options).dropWhile (fun a => (view? a).isSome) = options := by
    rw [List.dropWhile_append_of_pos hpos, List.dropWhile_eq_self_iff.mpr fun h => hneg _ (List.getElem_mem _)]
  refine ⟨flags.contains .strict, ?_⟩
  unfold Request.ofArguments?
  rw [hfront, hback, hflags, Option.map_some, formatOf_eq, filterMap_format? hflags]
  exact congrArg (fun views => some (Request.mk views _ _)) (views_eq houtputs)

end

theorem accepted_iff {arguments : List String} :
    Accepted arguments ↔ (Request.ofArguments? arguments).isSome = true := by
  constructor
  · rintro ⟨outputs, options, rfl, houtputs, hoptions⟩
    obtain ⟨strict, h⟩ := ofArguments?_append houtputs hoptions
    rw [h]
    rfl
  · intro h
    obtain ⟨r, h⟩ := Option.isSome_iff_exists.mp h
    obtain ⟨flags, hflags, _⟩ := Option.map_eq_some_iff.mp h
    refine ⟨arguments.takeWhile fun a => (view? a).isSome, arguments.dropWhile fun a => (view? a).isSome,
      List.takeWhile_append_dropWhile.symm, fun a ha => ?_, fun a ha => ?_⟩
    · exact mem_outputNames.mpr (List.all_eq_true.mp List.all_takeWhile a ha)
    · exact mem_optionNames.mpr (Option.isSome_iff_exists.mpr (exists_of_mapM hflags ha))

instance (arguments : List String) : Decidable (Accepted arguments) := decidable_of_iff _ accepted_iff.symm

/-! ## Sections -/

/-- Strict or not, what is written comes from one table. -/
theorem output?_eq {g : Grammar} {a : Analysis} {t : Table} (ha : g.analysis? = some a)
    (ht : g.strictTable? a = some (.ok t)) {sections : View → Format → String}
    (hsections : ∀ v f, outputText? v f g a t = some (sections v f)) (r : Request) :
    r.output? g = some ("".intercalate (r.views.map fun v => sections v r.format)) := by
  have htable : (if r.strict then (g.strictTable? a).bind Except.toOption else g.table? a) = some t := by
    rw [ht, Grammar.table?_of_strictTable? ht]
    exact ite_self _
  unfold Request.output?
  rw [ha, Option.bind_some, htable, Option.bind_some, mapM_eq_some_map fun v _ => hsections v r.format,
    Option.map_some]

/-! ## Sections of the expression grammar -/

/-- Removing or adding `-s` leaves the last option about formats. -/
theorem lastFormat_filter (options : List String) : lastFormat (options.filter (· != "-s")) = lastFormat options := by
  have hsame : ∀ o ∈ options, (if o != "-s" then format? o else none) = format? o := by
    intro o _
    by_cases h : o = "-s"
    · rw [h]
      rfl
    · rw [if_pos (bne_iff_ne.mpr h)]
  rw [lastFormat, List.filterMap_filter, List.filterMap_congr hsame, lastFormat]

theorem head?_listing {l : Listing} (hl : l.plain.toList.head? = some 'E') (f : Format) :
    ∃ c, (l.text f).toList.head? = some c ∧ c ≠ 'U' := by
  cases f with
  | plain => exact ⟨ 'E', hl, by decide⟩
  | latex => exact ⟨ '\\', head?_intercalate (by decide) _ _, by decide⟩
  | json => exact ⟨ '[', head?_append (head?_append (by decide) _) _, by decide⟩

theorem head?_summary {s : Summary} (hs : s.plain.toList.head? = some 'E') (f : Format) :
    ∃ c, (s.text f).toList.head? = some c ∧ c ≠ 'U' := by
  cases f with
  | plain => exact ⟨ 'E', hs, by decide⟩
  | latex => exact ⟨ '\\', head?_append (head?_append (by decide) _) _, by decide⟩
  | json => exact ⟨ '\x7b', head?_append (head?_append (by decide) _) _, by decide⟩

theorem head?_grid {d : Grid} (hd : d.columns ≠ []) (f : Format) :
    ∃ c, (d.text f).toList.head? = some c ∧ c ≠ 'U' := by
  cases f with
  | plain =>
    -- the corner above the rows' labels is blank, and so is what is put behind it
    obtain ⟨name, names, hnames⟩ := List.exists_cons_of_ne_nil hd
    have hcorner (width : Nat) : (padLeft width "" ++ " | ").toList.head? = some ' ' := by
      cases width <;> simp [toList_padLeft, List.replicate_succ]
    refine ⟨ ' ', head?_intercalate ?_ _ _, by decide⟩
    rw [Grid.widths, hnames, List.length_cons, List.range_succ_eq_map, List.range_succ_eq_map]
    simp only [List.map_cons, List.zipWith_cons_cons, String.intercalate_cons_cons]
    exact head?_append (hcorner _) _
  | latex =>
    refine ⟨ '\\', head?_append (head?_append (head?_append ?_ _) _) _, by decide⟩
    exact head?_intercalate (head?_append (head?_append (by decide) _) _) _ _
  | json => exact ⟨ '\x7b', head?_append (head?_append (by decide) _) _, by decide⟩

theorem exists_strictTable? : ∃ a t, expressionText.grammar.analysis? = some a ∧
    expressionText.grammar.strictTable? a = some (.ok t) := by
  have hok : (expressionText.grammar.analysis?.bind expressionText.grammar.strictTable?).map Except.isOk =
      some true := by decide +kernel
  obtain ⟨u, hu, hok⟩ := Option.map_eq_some_iff.mp hok
  obtain ⟨a, ha, hu⟩ := Option.bind_eq_some_iff.mp hu
  cases u with
  | error _ => cases hok
  | ok t => exact ⟨a, t, ha, hu⟩

/-- What a view shows of the expression grammar; the trace opens with its title. -/
theorem head?_outputText? {v : View} {f : Format} {a : Analysis} {t : Table} {text : String}
    (ha : expressionText.grammar.analysis? = some a) (h : outputText? v f expressionText.grammar a t = some text) :
    ∃ c, text.toList.head? = some c ∧ c ≠ 'U' := by
  obtain ⟨shown, hshown, rfl⟩ := Option.map_eq_some_iff.mp h
  cases v with
  | trace => exact ⟨ 'P', head?_append (head?_append (by decide) _) _, by decide⟩
  | productions =>
    obtain ⟨l, hl, rfl⟩ : ∃ l, expressionText.grammar.listing? = some l ∧ l.text f = shown :=
      Option.map_eq_some_iff.mp hshown
    have hplain : expressionText.grammar.listing?.map (fun l => l.plain.toList.head?) = some (some 'E') := by
      decide +kernel
    rw [hl, Option.map_some, Option.some.injEq] at hplain
    obtain ⟨c, hfirst, hc⟩ := head?_listing hplain f
    exact ⟨c, head?_append hfirst _, hc⟩
  | sets =>
    obtain ⟨s, hs, rfl⟩ : ∃ s, expressionText.grammar.summary? a = some s ∧ s.text f = shown :=
      Option.map_eq_some_iff.mp hshown
    have hplain : (expressionText.grammar.analysis?.bind expressionText.grammar.summary?).map
        (fun s => s.plain.toList.head?) = some (some 'E') := by decide +kernel
    rw [ha, Option.bind_some, hs, Option.map_some, Option.some.injEq] at hplain
    obtain ⟨c, hfirst, hc⟩ := head?_summary hplain f
    exact ⟨c, head?_append hfirst _, hc⟩
  | grid =>
    obtain ⟨d, hd, rfl⟩ : ∃ d, t.grid? expressionText.grammar = some d ∧ d.text f = shown :=
      Option.map_eq_some_iff.mp hshown
    obtain ⟨columns, hcolumns, hd⟩ := Option.bind_eq_some_iff.mp hd
    obtain ⟨rows, _, rfl⟩ := Option.map_eq_some_iff.mp hd
    have hnames : expressionText.grammar.lookaheads.mapM expressionText.grammar.nameOf? ≠ some [] := by
      decide +kernel
    have hne : columns ≠ [] := fun hnil => hnames (hnil ▸ hcolumns)
    obtain ⟨c, hfirst, hc⟩ := head?_grid (d := ⟨columns, rows⟩) hne f
    exact ⟨c, head?_append hfirst _, hc⟩

section
variable {a : Analysis} {t : Table} (ha : expressionText.grammar.analysis? = some a)
  (ht : expressionText.grammar.strictTable? a = some (.ok t))
include ha ht

theorem exists_outputText? (v : View) (f : Format) :
    ∃ text, outputText? v f expressionText.grammar a t = some text := by
  have hg := (GrammarText.wellFormed_of_read Grammar.read_expressionText).toInRange
  have hsnapshot := Grammar.snapshot_of_analysis? ha
  have htable : t.InRange expressionText.grammar := Grammar.Builds.inRange ⟨a, hsnapshot, Or.inr ht⟩ hg
  obtain ⟨text, htext⟩ := View.exists_text? hg (hsnapshot.inRange hg) htable v f
  exact ⟨_, congrArg (Option.map _) htext⟩

end

/-! ## Answers -/

theorem map_filterMap_view? {α : Type} {names : List String} (h : ∀ a ∈ names, a ∈ outputNames)
    {byView : View → α} {byName : String → α} (hname : ∀ a v, view? a = some v → byName a = byView v) :
    (names.filterMap view?).map byView = names.map byName := by
  induction names with
  | nil => rfl
  | cons a names ih =>
    obtain ⟨ha, hnames⟩ := List.forall_mem_cons.mp h
    obtain ⟨v, hv⟩ := Option.isSome_iff_exists.mp (mem_outputNames.mp ha)
    rw [List.filterMap_cons_some hv, List.map_cons, List.map_cons, ih hnames, hname a v hv]

theorem run_of_not_accepted {arguments : List String} (h : ¬ Accepted arguments) : run arguments = ⟨help, 0⟩ := by
  rw [accepted_iff, Option.isSome_iff_ne_none, not_not] at h
  rw [run, h]

section
variable {a : Analysis} {t : Table} (ha : expressionText.grammar.analysis? = some a)
  (ht : expressionText.grammar.strictTable? a = some (.ok t)) {sections : String → Format → String}
  (hsections : ∀ name v, view? name = some v →
    ∀ f, outputText? v f expressionText.grammar a t = some (sections name f))
  {outputs options : List String} (houtputs : ∀ o ∈ outputs, o ∈ outputNames)
  (hoptions : ∀ o ∈ options, o ∈ optionNames)
include ha ht hsections houtputs hoptions

theorem run_append : run (outputs ++ options) =
    ⟨"".intercalate ((shownOutputs outputs).map fun name => sections name (lastFormat options)), 0⟩ := by
  choose byView hbyView using exists_outputText? ha ht
  obtain ⟨strict, hrequest⟩ := ofArguments?_append houtputs hoptions
  have hname : ∀ name v, view? name = some v → sections name (lastFormat options) = byView v (lastFormat options) :=
    fun name v hv => Option.some.inj ((hsections name v hv _).symm.trans (hbyView v _))
  unfold run
  rw [hrequest]
  dsimp only
  rw [Grammar.read_expressionText, Except.toOption, Option.bind_some, output?_eq ha ht hbyView,
    map_filterMap_view? (mem_outputNames_of_shown houtputs) hname]

/-- The help text opens with a `U`, and no section does. -/
theorem output_ne_help : (run (outputs ++ options)).output ≠ help := by
  obtain ⟨name, later, hshown⟩ := exists_shownOutputs outputs
  obtain ⟨v, hv⟩ := Option.isSome_iff_exists.mp
    (mem_outputNames.mp (mem_outputNames_of_shown houtputs name (hshown ▸ List.mem_cons_self)))
  obtain ⟨c, hfirst, hc⟩ := head?_outputText? ha (hsections name v hv (lastFormat options))
  rw [run_append ha ht hsections houtputs hoptions, hshown, List.map_cons]
  intro houtput
  have hhelp : help.toList.head? = some 'U' := head?_intercalate (by decide) _ _
  rw [← houtput, head?_intercalate hfirst, Option.some.injEq] at hhelp
  exact hc hhelp

end

/-- Exactly the arguments that name outputs and then options are accepted. What is
written then is a section for each output that is shown, which hangs on its name and
the last option about formats, and not on `-s`. All else is answered with the help text. -/
theorem sections_or_help : ∃ (a : Analysis) (t : Table) (sections : String → Format → String),
    expressionText.grammar.analysis? = some a ∧ expressionText.grammar.table? a = some t ∧
    expressionText.grammar.strictTable? a = some (.ok t) ∧
    (∀ name v, view? name = some v → ∀ f, outputText? v f expressionText.grammar a t = some (sections name f)) ∧
    (∀ f f', sections "trace" f = sections "trace" f') ∧
    (∀ arguments, Request.scan? arguments = Request.ofArguments? arguments) ∧
    (∀ arguments, (run arguments).code = 0 ∧ ((run arguments).output = help ↔ ¬ Accepted arguments)) ∧
    ∀ outputs options, (∀ o ∈ outputs, o ∈ outputNames) → (∀ o ∈ options, o ∈ optionNames) →
      (run (outputs ++ options)).output =
        "".intercalate ((shownOutputs outputs).map fun name => sections name (lastFormat options)) ∧
      ∀ options', (∀ o ∈ options', o ∈ optionNames) →
        options'.filter (· != "-s") = options.filter (· != "-s") →
        run (outputs ++ options') = run (outputs ++ options) := by
  obtain ⟨a, t, ha, ht⟩ := exists_strictTable?
  choose byView hbyView using exists_outputText? ha ht
  have hsections : ∀ name v, view? name = some v → ∀ f, outputText? v f expressionText.grammar a t =
      some (((view? name).map byView).getD (fun _ => "") f) := by
    intro name v hv f
    rw [hv]
    exact hbyView v f
  refine ⟨a, t, _, ha, Grammar.table?_of_strictTable? ht, ht, hsections, fun f f' => ?_, Request.scan?_eq,
    fun arguments => ?_, fun outputs options houtputs hoptions => ⟨?_, fun options' hoptions' hsame => ?_⟩⟩
  · -- the text of the trace is the same in every format
    exact Option.some.inj ((hbyView .trace f).symm.trans (hbyView .trace f'))
  · by_cases haccepted : Accepted arguments
    · obtain ⟨outputs, options, rfl, houtputs, hoptions⟩ := haccepted
      have hne := output_ne_help ha ht hsections houtputs hoptions
      exact ⟨by rw [run_append ha ht hsections houtputs hoptions],
        fun hhelp => absurd hhelp hne, fun h => absurd ⟨_, _, rfl, houtputs, hoptions⟩ h⟩
    · rw [run_of_not_accepted haccepted]
      exact ⟨rfl, fun _ => haccepted, fun _ => rfl⟩
  · rw [run_append ha ht hsections houtputs hoptions]
  · have hformat : lastFormat options' = lastFormat options := by
      rw [← lastFormat_filter options', hsame, lastFormat_filter]
    rw [run_append ha ht hsections houtputs hoptions, run_append ha ht hsections houtputs hoptions', hformat]

/-- Formats are repeated, `-s` is moved, and an output after an option is answered with help. -/
theorem sections_or_help_prod : ∃ (a : Analysis) (t : Table) (sections : String → Format → String),
    outputText? .productions .json expressionText.grammar a t = some (sections "prod" .json) ∧
    outputText? .trace .plain expressionText.grammar a t = some (sections "trace" .json) ∧
    (run ["prod", "trace", "prod", "-l", "-s", "-j"]).output =
      sections "prod" .json ++ sections "trace" .json ++ sections "prod" .json ∧
    run ["prod", "trace", "prod", "-s", "-s", "-l", "-j"] = run ["prod", "trace", "prod", "-l", "-s", "-j"] ∧
    (run ["-l", "prod"]).output = help ∧ (run ["prod", "-j", "-h"]).output = help := by
  obtain ⟨a, t, sections, _, _, _, hsections, htrace, _, hhelp, happend⟩ := sections_or_help
  obtain ⟨houtput, hstrict⟩ := happend ["prod", "trace", "prod"] ["-l", "-s", "-j"] (by decide) (by decide)
  refine ⟨a, t, sections, hsections "prod" .productions rfl _, ?_, ?_, hstrict _ (by decide) (by decide),
    (hhelp _).2.mpr (by decide), (hhelp _).2.mpr (by decide)⟩
  · rw [htrace .json .plain]
    exact hsections "trace" .trace rfl _
  · rw [List.cons_append] at houtput
    exact houtput.trans (by simp [shownOutputs, lastFormat, format?, String.append_assoc])

end Predictive.CommandLine
