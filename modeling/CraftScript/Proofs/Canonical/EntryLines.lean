import CraftScript.Proofs.Canonical.ItemLine

/-! The lines of a section in canonical form. Every line is read as what it describes, and a section
is read without an issue. -/
namespace CraftScript.Canonical

open Text EntryLine

theorem stops_numeral (numeral : Numeral) (rest : Text) :
    Stops isBlank (numeral.text ++ rest) := by
  rw [Numeral.text, List.append_assoc]
  exact numeral.whole.stops (fun c => isBlank_of_isAsciiDigit) _

theorem fluidTypes_bracket (types : List Word) :
    fluidTypes (bracket (listed types)) = types.map (·.string) := by
  have trimmed : trim (bracket (listed types)) = bracket (listed types) := by
    apply trimWhile_eq_self
    · exact stops_cons (by decide) _
    · rw [bracket, List.reverse_cons, List.reverse_append]
      exact stops_cons (by decide) _
  have group : bracketGroup none (bracket (listed types)) = some (listed types, []) := by
    rw [bracketGroup_eq_some_iff]
    exact ⟨not_mem_listed types rfl (by decide), rfl⟩
  simp only [fluidTypes, trimmed, group]
  exact listOf_listed (fun c => isBlank_of_isPlain) rfl rfl types

theorem fluid?_text (flow : Flow) (amount : Numeral) (types : List Word) :
    fluid? (EntryForm.fluid flow amount types).text =
      some (flow, ⟨types.map (·.string), amount.amount⟩) := by
  have keyword (t : Text) : folded? ("fluid ".toList ++ t) "fluid".toList = some (' ' :: t) := rfl
  have number := afterBlanks?_space (stops_numeral amount (' ' :: bracket (listed types)))
  have rest : restOfLine? (' ' :: bracket (listed types)) = some (bracket (listed types)) :=
    restOfLine?_space (stops_cons (by decide) _) ((lined_bracket (lined_words types)).not_mem rfl)
  cases flow with
  | produced =>
    change fluid? ('+' :: ("fluid ".toList ++ (amount.text ++ ' ' :: bracket (listed types)))) = _
    simp only [fluid?, keyword, number, amount.amount?_text, rest, amount.ofDigits?_text,
      fluidTypes_bracket, Option.bind_eq_bind, Option.bind_some]
    rfl
  | consumed =>
    change fluid? ('-' :: ("fluid ".toList ++ (amount.text ++ ' ' :: bracket (listed types)))) = _
    simp only [fluid?, keyword, number, amount.amount?_text, rest, amount.ofDigits?_text,
      fluidTypes_bracket, Option.bind_eq_bind, Option.bind_some]
    rfl

theorem energy?_text (amount : Numeral) (type : Word) :
    energy? (EntryForm.energy amount type).text =
      some { amount := amount.amount, type := type.string } := by
  have keyword : folded? (EntryForm.energy amount type).text "energy".toList =
      some (' ' :: (amount.text ++ ' ' :: type.text)) := rfl
  have number := afterBlanks?_space (stops_numeral amount (' ' :: type.text))
  have starts : Stops isBlank type.text := by
    simpa using type.stops (fun c => isBlank_of_isPlain) []
  have solid : ∀ c ∈ type.text, (!isBlank c) = true := by
    intro c inside
    simp [isBlank_of_isPlain (type.every c inside)]
  have word : run? (!isBlank ·) type.text = some (type.text, []) :=
    run?_eq_some_iff.mpr ⟨type.nonempty, solid, stops_nil _, by simp⟩
  have rest : restOfLine? [] = some [] := rfl
  simp only [energy?, keyword, number, amount.amount?_text, afterBlanks?_space starts, word, rest,
    amount.ofDigits?_text, Option.bind_eq_bind, Option.bind_some]
  rfl

theorem read?_text (settings : Settings) (entry : EntryForm) :
    EntryLine.read? settings entry.text = some (entry.meaning settings) := by
  cases entry with
  | item form =>
    have noFluid : fluid? form.text = none := rfl
    have noEnergy : energy? form.text = none := rfl
    change EntryLine.read? settings form.text = _
    simp only [EntryLine.read?, noFluid, noEnergy, form.item?_text]
    rfl
  | fluid flow amount types =>
    simp only [EntryLine.read?, fluid?_text]
    rfl
  | energy amount type =>
    have noFluid : fluid? (EntryForm.energy amount type).text = none := rfl
    simp only [EntryLine.read?, noFluid, energy?_text]
    rfl

theorem EntryForm.lined_text (entry : EntryForm) : Lined entry.text := by
  cases entry with
  | item form => exact form.lined_text
  | fluid flow amount types =>
    have sign : isLineChar (if flow = .produced then '+' else '-') := by
      cases flow <;> decide
    exact lined_cons sign (lined_append (by decide)
      (lined_append (lined_numeral amount) (lined_cons (by decide)
        (lined_bracket (lined_words types)))))
  | energy amount type =>
    exact lined_append (by decide)
      (lined_append (lined_numeral amount) (lined_cons (by decide) (lined_word type)))

def Firm (t : Text) : Prop :=
  ∃ front c, t = front ++ [c] ∧ isBlank c = false ∧ c ≠ ','

theorem firm_append (s : Text) {t : Text} (firm : Firm t) : Firm (s ++ t) := by
  obtain ⟨front, c, rfl, solid, notComma⟩ := firm
  exact ⟨s ++ front, c, by simp, solid, notComma⟩

theorem firm_cons (c : Char) {t : Text} (firm : Firm t) : Firm (c :: t) :=
  firm_append [c] firm

theorem firm_word (word : Word) : Firm word.text := by
  have last := word.every (word.text.getLast word.nonempty) (List.getLast_mem word.nonempty)
  refine ⟨word.text.dropLast, word.text.getLast word.nonempty, ?_, isBlank_of_isPlain last, ?_⟩
  · rw [List.dropLast_append_getLast]
  · intro same
    rw [same] at last
    exact absurd last (by decide)

theorem firm_bracket (t : Text) : Firm (bracket t) :=
  ⟨'[' :: t, ']', by simp [bracket], by decide, by decide⟩

theorem Attribute.firm_text (part : Attribute) : Firm part.text := by
  cases part with
  | group ids => exact firm_bracket _
  | mapper name => exact firm_append _ (firm_word name)
  | mode word => exact firm_append _ (firm_word word)
  | tags words => exact firm_append _ (firm_bracket _)
  | flags words => exact firm_append _ (firm_bracket _)

theorem firm_attributes {parts : List Attribute} (nonempty : parts ≠ []) :
    Firm (parts.flatMap fun part => ' ' :: part.text) := by
  induction parts with
  | nil => contradiction
  | cons part parts ih =>
    by_cases last : parts = []
    · subst last
      simpa using firm_cons ' ' part.firm_text
    · exact firm_append _ (ih last)

theorem EntryForm.firm_text (entry : EntryForm) : Firm entry.text := by
  cases entry with
  | item form => exact firm_append _ (firm_append _ (firm_attributes (by simp [ItemForm.attributes])))
  | fluid flow amount types =>
    exact firm_cons _ (firm_append _ (firm_append _ (firm_cons ' ' (firm_bracket _))))
  | energy amount type => exact firm_append _ (firm_append _ (firm_cons ' ' (firm_word type)))

theorem EntryForm.starts_text (entry : EntryForm) : Stops isBlank entry.text := by
  cases entry with
  | item form => exact stops_cons (by decide) _
  | fluid flow amount types =>
    exact stops_cons (by cases flow <;> decide) _
  | energy amount type => exact stops_cons (by decide) _

theorem cleanLine_text (entry : EntryForm) :
    Section.cleanLine (entry.text ++ [',']) = entry.text := by
  have uncommented : beforeLineComment (entry.text ++ [',']) = entry.text ++ [','] :=
    beforeLineComment_eq_self ((lined_append entry.lined_text (by decide)).not_mem rfl)
  obtain ⟨front, c, ends, solid, notComma⟩ := entry.firm_text
  have trimmed : trim (entry.text ++ [',']) = entry.text ++ [','] := by
    apply trimWhile_eq_self
    · exact stops_append entry.starts_text (by simp [ends]) _
    · rw [List.reverse_append]
      exact stops_cons (by decide) _
  have commaless : dropEndWhile (· == ',') (entry.text ++ [',']) = entry.text := by
    simp [dropEndWhile, ends, notComma]
  have whole : trimEnd entry.text = entry.text := by
    simp [trimEnd, dropEndWhile, ends, solid]
  rw [Section.cleanLine, uncommented, trimmed, commaless, whole]

theorem unlines_cons (line : Text) (lines : List Text) :
    unlines (line :: lines) = line ++ '\n' :: unlines lines := by
  simp [unlines]

theorem lines_unlines {texts : List Text} (single : ∀ t ∈ texts, '\n' ∉ t ∧ '\r' ∉ t) :
    lines (unlines texts) = texts := by
  induction texts with
  | nil => rfl
  | cons t texts ih =>
    obtain ⟨newline, unreturned⟩ := single t (by simp)
    rw [unlines_cons, lines_append newline unreturned, ih fun t inside => single t (by simp [inside])]

theorem contentLines_entries (entries : List EntryForm) :
    Section.contentLines (unlines ([] :: entryLines entries)) =
      entries.map (·.text) := by
  have single : ∀ line ∈ [] :: entryLines entries, '\n' ∉ line ∧ '\r' ∉ line := by
    intro line inside
    rcases List.mem_cons.mp inside with rfl | later
    · simp
    · obtain ⟨entry, -, rfl⟩ := List.mem_map.mp later
      have lined : Lined (entry.text ++ [',']) := lined_append entry.lined_text (by decide)
      exact ⟨lined.not_mem rfl, lined.not_mem rfl⟩
  have kept : ∀ t ∈ entries.map (·.text), t ≠ [] := by
    intro t inside
    obtain ⟨entry, -, rfl⟩ := List.mem_map.mp inside
    obtain ⟨front, c, ends, -, -⟩ := entry.firm_text
    simp [ends]
  have cleaned : (entryLines entries).map Section.cleanLine =
      entries.map (·.text) := by
    rw [entryLines, List.map_map]
    exact List.map_congr_left fun entry _ => cleanLine_text entry
  have blank : Section.cleanLine [] = [] := rfl
  rw [Section.contentLines, lines_unlines single, List.map_cons, cleaned, blank]
  rw [List.filter_cons_of_neg (by simp)]
  exact List.filter_eq_self.mpr (by simpa using kept)

theorem read_entries (settings : Settings) (entries : List EntryForm) :
    let found := Section.read settings (unlines ([] :: entryLines entries))
    found.value = ⟨Section.entriesOf settings false (entries.map (EntryForm.meaning settings)),
      Section.carriedOf settings (entries.map (EntryForm.meaning settings))⟩ ∧ found.issues = [] := by
  have known (entry : EntryForm) :
      Section.classify settings entry.text = pure (some (entry.meaning settings)) := by
    simp only [Section.classify, read?_text]
  have values : (entries.map (·.text)).map (fun line => (Section.classify settings line).value) =
      (entries.map (EntryForm.meaning settings)).map some := by
    simp [known]
  have issues : (entries.map (·.text)).flatMap (fun line => (Section.classify settings line).issues) =
      [] := by
    simp [known]
  have owned := (Section.ofLines_owned settings (entries.map (EntryForm.meaning settings))).1
  dsimp only
  rw [Section.read, contentLines_entries]
  simp only [WithIssues.value_bind, WithIssues.value_mapM, WithIssues.value_pure,
    WithIssues.issues_bind, WithIssues.issues_mapM, WithIssues.issues_pure, values, issues,
    List.append_nil, and_true]
  rw [List.filterMap_map, ← owned]
  simp

end CraftScript.Canonical
