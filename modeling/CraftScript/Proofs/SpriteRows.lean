import CraftScript.Construction
import CraftScript.Proofs.Lines
import CraftScript.Proofs.Partings
import CraftScript.Proofs.Tables

/-! Rows of sprites and the lines they stand on. The value of a row ends with its line, but the blanks
on either side of its equals sign may run over newlines, and then the row takes its value from a later
line. -/
namespace CraftScript

open Text

namespace Text

variable {separates : Char → Bool}

theorem flatten_splitBy (t : Text) : (splitBy separates t).flatten = t.filter (!separates ·) := by
  induction t with
  | nil => rfl
  | cons c t ih =>
    by_cases cuts : separates c
    · simp [splitBy, cuts, ih]
    · have plain : separates c = false := by simpa using cuts
      obtain ⟨piece, pieces, split⟩ := List.exists_cons_of_ne_nil (splitBy_ne_nil separates t)
      rw [split, List.flatten_cons] at ih
      simp [splitBy_cons_plain plain split, plain, ih]

theorem flatten_words (t : Text) : (words t).flatten = t.filter (!isBlank ·) := by
  rw [words, List.flatten_filter_ne_nil, flatten_splitBy]

end Text

namespace Construction

def inRow (c : Char) : Bool :=
  c ≠ ',' && c ≠ '\n' && c ≠ '}'

/-- A row where characters of the kind `between` may stand before the equals sign, and those of the
kind `behind` are passed over after it. -/
def row (between behind : Char → Bool) : Pattern Text := fun previous t => do
  let t ← t.literal? "row".toList
  guard (beginsWord previous)
  let t ← literal? (t.dropWhile between) ['=']
  let t := t.dropWhile behind
  return (t.takeWhile inRow, t.dropWhile inRow)

theorem spriteRow_eq_row : spriteRow = row isBlank isBlank := rfl

def IsRow (between behind : Char → Bool) : Grammar Text := fun previous value region after =>
  beginsWord previous ∧ ∃ gap gap', (∀ c ∈ gap, between c) ∧ (∀ c ∈ gap', behind c) ∧
    Stops behind (value ++ after) ∧ (∀ c ∈ value, inRow c) ∧ Stops inRow after ∧
    region = "row".toList ++ gap ++ '=' :: (gap' ++ value)

theorem IsRow.ends {between behind : Char → Bool} {previous : Option Char} {value region after : Text}
    (written : IsRow between behind previous value region after) : Stops inRow after := by
  obtain ⟨-, _, _, -, -, -, -, ends, -⟩ := written
  exact ends

theorem reads_row {between : Char → Bool} (apart : between '=' = false) (behind : Char → Bool) :
    (row between behind).Reads (IsRow between behind) where
  iff {previous t after value} := by
    simp only [row, Option.bind_eq_bind, Option.bind_eq_some_iff, literal?_eq_some_iff,
      guard_eq_some_iff, Option.pure_def, Option.some.injEq, Prod.mk.injEq]
    constructor
    · rintro ⟨u, rfl, _, begins, v, opens, rfl, rfl⟩
      refine ⟨_, ?_, begins, u.takeWhile between, v.takeWhile behind,
        fun c => List.mem_takeWhile_imp, fun c => List.mem_takeWhile_imp, ?_,
        fun c => List.mem_takeWhile_imp, stops_dropWhile inRow _, rfl⟩
      · have whole : u.takeWhile between ++ '=' :: v = u := by
          rw [← List.singleton_append, ← opens, List.takeWhile_append_dropWhile]
        simp only [List.append_assoc, List.cons_append, List.takeWhile_append_dropWhile, whole]
      · rw [List.takeWhile_append_dropWhile]
        exact stops_dropWhile behind v
    · rintro ⟨_, rfl, begins, gap, gap', gapped, gapped', stops, every, ends, rfl⟩
      have opens : (gap ++ '=' :: (gap' ++ (value ++ after))).dropWhile between =
          ['='] ++ (gap' ++ (value ++ after)) :=
        dropWhile_append_stop gapped (stops_cons apart _)
      refine ⟨gap ++ '=' :: (gap' ++ (value ++ after)), by simp, (), begins, _, opens, ?_⟩
      rw [dropWhile_append_stop gapped' stops]
      exact ⟨takeWhile_append_stop every ends, dropWhile_append_stop every ends⟩
  filled := by
    rintro previous value region after ⟨-, gap, gap', -, -, -, -, -, rfl⟩
    simp

theorem reads_spriteRow : spriteRow.Reads (IsRow isBlank isBlank) :=
  reads_row (by decide) isBlank

def onLine (c : Char) : Bool :=
  isBlank c && c ≠ '\n'

theorem inRow_of_onLine {c : Char} (blank : onLine c) : inRow c := by
  simp only [onLine, Bool.and_eq_true, decide_eq_true_eq] at blank
  have notComma : c ≠ ',' := by
    rintro rfl
    exact absurd blank.1 (by decide)
  have notBrace : c ≠ '}' := by
    rintro rfl
    exact absurd blank.1 (by decide)
  simp [inRow, notComma, notBrace, blank.2]

theorem onLine_of_blank {run : Text} (blanks : ∀ c ∈ run, isBlank c) (single : '\n' ∉ run) :
    ∀ c ∈ run, onLine c := by
  intro c inside
  have other : c ≠ '\n' := fun same => single (same ▸ inside)
  simp [onLine, blanks c inside, other]

/-- A row that stays on its line: the name at the start of a word, blanks or none, the equals sign, and
all that comes before the next comma, newline or closing brace. -/
def IsLineRow : Grammar Text := fun previous value region after =>
  beginsWord previous ∧ (∀ c ∈ value, inRow c) ∧ Stops inRow after ∧
    ∃ gap, (∀ c ∈ gap, onLine c) ∧ region = "row".toList ++ gap ++ '=' :: value

def lineRow : Pattern Text :=
  row onLine fun _ => false

theorem reads_lineRow : lineRow.Reads IsLineRow := by
  have same : IsLineRow = IsRow onLine fun _ => false := by
    funext previous value region after
    simp only [IsLineRow, IsRow, eq_iff_iff]
    constructor
    · rintro ⟨begins, every, ends, gap, blanks, rfl⟩
      exact ⟨begins, gap, [], blanks, by simp, by simp [Stops], every, ends, rfl⟩
    · rintro ⟨begins, gap, gap', blanks, nothing, -, every, ends, rfl⟩
      obtain rfl : gap' = [] := List.eq_nil_iff_forall_not_mem.mpr (by simpa using nothing)
      exact ⟨begins, every, ends, gap, blanks, rfl⟩
  rw [same]
  exact reads_row (by decide) _

theorem isSome_row_iff {between behind : Char → Bool} (apart : between '=' = false)
    {previous : Option Char} {t : Text} :
    (row between behind previous t).isSome ↔
      beginsWord previous ∧ ∃ gap u, (∀ c ∈ gap, between c) ∧
        t = "row".toList ++ gap ++ '=' :: u := by
  constructor
  · intro found
    obtain ⟨⟨value, after⟩, read⟩ := Option.isSome_iff_exists.mp found
    obtain ⟨_, rfl, begins, gap, gap', blanks, -, -, -, -, rfl⟩ := (reads_row apart behind).iff.mp read
    exact ⟨begins, gap, gap' ++ value ++ after, blanks, by simp⟩
  · rintro ⟨begins, gap, u, blanks, rfl⟩
    have opens : literal? ((gap ++ '=' :: u).dropWhile between) ['='] = some u := by
      rw [dropWhile_append_stop blanks (stops_cons apart u)]
      exact literal?_eq_some_iff.mpr rfl
    simp [row, literal?, opens, begins, guard]

theorem silent_lineRow {previous : Option Char} {t rest : Text}
    (silent : spriteRow.Silent previous t rest) : lineRow.Silent previous t rest := by
  intro front c back split
  have nothing := silent front c back split
  by_contra read
  obtain ⟨begins, gap, u, blanks, same⟩ :=
    (isSome_row_iff (by decide)).mp (Option.ne_none_iff_isSome.mp read)
  have wide : ∀ d ∈ gap, isBlank d := fun d inside => (Bool.and_eq_true_iff.mp (blanks d inside)).1
  have found := (@isSome_row_iff isBlank isBlank (by decide) _ _).mpr ⟨begins, gap, u, wide, same⟩
  rw [← spriteRow_eq_row, nothing] at found
  contradiction

theorem silent_of_not_mem {between behind : Char → Bool} {t : Text} (absent : 'r' ∉ t)
    (previous : Option Char) (rest : Text) : (row between behind).Silent previous t rest := by
  rintro front c back rfl
  have other : c ≠ 'r' := fun same => absent (by simp [same])
  simp [row, literal?, other]

theorem contained_row {between behind : Char → Bool} {rest : Text} (ends : Stops inRow rest)
    (between' : Stops between rest) (behind' : Stops behind rest) (previous : Option Char) (t : Text) :
    (row between behind).Contained previous t rest := by
  rintro front c back -
  have other (word : Text) (every : ∀ d ∈ word, inRow d) : ∀ d ∈ word, rest.head? ≠ some d := by
    intro d inside first
    have bad := ends d first
    simp [every d inside] at bad
  rw [← List.cons_append]
  simp only [row, literal?_append (other "row".toList (by decide)), Option.bind_eq_bind]
  cases literal? (c :: back) "row".toList with
  | none => rfl
  | some u =>
    simp only [Option.map_some, Option.bind_some, dropWhile_append_of_stops between',
      literal?_append (other ['='] (by decide))]
    cases literal? (u.dropWhile between) ['='] with
    | none => by_cases begins : beginsWord (lastOf previous front) <;> simp [guard, begins]
    | some v =>
      by_cases begins : beginsWord (lastOf previous front)
      · simp [guard, begins, dropWhile_append_of_stops behind', takeWhile_append_of_stops ends,
          dropWhile_append_of_stops ends]
      · simp [guard, begins]

theorem contained_lineRow {rest : Text} (ends : Stops inRow rest) (previous : Option Char)
    (t : Text) : lineRow.Contained previous t rest := by
  refine contained_row ends (fun d first => ?_) (fun _ _ => rfl) previous t
  by_contra blank
  have within : inRow d := by
    apply inRow_of_onLine
    simpa using blank
  simp [ends d first] at within

def lineWords (previous : Option Char) (t : Text) : List Text :=
  ((lineRow.piecesFrom 0 previous t).filterMap Piece.value?).flatMap words

theorem lineWords_source {rows : Parting Text} {previous : Option Char}
    (sound : rows.Sound IsLineRow previous) :
    lineWords previous rows.source = rows.values.flatMap words := by
  rw [lineWords, Parting.piecesFrom_source reads_lineRow sound, Parting.filterMap_value?_pieces]

theorem lineWords_silent {previous : Option Char} {t rest : Text}
    (silent : lineRow.Silent previous t rest) :
    lineWords previous (t ++ rest) = lineWords (lastOf previous t) rest := by
  rw [lineWords, Pattern.piecesFrom_silent silent, List.filterMap_append,
    Piece.filterMap_value?_kept, List.nil_append, lineWords]

theorem lineWords_append {rest : Text} (ends : Stops inRow rest) (previous : Option Char)
    (t : Text) :
    lineWords previous (t ++ rest) = lineWords previous t ++ lineWords (lastOf previous t) rest := by
  rw [lineWords, Pattern.piecesFrom_append (contained_lineRow ends previous t) (Nat.zero_le _),
    List.filterMap_append, List.flatMap_append, lineWords, lineWords]

theorem lineWords_row {previous : Option Char} {gap value : Text} (begins : beginsWord previous)
    (blanks : ∀ c ∈ gap, onLine c) (every : ∀ c ∈ value, inRow c) :
    lineWords previous ("row".toList ++ gap ++ '=' :: value) = words value := by
  have bare (previous : Option Char) (behind : Text) : IsLineRow.Bare previous [] behind := by
    simp [Grammar.Bare]
  have sound : (Parting.found [] value ("row".toList ++ gap ++ '=' :: value)
      (.last [])).Sound IsLineRow previous :=
    ⟨bare _ _, ⟨begins, every, stops_nil _, gap, blanks, rfl⟩, bare _ _⟩
  have found := lineWords_source sound
  simpa [Parting.source, Parting.values] using found

/-- The words of rows on lines are fewer than those of the text, which has the names as well. -/
theorem lineWords_lt (previous : Option Char) (t : Text) :
    lineWords previous t = [] ∨
      (lineWords previous t).flatten.length < (t.filter (!isBlank ·)).length := by
  obtain ⟨rows, rfl, sound⟩ := Parting.exists_sound reads_lineRow previous t
  rw [lineWords_source sound]
  induction rows generalizing previous with
  | last run => exact .inl rfl
  | found run value region rest ih =>
    obtain ⟨-, ⟨-, -, -, gap, -, rfl⟩, later⟩ := sound
    have named : ("row".toList.filter (!isBlank ·)).length = 3 := by decide +kernel
    have counted : (rest.values.flatMap words).flatten.length ≤
        (rest.source.filter (!isBlank ·)).length := by
      rcases ih _ later with empty | fewer
      · simp [empty]
      · exact fewer.le
    right
    simp only [Parting.values, Parting.source, List.flatMap_cons, List.flatten_append, flatten_words,
      List.filter_append, List.filter_cons, List.length_append, named]
    simp only [Bool.not_eq_true', show isBlank '=' = false by decide, if_true, List.length_cons]
    omega

theorem lineWords_of_not_mem {t : Text} (absent : '=' ∉ t) (previous : Option Char) :
    lineWords previous t = [] := by
  have silent : lineRow.Silent previous t [] := by
    rintro front c back rfl
    by_contra read
    obtain ⟨-, gap, u, -, same⟩ :=
      (isSome_row_iff (by decide)).mp (Option.ne_none_iff_isSome.mp read)
    rw [List.append_nil] at same
    exact absent (by simp [same])
  have nothing := lineWords_silent silent
  rwa [List.append_nil] at nothing

theorem lineWords_crossing {previous : Option Char} {gap gap' : Text} (begins : beginsWord previous)
    (blanks : ∀ c ∈ gap, isBlank c) (blanks' : ∀ c ∈ gap', isBlank c)
    (crosses : '\n' ∈ gap ++ gap') (value : Text) :
    ∃ before, lineWords previous ("row".toList ++ gap ++ '=' :: (gap' ++ value)) =
      lineWords before value := by
  -- What stands before the newline gives nothing, and no row begins between it and the value.
  have behind {front back : Text} (nothing : lineWords previous front = []) (absent : 'r' ∉ back) :
      ∃ before, lineWords previous (front ++ '\n' :: (back ++ value)) = lineWords before value := by
    have unnamed : 'r' ∉ '\n' :: back := by simpa using absent
    rw [lineWords_append (stops_cons (by decide) _), nothing, List.nil_append, ← List.cons_append]
    exact ⟨_, lineWords_silent (silent_of_not_mem unnamed _ _)⟩
  have unnamed {run : Text} (every : ∀ c ∈ run, isBlank c) : 'r' ∉ run := fun inside =>
    absurd (every _ inside) (by decide)
  by_cases early : '\n' ∈ gap
  · obtain ⟨front, back, rfl⟩ := List.append_of_mem early
    have absent : '=' ∉ "row".toList ++ front := by
      simp only [List.mem_append, not_or]
      exact ⟨by decide, fun inside => absurd (blanks '=' (by simp [inside])) (by decide)⟩
    have absent' : 'r' ∉ back ++ '=' :: gap' := by
      have first : 'r' ∉ back := unnamed fun c inside => blanks c (by simp [inside])
      simp [first, unnamed blanks']
    simpa using behind (lineWords_of_not_mem absent previous) absent'
  · have late : '\n' ∈ gap' := (List.mem_append.mp crosses).resolve_left early
    obtain ⟨front, back, rfl, first⟩ := List.eq_append_cons_of_mem late
    have lead : ∀ c ∈ front, isBlank c := fun c inside => blanks' c (by simp [inside])
    have read := lineWords_row begins (onLine_of_blank blanks early) fun c inside =>
      inRow_of_onLine (onLine_of_blank lead first c inside)
    have empty := words_blanks lead []
    rw [List.append_nil] at empty
    have absent : 'r' ∉ back := unnamed fun c inside => blanks' c (by simp [inside])
    simpa using behind (read.trans empty) absent

/-- The row takes its value from its own line, or has none. -/
def StaysOnLine (value region : Text) : Prop :=
  '\n' ∈ region → value = []

/-- A row gives the words that its line shows, unless it takes its value from a later line; then it
gives more. -/
theorem lineWords_region {previous : Option Char} {value region after : Text}
    (written : IsRow isBlank isBlank previous value region after) :
    StaysOnLine value region ∧ lineWords previous region = words value ∨
      ¬ StaysOnLine value region ∧
        (lineWords previous region).flatten.length < (words value).flatten.length := by
  obtain ⟨begins, gap, gap', blanks, blanks', stops, every, -, rfl⟩ := written
  have single : '\n' ∉ value := fun inside => absurd (every _ inside) (by decide)
  have newline : '\n' ∈ "row".toList ++ gap ++ '=' :: (gap' ++ value) ↔ '\n' ∈ gap ++ gap' := by
    simp [single]
  simp only [StaysOnLine, newline]
  by_cases crosses : '\n' ∈ gap ++ gap'
  · obtain ⟨before, read⟩ := lineWords_crossing begins blanks blanks' crosses value
    rw [read]
    cases value with
    | nil => exact .inl ⟨fun _ => rfl, rfl⟩
    | cons c value =>
      have solid : isBlank c = false := stops c rfl
      refine .inr ⟨fun stays => absurd (stays crosses) (by simp), ?_⟩
      rw [flatten_words]
      rcases lineWords_lt before (c :: value) with empty | fewer
      · simp [empty, solid]
      · exact fewer
  · refine .inl ⟨fun crosses' => absurd crosses' crosses, ?_⟩
    rw [List.mem_append, not_or] at crosses
    have within : ∀ c ∈ gap' ++ value, inRow c := by
      intro c inside
      rcases List.mem_append.mp inside with lead | inside
      · exact inRow_of_onLine (onLine_of_blank blanks' crosses.2 c lead)
      · exact every c inside
    rw [lineWords_row begins (onLine_of_blank blanks crosses.1) within, words_blanks blanks']

def StayOnLines (pieces : List (Piece Text)) : Prop :=
  ∀ value region, .found value region ∈ pieces → StaysOnLine value region

theorem stayOnLines_kept (run : Text) : StayOnLines (run.map .kept) := by
  simp [StayOnLines]

theorem stayOnLines_found {run value region : Text} {pieces : List (Piece Text)} :
    StayOnLines (run.map .kept ++ .found value region :: pieces) ↔
      StaysOnLine value region ∧ StayOnLines pieces := by
  constructor
  · intro stay
    exact ⟨stay value region (by simp), fun value' region' member =>
      stay value' region' (by simp [member])⟩
  · rintro ⟨here, later⟩ value' region' member
    rcases List.mem_append.mp member with kept | member
    · simp at kept
    · rcases List.mem_cons.mp member with same | member
      · obtain ⟨rfl, rfl⟩ := Piece.found.inj same
        exact here
      · exact later value' region' member

/-- The rows that a search finds give the words that the lines show if each stays on its line, and
otherwise more. -/
theorem lineWords_parting {rows : Parting Text} {previous : Option Char}
    (sound : rows.Sound (IsRow isBlank isBlank) previous) :
    StayOnLines rows.pieces ∧ lineWords previous rows.source = rows.values.flatMap words ∨
      ¬ StayOnLines rows.pieces ∧
        (lineWords previous rows.source).flatten.length <
          (rows.values.flatMap words).flatten.length := by
  induction rows generalizing previous with
  | last run =>
    have silent := silent_lineRow ((Parting.bare_iff_silent reads_spriteRow).mp sound)
    have nothing := lineWords_silent silent
    rw [List.append_nil] at nothing
    exact .inl ⟨stayOnLines_kept run, nothing⟩
  | found run value region rest ih =>
    obtain ⟨bare, written, later⟩ := sound
    have silent := silent_lineRow ((Parting.bare_iff_silent reads_spriteRow).mp bare)
    rw [lastOf_append] at later
    simp only [Parting.pieces, Parting.source, Parting.values, List.flatMap_cons, stayOnLines_found,
      lineWords_silent silent, lineWords_append written.ends, List.flatten_append, List.length_append]
    rcases lineWords_region written with ⟨stays, same⟩ | ⟨moves, fewer⟩
    · rcases ih later with ⟨stay, same'⟩ | ⟨move, fewer⟩
      · exact .inl ⟨⟨stays, stay⟩, by rw [same, same']⟩
      · refine .inr ⟨fun both => move both.2, ?_⟩
        rw [same]
        omega
    · refine .inr ⟨fun both => moves both.1, ?_⟩
      rcases ih later with ⟨-, same⟩ | ⟨-, fewer'⟩
      · rw [same]
        omega
      · omega

/-- The sprites of a face are those that its lines show just where no row takes its value from a later
line. -/
theorem spritesOf_eq_iff (face : Block) {rows : Parting Text} (whole : rows.source = face.body)
    (sound : rows.Sound IsLineRow none) :
    spritesOf face = (rows.values.flatMap words).map String.ofList ↔
      StayOnLines (spriteRow.pieces face.body) := by
  obtain ⟨found, source, sound'⟩ := Parting.exists_sound reads_spriteRow none face.body
  have pieces : spriteRow.pieces face.body = found.pieces := by
    rw [Pattern.pieces, ← source, Parting.piecesFrom_source reads_spriteRow sound']
  have sprites : spritesOf face = (found.values.flatMap words).map String.ofList := by
    rw [spritesOf, pieces, Parting.filterMap_value?_pieces, List.map_flatMap]
  have injective : Function.Injective (List.map String.ofList) :=
    List.map_injective_iff.mpr fun _ _ => String.ofList_injective
  rw [sprites, injective.eq_iff, pieces, ← lineWords_source sound, whole, ← source]
  rcases lineWords_parting sound' with ⟨stay, same⟩ | ⟨move, fewer⟩
  · exact ⟨fun _ => stay, fun _ => same.symm⟩
  · refine ⟨fun same => ?_, fun stay => absurd stay move⟩
    rw [same] at fewer
    omega

theorem get?_faces {body : Text} {face : Block}
    (last : ((Block.all .face body).value.filter (·.name = face.name)).getLast? = some face) :
    (faces body).value.get? (String.ofList face.name) = some (spritesOf face) := by
  change (Dict.ofList ((Block.all .face body).value.map fun face =>
    (String.ofList face.name, spritesOf face))).get? _ = _
  rw [Dict.get?_ofList, Dict.lastNamed?, List.filter_map, List.getLast?_map]
  have same : ((fun entry : String × List String => decide (entry.1 = String.ofList face.name)) ∘
      fun face => (String.ofList face.name, spritesOf face)) = fun other : Block =>
        decide (other.name = face.name) := by
    funext other
    simp [String.ofList_inj]
  rw [same, last]
  rfl

/-- The rows on lines part the body of a face in one way; a row that would begin in the value of another
is a part of that value. For the last face of a direction the words of these rows are stored if and only
if each row that the search finds stays on its line. -/
theorem faces_on_lines_iff {body : Text} {face : Block}
    (last : ((Block.all .face body).value.filter (·.name = face.name)).getLast? = some face) :
    ∃ rows : Parting Text,
      (∀ other : Parting Text,
        other.source = face.body ∧ other.Sound IsLineRow none ↔ other = rows) ∧
      (faces body).value.get? (String.ofList face.name) = some (spritesOf face) ∧
      (spritesOf face = (rows.values.flatMap words).map String.ofList ↔
        StayOnLines (spriteRow.pieces face.body)) := by
  obtain ⟨rows, only⟩ := Parting.exists_only reads_lineRow face.body
  obtain ⟨whole, sound⟩ := (only rows).mpr rfl
  exact ⟨rows, only, get?_faces last, spritesOf_eq_iff face whole sound⟩

/-- Two faces of one direction, the last with a row that is split over lines but has no value. -/
theorem faces_on_lines_iff_twice :
    let face : Block := ⟨['N'], " row = wall_1 wall_2, row\n=\n, row= ".toList⟩
    let body := "face N \x7brow = old\x7d face N \x7b".toList ++ face.body ++ ['}']
    ((Block.all .face body).value.filter (·.name = face.name)).getLast? = some face ∧
      ∃ rows : Parting Text, rows.source = face.body ∧ rows.Sound IsLineRow none ∧
        (faces body).value.get? "N" = some ((rows.values.flatMap words).map String.ofList) := by
  intro face body
  have last : ((Block.all .face body).value.filter (·.name = face.name)).getLast? = some face := by
    decide +kernel
  have stay : StayOnLines (spriteRow.pieces face.body) := by
    have each : (spriteRow.pieces face.body).all (fun piece =>
        piece.value?.all fun value => !piece.source.contains '\n' || value.isEmpty) := by
      decide +kernel
    intro value region member newline
    have fine := List.all_eq_true.mp each _ member
    simpa [Piece.value?, Piece.source, newline] using fine
  obtain ⟨rows, only, stored, same⟩ := faces_on_lines_iff last
  obtain ⟨whole, sound⟩ := (only rows).mpr rfl
  rw [same.mpr stay] at stored
  exact ⟨last, rows, whole, sound, stored⟩

/-- A row without a value takes the next line for it, with the name and the equals sign that stand
there. -/
theorem next_line_is_taken :
    let face : Block := ⟨['N'], "\nrow =\nrow = wall_1,\n".toList⟩
    let body := "face N \x7b".toList ++ face.body ++ ['}']
    let rows : Parting Text := .found ['\n'] [] "row =".toList
      (.found ['\n'] " wall_1".toList "row = wall_1".toList (.last ",\n".toList))
    ((Block.all .face body).value.filter (·.name = face.name)).getLast? = some face ∧
      rows.source = face.body ∧ rows.Sound IsLineRow none ∧
      (rows.values.flatMap words).map String.ofList = ["wall_1"] ∧
      (faces body).value.get? "N" = some ["row", "=", "wall_1"] := by
  intro face body rows
  have bare (previous : Option Char) {run : Text} (absent : 'r' ∉ run) (behind : Text) :
      IsLineRow.Bare previous run behind :=
    (Parting.bare_iff_silent reads_lineRow).mpr (silent_of_not_mem absent previous behind)
  have blank : ∀ c ∈ [' '], onLine c := by decide
  refine ⟨by decide +kernel, rfl, ⟨bare _ (by decide) _, ⟨rfl, by simp, ?_, [' '], blank, rfl⟩,
    bare _ (by decide) _, ⟨rfl, by decide, ?_, [' '], blank, rfl⟩, bare _ (by decide) _⟩,
    by decide +kernel, by decide +kernel⟩
  · exact stops_cons (by decide) _
  · exact stops_cons (by decide) _

end Construction

end CraftScript
