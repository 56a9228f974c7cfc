import CraftScript.Proofs.Lines

/-! Properties as they are written. A comma may end a property or divide its value; a piece is told
to begin a property by its equals sign, and by nothing else. So properties read back as written,
however they share lines. -/
namespace CraftScript.Property

open Text

theorem readPieces_property {piece left right : Text} (nonempty : piece ≠ [])
    (parted : splitOnce? '=' piece = some (left, right)) (named : trim left ≠ [])
    (oneWord : (trim left).any isBlank = false) (current : Option Property) (pieces : List Text) :
    readPieces current (piece :: pieces) =
      current.toList ++ readPieces (some ⟨trim left, trim right⟩) pieces := by
  obtain ⟨c, t, rfl⟩ := List.exists_cons_of_ne_nil nonempty
  simp [readPieces, parted, named, oneWord]

theorem readPieces_continued {piece : Text} (nonempty : piece ≠ []) (unequal : '=' ∉ piece)
    (current : Option Property) (pieces : List Text) :
    readPieces current (piece :: pieces) = readPieces (current.map (extend piece)) pieces := by
  have whole : splitOnce? '=' piece = none := by
    rw [Option.eq_none_iff_forall_ne_some]
    rintro ⟨left, right⟩ parted
    obtain ⟨-, rfl⟩ := splitOnce?_eq_some_iff.mp parted
    exact unequal (by simp)
  obtain ⟨c, t, rfl⟩ := List.exists_cons_of_ne_nil nonempty
  simp [readPieces, whole]

theorem readPieces_empty {pieces : List Text} (empty : ∀ piece ∈ pieces, piece = [])
    (current : Option Property) : readPieces current pieces = current.toList := by
  induction pieces with
  | nil => rfl
  | cons piece pieces ih =>
    obtain rfl := empty piece (by simp)
    rw [readPieces]
    exact ih fun piece inside => empty piece (by simp [inside])

structure IsPiece (piece : Text) : Prop where
  nonempty : piece ≠ []
  starts : Stops isEdge piece
  ends : Stops isEdge piece.reverse
  plain : ',' ∉ piece ∧ '/' ∉ piece ∧ '\n' ∉ piece

theorem isPiece_iff {piece : Text} : IsPiece piece ↔ piece ≠ [] ∧ Stops isEdge piece ∧
    Stops isEdge piece.reverse ∧ ',' ∉ piece ∧ '/' ∉ piece ∧ '\n' ∉ piece :=
  ⟨fun ⟨nonempty, starts, ends, plain⟩ => ⟨nonempty, starts, ends, plain⟩,
    fun ⟨nonempty, starts, ends, plain⟩ => ⟨nonempty, starts, ends, plain⟩⟩

instance (piece : Text) : Decidable (IsPiece piece) :=
  decidable_of_iff _ isPiece_iff.symm

theorem IsPiece.trimmed {piece : Text} (isPiece : IsPiece piece) :
    trimWhile isEdge piece = piece :=
  trimWhile_eq_self isPiece.starts isPiece.ends

/-- A property as it is written: its key, and the pieces of its value. Only the first of them may
hold an equals sign. -/
structure Form where
  key : Text
  first : Text
  others : List Text
  named : key ≠ []
  oneWord : ∀ c ∈ key, isBlank c = false ∧ c ∉ [',', '=', '{', '}', '/']
  pieces : ∀ piece ∈ first :: others, IsPiece piece
  unequal : ∀ piece ∈ others, '=' ∉ piece

namespace Form

def value (form : Form) : Text :=
  [','].intercalate (form.first :: form.others)

def property (form : Form) : Property :=
  ⟨form.key, form.value⟩

def text (form : Form) : Text :=
  form.key ++ " = ".toList ++ form.value

def front (form : Form) : Text :=
  form.key ++ (" = ".toList ++ form.first)

theorem text_eq (form : Form) : form.text = [','].intercalate (form.front :: form.others) := by
  rw [text, value, front]
  cases form.others with
  | nil => simp
  | cons other others => simp [List.intercalate_cons_cons]

theorem front_ne_nil (form : Form) : form.front ≠ [] :=
  List.append_ne_nil_of_left_ne_nil form.named _

theorem isFirst (form : Form) : IsPiece form.first :=
  form.pieces form.first (by simp)

theorem isOther (form : Form) {piece : Text} (member : piece ∈ form.others) : IsPiece piece :=
  form.pieces piece (by simp [member])

theorem not_mem_front (form : Form) {mark : Char} (inFirst : mark ∉ form.first)
    (foreign : isBlank mark = true ∨ mark ∈ [',', '=', '{', '}', '/'])
    (apart : mark ∉ " = ".toList) : mark ∉ form.front := by
  have inKey : mark ∉ form.key := by
    intro inside
    obtain ⟨solid, unmarked⟩ := form.oneWord mark inside
    rcases foreign with blank | sign
    · simp [solid] at blank
    · exact unmarked sign
  simp only [front, List.mem_append, not_or]
  exact ⟨inKey, apart, inFirst⟩

theorem not_mem_text (form : Form) {mark : Char} (absent : ∀ piece, IsPiece piece → mark ∉ piece)
    (foreign : isBlank mark = true ∨ mark ∈ [',', '=', '{', '}', '/'])
    (apart : mark ∉ " = ".toList) (other : mark ≠ ',') : mark ∉ form.text := by
  rw [form.text_eq]
  intro inside
  rcases mem_intercalate inside with same | ⟨piece, member, within⟩
  · exact other same
  · rcases List.mem_cons.mp member with rfl | later
    · exact form.not_mem_front (absent _ form.isFirst) foreign apart within
    · exact absent piece (form.isOther later) within

theorem splitBy_text (form : Form) :
    splitBy (· == ',') form.text = form.front :: form.others := by
  rw [form.text_eq, splitBy_intercalate (by decide) (by simp)]
  apply flatMap_splitBy_solid
  intro piece member c inside
  have whole : ',' ∉ piece := by
    rcases List.mem_cons.mp member with rfl | later
    · exact form.not_mem_front form.isFirst.plain.1 (by simp) (by decide)
    · exact (form.isOther later).plain.1
  simpa using fun same : c = ',' => whole (same ▸ inside)

theorem isEdge_key (form : Form) {c : Char} (inside : c ∈ form.key) : isEdge c = false := by
  obtain ⟨solid, unmarked⟩ := form.oneWord c inside
  have notOpen : c ≠ '{' := fun same => unmarked (by simp [same])
  have notClose : c ≠ '}' := fun same => unmarked (by simp [same])
  simp [isEdge, solid, notOpen, notClose]

theorem trimmed_front (form : Form) : trimWhile isEdge form.front = form.front := by
  apply trimWhile_eq_self
  · exact stops_append (stops_of_forall fun c inside => form.isEdge_key inside) form.named _
  · rw [front, List.reverse_append, List.reverse_append, List.append_assoc]
    exact stops_append form.isFirst.ends (by simpa using form.isFirst.nonempty) _

theorem map_trimWhile (form : Form) :
    (form.front :: form.others).map (trimWhile isEdge) = form.front :: form.others := by
  rw [List.map_cons, form.trimmed_front, List.map_congr_left fun piece member =>
    (form.isOther member).trimmed, List.map_id']

theorem isBlank_of_isEdge {c : Char} (inner : isEdge c = false) : isBlank c = false := by
  simp only [isEdge, Bool.or_eq_false_iff] at inner
  exact inner.1.1

theorem trim_first (form : Form) : trim (' ' :: form.first) = form.first := by
  have starts : Stops isBlank form.first := fun c head => isBlank_of_isEdge (form.isFirst.starts c head)
  have ends : Stops isBlank form.first.reverse :=
    fun c head => isBlank_of_isEdge (form.isFirst.ends c head)
  have padded := @trimWhile_padded isBlank [' '] form.first [] form.isFirst.nonempty (by decide)
    starts ends (by simp)
  rwa [List.append_nil, List.singleton_append] at padded

theorem trim_key (form : Form) : trim (form.key ++ [' ']) = form.key := by
  have solid : ∀ c ∈ form.key, isBlank c = false := fun c inside => (form.oneWord c inside).1
  have padded := @trimWhile_padded isBlank [] form.key [' '] form.named (by simp)
    (stops_of_forall solid) (stops_of_forall (by simpa using solid)) (by decide)
  rwa [List.nil_append] at padded

theorem splitOnce?_front (form : Form) :
    splitOnce? '=' form.front = some (form.key ++ [' '], ' ' :: form.first) := by
  rw [splitOnce?_eq_some_iff]
  constructor
  · intro inside
    rcases List.mem_append.mp inside with early | late
    · exact (form.oneWord '=' early).2 (by simp)
    · exact absurd late (by decide)
  · simp [front]

theorem readPieces_front (form : Form) (current : Option Property) (pieces : List Text) :
    readPieces current (form.front :: pieces) =
      current.toList ++ readPieces (some ⟨form.key, form.first⟩) pieces := by
  have oneWord : form.key.any isBlank = false := by
    rw [List.any_eq_false]
    intro c inside
    simp [(form.oneWord c inside).1]
  have read := readPieces_property form.front_ne_nil form.splitOnce?_front
    (by rw [form.trim_key]; exact form.named) (by rw [form.trim_key]; exact oneWord) current pieces
  rwa [form.trim_key, form.trim_first] at read

end Form

theorem readPieces_others {others : List Text} (filled : ∀ piece ∈ others, piece ≠ [])
    (unequal : ∀ piece ∈ others, '=' ∉ piece) (key value : Text) (pieces : List Text) :
    readPieces (some ⟨key, value⟩) (others ++ pieces) =
      readPieces (some ⟨key, [','].intercalate (value :: others)⟩) pieces := by
  induction others generalizing value with
  | nil => simp
  | cons piece others ih =>
    have joined : [','].intercalate ((value ++ ',' :: piece) :: others) =
        [','].intercalate (value :: piece :: others) := by
      cases others <;> simp [List.intercalate_cons_cons]
    rw [List.cons_append, readPieces_continued (filled piece (by simp)) (unequal piece (by simp)),
      Option.map_some, extend, ih (fun other member => filled other (by simp [member]))
      (fun other member => unequal other (by simp [member])), joined]

theorem readPieces_form (form : Form) (current : Option Property) (pieces : List Text) :
    readPieces current (form.front :: form.others ++ pieces) =
      current.toList ++ readPieces (some form.property) pieces := by
  rw [List.cons_append, form.readPieces_front, readPieces_others
    (fun piece member => (form.isOther member).nonempty) form.unequal]
  rfl

theorem readPieces_forms (forms : List Form) {empty : List Text}
    (nothing : ∀ piece ∈ empty, piece = []) (current : Option Property) :
    readPieces current ((forms.flatMap fun form => form.front :: form.others) ++ empty) =
      current.toList ++ forms.map Form.property := by
  induction forms generalizing current with
  | nil => simp [readPieces_empty nothing]
  | cons form forms ih =>
    rw [List.flatMap_cons, List.append_assoc, readPieces_form, ih]
    rfl

structure Row where
  forms : List Form
  comma : Bool

namespace Row

def text (row : Row) : Text :=
  [','].intercalate (row.forms.map Form.text) ++ if row.comma then [','] else []

theorem not_mem_text (row : Row) {mark : Char} (other : mark ≠ ',')
    (absent : ∀ form ∈ row.forms, mark ∉ form.text) : mark ∉ row.text := by
  have behind : mark ∉ if row.comma then [','] else [] := by
    split
    · simpa using other
    · simp
  intro inside
  rcases List.mem_append.mp inside with early | late
  · rcases mem_intercalate early with same | ⟨t, member, within⟩
    · exact other same
    · obtain ⟨form, inside, rfl⟩ := List.mem_map.mp member
      exact absent form inside within
  · exact behind late

theorem newline_not_mem (row : Row) : '\n' ∉ row.text :=
  row.not_mem_text (by decide) fun form _ =>
    form.not_mem_text (fun _ isPiece => isPiece.plain.2.2) (.inl (by decide)) (by decide) (by decide)

theorem slash_not_mem (row : Row) : '/' ∉ row.text :=
  row.not_mem_text (by decide) fun form _ =>
    form.not_mem_text (fun _ isPiece => isPiece.plain.2.1) (.inr (by decide)) (by decide) (by decide)

/-- The commas of a row leave the pieces of its properties, and empty ones behind them. -/
theorem splitBy_text (row : Row) :
    ∃ empty : List Text, (∀ piece ∈ empty, piece = []) ∧ splitBy (· == ',') row.text =
      (row.forms.flatMap fun form => form.front :: form.others) ++ empty := by
  obtain ⟨forms, comma⟩ := row
  have last (t : Text) : splitBy (· == ',') (t ++ if comma then [','] else []) =
      splitBy (· == ',') t ++ if comma then [[]] else [] := by
    cases comma with
    | false => simp
    | true => exact splitBy_cut (by decide) t []
  have nothing : ∀ piece ∈ (if comma then [[]] else [] : List Text), piece = [] := by
    cases comma <;> simp
  by_cases bare : forms = []
  · subst bare
    refine ⟨[] :: if comma then [[]] else [], List.forall_mem_cons.mpr ⟨rfl, nothing⟩, ?_⟩
    rw [text, last]
    rfl
  · refine ⟨if comma then [[]] else [], nothing, ?_⟩
    rw [text, last, splitBy_intercalate (by decide) (by simpa using bare), List.flatMap_map,
      List.flatMap_congr fun form _ => form.splitBy_text]

theorem readLine_text (row : Row) : readLine row.text = row.forms.map Form.property := by
  obtain ⟨empty, nothing, split⟩ := row.splitBy_text
  have kept : empty.map (trimWhile isEdge) = empty := by
    have same : ∀ piece ∈ empty, trimWhile isEdge piece = piece := by
      intro piece member
      rw [nothing piece member]
      rfl
    rw [List.map_congr_left same, List.map_id']
  have trimmed : ((row.forms.flatMap fun form => form.front :: form.others) ++ empty).map
      (trimWhile isEdge) = (row.forms.flatMap fun form => form.front :: form.others) ++ empty := by
    rw [List.map_append, kept, List.map_flatMap, List.flatMap_congr fun form _ => form.map_trimWhile]
  rw [readLine, beforeLineComment_eq_self row.slash_not_mem, split, trimmed,
    readPieces_forms row.forms nothing]
  rfl

theorem readLine_rows (rows : List Row) :
    (rawLines (joinLines (rows.map text))).flatMap readLine =
      (rows.flatMap forms).map Form.property := by
  by_cases empty : rows = []
  · subst empty
    rfl
  · have single : ∀ line ∈ rows.map text, '\n' ∉ line := by
      intro line member
      obtain ⟨row, -, rfl⟩ := List.mem_map.mp member
      exact row.newline_not_mem
    rw [rawLines_joinLines (by simpa using empty) single, List.flatMap_map, List.map_flatMap]
    exact List.flatMap_congr fun row _ => row.readLine_text

end Row

/-- Properties read back as written, however they are spread over lines and whether or not the last
line ends in a newline. -/
theorem all_rows (rows : List Row) (ended : Bool) :
    all (joinLines (rows.map Row.text) ++ if ended then ['\n'] else []) =
      (rows.flatMap Row.forms).map Form.property := by
  rw [all, reader_readLine.flatMap_lines, ← Row.readLine_rows]
  cases ended with
  | false => simp
  | true =>
    have last : rawLines (joinLines (rows.map Row.text) ++ ['\n']) =
        rawLines (joinLines (rows.map Row.text)) ++ [[]] := splitBy_cut (by decide) _ []
    rw [if_pos rfl, last, List.flatMap_append, List.flatMap_singleton, reader_readLine.empty,
      List.append_nil]

/-- Two values of several pieces on a line that ends in a comma, and one on a line of its own. -/
def sharedRows : List Row :=
  [{ forms :=
      [{ key := "pages".toList, first := "a=b".toList, others := ["c d".toList, "e".toList]
         named := by decide, oneWord := by decide, pieces := by decide, unequal := by decide },
       { key := "note".toList, first := "x y".toList, others := ["z".toList]
         named := by decide, oneWord := by decide, pieces := by decide, unequal := by decide }]
     comma := true },
   { forms :=
      [{ key := "last".toList, first := "v".toList, others := ["w".toList]
         named := by decide, oneWord := by decide, pieces := by decide, unequal := by decide }]
     comma := false }]

theorem all_rows_shared : all "pages = a=b,c d,e,note = x y,z,\nlast = v,w\n".toList =
    [⟨"pages".toList, "a=b,c d,e".toList⟩, ⟨"note".toList, "x y,z".toList⟩,
      ⟨"last".toList, "v,w".toList⟩] := by
  have written : joinLines (sharedRows.map Row.text) ++ ['\n'] =
      "pages = a=b,c d,e,note = x y,z,\nlast = v,w\n".toList := by decide +kernel
  rw [← written]
  exact all_rows sharedRows true

end CraftScript.Property
