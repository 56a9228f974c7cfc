import CraftScript.Proofs.Attributes
import CraftScript.Proofs.Tables

/-! What stands between the brackets of a tag list touches nothing but the tags. The search for tags
comes first and takes each list out whole, so what else is read from the line is read from the text
on either side. -/
namespace CraftScript

open Text Pattern

namespace EntryLine

def ClosesBrackets (t : Text) : Prop :=
  ∀ front back, t = front ++ '[' :: back → ']' ∈ back

theorem closesBrackets_cons {c : Char} {t : Text} :
    ClosesBrackets (c :: t) ↔ (c = '[' → ']' ∈ t) ∧ ClosesBrackets t := by
  constructor
  · intro closes
    refine ⟨fun opens => closes [] t (by rw [opens]; rfl), fun front back same => ?_⟩
    exact closes (c :: front) back (by rw [same]; rfl)
  · rintro ⟨first, later⟩ front back same
    cases front with
    | nil =>
      obtain ⟨opens, rfl⟩ := List.cons.inj same
      exact first opens
    | cons d front => exact later front back (List.cons.inj same).2

instance decidableClosesBrackets : (t : Text) → Decidable (ClosesBrackets t)
  | [] => isTrue (by simp [ClosesBrackets])
  | c :: t =>
    have := decidableClosesBrackets t
    decidable_of_iff _ closesBrackets_cons.symm

theorem ClosesBrackets.suffix {t s : Text} (closes : ClosesBrackets t) (suffix : s <:+ t) :
    ClosesBrackets s := by
  obtain ⟨before, rfl⟩ := suffix
  rintro front back rfl
  exact closes (before ++ front) back (by simp)

theorem bracketed_append {word u : Text}
    (solid : ∀ n ∈ blankCodes, ∀ lower ∈ word, foldsTo lower (Char.ofNat n) = false)
    (ends : EndsBlank u) (closes : ClosesBrackets u) (previous : Option Char) (x : Text) :
    bracketed word previous (u ++ x) =
      (bracketed word previous u).map fun (inside, rest) => (inside, rest ++ x) := by
  obtain ⟨s, b, rfl, blank⟩ := ends
  have notOpen : b ≠ '[' := fun same => absurd (same ▸ blank) (by decide)
  have reads (y : Text) := folded?_append (foldsTo_blank solid blank) s y
  simp only [bracketed, List.append_assoc, List.singleton_append, reads, Option.bind_eq_bind]
  cases found : folded? s word with
  | none => rfl
  | some t =>
    obtain ⟨before, -, rfl⟩ := folded?_eq_some_iff.mp found
    by_cases begins : beginsWord previous
    · cases t with
      | nil => simp [guard, begins, literal?, notOpen]
      | cons c t =>
        by_cases opens : c = '['
        · subst opens
          have closed : ']' ∈ t ++ [b] := closes before (t ++ [b]) (by simp)
          have split := splitOnce?_append closed x
          rw [List.append_assoc, List.singleton_append] at split
          simp [guard, begins, literal?, split]
        · simp [guard, begins, literal?, opens]
    · simp [guard, begins]

theorem contained_tagList {q : Text} (ends : q = [] ∨ EndsBlank q) (closes : ClosesBrackets q)
    (previous : Option Char) (x : Text) : tagList.Contained previous q x := by
  rintro front c back rfl
  have suffix : c :: back <:+ front ++ c :: back := List.suffix_append _ _
  have blank : EndsBlank (c :: back) :=
    (ends.resolve_left (by simp)).suffix suffix (by simp)
  exact bracketed_append (by decide) blank (closes.suffix suffix) _ x

def tagged (contents : Text) : Text :=
  "tags[".toList ++ (contents ++ [']'])

/-- The list is found whole, whatever stands in it, and the text on either side is searched as if it
were not there. -/
theorem takeAll_tagList {q c : Text} (ends : q = [] ∨ EndsBlank q) (closes : ClosesBrackets q)
    (plain : ']' ∉ c) (s : Text) :
    tagList.takeAll [' '] (q ++ (tagged c ++ s)) =
      ((tagList.pieces q).filterMap Piece.value? ++
          c :: (tagList.piecesFrom 0 (some ']') s).filterMap Piece.value?,
        (tagList.pieces q).flatMap (Piece.replaced [' ']) ++
          ' ' :: (tagList.piecesFrom 0 (some ']') s).flatMap (Piece.replaced [' '])) := by
  have begins : beginsWord (lastOf none q) := by
    rcases ends with rfl | ⟨front, b, rfl, blank⟩
    · rfl
    · simp [beginsWord, isWord_of_isBlank blank]
  have read : tagList (lastOf none q) (tagged c ++ s) = some (c, s) := by
    rw [tagList, bracketed_eq_some_iff]
    exact ⟨begins, "tags".toList, by decide, plain, by simp [tagged]⟩
  have found := piecesFrom_found (by simp [tagged]) read
  have last : lastOf (lastOf none q) (tagged c) = some ']' := by
    simp [tagged]
  rw [last] at found
  have pieces := piecesFrom_append (contained_tagList ends closes none (tagged c ++ s)) (Nat.zero_le _)
  rw [found] at pieces
  simp only [takeAll, Pattern.pieces, pieces, List.filterMap_append, List.flatMap_append]
  rfl

theorem restOfLine?_append {x : Text} (stops : Stops isBlank x) (s : Text) :
    restOfLine? (s ++ x) = if '\n' ∈ dropBlanks s ++ x then none else some (dropBlanks s ++ x) := by
  have dropped : dropBlanks (s ++ x) = dropBlanks s ++ x := dropWhile_append_of_stops stops s
  simp [restOfLine?, dropped]

/-- The head of an item line ends before a text that goes on with neither blanks nor digits, and any
other text of that kind may take its place. -/
theorem item?_cut {settings : Settings} {p x : Text} {item : Item} (ends : EndsBlank p)
    (blanks : Stops isBlank x) (digits : Stops isDigit x)
    (read : item? settings (p ++ x) = some item) :
    ∃ index q, q <:+ p ∧ item = itemOf settings index (q ++ x) ∧
      ∀ y, Stops isBlank y → Stops isDigit y → ('\n' ∈ y → '\n' ∈ x) →
        item? settings (p ++ y) = some (itemOf settings index (q ++ y)) := by
  obtain ⟨s, b, rfl, blank⟩ := ends
  have keyword (y : Text) : folded? (s ++ [b] ++ y) "item".toList =
      (folded? s "item".toList).map (· ++ b :: y) := by
    rw [List.append_assoc, List.singleton_append]
    exact folded?_append (foldsTo_blank (by decide) blank) s y
  simp only [item?, keyword, Option.bind_eq_bind, Option.bind_eq_some_iff, guard_eq_some_iff] at read
  obtain ⟨_, named, _, gapped, ⟨run, _⟩, number, _, bounded, _, onLine, index, value, _, small,
    same⟩ := read
  obtain ⟨f, head, rfl⟩ := Option.map_eq_some_iff.mp named
  have gap (y : Text) (stops : Stops isBlank y) :
      afterBlanks? (f ++ b :: y) = (afterBlanks? (f ++ [b])).map (· ++ y) := by
    have apart := @afterBlanks?_append (f ++ [b]) y stops (by simp)
    rwa [List.append_assoc, List.singleton_append] at apart
  rw [gap x blanks] at gapped
  obtain ⟨r, behind, rfl⟩ := Option.map_eq_some_iff.mp gapped
  rw [run?_append digits] at number
  obtain ⟨⟨run', t⟩, taken, found⟩ := Option.map_eq_some_iff.mp number
  obtain ⟨rfl, rfl⟩ := Prod.mk.inj found
  rw [restOfLine?_append blanks] at onLine
  split at onLine
  next => contradiction
  next single =>
    obtain rfl := Option.some.inj onLine
    obtain ⟨word, -, rfl⟩ := folded?_eq_some_iff.mp head
    obtain ⟨gap', -, -, -, whole⟩ := afterBlanks?_eq_some_iff.mp behind
    obtain ⟨nonempty, every, -, rfl⟩ := run?_eq_some_iff.mp taken
    obtain ⟨gap'', -, cut⟩ := exists_gap t
    -- The digits cannot run up to the blank at the end.
    have goesOn : t ≠ [] := by
      rintro rfl
      have last := congrArg List.getLast? whole
      simp only [List.append_nil, List.getLast?_append, List.getLast?_singleton, Option.some_or] at last
      obtain ⟨front, d, rfl⟩ := (List.eq_nil_or_concat run').resolve_left nonempty
      simp only [List.concat_eq_append, List.getLast?_append, List.getLast?_singleton,
        Option.some_or, Option.some.injEq] at last
      have digit := every d (by simp)
      rw [← last, isDigit_of_isBlank blank] at digit
      contradiction
    refine ⟨index, dropBlanks t, ⟨word ++ (gap' ++ (run' ++ gap'')), ?_⟩,
      (Option.some.inj same).symm, ?_⟩
    · rw [List.append_assoc word f, whole]
      simp [← cut]
    · intro y blanks' digits' lines
      have single' : ¬ '\n' ∈ dropBlanks t ++ y := by
        intro inside
        rcases List.mem_append.mp inside with early | late
        · exact single (List.mem_append_left x early)
        · exact single (List.mem_append_right (dropBlanks t) (lines late))
      have bounded' : (t ++ y).head?.all (fun c => !isWord c) = true := by
        rwa [List.head?_append_of_ne_nil t goesOn] at bounded ⊢
      have rest := restOfLine?_append blanks' t
      rw [if_neg single'] at rest
      simp only [item?, keyword, head, Option.map_some, gap y blanks', behind, run?_append digits', taken,
        bounded', rest, value, small, Option.bind_eq_bind, Option.bind_some]
      rfl

def untagged (item : Item) : Item :=
  { item with tags := ∅ }

theorem itemOf_tagged (settings : Settings) (index : Nat) {q : Text} (ends : q = [] ∨ EndsBlank q)
    (closes : ClosesBrackets q) (s : Text) :
    ∃ (rest : Item) (before after : List Text), ∀ c, ']' ∉ c →
      itemOf settings index (q ++ (tagged c ++ s)) =
        { rest with tags := NameSet.ofList ((before ++ c :: after).flatMap listOf) } := by
  refine ⟨itemOf settings index (q ++ (tagged [] ++ s)), (tagList.pieces q).filterMap Piece.value?,
    (tagList.piecesFrom 0 (some ']') s).filterMap Piece.value?, fun c plain => ?_⟩
  have taken := takeAll_tagList ends closes plain s
  have empty := @takeAll_tagList q [] ends closes (by simp) s
  simp only [itemOf, taken, empty]

theorem stops_tagged {kind : Char → Bool} (other : kind 't' = false) (c s : Text) :
    Stops kind (tagged c ++ s) :=
  stops_cons other _

theorem item?_tagged {settings : Settings} {p c s : Text} {item : Item} (ends : EndsBlank p)
    (closes : ClosesBrackets p) (read : item? settings (p ++ (tagged c ++ s)) = some item) :
    ∃ (rest : Item) (before after : List Text), ∀ c, ']' ∉ c ∧ '\n' ∉ c →
      item? settings (p ++ (tagged c ++ s)) =
        some { rest with tags := NameSet.ofList ((before ++ c :: after).flatMap listOf) } := by
  have starts (c : Text) : Stops isBlank (tagged c ++ s) ∧ Stops isDigit (tagged c ++ s) :=
    ⟨stops_tagged (by decide) c s, stops_tagged (by decide) c s⟩
  obtain ⟨index, q, suffix, -, others⟩ := item?_cut ends (starts c).1 (starts c).2 read
  have tail : q = [] ∨ EndsBlank q := by
    by_cases empty : q = []
    · exact .inl empty
    · exact .inr (ends.suffix suffix empty)
  obtain ⟨rest, before, after, whole⟩ := itemOf_tagged settings index tail (closes.suffix suffix) s
  refine ⟨rest, before, after, fun c' plain => ?_⟩
  have lines : '\n' ∈ tagged c' ++ s → '\n' ∈ tagged c ++ s := by
    intro inside
    have behind : '\n' ∈ s := by simpa [tagged, plain.2] using inside
    exact List.mem_append_right _ behind
  rw [others _ (starts c').1 (starts c').2 lines, whole c' plain.1]

/-- The contents of a tag list go to the tags and nowhere else. -/
theorem item?_tags_apart (settings : Settings) {p c c' : Text} (ends : EndsBlank p)
    (closes : ClosesBrackets p) (s : Text) (plain : ']' ∉ c ∧ '\n' ∉ c)
    (plain' : ']' ∉ c' ∧ '\n' ∉ c') :
    (item? settings (p ++ (tagged c ++ s))).map untagged =
        (item? settings (p ++ (tagged c' ++ s))).map untagged ∧
      ∀ item, item? settings (p ++ (tagged c ++ s)) = some item →
        ∀ word ∈ listOf c, word ∈ item.tags.names := by
  constructor
  · cases read : item? settings (p ++ (tagged c ++ s)) with
    | some item =>
      obtain ⟨rest, before, after, whole⟩ := item?_tagged ends closes read
      rw [← read, whole c plain, whole c' plain']
      rfl
    | none =>
      cases read' : item? settings (p ++ (tagged c' ++ s)) with
      | none => rfl
      | some item =>
        obtain ⟨rest, before, after, whole⟩ := item?_tagged ends closes read'
        rw [whole c plain] at read
        contradiction
  · intro item read word inside
    obtain ⟨rest, before, after, whole⟩ := item?_tagged ends closes read
    rw [whole c plain, Option.some.injEq] at read
    rw [← read, NameSet.mem_ofList, List.mem_flatMap]
    exact ⟨c, by simp, inside⟩

/-- Every other attribute stands in the list. -/
theorem item?_tags_apart_keywords :
    let p := "item 3 flags[Prop1] ".toList
    let c := "mode:x mapper:y flags[z itemcount;Nails".toList
    let s := " [Pot] mode:keep".toList
    (item? {} (p ++ (tagged c ++ s))).isSome ∧
      (item? {} (p ++ (tagged c ++ s))).map untagged =
        (item? {} (p ++ (tagged [] ++ s))).map untagged := by
  intro p c s
  have ends : EndsBlank p := ⟨"item 3 flags[Prop1]".toList, ' ', rfl, by decide⟩
  have closes : ClosesBrackets p := by decide
  exact ⟨rfl, (@item?_tags_apart {} p c [] ends closes s (by decide) (by decide)).1⟩

end EntryLine

end CraftScript
