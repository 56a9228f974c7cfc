import CraftScript.Proofs.Canonical.Words
import CraftScript.Proofs.ItemCount
import CraftScript.Proofs.Tables

/-! Item lines made of parts with single spaces between them. Each part is taken out of the line in
its turn and leaves a space, none is mistaken for another, and what no search takes are the ids
outside brackets. -/
namespace CraftScript.ItemLine

open Text Pattern EntryLine
open Canonical (Run Word isPlain bracket)

def plainOr (others : List Char) (c : Char) : Bool :=
  isPlain c || others.contains c

theorem isBlank_of_plainOr {others : List Char} (solid : ∀ c ∈ others, isBlank c = false) {c : Char}
    (plain : plainOr others c) : isBlank c = false := by
  rcases Bool.or_eq_true_iff.mp plain with plain | other
  · exact Canonical.isBlank_of_isPlain plain
  · exact solid c (List.contains_iff_mem.mp other)

inductive Mark where
  | semicolon
  | comma
deriving DecidableEq

def Mark.char : Mark → Char
  | semicolon => ';'
  | comma => ','

abbrev Listing (kind : Char → Bool) := List (Run kind × Mark)

namespace Listing

variable {kind : Char → Bool}

def text : Listing kind → Text
  | [] => []
  | [(run, _)] => run.text
  | (run, mark) :: next :: others => run.text ++ mark.char :: text (next :: others)

def names (listing : Listing kind) : List String :=
  listing.map (·.1.string)

theorem mem_text {listing : Listing kind} {c : Char} (inside : c ∈ text listing) :
    kind c ∨ c = ';' ∨ c = ',' := by
  fun_induction text listing with
  | case1 => contradiction
  | case2 run mark => exact .inl (run.every c inside)
  | case3 run mark next others ih =>
    rcases List.mem_append.mp inside with here | later
    · exact .inl (run.every c here)
    · rcases List.mem_cons.mp later with rfl | later
      · cases mark
        · exact .inr (.inl rfl)
        · exact .inr (.inr rfl)
      · exact ih later

theorem not_mem_text (listing : Listing kind) {c : Char} (other : kind c = false)
    (apart : c ≠ ';' ∧ c ≠ ',') : c ∉ text listing := by
  intro inside
  rcases mem_text inside with same | same | same
  · rw [other] at same
    contradiction
  · exact apart.1 same
  · exact apart.2 same

theorem text_ne_nil {listing : Listing kind} (nonempty : listing ≠ []) : text listing ≠ [] := by
  fun_induction text listing with
  | case1 => contradiction
  | case2 run mark => exact run.nonempty
  | case3 run mark next others ih => simp

theorem listOf_text (solid : ∀ c, kind c → isBlank c = false) (whole : kind ';' = false)
    (whole' : kind ',' = false) (listing : Listing kind) :
    listOf (text listing) = names listing := by
  have unsplit (run : Run kind) : ∀ c ∈ run.text, (c == ';' || c == ',') = false := by
    intro c inside
    have first : c ≠ ';' := fun same => run.not_mem whole (same ▸ inside)
    have second : c ≠ ',' := fun same => run.not_mem whole' (same ▸ inside)
    simp [first, second]
  have trimmed (run : Run kind) : trim run.text = run.text :=
    trimWhile_solid fun c inside => solid c (run.every c inside)
  have members : (text listing).listItems (fun c => c == ';' || c == ',') =
      listing.map (·.1.text) := by
    fun_induction text listing with
    | case1 => rfl
    | case2 run mark => simp [listItems, splitBy_solid (unsplit run), trimmed, run.nonempty]
    | case3 run mark next others ih =>
      have cut : (mark.char == ';' || mark.char == ',') = true := by cases mark <;> rfl
      rw [listItems, splitBy_append (unsplit run) cut, List.map_cons, trimmed,
        List.filter_cons_of_pos (by simpa using run.nonempty)]
      exact congrArg _ ih
  rw [listOf, members, names, List.map_map]
  rfl

end Listing

structure FreeIds where
  ids : Listing (plainOr ['.', '*'])
  nonempty : ids ≠ []
  uncounted : ∀ id ∈ ids, isCount id.1.text = false

inductive Part where
  | mapper (name : Run (plainOr ['.']))
  | mode (word : Word)
  | tags (names : Listing (plainOr ['.', ':']))
  | flags (names : Listing (plainOr ['.', ':']))
  | count
  | group (ids : Listing (plainOr ['.', '*']))
  | free (ids : FreeIds)

namespace Part

inductive Kind where
  | mapper
  | mode
  | tags
  | flags
  | count
  | group
  | free
deriving DecidableEq

def kind : Part → Kind
  | mapper _ => .mapper
  | mode _ => .mode
  | tags _ => .tags
  | flags _ => .flags
  | count => .count
  | group _ => .group
  | free _ => .free

def inner : Part → Text
  | mapper name => name.text
  | mode word => word.text
  | tags names => names.text
  | flags names => names.text
  | count => "itemcount".toList
  | group ids => ids.text
  | free ids => ids.ids.text

def text : Part → Text
  | mapper name => "mapper:".toList ++ name.text
  | mode word => "mode:".toList ++ word.text
  | tags names => "tags".toList ++ bracket names.text
  | flags names => "flags".toList ++ bracket names.text
  | count => "itemcount".toList
  | group ids => bracket ids.text
  | free ids => ids.ids.text

def read (kind : Kind) (part : Part) : Option Text :=
  if part.kind = kind then some part.inner else none

theorem read_of_ne {kind : Kind} {part : Part} (other : part.kind ≠ kind) : part.read kind = none :=
  if_neg other

theorem solid_text (part : Part) : ∀ c ∈ part.text, isBlank c = false := by
  have behind {front inner : Text} (first : ∀ c ∈ front, isBlank c = false)
      (later : ∀ c ∈ inner, isBlank c = false) : ∀ c ∈ front ++ inner, isBlank c = false := by
    intro c inside
    exact (List.mem_append.mp inside).elim (first c) (later c)
  have listed {others : List Char} (solid : ∀ c ∈ others, isBlank c = false)
      (names : Listing (plainOr others)) : ∀ c ∈ names.text, isBlank c = false := by
    intro c inside
    rcases Listing.mem_text inside with plain | rfl | rfl
    · exact isBlank_of_plainOr solid plain
    · decide
    · decide
  have bracketed {inner : Text} (solid : ∀ c ∈ inner, isBlank c = false) :
      ∀ c ∈ bracket inner, isBlank c = false :=
    @behind ['['] _ (by decide) (behind solid (by decide))
  cases part with
  | mapper name =>
    exact behind (by decide) fun c inside => isBlank_of_plainOr (by decide) (name.every c inside)
  | mode word =>
    exact behind (by decide) fun c inside => Canonical.isBlank_of_isPlain (word.every c inside)
  | tags names => exact behind (by decide) (bracketed (listed (by decide) names))
  | flags names => exact behind (by decide) (bracketed (listed (by decide) names))
  | count => exact solid_of_isCount (by decide)
  | group ids => exact bracketed (listed (by decide) ids)
  | free ids => exact listed (by decide) ids.ids

theorem text_ne_nil (part : Part) : part.text ≠ [] := by
  cases part with
  | mapper name => exact List.append_ne_nil_of_left_ne_nil (by decide) _
  | mode word => exact List.append_ne_nil_of_left_ne_nil (by decide) _
  | tags names => exact List.append_ne_nil_of_left_ne_nil (by decide) _
  | flags names => exact List.append_ne_nil_of_left_ne_nil (by decide) _
  | count => exact List.cons_ne_nil _ _
  | group ids => exact List.cons_ne_nil _ _
  | free ids => exact Listing.text_ne_nil ids.nonempty

theorem close_not_mem {others : List Char} (names : Listing (plainOr others))
    (other : plainOr others ']' = false) : ']' ∉ names.text :=
  names.not_mem_text other (by decide)

theorem open_not_mem {others : List Char} (names : Listing (plainOr others))
    (other : plainOr others '[' = false) : '[' ∉ names.text ++ [']'] :=
  List.not_mem_append (names.not_mem_text other (by decide)) (by decide)

theorem silent_unlisted {p : Pattern Text} (marked : p.Marked '[') (refuses : p.Refuses '[')
    {part : Part} (unlisted : part.kind ∉ [.flags, .tags]) (previous : Option Char) (rest : Text)
    (parted : Parted rest) : p.Silent previous part.text rest := by
  have passes {t : Text} (absent : '[' ∉ t) : p.Silent previous t rest :=
    silent_of_not_mem marked (by decide) absent parted previous
  cases part with
  | mapper name => exact passes (List.not_mem_append (by decide) (name.not_mem rfl))
  | mode word => exact passes (List.not_mem_append (by decide) (word.not_mem rfl))
  | count => exact passes (by decide : '[' ∉ "itemcount".toList)
  | group ids =>
    exact @silent_split _ p '[' marked (by decide) ['['] _ rest (by simpa using refuses)
      (open_not_mem ids rfl) parted previous
  | free ids => exact passes (ids.ids.not_mem_text rfl (by decide))
  | tags _ | flags _ => exact absurd (by simp [kind]) unlisted

theorem takes_tagList (part : Part) : tagList.Takes ⟨part.text, part.read .tags⟩ := by
  by_cases unlisted : part.kind ∉ [.flags, .tags]
  · rw [read_of_ne fun same => unlisted (by simp [same])]
    exact takes_of_silent (silent_unlisted marked_tagList (refuses_tagList (by decide)) unlisted)
  · cases part with
    | tags names => exact takes_bracketed (by decide) (by decide) (close_not_mem names rfl)
    | flags names =>
      apply takes_of_silent
      intro previous rest parted
      exact @silent_split _ tagList '[' marked_tagList (by decide) "flags[".toList _ rest
        (fun c inside => refuses_tagList (by revert c; decide)) (open_not_mem names rfl) parted
        previous
    | _ => simp [kind] at unlisted

theorem takes_flagList {part : Part} (left : part.kind ∉ [.tags]) :
    flagList.Takes ⟨part.text, part.read .flags⟩ := by
  by_cases flags : part.kind = .flags
  · cases part with
    | flags names => exact takes_bracketed (by decide) (by decide) (close_not_mem names rfl)
    | _ => simp [kind] at flags
  · rw [read_of_ne flags]
    have unlisted : part.kind ∉ [.flags, .tags] := by simpa [flags] using left
    exact takes_of_silent (silent_unlisted marked_flagList (refuses_flagList (by decide)) unlisted)

theorem silent_unlabelled {p : Pattern Text} (marked : p.Marked ':') {part : Part}
    (unlabelled : part.kind ∉ [.mode, .mapper, .flags, .tags]) (previous : Option Char) (rest : Text)
    (parted : Parted rest) : p.Silent previous part.text rest := by
  have passes {t : Text} (absent : ':' ∉ t) : p.Silent previous t rest :=
    silent_of_not_mem marked (by decide) absent parted previous
  cases part with
  | count => exact passes (by decide : ':' ∉ "itemcount".toList)
  | group ids =>
    have absent := List.not_mem_append (ids.not_mem_text (c := ':') rfl (by decide))
      (by decide : ':' ∉ [']'])
    exact passes (List.not_mem_cons_of_ne_of_not_mem (by decide) absent)
  | free ids => exact passes (ids.ids.not_mem_text rfl (by decide))
  | mapper _ | mode _ | tags _ | flags _ => exact absurd (by simp [kind]) unlabelled

theorem takes_mapperName {part : Part} (left : part.kind ∉ [.flags, .tags]) :
    mapperName.Takes ⟨part.text, part.read .mapper⟩ := by
  by_cases unlabelled : part.kind ∉ [.mode, .mapper, .flags, .tags]
  · rw [read_of_ne fun same => unlabelled (by simp [same])]
    exact takes_of_silent (silent_unlabelled marked_mapperName unlabelled)
  · cases part with
    | mapper name =>
      have solid : ∀ c ∈ name.text, isBlank c = false :=
        fun c inside => isBlank_of_plainOr (by decide) (name.every c inside)
      apply takes_labelled (by decide) (by decide) name.nonempty solid _ (by decide)
      intro c inside
      have notOpen : c ≠ '[' := fun same => name.not_mem rfl (same ▸ inside)
      have notClose : c ≠ ']' := fun same => name.not_mem rfl (same ▸ inside)
      simp [solid c inside, notOpen, notClose]
    | mode word =>
      apply takes_of_silent
      intro previous rest parted
      -- Only the first letter agrees with the label `mapper:`.
      change mapperName.Silent previous ('m' :: ("ode:".toList ++ word.text)) rest
      rw [silent_cons]
      refine ⟨rfl, ?_⟩
      exact silent_split marked_mapperName (by decide)
        (fun c inside => refuses_mapperName (by revert c; decide)) (word.not_mem rfl) parted _
    | tags _ | flags _ => exact absurd (by simp [kind]) left
    | _ => simp [kind] at unlabelled

theorem takes_modeWord {part : Part} (left : part.kind ∉ [.mapper, .flags, .tags]) :
    modeWord.Takes ⟨part.text, part.read .mode⟩ := by
  by_cases mode : part.kind = .mode
  · cases part with
    | mode word =>
      exact takes_labelled (by decide) (by decide) word.nonempty
        (fun c inside => Canonical.isBlank_of_isPlain (word.every c inside))
        (fun c inside => Canonical.isWord_of_isPlain (word.every c inside)) (by decide)
    | _ => simp [kind] at mode
  · rw [read_of_ne mode]
    have unlabelled : part.kind ∉ [.mode, .mapper, .flags, .tags] := by simpa [mode] using left
    exact takes_of_silent (silent_unlabelled marked_modeWord unlabelled)

theorem takes_group {part : Part} (left : part.kind ∉ [.mode, .mapper, .flags, .tags]) :
    bracketGroup.Takes ⟨part.text, part.read .group⟩ := by
  have passes {t : Text} (absent : '[' ∉ t) : bracketGroup.Takes ⟨t, none⟩ := by
    apply takes_of_silent
    intro previous rest parted
    refine silent_of_refuses (fun c inside => refuses_bracketGroup ?_) previous rest
    rintro rfl
    exact absent inside
  cases part with
  | count => exact passes (by decide : '[' ∉ "itemcount".toList)
  | group ids => exact takes_bracketGroup (close_not_mem ids rfl)
  | free ids => exact passes (ids.ids.not_mem_text rfl (by decide))
  | mapper _ | mode _ | tags _ | flags _ => exact absurd (by simp [kind]) left

def leftText (taken : List Kind) (part : Part) : Text :=
  if part.kind ∈ taken then [' '] else part.text

def token (taken : List Kind) (kind : Kind) (part : Part) : Token Text :=
  ⟨part.leftText taken, if part.kind ∈ taken then none else part.read kind⟩

theorem left_token (taken : List Kind) (kind : Kind) (part : Part) :
    (part.token taken kind).left = part.leftText (kind :: taken) := by
  by_cases gone : part.kind ∈ taken
  · simp [token, Token.left, leftText, gone]
  · by_cases same : part.kind = kind
    · subst same
      simp [token, Token.left, leftText, gone, read]
    · simp [token, Token.left, leftText, gone, read, same]

end Part

def lineOf (taken : List Part.Kind) (parts : List Part) : Text :=
  [' '].intercalate (parts.map (Part.leftText taken))

section Stages

variable {p : Pattern Text} {taken : List Part.Kind} {kind : Part.Kind} {parts : List Part}

theorem takes_tokens (spaceless : p.Refuses ' ')
    (takes : ∀ part : Part, part.kind ∉ taken → p.Takes ⟨part.text, part.read kind⟩)
    (parts : List Part) : ∀ token ∈ parts.map (Part.token taken kind), p.Takes token := by
  intro token inside
  obtain ⟨part, -, rfl⟩ := List.mem_map.mp inside
  by_cases gone : part.kind ∈ taken
  · simpa [Part.token, Part.leftText, gone] using takes_space spaceless
  · simpa [Part.token, Part.leftText, gone] using takes part gone

theorem values_tokens (fresh : kind ∉ taken) (parts : List Part) :
    (parts.map (Part.token taken kind)).filterMap (·.value) = parts.filterMap (Part.read kind) := by
  rw [List.filterMap_map]
  apply List.filterMap_congr
  intro part _
  by_cases same : part.kind = kind
  · subst same
    simp [Part.token, fresh]
  · simp [Part.token, Part.read, same]

theorem lineOf_cons (part : Part) (parts : List Part) :
    lineOf taken (part :: parts) =
      (part.token taken kind).text ++ spaced ((parts.map (Part.token taken kind)).map (·.text)) := by
  rw [lineOf, List.map_cons, intercalate_cons, List.map_map]
  rfl

theorem lineOf_left (part : Part) (parts : List Part) :
    lineOf (kind :: taken) (part :: parts) =
      (part.token taken kind).left ++ spaced ((parts.map (Part.token taken kind)).map (·.left)) := by
  have lefts : (parts.map (Part.token taken kind)).map (·.left) =
      parts.map (Part.leftText (kind :: taken)) := by
    rw [List.map_map]
    exact List.map_congr_left fun part _ => part.left_token taken kind
  rw [lineOf, List.map_cons, intercalate_cons, lefts, Part.left_token]

theorem takeAll_lineOf (spaceless : p.Refuses ' ') (fresh : kind ∉ taken)
    (takes : ∀ part : Part, part.kind ∉ taken → p.Takes ⟨part.text, part.read kind⟩)
    (parts : List Part) :
    p.takeAll [' '] (lineOf taken parts) =
      (parts.filterMap (Part.read kind), lineOf (kind :: taken) parts) := by
  cases parts with
  | nil => rfl
  | cons part parts =>
    have found := takeAll_tokens spaceless (takes_tokens spaceless takes (part :: parts))
    rw [← List.map_cons, values_tokens fresh] at found
    rw [lineOf_cons, found, lineOf_left]

theorem takeFirst_lineOf (spaceless : p.Refuses ' ') (fresh : kind ∉ taken)
    (takes : ∀ part : Part, part.kind ∉ taken → p.Takes ⟨part.text, part.read kind⟩)
    (few : (parts.filterMap (Part.read kind)).length ≤ 1) :
    p.takeFirst [' '] (lineOf taken parts) =
      ((parts.filterMap (Part.read kind)).head?, lineOf (kind :: taken) parts) := by
  cases parts with
  | nil => rfl
  | cons part parts =>
    rw [← values_tokens fresh] at few
    have found := takeFirst_tokens spaceless (takes_tokens spaceless takes (part :: parts)) few
    rw [← List.map_cons, values_tokens fresh] at found
    rw [lineOf_cons, found, lineOf_left]

end Stages

theorem FreeIds.isCount_text (free : FreeIds) : isCount (Listing.text free.ids) = false := by
  obtain ⟨ids, nonempty, uncounted⟩ := free
  by_contra counted
  have count : isCount (Listing.text ids) := by simpa using counted
  match ids with
  | [] => contradiction
  | [(id, mark)] =>
    rw [Listing.text, uncounted (id, mark) (by simp)] at count
    contradiction
  | (id, mark) :: next :: others =>
    -- The mark between the first two ids is no letter of the word.
    obtain ⟨lower, member, same⟩ := mem_of_folds (folds_iff_isCount.mpr count)
      (show mark.char ∈ _ by simp [Listing.text])
    have other : ∀ lower ∈ "itemcount".toList, foldsTo lower mark.char = false := by
      cases mark <;> decide
    rw [other lower member] at same
    contradiction

def searched : List Part.Kind :=
  [.group, .mode, .mapper, .flags, .tags]

theorem words_lineOf (parts : List Part) :
    words (lineOf searched parts) =
      parts.filterMap fun part => (part.read .count).or (part.read .free) := by
  have each (part : Part) : words (part.leftText searched) =
      ((part.read .count).or (part.read .free)).toList := by
    cases part with
    | mapper name => rfl
    | mode word => rfl
    | tags names => rfl
    | flags names => rfl
    | count => exact words_solid (by decide) (Part.solid_text .count)
    | group ids => rfl
    | free ids => exact words_solid (Listing.text_ne_nil ids.nonempty) (Part.solid_text (.free ids))
  rw [lineOf, words_intercalate (by decide), List.flatMap_map, List.filterMap_eq_flatMap_toList]
  exact List.flatMap_congr fun part _ => each part

theorem isCount_of_count {part : Part} (count : part.kind = .count) : isCount part.inner := by
  cases part with
  | count => exact (by decide : isCount "itemcount".toList = true)
  | _ => contradiction

theorem isCount_of_free {part : Part} (free : part.kind = .free) : isCount part.inner = false := by
  cases part with
  | free ids => exact ids.isCount_text
  | _ => contradiction

theorem filter_left (part : Part) :
    ((part.read .count).or (part.read .free)).filter isCount = part.read .count ∧
      ((part.read .count).or (part.read .free)).filter (!isCount ·) = part.read .free := by
  by_cases count : part.kind = .count
  · simp [Part.read, count, isCount_of_count]
  · by_cases free : part.kind = .free
    · simp [Part.read, free, isCount_of_free]
    · simp [Part.read, count, free]

theorem counts_lineOf (parts : List Part) :
    (words (lineOf searched parts)).filter isCount = parts.filterMap (Part.read .count) := by
  rw [words_lineOf, List.filter_filterMap]
  exact List.filterMap_congr fun part _ => (filter_left part).1

theorem frees_lineOf (parts : List Part) :
    (words (lineOf searched parts)).filter (!isCount ·) = parts.filterMap (Part.read .free) := by
  rw [words_lineOf, List.filter_filterMap]
  exact List.filterMap_congr fun part _ => (filter_left part).2

theorem listItems_cons {separates : Char → Bool} {c : Char} (blank : isBlank c)
    (whole : separates c = false) (t : Text) :
    listItems separates (c :: t) = listItems separates t := by
  obtain ⟨piece, pieces, split⟩ := List.exists_cons_of_ne_nil (splitBy_ne_nil separates t)
  have trimmed : trim (c :: piece) = trim piece := by simp [trim, trimWhile, blank]
  rw [listItems, listItems, splitBy_cons_plain whole split, split, List.map_cons, List.map_cons,
    trimmed]

theorem listItems_snoc {separates : Char → Bool} {c : Char} (blank : isBlank c)
    (whole : separates c = false) (t : Text) :
    listItems separates (t ++ [c]) = listItems separates t := by
  obtain ⟨front, last, split, split'⟩ := splitBy_snoc whole t
  have trimmed : trim (last ++ [c]) = trim last := trimWhile_snoc blank last
  rw [listItems, listItems, split, split', List.map_append, List.map_append, List.map_singleton,
    List.map_singleton, trimmed]

theorem listOf_padded {gap gap' : Text} (blanks : ∀ c ∈ gap, isBlank c)
    (blanks' : ∀ c ∈ gap', isBlank c) (t : Text) : listOf (gap ++ (t ++ gap')) = listOf t := by
  have whole {c : Char} (blank : isBlank c) : (c == ';' || c == ',') = false := by
    have notSemicolon : c ≠ ';' := fun same => absurd (same ▸ blank) (by decide)
    have notComma : c ≠ ',' := fun same => absurd (same ▸ blank) (by decide)
    simp [notSemicolon, notComma]
  have late : listOf (t ++ gap') = listOf t := by
    induction gap' using List.reverseRecOn with
    | nil => rw [List.append_nil]
    | append_singleton gap' c ih =>
      have blank := blanks' c (by simp)
      rw [← ih fun d inside => blanks' d (by simp [inside]), listOf, listOf, ← List.append_assoc,
        listItems_snoc blank (whole blank)]
  have early : listOf (gap ++ (t ++ gap')) = listOf (t ++ gap') := by
    induction gap with
    | nil => rfl
    | cons c gap ih =>
      have blank := blanks c (by simp)
      rw [← ih fun d inside => blanks d (by simp [inside]), listOf, listOf, List.cons_append,
        listItems_cons blank (whole blank)]
  rw [early, late]

theorem listOf_words {t : Text} (few : (words t).length ≤ 1) :
    listOf t = (words t).flatMap listOf := by
  cases split : words t with
  | nil =>
    have padded := @listOf_padded t [] (blank_of_words split) (by simp) []
    rw [List.append_nil, List.append_nil] at padded
    rw [padded]
    rfl
  | cons word others =>
    obtain ⟨gap, rest, blanks, -, whole, behind⟩ := exists_first_word split
    obtain rfl : others = [] := by simpa [split] using few
    rw [whole, listOf_padded blanks (blank_of_words behind), List.flatMap_singleton]

def Part.names : Part → List String
  | mapper name => [name.string]
  | mode word => [Canonical.ItemForm.capitalized word]
  | tags names => names.names
  | flags names => names.names
  | count => ["itemcount"]
  | group ids => ids.names
  | free ids => ids.ids.names

def namesOf (kinds : List Part.Kind) (parts : List Part) : List String :=
  (parts.filter (·.kind ∈ kinds)).flatMap Part.names

def itemOfParts (settings : Settings) (index : UInt32) (parts : List Part) : Item where
  index := index
  ids := (namesOf [.group, .free] parts).map settings.qualify
  mapper := (namesOf [.mapper] parts).head?
  mode := (namesOf [.mode] parts).head?
  tags := NameSet.ofList (namesOf [.tags] parts)
  flags := NameSet.ofList (namesOf [.flags, .count] parts)

/-- One mapper, mode, count and stretch of ids outside brackets at most, and those ids only where no
ids stand in brackets. -/
def Arranged (parts : List Part) : Prop :=
  (∀ kind ∈ [Part.Kind.mapper, .mode, .count, .free], parts.countP (·.kind = kind) ≤ 1) ∧
    ((∀ part ∈ parts, part.kind ≠ .free) ∨ ∀ part ∈ parts, part.kind ≠ .group)

instance (parts : List Part) : Decidable (Arranged parts) :=
  inferInstanceAs (Decidable (_ ∧ _))

theorem mem_namesOf {kinds : List Part.Kind} {parts : List Part} {name : String} :
    name ∈ namesOf kinds parts ↔ ∃ part ∈ parts, part.kind ∈ kinds ∧ name ∈ part.names := by
  simp [namesOf, and_assoc]

theorem namesOf_congr {kinds kinds' : List Part.Kind} {parts : List Part}
    (same : ∀ part ∈ parts, part.kind ∈ kinds ↔ part.kind ∈ kinds') :
    namesOf kinds parts = namesOf kinds' parts := by
  have kept : parts.filter (·.kind ∈ kinds) = parts.filter (·.kind ∈ kinds') := by
    apply List.filter_congr
    intro part member
    exact decide_eq_decide.mpr (same part member)
  rw [namesOf, kept, namesOf]

theorem flatMap_read {kind : Part.Kind} {f : Text → List String}
    (agrees : ∀ part : Part, part.kind = kind → f part.inner = part.names) (parts : List Part) :
    (parts.filterMap (Part.read kind)).flatMap f = namesOf [kind] parts := by
  induction parts with
  | nil => rfl
  | cons part parts ih =>
    by_cases same : part.kind = kind
    · have here : part.read kind = some part.inner := if_pos same
      rw [List.filterMap_cons_some here, List.flatMap_cons, agrees part same, ih]
      simp [namesOf, same]
    · rw [List.filterMap_cons_none (Part.read_of_ne same), ih]
      simp [namesOf, same]

theorem head?_read {kind : Part.Kind} {f : Text → String}
    (agrees : ∀ part : Part, part.kind = kind → [f part.inner] = part.names) (parts : List Part) :
    (parts.filterMap (Part.read kind)).head?.map f = (namesOf [kind] parts).head? := by
  rw [← @flatMap_read kind (fun t => [f t]) agrees, ← List.map_eq_flatMap, List.head?_map]

theorem listOf_inner {part : Part} (list : part.kind ∉ [.mapper, .mode, .count]) :
    listOf part.inner = part.names := by
  have solid {others : List Char} (plain : ∀ c ∈ others, isBlank c = false) (c : Char) :
      plainOr others c → isBlank c = false := isBlank_of_plainOr plain
  cases part with
  | tags names => exact Listing.listOf_text (solid (by decide)) rfl rfl names
  | flags names => exact Listing.listOf_text (solid (by decide)) rfl rfl names
  | group ids => exact Listing.listOf_text (solid (by decide)) rfl rfl ids
  | free ids => exact Listing.listOf_text (solid (by decide)) rfl rfl ids.ids
  | _ => exact absurd (by simp [Part.kind]) list

theorem filterMap_read_eq_nil {kind : Part.Kind} {parts : List Part} :
    parts.filterMap (Part.read kind) = [] ↔ ∀ part ∈ parts, part.kind ≠ kind := by
  simp [List.filterMap_eq_nil_iff, Part.read]

theorem length_filterMap_read (kind : Part.Kind) (parts : List Part) :
    (parts.filterMap (Part.read kind)).length = parts.countP (·.kind = kind) := by
  rw [List.length_filterMap_eq_countP]
  apply List.countP_congr
  intro part _
  by_cases same : part.kind = kind <;> simp [Part.read, same]

theorem ids_of_arranged {parts : List Part} (arranged : Arranged parts) :
    (if (parts.filterMap (Part.read .group)).isEmpty then namesOf [.free] parts
      else namesOf [.group] parts) = namesOf [.group, .free] parts := by
  by_cases groups : parts.filterMap (Part.read .group) = []
  · have absent := filterMap_read_eq_nil.mp groups
    rw [if_pos (List.isEmpty_iff.mpr groups)]
    apply namesOf_congr
    intro part member
    simp [absent part member]
  · rw [if_neg (by simpa using groups)]
    have absent := arranged.2.resolve_right fun ungrouped => groups (filterMap_read_eq_nil.mpr ungrouped)
    apply namesOf_congr
    intro part member
    simp [absent part member]

theorem flags_of_counts (parts : List Part) :
    (if ((parts.filterMap (Part.read .count)).map fun _ => ()).isEmpty
      then NameSet.ofList (namesOf [.flags] parts)
      else (NameSet.ofList (namesOf [.flags] parts)).insert "itemcount") =
      NameSet.ofList (namesOf [.flags, .count] parts) := by
  have named {part : Part} (count : part.kind = .count) : part.names = ["itemcount"] := by
    cases part with
    | count => rfl
    | _ => contradiction
  by_cases counts : parts.filterMap (Part.read .count) = []
  · have absent := filterMap_read_eq_nil.mp counts
    have same : namesOf [.flags] parts = namesOf [.flags, .count] parts := by
      apply namesOf_congr
      intro part member
      simp [absent part member]
    rw [if_pos (by simp [counts]), same]
  · have present : ∃ part ∈ parts, part.kind = .count := by
      rw [filterMap_read_eq_nil] at counts
      simpa using counts
    rw [if_neg (by simpa using counts), ← NameSet.ofList_concat]
    apply NameSet.ofList_congr
    intro name
    simp only [List.mem_append, List.mem_singleton, mem_namesOf]
    constructor
    · rintro (⟨part, member, flags, inside⟩ | rfl)
      · exact ⟨part, member, by simp [flags], inside⟩
      · obtain ⟨part, member, count⟩ := present
        exact ⟨part, member, by simp [count], by simp [named count]⟩
    · rintro ⟨part, member, either, inside⟩
      rcases List.mem_cons.mp either with flags | count
      · exact .inl ⟨part, member, by simp [flags], inside⟩
      · exact .inr (by simpa [named (List.mem_singleton.mp count)] using inside)

/-- Parts in any order: each list, name and word goes where it belongs. -/
theorem itemOf_lineOf (settings : Settings) (index : Nat) {parts : List Part}
    (arranged : Arranged parts) :
    itemOf settings index (lineOf [] parts) = itemOfParts settings (.ofNat index) parts := by
  have few {kind : Part.Kind} (once : kind ∈ [Part.Kind.mapper, .mode, .count, .free]) :
      (parts.filterMap (Part.read kind)).length ≤ 1 := by
    rw [length_filterMap_read]
    exact arranged.1 kind once
  have tags := takeAll_lineOf (refuses_tagList (by decide)) (by decide)
    (fun part (_ : part.kind ∉ []) => part.takes_tagList) parts
  have flags := takeAll_lineOf (refuses_flagList (by decide)) (by decide)
    (fun _ => Part.takes_flagList) parts
  have mapper := takeFirst_lineOf (refuses_mapperName (by decide)) (by decide)
    (fun _ => Part.takes_mapperName) (few (by simp))
  have mode := takeFirst_lineOf (refuses_modeWord (by decide)) (by decide)
    (fun _ => Part.takes_modeWord) (few (by simp))
  have groups := takeAll_lineOf (refuses_bracketGroup (by decide)) (by decide)
    (fun _ => Part.takes_group) parts
  obtain ⟨rest, counts, left⟩ := @takeAll_itemCount (lineOf searched parts)
    (by rw [counts_lineOf]; exact few (by simp))
  rw [counts_lineOf] at counts
  rw [frees_lineOf] at left
  have lists {kind : Part.Kind} (list : kind ∉ [Part.Kind.mapper, .mode, .count]) :
      (parts.filterMap (Part.read kind)).flatMap listOf = namesOf [kind] parts :=
    flatMap_read (fun part same => listOf_inner (same ▸ list)) parts
  have free : listOf rest = namesOf [.free] parts := by
    rw [listOf_words (by rw [left]; exact few (by simp)), left, lists (by decide)]
  have inGroups := @lists .group (by decide)
  have inTags := @lists .tags (by decide)
  have inFlags := @lists .flags (by decide)
  have name : (parts.filterMap (Part.read .mapper)).head?.map String.ofList =
      (namesOf [.mapper] parts).head? := by
    apply head?_read
    intro part same
    cases part with
    | mapper name => rfl
    | _ => contradiction
  have word : ((parts.filterMap (Part.read .mode)).head?.map fun word =>
      String.ofList word.capitalize) = (namesOf [.mode] parts).head? := by
    apply head?_read
    intro part same
    cases part with
    | mode word => exact congrArg ([·]) (Canonical.capitalize_word word)
    | _ => contradiction
  rw [← searched] at groups
  simp only [itemOf, tags, flags, mapper, mode, groups, counts, free, inGroups, inTags, inFlags,
    name, word, ids_of_arranged arranged, flags_of_counts]
  rfl

def lineText (index : UInt32) (parts : List Part) : Text :=
  "item ".toList ++ (Nat.toDigits 10 index.toNat ++ spaced (parts.map Part.text))

theorem item?_head (settings : Settings) (index : UInt32) {behind line : Text}
    (parted : Parted behind) (rest : restOfLine? behind = some line) :
    item? settings ("item ".toList ++ (Nat.toDigits 10 index.toNat ++ behind)) =
      some (itemOf settings index.toNat line) := by
  have digits : ∀ c ∈ Nat.toDigits 10 index.toNat, isAsciiDigit c :=
    fun c inside => isAsciiDigit_of_mem_toDigits inside
  have keyword : folded? ("item ".toList ++ (Nat.toDigits 10 index.toNat ++ behind))
      "item".toList = some (' ' :: (Nat.toDigits 10 index.toNat ++ behind)) := rfl
  have solid : Stops isBlank (Nat.toDigits 10 index.toNat) :=
    stops_of_forall fun c inside => Canonical.isBlank_of_isAsciiDigit (digits c inside)
  have start := afterBlanks?_space (stops_append solid Nat.toDigits_ne_nil behind)
  have ends : Stops isDigit behind ∧ behind.head?.all (!isWord ·) := by
    rcases parted with rfl | ⟨t, rfl⟩
    · exact ⟨stops_nil _, rfl⟩
    · exact ⟨stops_cons (by decide) t, rfl⟩
  have number : run? isDigit (Nat.toDigits 10 index.toNat ++ behind) =
      some (Nat.toDigits 10 index.toNat, behind) :=
    run?_eq_some_iff.mpr ⟨Nat.toDigits_ne_nil,
      fun c inside => Canonical.isDigit_of_isAsciiDigit (digits c inside), ends.1, rfl⟩
  have small : index.toNat < UInt32.size := index.toNat_lt
  simp only [item?, keyword, start, number, ends.2, rest, Canonical.natural?_toDigits, small,
    Option.bind_eq_bind, Option.bind_some]
  rfl

theorem restOfLine?_parts (parts : List Part) :
    restOfLine? (spaced (parts.map Part.text)) = some (lineOf [] parts) := by
  cases parts with
  | nil => rfl
  | cons part parts =>
    have bare : (part :: parts).map (Part.leftText []) = part.text :: parts.map Part.text := by
      simp [Part.leftText]
    have line : spaced ((part :: parts).map Part.text) = ' ' :: lineOf [] (part :: parts) := by
      rw [lineOf, bare, intercalate_cons]
      rfl
    rw [line]
    apply restOfLine?_space
    · rw [lineOf, bare, intercalate_cons]
      exact stops_append (stops_of_forall part.solid_text) part.text_ne_nil _
    · intro newline
      rcases mem_intercalate newline with other | ⟨t, member, inside⟩
      · contradiction
      · obtain ⟨part, -, rfl⟩ := List.mem_map.mp member
        have solid := part.solid_text '\n' (by simpa [Part.leftText] using inside)
        contradiction

theorem item?_lineText (settings : Settings) (index : UInt32) {parts : List Part}
    (arranged : Arranged parts) :
    item? settings (lineText index parts) = some (itemOfParts settings index parts) := by
  have read := item?_head settings index (parted_spaced _) (restOfLine?_parts parts)
  rw [itemOf_lineOf settings index.toNat arranged, UInt32.ofNat_toNat] at read
  exact read

end CraftScript.ItemLine
