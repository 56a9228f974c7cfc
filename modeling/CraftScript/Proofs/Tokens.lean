import CraftScript.Proofs.Search

/-! Tokens with single spaces between them. A pattern that reads a token as a whole or passes it
takes the tokens it reads out of the line and leaves a blank token for each. -/
namespace CraftScript

open Text

namespace Pattern

variable {α : Type}

def AtEdge (previous : Option Char) : Prop :=
  previous = none ∨ previous = some ' '

def Parted (rest : Text) : Prop :=
  rest = [] ∨ ∃ t, rest = ' ' :: t

/-- A token and what a pattern reads from it, if it reads the token at all. -/
structure Token (α : Type) where
  text : Text
  value : Option α

/-- The pattern reads the value from the whole token, or nothing that begins in it. -/
def Takes (p : Pattern α) (token : Token α) : Prop :=
  ∀ previous rest, AtEdge previous → Parted rest →
    match token.value with
    | none => p.Silent previous token.text rest
    | some value => token.text ≠ [] ∧ p previous (token.text ++ rest) = some (value, rest)

def Refuses (p : Pattern α) (c : Char) : Prop :=
  ∀ previous t, p previous (c :: t) = none

theorem silent_of_refuses {p : Pattern α} {s : Text} (refuses : ∀ c ∈ s, p.Refuses c)
    (previous : Option Char) (rest : Text) : p.Silent previous s rest := by
  rintro front c back rfl
  exact refuses c (by simp) _ _

theorem takes_of_silent {p : Pattern α} {text : Text}
    (silent : ∀ previous rest, Parted rest → p.Silent previous text rest) : p.Takes ⟨text, none⟩ :=
  fun previous rest _ parted => silent previous rest parted

theorem takes_space {p : Pattern α} (spaceless : p.Refuses ' ') : p.Takes ⟨[' '], none⟩ := by
  apply takes_of_silent
  intro previous rest parted
  exact silent_of_refuses (by simpa using spaceless) previous rest

def Marked (p : Pattern α) (mark : Char) : Prop :=
  ∀ previous t found, p previous t = some found →
    ∃ front after, ' ' ∉ front ∧ t = front ++ mark :: after

theorem silent_of_not_mem {p : Pattern α} {mark : Char} (marked : p.Marked mark)
    (solid : ' ' ≠ mark) {s rest : Text} (absent : mark ∉ s) (parted : Parted rest)
    (previous : Option Char) : p.Silent previous s rest := by
  rintro before c back rfl
  rw [Option.eq_none_iff_forall_ne_some]
  intro found read
  obtain ⟨front, after, free, whole⟩ := marked _ _ found read
  have later : mark ∉ c :: back := fun inside => absent (List.mem_append_right before inside)
  rcases parted with rfl | ⟨t, rfl⟩
  · rw [List.append_nil] at whole
    exact later (whole ▸ by simp)
  · exact mark_beyond later solid free whole

theorem silent_split {p : Pattern α} {mark : Char} (marked : p.Marked mark) (solid : ' ' ≠ mark)
    {s t rest : Text} (refuses : ∀ c ∈ s, p.Refuses c) (absent : mark ∉ t) (parted : Parted rest)
    (previous : Option Char) : p.Silent previous (s ++ t) rest := by
  rw [silent_append]
  exact ⟨silent_of_refuses refuses _ _, silent_of_not_mem marked solid absent parted _⟩

namespace Token

def left (token : Token α) : Text :=
  if token.value.isSome then [' '] else token.text

theorem left_of_none {token : Token α} (passed : token.value = none) : token.left = token.text := by
  simp [left, passed]

theorem left_of_some {token : Token α} {value : α} (read : token.value = some value) :
    token.left = [' '] := by
  simp [left, read]

def pieces (token : Token α) : List (Piece α) :=
  match token.value with
  | none => token.text.map .kept
  | some value => [.found value token.text]

theorem filterMap_pieces (token : Token α) :
    token.pieces.filterMap Piece.value? = token.value.toList := by
  obtain ⟨text, _ | value⟩ := token
  · exact Piece.filterMap_value?_kept text
  · rfl

theorem flatMap_pieces (token : Token α) :
    token.pieces.flatMap (Piece.replaced [' ']) = token.left := by
  obtain ⟨text, _ | value⟩ := token
  · exact Piece.flatMap_replaced_kept [' '] text
  · simp [pieces, left, Piece.replaced]

end Token

def spaced (texts : List Text) : Text :=
  texts.flatMap (' ' :: ·)

theorem intercalate_cons (text : Text) (texts : List Text) :
    [' '].intercalate (text :: texts) = text ++ spaced texts := by
  induction texts generalizing text with
  | nil => simp [spaced]
  | cons next texts ih =>
    rw [List.intercalate_cons_cons, ih]
    simp [spaced]

theorem parted_spaced (texts : List Text) : Parted (spaced texts) := by
  cases texts with
  | nil => exact .inl rfl
  | cons text texts => exact .inr ⟨_, rfl⟩

theorem parted_spaced_append (texts : List Text) {rest : Text} (parted : Parted rest) :
    Parted (spaced texts ++ rest) := by
  rcases parted_spaced texts with ends | ⟨t, goesOn⟩
  · simpa [ends] using parted
  · exact .inr ⟨t ++ rest, by simp [goesOn]⟩

theorem piecesFrom_token {p : Pattern α} {token : Token α} (takes : p.Takes token)
    {previous : Option Char} (edge : AtEdge previous) {rest : Text} (parted : Parted rest) :
    p.piecesFrom 0 previous (token.text ++ rest) =
      token.pieces ++ p.piecesFrom 0 (lastOf previous token.text) rest := by
  have taken := takes previous rest edge parted
  obtain ⟨text, _ | value⟩ := token
  · exact piecesFrom_silent taken
  · exact piecesFrom_found taken.1 taken.2

theorem piecesFrom_spaced {p : Pattern α} (spaceless : p.Refuses ' ') {tokens : List (Token α)}
    (takes : ∀ token ∈ tokens, p.Takes token) (previous : Option Char) :
    p.piecesFrom 0 previous (spaced (tokens.map (·.text))) =
      tokens.flatMap fun token => .kept ' ' :: token.pieces := by
  induction tokens generalizing previous with
  | nil => rfl
  | cons token tokens ih =>
    have later := ih (fun token inside => takes token (by simp [inside]))
    have first := piecesFrom_token (takes token (by simp)) (.inr rfl)
      (parted_spaced (tokens.map (·.text)))
    simp only [List.map_cons, spaced, List.flatMap_cons, List.cons_append, piecesFrom,
      spaceless previous] at first later ⊢
    rw [first, later]

theorem filterMap_value (tokens : List (Token α)) :
    (tokens.flatMap fun token => .kept ' ' :: token.pieces).filterMap Piece.value? =
      tokens.filterMap (·.value) := by
  induction tokens with
  | nil => rfl
  | cons token tokens ih =>
    rw [List.flatMap_cons, List.filterMap_append, ih, List.filterMap_cons_none rfl,
      token.filterMap_pieces]
    cases known : token.value with
    | none => simp [known]
    | some value => simp [known]

theorem flatMap_left (tokens : List (Token α)) :
    (tokens.flatMap fun token => .kept ' ' :: token.pieces).flatMap (Piece.replaced [' ']) =
      spaced (tokens.map (·.left)) := by
  induction tokens with
  | nil => rfl
  | cons token tokens ih =>
    rw [List.flatMap_cons, List.flatMap_append, ih, List.flatMap_cons, token.flatMap_pieces]
    rfl

theorem takeAll_tokens {p : Pattern α} (spaceless : p.Refuses ' ') {first : Token α}
    {tokens : List (Token α)} (takes : ∀ token ∈ first :: tokens, p.Takes token) :
    p.takeAll [' '] (first.text ++ spaced (tokens.map (·.text))) =
      ((first :: tokens).filterMap (·.value), first.left ++ spaced (tokens.map (·.left))) := by
  have parts := piecesFrom_token (takes first (by simp)) (.inl rfl)
    (parted_spaced (tokens.map (·.text)))
  rw [piecesFrom_spaced spaceless fun token inside => takes token (by simp [inside])] at parts
  have values := filterMap_value (first :: tokens)
  rw [List.flatMap_cons, List.cons_append, List.filterMap_cons_none rfl] at values
  unfold takeAll pieces
  simp only [parts, values]
  rw [List.flatMap_append, first.flatMap_pieces, flatMap_left]

theorem map_left {tokens : List (Token α)} (empty : tokens.filterMap (·.value) = []) :
    tokens.map (·.left) = tokens.map (·.text) := by
  apply List.map_congr_left
  intro token inside
  exact Token.left_of_none (List.filterMap_eq_nil_iff.mp empty token inside)

theorem silent_tokens {p : Pattern α} (spaceless : p.Refuses ' ') {tokens : List (Token α)}
    (takes : ∀ token ∈ tokens, p.Takes token) (empty : tokens.filterMap (·.value) = [])
    (previous : Option Char) {rest : Text} (parted : Parted rest) :
    p.Silent previous (spaced (tokens.map (·.text))) rest := by
  induction tokens generalizing previous with
  | nil => exact silent_nil p previous rest
  | cons token tokens ih =>
    have valueless := List.filterMap_eq_nil_iff.mp empty
    have later := ih (fun token inside => takes token (by simp [inside]))
      (List.filterMap_eq_nil_iff.mpr fun token inside => valueless token (by simp [inside]))
    have here := takes token (by simp) (some ' ') _ (.inr rfl)
      (parted_spaced_append (tokens.map (·.text)) parted)
    rw [valueless token (by simp)] at here
    change p.Silent previous (' ' :: (token.text ++ spaced (tokens.map (·.text)))) rest
    rw [silent_cons, silent_append]
    exact ⟨spaceless previous _, here, later _⟩

theorem takeFirst_tokens {p : Pattern α} (spaceless : p.Refuses ' ') {first : Token α}
    {tokens : List (Token α)} (takes : ∀ token ∈ first :: tokens, p.Takes token)
    (few : ((first :: tokens).filterMap (·.value)).length ≤ 1) :
    p.takeFirst [' '] (first.text ++ spaced (tokens.map (·.text))) =
      (((first :: tokens).filterMap (·.value)).head?,
        first.left ++ spaced (tokens.map (·.left))) := by
  have front := takes first (by simp)
  have others : ∀ token ∈ tokens, p.Takes token := fun token inside => takes token (by simp [inside])
  cases known : first.value with
  | some value =>
    have empty : tokens.filterMap (·.value) = [] := by
      simpa [known] using few
    have read := front none (spaced (tokens.map (·.text))) (.inl rfl) (parted_spaced _)
    rw [known] at read
    have found := firstFrom?_found read.1 read.2
    simp [takeFirst, first?, found, known, Token.left_of_some known, map_left empty]
  | none =>
    have passed (rest : Text) (parted : Parted rest) : p.Silent none first.text rest := by
      have here := front none rest (.inl rfl) parted
      rwa [known] at here
    rw [List.filterMap_cons_none known, Token.left_of_none known]
    cases values : tokens.filterMap (·.value) with
    | nil =>
      have silent : p.Silent none (first.text ++ spaced (tokens.map (·.text))) [] := by
        rw [silent_append, List.append_nil]
        exact ⟨passed _ (parted_spaced _), silent_tokens spaceless others values _ (.inl rfl)⟩
      have found := firstFrom?_silent silent
      rw [List.append_nil] at found
      simp [takeFirst, first?, found, firstFrom?, map_left values]
    | cons value more =>
      -- The tokens before the one with the value are passed, and those behind it have none.
      obtain ⟨before, token, after, rfl, early, valued, late⟩ :=
        List.filterMap_eq_cons_iff.mp values
      rw [List.filterMap_cons_none known, values] at few
      have empty : after.filterMap (·.value) = [] := by
        rw [late]
        simpa using few
      have early := List.filterMap_eq_nil_iff.mpr early
      have read := others token (by simp) (some ' ') (spaced (after.map (·.text))) (.inr rfl)
        (parted_spaced _)
      rw [valued] at read
      have silent : p.Silent none (first.text ++ spaced (before.map (·.text)) ++ [' '])
          (token.text ++ spaced (after.map (·.text))) := by
        rw [silent_append, silent_append, silent_cons]
        refine ⟨⟨passed _ (parted_spaced_append _ (.inr ⟨_, rfl⟩)), ?_⟩, spaceless _ _,
          silent_nil p _ _⟩
        exact silent_tokens spaceless (fun token inside => others token (by simp [inside])) early _
          (.inr ⟨_, rfl⟩)
      have found := firstFrom?_silent silent
      rw [lastOf_append, lastOf_cons, lastOf_nil, firstFrom?_found read.1 read.2] at found
      have split : first.text ++ spaced ((before ++ token :: after).map (·.text)) =
          first.text ++ spaced (before.map (·.text)) ++ [' '] ++
            (token.text ++ spaced (after.map (·.text))) := by
        simp [spaced]
      rw [takeFirst, first?, split, found]
      simp [spaced, Token.left_of_some valued, map_left empty, map_left early]

end Pattern

end CraftScript
