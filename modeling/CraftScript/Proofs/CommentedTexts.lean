import CraftScript.Proofs.Heads
import CraftScript.Proofs.Lines

/-! Texts in which line comments keep apart from keywords and braces. One pass tells of every place
whether it lies in a comment or between a keyword and its brace; the pass goes on over the seam where a
stretch is cut out, and where no comment stands the text is kept as it is. -/
namespace CraftScript.Text

structure Vocabulary where
  words : List Text
  letters : ∀ word ∈ words, word ≠ [] ∧ ∀ c ∈ word, isWord c

def keywords : Vocabulary where
  words :=
    ["module", "xuiSkin", "entity", "component", "itemMapper", "inputs", "outputs"].map String.toList
  letters := by decide

def startsWith (word t : Text) : Bool :=
  (t.literal? word).any fun rest => beginsWord rest.head?

def keywordAt (terms : Vocabulary) (previous : Option Char) (t : Text) : Bool :=
  beginsWord previous && terms.words.any fun word => startsWith word t

def opensComment (t : Text) : Bool :=
  t.take 2 == ['/', '/']

def isBrace (c : Char) : Bool :=
  c == '{' || c == '}'

inductive Phase where
  | free
  | headed
  | commented
deriving DecidableEq, Repr

namespace Phase

def isCommented : Phase → Bool
  | commented => true
  | free | headed => false

/-- The phase behind the first character of `t`, unless a comment gets in the way: a comment holds no
brace and no keyword, between a keyword and the next brace there is neither a comment nor another
keyword, and no keyword stands directly behind a slash. -/
def next? (terms : Vocabulary) (previous : Option Char) : Text → Phase → Option Phase
  | [], phase => some phase
  | c :: t, commented =>
    if keywordAt terms previous (c :: t) || isBrace c then none
    else some (if c = '\n' then free else commented)
  | c :: t, headed =>
    if keywordAt terms previous (c :: t) || opensComment (c :: t) then none
    else some (if isBrace c then free else headed)
  | c :: t, free =>
    if opensComment (c :: t) then some commented
    else if keywordAt terms previous (c :: t) then (if previous = some '/' then none else some headed)
    else some free

def after? (terms : Vocabulary) : Phase → Option Char → Text → Option Phase
  | phase, _, [] => some phase
  | phase, previous, c :: t =>
    (phase.next? terms previous (c :: t)).bind fun next => after? terms next (some c) t

end Phase

open Phase

def Separate (terms : Vocabulary) (phase : Phase) (previous : Option Char) (t : Text) : Prop :=
  (phase.after? terms previous t).isSome

instance (terms : Vocabulary) (phase : Phase) (previous : Option Char) (t : Text) :
    Decidable (Separate terms phase previous t) :=
  inferInstanceAs (Decidable (_ = true))

def uncommentedFrom : (commented : Bool) → Text → Text
  | _, [] => []
  | true, c :: t => if c = '\n' then c :: uncommentedFrom false t else uncommentedFrom true t
  | false, c :: t =>
    if opensComment (c :: t) then uncommentedFrom true t else c :: uncommentedFrom false t

variable {terms : Vocabulary} {s t : Text} {phase last : Phase} {previous : Option Char} {c b : Char}

theorem letters_of_keyword {word : Text} (member : word ∈ terms.words) :
    word ≠ [] ∧ ∀ c ∈ word, isWord c :=
  terms.letters word member

theorem braceless_keyword {word : Text} (member : word ∈ terms.words) : Braceless word := by
  intro c inside
  have letter := (letters_of_keyword member).2 c inside
  constructor
  · rintro rfl
    exact absurd letter (by decide)
  · rintro rfl
    exact absurd letter (by decide)

theorem isBrace_iff : isBrace b ↔ b = '{' ∨ b = '}' := by
  simp [isBrace]

theorem mark_of_isBrace (brace : isBrace b) : isWord b = false ∧ b ≠ '/' := by
  rcases isBrace_iff.mp brace with rfl | rfl <;> decide

theorem exists_first_brace (t : Text) :
    Braceless t ∨ ∃ s b rest, Braceless s ∧ isBrace b ∧ t = s ++ b :: rest := by
  cases found : t.find? isBrace with
  | none =>
    refine .inl fun c inside => ?_
    simpa [isBrace] using List.find?_eq_none.mp found c inside
  | some b =>
    obtain ⟨brace, s, rest, split, free⟩ := List.find?_eq_some_iff_append.mp found
    refine .inr ⟨s, b, rest, fun c inside => ?_, brace, split⟩
    simpa [isBrace] using free c inside

theorem keywordAt_congr (same : ∀ word ∈ terms.words, startsWith word s = startsWith word t)
    (previous : Option Char) : keywordAt terms previous s = keywordAt terms previous t := by
  have any : (terms.words.any fun word => startsWith word s) =
      terms.words.any fun word => startsWith word t := by
    rw [Bool.eq_iff_iff, List.any_eq_true, List.any_eq_true]
    exact exists_congr fun word => and_congr_right fun member => by rw [same word member]
  rw [keywordAt, keywordAt, any]

theorem exists_of_keywordAt (here : keywordAt terms previous t) :
    beginsWord previous ∧ ∃ word ∈ terms.words, ∃ rest, t = word ++ rest ∧ beginsWord rest.head? := by
  simpa [keywordAt, startsWith, literal?_eq_some_iff, Option.any_eq_true] using here

theorem keywordAt_of_mem (begins : beginsWord previous) {word rest : Text}
    (member : word ∈ terms.words) (ends : beginsWord rest.head?) : keywordAt terms previous (word ++ rest) := by
  rw [keywordAt, begins, Bool.true_and, List.any_eq_true]
  exact ⟨word, member, by rw [startsWith, literal?_eq_some_iff.mpr rfl, Option.any_some, ends]⟩

theorem keywordAt_eq_false (mark : isWord c = false) (previous : Option Char) (t : Text) :
    keywordAt terms previous (c :: t) = false := by
  rw [Bool.eq_false_iff]
  intro here
  obtain ⟨-, word, member, rest, split, -⟩ := exists_of_keywordAt here
  obtain ⟨nonempty, letters⟩ := letters_of_keyword member
  obtain ⟨d, word, rfl⟩ := List.exists_cons_of_ne_nil nonempty
  obtain ⟨rfl, -⟩ := List.cons.inj split
  simp [letters c (by simp)] at mark

theorem exists_cons_of_keywordAt (here : keywordAt terms previous t) : ∃ c rest, t = c :: rest := by
  obtain ⟨-, word, member, rest, rfl, -⟩ := exists_of_keywordAt here
  exact List.exists_cons_of_ne_nil (by simp [(letters_of_keyword member).1])

theorem opensComment_cons (c : Char) (t : Text) :
    opensComment (c :: t) = (c == '/' && t.head? == some '/') := by
  cases t with
  | nil => simp [opensComment]
  | cons d t => simp [opensComment]

theorem slash_of_opensComment (opens : opensComment (c :: t)) : c = '/' := by
  rw [opensComment_cons, Bool.and_eq_true, beq_iff_eq] at opens
  exact opens.1

theorem opensComment_eq_false (noSlash : b ≠ '/') (t : Text) : opensComment (b :: t) = false := by
  simp [opensComment_cons, noSlash]

def Parted (s t : Text) : Prop :=
  (beginsWord s.getLast? ∨ beginsWord t.head?) ∧ ¬ (s.getLast? = some '/' ∧ t.head? = some '/')

theorem parted_of_mark (mark : isWord b = false) (noSlash : b ≠ '/') (s t : Text) :
    Parted s (b :: t) := by
  simp [Parted, beginsWord, mark, noSlash]

theorem parted_snoc (mark : isWord b = false) (noSlash : b ≠ '/') (s t : Text) :
    Parted (s ++ [b]) t := by
  simp [Parted, beginsWord, mark, noSlash]

theorem parted_tail (parted : Parted (c :: s) t) (nonempty : s ≠ []) : Parted s t := by
  rwa [Parted, List.getLast?_cons_of_ne_nil nonempty] at parted

theorem beginsWord_getLast? (begins : beginsWord (lastOf previous s)) : beginsWord s.getLast? := by
  cases last : s.getLast? with
  | none => rfl
  | some d => rwa [lastOf, last] at begins

theorem parted_of_keywordAt {here : Text} (head : keywordAt terms (lastOf previous s) here) :
    Parted s here := by
  obtain ⟨begins, word, member, tail, rfl, -⟩ := exists_of_keywordAt head
  obtain ⟨nonempty, letters⟩ := letters_of_keyword member
  obtain ⟨c, word, rfl⟩ := List.exists_cons_of_ne_nil nonempty
  refine ⟨.inl (beginsWord_getLast? begins), fun slashes => ?_⟩
  obtain rfl : c = '/' := by simpa using slashes.2
  exact absurd (letters '/' (by simp)) (by decide)

theorem startsWith_append {word : Text} (letters : ∀ c ∈ word, isWord c) (nonempty : s ≠ [])
    (apart : beginsWord s.getLast? ∨ beginsWord t.head?) :
    startsWith word (s ++ t) = startsWith word s := by
  induction word generalizing s with
  | nil => rw [startsWith, startsWith, literal?, literal?, Option.any_some, Option.any_some,
      List.head?_append_of_ne_nil s nonempty]
  | cons w word ih =>
    obtain ⟨c, s, rfl⟩ := List.exists_cons_of_ne_nil nonempty
    have later : ∀ d ∈ word, isWord d := fun d inside => letters d (by simp [inside])
    by_cases same : c = w
    · have step (rest : Text) : startsWith (w :: word) (c :: rest) = startsWith word rest := by
        simp [startsWith, literal?, same]
      rw [List.cons_append, step, step]
      by_cases last : s = []
      · subst last
        -- The text ends within the word, so that the next character cannot go on with it.
        have ends : beginsWord t.head? := by
          refine apart.resolve_left ?_
          simp [beginsWord, same, letters w (by simp)]
        cases word with
        | nil =>
          rw [startsWith, startsWith, literal?, literal?, Option.any_some, Option.any_some,
            List.nil_append, ends]
          rfl
        | cons d word =>
          cases t with
          | nil => rfl
          | cons e t =>
            have other : e ≠ d := by
              rintro rfl
              simp [beginsWord, later e (by simp)] at ends
            simp [startsWith, literal?, other]
      · refine ih later last ?_
        rwa [List.getLast?_cons_of_ne_nil last] at apart
    · simp [startsWith, literal?, same]

theorem keywordAt_append (parted : Parted s t) (nonempty : s ≠ []) (previous : Option Char) :
    keywordAt terms previous (s ++ t) = keywordAt terms previous s :=
  keywordAt_congr (fun _ member =>
    startsWith_append (letters_of_keyword member).2 nonempty parted.1) previous

theorem opensComment_append (parted : Parted s t) (nonempty : s ≠ []) :
    opensComment (s ++ t) = opensComment s := by
  obtain ⟨c, s, rfl⟩ := List.exists_cons_of_ne_nil nonempty
  rw [List.cons_append, opensComment_cons, opensComment_cons]
  by_cases last : s = []
  · subst last
    by_cases slash : c = '/'
    · have other : t.head? ≠ some '/' := fun next => parted.2 ⟨by simp [slash], next⟩
      simp [other]
    · simp [slash]
  · rw [List.head?_append_of_ne_nil s last]

namespace Phase

variable {next : Phase}

theorem next?_append (parted : Parted s t) (nonempty : s ≠ []) (phase : Phase)
    (previous : Option Char) : phase.next? terms previous (s ++ t) = phase.next? terms previous s := by
  have head := @keywordAt_append terms _ _ parted nonempty previous
  have opens := opensComment_append parted nonempty
  obtain ⟨c, s, rfl⟩ := List.exists_cons_of_ne_nil nonempty
  rw [List.cons_append] at head opens ⊢
  cases phase <;> simp only [next?, head, opens]

/-- A step goes on in a comment, opens one, or goes over a character outside of comments. -/
theorem next?_cases (step : phase.next? terms previous (c :: t) = some next) :
    (phase = commented ∧ keywordAt terms previous (c :: t) = false ∧ isBrace c = false ∧
      next = if c = '\n' then free else commented) ∨
    (phase = free ∧ c = '/' ∧ opensComment (c :: t) ∧ next = commented) ∨
    (phase.isCommented = false ∧ opensComment (c :: t) = false ∧ next.isCommented = false ∧
      (keywordAt terms previous (c :: t) → phase = free ∧ previous ≠ some '/' ∧ next = headed) ∧
      (keywordAt terms previous (c :: t) = false → next = if isBrace c then free else phase)) := by
  cases phase with
  | commented =>
    rw [next?] at step
    split at step
    · contradiction
    · rename_i quiet
      rw [Bool.or_eq_true, not_or, Bool.not_eq_true, Bool.not_eq_true] at quiet
      exact .inl ⟨rfl, quiet.1, quiet.2, (Option.some.inj step).symm⟩
  | headed =>
    rw [next?] at step
    split at step
    · contradiction
    · rename_i quiet
      rw [Bool.or_eq_true, not_or, Bool.not_eq_true, Bool.not_eq_true] at quiet
      obtain rfl := Option.some.inj step
      exact .inr (.inr ⟨rfl, quiet.2, by split <;> rfl, by simp [quiet.1], fun _ => rfl⟩)
  | free =>
    rw [next?] at step
    split at step
    next opens =>
      exact .inr (.inl ⟨rfl, slash_of_opensComment opens, opens, (Option.some.inj step).symm⟩)
    next plain =>
      by_cases here : keywordAt terms previous (c :: t)
      · rw [if_pos here] at step
        split at step
        · contradiction
        · rename_i apart
          obtain rfl := Option.some.inj step
          exact .inr (.inr ⟨rfl, by simpa using plain, rfl, fun _ => ⟨rfl, apart, rfl⟩,
            by simp [here]⟩)
      · rw [if_neg here] at step
        obtain rfl := Option.some.inj step
        exact .inr (.inr ⟨rfl, by simpa using plain, rfl, by simp [here], by simp⟩)

theorem quiet_of_headed (step : headed.next? terms previous (c :: t) = some next) :
    keywordAt terms previous (c :: t) = false ∧ opensComment (c :: t) = false ∧
      next = if isBrace c then free else headed := by
  rcases next?_cases step with ⟨other, -⟩ | ⟨other, -⟩ | ⟨-, plain, -, head, rest⟩
  · contradiction
  · contradiction
  · have quiet : keywordAt terms previous (c :: t) = false := by
      rw [Bool.eq_false_iff]
      intro here
      exact absurd (head here).1 (by decide)
    exact ⟨quiet, plain, rest quiet⟩

theorem free_of_keyword (step : phase.next? terms previous (c :: t) = some next)
    (here : keywordAt terms previous (c :: t)) :
    phase = free ∧ previous ≠ some '/' ∧ opensComment (c :: t) = false ∧ next = headed := by
  rcases next?_cases step with ⟨-, quiet, -⟩ | ⟨-, rfl, -⟩ | ⟨-, plain, -, head, -⟩
  · simp [here] at quiet
  · rw [keywordAt_eq_false (by decide)] at here
    contradiction
  · obtain ⟨rfl, noSlash, rfl⟩ := head here
    exact ⟨rfl, noSlash, plain, rfl⟩

theorem next?_mark (mark : isWord b = false) (noSlash : b ≠ '/') (phase : Phase)
    (previous : Option Char) (t : Text) :
    phase.next? terms previous (b :: t) = phase.next? terms none [b] := by
  cases phase <;> simp [next?, keywordAt_eq_false mark, opensComment_eq_false noSlash]

theorem after?_cons_eq_some :
    phase.after? terms previous (c :: t) = some last ↔
      ∃ next, phase.next? terms previous (c :: t) = some next ∧
        next.after? terms (some c) t = some last := by
  rw [after?, Option.bind_eq_some_iff]

theorem after?_append (parted : Parted s t) (phase : Phase) (previous : Option Char) :
    phase.after? terms previous (s ++ t) =
      (phase.after? terms previous s).bind fun last => last.after? terms (lastOf previous s) t := by
  induction s generalizing phase previous with
  | nil => simp [after?]
  | cons c s ih =>
    have first := @next?_append terms _ _ parted (by simp) phase previous
    rw [List.cons_append] at first ⊢
    rw [after?, after?, first, Option.bind_assoc]
    congr 1
    funext next
    by_cases last : s = []
    · simp [last, after?]
    · rw [ih (parted_tail parted last), lastOf_cons]

end Phase

/-- A character is kept, or goes with a comment, and then it is no brace. -/
theorem exists_kept {next : Phase} (step : phase.next? terms previous (c :: t) = some next) :
    ∃ kept, (kept = [c] ∨ kept = [] ∧ isBrace c = false) ∧
      ∀ s, opensComment (c :: s) = opensComment (c :: t) →
        uncommentedFrom phase.isCommented (c :: s) = kept ++ uncommentedFrom next.isCommented s := by
  rcases next?_cases step with
    ⟨rfl, -, brace, rfl⟩ | ⟨rfl, rfl, opens, rfl⟩ | ⟨outside, plain, outside', -⟩
  · by_cases newline : c = '\n'
    · exact ⟨[c], .inl rfl, fun s _ => by simp [isCommented, uncommentedFrom, newline]⟩
    · exact ⟨[], .inr ⟨rfl, brace⟩, fun s _ => by simp [isCommented, uncommentedFrom, newline]⟩
  · refine ⟨[], .inr ⟨rfl, by decide⟩, fun s same => ?_⟩
    simp [isCommented, uncommentedFrom, same, opens]
  · exact ⟨[c], .inl rfl, fun s same => by simp [outside, outside', uncommentedFrom, same, plain]⟩

theorem uncommentedFrom_append (read : phase.after? terms previous s = some last)
    (parted : Parted s t) :
    uncommentedFrom phase.isCommented (s ++ t) =
      uncommentedFrom phase.isCommented s ++ uncommentedFrom last.isCommented t := by
  induction s generalizing phase previous with
  | nil =>
    obtain rfl : phase = last := by simpa [after?] using read
    rfl
  | cons c s ih =>
    obtain ⟨next, step, later⟩ := after?_cons_eq_some.mp read
    obtain ⟨kept, -, shown⟩ := exists_kept step
    have opens := opensComment_append parted (by simp)
    rw [List.cons_append] at opens ⊢
    rw [shown s rfl, shown (s ++ t) opens, List.append_assoc]
    by_cases ends : s = []
    · subst ends
      obtain rfl : next = last := by simpa [after?] using later
      rfl
    · rw [ih later (parted_tail parted ends)]

theorem mem_of_mem_uncommentedFrom {commented : Bool} (inside : c ∈ uncommentedFrom commented t) :
    c ∈ t := by
  fun_induction uncommentedFrom commented t with
  | case1 => exact inside
  | case2 t ih | case5 d t _ ih =>
    exact (List.mem_cons.mp inside).elim (by simp [·]) fun later => by simp [ih later]
  | case3 d t _ ih | case4 d t _ ih => simp [ih inside]

theorem braceless_uncommentedFrom (free : Braceless t) (commented : Bool) :
    Braceless (uncommentedFrom commented t) :=
  fun c inside => free c (mem_of_mem_uncommentedFrom inside)

theorem count_uncommentedFrom (brace : isBrace b) (whole : Separate terms phase previous t) :
    (uncommentedFrom phase.isCommented t).count b = t.count b := by
  induction t generalizing phase previous with
  | nil => rfl
  | cons c t ih =>
    obtain ⟨last, read⟩ := Option.isSome_iff_exists.mp whole
    obtain ⟨next, step, later⟩ := after?_cons_eq_some.mp read
    obtain ⟨kept, one, shown⟩ := exists_kept step
    rw [shown t rfl, List.count_append, ih (Option.isSome_iff_exists.mpr ⟨last, later⟩)]
    rcases one with rfl | ⟨rfl, other⟩
    · rw [← List.count_append, List.singleton_append]
    · have apart : c ≠ b := fun same => by simp [same, brace] at other
      simp [apart]

theorem beforeLineComment_eq_ite (c : Char) (t : Text) :
    beforeLineComment (c :: t) = if opensComment (c :: t) then [] else c :: beforeLineComment t := by
  rw [opensComment_cons]
  split
  next opens =>
    rw [Bool.and_eq_true, beq_iff_eq, beq_iff_eq] at opens
    obtain ⟨rfl, next⟩ := opens
    obtain ⟨rest, rfl⟩ := List.head?_eq_some_iff.mp next
    rfl
  next plain =>
    apply beforeLineComment_cons
    rintro ⟨rfl, rest, rfl⟩
    simp at plain

/-- The lines are cut one by one; a text that begins in a comment loses its first line. -/
theorem uncommentedFrom_eq (t : Text) :
    uncommentedFrom false t = uncommented t ∧
      uncommentedFrom true t = joinLines ([] :: (rawLines t).tail.map beforeLineComment) := by
  induction t with
  | nil => exact ⟨rfl, rfl⟩
  | cons c t ih =>
    obtain ⟨plain, inside⟩ := ih
    obtain ⟨first, others, split⟩ := List.exists_cons_of_ne_nil (splitBy_ne_nil (· == '\n') t)
    rw [uncommented, rawLines, split] at plain
    rw [rawLines, split] at inside
    by_cases newline : c = '\n'
    · subst newline
      have whole : rawLines ('\n' :: t) = [] :: first :: others := by
        rw [rawLines, splitBy, if_pos (by decide), split]
      have joined : '\n' :: uncommentedFrom false t =
          joinLines ([] :: (first :: others).map beforeLineComment) := by
        rw [plain]
        rfl
      constructor
      · rw [uncommentedFrom, opensComment_eq_false (by decide), uncommented, whole]
        exact joined
      · rw [uncommentedFrom, if_pos rfl, whole]
        exact joined
    · have whole : rawLines (c :: t) = (c :: first) :: others :=
        splitBy_cons_plain (by simpa using newline) split
      have starts : t.head? = some '/' ↔ first.head? = some '/' := by
        have joined := joinLines_rawLines t
        rw [rawLines, split] at joined
        rw [← joined]
        cases first with
        | nil => cases others <;> simp [joinLines]
        | cons d first => simp [joinLines_cons]
      have opens : opensComment (c :: first) = opensComment (c :: t) := by
        rw [opensComment_cons, opensComment_cons, Bool.eq_iff_iff]
        simp [starts]
      constructor
      · rw [uncommentedFrom, uncommented, whole, List.map_cons, beforeLineComment_eq_ite, opens]
        by_cases comment : opensComment (c :: t)
        · rw [if_pos comment, if_pos comment, inside]
          rfl
        · rw [if_neg comment, if_neg comment, joinLines_cons, plain]
          rfl
      · rw [uncommentedFrom, if_neg newline, inside, whole]
        rfl

theorem head?_uncommentedFrom_true (t : Text) :
    (uncommentedFrom true t).head? = none ∨ (uncommentedFrom true t).head? = some '\n' := by
  induction t with
  | nil => exact .inl rfl
  | cons c t ih =>
    by_cases newline : c = '\n'
    · exact .inr (by simp [uncommentedFrom, newline])
    · simpa [uncommentedFrom, newline] using ih

theorem head?_uncommentedFrom (t : Text) :
    (uncommentedFrom false t).head? = t.head? ∨ t.head? = some '/' ∧
      ((uncommentedFrom false t).head? = none ∨ (uncommentedFrom false t).head? = some '\n') := by
  cases t with
  | nil => exact .inl rfl
  | cons c t =>
    rw [uncommentedFrom]
    split
    next opens =>
      rw [slash_of_opensComment opens]
      exact .inr ⟨rfl, head?_uncommentedFrom_true t⟩
    next => exact .inl rfl

theorem stops_uncommentedFrom {kind : Char → Bool} (stops : Stops kind t)
    (single : kind '\n' = false) : Stops kind (uncommentedFrom false t) := by
  intro c first
  rcases head?_uncommentedFrom t with same | ⟨-, empty | newline⟩
  · exact stops c (same ▸ first)
  · simp [empty] at first
  · rw [newline, Option.some.injEq] at first
    rwa [← first]

theorem startsWith_uncommentedFrom {word : Text} (slashless : '/' ∉ word)
    (single : '\n' ∉ word) (t : Text) :
    startsWith word (uncommentedFrom false t) = startsWith word t := by
  induction word generalizing t with
  | nil =>
    have mark : isWord '/' = false := by decide
    have mark' : isWord '\n' = false := by decide
    rcases head?_uncommentedFrom t with same | ⟨slash, empty | newline⟩
    · simp [startsWith, literal?, same]
    · simp [startsWith, literal?, slash, empty, beginsWord, mark]
    · simp [startsWith, literal?, slash, newline, beginsWord, mark, mark']
  | cons w word ih =>
    rw [List.mem_cons, not_or] at slashless single
    cases t with
    | nil => rfl
    | cons c t =>
      by_cases opens : opensComment (c :: t)
      · obtain rfl := slash_of_opensComment opens
        rw [uncommentedFrom, if_pos opens]
        have head := head?_uncommentedFrom_true t
        cases left : uncommentedFrom true t with
        | nil => simp [startsWith, literal?, slashless.1]
        | cons d rest =>
          obtain rfl : d = '\n' := by simpa [left] using head
          simp [startsWith, literal?, slashless.1, single.1]
      · rw [uncommentedFrom, if_neg opens]
        by_cases same : c = w
        · simpa [startsWith, literal?, same] using ih slashless.2 single.2 t
        · simp [startsWith, literal?, same]

theorem keywordAt_uncommentedFrom (previous : Option Char) (t : Text) :
    keywordAt terms previous (uncommentedFrom false t) = keywordAt terms previous t := by
  refine keywordAt_congr (fun word member => ?_) previous
  have letters := (letters_of_keyword member).2
  exact startsWith_uncommentedFrom (fun inside => absurd (letters _ inside) (by decide))
    (fun inside => absurd (letters _ inside) (by decide)) t

theorem separate_cons :
    Separate terms phase previous (c :: t) ↔
      ∃ next, phase.next? terms previous (c :: t) = some next ∧ Separate terms next (some c) t := by
  rw [Separate, after?, Option.isSome_bind, Option.any_eq_true]
  rfl

theorem separate_append (parted : Parted s t) :
    Separate terms phase previous (s ++ t) ↔
      ∃ last, phase.after? terms previous s = some last ∧
        Separate terms last (lastOf previous s) t := by
  rw [Separate, after?_append parted, Option.isSome_bind, Option.any_eq_true]
  rfl

theorem separate_of_after? (read : phase.after? terms previous s = some last) :
    Separate terms phase previous s :=
  Option.isSome_iff_exists.mpr ⟨last, read⟩

/-- What stands before a text matters only where it goes on with a word or begins a comment. -/
theorem separate_previous {previous' : Option Char} (begins : beginsWord previous)
    (begins' : beginsWord previous') (noSlash : previous ≠ some '/')
    (noSlash' : previous' ≠ some '/') :
    Separate terms phase previous t ↔ Separate terms phase previous' t := by
  cases t with
  | nil => rfl
  | cons c t =>
    have first : phase.next? terms previous (c :: t) = phase.next? terms previous' (c :: t) := by
      cases phase <;> simp [next?, keywordAt, begins, begins', noSlash, noSlash']
    rw [separate_cons, separate_cons, first]

theorem separate_mark (mark : isWord b = false) (noSlash : b ≠ '/') :
    Separate terms phase (some b) t ↔ Separate terms phase none t :=
  separate_previous (by simp [beginsWord, mark]) rfl (by simpa using noSlash) (by simp)

theorem free_of_headed (whole : Separate terms .headed previous t) :
    Separate terms .free previous t := by
  induction t generalizing previous with
  | nil => rfl
  | cons c t ih =>
    obtain ⟨next, step, later⟩ := separate_cons.mp whole
    obtain ⟨quiet, plain, rfl⟩ := quiet_of_headed step
    refine separate_cons.mpr ⟨.free, by simp [next?, plain, quiet], ?_⟩
    split at later
    · exact later
    · exact ih later

theorem after?_headed (free : Braceless s) (read : headed.after? terms previous s = some last) :
    last = .headed ∧ uncommentedFrom false s = s := by
  induction s generalizing previous with
  | nil => exact ⟨by simpa [after?] using read.symm, rfl⟩
  | cons c s ih =>
    obtain ⟨next, step, later⟩ := after?_cons_eq_some.mp read
    obtain ⟨-, plain, rfl⟩ := quiet_of_headed step
    have brace : ¬ isBrace c := by
      obtain ⟨notOpen, notClose⟩ := free c (by simp)
      simp [isBrace, notOpen, notClose]
    rw [if_neg brace] at later
    obtain ⟨same, kept⟩ := ih (fun d inside => free d (by simp [inside])) later
    rw [uncommentedFrom, plain, kept]
    exact ⟨same, rfl⟩

theorem after?_keyword (free : Braceless s) (head : keywordAt terms previous s)
    (read : phase.after? terms previous s = some last) :
    phase = .free ∧ last = .headed ∧ uncommentedFrom false s = s := by
  obtain ⟨c, s, rfl⟩ := exists_cons_of_keywordAt head
  obtain ⟨next, step, later⟩ := after?_cons_eq_some.mp read
  obtain ⟨rfl, -, plain, rfl⟩ := free_of_keyword step head
  obtain ⟨same, kept⟩ := after?_headed (fun d inside => free d (by simp [inside])) later
  rw [uncommentedFrom, plain, kept]
  exact ⟨rfl, same, rfl⟩

namespace Separate

theorem of_brace (whole : Separate terms phase previous (b :: t)) (brace : isBrace b) :
    Separate terms .free none t ∧
      ∀ s, uncommentedFrom phase.isCommented (b :: s) = b :: uncommentedFrom false s := by
  obtain ⟨mark, noSlash⟩ := mark_of_isBrace brace
  obtain ⟨next, step, later⟩ := separate_cons.mp whole
  rcases next?_cases step with
    ⟨-, -, unbraced, -⟩ | ⟨-, slash, -⟩ | ⟨outside, -, -, -, quiet⟩
  · simp [brace] at unbraced
  · exact absurd slash noSlash
  · rw [quiet (keywordAt_eq_false mark _ t), if_pos brace] at later
    refine ⟨(separate_mark mark noSlash).mp later, fun s => ?_⟩
    rw [outside, uncommentedFrom, opensComment_eq_false noSlash]
    rfl

/-- A brace stands in no comment and ends what a keyword begins. -/
theorem brace (whole : Separate terms phase previous (s ++ b :: t)) (brace : isBrace b) :
    Separate terms phase previous s ∧ Separate terms .free none t ∧
      uncommentedFrom phase.isCommented (s ++ b :: t) =
        uncommentedFrom phase.isCommented s ++ b :: uncommentedFrom false t := by
  obtain ⟨mark, noSlash⟩ := mark_of_isBrace brace
  have parted := parted_of_mark mark noSlash s t
  obtain ⟨last, read, rest⟩ := (separate_append parted).mp whole
  obtain ⟨behind, kept⟩ := rest.of_brace brace
  exact ⟨separate_of_after? read, behind, by rw [uncommentedFrom_append read parted, kept]⟩

theorem newline (whole : Separate terms phase previous (s ++ '\n' :: t)) :
    Separate terms phase previous (s ++ ['\n']) ∧ Separate terms .free none t := by
  have mark : isWord '\n' = false := by decide
  have parted := parted_of_mark mark (by decide) s
  obtain ⟨last, read, rest⟩ := (separate_append (parted t)).mp whole
  obtain ⟨next, step, later⟩ := separate_cons.mp rest
  rw [next?_mark mark (by decide)] at step
  constructor
  · refine (separate_append (parted [])).mpr ⟨last, read, separate_cons.mpr ⟨next, ?_, rfl⟩⟩
    rwa [next?_mark mark (by decide)]
  · rw [separate_mark mark (by decide)] at later
    cases next with
    | free => exact later
    | headed => exact free_of_headed later
    | commented => cases last <;> simp [next?, opensComment, keywordAt_eq_false mark, isBrace] at step

theorem drop_return (whole : Separate terms phase previous (s ++ '\r' :: '\n' :: t)) :
    Separate terms phase previous (s ++ '\n' :: t) := by
  have mark : isWord '\r' = false := by decide
  have mark' : isWord '\n' = false := by decide
  obtain ⟨last, read, rest⟩ := (separate_append (parted_of_mark mark (by decide) s _)).mp whole
  obtain ⟨next, step, rest⟩ := separate_cons.mp rest
  obtain ⟨final, step', later⟩ := separate_cons.mp rest
  have same : next = last := by
    rw [next?_mark mark (by decide)] at step
    cases last <;> simpa [next?, opensComment, keywordAt_eq_false mark, isBrace, eq_comm] using step
  rw [same, next?_mark mark' (by decide)] at step'
  refine (separate_append (parted_of_mark mark' (by decide) s t)).mpr
    ⟨last, read, separate_cons.mpr ⟨final, ?_, later⟩⟩
  rwa [next?_mark mark' (by decide)]

/-- A stretch that begins with a keyword can give way to any other text. -/
theorem cut {here : Text} (whole : Separate terms phase previous (s ++ here))
    (head : keywordAt terms (lastOf previous s) here) :
    Separate terms .free (lastOf previous s) here ∧
      ∀ rest, Separate terms .free none rest → Separate terms phase previous (s ++ rest) ∧
        uncommentedFrom phase.isCommented (s ++ rest) =
          uncommentedFrom phase.isCommented s ++ uncommentedFrom false rest := by
  obtain ⟨last, read, later⟩ := (separate_append (parted_of_keywordAt head)).mp whole
  have begins : beginsWord (lastOf previous s) := (exists_of_keywordAt head).1
  obtain ⟨rfl, noSlash⟩ : last = .free ∧ lastOf previous s ≠ some '/' := by
    obtain ⟨c, here, rfl⟩ := exists_cons_of_keywordAt head
    obtain ⟨next, step, -⟩ := separate_cons.mp later
    obtain ⟨rfl, noSlash, -⟩ := free_of_keyword step head
    exact ⟨rfl, noSlash⟩
  refine ⟨later, fun rest behind => ?_⟩
  have parted : Parted s rest := by
    refine ⟨.inl (beginsWord_getLast? begins), fun slashes => noSlash ?_⟩
    rw [lastOf, slashes.1]
    rfl
  refine ⟨(separate_append parted).mpr ⟨.free, read, ?_⟩, uncommentedFrom_append read parted⟩
  exact (separate_previous begins rfl noSlash (by simp)).mpr behind

/-- From a keyword to the next brace the text is kept as it is. -/
theorem stretch (whole : Separate terms phase previous (s ++ b :: t))
    (head : keywordAt terms previous (s ++ b :: t)) (free : Braceless s) (brace : isBrace b) :
    uncommentedFrom false (s ++ b :: t) = s ++ b :: uncommentedFrom false t := by
  obtain ⟨mark, noSlash⟩ := mark_of_isBrace brace
  have parted := parted_of_mark mark noSlash s t
  by_cases empty : s = []
  · rw [empty, List.nil_append, keywordAt_eq_false mark] at head
    contradiction
  · rw [keywordAt_append parted empty] at head
    obtain ⟨last, read, -⟩ := (separate_append parted).mp whole
    obtain ⟨rfl, -, kept⟩ := after?_keyword free head read
    obtain ⟨-, -, split⟩ := whole.brace brace
    rw [isCommented, kept] at split
    exact split

end Separate

end CraftScript.Text
