import CraftScript.Proofs.Attributes
import CraftScript.Proofs.Lines

/-! Where the amount of a fluid line ends. It is the longest numeral that stands there, and what
follows belongs to the fluid types, with or without a blank between them. So the amount is a token
of its own exactly where the token that stands there is a numeral as a whole. -/
namespace CraftScript.EntryLine

open Text

theorem run?_eq_none_iff {kind : Char → Bool} {t : Text} : run? kind t = none ↔ Stops kind t := by
  constructor
  · intro unread c first
    obtain ⟨rest, rfl⟩ := List.head?_eq_some_iff.mp first
    by_contra other
    simp [run?, other] at unread
  · intro stops
    cases t with
    | nil => rfl
    | cons c t => simp [run?, stops c rfl]

def numeral (whole fraction : Text) : Text :=
  whole ++ if fraction = [] then [] else '.' :: fraction

structure Spelled (whole fraction number : Text) : Prop where
  wholeDigits : ∀ c ∈ whole, isDigit c
  fractionDigits : ∀ c ∈ fraction, isDigit c
  nonempty : whole ++ fraction ≠ []
  written : number = numeral whole fraction

def IsNumeral (number : Text) : Prop :=
  ∃ whole fraction, Spelled whole fraction number

theorem numeral_nil (whole : Text) : numeral whole [] = whole := by
  simp [numeral]

theorem numeral_cons (whole : Text) {fraction : Text} (nonempty : fraction ≠ []) :
    numeral whole fraction = whole ++ '.' :: fraction := by
  simp [numeral, nonempty]

theorem isBlank_of_isDigit {c : Char} (digit : isDigit c) : isBlank c = false := by
  by_contra blank
  rw [isDigit_of_isBlank (by simpa using blank)] at digit
  contradiction

def inToken (c : Char) : Bool :=
  !isBlank c && c != '['

def token (t : Text) : Text :=
  t.takeWhile inToken

abbrev EndsToken (rest : Text) : Prop :=
  Stops inToken rest

theorem inToken_of_isDigit {c : Char} (digit : isDigit c) : inToken c := by
  have notOpen : c ≠ '[' := fun same => absurd (same ▸ digit) (by decide)
  simp [inToken, isBlank_of_isDigit digit, notOpen]

theorem IsNumeral.inToken {number : Text} (isNumeral : IsNumeral number) :
    ∀ c ∈ number, inToken c := by
  obtain ⟨whole, fraction, wholeDigits, fractionDigits, -, rfl⟩ := isNumeral
  intro c inside
  rcases List.mem_append.mp inside with early | late
  · exact inToken_of_isDigit (wholeDigits c early)
  · split at late
    next => contradiction
    next =>
      rcases List.mem_cons.mp late with rfl | digit
      · decide
      · exact inToken_of_isDigit (fractionDigits c digit)

theorem IsNumeral.ne_nil {number : Text} (isNumeral : IsNumeral number) : number ≠ [] := by
  obtain ⟨whole, fraction, -, -, nonempty, rfl⟩ := isNumeral
  intro empty
  obtain ⟨rfl, noFraction⟩ := List.append_eq_nil_iff.mp empty
  split at noFraction
  next same => exact nonempty (by simp [same])
  next => contradiction

theorem IsNumeral.stops {number : Text} (isNumeral : IsNumeral number) (rest : Text) :
    Stops isBlank (number ++ rest) := by
  refine stops_append (stops_of_forall fun c inside => ?_) isNumeral.ne_nil rest
  have kept := isNumeral.inToken c inside
  simp only [EntryLine.inToken, Bool.and_eq_true, Bool.not_eq_true'] at kept
  exact kept.1

/-- No digit follows, and no point with a digit behind it unless there was a fraction. -/
structure EndsNumeral (fraction rest : Text) : Prop where
  stops : Stops isDigit rest
  pointless : fraction = [] → ∀ behind, rest = '.' :: behind → Stops isDigit behind

/-- The amount is a numeral that the text behind it does not go on with. -/
theorem amount?_eq_some_iff {t whole fraction rest : Text} :
    amount? t = some ((whole, fraction), rest) ↔
      Spelled whole fraction (numeral whole fraction) ∧ t = numeral whole fraction ++ rest ∧
        EndsNumeral fraction rest := by
  constructor
  · intro read
    have digits : ∀ c ∈ t.takeWhile isDigit, isDigit c := fun c => List.mem_takeWhile_imp
    have halves : t = t.takeWhile isDigit ++ t.dropWhile isDigit :=
      List.takeWhile_append_dropWhile.symm
    simp only [amount?] at read
    split at read
    next fraction' rest' behindPoint =>
      simp only [Option.some.injEq, Prod.mk.injEq] at read
      obtain ⟨⟨rfl, rfl⟩, rfl⟩ := read
      obtain ⟨behind, point, digitsBehind⟩ := Option.bind_eq_some_iff.mp behindPoint
      obtain ⟨nonempty, every, stops, rfl⟩ := run?_eq_some_iff.mp digitsBehind
      rw [literal?_eq_some_iff] at point
      refine ⟨⟨digits, every, by simp [nonempty], rfl⟩, ?_, stops, fun empty => absurd empty nonempty⟩
      rw [numeral_cons _ nonempty]
      rw [point] at halves
      simpa using halves
    next noFraction =>
      split at read
      next => contradiction
      next nonempty =>
        simp only [Option.some.injEq, Prod.mk.injEq] at read
        obtain ⟨⟨rfl, rfl⟩, rfl⟩ := read
        refine ⟨⟨digits, by simp, by simpa using nonempty, rfl⟩, ?_, stops_dropWhile isDigit t, ?_⟩
        · rw [numeral_nil]
          exact halves
        · intro _ behind point
          have reached : literal? (t.dropWhile isDigit) ['.'] = some behind :=
            literal?_eq_some_iff.mpr point
          rw [reached, Option.bind_some] at noFraction
          exact run?_eq_none_iff.mp noFraction
  · rintro ⟨spelled, rfl, stops, pointless⟩
    by_cases empty : fraction = []
    · subst empty
      have nonempty : whole.isEmpty = false := by simpa using spelled.nonempty
      have pointed : (literal? rest ['.']).bind (run? isDigit) = none := by
        rw [Option.bind_eq_none_iff]
        intro behind point
        exact run?_eq_none_iff.mpr (pointless rfl behind (literal?_eq_some_iff.mp point))
      simp only [numeral_nil, amount?, takeWhile_append_stop spelled.wholeDigits stops,
        dropWhile_append_stop spelled.wholeDigits stops, pointed, nonempty]
      rfl
    · have point : Stops isDigit ('.' :: (fraction ++ rest)) := stops_cons (by decide) _
      have behind : run? isDigit (fraction ++ rest) = some (fraction, rest) :=
        run?_eq_some_iff.mpr ⟨empty, spelled.fractionDigits, stops, rfl⟩
      simp [numeral_cons whole empty, amount?, takeWhile_append_stop spelled.wholeDigits point,
        dropWhile_append_stop spelled.wholeDigits point, literal?, behind]

/-- A numeral that the text does not go on with is the longest one at its place. -/
theorem isPrefix_of_spelled {whole fraction rest longer : Text}
    (spelled : Spelled whole fraction (numeral whole fraction)) (ends : EndsNumeral fraction rest)
    (isNumeral : IsNumeral longer) (inside : longer <+: numeral whole fraction ++ rest) :
    longer <+: numeral whole fraction := by
  obtain ⟨whole', fraction', digits, digits', nonempty, rfl⟩ := isNumeral
  obtain ⟨tail, same⟩ := inside
  have wholes : (numeral whole fraction ++ rest).takeWhile isDigit = whole := by
    by_cases empty : fraction = []
    · rw [empty, numeral_nil]
      exact takeWhile_append_stop spelled.wholeDigits ends.stops
    · rw [numeral_cons whole empty, List.append_assoc]
      exact takeWhile_append_stop spelled.wholeDigits (stops_cons (by decide) _)
  by_cases empty : fraction' = []
  · -- Digits alone belong to the digits before the point.
    subst empty
    rw [numeral_nil] at same ⊢
    rw [← same, List.takeWhile_append_of_pos digits] at wholes
    rw [← wholes]
    exact ⟨tail.takeWhile isDigit ++ if fraction = [] then [] else '.' :: fraction, by simp [numeral]⟩
  · rw [numeral_cons whole' empty] at same ⊢
    have begins : whole' = whole := by
      rw [← wholes, ← same, List.append_assoc]
      exact (takeWhile_append_stop digits (stops_cons (by decide) _)).symm
    subst begins
    by_cases pointed : fraction = []
    · -- There is a digit behind the point, so the numeral would have gone on.
      subst pointed
      rw [numeral_nil, List.append_assoc, List.append_cancel_left_eq] at same
      obtain ⟨d, others, rfl⟩ := List.exists_cons_of_ne_nil empty
      have plain := ends.pointless rfl _ same.symm d rfl
      simp [digits' d (by simp)] at plain
    · rw [numeral_cons whole' pointed] at same ⊢
      have fractions : fraction' ++ tail = fraction ++ rest := by simpa using same
      have longest := takeWhile_append_stop spelled.fractionDigits ends.stops
      rw [← fractions, List.takeWhile_append_of_pos digits'] at longest
      rw [← longest]
      exact ⟨tail.takeWhile isDigit, by simp⟩

def IsFluidHead (flow : Flow) (head : Text) : Prop :=
  ∃ word gap, head = (if flow = .produced then '+' else '-') :: (word ++ gap) ∧
    Folds "fluid".toList word ∧ gap ≠ [] ∧ ∀ c ∈ gap, isBlank c

/-- A fluid line cut before and behind its amount, which is the longest numeral at its place. -/
structure FluidParts (flow : Flow) (line head number rest : Text) : Prop where
  whole : line = head ++ (number ++ rest)
  headed : IsFluidHead flow head
  numeral : IsNumeral number
  longest : ∀ longer, IsNumeral longer → longer <+: number ++ rest → longer <+: number

namespace FluidParts

variable {flow flow' : Flow} {line head number rest head' number' rest' : Text}

theorem unique (parts : FluidParts flow line head number rest)
    (parts' : FluidParts flow' line head' number' rest') :
    flow' = flow ∧ head' = head ∧ number' = number ∧ rest' = rest := by
  obtain ⟨word, gap, rfl, folds, -, blanks⟩ := parts.headed
  obtain ⟨word', gap', rfl, folds', -, blanks'⟩ := parts'.headed
  have same := parts.whole.symm.trans parts'.whole
  simp only [List.cons_append, List.append_assoc, List.cons.injEq] at same
  obtain ⟨signs, same⟩ := same
  have flows : flow' = flow := by
    cases flow <;> cases flow' <;> simp_all
  obtain ⟨rfl, behind⟩ := List.append_inj same (folds.length_eq.symm.trans folds'.length_eq)
  have gaps : gap = gap' := by
    have cut := congrArg (List.takeWhile isBlank) behind
    rwa [takeWhile_append_stop blanks (parts.numeral.stops rest),
      takeWhile_append_stop blanks' (parts'.numeral.stops rest')] at cut
  subst gaps flows
  have texts : number ++ rest = number' ++ rest' := List.append_cancel_left behind
  have forth : number' <+: number :=
    parts.longest number' parts'.numeral ⟨rest', texts.symm⟩
  have back : number <+: number' := parts'.longest number parts.numeral ⟨rest, texts⟩
  obtain rfl := forth.eq_of_length_le back.length_le
  exact ⟨rfl, rfl, rfl, (List.append_cancel_left texts).symm⟩

theorem endsToken_iff (parts : FluidParts flow line head number rest) :
    EndsToken rest ↔ IsNumeral (token (number ++ rest)) := by
  have kept := parts.numeral.inToken
  constructor
  · intro ends
    rw [token, takeWhile_append_stop kept ends]
    exact parts.numeral
  · intro isNumeral
    have within := parts.longest _ isNumeral (List.takeWhile_prefix _)
    rw [token, List.takeWhile_append_of_pos kept] at within
    have nothing : rest.takeWhile inToken = [] := by
      have size := within.length_le
      rw [List.length_append] at size
      exact List.length_eq_zero_iff.mp (by omega)
    intro c first
    obtain ⟨t, rfl⟩ := List.head?_eq_some_iff.mp first
    by_contra goesOn
    simp [goesOn] at nothing

end FluidParts

def StandsFor (number : Text) (amount : Amount) : Prop :=
  ∃ whole fraction, Spelled whole fraction number ∧ Amount.ofDigits? whole fraction = some amount

theorem fluidTypes_dropBlanks (t : Text) : fluidTypes (dropBlanks t) = fluidTypes t := by
  have trimmed : trim (dropBlanks t) = trim t := by
    have same : dropBlanks (dropBlanks t) = dropBlanks t :=
      @dropBlanks_append_stop [] (dropBlanks t) (by simp) (stops_dropWhile isBlank t)
    exact congrArg (dropEndWhile isBlank) same
  simp only [fluidTypes, trimmed]

theorem fluid?_signed (flow : Flow) (t : Text) :
    fluid? ((if flow = .produced then '+' else '-') :: t) = do
      let t ← t.folded? "fluid".toList
      let t ← t.afterBlanks?
      let ((whole, fraction), t) ← amount? t
      let t ← restOfLine? t
      let amount ← Amount.ofDigits? whole fraction
      return (flow, ⟨fluidTypes t, amount⟩) := by
  cases flow <;> rfl

theorem exists_sign {line : Text} {found : Flow × Fluid} (read : fluid? line = some found) :
    ∃ flow t, line = (if flow = Flow.produced then '+' else '-') :: t := by
  unfold fluid? at read
  split at read
  next t => exact ⟨.produced, t, rfl⟩
  next t => exact ⟨.consumed, t, rfl⟩
  next => contradiction

theorem exists_parts {line : Text} {flow : Flow} {fluid : Fluid}
    (read : fluid? line = some (flow, fluid)) :
    ∃ head number rest, FluidParts flow line head number rest ∧ StandsFor number fluid.amount ∧
      fluid.types = fluidTypes rest := by
  obtain ⟨flow', t, rfl⟩ := exists_sign read
  rw [fluid?_signed] at read
  simp only [Option.bind_eq_bind, Option.bind_eq_some_iff] at read
  obtain ⟨_, keyword, _, gapped, ⟨⟨whole, fraction⟩, rest⟩, number, rest', onLine, amount, value,
    same⟩ := read
  obtain ⟨rfl, rfl⟩ := Prod.mk.inj (Option.some.inj same)
  obtain ⟨word, folds, rfl⟩ := folded?_eq_some_iff.mp keyword
  obtain ⟨gap, spaced, blanks, -, rfl⟩ := afterBlanks?_eq_some_iff.mp gapped
  obtain ⟨spelled, rfl, ends⟩ := amount?_eq_some_iff.mp number
  have behind : rest' = dropBlanks rest := by
    simp only [restOfLine?] at onLine
    split at onLine
    next => contradiction
    next => exact (Option.some.inj onLine).symm
  refine ⟨_, numeral whole fraction, rest, ⟨?_, ⟨word, gap, rfl, folds, spaced, blanks⟩,
    ⟨whole, fraction, spelled⟩, ?_⟩, ⟨whole, fraction, spelled, value⟩, ?_⟩
  · simp
  · exact fun longer isNumeral inside =>
      isPrefix_of_spelled spelled ends isNumeral inside
  · rw [behind]
    exact fluidTypes_dropBlanks rest

theorem trim_append {word : Text} (nonempty : word ≠ []) (solid : ∀ c ∈ word, isBlank c = false)
    (tail : Text) : trim (word ++ tail) = word ++ trimEnd tail := by
  have starts : (word ++ tail).dropWhile isBlank = word ++ tail :=
    @dropWhile_append_stop isBlank [] _ (by simp) (stops_append (stops_of_forall solid) nonempty tail)
  have ends : word.reverse.dropWhile isBlank = word.reverse :=
    @dropWhile_append_stop isBlank [] _ (by simp) (stops_of_forall (by simpa using solid))
  rw [trim, trimWhile, starts, trimEnd, dropEndWhile, dropEndWhile, List.reverse_append,
    List.dropWhile_append]
  split
  next empty => simp [List.isEmpty_iff.mp empty, ends]
  next => simp

/-- Where the token goes on behind the amount, what is left of it is taken for the fluid type. -/
theorem fluidTypes_of_goesOn {rest : Text} (goesOn : ¬ EndsToken rest) :
    fluidTypes rest = [String.ofList (rest.takeWhile (!isBlank ·))] := by
  obtain ⟨c, t, rfl, solid, notOpen⟩ :
      ∃ c t, rest = c :: t ∧ isBlank c = false ∧ c ≠ '[' := by
    cases rest with
    | nil => exact absurd (stops_nil inToken) goesOn
    | cons c t =>
      have kept : inToken c := by
        by_contra other
        exact goesOn (stops_cons (by simpa using other) t)
      exact ⟨c, t, rfl, by simpa [inToken] using kept⟩
  have word : (c :: t).takeWhile (!isBlank ·) = c :: t.takeWhile (!isBlank ·) := by
    simp [solid]
  have plain : ∀ d ∈ c :: t.takeWhile (!isBlank ·), isBlank d = false := by
    intro d inside
    rcases List.mem_cons.mp inside with rfl | later
    · exact solid
    · simpa using List.mem_takeWhile_imp later
  have halves : c :: t = (c :: t.takeWhile (!isBlank ·)) ++ t.dropWhile (!isBlank ·) := by
    simp
  have ends : Stops (!isBlank ·) (trimEnd (t.dropWhile (!isBlank ·))) := by
    intro d first
    obtain ⟨more, same⟩ := isPrefix_dropEndWhile isBlank (t.dropWhile (!isBlank ·))
    exact stops_dropWhile _ t d (by rw [← same, List.head?_append, ← trimEnd, first]; rfl)
  have trimmed : trim (c :: t) =
      (c :: t.takeWhile (!isBlank ·)) ++ trimEnd (t.dropWhile (!isBlank ·)) := by
    rw [halves, trim_append (by simp) plain]
  have noGroup : bracketGroup none (trim (c :: t)) = none := by
    rw [trimmed]
    exact refuses_bracketGroup notOpen none _
  simp only [fluidTypes, noGroup]
  rw [trimmed, words_append (by simp) plain ends, word]
  rfl

/-- The amount of a fluid line is the longest numeral that stands there. It is a token of its own
exactly where that token is a numeral; elsewhere the rest of the token is the fluid type. -/
theorem amount_whole_iff {line : Text} {flow : Flow} {fluid : Fluid}
    (read : fluid? line = some (flow, fluid)) :
    ∃ head number rest, FluidParts flow line head number rest ∧
      (∀ flow' head' number' rest', FluidParts flow' line head' number' rest' →
        flow' = flow ∧ head' = head ∧ number' = number ∧ rest' = rest) ∧
      StandsFor number fluid.amount ∧ fluid.types = fluidTypes rest ∧
      (EndsToken rest ↔ IsNumeral (token (number ++ rest))) ∧
      (¬ EndsToken rest → fluid.types = [String.ofList (rest.takeWhile (!isBlank ·))]) := by
  obtain ⟨head, number, rest, parts, value, types⟩ := exists_parts read
  refine ⟨head, number, rest, parts, fun _ _ _ _ other => parts.unique other, value, types,
    parts.endsToken_iff, fun goesOn => ?_⟩
  rw [types, fluidTypes_of_goesOn goesOn]

theorem amount_whole_iff_bracket :
    let line := "+fluid .5[Tea;Milk]".toList
    let fluid : Fluid := ⟨["Tea", "Milk"], Amount.ofDecimal false ⟨5, -1⟩⟩
    fluid? line = some (.produced, fluid) ∧
      ∃ head number rest, FluidParts .produced line head number rest ∧
        StandsFor number fluid.amount ∧ (EndsToken rest ↔ IsNumeral (token (number ++ rest))) := by
  intro line fluid
  have read : fluid? line = some (.produced, fluid) := rfl
  obtain ⟨head, number, rest, parts, -, value, -, whole, -⟩ := amount_whole_iff read
  exact ⟨read, head, number, rest, parts, value, whole⟩

/-- A number with two points is read up to the second one, and the rest of it is a fluid type. -/
theorem number_cut_in_two :
    let line := "-fluid 1.2.3 Water".toList
    fluid? line = some (.consumed, ⟨[".3"], Amount.ofDecimal false ⟨12, -1⟩⟩) ∧
      FluidParts .consumed line "-fluid ".toList "1.2".toList ".3 Water".toList ∧
      ¬ EndsToken ".3 Water".toList := by
  have spelled : Spelled ['1'] ['2'] (numeral ['1'] ['2']) := ⟨by decide, by decide, by decide, rfl⟩
  have stops : Stops isDigit ".3 Water".toList := stops_cons (by decide) _
  refine ⟨rfl, ⟨rfl, ⟨"fluid".toList, [' '], rfl, by decide, by decide, by decide⟩,
    ⟨_, _, spelled⟩, ?_⟩, ?_⟩
  · exact fun longer isNumeral inside =>
      isPrefix_of_spelled spelled ⟨stops, fun empty => absurd empty (by decide)⟩ isNumeral inside
  · intro ends
    exact absurd (ends '.' rfl) (by decide)

end CraftScript.EntryLine
