import CraftScript.Json.Reader
import CraftScript.Proofs.Texts

/-! JSON text read back. In either layout the text of a value is read as the value, with nothing
taken from the text behind it. -/
namespace CraftScript

open Text

theorem bind_eq_ok_iff {ε α β : Type} {x : Except ε α} {f : α → Except ε β} {b : β} :
    (x >>= f) = .ok b ↔ ∃ a, x = .ok a ∧ f a = .ok b := by
  cases x with
  | error e => simp [bind, Except.bind]
  | ok a => simp [bind, Except.bind]

namespace Json

def inNumber (c : Char) : Bool :=
  isAsciiDigit c || c == '.' || c == 'e' || c == 'E'

theorem stops_digit {rest : Text} (stops : Stops inNumber rest) : Stops isAsciiDigit rest := by
  intro c first
  have other := stops c first
  simp only [inNumber, Bool.or_eq_false_iff] at other
  exact other.1.1.1

theorem digits_eq_ok_iff {t run behind : Text} :
    digits t = .ok (run, behind) ↔
      run ≠ [] ∧ (∀ c ∈ run, isAsciiDigit c) ∧ Stops isAsciiDigit behind ∧ t = run ++ behind := by
  rw [← run?_eq_some_iff]
  unfold digits run?
  cases t.takeWhile isAsciiDigit <;> simp

theorem digits_append {t run behind rest : Text} (read : digits t = .ok (run, behind))
    (stops : Stops isAsciiDigit rest) : digits (t ++ rest) = .ok (run, behind ++ rest) := by
  obtain ⟨nonempty, every, ends, rfl⟩ := digits_eq_ok_iff.mp read
  refine digits_eq_ok_iff.mpr ⟨nonempty, every, ?_, List.append_assoc _ _ _⟩
  cases behind with
  | nil => exact stops
  | cons c behind => exact stops_append ends (by simp) rest

theorem wholeDigits_append {t whole behind rest : Text}
    (read : wholeDigits t = .ok (whole, behind)) (stops : Stops isAsciiDigit rest) :
    wholeDigits (t ++ rest) = .ok (whole, behind ++ rest) := by
  unfold wholeDigits at read ⊢
  obtain ⟨⟨run, left⟩, found, checked⟩ := bind_eq_ok_iff.mp read
  refine bind_eq_ok_iff.mpr ⟨(run, left ++ rest), digits_append found stops, ?_⟩
  dsimp only at checked ⊢
  split at checked
  · contradiction
  · cases checked
    rfl

theorem fractionDigits_append {t fraction behind rest : Text}
    (read : fractionDigits t = .ok (fraction, behind)) (stops : Stops inNumber rest) :
    fractionDigits (t ++ rest) = .ok (fraction, behind ++ rest) := by
  unfold fractionDigits at read
  split at read
  next t => exact digits_append read (stops_digit stops)
  next t notPoint =>
    cases read
    rw [fractionDigits]
    intro tail point
    obtain ⟨inner, same, -⟩ := exists_cons_of_append (by decide) stops point
    exact notPoint inner same

theorem map_append {ε α β : Type} {make : α × Text → β × Text} {x y : Except ε (α × Text)} {b : β}
    {behind rest : Text} (read : x.map make = .ok (b, behind))
    (longer : ∀ a t, x = .ok (a, t) → y = .ok (a, t ++ rest))
    (keeps : ∀ a t, make (a, t ++ rest) = ((make (a, t)).1, (make (a, t)).2 ++ rest)) :
    y.map make = .ok (b, behind ++ rest) := by
  cases x with
  | error faults => cases read
  | ok found =>
    have made : make found = (b, behind) := Except.ok.inj read
    rw [longer found.1 found.2 rfl, Except.map, keeps, made]

theorem exponent_append {t behind rest : Text} {e : Int} (read : exponent t = .ok (e, behind))
    (stops : Stops isAsciiDigit rest) : exponent (t ++ rest) = .ok (e, behind ++ rest) := by
  have longer {t run behind : Text} (found : digits t = .ok (run, behind)) :=
    digits_append found stops
  cases t with
  | nil => cases read
  | cons c t =>
    by_cases plus : c = '+'
    · subst plus
      exact map_append read (fun _ _ => longer) fun _ _ => rfl
    by_cases minus : c = '-'
    · subst minus
      exact map_append read (fun _ _ => longer) fun _ _ => rfl
    have unsigned (t : Text) : exponent (c :: t) =
        (digits (c :: t)).map fun found => (((digitsValue 0 found.1 : Nat) : Int), found.2) := by
      rw [exponent]
      · simpa using plus
      · simpa using minus
    rw [unsigned] at read
    rw [List.cons_append, unsigned]
    exact map_append read (fun _ _ => longer) fun _ _ => rfl

theorem exponentPart_append {t behind rest : Text} {e : Option Int}
    (read : exponentPart t = .ok (e, behind)) (stops : Stops inNumber rest) :
    exponentPart (t ++ rest) = .ok (e, behind ++ rest) := by
  have longer {t behind : Text} {e : Int} (found : exponent t = .ok (e, behind)) :=
    exponent_append found (stops_digit stops)
  unfold exponentPart at read
  split at read
  next t => exact map_append read (fun _ _ => longer) fun _ _ => rfl
  next t => exact map_append read (fun _ _ => longer) fun _ _ => rfl
  next t small large =>
    cases read
    rw [exponentPart]
    · intro tail sign
      obtain ⟨inner, same, -⟩ := exists_cons_of_append (by decide) stops sign
      exact small inner same
    · intro tail sign
      obtain ⟨inner, same, -⟩ := exists_cons_of_append (by decide) stops sign
      exact large inner same

theorem signed_append {t : Text} (nonempty : t ≠ []) (rest : Text) :
    signed (t ++ rest) = ((signed t).1, (signed t).2 ++ rest) := by
  cases t with
  | nil => contradiction
  | cons c t =>
    by_cases minus : c = '-'
    · subst minus
      rfl
    · simp [signed, minus]

theorem numeral_append {t rest : Text} {n : Numeral} (read : numeral t = .ok (n, []))
    (stops : Stops inNumber rest) : numeral (t ++ rest) = .ok (n, rest) := by
  have nonempty : t ≠ [] := by
    rintro rfl
    simp [numeral, signed, wholeDigits, digits, bind, Except.bind] at read
  unfold numeral at read ⊢
  obtain ⟨⟨whole, t₁⟩, first, read⟩ := bind_eq_ok_iff.mp read
  obtain ⟨⟨fraction, t₂⟩, second, read⟩ := bind_eq_ok_iff.mp read
  obtain ⟨⟨e, t₃⟩, third, read⟩ := bind_eq_ok_iff.mp read
  cases read
  rw [signed_append nonempty]
  refine bind_eq_ok_iff.mpr ⟨_, wholeDigits_append first (stops_digit stops), ?_⟩
  refine bind_eq_ok_iff.mpr ⟨_, fractionDigits_append second stops, ?_⟩
  exact bind_eq_ok_iff.mpr ⟨_, exponentPart_append third stops, rfl⟩

theorem numeral_head {t rest : Text} {n : Numeral} (read : numeral t = .ok (n, rest)) :
    ∃ c tail, t = c :: tail ∧ (c = '-' || isAsciiDigit c) := by
  unfold numeral at read
  obtain ⟨⟨whole, behind⟩, first, -⟩ := bind_eq_ok_iff.mp read
  obtain ⟨⟨run, left⟩, found, -⟩ := bind_eq_ok_iff.mp first
  obtain ⟨nonempty, every, -, split⟩ := digits_eq_ok_iff.mp found
  split at split
  next tail => exact ⟨'-', tail, rfl, rfl⟩
  next =>
    cases run with
    | nil => contradiction
    | cons c run => exact ⟨c, run ++ left, split, by simp [every c (by simp)]⟩

namespace Number

/-- The text of the number is read as the number. Whole numbers of 64 bits do that; amounts are read
by scaling, which may miss. -/
def ReadsBack (n : Number) : Prop :=
  ∃ read, numeral n.text = .ok (read, []) ∧ read.value? = some n

instance (n : Number) : Decidable n.ReadsBack :=
  match found : numeral n.text with
  | .ok (read, []) => decidable_of_iff (read.value? = some n) (by simp [ReadsBack, found])
  | .ok (_, _ :: _) => .isFalse (by simp [ReadsBack, found])
  | .error _ => .isFalse (by simp [ReadsBack, found])

theorem ReadsBack.numberValue {n : Number} (back : n.ReadsBack) {rest : Text}
    (stops : Stops inNumber rest) : numberValue (n.text ++ rest) = (.number n, some rest) := by
  obtain ⟨read, found, value⟩ := back
  simp [Json.numberValue, numeral_append found stops, value]

theorem head_toDigits {n : Nat} (positive : 0 < n) : (Nat.toDigits 10 n).head? ≠ some '0' := by
  induction n using Nat.strongRecOn with
  | ind n ih =>
    by_cases small : n < 10
    · have each : ∀ d < 10, 0 < d → [Nat.digitChar d].head? ≠ some '0' := by decide
      rw [Nat.toDigits_of_lt_base small]
      exact each n small positive
    · rw [Nat.toDigits_of_base_le (by decide) (by omega),
        List.head?_append_of_ne_nil _ Nat.toDigits_ne_nil]
      exact ih (n / 10) (by omega) (by omega)

theorem value?_natural {read : Numeral} {n : Nat} (unsigned : read.negative = false)
    (whole : digitsValue 0 read.whole = n) (fraction : read.fraction = [])
    (exponent : read.exponent = none) (small : n < UInt64.size) :
    read.value? = some (.integer n) := by
  rw [Numeral.value?, whole, fraction, exponent, unsigned]
  exact if_pos (by simpa using small)

theorem readsBack_integer {n : Nat} (small : n < UInt64.size) : (integer n).ReadsBack := by
  have spelled : (integer n).text = Nat.toDigits 10 n := by simp [text]
  have every : ∀ c ∈ Nat.toDigits 10 n, isAsciiDigit c :=
    fun c inside => isAsciiDigit_of_mem_toDigits inside
  have unsigned : signed (Nat.toDigits 10 n) = (false, Nat.toDigits 10 n) := by
    obtain ⟨c, tail, split⟩ := List.exists_cons_of_ne_nil (@Nat.toDigits_ne_nil n 10)
    have digit : isAsciiDigit c := every c (by simp [split])
    have other : c ≠ '-' := by rintro rfl; simp [isAsciiDigit] at digit
    rw [split]
    simp [signed, other]
  have whole : wholeDigits (Nat.toDigits 10 n) = .ok (Nat.toDigits 10 n, []) := by
    have found : digits (Nat.toDigits 10 n) = .ok (Nat.toDigits 10 n, []) :=
      digits_eq_ok_iff.mpr ⟨Nat.toDigits_ne_nil, every, stops_nil _, by simp⟩
    refine bind_eq_ok_iff.mpr ⟨_, found, ?_⟩
    dsimp only
    split
    next c tail split =>
      by_cases positive : 0 < n
      · exact absurd (by rw [split, List.head?_cons]) (head_toDigits positive)
      · obtain rfl : n = 0 := by omega
        simp at split
    next => rfl
  refine ⟨⟨false, Nat.toDigits 10 n, [], none⟩, ?_, ?_⟩
  · rw [spelled, numeral, unsigned]
    exact bind_eq_ok_iff.mpr ⟨_, whole, rfl⟩
  · exact value?_natural rfl (digitsValue_toDigits n) rfl rfl small

end Number

theorem hexValue?_hexDigit :
    ∀ d < 16, hexValue? (hexDigit d) = some d ∧ (hexDigit d).utf8Size = 1 := by
  decide

theorem escape_control {c : Char} (control : c.toNat < 0x20) (rest : Text) :
    escape true ('u' :: '0' :: '0' :: hexDigit (c.toNat / 16) :: hexDigit (c.toNat % 16) :: rest) =
      .ok (c, 5) := by
  obtain ⟨high, size⟩ := hexValue?_hexDigit (c.toNat / 16) (by omega)
  obtain ⟨low, size'⟩ := hexValue?_hexDigit (c.toNat % 16) (by omega)
  have value : ((0 * 16 + 0) * 16 + c.toNat / 16) * 16 + c.toNat % 16 = c.toNat := by omega
  have zero : hexValue? '0' = some 0 := by decide
  have four : fourHex ('0' :: '0' :: hexDigit (c.toNat / 16) :: hexDigit (c.toNat % 16) :: rest) =
      .ok c.toNat := by
    have sizes : '0'.utf8Size = 1 := by decide
    simp [fourHex, byteSize, size, size', sizes, zero, high, low]
    omega
  have plain : ¬ (0xDC00 ≤ c.toNat ∧ c.toNat ≤ 0xDFFF) := by omega
  have single : c.toNat < 0xD800 := by omega
  simp [escape, unicodeEscape, four, bind, Except.bind, pure, Except.pure, Except.map, plain,
    single]

theorem stringFrom_escaped (c : Char) (rest : Text) :
    stringFrom true 0 (escaped c ++ rest) =
      (stringFrom true 0 rest).map fun (s, t) => (c :: s, t) := by
  unfold escaped
  split_ifs
  · subst_vars; rfl
  · subst_vars; rfl
  · subst_vars; rfl
  · subst_vars; rfl
  · subst_vars; rfl
  · subst_vars; rfl
  · subst_vars; rfl
  next control => simp only [List.cons_append, List.nil_append, stringFrom, escape_control control]
  next quote backslash _ _ _ _ _ visible =>
    rw [List.singleton_append, stringFrom, if_neg visible]
    · exact quote
    · exact backslash

theorem stringFrom_quoted (s rest : Text) :
    stringFrom true 0 (s.flatMap escaped ++ '"' :: rest) = .ok (s, rest) := by
  induction s with
  | nil => rfl
  | cons c s ih => 
    rw [List.flatMap_cons, List.append_assoc, stringFrom_escaped, ih]
    rfl

inductive Sound : Json → Prop
  | null : Sound .null
  | bool (b : Bool) : Sound (.bool b)
  | number {n : Number} (back : n.ReadsBack) : Sound (.number n)
  | string (s : String) : Sound (.string s)
  | list {items : List Json} (each : ∀ item ∈ items, Sound item) : Sound (.list items)
  | record {members : List (String × Json)} (each : ∀ member ∈ members, Sound member.2) :
    Sound (.record members)

theorem dropSpaces_stop {t : Text} (stops : Stops isSpace t) : dropSpaces t = t :=
  @dropWhile_append_stop isSpace [] t (by simp) stops

theorem dropSpaces_newLine (depth : Option Nat) {t : Text} (stops : Stops isSpace t) :
    dropSpaces (newLine depth ++ t) = t := by
  apply dropWhile_append_stop _ stops
  intro c inside
  cases depth with
  | none => simp [newLine] at inside
  | some depth =>
    rcases List.mem_cons.mp inside with rfl | blank
    · decide
    · rw [(List.mem_replicate.mp blank).2]
      decide

theorem isSpace_of_head {c : Char} (kind : c = '-' || isAsciiDigit c) : isSpace c = false := by
  rw [Bool.eq_false_iff]
  intro space
  simp only [isSpace, Bool.or_eq_true, beq_iff_eq] at space
  rcases space with ((rfl | rfl) | rfl) | rfl <;> simp [isAsciiDigit] at kind

theorem Sound.head {j : Json} (sound : Sound j) (depth : Option Nat) :
    ∃ c, (render depth j).head? = some c ∧ isSpace c = false ∧ c ≠ ']' := by
  cases sound with
  | null => exact ⟨'n', by simp [render], by decide, by decide⟩
  | bool b =>
    cases b with
    | true => exact ⟨'t', by simp [render], by decide, by decide⟩
    | false => exact ⟨'f', by simp [render], by decide, by decide⟩
  | @number n back =>
    obtain ⟨read, found, -⟩ := back
    obtain ⟨c, t, start, kind⟩ := numeral_head found
    refine ⟨c, by simp [render, start], isSpace_of_head kind, ?_⟩
    rintro rfl
    simp [isAsciiDigit] at kind
  | string s => exact ⟨'"', by simp [render, quoted], by decide, by decide⟩
  | @list items _ =>
    refine ⟨'[', ?_, by decide, by decide⟩
    cases items <;> simp [Json.list, render]
  | @record members _ =>
    refine ⟨'{', ?_, by decide, by decide⟩
    cases members <;> simp [Json.record, render]

theorem Sound.exists_cons {j : Json} (sound : Sound j) (depth : Option Nat) (rest : Text) :
    ∃ c t, render depth j ++ rest = c :: t ∧ Stops isSpace (c :: t) ∧ c ≠ ']' := by
  obtain ⟨c, first, solid, other⟩ := sound.head depth
  obtain ⟨t, start⟩ := List.head?_eq_some_iff.mp first
  exact ⟨c, t ++ rest, by rw [start, List.cons_append], stops_cons solid _, other⟩

theorem Sound.exists_fuel {j : Json} (sound : Sound j) {depth : Option Nat} {fuel : Nat}
    (enough : 2 * (render depth j).length ≤ fuel) : ∃ less, fuel = less + 1 := by
  obtain ⟨c, t, start, -⟩ := sound.exists_cons depth []
  rw [List.append_nil] at start
  rw [start, List.length_cons] at enough
  exact ⟨fuel - 1, by omega⟩

theorem valueFrom_array {fuel : Nat} {t tail : Text} {c : Char} (start : dropSpaces t = c :: tail)
    (other : c ≠ ']') :
    valueFrom (fuel + 1) ('[' :: t) =
      (.array (itemsFrom fuel (c :: tail)).1 (itemsFrom fuel (c :: tail)).2.1,
        (itemsFrom fuel (c :: tail)).2.2) := by
  have bracket : dropSpaces ('[' :: t) = '[' :: t := dropSpaces_stop (stops_cons (by decide) _)
  simp [valueFrom, bracket, start, other]

theorem valueFrom_object {fuel : Nat} {t tail : Text} {c : Char} (start : dropSpaces t = c :: tail)
    (other : c ≠ '}') :
    valueFrom (fuel + 1) ('{' :: t) =
      (.object (membersFrom fuel (c :: tail)).1 (membersFrom fuel (c :: tail)).2.1,
        (membersFrom fuel (c :: tail)).2.2) := by
  have brace : dropSpaces ('{' :: t) = '{' :: t := dropSpaces_stop (stops_cons (by decide) _)
  simp [valueFrom, brace, start, other]

theorem valueFrom_number {n : Number} (back : n.ReadsBack) {rest : Text}
    (stops : Stops inNumber rest) (fuel : Nat) :
    valueFrom (fuel + 1) (n.text ++ rest) = (.number n, some rest) := by
  have value := back.numberValue stops
  obtain ⟨read, found, -⟩ := back
  obtain ⟨c, t, start, kind⟩ := numeral_head found
  rw [start, List.cons_append] at value ⊢
  have solid : dropSpaces (c :: (t ++ rest)) = c :: (t ++ rest) :=
    dropSpaces_stop (stops_cons (isSpace_of_head kind) _)
  have other : c ≠ '"' ∧ c ≠ '[' ∧ c ≠ '{' ∧ c ≠ 'n' ∧ c ≠ 't' ∧ c ≠ 'f' := by
    refine ⟨?_, ?_, ?_, ?_, ?_, ?_⟩ <;> rintro rfl <;> simp [isAsciiDigit] at kind
  simp [valueFrom, solid, other, kind, value]

def Rendered (j : Json) : Prop :=
  ∀ depth fuel rest, 2 * (render depth j).length ≤ fuel → Stops inNumber rest →
    valueFrom fuel (render depth j ++ rest) = (j, some rest)

theorem stops_newLine (depth : Option Nat) {c : Char} (other : inNumber c = false) (rest : Text) :
    Stops inNumber (newLine depth ++ c :: rest) := by
  cases depth with
  | none => exact stops_cons other rest
  | some depth => exact stops_cons (by decide) _

theorem stops_renderItems (depth : Option Nat) (items : List Json) (rest : Text) :
    Stops inNumber (renderItems depth items ++ rest) := by
  cases items with
  | nil =>
    rw [renderItems, List.append_assoc]
    exact stops_newLine depth (by decide) rest
  | cons item items => exact stops_cons (by decide) _

theorem stops_renderMembers (depth : Option Nat) (members : List (String × Json)) (rest : Text) :
    Stops inNumber (renderMembers depth members ++ rest) := by
  cases members with
  | nil =>
    rw [renderMembers, List.append_assoc]
    exact stops_newLine depth (by decide) rest
  | cons member members => exact stops_cons (by decide) _

theorem itemsFrom_rendered {item : Json} {items : List Json} (depth : Option Nat) {fuel : Nat}
    (sound : ∀ other ∈ item :: items, Sound other ∧ Rendered other)
    (enough : 2 * ((render (depth.map (· + 1)) item).length +
      (renderItems depth items).length) ≤ fuel) (rest : Text) :
    itemsFrom fuel (render (depth.map (· + 1)) item ++ (renderItems depth items ++ rest)) =
      (item :: items, none, some rest) := by
  induction items generalizing item fuel with
  | nil =>
    simp only [renderItems, List.length_append, List.length_singleton] at enough
    obtain ⟨fuel, rfl⟩ : ∃ less, fuel = less + 1 := ⟨fuel - 1, by omega⟩
    have here := (sound item (by simp)).2 (depth.map (· + 1)) fuel (renderItems depth [] ++ rest)
      (by omega) (stops_renderItems depth [] rest)
    have behind : dropSpaces (renderItems depth [] ++ rest) = ']' :: rest := by
      rw [renderItems, List.append_assoc]
      exact dropSpaces_newLine depth (stops_cons (by decide) _)
    simp [itemsFrom, here, behind]
  | cons next items ih =>
    simp only [renderItems, List.length_append, List.length_cons] at enough
    obtain ⟨fuel, rfl⟩ : ∃ less, fuel = less + 1 := ⟨fuel - 1, by omega⟩
    have here := (sound item (by simp)).2 (depth.map (· + 1)) fuel
      (renderItems depth (next :: items) ++ rest) (by omega)
      (stops_renderItems depth (next :: items) rest)
    have later := @ih next fuel (fun other inside => sound other (List.mem_cons_of_mem _ inside))
      (by omega)
    obtain ⟨c, t, start, solid, other⟩ :=
      (sound next (by simp)).1.exists_cons (depth.map (· + 1)) (renderItems depth items ++ rest)
    have behind : dropSpaces (newLine (depth.map (· + 1)) ++ (c :: t)) = c :: t :=
      dropSpaces_newLine _ solid
    have comma : dropSpaces (renderItems depth (next :: items) ++ rest) =
        ',' :: (newLine (depth.map (· + 1)) ++ (c :: t)) := by
      rw [← start, renderItems]
      simp [dropSpaces, isSpace]
    rw [start] at later
    simp [itemsFrom, here, comma, behind, other, later]

theorem stringFrom_quoted_key (key : String) (rest : Text) :
    ∃ t, quoted key ++ rest = '"' :: t ∧ stringFrom true 0 t = .ok (key.toList, rest) := by
  refine ⟨key.toList.flatMap escaped ++ '"' :: rest, by simp [quoted], stringFrom_quoted _ _⟩

theorem valueFrom_space (fuel : Nat) (t : Text) : valueFrom fuel (' ' :: t) = valueFrom fuel t := by
  cases fuel with
  | zero => rfl
  | succ fuel =>
    have blank : dropSpaces (' ' :: t) = dropSpaces t := rfl
    rw [valueFrom, valueFrom, blank]

theorem exists_colon (depth : Option Nat) (t : Text) :
    ∃ behind, dropSpaces (colon depth ++ t) = ':' :: behind ∧
      ∀ fuel, valueFrom fuel behind = valueFrom fuel t := by
  cases depth with
  | none => exact ⟨t, rfl, fun _ => rfl⟩
  | some depth => exact ⟨' ' :: t, rfl, fun fuel => valueFrom_space fuel t⟩

/-- One member is read up to the sign behind it, which says whether another follows. -/
theorem membersFrom_member {value : Json} (rendered : Rendered value) {depth inner : Option Nat}
    {fuel : Nat} (enough : 2 * (render inner value).length ≤ fuel) {tail : Text}
    (stops : Stops inNumber tail) (key : String) :
    (∀ rest, dropSpaces tail = '}' :: rest →
      membersFrom (fuel + 2) (quoted key ++ (colon depth ++ (render inner value ++ tail))) =
        ([(key, value)], none, some rest)) ∧
    ∀ t c next, dropSpaces tail = ',' :: t → dropSpaces t = c :: next →
      membersFrom (fuel + 2) (quoted key ++ (colon depth ++ (render inner value ++ tail))) =
        ((key, value) :: (membersFrom fuel (c :: next)).1, (membersFrom fuel (c :: next)).2) := by
  have here := rendered inner fuel tail enough stops
  obtain ⟨t, start, read⟩ := stringFrom_quoted_key key (colon depth ++ (render inner value ++ tail))
  obtain ⟨behind, sign, same⟩ := exists_colon depth (render inner value ++ tail)
  rw [start]
  constructor
  · intro rest closing
    simp [membersFrom, memberFrom, read, sign, same, here, closing]
  · intro t c next comma more
    simp [membersFrom, memberFrom, read, sign, same, here, comma, more]

theorem membersFrom_rendered {key : String} {value : Json} {members : List (String × Json)}
    (depth : Option Nat) {fuel : Nat}
    (rendered : ∀ other ∈ (key, value) :: members, Rendered other.2)
    (enough : 2 * ((quoted key).length + (colon depth).length +
      (render (depth.map (· + 1)) value).length + (renderMembers depth members).length) ≤ fuel)
    (rest : Text) :
    membersFrom fuel (quoted key ++ (colon depth ++ (render (depth.map (· + 1)) value ++
      (renderMembers depth members ++ rest)))) = ((key, value) :: members, none, some rest) := by
  induction members generalizing key value fuel with
  | nil =>
    simp only [renderMembers, quoted, List.length_append, List.length_cons] at enough
    obtain ⟨fuel, rfl⟩ : ∃ less, fuel = less + 2 := ⟨fuel - 2, by omega⟩
    have closing : dropSpaces (renderMembers depth [] ++ rest) = '}' :: rest := by
      rw [renderMembers, List.append_assoc]
      exact dropSpaces_newLine depth (stops_cons (by decide) _)
    have rendered : Rendered value := rendered (key, value) (by simp)
    have step := @membersFrom_member value rendered depth (depth.map (· + 1)) fuel (by omega) _
      (stops_renderMembers depth [] rest) key
    exact step.1 rest closing
  | cons next members ih =>
    simp only [renderMembers, quoted, List.length_append, List.length_cons] at enough
    obtain ⟨fuel, rfl⟩ : ∃ less, fuel = less + 2 := ⟨fuel - 2, by omega⟩
    have later := @ih next.1 next.2 fuel
      (fun other inside => rendered other (List.mem_cons_of_mem _ inside))
      (by simp only [quoted, List.length_append, List.length_cons]; omega)
    obtain ⟨t, start, -⟩ := stringFrom_quoted_key next.1
      (colon depth ++ (render (depth.map (· + 1)) next.2 ++ (renderMembers depth members ++ rest)))
    have comma : dropSpaces (renderMembers depth (next :: members) ++ rest) =
        ',' :: (newLine (depth.map (· + 1)) ++ '"' :: t) := by
      rw [← start, renderMembers]
      simp [dropSpaces, isSpace]
    have opening : dropSpaces (newLine (depth.map (· + 1)) ++ '"' :: t) = '"' :: t :=
      dropSpaces_newLine _ (stops_cons (by decide) _)
    have rendered : Rendered value := rendered (key, value) (by simp)
    have step := @membersFrom_member value rendered depth (depth.map (· + 1)) fuel (by omega) _
      (stops_renderMembers depth (next :: members) rest) key
    rw [step.2 _ _ _ comma opening, ← start, later]

theorem Sound.rendered {j : Json} (sound : Sound j) : Rendered j := by
  induction sound with
  | null =>
    intro depth fuel rest enough stops
    obtain ⟨fuel, rfl⟩ := Sound.null.exists_fuel enough
    simp [render, valueFrom, dropSpaces, isSpace, named, word]
  | bool b =>
    intro depth fuel rest enough stops
    obtain ⟨fuel, rfl⟩ := (Sound.bool b).exists_fuel enough
    cases b <;> simp [render, valueFrom, dropSpaces, isSpace, named, word]
  | number back =>
    intro depth fuel rest enough stops
    obtain ⟨fuel, rfl⟩ := (Sound.number back).exists_fuel enough
    exact valueFrom_number back stops fuel
  | string s =>
    intro depth fuel rest enough stops
    obtain ⟨fuel, rfl⟩ := (Sound.string s).exists_fuel enough
    obtain ⟨t, start, read⟩ := stringFrom_quoted_key s rest
    rw [render, start]
    simp [valueFrom, dropSpaces, isSpace, stringValue, read]
  | @list items each ih =>
    intro depth fuel rest enough stops
    obtain ⟨fuel, rfl⟩ := (Sound.list each).exists_fuel enough
    cases items with
    | nil => simp [Json.list, render, valueFrom, dropSpaces, isSpace]
    | cons item items =>
      simp only [Json.list, render, List.length_append, List.length_cons] at enough
      have inside := @itemsFrom_rendered item items depth fuel
        (fun other member => ⟨each other member, ih other member⟩) (by omega) rest
      obtain ⟨c, t, start, solid, other⟩ := (each item (by simp)).exists_cons (depth.map (· + 1))
        (renderItems depth items ++ rest)
      have opening : dropSpaces (newLine (depth.map (· + 1)) ++ (c :: t)) = c :: t :=
        dropSpaces_newLine _ solid
      have split : render depth (.list (item :: items)) ++ rest =
          '[' :: (newLine (depth.map (· + 1)) ++ (c :: t)) := by
        rw [← start]
        simp [Json.list, render]
      rw [split, valueFrom_array opening other, ← start, inside]
      rfl
  | @record members each ih =>
    intro depth fuel rest enough stops
    obtain ⟨fuel, rfl⟩ := (Sound.record each).exists_fuel enough
    cases members with
    | nil => simp [Json.record, render, valueFrom, dropSpaces, isSpace]
    | cons member members =>
      simp only [Json.record, render, List.length_append, List.length_cons] at enough
      have inside := @membersFrom_rendered member.1 member.2 members depth fuel ih (by omega) rest
      obtain ⟨t, start, -⟩ := stringFrom_quoted_key member.1
        (colon depth ++ (render (depth.map (· + 1)) member.2 ++
          (renderMembers depth members ++ rest)))
      have opening : dropSpaces (newLine (depth.map (· + 1)) ++ ('"' :: t)) = '"' :: t :=
        dropSpaces_newLine _ (stops_cons (by decide) _)
      have split : render depth (.record (member :: members)) ++ rest =
          '{' :: (newLine (depth.map (· + 1)) ++ ('"' :: t)) := by
        rw [← start]
        simp [Json.record, render]
      rw [split, valueFrom_object opening (by decide), ← start, inside]
      rfl

theorem read_render {j : Json} (sound : Sound j) (depth : Option Nat) :
    read (render depth j) = (j, some []) := by
  have whole := sound.rendered depth (2 * (render depth j).length + 2) [] (by omega) (stops_nil _)
  rwa [List.append_nil] at whole

end Json

end CraftScript
