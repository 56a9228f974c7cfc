import CraftScript.Comment
import Mathlib.Data.List.Infix

/-! Texts as their outermost comments part them. What a comment is is said by counting signs as they
are met from left to right. Each text is parted in one way only, and stripping keeps the runs between
the comments and nothing else. -/
namespace CraftScript.Comment

inductive Sign where
  | opens
  | closes
  | other (c : Char)
deriving DecidableEq, Repr

def signs : Text → List Sign
  | [] => []
  | '/' :: '*' :: t => .opens :: signs t
  | '*' :: '/' :: t => .closes :: signs t
  | c :: t => .other c :: signs t

/-- Inside `depth` open comments, the last of the signs closes the outermost one. -/
structure Ends (depth : Nat) (read : List Sign) : Prop where
  within : ∀ front, front <+: read → front ≠ read → front.count .closes < depth + front.count .opens
  level : read.count .closes = depth + read.count .opens

def Stays (depth : Nat) (read : List Sign) : Prop :=
  ∀ front, front <+: read → front.count .closes < depth + front.count .opens

theorem ends_zero {read : List Sign} : Ends 0 read ↔ read = [] := by
  constructor
  · intro ends
    by_contra nonempty
    have start := ends.within [] List.nil_prefix (Ne.symm nonempty)
    simp at start
  · rintro rfl
    exact ⟨fun front inside short => absurd (List.prefix_nil.mp inside) short, by simp⟩

theorem not_ends_nil (depth : Nat) : ¬ Ends (depth + 1) [] := by
  intro ends
  have level := ends.level
  simp at level

theorem not_stays_zero (read : List Sign) : ¬ Stays 0 read := by
  intro stays
  have start := stays [] List.nil_prefix
  simp at start

private theorem ends_step {before after : Nat} {sign : Sign} {read : List Sign} (begun : 0 < before)
    (same : ∀ front : List Sign, (sign :: front).count .closes + after + front.count .opens =
      before + (sign :: front).count .opens + front.count .closes) :
    Ends before (sign :: read) ↔ Ends after read := by
  constructor
  · intro ends
    refine ⟨fun front inside short => ?_, ?_⟩
    · have bound := ends.within (sign :: front) (List.cons_prefix_cons.mpr ⟨rfl, inside⟩) (by simpa)
      have counts := same front
      omega
    · have level := ends.level
      have counts := same read
      omega
  · intro ends
    refine ⟨fun front inside short => ?_, ?_⟩
    · rcases List.prefix_cons_iff.mp inside with rfl | ⟨rest, rfl, inside⟩
      · simpa using begun
      · have bound := ends.within rest (List.cons_prefix_cons.mp inside).2 (by simpa using short)
        have counts := same rest
        omega
    · have level := ends.level
      have counts := same read
      omega

private theorem stays_step {before after : Nat} {sign : Sign} {read : List Sign} (begun : 0 < before)
    (same : ∀ front : List Sign, (sign :: front).count .closes + after + front.count .opens =
      before + (sign :: front).count .opens + front.count .closes) :
    Stays before (sign :: read) ↔ Stays after read := by
  constructor
  · intro stays front inside
    have bound := stays (sign :: front) (List.cons_prefix_cons.mpr ⟨rfl, inside⟩)
    have counts := same front
    omega
  · intro stays front inside
    rcases List.prefix_cons_iff.mp inside with rfl | ⟨rest, rfl, inside⟩
    · simpa using begun
    · have bound := stays rest (List.cons_prefix_cons.mp inside).2
      have counts := same rest
      omega

private theorem counts_opens (depth : Nat) (front : List Sign) :
    (Sign.opens :: front).count .closes + (depth + 1) + front.count .opens =
      depth + (Sign.opens :: front).count .opens + front.count .closes := by
  simp
  omega

private theorem counts_closes (depth : Nat) (front : List Sign) :
    (Sign.closes :: front).count .closes + depth + front.count .opens =
      depth + 1 + (Sign.closes :: front).count .opens + front.count .closes := by
  simp
  omega

private theorem counts_other (depth : Nat) (c : Char) (front : List Sign) :
    (Sign.other c :: front).count .closes + depth + front.count .opens =
      depth + (Sign.other c :: front).count .opens + front.count .closes := by
  simp
  omega

theorem ends_opens (depth : Nat) (read : List Sign) :
    Ends (depth + 1) (.opens :: read) ↔ Ends (depth + 2) read :=
  ends_step (by simp) (counts_opens _)

theorem ends_closes (depth : Nat) (read : List Sign) :
    Ends (depth + 1) (.closes :: read) ↔ Ends depth read :=
  ends_step (by simp) (counts_closes _)

theorem ends_other (depth : Nat) (c : Char) (read : List Sign) :
    Ends (depth + 1) (.other c :: read) ↔ Ends (depth + 1) read :=
  ends_step (by simp) (counts_other _ c)

theorem stays_opens (depth : Nat) (read : List Sign) :
    Stays (depth + 1) (.opens :: read) ↔ Stays (depth + 2) read :=
  stays_step (by simp) (counts_opens _)

theorem stays_closes (depth : Nat) (read : List Sign) :
    Stays (depth + 1) (.closes :: read) ↔ Stays depth read :=
  stays_step (by simp) (counts_closes _)

theorem stays_other (depth : Nat) (c : Char) (read : List Sign) :
    Stays (depth + 1) (.other c :: read) ↔ Stays (depth + 1) read :=
  stays_step (by simp) (counts_other _ c)

theorem signs_other {c : Char} {t : Text} (notOpen : ∀ tail, c = '/' → t ≠ '*' :: tail)
    (notClose : ∀ tail, c = '*' → t ≠ '/' :: tail) : signs (c :: t) = .other c :: signs t := by
  rw [signs]
  · exact fun tail slash star => notOpen tail slash star
  · exact fun tail star slash => notClose tail star slash

theorem eq_nil_of_signs {t : Text} (signless : signs t = []) : t = [] := by
  fun_cases signs t with
  | case1 => rfl
  | case2 | case3 => simp [signs] at signless
  | case4 c t notOpen notClose => simp [signs_other notOpen notClose] at signless

def endFrom? : (depth : Nat) → Text → Option (Text × Text)
  | _, [] => none
  | depth, '/' :: '*' :: t =>
    (endFrom? (depth + 1) t).map fun (inside, rest) => ('/' :: '*' :: inside, rest)
  | 0, '*' :: '/' :: t => some (['*', '/'], t)
  | depth + 1, '*' :: '/' :: t =>
    (endFrom? depth t).map fun (inside, rest) => ('*' :: '/' :: inside, rest)
  | depth, c :: t => (endFrom? depth t).map fun (inside, rest) => (c :: inside, rest)

private theorem map_sign_iff {before after : Nat} {c d : Char} {sign : Sign} {t inside rest : Text}
    {ended : Option (Text × Text)} (here : ∀ t, signs (c :: d :: t) = sign :: signs t)
    (alone : signs [c] = [.other c])
    (ends : ∀ read, Ends (before + 1) (sign :: read) ↔ Ends after read)
    (found : ∀ inner, ended = some (inner, rest) ↔ t = inner ++ rest ∧ Ends after (signs inner)) :
    ended.map (fun (inner, rest) => (c :: d :: inner, rest)) = some (inside, rest) ↔
      c :: d :: t = inside ++ rest ∧ Ends (before + 1) (signs inside) := by
  constructor
  · intro mapped
    obtain ⟨⟨inner, behind⟩, same, pair⟩ := Option.map_eq_some_iff.mp mapped
    obtain ⟨rfl, rfl⟩ := Prod.mk.inj pair
    obtain ⟨rfl, inner⟩ := (found _).mp same
    exact ⟨rfl, by rw [here]; exact (ends _).mpr inner⟩
  · intro split
    obtain ⟨whole, endsHere⟩ := split
    match inside with
    | [] => exact absurd endsHere (not_ends_nil before)
    | [e] =>
      obtain ⟨rfl, -⟩ := List.cons.inj whole
      rw [alone, ends_other] at endsHere
      exact absurd endsHere (not_ends_nil before)
    | e :: f :: inner =>
      obtain ⟨rfl, second⟩ := List.cons.inj whole
      obtain ⟨rfl, behind⟩ := List.cons.inj second
      rw [here, ends] at endsHere
      rw [(found inner).mpr ⟨behind, endsHere⟩]
      rfl

/-- The search ends where the outermost comment does, and nowhere else. -/
theorem endFrom?_eq_some_iff {depth : Nat} {t inside rest : Text} :
    endFrom? depth t = some (inside, rest) ↔
      t = inside ++ rest ∧ Ends (depth + 1) (signs inside) := by
  fun_induction endFrom? depth t generalizing inside with
  | case1 depth =>
    constructor
    · simp
    · intro split
      obtain ⟨whole, ends⟩ := split
      obtain ⟨rfl, -⟩ := List.append_eq_nil_iff.mp whole.symm
      exact absurd ends (not_ends_nil depth)
  | case2 depth t ih => exact map_sign_iff (fun t => rfl) rfl (ends_opens depth) (fun _ => ih)
  | case3 t =>
    have closed : ∀ inner, some (([] : Text), t) = some (inner, rest) ↔
        t = inner ++ rest ∧ Ends 0 (signs inner) := by
      intro inner
      rw [ends_zero]
      constructor
      · intro same
        obtain ⟨rfl, rfl⟩ := Prod.mk.inj (Option.some.inj same)
        exact ⟨rfl, rfl⟩
      · intro split
        obtain rfl := eq_nil_of_signs split.2
        rw [split.1]
        rfl
    exact map_sign_iff (fun t => rfl) rfl (ends_closes 0) closed
  | case4 depth t ih => exact map_sign_iff (fun t => rfl) rfl (ends_closes _) (fun _ => ih)
  | case5 depth c t notOpen notLast notClose ih =>
    have closes : ∀ tail, c = '*' → t ≠ '/' :: tail := by
      intro tail star slash
      cases depth with
      | zero => exact notLast tail rfl star slash
      | succ depth => exact notClose depth tail rfl star slash
    constructor
    · intro mapped
      obtain ⟨⟨inner, behind⟩, same, pair⟩ := Option.map_eq_some_iff.mp mapped
      obtain ⟨rfl, rfl⟩ := Prod.mk.inj pair
      obtain ⟨rfl, inner⟩ := ih.mp same
      rw [signs_other, ends_other]
      · exact ⟨rfl, inner⟩
      · exact fun tail slash star => notOpen (tail ++ behind) slash (by rw [star]; rfl)
      · exact fun tail star slash => closes (tail ++ behind) star (by rw [slash]; rfl)
    · intro split
      obtain ⟨whole, ends⟩ := split
      cases inside with
      | nil => exact absurd ends (not_ends_nil depth)
      | cons d inner =>
        obtain ⟨rfl, rfl⟩ := List.cons.inj whole
        rw [signs_other, ends_other] at ends
        · rw [ih.mpr ⟨rfl, ends⟩]
          rfl
        · exact fun tail slash star => notOpen (tail ++ rest) slash (by rw [star]; rfl)
        · exact fun tail star slash => closes (tail ++ rest) star (by rw [slash]; rfl)

theorem endFrom?_eq_none_iff {depth : Nat} {t : Text} :
    endFrom? depth t = none ↔ Stays (depth + 1) (signs t) := by
  fun_induction endFrom? depth t with
  | case1 depth =>
    simp only [true_iff, signs]
    intro front inside
    rw [List.prefix_nil.mp inside]
    simp
  | case2 depth t ih => rw [Option.map_eq_none_iff, ih, signs, stays_opens]
  | case3 t =>
    rw [signs, stays_closes]
    simpa using not_stays_zero (signs t)
  | case4 depth t ih => rw [Option.map_eq_none_iff, ih, signs, stays_closes]
  | case5 depth c t notOpen notLast notClose ih =>
    have closes : ∀ tail, c = '*' → t ≠ '/' :: tail := by
      intro tail star slash
      cases depth with
      | zero => exact notLast tail rfl star slash
      | succ depth => exact notClose depth tail rfl star slash
    rw [Option.map_eq_none_iff, ih, signs_other notOpen closes, stays_other]

theorem closes_of_ends {depth : Nat} {t : Text} (ends : Ends (depth + 1) (signs t)) :
    ['*', '/'] <:+ t := by
  fun_induction signs t generalizing depth with
  | case1 => exact absurd ends (not_ends_nil depth)
  | case2 t ih =>
    rw [ends_opens] at ends
    exact (ih ends).trans (List.suffix_append ['/', '*'] t)
  | case3 t ih =>
    rw [ends_closes] at ends
    cases depth with
    | zero =>
      obtain rfl := eq_nil_of_signs (ends_zero.mp ends)
      exact List.suffix_rfl
    | succ depth => exact (ih ends).trans (List.suffix_append ['*', '/'] t)
  | case4 c t notOpen notClose ih =>
    rw [ends_other] at ends
    exact (ih ends).trans (List.suffix_cons c t)

/-- A whole comment: as many signs open as close at its end, and at no earlier place behind its
first sign. -/
structure IsRegion (region : Text) : Prop where
  starts : ['/', '*'] <+: region
  ends : ['*', '/'] <:+ region
  level : (signs region).count .opens = (signs region).count .closes
  first : ∀ front, front <+: signs region → front ≠ [] → front ≠ signs region →
    front.count .opens ≠ front.count .closes

structure IsOpen (tail : Text) : Prop where
  starts : ['/', '*'] <+: tail
  stays : ∀ front, front <+: signs tail → front ≠ [] → front.count .opens ≠ front.count .closes

/-- Counts that start with an opening sign and never meet have not crossed either. -/
theorem closes_lt_opens {read : List Sign}
    (apart : ∀ front, front <+: .opens :: read → front ≠ [] →
      front.count .opens ≠ front.count .closes) :
    read.count .closes < 1 + read.count .opens := by
  induction read using List.reverseRecOn with
  | nil => simp
  | append_singleton read sign ih =>
    have earlier := ih fun front inside =>
      apart front (inside.trans (List.prefix_append (.opens :: read) [sign]))
    have here := apart (.opens :: (read ++ [sign])) List.prefix_rfl (by simp)
    cases sign with
    | opens => simp at here ⊢; omega
    | closes => simp at here ⊢; omega
    | other c => simpa using earlier

theorem isRegion_iff {region : Text} :
    IsRegion region ↔ ∃ inside, region = '/' :: '*' :: inside ∧ Ends 1 (signs inside) := by
  constructor
  · intro isRegion
    obtain ⟨inside, rfl⟩ := isRegion.starts
    refine ⟨inside, rfl, ⟨fun front before short => ?_, ?_⟩⟩
    · apply closes_lt_opens
      intro front' before' nonempty
      have within := before'.trans (List.cons_prefix_cons.mpr ⟨rfl, before⟩)
      apply isRegion.first front' within nonempty
      rintro rfl
      exact short (before.eq_of_length_le (List.cons_prefix_cons.mp before').2.length_le)
    · have level := isRegion.level
      simp [signs] at level
      omega
  · rintro ⟨inside, rfl, ends⟩
    refine ⟨List.prefix_append _ inside, ?_, ?_, fun front before nonempty short => ?_⟩
    · exact (closes_of_ends ends).trans (List.suffix_append ['/', '*'] inside)
    · have level := ends.level
      simp [signs]
      omega
    · rcases List.prefix_cons_iff.mp before with rfl | ⟨rest, rfl, inner⟩
      · contradiction
      · have bound := ends.within rest inner fun same => short (by rw [same]; rfl)
        simp
        omega

theorem isOpen_iff {tail : Text} :
    IsOpen tail ↔ ∃ inside, tail = '/' :: '*' :: inside ∧ Stays 1 (signs inside) := by
  constructor
  · intro isOpen
    obtain ⟨inside, rfl⟩ := isOpen.starts
    refine ⟨inside, rfl, fun front before => ?_⟩
    apply closes_lt_opens
    intro front' before'
    exact isOpen.stays front' (before'.trans (List.cons_prefix_cons.mpr ⟨rfl, before⟩))
  · rintro ⟨inside, rfl, stays⟩
    refine ⟨List.prefix_append _ inside, fun front before nonempty => ?_⟩
    rcases List.prefix_cons_iff.mp before with rfl | ⟨rest, rfl, inner⟩
    · contradiction
    · have bound := stays rest inner
      simp
      omega

/-- A text as its outermost comments part it: runs that are kept, whole comments between them, and at
the end perhaps a comment that stays open. -/
inductive Parting where
  | last (run : Text)
  | unclosed (run tail : Text)
  | closed (run region : Text) (rest : Parting)
deriving DecidableEq, Repr

namespace Parting

def runs : Parting → List Text
  | last run => [run]
  | unclosed run _ => [run]
  | closed run _ rest => run :: rest.runs

def regions : Parting → List Text
  | last _ => []
  | unclosed _ _ => []
  | closed _ region rest => region :: rest.regions

def unclosed? : Parting → Option Text
  | last _ => none
  | unclosed _ tail => some tail
  | closed _ _ rest => rest.unclosed?

def before : Parting → Text
  | last run => run
  | unclosed run _ => run
  | closed run region rest => run ++ (region ++ rest.before)

def source (parting : Parting) : Text :=
  parting.before ++ parting.unclosed?.getD []

structure Sound (parting : Parting) : Prop where
  runs : ∀ run ∈ parting.runs, ¬ ['/', '*'] <:+: run
  regions : ∀ region ∈ parting.regions, IsRegion region
  unclosed : ∀ tail ∈ parting.unclosed?, IsOpen tail

theorem sound_closed {run region : Text} {rest : Parting} :
    (closed run region rest).Sound ↔
      ¬ ['/', '*'] <:+: run ∧ IsRegion region ∧ rest.Sound := by
  constructor
  · intro sound
    refine ⟨sound.runs run (by simp [Parting.runs]), sound.regions region (by simp [Parting.regions]),
      fun other member => ?_, fun other member => ?_, sound.unclosed⟩
    · exact sound.runs other (by simp [Parting.runs, member])
    · exact sound.regions other (by simp [Parting.regions, member])
  · rintro ⟨free, isRegion, sound⟩
    refine ⟨fun other member => ?_, fun other member => ?_, sound.unclosed⟩
    · rcases List.mem_cons.mp member with rfl | later
      · exact free
      · exact sound.runs other later
    · rcases List.mem_cons.mp member with rfl | later
      · exact isRegion
      · exact sound.regions other later

theorem source_closed (run region : Text) (rest : Parting) :
    (closed run region rest).source = run ++ (region ++ rest.source) := by
  simp [source, before, unclosed?]

def Follows (behind : Text) : Prop :=
  behind = [] ∨ ['/', '*'] <+: behind

theorem Follows.ne_star {behind rest : Text} (follows : Follows behind) : behind ≠ '*' :: rest := by
  rintro rfl
  rcases follows with empty | starts
  · contradiction
  · simp at starts

/-- Where the first comment begins is settled by the text alone. -/
theorem run_unique {run run' behind behind' : Text} (free : ¬ ['/', '*'] <:+: run)
    (free' : ¬ ['/', '*'] <:+: run') (follows : Follows behind) (follows' : Follows behind')
    (same : run ++ behind = run' ++ behind') : run = run' ∧ behind = behind' := by
  have never {c : Char} {run behind behind' : Text} (free : ¬ ['/', '*'] <:+: c :: run)
      (follows : Follows behind) (follows' : Follows behind') : behind' ≠ c :: run ++ behind := by
    rintro rfl
    rcases follows' with empty | starts
    · contradiction
    · obtain ⟨rfl, star⟩ := List.cons_prefix_cons.mp starts
      cases run with
      | nil =>
        obtain ⟨tail, split⟩ := star
        exact follows.ne_star split.symm
      | cons d run =>
        obtain ⟨rfl, -⟩ := List.cons_prefix_cons.mp star
        exact free (List.prefix_append ['/', '*'] run).isInfix
  induction run generalizing run' with
  | nil =>
    cases run' with
    | nil => exact ⟨rfl, same⟩
    | cons c run' => exact absurd same (never free' follows' follows)
  | cons c run ih =>
    cases run' with
    | nil => exact absurd same.symm (never free follows follows')
    | cons d run' =>
      obtain ⟨rfl, tail⟩ := List.cons.inj same
      have inner (t : Text) (free : ¬ ['/', '*'] <:+: c :: t) : ¬ ['/', '*'] <:+: t :=
        fun found => free (found.trans (List.suffix_cons c t).isInfix)
      obtain ⟨rfl, rest⟩ := ih (inner run free) (inner run' free') tail
      exact ⟨rfl, rest⟩

theorem exists_end {region : Text} (isRegion : IsRegion region) :
    ∃ inside, region = '/' :: '*' :: inside ∧
      ∀ rest, endFrom? 0 (inside ++ rest) = some (inside, rest) := by
  obtain ⟨inside, rfl, ends⟩ := isRegion_iff.mp isRegion
  exact ⟨inside, rfl, fun rest => endFrom?_eq_some_iff.mpr ⟨rfl, ends⟩⟩

theorem exists_no_end {tail : Text} (isOpen : IsOpen tail) :
    ∃ inside, tail = '/' :: '*' :: inside ∧ endFrom? 0 inside = none := by
  obtain ⟨inside, rfl, stays⟩ := isOpen_iff.mp isOpen
  exact ⟨inside, rfl, endFrom?_eq_none_iff.mpr stays⟩

theorem region_unique {region region' rest rest' : Text} (isRegion : IsRegion region)
    (isRegion' : IsRegion region') (same : region ++ rest = region' ++ rest') :
    region = region' ∧ rest = rest' := by
  obtain ⟨inside, rfl, ended⟩ := exists_end isRegion
  obtain ⟨inside', rfl, ended'⟩ := exists_end isRegion'
  have inner : inside ++ rest = inside' ++ rest' := by simpa using same
  have found := ended rest
  rw [inner, ended' rest', Option.some.injEq, Prod.mk.injEq] at found
  obtain ⟨rfl, rfl⟩ := found
  exact ⟨rfl, rfl⟩

theorem not_isOpen_append {region : Text} (isRegion : IsRegion region) (rest : Text) :
    ¬ IsOpen (region ++ rest) := by
  intro isOpen
  obtain ⟨inside, rfl, ended⟩ := exists_end isRegion
  obtain ⟨inside', same, unended⟩ := exists_no_end isOpen
  have inner : inside ++ rest = inside' := by simpa using same
  rw [← inner, ended] at unended
  contradiction

def first : Parting → Text
  | last run => run
  | unclosed run _ => run
  | closed run _ _ => run

def behind : Parting → Text
  | last _ => []
  | unclosed _ tail => tail
  | closed _ region rest => region ++ rest.source

theorem source_eq (parting : Parting) : parting.source = parting.first ++ parting.behind := by
  cases parting with
  | last run => rfl
  | unclosed run tail => rfl
  | closed run region rest => exact source_closed run region rest

theorem Sound.first {parting : Parting} (sound : parting.Sound) :
    ¬ ['/', '*'] <:+: parting.first := by
  apply sound.runs
  cases parting <;> simp [Parting.first, Parting.runs]

theorem Sound.follows {parting : Parting} (sound : parting.Sound) : Follows parting.behind := by
  cases parting with
  | last run => exact .inl rfl
  | unclosed run tail => exact .inr (sound.unclosed tail rfl).starts
  | closed run region rest =>
    have isRegion := sound.regions region (by simp [Parting.regions])
    exact .inr (isRegion.starts.trans (List.prefix_append region rest.source))

theorem eq_of_source {parting other : Parting} (sound : parting.Sound) (sound' : other.Sound)
    (same : parting.source = other.source) : parting = other := by
  induction parting generalizing other with
  | last run =>
    rw [source_eq, source_eq] at same
    obtain ⟨rfl, behind⟩ := run_unique sound.first sound'.first sound.follows sound'.follows same
    cases other with
    | last run' => rfl
    | unclosed run' tail =>
      have starts := (sound'.unclosed tail rfl).starts
      rw [show tail = [] from behind.symm] at starts
      simp at starts
    | closed run' region rest =>
      have starts := (sound_closed.mp sound').2.1.starts
      rw [(List.append_eq_nil_iff.mp behind.symm).1] at starts
      simp at starts
  | unclosed run tail =>
    have isOpen := sound.unclosed tail rfl
    rw [source_eq, source_eq] at same
    obtain ⟨rfl, behind⟩ := run_unique sound.first sound'.first sound.follows sound'.follows same
    cases other with
    | last run' =>
      rw [show tail = [] from behind] at isOpen
      exact absurd isOpen.starts (by simp)
    | unclosed run' tail' => rw [show tail = tail' from behind]; rfl
    | closed run' region rest =>
      rw [show tail = region ++ rest.source from behind] at isOpen
      exact absurd isOpen (not_isOpen_append (sound_closed.mp sound').2.1 _)
  | closed run region rest ih =>
    obtain ⟨-, isRegion, restSound⟩ := sound_closed.mp sound
    rw [source_eq, source_eq] at same
    obtain ⟨rfl, behind⟩ := run_unique sound.first sound'.first sound.follows sound'.follows same
    cases other with
    | last run' =>
      rw [(List.append_eq_nil_iff.mp behind).1] at isRegion
      exact absurd isRegion.starts (by simp)
    | unclosed run' tail =>
      have isOpen := sound'.unclosed tail rfl
      rw [show tail = region ++ rest.source from behind.symm] at isOpen
      exact absurd isOpen (not_isOpen_append isRegion _)
    | closed run' region' rest' =>
      obtain ⟨-, isRegion', restSound'⟩ := sound_closed.mp sound'
      obtain ⟨rfl, later⟩ := region_unique isRegion isRegion' behind
      rw [ih restSound restSound' later]
      rfl

theorem exists_run (t : Text) :
    ∃ run behind, t = run ++ behind ∧ ¬ ['/', '*'] <:+: run ∧ Follows behind := by
  by_cases found : ['/', '*'] <:+: t
  · induction t with
    | nil => simp at found
    | cons c t ih =>
      by_cases here : ['/', '*'] <+: c :: t
      · exact ⟨[], c :: t, rfl, by simp, .inr here⟩
      · have later := (List.infix_cons_iff.mp found).resolve_left here
        obtain ⟨run, behind, rfl, free, follows⟩ := ih later
        refine ⟨c :: run, behind, rfl, fun inside => ?_, follows⟩
        rcases List.infix_cons_iff.mp inside with start | inside
        · exact here (start.trans (List.prefix_append (c :: run) behind))
        · exact free inside
  · exact ⟨t, [], (List.append_nil t).symm, found, .inl rfl⟩

theorem exists_sound (t : Text) : ∃ parting : Parting, parting.source = t ∧ parting.Sound := by
  induction size : t.length using Nat.strong_induction_on generalizing t with
  | _ n ih =>
    obtain ⟨run, behind, rfl, free, rfl | ⟨inside, rfl⟩⟩ := exists_run t
    · exact ⟨last run, by simp [source, before, unclosed?], by simpa [runs] using free,
        by simp [regions], by simp [unclosed?]⟩
    · cases ended : endFrom? 0 inside with
      | none =>
        have isOpen := isOpen_iff.mpr ⟨inside, rfl, endFrom?_eq_none_iff.mp ended⟩
        exact ⟨unclosed run ('/' :: '*' :: inside), rfl, by simpa [runs] using free,
          by simp [regions], by simpa [unclosed?] using isOpen⟩
      | some found =>
        obtain ⟨inner, rest⟩ := found
        obtain ⟨rfl, ends⟩ := endFrom?_eq_some_iff.mp ended
        obtain ⟨parting, whole, sound⟩ := ih rest.length (by simp at size; omega) rest rfl
        refine ⟨closed run ('/' :: '*' :: inner) parting, ?_, sound_closed.mpr ⟨free, ?_, sound⟩⟩
        · rw [source_closed, whole]
          rfl
        · exact isRegion_iff.mpr ⟨inner, rfl, ends⟩

theorem exists_only (t : Text) :
    ∃ parting : Parting, ∀ other : Parting, other.source = t ∧ other.Sound ↔ other = parting := by
  obtain ⟨parting, rfl, sound⟩ := exists_sound t
  refine ⟨parting, fun other => ⟨fun parts => eq_of_source parts.2 sound parts.1, fun same => ?_⟩⟩
  rw [same]
  exact ⟨rfl, sound⟩

end Parting

theorem byteSize_opens (t : Text) : Text.byteSize ('/' :: '*' :: t) = 2 + t.byteSize := by
  have sizes : '/'.utf8Size = 1 ∧ '*'.utf8Size = 1 := by decide
  simp only [Text.byteSize, sizes]
  omega

theorem byteSize_closes (t : Text) : Text.byteSize ('*' :: '/' :: t) = 2 + t.byteSize := by
  have sizes : '/'.utf8Size = 1 ∧ '*'.utf8Size = 1 := by decide
  simp only [Text.byteSize, sizes]
  omega

theorem stripFrom_inside (depth opened offset : Nat) (t : Text) :
    stripFrom (depth + 1) opened offset t = (endFrom? depth t).elim ⟨[], some opened⟩
      fun (inside, rest) => stripFrom 0 opened (offset + inside.byteSize) rest := by
  fun_induction endFrom? depth t generalizing offset with
  | case1 depth => rfl
  | case2 depth t ih =>
    rw [stripFrom, ih]
    cases endFrom? (depth + 1) t <;> simp [byteSize_opens, ← Nat.add_assoc]
  | case3 t =>
    have two : Text.byteSize ['*', '/'] = 2 := byteSize_closes []
    simp only [stripFrom, Option.elim_some, two]
  | case4 depth t ih =>
    rw [stripFrom, ih]
    cases endFrom? depth t <;> simp [byteSize_closes, ← Nat.add_assoc]
  | case5 depth c t notOpen notLast notClose ih =>
    rw [stripFrom, ih]
    · cases endFrom? depth t <;> simp [Text.byteSize, ← Nat.add_assoc]
    · exact notOpen
    · intro tail star slash
      cases depth with
      | zero => exact notLast tail rfl star slash
      | succ depth => exact notClose depth tail rfl star slash

theorem stripFrom_run {run behind : Text} (free : ¬ ['/', '*'] <:+: run)
    (follows : Parting.Follows behind) (opened offset : Nat) :
    stripFrom 0 opened offset (run ++ behind) =
      ⟨run ++ (stripFrom 0 opened (offset + run.byteSize) behind).text,
        (stripFrom 0 opened (offset + run.byteSize) behind).unclosedAt⟩ := by
  induction run generalizing offset with
  | nil => rfl
  | cons c run ih =>
    have later := ih (fun found => free (found.trans (List.suffix_cons c run).isInfix))
      (offset + c.utf8Size)
    rw [List.cons_append, stripFrom, later]
    · simp [Text.byteSize, Nat.add_assoc]
    · rintro tail rfl star
      cases run with
      | nil => exact follows.ne_star star
      | cons d run =>
        obtain ⟨rfl, -⟩ := List.cons.inj star
        exact free (List.prefix_append ['/', '*'] run).isInfix

namespace Parting

/-- Stripping keeps the runs, and notes where the comment begins that stays open. -/
theorem stripFrom_source {parting : Parting} (sound : parting.Sound) (opened offset : Nat) :
    stripFrom 0 opened offset parting.source = ⟨parting.runs.flatten,
      parting.unclosed?.map fun _ => offset + parting.before.byteSize⟩ := by
  induction parting generalizing opened offset with
  | last run =>
    rw [source_eq, stripFrom_run sound.first sound.follows]
    simp [behind, stripFrom, runs, unclosed?, first]
  | unclosed run tail =>
    rw [source_eq, stripFrom_run sound.first sound.follows]
    obtain ⟨inside, rfl, unended⟩ := exists_no_end (sound.unclosed tail rfl)
    simp [behind, stripFrom, stripFrom_inside, unended, runs, unclosed?, first, before]
  | closed run region rest ih =>
    obtain ⟨-, isRegion, restSound⟩ := sound_closed.mp sound
    obtain ⟨inside, rfl, ended⟩ := exists_end isRegion
    rw [source_eq, stripFrom_run sound.first sound.follows]
    simp [behind, stripFrom, stripFrom_inside, ended, ih restSound, runs, unclosed?, first, before,
      byteSize_opens, Nat.add_assoc]

theorem strip_source {parting : Parting} (sound : parting.Sound) :
    strip parting.source = ⟨parting.runs.flatten,
      parting.unclosed?.map fun _ => parting.before.byteSize⟩ := by
  rw [strip, stripFrom_source sound]
  simp only [Nat.zero_add]

theorem exists_before {parting : Parting} (sound : parting.Sound) :
    ∃ shut : Parting, shut.source = parting.before ∧ shut.Sound ∧ shut.runs = parting.runs ∧
      shut.unclosed? = none := by
  induction parting with
  | last run => exact ⟨last run, List.append_nil run, sound, rfl, rfl⟩
  | unclosed run tail =>
    exact ⟨last run, List.append_nil run, ⟨sound.runs, sound.regions, by simp [unclosed?]⟩, rfl, rfl⟩
  | closed run region rest ih =>
    obtain ⟨free, isRegion, restSound⟩ := sound_closed.mp sound
    obtain ⟨shut, whole, shutSound, kept, complete⟩ := ih restSound
    refine ⟨closed run region shut, ?_, sound_closed.mpr ⟨free, isRegion, shutSound⟩, ?_, complete⟩
    · rw [source_closed, whole, before]
    · rw [runs, runs, kept]

end Parting

/-- Each text is parted in one way. Stripping keeps its runs, one behind the other. It notes a byte
exactly when a comment that stays open begins there, and gives what it gives for the text before. -/
theorem strip_parting (t : Text) :
    ∃ parting : Parting,
      (∀ other : Parting, other.source = t ∧ other.Sound ↔ other = parting) ∧
      (strip t).text = parting.runs.flatten ∧
      (∀ k, (strip t).unclosedAt = some k ↔
        ∃ tail, parting.unclosed? = some tail ∧ t.splitBytes? k = some (parting.before, tail)) ∧
      strip parting.before = ⟨(strip t).text, none⟩ := by
  obtain ⟨parting, only⟩ := Parting.exists_only t
  obtain ⟨rfl, sound⟩ := (only parting).mpr rfl
  refine ⟨parting, only, ?_, fun k => ?_, ?_⟩
  · rw [Parting.strip_source sound]
  · rw [Parting.strip_source sound, Option.map_eq_some_iff]
    constructor
    · rintro ⟨tail, unclosed, rfl⟩
      refine ⟨tail, unclosed, ?_⟩
      rw [Parting.source, unclosed]
      exact Text.splitBytes?_append parting.before tail
    · rintro ⟨tail, unclosed, cut⟩
      exact ⟨tail, unclosed, (Text.eq_append_of_splitBytes? cut).2⟩
  · obtain ⟨shut, whole, shutSound, kept, complete⟩ := Parting.exists_before sound
    rw [← whole, Parting.strip_source shutSound, Parting.strip_source sound, kept, complete]
    rfl

example : strip "a/* /* */ */b/*/c".toList = ⟨"ab".toList, some 13⟩ := by decide

end CraftScript.Comment
