import CraftScript.Proofs.BraceMatching
import CraftScript.Proofs.RecipeLines
import CraftScript.Proofs.Restripping

/-! Recipes gathered by lines, and the blocks of brace matching. Lines are taken until the braces in
them are even, so a recipe can reach over the brace that closes its block, and over blocks that open
behind that brace on its line. What its first brace encloses is still what brace matching finds. -/
namespace CraftScript

open Text
open Canonical (unlines unlines_append)

namespace Text

def firstBrace? (t : Text) : Option Char :=
  t.find? fun c => c == '{' || c == '}'

def restOfLine (t : Text) : Text :=
  t.takeWhile (· ≠ '\n')

def nextLine (t : Text) : Text :=
  (t.dropWhile (· ≠ '\n')).drop 1

theorem exists_of_firstBrace? {t : Text} {b : Char} (first : firstBrace? t = some b) :
    ∃ lead rest, Braceless lead ∧ t = lead ++ b :: rest := by
  obtain ⟨-, lead, rest, split, free⟩ := List.find?_eq_some_iff_append.mp first
  refine ⟨lead, rest, fun c inside => ?_, split⟩
  simpa using free c inside

theorem firstBrace?_of_prefix {s t : Text} (early : s <+: t) (first : firstBrace? t = some '{')
    (opens : '{' ∈ s) : firstBrace? s = some '{' := by
  obtain ⟨rest, rfl⟩ := early
  rw [firstBrace?, List.find?_append] at first
  cases found : firstBrace? s with
  | none => exact absurd (List.find?_eq_none.mp found '{' opens) (by decide)
  | some b =>
    rw [firstBrace?] at found
    rwa [found, Option.some_or] at first

theorem newline_not_mem_restOfLine (t : Text) : '\n' ∉ t.restOfLine := by
  intro inside
  simpa using List.mem_takeWhile_imp inside

theorem restOfLine_cases (t : Text) :
    t = t.restOfLine ∧ t.nextLine = [] ∨ t = t.restOfLine ++ '\n' :: t.nextLine := by
  have parts := @List.takeWhile_append_dropWhile _ (· ≠ '\n') t
  have head := List.head?_dropWhile_not (· ≠ '\n') t
  rw [nextLine, restOfLine]
  cases dropped : t.dropWhile (· ≠ '\n') with
  | nil =>
    rw [dropped, List.append_nil] at parts
    exact .inl ⟨parts.symm, rfl⟩
  | cons c rest =>
    rw [dropped] at parts head
    obtain rfl : c = '\n' := by simpa using head
    exact .inr parts.symm

theorem lines_append_newline (a b : Text) :
    lines (a ++ '\n' :: b) = (rawLines a).map chop ++ lines b := by
  rw [lines_eq_chopLines, rawLines_newline, chopLines_append _ (splitBy_ne_nil _ b),
    ← lines_eq_chopLines]

theorem lines_append_of_ends {front : Text} (ends : front = [] ∨ front.getLast? = some '\n')
    (rest : Text) : lines (front ++ rest) = lines front ++ lines rest := by
  rcases ends with rfl | ends
  · rfl
  · obtain ⟨early, rfl⟩ : ∃ early, front = early ++ ['\n'] :=
      ⟨front.dropLast, (List.dropLast_append_getLast? '\n' ends).symm⟩
    have whole := lines_append_newline early []
    rw [List.append_assoc, List.singleton_append, lines_append_newline, whole]
    simp [lines]

theorem map_chop_rawLines {t : Text} (unreturned : '\r' ∉ t) :
    (rawLines t).map chop = rawLines t := by
  conv_rhs => rw [← List.map_id (rawLines t)]
  apply List.map_congr_left
  intro piece member
  rcases chop_cases piece with same | same
  · exact same
  · exact absurd (mem_of_mem_splitBy member (by rw [same]; simp)) unreturned

/-- Without carriage returns, lines put together again are the text, but for a newline at its end. -/
theorem unlines_lines {t : Text} (unreturned : '\r' ∉ t) :
    ∃ pad, Braceless pad ∧ unlines t.lines = t ++ pad := by
  rcases List.eq_nil_or_concat' t with rfl | ⟨front, last, rfl⟩
  · exact ⟨[], by simp [Braceless], rfl⟩
  · have unreturned' : '\r' ∉ front := fun inside => unreturned (by simp [inside])
    by_cases newline : last = '\n'
    · subst newline
      refine ⟨[], by simp [Braceless], ?_⟩
      rw [lines_append_newline, map_chop_rawLines unreturned']
      simpa [lines, unlines] using unlines_rawLines front
    · refine ⟨['\n'], by simp [Braceless], ?_⟩
      rw [lines_eq_rawLines unreturned' newline]
      exact unlines_rawLines _

theorem lines_restOfLine {front behind : Text} {c : Char} (other : c ≠ '\n')
    (unreturned : '\r' ∉ front ++ c :: behind) :
    lines (front ++ c :: behind) =
      rawLines (front ++ c :: behind.restOfLine) ++ lines behind.nextLine := by
  have single := newline_not_mem_restOfLine behind
  rcases restOfLine_cases behind with ⟨whole, ended⟩ | whole
  · obtain ⟨early, last, split⟩ : ∃ early last, front ++ c :: behind = early ++ [last] :=
      (List.eq_nil_or_concat' _).resolve_left (by simp)
    have inside : last ∈ c :: behind := by
      have ends := congrArg List.getLast? split
      rw [List.getLast?_append_of_ne_nil _ (by simp), List.getLast?_concat] at ends
      exact List.mem_of_getLast? ends
    have plain : last ≠ '\n' := by
      rintro rfl
      rcases List.mem_cons.mp inside with same | later
      · exact other same.symm
      · rw [whole] at later
        exact single later
    rw [split] at unreturned
    rw [ended, ← whole, split,
      lines_eq_rawLines (fun within => unreturned (by simp [within])) plain]
    simp [lines]
  · have unreturned' : '\r' ∉ front ++ c :: behind.restOfLine := by
      intro within
      rw [whole] at unreturned
      exact unreturned (by simpa using List.mem_append_left _ within)
    nth_rewrite 1 [whole]
    rw [← List.cons_append, ← List.append_assoc, lines_append_newline,
      map_chop_rawLines unreturned']

theorem dropBytes?_of_suffix {t rest : Text} (late : rest <:+ t) :
    dropBytes? t (byteSize t - byteSize rest) = some rest := by
  obtain ⟨front, rfl⟩ := late
  rw [byteSize_sub rfl, dropBytes?_append]

end Text

namespace Brace

/-- A text whose first brace opens has a block, once as many braces close as open. -/
theorem exists_firstBlock? {t : Text} (first : firstBrace? t = some '{')
    (even : t.count '{' ≤ t.count '}') : ∃ inside after, firstBlock? t = some (inside, after) := by
  obtain ⟨lead, rest, free, rfl⟩ := exists_of_firstBrace? first
  obtain ⟨absent, absent'⟩ := free.not_mem
  rw [firstBlock?_of_mem absent]
  cases closed : close? rest with
  | some pair => exact ⟨pair.1, pair.2, rfl⟩
  | none =>
    have bound := close?_eq_none_iff.mp closed rest List.prefix_rfl
    simp [List.count_append, List.count_eq_zero.mpr absent, List.count_eq_zero.mpr absent'] at even
    omega

theorem firstBlock?_of_prefix {s t inside after : Text} (early : s <+: t)
    (found : firstBlock? s = some (inside, after)) :
    ∃ behind, firstBlock? t = some (inside, behind) := by
  obtain ⟨rest, rfl⟩ := early
  obtain ⟨before, rfl, absent, balanced⟩ := firstBlock?_eq_some_iff.mp found
  exact ⟨after ++ rest, firstBlock?_eq_some_iff.mpr ⟨before, by simp, absent, balanced⟩⟩

end Brace

namespace RecipeSource

/-- The scan of a text starts a recipe behind `before`, where a line begins: no recipe is open there,
and the line is a recipe's head. -/
structure Starts (before here name : Text) : Prop where
  line : before = [] ∨ before.getLast? = some '\n'
  idle : (all before).issues = []
  head : here.lines.head?.bind header? = some name

theorem all_append {before : Text} (line : before = [] ∨ before.getLast? = some '\n')
    (idle : (all before).issues = []) (here : Text) :
    all (before ++ here) = ⟨(all before).value ++ (all here).value, (all here).issues⟩ := by
  have closed : (gather none before.lines).2 = none := by
    simpa [all] using idle
  simp only [all, lines_append_of_ends line, gather_append closed, unclosed_append closed]

/-- The block of a recipe is the one that brace matching finds in the text. -/
theorem body?_ofLines {here name : Text} {own rest : List Text} (unreturned : '\r' ∉ here)
    (signless : ¬ ['/', '*'] <:+: here) (opens : firstBrace? here = some '{')
    (lined : here.lines = own ++ rest) (complete : Complete own) :
    ∃ inside behind, Brace.firstBlock? here = some (inside, behind) ∧
      (ofLines name own).body? = some inside := by
  obtain ⟨pad, free, whole⟩ := unlines_lines unreturned
  have early : unlines own <+: here ++ pad := by
    rw [← whole, lined, unlines_append]
    exact List.prefix_append _ _
  have signless' : ¬ ['/', '*'] <:+: unlines own := by
    intro found
    have within : unlines own <:+: unlines here.lines := whole ▸ early.isInfix
    exact signless (isInfix_of_unlines ⟨by simp, by decide⟩ (found.trans within))
  have first : firstBrace? (here ++ pad) = some '{' := by
    rw [firstBrace?] at opens
    rw [firstBrace?, List.find?_append, opens, Option.some_or]
  have first' := firstBrace?_of_prefix early first complete.1
  obtain ⟨inside, after, found⟩ := Brace.exists_firstBlock? first' complete.2
  obtain ⟨behind, found'⟩ := Brace.firstBlock?_of_prefix early found
  have same := Brace.firstBlock?_append free here
  rw [found', Option.map_some, eq_comm, Option.map_eq_some_iff] at same
  obtain ⟨⟨inside', behind'⟩, matched, rfl⟩ := same
  refine ⟨inside', behind', matched, ?_⟩
  rw [body?, ofLines, (Comment.strip_eq_self_iff _).mpr signless', found]
  rfl

theorem not_complete_of_prefix {lead inside tail : Text} {own front : List Text}
    (free : Braceless lead) (balanced : Brace.Balanced inside) (single : '\n' ∉ tail)
    (text : unlines own = lead ++ '{' :: (inside ++ '}' :: (tail ++ ['\n'])))
    (early : front <+: own) (short : front ≠ own) : ¬ Complete front := by
  obtain ⟨later, rfl⟩ := early
  have more : unlines later ≠ [] := by
    cases later with
    | nil => simp at short
    | cons line later => simp [unlines]
  rcases List.eq_nil_or_concat' front with rfl | ⟨front, last, rfl⟩
  · exact not_complete_nil
  · have incomplete := @incomplete_front lead inside tail (unlines front ++ last) (unlines later) free
      balanced single more (by rw [← text]; simp [unlines])
    simpa [Complete, unlines] using incomplete

theorem exists_whole {here name inside behind : Text} (unreturned : '\r' ∉ here)
    (headed : here.lines.head?.bind header? = some name) (opens : firstBrace? here = some '{')
    (found : Brace.firstBlock? here = some (inside, behind)) (unopened : '{' ∉ behind.restOfLine) :
    ∃ own, IsWhole name own ∧ here.lines = own ++ behind.nextLine.lines := by
  obtain ⟨lead, rest, free, rfl⟩ := exists_of_firstBrace? opens
  obtain ⟨absent, absent'⟩ := free.not_mem
  rw [Brace.firstBlock?_of_mem absent] at found
  obtain ⟨rfl, balanced⟩ := Brace.close?_eq_some_iff.mp found
  have lined := @lines_restOfLine (lead ++ '{' :: inside) behind '}' (by decide)
    (by simpa using unreturned)
  have text := unlines_rawLines (lead ++ '{' :: inside ++ '}' :: behind.restOfLine)
  simp only [List.append_assoc, List.cons_append] at lined text
  refine ⟨_, ⟨?_, ?_, fun front early short => ?_⟩, lined⟩
  · rwa [lined, List.head?_append_of_ne_nil _ (splitBy_ne_nil _ _)] at headed
  · have total := balanced.settled
    rw [Complete, unlines, text]
    simp [List.count_append, List.count_eq_zero.mpr absent, List.count_eq_zero.mpr absent',
      List.count_eq_zero.mpr unopened]
    omega
  · exact not_complete_of_prefix free balanced (newline_not_mem_restOfLine behind) text early short

theorem all_whole {here after name : Text} {own : List Text} (whole : IsWhole name own)
    (lined : here.lines = own ++ after.lines) :
    all here = ⟨ofLines name own :: (all after).value, (all after).issues⟩ := by
  rw [all, lined, gather_whole whole]
  rfl

theorem exists_whole_of_all {here name : Text} (headed : here.lines.head?.bind header? = some name)
    {block : RecipeSource} {more : List RecipeSource} (emitted : (all here).value = block :: more) :
    ∃ own rest, here.lines = own ++ rest ∧ IsWhole name own ∧ block = ofLines name own := by
  rw [all] at emitted
  rcases complete_cases here.lines with ⟨own, rest, lined, complete, earliest⟩ | incomplete
  · have nonempty : own ≠ [] := by
      rintro rfl
      exact not_complete_nil complete
    rw [lined, List.head?_append_of_ne_nil _ nonempty] at headed
    have whole : IsWhole name own := ⟨headed, complete, earliest⟩
    rw [lined, gather_whole whole] at emitted
    obtain ⟨rfl, -⟩ := List.cons.inj emitted
    exact ⟨own, rest, lined, whole, rfl⟩
  · rw [gather_unclosed ⟨headed, incomplete⟩] at emitted
    contradiction

/-- In a text without carriage returns that opens no comment, let the scan start a recipe where the
next brace opens. If the recipe is emitted, its body is the inside of the block that brace matching
finds from its head on. If there is such a block, and none opens behind it on the line where it closes,
the recipe is emitted and the scan goes on with the next line. -/
theorem body?_eq_blockAt? {before here name : Text} (starts : Starts before here name)
    (unreturned : '\r' ∉ before ++ here) (signless : ¬ ['/', '*'] <:+: before ++ here)
    (opens : firstBrace? here = some '{') :
    (∀ block more, (all (before ++ here)).value = (all before).value ++ block :: more →
      block.name = name ∧ ∃ inside stop,
        Brace.blockAt? (before ++ here) (byteSize before) = some (inside, stop) ∧
        block.body? = some (Brace.inner (Brace.braced inside))) ∧
    ∀ inside stop, Brace.blockAt? (before ++ here) (byteSize before) = some (inside, stop) →
      ∃ behind, (before ++ here).dropBytes? stop = some behind ∧
        ('{' ∉ behind.restOfLine → ∃ block,
          all (before ++ here) = ⟨(all before).value ++ block :: (all behind.nextLine).value,
            (all behind.nextLine).issues⟩) := by
  have unreturned' : '\r' ∉ here := fun inside => unreturned (by simp [inside])
  have signless' : ¬ ['/', '*'] <:+: here :=
    fun found => signless (found.trans (List.suffix_append before here).isInfix)
  have joined := all_append starts.line starts.idle here
  constructor
  · intro block more emitted
    rw [joined, List.append_cancel_left_eq] at emitted
    obtain ⟨own, rest, lined, whole, rfl⟩ := exists_whole_of_all starts.head emitted
    obtain ⟨inside, behind, found, body⟩ :=
      @body?_ofLines here name own rest unreturned' signless' opens lined whole.complete
    refine ⟨rfl, inside, byteSize (before ++ here) - byteSize behind, ?_, ?_⟩
    · rw [Brace.blockAt?_append, found, Option.map_some]
    · rw [Bytewise.inner_braced, body]
  · intro inside stop found
    rw [Brace.blockAt?_append, Option.map_eq_some_iff] at found
    obtain ⟨⟨inside', behind⟩, found, same⟩ := found
    obtain ⟨rfl, rfl⟩ := Prod.mk.inj same
    refine ⟨behind, ?_, fun unopened => ?_⟩
    · obtain ⟨lead, rfl, -, -⟩ := Brace.firstBlock?_eq_some_iff.mp found
      exact dropBytes?_of_suffix ⟨before ++ lead ++ Brace.braced inside', by simp [Brace.braced]⟩
    · obtain ⟨own, whole, lined⟩ := exists_whole unreturned' starts.head opens found unopened
      exact ⟨ofLines name own, by rw [joined, all_whole whole lined]⟩

/-- A recipe behind another one, whose block closes and opens again on one line, and closes on a line
with the brace of the module around it. -/
theorem body?_eq_blockAt?_nested :
    let before : Text := "module M \x7b\n craftRecipe A \x7b a \x7d\n".toList
    let inside : Text := " é \x7b x\n\x7d \x7b y\n\x7d ".toList
    let behind : Text := " \x7d\ncraftRecipe C \x7b c \x7d\n".toList
    let here : Text := " craftRecipe B\n".toList ++ Brace.braced inside ++ behind
    Starts before here "B".toList ∧ '\r' ∉ before ++ here ∧ ¬ ['/', '*'] <:+: before ++ here ∧
      firstBrace? here = some '{' ∧ '{' ∉ behind.restOfLine ∧
      Brace.blockAt? (before ++ here) (byteSize before) = some (inside, 65) ∧
      ∃ block, block.name = "B".toList ∧ block.body? = some inside ∧
        all (before ++ here) = ⟨(all before).value ++ block :: (all behind.nextLine).value,
          (all behind.nextLine).issues⟩ := by
  intro before inside behind here
  have starts : Starts before here "B".toList :=
    ⟨by decide +kernel, by decide +kernel, by decide +kernel⟩
  have unreturned : '\r' ∉ before ++ here := by decide +kernel
  have signless : ¬ ['/', '*'] <:+: before ++ here := by decide +kernel
  have opens : firstBrace? here = some '{' := by decide +kernel
  have unopened : '{' ∉ behind.restOfLine := by decide +kernel
  have found : Brace.blockAt? (before ++ here) (byteSize before) = some (inside, 65) := by
    decide +kernel
  have left : (before ++ here).dropBytes? 65 = some behind := by decide +kernel
  obtain ⟨bodies, resumes⟩ := body?_eq_blockAt? starts unreturned signless opens
  obtain ⟨behind', left', emits⟩ := resumes inside 65 found
  obtain rfl : behind' = behind := Option.some.inj (left'.symm.trans left)
  obtain ⟨block, emitted⟩ := emits unopened
  obtain ⟨named, inside', stop, found', body⟩ := bodies block _ (by rw [emitted])
  obtain ⟨rfl, -⟩ := Prod.mk.inj (Option.some.inj (found'.symm.trans found))
  refine ⟨starts, unreturned, signless, opens, unopened, found, block, named, ?_, emitted⟩
  rw [body, Bytewise.inner_braced]

end RecipeSource

end CraftScript
