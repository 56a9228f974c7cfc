import CraftScript.Proofs.BraceMatching
import CraftScript.Proofs.Bytewise.Occurrences

/-! The places of blocks. A search reports blocks one behind the other, and each head in the text lies
in a block that is reported, unless the search has ended at the first head whose brace never closes.
What is left of the text without the blocks is told byte by byte. -/
namespace CraftScript

namespace Text

def outside (spans : List Span) (start : Nat) (bytes : List UInt8) : List UInt8 :=
  ((bytes.zipIdx start).filter fun (_, n) =>
    !spans.any fun span => span.start ≤ n && n < span.stop).map (·.1)

theorem outside_append (spans : List Span) (start : Nat) (early late : List UInt8) :
    outside spans start (early ++ late) =
      outside spans start early ++ outside spans (start + early.length) late := by
  simp only [outside, List.zipIdx_append, List.filter_append, List.map_append]

theorem outside_eq_self {spans : List Span} {start : Nat} {bytes : List UInt8}
    (behind : ∀ span ∈ spans, start + bytes.length ≤ span.start) :
    outside spans start bytes = bytes := by
  have every : ∀ entry ∈ bytes.zipIdx start,
      (!spans.any fun span => span.start ≤ entry.2 && entry.2 < span.stop) = true := by
    rintro ⟨b, n⟩ member
    obtain ⟨-, bound, -⟩ := List.mem_zipIdx member
    simp only [Bool.not_eq_true', List.any_eq_false, Bool.and_eq_true, decide_eq_true_eq]
    intro span inside covered
    have later := behind span inside
    omega
  rw [outside, List.filter_eq_self.mpr every, List.zipIdx_map_fst]

theorem outside_eq_nil {spans : List Span} {span : Span} (member : span ∈ spans) {start : Nat}
    {bytes : List UInt8} (begun : span.start ≤ start) (ended : start + bytes.length ≤ span.stop) :
    outside spans start bytes = [] := by
  rw [outside, List.map_eq_nil_iff, List.filter_eq_nil_iff]
  rintro ⟨b, n⟩ inside
  obtain ⟨early, late, -⟩ := List.mem_zipIdx inside
  simp only [Bool.not_eq_true', Bool.not_eq_false, List.any_eq_true, Bool.and_eq_true,
    decide_eq_true_eq]
  exact ⟨span, member, by omega, by omega⟩

theorem outside_cons {span : Span} (spans : List Span) {start : Nat} (ended : span.stop ≤ start)
    (bytes : List UInt8) : outside (span :: spans) start bytes = outside spans start bytes := by
  rw [outside, outside]
  congr 1
  apply List.filter_congr
  rintro ⟨b, n⟩ inside
  obtain ⟨early, -, -⟩ := List.mem_zipIdx inside
  have past : decide (n < span.stop) = false := decide_eq_false (by omega)
  simp [past]

theorem removeSpansFrom?_outside {t : Text} {spans : List Span} (fits : ∀ span ∈ spans, Fits t span)
    (apart : spans.Pairwise fun a b => a.stop ≤ b.start) {front tail : Text}
    (whole : t = front ++ tail) (behind : ∀ span ∈ spans, byteSize front ≤ span.start) :
    ∃ rest, t.removeSpansFrom? (byteSize front) spans = some rest ∧
      rest.bytes = outside spans (byteSize front) tail.bytes := by
  induction spans generalizing front tail with
  | nil =>
    refine ⟨tail, ?_, (outside_eq_self (by simp)).symm⟩
    rw [removeSpansFrom?, whole, dropBytes?_append]
  | cons span spans ih =>
    obtain ⟨later, apart⟩ := List.pairwise_cons.mp apart
    obtain ⟨long, inside, after, split, place⟩ := (fits_iff ..).mp (fits span (by simp))
    have begun := behind span (by simp)
    rw [place] at begun
    obtain ⟨kept, rfl⟩ := isPrefix_of_byteSize_le ⟨tail, whole.symm⟩
      ⟨inside ++ after, by rw [split, List.append_assoc]⟩ begun
    have parts : tail = kept ++ (inside ++ after) := by
      rw [whole, List.append_assoc, List.append_assoc] at split
      exact List.append_cancel_left split
    obtain ⟨rest, cut, left⟩ := ih (fun other member => fits other (by simp [member])) apart split
      (fun other member => by simpa [place] using later other member)
    have first : t.slice? ⟨byteSize front, span.start⟩ = some kept := by
      rw [place]
      exact slice?_eq_some (by rw [whole, parts, List.append_assoc])
    have stop : span.stop = byteSize (front ++ kept ++ inside) := by rw [place]
    refine ⟨kept ++ rest, by rw [removeSpansFrom?, first, stop, cut]; rfl, ?_⟩
    have gap : ∀ other ∈ span :: spans, byteSize front + (bytes kept).length ≤ other.start := by
      intro other member
      rw [length_bytes, ← byteSize_append]
      rcases List.mem_cons.mp member with rfl | member
      · rw [place]
      · have bound := later other member
        rw [stop, byteSize_append] at bound
        omega
    have starts : byteSize front + (bytes kept).length = span.start := by
      rw [length_bytes, ← byteSize_append, place]
    have stops : span.start + inside.bytes.length = span.stop := by
      rw [length_bytes, place, ← byteSize_append]
    rw [parts, bytes_append, bytes_append, bytes_append, outside_append, outside_eq_self gap, starts,
      outside_append, outside_eq_nil (by simp) (Nat.le_refl _) (Nat.le_of_eq stops), stops,
      outside_cons spans (Nat.le_refl _), left, stop, List.nil_append]

end Text

namespace Block

open Text

def HeadAt (word t : Text) (n : Nat) (name inside : Text) : Prop :=
  ∃ front rest, t = front ++ rest ∧ byteSize front = n ∧
    opener word front.getLast? rest = some (name, inside)

def UnclosedAt (word t : Text) (n : Nat) (name : Text) : Prop :=
  ∃ inside, HeadAt word t n name inside ∧ Brace.StaysOpen 0 inside

/-- The span covers a whole block: the keyword at the start of a word, blanks, the name, blanks or
none, and a balanced body in braces. -/
def Covers (word t : Text) (block : Block) (span : Span) : Prop :=
  ∃ front gap gap' after,
    t = front ++ (word ++ gap ++ block.name ++ gap' ++ Brace.braced block.body) ++ after ∧
    span = ⟨byteSize front,
      byteSize (front ++ (word ++ gap ++ block.name ++ gap' ++ Brace.braced block.body))⟩ ∧
    beginsWord front.getLast? ∧ gap ≠ [] ∧ (∀ c ∈ gap, isBlank c) ∧ block.name ≠ [] ∧
    (∀ c ∈ block.name, isNameChar c) ∧ (∀ c ∈ gap', isBlank c) ∧ Brace.Balanced block.body

variable {word t : Text}

theorem HeadAt.lt_byteSize {n : Nat} {name inside : Text} (head : HeadAt word t n name inside) :
    n < byteSize t := by
  obtain ⟨front, rest, rfl, rfl, read⟩ := head
  obtain ⟨-, gap, gap', spaced, -, -, -, -, rfl⟩ := opener_eq_some_iff.mp read
  rw [byteSize_append]
  exact Nat.lt_add_of_pos_right (byteSize_pos (by simp [spaced]))

theorem HeadAt.unique {n : Nat} {name name' inside inside' : Text}
    (head : HeadAt word t n name inside) (head' : HeadAt word t n name' inside') :
    name = name' ∧ inside = inside' := by
  obtain ⟨front, rest, rfl, rfl, read⟩ := head
  obtain ⟨front', rest', split, size, read'⟩ := head'
  have cut := splitBytes?_append front' rest'
  rw [size, ← split, splitBytes?_append] at cut
  obtain ⟨rfl, rfl⟩ := Prod.mk.inj (Option.some.inj cut)
  rw [read] at read'
  exact Prod.mk.inj (Option.some.inj read')

theorem Covers.fits {block : Block} {span : Span} (covers : Covers word t block span) :
    Fits t span ∧ span.start < span.stop := by
  obtain ⟨front, gap, gap', after, whole, rfl, -⟩ := covers
  refine ⟨(fits_iff ..).mpr ⟨front, _, after, whole, rfl⟩, ?_⟩
  rw [byteSize_append]
  exact Nat.lt_add_of_pos_right (byteSize_pos (by simp [Brace.braced]))

theorem balanced_source {gap gap' : Text} (keyword : IsKeyword word) {block : Block}
    (blanks : ∀ c ∈ gap, isBlank c) (every : ∀ c ∈ block.name, isNameChar c)
    (blanks' : ∀ c ∈ gap', isBlank c) (balanced : Brace.Balanced block.body) :
    Brace.Balanced (word ++ gap ++ block.name ++ gap' ++ Brace.braced block.body) := by
  have free : Braceless (word ++ gap ++ block.name ++ gap') := by
    simp only [braceless_append]
    exact ⟨⟨⟨keyword.braceless, braceless_blanks blanks⟩, braceless_name every⟩,
      braceless_blanks blanks'⟩
  exact Brace.settles_append (Brace.balanced_of_braceless free)
    (Brace.balanced_enclosed balanced ((Brace.settles_nil 0).mpr rfl))

theorem not_staysOpen_of_balanced {u v head inside after : Text} (balanced : Brace.Balanced (u ++ v))
    (closes : '}' ∈ v) (free : Braceless head) (split : v ++ after = head ++ '{' :: inside) :
    ¬ Brace.StaysOpen 0 inside := by
  intro stays
  rcases List.append_eq_append_iff.mp split with ⟨between, rfl, -⟩ | ⟨between, rfl, late⟩
  · exact free.not_mem.2 (List.mem_append_left _ closes)
  · cases between with
    | nil =>
      rw [List.append_nil] at closes
      exact free.not_mem.2 closes
    | cons b back =>
      obtain ⟨rfl, rfl⟩ := List.cons.inj late
      -- Up to `u` no more is closed than opened, so what is open there is closed in `back`.
      have sane := balanced.sane u (List.prefix_append _ _)
      have total := balanced.settled
      have bound := stays back (List.prefix_append back after)
      have opening := List.count_eq_zero.mpr free.not_mem.1
      have closing := List.count_eq_zero.mpr free.not_mem.2
      simp only [List.count_append, opening, closing, List.count_cons_self,
        List.count_cons_of_ne (show '{' ≠ '}' by decide)] at total
      omega

theorem Covers.closed {block : Block} {span : Span} {n : Nat} {name : Text}
    (keyword : IsKeyword word) (covers : Covers word t block span) (begun : span.start ≤ n)
    (within : n < span.stop) : ¬ UnclosedAt word t n name := by
  rintro ⟨inside, ⟨long, rest, split, rfl, read⟩, stays⟩
  obtain ⟨front, gap, gap', after, whole, rfl, -, -, blanks, -, every, blanks', balanced⟩ := covers
  have source := balanced_source keyword blanks every blanks' balanced
  have last : (word ++ gap ++ block.name ++ gap' ++ Brace.braced block.body).getLast? = some '}' := by
    rw [Brace.braced, ← List.append_assoc, List.getLast?_append]
    rfl
  obtain ⟨early, late, -, parts, nonempty, rfl⟩ :=
    exists_split_within (whole.symm.trans split) begun within
  rw [parts] at source last
  have closes : '}' ∈ late := by
    rw [List.getLast?_append_of_ne_nil early nonempty] at last
    exact List.mem_of_getLast? last
  obtain ⟨-, gap₂, gap₂', -, blanks₂, -, every₂, blanks₂', tail⟩ := opener_eq_some_iff.mp read
  refine not_staysOpen_of_balanced source closes ?_ tail stays
  simp only [braceless_append]
  exact ⟨⟨⟨keyword.braceless, braceless_blanks blanks₂⟩, braceless_name every₂⟩,
    braceless_blanks blanks₂'⟩

/-- What a search from byte `start` on reports: blocks one behind the other, and the head at which it
has ended, if it has. Each head from there on lies in a block or not before that head. -/
structure Reported (word t : Text) (start : Nat) (blocks : List (Block × Span))
    (stopped : Option (Nat × Text)) : Prop where
  covers : ∀ found ∈ blocks, Covers word t found.1 found.2
  behind : ∀ found ∈ blocks, start ≤ found.2.start
  apart : blocks.Pairwise fun a b => a.2.stop ≤ b.2.start
  unclosed : ∀ n name, stopped = some (n, name) →
    start ≤ n ∧ UnclosedAt word t n name ∧ ∀ found ∈ blocks, found.2.stop ≤ n
  complete : ∀ n name inside, start ≤ n → HeadAt word t n name inside →
    (∃ found ∈ blocks, found.2.start ≤ n ∧ n < found.2.stop) ∨
      ∃ m name', stopped = some (m, name') ∧ m ≤ n

theorem HeadAt.behind_silent {passed s rest name inside : Text} {n : Nat}
    (head : HeadAt word (passed ++ s ++ rest) n name inside)
    (silent : (opener word).Silent passed.getLast? s rest) (behind : byteSize passed ≤ n) :
    byteSize (passed ++ s) ≤ n := by
  obtain ⟨front, later, split, rfl, read⟩ := head
  by_contra early
  obtain ⟨mid, late, rfl, rfl, nonempty, rfl⟩ :=
    exists_split_within split behind (Nat.lt_of_not_le early)
  obtain ⟨c, back, rfl⟩ := List.exists_cons_of_ne_nil nonempty
  have nothing := silent mid c back rfl
  rw [Bytewise.lastOf_getLast?, ← List.cons_append, read] at nothing
  contradiction

theorem reported_none {passed rest : Text}
    (silent : (opener word).Silent passed.getLast? rest []) :
    Reported word (passed ++ rest) (byteSize passed) [] none := by
  refine ⟨by simp, by simp, .nil, by simp, fun n name inside behind head => ?_⟩
  have inner := head.lt_byteSize
  rw [← List.append_nil (passed ++ rest)] at head
  have outer := head.behind_silent silent behind
  omega

theorem reported_unclosed {passed before here name inside : Text}
    (silent : (opener word).Silent passed.getLast? before here)
    (read : opener word (passed ++ before).getLast? here = some (name, inside))
    (unclosed : Brace.close? inside = none) :
    Reported word (passed ++ before ++ here) (byteSize passed) []
      (some (byteSize (passed ++ before), name)) := by
  refine ⟨by simp, by simp, .nil, ?_, fun n _ _ behind head => ?_⟩
  · intro n name' same
    obtain ⟨rfl, rfl⟩ := Prod.mk.inj (Option.some.inj same)
    refine ⟨by rw [byteSize_append]; omega, ?_, by simp⟩
    exact ⟨inside, ⟨_, here, rfl, rfl, read⟩, Brace.close?_eq_none_iff.mp unclosed⟩
  · exact .inr ⟨_, name, rfl, head.behind_silent silent behind⟩

theorem reported_cons {passed before source after : Text} {block : Block}
    {blocks : List (Block × Span)} {stopped : Option (Nat × Text)}
    (silent : (opener word).Silent passed.getLast? before (source ++ after))
    (covers : Covers word (passed ++ (before ++ source) ++ after) block
      ⟨byteSize (passed ++ before), byteSize (passed ++ (before ++ source))⟩)
    (later : Reported word (passed ++ (before ++ source) ++ after)
      (byteSize (passed ++ (before ++ source))) blocks stopped) :
    Reported word (passed ++ (before ++ source) ++ after) (byteSize passed)
      ((block, ⟨byteSize (passed ++ before), byteSize (passed ++ (before ++ source))⟩) :: blocks)
      stopped := by
  have bound : byteSize passed ≤ byteSize (passed ++ before) := by
    rw [byteSize_append]
    omega
  have forward := covers.fits.2
  dsimp only at forward
  constructor
  · exact List.forall_mem_cons.mpr ⟨covers, later.covers⟩
  · refine List.forall_mem_cons.mpr ⟨bound, fun found member => ?_⟩
    have behind := later.behind found member
    omega
  · exact List.pairwise_cons.mpr ⟨later.behind, later.apart⟩
  · intro n name same
    obtain ⟨behind, unclosed, past⟩ := later.unclosed n name same
    exact ⟨by omega, unclosed, List.forall_mem_cons.mpr ⟨behind, past⟩⟩
  · intro n name inside behind head
    by_cases reached : byteSize (passed ++ (before ++ source)) ≤ n
    · rcases later.complete n name inside reached head with ⟨found, member, covered⟩ | past
      · exact .inl ⟨found, List.mem_cons_of_mem _ member, covered⟩
      · exact .inr past
    · have split : passed ++ (before ++ source) ++ after = passed ++ before ++ (source ++ after) := by
        simp
      rw [split] at head
      have begun := head.behind_silent silent behind
      exact .inl ⟨_, List.mem_cons_self, begun, Nat.lt_of_not_le reached⟩

/-- The scan of what is left behind `passed` reports its blocks at their places. -/
theorem reported_scanFrom (word passed rest : Text) :
    ∃ stopped, (scanFrom word 0 passed.getLast? rest).unclosed = stopped.map (·.2) ∧
      Reported word (passed ++ rest) (byteSize passed)
        (Piece.located (byteSize passed) (scanFrom word 0 passed.getLast? rest).pieces) stopped := by
  -- By what is left: each block that is found moves text into `passed`.
  induction size : rest.length using Nat.strong_induction_on generalizing passed rest with
  | _ size ih =>
    obtain ⟨missing, scanned⟩ | ⟨found, first, ⟨noClose, scanned⟩ |
      ⟨body, source, after, closed, filled, whole, scanned⟩⟩ :=
      Block.scanFrom_cases word passed.getLast? rest
    · rw [scanned, Bytewise.located_kept]
      exact ⟨none, rfl, reported_none (Pattern.silent_of_firstFrom? missing)⟩
    · obtain ⟨here, split, read⟩ := Pattern.firstFrom?_eq_some first
      have silent := Pattern.silent_before_firstFrom? first split
      rw [scanned, Bytewise.located_kept, split, ← List.append_assoc]
      rw [Bytewise.lastOf_getLast?] at read
      exact ⟨some (byteSize (passed ++ found.before), found.value), rfl,
        reported_unclosed silent read noClose⟩
    · obtain ⟨here, split, read⟩ := Pattern.firstFrom?_eq_some first
      have silent := Pattern.silent_before_firstFrom? first split
      have here_eq : here = source ++ after := by
        rw [whole, List.append_assoc] at split
        exact (List.append_cancel_left split).symm
      subst here_eq
      rw [Bytewise.lastOf_getLast?] at read scanned
      obtain ⟨begins, gap, gap', nonempty, blanks, named, every, blanks', text⟩ :=
        opener_eq_some_iff.mp read
      obtain ⟨inside, balanced⟩ := Brace.close?_eq_some_iff.mp closed
      have source_eq : source = word ++ gap ++ found.value ++ gap' ++ Brace.braced body := by
        apply (List.append_left_inj after).mp
        rw [text, inside]
        simp [Brace.braced]
      have covers : Covers word (passed ++ (found.before ++ source) ++ after) ⟨found.value, body⟩
          ⟨byteSize (passed ++ found.before), byteSize (passed ++ (found.before ++ source))⟩ := by
        refine ⟨passed ++ found.before, gap, gap', after, ?_, ?_, begins, nonempty, blanks, named,
          every, blanks', balanced⟩
        · rw [← source_eq]
          simp
        · rw [← source_eq, List.append_assoc]
      have shorter : after.length < rest.length := by
        have positive := List.length_pos_iff.mpr filled
        rw [whole]
        simp only [List.length_append]
        omega
      obtain ⟨stopped, unclosed, later⟩ :=
        ih _ (size ▸ shorter) (passed ++ (found.before ++ source)) after rfl
      have stop : byteSize passed + byteSize found.before + byteSize source =
          byteSize (passed ++ (found.before ++ source)) := by
        simp only [byteSize_append, Nat.add_assoc]
      refine ⟨stopped, by rw [scanned]; exact unclosed, ?_⟩
      rw [scanned, Bytewise.located_kept_append, Piece.located, stop, ← byteSize_append, whole,
        ← List.append_assoc passed]
      exact reported_cons silent covers later

/-- The head that ends a search is the first one whose brace never closes. -/
theorem Reported.stopped_iff {blocks : List (Block × Span)} {stopped : Option (Nat × Text)}
    (keyword : IsKeyword word) (reported : Reported word t 0 blocks stopped) (n : Nat)
    (name : Text) :
    stopped = some (n, name) ↔
      IsLeast {n | ∃ name, UnclosedAt word t n name} n ∧ UnclosedAt word t n name := by
  have reached : ∀ m name, UnclosedAt word t m name →
      ∃ n name', stopped = some (n, name') ∧ n ≤ m := by
    rintro m name ⟨inside, head, stays⟩
    rcases reported.complete m name inside (Nat.zero_le m) head with
      ⟨found, member, begun, within⟩ | past
    · exact absurd ⟨inside, head, stays⟩ ((reported.covers found member).closed keyword begun within)
    · exact past
  constructor
  · intro same
    obtain ⟨-, unclosed, -⟩ := reported.unclosed n name same
    refine ⟨⟨⟨name, unclosed⟩, ?_⟩, unclosed⟩
    rintro m ⟨name', other⟩
    obtain ⟨n', name', same', early⟩ := reached m name' other
    rw [same] at same'
    obtain ⟨rfl, -⟩ := Prod.mk.inj (Option.some.inj same')
    exact early
  · rintro ⟨⟨-, least⟩, unclosed⟩
    obtain ⟨m, name', same, early⟩ := reached n name unclosed
    obtain ⟨-, other, -⟩ := reported.unclosed m name' same
    obtain rfl : n = m := Nat.le_antisymm (least ⟨name', other⟩) early
    obtain ⟨_, head, -⟩ := unclosed
    obtain ⟨_, head', -⟩ := other
    rw [same, (head.unique head').1]

/-- A search for blocks comes to an end, with spans that fit the text one behind the other, each of
which covers a whole block. Each head in the text lies in one of them, or not before the head at which
the search has stopped; that is the first head whose brace never closes, and the one issue names it.
The spans can be cut out of the text, and every other byte remains. -/
theorem located_complete (keyword : Keyword) (t : Text) :
    let word := keyword.word.toList
    let blocks := (located keyword t).value
    ∃ stopped : Option (Nat × Text),
      Bytewise.blocksFrom? word t 0 = some (blocks, stopped.map (·.2)) ∧
      (∀ found ∈ blocks, Fits t found.2 ∧ found.2.start < found.2.stop ∧
        Covers word t found.1 found.2) ∧
      blocks.Pairwise (fun a b => a.2.stop ≤ b.2.start) ∧
      (∀ n name inside, HeadAt word t n name inside →
        (∃ found ∈ blocks, found.2.start ≤ n ∧ n < found.2.stop) ∨
          ∃ m name', stopped = some (m, name') ∧ m ≤ n) ∧
      (∀ n name, stopped = some (n, name) ↔
        IsLeast {n | ∃ name, UnclosedAt word t n name} n ∧ UnclosedAt word t n name) ∧
      (located keyword t).issues =
        stopped.toList.map (fun (_, name) => .unclosedBlock keyword (String.ofList name)) ∧
      ∃ rest, t.removeSpans? (blocks.map (·.2)) = some rest ∧
        rest.bytes = outside (blocks.map (·.2)) 0 t.bytes := by
  intro word blocks
  obtain ⟨stopped, unclosed, reported⟩ := reported_scanFrom word [] t
  change Reported word t 0 blocks stopped at reported
  have ends : Bytewise.blocksFrom? word t 0 = some (blocks, stopped.map (·.2)) := by
    rw [← unclosed]
    exact Bytewise.blocksFrom?_append word [] t
  have noted : (located keyword t).issues =
      stopped.toList.map (fun (_, name) => .unclosedBlock keyword (String.ofList name)) := by
    change ((scanFrom word 0 none t).unclosed.toList.map _ ++ [] : List Issue) = _
    rw [List.append_nil, show (scanFrom word 0 none t).unclosed = _ from unclosed]
    cases stopped <;> rfl
  have fits : ∀ span ∈ blocks.map (·.2), Fits t span := by
    intro span member
    obtain ⟨found, inside, rfl⟩ := List.mem_map.mp member
    exact (reported.covers found inside).fits.1
  have apart : (blocks.map (·.2)).Pairwise fun a b => a.stop ≤ b.start :=
    List.pairwise_map.mpr reported.apart
  refine ⟨stopped, ends, fun found member => ?_, reported.apart,
    fun n name inside => reported.complete n name inside (Nat.zero_le n),
    reported.stopped_iff (isKeyword_word keyword), noted,
    @removeSpansFrom?_outside t _ fits apart [] t rfl (by simp [byteSize])⟩
  have covers := reported.covers found member
  exact ⟨covers.fits.1, covers.fits.2, covers⟩

end Block

end CraftScript
